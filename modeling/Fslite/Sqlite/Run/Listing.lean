import Fslite.Paging
import Fslite.Sqlite.Run.Consumer
import Fslite.Sqlite.Run.Subtree
import Fslite.Sqlite.Search

namespace fslite

open Paging

namespace FsResult

variable {A B E : Type}

theorem bind_eq_ok {x : Except E A} {f : A → Except E B} {b : B} :
    x >>= f = .ok b ↔ ∃ a, x = .ok a ∧ f a = .ok b := by
  cases x with
  | error err => simp [bind, Except.bind]
  | ok a => simp [bind, Except.bind]

theorem map_eq_ok {x : Except E A} {f : A → B} {b : B} :
    f <$> x = .ok b ↔ ∃ a, x = .ok a ∧ f a = b := by
  cases x with
  | error err => simp [Functor.map, Except.map]
  | ok a => simp [Functor.map, Except.map]

/-- A list of results that are all there. -/
theorem mapM_eq_ok {f : A → Except E B} {rows : List A} {items : List B} :
    rows.mapM f = .ok items ↔ List.Forall₂ (fun row item => f row = .ok item) rows items := by
  induction rows generalizing items with
  | nil => cases items <;> simp [pure, Except.pure]
  | cons row rows ih =>
    rw [List.mapM_cons, bind_eq_ok]
    simp only [bind_eq_ok, pure, Except.pure, Except.ok.injEq, ih]
    constructor
    · rintro ⟨item, hitem, rest, hrest, rfl⟩
      exact .cons hitem hrest
    · rintro (_ | ⟨hitem, hrest⟩)
      exact ⟨_, hitem, _, hrest, rfl⟩

theorem mapM_ok {f : A → Except E B} {rows : List A} (h : ∀ row ∈ rows, ∃ item, f row = .ok item) :
    ∃ items, rows.mapM f = .ok items := by
  induction rows with
  | nil => exact ⟨[], rfl⟩
  | cons row rows ih =>
    obtain ⟨item, hitem⟩ := h row List.mem_cons_self
    obtain ⟨items, hitems⟩ := ih (fun r hr => h r (List.mem_cons_of_mem _ hr))
    exact ⟨item :: items, mapM_eq_ok.mpr (.cons hitem (mapM_eq_ok.mp hitems))⟩

theorem option_mapM_eq_ok {f : A → Except E B} {cursor : Option A} {after : Option B} :
    cursor.mapM f = .ok after ↔
    cursor = none ∧ after = none ∨ ∃ a b, cursor = some a ∧ after = some b ∧ f a = .ok b := by
  cases cursor with
  | none => simp [pure, Except.pure, eq_comm]
  | some a =>
    simp only [Option.mapM_some, map_eq_ok, reduceCtorEq, false_and, Option.some.injEq, false_or]
    constructor
    · rintro ⟨b, hb, rfl⟩
      exact ⟨a, b, rfl, rfl, hb⟩
    · rintro ⟨_, b, rfl, rfl, hb⟩
      exact ⟨b, hb, rfl⟩

end FsResult

theorem decode_cursor_eq_ok {A : Type} {codec : Codec A} {raw : Text} {accepts : A → Bool}
    {payload : A} :
    decode_cursor codec raw accepts = .ok payload ↔ codec.decode raw = some payload ∧
    accepts payload = true := by
  unfold decode_cursor
  cases hdecode : codec.decode raw with
  | none => simp
  | some payload' =>
    by_cases haccepts : accepts payload' = true
    · simp only [haccepts, if_true, Except.ok.injEq, Option.some.injEq]
      exact ⟨fun h => ⟨h, h ▸ haccepts⟩, And.left⟩
    · simp only [haccepts, Bool.false_eq_true, if_false, reduceCtorEq, Option.some.injEq, false_iff,
        not_and]
      rintro rfl
      exact haccepts

/-- The rows that a page shows and the row whose position it ends at, cut from one
more than the limit. -/
theorem cut_takes {A K : Type} [LinearOrder K] {key : A → K} {limit : Nat} (hlimit : 0 < limit)
    {rows : List A} {pos : Option K} :
    Takes key rows pos (cut limit ((after key rows pos).take (limit + 1))).1
      ((cut limit ((after key rows pos).take (limit + 1))).2.map key) := by
  have h : Takes key rows pos _ _ := Takes.of_limit hlimit rows pos
  unfold cut
  rw [List.length_take, List.take_take]
  by_cases hmore : limit < (after key rows pos).length
  · rw [if_pos hmore] at h
    rw [if_pos (by omega), min_eq_left (by omega)]
    exact h
  · rw [if_neg hmore] at h
    rw [if_neg (by omega), List.take_of_length_le (by omega)]
    rwa [List.take_of_length_le (by omega)] at h

/-- A method that lists rows by pages, with cursors that stand for positions. `opens`
says when there is something to list, and `accepts` which cursors go with it. -/
structure Keyset (A B K P : Type) [LinearOrder K] where
  codec : Codec P
  limit : Nat
  method : Db → Option Text → FsResult (Page B)
  opens : Db → Prop
  listing : Db → List A
  key : A → K
  position : P → K
  payload : Db → A → P
  accepts : Db → P → Prop
  into : Db → A → FsResult B
  limit_pos : 0 < limit
  position_payload : ∀ db a, position (payload db a) = key a
  accepts_payload : ∀ db a, accepts db (payload db a)
  method_eq_ok : ∀ db cursor page, method db cursor = .ok page ↔ opens db ∧ ∃ after : Option P,
    (cursor = none ∧ after = none ∨ ∃ raw payload, cursor = some raw ∧ after = some payload ∧
      codec.decode raw = some payload ∧ accepts db payload) ∧
    ∃ fetched, cut limit ((Paging.after key (listing db) (after.map position)).take (limit + 1)) =
      fetched ∧
      fetched.1.mapM (into db) = .ok page.items ∧
      fetched.2.map (fun last => codec.encode (payload db last)) = page.next_cursor

namespace Keyset

variable {A B K P : Type} [LinearOrder K] {rt : Runtime}

/-- The method's successful calls in the course of a run. -/
def Page (σ : Keyset A B K P) (rt : Runtime) (w : World) (cursor : Option Text) (items : List B)
    (next : Option Text) : Prop :=
  Reachable rt w ∧ σ.method w.db cursor = .ok ⟨items, next⟩

/-- What a cursor stands for: no cursor for the start, another one for a position. -/
def Marks (σ : Keyset A B K P) : Option Text → Option K → Prop
  | none, pos => pos = none
  | some raw, pos => (σ.codec.decode raw).map σ.position = pos

/-- A page takes the first rows after the position of its cursor. -/
theorem page_takes (σ : Keyset A B K P) {db : Db} {cursor : Option Text} {pos : Option K}
    {items : List B} {next : Option Text} (hmarks : σ.Marks cursor pos)
    (h : σ.method db cursor = .ok ⟨items, next⟩) : σ.opens db ∧ ∃ taken pos',
      Takes σ.key (σ.listing db) pos taken pos' ∧
      List.Forall₂ (fun a b => σ.into db a = .ok b) taken items ∧
      σ.Marks next pos' ∧ (next.isSome ↔ pos'.isSome) := by
  obtain ⟨hopens, after, hafter, fetched, hfetched, hitems, hnext⟩ :=
    (σ.method_eq_ok db cursor ⟨items, next⟩).mp h
  have hpos : after.map σ.position = pos := by
    obtain ⟨rfl, rfl⟩ | ⟨raw, payload, rfl, rfl, hdecode, _⟩ := hafter
    · exact hmarks.symm
    · rw [← hmarks, hdecode]
  rw [hpos] at hfetched
  subst hfetched
  simp only at hnext
  subst hnext
  refine ⟨hopens, _, _, cut_takes σ.limit_pos, FsResult.mapM_eq_ok.mp hitems, ?_, by simp⟩
  · cases (cut σ.limit _).2 with
    | none => rfl
    | some last =>
      simp only [Option.map_some, Marks, σ.codec.decode_encode, σ.position_payload]

/-- The items of a page are made of rows. -/
theorem mem_page (σ : Keyset A B K P) {db : Db} {cursor : Option Text} {items : List B}
    {next : Option Text} (h : σ.method db cursor = .ok ⟨items, next⟩) :
    ∀ b ∈ items, ∃ a ∈ σ.listing db, σ.into db a = .ok b := by
  obtain ⟨pos, hpos⟩ : ∃ pos, σ.Marks cursor pos := by
    cases cursor with
    | none => exact ⟨none, rfl⟩
    | some raw => exact ⟨_, rfl⟩
  obtain ⟨_, taken, _, htakes, hshows, _⟩ := σ.page_takes hpos h
  intro b hb
  obtain ⟨a, ha, hinto⟩ := exists_shown_right hshows b hb
  exact ⟨a, (htakes.sub ha).1, hinto⟩

/-- The pages list what the rows show, whatever happens between them. -/
theorem paginates (σ : Keyset A B K P) {itemKey : B → K} {present : Db → B → Prop}
    (hkey : ∀ db a b, σ.into db a = .ok b → itemKey b = σ.key a)
    (hrows : ∀ w, Reachable rt w → σ.opens w.db → Ascending σ.key (σ.listing w.db))
    (hpresent : ∀ w, Reachable rt w → σ.opens w.db → ∀ b, present w.db b ↔ ∃ a ∈ σ.listing w.db,
    σ.into w.db a = .ok b) :
    Paginates (σ.Page rt) itemKey (fun w => present w.db) := by
  refine Paginates.of_listing σ.key (fun w => σ.listing w.db) σ.Marks
    (fun w a b => σ.into w.db a = .ok b) rfl (fun w => hkey w.db) ?_ ?_ ?_
  · rintro w cursor pos items next hmarks ⟨hreach, h⟩
    obtain ⟨hopens, taken, pos', htakes, hshows, hnext⟩ := σ.page_takes hmarks h
    exact ⟨taken, pos', ⟨hrows w hreach hopens, htakes⟩, hshows, hnext⟩
  · rintro w cursor items next ⟨hreach, h⟩
    exact hpresent w hreach ((σ.method_eq_ok _ _ _).mp h).1
  · intro w a b b' hb hb'
    rw [hb, Except.ok.injEq] at hb'
    exact hb'

/-- In one state the pages come to an end. -/
theorem finishes (σ : Keyset A B K P) {w : World} (hreach : Reachable rt w) (hopens : σ.opens w.db)
    (hrows : Ascending σ.key (σ.listing w.db))
    (hinto : ∀ a ∈ σ.listing w.db, ∃ b, σ.into w.db a = .ok b) :
    ∃ pages, Finished (fun t cursor items next => t = w ∧ σ.Page rt t cursor items next) pages := by
  refine Paging.finishes (s := w) (fun t => σ.listing t.db) (σ.Page rt)
    (fun cursor pos => ∃ last : Option A,
    cursor = last.map (fun a => σ.codec.encode (σ.payload w.db a)) ∧ pos = last.map σ.key) hrows
      ⟨none, rfl, rfl⟩ ?_
  rintro _ _ ⟨last, rfl, rfl⟩
  obtain ⟨fetched, hfetched⟩ : ∃ fetched,
    cut σ.limit ((after σ.key (σ.listing w.db) (last.map σ.key)).take (σ.limit + 1)) = fetched :=
    ⟨_, rfl⟩
  have htakes : Takes σ.key (σ.listing w.db) (last.map σ.key) fetched.1 (fetched.2.map σ.key) := by
    rw [← hfetched]
    exact cut_takes σ.limit_pos
  obtain ⟨items, hitems⟩ := FsResult.mapM_ok (f :=
    σ.into w.db) (fun a ha => hinto a (htakes.sub ha).1)
  have hpos : (last.map (σ.payload w.db)).map σ.position = last.map σ.key := by
    rw [Option.map_map]
    exact congrArg (fun f => last.map f) (funext (σ.position_payload w.db))
  refine ⟨items, fetched.2.map (fun a => σ.codec.encode (σ.payload w.db a)), fetched.1,
    fetched.2.map σ.key,
    ⟨hreach, (σ.method_eq_ok _ _ ⟨items, _⟩).mpr
      ⟨hopens, last.map (σ.payload w.db), ?_, fetched, by rw [hpos, hfetched], hitems, rfl⟩⟩,
    htakes, ⟨fetched.2, rfl, rfl⟩, by simp⟩
  cases last with
  | none => exact Or.inl ⟨rfl, rfl⟩
  | some a => exact Or.inr ⟨_, _, rfl, rfl, σ.codec.decode_encode _, σ.accepts_payload _ _⟩

end Keyset

theorem text_le_iff (a b : Text) : text_le a b = true ↔ a ≤ b := by
  induction a generalizing b with
  | nil => simp only [text_le, ← not_lt, List.not_lt_nil, not_false_eq_true]
  | cons x xs ih =>
    cases b with
    | nil => simp [text_le, ← not_lt]
    | cons y ys =>
      rw [← not_lt, List.cons_lt_cons_iff]
      simp only [text_le, Bool.or_eq_true, Bool.and_eq_true, decide_eq_true_eq, ih, ← not_lt]
      obtain hlt | rfl | hgt := lt_trichotomy x y
      · simp [hlt, hlt.not_gt, hlt.ne']
      · simp
      · simp [hgt, hgt.not_gt, hgt.ne']

theorem child_le_iff (a b : RawNode) : resolve.child_le a b ↔ child_key a ≤ child_key b := by
  unfold resolve.child_le child_key
  rw [Prod.Lex.toLex_le_toLex]
  by_cases hname : a.name = b.name
  · simp only [hname, if_true, lt_irrefl, false_or, true_and]
    exact WithBot.coe_le_coe.symm
  · rw [if_neg hname, text_le_iff]
    simp [hname, lt_iff_le_and_ne]

theorem child_after_iff {name : Text} {id : WithBot NodeId} {row : RawNode} :
    (row.name > name ∨ row.name = name ∧ (row.id : WithBot NodeId) > id) ↔
    toLex (name, id) < child_key row := by
  rw [child_key, Prod.Lex.toLex_lt_toLex, eq_comm]

/-- The empty texts come before every sibling. -/
theorem start_lt_child_key (row : RawNode) :
    toLex (([] : Text), (⊥ : WithBot NodeId)) < child_key row := by
  rw [child_key, Prod.Lex.toLex_lt_toLex]
  cases row.name with
  | nil => exact Or.inr ⟨rfl, WithBot.bot_lt_coe _⟩
  | cons c rest => exact Or.inl (List.nil_lt_cons c rest)

/-- Siblings are listed in the order of their keys. -/
theorem fetch_children_ascending (db : Db) (ws : WorkspaceId) (id : NodeId) :
    Ascending child_key (resolve.fetch_children db ws id) := by
  refine ascending_insertionSort child_key child_le_iff ?_
  have hids : ((db.nodes.rows.filter
    (fun n => n.workspace_id = ws ∧ n.parent_id = some id ∧ n.trashed_at_ms = none)).map
      NodeRow.key).Nodup := db.nodes.nodup.sublist (List.filter_sublist.map NodeRow.key)
  rw [List.map_map]
  refine List.Nodup.of_map (fun k : Text ×ₗ WithBot NodeId => (ofLex k).2) ?_
  rw [List.map_map]
  exact List.Nodup.of_map (WithBot.unbotD 0) (by rw [List.map_map]; exact hids)

namespace directory

variable {db : Db} {ws : WorkspaceId} {path : VirtualPath} {cursor : Option Text} {limit : Nat}

/-- The position that a cursor stands for. -/
def DirCursor.pos (c : DirCursor) : Text ×ₗ WithBot NodeId :=
  toLex (c.last_name, (c.last_id : WithBot NodeId))

theorem fetch_children_page_eq (after : Option DirCursor) (id : NodeId) :
    fetch_children_page db ws id
      ((after.map (fun c => (c.last_name, (c.last_id : WithBot NodeId)))).getD ([], ⊥)).1
      ((after.map (fun c => (c.last_name, (c.last_id : WithBot NodeId)))).getD ([], ⊥)).2 limit =
    (Paging.after child_key (resolve.fetch_children db ws id)
    (after.map DirCursor.pos)).take limit := by
  unfold fetch_children_page
  congr 1
  cases after with
  | none =>
    refine List.filter_eq_self.mpr (fun row _ => ?_)
    exact decide_eq_true (child_after_iff.mpr (start_lt_child_key row))
  | some c =>
    refine List.filter_congr (fun row _ => ?_)
    rw [Bool.eq_iff_iff, decide_eq_true_iff, decide_eq_true_iff]
    exact child_after_iff

theorem read_dir_raw_eq_found {after : Option DirCursor} {parent_id : NodeId}
    {rows : List RawNode} :
    read_dir_raw db ws path after limit = .Found parent_id rows ↔ ∃ dir,
      resolve.resolve db ws path = some dir ∧
      dir.kind = .Directory ∧ (∀ c, after = some c → c.parent_id = dir.id) ∧ dir.id = parent_id ∧
      (Paging.after child_key (resolve.fetch_children db ws dir.id) (after.map DirCursor.pos)).take
      (limit + 1) = rows := by
  unfold read_dir_raw
  cases resolve.resolve db ws path with
  | none => simp
  | some dir =>
    simp only [Option.some.injEq, exists_eq_left']
    by_cases hkind : dir.kind = .Directory
    · by_cases hmatch : ∀ c, after = some c → c.parent_id = dir.id
      · have hany : after.any (fun cursor => cursor.parent_id ≠ dir.id) = false := by
          cases after with
          | none => rfl
          | some c => simpa using hmatch c rfl
        rw [if_neg (not_not.mpr hkind), hany, if_neg Bool.false_ne_true, ReadDirRaw.Found.injEq,
          ← fetch_children_page_eq]
        exact ⟨fun h => ⟨hkind, hmatch, h⟩, fun h => h.2.2⟩
      · have hany : after.any (fun cursor => cursor.parent_id ≠ dir.id) = true := by
          cases after with
          | none => exact absurd (fun c hc => by cases hc) hmatch
          | some c => simpa using hmatch
        rw [if_neg (not_not.mpr hkind), hany, if_pos rfl]
        simp [hmatch]
    · simp [hkind]

theorem read_dir_eq_ok {codec : Codec DirCursor} {page : Page Node} :
    read_dir codec db ws path ⟨cursor, limit⟩ = .ok page ↔
    ∃ after parent_id rows, cursor.mapM (fun raw => decode_dir_cursor codec raw ws) = .ok after ∧
      read_dir_raw db ws path after (max limit 1) = .Found parent_id rows ∧
      (cut (max limit 1) rows).1.mapM RawNode.into_node = .ok page.items ∧
      (cut (max limit 1) rows).2.map
      (fun last => encode_dir_cursor codec ws parent_id last.name last.id) = page.next_cursor := by
  obtain ⟨items, next⟩ := page
  unfold read_dir
  simp only [FsResult.bind_eq_ok]
  refine exists_congr (fun after => ?_)
  cases read_dir_raw db ws path after (max limit 1) with
  | Found parent_id rows => simp [FsResult.bind_eq_ok, pure, Except.pure]
  | _ => simp [throw, throwThe, MonadExceptOf.throw]

end directory

theorem require_read_bind_eq_ok {A : Type} {ctx : RequestContext} {subject : Text}
    {rest : Unit → FsResult A} {a : A} :
    SqliteFileSystem.require_read ctx subject >>= rest = .ok a ↔ ctx.has_capability .Read = true ∧
    rest () = .ok a := by
  unfold SqliteFileSystem.require_read
  by_cases hread : ctx.has_capability .Read = true
  · rw [if_pos hread]
    exact (and_iff_right hread).symm
  · rw [if_neg hread]
    simp [hread, bind, Except.bind]

namespace directory

variable (cursors : SqliteFileSystem.Cursors) (ctx : RequestContext) (path : VirtualPath)
  (limit : Nat)

/-- The listing that `read_dir` cuts into pages. -/
def read_dir_keyset : Keyset RawNode Node (Text ×ₗ WithBot NodeId) DirCursor where
  codec := cursors.dir
  limit := max limit 1
  method db cursor := SqliteFileSystem.read_dir cursors ctx db path ⟨cursor, limit⟩
  opens db := ctx.has_capability .Read = true ∧
    ∃ dir, resolve.resolve db ctx.workspace_id path = some dir ∧ dir.kind = .Directory
  listing db := ((resolve.resolve db ctx.workspace_id path).map
    (fun dir => resolve.fetch_children db ctx.workspace_id dir.id)).getD []
  key := child_key
  position := DirCursor.pos
  payload db row := {
    v := 1
    workspace_id := ctx.workspace_id
    parent_id := ((resolve.resolve db ctx.workspace_id path).map RawNode.id).getD 0
    last_name := row.name
    last_id := row.id }
  accepts db payload := payload.v = 1 ∧ payload.workspace_id = ctx.workspace_id ∧
    payload.parent_id = ((resolve.resolve db ctx.workspace_id path).map RawNode.id).getD 0
  into _ row := row.into_node
  limit_pos := by omega
  position_payload _ _ := rfl
  accepts_payload _ _ := ⟨rfl, rfl, rfl⟩
  method_eq_ok := by
    intro db cursor page
    rw [SqliteFileSystem.read_dir, require_read_bind_eq_ok]
    simp only [read_dir_eq_ok, read_dir_raw_eq_found, FsResult.option_mapM_eq_ok, decode_dir_cursor,
      decode_cursor_eq_ok, decide_eq_true_eq]
    constructor
    · rintro ⟨hread, after, _, _, hafter, ⟨dir, hdir, hkind, hparent, rfl, rfl⟩, hitems, hnext⟩
      refine ⟨⟨hread, dir, hdir, hkind⟩, after, ?_, _, rfl, ?_, ?_⟩
      · refine hafter.imp_right ?_
        rintro ⟨raw, payload, hraw, rfl, hdecode, hv, hws⟩
        exact ⟨raw, payload, hraw, rfl, hdecode, hv, hws, by simpa [hdir] using hparent payload rfl⟩
      · simpa [hdir] using hitems
      · simpa [hdir, encode_dir_cursor] using hnext
    · rintro ⟨⟨hread, dir, hdir, hkind⟩, after, hafter, _, rfl, hitems, hnext⟩
      simp only [hdir, Option.map_some, Option.getD_some] at hafter hitems hnext
      refine ⟨hread, after, dir.id, _, ?_, ⟨dir, hdir, hkind, ?_, rfl, rfl⟩, hitems, hnext⟩
      · refine hafter.imp_right ?_
        rintro ⟨raw, payload, hraw, rfl, hdecode, hv, hws, _⟩
        exact ⟨raw, payload, hraw, rfl, hdecode, hv, hws⟩
      · rintro payload rfl
        obtain ⟨_, hnone⟩ | ⟨_, _, _, hsome, _, _, _, hparent⟩ := hafter
        · cases hnone
        · cases hsome
          exact hparent

end directory

/-- The sort key that a position stands for. -/
def position_key (pos : ℤ × Text × WithBot NodeId) : ℤ ×ₗ Text ×ₗ WithBot NodeId :=
  toLex (pos.1, toLex pos.2)

/-- The rows of the recursive query in order. -/
def subtree (db : Db) (ws : WorkspaceId) (root_id : NodeId) (max_depth : Option Nat) :
    List Descendant :=
  match descendants db ws root_id max_depth with
  | .ok rows => rows.insertionSort (fun a b => descendant_key a ≤ descendant_key b)
  | .error _ => []

theorem fetch_descendants_eq_ok {db : Db} {ws : WorkspaceId} {root_id : NodeId}
    {max_depth : Option Nat} {pos : Option (ℤ × Text × WithBot NodeId)} {limit : Nat}
    {rows : List Descendant} :
    fetch_descendants db ws root_id max_depth (pos.getD (0, [], ⊥)) limit = .ok rows ↔
      (∃ all, descendants db ws root_id max_depth = .ok all) ∧
        (after descendant_key (subtree db ws root_id max_depth) (pos.map position_key)).take limit =
        rows := by
  unfold fetch_descendants subtree
  cases descendants db ws root_id max_depth with
  | error fault => simp [bind, Except.bind]
  | ok all =>
    have hafter : ∀ sorted : List Descendant, sorted.filter
      (after_descendant (pos.getD (0, [], ⊥))) =
        after descendant_key sorted (pos.map position_key) := by
      intro sorted
      cases pos with
      | none =>
        refine List.filter_eq_self.mpr (fun row _ => after_descendant_iff.mpr ?_)
        rw [descendant_key, Prod.Lex.toLex_lt_toLex]
        obtain hzero | hpos := Nat.eq_zero_or_pos row.depth
        · exact Or.inr ⟨by simp [hzero], start_lt_child_key row.node⟩
        · exact Or.inl (by simpa using hpos)
      | some pos =>
        refine List.filter_congr (fun row _ => ?_)
        rw [Bool.eq_iff_iff, decide_eq_true_iff]
        exact after_descendant_iff
    simp [bind, Except.bind, pure, Except.pure, hafter]

/-- Below a live node the rows are what is beneath it, in order. -/
theorem subtree_ascending {db : Db} {ws : WorkspaceId} {r : NodeRow} (hr : Live db ws r)
    (max_depth : Option Nat) :
    Ascending descendant_key (subtree db ws r.id max_depth) := by
  unfold subtree
  cases hrows : descendants db ws r.id max_depth with
  | error fault => exact .nil
  | ok rows =>
    refine ascending_insertionSort descendant_key (fun _ _ => Iff.rfl) ?_
    refine List.Nodup.of_map (fun k : ℤ ×ₗ Text ×ₗ WithBot NodeId => (ofLex (ofLex k).2).2) ?_
    rw [List.map_map]
    refine List.Nodup.of_map (WithBot.unbotD 0) ?_
    rw [List.map_map]
    exact descendants_nodup hr hrows

theorem mem_subtree {db : Db} {ws : WorkspaceId} {r : NodeRow} (hwf : NodesWellFormed db)
    (hr : Live db ws r) {max_depth : Option Nat} {row : Descendant} :
    row ∈ subtree db ws r.id max_depth ↔
      ∃ names n, Beneath db r.id names n ∧ Within max_depth names ∧
      row = Descendant.of names n := by
  obtain ⟨rows, hrows⟩ := descendants_ok hwf hr max_depth
  rw [← mem_descendants hwf hr hrows, subtree, hrows]
  exact List.mem_insertionSort _

namespace directory

section tree

variable {db : Db} {ws : WorkspaceId} {path : VirtualPath} {options : TreeOptions}
  {cursor : Option Text} {limit : Nat}

/-- The position that a cursor stands for. -/
def TreeCursor.pos (c : TreeCursor) : ℤ ×ₗ Text ×ₗ WithBot NodeId :=
  position_key (c.last_depth, c.last_name, (c.last_id : WithBot NodeId))

theorem tree_raw_eq_found {after : Option TreeCursor} {root_id : NodeId} {rows : List Descendant} :
    tree_raw db ws path options after limit = .ok (.Found root_id rows) ↔ ∃ root,
      resolve.resolve db ws path = some root ∧
      root.kind = .Directory ∧ (∀ c, after = some c → c.root_id = root.id) ∧ root.id = root_id ∧
      (∃ all, descendants db ws root.id options.max_depth = .ok all) ∧
      (Paging.after descendant_key (subtree db ws root.id options.max_depth)
      (after.map TreeCursor.pos)).take (limit + 1) = rows := by
  unfold tree_raw
  cases resolve.resolve db ws path with
  | none => simp
  | some root =>
    simp only [Option.some.injEq, exists_eq_left']
    by_cases hkind : root.kind = .Directory
    · by_cases hmatch : ∀ c, after = some c → c.root_id = root.id
      · have hany : after.any (fun cursor => cursor.root_id ≠ root.id) = false := by
          cases after with
          | none => rfl
          | some c => simpa using hmatch c rfl
        have hpos : after.map TreeCursor.pos =
            (after.map (fun c =>
              (c.last_depth, c.last_name, (c.last_id : WithBot NodeId)))).map position_key := by
          rw [Option.map_map]
          rfl
        rw [if_neg (not_not.mpr hkind), hany, if_neg Bool.false_ne_true, FsResult.bind_eq_ok, hpos]
        simp only [fetch_tree_page, fetch_descendants_eq_ok, pure, Except.pure, Except.ok.injEq,
          TreeRaw.Found.injEq]
        constructor
        · rintro ⟨_, ⟨hall, rfl⟩, rfl, rfl⟩
          exact ⟨hkind, hmatch, rfl, hall, rfl⟩
        · rintro ⟨_, _, rfl, hall, rfl⟩
          exact ⟨_, ⟨hall, rfl⟩, rfl, rfl⟩
      · have hany : after.any (fun cursor => cursor.root_id ≠ root.id) = true := by
          cases after with
          | none => exact absurd (fun c hc => by cases hc) hmatch
          | some c => simpa using hmatch
        rw [if_neg (not_not.mpr hkind), hany, if_pos rfl]
        simp [hmatch]
    · simp [hkind]

theorem tree_eq_ok {rt : Runtime} {codec : Codec TreeCursor} {page : Page TreeEntry} :
    tree rt codec db ws path options ⟨cursor, limit⟩ = .ok page ↔
    ∃ after root_id rows, cursor.mapM (fun raw => decode_tree_cursor codec raw ws) = .ok after ∧
      tree_raw db ws path options after (max limit 1) = .ok (.Found root_id rows) ∧
      (cut (max limit 1) rows).1.mapM (into_entry path) = .ok page.items ∧
      (cut (max limit 1) rows).2.map
      (fun last => encode_tree_cursor codec ws root_id last.depth last.node.name last.node.id) =
        page.next_cursor := by
  obtain ⟨items, next⟩ := page
  unfold tree
  simp only [FsResult.bind_eq_ok]
  refine exists_congr (fun after => ?_)
  cases tree_raw db ws path options after (max limit 1) with
  | error fault => simp [Except.mapError]
  | ok raw =>
    cases raw with
    | Found root_id rows => simp [Except.mapError, FsResult.bind_eq_ok, pure, Except.pure]
    | _ => simp [Except.mapError, throw, throwThe, MonadExceptOf.throw]

end tree

/-- The listing that `tree` cuts into pages. -/
def tree_keyset (rt : Runtime) (cursors : SqliteFileSystem.Cursors) (ctx : RequestContext)
    (path : VirtualPath) (options : TreeOptions) (limit : Nat) :
    Keyset Descendant TreeEntry (ℤ ×ₗ Text ×ₗ WithBot NodeId) TreeCursor where
  codec := cursors.tree
  limit := max limit 1
  method db cursor := SqliteFileSystem.tree rt cursors ctx db path options ⟨cursor, limit⟩
  opens db := ctx.has_capability .Read = true ∧ ∃ root,
    resolve.resolve db ctx.workspace_id path = some root ∧
    root.kind = .Directory ∧ ∃ all,
      descendants db ctx.workspace_id root.id options.max_depth = .ok all
  listing db := ((resolve.resolve db ctx.workspace_id path).map
    (fun root => subtree db ctx.workspace_id root.id options.max_depth)).getD []
  key := descendant_key
  position := TreeCursor.pos
  payload db row := {
    v := 1
    workspace_id := ctx.workspace_id
    root_id := ((resolve.resolve db ctx.workspace_id path).map RawNode.id).getD 0
    last_depth := row.depth
    last_name := row.node.name
    last_id := row.node.id }
  accepts db payload := payload.v = 1 ∧ payload.workspace_id = ctx.workspace_id ∧
    payload.root_id = ((resolve.resolve db ctx.workspace_id path).map RawNode.id).getD 0
  into _ row := into_entry path row
  limit_pos := by omega
  position_payload _ _ := rfl
  accepts_payload _ _ := ⟨rfl, rfl, rfl⟩
  method_eq_ok := by
    intro db cursor page
    rw [SqliteFileSystem.tree, require_read_bind_eq_ok]
    simp only [tree_eq_ok, tree_raw_eq_found, FsResult.option_mapM_eq_ok, decode_tree_cursor,
      decode_cursor_eq_ok, decide_eq_true_eq]
    constructor
    · rintro ⟨hread, after, _, _, hafter, ⟨root, hroot, hkind, hsame, rfl, hall, rfl⟩, hitems,
        hnext⟩
      refine ⟨⟨hread, root, hroot, hkind, hall⟩, after, ?_, _, rfl, ?_, ?_⟩
      · refine hafter.imp_right ?_
        rintro ⟨raw, payload, hraw, rfl, hdecode, hv, hws⟩
        exact ⟨raw, payload, hraw, rfl, hdecode, hv, hws, by simpa [hroot] using hsame payload rfl⟩
      · simpa [hroot] using hitems
      · simpa [hroot, encode_tree_cursor] using hnext
    · rintro ⟨⟨hread, root, hroot, hkind, hall⟩, after, hafter, _, rfl, hitems, hnext⟩
      simp only [hroot, Option.map_some, Option.getD_some] at hafter hitems hnext
      refine ⟨hread, after, root.id, _, ?_, ⟨root, hroot, hkind, ?_, rfl, hall, rfl⟩, hitems, hnext⟩
      · refine hafter.imp_right ?_
        rintro ⟨raw, payload, hraw, rfl, hdecode, hv, hws, _⟩
        exact ⟨raw, payload, hraw, rfl, hdecode, hv, hws⟩
      · rintro payload rfl
        obtain ⟨_, hnone⟩ | ⟨_, _, _, hsome, _, _, _, hsame⟩ := hafter
        · cases hnone
        · cases hsome
          exact hsame

end directory

namespace trash

theorem list_trash_eq_ok {rt : Runtime} {codec : Codec TrashCursor} {db : Db} {ws : WorkspaceId}
    {cursor : Option Text} {limit : Nat} {page : Page TrashEntry} :
    list_trash rt codec db ws ⟨cursor, limit⟩ = .ok page ↔
    ∃ after, cursor.mapM (fun raw => decode_trash_cursor codec raw ws) = .ok after ∧
      ∃ rows, fetch_trash_page db ws ((after.map (fun c => (c.last_id : WithBot TrashId))).getD ⊥)
        (max limit 1 + 1) = rows ∧
      (cut (max limit 1) rows).1.mapM
      (fun row => build_trash_entry rt row (resolve.fetch_by_id_any db ws row.node_id)
        (fetch_trash_change_context db ws row.node_id)) = .ok page.items ∧
      (cut (max limit 1) rows).2.map (fun last => encode_trash_cursor codec ws last.id) =
      page.next_cursor := by
  obtain ⟨items, next⟩ := page
  unfold list_trash
  simp only [FsResult.bind_eq_ok]
  refine exists_congr (fun after => ?_)
  simp [pure, Except.pure]

/-- The workspace's trash records in order. -/
def records (db : Db) (ws : WorkspaceId) : List TrashRow :=
  (db.trash.rows.filter (fun t => t.workspace_id = ws)).insertionSort (fun a b => a.id ≤ b.id)

theorem records_ascending (db : Db) (ws : WorkspaceId) : Ascending TrashRow.id (records db ws) :=
  ascending_insertionSort TrashRow.id (fun _ _ => Iff.rfl)
    (db.trash.nodup.sublist (List.filter_sublist.map TrashRow.id))

theorem mem_records {db : Db} {ws : WorkspaceId} {t : TrashRow} :
    t ∈ records db ws ↔ t ∈ db.trash ∧ t.workspace_id = ws := by
  rw [records, List.mem_insertionSort, List.mem_filter, decide_eq_true_iff, Table.mem_def]

theorem fetch_trash_page_eq {db : Db} {ws : WorkspaceId} (after : Option TrashCursor)
    (limit : Nat) :
    fetch_trash_page db ws ((after.map (fun c => (c.last_id : WithBot TrashId))).getD ⊥) limit =
      (Paging.after TrashRow.id (records db ws) (after.map TrashCursor.last_id)).take limit := by
  unfold fetch_trash_page records
  congr 1
  cases after with
  | none => exact List.filter_eq_self.mpr (fun t _ => decide_eq_true (WithBot.bot_lt_coe t.id))
  | some c =>
    refine List.filter_congr (fun t _ => ?_)
    rw [Bool.eq_iff_iff, decide_eq_true_iff, decide_eq_true_iff]
    exact WithBot.coe_lt_coe

/-- The entry that is listed for a record. -/
def entry (rt : Runtime) (db : Db) (ws : WorkspaceId) (t : TrashRow) : FsResult TrashEntry :=
  build_trash_entry rt t (resolve.fetch_by_id_any db ws t.node_id)
    (fetch_trash_change_context db ws t.node_id)

/-- The listing that `list_trash` cuts into pages. -/
def list_trash_keyset (rt : Runtime) (cursors : SqliteFileSystem.Cursors) (ctx : RequestContext)
    (limit : Nat) :
    Keyset TrashRow TrashEntry TrashId TrashCursor where
  codec := cursors.trash
  limit := max limit 1
  method db cursor := SqliteFileSystem.list_trash rt cursors ctx db ⟨cursor, limit⟩
  opens _ := ctx.has_capability .Read = true
  listing db := records db ctx.workspace_id
  key := TrashRow.id
  position := TrashCursor.last_id
  payload _ t := { v := 1, workspace_id := ctx.workspace_id, last_id := t.id }
  accepts _ payload := payload.v = 1 ∧ payload.workspace_id = ctx.workspace_id
  into db t := entry rt db ctx.workspace_id t
  limit_pos := by omega
  position_payload _ _ := rfl
  accepts_payload _ _ := ⟨rfl, rfl⟩
  method_eq_ok := by
    intro db cursor page
    rw [SqliteFileSystem.list_trash, require_read_bind_eq_ok]
    simp only [list_trash_eq_ok, fetch_trash_page_eq, FsResult.option_mapM_eq_ok,
      decode_trash_cursor, decode_cursor_eq_ok,
      decide_eq_true_eq, exists_eq_left']
    refine and_congr_right (fun _ => exists_congr (fun after => and_congr Iff.rfl ?_))
    exact Iff.rfl

end trash

end fslite
