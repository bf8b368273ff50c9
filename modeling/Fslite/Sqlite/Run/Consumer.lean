import Fslite.Sqlite.Run.Feed

namespace fslite

open change

theorem Revision.new_of_ne {value : Nat} (h : value ≠ 0) :
    ∃ revision, Revision.new value = some revision := by
  rw [Revision.new, dif_pos (Nat.pos_of_ne_zero h)]
  exact ⟨_, rfl⟩

/-- The rows are delivered as these items, each once and in their order. -/
def Delivers (rt : Runtime) : List ChangeRow → List Change → Prop :=
  List.Forall₂ (fun row item => (raw_change row).into_change rt = .ok item)

theorem PathText.parse {text : Option Text} (h : PathText text) :
    ∃ path, text.mapM VirtualPath.parse = (.ok path : FsResult (Option VirtualPath)) := by
  obtain ⟨path, rfl⟩ := h
  refine ⟨path, ?_⟩
  cases path with
  | none => rfl
  | some path =>
    rw [Option.map_some, Option.mapM_some, VirtualPath.parse_as_str]
    rfl

theorem ChangeRow.Readable.into_change {c : ChangeRow} (h : c.Readable) (rt : Runtime) :
    ∃ item, (raw_change c).into_change rt = .ok item := by
  obtain ⟨old_path, hold⟩ := h.old_path.parse
  obtain ⟨new_path, hnew⟩ := h.new_path.parse
  simp only [RawChange.into_change, raw_change, hold, hnew]
  cases hrevision : c.revision with
  | none => exact ⟨_, rfl⟩
  | some value =>
    have hvalue : value ≠ 0 := by
      rintro rfl
      exact h.revision hrevision
    obtain ⟨revision, hnew⟩ := Revision.new_of_ne hvalue
    rw [Option.mapM_some, hnew]
    exact ⟨_, rfl⟩

theorem into_change_ok {rt : Runtime} {raw : RawChange} {item : Change}
    (h : raw.into_change rt = .ok item) :
    item.sequence = raw.sequence ∧ item.node_id = raw.node_id := by
  simp only [RawChange.into_change] at h
  cases hold : (raw.old_path.mapM VirtualPath.parse : FsResult (Option VirtualPath)) with
  | error e =>
    rw [hold] at h
    cases h
  | ok old_path =>
    cases hnew : (raw.new_path.mapM VirtualPath.parse : FsResult (Option VirtualPath)) with
    | error e =>
      rw [hold, hnew] at h
      cases h
    | ok new_path =>
      rw [hold, hnew] at h
      simp only [bind, Except.bind] at h
      split at h
      · cases h
      · cases h
        exact ⟨rfl, rfl⟩

theorem Delivers.getLast {rt : Runtime} {rows : List ChangeRow} {items : List Change}
    (h : Delivers rt rows items) {row : ChangeRow} (hrow : rows.getLast? = some row) :
    ∃ item, items.getLast? = some item ∧ (raw_change row).into_change rt = .ok item := by
  rw [List.getLast?_eq_head?_reverse] at hrow ⊢
  have hreverse := List.forall₂_reverse_iff.mpr h
  generalize rows.reverse = rows at hreverse hrow
  generalize items.reverse = items at hreverse
  cases hreverse with
  | nil => cases hrow
  | cons hitem _ =>
    cases hrow
    exact ⟨_, rfl, hitem⟩

theorem Delivers.mem {rt : Runtime} {rows : List ChangeRow} {items : List Change}
    (h : Delivers rt rows items) {item : Change} (hitem : item ∈ items) :
    ∃ row ∈ rows, (raw_change row).into_change rt = .ok item := by
  induction h with
  | nil => cases hitem
  | cons hinto _ ih =>
    obtain rfl | hitem := List.mem_cons.mp hitem
    · exact ⟨_, List.mem_cons_self, hinto⟩
    · obtain ⟨row, hrow, hinto⟩ := ih hitem
      exact ⟨row, List.mem_cons_of_mem _ hrow, hinto⟩

theorem delivers_mapM (rt : Runtime) {rows : List ChangeRow} (h : ∀ c ∈ rows, c.Readable) :
    ∃ items, (rows.map raw_change).mapM (RawChange.into_change rt) = .ok items ∧
    Delivers rt rows items := by
  induction rows with
  | nil => exact ⟨[], rfl, .nil⟩
  | cons row rest ih =>
    obtain ⟨item, hitem⟩ := (h row List.mem_cons_self).into_change rt
    obtain ⟨items, hitems, hdelivers⟩ := ih (fun c hc => h c (List.mem_cons_of_mem row hc))
    refine ⟨item :: items, ?_, .cons hitem hdelivers⟩
    rw [List.map_cons, List.mapM_cons, hitem, hitems]
    rfl

/-- In a list that is numbered from some number on, the later ones come last. -/
theorem filter_of_numbered {A : Type} {f : A → Nat} {l : List A} {start : Nat}
    (h : l.map f = List.range' start l.length) (n : Nat) :
    l.filter (fun a => decide (start + n ≤ f a)) = l.drop n := by
  induction l generalizing start n with
  | nil => simp
  | cons a l ih =>
    rw [List.map_cons, List.length_cons, List.range'_succ, List.cons.injEq] at h
    obtain ⟨hfirst, hrest⟩ := h
    cases n with
    | zero =>
      refine List.filter_eq_self.mpr (fun b hb => ?_)
      obtain rfl | hb := List.mem_cons.mp hb
      · simp [hfirst]
      · have hmem : f b ∈ List.range' (start + 1) l.length := hrest ▸ List.mem_map_of_mem hb
        have hle := (List.mem_range'_1.mp hmem).1
        simp only [decide_eq_true_eq]
        omega
    | succ n =>
      rw [List.filter_cons_of_neg (by simp [hfirst]), List.drop_succ_cons, ← ih hrest n]
      congr 2
      funext b
      rw [Nat.add_right_comm, Nat.add_assoc]

/-- The rows after a position of a numbered feed. -/
theorem changes_after_eq {db : Db} (h : Numbered db) (ws : WorkspaceId) (n : Nat) :
    changes_after db ws n = (db.feed ws).drop n := by
  have hsequences := h ws
  have hlength : db.change_seq ws = (db.feed ws).length := by
    have hlength := congrArg List.length hsequences
    simpa using hlength.symm
  rw [hlength] at hsequences
  have hfilter : db.changes.rows.filter (fun c => c.workspace_id = ws ∧ (n : Int) < c.sequence) =
      (db.feed ws).drop n := by
    rw [← filter_of_numbered hsequences, Db.feed, List.filter_filter]
    refine List.filter_congr (fun c _ => ?_)
    rw [Bool.eq_iff_iff]
    simp only [decide_eq_true_eq, Bool.and_eq_true]
    rw [and_comm, and_congr_left_iff]
    exact fun _ => by omega
  unfold changes_after
  rw [hfilter]
  refine List.Pairwise.insertionSort_eq (List.Pairwise.sublist (List.drop_sublist _ _) ?_)
  refine List.pairwise_map.mp (?_ : ((db.feed ws).map ChangeRow.sequence).Pairwise (· ≤ ·))
  rw [hsequences]
  exact List.pairwise_le_range'


/-- What a consumer that has got a page asks for next: the page's own cursor, or
after a last page one for the last change it has seen. -/
def resume (rt : Runtime) (ws : WorkspaceId) (after : Option ChangeCursor) (page : Page Change) :
    Option ChangeCursor :=
  match page.next_cursor, page.items.getLast? with
  | some cursor, _ => some ⟨cursor⟩
  | none, some last => some (encode_change_cursor rt ws last.sequence)
  | none, none => after

theorem after_sequence_encode (rt : Runtime) (ws : WorkspaceId) (n : Nat) :
    after_sequence rt ws (some (encode_change_cursor rt ws n)) = .ok (n : Int) := by
  simp [after_sequence, decode_change_cursor, encode_change_cursor, rt.cursorPayload_cursorText]

/-- The page for the rows after a position. -/
theorem changes_page_ok (rt : Runtime) (ws : WorkspaceId) {limit : Nat} {rows : List ChangeRow}
    (hreadable : ∀ c ∈ rows, c.Readable) :
    ∃ answer, changes_page rt ws limit ((rows.take (limit + 1)).map raw_change) = .ok answer ∧
      Delivers rt (rows.take limit) answer.items ∧
      (answer.next_cursor = none ∨ ∃ last ∈ answer.items.getLast?,
        answer.next_cursor = some (encode_change_cursor rt ws last.sequence).as_str) := by
  have htaken : ∀ c ∈ rows.take limit, c.Readable :=
    fun c hc => hreadable c (List.mem_of_mem_take hc)
  obtain ⟨items, hitems, hdelivers⟩ := delivers_mapM rt htaken
  have hrows : (if limit < ((rows.take (limit + 1)).map raw_change).length then
      ((rows.take (limit + 1)).map raw_change).take limit else (rows.take
        (limit + 1)).map raw_change) =
      (rows.take limit).map raw_change := by
    rw [List.length_map, List.length_take]
    split
    · rw [List.map_take, List.map_take, List.take_take, Nat.min_eq_left (Nat.le_succ _)]
    · rw [List.take_of_length_le (by omega), List.take_of_length_le (by omega)]
  simp only [changes_page, hrows, hitems]
  refine ⟨_, rfl, hdelivers, ?_⟩
  simp only
  split
  · rw [List.getLast?_map]
    cases hlast : (rows.take limit).getLast? with
    | none => exact Or.inl rfl
    | some row =>
      obtain ⟨last, hitem, hinto⟩ := hdelivers.getLast hlast
      exact Or.inr ⟨last, hitem, by rw [(into_change_ok hinto).1]; rfl⟩
  · exact Or.inl rfl

variable {rt : Runtime} {ctx : RequestContext} {w : World} {after : Option ChangeCursor}

/-- A call for the changes after a position. -/
theorem changes_run {n : Nat} (hread : ctx.has_capability .Read = true)
    (hafter : after_sequence rt ctx.workspace_id after = .ok (n : Int)) (hnumbered : Numbered w.db)
    (page : PageRequest) :
    ((Request.Changes after page).serve rt ctx).run.run (DbCall.exec rt) w =
      ((changes_page rt ctx.workspace_id (max page.limit 1)
        ((((w.db.feed ctx.workspace_id).drop n).take
        (max page.limit 1 + 1)).map raw_change)).map Reply.Changes, w) := by
  have hserve : (Request.Changes after page).serve rt ctx =
    (Reply.Changes <$> (Task.call (.fetch_changes_page
      ctx.workspace_id n (max page.limit 1 + 1)) >>= fun rows =>
        Task.ofResult (changes_page rt ctx.workspace_id (max page.limit 1) rows))) := by
    unfold Request.serve SqliteFileSystem.changes require_capability change.changes
    simp only [if_pos hread, hafter]
    rfl
  rw [hserve, Task.run_call_ofResult]
  simp only [DbCall.exec, DbCall.body, Tx.query, fetch_changes_page, changes_after_eq hnumbered]
  rfl

/-- The steps of a run that neither reset nor delete the workspace while its feed has changes. -/
def KeepsFeed (ws : WorkspaceId) (c : System) : DbCall → Prop
  | .reset_workspace id => id = ws → c.state.db.feed ws = []
  | .delete_workspace id => id = ws → c.state.db.feed ws = []
  | _ => True

/-- The policy under which the workspace's feed is not taken away. -/
def Policy.feeding (ws : WorkspaceId) : Policy :=
  { Policy.any with clear := fun db id => id = ws → db.feed ws = [] }

theorem Policy.feeding_allows {c : System} {ws : WorkspaceId} {call : DbCall}
    (h : KeepsFeed ws c call) :
    (Policy.feeding ws).Allows rt c.state call := by
  cases call with
  | reset_workspace id => exact h
  | delete_workspace id => exact h
  | copy_chunk_range => exact fun hlaid => hlaid.elim
  | transaction id operation actor_json => exact Policy.permits_any id c.state.db operation
  | batch ctx operations =>
    exact fun _ => Policy.permitsAll_of_performs
      (fun db operation _ => Policy.permits_any _ db operation)
  | _ => trivial

/-- Nothing of another workspace's feed is cleared. -/
theorem Db.feed_clear (db : Db) {ws id : WorkspaceId} (hne : id ≠ ws) :
    (db.clear id).feed ws = db.feed ws := by
  simp only [Db.feed, Db.clear, Table.deleteWhere, List.filter_filter]
  refine List.filter_congr (fun c _ => ?_)
  by_cases hws : c.workspace_id = ws
  · simp [hws, Ne.symm hne]
  · simp [hws]

theorem Edit.feed_grows {ws : WorkspaceId} {fresh : Uuid → Prop} {mine : GenerationId → Prop}
    {db db' : Db} (h : Edit (Policy.feeding ws) fresh mine db db') :
    db.feed ws <+: db'.feed ws := by
  have hclear : ∀ id, (id = ws → db.feed ws = []) → db.feed ws <+: (db.clear id).feed ws := by
    intro id hempty
    by_cases hid : id = ws
    · rw [hempty hid]
      exact ⟨_, rfl⟩
    · rw [db.feed_clear hid]
  cases h with
  | append id now c row hrow hws hseq hreadable hins =>
    simp only [Db.feed, (Table.insert_eq_some.mp hins).2, List.filter_append]
    exact List.prefix_append _ _
  | reset id row hrow hpolicy => exact hclear id hpolicy
  | erase id hpolicy => exact hclear id hpolicy
  | _ => exact List.prefix_rfl

theorem Foreign.feed_grows {ws : WorkspaceId} {w w' : World}
    (h : Relation.ReflTransGen (Foreign rt (Policy.feeding ws) none) w w') :
    w.db.feed ws <+: w'.db.feed ws := by
  have hedits : ∀ {fresh mine db db'}, Edits (Policy.feeding ws) fresh mine db db' →
      db.feed ws <+: db'.feed ws := by
    intro fresh mine db db' hedits
    induction hedits with
    | refl => exact List.prefix_rfl
    | tail _ hedit ih => exact ih.trans hedit.feed_grows
  induction h with
  | refl => exact List.prefix_rfl
  | tail _ hstep ih =>
    obtain ⟨_, _, _, _, heffect⟩ := hstep
    exact ih.trans (hedits heffect.edits)

theorem Edit.readable {P : Policy} {fresh : Uuid → Prop} {mine : GenerationId → Prop} {db db' : Db}
    (h : Edit P fresh mine db db') (hreadable : ∀ c ∈ db.changes, c.Readable) :
    ∀ c ∈ db'.changes, c.Readable := by
  cases h with
  | append id now c row hrow hws hseq hc hins =>
    intro x hx
    obtain hx | rfl := (Table.mem_insert hins).mp hx
    · exact hreadable x hx
    · exact hc
  | reset id row hrow hpolicy => exact fun x hx => hreadable x (Table.mem_deleteWhere.mp hx).1
  | erase id hpolicy => exact fun x hx => hreadable x (Table.mem_deleteWhere.mp hx).1
  | _ => exact hreadable

/-- A consumer of the workspace's feed beside a run: the changes it has been given
so far, and the cursor it comes with next. -/
inductive Consumed (rt : Runtime) (ctx : RequestContext) (may : System → Nat → DbCall → Prop) :
    System → List Change → Option ChangeCursor → Prop where
  | start {c : System} (h : Reached rt may c) : Consumed rt ctx may c [] none
  | step {c d : System} {items : List Change} {after : Option ChangeCursor}
    (h : Consumed rt ctx may c items after)
      (hstep : Step (DbCall.exec rt) (Served rt) may c d) : Consumed rt ctx may d items after
  | poll {c : System} {items : List Change} {after : Option ChangeCursor} {answer : Page Change}
      (h : Consumed rt ctx may c items after) (page : PageRequest)
      (hserve : ((Request.Changes after page).serve rt ctx).run.run (DbCall.exec rt) c.state =
        (.ok (.Changes answer), c.state)) :
      Consumed rt ctx may c (items ++ answer.items) (resume rt ctx.workspace_id after answer)

theorem Consumed.reached {may : System → Nat → DbCall → Prop} {c : System} {items : List Change}
    (h : Consumed rt ctx may c items after) : Reached rt may c := by
  induction h with
  | start h => exact h
  | step _ hstep ih => exact ih.tail hstep
  | poll _ _ _ ih => exact ih

/-- The last delivered change stands at the position up to which the feed is delivered. -/
theorem Delivers.last_sequence {db : Db} (hnumbered : Numbered db) {ws : WorkspaceId} {m : Nat}
    {items : List Change} (h : Delivers rt ((db.feed ws).take m) items) {last : Change}
    (hlast : items.getLast? = some last) :
    last.sequence = items.length := by
  have hlength := h.length_eq
  cases hrow : ((db.feed ws).take m).getLast? with
  | none =>
    rw [List.getLast?_eq_none_iff.mp hrow] at h
    cases h
    cases hlast
  | some row =>
    obtain ⟨last', hlast', hinto⟩ := h.getLast hrow
    rw [hlast, Option.some.injEq] at hlast'
    subst hlast'
    -- the k-th row of a numbered feed has the number k
    have hpos : 0 < ((db.feed ws).take m).length :=
      List.length_pos_iff.mpr (fun hnil => by simp [hnil] at hrow)
    have hseq : row.sequence = ((db.feed ws).take m).length := by
      rw [List.getLast?_eq_getElem?, List.getElem?_take_of_lt
        (by simp only [List.length_take] at hpos ⊢; omega)] at hrow
      have hmap := congrArg (Option.map ChangeRow.sequence) hrow
      rw [← List.getElem?_map, hnumbered ws, Option.map_some, List.getElem?_eq_some_iff] at hmap
      obtain ⟨_, hmap⟩ := hmap
      rw [List.getElem_range'] at hmap
      omega
    rw [(into_change_ok hinto).1, ← hlength]
    exact hseq

theorem resume_eq {ws : WorkspaceId} {answer : Page Change}
    (h : answer.next_cursor = none ∨ ∃ last ∈ answer.items.getLast?,
    answer.next_cursor = some (encode_change_cursor rt ws last.sequence).as_str) :
    resume rt ws after answer = match answer.items.getLast? with
      | some last => some (encode_change_cursor rt ws last.sequence)
      | none => after := by
  unfold resume
  obtain hnone | ⟨last, hlast, hsome⟩ := h
  · rw [hnone]
    cases answer.items.getLast? <;> rfl
  · rw [hsome, show answer.items.getLast? = some last from hlast]

/-- What holds of a consumer at any time: it has been given the first changes of
the feed, and its cursor stands behind them. -/
structure CaughtUp (rt : Runtime) (ws : WorkspaceId) (db : Db) (items : List Change)
    (after : Option ChangeCursor) : Prop where
  delivered : Delivers rt ((db.feed ws).take items.length) items
  position : after_sequence rt ws after = .ok (items.length : Int)

namespace CaughtUp

variable {ws : WorkspaceId} {db db' : Db} {items : List Change}

theorem length_le (h : CaughtUp rt ws db items after) : items.length ≤ (db.feed ws).length := by
  have hlength := h.delivered.length_eq
  rw [List.length_take] at hlength
  omega

/-- The feed may grow. -/
theorem mono (h : CaughtUp rt ws db items after) (hgrows : db.feed ws <+: db'.feed ws) :
    CaughtUp rt ws db' items after := by
  obtain ⟨rest, hrest⟩ := hgrows
  refine ⟨?_, h.position⟩
  rw [← hrest, List.take_append_of_le_length h.length_le]
  exact h.delivered

/-- The next page. -/
theorem poll (h : CaughtUp rt ws db items after) (hnumbered : Numbered db) {limit : Nat}
    {answer : Page Change} (hdelivers : Delivers rt
    (((db.feed ws).drop items.length).take limit) answer.items)
    (hcursor : answer.next_cursor = none ∨ ∃ last ∈ answer.items.getLast?,
      answer.next_cursor = some (encode_change_cursor rt ws last.sequence).as_str) :
    CaughtUp rt ws db (items ++ answer.items) (resume rt ws after answer) := by
  have htake : (db.feed ws).take (items ++ answer.items).length =
      (db.feed ws).take items.length ++ ((db.feed ws).drop items.length).take limit := by
    rw [List.length_append, List.take_add]
    congr 1
    have hcount := hdelivers.length_eq
    rw [List.length_take] at hcount
    rw [List.take_eq_take_iff]
    omega
  have hall : Delivers rt ((db.feed ws).take (items ++ answer.items).length)
      (items ++ answer.items) := by
    rw [htake]
    exact List.rel_append h.delivered hdelivers
  refine ⟨hall, ?_⟩
  rw [resume_eq hcursor]
  cases hlast : answer.items.getLast? with
  | none =>
    rw [List.getLast?_eq_none_iff.mp hlast, List.append_nil]
    exact h.position
  | some last =>
    have hseq : last.sequence = (items ++ answer.items).length :=
      hall.last_sequence hnumbered (by rw [List.getLast?_append, hlast]; rfl)
    show after_sequence rt ws (some (encode_change_cursor rt ws last.sequence)) = _
    rw [hseq]
    exact after_sequence_encode rt ws _

end CaughtUp

theorem KeepsFeed.steps {ws : WorkspaceId} {c d : System}
    (h : Steps (DbCall.exec rt) (Served rt) (fun c _ o => KeepsFeed ws c o) c d) :
    Steps (DbCall.exec rt) (Served rt) (fun c _ o => (Policy.feeding ws).Allows rt c.state o) c d :=
  h.mono (fun _ hp => hp) (fun _ _ _ hmay => Policy.feeding_allows hmay)

/-- Every feed of a run is numbered, and its rows can be read back. -/
theorem Reached.readable {may : System → Nat → DbCall → Prop} {c : System} (h : Reached rt may c) :
    Numbered c.state.db ∧ ∀ x ∈ c.state.db.changes, x.Readable := by
  have hallowed : Reached rt (fun c _ o => Policy.any.Allows rt c.state o) c :=
    h.mono (fun _ hp => hp) (fun c _ o _ => Policy.allows_any rt c.state o)
  exact ⟨hallowed.invariant Numbered.empty (fun hedit hwf => hedit.numbered hwf),
    hallowed.invariant (I := fun db => ∀ x ∈ db.changes, x.Readable) (by simp [Db.empty])
      (fun hedit _ => hedit.readable)⟩

/-- The answer to a call for the changes behind those a consumer has been given. -/
theorem CaughtUp.changes {may : System → Nat → DbCall → Prop} {c : System} {items : List Change}
    (hreached : Reached rt may c) (h : CaughtUp rt ctx.workspace_id c.state.db items after)
    (hread : ctx.has_capability .Read = true) (page : PageRequest) :
    ∃ answer, ((Request.Changes after page).serve rt ctx).run.run
      (DbCall.exec rt) c.state = (.ok (.Changes answer), c.state) ∧
      Delivers rt (((c.state.db.feed ctx.workspace_id).drop items.length).take
        (max page.limit 1)) answer.items ∧
      (answer.next_cursor = none ∨ ∃ last ∈ answer.items.getLast?,
        answer.next_cursor = some (encode_change_cursor rt ctx.workspace_id last.sequence).as_str) := by
  obtain ⟨hnumbered, hreadable⟩ := hreached.readable
  have hrows : ∀ row ∈ (c.state.db.feed ctx.workspace_id).drop items.length, row.Readable :=
    fun row hrow =>
    hreadable row (List.mem_filter.mp (List.mem_of_mem_drop hrow)).1
  obtain ⟨answer, hanswer, hdelivers, hcursor⟩ := changes_page_ok rt ctx.workspace_id hrows
  refine ⟨answer, ?_, hdelivers, hcursor⟩
  rw [changes_run hread h.position hnumbered, hanswer]
  rfl

theorem Consumed.caughtUp {c : System} {items : List Change}
    (h : Consumed rt ctx (fun c _ o => KeepsFeed ctx.workspace_id c o) c items after) :
    CaughtUp rt ctx.workspace_id c.state.db items after := by
  induction h with
  | start h => exact ⟨by simp [Delivers], rfl⟩
  | @step c d items after h hstep ih =>
    have hsteps : Steps (DbCall.exec rt) (Served rt)
      (fun c _ o => KeepsFeed ctx.workspace_id c o) c d :=
      Relation.ReflTransGen.single hstep
    exact ih.mono (Foreign.feed_grows
      (Reached.steps_foreign (KeepsFeed.steps h.reached) (KeepsFeed.steps hsteps)))
  | @poll c items after answer h page hserve ih =>
    by_cases hread : ctx.has_capability .Read = true
    · obtain ⟨answer', hserve', hdelivers, hcursor⟩ := ih.changes h.reached hread page
      rw [hserve] at hserve'
      cases hserve'
      exact ih.poll h.reached.readable.1 hdelivers hcursor
    · have hdenied : ((Request.Changes after page).serve rt ctx).run.run (DbCall.exec rt) c.state =
          (.error (FsError.permission_denied (uuid_text ctx.workspace_id)), c.state) := by
        unfold Request.serve SqliteFileSystem.changes require_capability
        rw [if_neg hread]
        rfl
      rw [hdenied] at hserve
      cases hserve

/-- The feed is delivered exactly once: as long as the workspace is neither reset
nor deleted while its feed has changes, a consumer has at any time been given
the first changes of the feed, each once and in order, its next page (of any
length) starts with the first change that it has not been given, and what is in
the feed stays there. -/
theorem Consumed.delivered {rt : Runtime} {ctx : RequestContext} {c : System} {items : List Change}
    {after : Option ChangeCursor}
    (h : Consumed rt ctx (fun c _ o => KeepsFeed ctx.workspace_id c o) c items after) :
    (∃ given rest, c.state.db.feed ctx.workspace_id = given ++ rest ∧ Delivers rt given items ∧
      (ctx.has_capability .Read = true → ∀ page, ∃ answer,
        ((Request.Changes after page).serve rt ctx).run.run
        (DbCall.exec rt) c.state = (.ok (.Changes answer), c.state) ∧
          Delivers rt (rest.take (max page.limit 1)) answer.items)) ∧
    ∀ d, Steps (DbCall.exec rt) (Served rt) (fun c _ o => KeepsFeed ctx.workspace_id c o) c d →
      c.state.db.feed ctx.workspace_id <+: d.state.db.feed ctx.workspace_id := by
  have hcaught := h.caughtUp
  refine ⟨⟨_, _, (List.take_append_drop items.length _).symm, hcaught.delivered, fun hread page =>
    ?_⟩, fun d hsteps => ?_⟩
  · obtain ⟨answer, hserve, hdelivers, _⟩ := hcaught.changes h.reached hread page
    exact ⟨answer, hserve, hdelivers⟩
  · exact Foreign.feed_grows (Reached.steps_foreign (KeepsFeed.steps h.reached)
      (KeepsFeed.steps hsteps))

theorem Consumed.steps {may : System → Nat → DbCall → Prop} {c d : System} {items : List Change}
    (h : Consumed rt ctx may c items after) (hsteps : Steps (DbCall.exec rt) (Served rt) may c d) :
    Consumed rt ctx may d items after := by
  induction hsteps with
  | refl => exact h
  | tail _ hstep ih => exact ih.step hstep

theorem Consumed.mono {may may' : System → Nat → DbCall → Prop} {c : System} {items : List Change}
    (h : Consumed rt ctx may c items after) (hmay : ∀ c i o, may c i o → may' c i o) :
    Consumed rt ctx may' c items after := by
  induction h with
  | start h => exact .start (h.mono (fun _ hp => hp) hmay)
  | step _ hstep ih => exact ih.steps (Steps.mono (Relation.ReflTransGen.single hstep) (fun _ hp => hp) hmay)
  | poll _ page hserve ih => exact ih.poll page hserve

/-- A new workspace with the directory `/a`. -/
def readRequests : List (RequestContext × Request) :=
  [(.trusted 0, .CreateWorkspace {}),
    (.trusted 0, .Perform (.Mkdir (.named [['a']]) {}))]

/-- The workspace is reset and gets the directory `/b`. -/
def resetRequests : List (RequestContext × Request) :=
  [(.trusted 0, .ResetWorkspace 0),
    (.trusted 0, .Perform (.Mkdir (.named [['b']]) {}))]

/-- A consumer that reads the feed after `/a` has been made gets one change. -/
theorem read_consumed : ∃ c items after, c.state = serveAll Runtime.counting readRequests
    ⟨Db.empty, 0⟩ ∧
    Consumed Runtime.counting (.trusted 0) (fun c _ o => KeepsFeed 0 c o) c items after ∧
    Delivers Runtime.counting (c.state.db.feed 0) items := by
  have hmade : ∃ ps, Reached Runtime.counting (fun c _ o => KeepsFeed 0 c o)
      ⟨serveAll Runtime.counting readRequests ⟨Db.empty, 0⟩, ps⟩ := by
    refine serveAll_steps (fun r _ => ⟨r.1, r.2, rfl⟩) (fun r hr w => ?_) _ _
    simp only [readRequests, List.mem_cons, List.not_mem_nil, or_false] at hr
    obtain rfl | rfl := hr
    · exact Task.along_map ⟨fun _ _ => trivial, trivial⟩
    · exact along_perform (fun _ _ => trivial)
  obtain ⟨ps, hmade⟩ := hmade
  have hstart : Consumed Runtime.counting (.trusted 0) (fun c _ o => KeepsFeed 0 c o) _ [] none :=
    .start hmade
  obtain ⟨answer, hserve, hdelivers, _⟩ := hstart.caughtUp.changes hmade (by rfl) {}
  refine ⟨_, _, _, rfl, hstart.poll {} hserve, ?_⟩
  have hlength : ((serveAll Runtime.counting readRequests ⟨Db.empty, 0⟩).db.feed 0).length =
    1 := by decide +kernel
  have hfew : ((serveAll Runtime.counting readRequests ⟨Db.empty, 0⟩).db.feed 0).length ≤
    100 := by omega
  have hpage : Delivers Runtime.counting
    (((serveAll Runtime.counting readRequests ⟨Db.empty, 0⟩).db.feed 0).take 100)
      answer.items := hdelivers
  rwa [List.take_of_length_le hfew] at hpage

/-- After the directory `/a` has been made and read, the consumer has its change. -/
theorem read_delivered : ∃ c items after, Consumed Runtime.counting (.trusted 0)
    (fun c _ o => KeepsFeed 0 c o) c items after ∧
    items.length = 1 ∧
    (∃ given rest, c.state.db.feed 0 = given ++ rest ∧ Delivers Runtime.counting given items ∧
      ((RequestContext.trusted 0).has_capability .Read = true → ∀ page, ∃ answer,
        ((Request.Changes after page).serve Runtime.counting (.trusted 0)).run.run
        (DbCall.exec Runtime.counting) c.state =
          (.ok (.Changes answer), c.state) ∧ Delivers Runtime.counting
          (rest.take (max page.limit 1)) answer.items)) ∧
    ∀ d, Steps (DbCall.exec Runtime.counting) (Served Runtime.counting)
      (fun c _ o => KeepsFeed 0 c o) c d →
      c.state.db.feed 0 <+: d.state.db.feed 0 := by
  obtain ⟨c, items, after, hstate, hconsumed, hdelivers⟩ := read_consumed
  have hlength : (c.state.db.feed 0).length = 1 := by
    rw [hstate]
    decide +kernel
  exact ⟨c, items, after, hconsumed, hdelivers.length_eq.symm.trans hlength, hconsumed.delivered⟩

/-- After a reset the change that made `/b` is skipped without an error. -/
theorem reset_skips : ∃ d items after answer, Consumed Runtime.counting (.trusted 0)
    (fun _ _ _ => True) d items after ∧
    ((Request.Changes after {}).serve Runtime.counting (.trusted 0)).run.run
    (DbCall.exec Runtime.counting) d.state =
      (.ok (.Changes answer), d.state) ∧
    answer.items = [] ∧ ∃ row ∈ d.state.db.feed 0, ∀ item ∈ items,
      (raw_change row).into_change Runtime.counting ≠ .ok item := by
  obtain ⟨c, items, after, hstate, hconsumed, hdelivers⟩ := read_consumed
  have hsteps : ∃ qs, Steps (DbCall.exec Runtime.counting) (Served Runtime.counting)
    (fun _ _ _ => True) c
      ⟨serveAll Runtime.counting resetRequests c.state, qs⟩ :=
    serveAll_steps (fun r _ => ⟨r.1, r.2, rfl⟩)
      (fun r _ w => Prog.along_of_forall _ (fun _ _ _ _ => trivial) _ _) _ _
  obtain ⟨qs, hsteps⟩ := hsteps
  have hafter := hconsumed.caughtUp.position
  have hboth : (c.state.db.feed 0).length = 1 ∧
    ((serveAll Runtime.counting resetRequests c.state).db.feed 0).length = 1 ∧
      ∀ row ∈ c.state.db.feed 0,
        ∀ row' ∈ (serveAll Runtime.counting resetRequests c.state).db.feed 0,
        row.node_id ≠ row'.node_id := by
    rw [hstate]
    decide +kernel
  obtain ⟨hlength, hlength', hdistinct⟩ := hboth
  rw [← hdelivers.length_eq, hlength] at hafter
  have hskipped := (hconsumed.mono (fun _ _ _ _ => trivial)).steps hsteps
  have hserve := changes_run (by rfl) hafter hskipped.reached.readable.1 {}
  have hnone : ((serveAll Runtime.counting resetRequests c.state).db.feed 0).drop 1 = [] :=
    List.drop_eq_nil_of_le hlength'.le
  refine ⟨_, items, after, ⟨[], none⟩, hskipped, ?_, rfl, ?_⟩
  · rw [hserve, show (RequestContext.trusted 0).workspace_id = 0 from rfl, hnone]
    rfl
  · have hpos : 0 < ((serveAll Runtime.counting resetRequests c.state).db.feed 0).length := by omega
    obtain ⟨row', hrow'⟩ := List.exists_mem_of_length_pos hpos
    refine ⟨row', hrow', fun item hitem hinto => ?_⟩
    obtain ⟨row, hrow, hinto'⟩ := hdelivers.mem hitem
    exact hdistinct row hrow row' hrow'
      ((into_change_ok hinto').2.symm.trans (into_change_ok hinto).2)

end fslite
