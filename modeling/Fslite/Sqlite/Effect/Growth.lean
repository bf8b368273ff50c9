import Fslite.Sqlite.Effect.Outcome
import Fslite.Sqlite.Effect.Copy

namespace fslite

open resolve

namespace directory

variable {rt : Runtime} {ws : WorkspaceId} {w w' : World} {actor_json : Text}

/-- Directories that are made one below the other, each with its change row,
from a directory and its path down to the last one and its path. -/
inductive Nested (rt : Runtime) (ws : WorkspaceId) :
    NodeId → VirtualPath → List Text → World → NodeId → VirtualPath → World → Prop where
  | done (up : NodeId) (path : VirtualPath) (w : World) : Nested rt ws up path [] w up path w
  | make {up last : NodeId} {path joined last_path : VirtualPath} {name : Text} {names : List Text}
    {w w₁ w' : World}
      {nodes : Table NodeRow.key} (hjoin : joined.segments = path.segments ++ [name])
      (hins : w.db.nodes.insert
        (directoryRow (rt.newId w.tick) ws up name (rt.nowMs (w.tick + 1))) = some nodes)
      (htick : w₁.tick = w.tick + 2)
      (happ : Recorded ws .Created (some (rt.newId w.tick)) none (some joined.as_str) (some 1)
        { w.db with nodes } w₁.db)
      (hrest : Nested rt ws (rt.newId w.tick) joined names w₁ last last_path w') :
      Nested rt ws up path (name :: names) w last last_path w'

theorem Nested.trans {up middle last : NodeId} {path middle_path last_path : VirtualPath}
    {names names' : List Text} {w₁ : World} (h : Nested rt ws up path names w middle middle_path w₁)
    (h' : Nested rt ws middle middle_path names' w₁ last last_path w') :
    Nested rt ws up path (names ++ names') w last last_path w' := by
  induction h with
  | done => exact h'
  | make hjoin hins htick happ _ ih => exact .make hjoin hins htick happ (ih h')

theorem joined_segments {path joined : VirtualPath} {name : Text} (hsegment : Segment name)
    (h : (path.join name).toOption = some joined) : joined.segments = path.segments ++ [name] := by
  obtain ⟨q, hq, hsegments⟩ := path.join_segment hsegment
  rw [hq] at h
  cases h
  exact hsegments

theorem create_directory_nested {up : NodeId} {name : Text} {path joined : VirtualPath}
    {raw : RawNode} (hjoin : joined.segments = path.segments ++ [name])
    (h : create_directory rt ws up name joined actor_json w = .ok (raw, w')) :
    Nested rt ws up path [name] w raw.id joined w' := by
  obtain ⟨nodes, rfl, hins, htick, happ⟩ := create_directory_ok h
  exact .make hjoin hins htick happ (.done _ _ _)

/-- Below a directory without children, `mkdir` makes all the directories. -/
theorem mkdir_ancestors_barren {options : CreateOptions} {segments : List Text}
    {current last : RawNode} {current_path last_path : VirtualPath} (hwf : WellFormed w.db)
    (hcurrent : IsLive w.db ws current) (hbarren : Barren w.db ws current)
    (hsegments : ∀ s ∈ segments, Segment s)
    (h : mkdir_ancestors rt ws options actor_json segments current current_path w = .ok
    (.ok (last, last_path), w')) :
    Nested rt ws current.id current_path segments w last.id last_path w' := by
  induction segments generalizing current current_path w with
  | nil =>
    simp only [mkdir_ancestors, Tx.pure_eq_ok, Except.ok.injEq, Prod.mk.injEq] at h
    obtain ⟨⟨rfl, rfl⟩, rfl⟩ := h
    exact .done _ _ _
  | cons segment rest ih =>
    unfold mkdir_ancestors at h
    simp only [hbarren.1, ne_eq, not_true_eq_false, if_false, Tx.query_bind, hbarren.2 segment] at h
    split at h
    · simp only [Tx.expect_bind_eq_ok] at h
      obtain ⟨joined, hjoin, h⟩ := h
      obtain ⟨created, w₁, hcreate, h⟩ := Tx.bind_eq_ok.mp h
      obtain ⟨heffect, hlive, hbarren₁⟩ :=
        create_directory_effect (P := Policy.any) (o := none) hwf hcurrent hbarren.1
        (hsegments segment List.mem_cons_self) (hbarren.2 segment) hcreate
      have hrest := ih (heffect.wellFormed hwf) hlive hbarren₁
        (fun s hs => hsegments s (List.mem_cons_of_mem _ hs)) h
      exact (create_directory_nested
        (joined_segments (hsegments segment List.mem_cons_self) hjoin) hcreate).trans hrest
    · simp at h

theorem mkdir_ancestors_error {options : CreateOptions} {segments : List Text} {current : RawNode}
    {current_path : VirtualPath} {outcome : MkdirOutcome}
    (h : mkdir_ancestors rt ws options actor_json segments current current_path w = .ok
    (.error outcome, w')) :
    outcome = .WrongNodeType ∨ outcome = .ParentNotFound := by
  induction segments generalizing current current_path w with
  | nil => simp [mkdir_ancestors] at h
  | cons segment rest ih =>
    unfold mkdir_ancestors at h
    split at h
    · obtain ⟨heq, _⟩ := Tx.pure_eq_ok.mp h
      cases heq
      exact Or.inl rfl
    · simp only [Tx.query_bind] at h
      cases hchild : fetch_child w.db ws current.id segment with
      | some child =>
        simp only [hchild, Tx.expect_bind_eq_ok] at h
        obtain ⟨_, _, h⟩ := h
        exact ih h
      | none =>
        simp only [hchild] at h
        split at h
        · simp only [Tx.expect_bind_eq_ok] at h
          obtain ⟨_, _, h⟩ := h
          obtain ⟨_, _, _, h⟩ := Tx.bind_eq_ok.mp h
          exact ih h
        · obtain ⟨heq, _⟩ := Tx.pure_eq_ok.mp h
          cases heq
          exact Or.inr rfl

/-- What the walk of `mkdir` over the ancestors does: it follows the directories
that are there and makes the others. -/
theorem mkdir_ancestors_ok {options : CreateOptions} {segments : List Text} {current last : RawNode}
    {current_path last_path : VirtualPath} (hwf : WellFormed w.db)
    (hcurrent : IsLive w.db ws current) (hsegments : ∀ s ∈ segments, Segment s)
    (h : mkdir_ancestors rt ws options actor_json segments current current_path w = .ok
    (.ok (last, last_path), w')) :
    ∃ existing made base base_path, segments = existing ++ made ∧
    walk w.db ws current existing = some base ∧
      base_path.segments = current_path.segments ++ existing ∧
      Nested rt ws base.id base_path made w last.id last_path w' ∧ (made = [] → last = base) ∧
      (made ≠ [] → base.kind = .Directory) ∧ ∀ s ∈ made.head?,
      fetch_child w.db ws base.id s = none := by
  induction segments generalizing current current_path w with
  | nil =>
    simp only [mkdir_ancestors, Tx.pure_eq_ok, Except.ok.injEq, Prod.mk.injEq] at h
    obtain ⟨⟨rfl, rfl⟩, rfl⟩ := h
    exact ⟨[], [], current, current_path, rfl,
      rfl, by simp, .done _ _ _, fun _ => rfl, by simp, by simp⟩
  | cons segment rest ih =>
    have hsegment := hsegments segment List.mem_cons_self
    have hrest : ∀ s ∈ rest, Segment s := fun s hs => hsegments s (List.mem_cons_of_mem _ hs)
    unfold mkdir_ancestors at h
    split at h
    · simp at h
    · rename_i hkind
      rw [not_not] at hkind
      simp only [Tx.query_bind] at h
      cases hchild : fetch_child w.db ws current.id segment with
      | some child =>
        simp only [hchild, Tx.expect_bind_eq_ok] at h
        obtain ⟨joined, hjoin, h⟩ := h
        obtain ⟨existing, made, base, base_path, hsplit, hwalk, hpath, hnested⟩ :=
          ih hwf (fetch_child_live hcurrent hkind hchild) hrest h
        refine ⟨segment :: existing, made, base,
          base_path, by rw [hsplit, List.cons_append], ?_, ?_, hnested⟩
        · simpa only [walk, hkind, ne_eq, not_true_eq_false, if_false, hchild] using hwalk
        · rw [hpath, joined_segments hsegment hjoin, List.append_assoc, List.singleton_append]
      | none =>
        simp only [hchild] at h
        split at h
        · simp only [Tx.expect_bind_eq_ok] at h
          obtain ⟨joined, hjoin, h⟩ := h
          obtain ⟨created, w₁, hcreate, h⟩ := Tx.bind_eq_ok.mp h
          obtain ⟨heffect, hlive, hbarren⟩ :=
            create_directory_effect (P := Policy.any) (o := none) hwf hcurrent hkind
            hsegment hchild hcreate
          have hnested := mkdir_ancestors_barren (heffect.wellFormed hwf) hlive hbarren hrest h
          refine ⟨[], segment :: rest, current, current_path, rfl,
            rfl, by simp, ?_, by simp, fun _ => hkind, ?_⟩
          · exact (create_directory_nested (joined_segments hsegment hjoin) hcreate).trans hnested
          · simpa using hchild
        · simp at h

/-- The directories that a `mkdir` finds and the ones that it makes. -/
structure Makes (db : Db) (ws : WorkspaceId) (segments existing made : List Text) (base : RawNode) :
    Prop where
  split : segments = existing ++ made
  found : ∃ root, fetch_root db ws = some root ∧ walk db ws root existing = some base
  dir : base.kind = .Directory
  new : made ≠ []
  free : ∀ s ∈ made.head?, fetch_child db ws base.id s = none

/-- A path that has the segments that are found leads to the base. -/
theorem Makes.resolve_base {db : Db} {segments made : List Text} {path : VirtualPath}
    {base : RawNode} (h : Makes db ws segments path.segments made base) :
    resolve.resolve db ws path = some base := by
  obtain ⟨root, hroot, hwalk⟩ := h.found
  unfold resolve.resolve
  rw [hroot]
  exact hwalk

/-- What `mkdir` does: nothing, or it makes the directories that are missing. -/
theorem mkdir_tx_ok {options : CreateOptions} {segments : List Text} {outcome : MkdirOutcome}
    (hwf : WellFormed w.db) (hsegments : ∀ s ∈ segments, Segment s)
    (h : mkdir_tx rt ws segments options actor_json w = .ok (outcome, w')) :
    (w' = w ∧ ∀ row, outcome ≠ .Created row) ∨ ∃ row existing made base base_path last_path,
      (outcome = .Created row ∧ 0 < row.revision) ∧
      Makes w.db ws segments existing made base ∧ base_path.segments = existing ∧
      Nested rt ws base.id base_path made w row.id last_path w' := by
  simp only [mkdir_tx, Tx.query_bind] at h
  cases hroot : fetch_root w.db ws with
  | none =>
    simp only [hroot] at h
    obtain ⟨rfl, rfl⟩ := Tx.pure_eq_ok.mp h
    exact Or.inl ⟨rfl, fun row hrow => by cases hrow⟩
  | some root =>
    simp only [hroot, Tx.expect_bind_eq_ok] at h
    obtain ⟨leaf_name, hleaf, h⟩ := h
    have hsplit : segments.dropLast ++ [leaf_name] = segments :=
      List.dropLast_append_getLast? leaf_name hleaf
    have hancestor : ∀ s ∈ segments.dropLast, Segment s :=
      fun s hs => hsegments s (List.dropLast_subset _ hs)
    obtain ⟨result, w₁, hancestors, h⟩ := Tx.bind_eq_ok.mp h
    obtain ⟨_, herror, hok⟩ :=
      mkdir_ancestors_effect (P := Policy.any) (o := none) hwf (fetch_root_live hroot) hancestor
      hancestors
    cases result with
    | error out =>
      obtain ⟨rfl, rfl⟩ := Tx.pure_eq_ok.mp h
      refine Or.inl ⟨(herror out rfl).1, fun row hrow => ?_⟩
      obtain hout | hout := mkdir_ancestors_error hancestors <;>
        (rw [hout] at hrow
         cases hrow)
    | ok last =>
      obtain ⟨current, current_path⟩ := last
      obtain ⟨_, hsame, _⟩ := hok current current_path rfl
      obtain ⟨existing, made, base, base_path, hsplit', hwalk, hpath, hnested, hlast, hdir,
        hfree⟩ :=
        mkdir_ancestors_ok hwf (fetch_root_live hroot) hancestor hancestors
      simp only at h
      split at h
      · rename_i hkind
        obtain ⟨rfl, rfl⟩ := Tx.pure_eq_ok.mp h
        exact Or.inl ⟨hsame.resolve_right (fun hb => hkind hb.1), fun row hrow => by cases hrow⟩
      · rename_i hkind
        rw [not_not] at hkind
        simp only [Tx.query_bind] at h
        cases hexisting : fetch_child w₁.db ws current.id leaf_name with
        | some child =>
          simp only [hexisting] at h
          have hw₁ : w₁ = w := hsame.resolve_right (fun hb => by simp [hb.2] at hexisting)
          left
          split at h
          · obtain ⟨rfl, rfl⟩ := Tx.pure_eq_ok.mp h
            exact ⟨hw₁, fun row hrow => by cases hrow⟩
          · split at h
            · obtain ⟨rfl, rfl⟩ := Tx.pure_eq_ok.mp h
              exact ⟨hw₁, fun row hrow => by cases hrow⟩
            · split at h <;>
                (obtain ⟨rfl, rfl⟩ := Tx.pure_eq_ok.mp h
                 exact ⟨hw₁, fun row hrow => by cases hrow⟩)
        | none =>
          simp only [hexisting, Tx.expect_bind_eq_ok] at h
          obtain ⟨leaf_path, hjoin, h⟩ := h
          obtain ⟨created, w₂, hcreate, h⟩ := Tx.bind_eq_ok.mp h
          obtain ⟨rfl, rfl⟩ := Tx.pure_eq_ok.mp h
          have hjoined := joined_segments (hsegments leaf_name (List.mem_of_getLast? hleaf)) hjoin
          rw [VirtualPath.segments_root, List.nil_append] at hpath
          refine Or.inr ⟨created, existing, made ++ [leaf_name], base, base_path, leaf_path,
            ⟨rfl, by obtain ⟨_, rfl, _⟩ := create_directory_ok hcreate; exact Nat.one_pos⟩,
            ⟨by rw [← hsplit, hsplit', List.append_assoc], ⟨root, hroot, hwalk⟩, ?_, by simp, ?_⟩,
              hpath,
            hnested.trans (create_directory_nested hjoined hcreate)⟩
          · cases made with
            | nil => exact hlast rfl ▸ hkind
            | cons name names => exact hdir (by simp)
          · cases made with
            | nil =>
              obtain rfl := hlast rfl
              cases hnested
              simpa using hexisting
            | cons name names => simpa using hfree

end directory

namespace mutate

variable {rt : Runtime} {ws : WorkspaceId} {w w' : World}

/-- The tables that copying leaves alone. -/
structure Framed (db db' : Db) : Prop where
  workspaces : db'.workspaces = db.workspaces
  trash : db'.trash = db.trash
  changes : db'.changes = db.changes

theorem Framed.refl (db : Db) : Framed db db := ⟨rfl, rfl, rfl⟩

theorem Framed.trans {db db' db'' : Db} (h : Framed db db') (h' : Framed db' db'') :
    Framed db db'' :=
  ⟨h'.workspaces.trans h.workspaces, h'.trash.trans h.trash, h'.changes.trans h.changes⟩

theorem copy_content_ok {old : RawNode} {result : Option GenerationId}
    (h : copy_content rt ws old w = .ok (result, w')) :
    w.tick ≤ w'.tick ∧ w'.db.nodes = w.db.nodes ∧ Framed w.db w'.db := by
  obtain ⟨_, _, rfl⟩ | ⟨source, gens, chunks, _, _, _, _, rfl⟩ := copy_content_cases h
  · exact ⟨le_refl _, rfl, Framed.refl _⟩
  · exact ⟨Nat.le_add_right _ _, rfl, rfl, rfl, rfl⟩

/-- One round of the loop of `copy_subtree` inserts one row. -/
theorem copy_node_ok {now : Int} {old raw : RawNode} {up : NodeId} {name : Text}
    (h : copy_node rt ws now old up name w = .ok (raw, w')) : ∃ generation,
      raw = (copiedRow (rt.newId w.tick) ws up name old generation now).toRawNode ∧
      w.db.nodes.insert (copiedRow (rt.newId w.tick) ws up name old generation now) =
        some w'.db.nodes ∧
      w.tick < w'.tick ∧ Framed w.db w'.db := by
  simp only [copy_node, Tx.new_id_bind] at h
  obtain ⟨generation, w₁, hcontent, h⟩ := Tx.bind_eq_ok.mp h
  simp only [Tx.execute_bind_eq_ok] at h
  obtain ⟨db, hinsert, db', hattributes, h⟩ := h
  obtain ⟨rfl, rfl⟩ := Tx.pure_eq_ok.mp h
  obtain ⟨htick, hnodes, hframed⟩ := copy_content_ok hcontent
  obtain ⟨nodes, hins, rfl⟩ := Db.insert_node_ok hinsert
  obtain ⟨attributes, rfl, _⟩ := insert_attributes_ok hattributes
  exact ⟨generation, rfl, hnodes ▸ hins, by simp only at htick ⊢; omega, hframed.workspaces,
    hframed.trash, hframed.changes⟩

/-- Between the stores there are only new nodes, each of them below a node that
is itself new since `base`. -/
structure Grown (rt : Runtime) (base : Nat) (w w' : World) : Prop where
  tick : w.tick ≤ w'.tick
  kept : ∀ m ∈ w.db.nodes, m ∈ w'.db.nodes
  added : ∀ m ∈ w'.db.nodes, m ∈ w.db.nodes ∨ Drawn rt w.tick w'.tick m.id ∧ m.revision = 1 ∧
    ∃ up, m.parent_id = some up ∧ Drawn rt base w'.tick up
  framed : Framed w.db w'.db

theorem Grown.refl (rt : Runtime) (base : Nat) (w : World) : Grown rt base w w :=
  ⟨le_refl _, fun _ hm => hm, fun _ hm => Or.inl hm, Framed.refl _⟩

theorem Grown.trans {base : Nat} {w₁ : World} (h : Grown rt base w w₁) (h' : Grown rt base w₁ w') :
    Grown rt base w w' := by
  refine ⟨h.tick.trans h'.tick, fun m hm => h'.kept m (h.kept m hm), fun m hm => ?_,
    h.framed.trans h'.framed⟩
  obtain hm | ⟨hid, hrevision, hup⟩ := h'.added m hm
  · obtain hm | ⟨hid, hrevision, up, hup, hdrawn⟩ := h.added m hm
    · exact Or.inl hm
    · exact Or.inr ⟨hid.mono (le_refl _) h'.tick, hrevision, up, hup,
        hdrawn.mono (le_refl _) h'.tick⟩
  · exact Or.inr ⟨hid.mono h.tick (le_refl _), hrevision, hup⟩

theorem copy_node_grown {now : Int} {old raw : RawNode} {up : NodeId} {name : Text} {base : Nat}
    (hbase : base ≤ w.tick) (hup : Drawn rt base w.tick up)
    (h : copy_node rt ws now old up name w = .ok (raw, w')) :
    Grown rt base w w' ∧ Drawn rt base w'.tick raw.id := by
  obtain ⟨generation, rfl, hins, htick, hframed⟩ := copy_node_ok h
  have hid : Drawn rt w.tick w'.tick (rt.newId w.tick) := ⟨w.tick, le_refl _, htick, rfl⟩
  refine ⟨⟨htick.le, fun m hm => (Table.mem_insert hins).mpr (Or.inl hm), fun m hm => ?_, hframed⟩,
    hid.mono hbase (le_refl _)⟩
  obtain hm | rfl := (Table.mem_insert hins).mp hm
  · exact Or.inl hm
  · exact Or.inr ⟨hid, rfl, up, rfl, hup.mono (le_refl _) htick.le⟩

/-- The loop of `copy_subtree` below copies that have already been made. -/
theorem copy_loop_grown {now : Int} {bound base : Nat} {stack : List (RawNode × NodeId × Text)}
    {top raw : RawNode} (hbase : base ≤ w.tick)
    (hstack : ∀ item ∈ stack, Drawn rt base w.tick item.2.1)
    (h : copy_loop rt ws now bound stack (some top) w = .ok (raw, w')) :
    raw = top ∧ Grown rt base w w' := by
  have hrun := copy_loop_induction
    (motive := fun _ stack first w => first = some top → base ≤ w.tick →
    (∀ item ∈ stack, Drawn rt base w.tick item.2.1) → raw = top ∧ Grown rt base w w') ?_ ?_ h
  · exact hrun rfl hbase hstack
  · intro _ htop _ _
    exact ⟨Option.some.inj htop, Grown.refl _ _ _⟩
  · intro _ old new_node up name stack first w w₁ hcopy _ ih htop hbase hstack
    obtain ⟨hgrown, hid⟩ := copy_node_grown hbase (hstack _ List.mem_cons_self) hcopy
    have hpending : ∀ item ∈ pushed w₁.db ws old new_node.id stack,
        Drawn rt base w₁.tick item.2.1 := by
      intro item hitem
      obtain ⟨_, child, _, rfl⟩ | hstacked := mem_pushed.mp hitem
      · exact hid
      · exact (hstack item (List.mem_cons_of_mem _ hstacked)).mono (le_refl _) hgrown.tick
    obtain ⟨rfl, hrest⟩ := ih (by rw [htop, Option.some_or]) (hbase.trans hgrown.tick) hpending
    exact ⟨rfl, hgrown.trans hrest⟩

theorem fetch_full_ok {id : NodeId} {raw : RawNode} (h : fetch_full ws id w = .ok (raw, w')) :
    w' = w ∧ fetch_by_id w.db ws id = some raw := by
  simp only [fetch_full, Tx.query_bind] at h
  cases hrow : fetch_by_id w.db ws id with
  | none => simp [hrow] at h
  | some row =>
    simp only [hrow] at h
    obtain ⟨rfl, rfl⟩ := Tx.pure_eq_ok.mp h
    exact ⟨rfl, rfl⟩

/-- What a copy does to the node table: it inserts the copy of the source, and
below it copies of what the source holds. -/
theorem copy_subtree_ok {source raw : RawNode} {up : NodeId} {name : Text} {now : Int}
    (h : copy_subtree rt ws source up name now w = .ok (raw, w')) : ∃ full generation w₁,
      fetch_by_id w.db ws source.id = some full ∧
      raw = (copiedRow (rt.newId w.tick) ws up name full generation now).toRawNode ∧
      w.db.nodes.insert (copiedRow (rt.newId w.tick) ws up name full generation now) =
        some w₁.db.nodes ∧
      w.tick < w₁.tick ∧ Framed w.db w₁.db ∧ Grown rt w.tick w₁ w' := by
  unfold copy_subtree at h
  obtain ⟨full, w₁, hfull, hloop⟩ := Tx.bind_eq_ok.mp h
  obtain ⟨rfl, hfull⟩ := fetch_full_ok hfull
  rw [Tx.query_bind] at hloop
  cases hbound : w₁.db.nodes.rows.length with
  | zero =>
    rw [hbound] at hloop
    exact absurd hloop Tx.fail_ne_ok
  | succ bound =>
    rw [hbound, copy_loop] at hloop
    obtain ⟨new_node, w₂, hcopy, hrest⟩ := Tx.bind_eq_ok.mp hloop
    obtain ⟨generation, rfl, hins, htick, hframed⟩ := copy_node_ok hcopy
    have hpending : ∀ item ∈ pushed w₂.db ws full (rt.newId w₁.tick) [],
        Drawn rt w₁.tick w₂.tick item.2.1 := by
      intro item hitem
      obtain ⟨_, child, _, rfl⟩ | hstacked := mem_pushed.mp hitem
      · exact ⟨w₁.tick, le_refl _, htick, rfl⟩
      · cases hstacked
    obtain ⟨rfl, hgrown⟩ := copy_loop_grown htick.le hpending hrest
    exact ⟨full, generation, w₂, hfull, rfl, hins, htick, hframed, hgrown⟩

end mutate

end fslite
