import Fslite.Sqlite.Effect.Create

namespace fslite

open resolve

/-- A generation that may become the content of a node once it is complete. -/
structure Staged (P : Policy) (db : Db) (ws : WorkspaceId) (g : GenerationId) (length : Nat) :
    Prop where
  unreferenced : db.Unreferenced g
  workspace : ∀ row, db.generation? g = some row → row.workspace_id = ws
  laid : P.laid → (∃ row, db.generation? g = some row) → db.LaidOut g length

theorem Staged.ready {P : Policy} {db : Db} {ws : WorkspaceId} {g : GenerationId} {length : Nat}
    (h : Staged P db ws g length) (hstored : ∃ row, db.generation? g = some row) :
    Ready P (db.set_generation_complete g length) ws g length := by
  obtain ⟨row, hrow⟩ := hstored
  refine ⟨h.unreferenced, ?_, fun hlaid => h.laid hlaid ⟨row, hrow⟩⟩
  refine ⟨{ row with complete := true, length := length }, ?_, rfl, rfl, h.workspace row hrow⟩
  rw [Db.generation?_set_complete, if_pos rfl, hrow]
  rfl

/-- The constraints under which a node row is written. -/
structure Allowed (db : Db) (row : NodeRow) : Prop where
  workspace : ∃ w, db.workspace? row.workspace_id = some w
  parent : ∀ up, row.parent_id = some up → ∃ p, db.node? up = some p
  generation : ∀ g, row.content_generation_id = some g → ∃ gen, db.generation? g = some gen
  free : row.trashed_at_ms = none → ∀ up, row.parent_id = some up → ∀ m ∈ db.nodes, m.id ≠ row.id →
    m.workspace_id = row.workspace_id → m.parent_id = some up → m.name = row.name →
      m.trashed_at_ms ≠ none

theorem Db.node_allowed_iff {db : Db} {row : NodeRow} :
    db.node_allowed row = true ↔ Allowed db row := by
  have hfree : (row.trashed_at_ms.isSome ||
    !db.name_taken row.workspace_id row.parent_id row.name row.id) = true ↔
      (row.trashed_at_ms = none → ∀ up, row.parent_id = some up → ∀ m ∈ db.nodes, m.id ≠ row.id →
        m.workspace_id = row.workspace_id → m.parent_id = some up → m.name = row.name →
          m.trashed_at_ms ≠ none) := by
    cases row.trashed_at_ms with
    | some t => simp
    | none =>
      cases row.parent_id with
      | none => simp [Db.name_taken]
      | some up => simp [Db.name_taken, Table.mem_def]
  unfold Db.node_allowed
  rw [Bool.and_eq_true, Bool.and_eq_true, Bool.and_eq_true, hfree]
  constructor
  · rintro ⟨⟨⟨hworkspace, hparent⟩, hgeneration⟩, hfree⟩
    refine ⟨Table.contains_iff.mp hworkspace, fun up hup => ?_, fun g hg => ?_, hfree⟩
    · rw [hup] at hparent
      exact Table.contains_iff.mp hparent
    · rw [hg] at hgeneration
      exact Table.contains_iff.mp hgeneration
  · rintro ⟨hworkspace, hparent, hgeneration, hfree⟩
    refine ⟨⟨⟨Table.contains_iff.mpr hworkspace, ?_⟩, ?_⟩, hfree⟩
    · cases hup : row.parent_id with
      | none => rfl
      | some up => exact Table.contains_iff.mpr (hparent up hup)
    · cases hg : row.content_generation_id with
      | none => rfl
      | some g => exact Table.contains_iff.mpr (hgeneration g hg)

theorem Db.insert_node_allowed {row : NodeRow} {db db' : Db} (h : Db.insert_node row db = .ok db') :
    Allowed db row := by
  unfold Db.insert_node at h
  split at h
  · rename_i hallowed
    exact Db.node_allowed_iff.mp hallowed
  · cases h

theorem Db.update_node_allowed {row : NodeRow} {u : Table.Update NodeRow.key} {db db' : Db}
    (hrow : row ∈ db.nodes) (h : Db.update_node row.id u db = .ok db') :
    Allowed db (u.apply row) := by
  unfold Db.update_node at h
  rw [Db.node?_of_mem hrow] at h
  simp only at h
  split at h
  · rename_i hallowed
    exact Db.node_allowed_iff.mp hallowed
  · cases h

/-- Whether the path is free for a new file. -/
def CreatesFile (db : Db) (ws : WorkspaceId) (path : VirtualPath) : Prop :=
  resolve.resolve db ws path = none ∧
  ∃ parent_path parent, path.parent = some parent_path ∧
    resolve.resolve db ws parent_path = some parent ∧
    parent.kind = .Directory

theorem CreatesFile.congr {db db' : Db} {ws : WorkspaceId} {path : VirtualPath}
    (hnodes : db'.nodes = db.nodes) :
    CreatesFile db' ws path ↔ CreatesFile db ws path := by
  simp only [CreatesFile, resolve_congr hnodes]

namespace content

variable {rt : Runtime} {P : Policy} {ws : WorkspaceId} {w w' : World} {path : VirtualPath}
  {g : GenerationId}
variable {length : Nat} {params : FinalizeParams} {actor_json : Text}

/-- What a successful `finalize_tx` found and did: a new file under a live
directory, or a live file whose content was replaced. -/
inductive Finalized (rt : Runtime) (ws : WorkspaceId) (path : VirtualPath) (g : GenerationId)
    (length : Nat) (params : FinalizeParams) (w w' : World) : RawNode → Prop where
  | created {parent_path : VirtualPath} {parent : RawNode} {name : Text} {nodes : Table NodeRow.key}
      (habsent : resolve.resolve w.db ws path = none)
        (hparent_path : path.parent = some parent_path)
      (hparent : resolve.resolve w.db ws parent_path = some parent)
        (hdir : parent.kind = .Directory)
      (hcreate : params.allow_create = true) (hname : path.name = some name)
      (hallowed : Allowed w.db
        (fileRow (rt.newId w.tick) ws parent.id name g length (rt.nowMs (w.tick + 1))))
      (hins : w.db.nodes.insert
        (fileRow (rt.newId w.tick) ws parent.id name g length (rt.nowMs (w.tick + 1))) =
        some nodes)
      (htick : w'.tick = w.tick + 2)
      (happ : Recorded ws .Created (some (rt.newId w.tick)) none (some path.as_str) (some 1)
        { w.db.set_generation_complete g length with nodes } w'.db) :
      Finalized rt ws path g length params w w'
        (fileRow (rt.newId w.tick) ws parent.id name g length (rt.nowMs (w.tick + 1))).toRawNode
  | replaced {n : NodeRow} {db : Db} (hfound : resolve.resolve w.db ws path = some n.toRawNode)
    (hlive : Live w.db ws n)
      (hkind : n.kind = .File) (hstale : stale params.expected_revision n.revision = false)
      (hallowed : Allowed w.db ((replaced g length (n.revision + 1) (rt.nowMs w.tick)).apply n))
      (htick : w'.tick = w.tick + 1)
      (happ : Recorded ws .Modified (some n.id) none (some path.as_str) (some (n.revision + 1)) {
        w.db.set_generation_complete g length with
        nodes := w.db.nodes.modify n.id (replaced g length (n.revision + 1) (rt.nowMs w.tick)) } db)
      (hdrop : ∀ old, n.content_generation_id = some old → old ≠ g → w'.db = db.drop old)
      (hframe : w'.db.nodes = db.nodes ∧ w'.db.workspaces = db.workspaces ∧
        w'.db.changes = db.changes) :
      Finalized rt ws path g length params w w' { n.toRawNode with
        workspace_id := ws, kind := .File, size := length, revision := n.revision + 1
        modified_at_ms := rt.nowMs w.tick, accessed_at_ms := rt.nowMs w.tick
        content_generation_id := some g, symlink_target := none }

theorem finalize_tx_ok {outcome : FinalizeOutcome}
    (h : finalize_tx rt ws path g length params actor_json w = .ok (outcome, w')) :
    (w' = w ∧ ∀ row, outcome ≠ .Applied row) ∨ ∃ row, outcome = .Applied row ∧
      Finalized rt ws path g length params w w' row := by
  simp only [finalize_tx, Tx.query_bind] at h
  cases hfound : resolve.resolve w.db ws path with
  | none =>
    simp only [hfound] at h
    cases hparent_path : path.parent with
    | none =>
      simp only [hparent_path] at h
      obtain ⟨rfl, rfl⟩ := Tx.pure_eq_ok.mp h
      exact Or.inl ⟨rfl, fun row hrow => by cases hrow⟩
    | some parent_path =>
      simp only [hparent_path, Tx.query_bind] at h
      cases hparent : resolve.resolve w.db ws parent_path with
      | none =>
        simp only [hparent] at h
        obtain ⟨rfl, rfl⟩ := Tx.pure_eq_ok.mp h
        exact Or.inl ⟨rfl, fun row hrow => by cases hrow⟩
      | some parent =>
        simp only [hparent] at h
        split at h
        · obtain ⟨rfl, rfl⟩ := Tx.pure_eq_ok.mp h
          exact Or.inl ⟨rfl, fun row hrow => by cases hrow⟩
        · rename_i hdir
          split at h
          · obtain ⟨rfl, rfl⟩ := Tx.pure_eq_ok.mp h
            exact Or.inl ⟨rfl, fun row hrow => by cases hrow⟩
          · rename_i hcreate
            simp only [Tx.new_id_bind, Tx.now_ms_bind, Tx.expect_bind_eq_ok,
              Tx.execute_bind_eq_ok] at h
            obtain ⟨name, hname, db, hinsert, h⟩ := h
            simp only [finalize_generation, Tx.execute_bind_eq_ok, Except.ok.injEq,
              exists_eq_left'] at h
            obtain ⟨_, w₁, happ, h⟩ := Tx.bind_eq_ok.mp h
            obtain ⟨rfl, rfl⟩ := Tx.pure_eq_ok.mp h
            have hallowed := Db.insert_node_allowed hinsert
            obtain ⟨nodes, hins, rfl⟩ := Db.insert_node_ok hinsert
            obtain ⟨htick, happ⟩ := change.append_ok happ
            exact Or.inr ⟨_, rfl, .created hfound hparent_path hparent (not_not.mp hdir)
              (by simpa using hcreate) hname
              hallowed hins htick happ⟩
  | some existing =>
    simp only [hfound] at h
    split at h
    · obtain ⟨rfl, rfl⟩ := Tx.pure_eq_ok.mp h
      exact Or.inl ⟨rfl, fun row hrow => by cases hrow⟩
    · rename_i hkind
      split at h
      · obtain ⟨rfl, rfl⟩ := Tx.pure_eq_ok.mp h
        exact Or.inl ⟨rfl, fun row hrow => by cases hrow⟩
      · rename_i hstale
        obtain ⟨n, rfl, hlive⟩ := resolve_live hfound
        simp only [Tx.now_ms_bind, Tx.execute_bind_eq_ok] at h
        obtain ⟨db, hupdate, h⟩ := h
        simp only [finalize_generation, Tx.execute_bind_eq_ok, Except.ok.injEq,
          exists_eq_left'] at h
        obtain ⟨_, w₁, happ, hrest⟩ := Tx.bind_eq_ok.mp h
        obtain ⟨htick, happ⟩ := change.append_ok happ
        have hallowed := Db.update_node_allowed hlive.mem hupdate
        obtain rfl := Db.update_node_ok hupdate
        refine Or.inr ⟨_, ?_, .replaced hfound hlive (not_not.mp hkind)
          (by simpa using hstale) hallowed ?_ happ ?_ ?_⟩
        all_goals
          cases hold : n.content_generation_id with
          | none =>
            simp only [hold] at hrest
            obtain ⟨rfl, rfl⟩ := Tx.pure_eq_ok.mp hrest
            simp [htick]
          | some old =>
            simp only [hold] at hrest
            split at hrest
            · simp only [delete_generation, Tx.execute_bind_eq_ok] at hrest
              obtain ⟨db, hremove, hrest⟩ := hrest
              obtain ⟨rfl, rfl⟩ := Tx.pure_eq_ok.mp hrest
              simp [htick, Db.drop_of_remove_generation hremove, Db.drop]
            · rename_i heq
              obtain ⟨rfl, rfl⟩ := Tx.pure_eq_ok.mp hrest
              simp [htick, not_not.mp heq]

/-- Where the path leads nowhere, a commit that may create a file does so if and
only if there is a place for it. -/
theorem finalize_tx_creates {outcome : FinalizeOutcome}
    (habsent : resolve.resolve w.db ws path = none) (hcreate : params.allow_create = true)
    (h : finalize_tx rt ws path g length params actor_json w = .ok (outcome, w')) :
    (∃ row, outcome = .Applied row) ↔ CreatesFile w.db ws path := by
  constructor
  · rintro ⟨row, rfl⟩
    obtain ⟨_, hnot⟩ | ⟨_, _, hfinal⟩ := finalize_tx_ok h
    · exact absurd rfl (hnot row)
    · cases hfinal with
      | created habsent hparent_path hparent hdir =>
        exact ⟨habsent, _, _, hparent_path, hparent, hdir⟩
      | replaced hfound =>
        rw [habsent] at hfound
        cases hfound
  · rintro ⟨_, parent_path, parent, hparent_path, hparent, hdir⟩
    simp only [finalize_tx, Tx.query_bind, habsent, hparent_path, hparent, hdir, ne_eq,
      not_true_eq_false, if_false, hcreate,
      Bool.not_true, Bool.false_eq_true, Tx.new_id_bind, Tx.now_ms_bind, Tx.expect_bind_eq_ok,
        Tx.execute_bind_eq_ok] at h
    obtain ⟨_, _, _, _, h⟩ := h
    simp only [finalize_generation, Tx.execute_bind_eq_ok] at h
    obtain ⟨_, _, h⟩ := h
    obtain ⟨_, _, _, h⟩ := Tx.bind_eq_ok.mp h
    exact ⟨_, (Tx.pure_eq_ok.mp h).1.symm⟩

/-- Without a place for a new file a commit changes nothing. -/
theorem finalize_tx_misplaced (habsent : resolve.resolve w.db ws path = none)
    (hnot : ¬ CreatesFile w.db ws path) (rt : Runtime) (g : GenerationId) (length : Nat)
    (params : FinalizeParams) (actor_json : Text) :
    ∃ outcome, finalize_tx rt ws path g length params actor_json w = .ok (outcome, w) ∧ ∀ row,
      outcome ≠ .Applied row := by
  simp only [finalize_tx, Tx.query_bind, habsent]
  cases hparent_path : path.parent with
  | none => exact ⟨.NotFound, rfl, fun _ h => by cases h⟩
  | some parent_path =>
    simp only [Tx.query_bind]
    cases hparent : resolve.resolve w.db ws parent_path with
    | none => exact ⟨.NotFound, rfl, fun _ h => by cases h⟩
    | some parent =>
      simp only
      rw [if_pos fun hdir => hnot ⟨habsent, parent_path, parent, hparent_path, hparent, hdir⟩]
      exact ⟨.WrongNodeType, rfl, fun _ h => by cases h⟩

theorem Finalized.tick {row : RawNode} (h : Finalized rt ws path g length params w w' row) :
    w.tick ≤ w'.tick := by
  cases h <;> omega

theorem Finalized.revision_pos {row : RawNode} (h : Finalized rt ws path g length params w w' row) :
    0 < row.revision := by
  cases h with
  | created => exact Nat.one_pos
  | replaced => exact Nat.succ_pos _

/-- The commit of a staged generation completes it and hands it to one file. -/
theorem Finalized.edits {row : RawNode} {mine : GenerationId → Prop}
    (h : Finalized rt ws path g length params w w' row) (hwf : WellFormed w.db) (hmine : mine g)
    (hstaged : Staged P w.db ws g length) : Edits P (Drawn rt w.tick w'.tick) mine w.db w'.db := by
  refine (Edits.single (.complete g hmine hstaged.unreferenced length)).trans ?_
  cases h with
  | @created parent_path parent name nodes habsent hparent_path hparent hdir hcreate hname hallowed hins htick happ =>
    obtain ⟨p, rfl, hp⟩ := resolve_live hparent
    have hready := hstaged.ready (hallowed.generation g rfl)
    refine (Edits.single ?_).tail (happ.edit ⟨none, rfl⟩ ⟨some path, rfl⟩ (by simp))
    refine @Edit.insert _ _ _
      (w.db.set_generation_complete g length) _ p ?_ hp.mem hdir hp.active rfl hp.workspace ?_ ?_ rfl rfl
      ?_ ?_ _ hins
    · exact ⟨w.tick, le_refl _, by omega, rfl⟩
    · rw [VirtualPath.name_eq] at hname
      exact VirtualPath.segment_of_mem (List.mem_of_getLast? hname)
    · intro m hm hws hup hname' hactive
      refine hallowed.free rfl p.id rfl m hm ?_ hws hup hname' hactive
      exact Table.find?_eq_none.mp (Table.insert_eq_some.mp hins).1 m hm
    · exact fun _ hnone => by cases hnone
    · intro g' hg'
      cases hg'
      exact ⟨rfl, hmine, hready⟩
  | @replaced n db hfound hlive hkind hstale hallowed htick happ hdrop hframe =>
    obtain ⟨old, hold⟩ := Option.ne_none_iff_exists'.mp (hwf.contents.file n hlive.mem hkind)
    have hne : old ≠ g := by
      rintro rfl
      exact hstaged.unreferenced n hlive.mem hold
    obtain ⟨now, actor, row, changes, hrow, hins, rfl⟩ := happ
    rw [hdrop old hold hne]
    have hlive' : Live w.db n.workspace_id n := hlive.workspace.symm ▸ hlive
    have hready : Ready P (w.db.set_generation_complete g length) n.workspace_id g length :=
      hlive.workspace.symm ▸ hstaged.ready (hallowed.generation g rfl)
    refine (Edits.single (@Edit.replace _ _ _ (w.db.set_generation_complete g length) n
      (hlive'.mono fun m hm => hm) g
      hmine length hready old hold (rt.nowMs w.tick))).tail ?_
    exact Recorded.edit ⟨now, actor, row, changes, hrow, hins, rfl⟩ ⟨none, rfl⟩ ⟨some path, rfl⟩
      (by simp)

theorem finalize_tx_effect {outcome : FinalizeOutcome} {o : Option GenerationId}
    (h : finalize_tx rt ws path g length params actor_json w = .ok (outcome, w'))
    (hwf : WellFormed w.db) (hown : o = some g) (hstaged : Staged P w.db ws g length) :
    Effect rt P o w w' := by
  obtain ⟨rfl, _⟩ | ⟨row, _, hfinal⟩ := finalize_tx_ok h
  · exact Effect.refl _ _ _ _
  · exact ⟨hfinal.tick, hfinal.edits hwf (Or.inl hown) hstaged⟩

/-- A new generation is stored without chunks. -/
theorem create_generation_ok (h : create_generation rt ws w = .ok (g, w')) :
    ∃ gens, g = rt.newId w.tick ∧ w.db.content_generations.insert
      ⟨g, ws, false, 0, rt.nowMs (w.tick + 1)⟩ = some gens ∧
      w' = ⟨{ w.db with content_generations := gens }, w.tick + 2⟩ := by
  simp only [create_generation, Tx.new_id_bind, Tx.now_ms_bind, Tx.execute_bind_eq_ok] at h
  obtain ⟨db, hinsert, h⟩ := h
  obtain ⟨rfl, rfl⟩ := Tx.pure_eq_ok.mp h
  unfold Db.insert_generation at hinsert
  split at hinsert
  · split at hinsert
    · rename_i gens hins
      cases hinsert
      exact ⟨gens, rfl, hins, rfl⟩
    · cases hinsert
  · cases hinsert

/-- A generation is stored in a workspace that exists, under an identifier that
is not taken. -/
theorem create_generation_iff : (∃ r, create_generation rt ws w = .ok r) ↔
    (∃ row, w.db.workspace? ws = some row) ∧ w.db.generation? (rt.newId w.tick) = none := by
  constructor
  · rintro ⟨⟨g, w'⟩, h⟩
    obtain ⟨gens, rfl, hins, rfl⟩ := create_generation_ok h
    refine ⟨?_, (Table.insert_eq_some.mp hins).1⟩
    simp only [create_generation, Tx.new_id_bind, Tx.now_ms_bind, Tx.execute_bind_eq_ok] at h
    obtain ⟨db, hinsert, _⟩ := h
    unfold Db.insert_generation at hinsert
    split at hinsert
    · rename_i hworkspace
      exact Table.contains_iff.mp hworkspace
    · cases hinsert
  · rintro ⟨hworkspace, hnone⟩
    let row : GenerationRow := ⟨rt.newId w.tick, ws, false, 0, rt.nowMs (w.tick + 1)⟩
    cases hins : w.db.content_generations.insert row with
    | none =>
      obtain ⟨old, hold⟩ := Table.contains_iff.mp (Table.insert_eq_none.mp hins)
      exact absurd hold (by rw [show w.db.content_generations.find? row.id = none from hnone]; simp)
    | some gens =>
      refine ⟨(rt.newId w.tick, ⟨{ w.db with content_generations := gens }, w.tick + 2⟩), ?_⟩
      simp only [create_generation, Tx.new_id_bind, Tx.now_ms_bind, Tx.execute_bind_eq_ok]
      refine ⟨_, ?_, rfl⟩
      unfold Db.insert_generation
      rw [if_pos (Table.contains_iff.mpr hworkspace), hins]

/-- Whether an outcome reports a file. -/
def TouchOutcome.Done : TouchOutcome → Prop
  | .Touched _ => True
  | .Created _ => True
  | _ => False

/-- What `touch` does to an existing node: nothing, or it writes the row of a
file. No change row is appended. -/
theorem touch_existing_ok {options : TouchOptions} {outcome : TouchOutcome} {node : RawNode}
    (hnode : resolve.resolve w.db ws path = some node)
    (h : touch_tx rt ws path options actor_json w = .ok (outcome, w')) :
    (w' = w ∧ ¬ outcome.Done) ∨ ∃ n row,
      (outcome = .Touched row ∧ 0 < row.revision ∧ fetch_by_id w'.db ws n.id = some row) ∧
      n.toRawNode = node ∧ Live w.db ws n ∧
      n.kind = .File ∧
      stale options.expected_revision n.revision = false ∧
      w' = ⟨{ w.db with nodes :=
        w.db.nodes.modify n.id (touched (n.revision + 1) (rt.nowMs w.tick)) }, w.tick + 1⟩ := by
  simp only [touch_tx, Tx.query_bind, hnode] at h
  split at h
  · obtain ⟨rfl, rfl⟩ := Tx.pure_eq_ok.mp h
    exact Or.inl ⟨rfl, id⟩
  · rename_i hkind
    split at h
    · obtain ⟨rfl, rfl⟩ := Tx.pure_eq_ok.mp h
      exact Or.inl ⟨rfl, id⟩
    · rename_i hfresh
      obtain ⟨n, rfl, hlive⟩ := resolve_live hnode
      simp only [Tx.now_ms_bind, Tx.execute_bind_eq_ok, Tx.query_bind, Tx.expect_bind_eq_ok] at h
      obtain ⟨db, hupdate, updated, hupdated, h⟩ := h
      obtain ⟨rfl, rfl⟩ := Tx.pure_eq_ok.mp h
      obtain rfl := Db.update_node_ok hupdate
      have hpos := revision_pos_of_modified (u := touched _ _) rfl hupdated
        (fun _ => Nat.succ_pos _)
      exact Or.inr ⟨n, updated, ⟨rfl, hpos, hupdated⟩, rfl, hlive,
        not_not.mp hkind, by simpa using hfresh, rfl⟩

/-- `touch` on an existing file writes its row, or nothing when it reports a failure. -/
theorem touch_existing_effect {o : Option GenerationId} {options : TouchOptions}
    {outcome : TouchOutcome} {node : RawNode} (hnode : resolve.resolve w.db ws path = some node)
    (h : touch_tx rt ws path options actor_json w = .ok (outcome, w')) :
    Effect rt P o w w' ∧ (¬ outcome.Done → w' = w) := by
  obtain ⟨rfl, _⟩ | ⟨n, row, ⟨rfl, _⟩, _, hlive, _, _, rfl⟩ := touch_existing_ok hnode h
  · exact ⟨Effect.refl _ _ _ _, fun _ => rfl⟩
  · refine ⟨?_, fun hnot => absurd trivial hnot⟩
    have hlive' : Live w.db n.workspace_id n := hlive.workspace.symm ▸ hlive
    exact Effect.of_edit (by simp)
      (.revise n hlive' (touched (n.revision + 1) _) rfl w.db.attributes (fun _ _ => rfl))

/-- What `touch` does where its path resolves to nothing: without `create`
nothing, with it a complete empty generation is stored before the place of the
new file is checked. -/
theorem touch_absent_ok {options : TouchOptions} {outcome : TouchOutcome}
    (habsent : resolve.resolve w.db ws path = none)
    (h : touch_tx rt ws path options actor_json w = .ok (outcome, w')) :
    (options.create = false ∧ w' = w ∧ outcome = .NotFound) ∨ (options.create = true ∧ ∃ w₁,
      create_generation rt ws w = .ok (rt.newId w.tick, w₁) ∧ ∃ result,
      finalize_tx rt ws path (rt.newId w.tick) 0 ⟨true, none⟩ actor_json
        { w₁ with db := w₁.db.set_generation_complete (rt.newId w.tick) 0 } = .ok (result, w') ∧
      (∀ row, result = .Applied row → outcome = .Created row) ∧
        (outcome.Done ↔ ∃ row, result = .Applied row)) := by
  simp only [touch_tx, Tx.query_bind, habsent] at h
  cases hcreate : options.create with
  | false =>
    simp only [hcreate] at h
    obtain ⟨rfl, rfl⟩ := Tx.pure_eq_ok.mp h
    exact Or.inl ⟨rfl, rfl, rfl⟩
  | true =>
    simp only [hcreate, Bool.not_true, Bool.false_eq_true, if_false] at h
    obtain ⟨g, w₁, hgeneration, h⟩ := Tx.bind_eq_ok.mp h
    simp only [finalize_generation, Tx.execute_bind_eq_ok, Except.ok.injEq, exists_eq_left'] at h
    obtain ⟨result, w₂, hfinal, h⟩ := Tx.bind_eq_ok.mp h
    obtain ⟨_, rfl, _, _⟩ := create_generation_ok hgeneration
    refine Or.inr ⟨rfl, w₁, hgeneration, result, ?_⟩
    cases result <;>
      (obtain ⟨rfl, rfl⟩ := Tx.pure_eq_ok.mp h
       exact ⟨hfinal, by simp, by simp [TouchOutcome.Done]⟩)

/-- Without a place for its file a `touch` that creates one fails after it has
stored a generation. -/
theorem touch_tx_misplaced {options : TouchOptions} (hcreate : options.create = true)
    (habsent : resolve.resolve w.db ws path = none) (hnot : ¬ CreatesFile w.db ws path)
    (h : create_generation rt ws w = .ok (g, w')) (actor_json : Text) : ∃ outcome, ¬ outcome.Done ∧
    touch_tx rt ws path options actor_json w = .ok
      (outcome, { w' with db := w'.db.set_generation_complete g 0 }) := by
  have hnodes : (w'.db.set_generation_complete g 0).nodes = w.db.nodes := by
    obtain ⟨_, _, _, rfl⟩ := create_generation_ok h
    rfl
  obtain ⟨result, hfinal, happlied⟩ :=
    finalize_tx_misplaced (w := { w' with db := w'.db.set_generation_complete g 0 })
    ((resolve_congr hnodes path).trans habsent) (mt (CreatesFile.congr hnodes).mp hnot) rt g 0
      ⟨true, none⟩ actor_json
  simp only [touch_tx, Tx.query_bind, habsent, hcreate, Bool.not_true, Bool.false_eq_true, if_false]
  rw [Tx.bind_of_ok h]
  have hcomplete : finalize_generation g 0 w' = .ok
    ((), { w' with db := w'.db.set_generation_complete g 0 }) := rfl
  rw [Tx.bind_of_ok hcomplete, Tx.bind_of_ok hfinal]
  cases result with
  | Applied row => exact absurd rfl (happlied row)
  | NotFound => exact ⟨.NotFound, id, rfl⟩
  | WrongNodeType => exact ⟨.WrongNodeType, id, rfl⟩
  | RevisionConflict => exact ⟨.RevisionConflict, id, rfl⟩

/-- A generation without chunks holds the empty content. -/
theorem laidOut_zero {db : Db} (h : ContentsWellFormed db) {g : GenerationId}
    (hnone : db.generation? g = none) :
    db.LaidOut g 0 := by
  refine ⟨[], rfl, fun i => ?_⟩
  rw [piece?_eq_none.mpr (Nat.zero_le _)]
  cases hrow : db.content_chunks.find? (g, i) with
  | none => rfl
  | some c =>
    obtain ⟨row, hstored⟩ := h.chunk c (Table.mem_of_find? hrow)
    have hkey : c.generation_id = g := congrArg Prod.fst (Table.key_of_find? hrow)
    rw [hkey, hnone] at hstored
    cases hstored

/-- A generation that `touch` has just stored is ready to become content. -/
theorem staged_of_create {w₁ : World} (hwf : WellFormed w.db)
    (h : create_generation rt ws w = .ok (g, w₁)) :
    Staged P w₁.db ws g 0 := by
  obtain ⟨gens, rfl, hins, rfl⟩ := create_generation_ok h
  have hnone : w.db.generation? (rt.newId w.tick) = none := (Table.insert_eq_some.mp hins).1
  refine ⟨hwf.contents.unreferenced_of_none hnone, fun row hrow => ?_, fun _ _ =>
    laidOut_zero hwf.contents hnone⟩
  have hrow' := (Db.generation?_insert hins (rt.newId w.tick)).symm.trans hrow
  rw [if_pos rfl, Option.some.injEq] at hrow'
  rw [← hrow']

theorem create_generation_effect {o : Option GenerationId}
    (h : create_generation rt ws w = .ok (g, w')) :
    Effect rt P o w w' := by
  obtain ⟨gens, rfl, hins, rfl⟩ := create_generation_ok h
  exact Effect.of_edit (by simp) (.generation _ ⟨w.tick, le_refl _, by simp, rfl⟩ rfl hins rfl)

theorem touch_tx_effect {o : Option GenerationId} {options : TouchOptions} {outcome : TouchOutcome}
    (hwf : WellFormed w.db) (h : touch_tx rt ws path options actor_json w = .ok (outcome, w')) :
    Effect rt P o w w' := by
  cases hfound : resolve.resolve w.db ws path with
  | some node => exact (touch_existing_effect hfound h).1
  | none =>
    obtain ⟨_, rfl, _⟩ | ⟨_, w₁, hcreate, result, hfinal, _⟩ := touch_absent_ok hfound h
    · exact Effect.refl _ _ _ _
    · obtain ⟨_, _, _, hw₁⟩ := create_generation_ok hcreate
      have hdrawn : Drawn rt w.tick w₁.tick (rt.newId w.tick) :=
        ⟨w.tick, le_refl _, by simp [hw₁], rfl⟩
      have heffect₁ : Effect rt P o w w₁ := create_generation_effect hcreate
      have hstaged : Staged P w₁.db ws (rt.newId w.tick) 0 := staged_of_create hwf hcreate
      have heffect₂ : Effect rt P o w
        { w₁ with db := w₁.db.set_generation_complete (rt.newId w.tick) 0 } :=
        ⟨heffect₁.tick, heffect₁.edits.tail (.complete _ (Or.inr hdrawn) hstaged.unreferenced 0)⟩
      obtain ⟨rfl, _⟩ | ⟨row, _, hfinal⟩ := finalize_tx_ok hfinal
      · exact heffect₂
      · have htick : w₁.tick ≤ w'.tick := hfinal.tick
        refine ⟨heffect₁.tick.trans htick, (heffect₂.edits.mono ?_ ?_).trans ((hfinal.edits
          (heffect₂.wellFormed hwf)
            (Or.inr (hdrawn.mono (le_refl _) htick)) ?_).mono ?_ (fun g hg => hg))⟩
        · exact fun id hid => hid.mono (le_refl _) htick
        · exact fun g hg => hg.imp_right (fun hid => hid.mono (le_refl _) htick)
        · refine ⟨hstaged.unreferenced, fun row hrow => ?_, fun hlaid _ => ?_⟩
          · rw [Db.generation?_set_complete, if_pos rfl] at hrow
            obtain ⟨row', hrow', rfl⟩ := Option.map_eq_some_iff.mp hrow
            exact hstaged.workspace row' hrow'
          · obtain ⟨gens, _, hins, hw⟩ := create_generation_ok hcreate
            exact hw ▸ laidOut_zero hwf.contents (Table.insert_eq_some.mp hins).1
        · exact fun id hid => hid.mono heffect₁.tick (le_refl _)

theorem upsert_chunk_ok {index : Nat} {bytes : Bytes} {u : Unit}
    (h : upsert_chunk g index bytes w = .ok (u, w')) :
    (∃ row, w.db.generation? g = some row) ∧
      w' = { w with db := { w.db with content_chunks := w.db.content_chunks.upsert ⟨g, index, bytes⟩ } } := by
  simp only [upsert_chunk, Tx.execute_eq_ok] at h
  obtain ⟨db, hput, rfl⟩ := h
  unfold Db.put_chunk at hput
  split at hput
  · rename_i hstored
    cases hput
    exact ⟨Table.contains_iff.mp hstored, rfl⟩
  · cases hput

theorem upsert_chunk_effect {index : Nat} {bytes : Bytes} {u : Unit} (hprivate : Private w.db g)
    (h : upsert_chunk g index bytes w = .ok (u, w')) : Effect rt P (some g) w w' := by
  obtain ⟨⟨row, hrow⟩, rfl⟩ := upsert_chunk_ok h
  refine Effect.of_edit (le_refl _)
    (.chunks g (Or.inl rfl) hprivate.unreferenced ⟨row, hrow, hprivate.incomplete row hrow⟩ _
    fun k hk => ?_)
  rw [Table.find?_upsert, if_neg]
  rintro rfl
  exact hk rfl

/-- The chunk rows that a bulk copy inserts. -/
def copied_chunks (db : Db) (source target : GenerationId) (p : Nat → Bool) : List ChunkRow :=
  (db.content_chunks.rows.filter (fun c => c.generation_id = source ∧ p c.chunk_index)).map
    (fun c => { c with generation_id := target })

theorem insert_chunks_ok {source target : GenerationId} {p : Nat → Bool} {db db' : Db}
    (h : db.insert_chunks source target p = .ok db') :
    (copied_chunks db source target p = [] ∨ ∃ row, db.generation? target = some row) ∧
      ∃ chunks, db.content_chunks.insertAll (copied_chunks db source target p) = some chunks ∧
        db' = { db with content_chunks := chunks } := by
  unfold Db.insert_chunks at h
  simp only at h
  split at h
  · rename_i hallowed
    split at h
    · rename_i chunks hins
      cases h
      rw [Bool.or_eq_true] at hallowed
      exact ⟨hallowed.imp List.isEmpty_iff.mp Table.contains_iff.mp, chunks, hins, rfl⟩
    · cases h
  · cases h

theorem insert_chunks_other {source target : GenerationId} {p : Nat → Bool} {db : Db}
    {chunks : Table ChunkRow.key}
    (hins : db.content_chunks.insertAll (copied_chunks db source target p) = some chunks)
    (k : GenerationId × Nat) (hk : k.1 ≠ target) : chunks.find? k = db.content_chunks.find? k := by
  rw [Table.find?_insertAll hins, List.find?_eq_none.mpr, Option.or_none]
  intro c hc hkey
  obtain ⟨c', _, rfl⟩ := List.mem_map.mp hc
  rw [decide_eq_true_eq] at hkey
  exact hk (congrArg Prod.fst hkey.symm)

theorem copy_chunk_range_effect {source : GenerationId} {lower upper : Nat} {u : Unit}
    (hprivate : Private w.db g) (h : copy_chunk_range source g lower upper w = .ok (u, w')) :
    Effect rt P (some g) w w' := by
  simp only [copy_chunk_range, Tx.execute_eq_ok] at h
  obtain ⟨db, hcopy, rfl⟩ := h
  obtain ⟨hnone | ⟨row, hrow⟩, chunks, hins, rfl⟩ := insert_chunks_ok hcopy
  · rw [hnone, Table.insertAll, Option.some.injEq] at hins
    subst hins
    exact Effect.refl _ _ _ _
  · exact Effect.of_edit (le_refl _)
      (.chunks g (Or.inl rfl) hprivate.unreferenced ⟨row, hrow, hprivate.incomplete row hrow⟩
      chunks (insert_chunks_other hins))

theorem delete_generation_ok {u : Unit} (h : delete_generation g w = .ok (u, w')) :
    w' = { w with db := w.db.drop g } := by
  simp only [delete_generation, Tx.execute_eq_ok] at h
  obtain ⟨db, hremove, rfl⟩ := h
  rw [Db.drop_of_remove_generation hremove]

theorem delete_generation_effect {u : Unit} (hprivate : Private w.db g)
    (h : delete_generation g w = .ok (u, w')) :
    Effect rt P (some g) w w' := by
  rw [delete_generation_ok h]
  exact Effect.of_edit (le_refl _) (.drop g (Or.inl rfl) hprivate.unreferenced)

end content

/-- What holds between the store before the transaction and the store after it. -/
def Tx.Keeps {A : Type} (R : Db → Db → Prop) (m : Tx A) : Prop :=
  ∀ w a w', m w = .ok (a, w') → R w.db w'.db

/-- A relation that holds between the stores before and after every statement that commits a
content. -/
structure KeptByCommit (ws : WorkspaceId) (g : GenerationId) (length : Nat)
    (R : Db → Db → Prop) : Prop where
  refl : ∀ db, R db db
  trans : ∀ {db db' db''}, R db db' → R db' db'' → R db db''
  nodes : ∀ (db : Db) nodes, R db { db with nodes }
  complete : ∀ db : Db, R db (db.set_generation_complete g length)
  append : ∀ (db : Db) now changes, R db { db.bump_sequence ws now with changes }
  drop : ∀ (db : Db) old, R db (db.drop old)

namespace KeptByCommit

variable {A B : Type} {ws : WorkspaceId} {g : GenerationId} {length : Nat} {R : Db → Db → Prop}

/-- A part of the store that none of the statements touches. -/
theorem of_view {V : Type} {view : Db → V} (hnodes : ∀ (db : Db) nodes,
    view { db with nodes } = view db)
    (hcomplete : ∀ db : Db, view (db.set_generation_complete g length) = view db)
    (happend : ∀ (db : Db) now changes, view { db.bump_sequence ws now with changes } = view db)
    (hdrop : ∀ (db : Db) old, view (db.drop old) = view db) :
    KeptByCommit ws g length (fun db db' => view db' = view db) where
  refl _ := rfl
  trans h h' := h'.trans h
  nodes := hnodes
  complete := hcomplete
  append := happend
  drop := hdrop

theorem pure (hR : KeptByCommit ws g length R) {a : A} : Tx.Keeps R (pure a) := by
  intro w b w' h
  rw [(Tx.pure_eq_ok.mp h).2]
  exact hR.refl _

theorem bind (hR : KeptByCommit ws g length R) {m : Tx A} {f : A → Tx B} (hm : Tx.Keeps R m)
    (hf : ∀ a, Tx.Keeps R (f a)) : Tx.Keeps R (m >>= f) := by
  intro w b w' h
  obtain ⟨a, w₁, hfirst, hrest⟩ := Tx.bind_eq_ok.mp h
  exact hR.trans (hm w a w₁ hfirst) (hf a w₁ b w' hrest)

theorem query (hR : KeptByCommit ws g length R) {f : Db → A} : Tx.Keeps R (Tx.query f) := by
  intro w a w' h
  rw [(Tx.query_eq_ok.mp h).2]
  exact hR.refl _

theorem execute {f : Db → Except Fault Db} (hf : ∀ db db', f db = .ok db' → R db db') :
    Tx.Keeps R (Tx.execute f) := by
  intro w a w' h
  obtain ⟨db, hdb, rfl⟩ := Tx.execute_eq_ok.mp h
  exact hf w.db db hdb

theorem draw (hR : KeptByCommit ws g length R) {f : Nat → A} :
    Tx.Keeps R (fun w => .ok (f w.tick, { w with tick := w.tick + 1 })) := by
  intro w a w' h
  cases h
  exact hR.refl _

theorem expect (hR : KeptByCommit ws g length R) {a : Option A} : Tx.Keeps R (Tx.expect a) := by
  intro w b w' h
  cases a with
  | none => cases h
  | some a =>
    cases h
    exact hR.refl _

theorem change_append (hR : KeptByCommit ws g length R) {kind : ChangeKind}
    {node_id : Option NodeId} {old_path new_path : Option Text} {revision : Option Nat}
    {actor_json : Text} {now : Int} :
    Tx.Keeps R (change.append ws kind node_id old_path new_path revision actor_json now) := by
  intro w a w' h
  obtain ⟨_, _, _, _, _, hdb⟩ := change.append_exact h
  rw [hdb]
  exact hR.append _ _ _

/-- The commit of a content keeps what each of its statements keeps. -/
theorem finalize_tx (hR : KeptByCommit ws g length R) {rt : Runtime} {path : VirtualPath}
    {params : content.FinalizeParams} {actor_json : Text} :
    Tx.Keeps R (content.finalize_tx rt ws path g length params actor_json) := by
  have hcomplete : Tx.Keeps R (content.finalize_generation g length) :=
    execute (fun db db' h => by cases h; exact hR.complete db)
  refine hR.bind hR.query (fun found => ?_)
  cases found with
  | none =>
    cases path.parent with
    | none => exact hR.pure
    | some parent_path =>
      refine hR.bind hR.query (fun parent => ?_)
      cases parent with
      | none => exact hR.pure
      | some parent =>
        simp only
        split
        · exact hR.pure
        · split
          · exact hR.pure
          · refine hR.bind hR.draw
              (fun id => hR.bind hR.draw
              (fun now => hR.bind hR.expect (fun name => hR.bind (execute ?_) (fun _ =>
              hR.bind hcomplete (fun _ => hR.bind hR.change_append (fun _ => hR.pure))))))
            intro db db' h
            obtain ⟨nodes, _, rfl⟩ := Db.insert_node_ok h
            exact hR.nodes db nodes
  | some existing =>
    simp only
    split
    · exact hR.pure
    · split
      · exact hR.pure
      · refine hR.bind hR.draw (fun now => hR.bind (execute ?_)
          (fun _ => hR.bind hcomplete (fun _ => hR.bind hR.change_append (fun _ => ?_))))
        · intro db db' h
          rw [Db.update_node_ok h]
          exact hR.nodes db _
        · cases existing.content_generation_id with
          | none => exact hR.pure
          | some old =>
            simp only
            split
            · refine hR.bind (execute (fun db db' h => ?_)) (fun _ => hR.pure)
              rw [Db.drop_of_remove_generation h]
              exact hR.drop db old
            · exact hR.pure

end KeptByCommit

end fslite
