import Fslite.Sqlite.Effect.Operation

namespace fslite

open resolve mutate trash workspace

namespace Db

variable {db db' : Db} {ws : WorkspaceId}

/-- A subtree lies in one workspace. -/
theorem below_workspace (hwf : NodesWellFormed db) {a b : NodeId} (h : Below db.parent a b)
    {n m : NodeRow} (hn : n ∈ db.nodes) (hm : m ∈ db.nodes) (hna : n.id = a) (hmb : m.id = b) :
    n.workspace_id = m.workspace_id := by
  induction h using Below.head_induction generalizing n with
  | top => rw [db.node_ext hn hm (hna.trans hmb.symm)]
  | @step x y hxy _ ih =>
    subst hna
    rw [parent_of_mem hn] at hxy
    obtain ⟨p, hp, hid, hws, _⟩ := hwf.parent n hn y hxy
    exact hws.symm.trans (ih hp hid)

/-- Deleting a workspace's nodes deletes these nodes, their attributes and their
trash records only. -/
theorem delete_nodes_of_eq (hwf : WellFormed db) : db.delete_nodes_of ws = { db with
    nodes := (db.clear ws).nodes, attributes := (db.clear ws).attributes, trash :=
      (db.clear ws).trash } := by
  have hgone : ∀ n ∈ db.nodes,
    db.nodes.rows.any (fun m => m.workspace_id = ws ∧ db.cascades m.id n.id) =
      decide (n.workspace_id = ws) := by
    intro n hn
    rw [Bool.eq_iff_iff, List.any_eq_true, decide_eq_true_eq]
    constructor
    · rintro ⟨m, hm, hboth⟩
      rw [decide_eq_true_eq, cascades_iff] at hboth
      rw [below_workspace hwf.nodes hboth.2 hn hm rfl rfl, hboth.1]
    · exact fun hws => ⟨n, hn, by simpa [hws] using cascades_iff.mpr (Below.refl _ _)⟩
  simp only [delete_nodes_of, clear, Db.mk.injEq, true_and, and_true]
  refine ⟨?_, ?_, ?_⟩
  · exact Table.deleteWhere_congr hgone
  · refine Table.deleteWhere_congr (fun a ha => ?_)
    obtain ⟨n, hn, hid⟩ := hwf.attributes a ha
    rw [← hid, hgone n hn, node?_of_mem hn]
    rfl
  · refine Table.deleteWhere_congr (fun t ht => ?_)
    obtain ⟨n, hn, hid, hws, _⟩ := hwf.trash.record t ht
    rw [← hid, hgone n hn, hws]

theorem remove_generations_of_ok (h : db.remove_generations_of ws = .ok db') : db' = { db with
    content_generations := (db.clear ws).content_generations, content_chunks :=
      (db.clear ws).content_chunks } := by
  unfold remove_generations_of at h
  simp only at h
  split at h
  · cases h
  · cases h
    rfl

end Db

namespace workspace

variable {rt : Runtime} {P : Policy} {o : Option GenerationId} {ws : WorkspaceId} {w w' : World}

theorem create_workspace_ok {options : WorkspaceOptions} {result : Workspace}
    (h : create_workspace rt options w = .ok (result, w')) : ∃ row nodes workspaces,
      row.id = rt.newId w.tick ∧ row.change_seq = 0 ∧ row.max_bytes = options.max_bytes ∧
      row.max_nodes = options.max_nodes ∧ row.max_file_bytes = options.max_file_bytes ∧
      result.id = row.id ∧
      w.db.workspaces.insert row = some workspaces ∧
      w.db.nodes.insert (rootRow (rt.newId (w.tick + 1)) row.id (rt.nowMs (w.tick + 2))) =
        some nodes ∧
      w' = ⟨{ w.db with workspaces, nodes }, w.tick + 3⟩ := by
  simp only [create_workspace, Tx.new_id_bind, Tx.now_ms_bind, Tx.execute_bind_eq_ok] at h
  obtain ⟨db, hworkspace, db', hnode, h⟩ := h
  obtain ⟨rfl, rfl⟩ := Tx.pure_eq_ok.mp h
  unfold Db.insert_workspace at hworkspace
  split at hworkspace
  · rename_i workspaces hws
    cases hworkspace
    obtain ⟨nodes, hins, rfl⟩ := Db.insert_node_ok hnode
    exact ⟨_, nodes, workspaces, rfl, rfl, rfl, rfl, rfl, rfl, hws, hins, rfl⟩
  · cases hworkspace

theorem create_workspace_effect {options : WorkspaceOptions} {result : Workspace}
    (h : create_workspace rt options w = .ok (result, w')) : Effect rt P o w w' := by
  obtain ⟨row, nodes, workspaces, hid, hseq, _, _, _, _, hws, hins, rfl⟩ := create_workspace_ok h
  refine Effect.of_edit (Nat.le_add_right w.tick 3) (.enter _ _ ⟨w.tick + 1, Nat.le_succ _, ?_, rfl⟩
    ⟨w.tick, le_refl _, ?_, hid.symm⟩ hseq _ hws hins)
  · exact Nat.lt_succ_of_lt (Nat.lt_succ_self _)
  · exact Nat.lt_add_of_pos_right (Nat.succ_pos 2)

theorem reset_workspace_ok {result : Bool} (hwf : WellFormed w.db)
    (h : reset_workspace rt ws w = .ok (result, w')) :
    (w' = w ∧ result = false ∧ w.db.workspace? ws = none) ∨ ∃ row nodes, result = true ∧
    w.db.workspace? ws = some row ∧
      (w.db.clear ws).nodes.insert (rootRow (rt.newId w.tick) ws (rt.nowMs (w.tick + 1))) =
      some nodes ∧
      w' = ⟨{ (w.db.clear ws).reset_sequence ws (rt.nowMs (w.tick + 1)) with nodes },
        w.tick + 2⟩ := by
  simp only [reset_workspace, Tx.query_bind] at h
  split at h
  · rename_i hexists
    obtain ⟨row, hrow⟩ := Table.contains_iff.mp hexists
    simp only [Tx.new_id_bind, Tx.now_ms_bind, Tx.execute_bind_eq_ok, Except.ok.injEq,
      exists_eq_left',
      Db.delete_nodes_of_eq hwf] at h
    obtain ⟨db, hgenerations, db', hnode, h⟩ := h
    obtain ⟨rfl, rfl⟩ := Tx.pure_eq_ok.mp h
    obtain rfl := Db.remove_generations_of_ok hgenerations
    obtain ⟨nodes, hins, rfl⟩ := Db.insert_node_ok hnode
    exact Or.inr ⟨row, nodes, rfl, hrow, hins, rfl⟩
  · rename_i hexists
    obtain ⟨rfl, rfl⟩ := Tx.pure_eq_ok.mp h
    exact Or.inl ⟨rfl, rfl, by simpa [Table.contains, Db.workspace?] using hexists⟩

theorem reset_workspace_effect {result : Bool} (hwf : WellFormed w.db) (hpolicy : P.clear w.db ws)
    (h : reset_workspace rt ws w = .ok (result, w')) : Effect rt P o w w' := by
  obtain ⟨rfl, _⟩ | ⟨row, nodes, _, hrow, hins, rfl⟩ := reset_workspace_ok hwf h
  · exact Effect.refl _ _ _ _
  · exact Effect.of_edit (Nat.le_add_right w.tick 2) (.reset ws row hrow hpolicy _
      ⟨w.tick, le_refl _, Nat.lt_succ_of_lt (Nat.lt_succ_self _), rfl⟩ _ hins)

theorem delete_workspace_ok {u : Unit} (hwf : WellFormed w.db)
    (h : delete_workspace ws w = .ok (u, w')) :
    w' = ⟨{ w.db.clear ws with workspaces := w.db.workspaces.deleteWhere (fun row => row.id = ws) },
      w.tick⟩ := by
  simp only [delete_workspace, Tx.execute_eq_ok] at h
  obtain ⟨db, hdelete, rfl⟩ := h
  unfold Db.delete_workspace_row at hdelete
  simp only [Db.delete_nodes_of_eq hwf] at hdelete
  cases hgenerations : Db.remove_generations_of ws { w.db with
      nodes := (w.db.clear ws).nodes, attributes := (w.db.clear ws).attributes
      trash := (w.db.clear ws).trash.deleteWhere (fun t => t.workspace_id = ws) } with
  | error fault =>
    rw [hgenerations] at hdelete
    cases hdelete
  | ok generations =>
    rw [hgenerations] at hdelete
    cases hdelete
    obtain rfl := Db.remove_generations_of_ok hgenerations
    have htrash : (w.db.clear ws).trash.deleteWhere
      (fun t => t.workspace_id = ws) = (w.db.clear ws).trash :=
      Table.deleteWhere_eq_self (fun t ht => (Table.mem_deleteWhere.mp ht).2)
    rw [htrash]
    rfl

theorem delete_workspace_effect {u : Unit} (hwf : WellFormed w.db) (hpolicy : P.clear w.db ws)
    (h : delete_workspace ws w = .ok (u, w')) : Effect rt P o w w' := by
  rw [delete_workspace_ok hwf h]
  exact Effect.of_edit (le_refl _) (.erase ws hpolicy)

end workspace

namespace mutate

variable {rt : Runtime} {P : Policy} {o : Option GenerationId} {ws : WorkspaceId} {w w' : World}
  {actor_json : Text}

/-- An operation of a batch fails before its transaction, or does what the transaction does. -/
theorem execute_batch_operation_cases {operation : BatchOperation} {outcome : BatchStepOutcome}
    (h : execute_batch_operation rt ws operation actor_json w = .ok (outcome, w')) :
    (w' = w ∧ ∃ error, outcome = .Failed error) ∨ ∃ result,
    transact rt ws actor_json operation w = .ok (result, w') := by
  cases operation with
  | Mkdir path options =>
    simp only [execute_batch_operation] at h
    split at h
    · obtain ⟨rfl, rfl⟩ := Tx.pure_eq_ok.mp h
      exact Or.inl ⟨rfl, _, rfl⟩
    · obtain ⟨result, w₁, hresult, h⟩ := Tx.bind_eq_ok.mp h
      exact Or.inr ⟨result, (Tx.pure_eq_ok.mp h).2 ▸ hresult⟩
  | Symlink target link options =>
    simp only [execute_batch_operation] at h
    split at h
    · obtain ⟨rfl, rfl⟩ := Tx.pure_eq_ok.mp h
      exact Or.inl ⟨rfl, _, rfl⟩
    · obtain ⟨result, w₁, hresult, h⟩ := Tx.bind_eq_ok.mp h
      exact Or.inr ⟨result, (Tx.pure_eq_ok.mp h).2 ▸ hresult⟩
  | _ =>
    obtain ⟨result, w₁, hresult, h⟩ := Tx.bind_eq_ok.mp h
    exact Or.inr ⟨result, (Tx.pure_eq_ok.mp h).2 ▸ hresult⟩

theorem execute_batch_operation_ok {operation : BatchOperation} {outcome : BatchStepOutcome}
    (h : execute_batch_operation rt ws operation actor_json w = .ok (outcome, w')) :
    w' = w ∨ ∃ result, transact rt ws actor_json operation w = .ok (result, w') :=
  (execute_batch_operation_cases h).imp_left And.left

/-- An operation of a batch that has a result does what its transaction does. -/
theorem execute_batch_operation_result {operation : BatchOperation} {result : BatchResult}
    (h : execute_batch_operation rt ws operation actor_json w = .ok (.Result result, w')) :
    ∃ outcome, transact rt ws actor_json operation w = .ok (outcome, w') := by
  obtain ⟨_, _, habsurd⟩ | htransact := execute_batch_operation_cases h
  · cases habsurd
  · exact htransact

end mutate

/-- What a policy has to allow for a batch: each of its operations on what the
ones before it have left. -/
def Policy.PermitsAll (P : Policy) (rt : Runtime) (ws : WorkspaceId) (actor_json : Text) :
    List BatchOperation → World → Prop
  | [], _ => True
  | operation :: rest, w => P.Permits ws w.db operation ∧ ∀ result w',
      execute_batch_operation rt ws operation actor_json w = .ok (.Result result, w') →
        P.PermitsAll rt ws actor_json rest w'

theorem Policy.permitsAll_any {rt : Runtime} {ws : WorkspaceId} {actor_json : Text}
    (operations : List BatchOperation) (w : World) :
    Policy.any.PermitsAll rt ws actor_json operations w := by
  induction operations generalizing w with
  | nil => trivial
  | cons operation rest ih => exact ⟨Policy.permits_any ws w.db operation, fun _ w' _ => ih w'⟩

theorem mutate.batch_loop_effect {rt : Runtime} {P : Policy} {o : Option GenerationId}
    {ctx : RequestContext} {actor_json : Text} {index : Nat} {results : List BatchResult}
    {operations : List BatchOperation} {outcome : BatchOutcome} {w w' : World}
    (hwf : WellFormed w.db) (hlaid : P.laid → LaidOut w.db)
    (hpolicy : P.PermitsAll rt ctx.workspace_id actor_json operations w)
    (h : batch_loop rt ctx actor_json index results operations w = .ok (outcome, w')) :
    Effect rt P o w w' := by
  induction operations generalizing index results w with
  | nil =>
    obtain ⟨rfl, rfl⟩ := Tx.pure_eq_ok.mp h
    exact Effect.refl _ _ _ _
  | cons operation rest ih =>
    unfold batch_loop at h
    split at h
    · obtain ⟨rfl, rfl⟩ := Tx.pure_eq_ok.mp h
      exact Effect.refl _ _ _ _
    · obtain ⟨step, w₁, hstep, h⟩ := Tx.bind_eq_ok.mp h
      have heffect : Effect rt P o w w₁ := by
        obtain rfl | ⟨result, hresult⟩ := execute_batch_operation_ok hstep
        · exact Effect.refl _ _ _ _
        · exact transact_effect hwf hlaid hpolicy.1 hresult
      cases step with
      | Result result =>
        exact heffect.trans (ih (heffect.wellFormed hwf)
          (fun hP => heffect.laidOut hwf hP (hlaid hP))
          (hpolicy.2 result w₁ hstep) h)
      | Failed error =>
        obtain ⟨rfl, rfl⟩ := Tx.pure_eq_ok.mp h
        exact heffect

/-- A batch that is completed had the capability for each of its operations. -/
theorem mutate.batch_loop_completed {rt : Runtime} {ctx : RequestContext} {actor_json : Text}
    {index : Nat} {results results' : List BatchResult} {operations : List BatchOperation}
    {w w' : World} (h : batch_loop rt ctx actor_json index results operations w = .ok
    (.Completed results', w')) :
    ∀ operation ∈ operations, ctx.has_capability (required_capability operation) = true := by
  induction operations generalizing index results w with
  | nil => exact fun operation hmem => by cases hmem
  | cons first rest ih =>
    unfold batch_loop at h
    split at h
    · obtain ⟨heq, _⟩ := Tx.pure_eq_ok.mp h
      cases heq
    · rename_i hcapable
      obtain ⟨step, w₁, _, h⟩ := Tx.bind_eq_ok.mp h
      cases step with
      | Result result =>
        intro operation hmem
        obtain rfl | hmem := List.mem_cons.mp hmem
        · simpa using hcapable
        · exact ih h operation hmem
      | Failed error =>
        obtain ⟨heq, _⟩ := Tx.pure_eq_ok.mp h
        cases heq

/-- What a batch carries out: each operation on what the ones before it have left. -/
def BatchPerforms (rt : Runtime) (ws : WorkspaceId) (actor_json : Text) (db : Db)
    (operation : BatchOperation) :
    List BatchOperation → World → Prop
  | [], _ => False
  | first :: rest, w => (db = w.db ∧ operation = first) ∨ ∃ result w',
      execute_batch_operation rt ws first actor_json w = .ok (.Result result, w') ∧
        BatchPerforms rt ws actor_json db operation rest w'

theorem BatchPerforms.mem {rt : Runtime} {ws : WorkspaceId} {actor_json : Text} {db : Db}
    {operation : BatchOperation} {operations : List BatchOperation} {w : World}
    (h : BatchPerforms rt ws actor_json db operation operations w) :
    operation ∈ operations := by
  induction operations generalizing w with
  | nil => exact h.elim
  | cons first rest ih =>
    obtain ⟨_, rfl⟩ | ⟨_, w', _, hrest⟩ := h
    · exact List.mem_cons_self
    · exact List.mem_cons_of_mem _ (ih hrest)

/-- The operations that a call carries out, each with the store it finds. -/
def DbCall.Performs (rt : Runtime) (w : World) (ws : WorkspaceId) (db : Db)
    (operation : BatchOperation) : DbCall → Prop
  | .transaction ws' operation' _ => ws = ws' ∧ db = w.db ∧ operation = operation'
  | .batch ctx operations actor_json =>
    ws = ctx.workspace_id ∧ BatchPerforms rt ctx.workspace_id actor_json db operation operations w
  | _ => False

theorem Policy.permitsAll_of_performs {P : Policy} {rt : Runtime} {ws : WorkspaceId}
    {actor_json : Text} {operations : List BatchOperation} {w : World}
    (h : ∀ db operation, BatchPerforms rt ws actor_json db operation operations w →
    P.Permits ws db operation) :
    P.PermitsAll rt ws actor_json operations w := by
  induction operations generalizing w with
  | nil => trivial
  | cons first rest ih =>
    exact ⟨h w.db first (Or.inl ⟨rfl, rfl⟩), fun result w' hfirst =>
      ih (fun db operation hrest => h db operation (Or.inr ⟨result, w', hfirst, hrest⟩))⟩

/-- What a policy has to allow for a call on the connection. -/
def Policy.Allows (P : Policy) (rt : Runtime) (w : World) : DbCall → Prop
  | .copy_chunk_range from_generation _ _ _ => P.laid → ∃ row,
    w.db.generation? from_generation = some row
  | .transaction ws operation _ => P.Permits ws w.db operation
  | .batch ctx operations actor_json =>
    (∀ operation ∈ operations, ctx.has_capability (required_capability operation) = true) →
      P.PermitsAll rt ctx.workspace_id actor_json operations w
  | .reset_workspace ws => P.clear w.db ws
  | .delete_workspace ws => P.clear w.db ws
  | _ => True

theorem Policy.allows_any (rt : Runtime) (w : World) (call : DbCall) :
    Policy.any.Allows rt w call := by
  cases call with
  | copy_chunk_range => exact fun hlaid => hlaid.elim
  | transaction ws operation => exact Policy.permits_any ws w.db operation
  | batch ctx operations => exact fun _ => Policy.permitsAll_any operations w
  | _ => trivial

/-- A policy that says nothing of workspaces and contents allows a call when it
permits the operations that the call carries out. -/
theorem Policy.allows_of_performs {P : Policy} {rt : Runtime} {w : World} {call : DbCall}
    (hlaid : ¬ P.laid) (hclear : ∀ db ws, P.clear db ws)
    (h : ∀ ws db operation, call.Performs rt w ws db operation → P.Permits ws db operation) :
    P.Allows rt w call := by
  cases call with
  | copy_chunk_range => exact fun hl => absurd hl hlaid
  | transaction ws operation actor_json => exact h ws w.db operation ⟨rfl, rfl, rfl⟩
  | batch ctx operations actor_json =>
    exact fun _ => Policy.permitsAll_of_performs
      (fun db operation hop => h ctx.workspace_id db operation ⟨rfl, hop⟩)
  | reset_workspace ws => exact hclear w.db ws
  | delete_workspace ws => exact hclear w.db ws
  | _ => trivial

namespace DbCall

/-- The staged generation that a call works on. -/
def staged : DbCall → Option GenerationId
  | .upsert_chunk g _ _ => some g
  | .copy_chunk_range _ g _ _ => some g
  | .delete_generation g => some g
  | .finalize _ _ g _ _ _ => some g
  | _ => none

/-- What a staging call needs of its generation. -/
def Grounded (P : Policy) (db : Db) : DbCall → Prop
  | .upsert_chunk g _ _ => Private db g
  | .copy_chunk_range _ g _ _ => Private db g
  | .delete_generation g => Private db g
  | .finalize ws _ g length _ _ => Staged P db ws g length
  | _ => True

variable {rt : Runtime} {P : Policy} {w w' : World}

theorem body_effect {call : DbCall} {answer : call.Answer} (hwf : WellFormed w.db)
    (hlaid : P.laid → LaidOut w.db) (hallows : P.Allows rt w call)
    (hgrounded : call.Grounded P w.db) (h : call.body rt w = .ok (answer, w'))
    (hcommits : call.commits answer = true) : Effect rt P call.staged w w' := by
  cases call with
  | resolve | resolve_following | fetch_max_file_bytes | fetch_usage | fetch_changes_page | fetch_chunk_bytes =>
    simp only [body, Tx.query_eq_ok] at h
    exact h.2 ▸ Effect.refl _ _ _ _
  | create_generation ws => exact content.create_generation_effect h
  | upsert_chunk g index bytes => exact content.upsert_chunk_effect hgrounded h
  | copy_chunk_range source g lower upper => exact content.copy_chunk_range_effect hgrounded h
  | delete_generation g => exact content.delete_generation_effect hgrounded h
  | finalize ws path g length params actor_json =>
    exact content.finalize_tx_effect h hwf rfl hgrounded
  | transaction ws operation actor_json => exact transact_effect hwf hlaid hallows h
  | batch ctx operations actor_json =>
    cases answer with
    | Completed results => exact batch_loop_effect hwf hlaid (hallows (batch_loop_completed h)) h
    | Failed index error => cases hcommits
  | create_workspace options => exact create_workspace_effect h
  | reset_workspace ws => exact reset_workspace_effect hwf hallows h
  | delete_workspace ws => exact delete_workspace_effect hwf hallows h

/-- A call that the policy allows changes the store by permitted changes. -/
theorem exec_effect {call : DbCall} (hwf : WellFormed w.db) (hlaid : P.laid → LaidOut w.db)
    (hallows : P.Allows rt w call) (hgrounded : call.Grounded P w.db) :
    Effect rt P call.staged w (call.exec rt w).2 := by
  unfold exec
  cases hbody : call.body rt w with
  | error fault => exact Effect.refl _ _ _ _
  | ok result =>
    obtain ⟨answer, w'⟩ := result
    simp only
    split
    · rename_i hcommits
      exact body_effect hwf hlaid hallows hgrounded hbody hcommits
    · exact Effect.refl _ _ _ _

end DbCall

/-- What every operation keeps, a batch keeps. -/
theorem mutate.batch_loop_keeps {rt : Runtime} {ctx : RequestContext} {actor_json : Text}
    {index : Nat} {results : List BatchResult} {operations : List BatchOperation}
    {outcome : BatchOutcome} {w w' : World} {I : Db → Prop} (hwf : WellFormed w.db) (hI : I w.db)
    (htransact : ∀ {operation : BatchOperation} {outcome : Outcome operation} {w w' : World},
      WellFormed w.db → I w.db →
        transact rt ctx.workspace_id actor_json operation w = .ok (outcome, w') → I w'.db)
    (h : batch_loop rt ctx actor_json index results operations w = .ok (outcome, w')) :
    I w'.db := by
  induction operations generalizing index results w with
  | nil =>
    obtain ⟨_, rfl⟩ := Tx.pure_eq_ok.mp h
    exact hI
  | cons operation rest ih =>
    unfold batch_loop at h
    split at h
    · obtain ⟨_, rfl⟩ := Tx.pure_eq_ok.mp h
      exact hI
    · obtain ⟨step, w₁, hstep, h⟩ := Tx.bind_eq_ok.mp h
      have hkept : WellFormed w₁.db ∧ I w₁.db := by
        obtain rfl | ⟨result, hresult⟩ := execute_batch_operation_ok hstep
        · exact ⟨hwf, hI⟩
        · have heffect : Effect rt Policy.any none w w₁ :=
            transact_effect hwf (fun hlaid => hlaid.elim) (Policy.permits_any _ _ _) hresult
          exact ⟨heffect.wellFormed hwf, htransact hwf hI hresult⟩
      cases step with
      | Result result => exact ih hkept.1 hkept.2 h
      | Failed error =>
        obtain ⟨_, rfl⟩ := Tx.pure_eq_ok.mp h
        exact hkept.2

/-- What does not depend on the contents, and what the operations, the commits of contents and
the calls on workspaces keep, every call keeps. -/
theorem DbCall.exec_keeps {rt : Runtime} {call : DbCall} {w : World} {I : Db → Prop}
    (hwf : WellFormed w.db) (hI : I w.db)
    (hcontents : ∀ content_generations content_chunks,
      I { w.db with content_generations, content_chunks })
    (htransact : ∀ {ws : WorkspaceId} {actor_json : Text} {operation : BatchOperation}
      {outcome : Outcome operation} {w w' : World}, WellFormed w.db → I w.db →
        transact rt ws actor_json operation w = .ok (outcome, w') → I w'.db)
    (hfinalize : ∀ {ws path g length params actor_json outcome w'},
      call = .finalize ws path g length params actor_json →
        content.finalize_tx rt ws path g length params actor_json w = .ok (outcome, w') → I w'.db)
    (hcreate : ∀ {options result w'},
      workspace.create_workspace rt options w = .ok (result, w') → I w'.db)
    (hreset : ∀ {ws result w'}, workspace.reset_workspace rt ws w = .ok (result, w') → I w'.db)
    (hdelete : ∀ {ws u w'}, workspace.delete_workspace ws w = .ok (u, w') → I w'.db) :
    I (call.exec rt w).2.db := by
  unfold DbCall.exec
  cases hbody : call.body rt w with
  | error fault => exact hI
  | ok result =>
    obtain ⟨answer, w'⟩ := result
    simp only
    split
    · cases call with
      | resolve | resolve_following | fetch_max_file_bytes | fetch_usage | fetch_changes_page | fetch_chunk_bytes =>
        simp only [body, Tx.query_eq_ok] at hbody
        exact hbody.2 ▸ hI
      | create_generation ws =>
        obtain ⟨_, _, _, rfl⟩ := content.create_generation_ok hbody
        exact hcontents _ _
      | upsert_chunk g index bytes =>
        obtain ⟨_, rfl⟩ := content.upsert_chunk_ok hbody
        exact hcontents _ _
      | copy_chunk_range source g lower upper =>
        simp only [body, content.copy_chunk_range, Tx.execute_eq_ok] at hbody
        obtain ⟨db, hcopy, rfl⟩ := hbody
        obtain ⟨_, chunks, _, rfl⟩ := content.insert_chunks_ok hcopy
        exact hcontents _ _
      | delete_generation g =>
        obtain rfl := content.delete_generation_ok hbody
        exact hcontents _ _
      | finalize ws path g length params actor_json => exact hfinalize rfl hbody
      | transaction ws operation actor_json => exact htransact hwf hI hbody
      | batch ctx operations actor_json => exact batch_loop_keeps hwf hI htransact hbody
      | create_workspace options => exact hcreate hbody
      | reset_workspace ws => exact hreset hbody
      | delete_workspace ws => exact hdelete hbody
    · exact hI

end fslite
