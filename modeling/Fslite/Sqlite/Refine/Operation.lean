import Fslite.Sqlite.Refine.Attribute
import Fslite.Sqlite.Refine.Copy
import Fslite.Sqlite.Refine.Trash
import Fslite.Sqlite.Run.Failure
import Fslite.Sqlite.Run.Ledger
import Fslite.Sqlite.Run.Views

namespace fslite

open mutate

variable {rt : Runtime} {ws : WorkspaceId} {ctx : RequestContext} {w w' : World} {actor_json : Text}

theorem transact_refines {operation : BatchOperation} {outcome : Outcome operation}
    (hw : Standing rt w) (h : transact rt ws actor_json operation w = .ok (outcome, w')) :
    Refines operation outcome (w.db.volume ws) (w'.db.volume ws) := by
  cases operation with
  | Mkdir => exact mkdir_refines hw h
  | Touch => exact touch_refines hw h
  | Copy => exact copy_refines hw h
  | Move => exact move_refines hw h
  | Remove => exact remove_refines hw h
  | Symlink => exact symlink_refines hw h
  | Trash => exact trash.trash_refines hw h
  | Restore => exact trash.restore_refines hw h
  | Purge => exact trash.purge_refines hw h
  | SetAttribute => exact set_attribute_refines hw h
  | RemoveAttribute => exact remove_attribute_refines hw h

/-- A node that is returned to a client tells the entry. -/
structure Entry.Presents (e : Entry) (node : Node) : Prop where
  id : node.id = e.id
  kind : node.kind = e.kind
  logical_size : node.logical_size = e.size
  revision : node.revision.get = e.revision
  created_at_ms : node.created_at_ms = e.created_at_ms
  modified_at_ms : node.modified_at_ms = e.modified_at_ms
  accessed_at_ms : node.accessed_at_ms = e.accessed_at_ms

/-- The node that a client is told of. -/
def BatchResult.told : BatchResult → Option fslite.Node
  | .Node node => some node
  | .Trash entry => some entry.node
  | .Unit => none

/-- What an operation does to a volume when its result tells the client of success. -/
def Volume.Serves (operation : BatchOperation) (v v' : Volume) (result : BatchResult) : Prop :=
  ∃ reported, v.Performs operation v' reported ∧ Option.Rel Entry.Presents reported result.told

theorem Entry.Describes.presents {e : Entry} {row : RawNode} {node : Node} (h : e.Describes row)
    (hnode : row.into_node = .ok node) : e.Presents node := by
  unfold RawNode.into_node Revision.new at hnode
  split at hnode
  · cases hnode
  · rename_i revision hrevision
    split at hrevision
    · cases hrevision
      cases hnode
      exact ⟨h.id, h.kind, h.size, h.revision, h.created_at_ms, h.modified_at_ms, h.accessed_at_ms⟩
    · cases hrevision

namespace Refines

variable {operation : BatchOperation} {outcome : Outcome operation} {v v' : Volume}
  {result : BatchResult}

/-- An operation that tells of a row serves a node that is made of it. -/
theorem serves (h : Refines operation outcome v v') {row : RawNode}
    (hsucceeds : operation.Succeeds outcome) (htells : operation.Tells outcome row) {node : Node}
    (hnode : row.into_node = .ok node) (attributes : Attributes)
    (hresult : result.told = some { node with attributes }) : v.Serves operation v' result := by
  obtain ⟨reported, hperforms, hreports⟩ := h.performed hsucceeds
  obtain ⟨e, rfl, hdescribes⟩ := hreports row htells
  obtain ⟨hid, hkind, hsize, hrevision, hcreated, hmodified, haccessed⟩ := hdescribes.presents hnode
  refine ⟨_, hperforms, ?_⟩
  rw [hresult]
  exact .some ⟨hid, hkind, hsize, hrevision, hcreated, hmodified, haccessed⟩

end Refines

namespace Volume.Performs

variable {v v' : Volume} {reported : Option Entry}

theorem of_remove {path : VirtualPath} {options : RemoveOptions}
    (h : v.Performs (.Remove path options) v' reported) : reported = none := by
  cases h
  rfl

theorem of_purge {trash_id : TrashId} (h : v.Performs (.Purge trash_id) v' reported) :
    reported = none := by
  cases h
  rfl

end Volume.Performs

namespace mutate

/-- An operation of a batch that has a result has run its transaction. -/
theorem ran {A B : Type} {m : Tx A} {f : A → FsResult B} {wrap : B → BatchResult}
    {result : BatchResult}
    (h : (m >>= fun outcome => pure (to_step (f outcome) wrap)) w = .ok (.Result result, w')) :
    ∃ outcome b, m w = .ok (outcome, w') ∧ f outcome = .ok b ∧ result = wrap b := by
  obtain ⟨outcome, w₁, hrun, h⟩ := Tx.bind_eq_ok.mp h
  obtain ⟨hstep, rfl⟩ := Tx.pure_eq_ok.mp h
  obtain ⟨b, hb, rfl⟩ := to_step_eq_result hstep
  exact ⟨outcome, b, hrun, hb, rfl⟩

theorem attribute_result_updated {outcome : AttributeOutcome} {path : VirtualPath} {node : Node}
    (h : attribute_result outcome path = .ok node) : ∃ row attributes shown,
      outcome = .Updated row attributes ∧ row.into_node = .ok shown ∧
        node = { shown with attributes } := by
  cases outcome with
  | Updated row attributes =>
    simp only [attribute_result] at h
    split at h
    · rename_i shown hshown
      cases h
      exact ⟨row, attributes, shown, rfl, hshown, rfl⟩
    · cases h
  | _ => cases h

/-- An operation that reports a success in a batch has done to the volume what it should. -/
theorem execute_batch_operation_serves {operation : BatchOperation} {result : BatchResult}
    (hw : Standing rt w)
    (h : execute_batch_operation rt ws operation actor_json w = .ok (.Result result, w')) :
    (w.db.volume ws).Serves operation (w'.db.volume ws) result := by
  cases operation with
  | Mkdir path options =>
    simp only [execute_batch_operation] at h
    split at h
    · obtain ⟨heq, _⟩ := Tx.pure_eq_ok.mp h
      cases heq
    · obtain ⟨outcome, node, hrun, hnode, rfl⟩ := ran h
      have hrefines := mkdir_refines hw hrun
      cases outcome with
      | Created row => exact hrefines.serves ⟨row, .inl rfl⟩ (.inl rfl) hnode _ rfl
      | Existing row => exact hrefines.serves ⟨row, .inr rfl⟩ (.inr rfl) hnode _ rfl
      | _ => cases hnode
  | Symlink target link options =>
    simp only [execute_batch_operation] at h
    split at h
    · obtain ⟨heq, _⟩ := Tx.pure_eq_ok.mp h
      cases heq
    · obtain ⟨outcome, node, hrun, hnode, rfl⟩ := ran h
      have hrefines := symlink_refines hw hrun
      cases outcome with
      | Created row => exact hrefines.serves ⟨row, .inl rfl⟩ (.inl rfl) hnode _ rfl
      | Existing row => exact hrefines.serves ⟨row, .inr rfl⟩ (.inr rfl) hnode _ rfl
      | _ => cases hnode
  | Touch path options =>
    obtain ⟨outcome, node, hrun, hnode, rfl⟩ := ran h
    have hrefines := touch_refines hw hrun
    cases outcome with
    | Touched row => exact hrefines.serves ⟨row, .inl rfl⟩ (.inl rfl) hnode _ rfl
    | Created row => exact hrefines.serves ⟨row, .inr rfl⟩ (.inr rfl) hnode _ rfl
    | _ => cases hnode
  | Copy source target options =>
    obtain ⟨outcome, node, hrun, hnode, rfl⟩ := ran h
    cases outcome with
    | Created row => exact (copy_refines hw hrun).serves ⟨row, rfl⟩ rfl hnode _ rfl
    | _ => cases hnode
  | Move source target options =>
    obtain ⟨outcome, node, hrun, hnode, rfl⟩ := ran h
    cases outcome with
    | Moved row => exact (move_refines hw hrun).serves ⟨row, rfl⟩ rfl hnode _ rfl
    | _ => cases hnode
  | Trash path options =>
    obtain ⟨outcome, entry, hrun, hentry, rfl⟩ := ran h
    cases outcome with
    | Trashed trash_id row deleted_at_ms =>
      simp only [trash.trash_result] at hentry
      split at hentry
      · rename_i node hnode
        cases hentry
        exact (trash.trash_refines hw hrun).serves ⟨row, _, _, rfl⟩ ⟨_, _, rfl⟩ hnode _ rfl
      · cases hentry
    | _ => cases hentry
  | Restore trash_id destination options =>
    obtain ⟨outcome, node, hrun, hnode, rfl⟩ := ran h
    cases outcome with
    | Restored row => exact (trash.restore_refines hw hrun).serves ⟨row, rfl⟩ rfl hnode _ rfl
    | _ => cases hnode
  | SetAttribute path key value options =>
    obtain ⟨outcome, node, hrun, hnode, rfl⟩ := ran h
    obtain ⟨row, attributes, shown, rfl, hshown, rfl⟩ := attribute_result_updated hnode
    exact (set_attribute_refines hw hrun).serves ⟨row, _, rfl⟩ ⟨_, rfl⟩ hshown _ rfl
  | RemoveAttribute path key options =>
    obtain ⟨outcome, node, hrun, hnode, rfl⟩ := ran h
    obtain ⟨row, attributes, shown, rfl, hshown, rfl⟩ := attribute_result_updated hnode
    exact (remove_attribute_refines hw hrun).serves ⟨row, _, rfl⟩ ⟨_, rfl⟩ hshown _ rfl
  | Remove path options =>
    obtain ⟨outcome, _, hrun, hdone, rfl⟩ := ran h
    cases outcome with
    | Removed =>
      obtain ⟨reported, hperforms, _⟩ := (remove_refines hw hrun).performed rfl
      obtain rfl := hperforms.of_remove
      exact ⟨none, hperforms, .none⟩
    | _ => cases hdone
  | Purge trash_id =>
    obtain ⟨outcome, _, hrun, hdone, rfl⟩ := ran h
    cases outcome with
    | Purged =>
      obtain ⟨reported, hperforms, _⟩ := (trash.purge_refines hw hrun).performed rfl
      obtain rfl := hperforms.of_purge
      exact ⟨none, hperforms, .none⟩
    | _ => cases hdone

/-- An operation that fails in a batch leaves the volume alone. -/
theorem execute_batch_operation_spares {operation : BatchOperation} {err : FsError}
    (hw : Standing rt w)
    (h : execute_batch_operation rt ws operation actor_json w = .ok (.Failed err, w')) :
    w'.db.volume ws = w.db.volume ws := by
  obtain rfl | hstrands := execute_batch_operation_failed hw.sound.wf h
  · rfl
  · cases operation with
    | Touch path options =>
      obtain ⟨outcome, w₁, htouch, h⟩ := Tx.bind_eq_ok.mp h
      obtain ⟨_, rfl⟩ := Tx.pure_eq_ok.mp h
      have hrefines := touch_refines hw htouch
      refine hrefines.failed (fun hsucceeds => ?_)
      obtain ⟨_, _, habsent, hplace⟩ := hstrands
      obtain ⟨reported, hperforms, _⟩ := hrefines.performed hsucceeds
      generalize w₁.db.volume ws = v' at hperforms
      cases hperforms with
      | touch hfound =>
        obtain ⟨raw, hraw, _⟩ := Db.lookup_file_tree_eq_some.mp hfound
        rw [habsent] at hraw
        cases hraw
      | @touch_new _ _ _ place name directory _ _ _ _ hsplit hdirectory hdir =>
        -- the file would have had a place in a directory
        have hnamed : path.name = some name := by
          rw [VirtualPath.name_eq, hsplit, List.getLast?_concat]
        obtain ⟨up, hup, hsegments⟩ := VirtualPath.parent_of_name hnamed
        obtain rfl := (List.append_inj' (hsplit.symm.trans hsegments) rfl).1
        obtain ⟨raw, hraw, rfl⟩ := Db.lookup_file_tree_eq_some.mp hdirectory
        exact hplace ⟨habsent, up, raw, hup, hraw, hdir⟩
    | _ => exact hstrands.elim

end mutate

theorem Standing.next {operation : BatchOperation} {step : BatchStepOutcome} (hw : Standing rt w)
    (h : execute_batch_operation rt ws operation actor_json w = .ok (step, w')) :
    Standing rt w' := by
  obtain rfl | ⟨outcome, hrun⟩ := execute_batch_operation_ok h
  · exact hw
  · exact hw.of_effect (hw.effect operation hrun) (transact_linked hw.sound.wf hw.linked hrun)

theorem Ongoing.standing (h : Ongoing rt w) : Standing rt w := by
  induction h with
  | start h =>
    obtain ⟨c, hreached, rfl⟩ := h
    exact ⟨(Reachable.sound ⟨c, hreached, rfl⟩), hreached.linked⟩
  | next _ hstep ih => exact ih.next hstep

/-- A single operation returns the result of its step, or an error, either without any effect or
from a step that has failed. -/
theorem SqliteFileSystem.perform_cases {operation : BatchOperation} {answer : FsResult BatchResult}
    (h : (perform rt ctx operation).run.run (DbCall.exec rt) w = (answer, w')) :
    (∃ result, answer = .ok result ∧ execute_batch_operation rt ctx.workspace_id operation
      (fslite.actor_json rt ctx) w = .ok (.Result result, w')) ∨
    ∃ err, answer = .error err ∧ (w' = w ∨ execute_batch_operation rt ctx.workspace_id operation
      (fslite.actor_json rt ctx) w = .ok (.Failed err, w')) := by
  rw [perform_run] at h
  split at h
  · generalize execute_batch_operation rt ctx.workspace_id operation (fslite.actor_json rt ctx) w =
      executed at h ⊢
    obtain fault | ⟨result | err, w₁⟩ := executed
    · obtain ⟨rfl, rfl⟩ := Prod.mk.inj h
      exact Or.inr ⟨_, rfl, Or.inl rfl⟩
    · obtain ⟨rfl, rfl⟩ := Prod.mk.inj h
      exact Or.inl ⟨result, rfl, rfl⟩
    · obtain ⟨rfl, rfl⟩ := Prod.mk.inj h
      exact Or.inr ⟨err, rfl, Or.inr rfl⟩
  · obtain ⟨rfl, rfl⟩ := Prod.mk.inj h
    exact Or.inr ⟨_, rfl, Or.inl rfl⟩

/-- An operation that is performed on its own, on what any run or any part of a batch has left, does
to the volume what it should and returns the node of the entry; if it returns an error, the volume
stays as it is. -/
theorem SqliteFileSystem.perform_serves {operation : BatchOperation} {answer : FsResult BatchResult}
    (h : Ongoing rt w)
    (hrun : (perform rt ctx operation).run.run (DbCall.exec rt) w = (answer, w')) :
    (∀ result, answer = .ok result → (w.db.volume ctx.workspace_id).Serves operation
      (w'.db.volume ctx.workspace_id) result) ∧
    ∀ err, answer = .error err → w'.db.volume ctx.workspace_id = w.db.volume ctx.workspace_id := by
  obtain ⟨result, rfl, hstep⟩ | ⟨err, rfl, rfl | hstep⟩ := perform_cases hrun
  · refine ⟨fun _ heq => ?_, fun _ heq => ?_⟩
    · cases heq
      exact execute_batch_operation_serves h.standing hstep
    · cases heq
  · refine ⟨fun _ heq => ?_, fun _ _ => rfl⟩
    cases heq
  · refine ⟨fun _ heq => ?_, fun _ _ => execute_batch_operation_spares h.standing hstep⟩
    cases heq

/-- The directory of a file goes to the trash. -/
def trashDirectory : BatchOperation := .Trash (.named [['a']]) {}

theorem nested_trashed : ∃ result w', (SqliteFileSystem.perform Runtime.counting (.trusted 0)
    trashDirectory).run.run (DbCall.exec Runtime.counting) nestedFileWorld = (.ok result, w') ∧
      (nestedFileWorld.db.volume 0).Serves trashDirectory (w'.db.volume 0) result := by
  have hreachable : Reachable Runtime.counting nestedFileWorld := (Reachable.empty _).serveAll _
  have hok : ((SqliteFileSystem.perform Runtime.counting (.trusted 0) trashDirectory).run.run
      (DbCall.exec Runtime.counting) nestedFileWorld).1.isOk = true := by decide +kernel
  generalize hrun : (SqliteFileSystem.perform Runtime.counting (.trusted 0) trashDirectory).run.run
    (DbCall.exec Runtime.counting) nestedFileWorld = served at hok
  obtain ⟨err | result, w'⟩ := served
  · cases hok
  · exact ⟨result, w', rfl, (SqliteFileSystem.perform_serves (.start hreachable) hrun).1 result rfl⟩

/-- What operations do to a volume one after another, and their results. -/
inductive Volume.ServesAll : List BatchOperation → List BatchResult → Volume → Volume → Prop where
  | nil (v : Volume) : ServesAll [] [] v v
  | cons {v v₁ v' : Volume} {operation : BatchOperation} {result : BatchResult}
      {operations : List BatchOperation} {results : List BatchResult}
      (h : v.Serves operation v₁ result) (hrest : ServesAll operations results v₁ v') :
        ServesAll (operation :: operations) (result :: results) v v'

/-- The operations of a completed batch serve their results one after another. -/
theorem mutate.batch_loop_serves {index : Nat} {before results : List BatchResult}
    {operations : List BatchOperation} (hw : Standing rt w)
    (h : batch_loop rt ctx actor_json index before operations w = .ok (.Completed results, w')) :
    ∃ own, results = before ++ own ∧ Volume.ServesAll operations own (w.db.volume ctx.workspace_id)
      (w'.db.volume ctx.workspace_id) := by
  induction operations generalizing index before w with
  | nil =>
    obtain ⟨heq, rfl⟩ := Tx.pure_eq_ok.mp h
    cases heq
    exact ⟨[], by simp, .nil _⟩
  | cons operation rest ih =>
    unfold batch_loop at h
    split at h
    · obtain ⟨heq, _⟩ := Tx.pure_eq_ok.mp h
      cases heq
    · obtain ⟨step, w₁, hstep, h⟩ := Tx.bind_eq_ok.mp h
      cases step with
      | Result result =>
        obtain ⟨own, rfl, hrest⟩ := ih (hw.next hstep) h
        exact ⟨result :: own, by simp, .cons (execute_batch_operation_serves hw hstep) hrest⟩
      | Failed error =>
        obtain ⟨heq, _⟩ := Tx.pure_eq_ok.mp h
        cases heq

end fslite
