import Fslite.Sqlite.Run.Discard
import Fslite.Sqlite.Run.Termination
import Fslite.Sqlite.Run.Unknotted

namespace fslite

open resolve

/-- A transaction body that returns. -/
def Tx.Returns {A : Type} (x : Tx A) (w : World) : Prop := ∃ r, x w = .ok r

namespace Tx.Returns

variable {A B : Type} {w w₁ : World} {a : A} {x : Tx A} {f : A → Tx B}

theorem bind (hx : x w = .ok (a, w₁)) (hf : (f a).Returns w₁) : (x >>= f).Returns w := by
  obtain ⟨r, hr⟩ := hf
  exact ⟨r, (Tx.bind_of_ok hx).trans hr⟩

theorem execute {g : Db → Except Fault Db} {next : Unit → Tx B} {db : Db} (hg : g w.db = .ok db)
    (hf : (next ()).Returns { w with db }) : (Tx.execute g >>= next).Returns w :=
  bind (Tx.execute_eq_ok.mpr ⟨db, hg, rfl⟩) hf

end Tx.Returns

variable {rt : Runtime} {ws : WorkspaceId} {w : World} {before db : Db} {actor_json : Text}

/-- A change can be appended as long as nothing has been appended before. -/
theorem WellFormed.append_total (hwf : WellFormed before)
    (hworkspaces : w.db.workspaces = before.workspaces) (hchanges : w.db.changes = before.changes)
    (hrow : ∃ row, before.workspace? ws = some row) (kind : ChangeKind) (node_id : Option NodeId)
    (old_path new_path : Option Text) (revision : Option Nat) (now : Int) :
    ∃ w', change.append ws kind node_id old_path new_path revision actor_json now w = .ok ((), w') ∧
      w'.db.nodes = w.db.nodes := by
  obtain ⟨row, hrow⟩ := hrow
  obtain ⟨w', happend⟩ := @change.append_total ws w actor_json row
    (by rw [Db.workspace?, hworkspaces]; exact hrow) (by rw [hchanges]; exact hwf.next_change hrow)
    kind node_id old_path new_path revision now
  exact ⟨w', happend, (change.append_ok happend).2.appended.nodes⟩

section operations

variable {path : VirtualPath}

/-- The store is well formed after the overwriting, and its name is free. -/
theorem mutate.Destined.overwritten {overwrite : Bool} {target : VirtualPath} {parent : RawNode}
    {name : Text} {existing : Option RawNode} (hwf : WellFormed w.db)
    (h : Destined w.db ws target overwrite parent name existing) :
    WellFormed (w.db.overwritten existing) ∧ (w.db.overwritten existing).workspaces = w.db.workspaces ∧
      (w.db.overwritten existing).changes = w.db.changes := by
  have hedits : Edits Policy.any (fun _ => False) (fun _ => False) w.db (w.db.overwritten existing) :=
    h.edits (fun _ _ => trivial)
  refine ⟨hedits.wellFormed (fun _ h => h) hwf, Db.overwritten_workspaces _ _, ?_⟩
  cases existing <;> rfl

end operations

end fslite
