import Fslite.Sqlite.Statement
import Mathlib.Data.List.Sort

namespace fslite.change

/-- Bumps the workspace's change sequence and appends one change row. -/
def append (ws : WorkspaceId) (kind : ChangeKind) (node_id : Option NodeId)
    (old_path new_path : Option Text) (revision : Option Nat) (actor_json : Text) (now_ms : Int) :
    Tx Unit := do
  Tx.execute (fun db => .ok (db.bump_sequence ws now_ms))
  match ← Tx.query (fun db => db.workspace? ws) with
  | none => Tx.fail .QueryReturnedNoRows
  | some row =>
    Tx.execute (Db.insert_change {
      workspace_id := ws, sequence := row.change_seq, kind, node_id, old_path, new_path, revision,
      created_at_ms := now_ms, actor_json })

/-- The columns of a change row that a page returns. -/
structure RawChange where
  sequence : Nat
  kind : ChangeKind
  node_id : Option NodeId
  old_path : Option Text
  new_path : Option Text
  revision : Option Nat
  created_at_ms : Int
  actor_json : Text
  deriving DecidableEq

def raw_change (row : ChangeRow) : RawChange :=
  ⟨row.sequence, row.kind, row.node_id, row.old_path, row.new_path, row.revision, row.created_at_ms,
    row.actor_json⟩

/-- The workspace's change rows after the given sequence, in order. -/
def changes_after (db : Db) (ws : WorkspaceId) (after_sequence : Int) : List ChangeRow :=
  (db.changes.rows.filter (fun c => c.workspace_id = ws ∧
    after_sequence < c.sequence)).insertionSort
    (fun a b => a.sequence ≤ b.sequence)

def fetch_changes_page (db : Db) (ws : WorkspaceId) (after_sequence : Int) (limit : Nat) :
    List RawChange :=
  ((changes_after db ws after_sequence).take limit).map raw_change

end fslite.change
