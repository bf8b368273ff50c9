import Fslite.Sqlite.Statement

namespace fslite.workspace

structure WorkspaceOptions where
  max_bytes : Nat := 10 * 1024 * 1024 * 1024
  max_nodes : Nat := 1000000
  max_file_bytes : Nat := 1024 * 1024 * 1024

structure Workspace where
  id : WorkspaceId
  created_at_ms : Int
  updated_at_ms : Int
  max_bytes : Nat
  max_nodes : Nat
  max_file_bytes : Nat
  deriving DecidableEq

/-- The row of a workspace's root directory. -/
def rootRow (id : NodeId) (ws : WorkspaceId) (now : Int) : NodeRow where
  id := id
  workspace_id := ws
  parent_id := none
  name := []
  kind := .Directory
  size := 0
  revision := 1
  created_at_ms := now
  modified_at_ms := now
  accessed_at_ms := now
  content_generation_id := none
  symlink_target := none
  trashed_at_ms := none

def create_workspace (rt : Runtime) (options : WorkspaceOptions) : Tx Workspace := do
  let workspace_id ← Tx.new_id rt
  let root_id ← Tx.new_id rt
  let now ← Tx.now_ms rt
  Tx.execute (Db.insert_workspace {
    id := workspace_id, created_at_ms := now, updated_at_ms := now, change_seq := 0,
    max_bytes := options.max_bytes, max_nodes := options.max_nodes, max_file_bytes :=
      options.max_file_bytes })
  Tx.execute (Db.insert_node (rootRow root_id workspace_id now))
  return {
    id := workspace_id, created_at_ms := now, updated_at_ms := now,
    max_bytes := options.max_bytes, max_nodes := options.max_nodes, max_file_bytes :=
      options.max_file_bytes }

def delete_workspace (ws : WorkspaceId) : Tx Unit := Tx.execute (Db.delete_workspace_row ws)

/-- Returns whether the workspace exists; if so it is empty afterwards. -/
def reset_workspace (rt : Runtime) (ws : WorkspaceId) : Tx Bool := do
  let exists_ ← Tx.query (fun db => db.workspaces.contains ws)
  if exists_ then do
    Tx.execute (fun db => .ok (db.delete_nodes_of ws))
    Tx.execute (Db.remove_generations_of ws)
    Tx.execute (fun db => .ok (db.remove_changes_of ws))
    let root_id ← Tx.new_id rt
    let now ← Tx.now_ms rt
    Tx.execute (Db.insert_node (rootRow root_id ws now))
    Tx.execute (fun db => .ok (db.reset_sequence ws now))
    return true
  else return false

/-- The columns of a workspace's usage as queries return them. -/
structure RawUsage where
  active_logical_bytes : Nat
  trashed_logical_bytes : Nat
  staged_bytes : Nat
  active_nodes : Nat
  trashed_nodes : Nat
  max_bytes : Nat
  max_nodes : Nat
  max_file_bytes : Nat
  deriving DecidableEq

/-- Logical and quota usage for one workspace. -/
structure WorkspaceUsage where
  workspace_id : WorkspaceId
  active_logical_bytes : Nat
  trashed_logical_bytes : Nat
  staged_bytes : Nat
  active_nodes : Nat
  trashed_nodes : Nat
  max_logical_bytes : Nat
  max_nodes : Nat
  max_file_bytes : Nat
  deriving DecidableEq

def RawUsage.into_usage (raw : RawUsage) (ws : WorkspaceId) : WorkspaceUsage where
  workspace_id := ws
  active_logical_bytes := raw.active_logical_bytes
  trashed_logical_bytes := raw.trashed_logical_bytes
  staged_bytes := raw.staged_bytes
  active_nodes := raw.active_nodes
  trashed_nodes := raw.trashed_nodes
  max_logical_bytes := raw.max_bytes
  max_nodes := raw.max_nodes
  max_file_bytes := raw.max_file_bytes

/-- `SUM(size)` of the given nodes. -/
def total_size (nodes : List NodeRow) : Nat := (nodes.map (fun n => n.size)).sum

def fetch_usage (db : Db) (ws : WorkspaceId) : Option RawUsage :=
  match db.workspace? ws with
  | none => none
  | some row =>
    let active := db.nodes.rows.filter (fun n => n.workspace_id = ws ∧ n.trashed_at_ms = none)
    let trashed := db.nodes.rows.filter (fun n => n.workspace_id = ws ∧ n.trashed_at_ms ≠ none)
    let staged := db.content_generations.rows.filter
      (fun g => g.workspace_id = ws ∧ g.complete = false)
    some {
      active_logical_bytes := total_size active
      trashed_logical_bytes := total_size trashed
      staged_bytes := (staged.map GenerationRow.length).sum
      active_nodes := active.length
      trashed_nodes := trashed.length
      max_bytes := row.max_bytes
      max_nodes := row.max_nodes
      max_file_bytes := row.max_file_bytes }

end fslite.workspace
