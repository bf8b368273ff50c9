import Fslite.Sqlite.Change
import Fslite.Sqlite.Resolve

namespace fslite

/-- Whether an expected revision is given and differs from the stored one. -/
def stale (expected : Option Revision) (revision : Nat) : Bool :=
  expected.any (fun e => revision ≠ e.get)

namespace directory

open resolve

inductive MkdirOutcome where
  | Created (row : RawNode)
  | Existing (row : RawNode)
  | AlreadyExists
  | WrongNodeType
  | ParentNotFound
  | RevisionConflict

def mkdir_result (outcome : MkdirOutcome) (path : VirtualPath) : FsResult Node :=
  match outcome with
  | .Created row => row.into_node
  | .Existing row => row.into_node
  | .AlreadyExists => .error (FsError.already_exists path.as_str)
  | .WrongNodeType => .error (FsError.wrong_node_type path.as_str)
  | .ParentNotFound => .error (FsError.not_found path.as_str)
  | .RevisionConflict => .error (FsError.revision_conflict path.as_str)

/-- The row of a directory that is created empty. -/
def directoryRow (id : NodeId) (ws : WorkspaceId) (parent_id : NodeId) (name : Text) (now : Int) :
    NodeRow where
  id := id
  workspace_id := ws
  parent_id := some parent_id
  name := name
  kind := .Directory
  size := 0
  revision := 1
  created_at_ms := now
  modified_at_ms := now
  accessed_at_ms := now
  content_generation_id := none
  symlink_target := none
  trashed_at_ms := none

def create_directory (rt : Runtime) (ws : WorkspaceId) (parent_id : NodeId) (name : Text)
    (full_path : VirtualPath) (actor_json : Text) : Tx RawNode := do
  let node_id ← Tx.new_id rt
  let now ← Tx.now_ms rt
  let row := directoryRow node_id ws parent_id name now
  Tx.execute (Db.insert_node row)
  change.append ws .Created (some node_id) none (some full_path.as_str) (some 1) actor_json now
  return row.toRawNode

/-- The loop of `mkdir_tx` over all segments but the last. -/
def mkdir_ancestors (rt : Runtime) (ws : WorkspaceId) (options : CreateOptions)
    (actor_json : Text) :
    List Text → RawNode → VirtualPath → Tx (Except MkdirOutcome (RawNode × VirtualPath))
  | [], current, current_path => pure (.ok (current, current_path))
  | segment :: rest, current, current_path =>
    if current.kind ≠ .Directory then pure (.error .WrongNodeType)
    else do
      match ← Tx.query (fun db => fetch_child db ws current.id segment) with
      | some child => do
        let joined ← Tx.expect (current_path.join segment).toOption
        mkdir_ancestors rt ws options actor_json rest child joined
      | none =>
        if options.parents then do
          let joined ← Tx.expect (current_path.join segment).toOption
          let created ← create_directory rt ws current.id segment joined actor_json
          mkdir_ancestors rt ws options actor_json rest created joined
        else pure (.error .ParentNotFound)

def mkdir_tx (rt : Runtime) (ws : WorkspaceId) (segments : List Text) (options : CreateOptions)
    (actor_json : Text) :
    Tx MkdirOutcome := do
  match ← Tx.query (fun db => fetch_root db ws) with
  | none => return .ParentNotFound
  | some root => do
    let leaf_name ← Tx.expect segments.getLast?
    match ← mkdir_ancestors rt ws options actor_json segments.dropLast root VirtualPath.root with
    | .error outcome => return outcome
    | .ok (current, current_path) =>
      if current.kind ≠ .Directory then return .WrongNodeType
      else do
        match ← Tx.query (fun db => fetch_child db ws current.id leaf_name) with
        | some existing =>
          if existing.kind ≠ .Directory then return .WrongNodeType
          else if !options.exist_ok then return .AlreadyExists
          else if stale options.expected_revision existing.revision then return .RevisionConflict
          else return .Existing existing
        | none => do
          let leaf_path ← Tx.expect (current_path.join leaf_name).toOption
          let created ← create_directory rt ws current.id leaf_name leaf_path actor_json
          return .Created created

end directory

end fslite
