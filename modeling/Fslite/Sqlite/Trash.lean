import Fslite.Sqlite.Mutate

namespace fslite.trash

open resolve

inductive TrashOutcome where
  | Trashed (trash_id : TrashId) (node : RawNode) (deleted_at_ms : Int)
  | IsRoot
  | NotFound
  | LinkLoop
  | RevisionConflict

def trash_result (outcome : TrashOutcome) (path : VirtualPath) (actor_metadata : Metadata) :
    FsResult TrashEntry :=
  match outcome with
  | .Trashed trash_id node deleted_at_ms =>
    match node.into_node with
    | .ok node => .ok { id := trash_id, node, original_path := path, trashed_at_ms := deleted_at_ms, actor_metadata }
    | .error err => .error err
  | .IsRoot => .error (FsError.permission_denied path.as_str)
  | .NotFound => .error (FsError.not_found path.as_str)
  | .LinkLoop => .error (FsError.link_loop path.as_str)
  | .RevisionConflict => .error (FsError.revision_conflict path.as_str)

def trashed (now : Int) : Table.Update NodeRow.key where
  apply row := { row with trashed_at_ms := some now }
  key_apply _ := rfl

def trash_tx (rt : Runtime) (ws : WorkspaceId) (path : VirtualPath) (options : MutationOptions)
    (actor_json : Text) :
    Tx TrashOutcome := do
  if path.name.isNone then return .IsRoot
  else do
    match ← Tx.query (fun db => resolve_following db ws path false) with
    | .NotFound => return .NotFound
    | .BrokenLink => return .NotFound
    | .LinkLoop => return .LinkLoop
    | .Found node =>
      if stale options.expected_revision node.revision then return .RevisionConflict
      else do
        let trash_id ← Tx.new_id rt
        let now ← Tx.now_ms rt
        let original_parent_id ← Tx.expect node.parent_id
        Tx.execute (Db.insert_trash {
          id := trash_id, workspace_id := ws, node_id :=
            node.id, original_parent_id, original_name := node.name
          deleted_at_ms := now })
        Tx.execute (Db.update_node node.id (trashed now))
        change.append ws .Trashed (some node.id)
          (some path.as_str) none (some node.revision) actor_json now
        return .Trashed trash_id node now

def fetch_trash_row (db : Db) (ws : WorkspaceId) (trash_id : TrashId) : Option TrashRow :=
  db.trash.rows.find? (fun t => t.workspace_id = ws ∧ t.id = trash_id)

inductive RestoreOutcome where
  | Restored (row : RawNode)
  | TrashNotFound
  | RevisionConflict
  | DestIsRoot
  | DestParentNotFound
  | DestParentNotDirectory
  | DestAlreadyExists
  | OriginalLocationGone

def restore_result (outcome : RestoreOutcome) (trash_id : TrashId) : FsResult Node :=
  match outcome with
  | .Restored row => row.into_node
  | .TrashNotFound => .error (FsError.not_found (uuid_text trash_id))
  | .OriginalLocationGone => .error (FsError.not_found (uuid_text trash_id))
  | .DestParentNotFound => .error (FsError.not_found (uuid_text trash_id))
  | .RevisionConflict => .error (FsError.revision_conflict (uuid_text trash_id))
  | .DestIsRoot => .error (FsError.already_exists (uuid_text trash_id))
  | .DestAlreadyExists => .error (FsError.already_exists (uuid_text trash_id))
  | .DestParentNotDirectory => .error (FsError.wrong_node_type (uuid_text trash_id))

def restored (parent_id : NodeId) (name : Text) (revision : Nat) (now : Int) : Table.Update NodeRow.key where
  apply row := { row with parent_id := some parent_id, name, trashed_at_ms := none, revision, modified_at_ms := now }
  key_apply _ := rfl

/-- The parent and name a restored node gets. -/
def restore_destination (ws : WorkspaceId) (record : TrashRow) (destination : Option VirtualPath) :
    Tx (Except RestoreOutcome (NodeId × Text)) :=
  match destination with
  | some dest_path =>
    match dest_path.name with
    | none => pure (.error .DestIsRoot)
    | some name => do
      let parent_path ← Tx.expect dest_path.parent
      match ← Tx.query (fun db => resolve_following db ws parent_path true) with
      | .Found parent =>
        if parent.kind = .Directory then return .ok (parent.id, name) else return .error .DestParentNotDirectory
      | _ => return .error .DestParentNotFound
  | none => do
    match ← Tx.query (fun db => fetch_by_id db ws record.original_parent_id) with
    | some parent =>
      if parent.kind = .Directory then return .ok (record.original_parent_id, record.original_name)
      else return .error .DestParentNotDirectory
    | none => return .error .OriginalLocationGone

def restore_tx (rt : Runtime) (ws : WorkspaceId) (trash_id : TrashId)
    (destination : Option VirtualPath) (options : MutationOptions) (actor_json : Text) :
    Tx RestoreOutcome := do
  match ← Tx.query (fun db => fetch_trash_row db ws trash_id) with
  | none => return .TrashNotFound
  | some record => do
    match ← Tx.query (fun db => fetch_by_id_any db ws record.node_id) with
    | none => return .TrashNotFound
    | some node =>
      if stale options.expected_revision node.revision then return .RevisionConflict
      else do
        match ← restore_destination ws record destination with
        | .error outcome => return outcome
        | .ok (dest_parent_id, dest_name) => do
          let occupant ← Tx.query (fun db => fetch_child db ws dest_parent_id dest_name)
          if occupant.isSome then return .DestAlreadyExists
          else do
            let now ← Tx.now_ms rt
            let new_revision := node.revision + 1
            Tx.execute (Db.update_node node.id (restored dest_parent_id dest_name new_revision now))
            Tx.execute (fun db => .ok (db.remove_trash trash_id))
            change.append ws .Restored (some node.id) none none (some new_revision) actor_json now
            let restored ← Tx.query (fun db => fetch_by_id db ws node.id)
            let restored ← Tx.expect restored
            return .Restored restored

inductive PurgeOutcome where
  | Purged
  | NotFound

def purge_result (outcome : PurgeOutcome) (trash_id : TrashId) : FsResult Unit :=
  match outcome with
  | .Purged => .ok ()
  | .NotFound => .error (FsError.not_found (uuid_text trash_id))

def purge_tx (rt : Runtime) (ws : WorkspaceId) (trash_id : TrashId) (actor_json : Text) :
    Tx PurgeOutcome := do
  match ← Tx.query (fun db => fetch_trash_row db ws trash_id) with
  | none => return .NotFound
  | some record => do
    let now ← Tx.now_ms rt
    change.append ws .Purged (some record.node_id) none none none actor_json now
    mutate.purge_subtree record.node_id
    return .Purged

end fslite.trash
