import Fslite.Sqlite.Generation

namespace fslite.mutate

open resolve

/-- Where a copy or a move puts its node. -/
inductive Destination where
  | Ready (parent_id : NodeId) (existing : Option RawNode)
  | IsRoot
  | ParentNotFound
  | ParentNotDirectory

def resolve_destination (ws : WorkspaceId) (target : VirtualPath) : Tx Destination :=
  match target.name with
  | none => pure .IsRoot
  | some name => do
    let parent_path ← Tx.expect target.parent
    match ← Tx.query (fun db => resolve_following db ws parent_path true) with
    | .Found parent =>
      if parent.kind = .Directory then do
        let existing ← Tx.query (fun db => fetch_child db ws parent.id name)
        return .Ready parent.id existing
      else return .ParentNotDirectory
    | _ => return .ParentNotFound

/-- The content generations of a node and everything under it. -/
def subtree_generations (db : Db) (id : NodeId) : List GenerationId :=
  (db.nodes.rows.filter (fun n => db.cascades id n.id)).filterMap (fun n => n.content_generation_id)

/-- Whether a node lies under itself, so that walking its subtree never ends. -/
def cyclic (db : Db) (id : NodeId) : Bool := (db.parent id).any (fun p => db.cascades id p)

/-- Permanently deletes a node and its entire subtree, including every
descendant's content generation and chunks. -/
def purge_subtree (node_id : NodeId) : Tx Unit := do
  if ← Tx.query (fun db => cyclic db node_id) then Tx.fail .Diverges
  else do
    let generation_ids ← Tx.query (fun db => subtree_generations db node_id)
    Tx.execute (fun db => .ok (db.delete_node node_id))
    Tx.execute (fun db => generation_ids.foldlM (fun db id => db.remove_generation id) db)

def is_same_or_descendant (ancestor candidate : VirtualPath) : Bool :=
  if candidate.as_str = ancestor.as_str then true
  else
    let pre := if ancestor.as_str = ['/'] then ['/'] else ancestor.as_str ++ ['/']
    pre.isPrefixOf candidate.as_str

inductive CopyOutcome where
  | Created (row : RawNode)
  | SourceNotFound
  | SourceLinkLoop
  | SourceNotRecursive
  | RevisionConflict
  | DestIsRoot
  | DestParentNotFound
  | DestParentNotDirectory
  | DestAlreadyExists

def copy_result (outcome : CopyOutcome) (source target : VirtualPath) : FsResult Node :=
  match outcome with
  | .Created row => row.into_node
  | .SourceNotFound => .error (FsError.not_found source.as_str)
  | .SourceLinkLoop => .error (FsError.link_loop source.as_str)
  | .SourceNotRecursive => .error (FsError.wrong_node_type source.as_str)
  | .RevisionConflict => .error (FsError.revision_conflict source.as_str)
  | .DestIsRoot => .error (FsError.already_exists target.as_str)
  | .DestAlreadyExists => .error (FsError.already_exists target.as_str)
  | .DestParentNotFound => .error (FsError.not_found target.as_str)
  | .DestParentNotDirectory => .error (FsError.wrong_node_type target.as_str)

def fetch_full (ws : WorkspaceId) (id : NodeId) : Tx RawNode := do
  match ← Tx.query (fun db => fetch_by_id db ws id) with
  | some row => return row
  | none => Tx.fail .QueryReturnedNoRows

/-- The row of a copied node. -/
def copiedRow (id : NodeId) (ws : WorkspaceId) (parent_id : NodeId) (name : Text) (old : RawNode)
    (content_generation_id : Option GenerationId) (now : Int) : NodeRow where
  id := id
  workspace_id := ws
  parent_id := some parent_id
  name := name
  kind := old.kind
  size := old.size
  revision := 1
  created_at_ms := now
  modified_at_ms := now
  accessed_at_ms := now
  content_generation_id := content_generation_id
  symlink_target := old.symlink_target
  trashed_at_ms := none

/-- The fresh, independent content generation of a copied file. -/
def copy_content (rt : Runtime) (ws : WorkspaceId) (old_node : RawNode) :
    Tx (Option GenerationId) :=
  match old_node.kind, old_node.content_generation_id with
  | .File, some old_generation_id => do
    let new_generation_id ← content.create_generation rt ws
    Tx.execute (Db.insert_chunks old_generation_id new_generation_id (fun _ => true))
    content.finalize_generation new_generation_id old_node.size
    return some new_generation_id
  | _, _ => pure none

/-- One round of the loop in `copy_subtree`, up to pushing the children. -/
def copy_node (rt : Runtime) (ws : WorkspaceId) (now : Int) (old_node : RawNode)
    (new_parent_id : NodeId) (new_name : Text) : Tx RawNode := do
  let new_id ← Tx.new_id rt
  let content_generation_id ← copy_content rt ws old_node
  let row := copiedRow new_id ws new_parent_id new_name old_node content_generation_id now
  Tx.execute (Db.insert_node row)
  Tx.execute (Db.insert_attributes old_node.id new_id)
  return row.toRawNode

/-- The loop of `copy_subtree`; the stack's top is the list's head. The bound
is the number of nodes stored before the loop: a loop that ends takes each of
them from the stack at most once. -/
def copy_loop (rt : Runtime) (ws : WorkspaceId) (now : Int) :
    Nat → List (RawNode × NodeId × Text) → Option RawNode → Tx RawNode
  | _, [], top => Tx.expect top
  | 0, _ :: _, _ => Tx.fail .Diverges
  | bound + 1, (old_node, new_parent_id, new_name) :: stack, top => do
    let new_node ← copy_node rt ws now old_node new_parent_id new_name
    let children ← Tx.query (fun db =>
      if old_node.kind = .Directory then fetch_children db ws old_node.id else [])
    let pushed := children.map (fun child => (child, new_node.id, child.name))
    copy_loop rt ws now bound (pushed.reverse ++ stack) (top.or (some new_node))

def copy_subtree (rt : Runtime) (ws : WorkspaceId) (source : RawNode) (dest_parent_id : NodeId)
    (dest_name : Text) (now : Int) : Tx RawNode := do
  let full ← fetch_full ws source.id
  let bound ← Tx.query (fun db => db.nodes.rows.length)
  copy_loop rt ws now bound [(full, dest_parent_id, dest_name)] none

def copy_tx (rt : Runtime) (ws : WorkspaceId) (source_path target : VirtualPath)
    (options : CopyOptions) (actor_json : Text) : Tx CopyOutcome := do
  match ← Tx.query (fun db => resolve_following db ws source_path false) with
  | .NotFound => return .SourceNotFound
  | .BrokenLink => return .SourceNotFound
  | .LinkLoop => return .SourceLinkLoop
  | .Found source =>
    if stale options.expected_revision source.revision then return .RevisionConflict
    else if source.kind = .Directory ∧ !options.recursive then return .SourceNotRecursive
    else do
      match ← resolve_destination ws target with
      | .IsRoot => return .DestIsRoot
      | .ParentNotFound => return .DestParentNotFound
      | .ParentNotDirectory => return .DestParentNotDirectory
      | .Ready dest_parent_id existing => do
        let dest_name ← Tx.expect target.name
        if existing.isSome ∧ !options.overwrite then return .DestAlreadyExists
        else do
          match existing with
          | some existing_node => purge_subtree existing_node.id
          | none => pure ()
          let now ← Tx.now_ms rt
          let new_node ← copy_subtree rt ws source dest_parent_id dest_name now
          change.append ws .Copied (some new_node.id) (some source_path.as_str) (some target.as_str)
            (some 1)
            actor_json now
          return .Created new_node

inductive MoveOutcome where
  | Moved (row : RawNode)
  | SourceIsRoot
  | SourceNotFound
  | SourceLinkLoop
  | DestInsideSource
  | RevisionConflict
  | DestIsRoot
  | DestParentNotFound
  | DestParentNotDirectory
  | DestAlreadyExists

def move_result (outcome : MoveOutcome) (source target : VirtualPath) : FsResult Node :=
  match outcome with
  | .Moved row => row.into_node
  | .SourceIsRoot => .error (FsError.permission_denied source.as_str)
  | .DestInsideSource => .error (FsError.permission_denied source.as_str)
  | .SourceNotFound => .error (FsError.not_found source.as_str)
  | .SourceLinkLoop => .error (FsError.link_loop source.as_str)
  | .RevisionConflict => .error (FsError.revision_conflict source.as_str)
  | .DestIsRoot => .error (FsError.already_exists target.as_str)
  | .DestAlreadyExists => .error (FsError.already_exists target.as_str)
  | .DestParentNotFound => .error (FsError.not_found target.as_str)
  | .DestParentNotDirectory => .error (FsError.wrong_node_type target.as_str)

/-- The columns that a move writes. -/
def moved (parent_id : NodeId) (name : Text) (revision : Nat) (now : Int) :
    Table.Update NodeRow.key where
  apply row := { row with parent_id := some parent_id, name, revision, modified_at_ms := now }
  key_apply _ := rfl

def move_tx (rt : Runtime) (ws : WorkspaceId) (source_path target : VirtualPath)
    (options : MoveOptions) (actor_json : Text) : Tx MoveOutcome := do
  if source_path.name.isNone then return .SourceIsRoot
  else do
    match ← Tx.query (fun db => resolve_following db ws source_path false) with
    | .NotFound => return .SourceNotFound
    | .BrokenLink => return .SourceNotFound
    | .LinkLoop => return .SourceLinkLoop
    | .Found source =>
      if stale options.expected_revision source.revision then return .RevisionConflict
      else if is_same_or_descendant source_path target then return .DestInsideSource
      else do
        match ← resolve_destination ws target with
        | .IsRoot => return .DestIsRoot
        | .ParentNotFound => return .DestParentNotFound
        | .ParentNotDirectory => return .DestParentNotDirectory
        | .Ready dest_parent_id existing => do
          let dest_name ← Tx.expect target.name
          if existing.isSome ∧ !options.overwrite then return .DestAlreadyExists
          else do
            match existing with
            | some existing_node => purge_subtree existing_node.id
            | none => pure ()
            let now ← Tx.now_ms rt
            let new_revision := source.revision + 1
            Tx.execute (Db.update_node source.id (moved dest_parent_id dest_name new_revision now))
            change.append ws .Moved (some source.id) (some source_path.as_str) (some target.as_str)
              (some new_revision) actor_json now
            return .Moved { source with
              workspace_id := ws, parent_id := some dest_parent_id, name := dest_name, revision :=
                new_revision
              modified_at_ms := now }

inductive RemoveOutcome where
  | Removed
  | IsRoot
  | NotFound
  | LinkLoop
  | DirectoryNotEmpty
  | RevisionConflict

def remove_result (outcome : RemoveOutcome) (path : VirtualPath) : FsResult Unit :=
  match outcome with
  | .Removed => .ok ()
  | .IsRoot => .error (FsError.permission_denied path.as_str)
  | .NotFound => .error (FsError.not_found path.as_str)
  | .LinkLoop => .error (FsError.link_loop path.as_str)
  | .DirectoryNotEmpty => .error (FsError.directory_not_empty path.as_str)
  | .RevisionConflict => .error (FsError.revision_conflict path.as_str)

def remove_tx (rt : Runtime) (ws : WorkspaceId) (path : VirtualPath) (options : RemoveOptions)
    (actor_json : Text) :
    Tx RemoveOutcome := do
  if path.name.isNone then return .IsRoot
  else do
    match ← Tx.query (fun db => resolve_following db ws path false) with
    | .NotFound => return .NotFound
    | .BrokenLink => return .NotFound
    | .LinkLoop => return .LinkLoop
    | .Found node =>
      if stale options.expected_revision node.revision then return .RevisionConflict
      else do
        let occupied ← Tx.query (fun db => has_active_children db ws node.id)
        if node.kind = .Directory ∧ !options.recursive ∧ occupied then return .DirectoryNotEmpty
        else do
          purge_subtree node.id
          let now ← Tx.now_ms rt
          change.append ws .Removed (some node.id) (some path.as_str) none none actor_json now
          return .Removed

inductive SymlinkOutcome where
  | Created (row : RawNode)
  | Existing (row : RawNode)
  | AlreadyExists
  | WrongNodeType
  | ParentNotFound
  | RevisionConflict

def symlink_result (outcome : SymlinkOutcome) (link : VirtualPath) : FsResult Node :=
  match outcome with
  | .Created row => row.into_node
  | .Existing row => row.into_node
  | .AlreadyExists => .error (FsError.already_exists link.as_str)
  | .WrongNodeType => .error (FsError.wrong_node_type link.as_str)
  | .ParentNotFound => .error (FsError.not_found link.as_str)
  | .RevisionConflict => .error (FsError.revision_conflict link.as_str)

/-- The row of a symbolic link. -/
def linkRow (id : NodeId) (ws : WorkspaceId) (parent_id : NodeId) (name target : Text) (now : Int) :
    NodeRow where
  id := id
  workspace_id := ws
  parent_id := some parent_id
  name := name
  kind := .Symlink
  size := 0
  revision := 1
  created_at_ms := now
  modified_at_ms := now
  accessed_at_ms := now
  content_generation_id := none
  symlink_target := some target
  trashed_at_ms := none

def symlink_tx (rt : Runtime) (ws : WorkspaceId) (link : VirtualPath) (target_str : Text)
    (options : CreateOptions) (actor_json : Text) : Tx SymlinkOutcome := do
  let name ← Tx.expect link.name
  let parent_path ← Tx.expect link.parent
  match ← Tx.query (fun db => resolve_following db ws parent_path true) with
  | .Found parent =>
    if parent.kind ≠ .Directory then return .WrongNodeType
    else do
      match ← Tx.query (fun db => fetch_child db ws parent.id name) with
      | some existing =>
        if existing.kind ≠ .Symlink then return .WrongNodeType
        else if !options.exist_ok then return .AlreadyExists
        else if stale options.expected_revision existing.revision then return .RevisionConflict
        else return .Existing existing
      | none => do
        let node_id ← Tx.new_id rt
        let now ← Tx.now_ms rt
        let row := linkRow node_id ws parent.id name target_str now
        Tx.execute (Db.insert_node row)
        change.append ws .Created (some node_id) none (some link.as_str) (some 1) actor_json now
        return .Created row.toRawNode
  | _ => return .ParentNotFound

def MAX_ATTRIBUTE_KEY_BYTES : Nat := 256
def MAX_ATTRIBUTE_VALUE_BYTES : Nat := 4096
def MAX_ATTRIBUTES_PER_NODE : Nat := 64

inductive AttributeOutcome where
  | Updated (row : RawNode) (attributes : Attributes)
  | NotFound
  | LinkLoop
  | InvalidKey
  | QuotaExceeded
  | RevisionConflict

def attribute_result (outcome : AttributeOutcome) (path : VirtualPath) : FsResult Node :=
  match outcome with
  | .Updated row attributes =>
    match row.into_node with
    | .ok node => .ok { node with attributes }
    | .error err => .error err
  | .NotFound => .error (FsError.not_found path.as_str)
  | .LinkLoop => .error (FsError.link_loop path.as_str)
  | .InvalidKey => .error (FsError.invalid_path_or_name path.as_str)
  | .QuotaExceeded => .error (FsError.quota_exceeded path.as_str)
  | .RevisionConflict => .error (FsError.revision_conflict path.as_str)

/-- A node's attributes in key order, values base64url-encoded. -/
def build_attributes_map (rt : Runtime) (db : Db) (node_id : NodeId) : Attributes :=
  ((db.attributes.rows.filter (fun a => a.node_id = node_id)).insertionSort
    (fun a b => text_le a.key b.key)).map
    (fun a => (a.key, rt.base64 a.value))

/-- The columns that a change of a node's attributes writes. -/
def revised (revision : Nat) (now : Int) : Table.Update NodeRow.key where
  apply row := { row with revision, modified_at_ms := now }
  key_apply _ := rfl

def set_attribute_tx (rt : Runtime) (ws : WorkspaceId) (path : VirtualPath) (key : Text)
    (value : Bytes) (options : MutationOptions) (actor_json : Text) : Tx AttributeOutcome := do
  match ← Tx.query (fun db => resolve_following db ws path false) with
  | .NotFound => return .NotFound
  | .BrokenLink => return .NotFound
  | .LinkLoop => return .LinkLoop
  | .Found node =>
    if key = [] ∨ MAX_ATTRIBUTE_KEY_BYTES < utf8_len key then return .InvalidKey
    else if MAX_ATTRIBUTE_VALUE_BYTES < value.length then return .QuotaExceeded
    else if stale options.expected_revision node.revision then return .RevisionConflict
    else do
      let already_exists ← Tx.query (fun db => db.attributes.contains (node.id, key))
      let count ← Tx.query (fun db =>
        (db.attributes.rows.filter (fun a => a.node_id = node.id)).length)
      if !already_exists ∧ MAX_ATTRIBUTES_PER_NODE ≤ count then return .QuotaExceeded
      else do
        Tx.execute (Db.put_attribute { node_id := node.id, key, value })
        let now ← Tx.now_ms rt
        let new_revision := node.revision + 1
        Tx.execute (Db.update_node node.id (revised new_revision now))
        change.append ws .AttributeSet (some node.id) none (some path.as_str)
          (some new_revision) actor_json now
        let updated ← Tx.query (fun db => fetch_by_id db ws node.id)
        let updated ← Tx.expect updated
        let attributes ← Tx.query (fun db => build_attributes_map rt db node.id)
        return .Updated updated attributes

def remove_attribute_tx (rt : Runtime) (ws : WorkspaceId) (path : VirtualPath) (key : Text)
    (options : MutationOptions) (actor_json : Text) : Tx AttributeOutcome := do
  match ← Tx.query (fun db => resolve_following db ws path false) with
  | .NotFound => return .NotFound
  | .BrokenLink => return .NotFound
  | .LinkLoop => return .LinkLoop
  | .Found node =>
    if stale options.expected_revision node.revision then return .RevisionConflict
    else do
      let deleted ← Tx.query (fun db => db.attributes.contains (node.id, key))
      Tx.execute (fun db => .ok (db.remove_attribute_row node.id key))
      let final_node ← if deleted then do
          let now ← Tx.now_ms rt
          let new_revision := node.revision + 1
          Tx.execute (Db.update_node node.id (revised new_revision now))
          change.append ws .AttributeRemoved (some node.id) none (some path.as_str)
            (some new_revision) actor_json now
          let updated ← Tx.query (fun db => fetch_by_id db ws node.id)
          Tx.expect updated
        else pure node
      let attributes ← Tx.query (fun db => build_attributes_map rt db final_node.id)
      return .Updated final_node attributes

end fslite.mutate
