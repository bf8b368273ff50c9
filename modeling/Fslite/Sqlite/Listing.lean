import Fslite.Levels
import Fslite.Sqlite.Connection
import Mathlib.Data.Char
import Mathlib.Data.List.Lex
import Mathlib.Data.Prod.Lex
import Mathlib.Order.WithBot

namespace fslite

/-- The JSON and base64 spelling of a cursor's payload. -/
structure Codec (A : Type) where
  encode : A → Text
  decode : Text → Option A
  decode_encode : ∀ payload, decode (encode payload) = some payload

/-- The payload of a cursor; what is not a payload, or not one for the call, is
refused. -/
def decode_cursor {A : Type} (codec : Codec A) (raw : Text) (accepts : A → Bool) : FsResult A :=
  match codec.decode raw with
  | none => .error (FsError.invalid_cursor raw)
  | some payload => if accepts payload then .ok payload else .error (FsError.invalid_cursor raw)

/-- The rows of a page, of which one more than the limit has been fetched, and the
row that the next page starts after. -/
def cut {A : Type} (limit : Nat) (rows : List A) : List A × Option A :=
  if limit < rows.length then (rows.take limit, (rows.take limit).getLast?) else (rows, none)

/-- The sort key of a sibling. The empty text, which is no identifier, comes before
all identifiers. -/
def child_key (row : RawNode) : Text ×ₗ WithBot NodeId :=
  toLex (row.name, (row.id : WithBot NodeId))

/-- A row of a recursive query: a node below the root of the query, and the way to it. -/
structure Descendant where
  node : RawNode
  depth : Nat
  relative_path : Text
  deriving DecidableEq

/-- The sort key of a row of a recursive query. -/
def descendant_key (row : Descendant) : ℤ ×ₗ Text ×ₗ WithBot NodeId :=
  toLex ((row.depth : ℤ), child_key row.node)

/-- The untrashed nodes of the workspace under the root. -/
def first_descendants (db : Db) (ws : WorkspaceId) (root_id : NodeId) : List Descendant :=
  (db.nodes.rows.filter (fun n => n.workspace_id = ws ∧ n.parent_id = some root_id ∧
    n.trashed_at_ms = none)).map
    (fun n => ⟨n.toRawNode, 1, n.name⟩)

/-- The untrashed nodes under a row, unless it is as deep as the query may go. -/
def next_descendants (db : Db) (max_depth : Option Nat) (row : Descendant) : List Descendant :=
  if ∃ depth, max_depth = some depth ∧ depth ≤ row.depth then []
  else (db.nodes.rows.filter (fun n => n.parent_id = some row.node.id ∧ n.trashed_at_ms = none)).map
    (fun n => ⟨n.toRawNode, row.depth + 1, row.relative_path ++ '/' :: n.name⟩)

/-- The recursive query `descendants`. No more rounds than there are nodes give
new rows, unless the query goes round a cycle forever. -/
def descendants (db : Db) (ws : WorkspaceId) (root_id : NodeId) (max_depth : Option Nat) :
    Except Fault (List Descendant) :=
  match Levels.collect (next_descendants db max_depth) (max_depth.getD db.nodes.rows.length + 1)
      (first_descendants db ws root_id) with
  | some rows => .ok rows
  | none => .error .Diverges

/-- Whether the row comes after the position, in the words of the query. -/
def after_descendant (after : ℤ × Text × WithBot NodeId) (row : Descendant) : Bool :=
  let (after_depth, after_name, after_id) := after
  row.depth > after_depth ∨ (row.depth = after_depth ∧ row.node.name > after_name) ∨
    (row.depth = after_depth ∧ row.node.name = after_name ∧
      (row.node.id : WithBot NodeId) > after_id)

/-- The rows after the position, in order. -/
def fetch_descendants (db : Db) (ws : WorkspaceId) (root_id : NodeId) (max_depth : Option Nat)
    (after : ℤ × Text × WithBot NodeId) (limit : Nat) : Except Fault (List Descendant) := do
  let rows ← descendants db ws root_id max_depth
  return ((rows.insertionSort (fun a b => descendant_key a ≤ descendant_key b)).filter
    (after_descendant after)).take limit

namespace directory

structure DirCursor where
  v : Nat
  workspace_id : WorkspaceId
  parent_id : NodeId
  last_name : Text
  last_id : NodeId
  deriving DecidableEq

def encode_dir_cursor (codec : Codec DirCursor) (ws : WorkspaceId) (parent_id : NodeId)
    (last_name : Text) (last_id : NodeId) : Text :=
  codec.encode { v := 1, workspace_id := ws, parent_id, last_name, last_id }

def decode_dir_cursor (codec : Codec DirCursor) (raw : Text) (ws : WorkspaceId) :
    FsResult DirCursor :=
  decode_cursor codec raw (fun payload => payload.v = 1 ∧ payload.workspace_id = ws)

inductive ReadDirRaw where
  | Found (parent_id : NodeId) (rows : List RawNode)
  | NotFound
  | NotDirectory
  | CursorMismatch

def fetch_children_page (db : Db) (ws : WorkspaceId) (parent_id : NodeId) (after_name : Text)
    (after_id : WithBot NodeId) (limit : Nat) : List RawNode :=
  ((resolve.fetch_children db ws parent_id).filter (fun row =>
    row.name > after_name ∨ (row.name = after_name ∧
      (row.id : WithBot NodeId) > after_id))).take limit

/-- The call of `read_dir` on the connection. -/
def read_dir_raw (db : Db) (ws : WorkspaceId) (path : VirtualPath) (after : Option DirCursor)
    (limit : Nat) : ReadDirRaw :=
  match resolve.resolve db ws path with
  | none => .NotFound
  | some parent =>
    if parent.kind ≠ .Directory then .NotDirectory
    else if after.any (fun cursor => cursor.parent_id ≠ parent.id) then .CursorMismatch
    else
      let (after_name, after_id) : Text × WithBot NodeId :=
        (after.map (fun c => (c.last_name, (c.last_id : WithBot NodeId)))).getD ([], ⊥)
      .Found parent.id (fetch_children_page db ws parent.id after_name after_id (limit + 1))

def read_dir (codec : Codec DirCursor) (db : Db) (ws : WorkspaceId) (path : VirtualPath)
    (page : PageRequest) :
    FsResult (Page Node) := do
  let after ← page.cursor.mapM (fun raw => decode_dir_cursor codec raw ws)
  let limit := max page.limit 1
  match read_dir_raw db ws path after limit with
  | .NotFound => throw (FsError.not_found path.as_str)
  | .NotDirectory => throw (FsError.wrong_node_type path.as_str)
  | .CursorMismatch => throw (FsError.invalid_cursor path.as_str)
  | .Found parent_id rows =>
    let (rows, last) := cut limit rows
    let next_cursor := last.map (fun last => encode_dir_cursor codec ws parent_id last.name last.id)
    let nodes ← rows.mapM RawNode.into_node
    return ⟨nodes, next_cursor⟩

structure TreeCursor where
  v : Nat
  workspace_id : WorkspaceId
  root_id : NodeId
  last_depth : ℤ
  last_name : Text
  last_id : NodeId
  deriving DecidableEq

def encode_tree_cursor (codec : Codec TreeCursor) (ws : WorkspaceId) (root_id : NodeId)
    (last_depth : ℤ) (last_name : Text) (last_id : NodeId) : Text :=
  codec.encode { v := 1, workspace_id := ws, root_id, last_depth, last_name, last_id }

def decode_tree_cursor (codec : Codec TreeCursor) (raw : Text) (ws : WorkspaceId) :
    FsResult TreeCursor :=
  decode_cursor codec raw (fun payload => payload.v = 1 ∧ payload.workspace_id = ws)

structure TreeOptions where
  max_depth : Option Nat := none
  follow_symlinks : Bool := false

structure TreeEntry where
  path : VirtualPath
  depth : Nat
  node : Node
  deriving DecidableEq

def into_entry (base_path : VirtualPath) (row : Descendant) : FsResult TreeEntry := do
  let path ← base_path.join row.relative_path
  return { path, depth := row.depth, node := ← row.node.into_node }

inductive TreeRaw where
  | Found (root_id : NodeId) (rows : List Descendant)
  | NotFound
  | NotDirectory
  | CursorMismatch

def fetch_tree_page (db : Db) (ws : WorkspaceId) (root_id : NodeId) (max_depth : Option Nat)
    (after : ℤ × Text × WithBot NodeId) (limit : Nat) : Except Fault (List Descendant) :=
  fetch_descendants db ws root_id max_depth after limit

/-- The call of `tree` on the connection. -/
def tree_raw (db : Db) (ws : WorkspaceId) (path : VirtualPath) (options : TreeOptions)
    (after : Option TreeCursor) (limit : Nat) : Except Fault TreeRaw :=
  match resolve.resolve db ws path with
  | none => .ok .NotFound
  | some root =>
    if root.kind ≠ .Directory then .ok .NotDirectory
    else if after.any (fun cursor => cursor.root_id ≠ root.id) then .ok .CursorMismatch
    else do
      let after := (after.map
        (fun c => (c.last_depth, c.last_name, (c.last_id : WithBot NodeId)))).getD (0, [], ⊥)
      return .Found root.id (← fetch_tree_page db ws root.id options.max_depth after (limit + 1))

def tree (rt : Runtime) (codec : Codec TreeCursor) (db : Db) (ws : WorkspaceId) (path : VirtualPath)
    (options : TreeOptions) (page : PageRequest) : FsResult (Page TreeEntry) := do
  let after ← page.cursor.mapM (fun raw => decode_tree_cursor codec raw ws)
  let limit := max page.limit 1
  match ← (tree_raw db ws path options after limit).mapError (DbCall.map_call_error rt) with
  | .NotFound => throw (FsError.not_found path.as_str)
  | .NotDirectory => throw (FsError.wrong_node_type path.as_str)
  | .CursorMismatch => throw (FsError.invalid_cursor path.as_str)
  | .Found root_id rows =>
    let (rows, last) := cut limit rows
    let next_cursor := last.map
      (fun last => encode_tree_cursor codec ws root_id last.depth last.node.name last.node.id)
    let entries ← rows.mapM (into_entry path)
    return ⟨entries, next_cursor⟩

end directory

namespace trash

structure TrashCursor where
  v : Nat
  workspace_id : WorkspaceId
  last_id : TrashId
  deriving DecidableEq

def encode_trash_cursor (codec : Codec TrashCursor) (ws : WorkspaceId) (last_id : TrashId) : Text :=
  codec.encode { v := 1, workspace_id := ws, last_id }

def decode_trash_cursor (codec : Codec TrashCursor) (raw : Text) (ws : WorkspaceId) :
    FsResult TrashCursor :=
  decode_cursor codec raw (fun payload => payload.v = 1 ∧ payload.workspace_id = ws)

def fetch_trash_page (db : Db) (ws : WorkspaceId) (after_id : WithBot TrashId) (limit : Nat) :
    List TrashRow :=
  (((db.trash.rows.filter (fun t => t.workspace_id = ws)).insertionSort
    (fun a b => a.id ≤ b.id)).filter
    (fun t => (t.id : WithBot TrashId) > after_id)).take limit

/-- The prior path and the actor metadata of the most recent `trashed` change of a node. -/
def fetch_trash_change_context (db : Db) (ws : WorkspaceId) (node_id : NodeId) :
    Option (Option Text × Text) :=
  ((db.changes.rows.filter (fun c => c.workspace_id = ws ∧ c.node_id = some node_id ∧
    c.kind = .Trashed)).insertionSort
    (fun a b => b.sequence ≤ a.sequence)).head?.map (fun c => (c.old_path, c.actor_json))

def build_trash_entry (rt : Runtime) (row : TrashRow) (node : Option RawNode)
    (context : Option (Option Text × Text)) :
    FsResult TrashEntry :=
  match node with
  | none => .error (FsError.internal_storage_failure "trashed node record is missing".toList)
  | some node => do
    let (old_path, actor_json) := context.getD (none, "\x7b\x7d".toList)
    let original_path ← match old_path with
      | some raw => VirtualPath.parse raw
      | none => .ok VirtualPath.root
    let actor_metadata := rt.actorMetadata actor_json
    return { id := row.id, node := ← node.into_node, original_path, trashed_at_ms :=
      row.deleted_at_ms, actor_metadata }

def list_trash (rt : Runtime) (codec : Codec TrashCursor) (db : Db) (ws : WorkspaceId)
    (page : PageRequest) :
    FsResult (Page TrashEntry) := do
  let after ← page.cursor.mapM (fun raw => decode_trash_cursor codec raw ws)
  let after_id : WithBot TrashId := (after.map (fun c => (c.last_id : WithBot TrashId))).getD ⊥
  let limit := max page.limit 1
  let (rows, last) := cut limit (fetch_trash_page db ws after_id (limit + 1))
  let next_cursor := last.map (fun last => encode_trash_cursor codec ws last.id)
  let items ← rows.mapM (fun row => build_trash_entry rt row
    (resolve.fetch_by_id_any db ws row.node_id)
    (fetch_trash_change_context db ws row.node_id))
  return ⟨items, next_cursor⟩

end trash

end fslite
