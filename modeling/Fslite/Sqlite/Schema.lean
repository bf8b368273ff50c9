import Fslite.Core.Model
import Fslite.Forest
import Fslite.Table

namespace fslite

structure WorkspaceRow where
  id : WorkspaceId
  created_at_ms : Int
  updated_at_ms : Int
  change_seq : Nat
  max_bytes : Nat
  max_nodes : Nat
  max_file_bytes : Nat
  deriving DecidableEq

structure GenerationRow where
  id : GenerationId
  workspace_id : WorkspaceId
  complete : Bool
  length : Nat
  created_at_ms : Int
  deriving DecidableEq

/-- The columns of a node row that queries return. -/
structure RawNode where
  id : NodeId
  workspace_id : WorkspaceId
  parent_id : Option NodeId
  name : Text
  kind : NodeKind
  size : Nat
  revision : Nat
  created_at_ms : Int
  modified_at_ms : Int
  accessed_at_ms : Int
  content_generation_id : Option GenerationId
  symlink_target : Option Text
  deriving DecidableEq

structure NodeRow extends RawNode where
  trashed_at_ms : Option Int
  deriving DecidableEq

structure ChunkRow where
  generation_id : GenerationId
  chunk_index : Nat
  bytes : Bytes
  deriving DecidableEq

structure AttributeRow where
  node_id : NodeId
  key : Text
  value : Bytes
  deriving DecidableEq

structure TrashRow where
  id : TrashId
  workspace_id : WorkspaceId
  node_id : NodeId
  original_parent_id : NodeId
  original_name : Text
  deleted_at_ms : Int
  deriving DecidableEq

structure ChangeRow where
  workspace_id : WorkspaceId
  sequence : Nat
  kind : ChangeKind
  node_id : Option NodeId
  old_path : Option Text
  new_path : Option Text
  revision : Option Nat
  created_at_ms : Int
  actor_json : Text
  deriving DecidableEq

/-- The primary key of a chunk. -/
abbrev ChunkRow.key (row : ChunkRow) : GenerationId × Nat := (row.generation_id, row.chunk_index)

/-- The primary key of an attribute. -/
abbrev AttributeRow.pair (row : AttributeRow) : NodeId × Text := (row.node_id, row.key)

/-- The primary key of a change. -/
abbrev ChangeRow.position (row : ChangeRow) : WorkspaceId × Nat := (row.workspace_id, row.sequence)

/-- The node row with the given identifier. -/
abbrev NodeRow.key (row : NodeRow) : NodeId := row.id

/-- The contents of the database, table by table. -/
@[ext] structure Db where
  workspaces : Table WorkspaceRow.id
  content_generations : Table GenerationRow.id
  nodes : Table NodeRow.key
  content_chunks : Table ChunkRow.key
  attributes : Table AttributeRow.pair
  trash : Table TrashRow.id
  changes : Table ChangeRow.position
  deriving DecidableEq

/-- The text of a path, where there is one. -/
def PathText (text : Option Text) : Prop :=
  ∃ path : Option VirtualPath, text = path.map VirtualPath.as_str

/-- A change row that can be read back. -/
structure ChangeRow.Readable (c : ChangeRow) : Prop where
  old_path : PathText c.old_path
  new_path : PathText c.new_path
  revision : c.revision ≠ some 0

namespace Db

def empty : Db :=
  ⟨Table.empty, Table.empty, Table.empty, Table.empty, Table.empty, Table.empty, Table.empty⟩

def node? (db : Db) (id : NodeId) : Option NodeRow := db.nodes.find? id

def workspace? (db : Db) (id : WorkspaceId) : Option WorkspaceRow := db.workspaces.find? id

def generation? (db : Db) (id : GenerationId) : Option GenerationRow :=
  db.content_generations.find? id

/-- The stored parent of a node. -/
def parent (db : Db) (id : NodeId) : Option NodeId := (db.node? id).bind (fun row => row.parent_id)

/-- Whether deleting `target` cascades to the node: the rows from which
`target` is reached by following `parent_id`. -/
def cascades (db : Db) (target id : NodeId) : Bool :=
  climbs db.parent target (db.nodes.rows.map NodeRow.key).length id

theorem cascades_iff {db : Db} {target id : NodeId} :
    db.cascades target id = true ↔ Below db.parent id target := by
  apply climbs_iff_below
  intro x up hx
  obtain ⟨row, hrow, _⟩ := Option.bind_eq_some_iff.mp hx
  exact List.mem_map.mpr ⟨row, Table.mem_of_find? hrow, Table.key_of_find? hrow⟩

end Db

/-- How a statement or a transaction body ends other than by returning: a
violated constraint, a query without its row, a panic, or a loop that never
ends. -/
inductive Fault where
  | Constraint
  | QueryReturnedNoRows
  | Panic
  | Diverges
  deriving DecidableEq, Repr

/-- The payload of a change cursor. -/
structure change.RawChangeCursor where
  v : Nat
  workspace_id : Text
  last_sequence : Int
  deriving DecidableEq

/-- What the code takes from its surroundings: UUIDs that never repeat, the
system clock, the JSON codec of actor metadata, the JSON and base64 codec of
cursors, and the text of a storage error. -/
structure Runtime where
  newId : Nat → Uuid
  newId_injective : Function.Injective newId
  nowMs : Nat → Int
  actorJson : Metadata → Text
  actorMetadata : Text → Metadata
  base64 : Bytes → Text
  cursorText : change.RawChangeCursor → Text
  cursorPayload : Text → Option change.RawChangeCursor
  cursorPayload_cursorText : ∀ payload, cursorPayload (cursorText payload) = some payload
  faultText : Fault → Text

/-- The database together with the number of identifiers and times drawn so far. -/
@[ext] structure World where
  db : Db
  tick : Nat

end fslite
