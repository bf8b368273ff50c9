import Fslite.Sqlite.Directory

namespace fslite.content

open resolve

/-- The size of one immutable content chunk. -/
def CHUNK_SIZE : Nat := 1024 * 1024

def chunk_index_of (offset : Nat) : Nat := offset / CHUNK_SIZE

def chunk_local_offset (offset : Nat) : Nat := offset % CHUNK_SIZE

def create_generation (rt : Runtime) (ws : WorkspaceId) : Tx GenerationId := do
  let id ← Tx.new_id rt
  let now ← Tx.now_ms rt
  Tx.execute (Db.insert_generation {
    id, workspace_id := ws, complete := false, length := 0, created_at_ms := now })
  return id

def upsert_chunk (generation_id : GenerationId) (chunk_index : Nat) (bytes : Bytes) : Tx Unit :=
  Tx.execute (Db.put_chunk { generation_id, chunk_index, bytes })

def copy_chunk_range (from_generation to_generation : GenerationId)
    (from_index_inclusive to_index_exclusive : Nat) :
    Tx Unit :=
  Tx.execute (Db.insert_chunks from_generation to_generation
    (fun i => from_index_inclusive ≤ i ∧ i < to_index_exclusive))

/-- An absent chunk is read as no bytes. -/
def fetch_chunk_bytes (db : Db) (generation_id : GenerationId) (chunk_index : Nat) : Bytes :=
  ((db.content_chunks.find? (generation_id, chunk_index)).map ChunkRow.bytes).getD []

def finalize_generation (generation_id : GenerationId) (length : Nat) : Tx Unit :=
  Tx.execute (fun db => .ok (db.set_generation_complete generation_id length))

def delete_generation (generation_id : GenerationId) : Tx Unit :=
  Tx.execute (Db.remove_generation generation_id)

def fetch_max_file_bytes (db : Db) (ws : WorkspaceId) : Option Nat :=
  (db.workspace? ws).map WorkspaceRow.max_file_bytes

structure FinalizeParams where
  allow_create : Bool
  expected_revision : Option Revision

inductive FinalizeOutcome where
  | Applied (row : RawNode)
  | NotFound
  | WrongNodeType
  | RevisionConflict

/-- The row of a file that is created with the given content. -/
def fileRow (id : NodeId) (ws : WorkspaceId) (parent_id : NodeId) (name : Text)
    (generation_id : GenerationId) (length : Nat) (now : Int) : NodeRow where
  id := id
  workspace_id := ws
  parent_id := some parent_id
  name := name
  kind := .File
  size := length
  revision := 1
  created_at_ms := now
  modified_at_ms := now
  accessed_at_ms := now
  content_generation_id := some generation_id
  symlink_target := none
  trashed_at_ms := none

/-- The columns that a file's replacement writes. -/
def replaced (generation_id : GenerationId) (length revision : Nat) (now : Int) :
    Table.Update NodeRow.key where
  apply row := { row with
    content_generation_id := some generation_id, size := length, revision, modified_at_ms :=
      now, accessed_at_ms := now }
  key_apply _ := rfl

def finalize_tx (rt : Runtime) (ws : WorkspaceId) (path : VirtualPath)
    (new_generation_id : GenerationId) (new_length : Nat) (params : FinalizeParams)
    (actor_json : Text) : Tx FinalizeOutcome := do
  match ← Tx.query (fun db => resolve db ws path) with
  | none =>
    match path.parent with
    | none => return .NotFound
    | some parent => do
      match ← Tx.query (fun db => resolve db ws parent) with
      | none => return .NotFound
      | some parent_node =>
        if parent_node.kind ≠ .Directory then return .WrongNodeType
        else if !params.allow_create then return .NotFound
        else do
          let node_id ← Tx.new_id rt
          let now ← Tx.now_ms rt
          let name ← Tx.expect path.name
          let row := fileRow node_id ws parent_node.id name new_generation_id new_length now
          Tx.execute (Db.insert_node row)
          finalize_generation new_generation_id new_length
          change.append ws .Created (some node_id) none (some path.as_str) (some 1) actor_json now
          return .Applied row.toRawNode
  | some existing =>
    if existing.kind ≠ .File then return .WrongNodeType
    else if stale params.expected_revision existing.revision then return .RevisionConflict
    else do
      let now ← Tx.now_ms rt
      let new_revision := existing.revision + 1
      Tx.execute (Db.update_node existing.id
        (replaced new_generation_id new_length new_revision now))
      finalize_generation new_generation_id new_length
      change.append ws .Modified (some existing.id) none (some path.as_str)
        (some new_revision) actor_json now
      match existing.content_generation_id with
      | some old_generation_id =>
        if old_generation_id ≠ new_generation_id then delete_generation old_generation_id
      | none => pure ()
      return .Applied { existing with
        workspace_id := ws, kind := .File, size := new_length, revision :=
          new_revision, modified_at_ms := now
        accessed_at_ms := now, content_generation_id := some new_generation_id, symlink_target :=
          none }

inductive TouchOutcome where
  | Touched (row : RawNode)
  | Created (row : RawNode)
  | NotFound
  | WrongNodeType
  | RevisionConflict

def touch_result (outcome : TouchOutcome) (path : VirtualPath) : FsResult Node :=
  match outcome with
  | .Touched row => row.into_node
  | .Created row => row.into_node
  | .NotFound => .error (FsError.not_found path.as_str)
  | .WrongNodeType => .error (FsError.wrong_node_type path.as_str)
  | .RevisionConflict => .error (FsError.revision_conflict path.as_str)

def touched (revision : Nat) (now : Int) : Table.Update NodeRow.key where
  apply row := { row with revision, modified_at_ms := now, accessed_at_ms := now }
  key_apply _ := rfl

/-- Bumps timestamps and revision of an existing file, or creates a fresh empty
file when absent and `options.create`. -/
def touch_tx (rt : Runtime) (ws : WorkspaceId) (path : VirtualPath) (options : TouchOptions)
    (actor_json : Text) :
    Tx TouchOutcome := do
  match ← Tx.query (fun db => resolve db ws path) with
  | some node =>
    if node.kind ≠ .File then return .WrongNodeType
    else if stale options.expected_revision node.revision then return .RevisionConflict
    else do
      let now ← Tx.now_ms rt
      Tx.execute (Db.update_node node.id (touched (node.revision + 1) now))
      let updated ← Tx.query (fun db => fetch_by_id db ws node.id)
      let updated ← Tx.expect updated
      return .Touched updated
  | none =>
    if !options.create then return .NotFound
    else do
      let generation_id ← create_generation rt ws
      finalize_generation generation_id 0
      match ← finalize_tx rt ws path generation_id 0 ⟨true, none⟩ actor_json with
      | .Applied row => return .Created row
      | .NotFound => return .NotFound
      | .WrongNodeType => return .WrongNodeType
      | .RevisionConflict => return .RevisionConflict

end fslite.content
