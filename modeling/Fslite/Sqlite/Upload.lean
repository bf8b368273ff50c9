import Fslite.Sqlite.Connection

namespace fslite.content

/-- Accumulates streamed bytes into a new content generation, flushing whole
chunks as they fill and never holding more than one partial chunk. -/
structure ChunkWriter where
  generation_id : GenerationId
  max_file_bytes : Nat
  next_chunk_index : Nat
  committed_len : Nat
  buffer : Bytes
  partial_buffer : buffer.length < CHUNK_SIZE

namespace ChunkWriter

def new (generation_id : GenerationId) (max_file_bytes : Nat) : ChunkWriter :=
  ⟨generation_id, max_file_bytes, 0, 0, [], by decide⟩

def total_len (writer : ChunkWriter) : Nat := writer.committed_len + writer.buffer.length

/-- Advances the writer past chunks already committed to storage. -/
def skip_committed_chunks (writer : ChunkWriter) (whole_chunk_count : Nat) : ChunkWriter :=
  { writer with
    next_chunk_index := writer.next_chunk_index + whole_chunk_count
    committed_len := writer.committed_len + whole_chunk_count * CHUNK_SIZE }

/-- Stores a filled buffer as the next chunk. -/
def flush_full_buffer (writer : ChunkWriter) (chunk : Bytes) : Task ChunkWriter := do
  Task.call (.upsert_chunk writer.generation_id writer.next_chunk_index chunk)
  return { writer with
    next_chunk_index := writer.next_chunk_index + 1
    committed_len := writer.committed_len + CHUNK_SIZE
    buffer := []
    partial_buffer := by decide }

def quota_message (max_file_bytes : Nat) : Text :=
  "file would exceed the workspace's ".toList ++ decimal max_file_bytes ++ "-byte file quota".toList

/-- The loop of `write_bytes`; every round takes at least one byte. -/
def write_rounds : Nat → ChunkWriter → Bytes → Task ChunkWriter
  | 0, writer, _ => pure writer
  | rounds + 1, writer, bytes =>
    if bytes = [] then pure writer
    else
      let space := CHUNK_SIZE - writer.buffer.length
      let take := min space bytes.length
      let buffer := writer.buffer ++ bytes.take take
      if writer.max_file_bytes < writer.committed_len + buffer.length then
        throw (FsError.quota_exceeded (quota_message writer.max_file_bytes))
      else if hpartial : buffer.length < CHUNK_SIZE then
        write_rounds rounds { writer with buffer, partial_buffer := hpartial } (bytes.drop take)
      else do
        let writer ← writer.flush_full_buffer buffer
        write_rounds rounds writer (bytes.drop take)

def write_bytes (writer : ChunkWriter) (bytes : Bytes) : Task ChunkWriter :=
  write_rounds bytes.length writer bytes

/-- Flushes any remaining partial buffer as the final chunk and returns the
generation and the total length written. -/
def finish (writer : ChunkWriter) : Task (GenerationId × Nat) :=
  if writer.buffer = [] then pure (writer.generation_id, writer.committed_len)
  else do
    Task.call (.upsert_chunk writer.generation_id writer.next_chunk_index writer.buffer)
    return (writer.generation_id, writer.committed_len + writer.buffer.length)

def abort (writer : ChunkWriter) : Task Unit :=
  Task.call_ignored (.delete_generation writer.generation_id)

/-- Runs a step of the writer; if it fails, the writer is aborted and the error
returned. -/
def or_abort (writer : ChunkWriter) (step : Task ChunkWriter) : Task ChunkWriter :=
  tryCatch step (fun err => do writer.abort; throw err)

/-- Copies `[0, upto)` of `old_generation` verbatim into this writer. -/
def copy_prefix_from (writer : ChunkWriter) (old_generation : GenerationId) (upto : Nat) :
    Task ChunkWriter :=
  if upto = 0 then pure writer
  else do
    let whole_chunks := chunk_index_of upto
    let writer ← if 0 < whole_chunks then do
        Task.call (.copy_chunk_range old_generation writer.generation_id 0 whole_chunks)
        pure (writer.skip_committed_chunks whole_chunks)
      else pure writer
    let remainder := chunk_local_offset upto
    if 0 < remainder then do
      let bytes ← Task.call (.fetch_chunk_bytes old_generation whole_chunks)
      writer.write_bytes (bytes.take (min remainder bytes.length))
    else pure writer

/-- The part of a fetched chunk that lies in `[from_, to_)`. -/
def clip (from_ to_ index : Nat) (bytes : Bytes) : Bytes :=
  let kept := if index = chunk_index_of (to_ - 1) then
      bytes.take (min (chunk_local_offset (to_ - 1) + 1) bytes.length)
    else bytes
  if index = chunk_index_of from_ then kept.drop
    (min (chunk_local_offset from_) kept.length) else kept

/-- The loop of `copy_suffix_from` over the chunk indices that are left. -/
def copy_chunks (old_generation : GenerationId) (from_ to_ : Nat) :
    List Nat → ChunkWriter → Task ChunkWriter
  | [], writer => pure writer
  | index :: rest, writer => do
    let bytes ← Task.call (.fetch_chunk_bytes old_generation index)
    let writer ← writer.write_bytes (clip from_ to_ index bytes)
    copy_chunks old_generation from_ to_ rest writer

/-- Copies `[from, to)` of `old_generation` verbatim into this writer. -/
def copy_suffix_from (writer : ChunkWriter) (old_generation : GenerationId) (from_ to_ : Nat) :
    Task ChunkWriter :=
  if to_ ≤ from_ then pure writer
  else
    let start_chunk := chunk_index_of from_
    let end_chunk := chunk_index_of (to_ - 1)
    copy_chunks old_generation from_ to_
      (List.range' start_chunk (end_chunk + 1 - start_chunk)) writer

/-- The loop of `zero_fill`; every round writes at least one byte. -/
def zero_rounds : Nat → ChunkWriter → Nat → Task ChunkWriter
  | 0, writer, _ => pure writer
  | rounds + 1, writer, remaining =>
    if remaining = 0 then pure writer
    else do
      let piece := min remaining CHUNK_SIZE
      let writer ← writer.write_bytes (List.replicate piece 0)
      zero_rounds rounds writer (remaining - piece)

/-- Writes `len` zero bytes in bounded-size pieces. -/
def zero_fill (writer : ChunkWriter) (len : Nat) : Task ChunkWriter := zero_rounds len writer len

/-- The loop that consumes a byte source, aborting at its first error. -/
def ingest : WriteSource → ChunkWriter → Task ChunkWriter
  | [], writer => pure writer
  | .ok bytes :: rest, writer => do
    let writer ← writer.or_abort (writer.write_bytes bytes)
    ingest rest writer
  | .error err :: _, writer => do
    writer.abort
    throw err

end ChunkWriter

def stage_source (generation_id : GenerationId) (max_file_bytes : Nat) (source : WriteSource) :
    Task (GenerationId × Nat) := do
  let writer ← ChunkWriter.ingest source (ChunkWriter.new generation_id max_file_bytes)
  writer.finish

def delete_generation_async (generation_id : GenerationId) : Task Unit :=
  Task.call_ignored (.delete_generation generation_id)

def finalize (ws : WorkspaceId) (path : VirtualPath) (new_generation_id : GenerationId)
    (new_length : Nat) (params : FinalizeParams) (actor_json : Text) : Task Node := do
  let outcome ← tryCatch (Task.call
    (.finalize ws path new_generation_id new_length params actor_json))
    (fun err => do
      delete_generation_async new_generation_id
      throw err)
  match outcome with
  | .Applied row => Task.ofResult row.into_node
  | .NotFound => do
    delete_generation_async new_generation_id
    throw (FsError.not_found path.as_str)
  | .WrongNodeType => do
    delete_generation_async new_generation_id
    throw (FsError.wrong_node_type path.as_str)
  | .RevisionConflict => do
    delete_generation_async new_generation_id
    throw (FsError.revision_conflict path.as_str)

/-- The quota of the workspace, which must exist. -/
def max_file_bytes (ws : WorkspaceId) : Task Nat := do
  match ← Task.call (.fetch_max_file_bytes ws) with
  | some limit => return limit
  | none => throw (FsError.not_found (uuid_text ws))

def start_new_generation (ws : WorkspaceId) : Task GenerationId := Task.call (.create_generation ws)

def write (ws : WorkspaceId) (path : VirtualPath) (source : WriteSource) (options : WriteOptions)
    (actor_json : Text) :
    Task Node := do
  let max_file_bytes ← max_file_bytes ws
  let generation_id ← start_new_generation ws
  let (generation_id, length) ← stage_source generation_id max_file_bytes source
  finalize ws path generation_id length ⟨options.create, options.expected_revision⟩ actor_json

def resolve_existing_file (ws : WorkspaceId) (path : VirtualPath) : Task (Option RawNode) := do
  match ← Task.call (.resolve ws path) with
  | some node => if node.kind = .File then return some node else throw (FsError.wrong_node_type path.as_str)
  | none => return none

/-- The part of `write_at_impl` that fills the staged generation. -/
def rewrite (writer : ChunkWriter) (old_generation_id : Option GenerationId)
    (old_length offset : Nat) (source : WriteSource) (preserve_old_suffix : Bool) :
    Task ChunkWriter := do
  let writer ← match old_generation_id with
    | some old => writer.or_abort (writer.copy_prefix_from old (min offset old_length))
    | none => pure writer
  let writer ← if old_length < offset then writer.or_abort (writer.zero_fill (offset - old_length)) else pure writer
  let writer ← ChunkWriter.ingest source writer
  let new_data_end := writer.total_len
  if preserve_old_suffix ∧ new_data_end < old_length then do
    let old ← Task.expect old_generation_id
    writer.or_abort (writer.copy_suffix_from old new_data_end old_length)
  else pure writer

/-- `source` is empty where the code passes `None`. -/
def write_at_impl (ws : WorkspaceId) (path : VirtualPath) (offset : Nat) (source : WriteSource)
    (create : Bool) (expected_revision : Option Revision) (actor_json : Text)
    (preserve_old_suffix : Bool) : Task Node := do
  let existing ← resolve_existing_file ws path
  if existing.isNone ∧ !create then throw (FsError.not_found path.as_str)
  else do
    let old_length := (existing.map RawNode.size).getD 0
    let old_generation_id := existing.bind RawNode.content_generation_id
    let max_file_bytes ← max_file_bytes ws
    let generation_id ← start_new_generation ws
    let writer ← rewrite (ChunkWriter.new generation_id max_file_bytes) old_generation_id old_length offset source
      preserve_old_suffix
    let (generation_id, length) ← writer.finish
    finalize ws path generation_id length ⟨create, expected_revision⟩ actor_json

def write_at (ws : WorkspaceId) (path : VirtualPath) (offset : Nat) (source : WriteSource)
    (options : WriteOptions) (actor_json : Text) : Task Node :=
  write_at_impl ws path offset source options.create options.expected_revision actor_json true

def append (ws : WorkspaceId) (path : VirtualPath) (source : WriteSource) (options : WriteOptions)
    (actor_json : Text) :
    Task Node := do
  let existing ← resolve_existing_file ws path
  let offset := (existing.map RawNode.size).getD 0
  write_at_impl ws path offset source options.create options.expected_revision actor_json true

def truncate (ws : WorkspaceId) (path : VirtualPath) (length : Nat) (options : MutationOptions)
    (actor_json : Text) :
    Task Node :=
  write_at_impl ws path length [] false options.expected_revision actor_json false

end fslite.content
