import Fslite.Sqlite.Upload

namespace fslite.content

structure ChunkRangeState where
  generation_id : GenerationId
  current_chunk : Nat
  end_chunk : Nat
  start : Nat
  end_ : Nat
  done : Bool

/-- The outcome of opening a file for reading; no stream stands for the empty one. -/
structure FileRead where
  logical_length : Nat
  revision : Revision
  range : ByteRange
  stream : Option ChunkRangeState

def chunk_range_stream (generation_id : GenerationId) (start end_ : Nat) : ChunkRangeState where
  generation_id := generation_id
  current_chunk := chunk_index_of start
  end_chunk := chunk_index_of (end_ - 1)
  start := start
  end_ := end_
  done := false

/-- One poll of the stream. -/
def ChunkRangeState.next (state : ChunkRangeState) :
    Prog DbCall.Res (Option (FsResult Bytes × ChunkRangeState)) :=
  if state.done ∨ state.end_chunk < state.current_chunk then pure none
  else do
    let index := state.current_chunk
    let result ← Prog.perform (DbCall.fetch_chunk_bytes state.generation_id index)
    let state := { state with current_chunk := state.current_chunk + 1 }
    match result with
    | .ok bytes => return some (.ok (ChunkWriter.clip state.start state.end_ index bytes), state)
    | .error err => return some (.error err, { state with done := true })

def read (ws : WorkspaceId) (path : VirtualPath) (options : ReadOptions) : Task FileRead := do
  match ← Task.call (.resolve ws path) with
  | none => throw (FsError.not_found path.as_str)
  | some node =>
    if node.kind ≠ .File then throw (FsError.wrong_node_type path.as_str)
    else do
      let logical_size := node.size
      match Revision.new node.revision with
      | none => throw (FsError.internal_storage_failure "stored revision was zero".toList)
      | some revision => do
        let requested := options.range.getD ⟨0, logical_size⟩
        if logical_size < requested.start then throw (FsError.invalid_range path.as_str)
        else do
          let start := requested.start
          let end_ := min requested.end_ logical_size
          let stream ← if end_ ≤ start then pure none
            else do
              let generation_id ← Task.expect node.content_generation_id
              pure (some (chunk_range_stream generation_id start end_))
          return { logical_length := logical_size, revision, range := ⟨start, end_⟩, stream }

/-- Polls a stream to its end; every poll but the last advances it by a chunk. -/
def ChunkRangeState.drain : Nat → ChunkRangeState → Prog DbCall.Res (List (FsResult Bytes))
  | 0, _ => pure []
  | polls + 1, state => do
    match ← state.next with
    | none => return []
    | some (item, state) => do
      let items ← drain polls state
      return item :: items

/-- All items of the stream of a file opened for reading. -/
def FileRead.into_stream (file : FileRead) : Prog DbCall.Res (List (FsResult Bytes)) :=
  match file.stream with
  | none => pure []
  | some state => state.drain (state.end_chunk + 2 - state.current_chunk)

end fslite.content
