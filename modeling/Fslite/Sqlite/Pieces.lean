import Fslite.Atomicity
import Fslite.Sqlite.FileSystem

namespace fslite.content

namespace ChunkWriter

/-- A single byte is taken in. -/
def push (writer : ChunkWriter) (byte : UInt8) : Task ChunkWriter :=
  if writer.max_file_bytes < writer.committed_len + (writer.buffer ++ [byte]).length then
    throw (FsError.quota_exceeded (quota_message writer.max_file_bytes))
  else if hpartial : (writer.buffer ++ [byte]).length < CHUNK_SIZE then
    pure { writer with buffer := writer.buffer ++ [byte], partial_buffer := hpartial }
  else writer.flush_full_buffer (writer.buffer ++ [byte])

/-- Bytes that have room in the buffer are taken in at once. -/
theorem push_all {piece : Bytes} (hne : piece ≠ []) (writer : ChunkWriter)
    (hroom : (writer.buffer ++ piece).length ≤ CHUNK_SIZE) :
    piece.foldlM push writer =
      if writer.max_file_bytes < writer.committed_len + (writer.buffer ++ piece).length then
        throw (FsError.quota_exceeded (quota_message writer.max_file_bytes))
      else if hpartial : (writer.buffer ++ piece).length < CHUNK_SIZE then
        pure { writer with buffer := writer.buffer ++ piece, partial_buffer := hpartial }
      else writer.flush_full_buffer (writer.buffer ++ piece) := by
  induction piece generalizing writer with
  | nil => exact absurd rfl hne
  | cons byte rest ih =>
    rw [List.foldlM_cons]
    by_cases hlast : rest = []
    · subst hlast
      exact bind_pure _
    · have hpositive := List.length_pos_iff.mpr hlast
      have hlength : (writer.buffer ++ byte :: rest).length =
          (writer.buffer ++ [byte]).length + rest.length := by
        simp only [List.length_append, List.length_cons, List.length_nil]
        omega
      have hpartial : (writer.buffer ++ [byte]).length < CHUNK_SIZE := by omega
      rw [push]
      by_cases hexceeds :
          writer.max_file_bytes < writer.committed_len + (writer.buffer ++ [byte]).length
      · rw [if_pos hexceeds, if_pos (by omega)]
        rfl
      · rw [if_neg hexceeds, dif_pos hpartial, pure_bind, ih hlast]
        · simp only [List.append_assoc, List.cons_append, List.nil_append]
          rfl
        · simp only [List.append_assoc, List.cons_append, List.nil_append]
          exact hroom

/-- The loop of `write_bytes` takes the bytes in one by one. -/
theorem write_rounds_eq {rounds : Nat} {writer : ChunkWriter} {bytes : Bytes}
    (hrounds : bytes.length ≤ rounds) :
    write_rounds rounds writer bytes = bytes.foldlM push writer := by
  induction rounds generalizing writer bytes with
  | zero =>
    obtain rfl := List.length_eq_zero_iff.mp (Nat.le_zero.mp hrounds)
    rfl
  | succ rounds ih =>
    unfold write_rounds
    by_cases hnil : bytes = []
    · subst hnil
      rfl
    · have hpositive := List.length_pos_iff.mpr hnil
      have hpartial := writer.partial_buffer
      rw [if_neg hnil]
      simp only
      generalize htake : min (CHUNK_SIZE - writer.buffer.length) bytes.length = take
      have hpiece : bytes.take take ≠ [] := by
        rw [← List.length_pos_iff, List.length_take]
        omega
      have hroom : (writer.buffer ++ bytes.take take).length ≤ CHUNK_SIZE := by
        rw [List.length_append, List.length_take]
        omega
      have hrest : ∀ writer', write_rounds rounds writer' (bytes.drop take) =
          (bytes.drop take).foldlM push writer' := by
        refine fun writer' => ih ?_
        rw [List.length_drop]
        omega
      conv_rhs => rw [← List.take_append_drop take bytes, List.foldlM_append,
        push_all hpiece writer hroom]
      simp only [hrest]
      split
      · rfl
      · split
        · rw [pure_bind]
        · rfl

theorem write_bytes_eq (writer : ChunkWriter) (bytes : Bytes) :
    writer.write_bytes bytes = bytes.foldlM push writer := write_rounds_eq (le_refl _)

theorem write_bytes_append (writer : ChunkWriter) (a b : Bytes) :
    writer.write_bytes (a ++ b) = writer.write_bytes a >>= (·.write_bytes b) := by
  simp only [write_bytes_eq, List.foldlM_append]

/-- Taking bytes in, a writer keeps its generation. -/
theorem push_generation (writer : ChunkWriter) (byte : UInt8) :
    Failing.Ends (fun writer' => writer'.generation_id = writer.generation_id)
      (writer.push byte) := by
  unfold push
  split
  · exact Failing.Ends.throw
  · split
    · exact Failing.Ends.pure rfl
    · intro r
      cases r with
      | ok _ => exact Failing.Ends.pure rfl
      | error err => exact Failing.Ends.throw

theorem write_bytes_generation (writer : ChunkWriter) (bytes : Bytes) :
    Failing.Ends (fun writer' => writer'.generation_id = writer.generation_id)
      (writer.write_bytes bytes) := by
  rw [write_bytes_eq]
  induction bytes generalizing writer with
  | nil => exact Failing.Ends.pure rfl
  | cons byte rest ih =>
    rw [List.foldlM_cons]
    exact Failing.Ends.bind (push_generation writer byte) (fun writer' hsame => hsame ▸ ih writer')

/-- Steps that keep the generation are aborted one by one as they are together. -/
theorem or_abort_bind {writer : ChunkWriter} {step : Task ChunkWriter}
    {rest : ChunkWriter → Task ChunkWriter}
    (h : Failing.Ends (fun writer' => writer'.generation_id = writer.generation_id) step) :
    writer.or_abort (step >>= rest) =
      writer.or_abort step >>= fun writer' => writer'.or_abort (rest writer') := by
  have hprog : ∀ p : Prog DbCall.Res (FsResult ChunkWriter),
      p.Ends (fun r => ∀ writer', r = .ok writer' →
        writer'.generation_id = writer.generation_id) →
      writer.or_abort ((ExceptT.mk p : Task ChunkWriter) >>= rest) =
        writer.or_abort (ExceptT.mk p) >>= fun writer' => writer'.or_abort (rest writer') := by
    intro p
    induction p with
    | ret result =>
      intro hend
      cases result with
      | ok writer' =>
        have hsame := hend writer' rfl
        show writer.or_abort (rest writer') = writer'.or_abort (rest writer')
        unfold or_abort abort
        rw [hsame]
      | error err => rfl
    | call o next ih => exact fun hend => congrArg (Prog.call o) (funext (fun r => ih r (hend r)))
  exact hprog step.run h

/-- The bytes of a source are taken in alike in whatever pieces they come. -/
theorem ingest_pieces (pieces : List Bytes) (writer : ChunkWriter) :
    ingest (pieces.map .ok) writer = writer.or_abort (writer.write_bytes pieces.flatten) := by
  induction pieces generalizing writer with
  | nil => rfl
  | cons piece rest ih =>
    show writer.or_abort (writer.write_bytes piece) >>= ingest (rest.map .ok) = _
    rw [List.flatten_cons, write_bytes_append,
      or_abort_bind (write_bytes_generation writer piece)]
    exact congrArg _ (funext ih)

theorem ingest_whole (pieces : List Bytes) (writer : ChunkWriter) :
    ingest (pieces.map .ok) writer = ingest [.ok pieces.flatten] writer :=
  (ingest_pieces pieces writer).trans (by
    rw [show ([.ok pieces.flatten] : WriteSource) = [pieces.flatten].map .ok from rfl,
      ingest_pieces, List.flatten_singleton])

end ChunkWriter

section methods

variable {ws : WorkspaceId} {path : VirtualPath} {options : WriteOptions} {actor_json : Text}

theorem write_whole (pieces : List Bytes) :
    write ws path (pieces.map .ok) options actor_json =
      write ws path [.ok pieces.flatten] options actor_json := by
  unfold write stage_source
  simp only [ChunkWriter.ingest_whole pieces]

theorem write_at_impl_whole (pieces : List Bytes) {offset : Nat} {create : Bool}
    {expected_revision : Option Revision} {preserve_old_suffix : Bool} :
    write_at_impl ws path offset (pieces.map .ok) create expected_revision actor_json
      preserve_old_suffix =
    write_at_impl ws path offset [.ok pieces.flatten] create expected_revision actor_json
      preserve_old_suffix := by
  unfold write_at_impl rewrite
  simp only [ChunkWriter.ingest_whole pieces]

theorem append_whole (pieces : List Bytes) :
    append ws path (pieces.map .ok) options actor_json =
      append ws path [.ok pieces.flatten] options actor_json := by
  unfold append
  simp only [write_at_impl_whole pieces]

end methods

end fslite.content

namespace fslite.SqliteFileSystem

variable {rt : Runtime} {ctx : RequestContext} {path : VirtualPath} {options : WriteOptions}

theorem write_whole (pieces : List Bytes) :
    write rt ctx path (pieces.map .ok) options =
      write rt ctx path [.ok pieces.flatten] options := by
  unfold write
  rw [content.write_whole]

theorem write_at_whole (offset : Nat) (pieces : List Bytes) :
    write_at rt ctx path offset (pieces.map .ok) options =
      write_at rt ctx path offset [.ok pieces.flatten] options := by
  unfold write_at content.write_at
  rw [content.write_at_impl_whole]

theorem append_whole (pieces : List Bytes) :
    append rt ctx path (pieces.map .ok) options =
      append rt ctx path [.ok pieces.flatten] options := by
  unfold append
  rw [content.append_whole]

end fslite.SqliteFileSystem
