import Fslite.Pieces
import Fslite.Sqlite.Download

namespace fslite.content

theorem chunk_size_pos : 0 < CHUNK_SIZE := by decide

/-- A clipped chunk is the chunk of the bytes up to the end of the range, cut at
the start of the range. -/
theorem clip_piece {from_ to_ index : Nat} (bytes : Bytes) (hto : 0 < to_)
    (hindex : index ≤ chunk_index_of (to_ - 1)) :
    ChunkWriter.clip from_ to_ index (piece CHUNK_SIZE bytes index) =
      if index = from_ / CHUNK_SIZE then (piece CHUNK_SIZE (bytes.take to_) index).drop
        (from_ % CHUNK_SIZE)
      else piece CHUNK_SIZE (bytes.take to_) index := by
  have hmin : ∀ (l : Bytes) (n : Nat), l.take (min n l.length) = l.take n := by
    intro l n
    rw [← List.take_take, List.take_length]
  have hmin' : ∀ (l : Bytes) (n : Nat), l.drop (min n l.length) = l.drop n := by
    intro l n
    by_cases h : n ≤ l.length
    · rw [Nat.min_eq_left h]
    · rw [Nat.min_eq_right (by omega), List.drop_length, List.drop_of_length_le (by omega)]
  rw [piece_take chunk_size_pos bytes hto hindex]
  simp only [ChunkWriter.clip, hmin, hmin', chunk_index_of, chunk_local_offset]

/-- The clipped chunks of a range, put together, are the bytes of the range. -/
theorem flatMap_clip {from_ to_ : Nat} {bytes : Bytes} (hfrom : from_ < to_)
    (hto : to_ ≤ bytes.length) :
    (List.range' (chunk_index_of from_)
    (chunk_index_of (to_ - 1) + 1 - chunk_index_of from_)).flatMap
      (fun index => ChunkWriter.clip from_ to_ index (piece CHUNK_SIZE bytes index)) =
    (bytes.take to_).drop from_ := by
  rw [← flatMap_slice chunk_size_pos hfrom hto]
  apply List.flatMap_congr
  intro index hindex
  rw [List.mem_range'_1] at hindex
  exact clip_piece bytes (by omega) (by omega)

end fslite.content
