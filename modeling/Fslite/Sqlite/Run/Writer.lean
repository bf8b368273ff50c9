import Fslite.Sqlite.Run.Staging

namespace fslite

open content

/-- The bytes a source yields before it ends or fails. -/
def source_bytes : WriteSource → Bytes
  | [] => []
  | .ok bytes :: rest => bytes ++ source_bytes rest
  | .error _ :: _ => []

/-- The bytes from `offset` on replaced, with zeros up to there if the old ones
do not reach that far. -/
def splice (old : Bytes) (offset : Nat) (data : Bytes) (preserve_old_suffix : Bool) : Bytes :=
  old.take offset ++ List.replicate (offset - old.length) 0 ++ data ++
    if preserve_old_suffix then old.drop (offset + data.length) else []

/-- Writing at the end appends. -/
theorem splice_end (old data : Bytes) : splice old old.length data true = old ++ data := by
  unfold splice
  rw [if_pos rfl, List.take_length, Nat.sub_self, List.replicate_zero, List.append_nil,
    List.drop_of_length_le (Nat.le_add_right _ _), List.append_nil]

/-- The writer has stored `front` in whole chunks. -/
structure Stored (writer : ChunkWriter) (g : GenerationId) (limit : Nat) (front : Bytes) :
    Prop where
  generation : writer.generation_id = g
  limit : writer.max_file_bytes = limit
  committed : front.length = writer.committed_len
  aligned : writer.committed_len = writer.next_chunk_index * CHUNK_SIZE

theorem Stored.new (g : GenerationId) (limit : Nat) : Stored (ChunkWriter.new g limit) g limit [] :=
  ⟨rfl, rfl, rfl, by simp [ChunkWriter.new]⟩

theorem Stored.total_len {writer : ChunkWriter} {g : GenerationId} {limit : Nat} {front : Bytes}
    (h : Stored writer g limit front) : writer.total_len = (front ++ writer.buffer).length := by
  rw [ChunkWriter.total_len, List.length_append, h.committed]

namespace Session

variable {σ : Session} {g : GenerationId} {limit : Nat} {front bytes : Bytes} {writer : ChunkWriter}

/-- The writer works on the staged generation, and what it has taken in so far
is as described. -/
def Holds (σ : Session) (g : GenerationId) (limit : Nat) (good : Bytes → Prop)
    (writer : ChunkWriter) (t : Option GenerationId) (w : World) : Prop :=
  t = some g ∧ ∃ front, (Stored writer g limit front ∧ good (front ++ writer.buffer)) ∧
    σ.Staging g front w

/-- The staged generation is still there after a failure. -/
def Interrupted (σ : Session) (g : GenerationId) (t : Option GenerationId) (w : World) : Prop :=
  t = some g ∧ ∃ front, σ.Staging g front w

/-- A method that runs alone has left nothing behind. -/
def Undone (σ : Session) (w : World) : Prop := σ.alone → w.db = σ.before

theorem Runs.of_holds {A : Type} {good : Bytes → Prop} {t : Option GenerationId} {p : Task A}
    {Q : A → Option GenerationId → World → Prop} {R : FsError → Option GenerationId → World → Prop}
    (h : ∀ front, Stored writer g limit front → good (front ++ writer.buffer) →
    σ.Runs (some g) (σ.Staging g front) p Q R) :
    σ.Runs t (σ.Holds g limit good writer t) p Q R := by
  refine Runs.of_fact (fun ht => ?_)
  subst ht
  exact Runs.of_exists (fun front => Runs.of_fact (fun hfact => h front hfact.1 hfact.2))

theorem Runs.of_interrupted {A : Type} {t : Option GenerationId} {p : Task A}
    {Q : A → Option GenerationId → World → Prop} {R : FsError → Option GenerationId → World → Prop}
    (h : ∀ front, σ.Runs (some g) (σ.Staging g front) p Q R) :
    σ.Runs t (σ.Interrupted g t) p Q R := by
  refine Runs.of_fact (fun ht => ?_)
  subst ht
  exact Runs.of_exists h

/-- Storing a filled buffer as the next chunk. -/
theorem flush_full_buffer {chunk : Bytes} (hstored : Stored writer g limit front)
    (hlength : chunk.length = CHUNK_SIZE) :
    σ.Runs (some g) (σ.Staging g front) (writer.flush_full_buffer chunk)
      (fun writer' t w => t = some g ∧
      (Stored writer' g limit (front ++ chunk) ∧ writer'.buffer = []) ∧
        σ.Staging g (front ++ chunk) w) (fun _ t w => σ.Interrupted g t w) := by
  have hne : chunk ≠ [] := by
    rintro rfl
    exact absurd hlength (Nat.ne_of_lt chunk_size_pos)
  unfold ChunkWriter.flush_full_buffer
  rw [hstored.generation]
  refine Runs.bind ((upsert_chunk (hstored.committed.trans hstored.aligned) hne
    (le_of_eq hlength)).post
    (fun _ _ _ hQ => hQ) (fun _ _ _ hR => ⟨hR.2.1, front, hR.2.2⟩)) (fun _ t => ?_)
  refine Runs.pure (fun w _ hw => ⟨hw.1, ⟨⟨rfl, hstored.limit, ?_, ?_⟩, rfl⟩, hw.2⟩)
  · rw [List.length_append, hstored.committed, hlength]
  · simp only [hstored.aligned, Nat.succ_mul]

/-- The loop of `write_bytes` takes in all bytes. -/
theorem write_rounds {rounds : Nat} {bytes : Bytes} (hrounds : bytes.length ≤ rounds)
    {writer : ChunkWriter} {front : Bytes} (hstored : Stored writer g limit front) :
    σ.Runs (some g) (σ.Staging g front) (ChunkWriter.write_rounds rounds writer bytes)
      (σ.Holds g limit (fun data => data = front ++ writer.buffer ++ bytes))
      (fun _ t w => σ.Interrupted g t w) := by
  induction rounds generalizing writer bytes front with
  | zero =>
    have hnil : bytes = [] := List.length_eq_zero_iff.mp (by omega)
    subst hnil
    exact Runs.pure (fun w _ hw => ⟨rfl, front, ⟨hstored, by simp⟩, hw⟩)
  | succ rounds ih =>
    unfold ChunkWriter.write_rounds
    split
    · rename_i hnil
      subst hnil
      exact Runs.pure (fun w _ hw => ⟨rfl, front, ⟨hstored, by simp⟩, hw⟩)
    · rename_i hne
      have hpos : 0 < bytes.length := List.length_pos_iff.mpr hne
      have hspace := writer.partial_buffer
      have hrest : (bytes.drop (min (CHUNK_SIZE - writer.buffer.length) bytes.length)).length ≤
          rounds := by
        rw [List.length_drop]
        omega
      simp only
      split
      · exact Runs.throw (fun w _ hw => ⟨rfl, front, hw⟩)
      · split
        · rename_i hpartial
          have hnext : Stored
            { writer with buffer := _, partial_buffer := hpartial } g limit front :=
            ⟨hstored.generation, hstored.limit, hstored.committed, hstored.aligned⟩
          refine (ih hrest hnext).post ?_ (fun _ _ _ hR => hR)
          rintro writer' t w ⟨ht, front', ⟨hstored', hdata⟩, hw⟩
          refine ⟨ht, front', ⟨hstored', hdata.trans ?_⟩, hw⟩
          rw [← List.append_assoc, List.append_assoc (front ++ writer.buffer),
            List.take_append_drop]
        · rename_i hfull
          rw [List.length_append, List.length_take] at hfull
          refine Runs.bind (flush_full_buffer hstored ?_)
            (fun writer' t => Runs.of_fact (fun ht => ?_))
          · rw [List.length_append, List.length_take]
            omega
          · subst ht
            refine Runs.of_fact (fun hwriter => (ih hrest hwriter.1).post ?_ (fun _ _ _ hR => hR))
            rintro writer'' t w ⟨ht, front', ⟨hstored', hdata⟩, hw⟩
            refine ⟨ht, front', ⟨hstored', hdata.trans ?_⟩, hw⟩
            rw [hwriter.2, List.append_nil, ← List.append_assoc,
              List.append_assoc (front ++ writer.buffer),
              List.take_append_drop]

theorem write_bytes (hstored : Stored writer g limit front) :
    σ.Runs (some g) (σ.Staging g front) (writer.write_bytes bytes)
      (σ.Holds g limit (fun data => data = front ++ writer.buffer ++ bytes))
      (fun _ t w => σ.Interrupted g t w) :=
  write_rounds (le_refl _) hstored

/-- Flushing what is left. -/
theorem finish (hstored : Stored writer g limit front) :
    σ.Runs (some g) (σ.Staging g front) writer.finish
      (fun result t w => t = some g ∧ (result.1 = g ∧ result.2 = (front ++ writer.buffer).length) ∧
        σ.Staging g (front ++ writer.buffer) w) (fun _ _ w => σ.Undone w) := by
  unfold ChunkWriter.finish
  split
  · rename_i hnil
    refine Runs.pure (fun w _ hw => ⟨rfl, ⟨hstored.generation, ?_⟩, ?_⟩)
    · rw [hnil, List.append_nil, hstored.committed]
    · rwa [hnil, List.append_nil]
  · rename_i hne
    rw [hstored.generation]
    refine Runs.bind ((upsert_chunk (hstored.committed.trans hstored.aligned) hne
      (le_of_lt writer.partial_buffer)).post
      (fun _ _ _ hQ => hQ) (fun _ _ _ hR halone => absurd halone hR.1)) (fun _ t => ?_)
    refine Runs.pure (fun w _ hw => ⟨hw.1, ⟨rfl, ?_⟩, hw.2⟩)
    rw [List.length_append, hstored.committed]

/-- A failed step of the writer leaves nothing behind. -/
theorem or_abort {step : Task ChunkWriter} {Q : ChunkWriter → Option GenerationId → World → Prop}
    (hgeneration : writer.generation_id = g)
    (h : σ.Runs (some g) (σ.Staging g front) step Q (fun _ t w => σ.Interrupted g t w)) :
    σ.Runs (some g) (σ.Staging g front) (writer.or_abort step) Q (fun _ _ w => σ.Undone w) := by
  refine Runs.tryCatch h (fun e t => Runs.of_interrupted (fun front' => ?_))
  unfold ChunkWriter.abort
  rw [hgeneration]
  exact Runs.bind delete_generation (fun _ t' => Runs.throw (fun w _ hw => hw.2))

/-- Copying the part of a prefix that is no whole chunk. -/
theorem copy_remainder {old : GenerationId} {kept : Bytes} {upto : Nat}
    (hold : σ.old = some (old, kept)) (hstored : Stored writer g limit front)
    (hdata : front ++ writer.buffer = kept.take (chunk_index_of upto * CHUNK_SIZE)) :
    σ.Runs (some g) (σ.Staging g front)
      (if 0 < chunk_local_offset upto then do
        let bytes ← Task.call (.fetch_chunk_bytes old (chunk_index_of upto))
        writer.write_bytes (bytes.take (min (chunk_local_offset upto) bytes.length))
      else pure writer)
      (σ.Holds g limit (fun data => σ.alone → σ.policy.laid → data = kept.take upto))
      (fun _ t w => σ.Interrupted g t w) := by
  have hdiv := Nat.div_add_mod upto CHUNK_SIZE
  rw [Nat.mul_comm] at hdiv
  split
  · refine Runs.bind (fetch_chunk_bytes hold)
      (fun chunk t => Runs.of_fact (fun ht => Runs.of_fact (fun hchunk => ?_)))
    subst ht
    refine (write_bytes hstored).post ?_ (fun _ _ _ hR => hR)
    rintro writer' t w ⟨ht, front', ⟨hstored', hdata'⟩, hw⟩
    refine ⟨ht, front', ⟨hstored', fun halone hlaid => ?_⟩, hw⟩
    rw [hdata', hdata, hchunk halone hlaid, ← List.take_take, List.take_length, piece,
      List.take_take]
    have hmod := Nat.mod_lt upto chunk_size_pos
    unfold chunk_local_offset chunk_index_of
    rw [Nat.min_eq_left (le_of_lt hmod), ← List.take_add, hdiv]
  · rename_i hnone
    refine Runs.pure (fun w _ hw => ⟨rfl, front, ⟨hstored, fun _ _ => hdata.trans ?_⟩, hw⟩)
    unfold chunk_local_offset at hnone
    rw [Nat.eq_zero_of_not_pos hnone, Nat.add_zero] at hdiv
    rw [chunk_index_of, hdiv]

/-- Copying a prefix of the old content. -/
theorem copy_prefix_from {old : GenerationId} {kept : Bytes} {upto : Nat}
    (hold : σ.old = some (old, kept)) (hupto : upto ≤ kept.length) (limit : Nat) :
    σ.Runs (some g) (σ.Staging g []) ((ChunkWriter.new g limit).copy_prefix_from old upto)
      (σ.Holds g limit (fun data => σ.alone → σ.policy.laid → data = kept.take upto))
      (fun _ t w => σ.Interrupted g t w) := by
  have hwhole : (kept.take (chunk_index_of upto * CHUNK_SIZE)).length =
      chunk_index_of upto * CHUNK_SIZE := by
    have hdiv := Nat.div_add_mod upto CHUNK_SIZE
    rw [Nat.mul_comm] at hdiv
    rw [List.length_take]
    unfold chunk_index_of
    omega
  unfold ChunkWriter.copy_prefix_from
  split
  · rename_i hzero
    exact Runs.pure (fun w _ hw =>
      ⟨rfl, [], ⟨Stored.new g limit, fun _ _ => by simp [hzero, ChunkWriter.new]⟩, hw⟩)
  · simp only
    split
    · refine Runs.bind ((copy_chunk_range hold).post (fun _ _ _ hQ => hQ)
        (fun _ _ _ hR => ⟨hR.1, [], hR.2⟩))
        (fun _ t => Runs.of_fact (fun ht => ?_))
      subst ht
      have hstored : Stored ((ChunkWriter.new g limit).skip_committed_chunks
        (chunk_index_of upto)) g limit
          (kept.take (chunk_index_of upto * CHUNK_SIZE)) := by
        refine ⟨rfl, rfl, ?_, ?_⟩
        · simp [hwhole, ChunkWriter.skip_committed_chunks, ChunkWriter.new]
        · simp [ChunkWriter.skip_committed_chunks, ChunkWriter.new]
      exact copy_remainder hold hstored (List.append_nil _)
    · rename_i hnone
      refine copy_remainder hold (Stored.new g limit) ?_
      simp [Nat.eq_zero_of_not_pos hnone, ChunkWriter.new]

/-- The loop of `copy_suffix_from` takes in the clipped chunks. -/
theorem copy_chunks {old : GenerationId} {kept : Bytes} {from_ to_ : Nat}
    (hold : σ.old = some (old, kept)) (indices : List Nat) {writer : ChunkWriter} {front : Bytes}
    (hstored : Stored writer g limit front) :
    σ.Runs (some g) (σ.Staging g front) (ChunkWriter.copy_chunks old from_ to_ indices writer)
      (σ.Holds g limit (fun data => σ.alone → σ.policy.laid → data = front ++ writer.buffer ++
        indices.flatMap (fun i => ChunkWriter.clip from_ to_ i (piece CHUNK_SIZE kept i))))
      (fun _ t w => σ.Interrupted g t w) := by
  induction indices generalizing writer front with
  | nil => exact Runs.pure (fun w _ hw => ⟨rfl, front, ⟨hstored, fun _ _ => by simp⟩, hw⟩)
  | cons index rest ih =>
    unfold ChunkWriter.copy_chunks
    refine Runs.bind (fetch_chunk_bytes hold)
      (fun chunk t => Runs.of_fact (fun ht => Runs.of_fact (fun hchunk => ?_)))
    subst ht
    refine Runs.bind (write_bytes hstored)
      (fun writer' t => Runs.of_holds (fun front' hstored' hdata => ?_))
    refine (ih hstored').post ?_ (fun _ _ _ hR => hR)
    rintro writer'' t w ⟨ht, front'', ⟨hstored'', hdata'⟩, hw⟩
    refine ⟨ht, front'', ⟨hstored'', fun halone hlaid => (hdata' halone hlaid).trans ?_⟩, hw⟩
    rw [hdata, hchunk halone hlaid, List.flatMap_cons, List.append_assoc (front ++ writer.buffer)]

/-- Copying the rest of the old content. -/
theorem copy_suffix_from {old : GenerationId} {kept : Bytes} {from_ : Nat}
    (hold : σ.old = some (old, kept)) (hfrom : from_ < kept.length)
    (hstored : Stored writer g limit front) :
    σ.Runs (some g) (σ.Staging g front) (writer.copy_suffix_from old from_ kept.length)
      (σ.Holds g limit (fun data => σ.alone → σ.policy.laid →
      data = front ++ writer.buffer ++ kept.drop from_))
      (fun _ t w => σ.Interrupted g t w) := by
  unfold ChunkWriter.copy_suffix_from
  rw [if_neg (by omega)]
  refine (copy_chunks hold _ hstored).post ?_ (fun _ _ _ hR => hR)
  rintro writer' t w ⟨ht, front', ⟨hstored', hdata⟩, hw⟩
  refine ⟨ht, front', ⟨hstored', fun halone hlaid => (hdata halone hlaid).trans ?_⟩, hw⟩
  rw [flatMap_clip hfrom (le_refl _), List.take_length]

/-- The loop of `zero_fill` takes in so many zeros. -/
theorem zero_rounds {rounds len : Nat} (hrounds : len ≤ rounds) {writer : ChunkWriter}
    {front : Bytes} (hstored : Stored writer g limit front) :
    σ.Runs (some g) (σ.Staging g front) (ChunkWriter.zero_rounds rounds writer len)
      (σ.Holds g limit (fun data => data = front ++ writer.buffer ++ List.replicate len 0))
      (fun _ t w => σ.Interrupted g t w) := by
  induction rounds generalizing writer len front with
  | zero =>
    obtain rfl : len = 0 := by omega
    exact Runs.pure (fun w _ hw => ⟨rfl, front, ⟨hstored, by simp⟩, hw⟩)
  | succ rounds ih =>
    unfold ChunkWriter.zero_rounds
    split
    · rename_i hzero
      exact Runs.pure (fun w _ hw => ⟨rfl, front, ⟨hstored, by simp [hzero]⟩, hw⟩)
    · have hpos := chunk_size_pos
      refine Runs.bind (write_bytes hstored)
        (fun writer' t => Runs.of_holds (fun front' hstored' hdata => ?_))
      have hrest : len - min len CHUNK_SIZE ≤ rounds := by omega
      refine (ih hrest hstored').post ?_ (fun _ _ _ hR => hR)
      rintro writer'' t w ⟨ht, front'', ⟨hstored'', hdata'⟩, hw⟩
      refine ⟨ht, front'', ⟨hstored'', hdata'.trans ?_⟩, hw⟩
      rw [hdata, List.append_assoc, List.replicate_append_replicate]
      congr 2
      omega

/-- Consuming a source takes in all bytes it yields, or undoes everything. -/
theorem ingest (source : WriteSource) {writer : ChunkWriter} {front : Bytes}
    (hstored : Stored writer g limit front) :
    σ.Runs (some g) (σ.Staging g front) (ChunkWriter.ingest source writer)
      (σ.Holds g limit (fun data => data = front ++ writer.buffer ++ source_bytes source))
      (fun _ _ w => σ.Undone w) := by
  induction source generalizing writer front with
  | nil => exact Runs.pure (fun w _ hw => ⟨rfl, front, ⟨hstored, by simp [source_bytes]⟩, hw⟩)
  | cons item rest ih =>
    cases item with
    | ok bytes =>
      unfold ChunkWriter.ingest
      refine Runs.bind (or_abort hstored.generation (write_bytes hstored)) (fun writer' t =>
        Runs.of_holds (fun front' hstored' hdata => ?_))
      refine (ih hstored').post ?_ (fun _ _ _ hR => hR)
      rintro writer'' t w ⟨ht, front'', ⟨hstored'', hdata'⟩, hw⟩
      refine ⟨ht, front'', ⟨hstored'', hdata'.trans ?_⟩, hw⟩
      rw [hdata, source_bytes, List.append_assoc]
    | error err =>
      unfold ChunkWriter.ingest ChunkWriter.abort
      rw [hstored.generation]
      exact Runs.bind delete_generation (fun _ t' => Runs.throw (fun w _ hw => hw.2))

section rewrite

variable {kept : Bytes} {old_generation_id : Option GenerationId} {offset : Nat}
  {preserve_old_suffix : Bool}

/-- The end of `rewrite`: the old bytes after the new ones. -/
theorem rewrite_suffix {data : Bytes}
    (hold : ∀ old, old_generation_id = some old → σ.old = some (old, kept))
    (hnone : old_generation_id = none → kept = []) (hstored : Stored writer g limit front)
    (hdata : σ.alone → σ.policy.laid →
      front ++ writer.buffer = kept.take offset ++ List.replicate
        (offset - kept.length) 0 ++ data) :
    σ.Runs (some g) (σ.Staging g front)
      (if preserve_old_suffix ∧ writer.total_len < kept.length then do
        let old ← Task.expect old_generation_id
        writer.or_abort (writer.copy_suffix_from old writer.total_len kept.length)
      else pure writer)
      (σ.Holds g limit (fun bytes => σ.alone → σ.policy.laid →
      bytes = splice kept offset data preserve_old_suffix))
      (fun _ _ w => σ.Undone w) := by
  have hend : σ.alone → σ.policy.laid → writer.total_len = offset + data.length := by
    intro halone hlaid
    rw [hstored.total_len, hdata halone hlaid]
    simp only [List.length_append, List.length_take, List.length_replicate]
    omega
  split
  · rename_i hmore
    cases hgen : old_generation_id with
    | none =>
      rw [hnone hgen] at hmore
      exact absurd hmore.2 (Nat.not_lt_zero _)
    | some old =>
      refine (or_abort hstored.generation
        (copy_suffix_from (hold old hgen) hmore.2 hstored)).post ?_ (fun _ _ _ hR => hR)
      rintro writer' t w ⟨ht, front', ⟨hstored', hdata'⟩, hw⟩
      refine ⟨ht, front', ⟨hstored', fun halone hlaid => (hdata' halone hlaid).trans ?_⟩, hw⟩
      rw [hdata halone hlaid, hend halone hlaid, splice, if_pos hmore.1]
  · rename_i hmore
    refine Runs.pure (fun w _ hw =>
      ⟨rfl, front, ⟨hstored, fun halone hlaid => (hdata halone hlaid).trans ?_⟩, hw⟩)
    rw [hend halone hlaid] at hmore
    unfold splice
    split
    · rename_i hpreserve
      rw [List.drop_of_length_le, List.append_nil]
      exact not_lt.mp (fun hlt => hmore ⟨hpreserve, hlt⟩)
    · rw [List.append_nil]

theorem rewrite_source {source : WriteSource}
    (hold : ∀ old, old_generation_id = some old → σ.old = some (old, kept))
    (hnone : old_generation_id = none → kept = []) (hstored : Stored writer g limit front)
    (hdata : σ.alone → σ.policy.laid →
      front ++ writer.buffer = kept.take offset ++ List.replicate (offset - kept.length) 0) :
    σ.Runs (some g) (σ.Staging g front)
      (do
        let writer ← ChunkWriter.ingest source writer
        if preserve_old_suffix ∧ writer.total_len < kept.length then do
          let old ← Task.expect old_generation_id
          writer.or_abort (writer.copy_suffix_from old writer.total_len kept.length)
        else pure writer)
      (σ.Holds g limit (fun bytes => σ.alone → σ.policy.laid →
        bytes = splice kept offset (source_bytes source) preserve_old_suffix))
      (fun _ _ w => σ.Undone w) := by
  refine Runs.bind (ingest source hstored)
    (fun writer' t => Runs.of_holds (fun front' hstored' hdata' => ?_))
  refine rewrite_suffix hold hnone hstored' (fun halone hlaid => ?_)
  rw [hdata', hdata halone hlaid]

theorem rewrite_zeros {source : WriteSource}
    (hold : ∀ old, old_generation_id = some old → σ.old = some (old, kept))
    (hnone : old_generation_id = none → kept = []) (hstored : Stored writer g limit front)
    (hdata : σ.alone → σ.policy.laid → front ++ writer.buffer = kept.take offset) :
    σ.Runs (some g) (σ.Staging g front)
      (do
        let writer ←
          if kept.length < offset then writer.or_abort (writer.zero_fill (offset - kept.length))
          else pure writer
        let writer ← ChunkWriter.ingest source writer
        if preserve_old_suffix ∧ writer.total_len < kept.length then do
          let old ← Task.expect old_generation_id
          writer.or_abort (writer.copy_suffix_from old writer.total_len kept.length)
        else pure writer)
      (σ.Holds g limit (fun bytes => σ.alone → σ.policy.laid →
        bytes = splice kept offset (source_bytes source) preserve_old_suffix))
      (fun _ _ w => σ.Undone w) := by
  split
  · refine Runs.bind (or_abort hstored.generation (zero_rounds (le_refl _) hstored))
      (fun writer' t =>
      Runs.of_holds (fun front' hstored' hdata' => ?_))
    refine rewrite_source hold hnone hstored' (fun halone hlaid => ?_)
    rw [hdata', hdata halone hlaid]
  · rename_i hle
    refine rewrite_source hold hnone hstored (fun halone hlaid => ?_)
    rw [hdata halone hlaid, Nat.sub_eq_zero_of_le (not_lt.mp hle), List.replicate_zero,
      List.append_nil]

/-- Filling the staged generation of a `write_at`. -/
theorem rewrite {source : WriteSource}
    (hold : ∀ old, old_generation_id = some old → σ.old = some (old, kept))
    (hnone : old_generation_id = none → kept = []) :
    σ.Runs (some g) (σ.Staging g [])
      (content.rewrite (ChunkWriter.new g limit) old_generation_id kept.length offset source preserve_old_suffix)
      (σ.Holds g limit (fun bytes => σ.alone → σ.policy.laid →
        bytes = splice kept offset (source_bytes source) preserve_old_suffix))
      (fun _ _ w => σ.Undone w) := by
  unfold content.rewrite
  cases hgen : old_generation_id with
  | none =>
    subst hgen
    refine rewrite_zeros hold hnone (Stored.new g limit) (fun _ _ => ?_)
    rw [hnone rfl, List.take_nil]
    rfl
  | some old =>
    subst hgen
    refine Runs.bind (or_abort rfl (copy_prefix_from (hold old rfl) (Nat.min_le_right _ _) limit))
      (fun writer t =>
      Runs.of_holds (fun front hstored hdata => ?_))
    refine rewrite_zeros hold hnone hstored (fun halone hlaid => ?_)
    rw [hdata halone hlaid, ← List.take_take, List.take_length]

end rewrite

end Session

end fslite
