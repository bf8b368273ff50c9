import Fslite.Sqlite.Run.Content
import Fslite.Sqlite.Run.Lone
import Fslite.Turns

namespace fslite

open content

/-- A path, how long a file may become there, and the generations that may become its content:
among them all that are created from now on. -/
structure Watch where
  rt : Runtime
  ws : WorkspaceId
  path : VirtualPath
  limit : Nat
  tick : Nat
  own : GenerationId → Prop
  fresh : ∀ k, tick ≤ k → own (rt.newId k)

namespace Watch

/-- The file is no longer than that, and no chunk of its possible contents is too long. -/
structure Within (ω : Watch) (w : World) : Prop where
  later : ω.tick ≤ w.tick
  file : ∀ raw, resolve.resolve w.db ω.ws ω.path = some raw →
    raw.size ≤ ω.limit ∧ ∀ g, raw.content_generation_id = some g → ω.own g
  chunks : ∀ k c, w.db.content_chunks.find? k = some c → ω.own k.1 → c.bytes.length ≤ CHUNK_SIZE

/-- A part of a method that stages a content: the tree stays as it is. -/
def Stages {A : Type} (ω : Watch) (Q : A → Prop) (p : Task A) : Prop :=
  Failing.Upholds (DbCall.exec ω.rt) (Reachable ω.rt) ω.Within
    (fun w w' => w'.db.nodes = w.db.nodes) Q p

/-- A method that ends with the commit of what it has staged. -/
def Commits {A : Type} (ω : Watch) (p : Task A) : Prop :=
  Failing.Commits (DbCall.exec ω.rt) (Reachable ω.rt) ω.Within
    (fun w w' => w'.db.nodes = w.db.nodes) p

variable {ω : Watch} {A : Type} {w w' : World} {g : GenerationId} {writer : ChunkWriter}

theorem Within.frame (h : ω.Within w) (htick : w.tick ≤ w'.tick)
    (hnodes : w'.db.nodes = w.db.nodes)
    (hchunks : ∀ k c, w'.db.content_chunks.find? k = some c → ω.own k.1 →
      c.bytes.length ≤ CHUNK_SIZE) : ω.Within w' where
  later := h.later.trans htick
  file raw hfound := h.file raw ((resolve.resolve_congr hnodes ω.path).symm.trans hfound)
  chunks := hchunks

/-- What is left when chunks are dropped. -/
theorem Within.dropped (h : ω.Within w) (g : GenerationId) :
    ω.Within { w with db := w.db.drop g } := by
  refine h.frame (le_refl _) rfl (fun k c hc hown => ?_)
  rw [Db.chunk_drop] at hc
  split at hc
  · cases hc
  · exact h.chunks k c hc hown

theorem Within.fetched (h : ω.Within w) (hown : ω.own g) (index : Nat) :
    (content.fetch_chunk_bytes w.db g index).length ≤ CHUNK_SIZE := by
  unfold content.fetch_chunk_bytes
  cases hc : w.db.content_chunks.find? (g, index) with
  | none => exact Nat.zero_le _
  | some c => exact h.chunks _ c hc hown

section calls

variable {o : DbCall} {Q : o.Answer → Prop}

theorem call (hcommits : ∀ answer, o.commits answer = true)
    (h : ∀ w answer w', ω.Within w → o.body ω.rt w = .ok (answer, w') →
      ω.Within w' ∧ w'.db.nodes = w.db.nodes ∧ Q answer) : ω.Stages Q (Task.call o) := by
  intro w _ hw
  unfold DbCall.exec
  cases hbody : o.body ω.rt w with
  | error fault => exact ⟨hw, rfl, fun _ hanswer => by cases hanswer⟩
  | ok result =>
    obtain ⟨answer, w'⟩ := result
    obtain ⟨hw', hnodes, hanswer⟩ := h w answer w' hw hbody
    simp only [hcommits, if_true]
    exact ⟨hw', hnodes, fun _ heq => by cases heq; exact hanswer⟩

theorem query {f : Db → o.Answer} (hbody : o.body ω.rt = Tx.query f)
    (hcommits : ∀ answer, o.commits answer = true) (h : ∀ w, ω.Within w → Q (f w.db)) :
    ω.Stages Q (Task.call o) := by
  refine call hcommits (fun w answer w' hw hok => ?_)
  rw [hbody, Tx.query_eq_ok] at hok
  obtain ⟨rfl, rfl⟩ := hok
  exact ⟨hw, rfl, h w hw⟩

end calls

theorem create_generation {ws : WorkspaceId} :
    ω.Stages ω.own (Task.call (.create_generation ws)) := by
  refine call (fun _ => rfl) (fun w g w' hw hok => ?_)
  obtain ⟨gens, rfl, _, rfl⟩ := content.create_generation_ok hok
  exact ⟨hw.frame (Nat.le_add_right _ _) rfl hw.chunks, rfl, ω.fresh _ hw.later⟩

theorem upsert_chunk {index : Nat} {bytes : Bytes} (hlength : bytes.length ≤ CHUNK_SIZE) :
    ω.Stages (fun _ => True) (Task.call (.upsert_chunk g index bytes)) := by
  refine call (fun _ => rfl) (fun w _ w' hw hok => ?_)
  obtain ⟨_, rfl⟩ := content.upsert_chunk_ok hok
  refine ⟨hw.frame (le_refl _) rfl (fun k c hc hown => ?_), rfl, trivial⟩
  rw [Table.find?_upsert] at hc
  split at hc
  · cases hc
    exact hlength
  · exact hw.chunks k c hc hown

theorem copy_chunk_range {source : GenerationId} {lower upper : Nat} (hsource : ω.own source) :
    ω.Stages (fun _ => True) (Task.call (.copy_chunk_range source g lower upper)) := by
  refine call (fun _ => rfl) (fun w _ w' hw hok => ?_)
  simp only [DbCall.body, content.copy_chunk_range, Tx.execute_eq_ok] at hok
  obtain ⟨db, hcopy, rfl⟩ := hok
  obtain ⟨_, chunks, hins, rfl⟩ := content.insert_chunks_ok hcopy
  refine ⟨hw.frame (le_refl _) rfl (fun k c hc hown => ?_), rfl, trivial⟩
  rw [Table.find?_insertAll hins, Option.or_eq_some_iff] at hc
  obtain hc | ⟨_, hc⟩ := hc
  · exact hw.chunks k c hc hown
  · obtain ⟨original, horiginal, rfl⟩ := List.mem_map.mp (List.mem_of_find?_eq_some hc)
    obtain ⟨hmem, hplace⟩ := List.mem_filter.mp horiginal
    rw [decide_eq_true_eq] at hplace
    rw [← hplace.1] at hsource
    exact hw.chunks _ original (Table.find?_key hmem) hsource

theorem fetch_chunk_bytes {index : Nat} (hown : ω.own g) :
    ω.Stages (fun bytes => bytes.length ≤ CHUNK_SIZE) (Task.call (.fetch_chunk_bytes g index)) :=
  query (f := fun db => content.fetch_chunk_bytes db g index) rfl (fun _ => rfl)
    (fun _ hw => hw.fetched hown index)

theorem Within.delete_generation (hw : ω.Within w) (g : GenerationId) :
    ω.Within ((DbCall.delete_generation g).exec ω.rt w).2 ∧
      ((DbCall.delete_generation g).exec ω.rt w).2.db.nodes = w.db.nodes := by
  unfold DbCall.exec
  cases hbody : DbCall.body ω.rt (.delete_generation g) w with
  | error fault => exact ⟨hw, rfl⟩
  | ok result =>
    obtain ⟨answer, w'⟩ := result
    obtain rfl := content.delete_generation_ok hbody
    exact ⟨hw.dropped g, rfl⟩

theorem delete_generation :
    ω.Stages (fun _ => True) (Task.call_ignored (.delete_generation g)) := by
  intro w _ hw
  obtain ⟨hw', hnodes⟩ := hw.delete_generation g
  exact ⟨hw', hnodes, fun _ _ => trivial⟩

/-- The writer has taken in at most so many more bytes. -/
def Adds (writer : ChunkWriter) (added : Nat) (writer' : ChunkWriter) : Prop :=
  writer'.generation_id = writer.generation_id ∧ writer'.total_len ≤ writer.total_len + added

theorem Adds.trans {writer₁ writer₂ : ChunkWriter} {added more total : Nat}
    (h : Adds writer added writer₁) (h' : Adds writer₁ more writer₂) (hsum : added + more ≤ total) :
    Adds writer total writer₂ :=
  ⟨h'.1.trans h.1, by have := h.2; have := h'.2; omega⟩

theorem Adds.refl (writer : ChunkWriter) (added : Nat) : Adds writer added writer :=
  ⟨rfl, Nat.le_add_right _ _⟩

theorem flush_full_buffer {chunk : Bytes} (hlength : chunk.length = CHUNK_SIZE) :
    ω.Stages (fun writer' => writer'.generation_id = writer.generation_id ∧
      writer'.total_len = writer.committed_len + CHUNK_SIZE) (writer.flush_full_buffer chunk) :=
  (upsert_chunk (le_of_eq hlength)).bind (fun _ _ => .pure ⟨rfl, rfl⟩)

theorem write_rounds {rounds : Nat} {bytes : Bytes} {writer : ChunkWriter} :
    ω.Stages (Adds writer bytes.length) (ChunkWriter.write_rounds rounds writer bytes) := by
  induction rounds generalizing writer bytes with
  | zero => exact .pure (Adds.refl writer _)
  | succ rounds ih =>
    unfold ChunkWriter.write_rounds
    split
    · exact .pure (Adds.refl writer _)
    · have hspace := writer.partial_buffer
      simp only
      split
      · exact .throw
      · split
        · rename_i hpartial
          have hfirst : Adds writer (min (CHUNK_SIZE - writer.buffer.length) bytes.length)
              { writer with buffer := _, partial_buffer := hpartial } := by
            refine ⟨rfl, ?_⟩
            simp only [ChunkWriter.total_len, List.length_append, List.length_take]
            omega
          refine ih.mono (fun writer' hadds => hfirst.trans hadds ?_)
          rw [List.length_drop]
          omega
        · rename_i hfull
          rw [List.length_append, List.length_take] at hfull
          refine (flush_full_buffer ?_).bind (fun writer₁ hflushed => ?_)
          · rw [List.length_append, List.length_take]
            omega
          · have hfirst : Adds writer (min (CHUNK_SIZE - writer.buffer.length) bytes.length)
                writer₁ := by
              refine ⟨hflushed.1, ?_⟩
              rw [hflushed.2, ChunkWriter.total_len]
              omega
            refine ih.mono (fun writer' hadds => hfirst.trans hadds ?_)
            rw [List.length_drop]
            omega

theorem write_bytes {bytes : Bytes} : ω.Stages (Adds writer bytes.length) (writer.write_bytes bytes) :=
  write_rounds

theorem or_abort {step : Task ChunkWriter} {Q : ChunkWriter → Prop} (h : ω.Stages Q step) :
    ω.Stages Q (writer.or_abort step) :=
  h.tryCatch (fun _ => delete_generation.bind (fun _ _ => .throw))

/-- Copying the part of a prefix that is no whole chunk. -/
theorem copy_remainder {old : GenerationId} (upto : Nat) (hold : ω.own old) :
    ω.Stages (Adds writer (chunk_local_offset upto))
      (if 0 < chunk_local_offset upto then do
        let bytes ← Task.call (.fetch_chunk_bytes old (chunk_index_of upto))
        writer.write_bytes (bytes.take (min (chunk_local_offset upto) bytes.length))
      else pure writer) := by
  split
  · refine (fetch_chunk_bytes hold).bind (fun bytes _ => write_bytes.mono (fun writer' hadds => ?_))
    refine (Adds.refl writer 0).trans hadds ?_
    rw [List.length_take]
    omega
  · exact .pure (Adds.refl writer _)

/-- Copying a prefix of a content. -/
theorem copy_prefix_from {old : GenerationId} (upto : Nat) (hold : ω.own old) :
    ω.Stages (Adds writer upto) (writer.copy_prefix_from old upto) := by
  have hdiv := Nat.div_add_mod upto CHUNK_SIZE
  rw [Nat.mul_comm] at hdiv
  unfold ChunkWriter.copy_prefix_from
  split
  · exact .pure (Adds.refl writer _)
  · simp only
    split
    · refine (copy_chunk_range hold).bind (fun _ _ => (copy_remainder upto hold).mono
        (fun writer' hadds => ?_))
      have hskip : Adds writer (chunk_index_of upto * CHUNK_SIZE)
          (writer.skip_committed_chunks (chunk_index_of upto)) := by
        refine ⟨rfl, ?_⟩
        simp only [ChunkWriter.total_len, ChunkWriter.skip_committed_chunks]
        omega
      exact hskip.trans hadds (le_of_eq hdiv)
    · refine (copy_remainder upto hold).mono (fun writer' hadds => (Adds.refl writer 0).trans hadds ?_)
      rw [Nat.zero_add]
      exact Nat.mod_le _ _

/-- What is left of a chunk lies in the chunk and in the range. -/
theorem clip_length {from_ to_ index : Nat} {bytes : Bytes} (hbytes : bytes.length ≤ CHUNK_SIZE)
    (hlt : from_ < to_) (hfirst : chunk_index_of from_ ≤ index)
    (hlast : index ≤ chunk_index_of (to_ - 1)) :
    (ChunkWriter.clip from_ to_ index bytes).length ≤
      min to_ ((index + 1) * CHUNK_SIZE) - max from_ (index * CHUNK_SIZE) := by
  unfold ChunkWriter.clip
  unfold chunk_index_of chunk_local_offset CHUNK_SIZE at *
  simp only
  have hin : ∀ l : Bytes, (l.take (min ((to_ - 1) % (1024 * 1024) + 1) l.length)).length ≤
      (to_ - 1) % (1024 * 1024) + 1 := by
    intro l
    rw [List.length_take]
    omega
  have htaken := hin bytes
  split
  · rw [List.length_drop]
    split <;> omega
  · split <;> omega

/-- The chunks that are left to be copied lie in what is left of the range. -/
theorem copy_chunks {old : GenerationId} {from_ to_ : Nat} (hold : ω.own old) (hlt : from_ < to_)
    (count : Nat) {first : Nat} {writer : ChunkWriter} (hfirst : chunk_index_of from_ ≤ first)
    (hlast : first + count = chunk_index_of (to_ - 1) + 1) :
    ω.Stages (Adds writer (to_ - max from_ (first * CHUNK_SIZE)))
      (ChunkWriter.copy_chunks old from_ to_ (List.range' first count) writer) := by
  induction count generalizing first writer with
  | zero => exact .pure (Adds.refl writer _)
  | succ count ih =>
    rw [List.range'_succ]
    unfold ChunkWriter.copy_chunks
    refine (fetch_chunk_bytes hold).bind (fun bytes hbytes => write_bytes.bind
      (fun writer₁ hfirst' => (ih (Nat.le_succ_of_le hfirst) (by omega)).mono
        (fun writer₂ hrest => hfirst'.trans hrest ?_)))
    have hclip := clip_length hbytes hlt hfirst (by omega)
    unfold chunk_index_of CHUNK_SIZE at *
    omega

theorem copy_suffix_from {old : GenerationId} {from_ to_ : Nat} (hold : ω.own old) :
    ω.Stages (Adds writer (to_ - from_)) (writer.copy_suffix_from old from_ to_) := by
  unfold ChunkWriter.copy_suffix_from
  split
  · exact .pure (Adds.refl writer _)
  · rename_i hlt
    have hchunks : chunk_index_of from_ ≤ chunk_index_of (to_ - 1) :=
      Nat.div_le_div_right (by omega)
    refine (copy_chunks hold (by omega) _ (le_refl _) (by omega)).mono (fun writer' hadds => ?_)
    refine ⟨hadds.1, hadds.2.trans ?_⟩
    omega

theorem zero_rounds {rounds len : Nat} {writer : ChunkWriter} :
    ω.Stages (Adds writer len) (ChunkWriter.zero_rounds rounds writer len) := by
  induction rounds generalizing writer len with
  | zero => exact .pure (Adds.refl writer _)
  | succ rounds ih =>
    unfold ChunkWriter.zero_rounds
    split
    · exact .pure (Adds.refl writer _)
    · refine write_bytes.bind (fun writer₁ hfirst => ih.mono
        (fun writer₂ hrest => hfirst.trans hrest ?_))
      rw [List.length_replicate]
      omega

theorem ingest (source : WriteSource) {writer : ChunkWriter} :
    ω.Stages (Adds writer (source_bytes source).length) (ChunkWriter.ingest source writer) := by
  induction source generalizing writer with
  | nil => exact .pure (Adds.refl writer _)
  | cons item rest ih =>
    cases item with
    | ok bytes =>
      refine (or_abort write_bytes).bind (fun writer₁ hfirst => ih.mono
        (fun writer₂ hrest => hfirst.trans hrest ?_))
      rw [source_bytes, List.length_append]
    | error err => exact delete_generation.bind (fun _ _ => .throw)

theorem finish : ω.Stages (fun result => result.1 = writer.generation_id ∧
    result.2 = writer.total_len) writer.finish := by
  unfold ChunkWriter.finish
  split
  · rename_i hempty
    refine .pure ⟨rfl, ?_⟩
    rw [ChunkWriter.total_len, hempty, List.length_nil, Nat.add_zero]
  · exact (upsert_chunk (le_of_lt writer.partial_buffer)).bind (fun _ _ => .pure ⟨rfl, rfl⟩)

/-- The writer fills the generation and has taken in no more than so many bytes. -/
def UpTo (g : GenerationId) (bound : Nat) (writer : ChunkWriter) : Prop :=
  writer.generation_id = g ∧ writer.total_len ≤ bound

theorem UpTo.adds {writer' : ChunkWriter} {bound added bound' : Nat} (h : UpTo g bound writer)
    (hadds : Adds writer added writer') (hsum : bound + added ≤ bound') : UpTo g bound' writer' :=
  ⟨hadds.1.trans h.1, by have := h.2; have := hadds.2; omega⟩

section rewrite

variable {old_generation_id : Option GenerationId} {old_length offset : Nat}
  {source : WriteSource} {preserve_old_suffix : Bool}

theorem rewrite_suffix {bound : Nat} (hold : ∀ old, old_generation_id = some old → ω.own old)
    (hwriter : UpTo g bound writer) :
    ω.Stages (UpTo g (max bound old_length))
      (if preserve_old_suffix ∧ writer.total_len < old_length then do
        let old ← Task.expect old_generation_id
        writer.or_abort (writer.copy_suffix_from old writer.total_len old_length)
      else pure writer) := by
  split
  · rename_i hmore
    cases hgen : old_generation_id with
    | none => exact Failing.Upholds.throw
    | some old =>
      refine (or_abort (copy_suffix_from (hold old hgen))).mono (fun writer' hadds => ?_)
      refine ⟨hadds.1.trans hwriter.1, hadds.2.trans ?_⟩
      have := hmore.2
      omega
  · exact .pure ⟨hwriter.1, hwriter.2.trans (Nat.le_max_left _ _)⟩

theorem rewrite_source (hold : ∀ old, old_generation_id = some old → ω.own old)
    (hwriter : UpTo g offset writer) :
    ω.Stages (UpTo g (max (offset + (source_bytes source).length) old_length))
      (do
        let writer ← ChunkWriter.ingest source writer
        if preserve_old_suffix ∧ writer.total_len < old_length then do
          let old ← Task.expect old_generation_id
          writer.or_abort (writer.copy_suffix_from old writer.total_len old_length)
        else pure writer) :=
  (ingest source).bind (fun _ hadds => rewrite_suffix hold (hwriter.adds hadds (le_refl _)))

theorem rewrite_zeros (hold : ∀ old, old_generation_id = some old → ω.own old)
    (hwriter : UpTo g (min offset old_length) writer) :
    ω.Stages (UpTo g (max (offset + (source_bytes source).length) old_length))
      (do
        let writer ←
          if old_length < offset then writer.or_abort (writer.zero_fill (offset - old_length))
          else pure writer
        let writer ← ChunkWriter.ingest source writer
        if preserve_old_suffix ∧ writer.total_len < old_length then do
          let old ← Task.expect old_generation_id
          writer.or_abort (writer.copy_suffix_from old writer.total_len old_length)
        else pure writer) := by
  split
  · exact (or_abort zero_rounds).bind (fun _ hadds =>
      rewrite_source hold (hwriter.adds hadds (by omega)))
  · exact rewrite_source hold ⟨hwriter.1, hwriter.2.trans (Nat.min_le_left _ _)⟩

/-- What is staged ends with the new bytes or with the old file. -/
theorem rewrite {limit : Nat} (hold : ∀ old, old_generation_id = some old → ω.own old) :
    ω.Stages (UpTo g (max (offset + (source_bytes source).length) old_length))
      (content.rewrite (ChunkWriter.new g limit) old_generation_id old_length offset source
        preserve_old_suffix) := by
  have hnew : UpTo g 0 (ChunkWriter.new g limit) := ⟨rfl, le_refl _⟩
  unfold content.rewrite
  cases hgen : old_generation_id with
  | none =>
    subst hgen
    exact rewrite_zeros hold ⟨rfl, Nat.zero_le _⟩
  | some old =>
    subst hgen
    exact (or_abort (copy_prefix_from _ (hold old rfl))).bind (fun _ hadds =>
      rewrite_zeros hold (hnew.adds hadds (by omega)))

end rewrite

/-- A committed content is no longer than it may be. -/
theorem Within.finalized {length : Nat} {params : FinalizeParams} {actor_json : Text}
    {outcome : FinalizeOutcome} {row : RawNode} (hw : ω.Within w) (hwf : WellFormed w.db)
    (hlength : length ≤ ω.limit) (hown : ω.own g)
    (hok : finalize_tx ω.rt ω.ws ω.path g length params actor_json w = .ok (outcome, w'))
    (hfinal : Finalized ω.rt ω.ws ω.path g length params w w' row) : ω.Within w' where
  later := hw.later.trans hfinal.tick
  file raw hfound := by
    obtain ⟨raw', hfound', _, _, _, hg, hsize⟩ := hfinal.found (hfinal.nodesWellFormed hwf.nodes)
    obtain rfl := Option.some.inj (hfound.symm.trans hfound')
    refine ⟨hsize.trans_le hlength, fun g' hg' => ?_⟩
    obtain rfl := Option.some.inj (hg.symm.trans hg')
    exact hown
  chunks k c hc := by
    have hkept : Tx.Keeps (fun db db' => ∀ k c, db'.content_chunks.find? k = some c →
        db.content_chunks.find? k = some c)
        (finalize_tx ω.rt ω.ws ω.path g length params actor_json) := by
      refine KeptByCommit.finalize_tx ⟨fun _ _ _ h => h, fun h h' k c hc => h k c (h' k c hc),
        fun _ _ _ _ h => h, fun _ _ _ h => h, fun _ _ _ _ _ h => h, fun db old k c hc => ?_⟩
      rw [Db.chunk_drop] at hc
      split at hc
      · cases hc
      · exact hc
    exact hw.chunks k c (hkept w _ w' hok k c hc)

/-- The commit is the last call, or it leaves the tree as it is. -/
theorem finalize {length : Nat} {params : FinalizeParams} {actor_json : Text}
    (hlength : length ≤ ω.limit) (hown : ω.own g) :
    ω.Commits (content.finalize ω.ws ω.path g length params actor_json) := by
  have hdelete : ∀ err : FsError, Prog.Commits (DbCall.exec ω.rt) (Reachable ω.rt) ω.Within
      (fun w w' => w'.db.nodes = w.db.nodes)
      (.call (.delete_generation g) (fun _ => .ret (.error err : FsResult Node))) :=
    fun err w _ hw => ⟨(hw.delete_generation g).1, Or.inl ⟨_, rfl⟩⟩
  intro w hlive hw
  cases hbody : (DbCall.finalize ω.ws ω.path g length params actor_json).body ω.rt w with
  | error fault =>
    rw [show DbCall.exec ω.rt _ w = _ by rw [DbCall.exec, hbody]]
    exact ⟨hw, Or.inr ⟨rfl, hdelete _⟩⟩
  | ok result =>
    obtain ⟨outcome, w'⟩ := result
    rw [DbCall.exec_of_ok hbody rfl]
    obtain ⟨rfl, hnot⟩ | ⟨row, rfl, hfinal⟩ := content.finalize_tx_ok hbody
    · refine ⟨hw, Or.inr ⟨rfl, ?_⟩⟩
      cases outcome with
      | Applied row => exact absurd rfl (hnot row)
      | NotFound => exact hdelete _
      | WrongNodeType => exact hdelete _
      | RevisionConflict => exact hdelete _
    · exact ⟨hw.finalized hlive.sound.wf hlength hown hbody hfinal, Or.inl ⟨_, rfl⟩⟩

theorem resolve_existing_file :
    ω.Stages (fun existing => ∀ raw, existing = some raw → raw.size ≤ ω.limit ∧
      ∀ g, raw.content_generation_id = some g → ω.own g)
      (content.resolve_existing_file ω.ws ω.path) := by
  unfold content.resolve_existing_file
  refine (query (o := .resolve ω.ws ω.path) (Q := fun existing => ∀ raw, existing = some raw →
      raw.size ≤ ω.limit ∧ ∀ g, raw.content_generation_id = some g → ω.own g)
      (f := fun db => resolve.resolve db ω.ws ω.path) rfl
      (fun _ => rfl) (fun w hw => hw.file)).bind (fun existing hexisting => ?_)
  cases existing with
  | none => exact .pure (fun raw hraw => by cases hraw)
  | some node =>
    simp only
    split
    · exact .pure hexisting
    · exact .throw

/-- A `write_at` of which the new bytes end within the limit keeps the file there. -/
theorem write_at_impl {offset : Nat} {source : WriteSource} {create : Bool}
    {expected_revision : Option Revision} {actor_json : Text} {preserve_old_suffix : Bool}
    (hlimit : offset + (source_bytes source).length ≤ ω.limit) :
    ω.Commits (content.write_at_impl ω.ws ω.path offset source create expected_revision actor_json
      preserve_old_suffix) := by
  unfold content.write_at_impl
  refine resolve_existing_file.commits_bind (fun existing hexisting => ?_)
  split
  · trivial
  · have hlength : (existing.map RawNode.size).getD 0 ≤ ω.limit := by
      cases existing with
      | none => exact Nat.zero_le _
      | some raw => exact (hexisting raw rfl).1
    have hold : ∀ old, existing.bind RawNode.content_generation_id = some old → ω.own old := by
      intro old hsome
      obtain ⟨raw, rfl, hg⟩ := Option.bind_eq_some_iff.mp hsome
      exact (hexisting raw rfl).2 old hg
    have hmax : ω.Stages (fun _ => True) (content.max_file_bytes ω.ws) := by
      unfold content.max_file_bytes
      refine (query (o := .fetch_max_file_bytes ω.ws) (Q := fun _ => True)
        (f := fun db => content.fetch_max_file_bytes db ω.ws) rfl (fun _ => rfl)
        (fun _ _ => trivial)).bind (fun limit _ => ?_)
      cases limit with
      | none => exact .throw
      | some limit => exact .pure trivial
    refine hmax.commits_bind (fun limit _ => Failing.Upholds.commits_bind (create_generation)
      (fun g hg => (rewrite hold).commits_bind (fun writer hwriter => finish.commits_bind
        (fun result hresult => ?_))))
    obtain ⟨hgeneration, hbound⟩ := hwriter
    obtain ⟨hsame, htotal⟩ := hresult
    refine finalize ?_ ?_
    · rw [htotal]
      omega
    · rw [hsame, hgeneration]
      exact hg

end Watch

end fslite
