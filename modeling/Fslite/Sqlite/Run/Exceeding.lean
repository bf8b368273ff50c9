import Fslite.Sqlite.Run.Integrity
import Fslite.Sqlite.Run.Room
import Fslite.Sqlite.Run.Stream
import Fslite.Sqlite.Run.Total

namespace fslite

open resolve content

/-- The quota refuses what is asked for. -/
def Refused {A : Type} (result : FsResult A) : Prop :=
  ∃ err, result = .error err ∧ err.code = .QuotaExceeded

/-- How many bytes a copy of a prefix takes in; where the last chunk is missing, it takes in
less. -/
def Db.prefix_length (db : Db) (old : GenerationId) (upto : Nat) : Nat :=
  chunk_index_of upto * CHUNK_SIZE +
    min (chunk_local_offset upto) (content.fetch_chunk_bytes db old (chunk_index_of upto)).length

/-- How many bytes are staged when so many new ones are written at the offset. -/
def Db.rewritten_length (db : Db) (old : GenerationId) (old_length offset length : Nat)
    (preserve_old_suffix : Bool) : Nat :=
  let staged := db.prefix_length old (min offset old_length) + (offset - old_length) + length
  if preserve_old_suffix ∧ staged < old_length then
    staged + (db.fetched old ⟨staged, old_length⟩).length
  else staged

theorem Db.rewritten_length_congr {db db' : Db} (h : db'.content_chunks = db.content_chunks)
    {old : GenerationId} {old_length offset length : Nat} {preserve_old_suffix : Bool} :
    db'.rewritten_length old old_length offset length preserve_old_suffix =
      db.rewritten_length old old_length offset length preserve_old_suffix := by
  unfold Db.rewritten_length Db.prefix_length Db.fetched content.fetch_chunk_bytes
  rw [h]

section laid

variable {db : Db} {old : GenerationId} {bytes : Bytes}

theorem Db.Laid.prefix_length (h : db.Laid old bytes) {upto : Nat} (hupto : upto ≤ bytes.length) :
    db.prefix_length old upto = upto := by
  have hdiv := Nat.div_add_mod upto CHUNK_SIZE
  have hmod := Nat.mod_lt upto chunk_size_pos
  rw [Nat.mul_comm] at hdiv
  unfold Db.prefix_length
  rw [Session.piece_of_laid h, piece_length]
  unfold chunk_index_of chunk_local_offset
  omega

/-- Of a content that is stored whole as much is staged as the new one is to have. -/
theorem Db.Laid.rewritten_length (h : db.Laid old bytes) (offset length : Nat)
    (preserve_old_suffix : Bool) :
    db.rewritten_length old bytes.length offset length preserve_old_suffix =
      if preserve_old_suffix then max bytes.length (offset + length) else offset + length := by
  unfold Db.rewritten_length
  rw [h.prefix_length (Nat.min_le_right _ _)]
  have hstaged : min offset bytes.length + (offset - bytes.length) + length = offset + length := by
    omega
  simp only [hstaged]
  cases preserve_old_suffix with
  | false => simp
  | true =>
    simp only [true_and, if_true]
    split
    · rw [h.fetched (le_refl _), List.take_length, List.length_drop]
      simp only
      omega
    · omega

end laid

section fills

variable {rt : Runtime} {base : Db} {writer : ChunkWriter} {added : Nat} {w w' : World}
  {old : GenerationId}

/-- A step after a call that changes nothing in what is filled. -/
theorem Fills.after {A : Type} {first : Task A} {rest : A → Task ChunkWriter} {a : A}
    (hrun : first.run.run (DbCall.exec rt) w = (.ok a, w'))
    (h : Fills rt base writer added (rest a) w') : Fills rt base writer added (first >>= rest) w := by
  obtain ⟨result, w'', hrest, hgrown, hfilling⟩ := h
  exact ⟨result, w'', (Task.run_bind_ok hrun).trans hrest, hgrown, hfilling⟩

theorem Fills.of_eq {step : Task ChunkWriter} {more : Nat} (h : Fills rt base writer added step w)
    (heq : added = more) : Fills rt base writer more step w := heq ▸ h

/-- The chunks of other generations are read as they were. -/
theorem fetch_chunk_alone {g : GenerationId} (hw : Filling base g w) (hne : old ≠ g) (index : Nat) :
    (Task.call (.fetch_chunk_bytes old index)).run.run (DbCall.exec rt) w =
      (.ok (content.fetch_chunk_bytes base old index), w) := by
  obtain ⟨chunks, hdb, hothers⟩ := hw
  have hfetch : content.fetch_chunk_bytes w.db old index =
      content.fetch_chunk_bytes base old index := by
    unfold content.fetch_chunk_bytes
    rw [hdb]
    exact congrArg (fun c => (c.map ChunkRow.bytes).getD []) (hothers old index hne)
  rw [Task.run_call, ← hfetch]
  rfl

/-- The bulk copy into a generation without chunks. -/
theorem copy_chunk_range_alone {g : GenerationId} (hw : Filling base g w)
    (hstored : base.content_generations.contains g = true)
    (hnone : ∀ i, w.db.content_chunks.find? (g, i) = none) (lower upper : Nat) :
    ∃ w', (Task.call (.copy_chunk_range old g lower upper)).run.run (DbCall.exec rt) w =
      (.ok (), w') ∧ Filling base g w' := by
  obtain ⟨chunks, hdb, hothers⟩ := hw
  obtain ⟨gen, hgen⟩ := Table.contains_iff.mp hstored
  have hstored' : w.db.generation? g = some gen := by
    rw [hdb]
    exact hgen
  obtain ⟨db', hcopy⟩ :=
    Db.insert_chunks_total old hstored' hnone (fun i => lower ≤ i ∧ i < upper)
  have hbody : (DbCall.copy_chunk_range old g lower upper).body rt w =
      .ok ((), { w with db := db' }) := Tx.execute_eq_ok.mpr ⟨db', hcopy, rfl⟩
  obtain ⟨_, chunks', hins, rfl⟩ := content.insert_chunks_ok hcopy
  refine ⟨_, Task.run_call.trans (DbCall.exec_of_ok hbody rfl), chunks', by rw [hdb],
    fun other i hne => ?_⟩
  rw [Table.find?_insertAll hins, List.find?_eq_none.mpr ?_, Option.or_none, hdb]
  · exact hothers other i hne
  · intro c hc hkey
    obtain ⟨c', _, rfl⟩ := List.mem_map.mp hc
    exact hne (congrArg Prod.fst (of_decide_eq_true hkey)).symm

/-- The part of a prefix that is no whole chunk. -/
theorem copy_remainder_alone (hstored : base.content_generations.contains writer.generation_id = true)
    (hw : Filling base writer.generation_id w) (hne : old ≠ writer.generation_id) (upto : Nat)
    (hfits : writer.total_len ≤ writer.max_file_bytes) :
    Fills rt base writer (min (chunk_local_offset upto)
      (content.fetch_chunk_bytes base old (chunk_index_of upto)).length)
      (if 0 < chunk_local_offset upto then do
        let bytes ← Task.call (.fetch_chunk_bytes old (chunk_index_of upto))
        writer.write_bytes (bytes.take (min (chunk_local_offset upto) bytes.length))
      else pure writer) w := by
  split
  · refine Fills.after (fetch_chunk_alone hw hne _) ?_
    have hwritten := @write_bytes_alone rt base writer w
      ((content.fetch_chunk_bytes base old (chunk_index_of upto)).take
        (min (chunk_local_offset upto)
          (content.fetch_chunk_bytes base old (chunk_index_of upto)).length)) hstored hw hfits
    rwa [List.length_take, Nat.min_eq_left (Nat.min_le_right _ _)] at hwritten
  · rename_i hnone
    rw [Nat.eq_zero_of_not_pos hnone, Nat.zero_min]
    exact Fills.pure hfits hw

theorem copy_prefix_alone (hstored : base.content_generations.contains writer.generation_id = true)
    (hw : Filling base writer.generation_id w) (hne : old ≠ writer.generation_id)
    (hnone : ∀ i, w.db.content_chunks.find? (writer.generation_id, i) = none) {upto : Nat}
    (hfits : writer.total_len + upto ≤ writer.max_file_bytes) :
    Fills rt base writer (base.prefix_length old upto) (writer.copy_prefix_from old upto) w := by
  have hdiv := Nat.div_add_mod upto CHUNK_SIZE
  rw [Nat.mul_comm] at hdiv
  have hbefore : writer.total_len ≤ writer.max_file_bytes := (Nat.le_add_right _ _).trans hfits
  unfold ChunkWriter.copy_prefix_from Db.prefix_length
  split
  · rename_i hzero
    rw [hzero, show chunk_index_of 0 = 0 from Nat.zero_div _,
      show chunk_local_offset 0 = 0 from Nat.zero_mod _, Nat.zero_mul, Nat.zero_min]
    exact Fills.pure hbefore hw
  · simp only
    split
    · obtain ⟨w', hcopy, hw'⟩ := @copy_chunk_range_alone rt base w old _ hw hstored hnone 0
        (chunk_index_of upto)
      have hskipped : (writer.skip_committed_chunks (chunk_index_of upto)).total_len =
          writer.total_len + chunk_index_of upto * CHUNK_SIZE := by
        simp only [ChunkWriter.total_len, ChunkWriter.skip_committed_chunks]
        omega
      have hroom : (writer.skip_committed_chunks (chunk_index_of upto)).total_len ≤
          writer.max_file_bytes := by
        rw [hskipped]
        unfold chunk_index_of
        omega
      have hremainder := @copy_remainder_alone rt base
        (writer.skip_committed_chunks (chunk_index_of upto)) w' old hstored hw' hne upto hroom
      exact Fills.after hcopy (@Fills.shift rt base writer
        (writer.skip_committed_chunks (chunk_index_of upto)) _ _ w' _ rfl rfl hskipped hremainder)
    · rename_i hzero
      rw [Nat.eq_zero_of_not_pos hzero, Nat.zero_mul, Nat.zero_add]
      have hremainder := @copy_remainder_alone rt base writer w old hstored hw hne upto hbefore
      rwa [Nat.eq_zero_of_not_pos hzero] at hremainder

/-- The chunks of the rest of an old content. -/
theorem copy_chunks_alone {from_ to_ : Nat} (indices : List Nat) {writer : ChunkWriter} {w : World}
    (hstored : base.content_generations.contains writer.generation_id = true)
    (hw : Filling base writer.generation_id w) (hne : old ≠ writer.generation_id)
    (hfits : writer.total_len ≤ writer.max_file_bytes) :
    Fills rt base writer (indices.flatMap (fun index => ChunkWriter.clip from_ to_ index
      (content.fetch_chunk_bytes base old index))).length
      (ChunkWriter.copy_chunks old from_ to_ indices writer) w := by
  induction indices generalizing writer w with
  | nil => exact Fills.pure hfits hw
  | cons index rest ih =>
    rw [List.flatMap_cons, List.length_append]
    refine Fills.after (fetch_chunk_alone hw hne index)
      ((write_bytes_alone hstored hw hfits).bind (fun writer' w' hgeneration _ _ hfits' hw' => ?_))
    exact ih (hgeneration ▸ hstored) hw' (hgeneration ▸ hne) hfits'

theorem copy_suffix_alone {from_ to_ : Nat}
    (hstored : base.content_generations.contains writer.generation_id = true)
    (hw : Filling base writer.generation_id w) (hne : old ≠ writer.generation_id)
    (hfits : writer.total_len ≤ writer.max_file_bytes) :
    Fills rt base writer (base.fetched old ⟨from_, to_⟩).length
      (writer.copy_suffix_from old from_ to_) w := by
  unfold ChunkWriter.copy_suffix_from Db.fetched
  simp only
  split
  · exact Fills.pure hfits hw
  · exact copy_chunks_alone _ hstored hw hne hfits

theorem zero_rounds_alone {rounds remaining : Nat} (hrounds : remaining ≤ rounds)
    {writer : ChunkWriter} {w : World}
    (hstored : base.content_generations.contains writer.generation_id = true)
    (hw : Filling base writer.generation_id w) (hfits : writer.total_len ≤ writer.max_file_bytes) :
    Fills rt base writer remaining (ChunkWriter.zero_rounds rounds writer remaining) w := by
  induction rounds generalizing writer remaining w with
  | zero =>
    obtain rfl := Nat.le_zero.mp hrounds
    exact Fills.pure hfits hw
  | succ rounds ih =>
    unfold ChunkWriter.zero_rounds
    split
    · rename_i hzero
      rw [hzero]
      exact Fills.pure hfits hw
    · have hpos := chunk_size_pos
      have hrest : remaining - min remaining CHUNK_SIZE ≤ rounds := by omega
      have hstep : Fills rt base writer ((List.replicate (min remaining CHUNK_SIZE) (0 : UInt8)).length +
          (remaining - min remaining CHUNK_SIZE)) (do
            let writer ← writer.write_bytes (List.replicate (min remaining CHUNK_SIZE) 0)
            ChunkWriter.zero_rounds rounds writer (remaining - min remaining CHUNK_SIZE)) w :=
        (@write_bytes_alone rt base writer w (List.replicate (min remaining CHUNK_SIZE) 0) hstored hw
          hfits).bind (fun writer' w' hgeneration _ _ hfits' hw' => ih hrest
            (hgeneration ▸ hstored) hw' hfits')
      rwa [List.length_replicate, Nat.add_sub_cancel' (Nat.min_le_left _ _)] at hstep

/-- The bytes of the old content behind what is staged. -/
theorem rewrite_suffix_alone {old_length : Nat} {preserve_old_suffix : Bool}
    (hstored : base.content_generations.contains writer.generation_id = true)
    (hw : Filling base writer.generation_id w) (hne : old ≠ writer.generation_id)
    (hfits : writer.total_len ≤ writer.max_file_bytes) :
    Fills rt base writer (if preserve_old_suffix ∧ writer.total_len < old_length then
      (base.fetched old ⟨writer.total_len, old_length⟩).length else 0)
      (if preserve_old_suffix ∧ writer.total_len < old_length then do
        let old ← Task.expect (some old)
        writer.or_abort (writer.copy_suffix_from old writer.total_len old_length)
      else pure writer) w := by
  split
  · exact or_abort_alone (copy_suffix_alone hstored hw hne hfits)
  · exact Fills.pure hfits hw

theorem rewrite_source_alone {old_length : Nat} {chunks : List Bytes} {preserve_old_suffix : Bool}
    (hstored : base.content_generations.contains writer.generation_id = true)
    (hw : Filling base writer.generation_id w) (hne : old ≠ writer.generation_id)
    (hfits : writer.total_len ≤ writer.max_file_bytes) :
    Fills rt base writer (chunks.flatten.length +
      if preserve_old_suffix ∧ writer.total_len + chunks.flatten.length < old_length then
        (base.fetched old ⟨writer.total_len + chunks.flatten.length, old_length⟩).length else 0) (do
        let writer ← ChunkWriter.ingest (chunks.map .ok) writer
        if preserve_old_suffix ∧ writer.total_len < old_length then do
          let old ← Task.expect (some old)
          writer.or_abort (writer.copy_suffix_from old writer.total_len old_length)
        else pure writer) w := by
  refine (ingest_alone hstored hw hfits).bind (fun writer' w' hgeneration _ hlength hfits' hw' => ?_)
  rw [← hlength]
  exact rewrite_suffix_alone (hgeneration ▸ hstored) hw' (hgeneration ▸ hne) hfits'

theorem rewrite_zeros_alone {old_length offset : Nat} {chunks : List Bytes}
    {preserve_old_suffix : Bool} {staged : Nat} (hstaged : writer.total_len +
      (offset - old_length) + chunks.flatten.length = staged)
    (hstored : base.content_generations.contains writer.generation_id = true)
    (hw : Filling base writer.generation_id w) (hne : old ≠ writer.generation_id)
    (hfits : writer.total_len ≤ writer.max_file_bytes) :
    Fills rt base writer (offset - old_length + (chunks.flatten.length +
      if preserve_old_suffix ∧ staged < old_length then
        (base.fetched old ⟨staged, old_length⟩).length else 0)) (do
        let writer ←
          if old_length < offset then writer.or_abort (writer.zero_fill (offset - old_length))
          else pure writer
        let writer ← ChunkWriter.ingest (chunks.map .ok) writer
        if preserve_old_suffix ∧ writer.total_len < old_length then do
          let old ← Task.expect (some old)
          writer.or_abort (writer.copy_suffix_from old writer.total_len old_length)
        else pure writer) w := by
  subst hstaged
  by_cases hbeyond : old_length < offset
  · simp only [hbeyond, if_true]
    refine (or_abort_alone (zero_rounds_alone (le_refl _) hstored hw hfits)).bind
      (fun writer' w' hgeneration _ hlength hfits' hw' => ?_)
    rw [← hlength]
    exact rewrite_source_alone (hgeneration ▸ hstored) hw' (hgeneration ▸ hne) hfits'
  · simp only [hbeyond, if_false]
    rw [Nat.sub_eq_zero_of_le (not_lt.mp hbeyond), Nat.zero_add, Nat.add_zero]
    exact rewrite_source_alone hstored hw hne hfits

/-- What a lone rewriting of a file stages. -/
theorem rewrite_alone {g : GenerationId} {limit old_length offset : Nat} {chunks : List Bytes}
    {preserve_old_suffix : Bool} (hstored : base.content_generations.contains g = true)
    (hw : Filling base g w) (hnone : ∀ i, w.db.content_chunks.find? (g, i) = none) (hne : old ≠ g)
    (hlimit : old_length ≤ limit) :
    Fills rt base (ChunkWriter.new g limit)
      (base.rewritten_length old old_length offset chunks.flatten.length preserve_old_suffix)
      (content.rewrite (ChunkWriter.new g limit) (some old) old_length offset (chunks.map .ok)
        preserve_old_suffix) w := by
  have hfits : (ChunkWriter.new g limit).total_len + min offset old_length ≤
      (ChunkWriter.new g limit).max_file_bytes := by
    rw [show (ChunkWriter.new g limit).total_len = 0 from rfl,
      show (ChunkWriter.new g limit).max_file_bytes = limit from rfl]
    omega
  refine Fills.of_eq ((or_abort_alone
    (@copy_prefix_alone rt base _ w old hstored hw hne hnone _ hfits)).bind
      (fun writer' w' hgeneration _ hlength hfits' hw' =>
        @rewrite_zeros_alone rt base writer' w' old old_length offset chunks preserve_old_suffix
          (base.prefix_length old (min offset old_length) + (offset - old_length) +
            chunks.flatten.length) ?_ (hgeneration ▸ hstored) hw' (hgeneration ▸ hne) hfits')) ?_
  · rw [hlength, show (ChunkWriter.new g limit).total_len = 0 from rfl, Nat.zero_add]
  · unfold Db.rewritten_length
    simp only
    split <;> simp only [Nat.add_assoc, Nat.add_zero]

end fills

section replace

variable {rt : Runtime} {w : World} {ws : WorkspaceId} {path : VirtualPath} {n : NodeRow}
  {row : WorkspaceRow} {old : GenerationId} {chunks : List Bytes} {expected : Option Revision}
  {actor_json : Text}

theorem Settled.refused_iff {limit length : Nat} {result : FsResult Node}
    (h : Settled path expected n limit length result) : Refused result ↔ limit < length := by
  cases h with
  | replaced _ _ _ hfits =>
    refine ⟨fun hrefused => ?_, fun hexceeds => absurd hfits (not_le.mpr hexceeds)⟩
    obtain ⟨err, herr, _⟩ := hrefused
    cases herr
  | refused hexceeds => exact ⟨fun _ => hexceeds, fun _ => ⟨_, rfl, rfl⟩⟩
  | outdated _ hfits =>
    refine ⟨fun hrefused => ?_, fun hexceeds => absurd hfits (not_le.mpr hexceeds)⟩
    obtain ⟨err, herr, hcode⟩ := hrefused
    cases herr
    cases hcode

theorem resolve_existing_file_alone {raw : RawNode}
    (hfound : resolve.resolve w.db ws path = some raw) (hkind : raw.kind = .File) :
    (resolve_existing_file ws path).run.run (DbCall.exec rt) w = (.ok (some raw), w) := by
  have hexec : (DbCall.resolve ws path).exec rt w = (.ok (some raw), w) := by
    rw [← hfound]
    rfl
  refine (Task.run_bind_ok (Task.run_call.trans hexec)).trans ?_
  simp only [hkind, if_true]
  rfl

/-- A lone rewriting of a file ends as what it stages allows. -/
theorem write_at_impl_alone (hwf : WellFormed w.db)
    (hfresh : w.db.generation? (rt.newId w.tick) = none) (hrow : w.db.workspace? ws = some row)
    (hfound : resolve.resolve w.db ws path = some n.toRawNode) (hlive : Live w.db ws n)
    (hkind : n.kind = .File) (hold : n.content_generation_id = some old)
    (hlimit : n.size ≤ row.max_file_bytes) (offset : Nat) (create preserve_old_suffix : Bool) :
    ∃ result w', (write_at_impl ws path offset (chunks.map .ok) create expected actor_json
        preserve_old_suffix).run.run (DbCall.exec rt) w = (result, w') ∧
      Settled path expected n row.max_file_bytes
        (w.db.rewritten_length old n.size offset chunks.flatten.length preserve_old_suffix)
        result := by
  have hne : old ≠ rt.newId w.tick := by
    rintro rfl
    obtain ⟨_, gen, hgen, _⟩ := hwf.contents.generation n hlive.mem _ hold
    rw [hfresh] at hgen
    cases hgen
  have hnone : ∀ i, w.db.content_chunks.find? (rt.newId w.tick, i) = none := by
    refine fun i => Table.find?_eq_none.mpr (fun c hc hkey => ?_)
    obtain ⟨gen, hgen⟩ := hwf.contents.chunk c hc
    rw [show c.generation_id = rt.newId w.tick from congrArg Prod.fst hkey, hfresh] at hgen
    cases hgen
  obtain ⟨result, w', hrun, hsettled⟩ :=
    @staged_alone rt ws w path _ ⟨create, expected⟩ actor_json n row
      (fun writer => rewrite writer (some old) n.size offset (chunks.map .ok) preserve_old_suffix)
      hwf hfresh hrow hfound hlive hkind (fun g w' hcreate => by
        obtain ⟨gens, rfl, hins, hw'⟩ := create_generation_ok hcreate
        have hsame : w'.db.content_chunks = w.db.content_chunks := by rw [hw']
        refine Fills.of_eq (rewrite_alone ?_ ⟨w'.db.content_chunks, rfl, fun _ _ _ => rfl⟩
          (fun i => by rw [hsame]; exact hnone i) hne hlimit) (Db.rewritten_length_congr hsame)
        rw [hw']
        exact Table.contains_iff.mpr ⟨_, (Table.find?_insert hins _).trans (if_pos rfl)⟩)
  refine ⟨result, w', ?_, hsettled⟩
  rw [← hrun]
  refine (Task.run_bind_ok (resolve_existing_file_alone hfound hkind)).trans ?_
  simp only [Option.isNone_some, Bool.false_eq_true, false_and, if_false, Option.map_some,
    Option.getD_some, Option.bind_some, hold]

end replace

section requests

variable {rt : Runtime} {ctx : RequestContext} {w : World} {path : VirtualPath} {raw : RawNode}
  {row : WorkspaceRow} {old : GenerationId}

/-- An existing file, and a client that may write to it. -/
structure Writable (db : Db) (ctx : RequestContext) (path : VirtualPath) (raw : RawNode)
    (row : WorkspaceRow) : Prop where
  may_write : ctx.has_capability .Write = true
  found : resolve.resolve db ctx.workspace_id path = some raw
  kind : raw.kind = .File
  workspace : db.workspace? ctx.workspace_id = some row

theorem Refused.map_iff {A B : Type} {f : A → B} {result : FsResult A} :
    Refused (result.map f) ↔ Refused result := by
  cases result with
  | ok a =>
    constructor
    · rintro ⟨_, herr, _⟩
      cases herr
    · rintro ⟨_, herr, _⟩
      cases herr
  | error err =>
    constructor
    · rintro ⟨_, herr, hcode⟩
      cases herr
      exact ⟨_, rfl, hcode⟩
    · rintro ⟨_, herr, hcode⟩
      cases herr
      exact ⟨_, rfl, hcode⟩

/-- A request that answers with the node of a replaced file. -/
theorem Request.refused_iff {request : Request} {replace : Task Node} {n : NodeRow}
    {expected : Option Revision} {limit length : Nat} (hwrite : ctx.has_capability .Write = true)
    (hserve : request.serve rt ctx = (Reply.Node <$> do
      require_capability ctx .Write path.as_str; replace : Task Reply))
    (h : ∃ result w', replace.run.run (DbCall.exec rt) w = (result, w') ∧
      Settled path expected n limit length result) :
    Refused (request.alone rt ctx w).1 ↔ limit < length := by
  obtain ⟨result, w', hrun, hsettled⟩ := h
  unfold Request.alone
  rw [hserve, Task.run_map, Task.run_required hwrite, hrun, Refused.map_iff]
  exact hsettled.refused_iff

theorem Request.write_refused_iff (hreach : Reachable rt w)
    (hwritable : Writable w.db ctx path raw row) (chunks : List Bytes) (options : WriteOptions) :
    Refused ((Request.Write path (chunks.map .ok) options).alone rt ctx w).1 ↔
      row.max_file_bytes < chunks.flatten.length := by
  obtain ⟨n, rfl, hlive⟩ := resolve_live hwritable.found
  exact Request.refused_iff hwritable.may_write rfl (write_alone hreach.sound.wf
    hreach.sound.issued.generation_fresh hwritable.workspace hwritable.found hlive hwritable.kind)

theorem Writable.within (hwritable : Writable w.db ctx path raw row) (hreach : Reachable rt w) :
    raw.size ≤ row.max_file_bytes := by
  obtain ⟨c, hreached, rfl⟩ := hreach
  obtain ⟨n, rfl, hlive⟩ := resolve_live hwritable.found
  obtain ⟨hrow, hid⟩ := Table.find?_eq_some.mp hwritable.workspace
  exact hreached.sized row hrow _ (Db.mem_sizes.mpr ⟨n, hlive.mem, hlive.workspace.trans hid.symm, rfl⟩)

theorem Request.rewrite_refused_iff (hreach : Reachable rt w)
    (hwritable : Writable w.db ctx path raw row) (hold : raw.content_generation_id = some old)
    {request : Request} {expected : Option Revision}
    {chunks : List Bytes} {offset : Nat} {create preserve_old_suffix : Bool}
    (hserve : request.serve rt ctx = (Reply.Node <$> do
      require_capability ctx .Write path.as_str
      write_at_impl ctx.workspace_id path offset (chunks.map .ok) create expected
        (actor_json rt ctx) preserve_old_suffix : Task Reply)) :
    Refused (request.alone rt ctx w).1 ↔ row.max_file_bytes <
      w.db.rewritten_length old raw.size offset chunks.flatten.length preserve_old_suffix := by
  have hlimit := hwritable.within hreach
  obtain ⟨n, rfl, hlive⟩ := resolve_live hwritable.found
  exact Request.refused_iff hwritable.may_write hserve (write_at_impl_alone hreach.sound.wf
    hreach.sound.issued.generation_fresh hwritable.workspace hwritable.found hlive hwritable.kind
    hold hlimit offset create preserve_old_suffix)

theorem Request.append_refused_iff (hreach : Reachable rt w)
    (hwritable : Writable w.db ctx path raw row) (hold : raw.content_generation_id = some old)
    (chunks : List Bytes) (options : WriteOptions) :
    Refused ((Request.Append path (chunks.map .ok) options).alone rt ctx w).1 ↔
      row.max_file_bytes <
        w.db.rewritten_length old raw.size raw.size chunks.flatten.length true := by
  have hlimit := hwritable.within hreach
  obtain ⟨n, rfl, hlive⟩ := resolve_live hwritable.found
  obtain ⟨result, w', hrun, hsettled⟩ := @write_at_impl_alone rt w ctx.workspace_id path n row old
    chunks options.expected_revision (actor_json rt ctx) hreach.sound.wf
    hreach.sound.issued.generation_fresh hwritable.workspace hwritable.found hlive hwritable.kind
    hold hlimit n.size options.create true
  refine Request.refused_iff hwritable.may_write rfl ⟨result, w', ?_, hsettled⟩
  exact (Task.run_bind_ok (resolve_existing_file_alone hwritable.found hwritable.kind)).trans hrun

end requests

/-- No file is larger than its workspace allows, and a write to an existing file is refused for
its size exactly when it would make the file larger than that. -/
structure QuotaExact (rt : Runtime) (w : World) : Prop where
  sizes : ∀ row ∈ w.db.workspaces, ∀ n ∈ w.db.nodes, n.workspace_id = row.id → n.kind = .File →
    n.size ≤ row.max_file_bytes
  write : ∀ {ctx path raw row}, Writable w.db ctx path raw row → ∀ (chunks : List Bytes) options,
    Refused ((Request.Write path (chunks.map .ok) options).alone rt ctx w).1 ↔
      row.max_file_bytes < chunks.flatten.length
  write_at : ∀ {ctx path raw row}, Writable w.db ctx path raw row →
    ∀ offset (chunks : List Bytes) options,
      Refused ((Request.WriteAt path offset (chunks.map .ok) options).alone rt ctx w).1 ↔
        row.max_file_bytes < max raw.size (offset + chunks.flatten.length)
  append : ∀ {ctx path raw row}, Writable w.db ctx path raw row → ∀ (chunks : List Bytes) options,
    Refused ((Request.Append path (chunks.map .ok) options).alone rt ctx w).1 ↔
      row.max_file_bytes < raw.size + chunks.flatten.length
  truncate : ∀ {ctx path raw row}, Writable w.db ctx path raw row → ∀ length options,
    Refused ((Request.Truncate path length options).alone rt ctx w).1 ↔
      row.max_file_bytes < length

/-- In every run in which each bulk copy of chunks finds its source, the quota for files is
exact. -/
theorem Reached.quota_exact {rt : Runtime} {c : System}
    (h : Reached rt (fun c _ o => o.FindsSource c.state.db) c) : QuotaExact rt c.state := by
  have hreach : Reachable rt c.state :=
    ⟨c, h.mono (fun _ hp => hp) (fun _ _ _ _ => trivial), rfl⟩
  have hlaid : ∀ {ctx path raw row}, Writable c.state.db ctx path raw row →
      ∃ g bytes, raw.content_generation_id = some g ∧ bytes.length = raw.size ∧
        c.state.db.Laid g bytes := by
    intro ctx path raw row hwritable
    have hsound := Reached.sound (P := Policy.storing)
      (h.mono (fun _ hp => hp) (fun c _ o hfinds => Policy.storing_allows hfinds))
    obtain ⟨n, rfl, hlive⟩ := resolve_live hwritable.found
    obtain ⟨g, hg⟩ :=
      Option.ne_none_iff_exists'.mp (hsound.wf.contents.file n hlive.mem hwritable.kind)
    obtain ⟨bytes, hbytes, hlaid⟩ := hsound.laid not_false trivial n hlive.mem g hg
    exact ⟨g, bytes, hg, hbytes, hlaid⟩
  constructor
  · intro row hrow n hn hws _
    exact h.sized row hrow _ (Db.mem_sizes.mpr ⟨n, hn, hws, rfl⟩)
  · exact fun hwritable chunks options =>
      Request.write_refused_iff hreach hwritable chunks options
  · intro ctx path raw row hwritable offset chunks options
    obtain ⟨g, bytes, hg, hlength, hlaid⟩ := hlaid hwritable
    rw [Request.rewrite_refused_iff hreach hwritable hg rfl, ← hlength, hlaid.rewritten_length,
      if_pos rfl]
  · intro ctx path raw row hwritable chunks options
    obtain ⟨g, bytes, hg, hlength, hlaid⟩ := hlaid hwritable
    rw [Request.append_refused_iff hreach hwritable hg, ← hlength, hlaid.rewritten_length,
      if_pos rfl, Nat.max_eq_right (Nat.le_add_right _ _)]
  · intro ctx path raw row hwritable length options
    obtain ⟨g, bytes, hg, hlength, hlaid⟩ := hlaid hwritable
    have hrefused := @Request.rewrite_refused_iff rt ctx c.state path raw row g hreach hwritable hg
      (.Truncate path length options) options.expected_revision [] length false false rfl
    rw [hrefused, ← hlength, hlaid.rewritten_length, if_neg Bool.false_ne_true]
    rfl

/-- The file is full: a byte more is refused, and one that replaces another is not. -/
theorem spliced_quota_exact :
    ∃ raw row, Writable splicedSystem.state.db (.trusted 0) (.named [['f']]) raw row ∧
    (∃ n ∈ splicedSystem.state.db.nodes, n.kind = .File ∧ n.id = raw.id ∧
      n.size ≤ row.max_file_bytes) ∧
    Refused ((Request.Append (.named [['f']]) [.ok [], .ok [3]] {}).alone
      Runtime.counting (.trusted 0) splicedSystem.state).1 ∧
    ¬ Refused ((Request.WriteAt (.named [['f']]) CHUNK_SIZE [.ok [3]] {}).alone
      Runtime.counting (.trusted 0) splicedSystem.state).1 ∧
    Refused ((Request.WriteAt (.named [['f']]) CHUNK_SIZE [.ok [3], .ok [4]] {}).alone
      Runtime.counting (.trusted 0) splicedSystem.state).1 ∧
    ¬ Refused ((Request.Write (.named [['f']]) [.ok [3], .ok [4]] {}).alone
      Runtime.counting (.trusted 0) splicedSystem.state).1 ∧
    Refused ((Request.Truncate (.named [['f']]) (CHUNK_SIZE + 2) {}).alone
      Runtime.counting (.trusted 0) splicedSystem.state).1 := by
  have hfile : (resolve.resolve splicedSystem.state.db 0 (.named [['f']])).any (fun raw =>
      decide (raw.kind = .File ∧ raw.size = CHUNK_SIZE + 1)) = true := by decide +kernel
  have hspace : (splicedSystem.state.db.workspace? 0).any (fun row =>
      decide (row.max_file_bytes = CHUNK_SIZE + 1)) = true := by decide +kernel
  obtain ⟨raw, hfound, hraw⟩ := (Option.any_eq_true _ _).mp hfile
  obtain ⟨row, hrow, hlimit⟩ := (Option.any_eq_true _ _).mp hspace
  obtain ⟨hkind, hsize⟩ := of_decide_eq_true hraw
  have hlimit := of_decide_eq_true hlimit
  have hwritable : Writable splicedSystem.state.db (.trusted 0) (.named [['f']]) raw row :=
    ⟨by decide, hfound, hkind, hrow⟩
  have hexact := splicedSystem_reached.quota_exact
  obtain ⟨n, rfl, hlive⟩ := resolve_live hfound
  obtain ⟨hmem, hid⟩ := Table.find?_eq_some.mp hrow
  refine ⟨_, row, hwritable, ⟨n, hlive.mem, hkind, rfl,
    hexact.sizes row hmem n hlive.mem (hlive.workspace.trans hid.symm) hkind⟩, ?_, ?_, ?_, ?_, ?_⟩
  · refine (hexact.append hwritable [[], [3]] {}).mpr ?_
    rw [hlimit, hsize]
    decide
  · refine mt (hexact.write_at hwritable CHUNK_SIZE [[3]] {}).mp ?_
    rw [hlimit, hsize]
    decide
  · refine (hexact.write_at hwritable CHUNK_SIZE [[3], [4]] {}).mpr ?_
    rw [hlimit, hsize]
    decide
  · refine mt (hexact.write hwritable [[3], [4]] {}).mp ?_
    rw [hlimit]
    decide
  · refine (hexact.truncate hwritable (CHUNK_SIZE + 2) {}).mpr ?_
    rw [hlimit]
    decide

/-- A write that would leave a file larger than allowed goes through where the first chunk of the
file is missing. -/
theorem holed_quota_inexact : Reached Runtime.counting (fun _ _ _ => True) holedSystem ∧
    ¬ QuotaExact Runtime.counting holedSystem.state := by
  have hfile : (resolve.resolve holedWorld.db 0 (.named [['f']])).any (fun raw =>
      decide (raw.kind = .File ∧ raw.content_generation_id = some 7 ∧
        raw.size = CHUNK_SIZE + 1)) = true := by decide +kernel
  have hspace : (holedWorld.db.workspace? 0).any (fun row =>
      decide (row.max_file_bytes = CHUNK_SIZE + 1)) = true := by decide +kernel
  have hfirst : (holedWorld.db.content_chunks.find? (7, 0)).isSome = false := by decide +kernel
  obtain ⟨raw, hfound, hraw⟩ := (Option.any_eq_true _ _).mp hfile
  obtain ⟨row, hrow, hlimit⟩ := (Option.any_eq_true _ _).mp hspace
  obtain ⟨hkind, hcontent, hsize⟩ := of_decide_eq_true hraw
  have hlimit := of_decide_eq_true hlimit
  have hreached : Reached Runtime.counting (fun _ _ _ => True) holedSystem :=
    Reached.scheduled _ _ _
  have hreach : Reachable Runtime.counting holedSystem.state := ⟨holedSystem, hreached, rfl⟩
  refine ⟨hreached, fun hexact => ?_⟩
  rw [holedSystem_state] at hexact hreach
  have hwritable : Writable holedWorld.db (.trusted 0) (.named [['f']]) raw row :=
    ⟨by decide, hfound, hkind, hrow⟩
  have hlength : ([blank, [1]] : List Bytes).flatten.length = CHUNK_SIZE + 1 := by
    rw [List.flatten_cons, List.length_append, blank, List.length_replicate]
    rfl
  have hrefused := (hexact.write_at hwritable 1 [blank, [1]] {}).mpr (by
    rw [hlength, hlimit]
    omega)
  rw [Request.rewrite_refused_iff hreach hwritable hcontent rfl, hlength, hlimit, hsize] at hrefused
  have hhead : holedWorld.db.prefix_length 7 (min 1 (CHUNK_SIZE + 1)) = 0 := by
    unfold Db.prefix_length
    rw [Nat.min_eq_left (Nat.le_add_left _ _), show chunk_index_of 1 = 0 from by decide,
      content.fetch_chunk_bytes, Option.isNone_iff_eq_none.mp (Option.isSome_eq_false_iff.mp hfirst)]
    rfl
  have hstaged : holedWorld.db.rewritten_length 7 (CHUNK_SIZE + 1) 1 (CHUNK_SIZE + 1) true =
      CHUNK_SIZE + 1 := by
    unfold Db.rewritten_length
    rw [hhead, Nat.sub_eq_zero_of_le (Nat.le_add_left _ _), Nat.zero_add]
    exact if_neg (fun h => lt_irrefl _ h.2)
  exact lt_irrefl _ (hstaged ▸ hrefused)

end fslite
