import Fslite.Sqlite.Run.Request

namespace fslite

open content

/-- The content of the node is stored: its generation is complete and has the
node's size; its chunks are the ones before `count`, each of them full but for the
last, and together they are as long as the node. -/
def Db.Keeps (db : Db) (n : NodeRow) : Prop :=
  ∃ g row count, n.content_generation_id = some g ∧ db.generation? g = some row ∧
    row.complete = true ∧
    row.length = n.size ∧ (∀ i, (db.content_chunks.find? (g, i)).isSome = true ↔ i < count) ∧
    (∀ i c, db.content_chunks.find? (g, i) = some c → i + 1 < count → c.bytes.length = CHUNK_SIZE) ∧
    ((List.range count).map (fun i => (fetch_chunk_bytes db g i).length)).sum = n.size

/-- Bytes that are cut into chunks are chunks without a gap. -/
theorem Db.Laid.chunks {db : Db} {g : GenerationId} {bytes : Bytes} (h : db.Laid g bytes) :
    ∃ count, (∀ i, (db.content_chunks.find? (g, i)).isSome = true ↔ i < count) ∧
      (∀ i c, db.content_chunks.find? (g, i) = some c → i + 1 < count →
      c.bytes.length = CHUNK_SIZE) ∧
      ((List.range count).map (fun i => (fetch_chunk_bytes db g i).length)).sum = bytes.length := by
  have hpos := chunk_size_pos
  have hcount : ∀ i, i < (bytes.length + (CHUNK_SIZE - 1)) / CHUNK_SIZE ↔
      i * CHUNK_SIZE < bytes.length := by
    intro i
    rw [Nat.lt_iff_add_one_le, Nat.le_div_iff_mul_le hpos, Nat.succ_mul]
    omega
  refine ⟨(bytes.length + (CHUNK_SIZE - 1)) / CHUNK_SIZE, fun i => ?_, fun i c hc hi => ?_, ?_⟩
  · rw [hcount, ← Option.isSome_map (f := ChunkRow.bytes), h i]
    unfold piece?
    split <;> simp [*]
  · have hpiece := (h i).symm
    rw [hc, Option.map_some, piece?_eq_some] at hpiece
    have hnext := (hcount (i + 1)).mp hi
    rw [Nat.succ_mul] at hnext
    rw [hpiece.2, piece_length]
    omega
  · have hbytes : ∀ i ∈ List.range ((bytes.length + (CHUNK_SIZE - 1)) / CHUNK_SIZE),
        (fetch_chunk_bytes db g i).length = (piece CHUNK_SIZE bytes i).length := by
      intro i hi
      have hlt := (hcount i).mp (List.mem_range.mp hi)
      rw [fetch_chunk_bytes, h i, piece?, if_pos hlt, Option.getD_some]
    rw [List.map_congr_left hbytes, ← List.length_flatMap, List.range_eq_range', flatMap_piece,
      Nat.zero_mul, List.drop_zero,
      List.length_take, Nat.min_eq_right]
    have hlast := mt (hcount ((bytes.length + (CHUNK_SIZE - 1)) / CHUNK_SIZE)).mpr (Nat.lt_irrefl _)
    exact Nat.not_lt.mp hlast

/-- The policy that copies chunks only from generations that are stored. -/
def Policy.storing : Policy := { Policy.any with laid := True }

/-- A bulk copy of chunks finds the generation that it copies from. -/
def DbCall.FindsSource (db : Db) : DbCall → Prop
  | .copy_chunk_range from_generation _ _ _ => ∃ row, db.generation? from_generation = some row
  | _ => True

theorem Db.generation?_isSome (db : Db) (id : GenerationId) :
    (db.generation? id).isSome = true ↔ ∃ row, db.generation? id = some row :=
  Option.isSome_iff_exists

instance (db : Db) : (o : DbCall) → Decidable (o.FindsSource db)
  | .copy_chunk_range source _ _ _ => decidable_of_iff _ (db.generation?_isSome source)
  | .resolve .. | .resolve_following .. | .fetch_max_file_bytes .. | .fetch_usage .. | .fetch_changes_page ..
  | .create_generation .. | .upsert_chunk .. | .fetch_chunk_bytes .. | .delete_generation .. | .finalize ..
  | .transaction .. | .batch .. | .create_workspace .. | .reset_workspace .. | .delete_workspace .. =>
    inferInstanceAs (Decidable True)

theorem Policy.permits_storing (ws : WorkspaceId) (db : Db) (operation : BatchOperation) :
    Policy.storing.Permits ws db operation :=
  Policy.permits_all (fun _ _ _ => trivial) (fun _ _ => trivial) (fun _ _ => trivial)
    (fun _ _ => trivial) ws db operation

theorem Policy.storing_allows {rt : Runtime} {w : World} {call : DbCall}
    (h : call.FindsSource w.db) :
    Policy.storing.Allows rt w call := by
  cases call with
  | copy_chunk_range => exact fun _ => h
  | transaction ws operation => exact Policy.permits_storing ws w.db operation
  | batch ctx operations =>
    exact fun _ => Policy.permitsAll_of_performs
      (fun db operation _ => Policy.permits_storing _ db operation)
  | _ => trivial

/-- In every run in which each bulk copy of chunks finds its source, the content
of every file is stored. -/
theorem Reached.contents_kept {rt : Runtime} {c : System}
    (h : Reached rt (fun c _ o => o.FindsSource c.state.db) c) :
    ∀ n ∈ c.state.db.nodes, n.kind = .File → c.state.db.Keeps n := by
  have hsound := Reached.sound (P := Policy.storing)
    (h.mono (fun _ hp => hp) (fun c _ o hfinds => Policy.storing_allows hfinds))
  intro n hn hkind
  obtain ⟨g, hg⟩ := Option.ne_none_iff_exists'.mp (hsound.wf.contents.file n hn hkind)
  obtain ⟨_, row, hrow, hcomplete, hlength, _⟩ := hsound.wf.contents.generation n hn g hg
  obtain ⟨bytes, hbytes, hlaid⟩ := hsound.laid not_false trivial n hn g hg
  obtain ⟨count, hchunks, hfull, hsum⟩ := hlaid.chunks
  exact ⟨g, row, count, hg, hrow, hcomplete, hlength, hchunks, hfull, hbytes ▸ hsum⟩

/-- A full chunk is stored as it is. -/
theorem content.ChunkWriter.write_bytes_full {g : GenerationId} {limit : Nat} {chunk : Bytes}
    (hlength : chunk.length = CHUNK_SIZE) (hlimit : CHUNK_SIZE ≤ limit) :
    (ChunkWriter.new g limit).write_bytes chunk =
    (ChunkWriter.new g limit).flush_full_buffer chunk := by
  have hpos := chunk_size_pos
  obtain ⟨rounds, hrounds⟩ : ∃ rounds, CHUNK_SIZE = rounds + 1 := ⟨CHUNK_SIZE - 1, by omega⟩
  have hne : chunk ≠ [] := fun hnil => absurd hlength (by rw [hnil]; exact hpos.ne)
  have hrest : ∀ writer : ChunkWriter, writer.write_rounds rounds [] = pure writer := by
    intro writer
    cases rounds with
    | zero => rfl
    | succ rounds => rw [ChunkWriter.write_rounds, if_pos rfl]
  have hspace : min (CHUNK_SIZE - (ChunkWriter.new g limit).buffer.length) chunk.length =
      chunk.length := by
    rw [hlength]
    exact Nat.min_self _
  have hall : (ChunkWriter.new g limit).buffer ++ chunk = chunk := List.nil_append chunk
  unfold ChunkWriter.write_bytes
  rw [show chunk.length = rounds + 1 from hlength.trans hrounds, ChunkWriter.write_rounds,
    if_neg hne]
  simp only [hspace, List.take_length, List.drop_length, hall, hrest]
  have hwithin : ¬ (ChunkWriter.new g limit).max_file_bytes <
      (ChunkWriter.new g limit).committed_len + chunk.length := by
    show ¬ limit < 0 + chunk.length
    omega
  rw [if_neg hwithin, dif_neg (by omega)]
  refine congrArg (Prog.call _) (funext fun r => ?_)
  cases r <;> rfl

/-- One full chunk. -/
def blank : Bytes := List.replicate CHUNK_SIZE 0

/-- One full chunk and one more byte. -/
def wideSource : WriteSource := [.ok blank, .ok [1]]

/-- Taking them in without a look at the bytes of the full chunk. -/
def ingest_wide (g : GenerationId) (limit : Nat) : Task ChunkWriter := do
  let writer ← (ChunkWriter.new g limit).or_abort
    (if CHUNK_SIZE ≤ limit then (ChunkWriter.new g limit).flush_full_buffer blank
    else (ChunkWriter.new g limit).write_rounds blank.length blank)
  ChunkWriter.ingest [.ok [1]] writer

theorem ingest_wideSource (g : GenerationId) (limit : Nat) :
    ChunkWriter.ingest wideSource (ChunkWriter.new g limit) = ingest_wide g limit := by
  have hblank : (if CHUNK_SIZE ≤ limit then (ChunkWriter.new g limit).flush_full_buffer blank
      else (ChunkWriter.new g limit).write_rounds blank.length blank) =
        (ChunkWriter.new g limit).write_bytes blank := by
    split
    · rename_i hlimit
      exact (ChunkWriter.write_bytes_full List.length_replicate hlimit).symm
    · rfl
  rw [ingest_wide, hblank, wideSource, ChunkWriter.ingest]

def stage_wide (g : GenerationId) (limit : Nat) : Task (GenerationId × Nat) := do
  let writer ← ingest_wide g limit
  writer.finish

/-- A new file of these bytes, written without a look at the full chunk. -/
def serve_wide (rt : Runtime) (ctx : RequestContext) (path : VirtualPath) (options : WriteOptions) :
    Task Reply :=
  .Node <$> do
    require_capability ctx .Write path.as_str
    let max_file_bytes ← content.max_file_bytes ctx.workspace_id
    let generation_id ← start_new_generation ctx.workspace_id
    let (generation_id, length) ← stage_wide generation_id max_file_bytes
    finalize ctx.workspace_id path generation_id length ⟨options.create, options.expected_revision⟩
      (actor_json rt ctx)

theorem serve_wideSource (rt : Runtime) (ctx : RequestContext) (path : VirtualPath)
    (options : WriteOptions) :
    (Request.Write path wideSource options).serve rt ctx = serve_wide rt ctx path options := by
  simp only [Request.serve, SqliteFileSystem.write, content.write, stage_source, ingest_wideSource,
    serve_wide, stage_wide]

/-- A file of one full chunk and one byte, `write_at` to the last byte of it, and
`write` of nothing. -/
def holedRequests : List (RequestContext × Request) :=
  [(.trusted 0, .CreateWorkspace { max_file_bytes := CHUNK_SIZE + 1 }),
    (.trusted 0, .Write (.named [['f']]) wideSource {}),
    (.trusted 0, .WriteAt (.named [['f']]) CHUNK_SIZE [.ok [2]] {}),
    (.trusted 0, .Write (.named [['f']]) [] {})]

/-- The last `write` takes place between two calls of the `write_at`. -/
def holedSystem : System := System.scheduled Runtime.counting holedRequests
    [0, 1, 1, 1, 1, 1, 2, 2, 2, 3, 3, 3, 2, 2, 2]

/-- The store after it. -/
def holedWorld : World :=
  (Config.schedule (DbCall.exec Runtime.counting) (⟨⟨Db.empty, 0⟩,
    [((Request.CreateWorkspace { max_file_bytes := CHUNK_SIZE + 1 }).serve Runtime.counting
      (.trusted 0)).run,
      (serve_wide Runtime.counting (.trusted 0) (.named [['f']]) {}).run,
      ((Request.WriteAt (.named [['f']]) CHUNK_SIZE [.ok [2]]
        {}).serve Runtime.counting (.trusted 0)).run,
      ((Request.Write (.named [['f']]) [] {}).serve Runtime.counting
        (.trusted 0)).run]⟩ : System)
    [0, 1, 1, 1, 1, 1, 2, 2, 2, 3, 3, 3, 2, 2, 2]).state

theorem holedSystem_state : holedSystem.state = holedWorld := by
  unfold holedSystem System.scheduled holedRequests holedWorld
  rw [List.map_cons, List.map_cons, List.map_cons, List.map_cons, List.map_nil, serve_wideSource]

/-- The file then has its second chunk, but not its first. -/
theorem holed_not_kept : Reached Runtime.counting (fun _ _ _ => True) holedSystem ∧
    ∃ n ∈ holedSystem.state.db.nodes, n.kind = .File ∧ ¬ holedSystem.state.db.Keeps n := by
  have hholed : ∃ n ∈ holedWorld.db.nodes.rows,
    (n.kind = .File ∧ n.content_generation_id = some 7) ∧
      (holedWorld.db.content_chunks.find? (7, 0)).isSome = false ∧
      (holedWorld.db.content_chunks.find? (7, 1)).isSome = true := by decide +kernel
  obtain ⟨n, hn, ⟨hkind, hcontent⟩, hfirst, hsecond⟩ := hholed
  rw [holedSystem_state]
  refine ⟨Reached.scheduled _ _ _, n, hn, hkind, ?_⟩
  rintro ⟨g, row, count, hg, _, _, _, hchunks, _⟩
  rw [hcontent, Option.some.injEq] at hg
  subst hg
  rw [(hchunks 0).mpr (Nat.zero_lt_of_lt ((hchunks 1).mp hsecond))] at hfirst
  cases hfirst

/-- The same file and `write_at`, and a directory. -/
def splicedRequests : List (RequestContext × Request) :=
  [(.trusted 0, .CreateWorkspace { max_file_bytes := CHUNK_SIZE + 1 }),
    (.trusted 0, .Write (.named [['f']]) wideSource {}),
    (.trusted 0, .WriteAt (.named [['f']]) CHUNK_SIZE [.ok [2]] {}),
    (.trusted 0, .Perform (.Mkdir (.named [['a']]) {}))]

/-- They have arrived, and the file is written without a look at the full chunk. -/
def splicedStart : System :=
  ⟨⟨Db.empty, 0⟩,
    [((Request.CreateWorkspace { max_file_bytes := CHUNK_SIZE + 1 }).serve Runtime.counting
      (.trusted 0)).run,
      (serve_wide Runtime.counting (.trusted 0) (.named [['f']]) {}).run,
      ((Request.WriteAt (.named [['f']]) CHUNK_SIZE [.ok [2]]
        {}).serve Runtime.counting (.trusted 0)).run,
      ((Request.Perform (.Mkdir (.named [['a']]) {})).serve Runtime.counting
        (.trusted 0)).run]⟩

/-- The directory is made before the `write_at` copies the full chunk. -/
def splicedSystem : System := Config.schedule (DbCall.exec Runtime.counting) splicedStart
  [0, 1, 1, 1, 1, 1, 2, 2, 2, 3, 2, 2, 2]

theorem splicedSystem_reached :
    Reached Runtime.counting (fun c _ o => o.FindsSource c.state.db) splicedSystem := by
  have harrived : Reached Runtime.counting (fun c _ o => o.FindsSource c.state.db) splicedStart := by
    have h := Reached.arrived Runtime.counting (fun c _ o => o.FindsSource c.state.db) splicedRequests
    unfold splicedRequests System.arrived at h
    rw [List.map_cons, List.map_cons, List.map_cons, List.map_cons, List.map_nil, serve_wideSource] at h
    exact h
  exact Relation.ReflTransGen.trans harrived (Steps.schedule (by decide +kernel))

/-- The copy finds its source: the new content has the full chunk of the old one and its own last
chunk, and all of it is stored. -/
theorem spliced_file_kept :
    Reached Runtime.counting (fun c _ o => o.FindsSource c.state.db) splicedSystem ∧
    (∃ n ∈ splicedSystem.state.db.nodes.rows, n.kind = .File ∧ n.revision = 2 ∧
      n.content_generation_id = some 7 ∧ n.size = CHUNK_SIZE + 1) ∧
    (splicedSystem.state.db.content_chunks.find? (7, 0)).isSome = true ∧
    (splicedSystem.state.db.content_chunks.find? (7, 1)).map ChunkRow.bytes = some [2] ∧
    ∀ n ∈ splicedSystem.state.db.nodes, n.kind = .File → splicedSystem.state.db.Keeps n :=
  ⟨splicedSystem_reached, by decide +kernel, by decide +kernel, by decide +kernel,
    splicedSystem_reached.contents_kept⟩

end fslite
