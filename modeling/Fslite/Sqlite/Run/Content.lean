import Fslite.Sqlite.Run.Failure
import Fslite.Sqlite.Run.Integrity
import Fslite.Sqlite.Run.Location

namespace fslite

open content

/-- The path leads to a file with these bytes, and its chunks are these bytes, cut
into chunks. -/
structure Db.Stores (db : Db) (ws : WorkspaceId) (path : VirtualPath) (bytes : Bytes)
    (raw : RawNode) : Prop where
  found : resolve.resolve db ws path = some raw
  kind : raw.kind = .File
  length : bytes.length = raw.size
  laid : ∃ g, raw.content_generation_id = some g ∧ db.Laid g bytes

/-- The commit of a staged generation leaves its chunks as they are. -/
theorem content.Finalized.laid {rt : Runtime} {ws : WorkspaceId} {path : VirtualPath}
    {g : GenerationId} {length : Nat} {params : FinalizeParams} {w w' : World} {row : RawNode}
    {bytes : Bytes} (hwf : WellFormed w.db) (hprivate : Private w.db g)
    (h : Finalized rt ws path g length params w w' row) (hlaid : w.db.Laid g bytes) :
    w'.db.Laid g bytes := by
  cases h with
  | created habsent hparent_path hparent hdir hcreate hname hallowed hins htick happ =>
    obtain ⟨now, actor, row, changes, hrow, hins, hdb⟩ := happ
    intro i
    rw [hdb]
    exact hlaid i
  | @replaced n db hfound hlive hkind hstale hallowed htick happ hdrop hframe =>
    obtain ⟨old, hold⟩ := Option.ne_none_iff_exists'.mp (hwf.contents.file n hlive.mem hkind)
    have hne : old ≠ g := by
      rintro rfl
      exact hprivate.unreferenced n hlive.mem hold
    obtain ⟨now, actor, row, changes, hrow, hins, rfl⟩ := happ
    intro i
    rw [hdrop old hold hne, Db.chunk_drop, if_neg (Ne.symm hne)]
    exact hlaid i

/-- What a method has committed that has run alone. -/
theorem Session.Committed.stores {σ : Session} {path : VirtualPath} {params : FinalizeParams}
    {good : Bytes → Prop} {node : Node} {w : World} (h : σ.Committed path params good node w)
    (hlaid : σ.policy.laid) :
    ∃ bytes raw, good bytes ∧ w.db.Stores σ.ws path bytes raw := by
  obtain ⟨w₀, g, bytes, row, hwf, hprivate, _, _, hstaged, hgood, hfinal, _⟩ := h
  obtain ⟨raw, hfound, _, _, hkind, hg, hsize⟩ := hfinal.found (hfinal.nodesWellFormed hwf.nodes)
  exact ⟨bytes, raw, hgood, ⟨hfound, hkind, hsize.symm, g, hg,
    hfinal.laid hwf hprivate (hstaged hlaid)⟩⟩

/-- A session of one method that runs alone and must read what it copies. -/
def Session.solo (rt : Runtime) (ws : WorkspaceId) (before : Db) : Session :=
  ⟨rt, Policy.storing, True, ws, before, none⟩

theorem source_bytes_ok (chunks : List Bytes) : source_bytes (chunks.map .ok) = chunks.flatten := by
  induction chunks with
  | nil => rfl
  | cons chunk rest ih => rw [List.map_cons, source_bytes, ih, List.flatten_cons]

/-- What a method has committed that has run alone and returned a node. -/
theorem Session.Runs.committed {σ : Session} {w w' : World} {path : VirtualPath}
    {params : FinalizeParams} {good : Bytes → Prop} {ctx : RequestContext} {capability : Capability}
    {subject : Text} {p : Task Node} {reply : Reply}
    (h : σ.Runs none σ.Undone p (fun node _ w => σ.alone → σ.Committed path params good node w)
    (fun _ _ w => σ.Undone w)) (halone : σ.alone) (hw : Sound σ.rt σ.policy σ.alone w)
    (hbefore : w.db = σ.before)
    (hrun : (Reply.Node <$> (do require_capability ctx capability subject; p) : Task Reply).run.run
    (DbCall.exec σ.rt) w =
      (.ok reply, w')) : ∃ node, reply = .Node node ∧ σ.Committed path params good node w' := by
  rw [Task.run_map] at hrun
  unfold require_capability at hrun
  split at hrun
  · have hrun' : ((p.run.run (DbCall.exec σ.rt) w).1.map Reply.Node,
        (p.run.run (DbCall.exec σ.rt) w).2) = (.ok reply, w') := hrun
    rw [Prod.mk.injEq] at hrun'
    obtain ⟨hresult, rfl⟩ := hrun'
    obtain ⟨t, _, _, hpost⟩ :=
      Ownership.Triple.run h (fun _ _ hnot => absurd halone hnot) hw (held_none w)
      (fun _ => hbefore)
    cases hp : (p.run.run (DbCall.exec σ.rt) w).1 with
    | ok node =>
      rw [hp] at hpost hresult
      exact ⟨node, (Except.ok.inj hresult).symm, hpost halone⟩
    | error err =>
      rw [hp] at hresult
      cases hresult
  · cases hrun

theorem Session.Runs.returned {σ : Session} {w w' : World} {path : VirtualPath}
    {params : FinalizeParams} {good : Bytes → Prop} {ctx : RequestContext} {capability : Capability}
    {subject : Text} {p : Task Node} {reply : Reply}
    (h : σ.Runs none σ.Undone p (fun node _ w => σ.alone → σ.Committed path params good node w)
    (fun _ _ w => σ.Undone w)) (halone : σ.alone) (hlaid : σ.policy.laid)
    (hw : Sound σ.rt σ.policy σ.alone w) (hbefore : w.db = σ.before)
    (hrun : (Reply.Node <$> (do require_capability ctx capability subject; p) : Task Reply).run.run
    (DbCall.exec σ.rt) w =
      (.ok reply, w')) : ∃ bytes raw, good bytes ∧ w'.db.Stores σ.ws path bytes raw := by
  obtain ⟨node, _, hcommitted⟩ := h.committed halone hw hbefore hrun
  exact hcommitted.stores hlaid

/-- The part of a file that is read, chunk by chunk. -/
theorem content.drain_run {rt : Runtime} {w : World} (polls : Nat) {state : ChunkRangeState}
    (hdone : state.done = false) (hpolls : state.end_chunk + 1 - state.current_chunk < polls) :
    (state.drain polls).run (DbCall.exec rt) w =
      ((List.range' state.current_chunk (state.end_chunk + 1 - state.current_chunk)).map
      (fun index =>
        .ok (ChunkWriter.clip state.start state.end_ index
          (fetch_chunk_bytes w.db state.generation_id index))), w) := by
  induction polls generalizing state with
  | zero => omega
  | succ polls ih =>
    rw [drain_succ]
    split
    · rename_i hend
      have hnone : state.end_chunk + 1 - state.current_chunk = 0 := by
        obtain hd | hlt := hend
        · rw [hdone] at hd
          cases hd
        · omega
      rw [hnone]
      rfl
    · rename_i hmore
      have hle : state.current_chunk ≤ state.end_chunk :=
        Nat.not_lt.mp (fun hlt => hmore (Or.inr hlt))
      rw [Prog.run_call, show state.end_chunk + 1 - state.current_chunk = state.end_chunk +
        1 - (state.current_chunk + 1) + 1 by omega,
        List.range'_succ, List.map_cons]
      have hrest := @ih (state.after
        (.ok (fetch_chunk_bytes w.db state.generation_id state.current_chunk))) hdone
        (by simp only [ChunkRangeState.after]; omega)
      rw [Prog.run_bind]
      exact congrArg (fun r : List (FsResult Bytes) × World => (_ :: r.1, r.2)) hrest

/-- What the stream over a range of a generation yields; where a chunk is missing it goes on. -/
def Db.fetched (db : Db) (g : GenerationId) (range : ByteRange) : Bytes :=
  if range.end_ ≤ range.start then []
  else (List.range' (chunk_index_of range.start)
    (chunk_index_of (range.end_ - 1) + 1 - chunk_index_of range.start)).flatMap
    (fun index => ChunkWriter.clip range.start range.end_ index (fetch_chunk_bytes db g index))

/-- Of a generation whose chunks are laid out it yields the bytes of the range. -/
theorem Db.Laid.fetched {db : Db} {g : GenerationId} {bytes : Bytes} (hlaid : db.Laid g bytes)
    {range : ByteRange} (hend : range.end_ ≤ bytes.length) :
    db.fetched g range = (bytes.take range.end_).drop range.start := by
  unfold Db.fetched
  by_cases hempty : range.end_ ≤ range.start
  · rw [if_pos hempty, List.drop_of_length_le]
    rw [List.length_take]
    omega
  · rw [if_neg hempty, ← flatMap_clip (Nat.not_le.mp hempty) hend, List.flatMap_def,
      List.flatMap_def]
    congr 1
    refine List.map_congr_left (fun index _ => ?_)
    rw [Session.piece_of_laid hlaid]

/-- Reading to the end of the stream of an opened file. -/
theorem content.FileRead.into_stream_run {rt : Runtime} {w : World} {file : FileRead}
    {g : GenerationId} (hstream : file.stream = if file.range.end_ ≤ file.range.start then none
      else some (chunk_range_stream g file.range.start file.range.end_)) :
    ∃ chunks : List Bytes, file.into_stream.run (DbCall.exec rt) w = (chunks.map .ok, w) ∧
      chunks.flatten = w.db.fetched g file.range := by
  unfold FileRead.into_stream Db.fetched
  rw [hstream]
  by_cases hempty : file.range.end_ ≤ file.range.start
  · rw [if_pos hempty, if_pos hempty]
    exact ⟨[], rfl, rfl⟩
  · rw [if_neg hempty, if_neg hempty]
    have hchunks : chunk_index_of file.range.start ≤ chunk_index_of (file.range.end_ - 1) :=
      Nat.div_le_div_right (by omega)
    refine ⟨_, (drain_run _ rfl ?_).trans (congrArg (·, w) (List.map_map (g := Except.ok)).symm),
      ?_⟩
    · simp only [chunk_range_stream]
      omega
    · rw [List.flatMap_def]
      rfl

/-- What opening a file gives, and what its stream yields. -/
theorem content.read_run {rt : Runtime} {ctx : RequestContext} {w : World} {path : VirtualPath}
    {raw : RawNode} {g : GenerationId}
    (hfound : resolve.resolve w.db ctx.workspace_id path = some raw) (hkind : raw.kind = .File)
    (hg : raw.content_generation_id = some g) (hrevision : 0 < raw.revision)
    (hcapability : ctx.has_capability .Read = true) {options : ReadOptions} {range : ByteRange}
    (hrange : options.range.getD ⟨0, raw.size⟩ = range) :
    if raw.size < range.start then
      (SqliteFileSystem.read ctx path options).run.run
      (DbCall.exec rt) w = (.error (FsError.invalid_range path.as_str), w)
    else
      ∃ (file : FileRead) (chunks : List Bytes),
      (SqliteFileSystem.read ctx path options).run.run (DbCall.exec rt) w = (.ok file, w) ∧
      file.into_stream.run (DbCall.exec rt) w = (chunks.map .ok, w) ∧
      file.logical_length = raw.size ∧ file.revision.get = raw.revision ∧
      file.range = ⟨range.start, min range.end_ raw.size⟩ ∧
      chunks.flatten = w.db.fetched g ⟨range.start, min range.end_ raw.size⟩ := by
  obtain ⟨revision, hnew, hget⟩ : ∃ revision, Revision.new raw.revision = some revision ∧
      revision.get = raw.revision := by
    refine ⟨⟨raw.revision, hrevision⟩, ?_, rfl⟩
    rw [Revision.new, dif_pos hrevision]
  obtain ⟨file, hfile⟩ : ∃ file : FileRead, file = {
      logical_length := raw.size, revision, range := ⟨range.start, min range.end_ raw.size⟩
      stream := if min range.end_ raw.size ≤ range.start then none
        else some (chunk_range_stream g range.start (min range.end_ raw.size)) } := ⟨_, rfl⟩
  have hopen : (SqliteFileSystem.read ctx path options).run.run (DbCall.exec rt) w =
      (if raw.size < range.start then .error (FsError.invalid_range path.as_str) else .ok file,
        w) := by
    have hresolve : DbCall.exec rt (.resolve ctx.workspace_id path) w = (.ok (some raw), w) := by
      rw [← hfound]
      rfl
    unfold SqliteFileSystem.read require_capability
    rw [if_pos hcapability]
    show Prog.run (DbCall.exec rt) (Prog.call (.resolve ctx.workspace_id path) _) w = _
    rw [Prog.run_call, hresolve]
    simp only [Prog.bind, ExceptT.bindCont, hkind, hnew, hrange, hg, ne_eq, not_true_eq_false,
      if_false, hfile]
    by_cases hbeyond : raw.size < range.start
    · simp only [hbeyond, if_true]
      rfl
    · simp only [hbeyond, if_false]
      by_cases hempty : min range.end_ raw.size ≤ range.start
      · simp only [hempty, if_true]
        rfl
      · simp only [hempty, if_false]
        rfl
  by_cases hbeyond : raw.size < range.start
  · rw [if_pos hbeyond] at hopen ⊢
    exact hopen
  · rw [if_neg hbeyond] at hopen ⊢
    obtain ⟨chunks, hstream, hbytes⟩ := @FileRead.into_stream_run rt w file g (by rw [hfile])
    refine ⟨file, chunks, hopen,
      hstream, by rw [hfile], by rw [hfile]; exact hget, by rw [hfile], ?_⟩
    rw [hbytes, hfile]

/-- What opening a file that is stored whole gives. -/
theorem Db.Stores.opens {rt : Runtime} {ctx : RequestContext} {w : World} {path : VirtualPath}
    {bytes : Bytes} {raw : RawNode} (h : w.db.Stores ctx.workspace_id path bytes raw)
    (hrevision : 0 < raw.revision) (hcapability : ctx.has_capability .Read = true)
    {options : ReadOptions} {range : ByteRange}
    (hrange : options.range.getD ⟨0, bytes.length⟩ = range) :
    if bytes.length < range.start then
      (SqliteFileSystem.read ctx path options).run.run
      (DbCall.exec rt) w = (.error (FsError.invalid_range path.as_str), w)
    else
      ∃ (file : FileRead) (chunks : List Bytes),
      (SqliteFileSystem.read ctx path options).run.run (DbCall.exec rt) w = (.ok file, w) ∧
      file.into_stream.run (DbCall.exec rt) w = (chunks.map .ok, w) ∧
      file.logical_length = bytes.length ∧ file.revision.get = raw.revision ∧
      file.range = ⟨range.start, min range.end_ bytes.length⟩ ∧
      chunks.flatten = (bytes.take range.end_).drop range.start := by
  obtain ⟨g, hg, hlaid⟩ := h.laid
  have hlength := h.length
  have hrun := @content.read_run rt ctx w path raw g h.found h.kind hg hrevision hcapability options
    range (hlength ▸ hrange)
  rw [← hlength] at hrun
  by_cases hbeyond : bytes.length < range.start
  · rw [if_pos hbeyond] at hrun ⊢
    exact hrun
  · rw [if_neg hbeyond] at hrun ⊢
    obtain ⟨file, chunks, hopen, hstream, hsize, hget, hpart, hbytes⟩ := hrun
    refine ⟨file, chunks, hopen, hstream, hsize, hget, hpart, ?_⟩
    rw [hbytes, hlaid.fetched (Nat.min_le_right _ _), ← List.take_take, List.take_length]

/-- What a read returns of a file that is stored whole. -/
theorem Db.Stores.read {rt : Runtime} {ctx : RequestContext} {w : World} {path : VirtualPath}
    {bytes : Bytes} {raw : RawNode} (h : w.db.Stores ctx.workspace_id path bytes raw)
    (hrevision : 0 < raw.revision) (hcapability : ctx.has_capability .Read = true)
    {options : ReadOptions} {range : ByteRange}
    (hrange : options.range.getD ⟨0, bytes.length⟩ = range) :
    if bytes.length < range.start then
      (Request.Read path options).alone rt ctx w = (.error (FsError.invalid_range path.as_str), w)
    else
      ∃ (file : FileRead) (chunks : List Bytes),
      (Request.Read path options).alone rt ctx w = (.ok (.Read file (chunks.map .ok)), w) ∧
      file.logical_length = bytes.length ∧ file.revision.get = raw.revision ∧
      file.range = ⟨range.start, min range.end_ bytes.length⟩ ∧
      chunks.flatten = (bytes.take range.end_).drop range.start := by
  have hopens := @Db.Stores.opens rt ctx w path bytes raw h hrevision hcapability options range hrange
  split at hopens
  · rename_i hbeyond
    rw [if_pos hbeyond]
    exact Task.run_bind_error hopens
  · rename_i hbeyond
    rw [if_neg hbeyond]
    obtain ⟨file, chunks, hopen, hstream, hfigures⟩ := hopens
    have hitems : (ExceptT.lift file.into_stream : Task (List (FsResult Bytes))).run.run
      (DbCall.exec rt) w =
        (.ok (chunks.map .ok), w) := Failing.run_lift.trans (by rw [hstream])
    exact ⟨file, chunks, (Task.run_bind_ok hopen).trans (Task.run_bind_ok hitems), hfigures⟩

/-- The request arrives, is served and ends with the result; the calls that others
make meanwhile change nothing. -/
structure Serves (rt : Runtime) (ctx : RequestContext) (request : Request) (c d : System)
    (result : FsResult Reply) : Prop where
  steps : Steps (DbCall.exec rt) (Served rt)
    (fun e i o => i ≠ c.procs.length → (DbCall.exec rt o e.state).2 = e.state)
    ⟨c.state, c.procs ++ [(request.serve rt ctx).run]⟩ d
  ends : d.procs[c.procs.length]? = some (.ret result)

theorem Serves.alone {rt : Runtime} {ctx : RequestContext} {request : Request} {c d : System}
    {result : FsResult Reply} (h : Serves rt ctx request c d result) :
    request.alone rt ctx c.state = (result, d.state) :=
  h.steps.solo List.getElem?_concat_length h.ends

theorem Serves.reached {rt : Runtime} {ctx : RequestContext} {request : Request} {c d : System}
    {result : FsResult Reply} (h : Serves rt ctx request c d result)
    (hc : Reached rt (fun _ _ _ => True) c) : Reached rt (fun _ _ _ => True) d :=
  Relation.ReflTransGen.trans (hc.tail (.arrive c.state c.procs _ ⟨ctx, request, rfl⟩))
    (Steps.mono h.steps (fun _ hp => hp) (fun _ _ _ _ => trivial))

/-- A request that is served at once. -/
theorem Serves.at_once (rt : Runtime) (ctx : RequestContext) (request : Request) (c : System) :
    Serves rt ctx request c
      ⟨(request.alone rt ctx c.state).2, c.procs ++ [.ret (request.alone rt ctx c.state).1]⟩
      (request.alone rt ctx c.state).1 := by
  refine ⟨?_, List.getElem?_concat_length⟩
  have hfinish := @Steps.finish _ _ _ _ (DbCall.exec rt) (Served rt)
    (fun e i o => i ≠ c.procs.length → (DbCall.exec rt o e.state).2 = e.state) c.state
      (c.procs ++ [(request.serve rt ctx).run])
    c.procs.length _ List.getElem?_concat_length
      (Prog.along_of_forall _ (fun _ _ _ hne => absurd rfl hne) _ _)
  rwa [List.set_append_right _ _ (Nat.le_refl _), Nat.sub_self] at hfinish

namespace Db.Stores

variable {db : Db} {ws : WorkspaceId} {path : VirtualPath} {bytes : Bytes} {raw : RawNode}

theorem readable (h : db.Stores ws path bytes raw) (rt : Runtime) :
    (Session.solo rt ws db).Readable path := by
  intro _ _ raw' g' hfound hg'
  obtain rfl : raw = raw' := Option.some.inj (h.found.symm.trans hfound)
  obtain ⟨g, hg, hlaid⟩ := h.laid
  obtain rfl : g = g' := Option.some.inj (hg.symm.trans hg')
  exact ⟨bytes, h.length, hlaid⟩

theorem holding_eq (h : db.Stores ws path bytes raw) {kept : Bytes}
    (hkept : db.Holding ws path kept) : kept = bytes := by
  obtain ⟨g', hg', hlength, hlaid'⟩ := hkept.file raw h.found
  obtain ⟨g, hg, hlaid⟩ := h.laid
  obtain rfl : g = g' := Option.some.inj (hg.symm.trans hg')
  exact eq_of_piece?_eq chunk_size_pos (hlength.trans h.length.symm)
    (fun i => (hlaid' i).symm.trans (hlaid i))

end Db.Stores

/-- An append, alone, to a file that is stored whole. -/
theorem Reachable.append_stores {rt : Runtime} {w w' : World} (h : Reachable rt w)
    {ctx : RequestContext} {path : VirtualPath} {old : Bytes} {raw : RawNode}
    (hold : w.db.Stores ctx.workspace_id path old raw) {chunks : List Bytes}
    {options : WriteOptions} {reply : Reply}
    (hrun : (Request.Append path (chunks.map .ok) options).alone rt ctx w = (.ok reply, w')) :
    ∃ raw', w'.db.Stores ctx.workspace_id path (old ++ chunks.flatten) raw' := by
  have halone : Sound rt Policy.storing True w :=
    ⟨h.sound.wf, h.sound.issued, fun hnot => absurd trivial hnot⟩
  obtain ⟨bytes, raw', hgood, hstores⟩ :=
    Session.Runs.returned (Session.append (hold.readable rt)) trivial trivial halone rfl hrun
  obtain ⟨kept, hkept, rfl⟩ := hgood trivial
  rw [hold.holding_eq hkept, source_bytes_ok] at hstores
  exact ⟨raw', hstores⟩

/-- An edit in place of a file that is stored whole, while nothing else changes,
leaves a file that is stored whole: its bytes are the old ones, cut or padded with
zeros at the place of the edit, the new ones, and what is left of the old ones. -/
theorem Reached.edits_splice {rt : Runtime} {c : System} (h : Reached rt (fun _ _ _ => True) c)
    {ctx : RequestContext} {path : VirtualPath} {old : Bytes} {raw : RawNode}
    (hold : c.state.db.Stores ctx.workspace_id path old raw) :
    (∀ d offset (chunks : List Bytes) options reply,
    Serves rt ctx (.WriteAt path offset (chunks.map .ok) options) c d (.ok reply) →
      ∃ raw', d.state.db.Stores ctx.workspace_id path
        (old.take offset ++ List.replicate (offset - old.length) 0 ++
        chunks.flatten ++ old.drop (offset + chunks.flatten.length)) raw') ∧
    (∀ d (chunks : List Bytes) options reply, Serves rt ctx
    (.Append path (chunks.map .ok) options) c d (.ok reply) →
      ∃ raw', d.state.db.Stores ctx.workspace_id path (old ++ chunks.flatten) raw') ∧
    (∀ d length options reply, Serves rt ctx (.Truncate path length options) c d (.ok reply) →
      ∃ raw', d.state.db.Stores ctx.workspace_id path
        (old.take length ++ List.replicate (length - old.length) 0) raw') := by
  have hreachable : Reachable rt c.state := ⟨c, h, rfl⟩
  have halone : Sound rt Policy.storing True c.state :=
    ⟨hreachable.sound.wf, hreachable.sound.issued, fun hnot => absurd trivial hnot⟩
  have hread := hold.readable rt
  refine ⟨fun d offset chunks options reply hserves => ?_, fun d chunks options reply hserves => ?_,
    fun d length options reply hserves => ?_⟩
  · obtain ⟨bytes, raw', hgood, hstores⟩ :=
      Session.Runs.returned (Session.write_at hread) trivial trivial
      halone rfl hserves.alone
    obtain ⟨kept, hkept, rfl⟩ := hgood trivial
    rw [hold.holding_eq hkept, source_bytes_ok, splice, if_pos rfl] at hstores
    exact ⟨raw', hstores⟩
  · exact hreachable.append_stores hold hserves.alone
  · obtain ⟨bytes, raw', hgood, hstores⟩ :=
      Session.Runs.returned (Session.truncate hread) trivial trivial halone rfl hserves.alone
    obtain ⟨kept, hkept, rfl⟩ := hgood trivial
    rw [hold.holding_eq hkept, splice, if_neg Bool.false_ne_true, List.append_nil,
      List.append_nil] at hstores
    exact ⟨raw', hstores⟩

/-- A file that has been written is stored whole. -/
theorem Reached.written {rt : Runtime} {c d : System} (h : Reached rt (fun _ _ _ => True) c)
    {ctx : RequestContext} {path : VirtualPath} {chunks : List Bytes} {options : WriteOptions}
    {reply : Reply} (hwrite : Serves rt ctx (.Write path (chunks.map .ok) options) c d
    (.ok reply)) :
    ∃ raw, d.state.db.Stores ctx.workspace_id path chunks.flatten raw := by
  have hsound := (show Reachable rt c.state from ⟨c, h, rfl⟩).sound
  have halone : Sound rt Policy.storing True c.state :=
    ⟨hsound.wf, hsound.issued, fun hnot => absurd trivial hnot⟩
  let σ : Session := Session.solo rt ctx.workspace_id c.state.db
  obtain ⟨bytes, raw, hgood, hstores⟩ :=
    Session.Runs.returned (σ := σ) (Session.write rfl) trivial trivial halone rfl hwrite.alone
  rw [show bytes = chunks.flatten from hgood.trans (source_bytes_ok chunks)] at hstores
  exact ⟨raw, hstores⟩

/-- What has been written, in whatever pieces, is what a read returns, whole or
in part, while nothing changes. -/
theorem Reached.write_read {rt : Runtime} {c d e : System} (h : Reached rt (fun _ _ _ => True) c)
    {ctx reader : RequestContext} {path : VirtualPath} {chunks : List Bytes}
    {options : WriteOptions} {reply : Reply} {result : FsResult Reply}
    (hwrite : Serves rt ctx (.Write path (chunks.map .ok) options) c d (.ok reply))
    (hws : reader.workspace_id = ctx.workspace_id)
    (hcapability : reader.has_capability .Read = true) :
    (∀ follow_symlinks, Serves rt reader (.Read path ⟨none, follow_symlinks⟩) d e result →
    ∃ file items,
      result = .ok (.Read file (List.map .ok items)) ∧ file.logical_length = chunks.flatten.length ∧
        items.flatten = chunks.flatten) ∧
    (∀ range follow_symlinks,
    Serves rt reader (.Read path ⟨some range, follow_symlinks⟩) d e result →
      (chunks.flatten.length < range.start → result = .error (FsError.invalid_range path.as_str)) ∧
      (range.start ≤ chunks.flatten.length → ∃ file items,
      result = .ok (.Read file (List.map .ok items)) ∧
        file.logical_length = chunks.flatten.length ∧
        file.range = ⟨range.start, min range.end_ chunks.flatten.length⟩ ∧
        items.flatten = (chunks.flatten.take range.end_).drop range.start)) := by
  obtain ⟨raw, hstores⟩ := h.written hwrite
  have hstores' : d.state.db.Stores reader.workspace_id path chunks.flatten raw := hws ▸ hstores
  have hrevision : 0 < raw.revision := by
    obtain ⟨n, rfl, hn⟩ := resolve.resolve_live hstores'.found
    exact (show Reachable rt d.state from ⟨d, hwrite.reached h,
      rfl⟩).sound.wf.nodes.revision n hn.mem
  refine ⟨fun follow_symlinks hread => ?_, fun range follow_symlinks hread => ?_⟩
  · have hresult := @Db.Stores.read rt reader d.state path _ raw hstores' hrevision hcapability
      ⟨none, follow_symlinks⟩ ⟨0, chunks.flatten.length⟩ rfl
    rw [if_neg (Nat.not_lt_zero _)] at hresult
    obtain ⟨file, items, hserved, hlength, _, _, hbytes⟩ := hresult
    rw [hread.alone, Prod.mk.injEq] at hserved
    exact ⟨file, items, hserved.1, hlength, by rw [hbytes, List.take_length, List.drop_zero]⟩
  · have hresult := @Db.Stores.read rt reader d.state path _ raw hstores' hrevision hcapability
      ⟨some range, follow_symlinks⟩ range rfl
    refine ⟨fun hbeyond => ?_, fun hwithin => ?_⟩
    · rw [if_pos hbeyond, hread.alone, Prod.mk.injEq] at hresult
      exact hresult.1
    · rw [if_neg (Nat.not_lt.mpr hwithin)] at hresult
      obtain ⟨file, items, hserved, hlength, _, hrange, hbytes⟩ := hresult
      rw [hread.alone, Prod.mk.injEq] at hserved
      exact ⟨file, items, hserved.1, hlength, hrange, hbytes⟩

theorem FsResult.exists_ok {A : Type} {result : FsResult A}
    (h : result.toOption.isSome = true) : ∃ a, result = .ok a := by
  cases result with
  | ok a => exact ⟨a, rfl⟩
  | error err => cases h

/-- A request that succeeds when it is served at once. -/
theorem Serves.at_once_ok (rt : Runtime) (ctx : RequestContext) (request : Request) (c : System)
    (h : (request.alone rt ctx c.state).1.toOption.isSome = true) :
    ∃ d reply, Serves rt ctx request c d (.ok reply) ∧
    d.state = (request.alone rt ctx c.state).2 := by
  obtain ⟨reply, hresult⟩ := FsResult.exists_ok h
  exact ⟨_, reply, hresult ▸ Serves.at_once rt ctx request c, rfl⟩

/-- Writing the bytes 1, 2, 3 to the file `/f` in two pieces. -/
def writeThree : Request := .Write (.named [['f']]) (List.map .ok [[1], [2, 3]]) {}

/-- Reading them from the second one on. -/
theorem write_read_three : ∃ c d e result, Reached Runtime.counting (fun _ _ _ => True) c ∧
    (∃ reply, Serves Runtime.counting (.trusted 0) writeThree c d (.ok reply)) ∧
    Serves Runtime.counting (.trusted 0)
      (.Read (.ofSegments [['f']] (by decide)) ⟨some ⟨1, 9⟩, true⟩) d e result ∧
    ∃ file items, result = .ok (.Read file (List.map .ok items)) ∧ file.range = ⟨1, 3⟩ ∧
    items.flatten = [2, 3] := by
  obtain ⟨c, hc, hstate⟩ : Reachable Runtime.counting bareWorld := (Reachable.empty _).serveAll _
  obtain ⟨d, reply, hwrite, _⟩ := Serves.at_once_ok Runtime.counting (.trusted 0) writeThree c
    (by rw [hstate]; decide +kernel)
  have hread := Serves.at_once Runtime.counting (.trusted 0)
    (.Read (.ofSegments [['f']] (by decide)) ⟨some ⟨1, 9⟩, true⟩) d
  obtain ⟨file, items, hresult, _, hrange, hbytes⟩ :=
    ((Reached.write_read hc hwrite rfl rfl).2 ⟨1, 9⟩ true hread).2 (by decide)
  exact ⟨c, d, _, _, hc, ⟨reply, hwrite⟩, hread, file, items, hresult, hrange, hbytes⟩

/-- Once `/f` holds three bytes, `write_at` puts one byte at offset 4: a zero fills the gap
between them. -/
theorem edits_splice_three : ∃ c d e bytes, Reached Runtime.counting (fun _ _ _ => True) c ∧
    (∃ reply, Serves Runtime.counting (.trusted 0)
    (.WriteAt (.ofSegments [['f']] (by decide)) 4 (List.map .ok [[7]]) {}) d e
      (.ok reply)) ∧ (∃ raw, e.state.db.Stores 0 (.ofSegments [['f']] (by decide)) bytes raw) ∧
      bytes = [1, 2, 3, 0, 7] := by
  obtain ⟨c, hc, hstate⟩ : Reachable Runtime.counting bareWorld := (Reachable.empty _).serveAll _
  obtain ⟨d, _, hwrite, hafter⟩ := Serves.at_once_ok Runtime.counting (.trusted 0) writeThree c
    (by rw [hstate]; decide +kernel)
  obtain ⟨raw, hold⟩ := hc.written hwrite
  obtain ⟨e, reply, hedit, _⟩ := Serves.at_once_ok Runtime.counting (.trusted 0)
    (.WriteAt (.ofSegments [['f']] (by decide)) 4 (List.map .ok [[7]]) {}) d
    (by rw [hafter, hstate]; decide +kernel)
  exact ⟨c, d, e, _, hc, ⟨reply, hedit⟩, (Reached.edits_splice (hwrite.reached hc) hold).1 e 4 [[7]]
    {} reply hedit, rfl⟩

end fslite
