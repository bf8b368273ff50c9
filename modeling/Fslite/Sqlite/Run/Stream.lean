import Fslite.Sqlite.Run.Integrity

namespace fslite

open content

/-- A fetch of a chunk finds the generation that it reads from. -/
def DbCall.FindsContent (db : Db) : DbCall → Prop
  | .fetch_chunk_bytes generation_id _ => ∃ row, db.generation? generation_id = some row
  | _ => True

instance (db : Db) : (o : DbCall) → Decidable (o.FindsContent db)
  | .fetch_chunk_bytes generation_id _ => decidable_of_iff _ (db.generation?_isSome generation_id)
  | .resolve .. | .resolve_following .. | .fetch_max_file_bytes .. | .fetch_usage .. | .fetch_changes_page ..
  | .create_generation .. | .upsert_chunk .. | .copy_chunk_range .. | .delete_generation .. | .finalize ..
  | .transaction .. | .batch .. | .create_workspace .. | .reset_workspace .. | .delete_workspace .. =>
    inferInstanceAs (Decidable True)

/-- The bytes that an opened file stands for: what the path led to at some time
in a store of which `visited` holds. -/
def Opened (visited : World → Prop) (ws : WorkspaceId) (path : VirtualPath) (raw : RawNode)
    (g : GenerationId) (bytes : Bytes) : Prop :=
  ∃ w, visited w ∧ resolve.resolve w.db ws path = some raw ∧ raw.content_generation_id = some g ∧
    bytes.length = raw.size ∧ w.db.Laid g bytes

/-- The reply of a read whose stream has not failed: its chunks are the bytes of
the range, of what the path led to at the revision reported. -/
def Snapshot (visited : World → Prop) (ws : WorkspaceId) (path : VirtualPath) (reply : Reply) :
    Prop :=
  ∀ (file : FileRead) (chunks : List Bytes), reply = .Read file (chunks.map .ok) → ∃ raw g bytes,
    Opened visited ws path raw g bytes ∧ file.revision.get = raw.revision ∧
      file.range.end_ ≤ bytes.length ∧
      chunks.flatten = (bytes.take file.range.end_).drop file.range.start

section stream

variable {rt : Runtime} {visited : World → Prop}

/-- What a reader may assume of the stores in which it makes its calls. -/
def Reads (rt : Runtime) (visited : World → Prop) (o : DbCall) (w : World) : Prop :=
  Policy.storing.Allows rt w o ∧ visited w ∧ o.FindsContent w.db

/-- The triples of a reader among others. -/
abbrev ReaderTriple {A : Type} (rt : Runtime) (visited : World → Prop) (P : World → Prop)
    (p : Prog DbCall.Res A) (Q : A → Prop) : Prop :=
  (ownership rt Policy.storing False).Triple (DbCall.exec rt) (Reads rt visited)
    (Sound rt Policy.storing False) none P p
    (fun a _ _ => Q a)

theorem intact_stable {t : Option GenerationId} {g : GenerationId} {bytes : Bytes} :
    (ownership rt Policy.storing False).Stable (Sound rt Policy.storing False) t
    (Intact rt Policy.storing False g bytes) :=
  fun _ _ _ _ hrely hintact => hintact.foreign not_false hrely.2

/-- A chunk of an intact content that is found. -/
theorem Intact.fetch {g : GenerationId} {bytes : Bytes} {w : World}
    (h : Intact rt Policy.storing False g bytes w) (hstored : ∃ row, w.db.generation? g = some row)
    (index : Nat) :
    fetch_chunk_bytes w.db g index = piece CHUNK_SIZE bytes index :=
  Session.piece_of_laid (h.laid trivial hstored) index

/-- A call that only reads, made by a reader. -/
theorem reader_kept {o : DbCall} {w : World} (hw : Sound rt Policy.storing False w)
    (hstaged : o.staged = none) (hgrounded : o.Grounded Policy.storing w.db)
    (hallows : Policy.storing.Allows rt w o) :
    (ownership rt Policy.storing False).Kept (Sound rt Policy.storing False) none none w
    (o.exec rt w).2 := by
  have heffect := DbCall.exec_effect hw.wf (hw.laid not_false) hallows hgrounded
  rw [hstaged] at heffect
  exact kept_of_effect hw (held_none w) heffect (held_none _) (fun g hg => by cases hg)

/-- A stream that yields no error yields the chunks that it has left, clipped. -/
theorem drain_triple {bytes : Bytes} (polls : Nat) {state : ChunkRangeState}
    (hdone : state.done = false) (hpolls : state.end_chunk + 1 - state.current_chunk < polls) :
    ReaderTriple rt visited (Intact rt Policy.storing False state.generation_id bytes)
      (state.drain polls) (fun items => ∀ chunks : List Bytes, items = chunks.map .ok →
      chunks.flatten =
        (List.range' state.current_chunk (state.end_chunk + 1 - state.current_chunk)).flatMap
          (fun index => ChunkWriter.clip state.start state.end_ index
          (piece CHUNK_SIZE bytes index))) := by
  induction polls generalizing state with
  | zero => omega
  | succ polls ih =>
    rw [drain_succ]
    split
    · rename_i hend
      have hnone : state.end_chunk + 1 - state.current_chunk = 0 := by
        obtain hd | hlt := hend
        · rw [hdone] at hd
          cases hd
        · omega
      refine Ownership.Triple.ret (fun w _ _ _ chunks hchunks => ?_)
      rw [List.nil_eq, List.map_eq_nil_iff] at hchunks
      rw [hnone, hchunks]
      rfl
    · rename_i hmore
      have hle : state.current_chunk ≤ state.end_chunk :=
        Nat.not_lt.mp (fun hlt => hmore (Or.inr hlt))
      refine Ownership.Triple.call (fun w hw _ hintact hreads => ?_)
      refine ⟨none, Intact rt Policy.storing False state.generation_id bytes,
        reader_kept hw rfl trivial hreads.1, intact_stable, hintact, ?_⟩
      have hfetch : (DbCall.exec rt
        (.fetch_chunk_bytes state.generation_id state.current_chunk) w).1 =
          .ok (piece CHUNK_SIZE bytes state.current_chunk) := by
        rw [← hintact.fetch hreads.2.2]
        rfl
      rw [hfetch]
      refine Ownership.Triple.bind
        (@ih (state.after (.ok _)) hdone (by simp only [ChunkRangeState.after]; omega))
        (fun items _ => Ownership.Triple.ret (fun _ _ _ hrest chunks hchunks => ?_))
      cases chunks with
      | nil => cases hchunks
      | cons chunk rest =>
        rw [List.map_cons, List.cons.injEq] at hchunks
        obtain ⟨hfirst, hitems⟩ := hchunks
        rw [show state.end_chunk + 1 - state.current_chunk = state.end_chunk +
          1 - (state.current_chunk + 1) + 1 by omega,
          List.range'_succ, List.flatMap_cons, List.flatten_cons, hrest rest hitems]
        cases hfirst
        rfl

/-- Looking up the file that is to be read. -/
theorem resolve_opened {ws : WorkspaceId} {path : VirtualPath} :
    (ownership rt Policy.storing False).FailingTriple (DbCall.exec rt) (Reads rt visited)
    (Sound rt Policy.storing False) none
      (fun _ => True) (Task.call (.resolve ws path))
      (fun node t w => t = none ∧ ∀ raw, node = some raw → raw.kind = .File → ∃ g bytes,
        Opened visited ws path raw g bytes ∧ Intact rt Policy.storing False g bytes w)
          (fun _ _ _ => True) := by
  refine Ownership.FailingTriple.perform (DbCall.resolve ws path)
    (fun r : DbCall.Res (.resolve ws path) => r) ?_
  intro w hw _ _ hreads
  refine ⟨none, reader_kept (o := .resolve ws path) hw rfl trivial hreads.1, ?_, rfl,
    fun raw hraw hkind => ?_⟩
  · intro w₁ w₂ _ _ hrely hopened
    refine ⟨rfl, fun raw hraw hkind => ?_⟩
    obtain ⟨g, bytes, hseen, hintact⟩ := hopened.2 raw hraw hkind
    exact ⟨g, bytes, hseen, hintact.foreign not_false hrely.2⟩
  · have hfound : resolve.resolve w.db ws path = some raw := hraw
    obtain ⟨g, bytes, hg, hlength, hintact, _⟩ :=
      @Session.seen_of_live ⟨rt, Policy.storing, False, ws, Db.empty, none⟩ (some raw) w hw
        (fun raw' hraw' => resolve.resolve_live
          (hfound.trans hraw')) False.elim False.elim raw rfl hkind
    obtain ⟨n, rfl, hn⟩ := resolve.resolve_live hfound
    obtain ⟨_, row, hrow, _⟩ := hw.wf.contents.generation n hn.mem g hg
    exact ⟨g, bytes, ⟨w, hreads.2.1, hfound, hg, hlength, hintact.laid trivial ⟨row, hrow⟩⟩,
      hintact⟩

/-- An opened file, before its stream is polled. -/
theorem read_opened {ws : WorkspaceId} {path : VirtualPath} {options : ReadOptions} :
    (ownership rt Policy.storing False).FailingTriple (DbCall.exec rt) (Reads rt visited)
    (Sound rt Policy.storing False) none
      (fun _ => True) (content.read ws path options)
      (fun file t w => t = none ∧ ∃ raw g bytes,
      (Opened visited ws path raw g bytes ∧ file.revision.get = raw.revision ∧
        file.range.end_ ≤ bytes.length ∧
        file.stream = if file.range.end_ ≤ file.range.start then none
          else some (chunk_range_stream g file.range.start file.range.end_)) ∧
        Intact rt Policy.storing False g bytes w) (fun _ _ _ => True) := by
  unfold content.read
  refine Ownership.FailingTriple.bind resolve_opened
    (fun node t => Ownership.FailingTriple.of_fact (fun ht => ?_))
  subst ht
  cases node with
  | none => exact Ownership.FailingTriple.throw (fun _ _ _ _ => trivial)
  | some raw =>
    simp only
    split
    · exact Ownership.FailingTriple.throw (fun _ _ _ _ => trivial)
    · rename_i hkind
      split
      · exact Ownership.FailingTriple.throw (fun _ _ _ _ => trivial)
      · rename_i revision hrevision
        have hvalue : revision.get = raw.revision := Revision.new_get hrevision
        split
        · exact Ownership.FailingTriple.throw (fun _ _ _ _ => trivial)
        · refine Ownership.FailingTriple.weaken
            (P := fun w => ∃ g bytes, Opened visited ws path raw g bytes ∧
            Intact rt Policy.storing False g bytes w) ?_ (fun w _ _ hopened =>
              hopened raw rfl (not_not.mp hkind))
            (fun _ _ _ _ _ hQ => hQ) (fun _ _ _ _ _ hR => hR)
          refine Ownership.FailingTriple.of_exists
            (fun g => Ownership.FailingTriple.of_exists (fun bytes =>
            Ownership.FailingTriple.of_fact (fun hopened => ?_)))
          obtain ⟨w₀, hvisited, hfound, hg, hlength, hlaid⟩ := hopened
          split
          · rename_i hempty
            refine Ownership.FailingTriple.pure (fun w _ _ hintact => ⟨rfl, raw, g, bytes,
              ⟨⟨w₀, hvisited, hfound, hg, hlength, hlaid⟩, hvalue, ?_, ?_⟩, hintact⟩)
            · simp [hlength]
            · exact (if_pos hempty).symm
          · rename_i hmore
            rw [hg]
            refine Ownership.FailingTriple.pure (fun w _ _ hintact => ⟨rfl, raw, g, bytes,
              ⟨⟨w₀, hvisited, hfound, hg, hlength, hlaid⟩, hvalue, ?_, ?_⟩, hintact⟩)
            · simp [hlength]
            · exact (if_neg hmore).symm

/-- Reading a file to the end of its stream. -/
theorem serve_read {ctx : RequestContext} {path : VirtualPath} {options : ReadOptions} :
    ReaderTriple rt visited (fun _ => True) ((Request.Read path options).serve rt ctx).run
      (fun r => ∀ reply, r = .ok reply → Snapshot visited ctx.workspace_id path reply) := by
  have hserve : (ownership rt Policy.storing False).FailingTriple (DbCall.exec rt)
    (Reads rt visited)
      (Sound rt Policy.storing False) none (fun _ => True)
        ((Request.Read path options).serve rt ctx)
      (fun reply _ _ => Snapshot visited ctx.workspace_id path reply) (fun _ _ _ => True) := by
    unfold Request.serve SqliteFileSystem.read
    refine Ownership.FailingTriple.bind (Q := fun file t w => t = none ∧ ∃ raw g bytes,
      (Opened visited ctx.workspace_id path raw g bytes ∧ file.revision.get = raw.revision ∧
        file.range.end_ ≤ bytes.length ∧
          file.stream = if file.range.end_ ≤ file.range.start then none
          else some (chunk_range_stream g file.range.start file.range.end_)) ∧
        Intact rt Policy.storing False g bytes w) ?_ (fun file t => ?_)
    · unfold require_capability
      split
      · exact read_opened
      · exact Ownership.FailingTriple.throw (fun _ _ _ _ => trivial)
    · refine Ownership.FailingTriple.of_fact
        (fun ht => Ownership.FailingTriple.of_exists (fun raw =>
        Ownership.FailingTriple.of_exists (fun g => Ownership.FailingTriple.of_exists (fun bytes =>
          Ownership.FailingTriple.of_fact (fun hopened => ?_)))))
      subst ht
      obtain ⟨hopened, hrevision, hend, hstream⟩ := hopened
      refine Ownership.FailingTriple.bind
        (Q := fun items _ _ => ∀ chunks : List Bytes, items = chunks.map .ok →
        chunks.flatten = (bytes.take file.range.end_).drop file.range.start)
        (Ownership.FailingTriple.lift ?_)
          (fun items t => Ownership.FailingTriple.pure (fun w _ _ hitems file' chunks hreply => ?_))
      · unfold FileRead.into_stream
        rw [hstream]
        by_cases hempty : file.range.end_ ≤ file.range.start
        · rw [if_pos hempty]
          refine Ownership.Triple.ret (fun _ _ _ _ chunks hchunks => ?_)
          rw [List.nil_eq, List.map_eq_nil_iff] at hchunks
          rw [hchunks, List.drop_of_length_le]
          · rfl
          · rw [List.length_take]
            omega
        · rw [if_neg hempty]
          have hlt := Nat.not_le.mp hempty
          have hchunks : chunk_index_of file.range.start ≤ chunk_index_of (file.range.end_ - 1) :=
            Nat.div_le_div_right (by omega)
          refine (drain_triple _ rfl ?_).weaken (fun _ _ _ hintact => hintact)
            (fun items _ _ _ _ hitems chunks hok => ?_)
          · simp only [chunk_range_stream]
            omega
          · rw [hitems chunks hok]
            exact flatMap_clip hlt hend
      · rw [Reply.Read.injEq] at hreply
        obtain ⟨rfl, hreply⟩ := hreply
        exact ⟨raw, g, bytes, hopened, hrevision, hend, hitems chunks hreply⟩
  refine Ownership.Triple.weaken hserve (fun _ _ _ hP => hP) (fun r _ _ _ _ hr reply hreply => ?_)
  subst hreply
  exact hr

end stream

/-- The stores that a run goes through. -/
def Passed (rt : Runtime) (c d : System) (w : World) : Prop :=
  ∃ e : System, Steps (DbCall.exec rt) (Served rt) (fun _ _ _ => True) c e ∧
    Steps (DbCall.exec rt) (Served rt) (fun _ _ _ => True) e d ∧ e.state = w

/-- A read that is served among other requests returns what the path led to in
some store on the way, as long as bulk copies find their source and its fetches
the content that it reads. -/
theorem Reached.read_snapshot {rt : Runtime} {c d : System} {ctx : RequestContext}
    {path : VirtualPath} {options : ReadOptions} {reply : Reply}
    (h : Reached rt (fun c _ o => o.FindsSource c.state.db) c)
    (hrun : Steps (DbCall.exec rt) (Served rt) (fun e i o => o.FindsSource e.state.db ∧
      (i = c.procs.length → o.FindsContent e.state.db))
      ⟨c.state, c.procs ++ [((Request.Read path options).serve rt ctx).run]⟩ d)
    (hend : d.procs[c.procs.length]? = some (.ret (.ok reply))) :
    Snapshot (Passed rt ⟨c.state,
      c.procs ++ [((Request.Read path options).serve rt ctx).run]⟩ d) ctx.workspace_id path
      reply := by
  have hreached : Reached rt (fun c _ o => Policy.storing.Allows rt c.state o) c :=
    h.mono (fun _ hp => hp) (fun _ _ _ hfinds => Policy.storing_allows hfinds)
  refine hreached.arrived_result
    (Q := fun r => ∀ reply, r = .ok reply → Snapshot (Passed rt _ d) ctx.workspace_id path reply)
    (@serve_read rt _ ctx path options) ?_ hend reply rfl
  refine hrun.between.mono (fun _ hp => hp) (fun e i o hmay => ?_)
  obtain ⟨⟨hsource, hfetch⟩, hbefore, hafter⟩ := hmay
  have hany : ∀ {a b : System} {may : System → Nat → DbCall → Prop},
    Steps (DbCall.exec rt) (Served rt) may a b →
      Steps (DbCall.exec rt) (Served rt) (fun _ _ _ => True) a b :=
        fun hsteps => hsteps.mono (fun _ hp => hp) (fun _ _ _ _ => trivial)
  exact ⟨Policy.storing_allows hsource, fun hi => ⟨⟨e, hany hbefore, hany hafter, rfl⟩, hfetch hi⟩⟩

/-- The range of a read and what its stream has yielded. -/
def Reply.streamed : Reply → Option (ByteRange × List (FsResult Bytes))
  | .Read file items => some (file.range, items)
  | _ => none

/-- The reply of a request that has been served. -/
def System.reply (c : System) (i : Nat) : Option Reply :=
  match c.procs[i]? with
  | some (.ret (.ok reply)) => some reply
  | _ => none

theorem System.ended_of_reply {c : System} {i : Nat} {reply : Reply}
    (h : c.reply i = some reply) : c.procs[i]? = some (.ret (.ok reply)) := by
  unfold System.reply at h
  split at h
  · rename_i reply' hproc
    cases h
    exact hproc
  · cases h

theorem System.streamed {c : System} {i : Nat} {range : ByteRange} {items : List (FsResult Bytes)}
    (h : (c.reply i).bind Reply.streamed = some (range, items)) :
    ∃ file, c.procs[i]? = some (.ret (.ok (.Read file items))) ∧ file.range = range := by
  obtain ⟨reply, hreply, hitems⟩ := Option.bind_eq_some_iff.mp h
  cases reply with
  | Read file items' =>
    cases hitems
    exact ⟨file, System.ended_of_reply hreply, rfl⟩
  | _ => cases hitems

/-- A file of three bytes and a read of it. -/
def plainReads : List (RequestContext × Request) :=
  [(.trusted 0, .CreateWorkspace {}),
    (.trusted 0, .Write (.named [['f']]) [.ok [1, 2, 3]] {}),
    (.trusted 0, .Read (.named [['f']]) {})]

theorem plain_read_snapshot : ∃ (c d : System) (file : FileRead),
    d.procs[c.procs.length]? = some (.ret (.ok (.Read file [.ok [1, 2, 3]]))) ∧
    Snapshot (Passed Runtime.counting ⟨c.state, c.procs ++
      [((Request.Read (.ofSegments [['f']] (by decide)) {}).serve Runtime.counting
      (.trusted 0)).run]⟩ d) 0
      (.ofSegments [['f']] (by decide)) (.Read file [.ok [1, 2, 3]]) := by
  have hitems : ((System.scheduled Runtime.counting plainReads [0, 1, 1, 1, 1, 2,
    2]).reply 2).bind Reply.streamed =
      some (⟨0, 3⟩, [.ok [1, 2, 3]]) := by decide +kernel
  obtain ⟨file, hend, _⟩ := System.streamed hitems
  refine ⟨System.arrived Runtime.counting (plainReads.take 2), _, file, hend, ?_⟩
  exact @Reached.read_snapshot _ _ _ _ _ {} _ (Reached.arrived _ _ _)
    (Steps.schedule (by decide +kernel)) hend

/-- A file of three bytes, a read of it, and its replacement by nothing. -/
def tornReads : List (RequestContext × Request) :=
  plainReads ++ [(.trusted 0, .Write (.named [['f']]) [] {})]

/-- The replacement is committed between the opening of the file and the fetch
of its only chunk: the stream ends without an error and without the bytes of the
range. -/
theorem torn_read_lost : ∃ (c d : System) (reply : Reply),
    Reached Runtime.counting (fun _ _ _ => True) c ∧
    Steps (DbCall.exec Runtime.counting) (Served Runtime.counting) (fun _ _ _ => True)
      ⟨c.state, c.procs ++ [((Request.Read (.ofSegments [['f']] (by decide))
        {}).serve Runtime.counting (.trusted 0)).run]⟩ d ∧
    d.procs[c.procs.length]? = some (.ret (.ok reply)) ∧
    ¬ Snapshot (fun _ => True) 0 (.ofSegments [['f']] (by decide)) reply := by
  have hitems : ((System.scheduled Runtime.counting tornReads [0, 1, 1, 1, 1, 2, 3, 3, 3,
    2]).reply 2).bind Reply.streamed =
      some (⟨0, 3⟩, [.ok []]) := by decide +kernel
  obtain ⟨file, hend, hrange⟩ := System.streamed hitems
  refine ⟨System.arrived Runtime.counting (tornReads.take 2), _, _, Reached.arrived _ _ _, ?_, hend,
    fun hsnapshot => ?_⟩
  · exact Relation.ReflTransGen.trans (Steps.arrive_all served_all _ _)
      (Steps.schedule (Config.allowed_of_forall (fun _ _ _ => trivial) _ _))
  · obtain ⟨_, _, bytes, _, _, hlength, hread⟩ := hsnapshot file [[]] rfl
    rw [hrange] at hlength hread
    have hnil := congrArg List.length hread
    simp only [List.flatten_cons, List.flatten_nil, List.append_nil, List.length_nil,
      List.drop_zero, List.length_take] at hnil
    simp only at hlength
    omega

end fslite
