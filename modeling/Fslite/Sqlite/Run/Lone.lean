import Fslite.Sqlite.Run.Failure

namespace fslite

open content

/-- A store that differs from the given one in the chunks of one generation only. -/
def Filling (base : Db) (g : GenerationId) (w : World) : Prop :=
  ∃ chunks, w.db = { base with content_chunks := chunks } ∧
    ∀ other i, other ≠ g → chunks.find? (other, i) = base.content_chunks.find? (other, i)

/-- How a step of a writer ends that adds so many bytes: it takes all of them, or it
refuses them since they exceed the quota. -/
inductive Grown (writer : ChunkWriter) (added : Nat) : FsResult ChunkWriter → Prop where
  | taken {writer' : ChunkWriter} (hgeneration : writer'.generation_id = writer.generation_id)
      (hmax : writer'.max_file_bytes = writer.max_file_bytes)
        (hlength : writer'.total_len = writer.total_len + added)
      (hfits : writer'.total_len ≤ writer.max_file_bytes) : Grown writer added (.ok writer')
  | refused (hexceeds : writer.max_file_bytes < writer.total_len + added) :
      Grown writer added (.error
        (FsError.quota_exceeded (ChunkWriter.quota_message writer.max_file_bytes)))

/-- A step of a writer that runs alone. -/
def Fills (rt : Runtime) (base : Db) (writer : ChunkWriter) (added : Nat) (step : Task ChunkWriter)
    (w : World) : Prop :=
  ∃ result w', step.run.run (DbCall.exec rt) w = (result, w') ∧ Grown writer added result ∧
    ∀ writer', result = .ok writer' → Filling base writer.generation_id w'

section fills

variable {rt : Runtime} {base : Db} {writer writer' : ChunkWriter} {added more : Nat} {w : World}
  {step : Task ChunkWriter}

theorem Grown.shift {result : FsResult ChunkWriter}
    (hgeneration : writer'.generation_id = writer.generation_id)
    (hmax : writer'.max_file_bytes = writer.max_file_bytes)
    (hlength : writer'.total_len = writer.total_len + added) (h : Grown writer' more result) :
    Grown writer (added + more) result := by
  cases h with
  | taken hgeneration' hmax' hlength' hfits =>
    exact .taken (hgeneration'.trans hgeneration) (hmax'.trans hmax) (by omega) (hmax ▸ hfits)
  | refused hexceeds =>
    rw [hmax]
    exact .refused (by omega)

theorem Fills.pure (hfits : writer.total_len ≤ writer.max_file_bytes)
    (hw : Filling base writer.generation_id w) :
    Fills rt base writer 0 (pure writer) w :=
  ⟨_, w, rfl, .taken rfl rfl rfl hfits, fun _ _ => hw⟩

/-- One step after another. -/
theorem Fills.bind {rest : ChunkWriter → Task ChunkWriter} (h : Fills rt base writer added step w)
    (hrest : ∀ writer' w', writer'.generation_id = writer.generation_id →
    writer'.max_file_bytes = writer.max_file_bytes →
      writer'.total_len = writer.total_len + added → writer'.total_len ≤ writer'.max_file_bytes →
      Filling base writer'.generation_id w' → Fills rt base writer' more (rest writer') w') :
        Fills rt base writer (added + more) (step >>= rest) w := by
  obtain ⟨result, w', hrun, hgrown, hfilling⟩ := h
  cases hgrown with
  | @taken writer' hgeneration hmax hlength hfits =>
    obtain ⟨result, w'', hrun', hgrown', hfilling'⟩ :=
      hrest writer' w' hgeneration hmax hlength (hmax.symm ▸ hfits)
        (hgeneration ▸ hfilling writer' rfl)
    exact ⟨result, w'', (Task.run_bind_ok hrun).trans hrun', hgrown'.shift hgeneration hmax hlength,
      hgeneration ▸ hfilling'⟩
  | refused hexceeds => exact ⟨_, w', Task.run_bind_error hrun, .refused (by omega),
    fun _ h => by cases h⟩

theorem Fills.shift (hgeneration : writer'.generation_id = writer.generation_id)
    (hmax : writer'.max_file_bytes = writer.max_file_bytes)
    (hlength : writer'.total_len = writer.total_len + added)
    (h : Fills rt base writer' more step w) : Fills rt base writer (added + more) step w := by
  obtain ⟨result, w', hrun, hgrown, hfilling⟩ := h
  exact ⟨result, w', hrun, hgrown.shift hgeneration hmax hlength, hgeneration ▸ hfilling⟩

theorem DbCall.exec_of_ok {o : DbCall} {answer : o.Answer} {w' : World}
    (h : o.body rt w = .ok (answer, w')) (hcommits : o.commits answer = true) :
    o.exec rt w = (.ok answer, w') := by
  unfold DbCall.exec
  simp only [h, hcommits, if_true]

theorem DbCall.exec_of_error {o : DbCall} {fault : Fault}
    (h : o.body rt w = .error fault) : o.exec rt w = (.error (map_call_error rt fault), w) := by
  unfold DbCall.exec
  rw [h]

theorem upsert_chunk_alone {g : GenerationId} {index : Nat} {chunk : Bytes} (hw : Filling base g w)
    (hstored : base.content_generations.contains g = true) :
    ∃ w', (DbCall.upsert_chunk g index chunk).exec rt w = (.ok (), w') ∧ Filling base g w' := by
  obtain ⟨chunks, hdb, hothers⟩ := hw
  have hput : Db.put_chunk ⟨g, index, chunk⟩ w.db = .ok
      { w.db with content_chunks := w.db.content_chunks.upsert ⟨g, index, chunk⟩ } := by
    rw [Db.put_chunk, if_pos (by rw [hdb]; exact hstored)]
  refine ⟨{ w with
    db := { w.db with content_chunks := w.db.content_chunks.upsert ⟨g, index, chunk⟩ } }, ?_, _,
    by rw [hdb], ?_⟩
  · refine DbCall.exec_of_ok ?_ rfl
    exact Tx.execute_eq_ok.mpr ⟨_, hput, rfl⟩
  · intro other i hne
    rw [Table.find?_upsert, if_neg (fun hkey => hne (congrArg Prod.fst hkey).symm)]
    exact hothers other i hne

theorem Task.run_call {o : DbCall} : (Task.call o).run.run (DbCall.exec rt) w = o.exec rt w := by
  show Prog.run (DbCall.exec rt) (Prog.call o _) w = _
  rw [Prog.run_call]
  rfl

/-- A method whose capability the caller has. -/
theorem Task.run_required {A : Type} {ctx : RequestContext} {capability : Capability}
    {subject : Text} {p : Task A} (h : ctx.has_capability capability = true) :
    (do require_capability ctx capability subject; p : Task A).run.run
    (DbCall.exec rt) w = p.run.run (DbCall.exec rt) w := by
  unfold require_capability
  rw [if_pos h]
  rfl

/-- A method whose capability the caller lacks. -/
theorem Task.run_denied {A : Type} {ctx : RequestContext} {capability : Capability} {subject : Text}
    {p : Task A} (h : ¬ ctx.has_capability capability = true) :
    (do require_capability ctx capability subject; p : Task A).run.run (DbCall.exec rt) w =
      (.error (FsError.permission_denied subject), w) := by
  unfold require_capability
  rw [if_neg h]
  rfl

theorem flush_alone {chunk : Bytes} (hw : Filling base writer.generation_id w)
    (hstored : base.content_generations.contains writer.generation_id = true) :
    ∃ writer' w', (writer.flush_full_buffer chunk).run.run (DbCall.exec rt) w = (.ok writer', w') ∧
    Filling base writer'.generation_id w' ∧
      writer'.generation_id = writer.generation_id ∧
      writer'.max_file_bytes = writer.max_file_bytes ∧
      writer'.total_len = writer.committed_len + CHUNK_SIZE := by
  obtain ⟨w', hexec, hw'⟩ := @upsert_chunk_alone rt base w writer.generation_id
    writer.next_chunk_index chunk hw hstored
  exact ⟨_, w', Task.run_bind_ok (Task.run_call.trans hexec), hw', rfl, rfl, rfl⟩

/-- The loop of `write_bytes` takes the bytes as long as they fit. -/
theorem write_rounds_alone {rounds : Nat} {bytes : Bytes} (hrounds : bytes.length ≤ rounds)
    (hstored : base.content_generations.contains writer.generation_id = true)
    (hw : Filling base writer.generation_id w) (hfits : writer.total_len ≤ writer.max_file_bytes) :
    Fills rt base writer bytes.length (ChunkWriter.write_rounds rounds writer bytes) w := by
  induction rounds generalizing writer bytes w with
  | zero =>
    obtain rfl := List.length_eq_zero_iff.mp (Nat.le_zero.mp hrounds)
    exact Fills.pure hfits hw
  | succ rounds ih =>
    unfold ChunkWriter.write_rounds
    by_cases hnil : bytes = []
    · subst hnil
      exact Fills.pure hfits hw
    · have hpositive := List.length_pos_iff.mpr hnil
      have hpartial := writer.partial_buffer
      rw [if_neg hnil]
      simp only
      generalize htake : min (CHUNK_SIZE - writer.buffer.length) bytes.length = take
      have hbuffer : (writer.buffer ++ bytes.take take).length = writer.buffer.length + take := by
        rw [List.length_append, List.length_take]
        omega
      have hrest : bytes.length = take + (bytes.drop take).length := by
        rw [List.length_drop]
        omega
      split
      · rename_i hexceeds
        refine ⟨_, w, rfl, .refused ?_, fun _ h => by cases h⟩
        rw [ChunkWriter.total_len]
        omega
      · rename_i hroom
        rw [hrest]
        split
        · rename_i hsmall
          refine Fills.shift ?_ ?_ ?_ (ih ?_ ?_ hw ?_)
          · rfl
          · rfl
          · simp only [ChunkWriter.total_len, hbuffer]
            omega
          · omega
          · exact hstored
          · exact Nat.not_lt.mp hroom
        · rename_i hfull
          have hlength : writer.buffer.length + take = CHUNK_SIZE := by omega
          obtain ⟨writer', w', hrun, hw', hgeneration, hmax, htotal⟩ :=
            @flush_alone rt base writer w (writer.buffer ++ bytes.take take) hw hstored
          obtain ⟨result, w'', hrun', hgrown, hfilling⟩ :=
            @ih writer' w' (bytes.drop take) (by omega) (hgeneration ▸ hstored) hw'
            (by omega)
          refine ⟨result, w'', (Task.run_bind_ok hrun).trans hrun',
            hgrown.shift hgeneration hmax ?_, hgeneration ▸ hfilling⟩
          rw [htotal, ChunkWriter.total_len]
          omega

theorem write_bytes_alone {bytes : Bytes}
    (hstored : base.content_generations.contains writer.generation_id = true)
    (hw : Filling base writer.generation_id w) (hfits : writer.total_len ≤ writer.max_file_bytes) :
    Fills rt base writer bytes.length (writer.write_bytes bytes) w :=
  write_rounds_alone (le_refl _) hstored hw hfits

/-- Where a step fails the writer is aborted, and the error is that of the step. -/
theorem or_abort_alone (h : Fills rt base writer added step w) :
    Fills rt base writer added (writer.or_abort step) w := by
  obtain ⟨result, w', hrun, hgrown, hfilling⟩ := h
  cases result with
  | ok writer' =>
    refine ⟨.ok writer', w', ?_, hgrown, hfilling⟩
    show Prog.run (DbCall.exec rt) (step.run >>= _) w = _
    rw [Prog.run_bind, hrun]
    rfl
  | error err =>
    refine ⟨.error err, ((DbCall.delete_generation writer.generation_id).exec rt w').2, ?_, hgrown,
      fun _ h => by cases h⟩
    show Prog.run (DbCall.exec rt) (step.run >>= _) w = _
    rw [Prog.run_bind, hrun]
    rfl

theorem ingest_alone {chunks : List Bytes}
    (hstored : base.content_generations.contains writer.generation_id = true)
    (hw : Filling base writer.generation_id w) (hfits : writer.total_len ≤ writer.max_file_bytes) :
    Fills rt base writer chunks.flatten.length (ChunkWriter.ingest (chunks.map .ok) writer) w := by
  induction chunks generalizing writer w with
  | nil => exact Fills.pure hfits hw
  | cons chunk rest ih =>
    rw [List.flatten_cons, List.length_append]
    refine (or_abort_alone (write_bytes_alone hstored hw hfits)).bind
      (fun writer' w' hgeneration hmax hlength hfits' hw' => ?_)
    exact ih (hgeneration ▸ hstored) hw' hfits'

/-- A writer that is finished has stored what it has taken. -/
theorem finish_alone (hstored : base.content_generations.contains writer.generation_id = true)
    (hw : Filling base writer.generation_id w) :
    ∃ w', writer.finish.run.run (DbCall.exec rt) w =
      (.ok (writer.generation_id, writer.total_len), w') ∧
      Filling base writer.generation_id w' := by
  unfold ChunkWriter.finish
  split
  · rename_i hnil
    refine ⟨w, ?_, hw⟩
    rw [ChunkWriter.total_len, hnil]
    rfl
  · obtain ⟨w', hexec, hw'⟩ :=
      @upsert_chunk_alone rt base w writer.generation_id writer.next_chunk_index writer.buffer hw hstored
    exact ⟨w', Task.run_bind_ok (Task.run_call.trans hexec), hw'⟩

end fills

section finalize

variable {rt : Runtime} {ws : WorkspaceId} {w : World} {path : VirtualPath} {g : GenerationId}
  {length : Nat}
variable {params : FinalizeParams} {actor_json : Text} {n : NodeRow}

/-- A change is appended in a workspace that exists, under a number that is not taken. -/
theorem change.append_total {row : WorkspaceRow} (hrow : w.db.workspace? ws = some row)
    (hfree : w.db.changes.find? (ws, row.change_seq + 1) = none) (kind : ChangeKind)
    (node_id : Option NodeId) (old_path new_path : Option Text) (revision : Option Nat)
    (now : Int) :
    ∃ w', change.append ws kind node_id old_path new_path revision actor_json now w = .ok
      ((), w') := by
  unfold change.append
  rw [Tx.bind_of_ok (show Tx.execute _ w = .ok
    ((), { w with db := w.db.bump_sequence ws now }) from rfl), Tx.query_bind]
  rw [show Db.workspace? _ ws = _ from Db.workspace?_bump_sequence w.db ws now ws, if_pos rfl, hrow]
  simp only [Option.map_some]
  have hinsert : ∃ db', Db.insert_change
    ⟨ws, row.change_seq + 1, kind, node_id, old_path, new_path, revision, now, actor_json⟩
      (w.db.bump_sequence ws now) = .ok db' := by
    unfold Db.insert_change
    rw [if_pos (Table.contains_iff.mpr
      ⟨_, (Db.workspace?_bump_sequence w.db ws now ws).trans (by rw [if_pos rfl, hrow]; rfl)⟩)]
    cases hins : (w.db.bump_sequence ws now).changes.insert
        ⟨ws, row.change_seq + 1, kind, node_id, old_path, new_path, revision, now, actor_json⟩ with
    | some changes => exact ⟨_, rfl⟩
    | none =>
      obtain ⟨c, hc⟩ := Table.contains_iff.mp (Table.insert_eq_none.mp hins)
      exact absurd (show w.db.changes.find? (ws, row.change_seq + 1) = some c from hc)
        (by rw [hfree]; exact Option.some_ne_none c |>.symm)
  obtain ⟨db', hinsert⟩ := hinsert
  exact ⟨_, Tx.execute_eq_ok.mpr ⟨db', hinsert, rfl⟩⟩

/-- A store with the nodes, the workspaces and the change rows of another one. -/
structure SameTree (before db : Db) : Prop where
  nodes : db.nodes = before.nodes
  workspaces : db.workspaces = before.workspaces
  changes : db.changes = before.changes

/-- The columns of a stored node may be written again. -/
theorem allowed_replaced {before : Db} (hwf : WellFormed before) (hsame : SameTree before w.db)
    (hn : n ∈ before.nodes) (hg : w.db.content_generations.contains g = true) (revision : Nat)
    (now : Int) :
    Allowed w.db ((replaced g length revision now).apply n) := by
  refine ⟨?_, fun up hup => ?_, fun g' hg' => ?_,
    fun hactive up hup m hm hne hws hmup hname hmactive => ?_⟩
  · rw [Db.workspace?, hsame.workspaces]
    exact hwf.nodes.workspace n hn
  · obtain ⟨p, hp, rfl, _⟩ := hwf.nodes.parent n hn up hup
    rw [Db.node?, hsame.nodes]
    exact ⟨p, Db.node?_of_mem hp⟩
  · obtain rfl := Option.some.inj hg'
    exact Table.contains_iff.mp hg
  · rw [hsame.nodes] at hm
    obtain rfl := hwf.nodes.name m hm n hn hws (hmup.trans hup.symm)
      (by rw [hmup]; exact Option.some_ne_none up) hname hmactive hactive
    exact hne rfl

/-- The number of the next change is not taken. -/
theorem WellFormed.next_change {db : Db} (hwf : WellFormed db) {row : WorkspaceRow}
    (hrow : db.workspace? ws = some row) :
    db.changes.find? (ws, row.change_seq + 1) = none := by
  refine Table.find?_eq_none.mpr (fun c hc hkey => ?_)
  obtain ⟨row', hrow', hle⟩ := hwf.changes c hc
  have hws : c.workspace_id = ws := congrArg Prod.fst hkey
  have hseq : c.sequence = row.change_seq + 1 := congrArg Prod.snd hkey
  rw [hws, hrow, Option.some.injEq] at hrow'
  subst hrow'
  omega

/-- The commit of a generation that has been filled replaces the file at the path. -/
theorem finalize_tx_total {before : Db} (hwf : WellFormed before) (hsame : SameTree before w.db)
    (hfound : resolve.resolve before ws path = some n.toRawNode) (hlive : Live before ws n)
    (hkind : n.kind = .File) (hstale : stale params.expected_revision n.revision = false)
    (hg : w.db.content_generations.contains g = true) (hold : n.content_generation_id ≠ some g) :
    ∃ row w', finalize_tx rt ws path g length params actor_json w = .ok (.Applied row, w') ∧
    row.id = n.id ∧ row.size = length ∧
      row.revision = n.revision + 1 := by
  obtain ⟨row, hrow⟩ := hwf.nodes.workspace n hlive.mem
  rw [hlive.workspace] at hrow
  have hfree := hwf.next_change hrow
  obtain ⟨w₁, hw₁⟩ : ∃ w₁ : World, w₁ = ⟨{ w.db with
      nodes := w.db.nodes.modify n.id (replaced g length (n.revision + 1) (rt.nowMs w.tick)) },
        w.tick + 1⟩ := ⟨_, rfl⟩
  have hupdate : Tx.execute (Db.update_node n.id
    (replaced g length (n.revision + 1) (rt.nowMs w.tick)))
      ⟨w.db, w.tick + 1⟩ = .ok ((), w₁) := by
    refine Tx.execute_eq_ok.mpr ⟨w₁.db, ?_, by rw [hw₁]⟩
    unfold Db.update_node
    rw [Db.node?, hsame.nodes, show before.nodes.find? n.id = some n from Db.node?_of_mem hlive.mem,
      hw₁]
    simp only
    rw [if_pos (Db.node_allowed_iff.mpr (allowed_replaced hwf hsame hlive.mem hg _ _)), hsame.nodes]
  obtain ⟨w₂, hw₂⟩ : ∃ w₂ : World, w₂ = { w₁ with db := w₁.db.set_generation_complete g length } :=
    ⟨_, rfl⟩
  have hcomplete : finalize_generation g length w₁ = .ok ((), w₂) :=
    Tx.execute_eq_ok.mpr ⟨_, rfl, hw₂⟩
  have hworkspaces : w₂.db.workspaces = before.workspaces := by
    rw [hw₂, hw₁]
    exact hsame.workspaces
  have hchanges : w₂.db.changes = before.changes := by
    rw [hw₂, hw₁]
    exact hsame.changes
  obtain ⟨w₃, happend⟩ := @change.append_total ws w₂ actor_json row
    (by rw [Db.workspace?, hworkspaces]; exact hrow)
    (by rw [hchanges]; exact hfree) .Modified
    (some n.id) none (some path.as_str) (some (n.revision + 1)) (rt.nowMs w.tick)
  have hnodes : w₃.db.nodes = before.nodes.modify n.id
      (replaced g length (n.revision + 1) (rt.nowMs w.tick)) := by
    rw [(change.append_ok happend).2.appended.nodes, hw₂, hw₁, ← hsame.nodes]
    rfl
  have hfound' : resolve.resolve w.db ws path = some n.toRawNode :=
    (resolve.resolve_congr hsame.nodes path).trans hfound
  obtain ⟨old, hcontent⟩ := Option.ne_none_iff_exists'.mp (hwf.contents.file n hlive.mem hkind)
  have hne : old ≠ g := fun heq => hold (heq ▸ hcontent)
  have hremove : ∃ w₄, delete_generation old w₃ = .ok ((), w₄) := by
    refine ⟨_, Tx.execute_eq_ok.mpr ⟨_, if_neg ?_, rfl⟩⟩
    rw [Bool.and_eq_true, not_and, hnodes, List.any_eq_true]
    rintro _ ⟨m, hm, hmold⟩
    rw [decide_eq_true_iff] at hmold
    obtain rfl | ⟨hm, hmne⟩ := (Table.mem_modify_of_mem hlive.mem).mp hm
    · exact hne (Option.some.inj hmold).symm
    · exact hmne (congrArg NodeRow.key (hwf.contents.unshared m hm n hlive.mem old hmold hcontent))
  obtain ⟨w₄, hremove⟩ := hremove
  refine ⟨{ n.toRawNode with
    workspace_id := ws, kind := .File, size := length, revision := n.revision + 1, modified_at_ms :=
      rt.nowMs w.tick
    accessed_at_ms := rt.nowMs w.tick, content_generation_id := some g, symlink_target := none },
      w₄, ?_, rfl, rfl, rfl⟩
  simp only [finalize_tx, Tx.query_bind, hfound', hkind, ne_eq, not_true_eq_false, if_false, hstale,
    Bool.false_eq_true, Tx.now_ms_bind]
  rw [Tx.bind_of_ok hupdate, Tx.bind_of_ok hcomplete, Tx.bind_of_ok happend]
  simp only [hcontent, hne, not_false_eq_true, if_true]
  rw [Tx.bind_of_ok hremove]
  rfl

/-- How the replacement of a file ends whose new bytes are staged alone. -/
inductive Settled (path : VirtualPath) (expected : Option Revision) (n : NodeRow)
    (limit length : Nat) : FsResult Node → Prop where
  | replaced {node : Node} (hid : node.id = n.id) (hsize : node.logical_size = length)
      (hrevision : node.revision.get = n.revision + 1) (hfits : length ≤ limit) :
        Settled path expected n limit length (.ok node)
  | refused (hexceeds : limit < length) : Settled path expected n limit length
      (.error (FsError.quota_exceeded (ChunkWriter.quota_message limit)))
  | outdated (hstale : stale expected n.revision = true) (hfits : length ≤ limit) :
      Settled path expected n limit length (.error (FsError.revision_conflict path.as_str))

theorem RawNode.into_node_figures {row : RawNode} (h : 0 < row.revision) :
    ∃ node, row.into_node = .ok node ∧ node.id = row.id ∧ node.logical_size = row.size ∧
    node.revision.get = row.revision := by
  unfold RawNode.into_node Revision.new
  rw [dif_pos h]
  exact ⟨_, rfl, rfl, rfl, rfl⟩

/-- What a method makes of the outcome of the finalization. -/
def finalize_answer (path : VirtualPath) (g : GenerationId) : FinalizeOutcome → Task Node
  | .Applied row => Task.ofResult row.into_node
  | .NotFound => do
    delete_generation_async g
    throw (FsError.not_found path.as_str)
  | .WrongNodeType => do
    delete_generation_async g
    throw (FsError.wrong_node_type path.as_str)
  | .RevisionConflict => do
    delete_generation_async g
    throw (FsError.revision_conflict path.as_str)

theorem finalize_ok {outcome : FinalizeOutcome} {w' : World}
    (h : finalize_tx rt ws path g length params actor_json w = .ok (outcome, w')) :
    (finalize ws path g length params actor_json).run.run (DbCall.exec rt) w =
      (finalize_answer path g outcome).run.run (DbCall.exec rt) w' := by
  have hexec : (DbCall.finalize ws path g length params actor_json).exec rt w =
      (.ok outcome, w') := DbCall.exec_of_ok h rfl
  unfold finalize
  refine (@Task.run_bind_ok rt w w' _ _ _ _ outcome ?_).trans ?_
  · show Prog.run (DbCall.exec rt) ((Task.call _).run >>= _) w = _
    rw [Prog.run_bind, Task.run_call, hexec]
    rfl
  · cases outcome <;> rfl

theorem finalize_fault {fault : Fault}
    (h : finalize_tx rt ws path g length params actor_json w = .error fault) :
    (finalize ws path g length params actor_json).run.run (DbCall.exec rt) w =
      (.error (DbCall.map_call_error rt fault), ((DbCall.delete_generation g).exec rt w).2) := by
  have hexec : (DbCall.finalize ws path g length params actor_json).exec rt w =
      (.error (DbCall.map_call_error rt fault), w) := DbCall.exec_of_error h
  unfold finalize
  refine Task.run_bind_error ?_
  show Prog.run (DbCall.exec rt) ((Task.call _).run >>= _) w = _
  rw [Prog.run_bind, Task.run_call, hexec]
  rfl

theorem finalize_alone {before : Db} (hwf : WellFormed before) (hsame : SameTree before w.db)
    (hfound : resolve.resolve before ws path = some n.toRawNode) (hlive : Live before ws n)
    (hkind : n.kind = .File) (hstale : stale params.expected_revision n.revision = false)
    (hg : w.db.content_generations.contains g = true) (hold : n.content_generation_id ≠ some g) :
    ∃ node w', (finalize ws path g length params actor_json).run.run
      (DbCall.exec rt) w = (.ok node, w') ∧
      node.id = n.id ∧ node.logical_size = length ∧ node.revision.get = n.revision + 1 := by
  obtain ⟨row, w', htx, hid, hsize, hrevision⟩ :=
    @finalize_tx_total rt ws w path g length params actor_json n before hwf hsame hfound hlive hkind hstale hg hold
  obtain ⟨node, hnode, hid', hsize', hrevision'⟩ := @RawNode.into_node_figures row (by omega)
  refine ⟨node, w', (finalize_ok htx).trans ?_, hid'.trans hid, hsize'.trans hsize,
    hrevision'.trans hrevision⟩
  simp only [finalize_answer, hnode]
  rfl

theorem finalize_outdated {before : Db} (hsame : SameTree before w.db)
    (hfound : resolve.resolve before ws path = some n.toRawNode) (hkind : n.kind = .File)
    (hstale : stale params.expected_revision n.revision = true) :
    ∃ w', (finalize ws path g length params actor_json).run.run (DbCall.exec rt) w =
      (.error (FsError.revision_conflict path.as_str), w') := by
  have hfound' : resolve.resolve w.db ws path = some n.toRawNode :=
    (resolve.resolve_congr hsame.nodes path).trans hfound
  have htx : finalize_tx rt ws path g length params actor_json w = .ok (.RevisionConflict, w) := by
    simp only [finalize_tx, Tx.query_bind, hfound', hkind, ne_eq, not_true_eq_false, if_false,
      hstale, if_true]
    rfl
  exact ⟨((DbCall.delete_generation g).exec rt w).2, finalize_ok htx⟩

/-- New bytes that are staged alone exceed the quota, or they come to their finalization while
the nodes are as they were. -/
theorem staged_run {row : WorkspaceRow} {fill : ChunkWriter → Task ChunkWriter}
    (hfresh : w.db.generation? (rt.newId w.tick) = none) (hrow : w.db.workspace? ws = some row)
    (hfill : ∀ g w', create_generation rt ws w = .ok (g, w') →
      Fills rt w'.db (ChunkWriter.new g row.max_file_bytes) length
        (fill (ChunkWriter.new g row.max_file_bytes)) w') :
    ∃ result w', (do
        let max_file_bytes ← max_file_bytes ws
        let generation_id ← start_new_generation ws
        let writer ← fill (ChunkWriter.new generation_id max_file_bytes)
        let (generation_id, length) ← writer.finish
        finalize ws path generation_id length params actor_json : Task Node).run.run
          (DbCall.exec rt) w = (result, w') ∧
      ((row.max_file_bytes < length ∧ result =
        .error (FsError.quota_exceeded (ChunkWriter.quota_message row.max_file_bytes))) ∨
      length ≤ row.max_file_bytes ∧ ∃ w₀ : World, SameTree w.db w₀.db ∧
        w₀.db.content_generations.contains (rt.newId w.tick) = true ∧
        (finalize ws path (rt.newId w.tick) length params actor_json).run.run
          (DbCall.exec rt) w₀ = (result, w')) := by
  obtain ⟨⟨g, w₁⟩, hcreate⟩ := create_generation_iff.mpr ⟨⟨row, hrow⟩, hfresh⟩
  obtain ⟨gens, rfl, hins, hw₁⟩ := create_generation_ok hcreate
  have hquota : (max_file_bytes ws).run.run (DbCall.exec rt) w = (.ok row.max_file_bytes, w) := by
    have hexec : (DbCall.fetch_max_file_bytes ws).exec rt w =
        (.ok (some row.max_file_bytes), w) := by
      show ((.ok (fetch_max_file_bytes w.db ws), w) : FsResult _ × World) = _
      rw [fetch_max_file_bytes, hrow]
      rfl
    exact Task.run_bind_ok (Task.run_call.trans hexec)
  have hstart : (start_new_generation ws).run.run
    (DbCall.exec rt) w = (.ok (rt.newId w.tick), w₁) :=
    Task.run_call.trans (DbCall.exec_of_ok hcreate rfl)
  obtain ⟨result, w₂, hrun, hgrown, hfilling⟩ := hfill _ _ hcreate
  rw [Task.run_bind_ok hquota, Task.run_bind_ok hstart]
  cases hgrown with
  | refused hexceeds =>
    refine ⟨_, w₂, Task.run_bind_error hrun, Or.inl ⟨?_, rfl⟩⟩
    simpa [ChunkWriter.total_len, ChunkWriter.new] using hexceeds
  | @taken writer hgeneration hmax hlength hfits =>
    have htotal : writer.total_len =
      length := by simpa [ChunkWriter.total_len, ChunkWriter.new] using hlength
    have hstored : w₁.db.content_generations.contains writer.generation_id = true := by
      rw [hgeneration, hw₁]
      exact Table.contains_iff.mpr ⟨_, (Table.find?_insert hins _).trans (if_pos rfl)⟩
    obtain ⟨w₃, hfinish, chunks, hdb, _⟩ :=
      @finish_alone rt w₁.db writer w₂ hstored (hgeneration ▸ hfilling writer rfl)
    have hsame : SameTree w.db w₃.db := by
      rw [hdb, hw₁]
      exact ⟨rfl, rfl, rfl⟩
    rw [Task.run_bind_ok hrun, Task.run_bind_ok hfinish]
    rw [hgeneration] at hstored ⊢
    rw [htotal] at hfits ⊢
    exact ⟨_, _, rfl, Or.inr ⟨hfits, w₃, hsame, by rw [hdb]; exact hstored, rfl⟩⟩

/-- A file whose new bytes are staged alone is replaced, or the quota or the expected revision
stands against it. -/
theorem staged_alone {row : WorkspaceRow} {fill : ChunkWriter → Task ChunkWriter}
    (hwf : WellFormed w.db) (hfresh : w.db.generation? (rt.newId w.tick) = none)
    (hrow : w.db.workspace? ws = some row)
    (hfound : resolve.resolve w.db ws path = some n.toRawNode) (hlive : Live w.db ws n)
    (hkind : n.kind = .File)
    (hfill : ∀ g w', create_generation rt ws w = .ok (g, w') →
      Fills rt w'.db (ChunkWriter.new g row.max_file_bytes) length
        (fill (ChunkWriter.new g row.max_file_bytes)) w') :
    ∃ result w', (do
        let max_file_bytes ← max_file_bytes ws
        let generation_id ← start_new_generation ws
        let writer ← fill (ChunkWriter.new generation_id max_file_bytes)
        let (generation_id, length) ← writer.finish
        finalize ws path generation_id length params actor_json : Task Node).run.run
          (DbCall.exec rt) w = (result, w') ∧
      Settled path params.expected_revision n row.max_file_bytes length result := by
  obtain ⟨result, w', hrun, ⟨hexceeds, rfl⟩ | ⟨hfits, w₀, hsame, hstored, hfinal⟩⟩ :=
    @staged_run rt ws w path length params actor_json row fill hfresh hrow hfill
  · exact ⟨_, w', hrun, .refused hexceeds⟩
  · have hold : n.content_generation_id ≠ some (rt.newId w.tick) := by
      intro hcontent
      obtain ⟨_, row', hrow', _⟩ := hwf.contents.generation n hlive.mem _ hcontent
      rw [hfresh] at hrow'
      cases hrow'
    refine ⟨result, w', hrun, ?_⟩
    cases hstale : stale params.expected_revision n.revision with
    | true =>
      obtain ⟨w'', hconflict⟩ := @finalize_outdated rt ws w₀ path (rt.newId w.tick) length params
        actor_json n w.db hsame hfound hkind hstale
      rw [hfinal, Prod.mk.injEq] at hconflict
      exact hconflict.1 ▸ .outdated hstale hfits
    | false =>
      obtain ⟨node, w'', hreplaced, hid, hsize, hrevision⟩ :=
        @finalize_alone rt ws w₀ path (rt.newId w.tick) length params actor_json n w.db hwf hsame
        hfound hlive hkind hstale hstored hold
      rw [hfinal, Prod.mk.injEq] at hreplaced
      exact hreplaced.1 ▸ .replaced hid hsize hrevision hfits

/-- A lone write to a file replaces it, or the quota or the expected revision stands against
it. -/
theorem write_alone {row : WorkspaceRow} {chunks : List Bytes} {options : WriteOptions}
    (hwf : WellFormed w.db) (hfresh : w.db.generation? (rt.newId w.tick) = none)
    (hrow : w.db.workspace? ws = some row)
    (hfound : resolve.resolve w.db ws path = some n.toRawNode) (hlive : Live w.db ws n)
    (hkind : n.kind = .File) :
    ∃ result w', (write ws path (chunks.map .ok) options actor_json).run.run
      (DbCall.exec rt) w = (result, w') ∧
      Settled path options.expected_revision n row.max_file_bytes chunks.flatten.length result := by
  obtain ⟨result, w', hrun, hsettled⟩ :=
    @staged_alone rt ws w path chunks.flatten.length ⟨options.create, options.expected_revision⟩
    actor_json n row (ChunkWriter.ingest (chunks.map .ok)) hwf hfresh hrow hfound hlive hkind
      (fun g w' hcreate => by
      obtain ⟨gens, rfl, hins, hw'⟩ := create_generation_ok hcreate
      refine ingest_alone ?_ ⟨w'.db.content_chunks, rfl, fun _ _ _ => rfl⟩ (Nat.zero_le _)
      rw [hw']
      exact Table.contains_iff.mpr ⟨_, (Table.find?_insert hins _).trans (if_pos rfl)⟩)
  refine ⟨result, w', ?_, hsettled⟩
  rw [← hrun]
  unfold write stage_source
  simp only [bind_assoc]

end finalize

end fslite
