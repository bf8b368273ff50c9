import Fslite.Sqlite.Run.Authority
import Fslite.Sqlite.Run.Lengths
import Fslite.Sqlite.Run.Limits

namespace fslite

open content mutate

namespace content.ChunkWriter

/-- The writer has taken in no more bytes than its limit allows. -/
def Within (limit : Nat) (writer : ChunkWriter) : Prop :=
  writer.max_file_bytes = limit ∧ writer.total_len ≤ limit

variable {limit : Nat} {writer : ChunkWriter}

theorem flush_full_buffer_ends {chunk : Bytes} (hmax : writer.max_file_bytes = limit)
    (hfits : writer.committed_len + CHUNK_SIZE ≤ limit) :
    Failing.Ends (Within limit) (writer.flush_full_buffer chunk) := by
  intro r
  cases r with
  | ok _ => exact Failing.Ends.pure ⟨hmax, hfits⟩
  | error err => exact Failing.Ends.throw

/-- The loop of `write_bytes` stops at the limit, whatever the store answers. -/
theorem write_rounds_ends {rounds : Nat} {bytes : Bytes} (h : writer.Within limit) :
    Failing.Ends (Within limit) (write_rounds rounds writer bytes) := by
  induction rounds generalizing writer bytes with
  | zero => exact Failing.Ends.pure h
  | succ rounds ih =>
    unfold write_rounds
    split
    · exact Failing.Ends.pure h
    · have hspace := writer.partial_buffer
      simp only
      split
      · exact Failing.Ends.throw
      · rename_i hroom
        rw [not_lt, h.1] at hroom
        split
        · exact ih ⟨h.1, hroom⟩
        · rename_i hfull
          refine Failing.Ends.bind (flush_full_buffer_ends h.1 ?_) (fun _ h' => ih h')
          exact (Nat.add_le_add_left (not_lt.mp hfull) _).trans hroom

theorem write_bytes_ends {bytes : Bytes} (h : writer.Within limit) :
    Failing.Ends (Within limit) (writer.write_bytes bytes) := write_rounds_ends h

theorem abort_throw_ends {A : Type} {Q : A → Prop} {err : FsError} :
    Failing.Ends Q (do writer.abort; throw err : Task A) :=
  fun _ => Failing.Ends.throw

theorem or_abort_ends {step : Task ChunkWriter} (h : Failing.Ends (Within limit) step) :
    Failing.Ends (Within limit) (writer.or_abort step) :=
  h.tryCatch (fun _ => abort_throw_ends)

theorem copy_prefix_from_ends {old : GenerationId} {upto : Nat} (hmax : writer.max_file_bytes = limit)
    (hupto : writer.total_len + upto ≤ limit) :
    Failing.Ends (Within limit) (writer.copy_prefix_from old upto) := by
  have hdiv := Nat.div_add_mod upto CHUNK_SIZE
  rw [Nat.mul_comm] at hdiv
  have hremainder : ∀ writer : ChunkWriter, writer.Within limit → Failing.Ends (Within limit)
      (if 0 < chunk_local_offset upto then do
        let bytes ← Task.call (.fetch_chunk_bytes old (chunk_index_of upto))
        writer.write_bytes (bytes.take (min (chunk_local_offset upto) bytes.length))
      else pure writer) := by
    intro writer h
    split
    · intro r
      cases r with
      | ok bytes => exact write_bytes_ends h
      | error err => exact Failing.Ends.throw
    · exact Failing.Ends.pure h
  unfold copy_prefix_from
  split
  · exact Failing.Ends.pure ⟨hmax, (Nat.le_add_right _ _).trans hupto⟩
  · simp only
    split
    · intro r
      cases r with
      | ok _ =>
        refine hremainder _ ⟨hmax, ?_⟩
        simp only [total_len, skip_committed_chunks, chunk_index_of] at hupto ⊢
        omega
      | error err => exact Failing.Ends.throw
    · exact hremainder writer ⟨hmax, (Nat.le_add_right _ _).trans hupto⟩

theorem copy_suffix_from_ends {old : GenerationId} {from_ to_ : Nat} (h : writer.Within limit) :
    Failing.Ends (Within limit) (writer.copy_suffix_from old from_ to_) := by
  have hchunks : ∀ (indices : List Nat) (writer : ChunkWriter), writer.Within limit →
      Failing.Ends (Within limit) (copy_chunks old from_ to_ indices writer) := by
    intro indices
    induction indices with
    | nil => exact fun _ h => Failing.Ends.pure h
    | cons index rest ih =>
      intro writer h r
      cases r with
      | ok bytes => exact Failing.Ends.bind (write_bytes_ends h) (fun writer' h' => ih writer' h')
      | error err => exact Failing.Ends.throw
  unfold copy_suffix_from
  split
  · exact Failing.Ends.pure h
  · exact hchunks _ writer h

theorem zero_rounds_ends {rounds remaining : Nat} (h : writer.Within limit) :
    Failing.Ends (Within limit) (zero_rounds rounds writer remaining) := by
  induction rounds generalizing writer remaining with
  | zero => exact Failing.Ends.pure h
  | succ rounds ih =>
    unfold zero_rounds
    split
    · exact Failing.Ends.pure h
    · exact Failing.Ends.bind (write_bytes_ends h) (fun _ h' => ih h')

theorem ingest_ends (source : WriteSource) (h : writer.Within limit) :
    Failing.Ends (Within limit) (ingest source writer) := by
  induction source generalizing writer with
  | nil => exact Failing.Ends.pure h
  | cons item rest ih =>
    cases item with
    | ok bytes => exact Failing.Ends.bind (or_abort_ends (write_bytes_ends h)) (fun _ h' => ih h')
    | error err => exact abort_throw_ends

theorem finish_ends (h : writer.Within limit) :
    Failing.Ends (fun result : GenerationId × Nat => result.2 ≤ limit) writer.finish := by
  unfold finish
  split
  · rename_i hempty
    refine Failing.Ends.pure ?_
    have hfits := h.2
    rwa [total_len, hempty, List.length_nil, Nat.add_zero] at hfits
  · intro r
    cases r with
    | ok _ => exact Failing.Ends.pure h.2
    | error err => exact Failing.Ends.throw

end content.ChunkWriter

/-- What is staged for a file within the limit stays within it. -/
theorem content.rewrite_ends {g : GenerationId} {limit old_length offset : Nat}
    {old_generation_id : Option GenerationId} {source : WriteSource} {preserve_old_suffix : Bool}
    (hold : old_length ≤ limit) :
    Failing.Ends (ChunkWriter.Within limit) (rewrite (ChunkWriter.new g limit) old_generation_id
      old_length offset source preserve_old_suffix) := by
  have hsource : ∀ writer : ChunkWriter, writer.Within limit →
      Failing.Ends (ChunkWriter.Within limit) (do
        let writer ← ChunkWriter.ingest source writer
        if preserve_old_suffix ∧ writer.total_len < old_length then do
          let old ← Task.expect old_generation_id
          writer.or_abort (writer.copy_suffix_from old writer.total_len old_length)
        else pure writer) := by
    refine fun writer h => Failing.Ends.bind (ChunkWriter.ingest_ends source h) (fun writer h => ?_)
    split
    · cases old_generation_id with
      | none => exact Failing.Ends.throw
      | some old => exact ChunkWriter.or_abort_ends (ChunkWriter.copy_suffix_from_ends h)
    · exact Failing.Ends.pure h
  have hzeros : ∀ writer : ChunkWriter, writer.Within limit →
      Failing.Ends (ChunkWriter.Within limit) (do
        let writer ←
          if old_length < offset then writer.or_abort (writer.zero_fill (offset - old_length))
          else pure writer
        let writer ← ChunkWriter.ingest source writer
        if preserve_old_suffix ∧ writer.total_len < old_length then do
          let old ← Task.expect old_generation_id
          writer.or_abort (writer.copy_suffix_from old writer.total_len old_length)
        else pure writer) := by
    intro writer h
    split
    · exact Failing.Ends.bind (ChunkWriter.or_abort_ends (ChunkWriter.zero_rounds_ends h)) hsource
    · exact hsource writer h
  unfold rewrite
  cases old_generation_id with
  | none => exact hzeros _ ⟨rfl, Nat.zero_le _⟩
  | some old =>
    have hfits : (ChunkWriter.new g limit).total_len + min offset old_length ≤ limit := by
      rw [show (ChunkWriter.new g limit).total_len = 0 from rfl]
      omega
    exact Failing.Ends.bind (ChunkWriter.or_abort_ends
      (ChunkWriter.copy_prefix_from_ends rfl hfits)) hzeros

section requests

variable {rt : Runtime} {ctx : RequestContext} {ws : WorkspaceId} {limit : Nat} {A B : Type}
  {Q : A → Prop} {p : Task A}

/-- A store in which the workspace, if there is one, has the limit. -/
def Limiting (rt : Runtime) (ws : WorkspaceId) (limit : Nat) (w : World) : Prop :=
  Reachable rt w ∧ ∀ row ∈ w.db.workspaces, row.id = ws → row.max_file_bytes = limit

/-- A method that makes no file of the workspace larger than the limit. -/
def Bounded (rt : Runtime) (ws : WorkspaceId) (limit : Nat) (Q : A → Prop) (p : Task A) : Prop :=
  Failing.Upholds (DbCall.exec rt) (Limiting rt ws limit) (fun w => w.db.Sized ws limit)
    (fun _ _ => True) Q p

namespace Bounded

theorem of_all (hp : Failing.All (DbCall.Small ws limit) p) (hQ : Failing.Ends Q p) :
    Bounded rt ws limit Q p :=
  Prog.Upholds.of_all hp hQ
    (fun _ _ hsmall hlive hinv => ⟨DbCall.exec_sized hlive.1.sound.wf hinv hsmall, trivial⟩)

theorem of_small (hp : Failing.All (DbCall.Small ws limit) p) :
    Bounded rt ws limit (fun _ => True) p :=
  of_all hp (Prog.Ends.of_forall (fun _ _ _ => trivial) p.run)

theorem guarded {capability : Capability} {subject : Text} (h : Bounded rt ws limit Q p) :
    Bounded rt ws limit Q (do require_capability ctx capability subject; p) := by
  unfold require_capability
  split
  · exact h
  · exact Failing.Upholds.throw

theorem query {o : DbCall} {R : o.Answer → Prop} {f : Db → o.Answer}
    (hbody : o.body rt = Tx.query f) (hcommits : ∀ answer, o.commits answer = true)
    (h : ∀ w, Limiting rt ws limit w → w.db.Sized ws limit → R (f w.db)) :
    Bounded rt ws limit R (Task.call o) := by
  intro w hlive hsized
  have hexec : DbCall.exec rt o w = (.ok (f w.db), w) := by
    have hok : o.body rt w = .ok (f w.db, w) := by rw [hbody]; rfl
    rw [DbCall.exec, hok]
    simp only [hcommits, if_true]
  rw [hexec]
  refine ⟨hsized, trivial, fun _ heq => ?_⟩
  cases heq
  exact h w hlive hsized

theorem max_file_bytes : Bounded rt ws limit (fun given => given = limit)
    (content.max_file_bytes ws) := by
  refine Failing.Upholds.bind (query (o := .fetch_max_file_bytes ws)
    (R := fun answer => ∀ given, answer = some given → given = limit)
    (f := fun db => fetch_max_file_bytes db ws) rfl (fun _ => rfl) (fun w hlive _ given hgiven => ?_))
    (fun answer hanswer => ?_)
  · obtain ⟨row, hrow, rfl⟩ := Option.map_eq_some_iff.mp hgiven
    obtain ⟨hmem, hid⟩ := Table.find?_eq_some.mp hrow
    exact hlive.2 row hmem hid
  · cases answer with
    | none => exact Failing.Upholds.throw
    | some given => exact Failing.Upholds.pure (hanswer given rfl)

theorem resolve_existing_file (path : VirtualPath) : Bounded rt ws limit
    (fun existing => ∀ raw, existing = some raw → raw.size ≤ limit)
    (content.resolve_existing_file ws path) := by
  refine Failing.Upholds.bind (query (o := .resolve ws path)
    (R := fun existing => ∀ raw, existing = some raw → raw.size ≤ limit)
    (f := fun db => resolve.resolve db ws path) rfl (fun _ => rfl) (fun w _ hsized raw hraw => ?_))
    (fun existing hexisting => ?_)
  · obtain ⟨n, rfl, hn⟩ := resolve.resolve_live hraw
    exact hsized _ (Db.mem_sizes.mpr ⟨n, hn.mem, hn.workspace, rfl⟩)
  · cases existing with
    | none => exact Failing.Upholds.pure (fun raw hraw => by cases hraw)
    | some node =>
      simp only
      split
      · exact Failing.Upholds.pure hexisting
      · exact Failing.Upholds.throw

theorem prepared {o : DbCall} (h : o.Prepares ws) : o.Small ws limit := by
  cases o with
  | finalize => exact h.elim
  | _ => trivial

theorem prepares (hp : Failing.All (DbCall.Prepares ws) p) (hQ : Failing.Ends Q p) :
    Bounded rt ws limit Q p :=
  of_all (Prog.All.mono hp (fun _ h => prepared h)) hQ

theorem finalize {path : VirtualPath} {g : GenerationId} {length : Nat} {params : FinalizeParams}
    {actor_json : Text} (hlength : length ≤ limit) :
    Bounded rt ws limit (fun _ => True) (content.finalize ws path g length params actor_json) :=
  of_small (DbCall.Prepares.finalize (fun _ h => prepared h) (fun _ => hlength))

theorem start_new_generation :
    Bounded rt ws limit (fun _ => True) (content.start_new_generation ws) :=
  of_small ⟨trivial, fun _ => trivial⟩

theorem write {path : VirtualPath} {source : WriteSource} {options : WriteOptions}
    {actor_json : Text} :
    Bounded rt ws limit (fun _ => True) (content.write ws path source options actor_json) := by
  refine Failing.Upholds.bind max_file_bytes (fun given hgiven =>
    Failing.Upholds.bind start_new_generation (fun g _ => ?_))
  subst hgiven
  refine Failing.Upholds.bind (prepares (Failing.All.bind (DbCall.Prepares.ingest _ _)
    (fun _ => DbCall.Prepares.finish _)) (Failing.Ends.bind (ChunkWriter.ingest_ends source
      ⟨rfl, Nat.zero_le _⟩) (fun _ h => ChunkWriter.finish_ends h))) (fun result hresult => ?_)
  exact finalize hresult

theorem write_at_impl {path : VirtualPath} {offset : Nat} {source : WriteSource} {create : Bool}
    {expected_revision : Option Revision} {actor_json : Text} {preserve_old_suffix : Bool} :
    Bounded rt ws limit (fun _ => True) (content.write_at_impl ws path offset source create
      expected_revision actor_json preserve_old_suffix) := by
  refine Failing.Upholds.bind (resolve_existing_file path) (fun existing hexisting => ?_)
  split
  · exact Failing.Upholds.throw
  · have hold : (existing.map RawNode.size).getD 0 ≤ limit := by
      cases existing with
      | none => exact Nat.zero_le _
      | some raw => exact hexisting raw rfl
    refine Failing.Upholds.bind max_file_bytes (fun given hgiven =>
      Failing.Upholds.bind start_new_generation (fun g _ => ?_))
    subst hgiven
    refine Failing.Upholds.bind (prepares (DbCall.Prepares.rewrite _ _ _ _ _ _)
      (rewrite_ends hold)) (fun writer hwriter => ?_)
    exact Failing.Upholds.bind (prepares (DbCall.Prepares.finish _)
      (ChunkWriter.finish_ends hwriter)) (fun result hresult => finalize hresult)

theorem append {path : VirtualPath} {source : WriteSource} {options : WriteOptions}
    {actor_json : Text} :
    Bounded rt ws limit (fun _ => True) (content.append ws path source options actor_json) :=
  Failing.Upholds.bind (resolve_existing_file path) (fun _ _ => write_at_impl)

end Bounded
end requests

section requests

variable {rt : Runtime} {ctx : RequestContext} {ws : WorkspaceId} {limit : Nat}

/-- No request makes a file of the workspace larger than the limit. -/
theorem Request.bounded (request : Request) :
    Bounded rt ws limit (fun _ => True) (request.serve rt ctx) := by
  by_cases hws : ctx.workspace_id = ws
  · subst hws
    have hcall : ∀ {o : DbCall}, o.Small ctx.workspace_id limit →
        Failing.All (DbCall.Small ctx.workspace_id limit) (Task.call o) :=
      fun h => ⟨h, fun _ => trivial⟩
    have hreads : ∀ {o : DbCall}, o.Reads ctx.workspace_id → o.Small ctx.workspace_id limit :=
      fun {o} h => by cases o <;> trivial
    cases request with
    | Write path source options => exact Failing.Upholds.map (Bounded.guarded Bounded.write)
    | WriteAt path offset source options =>
      exact Failing.Upholds.map (Bounded.guarded Bounded.write_at_impl)
    | Append path source options => exact Failing.Upholds.map (Bounded.guarded Bounded.append)
    | Truncate path length options =>
      exact Failing.Upholds.map (Bounded.guarded Bounded.write_at_impl)
    | CreateWorkspace options => exact Bounded.of_small (Failing.All.map (hcall trivial))
    | DeleteWorkspace ws => exact Bounded.of_small (Failing.All.map (hcall trivial))
    | ResetWorkspace ws =>
      refine Bounded.of_small (Failing.All.map (Failing.All.bind (hcall trivial) (fun found => ?_)))
      split
      · exact Failing.All.pure
      · exact Failing.All.throw
    | WorkspaceUsage =>
      refine Bounded.of_small (Failing.All.map (Task.all_guarded (fun _ =>
        Failing.All.bind (hcall trivial) (fun raw => ?_))))
      cases raw with
      | some raw => exact Failing.All.pure
      | none => exact Failing.All.throw
    | Stat path follow_symlinks =>
      refine Bounded.of_small (Failing.All.map (Task.all_guarded
        (fun _ => Failing.All.bind (hcall trivial) (fun outcome => ?_))))
      cases outcome with
      | Found row => trivial
      | _ => exact Failing.All.throw
    | Read path options =>
      refine Bounded.of_small (Failing.All.bind (Task.all_guarded (fun _ =>
        Prog.All.mono (DbCall.Reads.read path options) (fun _ h => hreads h)))
        (fun file => Failing.All.bind (Failing.All.lift ?_) (fun _ => Failing.All.pure)))
      unfold FileRead.into_stream
      split
      · trivial
      · exact Prog.All.mono (DbCall.Reads.drain _ _) (fun _ h => hreads h)
    | Perform operation =>
      refine Bounded.of_small (Failing.All.map (Prog.All.mono
        (SqliteFileSystem.perform_calls operation) (fun o h => ?_)))
      obtain ⟨_, _, rfl⟩ := h
      trivial
    | Batch operations =>
      exact Bounded.of_small (Failing.All.map (Failing.All.bind (hcall trivial) (fun _ => trivial)))
    | Changes after page =>
      exact Bounded.of_small (Failing.All.map (Task.all_guarded (fun _ =>
        Failing.All.bind (p := Task.ofResult _) trivial
          (fun _ => Failing.All.bind (hcall trivial) (fun _ => trivial)))))
  · refine Bounded.of_small (Prog.All.mono (Authorized.serve rt request) (fun o h => ?_))
    cases o with
    | finalize ws' path g length params actor_json => exact fun hsame => absurd (h.1.symm.trans hsame) hws
    | _ => trivial

end requests

/-- In every run no node of a workspace is larger than the file size that the workspace allows. -/
theorem Reached.sized {rt : Runtime} {may : System → Nat → DbCall → Prop} {c : System}
    (h : Reached rt may c) :
    ∀ row ∈ c.state.db.workspaces, c.state.db.Sized row.id row.max_file_bytes := by
  intro row hrow
  have hall : Reached rt (fun _ _ _ => True) c :=
    Steps.mono h (fun _ hp => hp) (fun _ _ _ _ => trivial)
  refine @Steps.upheld _ _ _ _ _ _ (Limiting rt row.id row.max_file_bytes)
    (fun w => w.db.Sized row.id row.max_file_bytes) (fun _ _ => True) (fun _ => True) _ _
    (Steps.mono (Steps.between hall) (fun _ hp => hp) (fun e _ _ he => ?_)) ?_ ?_ ?_
  · exact ⟨⟨e, he.2.1, rfl⟩, fun row' hrow' hid =>
      (Reached.same_limits he.2.1 he.2.2 hrow' hrow hid).max_file_bytes.symm⟩
  · rintro p ⟨ctx, request, rfl⟩
    exact Prog.Upholds.mono (Request.bounded request) (fun _ _ => trivial)
  · exact fun p hp => absurd hp (List.not_mem_nil)
  · exact fun size hsize => by cases hsize

end fslite
