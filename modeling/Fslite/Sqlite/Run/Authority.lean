import Fslite.Sqlite.Run.Request

namespace fslite

open content mutate

namespace DbCall

/-- The calls of a request that reads a content in the workspace. -/
def Reads (ws : WorkspaceId) : DbCall → Prop
  | .resolve ws' _ => ws' = ws
  | .fetch_chunk_bytes _ _ => True
  | _ => False

/-- The calls that stage a content in the workspace, up to its finalization. -/
def Prepares (ws : WorkspaceId) : DbCall → Prop
  | .resolve ws' _ => ws' = ws
  | .fetch_max_file_bytes ws' => ws' = ws
  | .create_generation ws' => ws' = ws
  | .upsert_chunk _ _ _ => True
  | .copy_chunk_range _ _ _ _ => True
  | .fetch_chunk_bytes _ _ => True
  | .delete_generation _ => True
  | _ => False

/-- The calls of a request that stages a content in the workspace. -/
def Stages (ws : WorkspaceId) : DbCall → Prop
  | .resolve ws' _ => ws' = ws
  | .fetch_max_file_bytes ws' => ws' = ws
  | .create_generation ws' => ws' = ws
  | .upsert_chunk _ _ _ => True
  | .copy_chunk_range _ _ _ _ => True
  | .fetch_chunk_bytes _ _ => True
  | .delete_generation _ => True
  | .finalize ws' _ _ _ _ _ => ws' = ws
  | _ => False

variable {ws : WorkspaceId}

namespace Reads

theorem call {o : DbCall} (h : o.Reads ws) : Failing.All (Reads ws) (Task.call o) :=
  ⟨h, fun _ => trivial⟩

theorem expect {A : Type} (a : Option A) : Failing.All (Reads ws) (Task.expect a) := by
  cases a with
  | some a => exact Failing.All.pure (a := a)
  | none => exact Failing.All.throw

theorem drain (polls : Nat) (state : ChunkRangeState) : (state.drain polls).All (Reads ws) := by
  induction polls generalizing state with
  | zero => trivial
  | succ polls ih =>
    rw [drain_succ]
    split
    · trivial
    · exact ⟨trivial, fun _ => Prog.All.bind (ih _) (fun _ => trivial)⟩

theorem read (path : VirtualPath) (options : ReadOptions) :
    Failing.All (Reads ws) (content.read ws path options) := by
  unfold content.read
  refine Failing.All.bind (call rfl) (fun node => ?_)
  cases node with
  | none => exact Failing.All.throw
  | some node =>
    simp only
    split
    · exact Failing.All.throw
    · split
      · exact Failing.All.throw
      · split
        · exact Failing.All.throw
        · split
          · exact Failing.All.pure
          · exact Failing.All.bind (expect _) (fun _ => Failing.All.pure)

end Reads

namespace Prepares

theorem call {o : DbCall} (h : o.Prepares ws) : Failing.All (Prepares ws) (Task.call o) :=
  ⟨h, fun _ => trivial⟩

theorem call_ignored {o : DbCall} (h : o.Prepares ws) :
    Failing.All (Prepares ws) (Task.call_ignored o) := ⟨h, fun _ => trivial⟩

theorem ofResult {A : Type} (result : FsResult A) :
    Failing.All (Prepares ws) (Task.ofResult result) := trivial

theorem expect {A : Type} (a : Option A) : Failing.All (Prepares ws) (Task.expect a) := by
  cases a with
  | some a => exact Failing.All.pure (a := a)
  | none => exact Failing.All.throw

theorem write_rounds (rounds : Nat) (writer : ChunkWriter) (bytes : Bytes) :
    Failing.All (Prepares ws) (ChunkWriter.write_rounds rounds writer bytes) := by
  induction rounds generalizing writer bytes with
  | zero => exact Failing.All.pure
  | succ rounds ih =>
    unfold ChunkWriter.write_rounds
    split
    · exact Failing.All.pure
    · simp only
      split
      · exact Failing.All.throw
      · split
        · exact ih _ _
        · exact Failing.All.bind (Failing.All.bind (call trivial) (fun _ => Failing.All.pure))
            (fun _ => ih _ _)

theorem write_bytes (writer : ChunkWriter) (bytes : Bytes) :
    Failing.All (Prepares ws) (writer.write_bytes bytes) :=
  write_rounds _ _ _

theorem finish (writer : ChunkWriter) : Failing.All (Prepares ws) writer.finish := by
  unfold ChunkWriter.finish
  split
  · exact Failing.All.pure
  · exact Failing.All.bind (call trivial) (fun _ => Failing.All.pure)

theorem or_abort {writer : ChunkWriter} {step : Task ChunkWriter}
    (h : Failing.All (Prepares ws) step) :
    Failing.All (Prepares ws) (writer.or_abort step) :=
  Failing.All.tryCatch h (fun _ => Failing.All.bind (call_ignored trivial)
    (fun _ => Failing.All.throw))

theorem copy_prefix_from (writer : ChunkWriter) (old : GenerationId) (upto : Nat) :
    Failing.All (Prepares ws) (writer.copy_prefix_from old upto) := by
  unfold ChunkWriter.copy_prefix_from
  split
  · exact Failing.All.pure
  · simp only
    split
    · refine Failing.All.bind (call trivial)
        (fun _ => Failing.All.bind Failing.All.pure (fun _ => ?_))
      split
      · exact Failing.All.bind (call trivial) (fun _ => write_bytes _ _)
      · exact Failing.All.pure
    · refine Failing.All.bind Failing.All.pure (fun _ => ?_)
      split
      · exact Failing.All.bind (call trivial) (fun _ => write_bytes _ _)
      · exact Failing.All.pure

theorem copy_chunks (old : GenerationId) (from_ to_ : Nat) (indices : List Nat)
    (writer : ChunkWriter) :
    Failing.All (Prepares ws) (ChunkWriter.copy_chunks old from_ to_ indices writer) := by
  induction indices generalizing writer with
  | nil => exact Failing.All.pure
  | cons index rest ih =>
    exact Failing.All.bind (call trivial)
      (fun _ => Failing.All.bind (write_bytes _ _) (fun _ => ih _))

theorem copy_suffix_from (writer : ChunkWriter) (old : GenerationId) (from_ to_ : Nat) :
    Failing.All (Prepares ws) (writer.copy_suffix_from old from_ to_) := by
  unfold ChunkWriter.copy_suffix_from
  split
  · exact Failing.All.pure
  · exact copy_chunks _ _ _ _ _

theorem zero_rounds (rounds : Nat) (writer : ChunkWriter) (remaining : Nat) :
    Failing.All (Prepares ws) (ChunkWriter.zero_rounds rounds writer remaining) := by
  induction rounds generalizing writer remaining with
  | zero => exact Failing.All.pure
  | succ rounds ih =>
    unfold ChunkWriter.zero_rounds
    split
    · exact Failing.All.pure
    · exact Failing.All.bind (write_bytes _ _) (fun _ => ih _ _)

theorem ingest (source : WriteSource) (writer : ChunkWriter) :
    Failing.All (Prepares ws) (ChunkWriter.ingest source writer) := by
  induction source generalizing writer with
  | nil => exact Failing.All.pure
  | cons item rest ih =>
    cases item with
    | ok bytes => exact Failing.All.bind (or_abort (write_bytes _ _)) (fun _ => ih _)
    | error err => exact Failing.All.bind (call_ignored trivial) (fun _ => Failing.All.throw)

theorem max_file_bytes : Failing.All (Prepares ws) (content.max_file_bytes ws) := by
  refine Failing.All.bind (call rfl) (fun limit => ?_)
  cases limit with
  | some limit => exact Failing.All.pure
  | none => exact Failing.All.throw

theorem resolve_existing_file (path : VirtualPath) :
    Failing.All (Prepares ws) (content.resolve_existing_file ws path) := by
  refine Failing.All.bind (call rfl) (fun node => ?_)
  cases node with
  | none => exact Failing.All.pure
  | some node =>
    simp only
    split
    · exact Failing.All.pure
    · exact Failing.All.throw

theorem rewrite_source {writer : ChunkWriter} {old : Option GenerationId} {old_length : Nat}
    {source : WriteSource} {preserve_old_suffix : Bool} :
    Failing.All (Prepares ws) (do
      let writer ← ChunkWriter.ingest source writer
      let new_data_end := writer.total_len
      if preserve_old_suffix ∧ new_data_end < old_length then do
        let old ← Task.expect old
        writer.or_abort (writer.copy_suffix_from old new_data_end old_length)
      else pure writer) := by
  refine Failing.All.bind (ingest _ _) (fun _ => ?_)
  simp only
  split
  · exact Failing.All.bind (expect _) (fun _ => or_abort (copy_suffix_from _ _ _ _))
  · exact Failing.All.pure

theorem rewrite (writer : ChunkWriter) (old : Option GenerationId) (old_length offset : Nat)
    (source : WriteSource) (preserve_old_suffix : Bool) :
    Failing.All (Prepares ws)
      (content.rewrite writer old old_length offset source preserve_old_suffix) := by
  unfold content.rewrite
  cases old with
  | none =>
    refine Failing.All.bind Failing.All.pure (fun _ => ?_)
    split
    · exact Failing.All.bind (or_abort (zero_rounds _ _ _)) (fun _ => rewrite_source)
    · exact rewrite_source
  | some old =>
    refine Failing.All.bind (or_abort (copy_prefix_from _ _ _)) (fun _ => ?_)
    split
    · exact Failing.All.bind (or_abort (zero_rounds _ _ _)) (fun _ => rewrite_source)
    · exact rewrite_source

section finalization

variable {φ : DbCall → Prop} {path : VirtualPath} {source : WriteSource} {actor_json : Text}

theorem finalize (hprepares : ∀ o, Prepares ws o → φ o) {g : GenerationId} {length : Nat}
    {params : FinalizeParams} (hfinalize : φ (.finalize ws path g length params actor_json)) :
    Failing.All φ (content.finalize ws path g length params actor_json) := by
  have hdelete : Failing.All φ (content.delete_generation_async g) :=
    Prog.All.mono (call_ignored trivial) hprepares
  refine Failing.All.bind (Failing.All.tryCatch ⟨hfinalize, fun _ => trivial⟩ (fun _ =>
    Failing.All.bind hdelete (fun _ => Failing.All.throw))) (fun outcome => ?_)
  cases outcome with
  | Applied row => exact Prog.All.mono (ofResult _) hprepares
  | _ => exact Failing.All.bind hdelete (fun _ => Failing.All.throw)

/-- The calls of a `write` are preparations and the finalization that it has been asked for. -/
theorem write (hprepares : ∀ o, Prepares ws o → φ o) {options : WriteOptions}
    (hfinalize : ∀ g length, φ
    (.finalize ws path g length ⟨options.create, options.expected_revision⟩ actor_json)) :
    Failing.All φ (content.write ws path source options actor_json) := by
  refine Failing.All.bind (Prog.All.mono max_file_bytes hprepares) (fun _ =>
    Failing.All.bind ⟨hprepares _ rfl, fun _ => trivial⟩ (fun _ => ?_))
  exact Failing.All.bind (Prog.All.mono
    (Failing.All.bind (ingest _ _) (fun _ => finish _)) hprepares)
    (fun _ => finalize hprepares (hfinalize _ _))

/-- So are those of `write_at`, `append` and `truncate`. -/
theorem write_at_impl (hprepares : ∀ o, Prepares ws o → φ o) {offset : Nat}
    {create preserve_old_suffix : Bool} {expected_revision : Option Revision}
    (hfinalize : ∀ g length, φ
    (.finalize ws path g length ⟨create, expected_revision⟩ actor_json)) :
    Failing.All φ (content.write_at_impl ws path offset source create expected_revision actor_json
      preserve_old_suffix) := by
  refine Failing.All.bind (Prog.All.mono (resolve_existing_file _) hprepares) (fun existing => ?_)
  split
  · exact Failing.All.throw
  · refine Failing.All.bind (Prog.All.mono max_file_bytes hprepares) (fun _ =>
      Failing.All.bind ⟨hprepares _ rfl, fun _ => trivial⟩ (fun _ => ?_))
    exact Failing.All.bind (Prog.All.mono (rewrite _ _ _ _ _ _) hprepares) (fun _ =>
      Failing.All.bind (Prog.All.mono (finish _) hprepares)
        (fun _ => finalize hprepares (hfinalize _ _)))

end finalization

end Prepares

theorem Prepares.stages {o : DbCall} (h : o.Prepares ws) : o.Stages ws := by
  cases o with
  | finalize => exact h.elim
  | _ => exact h

namespace Stages

theorem write {path : VirtualPath} {source : WriteSource} {options : WriteOptions}
    {actor_json : Text} :
    Failing.All (Stages ws) (content.write ws path source options actor_json) :=
  Prepares.write (fun _ h => h.stages) (fun _ _ => rfl)

theorem resolve_existing_file (path : VirtualPath) :
    Failing.All (Stages ws) (content.resolve_existing_file ws path) :=
  Prog.All.mono (Prepares.resolve_existing_file path) (fun _ h => h.stages)

theorem write_at_impl {path : VirtualPath} {offset : Nat} {source : WriteSource}
    {create preserve_old_suffix : Bool} {expected_revision : Option Revision} {actor_json : Text} :
    Failing.All (Stages ws) (content.write_at_impl ws path offset source create expected_revision actor_json
      preserve_old_suffix) :=
  Prepares.write_at_impl (fun _ h => h.stages) (fun _ _ => rfl)

end Stages

end DbCall

/-- The check of a capability makes no call. -/
theorem Task.all_guarded {ctx : RequestContext} {capability : Capability} {subject : Text}
    {A : Type} {φ : DbCall → Prop} {p : Task A}
    (h : ctx.has_capability capability = true → Failing.All φ p) :
    Failing.All φ (do require_capability ctx capability subject; p) := by
  unfold require_capability
  split
  · rename_i hhas
    exact Failing.All.bind Failing.All.pure (fun _ => h hhas)
  · trivial

/-- A method that performs one operation makes one call, if its caller has the capability. -/
theorem SqliteFileSystem.perform_calls {rt : Runtime} {ctx : RequestContext}
    (operation : BatchOperation) :
    Failing.All (fun o => ctx.has_capability (required_capability operation) = true ∧
      ∃ actor_json, o = .transaction ctx.workspace_id operation actor_json)
      (SqliteFileSystem.perform rt ctx operation) := by
  have hcall : ∀ {B : Type} {subject actor_json : Text} {result : Outcome operation → FsResult B},
      Failing.All (fun o => ctx.has_capability (required_capability operation) = true ∧
        ∃ actor_json, o = .transaction ctx.workspace_id operation actor_json) (do
      require_capability ctx (required_capability operation) subject
      let outcome ← Task.call (.transaction ctx.workspace_id operation actor_json)
      Task.ofResult (result outcome)) :=
    Task.all_guarded (fun h => Failing.All.bind ⟨⟨h, _, rfl⟩, fun _ => trivial⟩ (fun _ => trivial))
  cases operation with
  | Mkdir path options =>
    refine Failing.All.map (Task.all_guarded (fun h => ?_))
    split
    · exact Failing.All.throw
    · exact Failing.All.bind ⟨⟨h, _, rfl⟩, fun _ => trivial⟩ (fun _ => trivial)
  | Symlink target link options =>
    refine Failing.All.map (Task.all_guarded (fun h => ?_))
    split
    · exact Failing.All.throw
    · exact Failing.All.bind ⟨⟨h, _, rfl⟩, fun _ => trivial⟩ (fun _ => trivial)
  | _ => exact Failing.All.map hcall

/-- What a context lets its requests ask of the connection: calls on its own
workspace, and operations that it has the capability for. -/
def RequestContext.Authorizes (ctx : RequestContext) : DbCall → Prop
  | .resolve ws _ => ws = ctx.workspace_id
  | .resolve_following ws _ _ => ws = ctx.workspace_id
  | .fetch_max_file_bytes ws => ws = ctx.workspace_id
  | .fetch_usage ws => ws = ctx.workspace_id
  | .fetch_changes_page ws _ _ => ws = ctx.workspace_id
  | .create_generation ws => ws = ctx.workspace_id
  | .finalize ws _ _ _ _ _ => ws = ctx.workspace_id ∧ ctx.has_capability .Write = true
  | .transaction ws operation _ => ws = ctx.workspace_id ∧
    ctx.has_capability (required_capability operation) = true
  | .batch ctx' _ _ => ctx' = ctx
  | _ => True

/-- Every call of a task is one that the context authorizes. -/
abbrev Authorized (ctx : RequestContext) {A : Type} (p : Task A) : Prop :=
  Failing.All ctx.Authorizes p

namespace Authorized

variable {ctx : RequestContext} {A B : Type}

theorem call {o : DbCall} (h : ctx.Authorizes o) : Authorized ctx (Task.call o) :=
  ⟨h, fun _ => trivial⟩

theorem ofResult (result : FsResult A) : Authorized ctx (Task.ofResult result) := trivial

/-- Reading is allowed to everyone, on the context's own workspace. -/
theorem of_reads {p : Prog DbCall.Res A} (h : p.All (DbCall.Reads ctx.workspace_id)) :
    p.All ctx.Authorizes := by
  refine Prog.All.mono h (fun o hreads => ?_)
  cases o with
  | resolve ws path => exact hreads
  | fetch_chunk_bytes => trivial
  | _ => exact hreads.elim

/-- Staging is allowed to who may write, on the context's own workspace. -/
theorem of_stages {p : Prog DbCall.Res A} (h : p.All (DbCall.Stages ctx.workspace_id))
    (hwrite : ctx.has_capability .Write = true) : p.All ctx.Authorizes := by
  refine Prog.All.mono h (fun o hstages => ?_)
  cases o with
  | resolve ws path => exact hstages
  | fetch_max_file_bytes ws => exact hstages
  | create_generation ws => exact hstages
  | finalize ws path g length params actor_json => exact ⟨hstages, hwrite⟩
  | upsert_chunk | copy_chunk_range | fetch_chunk_bytes | delete_generation => trivial
  | _ => exact hstages.elim

theorem perform {rt : Runtime} (operation : BatchOperation) :
    Authorized ctx (SqliteFileSystem.perform rt ctx operation) := by
  refine Prog.All.mono (SqliteFileSystem.perform_calls operation) (fun o h => ?_)
  obtain ⟨hcapability, _, rfl⟩ := h
  exact ⟨rfl, hcapability⟩

theorem changes (rt : Runtime) (after : Option ChangeCursor) (page : PageRequest) :
    Authorized ctx (change.changes rt ctx.workspace_id after page) :=
  Failing.All.bind (ofResult _) (fun _ => Failing.All.bind (call rfl) (fun _ => ofResult _))

/-- The calls of a request are authorized by its context. -/
theorem serve (rt : Runtime) (request : Request) : Authorized ctx (request.serve rt ctx) := by
  cases request with
  | CreateWorkspace options => exact Failing.All.map (call trivial)
  | DeleteWorkspace ws => exact Failing.All.map (call trivial)
  | ResetWorkspace ws =>
    refine Failing.All.map (Failing.All.bind (call trivial) (fun found => ?_))
    split
    · exact Failing.All.pure
    · exact Failing.All.throw
  | WorkspaceUsage =>
    refine Failing.All.map (Task.all_guarded (fun _ => Failing.All.bind (call rfl) (fun raw => ?_)))
    cases raw with
    | some raw => exact Failing.All.pure
    | none => exact Failing.All.throw
  | Stat path follow_symlinks =>
    refine Failing.All.map (Task.all_guarded
      (fun _ => Failing.All.bind (call rfl) (fun outcome => ?_)))
    cases outcome with
    | Found row => exact ofResult _
    | _ => exact Failing.All.throw
  | Read path options =>
    refine Failing.All.bind (Task.all_guarded (fun _ => of_reads (DbCall.Reads.read path options)))
      (fun file => Failing.All.bind ?_ (fun _ => Failing.All.pure))
    refine Failing.All.lift ?_
    unfold FileRead.into_stream
    split
    · trivial
    · exact of_reads (DbCall.Reads.drain _ _)
  | Write path source options => exact Failing.All.map (Task.all_guarded (of_stages DbCall.Stages.write))
  | WriteAt path offset source options =>
    exact Failing.All.map (Task.all_guarded (of_stages DbCall.Stages.write_at_impl))
  | Append path source options =>
    refine Failing.All.map (Task.all_guarded (of_stages ?_))
    exact Failing.All.bind (DbCall.Stages.resolve_existing_file _) (fun _ => DbCall.Stages.write_at_impl)
  | Truncate path length options => exact Failing.All.map (Task.all_guarded (of_stages DbCall.Stages.write_at_impl))
  | Perform operation => exact Failing.All.map (perform operation)
  | Batch operations => exact Failing.All.map (Failing.All.bind (call rfl) (fun _ => ofResult _))
  | Changes after page => exact Failing.All.map (Task.all_guarded (fun _ => changes rt after page))

end Authorized

end fslite
