import Fslite.Sqlite.Run.Usage

namespace fslite

open workspace

/-- A generation that is not complete has no length yet. -/
def Unmeasured (db : Db) : Prop :=
  ∀ row ∈ db.content_generations, row.complete = false → row.length = 0

theorem Unmeasured.empty : Unmeasured Db.empty := fun _ hrow => by cases hrow

/-- Fewer generations stay unmeasured. -/
theorem Unmeasured.anti {db db' : Db} (h : Unmeasured db)
    (hsub : ∀ row ∈ db'.content_generations, row ∈ db.content_generations) : Unmeasured db' :=
  fun row hrow hopen => h row (hsub row hrow) hopen

/-- No change gives a length to a generation without completing it. -/
theorem Edit.unmeasured {P : Policy} {fresh : Uuid → Prop} {mine : GenerationId → Prop}
    {db db' : Db} (h : Edit P fresh mine db db') (hunmeasured : Unmeasured db) :
    Unmeasured db' := by
  cases h with
  | generation row hf hopen hins hempty =>
    intro other hother hopen'
    obtain hold | rfl := (Table.mem_insert hins).mp hother
    · exact hunmeasured other hold hopen'
    · exact hempty
  | complete g hmine hunref length =>
    intro other hother hopen
    obtain ⟨old, hold, hchanged⟩ := Table.mem_modify.mp hother
    by_cases hid : old.id = g
    · rw [if_pos hid] at hchanged
      rw [← hchanged] at hopen
      cases hopen
    · rw [if_neg hid] at hchanged
      exact hchanged ▸ hunmeasured old hold (hchanged ▸ hopen)
  | drop g => exact hunmeasured.anti (fun row hrow => (Table.mem_deleteWhere.mp hrow).1)
  | replace n hlive g hmine length hready old hold now =>
    exact hunmeasured.anti (fun row hrow => (Table.mem_deleteWhere.mp hrow).1)
  | purge n => exact hunmeasured.anti (fun row hrow => (Table.mem_deleteWhere.mp hrow).1)
  | reset ws => exact hunmeasured.anti (fun row hrow => (Table.mem_deleteWhere.mp hrow).1)
  | erase ws => exact hunmeasured.anti (fun row hrow => (Table.mem_deleteWhere.mp hrow).1)
  | _ => exact hunmeasured.anti (fun row hrow => hrow)

/-- The chunk belongs to an unfinished write to the workspace. -/
def Db.unfinished (db : Db) (ws : WorkspaceId) (chunk : ChunkRow) : Bool :=
  (db.generation? chunk.generation_id).any (fun row => row.workspace_id = ws ∧ row.complete = false)

/-- The bytes that the unfinished writes to the workspace have stored. -/
def Db.staged (db : Db) (ws : WorkspaceId) : Nat :=
  ((db.content_chunks.rows.filter (db.unfinished ws)).map (fun chunk => chunk.bytes.length)).sum

theorem Db.staged_eq_zero {db : Db} {ws : WorkspaceId} :
    db.staged ws = 0 ↔ ∀ chunk ∈ db.content_chunks, db.unfinished ws chunk = true →
      chunk.bytes = [] := by
  rw [Db.staged, List.sum_eq_zero_iff_forall_eq_nat, List.forall_mem_map]
  simp only [List.mem_filter, and_imp, List.length_eq_zero_iff, Table.mem_def]

/-- The lengths of the unfinished generations add up to nothing. -/
theorem Unmeasured.staged_zero {db : Db} (h : Unmeasured db) {ws : WorkspaceId} {raw : RawUsage}
    (hraw : fetch_usage db ws = some raw) : raw.staged_bytes = 0 := by
  unfold fetch_usage at hraw
  split at hraw
  · cases hraw
  · cases hraw
    refine List.sum_eq_zero_iff_forall_eq_nat.mpr (fun length hlength => ?_)
    obtain ⟨row, hrow, rfl⟩ := List.mem_map.mp hlength
    have hopen := (List.mem_filter.mp hrow).2
    simp only [decide_eq_true_eq] at hopen
    exact h row (List.mem_filter.mp hrow).1 hopen.2

/-- At any time of any run the usage reports no staged bytes, which is right
exactly if no unfinished write to the workspace has stored a byte. -/
theorem Reached.staged_bytes {rt : Runtime} {c : System} (h : Reached rt (fun _ _ _ => True) c)
    (ctx : RequestContext) (hread : ctx.has_capability .Read = true) (row : WorkspaceRow)
    (hrow : c.state.db.workspace? ctx.workspace_id = some row) :
    ∃ usage, ((SqliteFileSystem.workspace_usage ctx).run.run (DbCall.exec rt) c.state).1 =
      .ok usage ∧
      usage.staged_bytes = 0 ∧
      (usage.staged_bytes = c.state.db.staged ctx.workspace_id ↔
      ∀ chunk ∈ c.state.db.content_chunks,
        c.state.db.unfinished ctx.workspace_id chunk = true → chunk.bytes = []) := by
  have hreached : Reached rt (fun c _ o => Policy.any.Allows rt c.state o) c :=
    h.mono (fun _ hp => hp) (fun c _ o _ => Policy.allows_any rt c.state o)
  have hunmeasured : Unmeasured c.state.db :=
    hreached.invariant Unmeasured.empty (fun hedit _ => hedit.unmeasured)
  obtain ⟨raw, hraw⟩ := fetch_usage_stored hrow
  have hzero : (raw.into_usage ctx.workspace_id).staged_bytes = 0 := hunmeasured.staged_zero hraw
  refine ⟨_, workspace_usage_run hread hraw, hzero, ?_⟩
  rw [hzero, ← Db.staged_eq_zero]
  exact eq_comm

/-- A new workspace and a write of three bytes to it. -/
def stagedRequests : List (RequestContext × Request) :=
  [(.trusted 0, .CreateWorkspace {}),
    (.trusted 0, .Write (.named [['f']]) [.ok [1, 2, 3]] {})]

/-- When the write has finished there is nothing left to report. -/
theorem finished_staged_bytes : ∃ usage, ((SqliteFileSystem.workspace_usage (.trusted 0)).run.run
      (DbCall.exec Runtime.counting)
      (System.scheduled Runtime.counting stagedRequests [0, 1, 1, 1, 1]).state).1 = .ok usage ∧
    usage.staged_bytes = 0 ∧
    (usage.staged_bytes = (System.scheduled Runtime.counting stagedRequests [0, 1, 1, 1,
    1]).state.db.staged 0 ↔
      ∀ chunk ∈ (System.scheduled Runtime.counting stagedRequests [0, 1, 1, 1,
        1]).state.db.content_chunks,
        (System.scheduled Runtime.counting stagedRequests [0, 1, 1, 1,
        1]).state.db.unfinished 0 chunk = true →
          chunk.bytes = []) := by
  obtain ⟨row, hrow⟩ := Option.isSome_iff_exists.mp (show ((System.scheduled Runtime.counting stagedRequests
    [0, 1, 1, 1, 1]).state.db.workspace? 0).isSome = true by decide +kernel)
  exact (Reached.scheduled Runtime.counting stagedRequests [0, 1, 1, 1, 1]).staged_bytes
    (.trusted 0) rfl row hrow

/-- When the three bytes are stored but not yet the file's content, the usage
does not report them. -/
theorem staged_not_reported : ∃ c usage, Reached Runtime.counting (fun _ _ _ => True) c ∧
    ((SqliteFileSystem.workspace_usage (.trusted 0)).run.run
    (DbCall.exec Runtime.counting) c.state).1 = .ok usage ∧
    c.state.db.staged 0 = 3 ∧ usage.staged_bytes ≠ c.state.db.staged 0 := by
  have hstaged : (System.scheduled Runtime.counting stagedRequests [0, 1, 1, 1]).state.db.staged 0 =
    3 := by decide +kernel
  have hraw : ∃ raw, fetch_usage
    (System.scheduled Runtime.counting stagedRequests [0, 1, 1, 1]).state.db 0 = some raw ∧
      raw.staged_bytes = 0 := by
    refine ⟨_, rfl, ?_⟩
    decide +kernel
  obtain ⟨raw, hraw, hzero⟩ := hraw
  refine ⟨_, _, Reached.scheduled Runtime.counting stagedRequests [0, 1, 1, 1],
    workspace_usage_run (by rfl) hraw, hstaged, ?_⟩
  rw [hstaged]
  show raw.staged_bytes ≠ 3
  omega

end fslite
