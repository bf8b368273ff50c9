import Fslite.Sqlite.Run.Request

namespace fslite

open resolve directory content mutate trash

/-- What a method makes of the step of a batch that it performs on its own: it
commits what the step has written, also when the step fails. -/
def settle (rt : Runtime) (w : World) :
    Except Fault (BatchStepOutcome × World) → FsResult BatchResult × World
  | .ok (.Result result, w') => (.ok result, w')
  | .ok (.Failed err, w') => (.error err, w')
  | .error fault => (.error (DbCall.map_call_error rt fault), w)

/-- What the refusal of an operation on its own names. -/
def BatchOperation.subject (ctx : RequestContext) : BatchOperation → Text
  | .Mkdir path _ => path.as_str
  | .Touch path _ => path.as_str
  | .Copy _ target _ => target.as_str
  | .Move _ target _ => target.as_str
  | .Remove path _ => path.as_str
  | .Symlink _ link _ => link.as_str
  | .Trash path _ => path.as_str
  | .Restore .. => uuid_text ctx.workspace_id
  | .Purge _ => uuid_text ctx.workspace_id
  | .SetAttribute path _ _ _ => path.as_str
  | .RemoveAttribute path _ _ => path.as_str

section perform

variable {rt : Runtime} {ctx : RequestContext} {w w' : World} {A : Type}

theorem settle_to_step (result : FsResult A) (wrap : A → BatchResult) :
    settle rt w (.ok (to_step result wrap, w')) = (result.map wrap, w') := by
  cases result <;> rfl

theorem exec_transaction (ws : WorkspaceId) (operation : BatchOperation) (actor_json : Text)
    (w : World) :
    (DbCall.transaction ws operation actor_json).exec rt w =
    match transact rt ws actor_json operation w with
      | .ok (outcome, w') => (.ok outcome, w')
      | .error fault => (.error (DbCall.map_call_error rt fault), w) := by
  unfold DbCall.exec DbCall.body
  simp only
  cases transact rt ws actor_json operation w <;> rfl

/-- One transaction on its own, and the step of a batch with the same outcome. -/
theorem run_transaction {operation : BatchOperation} {result : Outcome operation → FsResult A}
    {wrap : A → BatchResult} :
    (wrap <$> (Task.call (.transaction ctx.workspace_id operation (actor_json rt ctx)) >>=
    fun outcome =>
      Task.ofResult (result outcome)) : Task BatchResult).run.run (DbCall.exec rt) w =
    settle rt w ((transact rt ctx.workspace_id (actor_json rt ctx) operation >>= fun outcome =>
      pure (to_step (result outcome) wrap)) w) := by
  rw [Task.run_call_ofResult, exec_transaction]
  cases h : transact rt ctx.workspace_id (actor_json rt ctx) operation w with
  | error fault =>
    rw [Tx.bind_of_error h]
    rfl
  | ok r =>
    obtain ⟨outcome, w'⟩ := r
    rw [Tx.bind_of_ok h]
    exact (settle_to_step (result outcome) wrap).symm

/-- The capability check of a method and what comes after it. -/
theorem run_guarded {capability : Capability} {subject : Text} {p : Task A}
    {wrap : A → BatchResult} :
    (wrap <$> (require_capability ctx capability subject >>= fun _ => p) : Task BatchResult).run.run
    (DbCall.exec rt) w =
      if ctx.has_capability capability then (wrap <$> p).run.run (DbCall.exec rt) w
      else (.error (FsError.permission_denied subject), w) := by
  unfold require_capability
  split <;> rfl

/-- A method that performs one operation on its own does what the step of a
batch does, with the capability that the batch requires for it. -/
theorem perform_run (operation : BatchOperation) :
    (SqliteFileSystem.perform rt ctx operation).run.run (DbCall.exec rt) w =
      if ctx.has_capability (required_capability operation) then
        settle rt w (execute_batch_operation rt ctx.workspace_id operation (actor_json rt ctx) w)
      else (.error (FsError.permission_denied (operation.subject ctx)), w) := by
  cases operation with
  | Mkdir path options =>
    refine run_guarded.trans ?_
    congr 1
    simp only [execute_batch_operation]
    split
    · rfl
    · exact run_transaction
  | Symlink target link options =>
    refine run_guarded.trans ?_
    congr 1
    simp only [execute_batch_operation]
    split
    · rfl
    · exact run_transaction
  | _ =>
    refine run_guarded.trans ?_
    congr 1
    exact run_transaction

end perform

/-- The operations performed one after another, each on its own: their results
and the store after the last, or the number of the first that fails and its
error. -/
def SqliteFileSystem.perform_in_turn (rt : Runtime) (ctx : RequestContext) :
    List BatchOperation → World → Except (Nat × FsError) (List BatchResult × World)
  | [], w => .ok ([], w)
  | operation :: rest, w =>
    match (perform rt ctx operation).run.run (DbCall.exec rt) w with
    | (.ok result, w') =>
      match perform_in_turn rt ctx rest w' with
      | .ok (results, w'') => .ok (result :: results, w'')
      | .error (index, err) => .error (index + 1, err)
    | (.error err, _) => .error (0, err)

section batch

variable {rt : Runtime} {ctx : RequestContext}

/-- What the loop of `batch` makes of operations that are performed in turn: an
error of its own is that of the same operation, and a fault is the fault of the
same operation. -/
def BatchAgrees (rt : Runtime) (index : Nat) (results : List BatchResult) :
    Except (Nat × FsError) (List BatchResult × World) → Except Fault (BatchOutcome × World) → Prop
  | .ok (more, w'), outcome => outcome = .ok (.Completed (results ++ more), w')
  | .error (i, err), .ok (outcome, _) => ∃ err', outcome = .Failed (index + i) err' ∧
    err'.code = err.code
  | .error (_, err), .error fault => err = DbCall.map_call_error rt fault

/-- The loop of `batch` does what the operations do one after another. -/
theorem batch_loop_agrees (operations : List BatchOperation) (index : Nat)
    (results : List BatchResult) (w : World) :
    BatchAgrees rt index results (SqliteFileSystem.perform_in_turn rt ctx operations w)
      (batch_loop rt ctx (actor_json rt ctx) index results operations w) := by
  induction operations generalizing index results w with
  | nil => exact congrArg (fun r => Except.ok (BatchOutcome.Completed r, w)) (List.append_nil results).symm
  | cons operation rest ih =>
    rw [SqliteFileSystem.perform_in_turn, perform_run, batch_loop]
    by_cases hcapability : ctx.has_capability (required_capability operation) = true
    · simp only [hcapability, if_true, Bool.not_true, Bool.false_eq_true, if_false]
      cases hstep : execute_batch_operation rt ctx.workspace_id operation (actor_json rt ctx) w with
      | error fault =>
        rw [Tx.bind_of_error hstep]
        rfl
      | ok r =>
        obtain ⟨outcome, w'⟩ := r
        rw [Tx.bind_of_ok hstep]
        cases outcome with
        | Failed err => exact ⟨err, rfl, rfl⟩
        | Result result =>
          have hrest := ih (index + 1) (results ++ [result]) w'
          simp only [settle]
          cases hturn : SqliteFileSystem.perform_in_turn rt ctx rest w' with
          | ok r =>
            obtain ⟨more, w''⟩ := r
            rw [hturn] at hrest
            exact hrest.trans (by rw [List.append_assoc, List.singleton_append])
          | error r =>
            obtain ⟨i, err⟩ := r
            rw [hturn] at hrest
            cases hloop : batch_loop rt ctx (actor_json rt ctx) (index + 1) (results ++
              [result]) rest w' with
            | error fault =>
              rw [hloop] at hrest
              exact hrest
            | ok r =>
              obtain ⟨outcome, w''⟩ := r
              rw [hloop] at hrest
              obtain ⟨err', rfl, hcode⟩ := hrest
              exact ⟨err', by rw [Nat.add_assoc, Nat.add_comm 1], hcode⟩
    · simp only [hcapability, Bool.not_false, if_true]
      exact ⟨_, rfl, rfl⟩

theorem batch_run (operations : List BatchOperation) (w : World) :
    (SqliteFileSystem.batch rt ctx operations).run.run (DbCall.exec rt) w =
      match batch_loop rt ctx (actor_json rt ctx) 0 [] operations w with
      | .ok (.Completed results, w') => (.ok results, w')
      | .ok (.Failed index err, _) => (.error (FsError.new err.code err.message (.index index)), w)
      | .error fault => (.error (DbCall.map_call_error rt fault), w) := by
  show Prog.run (DbCall.exec rt) (Prog.call (DbCall.batch ctx operations (actor_json rt ctx)) _) w =
    _
  rw [Prog.run_call]
  unfold DbCall.exec DbCall.body batch_tx
  simp only
  cases batch_loop rt ctx (actor_json rt ctx) 0 [] operations w with
  | error fault => rfl
  | ok r =>
    obtain ⟨outcome, w'⟩ := r
    cases outcome <;> rfl

/-- A batch does what its operations do one after another; if one of them fails,
it fails with the same code, leaves the store as it was and names the number of
the operation, unless a fault of the storage has ended it. -/
theorem SqliteFileSystem.batch_in_turn (rt : Runtime) (ctx : RequestContext)
    (operations : List BatchOperation) (w : World) :
    match perform_in_turn rt ctx operations w with
    | .ok (results, w') => (batch rt ctx operations).run.run (DbCall.exec rt) w = (.ok results, w')
    | .error (index, err) => ∃ err', (batch rt ctx operations).run.run
      (DbCall.exec rt) w = (.error err', w) ∧
      err'.code = err.code ∧ (err'.details = .index index ∨ err' = err ∧
        err.code = .InternalStorageFailure) := by
  have hagrees := @batch_loop_agrees rt ctx operations 0 [] w
  rw [batch_run]
  cases hturn : perform_in_turn rt ctx operations w with
  | ok r =>
    obtain ⟨results, w'⟩ := r
    rw [hturn] at hagrees
    simp only [show batch_loop rt ctx (actor_json rt ctx) 0 [] operations w = _ from hagrees,
      List.nil_append]
  | error r =>
    obtain ⟨index, err⟩ := r
    rw [hturn] at hagrees
    cases hloop : batch_loop rt ctx (actor_json rt ctx) 0 [] operations w with
    | error fault =>
      rw [hloop] at hagrees
      obtain rfl : err = DbCall.map_call_error rt fault := hagrees
      exact ⟨_, rfl, rfl, Or.inr ⟨rfl, rfl⟩⟩
    | ok r =>
      obtain ⟨outcome, w'⟩ := r
      rw [hloop] at hagrees
      obtain ⟨err', rfl, hcode⟩ := hagrees
      exact ⟨_, rfl, hcode, Or.inl (by rw [Nat.zero_add]; rfl)⟩

/-- A store with a file `/a/b`. -/
def nestedFileWorld : World := serveAll Runtime.counting [(.trusted 0, .CreateWorkspace {}),
  (.trusted 0, .Perform (.Mkdir (.named [['a']]) {})),
  (.trusted 0, .Perform (.Touch (.named [['a'], ['b']]) { create := true }))]
    ⟨Db.empty, 0⟩

end batch

end fslite
