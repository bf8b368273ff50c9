import Mathlib.Data.Option.Basic
import Mathlib.Data.List.Basic

namespace fslite.showcase

def DEFAULT_RESET_INTERVAL_MS : Int := 900000

def DEFAULT_RETRY_AFTER_MS : Int := 1000

structure WorkspaceResettingError where
  retryAfterMs : Int := DEFAULT_RETRY_AFTER_MS

/-- A small reader/writer gate for the one shared showcase workspace. A reset is named by its
number, which stands for its promise and for its waiter; a timer by its handle. -/
structure ResetCoordinator where
  activeOperations : Nat := 0
  resetting : Bool := false
  generation : Nat := 0
  nextResetAt : Option Int := none
  zeroWaiters : List Nat := []
  resetPromise : Option Nat := none
  timer : Option Nat := none
  started : Bool := false
  disposed : Bool := false
  resetIntervalMs : Int := DEFAULT_RESET_INTERVAL_MS
  retryAfterMs : Int := DEFAULT_RETRY_AFTER_MS

/-- Where an admitted operation is. -/
inductive Operation where
  | running
  -- `operation()` settled, and the `finally` block of `withOperation` has not run yet.
  | settled (ok : Bool)
  | left
  deriving DecidableEq

def Operation.active : Operation → Bool
  | .left => false
  | _ => true

/-- Where a run of `performReset` is, and the promise that `resetNow` makes of it. -/
inductive Phase where
  | waiting
  | released
  | resettingWorkspace
  | workspaceReset (ok : Bool)
  | seeding
  | seeded (ok : Bool)
  -- `performReset` settled, and the `finally` callback of `resetNow` has not run yet.
  | performed (ok : Bool)
  | settled (ok : Bool)
  deriving DecidableEq

namespace Phase

def pending : Phase → Bool
  | .settled _ => false
  | _ => true

/-- What the promise of the reset comes to, once that is decided. -/
def outcome : Phase → Option Bool
  | .workspaceReset false => some false
  | .seeded ok => some ok
  | .performed ok => some ok
  | .settled ok => some ok
  | _ => none

/-- `resolve` of a zero waiter. -/
def release : Phase → Phase
  | .waiting => .released
  | phase => phase

/-- What `performReset` goes on to when the promise that it awaits has settled. -/
def resume : Phase → Option Phase
  | .released => some .resettingWorkspace
  | .workspaceReset true => some .seeding
  | .workspaceReset false => some (.performed false)
  | .seeded ok => some (.performed ok)
  | _ => none

end Phase

/-- Who awaits the promise of a reset. -/
inductive Awaiter where
  | caller
  | start
  | runScheduledReset
  deriving DecidableEq

structure Reset where
  phase : Phase
  awaiters : List Awaiter

structure Timer where
  handle : Nat
  delayMs : Int

/-- The coordinator with what is in flight around it: a continuation that is queued may run after
any other one, so that every order of microtasks is a run. -/
structure ResetRuntime where
  coordinator : ResetCoordinator
  operations : List Operation := []
  resets : List Reset := []
  timers : List Timer := []
  timersSet : Nat := 0

inductive Event where
  | withOperation
  | operationSettles (operation : Nat) (ok : Bool)
  | operationFinally (operation : Nat)
  | resetNow
  | start
  | dispose
  | timerFires (handle : Nat)
  | resetContinues (id : Nat) (now : Int)
  | workspaceSettles (id : Nat) (ok : Bool)
  | seedSettles (id : Nat) (ok : Bool)
  | resetFinally (id : Nat)
  | awaiterContinues (id : Nat) (awaiter : Awaiter)
  deriving DecidableEq

namespace ResetCoordinator

variable (coordinator : ResetCoordinator)

def withOperation : Except WorkspaceResettingError ResetCoordinator :=
  if coordinator.resetting then .error ⟨coordinator.retryAfterMs⟩
  else .ok { coordinator with activeOperations := coordinator.activeOperations + 1 }

def waitForZeroOperations (id : Nat) : Phase × ResetCoordinator :=
  if coordinator.activeOperations = 0 then (.released, coordinator)
  else (.waiting, { coordinator with zeroWaiters := coordinator.zeroWaiters ++ [id] })

/-- The end of `performReset`. -/
def countReset (now : Int) : ResetCoordinator :=
  { coordinator with
    generation := coordinator.generation + 1
    nextResetAt := some (now + coordinator.resetIntervalMs) }

end ResetCoordinator

namespace ResetRuntime

variable (runtime : ResetRuntime)

def phase? (id : Nat) : Option Phase := runtime.resets[id]?.map Reset.phase

def setPhase (id : Nat) (phase : Phase) : ResetRuntime :=
  { runtime with resets := runtime.resets.modify id (fun reset => { reset with phase }) }

def setAwaiters (id : Nat) (f : List Awaiter → List Awaiter) : ResetRuntime :=
  { runtime with resets := runtime.resets.modify id (fun reset => { reset with awaiters := f reset.awaiters }) }

def withOperation : ResetRuntime :=
  match runtime.coordinator.withOperation with
  | .error _ => runtime
  | .ok coordinator => { runtime with coordinator, operations := runtime.operations ++ [.running] }

def releaseZeroWaiters : ResetRuntime :=
  { runtime with
    coordinator := { runtime.coordinator with zeroWaiters := [] }
    resets := runtime.coordinator.zeroWaiters.foldl
      (fun resets id => resets.modify id
        (fun reset => { reset with phase := reset.phase.release })) runtime.resets }

/-- The `finally` block of `withOperation`. -/
def leaveOperation (operation : Nat) : ResetRuntime :=
  let activeOperations := runtime.coordinator.activeOperations - 1
  let runtime := { runtime with
    coordinator := { runtime.coordinator with activeOperations }
    operations := runtime.operations.set operation .left }
  if activeOperations = 0 then runtime.releaseZeroWaiters else runtime

/-- Calls `performReset`, which runs up to its first `await`. -/
def performReset (awaiter : Awaiter) : ResetRuntime :=
  let id := runtime.resets.length
  let waiting := { runtime.coordinator with resetting := true }.waitForZeroOperations id
  { runtime with
    coordinator := { waiting.2 with resetPromise := some id }
    resets := runtime.resets ++ [⟨waiting.1, [awaiter]⟩] }

def resetNow (awaiter : Awaiter) : ResetRuntime :=
  match runtime.coordinator.resetPromise with
  | some id => runtime.setAwaiters id (fun awaiters => awaiters ++ [awaiter])
  | none => runtime.performReset awaiter

/-- The `finally` callback of `resetNow`. -/
def finishReset (id : Nat) (ok : Bool) : ResetRuntime :=
  let coordinator := { runtime.coordinator with
    resetting := false
    resetPromise := if runtime.coordinator.resetPromise =
      some id then none else runtime.coordinator.resetPromise }
  { runtime with coordinator }.setPhase id (.settled ok)

def installTimer (delayMs : Int) : ResetRuntime :=
  { runtime with
    coordinator := { runtime.coordinator with timer := some runtime.timersSet }
    timers := runtime.timers ++ [⟨runtime.timersSet, delayMs⟩]
    timersSet := runtime.timersSet + 1 }

def start : ResetRuntime :=
  if runtime.coordinator.disposed ∨
    runtime.coordinator.started then runtime else runtime.resetNow .start

/-- The rest of `start` when its reset has succeeded. -/
def started : ResetRuntime :=
  if runtime.coordinator.disposed ∨ runtime.coordinator.started then runtime
  else
    { runtime with coordinator := { runtime.coordinator with started := true } }.installTimer
      runtime.coordinator.resetIntervalMs

def dispose : ResetRuntime :=
  let coordinator := { runtime.coordinator with disposed := true, nextResetAt := none }
  match runtime.coordinator.timer with
  | none => { runtime with coordinator }
  | some timer =>
    { runtime with
      coordinator := { coordinator with timer := none }
      timers := runtime.timers.filter (fun waiting => waiting.handle ≠ timer) }

def runScheduledReset : ResetRuntime :=
  { runtime with coordinator :=
    { runtime.coordinator with nextResetAt := none } }.resetNow .runScheduledReset

/-- The callback of `installTimer`. -/
def fireTimer (handle : Nat) : ResetRuntime :=
  { runtime with
    coordinator := { runtime.coordinator with timer := none }
    timers := runtime.timers.filter (fun waiting => waiting.handle ≠ handle) }.runScheduledReset

/-- The rest of `runScheduledReset` when its reset has settled. -/
def rescheduled (ok : Bool) : ResetRuntime :=
  if runtime.coordinator.disposed then runtime
  else if ok then runtime.installTimer runtime.coordinator.resetIntervalMs
  else
    -- A reset may have emptied the workspace before a seed write failed.
    -- Keep all public work gated until a complete reset-and-seed succeeds.
    { runtime with coordinator := { runtime.coordinator with resetting := true } }.installTimer
      runtime.coordinator.retryAfterMs

/-- The rest of a caller of `resetNow` when the promise that it awaits has settled. -/
def resumeAwaiter (ok : Bool) : Awaiter → ResetRuntime
  | .caller => runtime
  | .start => if ok then runtime.started else runtime
  | .runScheduledReset => runtime.rescheduled ok

def step : Event → Option ResetRuntime
  | .withOperation => some runtime.withOperation
  | .operationSettles operation ok =>
    if runtime.operations[operation]? = some .running then
      some { runtime with operations := runtime.operations.set operation (.settled ok) }
    else none
  | .operationFinally operation =>
    match runtime.operations[operation]? with
    | some (.settled _) => some (runtime.leaveOperation operation)
    | _ => none
  | .resetNow => some (runtime.resetNow .caller)
  | .start => some runtime.start
  | .dispose => some runtime.dispose
  | .timerFires handle =>
    if runtime.timers.any (fun waiting =>
      waiting.handle = handle) then some (runtime.fireTimer handle) else none
  | .resetContinues id now =>
    match runtime.phase? id with
    | some phase =>
      phase.resume.map (fun next =>
        let runtime := runtime.setPhase id next
        if phase = .seeded true then { runtime with coordinator := runtime.coordinator.countReset now } else runtime)
    | none => none
  | .workspaceSettles id ok =>
    if runtime.phase? id = some .resettingWorkspace then some (runtime.setPhase id
      (.workspaceReset ok)) else none
  | .seedSettles id ok =>
    if runtime.phase? id = some .seeding then some (runtime.setPhase id (.seeded ok)) else none
  | .resetFinally id =>
    match runtime.phase? id with
    | some (.performed ok) => some (runtime.finishReset id ok)
    | _ => none
  | .awaiterContinues id awaiter =>
    match runtime.resets[id]? with
    | some ⟨.settled ok, awaiters⟩ =>
      if awaiter ∈ awaiters then
        some ((runtime.setAwaiters id
          (fun awaiters => awaiters.erase awaiter)).resumeAwaiter ok awaiter)
      else none
    | _ => none

/-- What the events make of a runtime, when each of them can happen. -/
def run (runtime : ResetRuntime) : List Event → Option ResetRuntime
  | [] => some runtime
  | event :: events => (runtime.step event).bind (fun next => next.run events)

/-- A new coordinator with its `dependencies`. -/
def initial (resetIntervalMs retryAfterMs : Int) : ResetRuntime where
  coordinator := { resetIntervalMs, retryAfterMs }

theorem withOperation_open {runtime : ResetRuntime} (h : runtime.coordinator.resetting = false) :
    runtime.withOperation =
      { runtime with
        coordinator := { runtime.coordinator with activeOperations :=
          runtime.coordinator.activeOperations + 1 }
        operations := runtime.operations ++ [.running] } := by
  simp [withOperation, ResetCoordinator.withOperation, h]

theorem withOperation_shut {runtime : ResetRuntime} (h : runtime.coordinator.resetting = true) :
    runtime.withOperation = runtime := by
  simp [withOperation, ResetCoordinator.withOperation, h]

@[simp] theorem setAwaiters_coordinator (id : Nat) (f : List Awaiter → List Awaiter) :
    (runtime.setAwaiters id f).coordinator = runtime.coordinator := rfl

@[simp] theorem setAwaiters_operations (id : Nat) (f : List Awaiter → List Awaiter) :
    (runtime.setAwaiters id f).operations = runtime.operations := rfl

@[simp] theorem setPhase_coordinator (id : Nat) (phase : Phase) :
    (runtime.setPhase id phase).coordinator = runtime.coordinator := rfl

@[simp] theorem setPhase_operations (id : Nat) (phase : Phase) :
    (runtime.setPhase id phase).operations = runtime.operations := rfl

@[simp] theorem phase?_setAwaiters (id i : Nat) (f : List Awaiter → List Awaiter) :
    (runtime.setAwaiters id f).phase? i = runtime.phase? i := by
  simp only [phase?, setAwaiters, List.getElem?_modify]
  split
  · cases runtime.resets[i]? <;> rfl
  · simp

theorem phase?_setPhase (id i : Nat) (phase : Phase) :
    (runtime.setPhase id phase).phase? i =
      if i = id then (runtime.phase? i).map (fun _ => phase) else runtime.phase? i := by
  simp only [phase?, setPhase, List.getElem?_modify, eq_comm]
  split
  · cases runtime.resets[i]? <;> rfl
  · simp

theorem phase?_append (coordinator : ResetCoordinator) (reset : Reset) (i : Nat) :
    phase? { runtime with coordinator, resets := runtime.resets ++ [reset] } i =
      if i = runtime.resets.length then some reset.phase else runtime.phase? i := by
  simp only [phase?, List.getElem?_append]
  split
  · rw [if_neg (by omega)]
  · split
    · simp [*]
    · rename_i hlength hne
      rw [List.getElem?_eq_none (by simp; omega), List.getElem?_eq_none (by omega)]

theorem phase?_length : runtime.phase? runtime.resets.length = none := by
  simp [phase?]

/-- What `performReset` leaves once it awaits that no operation is active. -/
theorem phase?_performReset (awaiter : Awaiter) (id : Nat) :
    (runtime.performReset awaiter).phase? id =
      if id = runtime.resets.length then
        some (if runtime.coordinator.activeOperations = 0 then .released else .waiting)
      else runtime.phase? id := by
  rw [performReset, phase?_append]
  congr 2
  unfold ResetCoordinator.waitForZeroOperations
  split <;> rfl

@[simp] theorem performReset_operations (awaiter : Awaiter) :
    (runtime.performReset awaiter).operations = runtime.operations := rfl

@[simp] theorem performReset_resetPromise (awaiter : Awaiter) :
    (runtime.performReset awaiter).coordinator.resetPromise = some runtime.resets.length := rfl

@[simp] theorem performReset_resetting (awaiter : Awaiter) :
    (runtime.performReset awaiter).coordinator.resetting = true := by
  unfold performReset ResetCoordinator.waitForZeroOperations
  dsimp only
  split <;> rfl

@[simp] theorem performReset_activeOperations (awaiter : Awaiter) :
    (runtime.performReset awaiter).coordinator.activeOperations =
    runtime.coordinator.activeOperations := by
  unfold performReset ResetCoordinator.waitForZeroOperations
  dsimp only
  split <;> rfl

theorem performReset_zeroWaiters (awaiter : Awaiter) :
    (runtime.performReset awaiter).coordinator.zeroWaiters =
      if runtime.coordinator.activeOperations = 0 then runtime.coordinator.zeroWaiters
      else runtime.coordinator.zeroWaiters ++ [runtime.resets.length] := by
  unfold performReset ResetCoordinator.waitForZeroOperations
  dsimp only
  split <;> rfl

end ResetRuntime

end fslite.showcase
