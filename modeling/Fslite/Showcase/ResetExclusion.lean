import Fslite.Showcase.ResetCoordinator
import Mathlib.Data.List.Count

namespace fslite.showcase

/-- From the call of `client.resetWorkspace` until the seed has settled. -/
def Phase.working : Phase → Bool
  | .resettingWorkspace | .workspaceReset _ | .seeding | .seeded _ => true
  | _ => false

namespace Phase

theorem pending_of_working {phase : Phase} (h : phase.working = true) : phase.pending = true := by
  cases phase <;> simp_all [working, pending]

theorem pending_of_resume {phase next : Phase} (h : phase.resume = some next) :
    (phase.pending = true ∧ phase ≠ .waiting) ∧ next.pending = true ∧ next ≠ .waiting := by
  revert h
  fun_cases resume phase
  all_goals simp only [Option.some.injEq, reduceCtorEq, false_implies]
  all_goals
    intro h
    subst h
    simp [pending]

theorem pending_release (phase : Phase) : phase.release.pending = phase.pending := by
  cases phase <;> rfl

theorem release_ne_waiting (phase : Phase) : phase.release ≠ .waiting := by
  cases phase <;> simp [release]

theorem release_of_ne {phase : Phase} (h : phase ≠ .waiting) : phase.release = phase := by
  cases phase <;> simp_all [release]

end Phase

namespace ResetRuntime

variable {runtime next : ResetRuntime}

/-- Nothing that admission and exclusion depend on differs, `resetting` apart. -/
structure SameGate (runtime next : ResetRuntime) : Prop where
  activeOperations : next.coordinator.activeOperations = runtime.coordinator.activeOperations
  zeroWaiters : next.coordinator.zeroWaiters = runtime.coordinator.zeroWaiters
  resetPromise : next.coordinator.resetPromise = runtime.coordinator.resetPromise
  operations : next.operations = runtime.operations
  phases (id : Nat) : next.phase? id = runtime.phase? id

theorem SameGate.trans {last : ResetRuntime} (h : SameGate runtime next) (h' : SameGate next last) :
    SameGate runtime last where
  activeOperations := h'.activeOperations.trans h.activeOperations
  zeroWaiters := h'.zeroWaiters.trans h.zeroWaiters
  resetPromise := h'.resetPromise.trans h.resetPromise
  operations := h'.operations.trans h.operations
  phases id := (h'.phases id).trans (h.phases id)

theorem SameGate.refl (runtime : ResetRuntime) : SameGate runtime runtime :=
  ⟨rfl, rfl, rfl, rfl, fun _ => rfl⟩

theorem sameGate_setAwaiters (id : Nat) (f : List Awaiter → List Awaiter) :
    SameGate runtime (runtime.setAwaiters id f) :=
  ⟨rfl, rfl, rfl, rfl, fun i => phase?_setAwaiters runtime id i f⟩

theorem sameGate_started : SameGate runtime runtime.started := by
  unfold started
  split
  · exact .refl runtime
  · exact ⟨rfl, rfl, rfl, rfl, fun _ => rfl⟩

theorem resetting_started : runtime.started.coordinator.resetting =
    runtime.coordinator.resetting := by
  unfold started
  split <;> rfl

theorem sameGate_dispose : SameGate runtime runtime.dispose := by
  unfold dispose
  split <;> exact ⟨rfl, rfl, rfl, rfl, fun _ => rfl⟩

theorem resetting_dispose : runtime.dispose.coordinator.resetting =
    runtime.coordinator.resetting := by
  unfold dispose
  split <;> rfl

theorem sameGate_rescheduled (ok : Bool) : SameGate runtime (runtime.rescheduled ok) := by
  unfold rescheduled
  split
  · exact .refl runtime
  · split <;> exact ⟨rfl, rfl, rfl, rfl, fun _ => rfl⟩

/-- Only the handler of a failed scheduled reset closes the gate, and it never opens it. -/
theorem resetting_rescheduled (ok : Bool) :
    (runtime.rescheduled ok).coordinator.resetting =
      (runtime.coordinator.resetting || (! ok && ! runtime.coordinator.disposed)) := by
  unfold rescheduled
  cases ok <;> cases hdisposed : runtime.coordinator.disposed <;> simp [installTimer]

theorem sameGate_resumeAwaiter (ok : Bool) (awaiter : Awaiter) :
    SameGate runtime (runtime.resumeAwaiter ok awaiter) := by
  cases awaiter with
  | caller => exact .refl runtime
  | start =>
    cases ok with
    | true => exact sameGate_started
    | false => exact .refl runtime
  | runScheduledReset => exact sameGate_rescheduled ok

theorem resetting_resumeAwaiter (ok : Bool) (awaiter : Awaiter) :
    (runtime.resumeAwaiter ok awaiter).coordinator.resetting =
      (runtime.coordinator.resetting ||
        (awaiter = .runScheduledReset && ! ok && ! runtime.coordinator.disposed)) := by
  cases awaiter with
  | caller => simp [resumeAwaiter]
  | start => cases ok <;> simp [resumeAwaiter, resetting_started]
  | runScheduledReset => simp [resumeAwaiter, resetting_rescheduled]

theorem phase?_releaseZeroWaiters (id : Nat) :
    runtime.releaseZeroWaiters.phase? id =
      if id ∈ runtime.coordinator.zeroWaiters then (runtime.phase? id).map Phase.release
      else runtime.phase? id := by
  have hfold : ∀ (waiters : List Nat) (resets : List Reset),
      ((waiters.foldl (fun resets id =>
        resets.modify id (fun reset =>
          { reset with phase := reset.phase.release })) resets)[id]?.map Reset.phase) =
      if id ∈ waiters then (resets[id]?.map Reset.phase).map Phase.release else resets[id]?.map Reset.phase := by
    intro waiters
    induction waiters with
    | nil => simp
    | cons waiter waiters ih =>
      intro resets
      rw [List.foldl_cons, ih, List.getElem?_modify]
      by_cases hid : waiter = id
      · subst hid
        cases resets[waiter]? with
        | none => simp
        | some reset => cases hphase : reset.phase <;> simp [hphase, Phase.release]
      · have hmem : id ∈ waiter :: waiters ↔ id ∈ waiters := by
          rw [List.mem_cons, or_iff_right (Ne.symm hid)]
        simp [hmem, hid]
  exact hfold _ _

/-- What every reachable runtime keeps. -/
structure Orderly (runtime : ResetRuntime) : Prop where
  counted : runtime.coordinator.activeOperations = runtime.operations.countP Operation.active
  current (id : Nat) (phase : Phase) : runtime.phase? id = some phase → phase.pending = true →
    runtime.coordinator.resetPromise = some id
  gated (id : Nat) : runtime.coordinator.resetPromise = some id →
    runtime.coordinator.resetting = true ∧ ∃ phase, runtime.phase? id = some phase ∧
      phase.pending = true
  waits (id : Nat) : id ∈ runtime.coordinator.zeroWaiters ↔ runtime.phase? id = some .waiting
  alone (id : Nat) (phase : Phase) : runtime.phase? id = some phase → phase.pending = true →
    phase ≠ .waiting → runtime.coordinator.activeOperations = 0

namespace Orderly

theorem initial (resetIntervalMs retryAfterMs : Int) :
    (initial resetIntervalMs retryAfterMs).Orderly where
  counted := rfl
  current id phase hphase := by cases hphase
  gated id hid := by cases hid
  waits id := by simp [ResetRuntime.initial, phase?]
  alone id phase hphase := by cases hphase

theorem of_sameGate (h : runtime.Orderly) (hsame : SameGate runtime next)
    (hresetting : runtime.coordinator.resetting = true → next.coordinator.resetting = true) :
    next.Orderly where
  counted := by rw [hsame.activeOperations, hsame.operations, h.counted]
  current id phase := by
    rw [hsame.phases, hsame.resetPromise]
    exact h.current id phase
  gated id := by
    rw [hsame.phases, hsame.resetPromise]
    intro hid
    exact ⟨hresetting (h.gated id hid).1, (h.gated id hid).2⟩
  waits id := by
    rw [hsame.phases, hsame.zeroWaiters]
    exact h.waits id
  alone id phase := by
    rw [hsame.phases, hsame.activeOperations]
    exact h.alone id phase

/-- While the gate is open no reset is in progress. -/
theorem not_pending (h : runtime.Orderly) (hopen : runtime.coordinator.resetting = false) {id : Nat}
    {phase : Phase} (hphase : runtime.phase? id = some phase) : phase.pending = false := by
  by_contra hpending
  rw [Bool.not_eq_false] at hpending
  have hresetting := (h.gated id (h.current id phase hphase hpending)).1
  rw [hopen] at hresetting
  cases hresetting

theorem withOperation (h : runtime.Orderly) : runtime.withOperation.Orderly := by
  cases hresetting : runtime.coordinator.resetting with
  | true =>
    rw [withOperation_shut hresetting]
    exact h
  | false =>
    rw [withOperation_open hresetting]
    refine ⟨?_, h.current, h.gated, h.waits, ?_⟩
    · simp [h.counted, Operation.active]
    · intro id phase hphase hpending
      have hsettled := h.not_pending hresetting hphase
      rw [hsettled] at hpending
      cases hpending

theorem operationSettles (h : runtime.Orderly) {operation : Nat} (ok : Bool)
    (hrunning : runtime.operations[operation]? = some .running) :
    Orderly { runtime with operations := runtime.operations.set operation (.settled ok) } := by
  refine ⟨?_, h.current, h.gated, h.waits, h.alone⟩
  obtain ⟨hlength, hget⟩ := List.getElem?_eq_some_iff.mp hrunning
  have hpos : 0 < runtime.operations.countP Operation.active :=
    List.countP_pos_iff.mpr ⟨.running, hget ▸ List.getElem_mem hlength, rfl⟩
  simp only [h.counted, List.countP_set hlength, hget, Operation.active, if_true]
  omega

/-- `releaseZeroWaiters` when the last operation has left. -/
theorem releaseZeroWaiters (h : runtime.Orderly)
    (hzero : runtime.coordinator.activeOperations = 0) :
    runtime.releaseZeroWaiters.Orderly := by
  have hphases : ∀ id, runtime.releaseZeroWaiters.phase? id =
      (runtime.phase? id).map Phase.release := by
    intro id
    rw [phase?_releaseZeroWaiters]
    split
    · rfl
    · rename_i hwaits
      rw [h.waits] at hwaits
      cases hphase : runtime.phase? id with
      | none => rfl
      | some phase =>
        have hne : phase ≠ .waiting := by
          intro hwaiting
          exact hwaits (hwaiting ▸ hphase)
        rw [Option.map_some, Phase.release_of_ne hne]
  have hpending : ∀ id phase, runtime.releaseZeroWaiters.phase? id = some phase →
    phase.pending = true →
      runtime.coordinator.resetPromise = some id := by
    intro id phase hphase hpending
    rw [hphases, Option.map_eq_some_iff] at hphase
    obtain ⟨before, hbefore, rfl⟩ := hphase
    rw [Phase.pending_release] at hpending
    exact h.current id before hbefore hpending
  refine ⟨h.counted, hpending, ?_, ?_, ?_⟩
  · intro id hid
    obtain ⟨hresetting, phase, hphase, hpending⟩ := h.gated id hid
    refine ⟨hresetting, phase.release, ?_, ?_⟩
    · rw [hphases, hphase, Option.map_some]
    · rw [Phase.pending_release, hpending]
  · intro id
    simp only [hphases, Option.map_eq_some_iff, Phase.release_ne_waiting, and_false, exists_false,
      iff_false]
    exact List.not_mem_nil
  · intro _ _ _ _ _
    exact hzero

theorem leaveOperation (h : runtime.Orderly) {operation : Nat} {ok : Bool}
    (hsettled : runtime.operations[operation]? = some (.settled ok)) :
    (runtime.leaveOperation operation).Orderly := by
  obtain ⟨hlength, hget⟩ := List.getElem?_eq_some_iff.mp hsettled
  have hpos : 0 < runtime.operations.countP Operation.active :=
    List.countP_pos_iff.mpr ⟨.settled ok, hget ▸ List.getElem_mem hlength, rfl⟩
  have hactive := h.counted
  have hleft : Orderly { runtime with
      coordinator := { runtime.coordinator with
        activeOperations := runtime.coordinator.activeOperations - 1 }
      operations := runtime.operations.set operation .left } := by
    refine ⟨?_, h.current, h.gated, h.waits, ?_⟩
    · simp [List.countP_set hlength, hget, Operation.active, hactive]
    · intro id phase hphase hpending hwaiting
      have hzero := h.alone id phase hphase hpending hwaiting
      show runtime.coordinator.activeOperations - 1 = 0
      omega
  unfold ResetRuntime.leaveOperation
  dsimp only
  split
  · rename_i hzero
    exact hleft.releaseZeroWaiters hzero
  · exact hleft

/-- A reset that starts is the only one in progress, since no promise is shared. -/
theorem performReset (h : runtime.Orderly) (hnone : runtime.coordinator.resetPromise = none)
    (awaiter : Awaiter) : (runtime.performReset awaiter).Orderly := by
  have hothers : ∀ id phase, runtime.phase? id = some phase → ¬ phase.pending = true := by
    intro id phase hphase hpending
    have hcurrent := h.current id phase hphase hpending
    rw [hnone] at hcurrent
    cases hcurrent
  refine ⟨?_, ?_, ?_, ?_, ?_⟩
  · rw [performReset_activeOperations, performReset_operations, h.counted]
  · intro id phase hphase hpending
    rw [phase?_performReset] at hphase
    split at hphase
    · rename_i hid
      rw [performReset_resetPromise, hid]
    · exact absurd hpending (hothers id phase hphase)
  · intro id hid
    rw [performReset_resetPromise] at hid
    refine ⟨runtime.performReset_resetting awaiter, ?_⟩
    rw [phase?_performReset, if_pos (Option.some.inj hid).symm]
    refine ⟨_, rfl, ?_⟩
    split <;> rfl
  · intro id
    rw [phase?_performReset, performReset_zeroWaiters]
    by_cases hid : id = runtime.resets.length
    · subst hid
      have hfresh : runtime.resets.length ∉ runtime.coordinator.zeroWaiters := by
        rw [h.waits, runtime.phase?_length]
        simp
      split <;> simp [hfresh]
    · rw [if_neg hid, ← h.waits id]
      split <;> simp [hid]
  · intro id phase hphase hpending hwaiting
    rw [phase?_performReset] at hphase
    split at hphase
    · rw [performReset_activeOperations]
      by_contra hactive
      rw [if_neg hactive] at hphase
      exact hwaiting (Option.some.inj hphase).symm
    · exact absurd hpending (hothers id phase hphase)

theorem resetNow (h : runtime.Orderly) (awaiter : Awaiter) :
    (runtime.resetNow awaiter).Orderly := by
  unfold ResetRuntime.resetNow
  split
  · exact h.of_sameGate (sameGate_setAwaiters _ _) id
  · rename_i hnone
    exact h.performReset hnone awaiter

theorem start (h : runtime.Orderly) : runtime.start.Orderly := by
  unfold ResetRuntime.start
  split
  · exact h
  · exact h.resetNow .start

theorem fireTimer (h : runtime.Orderly) (handle : Nat) : (runtime.fireTimer handle).Orderly := by
  unfold ResetRuntime.fireTimer ResetRuntime.runScheduledReset
  apply resetNow
  exact h.of_sameGate ⟨rfl, rfl, rfl, rfl, fun _ => rfl⟩ id

/-- A reset that has its turn and goes on. -/
theorem setPhase (h : runtime.Orderly) {id : Nat} {phase later : Phase}
    (hphase : runtime.phase? id = some phase) (hbefore : phase.pending = true ∧ phase ≠ .waiting)
    (hafter : later.pending = true ∧ later ≠ .waiting) :
    (runtime.setPhase id later).Orderly := by
  have hid := h.current id phase hphase hbefore.1
  have hat : (runtime.setPhase id later).phase? id = some later := by
    rw [phase?_setPhase, if_pos rfl, hphase, Option.map_some]
  have hother : ∀ i, i ≠ id → (runtime.setPhase id later).phase? i = runtime.phase? i := by
    intro i hi
    rw [phase?_setPhase, if_neg hi]
  refine ⟨h.counted, ?_, ?_, ?_, ?_⟩
  · intro i found hfound hpending
    by_cases hi : i = id
    · exact hi ▸ hid
    · exact h.current i found (hother i hi ▸ hfound) hpending
  · intro i hi
    have : i = id := Option.some.inj (hi.symm.trans hid)
    subst this
    exact ⟨(h.gated i hid).1, later, hat, hafter.1⟩
  · intro i
    rw [setPhase_coordinator, h.waits]
    by_cases hi : i = id
    · subst hi
      rw [hat, hphase]
      simp [hbefore.2, hafter.2]
    · rw [hother i hi]
  · intro _ _ _ _ _
    exact h.alone id phase hphase hbefore.1 hbefore.2

theorem countReset (h : runtime.Orderly) (now : Int) :
    Orderly { runtime with coordinator := runtime.coordinator.countReset now } :=
  h.of_sameGate ⟨rfl, rfl, rfl, rfl, fun _ => rfl⟩ id

theorem finishReset (h : runtime.Orderly) {id : Nat} {ok : Bool}
    (hphase : runtime.phase? id = some (.performed ok)) : (runtime.finishReset id ok).Orderly := by
  have hid := h.current id _ hphase rfl
  have hphases : ∀ i, (runtime.finishReset id ok).phase? i =
      if i = id then some (.settled ok) else runtime.phase? i := by
    intro i
    unfold ResetRuntime.finishReset
    rw [phase?_setPhase]
    split
    · rename_i hi
      subst hi
      show (runtime.phase? i).map _ = _
      rw [hphase, Option.map_some]
    · rfl
  have hnone : ∀ i phase, (runtime.finishReset id ok).phase? i = some phase →
      ¬ phase.pending = true := by
    intro i phase hfound hpending
    rw [hphases] at hfound
    split at hfound
    · cases Option.some.inj hfound
      cases hpending
    · rename_i hi
      exact hi (Option.some.inj ((h.current i phase hfound hpending).symm.trans hid))
  have hpromise : (runtime.finishReset id ok).coordinator.resetPromise = none := by
    simp [ResetRuntime.finishReset, hid]
  refine ⟨h.counted, ?_, ?_, ?_, ?_⟩
  · intro i phase hfound hpending
    exact absurd hpending (hnone i phase hfound)
  · intro i hi
    rw [hpromise] at hi
    cases hi
  · intro i
    have hwaits : i ∈ (runtime.finishReset id ok).coordinator.zeroWaiters ↔
      runtime.phase? i = some .waiting :=
      h.waits i
    rw [hwaits, hphases]
    split
    · rename_i hi
      subst hi
      simp [hphase]
    · rfl
  · intro i phase hfound hpending
    exact absurd hpending (hnone i phase hfound)

theorem step (h : runtime.Orderly) {event : Event} (hstep : runtime.step event = some next) :
    next.Orderly := by
  cases event with
  | withOperation =>
    cases hstep
    exact h.withOperation
  | operationSettles operation ok =>
    simp only [ResetRuntime.step, Option.ite_none_right_eq_some, Option.some.injEq] at hstep
    obtain ⟨hrunning, rfl⟩ := hstep
    exact h.operationSettles ok hrunning
  | operationFinally operation =>
    simp only [ResetRuntime.step] at hstep
    split at hstep
    · rename_i ok hsettled
      cases hstep
      exact h.leaveOperation hsettled
    · cases hstep
  | resetNow =>
    cases hstep
    exact h.resetNow .caller
  | start =>
    cases hstep
    exact h.start
  | dispose =>
    cases hstep
    exact h.of_sameGate sameGate_dispose (by rw [resetting_dispose]; exact id)
  | timerFires handle =>
    simp only [ResetRuntime.step, Option.ite_none_right_eq_some, Option.some.injEq] at hstep
    obtain ⟨_, rfl⟩ := hstep
    exact h.fireTimer handle
  | resetContinues id now =>
    simp only [ResetRuntime.step] at hstep
    split at hstep
    · rename_i phase hphase
      obtain ⟨later, hresume, rfl⟩ := Option.map_eq_some_iff.mp hstep
      obtain ⟨hbefore, hafter⟩ := Phase.pending_of_resume hresume
      have hset := h.setPhase hphase hbefore hafter
      split
      · exact hset.countReset now
      · exact hset
    · cases hstep
  | workspaceSettles id ok =>
    simp only [ResetRuntime.step, Option.ite_none_right_eq_some, Option.some.injEq] at hstep
    obtain ⟨hphase, rfl⟩ := hstep
    exact h.setPhase hphase ⟨rfl, by simp⟩ ⟨rfl, by simp⟩
  | seedSettles id ok =>
    simp only [ResetRuntime.step, Option.ite_none_right_eq_some, Option.some.injEq] at hstep
    obtain ⟨hphase, rfl⟩ := hstep
    exact h.setPhase hphase ⟨rfl, by simp⟩ ⟨rfl, by simp⟩
  | resetFinally id =>
    simp only [ResetRuntime.step] at hstep
    split at hstep
    · rename_i ok hphase
      cases hstep
      exact h.finishReset hphase
    · cases hstep
  | awaiterContinues id awaiter =>
    simp only [ResetRuntime.step] at hstep
    split at hstep
    · rename_i ok awaiters hreset
      simp only [Option.ite_none_right_eq_some, Option.some.injEq] at hstep
      obtain ⟨_, rfl⟩ := hstep
      refine h.of_sameGate ((sameGate_setAwaiters _ _).trans (sameGate_resumeAwaiter ok awaiter)) ?_
      intro hresetting
      rw [resetting_resumeAwaiter, setAwaiters_coordinator, hresetting, Bool.true_or]
    · cases hstep

theorem run (h : runtime.Orderly) {events : List Event} (hrun : runtime.run events = some next) :
    next.Orderly := by
  induction events generalizing runtime with
  | nil =>
    cases hrun
    exact h
  | cons event events ih =>
    obtain ⟨middle, hstep, hrest⟩ := Option.bind_eq_some_iff.mp hrun
    exact ih (h.step hstep) hrest

end Orderly

/-- In every state that some order of the steps leads to, a reset that works finds no operation
active, a reset in progress refuses every operation, and there is at most one in progress. -/
theorem resets_exclusive (resetIntervalMs retryAfterMs : Int) (events : List Event)
    (hrun : (initial resetIntervalMs retryAfterMs).run events = some runtime) :
    (∀ id phase, runtime.phase? id = some phase → phase.working = true →
      ∀ operation ∈ runtime.operations, operation = .left) ∧
    (∀ id phase, runtime.phase? id = some phase → phase.pending = true →
      runtime.coordinator.withOperation = .error ⟨runtime.coordinator.retryAfterMs⟩) ∧
    (∀ id id' phase phase', runtime.phase? id = some phase → phase.pending = true →
      runtime.phase? id' = some phase' → phase'.pending = true → id = id') := by
  have h := (Orderly.initial resetIntervalMs retryAfterMs).run hrun
  refine ⟨?_, ?_, ?_⟩
  · intro id phase hphase hworking operation hmem
    have hwaiting : phase ≠ .waiting := by
      rintro rfl
      cases hworking
    have hzero := h.alone id phase hphase (Phase.pending_of_working hworking) hwaiting
    rw [h.counted, List.countP_eq_zero] at hzero
    have hactive := hzero operation hmem
    cases operation <;> simp_all [Operation.active]
  · intro id phase hphase hpending
    have hresetting := (h.gated id (h.current id phase hphase hpending)).1
    rw [ResetCoordinator.withOperation, if_pos hresetting]
  · intro id id' phase phase' hphase hpending hphase' hpending'
    have hid := h.current id phase hphase hpending
    rw [h.current id' phase' hphase' hpending'] at hid
    exact (Option.some.inj hid).symm

/-- A reset that had to wait for an operation, which failed, and that seeds now. -/
theorem drained_reset_exclusive :
    ∃ runtime, (initial DEFAULT_RESET_INTERVAL_MS DEFAULT_RETRY_AFTER_MS).run
        [.withOperation, .resetNow, .withOperation, .operationSettles 0 false, .operationFinally 0,
          .resetContinues 0 5, .workspaceSettles 0 true, .resetContinues 0 7] = some runtime ∧
      runtime.phase? 0 = some .seeding ∧
      (∀ operation ∈ runtime.operations, operation = .left) ∧
      runtime.coordinator.withOperation = .error ⟨runtime.coordinator.retryAfterMs⟩ := by
  refine ⟨_, rfl, rfl, ?_⟩
  have h := resets_exclusive DEFAULT_RESET_INTERVAL_MS DEFAULT_RETRY_AFTER_MS
    [.withOperation, .resetNow, .withOperation, .operationSettles 0 false, .operationFinally 0,
      .resetContinues 0 5, .workspaceSettles 0 true, .resetContinues 0 7] rfl
  exact ⟨h.1 0 .seeding rfl rfl, h.2.1 0 .seeding rfl rfl⟩

end ResetRuntime

end fslite.showcase
