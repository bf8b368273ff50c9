import Fslite.Showcase.ResetExclusion

namespace fslite.showcase

namespace Phase

theorem outcome_resume {phase later : Phase} (h : phase.resume = some later) :
    later.outcome = phase.outcome := by
  revert h
  fun_cases resume phase
  all_goals simp only [Option.some.injEq, reduceCtorEq, false_implies]
  all_goals
    intro h
    subst h
    rfl

theorem outcome_release (phase : Phase) : phase.release.outcome = phase.outcome := by
  cases phase <;> rfl

end Phase

namespace ResetRuntime

/-- `runScheduledReset` awaits the reset. -/
def scheduled (runtime : ResetRuntime) (id : Nat) : Bool :=
  (runtime.resets[id]?.map (fun reset => decide (.runScheduledReset ∈ reset.awaiters))).getD false

/-- The event makes a scheduled reset fail: `resetWorkspace` or the seed rejects, or a timer joins a
reset of which one has rejected already. -/
def failsScheduled (runtime : ResetRuntime) : Event → Bool
  | .workspaceSettles id false => runtime.scheduled id
  | .seedSettles id false => runtime.scheduled id
  | .timerFires _ => (runtime.coordinator.resetPromise.bind runtime.phase?).bind Phase.outcome =
    some false
  | _ => false

/-- The event completes a reset and its seed. -/
def completes : Event → Bool
  | .seedSettles _ true => true
  | _ => false

/-- The event is the `finally` callback of a reset that has failed. -/
def reopens (runtime : ResetRuntime) : Event → Bool
  | .resetFinally id => runtime.phase? id = some (.performed false)
  | _ => false

/-- The event starts a reset, or it is the handler of a failed scheduled reset of a coordinator
that is not disposed. -/
def closes (runtime : ResetRuntime) : Event → Bool
  | .resetNow => runtime.coordinator.resetPromise = none
  | .timerFires _ => runtime.coordinator.resetPromise = none
  | .start => runtime.coordinator.resetPromise = none ∧
    ¬ (runtime.coordinator.disposed ∨ runtime.coordinator.started)
  | .awaiterContinues id .runScheduledReset =>
    runtime.phase? id = some (.settled false) ∧ ¬ runtime.coordinator.disposed
  | _ => false

/-- What an observer of the events notes. -/
structure Watch where
  /-- A scheduled reset has failed, and no reset has been completed since. -/
  owed : Bool := false
  /-- A failed reset has run its `finally` callback, and nothing has closed the gate since. -/
  gap : Bool := false

def Watch.next (watch : Watch) (runtime : ResetRuntime) (event : Event) : Watch where
  owed := if runtime.failsScheduled event then true else if completes event then false else watch.owed
  gap := if runtime.reopens event then true else if runtime.closes event then false else watch.gap

def observe (runtime : ResetRuntime) (watch : Watch) : List Event → Option (ResetRuntime × Watch)
  | [] => some (runtime, watch)
  | event :: events => (runtime.step event).bind
    (fun next => next.observe (watch.next runtime event) events)

/-- While a scheduled reset is owed, every call of `withOperation` in the events is refused. -/
def StaysShut (runtime : ResetRuntime) (events : List Event) : Prop :=
  ∀ before found watch, before ++ [.withOperation] <+: events →
    runtime.observe {} before = some (found, watch) →
    watch.owed = true → found.coordinator.withOperation = .error ⟨found.coordinator.retryAfterMs⟩

/-- While a scheduled reset is owed, no call of `withOperation` in the events falls into a gap. -/
def AvoidsGaps (runtime : ResetRuntime) (events : List Event) : Prop :=
  ∀ before found watch, before ++ [.withOperation] <+: events →
    runtime.observe {} before = some (found, watch) →
    watch.owed = true → watch.gap = false

/-- What the notes say about the runtime. -/
structure Watched (runtime : ResetRuntime) (watch : Watch) : Prop where
  orderly : runtime.Orderly
  open_of_gap : watch.gap = true → runtime.coordinator.resetting = false
  shut_of_owed : watch.owed = true → watch.gap = false → runtime.coordinator.resetting = true
  paid (id : Nat) (phase : Phase) : runtime.phase? id = some phase → phase.pending = true →
    phase.outcome = some true → watch.owed = false

variable {runtime next : ResetRuntime} {watch : Watch}

theorem resetting_leaveOperation (operation : Nat) :
    (runtime.leaveOperation operation).coordinator.resetting = runtime.coordinator.resetting := by
  unfold leaveOperation
  dsimp only
  split <;> rfl

theorem phase?_leaveOperation (operation : Nat) {id : Nat} {phase : Phase}
    (h : (runtime.leaveOperation operation).phase? id = some phase) :
    ∃ before, runtime.phase? id = some before ∧ (phase = before ∨ phase = before.release) := by
  unfold leaveOperation at h
  dsimp only at h
  split at h
  · rw [phase?_releaseZeroWaiters] at h
    split at h
    · obtain ⟨before, hbefore, rfl⟩ := Option.map_eq_some_iff.mp h
      exact ⟨before, hbefore, .inr rfl⟩
    · exact ⟨phase, h, .inl rfl⟩
  · exact ⟨phase, h, .inl rfl⟩

namespace Watched

theorem initial (resetIntervalMs retryAfterMs : Int) :
    Watched (initial resetIntervalMs retryAfterMs) {} where
  orderly := .initial resetIntervalMs retryAfterMs
  open_of_gap h := by cases h
  shut_of_owed h := by cases h
  paid id phase hphase := by cases hphase

/-- A step that leaves the gate and what the resets come to. -/
theorem of_same (h : Watched runtime watch) (horderly : next.Orderly)
    (hresetting : next.coordinator.resetting = runtime.coordinator.resetting)
    (hphases : ∀ id phase, next.phase? id = some phase → ∃ before, runtime.phase? id = some before ∧
      before.pending = phase.pending ∧ before.outcome = phase.outcome) : Watched next watch where
  orderly := horderly
  open_of_gap hgap := by rw [hresetting, h.open_of_gap hgap]
  shut_of_owed howed hgap := by rw [hresetting, h.shut_of_owed howed hgap]
  paid id phase hphase hpending houtcome := by
    obtain ⟨before, hbefore, hsame, hsame'⟩ := hphases id phase hphase
    exact h.paid id before hbefore (hsame.trans hpending) (hsame'.trans houtcome)

/-- A step that shuts the gate, whatever it makes owed of a reset that has not succeeded. -/
theorem shut (h : Watched runtime watch) (horderly : next.Orderly)
    (hresetting : next.coordinator.resetting = true)
    (hphases : ∀ id phase, next.phase? id = some phase → phase.pending = true →
    phase.outcome = some true →
      runtime.phase? id = some phase) : Watched next { watch with gap := false } where
  orderly := horderly
  open_of_gap hgap := by cases hgap
  shut_of_owed _ _ := hresetting
  paid id phase hphase hpending houtcome :=
    h.paid id phase (hphases id phase hphase hpending houtcome) hpending houtcome

/-- A failure is noted while the reset that has failed is the one in progress. -/
theorem owe (h : Watched runtime watch) {id : Nat} {phase : Phase}
    (hphase : runtime.phase? id = some phase) (hpending : phase.pending = true)
    (houtcome : phase.outcome = some false) :
    Watched runtime { watch with owed := true } := by
  have hid := h.orderly.current id phase hphase hpending
  have hresetting := (h.orderly.gated id hid).1
  refine ⟨h.orderly, h.open_of_gap, fun _ _ => hresetting, ?_⟩
  intro i found hfound hpending' houtcome'
  have hi : i = id := Option.some.inj ((h.orderly.current i found hfound hpending').symm.trans hid)
  subst hi
  rw [hphase] at hfound
  cases hfound
  rw [houtcome] at houtcome'
  cases houtcome'

theorem pay (h : Watched runtime watch) : Watched runtime { watch with owed := false } where
  orderly := h.orderly
  open_of_gap := h.open_of_gap
  shut_of_owed howed := by cases howed
  paid _ _ _ _ _ := rfl

theorem performReset (h : Watched runtime watch) (hnone : runtime.coordinator.resetPromise = none)
    (awaiter : Awaiter) : Watched (runtime.performReset awaiter) { watch with gap := false } := by
  refine h.shut (h.orderly.performReset hnone awaiter) (runtime.performReset_resetting awaiter) ?_
  intro id phase hphase hpending houtcome
  rw [phase?_performReset] at hphase
  split at hphase
  · cases Option.some.inj hphase
    split at houtcome <;> cases houtcome
  · exact hphase

theorem resetNow (h : Watched runtime watch) (awaiter : Awaiter) :
    Watched (runtime.resetNow awaiter)
      { watch with gap := if runtime.coordinator.resetPromise =
      none then false else watch.gap } := by
  unfold ResetRuntime.resetNow
  split
  · rename_i id hid
    rw [hid, if_neg (by simp)]
    refine h.of_same (h.orderly.of_sameGate (sameGate_setAwaiters _ _) (fun h => h)) rfl ?_
    intro i phase hphase
    rw [phase?_setAwaiters] at hphase
    exact ⟨phase, hphase, rfl, rfl⟩
  · rename_i hnone
    rw [hnone, if_pos rfl]
    exact h.performReset hnone awaiter

theorem setPhase (h : Watched runtime watch) {id : Nat} {phase later : Phase}
    (hphase : runtime.phase? id = some phase) (hbefore : phase.pending = true ∧ phase ≠ .waiting)
    (hafter : later.pending = true ∧ later ≠ .waiting)
    (hpaid : later.outcome = some true → watch.owed = false) :
    Watched (runtime.setPhase id later) watch where
  orderly := h.orderly.setPhase hphase hbefore hafter
  open_of_gap := h.open_of_gap
  shut_of_owed := h.shut_of_owed
  paid i found hfound hpending houtcome := by
    rw [phase?_setPhase] at hfound
    split at hfound
    · obtain ⟨_, _, rfl⟩ := Option.map_eq_some_iff.mp hfound
      exact hpaid houtcome
    · exact h.paid i found hfound hpending houtcome

theorem fail (h : Watched runtime watch) {id : Nat} {phase later : Phase}
    (hphase : runtime.phase? id = some phase) (hbefore : phase.pending = true ∧ phase ≠ .waiting)
    (hafter : later.pending = true ∧ later ≠ .waiting) (hfails : later.outcome = some false)
    (scheduled : Bool) :
    Watched (runtime.setPhase id later) { watch with owed := scheduled || watch.owed } := by
  have hset := h.setPhase hphase hbefore hafter (fun houtcome => by simp [hfails] at houtcome)
  have hat : (runtime.setPhase id later).phase? id = some later := by
    rw [phase?_setPhase, if_pos rfl, hphase, Option.map_some]
  cases scheduled with
  | false => exact hset
  | true => exact hset.owe hat hafter.1 hfails

theorem finishReset (h : Watched runtime watch) {id : Nat} {ok : Bool}
    (hphase : runtime.phase? id = some (.performed ok)) :
    Watched (runtime.finishReset id ok) { watch with gap := if ok then watch.gap else true } := by
  refine ⟨h.orderly.finishReset hphase, fun _ => rfl, ?_, ?_⟩
  · intro howed hgap
    cases ok with
    | true =>
      have hpaid := h.paid id _ hphase rfl rfl
      rw [hpaid] at howed
      cases howed
    | false => cases hgap
  · intro i found hfound hpending houtcome
    unfold ResetRuntime.finishReset at hfound
    rw [phase?_setPhase] at hfound
    split at hfound
    · obtain ⟨_, _, rfl⟩ := Option.map_eq_some_iff.mp hfound
      cases hpending
    · exact h.paid i found hfound hpending houtcome

theorem start (h : Watched runtime watch) :
    Watched runtime.start
      { watch with gap := if runtime.closes .start then false else watch.gap } := by
  unfold ResetRuntime.start
  by_cases hover : runtime.coordinator.disposed ∨ runtime.coordinator.started
  · rw [if_pos hover]
    simpa [closes, hover] using h
  · rw [if_neg hover]
    simpa [closes, hover] using h.resetNow .start

/-- Arming a timer, or forgetting one, is nothing to the gate. -/
theorem fireTimer (h : Watched runtime watch) (handle : Nat) :
    Watched (runtime.fireTimer handle) (watch.next runtime (.timerFires handle)) := by
  have hforget : SameGate runtime { runtime with
      coordinator := { runtime.coordinator with timer := none, nextResetAt := none }
      timers := runtime.timers.filter (fun waiting => waiting.handle ≠ handle) } :=
    ⟨rfl, rfl, rfl, rfl, fun _ => rfl⟩
  have howed : Watched runtime
      { watch with owed := runtime.failsScheduled (.timerFires handle) || watch.owed } := by
    cases hfails : runtime.failsScheduled (.timerFires handle) with
    | false => exact h
    | true =>
      simp only [failsScheduled, decide_eq_true_eq, Option.bind_eq_some_iff] at hfails
      obtain ⟨phase, ⟨id, hid, hphase⟩, houtcome⟩ := hfails
      obtain ⟨_, found, hfound, hpending⟩ := h.orderly.gated id hid
      rw [hphase] at hfound
      cases hfound
      exact h.owe hphase hpending houtcome
  have hsame := howed.of_same (h.orderly.of_sameGate hforget (fun h => h)) rfl
    (fun id phase hphase => ⟨phase, hphase, rfl, rfl⟩)
  have hreset := hsame.resetNow .runScheduledReset
  simpa [Watch.next, completes, reopens, closes, ResetRuntime.fireTimer,
    runScheduledReset] using hreset

theorem resumeAwaiter (h : Watched runtime watch) {id : Nat} {ok : Bool}
    (hphase : runtime.phase? id = some (.settled ok)) (awaiter : Awaiter)
    (f : List Awaiter → List Awaiter) :
    Watched ((runtime.setAwaiters id f).resumeAwaiter ok awaiter)
      (watch.next runtime (.awaiterContinues id awaiter)) := by
  have hsame := (@sameGate_setAwaiters runtime id f).trans (sameGate_resumeAwaiter ok awaiter)
  have hresetting := @resetting_resumeAwaiter (runtime.setAwaiters id f) ok awaiter
  rw [setAwaiters_coordinator] at hresetting
  have horderly := h.orderly.of_sameGate hsame
    (fun hshut => by rw [hresetting, hshut, Bool.true_or])
  have hphases : ∀ i phase, ((runtime.setAwaiters id f).resumeAwaiter ok awaiter).phase? i =
    some phase →
      runtime.phase? i = some phase := by
    intro i phase hfound
    rwa [hsame.phases] at hfound
  cases hhandler : runtime.closes (.awaiterContinues id awaiter) with
  | true =>
    have hnext : watch.next runtime (.awaiterContinues id awaiter) =
        { watch with gap := false } := by
      simp [Watch.next, failsScheduled, completes, reopens, hhandler]
    rw [hnext]
    refine h.shut horderly ?_ (fun i phase hfound _ _ => hphases i phase hfound)
    cases awaiter <;> simp_all [closes]
  | false =>
    have hnext : watch.next runtime (.awaiterContinues id awaiter) = watch := by
      simp [Watch.next, failsScheduled, completes, reopens, hhandler]
    rw [hnext]
    refine h.of_same horderly ?_ (fun i phase hfound => ⟨phase, hphases i phase hfound, rfl, rfl⟩)
    cases awaiter <;> simp_all [closes]

theorem step (h : Watched runtime watch) {event : Event} (hstep : runtime.step event = some next) :
    Watched next (watch.next runtime event) := by
  have horderly := h.orderly.step hstep
  cases event with
  | withOperation =>
    cases hstep
    refine h.of_same horderly ?_ ?_
    · cases hresetting : runtime.coordinator.resetting with
      | true => rw [withOperation_shut hresetting, hresetting]
      | false => rw [withOperation_open hresetting, hresetting]
    · intro id phase hphase
      refine ⟨phase, ?_, rfl, rfl⟩
      cases hresetting : runtime.coordinator.resetting with
      | true => rwa [withOperation_shut hresetting] at hphase
      | false => rwa [withOperation_open hresetting] at hphase
  | operationSettles operation ok =>
    simp only [ResetRuntime.step, Option.ite_none_right_eq_some, Option.some.injEq] at hstep
    obtain ⟨_, rfl⟩ := hstep
    exact h.of_same horderly rfl (fun id phase hphase => ⟨phase, hphase, rfl, rfl⟩)
  | operationFinally operation =>
    simp only [ResetRuntime.step] at hstep
    split at hstep
    · cases hstep
      refine h.of_same horderly (resetting_leaveOperation operation) ?_
      intro id phase hphase
      obtain ⟨before, hbefore, hor⟩ := phase?_leaveOperation operation hphase
      refine ⟨before, hbefore, ?_⟩
      rcases hor with rfl | rfl
      · exact ⟨rfl, rfl⟩
      · exact ⟨(Phase.pending_release before).symm, (Phase.outcome_release before).symm⟩
    · cases hstep
  | resetNow =>
    cases hstep
    simpa [Watch.next, failsScheduled, completes, reopens, closes] using h.resetNow .caller
  | start =>
    cases hstep
    exact h.start
  | dispose =>
    cases hstep
    refine h.of_same horderly resetting_dispose ?_
    intro id phase hphase
    rw [sameGate_dispose.phases] at hphase
    exact ⟨phase, hphase, rfl, rfl⟩
  | timerFires handle =>
    simp only [ResetRuntime.step, Option.ite_none_right_eq_some, Option.some.injEq] at hstep
    obtain ⟨_, rfl⟩ := hstep
    exact h.fireTimer handle
  | resetContinues id now =>
    simp only [ResetRuntime.step] at hstep
    split at hstep
    · rename_i phase hphase
      obtain ⟨later, hresume, rfl⟩ := Option.map_eq_some_iff.mp hstep
      obtain ⟨hbefore, hafter⟩ := Phase.pending_of_resume hresume
      have hset := h.setPhase hphase hbefore hafter (fun houtcome =>
        h.paid id phase hphase hbefore.1 (Phase.outcome_resume hresume ▸ houtcome))
      refine hset.of_same horderly ?_ ?_
      · split <;> rfl
      · intro i found hfound
        refine ⟨found, ?_, rfl, rfl⟩
        split at hfound <;> exact hfound
    · cases hstep
  | workspaceSettles id ok =>
    simp only [ResetRuntime.step, Option.ite_none_right_eq_some, Option.some.injEq] at hstep
    obtain ⟨hphase, rfl⟩ := hstep
    cases ok with
    | true =>
      apply h.setPhase hphase ⟨rfl, by simp⟩ ⟨rfl, by simp⟩
      intro houtcome
      cases houtcome
    | false =>
      have hfail : Watched (runtime.setPhase id (.workspaceReset false)) _ :=
        h.fail hphase ⟨rfl, by simp⟩ ⟨rfl, by simp⟩ rfl (runtime.scheduled id)
      simpa [Watch.next, failsScheduled, completes, reopens, closes] using hfail
  | seedSettles id ok =>
    simp only [ResetRuntime.step, Option.ite_none_right_eq_some, Option.some.injEq] at hstep
    obtain ⟨hphase, rfl⟩ := hstep
    cases ok with
    | true => exact h.pay.setPhase hphase ⟨rfl, by simp⟩ ⟨rfl, by simp⟩ (fun _ => rfl)
    | false =>
      have hfail : Watched (runtime.setPhase id (.seeded false)) _ :=
        h.fail hphase ⟨rfl, by simp⟩ ⟨rfl, by simp⟩ rfl (runtime.scheduled id)
      simpa [Watch.next, failsScheduled, completes, reopens, closes] using hfail
  | resetFinally id =>
    simp only [ResetRuntime.step] at hstep
    split at hstep
    · rename_i ok hphase
      cases hstep
      have hfinish := h.finishReset hphase
      cases ok <;> simpa [Watch.next, failsScheduled, completes, reopens, closes,
        hphase] using hfinish
    · cases hstep
  | awaiterContinues id awaiter =>
    simp only [ResetRuntime.step] at hstep
    split at hstep
    · rename_i ok awaiters hreset
      simp only [Option.ite_none_right_eq_some, Option.some.injEq] at hstep
      obtain ⟨_, rfl⟩ := hstep
      have hphase : runtime.phase? id = some (.settled ok) := by
        rw [phase?, hreset, Option.map_some]
      exact h.resumeAwaiter hphase awaiter _
    · cases hstep

theorem observe (h : Watched runtime watch) {events : List Event} {found : ResetRuntime}
    {noted : Watch} (hobserve : runtime.observe watch events = some (found, noted)) :
    Watched found noted := by
  induction events generalizing runtime watch with
  | nil =>
    cases hobserve
    exact h
  | cons event events ih =>
    obtain ⟨next, hstep, hrest⟩ := Option.bind_eq_some_iff.mp hobserve
    exact ih (h.step hstep) hrest

/-- What a call of `withOperation` finds while a scheduled reset is owed. -/
theorem refused_iff (h : Watched runtime watch) (howed : watch.owed = true) :
    runtime.coordinator.withOperation = .error ⟨runtime.coordinator.retryAfterMs⟩ ↔
      watch.gap = false := by
  unfold ResetCoordinator.withOperation
  cases hgap : watch.gap with
  | true => simp [h.open_of_gap hgap]
  | false => simp [h.shut_of_owed howed hgap]

end Watched

/-- From the coordinator's start, the gate refuses every call made while a scheduled reset is owed
if and only if none of them comes between the two callbacks of a failed one. -/
theorem staysShut_iff (resetIntervalMs retryAfterMs : Int) (events : List Event) :
    StaysShut (initial resetIntervalMs retryAfterMs) events ↔
      AvoidsGaps (initial resetIntervalMs retryAfterMs) events := by
  have hwatched := Watched.initial resetIntervalMs retryAfterMs
  constructor
  · intro h before found watch hprefix hobserve howed
    have hrefused := h before found watch hprefix hobserve howed
    exact ((hwatched.observe hobserve).refused_iff howed).mp hrefused
  · intro h before found watch hprefix hobserve howed
    have hgap := h before found watch hprefix hobserve howed
    exact ((hwatched.observe hobserve).refused_iff howed).mpr hgap

/-- A call that comes after the `finally` callback of a failed scheduled reset and before the
handler of `runScheduledReset` is admitted. -/
theorem admitted_after_failed_reset :
    ¬ StaysShut (initial DEFAULT_RESET_INTERVAL_MS DEFAULT_RETRY_AFTER_MS)
      [.start, .resetContinues 0 0, .workspaceSettles 0 true, .resetContinues 0 0,
      .seedSettles 0 true,
        .resetContinues 0 0, .resetFinally 0, .awaiterContinues 0 .start, .timerFires 0,
          .resetContinues 1 900000,
        .workspaceSettles 1 false, .resetContinues 1 900000, .resetFinally 1, .withOperation,
        .awaiterContinues 1 .runScheduledReset] := by
  intro h
  have hrefused := h
    [.start, .resetContinues 0 0, .workspaceSettles 0 true, .resetContinues 0 0,
      .seedSettles 0 true,
      .resetContinues 0 0, .resetFinally 0, .awaiterContinues 0 .start, .timerFires 0,
        .resetContinues 1 900000,
      .workspaceSettles 1 false, .resetContinues 1 900000, .resetFinally 1] _ _
    ⟨[.awaiterContinues 1 .runScheduledReset], rfl⟩ rfl rfl
  cases hrefused

end ResetRuntime

end fslite.showcase
