import Fslite.Sqlite.Run.Version

namespace fslite

open mutate

/-- The operations of a batch lead to a store with some operations still to carry
out. -/
inductive BatchComes (rt : Runtime) (ws : WorkspaceId) (actor_json : Text)
    (rest : List BatchOperation) (w' : World) :
    List BatchOperation → World → Prop where
  | here : BatchComes rt ws actor_json rest w' rest w'
  | next {first : BatchOperation} {others : List BatchOperation} {result : BatchResult}
    {w w₁ : World}
      (hstep : execute_batch_operation rt ws first actor_json w = .ok (.Result result, w₁))
      (h : BatchComes rt ws actor_json rest w' others w₁) :
        BatchComes rt ws actor_json rest w' (first :: others) w

namespace DbCall

/-- The call carries the operation out on the given store, before the rest of its
batch. -/
def Comes (rt : Runtime) (w : World) (ws : WorkspaceId) (actor_json : Text)
    (operation : BatchOperation) (rest : List BatchOperation) (w' : World) : DbCall → Prop
  | .transaction ws' operation' actor_json' =>
    ws = ws' ∧ operation = operation' ∧ actor_json = actor_json' ∧ rest = [] ∧ w' = w
  | .batch ctx operations actor_json' =>
    ws = ctx.workspace_id ∧ actor_json = actor_json' ∧
      BatchComes rt ws actor_json (operation :: rest) w' operations w
  | _ => False

/-- What the call has written is committed. -/
def Commits (rt : Runtime) (w : World) (call : DbCall) : Prop :=
  ∃ answer w', call.body rt w = .ok (answer, w') ∧ call.commits answer = true

theorem exec_of_body {rt : Runtime} {w w' : World} {call : DbCall} {answer : call.Answer}
    (hbody : call.body rt w = .ok (answer, w')) (hcommits : call.commits answer = true) :
    (call.exec rt w).2 = w' := by
  rw [DbCall.exec, hbody]
  simp only [hcommits, if_true]

theorem Commits.exec {rt : Runtime} {w : World} {call : DbCall} (h : call.Commits rt w) :
    ∃ answer, call.body rt w = .ok (answer, (call.exec rt w).2) ∧ call.commits answer = true := by
  obtain ⟨answer, w', hbody, hcommits⟩ := h
  exact ⟨answer, exec_of_body hbody hcommits ▸ hbody, hcommits⟩

end DbCall

section batch

variable {rt : Runtime} {ws : WorkspaceId} {actor_json : Text} {operation : BatchOperation}
  {rest operations : List BatchOperation} {w w₁ w' : World}

namespace BatchComes

theorem ongoing (h : BatchComes rt ws actor_json rest w' operations w) (hw : Ongoing rt w) :
    Ongoing rt w' := by
  induction h with
  | here => exact hw
  | next hstep _ ih => exact ih (hw.next hstep)

/-- What the last operations carry out the whole batch carries out. -/
theorem performs (h : BatchComes rt ws actor_json rest w' operations w) {db : Db}
    (hperforms : BatchPerforms rt ws actor_json db operation rest w') :
    BatchPerforms rt ws actor_json db operation operations w := by
  induction h with
  | here => exact hperforms
  | next hstep _ ih => exact Or.inr ⟨_, _, hstep, ih⟩

/-- The loop over a batch comes to its last operations. -/
theorem loop {ctx : RequestContext} {index : Nat} {results results' : List BatchResult} {w₂ : World}
    (h : BatchComes rt ctx.workspace_id actor_json rest w' operations w)
    (hloop : batch_loop rt ctx actor_json index results operations w = .ok
    (.Completed results', w₂)) :
    ∃ index results, batch_loop rt ctx actor_json index results rest w' = .ok
      (.Completed results', w₂) := by
  induction h generalizing index results with
  | here => exact ⟨index, results, hloop⟩
  | next hstep _ ih =>
    unfold batch_loop at hloop
    split at hloop
    · obtain ⟨heq, _⟩ := Tx.pure_eq_ok.mp hloop
      cases heq
    · obtain ⟨step, w₁, hexecute, hloop⟩ := Tx.bind_eq_ok.mp hloop
      rw [hstep] at hexecute
      cases hexecute
      exact ih hloop

end BatchComes

namespace DbCall.Comes

variable {call : DbCall} {outcome : Outcome operation}

theorem ongoing (h : call.Comes rt w ws actor_json operation rest w') (hw : Ongoing rt w) :
    Ongoing rt w' := by
  cases call with
  | transaction =>
    obtain ⟨_, _, _, _, rfl⟩ := h
    exact hw
  | batch => exact h.2.2.ongoing hw
  | _ => exact h.elim

/-- The operation is one of those that the call performs. -/
theorem performs (h : call.Comes rt w ws actor_json operation rest w') :
    call.Performs rt w ws w'.db operation := by
  cases call with
  | transaction =>
    obtain ⟨rfl, rfl, _, _, rfl⟩ := h
    exact ⟨rfl, rfl, rfl⟩
  | batch =>
    obtain ⟨rfl, rfl, hcomes⟩ := h
    exact ⟨rfl, hcomes.performs (Or.inl ⟨rfl, rfl⟩)⟩
  | _ => exact h.elim

/-- What comes after the operation, up to the end of the call. -/
theorem later {P : Policy} (h : call.Comes rt w ws actor_json operation rest w')
    (hstep : transact rt ws actor_json operation w' = .ok (outcome, w₁))
    (hcommits : call.Commits rt w) (hwf : WellFormed w₁.db) (hlaid : P.laid → LaidOut w₁.db)
    (hpolicy : ∀ db operation, call.Performs rt w ws db operation → P.Permits ws db operation) :
    Effect rt P none w₁ (call.exec rt w).2 := by
  obtain ⟨answer, hbody, hcommits⟩ := hcommits.exec
  cases call with
  | transaction =>
    obtain ⟨rfl, rfl, rfl, _, rfl⟩ := h
    rw [show DbCall.body rt (.transaction ws operation actor_json) w' = _ from hstep] at hbody
    cases hbody
    exact Effect.refl _ _ _ _
  | batch ctx operations actor_json' =>
    obtain ⟨rfl, rfl, hcomes⟩ := h
    cases answer with
    | Failed index error => cases hcommits
    | Completed results =>
      obtain ⟨index, results', hloop⟩ := hcomes.loop hbody
      unfold batch_loop at hloop
      split at hloop
      · obtain ⟨heq, _⟩ := Tx.pure_eq_ok.mp hloop
        cases heq
      · obtain ⟨step, w₂, hexecute, hloop⟩ := Tx.bind_eq_ok.mp hloop
        cases step with
        | Failed error =>
          obtain ⟨heq, _⟩ := Tx.pure_eq_ok.mp hloop
          cases heq
        | Result result =>
          obtain ⟨outcome', htransact⟩ := execute_batch_operation_result hexecute
          rw [hstep] at htransact
          cases htransact
          refine batch_loop_effect hwf hlaid
            (Policy.permitsAll_of_performs fun db operation hperforms => ?_) hloop
          exact hpolicy db operation
            ⟨rfl, hcomes.performs (Or.inr ⟨result, _, hexecute, hperforms⟩)⟩
  | _ => exact h.elim

end DbCall.Comes

end batch

/-- One step of a run whose batches are taken apart: a call of a request in service,
or one operation of a batch. -/
inductive Stretch (rt : Runtime) : World → World → Prop where
  | call {c : System} {i : Nat} {call : DbCall}
    {next : DbCall.Res call → Prog DbCall.Res (Except FsError Reply)}
      (hc : Reached rt (fun _ _ _ => True) c) (hproc : c.procs[i]? = some (.call call next)) :
      Stretch rt c.state (call.exec rt c.state).2
  | operation {w w' : World} {ws : WorkspaceId} {actor_json : Text} {operation : BatchOperation}
    {result : BatchResult}
      (hw : Ongoing rt w) (hstep : execute_batch_operation rt ws operation actor_json w = .ok
        (.Result result, w')) :
      Stretch rt w w'

/-- The second store comes after the first one in a run, be it between two operations
of a batch. -/
def Later (rt : Runtime) : World → World → Prop := Relation.ReflTransGen (Stretch rt)

section later

variable {rt : Runtime} {w w' : World}

theorem Stretch.ongoing (h : Stretch rt w w') : Ongoing rt w' := by
  cases h with
  | call hc hproc => exact .start ⟨_, hc.tail (.advance _ _ _ _ _ hproc trivial), rfl⟩
  | operation hw hstep => exact hw.next hstep

theorem Stretch.foreign (h : Stretch rt w w') : Foreign rt Policy.any none w w' := by
  cases h with
  | @call c _ call _ hc hproc =>
    exact Reached.step_foreign
      (hc.mono (fun _ hp => hp) (fun c _ o _ => Policy.allows_any rt c.state o)) hproc
      (Policy.allows_any rt c.state call)
  | operation hw hstep =>
    obtain ⟨outcome, htransact⟩ := execute_batch_operation_result hstep
    exact ⟨hw.sound, none, fun _ hg => (by cases hg), fun _ hg => (by cases hg),
      transact_effect hw.sound.wf (hw.sound.laid not_false) (Policy.permits_any _ _ _) htransact⟩

theorem Later.ongoing (h : Later rt w w') (hw : Ongoing rt w) : Ongoing rt w' := by
  cases h with
  | refl => exact hw
  | tail _ hlast => exact hlast.ongoing

theorem Later.foreign (h : Later rt w w') :
    Relation.ReflTransGen (Foreign rt Policy.any none) w w' :=
  Relation.ReflTransGen.mono (fun _ _ hstep => hstep.foreign) _ _ h

/-- What a run passes comes later and later. -/
theorem Reached.later {c d : System} (hc : Reached rt (fun _ _ _ => True) c)
    (hsteps : Steps (DbCall.exec rt) (Served rt) (fun _ _ _ => True) c d) :
    Later rt c.state d.state := by
  induction hsteps with
  | refl => exact .refl
  | tail hbefore hstep ih =>
    have hreached := hc.trans hbefore
    cases hstep with
    | arrive s ps p hp => exact ih
    | advance s ps i o next hproc hmay => exact ih.tail (.call hreached hproc)

/-- So does the store after further requests, served one after another. -/
theorem Later.serveAll (h : Reachable rt w) (requests : List (RequestContext × Request)) :
    Later rt w (serveAll rt requests w) := by
  obtain ⟨⟨w, ps⟩, hc, rfl⟩ := h
  obtain ⟨qs, hsteps⟩ := serveAll_run rt requests w ps
  exact Reached.later hc hsteps

/-- The operations of a batch follow one another. -/
theorem BatchComes.later {ws : WorkspaceId} {actor_json : Text}
    {rest operations : List BatchOperation} (h : BatchComes rt ws actor_json rest w' operations w)
    (hw : Ongoing rt w) : Later rt w w' := by
  induction h with
  | here => exact .refl
  | next hstep _ ih => exact .head (.operation hw hstep) (ih (hw.next hstep))

end later

end fslite
