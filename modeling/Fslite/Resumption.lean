import Mathlib.Logic.Relation
import Mathlib.Tactic.Common

/-- A program that talks to a shared state through atomic calls: it has
finished, or it waits for the answer to its next call. -/
inductive Prog {Op : Type} (Res : Op → Type) (A : Type) where
  | ret (a : A)
  | call (o : Op) (next : Res o → Prog Res A)

namespace Prog

variable {Op : Type} {Res : Op → Type} {A B : Type}

def bind : Prog Res A → (A → Prog Res B) → Prog Res B
  | ret a, f => f a
  | call o next, f => call o (fun r => (next r).bind f)

instance : Monad (Prog Res) where
  pure := ret
  bind := bind

/-- One call, answered as it is. -/
def perform (o : Op) : Prog Res (Res o) := call o ret

@[simp] theorem pure_eq (a : A) : (pure a : Prog Res A) = ret a := rfl

@[simp] theorem ret_bind (a : A) (f : A → Prog Res B) : (ret a >>= f) = f a := rfl

@[simp] theorem call_bind (o : Op) (next : Res o → Prog Res A) (f : A → Prog Res B) :
    (call o next >>= f) = call o (fun r => next r >>= f) := rfl

@[simp] theorem perform_bind (o : Op) (f : Res o → Prog Res B) : (perform o >>= f) = call o f := rfl

instance : LawfulMonad (Prog Res) := LawfulMonad.mk' _
  (fun p => by
    induction p with
    | ret a => rfl
    | call o next ih => exact congrArg (call o) (funext ih))
  (fun _ _ => rfl)
  (fun p f g => by
    induction p with
    | ret a => rfl
    | call o next ih => exact congrArg (call o) (funext ih))

variable {S : Type} (exec : (o : Op) → S → Res o × S)

/-- Runs a program alone, with no other program's calls in between. -/
def run : Prog Res A → S → A × S
  | ret a, s => (a, s)
  | call o next, s => (next (exec o s).1).run (exec o s).2

@[simp] theorem run_ret (a : A) (s : S) : (ret a : Prog Res A).run exec s = (a, s) := rfl

@[simp] theorem run_call (o : Op) (next : Res o → Prog Res A) (s : S) :
    (call o next).run exec s = (next (exec o s).1).run exec (exec o s).2 := rfl

theorem run_bind (p : Prog Res A) (f : A → Prog Res B) (s : S) :
    (p >>= f).run exec s = (f (p.run exec s).1).run exec (p.run exec s).2 := by
  induction p generalizing s with
  | ret a => rfl
  | call o next ih => exact ih _ _

/-- Every call of a program that runs alone satisfies a condition. -/
def Along (may : Op → S → Prop) : Prog Res A → S → Prop
  | ret _, _ => True
  | call o next, s => may o s ∧ (next (exec o s).1).Along may (exec o s).2

instance decidableAlong {may : Op → S → Prop} [∀ o s, Decidable (may o s)] :
    (p : Prog Res A) → (s : S) → Decidable (p.Along exec may s)
  | ret _, _ => isTrue trivial
  | call o next, s => @instDecidableAnd (may o s) _ _
    (decidableAlong (next (exec o s).1) (exec o s).2)

theorem along_bind {may : Op → S → Prop} {p : Prog Res A} {f : A → Prog Res B} {s : S}
    (hp : p.Along exec may s) (hf : ∀ a, (f a).Along exec may (p.run exec s).2) :
    (p >>= f).Along exec may s := by
  induction p generalizing s with
  | ret a => exact hf a
  | call o next ih => exact ⟨hp.1, ih _ hp.2 hf⟩

theorem along_mono {may may' : Op → S → Prop} {p : Prog Res A} {s : S} (hp : p.Along exec may s)
    (h : ∀ o s, may o s → may' o s) : p.Along exec may' s := by
  induction p generalizing s with
  | ret a => trivial
  | call o next ih => exact ⟨h o s hp.1, ih _ hp.2⟩

theorem along_of_forall {may : Op → S → Prop} (hmay : ∀ o s, may o s) (p : Prog Res A) (s : S) :
    p.Along exec may s := by
  induction p generalizing s with
  | ret a => trivial
  | call o next ih => exact ⟨hmay o s, ih _ _⟩

theorem along_bind_run {may : Op → S → Prop} {p : Prog Res A} {f : A → Prog Res B} {s : S}
    (hp : p.Along exec may s) (hf : (f (p.run exec s).1).Along exec may (p.run exec s).2) :
    (p >>= f).Along exec may s := by
  induction p generalizing s with
  | ret a => exact hf
  | call o next ih => exact ⟨hp.1, ih _ hp.2 hf⟩

/-- A program of which no call changes the state leaves it as it was. -/
theorem run_unchanged {p : Prog Res A} {s : S} (h : p.Along exec (fun o t => (exec o t).2 = t) s) :
    (p.run exec s).2 = s := by
  induction p with
  | ret a => rfl
  | call o next ih =>
    obtain ⟨hsame, hrest⟩ := h
    rw [hsame] at hrest
    rw [run_call, hsame]
    exact ih _ hrest

/-- A program whose calls are answered alike in two states, and change neither, has the same
result in both. -/
theorem run_alike {p : Prog Res A} {s s' : S} (h : p.Along exec (fun o t =>
      (exec o s').1 = (exec o t).1 ∧ (exec o t).2 = t ∧ (exec o s').2 = s') s) :
    p.run exec s' = ((p.run exec s).1, s') := by
  induction p with
  | ret a => rfl
  | call o next ih =>
    obtain ⟨⟨hanswer, hsame, hsame'⟩, hrest⟩ := h
    rw [hsame] at hrest
    rw [run_call, run_call, hanswer, hsame, hsame']
    exact ih _ hrest

/-- Every call that a program may make, whatever the answers, satisfies a condition. -/
def All (φ : Op → Prop) : Prog Res A → Prop
  | ret _ => True
  | call o next => φ o ∧ ∀ r, (next r).All φ

variable {φ : Op → Prop}

theorem All.bind {p : Prog Res A} {f : A → Prog Res B} (hp : p.All φ) (hf : ∀ a, (f a).All φ) :
    (p >>= f).All φ := by
  induction p with
  | ret a => exact hf a
  | call o next ih => exact ⟨hp.1, fun r => ih r (hp.2 r)⟩

theorem All.mono {ψ : Op → Prop} {p : Prog Res A} (hp : p.All φ) (h : ∀ o, φ o → ψ o) :
    p.All ψ := by
  induction p with
  | ret a => trivial
  | call o next ih => exact ⟨h o hp.1, fun r => ih r (hp.2 r)⟩

/-- The program makes the call, given some answers to the calls before it. -/
inductive Makes (o : Op) : Prog Res A → Prop where
  | here (next : Res o → Prog Res A) : Makes o (call o next)
  | later {before : Op} {next : Res before → Prog Res A} (r : Res before) (h : Makes o (next r)) :
    Makes o (call before next)

theorem All.of_makes {p : Prog Res A} {o : Op} (hp : p.All φ) (h : p.Makes o) : φ o := by
  induction h with
  | here next => exact hp.1
  | later r _ ih => exact ih (hp.2 r)

/-- What every call keeps, the program keeps. -/
theorem All.run_invariant {I : S → Prop} {p : Prog Res A} {s : S} (hp : p.All φ)
    (hkeeps : ∀ o s, φ o → I s → I (exec o s).2) (hs : I s) : I (p.run exec s).2 := by
  induction p generalizing s with
  | ret a => exact hs
  | call o next ih => exact ih _ (hp.2 _) (hkeeps o s hp.1 hs)

section relays

variable {L : Type} (told : (o : Op) → Res o → List L) (words : A → List L)

/-- What a program says once it has ended. -/
def said : Prog Res A → List L
  | ret a => words a
  | call _ _ => []

/-- A program that is told something ends there, and what it then says is what it was told. -/
def Relays : Prog Res A → Prop
  | ret _ => True
  | call o next => ∀ r, (next r).said words = told o r ∧ (next r).Relays

variable {told words}

/-- After calls that tell nothing, a program relays what the rest of it is told. -/
theorem Relays.bind {p : Prog Res B} {f : B → Prog Res A} (hp : p.All (fun o => ∀ r, told o r = []))
    (hf : ∀ b, (f b).said words = [] ∧ (f b).Relays told words) :
    (p >>= f).said words = [] ∧ (p >>= f).Relays told words := by
  induction p with
  | ret b => exact hf b
  | call o next ih =>
    refine ⟨rfl, fun r => ?_⟩
    obtain ⟨hsaid, hrelays⟩ := ih r (hp.2 r)
    exact ⟨hsaid.trans (hp.1 r).symm, hrelays⟩

end relays

end Prog

/-- A shared state and the programs that run over it, numbered by their order
of arrival. -/
structure Config {Op : Type} (Res : Op → Type) (A S : Type) where
  state : S
  procs : List (Prog Res A)

section interleaving

variable {Op : Type} {Res : Op → Type} {A S : Type} (exec : (o : Op) → S → Res o × S)

/-- One step of an interleaved run: a new program arrives, or one program makes
its next call. `new` says which programs may arrive and `may` which calls are
made, by whom and in which configurations. -/
inductive Step (new : Prog Res A → Prop) (may : Config Res A S → Nat → Op → Prop) :
    Config Res A S → Config Res A S → Prop where
  | arrive (s : S) (ps : List (Prog Res A)) (p : Prog Res A) (hnew : new p) :
      Step new may ⟨s, ps⟩ ⟨s, ps ++ [p]⟩
  | advance (s : S) (ps : List (Prog Res A)) (i : Nat) (o : Op) (next : Res o → Prog Res A)
      (hproc : ps[i]? = some (.call o next)) (hmay : may ⟨s, ps⟩ i o) :
      Step new may ⟨s, ps⟩ ⟨(exec o s).2, ps.set i (next (exec o s).1)⟩

/-- Any number of steps. -/
def Steps (new : Prog Res A → Prop) (may : Config Res A S → Nat → Op → Prop) :
    Config Res A S → Config Res A S → Prop :=
  Relation.ReflTransGen (Step exec new may)

variable {exec} {new : Prog Res A → Prop} {may : Config Res A S → Nat → Op → Prop}

theorem Steps.mono {new' : Prog Res A → Prop} {may' : Config Res A S → Nat → Op → Prop}
    {c d : Config Res A S} (h : Steps exec new may c d) (hnew : ∀ p, new p → new' p)
    (hmay : ∀ c i o, may c i o → may' c i o) :
    Steps exec new' may' c d := by
  refine Relation.ReflTransGen.mono ?_ _ _ h
  intro x y hstep
  cases hstep with
  | arrive s ps p hp => exact .arrive s ps p (hnew p hp)
  | advance s ps i o next hproc hm => exact .advance s ps i o next hproc (hmay _ i o hm)

/-- Every call of a run is made in a configuration that the run passes. -/
theorem Steps.between {c d : Config Res A S} (h : Steps exec new may c d) :
    Steps exec new (fun e i o => may e i o ∧ Steps exec new may c e ∧
      Steps exec new may e d) c d := by
  induction h with
  | refl => exact Relation.ReflTransGen.refl
  | tail hbefore hstep ih =>
    have hpassed := Steps.mono ih (fun _ hp => hp) (fun e i o hpassed =>
      (⟨hpassed.1, hpassed.2.1, hpassed.2.2.tail hstep⟩ : may e i o ∧ _ ∧ _))
    refine hpassed.tail ?_
    cases hstep with
    | arrive s ps p hp => exact .arrive s ps p hp
    | advance s ps i o next hproc hmay =>
      exact .advance s ps i o next hproc
        ⟨hmay, hbefore, Relation.ReflTransGen.single (.advance s ps i o next hproc hmay)⟩

theorem Steps.length_le {c d : Config Res A S} (h : Steps exec new may c d) :
    c.procs.length ≤ d.procs.length := by
  induction h with
  | refl => exact Nat.le_refl _
  | tail _ hstep ih =>
    refine Nat.le_trans ih ?_
    cases hstep with
    | arrive s ps p hp => simp
    | advance s ps i o next hproc hmay => simp

/-- A program that is scheduled to its end without interruption. -/
theorem Steps.finish {s : S} {ps : List (Prog Res A)} {i : Nat} {p : Prog Res A}
    (hp : ps[i]? = some p) (hmay : p.Along exec (fun o s => ∀ qs, may ⟨s, qs⟩ i o) s) :
    Steps exec new may ⟨s, ps⟩ ⟨(p.run exec s).2, ps.set i (.ret (p.run exec s).1)⟩ := by
  have hlt : i < ps.length := (List.getElem?_eq_some_iff.mp hp).1
  induction p generalizing s ps with
  | ret a =>
    rw [show ps.set i (.ret ((Prog.ret a).run exec s).1) = ps from ?_]
    · exact Relation.ReflTransGen.refl
    · obtain ⟨hlt, hget⟩ := List.getElem?_eq_some_iff.mp hp
      exact (congrArg (ps.set i) hget.symm).trans (List.set_getElem_self hlt)
  | call o next ih =>
    refine Relation.ReflTransGen.head (.advance s ps i o next hp (hmay.1 ps)) ?_
    have hset : (ps.set i (next (exec o s).1))[i]? = some (next (exec o s).1) :=
      List.getElem?_set_self hlt
    have hrest := ih (exec o s).1 hset hmay.2 (by rwa [List.length_set])
    rwa [List.set_set] at hrest

/-- A program that arrives and is scheduled to its end at once. -/
theorem Steps.arrive_finish {s : S} {ps : List (Prog Res A)} {p : Prog Res A} (hnew : new p)
    (hmay : p.Along exec (fun o s => ∀ qs, may ⟨s, qs⟩ ps.length o) s) :
    Steps exec new may ⟨s, ps⟩ ⟨(p.run exec s).2, ps ++ [.ret (p.run exec s).1]⟩ := by
  have hlast : (ps ++ [p])[ps.length]? = some p := List.getElem?_concat_length
  have hfinish : Steps exec new may ⟨s, ps ++ [p]⟩
    ⟨(p.run exec s).2, (ps ++ [p]).set ps.length (.ret (p.run exec s).1)⟩ :=
    Steps.finish hlast hmay
  rw [List.set_append_right _ _ (Nat.le_refl _), Nat.sub_self] at hfinish
  exact Relation.ReflTransGen.head (.arrive s ps p hnew) hfinish

/-- Programs that arrive one after another. -/
theorem Steps.arrive_all {ps : List (Prog Res A)} (hnew : ∀ p ∈ ps, new p) (s : S)
    (qs : List (Prog Res A)) :
    Steps exec new may ⟨s, qs⟩ ⟨s, qs ++ ps⟩ := by
  induction ps generalizing qs with
  | nil => exact (List.append_nil qs).symm ▸ Relation.ReflTransGen.refl
  | cons p ps ih =>
    have hrest := ih (fun q hq => hnew q (List.mem_cons_of_mem _ hq)) (qs ++ [p])
    rw [List.append_assoc, List.singleton_append] at hrest
    exact Relation.ReflTransGen.head (.arrive s qs p (hnew p List.mem_cons_self)) hrest

/-- A program of which the others' calls change nothing ends as if it had run alone. -/
theorem Steps.solo {c d : Config Res A S} {p : Prog Res A} {a : A} {k : Nat}
    (h : Steps exec new (fun e i o => i ≠ k → (exec o e.state).2 = e.state) c d)
    (hp : c.procs[k]? = some p) (hend : d.procs[k]? = some (.ret a)) :
    p.run exec c.state = (a, d.state) := by
  have hsame : ∃ q, d.procs[k]? = some q ∧ p.run exec c.state = q.run exec d.state := by
    clear hend
    induction h with
    | refl => exact ⟨p, hp, rfl⟩
    | tail _ hstep ih =>
      obtain ⟨q, hq, hrun⟩ := ih
      cases hstep with
      | arrive s ps p' hp' =>
        exact ⟨q, by rw [List.getElem?_append_left (List.getElem?_eq_some_iff.mp hq).1]; exact hq, hrun⟩
      | advance s ps i o next hproc hmay =>
        by_cases hi : i = k
        · subst hi
          rw [hproc, Option.some.injEq] at hq
          subst hq
          exact ⟨_, List.getElem?_set_self (List.getElem?_eq_some_iff.mp hproc).1, hrun⟩
        · refine ⟨q, by rw [List.getElem?_set_ne hi]; exact hq, hrun.trans ?_⟩
          rw [hmay hi]
  obtain ⟨q, hq, hrun⟩ := hsame
  rw [hend, Option.some.injEq] at hq
  rw [hrun, ← hq]
  rfl

variable (exec) in
/-- The configuration after one program has made its next call, if it has one. -/
def Config.advance (c : Config Res A S) (i : Nat) : Config Res A S :=
  match c.procs[i]? with
  | some (.call o next) => ⟨(exec o c.state).2, c.procs.set i (next (exec o c.state).1)⟩
  | _ => c

variable (exec) in
/-- The configuration after programs have made their calls in the given order. -/
def Config.schedule (c : Config Res A S) (order : List Nat) : Config Res A S :=
  order.foldl (Config.advance exec) c

variable (exec may) in
/-- The calls that programs make in the given order satisfy a condition. -/
def Config.Allowed : Config Res A S → List Nat → Prop
  | _, [] => True
  | c, i :: rest => (match c.procs[i]? with
    | some (.call o _) => may c i o
    | _ => True) ∧ Config.Allowed (c.advance exec i) rest

instance Config.decidableAllowed [∀ c i o, Decidable (may c i o)] :
    (order : List Nat) → (c : Config Res A S) → Decidable (c.Allowed exec may order)
  | [], _ => isTrue trivial
  | i :: rest, c =>
    have : Decidable (match c.procs[i]? with
      | some (.call o _) => may c i o
      | _ => True) := by
      split
      · exact inferInstance
      · exact isTrue trivial
    @instDecidableAnd _ _ this (Config.decidableAllowed rest (c.advance exec i))

theorem Config.allowed_of_forall (hmay : ∀ c i o, may c i o) (order : List Nat)
    (c : Config Res A S) :
    c.Allowed exec may order := by
  induction order generalizing c with
  | nil => trivial
  | cons i rest ih =>
    refine ⟨?_, ih _⟩
    split
    · exact hmay _ _ _
    · trivial

theorem Steps.schedule {order : List Nat} {c : Config Res A S} (hmay : c.Allowed exec may order) :
    Steps exec new may c (c.schedule exec order) := by
  induction order generalizing c with
  | nil => exact Relation.ReflTransGen.refl
  | cons i rest ih =>
    obtain ⟨hcall, hrest⟩ := hmay
    refine Relation.ReflTransGen.trans ?_ (ih hrest)
    unfold Config.advance
    split
    · rename_i o next hproc
      rw [hproc] at hcall
      exact Relation.ReflTransGen.single (.advance c.state c.procs i o next hproc hcall)
    · exact Relation.ReflTransGen.refl

/-- In a run of programs that all satisfy a condition, every call satisfies it. -/
theorem Steps.all {φ : Op → Prop} {c d : Config Res A S} (h : Steps exec new may c d)
    (hnew : ∀ p, new p → p.All φ) (hprocs : ∀ p ∈ c.procs, p.All φ) :
    Steps exec new (fun c i o => may c i o ∧ φ o) c d ∧ ∀ p ∈ d.procs, p.All φ := by
  induction h with
  | refl => exact ⟨Relation.ReflTransGen.refl, hprocs⟩
  | tail _ hstep ih =>
    obtain ⟨hsteps, hall⟩ := ih
    cases hstep with
    | arrive s ps p hp =>
      refine ⟨hsteps.tail (.arrive s ps p hp), fun q hq => ?_⟩
      obtain hq | hq := List.mem_append.mp hq
      · exact hall q hq
      · exact List.mem_singleton.mp hq ▸ hnew p hp
    | advance s ps i o next hproc hmay =>
      have hcall : (Prog.call o next).All φ := hall _ (List.mem_of_getElem? hproc)
      refine ⟨hsteps.tail (.advance s ps i o next hproc ⟨hmay, hcall.1⟩), fun q hq => ?_⟩
      obtain hq | rfl := List.mem_or_eq_of_mem_set hq
      · exact hall q hq
      · exact hcall.2 _

/-- Where the programs that arrive all satisfy a condition, every call of theirs does. -/
theorem Steps.arrived {φ : Op → Prop} {c d : Config Res A S} (h : Steps exec new may c d)
    (hnew : ∀ p, new p → p.All φ) :
    Steps exec new (fun e i o => may e i o ∧ (c.procs.length ≤ i → φ o)) c d := by
  refine (?_ : Steps exec new (fun e i o => may e i o ∧ (c.procs.length ≤ i → φ o)) c d ∧
    ∀ i p, c.procs.length ≤ i → d.procs[i]? = some p → p.All φ).1
  induction h with
  | refl =>
    refine ⟨Relation.ReflTransGen.refl, fun i p hi hp => ?_⟩
    rw [List.getElem?_eq_none hi] at hp
    cases hp
  | tail _ hstep ih =>
    obtain ⟨hsteps, hall⟩ := ih
    cases hstep with
    | arrive s ps p hp =>
      refine ⟨hsteps.tail (.arrive s ps p hp), fun i q hi hq => ?_⟩
      by_cases hlt : i < ps.length
      · rw [List.getElem?_append_left hlt] at hq
        exact hall i q hi hq
      · rw [List.getElem?_append_right (Nat.le_of_not_lt hlt)] at hq
        exact List.mem_singleton.mp (List.mem_of_getElem? hq) ▸ hnew p hp
    | advance s ps i o next hproc hmay =>
      have hcall : c.procs.length ≤ i → (Prog.call o next).All φ := fun hi => hall i _ hi hproc
      refine ⟨hsteps.tail (.advance s ps i o next hproc ⟨hmay, fun hi => (hcall hi).1⟩),
        fun j q hj hq => ?_⟩
      by_cases hij : i = j
      · subst hij
        rw [List.getElem?_set_self (List.getElem?_eq_some_iff.mp hproc).1, Option.some.injEq] at hq
        exact hq ▸ (hcall hj).2 _
      · rw [List.getElem?_set_ne hij] at hq
        exact hall j q hj hq

section relays

variable {L : Type} {told : (o : Op) → Res o → List L} {words : A → List L}

/-- What the programs have said that have ended. -/
def Config.Said (words : A → List L) (c : Config Res A S) (e : L) : Prop :=
  ∃ p ∈ c.procs, e ∈ p.said words

/-- In a run of programs that relay what they are told, each step adds to what has been
said what it tells. -/
theorem Steps.relay {I : S → (L → Prop) → Prop} {c d : Config Res A S} (h : Steps exec new may c d)
    (hnew : ∀ p, new p → p.said words = [] ∧ p.Relays told words)
    (hprocs : ∀ p ∈ c.procs, p.Relays told words)
    (hcall : ∀ e i o next, e.procs[i]? = some (.call o next) → may e i o →
    I e.state (e.Said words) →
      I (exec o e.state).2 (fun x => e.Said words x ∨ x ∈ told o (exec o e.state).1))
    (hstart : I c.state (c.Said words)) : I d.state (d.Said words) := by
  refine (?_ : (∀ p ∈ d.procs, p.Relays told words) ∧ I d.state (d.Said words)).2
  induction h with
  | refl => exact ⟨hprocs, hstart⟩
  | tail _ hstep ih =>
    obtain ⟨hrelays, hI⟩ := ih
    cases hstep with
    | arrive s ps p hp =>
      obtain ⟨hsaid, hrelay⟩ := hnew p hp
      refine ⟨fun q hq => ?_, ?_⟩
      · obtain hq | hq := List.mem_append.mp hq
        · exact hrelays q hq
        · exact List.mem_singleton.mp hq ▸ hrelay
      · have hsame : (⟨s, ps ++ [p]⟩ : Config Res A S).Said words = (⟨s, ps⟩ : Config Res A S).Said words := by
          funext x
          simp [Config.Said, or_and_right, exists_or, hsaid]
        rw [hsame]
        exact hI
    | advance s ps i o next hproc hmay =>
      obtain ⟨hsaid, hrelay⟩ := hrelays _ (List.mem_of_getElem? hproc) (exec o s).1
      refine ⟨fun q hq => ?_, ?_⟩
      · obtain hq | rfl := List.mem_or_eq_of_mem_set hq
        · exact hrelays q hq
        · exact hrelay
      · have hadds : (⟨(exec o s).2, ps.set i (next (exec o s).1)⟩ : Config Res A S).Said words =
            fun x => (⟨s, ps⟩ : Config Res A S).Said words x ∨ x ∈ told o (exec o s).1 := by
          funext x
          refine propext ⟨?_, ?_⟩
          · rintro ⟨q, hq, hx⟩
            obtain hq | rfl := List.mem_or_eq_of_mem_set hq
            · exact Or.inl ⟨q, hq, hx⟩
            · exact Or.inr (hsaid ▸ hx)
          · rintro (⟨q, hq, hx⟩ | hx)
            · -- the program that made the call had not said anything
              obtain ⟨j, hj, rfl⟩ := List.mem_iff_getElem.mp hq
              have hne : i ≠ j := by
                rintro rfl
                rw [(List.getElem?_eq_some_iff.mp hproc).2] at hx
                cases hx
              exact ⟨_, List.mem_iff_getElem.mpr
                ⟨j, by rwa [List.length_set], List.getElem_set_ne hne _⟩, hx⟩
            · exact ⟨_, List.mem_set (List.getElem?_eq_some_iff.mp hproc).1 _, hsaid ▸ hx⟩
        rw [hadds]
        exact hcall _ i o next hproc hmay hI

end relays

end interleaving

/-- What a program may own while it runs, and what the others leave alone for
it: `rely t` relates the states before and after a call of a program that does
not own `t`. -/
structure Ownership (T S : Type) where
  held : T → S → Prop
  apart : T → T → Prop
  rely : T → S → S → Prop
  apart_symm : ∀ {t u}, apart t u → apart u t
  held_of_rely : ∀ {t s s'}, held t s → rely t s s' → held t s'

namespace Ownership

variable {Op : Type} {Res : Op → Type} {A B T S : Type}
variable (own : Ownership T S) (exec : (o : Op) → S → Res o × S) (may : Op → S → Prop)
  (inv : S → Prop)

/-- An assertion that the calls of other programs keep. -/
def Stable (t : T) (P : S → Prop) : Prop :=
  ∀ s s', inv s → own.held t s → own.rely t s s' → P s → P s'

/-- What one call of the owner of `t` has to keep, and what it owns afterwards. -/
structure Kept (t t' : T) (s s' : S) : Prop where
  inv : inv s'
  rely : ∀ u, own.apart t u → own.held u s → own.rely u s s'
  held : own.held t' s'
  apart : ∀ u, own.apart t u → own.held u s → own.apart t' u

/-- The program keeps the invariant and what the others rely on at each of its
calls, when started with `t` owned and `P` asserted; `post` holds of its
result, what it then owns and what is then asserted. -/
def Keeps (post : A → T → (S → Prop) → Prop) : Prog Res A → T → (S → Prop) → Prop
  | .ret a, t, P => post a t P
  | .call o next, t, P => ∀ s, inv s → own.held t s → P s → may o s →
      ∃ t' P', own.Kept inv t t' s (exec o s).2 ∧ own.Stable inv t' P' ∧ P' (exec o s).2 ∧
        Keeps post (next (exec o s).1) t' P'

variable {own exec may inv}

theorem keeps_bind {post : B → T → (S → Prop) → Prop} {p : Prog Res A} {f : A → Prog Res B} {t : T}
    {P : S → Prop} :
    own.Keeps exec may inv post (p >>= f) t P ↔
      own.Keeps exec may inv (fun a t' P' => own.Keeps exec may inv post (f a) t' P') p t P := by
  induction p generalizing t P with
  | ret a => rfl
  | call o next ih =>
    constructor
    · intro h s hs ht hP hmay
      obtain ⟨t', P', hkept, hstable, hP', hrest⟩ := h s hs ht hP hmay
      exact ⟨t', P', hkept, hstable, hP', (ih _).mp hrest⟩
    · intro h s hs ht hP hmay
      obtain ⟨t', P', hkept, hstable, hP', hrest⟩ := h s hs ht hP hmay
      exact ⟨t', P', hkept, hstable, hP', (ih _).mpr hrest⟩

theorem Keeps.weaken_post {post post' : A → T → (S → Prop) → Prop} {p : Prog Res A} {t : T}
    {P : S → Prop} (h : own.Keeps exec may inv post p t P)
    (hpost : ∀ a t P, post a t P → post' a t P) :
    own.Keeps exec may inv post' p t P := by
  induction p generalizing t P with
  | ret a => exact hpost a t P h
  | call o next ih =>
    intro s hs ht hP hmay
    obtain ⟨t', P', hkept, hstable, hP', hrest⟩ := h s hs ht hP hmay
    exact ⟨t', P', hkept, hstable, hP', ih _ hrest⟩

theorem Keeps.weaken_may {may' : Op → S → Prop} {post : A → T → (S → Prop) → Prop} {p : Prog Res A}
    {t : T} {P : S → Prop} (h : own.Keeps exec may inv post p t P)
    (hmay : ∀ o s, may' o s → may o s) :
    own.Keeps exec may' inv post p t P := by
  induction p generalizing t P with
  | ret a => exact h
  | call o next ih =>
    intro s hs ht hP hm
    obtain ⟨t', P', hkept, hstable, hP', hrest⟩ := h s hs ht hP (hmay o s hm)
    exact ⟨t', P', hkept, hstable, hP', ih _ hrest⟩

/-- Every program of the configuration keeps its part, with the tokens of
different programs apart; programs that have not arrived yet hold `free`. -/
structure Placed (own : Ownership T S) (exec : (o : Op) → S → Res o × S) (may : Nat → Op → S → Prop)
    (I : S → Prop) (free : T) (post : Nat → A → T → (S → Prop) → Prop) (c : Config Res A S)
    (token : Nat → T) : Prop where
  inv : I c.state
  held : ∀ i, own.held (token i) c.state
  apart : ∀ i j, i ≠ j → own.apart (token i) (token j)
  idle : ∀ i, c.procs.length ≤ i → token i = free
  keeps : ∀ i p, c.procs[i]? = some p → ∃ P, own.Stable I (token i) P ∧ P c.state ∧
    own.Keeps exec (may i) I (post i) p (token i) P

variable {may : Nat → Op → S → Prop} {free : T} {post : Nat → A → T → (S → Prop) → Prop}

/-- A call of one program of a well-placed configuration is seen by every other
owner as the call of a stranger, and leaves the configuration well placed. -/
theorem Placed.advance {token : Nat → T} {s : S} {ps : List (Prog Res A)}
    (h : Placed own exec may inv free post ⟨s, ps⟩ token) {i : Nat} {o : Op}
    {next : Res o → Prog Res A} (hproc : ps[i]? = some (.call o next)) (hmay : may i o s) :
    (∀ u, own.apart (token i) u → own.held u s → own.rely u s (exec o s).2) ∧
      ∃ token', Placed own exec may inv free post
        ⟨(exec o s).2, ps.set i (next (exec o s).1)⟩ token' := by
  obtain ⟨P, _, hP, hkeeps⟩ := h.keeps i _ hproc
  obtain ⟨t', P', hkept, hstable', hP', hrest⟩ := hkeeps s h.inv (h.held i) hP hmay
  have hlt : i < ps.length := (List.getElem?_eq_some_iff.mp hproc).1
  have hother : ∀ j, j ≠ i → own.rely (token j) s (exec o s).2 :=
    fun j hj => hkept.rely _ (h.apart i j (Ne.symm hj)) (h.held j)
  refine ⟨hkept.rely, fun j => if j = i then t' else token j, ⟨hkept.inv, ?_, ?_, ?_, ?_⟩⟩
  · intro j
    by_cases hj : j = i
    · simp only [hj, if_true]
      exact hkept.held
    · simp only [hj, if_false]
      exact own.held_of_rely (h.held j) (hother j hj)
  · intro j k hjk
    by_cases hj : j = i
    · subst hj
      simp only [if_true, if_neg (Ne.symm hjk)]
      exact hkept.apart _ (h.apart j k hjk) (h.held k)
    · by_cases hk : k = i
      · subst hk
        simp only [if_true, if_neg hj]
        exact own.apart_symm (hkept.apart _ (h.apart k j (Ne.symm hj)) (h.held j))
      · simp only [hj, hk, if_false]
        exact h.apart j k hjk
  · intro j hj
    rw [List.length_set] at hj
    rw [if_neg (by omega)]
    exact h.idle j hj
  · intro j p hp
    by_cases hj : j = i
    · subst hj
      rw [List.getElem?_set_self hlt, Option.some.injEq] at hp
      subst hp
      simp only [if_true]
      exact ⟨P', hstable', hP', hrest⟩
    · rw [List.getElem?_set_ne (Ne.symm hj)] at hp
      obtain ⟨Q, hQ, hQs, hq⟩ := h.keeps j p hp
      simp only [hj, if_false]
      exact ⟨Q, hQ, hQ _ _ h.inv (h.held j) (hother j hj) hQs, hq⟩

/-- An arriving program that keeps its part without owning anything leaves the
configuration well placed. -/
theorem Placed.arrive {token : Nat → T} {s : S} {ps : List (Prog Res A)}
    (h : Placed own exec may inv free post ⟨s, ps⟩ token) {p : Prog Res A}
    (hp : own.Keeps exec (may ps.length) inv (post ps.length) p free (fun _ => True)) :
    Placed own exec may inv free post ⟨s, ps ++ [p]⟩ token := by
  refine ⟨h.inv, h.held, h.apart, ?_, ?_⟩
  · intro i hi
    rw [List.length_append] at hi
    exact h.idle i (by simp only; omega)
  · intro i q hq
    by_cases hi : i < ps.length
    · rw [List.getElem?_append_left hi] at hq
      exact h.keeps i q hq
    · have hlen := (List.getElem?_eq_some_iff.mp hq).1
      rw [List.length_append, List.length_singleton] at hlen
      have hieq : i = ps.length := by omega
      subst hieq
      rw [List.getElem?_append_right (Nat.le_refl _), Nat.sub_self, List.getElem?_singleton,
        if_pos rfl,
        Option.some.injEq] at hq
      subst hq
      refine ⟨fun _ => True, fun _ _ _ _ _ _ => trivial, trivial, ?_⟩
      rw [h.idle ps.length (Nat.le_refl _)]
      exact hp

/-- The programs of a well-placed configuration may be known better, and be
assumed to make fewer calls. -/
theorem Placed.weaken {may' : Nat → Op → S → Prop} {post' : Nat → A → T → (S → Prop) → Prop}
    {c : Config Res A S} {token : Nat → T} (h : Placed own exec may inv free post c token)
    (hmay : ∀ i o s, may' i o s → may i o s)
    (hpost : ∀ i a t P, i < c.procs.length → post i a t P → post' i a t P) :
    Placed own exec may' inv free post' c token where
  inv := h.inv
  held := h.held
  apart := h.apart
  idle := h.idle
  keeps i p hp := by
    obtain ⟨P, hstable, hP, hkeeps⟩ := h.keeps i p hp
    have hlt := (List.getElem?_eq_some_iff.mp hp).1
    exact ⟨P, hstable, hP, (hkeeps.weaken_post (fun a t Q => hpost i a t Q hlt)).weaken_may
      (hmay i)⟩

/-- Well-placed configurations stay well placed in every interleaved run. -/
theorem Placed.steps {new : Prog Res A → Prop} {c d : Config Res A S} {token : Nat → T}
    (h : Placed own exec may inv free post c token)
    (hnew : ∀ p, new p → ∀ i, c.procs.length ≤ i →
    own.Keeps exec (may i) inv (post i) p free (fun _ => True))
    (hrun : Steps exec new (fun c i o => may i o c.state) c d) :
    ∃ token', Placed own exec may inv free post d token' := by
  induction hrun with
  | refl => exact ⟨token, h⟩
  | tail hbefore hstep ih =>
    obtain ⟨token', h'⟩ := ih
    cases hstep with
    | arrive s ps p hp => exact ⟨token', h'.arrive (hnew p hp _ (Steps.length_le hbefore))⟩
    | advance s ps i o next hproc hmay => exact (h'.advance hproc hmay).2

/-- A run of well-placed programs is, for an owner whom none of them concerns,
a sequence of strangers' calls. -/
theorem Placed.steps_rely {new : Prog Res A → Prop} {c d : Config Res A S} {token : Nat → T}
    (h : Placed own exec may inv free post c token)
    (hnew : ∀ p, new p → ∀ i, c.procs.length ≤ i →
    own.Keeps exec (may i) inv (post i) p free (fun _ => True))
    (hapart : ∀ t, own.apart t free) (hheld : ∀ s, own.held free s)
    (hrun : Steps exec new (fun c i o => may i o c.state) c d) :
    Relation.ReflTransGen (own.rely free) c.state d.state := by
  induction hrun with
  | refl => exact Relation.ReflTransGen.refl
  | tail hbefore hstep ih =>
    obtain ⟨token', h'⟩ := h.steps hnew hbefore
    cases hstep with
    | arrive s ps p hp => exact ih
    | advance s ps i o next hproc hmay => exact ih.tail ((h'.advance hproc hmay).1 free (hapart _) (hheld _))

end Ownership

/-- Programs that end with a value or an error. -/
abbrev Failing {Op : Type} (Res : Op → Type) (E A : Type) := ExceptT E (Prog Res) A

namespace Failing

variable {Op : Type} {Res : Op → Type} {A B E : Type} {φ : Op → Prop}

/-- Every call that the program may make satisfies a condition. -/
def All (φ : Op → Prop) (p : Failing Res E A) : Prop := p.run.All φ

theorem All.pure {a : A} : All φ (pure a : Failing Res E A) := trivial

theorem All.throw {e : E} : All φ (throw e : Failing Res E A) := trivial

theorem All.bind {p : Failing Res E A} {f : A → Failing Res E B} (hp : All φ p)
    (hf : ∀ a, All φ (f a)) :
    All φ (p >>= f) := by
  refine Prog.All.bind hp (fun r => ?_)
  cases r with
  | ok a => exact hf a
  | error e => trivial

theorem All.map {f : A → B} {p : Failing Res E A} (hp : All φ p) : All φ (f <$> p) := by
  refine Prog.All.bind hp (fun r => ?_)
  cases r with
  | ok a => trivial
  | error e => trivial

theorem All.tryCatch {p : Failing Res E A} {f : E → Failing Res E A} (hp : All φ p)
    (hf : ∀ e, All φ (f e)) :
    All φ (tryCatch p f) := by
  refine Prog.All.bind hp (fun r => ?_)
  cases r with
  | ok a => trivial
  | error e => exact hf e

theorem All.lift {p : Prog Res A} (hp : p.All φ) : All φ (ExceptT.lift p : Failing Res E A) :=
  Prog.All.bind hp (fun _ => trivial)

section run

variable {S : Type} {exec : (o : Op) → S → Res o × S} {s s' : S}

theorem run_map {f : A → B} {p : Failing Res E A} :
    (f <$> p : Failing Res E B).run.run exec s =
    ((p.run.run exec s).1.map f, (p.run.run exec s).2) := by
  show Prog.run exec (p.run >>= _) s = _
  rw [Prog.run_bind]
  cases (p.run.run exec s).1 <;> rfl

theorem run_bind_ok {p : Failing Res E A} {f : A → Failing Res E B} {a : A}
    (h : p.run.run exec s = (.ok a, s')) :
    (p >>= f : Failing Res E B).run.run exec s = (f a).run.run exec s' := by
  show Prog.run exec (p.run >>= _) s = _
  rw [Prog.run_bind, h]
  rfl

theorem run_bind_error {p : Failing Res E A} {f : A → Failing Res E B} {e : E}
    (h : p.run.run exec s = (.error e, s')) :
    (p >>= f : Failing Res E B).run.run exec s = (.error e, s') := by
  show Prog.run exec (p.run >>= _) s = _
  rw [Prog.run_bind, h]
  rfl

theorem run_lift {p : Prog Res A} :
    (ExceptT.lift p : Failing Res E A).run.run exec s =
    (.ok (p.run exec s).1, (p.run exec s).2) := by
  show Prog.run exec (p >>= _) s = _
  rw [Prog.run_bind]
  rfl

/-- A program whose errors are wrapped. -/
theorem run_adapt {E' : Type} {wrap : E → E'} {p : Failing Res E A} :
    (ExceptT.adapt wrap p).run.run exec s =
    ((p.run.run exec s).1.mapError wrap, (p.run.run exec s).2) := by
  show Prog.run exec (p.run >>= _) s = _
  rw [Prog.run_bind]
  rfl

end run

end Failing

namespace Ownership

variable {Op : Type} {Res : Op → Type} {A B E T S : Type}
variable (own : Ownership T S) (exec : (o : Op) → S → Res o × S) (may : Op → S → Prop)
  (inv : S → Prop)

/-- Started with `t` owned and `P` asserted, the program keeps its part, and at
its end `Q` relates its result, what it owns then and the state. -/
def Triple (t : T) (P : S → Prop) (p : Prog Res A) (Q : A → T → S → Prop) : Prop :=
  own.Keeps exec may inv (fun a t' P' => ∀ s, inv s → own.held t' s → P' s → Q a t' s) p t P

/-- A triple with one assertion for values and one for errors. -/
def FailingTriple (t : T) (P : S → Prop) (p : Failing Res E A) (Q : A → T → S → Prop)
    (R : E → T → S → Prop) : Prop :=
  own.Triple exec may inv t P p.run (fun r t' s => match r with
    | .ok a => Q a t' s
    | .error e => R e t' s)

variable {own exec may inv} {t : T} {P : S → Prop}

theorem Triple.ret {a : A} {Q : A → T → S → Prop} (h : ∀ s, inv s → own.held t s → P s → Q a t s) :
    own.Triple exec may inv t P (.ret a) Q := h

theorem Triple.call {o : Op} {next : Res o → Prog Res A} {Q : A → T → S → Prop}
    (h : ∀ s, inv s → own.held t s → P s → may o s → ∃ t' P', own.Kept inv t t' s (exec o s).2 ∧
      own.Stable inv t' P' ∧ P' (exec o s).2 ∧ own.Triple exec may inv t' P'
        (next (exec o s).1) Q) :
    own.Triple exec may inv t P (.call o next) Q := h

/-- A stronger assertion at the start, a weaker one at the end. -/
theorem Triple.weaken {P' : S → Prop} {Q Q' : A → T → S → Prop} {p : Prog Res A}
    (h : own.Triple exec may inv t P p Q) (hP : ∀ s, inv s → own.held t s → P' s → P s)
    (hQ : ∀ a t s, inv s → own.held t s → Q a t s → Q' a t s) :
    own.Triple exec may inv t P' p Q' := by
  induction p generalizing t P P' with
  | ret a => exact fun s hs ht hp => hQ a t s hs ht (h s hs ht (hP s hs ht hp))
  | call o next ih =>
    intro s hs ht hp hmay
    obtain ⟨t', P'', hkept, hstable, hP'', hrest⟩ := h s hs ht (hP s hs ht hp) hmay
    exact ⟨t', P'', hkept, hstable, hP'', ih _ hrest (fun _ _ _ hp => hp)⟩

theorem Triple.bind {p : Prog Res A} {f : A → Prog Res B} {Q : A → T → S → Prop}
    {R : B → T → S → Prop} (h : own.Triple exec may inv t P p Q)
    (hf : ∀ a t', own.Triple exec may inv t' (Q a t') (f a) R) :
    own.Triple exec may inv t P (p >>= f) R := by
  unfold Triple at h ⊢
  rw [keeps_bind]
  refine h.weaken_post (fun a t' P' hP' => ?_)
  exact (hf a t').weaken (fun s hs ht hp => hP' s hs ht hp) (fun _ _ _ _ _ hr => hr)

/-- A fact that does not depend on the state moves out of the assertion. -/
theorem Triple.of_fact {φ : Prop} {p : Prog Res A} {Q : A → T → S → Prop}
    (h : φ → own.Triple exec may inv t P p Q) :
    own.Triple exec may inv t (fun s => φ ∧ P s) p Q := by
  cases p with
  | ret a => exact fun s hs ht hp => h hp.1 s hs ht hp.2
  | call o next => exact fun s hs ht hp hmay => h hp.1 s hs ht hp.2 hmay

theorem Triple.of_exists {X : Type} {P : X → S → Prop} {p : Prog Res A} {Q : A → T → S → Prop}
    (h : ∀ x, own.Triple exec may inv t (P x) p Q) :
    own.Triple exec may inv t (fun s => ∃ x, P x s) p Q := by
  cases p with
  | ret a => exact fun s hs ht ⟨x, hx⟩ => h x s hs ht hx
  | call o next => exact fun s hs ht ⟨x, hx⟩ hmay => h x s hs ht hx hmay

/-- What holds of a program among others holds of it when it runs alone. -/
theorem Triple.run {p : Prog Res A} {Q : A → T → S → Prop} (h : own.Triple exec may inv t P p Q)
    (hmay : ∀ o s, may o s) {s : S} (hs : inv s) (ht : own.held t s) (hP : P s) :
    ∃ t', inv (p.run exec s).2 ∧ own.held t' (p.run exec s).2 ∧
    Q (p.run exec s).1 t' (p.run exec s).2 := by
  induction p generalizing t P s with
  | ret a => exact ⟨t, hs, ht, h s hs ht hP⟩
  | call o next ih =>
    obtain ⟨t', P', hkept, _, hP', hrest⟩ := h s hs ht hP (hmay o s)
    exact ih _ hrest hkept.inv hkept.held hP'

theorem FailingTriple.pure {a : A} {Q : A → T → S → Prop} {R : E → T → S → Prop}
    (h : ∀ s, inv s → own.held t s → P s → Q a t s) :
    own.FailingTriple exec may inv t P (pure a : Failing Res E A) Q R := h

theorem FailingTriple.throw {e : E} {Q : A → T → S → Prop} {R : E → T → S → Prop}
    (h : ∀ s, inv s → own.held t s → P s → R e t s) :
    own.FailingTriple exec may inv t P (throw e : Failing Res E A) Q R := h

theorem FailingTriple.weaken {P' : S → Prop} {Q Q' : A → T → S → Prop} {R R' : E → T → S → Prop}
    {p : Failing Res E A} (h : own.FailingTriple exec may inv t P p Q R)
    (hP : ∀ s, inv s → own.held t s → P' s → P s)
    (hQ : ∀ a t s, inv s → own.held t s → Q a t s → Q' a t s)
    (hR : ∀ e t s, inv s → own.held t s → R e t s → R' e t s) :
    own.FailingTriple exec may inv t P' p Q' R' := by
  refine Triple.weaken h hP (fun r t' s hs ht hr => ?_)
  cases r with
  | ok a => exact hQ a t' s hs ht hr
  | error e => exact hR e t' s hs ht hr

theorem FailingTriple.bind {p : Failing Res E A} {f : A → Failing Res E B} {Q : A → T → S → Prop}
    {Q' : B → T → S → Prop} {R : E → T → S → Prop} (h : own.FailingTriple exec may inv t P p Q R)
    (hf : ∀ a t', own.FailingTriple exec may inv t' (Q a t') (f a) Q' R) :
    own.FailingTriple exec may inv t P (p >>= f) Q' R := by
  refine Triple.bind h (fun r t' => ?_)
  cases r with
  | ok a => exact hf a t'
  | error e => exact fun s _ _ hr => hr

theorem FailingTriple.tryCatch {p : Failing Res E A} {f : E → Failing Res E A}
    {Q : A → T → S → Prop} {R R' : E → T → S → Prop} (h : own.FailingTriple exec may inv t P p Q R')
    (hf : ∀ e t', own.FailingTriple exec may inv t' (R' e t') (f e) Q R) :
    own.FailingTriple exec may inv t P (tryCatch p f) Q R := by
  refine Triple.bind h (fun r t' => ?_)
  cases r with
  | ok a => exact fun s _ _ hr => hr
  | error e => exact hf e t'

theorem FailingTriple.map {f : A → B} {p : Failing Res E A} {Q : B → T → S → Prop}
    {R : E → T → S → Prop} (h : own.FailingTriple exec may inv t P p (fun a => Q (f a)) R) :
    own.FailingTriple exec may inv t P (f <$> p) Q R := by
  refine Triple.bind h (fun r t' => ?_)
  cases r with
  | ok a => exact fun s _ _ hr => hr
  | error e => exact fun s _ _ hr => hr

theorem FailingTriple.lift {p : Prog Res A} {Q : A → T → S → Prop} {R : E → T → S → Prop}
    (h : own.Triple exec may inv t P p Q) :
    own.FailingTriple exec may inv t P (ExceptT.lift p : Failing Res E A) Q R :=
  Triple.bind h (fun _ _ => fun _ _ _ hr => hr)

theorem FailingTriple.of_fact {φ : Prop} {p : Failing Res E A} {Q : A → T → S → Prop}
    {R : E → T → S → Prop} (h : φ → own.FailingTriple exec may inv t P p Q R) :
    own.FailingTriple exec may inv t (fun s => φ ∧ P s) p Q R :=
  Triple.of_fact h

theorem FailingTriple.of_exists {X : Type} {P : X → S → Prop} {p : Failing Res E A}
    {Q : A → T → S → Prop} {R : E → T → S → Prop}
    (h : ∀ x, own.FailingTriple exec may inv t (P x) p Q R) :
    own.FailingTriple exec may inv t (fun s => ∃ x, P x s) p Q R := Triple.of_exists h

/-- One call: what it leads to has to be stable. -/
theorem FailingTriple.perform (o : Op) (f : Res o → Except E A) {Q : A → T → S → Prop}
    {R : E → T → S → Prop} (h : ∀ s, inv s → own.held t s → P s → may o s → ∃ t',
    own.Kept inv t t' s (exec o s).2 ∧
      match f (exec o s).1 with
      | .ok a => own.Stable inv t' (Q a t') ∧ Q a t' (exec o s).2
      | .error e => own.Stable inv t' (R e t') ∧ R e t' (exec o s).2) :
    own.FailingTriple exec may inv t P (ExceptT.mk (.call o (fun r => .ret (f r)))) Q R := by
  intro s hs ht hP hmay
  obtain ⟨t', hkept, hres⟩ := h s hs ht hP hmay
  cases hr : f (exec o s).1 with
  | ok a =>
    rw [hr] at hres
    refine ⟨t', Q a t', hkept, hres.1, hres.2, fun s' _ _ hQ => ?_⟩
    simp only [hr]
    exact hQ
  | error e =>
    rw [hr] at hres
    refine ⟨t', R e t', hkept, hres.1, hres.2, fun s' _ _ hR => ?_⟩
    simp only [hr]
    exact hR

end Ownership
