import Fslite.Resumption

namespace Prog

variable {Op S : Type} {Res : Op → Type} {A B : Type} {φ : Op → Prop}

/-- Whatever its calls are answered, the program's result satisfies a condition. -/
def Ends (Q : A → Prop) : Prog Res A → Prop
  | ret a => Q a
  | call _ next => ∀ r, (next r).Ends Q

theorem Ends.bind {Q : A → Prop} {Q' : B → Prop} {p : Prog Res A} {f : A → Prog Res B}
    (hp : p.Ends Q) (hf : ∀ a, Q a → (f a).Ends Q') : (p >>= f).Ends Q' := by
  induction p with
  | ret a => exact hf a hp
  | call o next ih => exact fun r => ih r (hp r)

theorem Ends.of_forall {Q : A → Prop} (h : ∀ a, Q a) (p : Prog Res A) : p.Ends Q := by
  induction p with
  | ret a => exact h a
  | call o next ih => exact fun r => ih r

/-- The program makes at most one call. -/
def Single : Prog Res A → Prop
  | ret _ => True
  | call _ next => ∀ r, ∃ a, next r = ret a

theorem Single.bind_ret {p : Prog Res A} {f : A → Prog Res B} (hp : p.Single)
    (hf : ∀ a, ∃ b, f a = ret b) : (p >>= f).Single := by
  cases p with
  | ret a =>
    obtain ⟨b, hb⟩ := hf a
    rw [ret_bind, hb]
    trivial
  | call o next =>
    intro r
    obtain ⟨a, ha⟩ := hp r
    obtain ⟨b, hb⟩ := hf a
    refine ⟨b, ?_⟩
    show (next r).bind f = ret b
    rw [ha]
    exact hb

/-- An answer that a call can give in a sound state when it does not leave the state as it was. -/
def Changed (exec : (o : Op) → S → Res o × S) (inv : S → Prop) (same : S → S → Prop) (o : Op)
    (r : Res o) : Prop :=
  ∃ s, inv s ∧ (exec o s).1 = r ∧ ¬ same s (exec o s).2

variable {changed : (o : Op) → Res o → Prop} {failed : A → Prop} {failed' : B → Prop}

/-- The program makes at most one decisive call, and once that has changed something, the
program does not fail. -/
def Atomic (φ : Op → Prop) (changed : (o : Op) → Res o → Prop) (failed : A → Prop) :
    Prog Res A → Prop
  | ret _ => True
  | call o next => (¬ φ o ∧ ∀ r, (next r).Atomic φ changed failed) ∨
    ∀ r, (next r).All (fun o => ¬ φ o) ∧ (changed o r → (next r).Ends (fun a => ¬ failed a))

namespace Atomic

theorem of_all {p : Prog Res A} (h : p.All (fun o => ¬ φ o)) : p.Atomic φ changed failed := by
  induction p with
  | ret a => trivial
  | call o next ih => exact Or.inl ⟨h.1, fun r => ih r (h.2 r)⟩

/-- The decisive call may come after calls that are not. -/
theorem after {p : Prog Res A} {f : A → Prog Res B} (hp : p.All (fun o => ¬ φ o))
    (hf : ∀ a, (f a).Atomic φ changed failed') : (p >>= f).Atomic φ changed failed' := by
  induction p with
  | ret a => exact hf a
  | call o next ih => exact Or.inl ⟨hp.1, fun r => ih r (hp.2 r)⟩

/-- What comes after it makes no such call, and no failure of a success. -/
theorem bind {p : Prog Res A} {f : A → Prog Res B} (hp : p.Atomic φ changed failed)
    (hf : ∀ a, (f a).All (fun o => ¬ φ o))
    (hends : ∀ a, ¬ failed a → (f a).Ends (fun b => ¬ failed' b)) :
    (p >>= f).Atomic φ changed failed' := by
  induction p with
  | ret a => exact of_all (hf a)
  | call o next ih =>
    obtain ⟨hnot, hnext⟩ | hnext := hp
    · exact Or.inl ⟨hnot, fun r => ih r (hnext r)⟩
    · exact Or.inr (fun r => ⟨(hnext r).1.bind hf, fun hchanged => ((hnext r).2 hchanged).bind hends⟩)

/-- A program that makes at most one call is atomic if alone it changes nothing when it fails. -/
theorem of_single {exec : (o : Op) → S → Res o × S} {inv : S → Prop} {same : S → S → Prop}
    {p : Prog Res A} (hsingle : p.Single)
    (halone : ∀ s, inv s → failed (p.run exec s).1 → same s (p.run exec s).2) :
    p.Atomic φ (Changed exec inv same) failed := by
  cases p with
  | ret a => trivial
  | call o next =>
    refine Or.inr (fun r => ?_)
    obtain ⟨a, ha⟩ := hsingle r
    rw [ha]
    refine ⟨trivial, ?_⟩
    rintro ⟨s, hinv, rfl, hchanged⟩ hfailed
    refine hchanged ?_
    have hrun : (call o next).run exec s = (a, (exec o s).2) := by rw [run_call, ha, run_ret]
    have hsame := halone s hinv
    rw [hrun] at hsame
    exact hsame hfailed

end Atomic

end Prog

namespace Failing

variable {Op S : Type} {Res : Op → Type} {A B E : Type} {φ : Op → Prop}
  {changed : (o : Op) → Res o → Prop}

theorem Single.map {f : A → B} {p : Failing Res E A} (hp : p.run.Single) :
    (f <$> p : Failing Res E B).run.Single :=
  Prog.Single.bind_ret hp (fun r => by cases r <;> exact ⟨_, rfl⟩)

section ends

variable {Q : A → Prop} {Q' : B → Prop} {p : Failing Res E A}

/-- Whatever the calls are answered, a value that is returned satisfies a condition. -/
def Ends (Q : A → Prop) (p : Failing Res E A) : Prop := p.run.Ends (fun r => ∀ a, r = .ok a → Q a)

theorem Ends.pure {a : A} (h : Q a) : Ends Q (pure a : Failing Res E A) := by
  intro b hb
  cases hb
  exact h

theorem Ends.throw {e : E} : Ends Q (throw e : Failing Res E A) := fun _ hb => by cases hb

theorem Ends.bind {f : A → Failing Res E B} (hp : Ends Q p) (hf : ∀ a, Q a → Ends Q' (f a)) :
    Ends Q' (p >>= f) := by
  refine Prog.Ends.bind hp (fun r hr => ?_)
  cases r with
  | ok a => exact hf a (hr a rfl)
  | error e => exact fun _ hb => by cases hb

theorem Ends.tryCatch {f : E → Failing Res E A} (hp : Ends Q p) (hf : ∀ e, Ends Q (f e)) :
    Ends Q (tryCatch p f) := by
  refine Prog.Ends.bind hp (fun r hr => ?_)
  cases r with
  | ok a => exact hr
  | error e => exact hf e

end ends

/-- The result is an error. -/
def Fails (r : Except E A) : Prop := ∃ e, r = .error e

/-- At most one call is decisive, and once that has changed something, there is no error. -/
def Atomic (φ : Op → Prop) (changed : (o : Op) → Res o → Prop) (p : Failing Res E A) : Prop :=
  p.run.Atomic φ changed Fails

namespace Atomic

theorem of_all {p : Failing Res E A} (h : All (fun o => ¬ φ o) p) : Atomic φ changed p :=
  Prog.Atomic.of_all h

theorem after {p : Failing Res E A} {f : A → Failing Res E B} (hp : All (fun o => ¬ φ o) p)
    (hf : ∀ a, Atomic φ changed (f a)) : Atomic φ changed (p >>= f) := by
  refine Prog.Atomic.after hp (fun r => ?_)
  cases r with
  | ok a => exact hf a
  | error e => trivial

theorem map {f : A → B} {p : Failing Res E A} (hp : Atomic φ changed p) :
    Atomic φ changed (f <$> p) := by
  refine Prog.Atomic.bind hp (fun r => ?_) (fun r hnot => ?_)
  · cases r <;> trivial
  · cases r with
    | ok a => exact fun h => by cases h.choose_spec
    | error e => exact absurd ⟨e, rfl⟩ hnot

end Atomic

end Failing

section interleaving

variable {Op S : Type} {Res : Op → Type} {A : Type} {exec : (o : Op) → S → Res o × S}
  {new : Prog Res A → Prop} {φ : Op → Prop} {changed : (o : Op) → Res o → Prop}
  {failed : A → Prop} {same : S → S → Prop}

/-- The calls of one program leave the state as it was. -/
def Config.Quiet (exec : (o : Op) → S → Res o × S) (same : S → S → Prop) (k : Nat)
    (c : Config Res A S) (i : Nat) (o : Op) : Prop :=
  i = k → same c.state (exec o c.state).2

variable (same) in
/-- However its calls are interleaved with those of others, and wherever it is cut off, the calls
of an atomic program change nothing, or all but one of them change nothing, and then it does
not fail. -/
theorem Steps.atomic {may : Config Res A S → Nat → Op → Prop} {c d : Config Res A S}
    {p : Prog Res A} {k : Nat} (hp : c.procs[k]? = some p) (hatomic : p.Atomic φ changed failed)
    (h : Steps exec new (fun e i o => may e i o ∧ (i = k → same e.state (exec o e.state).2 ∨
      φ o ∧ changed o (exec o e.state).1)) c d) :
    Steps exec new (fun e i o => may e i o ∧ Config.Quiet exec same k e i o) c d ∨
      (∃ e o next, e.procs[k]? = some (.call o next) ∧ may e k o ∧
        Steps exec new (fun e i o => may e i o ∧ Config.Quiet exec same k e i o) c e ∧
        Steps exec new (fun e i o => may e i o ∧ Config.Quiet exec same k e i o)
          (e.advance exec k) d) ∧
      ∀ a, d.procs[k]? = some (.ret a) → ¬ failed a := by
  have hphase : (Steps exec new (fun e i o => may e i o ∧ Config.Quiet exec same k e i o) c d ∧
        ∃ q, d.procs[k]? = some q ∧ q.Atomic φ changed failed) ∨
      (∃ e o next, e.procs[k]? = some (.call o next) ∧ may e k o ∧
        Steps exec new (fun e i o => may e i o ∧ Config.Quiet exec same k e i o) c e ∧
        Steps exec new (fun e i o => may e i o ∧ Config.Quiet exec same k e i o)
          (e.advance exec k) d) ∧
      ∃ q, d.procs[k]? = some q ∧ q.All (fun o => ¬ φ o) ∧ q.Ends (fun a => ¬ failed a) := by
    induction h with
    | refl => exact Or.inl ⟨Relation.ReflTransGen.refl, p, hp, hatomic⟩
    | tail _ hstep ih =>
      cases hstep with
      | arrive s ps p' hnew =>
        have hkeep : ∀ {q : Prog Res A}, ps[k]? = some q → (ps ++ [p'])[k]? = some q :=
          fun hq => (List.getElem?_append_left (List.getElem?_eq_some_iff.mp hq).1).trans hq
        obtain ⟨hquiet, q, hq, hrest⟩ |
          ⟨⟨e, o, next, hcall, hmade, hbefore, hafter⟩, q, hq, hrest⟩ := ih
        · exact Or.inl ⟨hquiet.tail (.arrive s ps p' hnew), q, hkeep hq, hrest⟩
        · exact Or.inr ⟨⟨e, o, next, hcall, hmade, hbefore,
            hafter.tail (.arrive s ps p' hnew)⟩, q, hkeep hq, hrest⟩
      | advance s ps i o next hproc hmay =>
        obtain ⟨hallowed, hmay⟩ := hmay
        by_cases hi : i = k
        · subst hi
          have hset : (ps.set i (next (exec o s).1))[i]? = some (next (exec o s).1) :=
            List.getElem?_set_self (List.getElem?_eq_some_iff.mp hproc).1
          obtain ⟨hquiet, q, hq, hrest⟩ |
            ⟨⟨e, o', next', hcall, hmade, hbefore, hafter⟩, q, hq, hrest, hends⟩ := ih
          · obtain rfl : Prog.call o next = q := Option.some.inj (hproc.symm.trans hq)
            obtain hsame | ⟨hdecisive, hchanged⟩ := hmay rfl
            · refine Or.inl ⟨hquiet.tail
                (.advance s ps i o next hproc ⟨hallowed, fun _ => hsame⟩), _, hset, ?_⟩
              obtain ⟨_, hnext⟩ | hnext := hrest
              · exact hnext _
              · exact .of_all (hnext _).1
            · obtain ⟨hnot, _⟩ | hnext := hrest
              · exact absurd hdecisive hnot
              · refine Or.inr ⟨⟨⟨s, ps⟩, o, next, hproc, hallowed, hquiet, ?_⟩, _, hset,
                  (hnext _).1, (hnext _).2 hchanged⟩
                simp only [Config.advance, hproc]
                exact Relation.ReflTransGen.refl
          · obtain rfl : Prog.call o next = q := Option.some.inj (hproc.symm.trans hq)
            have hsame := (hmay rfl).resolve_right (fun hdecisive => hrest.1 hdecisive.1)
            exact Or.inr ⟨⟨e, o', next', hcall, hmade, hbefore, hafter.tail
              (.advance s ps i o next hproc ⟨hallowed, fun _ => hsame⟩)⟩,
              _, hset, hrest.2 _, hends _⟩
        · have hkeep : ∀ {q : Prog Res A}, ps[k]? = some q →
              (ps.set i (next (exec o s).1))[k]? = some q :=
            fun hq => (List.getElem?_set_ne hi).trans hq
          have hother : may ⟨s, ps⟩ i o ∧ Config.Quiet exec same k ⟨s, ps⟩ i o :=
            ⟨hallowed, fun heq => absurd heq hi⟩
          obtain ⟨hquiet, q, hq, hrest⟩ |
            ⟨⟨e, o', next', hcall, hmade, hbefore, hafter⟩, q, hq, hrest⟩ := ih
          · exact Or.inl ⟨hquiet.tail (.advance s ps i o next hproc hother), q, hkeep hq, hrest⟩
          · exact Or.inr ⟨⟨e, o', next', hcall, hmade, hbefore,
              hafter.tail (.advance s ps i o next hproc hother)⟩, q, hkeep hq, hrest⟩
  obtain ⟨hquiet, _⟩ | ⟨hsplit, q, hq, _, hends⟩ := hphase
  · exact Or.inl hquiet
  · refine Or.inr ⟨hsplit, fun a ha => ?_⟩
    rw [ha, Option.some.injEq] at hq
    subst hq
    exact hends

end interleaving
