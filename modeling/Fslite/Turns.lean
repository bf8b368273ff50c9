import Fslite.Atomicity
import Mathlib.Order.WellFounded

namespace Prog

variable {Op : Type} {Res : Op → Type} {A B S : Type}

/-- What is left of a program after its next call. -/
def Next (q p : Prog Res A) : Prop := ∃ o next r, p = call o next ∧ q = next r

theorem next_wellFounded : WellFounded (Next : Prog Res A → Prog Res A → Prop) := by
  refine ⟨fun p => ?_⟩
  induction p with
  | ret a => exact .intro _ (fun q ⟨_, _, _, h, _⟩ => by cases h)
  | call o next ih =>
    refine .intro _ (fun q ⟨_, _, r, h, hq⟩ => ?_)
    cases h
    rw [hq]
    exact ih r

variable (exec : (o : Op) → S → Res o × S) (live : S → Prop)

/-- A program makes its next call while no other one does. -/
inductive Goes : Prog Res A × S → Prog Res A × S → Prop where
  | call (o : Op) (next : Res o → Prog Res A) (s : S) (hlive : live s) :
      Goes (call o next, s) (next (exec o s).1, (exec o s).2)

variable {exec live} {x y : Prog Res A × S} {p q : Prog Res A} {s s' t : S}

theorem Goes.next (h : Goes exec live x y) : Next y.1 x.1 := by
  cases h with
  | call o next s hlive => exact ⟨o, next, _, rfl, rfl⟩

/-- No program is left of itself after some calls. -/
theorem Goes.not_back : ¬ Relation.TransGen (Goes exec live) (p, s) (p, s') := by
  intro h
  have hback : Relation.TransGen (fun q p => Next p q) p p :=
    h.lift Prod.fst (fun _ _ hgoes => hgoes.next)
  exact next_wellFounded.transGen.irrefl.irrefl p (Relation.transGen_swap.mp hback)

theorem Goes.run_eq (h : Relation.ReflTransGen (Goes exec live) x y) :
    y.1.run exec y.2 = x.1.run exec x.2 := by
  induction h with
  | refl => rfl
  | tail _ hgoes ih =>
    rw [← ih]
    cases hgoes with
    | call o next s hlive => rfl

end Prog

section turns

variable {Op : Type} {Res : Op → Type} {A S : Type} {exec : (o : Op) → S → Res o × S}
  {new : Prog Res A → Prop} {live : S → Prop}

/-- A program has ended. -/
def Config.Ended (c : Config Res A S) (i : Nat) : Prop := ∃ a, c.procs[i]? = some (.ret a)

variable (exec) in
/-- The calls of all others change nothing. -/
def Apart (i j : Nat) (c : Config Res A S) (k : Nat) (o : Op) : Prop :=
  k ≠ i → k ≠ j → (exec o c.state).2 = c.state

variable (exec) in
/-- Of two programs each makes its calls only while the other one has not begun or has ended. -/
structure TakesTurn (i j : Nat) (p q : Prog Res A) (c : Config Res A S) (k : Nat) (o : Op) :
    Prop where
  left : k = i → c.procs[j]? = some q ∨ c.Ended j
  right : k = j → c.procs[i]? = some p ∨ c.Ended i
  others : Apart exec i j c k o

variable (exec live) in
/-- The first program is under way and the second one has not begun, or the first one has ended
and the second one goes on from there. -/
inductive GoesFirst (s : S) (i j : Nat) (p q : Prog Res A) (c : Config Res A S) : Prop where
  | underway (p' : Prog Res A) (hp : c.procs[i]? = some p') (hq : c.procs[j]? = some q)
      (hgoes : Relation.ReflTransGen (Prog.Goes exec live) (p, s) (p', c.state)) :
      GoesFirst s i j p q c
  | ended (q' : Prog Res A) (hp : c.procs[i]? = some (.ret (p.run exec s).1))
      (hq : c.procs[j]? = some q') (hrun : q'.run exec c.state = q.run exec (p.run exec s).2) :
      GoesFirst s i j p q c

variable (exec new live) in
/-- The second program begins while the first one is under way. -/
def Overlaps (i j : Nat) (p q : Prog Res A) (c d : Config Res A S) : Prop :=
  ∃ (e : Config Res A S) (p' q' : Prog Res A) (t : S),
    Relation.TransGen (Prog.Goes exec live) (p, c.state) (p', t) ∧ (∀ a, p' ≠ .ret a) ∧
    Prog.Goes exec live (q, t) (q', e.state) ∧ e.procs[i]? = some p' ∧ e.procs[j]? = some q' ∧
    Steps exec new (Apart exec i j) c e ∧ Steps exec new (Apart exec i j) e d

variable {s : S} {i j k : Nat} {p q : Prog Res A} {c d : Config Res A S} {o : Op}

theorem TakesTurn.symm (h : TakesTurn exec i j p q c k o) : TakesTurn exec j i q p c k o :=
  ⟨h.right, h.left, fun hj hi => h.others hi hj⟩

theorem Step.turn_symm (h : Step exec new (TakesTurn exec i j p q) c d) :
    Step exec new (TakesTurn exec j i q p) c d := by
  cases h with
  | arrive s ps p' hp' => exact .arrive s ps p' hp'
  | advance s ps k o next hproc hmay => exact .advance s ps k o next hproc hmay.symm

theorem Step.apart_symm (h : Step exec new (Apart exec i j) c d) :
    Step exec new (Apart exec j i) c d := by
  cases h with
  | arrive s ps p' hp' => exact .arrive s ps p' hp'
  | advance s ps k o next hproc hmay =>
    exact .advance s ps k o next hproc (fun hj hi => hmay hi hj)

theorem Overlaps.tail {e : Config Res A S} (h : Overlaps exec new live i j p q c d)
    (hstep : Step exec new (Apart exec i j) d e) : Overlaps exec new live i j p q c e := by
  obtain ⟨f, p', q', t, hfirst, hopen, hsecond, hp', hq', hbefore, hrest⟩ := h
  exact ⟨f, p', q', t, hfirst, hopen, hsecond, hp', hq', hbefore, hrest.tail hstep⟩

theorem List.getElem?_concat_of_some {α : Type} {xs : List α} {x y : α} (h : xs[k]? = some x) :
    (xs ++ [y])[k]? = some x :=
  (List.getElem?_append_left (List.getElem?_eq_some_iff.mp h).1).trans h

theorem GoesFirst.step (hij : i ≠ j) (hlive : live c.state)
    (h : GoesFirst exec live s i j p q c)
    (hstep : Step exec new (TakesTurn exec i j p q) c d) :
    GoesFirst exec live s i j p q d ∨ GoesFirst exec live s j i q p d := by
  cases hstep with
  | arrive s' ps p' hp' =>
    cases h with
    | underway p'' hp hq hgoes =>
      exact .inl (.underway p'' (List.getElem?_concat_of_some hp)
        (List.getElem?_concat_of_some hq) hgoes)
    | ended q' hp hq hrun =>
      exact .inl (.ended q' (List.getElem?_concat_of_some hp)
        (List.getElem?_concat_of_some hq) hrun)
  | advance s' ps k o next hproc hmay =>
    have hself : (ps.set k (next (exec o s').1))[k]? = some (next (exec o s').1) :=
      List.getElem?_set_self (List.getElem?_eq_some_iff.mp hproc).1
    have hkeep : ∀ {l : Nat} {r : Prog Res A}, k ≠ l → ps[l]? = some r →
        (ps.set k (next (exec o s').1))[l]? = some r :=
      fun hne h => (List.getElem?_set_ne hne).trans h
    cases h with
    | underway p' hp hq hgoes =>
      by_cases hi : k = i
      · -- the first program goes on
        subst hi
        rw [hproc, Option.some.injEq] at hp
        subst hp
        exact .inl (.underway _ hself (hkeep hij hq) (hgoes.tail (.call o next s' hlive)))
      · by_cases hj : k = j
        · -- the second one begins
          subst hj
          rw [hproc, Option.some.injEq] at hq
          subst hq
          obtain hfresh | ⟨a, ha⟩ := hmay.right rfl
          · rw [hp, Option.some.injEq] at hfresh
            subst hfresh
            obtain heq | hback := Relation.reflTransGen_iff_eq_or_transGen.mp hgoes
            · rw [Prod.mk.injEq] at heq
              obtain ⟨_, rfl⟩ := heq
              exact .inr (.underway _ hself (hkeep hi hp) (.single (.call o next s' hlive)))
            · exact absurd hback Prog.Goes.not_back
          · rw [hp, Option.some.injEq] at ha
            subst ha
            have hrun : (a, s') = p.run exec s := Prog.Goes.run_eq hgoes
            refine .inl (.ended _ ?_ hself ?_)
            · rw [← hrun]
              exact hkeep hi hp
            · rw [← hrun]
              rfl
        · refine .inl (.underway p' (hkeep hi hp) (hkeep hj hq) ?_)
          rw [show (exec o s').2 = s' from hmay.others hi hj]
          exact hgoes
    | ended q' hp hq hrun =>
      by_cases hj : k = j
      · subst hj
        rw [hproc, Option.some.injEq] at hq
        subst hq
        exact .inl (.ended _ (hkeep (Ne.symm hij) hp) hself hrun)
      · have hi : k ≠ i := by
          rintro rfl
          rw [hproc, Option.some.injEq] at hp
          cases hp
        refine .inl (.ended q' (hkeep hi hp) (hkeep hj hq) ?_)
        rw [← hrun]
        exact congrArg _ (hmay.others hi hj)

theorem Steps.apart_symm (h : Steps exec new (Apart exec i j) c d) :
    Steps exec new (Apart exec j i) c d :=
  h.mono (fun _ hp => hp) (fun _ _ _ hmay hj hi => hmay hi hj)

/-- A call that is out of turn is the first one of the second program. -/
theorem GoesFirst.out_of_turn {ps : List (Prog Res A)} {u : S} {next : Res o → Prog Res A}
    (hij : i ≠ j) (hlive : live u) (hbefore : Steps exec new (Apart exec i j) c ⟨u, ps⟩)
    (h : GoesFirst exec live c.state i j p q ⟨u, ps⟩) (hproc : ps[k]? = some (.call o next))
    (hmay : Apart exec i j ⟨u, ps⟩ k o) (hnot : ¬ TakesTurn exec i j p q ⟨u, ps⟩ k o) :
    Overlaps exec new live i j p q c ⟨(exec o u).2, ps.set k (next (exec o u).1)⟩ := by
  cases h with
  | underway p' hp hq hgoes =>
    by_cases hj : k = j
    · subst hj
      rw [hproc, Option.some.injEq] at hq
      subst hq
      have hunended : ∀ a, p' ≠ .ret a := by
        rintro a rfl
        exact hnot ⟨fun hi => absurd hi.symm hij, fun _ => Or.inr ⟨a, hp⟩, hmay⟩
      obtain heq | hbegun := Relation.reflTransGen_iff_eq_or_transGen.mp hgoes
      · rw [Prod.mk.injEq] at heq
        obtain ⟨rfl, _⟩ := heq
        exact absurd ⟨fun hi => absurd hi.symm hij, fun _ => Or.inl hp, hmay⟩ hnot
      · exact ⟨_, p', _, u, hbegun, hunended, .call o next u hlive,
          (List.getElem?_set_ne (Ne.symm hij)).trans hp,
          List.getElem?_set_self (List.getElem?_eq_some_iff.mp hproc).1,
          hbefore.tail (.advance u ps k o next hproc hmay), Relation.ReflTransGen.refl⟩
    · exact absurd ⟨fun _ => Or.inl hq, fun h => absurd h hj, hmay⟩ hnot
  | ended q' hp hq hrun =>
    refine absurd ⟨fun hi => ?_, fun _ => Or.inr ⟨_, hp⟩, hmay⟩ hnot
    subst hi
    rw [hproc, Option.some.injEq] at hp
    cases hp

/-- Two programs that take turns end as if one of them had run alone, and then the other one. -/
theorem Steps.in_turn {a b : A} (hij : i ≠ j) (hp : c.procs[i]? = some p)
    (hq : c.procs[j]? = some q) (h : Steps exec new (TakesTurn exec i j p q) c d)
    (ha : d.procs[i]? = some (.ret a)) (hb : d.procs[j]? = some (.ret b)) :
    (∃ t, p.run exec c.state = (a, t) ∧ q.run exec t = (b, d.state)) ∨
      ∃ t, q.run exec c.state = (b, t) ∧ p.run exec t = (a, d.state) := by
  have hends : ∀ {i j : Nat} {p q : Prog Res A} {a b : A}, d.procs[i]? = some (.ret a) →
      d.procs[j]? = some (.ret b) → GoesFirst exec (fun _ => True) c.state i j p q d →
      ∃ t, p.run exec c.state = (a, t) ∧ q.run exec t = (b, d.state) := by
    intro i j p q a b ha hb hfirst
    cases hfirst with
    | underway p' hp hq hgoes =>
      rw [ha, Option.some.injEq] at hp
      rw [hb, Option.some.injEq] at hq
      subst hp
      subst hq
      exact ⟨d.state, (Prog.Goes.run_eq hgoes).symm, rfl⟩
    | ended q' hp hq hrun =>
      rw [ha, Option.some.injEq] at hp
      rw [hb, Option.some.injEq] at hq
      subst hq
      cases hp
      exact ⟨_, rfl, hrun.symm⟩
  have hfirst : GoesFirst exec (fun _ => True) c.state i j p q d ∨
      GoesFirst exec (fun _ => True) c.state j i q p d := by
    clear hends ha hb
    induction h with
    | refl => exact .inl (.underway p hp hq Relation.ReflTransGen.refl)
    | tail _ hstep ih =>
      obtain ih | ih := ih
      · exact ih.step hij trivial hstep
      · exact (ih.step (Ne.symm hij) trivial hstep.turn_symm).symm
  exact hfirst.imp (hends ha hb) (hends hb ha)

/-- A program that takes its turn makes all its calls. -/
theorem Steps.take_turn {ps : List (Prog Res A)} {p' : Prog Res A} (hij : i ≠ j)
    (hproc : ps[i]? = some p') (hother : ps[j]? = some q ∨ ∃ b, ps[j]? = some (.ret b)) :
    Steps exec new (TakesTurn exec i j p q) ⟨s, ps⟩
      ⟨(p'.run exec s).2, ps.set i (.ret (p'.run exec s).1)⟩ := by
  induction p' generalizing s ps with
  | ret a =>
    obtain ⟨hlt, hget⟩ := List.getElem?_eq_some_iff.mp hproc
    rw [show ps.set i (.ret ((Prog.ret a).run exec s).1) = ps from
      (congrArg (ps.set i) hget.symm).trans (List.set_getElem_self hlt)]
    exact Relation.ReflTransGen.refl
  | call o next ih =>
    have hmay : TakesTurn exec i j p q ⟨s, ps⟩ i o :=
      ⟨fun _ => hother, fun h => absurd h hij, fun h => absurd rfl h⟩
    refine Relation.ReflTransGen.head (.advance s ps i o next hproc hmay) ?_
    have hkeep : (ps.set i (next (exec o s).1))[j]? = ps[j]? := List.getElem?_set_ne hij
    have hrest := @ih (exec o s).1 (exec o s).2 (ps.set i (next (exec o s).1))
      (List.getElem?_set_self (List.getElem?_eq_some_iff.mp hproc).1) (by rwa [hkeep])
    rwa [List.set_set] at hrest

/-- Calls of two programs in any order. -/
theorem Steps.schedule_apart {order : List Nat} {c : Config Res A S}
    (horder : ∀ k ∈ order, k = i ∨ k = j) :
    Steps exec new (Apart exec i j) c (c.schedule exec order) := by
  refine Steps.schedule ?_
  induction order generalizing c with
  | nil => trivial
  | cons k rest ih =>
    refine ⟨?_, ih (fun k hk => horder k (List.mem_cons_of_mem _ hk))⟩
    split
    · intro hi hj
      exact absurd (horder k List.mem_cons_self) (not_or.mpr ⟨hi, hj⟩)
    · trivial

/-- Two programs take turns, or one of them begins while the other one is under way. -/
theorem Steps.turns_or_overlaps (hij : i ≠ j) (hp : c.procs[i]? = some p)
    (hq : c.procs[j]? = some q) (h : Steps exec new (Apart exec i j) c d)
    (hlive : ∀ e, Steps exec new (Apart exec i j) c e → live e.state) :
    Steps exec new (TakesTurn exec i j p q) c d ∨
      Overlaps exec new live i j p q c d ∨ Overlaps exec new live j i q p c d := by
  have hrun : (Steps exec new (TakesTurn exec i j p q) c d ∧
      (GoesFirst exec live c.state i j p q d ∨ GoesFirst exec live c.state j i q p d)) ∨
      Overlaps exec new live i j p q c d ∨ Overlaps exec new live j i q p c d := by
    induction h with
    | refl => exact .inl ⟨Relation.ReflTransGen.refl, .inl (.underway p hp hq .refl)⟩
    | @tail d e hbefore hstep ih =>
      have hd := hlive d hbefore
      obtain ⟨hturns, hfirst⟩ | hoverlaps | hoverlaps := ih
      · by_cases hturn : Step exec new (TakesTurn exec i j p q) d e
        · refine .inl ⟨hturns.tail hturn, ?_⟩
          obtain hfirst | hfirst := hfirst
          · exact hfirst.step hij hd hturn
          · exact (hfirst.step (Ne.symm hij) hd hturn.turn_symm).symm
        · refine .inr ?_
          cases hstep with
          | arrive s ps p' hp' => exact absurd (.arrive s ps p' hp') hturn
          | advance s ps k o next hproc hmay =>
            have hnot : ¬ TakesTurn exec i j p q ⟨s, ps⟩ k o :=
              fun hmay => hturn (.advance s ps k o next hproc hmay)
            obtain hfirst | hfirst := hfirst
            · exact .inl (hfirst.out_of_turn hij hd hbefore hproc hmay hnot)
            · exact .inr (hfirst.out_of_turn (Ne.symm hij) hd (Steps.apart_symm hbefore) hproc
                (fun hj hi => hmay hi hj) (fun h => hnot h.symm))
      · exact .inr (.inl (hoverlaps.tail hstep))
      · exact .inr (.inr (hoverlaps.tail hstep.apart_symm))
  exact hrun.imp_left And.left

end turns

namespace Prog

variable {Op : Type} {Res : Op → Type} {A B S : Type} (exec : (o : Op) → S → Res o × S)
  (live inv : S → Prop) (same : S → S → Prop)

/-- Every call keeps the invariant and what is to stay the same, whatever others do in between,
and the result is as described. -/
def Upholds (Q : A → Prop) : Prog Res A → Prop
  | ret a => Q a
  | call o next => ∀ s, live s → inv s →
      inv (exec o s).2 ∧ same s (exec o s).2 ∧ (next (exec o s).1).Upholds Q

/-- Every call keeps the invariant, and all but the last one what is to stay the same. -/
def Commits : Prog Res A → Prop
  | ret _ => True
  | call o next => ∀ s, live s → inv s → inv (exec o s).2 ∧
      ((∃ a, next (exec o s).1 = ret a) ∨
        same s (exec o s).2 ∧ (next (exec o s).1).Commits)

variable {exec live inv same} {p : Prog Res A} {Q : A → Prop}

theorem Upholds.mono {Q' : A → Prop} (h : p.Upholds exec live inv same Q)
    (hQ : ∀ a, Q a → Q' a) : p.Upholds exec live inv same Q' := by
  induction p with
  | ret a => exact hQ a h
  | call o next ih =>
    intro s hlive hinv
    obtain ⟨hinv', hsame, hrest⟩ := h s hlive hinv
    exact ⟨hinv', hsame, ih _ hrest⟩

/-- What every call keeps that a program may make, the program upholds. -/
theorem Upholds.of_all {φ : Op → Prop} (hp : p.All φ) (hQ : p.Ends Q)
    (hkeeps : ∀ o s, φ o → live s → inv s → inv (exec o s).2 ∧ same s (exec o s).2) :
    p.Upholds exec live inv same Q := by
  induction p with
  | ret a => exact hQ
  | call o next ih =>
    intro s hlive hinv
    obtain ⟨hinv', hsame⟩ := hkeeps o s hp.1 hlive hinv
    exact ⟨hinv', hsame, ih _ (hp.2 _) (hQ _)⟩

theorem Upholds.bind {R : B → Prop} {f : A → Prog Res B} (h : p.Upholds exec live inv same Q)
    (hf : ∀ a, Q a → (f a).Upholds exec live inv same R) :
    (p >>= f).Upholds exec live inv same R := by
  induction p with
  | ret a => exact hf a h
  | call o next ih =>
    intro s hlive hinv
    obtain ⟨hinv', hsame, hrest⟩ := h s hlive hinv
    exact ⟨hinv', hsame, ih _ hrest⟩

theorem Upholds.commits_bind {f : A → Prog Res B} (h : p.Upholds exec live inv same Q)
    (hf : ∀ a, Q a → (f a).Commits exec live inv same) :
    (p >>= f).Commits exec live inv same := by
  induction p with
  | ret a => exact hf a h
  | call o next ih =>
    intro s hlive hinv
    obtain ⟨hinv', hsame, hrest⟩ := h s hlive hinv
    exact ⟨hinv', Or.inr ⟨hsame, ih _ hrest⟩⟩

theorem Commits.bind_ret {f : A → Prog Res B} (h : p.Commits exec live inv same)
    (hf : ∀ a, ∃ b, f a = ret b) : (p >>= f).Commits exec live inv same := by
  induction p with
  | ret a =>
    obtain ⟨b, hb⟩ := hf a
    rw [ret_bind, hb]
    trivial
  | call o next ih =>
    intro s hlive hinv
    obtain ⟨hinv', ⟨a, ha⟩ | ⟨hsame, hrest⟩⟩ := h s hlive hinv
    · obtain ⟨b, hb⟩ := hf a
      refine ⟨hinv', Or.inl ⟨b, ?_⟩⟩
      show (next (exec o s).1 >>= f) = ret b
      rw [ha, ret_bind, hb]
    · exact ⟨hinv', Or.inr ⟨hsame, ih _ hrest⟩⟩

/-- As long as a program that goes alone has not ended, what is to stay the same does. -/
theorem Commits.goes {s : S} {y : Prog Res A × S} (h : p.Commits exec live inv same)
    (hinv : inv s) (hgoes : Relation.ReflTransGen (Goes exec live) (p, s) y) :
    inv y.2 ∧ ((∃ a, y.1 = ret a) ∨
      Relation.ReflTransGen same s y.2 ∧ y.1.Commits exec live inv same) := by
  induction hgoes with
  | refl => exact ⟨hinv, Or.inr ⟨Relation.ReflTransGen.refl, h⟩⟩
  | tail _ hgoes ih =>
    obtain ⟨hinv', hopen⟩ := ih
    cases hgoes with
    | call o next u hlive =>
      obtain ⟨a, ha⟩ | ⟨hsames, hcommits⟩ := hopen
      · cases ha
      · obtain ⟨hinv'', hend | ⟨hsame, hrest⟩⟩ := hcommits u hlive hinv'
        · exact ⟨hinv'', Or.inl hend⟩
        · exact ⟨hinv'', Or.inr ⟨hsames.tail hsame, hrest⟩⟩

end Prog

/-- An invariant that every program upholds is one of the run. -/
theorem Steps.upheld {Op : Type} {Res : Op → Type} {A S : Type} {exec : (o : Op) → S → Res o × S}
    {new : Prog Res A → Prop} {live inv : S → Prop} {same : S → S → Prop} {Q : A → Prop}
    {c d : Config Res A S}
    (h : Steps exec new (fun e _ _ => live e.state) c d)
    (hnew : ∀ p, new p → p.Upholds exec live inv same Q)
    (hprocs : ∀ p ∈ c.procs, p.Upholds exec live inv same Q) (hinv : inv c.state) :
    inv d.state := by
  have hall : inv d.state ∧ ∀ p ∈ d.procs, p.Upholds exec live inv same Q := by
    induction h with
    | refl => exact ⟨hinv, hprocs⟩
    | tail _ hstep ih =>
      obtain ⟨hinv', hkeep⟩ := ih
      cases hstep with
      | arrive s ps p hp =>
        refine ⟨hinv', fun q hq => ?_⟩
        obtain hq | hq := List.mem_append.mp hq
        · exact hkeep q hq
        · exact List.mem_singleton.mp hq ▸ hnew p hp
      | advance s ps i o next hproc hlive =>
        obtain ⟨hinv'', _, hrest⟩ := hkeep _ (List.mem_of_getElem? hproc) s hlive hinv'
        refine ⟨hinv'', fun q hq => ?_⟩
        obtain hq | rfl := List.mem_or_eq_of_mem_set hq
        · exact hkeep q hq
        · exact hrest
  exact hall.1

/-- Two programs that keep an invariant keep it together, while the calls of all others change
nothing. -/
theorem Steps.both_keep {Op : Type} {Res : Op → Type} {A S : Type}
    {exec : (o : Op) → S → Res o × S} {new : Prog Res A → Prop} {live inv : S → Prop}
    {same : S → S → Prop} {i j : Nat} {p q : Prog Res A} {c d : Config Res A S}
    (h : Steps exec new (Apart exec i j) c d) (hij : i ≠ j)
    (hlive : ∀ e, Steps exec new (Apart exec i j) c e → live e.state)
    (hp : c.procs[i]? = some p) (hq : c.procs[j]? = some q)
    (hpkeeps : p.Commits exec live inv same) (hqkeeps : q.Commits exec live inv same)
    (hinv : inv c.state) : inv d.state := by
  have hall : inv d.state ∧ ∀ k, k = i ∨ k = j →
      ∃ r, d.procs[k]? = some r ∧ r.Commits exec live inv same := by
    induction h with
    | refl =>
      refine ⟨hinv, fun k hk => ?_⟩
      obtain rfl | rfl := hk
      · exact ⟨p, hp, hpkeeps⟩
      · exact ⟨q, hq, hqkeeps⟩
    | @tail d e hbefore hstep ih =>
      obtain ⟨hinv', hkeep⟩ := ih
      cases hstep with
      | arrive s ps p' hp' =>
        refine ⟨hinv', fun k hk => ?_⟩
        obtain ⟨r, hr, hcommits⟩ := hkeep k hk
        exact ⟨r, List.getElem?_concat_of_some hr, hcommits⟩
      | advance s ps l o next hproc hmay =>
        by_cases hl : l = i ∨ l = j
        · obtain ⟨r, hr, hcommits⟩ := hkeep l hl
          rw [hproc, Option.some.injEq] at hr
          subst hr
          obtain ⟨hinv'', hrest⟩ := hcommits s (hlive _ hbefore) hinv'
          refine ⟨hinv'', fun k hk => ?_⟩
          by_cases hkl : k = l
          · subst hkl
            refine ⟨_, List.getElem?_set_self (List.getElem?_eq_some_iff.mp hproc).1, ?_⟩
            obtain ⟨a, ha⟩ | ⟨_, hrest⟩ := hrest
            · rw [ha]
              trivial
            · exact hrest
          · obtain ⟨r, hr, hcommits'⟩ := hkeep k hk
            exact ⟨r, (List.getElem?_set_ne (Ne.symm hkl)).trans hr, hcommits'⟩
        · obtain ⟨hli, hlj⟩ := not_or.mp hl
          refine ⟨(hmay hli hlj).symm ▸ hinv', fun k hk => ?_⟩
          obtain ⟨r, hr, hcommits⟩ := hkeep k hk
          refine ⟨r, (List.getElem?_set_ne ?_).trans hr, hcommits⟩
          rintro rfl
          exact hl hk
  exact hall.1

namespace Failing

variable {Op : Type} {Res : Op → Type} {A B E S : Type} (exec : (o : Op) → S → Res o × S)
  (live inv : S → Prop) (same : S → S → Prop)

/-- Every call keeps the invariant and what is to stay the same; a value that is returned is as
described. -/
def Upholds (Q : A → Prop) (p : Failing Res E A) : Prop :=
  p.run.Upholds exec live inv same (fun r => ∀ a, r = .ok a → Q a)

/-- Every call keeps the invariant, and all but the last one what is to stay the same. -/
def Commits (p : Failing Res E A) : Prop := p.run.Commits exec live inv same

variable {exec live inv same} {Q : A → Prop} {p : Failing Res E A}

theorem Upholds.pure {a : A} (h : Q a) :
    Upholds exec live inv same Q (pure a : Failing Res E A) := by
  intro b hb
  cases hb
  exact h

theorem Upholds.throw {e : E} : Upholds exec live inv same Q (throw e : Failing Res E A) :=
  fun _ hb => by cases hb

theorem Upholds.mono {Q' : A → Prop} (h : Upholds exec live inv same Q p)
    (hQ : ∀ a, Q a → Q' a) : Upholds exec live inv same Q' p :=
  Prog.Upholds.mono h (fun _ hr a ha => hQ a (hr a ha))

theorem Upholds.bind {R : B → Prop} {f : A → Failing Res E B}
    (h : Upholds exec live inv same Q p) (hf : ∀ a, Q a → Upholds exec live inv same R (f a)) :
    Upholds exec live inv same R (p >>= f) := by
  refine Prog.Upholds.bind h (fun r hr => ?_)
  cases r with
  | ok a => exact hf a (hr a rfl)
  | error e => exact fun _ hb => by cases hb

theorem Upholds.map {f : A → B} (h : Upholds exec live inv same Q p) :
    Upholds exec live inv same (fun _ => True) (f <$> p) := by
  refine Prog.Upholds.bind h (fun r _ => ?_)
  cases r with
  | ok a => exact fun _ _ => trivial
  | error e => exact fun _ _ => trivial

theorem Upholds.tryCatch {f : E → Failing Res E A} (h : Upholds exec live inv same Q p)
    (hf : ∀ e, Upholds exec live inv same Q (f e)) :
    Upholds exec live inv same Q (tryCatch p f) := by
  refine Prog.Upholds.bind h (fun r hr => ?_)
  cases r with
  | ok a => exact hr
  | error e => exact hf e

theorem Upholds.commits_bind {f : A → Failing Res E B} (h : Upholds exec live inv same Q p)
    (hf : ∀ a, Q a → Commits exec live inv same (f a)) :
    Commits exec live inv same (p >>= f) := by
  refine Prog.Upholds.commits_bind h (fun r hr => ?_)
  cases r with
  | ok a => exact hf a (hr a rfl)
  | error e => trivial

theorem Commits.map {f : A → B} (h : Commits exec live inv same p) :
    Commits exec live inv same (f <$> p) := by
  refine Prog.Commits.bind_ret h (fun r => ?_)
  cases r with
  | ok a => exact ⟨_, rfl⟩
  | error e => exact ⟨_, rfl⟩

end Failing
