import Mathlib.Tactic.Common

/-- So many rewrites lead from one value to the other. -/
inductive Rewriting.InSteps {A : Type} (step : A → A → Prop) : Nat → A → A → Prop
  | zero (a : A) : InSteps step 0 a a
  | succ {n : Nat} {a b c : A} : step a b → InSteps step n b c → InSteps step (n + 1) a c

namespace Rewriting

variable {A : Type} {step : A → A → Prop} {n k : Nat} {a b c : A}

/-- No rewrite is possible any more. -/
def Normal (step : A → A → Prop) (a : A) : Prop := ∀ b, ¬ step a b

namespace InSteps

theorem zero_iff : InSteps step 0 a b ↔ a = b := by
  constructor
  · intro h
    cases h
    rfl
  · rintro rfl
    exact zero a

/-- Where the first rewrite is known the others start from its result. -/
theorem succ_iff (hunique : ∀ a b c, step a b → step a c → b = c) (h : step a b) :
    InSteps step (n + 1) a c ↔ InSteps step n b c := by
  constructor
  · intro hsteps
    cases hsteps with
    | succ hfirst hrest => rwa [hunique a b _ h hfirst]
  · exact fun hrest => succ h hrest

theorem normal_iff (h : Normal step a) : InSteps step n a b ↔ n = 0 ∧ a = b := by
  constructor
  · intro hsteps
    cases hsteps with
    | zero => exact ⟨rfl, rfl⟩
    | succ hfirst _ => exact absurd hfirst (h _)
  · rintro ⟨rfl, rfl⟩
    exact zero a

end InSteps

/-- Where more rewrites than a bound are not possible, no more than the bound lead to a
value that cannot be rewritten. -/
theorem exists_normal (a : A) (h : ¬ ∃ b, InSteps step (n + 1) a b) :
    ∃ k ≤ n, ∃ b, InSteps step k a b ∧ Normal step b := by
  induction n generalizing a with
  | zero => exact ⟨0, Nat.le_refl 0, a, .zero a, fun b hb => h ⟨b, .succ hb (.zero b)⟩⟩
  | succ n ih =>
    by_cases hnormal : Normal step a
    · exact ⟨0, Nat.zero_le _, a, .zero a, hnormal⟩
    · unfold Normal at hnormal
      push Not at hnormal
      obtain ⟨b, hb⟩ := hnormal
      obtain ⟨k, hk, c, hsteps, hc⟩ := ih b (fun ⟨c, hc⟩ => h ⟨c, .succ hb hc⟩)
      exact ⟨k + 1, Nat.succ_le_succ hk, c, .succ hb hsteps, hc⟩

end Rewriting
