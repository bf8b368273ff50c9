import Mathlib.Data.Set.Function
import Mathlib.Logic.Relation
import Mathlib.Tactic.Common

/-- A relation between the elements of two graphs that relates the successors of
related elements, in both directions. -/
structure Bisimulation {A B : Type} (step : A → A → Prop) (step' : B → B → Prop)
    (related : A → B → Prop) : Prop where
  forth : ∀ {a b c}, related a b → step a c → ∃ d, related c d ∧ step' b d
  back : ∀ {a b d}, related a b → step' b d → ∃ c, related c d ∧ step a c

namespace Bisimulation

variable {A B : Type} {step : A → A → Prop} {step' : B → B → Prop} {related : A → B → Prop}
  {a c : A} {b d : B}

/-- What an element reaches is related to what a related one reaches. -/
theorem reach_forth (h : Bisimulation step step' related) (hab : related a b)
    (hreach : Relation.ReflTransGen step a c) :
    ∃ d, related c d ∧ Relation.ReflTransGen step' b d := by
  induction hreach with
  | refl => exact ⟨b, hab, .refl⟩
  | tail _ hstep ih =>
    obtain ⟨x, hx, hbx⟩ := ih
    obtain ⟨y, hy, hxy⟩ := h.forth hx hstep
    exact ⟨y, hy, hbx.tail hxy⟩

theorem symm (h : Bisimulation step step' related) :
    Bisimulation step' step (fun b a => related a b) :=
  ⟨fun hab hstep => h.back hab hstep, fun hab hstep => h.forth hab hstep⟩

theorem reach_back (h : Bisimulation step step' related) (hab : related a b)
    (hreach : Relation.ReflTransGen step' b d) :
    ∃ c, related c d ∧ Relation.ReflTransGen step a c := h.symm.reach_forth hab hreach

/-- A bisimulation that relates at most one element to each one relates neighbours to neighbours
only. -/
theorem step_iff (h : Bisimulation step step' related)
    (hunique : ∀ {a b b'}, related a b → related a b' → b = b')
    (hinjective : ∀ {a a' b}, related a b → related a' b → a = a') (hab : related a b)
    (hcd : related c d) :
    step' b d ↔ step a c := by
  constructor
  · intro hstep
    obtain ⟨x, hx, hax⟩ := h.back hab hstep
    rw [hinjective hcd hx]
    exact hax
  · intro hstep
    obtain ⟨y, hy, hby⟩ := h.forth hab hstep
    rw [hunique hcd hy]
    exact hby

/-- A bisimulation that is one-to-one is, on what two related elements reach, an isomorphism. -/
theorem exists_bijOn (h : Bisimulation step step' related)
    (hunique : ∀ {a b b'}, related a b → related a b' → b = b')
    (hinjective : ∀ {a a' b}, related a b → related a' b → a = a') (hab : related a b) :
    ∃ φ : A → B, Set.BijOn φ {x | Relation.ReflTransGen step a x}
      {y | Relation.ReflTransGen step' b y} ∧
      ∀ x, Relation.ReflTransGen step a x → related x (φ x) := by
  classical
  have himage : ∀ x, ∃ y, Relation.ReflTransGen step a x → related x y ∧
      Relation.ReflTransGen step' b y := by
    intro x
    by_cases hx : Relation.ReflTransGen step a x
    · obtain ⟨y, hy⟩ := h.reach_forth hab hx
      exact ⟨y, fun _ => hy⟩
    · exact ⟨b, fun hx' => absurd hx' hx⟩
  choose φ hφ using himage
  refine ⟨φ, ⟨fun x hx => (hφ x hx).2, fun x hx y hy heq => ?_, fun y hy => ?_⟩, fun x hx =>
    (hφ x hx).1⟩
  · have hright := (hφ y hy).1
    rw [← heq] at hright
    exact hinjective (hφ x hx).1 hright
  · obtain ⟨x, hxy, hx⟩ := h.reach_back hab hy
    exact ⟨x, hx, hunique (hφ x hx).1 hxy⟩

end Bisimulation
