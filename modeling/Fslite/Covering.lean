import Mathlib.Data.List.Basic
import Mathlib.Tactic.Common

/-- The pattern covers the text: the text is cut into pieces, one for each element of the
pattern in its order, and each element stands for its piece. What an element may stand
for can depend on what follows its piece. -/
inductive Covered {A B : Type} (stands : A → List B → List B → Prop) : List A → List B → Prop
  | nil : Covered stands [] []
  | cons {a : A} {pattern : List A} {piece rest : List B} :
      stands a piece rest → Covered stands pattern rest →
        Covered stands (a :: pattern) (piece ++ rest)

namespace Covered

variable {A B : Type} {stands stands' : A → List B → List B → Prop} {a : A} {pattern : List A}
  {text : List B}

theorem nil_iff : Covered stands [] text ↔ text = [] := by
  constructor
  · intro h
    cases h
    rfl
  · rintro rfl
    exact nil

theorem cons_iff : Covered stands (a :: pattern) text ↔
    ∃ piece rest, text = piece ++ rest ∧ stands a piece rest ∧ Covered stands pattern rest := by
  constructor
  · intro h
    cases h with
    | cons hstands hrest => exact ⟨_, _, rfl, hstands, hrest⟩
  · rintro ⟨piece, rest, rfl, hstands, hrest⟩
    exact cons hstands hrest

theorem mono (h : Covered stands pattern text)
    (hmono : ∀ a piece rest, stands a piece rest → stands' a piece rest) :
    Covered stands' pattern text := by
  induction h with
  | nil => exact nil
  | cons hstands _ ih => exact cons (hmono _ _ _ hstands) ih

/-- Where what follows does not matter the pieces can be named at once. -/
theorem iff_pieces {stands : A → List B → Prop} :
    Covered (fun a piece _ => stands a piece) pattern text ↔
    ∃ pieces : List (List B), pieces.flatten = text ∧ List.Forall₂ stands pattern pieces := by
  constructor
  · intro h
    induction h with
    | nil => exact ⟨[], rfl, .nil⟩
    | @cons _ _ piece _ hstands _ ih =>
      obtain ⟨pieces, rfl, hpieces⟩ := ih
      exact ⟨piece :: pieces, List.flatten_cons, .cons hstands hpieces⟩
  · rintro ⟨pieces, rfl, hpieces⟩
    induction hpieces with
    | nil => exact nil
    | cons hstands _ ih => exact cons hstands ih

end Covered
