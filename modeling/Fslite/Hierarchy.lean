import Mathlib.Data.List.Infix
import Mathlib.Data.Option.Basic
import Mathlib.Tactic.Common

/-- A tree of entries under names. A place in it is the list of the names that lead there from
the root, and it is occupied only if the places above it are. -/
structure Hierarchy (K V : Type) where
  lookup : List K → Option V
  closed : ∀ place name, (lookup (place ++ [name])).isSome → (lookup place).isSome

namespace Hierarchy

variable {K V : Type} {t t' b : Hierarchy K V} {place q rest : List K} {name : K} {v : V}

@[ext] theorem ext (h : ∀ q, t.lookup q = t'.lookup q) : t = t' := by
  obtain ⟨lookup, closed⟩ := t
  obtain ⟨lookup', closed'⟩ := t'
  obtain rfl : lookup = lookup' := funext h
  rfl

/-- Two trees are the same when they have the same entries. -/
theorem ext_some (h : ∀ q v, t.lookup q = some v ↔ t'.lookup q = some v) : t = t' :=
  ext (fun q => Option.ext (fun v => h q v))

/-- Below an empty place all places are empty. -/
theorem lookup_append_of_none (h : t.lookup place = none) (rest : List K) :
    t.lookup (place ++ rest) = none := by
  induction rest using List.reverseRecOn with
  | nil => rwa [List.append_nil]
  | append_singleton rest name ih =>
    rw [← Option.not_isSome_iff_eq_none] at ih ⊢
    rw [← List.append_assoc]
    exact fun hoccupied => ih (t.closed _ _ hoccupied)

/-- The tree without any entry. -/
def empty : Hierarchy K V where
  lookup _ := none
  closed _ _ h := by cases h

/-- The tree of one entry. -/
def leaf (v : V) : Hierarchy K V where
  lookup q := if q = [] then some v else none
  closed place name h := by simp at h

theorem lookup_leaf_eq_some {u : V} : (leaf u : Hierarchy K V).lookup q = some v ↔
    q = [] ∧ u = v := by
  simp [leaf]

/-- What is at and below a place. -/
def branch (t : Hierarchy K V) (place : List K) : Hierarchy K V where
  lookup rest := t.lookup (place ++ rest)
  closed rest name h := t.closed (place ++ rest) name (by rwa [List.append_assoc])

@[simp] theorem lookup_branch (rest : List K) :
    (t.branch place).lookup rest = t.lookup (place ++ rest) := rfl

variable [DecidableEq K]

/-- The tree without what is at and below a place. -/
def remove (t : Hierarchy K V) (place : List K) : Hierarchy K V where
  lookup q := if place <+: q then none else t.lookup q
  closed q name h := by
    split at h
    · cases h
    · rename_i hnot
      rw [if_neg (fun hstart => hnot (hstart.trans (List.prefix_append q [name])))]
      exact t.closed q name h

theorem lookup_remove_eq_some :
    (t.remove place).lookup q = some v ↔ ¬ place <+: q ∧ t.lookup q = some v := by
  unfold remove
  by_cases h : place <+: q
  · simp [h]
  · simp [h]

/-- The tree with a branch put under a name of a place, in the stead of what was there. Nothing
is put there if the place is not occupied. -/
def graft (t b : Hierarchy K V) (place : List K) (name : K) : Hierarchy K V where
  lookup q :=
    if place ++ [name] <+: q then
      if (t.lookup place).isSome then b.lookup (q.drop (place.length + 1)) else none
    else t.lookup q
  closed q k h := by
    by_cases hin : place ++ [name] <+: q
    · have hlength : place.length + 1 ≤ q.length := by simpa using hin.length_le
      rw [if_pos (hin.trans (List.prefix_append q [k])), List.drop_append_of_le_length hlength] at h
      rw [if_pos hin]
      split at h
      · rename_i hplace
        rw [if_pos hplace]
        exact b.closed _ k h
      · cases h
    · rw [if_neg hin]
      split at h
      · rename_i hprefix
        -- the branch's own root is right below the place
        obtain rfl : place = q := by
          obtain heq | hshort := List.prefix_concat_iff.mp hprefix
          · exact (List.append_inj' heq rfl).1
          · exact absurd hshort hin
        split at h
        · assumption
        · cases h
      · exact t.closed q k h

theorem lookup_graft_eq_some : (t.graft b place name).lookup q = some v ↔
    ¬ place ++ [name] <+: q ∧ t.lookup q = some v ∨
      (t.lookup place).isSome ∧ ∃ rest, q = place ++ name :: rest ∧ b.lookup rest = some v := by
  simp only [graft]
  by_cases hin : place ++ [name] <+: q
  · rw [if_pos hin]
    obtain ⟨rest, rfl⟩ := hin
    rw [show (place ++ [name] ++ rest).drop (place.length + 1) = rest from
      List.drop_left' (by simp)]
    by_cases hplace : (t.lookup place).isSome
    · simp [hplace]
    · simp [hplace]
  · simp only [hin, if_false, not_false_eq_true, true_and]
    refine ⟨Or.inl, fun h => h.resolve_right ?_⟩
    rintro ⟨_, rest, rfl, _⟩
    exact hin ⟨rest, by simp⟩

theorem lookup_remove_self : (t.remove place).lookup place = none :=
  if_pos (List.prefix_refl place)

/-- Nothing is removed where there is nothing. -/
theorem remove_of_none (h : t.lookup place = none) : t.remove place = t := by
  refine ext_some (fun q v => ?_)
  rw [lookup_remove_eq_some]
  refine and_iff_right_of_imp ?_
  rintro hq ⟨rest, rfl⟩
  rw [lookup_append_of_none h] at hq
  cases hq

/-- A branch of nothing leaves a place without anything as it is. -/
theorem graft_of_none (h : t.lookup (place ++ [name]) = none) (hb : b.lookup [] = none) :
    t.graft b place name = t := by
  refine ext_some (fun q v => ?_)
  rw [lookup_graft_eq_some]
  constructor
  · rintro (⟨_, hq⟩ | ⟨_, rest, _, hrest⟩)
    · exact hq
    · rw [← List.nil_append rest, lookup_append_of_none hb] at hrest
      cases hrest
  · intro hq
    refine Or.inl ⟨?_, hq⟩
    rintro ⟨rest, rfl⟩
    rw [lookup_append_of_none h] at hq
    cases hq

/-- The tree with the entry of a place changed. -/
def update (t : Hierarchy K V) (place : List K) (f : V → V) : Hierarchy K V where
  lookup q := if q = place then (t.lookup q).map f else t.lookup q
  closed q name h := by
    have hplace : (t.lookup q).isSome := t.closed q name (by
      split at h
      · rwa [Option.isSome_map] at h
      · exact h)
    split
    · rwa [Option.isSome_map]
    · exact hplace

theorem lookup_update_eq_some {f : V → V} : (t.update place f).lookup q = some v ↔
    q ≠ place ∧ t.lookup q = some v ∨ q = place ∧ ∃ u, t.lookup q = some u ∧ f u = v := by
  unfold update
  by_cases h : q = place
  · simp [h]
  · simp [h]

theorem lookup_update_self {f : V → V} : (t.update place f).lookup place = (t.lookup place).map f :=
  if_pos rfl

end Hierarchy
