import Mathlib.Algebra.Order.Group.Basic
import Mathlib.Data.List.Count
import Mathlib.Tactic.Common

namespace fslite

variable {T : Type} [AddCommGroup T] [LinearOrder T]

/-- The times that a window of the given width still holds when it ends at `now`. -/
def recent (width now : T) (times : List T) : List T :=
  times.filter (fun time => now - width < time)

variable {width now later time : T} {times : List T}

theorem mem_recent : time ∈ recent width now times ↔ time ∈ times ∧ now - width < time := by
  rw [recent, List.mem_filter, decide_eq_true_eq]

theorem recent_append (others : List T) :
    recent width now (times ++ others) = recent width now times ++ recent width now others :=
  List.filter_append ..

theorem recent_eq_self (h : ∀ time ∈ times, now - width < time) :
    recent width now times = times := by
  rw [recent, List.filter_eq_self]
  simpa using h

/-- No span of time that is shorter than the width has more than `limit` of the times. -/
def Sparse (limit : Nat) (width : T) (times : List T) : Prop :=
  ∀ span : T → Bool, (∀ a b, span a → span b → a < b + width) → times.countP span ≤ limit

theorem sparse_nil (limit : Nat) : Sparse limit width ([] : List T) := fun _ _ => Nat.zero_le _

variable [IsOrderedAddMonoid T]

/-- A later window holds nothing that an earlier one no longer did. -/
theorem recent_recent (h : now ≤ later) :
    recent width later (recent width now times) = recent width later times := by
  rw [recent, recent, recent, List.filter_filter]
  apply List.filter_congr
  intro time _
  by_cases hlater : later - width < time
  · have hnow : now - width < time := lt_of_le_of_lt (sub_le_sub_right h width) hlater
    simp [hlater, hnow]
  · simp [hlater]

/-- Times stay sparse under one more, at the end of a window that still has room. -/
theorem Sparse.concat {limit : Nat} (h : Sparse limit width times)
    (hroom : (recent width now times).length < limit) :
    Sparse limit width (times ++ [now]) := by
  intro span hspan
  rw [List.countP_append, List.countP_singleton]
  by_cases hnow : span now
  · have hrecent : times.countP span ≤ (recent width now times).length := by
      rw [recent, ← List.countP_eq_length_filter]
      apply List.countP_mono_left
      intro time _ htime
      have hwithin := hspan now time hnow htime
      exact decide_eq_true (sub_lt_iff_lt_add.mpr hwithin)
    rw [if_pos hnow]
    omega
  · rw [if_neg hnow]
    exact h span hspan

/-- Both kinds of half-open intervals as long as the width are such spans. -/
theorem Sparse.intervals {limit : Nat} (h : Sparse limit width times) (start : T) :
    times.countP (fun time => start ≤ time ∧ time < start + width) ≤ limit ∧
      times.countP (fun time => start < time ∧ time ≤ start + width) ≤ limit := by
  constructor
  · apply h
    intro a b ha hb
    have ha := of_decide_eq_true ha
    have hb := of_decide_eq_true hb
    exact lt_of_lt_of_le ha.2 (by gcongr; exact hb.1)
  · apply h
    intro a b ha hb
    have ha := of_decide_eq_true ha
    have hb := of_decide_eq_true hb
    exact lt_of_le_of_lt ha.2 (by gcongr; exact hb.1)

end fslite
