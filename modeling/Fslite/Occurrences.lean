import Mathlib.Data.List.Infix
import Mathlib.Tactic.Common

variable {A : Type} {needle text front back : List A} {i base : Nat}

/-- The needle stands in the text from a position on. -/
def Occurs (needle text : List A) (i : Nat) : Prop := needle <+: text.drop i

theorem occurs_iff_take : Occurs needle text i ↔ (text.drop i).take needle.length = needle := by
  rw [Occurs, List.prefix_iff_eq_take, eq_comm]

/-- What is not empty stands within the text. -/
theorem Occurs.fits (h : Occurs needle text i) (hneedle : needle ≠ []) :
    i + needle.length ≤ text.length := by
  have hle := h.length_le
  have hpos := List.length_pos_iff.mpr hneedle
  rw [List.length_drop] at hle
  omega

/-- The occurrences in the rest of the text are those from there on. -/
theorem occurs_drop : Occurs needle (text.drop base) i ↔ Occurs needle text (base + i) := by
  rw [Occurs, Occurs, List.drop_drop]

/-- An occurrence within the front does not depend on what follows it. -/
theorem occurs_append (hfits : i + needle.length ≤ front.length) :
    Occurs needle (front ++ back) i ↔ Occurs needle front i := by
  have hle : needle.length ≤ (front.drop i).length := by
    rw [List.length_drop]
    omega
  rw [occurs_iff_take, occurs_iff_take, List.drop_append_of_le_length (by omega),
    List.take_append_of_le_length hle]

/-- The positions are those at which the needle stands in the text, in order. -/
structure AllOccurrences (needle text : List A) (positions : List Nat) : Prop where
  increasing : positions.Pairwise (· < ·)
  exact : ∀ i, i ∈ positions ↔ Occurs needle text i

namespace AllOccurrences

variable {positions positions' : List Nat}

theorem nil (hneedle : needle ≠ []) : AllOccurrences needle ([] : List A) [] where
  increasing := .nil
  exact i := by
    refine iff_of_false List.not_mem_nil (fun h => ?_)
    have hfits := h.fits hneedle
    have hpos := List.length_pos_iff.mpr hneedle
    rw [List.length_nil] at hfits
    omega

/-- The positions are determined. -/
theorem unique (h : AllOccurrences needle text positions)
    (h' : AllOccurrences needle text positions') : positions = positions' :=
  List.Perm.eq_of_pairwise (fun _ _ _ _ hlt hlt' =>
    absurd (hlt.trans hlt') (lt_irrefl _)) h.increasing h'.increasing
    ((List.perm_ext_iff_of_nodup (h.increasing.imp ne_of_lt) (h'.increasing.imp ne_of_lt)).mpr
      (fun i => (h.exact i).trans (h'.exact i).symm))

/-- Where the text goes on, the occurrences that are new are among those in the new text
with one element less than the needle before it. -/
theorem append (hneedle : needle ≠ []) (hfront : AllOccurrences needle front positions)
    (hbase : base = front.length - (needle.length - 1))
    (hback : AllOccurrences needle ((front ++ back).drop base) positions') :
    AllOccurrences needle (front ++ back) (positions ++ positions'.map (base + ·)) := by
  have hpos := List.length_pos_iff.mpr hneedle
  have hbefore : ∀ i ∈ positions, i + needle.length ≤ front.length :=
    fun i hi => ((hfront.exact i).mp hi).fits hneedle
  constructor
  · refine List.pairwise_append.mpr ⟨hfront.increasing, ?_, fun i hi j hj => ?_⟩
    · exact List.pairwise_map.mpr (hback.increasing.imp (fun hlt => by omega))
    · obtain ⟨k, _, rfl⟩ := List.mem_map.mp hj
      have hlt := hbefore i hi
      omega
  · intro i
    rw [List.mem_append, List.mem_map]
    constructor
    · rintro (hi | ⟨k, hk, rfl⟩)
      · exact (occurs_append (hbefore i hi)).mpr ((hfront.exact i).mp hi)
      · exact occurs_drop.mp ((hback.exact k).mp hk)
    · intro hoccurs
      by_cases hi : i + needle.length ≤ front.length
      · exact Or.inl ((hfront.exact i).mpr ((occurs_append hi).mp hoccurs))
      · have hbase : base ≤ i := by omega
        refine Or.inr ⟨i - base, (hback.exact _).mpr (occurs_drop.mpr ?_), by omega⟩
        rwa [Nat.add_sub_cancel' hbase]

end AllOccurrences
