import Mathlib.Data.List.Basic
import Mathlib.Tactic.Common

variable {A : Type}

/-- The `i`-th piece of a list that is cut into pieces of a given size. -/
def piece (size : Nat) (l : List A) (i : Nat) : List A := (l.drop (i * size)).take size

/-- The `i`-th piece, where the list reaches that far. -/
def piece? (size : Nat) (l : List A) (i : Nat) : Option (List A) :=
  if i * size < l.length then some (piece size l i) else none

theorem piece_length (size : Nat) (l : List A) (i : Nat) :
    (piece size l i).length = min size (l.length - i * size) := by
  simp [piece]

theorem piece?_eq_some {size : Nat} {l p : List A} {i : Nat} :
    piece? size l i = some p ↔ i * size < l.length ∧ p = piece size l i := by
  unfold piece?
  split
  · rename_i h
    simp [h, eq_comm]
  · rename_i h
    simp [h]

theorem piece?_eq_none {size : Nat} {l : List A} {i : Nat} :
    piece? size l i = none ↔ l.length ≤ i * size := by
  simp [piece?]

/-- Putting consecutive pieces together gives the part of the list they cover. -/
theorem flatMap_piece (size : Nat) (l : List A) (start n : Nat) :
    (List.range' start n).flatMap (piece size l) = (l.drop (start * size)).take (n * size) := by
  induction n generalizing start with
  | zero => simp
  | succ n ih =>
    rw [List.range'_succ, List.flatMap_cons, ih, piece, Nat.succ_mul, Nat.succ_mul,
      Nat.add_comm (n * size), List.take_add,
      List.drop_drop]

/-- Lists of one length with the same pieces are the same. -/
theorem eq_of_piece?_eq {size : Nat} (hsize : 0 < size) {l m : List A}
    (hlength : l.length = m.length) (h : ∀ i, piece? size l i = piece? size m i) : l = m := by
  have hpiece : piece size l = piece size m := by
    funext i
    have hi := h i
    unfold piece? at hi
    by_cases hlt : i * size < l.length
    · rw [if_pos hlt, if_pos (hlength ▸ hlt), Option.some.injEq] at hi
      exact hi
    · rw [piece, piece, List.drop_of_length_le (Nat.not_lt.mp hlt),
        List.drop_of_length_le (hlength ▸ Nat.not_lt.mp hlt)]
  have hwhole : ∀ k : List A, (List.range' 0 k.length).flatMap (piece size k) = k := by
    intro k
    rw [flatMap_piece, Nat.zero_mul, List.drop_zero,
      List.take_of_length_le (Nat.le_mul_of_pos_right _ hsize)]
  rw [← hwhole l, ← hwhole m, hlength, hpiece]

/-- A prefix of whole pieces has the first pieces of the list. -/
theorem piece?_take {size : Nat} (hsize : 0 < size) (l : List A) (k i : Nat) :
    piece? size (l.take (k * size)) i = if i < k then piece? size l i else none := by
  by_cases hik : i < k
  · have hle : (i + 1) * size ≤ k * size := Nat.mul_le_mul_right size hik
    rw [Nat.succ_mul] at hle
    have hmin : min size (k * size - i * size) = size := by omega
    rw [if_pos hik]
    unfold piece? piece
    rw [List.length_take, List.drop_take, List.take_take, hmin]
    by_cases hlt : i * size < l.length
    · rw [if_pos hlt, if_pos (by omega)]
    · rw [if_neg hlt, if_neg (by omega)]
  · rw [if_neg hik, piece?_eq_none, List.length_take]
    have hle : k * size ≤ i * size := Nat.mul_le_mul_right size (by omega)
    omega

/-- Appending one more piece to whole pieces. -/
theorem piece?_append {size k : Nat} {l c : List A} (hl : l.length = k * size) (hc : c ≠ [])
    (hle : c.length ≤ size) (i : Nat) :
    piece? size (l ++ c) i = if i = k then some c else piece? size l i := by
  have hpos : 0 < c.length := List.length_pos_iff.mpr hc
  by_cases hik : i = k
  · subst hik
    rw [if_pos rfl, piece?_eq_some, List.length_append, piece,
      List.drop_append_of_le_length (by omega)]
    refine ⟨by omega, ?_⟩
    rw [List.drop_of_length_le (by omega), List.nil_append, List.take_of_length_le hle]
  · rw [if_neg hik]
    by_cases hlt : i < k
    · have hle' : (i + 1) * size ≤ k * size := Nat.mul_le_mul_right size hlt
      rw [Nat.succ_mul] at hle'
      unfold piece? piece
      rw [List.length_append, List.drop_append_of_le_length (by omega),
        List.take_append_of_le_length
        (by rw [List.length_drop]; omega)]
      by_cases hlen : i * size < l.length
      · rw [if_pos hlen, if_pos (by omega)]
      · have hsize : size = 0 := by omega
        omega
    · have hle' : (k + 1) * size ≤ i * size := Nat.mul_le_mul_right size (by omega)
      rw [Nat.succ_mul] at hle'
      rw [piece?_eq_none.mpr (by rw [List.length_append]; omega), piece?_eq_none.mpr (by omega)]

/-- The last piece of a prefix is cut short, the ones before it are whole. -/
theorem piece_take {size : Nat} (hsize : 0 < size) (l : List A) {stop i : Nat} (hstop : 0 < stop)
    (hi : i ≤ (stop - 1) / size) : piece size (l.take stop) i =
      if i = (stop - 1) / size then (piece size l i).take
        ((stop - 1) % size + 1) else piece size l i := by
  have hdiv := Nat.div_add_mod (stop - 1) size
  have hmod := Nat.mod_lt (stop - 1) hsize
  rw [Nat.mul_comm] at hdiv
  unfold piece
  rw [List.drop_take, List.take_take]
  by_cases heq : i = (stop - 1) / size
  · rw [if_pos heq, List.take_take, heq]
    congr 1
    omega
  · rw [if_neg heq]
    have hle : (i + 1) * size ≤ (stop - 1) / size * size := Nat.mul_le_mul_right size (by omega)
    rw [Nat.succ_mul] at hle
    congr 1
    omega

/-- The pieces of a prefix from a position on, the first of them cut there,
put together. -/
theorem flatMap_slice {size : Nat} (hsize : 0 < size) {l : List A} {start stop : Nat}
    (hstart : start < stop) (hstop : stop ≤ l.length) :
    (List.range' (start / size) ((stop - 1) / size + 1 - start / size)).flatMap (fun i =>
      if i = start / size then (piece size (l.take stop) i).drop (start % size) else piece size
        (l.take stop) i) =
    (l.take stop).drop start := by
  have hdiv := Nat.div_add_mod start size
  have hdiv' := Nat.div_add_mod (stop - 1) size
  have hmod := Nat.mod_lt start hsize
  have hmod' := Nat.mod_lt (stop - 1) hsize
  have hpieces : start / size ≤ (stop - 1) / size := Nat.div_le_div_right (by omega)
  have hlength : (l.take stop).length = stop := by rw [List.length_take]; omega
  rw [Nat.mul_comm] at hdiv hdiv'
  generalize start / size = first at *
  generalize (stop - 1) / size = last at *
  obtain ⟨n, rfl⟩ : ∃ n, last = first + n := ⟨last - first, by omega⟩
  rw [show first + n + 1 - first = n + 1 by omega, List.range'_succ, List.flatMap_cons, if_pos rfl]
  have htail : (List.range' (first + 1) n).flatMap (fun i =>
      if i = first then (piece size (l.take stop) i).drop (start % size) else piece size
        (l.take stop) i) =
      (List.range' (first + 1) n).flatMap (piece size (l.take stop)) := by
    apply List.flatMap_congr
    intro i hi
    rw [List.mem_range'_1] at hi
    rw [if_neg (by omega)]
  have hwhole := flatMap_piece size (l.take stop) first (n + 1)
  rw [List.range'_succ, List.flatMap_cons] at hwhole
  rw [Nat.add_mul] at hdiv'
  rw [htail, ← List.drop_append_of_le_length, hwhole, List.take_of_length_le, List.drop_drop, hdiv]
  · rw [List.length_drop, hlength, Nat.succ_mul]
    omega
  · rw [piece_length, hlength]
    omega
