import Mathlib.Data.List.Nodup
import Mathlib.Tactic.Common

/-- A relational table: its rows in insertion order, no two of them with the
same primary key. -/
structure Table {K R : Type} (key : R → K) where
  rows : List R
  nodup : (rows.map key).Nodup

namespace Table

variable {K R : Type} {key : R → K}

instance : Membership R (Table key) := ⟨fun t r => r ∈ t.rows⟩

theorem mem_def {t : Table key} {r : R} : r ∈ t ↔ r ∈ t.rows := Iff.rfl

@[ext] theorem ext {t u : Table key} (h : t.rows = u.rows) : t = u := by
  cases t
  cases u
  cases h
  rfl

instance [DecidableEq R] : DecidableEq (Table key) := fun t u =>
  decidable_of_iff (t.rows = u.rows) ⟨ext, congrArg rows⟩

/-- Two rows of one table with the same key are the same row. -/
theorem eq_of_key_eq {t : Table key} {r s : R} (hr : r ∈ t) (hs : s ∈ t) (h : key r = key s) :
    r = s :=
  List.inj_on_of_nodup_map t.nodup hr hs h

theorem rows_nodup (t : Table key) : t.rows.Nodup := t.nodup.of_map

def empty : Table key := ⟨[], List.nodup_nil⟩

@[simp] theorem not_mem_empty (r : R) : ¬ r ∈ (empty : Table key) := List.not_mem_nil

def deleteWhere (t : Table key) (p : R → Bool) : Table key :=
  ⟨t.rows.filter (fun r => !p r), t.nodup.sublist (List.filter_sublist.map key)⟩

theorem mem_deleteWhere {t : Table key} {p : R → Bool} {r : R} :
    r ∈ t.deleteWhere p ↔ r ∈ t ∧ p r = false := by
  simp [mem_def, deleteWhere]

/-- Deleting rows that are not there changes nothing. -/
theorem deleteWhere_eq_self {t : Table key} {p : R → Bool} (h : ∀ r ∈ t, p r = false) :
    t.deleteWhere p = t := by
  apply ext
  exact List.filter_eq_self.mpr (fun r hr => by simp [h r hr])

theorem deleteWhere_congr {t : Table key} {p q : R → Bool} (h : ∀ r ∈ t, p r = q r) :
    t.deleteWhere p = t.deleteWhere q := by
  apply ext
  exact List.filter_congr (fun r hr => congrArg _ (h r hr))

theorem deleteWhere_deleteWhere (t : Table key) (p q : R → Bool) :
    (t.deleteWhere p).deleteWhere q = t.deleteWhere (fun r => p r || q r) := by
  apply ext
  simp only [deleteWhere, List.filter_filter]
  apply List.filter_congr
  intro r _
  cases p r <;> cases q r <;> rfl

/-- Rows that are deleted anyway may be deleted before. -/
theorem deleteWhere_of_imp {t : Table key} {p q : R → Bool}
    (h : ∀ r ∈ t, q r = true → p r = true) : (t.deleteWhere q).deleteWhere p = t.deleteWhere p := by
  rw [deleteWhere_deleteWhere]
  refine deleteWhere_congr (fun r hr => ?_)
  cases hq : q r with
  | false => rfl
  | true => exact (h r hr hq).symm

/-- A condition on rows that are kept selects the same rows before and after a deletion. -/
theorem filter_of_deleteWhere (t : Table key) {p q : R → Bool}
    (h : ∀ r, q r = true → p r = false) : (t.deleteWhere p).rows.filter q = t.rows.filter q := by
  simp only [deleteWhere, List.filter_filter]
  refine List.filter_congr (fun r _ => ?_)
  cases hq : q r with
  | false => rfl
  | true => simp [h r hq]

/-- A change or removal of rows that leaves the primary keys of the kept ones alone. -/
structure Reduction (key : R → K) where
  apply : R → Option R
  key_apply : ∀ {r s}, apply r = some s → key s = key r

def reduce (t : Table key) (u : Reduction key) : Table key :=
  ⟨t.rows.filterMap u.apply, by
    have hkeys : ((t.rows.filterMap u.apply).map key).Sublist (t.rows.map key) := by
      induction t.rows with
      | nil => exact List.Sublist.slnil
      | cons r rest ih =>
        cases happly : u.apply r with
        | none =>
          rw [List.filterMap_cons_none happly]
          exact ih.cons _
        | some s =>
          rw [List.filterMap_cons_some happly, List.map_cons, List.map_cons, u.key_apply happly]
          exact ih.cons_cons _
    exact t.nodup.sublist hkeys⟩

theorem mem_reduce {t : Table key} {u : Reduction key} {s : R} :
    s ∈ t.reduce u ↔ ∃ r ∈ t, u.apply r = some s := by
  simp [mem_def, reduce]

/-- A change of rows that leaves their primary keys alone. -/
structure Update (key : R → K) where
  apply : R → R
  key_apply : ∀ r, key (apply r) = key r

variable [DecidableEq K]

/-- The row with the given primary key. -/
def find? (t : Table key) (k : K) : Option R := t.rows.find? (fun r => key r = k)

def contains (t : Table key) (k : K) : Bool := (t.find? k).isSome

/-- Insertion fails on a primary key that is already there. -/
def insert (t : Table key) (r : R) : Option (Table key) :=
  if h : key r ∈ t.rows.map key then none
  else some ⟨t.rows ++ [r], by
    rw [List.map_append, List.map_singleton]
    exact List.Nodup.append t.nodup (List.nodup_singleton _) (by simpa using h)⟩

/-- Updates the row with key `k`. -/
def modify (t : Table key) (k : K) (u : Update key) : Table key :=
  ⟨t.rows.map (fun r => if key r = k then u.apply r else r), by
    have hkeys : (t.rows.map (fun r => if key r = k then u.apply r else r)).map key =
        t.rows.map key := by
      rw [List.map_map]
      apply List.map_congr_left
      intro r _
      by_cases h : key r = k <;> simp [h, u.key_apply]
    rw [hkeys]
    exact t.nodup⟩

/-- Inserts a row, or replaces the one that has its key. -/
def upsert (t : Table key) (r : R) : Table key :=
  match t.insert r with
  | some u => u
  | none => ⟨t.rows.map (fun s => if key s = key r then r else s), by
      have hkeys : (t.rows.map (fun s => if key s = key r then r else s)).map key =
          t.rows.map key := by
        rw [List.map_map]
        apply List.map_congr_left
        intro s _
        by_cases h : key s = key r <;> simp [h]
      rw [hkeys]
      exact t.nodup⟩

/-- Inserts the rows one after another; the whole statement fails when one does. -/
def insertAll (t : Table key) : List R → Option (Table key)
  | [] => some t
  | r :: rest => (t.insert r).bind (fun u => u.insertAll rest)

theorem find?_eq_some {t : Table key} {k : K} {r : R} : t.find? k = some r ↔ r ∈ t ∧ key r = k := by
  constructor
  · intro h
    exact ⟨List.mem_of_find?_eq_some h, by simpa using List.find?_some h⟩
  · rintro ⟨hmem, hkey⟩
    cases hfind : t.find? k with
    | none =>
      have := List.find?_eq_none.mp hfind r hmem
      simp [hkey] at this
    | some s =>
      have hs := List.mem_of_find?_eq_some hfind
      have hskey : key s = k := by simpa using List.find?_some hfind
      rw [eq_of_key_eq hs hmem (hskey.trans hkey.symm)]

@[simp] theorem find?_empty (k : K) : (empty : Table key).find? k = none := rfl

theorem find?_eq_none {t : Table key} {k : K} : t.find? k = none ↔ ∀ r ∈ t, key r ≠ k := by
  simp [find?, mem_def]

theorem find?_key {t : Table key} {r : R} (h : r ∈ t) : t.find? (key r) = some r :=
  find?_eq_some.mpr ⟨h, rfl⟩

theorem mem_of_find? {t : Table key} {k : K} {r : R} (h : t.find? k = some r) : r ∈ t :=
  (find?_eq_some.mp h).1

theorem key_of_find? {t : Table key} {k : K} {r : R} (h : t.find? k = some r) : key r = k :=
  (find?_eq_some.mp h).2

omit [DecidableEq K] in
/-- A search finds the only row that satisfies its condition. -/
theorem find?_of_unique {t : Table key} {p : R → Bool} {r : R} (hr : r ∈ t) (hp : p r = true)
    (hunique : ∀ s ∈ t, p s = true → s = r) : t.rows.find? p = some r := by
  cases hfind : t.rows.find? p with
  | none => exact absurd hp (List.find?_eq_none.mp hfind r hr)
  | some s => rw [hunique s (List.mem_of_find?_eq_some hfind) (List.find?_some hfind)]

theorem contains_iff {t : Table key} {k : K} : t.contains k = true ↔ ∃ r, t.find? k = some r :=
  Option.isSome_iff_exists

/-- A successful insertion had a new key and appended the row. -/
theorem insert_eq_some {t u : Table key} {r : R} :
    t.insert r = some u ↔ t.find? (key r) = none ∧ u.rows = t.rows ++ [r] := by
  have hnone : t.find? (key r) = none ↔ key r ∉ t.rows.map key := by
    rw [find?_eq_none]
    simp [mem_def]
  rw [hnone]
  unfold insert
  by_cases h : key r ∈ t.rows.map key
  · simp [h]
  · rw [dif_neg h, Option.some.injEq]
    exact ⟨fun e => ⟨h, by rw [← e]⟩, fun e => ext e.2.symm⟩

theorem insert_eq_none {t : Table key} {r : R} : t.insert r = none ↔ t.contains (key r) = true := by
  rw [contains_iff]
  unfold insert
  by_cases h : key r ∈ t.rows.map key
  · rw [dif_pos h]
    obtain ⟨s, hs, hkey⟩ := List.mem_map.mp h
    exact ⟨fun _ => ⟨s, find?_eq_some.mpr ⟨hs, hkey⟩⟩, fun _ => rfl⟩
  · rw [dif_neg h]
    constructor
    · intro e
      cases e
    · rintro ⟨s, hs⟩
      exact absurd (List.mem_map.mpr ⟨s, mem_of_find? hs, key_of_find? hs⟩) h

theorem mem_insert {t u : Table key} {r s : R} (h : t.insert r = some u) :
    s ∈ u ↔ s ∈ t ∨ s = r := by
  rw [mem_def, (insert_eq_some.mp h).2]
  simp [mem_def]

theorem find?_insert {t u : Table key} {r : R} (h : t.insert r = some u) (k : K) :
    u.find? k = if key r = k then some r else t.find? k := by
  obtain ⟨hnew, hrows⟩ := insert_eq_some.mp h
  by_cases hk : key r = k
  · subst hk
    rw [if_pos rfl]
    exact find?_key ((mem_insert h).mpr (Or.inr rfl))
  · rw [if_neg hk]
    unfold find?
    rw [hrows, List.find?_append]
    simp [hk]

theorem find?_deleteWhere (t : Table key) (p : R → Bool) (k : K) :
    (t.deleteWhere p).find? k = (t.find? k).filter (fun r => !p r) := by
  ext r
  rw [find?_eq_some, mem_deleteWhere]
  simp only [Option.filter_eq_some_iff, find?_eq_some, Bool.not_eq_true']
  tauto

theorem find?_reduce (t : Table key) (u : Reduction key) (k : K) :
    (t.reduce u).find? k = (t.find? k).bind u.apply := by
  ext s
  rw [find?_eq_some, mem_reduce, Option.bind_eq_some_iff]
  constructor
  · rintro ⟨⟨r, hr, happly⟩, hkey⟩
    exact ⟨r, find?_eq_some.mpr ⟨hr, (u.key_apply happly).symm.trans hkey⟩, happly⟩
  · rintro ⟨r, hfind, happly⟩
    exact ⟨⟨r, mem_of_find? hfind, happly⟩, (u.key_apply happly).trans (key_of_find? hfind)⟩

/-- Deleting exactly what was inserted gives the table back. -/
theorem deleteWhere_insert {t u : Table key} {p : R → Bool} {r : R} (h : t.insert r = some u)
    (hr : p r = true) :
    u.deleteWhere p = t.deleteWhere p := by
  apply ext
  simp [deleteWhere, (insert_eq_some.mp h).2, hr]

section modify

variable {u : Update key}

theorem mem_modify {t : Table key} {k : K} {s : R} :
    s ∈ t.modify k u ↔ ∃ r ∈ t, (if key r = k then u.apply r else r) = s := by
  simp [mem_def, modify]

/-- Modifying a stored row changes this row only. -/
theorem mem_modify_of_mem {t : Table key} {r s : R} (hr : r ∈ t) :
    s ∈ t.modify (key r) u ↔ s = u.apply r ∨ s ∈ t ∧ key s ≠ key r := by
  rw [mem_modify]
  constructor
  · rintro ⟨x, hx, rfl⟩
    by_cases h : key x = key r
    · rw [if_pos h, eq_of_key_eq hx hr h]
      exact Or.inl rfl
    · rw [if_neg h]
      exact Or.inr ⟨hx, h⟩
  · rintro (rfl | ⟨hs, hne⟩)
    · exact ⟨r, hr, if_pos rfl⟩
    · exact ⟨s, hs, if_neg hne⟩

theorem find?_modify (t : Table key) (k k' : K) :
    (t.modify k u).find? k' = if k' = k then (t.find? k).map u.apply else t.find? k' := by
  by_cases hk : k' = k
  · subst hk
    rw [if_pos rfl]
    ext s
    rw [find?_eq_some, mem_modify, Option.map_eq_some_iff]
    constructor
    · rintro ⟨⟨r, hr, rfl⟩, hkey⟩
      by_cases h : key r = k'
      · exact ⟨r, find?_eq_some.mpr ⟨hr, h⟩, by rw [if_pos h]⟩
      · rw [if_neg h] at hkey
        exact absurd hkey h
    · rintro ⟨r, hfind, rfl⟩
      obtain ⟨hr, hkey⟩ := find?_eq_some.mp hfind
      exact ⟨⟨r, hr, by rw [if_pos hkey]⟩, (u.key_apply r).trans hkey⟩
  · rw [if_neg hk]
    ext s
    rw [find?_eq_some, find?_eq_some, mem_modify]
    constructor
    · rintro ⟨⟨r, hr, rfl⟩, hkey⟩
      by_cases h : key r = k
      · rw [if_pos h, u.key_apply] at hkey
        exact absurd (hkey.symm.trans h) hk
      · rw [if_neg h] at hkey ⊢
        exact ⟨hr, hkey⟩
    · rintro ⟨hs, hkey⟩
      exact ⟨⟨s, hs, if_neg (fun h => hk (hkey.symm.trans h))⟩, hkey⟩

/-- Modifying an absent row changes nothing. -/
theorem modify_eq_self {t : Table key} {k : K} (h : t.find? k = none) : t.modify k u = t := by
  apply ext
  simp only [modify]
  rw [List.map_congr_left (g := id), List.map_id]
  intro r hr
  exact if_neg (find?_eq_none.mp h r hr)

end modify

/-- A change of a deleted row that is deleted after it too. -/
theorem deleteWhere_modify {t : Table key} {k : K} {u : Update key} {p : R → Bool}
    (h : ∀ r ∈ t, key r = k → p r = true ∧ p (u.apply r) = true) :
    (t.modify k u).deleteWhere p = t.deleteWhere p := by
  apply ext
  simp only [deleteWhere, modify, List.filter_map]
  have hfilter : t.rows.filter ((fun r => !p r) ∘ fun r => if key r = k then u.apply r else r) =
      t.rows.filter (fun r => !p r) := by
    refine List.filter_congr (fun r hr => ?_)
    by_cases hk : key r = k
    · obtain ⟨hp, hu⟩ := h r hr hk
      simp [hk, hp, hu]
    · simp [hk]
  rw [hfilter, List.map_congr_left (g := id), List.map_id]
  intro r hr
  obtain ⟨hmem, hp⟩ := List.mem_filter.mp hr
  refine if_neg (fun hk => ?_)
  rw [(h r hmem hk).1] at hp
  cases hp

theorem find?_upsert (t : Table key) (r : R) (k : K) :
    (t.upsert r).find? k = if key r = k then some r else t.find? k := by
  unfold upsert
  cases hins : t.insert r with
  | some u => exact find?_insert hins k
  | none =>
    obtain ⟨old, hold⟩ := contains_iff.mp (insert_eq_none.mp hins)
    obtain ⟨holdMem, holdKey⟩ := find?_eq_some.mp hold
    by_cases hk : key r = k
    · subst hk
      rw [if_pos rfl, find?_eq_some]
      exact ⟨List.mem_map.mpr ⟨old, holdMem, if_pos holdKey⟩, rfl⟩
    · rw [if_neg hk]
      ext s
      rw [find?_eq_some, find?_eq_some, mem_def, mem_def, List.mem_map]
      constructor
      · rintro ⟨⟨x, hx, rfl⟩, hkey⟩
        by_cases h : key x = key r
        · rw [if_pos h] at hkey
          exact absurd hkey hk
        · rw [if_neg h] at hkey ⊢
          exact ⟨hx, hkey⟩
      · rintro ⟨hs, hkey⟩
        exact ⟨⟨s, hs, if_neg (fun h => hk (h.symm.trans hkey))⟩, hkey⟩

theorem upsert_eq_self {t : Table key} {r : R} (h : r ∈ t) : t.upsert r = t := by
  unfold upsert
  rw [insert_eq_none.mpr (contains_iff.mpr ⟨r, find?_key h⟩)]
  apply ext
  dsimp only
  rw [List.map_congr_left (g := id), List.map_id]
  intro s hs
  by_cases hkey : key s = key r
  · rw [if_pos hkey]
    exact eq_of_key_eq h hs hkey.symm
  · exact if_neg hkey

/-- An upsert adds a row exactly for a new key. -/
theorem length_upsert (t : Table key) (r : R) :
    (t.upsert r).rows.length = t.rows.length + if t.contains (key r) then 0 else 1 := by
  unfold upsert
  cases hins : t.insert r with
  | some u =>
    obtain ⟨hnone, hrows⟩ := insert_eq_some.mp hins
    simp [hrows, contains, hnone]
  | none =>
    rw [if_pos (insert_eq_none.mp hins)]
    exact List.length_map _

/-- The rows together with those that are missing for some keys: the rows of other keys, and one
for each of these. -/
theorem length_add_missing (t : Table key) {ks : List K} (hnodup : ks.Nodup) {p : R → Bool}
    (hp : ∀ r ∈ t, p r = true ↔ key r ∉ ks) :
    t.rows.length + (ks.filter (fun k => ! t.contains k)).length = t.rows.countP p + ks.length := by
  have hperm : ((t.rows.map key).filter (fun k => k ∈ ks)).Perm
      (ks.filter (fun k => t.contains k)) := by
    rw [List.perm_ext_iff_of_nodup (t.nodup.filter _) (hnodup.filter _)]
    intro k
    have hmem : k ∈ t.rows.map key ↔ t.contains k = true := by
      rw [contains_iff, List.mem_map]
      exact ⟨fun ⟨r, hr, hkey⟩ => ⟨r, find?_eq_some.mpr ⟨hr, hkey⟩⟩, fun ⟨r, hfind⟩ =>
        ⟨r, mem_of_find? hfind, key_of_find? hfind⟩⟩
    rw [List.mem_filter, List.mem_filter, hmem, decide_eq_true_eq, and_comm]
  have hlength := hperm.length_eq
  rw [List.filter_map, List.length_map] at hlength
  have hothers : t.rows.countP p = t.rows.countP (fun r => decide ¬ decide (key r ∈ ks) = true) :=
    List.countP_congr (fun r hr => by simp [hp r hr])
  have hrows := List.length_eq_countP_add_countP (fun r => decide (key r ∈ ks)) (l := t.rows)
  have hkeys := List.length_eq_countP_add_countP (fun k => t.contains k) (l := ks)
  rw [hothers]
  simp only [List.countP_eq_length_filter, Bool.not_eq_true, decide_eq_true_eq] at hrows hkeys ⊢
  have hsame : (ks.filter (fun k => decide (t.contains k = false))).length =
      (ks.filter (fun k => ! t.contains k)).length := by
    congr 2
    funext k
    cases t.contains k <;> rfl
  simp only [Function.comp_def] at hlength
  omega

theorem insertAll_rows {t u : Table key} {rows : List R} (h : t.insertAll rows = some u) :
    u.rows = t.rows ++ rows := by
  induction rows generalizing t with
  | nil =>
    cases h
    exact (List.append_nil _).symm
  | cons r rest ih =>
    obtain ⟨t₁, hins, hrest⟩ := Option.bind_eq_some_iff.mp h
    rw [ih hrest, (insert_eq_some.mp hins).2, List.append_assoc, List.singleton_append]

theorem find?_insertAll {t u : Table key} {rows : List R} (h : t.insertAll rows = some u) (k : K) :
    u.find? k = (t.find? k).or (rows.find? (fun r => key r = k)) := by
  induction rows generalizing t with
  | nil =>
    cases h
    simp
  | cons r rest ih =>
    obtain ⟨v, hins, hrest⟩ := Option.bind_eq_some_iff.mp h
    rw [ih hrest, find?_insert hins]
    by_cases hk : key r = k
    · subst hk
      simp [(insert_eq_some.mp hins).1]
    · simp [hk]

/-- Rows of distinct keys that are not taken are inserted. -/
theorem insertAll_total (t : Table key) (rows : List R) (hfree : ∀ r ∈ rows, t.find? (key r) = none)
    (hnodup : (rows.map key).Nodup) : ∃ u, t.insertAll rows = some u := by
  induction rows generalizing t with
  | nil => exact ⟨t, rfl⟩
  | cons r rest ih =>
    cases hins : t.insert r with
    | none =>
      obtain ⟨s, hs⟩ := contains_iff.mp (insert_eq_none.mp hins)
      rw [hfree r List.mem_cons_self] at hs
      cases hs
    | some v =>
      rw [List.map_cons, List.nodup_cons] at hnodup
      obtain ⟨u, hu⟩ := ih v (fun s hs => by
        rw [find?_insert hins, if_neg]
        · exact hfree s (List.mem_cons_of_mem r hs)
        · exact fun heq => hnodup.1 (List.mem_map.mpr ⟨s, hs, heq.symm⟩)) hnodup.2
      exact ⟨u, by rw [insertAll, hins, Option.bind_some, hu]⟩

theorem deleteWhere_insertAll {t u : Table key} {p : R → Bool} {rows : List R}
    (h : t.insertAll rows = some u) (hp : ∀ r ∈ rows, p r = true) :
    u.deleteWhere p = t.deleteWhere p := by
  induction rows generalizing t with
  | nil =>
    cases h
    rfl
  | cons r rest ih =>
    obtain ⟨v, hins, hrest⟩ := Option.bind_eq_some_iff.mp h
    rw [ih hrest (fun s hs => hp s (List.mem_cons_of_mem r hs))]
    exact deleteWhere_insert hins (hp r List.mem_cons_self)

theorem deleteWhere_upsert {t : Table key} {p : R → Bool} {r : R}
    (hp : ∀ s, key s = key r → p s = true) :
    (t.upsert r).deleteWhere p = t.deleteWhere p := by
  unfold upsert
  cases hins : t.insert r with
  | some u => exact deleteWhere_insert hins (hp r rfl)
  | none =>
    apply ext
    simp only [deleteWhere, List.filter_map]
    have hfilter : List.filter ((fun s => !p s) ∘ fun s => if key s = key r then r else s) t.rows =
        List.filter (fun s => !p s) t.rows := by
      apply List.filter_congr
      intro s _
      by_cases h : key s = key r
      · simp [h, hp s h, hp r rfl]
      · simp [h]
    rw [hfilter, List.map_congr_left (g := id), List.map_id]
    intro s hs
    apply if_neg
    intro h
    simp [hp s h] at hs

end Table
