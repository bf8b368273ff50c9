import Fslite.Sqlite.Search

namespace fslite.search

/-- A pattern matches a list of names when its segments cover them in their order:
`**` covers any number of names, every other segment one name that it matches. -/
inductive Matches : List PatternSegment → List Text → Prop
  | nil : Matches [] []
  | segment {segment : PatternSegment} {name : Text} {pattern : List PatternSegment}
    {names : List Text} :
      segment ≠ .DoubleStar → segment_matches segment name = true → Matches pattern names →
      Matches (segment :: pattern) (name :: names)
  | skip {pattern : List PatternSegment} {names : List Text} :
    Matches pattern names → Matches (.DoubleStar :: pattern) names
  | more {pattern : List PatternSegment} {name : Text} {names : List Text} :
      Matches (.DoubleStar :: pattern) names → Matches (.DoubleStar :: pattern) (name :: names)

theorem matches_nil_iff {names : List Text} : Matches [] names ↔ names = [] := by
  constructor
  · intro h
    cases h
    rfl
  · rintro rfl
    exact Matches.nil

theorem matches_segment_iff {segment : PatternSegment} (hsegment : segment ≠ .DoubleStar)
    {pattern : List PatternSegment} {names : List Text} : Matches (segment :: pattern) names ↔
      ∃ name rest, names = name :: rest ∧ segment_matches segment name = true ∧
      Matches pattern rest := by
  constructor
  · intro h
    cases h with
    | segment _ hname hrest => exact ⟨_, _, rfl, hname, hrest⟩
    | skip => exact absurd rfl hsegment
    | more => exact absurd rfl hsegment
  · rintro ⟨name, rest, rfl, hname, hrest⟩
    exact Matches.segment hsegment hname hrest

theorem matches_star_iff {pattern : List PatternSegment} {names : List Text} :
    Matches (.DoubleStar :: pattern) names ↔ ∃ k, Matches pattern (names.drop k) := by
  constructor
  · intro h
    induction names with
    | nil =>
      cases h with
      | skip hrest => exact ⟨0, hrest⟩
    | cons name names ih =>
      cases h with
      | segment hne => exact absurd rfl hne
      | skip hrest => exact ⟨0, hrest⟩
      | more hmore =>
        obtain ⟨k, hk⟩ := ih hmore
        exact ⟨k + 1, hk⟩
  · rintro ⟨k, hk⟩
    induction k generalizing names with
    | zero => exact Matches.skip hk
    | succ k ih =>
      cases names with
      | nil => exact Matches.skip hk
      | cons name names => exact Matches.more (ih hk)

/-- A cell of the row after `**` is set from the first cell on that was set before. -/
theorem getElem?_glob_row_star {candidate : List Text} {row : List Bool} {j : Nat} :
    (glob_row candidate row .DoubleStar)[j]? = some true ↔ j < row.length ∧ ∃ i ≤ j,
    row[i]? = some true := by
  cases row with
  | nil => simp [glob_row]
  | cons first rest =>
    simp only [glob_row]
    induction rest generalizing first j with
    | nil =>
      cases j with
      | zero => simp
      | succ j => simp
    | cons above rest ih =>
      rw [List.scanl_cons]
      cases j with
      | zero => simp
      | succ j =>
        rw [List.getElem?_cons_succ, ih]
        simp only [List.length_cons, Nat.add_lt_add_iff_right]
        refine and_congr_right' ⟨?_, ?_⟩
        · rintro ⟨i, hi, hset⟩
          cases i with
          | zero =>
            rw [List.getElem?_cons_zero, Option.some.injEq, Bool.or_eq_true] at hset
            obtain habove | hfirst := hset
            · exact ⟨1, by omega, by simp [habove]⟩
            · exact ⟨0, by omega, by simp [hfirst]⟩
          | succ i => exact ⟨i + 2, by omega, by simpa using hset⟩
        · rintro ⟨i, hi, hset⟩
          cases i with
          | zero => exact ⟨0, by omega, by simp_all⟩
          | succ i =>
            cases i with
            | zero => exact ⟨0, by omega, by simp_all⟩
            | succ i => exact ⟨i + 1, by omega, by simpa using hset⟩

/-- A cell of the row after another segment is set when the cell up and to the left was
set and the segment matches the name. -/
theorem getElem?_glob_row_segment {candidate : List Text} {row : List Bool}
    {segment : PatternSegment} (hsegment : segment ≠ .DoubleStar) {j : Nat} :
    (glob_row candidate row segment)[j]? = some true ↔
      ∃ i name, j = i + 1 ∧ row[i]? = some true ∧ candidate[i]? = some name ∧
      segment_matches segment name = true := by
  have hrow : glob_row candidate row segment =
      false :: List.zipWith (fun above name => above &&
        segment_matches segment name) row candidate := by
    cases segment with
    | DoubleStar => exact absurd rfl hsegment
    | Literal name => rfl
    | Glob pattern => rfl
  rw [hrow]
  cases j with
  | zero => simp
  | succ j =>
    rw [List.getElem?_cons_succ, List.getElem?_zipWith_eq_some]
    constructor
    · rintro ⟨above, name, hi, hname, hset⟩
      obtain ⟨rfl, hmatch⟩ := (Bool.and_eq_true _ _).mp hset
      exact ⟨j, name, rfl, hi, hname, hmatch⟩
    · rintro ⟨i, name, hj, hi, hname, hmatch⟩
      obtain rfl : j = i := by omega
      exact ⟨true, name, hi, hname, by simp [hmatch]⟩

theorem length_glob_row {candidate : List Text} {row : List Bool}
    (h : row.length = candidate.length + 1) (segment : PatternSegment) :
    (glob_row candidate row segment).length = candidate.length + 1 := by
  obtain ⟨first, rest, rfl⟩ := List.exists_cons_of_length_eq_add_one h
  cases segment <;> simp_all [glob_row]

/-- What the table says at the end, from any row on: some set cell is the place from
which the rest of the pattern matches the rest of the names. -/
theorem glob_table_iff {candidate : List Text} (pattern : List PatternSegment) {row : List Bool}
    (hlength : row.length = candidate.length + 1) :
    (pattern.foldl (glob_row candidate) row).getLast?.getD false = true ↔
      ∃ j, row[j]? = some true ∧ Matches pattern (candidate.drop j) := by
  induction pattern generalizing row with
  | nil =>
    rw [List.foldl_nil, List.getLast?_eq_getElem?, hlength, Nat.add_sub_cancel]
    constructor
    · intro hlast
      refine ⟨candidate.length, ?_, by rw [List.drop_length]; exact Matches.nil⟩
      cases hcell : row[candidate.length]? with
      | none => rw [hcell] at hlast; cases hlast
      | some cell => rw [hcell] at hlast; exact congrArg some hlast
    · rintro ⟨j, hj, hmatch⟩
      have hdone := List.drop_eq_nil_iff.mp (matches_nil_iff.mp hmatch)
      have hlt := (List.getElem?_eq_some_iff.mp hj).1
      obtain rfl : j = candidate.length := by omega
      rw [hj, Option.getD_some]
  | cons segment pattern ih =>
    rw [List.foldl_cons, ih (length_glob_row hlength segment)]
    by_cases hstar : segment = .DoubleStar
    · subst hstar
      simp only [getElem?_glob_row_star, matches_star_iff, List.drop_drop]
      constructor
      · rintro ⟨j, ⟨_, i, hi, hset⟩, hmatch⟩
        exact ⟨i, hset, j - i, by rwa [Nat.add_sub_cancel' hi]⟩
      · rintro ⟨i, hset, k, hmatch⟩
        -- beyond the last name there is nothing left to skip
        have hlt := (List.getElem?_eq_some_iff.mp hset).1
        by_cases hk : i + k < row.length
        · exact ⟨i + k, ⟨hk, i, by omega, hset⟩, hmatch⟩
        · rw [List.drop_eq_nil_of_le (by omega)] at hmatch
          exact ⟨candidate.length, ⟨by omega, i, by omega, hset⟩, by rwa [List.drop_length]⟩
    · simp only [getElem?_glob_row_segment hstar, matches_segment_iff hstar]
      constructor
      · rintro ⟨_, ⟨i, name, rfl, hset, hname, hmatches⟩, hrest⟩
        exact ⟨i, hset, name, _, (List.drop_eq_getElem?_toList_append).trans (by rw [hname]; rfl),
          hmatches, hrest⟩
      · rintro ⟨i, hset, name, rest, hdrop, hmatches, hrest⟩
        refine ⟨i + 1, ⟨i, name, rfl, hset, ?_, hmatches⟩, ?_⟩
        · rw [← List.head?_drop, hdrop, List.head?_cons]
        · rwa [← List.tail_drop, hdrop, List.tail_cons]

/-- The table of `glob_match` decides whether the pattern matches. -/
theorem glob_match_iff {pattern : List PatternSegment} {candidate : List Text} :
    glob_match pattern candidate = true ↔ Matches pattern candidate := by
  rw [glob_match, glob_table_iff pattern (by simp)]
  constructor
  · rintro ⟨j, hj, hmatch⟩
    cases j with
    | zero => exact hmatch
    | succ j => simp [List.getElem?_replicate] at hj
  · exact fun hmatch => ⟨0, rfl, hmatch⟩

/-- A pattern that begins with names matches what begins with them too. -/
theorem matches_literals_iff {lits : List Text} {pattern : List PatternSegment}
    {names : List Text} :
    Matches (lits.map .Literal ++ pattern) names ↔ ∃ rest, names = lits ++ rest ∧
    Matches pattern rest := by
  induction lits generalizing names with
  | nil => simp
  | cons lit lits ih =>
    rw [List.map_cons, List.cons_append, matches_segment_iff (by simp)]
    constructor
    · rintro ⟨name, rest, rfl, hname, hrest⟩
      obtain ⟨rest, rfl, hmatch⟩ := ih.mp hrest
      obtain rfl : lit = name := by simpa [segment_matches] using hname
      exact ⟨rest, rfl, hmatch⟩
    · rintro ⟨rest, rfl, hmatch⟩
      exact ⟨lit, lits ++ rest, rfl, by simp [segment_matches], ih.mpr ⟨rest, rfl, hmatch⟩⟩

/-- The names at which a list of segments begins. -/
def literals : List PatternSegment → List Text
  | .Literal name :: rest => name :: literals rest
  | _ => []

/-- `segment_matches` with its unreachable arm. -/
def checked_segment_matches : PatternSegment → Text → Option Bool
  | .Literal expected, name => some (expected = name)
  | .Glob pattern, name => some (wildcard_match pattern name)
  | .DoubleStar, _ => none

/-- The row of the table that follows the given one, if no cell of it reaches the
unreachable arm. The segment is compared only where the cell before is set. -/
def checked_glob_row (candidate : List Text) (row : List Bool) : PatternSegment → Option (List Bool)
  | .DoubleStar => some (glob_row candidate row .DoubleStar)
  | segment => do
    let cells ← (row.zip candidate).mapM
      (fun cell => if cell.1 then checked_segment_matches segment cell.2 else some false)
    return false :: cells

def checked_glob_match (pattern : List PatternSegment) (candidate : List Text) : Option Bool :=
  (pattern.foldlM (checked_glob_row candidate) (true :: candidate.map (fun _ => false))).map
    (fun row => row.getLast?.getD false)

theorem checked_cells_eq {segment : PatternSegment} (hsegment : segment ≠ .DoubleStar)
    (row : List Bool) (candidate : List Text) :
    (row.zip candidate).mapM (fun cell =>
    if cell.1 then checked_segment_matches segment cell.2 else some false) =
      some (List.zipWith (fun above name => above &&
        segment_matches segment name) row candidate) := by
  have hcell : ∀ (above : Bool) (name : Text),
    (if above then checked_segment_matches segment name else some false) =
      some (above && segment_matches segment name) := by
    intro above name
    cases above with
    | false => rfl
    | true =>
      cases segment with
      | DoubleStar => exact absurd rfl hsegment
      | Literal expected => rfl
      | Glob pattern => rfl
  induction row generalizing candidate with
  | nil => rfl
  | cons above row ih =>
    cases candidate with
    | nil => rfl
    | cons name candidate =>
      rw [List.zip_cons_cons, List.mapM_cons, hcell, ih]
      rfl

theorem checked_glob_row_eq (candidate : List Text) (row : List Bool) (segment : PatternSegment) :
    checked_glob_row candidate row segment = some (glob_row candidate row segment) := by
  cases segment with
  | DoubleStar => rfl
  | Literal name => simp [checked_glob_row, checked_cells_eq, glob_row]
  | Glob pattern => simp [checked_glob_row, checked_cells_eq, glob_row]

/-- The table never reaches the unreachable arm. -/
theorem checked_glob_match_eq (pattern : List PatternSegment) (candidate : List Text) :
    checked_glob_match pattern candidate = some (glob_match pattern candidate) := by
  have htable : ∀ row, pattern.foldlM (checked_glob_row candidate) row =
      some (pattern.foldl (glob_row candidate) row) := by
    induction pattern with
    | nil => exact fun _ => rfl
    | cons segment pattern ih =>
      intro row
      rw [List.foldlM_cons, checked_glob_row_eq, Option.bind_eq_bind, Option.bind_some, ih,
        List.foldl_cons]
  rw [checked_glob_match, htable, Option.map_some, glob_match]

/-- A segment of a pattern has characters and no slash. -/
theorem compile_pattern_literal {pattern : Text} {compiled : List PatternSegment}
    (h : compile_pattern pattern = .ok compiled) {name : Text}
    (hname : PatternSegment.Literal name ∈ compiled) : name ≠ [] ∧ '/' ∉ name := by
  unfold compile_pattern at h
  split at h
  · cases h
  · cases h
    obtain ⟨segment, hsegment, heq⟩ := List.mem_map.mp hname
    obtain ⟨hmem, hne⟩ := List.mem_filter.mp hsegment
    split at heq
    · cases heq
    · split at heq
      · cases heq
      · cases heq
        exact ⟨by simpa using hne, (VirtualPath.mem_splitOn hmem).1⟩

theorem mem_of_mem_literals {compiled : List PatternSegment} {name : Text}
    (h : name ∈ literals compiled) :
    PatternSegment.Literal name ∈ compiled := by
  induction compiled with
  | nil => cases h
  | cons segment rest ih =>
    cases segment with
    | DoubleStar => cases h
    | Glob pattern => cases h
    | Literal first =>
      obtain rfl | h := List.mem_cons.mp h
      · exact List.mem_cons_self
      · exact List.mem_cons_of_mem _ (ih h)

/-- A list of segments begins with its literals. -/
theorem literals_append_drop (segments : List PatternSegment) :
    (literals segments).map .Literal ++ segments.drop (literals segments).length = segments := by
  induction segments with
  | nil => rfl
  | cons segment rest ih =>
    cases segment with
    | DoubleStar => rfl
    | Glob pattern => rfl
    | Literal name => rw [literals, List.map_cons, List.cons_append, List.length_cons,
      List.drop_succ_cons, ih]

theorem literal_prefix_count {path anchor : VirtualPath} {segments : List PatternSegment}
    {count : Nat} (h : literal_prefix path segments = some (anchor, count)) :
    count = (literals segments).length := by
  induction segments generalizing path count with
  | nil =>
    cases h
    rfl
  | cons segment rest ih =>
    cases segment with
    | DoubleStar =>
      cases h
      rfl
    | Glob pattern =>
      cases h
      rfl
    | Literal name =>
      simp only [Option.bind_eq_bind, literal_prefix, Option.bind_eq_some_iff] at h
      obtain ⟨path', _, ⟨anchor', count'⟩, hrest, heq⟩ := h
      cases heq
      rw [literals, List.length_cons, ih hrest]

/-- The path of the leading names is there when each of them can be joined. -/
theorem literal_prefix_ne_none {path : VirtualPath} {segments : List PatternSegment} :
    literal_prefix path segments ≠ none ↔
      ∀ name ∈ literals segments, ¬ (name.head? = some '/' ∨ NUL ∈ name) := by
  induction segments generalizing path with
  | nil => simp [literals, literal_prefix]
  | cons segment rest ih =>
    cases segment with
    | DoubleStar => simp [literals, literal_prefix]
    | Glob pattern => simp [literals, literal_prefix]
    | Literal name =>
      simp only [literals, literal_prefix, List.forall_mem_cons]
      by_cases hname : name.head? = some '/' ∨ NUL ∈ name
      · have hjoin : (path.join name).toOption = none := by
          rw [VirtualPath.join, dif_pos hname]
          rfl
        simp [hjoin, hname]
      · obtain ⟨path', hjoin⟩ : ∃ path', (path.join name).toOption = some path' := by
          rw [VirtualPath.join, dif_neg hname]
          exact ⟨_, rfl⟩
        rw [hjoin, and_iff_right hname, ← @ih path', Option.bind_eq_bind, Option.bind_some]
        cases literal_prefix path' rest <;> simp

/-- Ordinary names lead to the path that has them. -/
theorem literal_prefix_segments {path anchor : VirtualPath} {segments : List PatternSegment}
    {count : Nat} (h : literal_prefix path segments = some (anchor, count))
    (hnames : ∀ name ∈ literals segments, Segment name) :
    anchor.segments = path.segments ++ literals segments := by
  induction segments generalizing path count with
  | nil =>
    cases h
    exact (List.append_nil _).symm
  | cons segment rest ih =>
    cases segment with
    | DoubleStar =>
      cases h
      exact (List.append_nil _).symm
    | Glob pattern =>
      cases h
      exact (List.append_nil _).symm
    | Literal name =>
      simp only [Option.bind_eq_bind, literal_prefix, Option.bind_eq_some_iff] at h
      obtain ⟨path', hjoin, ⟨anchor', count'⟩, hrest, heq⟩ := h
      cases heq
      obtain ⟨hname, hnames⟩ := List.forall_mem_cons.mp hnames
      obtain ⟨path'', hjoin', hsegments⟩ := path.join_segment hname
      rw [hjoin'] at hjoin
      cases hjoin
      rw [ih hrest hnames, hsegments, literals, List.append_assoc, List.singleton_append]

/-- The segments of a pattern before the first one with a wildcard. -/
def leading_names (pattern : Text) : List Text :=
  (((pattern.drop 1).splitOn '/').filter (fun segment => segment ≠ [])).takeWhile
    (fun segment => '*' ∉ segment ∧ '?' ∉ segment)

theorem literals_compile_pattern {pattern : Text} {compiled : List PatternSegment}
    (h : compile_pattern pattern = .ok compiled) :
    literals compiled = leading_names pattern := by
  unfold compile_pattern at h
  split at h
  · cases h
  · cases h
    unfold leading_names
    induction ((pattern.drop 1).splitOn '/').filter (fun segment => segment ≠ []) with
    | nil => rfl
    | cons segment rest ih =>
      rw [List.map_cons, List.takeWhile_cons]
      by_cases hstar : segment = ['*', '*']
      · subst hstar
        rfl
      · rw [if_neg hstar]
        by_cases hwild : '*' ∈ segment ∨ '?' ∈ segment
        · have hstop : ¬ ('*' ∉ segment ∧ '?' ∉ segment) := fun h => hwild.elim h.1 h.2
          rw [if_pos hwild, if_neg (by simpa only [decide_eq_true_eq] using hstop)]
          rfl
        · rw [if_neg hwild, if_pos (by simpa using hwild), literals, ih]

end fslite.search

namespace fslite

/-- A pattern that is accepted is split and matched without a panic if and only if no
name before its first wildcard has the character NUL in it. -/
theorem glob_panics_on_nul (pattern : Text) (compiled : List search.PatternSegment)
    (hcompile : search.compile_pattern pattern = .ok compiled) :
    search.literal_prefix VirtualPath.root compiled ≠ none ∧ (∀ anchor count,
        search.literal_prefix VirtualPath.root compiled = some (anchor, count) → ∀ candidate,
          (search.checked_glob_match (compiled.drop count) candidate).isSome = true) ↔
      ∀ name ∈ search.leading_names pattern, NUL ∉ name := by
  have hmatcher : ∀ anchor count,
    search.literal_prefix VirtualPath.root compiled = some (anchor, count) → ∀ candidate,
      (search.checked_glob_match (compiled.drop count) candidate).isSome = true := by
    intro _ _ _ candidate
    rw [search.checked_glob_match_eq]
    rfl
  rw [and_iff_left hmatcher, search.literal_prefix_ne_none,
    ← search.literals_compile_pattern hcompile]
  refine forall₂_congr (fun name hname => not_congr (or_iff_right (fun hslash => ?_)))
  have hname := search.compile_pattern_literal hcompile (search.mem_of_mem_literals hname)
  exact hname.2 (List.mem_of_mem_head? hslash)

/-- The pattern `/` followed by NUL is accepted, and its only name cannot be joined. -/
theorem nul_pattern_panics : ¬ ∀ pattern compiled, search.compile_pattern pattern = .ok compiled →
    search.literal_prefix VirtualPath.root compiled ≠ none := by
  intro h
  exact absurd (h ['/', NUL] [.Literal [NUL]] rfl) (by decide)

/-- `/a/**` never panics. -/
theorem plain_pattern_safe :
    search.literal_prefix VirtualPath.root [.Literal ['a'], .DoubleStar] ≠ none ∧
    ∀ anchor count, search.literal_prefix VirtualPath.root [.Literal ['a'], .DoubleStar] =
      some (anchor, count) → ∀ candidate,
      (search.checked_glob_match ([search.PatternSegment.Literal ['a'],
      .DoubleStar].drop count) candidate).isSome = true :=
  (glob_panics_on_nul "/a/**".toList _ rfl).mpr (by decide)

end fslite
