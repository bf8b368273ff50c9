import Fslite.Covering
import Fslite.Sqlite.Pattern
import Mathlib.Data.List.TakeWhile

namespace fslite

namespace search

/-- What a character of a pattern stands for: `*` for any characters, `?` for one, and
every other one for itself. -/
def stands (c : Char) (piece : Text) : Prop :=
  if c = '*' then True else if c = '?' then piece.length = 1 else piece = [c]

/-- The text can be cut into pieces for which the characters of the pattern stand. -/
def WildcardMatches (pattern text : Text) : Prop :=
  ∃ pieces : List Text, pieces.flatten = text ∧ List.Forall₂ stands pattern pieces

/-- What `wildcard_match` lets a character stand for: a `*` at which the text goes on with
the character `*` stands for that one character. -/
def stands_first (c : Char) (piece rest : Text) : Prop :=
  stands c piece ∧ (c = '*' → (piece ++ rest).head? = some '*' → piece = ['*'])

/-- The text can be cut so that no `*` of the pattern stands for more or less than a `*`
with which the text goes on there. -/
def PlainlyMatches (pattern text : Text) : Prop := Covered stands_first pattern text

/-- The variables of the loop of `wildcard_match`. -/
structure Pointers (text : Text) where
  pi : Nat
  ti : Nat
  star : Option Nat
  match_from : Nat
  ti_le : ti ≤ text.length
  from_le : match_from ≤ ti
  star_lt : ∀ star_at, star = some star_at → star_at < pi

/-- The loop of `wildcard_match`, and what follows it. -/
def wildcard_while (pattern : Text) {text : Text} (p : Pointers text) : Bool :=
  if hti : p.ti < text.length then
    if p.pi < pattern.length ∧ (pattern[p.pi]? = some '?' ∨ pattern[p.pi]? = some text[p.ti]) then
      wildcard_while pattern { p with
        pi := p.pi + 1
        ti := p.ti + 1
        ti_le := hti
        from_le := Nat.le_succ_of_le p.from_le
        star_lt := fun star_at hstar => Nat.lt_succ_of_lt (p.star_lt star_at hstar) }
    else if p.pi < pattern.length ∧ pattern[p.pi]? = some '*' then
      wildcard_while pattern { p with
        star := some p.pi
        match_from := p.ti
        pi := p.pi + 1
        from_le := le_refl _
        star_lt := fun star_at hstar => by cases hstar; exact Nat.lt_succ_self _ }
    else
      match hstar : p.star with
      | some star_at =>
        wildcard_while pattern { p with
          pi := star_at + 1
          match_from := p.match_from + 1
          ti := p.match_from + 1
          ti_le := Nat.lt_of_le_of_lt p.from_le hti
          from_le := le_refl _
          star_lt := fun star_at' hstar' => by rw [hstar] at hstar'; cases hstar'; exact Nat.lt_succ_self _ }
      | none => false
  else (pattern.drop p.pi).dropWhile (fun c => c = '*') = []
termination_by (pattern.length - p.star.elim 0 (· + 1), text.length - p.match_from,
  text.length - p.ti)
decreasing_by
  · refine Prod.Lex.right _ (Prod.Lex.right _ ?_)
    omega
  · refine Prod.Lex.left _ _ ?_
    rename_i hpi
    cases hstar : p.star with
    | none => simp only [Option.elim]; omega
    | some star_at =>
      have hlt := p.star_lt star_at hstar
      simp only [Option.elim]
      omega
  · have hle := p.from_le
    rw [hstar]
    refine Prod.Lex.right _ (Prod.Lex.left _ _ ?_)
    omega

/-- `wildcard_match` with its loop. -/
def wildcard_pointers (pattern text : Text) : Bool :=
  let start : Pointers text := ⟨0, 0, none, 0, Nat.zero_le _, le_refl _, fun _ h => by cases h⟩
  wildcard_while pattern start

section loop

variable {pattern text : Text}

/-- What the loop finds after it has gone back to the last star. -/
def go_back (pattern text : Text) (star : Option Nat) (match_from : Nat) : Bool :=
  match star with
  | some star_at => wildcard_retry (wildcard_loop (pattern.drop (star_at + 1)))
    (text.drop (match_from + 1))
  | none => false

theorem wildcard_loop_nil (back : Bool) :
    wildcard_loop pattern [] back = pattern.all (fun c => c = '*') := by
  cases pattern <;> rfl

theorem wildcard_loop_cons (c x : Char) (pattern text : Text) (back : Bool) :
    wildcard_loop (c :: pattern) (x :: text) back =
    if c = '?' ∨ c = x then wildcard_loop pattern text back
    else if c = '*' then wildcard_retry (wildcard_loop pattern) (x :: text) else back := rfl

/-- To go back is to go on from the position after the last start. -/
theorem go_back_step {star_at match_from : Nat} : go_back pattern text (some star_at) match_from =
    wildcard_loop (pattern.drop (star_at + 1)) (text.drop (match_from + 1))
      (go_back pattern text (some star_at) (match_from + 1)) := by
  unfold go_back
  simp only
  cases hrest : text.drop (match_from + 1) with
  | nil => rw [wildcard_retry, wildcard_loop_nil, wildcard_loop_nil]
  | cons x rest =>
    have hnext : text.drop (match_from + 1 + 1) =
      rest := by rw [← List.drop_drop, hrest, List.drop_one, List.tail_cons]
    rw [wildcard_retry, hnext]

/-- Where the pattern can go on in no way the loop goes back. -/
theorem wildcard_loop_mismatch {pi ti : Nat} (back : Bool) (hti : ti < text.length)
    (hchar : ¬ (pi < pattern.length ∧ (pattern[pi]? = some '?' ∨ pattern[pi]? = some text[ti])))
    (hstar : ¬ (pi < pattern.length ∧ pattern[pi]? = some '*')) :
    wildcard_loop (pattern.drop pi) (text.drop ti) back = back := by
  rw [List.drop_eq_getElem_cons hti]
  by_cases hpi : pi < pattern.length
  · rw [List.getElem?_eq_getElem hpi] at hchar hstar
    simp only [Option.some.injEq] at hchar hstar
    rw [List.drop_eq_getElem_cons hpi, wildcard_loop_cons, if_neg (fun h => hchar ⟨hpi, h⟩),
      if_neg (fun h => hstar ⟨hpi, h⟩)]
  · rw [List.drop_eq_nil_of_le (Nat.not_lt.mp hpi)]
    rfl

/-- The two pointers stand for what is left of the pattern and of the text. -/
theorem wildcard_while_eq (p : Pointers text) : wildcard_while pattern p =
    wildcard_loop (pattern.drop p.pi) (text.drop p.ti)
      (go_back pattern text p.star p.match_from) := by
  fun_induction wildcard_while pattern p with
  | case1 p hti hchar ih =>
    obtain ⟨hpi, hchar⟩ := hchar
    rw [List.getElem?_eq_getElem hpi, Option.some.injEq, Option.some.injEq] at hchar
    rw [ih, List.drop_eq_getElem_cons hpi, List.drop_eq_getElem_cons hti, wildcard_loop_cons,
      if_pos hchar]
  | case2 p hti hchar hstar ih =>
    obtain ⟨hpi, hstar⟩ := hstar
    rw [List.getElem?_eq_getElem hpi] at hchar hstar
    simp only [Option.some.injEq] at hchar hstar
    rw [ih, List.drop_eq_getElem_cons hpi, List.drop_eq_getElem_cons hti, wildcard_loop_cons,
      if_neg (fun h => hchar ⟨hpi, h⟩),
      if_pos hstar, wildcard_retry]
    rfl
  | case3 p hti hchar hstar star_at hback ih =>
    rw [ih, wildcard_loop_mismatch _ hti hchar hstar]
    simp only [hback]
    exact go_back_step.symm
  | case4 p hti hchar hstar hback => rw [wildcard_loop_mismatch _ hti hchar hstar, hback, go_back]
  | case5 p hti =>
    rw [List.drop_eq_nil_of_le (Nat.not_lt.mp hti), wildcard_loop_nil, Bool.eq_iff_iff,
      decide_eq_true_iff, List.all_eq_true]
    exact List.dropWhile_eq_nil_iff

/-- The loop is the function that `glob_match` uses. -/
theorem wildcard_pointers_eq : wildcard_pointers pattern text = wildcard_match pattern text :=
  wildcard_while_eq _

end loop

section plainly

variable {c x : Char} {pattern text piece rest : Text} {back : Bool}

/-- Every character but `*` stands for one character. -/
theorem stands_char_iff (hc : c ≠ '*') : stands c piece ↔ ∃ x, piece = [x] ∧ (c = '?' ∨ c = x) := by
  unfold stands
  rw [if_neg hc]
  split
  · rename_i hone
    rw [List.length_eq_one_iff]
    simp only [hone, true_or, and_true]
  · rename_i hone
    simp only [hone, false_or]
    constructor
    · rintro rfl
      exact ⟨c, rfl, rfl⟩
    · rintro ⟨_, rfl, rfl⟩
      rfl

theorem plainly_char_iff (hc : c ≠ '*') : PlainlyMatches (c :: pattern) text ↔
    ∃ x rest, text = x :: rest ∧ (c = '?' ∨ c = x) ∧ PlainlyMatches pattern rest := by
  rw [PlainlyMatches, Covered.cons_iff]
  constructor
  · rintro ⟨_, rest, rfl, ⟨hstands, _⟩, hrest⟩
    obtain ⟨x, rfl, hx⟩ := (stands_char_iff hc).mp hstands
    exact ⟨x, rest, rfl, hx, hrest⟩
  · rintro ⟨x, rest, rfl, hx, hrest⟩
    exact ⟨[x], rest, rfl, ⟨(stands_char_iff hc).mpr ⟨x, rfl, hx⟩, fun hstar => absurd hstar hc⟩,
      hrest⟩

theorem plainly_star_star_iff :
    PlainlyMatches ('*' :: pattern) ('*' :: text) ↔ PlainlyMatches pattern text := by
  rw [PlainlyMatches, Covered.cons_iff]
  constructor
  · rintro ⟨piece, rest, htext, ⟨_, hfirst⟩, hrest⟩
    obtain rfl := hfirst rfl (by rw [← htext, List.head?_cons])
    obtain rfl := (List.cons.inj htext).2
    exact hrest
  · exact fun h => ⟨['*'], text, rfl, ⟨trivial, fun _ _ => rfl⟩, h⟩

theorem plainly_star_iff (hhead : text.head? ≠ some '*') :
    PlainlyMatches ('*' :: pattern) text ↔ ∃ k, PlainlyMatches pattern (text.drop k) := by
  rw [PlainlyMatches, Covered.cons_iff]
  constructor
  · rintro ⟨piece, rest, rfl, _, hrest⟩
    exact ⟨piece.length, by rwa [List.drop_left]⟩
  · rintro ⟨k, hk⟩
    refine ⟨text.take k, text.drop k, (List.take_append_drop k text).symm,
      ⟨trivial, fun _ hstar => ?_⟩, hk⟩
    rw [List.take_append_drop] at hstar
    exact absurd hstar hhead

/-- What is left of the pattern after a character matches what is left after its piece. -/
theorem PlainlyMatches.tail (h : PlainlyMatches (c :: pattern) text) :
    ∃ k, PlainlyMatches pattern (text.drop k) := by
  obtain ⟨piece, rest, rfl, _, hrest⟩ := Covered.cons_iff.mp h
  exact ⟨piece.length, by rwa [List.drop_left]⟩

/-- A start further on leaves the pattern a later rest than the start at hand. -/
theorem PlainlyMatches.later {k : Nat} (hchar : c = '?' ∨ c = x)
    (h : PlainlyMatches (c :: pattern) ((x :: text).drop k)) :
    ∃ k', PlainlyMatches pattern (text.drop k') := by
  cases k with
  | succ k =>
    obtain ⟨k', hk'⟩ := h.tail
    exact ⟨k + k', by rwa [List.drop_succ_cons, List.drop_drop] at hk'⟩
  | zero =>
    rw [List.drop_zero] at h
    by_cases hstar : c = '*'
    · obtain rfl : x = '*' := by
        obtain hone | hsame := hchar
        · rw [hstar] at hone
          exact absurd hone (by decide)
        · rw [← hsame, hstar]
      rw [hstar, plainly_star_star_iff] at h
      exact ⟨0, h⟩
    · obtain ⟨_, rest, htext, _, hrest⟩ := (plainly_char_iff hstar).mp h
      obtain rfl := (List.cons.inj htext).2
      exact ⟨0, hrest⟩

theorem plainly_nil_iff : PlainlyMatches pattern [] ↔ pattern.all (fun c => c = '*') = true := by
  induction pattern with
  | nil => exact iff_of_true Covered.nil rfl
  | cons c pattern ih =>
    by_cases hc : c = '*'
    · subst hc
      rw [plainly_star_iff (by simp)]
      simp [ih]
    · rw [plainly_char_iff hc]
      simp [hc]

/-- What the loop finds, where to go back finds only what a later start gives. -/
theorem wildcard_loop_iff (hback : back = true → ∃ k, PlainlyMatches pattern (text.drop k)) :
    wildcard_loop pattern text back = true ↔ PlainlyMatches pattern text ∨ back = true := by
  induction pattern generalizing text back with
  | nil =>
    rw [wildcard_loop, PlainlyMatches, Covered.nil_iff]
    split <;> simp [*]
  | cons c pattern ih =>
    cases text with
    | nil =>
      rw [wildcard_loop_nil, ← plainly_nil_iff]
      refine (or_iff_left_of_imp (fun h => ?_)).symm
      obtain ⟨k, hk⟩ := hback h
      rwa [List.drop_nil] at hk
    | cons x text =>
      have hretry : ∀ rest : Text, wildcard_retry (wildcard_loop pattern) rest = true ↔ ∃ k,
          PlainlyMatches pattern (rest.drop k) := by
        intro rest
        induction rest with
        | nil =>
          rw [wildcard_retry, ih (by simp)]
          simp
        | cons y rest ihrest =>
          rw [wildcard_retry, ih (fun h => ?_), ihrest]
          · constructor
            · rintro (h | ⟨k, hk⟩)
              · exact ⟨0, h⟩
              · exact ⟨k + 1, hk⟩
            · rintro ⟨k, hk⟩
              cases k with
              | zero => exact Or.inl hk
              | succ k => exact Or.inr ⟨k, hk⟩
          · obtain ⟨k, hk⟩ := ihrest.mp h
            exact ⟨k + 1, hk⟩
      rw [wildcard_loop_cons]
      by_cases hchar : c = '?' ∨ c = x
      · have hfirst : PlainlyMatches (c :: pattern) (x :: text) ↔ PlainlyMatches pattern text := by
          by_cases hc : c = '*'
          · subst hc
            obtain rfl : '*' = x := hchar.resolve_left (by decide)
            exact plainly_star_star_iff
          · rw [plainly_char_iff hc]
            simp [hchar]
        rw [if_pos hchar, hfirst]
        refine ih (fun h => ?_)
        obtain ⟨k, hk⟩ := hback h
        exact hk.later hchar
      · rw [if_neg hchar]
        split
        · rename_i hc
          subst hc
          have hhead : (x :: text).head? ≠ some '*' := by
            rw [List.head?_cons, ne_eq, Option.some.injEq]
            exact fun h => hchar (Or.inr h.symm)
          rw [hretry, plainly_star_iff hhead]
          -- a later start of the star is one of its own
          refine (or_iff_left_of_imp (fun h => ?_)).symm
          obtain ⟨k, hk⟩ := hback h
          obtain ⟨k', hk'⟩ := hk.tail
          exact ⟨k + k', by rwa [List.drop_drop] at hk'⟩
        · rename_i hc
          refine (or_iff_right (fun h => ?_)).symm
          obtain ⟨_, _, htext, hsame, _⟩ := (plainly_char_iff hc).mp h
          obtain rfl := (List.cons.inj htext).1
          exact hchar hsame

theorem wildcard_match_iff : wildcard_match pattern text = true ↔ PlainlyMatches pattern text := by
  rw [wildcard_match, wildcard_loop_iff (by simp)]
  simp

/-- A text that matches plainly matches. -/
theorem PlainlyMatches.matches (h : PlainlyMatches pattern text) : WildcardMatches pattern text :=
  Covered.iff_pieces.mp (Covered.mono h (fun _ _ _ hfirst => hfirst.1))

/-- Without the character `*` in the text both are the same. -/
theorem WildcardMatches.plainly (h : WildcardMatches pattern text) (hstar : '*' ∉ text) :
    PlainlyMatches pattern text := by
  have hcovered : Covered (fun c piece _ => stands c piece) pattern text := Covered.iff_pieces.mpr h
  induction hcovered with
  | nil => exact Covered.nil
  | cons hstands hrest ih =>
    refine Covered.cons ⟨hstands, fun _ hhead => absurd (List.mem_of_head? hhead) hstar⟩ ?_
    exact ih (Covered.iff_pieces.mp hrest) (fun hmem => hstar (List.mem_append_right _ hmem))

end plainly

/-- What a segment of a pattern covers: `**` any names, another segment one name. -/
def segment_covers : PatternSegment → List Text → Prop
  | .DoubleStar, _ => True
  | .Literal expected, piece => piece = [expected]
  | .Glob pattern, piece => ∃ name, piece = [name] ∧ wildcard_match pattern name = true

theorem segment_covers_iff {segment : PatternSegment} (hsegment : segment ≠ .DoubleStar)
    {piece : List Text} :
    segment_covers segment piece ↔ ∃ name, piece = [name] ∧
    segment_matches segment name = true := by
  cases segment with
  | DoubleStar => exact absurd rfl hsegment
  | Literal expected => simp [segment_covers, segment_matches]
  | Glob pattern => rfl

theorem matches_iff_covered {pattern : List PatternSegment} {names : List Text} :
    Matches pattern names ↔ Covered
      (fun segment piece _ => segment_covers segment piece) pattern names := by
  induction pattern generalizing names with
  | nil => rw [matches_nil_iff, Covered.nil_iff]
  | cons segment pattern ih =>
    rw [Covered.cons_iff]
    by_cases hsegment : segment = .DoubleStar
    · subst hsegment
      rw [matches_star_iff]
      constructor
      · rintro ⟨k, hk⟩
        exact ⟨names.take k, names.drop k, (List.take_append_drop k names).symm, trivial, ih.mp hk⟩
      · rintro ⟨piece, rest, rfl, _, hrest⟩
        exact ⟨piece.length, by rw [List.drop_left]; exact ih.mpr hrest⟩
    · rw [matches_segment_iff hsegment]
      constructor
      · rintro ⟨name, rest, rfl, hname, hrest⟩
        exact ⟨[name], rest, rfl, (segment_covers_iff hsegment).mpr ⟨name, rfl, hname⟩, ih.mp hrest⟩
      · rintro ⟨_, rest, rfl, hcovers, hrest⟩
        obtain ⟨name, rfl, hname⟩ := (segment_covers_iff hsegment).mp hcovers
        exact ⟨name, rest, rfl, hname, ih.mpr hrest⟩

end search

open search

/-- `glob_match` decides whether the names can be cut into pieces that the segments of the
pattern cover in their order. -/
theorem glob_match_covers (pattern : List PatternSegment) (candidate : List Text) :
    glob_match pattern candidate = true ↔
    ∃ pieces : List (List Text), pieces.flatten = candidate ∧
    List.Forall₂ segment_covers pattern pieces := by
  rw [glob_match_iff, matches_iff_covered, Covered.iff_pieces]

/-- `wildcard_match` always ends, and is right about a text exactly if the text does not
match or matches plainly, as every text without the character `*` does. -/
theorem wildcard_match_exact (pattern text : Text) :
    (wildcard_pointers pattern text = true ↔ WildcardMatches pattern text) ↔
    (WildcardMatches pattern text → PlainlyMatches pattern text) := by
  rw [wildcard_pointers_eq, wildcard_match_iff]
  exact ⟨fun h => h.mpr, fun h => ⟨fun hplainly => hplainly.matches, h⟩⟩

example : PlainlyMatches ['a', '*'] ['a', 'b', 'c'] :=
  WildcardMatches.plainly ⟨[['a'], ['b', 'c']], rfl, .cons rfl (.cons trivial .nil)⟩ (by decide)

/-- `*` does not match `*a`. -/
theorem star_text_unmatched :
    ¬ ∀ pattern text, wildcard_pointers pattern text = true ↔ WildcardMatches pattern text := by
  intro h
  have hmatches : WildcardMatches ['*'] ['*', 'a'] := ⟨[['*', 'a']], rfl, .cons trivial .nil⟩
  have hloop := (h ['*'] ['*', 'a']).mpr hmatches
  rw [wildcard_pointers_eq] at hloop
  exact absurd hloop (by decide)

end fslite
