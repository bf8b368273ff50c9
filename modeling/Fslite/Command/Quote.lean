import Fslite.Command.Words
import Mathlib.Data.List.Chain

namespace fslite

open lexer

/-- A word as the command line passes it on: quoted if it would be read differently. -/
def quote_word (word : Text) : Text :=
  let needs_quoting := word = [] ∨
    word.any (fun ch => is_whitespace ch ∨ ch = '\'' ∨ ch = '"' ∨ ch ∈ "|;&<>`".toList) = true
  if ¬ needs_quoting then word
  else if '\'' ∉ word then '\'' :: (word ++ ['\''])
  else '"' :: (word.flatMap (fun ch => if ch = '"' ∨ ch = '\\' then ['\\', ch] else [ch]) ++ ['"'])

/-- The trailing words of the command line as one line. -/
def quote_line (words : List Text) : Text := [' '].intercalate (words.map quote_word)

/-- The first characters of a text that say the word are all that is taken in front of
what comes after them. -/
def Spells (mode : Mode) (text word : Text) : Prop :=
  ∀ rest, ∃ front, Takes mode (text ++ rest) front rest ∧ front ≠ [] ∧ front.flatMap meaning = word

theorem Spells.cons (mode : Mode) (ch : Char) {text word : Text}
    (hwhole : separates (mode, ch) = false) (hadmitted : Admitted (mode, ch))
    (h : Spells (mode.next ch) text word) :
    Spells mode (ch :: text) (meaning (mode, ch) ++ word) := by
  intro rest
  obtain ⟨front, htakes, hne, hword⟩ := h rest
  exact ⟨_, Takes.cons hwhole hadmitted htakes,
    List.cons_ne_nil _ _, by rw [List.flatMap_cons, hword]⟩

theorem Spells.last (mode : Mode) (ch : Char) (hwhole : separates (mode, ch) = false)
    (hadmitted : Admitted (mode, ch)) (hnext : mode.next ch = .Outside) :
    Spells mode [ch] (meaning (mode, ch)) :=
  fun _ => ⟨_, Takes.single hnext hwhole hadmitted, List.cons_ne_nil _ _, List.append_nil _⟩

/-- A word without quotes, metacharacters and whitespace stands for itself. -/
theorem spells_plain {word : Text} (hne : word ≠ [])
    (hplain : ∀ ch ∈ word, is_whitespace ch = false ∧ ch ≠ '\'' ∧ ch ≠ '"' ∧
    ch ∉ REJECTED_UNQUOTED_METACHARACTERS) :
    Spells .Outside word word := by
  induction word with
  | nil => exact absurd rfl hne
  | cons ch word ih =>
    obtain ⟨hspace, hsingle, hdouble, hmeta⟩ := hplain ch List.mem_cons_self
    have hnext : Mode.next .Outside ch = .Outside := by
      unfold Mode.next
      simp only [hsingle, hdouble, if_false]
    have hmeaning : meaning (.Outside, ch) = [ch] := if_neg (not_or.mpr ⟨hsingle, hdouble⟩)
    by_cases hnil : word = []
    · subst hnil
      have hlast := Spells.last .Outside ch hspace hmeta hnext
      rwa [hmeaning] at hlast
    · have hcons := Spells.cons .Outside ch hspace hmeta
        (hnext ▸ ih hnil (fun c hc => hplain c (List.mem_cons_of_mem ch hc)))
      rwa [hmeaning] at hcons

theorem spells_single {word : Text} (h : '\'' ∉ word) : Spells .Single (word ++ ['\'']) word := by
  induction word with
  | nil => exact Spells.last _ _ rfl trivial rfl
  | cons ch word ih =>
    have hne := List.ne_of_not_mem_cons h
    have hword := List.not_mem_of_not_mem_cons h
    have hmeaning : meaning (.Single, ch) = [ch] := if_neg (Ne.symm hne)
    have hnext : Mode.next .Single ch = .Single := if_neg (Ne.symm hne)
    have hcons := Spells.cons .Single ch rfl trivial (hnext ▸ ih hword)
    rwa [hmeaning] at hcons

theorem spells_double (word : Text) :
    Spells .Double (word.flatMap (fun ch => if ch = '"' ∨ ch = '\\' then ['\\', ch] else [ch]) ++
      ['"']) word := by
  induction word with
  | nil => exact Spells.last _ _ rfl trivial rfl
  | cons ch word ih =>
    rw [List.flatMap_cons]
    by_cases hescaped : ch = '"' ∨ ch = '\\'
    · have hadmitted : Admitted (.Escaped, ch) := by
        obtain rfl | rfl := hescaped <;> decide
      have hmeaning : meaning (.Escaped, ch) = [ch] := by
        obtain rfl | rfl := hescaped <;> rfl
      rw [if_pos hescaped]
      have hcons := Spells.cons .Double '\\' rfl trivial (Spells.cons .Escaped ch rfl hadmitted ih)
      rwa [hmeaning] at hcons
    · have hboth := not_or.mp hescaped
      have hmeaning : meaning (.Double, ch) = [ch] := if_neg hescaped
      have hnext : Mode.next .Double ch = .Double := by
        unfold Mode.next
        simp only [hboth.1, hboth.2, if_false]
      rw [if_neg hescaped]
      have hcons := Spells.cons .Double ch rfl trivial (hnext ▸ ih)
      rwa [hmeaning] at hcons

theorem spells_quoted (word : Text) : Spells .Outside (quote_word word) word := by
  unfold quote_word
  simp only []
  split
  · rename_i hplain
    obtain ⟨hne, hall⟩ := not_or.mp hplain
    refine spells_plain hne (fun ch hch => ?_)
    obtain ⟨hspace, hquotes⟩ :=
      not_or.mp (fun h => hall (List.any_eq_true.mpr ⟨ch, hch, decide_eq_true h⟩))
    obtain ⟨hsingle, hquotes⟩ := not_or.mp hquotes
    obtain ⟨hdouble, hmeta⟩ := not_or.mp hquotes
    exact ⟨Bool.eq_false_of_not_eq_true hspace, hsingle, hdouble, hmeta⟩
  · split
    · rename_i hsingle
      exact Spells.cons .Outside '\'' (by decide) (by decide) (spells_single hsingle)
    · exact Spells.cons .Outside '"' (by decide) (by decide) (spells_double word)

/-- A text without the two characters that begin a substitution. -/
def Free (text : Text) : Prop := text.IsChain (fun a b => ¬ (a = '$' ∧ b = '('))

theorem free_iff {text : Text} : Free text ↔ ¬ ['$', '('] <:+: text := by
  unfold Free
  rw [List.isChain_iff_forall_rel_of_append_cons_cons]
  constructor
  · rintro h ⟨front, back, rfl⟩
    exact h (by rw [List.append_assoc]; rfl) ⟨rfl, rfl⟩
  · rintro h a b front back rfl ⟨rfl, rfl⟩
    exact h ⟨front, back, by rw [List.append_assoc]; rfl⟩

/-- A character that is no part of a substitution keeps two texts apart. -/
theorem Free.append_cons (front : Text) {back : Text} {c : Char} (hfront : Free front)
    (hback : Free back) (hdollar : c ≠ '$') (hopen : c ≠ '(') :
    Free (front ++ c :: back) := by
  refine List.isChain_append.mpr
    ⟨hfront, List.isChain_cons.mpr ⟨fun y _ h => hdollar h.1, hback⟩, fun x _ y hy h => hopen ?_⟩
  cases hy
  exact h.2

theorem Free.escaped {word : Text} (h : Free word) :
    Free (word.flatMap (fun ch => if ch = '"' ∨ ch = '\\' then ['\\', ch] else [ch])) := by
  induction word with
  | nil => exact List.isChain_nil
  | cons ch word ih =>
    obtain ⟨hhead, hword⟩ := List.isChain_cons.mp h
    have hrest := ih hword
    rw [List.flatMap_cons]
    by_cases hescaped : ch = '"' ∨ ch = '\\'
    · have hordinary : ch ≠ '$' ∧ ch ≠ '(' := by
        obtain rfl | rfl := hescaped <;> decide
      rw [if_pos hescaped]
      exact Free.append_cons ['\\'] (List.isChain_singleton _) hrest hordinary.1 hordinary.2
    · rw [if_neg hescaped]
      refine List.isChain_cons.mpr ⟨fun y hy => ?_, hrest⟩
      -- what follows is the next character, or the backslash before it
      cases word with
      | nil => cases hy
      | cons next word =>
        rw [List.flatMap_cons] at hy
        split at hy
        · cases hy
          exact fun hboth => absurd hboth.2 (by decide)
        · cases hy
          exact hhead y rfl

theorem Free.quote_word {word : Text} (h : Free word) : Free (quote_word word) := by
  unfold fslite.quote_word
  simp only []
  split
  · exact h
  · split
    · exact Free.append_cons [] List.isChain_nil
        (Free.append_cons _ h List.isChain_nil (by decide) (by decide)) (by decide) (by decide)
    · exact Free.append_cons [] List.isChain_nil
        (Free.append_cons _ h.escaped List.isChain_nil (by decide) (by decide)) (by decide)
          (by decide)

theorem mem_quote_word {word : Text} {c : Char} (h : c ∈ quote_word word) :
    c ∈ word ∨ c ∈ ['\'', '"', '\\'] := by
  unfold quote_word at h
  simp only [] at h
  split at h
  · exact .inl h
  · split at h
    · simp only [List.mem_cons, List.mem_append, List.not_mem_nil, or_false] at h ⊢
      tauto
    · simp only [List.mem_cons, List.mem_append, List.mem_flatMap, List.not_mem_nil,
        or_false] at h ⊢
      obtain h | ⟨ch, hch, h⟩ | h := h
      · exact .inr (.inr (.inl h))
      · split at h
        · rename_i hescaped
          simp only [List.mem_cons, List.not_mem_nil, or_false] at h
          obtain rfl | rfl := h
          · exact .inr (.inr (.inr rfl))
          · exact .inl hch
        · rw [List.mem_singleton.mp h]
          exact .inl hch
      · exact .inr (.inr (.inl h))

theorem quote_line_cons (word next : Text) (rest : List Text) :
    quote_line (word :: next :: rest) = quote_word word ++ ' ' :: quote_line (next :: rest) := by
  simp [quote_line, List.intercalate]

theorem quote_line_singleton (word : Text) : quote_line [word] = quote_word word := by
  simp [quote_line, List.intercalate]

/-- The line of some words is well quoted, and they are its words. -/
theorem quote_line_words (args : List Text) :
    Completes .Outside (quote_line args) ∧ words (quote_line args) = args := by
  induction args with
  | nil => exact ⟨completes_nil.mpr rfl, rfl⟩
  | cons word rest ih =>
    cases rest with
    | nil =>
      obtain ⟨front, htakes, hne, hword⟩ := spells_quoted word []
      rw [List.append_nil] at htakes
      rw [quote_line_singleton, htakes.completes,
        words_word htakes hne (fun ch hch => by cases hch), hword]
      exact ⟨completes_nil.mpr rfl, rfl⟩
    | cons next rest =>
      obtain ⟨front, htakes, hne, hword⟩ := spells_quoted word (' ' :: quote_line (next :: rest))
      rw [quote_line_cons, htakes.completes, words_word htakes hne
        (fun ch hch => by cases hch; rfl), hword,
        words_space rfl rfl, ih.2, completes_cons]
      exact ⟨⟨by decide, ih.1⟩, rfl⟩

theorem Free.quote_line {args : List Text} (h : ∀ word ∈ args, Free word) :
    Free (quote_line args) := by
  induction args with
  | nil => exact List.isChain_nil
  | cons word rest ih =>
    have hword := (h word List.mem_cons_self).quote_word
    have hrest := ih (fun w hw => h w (List.mem_cons_of_mem word hw))
    cases rest with
    | nil => rwa [quote_line_singleton]
    | cons next rest =>
      rw [quote_line_cons]
      exact Free.append_cons _ hword hrest (by decide) (by decide)

theorem nul_not_mem_quote_line {args : List Text} (h : ∀ word ∈ args, NUL ∉ word) :
    NUL ∉ quote_line args := by
  have hquoted : ∀ word ∈ args, NUL ∉ quote_word word := by
    intro word hword hnul
    obtain hnul | hnul := mem_quote_word hnul
    · exact h word hword hnul
    · exact absurd hnul (by decide)
  induction args with
  | nil => exact List.not_mem_nil
  | cons word rest ih =>
    have hrest := ih (fun w hw => h w (List.mem_cons_of_mem word hw))
      (fun w hw => hquoted w (List.mem_cons_of_mem word hw))
    have hword := hquoted word List.mem_cons_self
    cases rest with
    | nil => rwa [quote_line_singleton]
    | cons next rest =>
      rw [quote_line_cons]
      intro hnul
      obtain hnul | hnul := List.mem_append.mp hnul
      · exact hword hnul
      · obtain hspace | hnul := List.mem_cons.mp hnul
        · exact absurd hspace (by decide)
        · exact hrest hnul

/-- The lexer reads the line of some words as these words. -/
theorem tokenize_quote_line (args : List Text) (hnul : ∀ word ∈ args, NUL ∉ word)
    (hfree : ∀ word ∈ args, ¬ ['$', '('] <:+: word)
    (hshort : utf8_len (quote_line args) ≤ MAX_LINE_LEN) :
    tokenize (quote_line args) = .ok (args.map classify) := by
  obtain ⟨hcompletes, hwords⟩ := quote_line_words args
  rw [tokenize_iff, hwords, and_iff_left rfl]
  exact {
    short := hshort
    no_nul := nul_not_mem_quote_line hnul
    no_substitution := free_iff.mp
      (Free.quote_line (fun word hword => free_iff.mpr (hfree word hword)))
    quoted := wellQuoted_iff.mpr hcompletes }

/-- Words with whitespace, both kinds of quotes, backslashes and metacharacters, an
empty one and a flag. -/
theorem tokenize_mixed_words :
    tokenize (quote_line ["a b".toList, "it's \"\\n\"".toList, [], "x\\;y".toList,
      "--k=$v".toList]) =
      .ok [.Word "a b".toList, .Word "it's \"\\n\"".toList, .Word [], .Word "x\\;y".toList,
        .Flag ['k'] (some "$v".toList)] :=
  tokenize_quote_line _ (by decide) (by decide) (by decide)

end fslite
