import Fslite.Command.Lexer

namespace fslite.lexer

/-- Where a character of a line stands. -/
inductive Mode where
  | Outside
  | Single
  | Double
  | Escaped
  deriving DecidableEq

/-- Where the next character stands. -/
def Mode.next : Mode → Char → Mode
  | .Outside, ch => if ch = '\'' then .Single else if ch = '"' then .Double else .Outside
  | .Single, ch => if ch = '\'' then .Outside else .Single
  | .Double, ch => if ch = '"' then .Outside else if ch = '\\' then .Escaped else .Double
  | .Escaped, _ => .Double

/-- The characters of a text that begins in the given mode, each with where it stands. -/
def marked : Mode → Text → List (Mode × Char)
  | _, [] => []
  | mode, ch :: rest => (mode, ch) :: marked (mode.next ch) rest

/-- What a character stands for: a quote for nothing, nor does the backslash before
an escaped character. -/
def meaning : Mode × Char → Text
  | (.Outside, ch) => if ch = '\'' ∨ ch = '"' then [] else [ch]
  | (.Single, ch) => if ch = '\'' then [] else [ch]
  | (.Double, ch) => if ch = '"' ∨ ch = '\\' then [] else [ch]
  | (.Escaped, ch) => if ch = 'n' then ['\n'] else if ch = 't' then ['\t'] else [ch]

/-- Unquoted whitespace. -/
def separates : Mode × Char → Bool
  | (.Outside, ch) => is_whitespace ch
  | _ => false

/-- What may stand where it stands. -/
def Admitted : Mode × Char → Prop
  | (.Outside, ch) => ch ∉ REJECTED_UNQUOTED_METACHARACTERS
  | (.Escaped, ch) => ch ∈ ['n', 't', '"', '\\']
  | _ => True

instance : DecidablePred Admitted
  | (.Outside, ch) => inferInstanceAs (Decidable (ch ∉ REJECTED_UNQUOTED_METACHARACTERS))
  | (.Escaped, ch) => inferInstanceAs (Decidable (ch ∈ ['n', 't', '"', '\\']))
  | (.Single, _) => .isTrue trivial
  | (.Double, _) => .isTrue trivial

/-- The words of a line: its maximal runs between unquoted whitespace, without the
quotes and with the escapes decoded. -/
def words (line : Text) : List Text :=
  (((marked .Outside line).splitOnP separates).filter (fun run => run ≠ [])).map
    (fun run => run.flatMap meaning)

/-- The quotes that are opened are closed, only some characters are escaped, and no
metacharacter stands outside quotes. -/
structure WellQuoted (line : Text) : Prop where
  closed : line.foldl Mode.next .Outside = .Outside
  escapes : ∀ ch, (Mode.Escaped, ch) ∈ marked .Outside line → ch ∈ ['n', 't', '"', '\\']
  plain : ∀ ch, (Mode.Outside, ch) ∈ marked .Outside line → ch ∉ REJECTED_UNQUOTED_METACHARACTERS

/-- The grammar of lines. -/
structure Grammatical (line : Text) : Prop where
  short : utf8_len line ≤ MAX_LINE_LEN
  no_nul : NUL ∉ line
  no_substitution : ¬ ['$', '('] <:+: line
  quoted : WellQuoted line

/-- What is left of a line is well quoted, from where it begins. -/
structure Completes (mode : Mode) (line : Text) : Prop where
  closed : line.foldl Mode.next mode = .Outside
  admitted : ∀ x ∈ marked mode line, Admitted x

theorem wellQuoted_iff {line : Text} : WellQuoted line ↔ Completes .Outside line := by
  constructor
  · rintro ⟨hclosed, hescapes, hplain⟩
    refine ⟨hclosed, ?_⟩
    rintro ⟨mode, ch⟩ hmem
    cases mode with
    | Outside => exact hplain ch hmem
    | Escaped => exact hescapes ch hmem
    | Single => trivial
    | Double => trivial
  · rintro ⟨hclosed, hadmitted⟩
    exact ⟨hclosed, fun ch hmem => hadmitted _ hmem, fun ch hmem => hadmitted _ hmem⟩

theorem completes_nil {mode : Mode} : Completes mode [] ↔ mode = .Outside :=
  ⟨fun h => h.closed, fun h => ⟨h, fun _ hx => absurd hx List.not_mem_nil⟩⟩

theorem completes_cons {mode : Mode} {ch : Char} {rest : Text} :
    Completes mode (ch :: rest) ↔ Admitted (mode, ch) ∧ Completes (mode.next ch) rest := by
  constructor
  · rintro ⟨hclosed, hadmitted⟩
    exact ⟨hadmitted _ List.mem_cons_self, hclosed, fun x hx =>
      hadmitted x (List.mem_cons_of_mem _ hx)⟩
  · rintro ⟨hadmitted, hclosed, hrest⟩
    exact ⟨hclosed, fun x hx => (List.mem_cons.mp hx).elim (fun heq => heq ▸ hadmitted) (hrest x)⟩

theorem marked_length (mode : Mode) (line : Text) : (marked mode line).length = line.length := by
  induction line generalizing mode with
  | nil => rfl
  | cons ch rest ih => rw [marked, List.length_cons, List.length_cons, ih]

theorem head_marked (mode : Mode) (line : Text) :
    (marked mode line).head? = line.head?.map (fun ch => (mode, ch)) := by
  cases line <;> rfl

/-- The given marked characters are in front of the rest of a line, which begins
outside quotes and completes the line if it is completed. -/
structure Takes (mode : Mode) (line : Text) (front : List (Mode × Char)) (rest : Text) : Prop where
  marked : marked mode line = front ++ marked .Outside rest
  whole : ∀ x ∈ front, separates x = false
  completes : Completes mode line ↔ Completes .Outside rest

namespace Takes

variable {mode : Mode} {line rest : Text} {front more : List (Mode × Char)}

theorem refl (line : Text) : Takes .Outside line [] line :=
  ⟨rfl, fun _ hx => absurd hx List.not_mem_nil, Iff.rfl⟩

theorem cons {ch : Char} (hwhole : separates (mode, ch) = false) (hadmitted : Admitted (mode, ch))
    (h : Takes (mode.next ch) line front rest) :
    Takes mode (ch :: line) ((mode, ch) :: front) rest where
  marked := by
    rw [lexer.marked, h.marked]
    rfl
  whole := fun x hx => (List.mem_cons.mp hx).elim (fun heq => heq ▸ hwhole) (h.whole x)
  completes := by rw [completes_cons, and_iff_right hadmitted, h.completes]

theorem single {ch : Char} (hnext : mode.next ch = .Outside) (hwhole : separates (mode, ch) = false)
    (hadmitted : Admitted (mode, ch)) :
    Takes mode (ch :: rest) [(mode, ch)] rest := cons hwhole hadmitted (hnext ▸ refl rest)

theorem trans {last : Text} (h : Takes mode line front rest) (h' : Takes .Outside rest more last) :
    Takes mode line (front ++ more) last where
  marked := by rw [h.marked, h'.marked, List.append_assoc]
  whole := fun x hx => (List.mem_append.mp hx).elim (h.whole x) (h'.whole x)
  completes := h.completes.trans h'.completes

theorem length (h : Takes mode line front rest) : line.length = front.length + rest.length := by
  have hlength := congrArg List.length h.marked
  rwa [List.length_append, marked_length, marked_length] at hlength

end Takes

/-- How a reader ends that starts with some content in the given mode: it has added
what the characters stand for that it has taken, or nothing completes the line. -/
def Read (mode : Mode) (content : Text) (line : Text) : Except LexError (Text × List Char) → Prop
  | .ok (content', rest) => ∃ front, Takes mode line front rest ∧
  content' = content ++ front.flatMap meaning
  | .error _ => ¬ Completes mode line

theorem Read.cons {mode : Mode} {content line : Text} {ch : Char}
    {result : Except LexError (Text × List Char)} (hwhole : separates (mode, ch) = false)
    (hadmitted : Admitted (mode, ch))
    (h : Read (mode.next ch) (content ++ meaning (mode, ch)) line result) :
    Read mode content (ch :: line) result := by
  cases result with
  | ok pair =>
    obtain ⟨front, htakes, hcontent⟩ := h
    refine ⟨_, htakes.cons hwhole hadmitted, ?_⟩
    rw [hcontent, List.flatMap_cons, List.append_assoc]
  | error err => exact fun hcompletes => h (completes_cons.mp hcompletes).2

/-- A reader that goes on behind what has been taken. -/
theorem Read.after {mode : Mode} {content line rest : Text} {front : List (Mode × Char)}
    {result : Except LexError (Text × List Char)} (htakes : Takes mode line front rest)
    (h : Read .Outside (content ++ front.flatMap meaning) rest result) :
    Read mode content line result := by
  cases result with
  | ok pair =>
    obtain ⟨more, hmore, hcontent⟩ := h
    refine ⟨_, htakes.trans hmore, ?_⟩
    rw [hcontent, List.flatMap_append, List.append_assoc]
  | error err => exact fun hcompletes => h (htakes.completes.mp hcompletes)

theorem read_single_quoted_spec (content : Text) (line : List Char) :
    Read .Single content line (read_single_quoted content line) := by
  induction line generalizing content with
  | nil => exact fun hcompletes => absurd (completes_nil.mp hcompletes) (by decide)
  | cons ch chars ih =>
    unfold read_single_quoted
    by_cases hquote : ch = '\''
    · rw [if_pos hquote]
      refine ⟨_, Takes.single (by rw [hquote]; decide) rfl trivial, ?_⟩
      rw [hquote]
      exact (List.append_nil _).symm
    · rw [if_neg hquote]
      refine Read.cons rfl trivial ?_
      have hmeaning : meaning (.Single, ch) = [ch] := if_neg hquote
      have hnext : Mode.next .Single ch = .Single := if_neg hquote
      rw [hmeaning, hnext]
      exact ih _

theorem unescape_eq_some {ch decoded : Char} (h : unescape ch = some decoded) :
    Admitted (.Escaped, ch) ∧ meaning (.Escaped, ch) = [decoded] := by
  unfold unescape at h
  split at h
  · rename_i hn
    cases h
    subst hn
    exact ⟨by decide, rfl⟩
  · split at h
    · rename_i ht
      cases h
      subst ht
      exact ⟨by decide, rfl⟩
    · split at h
      · rename_i hquote
        cases h
        subst hquote
        exact ⟨by decide, rfl⟩
      · split at h
        · rename_i hescape
          cases h
          subst hescape
          exact ⟨by decide, rfl⟩
        · cases h

theorem unescape_eq_none {ch : Char} : unescape ch = none ↔ ¬ Admitted (.Escaped, ch) := by
  have hadmitted : Admitted (.Escaped, ch) ↔ ch = 'n' ∨ ch = 't' ∨ ch = '"' ∨ ch = '\\' := by
    simp only [Admitted, List.mem_cons, List.not_mem_nil, or_false]
  rw [hadmitted]
  unfold unescape
  grind

theorem read_double_quoted_spec (content : Text) (line : List Char) :
    Read .Double content line (read_double_quoted content line) := by
  induction hlength : line.length using Nat.strong_induction_on generalizing content line with
  | _ length ih =>
  cases line with
  | nil => exact fun hcompletes => absurd (completes_nil.mp hcompletes) (by decide)
  | cons ch chars =>
    unfold read_double_quoted
    by_cases hquote : ch = '"'
    · rw [if_pos hquote]
      refine ⟨_, Takes.single (by rw [hquote]; decide) rfl trivial, ?_⟩
      rw [hquote]
      exact (List.append_nil _).symm
    · rw [if_neg hquote]
      by_cases hescape : ch = '\\'
      · subst hescape
        rw [if_pos rfl]
        cases chars with
        | nil => exact fun hcompletes => absurd (completes_nil.mp (completes_cons.mp hcompletes).2) (by decide)
        | cons other chars =>
          obtain hnone | ⟨decoded, hdecoded⟩ := Option.eq_none_or_eq_some (unescape other)
          · simp only [hnone]
            exact fun hcompletes =>
              unescape_eq_none.mp hnone (completes_cons.mp (completes_cons.mp hcompletes).2).1
          · simp only [hdecoded]
            refine Read.cons rfl trivial (Read.cons rfl (unescape_eq_some hdecoded).1 ?_)
            have hmeaning : content ++ meaning (.Double, '\\') ++ meaning
                (.Escaped, other) = content ++ [decoded] := by
              rw [(unescape_eq_some hdecoded).2, show meaning (.Double, '\\') = [] from rfl,
                List.append_nil]
            rw [show Mode.next .Double '\\' = .Escaped from rfl, hmeaning]
            exact ih chars.length (by simp only [List.length_cons] at hlength; omega) _ chars rfl
      · rw [if_neg hescape]
        refine Read.cons rfl trivial ?_
        have hmeaning : meaning (.Double, ch) = [ch] := if_neg (not_or.mpr ⟨hquote, hescape⟩)
        have hnext : Mode.next .Double ch = .Double := by
          unfold Mode.next
          simp only [hquote, hescape, if_false]
        rw [hmeaning, hnext]
        exact ih chars.length (by simp only [List.length_cons] at hlength; omega) _ chars rfl

/-- How `read_word` ends: it stops at whitespace. -/
def Stops (result : Except LexError (Text × List Char)) : Prop :=
  ∀ word rest, result = .ok (word, rest) → ∀ ch ∈ rest.head?, is_whitespace ch = true

/-- A quoted segment of a word, and what is read after it. -/
theorem word_rounds_quoted (mode : Mode) {word chars : Text} {ch : Char}
    {segment : Except LexError (Text × List Char)}
    {next : Text → List Char → Except LexError (Text × List Char)}
    (hwhole : separates (.Outside, ch) = false) (hadmitted : Admitted (.Outside, ch))
    (hnext : Mode.next .Outside ch = mode) (hquote : meaning (.Outside, ch) = [])
    (hsegment : Read mode [] chars segment)
    (hrest : ∀ content rest, rest.length ≤ chars.length →
    Read .Outside (word ++ content) rest (next content rest) ∧ Stops (next content rest)) :
    Read .Outside word (ch :: chars) (do let (content, chars) ← segment; next content chars) ∧
      Stops (do let (content, chars) ← segment; next content chars) := by
  cases segment with
  | error err => exact ⟨fun hcompletes => hsegment (hnext ▸ (completes_cons.mp hcompletes).2),
    fun word rest hresult => by cases hresult⟩
  | ok pair =>
    obtain ⟨content, rest⟩ := pair
    obtain ⟨front, htakes, hcontent⟩ := hsegment
    obtain rfl : content = front.flatMap meaning := hcontent
    have hlength := htakes.length
    obtain ⟨hread, hstops⟩ := hrest _ rest (by omega)
    refine ⟨Read.cons hwhole hadmitted ?_, hstops⟩
    rw [hnext, hquote, List.append_nil]
    exact Read.after htakes hread

theorem word_rounds_spec {rounds : Nat} {word : Text} {started : Bool} {chars : List Char}
    (hrounds : chars.length ≤ rounds)
    (hstarted : started = true ∨ ∀ ch ∈ chars.head?, ch ∉ REJECTED_UNQUOTED_METACHARACTERS) :
    Read .Outside word chars (word_rounds rounds word started chars) ∧
    Stops (word_rounds rounds word started chars) := by
  induction rounds generalizing word started chars with
  | zero =>
    obtain rfl := List.length_eq_zero_iff.mp (Nat.le_zero.mp hrounds)
    refine ⟨⟨[], Takes.refl [], (List.append_nil _).symm⟩, ?_⟩
    rintro word rest hresult ch hch
    cases hresult
    cases hch
  | succ rounds ih =>
    cases chars with
    | nil =>
      refine ⟨⟨[], Takes.refl [], (List.append_nil _).symm⟩, ?_⟩
      rintro word rest hresult ch hch
      cases hresult
      cases hch
    | cons ch chars =>
      unfold word_rounds
      by_cases hspace : is_whitespace ch = true
      · rw [if_pos hspace]
        refine ⟨⟨[], Takes.refl _, (List.append_nil _).symm⟩, ?_⟩
        rintro word rest hresult ch hch
        cases hresult
        cases hch
        exact hspace
      · have hwhole : separates (.Outside, ch) = false := Bool.eq_false_of_not_eq_true hspace
        rw [if_neg hspace]
        by_cases hmeta : ch ∈ REJECTED_UNQUOTED_METACHARACTERS ∧ started = true
        · rw [if_pos hmeta]
          exact ⟨fun hcompletes => (completes_cons.mp hcompletes).1 hmeta.1,
            fun word rest hresult => by cases hresult⟩
        · have hadmitted : ch ∉ REJECTED_UNQUOTED_METACHARACTERS := by
            intro hmem
            exact hstarted.elim (fun hstarted => hmeta ⟨hmem, hstarted⟩)
              (fun hhead => hhead ch rfl hmem)
          rw [if_neg hmeta]
          simp only [List.length_cons] at hrounds
          by_cases hsingle : ch = '\''
          · subst hsingle
            rw [if_pos rfl]
            exact word_rounds_quoted .Single hwhole hadmitted rfl rfl
              (read_single_quoted_spec [] chars)
              (fun content rest hlength => ih (by omega) (.inl rfl))
          · rw [if_neg hsingle]
            by_cases hdouble : ch = '"'
            · subst hdouble
              rw [if_pos rfl]
              exact word_rounds_quoted .Double hwhole hadmitted rfl rfl
                (read_double_quoted_spec [] chars)
                (fun content rest hlength => ih (by omega) (.inl rfl))
            · rw [if_neg hdouble]
              have hmeaning : meaning (.Outside, ch) = [ch] :=
                if_neg (not_or.mpr ⟨hsingle, hdouble⟩)
              have hnext : Mode.next .Outside ch = .Outside := by
                unfold Mode.next
                simp only [hsingle, hdouble, if_false]
              obtain ⟨hread, hstops⟩ := @ih (word ++ [ch]) true chars (by omega) (.inl rfl)
              exact ⟨Read.cons hwhole hadmitted (by rw [hmeaning, hnext]; exact hread), hstops⟩

/-- The runs of a line that are words. -/
theorem words_eq (line : Text) : words line =
    (((marked .Outside line).splitOnP separates).filter (fun run => run ≠ [])).map
    (fun run => run.flatMap meaning) := rfl

theorem words_nil : words [] = [] := rfl

/-- Whitespace before a word is passed over. -/
theorem words_space {ch : Char} (hspace : is_whitespace ch = true)
    (hnext : Mode.next .Outside ch = .Outside) (rest : Text) :
    words (ch :: rest) = words rest := by
  rw [words_eq, marked, hnext, List.splitOnP_cons_eq_if_modifyHead,
    if_pos (show separates (.Outside, ch) = true from hspace),
    List.filter_cons_of_neg (by simp)]
  rfl

/-- A word is in front of those of the rest, which begins with whitespace. -/
theorem words_word {line rest : Text} {front : List (Mode × Char)}
    (htakes : Takes .Outside line front rest) (hne : front ≠ [])
    (hspace : ∀ ch ∈ rest.head?, is_whitespace ch = true) :
    words line = front.flatMap meaning :: words rest := by
  rw [words_eq, htakes.marked]
  cases rest with
  | nil =>
    rw [marked, List.append_nil, List.splitOnP_eq_singleton htakes.whole,
      List.filter_cons_of_pos (by simpa using hne)]
    rfl
  | cons ch rest =>
    have hseparates : separates (.Outside, ch) = true := hspace ch rfl
    rw [marked, List.splitOnP_append_cons_of_forall_mem htakes.whole _ hseparates,
      List.filter_cons_of_pos (by simpa using hne),
      List.map_cons, words_eq, marked, List.splitOnP_cons_eq_if_modifyHead, if_pos hseparates,
        List.filter_cons_of_neg (by simp)]

theorem whitespace_plain {ch : Char} (hspace : is_whitespace ch = true) :
    ch ∉ REJECTED_UNQUOTED_METACHARACTERS ∧ Mode.next .Outside ch = .Outside := by
  have hother : ∀ c, is_whitespace c = false → ch ≠ c := by
    rintro c hc rfl
    rw [hspace] at hc
    cases hc
  refine ⟨fun hmem => ?_, ?_⟩
  · have hall : REJECTED_UNQUOTED_METACHARACTERS.all (fun c => is_whitespace c = false) = true := by decide
    exact hother ch (of_decide_eq_true (List.all_eq_true.mp hall ch hmem)) rfl
  · unfold Mode.next
    simp only [hother '\'' (by decide), hother '"' (by decide), if_false]

theorem token_rounds_spec {rounds : Nat} {chars : List Char} (hrounds : chars.length ≤ rounds)
    (tokens tokens' : List Token) :
    token_rounds rounds tokens chars = .ok tokens' ↔ Completes .Outside chars ∧
    tokens' = tokens ++ (words chars).map classify := by
  induction rounds generalizing chars tokens with
  | zero =>
    obtain rfl := List.length_eq_zero_iff.mp (Nat.le_zero.mp hrounds)
    rw [token_rounds, words_nil, List.map_nil, List.append_nil,
      and_iff_right (completes_nil.mpr rfl), Except.ok.injEq]
    exact eq_comm
  | succ rounds ih =>
    cases chars with
    | nil =>
      rw [token_rounds, words_nil, List.map_nil, List.append_nil,
        and_iff_right (completes_nil.mpr rfl), Except.ok.injEq]
      exact eq_comm
    | cons ch chars =>
      rw [token_rounds]
      simp only [List.length_cons] at hrounds
      by_cases hspace : is_whitespace ch = true
      · obtain ⟨hplain, hnext⟩ := whitespace_plain hspace
        rw [if_pos hspace, ih (by omega), words_space hspace hnext, completes_cons, hnext,
          and_iff_right (show Admitted (.Outside, ch) from hplain)]
      · rw [if_neg hspace]
        by_cases hmeta : ch ∈ REJECTED_UNQUOTED_METACHARACTERS
        · rw [if_pos hmeta]
          exact iff_of_false (fun h => by cases h) (fun h => (completes_cons.mp h.1).1 hmeta)
        · rw [if_neg hmeta]
          obtain ⟨hread, hstops⟩ :=
            @word_rounds_spec (ch :: chars).length [] false (ch :: chars) (le_refl _)
            (.inr (fun c hc => by cases hc; exact hmeta))
          unfold read_word
          cases hword : word_rounds (ch :: chars).length [] false (ch :: chars) with
          | error err =>
            rw [hword] at hread
            exact iff_of_false (fun h => by cases h) (fun h => hread h.1)
          | ok pair =>
            obtain ⟨word, rest⟩ := pair
            rw [hword] at hread
            obtain ⟨front, htakes, rfl⟩ := hread
            have hends := hstops _ rest hword
            have hne : front ≠ [] := by
              rintro rfl
              have hhead := congrArg List.head? htakes.marked
              rw [List.nil_append, head_marked, head_marked] at hhead
              cases rest with
              | nil => cases hhead
              | cons c rest =>
                cases hhead
                exact hspace (hends _ rfl)
            have hlength := htakes.length
            have hpositive := List.length_pos_iff.mpr hne
            simp only [List.length_cons] at hlength
            have hnext := @ih rest (by omega) (tokens ++ [classify (front.flatMap meaning)])
            rw [words_word htakes hne hends, htakes.completes, List.map_cons, List.append_cons]
            exact hnext

/-- Which lines are tokenized, and into what. -/
theorem tokenize_iff {line : Text} {tokens : List Token} :
    tokenize line = .ok tokens ↔ Grammatical line ∧ tokens = (words line).map classify := by
  have hgrammatical : Grammatical line ↔ utf8_len line ≤ MAX_LINE_LEN ∧ NUL ∉ line ∧
      ¬ ['$', '('] <:+: line ∧ Completes .Outside line := by
    rw [← wellQuoted_iff]
    exact ⟨fun h => ⟨h.short, h.no_nul, h.no_substitution, h.quoted⟩, fun h =>
      ⟨h.1, h.2.1, h.2.2.1, h.2.2.2⟩⟩
  rw [hgrammatical]
  unfold tokenize
  by_cases hlong : MAX_LINE_LEN < utf8_len line
  · rw [if_pos hlong]
    exact iff_of_false (fun h => by cases h) (fun h => absurd h.1.1 (by omega))
  · rw [if_neg hlong, and_assoc, and_iff_right (Nat.not_lt.mp hlong), and_assoc]
    by_cases hnul : NUL ∈ line
    · rw [if_pos hnul]
      exact iff_of_false (fun h => by cases h) (fun h => h.1 hnul)
    · rw [if_neg hnul, and_iff_right hnul, and_assoc]
      by_cases hsubstitution : ['$', '('] <:+: line
      · rw [if_pos hsubstitution]
        exact iff_of_false (fun h => by cases h) (fun h => h.1 hsubstitution)
      · rw [if_neg hsubstitution, and_iff_right hsubstitution, token_rounds_spec (le_refl _)]
        rfl

/-- The lines of the grammar are tokenized, no others, and the tokens are the
classified words of the line. -/
theorem tokenize_accepts_grammar (line : Text) :
    ((∃ tokens, tokenize line = .ok tokens) ↔ Grammatical line) ∧
      ∀ tokens, tokenize line = .ok tokens → tokens = (words line).map classify := by
  refine ⟨⟨fun ⟨_, h⟩ => (tokenize_iff.mp h).1, fun h => ⟨_, tokenize_iff.mpr ⟨h, rfl⟩⟩⟩,
    fun tokens h => (tokenize_iff.mp h).2⟩

example : words "a'b c'\"\\n\" '' --x=1".toList = ["ab c\n".toList, [], "--x=1".toList] := by decide

end fslite.lexer
