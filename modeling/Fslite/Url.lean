import Mathlib.Algebra.GroupWithZero.Nat
import Mathlib.Data.List.DropRight
import Mathlib.Tactic.Common

namespace fslite

namespace Url

/-- The bytes of a text in UTF-8. -/
def utf8 (text : List Char) : List UInt8 := text.flatMap String.utf8EncodeChar

/-- The text that bytes encode in UTF-8, if they encode one. -/
def utf8_decode (bytes : List UInt8) : Option (List Char) :=
  (bytes.toByteArray.utf8Decode?).map Array.toList

@[simp] theorem utf8_nil : utf8 [] = [] := rfl

@[simp] theorem utf8_cons (c : Char) (text : List Char) :
    utf8 (c :: text) = String.utf8EncodeChar c ++ utf8 text := by
  rw [utf8, List.flatMap_cons, utf8]

@[simp] theorem utf8_append (a b : List Char) : utf8 (a ++ b) = utf8 a ++ utf8 b := by
  rw [utf8, List.flatMap_append, utf8, utf8]

theorem utf8Encode_eq (text : List Char) : text.utf8Encode = (utf8 text).toByteArray := by
  unfold utf8 List.utf8Encode
  rfl

theorem utf8_decode_utf8 (text : List Char) : utf8_decode (utf8 text) = some text := by
  rw [utf8_decode, ← utf8Encode_eq, List.utf8Decode?_utf8Encode, Option.map_some]

theorem utf8_of_decode {bytes : List UInt8} {text : List Char} (h : utf8_decode bytes = some text) :
    utf8 text = bytes := by
  obtain ⟨chars, hchars, rfl⟩ := Option.map_eq_some_iff.mp h
  have hsome : (bytes.toByteArray.utf8Decode?).isSome = true := by
    rw [hchars]
    rfl
  have hencode := @ByteArray.utf8Encode_get_utf8Decode? bytes.toByteArray hsome
  simp only [hchars, Option.get_some] at hencode
  rw [utf8Encode_eq] at hencode
  have hlist := congrArg (fun b : ByteArray => b.data.toList) hencode
  simpa [List.data_toByteArray] using hlist

theorem utf8_inj {a b : List Char} (h : utf8 a = utf8 b) : a = b := by
  have hdecode := utf8_decode_utf8 a
  rw [h, utf8_decode_utf8] at hdecode
  exact (Option.some.inj hdecode).symm

/-- The value of a hexadecimal digit. -/
def hex_value (c : Char) : Option Nat :=
  if '0' ≤ c ∧ c ≤ '9' then some (c.toNat - '0'.toNat)
  else if 'a' ≤ c ∧ c ≤ 'f' then some (c.toNat - 'a'.toNat + 10)
  else if 'A' ≤ c ∧ c ≤ 'F' then some (c.toNat - 'A'.toNat + 10)
  else none

def hex_digit (n : Nat) : Char :=
  ['0', '1', '2', '3', '4', '5', '6', '7', '8', '9', 'A', 'B', 'C', 'D', 'E', 'F'].getD n '0'

/-- The byte that two hexadecimal digits stand for. -/
def escaped (high low : Char) : Option UInt8 :=
  match hex_value high, hex_value low with
  | some a, some b => some (UInt8.ofNat (16 * a + b))
  | _, _ => none

def percent_encode_byte (b : UInt8) : List Char :=
  ['%', hex_digit (b.toNat / 16), hex_digit (b.toNat % 16)]

/-- The text with the characters of a set escaped. -/
def percent_encode (encodes : Char → Bool) (text : List Char) : List Char :=
  text.flatMap (fun c => if encodes c then (String.utf8EncodeChar c).flatMap percent_encode_byte else [c])

/-- The bytes of a text with its escapes read. -/
def percent_decode_bytes : List Char → List UInt8
  | '%' :: high :: low :: rest =>
    match escaped high low with
    | some b => b :: percent_decode_bytes rest
    | none => String.utf8EncodeChar '%' ++ percent_decode_bytes (high :: low :: rest)
  | c :: rest => String.utf8EncodeChar c ++ percent_decode_bytes rest
  | [] => []

def percent_decode (text : List Char) : Option (List Char) :=
  utf8_decode (percent_decode_bytes text)

/-- Whether the text starts with an escape. -/
def starts_escape : List Char → Bool
  | '%' :: high :: low :: _ => (escaped high low).isSome
  | _ => false

/-- Whether there is an escape somewhere in the text. -/
def escapes : List Char → Bool
  | [] => false
  | c :: rest => starts_escape (c :: rest) || escapes rest

/-- The sets of characters that a URL may escape in its path: neither `%` nor
the separator nor letters, digits and hyphens are among them. -/
structure PathSet (encodes : Char → Bool) : Prop where
  percent : encodes '%' = false
  slash : encodes '/' = false
  hyphen : encodes '-' = false
  alphanum : ∀ c, c.isAlphanum = true → encodes c = false

theorem alphanum_iff {c : Char} : c.isAlphanum = true ↔
    (65 ≤ c.val.toNat ∧ c.val.toNat ≤ 90 ∨ 97 ≤ c.val.toNat ∧ c.val.toNat ≤ 122) ∨
      48 ≤ c.val.toNat ∧ c.val.toNat ≤ 57 := by
  have hranges : c.isAlphanum = (decide (65 ≤ c.val ∧ c.val ≤ 90) ||
    decide (97 ≤ c.val) && decide (c.val ≤ 122) || decide (48 ≤ c.val) && decide (c.val ≤ 57)) := rfl
  simp only [hranges, Bool.or_eq_true, Bool.and_eq_true, decide_eq_true_eq, UInt32.le_iff_toNat_le]
  rfl

theorem alphanum_of_hex_value {c : Char} (h : (hex_value c).isSome = true) :
    c.isAlphanum = true := by
  have hdigit : ∀ a b : Char, a ≤ b ↔ a.val.toNat ≤ b.val.toNat := fun a b => UInt32.le_iff_toNat_le
  rw [alphanum_iff]
  unfold hex_value at h
  simp only [hdigit] at h
  split at h
  · rename_i hrange
    exact Or.inr hrange
  · split at h
    · rename_i hrange
      exact Or.inl (Or.inr ⟨hrange.1, hrange.2.trans (by decide)⟩)
    · split at h
      · rename_i hrange
        exact Or.inl (Or.inl ⟨hrange.1, hrange.2.trans (by decide)⟩)
      · cases h

theorem escaped_hex_digit (b : UInt8) :
    escaped (hex_digit (b.toNat / 16)) (hex_digit (b.toNat % 16)) = some b := by
  have hvalue : ∀ n < 16, hex_value (hex_digit n) = some n := by decide
  have hlt := b.toNat_lt
  rw [escaped, hvalue _ (by omega), hvalue _ (by omega)]
  simp only [Option.some.injEq]
  rw [Nat.div_add_mod, UInt8.ofNat_toNat]

theorem percent_decode_escape {high low : Char} {b : UInt8} (h : escaped high low = some b)
    (rest : List Char) :
    percent_decode_bytes ('%' :: high :: low :: rest) = b :: percent_decode_bytes rest := by
  rw [percent_decode_bytes, h]

theorem percent_decode_encoded_bytes (bytes : List UInt8) (rest : List Char) :
    percent_decode_bytes (bytes.flatMap percent_encode_byte ++ rest) = bytes ++
      percent_decode_bytes rest := by
  induction bytes with
  | nil => rfl
  | cons b bytes ih =>
    rw [List.flatMap_cons, List.append_assoc]
    show percent_decode_bytes ('%' :: _ :: _ :: _) = _
    rw [percent_decode_escape (escaped_hex_digit b), List.cons_append]
    exact congrArg (b :: ·) ih

theorem hex_value_of_escaped {high low : Char} {b : UInt8} (h : escaped high low = some b) :
    (hex_value high).isSome = true ∧ (hex_value low).isSome = true := by
  unfold escaped at h
  split at h
  · rename_i hhigh hlow
    rw [hhigh, hlow]
    exact ⟨rfl, rfl⟩
  · cases h

theorem starts_escape_eq_true {c : Char} {rest : List Char} (h : starts_escape (c :: rest) = true) :
    c = '%' ∧ ∃ high low tail b, rest = high :: low :: tail ∧ escaped high low = some b := by
  unfold starts_escape at h
  split at h
  · rename_i high low tail heq
    obtain ⟨rfl, rfl⟩ := List.cons.inj heq
    obtain ⟨b, hb⟩ := Option.isSome_iff_exists.mp h
    exact ⟨rfl, high, low, tail, b, rfl, hb⟩
  · cases h

/-- A character that starts no escape stands for itself. -/
theorem percent_decode_cons {c : Char} {rest : List Char} (h : starts_escape (c :: rest) = false) :
    percent_decode_bytes (c :: rest) = String.utf8EncodeChar c ++ percent_decode_bytes rest := by
  by_cases hc : c = '%'
  · subst hc
    match rest with
    | [] => rfl
    | [_] => rfl
    | high :: low :: rest =>
      rw [percent_decode_bytes]
      cases hescaped : escaped high low with
      | some b => simp [starts_escape, hescaped] at h
      | none => rfl
  · rw [percent_decode_bytes]
    rintro high low rest' rfl _
    exact hc rfl

section encode

variable {encodes : Char → Bool}

@[simp] theorem percent_encode_nil : percent_encode encodes [] = [] := rfl

theorem percent_encode_append (a b : List Char) :
    percent_encode encodes (a ++ b) = percent_encode encodes a ++ percent_encode encodes b :=
  List.flatMap_append

theorem percent_encode_pos {c : Char} (h : encodes c = true) (rest : List Char) :
    percent_encode encodes (c :: rest) = (String.utf8EncodeChar c).flatMap percent_encode_byte ++
      percent_encode encodes rest := by
  rw [percent_encode, List.flatMap_cons, if_pos h, percent_encode]

theorem percent_encode_neg {c : Char} (h : encodes c = false) (rest : List Char) :
    percent_encode encodes (c :: rest) = c :: percent_encode encodes rest := by
  rw [percent_encode, List.flatMap_cons, if_neg (by simp [h]), List.singleton_append,
    percent_encode]

/-- A text none of whose characters is escaped. -/
theorem percent_encode_self {text : List Char} (h : ∀ c ∈ text, encodes c = false) :
    percent_encode encodes text = text := by
  induction text with
  | nil => rfl
  | cons c rest ih => rw [percent_encode_neg (h c List.mem_cons_self),
    ih (fun d hd => h d (List.mem_cons_of_mem c hd))]

/-- What is escaped starts with `%`. -/
theorem head_percent_encode {c : Char} (h : encodes c = true) (rest : List Char) :
    ∃ tail, percent_encode encodes (c :: rest) = '%' :: tail := by
  rw [percent_encode_pos h]
  cases hbytes : String.utf8EncodeChar c with
  | nil => exact absurd hbytes String.utf8EncodeChar_ne_nil
  | cons b bytes => exact ⟨_, by rw [List.flatMap_cons, List.append_assoc]; rfl⟩

/-- Escaping makes no new escape out of a `%`. -/
theorem starts_escape_percent_encode (rest : List Char)
    (h : starts_escape ('%' :: percent_encode encodes rest) = true) :
    starts_escape ('%' :: rest) = true := by
  have hpercent : hex_value '%' = none := by decide
  obtain ⟨_, high', low', tail', b, heq, hescaped⟩ := starts_escape_eq_true h
  obtain ⟨hhigh', hlow'⟩ := hex_value_of_escaped hescaped
  cases rest with
  | nil => exact h
  | cons high rest =>
    by_cases hhigh : encodes high = true
    · obtain ⟨tail, htail⟩ := head_percent_encode hhigh rest
      rw [htail] at heq
      rw [← (List.cons.inj heq).1, hpercent] at hhigh'
      cases hhigh'
    · rw [percent_encode_neg (by simpa using hhigh)] at h heq
      cases rest with
      | nil => exact h
      | cons low rest =>
        by_cases hlow : encodes low = true
        · obtain ⟨tail, htail⟩ := head_percent_encode hlow rest
          rw [htail] at heq
          rw [← (List.cons.inj (List.cons.inj heq).2).1, hpercent] at hlow'
          cases hlow'
        · rw [percent_encode_neg (by simpa using hlow)] at h
          exact h

/-- Where the text starts with no escape, its first character is read back. -/
theorem percent_decode_encode_cons {c : Char} {rest : List Char}
    (h : starts_escape (c :: rest) = false) :
    percent_decode_bytes (percent_encode encodes (c :: rest)) =
      String.utf8EncodeChar c ++ percent_decode_bytes (percent_encode encodes rest) := by
  by_cases hc : encodes c = true
  · rw [percent_encode_pos hc, percent_decode_encoded_bytes]
  · rw [percent_encode_neg (by simpa using hc)]
    refine percent_decode_cons ?_
    rw [← Bool.not_eq_true]
    intro hstarts
    obtain ⟨rfl, _⟩ := starts_escape_eq_true hstarts
    rw [starts_escape_percent_encode rest hstarts] at h
    cases h

/-- A text without escapes is read back as it was, whatever was escaped. -/
theorem percent_decode_encode {text : List Char} (h : escapes text = false) :
    percent_decode_bytes (percent_encode encodes text) = utf8 text := by
  induction text with
  | nil => rfl
  | cons c rest ih =>
    rw [escapes, Bool.or_eq_false_iff] at h
    rw [percent_decode_encode_cons h.1, ih h.2, utf8_cons]

theorem escapes_of_not_mem {text : List Char} (h : '%' ∉ text) : escapes text = false := by
  induction text with
  | nil => rfl
  | cons c rest ih =>
    rw [escapes, ih (fun hmem => h (List.mem_cons_of_mem c hmem)), Bool.or_false,
      ← Bool.not_eq_true]
    intro hstarts
    obtain ⟨rfl, _⟩ := starts_escape_eq_true hstarts
    exact h List.mem_cons_self

/-- A text without escapes stands for itself. -/
theorem percent_decode_self {text : List Char} (h : escapes text = false) :
    percent_decode text = some text := by
  have hself : percent_encode (fun _ => false) text = text := percent_encode_self (fun _ _ => rfl)
  rw [percent_decode, ← utf8_decode_utf8, ← percent_decode_encode h, hself]

/-- How much bytes weigh: a backslash counts twice. -/
def weigh (bytes : List UInt8) : Nat := (bytes.map (fun b => if b = 92 then 2 else 1)).sum

@[simp] theorem weigh_append (a b : List UInt8) : weigh (a ++ b) = weigh a + weigh b := by
  rw [weigh, List.map_append, List.sum_append, weigh, weigh]

@[simp] theorem weigh_nil : weigh [] = 0 := rfl

theorem weigh_cons_le (b : UInt8) (bytes : List UInt8) : weigh (b :: bytes) ≤ 2 + weigh bytes := by
  rw [weigh, List.map_cons, List.sum_cons, weigh]
  split <;> omega

theorem weigh_utf8_pos (c : Char) : 0 < weigh (String.utf8EncodeChar c) := by
  cases hbytes : String.utf8EncodeChar c with
  | nil => exact absurd hbytes String.utf8EncodeChar_ne_nil
  | cons b bytes =>
    rw [weigh, List.map_cons, List.sum_cons]
    split <;> omega

/-- Escaping and reading back weighs no more than the text, and less if the text
had escapes of its own. -/
theorem weigh_decode_encode_le (hset : PathSet encodes) (text : List Char) :
    weigh (percent_decode_bytes (percent_encode encodes text)) + (if escapes text then 1 else 0) ≤
      weigh (utf8 text) := by
  induction hlength : text.length using Nat.strong_induction_on generalizing text with
  | _ n ih =>
    cases text with
    | nil => exact le_refl _
    | cons c rest =>
      cases hstarts : starts_escape (c :: rest) with
      | false =>
        have hrest := ih rest.length
          (by rw [← hlength, List.length_cons]; exact Nat.lt_succ_self _) rest rfl
        rw [percent_decode_encode_cons hstarts, utf8_cons, weigh_append, weigh_append, escapes,
          hstarts, Bool.false_or]
        omega
      | true =>
        obtain ⟨rfl, high, low, rest, b, rfl, hb⟩ := starts_escape_eq_true hstarts
        have hdigits := hex_value_of_escaped hb
        have hrest := ih rest.length
          (by rw [← hlength]; simp only [List.length_cons]; omega) rest rfl
        have hthree : 3 + weigh (utf8 rest) ≤ weigh (utf8 ('%' :: high :: low :: rest)) := by
          have hpercent := weigh_utf8_pos '%'
          have hhigh := weigh_utf8_pos high
          have hlow := weigh_utf8_pos low
          simp only [utf8_cons, weigh_append]
          omega
        have hle := weigh_cons_le b (percent_decode_bytes (percent_encode encodes rest))
        rw [percent_encode_neg hset.percent, percent_encode_neg
          (hset.alphanum high (alphanum_of_hex_value hdigits.1)),
          percent_encode_neg (hset.alphanum low (alphanum_of_hex_value hdigits.2)),
            percent_decode_escape hb, escapes, hstarts, Bool.true_or, if_pos rfl]
        split at hrest <;> omega

/-- A slash ends no escape. -/
theorem starts_escape_of_append_slash {c : Char} {rest b : List Char}
    (h : starts_escape (c :: (rest ++ '/' :: b)) = true) :
    starts_escape (c :: rest) = true := by
  have hslash : hex_value '/' = none := by decide
  obtain ⟨rfl, high, low, tail, byte, heq, hbyte⟩ := starts_escape_eq_true h
  obtain ⟨hhigh, hlow⟩ := hex_value_of_escaped hbyte
  match rest, heq with
  | [], heq =>
    rw [← (List.cons.inj heq).1, hslash] at hhigh
    cases hhigh
  | [_], heq =>
    rw [← (List.cons.inj (List.cons.inj heq).2).1, hslash] at hlow
    cases hlow
  | first :: second :: rest, heq =>
    have hfirst := (List.cons.inj heq).1
    have hsecond := (List.cons.inj (List.cons.inj heq).2).1
    rw [starts_escape, hfirst, hsecond, hbyte, Option.isSome_some]

theorem starts_escape_slash (rest : List Char) : starts_escape ('/' :: rest) = false := by
  rw [← Bool.not_eq_true]
  exact fun h => absurd (starts_escape_eq_true h).1 (by decide)

theorem percent_decode_append_slash (a b : List Char) :
    percent_decode_bytes (a ++ '/' :: b) = percent_decode_bytes a ++ 47 ::
      percent_decode_bytes b := by
  induction hlength : a.length using Nat.strong_induction_on generalizing a with
  | _ n ih =>
    cases a with
    | nil => exact percent_decode_cons (starts_escape_slash b)
    | cons c rest =>
      cases hstarts : starts_escape (c :: rest) with
      | true =>
        obtain ⟨rfl, high, low, rest, byte, rfl, hbyte⟩ := starts_escape_eq_true hstarts
        have hrest := ih rest.length
          (by rw [← hlength]; simp only [List.length_cons]; omega) rest rfl
        simp only [List.cons_append]
        rw [percent_decode_escape hbyte, percent_decode_escape hbyte, hrest, List.cons_append]
      | false =>
        have hstarts' : starts_escape (c :: (rest ++ '/' :: b)) = false := by
          rw [← Bool.not_eq_true]
          intro h
          rw [starts_escape_of_append_slash h] at hstarts
          cases hstarts
        have hrest := ih rest.length
          (by rw [← hlength, List.length_cons]; exact Nat.lt_succ_self _) rest rfl
        rw [List.cons_append, percent_decode_cons hstarts', percent_decode_cons hstarts, hrest,
          List.append_assoc]

theorem percent_encode_intercalate (hset : PathSet encodes) (segments : List (List Char)) :
    percent_encode encodes (['/'].intercalate segments) = ['/'].intercalate
      (segments.map (percent_encode encodes)) := by
  induction segments with
  | nil => rfl
  | cons segment rest ih =>
    cases rest with
    | nil => simp [List.intercalate]
    | cons next rest =>
      rw [List.intercalate_cons_cons, List.map_cons, List.map_cons, List.intercalate_cons_cons,
        ← List.map_cons, ← ih,
        percent_encode_append, percent_encode_append, percent_encode_neg hset.slash,
          percent_encode_nil]

/-- How much the segments of a path weigh when they are read back, each with its slash. -/
def total (segments : List (List Char)) : Nat :=
  (segments.map (fun segment => 1 + weigh (percent_decode_bytes segment))).sum

@[simp] theorem total_nil : total [] = 0 := rfl

@[simp] theorem total_cons (segment : List Char) (rest : List (List Char)) :
    total (segment :: rest) = 1 + weigh (percent_decode_bytes segment) + total rest := by
  rw [total, List.map_cons, List.sum_cons, total]

@[simp] theorem total_append (a b : List (List Char)) : total (a ++ b) = total a + total b := by
  rw [total, List.map_append, List.sum_append, total, total]

theorem total_intercalate {segments : List (List Char)} (hne : segments ≠ []) :
    total segments = 1 + weigh (percent_decode_bytes (['/'].intercalate segments)) := by
  induction segments with
  | nil => exact absurd rfl hne
  | cons segment rest ih =>
    cases rest with
    | nil => simp [List.intercalate]
    | cons next rest =>
      rw [total_cons, ih (List.cons_ne_nil _ _), List.intercalate_cons_cons]
      simp only [List.append_assoc, List.singleton_append]
      rw [percent_decode_append_slash, weigh_append]
      have hslash : ∀ bytes, weigh (47 :: bytes) = 1 + weigh bytes := fun bytes => by
        rw [weigh, List.map_cons, List.sum_cons, weigh]
        rfl
      rw [hslash]
      omega

theorem total_drop_le {m n : Nat} (h : m ≤ n) (segments : List (List Char)) :
    total (segments.drop n) ≤ total (segments.drop m) := by
  have hsplit := List.take_append_drop (n - m) (segments.drop m)
  rw [List.drop_drop, Nat.add_sub_cancel' h] at hsplit
  rw [← hsplit, total_append]
  exact Nat.le_add_left _ _

end encode

section path

variable {encodes : Char → Bool}

/-- The text as a URL parser reads it: without blanks at its end, and without
tabs and line breaks. -/
def cleaned (text : List Char) : List Char :=
  (text.rdropWhile (fun c => c ≤ ' ')).filter (fun c => c ∉ ['\t', '\n', '\r'])

/-- The part of a text before its query or fragment. -/
def path_part (text : List Char) : List Char := text.takeWhile (fun c => c ∉ ['?', '#'])

/-- The text with its backslashes read as slashes. -/
def slashed (text : List Char) : List Char := text.map (fun c => if c = '\\' then '/' else c)

def is_single_dot (segment : List Char) : Bool :=
  segment ∈ [['.'], ['%', '2', 'e'], ['%', '2', 'E']]

def is_double_dot (segment : List Char) : Bool :=
  segment ∈ [['.', '.'], ['.', '%', '2', 'e'], ['.', '%', '2', 'E'], ['%', '2', 'e', '.'],
    ['%', '2', 'E', '.'],
    ['%', '2', 'e', '%', '2', 'e'], ['%', '2', 'e', '%', '2', 'E'], ['%', '2', 'E', '%', '2', 'e'],
    ['%', '2', 'E', '%', '2', 'E']]

def is_dots (segment : List Char) : Bool := is_single_dot segment || is_double_dot segment

/-- The segments of a path without its dot segments; one at its end leaves an
empty segment. -/
def resolve_dots : List (List Char) → List (List Char) → List (List Char)
  | path, [] => path
  | path, [last] =>
    if is_double_dot last then path.dropLast ++ [[]]
    else if is_single_dot last then path ++ [[]]
    else path ++ [last]
  | path, segment :: rest =>
    if is_double_dot segment then resolve_dots path.dropLast rest
    else if is_single_dot segment then resolve_dots path rest
    else resolve_dots (path ++ [segment]) rest

/-- The text as a URL parser reads it from the path's first slash on. -/
def read (text : List Char) : List Char := slashed (path_part (cleaned text))

/-- The query that a URL parser finds in the text, if there is one. -/
def query (text : List Char) : Option (List Char) :=
  match (cleaned text).dropWhile (fun c => c ∉ ['?', '#']) with
  | '?' :: rest => some (rest.takeWhile (fun c => c ≠ '#'))
  | _ => none

/-- What a URL parser makes of the text from the path's first slash on: the
segments of the path, escaped. -/
def path (encodes : Char → Bool) (text : List Char) : List (List Char) :=
  resolve_dots [] (((read text).splitOn '/').tail.map (percent_encode encodes))

theorem resolve_dots_append {front : List (List Char)} (hfront : ∀ f ∈ front, is_dots f = false)
    {segments : List (List Char)} (hne : segments ≠ []) (path : List (List Char)) :
    resolve_dots path (front ++ segments) = resolve_dots (path ++ front) segments := by
  induction front generalizing path with
  | nil => rw [List.nil_append, List.append_nil]
  | cons f front ih =>
    obtain ⟨hsingle, hdouble⟩ := Bool.or_eq_false_iff.mp (hfront f List.mem_cons_self)
    obtain ⟨next, rest, hrest⟩ :=
      List.exists_cons_of_ne_nil (show front ++ segments ≠ [] by simp [hne])
    rw [List.cons_append, hrest, resolve_dots, if_neg (by simp [hdouble]),
      if_neg (by simp [hsingle]), ← hrest,
      ih (fun f hf => hfront f (List.mem_cons_of_mem _ hf)), List.append_assoc,
        List.singleton_append]
    exact fun h => List.cons_ne_nil _ _ h

theorem resolve_dots_plain {segments : List (List Char)} (h : ∀ s ∈ segments, is_dots s = false)
    (path : List (List Char)) :
    resolve_dots path segments = path ++ segments := by
  cases segments using List.reverseRecOn with
  | nil => rw [resolve_dots, List.append_nil]
  | append_singleton front last =>
    obtain ⟨hsingle, hdouble⟩ :=
      Bool.or_eq_false_iff.mp (h last (List.mem_append_right _ List.mem_cons_self))
    rw [resolve_dots_append (fun f hf => h f (List.mem_append_left _ hf)) (List.cons_ne_nil _ _),
      resolve_dots,
      if_neg (by simp [hdouble]), if_neg (by simp [hsingle]), List.append_assoc]

/-- What a dot segment stands for. -/
theorem percent_decode_dots {segment : List Char} (h : is_dots segment = true) :
    percent_decode_bytes segment = utf8 ['.'] ∨ percent_decode_bytes segment = utf8 ['.', '.'] := by
  have hsingle : ∀ s ∈ [['.'], ['%', '2', 'e'], ['%', '2', 'E']],
    percent_decode_bytes s = utf8 ['.'] := by decide
  have hdouble : ∀ s ∈ [['.', '.'], ['.', '%', '2', 'e'], ['.', '%', '2', 'E'],
    ['%', '2', 'e', '.'], ['%', '2', 'E', '.'],
      ['%', '2', 'e', '%', '2', 'e'], ['%', '2', 'e', '%', '2', 'E'],
        ['%', '2', 'E', '%', '2', 'e'],
      ['%', '2', 'E', '%', '2', 'E']], percent_decode_bytes s = utf8 ['.', '.'] := by decide
  obtain h | h := Bool.or_eq_true_iff.mp h
  · exact Or.inl (hsingle segment (of_decide_eq_true h))
  · exact Or.inr (hdouble segment (of_decide_eq_true h))

theorem weigh_dots_pos {segment : List Char} (h : is_dots segment = true) :
    1 ≤ weigh (percent_decode_bytes segment) := by
  obtain h | h := percent_decode_dots h <;> rw [h] <;> decide

theorem total_drop_append_le (n : Nat) (a b : List (List Char)) :
    total ((a ++ b).drop n) ≤ total (a.drop n) + total b := by
  have hdrop := total_drop_le (Nat.zero_le (n - a.length)) b
  rw [List.drop_zero] at hdrop
  rw [List.drop_append, total_append]
  omega

theorem total_drop_dropLast_le (n : Nat) (a : List (List Char)) :
    total (a.dropLast.drop n) ≤ total (a.drop n) := by
  cases a using List.reverseRecOn with
  | nil => exact le_refl _
  | append_singleton a last =>
    rw [List.dropLast_concat, List.drop_append, total_append]
    exact Nat.le_add_right _ _

/-- Resolving dot segments makes no path heavier, and each dot segment makes it lighter. -/
theorem resolve_dots_total (n : Nat) (path segments : List (List Char)) :
    total ((resolve_dots path segments).drop n) + (if segments.any is_dots then 1 else 0) ≤ total
      (path.drop n) + total segments := by
  have hempty : total [[]] = 1 := rfl
  induction segments generalizing path with
  | nil => simp [resolve_dots]
  | cons segment rest ih =>
    have hdropLast := total_drop_dropLast_le n path
    have hone : (if (segment :: rest).any is_dots then 1 else 0) ≤ 1 := by split <;> omega
    by_cases hdots : is_dots segment = true
    · have hpos := weigh_dots_pos hdots
      cases rest with
      | nil =>
        rw [resolve_dots, total_cons, total_nil]
        split
        · have happend := total_drop_append_le n path.dropLast [[]]
          omega
        · have happend := total_drop_append_le n path [[]]
          rw [if_pos (by simpa [is_dots, *] using hdots)]
          omega
      | cons next rest =>
        rw [resolve_dots, total_cons]
        · split
          · have hrest := ih path.dropLast
            omega
          · have hrest := ih path
            rw [if_pos (by simpa [is_dots, *] using hdots)]
            omega
        · exact fun h => List.cons_ne_nil _ _ h
    · have hplain : is_dots segment = false := by simpa using hdots
      obtain ⟨hsingle, hdouble⟩ := Bool.or_eq_false_iff.mp hplain
      have happend := total_drop_append_le n path [segment]
      rw [total_cons, total_nil] at happend
      have hany : (segment :: rest).any is_dots =
        rest.any is_dots := by rw [List.any_cons, hplain, Bool.false_or]
      rw [hany, total_cons]
      cases rest with
      | nil =>
        rw [resolve_dots, if_neg (by simp [hdouble]), if_neg (by simp [hsingle])]
        simpa using happend
      | cons next rest =>
        have hrest := ih (path ++ [segment])
        rw [resolve_dots, if_neg (by simp [hdouble]), if_neg (by simp [hsingle])]
        · omega
        · exact fun h => List.cons_ne_nil _ _ h

/-- A text that a URL parser reads as it is: no blank at its end, and no character
that it drops, stops at or reads as a slash. -/
structure Sound (text : List Char) : Prop where
  ends : ∀ c ∈ text.getLast?, ' ' < c
  free : ∀ c ∈ text, c ∉ ['\t', '\n', '\r', '?', '#', '\\']

instance (text : List Char) : Decidable (Sound text) :=
  decidable_of_iff (text.getLast?.all (fun c => ' ' < c) = true ∧
    text.all (fun c => c ∉ ['\t', '\n', '\r', '?', '#', '\\']) = true)
    ⟨fun h => ⟨by simpa [Option.all_eq_true] using h.1, by simpa using h.2⟩,
      fun h => ⟨by simpa [Option.all_eq_true] using h.ends, by simpa using h.free⟩⟩

/-- A text that survives a URL's path: it is read as it is, and nothing in it is an escape. -/
structure Plain (text : List Char) : Prop extends Sound text where
  unescaped : escapes text = false

instance (text : List Char) : Decidable (Plain text) :=
  decidable_of_iff (Sound text ∧ escapes text = false) ⟨fun h => ⟨h.1, h.2⟩, fun h => ⟨h.1, h.2⟩⟩

theorem rdropWhile_eq_self {text : List Char} (h : ∀ c ∈ text.getLast?, ' ' < c) :
    text.rdropWhile (fun c => c ≤ ' ') = text := by
  cases text using List.reverseRecOn with
  | nil => rfl
  | append_singleton front last =>
    rw [List.rdropWhile_concat, if_neg]
    have hlast := h last (by simp)
    simpa using hlast

theorem cleaned_of_sound {text : List Char} (h : Sound text) : cleaned text = text := by
  rw [cleaned, rdropWhile_eq_self h.ends, List.filter_eq_self]
  intro c hc
  have hfree := h.free c hc
  simp only [List.mem_cons, not_or] at hfree
  simp [hfree]

theorem path_part_of_sound {text : List Char} (h : Sound text) : path_part text = text := by
  rw [path_part, List.takeWhile_eq_self_iff]
  intro c hc
  have hfree := h.free c hc
  simp only [List.mem_cons, not_or] at hfree
  simp [hfree]

theorem slashed_of_sound {text : List Char} (h : Sound text) : slashed text = text := by
  rw [slashed, List.map_congr_left, List.map_id']
  intro c hc
  have hfree := h.free c hc
  simp only [List.mem_cons, not_or] at hfree
  rw [if_neg hfree.2.2.2.2.2.1]

theorem read_of_sound {text : List Char} (h : Sound text) : read text = text := by
  rw [read, cleaned_of_sound h, path_part_of_sound h, slashed_of_sound h]

theorem query_of_sound {text : List Char} (h : Sound text) : query text = none := by
  have hnone : text.dropWhile (fun c => c ∉ ['?', '#']) = [] := by
    rw [List.dropWhile_eq_nil_iff]
    intro c hc
    have hfree := h.free c hc
    simp only [List.mem_cons, not_or] at hfree
    simp [hfree]
  rw [query, cleaned_of_sound h, hnone]

/-- Of two texts, one of which is a part of the other, the part is lighter. -/
theorem weigh_sublist {a b : List Char} (h : a.Sublist b) : weigh (utf8 a) ≤ weigh (utf8 b) := by
  induction h with
  | slnil => exact le_refl _
  | cons c _ ih =>
    rw [utf8_cons, weigh_append]
    omega
  | cons_cons c _ ih =>
    rw [utf8_cons, utf8_cons, weigh_append, weigh_append]
    omega

theorem eq_of_sublist_of_weigh {a b : List Char} (h : a.Sublist b)
    (hle : weigh (utf8 b) ≤ weigh (utf8 a)) : a = b := by
  induction h with
  | slnil => rfl
  | cons c hsub ih =>
    have hpos := weigh_utf8_pos c
    have hrest := weigh_sublist hsub
    rw [utf8_cons, weigh_append] at hle
    omega
  | cons_cons c hsub ih =>
    rw [utf8_cons, utf8_cons, weigh_append, weigh_append] at hle
    rw [ih (by omega)]

theorem weigh_slashed_le (text : List Char) :
    weigh (utf8 (slashed text)) + (if '\\' ∈ text then 1 else 0) ≤ weigh (utf8 text) := by
  induction text with
  | nil => exact le_refl _
  | cons c rest ih =>
    rw [slashed, List.map_cons, ← slashed, utf8_cons, utf8_cons, weigh_append, weigh_append]
    by_cases hc : c = '\\'
    · have hbackslash : weigh (String.utf8EncodeChar '\\') = 2 := by decide
      have hslash : weigh (String.utf8EncodeChar '/') = 1 := by decide
      rw [if_pos hc, hc, if_pos List.mem_cons_self, hbackslash, hslash]
      omega
    · have hmem : '\\' ∈ c :: rest ↔ '\\' ∈ rest := by simp [Ne.symm hc]
      rw [if_neg hc, if_congr hmem rfl rfl]
      omega

theorem read_sublist (text : List Char) : (path_part (cleaned text)).Sublist text :=
  (List.takeWhile_sublist _).trans
    ((List.filter_sublist).trans (List.rdropWhile_prefix _ _).sublist)

theorem weigh_read_le (text : List Char) : weigh (utf8 (read text)) ≤ weigh (utf8 text) :=
  (Nat.le_of_add_right_le (weigh_slashed_le _)).trans (weigh_sublist (read_sublist text))

/-- What is read weighs less than the text, unless the text is read as it is. -/
theorem sound_of_weigh {text : List Char} (h : weigh (utf8 text) ≤ weigh (utf8 (read text))) :
    Sound text := by
  have hslashed := weigh_slashed_le (path_part (cleaned text))
  have hpart := eq_of_sublist_of_weigh (read_sublist text)
    (h.trans (Nat.le_of_add_right_le hslashed))
  have hcleaned : (cleaned text).Sublist text :=
    List.filter_sublist.trans (List.rdropWhile_prefix _ _).sublist
  have htrimmed := List.rdropWhile_prefix (fun c => decide (c ≤ ' ')) text
  have hclean : cleaned text = text := hcleaned.antisymm (by
    have hsub := @List.takeWhile_sublist _ (cleaned text) (fun c => decide (c ∉ ['?', '#']))
    rw [← path_part, hpart] at hsub
    exact hsub)
  have htrim : text.rdropWhile (fun c => c ≤ ' ') = text := htrimmed.sublist.antisymm (by
    have hsub := @List.filter_sublist _ (fun c => decide (c ∉ ['\t', '\n', '\r']))
      (text.rdropWhile (fun c => c ≤ ' '))
    rw [← cleaned, hclean] at hsub
    exact hsub)
  refine ⟨fun c hc => ?_, fun c hc => ?_⟩
  · cases text using List.reverseRecOn with
    | nil => cases hc
    | append_singleton front last => 
      rw [List.getLast?_concat, Option.mem_def, Option.some.injEq] at hc
      have hkept := List.rdropWhile_eq_self_iff.mp htrim (by simp)
      rw [List.getLast_append_singleton, hc] at hkept
      simpa using hkept
  · rw [hpart] at hslashed
    have hstop := hpart
    rw [hclean, path_part, List.takeWhile_eq_self_iff] at hstop
    have hdrop := hclean
    rw [cleaned, htrim, List.filter_eq_self] at hdrop
    have hbackslash : '\\' ∉ text := by
      intro hmem
      rw [if_pos hmem, ← hpart] at hslashed
      rw [read] at h
      rw [hpart] at hslashed h
      omega
    have hstop := hstop c hc
    have hdrop := hdrop c hc
    have hne : c ≠ '\\' := fun heq => hbackslash (heq ▸ hc)
    simp only [decide_eq_true_eq, List.mem_cons, not_or] at hstop hdrop ⊢
    exact ⟨hdrop.1, hdrop.2.1, hdrop.2.2.1, hstop.1, hstop.2.1, hne, List.not_mem_nil⟩

/-- A text that is read as it is stays in front of what follows. -/
theorem read_append {front : List Char} (hfront : Sound front) (rest : List Char) :
    read (front ++ rest) = front ++ read rest := by
  have hdropped := rdropWhile_eq_self hfront.ends
  have hcleaned : cleaned (front ++ rest) = front ++ cleaned rest := by
    have hfilter := cleaned_of_sound hfront
    rw [cleaned, hdropped] at hfilter
    have htrim : (front ++ rest).rdropWhile (fun c => c ≤ ' ') = front ++ rest.rdropWhile
        (fun c => c ≤ ' ') := by
      rw [List.rdropWhile, List.reverse_eq_iff] at hdropped
      rw [List.rdropWhile, List.rdropWhile, List.reverse_append, List.dropWhile_append]
      split
      · rename_i hempty
        rw [List.isEmpty_iff.mp hempty, hdropped, List.reverse_reverse, List.reverse_nil,
          List.append_nil]
      · rw [List.reverse_append, List.reverse_reverse]
    rw [cleaned, htrim, List.filter_append, hfilter, cleaned]
  have hpart := path_part_of_sound hfront
  rw [path_part, List.takeWhile_eq_self_iff] at hpart
  rw [read, hcleaned, path_part, List.takeWhile_append_of_pos hpart, slashed, List.map_append,
    ← slashed, slashed_of_sound hfront, read,
    path_part, slashed]

theorem read_slash (rest : List Char) : read ('/' :: rest) = '/' :: read rest := by
  have hslash : Sound ['/'] := by decide
  exact read_append hslash rest

theorem escapes_slash (rest : List Char) : escapes ('/' :: rest) = escapes rest := by
  rw [escapes, starts_escape_slash, Bool.false_or]

/-- Texts without escapes have none when a slash is between them. -/
theorem escapes_append_slash {a b : List Char} (ha : escapes a = false) (hb : escapes b = false) :
    escapes (a ++ '/' :: b) = false := by
  induction a with
  | nil => rw [List.nil_append, escapes_slash, hb]
  | cons c rest ih =>
    rw [escapes, Bool.or_eq_false_iff] at ha
    rw [List.cons_append, escapes, ih ha.2, Bool.or_false, ← Bool.not_eq_true]
    intro hstarts
    rw [starts_escape_of_append_slash hstarts] at ha
    cases ha.1

/-- Plain texts with a slash between them are plain. -/
theorem Plain.append_slash {a b : List Char} (ha : Plain a) (hb : Plain b) (hne : b ≠ []) :
    Plain (a ++ '/' :: b) where
  ends := by
    rw [List.getLast?_append_of_ne_nil _ (List.cons_ne_nil _ _), List.getLast?_cons_of_ne_nil hne]
    exact hb.ends
  free := by
    intro c hc
    obtain hc | hc := List.mem_append.mp hc
    · exact ha.free c hc
    · obtain rfl | hc := List.mem_cons.mp hc
      · decide
      · exact hb.free c hc
  unescaped := escapes_append_slash ha.unescaped hb.unescaped

theorem starts_escape_append {a : List Char} (h : starts_escape a = true) (b : List Char) :
    starts_escape (a ++ b) = true := by
  cases a with
  | nil => cases h
  | cons c rest =>
    obtain ⟨rfl, high, low, tail, byte, rfl, hbyte⟩ := starts_escape_eq_true h
    rw [List.cons_append, List.cons_append, List.cons_append, starts_escape, hbyte]
    exact Option.isSome_some

/-- Where a text has no escapes, none of its parts has. -/
theorem escapes_append {a b : List Char} (h : escapes (a ++ b) = false) :
    escapes a = false ∧ escapes b = false := by
  induction a with
  | nil => exact ⟨rfl, h⟩
  | cons c rest ih =>
    rw [List.cons_append, escapes, Bool.or_eq_false_iff] at h
    obtain ⟨hrest, hb⟩ := ih h.2
    refine ⟨?_, hb⟩
    rw [escapes, hrest, Bool.or_false, ← Bool.not_eq_true]
    intro hstarts
    have happend := starts_escape_append hstarts b
    rw [List.cons_append, h.1] at happend
    cases happend

theorem escapes_intercalate {segments : List (List Char)}
    (h : escapes (['/'].intercalate segments) = false) :
    ∀ s ∈ segments, escapes s = false := by
  induction segments with
  | nil => simp
  | cons segment rest ih =>
    cases rest with
    | nil =>
      rw [List.intercalate_singleton] at h
      simpa using h
    | cons next rest =>
      rw [List.intercalate_cons_cons, List.append_assoc] at h
      obtain ⟨hsegment, hrest⟩ := escapes_append h
      exact List.forall_mem_cons.mpr ⟨hsegment, ih (escapes_append hrest).2⟩

/-- A segment that is neither `.` nor `..` and has no escapes is no dot segment. -/
theorem is_dots_percent_encode {segment : List Char} (hescapes : escapes segment = false)
    (hsingle : segment ≠ ['.']) (hdouble : segment ≠ ['.', '.']) :
    is_dots (percent_encode encodes segment) = false := by
  rw [← Bool.not_eq_true]
  intro hdots
  have hdecode := @percent_decode_encode encodes _ hescapes
  obtain h | h := percent_decode_dots hdots
  · exact hsingle (utf8_inj (hdecode.symm.trans h))
  · exact hdouble (utf8_inj (hdecode.symm.trans h))

/-- The segments of a front, escaped. -/
def front_segments (encodes : Char → Bool) (front : List Char) : List (List Char) :=
  (front.splitOn '/').tail.map (percent_encode encodes)

theorem path_append {front : List Char} (hfront : Sound front)
    (hdots : ∀ s ∈ front_segments encodes front, is_dots s = false) (rest : List Char) :
    path encodes (front ++ '/' :: rest) =
      resolve_dots (front_segments encodes front)
        (((read rest).splitOn '/').map (percent_encode encodes)) := by
  rw [path, read_append hfront, read_slash, List.splitOn_append_cons_self,
    List.tail_append_of_ne_nil (List.splitOn_ne_nil _ _),
    List.map_append, ← front_segments, resolve_dots_append hdots, List.nil_append]
  exact fun h => List.splitOn_ne_nil _ _ (List.map_eq_nil_iff.mp h)

/-- A plain path keeps its segments. -/
theorem path_of_plain {front : List Char} (hfront : Sound front)
    (hdots : ∀ s ∈ front_segments encodes front, is_dots s = false) {rest : List Char}
    (hplain : Plain ('/' :: rest))
    (hsegments : ∀ s ∈ rest.splitOn '/', s ≠ ['.'] ∧ s ≠ ['.', '.']) :
    path encodes (front ++ '/' :: rest) = front_segments encodes front ++ (rest.splitOn '/').map
      (percent_encode encodes) := by
  have hread := read_of_sound hplain.toSound
  rw [read_slash] at hread
  have hescapes := hplain.unescaped
  have hjoin : ['/'].intercalate (rest.splitOn '/') = rest := List.intercalate_splitOn '/'
  rw [escapes_slash, ← hjoin] at hescapes
  rw [path_append hfront hdots, (List.cons.inj hread).2, resolve_dots_plain]
  intro s hs
  obtain ⟨segment, hsegment, rfl⟩ := List.mem_map.mp hs
  obtain ⟨hsingle, hdouble⟩ := hsegments segment hsegment
  exact is_dots_percent_encode (escapes_intercalate hescapes segment hsegment) hsingle hdouble

/-- A path that is as heavy as its text comes from a plain text. -/
theorem plain_of_path_drop (hset : PathSet encodes) {front : List Char} (hfront : Sound front)
    (hdots : ∀ s ∈ front_segments encodes front, is_dots s = false) {rest : List Char}
    (h : weigh (utf8 ('/' :: rest)) ≤ total
    ((path encodes (front ++ '/' :: rest)).drop (front_segments encodes front).length)) :
    Plain ('/' :: rest) := by
  have htotal := resolve_dots_total (front_segments encodes front).length
    (front_segments encodes front)
    (((read rest).splitOn '/').map (percent_encode encodes))
  have hdecode := weigh_decode_encode_le hset (read rest)
  have hread := weigh_read_le ('/' :: rest)
  have hslash : weigh (String.utf8EncodeChar '/') = 1 := by decide
  rw [path_append hfront hdots] at h
  have hne : ((read rest).splitOn '/').map (percent_encode encodes) ≠ [] :=
    fun h => List.splitOn_ne_nil _ _ (List.map_eq_nil_iff.mp h)
  rw [List.drop_length, total_nil, total_intercalate hne, ← percent_encode_intercalate hset,
    List.intercalate_splitOn] at htotal
  rw [read_slash, utf8_cons, weigh_append, hslash] at hread
  have hsound : Sound ('/' :: rest) := by
    refine sound_of_weigh ?_
    rw [read_slash, utf8_cons, utf8_cons, weigh_append, weigh_append, hslash]
    rw [utf8_cons, weigh_append, hslash] at h
    omega
  refine ⟨hsound, ?_⟩
  have hself := read_of_sound hsound
  rw [read_slash] at hself
  rw [(List.cons.inj hself).2] at htotal hdecode hread h
  rw [escapes_slash, ← Bool.not_eq_true]
  intro hescapes
  rw [if_pos hescapes] at hdecode
  omega

end path

end Url

end fslite
