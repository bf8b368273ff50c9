import Fslite.Url
import Fslite.Sqlite.Listing

namespace fslite

namespace http

inductive Method where
  | GET
  | HEAD
  | PUT
  | PATCH
  | POST
  | DELETE
  deriving DecidableEq

/-- The JSON values in the bodies of requests; all others are `other`. -/
inductive Json where
  | null
  | bool (value : Bool)
  | number (value : Nat)
  | string (value : Text)
  | other
  deriving DecidableEq

/-- The fields of a JSON object. -/
abbrev Object := List (Text × Json)

/-- A part of the pattern of a route. -/
inductive Part where
  | literal (text : Text)
  | parameter
  | wildcard

/-- What a pattern captures of the segments of a path it matches: a parameter is one
segment, a wildcard all that are left, and neither of them is empty. -/
def captured : List Part → List Text → Option (List Text)
  | [], [] => some []
  | [.wildcard], rest => if rest = [] ∨ rest = [[]] then none else some [['/'].intercalate rest]
  | .literal text :: parts, segment :: rest => if segment = text then captured parts rest else none
  | .parameter :: parts, segment :: rest =>
    if segment = [] then none else (captured parts rest).map (segment :: ·)
  | _, _ => none

/-- What the server and its client leave to other libraries: the segments of a URL's
path and its query, what a route's pattern captures of the segments, the reading of
escapes, the pairs in a query, the spelling of identifiers, bytes and JSON objects, and
what is wrong with a text that spells none. -/
structure Libraries where
  path : Text → List Text
  query : Text → Option Text
  captures : List Part → List Text → Option (List Text)
  percent_decode : Text → Option Text
  form : Text → List (Text × Text)
  workspace_id : Text → Option WorkspaceId
  base64 : Text → Except Text Bytes
  to_vec : Object → Bytes
  from_slice : Bytes → Option Object
  json_error : Bytes → Text

/-- A request to the server: the URL as its client writes it, without the origin, and
the pairs that the client adds to the query. -/
structure Request where
  method : Method
  url : Text
  query : List (Text × Text) := []
  authorization : Option Text
  range : Option Text := none
  body : Bytes := []

/-- The query of the URL of a request. -/
def Request.params (lib : Libraries) (request : Request) : List (Text × Text) :=
  match lib.query request.url with
  | some query => lib.form query ++ request.query
  | none => request.query

/-- What a response carries. -/
inductive Payload where
  | empty
  | node (node : Node)
  | nodes (page : Page Node)
  | tree (page : Page directory.TreeEntry)
  | link_target (target : Text)
  | trash (entry : TrashEntry)
  | stream (items : List (FsResult Bytes))
  | error (code message : Text) (details : Details)

structure Response where
  status : Nat
  content_range : Option Text := none
  payload : Payload

def OK : Nat := 200
def PARTIAL_CONTENT : Nat := 206
def RANGE_NOT_SATISFIABLE : Nat := 416

def Response.is_success (response : Response) : Bool :=
  200 ≤ response.status ∧ response.status < 300

end http

section text

/-- The number that a text spells, if it is at most `max`. -/
def parse_uint (max : Nat) (text : Text) : Option Nat :=
  let digits := if text.head? = some '+' then text.tail else text
  if digits ≠ [] ∧ digits.all Char.isDigit ∧
    Nat.ofDigitChars 10 digits 0 ≤ max then some (Nat.ofDigitChars 10 digits 0)
  else none

def U32_MAX : Nat := 2 ^ 32 - 1
def U64_MAX : Nat := 2 ^ 64 - 1

def parse_bool (text : Text) : Option Bool :=
  if text = "true".toList then some true else if text = "false".toList then some false else none

def bool_text (b : Bool) : Text := if b then "true".toList else "false".toList

theorem isDigit_decimal {n : Nat} : ∀ c ∈ decimal n, c.isDigit = true := by
  intro c hc
  exact Nat.isDigit_of_mem_toDigits (by decide) (by decide) hc

theorem decimal_ne_nil (n : Nat) : decimal n ≠ [] := Nat.toDigits_ne_nil

/-- A number is read back from its digits. -/
theorem parse_uint_decimal {max n : Nat} (h : n ≤ max) : parse_uint max (decimal n) = some n := by
  have hplus : (decimal n).head? ≠ some '+' := by
    intro hhead
    have hdigit := isDigit_decimal '+' (List.mem_of_mem_head? hhead)
    revert hdigit
    decide
  have hvalue : Nat.ofDigitChars 10 (decimal n) 0 = n := Nat.ofDigitChars_ten_toDigits
  unfold parse_uint
  rw [if_neg hplus, if_pos ⟨decimal_ne_nil n,
    List.all_eq_true.mpr isDigit_decimal, by rw [hvalue]; exact h⟩, hvalue]

/-- The text before a suffix. -/
def strip_suffix (suffix text : Text) : Option Text :=
  if suffix.isSuffixOf text then some (text.take (text.length - suffix.length)) else none

def strip_prefix (front text : Text) : Option Text :=
  if front.isPrefixOf text then some (text.drop front.length) else none

/-- The texts before and after the first occurrence of a separator. -/
def split_once (sep : Char) (text : Text) : Option (Text × Text) :=
  if sep ∈ text then some (text.takeWhile (fun c => c ≠ sep),
    (text.dropWhile (fun c => c ≠ sep)).tail) else none

theorem strip_suffix_append (front suffix : Text) :
    strip_suffix suffix (front ++ suffix) = some front := by
  rw [strip_suffix, if_pos (List.isSuffixOf_iff_suffix.mpr (List.suffix_append _ _)),
    List.length_append, Nat.add_sub_cancel,
    List.take_left]

theorem strip_suffix_eq_some {suffix text front : Text}
    (h : strip_suffix suffix text = some front) : text = front ++ suffix := by
  unfold strip_suffix at h
  split at h
  · rename_i hsuffix
    obtain ⟨rest, rfl⟩ := List.isSuffixOf_iff_suffix.mp hsuffix
    rw [List.length_append, Nat.add_sub_cancel, List.take_left] at h
    rw [Option.some.inj h]
  · cases h

theorem strip_prefix_append (front text : Text) :
    strip_prefix front (front ++ text) = some text := by
  unfold strip_prefix
  rw [if_pos (List.isPrefixOf_iff_prefix.mpr (List.prefix_append _ _)), List.drop_left]

theorem split_once_append {sep : Char} {before : Text} (h : sep ∉ before) (after : Text) :
    split_once sep (before ++ sep :: after) = some (before, after) := by
  have hkept : ∀ c ∈ before, decide (c ≠ sep) = true := by
    intro c hc
    rw [decide_eq_true_eq]
    rintro rfl
    exact h hc
  rw [split_once, if_pos (List.mem_append_right _ List.mem_cons_self),
    List.takeWhile_append_of_pos hkept,
    List.dropWhile_append_of_pos hkept, List.takeWhile_cons_of_neg (by simp),
      List.dropWhile_cons_of_neg (by simp), List.append_nil,
    List.tail_cons]

end text

end fslite
