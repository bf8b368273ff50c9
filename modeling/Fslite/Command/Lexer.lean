import Fslite.Server.Http

namespace fslite.lexer

/-- The maximum accepted input line length, in bytes. -/
def MAX_LINE_LEN : Nat := 65536

def REJECTED_UNQUOTED_METACHARACTERS : List Char := ['|', ';', '&', '<', '>', '\x60']

/-- One lexical token: a bare word or path, or a `--flag[=value]`. -/
inductive Token where
  | Word (text : Text)
  | Flag (name : Text) (value : Option Text)
  deriving DecidableEq

/-- Why a line could not be tokenized. -/
inductive LexError where
  | UnterminatedQuote
  | InvalidEscape (ch : Char)
  | NulByte
  | TooLong (max actual : Nat)
  | UnsupportedMetacharacter (ch : Char)
  deriving DecidableEq

/-- The characters with the property `White_Space`. -/
def is_whitespace (ch : Char) : Bool :=
  0x09 ≤ ch.toNat ∧ ch.toNat ≤ 0x0d ∨ 0x2000 ≤ ch.toNat ∧ ch.toNat ≤ 0x200a ∨
    ch.toNat ∈ [0x20, 0x85, 0xa0, 0x1680, 0x2028, 0x2029, 0x202f, 0x205f, 0x3000]

def classify (word : Text) : Token :=
  match strip_prefix "--".toList word with
  | some rest =>
    match split_once '=' rest with
    | some (name, value) => .Flag name (some value)
    | none => .Flag rest none
  | none => .Word word

/-- What is read up to the closing quote, and the characters behind it. -/
def read_single_quoted : Text → List Char → Except LexError (Text × List Char)
  | _, [] => .error .UnterminatedQuote
  | content, ch :: chars => if ch = '\'' then .ok (content, chars) else read_single_quoted
    (content ++ [ch]) chars

/-- The character that a backslash and the given one stand for. -/
def unescape (ch : Char) : Option Char :=
  if ch = 'n' then some '\n'
  else if ch = 't' then some '\t'
  else if ch = '"' then some '"'
  else if ch = '\\' then some '\\'
  else none

def read_double_quoted : Text → List Char → Except LexError (Text × List Char)
  | _, [] => .error .UnterminatedQuote
  | content, ch :: chars =>
    if ch = '"' then .ok (content, chars)
    else if ch = '\\' then
      match chars with
      | [] => .error .UnterminatedQuote
      | other :: chars =>
        match unescape other with
        | some decoded => read_double_quoted (content ++ [decoded]) chars
        | none => .error (.InvalidEscape other)
    else read_double_quoted (content ++ [ch]) chars

/-- The loop of `read_word`; every round takes at least one character. -/
def word_rounds : Nat → Text → Bool → List Char → Except LexError (Text × List Char)
  | 0, word, _, chars => .ok (word, chars)
  | _ + 1, word, _, [] => .ok (word, [])
  | rounds + 1, word, started, ch :: chars =>
    if is_whitespace ch then .ok (word, ch :: chars)
    else if ch ∈ REJECTED_UNQUOTED_METACHARACTERS ∧
      started then .error (.UnsupportedMetacharacter ch)
    else if ch = '\'' then do
      let (content, chars) ← read_single_quoted [] chars
      word_rounds rounds (word ++ content) true chars
    else if ch = '"' then do
      let (content, chars) ← read_double_quoted [] chars
      word_rounds rounds (word ++ content) true chars
    else word_rounds rounds (word ++ [ch]) true chars

def read_word (chars : List Char) : Except LexError (Text × List Char) :=
  word_rounds chars.length [] false chars

/-- The loop of `tokenize`; every round takes at least one character. -/
def token_rounds : Nat → List Token → List Char → Except LexError (List Token)
  | 0, tokens, _ => .ok tokens
  | _ + 1, tokens, [] => .ok tokens
  | rounds + 1, tokens, ch :: chars =>
    if is_whitespace ch then token_rounds rounds tokens chars
    else if ch ∈ REJECTED_UNQUOTED_METACHARACTERS then .error (.UnsupportedMetacharacter ch)
    else do
      let (word, rest) ← read_word (ch :: chars)
      token_rounds rounds (tokens ++ [classify word]) rest

def tokenize (line : Text) : Except LexError (List Token) :=
  if MAX_LINE_LEN < utf8_len line then .error (.TooLong MAX_LINE_LEN (utf8_len line))
  else if NUL ∈ line then .error .NulByte
  else if ['$', '('] <:+: line then .error (.UnsupportedMetacharacter '$')
  else token_rounds line.length [] line

end fslite.lexer
