import Fslite.Command.Local
import Fslite.Command.Address

namespace fslite

def U_FFFD : Char := '\uFFFD'

/-- The bytes that may follow the first one of a character of three bytes. -/
def second_of_three (first : Nat) (next : Nat) : Bool :=
  if first = 0xE0 then 0xA0 ≤ next ∧ next ≤ 0xBF
  else if first = 0xED then 0x80 ≤ next ∧ next ≤ 0x9F
  else 0x80 ≤ next ∧ next ≤ 0xBF

/-- The bytes that may follow the first one of a character of four bytes. -/
def second_of_four (first : Nat) (next : Nat) : Bool :=
  if first = 0xF0 then 0x90 ≤ next ∧ next ≤ 0xBF
  else if first = 0xF4 then 0x80 ≤ next ∧ next ≤ 0x8F
  else 0x80 ≤ next ∧ next ≤ 0xBF

def continues (next : Nat) : Bool := 0x80 ≤ next ∧ next ≤ 0xBF

/-- The character that bytes begin with, and how many bytes after the first belong to it.
Where they begin with none, the longest beginning of one is replaced. -/
def first_char (first : Nat) (rest : List Nat) : Char × Nat :=
  if first < 0x80 then (Char.ofNat first, 0)
  else if 0xC2 ≤ first ∧ first ≤ 0xDF then
    match rest with
    | b :: _ => if continues b then (Char.ofNat ((first - 0xC0) * 0x40 + (b - 0x80)),
      1) else (U_FFFD, 0)
    | [] => (U_FFFD, 0)
  else if 0xE0 ≤ first ∧ first ≤ 0xEF then
    match rest with
    | b :: c :: _ =>
      if ¬ second_of_three first b then (U_FFFD, 0)
      else if continues c then (Char.ofNat ((first - 0xE0) * 0x1000 + (b - 0x80) * 0x40 +
        (c - 0x80)), 2)
      else (U_FFFD, 1)
    | [b] => if second_of_three first b then (U_FFFD, 1) else (U_FFFD, 0)
    | [] => (U_FFFD, 0)
  else if 0xF0 ≤ first ∧ first ≤ 0xF4 then
    match rest with
    | b :: c :: d :: _ =>
      if ¬ second_of_four first b then (U_FFFD, 0)
      else if ¬ continues c then (U_FFFD, 1)
      else if continues d then
        (Char.ofNat ((first - 0xF0) * 0x40000 + (b - 0x80) * 0x1000 + (c - 0x80) * 0x40 +
          (d - 0x80)), 3)
      else (U_FFFD, 2)
    | [b, c] => if ¬ second_of_four first b then (U_FFFD, 0) else if continues c then (U_FFFD,
      2) else (U_FFFD, 1)
    | [b] => if second_of_four first b then (U_FFFD, 1) else (U_FFFD, 0)
    | [] => (U_FFFD, 0)
  else (U_FFFD, 0)

/-- The text of bytes, with a replacement for what is not UTF-8. -/
def from_utf8_lossy : Bytes → Text
  | [] => []
  | first :: rest =>
    let (c, more) := first_char first.toNat (rest.map UInt8.toNat)
    c :: from_utf8_lossy (rest.drop more)
termination_by bytes => bytes.length
decreasing_by
  simp only [List.length_drop, List.length_cons]
  omega

/-- Unicode's control characters. -/
def is_control (c : Char) : Bool := c.toNat ≤ 0x1F ∨ (0x7F ≤ c.toNat ∧ c.toNat ≤ 0x9F)

namespace render

def is_bidi_override (c : Char) : Bool :=
  (0x202A ≤ c.toNat ∧ c.toNat ≤ 0x202E) ∨ (0x2066 ≤ c.toNat ∧ c.toNat ≤ 0x2069) ∨ c.toNat = 0x200E ∨
    c.toNat = 0x200F ∨
    c.toNat = 0x061C

def is_unicode_linebreak (c : Char) : Bool := c.toNat = 0x2028 ∨ c.toNat = 0x2029

def sanitize_for_terminal (raw : Text) : Text :=
  raw.filter (fun c => c = '\n' ∨ c = '\t' ∨ is_unicode_linebreak c ∨
    (¬ is_control c ∧ ¬ is_bidi_override c))

def sanitize_name (raw : Text) : Text :=
  raw.filter (fun c => ¬ is_control c ∧ ¬ is_bidi_override c ∧ ¬ is_unicode_linebreak c)

/-- How a character of a preview is shown. -/
def escape_preview (c : Char) : Text :=
  if c = '\n' then "\\n".toList
  else if c = '\t' then "\\t".toList
  else if c.toNat = 0x2028 then "\\u\x7b2028\x7d".toList
  else if c.toNat = 0x2029 then "\\u\x7b2029\x7d".toList
  else [c]

def sanitize_preview (raw : Text) : Text := (sanitize_for_terminal raw).flatMap escape_preview

/-- The `Debug` form of a kind in lower case. -/
def kind_text : NodeKind → Text
  | .Directory => "directory".toList
  | .File => "file".toList
  | .Symlink => "symlink".toList

def change_kind_text : ChangeKind → Text
  | .Created => "Created".toList
  | .Modified => "Modified".toList
  | .Copied => "Copied".toList
  | .Moved => "Moved".toList
  | .Removed => "Removed".toList
  | .Trashed => "Trashed".toList
  | .Restored => "Restored".toList
  | .Purged => "Purged".toList
  | .AttributeSet => "AttributeSet".toList
  | .AttributeRemoved => "AttributeRemoved".toList

def render_node_line (node : Node) : Text :=
  (kind_text node.kind).rightpad 10 ' ' ++ ' ' ::
    ((decimal node.logical_size).leftpad 10 ' ' ++ ' ' :: sanitize_name node.name)

/-- The line of an entry of a tree. -/
def tree_line (entry : directory.TreeEntry) : Text :=
  (List.replicate entry.depth "  ".toList).flatten ++ sanitize_name entry.path.as_str

/-- The line of a trash record. -/
def trash_line (entry : TrashEntry) : Text :=
  uuid_text entry.id ++ ' ' :: sanitize_name entry.original_path.as_str

/-- The line of a match. -/
def match_line (found : SearchMatch) : Text :=
  sanitize_name found.path.as_str ++ ": ".toList ++ sanitize_preview (from_utf8_lossy found.preview)

def change_line (change : Change) : Text :=
  decimal change.sequence ++ ' ' :: change_kind_text change.kind

def join_lines (lines : List Text) : Text := ['\n'].intercalate lines

def render_human : CommandOutput → Text
  | .Usage usage =>
    "active: ".toList ++ decimal usage.active_logical_bytes ++ " bytes / ".toList ++
      decimal usage.active_nodes ++
      " nodes\ntrashed: ".toList ++ decimal usage.trashed_logical_bytes ++ " bytes / ".toList ++
        decimal usage.trashed_nodes ++
      " nodes\nquota: ".toList ++ decimal usage.max_logical_bytes ++ " bytes / ".toList ++
        decimal usage.max_nodes ++
      " nodes".toList
  | .Node node => render_node_line node
  | .Exists found => if found then "true".toList else "false".toList
  | .Nodes page => join_lines (page.items.map render_node_line)
  | .Tree page => join_lines (page.items.map tree_line)
  | .Content _ _ _ bytes => from_utf8_lossy bytes
  | .Unit => "ok".toList
  | .LinkTarget target => sanitize_name target.as_str
  | .Trash entry => uuid_text entry.id ++ " (was ".toList ++
    sanitize_name entry.original_path.as_str ++ ")".toList
  | .TrashList page => join_lines (page.items.map trash_line)
  | .SearchMatches page => join_lines (page.items.map match_line)
  | .Changes page => join_lines (page.items.map change_line)
  | .Batch results => decimal results.length ++ " operations completed".toList

/-- The control characters, the characters that direct the order of a text on the screen and the
separators of lines and paragraphs. -/
def Forging (c : Char) : Prop :=
  c.toNat < 0x20 ∨ (0x7F ≤ c.toNat ∧ c.toNat < 0xA0) ∨
    c.toNat ∈ [0x061C, 0x200E, 0x200F, 0x202A, 0x202B, 0x202C, 0x202D, 0x202E, 0x2066, 0x2067,
      0x2068, 0x2069] ∨
    c.toNat ∈ [0x2028, 0x2029]

theorem forging_iff {c : Char} :
    Forging c ↔ is_control c ∨ is_bidi_override c ∨ is_unicode_linebreak c := by
  simp only [Forging, is_control, is_bidi_override, is_unicode_linebreak, List.mem_cons,
    List.not_mem_nil, or_false,
    decide_eq_true_eq]
  omega

theorem forging_newline : Forging '\n' := .inl (by decide)

/-- A text that shows nothing but what it says. -/
def Plain (text : Text) : Prop := ∀ c ∈ text, ¬ Forging c

@[simp] theorem plain_nil : Plain [] := by
  intro c hc
  cases hc

@[simp] theorem plain_append {a b : Text} : Plain (a ++ b) ↔ Plain a ∧ Plain b := by
  simp only [Plain, List.mem_append, or_imp, forall_and]

@[simp] theorem plain_cons {c : Char} {text : Text} :
    Plain (c :: text) ↔ ¬ Forging c ∧ Plain text := by
  simp only [Plain, List.mem_cons, forall_eq_or_imp]

theorem plain_replicate {part : Text} (n : Nat) (h : Plain part) :
    Plain (List.replicate n part).flatten := by
  intro c hc
  obtain ⟨piece, hpiece, hc⟩ := List.mem_flatten.mp hc
  rw [List.eq_of_mem_replicate hpiece] at hc
  exact h c hc

theorem not_forging_ascii {c : Char} (low : 0x20 ≤ c.toNat) (high : c.toNat < 0x7F) :
    ¬ Forging c := by
  simp only [Forging, List.mem_cons, List.not_mem_nil, or_false]
  omega

theorem plain_ascii {text : Text}
    (h : text.all (fun c => decide (0x20 ≤ c.toNat ∧ c.toNat < 0x7F)) = true) : Plain text := by
  intro c hc
  have hbounds := of_decide_eq_true (List.all_eq_true.mp h c hc)
  exact not_forging_ascii hbounds.1 hbounds.2

theorem not_forging_alnum {c : Char} (h : c.isAlphanum = true) : ¬ Forging c := by
  rw [Url.alphanum_iff] at h
  have hval : c.toNat = c.val.toNat := rfl
  exact not_forging_ascii (by omega) (by omega)

theorem plain_sanitize_name (raw : Text) : Plain (sanitize_name raw) := by
  intro c hc
  have hkept := (List.mem_filter.mp hc).2
  rw [forging_iff]
  simpa [and_assoc] using hkept

/-- What is left of a break is the text that names it. -/
theorem plain_escape_preview {c : Char}
    (h : c = '\n' ∨ c = '\t' ∨ is_unicode_linebreak c ∨ ¬ Forging c) :
    Plain (escape_preview c) := by
  rw [escape_preview]
  split
  · exact plain_ascii rfl
  split
  · exact plain_ascii rfl
  split
  · exact plain_ascii rfl
  split
  · exact plain_ascii rfl
  case isFalse hnewline htab hline hparagraph =>
    have hforging : ¬ Forging c := by
      simp only [is_unicode_linebreak, decide_eq_true_eq] at h
      tauto
    simpa using hforging

theorem plain_sanitize_preview (raw : Text) : Plain (sanitize_preview raw) := by
  intro c hc
  obtain ⟨d, hd, hc⟩ := List.mem_flatMap.mp hc
  have hkept := (List.mem_filter.mp hd).2
  refine plain_escape_preview ?_ c hc
  rw [forging_iff]
  simp only [decide_eq_true_eq, not_or] at hkept ⊢
  tauto

theorem plain_decimal (n : Nat) : Plain (decimal n) := by
  intro c hc
  apply not_forging_alnum
  rw [Char.isAlphanum, isDigit_decimal c hc, Bool.or_true]

theorem plain_uuid_text (id : Uuid) : Plain (uuid_text id) := by
  intro c hc
  rcases uuid_text_chars hc with halnum | rfl
  · exact not_forging_alnum halnum
  · exact not_forging_ascii (by decide) (by decide)

theorem not_forging_space : ¬ Forging ' ' := not_forging_ascii (by decide) (by decide)

theorem plain_kind_text (kind : NodeKind) : Plain (kind_text kind) := by
  cases kind <;> exact plain_ascii rfl

theorem plain_spaces (n : Nat) : Plain (List.replicate n ' ') := by
  intro c hc
  rw [List.eq_of_mem_replicate hc]
  exact not_forging_space

theorem plain_render_node_line (node : Node) : Plain (render_node_line node) := by
  simp only [render_node_line, List.rightpad, List.leftpad, plain_append, plain_cons]
  exact ⟨⟨plain_kind_text _, plain_spaces _⟩, not_forging_space, ⟨plain_spaces _, plain_decimal _⟩,
    not_forging_space,
    plain_sanitize_name _⟩

theorem plain_tree_line (entry : directory.TreeEntry) : Plain (tree_line entry) :=
  plain_append.mpr ⟨plain_replicate _ (plain_ascii rfl), plain_sanitize_name _⟩

theorem plain_trash_line (entry : TrashEntry) : Plain (trash_line entry) :=
  plain_append.mpr ⟨plain_uuid_text _, plain_cons.mpr ⟨not_forging_space, plain_sanitize_name _⟩⟩

theorem plain_match_line (found : SearchMatch) : Plain (match_line found) :=
  plain_append.mpr ⟨plain_append.mpr ⟨plain_sanitize_name _, plain_ascii rfl⟩,
    plain_sanitize_preview _⟩

/-- The output has one line for each item of the page, which says something of that item alone. -/
def OneLineEach {A : Type} (output : Page A → CommandOutput) : Prop :=
  ∃ line : A → Text, (∀ item, Plain (line item)) ∧ ∀ page,
    render_human (output page) = ['\n'].intercalate (page.items.map line) ∧
    (page.items ≠ [] → (render_human (output page)).splitOn '\n' = page.items.map line)

theorem one_line_each {A : Type} {output : Page A → CommandOutput} {line : A → Text}
    (hline : ∀ item, Plain (line item))
    (hrender : ∀ page, render_human (output page) = join_lines (page.items.map line)) :
    OneLineEach output := by
  refine ⟨line, hline, fun page => ⟨hrender page, fun hitems => ?_⟩⟩
  rw [hrender page, join_lines]
  refine List.splitOn_intercalate '\n' (fun text htext hmem => ?_) (by simpa using hitems)
  obtain ⟨item, _, rfl⟩ := List.mem_map.mp htext
  exact hline item _ hmem forging_newline

/-- Names, paths and previews cannot add a line to a listing, nor a control sequence to one. -/
theorem rendered_one_line_each :
    OneLineEach .Nodes ∧ OneLineEach .Tree ∧ OneLineEach .TrashList ∧ OneLineEach .SearchMatches :=
  ⟨one_line_each plain_render_node_line (fun _ => rfl),
    one_line_each plain_tree_line (fun _ => rfl),
    one_line_each plain_trash_line (fun _ => rfl), one_line_each plain_match_line (fun _ => rfl)⟩

end render

end fslite
