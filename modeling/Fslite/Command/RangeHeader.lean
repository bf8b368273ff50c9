import Fslite.Command.Range

namespace fslite

open routes

/-- A number of at most 64 bits in decimal digits. -/
def Numeral (text : Text) (n : Nat) : Prop :=
  text ≠ [] ∧ text.all Char.isDigit = true ∧ Nat.ofDigitChars 10 text 0 = n ∧ n ≤ U64_MAX

/-- A number as the standard integer parser reads it, behind a plus sign or not. -/
def Figure (text : Text) (n : Nat) : Prop :=
  Numeral text n ∨ ∃ digits, text = '+' :: digits ∧ Numeral digits n

/-- What the header of a single range asks for. -/
inductive RangeSpec where
  | Closed (first last : Nat)
  | From (first : Nat)
  | Suffix (length : Nat)

/-- The byte at a position of a file of the given size is asked for. -/
def RangeSpec.Selects (size i : Nat) : RangeSpec → Prop
  | .Closed first last => i < size ∧ first ≤ i ∧ i ≤ last
  | .From first => i < size ∧ first ≤ i
  | .Suffix length => i < size ∧ size ≤ i + length

/-- The grammar of headers. -/
inductive Asks : Text → RangeSpec → Prop
  | closed {front back : Text} {first last : Nat} (hfirst : Numeral front first)
    (hlast : Numeral back last) (hle : first ≤ last) :
    Asks ("bytes=".toList ++ (front ++ '-' :: back)) (.Closed first last)
  | from_ {front : Text} {first : Nat} (hfirst : Numeral front first) :
    Asks ("bytes=".toList ++ (front ++ ['-'])) (.From first)
  | suffix {back : Text} {length : Nat} (hlength : Numeral back length) (hpositive : 0 < length) :
    Asks ("bytes=".toList ++ '-' :: back) (.Suffix length)

/-- A header with several ranges. -/
def CommaList (header : Text) : Prop := ∃ spec, header = "bytes=".toList ++ spec ∧ ',' ∈ spec

theorem Numeral.not_mem {text : Text} {n : Nat} (h : Numeral text n) {c : Char}
    (hc : c.isDigit = false) : c ∉ text := by
  intro hmem
  have hdigit := List.all_eq_true.mp h.2.1 c hmem
  rw [hc] at hdigit
  cases hdigit

theorem Figure.not_mem {text : Text} {n : Nat} (h : Figure text n) {c : Char}
    (hc : c.isDigit = false) (hplus : c ≠ '+') : c ∉ text := by
  obtain h | ⟨digits, rfl, h⟩ := h
  · exact h.not_mem hc
  · exact List.not_mem_cons_of_ne_of_not_mem hplus (h.not_mem hc)

theorem Figure.ne_nil {text : Text} {n : Nat} (h : Figure text n) : text ≠ [] := by
  obtain h | ⟨digits, rfl, h⟩ := h
  · exact h.1
  · exact List.cons_ne_nil _ _

/-- The reader's tests of the digits are those of a numeral. -/
theorem parse_digits_iff {digits : Text} {n : Nat} :
    (if digits ≠ [] ∧ digits.all Char.isDigit = true ∧ Nat.ofDigitChars 10 digits 0 ≤ U64_MAX then
      some (Nat.ofDigitChars 10 digits 0) else none) = some n ↔ Numeral digits n := by
  unfold Numeral
  split
  · rename_i hgood
    rw [Option.some.injEq]
    exact ⟨fun h => ⟨hgood.1, hgood.2.1, h, h ▸ hgood.2.2⟩, fun h => h.2.2.1⟩
  · rename_i hbad
    exact iff_of_false (fun h => by cases h) (fun h => hbad ⟨h.1, h.2.1, h.2.2.1 ▸ h.2.2.2⟩)

/-- The code reads the numbers of the grammar, and those that have a sign. -/
theorem parse_uint_iff {text : Text} {n : Nat} :
    parse_uint U64_MAX text = some n ↔ Figure text n := by
  unfold parse_uint
  by_cases hplus : text.head? = some '+'
  · obtain ⟨digits, rfl⟩ : ∃ digits, text = '+' :: digits := by
      cases text with
      | nil => cases hplus
      | cons c digits => exact ⟨digits, by rw [Option.some.inj hplus]⟩
    have hfigure : Figure ('+' :: digits) n ↔ Numeral digits n := by
      refine ⟨fun h => ?_, fun h => .inr ⟨digits, rfl, h⟩⟩
      obtain h | ⟨digits', heq, h⟩ := h
      · exact absurd List.mem_cons_self (h.not_mem (c := '+') (by decide))
      · rwa [List.cons.inj heq |>.2]
    simp only [hplus, if_true, List.tail_cons, hfigure]
    exact parse_digits_iff
  · have hfigure : Figure text n ↔ Numeral text n := by
      refine ⟨fun h => ?_, Or.inl⟩
      obtain h | ⟨digits, rfl, h⟩ := h
      · exact h
      · exact absurd rfl hplus
    simp only [hplus, if_false, hfigure]
    exact parse_digits_iff

theorem strip_prefix_eq_some {front text rest : Text} :
    strip_prefix front text = some rest ↔ text = front ++ rest := by
  constructor
  · intro h
    unfold strip_prefix at h
    split at h
    · rename_i hprefix
      obtain ⟨back, rfl⟩ := List.isPrefixOf_iff_prefix.mp hprefix
      rw [List.drop_left] at h
      rw [Option.some.inj h]
    · cases h
  · rintro rfl
    exact strip_prefix_append front rest

theorem split_once_eq_none {sep : Char} {text : Text} :
    split_once sep text = none ↔ sep ∉ text := by
  unfold split_once
  split
  · rename_i hmem
    exact iff_of_false (fun h => by cases h) (not_not.mpr hmem)
  · rename_i hmem
    exact iff_of_true rfl hmem

/-- What the code makes of a header with a hyphen and no comma. -/
theorem resolve_range_hyphen {front back : Text} (hhyphen : '-' ∉ front)
    (hcomma : ',' ∉ front ++ '-' :: back) (size : Nat) :
    resolve_range ("bytes=".toList ++ (front ++ '-' :: back)) size =
      if front = [] then
        match parse_uint U64_MAX back with
        | none => .error .Malformed
        | some suffix_len => if suffix_len = 0 then .error .Malformed else .ok
          ⟨size - suffix_len, size⟩
      else
        match parse_uint U64_MAX front with
        | none => .error .Malformed
        | some start =>
          if size ≤ start then .error .Unsatisfiable
          else if back = [] then .ok ⟨start, size⟩
          else
            match parse_uint U64_MAX back with
            | none => .error .Malformed
            | some inclusive_end =>
              if inclusive_end < start then .error .Malformed
              else .ok ⟨start, min (saturating_add inclusive_end 1) size⟩ := by
  generalize hresult : resolve_range ("bytes=".toList ++ (front ++ '-' :: back)) size = result
  unfold resolve_range at hresult
  rw [strip_prefix_append] at hresult
  simp only [hcomma, if_false, split_once_append hhyphen] at hresult
  exact hresult.symm

theorem resolve_range_comma {header : Text} (h : CommaList header) (size : Nat) :
    resolve_range header size = .error .MultiRangeUnsupported := by
  obtain ⟨spec, rfl, hcomma⟩ := h
  unfold resolve_range
  rw [strip_prefix_append]
  simp only [hcomma, if_true]

/-- A header is a list, or it has a hyphen and no comma, or it is malformed for every size. -/
theorem header_cases (header : Text) : CommaList header ∨
    (∃ front back, header = "bytes=".toList ++ (front ++ '-' :: back) ∧ '-' ∉ front ∧
    ',' ∉ front ++ '-' :: back) ∨
    (¬ CommaList header ∧ (∀ size, resolve_range header size = .error .Malformed) ∧
      ∀ front back, header ≠ "bytes=".toList ++ (front ++ '-' :: back)) := by
  by_cases hbytes : ∃ spec, header = "bytes=".toList ++ spec
  · obtain ⟨spec, rfl⟩ := hbytes
    by_cases hcomma : ',' ∈ spec
    · exact .inl ⟨spec, rfl, hcomma⟩
    · by_cases hhyphen : '-' ∈ spec
      · obtain ⟨front, back, rfl, hfront⟩ := List.eq_append_cons_of_mem hhyphen
        exact .inr (.inl ⟨front, back, rfl, hfront, hcomma⟩)
      · refine .inr (.inr ⟨?_, fun size => ?_, fun front back heq => ?_⟩)
        · rintro ⟨spec', heq, hcomma'⟩
          exact hcomma (List.append_cancel_left heq ▸ hcomma')
        · unfold resolve_range
          rw [strip_prefix_append]
          simp only [hcomma, if_false, split_once_eq_none.mpr hhyphen]
        · exact hhyphen (List.append_cancel_left heq ▸ List.mem_append_right _ List.mem_cons_self)
  · have hnone : strip_prefix "bytes=".toList header = none :=
      Option.eq_none_iff_forall_ne_some.mpr
        (fun spec hspec => hbytes ⟨spec, strip_prefix_eq_some.mp hspec⟩)
    refine .inr (.inr ⟨fun ⟨spec, heq, _⟩ => hbytes ⟨spec, heq⟩, fun size => ?_,
      fun front back heq => hbytes ⟨_, heq⟩⟩)
    unfold resolve_range
    rw [hnone]

/-- The parts of a header that the code finds no fault in. -/
def Parts (size : Nat) (front back : Text) : Prop :=
  front = [] ∧ (∃ n, Figure back n ∧ 0 < n) ∨
    ∃ first, Figure front first ∧
      (size ≤ first ∨ back = [] ∨ ∃ last, Figure back last ∧ first ≤ last)

/-- A header of which the code makes a range, or which it takes for one that selects nothing. -/
def Accepted (header : Text) (size : Nat) : Prop :=
  (∃ range, resolve_range header size = .ok range) ∨
    resolve_range header size = .error .Unsatisfiable

theorem accepted_hyphen_iff {front back : Text} (hhyphen : '-' ∉ front)
    (hcomma : ',' ∉ front ++ '-' :: back) (size : Nat) :
    Accepted ("bytes=".toList ++ (front ++ '-' :: back)) size ↔ Parts size front back := by
  have hzero : ∀ n, ¬ Figure [] n := fun n h => h.ne_nil rfl
  unfold Accepted Parts
  simp only [resolve_range_hyphen hhyphen hcomma, ← parse_uint_iff]
  by_cases hfront : front = []
  · subst hfront
    simp only [parse_uint_iff.not.mpr (hzero _), if_true]
    cases parse_uint U64_MAX back with
    | none => simp
    | some n => by_cases hn : n = 0 <;> simp [hn, Nat.pos_iff_ne_zero]
  · simp only [hfront, if_false, false_and, false_or]
    cases parse_uint U64_MAX front with
    | none => simp
    | some first =>
      by_cases hsize : size ≤ first
      · simp [hsize]
      · by_cases hback : back = []
        · simp [hsize, hback]
        · simp only [hsize, if_false, hback, Option.some.injEq, exists_eq_left', false_or]
          cases parse_uint U64_MAX back with
          | none => simp
          | some last =>
            by_cases hlast : last < first
            · simp [hlast]
            · simp [hlast, Nat.not_lt.mp hlast]

/-- Whether a header has parts that the code finds no fault in. -/
theorem accepted_iff {header : Text} {size : Nat} : Accepted header size ↔
    ∃ front back, header = "bytes=".toList ++ (front ++ '-' :: back) ∧ ',' ∉ back ∧
    Parts size front back := by
  have hclean : ∀ front back, Parts size front back → '-' ∉ front ∧ ',' ∉ front := by
    rintro front back (⟨rfl, _⟩ | ⟨first, hfirst, _⟩)
    · exact ⟨List.not_mem_nil, List.not_mem_nil⟩
    · exact ⟨hfirst.not_mem (by decide) (by decide), hfirst.not_mem (by decide) (by decide)⟩
  constructor
  · intro haccepted
    obtain hlist | ⟨front, back, rfl, hhyphen, hcomma⟩ | ⟨_, hmalformed, _⟩ := header_cases header
    · rw [Accepted, resolve_range_comma hlist] at haccepted
      exact absurd haccepted (by simp)
    · refine ⟨front, back, rfl, fun hmem => hcomma
        (List.mem_append_right _ (List.mem_cons_of_mem _ hmem)), ?_⟩
      exact (accepted_hyphen_iff hhyphen hcomma size).mp haccepted
    · rw [Accepted, hmalformed] at haccepted
      exact absurd haccepted (by simp)
  · rintro ⟨front, back, rfl, hback, hparts⟩
    obtain ⟨hhyphen, hfront⟩ := hclean front back hparts
    refine (accepted_hyphen_iff hhyphen (fun hmem => ?_) size).mpr hparts
    obtain hmem | hmem := List.mem_append.mp hmem
    · exact hfront hmem
    · exact hback ((List.mem_cons.mp hmem).resolve_left (by decide))

/-- A header outside the grammar that the code accepts all the same: a sign stands
before one of its numbers, or what is behind the hyphen is not looked at since its first
number is not below the size of the file. -/
def Slips (header : Text) (size : Nat) : Prop :=
  (¬ ∃ spec, Asks header spec) ∧
    ∃ front back, header = "bytes=".toList ++ (front ++ '-' :: back) ∧ ',' ∉ back ∧
      Parts size front back

theorem slips_iff {header : Text} {size : Nat} :
    Slips header size ↔ (¬ ∃ spec, Asks header spec) ∧ Accepted header size := by
  rw [accepted_iff]
  rfl

theorem Asks.accepted {header : Text} {spec : RangeSpec} (h : Asks header spec) (size : Nat) :
    Accepted header size := by
  rw [accepted_iff]
  cases h with
  | closed hfirst hlast hle =>
    exact ⟨_, _, rfl, hlast.not_mem (by decide), .inr
      ⟨_, .inl hfirst, .inr (.inr ⟨_, .inl hlast, hle⟩)⟩⟩
  | from_ hfirst => exact ⟨_, [], rfl, List.not_mem_nil, .inr ⟨_, .inl hfirst, .inr (.inl rfl)⟩⟩
  | suffix hlength hpositive =>
    exact ⟨[], _, rfl, hlength.not_mem (by decide), .inl ⟨rfl, _, .inl hlength, hpositive⟩⟩

/-- The parts of a header of the grammar. -/
theorem Asks.parts (front back : Text) {spec : RangeSpec} (hhyphen : '-' ∉ front)
    (h : Asks ("bytes=".toList ++ (front ++ '-' :: back)) spec) :
    front = [] ∧ (∃ n, Numeral back n ∧ 0 < n) ∨
      ∃ first, Numeral front first ∧ (back = [] ∨ ∃ last, Numeral back last ∧ first ≤ last) := by
  have hsplit : ∀ front' back', '-' ∉ front' → front ++ '-' :: back = front' ++ '-' :: back' →
      front = front' ∧ back = back' := by
    intro front' back' hhyphen' heq
    have hsame := (split_once_append hhyphen back).symm.trans
      (heq ▸ split_once_append hhyphen' back')
    exact Prod.mk.inj (Option.some.inj hsame)
  generalize hheader : "bytes=".toList ++ (front ++ '-' :: back) = header at h
  cases h with
  | closed hfirst hlast hle =>
    obtain ⟨rfl, rfl⟩ := hsplit _ _ (hfirst.not_mem (by decide)) (List.append_cancel_left hheader)
    exact .inr ⟨_, hfirst, .inr ⟨_, hlast, hle⟩⟩
  | from_ hfirst =>
    obtain ⟨rfl, rfl⟩ := hsplit _ _ (hfirst.not_mem (by decide)) (List.append_cancel_left hheader)
    exact .inr ⟨_, hfirst, .inl rfl⟩
  | suffix hlength hpositive =>
    obtain ⟨rfl, rfl⟩ := hsplit [] _ List.not_mem_nil (List.append_cancel_left hheader)
    exact .inl ⟨rfl, _, hlength, hpositive⟩

/-- Headers are accepted by their grammar: a list is told from the rest, and of the
others those are malformed that are not of the grammar. -/
structure AcceptedByGrammar (header : Text) (size : Nat) : Prop where
  list : CommaList header → resolve_range header size = .error .MultiRangeUnsupported
  single : ¬ CommaList header →
    (resolve_range header size = .error .Malformed ↔ ¬ ∃ spec, Asks header spec)

theorem malformed_iff {header : Text} (hlist : ¬ CommaList header) (size : Nat) :
    resolve_range header size = .error .Malformed ↔ ¬ Accepted header size := by
  obtain hlist' | ⟨front, back, rfl, hhyphen, hcomma⟩ | ⟨_, hmalformed, _⟩ := header_cases header
  · exact absurd hlist' hlist
  · have hmulti : resolve_range ("bytes=".toList ++ (front ++ '-' :: back)) size ≠ .error .MultiRangeUnsupported := by
      rw [resolve_range_hyphen hhyphen hcomma]
      split
      · split
        · simp
        · split <;> simp
      · split
        · simp
        · split
          · simp
          · split
            · simp
            · split
              · simp
              · split <;> simp
    unfold Accepted
    cases hresult : resolve_range ("bytes=".toList ++ (front ++ '-' :: back)) size with
    | ok range => simp
    | error err =>
      cases err with
      | Malformed => simp
      | MultiRangeUnsupported => exact absurd hresult hmulti
      | Unsatisfiable => simp
  · unfold Accepted
    simp [hmalformed]

/-- Headers are accepted by their grammar, but for those that slip through. -/
theorem accepted_by_grammar_iff (header : Text) (size : Nat) :
    AcceptedByGrammar header size ↔ ¬ Slips header size := by
  rw [slips_iff, not_and']
  constructor
  · rintro ⟨hmulti, hsingle⟩ haccepted hgrammar
    by_cases hlist : CommaList header
    · rw [Accepted, hmulti hlist] at haccepted
      exact absurd haccepted (by simp)
    · exact (malformed_iff hlist size).mp ((hsingle hlist).mpr hgrammar) haccepted
  · intro hgrammar
    refine ⟨fun hlist => resolve_range_comma hlist size, fun hlist => ?_⟩
    rw [malformed_iff hlist]
    exact not_congr ⟨fun haccepted => not_not.mp (hgrammar haccepted), fun ⟨spec, hspec⟩ =>
      hspec.accepted size⟩

/-- Of a file of 5 bytes, `bytes=5-1` is taken for a range behind its end. -/
theorem reversed_range_slips : resolve_range "bytes=5-1".toList 5 = .error .Unsatisfiable ∧
    ¬ AcceptedByGrammar "bytes=5-1".toList 5 := by
  have hresolve : resolve_range "bytes=5-1".toList 5 = .error .Unsatisfiable := by decide
  have hlist : ¬ CommaList "bytes=5-1".toList := by
    intro hlist
    rw [resolve_range_comma hlist] at hresolve
    cases hresolve
  refine ⟨hresolve, fun h => ?_⟩
  have hgrammar := (h.single hlist).not.mp (by rw [hresolve]; simp)
  obtain ⟨spec, hspec⟩ := not_not.mp hgrammar
  obtain ⟨hfront, _⟩ | ⟨first, hfirst, hback | ⟨last, hlast, hle⟩⟩ :=
    Asks.parts ['5'] ['1'] (by decide) hspec
  · cases hfront
  · cases hback
  · rw [← hfirst.2.2.1, ← hlast.2.2.1] at hle
    exact absurd hle (by decide)

/-- What the code makes of a header of the grammar. -/
theorem Asks.resolve {header : Text} {spec : RangeSpec} (h : Asks header spec) {size : Nat}
    (hsize : size ≤ U64_MAX) :
    resolve_range header size =
      match spec with
      | .Closed first last => if size ≤ first then .error .Unsatisfiable else .ok
        ⟨first, min (last + 1) size⟩
      | .From first => if size ≤ first then .error .Unsatisfiable else .ok ⟨first, size⟩
      | .Suffix length => .ok ⟨size - length, size⟩ := by
  cases h with
  | @closed front back first last hfirst hlast hle =>
    have hcomma : ',' ∉ front ++ '-' :: back := by
      intro hmem
      obtain hmem | hmem := List.mem_append.mp hmem
      · exact hfirst.not_mem (by decide) hmem
      · exact hlast.not_mem (by decide) ((List.mem_cons.mp hmem).resolve_left (by decide))
    have hend : min (saturating_add last 1) size = min (last + 1) size := by
      unfold saturating_add
      generalize U64_MAX = limit at hsize
      omega
    rw [resolve_range_hyphen (hfirst.not_mem (by decide)) hcomma]
    simp only [hfirst.1, if_false, parse_uint_iff.mpr (Or.inl hfirst), hlast.1,
      parse_uint_iff.mpr (Or.inl hlast), Nat.not_lt.mpr hle, hend]
  | @from_ front first hfirst =>
    have hcomma : ',' ∉ front ++ ['-'] := by
      intro hmem
      obtain hmem | hmem := List.mem_append.mp hmem
      · exact hfirst.not_mem (by decide) hmem
      · exact absurd (List.mem_singleton.mp hmem) (by decide)
    rw [resolve_range_hyphen (hfirst.not_mem (by decide)) hcomma]
    simp only [hfirst.1, if_false, parse_uint_iff.mpr (Or.inl hfirst), if_true]
  | @suffix back length hlength hpositive =>
    have hcomma : ',' ∉ [] ++ '-' :: back := by
      intro hmem
      exact hlength.not_mem (by decide) ((List.mem_cons.mp hmem).resolve_left (by decide))
    have hresolve := resolve_range_hyphen List.not_mem_nil hcomma size
    rw [List.nil_append] at hresolve
    rw [hresolve]
    simp only [if_true, parse_uint_iff.mpr (Or.inl hlength), Nat.ne_of_gt hpositive, if_false]

/-- A range inside a file is the one that a header asks for. -/
structure AskedFor (header : Text) (size : Nat) (range : ByteRange) : Prop where
  proper : range.start < range.end_
  inside : range.end_ ≤ size
  selected : ∃ spec, Asks header spec ∧ ∀ i, range.start ≤ i ∧ i < range.end_ ↔ spec.Selects size i

/-- The content route answers a ranged read of any file of the given size with the range,
says so and sends the bytes of the range. -/
def Described (header : Text) (size : Nat) (range : ByteRange) : Prop :=
  ∀ (rt : Runtime) (ctx : RequestContext) (w : World) (path : VirtualPath) (bytes : Bytes)
    (raw : RawNode),
    w.db.Stores ctx.workspace_id path bytes raw → 0 < raw.revision →
      ctx.has_capability .Read = true → bytes.length = size →
      ∃ (response : http.Response) (chunks : List Bytes),
        (routes.read ctx path (some header)).run.run (DbCall.exec rt) w = (.ok response, w) ∧
        response.content_range = some (content_range range size) ∧
          response.payload = .stream (chunks.map .ok) ∧
        chunks.flatten = (bytes.take range.end_).drop range.start ∧
          chunks.flatten.length = range.end_ - range.start

/-- Ranges are resolved to the right bytes. -/
structure SelectsRight (header : Text) (size : Nat) : Prop where
  resolved : ∀ range, resolve_range header size = .ok range → AskedFor header size range
  unsatisfiable : resolve_range header size = .error .Unsatisfiable ↔ ∃ spec, Asks header spec ∧
    ∀ i, ¬ spec.Selects size i
  described : ∀ range, resolve_range header size = .ok range → Described header size range
  read_back : ∀ range, resolve_range header size = .ok range →
    RemoteExecutor.parse_content_range_bounds (content_range range size) =
      some (range.start, range.end_)

theorem described {header : Text} {size : Nat} {range : ByteRange}
    (hresolve : resolve_range header size = .ok range) (hproper : range.start < range.end_)
    (hinside : range.end_ ≤ size) : Described header size range := by
  intro rt ctx w path bytes raw hstores hrevision hread hlength
  obtain ⟨g, hg, _⟩ := hstores.laid
  obtain ⟨node, hnode, hsize, _⟩ :=
    @Db.FileAt.stat rt ctx w path raw g ⟨hstores.found, hstores.kind, hg, hrevision⟩ hread
  have hopens := @Db.Stores.opens rt ctx w path bytes raw hstores hrevision hread
    ⟨some range, true⟩ range rfl
  rw [if_neg (by omega)] at hopens
  obtain ⟨file, chunks, hopen, hstream, hlogical, _, hpart, hbytes⟩ := hopens
  have hrange : file.range = range := by
    rw [hpart, hlength, Nat.min_eq_left hinside]
  refine ⟨{
    status := http.PARTIAL_CONTENT
    content_range := some (content_range range size)
    payload := .stream (chunks.map .ok) }, chunks, ?_, rfl, rfl, hbytes, ?_⟩
  · unfold routes.read
    simp only []
    rw [Failing.run_bind_ok (Api.run_fs_ok hnode), hsize, ← hstores.length, hlength]
    simp only [hresolve]
    unfold read_range
    rw [Failing.run_bind_ok (Api.run_fs_ok hopen), Failing.run_bind_ok Failing.run_lift, hstream,
      hlogical, hrange, hlength]
    rfl
  · rw [hbytes, List.length_drop, List.length_take]
    omega

/-- A header of the grammar selects nothing, and the code says so, or it gets the range
that it selects. -/
theorem Asks.outcome {header : Text} {spec : RangeSpec} (h : Asks header spec) {size : Nat}
    (hsize : size ≤ U64_MAX) (hsome : ¬ (size = 0 ∧ ∃ length, Asks header (.Suffix length))) :
    resolve_range header size = .error .Unsatisfiable ∧ (∀ i, ¬ spec.Selects size i) ∨
      ∃ range, resolve_range header size = .ok range ∧ range.start < range.end_ ∧
      range.end_ ≤ size ∧
        ∀ i, range.start ≤ i ∧ i < range.end_ ↔ spec.Selects size i := by
  have hresolve := h.resolve hsize
  cases spec with
  | Closed first last =>
    have hle : first ≤ last := by
      cases h with
      | closed _ _ hle => exact hle
    by_cases hbeyond : size ≤ first
    · refine .inl ⟨by simpa only [hbeyond, if_true] using hresolve, fun i hi => ?_⟩
      simp only [RangeSpec.Selects] at hi
      omega
    · refine .inr ⟨_, by simpa only [hbeyond, if_false] using hresolve, ?_, Nat.min_le_right _ _, fun i => ?_⟩
      · simp only
        omega
      · simp only [RangeSpec.Selects]
        omega
  | From first =>
    by_cases hbeyond : size ≤ first
    · refine .inl ⟨by simpa only [hbeyond, if_true] using hresolve, fun i hi => ?_⟩
      simp only [RangeSpec.Selects] at hi
      omega
    · refine .inr ⟨_, by simpa only [hbeyond, if_false] using hresolve, Nat.not_le.mp hbeyond, le_refl _, fun i => ?_⟩
      simp only [RangeSpec.Selects]
      omega
  | Suffix length =>
    have hpositive : 0 < length := by
      cases h with
      | suffix _ hpositive => exact hpositive
    have hsize : size ≠ 0 := fun hzero => hsome ⟨hzero, length, h⟩
    refine .inr ⟨_, hresolve, ?_, le_refl _, fun i => ?_⟩
    · simp only
      omega
    · simp only [RangeSpec.Selects]
      omega

/-- Ranges are resolved to the right bytes, but for the headers that slip through, and
for the last bytes of an empty file. -/
theorem selects_right_iff (header : Text) {size : Nat} (hsize : size ≤ U64_MAX) :
    SelectsRight header size ↔ ¬ Slips header size ∧
    ¬ (size = 0 ∧ ∃ length, Asks header (.Suffix length)) := by
  constructor
  · intro h
    constructor
    · intro hslips
      obtain ⟨hgrammar, haccepted⟩ := slips_iff.mp hslips
      obtain ⟨range, hrange⟩ | hnone := haccepted
      · obtain ⟨spec, hspec, _⟩ := (h.resolved range hrange).selected
        exact hgrammar ⟨spec, hspec⟩
      · obtain ⟨spec, hspec, _⟩ := h.unsatisfiable.mp hnone
        exact hgrammar ⟨spec, hspec⟩
    · rintro ⟨rfl, length, hspec⟩
      exact absurd (h.resolved _ (hspec.resolve hsize)).proper (Nat.not_lt_zero _)
  · rintro ⟨hslips, hsome⟩
    have hgrammar : Accepted header size → ∃ spec, Asks header spec :=
      fun haccepted => not_not.mp (fun hnone => hslips (slips_iff.mpr ⟨hnone, haccepted⟩))
    have hok : ∀ range, resolve_range header size = .ok range → AskedFor header size range := by
      intro range hrange
      obtain ⟨spec, hspec⟩ := hgrammar (.inl ⟨range, hrange⟩)
      obtain ⟨hnone, _⟩ | ⟨range', hrange', hproper, hinside, hselects⟩ := hspec.outcome hsize hsome
      · rw [hnone] at hrange
        cases hrange
      · obtain rfl := Except.ok.inj (hrange'.symm.trans hrange)
        exact ⟨hproper, hinside, spec, hspec, hselects⟩
    refine ⟨hok, ⟨fun hnone => ?_, fun ⟨spec, hspec, hnothing⟩ => ?_⟩, fun range hrange => ?_,
      fun range hrange => ?_⟩
    · obtain ⟨spec, hspec⟩ := hgrammar (.inr hnone)
      obtain ⟨_, hnothing⟩ | ⟨range, hrange, _⟩ := hspec.outcome hsize hsome
      · exact ⟨spec, hspec, hnothing⟩
      · rw [hnone] at hrange
        cases hrange
    · obtain ⟨hnone, _⟩ | ⟨range, _, hproper, _, hselects⟩ := hspec.outcome hsize hsome
      · exact hnone
      · exact absurd ((hselects range.start).mp ⟨le_refl _, hproper⟩) (hnothing _)
    · exact described hrange (hok range hrange).proper (hok range hrange).inside
    · obtain ⟨hproper, hinside, _⟩ := hok range hrange
      exact parse_content_range (by omega) (hinside.trans hsize) (by omega) size

/-- Of an empty file the last 5 bytes are resolved to a range without bytes, which the client
reads back as its first byte. -/
theorem empty_suffix_resolved :
    ¬ SelectsRight "bytes=-5".toList 0 ∧ resolve_range "bytes=-5".toList 0 = .ok ⟨0, 0⟩ ∧
    RemoteExecutor.parse_content_range_bounds (content_range ⟨0, 0⟩ 0) = some (0, 1) := by
  have hresolve : resolve_range "bytes=-5".toList 0 = .ok ⟨0, 0⟩ := by decide
  exact ⟨fun h => absurd (h.resolved _ hresolve).proper (Nat.lt_irrefl 0), hresolve, by decide⟩

/-- The last 5 bytes of a file of 3 bytes are all of it. -/
theorem long_suffix_selects_right : SelectsRight "bytes=-5".toList 3 := by
  have hsmall : ∀ n, n ≤ 9 → n ≤ U64_MAX := fun n hn => hn.trans (by unfold U64_MAX; omega)
  have hasks : Asks ("bytes=".toList ++ '-' :: ['5']) (.Suffix 5) :=
    Asks.suffix ⟨by decide, by decide, by decide, hsmall 5 (by decide)⟩ (by decide)
  exact (selects_right_iff _ (hsmall 3 (by decide))).mpr
    ⟨fun hslips => hslips.1 ⟨_, hasks⟩, fun hzero => absurd hzero.1 (by decide)⟩

end fslite
