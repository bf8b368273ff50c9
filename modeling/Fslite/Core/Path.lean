import Fslite.Core.Error

namespace fslite

def NUL : Char := Char.ofNat 0

/-- A path segment that names a node. -/
def Segment (segment : Text) : Prop :=
  segment ≠ [] ∧ segment ≠ ['.'] ∧ segment ≠ ['.', '.'] ∧ '/' ∉ segment ∧ NUL ∉ segment

instance (segment : Text) : Decidable (Segment segment) :=
  inferInstanceAs (Decidable (segment ≠ [] ∧ segment ≠ ['.'] ∧ segment ≠ ['.', '.'] ∧
    '/' ∉ segment ∧ NUL ∉ segment))

/-- The text of a list of segments, each behind its slash. -/
def render (segments : List Text) : Text := segments.flatMap (fun segment => '/' :: segment)

def normalize_step (normalized : List Text) (segment : Text) : List Text :=
  if segment = [] ∨ segment = ['.'] then normalized
  else if segment = ['.', '.'] then normalized.dropLast
  else normalized ++ [segment]

def normalize (segments : List Text) : Text :=
  let normalized := segments.foldl normalize_step []
  if normalized = [] then ['/'] else render normalized

/-- The canonical text of an absolute path with the given segments. -/
def canonicalText (segments : List Text) : Text := if segments = [] then ['/'] else render segments

/-- What is left of a raw segment after splitting at slashes. -/
def Raw (segment : Text) : Prop := '/' ∉ segment ∧ NUL ∉ segment

theorem Segment.raw {segment : Text} (h : Segment segment) : Raw segment := ⟨h.2.2.2.1, h.2.2.2.2⟩

theorem normalize_step_segments {normalized : List Text} {segment : Text}
    (hnorm : ∀ s ∈ normalized, Segment s) (hraw : Raw segment) :
    ∀ s ∈ normalize_step normalized segment, Segment s := by
  unfold normalize_step
  split
  · exact hnorm
  · rename_i hplain
    split
    · exact fun s hs => hnorm s ((List.dropLast_sublist normalized).mem hs)
    · rename_i hdots
      intro s hs
      obtain hs | hs := List.mem_append.mp hs
      · exact hnorm s hs
      · rw [List.mem_singleton.mp hs]
        exact ⟨fun h => hplain (Or.inl h), fun h => hplain (Or.inr h), hdots, hraw.1, hraw.2⟩

theorem foldl_normalize_segments {segments normalized : List Text}
    (hnorm : ∀ s ∈ normalized, Segment s) (hraw : ∀ s ∈ segments, Raw s) :
    ∀ s ∈ segments.foldl normalize_step normalized, Segment s := by
  induction segments generalizing normalized with
  | nil => exact hnorm
  | cons segment rest ih =>
    exact ih (normalize_step_segments hnorm (hraw segment List.mem_cons_self))
      (fun s hs => hraw s (List.mem_cons_of_mem segment hs))

/-- Segments that name nodes pass through normalization unchanged. -/
theorem foldl_normalize_of_segments {segments normalized : List Text}
    (h : ∀ s ∈ segments, Segment s) :
    segments.foldl normalize_step normalized = normalized ++ segments := by
  induction segments generalizing normalized with
  | nil => simp
  | cons segment rest ih =>
    have hseg := h segment List.mem_cons_self
    have hstep : normalize_step normalized segment = normalized ++ [segment] := by
      simp [normalize_step, hseg.1, hseg.2.1, hseg.2.2.1]
    rw [List.foldl_cons, hstep, ih (fun s hs => h s (List.mem_cons_of_mem segment hs)),
      List.append_assoc]
    rfl

theorem normalize_eq (segments : List Text) :
    normalize segments = canonicalText (segments.foldl normalize_step []) :=
  rfl

theorem render_cons (segment : Text) (rest : List Text) :
    render (segment :: rest) = '/' :: segment ++ render rest := by
  simp [render]

theorem render_append (front rest : List Text) :
    render (front ++ rest) = render front ++ render rest := by
  simp [render]

theorem render_eq_intercalate {segments : List Text} (h : segments ≠ []) :
    render segments = '/' :: ['/'].intercalate segments := by
  induction segments with
  | nil => exact absurd rfl h
  | cons segment rest ih =>
    rw [render_cons]
    cases rest with
    | nil => simp [render, List.intercalate]
    | cons next rest =>
      rw [ih (List.cons_ne_nil next rest)]
      simp [List.intercalate]

/-- Splitting the canonical text gives an empty first piece and the segments. -/
theorem splitOn_render {segments : List Text} (hne : segments ≠ []) (h : ∀ s ∈ segments, '/' ∉ s) :
    (render segments).splitOn '/' = [] :: segments := by
  rw [render_eq_intercalate hne]
  have hcons : ('/' :: ['/'].intercalate segments) = ['/'].intercalate ([] :: segments) := by
    cases segments with
    | nil => exact absurd rfl hne
    | cons segment rest => simp [List.intercalate]
  rw [hcons]
  apply List.splitOn_intercalate
  · intro l hl
    obtain rfl | hl := List.mem_cons.mp hl
    · exact List.not_mem_nil
    · exact h l hl
  · exact List.cons_ne_nil _ _

/-- The position of the last occurrence of a character. -/
def rfind (c : Char) (text : Text) : Option Nat :=
  (text.reverse.findIdx? (fun x => x = c)).map (fun i => text.length - 1 - i)

theorem rfind_append {c : Char} {front back : Text} (h : c ∉ back) :
    rfind c (front ++ c :: back) = some front.length := by
  have hidx : (front ++ c :: back).reverse.findIdx? (fun x => x = c) = some back.length := by
    rw [List.reverse_append, List.reverse_cons, List.append_assoc, List.findIdx?_append]
    have hnone : back.reverse.findIdx? (fun x => x = c) = none := by
      rw [List.findIdx?_eq_none_iff]
      intro x hx
      simp only [decide_eq_false_iff_not]
      rintro rfl
      exact h (List.mem_reverse.mp hx)
    simp [hnone, List.findIdx?_cons]
  rw [rfind, hidx, Option.map_some, Option.some.injEq, List.length_append, List.length_cons]
  omega

/-- An absolute, normalized path within a filesystem workspace. -/
structure VirtualPath where
  canonical : Text
  wellFormed : ∃ segments : List Text, (∀ s ∈ segments, Segment s) ∧
    canonical = canonicalText segments

namespace VirtualPath

@[ext] theorem ext {p q : VirtualPath} (h : p.canonical = q.canonical) : p = q := by
  cases p
  cases q
  cases h
  rfl

instance : DecidableEq VirtualPath :=
  fun p q => decidable_of_iff (p.canonical = q.canonical) ⟨ext, congrArg canonical⟩

def as_str (p : VirtualPath) : Text := p.canonical

def root : VirtualPath := ⟨['/'], [], by simp, rfl⟩

/-- The path with the given segments. -/
def ofSegments (segments : List Text) (h : ∀ s ∈ segments, Segment s) : VirtualPath :=
  ⟨canonicalText segments, segments, h, rfl⟩

theorem normalize_wellFormed {segments : List Text} (h : ∀ s ∈ segments, Raw s) :
    ∃ normalized : List Text, (∀ s ∈ normalized, Segment s) ∧
    normalize segments = canonicalText normalized :=
  ⟨_, foldl_normalize_segments (by simp) h, normalize_eq segments⟩

/-- A piece of a text between two separators has no separator in it, and its characters
are the text's. -/
theorem mem_splitOn {sep : Char} {input piece : Text} (h : piece ∈ input.splitOn sep) :
    sep ∉ piece ∧ piece ⊆ input := by
  induction input generalizing piece with
  | nil =>
    rw [List.splitOn_nil, List.mem_singleton] at h
    subst h
    exact ⟨List.not_mem_nil, List.nil_subset _⟩
  | cons c rest ih =>
    rw [List.splitOn_cons_eq_if_modifyHead] at h
    split at h
    · obtain rfl | h := List.mem_cons.mp h
      · exact ⟨List.not_mem_nil, List.nil_subset _⟩
      · exact ⟨(ih h).1, List.subset_cons_of_subset c (ih h).2⟩
    · rename_i hsep
      cases hsplit : rest.splitOn sep with
      | nil => exact absurd hsplit (List.splitOn_ne_nil _ _)
      | cons first others =>
        rw [hsplit] at h ih
        obtain rfl | h := List.mem_cons.mp h
        · obtain ⟨hfirst, hsub⟩ := ih List.mem_cons_self
          refine ⟨fun hmem => ?_, List.cons_subset_cons c hsub⟩
          obtain rfl | hmem := List.mem_cons.mp hmem
          · exact hsep (beq_self_eq_true sep)
          · exact hfirst hmem
        · obtain ⟨hpiece, hsub⟩ := ih (List.mem_cons_of_mem first h)
          exact ⟨hpiece, List.subset_cons_of_subset c hsub⟩

theorem raw_splitOn {input : Text} (h : NUL ∉ input) : ∀ s ∈ input.splitOn '/', Raw s :=
  fun _ hs => ⟨(mem_splitOn hs).1, fun hnul => h ((mem_splitOn hs).2 hnul)⟩

def parse (input : Text) : FsResult VirtualPath :=
  if h : input.head? ≠ some '/' ∨ NUL ∈ input then .error (FsError.invalid_path_or_name input)
  else .ok ⟨normalize (input.splitOn '/'), normalize_wellFormed
    (raw_splitOn (fun hnul => h (Or.inr hnul)))⟩

def name (p : VirtualPath) : Option Text :=
  if p.canonical.length = 1 then none else (p.canonical.splitOn '/').getLast?

def segments (p : VirtualPath) : List Text :=
  ((p.canonical.drop 1).splitOn '/').filter (fun segment => segment ≠ [])

theorem segments_canonicalText {segments : List Text} (h : ∀ s ∈ segments, Segment s) :
    (((canonicalText segments).drop 1).splitOn '/').filter
    (fun segment => segment ≠ []) = segments := by
  by_cases hne : segments = []
  · subst hne
    simp [canonicalText]
  · rw [canonicalText, if_neg hne, render_eq_intercalate hne, List.drop_succ_cons, List.drop_zero,
      List.splitOn_intercalate _ (fun l hl => (h l hl).raw.1) hne]
    exact List.filter_eq_self.mpr (fun s hs => by simpa using (h s hs).1)

@[simp] theorem segments_ofSegments {segs : List Text} (h : ∀ s ∈ segs, Segment s) :
    (ofSegments segs h).segments = segs := segments_canonicalText h

/-- The segments of a path name nodes, and its canonical text is made of them. -/
theorem segments_spec (p : VirtualPath) :
    (∀ s ∈ p.segments, Segment s) ∧ p.canonical = canonicalText p.segments := by
  obtain ⟨segs, hsegs, hcanonical⟩ := p.wellFormed
  have heq : p.segments = segs := by
    rw [VirtualPath.segments, hcanonical]
    exact segments_canonicalText hsegs
  rw [heq]
  exact ⟨hsegs, hcanonical⟩

theorem segment_of_mem {p : VirtualPath} {s : Text} (h : s ∈ p.segments) : Segment s :=
  p.segments_spec.1 s h

theorem canonical_eq (p : VirtualPath) : p.canonical = canonicalText p.segments := p.segments_spec.2

/-- Normalization leaves a canonical text alone. -/
theorem parse_as_str (p : VirtualPath) : parse p.as_str = .ok p := by
  obtain ⟨hsegments, hcanonical⟩ := p.segments_spec
  have hparse : ∀ h : ¬ (p.canonical.head? ≠ some '/' ∨ NUL ∈ p.canonical),
    normalize (p.canonical.splitOn '/') = p.canonical →
      parse p.canonical = .ok p := by
    intro h hnormalize
    rw [parse, dif_neg h, Except.ok.injEq]
    exact ext hnormalize
  rw [as_str]
  by_cases hroot : p.segments = []
  · rw [hroot, canonicalText, if_pos rfl] at hcanonical
    refine hparse ?_ ?_ <;> rw [hcanonical] <;> decide
  · rw [canonicalText, if_neg hroot] at hcanonical
    have hsplit : p.canonical.splitOn '/' = [] :: p.segments := by
      rw [hcanonical]
      exact splitOn_render hroot (fun s hs => (hsegments s hs).raw.1)
    refine hparse (not_or.mpr ⟨?_, fun hnul => ?_⟩) ?_
    · rw [hcanonical, render_eq_intercalate hroot]
      simp
    · rw [hcanonical, render] at hnul
      obtain ⟨s, hs, hmem⟩ := List.mem_flatMap.mp hnul
      obtain hslash | hmem := List.mem_cons.mp hmem
      · exact absurd hslash (by decide)
      · exact (hsegments s hs).raw.2 hmem
    · rw [hsplit, normalize_eq, List.foldl_cons, show normalize_step [] [] = [] from rfl,
        foldl_normalize_of_segments hsegments, List.nil_append, canonicalText, if_neg hroot,
          hcanonical]

theorem eq_of_segments_eq {p q : VirtualPath} (h : p.segments = q.segments) : p = q := by
  apply ext
  rw [canonical_eq, canonical_eq, h]

@[simp] theorem segments_root : root.segments = [] := by
  simp [segments, root]

theorem canonicalText_length_eq_one {segs : List Text} (h : ∀ s ∈ segs, Segment s) :
    (canonicalText segs).length = 1 ↔ segs = [] := by
  constructor
  · intro hlen
    cases segs with
    | nil => rfl
    | cons segment rest =>
      rw [canonicalText, if_neg (List.cons_ne_nil _ _), render_cons] at hlen
      have hpos := List.length_pos_iff.mpr (h segment List.mem_cons_self).1
      simp only [List.cons_append, List.length_cons, List.length_append] at hlen
      omega
  · rintro rfl
    rfl

theorem name_eq (p : VirtualPath) : p.name = p.segments.getLast? := by
  unfold name
  have hlen := canonicalText_length_eq_one p.segments_spec.1
  rw [← p.canonical_eq] at hlen
  by_cases hroot : p.segments = []
  · rw [if_pos (hlen.mpr hroot), hroot]
    rfl
  · rw [if_neg (fun h => hroot (hlen.mp h)), p.canonical_eq, canonicalText, if_neg hroot,
      splitOn_render hroot (fun s hs => (segment_of_mem hs).raw.1)]
    obtain ⟨first, rest, hcons⟩ := List.exists_cons_of_ne_nil hroot
    rw [hcons, List.getLast?_cons_cons]

theorem rfind_canonical {p : VirtualPath} {front : List Text} {last : Text}
    (h : p.segments = front ++ [last]) :
    rfind '/' p.canonical = some (render front).length ∧
    p.canonical.take (render front).length = render front := by
  have hlast : Segment last := segment_of_mem (p := p) (by simp [h])
  have hne : p.segments ≠ [] := by simp [h]
  have hcanonical : p.canonical = render front ++ '/' :: last := by
    rw [p.canonical_eq, canonicalText, if_neg hne, h, render_append]
    simp [render]
  rw [hcanonical]
  exact ⟨rfind_append hlast.raw.1, by simp⟩

theorem take_wellFormed {p : VirtualPath} {separator : Nat}
    (h : rfind '/' p.canonical = some separator) (hzero : separator ≠ 0) :
    ∃ segs : List Text, (∀ s ∈ segs, Segment s) ∧
    p.canonical.take separator = canonicalText segs := by
  obtain hnil | ⟨front, last, hsplit⟩ := p.segments.eq_nil_or_concat
  · rw [p.canonical_eq, hnil] at h
    exact absurd (Option.some.inj h).symm hzero
  · rw [List.concat_eq_append] at hsplit
    obtain ⟨hfind, htake⟩ := rfind_canonical hsplit
    have hsep : separator = (render front).length := Option.some.inj (h.symm.trans hfind)
    have hfront : front ≠ [] := by
      rintro rfl
      exact hzero hsep
    refine ⟨front, fun s hs => segment_of_mem (by rw [hsplit]; exact List.mem_append_left _ hs), ?_⟩
    rw [hsep, htake, canonicalText, if_neg hfront]

def parent (p : VirtualPath) : Option VirtualPath :=
  match h : rfind '/' p.canonical with
  | none => none
  | some separator =>
    if hzero : separator = 0 then
      if p.canonical.length = 1 then none else some root
    else some ⟨p.canonical.take separator, take_wellFormed h hzero⟩

def join (p : VirtualPath) (relative : Text) : FsResult VirtualPath :=
  if h : relative.head? = some '/' ∨ NUL ∈ relative then .error
    (FsError.invalid_path_or_name relative)
  else .ok ⟨normalize (p.segments ++ relative.splitOn '/'), normalize_wellFormed (by
    intro s hs
    obtain hs | hs := List.mem_append.mp hs
    · exact (segment_of_mem hs).raw
    · exact raw_splitOn (fun hnul => h (Or.inr hnul)) s hs)⟩

/-- A path with a name is its parent's segments followed by the name. -/
theorem parent_of_name {p : VirtualPath} {last : Text} (h : p.name = some last) :
    ∃ up, p.parent = some up ∧ p.segments = up.segments ++ [last] := by
  rw [name_eq] at h
  obtain ⟨front, hsplit⟩ := List.getLast?_eq_some_iff.mp h
  obtain ⟨hfind, htake⟩ := rfind_canonical hsplit
  have hlen : p.canonical.length ≠ 1 := by
    rw [p.canonical_eq, Ne, canonicalText_length_eq_one p.segments_spec.1]
    simp [hsplit]
  unfold parent
  split
  · rename_i hnone
    rw [hfind] at hnone
    cases hnone
  · rename_i separator hsome
    have hsep : separator = (render front).length := Option.some.inj (hsome.symm.trans hfind)
    by_cases hzero : separator = 0
    · rw [dif_pos hzero, if_neg hlen]
      have hfront : front = [] := by
        cases front with
        | nil => rfl
        | cons segment rest =>
          rw [hsep, render_cons] at hzero
          simp at hzero
      exact ⟨root, rfl, by rw [hsplit, hfront, segments_root]⟩
    · rw [dif_neg hzero]
      refine ⟨_, rfl, ?_⟩
      have hfront : ∀ s ∈ front, Segment s :=
        fun s hs => segment_of_mem (by rw [hsplit]; exact List.mem_append_left _ hs)
      have hne : front ≠ [] := by
        rintro rfl
        exact hzero hsep
      have heq : p.canonical.take separator = canonicalText front := by
        rw [hsep, htake, canonicalText, if_neg hne]
      simp only [segments, heq, segments_canonicalText hfront]
      exact hsplit

theorem name_eq_none {p : VirtualPath} : p.name = none ↔ p.segments = [] := by
  rw [name_eq, List.getLast?_eq_none_iff]

/-- Joining names with slashes between them appends them. -/
theorem join_names (p : VirtualPath) {names : List Text} (hne : names ≠ [])
    (h : ∀ s ∈ names, Segment s) :
    ∃ q, p.join (['/'].intercalate names) = .ok q ∧ q.segments = p.segments ++ names := by
  have hall : ∀ s ∈ p.segments ++ names, Segment s := by
    intro s hs
    obtain hs | hs := List.mem_append.mp hs
    · exact segment_of_mem hs
    · exact h s hs
  have hmem : ∀ c ∈ ['/'].intercalate names, c = '/' ∨ ∃ s ∈ names, c ∈ s := by
    intro c hc
    have hrender : c ∈ render names := by
      rw [render_eq_intercalate hne]
      exact List.mem_cons_of_mem _ hc
    obtain ⟨s, hs, hcs⟩ := List.mem_flatMap.mp hrender
    exact (List.mem_cons.mp hcs).imp_right (fun hcs => ⟨s, hs, hcs⟩)
  have hguard : ¬ ((['/'].intercalate names).head? = some '/' ∨ NUL ∈ ['/'].intercalate names) := by
    rintro (hhead | hnul)
    · obtain ⟨first, rest, rfl⟩ := List.exists_cons_of_ne_nil hne
      have hfirst := h first List.mem_cons_self
      have hprefix : ∃ back, ['/'].intercalate (first :: rest) = first ++ back := by
        cases rest <;> simp [List.intercalate]
      obtain ⟨back, hback⟩ := hprefix
      obtain ⟨c, text, rfl⟩ := List.exists_cons_of_ne_nil hfirst.1
      rw [hback, List.cons_append, List.head?_cons, Option.some.injEq] at hhead
      exact hfirst.raw.1 (hhead ▸ List.mem_cons_self)
    · obtain hslash | ⟨s, hs, hmem⟩ := hmem NUL hnul
      · exact absurd hslash (by decide)
      · exact (h s hs).raw.2 hmem
  refine ⟨ofSegments _ hall, ?_, segments_ofSegments hall⟩
  unfold join
  rw [dif_neg hguard]
  congr 1
  apply ext
  simp only [List.splitOn_intercalate _ (fun s hs => (h s hs).raw.1) hne, ofSegments]
  rw [normalize_eq, foldl_normalize_of_segments hall, List.nil_append]
/-- Joining a name appends it. -/
theorem join_segment (p : VirtualPath) {segment : Text} (h : Segment segment) :
    ∃ q, p.join segment = .ok q ∧ q.segments = p.segments ++ [segment] := by
  have hone : ∀ s ∈ [segment], Segment s := fun s hs => List.mem_singleton.mp hs ▸ h
  simpa [List.intercalate] using p.join_names (List.cons_ne_nil segment []) hone

end VirtualPath

def normalize_relative_step (normalized : List Text) (segment : Text) : List Text :=
  if segment = [] ∨ segment = ['.'] then normalized
  else if segment = ['.', '.'] ∧ ∃ last, normalized.getLast? = some last ∧
    last ≠ ['.', '.'] then normalized.dropLast
  else normalized ++ [segment]

instance (normalized : List Text) :
    Decidable (∃ last, normalized.getLast? = some last ∧ last ≠ ['.', '.']) :=
  match h : normalized.getLast? with
  | none => isFalse (by simp)
  | some last => decidable_of_iff (last ≠ ['.', '.']) (by simp)

def normalize_relative (segments : List Text) : Text :=
  let normalized := segments.foldl normalize_relative_step []
  if normalized = [] then ['.'] else ['/'].intercalate normalized

/-- The normal form of a link target, which stays absolute or relative. -/
def normalize_target (input : Text) : Text :=
  if input.head? = some '/' then normalize (input.splitOn '/') else normalize_relative
    (input.splitOn '/')

/-- A normalized absolute or relative target stored by a symbolic link. -/
structure LinkTarget where
  canonical : Text
  wellFormed : ∃ input : Text, input ≠ [] ∧ NUL ∉ input ∧ canonical = normalize_target input

/-- The path with the given names, if each of them is a segment; else the root. -/
def VirtualPath.named (names : List Text) : VirtualPath :=
  if h : ∀ s ∈ names, Segment s then .ofSegments names h else .root

theorem VirtualPath.segments_named {names : List Text} (h : ∀ s ∈ names, Segment s) :
    (named names).segments = names := by
  rw [named, dif_pos h, segments_ofSegments]

namespace LinkTarget

def parse (input : Text) : FsResult LinkTarget :=
  if h : input = [] ∨ NUL ∈ input then .error (FsError.invalid_path_or_name input)
  else .ok ⟨normalize_target input, input, fun hnil => h (Or.inl hnil), fun hnul => h (Or.inr hnul),
    rfl⟩

def as_str (target : LinkTarget) : Text := target.canonical

def is_absolute (target : LinkTarget) : Bool := target.canonical.head? = some '/'

end LinkTarget

end fslite
