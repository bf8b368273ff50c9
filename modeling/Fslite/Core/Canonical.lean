import Fslite.Core.Target

namespace fslite

/-- A stack machine that reads the segments of a path; the top is the list's head, and
the way up ends at the root. -/
def stack_step (stack : List Text) (segment : Text) : List Text :=
  if segment = [] ∨ segment = ['.'] then stack
  else if segment = dots then stack.tail
  else segment :: stack

/-- The stack after reading a text. -/
def final_stack (input : Text) : List Text := (input.splitOn '/').foldl stack_step []

/-- A text in the form of a path: absolute, made of names, and without a slash at
its end, or the root's. -/
structure Canonical (text : Text) : Prop where
  absolute : text.head? = some '/'
  named : text = ['/'] ∨ ∀ segment ∈ (text.drop 1).splitOn '/', Segment segment
  closed : text = ['/'] ∨ text.getLast? ≠ some '/'

/-- The vector that the code pushes to is the machine's stack from its bottom to its top. -/
theorem foldl_stack_step (segments stack : List Text) :
    segments.foldl normalize_step stack.reverse = (segments.foldl stack_step stack).reverse := by
  induction segments generalizing stack with
  | nil => rfl
  | cons segment rest ih =>
    have hstep : normalize_step stack.reverse segment = (stack_step stack segment).reverse := by
      unfold normalize_step stack_step
      split
      · rfl
      · split
        · exact List.dropLast_reverse
        · exact List.reverse_cons.symm
    rw [List.foldl_cons, List.foldl_cons, hstep, ih]

namespace VirtualPath

variable {p q r s : VirtualPath}

theorem as_str_canonical (p : VirtualPath) : Canonical p.as_str := by
  obtain ⟨hsegments, hcanonical⟩ := p.segments_spec
  have htext : p.as_str = canonicalText p.segments := hcanonical
  by_cases hroot : p.segments = []
  · rw [htext, hroot]
    exact ⟨rfl, .inl rfl, .inl rfl⟩
  · rw [canonicalText, if_neg hroot, render_eq_intercalate hroot] at htext
    have hsplit : (p.as_str.drop 1).splitOn '/' = p.segments := by
      rw [htext, List.drop_succ_cons, List.drop_zero]
      exact List.splitOn_intercalate _ (fun l hl => (hsegments l hl).raw.1) hroot
    refine ⟨by rw [htext]; rfl, .inr (by rw [hsplit]; exact hsegments), .inr ?_⟩
    obtain ⟨front, last, hlast⟩ := p.segments.eq_nil_or_concat.resolve_left hroot
    rw [List.concat_eq_append] at hlast
    have hname : Segment last :=
      hsegments last (by rw [hlast]; exact List.mem_append_right _ (List.mem_singleton_self last))
    obtain ⟨text, c, hc⟩ := last.eq_nil_or_concat.resolve_left hname.1
    rw [List.concat_eq_append] at hc
    have hends : p.as_str = (render front ++ '/' :: text) ++ [c] := by
      rw [as_str, hcanonical, canonicalText, if_neg hroot, hlast, render_append, hc]
      simp [render]
    rw [hends, List.getLast?_concat, Ne, Option.some.injEq]
    rintro rfl
    exact hname.raw.1 (by rw [hc]; exact List.mem_append_right _ (List.mem_singleton_self _))

/-- The segments of a path are what the machine has on its stack in the end. -/
theorem parse_stack {input : Text} (h : parse input = .ok p) :
    p.segments = (final_stack input).reverse := by
  rw [(parse_fold h).2.1]
  exact foldl_stack_step _ []

theorem parse_eq_iff {input other : Text} (hp : parse input = .ok p) (hq : parse other = .ok q) :
    p = q ↔ final_stack input = final_stack other := by
  rw [← List.reverse_inj, ← parse_stack hp, ← parse_stack hq]
  exact ⟨congrArg segments, eq_of_segments_eq⟩

/-- A path below the root is its name in its parent. -/
theorem parent_join_name (h : p ≠ root) :
    ∃ up last, p.parent = some up ∧ p.name = some last ∧ up.join last = .ok p := by
  obtain ⟨last, hname⟩ : ∃ last, p.name = some last := by
    refine Option.ne_none_iff_exists'.mp (fun hnone => h (eq_of_segments_eq ?_))
    rw [name_eq_none.mp hnone, segments_root]
  obtain ⟨up, hparent, hsegments⟩ := parent_of_name hname
  have hlast : Segment last :=
    segment_of_mem (p := p) (by rw [hsegments]; exact List.mem_append_right _ (List.mem_singleton_self last))
  obtain ⟨q, hjoin, hq⟩ := up.join_segment hlast
  obtain rfl : q = p := eq_of_segments_eq (hq.trans hsegments.symm)
  exact ⟨up, last, hparent, hname, hjoin⟩

/-- Two relative texts act one after the other as their concatenation does. -/
theorem join_join {a b : Text} (ha : p.join a = .ok q) (hb : q.join b = .ok r)
    (hab : p.join (a ++ '/' :: b) = .ok s) : r = s := by
  apply eq_of_segments_eq
  rw [(join_fold hb).2.2, (join_fold ha).2.2, (join_fold hab).2.2, List.splitOn_append_cons_self,
    List.foldl_append]

/-- Paths are canonical forms of absolute texts, and relative texts act on them. -/
theorem canonical_with_action :
    (∀ (input : Text) (p : VirtualPath), parse input = .ok p → Canonical p.as_str ∧
    parse p.as_str = .ok p) ∧
    (∀ (input other : Text) (p q : VirtualPath), parse input = .ok p → parse other = .ok q →
      (p = q ↔ final_stack input = final_stack other)) ∧
    (∀ p : VirtualPath, p ≠ root → ∃ up last, p.parent = some up ∧ p.name = some last ∧
    up.join last = .ok p) ∧
    (∀ (p q r s : VirtualPath) (a b : Text), p.join a = .ok q → q.join b = .ok r →
    p.join (a ++ '/' :: b) = .ok s → r = s) ∧
    ∀ (p q : VirtualPath) (a : Text), p.join a = .ok q → Canonical q.as_str :=
  ⟨fun _ p _ => ⟨p.as_str_canonical, p.parse_as_str⟩, fun _ _ _ _ => parse_eq_iff, fun _ =>
    parent_join_name,
    fun _ _ _ _ _ _ => join_join, fun _ q _ _ => q.as_str_canonical⟩

end VirtualPath

/-- The segments of a normal form pass through normalization unchanged. -/
theorem foldl_normalize_relative_of_normal {k : Nat} {names : List Text}
    (h : ∀ s ∈ names, Segment s) :
    (List.replicate k dots ++ names).foldl normalize_relative_step [] = List.replicate k dots ++
    names := by
  have hclimb : ∀ j, (List.replicate j dots).foldl normalize_relative_step [] =
      List.replicate j dots := by
    intro j
    induction j with
    | zero => rfl
    | succ j ih =>
      have hlast : ¬ ∃ last, (List.replicate j dots).getLast? = some last ∧ last ≠ ['.', '.'] := by
        rintro ⟨last, hlast, hne⟩
        exact hne (List.eq_of_mem_replicate (List.mem_of_getLast? hlast))
      rw [List.replicate_succ', List.foldl_append, ih, List.foldl_cons, List.foldl_nil,
        normalize_relative_step,
        if_neg (by decide), if_neg (fun hboth => hlast hboth.2)]
  rw [List.foldl_append, hclimb]
  induction names using List.reverseRecOn with
  | nil => exact (List.append_nil _).symm
  | append_singleton rest name ih =>
    obtain ⟨hrest, hname⟩ := List.forall_mem_append.mp h
    have hname := hname name (List.mem_singleton_self name)
    rw [List.foldl_append, ih hrest, List.foldl_cons, List.foldl_nil, normalize_relative_step,
      if_neg (not_or.mpr ⟨hname.1, hname.2.1⟩), if_neg (fun hboth => hname.2.2.1 hboth.1),
        List.append_assoc]

/-- Its segments take a path up and then down. -/
theorem foldl_normalize_of_normal {k : Nat} {names : List Text} (h : ∀ s ∈ names, Segment s)
    (front : List Text) :
    (List.replicate k dots ++ names).foldl normalize_step front = List.dropLast^[k] front ++
    names := by
  induction k generalizing front with
  | zero => exact foldl_normalize_of_segments h
  | succ k ih =>
    have hup : normalize_step front dots = front.dropLast := by
      rw [normalize_step, if_neg (by decide), if_pos (by rfl)]
    rw [List.replicate_succ, List.cons_append, List.foldl_cons, hup, ih,
      Function.iterate_succ_apply]

theorem normalize_step_skip (normalized : List Text) (s : Text) (h : s = [] ∨ s = ['.']) :
    normalize_step normalized s = normalized :=
  if_pos h

theorem normalize_relative_step_skip (normalized : List Text) (s : Text) (h : s = [] ∨ s = ['.']) :
    normalize_relative_step normalized s = normalized := if_pos h

/-- The pieces of a text in normal form, of which only those that say nothing are dropped. -/
theorem foldl_filter_skipped {A : Type} {step : A → Text → A}
    (hskip : ∀ acc s, s = [] ∨ s = ['.'] → step acc s = acc) (pieces : List Text) (acc : A) :
    (pieces.filter (fun s => s ≠ [] ∧ s ≠ ['.'])).foldl step acc = pieces.foldl step acc := by
  induction pieces generalizing acc with
  | nil => rfl
  | cons piece rest ih =>
    by_cases hpiece : piece = [] ∨ piece = ['.']
    · rw [List.filter_cons_of_neg (by simpa [← not_or] using hpiece), List.foldl_cons,
        hskip acc piece hpiece, ih]
    · rw [List.filter_cons_of_pos (by simpa [← not_or] using hpiece), List.foldl_cons,
        List.foldl_cons, ih]

namespace LinkTarget

variable {input : Text} {target : LinkTarget}

/-- The stored form of a relative target. -/
theorem relative_form (h : parse input = .ok target) (hslash : input.head? ≠ some '/') :
    ∃ k names, (∀ s ∈ names, Segment s) ∧
    (target.as_str = ['.'] ∧ List.replicate k dots ++ names = [] ∨
      target.as_str = ['/'].intercalate (List.replicate k dots ++ names) ∧
      List.replicate k dots ++ names ≠ []) ∧
    (input.splitOn '/').foldl normalize_relative_step [] = List.replicate k dots ++ names := by
  obtain ⟨⟨_, hnul⟩, htext⟩ := parse_eq_ok.mp h
  obtain ⟨k, names, hnames, hfold, _⟩ := normalize_relative_fold (VirtualPath.raw_splitOn hnul)
  rw [normalize_target, if_neg hslash, normalize_relative, hfold] at htext
  refine ⟨k, names, hnames, ?_, hfold⟩
  by_cases hnil : List.replicate k dots ++ names = []
  · exact .inl ⟨by simpa only [hnil, if_true] using htext, hnil⟩
  · exact .inr ⟨by simpa only [hnil, if_false] using htext, hnil⟩

/-- The stored form of a target is its own. -/
theorem parse_as_str (h : parse input = .ok target) : parse target.as_str = .ok target := by
  rw [parse_eq_ok, and_iff_right target.as_str_readable]
  by_cases hslash : input.head? = some '/'
  · obtain ⟨habsolute, q, hq, htext⟩ := parse_absolute h hslash
    have hagain := (VirtualPath.parse_fold q.parse_as_str).2.2
    rw [is_absolute, decide_eq_true_eq, show target.canonical = target.as_str from rfl] at habsolute
    rw [normalize_target, if_pos habsolute, htext]
    exact hagain
  · obtain ⟨k, names, hnames, hshape, hfold⟩ := relative_form h hslash
    obtain ⟨hsplit, hhead, _⟩ := normalize_relative_split hnames hfold
    have htext := (parse_eq_ok.mp h).2
    rw [normalize_target, if_neg hslash] at htext
    have hagain : (target.as_str.splitOn '/').foldl normalize_relative_step [] =
        List.replicate k dots ++ names := by
      rw [htext, ← foldl_filter_skipped normalize_relative_step_skip, hsplit,
        foldl_normalize_relative_of_normal hnames]
    rw [normalize_target, if_neg (by rw [htext]; exact hhead), normalize_relative, hagain]
    obtain ⟨hdot, hnil⟩ | ⟨hnames, hne⟩ := hshape
    · simp only [hnil, if_true, hdot]
    · simp only [hne, if_false, hnames]

theorem is_absolute_iff (h : parse input = .ok target) :
    target.is_absolute = true ↔ input.head? = some '/' := by
  by_cases hslash : input.head? = some '/'
  · exact iff_of_true (parse_absolute h hslash).1 hslash
  · refine iff_of_false (fun habsolute => ?_) hslash
    rw [(parse_relative h hslash).1] at habsolute
    cases habsolute

/-- Climbing less early does not matter, whatever the directory is. -/
theorem join_as_str (h : parse input = .ok target) (hslash : input.head? ≠ some '/')
    (D : VirtualPath) :
    ∃ q, D.join target.as_str = .ok q ∧ D.join input = .ok q := by
  obtain ⟨hrelative, k, names, hnames, hsplit, hfront⟩ := parse_relative h hslash
  have hjoin : ∀ text : Text, text.head? ≠ some '/' → NUL ∉ text → ∃ q, D.join text = .ok q := by
    intro text hhead hnul
    unfold VirtualPath.join
    rw [dif_neg (not_or.mpr ⟨hhead, hnul⟩)]
    exact ⟨_, rfl⟩
  rw [is_absolute, decide_eq_false_iff_not] at hrelative
  obtain ⟨q, hq⟩ := hjoin target.as_str hrelative target.as_str_readable.2
  obtain ⟨r, hr⟩ := hjoin input hslash (parse_eq_ok.mp h).1.2
  have hsame : q = r := by
    apply VirtualPath.eq_of_segments_eq
    rw [(VirtualPath.join_fold hq).2.2, (VirtualPath.join_fold hr).2.2, hfront,
      ← foldl_filter_skipped normalize_step_skip, hsplit,
      foldl_normalize_of_normal hnames]
  exact ⟨q, hq, hsame ▸ hr⟩

/-- The stored form of a target says where it points: it is its own stored form, it is
absolute if the target is, and from every directory it leads where the target leads,
climbing first and then descending along names. -/
theorem parse_keeps_meaning {t : Text} {target : LinkTarget} (h : parse t = .ok target) :
    parse target.as_str = .ok target ∧ (target.is_absolute = true ↔ t.head? = some '/') ∧
    (t.head? ≠ some '/' → (∀ D : VirtualPath, ∃ q, D.join target.as_str = .ok q ∧
    D.join t = .ok q) ∧
      (target.as_str = ['.'] ∨ ∃ k names, List.replicate k dots ++ names ≠ [] ∧
      (∀ s ∈ names, Segment s) ∧
        target.as_str = ['/'].intercalate (List.replicate k dots ++ names))) := by
  refine ⟨parse_as_str h, is_absolute_iff h, fun hslash => ⟨join_as_str h hslash, ?_⟩⟩
  obtain ⟨k, names, hnames, hshape, _⟩ := relative_form h hslash
  obtain ⟨hdot, _⟩ | ⟨htext, hne⟩ := hshape
  · exact .inl hdot
  · exact .inr ⟨k, names, hne, hnames, htext⟩

/-- `x/../../y/.` climbs once and descends to `y`. -/
theorem climbing_target_keeps_meaning :
    ∃ target, parse "x/../../y/.".toList = .ok target ∧ target.as_str = "../y".toList ∧
    parse target.as_str = .ok target ∧ ∀ D : VirtualPath, ∃ q, D.join target.as_str = .ok q ∧
    D.join "x/../../y/.".toList = .ok q := by
  obtain ⟨target, htarget⟩ : ∃ target, parse "x/../../y/.".toList = .ok target := by
    rw [parse, dif_neg (by decide)]
    exact ⟨_, rfl⟩
  obtain ⟨hagain, _, hrelative⟩ := parse_keeps_meaning htarget
  refine ⟨target, htarget, ?_, hagain, (hrelative (by decide)).1⟩
  rw [(parse_eq_ok.mp htarget).2]
  decide

end LinkTarget

end fslite
