import Fslite.Core.Path
import Mathlib.Data.List.Induction
import Mathlib.Logic.Function.Iterate

namespace fslite

/-- The way up. -/
abbrev dots : Text := ['.', '.']

/-- The normal form of a relative target climbs first and then descends along names.
Joining the target to a path drops as many segments from it and adds the names. -/
theorem normalize_relative_fold {segments : List Text} (h : ∀ s ∈ segments, Raw s) :
    ∃ k names, (∀ s ∈ names, Segment s) ∧
    segments.foldl normalize_relative_step [] = List.replicate k dots ++ names ∧
      ∀ front, segments.foldl normalize_step front = List.dropLast^[k] front ++ names := by
  induction segments using List.reverseRecOn with
  | nil => exact ⟨0, [], by simp, rfl, fun front => (List.append_nil front).symm⟩
  | append_singleton rest segment ih =>
    obtain ⟨hrest, hsegment⟩ := List.forall_mem_append.mp h
    have hraw := hsegment segment (List.mem_singleton_self segment)
    obtain ⟨k, names, hnames, hrelative, hfront⟩ := ih hrest
    simp only [List.foldl_append, List.foldl_cons, List.foldl_nil, hrelative, hfront]
    by_cases hskip : segment = [] ∨ segment = ['.']
    · refine ⟨k, names, hnames, ?_, fun front => ?_⟩
      · rw [normalize_relative_step, if_pos hskip]
      · rw [normalize_step, if_pos hskip]
    · by_cases hdots : segment = ['.', '.']
      · subst hdots
        obtain rfl | ⟨names, last, rfl⟩ := names.eq_nil_or_concat
        · -- nothing is left to climb out of
          have hlast : ¬ ∃ last, (List.replicate k dots).getLast? = some last ∧
              last ≠ ['.', '.'] := by
            rintro ⟨last, hlast, hne⟩
            exact hne (List.eq_of_mem_replicate (List.mem_of_getLast? hlast))
          refine ⟨k + 1, [], by simp, ?_, fun front => ?_⟩
          · rw [normalize_relative_step, if_neg hskip, List.append_nil,
              if_neg (fun hboth => hlast hboth.2), List.append_nil,
              List.replicate_succ']
          · rw [normalize_step, if_neg hskip, if_pos (by rfl), Function.iterate_succ_apply',
              List.append_nil, List.append_nil]
        · rw [List.concat_eq_append] at hnames ⊢
          obtain ⟨hnames, hlast⟩ := List.forall_mem_append.mp hnames
          have hlast := hlast last (List.mem_singleton_self last)
          refine ⟨k, names, hnames, ?_, fun front => ?_⟩
          · rw [normalize_relative_step, if_neg hskip, ← List.append_assoc,
              if_pos ⟨rfl, last, List.getLast?_concat, hlast.2.2.1⟩, List.dropLast_concat]
          · rw [normalize_step, if_neg hskip, if_pos (by rfl), ← List.append_assoc,
              List.dropLast_concat]
      · refine ⟨k, names ++ [segment], ?_, ?_, fun front => ?_⟩
        · refine List.forall_mem_append.mpr ⟨hnames, fun s hs => ?_⟩
          obtain rfl := List.mem_singleton.mp hs
          exact ⟨fun hnil => hskip (Or.inl hnil), fun hdot => hskip (Or.inr hdot), hdots, hraw.1,
            hraw.2⟩
        · rw [normalize_relative_step, if_neg hskip, if_neg (fun hboth => hdots hboth.1),
            List.append_assoc]
        · rw [normalize_step, if_neg hskip, if_neg hdots, List.append_assoc]

/-- The text of a relative target in normal form splits into what it consists of. -/
theorem normalize_relative_split {segments names : List Text} {k : Nat}
    (hnames : ∀ s ∈ names, Segment s)
    (h : segments.foldl normalize_relative_step [] = List.replicate k dots ++ names) :
    ((normalize_relative segments).splitOn '/').filter
    (fun s => s ≠ [] ∧ s ≠ ['.']) = List.replicate k dots ++ names ∧
      (normalize_relative segments).head? ≠ some '/' ∧ NUL ∉ normalize_relative segments ∧
      normalize_relative segments ≠ [] := by
  have hpieces : ∀ s ∈ List.replicate k dots ++ names, (s ≠ [] ∧ s ≠ ['.']) ∧ '/' ∉ s ∧
      NUL ∉ s := by
    intro s hs
    obtain hs | hs := List.mem_append.mp hs
    · rw [List.eq_of_mem_replicate hs]
      decide
    · exact ⟨⟨(hnames s hs).1, (hnames s hs).2.1⟩, (hnames s hs).raw⟩
  unfold normalize_relative
  simp only [h]
  by_cases hnil : List.replicate k dots ++ names = []
  · rw [if_pos hnil, hnil]
    decide
  · rw [if_neg hnil, List.splitOn_intercalate _ (fun s hs => (hpieces s hs).2.1) hnil]
    refine ⟨List.filter_eq_self.mpr (fun s hs => by simpa using (hpieces s hs).1), ?_⟩
    obtain ⟨first, rest, hcons⟩ := List.exists_cons_of_ne_nil hnil
    have hrender := render_eq_intercalate hnil
    rw [hcons, render_cons, List.cons_append, List.cons.injEq, and_iff_right rfl,
      ← hcons] at hrender
    have hfirst := hpieces first (hcons ▸ List.mem_cons_self)
    obtain ⟨c, text, rfl⟩ := List.exists_cons_of_ne_nil hfirst.1.1
    refine ⟨fun hslash => ?_, fun hnul => ?_, ?_⟩
    · rw [← hrender, List.cons_append, List.head?_cons, Option.some.injEq] at hslash
      exact hfirst.2.1 (hslash ▸ List.mem_cons_self)
    · have hmem : NUL ∈ render (List.replicate k dots ++ names) := by
        rw [render_eq_intercalate hnil]
        exact List.mem_cons_of_mem _ hnul
      obtain ⟨s, hs, hmem⟩ := List.mem_flatMap.mp hmem
      obtain hslash | hmem := List.mem_cons.mp hmem
      · exact absurd hslash (by decide)
      · exact (hpieces s hs).2.2 hmem
    · rw [← hrender]
      exact List.cons_ne_nil _ _

/-- A path that is descended from a place has the segments of the place in front. -/
theorem VirtualPath.join_fold {p q : VirtualPath} {input : Text} (h : p.join input = .ok q) :
    input.head? ≠ some '/' ∧ NUL ∉ input ∧
    q.segments = (input.splitOn '/').foldl normalize_step p.segments := by
  unfold join at h
  split at h
  · cases h
  · rename_i hgood
    cases h
    obtain ⟨hslash, hnul⟩ := not_or.mp hgood
    refine ⟨hslash, hnul, ?_⟩
    have hall := foldl_normalize_segments (fun s hs => segment_of_mem (p := p) hs)
      (raw_splitOn hnul)
    have hpath : (⟨normalize (p.segments ++ input.splitOn '/'), normalize_wellFormed (by
        intro s hs
        exact (List.mem_append.mp hs).elim (fun hs => (segment_of_mem hs).raw)
          (raw_splitOn hnul s))⟩ : VirtualPath) =
        ofSegments _ hall := by
      apply ext
      simp only [ofSegments]
      rw [normalize_eq, List.foldl_append, foldl_normalize_of_segments
        (fun s hs => segment_of_mem hs), List.nil_append]
    rw [hpath, segments_ofSegments]

theorem VirtualPath.parse_fold {q : VirtualPath} {input : Text} (h : parse input = .ok q) :
    NUL ∉ input ∧ q.segments = (input.splitOn '/').foldl normalize_step [] ∧
    q.as_str = normalize (input.splitOn '/') := by
  unfold parse at h
  split at h
  · cases h
  · rename_i hgood
    cases h
    obtain ⟨_, hnul⟩ := not_or.mp hgood
    have hall := @foldl_normalize_segments (input.splitOn '/') [] (by simp) (raw_splitOn hnul)
    have hpath : (⟨normalize (input.splitOn '/'),
      normalize_wellFormed (raw_splitOn hnul)⟩ : VirtualPath) =
        ofSegments _ hall := ext (normalize_eq _)
    refine ⟨hnul, ?_, rfl⟩
    rw [hpath, segments_ofSegments]

namespace LinkTarget

/-- Only texts with characters, none of them NUL, are targets. -/
theorem parse_eq_ok {input : Text} {target : LinkTarget} : parse input = .ok target ↔
    (input ≠ [] ∧ NUL ∉ input) ∧ target.as_str = normalize_target input := by
  unfold parse
  split
  · rename_i hbad
    simp only [reduceCtorEq, false_iff]
    rintro ⟨⟨hne, hnul⟩, _⟩
    exact hbad.elim hne hnul
  · rename_i hgood
    rw [Except.ok.injEq, and_iff_right (not_or.mp hgood)]
    cases target
    simp only [mk.injEq, as_str]
    exact eq_comm

/-- What is stored for a target can be read as one. -/
theorem as_str_readable (target : LinkTarget) : target.as_str ≠ [] ∧ NUL ∉ target.as_str := by
  obtain ⟨input, hne, hnul, hcanonical⟩ := target.wellFormed
  rw [as_str, hcanonical, normalize_target]
  split
  · rename_i hslash
    have hparse : ∃ q, VirtualPath.parse input = .ok q := by
      rw [VirtualPath.parse, dif_neg (not_or.mpr ⟨not_not.mpr hslash, hnul⟩)]
      exact ⟨_, rfl⟩
    obtain ⟨q, hq⟩ := hparse
    rw [← (VirtualPath.parse_fold hq).2.2]
    have hagain := q.parse_as_str
    refine ⟨fun hnil => ?_, (VirtualPath.parse_fold hagain).1⟩
    rw [hnil] at hagain
    cases hagain
  · obtain ⟨k, names, hnames, hfold, _⟩ := normalize_relative_fold (VirtualPath.raw_splitOn hnul)
    obtain ⟨_, _, hclean, hfull⟩ := normalize_relative_split hnames hfold
    exact ⟨hfull, hclean⟩

/-- An absolute target is read as the path that it is. -/
theorem parse_absolute {input : Text} {target : LinkTarget} (h : parse input = .ok target)
    (hslash : input.head? = some '/') :
    target.is_absolute = true ∧ ∃ q, VirtualPath.parse input = .ok q ∧
    target.as_str = q.as_str := by
  obtain ⟨⟨_, hnul⟩, htext⟩ := parse_eq_ok.mp h
  obtain ⟨q, hq⟩ : ∃ q, VirtualPath.parse input = .ok q := by
    rw [VirtualPath.parse, dif_neg (not_or.mpr ⟨not_not.mpr hslash, hnul⟩)]
    exact ⟨_, rfl⟩
  rw [normalize_target, if_pos hslash, ← (VirtualPath.parse_fold hq).2.2] at htext
  refine ⟨?_, q, hq, htext⟩
  have hagain := q.parse_as_str
  unfold VirtualPath.parse at hagain
  split at hagain
  · cases hagain
  · rename_i hgood
    rw [is_absolute, decide_eq_true_eq, show target.canonical = q.as_str from htext]
    exact not_not.mp (not_or.mp hgood).1

/-- A relative target is read in its normal form. -/
theorem parse_relative {input : Text} {target : LinkTarget} (h : parse input = .ok target)
    (hslash : input.head? ≠ some '/') :
    target.is_absolute = false ∧ ∃ k names, (∀ s ∈ names, Segment s) ∧
      (target.as_str.splitOn '/').filter (fun s => s ≠ [] ∧ s ≠ ['.']) = List.replicate k dots ++
      names ∧
        ∀ front, (input.splitOn '/').foldl normalize_step front = List.dropLast^[k] front ++
          names := by
  obtain ⟨⟨_, hnul⟩, htext⟩ := parse_eq_ok.mp h
  obtain ⟨k, names, hnames, hfold, hfront⟩ := normalize_relative_fold (VirtualPath.raw_splitOn hnul)
  obtain ⟨hsplit, hhead, _⟩ := normalize_relative_split hnames hfold
  rw [normalize_target, if_neg hslash] at htext
  refine ⟨?_, k, names, hnames, by rw [htext, hsplit], hfront⟩
  rw [is_absolute, decide_eq_false_iff_not, show target.canonical = _ from htext]
  exact hhead

end LinkTarget

end fslite
