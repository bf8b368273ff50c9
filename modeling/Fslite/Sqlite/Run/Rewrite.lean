import Fslite.Core.Target
import Fslite.Rewriting
import Fslite.Sqlite.Effect.Link
import Fslite.Sqlite.Run.Addressing

namespace fslite

/-- The path that stands in the place of a link: the target itself, or the target joined
to the path of the link's directory. -/
def replaced (link_path : VirtualPath) (target : Text) : Option VirtualPath :=
  if target.head? = some '/' then (VirtualPath.parse target).toOption
  else link_path.parent.bind (fun up => (up.join target).toOption)

namespace resolve

/-- The shortest part of the path that leads, without links, to a symbolic link. It is
all of the path only where the last link is to be followed as well. -/
structure LinkPrefix (db : Db) (ws : WorkspaceId) (follow_final : Bool)
    (path link_path : VirtualPath) (rest : List Text) (link : RawNode) : Prop where
  split : path.segments = link_path.segments ++ rest
  final : rest = [] → follow_final = true
  found : resolve db ws link_path = some link
  kind : link.kind = .Symlink
  shortest : ∀ (shorter : VirtualPath) raw, shorter.segments <+: link_path.segments →
    shorter ≠ link_path →
    resolve db ws shorter = some raw → raw.kind ≠ .Symlink

/-- One rewrite of a path: what stands in the place of its first link comes before the
remaining segments. -/
def Rewrites (db : Db) (ws : WorkspaceId) (follow_final : Bool) (path path' : VirtualPath) : Prop :=
  ∃ link_path rest link target base, LinkPrefix db ws follow_final path link_path rest link ∧
    link.symlink_target = some target ∧ replaced link_path target = some base ∧
      path'.segments = base.segments ++ rest

variable {db : Db} {ws : WorkspaceId} {follow_final : Bool} {path front path' path'' : VirtualPath}
  {current raw link : RawNode}
variable {rest pending segments : List Text}

theorem prefix_of_segments {path : VirtualPath} {front rest : List Text}
    (h : path.segments = front ++ rest) :
    ∃ p : VirtualPath, p.segments = front := by
  have hall : ∀ s ∈ front, Segment s :=
    fun s hs => VirtualPath.segment_of_mem (h ▸ List.mem_append_left rest hs)
  exact ⟨.ofSegments front hall, VirtualPath.segments_ofSegments hall⟩

/-- A node that a path leads to is the root, or its parent is the directory that the
parent path leads to. -/
theorem parent_of_resolve (h : resolve db ws path = some raw) :
    path.segments = [] ∧ raw.parent_id = none ∨
    ∃ up parent name, path.parent = some up ∧ path.segments = up.segments ++ [name] ∧
    resolve db ws up = some parent ∧
      raw.parent_id = some parent.id ∧ fetch_by_id db ws parent.id = some parent := by
  obtain hnil | ⟨front, name, hsplit⟩ := path.segments.eq_nil_or_concat
  · refine Or.inl ⟨hnil, ?_⟩
    unfold resolve at h
    rw [hnil] at h
    split at h
    · cases h
    · rename_i root hroot
      cases h
      obtain ⟨n, _, rfl, _, hparent, _⟩ := fetch_root_eq_some hroot
      exact hparent
  · rw [List.concat_eq_append] at hsplit
    obtain ⟨up, hup, hsegments⟩ := @VirtualPath.parent_of_name path name (by
      rw [VirtualPath.name_eq, hsplit, List.getLast?_concat])
    refine Or.inr ⟨up, ?_⟩
    unfold resolve at h ⊢
    split at h
    · cases h
    · rename_i root hroot
      rw [hsegments, walk_split] at h
      obtain ⟨parent, hparent, hchild⟩ := Option.bind_eq_some_iff.mp h
      rw [walk] at hchild
      split at hchild
      · cases hchild
      · split at hchild
        · rename_i child hfetch
          cases hchild
          obtain ⟨n, _, rfl, _, hid, _⟩ := fetch_child_eq_some hfetch
          obtain ⟨p, hp, hplive⟩ := walk_live (fetch_root_live hroot) hparent
          subst hp
          exact ⟨p.toRawNode, name, hup, hsegments, hparent, hid,
            fetch_by_id_eq_some.mpr ⟨p, hplive.mem, rfl, hplive.workspace, rfl, hplive.active⟩⟩
        · cases hchild

/-- Climbing and then descending from a node follows its path. -/
theorem climb_dots {k : Nat} {names : List Text} (hnames : ∀ s ∈ names, Segment s)
    (h : resolve db ws path = some current) :
    ∃ base base_path, climb db ws current (List.replicate k dots ++ names) = .Next base names ∧
      resolve db ws base_path = some base ∧
      base_path.segments = List.dropLast^[k] path.segments := by
  induction k generalizing path current with
  | zero =>
    refine ⟨current, path, ?_, h, rfl⟩
    cases names with
    | nil => rfl
    | cons name rest =>
      have hname := hnames name List.mem_cons_self
      rw [List.replicate_zero, List.nil_append, climb, if_neg hname.2.2.1]
  | succ k ih =>
    rw [List.replicate_succ, List.cons_append, climb, if_pos rfl, Function.iterate_succ_apply]
    obtain ⟨hroot, hparent⟩ | ⟨up, parent, name, _, hsegments, hfound, hparent, hfetch⟩ :=
      parent_of_resolve h
    · -- at the root the way up stays there
      simp only [hparent]
      rw [hroot, List.dropLast_nil, ← hroot]
      exact ih h
    · simp only [hparent, hfetch]
      rw [hsegments, List.dropLast_concat]
      exact ih hfound

/-- The segments of a canonical path are what it is split into. -/
theorem split_segments_as_str (path : VirtualPath) :
    split_segments path.as_str = path.segments := by
  have hpieces : ∀ s ∈ path.segments, s ≠ [] ∧ s ≠ ['.'] := fun s hs =>
    ⟨(VirtualPath.segment_of_mem hs).1, (VirtualPath.segment_of_mem hs).2.1⟩
  rw [split_segments, VirtualPath.as_str, path.canonical_eq, canonicalText]
  by_cases hroot : path.segments = []
  · rw [if_pos hroot, hroot]
    rfl
  · rw [if_neg hroot, splitOn_render hroot (fun s hs => (VirtualPath.segment_of_mem hs).raw.1),
      List.filter_cons_of_neg (by simp)]
    exact List.filter_eq_self.mpr (fun s hs => by simpa using hpieces s hs)

/-- Following a link goes on from a node on the path that stands in the link's place. -/
theorem follow_one_replaced {target : LinkTarget} (h : resolve db ws path = some link)
    (hkind : link.kind = .Symlink)
    (hdir : ∀ root, fetch_root db ws = some root → root.kind = .Directory)
    (htarget : link.symlink_target = some target.as_str) :
    ∃ base base_path remaining new, follow_one db ws link = .Next base remaining ∧
    resolve db ws base_path = some base ∧
      replaced path target.as_str = some new ∧ new.segments = base_path.segments ++ remaining := by
  obtain ⟨hne, hnul⟩ := target.as_str_readable
  obtain ⟨again, hagain⟩ : ∃ again, LinkTarget.parse target.as_str = .ok again := by
    rw [LinkTarget.parse, dif_neg (not_or.mpr ⟨hne, hnul⟩)]
    exact ⟨_, rfl⟩
  obtain ⟨root, hroot⟩ : ∃ root, fetch_root db ws = some root := by
    unfold resolve at h
    split at h
    · cases h
    · exact ⟨_, by assumption⟩
  unfold follow_one replaced
  simp only [htarget, hagain]
  by_cases hslash : target.as_str.head? = some '/'
  · obtain ⟨habsolute, new, hnew, htext⟩ := LinkTarget.parse_absolute hagain hslash
    simp only [habsolute, if_true, hroot, htext, split_segments_as_str, if_pos hslash, hnew]
    refine ⟨root, VirtualPath.root, new.segments, new, rfl, ?_,
      rfl, by rw [VirtualPath.segments_root, List.nil_append]⟩
    rw [resolve, hroot, VirtualPath.segments_root]
    rfl
  · obtain ⟨hrelative, k, names, hnames, hsplit, hfold⟩ := LinkTarget.parse_relative hagain hslash
    obtain ⟨hnil, _⟩ | ⟨up, parent, name, hup, hsegments, hparent, hid, hfetch⟩ :=
      parent_of_resolve h
    · -- the root is no link
      rw [resolve, hroot, hnil] at h
      cases h
      rw [hdir link hroot] at hkind
      cases hkind
    · obtain ⟨base, base_path, hclimb, hbase, hbase_path⟩ := climb_dots hnames hparent
      obtain ⟨new, hnew⟩ : ∃ new, up.join target.as_str = .ok new := by
        rw [VirtualPath.join, dif_neg (not_or.mpr ⟨hslash, hnul⟩)]
        exact ⟨_, rfl⟩
      simp only [hrelative, Bool.false_eq_true, if_false, hid, hfetch, if_neg hslash, hup,
        Option.bind_some, hnew]
      refine ⟨base, base_path, names, new, ?_, hbase, rfl, ?_⟩
      · rw [← hclimb, ← hsplit]
        rfl
      · rw [(VirtualPath.join_fold hnew).2.2, hfold, hbase_path]

/-- Beyond a link nothing is found. -/
theorem link_prefix_of_found {current_path link_path : VirtualPath}
    (hpath : path.segments = current_path.segments ++ pending)
    (hcurrent : resolve db ws current_path = some current)
    (hsplit : path.segments = link_path.segments ++ rest)
    (hlink : resolve db ws link_path = some link) (hkind : link.kind = .Symlink) :
    ∃ mid, pending = mid ++ rest ∧ walk db ws current mid = some link := by
  unfold resolve at hcurrent hlink
  split at hcurrent
  · cases hcurrent
  · rename_i root hroot
    simp only [hroot] at hlink
    rw [hpath] at hsplit
    obtain ⟨mid, hfront, hrest⟩ | ⟨mid, hfront, hrest⟩ := List.append_eq_append_iff.mp hsplit
    · refine ⟨mid, hrest, ?_⟩
      rw [hfront, walk_split, hcurrent, Option.bind_some] at hlink
      exact hlink
    · cases mid with
      | nil =>
        rw [List.append_nil] at hfront
        rw [hfront, hlink, Option.some.injEq] at hcurrent
        exact ⟨[], hrest.symm, by rw [hcurrent]; rfl⟩
      | cons segment mid =>
        rw [hfront, walk_split, hlink, Option.bind_some, walk,
          if_pos (by rw [hkind]; decide)] at hcurrent
        cases hcurrent

/-- The walk between two links goes along the segments that the plain one finds. -/
theorem descend_split {front : List Text} {k : Nat} (h : walk db ws current front = some raw) :
    descend db ws follow_final current (front ++ rest) k = descend db ws follow_final raw rest
      (k - front.length) := by
  induction front generalizing current k with
  | nil =>
    cases h
    rfl
  | cons segment front ih =>
    unfold walk at h
    split at h
    · cases h
    · rename_i hdir
      split at h
      · rename_i child hchild
        rw [List.cons_append, descend]
        simp only [not_ne_iff.mp hdir, hchild]
        rw [ih h, List.length_cons, Nat.sub_sub, Nat.add_comm]
      · cases h

/-- The walk between two links stops at the first link of the path. -/
theorem descend_to_link {current_path link_path : VirtualPath} {k : Nat}
    (hpath : path.segments = current_path.segments ++ pending)
    (hcurrent : resolve db ws current_path = some current)
    (h : LinkPrefix db ws follow_final path link_path rest link) :
    descend db ws follow_final current pending k = .Link link rest := by
  obtain ⟨mid, hpending, hwalk⟩ := link_prefix_of_found hpath hcurrent h.split h.found h.kind
  rw [hpending, descend_split hwalk]
  have hkind := h.kind
  cases rest with
  | nil => rw [descend, if_pos ⟨h.final rfl, hkind⟩]
  | cons segment rest =>
    rw [descend]
    simp only [hkind]

/-- The first link of a path is only one. -/
theorem LinkPrefix.unique {link_path link_path' : VirtualPath} {rest' : List Text} {link' : RawNode}
    (h : LinkPrefix db ws follow_final path link_path rest link)
    (h' : LinkPrefix db ws follow_final path link_path' rest' link') :
    link_path = link_path' ∧ rest = rest' ∧ link = link' := by
  have hsame : link_path = link_path' := by
    by_contra hne
    have hprefix : link_path.segments <+: link_path'.segments ∨
      link_path'.segments <+: link_path.segments :=
      List.prefix_or_prefix_of_prefix ⟨rest, h.split.symm⟩ ⟨rest', h'.split.symm⟩
    obtain hshort | hshort := hprefix
    · exact h'.shortest link_path link hshort hne h.found h.kind
    · exact h.shortest link_path' link' hshort (fun heq => hne heq.symm) h'.found h'.kind
  subst hsame
  have hrest := h.split.symm.trans h'.split
  exact ⟨rfl, List.append_cancel_left hrest, Option.some.inj (h.found.symm.trans h'.found)⟩

theorem Rewrites.unique (h : Rewrites db ws follow_final path path')
    (h' : Rewrites db ws follow_final path path'') :
    path' = path'' := by
  obtain ⟨link_path, rest, link, target, base, hprefix, htarget, hbase, hsegments⟩ := h
  obtain ⟨_, _, _, target', base', hprefix', htarget', hbase', hsegments'⟩ := h'
  obtain ⟨rfl, rfl, rfl⟩ := hprefix.unique hprefix'
  obtain rfl := Option.some.inj (htarget.symm.trans htarget')
  obtain rfl := Option.some.inj (hbase.symm.trans hbase')
  exact VirtualPath.eq_of_segments_eq (hsegments.trans hsegments'.symm)

/-- Where the walk between two links stops at a link, it is the first of the path. -/
theorem link_prefix_of_descend {current_path : VirtualPath} {k : Nat}
    (hpath : path.segments = current_path.segments ++ pending)
    (hcurrent : resolve db ws current_path = some current)
    (h : descend db ws follow_final current pending k = .Link link rest) :
    ∃ link_path, LinkPrefix db ws follow_final path link_path rest link := by
  obtain ⟨mid, hpending, hwalk, hkind, hfinal⟩ := link_of_descend h
  obtain ⟨link_path, hlink_path⟩ := @prefix_of_segments path (current_path.segments ++ mid) rest (by
    rw [hpath, hpending, List.append_assoc])
  have hfound : resolve db ws link_path = some link := by
    unfold resolve at hcurrent ⊢
    split at hcurrent
    · cases hcurrent
    · rw [hlink_path, walk_split, hcurrent, Option.bind_some, hwalk]
  refine ⟨link_path, by rw [hpath, hpending, hlink_path, List.append_assoc], hfinal, hfound, hkind, ?_⟩
  rintro shorter raw ⟨beyond, hbeyond⟩ hne hshorter hlink
  obtain ⟨mid', hmid', hwalk'⟩ :=
    link_prefix_of_found hbeyond.symm hshorter (List.append_nil _).symm hfound hkind
  rw [List.append_nil] at hmid'
  subst hmid'
  cases beyond with
  | nil =>
    rw [List.append_nil] at hbeyond
    exact hne (VirtualPath.eq_of_segments_eq hbeyond)
  | cons segment beyond =>
    rw [walk, if_pos (by rw [hlink]; decide)] at hwalk'
    cases hwalk'

theorem descend_ne_loop {k : Nat} :
    descend db ws follow_final current pending k ≠ .Done .LinkLoop := by
  induction pending generalizing current k with
  | nil =>
    unfold descend
    split <;> simp
  | cons segment rest ih =>
    unfold descend
    split
    · split
      · exact ih
      · split <;> simp
    · simp
    · simp

/-- Following the first link of a path is one rewrite of it. -/
theorem follow_first_link {link_path : VirtualPath} (hlinked : db.Linked)
    (hdir : ∀ root, fetch_root db ws = some root → root.kind = .Directory)
    (h : LinkPrefix db ws follow_final path link_path rest link) : ∃ path' base base_path remaining,
      Rewrites db ws follow_final path path' ∧ follow_one db ws link = .Next base remaining ∧
        resolve db ws base_path = some base ∧
        path'.segments = base_path.segments ++ (remaining ++ rest) := by
  obtain ⟨n, hraw, hlive⟩ := resolve_live h.found
  have hkind := h.kind
  rw [← hraw] at hkind
  obtain ⟨target, htarget⟩ := hlinked n hlive.mem hkind
  obtain ⟨base, base_path, remaining, new, hfollow, hbase, hnew, hsegments⟩ :=
    @follow_one_replaced db ws link_path link target h.found h.kind hdir
      (by rw [← hraw]; exact htarget)
  have hall : ∀ s ∈ new.segments ++ rest, Segment s := by
    refine List.forall_mem_append.mpr ⟨fun s hs => VirtualPath.segment_of_mem hs, fun s hs => ?_⟩
    exact VirtualPath.segment_of_mem (p := path) (h.split ▸ List.mem_append_right _ hs)
  refine ⟨.ofSegments _ hall, base, base_path, remaining, ?_, hfollow, hbase, ?_⟩
  · exact ⟨link_path, rest, link, target.as_str, new,
      h, by rw [← hraw]; exact htarget, hnew, VirtualPath.segments_ofSegments hall⟩
  · rw [VirtualPath.segments_ofSegments, hsegments, List.append_assoc]

/-- On a path that cannot be rewritten the walk ends, where the plain one ends as well. -/
theorem descend_normal {current_path : VirtualPath} {k : Nat} (hlinked : db.Linked)
    (hdir : ∀ root, fetch_root db ws = some root → root.kind = .Directory)
    (hpath : path.segments = current_path.segments ++ pending)
    (hcurrent : resolve db ws current_path = some current)
    (h : Rewriting.Normal (Rewrites db ws follow_final) path) :
    ∃ outcome, descend db ws follow_final current pending k = .Done outcome ∧ outcome ≠ .LinkLoop ∧
      ∀ raw, outcome = .Found raw ↔ resolve db ws path = some raw := by
  have hwalk : resolve db ws path = walk db ws current pending := by
    unfold resolve at hcurrent ⊢
    split at hcurrent
    · cases hcurrent
    · rw [hpath, walk_split, hcurrent, Option.bind_some]
  cases hstop : descend db ws follow_final current pending k with
  | Link link rest =>
    obtain ⟨link_path, hprefix⟩ := link_prefix_of_descend hpath hcurrent hstop
    obtain ⟨path', _, _, _, hrewrites, _⟩ := follow_first_link hlinked hdir hprefix
    exact absurd hrewrites (h path')
  | Done outcome =>
    refine ⟨outcome, rfl, fun hloop => ?_, fun raw => ?_⟩
    · rw [hloop] at hstop
      exact descend_ne_loop hstop
    · rw [hwalk]
      constructor
      · rintro rfl
        exact (walk_of_descend hstop).1
      · intro hfound
        have hsplit := @descend_split db ws follow_final current raw [] pending k hfound
        rw [List.append_nil, hstop, descend] at hsplit
        split at hsplit
        · cases hsplit
        · exact WalkStop.Done.inj hsplit

/-- On such a path the loop ends at once. -/
theorem follow_loop_normal {current_path : VirtualPath} {hops k : Nat} (hlinked : db.Linked)
    (hdir : ∀ root, fetch_root db ws = some root → root.kind = .Directory)
    (hpath : path.segments = current_path.segments ++ pending)
    (hcurrent : resolve db ws current_path = some current)
    (h : Rewriting.Normal (Rewrites db ws follow_final) path) :
    follow_loop db ws follow_final hops current pending k ≠ .LinkLoop ∧
      ∀ raw, follow_loop db ws follow_final hops current pending k = .Found raw ↔
        resolve db ws path = some raw := by
  obtain ⟨outcome, hstop, hloop, hfound⟩ :=
    @descend_normal db ws follow_final path current pending current_path k hlinked hdir
    hpath hcurrent h
  cases hops <;> rw [follow_loop] <;> simp only [hstop] <;> exact ⟨hloop, hfound⟩

/-- The loop follows links as the path is rewritten, as often as it still may. -/
theorem follow_loop_rewrites {current_path : VirtualPath} {hops k : Nat} (hlinked : db.Linked)
    (hdir : ∀ root, fetch_root db ws = some root → root.kind = .Directory)
    (hpath : path.segments = current_path.segments ++ pending)
    (hcurrent : resolve db ws current_path = some current) :
    (follow_loop db ws follow_final hops current pending k = .LinkLoop ↔
      ∃ path', Rewriting.InSteps (Rewrites db ws follow_final) (hops + 1) path path') ∧
    ∀ n ≤ hops, ∀ path', Rewriting.InSteps (Rewrites db ws follow_final) n path path' →
      Rewriting.Normal (Rewrites db ws follow_final) path' →
        ∀ raw, follow_loop db ws follow_final hops current pending k = .Found raw ↔
          resolve db ws path' = some raw := by
  have hunique : ∀ a b c, Rewrites db ws follow_final a b → Rewrites db ws follow_final a c →
    b = c :=
    fun a b c hb hc => hb.unique hc
  induction hops generalizing path current current_path pending k with
  | zero =>
    by_cases hnormal : Rewriting.Normal (Rewrites db ws follow_final) path
    · obtain ⟨hloop, hfound⟩ :=
        @follow_loop_normal db ws follow_final path current pending current_path 0 k hlinked hdir hpath
        hcurrent hnormal
      refine ⟨iff_of_false hloop ?_, fun n hn path' hsteps _ => ?_⟩
      · rintro ⟨path', hsteps⟩
        exact absurd ((Rewriting.InSteps.normal_iff hnormal).mp hsteps).1 (Nat.succ_ne_zero _)
      · rw [← ((Rewriting.InSteps.normal_iff hnormal).mp hsteps).2]
        exact hfound
    · obtain ⟨path', hrewrites⟩ := not_forall_not.mp hnormal
      have hfirst := hrewrites
      obtain ⟨link_path, rest, link, _, _, hprefix, _⟩ := hfirst
      rw [follow_loop]
      simp only [descend_to_link hpath hcurrent hprefix]
      refine ⟨iff_of_true trivial ⟨path', .succ hrewrites (.zero path')⟩,
        fun n hn path'' hsteps hfinal => ?_⟩
      obtain rfl := Nat.le_zero.mp hn
      rw [← Rewriting.InSteps.zero_iff.mp hsteps] at hfinal
      exact absurd hrewrites (hfinal path')
  | succ hops ih =>
    by_cases hnormal : Rewriting.Normal (Rewrites db ws follow_final) path
    · obtain ⟨hloop, hfound⟩ :=
        @follow_loop_normal db ws follow_final path current pending current_path
        (hops + 1) k hlinked hdir
        hpath hcurrent hnormal
      refine ⟨iff_of_false hloop ?_, fun n hn path' hsteps _ => ?_⟩
      · rintro ⟨path', hsteps⟩
        exact absurd ((Rewriting.InSteps.normal_iff hnormal).mp hsteps).1 (Nat.succ_ne_zero _)
      · rw [← ((Rewriting.InSteps.normal_iff hnormal).mp hsteps).2]
        exact hfound
    · obtain ⟨_, link_path, rest, link, _, _, hprefix, _⟩ := not_forall_not.mp hnormal
      obtain ⟨path', base, base_path, remaining, hrewrites, hfollow, hbase, hsegments⟩ :=
        follow_first_link hlinked hdir hprefix
      rw [follow_loop]
      simp only [descend_to_link hpath hcurrent hprefix, hfollow]
      obtain ⟨hloop, hfound⟩ :=
        @ih path' base (remaining ++ rest) base_path remaining.length hsegments hbase
      refine ⟨hloop.trans (exists_congr
        (fun path'' => (Rewriting.InSteps.succ_iff hunique hrewrites).symm)), ?_⟩
      intro n hn path'' hsteps hfinal
      cases n with
      | zero =>
        rw [← Rewriting.InSteps.zero_iff.mp hsteps] at hfinal
        exact absurd hrewrites (hfinal path')
      | succ n =>
        exact hfound n (Nat.le_of_succ_le_succ hn) path''
          ((Rewriting.InSteps.succ_iff hunique hrewrites).mp hsteps) hfinal

/-- The lookup follows links as the path is rewritten. -/
theorem resolve_following_steps (hlinked : db.Linked)
    (hdir : ∀ root, fetch_root db ws = some root → root.kind = .Directory) :
    (resolve_following db ws path follow_final = .LinkLoop ↔
      ∃ path', Rewriting.InSteps (Rewrites db ws follow_final) (MAX_LINK_HOPS + 1) path path') ∧
    ∀ n ≤ MAX_LINK_HOPS, ∀ path', Rewriting.InSteps (Rewrites db ws follow_final) n path path' →
      Rewriting.Normal (Rewrites db ws follow_final) path' →
        ∀ raw, resolve_following db ws path follow_final = .Found raw ↔
          resolve db ws path' = some raw := by
  unfold resolve_following
  cases hroot : fetch_root db ws with
  | none =>
    -- without a root no path leads anywhere, and none is rewritten
    have hnone : ∀ path : VirtualPath, resolve db ws path = none := by
      intro path
      rw [resolve, hroot]
    have hnormal : Rewriting.Normal (Rewrites db ws follow_final) path := by
      rintro path' ⟨link_path, rest, link, _, _, hprefix, _⟩
      have hfound := hprefix.found
      rw [hnone] at hfound
      cases hfound
    refine ⟨iff_of_false (by simp) ?_, fun n _ path' _ _ raw => ?_⟩
    · rintro ⟨path', hsteps⟩
      exact absurd ((Rewriting.InSteps.normal_iff hnormal).mp hsteps).1 (Nat.succ_ne_zero _)
    · rw [hnone]
      simp
  | some root =>
    refine @follow_loop_rewrites db ws follow_final path root path.segments VirtualPath.root
      MAX_LINK_HOPS 0 hlinked hdir ?_ ?_
    · rw [VirtualPath.segments_root, List.nil_append]
    · rw [resolve, hroot, VirtualPath.segments_root]
      rfl

end resolve

/-- In every run the links store targets. -/
theorem Reached.linked {rt : Runtime} {c : System} (h : Reached rt (fun _ _ _ => True) c) :
    c.state.db.Linked := by
  unfold Reached at h
  induction h with
  | refl => exact fun n hn => absurd hn (Table.not_mem_empty n)
  | @tail c d hsteps hstep ih =>
    have hreached : Reached rt (fun c _ o => Policy.any.Allows rt c.state o) c :=
      Steps.mono hsteps (fun _ hp => hp) (fun c _ o _ => Policy.allows_any rt c.state o)
    cases hstep with
    | arrive => exact ih
    | advance => exact DbCall.exec_linked hreached.sound.wf ih

/-- A lookup that follows links agrees with rewriting the path. It comes to an end; it
reports a loop exactly where more than 40 rewrites are possible, and otherwise finds what
the path that is left after the last rewrite leads to without links. It agrees with the
plain lookup where no rewrite is possible, and stays in the workspace. -/
theorem resolve_following_rewrites (db : Db) (ws : WorkspaceId) (htree : TreeShaped db ws)
    (hlinked : db.Linked) (path : VirtualPath) (follow_final : Bool) :
    (resolve.resolve_following db ws path follow_final = .LinkLoop ↔
      ∃ path', Rewriting.InSteps (resolve.Rewrites db ws follow_final)
        (resolve.MAX_LINK_HOPS + 1) path path') ∧
    (resolve.resolve_following db ws path follow_final ≠ .LinkLoop → ∃ n ≤ resolve.MAX_LINK_HOPS,
    ∃ path',
      Rewriting.InSteps (resolve.Rewrites db ws follow_final) n path path' ∧
        Rewriting.Normal (resolve.Rewrites db ws follow_final) path' ∧
          ∀ raw, resolve.resolve_following db ws path follow_final = .Found raw ↔
            resolve.resolve db ws path' = some raw) ∧
    (Rewriting.Normal (resolve.Rewrites db ws follow_final) path → ∀ raw,
      resolve.resolve_following db ws path follow_final = .Found raw ↔
        resolve.resolve db ws path = some raw) ∧
    ∀ raw, resolve.resolve_following db ws path follow_final = .Found raw →
      raw.workspace_id = ws ∧ ∃ path', resolve.resolve db ws path' = some raw := by
  obtain ⟨r, hr, hrws, hrroot, hrdir, hronly, _⟩ := htree.root
  have hdir : ∀ root, resolve.fetch_root db ws = some root → root.kind = .Directory := by
    intro root hroot
    obtain ⟨n, hn, rfl, hws, hparent, _⟩ := resolve.fetch_root_eq_some hroot
    rw [hronly n hn hws hparent]
    exact hrdir
  obtain ⟨hloop, hfound⟩ := @resolve.resolve_following_steps db ws follow_final path hlinked hdir
  have hlast : resolve.resolve_following db ws path follow_final ≠ .LinkLoop →
    ∃ n ≤ resolve.MAX_LINK_HOPS, ∃ path',
      Rewriting.InSteps (resolve.Rewrites db ws follow_final) n path path' ∧
        Rewriting.Normal (resolve.Rewrites db ws follow_final) path' ∧
          ∀ raw, resolve.resolve_following db ws path follow_final = .Found raw ↔
            resolve.resolve db ws path' = some raw := by
    intro hne
    obtain ⟨n, hn, path', hsteps, hnormal⟩ :=
      Rewriting.exists_normal path (fun hmore => hne (hloop.mpr hmore))
    exact ⟨n, hn, path', hsteps, hnormal, hfound n hn path' hsteps hnormal⟩
  refine ⟨hloop, hlast, fun hnormal => hfound 0 (Nat.zero_le _) path (.zero path) hnormal,
    fun raw hraw => ?_⟩
  obtain ⟨_, _, path', _, _, hresolves⟩ :=
    hlast (by rw [hraw]; exact resolve.ResolveOutcome.noConfusion)
  have hresolve := (hresolves raw).mp hraw
  obtain ⟨n, rfl, hlive⟩ := resolve.resolve_live hresolve
  exact ⟨hlive.workspace, path', hresolve⟩

theorem linkWorld_tree_shaped : TreeShaped linkWorld.db 0 :=
  linkWorld_reachable.treeShaped_of_climbs (by decide +kernel) (by decide +kernel)

/-- The link of the workspace that has one is followed to the file. -/
theorem link_rewritten :
    (resolve.resolve_following linkWorld.db 0 (.ofSegments [['l']] (by decide)) true = .LinkLoop ↔
      ∃ path', Rewriting.InSteps (resolve.Rewrites linkWorld.db 0 true) (resolve.MAX_LINK_HOPS + 1)
        (.ofSegments [['l']] (by decide)) path') ∧
    (resolve.resolve_following linkWorld.db 0 (.ofSegments [['l']] (by decide)) true ≠ .LinkLoop →
      ∃ n ≤ resolve.MAX_LINK_HOPS, ∃ path',
        Rewriting.InSteps (resolve.Rewrites linkWorld.db 0 true) n
          (.ofSegments [['l']] (by decide)) path' ∧
          Rewriting.Normal (resolve.Rewrites linkWorld.db 0 true) path' ∧
            ∀ raw, resolve.resolve_following linkWorld.db 0
              (.ofSegments [['l']] (by decide)) true = .Found raw ↔
              resolve.resolve linkWorld.db 0 path' = some raw) ∧
    (Rewriting.Normal (resolve.Rewrites linkWorld.db 0 true) (.ofSegments [['l']] (by decide)) →
    ∀ raw,
      resolve.resolve_following linkWorld.db 0 (.ofSegments [['l']] (by decide)) true = .Found raw ↔
        resolve.resolve linkWorld.db 0 (.ofSegments [['l']] (by decide)) = some raw) ∧
    ∀ raw, resolve.resolve_following linkWorld.db 0
      (.ofSegments [['l']] (by decide)) true = .Found raw →
      raw.workspace_id = 0 ∧ ∃ path', resolve.resolve linkWorld.db 0 path' = some raw := by
  obtain ⟨c, hreached, hstate⟩ := linkWorld_reachable
  have hlinked := hreached.linked
  rw [hstate] at hlinked
  exact resolve_following_rewrites linkWorld.db 0 linkWorld_tree_shaped hlinked _ true

end fslite
