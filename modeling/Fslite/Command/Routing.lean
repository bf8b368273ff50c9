import Fslite.Command.Address

namespace fslite

open Url (Plain weigh utf8)
open routes

variable {lib : http.Libraries} {state : AppState} {self : RemoteExecutor} {ctx : RequestContext}
  {p : VirtualPath}

/-- The handlers of the commands that only look, behind the two routes they share. -/
def Command.view : Command → Option Handler
  | .Stat _ _ => some .stat_inner
  | .ReadLink _ => some .read_link
  | .ReadDir _ _ => some .read_dir
  | .Tree _ _ _ => some .tree
  | _ => none

def LINK_TARGET_NAME : Text := "link-target".toList

/-- The commands whose request names a node by the path alone. -/
inductive Command.Names (p : VirtualPath) : Command → Prop where
  | Stat (follow_symlinks : Bool) : Names p (.Stat p follow_symlinks)
  | Mkdir (options : CreateOptions) : Names p (.Mkdir p options)
  | Write (bytes : Bytes) (options : WriteOptions) : Names p (.Write p bytes options)
  | Remove (options : RemoveOptions) : Names p (.Remove p options)

/-- A stat of a plain path is dispatched as one unless the path ends in the suffix
of the links' route. -/
theorem stat_dispatch {rest : Text} (hrest : p.as_str = '/' :: rest) (hp : p ≠ .root)
    (hends : p.ends_in LINK_TARGET_NAME = false) :
    nodes.get_dispatch rest = (.stat_inner, rest) := by
  obtain ⟨rest', hrest', _, hsplit⟩ := VirtualPath.as_str_eq hp
  obtain rfl : rest = rest' := (List.cons.inj (hrest.symm.trans hrest')).2
  have hstrip := @VirtualPath.strip_suffix_isSome p rest LINK_TARGET_NAME hsplit (by decide)
  rw [hends] at hstrip
  have hnone : strip_suffix LINK_TARGET rest = none := by
    rw [← Option.not_isSome_iff_eq_none]
    exact fun h => Bool.false_ne_true (hstrip.mp h)
  rw [nodes.get_dispatch, hnone]

/-- Otherwise it is taken for a `read_link` of something else. -/
theorem stat_shadowed (hlib : lib.Standard ctx.workspace_id) (hgrants : state.Grants self.token ctx)
    (hp : p ≠ .root) (hplain : Plain p.as_str) (hends : p.ends_in LINK_TARGET_NAME = true)
    (follow_symlinks : Bool) {arrival : Arrival}
    (h : locate lib state (self.request lib ctx (.Stat p follow_symlinks)) = .ok arrival) :
    arrival.handler = .read_link ∧ arrival.path ≠ p := by
  obtain ⟨rest, hrest, hne, hsplit⟩ := VirtualPath.as_str_eq hp
  have hurl := @request_url lib self ctx (.Stat p follow_symlinks)
  simp only [Command.path, routes.Command.ending, hrest, List.append_nil] at hurl
  obtain ⟨front, hfront⟩ := Option.isSome_iff_exists.mp
    ((@VirtualPath.strip_suffix_isSome p rest LINK_TARGET_NAME hsplit (by decide)).mpr hends)
  have hdispatch : nodes.get_dispatch rest = (.read_link, front) := by
    rw [nodes.get_dispatch, show strip_suffix LINK_TARGET rest = some front from hfront]
  rw [locate_plain hlib hgrants hurl rfl rfl (hrest ▸ hplain) hne (hsplit ▸ p.segments_dots)] at h
  simp only [hdispatch, Except.bind] at h
  unfold parse_path at h
  cases hparse : VirtualPath.parse ('/' :: front) with
  | error err =>
    rw [hparse] at h
    cases h
  | ok path =>
    rw [hparse] at h
    cases h
    refine ⟨rfl, ?_⟩
    rintro rfl
    have hle := weigh_parse_le hparse hp
    have hpos : 0 < weigh (utf8 LINK_TARGET) := by decide
    have hwhole : rest = front ++ LINK_TARGET := strip_suffix_eq_some hfront
    rw [hrest, hwhole, ← List.cons_append, Url.utf8_append, Url.weigh_append] at hle
    omega

theorem strip_children_tree (rest : Text) : strip_suffix CHILDREN (rest ++ TREE) = none := by
  rw [Option.eq_none_iff_forall_ne_some]
  intro front hfront
  have hlast := congrArg List.getLast? (strip_suffix_eq_some hfront)
  rw [List.getLast?_append_of_ne_nil _ (by decide),
    List.getLast?_append_of_ne_nil _ (by decide)] at hlast
  revert hlast
  decide

/-- On a plain path, every command that only looks comes to its handler with that
path, except for a stat of a path with several names that ends in `link-target`. -/
theorem view_routed_iff (hlib : lib.Standard ctx.workspace_id)
    (hgrants : state.Grants self.token ctx) {command : Command} {handler : Handler}
    (hview : command.view = some handler) (hp : command.path ≠ .root)
    (hplain : Plain command.path.as_str) :
    locate lib state (self.request lib ctx command) = .ok ⟨ctx, handler, command.path⟩ ↔
      ¬ (handler = .stat_inner ∧ command.path.ends_in LINK_TARGET_NAME = true) := by
  cases command with
  | Stat path follow_symlinks =>
    cases hview
    constructor
    · rintro harrival ⟨_, hends⟩
      cases (stat_shadowed hlib hgrants hp hplain hends follow_symlinks harrival).1
    · intro hends
      obtain ⟨rest, hrest, _⟩ := VirtualPath.as_str_eq hp
      refine locate_path (.Stat path follow_symlinks) hlib hgrants hp hplain rfl hrest rfl ?_
      rw [stat_dispatch hrest hp (by simpa using hends)]
  | ReadLink path =>
    cases hview
    refine iff_of_true (locate_suffix _ hlib hgrants hp hplain rfl rfl (by decide) (fun rest => ?_))
      (fun h => absurd h.1 (by decide))
    rw [nodes.get_dispatch, show '/' :: "link-target".toList = LINK_TARGET from rfl,
      strip_suffix_append]
  | ReadDir path page =>
    cases hview
    refine iff_of_true (locate_suffix _ hlib hgrants hp hplain rfl rfl (by decide) (fun rest => ?_))
      (fun h => absurd h.1 (by decide))
    rw [directories.dispatch, show '/' :: "children".toList = CHILDREN from rfl,
      strip_suffix_append]
  | Tree path options page =>
    cases hview
    refine iff_of_true (locate_suffix _ hlib hgrants hp hplain rfl rfl (by decide) (fun rest => ?_))
      (fun h => absurd h.1 (by decide))
    rw [show '/' :: "tree".toList = TREE from rfl, directories.dispatch, strip_children_tree,
      strip_suffix_append]
  | _ => cases hview

/-- A stat, a write, a remove or a `mkdir` of a plain path comes to its handler with
that path, unless it is a stat that is dispatched otherwise. -/
theorem path_obtained (hlib : lib.Standard ctx.workspace_id) (hgrants : state.Grants self.token ctx)
    (hp : p ≠ .root) {command : Command} (hnames : command.Names p) (hplain : Plain p.as_str)
    (hends : ¬ (command.view = some .stat_inner ∧ p.ends_in LINK_TARGET_NAME = true)) :
    handled_path lib state (self.request lib ctx command) = some p := by
  obtain ⟨rest, hrest, _⟩ := VirtualPath.as_str_eq hp
  have hobtained : ∀ handler, locate lib state (self.request lib ctx command) = .ok
    ⟨ctx, handler, p⟩ →
      handled_path lib state (self.request lib ctx command) = some p := by
    intro handler harrival
    rw [handled_path, harrival]
    rfl
  cases hnames with
  | Stat follow_symlinks =>
    refine hobtained .stat_inner
      (locate_path (.Stat p follow_symlinks) hlib hgrants hp hplain rfl hrest rfl ?_)
    rw [stat_dispatch hrest hp (by simpa [Command.view] using hends)]
  | Mkdir options => exact hobtained .put_node (locate_path (.Mkdir p options) hlib hgrants hp hplain rfl hrest rfl rfl)
  | Write bytes options =>
    exact hobtained .write
      (locate_path (.Write p bytes options) hlib hgrants hp hplain rfl hrest rfl rfl)
  | Remove options => exact hobtained .remove (locate_path (.Remove p options) hlib hgrants hp hplain rfl hrest rfl rfl)

/-- The handler of a command obtains the command's path if and only if the path
is plain and, for a stat, does not end in the suffix of the links' route. -/
theorem path_obtained_iff (hlib : lib.Standard ctx.workspace_id)
    (hgrants : state.Grants self.token ctx) (hp : p ≠ .root) {command : Command}
    (hnames : command.Names p) :
    handled_path lib state (self.request lib ctx command) = some p ↔
      Plain p.as_str ∧ ¬ (command.view = some .stat_inner ∧ p.ends_in LINK_TARGET_NAME = true) := by
  refine ⟨fun h => ?_, fun h => path_obtained hlib hgrants hp hnames h.1 h.2⟩
  obtain ⟨rest, hrest, _⟩ := VirtualPath.as_str_eq hp
  have hpath : command.path = p := by cases hnames <;> rfl
  have hending : routes.Command.ending command = [] := by cases hnames <;> rfl
  have hurl := @request_url lib self ctx command
  rw [hending, hpath, List.append_nil, hrest] at hurl
  have hplain := plain_of_handled hlib hp hrest hurl h
  refine ⟨hplain, ?_⟩
  rintro ⟨hview, hends⟩
  obtain ⟨arrival, harrival, hobtained⟩ := handled_path_eq_some h
  cases hnames with
  | Stat follow_symlinks => exact (stat_shadowed hlib hgrants hp hplain hends follow_symlinks harrival).2 hobtained
  | _ => cases hview

/-- A query in the name of a file does not come to the handler. -/
theorem query_lost : handled_path .sample .sample
    (RemoteExecutor.sample.request .sample (.trusted 0)
    (.Remove (.ofSegments [['a', '?', 'b']] (by decide)) {})) =
    some (.ofSegments [['a']] (by decide)) ∧
    (VirtualPath.ofSegments [['a']] (by decide)) ≠ .ofSegments [['a', '?', 'b']] (by decide) := by
  refine ⟨?_, by decide⟩
  have hlocate := @locate_congr .sample .sample 0 http.Libraries.sample_standard
    (RemoteExecutor.sample.request .sample (.trusted 0)
      (.Remove (.ofSegments [['a', '?', 'b']] (by decide)) {}))
    (RemoteExecutor.sample.request .sample (.trusted 0)
      (.Remove (.ofSegments [['a']] (by decide)) {})) ?_ rfl rfl
  · rw [handled_path, hlocate]
    exact path_obtained http.Libraries.sample_standard AppState.sample_grants (by decide)
      (.Remove {}) (by decide) (by decide)
  · have hread : Url.read (VirtualPath.ofSegments [['a', '?', 'b']] (by decide)).as_str =
        Url.read (VirtualPath.ofSegments [['a']] (by decide)).as_str := by decide
    rw [request_url, request_url, Url.read_append (front_sound _), Url.read_append (front_sound _)]
    exact congrArg _ hread

theorem plain_path_obtained :
    handled_path .sample .sample (RemoteExecutor.sample.request .sample (.trusted 0)
    (.Remove (.ofSegments [['a']] (by decide)) {})) = some (.ofSegments [['a']] (by decide)) :=
  (path_obtained_iff http.Libraries.sample_standard AppState.sample_grants (by decide)
    (.Remove {})).mpr (by decide)

/-- A stat of a file named `link-target` reads the directory as a link. -/
theorem link_target_shadowed :
    locate .sample .sample (RemoteExecutor.sample.request .sample (.trusted 0)
    (.Stat (.ofSegments [['a'], LINK_TARGET_NAME] (by decide)) true)) =
      .ok ⟨.trusted 0, .read_link, .ofSegments [['a']] (by decide)⟩ := by
  have hurl := @request_url .sample RemoteExecutor.sample (.trusted 0)
    (.Stat (.ofSegments [['a'], LINK_TARGET_NAME] (by decide)) true)
  have htext : (VirtualPath.ofSegments [['a'], LINK_TARGET_NAME] (by decide)).as_str ++ [] = '/' ::
    ('a' :: LINK_TARGET) := by decide
  simp only [Command.path, routes.Command.ending, htext] at hurl
  rw [locate_plain http.Libraries.sample_standard AppState.sample_grants hurl rfl rfl (by decide)
    (by decide) (by decide)]
  have hdispatch : nodes.get_dispatch ('a' :: LINK_TARGET) = (.read_link, ['a']) := by decide
  simp only [hdispatch, Except.bind, @parse_path_as_str (.ofSegments [['a']] (by decide)) ['a'] rfl]

theorem stat_routed : locate .sample .sample (RemoteExecutor.sample.request .sample (.trusted 0)
    (.Stat (.ofSegments [['a'], ['b']] (by decide)) true)) =
      .ok ⟨.trusted 0, .stat_inner, .ofSegments [['a'], ['b']] (by decide)⟩ :=
  (view_routed_iff http.Libraries.sample_standard AppState.sample_grants rfl (by decide)
    (by decide)).mpr (by decide)

end fslite
