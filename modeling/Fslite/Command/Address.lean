import Fslite.Command.Remote
import Fslite.Server.Routes

namespace fslite

open Url (Plain weigh utf8 percent_encode percent_decode_bytes)

/-- The HTTP and JSON libraries do what their documentation says, as far as the paths of a
workspace depend on them: the URL parser ends the path at the first `?` or `#`, resolves dot
segments and escapes only characters that a path must not have, and the router matches patterns
segment by segment and reads the escapes in what they capture once. -/
structure http.Libraries.Standard (lib : http.Libraries) (ws : WorkspaceId) : Prop where
  path : ∃ encodes, Url.PathSet encodes ∧ ∀ url, lib.path url = Url.path encodes url
  query : ∀ url, lib.query url = Url.query url
  captures : ∀ parts segments, lib.captures parts segments = http.captured parts segments
  decodes : ∀ text, lib.percent_decode text = Url.percent_decode text
  parses : lib.workspace_id (uuid_text ws) = some ws

/-- The server knows the token, with the workspace and the capabilities of the context. -/
def AppState.Grants (state : AppState) (token : Text) (ctx : RequestContext) : Prop :=
  state.tokens token = some ⟨ctx.workspace_id, ctx.capabilities, ctx.actor_metadata⟩

/-- The path that the handler of a request obtains. -/
def routes.handled_path (lib : http.Libraries) (state : AppState) (request : http.Request) :
    Option VirtualPath :=
  (locate lib state request).toOption.map Arrival.path

section weight

theorem weigh_render_append (a b : List Text) :
    weigh (utf8 (render (a ++ b))) = weigh (utf8 (render a)) + weigh (utf8 (render b)) := by
  rw [render_append, Url.utf8_append, Url.weigh_append]

theorem weigh_normalize_step_le (normalized : List Text) (segment : Text) :
    weigh (utf8 (render (normalize_step normalized segment))) ≤ weigh
      (utf8 (render normalized)) + weigh (utf8 (render [segment])) := by
  unfold normalize_step
  split
  · exact Nat.le_add_right _ _
  · split
    · cases normalized using List.reverseRecOn with
      | nil => exact Nat.le_add_right _ _
      | append_singleton front last =>
        rw [List.dropLast_concat, weigh_render_append]
        omega
    · rw [weigh_render_append]

theorem weigh_foldl_normalize_le (segments normalized : List Text) :
    weigh (utf8 (render (segments.foldl normalize_step normalized))) ≤ weigh
      (utf8 (render normalized)) + weigh (utf8 (render segments)) := by
  induction segments generalizing normalized with
  | nil => exact Nat.le_add_right _ _
  | cons segment rest ih =>
    have hstep := weigh_normalize_step_le normalized segment
    have hrest := ih (normalize_step normalized segment)
    have hcons := weigh_render_append [segment] rest
    rw [List.singleton_append] at hcons
    rw [List.foldl_cons]
    omega

/-- Normalization makes no text heavier. -/
theorem weigh_parse_le {raw : Text} {p : VirtualPath} (h : VirtualPath.parse ('/' :: raw) = .ok p)
    (hp : p ≠ .root) :
    weigh (utf8 p.as_str) ≤ weigh (utf8 ('/' :: raw)) := by
  unfold VirtualPath.parse at h
  split at h
  · cases h
  · cases h
    have hsplit : ('/' :: raw).splitOn '/' = [] :: raw.splitOn '/' :=
      List.splitOn_append_cons_self [] raw
    have hraw : '/' :: raw = render (raw.splitOn '/') := by
      rw [render_eq_intercalate (List.splitOn_ne_nil _ _), List.intercalate_splitOn]
    have hfold := weigh_foldl_normalize_le (raw.splitOn '/') []
    show weigh (utf8 (normalize (('/' :: raw).splitOn '/'))) ≤ _
    rw [normalize_eq, hsplit, List.foldl_cons, canonicalText,
      show normalize_step [] [] = [] from rfl]
    by_cases hnil : (raw.splitOn '/').foldl normalize_step [] = []
    · refine absurd (VirtualPath.ext ?_) hp
      show normalize (('/' :: raw).splitOn '/') = ['/']
      rw [normalize_eq, hsplit, List.foldl_cons, canonicalText,
        show normalize_step [] [] = [] from rfl, if_pos hnil]
    · rw [if_neg hnil, hraw]
      simpa [render] using hfold

end weight

section front

variable {lib : http.Libraries} {ws : WorkspaceId}

theorem uuid_text_chars {c : Char} (h : c ∈ uuid_text ws) : c.isAlphanum = true ∨ c = '-' := by
  have hdigit : ∀ n < 16, (Nat.digitChar n).isAlphanum = true := by decide
  have hhex : ∀ c ∈ hex 32 ws, c.isAlphanum = true := by
    intro c hc
    obtain ⟨i, _, rfl⟩ := List.mem_map.mp hc
    exact hdigit _ (Nat.mod_lt _ (by decide))
  simp only [uuid_text, List.mem_append, List.mem_cons] at h
  obtain ((((h | rfl | h) | rfl | h) | rfl | h) | rfl | h) := h
  · exact Or.inl (hhex c (List.mem_of_mem_take h))
  · exact Or.inr rfl
  · exact Or.inl (hhex c (List.mem_of_mem_drop (List.mem_of_mem_take h)))
  · exact Or.inr rfl
  · exact Or.inl (hhex c (List.mem_of_mem_drop (List.mem_of_mem_take h)))
  · exact Or.inr rfl
  · exact Or.inl (hhex c (List.mem_of_mem_drop (List.mem_of_mem_take h)))
  · exact Or.inr rfl
  · exact Or.inl (hhex c (List.mem_of_mem_drop h))

theorem uuid_text_ne_nil : uuid_text ws ≠ [] := by
  rw [uuid_text]
  simp

namespace routes

/-- What the URL of a command has before the slash of its path. -/
def front (ws : WorkspaceId) (r : Resource) : Text :=
  "/v1/workspaces/".toList ++ uuid_text ws ++ '/' :: r.segment

/-- The segments of the front of a URL. -/
def front_names (ws : WorkspaceId) (r : Resource) : List Text :=
  [V1, WORKSPACES, uuid_text ws, r.segment]

theorem front_names_chars {r : Resource} {s : Text} (hs : s ∈ front_names ws r) :
    s ≠ [] ∧ ∀ c ∈ s, c.isAlphanum = true ∨ c = '-' := by
  have hnames : ∀ s ∈ [V1, WORKSPACES, r.segment], s ≠ [] ∧
    s.all (fun c => c.isAlphanum || c = '-') = true := by cases r <;> decide
  have hname : s ∈ [V1, WORKSPACES, r.segment] → s ≠ [] ∧ ∀ c ∈ s, c.isAlphanum = true ∨
      c = '-' := by
    intro hmem
    obtain ⟨hne, hall⟩ := hnames s hmem
    refine ⟨hne, fun c hc => ?_⟩
    simpa using List.all_eq_true.mp hall c hc
  simp only [front_names, List.mem_cons, List.not_mem_nil, or_false] at hs
  obtain hs | hs | rfl | hs := hs
  · exact hname (by simp [hs])
  · exact hname (by simp [hs])
  · exact ⟨uuid_text_ne_nil, fun c hc => uuid_text_chars hc⟩
  · exact hname (by simp [hs])

theorem front_eq (r : Resource) : front ws r = ['/'].intercalate ([] :: front_names ws r) := by
  have htext : "/v1/workspaces/".toList = '/' :: (V1 ++ '/' :: (WORKSPACES ++ ['/'])) := by decide
  unfold front front_names
  generalize uuid_text ws = id
  rw [htext]
  simp [List.intercalate_cons_cons]

theorem front_split (r : Resource) : (front ws r).splitOn '/' = [] :: front_names ws r := by
  rw [front_eq]
  refine List.splitOn_intercalate _ (fun s hs => ?_) (List.cons_ne_nil _ _)
  obtain rfl | hs := List.mem_cons.mp hs
  · exact List.not_mem_nil
  · intro hslash
    obtain h | h := (front_names_chars hs).2 '/' hslash <;> revert h <;> decide

theorem front_chars {r : Resource} {c : Char} (h : c ∈ front ws r) :
    c.isAlphanum = true ∨ c = '-' ∨ c = '/' := by
  have htext : "/v1/workspaces/".toList.all (fun c => c.isAlphanum || c = '/') = true := by decide
  obtain hc | hc := List.mem_append.mp h
  · obtain hc | hc := List.mem_append.mp hc
    · have hchar := List.all_eq_true.mp htext c hc
      rw [Bool.or_eq_true, decide_eq_true_eq] at hchar
      exact hchar.imp_right Or.inr
    · exact (uuid_text_chars hc).imp_right Or.inl
  · obtain rfl | hc := List.mem_cons.mp hc
    · exact Or.inr (Or.inr rfl)
    · exact ((@front_names_chars ws r r.segment (by simp [front_names])).2 c hc).imp_right Or.inl

theorem front_sound (r : Resource) : Url.Sound (front ws r) := by
  have hfree : ∀ c : Char, c.isAlphanum = true ∨ c = '-' ∨ c = '/' →
      c ∉ ['\t', '\n', '\r', '?', '#', '\\'] := by
    intro c hc hmem
    simp only [List.mem_cons, List.not_mem_nil, or_false] at hmem
    obtain rfl | rfl | rfl | rfl | rfl | rfl := hmem <;> revert hc <;> decide
  refine ⟨fun c hc => ?_, fun c hc => hfree c (front_chars hc)⟩
  have hsegment : ('/' :: r.segment).getLast?.all (fun c => ' ' < c) = true := by cases r <;> decide
  obtain ⟨before, hbefore⟩ : ∃ before, front ws r = before ++ '/' :: r.segment := ⟨_, rfl⟩
  rw [hbefore, List.getLast?_append_of_ne_nil _ (List.cons_ne_nil _ _)] at hc
  rw [hc] at hsegment
  simpa using hsegment

variable {encodes : Char → Bool}

theorem front_segments_eq (hset : Url.PathSet encodes) (r : Resource) :
    Url.front_segments encodes (front ws r) = front_names ws r := by
  rw [Url.front_segments, front_split, List.tail_cons]
  refine (List.map_congr_left fun s hs => ?_).trans (List.map_id' _)
  refine Url.percent_encode_self (fun c hc => ?_)
  obtain h | rfl := (front_names_chars hs).2 c hc
  · exact hset.alphanum c h
  · exact hset.hyphen

theorem front_dots {r : Resource} : ∀ s ∈ front_names ws r, Url.is_dots s = false := by
  intro s hs
  obtain ⟨hne, hchars⟩ := front_names_chars hs
  rw [← Bool.not_eq_true]
  intro hdots
  have hfirst : ∀ s, Url.is_dots s = true → '.' ∈ s ∨ '%' ∈ s := by
    intro s hs
    simp only [Url.is_dots, Url.is_single_dot, Url.is_double_dot, Bool.or_eq_true,
      decide_eq_true_eq, List.mem_cons,
      List.not_mem_nil, or_false] at hs
    obtain (rfl | rfl | rfl) | rfl | rfl | rfl | rfl | rfl | rfl | rfl | rfl | rfl := hs <;> decide
  obtain h | h := hfirst s hdots
  · obtain h | h := hchars '.' h <;> revert h <;> decide
  · obtain h | h := hchars '%' h <;> revert h <;> decide

theorem front_segments_dots (hset : Url.PathSet encodes) {r : Resource} :
    ∀ s ∈ Url.front_segments encodes (front ws r), Url.is_dots s = false := by
  rw [front_segments_eq hset]
  exact front_dots

section locate

variable {lib : http.Libraries} {state : AppState} {self : RemoteExecutor} {ctx : RequestContext}
  {r : Resource} {request : http.Request} {rest : Text}

/-- A path that a route matches has the resource's name in front of what the wildcard captures. -/
theorem captured_pattern {segments captures : List Text} :
    http.captured r.pattern segments = some captures ↔
      ∃ id rest, segments = V1 :: WORKSPACES :: id :: r.segment :: rest ∧ id ≠ [] ∧
        (rest ≠ [] ∧ rest ≠ [[]]) ∧ captures = [id, ['/'].intercalate rest] := by
  constructor
  · intro h
    unfold Resource.pattern at h
    match segments with
    | [] | [_] | [_, _] | [_, _, _] =>
      simp [http.captured] at h
    | v1 :: workspaces :: id :: segment :: rest =>
      simp only [http.captured, Option.ite_none_left_eq_some, Option.ite_none_right_eq_some,
        Option.map_eq_some_iff, not_or, Option.some.injEq] at h
      obtain ⟨rfl, rfl, hid, _, ⟨rfl, hrest, rfl⟩, rfl⟩ := h
      exact ⟨id, rest, rfl, hid, hrest, rfl⟩
  · rintro ⟨id, rest, rfl, hid, hrest, rfl⟩
    simp [Resource.pattern, http.captured, hid, hrest]

theorem Resource.matched_eq_some {ws : WorkspaceId} (hlib : lib.Standard ws)
    {segments : List Text} {matched : Matched} :
    r.matched lib segments = some matched ↔ ∃ rest, matched.resource = r ∧
      segments = V1 :: WORKSPACES :: matched.workspace_id :: r.segment :: rest ∧
        matched.workspace_id ≠ [] ∧ (rest ≠ [] ∧ rest ≠ [[]]) ∧
        matched.path = ['/'].intercalate rest := by
  unfold Resource.matched
  rw [hlib.captures]
  constructor
  · intro h
    split at h
    · rename_i id path hcaptured
      cases h
      obtain ⟨id', rest, hsegments, hid, hrest, heq⟩ := captured_pattern.mp hcaptured
      cases heq
      exact ⟨rest, rfl, hsegments, hid, hrest, rfl⟩
    · cases h
  · rintro ⟨rest, rfl, hsegments, hid, hrest, hpath⟩
    rw [captured_pattern.mpr ⟨_, rest, hsegments, hid, hrest, rfl⟩, ← hpath]

theorem find_matched {ws : WorkspaceId} (hlib : lib.Standard ws) {segments : List Text}
    {matched : Matched} (h : find lib segments = some matched) :
    weigh (utf8 ['/']) + weigh (percent_decode_bytes matched.path) = Url.total
      (segments.drop 4) := by
  have hslash : weigh (utf8 ['/']) = 1 := by decide
  obtain ⟨r, _, hr⟩ := List.exists_of_findSome?_eq_some h
  obtain ⟨rest, _, rfl, _, hrest, hpath⟩ := (Resource.matched_eq_some hlib).mp hr
  show _ = Url.total rest
  rw [hpath, Url.total_intercalate hrest.1, hslash]

/-- No path is matched by the patterns of two resources. -/
theorem find_eq_some {ws : WorkspaceId} (hlib : lib.Standard ws) {segments : List Text}
    {matched : Matched} (h : matched.resource.matched lib segments = some matched) :
    find lib segments = some matched := by
  obtain ⟨rest, _, hsegments, _⟩ := (Resource.matched_eq_some hlib).mp h
  have hothers : ∀ r : Resource, r.segment ≠ matched.resource.segment →
      r.matched lib segments = none := by
    intro r hne
    rw [Option.eq_none_iff_forall_ne_some]
    intro other hother
    obtain ⟨rest', _, hsegments', _⟩ := (Resource.matched_eq_some hlib).mp hother
    rw [hsegments] at hsegments'
    simp only [List.cons.injEq] at hsegments'
    exact hne hsegments'.2.2.2.1.symm
  unfold find
  cases hr : matched.resource with
  | fs =>
    rw [hr] at h
    simp only [List.findSome?_cons, h]
  | directories =>
    rw [hr] at h hothers
    simp only [List.findSome?_cons, hothers .fs (by decide), h]
  | content =>
    rw [hr] at h hothers
    simp only [List.findSome?_cons, hothers .fs (by decide), hothers .directories (by decide), h]

/-- What a handler has of the path is a part of what the route has captured. -/
theorem dispatch_sublist {method : http.Method} {handle : Text → Except ApiError (Handler × Text)}
    (hdispatch : dispatch r method = some handle) {capture raw : Text} {handler : Handler}
    (h : handle capture = .ok (handler, raw)) :
    raw.Sublist capture := by
  have hstrip : ∀ suffix front : Text, strip_suffix suffix capture = some front →
      front.Sublist capture := by
    intro suffix front hfront
    rw [strip_suffix_eq_some hfront]
    exact List.sublist_append_left _ _
  have hnodes : (nodes.get_dispatch capture).2.Sublist capture := by
    unfold nodes.get_dispatch
    split
    · rename_i front hfront
      exact hstrip _ _ hfront
    · exact List.Sublist.refl _
  have hdirectories : directories.dispatch capture = .ok (handler, raw) → raw.Sublist capture := by
    intro hdirectories
    unfold directories.dispatch at hdirectories
    split at hdirectories
    · rename_i front hfront
      cases hdirectories
      exact hstrip _ _ hfront
    · split at hdirectories
      · rename_i front hfront
        cases hdirectories
        exact hstrip _ _ hfront
      · cases hdirectories
  cases r <;> cases method <;> cases hdispatch
  case fs.GET =>
    obtain rfl : (nodes.get_dispatch capture).2 = raw := congrArg Prod.snd (Except.ok.inj h)
    exact hnodes
  case directories.GET => exact hdirectories h
  case directories.HEAD => exact hdirectories h
  all_goals
    cases h
    exact List.Sublist.refl _

theorem extract_ok {matched : Matched} {authorization : Option Text} {capture : Text}
    (h : extract lib state authorization matched = .ok (ctx, capture)) :
    lib.percent_decode matched.path = some capture := by
  unfold extract at h
  cases hactor : state.authenticate authorization with
  | error err =>
    rw [hactor] at h
    cases h
  | ok actor =>
    rw [hactor] at h
    simp only [bind, Except.bind] at h
    split at h
    · rename_i hpath
      split at h
      · cases h
      · split at h
        · cases h
        · cases h
          exact hpath
    · cases h

theorem locate_ok {arrival : Arrival} (h : locate lib state request = .ok arrival) :
    ∃ matched handle capture raw, find lib (lib.path request.url) = some matched ∧
      dispatch matched.resource request.method = some handle ∧
      lib.percent_decode matched.path = some capture ∧
      handle capture = .ok (arrival.handler, raw) ∧
      VirtualPath.parse ('/' :: raw) = .ok arrival.path := by
  unfold locate at h
  split at h
  · cases h
  · rename_i matched hmatched
    split at h
    · cases h
    · rename_i handle hhandle
      cases hextract : extract lib state request.authorization matched with
      | error err =>
        rw [hextract] at h
        cases h
      | ok extracted =>
        obtain ⟨ctx, capture⟩ := extracted
        rw [hextract] at h
        simp only [bind, Except.bind] at h
        cases hhandled : handle capture with
        | error err =>
          rw [hhandled] at h
          cases h
        | ok handled =>
          obtain ⟨handler, raw⟩ := handled
          rw [hhandled] at h
          simp only at h
          unfold parse_path at h
          cases hparse : VirtualPath.parse ('/' :: raw) with
          | error err =>
            rw [hparse] at h
            cases h
          | ok path =>
            rw [hparse] at h
            cases h
            exact ⟨matched, handle, capture, raw, hmatched, hhandle, extract_ok hextract, hhandled,
              hparse⟩

theorem handled_path_eq_some {p : VirtualPath} (h : handled_path lib state request = some p) :
    ∃ arrival, locate lib state request = .ok arrival ∧ arrival.path = p := by
  unfold handled_path at h
  cases harrival : locate lib state request with
  | error err =>
    rw [harrival] at h
    cases h
  | ok arrival =>
    rw [harrival] at h
    exact ⟨arrival, rfl, Option.some.inj h⟩

/-- A handler obtains the path that the client has put into the URL only if that
path is plain. -/
theorem plain_of_handled (hlib : lib.Standard ctx.workspace_id) {p : VirtualPath} (hp : p ≠ .root)
    (hrest : p.as_str = '/' :: rest) (hurl : request.url = front ctx.workspace_id r ++ '/' :: rest)
    (h : handled_path lib state request = some p) :
    Plain p.as_str := by
  obtain ⟨arrival, harrival, rfl⟩ := handled_path_eq_some h
  obtain ⟨matched, handle, capture, raw, hmatched, hdispatch, hcapture, hhandle, hparse⟩ :=
    locate_ok harrival
  obtain ⟨encodes, hset, hurls⟩ := hlib.path
  have htotal := find_matched hlib hmatched
  have hbytes := Url.utf8_of_decode ((hlib.decodes _).symm.trans hcapture)
  have hraw := Url.weigh_sublist ((dispatch_sublist hdispatch hhandle).cons_cons '/')
  have hparsed := weigh_parse_le hparse hp
  have hlength : (Url.front_segments encodes (front ctx.workspace_id r)).length = 4 := by
    rw [front_segments_eq hset]
    rfl
  rw [hrest]
  refine Url.plain_of_path_drop hset (@front_sound ctx.workspace_id r)
    (front_segments_dots hset) ?_
  rw [hlength, ← hurl, ← hurls, ← htotal, ← hbytes, ← hrest, ← Url.weigh_append,
    ← Url.utf8_append]
  exact hparsed.trans hraw

/-- A plain path comes to its handler as it is. -/
theorem locate_plain (hlib : lib.Standard ctx.workspace_id) (hgrants : state.Grants self.token ctx)
    {handle : Text → Except ApiError (Handler × Text)}
    (hurl : request.url = front ctx.workspace_id r ++ '/' :: rest)
    (hauth : request.authorization = self.bearer_auth)
    (hdispatch : dispatch r request.method = some handle) (hplain : Plain ('/' :: rest))
    (hne : rest ≠ []) (hdots : ∀ s ∈ rest.splitOn '/', s ≠ ['.'] ∧ s ≠ ['.', '.']) :
    locate lib state request = (handle rest).bind (fun handled =>
      (parse_path handled.2).bind (fun path => .ok ⟨ctx, handled.1, path⟩)) := by
  obtain ⟨encodes, hset, hurls⟩ := hlib.path
  have hpath : lib.path request.url =
      front_names ctx.workspace_id r ++ (rest.splitOn '/').map (percent_encode encodes) := by
    rw [hurls, hurl, Url.path_of_plain (front_sound r) (front_segments_dots hset) hplain hdots,
      front_segments_eq hset]
  have hjoin : ['/'].intercalate ((rest.splitOn '/').map (percent_encode encodes)) =
      percent_encode encodes rest := by
    rw [← Url.percent_encode_intercalate hset, List.intercalate_splitOn]
  have hescapes := hplain.unescaped
  rw [Url.escapes_slash] at hescapes
  have hdecode : Url.percent_decode (percent_encode encodes rest) = some rest := by
    rw [Url.percent_decode, Url.percent_decode_encode hescapes, Url.utf8_decode_utf8]
  have hfind : find lib (lib.path request.url) =
      some ⟨uuid_text ctx.workspace_id, r, percent_encode encodes rest⟩ := by
    refine find_eq_some hlib ((Resource.matched_eq_some hlib).mpr
      ⟨_, rfl, hpath, uuid_text_ne_nil, ⟨fun hnil => ?_, fun hnil => hne ?_⟩, hjoin.symm⟩)
    · exact List.splitOn_ne_nil _ _ (List.map_eq_nil_iff.mp hnil)
    · change (rest.splitOn '/').map (percent_encode encodes) = [[]] at hnil
      rw [hnil, List.intercalate_singleton] at hjoin
      rw [← hjoin, Url.percent_decode] at hdecode
      exact Url.utf8_inj (Url.utf8_of_decode hdecode)
  have hid : lib.percent_decode (uuid_text ctx.workspace_id) =
      some (uuid_text ctx.workspace_id) := by
    rw [hlib.decodes]
    refine Url.percent_decode_self (Url.escapes_of_not_mem (fun hmem => ?_))
    obtain h | h := uuid_text_chars hmem <;> revert h <;> decide
  have hactor : state.authenticate request.authorization = .ok
      ⟨ctx.workspace_id, ctx.capabilities, ctx.actor_metadata⟩ := by
    rw [hauth, RemoteExecutor.bearer_auth, AppState.authenticate]
    simp only [strip_prefix_append]
    rw [hgrants]
  have hextract : extract lib state request.authorization
      ⟨uuid_text ctx.workspace_id, r, percent_encode encodes rest⟩ = .ok (ctx, rest) := by
    rw [← hlib.decodes] at hdecode
    rw [extract, hactor]
    simp only [bind, Except.bind, hid, hdecode, hlib.parses, ne_eq, not_true_eq_false, if_false]
  rw [locate, hfind]
  simp only [hdispatch, hextract]
  rfl

end locate

end routes

end front

namespace VirtualPath

/-- Whether a path has several names, the last of which is the given one. -/
def ends_in (p : VirtualPath) (name : Text) : Bool :=
  2 ≤ p.segments.length ∧ p.segments.getLast? = some name

/-- The text of a path behind its first slash. -/
theorem as_str_eq {p : VirtualPath} (hp : p ≠ root) :
    ∃ rest, p.as_str = '/' :: rest ∧ rest ≠ [] ∧ rest.splitOn '/' = p.segments := by
  have hne : p.segments ≠ [] := fun h => hp (eq_of_segments_eq (h.trans segments_root.symm))
  have hsplit : (['/'].intercalate p.segments).splitOn '/' = p.segments :=
    List.splitOn_intercalate _ (fun s hs => (segment_of_mem hs).raw.1) hne
  refine ⟨_, ?_, fun hnil => ?_, hsplit⟩
  · rw [as_str, canonical_eq, canonicalText, if_neg hne, render_eq_intercalate hne]
  · rw [hnil, List.splitOn_nil] at hsplit
    exact (segment_of_mem (hsplit ▸ List.mem_singleton_self _)).1 rfl

theorem segments_dots (p : VirtualPath) : ∀ s ∈ p.segments, s ≠ ['.'] ∧ s ≠ ['.', '.'] :=
  fun _ hs => ⟨(segment_of_mem hs).2.1, (segment_of_mem hs).2.2.1⟩

/-- The suffix of a route can be stripped from the text of a path if and only if
the path has several names and ends in that of the suffix. -/
theorem strip_suffix_isSome {p : VirtualPath} {rest name : Text}
    (hrest : rest.splitOn '/' = p.segments) (hname : '/' ∉ name) :
    (strip_suffix ('/' :: name) rest).isSome = true ↔ p.ends_in name = true := by
  have hsingle : name.splitOn '/' = [name] := List.splitOn_eq_singleton hname
  rw [ends_in, decide_eq_true_eq]
  constructor
  · intro h
    obtain ⟨front, hfront⟩ := Option.isSome_iff_exists.mp h
    rw [strip_suffix_eq_some hfront, List.splitOn_append_cons_self, hsingle] at hrest
    have hpos := List.length_pos_of_ne_nil (List.splitOn_ne_nil '/' front)
    rw [← hrest, List.length_append, List.length_singleton, List.getLast?_concat]
    exact ⟨by omega, rfl⟩
  · rintro ⟨hlength, hlast⟩
    obtain ⟨front, hfront⟩ := List.getLast?_eq_some_iff.mp hlast
    have hne : front ≠ [] := by
      rintro rfl
      rw [hfront] at hlength
      simp at hlength
    have hjoin : ['/'].intercalate (rest.splitOn '/') = rest := List.intercalate_splitOn '/'
    have hrender : '/' :: rest = '/' :: (['/'].intercalate front ++ '/' :: name) := by
      rw [← hjoin, hrest, hfront, ← render_eq_intercalate (by simp), render_append,
        render_eq_intercalate hne]
      simp [render]
    rw [(List.cons.inj hrender).2, strip_suffix_append]
    rfl

end VirtualPath

namespace routes

variable {lib : http.Libraries} {state : AppState} {self : RemoteExecutor} {ctx : RequestContext}
  {p : VirtualPath}

/-- The route that answers a command. -/
def Command.resource : Command → Resource
  | .ReadDir _ _ => .directories
  | .Tree _ _ _ => .directories
  | .Read _ _ => .content
  | .Write _ _ _ => .content
  | .WriteAt _ _ _ _ => .content
  | .Append _ _ _ => .content
  | .Truncate _ _ _ => .content
  | _ => .fs

/-- What the URL of a command has behind the command's path. -/
def Command.ending : Command → Text
  | .ReadDir _ _ => CHILDREN
  | .Tree _ _ _ => TREE
  | .ReadLink _ => LINK_TARGET
  | _ => []

theorem request_url (command : Command) : (self.request lib ctx command).url =
    front ctx.workspace_id (Command.resource command) ++
      (command.path.as_str ++ Command.ending command) := by
  have hfs : RemoteExecutor.FS = '/' :: Resource.fs.segment := by decide
  have hcontent : RemoteExecutor.CONTENT = '/' :: Resource.content.segment := by decide
  have hdirectories : RemoteExecutor.DIRECTORIES = '/' :: Resource.directories.segment := by decide
  have hchildren : "/children".toList = CHILDREN := by decide
  have htree : "/tree".toList = TREE := by decide
  have hlink : "/link-target".toList = LINK_TARGET := by decide
  have hsuffix : RemoteExecutor.Command.suffix command =
      ('/' :: (Command.resource command).segment) ++
        (command.path.as_str ++ Command.ending command) := by
    cases command <;>
      simp only [RemoteExecutor.Command.suffix, Command.resource, Command.ending, Command.path, hfs,
        hcontent, hdirectories, hchildren,
        htree, hlink, List.append_nil, List.append_assoc]
  unfold RemoteExecutor.request RemoteExecutor.url front
  generalize uuid_text ctx.workspace_id = id
  rw [hsuffix, List.append_assoc, List.append_assoc, List.append_assoc]

theorem parse_path_as_str {rest : Text} (h : p.as_str = '/' :: rest) : parse_path rest = .ok p := by
  rw [parse_path, ← h, VirtualPath.parse_as_str]
  rfl

/-- The request of a command on a plain path comes to its handler with that path. -/
theorem locate_path (command : Command) (hlib : lib.Standard ctx.workspace_id)
    (hgrants : state.Grants self.token ctx) (hp : command.path ≠ .root)
    (hplain : Plain command.path.as_str) {handle : Text → Except ApiError (Handler × Text)}
    (hdispatch : dispatch (Command.resource command)
    (RemoteExecutor.Command.method command) = some handle) {rest : Text}
    (hrest : command.path.as_str = '/' :: rest) (hending : Command.ending command = [])
    {handler : Handler} (hhandle : handle rest = .ok (handler, rest)) :
    locate lib state (self.request lib ctx command) = .ok ⟨ctx, handler, command.path⟩ := by
  obtain ⟨rest', hrest', hne, hsplit⟩ := VirtualPath.as_str_eq hp
  obtain rfl : rest = rest' := (List.cons.inj (hrest.symm.trans hrest')).2
  have hurl := @request_url lib self ctx command
  rw [hending, List.append_nil, hrest] at hurl
  rw [hrest] at hplain
  rw [locate_plain hlib hgrants hurl rfl hdispatch hplain hne (hsplit ▸ command.path.segments_dots),
    hhandle]
  simp only [Except.bind, parse_path_as_str hrest]

/-- The request of a command that puts the suffix of a route behind a plain path
comes to the handler of the suffix, with that path. -/
theorem locate_suffix (command : Command) (hlib : lib.Standard ctx.workspace_id)
    (hgrants : state.Grants self.token ctx) (hp : command.path ≠ .root)
    (hplain : Plain command.path.as_str) {handle : Text → Except ApiError (Handler × Text)}
    {name : Text} (hdispatch : dispatch (Command.resource command)
    (RemoteExecutor.Command.method command) = some handle)
    (hending : Command.ending command = '/' :: name) {handler : Handler}
    (hname : Segment name ∧ Plain name)
    (hhandle : ∀ rest, handle (rest ++ '/' :: name) = .ok (handler, rest)) :
    locate lib state (self.request lib ctx command) = .ok ⟨ctx, handler, command.path⟩ := by
  obtain ⟨rest, hrest, hne, hsplit⟩ := VirtualPath.as_str_eq hp
  have hplain' := Plain.append_slash hplain hname.2 hname.1.1
  have hurl := @request_url lib self ctx command
  rw [hending, hrest, List.cons_append] at hurl
  rw [hrest, List.cons_append] at hplain'
  have hdots : ∀ s ∈ (rest ++ '/' :: name).splitOn '/', s ≠ ['.'] ∧ s ≠ ['.', '.'] := by
    rw [List.splitOn_append_cons_self, hsplit, List.splitOn_eq_singleton hname.1.raw.1]
    intro s hs
    obtain hs | hs := List.mem_append.mp hs
    · exact command.path.segments_dots s hs
    · rw [List.mem_singleton.mp hs]
      exact ⟨hname.1.2.1, hname.1.2.2.1⟩
  rw [locate_plain hlib hgrants hurl rfl hdispatch hplain' (by simp) hdots, hhandle]
  simp only [Except.bind, parse_path_as_str hrest]

/-- Where a request goes depends on what the URL parser reads of its URL. -/
theorem locate_congr {ws : WorkspaceId} (hlib : lib.Standard ws) {a b : http.Request}
    (hurl : Url.read a.url = Url.read b.url) (hmethod : a.method = b.method)
    (hauth : a.authorization = b.authorization) : locate lib state a = locate lib state b := by
  obtain ⟨encodes, _, hurls⟩ := hlib.path
  unfold locate
  rw [hmethod, hauth, hurls, hurls, Url.path, Url.path, hurl]

end routes

/-- Libraries that know one workspace and no JSON: the URL parser escapes what is
not printable, or among the few other characters that a path must not have. -/
def http.Libraries.sample : http.Libraries where
  path := Url.path (fun c => c.toNat ≤ 0x20 ∨ 0x7e ≤ c.toNat ∨
    c.toNat ∈ [0x22, 0x23, 0x3c, 0x3e, 0x3f, 0x60, 0x7b, 0x7d])
  query := Url.query
  captures := captured
  percent_decode := Url.percent_decode
  form := fun text => (text.splitOn '&').map (fun pair => (split_once '=' pair).getD (pair, []))
  workspace_id := fun text => if text = uuid_text 0 then some 0 else none
  base64 := fun _ => .error []
  to_vec := fun _ => []
  from_slice := fun _ => none
  json_error := fun _ => []

theorem http.Libraries.sample_standard : http.Libraries.sample.Standard 0 where
  path := by
    refine ⟨_, ⟨by decide, by decide, by decide, fun c hc => ?_⟩, fun url => rfl⟩
    rw [Url.alphanum_iff] at hc
    have hval : c.toNat = c.val.toNat := rfl
    simp only [decide_eq_false_iff_not, List.mem_cons, List.not_mem_nil, or_false, hval]
    simp at hc
    omega
  query := fun url => rfl
  captures := fun parts segments => rfl
  decodes := fun text => rfl
  parses := by
    simp only [http.Libraries.sample, if_true]

def RemoteExecutor.sample : RemoteExecutor := ⟨['t']⟩

/-- A server with one credential. -/
def AppState.sample : AppState where
  tokens := fun token => if token =
    ['t'] then some ⟨0, (RequestContext.trusted 0).capabilities, []⟩ else none

theorem AppState.sample_grants :
    AppState.sample.Grants RemoteExecutor.sample.token (.trusted 0) := by
  simp only [AppState.Grants, AppState.sample, RemoteExecutor.sample, if_true]
  rfl

end fslite
