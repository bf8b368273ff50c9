import Fslite.Sqlite.Run.Scan

namespace fslite

open Paging

/-- From the path the names lead to a node. -/
def Leads (ws : WorkspaceId) (path : VirtualPath) (db : Db) (names : List Text) (raw : RawNode) :
    Prop :=
  ∃ path' : VirtualPath, path'.segments = path.segments ++ names ∧
    resolve.resolve db ws path' = some raw

/-- No path leads further down than the search goes. -/
def Shallow (ws : WorkspaceId) (db : Db) : Prop :=
  ∀ path raw, resolve.resolve db ws path = some raw →
    path.segments.length ≤ search.MAX_SUBTREE_DEPTH

theorem resolve.resolve_none {db : Db} {ws : WorkspaceId} {path path' : VirtualPath}
    {names : List Text} (h : resolve db ws path = none)
    (hsegments : path'.segments = path.segments ++ names) : resolve db ws path' = none := by
  unfold resolve at h ⊢
  cases hroot : fetch_root db ws with
  | none => rfl
  | some root =>
    rw [hroot] at h
    simp only at h ⊢
    rw [hsegments, walk_split, h, Option.bind_none]

/-- The pages of a method in a store that stays as it is. -/
def PagesIn {A : Type} (rt : Runtime) (method : Db → PageRequest → FsResult (Page A)) (limit : Nat)
    (w t : World) (cursor : Option Text) (items : List A) (next : Option Text) : Prop :=
  t = w ∧ Pages rt method limit t cursor items next

section leads

variable {db : Db} {ws : WorkspaceId} {r : NodeRow} {path : VirtualPath} {names : List Text}
  {raw : RawNode}

theorem Leads.segments (h : Leads ws path db names raw) : ∀ name ∈ names, Segment name := by
  obtain ⟨path', hsegments, _⟩ := h
  intro name hname
  exact VirtualPath.segment_of_mem (p := path') (hsegments ▸ List.mem_append_right _ hname)

/-- Names lead to the node itself or to one beneath it. -/
theorem leads_iff (hwf : NodesWellFormed db) (hpath : resolve.resolve db ws path = some r.toRawNode)
    (hr : Live db ws r) :
    Leads ws path db names raw ↔ names = [] ∧ raw = r.toRawNode ∨ ∃ n, n.toRawNode = raw ∧
    Beneath db r.id names n := by
  constructor
  · rintro ⟨path', hsegments, hresolve⟩
    by_cases hne : names = []
    · rw [hne, List.append_nil] at hsegments
      rw [VirtualPath.eq_of_segments_eq hsegments, hpath, Option.some.injEq] at hresolve
      exact Or.inl ⟨hne, hresolve.symm⟩
    · exact Or.inr ((resolve.resolve_iff_beneath hwf hpath hr hne hsegments).mp hresolve)
  · rintro (⟨rfl, rfl⟩ | ⟨n, rfl, hn⟩)
    · exact ⟨path, (List.append_nil _).symm, hpath⟩
    · obtain ⟨path', _, hsegments⟩ := path.join_names hn.names_ne_nil (hn.segments hwf)
      exact ⟨path', hsegments,
        (resolve.resolve_iff_beneath hwf hpath hr hn.names_ne_nil hsegments).mpr ⟨n, rfl, hn⟩⟩

/-- Only one way leads to a node. -/
theorem Leads.unique (hwf : NodesWellFormed db)
    (hpath : resolve.resolve db ws path = some r.toRawNode) (hr : Live db ws r)
    {names' : List Text} {raw' : RawNode} (h : Leads ws path db names raw)
    (h' : Leads ws path db names' raw') (hid : raw.id = raw'.id) : names = names' ∧ raw = raw' := by
  obtain ⟨hnil, hraw⟩ | ⟨n, hn, hbeneath⟩ := (leads_iff hwf hpath hr).mp h
  · obtain ⟨hnil', hraw'⟩ | ⟨m, hm, hbeneath'⟩ := (leads_iff hwf hpath hr).mp h'
    · exact ⟨hnil.trans hnil'.symm, hraw.trans hraw'.symm⟩
    · rw [hraw, ← hm] at hid
      exact absurd hid.symm (hbeneath'.ne_root hr)
  · obtain ⟨_, hraw'⟩ | ⟨m, hm, hbeneath'⟩ := (leads_iff hwf hpath hr).mp h'
    · rw [hraw', ← hn] at hid
      exact absurd hid (hbeneath.ne_root hr)
    · rw [← hn, ← hm] at hid
      obtain rfl := db.node_ext hbeneath.mem hbeneath'.mem hid
      exact ⟨hbeneath.unique hr hbeneath', hn.symm.trans hm⟩

/-- A store with few nodes is shallow. -/
theorem Shallow.of_few (hwf : NodesWellFormed db)
    (hfew : db.nodes.rows.length ≤ search.MAX_SUBTREE_DEPTH) : Shallow ws db := by
  intro path raw hresolve
  cases hroot : resolve.resolve db ws VirtualPath.root with
  | none =>
    rw [resolve.resolve_none hroot
      (show path.segments = VirtualPath.root.segments ++ path.segments by simp)] at hresolve
    cases hresolve
  | some root =>
    obtain ⟨r, rfl, hr⟩ := resolve.resolve_live hroot
    have hleads : Leads ws VirtualPath.root db path.segments raw := ⟨path, by simp, hresolve⟩
    obtain ⟨hnil, _⟩ | ⟨n, _, hn⟩ := (leads_iff hwf hroot hr).mp hleads
    · rw [hnil]
      exact Nat.zero_le _
    · exact (hn.length_le hwf hr).trans hfew

end leads

namespace search

/-- The names that lead to a row of a scan. -/
def row_names (row : Descendant) : List Text :=
  if row.depth = 0 then [] else row.relative_path.splitOn '/'

/-- The sort key of what is found: its depth, its name and its identifier. -/
def found_key (found : List Text × RawNode) : ℤ ×ₗ Text ×ₗ WithBot NodeId :=
  position_key (found.1.length, found.2.name, found.2.id)

/-- In a store that stays as it is a search comes to an end, and its pages hold the nodes
at and below the anchor that satisfy the condition, each once and in their order. -/
structure Complete (rt : Runtime) (method : Db → PageRequest → FsResult (Page Node)) (limit : Nat)
    (w : World) (ws : WorkspaceId) (anchor : VirtualPath) (filter : List Text → RawNode → Bool) :
    Prop where
  finishes : ∃ pages, Finished (PagesIn rt method limit w) pages
  lists : ∀ pages, Finished (PagesIn rt method limit w) pages →
    ∃ found : List (List Text × RawNode),
    Ascending found_key found ∧
      (∀ names raw, (names, raw) ∈ found ↔ Leads ws anchor w.db names raw ∧
      filter names raw = true) ∧
      List.Forall₂ (fun f node => f.2.into_node = .ok node) found (contents pages)
  once : ∀ pages, Finished (PagesIn rt method limit w) pages → ((contents pages).map Node.id).Nodup

section complete

variable {db : Db} {ws : WorkspaceId} {r : NodeRow} {path : VirtualPath}
  {filter : List Text → RawNode → Bool}

theorem mem_scan_list_within (hwf : NodesWellFormed db)
    (hpath : resolve.resolve db ws path = some r.toRawNode) (hr : Live db ws r) {row : Descendant} :
    row ∈ scan_list db ws r.toRawNode ↔ ∃ names raw, Leads ws path db names raw ∧
      names.length ≤ MAX_SUBTREE_DEPTH ∧ row = ⟨raw, names.length, ['/'].intercalate names⟩ := by
  have hwithin : ∀ names : List Text, Within (some MAX_SUBTREE_DEPTH) names ↔
      names.length ≤ MAX_SUBTREE_DEPTH := by
    refine fun names => ⟨fun h => h _ rfl, fun h => ?_⟩
    rintro _ ⟨⟩
    exact h.trans (Nat.le_max_left _ _)
  rw [scan_list, List.mem_cons, show r.toRawNode.id = r.id from rfl, mem_subtree hwf hr]
  constructor
  · rintro (rfl | ⟨names, n, hn, hdeep, rfl⟩)
    · exact ⟨[], r.toRawNode, (leads_iff hwf hpath hr).mpr (Or.inl ⟨rfl, rfl⟩), Nat.zero_le _, rfl⟩
    · exact ⟨names, n.toRawNode, (leads_iff hwf hpath hr).mpr (Or.inr ⟨n, rfl, hn⟩),
        (hwithin names).mp hdeep, rfl⟩
  · rintro ⟨names, raw, hleads, hdeep, rfl⟩
    obtain ⟨rfl, rfl⟩ | ⟨n, rfl, hn⟩ := (leads_iff hwf hpath hr).mp hleads
    · exact Or.inl rfl
    · exact Or.inr ⟨names, n, hn, (hwithin names).mpr hdeep, rfl⟩

theorem mem_scan_list (hwf : NodesWellFormed db)
    (hpath : resolve.resolve db ws path = some r.toRawNode) (hr : Live db ws r)
    (hshallow : Shallow ws db) {row : Descendant} : row ∈ scan_list db ws r.toRawNode ↔
      ∃ names raw, Leads ws path db names raw ∧
      row = ⟨raw, names.length, ['/'].intercalate names⟩ := by
  rw [mem_scan_list_within hwf hpath hr]
  refine exists_congr (fun names => exists_congr (fun raw => and_congr_right (fun hleads => ?_)))
  obtain ⟨path', hsegments, hresolve⟩ := hleads
  have hle := hshallow path' raw hresolve
  rw [hsegments, List.length_append] at hle
  exact and_iff_right (by omega)

/-- A scan lists no node twice. -/
theorem scan_list_nodup (hwf : NodesWellFormed db) (hr : Live db ws r) :
    ((scan_list db ws r.toRawNode).map (fun row => row.node.id)).Nodup := by
  refine List.nodup_cons.mpr ⟨fun hroot => ?_, ?_⟩
  · obtain ⟨row, hrow, hid⟩ := List.mem_map.mp hroot
    obtain ⟨names, n, hn, _, rfl⟩ := (mem_subtree hwf hr).mp hrow
    exact hn.ne_root hr hid
  · unfold subtree
    cases hrows : descendants db ws r.id (some MAX_SUBTREE_DEPTH) with
    | error fault => exact .nil
    | ok rows =>
      exact ((List.perm_insertionSort _ _).map _).nodup_iff.mpr (descendants_nodup hr hrows)

theorem row_names_eq {names : List Text} (h : ∀ name ∈ names, Segment name) (raw : RawNode) :
    row_names ⟨raw, names.length, ['/'].intercalate names⟩ = names := by
  unfold row_names
  by_cases hne : names = []
  · subst hne
    rfl
  · rw [if_neg (List.length_pos_iff.mpr hne).ne']
    exact List.splitOn_intercalate _ (fun name hname => (h name hname).raw.1) hne

/-- A scan puts the condition on the names that lead to a row and on its node. -/
theorem scan_match_eq (hwf : NodesWellFormed db) (hr : Live db ws r) {row : Descendant}
    (hrow : row ∈ scan_list db ws r.toRawNode) :
    scan_match (filter [] r.toRawNode)
      (fun row => filter (row.relative_path.splitOn '/') row.node) row =
      filter (row_names row) row.node := by
  obtain rfl | hrow := List.mem_cons.mp hrow
  · rfl
  · have hdepth := subtree_depth hwf hr hrow
    rw [scan_match, row_names, if_neg hdepth.ne', if_neg hdepth.ne']

/-- The rows of a scan in the order of what is found. -/
theorem scan_list_found (hwf : NodesWellFormed db)
    (hpath : resolve.resolve db ws path = some r.toRawNode) (hr : Live db ws r)
    (hshallow : Shallow ws db) :
    Ascending found_key ((scan_list db ws r.toRawNode).map
      (fun row => (row_names row, row.node))) := by
  refine List.pairwise_map.mpr ((scan_list_ascending hwf hr).imp_of_mem (fun {a b} ha hb hlt => ?_))
  have hkey : ∀ row ∈ scan_list db ws r.toRawNode, 0 < row.depth →
      found_key (row_names row, row.node) = scan_key row := by
    intro row hrow hdepth
    obtain ⟨names, raw, hleads, rfl⟩ := (mem_scan_list hwf hpath hr hshallow).mp hrow
    rw [scan_key_eq hdepth, row_names_eq hleads.segments]
    rfl
  have hb0 : 0 < b.depth := by
    obtain rfl | hb := List.mem_cons.mp hb
    · -- nothing comes before the root
      obtain rfl | ha := List.mem_cons.mp ha
      · exact absurd hlt (lt_irrefl _)
      · exact absurd ((List.pairwise_cons.mp (scan_list_ascending hwf hr)).1 a ha) hlt.asymm
    · exact subtree_depth hwf hr hb
  rw [hkey b hb hb0]
  obtain rfl | ha' := List.mem_cons.mp ha
  · rw [scan_key_eq hb0, found_key, position_key, position_key, Prod.Lex.toLex_lt_toLex]
    exact Or.inl (by simpa [row_pos, row_names] using hb0)
  · rw [hkey a ha (subtree_depth hwf hr ha')]
    exact hlt

/-- What a scan finds. -/
def found (db : Db) (ws : WorkspaceId) (root : RawNode) (filter : List Text → RawNode → Bool) :
    List (List Text × RawNode) :=
  ((scan_list db ws root).map (fun row => (row_names row, row.node))).filter
    (fun f => filter f.1 f.2)

theorem found_ascending (hwf : NodesWellFormed db)
    (hpath : resolve.resolve db ws path = some r.toRawNode) (hr : Live db ws r)
    (hshallow : Shallow ws db) : Ascending found_key (found db ws r.toRawNode filter) :=
  (scan_list_found hwf hpath hr hshallow).sublist List.filter_sublist

theorem mem_found (hwf : NodesWellFormed db) (hpath : resolve.resolve db ws path = some r.toRawNode)
    (hr : Live db ws r) (hshallow : Shallow ws db) {names : List Text} {raw : RawNode} :
    (names, raw) ∈ found db ws r.toRawNode filter ↔
      Leads ws path db names raw ∧ filter names raw = true := by
  simp only [found, List.mem_filter, List.mem_map, mem_scan_list hwf hpath hr hshallow,
    Prod.mk.injEq]
  refine and_congr_left' ⟨?_, fun hleads =>
    ⟨_, ⟨names, raw, hleads, rfl⟩, row_names_eq hleads.segments raw, rfl⟩⟩
  rintro ⟨_, ⟨names', raw', hleads, rfl⟩, hnames, hraw⟩
  rw [row_names_eq hleads.segments] at hnames
  rwa [← hnames, ← hraw]

/-- No node is found twice. -/
theorem found_nodup (hwf : NodesWellFormed db)
    (hpath : resolve.resolve db ws path = some r.toRawNode) (hr : Live db ws r)
    (hshallow : Shallow ws db) :
    ((found db ws r.toRawNode filter).map (fun f => f.2.id)).Nodup := by
  refine List.pairwise_map.mpr
    ((found_ascending hwf hpath hr hshallow).imp_of_mem (fun {a b} ha hb hlt hid => ?_))
  obtain ⟨ha, _⟩ := (mem_found hwf hpath hr hshallow).mp ha
  obtain ⟨hb, _⟩ := (mem_found hwf hpath hr hshallow).mp hb
  obtain ⟨hnames, hraw⟩ := Leads.unique hwf hpath hr ha hb hid
  rw [found_key, found_key, hnames, hraw] at hlt
  exact lt_irrefl _ hlt

/-- The rows of a scan that match show what it finds. -/
theorem shows_found (hwf : NodesWellFormed db) (hr : Live db ws r) {items : List Node}
    (h : List.Forall₂ (fun row node => row.node.into_node = .ok node)
    ((scan_list db ws r.toRawNode).filter
      (scan_match (filter [] r.toRawNode)
      (fun row => filter (row.relative_path.splitOn '/') row.node))) items) :
    List.Forall₂ (fun f node => f.2.into_node = .ok node)
      (found db ws r.toRawNode filter) items := by
  rw [found, List.filter_map]
  refine List.forall₂_map_left_iff.mpr ?_
  rwa [List.filter_congr (fun row hrow => scan_match_eq hwf hr hrow)] at h

variable {rt : Runtime} {method : Db → PageRequest → FsResult (Page Node)} {limit : Nat} {w : World}

/-- A method that scans the tree at the anchor is complete. -/
theorem complete_of_scans (codec : Codec SearchCursor) (hreach : Reachable rt w)
    (hpath : resolve.resolve w.db ws path = some r.toRawNode) (hr : Live w.db ws r)
    (hshallow : Shallow ws w.db)
    (hmethod : ∀ cursor items next, method w.db ⟨cursor, limit⟩ = .ok ⟨items, next⟩ ↔
      Scans codec w.db ws path r.toRawNode (filter [] r.toRawNode)
        (fun row => filter (row.relative_path.splitOn '/') row.node)
        (max limit 1) cursor items next) : Complete rt method limit w ws path filter := by
  have hwf := hreach.sound.wf.nodes
  have hpage : ∀ t cursor items next, PagesIn rt method limit w t cursor items next ↔ t = w ∧
      Scans codec w.db ws path r.toRawNode (filter [] r.toRawNode)
        (fun row => filter (row.relative_path.splitOn '/') row.node)
        (max limit 1) cursor items next := by
    intro t cursor items next
    unfold PagesIn Pages
    constructor
    · rintro ⟨rfl, _, h⟩
      exact ⟨rfl, (hmethod cursor items next).mp h⟩
    · rintro ⟨rfl, h⟩
      exact ⟨rfl, hreach, (hmethod cursor items next).mpr h⟩
  have hstart : Stands codec w.db ws path r.toRawNode none none :=
    ⟨none, rfl, rfl, fun p hp => by cases hp⟩
  have hlists : ∀ pages, Finished (PagesIn rt method limit w) pages →
      List.Forall₂ (fun f node => f.2.into_node = .ok node) (found w.db ws r.toRawNode filter)
        (contents pages) := by
    intro pages hpages
    obtain ⟨taken, htaken, hshows⟩ := hpages.simulate
      (fun t pos taken next => t = w ∧ Listing scan_key
        (fun t : World => scan_list t.db ws r.toRawNode) t pos taken next)
      (fun _ rows items => List.Forall₂ (fun row node => row.node.into_node = .ok node) (rows.filter
        (scan_match (filter [] r.toRawNode)
          (fun row => filter (row.relative_path.splitOn '/') row.node))) items)
      hstart (by
        intro t cursor pos items next hstands hnext
        obtain ⟨rfl, hscans⟩ := (hpage t cursor items next).mp hnext
        obtain ⟨taken, pos', htakes, hshows, hstands', hsome⟩ := scans_takes hwf hr hstands hscans
        exact ⟨taken, pos', ⟨rfl, scan_list_ascending hwf hr, htakes⟩, hshows, hstands', hsome⟩)
    refine shows_found hwf hr ?_
    rw [← htaken.whole]
    exact hshows.filtered
  constructor
  · obtain ⟨pages, hpages⟩ := Paging.finishes (s := w) (fun t => scan_list t.db ws r.toRawNode)
      (fun _ => Scans codec w.db ws path r.toRawNode (filter [] r.toRawNode)
        (fun row => filter (row.relative_path.splitOn '/') row.node) (max limit 1)) _
      (scan_list_ascending hwf hr) hstart (by
        intro cursor pos hstands
        obtain ⟨items, next, hscans⟩ := scans_ok hwf hr hstands
        obtain ⟨taken, pos', htakes, _, hstands', hsome⟩ := scans_takes hwf hr hstands hscans
        exact ⟨items, next, taken, pos', hscans, htakes, hstands', hsome⟩)
    exact ⟨pages, hpages.mono (fun t cursor items next h => (hpage t cursor items next).mpr h)⟩
  · exact fun pages hpages =>
      ⟨_, found_ascending hwf hpath hr hshallow, fun names raw => mem_found hwf hpath hr hshallow,
      hlists pages hpages⟩
  · intro pages hpages
    have hids : List.Forall₂ (· = ·) ((found w.db ws r.toRawNode filter).map (fun f => f.2.id))
      ((contents pages).map Node.id) :=
      List.forall₂_map_left_iff.mpr (List.forall₂_map_right_iff.mpr ((hlists pages hpages).imp
        (fun _ _ hnode => (RawNode.into_node_key hnode).2.symm)))
    rw [List.forall₂_eq_eq_eq] at hids
    rw [← hids]
    exact found_nodup hwf hpath hr hshallow

end complete

section methods

variable {rt : Runtime} {codec : Codec SearchCursor} {db : Db} {ws : WorkspaceId}
  {cursor : Option Text} {limit : Nat}
variable {items : List Node} {next : Option Text} {w : World}

theorem glob_eq_ok {pattern : Text} {compiled : List PatternSegment} {anchor : VirtualPath}
    {count : Nat} {root : RawNode} (hcompile : compile_pattern pattern = .ok compiled)
    (hanchor : literal_prefix VirtualPath.root compiled = some (anchor, count))
    (hroot : resolve.resolve db ws anchor = some root) :
    glob rt codec db ws pattern ⟨cursor, limit⟩ = .ok ⟨items, next⟩ ↔
      Scans codec db ws anchor root (glob_match (compiled.drop count) [])
        (fun row => glob_match (compiled.drop count) (row.relative_path.splitOn '/'))
        (max limit 1) cursor items next := by
  simp only [glob, FsResult.bind_eq_ok, hcompile, Except.ok.injEq, exists_eq_left', hanchor,
    glob_tx, hroot, Scans]
  refine exists_congr (fun after => ?_)
  cases scan_tx db ws root (glob_match (compiled.drop count) [])
      (fun row => glob_match (compiled.drop count) (row.relative_path.splitOn '/')) after
        (max limit 1) with
  | error fault => simp [Except.mapError]
  | ok found => simp [Except.mapError, FsResult.bind_eq_ok, pure, Except.pure]

theorem glob_eq_ok_of_none {pattern : Text} {compiled : List PatternSegment} {anchor : VirtualPath}
    {count : Nat} {page : Page Node} (hcompile : compile_pattern pattern = .ok compiled)
    (hanchor : literal_prefix VirtualPath.root compiled = some (anchor, count))
    (hroot : resolve.resolve db ws anchor = none) :
    glob rt codec db ws pattern ⟨cursor, limit⟩ = .ok page ↔
      (∃ after, cursor.mapM (fun raw => decode_search_cursor codec raw ws anchor) = .ok after) ∧
      ⟨[], none⟩ = page := by
  simp only [glob, FsResult.bind_eq_ok, hcompile, Except.ok.injEq, exists_eq_left', hanchor,
    glob_tx, hroot, Except.mapError, pure,
    Except.pure, exists_and_right]

theorem find_eq_ok {query : FindQuery} {root : RawNode}
    (hroot : resolve.resolve db ws query.root = some root) :
    find rt codec db ws query ⟨cursor, limit⟩ = .ok ⟨items, next⟩ ↔
      Scans codec db ws query.root root (find_matches rt db query root)
      (fun row => find_matches rt db query row.node) (max limit 1) cursor items next := by
  simp only [find, FsResult.bind_eq_ok, find_tx, hroot, Scans]
  refine exists_congr (fun after => ?_)
  cases scan_tx db ws root (find_matches rt db query root) (fun row =>
    find_matches rt db query row.node) after (max limit 1) with
  | error fault => simp [Except.mapError]
  | ok found => simp [Except.mapError, FsResult.bind_eq_ok, pure, Except.pure]

/-- Where the anchor leads nowhere there is nothing to find. -/
theorem complete_of_nothing {method : Db → PageRequest → FsResult (Page Node)}
    {anchor : VirtualPath} {filter : List Text → RawNode → Bool} (hreach : Reachable rt w)
    (hnone : resolve.resolve w.db ws anchor = none)
    (hfirst : method w.db ⟨none, limit⟩ = .ok ⟨[], none⟩)
    (hmethod : ∀ cursor items next, method w.db ⟨cursor, limit⟩ = .ok ⟨items, next⟩ → items = [] ∧
    next = none) :
    Complete rt method limit w ws anchor filter := by
  have hempty : ∀ pages, Finished (PagesIn rt method limit w) pages → contents pages = [] := by
    rintro pages ⟨hfetched, rfl, _, hlast⟩
    cases hfetched with
    | start => rw [(hmethod _ _ _ hlast).1, List.nil_append, contents, List.flatMap_singleton]
    | next _ hpage =>
      obtain ⟨rfl, _, hpage⟩ := hpage
      exact absurd (hmethod _ _ _ hpage).2 (Option.some_ne_none _)
  constructor
  · exact ⟨_, .last .start ⟨rfl, hreach, hfirst⟩⟩
  · intro pages hpages
    refine ⟨[], .nil, fun names raw =>
      ⟨fun h => absurd h List.not_mem_nil, fun h => ?_⟩, by rw [hempty pages hpages]; exact .nil⟩
    obtain ⟨⟨path', hsegments, hresolve⟩, _⟩ := h
    exact absurd hresolve (by rw [resolve.resolve_none hnone hsegments]; exact Option.some_ne_none raw |>.symm)
  · intro pages hpages
    rw [hempty pages hpages]
    exact List.nodup_nil

variable {cursors : SqliteFileSystem.Cursors} {ctx : RequestContext}

theorem glob_complete (hread : ctx.has_capability .Read = true) (hreach : Reachable rt w)
    (hshallow : Shallow ctx.workspace_id w.db) {pattern : Text} {compiled : List PatternSegment}
    {anchor : VirtualPath} {count : Nat} (hcompile : compile_pattern pattern = .ok compiled)
    (hanchor : literal_prefix VirtualPath.root compiled = some (anchor, count)) :
    Complete rt (fun db page =>
      SqliteFileSystem.glob rt cursors ctx db pattern page) limit w ctx.workspace_id anchor
      (fun names _ => glob_match (compiled.drop count) names) := by
  cases hroot : resolve.resolve w.db ctx.workspace_id anchor with
  | some root =>
    obtain ⟨r, rfl, hr⟩ := resolve.resolve_live hroot
    refine complete_of_scans cursors.search hreach hroot hr hshallow (fun cursor items next => ?_)
    rw [SqliteFileSystem.glob, require_read_bind_eq_ok, and_iff_right hread]
    exact glob_eq_ok hcompile hanchor hroot
  | none =>
    have hglob : ∀ cursor page, SqliteFileSystem.glob rt cursors ctx w.db pattern
      ⟨cursor, limit⟩ = .ok page ↔
        (∃ after, cursor.mapM
          (fun raw => decode_search_cursor cursors.search raw ctx.workspace_id anchor) =
          .ok after) ∧
          ⟨[], none⟩ = page := by
      intro cursor page
      rw [SqliteFileSystem.glob, require_read_bind_eq_ok, and_iff_right hread]
      exact glob_eq_ok_of_none hcompile hanchor hroot
    refine complete_of_nothing hreach hroot ((hglob none _).mpr ⟨⟨none, rfl⟩, rfl⟩)
      (fun cursor items next h => ?_)
    obtain ⟨_, hpage⟩ := (hglob cursor _).mp h
    cases hpage
    exact ⟨rfl, rfl⟩

theorem find_complete (hread : ctx.has_capability .Read = true) (hreach : Reachable rt w)
    (hshallow : Shallow ctx.workspace_id w.db) {query : FindQuery} {root : RawNode}
    (hroot : resolve.resolve w.db ctx.workspace_id query.root = some root) :
    Complete rt (fun db page =>
      SqliteFileSystem.find rt cursors ctx db query page) limit w ctx.workspace_id query.root
      (fun _ raw => find_matches rt w.db query raw) := by
  obtain ⟨r, rfl, hr⟩ := resolve.resolve_live hroot
  refine complete_of_scans cursors.search hreach hroot hr hshallow (fun cursor items next => ?_)
  rw [SqliteFileSystem.find, require_read_bind_eq_ok, and_iff_right hread]
  exact find_eq_ok hroot

theorem glob_bare (hread : ctx.has_capability .Read = true) {pattern : Text}
    (hbare : pattern.head? ≠ some '/') (page : PageRequest) :
    SqliteFileSystem.glob rt cursors ctx db pattern page =
      .error (FsError.invalid_path_or_name pattern) := by
  have hcompile : compile_pattern pattern = .error (FsError.invalid_path_or_name pattern) :=
    if_pos hbare
  unfold SqliteFileSystem.glob SqliteFileSystem.require_read glob
  rw [if_pos hread, hcompile]
  rfl

theorem find_not_found (hread : ctx.has_capability .Read = true) {query : FindQuery}
    (hroot : resolve.resolve db ctx.workspace_id query.root = none) {page : PageRequest}
    {after : Option CursorPos}
    (hcursor : page.cursor.mapM (fun raw =>
      decode_search_cursor cursors.search raw ctx.workspace_id query.root) = .ok after) :
    SqliteFileSystem.find rt cursors ctx db query page =
      .error (FsError.not_found query.root.as_str) := by
  unfold SqliteFileSystem.find SqliteFileSystem.require_read find find_tx
  rw [if_pos hread, hcursor, hroot]
  rfl

end methods

end search

/-- `glob` and `find` are complete: over their pages they list what is at and below the
anchor of the pattern or the root of the query, as far as it satisfies the condition. They
refuse a pattern without a leading slash and a root that does not resolve. -/
theorem searches_complete (rt : Runtime) (cursors : SqliteFileSystem.Cursors) (ctx : RequestContext)
    (hread : ctx.has_capability .Read = true) (w : World) (hreach : Reachable rt w)
    (hshallow : Shallow ctx.workspace_id w.db) (limit : Nat) :
    (∀ pattern : Text, pattern.head? = some '/' → ∃ compiled,
    search.compile_pattern pattern = .ok compiled ∧
      ∀ anchor count, search.literal_prefix VirtualPath.root compiled = some (anchor, count) →
        search.Complete rt (fun db page =>
          SqliteFileSystem.glob rt cursors ctx db pattern page) limit w ctx.workspace_id anchor
          (fun names _ => search.glob_match (compiled.drop count) names)) ∧
    (∀ query root, resolve.resolve w.db ctx.workspace_id query.root = some root →
      search.Complete rt (fun db page =>
        SqliteFileSystem.find rt cursors ctx db query page) limit w ctx.workspace_id query.root
        (fun _ raw => search.find_matches rt w.db query raw)) ∧
    (∀ pattern : Text, pattern.head? ≠ some '/' → ∀ page,
      SqliteFileSystem.glob rt cursors ctx w.db pattern page =
        .error (FsError.invalid_path_or_name pattern)) ∧
    ∀ query, resolve.resolve w.db ctx.workspace_id query.root = none → ∀ page after,
      page.cursor.mapM (fun raw =>
        search.decode_search_cursor cursors.search raw ctx.workspace_id query.root) = .ok after →
      SqliteFileSystem.find rt cursors ctx w.db query page =
        .error (FsError.not_found query.root.as_str) := by
  refine ⟨fun pattern hslash => ?_, fun query root hroot =>
    search.find_complete hread hreach hshallow hroot, fun pattern hbare page =>
    search.glob_bare hread hbare page, fun query hroot page after hcursor =>
    search.find_not_found hread hroot hcursor⟩
  obtain ⟨compiled, hcompile⟩ : ∃ compiled, search.compile_pattern pattern = .ok compiled :=
    ⟨_, if_neg (not_not.mpr hslash)⟩
  exact ⟨compiled, hcompile, fun anchor count hanchor =>
    search.glob_complete hread hreach hshallow hcompile hanchor⟩

/-- The new workspace with its two directories. -/
def emptyWorld : World := serveAll Runtime.counting emptyRequests ⟨Db.empty, 0⟩

theorem emptyWorld_reachable : Reachable Runtime.counting emptyWorld :=
  (Reachable.empty Runtime.counting).serveAll emptyRequests

theorem emptyWorld_shallow : Shallow 0 emptyWorld.db := by
  have hrows : emptyWorld.db.nodes.rows.length = 3 := by decide +kernel
  exact Shallow.of_few emptyWorld_reachable.sound.wf.nodes
    (by rw [hrows, search.MAX_SUBTREE_DEPTH]; omega)

/-- A pattern that does not begin with a slash is refused. -/
theorem bare_pattern_not_searched :
    Reachable Runtime.counting emptyWorld ∧ Shallow 0 emptyWorld.db ∧
    ¬ ∃ pages, Finished (PagesIn Runtime.counting
      (fun db page => SqliteFileSystem.glob Runtime.counting
      SqliteFileSystem.Cursors.counting (.trusted 0) db ['a'] page) 1 emptyWorld) pages := by
  refine ⟨emptyWorld_reachable, emptyWorld_shallow, ?_⟩
  rintro ⟨_, _, _, _, hlast⟩
  cases hlast

/-- What `/**` and the name `a` find in the new workspace, and what is refused there. -/
theorem empty_searches_complete :
    search.Complete Runtime.counting (fun db page => SqliteFileSystem.glob Runtime.counting
      SqliteFileSystem.Cursors.counting
        (.trusted 0) db "/**".toList page) 1 emptyWorld 0 VirtualPath.root
      (fun names _ => search.glob_match [.DoubleStar] names) ∧
    search.Complete Runtime.counting
      (fun db page => SqliteFileSystem.find Runtime.counting SqliteFileSystem.Cursors.counting
      (.trusted 0) db { name_contains := some ['a'] } page) 1 emptyWorld 0 VirtualPath.root
      (fun _ raw => search.find_matches Runtime.counting emptyWorld.db
        { name_contains := some ['a'] } raw) ∧
    SqliteFileSystem.glob Runtime.counting SqliteFileSystem.Cursors.counting (.trusted 0)
      emptyWorld.db ['a'] ⟨none, 1⟩ = .error (FsError.invalid_path_or_name ['a']) ∧
    SqliteFileSystem.find Runtime.counting SqliteFileSystem.Cursors.counting (.trusted 0)
      emptyWorld.db { root := .named [['x']] } ⟨none, 1⟩ =
        .error (FsError.not_found "/x".toList) := by
  obtain ⟨hglobs, hfinds, hbare, hmissing⟩ := searches_complete Runtime.counting
    SqliteFileSystem.Cursors.counting (.trusted 0) rfl emptyWorld emptyWorld_reachable
    emptyWorld_shallow 1
  refine ⟨?_, ?_, hbare ['a'] (by decide) ⟨none, 1⟩, ?_⟩
  · obtain ⟨compiled, hcompile, hglob⟩ := hglobs "/**".toList rfl
    have hcompiled : search.compile_pattern "/**".toList = .ok [.DoubleStar] := rfl
    rw [hcompiled, Except.ok.injEq] at hcompile
    subst hcompile
    exact hglob VirtualPath.root 0 rfl
  · obtain ⟨root, hroot⟩ := Option.isSome_iff_exists.mp
      (show (resolve.resolve emptyWorld.db 0 VirtualPath.root).isSome = true by decide +kernel)
    exact hfinds { name_contains := some ['a'] } root hroot
  · exact hmissing { root := .named [['x']] } (by decide +kernel) ⟨none, 1⟩ none rfl

end fslite
