import Fslite.Sqlite.Run.Search

namespace fslite

open Paging

theorem RawNode.into_node_shape {row : RawNode} {node : Node} (h : row.into_node = .ok node) :
    node.id = row.id ∧ node.parent_id = row.parent_id ∧ node.name = row.name ∧
    node.kind = row.kind := by
  unfold RawNode.into_node at h
  split at h
  · cases h
  · cases h
    exact ⟨rfl, rfl, rfl, rfl⟩

/-- The workspace's root, to which the root path leads. -/
theorem resolve.resolve_root {db : Db} {ws : WorkspaceId} {row : WorkspaceRow}
    (hwf : NodesWellFormed db) (hrow : db.workspace? ws = some row) :
    ∃ r, resolve db ws VirtualPath.root = some r.toRawNode ∧ Live db ws r ∧
      r.kind = .Directory ∧ r.parent_id = none := by
  obtain ⟨r, hr, hws, hup⟩ := hwf.root ws row hrow
  obtain ⟨hkind, hactive⟩ := hwf.root_shape r hr hup
  refine ⟨r, ?_, .root hr hws hup hactive, hkind, hup⟩
  simp only [resolve, fetch_root_of_mem hwf hr hws hup, VirtualPath.segments_root, walk]

namespace Beneath

variable {db : Db} {ws : WorkspaceId} {r n : NodeRow} {names : List Text}

theorem parent_ne_none (h : Beneath db r.id names n) : n.parent_id ≠ none := by
  obtain ⟨up, hup, _⟩ := h.climb
  rw [hup]
  exact Option.some_ne_none up

/-- Every live node is the root or beneath it. -/
theorem of_live (hwf : NodesWellFormed db) (hr : Live db ws r) (hroot : r.parent_id = none)
    (h : Live db ws n) :
    n = r ∨ ∃ names, Beneath db r.id names n := by
  induction h with
  | root hmem hws hup _ => exact Or.inl (hwf.root_unique _ hmem _ hr.mem (hws.trans hr.workspace.symm) hup hroot)
  | @child n p _ _ hmem _ hup hactive ih =>
    obtain rfl | ⟨names, hp⟩ := ih
    · exact Or.inr ⟨_, .child hmem hup hactive⟩
    · exact Or.inr ⟨_, .step hp hmem hup hactive⟩

end Beneath

/-- The paths below the root that lead to nodes, with the nodes' identifiers. -/
def Resolved (ws : WorkspaceId) (db : Db) : Set (VirtualPath × NodeId) :=
  {p | p.1 ≠ VirtualPath.root ∧ ∃ raw, resolve.resolve db ws p.1 = some raw ∧ raw.id = p.2}

/-- The nodes that are visible: reached from the root through directories none of which
is trashed. The root itself is left out. -/
def Visible (ws : WorkspaceId) (db : Db) : Set NodeId :=
  {id | ∃ n, Live db ws n ∧ n.parent_id ≠ none ∧ n.id = id}

section resolved

variable {db : Db} {ws : WorkspaceId} {r : NodeRow} {path : VirtualPath} {id : NodeId}

theorem mem_resolved (hwf : NodesWellFormed db)
    (hroot : resolve.resolve db ws VirtualPath.root = some r.toRawNode) (hr : Live db ws r) :
    (path, id) ∈ Resolved ws db ↔ ∃ n, Beneath db r.id path.segments n ∧ n.id = id := by
  have hsegments : path.segments = VirtualPath.root.segments ++ path.segments := by simp
  constructor
  · rintro ⟨hne, raw, hresolve, hid⟩
    have hnames : path.segments ≠ [] := fun hnil =>
      hne (VirtualPath.eq_of_segments_eq (hnil.trans VirtualPath.segments_root.symm))
    obtain ⟨n, rfl, hn⟩ := (resolve.resolve_iff_beneath hwf hroot hr hnames hsegments).mp hresolve
    exact ⟨n, hn, hid⟩
  · rintro ⟨n, hn, hid⟩
    refine ⟨?_, n.toRawNode,
      (resolve.resolve_iff_beneath hwf hroot hr hn.names_ne_nil hsegments).mpr ⟨n, rfl, hn⟩, hid⟩
    rintro rfl
    exact hn.names_ne_nil VirtualPath.segments_root

theorem beneath_path (hwf : NodesWellFormed db) {names : List Text} {n : NodeRow}
    (hn : Beneath db r.id names n) :
    ∃ path : VirtualPath, path.segments = names := by
  obtain ⟨path, _, hpath⟩ := VirtualPath.root.join_names hn.names_ne_nil (hn.segments hwf)
  exact ⟨path, by simpa using hpath⟩

/-- The paths lead to the visible nodes and to no others. -/
theorem resolved_visible (hwf : NodesWellFormed db)
    (hroot : resolve.resolve db ws VirtualPath.root = some r.toRawNode) (hr : Live db ws r)
    (hup : r.parent_id = none) : Prod.snd '' Resolved ws db = Visible ws db := by
  ext id
  constructor
  · rintro ⟨⟨path, id⟩, hmem, rfl⟩
    obtain ⟨n, hn, hid⟩ := (mem_resolved hwf hroot hr).mp hmem
    exact ⟨n, hn.live hwf hr, hn.parent_ne_none, hid⟩
  · rintro ⟨n, hlive, hne, hid⟩
    obtain rfl | ⟨names, hn⟩ := Beneath.of_live hwf hr hup hlive
    · exact absurd hup hne
    · obtain ⟨path, rfl⟩ := beneath_path hwf hn
      exact ⟨(path, id), (mem_resolved hwf hroot hr).mpr ⟨n, hn, hid⟩, rfl⟩

end resolved

/-- What `read_dir` gives for the root, and again for each directory that it gives. -/
inductive Listed (rt : Runtime) (cursors : SqliteFileSystem.Cursors) (ctx : RequestContext)
    (limit : Nat) (w : World) :
    VirtualPath → Node → Prop where
  | root {pages : List (World × List Node)} {node : Node} {path : VirtualPath}
      (hpages : Finished (PagesIn rt
        (fun db page => SqliteFileSystem.read_dir cursors ctx db VirtualPath.root page) limit w) pages)
      (hnode : node ∈ contents pages) (hpath : VirtualPath.root.join node.name = .ok path) :
        Listed rt cursors ctx limit w path node
  | inside {dir path : VirtualPath} {parent node : Node} {pages : List (World × List Node)}
      (hparent : Listed rt cursors ctx limit w dir parent) (hkind : parent.kind = .Directory)
      (hpages : Finished (PagesIn rt
        (fun db page => SqliteFileSystem.read_dir cursors ctx db dir page) limit w) pages)
      (hnode : node ∈ contents pages) (hpath : dir.join node.name = .ok path) :
        Listed rt cursors ctx limit w path node

/-- In a store that stays as it is the views of the tree show what the paths lead to: with
the paths where they show them, otherwise the nodes. -/
structure ViewsAgree (rt : Runtime) (cursors : SqliteFileSystem.Cursors) (ctx : RequestContext)
    (limit : Nat) (w : World) : Prop where
  tree : ∀ pages, Finished (PagesIn rt
    (fun db page => SqliteFileSystem.tree rt cursors ctx db VirtualPath.root
    {} page) limit w) pages →
    {p | ∃ entry ∈ contents pages, (entry.path, entry.node.id) = p} = Resolved ctx.workspace_id w.db
  glob : ∀ pages, Finished (PagesIn rt
    (fun db page => SqliteFileSystem.glob rt cursors ctx db "/**".toList page) limit w) pages →
    {id | ∃ node ∈ contents pages, node.parent_id ≠ none ∧ node.id = id} =
      Prod.snd '' Resolved ctx.workspace_id w.db
  find : ∀ pages, Finished (PagesIn rt
    (fun db page => SqliteFileSystem.find rt cursors ctx db {} page) limit w) pages →
    {id | ∃ node ∈ contents pages, node.parent_id ≠ none ∧ node.id = id} =
      Prod.snd '' Resolved ctx.workspace_id w.db
  read_dir : {p | ∃ node, Listed rt cursors ctx limit w p.1 node ∧ node.id = p.2} =
    Resolved ctx.workspace_id w.db
  visible : Prod.snd '' Resolved ctx.workspace_id w.db = Visible ctx.workspace_id w.db

/-- The views come to an end. -/
structure ViewsFinish (rt : Runtime) (cursors : SqliteFileSystem.Cursors) (ctx : RequestContext)
    (limit : Nat) (w : World) : Prop where
  tree : ∃ pages, Finished (PagesIn rt
    (fun db page => SqliteFileSystem.tree rt cursors ctx db VirtualPath.root {} page) limit w) pages
  glob : ∃ pages, Finished (PagesIn rt
    (fun db page => SqliteFileSystem.glob rt cursors ctx db "/**".toList page) limit w) pages
  find : ∃ pages, Finished (PagesIn rt
    (fun db page => SqliteFileSystem.find rt cursors ctx db {} page) limit w) pages
  read_dir : ∀ path, LeadsToDirectory ctx.workspace_id path w.db →
    ∃ pages, Finished (PagesIn rt
      (fun db page => SqliteFileSystem.read_dir cursors ctx db path page) limit w) pages

theorem search.glob_match_double_star (names : List Text) :
    glob_match [.DoubleStar] names = true := by
  have hfold : ∀ row : List Bool, row.foldl (fun left above => above || left) true = true := by
    intro row
    induction row with
    | nil => rfl
    | cons above row ih => rw [List.foldl_cons, Bool.or_true, ih]
  simp only [glob_match, List.foldl_cons, List.foldl_nil, glob_row, List.getLast?_scanl, hfold,
    Option.getD_some]

theorem search.find_matches_empty (rt : Runtime) (db : Db) (raw : RawNode) :
    find_matches rt db {} raw = true := by
  simp [find_matches, predicate_matches, attributes_match]

section views

variable {rt : Runtime} {cursors : SqliteFileSystem.Cursors} {ctx : RequestContext} {limit : Nat}
  {w : World} {r : NodeRow}

theorem tree_view (hread : ctx.has_capability .Read = true) (hreach : Reachable rt w)
    (hroot : resolve.resolve w.db ctx.workspace_id VirtualPath.root = some r.toRawNode)
    (hr : Live w.db ctx.workspace_id r) {pages : List (World × List directory.TreeEntry)}
    (hpages : Finished (PagesIn rt
    (fun db page => SqliteFileSystem.tree rt cursors ctx db VirtualPath.root
    {} page) limit w) pages) :
    {p | ∃ entry ∈ contents pages, (entry.path, entry.node.id) = p} =
    Resolved ctx.workspace_id w.db := by
  have hwf := hreach.sound.wf.nodes
  have hlists : ListsByPages rt
    (fun db page => SqliteFileSystem.tree rt cursors ctx db VirtualPath.root {} page) limit
      directory.TreeEntry.key _ _ := directory.tree_lists hread VirtualPath.root {} limit
  have hmem := hlists.paginates.whole pages w hpages
  ext ⟨path, id⟩
  rw [mem_resolved hwf hroot hr]
  constructor
  · rintro ⟨entry, hentry, hp⟩
    obtain ⟨root, hroot', names, n, hn, _, hpath, _, hnode⟩ := (hmem entry).mp hentry
    rw [hroot, Option.some.injEq] at hroot'
    subst hroot'
    rw [VirtualPath.segments_root, List.nil_append] at hpath
    simp only [Prod.mk.injEq] at hp
    rw [← hp.1, ← hp.2, hpath, (RawNode.into_node_key hnode).2]
    exact ⟨n, hn, rfl⟩
  · rintro ⟨n, hn, hid⟩
    obtain ⟨node, hnode⟩ := RawNode.into_node_ok (hwf.revision n hn.mem)
    have hwithin : Within none path.segments := fun _ hdepth => by cases hdepth
    have hsegments : path.segments = VirtualPath.root.segments ++ path.segments := by simp
    refine ⟨⟨path, path.segments.length, node⟩, (hmem _).mpr
      ⟨_, hroot, path.segments, n, hn, hwithin, hsegments, rfl, hnode⟩, ?_⟩
    rw [(RawNode.into_node_key hnode).2, ← hid]

/-- A search without a condition shows every node. -/
theorem search.Complete.view {method : Db → PageRequest → FsResult (Page Node)}
    {filter : List Text → RawNode → Bool}
    (h : Complete rt method limit w ctx.workspace_id VirtualPath.root filter)
    (hfilter : ∀ names raw, filter names raw = true) (hreach : Reachable rt w)
    (hroot : resolve.resolve w.db ctx.workspace_id VirtualPath.root = some r.toRawNode)
    (hr : Live w.db ctx.workspace_id r) (hup : r.parent_id = none)
    {pages : List (World × List Node)} (hpages : Finished (PagesIn rt method limit w) pages) :
    {id | ∃ node ∈ contents pages, node.parent_id ≠ none ∧ node.id = id} =
      Prod.snd '' Resolved ctx.workspace_id w.db := by
  have hwf := hreach.sound.wf.nodes
  obtain ⟨found, _, hfound, hshows⟩ := h.lists pages hpages
  rw [resolved_visible hwf hroot hr hup]
  ext id
  constructor
  · rintro ⟨node, hmem, hne, hid⟩
    obtain ⟨⟨names, raw⟩, hraw, hinto⟩ := exists_shown_right hshows node hmem
    obtain ⟨hleads, _⟩ := (hfound names raw).mp hraw
    obtain ⟨hsame, hparent, _, _⟩ := RawNode.into_node_shape hinto
    obtain ⟨_, rfl⟩ | ⟨n, rfl, hn⟩ := (leads_iff hwf hroot hr).mp hleads
    · exact absurd (hparent.trans hup) hne
    · exact ⟨n, hn.live hwf hr, hn.parent_ne_none, hsame.symm.trans hid⟩
  · rintro ⟨n, hlive, hne, hid⟩
    obtain rfl | ⟨names, hn⟩ := Beneath.of_live hwf hr hup hlive
    · exact absurd hup hne
    · obtain ⟨node, hmem, hinto⟩ := exists_shown_left hshows (names, n.toRawNode)
        ((hfound names n.toRawNode).mpr
          ⟨(leads_iff hwf hroot hr).mpr (Or.inr ⟨n, rfl, hn⟩), hfilter names _⟩)
      obtain ⟨hsame, hparent, _, _⟩ := RawNode.into_node_shape hinto
      exact ⟨node, hmem, by rw [hparent]; exact hne, hsame.trans hid⟩

/-- What `read_dir` gives for a path are the entries of the node that it leads to. -/
theorem mem_read_dir (hread : ctx.has_capability .Read = true) (hwf : NodesWellFormed w.db)
    {dir : VirtualPath} {p : NodeRow}
    (hdir : resolve.resolve w.db ctx.workspace_id dir = some p.toRawNode)
    (hp : Live w.db ctx.workspace_id p) {pages : List (World × List Node)}
    (hpages : Finished (PagesIn rt
    (fun db page => SqliteFileSystem.read_dir cursors ctx db dir page) limit w) pages)
    {node : Node} :
    node ∈ contents pages ↔ ∃ n ∈ w.db.nodes, n.parent_id = some p.id ∧ n.trashed_at_ms = none ∧
    n.into_node = .ok node := by
  have hlists : ListsByPages rt
    (fun db page => SqliteFileSystem.read_dir cursors ctx db dir page) limit Node.key _ _ :=
    directory.read_dir_lists hread dir limit
  rw [hlists.paginates.whole pages w hpages node]
  constructor
  · rintro ⟨_, hdir', n, hn, _, hup, hactive, hnode⟩
    rw [hdir, Option.some.injEq] at hdir'
    rw [← hdir'] at hup
    exact ⟨n, hn, hup, hactive, hnode⟩
  · rintro ⟨n, hn, hup, hactive, hnode⟩
    obtain ⟨m, hm, hid, hws, _⟩ := hwf.parent n hn p.id hup
    obtain rfl := w.db.node_ext hm hp.mem hid
    exact ⟨_, hdir, n, hn, hws.symm.trans hp.workspace, hup, hactive, hnode⟩

/-- The path of an entry is the directory's with the entry's name. -/
theorem join_entry (hwf : NodesWellFormed w.db) {n : NodeRow} (hn : n ∈ w.db.nodes)
    (hne : n.parent_id ≠ none) {node : Node} (hnode : n.into_node = .ok node)
    {dir path : VirtualPath} :
    dir.join node.name = .ok path ↔ path.segments = dir.segments ++ [n.name] := by
  obtain ⟨_, _, hname, _⟩ := RawNode.into_node_shape hnode
  obtain ⟨q, hjoin, hq⟩ := dir.join_segment (hwf.segment n hn hne)
  rw [hname, hjoin, Except.ok.injEq]
  constructor
  · rintro rfl
    exact hq
  · exact fun hpath => VirtualPath.eq_of_segments_eq (hq.trans hpath.symm)

theorem Listed.beneath (hread : ctx.has_capability .Read = true) (hwf : NodesWellFormed w.db)
    (hroot : resolve.resolve w.db ctx.workspace_id VirtualPath.root = some r.toRawNode)
    (hr : Live w.db ctx.workspace_id r) {path : VirtualPath} {node : Node}
    (h : Listed rt cursors ctx limit w path node) :
    ∃ n, Beneath w.db r.id path.segments n ∧ n.into_node = .ok node := by
  induction h with
  | root hpages hmem hpath =>
    obtain ⟨n, hn, hup, hactive, hnode⟩ := (mem_read_dir hread hwf hroot hr hpages).mp hmem
    rw [(join_entry hwf hn (by simp [hup]) hnode).mp hpath, VirtualPath.segments_root]
    exact ⟨n, .child hn hup hactive, hnode⟩
  | @inside dir path parent node pages _ _ hpages hmem hpath ih =>
    obtain ⟨p, hp, _⟩ := ih
    have hdir : resolve.resolve w.db ctx.workspace_id dir = some p.toRawNode :=
      (resolve.resolve_iff_beneath hwf hroot hr hp.names_ne_nil (by simp)).mpr ⟨p, rfl, hp⟩
    obtain ⟨n, hn, hup, hactive, hnode⟩ :=
      (mem_read_dir hread hwf hdir (hp.live hwf hr) hpages).mp hmem
    rw [(join_entry hwf hn (by simp [hup]) hnode).mp hpath]
    exact ⟨n, .step hp hn hup hactive, hnode⟩

theorem Beneath.listed (hread : ctx.has_capability .Read = true) (hreach : Reachable rt w)
    (hroot : resolve.resolve w.db ctx.workspace_id VirtualPath.root = some r.toRawNode)
    (hr : Live w.db ctx.workspace_id r) (hkind : r.kind = .Directory) {names : List Text}
    {n : NodeRow} (h : Beneath w.db r.id names n) {path : VirtualPath}
    (hpath : path.segments = names) :
    ∃ node, n.into_node = .ok node ∧ Listed rt cursors ctx limit w path node := by
  have hwf := hreach.sound.wf.nodes
  have hfinish : ∀ (dir : VirtualPath) (p : NodeRow),
    resolve.resolve w.db ctx.workspace_id dir = some p.toRawNode →
      p.kind = .Directory →
      ∃ pages, Finished (PagesIn rt
        (fun db page => SqliteFileSystem.read_dir cursors ctx db dir page) limit w) pages :=
    fun dir p hdir hkind => (directory.read_dir_lists hread dir limit).finishes w hreach
      ⟨p.toRawNode, hdir, hkind⟩
  induction h generalizing path with
  | @child n hn hup hactive =>
    obtain ⟨node, hnode⟩ := RawNode.into_node_ok (hwf.revision n hn)
    obtain ⟨pages, hpages⟩ := hfinish VirtualPath.root r hroot hkind
    have hmem := (mem_read_dir hread hwf hroot hr hpages).mpr ⟨n, hn, hup, hactive, hnode⟩
    have hjoin : VirtualPath.root.join node.name = .ok path :=
      (join_entry hwf hn (by simp [hup]) hnode).mpr
        (by rw [hpath, VirtualPath.segments_root, List.nil_append])
    exact ⟨node, hnode, .root hpages hmem hjoin⟩
  | @step names p n hp hn hup hactive ih =>
    obtain ⟨dir, rfl⟩ := beneath_path hwf hp
    obtain ⟨parent, hparent, hlisted⟩ := ih rfl
    have hdir : resolve.resolve w.db ctx.workspace_id dir = some p.toRawNode :=
      (resolve.resolve_iff_beneath hwf hroot hr hp.names_ne_nil (by simp)).mpr ⟨p, rfl, hp⟩
    obtain ⟨q, hq, hid, _, hqkind⟩ := hwf.parent n hn p.id hup
    obtain rfl := w.db.node_ext hq hp.mem hid
    obtain ⟨node, hnode⟩ := RawNode.into_node_ok (hwf.revision n hn)
    obtain ⟨pages, hpages⟩ := hfinish dir q hdir hqkind
    have hmem := (mem_read_dir hread hwf hdir (hp.live hwf hr) hpages).mpr
      ⟨n, hn, hup, hactive, hnode⟩
    obtain ⟨_, _, _, hsame⟩ := RawNode.into_node_shape hparent
    exact ⟨node, hnode, .inside hlisted (hsame.trans hqkind) hpages hmem
      ((join_entry hwf hn (by simp [hup]) hnode).mpr hpath)⟩

theorem read_dir_view (hread : ctx.has_capability .Read = true) (hreach : Reachable rt w)
    (hroot : resolve.resolve w.db ctx.workspace_id VirtualPath.root = some r.toRawNode)
    (hr : Live w.db ctx.workspace_id r) (hkind : r.kind = .Directory) :
    {p | ∃ node, Listed rt cursors ctx limit w p.1 node ∧ node.id = p.2} =
    Resolved ctx.workspace_id w.db := by
  have hwf := hreach.sound.wf.nodes
  ext ⟨path, id⟩
  rw [mem_resolved hwf hroot hr]
  constructor
  · rintro ⟨node, hlisted, hid⟩
    obtain ⟨n, hn, hnode⟩ := hlisted.beneath hread hwf hroot hr
    exact ⟨n, hn, (RawNode.into_node_key hnode).2.symm.trans hid⟩
  · rintro ⟨n, hn, hid⟩
    obtain ⟨node, hnode, hlisted⟩ := hn.listed hread hreach hroot hr hkind rfl
    exact ⟨node, hlisted, (RawNode.into_node_key hnode).2.trans hid⟩

end views

/-- The views of the tree agree: `tree`, `/**`, the empty query and `read_dir` from the
root on show the nodes that the paths lead to. -/
theorem views_agree (rt : Runtime) (cursors : SqliteFileSystem.Cursors) (ctx : RequestContext)
    (hread : ctx.has_capability .Read = true) (w : World) (hreach : Reachable rt w)
    (row : WorkspaceRow) (hrow : w.db.workspace? ctx.workspace_id = some row)
    (hshallow : Shallow ctx.workspace_id w.db) (limit : Nat) :
    ViewsAgree rt cursors ctx limit w ∧ ViewsFinish rt cursors ctx limit w := by
  have hwf := hreach.sound.wf.nodes
  obtain ⟨r, hroot, hr, hkind, hup⟩ := resolve.resolve_root hwf hrow
  have hopens : LeadsToDirectory ctx.workspace_id VirtualPath.root w.db :=
    ⟨r.toRawNode, hroot, hkind⟩
  have hcompile : search.compile_pattern "/**".toList = .ok [.DoubleStar] := rfl
  have hglob : search.Complete rt
    (fun db page => SqliteFileSystem.glob rt cursors ctx db "/**".toList page) limit w
      ctx.workspace_id VirtualPath.root (fun names _ => search.glob_match [.DoubleStar] names) :=
    search.glob_complete hread hreach hshallow hcompile rfl
  have hfind : search.Complete rt
    (fun db page => SqliteFileSystem.find rt cursors ctx db {} page) limit w ctx.workspace_id
      VirtualPath.root (fun _ raw => search.find_matches rt w.db {} raw) :=
    search.find_complete hread hreach hshallow hroot
  constructor
  · exact {
      tree pages hpages := tree_view hread hreach hroot hr hpages
      glob pages hpages := hglob.view
        (fun names _ => search.glob_match_double_star names) hreach hroot hr hup hpages
      find pages hpages := hfind.view
        (fun _ raw => search.find_matches_empty rt w.db raw) hreach hroot hr hup hpages
      read_dir := read_dir_view hread hreach hroot hr hkind
      visible := resolved_visible hwf hroot hr hup }
  · exact {
      tree := (directory.tree_lists hread VirtualPath.root {} limit).finishes w hreach hopens
      glob := hglob.finishes
      find := hfind.finishes
      read_dir path hpath := (directory.read_dir_lists hread path limit).finishes w hreach hpath }

/-- The views of the new workspace with its two directories. -/
theorem empty_views_agree : ViewsAgree Runtime.counting SqliteFileSystem.Cursors.counting
    (.trusted 0) 1 emptyWorld ∧
    ViewsFinish Runtime.counting SqliteFileSystem.Cursors.counting (.trusted 0) 1 emptyWorld := by
  obtain ⟨row, hrow⟩ := Option.isSome_iff_exists.mp (show (emptyWorld.db.workspace? 0).isSome =
    true by decide +kernel)
  exact views_agree Runtime.counting SqliteFileSystem.Cursors.counting
    (.trusted 0) rfl emptyWorld emptyWorld_reachable row hrow
    emptyWorld_shallow 1

end fslite
