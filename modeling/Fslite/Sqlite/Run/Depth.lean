import Fslite.Sqlite.Run.Views

namespace fslite.directory

open Paging

/-- An entry for an active descendant of the directory at the path that is no deeper
below it than the given depth. -/
def Descends (ws : WorkspaceId) (path : VirtualPath) (max_depth : Option Nat) (db : Db)
    (entry : TreeEntry) : Prop :=
  ∃ root, resolve.resolve db ws path = some root ∧ ∃ names n, Beneath db root.id names n ∧
    (∀ depth, max_depth = some depth → names.length ≤ depth) ∧
      path.join (['/'].intercalate names) = .ok entry.path ∧
    entry.depth = names.length ∧ n.into_node = .ok entry.node

/-- The entries are those of the descendants down to the given depth, each once. -/
structure RespectsDepth (ws : WorkspaceId) (path : VirtualPath) (max_depth : Option Nat) (db : Db)
    (entries : List TreeEntry) : Prop where
  once : entries.Nodup
  exact : ∀ entry, entry ∈ entries ↔ Descends ws path max_depth db entry

variable {rt : Runtime} {cursors : SqliteFileSystem.Cursors} {ctx : RequestContext} {limit : Nat}
  {w : World} {path : VirtualPath}
variable {dir : RawNode} {options : TreeOptions} {pages : List (World × List TreeEntry)}

/-- What the pages show: the base of the recursive query is there whatever the depth is. -/
theorem mem_tree_pages (hread : ctx.has_capability .Read = true) (hreach : Reachable rt w)
    (hpages : Finished (PagesIn rt
    (fun db page => SqliteFileSystem.tree rt cursors ctx db path options page) limit w) pages) :
    (contents pages).Nodup ∧ ∀ entry, entry ∈ contents pages ↔
      Descends ctx.workspace_id path
        (options.max_depth.map (fun depth => max depth 1)) w.db entry := by
  have hlists : ListsByPages rt
    (fun db page => SqliteFileSystem.tree rt cursors ctx db path options page) limit TreeEntry.key _ _ :=
    tree_lists hread path options limit
  constructor
  · have hascending := hlists.paginates.finished pages (hpages.mono (fun _ _ _ _ h => h.2))
    exact hascending.imp (fun {a b} h heq => by rw [heq] at h; exact lt_irrefl _ h)
  · intro entry
    rw [hlists.paginates.whole pages w hpages]
    have hwf := hreach.sound.wf.nodes
    refine exists_congr (fun root => and_congr_right
      (fun _ => exists_congr (fun names => exists_congr (fun n => ?_))))
    refine and_congr_right (fun hn => and_congr ?_ (and_congr_left (fun _ => ?_)))
    · cases hdepth : options.max_depth with
      | none => simp [Within]
      | some depth => simp [Within]
    · obtain ⟨q, hjoin, hsegments⟩ := path.join_names hn.names_ne_nil (hn.segments hwf)
      rw [hjoin, Except.ok.injEq, ← hsegments]
      exact ⟨fun h => (VirtualPath.eq_of_segments_eq h).symm, fun h => by rw [h]⟩

theorem Descends.exact_depth {ws : WorkspaceId} {max_depth : Option Nat} {db : Db}
    {entry : TreeEntry} (hdepth : max_depth ≠ some 0) :
    Descends ws path (max_depth.map (fun depth => max depth 1)) db entry ↔
      Descends ws path max_depth db entry := by
  have hsame : max_depth.map (fun depth => max depth 1) = max_depth := by
    cases max_depth with
    | none => rfl
    | some depth =>
      have hpos : 0 < depth := Nat.pos_of_ne_zero (fun h => hdepth (congrArg some h))
      rw [Option.map_some, Nat.max_eq_left hpos]
  rw [hsame]

/-- Where something is below the directory, a child of it is. -/
theorem first_child {db : Db} {root : NodeId} {names : List Text} {n : NodeRow}
    (h : Beneath db root names n) :
    ∃ m ∈ db.nodes, m.parent_id = some root ∧ m.trashed_at_ms = none := by
  induction h with
  | @child n hn hup hactive => exact ⟨n, hn, hup, hactive⟩
  | step _ _ _ _ ih => exact ih

/-- Nothing is at depth zero below the directory. -/
theorem Descends.not_zero {ws : WorkspaceId} {db : Db} {entry : TreeEntry} :
    ¬ Descends ws path (some 0) db entry := by
  rintro ⟨root, _, names, n, hn, hwithin, _⟩
  have hlength := hwithin 0 rfl
  exact hn.names_ne_nil (List.length_eq_zero_iff.mp (Nat.le_zero.mp hlength))

/-- The children are shown whatever the depth is. -/
theorem Descends.of_child {ws : WorkspaceId} {db : Db} {n : NodeRow} (hwf : NodesWellFormed db)
    (hdir : resolve.resolve db ws path = some dir) (hn : n ∈ db.nodes)
    (hup : n.parent_id = some dir.id) (hactive : n.trashed_at_ms = none) (depth : Nat) :
    ∃ entry, Descends ws path (some (max depth 1)) db entry := by
  have hchild : Beneath db dir.id [n.name] n := .child hn hup hactive
  obtain ⟨q, hjoin, _⟩ := path.join_names hchild.names_ne_nil (hchild.segments hwf)
  obtain ⟨node, hnode⟩ := RawNode.into_node_ok (hwf.revision n hn)
  refine ⟨⟨q, 1, node⟩, dir, hdir, [n.name], n, hchild, ?_, hjoin, rfl, hnode⟩
  rintro _ ⟨⟩
  exact Nat.le_max_right depth 1

/-- With the depth zero, what a directory that is not empty shows is too deep. -/
theorem not_respected (hread : ctx.has_capability .Read = true) (hreach : Reachable rt w)
    (hdir : resolve.resolve w.db ctx.workspace_id path = some dir)
    (hzero : options.max_depth = some 0)
    (hchild : ∃ n ∈ w.db.nodes, n.parent_id = some dir.id ∧ n.trashed_at_ms = none)
    (hpages : Finished (PagesIn rt
    (fun db page => SqliteFileSystem.tree rt cursors ctx db path options page) limit w) pages) :
    ¬ RespectsDepth ctx.workspace_id path options.max_depth w.db (contents pages) := by
  intro hrespects
  obtain ⟨n, hn, hup, hactive⟩ := hchild
  obtain ⟨entry, hentry⟩ := Descends.of_child hreach.sound.wf.nodes hdir hn hup hactive 0
  have hshown : entry ∈ contents pages := by
    rw [(mem_tree_pages hread hreach hpages).2, hzero]
    exact hentry
  rw [hrespects.exact, hzero] at hshown
  exact Descends.not_zero hshown

/-- The pages of a directory's tree come to an end, and they keep to the depth that the
options give unless that is zero: the children of the directory are shown then too. -/
theorem tree_respects_depth_iff (rt : Runtime) (cursors : SqliteFileSystem.Cursors)
    (ctx : RequestContext) (hread : ctx.has_capability .Read = true) (w : World)
    (hreach : Reachable rt w) (path : VirtualPath) (dir : RawNode)
    (hdir : resolve.resolve w.db ctx.workspace_id path = some dir) (hkind : dir.kind = .Directory)
    (limit : Nat) (options : TreeOptions) :
    (∃ pages, Finished (PagesIn rt
    (fun db page => SqliteFileSystem.tree rt cursors ctx db path options page) limit w) pages) ∧
    ∀ pages, Finished (PagesIn rt
      (fun db page => SqliteFileSystem.tree rt cursors ctx db path options page) limit w) pages →
      (RespectsDepth ctx.workspace_id path options.max_depth w.db (contents pages) ↔
        options.max_depth ≠ some 0 ∨ ∀ n ∈ w.db.nodes, n.parent_id = some dir.id →
          n.trashed_at_ms ≠ none) := by
  have hwf := hreach.sound.wf.nodes
  refine ⟨(tree_lists hread path options limit).finishes w hreach ⟨dir, hdir, hkind⟩,
    fun pages hpages => ?_⟩
  obtain ⟨honce, hmem⟩ := mem_tree_pages hread hreach hpages
  constructor
  · intro hrespects
    by_contra hnot
    push Not at hnot
    exact not_respected hread hreach hdir hnot.1 hnot.2 hpages hrespects
  · intro hcase
    refine ⟨honce, fun entry => ?_⟩
    rw [hmem]
    by_cases hzero : options.max_depth = some 0
    · have hempty := hcase.resolve_left (fun h => h hzero)
      rw [hzero]
      refine iff_of_false ?_ Descends.not_zero
      rintro ⟨root, hroot, names, n, hn, _⟩
      rw [hdir, Option.some.injEq] at hroot
      subst hroot
      obtain ⟨m, hm, hup, hactive⟩ := first_child hn
      exact hempty m hm hup hactive
    · exact Descends.exact_depth hzero

theorem emptyWorld_root : ∃ dir, resolve.resolve emptyWorld.db 0 VirtualPath.root = some dir ∧
    dir.kind = .Directory ∧
    ∃ n ∈ emptyWorld.db.nodes, n.parent_id = some dir.id ∧ n.trashed_at_ms = none := by
  obtain ⟨dir, hdir, hshape⟩ :=
    Option.map_eq_some_iff.mp (show (resolve.resolve emptyWorld.db 0 VirtualPath.root).map
    (fun dir => (dir.kind, dir.id)) = some (.Directory, 1) by decide +kernel)
  rw [Prod.mk.injEq] at hshape
  have hchild : ∃ n ∈ emptyWorld.db.nodes.rows, n.parent_id = some 1 ∧
    n.trashed_at_ms = none := by decide +kernel
  exact ⟨dir, hdir, hshape.1, hshape.2.symm ▸ hchild⟩

/-- Asked for the depth zero, the root of the new workspace shows its two directories. -/
theorem zero_depth_shows_children :
    Reachable Runtime.counting emptyWorld ∧ ∃ pages,
    Finished (PagesIn Runtime.counting (fun db page =>
      SqliteFileSystem.tree Runtime.counting SqliteFileSystem.Cursors.counting
        (.trusted 0) db VirtualPath.root { max_depth := some 0 } page)
      1 emptyWorld) pages ∧ ¬ RespectsDepth 0 VirtualPath.root (some 0) emptyWorld.db
        (contents pages) := by
  obtain ⟨dir, hdir, hkind, hchild⟩ := emptyWorld_root
  have hlists : ListsByPages Runtime.counting
    (fun db page => SqliteFileSystem.tree Runtime.counting SqliteFileSystem.Cursors.counting
      (.trusted 0) db VirtualPath.root { max_depth := some 0 } page) 1 TreeEntry.key _ _ :=
        tree_lists rfl _ _ _
  obtain ⟨pages, hpages⟩ := hlists.finishes emptyWorld emptyWorld_reachable ⟨dir, hdir, hkind⟩
  exact ⟨emptyWorld_reachable, pages, hpages,
    not_respected rfl emptyWorld_reachable hdir rfl hchild hpages⟩

/-- The depth one is kept to. -/
theorem one_depth_respected : ∃ pages, Finished (PagesIn Runtime.counting (fun db page =>
      SqliteFileSystem.tree Runtime.counting SqliteFileSystem.Cursors.counting
        (.trusted 0) db VirtualPath.root { max_depth := some 1 } page)
      1 emptyWorld) pages ∧ RespectsDepth 0 VirtualPath.root (some 1) emptyWorld.db
        (contents pages) := by
  obtain ⟨dir, hdir, hkind, _⟩ := emptyWorld_root
  obtain ⟨⟨pages, hpages⟩, hrespects⟩ :=
    tree_respects_depth_iff Runtime.counting SqliteFileSystem.Cursors.counting (.trusted 0) rfl
    emptyWorld emptyWorld_reachable VirtualPath.root dir hdir hkind 1 { max_depth := some 1 }
  exact ⟨pages, hpages, (hrespects pages hpages).mpr (Or.inl (by simp))⟩

end fslite.directory
