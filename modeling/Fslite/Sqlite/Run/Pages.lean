import Fslite.Sqlite.Run.Listing
import Fslite.Sqlite.Run.Usage
import Mathlib.Data.Int.Order.Basic
import Mathlib.Logic.Encodable.Basic
import Mathlib.Logic.Equiv.List

namespace fslite

open Paging

/-- The successful calls of a method that lists by pages, in the course of a run. -/
def Pages {A : Type} (rt : Runtime) (method : Db → PageRequest → FsResult (Page A)) (limit : Nat)
    (w : World) (cursor : Option Text) (items : List A) (next : Option Text) : Prop :=
  Reachable rt w ∧ method w.db ⟨cursor, limit⟩ = .ok ⟨items, next⟩

/-- Whatever happens between the pages, the method lists what is present in the order
of the key; in one state, if there is something to list there, it comes to an end. -/
structure ListsByPages {A K : Type} [LinearOrder K] (rt : Runtime)
    (method : Db → PageRequest → FsResult (Page A)) (limit : Nat) (key : A → K) (opens : Db → Prop)
    (present : Db → A → Prop) : Prop where
  paginates : Paginates (Pages rt method limit) key (fun w => present w.db)
  finishes : ∀ w, Reachable rt w → opens w.db →
    ∃ pages, Finished (fun t cursor items next => t = w ∧
      Pages rt method limit t cursor items next) pages

/-- The sort key of a listed node. -/
def Node.key (node : Node) : Text ×ₗ WithBot NodeId := toLex (node.name, (node.id : WithBot NodeId))

theorem RawNode.into_node_key {row : RawNode} {node : Node} (h : row.into_node = .ok node) :
    node.key = child_key row ∧ node.id = row.id := by
  unfold RawNode.into_node at h
  split at h
  · cases h
  · cases h
    exact ⟨rfl, rfl⟩

/-- The path leads to a directory. -/
def LeadsToDirectory (ws : WorkspaceId) (path : VirtualPath) (db : Db) : Prop :=
  ∃ dir, resolve.resolve db ws path = some dir ∧ dir.kind = .Directory

namespace directory

/-- An entry of the directory that the path leads to. -/
def Lists (ws : WorkspaceId) (path : VirtualPath) (db : Db) (node : Node) : Prop :=
  ∃ dir, resolve.resolve db ws path = some dir ∧ ∃ n ∈ db.nodes, n.workspace_id = ws ∧
    n.parent_id = some dir.id ∧
    n.trashed_at_ms = none ∧ n.into_node = .ok node

/-- An entry of the tree beneath the directory that the path leads to. -/
def ListsTree (ws : WorkspaceId) (path : VirtualPath) (options : TreeOptions) (db : Db)
    (entry : TreeEntry) : Prop :=
  ∃ root, resolve.resolve db ws path = some root ∧ ∃ names n, Beneath db root.id names n ∧
    Within options.max_depth names ∧
    entry.path.segments = path.segments ++ names ∧ entry.depth = names.length ∧
      n.into_node = .ok entry.node

/-- The sort key of a tree entry. -/
def TreeEntry.key (entry : TreeEntry) : ℤ ×ₗ Text ×ₗ WithBot NodeId :=
  toLex ((entry.depth : ℤ), entry.node.key)

variable {rt : Runtime} {cursors : SqliteFileSystem.Cursors} {ctx : RequestContext}

theorem mem_fetch_children {db : Db} {ws : WorkspaceId} {id : NodeId} {row : RawNode} :
    row ∈ resolve.fetch_children db ws id ↔
    ∃ n ∈ db.nodes, n.workspace_id = ws ∧ n.parent_id = some id ∧ n.trashed_at_ms = none ∧
    n.toRawNode = row := by
  simp only [resolve.fetch_children, List.mem_insertionSort, List.mem_map, List.mem_filter,
    decide_eq_true_eq, and_assoc,
    Table.mem_def]

theorem read_dir_lists (hread : ctx.has_capability .Read = true) (path : VirtualPath)
    (limit : Nat) :
    ListsByPages rt (fun db page =>
      SqliteFileSystem.read_dir cursors ctx db path page) limit Node.key
      (LeadsToDirectory ctx.workspace_id path) (Lists ctx.workspace_id path) := by
  have hascending : ∀ db, Ascending child_key
      ((read_dir_keyset cursors ctx path limit).listing db) := by
    intro db
    simp only [read_dir_keyset]
    cases resolve.resolve db ctx.workspace_id path with
    | none => exact .nil
    | some dir => exact fetch_children_ascending db ctx.workspace_id dir.id
  constructor
  · refine (read_dir_keyset cursors ctx path limit).paginates
      (fun db row node h => (RawNode.into_node_key h).1)
      (fun w _ _ => hascending w.db) ?_
    rintro w _ ⟨_, dir, hdir, _⟩ node
    simp only [read_dir_keyset, Lists, hdir, Option.map_some, Option.getD_some, Option.some.injEq,
      exists_eq_left',
      mem_fetch_children]
    constructor
    · rintro ⟨n, hn, hws, hup, hactive, hnode⟩
      exact ⟨_, ⟨n, hn, hws, hup, hactive, rfl⟩, hnode⟩
    · rintro ⟨_, ⟨n, hn, hws, hup, hactive, rfl⟩, hnode⟩
      exact ⟨n, hn, hws, hup, hactive, hnode⟩
  · rintro w hreach ⟨dir, hdir, hkind⟩
    refine (read_dir_keyset cursors ctx path limit).finishes hreach ⟨hread, dir, hdir, hkind⟩
      (hascending w.db) ?_
    intro row hrow
    simp only [read_dir_keyset, hdir, Option.map_some, Option.getD_some, mem_fetch_children] at hrow
    obtain ⟨n, hn, _, _, _, rfl⟩ := hrow
    exact RawNode.into_node_ok (hreach.sound.wf.nodes.revision n hn)

/-- The entry of a node beneath the path. -/
theorem into_entry_of {db : Db} {path : VirtualPath} {r n : NodeRow} {names : List Text}
    (hwf : NodesWellFormed db) (hn : Beneath db r.id names n) (entry : TreeEntry) :
    into_entry path (Descendant.of names n) = .ok entry ↔
      entry.path.segments = path.segments ++ names ∧ entry.depth = names.length ∧
      n.into_node = .ok entry.node := by
  obtain ⟨q, hjoin, hsegments⟩ := path.join_names hn.names_ne_nil (hn.segments hwf)
  obtain ⟨entry_path, depth, node⟩ := entry
  simp only [into_entry, Descendant.of, hjoin, FsResult.bind_eq_ok, Except.ok.injEq,
    exists_eq_left', pure, Except.pure,
    TreeEntry.mk.injEq]
  constructor
  · rintro ⟨_, hnode, rfl, rfl, rfl⟩
    exact ⟨hsegments, rfl, hnode⟩
  · rintro ⟨hpath, rfl, hnode⟩
    exact ⟨node, hnode, VirtualPath.eq_of_segments_eq (hsegments.trans hpath.symm), rfl, rfl⟩

theorem into_entry_key {path : VirtualPath} {row : Descendant} {entry : TreeEntry}
    (h : into_entry path row = .ok entry) :
    entry.key = descendant_key row := by
  obtain ⟨_, _, h⟩ := FsResult.bind_eq_ok.mp h
  obtain ⟨node, hnode, h⟩ := FsResult.bind_eq_ok.mp h
  cases h
  rw [TreeEntry.key, (RawNode.into_node_key hnode).1, descendant_key]

theorem tree_lists (hread : ctx.has_capability .Read = true) (path : VirtualPath)
    (options : TreeOptions) (limit : Nat) :
    ListsByPages rt (fun db page =>
      SqliteFileSystem.tree rt cursors ctx db path options page) limit TreeEntry.key
      (LeadsToDirectory ctx.workspace_id path) (ListsTree ctx.workspace_id path options) := by
  have hascending : ∀ db, Ascending descendant_key
      ((tree_keyset rt cursors ctx path options limit).listing db) := by
    intro db
    simp only [tree_keyset]
    cases hdir : resolve.resolve db ctx.workspace_id path with
    | none => exact .nil
    | some dir =>
      obtain ⟨r, rfl, hr⟩ := resolve.resolve_live hdir
      exact subtree_ascending hr options.max_depth
  constructor
  · refine (tree_keyset rt cursors ctx path options limit).paginates
      (fun db row entry h => into_entry_key h)
      (fun w _ _ => hascending w.db) ?_
    rintro w hreach ⟨_, dir, hdir, _⟩ entry
    have hwf := hreach.sound.wf.nodes
    obtain ⟨r, rfl, hr⟩ := resolve.resolve_live hdir
    simp only [tree_keyset, ListsTree, hdir, Option.map_some, Option.getD_some, Option.some.injEq,
      exists_eq_left', mem_subtree hwf hr]
    constructor
    · rintro ⟨names, n, hn, hwithin, hentry⟩
      exact ⟨_, ⟨names, n, hn, hwithin, rfl⟩, (into_entry_of hwf hn entry).mpr hentry⟩
    · rintro ⟨_, ⟨names, n, hn, hwithin, rfl⟩, hentry⟩
      exact ⟨names, n, hn, hwithin, (into_entry_of hwf hn entry).mp hentry⟩
  · rintro w hreach ⟨dir, hdir, hkind⟩
    have hwf := hreach.sound.wf.nodes
    obtain ⟨r, rfl, hr⟩ := resolve.resolve_live hdir
    refine (tree_keyset rt cursors ctx path options limit).finishes hreach
      ⟨hread, _, hdir, hkind, descendants_ok hwf hr options.max_depth⟩ (hascending w.db) ?_
    intro row hrow
    simp only [tree_keyset, hdir, Option.map_some, Option.getD_some, mem_subtree hwf hr] at hrow
    obtain ⟨names, n, hn, _, rfl⟩ := hrow
    obtain ⟨q, _, hsegments⟩ := path.join_names hn.names_ne_nil (hn.segments hwf)
    obtain ⟨node, hnode⟩ := RawNode.into_node_ok (hwf.revision n hn.mem)
    exact ⟨⟨q, names.length, node⟩, (into_entry_of hwf hn _).mpr ⟨hsegments, rfl, hnode⟩⟩

end directory

namespace trash

variable {rt : Runtime} {cursors : SqliteFileSystem.Cursors} {ctx : RequestContext}

/-- The entry of a trash record of the workspace. -/
def ListsTrash (rt : Runtime) (ws : WorkspaceId) (db : Db) (e : TrashEntry) : Prop :=
  ∃ t ∈ db.trash, t.workspace_id = ws ∧ entry rt db ws t = .ok e

/-- The path that a change row's text stands for. -/
def original_path (old_path : Option Text) : FsResult VirtualPath :=
  match old_path with
  | some text => VirtualPath.parse text
  | none => .ok VirtualPath.root

theorem build_trash_entry_eq_ok {t : TrashRow} {row : Option RawNode}
    {context : Option (Option Text × Text)} {e : TrashEntry} :
    build_trash_entry rt t row context = .ok e ↔ ∃ raw, row = some raw ∧
      raw.into_node = .ok e.node ∧
      original_path (context.getD (none, "\x7b\x7d".toList)).1 = .ok e.original_path ∧
      e.id = t.id ∧ e.trashed_at_ms = t.deleted_at_ms ∧
      e.actor_metadata = rt.actorMetadata (context.getD (none, "\x7b\x7d".toList)).2 := by
  obtain ⟨id, node, path, trashed_at_ms, actor_metadata⟩ := e
  generalize hread : context.getD (none, "\x7b\x7d".toList) = read
  obtain ⟨old_path, actor_json⟩ := read
  unfold build_trash_entry original_path
  cases row with
  | none => simp
  | some raw =>
    simp only [hread]
    cases old_path with
    | none =>
      simp only [FsResult.bind_eq_ok, Except.ok.injEq, exists_eq_left', pure, Except.pure,
        TrashEntry.mk.injEq, Option.some.injEq]
      constructor
      · rintro ⟨_, hnode, rfl, rfl, rfl, rfl, rfl⟩
        exact ⟨hnode, rfl, rfl, rfl, rfl⟩
      · rintro ⟨hnode, rfl, rfl, rfl, rfl⟩
        exact ⟨node, hnode, rfl, rfl, rfl, rfl, rfl⟩
    | some text =>
      simp only [FsResult.bind_eq_ok, Except.ok.injEq, exists_eq_left', pure, Except.pure,
        TrashEntry.mk.injEq, Option.some.injEq]
      constructor
      · rintro ⟨_, hpath, _, hnode, rfl, rfl, rfl, rfl, rfl⟩
        exact ⟨hnode, hpath, rfl, rfl, rfl⟩
      · rintro ⟨hnode, hpath, rfl, rfl, rfl⟩
        exact ⟨path, hpath, node, hnode, rfl, rfl, rfl, rfl, rfl⟩

theorem entry_id {db : Db} {ws : WorkspaceId} {t : TrashRow} {e : TrashEntry}
    (h : entry rt db ws t = .ok e) : e.id = t.id := by
  obtain ⟨_, _, _, _, hid, _⟩ := build_trash_entry_eq_ok.mp h
  exact hid

/-- Every record of a store that has been reached has its entry. -/
theorem entry_ok {w : World} (hreach : Reachable rt w) {t : TrashRow} (ht : t ∈ w.db.trash) :
    ∃ e, entry rt w.db t.workspace_id t = .ok e := by
  have hwf := hreach.sound.wf
  obtain ⟨n, hn, hid, hws, _⟩ := hwf.trash.record t ht
  have hnode : resolve.fetch_by_id_any w.db t.workspace_id t.node_id = some n.toRawNode :=
    resolve.fetch_by_id_any_eq_some.mpr ⟨n, hn, rfl, hws, hid⟩
  obtain ⟨node, hinto⟩ := RawNode.into_node_ok (hwf.nodes.revision n hn)
  have hreadable : ∀ x ∈ w.db.changes, x.Readable := by
    obtain ⟨c, hc, rfl⟩ := hreach
    exact hc.readable.2
  have hpath : ∀ old_path actor_json,
    fetch_trash_change_context w.db t.workspace_id t.node_id = some (old_path, actor_json) →
      PathText old_path := by
    intro old_path actor_json hcontext
    obtain ⟨c, hc, hpair⟩ := Option.map_eq_some_iff.mp hcontext
    cases hpair
    exact (hreadable c (List.mem_filter.mp
      ((List.mem_insertionSort _).mp (List.mem_of_head? hc))).1).old_path
  obtain ⟨path, hparse⟩ : ∃ path, original_path
      ((fetch_trash_change_context w.db t.workspace_id t.node_id).getD
        (none, "\x7b\x7d".toList)).1 = .ok path := by
    cases hcontext : fetch_trash_change_context w.db t.workspace_id t.node_id with
    | none => exact ⟨_, rfl⟩
    | some context =>
      obtain ⟨path, hpath⟩ := hpath context.1 context.2 hcontext
      rw [Option.getD_some, hpath]
      cases path with
      | none => exact ⟨_, rfl⟩
      | some path => exact ⟨path, path.parse_as_str⟩
  exact ⟨⟨t.id, node, path, t.deleted_at_ms, _⟩, build_trash_entry_eq_ok.mpr
    ⟨_, hnode, hinto, hparse, rfl, rfl, rfl⟩⟩

theorem list_trash_lists (hread : ctx.has_capability .Read = true) (limit : Nat) :
    ListsByPages rt (fun db page =>
      SqliteFileSystem.list_trash rt cursors ctx db page) limit TrashEntry.id (fun _ => True)
      (ListsTrash rt ctx.workspace_id) := by
  constructor
  · refine (list_trash_keyset rt cursors ctx limit).paginates (fun db t e h => entry_id h)
      (fun w _ _ => records_ascending w.db ctx.workspace_id) ?_
    intro w _ _ e
    simp only [list_trash_keyset, ListsTrash, mem_records, and_assoc]
  · intro w hreach _
    refine (list_trash_keyset rt cursors ctx limit).finishes hreach hread
      (records_ascending w.db ctx.workspace_id) ?_
    intro t ht
    obtain ⟨ht, hws⟩ := mem_records.mp ht
    simpa only [list_trash_keyset, hws] using entry_ok hreach ht

end trash

/-- `read_dir`, `tree` and `list_trash` list by pages: the entries of a directory by name,
those of the tree beneath it by depth and name, and the trash by record. -/
theorem lists_by_pages (rt : Runtime) (cursors : SqliteFileSystem.Cursors) (ctx : RequestContext)
    (hread : ctx.has_capability .Read = true) (limit : Nat) :
    (∀ path, ListsByPages rt (fun db page =>
    SqliteFileSystem.read_dir cursors ctx db path page) limit Node.key
      (LeadsToDirectory ctx.workspace_id path) (directory.Lists ctx.workspace_id path)) ∧
    (∀ path options, ListsByPages rt
    (fun db page => SqliteFileSystem.tree rt cursors ctx db path options page) limit
      directory.TreeEntry.key (LeadsToDirectory ctx.workspace_id path)
        (directory.ListsTree ctx.workspace_id path options)) ∧
    ListsByPages rt (fun db page =>
      SqliteFileSystem.list_trash rt cursors ctx db page) limit TrashEntry.id (fun _ => True)
      (trash.ListsTrash rt ctx.workspace_id) :=
  ⟨fun path => directory.read_dir_lists hread path limit, fun path options =>
    directory.tree_lists hread path options limit,
    trash.list_trash_lists hread limit⟩

/-- A plain spelling of payloads whose fields can be counted. -/
def Codec.counting {A B : Type} [Encodable B] (fields : A → B) (make : B → A)
    (hmake : ∀ payload, make (fields payload) = payload) :
    Codec A where
  encode payload := List.replicate (Encodable.encode (fields payload)) '|'
  decode text := (Encodable.decode text.length).map make
  decode_encode payload := by rw [List.length_replicate, Encodable.encodek, Option.map_some, hmake]

instance encodableChar : Encodable Char := Encodable.ofLeftInjection Char.toNat (fun n => some (Char.ofNat n))
    (fun c => by simp)

/-- The listings' cursors in the plain spelling. -/
def SqliteFileSystem.Cursors.counting : SqliteFileSystem.Cursors where
  dir := .counting (B := ℕ × ℕ × ℕ × List Char × ℕ)
    (fun c => (c.v, c.workspace_id, c.parent_id, c.last_name, c.last_id))
    (fun f => ⟨f.1, f.2.1, f.2.2.1, f.2.2.2.1, f.2.2.2.2⟩) (fun _ => rfl)
  tree := .counting (B := ℕ × ℕ × ℕ × ℤ × List Char × ℕ)
    (fun c => (c.v, c.workspace_id, c.root_id, c.last_depth, c.last_name, c.last_id))
    (fun f => ⟨f.1, f.2.1, f.2.2.1, f.2.2.2.1, f.2.2.2.2.1, f.2.2.2.2.2⟩) (fun _ => rfl)
  trash := .counting (B := ℕ × ℕ × ℕ) (fun c => (c.v, c.workspace_id, c.last_id))
    (fun f => ⟨f.1, f.2.1, f.2.2⟩) (fun _ => rfl)
  search := .counting (B := ℕ × ℕ × List Char × ℤ × List Char × Option ℕ)
    (fun c => (c.v, c.workspace_id, c.root, c.last_depth, c.last_name, c.last_id))
    (fun f => ⟨f.1, f.2.1, f.2.2.1, f.2.2.2.1, f.2.2.2.2.1, f.2.2.2.2.2⟩) (fun _ => rfl)

/-- The two directories of the new workspace are listed one at a time. -/
theorem empty_lists_by_pages : ∃ pages, Finished (fun t cursor items next =>
      t = serveAll Runtime.counting emptyRequests ⟨Db.empty, 0⟩ ∧
      Pages Runtime.counting (fun db page =>
        SqliteFileSystem.read_dir SqliteFileSystem.Cursors.counting
          (.trusted 0) db VirtualPath.root page) 1 t cursor items next) pages ∧
    ∀ node, node ∈ contents pages ↔
      directory.Lists 0 VirtualPath.root
        (serveAll Runtime.counting emptyRequests ⟨Db.empty, 0⟩).db node := by
  have hlists := (lists_by_pages Runtime.counting SqliteFileSystem.Cursors.counting
    (.trusted 0) rfl 1).1 VirtualPath.root
  have hroot : (resolve.resolve
    (serveAll Runtime.counting emptyRequests
    ⟨Db.empty, 0⟩).db 0 VirtualPath.root).map RawNode.kind =
      some .Directory := by decide +kernel
  obtain ⟨pages, hpages⟩ := hlists.finishes _ ((Reachable.empty Runtime.counting).serveAll emptyRequests)
    (Option.map_eq_some_iff.mp hroot)
  exact ⟨pages, hpages, hlists.paginates.whole pages _ hpages⟩

end fslite
