import Fslite.Sqlite.Run.Content
import Fslite.Sqlite.Run.Lone
import Fslite.Sqlite.Run.Views

namespace fslite

open Paging

/-- No segment of the path, the last one included, is a symbolic link. -/
def Unlinked (ws : WorkspaceId) (path : VirtualPath) (db : Db) : Prop :=
  ∀ (front : VirtualPath) raw, front.segments <+: path.segments →
    resolve.resolve db ws front = some raw → raw.kind ≠ .Symlink

namespace resolve

variable {db : Db} {ws : WorkspaceId} {follow_final : Bool} {current raw node : RawNode}
  {segments rest : List Text} {k hops : Nat}
variable {path : VirtualPath}

/-- Between two links the walk of `resolve_following` is the plain one. -/
theorem walk_of_descend (h : descend db ws follow_final current segments k = .Done (.Found raw)) :
    walk db ws current segments = some raw ∧ (follow_final = true → raw.kind ≠ .Symlink) := by
  induction segments generalizing current k with
  | nil =>
    unfold descend at h
    split at h
    · cases h
    · rename_i hfinal
      cases h
      exact ⟨rfl, fun hfollow hlink => hfinal ⟨hfollow, hlink⟩⟩
  | cons segment rest ih =>
    unfold descend at h
    split at h
    · rename_i hdir
      split at h
      · rename_i child hchild
        rw [walk, if_neg (not_not.mpr hdir), hchild]
        exact ih h
      · split at h <;> cases h
    · cases h
    · cases h

/-- Where the walk stops at a link, a part of the segments leads to the link. -/
theorem link_of_descend (h : descend db ws follow_final current segments k = .Link node rest) :
    ∃ front, segments = front ++ rest ∧ walk db ws current front = some node ∧
    node.kind = .Symlink ∧ (rest = [] → follow_final = true) := by
  induction segments generalizing current k with
  | nil =>
    unfold descend at h
    split at h
    · rename_i hfinal
      cases h
      exact ⟨[], rfl, rfl, hfinal.2, fun _ => hfinal.1⟩
    · cases h
  | cons segment pending ih =>
    unfold descend at h
    split at h
    · rename_i hdir
      split at h
      · rename_i child hchild
        obtain ⟨front, hsplit, hwalk, hlink⟩ := ih h
        refine ⟨segment :: front, by rw [hsplit, List.cons_append], ?_, hlink⟩
        rw [walk, if_neg (not_not.mpr hdir), hchild]
        exact hwalk
      · split at h <;> cases h
    · rename_i hlink
      cases h
      exact ⟨[], rfl, rfl, hlink, fun hnil => absurd hnil (List.cons_ne_nil _ _)⟩
    · cases h

theorem follow_loop_unlinked (h : follow_loop db ws true hops current segments k = .Found raw) :
    raw.kind ≠ .Symlink := by
  induction hops generalizing current segments k with
  | zero =>
    unfold follow_loop at h
    split at h
    · rename_i outcome hdescend
      subst h
      exact (walk_of_descend hdescend).2 rfl
    · cases h
  | succ hops ih =>
    unfold follow_loop at h
    split at h
    · rename_i outcome hdescend
      subst h
      exact (walk_of_descend hdescend).2 rfl
    · simp only at h
      split at h
      · cases h
      · exact ih h

/-- A lookup that follows every link ends at none. -/
theorem resolve_following_unlinked (h : resolve_following db ws path true = .Found raw) :
    raw.kind ≠ .Symlink := by
  unfold resolve_following at h
  split at h
  · cases h
  · exact follow_loop_unlinked h

/-- Without links in the path the lookup that follows them is the plain one. -/
theorem resolve_of_unlinked (hpath : Unlinked ws path db)
    (h : resolve_following db ws path true = .Found raw) :
    resolve db ws path = some raw := by
  unfold resolve_following at h
  split at h
  · cases h
  · rename_i root hroot
    unfold follow_loop at h
    split at h
    · rename_i outcome hdescend
      subst h
      unfold resolve
      rw [hroot]
      exact (walk_of_descend hdescend).1
    · rename_i node rest hdescend
      obtain ⟨front, hsplit, hwalk, hlink, _⟩ := link_of_descend hdescend
      have hall : ∀ s ∈ front, Segment s := fun s hs =>
        VirtualPath.segment_of_mem (hsplit ▸ List.mem_append_left rest hs)
      have hfront : (VirtualPath.ofSegments front hall).segments = front :=
        VirtualPath.segments_ofSegments hall
      refine absurd hlink (hpath (.ofSegments front hall) node
        (hfront.symm ▸ ⟨rest, hsplit.symm⟩) ?_)
      unfold resolve
      rw [hroot, hfront]
      exact hwalk

/-- Behind a link, or at it, the plain lookup finds nothing but a link. -/
theorem link_of_resolve (hpath : ¬ Unlinked ws path db) (h : resolve db ws path = some raw) :
    raw.kind = .Symlink := by
  unfold Unlinked at hpath
  push Not at hpath
  obtain ⟨front, link, ⟨rest, hsplit⟩, hfound, hlink⟩ := hpath
  unfold resolve at h hfound
  split at h
  · cases h
  · rename_i root hroot
    simp only [hroot] at hfound
    rw [← hsplit, walk_split, hfound, Option.bind_some] at h
    cases rest with
    | nil =>
      cases h
      exact hlink
    | cons segment rest =>
      rw [walk, if_pos (by rw [hlink]; decide)] at h
      cases h

end resolve

namespace content

/-- The bytes that a file's chunks hold, in order, up to its size. -/
def stored (db : Db) (raw : RawNode) : Bytes :=
  match raw.content_generation_id with
  | none => []
  | some g =>
    if raw.size = 0 then []
    else (List.range' 0 (chunk_index_of (raw.size - 1) + 1)).flatMap (fun i =>
      ChunkWriter.clip 0 raw.size i (fetch_chunk_bytes db g i))

end content

/-- What `stat` reports as a file, `read` returns as it is stored, and a lone `write`
replaces as far as the workspace's quota allows. -/
structure ServesFile (rt : Runtime) (ctx : RequestContext) (path : VirtualPath) (w : World)
    (node : Node) : Prop where
  read : ∃ n file chunks, w.db.node? node.id = some n ∧
    (Request.Read path {}).alone rt ctx w = (.ok (.Read file (List.map .ok chunks)), w) ∧
    file.logical_length = node.logical_size ∧ file.revision = node.revision ∧
      chunks.flatten = content.stored w.db n.toRawNode
  write : ∀ (chunks : List Bytes) row, w.db.workspace? ctx.workspace_id = some row →
    (chunks.flatten.length ≤ row.max_file_bytes → ∃ node' raw w',
      (Request.Write path (chunks.map .ok) {}).alone rt ctx w = (.ok (.Node node'), w') ∧
        node'.id = node.id ∧
      w'.db.Stores ctx.workspace_id path chunks.flatten raw ∧ raw.id = node.id) ∧
    (row.max_file_bytes < chunks.flatten.length → ∃ w',
      (Request.Write path (chunks.map .ok) {}).alone rt ctx w =
        (.error (FsError.quota_exceeded (content.ChunkWriter.quota_message row.max_file_bytes)),
          w') ∧ w'.db = w.db)

/-- What `stat` reports as a directory, `read_dir` and `tree` list, each entry once. -/
structure ServesDirectory (rt : Runtime) (cursors : SqliteFileSystem.Cursors) (ctx : RequestContext)
    (path : VirtualPath) (w : World) (node : Node) : Prop where
  read_dir : ∀ limit, (∃ pages,
    Finished (PagesIn rt (fun db page =>
    SqliteFileSystem.read_dir cursors ctx db path page) limit w) pages) ∧
    ∀ pages, Finished (PagesIn rt
      (fun db page => SqliteFileSystem.read_dir cursors ctx db path page) limit w) pages →
      (contents pages).Nodup ∧ ∀ child, child ∈ contents pages ↔
        ∃ n ∈ w.db.nodes, n.parent_id = some node.id ∧ n.trashed_at_ms = none ∧
          n.into_node = .ok child
  tree : ∀ limit, (∃ pages, Finished
    (PagesIn rt (fun db page => SqliteFileSystem.tree rt cursors ctx db path
    {} page) limit w) pages) ∧
    ∀ pages, Finished (PagesIn rt
      (fun db page => SqliteFileSystem.tree rt cursors ctx db path {} page) limit w) pages →
      (contents pages).Nodup ∧ ∀ entry, entry ∈ contents pages ↔
        ∃ names n, Beneath w.db node.id names n ∧ entry.path.segments = path.segments ++ names ∧
          entry.depth = names.length ∧
          n.into_node = .ok entry.node

/-- The other methods address the node that `stat` reports. -/
structure Addresses (rt : Runtime) (cursors : SqliteFileSystem.Cursors) (ctx : RequestContext)
    (path : VirtualPath) (w : World) (node : Node) : Prop where
  file : node.kind = .File → ServesFile rt ctx path w node
  directory : node.kind = .Directory → ServesDirectory rt cursors ctx path w node

section addressing

variable {rt : Runtime} {cursors : SqliteFileSystem.Cursors} {ctx : RequestContext}
  {path : VirtualPath} {w : World} {node : Node}
variable {n : NodeRow}

/-- `stat` reports the row that the lookup ends at. -/
theorem stat_run (hread : ctx.has_capability .Read = true) {raw : RawNode}
    (hfound : resolve.resolve_following w.db ctx.workspace_id path true = .Found raw)
    (hnode : raw.into_node = .ok node) :
    (SqliteFileSystem.stat ctx path true).run.run (DbCall.exec rt) w = (.ok node, w) := by
  have hexec : (DbCall.resolve_following ctx.workspace_id path true).exec rt w =
      (.ok (.Found raw), w) := by
    rw [← hfound]
    rfl
  unfold SqliteFileSystem.stat
  rw [Task.run_required hread, Task.run_bind_ok (Task.run_call.trans hexec)]
  simp only [hnode]
  rfl

theorem stat_of_found (hread : ctx.has_capability .Read = true) {raw : RawNode}
    (hfound : resolve.resolve_following w.db ctx.workspace_id path true = .Found raw)
    (hnode : raw.into_node = .ok node) :
    (Request.Stat path true).alone rt ctx w = (.ok (.Node node), w) := by
  show (Reply.Node <$> SqliteFileSystem.stat ctx path true : Task Reply).run.run
    (DbCall.exec rt) w = _
  rw [Task.run_map, stat_run hread hfound hnode]
  rfl

/-- What `stat` reports is the row that the lookup ends at. -/
theorem stat_found {w' : World}
    (h : (Request.Stat path true).alone rt ctx w = (.ok (.Node node), w')) :
    ∃ raw, resolve.resolve_following w.db ctx.workspace_id path true = .Found raw ∧
    raw.into_node = .ok node := by
  have hrun : (Reply.Node <$> SqliteFileSystem.stat ctx path true : Task Reply).run.run
    (DbCall.exec rt) w = (.ok (.Node node), w') := h
  rw [Task.run_map] at hrun
  unfold SqliteFileSystem.stat at hrun
  have hexec : (DbCall.resolve_following ctx.workspace_id path true).exec rt w =
      (.ok (resolve.resolve_following w.db ctx.workspace_id path true), w) := rfl
  by_cases hread : ctx.has_capability .Read = true
  · rw [Task.run_required hread, Task.run_bind_ok (Task.run_call.trans hexec)] at hrun
    cases hfound : resolve.resolve_following w.db ctx.workspace_id path true with
    | Found raw =>
      rw [hfound] at hrun
      refine ⟨raw, rfl, ?_⟩
      cases hnode : raw.into_node with
      | ok node' =>
        simp only [hnode] at hrun
        cases hrun
        rfl
      | error err =>
        simp only [hnode] at hrun
        cases hrun
    | _ =>
      rw [hfound] at hrun
      cases hrun
  · rw [Task.run_denied hread] at hrun
    cases hrun

theorem read_addressed (hread : ctx.has_capability .Read = true) (hwf : WellFormed w.db)
    (hfound : resolve.resolve w.db ctx.workspace_id path = some n.toRawNode)
    (hlive : Live w.db ctx.workspace_id n) (hkind : n.kind = .File)
    (hnode : n.into_node = .ok node) :
    ∃ file chunks, (Request.Read path {}).alone rt ctx w =
      (.ok (.Read file (List.map .ok chunks)), w) ∧
      file.logical_length = node.logical_size ∧ file.revision = node.revision ∧
      chunks.flatten = content.stored w.db n.toRawNode := by
  obtain ⟨g, hg⟩ := Option.ne_none_iff_exists'.mp (hwf.contents.file n hlive.mem hkind)
  obtain ⟨revision, hnew, hsize, hrevision⟩ : ∃ revision, Revision.new n.revision = some revision ∧
    node.logical_size = n.size ∧
      node.revision = revision := by
    unfold RawNode.into_node at hnode
    split at hnode
    · cases hnode
    · rename_i revision hnew
      cases hnode
      exact ⟨revision, hnew, rfl, rfl⟩
  obtain ⟨file, hfile⟩ : ∃ file : content.FileRead, file = {
      logical_length := n.size, revision, range := ⟨0, n.size⟩
      stream := if n.size ≤ 0 then none else some (content.chunk_range_stream g 0 n.size) } :=
        ⟨_, rfl⟩
  have hopen : (SqliteFileSystem.read ctx path {}).run.run (DbCall.exec rt) w = (.ok file, w) := by
    have hexec : (DbCall.resolve ctx.workspace_id path).exec rt w =
        (.ok (some n.toRawNode), w) := by
      rw [← hfound]
      rfl
    unfold SqliteFileSystem.read content.read
    rw [Task.run_required hread, Task.run_bind_ok (Task.run_call.trans hexec)]
    simp only [hkind, hnew, hg, ne_eq, not_true_eq_false, if_false, Option.getD_none,
      Nat.not_lt_zero, Nat.min_self, hfile]
    by_cases hempty : n.size ≤ 0
    · simp only [hempty, if_true]
      rfl
    · simp only [hempty, if_false]
      rfl
  have hstream : ∃ chunks : List Bytes, file.into_stream.run
    (DbCall.exec rt) w = (chunks.map .ok, w) ∧
      chunks.flatten = content.stored w.db n.toRawNode := by
    unfold content.FileRead.into_stream content.stored
    rw [hfile]
    simp only [hg]
    by_cases hempty : n.size = 0
    · rw [if_pos (le_of_eq hempty), if_pos hempty]
      exact ⟨[], rfl, rfl⟩
    · rw [if_neg (by omega), if_neg hempty]
      refine ⟨_, (content.drain_run _ rfl ?_).trans
        (congrArg (·, w) (List.map_map (g := Except.ok)).symm), ?_⟩
      · have hfirst : content.chunk_index_of 0 = 0 := Nat.zero_div _
        simp only [content.chunk_range_stream, hfirst]
        omega
      · rw [List.flatMap_def]
        simp only [content.chunk_range_stream, content.chunk_index_of, Nat.zero_div, Nat.sub_zero]
  obtain ⟨chunks, hitems, hbytes⟩ := hstream
  have hlift : (ExceptT.lift file.into_stream : Task (List (FsResult Bytes))).run.run
      (DbCall.exec rt) w = (.ok (chunks.map .ok), w) := by
    show Prog.run (DbCall.exec rt) (file.into_stream >>= _) w = _
    rw [Prog.run_bind, hitems]
    rfl
  exact ⟨file, chunks, (Task.run_bind_ok hopen).trans
    (Task.run_bind_ok hlift), by rw [hfile, hsize], by rw [hfile, hrevision], hbytes⟩

/-- A lone write replaces the file that the path leads to. -/
theorem write_addressed (hwrite : ctx.has_capability .Write = true) (hreach : Reachable rt w)
    (hfound : resolve.resolve w.db ctx.workspace_id path = some n.toRawNode)
    (hlive : Live w.db ctx.workspace_id n) (hkind : n.kind = .File) {row : WorkspaceRow}
    (hrow : w.db.workspace? ctx.workspace_id = some row) (chunks : List Bytes) :
    (chunks.flatten.length ≤ row.max_file_bytes → ∃ node' raw w',
      (Request.Write path (chunks.map .ok) {}).alone rt ctx w = (.ok (.Node node'), w') ∧
      node'.id = n.id ∧
      w'.db.Stores ctx.workspace_id path chunks.flatten raw ∧ raw.id = n.id) ∧
    (row.max_file_bytes < chunks.flatten.length → ∃ w',
      (Request.Write path (chunks.map .ok) {}).alone rt ctx w =
        (.error (FsError.quota_exceeded (content.ChunkWriter.quota_message row.max_file_bytes)),
        w') ∧ w'.db = w.db) := by
  have hsound := hreach.sound
  obtain ⟨result, w', hrun, hsettled⟩ :=
    @write_alone rt ctx.workspace_id w path (actor_json rt ctx) n row chunks {} hsound.wf
    hsound.issued.generation_fresh hrow hfound hlive hkind
  have halone : (Request.Write path (chunks.map .ok) {}).alone rt ctx w =
      (result.map Reply.Node, w') := by
    have hmethod : (SqliteFileSystem.write rt ctx path (chunks.map .ok) {}).run.run
        (DbCall.exec rt) w = (result, w') := by
      unfold SqliteFileSystem.write
      exact (Task.run_required hwrite).trans hrun
    show (Reply.Node <$> SqliteFileSystem.write rt ctx path (chunks.map .ok) {} :
      Task Reply).run.run (DbCall.exec rt) w = _
    rw [Task.run_map, hmethod]
  cases hsettled with
  | @replaced node' hid hsize hrevision hfits =>
    refine ⟨fun _ => ?_, fun hexceeds => absurd hfits (Nat.not_le.mpr hexceeds)⟩
    have hstart : Sound rt Policy.storing True w :=
      ⟨hsound.wf, hsound.issued, fun hnot => absurd trivial hnot⟩
    let σ : Session := Session.solo rt ctx.workspace_id w.db
    obtain ⟨_, hreply, w₀, g, bytes, row', hwf, hprivate, _, _, hstaged, hgood, hfinal, hrow'⟩ :=
      Session.Runs.committed (σ := σ) (Session.write rfl) trivial hstart rfl halone
    cases hreply
    obtain ⟨raw, hraw, hid', _, hkind', hg, hlength⟩ :=
      hfinal.found (hfinal.nodesWellFormed hwf.nodes)
    rw [show bytes = chunks.flatten from hgood.trans (source_bytes_ok chunks)] at hlength hstaged
    refine ⟨node', raw, w', halone, hid,
      ⟨hraw, hkind', hlength.symm, g, hg, hfinal.laid hwf hprivate (hstaged trivial)⟩, ?_⟩
    rw [hid', ← hid, (RawNode.into_node_key hrow').2]
  | refused hexceeds =>
    refine ⟨fun hfits => absurd hfits (Nat.not_le.mpr hexceeds), fun _ => ⟨w', halone, ?_⟩⟩
    have hfailed := Request.failed hsound ctx (.Write path (chunks.map .ok) {}) trivial
      (fun _ h => by cases h)
      (congrArg Prod.fst halone)
    rwa [halone] at hfailed
  | outdated hstale => cases hstale

theorem nodup_of_ascending {A K : Type} [LinearOrder K] {key : A → K} {rows : List A}
    (h : Ascending key rows) : rows.Nodup :=
  List.Pairwise.imp (fun hlt heq => by
    subst heq
    exact lt_irrefl _ hlt) h

theorem directory_addressed (hread : ctx.has_capability .Read = true) (hreach : Reachable rt w)
    (hfound : resolve.resolve w.db ctx.workspace_id path = some n.toRawNode)
    (hlive : Live w.db ctx.workspace_id n) (hkind : n.kind = .Directory) (hid : node.id = n.id) :
    ServesDirectory rt cursors ctx path w node := by
  have hopens : LeadsToDirectory ctx.workspace_id path w.db := ⟨n.toRawNode, hfound, hkind⟩
  constructor
  · intro limit
    have hlists : ListsByPages rt
      (fun db page => SqliteFileSystem.read_dir cursors ctx db path page) limit Node.key _ _ :=
      directory.read_dir_lists hread path limit
    refine ⟨hlists.finishes w hreach hopens, fun pages hpages => ⟨?_, fun child => ?_⟩⟩
    · exact nodup_of_ascending
        (hlists.paginates.finished pages (hpages.mono (fun _ _ _ _ h => h.2)))
    · rw [hid]
      exact mem_read_dir hread hreach.sound.wf.nodes hfound hlive hpages
  · intro limit
    have hlists : ListsByPages rt
      (fun db page => SqliteFileSystem.tree rt cursors ctx db path {} page) limit
      directory.TreeEntry.key _ _ := directory.tree_lists hread path {} limit
    refine ⟨hlists.finishes w hreach hopens, fun pages hpages => ⟨?_, fun entry => ?_⟩⟩
    · exact nodup_of_ascending
        (hlists.paginates.finished pages (hpages.mono (fun _ _ _ _ h => h.2)))
    · rw [hlists.paginates.whole pages w hpages entry, hid]
      constructor
      · rintro ⟨root, hroot, names, m, hm, _, hpath, hdepth, hnode⟩
        rw [hfound, Option.some.injEq] at hroot
        subst hroot
        exact ⟨names, m, hm, hpath, hdepth, hnode⟩
      · rintro ⟨names, m, hm, hpath, hdepth, hnode⟩
        have hwithin : Within none names := fun _ hdepth => by cases hdepth
        exact ⟨_, hfound, names, m, hm, hwithin, hpath, hdepth, hnode⟩

/-- A read at anything but a file is refused. -/
theorem read_refused (hread : ctx.has_capability .Read = true) {raw : RawNode}
    (hfound : resolve.resolve w.db ctx.workspace_id path = some raw) (hkind : raw.kind ≠ .File) :
    (Request.Read path {}).alone rt ctx w = (.error (FsError.wrong_node_type path.as_str), w) := by
  have hexec : (DbCall.resolve ctx.workspace_id path).exec rt w = (.ok (some raw), w) := by
    rw [← hfound]
    rfl
  have hmethod : (SqliteFileSystem.read ctx path {}).run.run
      (DbCall.exec rt) w = (.error (FsError.wrong_node_type path.as_str), w) := by
    unfold SqliteFileSystem.read content.read
    rw [Task.run_required hread, Task.run_bind_ok (Task.run_call.trans hexec)]
    simp only [ne_eq, hkind, not_false_eq_true, if_true]
    rfl
  exact Task.run_bind_error hmethod

/-- A read that is answered has found a file at the path itself. -/
theorem file_of_read {file : content.FileRead} {items : List (FsResult Bytes)} {w' : World}
    (h : (Request.Read path {}).alone rt ctx w = (.ok (.Read file items), w')) :
    ∃ raw, resolve.resolve w.db ctx.workspace_id path = some raw ∧ raw.kind = .File := by
  by_cases hread : ctx.has_capability .Read = true
  · cases hfound : resolve.resolve w.db ctx.workspace_id path with
    | none =>
      have hexec : (DbCall.resolve ctx.workspace_id path).exec rt w = (.ok none, w) := by
        rw [← hfound]
        rfl
      have hmethod : (SqliteFileSystem.read ctx path {}).run.run
          (DbCall.exec rt) w = (.error (FsError.not_found path.as_str), w) := by
        unfold SqliteFileSystem.read content.read
        rw [Task.run_required hread, Task.run_bind_ok (Task.run_call.trans hexec)]
        rfl
      have hfailed : (Request.Read path {}).alone rt ctx w =
        (.error (FsError.not_found path.as_str), w) := Task.run_bind_error hmethod
      rw [h] at hfailed
      cases hfailed
    | some raw =>
      refine ⟨raw, rfl, by_contra fun hkind => ?_⟩
      have hfailed := @read_refused rt ctx path w hread raw hfound hkind
      rw [h] at hfailed
      cases hfailed
  · have hfailed : (Request.Read path {}).alone rt ctx w = (.error (FsError.permission_denied path.as_str), w) :=
      Task.run_bind_error (Task.run_denied hread)
    rw [h] at hfailed
    cases hfailed

/-- A listing that is answered has found a directory at the path itself. -/
theorem directory_of_pages {limit : Nat} {pages : List (World × List Node)}
    (h : Finished (PagesIn rt
    (fun db page => SqliteFileSystem.read_dir cursors ctx db path page) limit w) pages) :
    LeadsToDirectory ctx.workspace_id path w.db := by
  cases h with
  | last _ hpage =>
    obtain ⟨rfl, _, hmethod⟩ := hpage
    obtain ⟨⟨_, hopens⟩, _⟩ :=
      ((directory.read_dir_keyset cursors ctx path limit).method_eq_ok _ _ _).mp hmethod
    exact hopens

/-- With a link in the path the other methods do not reach what `stat` reports. -/
theorem unlinked_of_addresses {raw : RawNode}
    (hfollow : resolve.resolve_following w.db ctx.workspace_id path true = .Found raw)
    (hkind : node.kind = raw.kind) (h : Addresses rt cursors ctx path w node) :
    Unlinked ctx.workspace_id path w.db := by
  by_contra hlinked
  cases hcase : raw.kind with
  | File =>
    obtain ⟨_, _, _, _, hserved, _⟩ := (h.file (hkind.trans hcase)).read
    obtain ⟨found, hfound, hfile⟩ := file_of_read hserved
    rw [resolve.link_of_resolve hlinked hfound] at hfile
    cases hfile
  | Directory =>
    obtain ⟨⟨pages, hpages⟩, _⟩ := (h.directory (hkind.trans hcase)).read_dir 1
    obtain ⟨found, hfound, hdir⟩ := directory_of_pages hpages
    rw [resolve.link_of_resolve hlinked hfound] at hdir
    cases hdir
  | Symlink => exact resolve.resolve_following_unlinked hfollow hcase

end addressing

/-- The other methods address the node that `stat` reports if and only if there is no
symbolic link in the path. -/
theorem stat_addresses (rt : Runtime) (cursors : SqliteFileSystem.Cursors) (ctx : RequestContext)
    (hread : ctx.has_capability .Read = true) (hwrite : ctx.has_capability .Write = true)
    (w : World) (hreach : Reachable rt w) (path : VirtualPath) (node : Node)
    (hstat : (Request.Stat path true).alone rt ctx w = (.ok (.Node node), w)) :
    Addresses rt cursors ctx path w node ↔ Unlinked ctx.workspace_id path w.db := by
  have hwf := hreach.sound.wf
  obtain ⟨raw, hfollow, hnode⟩ := stat_found hstat
  obtain ⟨hid, _, _, hkind⟩ := RawNode.into_node_shape hnode
  refine ⟨unlinked_of_addresses hfollow hkind, fun hunlinked => ?_⟩
  have hfound := resolve.resolve_of_unlinked hunlinked hfollow
  obtain ⟨n, rfl, hlive⟩ := resolve.resolve_live hfound
  constructor
  · intro hfile
    have hkind' : n.kind = .File := hkind.symm.trans hfile
    obtain ⟨file, chunks, hserved, hlength, hrevision, hbytes⟩ :=
      read_addressed hread hwf hfound hlive hkind' hnode
    refine ⟨⟨n, file, chunks, ?_, hserved, hlength, hrevision, hbytes⟩, fun data row hrow => ?_⟩
    · rw [hid]
      exact Db.node?_of_mem hlive.mem
    · rw [hid]
      exact write_addressed hwrite hreach hfound hlive hkind' hrow data
  · exact fun hdir => directory_addressed hread hreach hfound hlive (hkind.symm.trans hdir) hid

/-- A file and a link to it. -/
def linkRequests : List (RequestContext × Request) :=
  [(.trusted 0, .CreateWorkspace {}),
    (.trusted 0, .Perform (.Touch (.named [['f']]) {})),
    (.trusted 0, .Perform (.Symlink ⟨['/', 'f'], ['/', 'f'], by decide, by decide, by decide⟩
      (.named [['l']]) {}))]

def linkWorld : World := serveAll Runtime.counting linkRequests ⟨Db.empty, 0⟩

theorem linkWorld_reachable : Reachable Runtime.counting linkWorld :=
  (Reachable.empty Runtime.counting).serveAll linkRequests

theorem linkWorld_stat {path : VirtualPath} {kind : NodeKind}
    (hfound : (match resolve.resolve_following linkWorld.db 0 path true with
      | .Found raw => decide (raw.kind = kind ∧ 0 < raw.revision)
      | _ => false) = true) :
    ∃ raw node, resolve.resolve_following linkWorld.db 0 path true = .Found raw ∧ node.kind = kind ∧
      node.kind = raw.kind ∧
      (Request.Stat path true).alone Runtime.counting
        (.trusted 0) linkWorld = (.ok (.Node node), linkWorld) := by
  cases hfollow : resolve.resolve_following linkWorld.db 0 path true with
  | Found raw =>
    rw [hfollow, decide_eq_true_iff] at hfound
    obtain ⟨node, hnode⟩ := RawNode.into_node_ok hfound.2
    obtain ⟨_, _, _, hkind⟩ := RawNode.into_node_shape hnode
    exact ⟨raw, node, rfl, hkind.trans hfound.1, hkind, stat_of_found rfl hfollow hnode⟩
  | _ =>
    rw [hfollow] at hfound
    cases hfound

/-- At the link `stat` reports the file and `read` refuses it. -/
theorem link_not_addressed : Reachable Runtime.counting linkWorld ∧ ∃ node,
    (Request.Stat (.ofSegments [['l']] (by decide)) true).alone Runtime.counting
    (.trusted 0) linkWorld = (.ok (.Node node), linkWorld) ∧
    node.kind = .File ∧
    (Request.Read (.ofSegments [['l']] (by decide)) {}).alone Runtime.counting
    (.trusted 0) linkWorld =
      (.error (FsError.wrong_node_type "/l".toList), linkWorld) ∧
    ¬ Addresses Runtime.counting SqliteFileSystem.Cursors.counting (.trusted 0)
      (.ofSegments [['l']] (by decide)) linkWorld node := by
  obtain ⟨raw, node, hfollow, hfile, hkind, hstat⟩ :=
    @linkWorld_stat (.ofSegments [['l']] (by decide)) .File (by decide +kernel)
  obtain ⟨link, hlink⟩ := Option.isSome_iff_exists.mp
    (show (resolve.resolve linkWorld.db 0 (.ofSegments [['l']] (by decide))).isSome =
      true by decide +kernel)
  have hsymlink : link.kind = .Symlink :=
    Option.some.inj ((congrArg (Option.map RawNode.kind) hlink).symm.trans
    (show (resolve.resolve linkWorld.db 0 (.ofSegments [['l']] (by decide))).map RawNode.kind =
      some .Symlink by decide +kernel))
  refine ⟨linkWorld_reachable, node, hstat, hfile,
    read_refused rfl hlink (by rw [hsymlink]; decide), fun haddresses => ?_⟩
  exact unlinked_of_addresses hfollow hkind haddresses (.ofSegments [['l']] (by decide)) link
    (List.prefix_refl _) hlink hsymlink

/-- At the file they agree. -/
theorem file_addressed : ∃ node,
    (Request.Stat (.ofSegments [['f']] (by decide)) true).alone Runtime.counting
    (.trusted 0) linkWorld = (.ok (.Node node), linkWorld) ∧
    Addresses Runtime.counting SqliteFileSystem.Cursors.counting (.trusted 0)
      (.ofSegments [['f']] (by decide)) linkWorld node := by
  obtain ⟨raw, node, hfollow, hfile, hkind, hstat⟩ :=
    @linkWorld_stat (.ofSegments [['f']] (by decide)) .File (by decide +kernel)
  refine ⟨node, hstat, (stat_addresses Runtime.counting SqliteFileSystem.Cursors.counting
    (.trusted 0) rfl rfl linkWorld
    linkWorld_reachable _ node hstat).mpr (fun front found hfront hfound hlink => ?_)⟩
  have hkinds : ∀ names ∈ List.inits [['f']], ((resolve.fetch_root linkWorld.db 0).bind
      (fun root => resolve.walk linkWorld.db 0 root names)).map RawNode.kind ≠ some .Symlink := by decide +kernel
  have hwalk : (resolve.fetch_root linkWorld.db 0).bind
      (fun root => resolve.walk linkWorld.db 0 root front.segments) = some found := by
    rw [← hfound]
    show _ = resolve.resolve linkWorld.db 0 front
    unfold resolve.resolve
    cases resolve.fetch_root linkWorld.db 0 <;> rfl
  have hsegments : (VirtualPath.ofSegments [['f']] (by decide)).segments = [['f']] :=
    VirtualPath.segments_ofSegments (by decide)
  rw [hsegments] at hfront
  exact hkinds front.segments ((List.mem_inits _ _).mpr hfront)
    (by rw [hwalk, Option.map_some, hlink])

end fslite
