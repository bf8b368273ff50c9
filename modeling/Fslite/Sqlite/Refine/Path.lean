import Fslite.Sqlite.Run.Bins
import Fslite.Sqlite.Run.Expectation

namespace fslite

open resolve

/-- What holds of the world of every run: the store is sound, and its links store targets. -/
structure Standing (rt : Runtime) (w : World) : Prop where
  sound : Sound rt Policy.any False w
  linked : w.db.Linked

/-- Whether an operation reports that it has been done. -/
def BatchOperation.Succeeds : (operation : BatchOperation) → Outcome operation → Prop
  | .Remove .., outcome => outcome = .Removed
  | .Purge .., outcome => outcome = .Purged
  | operation, outcome => ∃ row, operation.Tells outcome row

namespace Entry

/-- A returned row tells the entry. -/
structure Describes (e : Entry) (row : RawNode) : Prop where
  id : row.id = e.id
  kind : row.kind = e.kind
  size : row.size = e.size
  revision : row.revision = e.revision
  created_at_ms : row.created_at_ms = e.created_at_ms
  modified_at_ms : row.modified_at_ms = e.modified_at_ms
  accessed_at_ms : row.accessed_at_ms = e.accessed_at_ms
  symlink_target : e.kind = .Symlink → row.symlink_target = e.symlink_target

theorem Describes.entry (db : Db) (raw : RawNode) : (db.entry raw).Describes raw where
  id := rfl
  kind := rfl
  size := rfl
  revision := rfl
  created_at_ms := rfl
  modified_at_ms := rfl
  accessed_at_ms := rfl
  symlink_target _ := rfl

end Entry

/-- An operation does to the volume what it should and reports the entry, or it fails and the
volume stays as it is. -/
structure Refines (operation : BatchOperation) (outcome : Outcome operation) (v v' : Volume) :
    Prop where
  performed : operation.Succeeds outcome → ∃ reported, v.Performs operation v' reported ∧
    ∀ row, operation.Tells outcome row → ∃ e, reported = some e ∧ e.Describes row
  failed : ¬ operation.Succeeds outcome → v' = v

theorem IsRoot.of_fetch {db : Db} {ws : WorkspaceId} {raw : RawNode}
    (h : fetch_root db ws = some raw) : ∃ r, IsRoot db ws r ∧ r.toRawNode = raw := by
  obtain ⟨r, hr, rfl, hws, hroot, _⟩ := fetch_root_eq_some h
  exact ⟨r, ⟨hr, hws, hroot⟩, rfl⟩

namespace Db

variable {db : Db} {ws : WorkspaceId} {r n : NodeRow} {raw parent : RawNode} {name : Text}
  {path path' target : VirtualPath} {follow_final overwrite : Bool} {existing : Option RawNode}
  {e : Entry}

/-- The tree has at a path what the lookup without links finds there. -/
theorem lookup_file_tree (db : Db) (ws : WorkspaceId) (path : VirtualPath) :
    (db.file_tree ws).lookup path.segments = (resolve db ws path).map db.entry := by
  unfold file_tree resolve.resolve
  cases fetch_root db ws <;> rfl

theorem lookup_file_tree_eq_some : (db.file_tree ws).lookup path.segments = some e ↔
    ∃ raw, resolve db ws path = some raw ∧ db.entry raw = e := by
  rw [lookup_file_tree, Option.map_eq_some_iff]

/-- In the tree a path is rewritten as the lookups rewrite it. -/
theorem rewrites_iff : FileTree.Rewrites (db.file_tree ws) follow_final path path' ↔
    resolve.Rewrites db ws follow_final path path' := by
  constructor
  · rintro ⟨link_path, rest, e, target, base, hlink, htarget, hbase, hsegments⟩
    obtain ⟨raw, hfound, rfl⟩ := lookup_file_tree_eq_some.mp hlink.found
    exact ⟨link_path, rest, raw, target, base, ⟨hlink.split, hlink.final, hfound, hlink.kind,
      fun shorter other hprefix hne hother => hlink.shortest shorter (db.entry other) hprefix hne
        (lookup_file_tree_eq_some.mpr ⟨other, hother, rfl⟩)⟩, htarget, hbase, hsegments⟩
  · rintro ⟨link_path, rest, raw, target, base, hlink, htarget, hbase, hsegments⟩
    refine ⟨link_path, rest, db.entry raw, target, base, ⟨hlink.split, hlink.final,
      lookup_file_tree_eq_some.mpr ⟨raw, hlink.found, rfl⟩, hlink.kind, ?_⟩, htarget, hbase,
        hsegments⟩
    intro shorter e hprefix hne he
    obtain ⟨other, hother, rfl⟩ := lookup_file_tree_eq_some.mp he
    exact hlink.shortest shorter other hprefix hne hother

/-- A plain lookup goes where the names of its path lead. -/
theorem under_of_resolve (hwf : NodesWellFormed db) (hr : IsRoot db ws r)
    (h : resolve db ws path = some raw) : ∃ n, Under db r path.segments n ∧ n.toRawNode = raw := by
  unfold resolve.resolve at h
  rw [fetch_root_of_mem hwf hr.mem hr.workspace hr.root] at h
  exact (Under.walk_iff hwf hr.mem hr.workspace).mp h

theorem rewrites_eq (db : Db) (ws : WorkspaceId) (follow_final : Bool) :
    FileTree.Rewrites (db.file_tree ws) follow_final = resolve.Rewrites db ws follow_final := by
  funext path path'
  exact propext rewrites_iff

/-- The root that the code fetches is a directory. -/
theorem root_directory (hwf : NodesWellFormed db) {root : RawNode}
    (h : fetch_root db ws = some root) : root.kind = .Directory := by
  obtain ⟨r, hr, rfl⟩ := IsRoot.of_fetch h
  exact (hwf.root_shape r hr.mem hr.root).1

/-- The lookups of the code find what is to be found in the tree. -/
theorem finds (hwf : NodesWellFormed db) (hlinked : db.Linked) (hr : IsRoot db ws r)
    (h : resolve_following db ws path follow_final = .Found raw) :
    ∃ place n, Under db r place n ∧ n.toRawNode = raw ∧
      FileTree.Finds (db.file_tree ws) follow_final path place (db.entry raw) := by
  obtain ⟨hloop, hfound⟩ := @resolve_following_steps db ws follow_final path hlinked
    (fun _ => root_directory hwf)
  obtain ⟨k, hk, last, hsteps, hnormal⟩ := Rewriting.exists_normal path
    (fun hmore => by rw [hloop.mpr hmore] at h; cases h)
  have hresolve := (hfound k hk last hsteps hnormal raw).mp h
  obtain ⟨n, hn, rfl⟩ := under_of_resolve hwf hr hresolve
  refine ⟨last.segments, n, hn, rfl, k, hk, last, ?_, ?_, rfl, ?_⟩
  · rwa [rewrites_eq]
  · rwa [rewrites_eq]
  · exact lookup_of_under hwf hr hn

/-- What is in a directory under a name is what the code fetches as its child. -/
theorem lookup_child (hwf : NodesWellFormed db) (hr : IsRoot db ws r) {place : List Text}
    (h : Under db r place n) (name : Text) :
    (db.file_tree ws).lookup (place ++ [name]) = (fetch_child db ws n.id name).map db.entry := by
  cases hchild : fetch_child db ws n.id name with
  | some child =>
    obtain ⟨m, hm, rfl, _, hup, rfl, hactive⟩ := fetch_child_eq_some hchild
    exact lookup_of_under hwf hr (.child h hm hup hactive)
  | none =>
    rw [Option.map_none, Option.eq_none_iff_forall_not_mem]
    intro e he
    obtain ⟨m, hm, _⟩ := (file_tree_eq_some hwf hr).mp he
    have hws := (hm.workspace hwf).trans hr.workspace
    obtain ⟨p, hp, hmem, hup, hactive, hname⟩ := Under.concat_iff.mp hm
    obtain rfl := h.unique hwf hp
    exact fetch_child_eq_none hchild m hmem hws hup hname hactive

/-- The destination of a copy, of a move or of a link, as the tree has it. -/
theorem names (hwf : NodesWellFormed db) (hlinked : db.Linked) (hr : IsRoot db ws r)
    {parent_path : VirtualPath} (hup : target.parent = some parent_path)
    (hfound : resolve_following db ws parent_path true = .Found parent)
    (hdir : parent.kind = .Directory) (hname : target.name = some name) :
    ∃ place p, Under db r place p ∧ p.toRawNode = parent ∧
      Volume.Names (db.file_tree ws) target place name (db.entry parent) := by
  obtain ⟨place, p, hp, rfl, hfinds⟩ := finds hwf hlinked hr hfound
  exact ⟨place, p, hp, rfl, ⟨parent_path, hup, hfinds⟩, hdir, hname⟩

end Db

end fslite
