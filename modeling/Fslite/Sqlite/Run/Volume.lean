import Fslite.Sqlite.Run.FileTree
import Fslite.Sqlite.Run.Rewrite

namespace fslite

/-- What is in the trash under one record: a tree, and the directory and the name that it had. -/
structure Bin where
  contents : FileTree
  home : NodeId
  name : Text

/-- A workspace as its clients see it: its tree and its trash. -/
structure Volume where
  tree : FileTree
  bins : TrashId → Option Bin

namespace Entry

/-- The entry of a node that has just been made. -/
def created (id : NodeId) (kind : NodeKind) (size : Nat) (symlink_target : Option Text)
    (chunks : Nat → Option Bytes) (now : Int) : Entry where
  id := id
  kind := kind
  size := size
  revision := 1
  created_at_ms := now
  modified_at_ms := now
  accessed_at_ms := now
  symlink_target := symlink_target
  attributes _ := none
  chunks := chunks

def revised (now : Int) (e : Entry) : Entry :=
  { e with revision := e.revision + 1, modified_at_ms := now }

def touched (now : Int) (e : Entry) : Entry :=
  { e with revision := e.revision + 1, modified_at_ms := now, accessed_at_ms := now }

/-- A file with another content. -/
def written (size : Nat) (chunks : Nat → Option Bytes) (now : Int) (e : Entry) : Entry :=
  { e.touched now with size, chunks }

/-- A node of which one attribute is set or taken away. -/
def attributed (key : Text) (value : Option Bytes) (now : Int) (e : Entry) : Entry :=
  { e.revised now with attributes := Function.update e.attributes key value }

/-- A new node that is like another one. -/
def CopyOf (now : Int) (e e' : Entry) : Prop :=
  e' = { created e'.id e.kind e.size e.symlink_target e.chunks now with attributes := e.attributes }

end Entry

namespace FileTree

/-- The first symbolic link on a path, and what comes after it. -/
structure FirstLink (t : FileTree) (follow_final : Bool) (path link_path : VirtualPath)
    (rest : List Text) (link : Entry) : Prop where
  split : path.segments = link_path.segments ++ rest
  final : rest = [] → follow_final = true
  found : t.lookup link_path.segments = some link
  kind : link.kind = .Symlink
  shortest : ∀ (shorter : VirtualPath) e, shorter.segments <+: link_path.segments →
    shorter ≠ link_path → t.lookup shorter.segments = some e → e.kind ≠ .Symlink

/-- The first link of a path is replaced by what it stands for. -/
def Rewrites (t : FileTree) (follow_final : Bool) (path path' : VirtualPath) : Prop :=
  ∃ link_path rest link target base, FirstLink t follow_final path link_path rest link ∧
    link.symlink_target = some target ∧ replaced link_path target = some base ∧
      path'.segments = base.segments ++ rest

/-- When its links are replaced, a limited number of times, the path is that of the entry. -/
def Finds (t : FileTree) (follow_final : Bool) (path : VirtualPath) (place : List Text)
    (e : Entry) : Prop :=
  ∃ n ≤ resolve.MAX_LINK_HOPS, ∃ last : VirtualPath,
    Rewriting.InSteps (Rewrites t follow_final) n path last ∧
      Rewriting.Normal (Rewrites t follow_final) last ∧ last.segments = place ∧
        t.lookup place = some e

end FileTree

namespace Volume

open FileTree

/-- No node of the volume has the identifier. -/
def Unused (v : Volume) (id : NodeId) : Prop :=
  (∀ q e, v.tree.lookup q = some e → e.id ≠ id) ∧
    ∀ trash_id bin q e, v.bins trash_id = some bin → bin.contents.lookup q = some e → e.id ≠ id

/-- A record of the trash goes with a part of the volume: its node has been in the part, or in what
is in the trash under another such record. -/
inductive Gone (v : Volume) (part : FileTree) : TrashId → Prop where
  | home {trash_id : TrashId} {bin : Bin} {q : List Text} {e : Entry}
      (hbin : v.bins trash_id = some bin) (hat : part.lookup q = some e) (hid : e.id = bin.home) :
        Gone v part trash_id
  | inner {trash_id outer_id : TrashId} {bin outer : Bin} {q : List Text} {e : Entry}
      (h : Gone v part outer_id) (houter : v.bins outer_id = some outer)
      (hbin : v.bins trash_id = some bin) (hat : outer.contents.lookup q = some e)
      (hid : e.id = bin.home) : Gone v part trash_id

/-- The trash after a part of the volume has been discarded, apart from the records in a set. -/
def Discards (v : Volume) (part : FileTree) (but : TrashId → Prop)
    (bins : TrashId → Option Bin) : Prop :=
  ∀ trash_id, ¬ but trash_id →
    (Gone v part trash_id → bins trash_id = none) ∧
      (¬ Gone v part trash_id → bins trash_id = v.bins trash_id)

/-- A directory and a name in it that a path stands for, its last segment not followed. -/
structure Names (t : FileTree) (path : VirtualPath) (place : List Text) (name : Text)
    (directory : Entry) : Prop where
  found : ∃ up, path.parent = some up ∧ Finds t true up place directory
  kind : directory.kind = .Directory
  named : path.name = some name

/-- A tree of new nodes that is like another tree. -/
structure Copied (v : Volume) (now : Int) (t t' : FileTree) : Prop where
  alike : ∀ q, Option.Rel (Entry.CopyOf now) (t.lookup q) (t'.lookup q)
  unused : ∀ q e, t'.lookup q = some e → v.Unused e.id
  distinct : ∀ q q' e e', t'.lookup q = some e → t'.lookup q' = some e' → e.id = e'.id → q = q'

/-- Directories are made, each in the one before it. The last of them is the entry. -/
inductive Makes : List Text → List Text → Volume → Volume → Entry → Prop where
  | last {v : Volume} {place : List Text} {name : Text} {id : NodeId} {now : Int}
      (hunused : v.Unused id) :
        Makes place [name] v
          { v with tree := v.tree.graft (.leaf (.created id .Directory 0 none (fun _ => none) now))
                    place name }
          (.created id .Directory 0 none (fun _ => none) now)
  | next {v v' : Volume} {place names : List Text} {name : Text} {id : NodeId} {now : Int}
      {e : Entry} (hunused : v.Unused id) (hrest : Makes (place ++ [name]) names
        { v with tree := v.tree.graft (.leaf (.created id .Directory 0 none (fun _ => none) now))
                  place name } v' e) :
        Makes place (name :: names) v v' e

/-- What a write to a path does to a volume, and the entry that it reports. -/
inductive Writes (path : VirtualPath) (params : content.FinalizeParams) (length : Nat)
    (chunks : Nat → Option Bytes) : Volume → Volume → Entry → Prop where
  | created {v : Volume} {place : List Text} {name : Text} {directory : Entry} {id : NodeId}
      {now : Int} (hcreate : params.allow_create = true)
      (habsent : v.tree.lookup path.segments = none) (hsplit : path.segments = place ++ [name])
      (hplace : v.tree.lookup place = some directory) (hdir : directory.kind = .Directory)
      (hunused : v.Unused id) :
        Writes path params length chunks v
          { v with tree := v.tree.graft (.leaf (.created id .File length none chunks now))
                    place name }
          (.created id .File length none chunks now)
  | replaced {v : Volume} {e : Entry} {now : Int} (hfound : v.tree.lookup path.segments = some e)
      (hkind : e.kind = .File) (hfresh : stale params.expected_revision e.revision = false) :
        Writes path params length chunks v
          { v with tree := v.tree.update path.segments (Entry.written length chunks now) }
          (e.written length chunks now)

/-- What an operation that succeeds does to a volume, and the entry that it reports. -/
inductive Performs : BatchOperation → Volume → Volume → Option Entry → Prop where
  | mkdir_existing {v : Volume} {path : VirtualPath} {options : CreateOptions} {e : Entry}
      (hname : path.name ≠ none) (hfound : v.tree.lookup path.segments = some e)
      (hkind : e.kind = .Directory) (hexist : options.exist_ok = true)
      (hfresh : stale options.expected_revision e.revision = false) :
        Performs (.Mkdir path options) v v (some e)
  | mkdir {v v' : Volume} {path : VirtualPath} {options : CreateOptions}
      {existing names : List Text} {base e : Entry} (hsplit : path.segments = existing ++ names)
      (hbase : v.tree.lookup existing = some base) (hdir : base.kind = .Directory)
      (habsent : ∀ name ∈ names.head?, v.tree.lookup (existing ++ [name]) = none)
      (hparents : names.length = 1 ∨ options.parents = true) (hmakes : Makes existing names v v' e) :
        Performs (.Mkdir path options) v v' (some e)
  | touch {v : Volume} {path : VirtualPath} {options : TouchOptions} {e : Entry} {now : Int}
      (hfound : v.tree.lookup path.segments = some e) (hkind : e.kind = .File)
      (hfresh : stale options.expected_revision e.revision = false) :
        Performs (.Touch path options) v
          { v with tree := v.tree.update path.segments (Entry.touched now) } (some (e.touched now))
  | touch_new {v : Volume} {path : VirtualPath} {options : TouchOptions} {place : List Text}
      {name : Text} {directory : Entry} {id : NodeId} {now : Int} (hcreate : options.create = true)
      (habsent : v.tree.lookup path.segments = none) (hsplit : path.segments = place ++ [name])
      (hplace : v.tree.lookup place = some directory) (hdir : directory.kind = .Directory)
      (hunused : v.Unused id) :
        Performs (.Touch path options) v
          { v with tree := v.tree.graft (.leaf (.created id .File 0 none (fun _ => none) now))
                    place name }
          (some (.created id .File 0 none (fun _ => none) now))
  | copy {v : Volume} {source_path target : VirtualPath} {options : CopyOptions}
      {source place : List Text} {name : Text} {e directory : Entry} {now : Int} {copies : FileTree}
      {bins : TrashId → Option Bin} (hsource : Finds v.tree false source_path source e)
      (hfresh : stale options.expected_revision e.revision = false)
      (hrecursive : e.kind = .Directory → options.recursive = true)
      (htarget : Names v.tree target place name directory)
      (hallowed : (v.tree.lookup (place ++ [name])).isSome → options.overwrite = true)
      (hcopied : Copied v now (v.tree.branch source) copies)
      (hbins : Discards v (v.tree.branch (place ++ [name])) (fun _ => False) bins) :
        Performs (.Copy source_path target options) v ⟨v.tree.graft copies place name, bins⟩
          (copies.lookup [])
  | move {v : Volume} {source_path target : VirtualPath} {options : MoveOptions}
      {source place : List Text} {name : Text} {e directory : Entry} {now : Int}
      {bins : TrashId → Option Bin} (hnamed : source_path.name ≠ none)
      (hsource : Finds v.tree false source_path source e)
      (hfresh : stale options.expected_revision e.revision = false)
      (houtside : mutate.is_same_or_descendant source_path target = false)
      (htarget : Names v.tree target place name directory)
      (hallowed : (v.tree.lookup (place ++ [name])).isSome → options.overwrite = true)
      (hbins : Discards v (v.tree.branch (place ++ [name])) (fun _ => False) bins) :
        Performs (.Move source_path target options) v
          -- a branch that goes into itself is lost, and so is one whose place is overwritten
          ⟨((v.tree.remove (place ++ [name])).remove source).graft
              (((v.tree.remove (place ++ [name])).branch source).update [] (Entry.revised now))
              place name, bins⟩
          (some (e.revised now))
  | remove {v : Volume} {path : VirtualPath} {options : RemoveOptions} {place : List Text}
      {e : Entry} {bins : TrashId → Option Bin} (hnamed : path.name ≠ none)
      (hfound : Finds v.tree false path place e)
      (hfresh : stale options.expected_revision e.revision = false)
      (hempty : e.kind = .Directory → options.recursive = false →
        ∀ name, v.tree.lookup (place ++ [name]) = none)
      (hbins : Discards v (v.tree.branch place) (fun _ => False) bins) :
        Performs (.Remove path options) v ⟨v.tree.remove place, bins⟩ none
  | symlink_existing {v : Volume} {target : LinkTarget} {link : VirtualPath}
      {options : CreateOptions} {place : List Text} {name : Text} {directory e : Entry}
      (hlink : Names v.tree link place name directory)
      (hfound : v.tree.lookup (place ++ [name]) = some e) (hkind : e.kind = .Symlink)
      (hexist : options.exist_ok = true)
      (hfresh : stale options.expected_revision e.revision = false) :
        Performs (.Symlink target link options) v v (some e)
  | symlink {v : Volume} {target : LinkTarget} {link : VirtualPath} {options : CreateOptions}
      {place : List Text} {name : Text} {directory : Entry} {id : NodeId} {now : Int}
      (hlink : Names v.tree link place name directory)
      (habsent : v.tree.lookup (place ++ [name]) = none) (hunused : v.Unused id) :
        Performs (.Symlink target link options) v
          { v with tree := v.tree.graft
                    (.leaf (.created id .Symlink 0 (some target.as_str) (fun _ => none) now))
                    place name }
          (some (.created id .Symlink 0 (some target.as_str) (fun _ => none) now))
  | trash {v : Volume} {path : VirtualPath} {options : MutationOptions} {place : List Text}
      {name : Text} {e directory : Entry} {trash_id : TrashId} (hnamed : path.name ≠ none)
      (hfound : Finds v.tree false path (place ++ [name]) e)
      (hfresh : stale options.expected_revision e.revision = false)
      (hplace : v.tree.lookup place = some directory) (hnew : v.bins trash_id = none) :
        Performs (.Trash path options) v
          ⟨v.tree.remove (place ++ [name]), Function.update v.bins trash_id
            (some ⟨v.tree.branch (place ++ [name]), directory.id, name⟩)⟩ (some e)
  | restore {v : Volume} {trash_id : TrashId} {destination : Option VirtualPath}
      {options : MutationOptions} {bin : Bin} {place : List Text} {name : Text}
      {e directory : Entry} {now : Int} (hbin : v.bins trash_id = some bin)
      (htop : bin.contents.lookup [] = some e)
      (hfresh : stale options.expected_revision e.revision = false)
      (hgiven : ∀ path, destination = some path → Names v.tree path place name directory)
      (horiginal : destination = none → v.tree.lookup place = some directory ∧
        directory.kind = .Directory ∧ directory.id = bin.home ∧ name = bin.name)
      (habsent : v.tree.lookup (place ++ [name]) = none) :
        Performs (.Restore trash_id destination options) v
          ⟨v.tree.graft (bin.contents.update [] (Entry.revised now)) place name,
            Function.update v.bins trash_id none⟩ (some (e.revised now))
  | restore_unseen {v : Volume} {trash_id : TrashId} {options : MutationOptions} {bin : Bin}
      {e : Entry} {now : Int} {bins : TrashId → Option Bin} (hbin : v.bins trash_id = some bin)
      (htop : bin.contents.lookup [] = some e)
      (hfresh : stale options.expected_revision e.revision = false)
      -- the original directory is itself in the trash
      (hhidden : ∀ q directory, v.tree.lookup q = some directory → directory.id ≠ bin.home)
      (hgone : bins trash_id = none)
      (hbins : ∀ other_id other, other_id ≠ trash_id → v.bins other_id = some other →
        (∀ q directory, other.contents.lookup q = some directory → directory.id ≠ bin.home) →
          bins other_id = some other)
      (houter : ∀ other_id other q directory, other_id ≠ trash_id → v.bins other_id = some other →
        other.contents.lookup q = some directory → directory.id = bin.home →
          ¬ Gone v bin.contents other_id → bins other_id = some { other with
            contents := other.contents.graft (bin.contents.update [] (Entry.revised now)) q
              bin.name })
      (hnone : ∀ other_id, v.bins other_id = none → bins other_id = none) :
        Performs (.Restore trash_id none options) v ⟨v.tree, bins⟩ (some (e.revised now))
  | purge {v : Volume} {trash_id : TrashId} {bin : Bin} {bins : TrashId → Option Bin}
      (hbin : v.bins trash_id = some bin) (hgone : bins trash_id = none)
      (hbins : Discards v bin.contents (fun other_id => other_id = trash_id) bins) :
        Performs (.Purge trash_id) v ⟨v.tree, bins⟩ none
  | set_attribute {v : Volume} {path : VirtualPath} {key : Text} {value : Bytes}
      {options : MutationOptions} {place : List Text} {e : Entry} {now : Int}
      (hfound : Finds v.tree false path place e)
      (hfresh : stale options.expected_revision e.revision = false)
      (hkey : key ≠ [] ∧ utf8_len key ≤ mutate.MAX_ATTRIBUTE_KEY_BYTES)
      (hvalue : value.length ≤ mutate.MAX_ATTRIBUTE_VALUE_BYTES) :
        Performs (.SetAttribute path key value options) v
          { v with tree := v.tree.update place (Entry.attributed key (some value) now) }
          (some (e.attributed key (some value) now))
  | remove_attribute {v : Volume} {path : VirtualPath} {key : Text} {options : MutationOptions}
      {place : List Text} {e : Entry} {now : Int} (hfound : Finds v.tree false path place e)
      (hfresh : stale options.expected_revision e.revision = false)
      (hset : (e.attributes key).isSome) :
        Performs (.RemoveAttribute path key options) v
          { v with tree := v.tree.update place (Entry.attributed key none now) }
          (some (e.attributed key none now))
  | remove_attribute_absent {v : Volume} {path : VirtualPath} {key : Text}
      {options : MutationOptions} {place : List Text} {e : Entry}
      (hfound : Finds v.tree false path place e)
      (hfresh : stale options.expected_revision e.revision = false)
      (hunset : e.attributes key = none) :
        Performs (.RemoveAttribute path key options) v v (some e)

end Volume

namespace Db

/-- What the store has in the trash under a record. -/
def bin (db : Db) (ws : WorkspaceId) (trash_id : TrashId) : Option Bin :=
  (trash.fetch_trash_row db ws trash_id).bind (fun record =>
    (resolve.fetch_by_id_any db ws record.node_id).map (fun node =>
      ⟨db.branch ws node, record.original_parent_id, record.original_name⟩))

/-- The volume that the store holds for a workspace. -/
def volume (db : Db) (ws : WorkspaceId) : Volume where
  tree := db.file_tree ws
  bins := db.bin ws

/-- The volume depends on the nodes, their attributes, the chunks and the trash. -/
theorem volume_congr {db db' : Db} (hnodes : db'.nodes = db.nodes)
    (hattributes : db'.attributes = db.attributes)
    (hchunks : db'.content_chunks = db.content_chunks) (htrash : db'.trash = db.trash)
    (ws : WorkspaceId) : db'.volume ws = db.volume ws := by
  have hentry := entry_eq hattributes hchunks
  have hbranch : db'.branch ws = db.branch ws := by
    funext top
    refine Hierarchy.ext (fun q => ?_)
    simp only [branch, resolve.walk_congr hnodes, hentry]
  unfold volume
  congr 1
  · rw [file_tree, file_tree, resolve.fetch_root, resolve.fetch_root, hnodes, hbranch]
  · funext trash_id
    rw [bin, bin, trash.fetch_trash_row, trash.fetch_trash_row, htrash]
    simp only [resolve.fetch_by_id_any, hnodes, hbranch]

end Db

end fslite
