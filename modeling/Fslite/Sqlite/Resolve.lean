import Fslite.Sqlite.Statement
import Mathlib.Data.List.Sort

namespace fslite

def RawNode.into_node (row : RawNode) : FsResult Node :=
  match Revision.new row.revision with
  | none => .error (FsError.internal_storage_failure "stored revision was zero".toList)
  | some revision => .ok {
      workspace_id := row.workspace_id
      id := row.id
      parent_id := row.parent_id
      name := row.name
      kind := row.kind
      logical_size := row.size
      created_at_ms := row.created_at_ms
      modified_at_ms := row.modified_at_ms
      accessed_at_ms := row.accessed_at_ms
      revision
      attributes := [] }

theorem RawNode.into_node_ok {row : RawNode} (h : 0 < row.revision) :
    ∃ node, row.into_node = .ok node := by
  unfold RawNode.into_node Revision.new
  rw [dif_pos h]
  exact ⟨_, rfl⟩

/-- Text order, character by character. -/
def text_le : Text → Text → Bool
  | [], _ => true
  | _ :: _, [] => false
  | a :: as, b :: bs => a < b || (a = b && text_le as bs)

set_option linter.dupNamespace false

namespace resolve

/-- The maximum number of symbolic links resolved in one path lookup. -/
def MAX_LINK_HOPS : Nat := 40

def fetch_root (db : Db) (ws : WorkspaceId) : Option RawNode :=
  (db.nodes.rows.find? (fun n => n.workspace_id = ws ∧ n.parent_id = none ∧
    n.trashed_at_ms = none)).map
    NodeRow.toRawNode

def fetch_child (db : Db) (ws : WorkspaceId) (parent_id : NodeId) (name : Text) : Option RawNode :=
  (db.nodes.rows.find? (fun n =>
    n.workspace_id = ws ∧ n.parent_id = some parent_id ∧ n.name = name ∧
      n.trashed_at_ms = none)).map
    NodeRow.toRawNode

/-- The listing order of siblings: by name, then by identifier. -/
def child_le (a b : RawNode) : Prop :=
  if a.name = b.name then a.id ≤ b.id else text_le a.name b.name

instance (a b : RawNode) : Decidable (child_le a b) := by
  unfold child_le
  infer_instance

def fetch_children (db : Db) (ws : WorkspaceId) (parent_id : NodeId) : List RawNode :=
  ((db.nodes.rows.filter (fun n => n.workspace_id = ws ∧ n.parent_id = some parent_id ∧
    n.trashed_at_ms = none)).map
    NodeRow.toRawNode).insertionSort child_le

def has_active_children (db : Db) (ws : WorkspaceId) (parent_id : NodeId) : Bool :=
  db.nodes.rows.any (fun n => n.workspace_id = ws ∧ n.parent_id = some parent_id ∧
    n.trashed_at_ms = none)

def fetch_by_id (db : Db) (ws : WorkspaceId) (id : NodeId) : Option RawNode :=
  (db.nodes.rows.find? (fun n => n.workspace_id = ws ∧ n.id = id ∧
    n.trashed_at_ms = none)).map NodeRow.toRawNode

def fetch_by_id_any (db : Db) (ws : WorkspaceId) (id : NodeId) : Option RawNode :=
  (db.nodes.rows.find? (fun n => n.workspace_id = ws ∧ n.id = id)).map NodeRow.toRawNode

/-- Walks down from a node, one named child at a time. -/
def walk (db : Db) (ws : WorkspaceId) : RawNode → List Text → Option RawNode
  | current, [] => some current
  | current, segment :: rest =>
    if current.kind ≠ .Directory then none
    else match fetch_child db ws current.id segment with
      | some child => walk db ws child rest
      | none => none

def resolve (db : Db) (ws : WorkspaceId) (path : VirtualPath) : Option RawNode :=
  match fetch_root db ws with
  | none => none
  | some root => walk db ws root path.segments

/-- The outcome of a symlink-aware path resolution. -/
inductive ResolveOutcome where
  | Found (node : RawNode)
  | NotFound
  | BrokenLink
  | LinkLoop
  deriving DecidableEq

inductive FollowStep where
  | Next (base : RawNode) (remaining : List Text)
  | Broken

def split_segments (path : Text) : List Text :=
  (path.splitOn '/').filter (fun segment => segment ≠ [] ∧ segment ≠ ['.'])

/-- Walks leading `..` segments up through ancestors; at the root they stay there. -/
def climb (db : Db) (ws : WorkspaceId) : RawNode → List Text → FollowStep
  | base, segment :: rest =>
    if segment = ['.', '.'] then
      match base.parent_id with
      | none => climb db ws base rest
      | some grandparent_id =>
        match fetch_by_id db ws grandparent_id with
        | some node => climb db ws node rest
        | none => .Broken
    else .Next base (segment :: rest)
  | base, [] => .Next base []

/-- Follows one symbolic link; the hop count is the caller's. -/
def follow_one (db : Db) (ws : WorkspaceId) (symlink_node : RawNode) : FollowStep :=
  match symlink_node.symlink_target with
  | none => .Broken
  | some target_str =>
    match LinkTarget.parse target_str with
    | .error _ => .Broken
    | .ok target =>
      if target.is_absolute then
        match fetch_root db ws with
        | none => .Broken
        | some root => .Next root (split_segments target.as_str)
      else
        match symlink_node.parent_id with
        | none => .Broken
        | some parent_id =>
          match fetch_by_id db ws parent_id with
          | none => .Broken
          | some base => climb db ws base (split_segments target.as_str)

/-- How the walk over pending segments goes on until it stops or meets a link. -/
inductive WalkStop where
  | Done (outcome : ResolveOutcome)
  | Link (node : RawNode) (pending : List Text)

/-- The main loop of `resolve_following` between two links: it descends while
the current node is a directory. The counter says how many pending segments
come from a link's own target. -/
def descend (db : Db) (ws : WorkspaceId) (follow_final : Bool) :
    RawNode → List Text → Nat → WalkStop
  | current, [], _ =>
    if follow_final ∧ current.kind = .Symlink then .Link current []
    else .Done (.Found current)
  | current, segment :: rest, link_target_segments =>
    match current.kind with
    | .Directory =>
      match fetch_child db ws current.id segment with
      | some child => descend db ws follow_final child rest (link_target_segments - 1)
      | none => .Done (if 0 < link_target_segments then .BrokenLink else .NotFound)
    | .Symlink => .Link current (segment :: rest)
    | .File => .Done .NotFound

/-- The main loop of `resolve_following`, one round for each link that may
still be followed. -/
def follow_loop (db : Db) (ws : WorkspaceId) (follow_final : Bool) :
    Nat → RawNode → List Text → Nat → ResolveOutcome
  | hops, current, pending, link_target_segments =>
    match descend db ws follow_final current pending link_target_segments with
    | .Done outcome => outcome
    | .Link node rest =>
      match hops with
      | 0 => .LinkLoop
      | hops + 1 =>
        match follow_one db ws node with
        | .Broken => .BrokenLink
        | .Next base remaining => follow_loop db ws follow_final hops base
          (remaining ++ rest) remaining.length

def resolve_following (db : Db) (ws : WorkspaceId) (path : VirtualPath) (follow_final : Bool) :
    ResolveOutcome :=
  match fetch_root db ws with
  | none => .NotFound
  | some root => follow_loop db ws follow_final MAX_LINK_HOPS root path.segments 0

end resolve

end fslite
