import Fslite.Core.Path

namespace fslite

/-- Identifiers are 128-bit UUIDs, modelled by natural numbers. -/
abbrev Uuid := Nat

abbrev WorkspaceId := Uuid
abbrev NodeId := Uuid
abbrev TrashId := Uuid
abbrev GenerationId := Uuid

abbrev Bytes := List UInt8

/-- The hexadecimal digits of a number, most significant first. -/
def hex (width n : Nat) : Text :=
  (List.range width).map (fun i => Nat.digitChar (n / 16 ^ (width - 1 - i) % 16))

/-- The hyphenated form in which a UUID is displayed. -/
def uuid_text (id : Uuid) : Text :=
  let digits := hex 32 id
  digits.take 8 ++ '-' :: (digits.drop 8).take 4 ++ '-' :: (digits.drop 12).take 4 ++
    '-' :: (digits.drop 16).take 4 ++ '-' :: digits.drop 20

def decimal (n : Nat) : Text := Nat.toDigits 10 n

/-- The length of a text in its UTF-8 encoding. -/
def utf8_len (text : Text) : Nat := (text.map Char.utf8Size).sum

/-- A positive node revision. -/
structure Revision where
  get : Nat
  pos : 0 < get
  deriving DecidableEq

namespace Revision

def new (value : Nat) : Option Revision := if h : 0 < value then some ⟨value, h⟩ else none

theorem new_get {value : Nat} {revision : Revision} (h : new value = some revision) :
    revision.get = value := by
  unfold new at h
  split at h
  · cases h
    rfl
  · cases h

end Revision

inductive NodeKind where
  | Directory
  | File
  | Symlink
  deriving DecidableEq, Repr

/-- Safe actor fields: JSON object keys with the text of their values. -/
abbrev Metadata := List (Text × Text)

/-- Attribute maps in key order, with base64url-encoded values. -/
abbrev Attributes := List (Text × Text)

/-- Transport-independent metadata of a node. -/
structure Node where
  workspace_id : WorkspaceId
  id : NodeId
  parent_id : Option NodeId
  name : Text
  kind : NodeKind
  logical_size : Nat
  created_at_ms : Int
  modified_at_ms : Int
  accessed_at_ms : Int
  revision : Revision
  attributes : Attributes
  deriving DecidableEq

structure TrashEntry where
  id : TrashId
  node : Node
  original_path : VirtualPath
  trashed_at_ms : Int
  actor_metadata : Metadata
  deriving DecidableEq

inductive Capability where
  | Read
  | Write
  | Delete
  | TrashRestore
  | WorkspaceAdmin
  deriving DecidableEq, Repr

/-- The name a capability is printed with. -/
def Capability.debug : Capability → Text
  | .Read => "Read".toList
  | .Write => "Write".toList
  | .Delete => "Delete".toList
  | .TrashRestore => "TrashRestore".toList
  | .WorkspaceAdmin => "WorkspaceAdmin".toList

/-- Authorization and audit context of an operation. -/
structure RequestContext where
  workspace_id : WorkspaceId
  actor_metadata : Metadata
  capabilities : List Capability

namespace RequestContext

def trusted (workspace_id : WorkspaceId) : RequestContext :=
  ⟨workspace_id, [], [.Read, .Write, .Delete, .TrashRestore, .WorkspaceAdmin]⟩

def has_capability (ctx : RequestContext) (capability : Capability) : Bool :=
  capability ∈ ctx.capabilities

end RequestContext

structure ByteRange where
  start : Nat
  end_ : Nat
  deriving DecidableEq

structure CreateOptions where
  parents : Bool := false
  exist_ok : Bool := false
  expected_revision : Option Revision := none

structure ReadOptions where
  range : Option ByteRange := none
  follow_symlinks : Bool := true

structure WriteOptions where
  create : Bool := true
  expected_revision : Option Revision := none

structure MutationOptions where
  expected_revision : Option Revision := none

structure TouchOptions where
  create : Bool := true
  expected_revision : Option Revision := none

structure CopyOptions where
  recursive : Bool := false
  overwrite : Bool := false
  expected_revision : Option Revision := none

structure MoveOptions where
  overwrite : Bool := false
  expected_revision : Option Revision := none

structure RemoveOptions where
  recursive : Bool := false
  expected_revision : Option Revision := none

/-- The items a byte source yields before it ends. -/
abbrev WriteSource := List (FsResult Bytes)

inductive ChangeKind where
  | Created
  | Modified
  | Copied
  | Moved
  | Removed
  | Trashed
  | Restored
  | Purged
  | AttributeSet
  | AttributeRemoved
  deriving DecidableEq, Repr

/-- A committed change of a workspace. -/
structure Change where
  sequence : Nat
  kind : ChangeKind
  node_id : Option NodeId
  old_path : Option VirtualPath
  new_path : Option VirtualPath
  revision : Option Revision
  created_at_ms : Int
  actor_metadata : Metadata
  deriving DecidableEq

/-- An opaque continuation cursor of the change feed. -/
structure ChangeCursor where
  as_str : Text

def DEFAULT_PAGE_LIMIT : Nat := 100

/-- Cursor pagination parameters. -/
structure PageRequest where
  cursor : Option Text := none
  limit : Nat := DEFAULT_PAGE_LIMIT

/-- A page of results, with the cursor of the next page unless it is the last one. -/
structure Page (A : Type) where
  items : List A
  next_cursor : Option Text

/-- An operation that may take part in an atomic batch. -/
inductive BatchOperation where
  | Mkdir (path : VirtualPath) (options : CreateOptions)
  | Touch (path : VirtualPath) (options : TouchOptions)
  | Copy (source target : VirtualPath) (options : CopyOptions)
  | Move (source target : VirtualPath) (options : MoveOptions)
  | Remove (path : VirtualPath) (options : RemoveOptions)
  | Symlink (target : LinkTarget) (link : VirtualPath) (options : CreateOptions)
  | Trash (path : VirtualPath) (options : MutationOptions)
  | Restore (trash : TrashId) (destination : Option VirtualPath) (options : MutationOptions)
  | Purge (trash : TrashId)
  | SetAttribute (path : VirtualPath) (key : Text) (value : Bytes) (options : MutationOptions)
  | RemoveAttribute (path : VirtualPath) (key : Text) (options : MutationOptions)

/-- The result of one successful batch member. -/
inductive BatchResult where
  | Node (node : Node)
  | Trash (entry : TrashEntry)
  | Unit
  deriving DecidableEq

end fslite
