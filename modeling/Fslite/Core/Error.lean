import Mathlib.Algebra.GroupWithZero.Nat
import Mathlib.Algebra.Order.Monoid.Unbundled.WithTop
import Mathlib.Tactic.Common

namespace fslite

/-- Text is modelled by its list of characters. -/
abbrev Text := List Char

/-- The stable category of a filesystem failure. -/
inductive ErrorCode where
  | InvalidPathOrName
  | NotFound
  | AlreadyExists
  | WrongNodeType
  | DirectoryNotEmpty
  | LinkLoop
  | BrokenLink
  | WorkspaceBoundaryViolation
  | PermissionDenied
  | RevisionConflict
  | QuotaExceeded
  | InvalidRange
  | InvalidCursor
  | StorageBusy
  | InternalStorageFailure
  deriving DecidableEq, Repr

/-- The structured details of an error: JSON `null`, or the object a failed
batch attaches. -/
inductive Details where
  | null
  | index (index : Nat)
  deriving DecidableEq, Repr

structure FsError where
  code : ErrorCode
  message : Text
  details : Details
  deriving DecidableEq, Repr

abbrev FsResult (A : Type) := Except FsError A

namespace FsError

def new (code : ErrorCode) (message : Text) (details : Details) : FsError :=
  ⟨code, message, details⟩

def for_subject (code : ErrorCode) (label : String) (subject : Text) : FsError :=
  new code (label.toList ++ ": ".toList ++ subject) .null

def invalid_path_or_name : Text → FsError := for_subject .InvalidPathOrName "invalid path or name"
def not_found : Text → FsError := for_subject .NotFound "not found"
def already_exists : Text → FsError := for_subject .AlreadyExists "already exists"
def wrong_node_type : Text → FsError := for_subject .WrongNodeType "wrong node type"
def directory_not_empty : Text → FsError := for_subject .DirectoryNotEmpty "directory not empty"
def link_loop : Text → FsError := for_subject .LinkLoop "link loop"
def broken_link : Text → FsError := for_subject .BrokenLink "broken link"
def permission_denied : Text → FsError := for_subject .PermissionDenied "permission denied"
def revision_conflict : Text → FsError := for_subject .RevisionConflict "revision conflict"
def quota_exceeded : Text → FsError := for_subject .QuotaExceeded "quota exceeded"
def invalid_range : Text → FsError := for_subject .InvalidRange "invalid range"
def invalid_cursor : Text → FsError := for_subject .InvalidCursor "invalid cursor"
def internal_storage_failure : Text → FsError :=
  for_subject .InternalStorageFailure "internal storage failure"

@[simp] theorem for_subject_code (code : ErrorCode) (label : String) (subject : Text) :
    (for_subject code label subject).code = code := rfl

/-- Errors about a subject carry no details; only a failed batch attaches some. -/
@[simp] theorem for_subject_details (code : ErrorCode) (label : String) (subject : Text) :
    (for_subject code label subject).details = .null := rfl

end FsError

end fslite
