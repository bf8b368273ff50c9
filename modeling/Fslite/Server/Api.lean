import Fslite.Server.Http
import Fslite.Sqlite.FileSystem
import Fslite.Sqlite.Search

namespace fslite

/-- The uniform error of the server's handlers. -/
inductive ApiError where
  | Domain (err : FsError)
  | Unauthenticated (message : Text)
  | WorkspaceMismatch
  | MalformedBody (message : Text)
  | RouteNotFound
  | MethodNotAllowed
  | PayloadTooLarge
  | Internal (message : Text)
  deriving DecidableEq

def domain_status : ErrorCode → Nat
  | .InvalidPathOrName => 400
  | .WorkspaceBoundaryViolation => 400
  | .InvalidCursor => 400
  | .PermissionDenied => 403
  | .NotFound => 404
  | .AlreadyExists => 409
  | .WrongNodeType => 409
  | .DirectoryNotEmpty => 409
  | .LinkLoop => 409
  | .BrokenLink => 409
  | .QuotaExceeded => 409
  | .RevisionConflict => 412
  | .InvalidRange => http.RANGE_NOT_SATISFIABLE
  | .StorageBusy => 503
  | .InternalStorageFailure => 500

def code_str : ErrorCode → Text
  | .InvalidPathOrName => "invalid_path_or_name".toList
  | .NotFound => "not_found".toList
  | .AlreadyExists => "already_exists".toList
  | .WrongNodeType => "wrong_node_type".toList
  | .DirectoryNotEmpty => "directory_not_empty".toList
  | .LinkLoop => "link_loop".toList
  | .BrokenLink => "broken_link".toList
  | .WorkspaceBoundaryViolation => "workspace_boundary_violation".toList
  | .PermissionDenied => "permission_denied".toList
  | .RevisionConflict => "revision_conflict".toList
  | .QuotaExceeded => "quota_exceeded".toList
  | .InvalidRange => "invalid_range".toList
  | .InvalidCursor => "invalid_cursor".toList
  | .StorageBusy => "storage_busy".toList
  | .InternalStorageFailure => "internal_storage_failure".toList

def ApiError.into_response : ApiError → http.Response
  | .Domain err => { status := domain_status err.code, payload := .error (code_str err.code) err.message err.details }
  | .Unauthenticated message => { status := 401, payload := .error "unauthenticated".toList message .null }
  | .WorkspaceMismatch =>
    { status := 403
      payload := .error "workspace_mismatch".toList "credential does not authorize this workspace".toList .null }
  | .MalformedBody message => { status := 400, payload := .error "malformed_body".toList message .null }
  | .RouteNotFound => {
      status := 404,
      payload := .error "route_not_found".toList "no route matched this request".toList .null }
  | .MethodNotAllowed =>
    { status := 405, payload :=
      .error "method_not_allowed".toList "this route does not support this method".toList .null }
  | .PayloadTooLarge =>
    { status := 413, payload :=
      .error "payload_too_large".toList "request body exceeded the configured limit".toList .null }
  | .Internal message => { status := 500, payload := .error "internal".toList message .null }

/-- No error is answered with success. -/
theorem ApiError.into_response_failure (err : ApiError) : err.into_response.is_success = false := by
  cases err with
  | Domain err =>
    obtain ⟨code, message, details⟩ := err
    cases code <;> rfl
  | _ => rfl

/-- What a handler does: calls on the connection and, in the end, a result or an error. -/
abbrev Api (A : Type) := ExceptT ApiError (Prog DbCall.Res) A

namespace Api

/-- A call of a filesystem method, its error passed on by `?`. -/
def fs {A : Type} (method : Task A) : Api A := ExceptT.adapt .Domain method

def ofResult {A : Type} (result : Except ApiError A) : Api A := ExceptT.mk (pure result)

def respond (handler : Api http.Response) : Prog DbCall.Res http.Response := do
  match ← handler.run with
  | .ok response => return response
  | .error err => return err.into_response

end Api

section dto

/-- The value that a query has for a key, the last one if there are several. -/
def get (params : List (Text × Text)) (key : Text) : Option Text :=
  (params.reverse.find? (fun pair => pair.1 = key)).map Prod.snd

def query_bool (params : List (Text × Text)) (key : Text) (default : Bool) : Except ApiError Bool :=
  match get params key with
  | none => .ok default
  | some value =>
    match parse_bool value with
    | some b => .ok b
    | none => .error (.MalformedBody
      ("query parameter `".toList ++ key ++ "` must be a boolean".toList))

def query_u32 (params : List (Text × Text)) (key : Text) (default : Nat) : Except ApiError Nat :=
  match get params key with
  | none => .ok default
  | some value =>
    match parse_uint U32_MAX value with
    | some n => .ok n
    | none => .error (.MalformedBody
      ("query parameter `".toList ++ key ++ "` must be a non-negative integer".toList))

def query_revision (params : List (Text × Text)) : Except ApiError (Option Revision) :=
  match get params "expected_revision".toList with
  | none => .ok none
  | some value =>
    match parse_uint U64_MAX value with
    | none => .error (.MalformedBody "expected_revision must be a positive integer".toList)
    | some raw =>
      match Revision.new raw with
      | some revision => .ok (some revision)
      | none => .error (.MalformedBody "expected_revision must be nonzero".toList)

def revision_from : Option Nat → Except ApiError (Option Revision)
  | none => .ok none
  | some 0 => .error (.MalformedBody "expected_revision must be nonzero".toList)
  | some v => .ok (Revision.new v)

end dto

namespace http.Object

/-- The value of a field, if there is one. No field comes twice. -/
def field (object : Object) (key : Text) : Option (Option Json) :=
  match object.filter (fun pair => pair.1 = key) with
  | [] => some none
  | [(_, value)] => some (some value)
  | _ => none

/-- A boolean field that is false by default. -/
def flag (object : Object) (key : Text) : Option Bool :=
  match object.field key with
  | some none => some false
  | some (some (.bool b)) => some b
  | _ => none

def text (object : Object) (key : Text) : Option Text :=
  match object.field key with
  | some (some (.string t)) => some t
  | _ => none

def uint (object : Object) (key : Text) : Option Nat :=
  match object.field key with
  | some (some (.number n)) => if n ≤ U64_MAX then some n else none
  | _ => none

def optional_uint (object : Object) (key : Text) : Option (Option Nat) :=
  match object.field key with
  | some none => some none
  | some (some .null) => some none
  | some (some (.number n)) => if n ≤ U64_MAX then some (some n) else none
  | _ => none

def optional_text (object : Object) (key : Text) : Option (Option Text) :=
  match object.field key with
  | some none => some none
  | some (some .null) => some none
  | some (some (.string t)) => some (some t)
  | _ => none

end http.Object

/-- A body read by its fields. -/
def read_body {A : Type} (lib : http.Libraries) (body : Bytes) (fields : http.Object → Option A) :
    Except ApiError A :=
  match (lib.from_slice body).bind fields with
  | some parsed => .ok parsed
  | none => .error (.MalformedBody (lib.json_error body))

end fslite
