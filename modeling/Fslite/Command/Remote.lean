import Fslite.Command.Local
import Fslite.Server.Api

namespace fslite

def Command.path : Command → VirtualPath
  | Stat path _ => path
  | Exists path _ => path
  | ReadDir path _ => path
  | Tree path _ _ => path
  | Mkdir path _ => path
  | Read path _ => path
  | Write path _ _ => path
  | WriteAt path _ _ _ => path
  | Append path _ _ => path
  | Truncate path _ _ => path
  | Touch path _ => path
  | Remove path _ => path
  | ReadLink path => path

/-- The client of a server, with the token it sends. -/
structure RemoteExecutor where
  token : Text

namespace RemoteExecutor

open http

def url (ws : WorkspaceId) (suffix : Text) : Text :=
  "/v1/workspaces/".toList ++ uuid_text ws ++ suffix

def bearer_auth (self : RemoteExecutor) : Option Text := some ("Bearer ".toList ++ self.token)

def revision_query : Option Revision → List (Text × Text)
  | some revision => [("expected_revision".toList, decimal revision.get)]
  | none => []

def page_query (page : PageRequest) : List (Text × Text) :=
  ("limit".toList, decimal page.limit) ::
    (match page.cursor with
    | some cursor => [("cursor".toList, cursor)]
    | none => [])

/-- `Option<Revision>` in a JSON body. -/
def revision_json : Option Revision → Json
  | some revision => .number revision.get
  | none => .null

/-- The JSON object that a command sends. -/
def Command.json : Command → Option Object
  | .Mkdir _ options => some [("parents".toList, .bool options.parents),
    ("exist_ok".toList, .bool options.exist_ok),
      ("expected_revision".toList, revision_json options.expected_revision)]
  | .Truncate _ length options => some [("length".toList, .number length),
      ("expected_revision".toList, revision_json options.expected_revision)]
  | .Touch _ options => some [("op".toList, .string "touch".toList),
    ("create".toList, .bool options.create),
      ("expected_revision".toList, revision_json options.expected_revision)]
  | _ => none

/-- The bytes that a command sends. -/
def Command.body (lib : Libraries) : Command → Bytes
  | .Write _ bytes _ => bytes
  | .WriteAt _ _ bytes _ => bytes
  | .Append _ bytes _ => bytes
  | command => (json command).elim [] lib.to_vec

def Command.query : Command → List (Text × Text)
  | .Stat _ follow_symlinks => [("follow_symlinks".toList, bool_text follow_symlinks)]
  | .Exists _ follow_symlinks => [("follow_symlinks".toList, bool_text follow_symlinks)]
  | .ReadDir _ page => page_query page
  | .Tree _ options page =>
    page_query page ++
      (match options.max_depth with
      | some max_depth => [("max_depth".toList, decimal max_depth)]
      | none => []) ++ [("follow_symlinks".toList, bool_text options.follow_symlinks)]
  | .Mkdir _ _ => [("type".toList, "directory".toList)]
  | .Write _ _ options => ("create".toList, bool_text options.create) ::
    revision_query options.expected_revision
  | .WriteAt _ offset _ options =>
    ("offset".toList, decimal offset) :: revision_query options.expected_revision
  | .Append _ _ options => ("action".toList, "append".toList) ::
    revision_query options.expected_revision
  | .Truncate _ _ _ => [("action".toList, "truncate".toList)]
  | .Remove _ options => ("recursive".toList, bool_text options.recursive) ::
    revision_query options.expected_revision
  | _ => []

def Command.method : Command → Method
  | .Stat _ _ => .GET
  | .Exists _ _ => .GET
  | .ReadDir _ _ => .GET
  | .Tree _ _ _ => .GET
  | .Read _ _ => .GET
  | .ReadLink _ => .GET
  | .Mkdir _ _ => .PUT
  | .Write _ _ _ => .PUT
  | .WriteAt _ _ _ _ => .PATCH
  | .Touch _ _ => .PATCH
  | .Append _ _ _ => .POST
  | .Truncate _ _ _ => .POST
  | .Remove _ _ => .DELETE

def FS : Text := "/fs".toList
def DIRECTORIES : Text := "/directories".toList
def CONTENT : Text := "/content".toList

/-- What the URL of a command has after the workspace. -/
def Command.suffix : Command → Text
  | .ReadDir path _ => DIRECTORIES ++ path.as_str ++ "/children".toList
  | .Tree path _ _ => DIRECTORIES ++ path.as_str ++ "/tree".toList
  | .ReadLink path => FS ++ path.as_str ++ "/link-target".toList
  | .Read path _ => CONTENT ++ path.as_str
  | .Write path _ _ => CONTENT ++ path.as_str
  | .WriteAt path _ _ _ => CONTENT ++ path.as_str
  | .Append path _ _ => CONTENT ++ path.as_str
  | .Truncate path _ _ => CONTENT ++ path.as_str
  | .Stat path _ => FS ++ path.as_str
  | .Exists path _ => FS ++ path.as_str
  | .Mkdir path _ => FS ++ path.as_str
  | .Touch path _ => FS ++ path.as_str
  | .Remove path _ => FS ++ path.as_str

/-- The header of a ranged read. -/
def range_header (range : ByteRange) : Text :=
  "bytes=".toList ++ decimal range.start ++ '-' :: decimal (range.end_ - 1)

def Command.range : Command → Option Text
  | .Read _ options => options.range.map range_header
  | _ => none

/-- The request of a command. A read sends that of a `Stat` before its own. -/
def request (self : RemoteExecutor) (lib : Libraries) (ctx : RequestContext) (command : Command) :
    http.Request where
  method := Command.method command
  url := url ctx.workspace_id (Command.suffix command)
  query := Command.query command
  authorization := self.bearer_auth
  range := Command.range command
  body := Command.body lib command

section responses

/-- The codes of the domain, in the order of their declaration. -/
def codes : List ErrorCode :=
  [.InvalidPathOrName, .NotFound, .AlreadyExists, .WrongNodeType, .DirectoryNotEmpty, .LinkLoop,
  .BrokenLink,
  .WorkspaceBoundaryViolation, .PermissionDenied, .RevisionConflict, .QuotaExceeded, .InvalidRange,
    .InvalidCursor, .StorageBusy,
  .InternalStorageFailure]

def code_from_str (raw : Text) : ErrorCode :=
  (codes.find? (fun code => code_str code = raw)).getD .InternalStorageFailure

theorem code_from_str_code_str (code : ErrorCode) :
    code_from_str (code_str code) = code := by cases code <;> decide

/-- The reason that a status is printed with. -/
def canonical_reason : Nat → Text
  | 400 => "Bad Request".toList
  | 401 => "Unauthorized".toList
  | 403 => "Forbidden".toList
  | 404 => "Not Found".toList
  | 405 => "Method Not Allowed".toList
  | 409 => "Conflict".toList
  | 412 => "Precondition Failed".toList
  | 413 => "Payload Too Large".toList
  | 416 => "Range Not Satisfiable".toList
  | 500 => "Internal Server Error".toList
  | 503 => "Service Unavailable".toList
  | _ => "<unknown status code>".toList

def error_from_response (response : Response) : FsError :=
  match response.payload with
  | .error code message details => FsError.new (code_from_str code) message details
  | _ => FsError.internal_storage_failure
    ("unrecognized error response, status ".toList ++ decimal response.status ++ ' ' ::
      canonical_reason response.status)

/-- The bounds of a `Content-Range` header, the second one exclusive. -/
def parse_content_range_bounds (header : Text) : Option (Nat × Nat) := do
  let range ← strip_prefix "bytes ".toList header
  let (range, _) ← split_once '/' range
  let (start, end_inclusive) ← split_once '-' range
  let start ← parse_uint U64_MAX start
  let end_inclusive ← parse_uint U64_MAX end_inclusive
  return (start, (end_inclusive + 1) % (U64_MAX + 1))

variable (self : RemoteExecutor) (lib : Libraries) (send : http.Request → Prog DbCall.Res Response)
  (ctx : RequestContext)

/-- A request that is answered with success, or the error that it is answered with. -/
def send_checked (command : Command) : Task Response := do
  let response ← ExceptT.lift (send (self.request lib ctx command))
  if response.is_success then return response else throw (error_from_response response)

/-- A body that is not what is expected. -/
def map_reqwest_err {A : Type} : Task A :=
  throw (FsError.internal_storage_failure (lib.json_error []))

def send_node (command : Command) : Task Node := do
  match (← self.send_checked lib send ctx command).payload with
  | .node node => return node
  | _ => map_reqwest_err lib

def stat (path : VirtualPath) (follow_symlinks : Bool) : Task Node :=
  self.send_node lib send ctx (.Stat path follow_symlinks)

/-- The whole body of a response; an error in its stream breaks the connection. -/
def bytes (response : Response) : Task Bytes :=
  match response.payload with
  | .stream items =>
    match LocalExecutor.drain items with
    | .ok bytes => return bytes
    | .error _ => map_reqwest_err lib
  | _ => return []

def read (path : VirtualPath) (options : ReadOptions) : Task CommandOutput :=
  if ¬ options.follow_symlinks then
    throw (FsError.internal_storage_failure
      ("RemoteExecutor cannot honor follow_symlinks=false for read: ".toList ++
      "fslite-server's content route always follows symlinks".toList))
  else do
    let node ← self.stat lib send ctx path true
    let response ← ExceptT.lift (send (self.request lib ctx (.Read path options)))
    if response.status = RANGE_NOT_SATISFIABLE then
      throw (FsError.invalid_range ("range not satisfiable for ".toList ++ path.as_str))
    else if ¬ response.is_success then throw (error_from_response response)
    else do
      let bytes ← bytes lib response
      let range := match response.content_range.bind parse_content_range_bounds with
        | some (start, end_) => ByteRange.mk start end_
        | none => ⟨0, bytes.length⟩
      return .Content node.logical_size node.revision range bytes

def exists_ (path : VirtualPath) (follow_symlinks : Bool) : Task Bool :=
  tryCatch (do
    let _ ← self.stat lib send ctx path follow_symlinks
    return true)
    (fun err => if err.code = .NotFound then return false else throw err)

def execute : Command → Task CommandOutput
  | .Stat path follow_symlinks => .Node <$> self.stat lib send ctx path follow_symlinks
  | .Exists path follow_symlinks => .Exists <$> self.exists_ lib send ctx path follow_symlinks
  | .Read path options => self.read lib send ctx path options
  | .Remove path options => (fun _ => .Unit) <$> self.send_checked lib send ctx
    (.Remove path options)
  | .ReadDir path page => do
    match (← self.send_checked lib send ctx (.ReadDir path page)).payload with
    | .nodes page => return .Nodes page
    | _ => map_reqwest_err lib
  | .Tree path options page => do
    match (← self.send_checked lib send ctx (.Tree path options page)).payload with
    | .tree page => return .Tree page
    | _ => map_reqwest_err lib
  | .ReadLink path => do
    match (← self.send_checked lib send ctx (.ReadLink path)).payload with
    | .link_target target =>
      match LinkTarget.parse target with
      | .ok target => return .LinkTarget target
      | .error err => throw (FsError.internal_storage_failure err.message)
    | _ => map_reqwest_err lib
  | command => .Node <$> self.send_node lib send ctx command

end responses

end RemoteExecutor

end fslite
