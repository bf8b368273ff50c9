import Fslite.Server.Api

namespace fslite

/-- The workspace and the capabilities that a credential resolves to. -/
structure AuthenticatedActor where
  workspace_id : WorkspaceId
  capabilities : List Capability
  actor_metadata : Metadata

/-- The server's credentials. -/
structure AppState where
  tokens : Text → Option AuthenticatedActor

def AppState.authenticate (state : AppState) (authorization : Option Text) :
    Except ApiError AuthenticatedActor :=
  match authorization with
  | none => .error (.Unauthenticated "missing authorization header".toList)
  | some header =>
    match strip_prefix "Bearer ".toList header with
    | none => .error (.Unauthenticated "expected a Bearer token".toList)
    | some token =>
      match state.tokens token with
      | none => .error (.Unauthenticated "unrecognized token".toList)
      | some actor => .ok actor

namespace routes

/-- The routes that end in a path. -/
inductive Resource where
  | fs
  | directories
  | content
  deriving DecidableEq

def Resource.segment : Resource → Text
  | .fs => ['f', 's']
  | .directories => ['d', 'i', 'r', 'e', 'c', 't', 'o', 'r', 'i', 'e', 's']
  | .content => ['c', 'o', 'n', 't', 'e', 'n', 't']

def V1 : Text := ['v', '1']
def WORKSPACES : Text := ['w', 'o', 'r', 'k', 's', 'p', 'a', 'c', 'e', 's']

/-- The pattern `/v1/workspaces/{workspace_id}/{resource}/{*path}`. -/
def Resource.pattern (r : Resource) : List http.Part :=
  [.literal V1, .literal WORKSPACES, .parameter, .literal r.segment, .wildcard]

structure Matched where
  workspace_id : Text
  resource : Resource
  path : Text

def Resource.matched (lib : http.Libraries) (segments : List Text) (r : Resource) :
    Option Matched :=
  match lib.captures r.pattern segments with
  | some [workspace_id, path] => some ⟨workspace_id, r, path⟩
  | _ => none

/-- The route that the segments of a path match. -/
def find (lib : http.Libraries) (segments : List Text) : Option Matched :=
  [Resource.fs, .directories, .content].findSome? (Resource.matched lib segments)

/-- The handlers behind the routes. -/
inductive Handler where
  | stat_inner
  | read_link
  | exists_
  | remove
  | put_node
  | patch_node
  | post_action
  | read_dir
  | tree
  | read
  | write
  | write_at
  | post_content
  deriving DecidableEq

def LINK_TARGET : Text := '/' :: "link-target".toList
def CHILDREN : Text := '/' :: "children".toList
def TREE : Text := '/' :: "tree".toList

namespace nodes

def get_dispatch (raw : Text) : Handler × Text :=
  match strip_suffix LINK_TARGET raw with
  | some front => (.read_link, front)
  | none => (.stat_inner, raw)

end nodes

namespace directories

def dispatch (raw : Text) : Except ApiError (Handler × Text) :=
  match strip_suffix CHILDREN raw with
  | some front => .ok (.read_dir, front)
  | none =>
    match strip_suffix TREE raw with
    | some front => .ok (.tree, front)
    | none => .error .RouteNotFound

end directories

/-- The handler of a route for a method, and what it has of the path. A `GET`
handler answers `HEAD` where nothing else does. -/
def dispatch : Resource → http.Method → Option (Text → Except ApiError (Handler × Text))
  | .fs, .GET => some (fun raw => .ok (nodes.get_dispatch raw))
  | .fs, .HEAD => some (fun raw => .ok (.exists_, raw))
  | .fs, .DELETE => some (fun raw => .ok (.remove, raw))
  | .fs, .PUT => some (fun raw => .ok (.put_node, raw))
  | .fs, .PATCH => some (fun raw => .ok (.patch_node, raw))
  | .fs, .POST => some (fun raw => .ok (.post_action, raw))
  | .directories, .GET => some directories.dispatch
  | .directories, .HEAD => some directories.dispatch
  | .content, .GET => some (fun raw => .ok (.read, raw))
  | .content, .HEAD => some (fun raw => .ok (.read, raw))
  | .content, .PUT => some (fun raw => .ok (.write, raw))
  | .content, .PATCH => some (fun raw => .ok (.write_at, raw))
  | .content, .POST => some (fun raw => .ok (.post_content, raw))
  | _, _ => none

def parse_path (raw : Text) : Except ApiError VirtualPath :=
  (VirtualPath.parse ('/' :: raw)).mapError (fun err => .MalformedBody err.message)

/-- The context that the extractor `Ctx` makes of a request. -/
def extract (lib : http.Libraries) (state : AppState) (authorization : Option Text)
    (matched : Matched) :
    Except ApiError (RequestContext × Text) := do
  let actor ← state.authenticate authorization
  match lib.percent_decode matched.workspace_id, lib.percent_decode matched.path with
  | some raw_workspace_id, some raw =>
    match lib.workspace_id raw_workspace_id with
    | none => .error (.MalformedBody "invalid workspace id in path".toList)
    | some workspace_id =>
      if actor.workspace_id ≠ workspace_id then .error .WorkspaceMismatch
      else .ok (⟨workspace_id, actor.actor_metadata, actor.capabilities⟩, raw)
  | _, _ => .error (.MalformedBody "invalid path parameters".toList)

/-- A request that has come to its handler, with the path that the handler has
obtained. -/
structure Arrival where
  ctx : RequestContext
  handler : Handler
  path : VirtualPath

def locate (lib : http.Libraries) (state : AppState) (request : http.Request) :
    Except ApiError Arrival :=
  match find lib (lib.path request.url) with
  | none => .error .RouteNotFound
  | some matched =>
    match dispatch matched.resource request.method with
    | none => .error .MethodNotAllowed
    | some handle => do
      let (ctx, capture) ← extract lib state request.authorization matched
      let (handler, raw) ← handle capture
      let path ← parse_path raw
      return ⟨ctx, handler, path⟩

end routes

end fslite
