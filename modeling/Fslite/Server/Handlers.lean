import Fslite.Server.Routes

namespace fslite

def saturating_add (a b : Nat) : Nat := min (a + b) U64_MAX

/-- Why a `Range` header does not give a range. -/
inductive RangeError where
  | Malformed
  | MultiRangeUnsupported
  | Unsatisfiable
  deriving DecidableEq

/-- The range that a `Range` header asks for of a file of the given size. -/
def resolve_range (header : Text) (logical_size : Nat) : Except RangeError ByteRange :=
  match strip_prefix "bytes=".toList header with
  | none => .error .Malformed
  | some spec =>
    if ',' ∈ spec then .error .MultiRangeUnsupported
    else
      match split_once '-' spec with
      | none => .error .Malformed
      | some (start_str, end_str) =>
        if start_str = [] then
          match parse_uint U64_MAX end_str with
          | none => .error .Malformed
          | some suffix_len =>
            if suffix_len = 0 then .error .Malformed else .ok
              ⟨logical_size - suffix_len, logical_size⟩
        else
          match parse_uint U64_MAX start_str with
          | none => .error .Malformed
          | some start =>
            if logical_size ≤ start then .error .Unsatisfiable
            else if end_str = [] then .ok ⟨start, logical_size⟩
            else
              match parse_uint U64_MAX end_str with
              | none => .error .Malformed
              | some inclusive_end =>
                if inclusive_end < start then .error .Malformed
                else .ok ⟨start, min (saturating_add inclusive_end 1) logical_size⟩

namespace routes

open http (Response)

def node_response (node : Node) : Response := { status := http.OK, payload := .node node }

section nodes

variable (lib : http.Libraries) (rt : Runtime) (views : Views) (ctx : RequestContext)
  (path : VirtualPath)

def read_link : Api Response := do
  let target ← Api.fs (views.read_link ctx path)
  return { status := http.OK, payload := .link_target target.as_str }

def stat_inner (params : List (Text × Text)) : Api Response := do
  let follow_symlinks ← Api.ofResult (query_bool params "follow_symlinks".toList true)
  let node ← Api.fs (SqliteFileSystem.stat ctx path follow_symlinks)
  return node_response node

def exists_ (params : List (Text × Text)) : Api Response := do
  let follow_symlinks ← Api.ofResult (query_bool params "follow_symlinks".toList true)
  let found ← Api.fs (views.exists_ ctx path follow_symlinks)
  return { status := if found then http.OK else 404, payload := .empty }

def remove (params : List (Text × Text)) : Api Response := do
  let recursive ← Api.ofResult (query_bool params "recursive".toList false)
  let expected_revision ← Api.ofResult (query_revision params)
  Api.fs (SqliteFileSystem.remove rt ctx path ⟨recursive, expected_revision⟩)
  return { status := http.OK, payload := .empty }

structure MkdirBody where
  parents : Bool := false
  exist_ok : Bool := false
  expected_revision : Option Nat := none

def mkdir_body (object : http.Object) : Option MkdirBody := do
  return ⟨← object.flag "parents".toList, ← object.flag "exist_ok".toList,
    ← object.optional_uint "expected_revision".toList⟩

structure SymlinkBody where
  target : Text
  parents : Bool
  exist_ok : Bool
  expected_revision : Option Nat

def symlink_body (object : http.Object) : Option SymlinkBody := do
  return ⟨← object.text "target".toList, ← object.flag "parents".toList,
    ← object.flag "exist_ok".toList,
    ← object.optional_uint "expected_revision".toList⟩

def put_node (params : List (Text × Text)) (body : Bytes) : Api Response :=
  match get params "type".toList with
  | some kind =>
    if kind = "directory".toList then do
      let parsed ← Api.ofResult (if body = [] then .ok {} else read_body lib body mkdir_body)
      let expected_revision ← Api.ofResult (revision_from parsed.expected_revision)
      let node ← Api.fs (SqliteFileSystem.mkdir rt ctx path
        ⟨parsed.parents, parsed.exist_ok, expected_revision⟩)
      return node_response node
    else if kind = "symlink".toList then do
      let parsed ← Api.ofResult (read_body lib body symlink_body)
      let target ← Api.ofResult
        ((LinkTarget.parse parsed.target).mapError (fun err => ApiError.MalformedBody err.message))
      let expected_revision ← Api.ofResult (revision_from parsed.expected_revision)
      let node ← Api.fs (SqliteFileSystem.symlink rt ctx target path
        ⟨parsed.parents, parsed.exist_ok, expected_revision⟩)
      return node_response node
    else throw (.MalformedBody "query parameter `type` must be `directory` or `symlink`".toList)
  | none => throw (.MalformedBody "query parameter `type` must be `directory` or `symlink`".toList)

structure ActionBody where
  to_ : Option Text := none
  recursive : Bool := false
  overwrite : Bool := false
  expected_revision : Option Nat := none

def action_body (object : http.Object) : Option ActionBody := do
  return ⟨← object.optional_text "to".toList, ← object.flag "recursive".toList,
    ← object.flag "overwrite".toList,
    ← object.optional_uint "expected_revision".toList⟩

/-- The destination of a copy or a move. -/
def destination (parsed : ActionBody) (action : Text) : Except ApiError VirtualPath :=
  match parsed.to_ with
  | none => .error (.MalformedBody ("`to` is required for action=".toList ++ action))
  | some raw => parse_path raw

def post_action (params : List (Text × Text)) (body : Bytes) : Api Response := do
  let parsed ← Api.ofResult (if body = [] then .ok {} else read_body lib body action_body)
  let expected_revision ← Api.ofResult (revision_from parsed.expected_revision)
  let action := get params "action".toList
  if action = some "copy".toList then do
    let target ← Api.ofResult (destination parsed "copy".toList)
    let node ← Api.fs (SqliteFileSystem.copy rt ctx path target
      ⟨parsed.recursive, parsed.overwrite, expected_revision⟩)
    return node_response node
  else if action = some "move".toList then do
    let target ← Api.ofResult (destination parsed "move".toList)
    let node ← Api.fs (SqliteFileSystem.move_path rt ctx path target
      ⟨parsed.overwrite, expected_revision⟩)
    return node_response node
  else if action = some "trash".toList then do
    let entry ← Api.fs (SqliteFileSystem.trash rt ctx path ⟨expected_revision⟩)
    return { status := http.OK, payload := .trash entry }
  else throw (.MalformedBody "query parameter `action` must be `copy`, `move`, or `trash`".toList)

inductive PatchBody where
  | Touch (create : Bool) (expected_revision : Option Nat)
  | SetAttribute (key value_base64 : Text) (expected_revision : Option Nat)
  | RemoveAttribute (key : Text) (expected_revision : Option Nat)

def patch_body (object : http.Object) : Option PatchBody := do
  let op ← object.text "op".toList
  if op = "touch".toList then
    return .Touch (← object.flag "create".toList)
      (← object.optional_uint "expected_revision".toList)
  else if op = "set_attribute".toList then
    return .SetAttribute (← object.text "key".toList) (← object.text "value_base64".toList)
      (← object.optional_uint "expected_revision".toList)
  else if op = "remove_attribute".toList then
    return .RemoveAttribute (← object.text "key".toList)
      (← object.optional_uint "expected_revision".toList)
  else none

def patch_node (body : Bytes) : Api Response := do
  match ← Api.ofResult (read_body lib body patch_body) with
  | .Touch create expected_revision =>
    let expected_revision ← Api.ofResult (revision_from expected_revision)
    let node ← Api.fs (SqliteFileSystem.touch rt ctx path ⟨create, expected_revision⟩)
    return node_response node
  | .SetAttribute key value_base64 expected_revision =>
    let value ← Api.ofResult ((lib.base64 value_base64).mapError
      (fun err => ApiError.MalformedBody ("invalid base64 value: ".toList ++ err)))
    let expected_revision ← Api.ofResult (revision_from expected_revision)
    let node ← Api.fs (SqliteFileSystem.set_attribute rt ctx path key value ⟨expected_revision⟩)
    return node_response node
  | .RemoveAttribute key expected_revision =>
    let expected_revision ← Api.ofResult (revision_from expected_revision)
    let node ← Api.fs (SqliteFileSystem.remove_attribute rt ctx path key ⟨expected_revision⟩)
    return node_response node

end nodes

section directories

variable (views : Views) (ctx : RequestContext) (path : VirtualPath)

def page_request (params : List (Text × Text)) : Except ApiError PageRequest := do
  return { cursor := get params "cursor".toList, limit :=
    ← query_u32 params "limit".toList DEFAULT_PAGE_LIMIT }

def read_dir (params : List (Text × Text)) : Api Response := do
  let page ← Api.ofResult (page_request params)
  let result ← Api.fs (views.read_dir ctx path page)
  return { status := http.OK, payload := .nodes result }

def max_depth (params : List (Text × Text)) : Except ApiError (Option Nat) :=
  match get params "max_depth".toList with
  | none => .ok none
  | some value =>
    match parse_uint U32_MAX value with
    | some n => .ok (some n)
    | none => .error (.MalformedBody "max_depth must be a non-negative integer".toList)

def tree (params : List (Text × Text)) : Api Response := do
  let page ← Api.ofResult (page_request params)
  let depth ← Api.ofResult (max_depth params)
  let follow_symlinks ← Api.ofResult (query_bool params "follow_symlinks".toList false)
  let result ← Api.fs (views.tree ctx path ⟨depth, follow_symlinks⟩ page)
  return { status := http.OK, payload := .tree result }

end directories

section content

variable (lib : http.Libraries) (rt : Runtime) (ctx : RequestContext) (path : VirtualPath)

/-- `bytes {start}-{end}/{total}` -/
def content_range (range : ByteRange) (logical_length : Nat) : Text :=
  "bytes ".toList ++ decimal range.start ++ '-' ::
    (decimal (range.end_ - 1) ++ '/' :: decimal logical_length)

/-- The response to a read, whole or of a resolved range. -/
def read_range (range : Option ByteRange) : Api Response := do
  let file ← Api.fs (SqliteFileSystem.read ctx path ⟨range, true⟩)
  let items ← ExceptT.lift file.into_stream
  return match range with
    | some _ =>
      { status := http.PARTIAL_CONTENT, content_range :=
        some (content_range file.range file.logical_length), payload := .stream items }
    | none => { status := http.OK, payload := .stream items }

def read (header : Option Text) : Api Response :=
  match header with
  | none => read_range ctx path none
  | some header => do
    let node ← Api.fs (SqliteFileSystem.stat ctx path true)
    match resolve_range header node.logical_size with
    | .ok range => read_range ctx path (some range)
    | .error .Unsatisfiable =>
      return {
        status := http.RANGE_NOT_SATISFIABLE
        content_range := some ("bytes */".toList ++ decimal node.logical_size)
        payload := .empty }
    | .error _ => throw (.MalformedBody "unsupported Range header".toList)

/-- The body as a stream; it comes in one piece or in several. -/
def body_write_source (body : List Bytes) : WriteSource := body.map .ok

def write (params : List (Text × Text)) (body : List Bytes) : Api Response := do
  let create ← Api.ofResult (query_bool params "create".toList true)
  let expected_revision ← Api.ofResult (query_revision params)
  let node ← Api.fs (SqliteFileSystem.write rt ctx path (body_write_source body)
    ⟨create, expected_revision⟩)
  return node_response node

def offset (params : List (Text × Text)) : Except ApiError Nat :=
  match get params "offset".toList with
  | none => .error (.MalformedBody "query parameter `offset` is required".toList)
  | some value =>
    match parse_uint U64_MAX value with
    | some n => .ok n
    | none => .error (.MalformedBody "offset must be a non-negative integer".toList)

def write_at (params : List (Text × Text)) (body : List Bytes) : Api Response := do
  let offset ← Api.ofResult (offset params)
  let expected_revision ← Api.ofResult (query_revision params)
  let node ← Api.fs (SqliteFileSystem.write_at rt ctx path offset (body_write_source body)
    { expected_revision := expected_revision })
  return node_response node

structure TruncateBody where
  length : Nat
  expected_revision : Option Nat

def truncate_body (object : http.Object) : Option TruncateBody := do
  return ⟨← object.uint "length".toList, ← object.optional_uint "expected_revision".toList⟩

def MAX_TRUNCATE_BODY_BYTES : Nat := 64 * 1024

def post_content (params : List (Text × Text)) (body : List Bytes) : Api Response :=
  let action := get params "action".toList
  if action = some "append".toList then do
    let expected_revision ← Api.ofResult (query_revision params)
    let node ← Api.fs (SqliteFileSystem.append rt ctx path (body_write_source body)
      { expected_revision := expected_revision })
    return node_response node
  else if action = some "truncate".toList then
    if MAX_TRUNCATE_BODY_BYTES < body.flatten.length then throw .PayloadTooLarge
    else do
      let parsed ← Api.ofResult (read_body lib body.flatten truncate_body)
      let expected_revision ← Api.ofResult (revision_from parsed.expected_revision)
      let node ← Api.fs (SqliteFileSystem.truncate rt ctx path parsed.length ⟨expected_revision⟩)
      return node_response node
  else throw (.MalformedBody "query parameter `action` must be `append` or `truncate`".toList)

end content

/-- The handler that a request has come to. -/
def handle (lib : http.Libraries) (rt : Runtime) (views : Views) (arrival : Arrival)
    (params : List (Text × Text)) (range : Option Text) (body : List Bytes) : Api Response :=
  match arrival.handler with
  | .stat_inner => stat_inner arrival.ctx arrival.path params
  | .read_link => read_link views arrival.ctx arrival.path
  | .exists_ => exists_ views arrival.ctx arrival.path params
  | .remove => remove rt arrival.ctx arrival.path params
  | .put_node => put_node lib rt arrival.ctx arrival.path params body.flatten
  | .patch_node => patch_node lib rt arrival.ctx arrival.path body.flatten
  | .post_action => post_action lib rt arrival.ctx arrival.path params body.flatten
  | .read_dir => read_dir views arrival.ctx arrival.path params
  | .tree => tree views arrival.ctx arrival.path params
  | .read => read arrival.ctx arrival.path range
  | .write => write rt arrival.ctx arrival.path params body
  | .write_at => write_at rt arrival.ctx arrival.path params body
  | .post_content => post_content lib rt arrival.ctx arrival.path params body

/-- What the server does with a request, whose body comes in pieces. -/
def app (lib : http.Libraries) (state : AppState) (rt : Runtime) (views : Views)
    (request : http.Request) (body : List Bytes) :
    Prog DbCall.Res Response :=
  match locate lib state request with
  | .error err => pure err.into_response
  | .ok arrival => (handle lib rt views arrival (request.params lib) request.range body).respond

end routes

end fslite
