import Fslite.Sqlite.Listing
import Mathlib.Data.List.Infix

namespace fslite

/-- A JSON value, as far as attributes tell values apart. -/
inductive JsonValue where
  | String (text : Text)
  | Other (json : Text)
  deriving DecidableEq

structure FindQuery where
  root : VirtualPath := VirtualPath.root
  name_contains : Option Text := none
  kind : Option NodeKind := none
  min_logical_size : Option Nat := none
  max_logical_size : Option Nat := none
  modified_after_ms : Option Int := none
  modified_before_ms : Option Int := none
  attributes : List (Text × JsonValue) := []

namespace search

/-- The maximum number of subtree rows scanned in one call. -/
def WORK_BUDGET : Nat := 5000

/-- The maximum recursion depth of the subtree query. -/
def MAX_SUBTREE_DEPTH : Nat := 4096

abbrev CursorPos := ℤ × Text × WithBot NodeId

def fetch_subtree_page (db : Db) (ws : WorkspaceId) (root_id : NodeId) (after : CursorPos)
    (limit : Nat) :
    Except Fault (List Descendant) :=
  fetch_descendants db ws root_id (some MAX_SUBTREE_DEPTH) after limit

structure SearchCursor where
  v : Nat
  workspace_id : WorkspaceId
  root : Text
  last_depth : ℤ
  last_name : Text
  last_id : WithBot NodeId
  deriving DecidableEq

def encode_search_cursor (codec : Codec SearchCursor) (ws : WorkspaceId) (root : VirtualPath)
    (pos : CursorPos) : Text :=
  codec.encode {
    v := 1, workspace_id := ws, root := root.as_str
    last_depth := pos.1, last_name := pos.2.1, last_id := pos.2.2 }

def decode_search_cursor (codec : Codec SearchCursor) (raw : Text) (ws : WorkspaceId)
    (root : VirtualPath) :
    FsResult CursorPos := do
  let payload ← decode_cursor codec raw (fun payload =>
    payload.v = 1 ∧ payload.workspace_id = ws ∧ payload.root = root.as_str)
  return (payload.last_depth, payload.last_name, payload.last_id)

inductive PatternSegment where
  | Literal (name : Text)
  | Glob (pattern : Text)
  | DoubleStar
  deriving DecidableEq

def compile_pattern (pattern : Text) : FsResult (List PatternSegment) :=
  if pattern.head? ≠ some '/' then .error (FsError.invalid_path_or_name pattern)
  else .ok ((((pattern.drop 1).splitOn '/').filter (fun segment => segment ≠ [])).map
    (fun segment =>
    if segment = ['*', '*'] then .DoubleStar
    else if '*' ∈ segment ∨ '?' ∈ segment then .Glob segment
    else .Literal segment))

/-- The path of the leading literal segments, from the given one on, and their
number; there is none if a segment cannot be joined, at which the code panics. -/
def literal_prefix (path : VirtualPath) : List PatternSegment → Option (VirtualPath × Nat)
  | .Literal name :: rest => do
    let path ← (path.join name).toOption
    let (path, count) ← literal_prefix path rest
    return (path, count + 1)
  | _ => some (path, 0)

/-- The way on from the last star: the rest of the pattern is tried at every later
position of the text, each time with the next position to go back to. -/
def wildcard_retry (rest : Text → Bool → Bool) : Text → Bool
  | [] => rest [] false
  | c :: text => rest (c :: text) (wildcard_retry rest text)

/-- The loop of `wildcard_match` on what is left of the pattern and of the text.
`back` is what it finds after it has gone back to the last star. -/
def wildcard_loop : Text → Text → Bool → Bool
  | [], text, back => if text = [] then true else back
  | p :: pattern, [], _ => (p :: pattern).all (fun c => c = '*')
  | p :: pattern, c :: text, back =>
    if p = '?' ∨ p = c then wildcard_loop pattern text back
    else if p = '*' then wildcard_retry (wildcard_loop pattern) (c :: text)
    else back

def wildcard_match (pattern text : Text) : Bool := wildcard_loop pattern text false

/-- Whether a segment other than `**` matches a name. -/
def segment_matches : PatternSegment → Text → Bool
  | .Literal expected, name => expected = name
  | .Glob pattern, name => wildcard_match pattern name
  | .DoubleStar, _ => false

/-- The row of the table of `glob_match` that follows the given one. -/
def glob_row (candidate : List Text) (row : List Bool) : PatternSegment → List Bool
  | .DoubleStar =>
    match row with
    | [] => []
    | first :: rest => rest.scanl (fun left above => above || left) first
  | segment => false :: List.zipWith
    (fun above name => above && segment_matches segment name) row candidate

def glob_match (pattern : List PatternSegment) (candidate : List Text) : Bool :=
  (pattern.foldl (glob_row candidate) (true :: candidate.map (fun _ => false))).getLast?.getD false

/-- What a scan has found, and the position that the next call starts after. -/
structure Found where
  candidates : List RawNode
  next_cursor_pos : Option CursorPos

/-- The loop over the rows of a call. It tells the nodes that have been found, the
position of the last row that it has consumed, and whether it has stopped early. -/
def scan_rows (is_match : Descendant → Bool) (limit : Nat) :
    List Descendant → List RawNode → Option CursorPos → List RawNode × Option CursorPos × Bool
  | [], found, last_pos => (found, last_pos, false)
  | row :: rest, found, _ =>
    let pos : CursorPos := (row.depth, row.node.name, row.node.id)
    if is_match row then
      let found := found ++ [row.node]
      if limit ≤ found.length then (found, some pos, true) else scan_rows is_match limit rest found
        (some pos)
    else scan_rows is_match limit rest found (some pos)

/-- The common part of `glob_tx` and `find_tx`: the root first, then as many rows
below it as the budget allows. -/
def scan_tx (db : Db) (ws : WorkspaceId) (root : RawNode) (root_matches : Bool)
    (is_match : Descendant → Bool) (after : Option CursorPos) (limit : Nat) : Except Fault Found :=
    do
  let found := if after.isNone ∧ root_matches then [root] else []
  if after.isNone ∧ root_matches ∧ limit ≤ found.length then
    return ⟨found, some (0, [], (root.id : WithBot NodeId))⟩
  else
    let rows ← fetch_subtree_page db ws root.id (after.getD (0, [], ⊥)) (WORK_BUDGET + 1)
    let budget_exhausted := decide (WORK_BUDGET < rows.length)
    let (found, last_pos, stopped_early) :=
      scan_rows is_match limit (rows.take WORK_BUDGET) found none
    return ⟨found, if stopped_early || budget_exhausted then last_pos else none⟩

def glob_tx (db : Db) (ws : WorkspaceId) (prefix_path : VirtualPath)
    (remaining : List PatternSegment) (after : Option CursorPos) (limit : Nat) :
    Except Fault (Option Found) :=
  match resolve.resolve db ws prefix_path with
  | none => .ok none
  | some root => some <$> scan_tx db ws root (glob_match remaining [])
      (fun row => glob_match remaining (row.relative_path.splitOn '/')) after limit

def glob (rt : Runtime) (codec : Codec SearchCursor) (db : Db) (ws : WorkspaceId) (pattern : Text)
    (page : PageRequest) :
    FsResult (Page Node) := do
  let compiled ← compile_pattern pattern
  match literal_prefix VirtualPath.root compiled with
  | none => throw (FsError.internal_storage_failure "panicked".toList)
  | some (prefix_path, prefix_len) =>
    let remaining := compiled.drop prefix_len
    let limit := max page.limit 1
    let after ← page.cursor.mapM (fun raw => decode_search_cursor codec raw ws prefix_path)
    match ← (glob_tx db ws prefix_path remaining after limit).mapError
      (DbCall.map_call_error rt) with
    | none => return ⟨[], none⟩
    | some found =>
      let items ← found.candidates.mapM RawNode.into_node
      return ⟨items, found.next_cursor_pos.map (encode_search_cursor codec ws prefix_path)⟩

def predicate_matches (node : RawNode) (query : FindQuery) : Bool :=
  query.kind.all (fun kind => node.kind = kind) &&
  query.min_logical_size.all (fun min => ¬ node.size < min) &&
  query.max_logical_size.all (fun max => ¬ node.size > max) &&
  query.modified_after_ms.all (fun after => ¬ node.modified_at_ms ≤ after) &&
  query.modified_before_ms.all (fun before => ¬ node.modified_at_ms ≥ before) &&
  query.name_contains.all (fun substring => substring <:+: node.name)

def attributes_match (rt : Runtime) (db : Db) (node_id : NodeId)
    (required : List (Text × JsonValue)) : Bool :=
  required.all (fun (key, value) =>
    ((mutate.build_attributes_map rt db node_id).lookup key).map JsonValue.String = some value)

/-- The whole condition that `find` puts on a node. -/
def find_matches (rt : Runtime) (db : Db) (query : FindQuery) (node : RawNode) : Bool :=
  predicate_matches node query && attributes_match rt db node.id query.attributes

def find_tx (rt : Runtime) (db : Db) (ws : WorkspaceId) (root_path : VirtualPath)
    (query : FindQuery) (after : Option CursorPos) (limit : Nat) : Except Fault (Option Found) :=
  match resolve.resolve db ws root_path with
  | none => .ok none
  | some root => some <$> scan_tx db ws root (find_matches rt db query root)
    (fun row => find_matches rt db query row.node)
      after limit

def find (rt : Runtime) (codec : Codec SearchCursor) (db : Db) (ws : WorkspaceId)
    (query : FindQuery) (page : PageRequest) :
    FsResult (Page Node) := do
  let limit := max page.limit 1
  let after ← page.cursor.mapM (fun raw => decode_search_cursor codec raw ws query.root)
  match ← (find_tx rt db ws query.root query after limit).mapError (DbCall.map_call_error rt) with
  | none => throw (FsError.not_found query.root.as_str)
  | some found =>
    let items ← found.candidates.mapM RawNode.into_node
    return ⟨items, found.next_cursor_pos.map (encode_search_cursor codec ws query.root)⟩

end search

namespace SqliteFileSystem

/-- The cursor codecs of the listings. -/
structure Cursors where
  dir : Codec directory.DirCursor
  tree : Codec directory.TreeCursor
  trash : Codec trash.TrashCursor
  search : Codec search.SearchCursor

variable (rt : Runtime) (cursors : Cursors) (ctx : RequestContext) (db : Db)

/-- The guard of a method that makes one call that only reads. Such a method is a
function of the store that its call finds. -/
def require_read (subject : Text) : FsResult Unit :=
  if ctx.has_capability .Read then .ok () else .error (FsError.permission_denied subject)

def read_dir (path : VirtualPath) (page : PageRequest) : FsResult (Page Node) := do
  require_read ctx path.as_str
  directory.read_dir cursors.dir db ctx.workspace_id path page

def tree (path : VirtualPath) (options : directory.TreeOptions) (page : PageRequest) :
    FsResult (Page directory.TreeEntry) := do
  require_read ctx path.as_str
  directory.tree rt cursors.tree db ctx.workspace_id path options page

def list_trash (page : PageRequest) : FsResult (Page TrashEntry) := do
  require_read ctx (uuid_text ctx.workspace_id)
  trash.list_trash rt cursors.trash db ctx.workspace_id page

def glob (pattern : Text) (page : PageRequest) : FsResult (Page Node) := do
  require_read ctx (uuid_text ctx.workspace_id)
  search.glob rt cursors.search db ctx.workspace_id pattern page

def find (query : FindQuery) (page : PageRequest) : FsResult (Page Node) := do
  require_read ctx (uuid_text ctx.workspace_id)
  search.find rt cursors.search db ctx.workspace_id query page

end SqliteFileSystem

/-- The methods of a filesystem that only look at names, links and listings, as its
callers await them. -/
structure Views where
  exists_ : RequestContext → VirtualPath → Bool → Task Bool
  read_dir : RequestContext → VirtualPath → PageRequest → Task (Page Node)
  tree : RequestContext → VirtualPath → directory.TreeOptions → PageRequest →
    Task (Page directory.TreeEntry)
  read_link : RequestContext → VirtualPath → Task LinkTarget

end fslite
