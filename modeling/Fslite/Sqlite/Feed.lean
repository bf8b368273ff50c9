import Fslite.Sqlite.Connection

namespace fslite.change

variable (rt : Runtime)

def RawChange.into_change (raw : RawChange) : FsResult Change := do
  let old_path ← raw.old_path.mapM VirtualPath.parse
  let new_path ← raw.new_path.mapM VirtualPath.parse
  let revision ← raw.revision.mapM (fun value =>
    match Revision.new value with
    | some revision => .ok revision
    | none => .error (FsError.internal_storage_failure "stored revision was zero".toList))
  return {
    sequence := raw.sequence
    kind := raw.kind
    node_id := raw.node_id
    old_path
    new_path
    revision
    created_at_ms := raw.created_at_ms
    actor_metadata := rt.actorMetadata raw.actor_json }

def encode_change_cursor (ws : WorkspaceId) (last_sequence : Int) : ChangeCursor :=
  ⟨rt.cursorText { v := 1, workspace_id := uuid_text ws, last_sequence }⟩

def decode_change_cursor (cursor : ChangeCursor) (ws : WorkspaceId) : FsResult Int :=
  match rt.cursorPayload cursor.as_str with
  | none => .error (FsError.invalid_cursor cursor.as_str)
  | some payload =>
    if payload.v ≠ 1 ∨ payload.workspace_id ≠ uuid_text ws then .error
      (FsError.invalid_cursor cursor.as_str)
    else .ok payload.last_sequence

/-- The position that a cursor stands for; without one the feed is read from its start. -/
def after_sequence (ws : WorkspaceId) : Option ChangeCursor → FsResult Int
  | some cursor => decode_change_cursor rt cursor ws
  | none => .ok 0

/-- The page of at most `limit` changes for the fetched rows, one more if there are more. -/
def changes_page (ws : WorkspaceId) (limit : Nat) (rows : List RawChange) :
    FsResult (Page Change) := do
  let has_more := limit < rows.length
  let rows := if has_more then rows.take limit else rows
  -- `has_more` implies a row, as the limit is positive
  let next_cursor := if has_more then rows.getLast?.map
    (fun last => encode_change_cursor rt ws last.sequence) else none
  let items ← rows.mapM (RawChange.into_change rt)
  return { items, next_cursor := next_cursor.map ChangeCursor.as_str }

def changes (ws : WorkspaceId) (after : Option ChangeCursor) (page : PageRequest) :
    Task (Page Change) := do
  let after_sequence ← Task.ofResult (after_sequence rt ws after)
  let limit := max page.limit 1
  let rows ← Task.call (.fetch_changes_page ws after_sequence (limit + 1))
  Task.ofResult (changes_page rt ws limit rows)

end fslite.change
