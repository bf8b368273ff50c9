import Fslite.Sqlite.Download
import Fslite.Sqlite.Feed

namespace fslite

def actor_json (rt : Runtime) (ctx : RequestContext) : Text := rt.actorJson ctx.actor_metadata

def require_capability (ctx : RequestContext) (capability : Capability) (subject : Text) :
    Task Unit :=
  if ctx.has_capability capability then pure () else throw (FsError.permission_denied subject)

namespace SqliteFileSystem

variable (rt : Runtime) (ctx : RequestContext)

def create_workspace (options : workspace.WorkspaceOptions) : Task workspace.Workspace :=
  Task.call (.create_workspace options)

def delete_workspace (ws : WorkspaceId) : Task Unit := Task.call (.delete_workspace ws)

def reset_workspace (ws : WorkspaceId) : Task Unit := do
  if ← Task.call (.reset_workspace ws) then return () else throw (FsError.not_found (uuid_text ws))

def workspace_usage : Task workspace.WorkspaceUsage := do
  require_capability ctx .Read (uuid_text ctx.workspace_id)
  match ← Task.call (.fetch_usage ctx.workspace_id) with
  | some raw => return raw.into_usage ctx.workspace_id
  | none => throw (FsError.not_found (uuid_text ctx.workspace_id))

def stat (path : VirtualPath) (follow_symlinks : Bool) : Task Node := do
  require_capability ctx .Read path.as_str
  match ← Task.call (.resolve_following ctx.workspace_id path follow_symlinks) with
  | .Found row => Task.ofResult row.into_node
  | .NotFound => throw (FsError.not_found path.as_str)
  | .BrokenLink => throw (FsError.broken_link path.as_str)
  | .LinkLoop => throw (FsError.link_loop path.as_str)

def mkdir (path : VirtualPath) (options : CreateOptions) : Task Node := do
  require_capability ctx .Write path.as_str
  if path.name.isNone then throw (FsError.already_exists path.as_str)
  else do
    let outcome ← Task.call (.transaction ctx.workspace_id (.Mkdir path options)
      (actor_json rt ctx))
    Task.ofResult (directory.mkdir_result outcome path)

def read (path : VirtualPath) (options : ReadOptions) : Task content.FileRead := do
  require_capability ctx .Read path.as_str
  content.read ctx.workspace_id path options

def write (path : VirtualPath) (source : WriteSource) (options : WriteOptions) : Task Node := do
  require_capability ctx .Write path.as_str
  content.write ctx.workspace_id path source options (actor_json rt ctx)

def write_at (path : VirtualPath) (offset : Nat) (source : WriteSource) (options : WriteOptions) :
    Task Node := do
  require_capability ctx .Write path.as_str
  content.write_at ctx.workspace_id path offset source options (actor_json rt ctx)

def append (path : VirtualPath) (source : WriteSource) (options : WriteOptions) : Task Node := do
  require_capability ctx .Write path.as_str
  content.append ctx.workspace_id path source options (actor_json rt ctx)

def truncate (path : VirtualPath) (length : Nat) (options : MutationOptions) : Task Node := do
  require_capability ctx .Write path.as_str
  content.truncate ctx.workspace_id path length options (actor_json rt ctx)

def touch (path : VirtualPath) (options : TouchOptions) : Task Node := do
  require_capability ctx .Write path.as_str
  let outcome ← Task.call (.transaction ctx.workspace_id (.Touch path options) (actor_json rt ctx))
  Task.ofResult (content.touch_result outcome path)

def copy (source target : VirtualPath) (options : CopyOptions) : Task Node := do
  require_capability ctx .Write target.as_str
  let outcome ← Task.call (.transaction ctx.workspace_id (.Copy source target options)
    (actor_json rt ctx))
  Task.ofResult (mutate.copy_result outcome source target)

def move_path (source target : VirtualPath) (options : MoveOptions) : Task Node := do
  require_capability ctx .Write target.as_str
  let outcome ← Task.call (.transaction ctx.workspace_id (.Move source target options)
    (actor_json rt ctx))
  Task.ofResult (mutate.move_result outcome source target)

def remove (path : VirtualPath) (options : RemoveOptions) : Task Unit := do
  require_capability ctx .Delete path.as_str
  let outcome ← Task.call (.transaction ctx.workspace_id (.Remove path options) (actor_json rt ctx))
  Task.ofResult (mutate.remove_result outcome path)

def symlink (target : LinkTarget) (link : VirtualPath) (options : CreateOptions) : Task Node := do
  require_capability ctx .Write link.as_str
  if link.name.isNone then throw (FsError.already_exists link.as_str)
  else do
    let outcome ← Task.call (.transaction ctx.workspace_id (.Symlink target link options)
      (actor_json rt ctx))
    Task.ofResult (mutate.symlink_result outcome link)

def trash (path : VirtualPath) (options : MutationOptions) : Task TrashEntry := do
  require_capability ctx .TrashRestore path.as_str
  let outcome ← Task.call (.transaction ctx.workspace_id (.Trash path options) (actor_json rt ctx))
  Task.ofResult (trash.trash_result outcome path (rt.actorMetadata (actor_json rt ctx)))

def restore (trash_id : TrashId) (destination : Option VirtualPath) (options : MutationOptions) :
    Task Node := do
  require_capability ctx .TrashRestore (uuid_text ctx.workspace_id)
  let outcome ← Task.call (.transaction ctx.workspace_id (.Restore trash_id destination options)
    (actor_json rt ctx))
  Task.ofResult (trash.restore_result outcome trash_id)

def purge (trash_id : TrashId) : Task Unit := do
  require_capability ctx .Delete (uuid_text ctx.workspace_id)
  let outcome ← Task.call (.transaction ctx.workspace_id (.Purge trash_id) (actor_json rt ctx))
  Task.ofResult (trash.purge_result outcome trash_id)

def set_attribute (path : VirtualPath) (key : Text) (value : Bytes) (options : MutationOptions) :
    Task Node := do
  require_capability ctx .Write path.as_str
  let outcome ← Task.call (.transaction ctx.workspace_id (.SetAttribute path key value options)
    (actor_json rt ctx))
  Task.ofResult (mutate.attribute_result outcome path)

def remove_attribute (path : VirtualPath) (key : Text) (options : MutationOptions) : Task Node := do
  require_capability ctx .Write path.as_str
  let outcome ← Task.call (.transaction ctx.workspace_id (.RemoveAttribute path key options)
    (actor_json rt ctx))
  Task.ofResult (mutate.attribute_result outcome path)

def batch (operations : List BatchOperation) : Task (List BatchResult) := do
  let outcome ← Task.call (.batch ctx operations (actor_json rt ctx))
  Task.ofResult (mutate.batch_result outcome)

def changes (after : Option ChangeCursor) (page : PageRequest) : Task (Page Change) := do
  require_capability ctx .Read (uuid_text ctx.workspace_id)
  change.changes rt ctx.workspace_id after page

/-- The method that performs one operation on its own. -/
def perform (operation : BatchOperation) : Task BatchResult :=
  match operation with
  | .Mkdir path options => .Node <$> mkdir rt ctx path options
  | .Touch path options => .Node <$> touch rt ctx path options
  | .Copy source target options => .Node <$> copy rt ctx source target options
  | .Move source target options => .Node <$> move_path rt ctx source target options
  | .Remove path options => (fun _ => .Unit) <$> remove rt ctx path options
  | .Symlink target link options => .Node <$> symlink rt ctx target link options
  | .Trash path options => .Trash <$> trash rt ctx path options
  | .Restore trash_id destination options => .Node <$> restore rt ctx trash_id destination options
  | .Purge trash_id => (fun _ => .Unit) <$> purge rt ctx trash_id
  | .SetAttribute path key value options => .Node <$> set_attribute rt ctx path key value options
  | .RemoveAttribute path key options => .Node <$> remove_attribute rt ctx path key options

end SqliteFileSystem

/-- What a client asks of the filesystem. -/
inductive Request where
  | CreateWorkspace (options : workspace.WorkspaceOptions)
  | DeleteWorkspace (ws : WorkspaceId)
  | ResetWorkspace (ws : WorkspaceId)
  | WorkspaceUsage
  | Stat (path : VirtualPath) (follow_symlinks : Bool)
  | Read (path : VirtualPath) (options : ReadOptions)
  | Write (path : VirtualPath) (source : WriteSource) (options : WriteOptions)
  | WriteAt (path : VirtualPath) (offset : Nat) (source : WriteSource) (options : WriteOptions)
  | Append (path : VirtualPath) (source : WriteSource) (options : WriteOptions)
  | Truncate (path : VirtualPath) (length : Nat) (options : MutationOptions)
  | Perform (operation : BatchOperation)
  | Batch (operations : List BatchOperation)
  | Changes (after : Option ChangeCursor) (page : PageRequest)

inductive Reply where
  | Workspace (workspace : workspace.Workspace)
  | Usage (usage : workspace.WorkspaceUsage)
  | Done
  | Node (node : Node)
  | Read (file : content.FileRead) (items : List (FsResult Bytes))
  | Result (result : BatchResult)
  | Results (results : List BatchResult)
  | Changes (page : Page Change)

/-- Serves a request; the stream of a read is polled to its end. -/
def Request.serve (rt : Runtime) (ctx : RequestContext) : Request → Task Reply
  | .CreateWorkspace options => .Workspace <$> SqliteFileSystem.create_workspace options
  | .DeleteWorkspace ws => (fun _ => .Done) <$> SqliteFileSystem.delete_workspace ws
  | .ResetWorkspace ws => (fun _ => .Done) <$> SqliteFileSystem.reset_workspace ws
  | .WorkspaceUsage => .Usage <$> SqliteFileSystem.workspace_usage ctx
  | .Stat path follow_symlinks => .Node <$> SqliteFileSystem.stat ctx path follow_symlinks
  | .Read path options => do
    let file ← SqliteFileSystem.read ctx path options
    let items ← ExceptT.lift file.into_stream
    return .Read file items
  | .Write path source options => .Node <$> SqliteFileSystem.write rt ctx path source options
  | .WriteAt path offset source options =>
    .Node <$> SqliteFileSystem.write_at rt ctx path offset source options
  | .Append path source options => .Node <$> SqliteFileSystem.append rt ctx path source options
  | .Truncate path length options => .Node <$> SqliteFileSystem.truncate rt ctx path length options
  | .Perform operation => .Result <$> SqliteFileSystem.perform rt ctx operation
  | .Batch operations => .Results <$> SqliteFileSystem.batch rt ctx operations
  | .Changes after page => .Changes <$> SqliteFileSystem.changes rt ctx after page

/-- A request of any client. -/
def Served (rt : Runtime) (p : Prog DbCall.Res (Except FsError Reply)) : Prop :=
  ∃ ctx request, p = (Request.serve rt ctx request).run

/-- The store and the requests that are being served; one that is never
scheduled again has been cancelled. -/
abbrev System := Config DbCall.Res (Except FsError Reply) World

/-- A new database, before the first request. -/
def System.empty : System := ⟨⟨Db.empty, 0⟩, []⟩

/-- The system after any interleaving of the database calls of any requests;
`may` says which calls are made, by whom and when. -/
def Reached (rt : Runtime) (may : System → Nat → DbCall → Prop) : System → Prop :=
  Steps (DbCall.exec rt) (Served rt) may System.empty

/-- A store that the system gets to. -/
def Reachable (rt : Runtime) (w : World) : Prop :=
  ∃ c, Reached rt (fun _ _ _ => True) c ∧ c.state = w

end fslite
