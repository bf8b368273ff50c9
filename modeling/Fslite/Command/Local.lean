import Fslite.Sqlite.FileSystem
import Fslite.Sqlite.ContentSearch

namespace fslite

/-- The operations whose target is a path. -/
inductive Command where
  | Stat (path : VirtualPath) (follow_symlinks : Bool)
  | Exists (path : VirtualPath) (follow_symlinks : Bool)
  | ReadDir (path : VirtualPath) (page : PageRequest)
  | Tree (path : VirtualPath) (options : directory.TreeOptions) (page : PageRequest)
  | Mkdir (path : VirtualPath) (options : CreateOptions)
  | Read (path : VirtualPath) (options : ReadOptions)
  | Write (path : VirtualPath) (bytes : Bytes) (options : WriteOptions)
  | WriteAt (path : VirtualPath) (offset : Nat) (bytes : Bytes) (options : WriteOptions)
  | Append (path : VirtualPath) (bytes : Bytes) (options : WriteOptions)
  | Truncate (path : VirtualPath) (length : Nat) (options : MutationOptions)
  | Touch (path : VirtualPath) (options : TouchOptions)
  | Remove (path : VirtualPath) (options : RemoveOptions)
  | ReadLink (path : VirtualPath)

inductive CommandOutput where
  | Usage (usage : workspace.WorkspaceUsage)
  | Node (node : Node)
  | Exists (found : Bool)
  | Nodes (page : Page Node)
  | Tree (page : Page directory.TreeEntry)
  | Content (logical_length : Nat) (revision : Revision) (range : ByteRange) (bytes : Bytes)
  | LinkTarget (target : LinkTarget)
  | Unit
  | Trash (entry : TrashEntry)
  | TrashList (page : Page TrashEntry)
  | SearchMatches (page : Page SearchMatch)
  | Changes (page : Page Change)
  | Batch (results : List BatchResult)

namespace LocalExecutor

/-- The bytes of a stream, up to its first error. -/
def drain (items : List (FsResult Bytes)) : FsResult Bytes := List.flatten <$> items.mapM id

theorem drain_ok (chunks : List Bytes) : drain (chunks.map .ok) = .ok chunks.flatten := by
  have hmap : (chunks.map Except.ok : List (FsResult Bytes)).mapM id = .ok chunks := by
    induction chunks with
    | nil => rfl
    | cons chunk rest ih =>
      rw [List.map_cons, List.mapM_cons, ih]
      rfl
  rw [drain, hmap]
  rfl

/-- `WriteSource::from_bytes`. -/
def from_bytes (bytes : Bytes) : WriteSource := [.ok bytes]

variable (rt : Runtime) (views : Views) (ctx : RequestContext)

def execute : Command → Task CommandOutput
  | .Stat path follow_symlinks => .Node <$> SqliteFileSystem.stat ctx path follow_symlinks
  | .Exists path follow_symlinks => .Exists <$> views.exists_ ctx path follow_symlinks
  | .ReadDir path page => .Nodes <$> views.read_dir ctx path page
  | .Tree path options page => .Tree <$> views.tree ctx path options page
  | .Mkdir path options => .Node <$> SqliteFileSystem.mkdir rt ctx path options
  | .Read path options => do
    let file ← SqliteFileSystem.read ctx path options
    let items ← ExceptT.lift file.into_stream
    let bytes ← Task.ofResult (drain items)
    return .Content file.logical_length file.revision file.range bytes
  | .Write path bytes options => .Node <$> SqliteFileSystem.write rt ctx path
    (from_bytes bytes) options
  | .WriteAt path offset bytes options => .Node <$> SqliteFileSystem.write_at rt ctx path offset
    (from_bytes bytes) options
  | .Append path bytes options => .Node <$> SqliteFileSystem.append rt ctx path
    (from_bytes bytes) options
  | .Truncate path length options => .Node <$> SqliteFileSystem.truncate rt ctx path length options
  | .Touch path options => .Node <$> SqliteFileSystem.touch rt ctx path options
  | .Remove path options => (fun _ => .Unit) <$> SqliteFileSystem.remove rt ctx path options
  | .ReadLink path => .LinkTarget <$> views.read_link ctx path

end LocalExecutor

end fslite
