import Fslite.Sqlite.Trash
import Fslite.Sqlite.Workspace

namespace fslite.mutate

inductive BatchStepOutcome where
  | Result (result : BatchResult)
  | Failed (error : FsError)

inductive BatchOutcome where
  | Completed (results : List BatchResult)
  | Failed (index : Nat) (error : FsError)

def required_capability : BatchOperation → Capability
  | .Mkdir .. => .Write
  | .Touch .. => .Write
  | .Copy .. => .Write
  | .Move .. => .Write
  | .Symlink .. => .Write
  | .SetAttribute .. => .Write
  | .RemoveAttribute .. => .Write
  | .Remove .. => .Delete
  | .Purge .. => .Delete
  | .Trash .. => .TrashRestore
  | .Restore .. => .TrashRestore

def to_step {A : Type} (result : FsResult A) (wrap : A → BatchResult) : BatchStepOutcome :=
  match result with
  | .ok value => .Result (wrap value)
  | .error err => .Failed err

/-- Executes one operation against the shared batch transaction. -/
def execute_batch_operation (rt : Runtime) (ws : WorkspaceId) (operation : BatchOperation)
    (actor_json : Text) :
    Tx BatchStepOutcome :=
  match operation with
  | .Mkdir path options =>
    if path.name.isNone then pure (.Failed (FsError.already_exists path.as_str))
    else do
      let outcome ← directory.mkdir_tx rt ws path.segments options actor_json
      return to_step (directory.mkdir_result outcome path) .Node
  | .Touch path options => do
    let outcome ← content.touch_tx rt ws path options actor_json
    return to_step (content.touch_result outcome path) .Node
  | .Copy source target options => do
    let outcome ← copy_tx rt ws source target options actor_json
    return to_step (copy_result outcome source target) .Node
  | .Move source target options => do
    let outcome ← move_tx rt ws source target options actor_json
    return to_step (move_result outcome source target) .Node
  | .Remove path options => do
    let outcome ← remove_tx rt ws path options actor_json
    return to_step (remove_result outcome path) (fun _ => .Unit)
  | .Symlink target link options =>
    if link.name.isNone then pure (.Failed (FsError.already_exists link.as_str))
    else do
      let outcome ← symlink_tx rt ws link target.as_str options actor_json
      return to_step (symlink_result outcome link) .Node
  | .Trash path options => do
    let outcome ← trash.trash_tx rt ws path options actor_json
    return to_step (trash.trash_result outcome path (rt.actorMetadata actor_json)) .Trash
  | .Restore trash_id destination options => do
    let outcome ← trash.restore_tx rt ws trash_id destination options actor_json
    return to_step (trash.restore_result outcome trash_id) .Node
  | .Purge trash_id => do
    let outcome ← trash.purge_tx rt ws trash_id actor_json
    return to_step (trash.purge_result outcome trash_id) (fun _ => .Unit)
  | .SetAttribute path key value options => do
    let outcome ← set_attribute_tx rt ws path key value options actor_json
    return to_step (attribute_result outcome path) .Node
  | .RemoveAttribute path key options => do
    let outcome ← remove_attribute_tx rt ws path key options actor_json
    return to_step (attribute_result outcome path) .Node

/-- The message of an operation refused inside a batch. -/
def refusal (index : Nat) (required : Capability) : Text :=
  "batch operation ".toList ++ decimal index ++ " requires ".toList ++ required.debug

/-- The loop of `batch` over the operations that are left. -/
def batch_loop (rt : Runtime) (ctx : RequestContext) (actor_json : Text) :
    Nat → List BatchResult → List BatchOperation → Tx BatchOutcome
  | _, results, [] => pure (.Completed results)
  | index, results, operation :: rest =>
    if !ctx.has_capability (required_capability operation) then
      pure (.Failed index (FsError.permission_denied
        (refusal index (required_capability operation))))
    else do
      match ← execute_batch_operation rt ctx.workspace_id operation actor_json with
      | .Result result => batch_loop rt ctx actor_json (index + 1) (results ++ [result]) rest
      | .Failed error => return .Failed index error

def batch_tx (rt : Runtime) (ctx : RequestContext) (operations : List BatchOperation)
    (actor_json : Text) :
    Tx BatchOutcome :=
  batch_loop rt ctx actor_json 0 [] operations

def batch_result : BatchOutcome → FsResult (List BatchResult)
  | .Completed results => .ok results
  | .Failed index error => .error (FsError.new error.code error.message (.index index))

end fslite.mutate
