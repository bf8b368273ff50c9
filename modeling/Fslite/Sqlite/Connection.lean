import Fslite.Resumption
import Fslite.Sqlite.Batch

namespace fslite

open resolve directory content mutate trash workspace

/-- What the transaction of one non-streaming operation returns. -/
abbrev Outcome : BatchOperation → Type
  | .Mkdir .. => MkdirOutcome
  | .Touch .. => TouchOutcome
  | .Copy .. => CopyOutcome
  | .Move .. => MoveOutcome
  | .Remove .. => RemoveOutcome
  | .Symlink .. => SymlinkOutcome
  | .Trash .. => TrashOutcome
  | .Restore .. => RestoreOutcome
  | .Purge .. => PurgeOutcome
  | .SetAttribute .. => AttributeOutcome
  | .RemoveAttribute .. => AttributeOutcome

/-- The transaction body of one non-streaming operation. -/
def transact (rt : Runtime) (ws : WorkspaceId) (actor_json : Text) :
    (operation : BatchOperation) → Tx (Outcome operation)
  | .Mkdir path options => mkdir_tx rt ws path.segments options actor_json
  | .Touch path options => touch_tx rt ws path options actor_json
  | .Copy source target options => copy_tx rt ws source target options actor_json
  | .Move source target options => move_tx rt ws source target options actor_json
  | .Remove path options => remove_tx rt ws path options actor_json
  | .Symlink target link options => symlink_tx rt ws link target.as_str options actor_json
  | .Trash path options => trash_tx rt ws path options actor_json
  | .Restore trash_id destination options =>
    restore_tx rt ws trash_id destination options actor_json
  | .Purge trash_id => purge_tx rt ws trash_id actor_json
  | .SetAttribute path key value options => set_attribute_tx rt ws path key value options actor_json
  | .RemoveAttribute path key options => remove_attribute_tx rt ws path key options actor_json

/-- Everything the code hands to the connection thread. Each call runs to its
end before the next one starts. -/
inductive DbCall where
  | resolve (ws : WorkspaceId) (path : VirtualPath)
  | resolve_following (ws : WorkspaceId) (path : VirtualPath) (follow_final : Bool)
  | fetch_max_file_bytes (ws : WorkspaceId)
  | fetch_usage (ws : WorkspaceId)
  | fetch_changes_page (ws : WorkspaceId) (after_sequence : Int) (limit : Nat)
  | create_generation (ws : WorkspaceId)
  | upsert_chunk (generation_id : GenerationId) (chunk_index : Nat) (bytes : Bytes)
  | copy_chunk_range (from_generation to_generation : GenerationId)
    (from_index_inclusive to_index_exclusive : Nat)
  | fetch_chunk_bytes (generation_id : GenerationId) (chunk_index : Nat)
  | delete_generation (generation_id : GenerationId)
  | finalize (ws : WorkspaceId) (path : VirtualPath) (generation_id : GenerationId) (length : Nat)
      (params : FinalizeParams) (actor_json : Text)
  | transaction (ws : WorkspaceId) (operation : BatchOperation) (actor_json : Text)
  | batch (ctx : RequestContext) (operations : List BatchOperation) (actor_json : Text)
  | create_workspace (options : WorkspaceOptions)
  | reset_workspace (ws : WorkspaceId)
  | delete_workspace (ws : WorkspaceId)

namespace DbCall

abbrev Answer : DbCall → Type
  | .resolve .. => Option RawNode
  | .resolve_following .. => ResolveOutcome
  | .fetch_max_file_bytes .. => Option Nat
  | .fetch_usage .. => Option RawUsage
  | .fetch_changes_page .. => List change.RawChange
  | .create_generation .. => GenerationId
  | .upsert_chunk .. => Unit
  | .copy_chunk_range .. => Unit
  | .fetch_chunk_bytes .. => Bytes
  | .delete_generation .. => Unit
  | .finalize .. => FinalizeOutcome
  | .transaction _ operation _ => Outcome operation
  | .batch .. => BatchOutcome
  | .create_workspace .. => Workspace
  | .reset_workspace .. => Bool
  | .delete_workspace .. => Unit

/-- The closure that the connection thread runs. -/
def body (rt : Runtime) : (o : DbCall) → Tx o.Answer
  | .resolve ws path => Tx.query (fun db => resolve.resolve db ws path)
  | .resolve_following ws path follow_final => Tx.query
    (fun db => resolve.resolve_following db ws path follow_final)
  | .fetch_max_file_bytes ws => Tx.query (fun db => content.fetch_max_file_bytes db ws)
  | .fetch_usage ws => Tx.query (fun db => workspace.fetch_usage db ws)
  | .fetch_changes_page ws after_sequence limit =>
    Tx.query (fun db => change.fetch_changes_page db ws after_sequence limit)
  | .create_generation ws => content.create_generation rt ws
  | .upsert_chunk generation_id chunk_index bytes =>
    content.upsert_chunk generation_id chunk_index bytes
  | .copy_chunk_range from_generation to_generation lower upper =>
    content.copy_chunk_range from_generation to_generation lower upper
  | .fetch_chunk_bytes generation_id chunk_index =>
    Tx.query (fun db => content.fetch_chunk_bytes db generation_id chunk_index)
  | .delete_generation generation_id => content.delete_generation generation_id
  | .finalize ws path generation_id length params actor_json =>
    finalize_tx rt ws path generation_id length params actor_json
  | .transaction ws operation actor_json => transact rt ws actor_json operation
  | .batch ctx operations actor_json => batch_tx rt ctx operations actor_json
  | .create_workspace options => workspace.create_workspace rt options
  | .reset_workspace ws => workspace.reset_workspace rt ws
  | .delete_workspace ws => workspace.delete_workspace ws

/-- A failed batch is the only closure that returns without committing what it
has written. -/
def commits : (o : DbCall) → o.Answer → Bool
  | .batch .., .Failed _ _ => false
  | _, _ => true

def map_call_error (rt : Runtime) (fault : Fault) : FsError :=
  FsError.internal_storage_failure (rt.faultText fault)

abbrev Res (o : DbCall) : Type := FsResult o.Answer

/-- One call on the connection; a fault rolls everything back. -/
def exec (rt : Runtime) (o : DbCall) (w : World) : Res o × World :=
  match o.body rt w with
  | .ok (answer, w') => (.ok answer, if o.commits answer then w' else w)
  | .error fault => (.error (map_call_error rt fault), w)

end DbCall

/-- An asynchronous method: calls on the connection and, in the end, a result. -/
abbrev Task (A : Type) := ExceptT FsError (Prog DbCall.Res) A

namespace Task

/-- `conn.call(..).await`, its error passed on by `?`. -/
def call (o : DbCall) : Task o.Answer := ExceptT.mk (Prog.perform o)

/-- `conn.call(..).await` with its error ignored. -/
def call_ignored (o : DbCall) : Task Unit := ExceptT.mk (Prog.perform o >>= fun _ => pure (.ok ()))

/-- A panic ends the method; nothing on the connection is undone or cleaned up. -/
def panicked {A : Type} : Task A := throw (FsError.internal_storage_failure "panicked".toList)

def expect {A : Type} : Option A → Task A
  | some a => pure a
  | none => panicked

def ofResult {A : Type} (result : FsResult A) : Task A := ExceptT.mk (pure result)

end Task

end fslite
