import Fslite.Atomicity
import Fslite.Sqlite.Run.Isolation
import Fslite.Sqlite.Run.Lone

namespace fslite

open resolve directory content mutate trash

/-- All that clients can see of two stores is the same: the rows of every table but those of
the contents, and the contents of the files. -/
structure SameCommitted (db db' : Db) : Prop where
  workspaces : db'.workspaces = db.workspaces
  nodes : db'.nodes = db.nodes
  attributes : db'.attributes = db.attributes
  trash : db'.trash = db.trash
  changes : db'.changes = db.changes
  content : ∀ n ∈ db.nodes, ∀ g, n.content_generation_id = some g → SameContent db db' g

theorem SameCommitted.refl (db : Db) : SameCommitted db db :=
  ⟨rfl, rfl, rfl, rfl, rfl, fun _ _ g _ => SameContent.refl db g⟩

/-- Clients see the same in two states of the server. -/
abbrev SeenAlike (w w' : World) : Prop := SameCommitted w.db w'.db

/-- The calls that run a transaction on the tables that clients see. -/
def DbCall.Publishes : DbCall → Prop
  | .finalize .. => True
  | .transaction .. => True
  | .batch .. => True
  | .create_workspace _ => True
  | .reset_workspace _ => True
  | .delete_workspace _ => True
  | _ => False

/-- A step that only touches the tables of the contents leaves those of the files alone. -/
theorem Effect.same_committed {rt : Runtime} {P P' : Policy} {alone : Prop}
    {o : Option GenerationId} {w w' : World} (h : Effect rt P o w w') (hw : Sound rt P' alone w)
    (hframed : Framed w.db w'.db) (hnodes : w'.db.nodes = w.db.nodes)
    (hattributes : w'.db.attributes = w.db.attributes) : SameCommitted w.db w'.db :=
  ⟨hframed.workspaces, hnodes, hattributes, hframed.trash, hframed.changes,
    fun _ hn => (h.same_version hw hn (hnodes ▸ hn)).content⟩

section calls

variable {rt : Runtime} {P : Policy} {t : Option GenerationId} {w : World}

/-- Whatever is staged or cleaned up, clients see nothing of it. -/
theorem Foreign.same_committed {o : DbCall} (h : Foreign rt P t w (o.exec rt w).2)
    (hnot : ¬ o.Publishes) : SameCommitted w.db (o.exec rt w).2.db := by
  obtain ⟨hsound, _, _, _, heffect⟩ := h
  revert heffect
  unfold DbCall.exec
  cases hbody : o.body rt w with
  | error fault => exact fun _ => SameCommitted.refl _
  | ok result =>
    obtain ⟨answer, w'⟩ := result
    cases o with
    | resolve | resolve_following | fetch_max_file_bytes | fetch_usage | fetch_changes_page
      | fetch_chunk_bytes =>
      simp only [DbCall.body, Tx.query_eq_ok] at hbody
      obtain ⟨_, rfl⟩ := hbody
      exact fun _ => SameCommitted.refl _
    | create_generation ws =>
      obtain ⟨gens, _, _, rfl⟩ := content.create_generation_ok hbody
      exact fun heffect => Effect.same_committed heffect hsound ⟨rfl, rfl, rfl⟩ rfl rfl
    | upsert_chunk g index bytes =>
      obtain ⟨_, rfl⟩ := content.upsert_chunk_ok hbody
      exact fun heffect => Effect.same_committed heffect hsound ⟨rfl, rfl, rfl⟩ rfl rfl
    | copy_chunk_range source g lower upper =>
      simp only [DbCall.body, content.copy_chunk_range, Tx.execute_eq_ok] at hbody
      obtain ⟨db, hcopy, rfl⟩ := hbody
      obtain ⟨_, chunks, _, rfl⟩ := content.insert_chunks_ok hcopy
      exact fun heffect => Effect.same_committed heffect hsound ⟨rfl, rfl, rfl⟩ rfl rfl
    | delete_generation g =>
      obtain rfl := content.delete_generation_ok hbody
      exact fun heffect => Effect.same_committed heffect hsound ⟨rfl, rfl, rfl⟩ rfl rfl
    | _ => exact absurd trivial hnot

/-- An answer to a call with which clients see something else than before it. -/
abbrev Changes (rt : Runtime) (o : DbCall) (r : DbCall.Res o) : Prop :=
  Prog.Changed (DbCall.exec rt) (Sound rt Policy.any False) SeenAlike o r

theorem not_changes_error {o : DbCall} {e : FsError} : ¬ Changes rt o (.error e) := by
  rintro ⟨w, _, hanswer, hchanged⟩
  refine hchanged ?_
  unfold DbCall.exec at hanswer ⊢
  cases hbody : o.body rt w with
  | error fault => exact SameCommitted.refl _
  | ok result =>
    rw [hbody] at hanswer
    cases hanswer

/-- A finalization that clients see something of has made a node to report. -/
theorem Changes.applied {ws : WorkspaceId} {path : VirtualPath} {g : GenerationId} {length : Nat}
    {params : FinalizeParams} {actor_json : Text} {outcome : FinalizeOutcome}
    (h : Changes rt (.finalize ws path g length params actor_json) (.ok outcome)) :
    ∃ row, outcome = .Applied row ∧ 0 < row.revision := by
  obtain ⟨w, _, hanswer, hchanged⟩ := h
  unfold DbCall.exec at hanswer hchanged
  cases hbody : (DbCall.finalize ws path g length params actor_json).body rt w with
  | error fault =>
    rw [hbody] at hanswer
    cases hanswer
  | ok result =>
    obtain ⟨answer, w'⟩ := result
    rw [hbody] at hanswer hchanged
    cases hanswer
    obtain ⟨rfl, _⟩ | ⟨row, rfl, hfinal⟩ := finalize_tx_ok hbody
    · exact absurd (SameCommitted.refl _) hchanged
    · exact ⟨row, rfl, hfinal.revision_pos⟩

/-- An operation that fails on its own is not seen, even if it strands a generation. -/
theorem execute_batch_operation_same_committed {ctx : RequestContext} {operation : BatchOperation}
    {err : FsError} {w' : World} (hw : Sound rt Policy.any False w)
    (h : execute_batch_operation rt ctx.workspace_id operation (actor_json rt ctx) w =
      .ok (.Failed err, w')) : SameCommitted w.db w'.db := by
  obtain rfl | hstrands := execute_batch_operation_failed hw.wf h
  · exact SameCommitted.refl _
  · cases operation with
    | Touch path options =>
      obtain ⟨outcome, w₁, htouch, hdone⟩ := Tx.bind_eq_ok.mp h
      obtain ⟨_, rfl⟩ := Tx.pure_eq_ok.mp hdone
      have hlaid : Policy.any.laid → LaidOut w.db := fun hlaid => hlaid.elim
      have heffect := DbCall.exec_effect hw.wf hlaid (Policy.allows_any rt w
        (.transaction ctx.workspace_id (.Touch path options) (actor_json rt ctx))) trivial
      rw [exec_transaction, show transact rt ctx.workspace_id (actor_json rt ctx)
        (.Touch path options) w = .ok (outcome, w₁) from htouch] at heffect
      obtain ⟨hcreate, hworkspace, habsent, hplace⟩ := hstrands
      obtain ⟨⟨g, w₂⟩, hgeneration⟩ :=
        create_generation_iff.mpr ⟨hworkspace, hw.issued.generation_fresh⟩
      obtain ⟨_, _, hmisplaced⟩ :=
        touch_tx_misplaced hcreate habsent hplace hgeneration (actor_json rt ctx)
      obtain ⟨gens, _, _, rfl⟩ := create_generation_ok hgeneration
      cases htouch.symm.trans hmisplaced
      exact Effect.same_committed heffect hw ⟨rfl, rfl, rfl⟩ rfl rfl
    | _ => exact hstrands.elim

end calls

section requests

variable {rt : Runtime} {ctx : RequestContext} {ws : WorkspaceId} {A : Type}

/-- A method that publishes at most once, and does not fail when clients see what it did. -/
abbrev AtomicTask (rt : Runtime) (p : Task A) : Prop :=
  Failing.Atomic DbCall.Publishes (Changes rt) p

theorem AtomicTask.guarded {capability : Capability} {subject : Text} {p : Task A}
    (h : AtomicTask rt p) : AtomicTask rt (do require_capability ctx capability subject; p) := by
  unfold require_capability
  split
  · exact h
  · trivial

theorem DbCall.Prepares.unpublished {o : DbCall} (h : o.Prepares ws) : ¬ o.Publishes := by
  cases o <;> first | exact id | exact absurd h id

theorem content.finalize_atomic {path : VirtualPath} {g : GenerationId} {length : Nat}
    {params : FinalizeParams} {actor_json : Text} :
    AtomicTask rt (finalize ws path g length params actor_json) := by
  have hdelete : ∀ {B : Type} (e : FsError), Failing.All (fun o => ¬ DbCall.Publishes o)
      (do delete_generation_async g; throw e : Task B) :=
    fun e => Failing.All.bind ⟨id, fun _ => trivial⟩ (fun _ => Failing.All.throw)
  refine Or.inr (fun r => ?_)
  cases r with
  | error e =>
    refine ⟨?_, fun hchanges => absurd hchanges not_changes_error⟩
    show Prog.All _ (Prog.call (DbCall.delete_generation g) _)
    exact ⟨id, fun _ => trivial⟩
  | ok outcome =>
    cases outcome with
    | Applied row =>
      refine ⟨trivial, fun hchanges => ?_⟩
      obtain ⟨_, hrow, hpos⟩ := hchanges.applied
      cases hrow
      obtain ⟨node, hnode⟩ := RawNode.into_node_ok hpos
      show ¬ Failing.Fails row.into_node
      rw [hnode]
      rintro ⟨e, he⟩
      cases he
    | NotFound | WrongNodeType | RevisionConflict =>
      refine ⟨hdelete _, fun hchanges => ?_⟩
      obtain ⟨_, hrow, _⟩ := hchanges.applied
      cases hrow

theorem content.write_atomic {path : VirtualPath} {source : WriteSource} {options : WriteOptions}
    {actor_json : Text} : AtomicTask rt (write ws path source options actor_json) := by
  have hprepares : ∀ {B : Type} {p : Task B}, Failing.All (DbCall.Prepares ws) p →
      Failing.All (fun o => ¬ DbCall.Publishes o) p :=
    fun h => Prog.All.mono h (fun _ ho => ho.unpublished)
  refine Failing.Atomic.after (hprepares DbCall.Prepares.max_file_bytes) (fun _ =>
    Failing.Atomic.after ⟨id, fun _ => trivial⟩ (fun _ => Failing.Atomic.after (hprepares ?_)
      (fun _ => content.finalize_atomic)))
  exact Failing.All.bind (DbCall.Prepares.ingest _ _) (fun _ => DbCall.Prepares.finish _)

theorem content.write_at_impl_atomic {path : VirtualPath} {offset : Nat} {source : WriteSource}
    {create preserve_old_suffix : Bool} {expected_revision : Option Revision} {actor_json : Text} :
    AtomicTask rt (write_at_impl ws path offset source create expected_revision actor_json
      preserve_old_suffix) := by
  have hprepares : ∀ {B : Type} {p : Task B}, Failing.All (DbCall.Prepares ws) p →
      Failing.All (fun o => ¬ DbCall.Publishes o) p :=
    fun h => Prog.All.mono h (fun _ ho => ho.unpublished)
  refine Failing.Atomic.after (hprepares (DbCall.Prepares.resolve_existing_file path))
    (fun existing => ?_)
  split
  · trivial
  · exact Failing.Atomic.after (hprepares DbCall.Prepares.max_file_bytes) (fun _ =>
      Failing.Atomic.after ⟨id, fun _ => trivial⟩ (fun _ =>
        Failing.Atomic.after (hprepares (DbCall.Prepares.rewrite _ _ _ _ _ _)) (fun _ =>
          Failing.Atomic.after (hprepares (DbCall.Prepares.finish _))
            (fun _ => content.finalize_atomic))))

/-- A method that makes one call, and of which clients see nothing when it fails alone. -/
theorem AtomicTask.of_single {p : Task A}
    (hsingle : p.run.Single) (halone : ∀ w, Sound rt Policy.any False w →
      Failing.Fails (p.run.run (DbCall.exec rt) w).1 →
        SeenAlike w (p.run.run (DbCall.exec rt) w).2) : AtomicTask rt p :=
  Prog.Atomic.of_single hsingle halone

theorem Task.single_guarded {capability : Capability} {subject : Text} {p : Task A}
    (h : p.run.Single) : (do require_capability ctx capability subject; p : Task A).run.Single := by
  unfold require_capability
  split
  · exact h
  · trivial

/-- One call of which the answer is mapped. -/
theorem Task.single_call {o : DbCall} {result : o.Answer → FsResult A} : (do
      let answer ← Task.call o
      Task.ofResult (result answer) : Task A).run.Single := by
  intro r
  cases r <;> exact ⟨_, rfl⟩

theorem SqliteFileSystem.perform_single (operation : BatchOperation) :
    (SqliteFileSystem.perform rt ctx operation).run.Single := by
  cases operation with
  | Mkdir path options =>
    refine Failing.Single.map (Task.single_guarded ?_)
    split
    · trivial
    · exact Task.single_call
  | Symlink target link options =>
    refine Failing.Single.map (Task.single_guarded ?_)
    split
    · trivial
    · exact Task.single_call
  | _ => exact Failing.Single.map (Task.single_guarded Task.single_call)

theorem SqliteFileSystem.perform_atomic (operation : BatchOperation) :
    AtomicTask rt (SqliteFileSystem.perform rt ctx operation) := by
  refine AtomicTask.of_single (SqliteFileSystem.perform_single operation) (fun w hw hfails => ?_)
  rw [perform_run] at hfails ⊢
  split at hfails
  · rename_i hcapability
    rw [if_pos hcapability]
    cases hstep : execute_batch_operation rt ctx.workspace_id operation (actor_json rt ctx) w with
    | error fault => exact SameCommitted.refl _
    | ok result =>
      obtain ⟨outcome, w'⟩ := result
      rw [hstep] at hfails
      cases outcome with
      | Result result =>
        obtain ⟨_, he⟩ := hfails
        cases he
      | Failed err => exact execute_batch_operation_same_committed hw hstep
  · rename_i hcapability
    rw [if_neg hcapability]
    exact SameCommitted.refl _

theorem SqliteFileSystem.batch_atomic (operations : List BatchOperation) :
    AtomicTask rt (SqliteFileSystem.batch rt ctx operations) := by
  refine AtomicTask.of_single Task.single_call (fun w hw hfails => ?_)
  rw [batch_run] at hfails ⊢
  cases hloop : batch_loop rt ctx (actor_json rt ctx) 0 [] operations w with
  | error fault => exact SameCommitted.refl _
  | ok result =>
    obtain ⟨outcome, w'⟩ := result
    cases outcome with
    | Failed index err => exact SameCommitted.refl _
    | Completed results =>
      rw [hloop] at hfails
      obtain ⟨_, he⟩ := hfails
      cases he

/-- One call whose answer is passed on changes nothing when it fails. -/
theorem Task.call_atomic (o : DbCall) : AtomicTask rt (Task.call o) := by
  refine Or.inr (fun r => ⟨by cases r <;> trivial, fun hchanges => ?_⟩)
  cases r with
  | ok answer =>
    rintro ⟨_, he⟩
    cases he
  | error e => exact absurd hchanges not_changes_error

theorem SqliteFileSystem.reset_workspace_atomic :
    AtomicTask rt (SqliteFileSystem.reset_workspace ws) := by
  have hsingle : (SqliteFileSystem.reset_workspace ws).run.Single := by
    intro r
    cases r with
    | ok found => cases found <;> exact ⟨_, rfl⟩
    | error e => exact ⟨_, rfl⟩
  refine AtomicTask.of_single hsingle (fun w hw hfails => ?_)
  have hcall : (Task.call (.reset_workspace ws)).run.run (DbCall.exec rt) w =
      DbCall.exec rt (.reset_workspace ws) w := Task.run_call
  unfold SqliteFileSystem.reset_workspace at hfails ⊢
  cases hbody : (DbCall.reset_workspace ws).body rt w with
  | error fault =>
    rw [Task.run_bind_error (hcall.trans (by rw [DbCall.exec, hbody]))]
    exact SameCommitted.refl _
  | ok result =>
    obtain ⟨found, w'⟩ := result
    have hdone := hcall.trans (show _ = (.ok found, w') by rw [DbCall.exec, hbody]; rfl)
    rw [Task.run_bind_ok hdone] at hfails ⊢
    obtain ⟨rfl, rfl, _⟩ | ⟨_, _, rfl, _⟩ := workspace.reset_workspace_ok hw.wf hbody
    · exact SameCommitted.refl _
    · obtain ⟨_, he⟩ := hfails
      cases he

/-- Every request publishes at most once, and does not fail when clients see what it did. -/
theorem Request.atomic (request : Request) : AtomicTask rt (request.serve rt ctx) := by
  have hreads : ∀ {B : Type} {p : Task B}, Failing.All (DbCall.Reads ctx.workspace_id) p →
      Failing.All (fun o => ¬ DbCall.Publishes o) p :=
    fun h => Prog.All.mono h (fun o ho => by cases o <;> first | exact id | exact ho.elim)
  cases request with
  | CreateWorkspace options => exact Failing.Atomic.map (Task.call_atomic _)
  | DeleteWorkspace ws => exact Failing.Atomic.map (Task.call_atomic _)
  | ResetWorkspace ws => exact Failing.Atomic.map SqliteFileSystem.reset_workspace_atomic
  | WorkspaceUsage =>
    refine Failing.Atomic.map (AtomicTask.guarded (Failing.Atomic.of_all
      (Failing.All.bind ⟨id, fun _ => trivial⟩ (fun raw => ?_))))
    cases raw <;> trivial
  | Stat path follow_symlinks =>
    refine Failing.Atomic.map (AtomicTask.guarded (Failing.Atomic.of_all
      (Failing.All.bind ⟨id, fun _ => trivial⟩ (fun outcome => ?_))))
    cases outcome <;> trivial
  | Read path options =>
    refine Failing.Atomic.of_all (Failing.All.bind (Task.all_guarded
      (fun _ => hreads (DbCall.Reads.read path options))) (fun file =>
        Failing.All.bind (Failing.All.lift ?_) (fun _ => Failing.All.pure)))
    unfold FileRead.into_stream
    split
    · trivial
    · rename_i state _
      have hdrain : Prog.All (DbCall.Reads ctx.workspace_id)
          (state.drain (state.end_chunk + 2 - state.current_chunk)) := DbCall.Reads.drain _ _
      exact Prog.All.mono hdrain
        (fun o ho => by cases o <;> first | exact id | exact ho.elim)
  | Write path source options => exact Failing.Atomic.map (AtomicTask.guarded content.write_atomic)
  | WriteAt path offset source options =>
    exact Failing.Atomic.map (AtomicTask.guarded content.write_at_impl_atomic)
  | Append path source options =>
    refine Failing.Atomic.map (AtomicTask.guarded (Failing.Atomic.after
      (Prog.All.mono (DbCall.Prepares.resolve_existing_file path) (fun _ ho => ho.unpublished))
      (fun _ => content.write_at_impl_atomic)))
  | Truncate path length options =>
    exact Failing.Atomic.map (AtomicTask.guarded content.write_at_impl_atomic)
  | Perform operation => exact Failing.Atomic.map (SqliteFileSystem.perform_atomic operation)
  | Batch operations => exact Failing.Atomic.map (SqliteFileSystem.batch_atomic operations)
  | Changes after page =>
    exact Failing.Atomic.map (AtomicTask.guarded (Failing.Atomic.of_all
      (Failing.All.bind (p := Task.ofResult _) trivial
        (fun _ => Failing.All.bind ⟨id, fun _ => trivial⟩ (fun _ => trivial)))))

end requests

/-- The calls of the request in one place are not seen. -/
abbrev Unseen (rt : Runtime) (k : Nat) : System → Nat → DbCall → Prop :=
  Config.Quiet (DbCall.exec rt) SeenAlike k

/-- However a request is interleaved with others, and wherever it is cut off, clients see nothing
of its calls, or they see one of them, as a whole, and then it does not end with an error. The
run before and after that call is made of the steps of the given one. -/
theorem Reached.all_or_nothing {rt : Runtime} {may may' : System → Nat → DbCall → Prop}
    {ctx : RequestContext} {request : Request} {c d : System} (h : Reached rt may c)
    (hrun : Steps (DbCall.exec rt) (Served rt) may'
      ⟨c.state, c.procs ++ [(request.serve rt ctx).run]⟩ d) :
    Steps (DbCall.exec rt) (Served rt)
        (fun e i o => may' e i o ∧ Unseen rt c.procs.length e i o)
        ⟨c.state, c.procs ++ [(request.serve rt ctx).run]⟩ d ∨
      (∃ e o next, e.procs[c.procs.length]? = some (.call o next) ∧ may' e c.procs.length o ∧
        Steps (DbCall.exec rt) (Served rt)
          (fun e i o => may' e i o ∧ Unseen rt c.procs.length e i o)
          ⟨c.state, c.procs ++ [(request.serve rt ctx).run]⟩ e ∧
        Steps (DbCall.exec rt) (Served rt)
          (fun e i o => may' e i o ∧ Unseen rt c.procs.length e i o)
          (e.advance (DbCall.exec rt) c.procs.length) d) ∧
      ∀ err, d.procs[c.procs.length]? ≠ some (.ret (.error err)) := by
  have hstart : Reached rt (fun c _ o => Policy.any.Allows rt c.state o)
      ⟨c.state, c.procs ++ [(request.serve rt ctx).run]⟩ :=
    Relation.ReflTransGen.tail h.any (.arrive c.state c.procs _ ⟨ctx, request, rfl⟩)
  have hknown : Steps (DbCall.exec rt) (Served rt) (fun e i o => may' e i o ∧
      (i = c.procs.length → SeenAlike e.state (o.exec rt e.state).2 ∨
        o.Publishes ∧ Changes rt o (o.exec rt e.state).1))
      ⟨c.state, c.procs ++ [(request.serve rt ctx).run]⟩ d := by
    induction hrun with
    | refl => exact Relation.ReflTransGen.refl
    | tail hsteps hstep ih =>
      cases hstep with
      | arrive s ps p hp => exact ih.tail (.arrive s ps p hp)
      | advance s ps i o next hproc hmay =>
        have hreached : Reached rt (fun c _ o => Policy.any.Allows rt c.state o) ⟨s, ps⟩ :=
          Relation.ReflTransGen.trans hstart (Steps.mono hsteps (fun _ hp => hp)
            (fun c _ o _ => Policy.allows_any rt c.state o))
        refine ih.tail (.advance s ps i o next hproc ⟨hmay, fun _ => ?_⟩)
        by_cases hpublishes : o.Publishes
        · by_cases hsame : SeenAlike s (o.exec rt s).2
          · exact Or.inl hsame
          · exact Or.inr ⟨hpublishes, s, hreached.sound, rfl, hsame⟩
        · exact Or.inl ((hreached.step_foreign hproc
            (Policy.allows_any rt s o)).same_committed hpublishes)
  obtain hquiet | ⟨hsplit, hends⟩ := Steps.atomic SeenAlike
    List.getElem?_concat_length (Request.atomic request) hknown
  · exact Or.inl hquiet
  · exact Or.inr ⟨hsplit, fun err herr => hends _ herr ⟨err, rfl⟩⟩

/-- A write to `/a/b`, where no `/a` is, and another request between its calls. -/
def misplacedWrite : Request :=
  .Write (.named [['a'], ['b']]) [.ok [1, 2, 3]] {}

def misplacedRest : List (RequestContext × Request) :=
  [(.trusted 0, .Perform (.Mkdir (.named [['h']]) {}))]

def misplacedStart : System :=
  System.scheduled Runtime.counting [(.trusted 0, .CreateWorkspace {})] [0]

def misplacedEnd : System :=
  Config.schedule (DbCall.exec Runtime.counting) ⟨misplacedStart.state,
    (misplacedStart.procs ++ [(misplacedWrite.serve Runtime.counting (.trusted 0)).run]) ++
      misplacedRest.map (fun r => (r.2.serve Runtime.counting r.1).run)⟩ [1, 1, 2, 1, 1, 1]

/-- Whether a request has ended with an error. -/
def System.fails (c : System) (i : Nat) : Bool :=
  match c.procs[i]? with
  | some (.ret (.error _)) => true
  | _ => false

theorem System.failed {c : System} {i : Nat} (h : c.fails i = true) :
    ∃ err, c.procs[i]? = some (.ret (.error err)) := by
  unfold System.fails at h
  split at h
  · rename_i err hproc
    exact ⟨err, hproc⟩
  · cases h

theorem misplaced_unseen : misplacedEnd.state.db.nodes.rows.length = 2 ∧
    Steps (DbCall.exec Runtime.counting) (Served Runtime.counting)
      (Unseen Runtime.counting misplacedStart.procs.length) ⟨misplacedStart.state,
        misplacedStart.procs ++ [(misplacedWrite.serve Runtime.counting (.trusted 0)).run]⟩
      misplacedEnd := by
  obtain ⟨err, herr⟩ := System.failed
    (show misplacedEnd.fails misplacedStart.procs.length = true by decide +kernel)
  obtain hunseen | ⟨_, hends⟩ := (Reached.scheduled Runtime.counting
    [(.trusted 0, .CreateWorkspace {})] [0]).all_or_nothing
    (Relation.ReflTransGen.trans (Steps.arrive_all served_all _ _)
      (Steps.schedule (Config.allowed_of_forall (fun _ _ _ => trivial) [1, 1, 2, 1, 1, 1] _)))
  · exact ⟨by decide +kernel,
      Steps.mono hunseen (fun _ hp => hp) (fun _ _ _ hstep => hstep.2)⟩
  · exact absurd herr (hends err)

end fslite
