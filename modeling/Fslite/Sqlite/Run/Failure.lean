import Fslite.Sqlite.Effect.Growth
import Fslite.Sqlite.Run.Single

namespace fslite

open resolve directory content mutate trash

/-- Whether a `touch` stores the generation of a file that it then has no place for. -/
def BatchOperation.Strands (db : Db) (ws : WorkspaceId) : BatchOperation → Prop
  | .Touch path options => options.create = true ∧ (∃ row, db.workspace? ws = some row) ∧
    resolve.resolve db ws path = none ∧ ¬ CreatesFile db ws path
  | _ => False

/-- The calls that change one file, directory or link, or one piece of trash. -/
def Request.Mutates : Request → Prop
  | .Write .. => True
  | .WriteAt .. => True
  | .Append .. => True
  | .Truncate .. => True
  | .Perform _ => True
  | _ => False

def Request.Strands (db : Db) (ctx : RequestContext) : Request → Prop
  | .Perform operation => ctx.has_capability (required_capability operation) = true ∧
    operation.Strands db ctx.workspace_id
  | _ => False

namespace mutate

variable {rt : Runtime} {ws : WorkspaceId} {w w' : World} {actor_json : Text} {A : Type}

/-- A row with a revision is reported, not refused. -/
theorem into_node_ne_failed {row : RawNode} {wrap : Node → BatchResult} {err : FsError}
    (h : 0 < row.revision) :
    to_step row.into_node wrap ≠ .Failed err := by
  obtain ⟨node, hnode⟩ := RawNode.into_node_ok h
  rw [hnode]
  exact fun h => by cases h

theorem attributed_ne_failed {row : RawNode} {attributes : Attributes} {path : VirtualPath}
    {wrap : Node → BatchResult} {err : FsError} (h : 0 < row.revision) :
    to_step (attribute_result (.Updated row attributes) path) wrap ≠ .Failed err := by
  obtain ⟨node, hnode⟩ := RawNode.into_node_ok h
  rw [attribute_result, hnode]
  exact fun h => by cases h

/-- A `touch` that fails has changed nothing, or it has left a generation behind. -/
theorem touch_tx_failed {path : VirtualPath} {options : TouchOptions} {outcome : TouchOutcome}
    (h : touch_tx rt ws path options actor_json w = .ok (outcome, w')) :
    w' = w ∨ (∃ row, (outcome = .Touched row ∨ outcome = .Created row) ∧ 0 < row.revision) ∨
      (BatchOperation.Touch path options).Strands w.db ws := by
  cases hfound : resolve.resolve w.db ws path with
  | some node =>
    obtain ⟨rfl, _⟩ | ⟨_, row, ⟨rfl, hpos, _⟩, _⟩ := touch_existing_ok hfound h
    · exact Or.inl rfl
    · exact Or.inr (Or.inl ⟨row, Or.inl rfl, hpos⟩)
  | none =>
    obtain ⟨_, rfl, _⟩ | ⟨hcreate, w₁, hgeneration, result, hfinal, happlied, _⟩ :=
      touch_absent_ok hfound h
    · exact Or.inl rfl
    · obtain ⟨hworkspace, _⟩ := create_generation_iff.mp ⟨_, hgeneration⟩
      obtain ⟨gens, _, _, rfl⟩ := create_generation_ok hgeneration
      obtain ⟨w₂, hnodes, hfinal⟩ : ∃ w₂ : World, w₂.db.nodes = w.db.nodes ∧
          finalize_tx rt ws path (rt.newId w.tick) 0 ⟨true, none⟩ actor_json w₂ = .ok
            (result, w') := ⟨_, by rfl, hfinal⟩
      by_cases hplace : CreatesFile w.db ws path
      · obtain ⟨row, rfl⟩ := (finalize_tx_creates ((resolve_congr hnodes path).trans hfound) rfl hfinal).mpr
          ((CreatesFile.congr hnodes).mpr hplace)
        obtain ⟨_, hnot⟩ | ⟨row', hrow, hdone⟩ := finalize_tx_ok hfinal
        · exact absurd rfl (hnot row)
        · cases hrow
          exact Or.inr (Or.inl ⟨row, Or.inr (happlied row rfl), hdone.revision_pos⟩)
      · exact Or.inr (Or.inr ⟨hcreate, hworkspace, hfound, hplace⟩)

/-- An operation that fails has changed nothing, except for the generation that
a `touch` leaves behind. -/
theorem execute_batch_operation_failed {operation : BatchOperation} {err : FsError}
    (hwf : WellFormed w.db) (h : execute_batch_operation rt ws operation actor_json w = .ok
    (.Failed err, w')) :
    w' = w ∨ operation.Strands w.db ws := by
  cases operation with
  | Mkdir path options =>
    simp only [execute_batch_operation] at h
    split at h
    · exact Or.inl (Tx.pure_eq_ok.mp h).2.symm
    · obtain ⟨outcome, w₁, hmkdir, h⟩ := Tx.bind_eq_ok.mp h
      obtain ⟨hstep, rfl⟩ := Tx.pure_eq_ok.mp h
      obtain ⟨rfl, _⟩ | ⟨row, _, _, _, _, _, ⟨rfl, hpos⟩, _⟩ :=
        mkdir_tx_ok hwf (fun s hs => VirtualPath.segment_of_mem hs) hmkdir
      · exact Or.inl rfl
      · exact absurd hstep (into_node_ne_failed hpos)
  | Touch path options =>
    obtain ⟨outcome, w₁, htouch, h⟩ := Tx.bind_eq_ok.mp h
    obtain ⟨hstep, rfl⟩ := Tx.pure_eq_ok.mp h
    obtain rfl | ⟨row, rfl | rfl, hpos⟩ | hstrands := touch_tx_failed htouch
    · exact Or.inl rfl
    · exact absurd hstep (into_node_ne_failed hpos)
    · exact absurd hstep (into_node_ne_failed hpos)
    · exact Or.inr hstrands
  | Copy source target options =>
    obtain ⟨outcome, w₁, hcopy, h⟩ := Tx.bind_eq_ok.mp h
    obtain ⟨hstep, rfl⟩ := Tx.pure_eq_ok.mp h
    obtain ⟨rfl, _⟩ | ⟨_, _, _, _, row, _, rfl, _, hsubtree, _⟩ := copy_tx_ok hcopy
    · exact Or.inl rfl
    · exact absurd hstep (into_node_ne_failed
        (by rw [copy_subtree_revision hsubtree]; exact Nat.one_pos))
  | Move source target options =>
    obtain ⟨outcome, w₁, hmove, h⟩ := Tx.bind_eq_ok.mp h
    obtain ⟨hstep, rfl⟩ := Tx.pure_eq_ok.mp h
    obtain ⟨rfl, _⟩ | ⟨_, _, _, _, _, rfl, _⟩ := move_tx_ok hmove
    · exact Or.inl rfl
    · rw [move_result] at hstep
      exact absurd hstep (into_node_ne_failed (Nat.succ_pos _))
  | Remove path options =>
    obtain ⟨outcome, w₁, hremove, h⟩ := Tx.bind_eq_ok.mp h
    obtain ⟨hstep, rfl⟩ := Tx.pure_eq_ok.mp h
    obtain ⟨rfl, _⟩ | ⟨_, rfl, _⟩ := remove_tx_ok hremove
    · exact Or.inl rfl
    · cases hstep
  | Symlink target link options =>
    simp only [execute_batch_operation] at h
    split at h
    · exact Or.inl (Tx.pure_eq_ok.mp h).2.symm
    · obtain ⟨outcome, w₁, hsymlink, h⟩ := Tx.bind_eq_ok.mp h
      obtain ⟨hstep, rfl⟩ := Tx.pure_eq_ok.mp h
      obtain ⟨rfl, _⟩ | ⟨_, _, _, rfl, _⟩ := symlink_tx_ok hsymlink
      · exact Or.inl rfl
      · rw [symlink_result] at hstep
        exact absurd hstep (into_node_ne_failed Nat.one_pos)
  | Trash path options =>
    obtain ⟨outcome, w₁, htrash, h⟩ := Tx.bind_eq_ok.mp h
    obtain ⟨hstep, rfl⟩ := Tx.pure_eq_ok.mp h
    obtain ⟨rfl, _⟩ | ⟨node, _, _, rfl, htrashes, _⟩ := trash_tx_ok htrash
    · exact Or.inl rfl
    · obtain ⟨n, rfl, hn⟩ := resolve_following_live htrashes.found
      obtain ⟨node, hnode⟩ : ∃ node, n.toRawNode.into_node = .ok node :=
        RawNode.into_node_ok (hwf.nodes.revision n hn.mem)
      simp only [trash_result, hnode] at hstep
      cases hstep
  | Restore trash_id destination options =>
    obtain ⟨outcome, w₁, hrestore, h⟩ := Tx.bind_eq_ok.mp h
    obtain ⟨hstep, rfl⟩ := Tx.pure_eq_ok.mp h
    obtain ⟨rfl, _⟩ | ⟨_, node, parent, name, _, row, rfl, _, hupdate, _, happ, hfetch⟩ :=
      restore_tx_ok hrestore
    · exact Or.inl rfl
    · obtain rfl := Db.update_node_ok hupdate
      have hpos := revision_pos_of_modified
        (u := restored parent.id name (node.revision + 1) (rt.nowMs w.tick))
        happ.appended.nodes hfetch (fun _ => Nat.succ_pos _)
      exact absurd hstep (into_node_ne_failed hpos)
  | Purge trash_id =>
    obtain ⟨outcome, w₁, hpurge, h⟩ := Tx.bind_eq_ok.mp h
    obtain ⟨hstep, rfl⟩ := Tx.pure_eq_ok.mp h
    obtain ⟨rfl, _⟩ | ⟨_, rfl, _⟩ := purge_tx_ok hpurge
    · exact Or.inl rfl
    · cases hstep
  | SetAttribute path key value options =>
    obtain ⟨outcome, w₁, hset, h⟩ := Tx.bind_eq_ok.mp h
    obtain ⟨hstep, rfl⟩ := Tx.pure_eq_ok.mp h
    obtain ⟨rfl, _⟩ | ⟨_, row, attributes, ⟨rfl, hpos⟩, _⟩ := set_attribute_tx_ok hset
    · exact Or.inl rfl
    · exact absurd hstep (attributed_ne_failed hpos)
  | RemoveAttribute path key options =>
    obtain ⟨outcome, w₁, hremove, h⟩ := Tx.bind_eq_ok.mp h
    obtain ⟨hstep, rfl⟩ := Tx.pure_eq_ok.mp h
    obtain ⟨rfl, _⟩ | ⟨_, row, attributes, ⟨rfl, hpos⟩, _⟩ :=
      remove_attribute_tx_ok hwf.nodes hremove
    · exact Or.inl rfl
    · exact absurd hstep (attributed_ne_failed hpos)

/-- A `touch` without a place for its file fails and leaves a generation behind. -/
theorem execute_batch_operation_strands {operation : BatchOperation}
    (hstrands : operation.Strands w.db ws) (hfresh : w.db.generation? (rt.newId w.tick) = none) :
    ∃ err w',
    execute_batch_operation rt ws operation actor_json w = .ok (.Failed err, w') ∧
    w'.db ≠ w.db := by
  cases operation with
  | Touch path options =>
    obtain ⟨hcreate, hworkspace, habsent, hplace⟩ := hstrands
    obtain ⟨⟨g, w₁⟩, hgeneration⟩ := create_generation_iff.mpr ⟨hworkspace, hfresh⟩
    obtain ⟨outcome, hfailed, htouch⟩ :=
      touch_tx_misplaced hcreate habsent hplace hgeneration actor_json
    have hleft : w₁.db.set_generation_complete g 0 ≠ w.db := by
      obtain ⟨gens, rfl, hins, rfl⟩ := create_generation_ok hgeneration
      intro hsame
      have hstored := (Db.generation?_insert hins (rt.newId w.tick)).trans (if_pos rfl)
      rw [← hsame, Db.generation?_set_complete, if_pos rfl, Option.map_eq_none_iff] at hfresh
      cases hfresh.symm.trans hstored
    simp only [execute_batch_operation]
    rw [Tx.bind_of_ok htouch]
    cases outcome with
    | Touched row => exact absurd trivial hfailed
    | Created row => exact absurd trivial hfailed
    | _ => exact ⟨_, _, rfl, hleft⟩
  | _ => exact hstrands.elim

end mutate

namespace Session

variable {σ : Session} {A B : Type}

/-- A method that leaves nothing behind when it fails, after its check. -/
theorem Runs.checked {ctx : RequestContext} {capability : Capability} {subject : Text} {p : Task A}
    {f : A → B} {Q : A → Option GenerationId → World → Prop}
    (h : σ.Runs none σ.Undone p Q (fun _ _ w => σ.Undone w)) :
    σ.Runs none σ.Undone (f <$> (do require_capability ctx capability subject; p))
      (fun _ _ _ => True) (fun _ _ w => σ.Undone w) := by
  refine Runs.map ?_
  unfold require_capability
  split
  · exact Runs.bind (Runs.pure (Q := fun _ t w => t = none ∧ σ.Undone w) (fun w _ hw => ⟨rfl, hw⟩))
      (fun _ t =>
      Runs.of_fact (fun ht => ht ▸ h.post (fun _ _ _ _ => trivial) (fun _ _ _ hR => hR)))
  · exact Runs.bind (Runs.throw (Q := fun _ _ _ => False) (fun w _ hw => hw)) (fun _ t =>
      Runs.weaken (Runs.of_fact (φ := False) (P := σ.Undone) False.elim)
        (fun _ _ hfalse => hfalse.elim)
        (fun _ _ _ _ hQ => hQ) (fun _ _ _ _ hR => hR))

/-- What a method that runs alone leaves behind when it fails: nothing. -/
theorem Runs.failed {w : World} {p : Task A} {Q : A → Option GenerationId → World → Prop}
    {err : FsError} (h : σ.Runs none σ.Undone p Q (fun _ _ w => σ.Undone w)) (halone : σ.alone)
    (hw : Sound σ.rt σ.policy σ.alone w) (hbefore : w.db = σ.before)
    (hfailed : (p.run.run (DbCall.exec σ.rt) w).1 = .error err) :
    (p.run.run (DbCall.exec σ.rt) w).2.db = w.db := by
  obtain ⟨t, _, _, hpost⟩ := Ownership.Triple.run h (fun _ _ hnot =>
    absurd halone hnot) hw (held_none w) (fun _ => hbefore)
  rw [hfailed] at hpost
  exact (hpost halone).trans hbefore.symm

end Session

/-- The outcome of a request that is served alone, and the store after it. -/
def Request.alone (rt : Runtime) (ctx : RequestContext) (request : Request) (w : World) :
    FsResult Reply × World :=
  (request.serve rt ctx).run.run (DbCall.exec rt) w

/-- A write, alone, that fails leaves everything as it was. -/
theorem Request.failed {rt : Runtime} {w : World} (hw : Sound rt Policy.any False w)
    (ctx : RequestContext) (request : Request) (hmutates : request.Mutates)
    (hwrites : ∀ operation, request ≠ .Perform operation) {err : FsError}
    (hfailed : (request.alone rt ctx w).1 = .error err) : (request.alone rt ctx w).2.db = w.db := by
  let σ : Session := ⟨rt, Policy.any, True, ctx.workspace_id, w.db, none⟩
  have hsound : Sound σ.rt σ.policy σ.alone w := ⟨hw.wf, hw.issued, fun hnot => absurd trivial hnot⟩
  have hread : ∀ path, σ.Readable path := fun _ _ hlaid => hlaid.elim
  cases request with
  | Write path source options =>
    exact (Session.Runs.checked (σ := σ) (Session.write rfl)).failed trivial hsound rfl hfailed
  | WriteAt path offset source options =>
    exact (Session.Runs.checked (σ := σ)
      (Session.write_at (hread path))).failed trivial hsound rfl hfailed
  | Append path source options =>
    exact (Session.Runs.checked (σ := σ)
      (Session.append (hread path))).failed trivial hsound rfl hfailed
  | Truncate path length options =>
    exact (Session.Runs.checked (σ := σ)
      (Session.truncate (hread path))).failed trivial hsound rfl hfailed
  | Perform operation => exact absurd rfl (hwrites operation)
  | _ => exact hmutates.elim

theorem Task.run_map {rt : Runtime} {w : World} {A B : Type} {p : Task A} {f : A → B} :
    (f <$> p : Task B).run.run (DbCall.exec rt) w =
      ((p.run.run (DbCall.exec rt) w).1.map f, (p.run.run (DbCall.exec rt) w).2) := Failing.run_map

theorem Task.run_bind_ok {rt : Runtime} {w w' : World} {A B : Type} {p : Task A} {f : A → Task B}
    {a : A} (h : p.run.run (DbCall.exec rt) w = (.ok a, w')) :
    (p >>= f : Task B).run.run (DbCall.exec rt) w = (f a).run.run (DbCall.exec rt) w' :=
    Failing.run_bind_ok h

theorem Task.run_bind_error {rt : Runtime} {w w' : World} {A B : Type} {p : Task A} {f : A → Task B}
    {err : FsError} (h : p.run.run (DbCall.exec rt) w = (.error err, w')) :
    (p >>= f : Task B).run.run (DbCall.exec rt) w = (.error err, w') := Failing.run_bind_error h

/-- A mutation that is served alone and fails leaves every table as it was, if
and only if it is no `touch` without a place for its file. -/
theorem Reachable.failed_unchanged {rt : Runtime} {w : World} (h : Reachable rt w)
    (ctx : RequestContext) (request : Request) (hmutates : request.Mutates) :
    (∀ err, (request.alone rt ctx w).1 = .error err → (request.alone rt ctx w).2.db = w.db) ↔
      ¬ request.Strands w.db ctx := by
  have hsound := h.sound
  by_cases hwrites : ∀ operation, request ≠ .Perform operation
  · refine ⟨fun _ hstrands => ?_, fun _ err hfailed =>
      Request.failed hsound ctx request hmutates hwrites hfailed⟩
    cases request with
    | Perform operation => exact hwrites operation rfl
    | _ => exact hstrands
  · obtain ⟨operation, hrequest⟩ := not_forall.mp hwrites
    obtain rfl := not_not.mp hrequest
    have hserve : (Request.Perform operation).alone rt ctx w = _ := Task.run_map
    rw [hserve, perform_run]
    split
    · rename_i hcapability
      constructor
      · rintro hunchanged ⟨_, hstrands⟩
        obtain ⟨err, w', hstep, hchanged⟩ :=
          execute_batch_operation_strands hstrands hsound.issued.generation_fresh
        rw [hstep] at hunchanged
        exact hchanged (hunchanged err rfl)
      · intro hnot err hfailed
        cases hstep : execute_batch_operation rt ctx.workspace_id operation (actor_json rt ctx) w with
        | error fault => rfl
        | ok result =>
          obtain ⟨outcome, w'⟩ := result
          rw [hstep] at hfailed
          cases outcome with
          | Result result => cases hfailed
          | Failed err' =>
            obtain rfl | hstrands := execute_batch_operation_failed hsound.wf hstep
            · rfl
            · exact absurd ⟨hcapability, hstrands⟩ hnot
    · rename_i hcapability
      exact ⟨fun _ hstrands => absurd hstrands.1 hcapability, fun _ _ _ => rfl⟩

theorem Request.alone_failed {rt : Runtime} {ctx : RequestContext} {request : Request} {w : World}
    (h : (request.alone rt ctx w).1.toOption.isNone = true) :
    ∃ err, (request.alone rt ctx w).1 = .error err := by
  cases hresult : (request.alone rt ctx w).1 with
  | ok reply =>
    rw [hresult] at h
    cases h
  | error err => exact ⟨err, rfl⟩

/-- A store with one workspace and nothing in it. -/
def bareWorld : World := serveAll Runtime.counting [(.trusted 0, .CreateWorkspace {})] ⟨Db.empty, 0⟩

/-- Appending to a new file there what a source yields before it breaks. -/
def brokenAppend : Request :=
  .Append (.named [['f']]) [.ok [1, 2], .error (FsError.broken_link [])] {}

/-- It fails and leaves everything as it was. -/
theorem broken_append_unchanged :
    (∃ err, (brokenAppend.alone Runtime.counting (.trusted 0) bareWorld).1 = .error err) ∧
    (brokenAppend.alone Runtime.counting (.trusted 0) bareWorld).2.db = bareWorld.db := by
  have hfailed := Request.alone_failed
      (show (brokenAppend.alone Runtime.counting (.trusted 0) bareWorld).1.toOption.isNone = true by
    decide +kernel)
  obtain ⟨err, herr⟩ := hfailed
  exact ⟨⟨err, herr⟩, (Reachable.failed_unchanged ((Reachable.empty _).serveAll _)
    (.trusted 0) brokenAppend trivial).mpr
    id err herr⟩

/-- Touching `/a/b` there, where no `/a` is. -/
def strandedTouch : Request :=
  .Perform (.Touch (.named [['a'], ['b']]) { create := true })

/-- It fails and leaves a generation behind. -/
theorem stranded_touch_changes : Reachable Runtime.counting bareWorld ∧ strandedTouch.Mutates ∧
    (∃ err, (strandedTouch.alone Runtime.counting (.trusted 0) bareWorld).1 = .error err) ∧
    (strandedTouch.alone Runtime.counting (.trusted 0) bareWorld).2.db ≠ bareWorld.db := by
  refine ⟨(Reachable.empty _).serveAll _, trivial, Request.alone_failed (by decide +kernel),
    fun hsame => ?_⟩
  have hleft : (strandedTouch.alone Runtime.counting
    (.trusted 0) bareWorld).2.db.content_generations.rows.length = 1 ∧
      bareWorld.db.content_generations.rows.length = 0 := by decide +kernel
  rw [hsame, hleft.2] at hleft
  exact absurd hleft.1 (by decide)

end fslite
