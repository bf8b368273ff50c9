import Fslite.Sqlite.Run.Upload

namespace fslite

namespace content

/-- What the stream yields for a fetched chunk, or for a failed fetch. -/
def ChunkRangeState.item (state : ChunkRangeState) (result : FsResult Bytes) : FsResult Bytes :=
  result.map (ChunkWriter.clip state.start state.end_ state.current_chunk)

/-- The stream after a fetch; a failed one ends it. -/
def ChunkRangeState.after (state : ChunkRangeState) (result : FsResult Bytes) : ChunkRangeState :=
  match result with
  | .ok _ => { state with current_chunk := state.current_chunk + 1 }
  | .error _ => { state with current_chunk := state.current_chunk + 1, done := true }

theorem drain_succ (polls : Nat) (state : ChunkRangeState) : state.drain (polls + 1) =
    if state.done = true ∨ state.end_chunk < state.current_chunk then Prog.ret []
    else Prog.call (DbCall.fetch_chunk_bytes state.generation_id state.current_chunk) (fun result =>
      (state.after result).drain polls >>= fun items => Prog.ret (state.item result :: items)) := by
  rw [ChunkRangeState.drain, ChunkRangeState.next]
  split
  · rfl
  · simp only [Prog.perform_bind, Prog.call_bind]
    congr 1
    funext result
    cases result <;> rfl

end content

namespace Session

variable {σ : Session} {A B : Type}

theorem Runs.map {t : Option GenerationId} {P : World → Prop} {f : A → B} {p : Task A}
    {Q : B → Option GenerationId → World → Prop} {R : FsError → Option GenerationId → World → Prop}
    (h : σ.Runs t P p (fun a => Q (f a)) R) : σ.Runs t P (f <$> p) Q R :=
  Ownership.FailingTriple.map h

/-- A task that stages nothing keeps its part among others. -/
def Passive (σ : Session) (p : Task A) : Prop :=
  σ.Runs none (fun _ => True) p (fun _ t _ => t = none) (fun _ t _ => t = none)

namespace Passive

theorem pure {a : A} : σ.Passive (pure a) := Runs.pure (fun _ _ _ => rfl)

theorem throw {e : FsError} : σ.Passive (throw e : Task A) := Runs.throw (fun _ _ _ => rfl)

theorem bind {p : Task A} {f : A → Task B} (h : σ.Passive p) (hf : ∀ a, σ.Passive (f a)) :
    σ.Passive (p >>= f) := by
  refine Runs.bind h (fun a t => ?_)
  refine Runs.weaken (P := fun _ => t = none ∧ True) (Runs.of_fact (fun ht => ?_))
    (fun _ _ ht => ⟨ht, trivial⟩)
    (fun _ _ _ _ hQ => hQ) (fun _ _ _ _ hR => hR)
  subst ht
  exact hf a

theorem map {f : A → B} {p : Task A} (h : σ.Passive p) : σ.Passive (f <$> p) := Runs.map h

theorem ofResult (result : FsResult A) : σ.Passive (Task.ofResult result) := by
  cases result with
  | ok a => exact pure (a := a)
  | error e => exact throw (e := e)

theorem expect (a : Option A) : σ.Passive (Task.expect a) := by
  cases a with
  | some a => exact pure
  | none => exact throw

theorem require_capability (ctx : RequestContext) (capability : Capability) (subject : Text) :
    σ.Passive (require_capability ctx capability subject) := by
  unfold fslite.require_capability
  split
  · exact pure
  · exact throw

end Passive

/-- One call that works on no staged generation. -/
theorem passive_perform {o : DbCall} (hothers : ¬ σ.alone) (hstaged : o.staged = none)
    (hgrounded : ∀ db, o.Grounded σ.policy db) {w : World} (hw : Sound σ.rt σ.policy σ.alone w)
    (hmay : ¬ σ.alone → σ.policy.Allows σ.rt w o) :
    (ownership σ.rt σ.policy σ.alone).Kept (Sound σ.rt σ.policy σ.alone) none none w
    (o.exec σ.rt w).2 := by
  have heffect := DbCall.exec_effect hw.wf (hw.laid hothers) (hmay hothers) (hgrounded w.db)
  rw [hstaged] at heffect
  exact kept_of_effect hw (held_none w) heffect (held_none _) (fun g hg => by cases hg)

theorem Passive.call {o : DbCall} (hothers : ¬ σ.alone) (hstaged : o.staged = none)
    (hgrounded : ∀ db, o.Grounded σ.policy db) : σ.Passive (Task.call o) := by
  unfold Passive Runs
  refine Ownership.FailingTriple.perform o (fun r : DbCall.Res o => (r : FsResult o.Answer))
    (fun w hw _ _ hmay => ?_)
  refine ⟨none, passive_perform hothers hstaged hgrounded hw hmay, ?_⟩
  cases (DbCall.exec σ.rt o w).1 with
  | ok answer => exact ⟨fun _ _ _ _ _ _ => rfl, rfl⟩
  | error e => exact ⟨fun _ _ _ _ _ _ => rfl, rfl⟩

theorem Passive.transaction {ws : WorkspaceId} {operation : BatchOperation} {actor_json : Text}
    (hothers : ¬ σ.alone) :
    σ.Passive (Task.call (.transaction ws operation actor_json)) :=
  Passive.call hothers rfl (fun _ => trivial)

/-- A method that runs one transaction between checks. -/
theorem Passive.transact {ctx : RequestContext} {capability : Capability}
    {subject actor_json : Text} {ws : WorkspaceId} {operation : BatchOperation}
    {result : Outcome operation → FsResult A} (hothers : ¬ σ.alone) :
    σ.Passive (do
      fslite.require_capability ctx capability subject
      let outcome ← Task.call (.transaction ws operation actor_json)
      Task.ofResult (result outcome)) :=
  Passive.bind (Passive.require_capability ctx capability subject) (fun _ =>
    Passive.bind (Passive.transaction hothers) (fun outcome => Passive.ofResult (result outcome)))

/-- Fetching chunks of a content that is being read. -/
theorem drain_passive (hothers : ¬ σ.alone) (polls : Nat) (state : content.ChunkRangeState) :
    (ownership σ.rt σ.policy σ.alone).Triple (DbCall.exec σ.rt)
    (fun o w => ¬ σ.alone → σ.policy.Allows σ.rt w o)
      (Sound σ.rt σ.policy σ.alone) none (fun _ => True) (state.drain polls)
      (fun _ t _ => t = none) := by
  induction polls generalizing state with
  | zero => exact Ownership.Triple.ret (fun _ _ _ _ => rfl)
  | succ polls ih =>
    rw [content.drain_succ]
    split
    · exact Ownership.Triple.ret (fun _ _ _ _ => rfl)
    · refine Ownership.Triple.call (fun w hw _ _ hmay => ⟨none, fun _ => True,
        passive_perform (o :=
          .fetch_chunk_bytes state.generation_id state.current_chunk) hothers rfl (fun _ => trivial)
          hw hmay, stable_true, trivial, ?_⟩)
      exact Ownership.Triple.bind (ih _) (fun _ _ => Ownership.Triple.ret (fun _ _ _ h => h))

section serve

variable {ctx : RequestContext}

theorem read_passive (hothers : ¬ σ.alone) (ws : WorkspaceId) (path : VirtualPath)
    (options : ReadOptions) :
    σ.Passive (content.read ws path options) := by
  unfold content.read
  refine Passive.bind (Passive.call hothers rfl (fun _ => trivial)) (fun node => ?_)
  cases node with
  | none => exact Passive.throw
  | some node =>
    simp only
    split
    · exact Passive.throw
    · split
      · exact Passive.throw
      · split
        · exact Passive.throw
        · split
          · exact Passive.bind Passive.pure (fun _ => Passive.pure)
          · exact Passive.bind (Passive.expect _)
              (fun _ => Passive.bind Passive.pure (fun _ => Passive.pure))

theorem stat_passive (hothers : ¬ σ.alone) (path : VirtualPath) (follow_symlinks : Bool) :
    σ.Passive (SqliteFileSystem.stat ctx path follow_symlinks) := by
  refine Passive.bind (Passive.require_capability ctx .Read _) (fun _ => ?_)
  refine Passive.bind (Passive.call hothers rfl (fun _ => trivial)) (fun outcome => ?_)
  cases outcome with
  | Found row => exact Passive.ofResult _
  | NotFound => exact Passive.throw
  | BrokenLink => exact Passive.throw
  | LinkLoop => exact Passive.throw

theorem perform_passive (hothers : ¬ σ.alone) (operation : BatchOperation) :
    σ.Passive (SqliteFileSystem.perform σ.rt ctx operation) := by
  cases operation with
  | Mkdir path options =>
    refine Passive.map (Passive.bind (Passive.require_capability ctx .Write _) (fun _ => ?_))
    split
    · exact Passive.throw
    · exact Passive.bind (Passive.transaction hothers) (fun _ => Passive.ofResult _)
  | Symlink target link options =>
    refine Passive.map (Passive.bind (Passive.require_capability ctx .Write _) (fun _ => ?_))
    split
    · exact Passive.throw
    · exact Passive.bind (Passive.transaction hothers) (fun _ => Passive.ofResult _)
  | _ => exact Passive.map (Passive.transact hothers)

theorem changes_passive (hothers : ¬ σ.alone) (after : Option ChangeCursor) (page : PageRequest) :
    σ.Passive (change.changes σ.rt ctx.workspace_id after page) :=
  Passive.bind (Passive.ofResult _)
    (fun _ => Passive.bind (Passive.call hothers rfl (fun _ => trivial))
    (fun _ => Passive.ofResult _))

/-- What a method promises that stages a content keeps its part. -/
theorem Runs.trivially {t : Option GenerationId} {P : World → Prop} {p : Task A}
    {Q : A → Option GenerationId → World → Prop} {R : FsError → Option GenerationId → World → Prop}
    (h : σ.Runs t P p Q R) (hP : ∀ w, P w) :
    σ.Runs t (fun _ => True) p (fun _ _ _ => True) (fun _ _ _ => True) :=
  h.weaken (fun w _ _ => hP w) (fun _ _ _ _ _ => trivial) (fun _ _ _ _ _ => trivial)

/-- A method that stages a content, after its check and before its reply. -/
theorem Runs.guarded {capability : Capability} {subject : Text} {P : World → Prop} {p : Task A}
    {f : A → B} {Q : A → Option GenerationId → World → Prop}
    {R : FsError → Option GenerationId → World → Prop} (h : σ.Runs none P p Q R) (hP : ∀ w, P w) :
    σ.Runs none (fun _ => True) (f <$> (do require_capability ctx capability subject; p))
      (fun _ _ _ => True) (fun _ _ _ => True) := by
  refine Runs.map (Runs.bind ((Passive.require_capability ctx capability subject).post
    (fun _ _ _ ht => ht)
    (fun _ _ _ _ => trivial)) (fun _ t => ?_))
  refine Runs.weaken (P := fun _ => t = none ∧ True) (Runs.of_fact (fun ht => ?_))
    (fun _ _ ht => ⟨ht, trivial⟩)
    (fun _ _ _ _ hQ => hQ) (fun _ _ _ _ hR => hR)
  subst ht
  exact h.trivially hP

/-- Every request keeps its part among the requests of others. -/
theorem serve_runs (hothers : ¬ σ.alone) (hold : σ.old = none) (hws : ctx.workspace_id = σ.ws)
    (request : Request) :
    σ.Runs none (fun _ => True) (request.serve σ.rt ctx) (fun _ _ _ => True)
      (fun _ _ _ => True) := by
  have hpassive : ∀ {p : Task Reply}, σ.Passive p →
    σ.Runs none (fun _ => True) p (fun _ _ _ => True) (fun _ _ _ => True) :=
    fun h => h.trivially (fun _ => trivial)
  have hread : ∀ path, σ.Readable path := fun path halone => absurd halone hothers
  have hundone : ∀ w, σ.Undone w := fun w halone => absurd halone hothers
  cases request with
  | CreateWorkspace options =>
    exact hpassive (Passive.map (Passive.call hothers rfl (fun _ => trivial)))
  | DeleteWorkspace ws => exact hpassive (Passive.map (Passive.call hothers rfl (fun _ => trivial)))
  | ResetWorkspace ws =>
    refine hpassive (Passive.map
      (Passive.bind (Passive.call hothers rfl (fun _ => trivial)) (fun found => ?_)))
    split
    · exact Passive.pure
    · exact Passive.throw
  | WorkspaceUsage =>
    refine hpassive (Passive.map (Passive.bind (Passive.require_capability ctx .Read _) (fun _ =>
      Passive.bind (Passive.call hothers rfl (fun _ => trivial)) (fun raw => ?_))))
    cases raw with
    | some raw => exact Passive.pure
    | none => exact Passive.throw
  | Stat path follow_symlinks =>
    exact hpassive (Passive.map (stat_passive hothers path follow_symlinks))
  | Read path options =>
    refine hpassive (Passive.bind (Passive.bind (Passive.require_capability ctx .Read _)
      (fun _ => read_passive hothers _ path options))
        (fun file => Passive.bind ?_ (fun _ => Passive.pure)))
    refine Ownership.FailingTriple.lift ?_
    unfold content.FileRead.into_stream
    split
    · exact Ownership.Triple.ret (fun _ _ _ _ => rfl)
    · exact drain_passive hothers _ _
  | Write path source options =>
    unfold Request.serve SqliteFileSystem.write
    rw [hws]
    exact Runs.guarded (write hold) hundone
  | WriteAt path offset source options =>
    unfold Request.serve SqliteFileSystem.write_at
    rw [hws]
    exact Runs.guarded (write_at (hread path)) hundone
  | Append path source options =>
    unfold Request.serve SqliteFileSystem.append
    rw [hws]
    exact Runs.guarded (append (hread path)) hundone
  | Truncate path length options =>
    unfold Request.serve SqliteFileSystem.truncate
    rw [hws]
    exact Runs.guarded (truncate (hread path)) hundone
  | Perform operation => exact hpassive (Passive.map (perform_passive hothers operation))
  | Batch operations =>
    refine hpassive (Passive.map
      (Passive.bind (Passive.call hothers rfl (fun _ => trivial)) (fun outcome => ?_)))
    exact Passive.ofResult _
  | Changes after page =>
    exact hpassive (Passive.map (Passive.bind (Passive.require_capability ctx .Read _)
      (fun _ => changes_passive hothers after page)))

end serve

end Session

section along

variable {rt : Runtime} {may : DbCall → World → Prop} {w : World} {A B : Type}

theorem Task.along_bind {p : Task A} {f : A → Task B} (hp : Prog.Along (DbCall.exec rt) may p.run w)
    (hf : ∀ a, Prog.Along (DbCall.exec rt) may (f a).run (p.run.run (DbCall.exec rt) w).2) :
    Prog.Along (DbCall.exec rt) may (p >>= f).run w := by
  refine Prog.along_bind (DbCall.exec rt) hp (fun r => ?_)
  cases r with
  | ok a => exact hf a
  | error e => trivial

/-- What follows a task is only known of the result that it has. -/
theorem Task.along_bind_run {p : Task A} {f : A → Task B}
    (hp : Prog.Along (DbCall.exec rt) may p.run w)
    (hf : ∀ a, (p.run.run (DbCall.exec rt) w).1 = .ok a →
      Prog.Along (DbCall.exec rt) may (f a).run (p.run.run (DbCall.exec rt) w).2) :
    Prog.Along (DbCall.exec rt) may (p >>= f).run w := by
  refine Prog.along_bind_run (DbCall.exec rt) hp ?_
  show Prog.Along _ _ (ExceptT.bindCont f (p.run.run (DbCall.exec rt) w).1) _
  cases hresult : (p.run.run (DbCall.exec rt) w).1 with
  | ok a => exact hf a hresult
  | error e => trivial

theorem Task.along_map {p : Task A} {f : A → B} (hp : Prog.Along (DbCall.exec rt) may p.run w) :
    Prog.Along (DbCall.exec rt) may (f <$> p).run w := by
  refine Prog.along_bind (DbCall.exec rt) hp (fun r => ?_)
  cases r with
  | ok a => trivial
  | error e => trivial

theorem Task.along_guarded {ctx : RequestContext} {capability : Capability} {subject : Text}
    {f : Unit → Task A} (h : Prog.Along (DbCall.exec rt) may (f ()).run w) :
    Prog.Along (DbCall.exec rt) may (require_capability ctx capability subject >>= f).run w := by
  unfold require_capability
  split
  · exact h
  · trivial

theorem Task.along_call {o : DbCall} {result : o.Answer → FsResult A} (h : may o w) :
    Prog.Along (DbCall.exec rt) may (do
      let answer ← Task.call o
      Task.ofResult (result answer) : Task A).run w :=
  Task.along_bind ⟨h, trivial⟩ (fun _ => trivial)

/-- A task that makes one call and maps its answer. -/
theorem Task.run_call_ofResult {o : DbCall} {f : A → B} {g : o.Answer → FsResult A} :
    (f <$> (Task.call o >>= fun r => Task.ofResult (g r)) : Task B).run.run (DbCall.exec rt) w =
      (((DbCall.exec rt o w).1.bind g).map f, (DbCall.exec rt o w).2) := by
  show Prog.run (DbCall.exec rt) (Prog.call o _) w = _
  rw [Prog.run_call]
  cases (DbCall.exec rt o w).1 with
  | error e => rfl
  | ok answer =>
    show Prog.run (DbCall.exec rt) ((Prog.ret (g answer)).bind _) _ = _
    simp only [Except.bind]
    cases g answer with
    | ok a => rfl
    | error e => rfl

/-- The calls of a request for one operation. -/
theorem along_perform {ctx : RequestContext} {operation : BatchOperation}
    (h : may (.transaction ctx.workspace_id operation (actor_json rt ctx)) w) :
    Prog.Along (DbCall.exec rt) may ((Request.Perform operation).serve rt ctx).run w := by
  refine Task.along_map ?_
  cases operation with
  | Mkdir path options =>
    refine Task.along_map (Task.along_guarded ?_)
    split
    · trivial
    · exact Task.along_call h
  | Symlink target link options =>
    refine Task.along_map (Task.along_guarded ?_)
    split
    · trivial
    · exact Task.along_call h
  | _ => exact Task.along_map (Task.along_guarded (Task.along_call h))

end along

namespace Reached

variable {rt : Runtime} {P : Policy} {c : System}

/-- The requests in service keep their parts. -/
theorem serve_keeps {p : Prog DbCall.Res (Except FsError Reply)} (h : Served rt p) :
    (ownership rt P False).Keeps (DbCall.exec rt) (fun o w => P.Allows rt w o) (Sound rt P False)
      (fun _ _ _ => True) p none (fun _ => True) := by
  obtain ⟨ctx, request, rfl⟩ := h
  have hruns := Session.serve_runs
    (σ := ⟨rt, P, False, ctx.workspace_id, Db.empty, none⟩) not_false rfl
    (show ctx.workspace_id = ctx.workspace_id from rfl) request
  exact (hruns.weaken_post (fun _ _ _ _ => trivial)).weaken_may (fun _ _ hmay _ => hmay)

theorem placed_empty (rt : Runtime) (P : Policy) :
    Ownership.Placed (ownership rt P False) (DbCall.exec rt) (fun _ o w => P.Allows rt w o)
      (Sound rt P False) none
      (fun _ _ _ _ => True) System.empty (fun _ => none) where
  inv := Sound.empty rt P False
  held _ := held_none _
  apart _ _ _ := ⟨not_false, fun g hg => by cases hg⟩
  idle _ _ := rfl
  keeps i p hp := by
    rw [System.empty, List.getElem?_nil] at hp
    cases hp

theorem placed (h : Reached rt (fun c _ o => P.Allows rt c.state o) c) :
    ∃ token, Ownership.Placed (ownership rt P False) (DbCall.exec rt) (fun _ o w => P.Allows rt w o)
      (Sound rt P False)
      none (fun _ _ _ _ => True) c token :=
  (placed_empty rt P).steps (fun _ hp _ _ => serve_keeps hp) h

theorem sound (h : Reached rt (fun c _ o => P.Allows rt c.state o) c) :
    Sound rt P False c.state := by
  obtain ⟨_, hplaced⟩ := h.placed
  exact hplaced.inv

/-- A call of a run is a permitted step. -/
theorem step_foreign (h : Reached rt (fun c _ o => P.Allows rt c.state o) c) {i : Nat} {o : DbCall}
    {next : DbCall.Res o → Prog DbCall.Res (Except FsError Reply)}
    (hproc : c.procs[i]? = some (.call o next)) (hmay : P.Allows rt c.state o) :
    Foreign rt P none c.state (o.exec rt c.state).2 := by
  obtain ⟨_, hplaced⟩ := h.placed
  exact ((hplaced.advance hproc hmay).1 none ⟨not_false, fun g _ hg => by cases hg⟩ (held_none _)).2

/-- The rest of a run is a sequence of permitted steps. -/
theorem steps_foreign {d : System} (h : Reached rt (fun c _ o => P.Allows rt c.state o) c)
    (hsteps : Steps (DbCall.exec rt) (Served rt) (fun c _ o => P.Allows rt c.state o) c d) :
    Relation.ReflTransGen (Foreign rt P none) c.state d.state := by
  obtain ⟨_, hplaced⟩ := h.placed
  exact Relation.ReflTransGen.mono (fun _ _ hrely => hrely.2) _ _
    (hplaced.steps_rely (fun _ hp _ _ => serve_keeps hp)
    (fun t => ⟨not_false, fun g _ hg => by cases hg⟩) (fun s => held_none s) hsteps)

/-- A run is a sequence of permitted steps. -/
theorem foreign (h : Reached rt (fun c _ o => P.Allows rt c.state o) c) :
    Relation.ReflTransGen (Foreign rt P none) System.empty.state c.state :=
  steps_foreign Relation.ReflTransGen.refl h

/-- What the empty store has and every permitted change keeps, every store of a
run has. -/
theorem invariant {I : Db → Prop} (hempty : I Db.empty)
    (hstep : ∀ {fresh mine a b}, Edit P fresh mine a b → WellFormed a → I a → I b)
    (h : Reached rt (fun c _ o => P.Allows rt c.state o) c) : I c.state.db := by
  have hall : ∀ w, Relation.ReflTransGen (Foreign rt P none) System.empty.state w → I w.db := by
    intro w hsteps
    induction hsteps with
    | refl => exact hempty
    | tail _ hforeign ih =>
      obtain ⟨hsound, _, _, _, heffect⟩ := hforeign
      exact (heffect.edits.preserve (fun _ hid => Or.inr hid) hsound.wf hstep ih).2
  exact hall c.state h.foreign

/-- What is known of a request among others, whose own calls are known to satisfy
a condition, holds of its result. -/
theorem arrived_result {d : System} {p : Prog DbCall.Res (Except FsError Reply)}
    {extra : DbCall → World → Prop} {Q : Except FsError Reply → Prop}
    {result : Except FsError Reply} (h : Reached rt (fun c _ o => P.Allows rt c.state o) c)
    (hp : (ownership rt P False).Triple (DbCall.exec rt) (fun o w => P.Allows rt w o ∧ extra o w)
    (Sound rt P False) none
      (fun _ => True) p (fun a _ _ => Q a))
    (hrun : Steps (DbCall.exec rt) (Served rt) (fun e i o => P.Allows rt e.state o ∧
      (i = c.procs.length → extra o e.state)) ⟨c.state, c.procs ++ [p]⟩ d)
    (hend : d.procs[c.procs.length]? = some (.ret result)) : Q result := by
  obtain ⟨token, hplaced⟩ := h.placed
  have hknown : Ownership.Placed (ownership rt P False) (DbCall.exec rt)
      (fun i o w => P.Allows rt w o ∧ (i = c.procs.length → extra o w)) (Sound rt P False) none
      (fun i a t R => i = c.procs.length → ∀ w, Sound rt P False w →
        (ownership rt P False).held t w → R w → Q a) c token :=
    hplaced.weaken (fun _ _ _ hmay => hmay.1) (fun i _ _ _ hi _ heq => absurd heq hi.ne)
  have hreader := (hp.weaken_may
    (fun o w (hmay : P.Allows rt w o ∧ (c.procs.length = c.procs.length → extra o w)) =>
    ⟨hmay.1, hmay.2 rfl⟩)).weaken_post
      (fun _ _ _ hpost (_ : c.procs.length = c.procs.length) => hpost)
  have hlater : ∀ p, Served rt p → ∀ i, (c.procs ++ [p]).length ≤ i →
    (ownership rt P False).Keeps (DbCall.exec rt)
      (fun o w => P.Allows rt w o ∧ (i = c.procs.length → extra o w)) (Sound rt P False)
      (fun a t R => i = c.procs.length → ∀ w, Sound rt P False w → (ownership rt P False).held t w →
        R w → Q a) p none
      (fun _ => True) := by
    intro p hp i hi
    rw [List.length_append, List.length_singleton] at hi
    exact ((serve_keeps hp).weaken_post (fun _ _ _ _ heq => absurd heq (by omega))).weaken_may
      (fun _ _ hmay => hmay.1)
  obtain ⟨_, hfinal⟩ := (hknown.arrive hreader).steps (fun q hq i hi =>
    hlater q hq i (by simpa using hi)) hrun
  obtain ⟨R, _, hR, hpost⟩ := hfinal.keeps _ _ hend
  exact hpost rfl d.state hfinal.inv (hfinal.held _) hR

/-- A request that is served without interruption. -/
theorem serve {may : System → Nat → DbCall → Prop} {w : World}
    {ps : List (Prog DbCall.Res (Except FsError Reply))} (h : Reached rt may ⟨w, ps⟩)
    (ctx : RequestContext) (request : Request)
    (hmay : Prog.Along (DbCall.exec rt) (fun o w => ∀ qs, may ⟨w, qs⟩ ps.length o)
    (request.serve rt ctx).run w) :
    ∃ qs, Reached rt may ⟨((request.serve rt ctx).run.run (DbCall.exec rt) w).2, qs⟩ :=
  ⟨_, Relation.ReflTransGen.trans h (Steps.arrive_finish ⟨ctx, request, rfl⟩ hmay)⟩

end Reached

/-- The store after requests that are served one after another. -/
def serveAll (rt : Runtime) : List (RequestContext × Request) → World → World
  | [], w => w
  | (ctx, request) :: rest, w => serveAll rt rest
    ((request.serve rt ctx).run.run (DbCall.exec rt) w).2

/-- Requests that are served one after another are a run. -/
theorem serveAll_steps {rt : Runtime} {new : Prog DbCall.Res (Except FsError Reply) → Prop}
    {may : System → Nat → DbCall → Prop} {requests : List (RequestContext × Request)}
    (hnew : ∀ r ∈ requests, new (r.2.serve rt r.1).run)
    (hmay : ∀ r ∈ requests, ∀ w, Prog.Along (DbCall.exec rt) (fun o w => ∀ qs i, may ⟨w, qs⟩ i o)
    (r.2.serve rt r.1).run w) (w : World) (ps : List (Prog DbCall.Res (Except FsError Reply))) :
    ∃ qs, Steps (DbCall.exec rt) new may ⟨w, ps⟩ ⟨serveAll rt requests w, qs⟩ := by
  induction requests generalizing w ps with
  | nil => exact ⟨ps, Relation.ReflTransGen.refl⟩
  | cons first rest ih =>
    obtain ⟨qs, hrest⟩ := ih (fun r hr => hnew r (List.mem_cons_of_mem _ hr)) (fun r hr =>
      hmay r (List.mem_cons_of_mem _ hr))
      _ (ps ++ [.ret ((first.2.serve rt first.1).run.run (DbCall.exec rt) w).1])
    refine ⟨qs, Relation.ReflTransGen.trans
      (Steps.arrive_finish (hnew first List.mem_cons_self) ?_) hrest⟩
    exact Prog.along_mono _ (hmay first List.mem_cons_self w) (fun o s h qs => h qs _)

theorem serveAll_run (rt : Runtime) (requests : List (RequestContext × Request)) (w : World)
    (ps : List (Prog DbCall.Res (Except FsError Reply))) :
    ∃ qs, Steps (DbCall.exec rt) (Served rt) (fun _ _ _ => True) ⟨w, ps⟩
      ⟨serveAll rt requests w, qs⟩ :=
  serveAll_steps (fun r _ => ⟨r.1, r.2, rfl⟩)
    (fun _ _ _ => Prog.along_of_forall _ (fun _ _ _ _ => trivial) _ _) w ps

/-- The system after requests have arrived at a new database. -/
def System.arrived (rt : Runtime) (requests : List (RequestContext × Request)) : System :=
  ⟨⟨Db.empty, 0⟩, requests.map (fun r => (r.2.serve rt r.1).run)⟩

theorem served_all {rt : Runtime} {requests : List (RequestContext × Request)} :
    ∀ p ∈ requests.map (fun r => (r.2.serve rt r.1).run), Served rt p := by
  intro p hp
  obtain ⟨r, _, rfl⟩ := List.mem_map.mp hp
  exact ⟨r.1, r.2, rfl⟩

theorem Reached.arrived (rt : Runtime) (may : System → Nat → DbCall → Prop)
    (requests : List (RequestContext × Request)) :
    Reached rt may (System.arrived rt requests) := Steps.arrive_all served_all _ []

/-- The system after requests have arrived at a new database and the given ones
have made their next calls, in the given order. -/
def System.scheduled (rt : Runtime) (requests : List (RequestContext × Request))
    (order : List Nat) : System :=
  Config.schedule (DbCall.exec rt)
    ⟨⟨Db.empty, 0⟩, requests.map (fun r => (r.2.serve rt r.1).run)⟩ order

theorem Reached.scheduled (rt : Runtime) (requests : List (RequestContext × Request))
    (order : List Nat) :
    Reached rt (fun _ _ _ => True) (System.scheduled rt requests order) :=
  Relation.ReflTransGen.trans (Reached.arrived rt _ requests)
    (Steps.schedule (Config.allowed_of_forall (fun _ _ _ => trivial) order _))

namespace Reachable

variable {rt : Runtime} {w : World}

theorem empty (rt : Runtime) : Reachable rt ⟨Db.empty, 0⟩ :=
  ⟨System.empty, Relation.ReflTransGen.refl, rfl⟩

theorem serve (h : Reachable rt w) (ctx : RequestContext) (request : Request) :
    Reachable rt ((request.serve rt ctx).run.run (DbCall.exec rt) w).2 := by
  obtain ⟨⟨w, ps⟩, hreached, rfl⟩ := h
  obtain ⟨qs, hreached⟩ := hreached.serve ctx request (Prog.along_of_forall _ (fun _ _ _ =>
    trivial) _ _)
  exact ⟨_, hreached, rfl⟩

theorem serveAll (h : Reachable rt w) (requests : List (RequestContext × Request)) :
    Reachable rt (serveAll rt requests w) := by
  induction requests generalizing w with
  | nil => exact h
  | cons first rest ih => exact ih (h.serve first.1 first.2)

end Reachable

/-- A plain spelling of a cursor: its numbers in strokes, then the workspace. -/
def counting_cursor (payload : change.RawChangeCursor) : Text :=
  List.replicate payload.v '|' ++ (if payload.last_sequence < 0 then '-' else '+') ::
    (List.replicate payload.last_sequence.natAbs '|' ++ ':' :: payload.workspace_id)

def counting_payload (text : Text) : Option change.RawChangeCursor :=
  match text.dropWhile (fun c => c = '|') with
  | sign :: rest =>
    let count := (rest.takeWhile (fun c => c = '|')).length
    some ⟨(text.takeWhile (fun c => c = '|')).length, (rest.dropWhile (fun c => c = '|')).tail,
      if sign = '-' then -count else count⟩
  | [] => none

theorem counting_payload_cursor (payload : change.RawChangeCursor) :
    counting_payload (counting_cursor payload) = some payload := by
  have htake : ∀ (n : Nat) (c : Char) (rest : Text), c ≠ '|' →
      (List.replicate n '|' ++ c :: rest).takeWhile (fun c => c = '|') = List.replicate n '|' := by
    intro n c rest hc
    induction n with
    | zero => simp [hc]
    | succ n ih => simp [List.replicate_succ, ih]
  have hdrop : ∀ (n : Nat) (c : Char) (rest : Text), c ≠ '|' →
      (List.replicate n '|' ++ c :: rest).dropWhile (fun c => c = '|') = c :: rest := by
    intro n c rest hc
    induction n with
    | zero => simp [hc]
    | succ n ih => simp [List.replicate_succ, ih]
  have hsign : (if payload.last_sequence < 0 then '-' else '+') ≠ '|' := by split <;> decide
  unfold counting_payload counting_cursor
  rw [hdrop _ _ _ hsign, htake _ _ _ hsign]
  simp only [htake _ ':' _ (by decide), hdrop _ ':' _ (by decide), List.length_replicate,
    List.tail_cons]
  cases payload with
  | mk v workspace_id last_sequence =>
    simp only [Option.some.injEq, change.RawChangeCursor.mk.injEq, true_and]
    by_cases h : last_sequence < 0
    · simp only [h, if_true]
      omega
    · simp only [h, if_false, show ('+' = '-') = False by decide]
      omega

/-- A runtime that counts: the k-th identifier and the k-th time are k. -/
def Runtime.counting : Runtime where
  newId := id
  newId_injective := Function.injective_id
  nowMs n := n
  actorJson _ := []
  actorMetadata _ := []
  base64 _ := []
  cursorText := counting_cursor
  cursorPayload := counting_payload
  cursorPayload_cursorText := counting_payload_cursor
  faultText _ := []

/-- Whatever is served, the store stays well-formed. -/
theorem Reachable.sound {rt : Runtime} {w : World} (h : Reachable rt w) :
    Sound rt Policy.any False w := by
  obtain ⟨c, hreached, rfl⟩ := h
  exact Reached.sound (P := Policy.any)
    (hreached.mono (fun _ hp => hp) (fun c _ o _ => Policy.allows_any rt c.state o))

end fslite
