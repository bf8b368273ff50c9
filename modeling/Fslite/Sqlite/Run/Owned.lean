import Fslite.Sqlite.Effect.Owned
import Fslite.Sqlite.Run.Content

namespace fslite

open content mutate

/-- Every content is whole and one file's own, every file has one, and every chunk
is of a content. -/
structure Db.Accounted (db : Db) : Prop where
  complete : ∀ g ∈ db.content_generations, g.complete = true
  owner : ∀ g ∈ db.content_generations, ∃ n ∈ db.nodes, n.kind = .File ∧
    n.workspace_id = g.workspace_id ∧
    n.content_generation_id = some g.id ∧ ∀ m ∈ db.nodes, m.content_generation_id = some g.id →
      m = n
  file : ∀ n ∈ db.nodes, n.kind = .File → ∃ g ∈ db.content_generations,
    n.content_generation_id = some g.id
  chunk : ∀ c ∈ db.content_chunks, ∃ g ∈ db.content_generations, g.id = c.generation_id

/-- What a sound store keeps, and no generation without a node. -/
theorem Db.Owned.accounted {db : Db} (h : db.Owned) (hwf : ContentsWellFormed db) :
    db.Accounted := by
  have hstored : ∀ g ∈ db.content_generations, ∃ n ∈ db.nodes, n.content_generation_id = some g.id ∧
    n.kind = .File ∧
      g.complete = true ∧ g.workspace_id = n.workspace_id := by
    intro g hg
    have hrow : db.generation? g.id = some g := Table.find?_key hg
    obtain ⟨n, hn, hng⟩ := h g.id g hrow
    obtain ⟨hkind, row, hrow', hcomplete, _, hws⟩ := hwf.generation n hn g.id hng
    obtain rfl : g = row := Option.some.inj (hrow.symm.trans hrow')
    exact ⟨n, hn, hng, hkind, hcomplete, hws⟩
  refine ⟨fun g hg => ?_, fun g hg => ?_, fun n hn hkind => ?_, fun c hc => ?_⟩
  · obtain ⟨_, _, _, _, hcomplete, _⟩ := hstored g hg
    exact hcomplete
  · obtain ⟨n, hn, hng, hkind, _, hws⟩ := hstored g hg
    exact ⟨n, hn, hkind, hws.symm, hng, fun m hm hmg => hwf.unshared m hm n hn g.id hmg hng⟩
  · obtain ⟨g, hg⟩ := Option.ne_none_iff_exists'.mp (hwf.file n hn hkind)
    obtain ⟨_, row, hrow, _⟩ := hwf.generation n hn g hg
    obtain ⟨hmem, rfl⟩ := Db.generation?_eq_some.mp hrow
    exact ⟨row, hmem, hg⟩
  · obtain ⟨row, hrow⟩ := hwf.chunk c hc
    obtain ⟨hmem, hid⟩ := Db.generation?_eq_some.mp hrow
    exact ⟨row, hmem, hid⟩

/-- The calls that neither stage a content nor perform an operation. -/
def DbCall.Plain : DbCall → Prop
  | .create_generation _ => False
  | .upsert_chunk .. => False
  | .copy_chunk_range .. => False
  | .delete_generation _ => False
  | .finalize .. => False
  | .transaction .. => False
  | .batch .. => False
  | _ => True

theorem DbCall.exec_owned {rt : Runtime} {call : DbCall} {w : World} (hplain : call.Plain)
    (hwf : WellFormed w.db) (howned : w.db.Owned) : (call.exec rt w).2.db.Owned := by
  unfold DbCall.exec
  cases hbody : call.body rt w with
  | error fault => exact howned
  | ok result =>
    obtain ⟨answer, w'⟩ := result
    cases call with
    | resolve | resolve_following | fetch_max_file_bytes | fetch_usage | fetch_changes_page | fetch_chunk_bytes =>
      simp only [body, Tx.query_eq_ok] at hbody
      exact hbody.2 ▸ howned
    | create_workspace options =>
      obtain ⟨row, nodes, workspaces, _, _, _, _, _, _, _, hins, rfl⟩ :=
        workspace.create_workspace_ok hbody
      exact howned.insert hins rfl
    | reset_workspace ws =>
      obtain ⟨rfl, _⟩ | ⟨row, nodes, _, _, hins, rfl⟩ := workspace.reset_workspace_ok hwf hbody
      · exact howned
      · exact (howned.clear hwf.contents ws).insert hins rfl
    | delete_workspace ws =>
      obtain rfl := workspace.delete_workspace_ok hwf hbody
      exact (howned.clear hwf.contents ws).congr rfl rfl
    | _ => exact hplain.elim

/-- A request of plain calls. -/
theorem Prog.All.owned {rt : Runtime} {A : Type} {p : Prog DbCall.Res A} {w : World}
    (hp : p.All DbCall.Plain) (hwf : WellFormed w.db) (howned : w.db.Owned) :
    (p.run (DbCall.exec rt) w).2.db.Owned := by
  have hkeeps : ∀ o w, DbCall.Plain o → WellFormed w.db ∧ w.db.Owned →
      WellFormed (DbCall.exec rt o w).2.db ∧ (DbCall.exec rt o w).2.db.Owned := by
    rintro o w hplain ⟨hwf, howned⟩
    have hgrounded : o.Grounded Policy.any w.db := by
      cases o with
      | upsert_chunk | copy_chunk_range | delete_generation | finalize => exact hplain.elim
      | _ => trivial
    have heffect := DbCall.exec_effect hwf (fun hlaid : Policy.any.laid => hlaid.elim)
      (Policy.allows_any rt w o) hgrounded
    exact ⟨heffect.wellFormed hwf, DbCall.exec_owned hplain hwf howned⟩
  exact (hp.run_invariant (DbCall.exec rt) hkeeps ⟨hwf, howned⟩).2

namespace DbCall.Plain

variable {A B : Type}

theorem call {o : DbCall} (h : o.Plain) : Failing.All Plain (Task.call o) := ⟨h, fun _ => trivial⟩

theorem of_reads {ws : WorkspaceId} {p : Prog DbCall.Res A} (h : p.All (Reads ws)) :
    p.All Plain := by
  refine Prog.All.mono h (fun o hreads => ?_)
  cases o with
  | resolve | fetch_chunk_bytes => trivial
  | _ => exact hreads.elim

end DbCall.Plain

/-- What a method that runs alone has committed. -/
theorem Session.Committed.owned {σ : Session} {path : VirtualPath} {params : FinalizeParams}
    {good : Bytes → Prop} {node : Node} {w : World} (h : σ.Committed path params good node w)
    (howned : σ.before.Owned) : w.db.Owned := by
  obtain ⟨w₀, g, bytes, row, hwf, hprivate, _, hrest, _, _, hfinal, _⟩ := h
  exact hfinal.owned hwf.contents.file hprivate.unreferenced (hrest ▸ howned)

/-- A request that succeeds leaves no generation without a node. -/
theorem Request.alone_owned {rt : Runtime} {ctx : RequestContext} {request : Request} {w : World}
    {reply : Reply} (hw : Sound rt Policy.any False w) (howned : w.db.Owned)
    (h : (request.alone rt ctx w).1 = .ok reply) :
    (request.alone rt ctx w).2.db.Owned := by
  have halone : Sound rt Policy.any True w := ⟨hw.wf, hw.issued, fun hnot => absurd trivial hnot⟩
  have hplain : ∀ {p : Task Reply}, Failing.All DbCall.Plain p →
    (p.run.run (DbCall.exec rt) w).2.db.Owned :=
    fun hp => Prog.All.owned hp hw.wf howned
  let σ : Session := ⟨rt, Policy.any, True, ctx.workspace_id, w.db, none⟩
  have hread : ∀ path, σ.Readable path := fun _ _ hlaid => hlaid.elim
  have hrun : request.alone rt ctx w = (.ok reply, (request.alone rt ctx w).2) := Prod.ext h rfl
  cases request with
  | CreateWorkspace options => exact hplain (Failing.All.map (DbCall.Plain.call trivial))
  | DeleteWorkspace ws => exact hplain (Failing.All.map (DbCall.Plain.call trivial))
  | ResetWorkspace ws =>
    refine hplain (Failing.All.map (Failing.All.bind (DbCall.Plain.call trivial) (fun found => ?_)))
    split
    · exact Failing.All.pure
    · exact Failing.All.throw
  | WorkspaceUsage =>
    refine hplain (Failing.All.map
      (Task.all_guarded (fun _ => Failing.All.bind (DbCall.Plain.call trivial) (fun raw => ?_))))
    cases raw with
    | some raw => exact Failing.All.pure
    | none => exact Failing.All.throw
  | Stat path follow_symlinks =>
    refine hplain (Failing.All.map
      (Task.all_guarded (fun _ => Failing.All.bind (DbCall.Plain.call trivial)
      (fun outcome => ?_))))
    cases outcome with
    | Found row => trivial
    | _ => exact Failing.All.throw
  | Read path options =>
    refine hplain (Failing.All.bind
      (Task.all_guarded (fun _ => DbCall.Plain.of_reads (DbCall.Reads.read path options)))
      (fun file =>
      Failing.All.bind (Failing.All.lift ?_) (fun _ => Failing.All.pure)))
    unfold FileRead.into_stream
    split
    · trivial
    · exact DbCall.Plain.of_reads (@DbCall.Reads.drain ctx.workspace_id _ _)
  | Write path source options =>
    obtain ⟨node, _, hcommitted⟩ :=
      Session.Runs.committed (σ := σ) (Session.write rfl) trivial halone rfl hrun
    exact hcommitted.owned howned
  | WriteAt path offset source options =>
    obtain ⟨node, _, hcommitted⟩ :=
      Session.Runs.committed (σ := σ) (Session.write_at (hread path)) trivial halone rfl hrun
    exact hcommitted.owned howned
  | Append path source options =>
    obtain ⟨node, _, hcommitted⟩ :=
      Session.Runs.committed (σ := σ) (Session.append (hread path)) trivial halone rfl hrun
    exact hcommitted.owned howned
  | Truncate path length options =>
    obtain ⟨node, _, hcommitted⟩ :=
      Session.Runs.committed (σ := σ) (Session.truncate (hread path)) trivial halone rfl hrun
    exact hcommitted.owned howned
  | Perform operation =>
    have hserve : (Request.Perform operation).alone rt ctx w = _ := Task.run_map
    rw [hserve, perform_run] at h ⊢
    split at h
    · rename_i hcapability
      rw [if_pos hcapability]
      cases hstep : execute_batch_operation rt ctx.workspace_id operation (actor_json rt ctx) w with
      | error fault => exact howned
      | ok result =>
        obtain ⟨outcome, w'⟩ := result
        rw [hstep] at h
        cases outcome with
        | Result result => exact execute_batch_operation_owned hw.wf howned hstep
        | Failed err => cases h
    · cases h
  | Batch operations =>
    have hserve : (Request.Batch operations).alone rt ctx w = _ := Task.run_map
    rw [hserve, batch_run] at h ⊢
    cases hloop : batch_loop rt ctx (actor_json rt ctx) 0 [] operations w with
    | error fault => exact howned
    | ok result =>
      obtain ⟨outcome, w'⟩ := result
      cases outcome with
      | Completed results => exact batch_loop_owned hw.wf howned hloop
      | Failed index err => exact howned
  | Changes after page =>
    refine hplain (Failing.All.map (Task.all_guarded (fun _ => Failing.All.bind ?_ (fun _ =>
      Failing.All.bind (DbCall.Plain.call trivial) (fun _ => trivial)))))
    trivial

/-- Requests that are served one after another, each with success. -/
def Succeed (rt : Runtime) : List (RequestContext × Request) → World → Prop
  | [], _ => True
  | (ctx, request) :: rest, w =>
    (∃ reply, (request.alone rt ctx w).1 = .ok reply) ∧ Succeed rt rest (request.alone rt ctx w).2

/-- However many requests are served one after another, as long as each succeeds
every content is whole and one file's own. -/
theorem Succeed.contents_owned {rt : Runtime} {requests : List (RequestContext × Request)}
    (h : Succeed rt requests ⟨Db.empty, 0⟩) :
    (serveAll rt requests ⟨Db.empty, 0⟩).db.Accounted := by
  have hall : ∀ requests w, Reachable rt w → w.db.Owned → Succeed rt requests w →
      (serveAll rt requests w).db.Owned := by
    intro requests
    induction requests with
    | nil => exact fun _ _ howned _ => howned
    | cons first rest ih =>
      rintro w hreachable howned ⟨⟨reply, hreply⟩, hrest⟩
      exact ih _ (hreachable.serve first.1 first.2)
        (Request.alone_owned hreachable.sound howned hreply) hrest
  have howned : Db.empty.Owned := fun g row hrow => by simp [Db.empty, Db.generation?] at hrow
  exact (hall requests _ (Reachable.empty rt) howned h).accounted
    (((Reachable.empty rt).serveAll requests).sound.wf.contents)

instance Succeed.decidable (rt : Runtime) :
    (requests : List (RequestContext × Request)) → (w : World) → Decidable (Succeed rt requests w)
  | [], _ => instDecidableTrue
  | (ctx, request) :: rest, w =>
    have : Decidable (∃ reply, (request.alone rt ctx w).1 = .ok reply) :=
      match (request.alone rt ctx w).1 with
      | .ok reply => .isTrue ⟨reply, rfl⟩
      | .error _ => .isFalse (fun ⟨_, h⟩ => by cases h)
    have := decidable rt rest (request.alone rt ctx w).2
    instDecidableAnd

/-- A file is written, copied into a directory that is trashed and purged, and
copied over another file. -/
def shufflingRequests : List (RequestContext × Request) :=
  [(.trusted 0, .CreateWorkspace {}),
    (.trusted 0, .Write (.named [['f']]) [.ok [1, 2, 3]] {}),
    (.trusted 0, .Perform (.Mkdir (.named [['a']]) {})),
    (.trusted 0, .Perform (.Copy (.named [['f']])
      (.named [['a'], ['g']]) {})),
    (.trusted 0, .Perform (.Touch (.named [['h']]) {})),
    (.trusted 0, .Perform (.Trash (.named [['a']]) {})),
    (.trusted 0, .Perform (.Purge 17)),
    (.trusted 0, .Batch [.Copy (.named [['f']]) (.named [['h']])
      { overwrite := true }])]

/-- They all succeed, and two contents are left. -/
theorem shuffling_accounted : Succeed Runtime.counting shufflingRequests ⟨Db.empty, 0⟩ ∧
    (serveAll Runtime.counting shufflingRequests ⟨Db.empty, 0⟩).db.content_generations.rows.length =
    2 ∧
    (serveAll Runtime.counting shufflingRequests ⟨Db.empty, 0⟩).db.Accounted := by
  have hsucceed : Succeed Runtime.counting shufflingRequests ⟨Db.empty, 0⟩ := by decide +kernel
  exact ⟨hsucceed, by decide +kernel, hsucceed.contents_owned⟩

end fslite
