import Fslite.Sqlite.Run.Authority

namespace fslite

open mutate

/-- Nothing stored is discarded, and no workspace is emptied. -/
def Policy.keeping : Policy :=
  { Policy.any with discard := fun _ _ => False, clear := fun _ _ => False }

/-- The operation is a copy or a move that passes its checks and has something to
overwrite. -/
def Overwrites (db : Db) (ws : WorkspaceId) : BatchOperation → Prop
  | .Copy source_path target options => ∃ source parent name existing,
    Copies db ws source_path target options source parent name (some existing)
  | .Move source_path target options => ∃ source parent name existing,
    Moves db ws source_path target options source parent name (some existing)
  | _ => False

theorem Policy.keeping_permits {db : Db} {ws : WorkspaceId} {operation : BatchOperation}
    (hcapability : required_capability operation ≠ .Delete)
    (hspares : ¬ Overwrites db ws operation) :
    Policy.keeping.Permits ws db operation := by
  cases operation with
  | Copy source_path target options =>
    exact fun source parent name existing hcopies =>
      hspares ⟨source, parent, name, existing, hcopies⟩
  | Move source_path target options =>
    intro source parent name existing hmoves
    refine ⟨fun occupant hocc => hspares ⟨source, parent, name, occupant, hocc ▸ hmoves⟩, fun _ =>
      trivial⟩
  | Remove => exact absurd rfl hcapability
  | Trash => exact fun _ _ => trivial
  | Restore => exact fun _ _ _ _ _ => trivial
  | Purge => exact absurd rfl hcapability
  | _ => trivial

/-- Changes that discard nothing keep every node. -/
theorem Edit.node_stays {fresh : Uuid → Prop} {mine : GenerationId → Prop} {db db' : Db}
    (h : Edit Policy.keeping fresh mine db db') : ∀ n ∈ db.nodes, ∃ m ∈ db'.nodes, m.id = n.id := by
  have hmodify : ∀ {x : NodeId} {u : Table.Update NodeRow.key}, ∀ n ∈ db.nodes,
      ∃ m ∈ db.nodes.modify x u, m.id = n.id := by
    intro x u n hn
    refine ⟨_, Table.mem_modify.mpr ⟨n, hn, rfl⟩, ?_⟩
    split
    · exact u.key_apply n
    · rfl
  cases h with
  | insert x p hf hp hdir hopen hup hws hsegment hfree hactive hrevision hfile hcontent hins =>
    exact fun n hn => ⟨n, (Table.mem_insert hins).mpr (Or.inl hn), rfl⟩
  | revise | replace | relocate | trash | restore => exact hmodify
  | purge x hx hroot hkind hpolicy => exact hpolicy.elim
  | enter row root hroot hid hseq now hws hins => exact fun n hn =>
    ⟨n, (Table.mem_insert hins).mpr (Or.inl hn), rfl⟩
  | reset ws row hrow hpolicy => exact hpolicy.elim
  | erase ws hpolicy => exact hpolicy.elim
  | _ => exact fun n hn => ⟨n, hn, rfl⟩

theorem Edits.node_stays {fresh : Uuid → Prop} {mine : GenerationId → Prop} {db db' : Db}
    (h : Edits Policy.keeping fresh mine db db') :
    ∀ n ∈ db.nodes, ∃ m ∈ db'.nodes, m.id = n.id := by
  induction h with
  | refl => exact fun n hn => ⟨n, hn, rfl⟩
  | tail _ hedit ih =>
    intro n hn
    obtain ⟨x, hx, hid⟩ := ih n hn
    obtain ⟨m, hm, hid'⟩ := hedit.node_stays x hx
    exact ⟨m, hm, hid'.trans hid⟩

theorem Foreign.node_stays {rt : Runtime} {w w' : World}
    (h : Relation.ReflTransGen (Foreign rt Policy.keeping none) w w') :
    ∀ n ∈ w.db.nodes, ∃ m ∈ w'.db.nodes, m.id = n.id := by
  induction h with
  | refl => exact fun n hn => ⟨n, hn, rfl⟩
  | tail _ hstep ih =>
    obtain ⟨_, _, _, _, heffect⟩ := hstep
    intro n hn
    obtain ⟨x, hx, hid⟩ := ih n hn
    obtain ⟨m, hm, hid'⟩ := heffect.edits.node_stays x hx
    exact ⟨m, hm, hid'.trans hid⟩

/-- A request of a client whose context lacks a capability. -/
def ServedWithout (rt : Runtime) (capability : Capability)
    (p : Prog DbCall.Res (Except FsError Reply)) : Prop :=
  ∃ ctx request, ctx.has_capability capability = false ∧ p = (Request.serve rt ctx request).run

namespace DbCall

/-- What the requests of a context without a capability do not ask for. -/
def Lacks (capability : Capability) : DbCall → Prop
  | .transaction _ operation _ => required_capability operation ≠ capability
  | .batch ctx _ _ => ctx.has_capability capability = false
  | _ => True

/-- Whether the call leaves the workspaces themselves alone. -/
def KeepsWorkspaces : DbCall → Prop
  | .reset_workspace _ => False
  | .delete_workspace _ => False
  | _ => True

/-- Whether the context of a batch has the capabilities for all its operations;
any other call is made with the capability it needs. -/
def Capable : DbCall → Prop
  | .batch ctx operations _ => ∀ operation ∈ operations,
    ctx.has_capability (required_capability operation) = true
  | _ => True

end DbCall

theorem RequestContext.Authorizes.lacks {ctx : RequestContext} {capability : Capability}
    {call : DbCall} (h : ctx.Authorizes call) (hlacks : ctx.has_capability capability = false) :
    call.Lacks capability := by
  cases call with
  | transaction ws operation actor_json =>
    rintro rfl
    exact Bool.false_ne_true (hlacks.symm.trans h.2)
  | batch ctx' operations actor_json => exact (show ctx' = ctx from h) ▸ hlacks
  | _ => trivial

/-- Without the capability to delete and without overwriting, nothing is discarded. -/
theorem Policy.keeping_allows {rt : Runtime} {w : World} {call : DbCall}
    (hkeeps : call.KeepsWorkspaces) (hlacks : call.Lacks .Delete)
    (hspares : call.Capable → ∀ ws db operation, call.Performs rt w ws db operation →
    ¬ Overwrites db ws operation) :
    Policy.keeping.Allows rt w call := by
  cases call with
  | copy_chunk_range => exact fun hlaid => hlaid.elim
  | transaction ws operation actor_json =>
    exact Policy.keeping_permits hlacks (hspares trivial ws w.db operation ⟨rfl, rfl, rfl⟩)
  | batch ctx operations actor_json =>
    intro hcapable
    refine Policy.permitsAll_of_performs (fun db operation hperforms => Policy.keeping_permits ?_
      (hspares hcapable ctx.workspace_id db operation ⟨rfl, hperforms⟩))
    intro hdelete
    have hhas := hcapable operation hperforms.mem
    rw [hdelete, show ctx.has_capability .Delete = false from hlacks] at hhas
    cases hhas
  | reset_workspace ws => exact hkeeps.elim
  | delete_workspace ws => exact hkeeps.elim
  | _ => trivial

/-- The steps of a run that deletes and empties no workspace and overwrites nothing. -/
def Sparing (rt : Runtime) (c : System) (call : DbCall) : Prop :=
  call.KeepsWorkspaces ∧
    (call.Capable → ∀ ws db operation, call.Performs rt c.state ws db operation →
      ¬ Overwrites db ws operation)

/-- Without the capability to delete no node is ever deleted: in every run of
clients that lack it, in which no workspace is reset or deleted and no copy or
move overwrites anything, what is stored at some point stays. -/
theorem nodes_stay {rt : Runtime} {c d : System}
    (hc : Steps (DbCall.exec rt) (ServedWithout rt .Delete)
    (fun c _ o => Sparing rt c o) System.empty c)
    (hd : Steps (DbCall.exec rt) (ServedWithout rt .Delete) (fun c _ o => Sparing rt c o) c d) :
    ∀ n ∈ c.state.db.nodes, ∃ m ∈ d.state.db.nodes, m.id = n.id := by
  have hserved : ∀ p, ServedWithout rt .Delete p → p.All (DbCall.Lacks .Delete) := by
    rintro p ⟨ctx, request, hlacks, rfl⟩
    exact Prog.All.mono (Authorized.serve rt request) (fun o h => h.lacks hlacks)
  have hallowed : ∀ {a b : System}, (∀ p ∈ a.procs, p.All (DbCall.Lacks .Delete)) →
      Steps (DbCall.exec rt) (ServedWithout rt .Delete) (fun c _ o => Sparing rt c o) a b →
      Steps (DbCall.exec rt) (Served rt) (fun c _ o => Policy.keeping.Allows rt c.state o) a b ∧
        ∀ p ∈ b.procs, p.All (DbCall.Lacks .Delete) := by
    intro a b hprocs h
    obtain ⟨h, hprocs⟩ := h.all hserved hprocs
    refine ⟨h.mono ?_ (fun c i o hmay => Policy.keeping_allows hmay.1.1 hmay.2 hmay.1.2), hprocs⟩
    rintro p ⟨ctx, request, _, rfl⟩
    exact ⟨ctx, request, rfl⟩
  obtain ⟨hreached, hprocs⟩ := hallowed (fun p hp => by cases hp) hc
  obtain ⟨hsteps, _⟩ := hallowed hprocs hd
  exact Foreign.node_stays (Reached.steps_foreign hreached hsteps)

/-- A client that may read and write only. -/
def writer : RequestContext := ⟨0, [], [.Read, .Write]⟩

/-- The directories `/a` and `/b`. -/
def writerRequests : List (RequestContext × Request) :=
  [(writer, .CreateWorkspace {}), (writer, .Perform (.Mkdir (.named [['a']]) {})),
    (writer, .Perform (.Mkdir (.named [['b']]) {}))]

theorem writer_served {request : Request} :
    ServedWithout Runtime.counting .Delete (request.serve Runtime.counting writer).run :=
  ⟨writer, request, rfl, rfl⟩

theorem writer_steps {may : System → Nat → DbCall → Prop}
    (hcreate : ∀ c i options, may c i (.create_workspace options))
    (hmkdir : ∀ c i path options actor_json, may c i
    (.transaction 0 (.Mkdir path options) actor_json)) :
    ∃ ps, Steps (DbCall.exec Runtime.counting)
      (ServedWithout Runtime.counting .Delete) may System.empty
      ⟨serveAll Runtime.counting writerRequests ⟨Db.empty, 0⟩, ps⟩ := by
  refine serveAll_steps (fun r hr => ?_) (fun r hr w => ?_) _ _
  all_goals
    simp only [writerRequests, List.mem_cons, List.not_mem_nil, or_false] at hr
    obtain rfl | rfl | rfl := hr
  · exact writer_served
  · exact writer_served
  · exact writer_served
  · exact Task.along_map ⟨fun _ _ => hcreate _ _ _, trivial⟩
  · exact along_perform (fun _ _ => hmkdir _ _ _ _ _)
  · exact along_perform (fun _ _ => hmkdir _ _ _ _ _)

theorem writer_performs {may : System → Nat → DbCall → Prop} {w : World}
    (operation : BatchOperation)
    (h : ∀ c i actor_json, c.state = w → may c i (.transaction 0 operation actor_json))
    (ps : List (Prog DbCall.Res (Except FsError Reply))) :
    ∃ qs, Steps (DbCall.exec Runtime.counting) (ServedWithout Runtime.counting .Delete) may ⟨w, ps⟩
      ⟨serveAll Runtime.counting [(writer, .Perform operation)] w, qs⟩ :=
  ⟨_, Steps.arrive_finish (show ServedWithout _ _
    ((Request.Perform operation).serve _ writer).run from writer_served)
    (along_perform (fun _ => h _ _ _ rfl))⟩

/-- Nothing has the name where the path would put a copied or a moved node. -/
def Db.freeTarget (db : Db) (target : VirtualPath) : Bool :=
  match target.parent, target.name with
  | some up, some name =>
    match resolve.resolve_following db 0 up true with
    | .Found parent => (resolve.fetch_child db 0 parent.id name).isNone
    | _ => true
  | _, _ => true

theorem mutate.Destined.not_free {db : Db} {target : VirtualPath} {overwrite : Bool}
    {parent existing : RawNode} {name : Text}
    (h : Destined db 0 target overwrite parent name (some existing)) :
    db.freeTarget target = false := by
  obtain ⟨parent_path, hup, hparent⟩ := h.found
  simp only [Db.freeTarget, hup, h.named, hparent, h.occupant, Option.isNone_some]

/-- A move or a copy onto a free name meets the condition. -/
theorem writer_relocates {w : World} {target : VirtualPath} (h : w.db.freeTarget target = true)
    {operation : BatchOperation} (hoperation : (∃ source options, operation =
      .Move source target options) ∨ ∃ source options, operation = .Copy source target options)
    (ps : List (Prog DbCall.Res (Except FsError Reply))) :
    ∃ qs, Steps (DbCall.exec Runtime.counting) (ServedWithout Runtime.counting .Delete)
      (fun c _ o => Sparing Runtime.counting c o) ⟨w, ps⟩
      ⟨serveAll Runtime.counting [(writer, .Perform operation)] w, qs⟩ := by
  refine writer_performs operation (fun c _ actor_json hstate => ⟨trivial,
    fun _ ws db operation' hperforms => ?_⟩) ps
  obtain ⟨rfl, rfl, rfl⟩ := hperforms
  rw [← hstate] at h
  obtain ⟨source, options, rfl⟩ | ⟨source, options, rfl⟩ := hoperation
  · rintro ⟨source, parent, name, existing, hmoves⟩
    rw [hmoves.dest.not_free] at h
    cases h
  · rintro ⟨source, parent, name, existing, hcopies⟩
    rw [hcopies.dest.not_free] at h
    cases h

def moveIntoSibling : BatchOperation :=
  .Move (.named [['a']]) (.named [['b'], ['a']]) { overwrite := true }

def copySibling : BatchOperation :=
  .Copy (.named [['b']]) (.named [['c']]) { recursive := true, overwrite := true }

/-- Moving `/a` into `/b` and copying that to `/c` keeps what is there. -/
theorem writer_nodes_stay : ∃ c d : System, c.state = serveAll Runtime.counting writerRequests
    ⟨Db.empty, 0⟩ ∧
    d.state = serveAll Runtime.counting [(writer, .Perform copySibling)]
      (serveAll Runtime.counting [(writer, .Perform moveIntoSibling)] c.state) ∧
    ∀ n ∈ c.state.db.nodes, ∃ m ∈ d.state.db.nodes, m.id = n.id := by
  have hsteps : ∃ ps, Steps (DbCall.exec Runtime.counting) (ServedWithout Runtime.counting .Delete)
      (fun c _ o => Sparing Runtime.counting c o) System.empty
        ⟨serveAll Runtime.counting writerRequests ⟨Db.empty, 0⟩, ps⟩ := by
    refine writer_steps (fun _ _ _ => ⟨trivial, fun _ _ _ _ hperforms => hperforms.elim⟩) ?_
    refine fun c _ path options actor_json => ⟨trivial, fun _ ws db operation hperforms => ?_⟩
    obtain ⟨_, _, rfl⟩ := hperforms
    exact id
  obtain ⟨ps, hc⟩ := hsteps
  have hmove : (serveAll Runtime.counting writerRequests ⟨Db.empty, 0⟩).db.freeTarget
      (.named [['b'], ['a']]) = true := by decide +kernel
  have hcopy : (serveAll Runtime.counting [(writer, .Perform moveIntoSibling)]
      (serveAll Runtime.counting writerRequests ⟨Db.empty, 0⟩)).db.freeTarget
        (.named [['c']]) = true := by decide +kernel
  obtain ⟨qs, hmoved⟩ := @writer_relocates _ _ hmove moveIntoSibling (Or.inl ⟨_, _, rfl⟩) ps
  obtain ⟨rs, hcopied⟩ := @writer_relocates _ _ hcopy copySibling (Or.inr ⟨_, _, rfl⟩) qs
  have hstay := nodes_stay hc (hmoved.trans hcopied)
  refine ⟨⟨_, ps⟩, ⟨_, rs⟩, ?_, ?_, hstay⟩
  · rfl
  · dsimp only

/-- Moving `/a` over `/b` deletes the latter, whatever the client may do. -/
theorem writer_deletes : ∃ c d : System,
    Steps (DbCall.exec Runtime.counting) (ServedWithout Runtime.counting .Delete)
      (fun _ _ o => o.KeepsWorkspaces)
      System.empty c ∧
    Steps (DbCall.exec Runtime.counting) (ServedWithout Runtime.counting .Delete)
      (fun _ _ o => o.KeepsWorkspaces) c d ∧
    ∃ n ∈ c.state.db.nodes, ∀ m ∈ d.state.db.nodes, m.id ≠ n.id := by
  have hsteps : ∃ ps, Steps (DbCall.exec Runtime.counting) (ServedWithout Runtime.counting .Delete)
      (fun _ _ o => o.KeepsWorkspaces) System.empty
        ⟨serveAll Runtime.counting writerRequests ⟨Db.empty, 0⟩, ps⟩ :=
    writer_steps (fun _ _ _ => trivial) (fun _ _ _ _ _ => trivial)
  obtain ⟨ps, hc⟩ := hsteps
  have hmove : ∃ qs, Steps (DbCall.exec Runtime.counting) (ServedWithout Runtime.counting .Delete)
      (fun _ _ o => o.KeepsWorkspaces) ⟨serveAll Runtime.counting writerRequests ⟨Db.empty, 0⟩, ps⟩
      ⟨serveAll Runtime.counting [(writer, .Perform (.Move (.ofSegments [['a']] (by decide))
        (.ofSegments [['b']] (by decide)) { overwrite := true }))]
        (serveAll Runtime.counting writerRequests ⟨Db.empty, 0⟩), qs⟩ :=
    writer_performs _ (fun _ _ _ _ => trivial) ps
  obtain ⟨qs, hd⟩ := hmove
  refine ⟨_, _, hc, hd, ?_⟩
  show ∃ n ∈ (serveAll Runtime.counting writerRequests ⟨Db.empty, 0⟩).db.nodes.rows,
    ∀ m ∈ (serveAll Runtime.counting [(writer, .Perform (.Move (.ofSegments [['a']] (by decide))
      (.ofSegments [['b']] (by decide)) { overwrite := true }))]
      (serveAll Runtime.counting writerRequests ⟨Db.empty, 0⟩)).db.nodes.rows, m.id ≠ n.id
  decide +kernel

end fslite
