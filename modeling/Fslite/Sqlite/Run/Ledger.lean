import Fslite.Sqlite.Edit.Record
import Fslite.Sqlite.Run.Location
import Fslite.Sqlite.Run.Pages

namespace fslite

open resolve content mutate trash

/-- The trash entry in the result of an operation. -/
def BatchResult.entries : BatchResult → List TrashEntry
  | .Trash entry => [entry]
  | _ => []

def Reply.entries : Reply → List TrashEntry
  | .Result result => result.entries
  | .Results results => results.flatMap BatchResult.entries
  | _ => []

/-- The trash entries that a request has returned. -/
def returned_entries : Except FsError Reply → List TrashEntry
  | .ok reply => reply.entries
  | .error _ => []

/-- The entry that is made of the outcome of a trashing. -/
def BatchOperation.entries (rt : Runtime) (actor_json : Text) :
    (operation : BatchOperation) → Outcome operation → List TrashEntry
  | .Trash path _, outcome =>
    (trash_result outcome path (rt.actorMetadata actor_json)).toOption.toList
  | _, _ => []

/-- The entries that are made of the answer of a call. -/
def DbCall.entries (rt : Runtime) : (o : DbCall) → DbCall.Res o → List TrashEntry
  | .transaction _ operation actor_json, .ok outcome => operation.entries rt actor_json outcome
  | .batch _ _ _, .ok (.Completed results) => results.flatMap BatchResult.entries
  | _, _ => []

namespace DbCall

/-- The calls from whose answers no trash entries are made. -/
def Quiet : DbCall → Prop
  | .transaction _ (.Trash _ _) _ => False
  | .batch _ _ _ => False
  | _ => True

variable {rt : Runtime} {A : Type}

theorem Quiet.entries {o : DbCall} (h : o.Quiet) (r : DbCall.Res o) : o.entries rt r = [] := by
  cases o with
  | transaction ws operation actor_json =>
    cases r with
    | error e => rfl
    | ok outcome =>
      cases operation with
      | Trash => exact h.elim
      | _ => rfl
  | batch => exact h.elim
  | _ => rfl

namespace Quiet

theorem of_reads {ws : WorkspaceId} {p : Prog DbCall.Res A} (h : p.All (Reads ws)) :
    p.All Quiet := by
  refine Prog.All.mono h (fun o hreads => ?_)
  cases o with
  | resolve | fetch_chunk_bytes => trivial
  | _ => exact hreads.elim

theorem of_stages {ws : WorkspaceId} {p : Prog DbCall.Res A} (h : p.All (Stages ws)) :
    p.All Quiet := by
  refine Prog.All.mono h (fun o hstages => ?_)
  cases o with
  | transaction | batch => exact hstages.elim
  | _ => trivial

theorem call {o : DbCall} (h : o.Quiet) : Failing.All Quiet (Task.call o) := ⟨h, fun _ => trivial⟩

/-- A method that makes one call between checks. -/
theorem transact {ctx : RequestContext} {capability : Capability} {subject : Text} {o : DbCall}
    {result : o.Answer → FsResult A} (h : o.Quiet) : Failing.All Quiet (do
      require_capability ctx capability subject
      let outcome ← Task.call o
      Task.ofResult (result outcome)) :=
  Task.all_guarded (fun _ => Failing.All.bind (call h) (fun _ => trivial))

end Quiet

end DbCall

/-- The entries that a request returns are those that are made of the answer to its last call. -/
def RelaysEntries (rt : Runtime) (p : Task Reply) : Prop :=
  p.run.said returned_entries = [] ∧ p.run.Relays (DbCall.entries rt) returned_entries

namespace RelaysEntries

variable {rt : Runtime} {ctx : RequestContext} {A : Type}

theorem pure {reply : Reply} (h : reply.entries = []) : RelaysEntries rt (pure reply) :=
  ⟨h, trivial⟩

theorem throw {e : FsError} : RelaysEntries rt (throw e) := ⟨rfl, trivial⟩

theorem bind {p : Task A} {f : A → Task Reply} (hp : Failing.All DbCall.Quiet p)
    (hf : ∀ a, RelaysEntries rt (f a)) :
    RelaysEntries rt (p >>= f) := by
  refine Prog.Relays.bind (Prog.All.mono hp (fun o h => h.entries)) (fun r => ?_)
  cases r with
  | ok a => exact hf a
  | error e => exact throw

theorem map {p : Task A} {f : A → Reply} (hp : Failing.All DbCall.Quiet p)
    (hf : ∀ a, (f a).entries = []) :
    RelaysEntries rt (f <$> p) := by
  refine Prog.Relays.bind (Prog.All.mono hp (fun o h => h.entries)) (fun r => ?_)
  cases r with
  | ok a => exact pure (hf a)
  | error e => exact throw

/-- A request that makes its reply of the answer to one call. -/
theorem of_call {o : DbCall} {f : A → Reply} {result : o.Answer → FsResult A}
    (h : ∀ r : DbCall.Res o, returned_entries ((r.bind result).map f) = o.entries rt r) :
    RelaysEntries rt (f <$> (Task.call o >>= fun answer => Task.ofResult (result answer))) := by
  refine ⟨rfl, fun r => ?_⟩
  have hr := h r
  cases r with
  | error e => exact ⟨hr, trivial⟩
  | ok answer =>
    show Prog.said _ (Prog.bind (Prog.ret (result answer)) _) = _ ∧
      Prog.Relays _ _ (Prog.bind (Prog.ret (result answer)) _)
    rw [show Except.bind (Except.ok answer) result = result answer from rfl] at hr
    revert hr
    cases result answer with
    | error e => exact fun hr => ⟨hr, trivial⟩
    | ok a => exact fun hr => ⟨hr, trivial⟩

theorem perform (operation : BatchOperation) :
    RelaysEntries rt ((Request.Perform operation).serve rt ctx) := by
  cases operation with
  | Trash path options =>
    simp only [Request.serve, SqliteFileSystem.perform, Functor.map_map, SqliteFileSystem.trash]
    unfold require_capability
    split
    · refine of_call (fun r => ?_)
      cases r with
      | error e => rfl
      | ok outcome =>
        show returned_entries ((trash_result outcome path _).map _) =
          (trash_result outcome path _).toOption.toList
        cases trash_result outcome path (rt.actorMetadata (actor_json rt ctx)) <;> rfl
    · exact throw
  | Mkdir path options =>
    simp only [Request.serve, SqliteFileSystem.perform, Functor.map_map]
    refine map (Task.all_guarded (fun _ => ?_)) (fun _ => rfl)
    split
    · exact Failing.All.throw
    · exact Failing.All.bind (DbCall.Quiet.call trivial) (fun _ => trivial)
  | Symlink target link options =>
    simp only [Request.serve, SqliteFileSystem.perform, Functor.map_map]
    refine map (Task.all_guarded (fun _ => ?_)) (fun _ => rfl)
    split
    · exact Failing.All.throw
    · exact Failing.All.bind (DbCall.Quiet.call trivial) (fun _ => trivial)
  | _ =>
    simp only [Request.serve, SqliteFileSystem.perform, Functor.map_map]
    exact map (DbCall.Quiet.transact trivial) (fun _ => rfl)

theorem serve (request : Request) : RelaysEntries rt (request.serve rt ctx) := by
  cases request with
  | CreateWorkspace options => exact map (DbCall.Quiet.call trivial) (fun _ => rfl)
  | DeleteWorkspace ws => exact map (DbCall.Quiet.call trivial) (fun _ => rfl)
  | ResetWorkspace ws =>
    refine map (Failing.All.bind (DbCall.Quiet.call trivial) (fun found => ?_)) (fun _ => rfl)
    split
    · exact Failing.All.pure
    · exact Failing.All.throw
  | WorkspaceUsage =>
    refine map (Task.all_guarded
      (fun _ => Failing.All.bind (DbCall.Quiet.call trivial) (fun raw => ?_))) (fun _ => rfl)
    cases raw with
    | some raw => exact Failing.All.pure
    | none => exact Failing.All.throw
  | Stat path follow_symlinks =>
    refine map (Task.all_guarded
      (fun _ => Failing.All.bind (DbCall.Quiet.call trivial) (fun outcome => ?_))) (fun _ => rfl)
    cases outcome with
    | Found row => exact (trivial : Failing.All DbCall.Quiet (Task.ofResult row.into_node))
    | _ => exact Failing.All.throw
  | Read path options =>
    refine bind (Task.all_guarded (fun _ => DbCall.Quiet.of_reads (DbCall.Reads.read path options)))
      (fun file => bind ?_ (fun _ => pure rfl))
    refine Failing.All.lift ?_
    unfold FileRead.into_stream
    split
    · trivial
    · exact DbCall.Quiet.of_reads (@DbCall.Reads.drain ctx.workspace_id _ _)
  | Write path source options =>
    exact map (Task.all_guarded (fun _ => DbCall.Quiet.of_stages DbCall.Stages.write))
      (fun _ => rfl)
  | WriteAt path offset source options =>
    exact map (Task.all_guarded (fun _ => DbCall.Quiet.of_stages DbCall.Stages.write_at_impl))
      (fun _ => rfl)
  | Append path source options =>
    refine map (Task.all_guarded (fun _ => @DbCall.Quiet.of_stages _ ctx.workspace_id _ ?_))
      (fun _ => rfl)
    exact Failing.All.bind (DbCall.Stages.resolve_existing_file _)
      (fun _ => DbCall.Stages.write_at_impl)
  | Truncate path length options =>
    exact map (Task.all_guarded (fun _ => DbCall.Quiet.of_stages DbCall.Stages.write_at_impl))
      (fun _ => rfl)
  | Perform operation => exact perform operation
  | Batch operations =>
    refine of_call (fun r => ?_)
    cases r with
    | error e => rfl
    | ok outcome =>
      cases outcome with
      | Completed results => rfl
      | Failed index error => rfl
  | Changes after page =>
    refine map (Task.all_guarded
      (fun _ => Failing.All.bind ?_ (fun _ => Failing.All.bind (DbCall.Quiet.call trivial)
      (fun _ => ?_))))
      (fun _ => rfl)
    · exact trivial
    · exact trivial

end RelaysEntries

/-- The row with the highest key comes first, sorted by falling keys. -/
theorem head?_insertionSort {A : Type} (key : A → Nat) {rows : List A} {a : A} (ha : a ∈ rows)
    (hmax : ∀ x ∈ rows, x = a ∨ key x < key a) :
    (rows.insertionSort (fun x y => key y ≤ key x)).head? = some a := by
  have hsorted := List.pairwise_insertionSort (fun x y => key y ≤ key x) rows
  have hmem : a ∈ rows.insertionSort (fun x y => key y ≤ key x) := (List.mem_insertionSort _).mpr ha
  cases hrows : rows.insertionSort (fun x y => key y ≤ key x) with
  | nil =>
    rw [hrows] at hmem
    cases hmem
  | cons first rest =>
    rw [hrows] at hsorted hmem
    have hfirst : first ∈ rows := (List.mem_insertionSort _).mp (hrows ▸ List.mem_cons_self)
    obtain rfl | hmem := List.mem_cons.mp hmem
    · rfl
    · have hle := (List.pairwise_cons.mp hsorted).1 a hmem
      obtain rfl | hlt := hmax first hfirst
      · rfl
      · omega

namespace trash

variable {rt : Runtime} {db db' : Db} {ws ws' : WorkspaceId} {id : NodeId}

/-- Rows that record no trashing of the node do not matter to its entry. -/
theorem context_of_feeds {rows : List ChangeRow} (h : Feeds ws' rows db db')
    (hrows : ∀ c ∈ rows, c.kind = .Trashed → c.node_id ≠ some id) :
    fetch_trash_change_context db' ws id = fetch_trash_change_context db ws id := by
  have hnone : rows.filter (fun c => c.workspace_id = ws ∧ c.node_id = some id ∧
      c.kind = .Trashed) = [] := by
    refine List.filter_eq_nil_iff.mpr (fun c hc hboth => ?_)
    obtain ⟨_, hnode, hkind⟩ := of_decide_eq_true hboth
    exact hrows c hc hkind hnode
  simp only [fetch_trash_change_context, h.changes, List.filter_append, hnone, List.append_nil]

/-- Nor do the changes of another workspace. -/
theorem context_of_clear (h : db'.changes = (db.clear ws').changes) (hne : ws ≠ ws') :
    fetch_trash_change_context db' ws id = fetch_trash_change_context db ws id := by
  simp only [fetch_trash_change_context, h, Db.clear, Table.deleteWhere, List.filter_filter]
  congr 3
  refine List.filter_congr (fun c _ => ?_)
  by_cases hws : c.workspace_id = ws
  · simp [hws, hne]
  · simp [hws]

/-- The last row of the feed is the most recent one. -/
theorem context_of_last {c : ChangeRow} (h : Feeds ws [c] db db')
    (hbefore : ∀ x ∈ db.changes, x.workspace_id = ws → x.sequence < c.sequence)
    (hkind : c.kind = .Trashed) (hnode : c.node_id = some id) :
    fetch_trash_change_context db' ws id = some (c.old_path, c.actor_json) := by
  have hrows : ∀ x, x ∈ db'.changes.rows.filter
    (fun x => x.workspace_id = ws ∧ x.node_id = some id ∧ x.kind = .Trashed) →
      x = c ∨ x.sequence < c.sequence := by
    intro x hx
    obtain ⟨hx, hboth⟩ := List.mem_filter.mp hx
    rw [h.changes, List.mem_append, List.mem_singleton] at hx
    exact hx.symm.imp_right (fun hx => hbefore x hx (of_decide_eq_true hboth).1)
  have hc : c ∈ db'.changes.rows.filter
      (fun x => x.workspace_id = ws ∧ x.node_id = some id ∧ x.kind = .Trashed) := by
    refine List.mem_filter.mpr ⟨?_, by simpa [hkind, hnode] using h.owner c List.mem_cons_self⟩
    rw [h.changes]
    exact List.mem_append_right _ List.mem_cons_self
  rw [fetch_trash_change_context, head?_insertionSort ChangeRow.sequence hc hrows, Option.map_some]

end trash

/-- The trash and the entries that have been returned: each record has one of them
as its entry, and all of them are different. -/
structure Ledger (rt : Runtime) (w : World) (said : TrashEntry → Prop) : Prop where
  record : ∀ t ∈ w.db.trash, ∃ e, said e ∧ entry rt w.db t.workspace_id t = .ok e
  time : ∀ t ∈ w.db.trash, ∀ n ∈ w.db.nodes, n.id = t.node_id →
    n.trashed_at_ms = some t.deleted_at_ms
  drawn : ∀ e, said e → Drawn rt 0 w.tick e.id
  distinct : ∀ e e', said e → said e' → e.id = e'.id → e = e'

/-- What the entry of a record is made of is still there. -/
structure Rests (db db' : Db) (t : TrashRow) : Prop where
  stored : t ∈ db.trash
  node : ∀ n ∈ db.nodes, n.id = t.node_id → n ∈ db'.nodes
  context : fetch_trash_change_context db' t.workspace_id t.node_id =
    fetch_trash_change_context db t.workspace_id t.node_id

theorem Rests.entry {rt : Runtime} {db db' : Db} {t : TrashRow} (h : Rests db db' t)
    (hwf : WellFormed db) :
    entry rt db' t.workspace_id t = entry rt db t.workspace_id t := by
  obtain ⟨n, hn, hid, hws, _⟩ := hwf.trash.record t h.stored
  have hbefore : fetch_by_id_any db t.workspace_id t.node_id = some n.toRawNode :=
    fetch_by_id_any_eq_some.mpr ⟨n, hn, rfl, hws, hid⟩
  have hafter : fetch_by_id_any db' t.workspace_id t.node_id = some n.toRawNode :=
    fetch_by_id_any_eq_some.mpr ⟨n, h.node n hn hid, rfl, hws, hid⟩
  rw [trash.entry, trash.entry, hbefore, hafter, h.context]

theorem Rests.time {db db' : Db} {t : TrashRow} (h : Rests db db' t) (hwf : WellFormed db)
    {time : Int} (htime : ∀ n ∈ db.nodes, n.id = t.node_id → n.trashed_at_ms = some time) :
    ∀ n ∈ db'.nodes, n.id = t.node_id → n.trashed_at_ms = some time := by
  intro m hm hid
  obtain ⟨n, hn, hid', _⟩ := hwf.trash.record t h.stored
  rw [db'.node_ext hm (h.node n hn hid') (hid.trans hid'.symm)]
  exact htime n hn hid'

/-- A node in the trash stays as it is as long as its record is there. -/
theorem Effect.rests {rt : Runtime} {o : Option GenerationId} {w w' : World}
    (h : Effect rt Policy.any o w w') (hwf : WellFormed w.db) (hissued : Issued rt w) {t : TrashRow}
    (ht : t ∈ w.db.trash) (ht' : t ∈ w'.db.trash)
    (hcontext : fetch_trash_change_context w'.db t.workspace_id t.node_id =
    fetch_trash_change_context w.db t.workspace_id t.node_id) :
    Rests w.db w'.db t := by
  refine ⟨ht, fun n hn hid => ?_, hcontext⟩
  exact h.edits.trashed_stays (fun _ hid => Or.inr hid) hwf ht
    (fun hfresh => (hissued.trash t ht).disjoint hfresh) ht' hn hid

namespace Ledger

variable {rt : Runtime} {w w' : World} {said : TrashEntry → Prop}

theorem empty : Ledger rt ⟨Db.empty, 0⟩ (fun _ => False) where
  record t ht := by cases ht
  time t ht := by cases ht
  drawn e he := he.elim
  distinct e e' he := he.elim

theorem congr {said' : TrashEntry → Prop} (h : Ledger rt w said) (hsame : ∀ e, said' e ↔ said e) :
    Ledger rt w said' := by
  rwa [show said' = said from funext (fun e => propext (hsame e))]

/-- Nothing is returned, and every record has been there before. -/
theorem keep (h : Ledger rt w said) (hwf : WellFormed w.db) (htick : w.tick ≤ w'.tick)
    (hrests : ∀ t ∈ w'.db.trash, Rests w.db w'.db t) : Ledger rt w' said where
  record t ht := by
    obtain ⟨e, he, hentry⟩ := h.record t (hrests t ht).stored
    exact ⟨e, he, ((hrests t ht).entry hwf).trans hentry⟩
  time t ht := (hrests t ht).time hwf (h.time t (hrests t ht).stored)
  drawn e he := (h.drawn e he).mono (Nat.le_refl _) htick
  distinct := h.distinct

/-- One more record, whose entry is returned. -/
theorem enter (h : Ledger rt w said) (hwf : WellFormed w.db) (htick : w.tick ≤ w'.tick)
    {t₀ : TrashRow} {e₀ : TrashEntry} (hrests : ∀ t ∈ w'.db.trash, Rests w.db w'.db t ∨ t = t₀)
    (hentry : entry rt w'.db t₀.workspace_id t₀ = .ok e₀)
    (htime : ∀ n ∈ w'.db.nodes, n.id = t₀.node_id → n.trashed_at_ms = some t₀.deleted_at_ms)
    (hdrawn : Drawn rt w.tick w'.tick e₀.id) : Ledger rt w' (fun e => said e ∨ e ∈ [e₀]) where
  record t ht := by
    obtain hrest | rfl := hrests t ht
    · obtain ⟨e, he, hentry⟩ := h.record t hrest.stored
      exact ⟨e, Or.inl he, (hrest.entry hwf).trans hentry⟩
    · exact ⟨e₀, Or.inr List.mem_cons_self, hentry⟩
  time t ht := by
    obtain hrest | rfl := hrests t ht
    · exact hrest.time hwf (h.time t hrest.stored)
    · exact htime
  drawn e he := by
    obtain he | he := he
    · exact (h.drawn e he).mono (Nat.le_refl _) htick
    · rw [List.mem_singleton.mp he]
      exact hdrawn.mono (Nat.zero_le _) (Nat.le_refl _)
  distinct e e' he he' hid := by
    obtain he | he := he <;> obtain he' | he' := he'
    · exact h.distinct e e' he he' hid
    · rw [List.mem_singleton.mp he'] at hid
      exact ((h.drawn e he).disjoint (hid ▸ hdrawn)).elim
    · rw [List.mem_singleton.mp he] at hid
      exact ((h.drawn e' he').disjoint (hid ▸ hdrawn)).elim
    · rw [List.mem_singleton.mp he, List.mem_singleton.mp he']

end Ledger

section operations

variable {rt : Runtime} {w w' : World} {said : TrashEntry → Prop} {ws : WorkspaceId}
  {actor_json : Text}

/-- The policy under which nothing goes into the trash. -/
def Policy.spared : Policy := { Policy.any with trash := fun _ _ => False }

theorem Policy.spared_permits {db : Db} {operation : BatchOperation}
    (h : ∀ path options, operation ≠ .Trash path options) :
    Policy.spared.Permits ws db operation := by
  cases operation with
  | Trash path options => exact absurd rfl (h path options)
  | Copy | Move | Remove | Restore | Purge => simp [Policy.Permits, Policy.spared, Policy.any]
  | _ => trivial

/-- An operation leaves alone what the entries of old records are made of. -/
theorem transact_rests {operation : BatchOperation} {outcome : Outcome operation}
    (hwf : WellFormed w.db) (hissued : Issued rt w)
    (h : transact rt ws actor_json operation w = .ok (outcome, w')) {t : TrashRow}
    (ht : t ∈ w.db.trash) (ht' : t ∈ w'.db.trash) :
    Rests w.db w'.db t := by
  have heffect : Effect rt Policy.any none w w' :=
    transact_effect hwf (fun hlaid => hlaid.elim) (Policy.permits_any _ _ _) h
  obtain ⟨rows, hlocated⟩ := transact_located hwf (heffect.wellFormed hwf).nodes h
  refine heffect.rests hwf hissued ht ht'
    (context_of_feeds hlocated.feeds (fun c hc hkind hnode => ?_))
  -- what a row says to be trashed was not in the trash before
  obtain ⟨path, raw, _, hfound, hraw⟩ := hlocated.departs c hc (by rw [hkind]; rfl)
  obtain ⟨m, rfl, hm⟩ := resolve_following_live hfound
  obtain ⟨n, hn, hid, _, htrashed, _⟩ := hwf.trash.record t ht
  rw [hnode, Option.some.injEq] at hraw
  rw [w.db.node_ext hn hm.mem (hid.trans hraw)] at htrashed
  exact htrashed hm.active

/-- A trashing returns the entry of the record that it makes. -/
theorem trash_tx_ledger {path : VirtualPath} {options : MutationOptions} {outcome : TrashOutcome}
    (hwf : WellFormed w.db) (hissued : Issued rt w)
    (h : trash_tx rt ws path options actor_json w = .ok (outcome, w'))
    (hledger : Ledger rt w said) :
    Ledger rt w' (fun e => said e ∨
      e ∈ (BatchOperation.Trash path options).entries rt actor_json outcome) := by
  obtain ⟨rfl, hnone⟩ | ⟨raw, up, records, rfl, htrashes, hup, hins, happ⟩ := trash_tx_appends h
  · refine hledger.congr (fun e => or_iff_left ?_)
    cases outcome with
    | Trashed id row t => exact absurd rfl (hnone id row t)
    | _ => exact List.not_mem_nil
  · obtain ⟨n, rfl, hn⟩ := resolve_following_live htrashes.found
    obtain ⟨node, hnode⟩ := RawNode.into_node_ok (hwf.nodes.revision n hn.mem)
    obtain ⟨htick, row, changes, hrow, hins', hdb⟩ := change.append_exact happ
    have hrecords : w'.db.trash = records := by rw [hdb]; rfl
    have hnodes : w'.db.nodes = w.db.nodes.modify n.id
      (trashed (rt.nowMs (w.tick + 1))) := by rw [hdb]; rfl
    have hmem : (trashed (rt.nowMs (w.tick + 1))).apply n ∈ w'.db.nodes := by
      rw [hnodes]
      exact (Db.mem_modify_nodes hn.mem).mpr (Or.inl rfl)
    have hcontext : fetch_trash_change_context w'.db ws n.id =
        some (some path.as_str, actor_json) := by
      have hfeeds : Feeds ws _ w.db w'.db :=
        (hdb ▸ Feeds.of_insert hrow rfl rfl hins').congr rfl rfl rfl rfl
      refine context_of_last hfeeds (fun x hx hws => ?_) rfl rfl
      obtain ⟨row', hrow', hle⟩ := hwf.changes x hx
      rw [hws, show w.db.workspace? ws = some row from hrow, Option.some.injEq] at hrow'
      subst hrow'
      exact Nat.lt_succ_of_le hle
    have hentry : entry rt w'.db ws ⟨rt.newId w.tick, ws, n.id, up, n.name, rt.nowMs (w.tick + 1)⟩ =
        .ok ⟨rt.newId w.tick, node, path, rt.nowMs (w.tick + 1), rt.actorMetadata actor_json⟩ := by
      refine build_trash_entry_eq_ok.mpr ⟨n.toRawNode, ?_, hnode, ?_, rfl, rfl, ?_⟩
      · exact fetch_by_id_any_eq_some.mpr ⟨_, hmem, rfl, hn.workspace, rfl⟩
      · rw [hcontext]
        exact path.parse_as_str
      · rw [hcontext]
        rfl
    have hreturned : (BatchOperation.Trash path options).entries rt actor_json
        (.Trashed (rt.newId w.tick) n.toRawNode (rt.nowMs (w.tick + 1))) =
          [⟨rt.newId w.tick, node, path, rt.nowMs (w.tick + 1), rt.actorMetadata actor_json⟩] := by
      simp only [BatchOperation.entries, trash_result, hnode]
      rfl
    rw [hreturned]
    refine hledger.enter hwf (by rw [htick]; exact Nat.le_add_right _ _) (fun t ht => ?_) hentry
      (fun m hm hid => ?_) ?_
    · obtain ht' | rfl := (Table.mem_insert hins).mp (hrecords ▸ ht)
      · exact Or.inl (@transact_rests rt w w' ws actor_json
          (.Trash path options) _ hwf hissued h t ht' ht)
      · exact Or.inr rfl
    · rw [w'.db.node_ext hm hmem hid]
      rfl
    · exact ⟨w.tick, Nat.le_refl _, by simp [htick], rfl⟩

theorem transact_ledger {operation : BatchOperation} {outcome : Outcome operation}
    (hwf : WellFormed w.db) (hissued : Issued rt w)
    (h : transact rt ws actor_json operation w = .ok (outcome, w')) (hledger : Ledger rt w said) :
    Ledger rt w' (fun e => said e ∨ e ∈ operation.entries rt actor_json outcome) := by
  have hother : (∀ path options, operation ≠ .Trash path options) → Ledger rt w' said := by
    intro hne
    have heffect : Effect rt Policy.spared none w w' :=
      transact_effect hwf (fun hlaid => hlaid.elim) (Policy.spared_permits hne) h
    exact hledger.keep hwf heffect.tick (fun t ht =>
      transact_rests hwf hissued h (heffect.edits.records_subset (fun _ _ => id) t ht) ht)
  cases operation with
  | Trash path options => exact trash_tx_ledger hwf hissued h hledger
  | _ => exact (hother (fun _ _ heq => by cases heq)).congr (fun e => or_iff_left List.not_mem_nil)

theorem to_step_eq_result {A : Type} {result : FsResult A} {wrap : A → BatchResult}
    {step : BatchResult} (h : to_step result wrap = .Result step) :
    ∃ a, result = .ok a ∧ step = wrap a := by
  cases result with
  | error e => cases h
  | ok a =>
    cases h
    exact ⟨a, rfl, rfl⟩

/-- An operation of a batch returns the entry that is made of its outcome. -/
theorem execute_batch_operation_entries {operation : BatchOperation} {result : BatchResult}
    (h : execute_batch_operation rt ws operation actor_json w = .ok (.Result result, w')) :
    ∃ outcome, transact rt ws actor_json operation w = .ok (outcome, w') ∧
      result.entries = operation.entries rt actor_json outcome := by
  cases operation with
  | Trash path options =>
    obtain ⟨outcome, w₁, hrun, h⟩ := Tx.bind_eq_ok.mp h
    obtain ⟨hstep, rfl⟩ := Tx.pure_eq_ok.mp h
    obtain ⟨entry, hentry, rfl⟩ := to_step_eq_result hstep
    refine ⟨outcome, hrun, ?_⟩
    rw [BatchOperation.entries, hentry]
    rfl
  | Mkdir path options | Symlink target link options =>
    simp only [execute_batch_operation] at h
    split at h
    · obtain ⟨heq, _⟩ := Tx.pure_eq_ok.mp h
      cases heq
    · obtain ⟨outcome, w₁, hrun, h⟩ := Tx.bind_eq_ok.mp h
      obtain ⟨hstep, rfl⟩ := Tx.pure_eq_ok.mp h
      obtain ⟨_, _, rfl⟩ := to_step_eq_result hstep
      exact ⟨outcome, hrun, rfl⟩
  | _ =>
    obtain ⟨outcome, w₁, hrun, h⟩ := Tx.bind_eq_ok.mp h
    obtain ⟨hstep, rfl⟩ := Tx.pure_eq_ok.mp h
    obtain ⟨_, _, rfl⟩ := to_step_eq_result hstep
    exact ⟨outcome, hrun, rfl⟩

/-- A batch that is completed returns the entries of all records that it makes. -/
theorem batch_loop_ledger {ctx : RequestContext} {index : Nat} {results results' : List BatchResult}
    {operations : List BatchOperation} (hwf : WellFormed w.db) (hissued : Issued rt w)
    (h : batch_loop rt ctx actor_json index results operations w = .ok (.Completed results', w'))
    {before : TrashEntry → Prop}
    (hledger : Ledger rt w (fun e => before e ∨ e ∈ results.flatMap BatchResult.entries)) :
    Ledger rt w' (fun e => before e ∨ e ∈ results'.flatMap BatchResult.entries) := by
  induction operations generalizing index results w with
  | nil =>
    obtain ⟨heq, rfl⟩ := Tx.pure_eq_ok.mp h
    cases heq
    exact hledger
  | cons operation rest ih =>
    unfold batch_loop at h
    split at h
    · obtain ⟨heq, _⟩ := Tx.pure_eq_ok.mp h
      cases heq
    · obtain ⟨step, w₁, hstep, h⟩ := Tx.bind_eq_ok.mp h
      cases step with
      | Result result =>
        obtain ⟨outcome, hrun, hentries⟩ := execute_batch_operation_entries hstep
        have heffect : Effect rt Policy.any none w w₁ :=
          transact_effect hwf (fun hlaid => hlaid.elim) (Policy.permits_any _ _ _) hrun
        refine ih (heffect.wellFormed hwf) (heffect.issued hissued) h ?_
        refine (transact_ledger hwf hissued hrun hledger).congr (fun e => ?_)
        simp [List.flatMap_append, or_assoc, hentries]
      | Failed error =>
        obtain ⟨heq, _⟩ := Tx.pure_eq_ok.mp h
        cases heq

/-- The commit of a content leaves the trash alone. -/
theorem finalize_tx_trash {path : VirtualPath} {g : GenerationId} {length : Nat}
    {params : FinalizeParams} :
    Tx.Keeps (fun db db' => db'.trash = db.trash)
      (finalize_tx rt ws path g length params actor_json) :=
  (KeptByCommit.of_view (fun _ _ => rfl) (fun _ => rfl) (fun _ _ _ => rfl)
    (fun _ _ => rfl)).finalize_tx

/-- A call returns the entries of the records that it makes. -/
theorem DbCall.exec_ledger {o : DbCall} (hwf : WellFormed w.db) (hissued : Issued rt w)
    {g : Option GenerationId} (heffect : Effect rt Policy.any g w (o.exec rt w).2)
    (hledger : Ledger rt w said) :
    Ledger rt (o.exec rt w).2 (fun e => said e ∨ e ∈ o.entries rt (o.exec rt w).1) := by
  have hquiet : ∀ {w' : World} {returned : List TrashEntry}, returned = [] → w.tick ≤ w'.tick →
      (∀ t ∈ w'.db.trash, Rests w.db w'.db t) → Ledger rt w' (fun e => said e ∨ e ∈ returned) := by
    rintro w' _ rfl htick hrests
    exact (hledger.keep hwf htick hrests).congr (fun e => or_iff_left List.not_mem_nil)
  revert heffect
  unfold exec
  cases hbody : o.body rt w with
  | error fault =>
    intro _
    refine hquiet ?_ (le_refl _) (fun t ht => ⟨ht, fun n hn _ => hn, rfl⟩)
    cases o <;> rfl
  | ok result =>
    obtain ⟨answer, w'⟩ := result
    intro heffect
    have hkeeps : ∀ {w' : World}, Effect rt Policy.any g w w' → o.entries rt (.ok answer) = [] →
        (∀ t ∈ w'.db.trash, t ∈ w.db.trash ∧
          fetch_trash_change_context w'.db t.workspace_id t.node_id =
          fetch_trash_change_context w.db t.workspace_id t.node_id) →
        Ledger rt w' (fun e => said e ∨ e ∈ o.entries rt (.ok answer)) := fun heffect hnone h =>
      hquiet hnone heffect.tick (fun t ht => heffect.rests hwf hissued (h t ht).1 ht (h t ht).2)
    cases o with
    | transaction ws operation actor_json => exact transact_ledger hwf hissued hbody hledger
    | batch ctx operations actor_json =>
      cases answer with
      | Completed results =>
        refine batch_loop_ledger hwf hissued hbody
          (hledger.congr (fun e => or_iff_left List.not_mem_nil))
      | Failed index error => exact hkeeps heffect rfl (fun t ht => ⟨ht, rfl⟩)
    | resolve | resolve_following | fetch_max_file_bytes | fetch_usage | fetch_changes_page | fetch_chunk_bytes =>
      simp only [body, Tx.query_eq_ok] at hbody
      obtain ⟨_, rfl⟩ := hbody
      exact hkeeps heffect rfl (fun t ht => ⟨ht, rfl⟩)
    | create_generation ws =>
      obtain ⟨_, _, _, rfl⟩ := create_generation_ok hbody
      exact hkeeps heffect rfl (fun t ht => ⟨ht, rfl⟩)
    | upsert_chunk id index bytes =>
      obtain ⟨_, rfl⟩ := upsert_chunk_ok hbody
      exact hkeeps heffect rfl (fun t ht => ⟨ht, rfl⟩)
    | copy_chunk_range source target lower upper =>
      simp only [body, content.copy_chunk_range, Tx.execute_eq_ok] at hbody
      obtain ⟨db, hcopy, rfl⟩ := hbody
      obtain ⟨_, chunks, _, rfl⟩ := insert_chunks_ok hcopy
      exact hkeeps heffect rfl (fun t ht => ⟨ht, rfl⟩)
    | delete_generation id =>
      obtain rfl := delete_generation_ok hbody
      exact hkeeps heffect rfl (fun t ht => ⟨ht, rfl⟩)
    | finalize ws path id length params actor_json =>
      refine hkeeps heffect rfl (fun t ht => ⟨finalize_tx_trash w answer w' hbody ▸ ht, ?_⟩)
      obtain ⟨rfl, _⟩ | ⟨row, _, hfinal⟩ := finalize_tx_ok hbody
      · rfl
      · obtain ⟨rows, hlocates, hstays⟩ := hfinal.locates (heffect.wellFormed hwf).nodes
        refine context_of_feeds hlocates.feeds (fun c hc hkind => ?_)
        have hdeparts := hstays c hc
        rw [hkind] at hdeparts
        cases hdeparts
    | create_workspace options =>
      obtain ⟨row, nodes, workspaces, _, _, _, _, _, _, _, _, rfl⟩ :=
        workspace.create_workspace_ok hbody
      exact hkeeps heffect rfl (fun t ht => ⟨ht, rfl⟩)
    | reset_workspace ws =>
      obtain ⟨rfl, _⟩ | ⟨row, nodes, _, _, _, rfl⟩ := workspace.reset_workspace_ok hwf hbody
      · exact hkeeps heffect rfl (fun t ht => ⟨ht, rfl⟩)
      · refine hkeeps heffect rfl (fun t ht => ?_)
        obtain ⟨ht, hws⟩ := Table.mem_deleteWhere.mp ht
        exact ⟨ht, @context_of_clear w.db _ _ ws _ rfl (of_decide_eq_false hws)⟩
    | delete_workspace ws =>
      obtain rfl := workspace.delete_workspace_ok hwf hbody
      refine hkeeps heffect rfl (fun t ht => ?_)
      obtain ⟨ht, hws⟩ := Table.mem_deleteWhere.mp ht
      exact ⟨ht, @context_of_clear w.db _ _ ws _ rfl (of_decide_eq_false hws)⟩

end operations

/-- The entry is in the reply of a request that has been served. -/
def System.Returned (c : System) (e : TrashEntry) : Prop := c.Said returned_entries e

theorem Reached.ledger {rt : Runtime} {c : System} (h : Reached rt (fun _ _ _ => True) c) :
    Ledger rt c.state c.Returned := by
  have hempty : (System.empty.Said returned_entries) = fun _ => False := by
    funext e
    simp [Config.Said, System.empty]
  have hnew : ∀ p, Served rt p → p.said returned_entries = [] ∧
      p.Relays (DbCall.entries rt) returned_entries := by
    rintro p ⟨ctx, request, rfl⟩
    exact RelaysEntries.serve request
  refine @Steps.relay _ _ _ _ _ _ _ _ _ _ (Ledger rt) _ _ (Steps.between h) hnew
    (fun p hp => by cases hp) ?_ ?_
  · intro e i o next hproc hmay hledger
    have hreached : Reached rt (fun c _ o => Policy.any.Allows rt c.state o) e :=
      hmay.2.1.mono (fun _ hp => hp) (fun c _ o _ => Policy.allows_any rt c.state o)
    obtain ⟨hsound, _, _, _, heffect⟩ :=
      hreached.step_foreign hproc (Policy.allows_any rt e.state o)
    exact DbCall.exec_ledger hsound.wf hsound.issued heffect hledger
  · rw [hempty]
    exact Ledger.empty

/-- A node has a trashed timestamp if and only if exactly one trash record names it, and
the record's place and time are the node's. -/
structure Balanced (db : Db) : Prop where
  marked : ∀ n ∈ db.nodes, n.trashed_at_ms ≠ none ↔ ∃! t, t ∈ db.trash ∧ t.node_id = n.id
  named : ∀ t ∈ db.trash, ∃ n ∈ db.nodes, n.id = t.node_id ∧
    n.parent_id = some t.original_parent_id ∧
    n.name = t.original_name ∧ n.trashed_at_ms = some t.deleted_at_ms

/-- The listings of the trash show this entry for a record: every page that has an
entry of the record has this one, and the pages of one state come to an end and have it. -/
def Shown (rt : Runtime) (w : World) (t : TrashRow) (e : TrashEntry) : Prop :=
  ∀ (cursors : SqliteFileSystem.Cursors) (ctx : RequestContext) (limit : Nat),
    ctx.has_capability .Read = true →
    ctx.workspace_id = t.workspace_id →
      (∀ cursor page, SqliteFileSystem.list_trash rt cursors ctx w.db ⟨cursor, limit⟩ = .ok page →
        ∀ e' ∈ page.items, e'.id = t.id → e' = e) ∧
      (∃ pages, Paging.Finished (fun s cursor items next => s = w ∧
        Pages rt (fun db page =>
          SqliteFileSystem.list_trash rt cursors ctx db page) limit s cursor items next) pages) ∧
      ∀ pages, Paging.Finished (fun s cursor items next => s = w ∧
        Pages rt (fun db page =>
          SqliteFileSystem.list_trash rt cursors ctx db page) limit s cursor items next) pages →
          e ∈ Paging.contents pages

theorem shown_of_entry {rt : Runtime} {w : World} (hreach : Reachable rt w) {t : TrashRow}
    (ht : t ∈ w.db.trash) {e : TrashEntry} (he : entry rt w.db t.workspace_id t = .ok e) :
    Shown rt w t e := by
  intro cursors ctx limit hread hws
  have hlists : ListsByPages rt
    (fun db page => SqliteFileSystem.list_trash rt cursors ctx db page) limit TrashEntry.id
    (fun _ => True)
      (ListsTrash rt ctx.workspace_id) := list_trash_lists hread limit
  refine ⟨fun cursor page hpage e' he' hid => ?_, hlists.finishes w hreach trivial,
    fun pages hpages => ?_⟩
  · obtain ⟨u, hu, hentry⟩ := (list_trash_keyset rt cursors ctx limit).mem_page hpage e' he'
    obtain ⟨hu, _⟩ := mem_records.mp hu
    obtain rfl := Table.eq_of_key_eq hu ht ((entry_id hentry).symm.trans hid)
    rw [← hws] at he
    exact Except.ok.inj (hentry.symm.trans he)
  · exact (hlists.paginates.whole pages w hpages e).mpr ⟨t, ht, hws.symm, hws ▸ he⟩

/-- The trash ledger is consistent, whatever is served and however it is interleaved:
nodes and records agree, and for each record the listing shows the entry that was returned
to the one who put the node into the trash. -/
theorem Reached.balanced {rt : Runtime} {c : System} (h : Reached rt (fun _ _ _ => True) c) :
    Balanced c.state.db ∧ ∀ t ∈ c.state.db.trash, (∃ e, c.Returned e ∧ e.id = t.id) ∧
      ∀ e, c.Returned e → e.id = t.id → Shown rt c.state t e := by
  have hreach : Reachable rt c.state := ⟨c, h, rfl⟩
  have hwf := hreach.sound.wf
  have hledger := h.ledger
  refine ⟨⟨fun n hn => ⟨fun htrashed => ?_, ?_⟩, fun t ht => ?_⟩, fun t ht =>
    ⟨?_, fun e he hid => ?_⟩⟩
  · obtain ⟨t, ht, hid⟩ := hwf.trash.recorded n hn htrashed
    exact ⟨t, ⟨ht, hid⟩, fun u hu => hwf.trash.unique u hu.1 t ht (hu.2.trans hid.symm)⟩
  · rintro ⟨t, ⟨ht, hid⟩, _⟩
    rw [hledger.time t ht n hn hid.symm]
    exact Option.some_ne_none _
  · obtain ⟨n, hn, hid, _, _, hup, hname⟩ := hwf.trash.record t ht
    exact ⟨n, hn, hid, hup, hname, hledger.time t ht n hn hid⟩
  · obtain ⟨e, he, hentry⟩ := hledger.record t ht
    exact ⟨e, he, entry_id hentry⟩
  · obtain ⟨e', he', hentry⟩ := hledger.record t ht
    rw [hledger.distinct e e' he he' (hid.trans (entry_id hentry).symm)]
    exact shown_of_entry hreach ht hentry

/-- The ledger of a run that has put the directory `/x` into the trash. -/
theorem trashed_balanced : ∃ c : System, c.state = trashedWorld ∧ c.state.db.trash.rows.length = 1 ∧
    Balanced c.state.db ∧
    ∀ t ∈ c.state.db.trash, (∃ e, c.Returned e ∧ e.id = t.id) ∧
      ∀ e, c.Returned e → e.id = t.id → Shown Runtime.counting c.state t e := by
  obtain ⟨c, hreached, hstate⟩ : Reachable Runtime.counting trashedWorld :=
    ((Reachable.empty _).serveAll _).serveAll _
  refine ⟨c, hstate, ?_, hreached.balanced⟩
  rw [hstate]
  decide +kernel

end fslite
