import Fslite.Sqlite.Edit.Record
import Fslite.Sqlite.Run.Moment
import Fslite.Sqlite.Run.Subtree
import Fslite.Sqlite.Run.Tree

namespace fslite

open mutate trash

namespace Beneath

variable {db : Db} {ws : WorkspaceId} {n : NodeRow} {root : NodeId} {names : List Text}

/-- What is above such a node is above the root too, or it is one of the nodes on
the way. -/
theorem above (h : Beneath db root names n) {id : NodeId} (hid : Below db.parent n.id id) :
    Below db.parent root id ∨ ∃ names' m, Beneath db root names' m ∧ m.id = id := by
  induction h with
  | child hn hup hactive =>
    obtain rfl | hbelow := (Db.below_of_mem hn hup).mp hid
    · exact Or.inr ⟨_, _, .child hn hup hactive, rfl⟩
    · exact Or.inl hbelow
  | step h hn hup hactive ih =>
    obtain rfl | hbelow := (Db.below_of_mem hn hup).mp hid
    · exact Or.inr ⟨_, _, .step h hn hup hactive, rfl⟩
    · exact ih hbelow

/-- Nothing beneath a trashed node is live. -/
theorem not_live {r : NodeRow} (h : Beneath db r.id names n) (hr : r ∈ db.nodes)
    (htrashed : r.trashed_at_ms ≠ none) :
    ¬ Live db ws n := by
  intro hlive
  obtain ⟨up, hup, hbelow⟩ := h.climb
  obtain ⟨m, hm, hid⟩ := hlive.of_below ((Db.below_of_mem h.mem hup).mpr (Or.inr hbelow))
  obtain rfl := db.node_ext hm.mem hr hid
  exact htrashed hm.active

theorem workspace (h : Beneath db root names n) (hwf : NodesWellFormed db) {r : NodeRow}
    (hr : r ∈ db.nodes) (hid : r.id = root) : n.workspace_id = r.workspace_id := by
  obtain ⟨up, hup, hbelow⟩ := h.climb
  obtain ⟨p, hp, hpid, hws, _⟩ := hwf.parent n h.mem up hup
  exact hws.symm.trans (Db.below_workspace hwf hbelow hp hr hpid hid)

/-- A way down stays as long as the nodes on it do. -/
theorem carry {db' : Db} (h : Beneath db root names n)
    (hrows : ∀ names m, Beneath db root names m → m ∈ db'.nodes) :
    Beneath db' root names n := by
  induction h with
  | child hn hup hactive => exact .child (hrows _ _ (.child hn hup hactive)) hup hactive
  | step h hn hup hactive ih => exact .step ih (hrows _ _ (.step h hn hup hactive)) hup hactive

end Beneath

/-- The nodes beneath a node in the trash stay as they are as long as its record
is there. -/
theorem Edit.beneath_stays {P : Policy} {fresh : Uuid → Prop} {mine : GenerationId → Prop}
    {db db' : Db} (h : Edit P fresh mine db db') (hwf : WellFormed db) {t : TrashRow}
    (ht : t ∈ db.trash) (ht' : t ∈ db'.trash) {names : List Text} {n : NodeRow}
    (hn : Beneath db t.node_id names n) : Beneath db' t.node_id names n := by
  refine hn.carry (fun names n hn => ?_)
  obtain ⟨r, hr, hid, hws, htrashed, _⟩ := hwf.trash.record t ht
  have hother : ∀ {m : NodeRow} {u : Table.Update NodeRow.key}, m ∈ db.nodes → m.id ≠ n.id →
    n ∈ db.nodes.modify m.id u :=
    fun hm hne => (Db.mem_modify_nodes hm).mpr (Or.inr ⟨hn.mem, hne.symm⟩)
  have hdead : ∀ {ws m}, Live db ws m → m.id ≠ n.id := by
    intro ws m hm hsame
    obtain rfl := db.node_ext hm.mem hn.mem hsame
    exact (hid ▸ hn).not_live hr htrashed hm
  have hclear : ∀ {ws}, t ∈ (db.clear ws).trash → n ∈ (db.clear ws).nodes := by
    intro ws hkept
    refine Db.mem_clear_nodes.mpr ⟨hn.mem, ?_⟩
    rw [hn.workspace hwf.nodes hr hid, hws]
    simpa using (Table.mem_deleteWhere.mp hkept).2
  cases h with
  | insert m p hf hp hdir hopen hup hws hsegment hfree hactive hrevision hfile hcontent hins =>
    exact (Table.mem_insert hins).mpr (Or.inl hn.mem)
  | enter row root hroot hrow hseq now hws hins => exact (Table.mem_insert hins).mpr (Or.inl hn.mem)
  | revise m hlive | replace m hlive | relocate m p hlive | trash m hlive =>
    exact hother hlive.mem (hdead hlive)
  | purge m hm hroot hkind hpolicy =>
    refine Db.mem_purge_nodes.mpr ⟨hn.mem, fun hbelow => ?_⟩
    obtain habove | ⟨_, x, hx, hxid⟩ := hn.above hbelow
    · obtain ⟨_, hkept⟩ := Table.mem_deleteWhere.mp ht'
      rw [← Bool.not_eq_true, Db.cascades_iff] at hkept
      exact hkept habove
    · -- an untrashed node is purged in a live place only
      obtain rfl := db.node_ext hx.mem hm hxid
      exact (hid ▸ hx).not_live hr htrashed (hkind hx.active)
  | restore m p hm u hu hnode =>
    refine hother hm (fun hsame => ?_)
    obtain ⟨m', hm', hid', _, htrashed', _⟩ := hwf.trash.record u hu
    rw [db.node_ext hm' hn.mem (hid'.trans (hnode.trans hsame))] at htrashed'
    exact htrashed' hn.active
  | reset ws row hrow hpolicy root hroot now hins =>
    exact (Table.mem_insert hins).mpr (Or.inl (hclear ht'))
  | erase ws hpolicy => exact hclear ht'
  | _ => exact hn.mem

/-- As long as the record is stored, nothing at or above its node is discarded, the
node is not brought back and its workspace is not emptied. -/
def Policy.sparing (t : TrashRow) : Policy := { Policy.any with
  discard := fun db id => t ∈ db.trash → ¬ Below db.parent t.node_id id
  restore := fun db id => t ∈ db.trash → id ≠ t.node_id
  clear := fun db ws => t ∈ db.trash → ws ≠ t.workspace_id }

/-- Such changes keep the record. -/
theorem Edit.record_stays {t : TrashRow} {fresh : Uuid → Prop} {mine : GenerationId → Prop}
    {db db' : Db} (h : Edit (Policy.sparing t) fresh mine db db') (ht : t ∈ db.trash) :
    t ∈ db'.trash := by
  cases h with
  | purge n hn hroot hkind hpolicy =>
    refine Table.mem_deleteWhere.mpr ⟨ht, ?_⟩
    rw [← Bool.not_eq_true, Db.cascades_iff]
    exact hpolicy ht
  | trash n hlive u hfresh hnode hws hup hname hpolicy hins =>
    exact (Table.mem_insert hins).mpr (Or.inl ht)
  | restore n p hn u hu hnode hp hdir hws hactive hplace name hsegment hfree hpolicy =>
    refine Table.mem_deleteWhere.mpr ⟨ht, decide_eq_false (fun hsame => hpolicy ht ?_)⟩
    rw [Table.eq_of_key_eq ht hu hsame, hnode]
  | reset ws row hrow hpolicy =>
    exact Table.mem_deleteWhere.mpr ⟨ht, decide_eq_false (hpolicy ht).symm⟩
  | erase ws hpolicy => exact Table.mem_deleteWhere.mpr ⟨ht, decide_eq_false (hpolicy ht).symm⟩
  | _ => exact ht

/-- The record is stored, its node is in the trash, and the untrashed nodes beneath
that are where they were. -/
structure Remains (t : TrashRow) (db db' : Db) : Prop where
  stored : t ∈ db'.trash
  node : ∀ n ∈ db.nodes, n.id = t.node_id → n ∈ db'.nodes
  beneath : ∀ names n, Beneath db t.node_id names n → Beneath db' t.node_id names n

theorem Foreign.remains {rt : Runtime} {t : TrashRow} {w w' : World}
    (h : Relation.ReflTransGen (Foreign rt (Policy.sparing t) none) w w') (ht : t ∈ w.db.trash) :
    Remains t w.db w'.db := by
  induction h with
  | refl => exact ⟨ht, fun n hn _ => hn, fun _ _ hn => hn⟩
  | tail _ hstep ih =>
    obtain ⟨hsound, _, _, _, heffect⟩ := hstep
    refine (heffect.edits.preserve (fun _ hf => Or.inr hf) hsound.wf (I := Remains t w.db)
      (fun {a b} hedit hwf hI => ?_) ih).2
    have hstays := hedit.record_stays hI.stored
    exact ⟨hstays, fun n hn hid => hedit.trashed_stays hwf hI.stored hstays (hI.node n hn hid) hid,
      fun names n hn => hedit.beneath_stays hwf hI.stored hstays (hI.beneath names n hn)⟩

/-- The operation brings the node, or one above it, back from the trash or purges
it. -/
def Reclaims (db : Db) (ws : WorkspaceId) (id : NodeId) : BatchOperation → Prop
  | .Restore trash_id destination options => ∃ record node parent name,
    Restores db ws trash_id destination options record node parent name ∧
      Below db.parent id record.node_id
  | .Purge trash_id => ∃ record, fetch_trash_row db ws trash_id = some record ∧
    Below db.parent id record.node_id
  | _ => False

/-- The operation removes or overwrites the node or one above it. -/
def Sweeps (db : Db) (ws : WorkspaceId) (id : NodeId) : BatchOperation → Prop
  | .Copy source_path target options => ∃ source parent name existing,
    Copies db ws source_path target options source parent name (some existing) ∧
      Below db.parent id existing.id
  | .Move source_path target options => ∃ source parent name existing,
    Moves db ws source_path target options source parent name (some existing) ∧
      Below db.parent id existing.id
  | .Remove path options => ∃ node, Removes db ws path options node ∧ Below db.parent id node.id
  | _ => False

namespace DbCall

/-- The call resets or deletes the workspace. -/
def Empties (ws : WorkspaceId) : DbCall → Prop
  | .reset_workspace ws' => ws = ws'
  | .delete_workspace ws' => ws = ws'
  | _ => False

/-- As long as the record is stored, its workspace stays and the call brings
nothing at or above its node back or purges it. -/
def Leaves (rt : Runtime) (record : TrashRow) (w : World) (call : DbCall) : Prop :=
  (record ∈ w.db.trash → ¬ call.Empties record.workspace_id) ∧
    ∀ ws db operation, call.Performs rt w ws db operation → record ∈ db.trash →
      ¬ Reclaims db ws record.node_id operation

/-- As long as the record is stored, the call removes and overwrites nothing at or
above its node. -/
def Spares (rt : Runtime) (record : TrashRow) (w : World) (call : DbCall) : Prop :=
  ∀ ws db operation, call.Performs rt w ws db operation → record ∈ db.trash →
    ¬ Sweeps db ws record.node_id operation

end DbCall

theorem Policy.sparing_permits {record : TrashRow} {db : Db} {ws : WorkspaceId}
    {operation : BatchOperation}
    (hleaves : record ∈ db.trash → ¬ Reclaims db ws record.node_id operation)
    (hspares : record ∈ db.trash → ¬ Sweeps db ws record.node_id operation) :
    (Policy.sparing record).Permits ws db operation := by
  cases operation with
  | Copy =>
    exact fun source parent name existing hcopies ht hbelow =>
      hspares ht ⟨source, parent, name, existing, hcopies, hbelow⟩
  | Move source_path target options =>
    intro source parent name existing hmoves
    refine ⟨fun occupant hocc ht hbelow => ?_, fun _ => trivial⟩
    exact hspares ht ⟨source, parent, name, occupant, hocc ▸ hmoves, hbelow⟩
  | Remove => exact fun node hremoves ht hbelow => hspares ht ⟨node, hremoves, hbelow⟩
  | Trash => exact fun _ _ => trivial
  | Restore trash_id destination options =>
    intro record' node parent name hrestores ht hid
    obtain ⟨n, _, hraw, _, hnode⟩ := resolve.fetch_by_id_any_eq_some.mp hrestores.stored
    refine hleaves ht ⟨record', node, parent, name, hrestores, ?_⟩
    rw [← hid, ← hnode, ← hraw]
    exact Below.refl _ _
  | Purge => exact fun record' hrecord ht hbelow => hleaves ht ⟨record', hrecord, hbelow⟩
  | _ => trivial

theorem Policy.sparing_allows {rt : Runtime} {record : TrashRow} {w : World} {call : DbCall}
    (hleaves : call.Leaves rt record w) (hspares : call.Spares rt record w) :
    (Policy.sparing record).Allows rt w call := by
  cases call with
  | copy_chunk_range => exact fun hlaid => hlaid.elim
  | transaction ws operation actor_json =>
    exact Policy.sparing_permits (hleaves.2 ws w.db operation ⟨rfl, rfl, rfl⟩)
      (hspares ws w.db operation ⟨rfl, rfl, rfl⟩)
  | batch ctx operations actor_json =>
    exact fun _ => Policy.permitsAll_of_performs
      (fun db operation hperforms => Policy.sparing_permits
      (hleaves.2 ctx.workspace_id db operation ⟨rfl, hperforms⟩)
        (hspares ctx.workspace_id db operation ⟨rfl, hperforms⟩))
  | reset_workspace ws => exact fun ht hws => hleaves.1 ht hws.symm
  | delete_workspace ws => exact fun ht hws => hleaves.1 ht hws.symm
  | _ => trivial

/-- The record is stored, the node is in the trash as it was before, and so are the
untrashed nodes that it had beneath it, where they were. -/
structure Durable (record : TrashRow) (before after : Db) : Prop where
  stored : record ∈ after.trash
  node : ∃ n ∈ before.nodes, n.id = record.node_id ∧ ∃ m ∈ after.nodes, m.id = n.id ∧
    m.trashed_at_ms ≠ none ∧
    SameVersion before n after m
  beneath : ∀ names n, Beneath before record.node_id names n →
    Beneath after record.node_id names n ∧ SameVersion before n after n

theorem trash.trash_tx_recorded {rt : Runtime} {ws : WorkspaceId} {path : VirtualPath}
    {options : MutationOptions} {actor_json : Text} {id : TrashId} {node : RawNode} {time : Int}
    {w w' : World} (h : trash_tx rt ws path options actor_json w = .ok
    (.Trashed id node time, w')) : ∃ record ∈ w'.db.trash, record.id = id := by
  obtain ⟨_, hnot⟩ | ⟨node', up, records, houtcome, _, _, hins, _, happ⟩ := trash_tx_ok h
  · exact absurd rfl (hnot _ _ _)
  · cases houtcome
    rw [happ.appended.trash]
    exact ⟨_, (Table.mem_insert hins).mpr (Or.inr rfl), rfl⟩

/-- What a trashing leaves: its record, the node marked and everything beneath it in
place. -/
theorem trash.trash_tx_remains {rt : Runtime} {ws : WorkspaceId} {path : VirtualPath}
    {options : MutationOptions} {actor_json : Text} {id : TrashId} {node : RawNode} {time : Int}
    {w w' : World} (h : trash_tx rt ws path options actor_json w = .ok (.Trashed id node time, w'))
    {record : TrashRow} (hrecord : record ∈ w'.db.trash) (hid : record.id = id) :
    record.node_id = node.id ∧ ∃ n, n.toRawNode = node ∧ Live w.db ws n ∧
      (trashed time).apply n ∈ w'.db.nodes ∧ ∀ names m, Beneath w.db n.id names m →
      Beneath w'.db n.id names m := by
  obtain ⟨_, hnot⟩ | ⟨node', up, records, houtcome, htrashes, hup, hins, _, happ⟩ := trash_tx_ok h
  · exact absurd rfl (hnot _ _ _)
  · cases houtcome
    obtain ⟨n, rfl, hn⟩ := resolve.resolve_following_live htrashes.found
    have hnodes := happ.appended.nodes
    rw [happ.appended.trash] at hrecord
    refine ⟨?_, n, rfl, hn, ?_, fun names m hm => hm.carry (fun names m hm => ?_)⟩
    · rw [Table.eq_of_key_eq hrecord ((Table.mem_insert hins).mpr (Or.inr rfl)) hid]
    · rw [hnodes]
      exact (Db.mem_modify_nodes hn.mem).mpr (Or.inl rfl)
    · rw [hnodes]
      exact (Db.mem_modify_nodes hn.mem).mpr (Or.inr ⟨hm.mem, hm.ne_root hn⟩)

/-- What is in the trash stays: in every run in which nothing at or above a trashed
node is brought back or purged, its workspace is kept and nothing at or above it is
removed or overwritten, its record, the node and what was beneath it are kept. -/
theorem trash_durable {rt : Runtime} {record : TrashRow} {c d : System} {i : Nat} {call : DbCall}
    {next : DbCall.Res call → Prog DbCall.Res (Except FsError Reply)} {ws : WorkspaceId}
    {actor_json : Text} {path : VirtualPath} {options : MutationOptions}
    {rest : List BatchOperation} {w w' : World} {node : RawNode} {time : Int}
    (hc : Reached rt (fun e _ o => o.Leaves rt record e.state ∧ o.Spares rt record e.state) c)
    (hproc : c.procs[i]? = some (.call call next))
    (hcall : call.Leaves rt record c.state ∧ call.Spares rt record c.state)
    (hcommits : call.Commits rt c.state)
    (hcomes : call.Comes rt c.state ws actor_json (.Trash path options) rest w)
    (htrash : trash_tx rt ws path options actor_json w = .ok (.Trashed record.id node time, w'))
    (hrecord : record ∈ w'.db.trash)
    (hd : Steps (DbCall.exec rt) (Served rt)
    (fun e _ o => o.Leaves rt record e.state ∧ o.Spares rt record e.state)
      ⟨(call.exec rt c.state).2, c.procs.set i (next (call.exec rt c.state).1)⟩ d) :
    record.node_id = node.id ∧ Durable record w.db d.state.db := by
  have hallows := Policy.sparing_allows hcall.1 hcall.2
  have hreached : Reached rt (fun e _ o => (Policy.sparing record).Allows rt e.state o) c :=
    hc.mono (fun _ hp => hp) (fun _ _ _ hmay => Policy.sparing_allows hmay.1 hmay.2)
  have hsteps := hd.mono (fun _ hp => hp) (fun _ _ _ hmay => Policy.sparing_allows hmay.1 hmay.2)
  have hafter := Reached.steps_foreign
    (hreached.tail (.advance c.state c.procs i call next hproc hallows)) hsteps
  have hsound := (hcomes.ongoing
    (.start ⟨c, hc.mono (fun _ hp => hp) (fun _ _ _ _ => trivial), rfl⟩)).sound
  have htrashing : Foreign rt (Policy.sparing record) none w w' :=
    ⟨⟨hsound.wf, hsound.issued, fun _ hlaid => hlaid.elim⟩, none, fun _ hg => (by cases hg),
      fun _ hg => (by cases hg),
      trash_tx_effect hsound.wf (fun _ _ => trivial) htrash⟩
  have hsound' := htrashing.sound
  have hending : Foreign rt (Policy.sparing record) none w' (call.exec rt c.state).2 := by
    refine ⟨hsound', none, fun _ hg => (by cases hg), fun _ hg => (by cases hg), ?_⟩
    refine hcomes.later htrash hcommits hsound'.wf (fun hlaid => hlaid.elim)
      (fun db operation hperforms => ?_)
    exact Policy.sparing_permits (hcall.1.2 ws db operation hperforms)
      (hcall.2 ws db operation hperforms)
  have hremains : Remains record w'.db d.state.db := Foreign.remains (.head hending hafter) hrecord
  obtain ⟨hid, n, rfl, hn, hmarked, hbeneath⟩ := trash_tx_remains htrash hrecord rfl
  have hversion : ∀ m ∈ w.db.nodes, ∀ m' ∈ d.state.db.nodes, m.id = m'.id →
    m.revision = m'.revision →
      SameVersion w.db m d.state.db m' := fun m hm m' hm' hsame hrevision =>
    ((Foreign.version (.head htrashing (.head hending hafter)) hm
      (hsound.issued.node m hm)).2 m' hm' hsame).2 hrevision
  refine ⟨hid, hremains.stored, ⟨n, hn.mem, hid.symm, ?_⟩, fun names m hm => ?_⟩
  · have hstays := hremains.node _ hmarked hid.symm
    exact ⟨_, hstays, rfl, by simp [trashed], hversion n hn.mem _ hstays rfl rfl⟩
  · have hstays := hremains.beneath names m (hid ▸ hbeneath names m (hid ▸ hm))
    exact ⟨hstays, hversion m hm.mem m hstays.mem rfl rfl⟩

/-- The operation does nothing to the trash but add to it. -/
def OnlyAdds : BatchOperation → Prop
  | .Mkdir .. => True
  | .Touch .. => True
  | .Trash .. => True
  | _ => False

/-- A new workspace with the files `/a/f/x` and `/b/x`. -/
def trashingRequests : List (RequestContext × Request) :=
  [(.trusted 0, .CreateWorkspace {}),
    (.trusted 0, .Perform (.Mkdir (.named [['a'], ['f']]) { parents := true })),
    (.trusted 0, .Perform (.Touch (.named [['a'], ['f'], ['x']]) { create := true })),
    (.trusted 0, .Perform (.Mkdir (.named [['b']]) {})),
    (.trusted 0, .Perform (.Touch (.named [['b'], ['x']]) { create := true }))]

theorem served_counting (ctx : RequestContext) (request : Request) :
    Served Runtime.counting (request.serve Runtime.counting ctx).run := ⟨ctx, request, rfl⟩

theorem DbCall.leaves_of_only_adds {record : TrashRow} {w : World} {operation : BatchOperation}
    {actor_json : Text} (h : OnlyAdds operation) :
    (DbCall.transaction 0 operation actor_json).Leaves Runtime.counting record w ∧
      (DbCall.transaction 0 operation actor_json).Spares Runtime.counting record w := by
  refine ⟨⟨fun _ => id, ?_⟩, ?_⟩
  · rintro ws db operation ⟨rfl, rfl, rfl⟩ _ hreclaims
    cases operation <;> first | exact hreclaims | exact h
  · rintro ws db operation ⟨rfl, rfl, rfl⟩ _ hsweeps
    cases operation <;> first | exact hsweeps | exact h

theorem trashing_reached (record : TrashRow) : ∃ ps, Reached Runtime.counting
    (fun e _ o => o.Leaves Runtime.counting record e.state ∧
    o.Spares Runtime.counting record e.state)
    ⟨serveAll Runtime.counting trashingRequests ⟨Db.empty, 0⟩, ps⟩ := by
  refine serveAll_steps (fun r _ => served_counting _ _) (fun r hr w => ?_) _ _
  simp only [trashingRequests, List.mem_cons, List.not_mem_nil, or_false] at hr
  obtain rfl | rfl | rfl | rfl | rfl := hr
  · exact Task.along_map ⟨fun _ _ =>
      ⟨⟨fun _ => id, fun _ _ _ hperforms => hperforms.elim⟩, fun _ _ _ hperforms => hperforms.elim⟩,
      trivial⟩
  all_goals exact along_perform (fun _ _ => DbCall.leaves_of_only_adds trivial)

/-- Serving one more request that meets the condition. -/
theorem serving_steps {record : TrashRow} {operation : BatchOperation} {w : World}
    (h : (DbCall.transaction 0 operation (actor_json Runtime.counting (.trusted 0))).Leaves
        Runtime.counting record w ∧
      (DbCall.transaction 0 operation (actor_json Runtime.counting (.trusted 0))).Spares
        Runtime.counting record w)
    (ps : List (Prog DbCall.Res (Except FsError Reply))) :
    ∃ qs, Steps (DbCall.exec Runtime.counting) (Served Runtime.counting)
      (fun e _ o => o.Leaves Runtime.counting record e.state ∧
      o.Spares Runtime.counting record e.state) ⟨w, ps⟩
      ⟨serveAll Runtime.counting [(.trusted 0, .Perform operation)] w, qs⟩ :=
  ⟨_, Steps.arrive_finish (served_counting (.trusted 0) (.Perform operation))
    (along_perform (fun _ => h))⟩

/-- A request for a trashing that has just arrived. -/
theorem trashing_arrived (path : VirtualPath) (ps : List (Prog DbCall.Res (Except FsError Reply))) :
    ∃ next,
    (ps ++ [((Request.Perform (.Trash path {})).serve Runtime.counting
    (.trusted 0)).run])[ps.length]? =
      some (.call (.transaction 0 (.Trash path {})
        (actor_json Runtime.counting (.trusted 0))) next) :=
  ⟨_, List.getElem?_concat_length⟩

/-- `/a/f` is put into the trash and `/b` removed with what is in it. -/
def afterTrashing : List (RequestContext × Request) :=
  [(.trusted 0, .Perform (.Trash (.named [['a'], ['f']]) {})),
    (.trusted 0, .Perform (.Remove (.named [['b']]) { recursive := true }))]

def trash.TrashOutcome.trashed? : TrashOutcome → Option TrashId
  | .Trashed id _ _ => some id
  | _ => none

theorem trash.TrashOutcome.trashed?_eq_some {outcome : TrashOutcome} {id : TrashId}
    (h : outcome.trashed? = some id) : ∃ node time, outcome = .Trashed id node time := by
  cases outcome with
  | Trashed id' node time =>
    cases h
    exact ⟨node, time, rfl⟩
  | _ => cases h

/-- What the path leads to, if anything, does not lie at or above a recorded node. -/
def Db.apartFromTrash (db : Db) (path : VirtualPath) : Bool :=
  match resolve.resolve_following db 0 path false with
  | .Found node => db.trash.rows.all (fun t => !db.cascades node.id t.node_id)
  | _ => true

/-- The removal of such a node meets the condition. -/
theorem DbCall.leaves_of_apart (record : TrashRow) (options : RemoveOptions) (actor_json : Text)
    {w : World} {path : VirtualPath} (h : w.db.apartFromTrash path = true) :
    (DbCall.transaction 0 (.Remove path options) actor_json).Leaves Runtime.counting record w ∧
      (DbCall.transaction 0 (.Remove path options) actor_json).Spares Runtime.counting record w := by
  refine ⟨⟨fun _ => id, ?_⟩, ?_⟩
  · rintro ws db operation ⟨rfl, rfl, rfl⟩ _
    exact id
  · rintro ws db operation ⟨rfl, rfl, rfl⟩ hrecord ⟨node, hremoves, hbelow⟩
    have hfound := hremoves.found
    simp only [Db.apartFromTrash, hfound] at h
    have hapart := List.all_eq_true.mp h record hrecord
    rw [Db.cascades_iff.mpr hbelow] at hapart
    cases hapart

/-- The directory `/a/f` with its file stays in the trash while `/b` is removed. -/
theorem trashed_directory_durable :
    ∃ (record : TrashRow) (node : RawNode) (time : Int) (w : World) (d : System),
    trash_tx Runtime.counting 0 (.ofSegments [['a'], ['f']] (by decide)) {}
      (actor_json Runtime.counting (.trusted 0))
      (serveAll Runtime.counting trashingRequests ⟨Db.empty, 0⟩) = .ok
      (.Trashed record.id node time, w) ∧
    d.state = serveAll Runtime.counting (afterTrashing.drop 1) w ∧
    (∃ m, Beneath (serveAll Runtime.counting trashingRequests ⟨Db.empty, 0⟩).db record.node_id
      [m.name] m ∧ m.kind = .File) ∧
    Durable record (serveAll Runtime.counting trashingRequests ⟨Db.empty, 0⟩).db d.state.db := by
  obtain ⟨⟨outcome, w'⟩, htrash, hok⟩ := @Tx.ok_of_any _ (trash_tx Runtime.counting 0
    (.ofSegments [['a'], ['f']] (by decide)) {} (actor_json Runtime.counting (.trusted 0))
      (serveAll Runtime.counting trashingRequests ⟨Db.empty, 0⟩))
    (fun p => p.1.trashed?.isSome && p.2.db.apartFromTrash (.ofSegments [['b']] (by decide)) &&
      p.2.db.trash.rows.all (fun t =>
        (serveAll Runtime.counting trashingRequests ⟨Db.empty, 0⟩).db.nodes.rows.any (fun m =>
          m.parent_id = some t.node_id ∧ m.trashed_at_ms = none ∧ m.kind = .File)))
    (by decide +kernel)
  simp only [Bool.and_eq_true] at hok
  obtain ⟨⟨htrashed, hapart⟩, hfile⟩ := hok
  obtain ⟨id, hid⟩ := Option.isSome_iff_exists.mp htrashed
  obtain ⟨node, time, rfl⟩ := TrashOutcome.trashed?_eq_some hid
  obtain ⟨record, hrecord, rfl⟩ := trash_tx_recorded htrash
  obtain ⟨m, hm, hplace⟩ := List.any_eq_true.mp (List.all_eq_true.mp hfile record hrecord)
  obtain ⟨hup, hactive, hkind⟩ := of_decide_eq_true hplace
  obtain ⟨ps, hc⟩ := trashing_reached record
  obtain ⟨next, hproc⟩ := trashing_arrived (.ofSegments [['a'], ['f']] (by decide)) ps
  have harrived := hc.tail (.arrive _ ps _
    (served_counting (.trusted 0)
    (.Perform (.Trash (.ofSegments [['a'], ['f']] (by decide)) {}))))
  have hw := @DbCall.exec_of_body _ _ _
    (.transaction 0 (.Trash (.ofSegments [['a'], ['f']] (by decide)) {}) _) _ htrash rfl
  obtain ⟨qs, hd⟩ := serving_steps
    (DbCall.leaves_of_apart record { recursive := true } _ hapart) _
  refine ⟨record, node, time, w', ⟨_, qs⟩, htrash, rfl, ⟨m, .child hm hup hactive, hkind⟩,
    (trash_durable harrived hproc (DbCall.leaves_of_only_adds trivial)
    ⟨_, _, htrash, rfl⟩ ⟨rfl, rfl, rfl, rfl, rfl⟩ htrash hrecord ?_).2⟩
  rw [hw]
  exact hd

/-- A directory whose only child is in the trash counts as empty: its removal takes
the record and the trashed node along. -/
theorem removal_reaches_trash : ∃ (c d : System) (record : TrashRow),
    Reached Runtime.counting (fun e _ o => o.Leaves Runtime.counting record e.state) c ∧
    record ∈ c.state.db.trash ∧
    Steps (DbCall.exec Runtime.counting) (Served Runtime.counting)
      (fun e _ o => o.Leaves Runtime.counting record e.state) c d ∧
    d.state = serveAll Runtime.counting [(.trusted 0,
      .Perform (.Remove (.ofSegments [['a']] (by decide)) {}))] c.state ∧
    (∀ t ∈ d.state.db.trash, t ≠ record) ∧ ∀ n ∈ d.state.db.nodes, n.id ≠ record.node_id := by
  have hgone : ∃ record ∈ (serveAll Runtime.counting (afterTrashing.take 1)
    (serveAll Runtime.counting trashingRequests
        ⟨Db.empty, 0⟩)).db.trash.rows,
      (∀ t ∈ (serveAll Runtime.counting [(.trusted 0,
        .Perform (.Remove (.ofSegments [['a']] (by decide)) {}))]
        (serveAll Runtime.counting (afterTrashing.take 1)
          (serveAll Runtime.counting trashingRequests
          ⟨Db.empty, 0⟩))).db.trash.rows, t ≠ record) ∧
      ∀ n ∈ (serveAll Runtime.counting [(.trusted 0,
        .Perform (.Remove (.ofSegments [['a']] (by decide)) {}))]
        (serveAll Runtime.counting (afterTrashing.take 1)
          (serveAll Runtime.counting trashingRequests
          ⟨Db.empty, 0⟩))).db.nodes.rows, n.id ≠ record.node_id := by decide +kernel
  obtain ⟨record, hrecord, hgone⟩ := hgone
  obtain ⟨ps, hc⟩ := trashing_reached record
  obtain ⟨qs, htrash⟩ := serving_steps (@DbCall.leaves_of_only_adds record _ _ _
    (show OnlyAdds (.Trash (.ofSegments [['a'], ['f']] (by decide)) {}) from trivial)) ps
  have hremove : ∀ w, ∃ rs, Steps (DbCall.exec Runtime.counting) (Served Runtime.counting)
      (fun e _ o => o.Leaves Runtime.counting record e.state) ⟨w, qs⟩
      ⟨serveAll Runtime.counting [(.trusted 0, .Perform
        (.Remove (.ofSegments [['a']] (by decide)) {}))] w, rs⟩ := by
    refine fun w => ⟨_, Steps.arrive_finish (served_counting (.trusted 0)
      (.Perform (.Remove (.ofSegments [['a']] (by decide)) {})))
        (along_perform (fun _ => ⟨fun _ => id, ?_⟩))⟩
    rintro ws db operation ⟨rfl, rfl, rfl⟩ _
    exact id
  obtain ⟨rs, hd⟩ := hremove _
  exact ⟨_, _, record, Steps.mono (hc.trans htrash) (fun _ hp => hp) (fun _ _ _ hmay => hmay.1),
    hrecord, hd, rfl, hgone⟩

end fslite
