import Fslite.Sqlite.Run.Tree

namespace fslite

open workspace

/-- No untrashed node hangs under a trashed one. -/
def Uncovered (db : Db) : Prop :=
  ∀ n ∈ db.nodes, n.trashed_at_ms = none → ∀ p ∈ db.nodes, n.parent_id = some p.id →
    p.trashed_at_ms = none

namespace Uncovered

variable {db db' : Db}

theorem empty : Uncovered Db.empty := fun _ hn => by cases hn

/-- Fewer nodes stay uncovered. -/
theorem anti (h : Uncovered db) (hsub : ∀ m ∈ db'.nodes, m ∈ db.nodes) : Uncovered db' :=
  fun n hn hactive p hp hup => h n (hsub n hn) hactive p (hsub p hp) hup

theorem congr (h : Uncovered db) (hnodes : db'.nodes = db.nodes) : Uncovered db' :=
  h.anti (fun _ hm => hnodes ▸ hm)

/-- A new untrashed node whose parent, if it has one, is untrashed. -/
theorem insert (h : Uncovered db) {n : NodeRow} {nodes : Table NodeRow.key}
    (hins : db.nodes.insert n = some nodes) (hactive : n.trashed_at_ms = none)
    (hup : ∀ up, n.parent_id = some up → ∃ p ∈ db.nodes, p.id = up ∧ p.trashed_at_ms = none) :
    Uncovered { db with nodes } := by
  intro m hm hmactive p hp hparent
  obtain hp | rfl := (Table.mem_insert hins).mp hp
  · obtain hm | rfl := (Table.mem_insert hins).mp hm
    · exact h m hm hmactive p hp hparent
    · obtain ⟨q, hq, hid, hqactive⟩ := hup p.id hparent
      rwa [← db.node_ext hq hp hid]
  · exact hactive

/-- A changed row that covers no untrashed child and, if it is untrashed, has an
untrashed parent. -/
theorem modify (h : Uncovered db) {n : NodeRow} (hn : n ∈ db.nodes) {u : Table.Update NodeRow.key}
    (hbelow : ∀ m ∈ db.nodes, m.trashed_at_ms = none → m.parent_id = some n.id →
    (u.apply n).trashed_at_ms = none)
    (habove : (u.apply n).trashed_at_ms = none → ∀ p ∈ db.nodes, (u.apply n).parent_id = some p.id →
    p.trashed_at_ms = none) :
    Uncovered { db with nodes := db.nodes.modify n.id u } := by
  have hid : (u.apply n).id = n.id := u.key_apply n
  intro m hm hactive p hp hup
  obtain rfl | ⟨hp, _⟩ := (Db.mem_modify_nodes hn).mp hp
  · obtain rfl | ⟨hm, _⟩ := (Db.mem_modify_nodes hn).mp hm
    · exact hactive
    · exact hbelow m hm hactive (hid ▸ hup)
  · obtain rfl | ⟨hm, _⟩ := (Db.mem_modify_nodes hn).mp hm
    · exact habove hactive p hp hup
    · exact h m hm hactive p hp hup

/-- A changed row that keeps its parent and its mark. -/
theorem modify_in_place (h : Uncovered db) {n : NodeRow} (hn : n ∈ db.nodes)
    {u : Table.Update NodeRow.key} (hparent : (u.apply n).parent_id = n.parent_id)
    (hmark : (u.apply n).trashed_at_ms = n.trashed_at_ms) :
    Uncovered { db with nodes := db.nodes.modify n.id u } := by
  refine h.modify hn (fun m hm hactive hup => ?_) (fun hactive p hp hup => ?_)
  · exact hmark ▸ h m hm hactive n hn hup
  · exact h n hn (hmark ▸ hactive) p hp (hparent ▸ hup)

/-- In a store whose nodes all climb to a root, the untrashed ones are live. -/
theorem live (h : Uncovered db) (hrooted : Rooted db) (hwf : NodesWellFormed db) {n : NodeRow}
    (hn : n ∈ db.nodes) (hactive : n.trashed_at_ms = none) : Live db n.workspace_id n := by
  obtain ⟨r, hr, hroot, hbelow⟩ := hrooted n hn
  have hclimb : ∀ x, Below db.parent x r.id → ∀ m ∈ db.nodes, m.id = x → m.trashed_at_ms = none →
      Live db m.workspace_id m := by
    intro x hx
    induction hx using Below.head_induction with
    | top =>
      intro m hm hid hmactive
      obtain rfl := db.node_ext hm hr hid
      exact .root hm rfl hroot hmactive
    | @step x y hxy hyr ih =>
      rintro m hm rfl hmactive
      rw [Db.parent_of_mem hm] at hxy
      obtain ⟨p, hp, rfl, hws, hdir⟩ := hwf.parent m hm y hxy
      have hp' := ih p hp rfl (h m hm hmactive p hp hxy)
      exact .child (hws ▸ hp') hdir hm rfl hxy hmactive
  exact hclimb n.id hbelow n hn rfl hactive

end Uncovered

/-- Changes that trash no node with untrashed children keep the store uncovered. -/
theorem Edit.uncovered {P : Policy} {fresh : Uuid → Prop} {mine : GenerationId → Prop} {db db' : Db}
    (h : Edit P fresh mine db db') (hwf : NodesWellFormed db)
    (htrash : ∀ n ∈ db.nodes, P.trash db n.id →
    resolve.has_active_children db n.workspace_id n.id = false)
    (huncovered : Uncovered db) : Uncovered db' := by
  cases h with
  | insert n p hf hp hdir hopen hup hws hsegment hfree hactive hrevision hfile hcontent hins =>
    refine huncovered.insert hins hactive (fun up hparent => ⟨p, hp, ?_, hopen⟩)
    rw [hup, Option.some.injEq] at hparent
    exact hparent
  | revise n hlive u hrow as hother =>
    exact (huncovered.modify_in_place (u := u) hlive.mem (by rw [hrow]) (by rw [hrow])).congr rfl
  | replace n hlive g hm length hready old hold now =>
    exact (huncovered.modify_in_place
      (u := content.replaced g length _ now) hlive.mem rfl rfl).congr rfl
  | relocate n p hlive hroot hp hdir name hsegment hfree hpolicy now =>
    refine huncovered.modify (u := mutate.moved p.id name _ now) hlive.mem
      (fun _ _ _ _ => hlive.active)
      (fun _ q hq hup => ?_)
    simp only [mutate.moved, Option.some.injEq] at hup
    rw [← db.node_ext hp.mem hq hup]
    exact hp.active
  | purge n => exact huncovered.anti (fun m hm => (Db.mem_purge_nodes.mp hm).1)
  | trash n hlive t hf hnode hws hup hname hpolicy hins now =>
    refine (huncovered.modify (u := trash.trashed now) hlive.mem (fun m hm hactive hparent => ?_)
      (fun hactive => by cases hactive)).congr rfl
    obtain ⟨p, hp, hid, hpws, _⟩ := hwf.parent m hm n.id hparent
    obtain rfl := db.node_ext hp hlive.mem hid
    have hnone := htrash p hlive.mem hpolicy
    simp only [resolve.has_active_children, List.any_eq_false, decide_eq_true_eq] at hnone
    exact absurd ⟨hpws.symm, hparent, hactive⟩ (hnone m hm)
  | restore n p hn t ht hnode hp hdir hws hactive hplace name hsegment hfree hpolicy now =>
    refine (huncovered.modify (u := trash.restored p.id name _ now) hn (fun _ _ _ _ => rfl)
      (fun _ q hq hup => ?_)).congr rfl
    simp only [trash.restored, Option.some.injEq] at hup
    rwa [← db.node_ext hp hq hup]
  | enter row root hroot hid hseq now hws hins =>
    exact (huncovered.insert hins rfl (fun up hup => by cases hup)).congr rfl
  | reset ws row hrow hpolicy root hroot now hins =>
    have hcleared : Uncovered (db.clear ws) :=
      huncovered.anti (fun m hm => (Db.mem_clear_nodes.mp hm).1)
    exact (hcleared.insert hins rfl (fun up hup => by cases hup)).congr rfl
  | erase ws => exact huncovered.anti (fun m hm => (Db.mem_clear_nodes.mp hm).1)
  | _ => exact huncovered.congr rfl

open Classical in
/-- The nodes that are reached from the workspace's root through untrashed nodes. -/
noncomputable def Db.live (db : Db) (ws : WorkspaceId) : List NodeRow :=
  db.nodes.rows.filter (fun n => Live db ws n)

open Classical in
/-- The workspace's remaining nodes. -/
noncomputable def Db.hidden (db : Db) (ws : WorkspaceId) : List NodeRow :=
  db.nodes.rows.filter (fun n => n.workspace_id = ws ∧ ¬ Live db ws n)

/-- The usage tells what is reached from the root from what is not. -/
structure Accounts (db : Db) (ws : WorkspaceId) (usage : WorkspaceUsage) : Prop where
  active_nodes : usage.active_nodes = (db.live ws).length
  active_logical_bytes : usage.active_logical_bytes = total_size (db.live ws)
  trashed_nodes : usage.trashed_nodes = (db.hidden ws).length
  trashed_logical_bytes : usage.trashed_logical_bytes = total_size (db.hidden ws)

section accounts

variable {db : Db} {ws : WorkspaceId} {raw : RawUsage}

/-- The usage is right exactly if every untrashed node is live. -/
theorem accounts_iff (h : fetch_usage db ws = some raw) : Accounts db ws (raw.into_usage ws) ↔
    ∀ n ∈ db.nodes, n.workspace_id = ws → n.trashed_at_ms = none → Live db ws n := by
  classical
  unfold fetch_usage at h
  split at h
  · cases h
  · cases h
    constructor
    · intro haccounts n hn hws hactive
      -- the live nodes are among the untrashed ones and as many
      have hsub : (db.live ws).Sublist
          (db.nodes.rows.filter (fun n => n.workspace_id = ws ∧ n.trashed_at_ms = none)) := by
        refine List.monotone_filter_right _ (fun m hm => ?_)
        have hlive : Live db ws m := by simpa using hm
        simpa using ⟨hlive.workspace, hlive.active⟩
      have hsame := hsub.eq_of_length haccounts.active_nodes.symm
      have hmem : n ∈ db.live ws := hsame ▸ List.mem_filter.mpr ⟨hn, by simpa using ⟨hws, hactive⟩⟩
      simpa using (List.mem_filter.mp hmem).2
    · intro hall
      have hlive : db.nodes.rows.filter (fun n => n.workspace_id = ws ∧ n.trashed_at_ms = none) =
          db.live ws := by
        refine List.filter_congr (fun m hm => ?_)
        simp only [decide_eq_decide]
        exact ⟨fun h => hall m hm h.1 h.2, fun h => ⟨h.workspace, h.active⟩⟩
      have hhidden : db.nodes.rows.filter (fun n => n.workspace_id = ws ∧ n.trashed_at_ms ≠ none) =
          db.hidden ws := by
        refine List.filter_congr (fun m hm => ?_)
        simp only [decide_eq_decide]
        exact and_congr_right (fun hws => not_congr ⟨hall m hm hws, Live.active⟩)
      exact ⟨congrArg List.length hlive, congrArg total_size hlive, congrArg List.length hhidden,
        congrArg total_size hhidden⟩

theorem fetch_usage_stored {row : WorkspaceRow} (hrow : db.workspace? ws = some row) :
    ∃ raw, fetch_usage db ws = some raw := by
  unfold fetch_usage
  rw [hrow]
  exact ⟨_, rfl⟩

/-- What the method returns on its own. -/
theorem workspace_usage_run {rt : Runtime} {ctx : RequestContext} {w : World}
    (hread : ctx.has_capability .Read = true) (h : fetch_usage w.db ctx.workspace_id = some raw) :
    ((SqliteFileSystem.workspace_usage ctx).run.run (DbCall.exec rt) w).1 = .ok
    (raw.into_usage ctx.workspace_id) := by
  unfold SqliteFileSystem.workspace_usage require_capability
  rw [if_pos hread]
  show (Prog.run _ (Prog.call (DbCall.fetch_usage ctx.workspace_id) _) w).1 = _
  simp only [Prog.run, DbCall.exec, DbCall.body, Tx.query, h]
  rfl

end accounts

/-- The operation is a trash of a node that has untrashed children. -/
def HidesActive (db : Db) (ws : WorkspaceId) : BatchOperation → Prop
  | .Trash path options => ∃ node, trash.Trashes db ws path options node ∧
  resolve.has_active_children db ws node.id = true
  | _ => False

/-- Whether the path leads to a node with untrashed children. -/
def leads_above (db : Db) (ws : WorkspaceId) (path : VirtualPath) : Bool :=
  match resolve.resolve_following db ws path false with
  | .Found node => resolve.has_active_children db ws node.id
  | _ => false

theorem HidesActive.leads_above {db : Db} {ws : WorkspaceId} {path : VirtualPath}
    {options : MutationOptions} (h : HidesActive db ws (.Trash path options)) :
    leads_above db ws path = true := by
  obtain ⟨node, htrashes, hchildren⟩ := h
  unfold fslite.leads_above
  rw [htrashes.found]
  exact hchildren

/-- Moves go nowhere at or below their source, and nodes are trashed when they
have no untrashed children. -/
def Policy.uncovered : Policy :=
  { Policy.outward with
    trash := fun db id => ∀ n ∈ db.nodes, n.id = id →
      resolve.has_active_children db n.workspace_id id = false }

theorem Policy.uncovered_permits {db : Db} {ws : WorkspaceId} {operation : BatchOperation}
    (hmove : ¬ MovesInward db ws operation) (htrash : ¬ HidesActive db ws operation) :
    Policy.uncovered.Permits ws db operation := by
  have houtward := Policy.outward_permits hmove
  cases operation with
  | Trash path options =>
    rintro node htrashes n hn hid
    obtain ⟨m, rfl, hlive⟩ := resolve.resolve_following_live htrashes.found
    obtain rfl := db.node_ext hn hlive.mem hid
    rw [hlive.workspace]
    exact Bool.eq_false_iff.mpr (fun hchildren => htrash ⟨_, htrashes, hchildren⟩)
  | _ => exact houtward

/-- In every run in which no move puts its source under itself and no node is
trashed that has untrashed children, the usage tells at any time what is reached
from the root from what is not. -/
theorem Reached.accounts {rt : Runtime} {c : System}
    (h : Reached rt (fun c _ o => ∀ ws db operation, o.Performs rt c.state ws db operation →
      ¬ MovesInward db ws operation ∧ ¬ HidesActive db ws operation) c)
    (ctx : RequestContext) (hread : ctx.has_capability .Read = true) (row : WorkspaceRow)
    (hrow : c.state.db.workspace? ctx.workspace_id = some row) :
    ∃ usage, ((SqliteFileSystem.workspace_usage ctx).run.run (DbCall.exec rt) c.state).1 =
      .ok usage ∧
      Accounts c.state.db ctx.workspace_id usage := by
  have hallowed : Reached rt (fun c _ o => Policy.uncovered.Allows rt c.state o) c :=
    h.mono (fun _ hp => hp)
    (fun c _ o hmay => Policy.allows_of_performs (fun hl => hl) (fun _ _ => trivial)
      (fun ws db operation hop =>
      Policy.uncovered_permits (hmay ws db operation hop).1 (hmay ws db operation hop).2))
  have hrooted : Rooted c.state.db := hallowed.invariant Rooted.empty
    (fun hedit hwf => hedit.rooted hwf (fun _ _ hpolicy => hpolicy))
  have huncovered : Uncovered c.state.db := hallowed.invariant Uncovered.empty
    (fun {_ _ a _} hedit hwf => hedit.uncovered hwf.nodes
      (fun n hn (hpolicy : Policy.uncovered.trash a n.id) => hpolicy n hn rfl))
  obtain ⟨raw, hraw⟩ := fetch_usage_stored hrow
  refine ⟨_, workspace_usage_run hread hraw, (accounts_iff hraw).mpr ?_⟩
  intro n hn hws hactive
  exact hws ▸ huncovered.live hrooted hallowed.sound.wf.nodes hn hactive

/-- A new workspace with the empty directories `/a` and `/b`. -/
def emptyRequests : List (RequestContext × Request) :=
  [(.trusted 0, .CreateWorkspace {}),
    (.trusted 0, .Perform (.Mkdir (.named [['a']]) {})),
    (.trusted 0, .Perform (.Mkdir (.named [['b']]) {}))]

/-- After `/b` is trashed, the usage tells it from `/a`. -/
theorem empty_accounts : ∃ w usage,
    w = serveAll Runtime.counting [(.trusted 0, .Perform
      (.Trash (.ofSegments [['b']] (by decide)) {}))]
      (serveAll Runtime.counting emptyRequests ⟨Db.empty, 0⟩) ∧
    ((SqliteFileSystem.workspace_usage (.trusted 0)).run.run (DbCall.exec Runtime.counting) w).1 =
    .ok usage ∧
    Accounts w.db 0 usage := by
  have hmade : ∃ ps, Reached Runtime.counting (fun c _ o => ∀ ws db operation,
      o.Performs Runtime.counting c.state ws db operation → ¬ MovesInward db ws operation ∧
        ¬ HidesActive db ws operation)
      ⟨serveAll Runtime.counting emptyRequests ⟨Db.empty, 0⟩, ps⟩ := by
    refine serveAll_steps (fun r _ => ⟨r.1, r.2, rfl⟩) (fun r hr w => ?_) _ _
    simp only [emptyRequests, List.mem_cons, List.not_mem_nil, or_false] at hr
    obtain rfl | rfl | rfl := hr
    · exact Task.along_map ⟨fun _ _ _ _ _ hop => hop.elim, trivial⟩
    · exact along_perform (by rintro _ _ _ _ _ ⟨rfl, rfl, rfl⟩; exact ⟨id, id⟩)
    · exact along_perform (by rintro _ _ _ _ _ ⟨rfl, rfl, rfl⟩; exact ⟨id, id⟩)
  obtain ⟨ps, hmade⟩ := hmade
  obtain ⟨qs, htrashed⟩ := hmade.serve (.trusted 0)
    (.Perform (.Trash (.ofSegments [['b']] (by decide)) {})) (along_perform (by
    rintro _ _ _ _ ⟨rfl, rfl, rfl⟩
    exact ⟨id, fun hhides => absurd hhides.leads_above
      (show ¬ leads_above (serveAll Runtime.counting emptyRequests
      ⟨Db.empty, 0⟩).db 0 (.ofSegments [['b']] (by decide)) = true by decide +kernel)⟩))
  obtain ⟨row, hrow⟩ := Option.isSome_iff_exists.mp (show ((serveAll Runtime.counting
    [(.trusted 0, .Perform (.Trash (.ofSegments [['b']] (by decide)) {}))]
    (serveAll Runtime.counting emptyRequests ⟨Db.empty, 0⟩)).db.workspace? 0).isSome =
      true by decide +kernel)
  obtain ⟨usage, husage⟩ := htrashed.accounts (.trusted 0) rfl row hrow
  exact ⟨_, usage, rfl, husage⟩

/-- A new workspace with a file `/a/f`, and `/a` trashed. -/
def hiddenRequests : List (RequestContext × Request) :=
  [(.trusted 0, .CreateWorkspace {}),
    (.trusted 0, .Perform (.Mkdir (.named [['a']]) {})),
    (.trusted 0, .Perform (.Touch (.named [['a'], ['f']]) {})),
    (.trusted 0, .Perform (.Trash (.named [['a']]) {}))]

/-- The file inside the trashed directory is reported as active. -/
theorem hidden_not_accounts :
    Reachable Runtime.counting (serveAll Runtime.counting hiddenRequests ⟨Db.empty, 0⟩) ∧
    ∃ usage, ((SqliteFileSystem.workspace_usage (.trusted 0)).run.run (DbCall.exec Runtime.counting)
        (serveAll Runtime.counting hiddenRequests ⟨Db.empty, 0⟩)).1 = .ok usage ∧
        usage.active_nodes = 2 ∧
      ¬ Accounts (serveAll Runtime.counting hiddenRequests ⟨Db.empty, 0⟩).db 0 usage := by
  refine ⟨(Reachable.empty _).serveAll _, ?_⟩
  have hraw : ∃ raw, fetch_usage (serveAll Runtime.counting hiddenRequests ⟨Db.empty, 0⟩).db 0 =
    some raw ∧
      raw.active_nodes = 2 := by
    refine ⟨_, rfl, ?_⟩
    decide +kernel
  obtain ⟨raw, hraw, hcount⟩ := hraw
  refine ⟨_, workspace_usage_run (by rfl) hraw, hcount, fun haccounts => ?_⟩
  have hcovered : ∃ n ∈ (serveAll Runtime.counting hiddenRequests ⟨Db.empty, 0⟩).db.nodes.rows,
    n.workspace_id = 0 ∧
      n.trashed_at_ms = none ∧
        ∃ m ∈ (serveAll Runtime.counting hiddenRequests ⟨Db.empty, 0⟩).db.nodes.rows,
        n.parent_id = some m.id ∧ m.trashed_at_ms ≠ none := by decide +kernel
  obtain ⟨n, hn, hws, hactive, m, hm, hup, htrashed⟩ := hcovered
  have hlive := (accounts_iff hraw).mp haccounts n hn hws hactive
  obtain ⟨p, hp, _, hid⟩ := hlive.parent hup
  obtain rfl := Table.eq_of_key_eq hp.mem hm hid
  exact htrashed hp.active

end fslite
