import Fslite.Sqlite.Run.Total
import Fslite.Sqlite.Run.Lone
import Fslite.Sqlite.Run.Listing
import Fslite.Sqlite.Run.Single

namespace fslite

open resolve

variable {rt : Runtime} {ws : WorkspaceId} {w : World} {metadata : Text}

namespace directory

/-- A directory is created under a name that no node has. -/
theorem create_directory_total (hwf : WellFormed w.db) (hissued : Issued rt w) {up : NodeId}
    (hup : IsDirectory w.db ws up) {name : Text} (hfree : fetch_child w.db ws up name = none)
    (path : VirtualPath) :
    ∃ row w', create_directory rt ws up name path metadata w = .ok (row, w') := by
  obtain ⟨p, hp, rfl, _, hpws, _⟩ := hup
  obtain ⟨workspace, hworkspace⟩ := hwf.nodes.workspace p hp
  rw [hpws] at hworkspace
  obtain ⟨nodes, hinsert⟩ := @WellFormed.insert_total w.db w.db hwf rfl rfl p
    (directoryRow (rt.newId w.tick) ws p.id name (rt.nowMs (w.tick + 1))) hp hpws rfl
    (fun g hg => by cases hg) (fetch_child_eq_none hfree) (fun m hm => hissued.node_fresh hm)
  obtain ⟨w', happend⟩ := @change.append_total ws ⟨{ w.db with nodes },
    w.tick + 2⟩ metadata workspace hworkspace
    (hwf.next_change hworkspace) .Created (some (rt.newId w.tick)) none (some path.as_str) (some 1)
      (rt.nowMs (w.tick + 1))
  refine ⟨(directoryRow (rt.newId w.tick) ws p.id name (rt.nowMs (w.tick + 1))).toRawNode, w', ?_⟩
  simp only [create_directory, Tx.new_id_bind, Tx.now_ms_bind, Tx.execute_bind_eq_ok]
  refine ⟨_, hinsert, ?_⟩
  rw [Tx.bind_of_ok happend]
  rfl

/-- A directory is made beneath the root. -/
theorem mkdir_root_total (hwf : WellFormed w.db) (hissued : Issued rt w) {root : NodeRow}
    (hroot : root ∈ w.db.nodes) (hws : root.workspace_id = ws) (hparent : root.parent_id = none)
    {name : Text} (hname : Segment name) (hfree : fetch_child w.db ws root.id name = none)
    (options : CreateOptions) :
    ∃ n w', mkdir_tx rt ws [name] options metadata w = .ok (.Created n.toRawNode, w') ∧
      n = directoryRow (rt.newId w.tick) ws root.id name (rt.nowMs (w.tick + 1)) ∧
      w.db.nodes.insert n = some w'.db.nodes ∧ w'.db.trash = w.db.trash ∧ w'.tick = w.tick + 2 := by
  obtain ⟨hkind, hactive⟩ := hwf.nodes.root_shape root hroot hparent
  obtain ⟨joined, hjoin, _⟩ := VirtualPath.root.join_segment hname
  obtain ⟨row, w', hcreate⟩ :=
    @create_directory_total rt ws w metadata hwf hissued root.id
    ⟨root, hroot, rfl, hkind, hws, hactive⟩
    name hfree joined
  obtain ⟨nodes, rfl, hins, htick, happ⟩ := create_directory_ok hcreate
  refine ⟨_, w', ?_, rfl, ?_, happ.appended.trash, htick⟩
  · simp only [mkdir_tx, Tx.query_bind, fetch_root_of_mem hwf.nodes hroot hws hparent,
      List.getLast?_singleton,
      List.dropLast_singleton, mkdir_ancestors, Tx.return_bind, Tx.expect_bind_eq_ok]
    refine ⟨name, rfl, ?_⟩
    rw [if_neg (not_not.mpr hkind), Tx.query_bind, hfree]
    simp only [Tx.expect_bind_eq_ok, hjoin]
    refine ⟨joined, rfl, ?_⟩
    rw [Tx.bind_of_ok hcreate]
    rfl
  · rw [hins, happ.appended.nodes]

end directory

namespace trash

/-- A directory beneath the root is trashed. -/
theorem trash_root_total (hwf : WellFormed w.db) (hissued : Issued rt w) {root n : NodeRow}
    (hroot : root ∈ w.db.nodes) (hws : root.workspace_id = ws) (hparent : root.parent_id = none)
    (hn : n ∈ w.db.nodes) (hnws : n.workspace_id = ws) (hup : n.parent_id = some root.id)
    (hactive : n.trashed_at_ms = none) {path : VirtualPath} (hpath : path.segments = [n.name])
    (options : MutationOptions) (hexpected : options.expected_revision = none) :
    ∃ t w', trash_tx rt ws path options metadata w = .ok
      (.Trashed (rt.newId w.tick) n.toRawNode t, w') := by
  obtain ⟨hrootkind, _⟩ := hwf.nodes.root_shape root hroot hparent
  have hchild := fetch_child_of_mem hwf.nodes hn hnws hup hactive
  have hfound : resolve_following w.db ws path false = .Found n.toRawNode := by
    have hrootkind' : root.toRawNode.kind = .Directory := hrootkind
    have hchild' : fetch_child w.db ws root.toRawNode.id n.name = some n.toRawNode := hchild
    simp only [resolve_following, fetch_root_of_mem hwf.nodes hroot hws hparent, hpath]
    unfold follow_loop
    simp only [descend, hrootkind', hchild', Bool.false_eq_true, false_and, if_false]
  have hnamed : path.name.isNone = false := by rw [VirtualPath.name_eq, hpath]; rfl
  obtain ⟨workspace, hworkspace⟩ := hwf.nodes.workspace n hn
  rw [hnws] at hworkspace
  obtain ⟨records, hinsert⟩ :=
    hissued.insert_trash_total hwf hn root.id n.name (rt.nowMs (w.tick + 1))
  rw [hnws] at hinsert
  have hupdate := @WellFormed.update_in_place_total { w.db with trash := records } w.db hwf rfl rfl rfl
    n hn (trashed (rt.nowMs (w.tick + 1))) rfl rfl rfl rfl (fun hlive => by cases hlive)
  obtain ⟨w', happend⟩ := @change.append_total ws
    ⟨{ w.db with trash := records, nodes :=
      w.db.nodes.modify n.id (trashed (rt.nowMs (w.tick + 1))) }, w.tick + 2⟩ metadata
    workspace hworkspace (hwf.next_change hworkspace) .Trashed (some n.id)
      (some path.as_str) none (some n.revision)
    (rt.nowMs (w.tick + 1))
  refine ⟨rt.nowMs (w.tick + 1), w', ?_⟩
  have hstale : stale options.expected_revision n.revision = false := by rw [hexpected]; rfl
  simp only [trash_tx, hnamed, Bool.false_eq_true, if_false, Tx.query_bind, hfound, hstale,
    Tx.new_id_bind, Tx.now_ms_bind,
    Tx.expect_bind_eq_ok, Tx.execute_bind_eq_ok]
  refine ⟨root.id, hup, _, hinsert, _, hupdate, ?_⟩
  rw [Tx.bind_of_ok happend]
  rfl

end trash

/-- The store after an operation that is served alone. -/
theorem served_operation {ctx : RequestContext} {operation : BatchOperation} {w' : World} {A : Type}
    {result : FsResult A} {wrap : A → BatchResult}
    (hcapability : ctx.has_capability (mutate.required_capability operation) = true)
    (h : mutate.execute_batch_operation rt ctx.workspace_id operation (actor_json rt ctx) w = .ok
    (mutate.to_step result wrap, w')) :
    (((Request.Perform operation).serve rt ctx).run.run (DbCall.exec rt) w).2 = w' := by
  have hserve : ((Request.Perform operation).serve rt ctx).run.run (DbCall.exec rt) w = _ :=
    Task.run_map
  rw [hserve, perform_run, if_pos hcapability, h, settle_to_step]

/-- A directory beneath the root is made, and trashed. -/
def discardRequests (ws : WorkspaceId) (path : VirtualPath) : List (RequestContext × Request) :=
  [(.trusted ws, .Perform (.Mkdir path {})), (.trusted ws, .Perform (.Trash path {}))]

/-- A workspace in which nothing is left beneath the root. -/
structure Bare (rt : Runtime) (ws : WorkspaceId) (w : World) : Prop where
  reach : Reachable rt w
  workspace : ∃ row, w.db.workspace? ws = some row
  clear : ∀ m ∈ w.db.nodes, m.workspace_id = ws → m.parent_id ≠ none → m.trashed_at_ms ≠ none

/-- One directory more has a record. -/
theorem Bare.discard (h : Bare rt ws w) {path : VirtualPath} {name : Text}
    (hpath : path.segments = [name]) (hname : Segment name) :
    Bare rt ws (serveAll rt (discardRequests ws path) w) ∧
      (trash.records (serveAll rt (discardRequests ws path) w).db ws).length =
      (trash.records w.db ws).length + 1 ∧
      (serveAll rt (discardRequests ws path) w).tick = w.tick + 4 := by
  obtain ⟨workspace, hworkspace⟩ := h.workspace
  have hwf := h.reach.sound.wf
  obtain ⟨root, hroot, hws, hparent⟩ := hwf.nodes.root ws workspace hworkspace
  have hfree : fetch_child w.db ws root.id name = none := by
    cases hchild : fetch_child w.db ws root.id name with
    | none => rfl
    | some raw =>
      obtain ⟨m, hm, _, hmws, hmup, _, hmactive⟩ := fetch_child_eq_some hchild
      exact absurd hmactive (h.clear m hm hmws (by rw [hmup]; exact Option.some_ne_none _))
  obtain ⟨n, w₁, hmkdir, hn, hins, htrash, htick⟩ :=
    @directory.mkdir_root_total rt ws w (actor_json rt (.trusted ws))
    hwf h.reach.sound.issued root hroot hws hparent name hname hfree {}
  have hnamed : path.name.isNone = false := by rw [VirtualPath.name_eq, hpath]; rfl
  have hmade : mutate.execute_batch_operation rt ws (.Mkdir path {})
    (actor_json rt (.trusted ws)) w =
      .ok (mutate.to_step (directory.mkdir_result (.Created n.toRawNode) path) .Node, w₁) := by
    simp only [mutate.execute_batch_operation, hnamed, Bool.false_eq_true, if_false, hpath]
    rw [Tx.bind_of_ok hmkdir]
    rfl
  have hmade := @served_operation rt w (.trusted ws) (.Mkdir path {}) w₁ _ _ _ rfl hmade
  have hreach₁ : Reachable rt w₁ := hmade ▸ h.reach.serve (.trusted ws) (.Perform (.Mkdir path {}))
  have hwf₁ := hreach₁.sound.wf
  have hmem (m : NodeRow) : m ∈ w₁.db.nodes ↔ m ∈ w.db.nodes ∨ m = n := Table.mem_insert hins
  have hn₁ : n ∈ w₁.db.nodes := (hmem n).mpr (.inr rfl)
  have hroot₁ : root ∈ w₁.db.nodes := (hmem root).mpr (.inl hroot)
  have hshape : n.workspace_id = ws ∧ n.parent_id = some root.id ∧ n.trashed_at_ms = none ∧
      n.name = name := by
    rw [hn]
    exact ⟨rfl, rfl, rfl, rfl⟩
  obtain ⟨hnws, hup, hactive, hnname⟩ := hshape
  obtain ⟨t, w₂, htrashed⟩ :=
    @trash.trash_root_total rt ws w₁ (actor_json rt (.trusted ws)) hwf₁ hreach₁.sound.issued root n
    hroot₁ hws hparent hn₁ hnws hup hactive path (by rw [hnname]; exact hpath) {} rfl
  have hgone : mutate.execute_batch_operation rt ws (.Trash path {})
    (actor_json rt (.trusted ws)) w₁ =
      .ok (mutate.to_step (trash.trash_result (.Trashed (rt.newId w₁.tick) n.toRawNode t) path
        (rt.actorMetadata (actor_json rt (.trusted ws)))) .Trash, w₂) := by
    simp only [mutate.execute_batch_operation]
    rw [Tx.bind_of_ok htrashed]
    rfl
  have hgone := @served_operation rt w₁ (.trusted ws) (.Trash path {}) w₂ _ _ _ rfl hgone
  have hserved : serveAll rt (discardRequests ws path) w = w₂ := by
    rw [discardRequests, serveAll, serveAll, serveAll, hmade, hgone]
  rw [hserved]
  have hreach₂ : Reachable rt w₂ := hgone ▸ hreach₁.serve (.trusted ws) (.Perform (.Trash path {}))
  obtain ⟨_, hnot⟩ | ⟨node, up, records, houtcome, _, _, hrecord, htick₂, happ⟩ :=
    trash.trash_tx_ok htrashed
  · exact absurd rfl (hnot _ _ _)
  cases houtcome
  have hmarked (m : NodeRow) (hm : m ∈ w₂.db.nodes) : m.trashed_at_ms ≠ none ∨ m ∈ w.db.nodes := by
    rw [happ.appended.nodes] at hm
    obtain rfl | ⟨hm, hne⟩ := (Table.mem_modify_of_mem hn₁).mp hm
    · exact .inl (Option.some_ne_none _)
    · refine .inr (((hmem m).mp hm).resolve_right ?_)
      rintro rfl
      exact hne rfl
  have hroot₂ : root ∈ w₂.db.nodes := by
    rw [happ.appended.nodes]
    refine (Table.mem_modify_of_mem hn₁).mpr (.inr ⟨hroot₁, fun heq => ?_⟩)
    have hsame := Table.eq_of_key_eq hroot₁ hn₁ heq
    rw [hsame, hup] at hparent
    cases hparent
  refine ⟨⟨hreach₂, ?_, fun m hm hmws hmup => ?_⟩, ?_, by omega⟩
  · have hworkspace₂ := hreach₂.sound.wf.nodes.workspace root hroot₂
    rwa [hws] at hworkspace₂
  · exact (hmarked m hm).elim id (fun hold => h.clear m hold hmws hmup)
  · have hrows : w₂.db.trash.rows =
        w.db.trash.rows ++ [⟨rt.newId w₁.tick, ws, n.id, up, n.name, rt.nowMs (w₁.tick + 1)⟩] := by
      rw [happ.appended.trash, ← htrash]
      exact (Table.insert_eq_some.mp hrecord).2
    simp only [trash.records, List.length_insertionSort, hrows, List.filter_append,
      List.length_append]
    simp

/-- However often that is done, there is a record for each time. -/
theorem Bare.discards (h : Bare rt ws w) {path : VirtualPath} {name : Text}
    (hpath : path.segments = [name]) (hname : Segment name) (n : Nat) :
    Bare rt ws ((serveAll rt (discardRequests ws path))^[n] w) ∧
      (trash.records ((serveAll rt (discardRequests ws path))^[n] w).db ws).length =
      (trash.records w.db ws).length + n ∧
      ((serveAll rt (discardRequests ws path))^[n] w).tick = w.tick + 4 * n := by
  induction n with
  | zero => exact ⟨h, rfl, rfl⟩
  | succ n ih =>
    obtain ⟨hbare, hlength, htick⟩ := ih
    obtain ⟨hbare', hlength', htick'⟩ := hbare.discard hpath hname
    rw [Function.iterate_succ_apply']
    exact ⟨hbare', by omega, by omega⟩

end fslite
