import Fslite.Sqlite.Edit

namespace fslite

namespace Db

variable {db : Db} {ws : WorkspaceId} {id : NodeId}

theorem workspace?_bump_sequence (db : Db) (ws : WorkspaceId) (now : Int) (id : WorkspaceId) :
    (db.bump_sequence ws now).workspace? id = if id = ws then
      (db.workspace? ws).map (fun row =>
      { row with change_seq := row.change_seq + 1, updated_at_ms := now })
    else db.workspace? id := Table.find?_modify _ _ _

theorem workspace?_reset_sequence (db : Db) (ws : WorkspaceId) (now : Int) (id : WorkspaceId) :
    (db.reset_sequence ws now).workspace? id = if id = ws then
      (db.workspace? ws).map (fun row => { row with change_seq := 0, updated_at_ms := now })
    else db.workspace? id := Table.find?_modify _ _ _

theorem below_of_mem {n : NodeRow} (hn : n ∈ db.nodes) {up : NodeId} (hup : n.parent_id = some up) :
    Below db.parent n.id id ↔ n.id = id ∨ Below db.parent up id := by
  have hparent : db.parent n.id = some up := by rw [parent_of_mem hn, hup]
  constructor
  · exact fun h => h.eq_or_parent hparent
  · rintro (rfl | h)
    · exact Below.refl _ _
    · exact Below.head hparent h

theorem below_of_root {n : NodeRow} (hn : n ∈ db.nodes) (hroot : n.parent_id = none) :
    Below db.parent n.id id ↔ n.id = id := by
  constructor
  · exact fun h => h.eq_of_root (by rw [parent_of_mem hn, hroot])
  · rintro rfl
    exact Below.refl _ _

/-- After an update of a stored node, a row is the updated one or another old one. -/
theorem mem_modify_nodes {n m : NodeRow} (hn : n ∈ db.nodes) {u : Table.Update NodeRow.key} :
    m ∈ db.nodes.modify n.id u ↔ m = u.apply n ∨ m ∈ db.nodes ∧ m.id ≠ n.id :=
      Table.mem_modify_of_mem hn

theorem mem_purge_nodes {m : NodeRow} :
    m ∈ (db.purge id).nodes ↔ m ∈ db.nodes ∧ ¬ Below db.parent m.id id := by
  show m ∈ db.nodes.deleteWhere _ ↔ _
  rw [Table.mem_deleteWhere, ← Bool.not_eq_true, cascades_iff]

theorem mem_clear_nodes {m : NodeRow} :
    m ∈ (db.clear ws).nodes ↔ m ∈ db.nodes ∧ m.workspace_id ≠ ws := by
  show m ∈ db.nodes.deleteWhere _ ↔ _
  rw [Table.mem_deleteWhere, decide_eq_false_iff_not]

end Db

namespace NodesWellFormed

variable {db db' : Db}

/-- Whatever does not touch the node table keeps it well-formed, as long as no
workspace appears or disappears. -/
theorem frame (h : NodesWellFormed db) (hnodes : db'.nodes = db.nodes)
    (hws : ∀ id, (∃ w, db'.workspace? id = some w) ↔ ∃ w, db.workspace? id = some w) :
    NodesWellFormed db' := by
  constructor <;> simp only [hnodes]
  · exact fun n hn => (hws _).mpr (h.workspace n hn)
  · intro ws w hw
    obtain ⟨w', hw'⟩ := (hws ws).mp ⟨w, hw⟩
    exact h.root ws w' hw'
  · exact h.root_unique
  · exact h.root_shape
  · exact h.parent
  · exact h.name
  · exact h.segment
  · exact h.revision

theorem bump_sequence (h : NodesWellFormed db) {ws : WorkspaceId} {row : WorkspaceRow}
    (hrow : db.workspace? ws = some row) (now : Int) :
    NodesWellFormed (db.bump_sequence ws now) := by
  refine h.frame rfl (fun id => ?_)
  rw [Db.workspace?_bump_sequence]
  by_cases hid : id = ws
  · subst hid
    simp [hrow]
  · rw [if_neg hid]

/-- A new child of a directory, with a free name. -/
theorem insert (h : NodesWellFormed db) {n p : NodeRow} {nodes : Table NodeRow.key}
    (hp : p ∈ db.nodes) (hdir : p.kind = .Directory) (hup : n.parent_id = some p.id)
    (hws : p.workspace_id = n.workspace_id) (hsegment : Segment n.name)
    (hfree : db.Free n.workspace_id p.id n.name) (hrevision : 0 < n.revision)
    (hins : db.nodes.insert n = some nodes) : NodesWellFormed { db with nodes } := by
  have hmem : ∀ m, m ∈ nodes ↔ m ∈ db.nodes ∨ m = n := fun m => Table.mem_insert hins
  refine ⟨?_, ?_, ?_, ?_, ?_, ?_, ?_, ?_⟩ <;> simp only [hmem]
  · rintro m (hm | rfl)
    · exact h.workspace m hm
    · rw [← hws]
      exact h.workspace p hp
  · intro ws w hw
    obtain ⟨m, hm, hmws⟩ := h.root ws w hw
    exact ⟨m, Or.inl hm, hmws⟩
  · rintro m (hm | rfl) m' (hm' | rfl) hsame hroot hroot'
    · exact h.root_unique m hm m' hm' hsame hroot hroot'
    · simp [hup] at hroot'
    · simp [hup] at hroot
    · rfl
  · rintro m (hm | rfl) hroot
    · exact h.root_shape m hm hroot
    · simp [hup] at hroot
  · rintro m (hm | rfl) up hmup
    · obtain ⟨q, hq, hrest⟩ := h.parent m hm up hmup
      exact ⟨q, Or.inl hq, hrest⟩
    · rw [hup, Option.some.injEq] at hmup
      exact ⟨p, Or.inl hp, hmup, hws, hdir⟩
  · rintro m (hm | rfl) m' (hm' | rfl) hsame hparent hchild hname hactive hactive'
    · exact h.name m hm m' hm' hsame hparent hchild hname hactive hactive'
    · exact absurd hactive (hfree m hm hsame (hparent.trans hup) hname)
    · exact absurd hactive' (hfree m' hm' hsame.symm (hparent.symm.trans hup) hname.symm)
    · rfl
  · rintro m (hm | rfl) hchild
    · exact h.segment m hm hchild
    · exact hsegment
  · rintro m (hm | rfl)
    · exact h.revision m hm
    · exact hrevision

/-- A new root directory, with its workspace. -/
theorem enter (h : NodesWellFormed db) {row : WorkspaceRow} {root : NodeId} {now : Int}
    {workspaces : Table WorkspaceRow.id} (hws : db.workspaces.insert row = some workspaces)
    {nodes : Table NodeRow.key}
    (hins : db.nodes.insert (workspace.rootRow root row.id now) = some nodes) :
    NodesWellFormed { db with workspaces, nodes } := by
  have hmem : ∀ m, m ∈ nodes ↔ m ∈ db.nodes ∨ m = workspace.rootRow root row.id now :=
    fun m => Table.mem_insert hins
  have hfind := Table.find?_insert hws
  have hnew : ∀ m ∈ db.nodes, m.workspace_id ≠ row.id := by
    intro m hm heq
    obtain ⟨w, hw⟩ := h.workspace m hm
    rw [heq] at hw
    exact absurd hw (by rw [Db.workspace?, (Table.insert_eq_some.mp hws).1]; simp)
  refine ⟨?_, ?_, ?_, ?_, ?_, ?_, ?_, ?_⟩ <;> simp only [hmem]
  · rintro m (hm | rfl)
    · obtain ⟨w, hw⟩ := h.workspace m hm
      refine ⟨w, ?_⟩
      show workspaces.find? _ = _
      rw [hfind, if_neg (hnew m hm).symm]
      exact hw
    · exact ⟨row, (hfind row.id).trans (if_pos rfl)⟩
  · intro ws w hw
    change workspaces.find? ws = some w at hw
    rw [hfind] at hw
    by_cases hid : row.id = ws
    · exact ⟨_, Or.inr rfl, hid, rfl⟩
    · rw [if_neg hid] at hw
      obtain ⟨m, hm, hmws⟩ := h.root ws w hw
      exact ⟨m, Or.inl hm, hmws⟩
  · rintro m (hm | rfl) m' (hm' | rfl) hsame hroot hroot'
    · exact h.root_unique m hm m' hm' hsame hroot hroot'
    · exact absurd hsame (hnew m hm)
    · exact absurd hsame.symm (hnew m' hm')
    · rfl
  · rintro m (hm | rfl) hroot
    · exact h.root_shape m hm hroot
    · exact ⟨rfl, rfl⟩
  · rintro m (hm | rfl) up hmup
    · obtain ⟨q, hq, hrest⟩ := h.parent m hm up hmup
      exact ⟨q, Or.inl hq, hrest⟩
    · cases hmup
  · rintro m (hm | rfl) m' (hm' | rfl) hsame hparent hchild hname hactive hactive'
    · exact h.name m hm m' hm' hsame hparent hchild hname hactive hactive'
    · exact absurd hsame (hnew m hm)
    · exact absurd rfl hchild
    · rfl
  · rintro m (hm | rfl) hchild
    · exact h.segment m hm hchild
    · exact absurd rfl hchild
  · rintro m (hm | rfl)
    · exact h.revision m hm
    · exact Nat.one_pos

/-- A changed row that stays in its workspace, in a place that is its own or free. -/
theorem modify (h : NodesWellFormed db) {n : NodeRow} (hn : n ∈ db.nodes)
    {u : Table.Update NodeRow.key} (hws : (u.apply n).workspace_id = n.workspace_id)
    (hkind : (u.apply n).kind = n.kind) (hroot : n.parent_id = none ↔ (u.apply n).parent_id = none)
    (hactive : n.parent_id = none → (u.apply n).trashed_at_ms = none)
    (hparent : ∀ up, (u.apply n).parent_id = some up →
      ∃ p ∈ db.nodes, p.id = up ∧ p.workspace_id = n.workspace_id ∧ p.kind = .Directory)
    (hfree : ∀ up, (u.apply n).parent_id = some up → (u.apply n).trashed_at_ms = none →
    ∀ m ∈ db.nodes, m.id ≠ n.id →
      m.workspace_id = n.workspace_id → m.parent_id = some up → m.name = (u.apply n).name →
        m.trashed_at_ms ≠ none)
    (hsegment : (u.apply n).parent_id ≠ none → Segment (u.apply n).name)
    (hrevision : 0 < (u.apply n).revision) :
    NodesWellFormed { db with nodes := db.nodes.modify n.id u } := by
  have hmem : ∀ m, m ∈ db.nodes.modify n.id u ↔ m = u.apply n ∨ m ∈ db.nodes ∧ m.id ≠ n.id :=
    fun m => Db.mem_modify_nodes hn
  have hid : (u.apply n).id = n.id := u.key_apply n
  have hfreeOf : ∀ m ∈ db.nodes, m.id ≠ n.id → m.workspace_id = (u.apply n).workspace_id →
    m.parent_id = (u.apply n).parent_id →
      (u.apply n).parent_id ≠ none → m.name = (u.apply n).name → (u.apply n).trashed_at_ms = none →
        m.trashed_at_ms ≠ none := by
    intro m hm hne hmws hmup hchild hmname hnactive
    obtain ⟨up, hup⟩ := Option.ne_none_iff_exists'.mp hchild
    exact hfree up hup hnactive m hm hne (hmws.trans hws) (hmup.trans hup) hmname
  refine ⟨?_, ?_, ?_, ?_, ?_, ?_, ?_, ?_⟩ <;> simp only [hmem]
  · rintro m (rfl | ⟨hm, _⟩)
    · rw [hws]
      exact h.workspace n hn
    · exact h.workspace m hm
  · intro ws w hw
    obtain ⟨m, hm, hmws, hmroot⟩ := h.root ws w hw
    by_cases hne : m.id = n.id
    · rw [db.node_ext hm hn hne] at hmws hmroot
      exact ⟨u.apply n, Or.inl rfl, hws.trans hmws, hroot.mp hmroot⟩
    · exact ⟨m, Or.inr ⟨hm, hne⟩, hmws, hmroot⟩
  · rintro m (rfl | ⟨hm, hne⟩) m' (rfl | ⟨hm', hne'⟩) hsame hmroot hmroot'
    · rfl
    · have heq := h.root_unique n hn m' hm' (hws.symm.trans hsame) (hroot.mpr hmroot) hmroot'
      exact absurd (congrArg (fun r : NodeRow => r.id) heq.symm) hne'
    · have heq := h.root_unique m hm n hn (hsame.trans hws) hmroot (hroot.mpr hmroot')
      exact absurd (congrArg (fun r : NodeRow => r.id) heq) hne
    · exact h.root_unique m hm m' hm' hsame hmroot hmroot'
  · rintro m (rfl | ⟨hm, _⟩) hmroot
    · have hnroot := hroot.mpr hmroot
      exact ⟨hkind.trans (h.root_shape n hn hnroot).1, hactive hnroot⟩
    · exact h.root_shape m hm hmroot
  · have hlift : ∀ p ∈ db.nodes, ∃ q, (q = u.apply n ∨ q ∈ db.nodes ∧ q.id ≠ n.id) ∧ q.id = p.id ∧
        q.workspace_id = p.workspace_id ∧ q.kind = p.kind := by
      intro p hp
      by_cases hpn : p.id = n.id
      · rw [db.node_ext hp hn hpn]
        exact ⟨u.apply n, Or.inl rfl, hid, hws, hkind⟩
      · exact ⟨p, Or.inr ⟨hp, hpn⟩, rfl, rfl, rfl⟩
    rintro m (rfl | ⟨hm, _⟩) up hmup
    · obtain ⟨p, hp, hpid, hpws, hpdir⟩ := hparent up hmup
      obtain ⟨q, hq, hqid, hqws, hqkind⟩ := hlift p hp
      exact ⟨q, hq, hqid.trans hpid, by rw [hqws, hpws, hws], hqkind.trans hpdir⟩
    · obtain ⟨p, hp, hpid, hpws, hpdir⟩ := h.parent m hm up hmup
      obtain ⟨q, hq, hqid, hqws, hqkind⟩ := hlift p hp
      exact ⟨q, hq, hqid.trans hpid, hqws.trans hpws, hqkind.trans hpdir⟩
  · rintro m (rfl | ⟨hm, hne⟩) m' (rfl | ⟨hm', hne'⟩) hsame hup hchild hname hact hact'
    · rfl
    · exact absurd hact' (hfreeOf m' hm' hne' hsame.symm hup.symm hchild hname.symm hact)
    · exact absurd hact (hfreeOf m hm hne hsame hup (hup ▸ hchild) hname hact')
    · exact h.name m hm m' hm' hsame hup hchild hname hact hact'
  · rintro m (rfl | ⟨hm, _⟩) hchild
    · exact hsegment hchild
    · exact h.segment m hm hchild
  · rintro m (rfl | ⟨hm, _⟩)
    · exact hrevision
    · exact h.revision m hm

/-- A changed row that keeps its place. -/
theorem modify_in_place (h : NodesWellFormed db) {n : NodeRow} (hn : n ∈ db.nodes)
    {u : Table.Update NodeRow.key} (hws : (u.apply n).workspace_id = n.workspace_id)
    (hkind : (u.apply n).kind = n.kind) (hparent : (u.apply n).parent_id = n.parent_id)
    (hname : (u.apply n).name = n.name)
    (hactive : n.parent_id = none → (u.apply n).trashed_at_ms = none)
    (hstays : (u.apply n).trashed_at_ms = none → n.trashed_at_ms = none)
    (hrevision : 0 < (u.apply n).revision) :
    NodesWellFormed { db with nodes := db.nodes.modify n.id u } := by
  apply h.modify hn hws hkind (by rw [hparent]) hactive
  · intro up hup
    exact h.parent n hn up (hparent.symm.trans hup)
  · intro up hup hact m hm hne hmws hmup hmname hmact
    have hnup := hparent.symm.trans hup
    have heq := h.name m hm n hn hmws (hmup.trans hnup.symm) (by simp [hmup])
      (hmname.trans hname) hmact (hstays hact)
    exact hne (congrArg (fun r : NodeRow => r.id) heq)
  · intro hchild
    rw [hname]
    exact h.segment n hn (hparent ▸ hchild)
  · exact hrevision

/-- Deleting nodes together with everything below them, but no root. -/
theorem prune (h : NodesWellFormed db) {p : NodeRow → Bool}
    (hdown : ∀ n ∈ db.nodes, ∀ m ∈ db.nodes, n.parent_id = some m.id → p m = true → p n = true)
    (hroot : ∀ n ∈ db.nodes, n.parent_id = none → p n = false) :
    NodesWellFormed { db with nodes := db.nodes.deleteWhere p } := by
  refine ⟨?_, ?_, ?_, ?_, ?_, ?_, ?_, ?_⟩ <;> simp only [Table.mem_deleteWhere]
  · exact fun n hn => h.workspace n hn.1
  · intro ws w hw
    obtain ⟨n, hn, hnws, hnroot⟩ := h.root ws w hw
    exact ⟨n, ⟨hn, hroot n hn hnroot⟩, hnws, hnroot⟩
  · exact fun n hn m hm => h.root_unique n hn.1 m hm.1
  · exact fun n hn => h.root_shape n hn.1
  · rintro n ⟨hn, hkept⟩ up hup
    obtain ⟨q, hq, hqid, hrest⟩ := h.parent n hn up hup
    subst hqid
    refine ⟨q, ⟨hq, ?_⟩, rfl, hrest⟩
    by_contra hgone
    simp [hdown n hn q hq hup (by simpa using hgone)] at hkept
  · exact fun n hn m hm => h.name n hn.1 m hm.1
  · exact fun n hn => h.segment n hn.1
  · exact fun n hn => h.revision n hn.1

/-- Deleting everything of a workspace, with its row. -/
theorem erase (h : NodesWellFormed db) (ws : WorkspaceId) :
    NodesWellFormed { db.clear ws with workspaces := db.workspaces.deleteWhere (fun row => row.id = ws) } := by
  have hfind : ∀ id, (db.workspaces.deleteWhere (fun row => row.id = ws)).find? id =
      (db.workspace? id).filter (fun row => !decide (row.id = ws)) := Table.find?_deleteWhere _ _
  have hkey : ∀ id w, db.workspace? id = some w → w.id = id := fun id w hw => Table.key_of_find? hw
  refine ⟨?_, ?_, ?_, ?_, ?_, ?_, ?_, ?_⟩ <;> simp only [Db.mem_clear_nodes]
  · rintro n ⟨hn, hne⟩
    obtain ⟨w, hw⟩ := h.workspace n hn
    refine ⟨w, ?_⟩
    show (db.workspaces.deleteWhere _).find? _ = _
    rw [hfind, hw]
    simp [Option.filter, hkey _ _ hw, hne]
  · intro id w hw
    change (db.workspaces.deleteWhere _).find? _ = _ at hw
    rw [hfind, Option.filter_eq_some_iff] at hw
    obtain ⟨hw, hne⟩ := hw
    obtain ⟨n, hn, hnws, hnroot⟩ := h.root id w hw
    refine ⟨n, ⟨hn, ?_⟩, hnws, hnroot⟩
    rw [hnws]
    simpa [hkey _ _ hw] using hne
  · exact fun n hn m hm => h.root_unique n hn.1 m hm.1
  · exact fun n hn => h.root_shape n hn.1
  · rintro n ⟨hn, hne⟩ up hup
    obtain ⟨q, hq, hqid, hqws, hqdir⟩ := h.parent n hn up hup
    exact ⟨q, ⟨hq, hqws ▸ hne⟩, hqid, hqws, hqdir⟩
  · exact fun n hn m hm => h.name n hn.1 m hm.1
  · exact fun n hn => h.segment n hn.1
  · exact fun n hn => h.revision n hn.1

/-- Emptying a workspace down to a new root directory. -/
theorem reset (h : NodesWellFormed db) {ws : WorkspaceId} {row : WorkspaceRow}
    (hrow : db.workspace? ws = some row) {root : NodeId} {now : Int} {nodes : Table NodeRow.key}
    (hins : (db.clear ws).nodes.insert (workspace.rootRow root ws now) = some nodes) :
    NodesWellFormed { (db.clear ws).reset_sequence ws now with nodes } := by
  have hid : row.id = ws := Table.key_of_find? hrow
  subst hid
  have hfind := Table.find?_deleteWhere db.workspaces (fun w => w.id = row.id)
  obtain ⟨workspaces, hwsins⟩ : ∃ workspaces,
      (db.workspaces.deleteWhere (fun w => w.id = row.id)).insert row = some workspaces := by
    cases hins' : (db.workspaces.deleteWhere (fun w => w.id = row.id)).insert row with
    | some workspaces => exact ⟨workspaces, rfl⟩
    | none =>
      obtain ⟨w, hw⟩ := Table.contains_iff.mp (Table.insert_eq_none.mp hins')
      rw [hfind, Option.filter_eq_some_iff] at hw
      simp [Table.key_of_find? hw.1] at hw
  refine ((h.erase row.id).enter hwsins hins).frame rfl ?_
  intro id
  rw [show Db.workspace? { (db.clear row.id).reset_sequence row.id now with nodes } id =
    ((db.clear row.id).reset_sequence row.id now).workspace? id from rfl,
      Db.workspace?_reset_sequence]
  show _ ↔ ∃ w, workspaces.find? id = some w
  rw [Table.find?_insert hwsins, hfind]
  by_cases hsame : id = row.id
  · subst hsame
    simp only [if_true]
    exact ⟨fun _ => ⟨row, rfl⟩, fun _ =>
      ⟨_, by rw [show (db.clear row.id).workspace? row.id = some row from hrow]; rfl⟩⟩
  · rw [if_neg hsame, if_neg (Ne.symm hsame)]
    constructor
    · rintro ⟨w, hw⟩
      refine ⟨w, Option.filter_eq_some_iff.mpr ⟨hw, ?_⟩⟩
      have hwid : w.id = id := Table.key_of_find? hw
      simp [hwid, hsame]
    · rintro ⟨w, hw⟩
      exact ⟨w, (Option.filter_eq_some_iff.mp hw).1⟩

end NodesWellFormed

end fslite
