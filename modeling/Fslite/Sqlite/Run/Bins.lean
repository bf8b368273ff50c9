import Fslite.Sqlite.Run.Durable
import Fslite.Sqlite.Run.Volume

namespace fslite

/-- A stored record of the workspace's trash, with the stored node that it is about. -/
structure InTrash (db : Db) (ws : WorkspaceId) (t : TrashRow) (n : NodeRow) : Prop where
  record : t ∈ db.trash
  workspace : t.workspace_id = ws
  mem : n ∈ db.nodes
  node : n.id = t.node_id

/-- The node is there in both stores, with the same entries under it. -/
structure SameUnder (db db' : Db) (top : NodeRow) : Prop where
  mem : top ∈ db'.nodes
  under : ∀ q m, Under db' top q m ↔ Under db top q m
  entry : ∀ q m, Under db top q m → db'.entry m.toRawNode = db.entry m.toRawNode

namespace InTrash

variable {db db' : Db} {ws : WorkspaceId} {t u : TrashRow} {n m p top : NodeRow} {q : List Text}

theorem shape (h : InTrash db ws t n) (hwf : WellFormed db) : n.workspace_id = ws ∧
    n.trashed_at_ms ≠ none ∧ n.parent_id = some t.original_parent_id ∧ n.name = t.original_name := by
  obtain ⟨x, hx, hid, hws, htrashed, hup, hname⟩ := hwf.trash.record t h.record
  obtain rfl := db.node_ext hx h.mem (hid.trans h.node.symm)
  exact ⟨hws.trans h.workspace, htrashed, hup, hname⟩

theorem of_record (hwf : WellFormed db) (ht : t ∈ db.trash) (hws : t.workspace_id = ws) :
    ∃ n, InTrash db ws t n := by
  obtain ⟨n, hn, hid, _⟩ := hwf.trash.record t ht
  exact ⟨n, ht, hws, hn, hid⟩

theorem of_node (hwf : WellFormed db) (hn : n ∈ db.nodes) (hws : n.workspace_id = ws)
    (htrashed : n.trashed_at_ms ≠ none) : ∃ t, InTrash db ws t n := by
  obtain ⟨t, ht, hid⟩ := hwf.trash.recorded n hn htrashed
  obtain ⟨x, hx, hxid, hxws, _⟩ := hwf.trash.record t ht
  obtain rfl := db.node_ext hx hn (hxid.trans hid)
  exact ⟨t, ht, hxws.symm.trans hws, hn, hid.symm⟩

/-- The directory that the node was in. -/
theorem home (h : InTrash db ws t n) (hwf : WellFormed db) :
    ∃ p ∈ db.nodes, p.id = t.original_parent_id ∧ p.workspace_id = ws := by
  obtain ⟨hws, _, hup, _⟩ := h.shape hwf
  obtain ⟨p, hp, hid, hpws, _⟩ := hwf.nodes.parent n h.mem _ hup
  exact ⟨p, hp, hid, hpws.trans hws⟩

/-- Nothing that is in the trash is live. -/
theorem not_live (h : InTrash db ws t top) (hwf : WellFormed db) (hm : Under db top q m)
    {ws' : WorkspaceId} : ¬ Live db ws' m := by
  obtain ⟨_, htrashed, _⟩ := h.shape hwf
  by_cases hne : q = []
  · subst hne
    obtain ⟨rfl, _⟩ := Under.nil_iff.mp hm
    exact fun hlive => htrashed hlive.active
  · exact (hm.beneath hne).not_live h.mem htrashed

/-- A live row may change, and go under another live one: what is in the trash stays as it is. -/
theorem same_of_live (h : InTrash db ws t top) (hwf : WellFormed db) {ws' : WorkspaceId}
    {s : NodeRow} (hn : Live db ws' n) (hid : s.id = n.id)
    (hmem : ∀ m, m ∈ db'.nodes ↔ m = s ∨ m ∈ db.nodes ∧ m.id ≠ n.id)
    (hparent : ∀ up, s.trashed_at_ms = none → s.parent_id = some up →
      ∃ p, Live db ws' p ∧ p.id = up)
    (hentry : ∀ m ∈ db.nodes, m.id ≠ n.id → db'.entry m.toRawNode = db.entry m.toRawNode) :
    SameUnder db db' top := by
  have hother : ∀ q m, Under db top q m → m.id ≠ n.id := by
    intro q m hm heq
    obtain rfl := db.node_ext hm.mem hn.mem heq
    exact h.not_live hwf hm hn
  have htop := hother [] top (.here h.mem)
  refine ⟨(hmem top).mpr (Or.inr ⟨h.mem, htop⟩), fun q m => ?_,
    fun q m hm => hentry m hm.mem (hother q m hm)⟩
  refine Under.aside_iff htop hmem hid hother (fun hactive q m hm hup => ?_)
  obtain ⟨p, hp, hpid⟩ := hparent _ hactive hup
  obtain rfl := db.node_ext hp.mem hm.mem hpid
  exact h.not_live hwf hm hp

/-- What is in the trash under a node outside of a subtree lies outside of it. -/
theorem outside (h : InTrash db ws t top) (hwf : WellFormed db) (hn : n ∈ db.nodes)
    (hkind : n.trashed_at_ms = none → Live db n.workspace_id n)
    (hnot : ¬ Below db.parent top.id n.id) (hm : Under db top q m) :
    ¬ Below db.parent m.id n.id := by
  intro hbelow
  by_cases hne : q = []
  · subst hne
    obtain ⟨rfl, _⟩ := Under.nil_iff.mp hm
    exact hnot hbelow
  · obtain habove | ⟨names, x, hx, hid⟩ := (hm.beneath hne).above hbelow
    · exact hnot habove
    · obtain rfl := db.node_ext hx.mem hn hid
      exact hx.not_live h.mem (h.shape hwf).2.1 (hkind hx.active)

end InTrash

namespace Db

variable {db db' : Db} {ws : WorkspaceId} {t : TrashRow} {n m s p top : NodeRow} {q : List Text}
  {trash_id : TrashId}

theorem bin_of_inTrash (hwf : WellFormed db) (h : InTrash db ws t n) : db.bin ws t.id =
    some ⟨db.branch ws n.toRawNode, t.original_parent_id, t.original_name⟩ := by
  have hrecord : trash.fetch_trash_row db ws t.id = some t := by
    refine Table.find?_of_unique h.record (by simpa using h.workspace) (fun u hu hp => ?_)
    simp only [decide_eq_true_eq] at hp
    exact Table.eq_of_key_eq hu h.record hp.2
  have hnode : resolve.fetch_by_id_any db ws t.node_id = some n.toRawNode :=
    resolve.fetch_by_id_any_eq_some.mpr ⟨n, h.mem, rfl, (h.shape hwf).1, h.node⟩
  rw [bin, hrecord, Option.bind_some, hnode, Option.map_some]

theorem inTrash_of_bin (hwf : WellFormed db) {b : Bin} (h : db.bin ws trash_id = some b) :
    ∃ t n, InTrash db ws t n ∧ t.id = trash_id ∧
      b = ⟨db.branch ws n.toRawNode, t.original_parent_id, t.original_name⟩ := by
  obtain ⟨t, ht, _⟩ := Option.bind_eq_some_iff.mp h
  obtain ⟨hmem, hws, rfl⟩ := trash.fetch_trash_row_eq_some ht
  obtain ⟨n, hn⟩ := InTrash.of_record hwf hmem hws
  rw [bin_of_inTrash hwf hn, Option.some.injEq] at h
  exact ⟨t, n, hn, rfl, h.symm⟩

theorem bin_eq_none (hwf : WellFormed db) :
    db.bin ws trash_id = none ↔ ∀ t ∈ db.trash, t.workspace_id = ws → t.id ≠ trash_id := by
  constructor
  · rintro h t ht hws rfl
    obtain ⟨n, hn⟩ := InTrash.of_record hwf ht hws
    rw [bin_of_inTrash hwf hn] at h
    cases h
  · intro h
    rw [Option.eq_none_iff_forall_not_mem]
    intro b hb
    obtain ⟨t, n, hn, hid, _⟩ := inTrash_of_bin hwf hb
    exact h t hn.record hn.workspace hid

/-- A branch of the trash depends on what is under its node. -/
theorem branch_congr (hwf : WellFormed db) (hwf' : WellFormed db') (hn : top ∈ db.nodes)
    (hws : top.workspace_id = ws) (h : SameUnder db db' top) :
    db'.branch ws top.toRawNode = db.branch ws top.toRawNode := by
  refine Hierarchy.ext_some (fun q e => ?_)
  rw [branch_eq_some hwf'.nodes h.mem hws, branch_eq_some hwf.nodes hn hws]
  refine exists_congr (fun m => ?_)
  rw [h.under]
  exact and_congr_right (fun hm => by rw [h.entry q m hm])

/-- A record of the trash keeps what is under its node. -/
theorem bin_congr (hwf : WellFormed db) (hwf' : WellFormed db')
    (htrash : ∀ t, t.workspace_id = ws → t.id = trash_id → (t ∈ db'.trash ↔ t ∈ db.trash))
    (h : ∀ t top, InTrash db ws t top → t.id = trash_id → SameUnder db db' top) :
    db'.bin ws trash_id = db.bin ws trash_id := by
  cases hbin : db.bin ws trash_id with
  | none =>
    rw [bin_eq_none hwf] at hbin
    rw [bin_eq_none hwf']
    exact fun t ht hws hid => hbin t ((htrash t hws hid).mp ht) hws hid
  | some b =>
    obtain ⟨t, top, htop, rfl, rfl⟩ := inTrash_of_bin hwf hbin
    have hsame := h t top htop rfl
    rw [bin_of_inTrash hwf' ⟨(htrash t htop.workspace rfl).mpr htop.record, htop.workspace,
      hsame.mem, htop.node⟩,
      branch_congr hwf hwf' htop.mem (htop.shape hwf).1 hsame]

theorem bins_congr (hwf : WellFormed db) (hwf' : WellFormed db') (htrash : db'.trash = db.trash)
    (h : ∀ t top, InTrash db ws t top → SameUnder db db' top) : db'.bin ws = db.bin ws := by
  funext trash_id
  exact bin_congr hwf hwf' (fun t _ _ => htrash ▸ Iff.rfl) (fun t top htop _ => h t top htop)

/-- A live directory gets a new child: the trash stays as it is. -/
theorem bins_of_insert (hwf : WellFormed db) (hwf' : WellFormed db')
    (htrash : db'.trash = db.trash) {ws' : WorkspaceId} (hp : Live db ws' p)
    {nodes : Table NodeRow.key} (hins : db.nodes.insert n = some nodes) (hnodes : db'.nodes = nodes)
    (hup : n.parent_id = some p.id) (hactive : n.trashed_at_ms = none)
    (hentry : ∀ m ∈ db.nodes, db'.entry m.toRawNode = db.entry m.toRawNode) :
    db'.bin ws = db.bin ws := by
  refine bins_congr hwf hwf' htrash (fun t top htop => ⟨?_, fun q m => ?_,
    fun q m hm => hentry m hm.mem⟩)
  · rw [hnodes]
    exact (Table.mem_insert hins).mpr (Or.inl htop.mem)
  · rw [Under.insert_iff hwf.nodes hins hnodes hp.mem hup hactive htop.mem]
    refine or_iff_left ?_
    rintro ⟨place, hplace, _⟩
    exact htop.not_live hwf hplace hp

section discarding

theorem mem_purge_trash {id : NodeId} :
    t ∈ (db.purge id).trash ↔ t ∈ db.trash ∧ ¬ Below db.parent t.node_id id := by
  show t ∈ db.trash.deleteWhere _ ↔ _
  rw [Table.mem_deleteWhere, ← Bool.not_eq_true, cascades_iff]

theorem gone_of_below (hwf : WellFormed db) (hn : n ∈ db.nodes) (hws : n.workspace_id = ws) :
    ∀ x ∈ db.nodes, Below db.parent x.id n.id → (∃ q, Under db n q x) ∨
      ∃ t top q, InTrash db ws t top ∧ Under db top q x ∧
        (db.volume ws).Gone (db.branch ws n.toRawNode) t.id := by
  intro x hx hbelow
  generalize hstart : x.id = a at hbelow
  induction hbelow using Below.head_induction generalizing x with
  | top =>
    obtain rfl := db.node_ext hx hn hstart
    exact Or.inl ⟨[], .here hx⟩
  | @step a up hup hrest ih =>
    subst hstart
    rw [parent_of_mem hx] at hup
    obtain ⟨p, hp, rfl, hpws, _⟩ := hwf.nodes.parent x hx up hup
    have hp := ih p hp rfl
    cases htrashed : x.trashed_at_ms with
    | none =>
      obtain ⟨q, hq⟩ | ⟨t, top, q, htop, hq, hgone⟩ := hp
      · exact Or.inl ⟨_, .child hq hx hup htrashed⟩
      · exact Or.inr ⟨t, top, _, htop, .child hq hx hup htrashed, hgone⟩
    | some time =>
      have hxws : x.workspace_id = ws := by
        obtain ⟨q, hq⟩ | ⟨t, top, q, htop, hq, _⟩ := hp
        · exact hpws.symm.trans ((hq.workspace hwf.nodes).trans hws)
        · exact hpws.symm.trans ((hq.workspace hwf.nodes).trans (htop.shape hwf).1)
      obtain ⟨t, ht⟩ := InTrash.of_node hwf hx hxws (by simp [htrashed])
      have hhome : p.id = t.original_parent_id :=
        Option.some.inj (hup.symm.trans (ht.shape hwf).2.2.1)
      refine Or.inr ⟨t, x, [], ht, .here hx, ?_⟩
      obtain ⟨q, hq⟩ | ⟨outer, top, q, htop, hq, hgone⟩ := hp
      · exact .home (bin_of_inTrash hwf ht) ((branch_eq_some hwf.nodes hn hws).mpr ⟨p, hq, rfl⟩)
          hhome
      · exact .inner hgone (bin_of_inTrash hwf htop) (bin_of_inTrash hwf ht)
          ((branch_eq_some hwf.nodes htop.mem (htop.shape hwf).1).mpr ⟨p, hq, rfl⟩) hhome

/-- The records that go with a subtree are those of the nodes in it. -/
theorem gone_iff (hwf : WellFormed db) (hn : n ∈ db.nodes) (hws : n.workspace_id = ws)
    (h : InTrash db ws t top) (hne : top.id ≠ n.id) :
    (db.volume ws).Gone (db.branch ws n.toRawNode) t.id ↔ Below db.parent top.id n.id := by
  constructor
  · generalize hid : t.id = trash_id
    intro hgone
    clear hne
    induction hgone generalizing t top with
    | @home trash_id b q e hbin hat hhome =>
      obtain ⟨t', top', h', ht', rfl⟩ := inTrash_of_bin hwf hbin
      obtain rfl := Table.eq_of_key_eq h.record h'.record (hid.trans ht'.symm)
      obtain ⟨m, hm, rfl⟩ := (branch_eq_some hwf.nodes hn hws).mp hat
      exact .head (((parent_of_mem h.mem).trans (h.shape hwf).2.2.1).trans (congrArg some hhome.symm))
        hm.below_top
    | @inner trash_id outer_id b outer q e hgone houter hbin hat hhome ih =>
      obtain ⟨t', top', h', ht', rfl⟩ := inTrash_of_bin hwf hbin
      obtain rfl := Table.eq_of_key_eq h.record h'.record (hid.trans ht'.symm)
      obtain ⟨u, otop, hu, hout, rfl⟩ := inTrash_of_bin hwf houter
      obtain ⟨m, hm, rfl⟩ := (branch_eq_some hwf.nodes hu.mem (hu.shape hwf).1).mp hat
      exact .head (((parent_of_mem h.mem).trans (h.shape hwf).2.2.1).trans (congrArg some hhome.symm))
        (hm.below_top.trans (ih hu hout))
  · intro hbelow
    obtain ⟨p, hp, hhome, _⟩ := h.home hwf
    have hup : db.parent top.id = some p.id := by
      rw [parent_of_mem h.mem, (h.shape hwf).2.2.1, hhome]
    obtain heq | hrest := hbelow.eq_or_parent hup
    · exact absurd heq hne
    · obtain ⟨q, hq⟩ | ⟨outer, otop, q, hout, hq, hgone⟩ := gone_of_below hwf hn hws p hp hrest
      · exact .home (bin_of_inTrash hwf h) ((branch_eq_some hwf.nodes hn hws).mpr ⟨p, hq, rfl⟩) hhome
      · exact .inner hgone (bin_of_inTrash hwf hout) (bin_of_inTrash hwf h)
          ((branch_eq_some hwf.nodes hout.mem (hout.shape hwf).1).mpr ⟨p, hq, rfl⟩) hhome

/-- A purge discards what is in the subtree, with the records of the trash that it holds. -/
theorem bins_purge (hwf : WellFormed db) (hwf' : WellFormed (db.purge n.id)) (hn : n ∈ db.nodes)
    (hws : n.workspace_id = ws) (hkind : n.trashed_at_ms = none → Live db n.workspace_id n)
    {but : TrashId → Prop} (hbut : ∀ t, InTrash db ws t n → but t.id) :
    (db.volume ws).Discards (db.branch ws n.toRawNode) but ((db.purge n.id).bin ws) := by
  intro trash_id hnot
  cases hbin : db.bin ws trash_id with
  | none =>
    have hnone : (db.purge n.id).bin ws trash_id = none := by
      rw [bin_eq_none hwf] at hbin
      rw [bin_eq_none hwf']
      exact fun t ht => hbin t (mem_purge_trash.mp ht).1
    exact ⟨fun _ => hnone, fun _ => hnone.trans hbin.symm⟩
  | some b =>
    obtain ⟨t, top, htop, rfl, rfl⟩ := inTrash_of_bin hwf hbin
    have hne : top.id ≠ n.id := by
      intro heq
      obtain rfl := db.node_ext htop.mem hn heq
      exact hnot (hbut t htop)
    rw [gone_iff hwf hn hws htop hne]
    constructor
    · intro hbelow
      rw [bin_eq_none hwf']
      rintro u hu _ hid
      obtain ⟨hu, hclear⟩ := mem_purge_trash.mp hu
      obtain rfl := Table.eq_of_key_eq hu htop.record hid
      exact hclear (htop.node ▸ hbelow)
    · intro hclear
      have hmem : top ∈ (db.purge n.id).nodes := mem_purge_nodes.mpr ⟨htop.mem, hclear⟩
      rw [bin_of_inTrash hwf' ⟨mem_purge_trash.mpr ⟨htop.record, htop.node ▸ hclear⟩, htop.workspace,
        hmem, htop.node⟩, branch_congr hwf hwf' htop.mem (htop.shape hwf).1 ⟨hmem, ?_, ?_⟩]
      · exact hbin.symm
      · intro q m
        rw [Under.purge_iff]
        exact and_iff_left_of_imp (htop.outside hwf hn hkind hclear)
      · exact fun q m hm => entry_purge hwf hm.mem (htop.outside hwf hn hkind hclear hm)

end discarding

end Db

end fslite
