import Fslite.Hierarchy
import Fslite.Sqlite.Effect.Attribute
import Fslite.Sqlite.Place
import Fslite.Sqlite.Run.Move

namespace fslite

open resolve

/-- What there is at a place of a workspace: a node with its attributes and, if it is a file, the
chunks of its content. -/
structure Entry where
  id : NodeId
  kind : NodeKind
  size : Nat
  revision : Nat
  created_at_ms : Int
  modified_at_ms : Int
  accessed_at_ms : Int
  symlink_target : Option Text
  attributes : Text → Option Bytes
  chunks : Nat → Option Bytes

/-- A workspace as its clients see it: a tree of names. -/
abbrev FileTree := Hierarchy Text Entry

namespace Db

/-- The entry that a stored node makes. -/
def entry (db : Db) (raw : RawNode) : Entry where
  id := raw.id
  kind := raw.kind
  size := raw.size
  revision := raw.revision
  created_at_ms := raw.created_at_ms
  modified_at_ms := raw.modified_at_ms
  accessed_at_ms := raw.accessed_at_ms
  symlink_target := raw.symlink_target
  attributes := db.attribute raw.id
  chunks i := raw.content_generation_id.bind
    (fun g => (db.content_chunks.find? (g, i)).map ChunkRow.bytes)

theorem walk_closed (db : Db) (ws : WorkspaceId) (top : RawNode) (place : List Text) (name : Text)
    (h : ((walk db ws top (place ++ [name])).map db.entry).isSome) :
    ((walk db ws top place).map db.entry).isSome := by
  rw [walk_split] at h
  cases hwalk : walk db ws top place with
  | none => simp [hwalk] at h
  | some raw => rfl

/-- The tree that starts at a node. -/
def branch (db : Db) (ws : WorkspaceId) (top : RawNode) : FileTree where
  lookup place := (walk db ws top place).map db.entry
  closed := walk_closed db ws top

/-- The tree of a workspace. -/
def file_tree (db : Db) (ws : WorkspaceId) : FileTree :=
  ((fetch_root db ws).map (db.branch ws)).getD .empty

end Db

/-- The stored root of a workspace. -/
structure IsRoot (db : Db) (ws : WorkspaceId) (r : NodeRow) : Prop where
  mem : r ∈ db.nodes
  workspace : r.workspace_id = ws
  root : r.parent_id = none

namespace IsRoot

variable {db db' : Db} {ws : WorkspaceId} {r n m : NodeRow}

theorem live (h : IsRoot db ws r) (hwf : NodesWellFormed db) : Live db ws r :=
  .root h.mem h.workspace h.root (hwf.root_shape r h.mem h.root).2

/-- Nothing but the root itself lies above the root. -/
theorem not_below (h : IsRoot db ws r) (hn : n.parent_id ≠ none) (hmem : n ∈ db.nodes) :
    ¬ Below db.parent r.id n.id := by
  intro hbelow
  have hid := hbelow.eq_of_root (by rw [Db.parent_of_mem h.mem, h.root])
  obtain rfl := db.node_ext h.mem hmem hid
  exact hn h.root

theorem of_workspace (hwf : NodesWellFormed db) {row : WorkspaceRow}
    (hrow : db.workspace? ws = some row) : ∃ r, IsRoot db ws r := by
  obtain ⟨r, hr, hws, hroot⟩ := hwf.root ws row hrow
  exact ⟨r, hr, hws, hroot⟩

theorem of_live (h : Live db ws n) : ∃ r, IsRoot db ws r := by
  obtain ⟨r, hr, hroot, hws, _⟩ := h.below_root
  exact ⟨r, hr, hws, hroot⟩

/-- Nothing in the tree lies below a node that is in the trash. -/
theorem outside_trash (h : IsRoot db ws r) (hwf : NodesWellFormed db) (hn : n ∈ db.nodes)
    (htrashed : n.trashed_at_ms ≠ none) {q : List Text} (hm : Under db r q m) :
    ¬ Below db.parent m.id n.id := by
  intro hbelow
  obtain ⟨x, hx, hid⟩ := (hm.live hwf (h.live hwf)).of_below hbelow
  obtain rfl := db.node_ext hx.mem hn hid
  exact htrashed hx.active

end IsRoot

namespace Db

variable {db db' : Db} {ws : WorkspaceId} {r n m : NodeRow} {q place : List Text} {e : Entry}

theorem branch_eq_some (hwf : NodesWellFormed db) (hr : r ∈ db.nodes) (hws : r.workspace_id = ws) :
    (db.branch ws r.toRawNode).lookup q = some e ↔
      ∃ m, Under db r q m ∧ db.entry m.toRawNode = e := by
  simp only [branch, Option.map_eq_some_iff, Under.walk_iff hwf hr hws]
  constructor
  · rintro ⟨_, ⟨m, hm, rfl⟩, he⟩
    exact ⟨m, hm, he⟩
  · rintro ⟨m, hm, he⟩
    exact ⟨_, ⟨m, hm, rfl⟩, he⟩

theorem file_tree_eq_branch (hwf : NodesWellFormed db) (hr : IsRoot db ws r) :
    db.file_tree ws = db.branch ws r.toRawNode := by
  rw [file_tree, fetch_root_of_mem hwf hr.mem hr.workspace hr.root]
  rfl

theorem file_tree_eq_some (hwf : NodesWellFormed db) (hr : IsRoot db ws r) :
    (db.file_tree ws).lookup q = some e ↔ ∃ m, Under db r q m ∧ db.entry m.toRawNode = e := by
  rw [file_tree_eq_branch hwf hr]
  exact branch_eq_some hwf hr.mem hr.workspace

/-- The entry of a node that has a place. -/
theorem lookup_of_under (hwf : NodesWellFormed db) (hr : IsRoot db ws r) (h : Under db r q m) :
    (db.file_tree ws).lookup q = some (db.entry m.toRawNode) :=
  (file_tree_eq_some hwf hr).mpr ⟨m, h, rfl⟩

theorem file_tree_empty (hwf : NodesWellFormed db) (h : db.workspace? ws = none) :
    db.file_tree ws = .empty := by
  cases hroot : fetch_root db ws with
  | none => rw [file_tree, hroot]; rfl
  | some raw =>
    obtain ⟨n, hn, _, hws, _⟩ := fetch_root_eq_some hroot
    obtain ⟨row, hrow⟩ := hwf.workspace n hn
    rw [hws, h] at hrow
    cases hrow

/-- The branch at a place is the tree that starts at its node. -/
theorem branch_of_under (hwf : NodesWellFormed db) (hr : IsRoot db ws r) (h : Under db r place n) :
    (db.file_tree ws).branch place = db.branch ws n.toRawNode := by
  refine Hierarchy.ext_some (fun q e => ?_)
  rw [Hierarchy.lookup_branch, file_tree_eq_some hwf hr,
    branch_eq_some hwf h.mem ((h.workspace hwf).trans hr.workspace)]
  constructor
  · rintro ⟨m, hm, he⟩
    obtain ⟨p, hp, hm⟩ := Under.append_iff.mp hm
    obtain rfl := h.unique hwf hp
    exact ⟨m, hm, he⟩
  · rintro ⟨m, hm, he⟩
    exact ⟨m, Under.append_iff.mpr ⟨n, h, hm⟩, he⟩

/-- The entry of a row depends on its own attributes and chunks. -/
theorem entry_congr {raw : RawNode} (hattributes : ∀ key, db'.attribute raw.id key = db.attribute raw.id key)
    (hchunks : ∀ g, raw.content_generation_id = some g → ∀ i,
      db'.content_chunks.find? (g, i) = db.content_chunks.find? (g, i)) :
    db'.entry raw = db.entry raw := by
  unfold entry
  rw [show db'.attribute raw.id = db.attribute raw.id from funext hattributes]
  congr 1
  funext i
  cases hg : raw.content_generation_id with
  | none => rfl
  | some g => simp only [Option.bind_some, hchunks g hg i]

/-- Stores with the same attributes and chunks make the same entries. -/
theorem entry_eq (hattributes : db'.attributes = db.attributes)
    (hchunks : db'.content_chunks = db.content_chunks) : db'.entry = db.entry := by
  funext raw
  exact entry_congr (fun key => by rw [Db.attribute, Db.attribute, hattributes])
    (fun g _ i => by rw [hchunks])

theorem entry_purge (hwf : WellFormed db) (hm : m ∈ db.nodes) {id : NodeId}
    (hnot : ¬ Below db.parent m.id id) :
    (db.purge id).entry m.toRawNode = db.entry m.toRawNode :=
  entry_congr (fun key => by rw [Db.attribute, Db.attribute, purge_attributes hnot])
    (fun _ hg i => (purge_content hwf hm hnot hg).chunk i)

/-- A purge removes the place of its node. -/
theorem file_tree_purge (hwf : WellFormed db) (hwf' : NodesWellFormed (db.purge n.id))
    (hr : IsRoot db ws r) (hn : n.parent_id ≠ none) (h : Under db r place n) :
    (db.purge n.id).file_tree ws = (db.file_tree ws).remove place := by
  have hr' : IsRoot (db.purge n.id) ws r :=
    ⟨mem_purge_nodes.mpr ⟨hr.mem, hr.not_below hn h.mem⟩, hr.workspace, hr.root⟩
  refine Hierarchy.ext_some (fun q e => ?_)
  rw [Hierarchy.lookup_remove_eq_some, file_tree_eq_some hwf' hr', file_tree_eq_some hwf.nodes hr]
  constructor
  · rintro ⟨m, hm, rfl⟩
    obtain ⟨hm, hnot⟩ := Under.purge_iff.mp hm
    exact ⟨fun hprefix => hnot ((h.prefix_iff_below hwf.nodes (hr.live hwf.nodes) hm).mp hprefix), m,
      hm, (entry_purge hwf hm.mem hnot).symm⟩
  · rintro ⟨hnot, m, hm, rfl⟩
    rw [h.prefix_iff_below hwf.nodes (hr.live hwf.nodes) hm] at hnot
    exact ⟨m, Under.purge_iff.mpr ⟨hm, hnot⟩, entry_purge hwf hm.mem hnot⟩

/-- A purge of what is in the trash leaves the tree as it is. -/
theorem file_tree_purge_trashed (hwf : WellFormed db) (hwf' : NodesWellFormed (db.purge n.id))
    (hr : IsRoot db ws r) (hn : n ∈ db.nodes) (htrashed : n.trashed_at_ms ≠ none) :
    (db.purge n.id).file_tree ws = db.file_tree ws := by
  have hnot : ∀ q m, Under db r q m → ¬ Below db.parent m.id n.id :=
    fun _ _ hm => hr.outside_trash hwf.nodes hn htrashed hm
  have hr' : IsRoot (db.purge n.id) ws r :=
    ⟨mem_purge_nodes.mpr ⟨hr.mem, hnot [] r (.here hr.mem)⟩, hr.workspace, hr.root⟩
  refine Hierarchy.ext_some (fun q e => ?_)
  rw [file_tree_eq_some hwf' hr', file_tree_eq_some hwf.nodes hr]
  refine exists_congr (fun m => ?_)
  rw [Under.purge_iff]
  constructor
  · rintro ⟨⟨hm, hnot⟩, rfl⟩
    exact ⟨hm, (entry_purge hwf hm.mem hnot).symm⟩
  · rintro ⟨hm, rfl⟩
    exact ⟨⟨hm, hnot q m hm⟩, entry_purge hwf hm.mem (hnot q m hm)⟩

/-- A row that keeps its place changes the entry there. -/
theorem file_tree_modify (hwf : NodesWellFormed db) (hwf' : NodesWellFormed db')
    (hr : IsRoot db ws r) (h : Under db r place n) {u : Table.Update NodeRow.key}
    (hnodes : db'.nodes = db.nodes.modify n.id u)
    (hkeeps : ∀ n, (u.apply n).parent_id = n.parent_id ∧ (u.apply n).name = n.name ∧
      (u.apply n).trashed_at_ms = n.trashed_at_ms ∧ (u.apply n).workspace_id = n.workspace_id)
    (hentry : ∀ m ∈ db.nodes, m.id ≠ n.id → db'.entry m.toRawNode = db.entry m.toRawNode)
    {f : Entry → Entry} (hchanged : db'.entry (u.apply n).toRawNode = f (db.entry n.toRawNode)) :
    db'.file_tree ws = (db.file_tree ws).update place f := by
  have hmem : ∀ m, m ∈ db'.nodes ↔ ∃ x ∈ db.nodes, (if x.id = n.id then u.apply x else x) = m := by
    intro m
    rw [hnodes, Table.mem_modify]
  have hsame : ∀ x : NodeRow, (if x.id = n.id then u.apply x else x).id = x.id ∧
      (if x.id = n.id then u.apply x else x).parent_id = x.parent_id ∧
      (if x.id = n.id then u.apply x else x).name = x.name ∧
      (if x.id = n.id then u.apply x else x).trashed_at_ms = x.trashed_at_ms := by
    intro x
    obtain ⟨hparent, hname, htrashed, _⟩ := hkeeps x
    split
    · exact ⟨u.key_apply x, hparent, hname, htrashed⟩
    · exact ⟨rfl, rfl, rfl, rfl⟩
  have hr' : IsRoot db' ws (if r.id = n.id then u.apply r else r) := by
    refine ⟨(hmem _).mpr ⟨r, hr.mem, rfl⟩, ?_, (hsame r).2.1.trans hr.root⟩
    split
    · exact (hkeeps r).2.2.2.trans hr.workspace
    · exact hr.workspace
  refine Hierarchy.ext_some (fun q e => ?_)
  rw [Hierarchy.lookup_update_eq_some, file_tree_eq_some hwf' hr', file_tree_eq_some hwf hr]
  simp only [Under.map hmem hsame hr.mem]
  constructor
  · rintro ⟨_, ⟨m, hm, rfl⟩, rfl⟩
    by_cases hid : m.id = n.id
    · obtain rfl := db.node_ext hm.mem h.mem hid
      rw [if_pos rfl]
      exact Or.inr ⟨hm.place_unique (hr.live hwf) h, _, lookup_of_under hwf hr hm, hchanged.symm⟩
    · rw [if_neg hid]
      refine Or.inl ⟨?_, m, hm, (hentry m hm.mem hid).symm⟩
      rintro rfl
      exact hid (by rw [hm.unique hwf h])
  · rintro (⟨hne, m, hm, rfl⟩ | ⟨rfl, u', hu', rfl⟩)
    · have hid : m.id ≠ n.id := by
        intro hid
        obtain rfl := db.node_ext hm.mem h.mem hid
        exact hne (hm.place_unique (hr.live hwf) h)
      exact ⟨m, ⟨m, hm, if_neg hid⟩, hentry m hm.mem hid⟩
    · rw [lookup_of_under hwf hr h, Option.some.injEq] at hu'
      subst hu'
      exact ⟨u.apply n, ⟨n, h, if_pos rfl⟩, hchanged⟩

/-- A new child of a node is a new leaf at its place. -/
theorem file_tree_insert (hwf : NodesWellFormed db) (hwf' : NodesWellFormed db')
    (hr : IsRoot db ws r) {p : NodeRow} (hp : Under db r place p) {nodes : Table NodeRow.key}
    (hins : db.nodes.insert n = some nodes) (hnodes : db'.nodes = nodes)
    (hup : n.parent_id = some p.id) (hactive : n.trashed_at_ms = none)
    (hfree : db.Free ws p.id n.name)
    (hentry : ∀ m ∈ db.nodes, db'.entry m.toRawNode = db.entry m.toRawNode) :
    db'.file_tree ws =
      (db.file_tree ws).graft (.leaf (db'.entry n.toRawNode)) place n.name := by
  have hkept : ∀ m ∈ db.nodes, m ∈ db'.nodes := fun m hm => by
    rw [hnodes]
    exact (Table.mem_insert hins).mpr (Or.inl hm)
  have hr' : IsRoot db' ws r := ⟨hkept r hr.mem, hr.workspace, hr.root⟩
  refine Hierarchy.ext_some (fun q e => ?_)
  rw [Hierarchy.lookup_graft_eq_some, file_tree_eq_some hwf' hr', file_tree_eq_some hwf hr]
  simp only [Under.insert_iff hwf hins hnodes hp.mem hup hactive hr.mem,
    lookup_of_under hwf hr hp, Option.isSome_some, true_and, Hierarchy.lookup_leaf_eq_some]
  -- nothing has been at the new place
  have hempty : ∀ q m, Under db r q m → ¬ place ++ [n.name] <+: q := by
    rintro q m hm ⟨rest, rfl⟩
    obtain ⟨x, hx, _⟩ := Under.append_iff.mp hm
    have hxws := (hx.workspace hwf).trans hr.workspace
    obtain ⟨p', hp', hxmem, hxup, hxactive, hname⟩ := Under.concat_iff.mp hx
    obtain rfl := hp.unique hwf hp'
    exact hfree x hxmem hxws hxup hname hxactive
  constructor
  · rintro ⟨m, hm | ⟨place', hplace', rfl, rfl⟩, rfl⟩
    · exact Or.inl ⟨hempty q m hm, m, hm, (hentry m hm.mem).symm⟩
    · obtain rfl := hplace'.place_unique (hr.live hwf) hp
      exact Or.inr ⟨[], rfl, rfl, rfl⟩
  · rintro (⟨_, m, hm, rfl⟩ | ⟨_, rfl, rfl, rfl⟩)
    · exact ⟨m, Or.inl hm, hentry m hm.mem⟩
    · exact ⟨n, Or.inr ⟨place, hp, rfl, rfl⟩, rfl⟩

/-- When a row gets another parent and name, its branch is put under the new place. What is left
of the tree without the branch is `rest`. -/
theorem branch_rehang (hwf : NodesWellFormed db) (hwf' : NodesWellFormed db') {top s p : NodeRow}
    (htop : top ∈ db.nodes) (hws : top.workspace_id = ws)
    (hunique : ∀ {q q' m}, Under db top q m → Under db top q' m → q = q') (hn : n ∈ db.nodes)
    (hnws : n.workspace_id = ws) (hid : s.id = n.id)
    (hmem : ∀ m, m ∈ db'.nodes ↔ m = s ∨ m ∈ db.nodes ∧ m.id ≠ n.id)
    (hself : ∀ rest m, rest ≠ [] → Under db n rest m → m.id ≠ n.id)
    (hclear : ¬ Below db.parent top.id n.id) (hp : Under db top place p)
    (hup : s.parent_id = some p.id) (hactive : s.trashed_at_ms = none)
    (hfree : ∀ m ∈ db.nodes, m.workspace_id = ws → m.parent_id = some p.id → m.name = s.name →
      m.trashed_at_ms = none → m = n)
    (hentry : ∀ m ∈ db.nodes, m.id ≠ n.id → db'.entry m.toRawNode = db.entry m.toRawNode)
    {f : Entry → Entry} (hchanged : db'.entry s.toRawNode = f (db.entry n.toRawNode))
    {rest : FileTree} (hrest : ∀ q e, rest.lookup q = some e ↔
      ∃ m, (Under db top q m ∧ ¬ Below db.parent m.id n.id) ∧ db.entry m.toRawNode = e) :
    db'.branch ws top.toRawNode =
      rest.graft ((db.branch ws n.toRawNode).update [] f) place s.name := by
  have hne : top.id ≠ n.id := fun heq => hclear (heq ▸ Below.refl _ _)
  have htop' : top ∈ db'.nodes := (hmem top).mpr (Or.inr ⟨htop, hne⟩)
  have hbranch : ∀ q e, (db.branch ws n.toRawNode).lookup q = some e ↔ _ :=
    fun q e => branch_eq_some hwf hn hnws
  have hother : ∀ {q m}, Under db top q m → ¬ Below db.parent m.id n.id →
      db'.entry m.toRawNode = db.entry m.toRawNode := fun hm hnot =>
    hentry _ hm.mem (fun heq => hnot (heq ▸ Below.refl _ _))
  refine Hierarchy.ext_some (fun q e => ?_)
  rw [Hierarchy.lookup_graft_eq_some, branch_eq_some hwf' htop' hws, hrest]
  simp only [Under.rehang_iff hn hid hmem hself hclear, Hierarchy.lookup_update_eq_some, hbranch]
  constructor
  · rintro ⟨m, ⟨hm, hnot⟩ | ⟨_, place', p', inner, hp', hnot, hup', rfl, hcarried⟩, rfl⟩
    · refine Or.inl ⟨?_, m, ⟨hm, hnot⟩, (hother hm hnot).symm⟩
      -- only the row itself could have been at the new place
      rintro ⟨inner, rfl⟩
      obtain ⟨x, hx, hmx⟩ := Under.append_iff.mp hm
      have hxws := (hx.workspace hwf).trans hws
      obtain ⟨p', hp', hxmem, hxup, hxactive, hname⟩ := Under.concat_iff.mp hx
      obtain rfl := hp.unique hwf hp'
      obtain rfl := hfree x hxmem hxws hxup hname hxactive
      exact hnot hmx.below_top
    · obtain rfl := db.node_ext hp.mem hp'.mem (Option.some.inj (hup.symm.trans hup'))
      obtain rfl := hunique hp hp'
      refine Or.inr ⟨?_, inner, rfl, ?_⟩
      · rw [Option.isSome_iff_exists]
        exact ⟨_, (hrest _ _).mpr ⟨p, ⟨hp, hnot⟩, rfl⟩⟩
      · obtain ⟨rfl, rfl⟩ | ⟨hne, hm⟩ := hcarried
        · exact Or.inr ⟨rfl, _, ⟨n, .here hn, rfl⟩, hchanged.symm⟩
        · exact Or.inl ⟨hne, m, hm, (hentry m hm.mem (hself _ _ hne hm)).symm⟩
  · rintro (⟨_, m, ⟨hm, hnot⟩, rfl⟩ | ⟨hoccupied, inner, rfl, hbranched⟩)
    · exact ⟨m, Or.inl ⟨hm, hnot⟩, hother hm hnot⟩
    · obtain ⟨e', he'⟩ := Option.isSome_iff_exists.mp hoccupied
      obtain ⟨p', ⟨hp', hnot⟩, _⟩ := (hrest _ _).mp he'
      obtain rfl := hp.unique hwf hp'
      obtain ⟨hne, m, hm, rfl⟩ | ⟨rfl, _, ⟨m, hm, rfl⟩, rfl⟩ := hbranched
      · exact ⟨m, Or.inr ⟨hactive, place, p, inner, hp, hnot, hup, rfl, Or.inr ⟨hne, hm⟩⟩,
          hentry m hm.mem (hself _ _ hne hm)⟩
      · obtain ⟨rfl, _⟩ := Under.nil_iff.mp hm
        exact ⟨s, Or.inr ⟨hactive, place, p, [], hp, hnot, hup, rfl, Or.inl ⟨rfl, rfl⟩⟩, hchanged⟩

end Db

end fslite
