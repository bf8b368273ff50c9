import Fslite.Sqlite.Run.Request

namespace fslite

namespace Db

variable {db : Db}

/-- Parents are read off the node table. -/
theorem parent_of_nodes {db' : Db} (hnodes : db'.nodes = db.nodes) : db'.parent = db.parent := by
  funext x
  simp only [parent, node?, hnodes]

theorem parent_insert {n : NodeRow} {nodes : Table NodeRow.key}
    (hins : db.nodes.insert n = some nodes) (x : NodeId) :
    Db.parent { db with nodes } x = if n.id = x then n.parent_id else db.parent x := by
  show (nodes.find? x).bind _ = _
  rw [Table.find?_insert hins]
  split
  · rfl
  · rfl

theorem parent_modify {n : NodeRow} (hn : n ∈ db.nodes) (u : Table.Update NodeRow.key)
    (x : NodeId) :
    Db.parent { db with nodes := db.nodes.modify n.id u } x = if x =
      n.id then (u.apply n).parent_id else db.parent x := by
  show ((db.nodes.modify n.id u).find? x).bind _ = _
  rw [Table.find?_modify]
  split
  · rw [show db.nodes.find? n.id = some n from Table.find?_key hn]
    rfl
  · rfl

/-- What has a parent is stored. -/
theorem stored_of_parent {x up : NodeId} (h : db.parent x = some up) :
    ∃ n ∈ db.nodes, n.id = x ∧ n.parent_id = some up :=
  parent_eq_some.mp h

theorem parent_purge {id x : NodeId} (h : ¬ Below db.parent x id) :
    (db.purge id).parent x = db.parent x := by
  cases hx : db.node? x with
  | some n =>
    obtain ⟨hn, rfl⟩ := node?_eq_some.mp hx
    rw [parent_of_mem hn, parent_of_mem (mem_purge_nodes.mpr ⟨hn, h⟩)]
  | none =>
    have hgone : (db.purge id).node? x = none :=
      Table.find?_eq_none.mpr (fun m hm => Table.find?_eq_none.mp hx m (mem_purge_nodes.mp hm).1)
    simp only [parent, hx, hgone]

end Db

/-- What a live node climbs to is live. -/
theorem Live.of_below {db : Db} {ws : WorkspaceId} {n : NodeRow} {x : NodeId} (h : Live db ws n)
    (hx : Below db.parent n.id x) : ∃ m, Live db ws m ∧ m.id = x := by
  generalize hstart : n.id = a at hx
  induction hx using Below.head_induction generalizing n with
  | top => exact ⟨n, h, hstart⟩
  | @step a b hab _ ih =>
    subst hstart
    rw [Db.parent_of_mem h.mem] at hab
    obtain ⟨p, hp, _, hid⟩ := h.parent hab
    exact ih hp hid

/-- Following `parent_id` from any node leads to a root. -/
def Rooted (db : Db) : Prop :=
  ∀ n ∈ db.nodes, ∃ r ∈ db.nodes, r.parent_id = none ∧ Below db.parent n.id r.id

namespace Rooted

variable {db db' : Db}

theorem empty : Rooted Db.empty := fun n hn => absurd hn (Table.not_mem_empty n)

theorem congr (h : Rooted db) (hnodes : db'.nodes = db.nodes) : Rooted db' := by
  unfold Rooted
  rw [hnodes, Db.parent_of_nodes hnodes]
  exact h

/-- In a rooted store no node is above its own parent. -/
theorem acyclic (h : Rooted db) {n : NodeRow} (hn : n ∈ db.nodes) {up : NodeId}
    (hup : n.parent_id = some up) :
    ¬ Below db.parent up n.id := by
  obtain ⟨r, hr, hroot, hbelow⟩ := h n hn
  exact hbelow.acyclic (by rw [Db.parent_of_mem hr, hroot]) (by rw [Db.parent_of_mem hn, hup])

theorem insert (h : Rooted db) {n : NodeRow} {nodes : Table NodeRow.key}
    (hins : db.nodes.insert n = some nodes)
    (hup : ∀ up, n.parent_id = some up → ∃ p ∈ db.nodes, p.id = up) : Rooted { db with nodes } := by
  have hkeep : ∀ {a b : NodeId}, Below db.parent a b → Below (Db.parent { db with nodes }) a b := by
    refine fun hab => hab.mono (fun x up hx => ?_)
    obtain ⟨m, hm, rfl, _⟩ := Db.stored_of_parent hx
    rw [Db.parent_insert hins, if_neg, hx]
    exact fun heq => Table.find?_eq_none.mp (Table.insert_eq_some.mp hins).1 m hm heq.symm
  intro m hm
  obtain hm | rfl := (Table.mem_insert hins).mp hm
  · obtain ⟨r, hr, hroot, hbelow⟩ := h m hm
    exact ⟨r, (Table.mem_insert hins).mpr (Or.inl hr), hroot, hkeep hbelow⟩
  · cases hparent : m.parent_id with
    | none => exact ⟨m, hm, hparent, Below.refl _ _⟩
    | some up =>
      obtain ⟨p, hp, rfl⟩ := hup up hparent
      obtain ⟨r, hr, hroot, hbelow⟩ := h p hp
      refine ⟨r, (Table.mem_insert hins).mpr (Or.inl hr), hroot, Below.head ?_ (hkeep hbelow)⟩
      rw [Db.parent_insert hins, if_pos rfl, hparent]

/-- A changed row keeps the store rooted when its new parent is stored and not
at or below the row itself. -/
theorem modify (h : Rooted db) {n : NodeRow} (hn : n ∈ db.nodes) {u : Table.Update NodeRow.key}
    (hroot : n.parent_id = none ↔ (u.apply n).parent_id = none)
    (hup : ∀ up, (u.apply n).parent_id = some up → (∃ p ∈ db.nodes, p.id = up) ∧
    ¬ Below db.parent up n.id) :
    Rooted { db with nodes := db.nodes.modify n.id u } := by
  have hid : (u.apply n).id = n.id := u.key_apply n
  have hroots : ∀ r ∈ db.nodes, r.parent_id = none →
      ∃ r' ∈ db.nodes.modify n.id u, r'.parent_id = none ∧ r'.id = r.id := by
    intro r hr hnone
    by_cases hrn : r.id = n.id
    · obtain rfl := db.node_ext hr hn hrn
      exact ⟨u.apply r, (Db.mem_modify_nodes hn).mpr (Or.inl rfl), hroot.mp hnone, hid⟩
    · exact ⟨r, (Db.mem_modify_nodes hn).mpr (Or.inr ⟨hr, hrn⟩), hnone, rfl⟩
  -- a climb that does not pass through the changed row is as before
  have haway : ∀ m ∈ db.nodes, ¬ Below db.parent m.id n.id → ∃ r' ∈ db.nodes.modify n.id u,
    r'.parent_id = none ∧
      Below (Db.parent { db with nodes := db.nodes.modify n.id u }) m.id r'.id := by
    intro m hm hnot
    obtain ⟨r, hr, hnone, hbelow⟩ := h m hm
    obtain ⟨r', hr', hnone', hrid⟩ := hroots r hr hnone
    refine ⟨r', hr', hnone', hrid ▸ hbelow.congr (fun x hmx _ _ => ?_)⟩
    rw [Db.parent_modify hn, if_neg]
    rintro rfl
    exact hnot hmx
  have hself : ∃ r' ∈ db.nodes.modify n.id u, r'.parent_id = none ∧
      Below (Db.parent { db with nodes := db.nodes.modify n.id u }) n.id r'.id := by
    cases hparent : (u.apply n).parent_id with
    | none => exact ⟨u.apply n, (Db.mem_modify_nodes hn).mpr (Or.inl rfl),
      hparent, by rw [hid]; exact Below.refl _ _⟩
    | some up =>
      obtain ⟨⟨p, hp, rfl⟩, hnot⟩ := hup up hparent
      obtain ⟨r', hr', hnone, hbelow⟩ := haway p hp hnot
      refine ⟨r', hr', hnone, Below.head ?_ hbelow⟩
      rw [Db.parent_modify hn, if_pos rfl, hparent]
  intro m hm
  obtain rfl | ⟨hm, hne⟩ := (Db.mem_modify_nodes hn).mp hm
  · rw [hid]
    exact hself
  · by_cases hthrough : Below db.parent m.id n.id
    · obtain ⟨r', hr', hnone, hbelow⟩ := hself
      refine ⟨r', hr', hnone, (hthrough.congr (fun x _ _ hx => ?_)).trans hbelow⟩
      rw [Db.parent_modify hn, if_neg hx]
    · exact haway m hm hthrough

/-- A changed row that keeps its parent. -/
theorem modify_in_place (h : Rooted db) (hwf : NodesWellFormed db) {n : NodeRow} (hn : n ∈ db.nodes)
    {u : Table.Update NodeRow.key} (hparent : (u.apply n).parent_id = n.parent_id) :
    Rooted { db with nodes := db.nodes.modify n.id u } := by
  refine h.modify hn (by rw [hparent]) (fun up hup => ?_)
  rw [hparent] at hup
  obtain ⟨p, hp, hid, _⟩ := hwf.parent n hn up hup
  exact ⟨⟨p, hp, hid⟩, h.acyclic hn hup⟩

theorem purge (h : Rooted db) (id : NodeId) : Rooted (db.purge id) := by
  intro m hm
  obtain ⟨hm, hnot⟩ := Db.mem_purge_nodes.mp hm
  obtain ⟨r, hr, hroot, hbelow⟩ := h m hm
  exact ⟨r, Db.mem_purge_nodes.mpr ⟨hr, fun hr => hnot (hbelow.trans hr)⟩, hroot,
    hbelow.prune hnot (fun x hx => Db.parent_purge hx)⟩

theorem clear (h : Rooted db) (hwf : NodesWellFormed db) (ws : WorkspaceId) :
    Rooted (db.clear ws) := by
  intro m hm
  obtain ⟨hm, hne⟩ := Db.mem_clear_nodes.mp hm
  obtain ⟨r, hr, hroot, hbelow⟩ := h m hm
  have hsame : ∀ x ∈ db.nodes, Below db.parent m.id x.id → x.workspace_id ≠ ws :=
    fun x hx hmx => Db.below_workspace hwf hmx hm hx rfl rfl ▸ hne
  refine ⟨r, Db.mem_clear_nodes.mpr ⟨hr, hsame r hr hbelow⟩, hroot,
    hbelow.congr (fun x hmx hxr hx => ?_)⟩
  obtain rfl | ⟨up, hup, _⟩ := hxr.cases_head
  · exact absurd rfl hx
  · obtain ⟨y, hy, rfl, _⟩ := Db.stored_of_parent hup
    rw [Db.parent_of_mem hy, Db.parent_of_mem (Db.mem_clear_nodes.mpr ⟨hy, hsame y hy hmx⟩)]

end Rooted

/-- Changes keep the store rooted when relocated nodes do not go under themselves. -/
theorem Edit.rooted {P : Policy} {fresh : Uuid → Prop} {mine : GenerationId → Prop} {db db' : Db}
    (h : Edit P fresh mine db db') (hwf : WellFormed db)
    (hrehang : ∀ id up, P.rehang db id up → ¬ Below db.parent up id) (hrooted : Rooted db) :
    Rooted db' := by
  cases h with
  | insert n p hf hp hdir hopen hup hws hsegment hfree hactive hrevision hfile hcontent hins =>
    refine hrooted.insert hins (fun up hparent => ⟨p, hp, ?_⟩)
    rw [hup, Option.some.injEq] at hparent
    exact hparent
  | revise n hlive u hrow as hother =>
    exact (hrooted.modify_in_place (u := u) hwf.nodes hlive.mem (by rw [hrow])).congr rfl
  | replace n hlive g hm length hready old hold now =>
    exact (hrooted.modify_in_place
      (u := content.replaced g length _ now) hwf.nodes hlive.mem rfl).congr rfl
  | relocate n p hlive hroot hp hdir name hsegment hfree hpolicy now =>
    refine hrooted.modify (u := mutate.moved p.id name _ now) hlive.mem
      ⟨fun hnone => absurd hnone hroot,
      fun hnone => by cases hnone⟩ (fun up hup => ?_)
    cases hup
    exact ⟨⟨p, hp.mem, rfl⟩, hrehang _ _ hpolicy⟩
  | purge n => exact hrooted.purge n.id
  | trash n hlive t hf hnode hws hup hname hpolicy hins now =>
    exact (hrooted.modify_in_place (u := trash.trashed now) hwf.nodes hlive.mem rfl).congr rfl
  | restore n p hn t ht hnode hp hdir hws hactive hplace name hsegment hfree hpolicy now =>
    obtain ⟨n', hn', hid, _, htrashed, hup', _⟩ := hwf.trash.record t ht
    obtain rfl := db.node_ext hn' hn (hid.trans hnode)
    refine (hrooted.modify (u := trash.restored p.id name _ now) hn
      ⟨fun hnone => ?_, fun hnone => by cases hnone⟩
      (fun up hup => ?_)).congr rfl
    · rw [hup'] at hnone
      cases hnone
    · cases hup
      refine ⟨⟨p, hp, rfl⟩, ?_⟩
      obtain hlive | hparent := hplace
      · intro hbelow
        obtain ⟨m, hm, hmid⟩ := hlive.of_below hbelow
        obtain rfl := db.node_ext hm.mem hn hmid
        exact htrashed hm.active
      · exact hrooted.acyclic hn hparent
  | enter row root hroot hid hseq now hws hins =>
    exact (hrooted.insert hins (fun up hup => by cases hup)).congr rfl
  | reset ws row hrow hpolicy root hroot now hins =>
    exact ((hrooted.clear hwf.nodes ws).insert hins (fun up hup => by cases hup)).congr rfl
  | erase ws => exact (hrooted.clear hwf.nodes ws).congr rfl
  | _ => exact hrooted.congr rfl

/-- The nodes of a workspace form a tree of directories with unambiguous names
under one root. -/
structure TreeShaped (db : Db) (ws : WorkspaceId) : Prop where
  root : ∃ r ∈ db.nodes, r.workspace_id = ws ∧ r.parent_id = none ∧ r.kind = .Directory ∧
    (∀ n ∈ db.nodes, n.workspace_id = ws → n.parent_id = none → n = r) ∧
    ∀ n ∈ db.nodes, n.workspace_id = ws → Below db.parent n.id r.id
  parent : ∀ n ∈ db.nodes, n.workspace_id = ws → ∀ up, n.parent_id = some up →
    ∃ p ∈ db.nodes, p.id = up ∧ p.workspace_id = ws ∧ p.kind = .Directory
  name : ∀ n ∈ db.nodes, ∀ m ∈ db.nodes, n.workspace_id = ws → m.workspace_id = ws →
    n.trashed_at_ms = none →
    m.trashed_at_ms = none → n.parent_id ≠ none → n.parent_id = m.parent_id → n.name = m.name →
      n = m

theorem Rooted.treeShaped {db : Db} (h : Rooted db) (hwf : WellFormed db) {ws : WorkspaceId}
    {row : WorkspaceRow} (hrow : db.workspace? ws = some row) : TreeShaped db ws := by
  obtain ⟨r, hr, hrws, hroot⟩ := hwf.nodes.root ws row hrow
  refine ⟨⟨r, hr, hrws, hroot, (hwf.nodes.root_shape r hr hroot).1, ?_, ?_⟩, ?_, ?_⟩
  · exact fun n hn hws hnone => hwf.nodes.root_unique n hn r hr (hws.trans hrws.symm) hnone hroot
  · intro n hn hws
    obtain ⟨r', hr', hroot', hbelow⟩ := h n hn
    have hws' : r'.workspace_id = ws :=
      (Db.below_workspace hwf.nodes hbelow hn hr' rfl rfl).symm.trans hws
    rwa [← hwf.nodes.root_unique r' hr' r hr (hws'.trans hrws.symm) hroot' hroot]
  · rintro n hn rfl up hup
    exact hwf.nodes.parent n hn up hup
  · exact fun n hn m hm hnws hmws hact hact' hchild hparent hname =>
      hwf.nodes.name n hn m hm (hnws.trans hmws.symm) hparent hchild hname hact hact'

/-- A store is shown to be tree-shaped by climbing to a root from every row. -/
theorem Reachable.treeShaped_of_climbs {rt : Runtime} {w : World} {ws : WorkspaceId}
    (h : Reachable rt w) (hclimb : ∀ n ∈ w.db.nodes.rows, ∃ r ∈ w.db.nodes.rows,
    r.parent_id = none ∧ w.db.cascades r.id n.id = true)
    (hworkspace : (w.db.workspace? ws).isSome = true) : TreeShaped w.db ws := by
  have hrooted : Rooted w.db := by
    intro n hn
    obtain ⟨r, hr, hroot, hbelow⟩ := hclimb n hn
    exact ⟨r, hr, hroot, Db.cascades_iff.mp hbelow⟩
  obtain ⟨row, hrow⟩ := Option.isSome_iff_exists.mp hworkspace
  exact hrooted.treeShaped h.sound.wf hrow

/-- In a tree no node is its own descendant. -/
theorem TreeShaped.acyclic {db : Db} {ws : WorkspaceId} (h : TreeShaped db ws) {n : NodeRow}
    (hn : n ∈ db.nodes) (hws : n.workspace_id = ws) {up : NodeId} (hup : n.parent_id = some up) :
    ¬ Below db.parent up n.id := by
  obtain ⟨r, hr, _, hroot, _, _, hbelow⟩ := h.root
  exact (hbelow n hn hws).acyclic (by rw [Db.parent_of_mem hr, hroot])
    (by rw [Db.parent_of_mem hn, hup])

/-- The operation is a move whose destination directory is its source or lies
below it. -/
def MovesInward (db : Db) (ws : WorkspaceId) : BatchOperation → Prop
  | .Move source_path target options => ∃ source parent name existing,
    mutate.Moves db ws source_path target options source parent name existing ∧
      Below db.parent parent.id source.id
  | _ => False

/-- Whether the path of a move's source leads at or above the directory that its
target's parent path leads to. -/
def leads_inward (db : Db) (ws : WorkspaceId) (source_path target : VirtualPath) : Bool :=
  match resolve.resolve_following db ws source_path false,
    target.parent.map (fun up => resolve.resolve_following db ws up true) with
  | .Found source, some (.Found parent) => db.cascades source.id parent.id
  | _, _ => false

theorem MovesInward.leads_inward {db : Db} {ws : WorkspaceId} {source_path target : VirtualPath}
    {options : MoveOptions} (h : MovesInward db ws (.Move source_path target options)) :
    leads_inward db ws source_path target = true := by
  obtain ⟨source, parent, name, existing, hmoves, hbelow⟩ := h
  obtain ⟨parent_path, hup, hparent⟩ := hmoves.dest.found
  unfold fslite.leads_inward
  rw [hmoves.found, hup, Option.map_some, hparent]
  exact Db.cascades_iff.mpr hbelow

/-- Moves that go nowhere at or below their source; anything else is allowed. -/
def Policy.outward : Policy := { Policy.any with rehang := fun db id up => ¬ Below db.parent up id }

theorem Policy.outward_permits {db : Db} {ws : WorkspaceId} {operation : BatchOperation}
    (h : ¬ MovesInward db ws operation) : Policy.outward.Permits ws db operation := by
  cases operation with
  | Copy => exact fun _ _ _ _ _ => trivial
  | Move source_path target options =>
    intro source parent name existing hmoves
    refine ⟨fun _ _ => trivial, fun _ hbelow => h ⟨source, parent, name, existing, hmoves, ?_⟩⟩
    refine hbelow.mono (fun x up hx => ?_)
    obtain ⟨m, hm, hmid, hup⟩ := Db.stored_of_parent hx
    exact Db.parent_eq_some.mpr ⟨m, mutate.overwritten_mem hm, hmid, hup⟩
  | Remove => exact fun _ _ => trivial
  | Trash => exact fun _ _ => trivial
  | Restore => exact fun _ _ _ _ _ => trivial
  | Purge => exact fun _ _ => trivial
  | _ => trivial

/-- In every run in which no move puts its source under itself, the nodes of
every workspace form a tree at any time. -/
theorem Reached.tree_shaped {rt : Runtime} {c : System}
    (h : Reached rt (fun c _ o => ∀ ws db operation, o.Performs rt c.state ws db operation →
      ¬ MovesInward db ws operation) c)
    (ws : WorkspaceId) (row : WorkspaceRow) (hrow : c.state.db.workspace? ws = some row) :
    TreeShaped c.state.db ws := by
  have houtward : Reached rt (fun c _ o => Policy.outward.Allows rt c.state o) c :=
    h.mono (fun _ hp => hp)
    (fun c _ o hmay => Policy.allows_of_performs (fun hl => hl) (fun _ _ => trivial)
      (fun ws db operation hop => Policy.outward_permits (hmay ws db operation hop)))
  have hrooted : Rooted c.state.db := houtward.invariant Rooted.empty
    (fun hedit hwf => hedit.rooted hwf (fun _ _ hpolicy => hpolicy))
  exact hrooted.treeShaped houtward.sound.wf hrow

/-- A new workspace with directories `/a` and `/b`, and `/a` moved to `/b/a`. -/
def outwardRequests : List (RequestContext × Request) :=
  [(.trusted 0, .CreateWorkspace {}),
    (.trusted 0, .Perform (.Mkdir (.named [['a']]) {})),
    (.trusted 0, .Perform (.Mkdir (.named [['b']]) {})),
    (.trusted 0, .Perform (.Move (.named [['a']])
      (.named [['b'], ['a']]) {}))]

theorem outward_tree_shaped :
    TreeShaped (serveAll Runtime.counting outwardRequests ⟨Db.empty, 0⟩).db 0 := by
  have hempty : Reached Runtime.counting (fun c _ o => ∀ ws db operation,
      o.Performs Runtime.counting c.state ws db operation → ¬ MovesInward db ws operation)
        ⟨⟨Db.empty, 0⟩, []⟩ :=
    Relation.ReflTransGen.refl
  obtain ⟨_, hcreated⟩ := hempty.serve (.trusted 0) (.CreateWorkspace {})
    (Task.along_map ⟨fun _ _ _ _ hop => hop.elim, trivial⟩)
  obtain ⟨_, ha⟩ := hcreated.serve (.trusted 0) (.Perform (.Mkdir (.ofSegments [['a']] (by decide)) {}))
    (along_perform (by rintro _ _ _ _ ⟨rfl, rfl, rfl⟩ h; exact h))
  obtain ⟨_, hb⟩ := ha.serve (.trusted 0) (.Perform (.Mkdir (.ofSegments [['b']] (by decide)) {}))
    (along_perform (by rintro _ _ _ _ ⟨rfl, rfl, rfl⟩ h; exact h))
  obtain ⟨_, hmoved⟩ := hb.serve (.trusted 0)
    (.Perform (.Move (.ofSegments [['a']] (by decide)) (.ofSegments [['b'], ['a']] (by decide)) {}))
      (along_perform (by
      rintro _ _ _ _ ⟨rfl, rfl, rfl⟩ hinward
      exact absurd hinward.leads_inward
        (show ¬ leads_inward (serveAll Runtime.counting (outwardRequests.take 3)
        ⟨Db.empty, 0⟩).db 0 (.ofSegments [['a']] (by decide))
          (.ofSegments [['b'], ['a']] (by decide)) = true by
        decide +kernel)))
  obtain ⟨row, hrow⟩ := Option.isSome_iff_exists.mp
    (show ((serveAll Runtime.counting outwardRequests ⟨Db.empty, 0⟩).db.workspace? 0).isSome =
      true by decide +kernel)
  exact hmoved.tree_shaped 0 row hrow

/-- A new workspace with a directory `/a` and a link `/l` to it, and `/a` moved
to `/l/b`. -/
def inwardRequests : List (RequestContext × Request) :=
  [(.trusted 0, .CreateWorkspace {}),
    (.trusted 0, .Perform (.Mkdir (.named [['a']]) {})),
    (.trusted 0, .Perform (.Symlink ⟨['/', 'a'], ['/', 'a'], by decide, by decide, by decide⟩
      (.named [['l']]) {})),
    (.trusted 0, .Perform (.Move (.named [['a']])
      (.named [['l'], ['b']]) {}))]

/-- Through a link a directory is moved into itself. -/
theorem inward_not_tree_shaped :
    Reachable Runtime.counting (serveAll Runtime.counting inwardRequests ⟨Db.empty, 0⟩) ∧
    ((serveAll Runtime.counting inwardRequests ⟨Db.empty, 0⟩).db.workspace? 0).isSome = true ∧
    ¬ TreeShaped (serveAll Runtime.counting inwardRequests ⟨Db.empty, 0⟩).db 0 := by
  refine ⟨(Reachable.empty _).serveAll _, by decide +kernel, fun htree => ?_⟩
  have hself : ∃ n ∈ (serveAll Runtime.counting inwardRequests ⟨Db.empty, 0⟩).db.nodes.rows,
      n.workspace_id = 0 ∧ n.parent_id = some n.id := by decide +kernel
  obtain ⟨n, hn, hws, hup⟩ := hself
  exact htree.acyclic hn hws hup (Below.refl _ _)

end fslite
