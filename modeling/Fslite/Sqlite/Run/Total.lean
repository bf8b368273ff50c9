import Fslite.Sqlite.Effect.Visit
import Fslite.Sqlite.Run.Ownership

namespace fslite

open resolve

variable {rt : Runtime} {ws : WorkspaceId} {w : World} {db : Db}

theorem Db.insert_node_total {row : NodeRow} (hallowed : Allowed db row)
    (hfresh : db.node? row.id = none) :
    ∃ nodes, db.insert_node row = .ok { db with nodes } := by
  unfold Db.insert_node
  rw [if_pos (Db.node_allowed_iff.mpr hallowed)]
  cases hins : db.nodes.insert row with
  | some nodes => exact ⟨nodes, rfl⟩
  | none =>
    obtain ⟨old, hold⟩ := Table.contains_iff.mp (Table.insert_eq_none.mp hins)
    rw [show db.nodes.find? row.key = none from hfresh] at hold
    cases hold

/-- A row is inserted under a stored directory in which its name is free. -/
theorem WellFormed.insert_total {before : Db} (hwf : WellFormed before)
    (hnodes : db.nodes = before.nodes) (hworkspaces : db.workspaces = before.workspaces)
    {p row : NodeRow} (hp : p ∈ before.nodes) (hws : p.workspace_id = row.workspace_id)
    (hup : row.parent_id = some p.id)
    (hcontent : ∀ g, row.content_generation_id = some g → ∃ gen, db.generation? g = some gen)
    (hfree : before.Free row.workspace_id p.id row.name) (hfresh : ∀ m ∈ before.nodes, m.id ≠ row.id) :
    ∃ nodes, db.insert_node row = .ok { db with nodes } := by
  refine Db.insert_node_total ⟨?_, fun up hup' => ?_, hcontent, fun _ up hup' m hm _ hmws hmup => ?_⟩ ?_
  · rw [Db.workspace?, hworkspaces, ← hws]
    exact hwf.nodes.workspace p hp
  · obtain rfl := Option.some.inj (hup.symm.trans hup')
    rw [Db.node?, hnodes]
    exact ⟨p, Db.node?_of_mem hp⟩
  · obtain rfl := Option.some.inj (hup.symm.trans hup')
    rw [hnodes] at hm
    exact hfree m hm hmws hmup
  · rw [Db.node?, hnodes]
    exact Table.find?_eq_none.mpr hfresh

/-- A stored row is written again with its content, where its place is free or its own. -/
theorem WellFormed.update_total {before : Db} (hwf : WellFormed before)
    (hnodes : db.nodes = before.nodes) (hworkspaces : db.workspaces = before.workspaces)
    (hgenerations : db.content_generations = before.content_generations) {n : NodeRow}
    (hn : n ∈ before.nodes) {u : Table.Update NodeRow.key}
    (hws : (u.apply n).workspace_id = n.workspace_id)
    (hcontent : (u.apply n).content_generation_id = n.content_generation_id)
    (hup : ∀ up, (u.apply n).parent_id = some up → ∃ p ∈ before.nodes, p.id = up)
    (hfree : (u.apply n).trashed_at_ms = none → ∀ up, (u.apply n).parent_id = some up →
      before.Free n.workspace_id up (u.apply n).name ∨
      n.trashed_at_ms = none ∧ n.parent_id = some up ∧ n.name = (u.apply n).name) :
    db.update_node n.id u = .ok { db with nodes := before.nodes.modify n.id u } := by
  have hallowed : Allowed db (u.apply n) := by
    refine ⟨?_, fun up h => ?_, fun g hg => ?_, fun hactive up h m hm hne hmws hmup hname hmactive => ?_⟩
    · rw [Db.workspace?, hworkspaces, hws]
      exact hwf.nodes.workspace n hn
    · obtain ⟨p, hp, rfl⟩ := hup up h
      rw [Db.node?, hnodes]
      exact ⟨p, Db.node?_of_mem hp⟩
    · rw [hcontent] at hg
      obtain ⟨_, gen, hgen, _⟩ := hwf.contents.generation n hn g hg
      rw [Db.generation?, hgenerations]
      exact ⟨gen, hgen⟩
    · rw [hnodes] at hm
      rw [hws] at hmws
      obtain hfree | ⟨hactive', hup', hname'⟩ := hfree hactive up h
      · exact hfree m hm hmws hmup hname hmactive
      · have hchild : m.parent_id ≠ none := by
          rw [hmup]
          exact Option.some_ne_none up
        obtain rfl := hwf.nodes.name m hm n hn hmws (hmup.trans hup'.symm) hchild
          (hname.trans hname'.symm) hmactive hactive'
        exact hne (u.key_apply m).symm
  unfold Db.update_node
  rw [Db.node?, hnodes, show before.nodes.find? n.id = some n from Db.node?_of_mem hn]
  exact if_pos (Db.node_allowed_iff.mpr hallowed)

/-- A stored row changes in place. -/
theorem WellFormed.update_in_place_total {before : Db} (hwf : WellFormed before)
    (hnodes : db.nodes = before.nodes) (hworkspaces : db.workspaces = before.workspaces)
    (hgenerations : db.content_generations = before.content_generations) {n : NodeRow}
    (hn : n ∈ before.nodes) {u : Table.Update NodeRow.key}
    (hws : (u.apply n).workspace_id = n.workspace_id)
    (hcontent : (u.apply n).content_generation_id = n.content_generation_id)
    (hparent : (u.apply n).parent_id = n.parent_id) (hname : (u.apply n).name = n.name)
    (htrashed : (u.apply n).trashed_at_ms = none → n.trashed_at_ms = none) :
    db.update_node n.id u = .ok { db with nodes := before.nodes.modify n.id u } := by
  refine hwf.update_total hnodes hworkspaces hgenerations hn hws hcontent (fun up hup => ?_)
    (fun hactive up hup => Or.inr ⟨htrashed hactive, hparent.symm.trans hup, hname.symm⟩)
  obtain ⟨p, hp, hpid, _⟩ := hwf.nodes.parent n hn up (hparent.symm.trans hup)
  exact ⟨p, hp, hpid⟩

/-- All chunks of a generation are copied to one that is stored and has none. -/
theorem Db.insert_chunks_total (source : GenerationId) {target : GenerationId} {gen : GenerationRow}
    (hstored : db.generation? target = some gen)
    (hnone : ∀ i, db.content_chunks.find? (target, i) = none) (p : Nat → Bool) :
    ∃ db', db.insert_chunks source target p = .ok db' := by
  unfold Db.insert_chunks
  simp only [Table.contains_iff.mpr ⟨gen, hstored⟩, Bool.or_true, if_true]
  obtain ⟨chunks, hins⟩ := db.content_chunks.insertAll_total (content.copied_chunks db source target p) (by
    intro c hc
    obtain ⟨c', _, rfl⟩ := List.mem_map.mp hc
    exact hnone c'.chunk_index) (by
    rw [content.copied_chunks, List.map_map]
    refine List.Nodup.map_on (fun c hc d hd heq => ?_) (db.content_chunks.nodup.of_map.filter _)
    have hc' := (List.mem_filter.mp hc)
    have hd' := (List.mem_filter.mp hd)
    simp only [decide_eq_true_eq] at hc' hd'
    have hindex : c.chunk_index = d.chunk_index := congrArg Prod.snd heq
    exact db.content_chunks.eq_of_key_eq hc'.1 hd'.1 (Prod.ext (hc'.2.1.trans hd'.2.1.symm) hindex))
  rw [show db.content_chunks.insertAll
    ((db.content_chunks.rows.filter (fun c => c.generation_id = source ∧ p c.chunk_index)).map
    (fun c => { c with generation_id := target })) = some chunks from hins]
  exact ⟨_, rfl⟩

/-- The attributes of a node are copied to one that is stored and has none. -/
theorem Db.insert_attributes_total (source : NodeId) {target : NodeId} {n : NodeRow}
    (hstored : db.node? target = some n) (hnone : ∀ a ∈ db.attributes, a.node_id ≠ target) :
    ∃ db', db.insert_attributes source target = .ok db' := by
  unfold Db.insert_attributes
  simp only [Table.contains_iff.mpr ⟨n, hstored⟩, Bool.or_true, if_true]
  obtain ⟨attributes, hins⟩ := db.attributes.insertAll_total
    ((db.attributes.rows.filter (fun a => a.node_id = source)).map
      (fun a => { a with node_id := target })) (by
    intro a ha
    obtain ⟨a', _, rfl⟩ := List.mem_map.mp ha
    exact Table.find?_eq_none.mpr (fun b hb hkey => hnone b hb (congrArg Prod.fst hkey))) (by
    rw [List.map_map]
    refine List.Nodup.map_on (fun a ha b hb heq => ?_) (db.attributes.nodup.of_map.filter _)
    have ha' := List.mem_filter.mp ha
    have hb' := List.mem_filter.mp hb
    simp only [decide_eq_true_eq] at ha' hb'
    have hkey : a.key = b.key := congrArg Prod.snd heq
    exact db.attributes.eq_of_key_eq ha'.1 hb'.1 (Prod.ext (ha'.2.trans hb'.2.symm) hkey))
  rw [hins]
  exact ⟨_, rfl⟩

theorem Issued.later {tick : Nat} (h : Issued rt w) (htick : w.tick ≤ tick) :
    Issued rt ⟨w.db, tick⟩ :=
  ⟨fun n hn => (h.node n hn).mono (le_refl _) htick, fun g row hrow =>
    (h.generation g row hrow).mono (le_refl _) htick,
    fun t ht => (h.trash t ht).mono (le_refl _) htick⟩

/-- The next identifier is that of no node. -/
theorem Issued.node_fresh (h : Issued rt w) {n : NodeRow} (hn : n ∈ w.db.nodes) :
    n.id ≠ rt.newId w.tick := by
  rintro heq
  exact (h.node n hn).disjoint ⟨w.tick, le_refl _, Nat.lt_succ_self _, heq.symm⟩

/-- A record with the next identifier is inserted. -/
theorem Issued.insert_trash_total (h : Issued rt w) (hwf : WellFormed w.db) {n : NodeRow}
    (hn : n ∈ w.db.nodes) (up : NodeId) (name : Text) (now : Int) : ∃ records, w.db.insert_trash
      ⟨rt.newId w.tick, n.workspace_id, n.id, up, name, now⟩ = .ok { w.db with trash := records } := by
  obtain ⟨workspace, hworkspace⟩ := hwf.nodes.workspace n hn
  have hstored : w.db.workspaces.contains n.workspace_id && w.db.nodes.contains n.id :=
    Bool.and_eq_true_iff.mpr ⟨Table.contains_iff.mpr ⟨workspace, hworkspace⟩,
      Table.contains_iff.mpr ⟨n, Db.node?_of_mem hn⟩⟩
  unfold Db.insert_trash
  rw [if_pos hstored]
  cases hins : w.db.trash.insert ⟨rt.newId w.tick, n.workspace_id, n.id, up, name, now⟩ with
  | some records => exact ⟨records, rfl⟩
  | none =>
    obtain ⟨old, hold⟩ := Table.contains_iff.mp (Table.insert_eq_none.mp hins)
    have hid : old.id = rt.newId w.tick := Table.key_of_find? hold
    exact ((h.trash old (Table.mem_of_find? hold)).disjoint
      ⟨w.tick, le_refl _, Nat.lt_succ_self _, hid.symm⟩).elim

namespace mutate

/-- The content of a copied node is copied, in a workspace that exists. -/
theorem copy_content_total (hwf : WellFormed w.db) (hissued : Issued rt w)
    (hworkspace : ∃ row, w.db.workspace? ws = some row) (old : RawNode) :
    ∃ r, copy_content rt ws old w = .ok r := by
  by_cases hkind : old.kind = .File
  · cases hgeneration : old.content_generation_id with
    | none => exact ⟨_, congrFun (copy_content_nothing (fun _ => hgeneration)) w⟩
    | some source =>
    simp only [copy_content, hkind, hgeneration]
    obtain ⟨⟨g, w₁⟩, hcreate⟩ :=
      content.create_generation_iff.mpr ⟨hworkspace, hissued.generation_fresh⟩
    rw [Tx.bind_of_ok hcreate]
    obtain ⟨gens, rfl, hgens, rfl⟩ := content.create_generation_ok hcreate
    have hstored : Db.generation? { w.db with content_generations := gens }
      (rt.newId w.tick) = some _ :=
      (Db.generation?_insert hgens (rt.newId w.tick)).trans (if_pos rfl)
    obtain ⟨db', hcopy⟩ := Db.insert_chunks_total source hstored
      (hwf.contents.chunkless hissued.generation_fresh) (fun _ => true)
    simp only [content.finalize_generation, Tx.execute_bind_eq_ok]
    exact ⟨_, db', hcopy, _, rfl, rfl⟩
  · exact ⟨_, congrFun (copy_content_nothing (fun hfile => absurd hfile hkind)) w⟩

/-- A node is copied into a stored directory in which the name is free. -/
theorem copy_node_total {old : RawNode} {up : NodeId} {name : Text} (hwf : WellFormed w.db)
    (hissued : Issued rt w) (hold : IsStored w.db ws old) (hparent : IsDirectory w.db ws up)
    (hfree : w.db.Free ws up name) (now : Int) :
    ∃ r, copy_node rt ws now old up name w = .ok r := by
  obtain ⟨p, hp, rfl, _, hpws, _⟩ := hparent
  have hworkspace := hwf.nodes.workspace p hp
  rw [hpws] at hworkspace
  simp only [copy_node, Tx.new_id_bind]
  obtain ⟨⟨generation, w₁⟩, hcontent⟩ :=
    copy_content_total (w := ⟨w.db, w.tick + 1⟩) hwf (hissued.later (Nat.le_succ _)) hworkspace old
  rw [Tx.bind_of_ok hcontent]
  obtain ⟨_, hnodes, hattributes, _, hready⟩ := copy_content_effect (P := Policy.any) (o := none)
    (w := ⟨w.db, w.tick + 1⟩) hwf (fun hlaid => hlaid.elim) hold hcontent
  obtain ⟨_, _, hframed⟩ := copy_content_ok hcontent
  obtain ⟨nodes, hinsert⟩ := @WellFormed.insert_total w₁.db w.db hwf hnodes hframed.workspaces p
    (copiedRow (rt.newId w.tick) ws p.id name old generation now) hp hpws rfl (fun g hg => by
      obtain ⟨row, hrow, _⟩ := (hready g hg).2.2.stored
      exact ⟨row, hrow⟩) hfree (fun m hm => hissued.node_fresh hm)
  obtain ⟨nodes', hins, heq⟩ := Db.insert_node_ok hinsert
  obtain rfl : nodes = nodes' := congrArg Db.nodes heq
  have hstored : Db.node? { w₁.db with nodes } (rt.newId w.tick) = some _ :=
    (Table.find?_insert hins (rt.newId w.tick)).trans (if_pos rfl)
  obtain ⟨db', hcopied⟩ := Db.insert_attributes_total old.id hstored (fun a ha heq => by
      rw [hattributes] at ha
      obtain ⟨m, hm, hid⟩ := hwf.attributes a ha
      exact hissued.node_fresh hm (hid.trans heq))
  simp only [Tx.execute_bind_eq_ok]
  exact ⟨_, _, hinsert, db', hcopied, rfl⟩

/-- Names in one directory are unambiguous. -/
theorem fetch_children_names (ws : WorkspaceId) (hwf : NodesWellFormed db) (id : NodeId) :
    ((fetch_children db ws id).map RawNode.name).Nodup := by
  unfold fetch_children
  rw [((List.perm_insertionSort _ _).map RawNode.name).nodup_iff, List.map_map]
  refine List.Nodup.map_on (fun n hn m hm hname => ?_) (db.nodes.nodup.of_map.filter _)
  obtain ⟨hn, hn'⟩ := List.mem_filter.mp hn
  obtain ⟨hm, hm'⟩ := List.mem_filter.mp hm
  simp only [decide_eq_true_eq] at hn' hm'
  obtain ⟨hnws, hnup, hnactive⟩ := hn'
  obtain ⟨hmws, hmup, hmactive⟩ := hm'
  refine hwf.name n hn m hm (hnws.trans hmws.symm) (hnup.trans hmup.symm) ?_ hname hnactive hmactive
  rw [hnup]
  exact Option.some_ne_none id

/-- What the loop of `copy_subtree` still has to do can be done: each copy has a
place of its own, which is free. -/
structure Placeable (db : Db) (ws : WorkspaceId) (stack : List (RawNode × NodeId × Text)) :
    Prop where
  pending : Pending db ws stack
  free : ∀ item ∈ stack, db.Free ws item.2.1 item.2.2
  distinct : (stack.map Prod.snd).Nodup

/-- One round of the loop of `copy_subtree` can be done, and leaves one that can. -/
theorem copy_node_step {old : RawNode} {up : NodeId} {name : Text}
    {stack : List (RawNode × NodeId × Text)} (hwf : WellFormed w.db) (hissued : Issued rt w)
    (h : Placeable w.db ws ((old, up, name) :: stack)) (now : Int) :
    ∃ new_node w₁, copy_node rt ws now old up name w = .ok (new_node, w₁) ∧ WellFormed w₁.db ∧
    Issued rt w₁ ∧
      Placeable w₁.db ws (pushed w₁.db ws old new_node.id stack) := by
  obtain ⟨hold, hparent, hsegment⟩ := h.pending _ List.mem_cons_self
  have hdistinct := h.distinct
  rw [List.map_cons, List.nodup_cons] at hdistinct
  obtain ⟨⟨new_node, w₁⟩, hcopy⟩ :=
    copy_node_total hwf hissued hold hparent (h.free _ List.mem_cons_self) now
  obtain ⟨heffect, hsub, n, hn, hraw, hkind, hws, hopen⟩ :=
    copy_node_effect (P := Policy.any) (o := none) hwf
    (fun hlaid => hlaid.elim) hold hparent hsegment hcopy
  have hwf₁ := heffect.wellFormed hwf
  obtain ⟨generation, rfl, hins, _, _⟩ := copy_node_ok hcopy
  have hmem := fun m => Table.mem_insert (s := m) hins
  have hnew : (copiedRow (rt.newId w.tick) ws up name old generation now).parent_id = some up := rfl
  -- no node has the new one as its parent, since that was not stored before
  have hbarren : ∀ m ∈ w₁.db.nodes, m.parent_id ≠ some (rt.newId w.tick) := by
    intro m hm hup
    obtain hm | rfl := (hmem m).mp hm
    · obtain ⟨p, hp, hid, _⟩ := hwf.nodes.parent m hm _ hup
      exact hissued.node_fresh hp hid
    · obtain ⟨p, hp, hid, _⟩ := hparent
      exact hissued.node_fresh hp (hid.trans (Option.some.inj (hnew.symm.trans hup)))
  have hstack : ∀ item ∈ stack, item.2.1 ≠ rt.newId w.tick := by
    intro item hitem heq
    obtain ⟨_, ⟨p, hp, hid, _⟩, _⟩ := h.pending item (List.mem_cons_of_mem _ hitem)
    exact hissued.node_fresh hp (hid.trans heq)
  refine ⟨_, w₁, hcopy, hwf₁, heffect.issued hissued, fun item hitem => ?_, fun item hitem => ?_,
    ?_⟩
  · obtain ⟨hdir, child, hchild, rfl⟩ | hitem := mem_pushed.mp hitem
    · obtain ⟨m, hm, rfl, hmws, hmup, _⟩ := fetch_children_mem hchild
      refine ⟨⟨m, hm, rfl, hmws⟩, ⟨n, hn, by rw [← hraw], hkind.trans hdir, hws, hopen⟩, ?_⟩
      exact hwf₁.nodes.segment m hm (by simp [hmup])
    · exact (h.pending.mono hsub) item (List.mem_cons_of_mem _ hitem)
  · obtain ⟨_, child, _, rfl⟩ | hitem := mem_pushed.mp hitem
    · exact fun m hm _ hup => absurd hup (hbarren m hm)
    · intro m hm hmws hup hname
      obtain hm | rfl := (hmem m).mp hm
      · exact h.free item (List.mem_cons_of_mem _ hitem) m hm hmws hup hname
      · refine absurd (List.mem_map.mpr ⟨item, hitem, ?_⟩) hdistinct.1
        exact (Prod.ext (Option.some.inj (hnew.symm.trans hup)) hname).symm
  · unfold pushed
    rw [List.map_append, List.map_reverse, List.map_map]
    refine List.Nodup.append (List.nodup_reverse.mpr ?_) hdistinct.2
      (fun place hplace hplace' => ?_)
    · split
      · refine List.Nodup.map_on (fun a ha b hb heq => ?_)
          (fetch_children_names ws hwf₁.nodes old.id).of_map
        exact List.inj_on_of_nodup_map (fetch_children_names ws hwf₁.nodes old.id) ha hb
          (congrArg Prod.snd heq)
      · exact List.nodup_nil
    · obtain ⟨child, _, rfl⟩ := List.mem_map.mp (List.mem_reverse.mp hplace)
      obtain ⟨item, hitem, heq⟩ := List.mem_map.mp hplace'
      exact hstack item hitem (congrArg Prod.fst heq)

theorem foldlM_remove_generation_total (gens : List GenerationId) (db : Db)
    (h : ∀ g ∈ gens, db.Unreferenced g) :
    ∃ db', gens.foldlM (fun db g => db.remove_generation g) db = .ok db' := by
  induction gens generalizing db with
  | nil => exact ⟨db, rfl⟩
  | cons g rest ih =>
    have hremove : db.remove_generation g = .ok (db.drop g) := by
      unfold Db.remove_generation
      rw [if_neg]
      · rfl
      · intro hreferred
        obtain ⟨n, hn, hg⟩ := List.any_eq_true.mp (Bool.and_eq_true_iff.mp hreferred).2
        exact h g List.mem_cons_self n hn (of_decide_eq_true hg)
    obtain ⟨db', hrest⟩ := ih (db.drop g) (fun g' hg' => h g' (List.mem_cons_of_mem g hg'))
    exact ⟨db', by rw [List.foldlM_cons, hremove]; exact hrest⟩

/-- A subtree that does not contain its own root a second time is deleted. -/
theorem purge_subtree_total (hwf : WellFormed w.db) {id : NodeId}
    (hcyclic : cyclic w.db id = false) :
    purge_subtree id w = .ok ((), { w with db := w.db.purge id }) := by
  obtain ⟨db', hfold⟩ := foldlM_remove_generation_total (subtree_generations w.db id) (w.db.delete_node id) (by
    intro g hg n hn hng
    obtain ⟨m, hm, hbelow, hmg⟩ := Db.mem_subtree_generations.mp hg
    obtain ⟨hn, hnot⟩ := Db.mem_purge_nodes.mp (show n ∈ (w.db.purge id).nodes from hn)
    obtain rfl := hwf.contents.unshared n hn m hm g hng hmg
    exact hnot hbelow)
  have hpurged : purge_subtree id w = .ok ((), { w with db := db' }) := by
    simp only [purge_subtree, Tx.query_bind, hcyclic, Bool.false_eq_true, if_false,
      Tx.execute_bind_eq_ok, Tx.execute_eq_ok]
    exact ⟨_, rfl, _, hfold, rfl⟩
  rw [hpurged]
  obtain hdb := purge_subtree_ok hpurged
  rw [hdb]

end mutate

end fslite
