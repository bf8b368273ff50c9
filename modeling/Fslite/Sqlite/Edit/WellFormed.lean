import Fslite.Sqlite.Edit.Contents

namespace fslite

namespace TrashWellFormed

variable {db db' : Db}

/-- Records and trashed nodes keep corresponding when both disappear together
and the nodes that stay trashed keep their places. -/
theorem frame (h : TrashWellFormed db) (hsub : ∀ t ∈ db'.trash, t ∈ db.trash)
    (hkeep : ∀ t ∈ db'.trash, ∀ n ∈ db.nodes, n.id = t.node_id → n.workspace_id = t.workspace_id →
      n.trashed_at_ms ≠ none → n ∈ db'.nodes)
    (hback : ∀ m ∈ db'.nodes, m.trashed_at_ms ≠ none →
      m ∈ db.nodes ∧ ∀ t ∈ db.trash, t.node_id = m.id → t.workspace_id = m.workspace_id →
        t ∈ db'.trash) :
    TrashWellFormed db' := by
  refine ⟨?_, ?_, ?_⟩
  · intro t ht
    obtain ⟨n, hn, hid, hws, htrashed, hplace⟩ := h.record t (hsub t ht)
    exact ⟨n, hkeep t ht n hn hid hws htrashed, hid, hws, htrashed, hplace⟩
  · exact fun t ht u hu => h.unique t (hsub t ht) u (hsub u hu)
  · intro m hm htrashed
    obtain ⟨hold, hrecords⟩ := hback m hm htrashed
    obtain ⟨t, ht, hid⟩ := h.recorded m hold htrashed
    obtain ⟨n, hn, hnid, hnws, _⟩ := h.record t ht
    have hnm := db.node_ext hn hold (hnid.trans hid)
    exact ⟨t, hrecords t ht hid (hnm ▸ hnws.symm), hid⟩

/-- Changing an untrashed node into an untrashed one concerns no record. -/
theorem modify_active (h : TrashWellFormed db) {n : NodeRow} (hn : n ∈ db.nodes)
    (hactive : n.trashed_at_ms = none) {u : Table.Update NodeRow.key}
    (hstays : (u.apply n).trashed_at_ms = none) (hnodes : db'.nodes = db.nodes.modify n.id u)
    (htrash : db'.trash = db.trash) : TrashWellFormed db' := by
  apply h.frame
  · rw [htrash]
    exact fun t ht => ht
  · intro t _ m hm _ _ htrashed
    rw [hnodes, Db.mem_modify_nodes hn]
    refine Or.inr ⟨hm, fun hid => ?_⟩
    rw [db.node_ext hm hn hid] at htrashed
    exact htrashed hactive
  · intro m hm htrashed
    rw [hnodes, Db.mem_modify_nodes hn] at hm
    obtain rfl | ⟨hm, _⟩ := hm
    · exact absurd hstays htrashed
    · exact ⟨hm, fun t ht _ _ => by rw [htrash]; exact ht⟩

/-- A new untrashed node concerns no record. -/
theorem insert_active (h : TrashWellFormed db) {n : NodeRow} (hactive : n.trashed_at_ms = none)
    {nodes : Table NodeRow.key} (hins : db.nodes.insert n = some nodes)
    (hnodes : db'.nodes = nodes) (htrash : db'.trash = db.trash) : TrashWellFormed db' := by
  apply h.frame
  · rw [htrash]
    exact fun t ht => ht
  · intro t _ m hm _ _ _
    rw [hnodes, Table.mem_insert hins]
    exact Or.inl hm
  · intro m hm htrashed
    rw [hnodes, Table.mem_insert hins] at hm
    obtain hm | rfl := hm
    · exact ⟨hm, fun t ht _ _ => by rw [htrash]; exact ht⟩
    · exact absurd hactive htrashed

theorem clear (h : TrashWellFormed db) (ws : WorkspaceId) : TrashWellFormed (db.clear ws) := by
  apply h.frame
  · exact fun t ht => (Table.mem_deleteWhere.mp ht).1
  · intro t ht n hn _ hnws _
    rw [Db.mem_clear_nodes, hnws]
    exact ⟨hn, by simpa using (Table.mem_deleteWhere.mp ht).2⟩
  · intro m hm _
    rw [Db.mem_clear_nodes] at hm
    refine ⟨hm.1, fun t ht _ htws => Table.mem_deleteWhere.mpr ⟨ht, ?_⟩⟩
    rw [htws]
    simpa using hm.2

end TrashWellFormed

namespace Edit

variable {P : Policy} {fresh : Uuid → Prop} {mine : GenerationId → Prop} {db db' : Db}

theorem nodesWellFormed (h : Edit P fresh mine db db') (hwf : WellFormed db) :
    NodesWellFormed db' := by
  have hnodes := hwf.nodes
  cases h with
  | append ws now c row hrow hws hseq hreadable hins =>
    exact (hnodes.bump_sequence hrow now).frame rfl (fun _ => Iff.rfl)
  | generation => exact hnodes.frame rfl (fun _ => Iff.rfl)
  | chunks => exact hnodes.frame rfl (fun _ => Iff.rfl)
  | complete => exact hnodes.frame rfl (fun _ => Iff.rfl)
  | drop => exact hnodes.frame rfl (fun _ => Iff.rfl)
  | insert n p hfresh hp hdir hopen hup hws hsegment hfree hactive hrevision hfile hcontent hins =>
    exact hnodes.insert hp hdir hup hws hsegment hfree (by omega) hins
  | attributes => exact hnodes.frame rfl (fun _ => Iff.rfl)
  | revise n hlive u hrow as hother =>
    refine (hnodes.modify_in_place (u := u) hlive.mem ?_ ?_ ?_ ?_ ?_ ?_ ?_).frame rfl
      (fun _ => Iff.rfl)
    all_goals rw [hrow]
    · exact fun _ => hlive.active
    · exact fun hact => hact
    · exact Nat.succ_pos _
  | replace n hlive g hmine length hready old hold now =>
    refine (hnodes.modify_in_place
      (u := content.replaced g length (n.revision + 1) now) hlive.mem rfl rfl rfl rfl
      (fun _ => hlive.active) (fun hact => hact) (Nat.succ_pos _)).frame rfl (fun _ => Iff.rfl)
  | relocate n p hlive hroot hp hdir name hsegment hfree hpolicy now =>
    refine hnodes.modify (u :=
      mutate.moved p.id name (n.revision + 1) now) hlive.mem rfl rfl ?_ ?_ ?_ ?_ ?_ ?_
    · exact ⟨fun hnone => absurd hnone hroot, fun hnone => by cases hnone⟩
    · exact fun _ => hlive.active
    · rintro up ⟨⟩
      exact ⟨p, hp.mem, rfl, hp.workspace, hdir⟩
    · rintro up ⟨⟩ _ m hm _ hmws hmup hmname
      exact hfree m hm hmws hmup hmname
    · exact fun _ => hsegment
    · exact Nat.succ_pos _
  | purge n hn hroot hkind hpolicy =>
    refine (hnodes.prune (p := fun m => db.cascades n.id m.id) ?_ ?_).frame rfl (fun _ => Iff.rfl)
    · intro m hm q hq hup hgone
      rw [Db.cascades_iff] at hgone ⊢
      exact (Db.below_of_mem hm hup).mpr (Or.inr hgone)
    · intro m hm hmroot
      rw [← Bool.not_eq_true, Db.cascades_iff, Db.below_of_root hm hmroot]
      intro hid
      rw [db.node_ext hm hn hid] at hmroot
      exact hroot hmroot
  | trash n hlive t hfresh hnode hws hup hname hpolicy hins now =>
    refine (hnodes.modify_in_place
      (u := trash.trashed now) hlive.mem rfl rfl rfl rfl ?_ ?_ ?_).frame rfl
      (fun _ => Iff.rfl)
    · intro hroot
      rw [hup] at hroot
      cases hroot
    · intro hact
      cases hact
    · exact hnodes.revision n hlive.mem
  | restore n p hn t ht hnode hp hdir hws hactive hplace name hsegment hfree hpolicy now =>
    refine (hnodes.modify (u :=
      trash.restored p.id name (n.revision + 1) now) hn rfl rfl ?_ ?_ ?_ ?_ ?_ ?_).frame rfl
      (fun _ => Iff.rfl)
    · obtain ⟨m, hm, hmid, _, _, hmup, _⟩ := hwf.trash.record t ht
      rw [db.node_ext hm hn (hmid.trans hnode)] at hmup
      exact ⟨fun hnone => by simp [hmup] at hnone, fun hnone => by cases hnone⟩
    · exact fun _ => rfl
    · rintro up ⟨⟩
      exact ⟨p, hp, rfl, hws, hdir⟩
    · rintro up ⟨⟩ _ m hm _ hmws hmup hmname
      exact hfree m hm hmws hmup hmname
    · exact fun _ => hsegment
    · exact Nat.succ_pos _
  | enter row root hroot hid hseq now hws hins => exact hnodes.enter hws hins
  | reset ws row hrow hpolicy root hroot now hins => exact hnodes.reset hrow hins
  | erase ws hpolicy => exact hnodes.erase ws

theorem trashWellFormed (h : Edit P fresh mine db db') (hwf : WellFormed db) :
    TrashWellFormed db' := by
  have htrash := hwf.trash
  have hsame : ∀ {db' : Db}, db'.nodes = db.nodes → db'.trash = db.trash → TrashWellFormed db' := by
    intro db' hnodes hrecords
    refine htrash.frame ?_ ?_ ?_ <;> simp only [hnodes, hrecords]
    · exact fun t ht => ht
    · exact fun _ _ n hn _ _ _ => hn
    · exact fun m hm _ => ⟨hm, fun t ht _ _ => ht⟩
  cases h with
  | append => exact hsame rfl rfl
  | generation => exact hsame rfl rfl
  | chunks => exact hsame rfl rfl
  | complete => exact hsame rfl rfl
  | drop => exact hsame rfl rfl
  | insert n p hfresh hp hdir hopen hup hws hsegment hfree hactive hrevision hfile hcontent hins =>
    exact htrash.insert_active hactive hins rfl rfl
  | attributes => exact hsame rfl rfl
  | revise n hlive u hrow as hother =>
    exact htrash.modify_active hlive.mem hlive.active (by rw [hrow]; exact hlive.active) rfl rfl
  | replace n hlive => exact htrash.modify_active hlive.mem hlive.active hlive.active rfl rfl
  | relocate n p hlive => exact htrash.modify_active hlive.mem hlive.active hlive.active rfl rfl
  | purge n hn hroot hkind hpolicy =>
    have hgone : ∀ t : TrashRow, t ∈ (db.purge n.id).trash ↔ t ∈ db.trash ∧
        ¬ Below db.parent t.node_id n.id := by
      intro t
      rw [show t ∈ (db.purge n.id).trash ↔ _ from Table.mem_deleteWhere, ← Bool.not_eq_true,
        Db.cascades_iff]
    refine htrash.frame (fun t ht => ((hgone t).mp ht).1) ?_ ?_
    · intro t ht m hm hid _ _
      rw [Db.mem_purge_nodes, hid]
      exact ⟨hm, ((hgone t).mp ht).2⟩
    · intro m hm _
      rw [Db.mem_purge_nodes] at hm
      exact ⟨hm.1, fun t ht hid _ => (hgone t).mpr ⟨ht, hid ▸ hm.2⟩⟩
  | trash n hlive t hfresh hnode hws hup hname hpolicy hins now =>
    have hmem : ∀ u : TrashRow, u ∈ _ ↔ u ∈ db.trash ∨ u = t := fun u => Table.mem_insert hins
    have hnot : ∀ u ∈ db.trash, u.node_id ≠ n.id := by
      intro u hu huid
      obtain ⟨m, hm, hmid, _, htrashed, _⟩ := htrash.record u hu
      rw [db.node_ext hm hlive.mem (hmid.trans huid)] at htrashed
      exact htrashed hlive.active
    refine ⟨?_, ?_, ?_⟩
    · intro u hu
      obtain hu | rfl := (hmem u).mp hu
      · obtain ⟨m, hm, hmid, hrest⟩ := htrash.record u hu
        exact ⟨m, (Db.mem_modify_nodes hlive.mem).mpr (Or.inr ⟨hm, hmid ▸ hnot u hu⟩), hmid, hrest⟩
      · refine ⟨(trash.trashed now).apply n, (Db.mem_modify_nodes hlive.mem).mpr (Or.inl rfl),
          hnode.symm, hws.symm,
          (fun hnone => by cases hnone), hup, hname.symm⟩
    · intro u hu v hv huv
      obtain hu | rfl := (hmem u).mp hu
      · obtain hv | rfl := (hmem v).mp hv
        · exact htrash.unique u hu v hv huv
        · exact absurd (huv.trans hnode) (hnot u hu)
      · obtain hv | rfl := (hmem v).mp hv
        · exact absurd (huv.symm.trans hnode) (hnot v hv)
        · rfl
    · intro m hm htrashed
      obtain rfl | ⟨hm, _⟩ := (Db.mem_modify_nodes hlive.mem).mp hm
      · exact ⟨t, (hmem t).mpr (Or.inr rfl), hnode⟩
      · obtain ⟨u, hu, huid⟩ := htrash.recorded m hm htrashed
        exact ⟨u, (hmem u).mpr (Or.inl hu), huid⟩
  | restore n p hn t ht hnode hp hdir hws hactive hplace name hsegment hfree hpolicy now =>
    have hgone : ∀ u : TrashRow, u ∈ (db.remove_trash t.id).trash ↔ u ∈ db.trash ∧ u.id ≠ t.id := by
      intro u
      rw [show u ∈ (db.remove_trash t.id).trash ↔ _ from Table.mem_deleteWhere,
        decide_eq_false_iff_not]
    refine htrash.frame (fun u hu => ((hgone u).mp hu).1) ?_ ?_
    · intro u hu m hm hid _ _
      refine (Db.mem_modify_nodes hn).mpr (Or.inr ⟨hm, fun hmn => ?_⟩)
      obtain ⟨hu, hne⟩ := (hgone u).mp hu
      exact hne (congrArg TrashRow.id
        (htrash.unique u hu t ht (hid.symm.trans (hmn.trans hnode.symm))))
    · intro m hm htrashed
      obtain rfl | ⟨hm, hne⟩ := (Db.mem_modify_nodes hn).mp hm
      · exact absurd rfl htrashed
      · refine ⟨hm, fun u hu huid _ => (hgone u).mpr ⟨hu, fun hsame => ?_⟩⟩
        rw [Table.eq_of_key_eq hu ht hsame, hnode] at huid
        exact hne huid.symm
  | enter row root hroot hid hseq now hws hins => exact htrash.insert_active rfl hins rfl rfl
  | reset ws row hrow hpolicy root hroot now hins =>
    exact (htrash.clear ws).insert_active rfl hins rfl rfl
  | erase ws hpolicy =>
    refine (htrash.clear ws).frame (fun t ht => ht) (fun _ _ n hn _ _ _ => hn)
      (fun m hm _ => ⟨hm, fun t ht _ _ => ht⟩)

theorem attributes_stored (h : Edit P fresh mine db db') (hwf : WellFormed db) :
    ∀ a ∈ db'.attributes, ∃ n ∈ db'.nodes, n.id = a.node_id := by
  have hattributes := hwf.attributes
  have hmodify : ∀ {n : NodeRow} {u : Table.Update NodeRow.key}, n ∈ db.nodes → ∀ id,
    (∃ m ∈ db.nodes, m.id = id) →
      ∃ m ∈ db.nodes.modify n.id u, m.id = id := by
    rintro n u hn id ⟨m, hm, rfl⟩
    by_cases hid : m.id = n.id
    · exact ⟨u.apply n, (Db.mem_modify_nodes hn).mpr (Or.inl rfl), (u.key_apply n).trans hid.symm⟩
    · exact ⟨m, (Db.mem_modify_nodes hn).mpr (Or.inr ⟨hm, hid⟩), rfl⟩
  have hclear : ∀ ws, ∀ a ∈ (db.clear ws).attributes, ∃ n ∈ (db.clear ws).nodes,
      n.id = a.node_id := by
    intro ws a ha
    obtain ⟨ha, hkept⟩ := Table.mem_deleteWhere.mp ha
    obtain ⟨n, hn, hid⟩ := hattributes a ha
    refine ⟨n, Db.mem_clear_nodes.mpr ⟨hn, ?_⟩, hid⟩
    rw [← hid, Db.node?_of_mem hn] at hkept
    simpa using hkept
  cases h with
  | append => exact hattributes
  | generation => exact hattributes
  | chunks => exact hattributes
  | complete => exact hattributes
  | drop => exact hattributes
  | insert n p hfresh hp hdir hopen hup hws hsegment hfree hactive hrevision hfile hcontent hins =>
    intro a ha
    obtain ⟨m, hm, hid⟩ := hattributes a ha
    exact ⟨m, (Table.mem_insert hins).mpr (Or.inl hm), hid⟩
  | attributes n hn hfresh as hother =>
    intro a ha
    by_cases hid : a.node_id = n.id
    · exact ⟨n, hn, hid.symm⟩
    · exact hattributes a (Table.mem_of_find? ((hother a.pair hid).symm.trans (Table.find?_key ha)))
  | revise n hlive u hrow as hother =>
    intro a ha
    apply hmodify hlive.mem
    by_cases hid : a.node_id = n.id
    · exact ⟨n, hlive.mem, hid.symm⟩
    · exact hattributes a (Table.mem_of_find? ((hother a.pair hid).symm.trans (Table.find?_key ha)))
  | replace n hlive => exact fun a ha => hmodify hlive.mem _ (hattributes a ha)
  | relocate n p hlive => exact fun a ha => hmodify hlive.mem _ (hattributes a ha)
  | purge n hn hroot hkind hpolicy =>
    intro a ha
    obtain ⟨ha, hkept⟩ := Table.mem_deleteWhere.mp ha
    obtain ⟨m, hm, hid⟩ := hattributes a ha
    refine ⟨m, Db.mem_purge_nodes.mpr ⟨hm, ?_⟩, hid⟩
    rw [← Bool.not_eq_true, Db.cascades_iff] at hkept
    exact hid ▸ hkept
  | trash n hlive => exact fun a ha => hmodify hlive.mem _ (hattributes a ha)
  | restore n p hn => exact fun a ha => hmodify hn _ (hattributes a ha)
  | enter row root hroot hid hseq now hws hins =>
    intro a ha
    obtain ⟨m, hm, hid⟩ := hattributes a ha
    exact ⟨m, (Table.mem_insert hins).mpr (Or.inl hm), hid⟩
  | reset ws row hrow hpolicy root hroot now hins =>
    intro a ha
    obtain ⟨m, hm, hid⟩ := hclear ws a ha
    exact ⟨m, (Table.mem_insert hins).mpr (Or.inl hm), hid⟩
  | erase ws hpolicy => exact hclear ws

theorem changes_numbered (h : Edit P fresh mine db db') (hwf : WellFormed db) :
    ∀ c ∈ db'.changes, ∃ w, db'.workspace? c.workspace_id = some w ∧ c.sequence ≤ w.change_seq := by
  have hchanges := hwf.changes
  cases h with
  | append ws now c row hrow hws hseq hreadable hins =>
    intro d hd
    show ∃ w, (db.bump_sequence ws now).workspace? d.workspace_id = some w ∧ _
    rw [Db.workspace?_bump_sequence, hrow]
    obtain hd | rfl := (Table.mem_insert hins).mp hd
    · obtain ⟨w, hw, hle⟩ := hchanges d hd
      by_cases hid : d.workspace_id = ws
      · rw [hid, hrow, Option.some.injEq] at hw
        subst hw
        exact ⟨_, if_pos hid, Nat.le_succ_of_le hle⟩
      · exact ⟨w, (if_neg hid).trans hw, hle⟩
    · exact ⟨_, if_pos hws, hseq.le⟩
  | generation => exact hchanges
  | chunks => exact hchanges
  | complete => exact hchanges
  | drop => exact hchanges
  | insert => exact hchanges
  | attributes => exact hchanges
  | revise => exact hchanges
  | replace => exact hchanges
  | relocate => exact hchanges
  | purge => exact hchanges
  | trash => exact hchanges
  | restore => exact hchanges
  | enter row root hroot hid hseq now hws hins =>
    intro c hc
    obtain ⟨w, hw, hle⟩ := hchanges c hc
    refine ⟨w, (Table.find?_insert hws _).trans ?_, hle⟩
    rw [if_neg ?_]
    · exact hw
    · intro hid
      have hnone := (Table.insert_eq_some.mp hws).1
      rw [hid, show db.workspaces.find? c.workspace_id = some w from hw] at hnone
      cases hnone
  | reset ws row hrow hpolicy root hroot now hins =>
    intro c hc
    obtain ⟨hc, hne⟩ := Table.mem_deleteWhere.mp hc
    obtain ⟨w, hw, hle⟩ := hchanges c hc
    refine ⟨w, ?_, hle⟩
    show ((db.clear ws).reset_sequence ws now).workspace? _ = _
    rw [Db.workspace?_reset_sequence, if_neg (by simpa using hne)]
    exact hw
  | erase ws hpolicy =>
    intro c hc
    obtain ⟨hc, hne⟩ := Table.mem_deleteWhere.mp hc
    obtain ⟨w, hw, hle⟩ := hchanges c hc
    refine ⟨w, (Table.find?_deleteWhere _ _ _).trans ?_, hle⟩
    rw [show db.workspaces.find? c.workspace_id = some w from hw]
    have hid : w.id = c.workspace_id := Table.key_of_find? hw
    simpa [Option.filter, hid] using hne

/-- Every change keeps the store well-formed. -/
theorem wellFormed (h : Edit P fresh mine db db') (hwf : WellFormed db)
    (hfresh : ∀ id, fresh id → mine id) :
    WellFormed db' where
  nodes := h.nodesWellFormed hwf
  contents := h.contentsWellFormed hwf hfresh
  trash := h.trashWellFormed hwf
  attributes := h.attributes_stored hwf
  changes := h.changes_numbered hwf

end Edit

namespace Edits

variable {P : Policy} {fresh : Uuid → Prop} {mine : GenerationId → Prop} {db db' : Db}

/-- Whatever every change of a well-formed store keeps, a sequence of changes keeps. -/
theorem preserve (h : Edits P fresh mine db db') (hfresh : ∀ id, fresh id → mine id)
    (hwf : WellFormed db) {I : Db → Prop}
    (hstep : ∀ {a b}, Edit P fresh mine a b → WellFormed a → I a → I b) (hI : I db) :
    WellFormed db' ∧ I db' := by
  induction h with
  | refl => exact ⟨hwf, hI⟩
  | tail _ hedit ih => exact ⟨hedit.wellFormed ih.1 hfresh, hstep hedit ih.1 ih.2⟩

theorem wellFormed (h : Edits P fresh mine db db') (hfresh : ∀ id, fresh id → mine id)
    (hwf : WellFormed db) :
    WellFormed db' :=
  (h.preserve hfresh hwf (I := fun _ => True) (fun _ _ _ => trivial) trivial).1

end Edits

end fslite
