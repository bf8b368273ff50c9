import Fslite.Sqlite.Refine.Move

namespace fslite

open resolve trash

namespace InTrash

variable {db db' : Db} {ws : WorkspaceId} {t : TrashRow} {n s top : NodeRow}

/-- A row may leave the trash for another place: what else is in the trash stays as it is. -/
theorem same_of_trashed (h : InTrash db ws t top) (htrashed : n.trashed_at_ms ≠ none)
    (hne : top.id ≠ n.id) (hid : s.id = n.id)
    (hmem : ∀ m, m ∈ db'.nodes ↔ m = s ∨ m ∈ db.nodes ∧ m.id ≠ n.id) (hn : n ∈ db.nodes)
    (hparent : ∀ q m, Under db top q m → s.parent_id ≠ some m.id) (hentry : db'.entry = db.entry) :
    SameUnder db db' top := by
  have hother : ∀ q m, Under db top q m → m.id ≠ n.id := by
    intro q m hm heq
    obtain rfl := db.node_ext hm.mem hn heq
    by_cases hq : q = []
    · subst hq
      obtain ⟨rfl, _⟩ := Under.nil_iff.mp hm
      exact hne rfl
    · exact htrashed (hm.active hq)
  exact ⟨(hmem top).mpr (Or.inr ⟨h.mem, hne⟩),
    fun q m => Under.aside_iff hne hmem hid hother (fun _ => hparent),
    fun q m _ => by rw [hentry]⟩

end InTrash

namespace Db

variable {db db' : Db} {ws : WorkspaceId} {r n s : NodeRow} {place : List Text}

/-- When a live row goes to the trash, its place is removed. -/
theorem file_tree_trash (hwf : NodesWellFormed db) (hwf' : NodesWellFormed db')
    (hr : IsRoot db ws r) (h : Under db r place n) (hup : n.parent_id ≠ none) (hid : s.id = n.id)
    (hmem : ∀ m, m ∈ db'.nodes ↔ m = s ∨ m ∈ db.nodes ∧ m.id ≠ n.id)
    (hself : ∀ rest m, rest ≠ [] → Under db n rest m → m.id ≠ n.id)
    (htrashed : s.trashed_at_ms ≠ none) (hentry : db'.entry = db.entry) :
    db'.file_tree ws = (db.file_tree ws).remove place := by
  have hroot := hr.live hwf
  have hclear := hr.not_below hup h.mem
  have hr' : IsRoot db' ws r :=
    ⟨(hmem r).mpr (Or.inr ⟨hr.mem, fun heq => hclear (heq ▸ Below.refl _ _)⟩), hr.workspace, hr.root⟩
  refine Hierarchy.ext_some (fun q e => ?_)
  rw [Hierarchy.lookup_remove_eq_some, file_tree_eq_some hwf' hr', file_tree_eq_some hwf hr, hentry]
  simp only [Under.rehang_iff h.mem hid hmem hself hclear, htrashed, false_and, or_false]
  constructor
  · rintro ⟨m, ⟨hm, hnot⟩, he⟩
    exact ⟨mt (h.prefix_iff_below hwf hroot hm).mp hnot, m, hm, he⟩
  · rintro ⟨hnot, m, hm, he⟩
    exact ⟨m, ⟨hm, mt (h.prefix_iff_below hwf hroot hm).mpr hnot⟩, he⟩

/-- What goes to the trash keeps its branch. -/
theorem branch_trash (hwf : NodesWellFormed db) (hwf' : NodesWellFormed db') (hn : n ∈ db.nodes)
    (hws : n.workspace_id = ws) (hraw : s.toRawNode = n.toRawNode)
    (hmem : ∀ m, m ∈ db'.nodes ↔ m = s ∨ m ∈ db.nodes ∧ m.id ≠ n.id)
    (hself : ∀ rest m, rest ≠ [] → Under db n rest m → m.id ≠ n.id)
    (htrashed : s.trashed_at_ms ≠ none) (hentry : db'.entry = db.entry) :
    db'.branch ws s.toRawNode = db.branch ws n.toRawNode := by
  have hid : s.id = n.id := congrArg RawNode.id hraw
  have hsws : s.workspace_id = ws := (congrArg RawNode.workspace_id hraw).trans hws
  refine Hierarchy.ext_some (fun q e => ?_)
  rw [branch_eq_some hwf' ((hmem s).mpr (Or.inl rfl)) hsws, branch_eq_some hwf hn hws, hentry]
  simp only [Under.trashed_iff hn hid hmem hself htrashed]
  constructor
  · rintro ⟨m, ⟨rfl, rfl⟩ | ⟨_, hm⟩, rfl⟩
    · exact ⟨n, .here hn, by rw [hraw]⟩
    · exact ⟨m, hm, rfl⟩
  · rintro ⟨m, hm, rfl⟩
    by_cases hq : q = []
    · subst hq
      obtain ⟨rfl, _⟩ := Under.nil_iff.mp hm
      exact ⟨s, Or.inl ⟨rfl, rfl⟩, by rw [hraw]⟩
    · exact ⟨m, Or.inr ⟨hq, hm⟩, rfl⟩

end Db

namespace BroughtBack

variable {db db' : Db} {ws : WorkspaceId} {record t : TrashRow} {destination : Option VirtualPath}
  {n p r top : NodeRow} {name : Text} {now : Int} {place q : List Text} {trash_id : TrashId}

theorem entry (h : BroughtBack db db' ws record destination n p name now) : db'.entry = db.entry :=
  Db.entry_eq h.attributes h.content_chunks

theorem mem_trash (h : BroughtBack db db' ws record destination n p name now) :
    t ∈ db'.trash ↔ t ∈ db.trash ∧ t ≠ record := by
  rw [h.trash]
  exact Db.mem_remove_trash h.recorded

/-- Under a node, the one that is brought back is to be found only at the top. -/
theorem not_under (h : BroughtBack db db' ws record destination n p name now) (hne : q ≠ []) :
    ¬ Under db top q n :=
  fun hn => h.trashed (hn.active hne)

theorem bin_self (h : BroughtBack db db' ws record destination n p name now)
    (hwf' : WellFormed db') : db'.bin ws record.id = none := by
  refine (Db.bin_eq_none hwf').mpr (fun t ht _ hid => ?_)
  obtain ⟨ht, hne⟩ := h.mem_trash.mp ht
  exact hne (Table.eq_of_key_eq ht h.recorded hid)

/-- The records stay, apart from those of a branch that the directory is in. -/
theorem bin_of_ne (h : BroughtBack db db' ws record destination n p name now)
    (hwf : WellFormed db) (hwf' : WellFormed db') (hne : trash_id ≠ record.id)
    (hnot : ∀ t top q, InTrash db ws t top → t.id = trash_id → ¬ Under db top q p) :
    db'.bin ws trash_id = db.bin ws trash_id := by
  refine Db.bin_congr hwf hwf' (fun t _ ht => ?_) (fun t top htop ht => ?_)
  · rw [h.mem_trash]
    refine and_iff_left ?_
    rintro rfl
    exact hne ht.symm
  · refine htop.same_of_trashed (s := (restored p.id name (n.revision + 1) now).apply n) h.trashed
      ?_ rfl (fun m => h.mem) h.stored ?_ h.entry
    · -- no two records are about one node
      intro hid
      refine hne (ht.symm.trans (congrArg TrashRow.id ?_))
      exact hwf.trash.unique t htop.record record h.recorded
        (htop.node.symm.trans (hid.trans h.node))
    · intro q m hm hup
      obtain rfl := db.node_ext h.parent hm.mem (Option.some.inj hup)
      exact hnot t top q htop ht hm

/-- The branch that the directory is in gets the branch of the node. -/
theorem branch (h : BroughtBack db db' ws record destination n p name now) (hwf : WellFormed db)
    (hwf' : WellFormed db') (htop : top ∈ db.nodes) (hws : top.workspace_id = ws)
    (hunique : ∀ {q q' m}, Under db top q m → Under db top q' m → q = q')
    (hclear : ¬ Below db.parent top.id n.id)
    (houtside : ∀ q m, Under db top q m → ¬ Below db.parent m.id n.id) (hp : Under db top place p)
    (hfree : fetch_child db ws p.id name = none) :
    db'.branch ws top.toRawNode = (db.branch ws top.toRawNode).graft
      ((db.branch ws n.toRawNode).update [] (Entry.revised now)) place name := by
  have hself : ∀ rest m, rest ≠ [] → Under db n rest m → m.id ≠ n.id := by
    intro rest m hne hm hid
    obtain rfl := db.node_ext hm.mem h.stored hid
    exact h.not_under hne hm
  refine Db.branch_rehang (s := (restored p.id name (n.revision + 1) now).apply n) hwf.nodes
    hwf'.nodes htop hws hunique h.stored h.workspace rfl (fun m => h.mem) hself hclear hp rfl rfl ?_
    (fun m _ _ => by rw [h.entry]) (f := Entry.revised now) (by rw [h.entry]; rfl) (fun q e => ?_)
  · intro m hm hmws hup hname hactive
    exact absurd hactive (fetch_child_eq_none hfree m hm hmws hup hname)
  · rw [Db.branch_eq_some hwf.nodes htop hws]
    refine exists_congr (fun m => and_congr_left (fun _ => ?_))
    exact (and_iff_left_of_imp (houtside q m)).symm

/-- A node that comes back to a live directory is grafted into the tree. -/
theorem volume_eq (h : BroughtBack db db' ws record destination n p name now) (hwf : WellFormed db)
    (hwf' : WellFormed db') (hr : IsRoot db ws r) (hp : Under db r place p)
    (hfree : fetch_child db ws p.id name = none) : db'.volume ws =
      ⟨(db.file_tree ws).graft ((db.branch ws n.toRawNode).update [] (Entry.revised now)) place name,
        Function.update (db.bin ws) record.id none⟩ := by
  have hroot := hr.live hwf.nodes
  have hlive := hp.live hwf.nodes hroot
  have houtside : ∀ q m, Under db r q m → ¬ Below db.parent m.id n.id :=
    fun _ _ hm => hr.outside_trash hwf.nodes h.stored h.trashed hm
  have hr' : IsRoot db' ws r := ⟨h.keeps hr.mem hroot.active, hr.workspace, hr.root⟩
  unfold Db.volume
  congr 1
  · rw [Db.file_tree_eq_branch hwf'.nodes hr', Db.file_tree_eq_branch hwf.nodes hr]
    exact h.branch hwf hwf' hr.mem hr.workspace (fun hm hm' => hm.place_unique hroot hm')
      (houtside [] r (.here hr.mem)) houtside hp hfree
  · funext trash_id
    by_cases hid : trash_id = record.id
    · subst hid
      rw [Function.update_self, h.bin_self hwf']
    · rw [Function.update_of_ne hid]
      exact h.bin_of_ne hwf hwf' hid (fun t top q htop _ hm => htop.not_live hwf hm hlive)

/-- A node that comes back to a directory in the trash is not seen in the tree. -/
theorem file_tree_eq (h : BroughtBack db db' ws record destination n p name now)
    (hwf : WellFormed db) (hwf' : WellFormed db') (hr : IsRoot db ws r) (hnot : ¬ Live db ws p) :
    db'.file_tree ws = db.file_tree ws := by
  have hroot := hr.live hwf.nodes
  have hr' : IsRoot db' ws r := ⟨h.keeps hr.mem hroot.active, hr.workspace, hr.root⟩
  have hother : ∀ q m, Under db r q m → m.id ≠ n.id := by
    intro q m hm hid
    obtain rfl := db.node_ext hm.mem h.stored hid
    exact h.trashed (hm.live hwf.nodes hroot).active
  refine Hierarchy.ext_some (fun q e => ?_)
  rw [Db.file_tree_eq_some hwf'.nodes hr', Db.file_tree_eq_some hwf.nodes hr, h.entry]
  refine exists_congr (fun m => and_congr_left (fun _ => ?_))
  refine Under.aside_iff (s := (restored p.id name (n.revision + 1) now).apply n)
    (hother [] r (.here hr.mem)) (fun m => h.mem) rfl hother (fun _ q m hm hup => ?_)
  obtain rfl := db.node_ext h.parent hm.mem (Option.some.inj hup)
  exact hnot (hm.live hwf.nodes hroot)

/-- It is grafted into what is in the trash with the directory. -/
theorem bin_outer (h : BroughtBack db db' ws record destination n p name now) (hwf : WellFormed db)
    (hwf' : WellFormed db') (htop : InTrash db ws t top) (hne : top.id ≠ n.id)
    (hclear : ¬ Below db.parent top.id n.id) (hp : Under db top place p)
    (hfree : fetch_child db ws p.id name = none) : db'.bin ws t.id =
      some ⟨(db.branch ws top.toRawNode).graft
        ((db.branch ws n.toRawNode).update [] (Entry.revised now)) place name,
          t.original_parent_id, t.original_name⟩ := by
  obtain ⟨hws, htrashed, _⟩ := htop.shape hwf
  have htop' : InTrash db' ws t top := by
    refine ⟨h.mem_trash.mpr ⟨htop.record, ?_⟩, htop.workspace, h.mem.mpr (Or.inr ⟨htop.mem, hne⟩),
      htop.node⟩
    rintro rfl
    exact hne (htop.node.trans h.node.symm)
  rw [Db.bin_of_inTrash hwf' htop', h.branch hwf hwf' htop.mem hws
    (fun hm hm' => hm.place_unique_of_trashed htrashed hm') hclear
      (fun q m => htop.outside hwf h.stored (fun hactive => absurd hactive h.trashed) hclear) hp
        hfree]

end BroughtBack

variable {rt : Runtime} {ws : WorkspaceId} {w w' : World} {actor_json : Text}

theorem trash.trash_refines {path : VirtualPath} {options : MutationOptions}
    {outcome : TrashOutcome} (hw : Standing rt w)
    (h : trash_tx rt ws path options actor_json w = .ok (outcome, w')) :
    Refines (.Trash path options) outcome (w.db.volume ws) (w'.db.volume ws) := by
  have hwf := hw.sound.wf
  have hwf' := hw.wellFormed (.Trash path options) h
  obtain ⟨rfl, hnot⟩ | ⟨node, up, records, rfl, htrashes, hup, hins, _, happ⟩ := trash_tx_ok h
  · refine ⟨?_, fun _ => rfl⟩
    rintro ⟨row, trash_id, deleted_at_ms, hrow⟩
    exact absurd hrow (hnot _ _ _)
  refine ⟨fun _ => ?_, fun hnot => absurd ⟨_, _, _, rfl⟩ hnot⟩
  obtain ⟨_, _, hlive⟩ := resolve_following_live htrashes.found
  obtain ⟨r, hr⟩ := IsRoot.of_live hlive
  obtain ⟨q, n, hn, rfl, hfinds⟩ := Db.finds hwf.nodes hw.linked hr htrashes.found
  have hroot := hr.live hwf.nodes
  have hlive := hn.live hwf.nodes hroot
  -- the node is not the root, so that it has a name in a directory
  obtain ⟨place, p, hp, rfl, rfl⟩ : ∃ place p, Under w.db r place p ∧ q = place ++ [n.name] ∧
      p.id = up := by
    cases hn with
    | here =>
      rw [hr.root] at hup
      cases hup
    | child hp _ hparent _ => exact ⟨_, _, hp, rfl, Option.some.inj (hparent.symm.trans hup)⟩
  obtain ⟨s, hs⟩ : ∃ s, s = (trashed (rt.nowMs (w.tick + 1))).apply n := ⟨_, rfl⟩
  have hraw : s.toRawNode = n.toRawNode := by rw [hs]; rfl
  have hid : s.id = n.id := congrArg RawNode.id hraw
  have hmem : ∀ m, m ∈ w'.db.nodes ↔ m = s ∨ m ∈ w.db.nodes ∧ m.id ≠ n.id := fun m => by
    rw [happ.appended.nodes, hs]
    exact Table.mem_modify_of_mem hn.mem
  have hentry : w'.db.entry = w.db.entry :=
    Db.entry_eq happ.appended.attributes happ.appended.content_chunks
  have hself : ∀ rest m, rest ≠ [] → Under w.db n rest m → m.id ≠ n.id := by
    intro rest m hne hm hid
    obtain rfl := w.db.node_ext hm.mem hn.mem hid
    exact (hm.beneath hne).ne_root hlive rfl
  have htrashed : s.trashed_at_ms ≠ none := by
    rw [hs]
    exact Option.some_ne_none _
  have htree := Db.file_tree_trash hwf.nodes hwf'.nodes hr hn (by simp [hup]) hid hmem hself htrashed
    hentry
  have hmem_trash : ∀ t, t ∈ w'.db.trash ↔ t ∈ w.db.trash ∨
      t = ⟨rt.newId w.tick, ws, n.id, p.id, n.name, rt.nowMs (w.tick + 1)⟩ := fun t => by
    rw [show w'.db.trash = records from happ.appended.trash]
    exact Table.mem_insert hins
  have hbins : w'.db.bin ws = Function.update (w.db.bin ws) (rt.newId w.tick)
      (some ⟨(w.db.file_tree ws).branch (place ++ [n.name]), (w.db.entry p.toRawNode).id,
        n.name⟩) := by
    funext trash_id
    by_cases hnew : trash_id = rt.newId w.tick
    · subst hnew
      rw [Function.update_self, Db.branch_of_under hwf.nodes hr hn,
        ← Db.branch_trash hwf.nodes hwf'.nodes hn.mem hlive.workspace hraw hmem hself htrashed hentry]
      exact Db.bin_of_inTrash hwf' ⟨(hmem_trash _).mpr (Or.inr rfl), rfl, (hmem _).mpr (Or.inl rfl),
        hid⟩
    · rw [Function.update_of_ne hnew]
      refine Db.bin_congr hwf hwf' (fun t _ ht => ?_) (fun t top htop _ => ?_)
      · rw [hmem_trash]
        refine or_iff_left ?_
        rintro rfl
        exact hnew ht.symm
      · exact htop.same_of_live hwf hlive hid hmem (fun _ hactive => absurd hactive htrashed)
          (fun m _ _ => by rw [hentry])
  have hvolume : w'.db.volume ws = ⟨(w.db.file_tree ws).remove (place ++ [n.name]),
      Function.update (w.db.bin ws) (rt.newId w.tick)
        (some ⟨(w.db.file_tree ws).branch (place ++ [n.name]), (w.db.entry p.toRawNode).id,
          n.name⟩)⟩ := by
    unfold Db.volume
    rw [htree, hbins]
  rw [hvolume]
  refine ⟨_, .trash htrashes.named hfinds htrashes.fresh (Db.lookup_of_under hwf.nodes hr hp) ?_,
    fun row htells => ?_⟩
  · refine (Db.bin_eq_none hwf).mpr (fun t ht _ hid => ?_)
    exact (hw.sound.issued.trash t ht).disjoint ⟨w.tick, le_refl _, Nat.lt_succ_self _, hid.symm⟩
  · obtain ⟨_, _, hsame⟩ := htells
    cases hsame
    exact ⟨_, rfl, .entry _ _⟩

theorem trash.restore_refines {trash_id : TrashId} {destination : Option VirtualPath}
    {options : MutationOptions} {outcome : RestoreOutcome} (hw : Standing rt w)
    (h : restore_tx rt ws trash_id destination options actor_json w = .ok (outcome, w')) :
    Refines (.Restore trash_id destination options) outcome (w.db.volume ws)
      (w'.db.volume ws) := by
  have hwf := hw.sound.wf
  have hwf' := hw.wellFormed (.Restore trash_id destination options) h
  obtain ⟨rfl, hnot⟩ | ⟨record, node, parent, name, db, row, rfl, hrestores, hupdate, _, happ, hrow⟩ :=
    restore_tx_ok h
  · refine ⟨?_, fun _ => rfl⟩
    rintro ⟨row, hrow⟩
    exact absurd hrow (hnot row)
  refine ⟨fun _ => ?_, fun hnot => absurd ⟨_, rfl⟩ hnot⟩
  obtain ⟨hrecord, hrecordws, rfl⟩ := fetch_trash_row_eq_some hrestores.recorded
  obtain ⟨x, hn⟩ := InTrash.of_record hwf hrecord hrecordws
  obtain ⟨x', hx, rfl, _, hxid⟩ := fetch_by_id_any_eq_some.mp hrestores.stored
  obtain rfl := w.db.node_ext hx hn.mem (hxid.trans hn.node.symm)
  obtain ⟨hws, htrashed, hup, hname⟩ := hn.shape hwf
  obtain ⟨p, hp, rfl, hdir, hpws, hactive, hplace, hsegment⟩ :=
    hrestores.dest.place hup hname.symm hwf hn.mem
  obtain rfl := Db.update_node_ok hupdate
  obtain ⟨wsrow, hwsrow⟩ := hwf.nodes.workspace x' hn.mem
  obtain ⟨r, hr⟩ := IsRoot.of_workspace hwf.nodes (hws ▸ hwsrow)
  have hroot := hr.live hwf.nodes
  have hb : BroughtBack w.db w'.db ws record destination x' p name (rt.nowMs w.tick) :=
    ⟨hrecord, hn.mem, hn.node, hws, htrashed, hrestores.dest, hp, hactive, hdir, hsegment,
      happ.appended.nodes, happ.appended.trash, happ.appended.attributes,
      happ.appended.content_generations, happ.appended.content_chunks⟩
  have hbin := Db.bin_of_inTrash hwf hn
  have htop : (w.db.branch ws x'.toRawNode).lookup [] = some (w.db.entry x'.toRawNode) := rfl
  have hdescribes : ((w.db.entry x'.toRawNode).revised (rt.nowMs w.tick)).Describes row := by
    obtain ⟨m, hm, rfl, _, hid, _⟩ := fetch_by_id_eq_some.mp hrow
    obtain rfl | ⟨_, hne⟩ := hb.mem.mp hm
    · exact ⟨rfl, rfl, rfl, rfl, rfl, rfl, rfl, fun _ => rfl⟩
    · exact absurd hid hne
  by_cases hlive : Live w.db ws p
  · obtain ⟨place, hunder⟩ := Under.of_live hwf.nodes hroot hr.root hlive
    have hgiven : ∀ path, destination = some path →
        Volume.Names (w.db.file_tree ws) path place name (w.db.entry p.toRawNode) := by
      rintro path rfl
      cases hrestores.dest with
      | given hname hparent_path hparent hdir =>
        obtain ⟨place', p', hp', hraw, hnames⟩ :=
          Db.names hwf.nodes hw.linked hr hparent_path hparent hdir hname
        obtain rfl := w.db.node_ext hp'.mem hp (congrArg RawNode.id hraw)
        rwa [hunder.place_unique hroot hp']
    have hfree : (w.db.file_tree ws).lookup (place ++ [name]) = none := by
      rw [Db.lookup_child hwf.nodes hr hunder, hrestores.free, Option.map_none]
    rw [hb.volume_eq hwf hwf' hr hunder hrestores.free]
    refine ⟨_, Volume.Performs.restore (v := w.db.volume ws) hbin htop hrestores.fresh hgiven ?_ hfree,
      fun _ htells => ?_⟩
    · rintro rfl
      exact ⟨Db.lookup_of_under hwf.nodes hr hunder, hdir, hb.original⟩
    · cases htells
      exact ⟨_, rfl, hdescribes⟩
  · obtain rfl : destination = none := by
      cases hrestores.dest with
      | given _ _ hparent _ =>
        obtain ⟨p', hraw, hp'⟩ := resolve_following_live hparent
        obtain rfl := w.db.node_ext hp'.mem hp (congrArg RawNode.id hraw)
        exact absurd hp' hlive
      | original => rfl
    obtain ⟨hhome, rfl⟩ := hb.original
    have hvolume : w'.db.volume ws = ⟨(w.db.volume ws).tree, w'.db.bin ws⟩ := by
      unfold Db.volume
      rw [hb.file_tree_eq hwf hwf' hr hlive]
    rw [hvolume]
    refine ⟨some ((w.db.entry x'.toRawNode).revised (rt.nowMs w.tick)), .restore_unseen hbin htop
      hrestores.fresh ?_ (hb.bin_self hwf') ?_ ?_ ?_, fun _ htells => ?_⟩
    · intro q directory hfound hid
      obtain ⟨m, hm, rfl⟩ := (Db.file_tree_eq_some hwf.nodes hr).mp hfound
      obtain rfl := w.db.node_ext hm.mem hp (hid.trans hhome.symm)
      exact hlive (hm.live hwf.nodes hroot)
    · intro other_id other hne hother hclear
      refine (hb.bin_of_ne hwf hwf' hne (fun t top q htop ht hm => ?_)).trans hother
      subst ht
      have hsame := (Db.bin_of_inTrash hwf htop).symm.trans hother
      cases hsame
      exact hclear q _ ((Db.branch_eq_some hwf.nodes htop.mem (htop.shape hwf).1).mpr ⟨p, hm, rfl⟩)
        hhome
    · intro other_id other q directory hne hother hfound hid hgone
      obtain ⟨t, top, htop, rfl, rfl⟩ := Db.inTrash_of_bin hwf hother
      obtain ⟨m, hm, rfl⟩ := (Db.branch_eq_some hwf.nodes htop.mem (htop.shape hwf).1).mp hfound
      obtain rfl := w.db.node_ext hm.mem hp (hid.trans hhome.symm)
      have hnode : top.id ≠ x'.id := by
        intro heq
        refine hne (congrArg TrashRow.id ?_)
        exact hwf.trash.unique t htop.record record hrecord
          (htop.node.symm.trans (heq.trans hn.node))
      rw [Db.gone_iff hwf hn.mem hws htop hnode] at hgone
      exact hb.bin_outer hwf hwf' htop hnode hgone hm hrestores.free
    · intro other_id hnone
      have hclear := (Db.bin_eq_none hwf).mp hnone
      refine (Db.bin_eq_none hwf').mpr (fun t ht => hclear t ?_)
      exact (hb.mem_trash.mp ht).1
    · cases htells
      exact ⟨_, rfl, hdescribes⟩

end fslite
