import Fslite.Sqlite.Refine.Move
import Fslite.Sqlite.Run.Isomorphism

namespace fslite

open resolve mutate

variable {rt : Runtime} {ws : WorkspaceId} {w w' : World} {actor_json : Text}

/-- A row that has been written at one moment. -/
structure NodeRow.Stamped (now : Int) (n : NodeRow) : Prop where
  created : n.created_at_ms = now
  modified : n.modified_at_ms = now
  accessed : n.accessed_at_ms = now

/-- All that a copy inserts is written at the moment of the copy. -/
theorem mutate.copy_loop_stamped {now : Int} {bound : Nat}
    {stack : List (RawNode × NodeId × Text)} {top : Option RawNode} {raw : RawNode}
    (h : copy_loop rt ws now bound stack top w = .ok (raw, w')) :
    ∀ m ∈ w'.db.nodes, m ∈ w.db.nodes ∨ m.Stamped now := by
  refine copy_loop_induction
    (motive := fun _ _ _ w => ∀ m ∈ w'.db.nodes, m ∈ w.db.nodes ∨ m.Stamped now) ?_ ?_ h
  · exact fun _ m hm => Or.inl hm
  · intro _ old new_node up name stack top w w₁ hcopy _ ih m hm
    obtain ⟨generation, _, hins, _⟩ := copy_node_ok hcopy
    obtain hm | hstamped := ih m hm
    · obtain hm | rfl := (Table.mem_insert hins).mp hm
      · exact Or.inl hm
      · exact Or.inr ⟨rfl, rfl, rfl⟩
    · exact Or.inr hstamped

theorem mutate.copy_subtree_stamped {source raw : RawNode} {up : NodeId} {name : Text} {now : Int}
    (h : copy_subtree rt ws source up name now w = .ok (raw, w')) :
    ∀ m ∈ w'.db.nodes, m ∈ w.db.nodes ∨ m.Stamped now := by
  unfold copy_subtree at h
  obtain ⟨full, w₁, hfull, hloop⟩ := Tx.bind_eq_ok.mp h
  obtain ⟨rfl, _⟩ := fetch_full_ok hfull
  rw [Tx.query_bind] at hloop
  exact copy_loop_stamped hloop

/-- A copy of a node makes an entry like the one of the node. -/
theorem Alike.copyOf {db db' : Db} {m n : RawNode} {now : Int} (h : Alike db db' m n)
    (hrevision : n.revision = 1) (hcreated : n.created_at_ms = now)
    (hmodified : n.modified_at_ms = now) (haccessed : n.accessed_at_ms = now) :
    Entry.CopyOf now (db.entry m) (db'.entry n) := by
  have hattributes : db'.attribute n.id = db.attribute m.id := funext h.attributes
  have hchunks : (db'.entry n).chunks = (db.entry m).chunks := by
    funext i
    show n.content_generation_id.bind _ = m.content_generation_id.bind _
    cases hg : m.content_generation_id with
    | none => rw [h.empty hg]; rfl
    | some g =>
      obtain ⟨g', hg', hbytes⟩ := h.bytes g hg
      rw [hg']
      exact hbytes i
  unfold Entry.CopyOf Entry.created
  rw [← hchunks]
  unfold Db.entry
  rw [h.kind, h.size, h.link, hattributes, hrevision, hcreated, hmodified, haccessed]

namespace mutate.Duplicates

variable {base : World} {s p row x : NodeRow} {name : Text} {pairs : List (RawNode × NodeRow)}
  {q place : List Text}

/-- The copies stand under the copy of the source as the originals stand under the source. -/
theorem under_iff (h : Duplicates rt base ws [(s.toRawNode, p.id, name)] base w' pairs)
    (hwf : WellFormed base.db) (hissued : Issued rt base) (hwf' : NodesWellFormed w'.db)
    (hs : Live base.db ws s) (hp : p ∈ base.db.nodes) (hrow : (s.toRawNode, row) ∈ pairs) :
    Under w'.db row q x ↔ ∃ m, Under base.db s q m ∧ (m.toRawNode, x) ∈ pairs := by
  have hlive : IsLive base.db ws s.toRawNode := ⟨s, rfl, hs⟩
  induction q using List.reverseRecOn generalizing x with
  | nil =>
    simp only [Under.nil_iff]
    constructor
    · rintro ⟨rfl, _⟩
      exact ⟨s, ⟨rfl, hs.mem⟩, hrow⟩
    · rintro ⟨m, ⟨rfl, _⟩, hx⟩
      exact ⟨h.unique hlive hwf' hx hrow, h.mem hrow⟩
  | append_singleton q last ih =>
    rw [Under.concat_iff]
    constructor
    · rintro ⟨y, hy, hx, hup, _, rfl⟩
      obtain ⟨m, hm, hmy⟩ := ih.mp hy
      obtain ⟨⟨a, _⟩, hax, rfl⟩ := h.of_parent hwf hissued hmy hx hup
      obtain ⟨item, hitem, _, hplace, _⟩ | ⟨pair, hpair, hholds, hplace, hname⟩ := h.placed _ hax
      · -- the copy of the source hangs below what has been there
        rw [List.mem_singleton.mp hitem] at hplace
        exact absurd (Option.some.inj (hplace.symm.trans hup)) (h.fresh hissued hmy hp)
      · obtain rfl := h.distinct pair hpair _ hmy (Option.some.inj (hplace.symm.trans hup))
        obtain ⟨c, hc, rfl, _, hcup, hactive⟩ := mem_fetch_children.mp hholds.2
        exact ⟨c, Under.concat_iff.mpr ⟨m, hm, hc, hcup, hactive, hname.symm⟩, hax⟩
    · rintro ⟨c, hc, hcx⟩
      obtain ⟨m, hm, hcmem, hcup, _, rfl⟩ := Under.concat_iff.mp hc
      obtain ⟨item, hitem, hsource, _⟩ | ⟨⟨a, y⟩, hay, hholds, hplace, hname⟩ := h.placed _ hcx
      · rw [List.mem_singleton.mp hitem] at hsource
        obtain rfl := base.db.node_ext hcmem hs.mem (congrArg RawNode.id hsource)
        exact absurd hm.below_top (hs.acyclic hcup)
      · obtain ⟨z, rfl, hz⟩ := (Reaches.live (h.reaches hay) hlive).1
        obtain ⟨c', hc', hraw, _, hcup', _⟩ := mem_fetch_children.mp hholds.2
        obtain rfl := base.db.node_ext hc' hcmem (congrArg RawNode.id hraw)
        obtain rfl := base.db.node_ext hz.mem hm.mem (Option.some.inj (hcup'.symm.trans hcup))
        exact ⟨y, ih.mpr ⟨z, hm, hay⟩, h.mem hcx, hplace, (h.made _ hcx).active, hname⟩

/-- What has been there is there, and the copies stand where the copy of the source is put. -/
theorem under_iff_of_root {r : NodeRow}
    (h : Duplicates rt base ws [(s.toRawNode, p.id, name)] base w' pairs)
    (hissued : Issued rt base) (hwf' : NodesWellFormed w'.db) (hr : Live base.db ws r)
    (hp : Under base.db r place p) (hrow : (s.toRawNode, row) ∈ pairs)
    (hup : row.parent_id = some p.id) (hname : row.name = name) : Under w'.db r q x ↔
      Under base.db r q x ∨ ∃ rest, q = place ++ name :: rest ∧ Under w'.db row rest x := by
  have hkept : ∀ {q x}, Under base.db r q x → Under w'.db r q x := by
    intro q x hx
    induction hx with
    | here hr => exact .here (h.kept_nodes hr)
    | child _ hn hup hactive ih => exact .child ih (h.kept_nodes hn) hup hactive
  constructor
  · intro hx
    induction hx with
    | here => exact Or.inl (.here hr.mem)
    | @child q y x _ hx hxup hactive ih =>
      obtain hy | ⟨rest, rfl, hy⟩ := ih
      · obtain hx | ⟨⟨a, _⟩, hax, rfl⟩ := (h.nodes x).mp hx
        · exact Or.inl (.child hy hx hxup hactive)
        · obtain ⟨item, hitem, _, hplace, hxname⟩ | ⟨pair, hpair, _, hplace, _⟩ := h.placed _ hax
          · rw [List.mem_singleton.mp hitem] at hplace hxname
            obtain rfl := base.db.node_ext hp.mem hy.mem
              (Option.some.inj (hplace.symm.trans hxup))
            obtain rfl := hp.place_unique hr hy
            obtain rfl := h.eq_of_place hwf' hax hrow hxup hup (hxname.trans hname.symm)
            exact Or.inr ⟨[], by rw [← hname], .here (h.mem hrow)⟩
          · exact absurd (Option.some.inj (hxup.symm.trans hplace)) (h.fresh hissued hpair hy.mem)
      · exact Or.inr ⟨rest ++ [x.name], by simp, .child hy hx hxup hactive⟩
  · rintro (hx | ⟨rest, rfl, hx⟩)
    · exact hkept hx
    · rw [List.append_cons]
      refine Under.append_iff.mpr ⟨row, ?_, hx⟩
      rw [← hname]
      exact .child (hkept hp) (h.mem hrow) hup (h.made _ hrow).active

/-- Copies that go elsewhere leave the places under a node alone. -/
theorem under_iff_aside {top : NodeRow}
    (h : Duplicates rt base ws [(s.toRawNode, p.id, name)] base w' pairs) (hissued : Issued rt base)
    (htop : top ∈ base.db.nodes) (hnot : ∀ q m, Under base.db top q m → m.id ≠ p.id) :
    Under w'.db top q x ↔ Under base.db top q x := by
  constructor
  · intro hx
    induction hx with
    | here => exact .here htop
    | @child q y x _ hx hxup hactive ih =>
      obtain hx | ⟨⟨a, _⟩, hax, rfl⟩ := (h.nodes x).mp hx
      · exact .child ih hx hxup hactive
      · obtain ⟨item, hitem, _, hplace, _⟩ | ⟨pair, hpair, _, hplace, _⟩ := h.placed _ hax
        · rw [List.mem_singleton.mp hitem] at hplace
          exact absurd (Option.some.inj (hxup.symm.trans hplace)) (hnot q y ih)
        · exact absurd (Option.some.inj (hxup.symm.trans hplace)) (h.fresh hissued hpair ih.mem)
  · intro hx
    induction hx with
    | here htop => exact .here (h.kept_nodes htop)
    | child _ hn hup hactive ih => exact .child ih (h.kept_nodes hn) hup hactive

/-- The entries that have been there are as they were. -/
theorem entry (h : Duplicates rt base ws [(s.toRawNode, p.id, name)] base w' pairs)
    (hwf : WellFormed base.db) (hissued : Issued rt base) {m : NodeRow} (hm : m ∈ base.db.nodes) :
    w'.db.entry m.toRawNode = base.db.entry m.toRawNode := by
  refine Db.entry_congr (fun key => ?_) (fun g hg i => ?_)
  · rw [Db.attribute, Db.attribute, h.kept.attributes m.id key (hissued.node m hm).disjoint]
  · obtain ⟨_, old, hold, _⟩ := hwf.contents.generation m hm g hg
    exact (h.kept.content g (hissued.generation g old hold).disjoint).chunk i

/-- Everything under the source has a copy. -/
theorem exists_copy {m : NodeRow}
    (h : Duplicates rt base ws [(s.toRawNode, p.id, name)] base w' pairs) (hwf : WellFormed base.db)
    (hs : Live base.db ws s) (hrow : (s.toRawNode, row) ∈ pairs) (hm : Under base.db s q m) :
    ∃ x, (m.toRawNode, x) ∈ pairs := by
  induction hm with
  | here => exact ⟨row, hrow⟩
  | @child q y m hy hm hup hactive ih =>
    obtain ⟨z, hz⟩ := ih
    obtain ⟨y', hy', hid, _, hkind⟩ := hwf.nodes.parent m hm _ hup
    obtain rfl := base.db.node_ext hy' hy.mem hid
    have hmws := ((Under.child hy hm hup hactive).workspace hwf.nodes).trans hs.workspace
    obtain ⟨x, hx, _⟩ := h.held _ hz m.toRawNode
      ⟨hkind, mem_fetch_children.mpr ⟨m, hm, rfl, hmws, hup, hactive⟩⟩
    exact ⟨x, hx⟩

/-- The copies make a tree of new nodes that is like the one of the originals. -/
theorem copied {now : Int} {v : Volume}
    (h : Duplicates rt base ws [(s.toRawNode, p.id, name)] base w' pairs) (hwf : WellFormed base.db)
    (hissued : Issued rt base) (hwf' : NodesWellFormed w'.db) (hs : Live base.db ws s)
    (hp : p ∈ base.db.nodes) (hrow : (s.toRawNode, row) ∈ pairs) (hlive : Live w'.db ws row)
    (hstamped : ∀ pair ∈ pairs, pair.2.Stamped now) (hunused : ∀ pair ∈ pairs, v.Unused pair.2.id) :
    v.Copied now (base.db.branch ws s.toRawNode) (w'.db.branch ws row.toRawNode) := by
  have hsome : ∀ q e, (base.db.branch ws s.toRawNode).lookup q = some e ↔ _ :=
    fun q e => Db.branch_eq_some hwf.nodes hs.mem hs.workspace
  have hsome' : ∀ q e, (w'.db.branch ws row.toRawNode).lookup q = some e ↔ _ :=
    fun q e => Db.branch_eq_some hwf' hlive.mem hlive.workspace
  have hunder : ∀ q x, Under w'.db row q x ↔ _ := fun q x =>
    h.under_iff hwf hissued hwf' hs hp hrow
  constructor
  · intro q
    cases hold : (base.db.branch ws s.toRawNode).lookup q with
    | none =>
      cases hnew : (w'.db.branch ws row.toRawNode).lookup q with
      | none => exact .none
      | some e =>
        obtain ⟨x, hx, _⟩ := (hsome' q e).mp hnew
        obtain ⟨m, hm, _⟩ := (hunder q x).mp hx
        rw [(hsome q _).mpr ⟨m, hm, rfl⟩] at hold
        cases hold
    | some e =>
      obtain ⟨m, hm, rfl⟩ := (hsome q e).mp hold
      obtain ⟨x, hx⟩ := h.exists_copy hwf hs hrow hm
      rw [(hsome' q _).mpr ⟨x, (hunder q x).mpr ⟨m, hm, hx⟩, rfl⟩]
      obtain ⟨hcreated, hmodified, haccessed⟩ := hstamped _ hx
      exact .some ((h.alike _ hx).copyOf (h.made _ hx).revision hcreated hmodified haccessed)
  · intro q e he
    obtain ⟨x, hx, rfl⟩ := (hsome' q e).mp he
    obtain ⟨m, _, hmx⟩ := (hunder q x).mp hx
    exact hunused _ hmx
  · intro q q' e e' he he' hid
    obtain ⟨x, hx, rfl⟩ := (hsome' q e).mp he
    obtain ⟨x', hx', rfl⟩ := (hsome' q' e').mp he'
    obtain rfl := w'.db.node_ext hx.mem hx'.mem hid
    exact hx.place_unique hlive hx'

end mutate.Duplicates

namespace Db

variable {db : Db} {existing : Option RawNode} {m s : NodeRow}

theorem entry_overwritten (hwf : WellFormed db) (hm : m ∈ db.nodes)
    (hspared : db.Spared existing m.id) :
    (db.overwritten existing).entry m.toRawNode = db.entry m.toRawNode := by
  cases existing with
  | none => rfl
  | some occupant => exact entry_purge hwf hm (hspared occupant rfl)

/-- A branch that the overwriting leaves alone. -/
theorem branch_overwritten (hwf : WellFormed db) (hwf' : WellFormed (db.overwritten existing))
    (hs : s ∈ db.nodes) (hws : s.workspace_id = ws)
    (hspared : ∀ id, Below db.parent id s.id → db.Spared existing id) :
    (db.overwritten existing).branch ws s.toRawNode = db.branch ws s.toRawNode := by
  have hmem : ∀ q m, Under db s q m → m ∈ (db.overwritten existing).nodes := fun q m hm =>
    mem_overwritten.mpr ⟨hm.mem, hspared m.id hm.below_top⟩
  refine branch_congr hwf hwf' hs hws ⟨hmem [] s (.here hs), fun q m => ?_, fun q m hm => ?_⟩
  · rw [under_overwritten_iff]
    exact and_iff_left_of_imp (hmem q m)
  · exact entry_overwritten hwf hm.mem (hspared m.id hm.below_top)

end Db

theorem copy_refines {source_path target : VirtualPath} {options : CopyOptions}
    {outcome : CopyOutcome} (hw : Standing rt w)
    (h : copy_tx rt ws source_path target options actor_json w = .ok (outcome, w')) :
    Refines (.Copy source_path target options) outcome (w.db.volume ws) (w'.db.volume ws) := by
  have hwf := hw.sound.wf
  have hwf' := hw.wellFormed (.Copy source_path target options) h
  obtain ⟨rfl, hnot⟩ | ⟨source, parent, name, existing, row', w₁, rfl, hcopies, hcopy, _, happ⟩ :=
    copy_tx_ok h
  · refine ⟨?_, fun _ => rfl⟩
    rintro ⟨row, hrow⟩
    exact absurd hrow (hnot row)
  refine ⟨fun _ => ?_, fun hnot => absurd ⟨_, rfl⟩ hnot⟩
  obtain ⟨source', parent', name', existing', pairs, hcopies', hstarts, hout, hpairs, row, hrow, rfl,
    hup, hname⟩ := copied_pairs hwf hw.sound.issued h
  obtain rfl := ResolveOutcome.Found.inj (hcopies.found.symm.trans hcopies'.found)
  obtain ⟨rfl, rfl, rfl⟩ := hcopies.dest.unique hcopies'.dest
  obtain ⟨_, _, hlive⟩ := resolve_following_live hcopies.found
  obtain ⟨r, hr⟩ := IsRoot.of_live hlive
  obtain ⟨source_place, s, hs, rfl, hfinds⟩ := Db.finds hwf.nodes hw.linked hr hcopies.found
  obtain ⟨place, p, hp, rfl, hnames⟩ := hcopies.dest.names hwf.nodes hw.linked hr
  have hdest := hcopies.dest
  obtain ⟨hr₁, hp₁⟩ := hdest.under_overwritten hr hp
  obtain ⟨htree, hbins⟩ := hdest.volume_overwritten hwf hr hp
  have hwf₁ := hstarts.wf
  have hroot := hr.live hwf.nodes
  have hspared : ∀ id, Below w.db.parent id s.id → w.db.Spared existing id := by
    obtain ⟨x, hx, hxlive⟩ := hstarts.live
    obtain rfl := w.db.node_ext (overwritten_mem hxlive.mem) hs.mem (congrArg RawNode.id hx)
    exact fun id hbelow => (Db.mem_overwritten.mp hxlive.mem).2.beneath hdest hout hbelow
  have hs₁ : Live (w.db.overwritten existing) ws s := overwritten_live (hs.live hwf.nodes hroot)
    (Db.mem_overwritten.mpr ⟨hs.mem, hspared s.id (Below.refl _ _)⟩)
  have htrash : w'.db.trash = (w.db.overwritten existing).trash := by
    obtain ⟨_, _, w₂, _, _, _, _, hframed, hgrown⟩ := copy_subtree_ok hcopy
    exact happ.appended.trash.trans ((hframed.trans hgrown.framed).trash)
  have hnew : ∀ pair ∈ pairs, ∀ m ∈ w.db.nodes, m.id ≠ pair.2.id := fun pair hpair m hm heq =>
    (hw.sound.issued.node m hm).disjoint
      (heq ▸ (hpairs.made pair hpair).id.mono (Nat.le_succ _) (le_refl _))
  have hstamped : ∀ pair ∈ pairs, pair.2.Stamped (rt.nowMs w.tick) := fun pair hpair =>
    (copy_subtree_stamped hcopy _ (happ.appended.nodes ▸ hpairs.mem hpair)).resolve_left
      (fun hold => hnew pair hpair _ (overwritten_mem hold) rfl)
  have hrow' : Under w'.db r (place ++ [name]) row :=
    (hpairs.under_iff_of_root hstarts.issued hwf'.nodes (hr₁.live hwf₁.nodes) hp₁ hrow hup
      hname).mpr (Or.inr ⟨[], rfl, .here (hpairs.mem hrow)⟩)
  have hr' : IsRoot w'.db ws r := ⟨hpairs.kept_nodes hr₁.mem, hr.workspace, hr.root⟩
  have hlive' := hrow'.live hwf'.nodes (hr'.live hwf'.nodes)
  have hcopied := hpairs.copied (v := w.db.volume ws) hwf₁ hstarts.issued hwf'.nodes hs₁ hp₁.mem
    hrow hlive' hstamped
    (fun pair hpair => Db.volume_unused hwf hr (hnew pair hpair))
  rw [show (World.mk (w.db.overwritten existing) (w.tick + 1)).db.branch ws s.toRawNode = _ from
      Db.branch_overwritten hwf hwf₁ hs.mem hs₁.workspace hspared,
    ← Db.branch_of_under hwf.nodes hr hs] at hcopied
  have hvolume : w'.db.volume ws = ⟨(w.db.file_tree ws).graft (w'.db.branch ws row.toRawNode) place
      name, (w.db.overwritten existing).bin ws⟩ := by
    unfold Db.volume
    congr 1
    · refine Hierarchy.ext_some (fun q e => ?_)
      rw [Hierarchy.lookup_graft_eq_some, Db.file_tree_eq_some hwf'.nodes hr',
        ← Hierarchy.lookup_remove_eq_some, ← htree,
        show ((w.db.overwritten existing).volume ws).tree.lookup q = some e ↔ _ from
          Db.file_tree_eq_some hwf₁.nodes hr₁, Db.lookup_of_under hwf.nodes hr hp]
      simp only [hpairs.under_iff_of_root hstarts.issued hwf'.nodes (hr₁.live hwf₁.nodes) hp₁ hrow
        hup hname, Db.branch_eq_some hwf'.nodes hlive'.mem hlive'.workspace, Option.isSome_some,
        true_and]
      constructor
      · rintro ⟨m, hm | ⟨rest, rfl, hm⟩, rfl⟩
        · exact Or.inl ⟨m, hm, (hpairs.entry hwf₁ hstarts.issued hm.mem).symm⟩
        · exact Or.inr ⟨rest, rfl, m, hm, rfl⟩
      · rintro (⟨m, hm, rfl⟩ | ⟨rest, rfl, m, hm, rfl⟩)
        · exact ⟨m, Or.inl hm, hpairs.entry hwf₁ hstarts.issued hm.mem⟩
        · exact ⟨m, Or.inr ⟨rest, rfl, hm⟩, rfl⟩
    · refine Db.bins_congr hwf₁ hwf' htrash (fun t top htop => ⟨hpairs.kept_nodes htop.mem,
        fun q m => hpairs.under_iff_aside hstarts.issued htop.mem (fun q m hm hid => ?_),
        fun q m hm => hpairs.entry hwf₁ hstarts.issued hm.mem⟩)
      -- the destination is live, and the trash is not
      obtain rfl := (w.db.overwritten existing).node_ext hm.mem hp₁.mem hid
      exact htop.not_live hwf₁ hm (hp₁.live hwf₁.nodes (hr₁.live hwf₁.nodes))
  rw [hvolume]
  refine ⟨_, .copy hfinds hcopies.fresh hcopies.recursive hnames (hdest.allowed_iff hwf.nodes hr hp)
    hcopied hbins, fun row' htells => ?_⟩
  cases htells
  exact ⟨_, rfl, .entry _ _⟩

end fslite
