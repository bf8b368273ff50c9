import Fslite.Sqlite.Refine.Path
import Fslite.Sqlite.Run.Quota

namespace fslite

open resolve directory content mutate

namespace Standing

variable {rt : Runtime} {ws : WorkspaceId} {w w' : World} {actor_json : Text}

theorem effect (h : Standing rt w) (operation : BatchOperation) {outcome : Outcome operation}
    (hrun : transact rt ws actor_json operation w = .ok (outcome, w')) :
    Effect rt Policy.any none w w' :=
  transact_effect h.sound.wf (h.sound.laid not_false) (Policy.permits_any _ _ _) hrun

theorem wellFormed (h : Standing rt w) (operation : BatchOperation) {outcome : Outcome operation}
    (hrun : transact rt ws actor_json operation w = .ok (outcome, w')) : WellFormed w'.db :=
  (h.effect operation hrun).wellFormed h.sound.wf

theorem of_effect {o : Option GenerationId} (h : Standing rt w)
    (heffect : Effect rt Policy.any o w w') (hlinked : w'.db.Linked) : Standing rt w' where
  sound := ⟨heffect.wellFormed h.sound.wf, heffect.issued h.sound.issued,
    fun _ hlaid => hlaid.elim⟩
  linked := hlinked

/-- The identifiers that are still to come are those of no nodes. -/
theorem node_fresh (h : Standing rt w) {k : Nat} (hk : w.tick ≤ k) :
    ∀ n ∈ w.db.nodes, n.id ≠ rt.newId k :=
  fun n hn hid => (h.sound.issued.node n hn).disjoint ⟨k, hk, Nat.lt_succ_self _, hid.symm⟩

end Standing

namespace Db

variable {db db' : Db} {ws : WorkspaceId} {r n p : NodeRow} {raw : RawNode} {place : List Text}
  {now : Int}

/-- Nothing in the volume has an identifier that no node has. -/
theorem volume_unused (hwf : WellFormed db) (hr : IsRoot db ws r) {id : NodeId}
    (hid : ∀ n ∈ db.nodes, n.id ≠ id) : (db.volume ws).Unused id := by
  constructor
  · intro q e he
    obtain ⟨m, hm, rfl⟩ := (file_tree_eq_some hwf.nodes hr).mp he
    exact hid m hm.mem
  · intro trash_id b q e hb he
    obtain ⟨t, top, htop, _, rfl⟩ := inTrash_of_bin hwf hb
    obtain ⟨m, hm, rfl⟩ := (branch_eq_some hwf.nodes htop.mem (htop.shape hwf).1).mp he
    exact hid m hm.mem

/-- A new node has no attributes yet. -/
theorem entry_created (raw : RawNode) (hwf : WellFormed db) (hnew : ∀ n ∈ db.nodes, n.id ≠ raw.id)
    (hattributes : ∀ a ∈ db'.attributes, a ∈ db.attributes) (hrevision : raw.revision = 1)
    (hcreated : raw.created_at_ms = now) (hmodified : raw.modified_at_ms = now)
    (haccessed : raw.accessed_at_ms = now) : db'.entry raw =
      .created raw.id raw.kind raw.size raw.symlink_target (db'.entry raw).chunks now := by
  have hnone : db'.attribute raw.id = fun _ => none := by
    funext key
    rw [Db.attribute]
    cases hrow : db'.attributes.find? (raw.id, key) with
    | none => rfl
    | some a =>
      obtain ⟨ha, hkey⟩ := Table.find?_eq_some.mp hrow
      obtain ⟨n, hn, hid⟩ := hwf.attributes a (hattributes a ha)
      exact absurd (hid.trans (congrArg Prod.fst hkey)) (hnew n hn)
  unfold entry Entry.created
  rw [hnone, hrevision, hcreated, hmodified, haccessed]

/-- A new child of a live directory is a new leaf of the volume. -/
theorem volume_insert (hwf : WellFormed db) (hwf' : WellFormed db') (hr : IsRoot db ws r)
    (hp : Under db r place p) {nodes : Table NodeRow.key} (hins : db.nodes.insert n = some nodes)
    (hnodes : db'.nodes = nodes) (hattributes : db'.attributes = db.attributes)
    (hchunks : db'.content_chunks = db.content_chunks) (htrash : db'.trash = db.trash)
    (hup : n.parent_id = some p.id) (hactive : n.trashed_at_ms = none)
    (hfree : db.Free ws p.id n.name) : db'.volume ws =
      { db.volume ws with
        tree := (db.file_tree ws).graft (.leaf (db'.entry n.toRawNode)) place n.name } := by
  have hentry : ∀ m ∈ db.nodes, db'.entry m.toRawNode = db.entry m.toRawNode := fun m _ => by
    rw [entry_eq hattributes hchunks]
  unfold volume
  rw [file_tree_insert hwf.nodes hwf'.nodes hr hp hins hnodes hup hactive hfree hentry,
    bins_of_insert hwf hwf' htrash (hp.live hwf.nodes (hr.live hwf.nodes)) hins hnodes hup hactive
      hentry]

end Db

variable {rt : Runtime} {ws : WorkspaceId} {w w' : World} {actor_json : Text}

/-- `mkdir` reports a directory that exists only if that is asked for and expected. -/
theorem directory.mkdir_tx_found {options : CreateOptions} {segments : List Text} {row : RawNode}
    (h : mkdir_tx rt ws segments options actor_json w = .ok (.Existing row, w')) :
    segments ≠ [] ∧ options.exist_ok = true ∧
      stale options.expected_revision row.revision = false := by
  simp only [mkdir_tx, Tx.query_bind] at h
  cases hroot : fetch_root w.db ws with
  | none =>
    simp only [hroot] at h
    cases (Tx.pure_eq_ok.mp h).1
  | some root =>
    simp only [hroot, Tx.expect_bind_eq_ok] at h
    obtain ⟨leaf_name, hleaf, h⟩ := h
    obtain ⟨result, w₁, hancestors, h⟩ := Tx.bind_eq_ok.mp h
    cases result with
    | error out =>
      obtain ⟨rfl, _⟩ := Tx.pure_eq_ok.mp h
      obtain habsurd | habsurd := mkdir_ancestors_error hancestors <;> cases habsurd
    | ok last =>
      simp only at h
      split at h
      · cases (Tx.pure_eq_ok.mp h).1
      · simp only [Tx.query_bind] at h
        cases hexisting : fetch_child w₁.db ws last.1.id leaf_name with
        | none =>
          simp only [hexisting, Tx.expect_bind_eq_ok] at h
          obtain ⟨leaf_path, _, h⟩ := h
          obtain ⟨created, w₂, _, h⟩ := Tx.bind_eq_ok.mp h
          cases (Tx.pure_eq_ok.mp h).1
        | some child =>
          simp only [hexisting] at h
          split at h
          · cases (Tx.pure_eq_ok.mp h).1
          · split at h
            · cases (Tx.pure_eq_ok.mp h).1
            · rename_i hexist
              split at h
              · cases (Tx.pure_eq_ok.mp h).1
              · rename_i hfresh
                cases (Tx.pure_eq_ok.mp h).1
                refine ⟨?_, by simpa using hexist, by simpa using hfresh⟩
                rintro rfl
                cases hleaf

/-- The directories that are made one below the other are made in the tree. -/
theorem directory.Nested.performs {up last : NodeId} {path last_path : VirtualPath}
    {names : List Text} (h : Nested rt ws up path names w last last_path w') {r p : NodeRow}
    {place : List Text} (hw : Standing rt w) (hr : IsRoot w.db ws r) (hp : Under w.db r place p)
    (hid : p.id = up) (hdir : p.kind = .Directory) (hsegments : ∀ s ∈ names, Segment s)
    (hfree : ∀ s ∈ names.head?, fetch_child w.db ws p.id s = none) (hne : names ≠ []) :
    ∃ n ∈ w'.db.nodes, n.id = last ∧ Volume.Makes place names (w.db.volume ws) (w'.db.volume ws)
      (w'.db.entry n.toRawNode) := by
  induction h generalizing r p place with
  | done => exact absurd rfl hne
  | @make up last path joined last_path name names w w₁ w' nodes hjoin hins htick happ hrest ih =>
    subst hid
    have hnodes : w₁.db.nodes = nodes := happ.appended.nodes
    have hlive := hp.live hw.sound.wf.nodes (hr.live hw.sound.wf.nodes)
    have hfree := hfree name rfl
    have heffect : Effect rt Policy.any none w w₁ := Effect.child ⟨p, rfl, hlive⟩ hdir (by omega)
      ⟨w.tick, le_refl _, by omega, rfl⟩ rfl rfl (hsegments name List.mem_cons_self) hfree rfl rfl
      (fun hkind => by cases hkind) rfl hins happ
    have hw₁ : Standing rt w₁ := hw.of_effect heffect
      (Nested.linked (.make hjoin hins htick happ (.done _ _ _)) hw.linked)
    have hmem : ∀ m, m ∈ w₁.db.nodes ↔ _ := fun m => hnodes ▸ Table.mem_insert hins
    have hr₁ : IsRoot w₁.db ws r := ⟨(hmem r).mpr (Or.inl hr.mem), hr.workspace, hr.root⟩
    have hvolume := Db.volume_insert hw.sound.wf hw₁.sound.wf hr hp hins hnodes
      happ.appended.attributes happ.appended.content_chunks happ.appended.trash rfl rfl
      (fetch_child_eq_none hfree)
    have hfresh := hw.node_fresh (le_refl _)
    have hcreated := Db.entry_created (directoryRow (rt.newId w.tick) ws p.id name
      (rt.nowMs (w.tick + 1))).toRawNode hw.sound.wf hfresh
      (fun a ha => happ.appended.attributes ▸ ha) rfl rfl rfl rfl
    have hunused := Db.volume_unused hw.sound.wf hr hfresh
    rw [hcreated] at hvolume
    cases names with
    | nil =>
      cases hrest
      refine ⟨_, (hmem _).mpr (Or.inr rfl), rfl, ?_⟩
      rw [hvolume, hcreated]
      exact .last hunused
    | cons next names =>
      have hchild : Under w₁.db r (place ++ [name]) (directoryRow (rt.newId w.tick) ws p.id name
          (rt.nowMs (w.tick + 1))) :=
        .child ((Under.insert_iff hw.sound.wf.nodes hins hnodes hp.mem rfl rfl hr.mem).mpr
          (Or.inl hp)) ((hmem _).mpr (Or.inr rfl)) rfl rfl
      have hbarren := Barren.inserted (n := directoryRow (rt.newId w.tick) ws p.id name
        (rt.nowMs (w.tick + 1))) hw.sound.wf ⟨p, rfl, hlive⟩ rfl rfl hins hnodes
      obtain ⟨n, hn, hlast, hmakes⟩ := ih hw₁ hr₁ hchild rfl rfl
        (fun s hs => hsegments s (List.mem_cons_of_mem _ hs)) (fun s _ => hbarren.2 s) (by simp)
      exact ⟨n, hn, hlast, .next hunused (hvolume ▸ hmakes)⟩

theorem mkdir_refines {path : VirtualPath} {options : CreateOptions} {outcome : MkdirOutcome}
    (hw : Standing rt w) (h : mkdir_tx rt ws path.segments options actor_json w = .ok (outcome, w')) :
    Refines (.Mkdir path options) outcome (w.db.volume ws) (w'.db.volume ws) := by
  have hwf := hw.sound.wf
  have hsegments : ∀ s ∈ path.segments, Segment s := fun s hs => VirtualPath.segment_of_mem hs
  constructor
  · rintro ⟨row, rfl | rfl⟩
    · obtain ⟨_, hnot⟩ | ⟨_, existing, names, base, base_path, last_path, ⟨hrow, _⟩, hmakes, hpath,
        hnested⟩ := mkdir_tx_ok hwf hsegments h
      · exact absurd rfl (hnot row)
      cases hrow
      obtain ⟨root, hroot, hwalk⟩ := hmakes.found
      obtain ⟨r, hr, rfl⟩ := IsRoot.of_fetch hroot
      obtain ⟨p, hp, rfl⟩ := (Under.walk_iff hwf.nodes hr.mem hr.workspace).mp hwalk
      have hnames : ∀ s ∈ names, Segment s := fun s hs =>
        hsegments s (hmakes.split ▸ List.mem_append_right _ hs)
      obtain ⟨n, hn, hid, hmade⟩ := hnested.performs hw hr hp rfl hmakes.dir hnames hmakes.free
        hmakes.new
      obtain ⟨m, hm, rfl, _⟩ := mkdir_tx_created h
      obtain rfl := w'.db.node_ext hn hm hid
      refine ⟨_, .mkdir hmakes.split (Db.lookup_of_under hwf.nodes hr hp) hmakes.dir ?_ ?_ hmade,
        fun row htells => ?_⟩
      · intro name hname
        show (w.db.file_tree ws).lookup _ = none
        rw [Db.lookup_child hwf.nodes hr hp, hmakes.free name hname, Option.map_none]
      · by_cases hparents : options.parents = true
        · exact Or.inr hparents
        · left
          have hgrown := hnested.grows.1
          have hlength := List.length_pos_iff.mpr hmakes.new
          obtain rfl | htick := mkdir_tx_single (Bool.eq_false_iff.mpr hparents) h
          · omega
          · omega
      · obtain hsame | habsurd := htells
        · cases hsame
          exact ⟨_, rfl, .entry _ _⟩
        · cases habsurd
    · obtain ⟨rfl, hfound, hkind⟩ := mkdir_tx_existing hwf h
      obtain ⟨hne, hexist, hfresh⟩ := mkdir_tx_found h
      refine ⟨_, .mkdir_existing ?_ (Db.lookup_file_tree_eq_some.mpr ⟨row, hfound, rfl⟩) hkind
        hexist hfresh, fun row' htells => ?_⟩
      · rw [VirtualPath.name_eq]
        exact fun hnone => hne (List.getLast?_eq_none_iff.mp hnone)
      · obtain habsurd | hsame := htells
        · cases habsurd
        · cases hsame
          exact ⟨_, rfl, .entry _ _⟩
  · intro hnot
    obtain ⟨rfl, _⟩ | ⟨row, _, _, _, _, _, ⟨rfl, _⟩, _⟩ := mkdir_tx_ok hwf hsegments h
    · rfl
    · exact absurd ⟨row, Or.inl rfl⟩ hnot

/-- `symlink` reports a link that exists only if that is asked for and expected. -/
theorem mutate.symlink_tx_found {options : CreateOptions} {link : VirtualPath} {target_str : Text}
    {row : RawNode}
    (h : symlink_tx rt ws link target_str options actor_json w = .ok (.Existing row, w')) :
    ∃ parent_path parent name, link.parent = some parent_path ∧
      resolve_following w.db ws parent_path true = .Found parent ∧ parent.kind = .Directory ∧
      link.name = some name ∧ fetch_child w.db ws parent.id name = some row ∧
      row.kind = .Symlink ∧ options.exist_ok = true ∧
      stale options.expected_revision row.revision = false := by
  simp only [symlink_tx, Tx.expect_bind_eq_ok, Tx.query_bind] at h
  obtain ⟨name, hname, parent_path, hparent_path, h⟩ := h
  cases hparent : resolve_following w.db ws parent_path true with
  | Found parent =>
    simp only [hparent] at h
    split at h
    · cases (Tx.pure_eq_ok.mp h).1
    · rename_i hdir
      simp only [Tx.query_bind] at h
      cases hexisting : fetch_child w.db ws parent.id name with
      | none =>
        simp only [hexisting, Tx.new_id_bind, Tx.now_ms_bind, Tx.execute_bind_eq_ok] at h
        obtain ⟨db, _, h⟩ := h
        obtain ⟨_, w₁, _, h⟩ := Tx.bind_eq_ok.mp h
        cases (Tx.pure_eq_ok.mp h).1
      | some existing =>
        simp only [hexisting] at h
        split at h
        · cases (Tx.pure_eq_ok.mp h).1
        · rename_i hkind
          split at h
          · cases (Tx.pure_eq_ok.mp h).1
          · rename_i hexist
            split at h
            · cases (Tx.pure_eq_ok.mp h).1
            · rename_i hfresh
              cases (Tx.pure_eq_ok.mp h).1
              exact ⟨parent_path, parent, name, hparent_path, hparent, not_not.mp hdir, hname,
                hexisting, not_not.mp hkind, by simpa using hexist, by simpa using hfresh⟩
  | _ =>
    simp only [hparent] at h
    cases (Tx.pure_eq_ok.mp h).1

theorem symlink_refines {target : LinkTarget} {link : VirtualPath} {options : CreateOptions}
    {outcome : SymlinkOutcome} (hw : Standing rt w)
    (h : symlink_tx rt ws link target.as_str options actor_json w = .ok (outcome, w')) :
    Refines (.Symlink target link options) outcome (w.db.volume ws) (w'.db.volume ws) := by
  have hwf := hw.sound.wf
  constructor
  · rintro ⟨row, rfl | rfl⟩
    · have hwf' : WellFormed w'.db := hw.wellFormed (.Symlink target link options) h
      obtain ⟨_, hnot⟩ | ⟨parent, name, nodes, hrow, hlinks, hins, _, happ⟩ := symlink_tx_ok h
      · exact absurd rfl (hnot row)
      obtain ⟨parent_path, hup, hparent⟩ := hlinks.found
      obtain ⟨x, hx, hlive⟩ := resolve_following_live hparent
      obtain ⟨r, hr⟩ := IsRoot.of_live hlive
      obtain ⟨place, p, hp, rfl, hnames⟩ := Db.names hwf.nodes hw.linked hr hup hparent hlinks.dir
        hlinks.named
      have hfresh := hw.node_fresh (le_refl _)
      have hcreated := Db.entry_created (linkRow (rt.newId w.tick) ws p.id name target.as_str
        (rt.nowMs (w.tick + 1))).toRawNode hwf hfresh (fun a ha => happ.appended.attributes ▸ ha)
        rfl rfl rfl rfl
      have hvolume := Db.volume_insert hwf hwf' hr hp hins happ.appended.nodes
        happ.appended.attributes happ.appended.content_chunks happ.appended.trash rfl rfl
        (fetch_child_eq_none hlinks.free)
      rw [hcreated] at hvolume
      rw [hvolume]
      refine ⟨_, .symlink hnames ?_ (Db.volume_unused hwf hr hfresh), fun row' htells => ?_⟩
      · show (w.db.file_tree ws).lookup (place ++ [name]) = none
        rw [Db.lookup_child hwf.nodes hr hp, hlinks.free, Option.map_none]
      · obtain hsame | habsurd := htells
        · cases hsame
          cases hrow
          exact ⟨_, rfl, ⟨rfl, rfl, rfl, rfl, rfl, rfl, rfl, fun _ => rfl⟩⟩
        · cases habsurd
    · obtain ⟨rfl, _⟩ := symlink_tx_existing h
      obtain ⟨parent_path, parent, name, hup, hparent, hdir, hname, hchild, hkind, hexist, hfresh⟩ :=
        symlink_tx_found h
      obtain ⟨x, hx, hlive⟩ := resolve_following_live hparent
      obtain ⟨r, hr⟩ := IsRoot.of_live hlive
      obtain ⟨place, p, hp, rfl, hnames⟩ := Db.names hwf.nodes hw.linked hr hup hparent hdir hname
      refine ⟨_, .symlink_existing hnames ?_ (e := w'.db.entry row) hkind hexist hfresh,
        fun row' htells => ?_⟩
      · show (w'.db.file_tree ws).lookup _ = some _
        rw [Db.lookup_child hwf.nodes hr hp, hchild, Option.map_some]
      · obtain habsurd | hsame := htells
        · cases habsurd
        · cases hsame
          exact ⟨_, rfl, .entry _ _⟩
  · intro hnot
    obtain ⟨rfl, _⟩ | ⟨_, _, _, rfl, _⟩ := symlink_tx_ok h
    · rfl
    · exact absurd ⟨_, Or.inl rfl⟩ hnot

end fslite
