import Fslite.Sqlite.Refine.Remove

namespace fslite

open resolve mutate

namespace Volume

/-- Where there is nothing nothing is discarded. -/
theorem Discards.of_none {v : Volume} {part : FileTree} (h : part.lookup [] = none)
    (but : TrashId → Prop) : v.Discards part but v.bins := by
  have hnot : ∀ trash_id, ¬ v.Gone part trash_id := by
    intro trash_id hgone
    induction hgone with
    | @home _ _ q _ _ hat =>
      rw [← List.nil_append q, Hierarchy.lookup_append_of_none h] at hat
      cases hat
    | inner _ _ _ _ _ ih => exact ih
  exact fun trash_id _ => ⟨fun hgone => absurd hgone (hnot trash_id), fun _ => rfl⟩

end Volume

namespace mutate.Destined

variable {db : Db} {ws : WorkspaceId} {target : VirtualPath} {overwrite : Bool} {parent : RawNode}
  {name : Text} {existing : Option RawNode} {r p : NodeRow} {place : List Text}

/-- The destination, as the tree has it. -/
theorem names (h : Destined db ws target overwrite parent name existing) (hwf : NodesWellFormed db)
    (hlinked : db.Linked) (hr : IsRoot db ws r) : ∃ place p, Under db r place p ∧
      p.toRawNode = parent ∧
      Volume.Names (db.file_tree ws) target place name (db.entry parent) := by
  obtain ⟨parent_path, hup, hfound⟩ := h.found
  exact Db.names hwf hlinked hr hup hfound h.dir h.named

theorem allowed_iff (h : Destined db ws target overwrite p.toRawNode name existing)
    (hwf : NodesWellFormed db) (hr : IsRoot db ws r) (hp : Under db r place p)
    (hoccupied : ((db.file_tree ws).lookup (place ++ [name])).isSome) : overwrite = true := by
  rw [Db.lookup_child hwf hr hp, Option.isSome_map, h.occupant] at hoccupied
  exact h.allowed hoccupied

/-- The overwriting takes away what is at the destination. -/
theorem volume_overwritten (h : Destined db ws target overwrite p.toRawNode name existing)
    (hwf : WellFormed db) (hr : IsRoot db ws r) (hp : Under db r place p) :
    ((db.overwritten existing).volume ws).tree = (db.file_tree ws).remove (place ++ [name]) ∧
      (db.volume ws).Discards ((db.file_tree ws).branch (place ++ [name])) (fun _ => False)
        ((db.overwritten existing).bin ws) := by
  cases existing with
  | none =>
    have hnone : (db.file_tree ws).lookup (place ++ [name]) = none := by
      rw [Db.lookup_child hwf.nodes hr hp, h.occupant, Option.map_none]
    refine ⟨(Hierarchy.remove_of_none hnone).symm, Volume.Discards.of_none ?_ _⟩
    rw [Hierarchy.lookup_branch, List.append_nil, hnone]
  | some occupant =>
    obtain ⟨n, rfl, hn, hup, rfl⟩ := h.occupant_live
    exact Db.volume_purge hwf hr (.child hp hn.mem hup hn.active) (by simp [hup])

theorem wellFormed (h : Destined db ws target overwrite parent name existing)
    (hwf : WellFormed db) : WellFormed (db.overwritten existing) := by
  have hedits : Edits Policy.any (fun _ => False) (fun _ => False) db (db.overwritten existing) :=
    h.edits (fun _ _ => trivial)
  exact hedits.wellFormed (fun _ hid => hid) hwf

/-- The directory keeps its place when its entry is overwritten. -/
theorem under_overwritten (h : Destined db ws target overwrite p.toRawNode name existing)
    (hr : IsRoot db ws r) (hp : Under db r place p) :
    IsRoot (db.overwritten existing) ws r ∧ Under (db.overwritten existing) r place p := by
  cases existing with
  | none => exact ⟨hr, hp⟩
  | some occupant =>
    obtain ⟨n, rfl, hn, hup, _⟩ := h.occupant_live
    have hnot := hn.acyclic hup
    refine ⟨⟨Db.mem_purge_nodes.mpr ⟨hr.mem, hr.not_below (by simp [hup]) hn.mem⟩, hr.workspace,
      hr.root⟩, Under.purge_iff.mpr ⟨hp, hnot⟩⟩

end mutate.Destined

/-- What the overwriting leaves keeps its place. -/
theorem mutate.under_overwritten_iff {db : Db} {existing : Option RawNode} {r m : NodeRow}
    {q : List Text} : Under (db.overwritten existing) r q m ↔
      Under db r q m ∧ m ∈ (db.overwritten existing).nodes := by
  constructor
  · intro h
    refine ⟨?_, h.mem⟩
    cases existing with
    | none => exact h
    | some occupant => exact (Under.purge_iff.mp h).1
  · rintro ⟨h, hm⟩
    cases existing with
    | none => exact h
    | some occupant => exact Under.purge_iff.mpr ⟨h, (Db.mem_purge_nodes.mp hm).2⟩

/-- A live row that gets another place takes its branch with it. -/
theorem Db.volume_relocate {db db' : Db} {ws : WorkspaceId} {r s p : NodeRow}
    {source place : List Text} (hwf : WellFormed db) (hwf' : WellFormed db') (hr : IsRoot db ws r)
    (hs : Under db r source s) (hup : s.parent_id ≠ none) (hp : Under db r place p)
    {u : Table.Update NodeRow.key} (hnodes : db'.nodes = db.nodes.modify s.id u)
    (hparent : (u.apply s).parent_id = some p.id) (hactive : (u.apply s).trashed_at_ms = none)
    (hfree : db.Free ws p.id (u.apply s).name) (htrash : db'.trash = db.trash)
    (hentry : db'.entry = db.entry) {f : Entry → Entry}
    (hchanged : db.entry (u.apply s).toRawNode = f (db.entry s.toRawNode)) : db'.volume ws =
      ⟨((db.file_tree ws).remove source).graft (((db.file_tree ws).branch source).update [] f) place
        (u.apply s).name, db.bin ws⟩ := by
  have hroot := hr.live hwf.nodes
  have hlive := hs.live hwf.nodes hroot
  have hmem : ∀ m, m ∈ db'.nodes ↔ m = u.apply s ∨ m ∈ db.nodes ∧ m.id ≠ s.id := fun m => by
    rw [hnodes]
    exact Table.mem_modify_of_mem hs.mem
  have hself : ∀ rest m, rest ≠ [] → Under db s rest m → m.id ≠ s.id := by
    intro rest m hne hm hid
    obtain rfl := db.node_ext hm.mem hs.mem hid
    have hplace := hs.place_unique hroot (Under.append_iff.mpr ⟨m, hs, hm⟩)
    exact hne (List.append_cancel_left (hplace.symm.trans (List.append_nil source).symm))
  have hrest : ∀ q e, ((db.file_tree ws).remove source).lookup q = some e ↔
      ∃ m, (Under db r q m ∧ ¬ Below db.parent m.id s.id) ∧ db.entry m.toRawNode = e := by
    intro q e
    rw [Hierarchy.lookup_remove_eq_some, file_tree_eq_some hwf.nodes hr]
    constructor
    · rintro ⟨hnot, m, hm, he⟩
      exact ⟨m, ⟨hm, mt (hs.prefix_iff_below hwf.nodes hroot hm).mpr hnot⟩, he⟩
    · rintro ⟨m, ⟨hm, hnot⟩, he⟩
      exact ⟨mt (hs.prefix_iff_below hwf.nodes hroot hm).mp hnot, m, hm, he⟩
  have hother : ∀ m ∈ db.nodes, m.id ≠ s.id → db'.entry m.toRawNode = db.entry m.toRawNode :=
    fun m _ _ => by rw [hentry]
  have htree := branch_rehang hwf.nodes hwf'.nodes hr.mem hr.workspace
    (fun hm hm' => hm.place_unique hroot hm') hs.mem hlive.workspace (u.key_apply s) hmem hself
    (hr.not_below hup hs.mem) hp hparent hactive
    (fun m hm hws hmup hname hmactive => absurd hmactive (hfree m hm hws hmup hname)) hother
    ((congrFun hentry _).trans hchanged) hrest
  have hr' : IsRoot db' ws r := by
    refine ⟨(hmem r).mpr (Or.inr ⟨hr.mem, fun hid => hup ?_⟩), hr.workspace, hr.root⟩
    rw [← db.node_ext hr.mem hs.mem hid, hr.root]
  have hbins : db'.bin ws = db.bin ws := by
    refine bins_congr hwf hwf' htrash (fun t top htop => htop.same_of_live hwf hlive (u.key_apply s)
      hmem (fun up _ hup => ?_) hother)
    exact ⟨p, hp.live hwf.nodes hroot, Option.some.inj (hparent.symm.trans hup)⟩
  unfold volume
  rw [file_tree_eq_branch hwf'.nodes hr', htree, hbins, branch_of_under hwf.nodes hr hs]

variable {rt : Runtime} {ws : WorkspaceId} {w w' : World} {actor_json : Text}

theorem move_refines {source_path target : VirtualPath} {options : MoveOptions}
    {outcome : MoveOutcome} (hw : Standing rt w)
    (h : move_tx rt ws source_path target options actor_json w = .ok (outcome, w')) :
    Refines (.Move source_path target options) outcome (w.db.volume ws) (w'.db.volume ws) := by
  have hwf := hw.sound.wf
  have hwf' := hw.wellFormed (.Move source_path target options) h
  obtain ⟨rfl, hnot⟩ | ⟨source, parent, name, existing, db, rfl, hmoves, hupdate, _, happ⟩ :=
    move_tx_ok h
  · refine ⟨?_, fun _ => rfl⟩
    rintro ⟨row, hrow⟩
    exact absurd hrow (hnot row)
  refine ⟨fun _ => ?_, fun hnot => absurd ⟨_, rfl⟩ hnot⟩
  obtain ⟨_, _, hlive⟩ := resolve_following_live hmoves.found
  obtain ⟨r, hr⟩ := IsRoot.of_live hlive
  obtain ⟨source_place, s, hs, rfl, hfinds⟩ := Db.finds hwf.nodes hw.linked hr hmoves.found
  obtain ⟨place, p, hp, rfl, hnames⟩ := hmoves.dest.names hwf.nodes hw.linked hr
  obtain rfl := Db.update_node_ok hupdate
  have hdest := hmoves.dest
  have hwf₁ := hdest.wellFormed hwf
  obtain ⟨hr₁, hp₁⟩ := hdest.under_overwritten hr hp
  obtain ⟨htree, hbins⟩ := hdest.volume_overwritten hwf hr hp
  have hnodes : w'.db.nodes = (w.db.overwritten existing).nodes.modify s.id _ := happ.appended.nodes
  have hentry : w'.db.entry = (w.db.overwritten existing).entry :=
    Db.entry_eq happ.appended.attributes happ.appended.content_chunks
  have hvolume : w'.db.volume ws = ⟨
      (((w.db.file_tree ws).remove (place ++ [name])).remove source_place).graft
        ((((w.db.file_tree ws).remove (place ++ [name])).branch source_place).update []
          (Entry.revised (rt.nowMs w.tick))) place name, (w.db.overwritten existing).bin ws⟩ := by
    rw [← htree]
    by_cases hstored : s ∈ (w.db.overwritten existing).nodes
    · exact Db.volume_relocate hwf₁ hwf' hr₁ (under_overwritten_iff.mpr ⟨hs, hstored⟩)
        (resolve_following_named hmoves.named hmoves.found) hp₁ hnodes rfl
        (hs.live hwf.nodes (hr.live hwf.nodes)).active
        (hdest.free hwf) happ.appended.trash hentry rfl
    · -- the source has been overwritten, and nothing is left of it to be moved
      have hlost : ((w.db.overwritten existing).file_tree ws).lookup source_place = none := by
        rw [Option.eq_none_iff_forall_not_mem]
        intro e he
        obtain ⟨m, hm, _⟩ := (Db.file_tree_eq_some hwf₁.nodes hr₁).mp he
        obtain rfl := hs.unique hwf.nodes (under_overwritten_iff.mp hm).1
        exact hstored hm.mem
      have hsame : (w.db.overwritten existing).nodes.modify s.id
          (moved p.id name (s.revision + 1) (rt.nowMs w.tick)) =
          (w.db.overwritten existing).nodes := by
        refine Table.modify_eq_self (Table.find?_eq_none.mpr (fun m hm hid => hstored ?_))
        rwa [← w.db.node_ext (overwritten_mem hm) hs.mem hid]
      have htree' : ((w.db.overwritten existing).volume ws).tree =
          (w.db.overwritten existing).file_tree ws := rfl
      rw [happ.appended.volume, hsame, htree', Hierarchy.remove_of_none hlost,
        Hierarchy.graft_of_none]
      · rfl
      · rw [← htree', htree, Hierarchy.lookup_remove_self]
      · rw [Hierarchy.lookup_update_self, Hierarchy.lookup_branch, List.append_nil, hlost]
        rfl
  rw [hvolume]
  refine ⟨_, .move hmoves.named hfinds hmoves.fresh hmoves.outside hnames
    (hdest.allowed_iff hwf.nodes hr hp) hbins, fun row htells => ?_⟩
  cases htells
  exact ⟨_, rfl, ⟨rfl, rfl, rfl, rfl, rfl, rfl, rfl, fun _ => rfl⟩⟩

end fslite
