import Fslite.Sqlite.Refine.Create

namespace fslite

open resolve mutate

theorem Appended.volume {ws : WorkspaceId} {db db' : Db} (h : Appended ws db db') :
    db'.volume = db.volume := by
  funext ws'
  exact Db.volume_congr h.nodes h.attributes h.content_chunks h.trash ws'

namespace Db

variable {db : Db} {ws : WorkspaceId} {r n : NodeRow} {place : List Text}

theorem wellFormed_purge (hwf : WellFormed db) (hn : n ∈ db.nodes) (hup : n.parent_id ≠ none)
    (hkind : n.trashed_at_ms = none → Live db n.workspace_id n) : WellFormed (db.purge n.id) := by
  have hedits : Edits Policy.any (fun _ => False) (fun _ => False) db (db.purge n.id) :=
    Edits.single (.purge n hn hup hkind trivial)
  exact hedits.wellFormed (fun _ hid => hid) hwf

/-- Whoever purges a live node takes its branch out of the volume. -/
theorem volume_purge (hwf : WellFormed db) (hr : IsRoot db ws r) (h : Under db r place n)
    (hup : n.parent_id ≠ none) : ((db.purge n.id).volume ws).tree = (db.file_tree ws).remove place ∧
      (db.volume ws).Discards ((db.file_tree ws).branch place) (fun _ => False)
        ((db.purge n.id).bin ws) := by
  have hlive := h.live hwf.nodes (hr.live hwf.nodes)
  have hkind : n.trashed_at_ms = none → Live db n.workspace_id n :=
    fun _ => hlive.workspace.symm ▸ hlive
  have hwf' := wellFormed_purge hwf h.mem hup hkind
  refine ⟨file_tree_purge hwf hwf'.nodes hr hup h, ?_⟩
  rw [branch_of_under hwf.nodes hr h]
  exact bins_purge hwf hwf' h.mem hlive.workspace hkind
    (fun t ht => (ht.shape hwf).2.1 hlive.active)

end Db

variable {rt : Runtime} {ws : WorkspaceId} {w w' : World} {actor_json : Text}

theorem remove_refines {path : VirtualPath} {options : RemoveOptions} {outcome : RemoveOutcome}
    (hw : Standing rt w) (h : remove_tx rt ws path options actor_json w = .ok (outcome, w')) :
    Refines (.Remove path options) outcome (w.db.volume ws) (w'.db.volume ws) := by
  have hwf := hw.sound.wf
  obtain ⟨rfl, hnot⟩ | ⟨node, rfl, hremoves, _, happ⟩ := remove_tx_ok h
  · exact ⟨fun hdone => absurd hdone hnot, fun _ => rfl⟩
  refine ⟨fun _ => ?_, fun hnot => absurd rfl hnot⟩
  obtain ⟨_, _, hlive⟩ := resolve_following_live hremoves.found
  obtain ⟨r, hr⟩ := IsRoot.of_live hlive
  obtain ⟨place, n, hn, rfl, hfinds⟩ := Db.finds hwf.nodes hw.linked hr hremoves.found
  obtain ⟨htree, hbins⟩ := Db.volume_purge hwf hr hn
    (resolve_following_named hremoves.named hremoves.found)
  have hvolume : w'.db.volume ws =
      ⟨(w.db.file_tree ws).remove place, (w.db.purge n.id).bin ws⟩ := by
    rw [happ.appended.volume, ← htree]
    rfl
  rw [hvolume]
  refine ⟨none, .remove hremoves.named hfinds hremoves.fresh ?_ hbins, fun _ htells => htells.elim⟩
  intro hkind hrecursive name
  show (w.db.file_tree ws).lookup (place ++ [name]) = none
  rw [Db.lookup_child hwf.nodes hr hn]
  have hnone := hremoves.empty hkind hrecursive
  simp only [has_active_children, List.any_eq_false, decide_eq_true_eq] at hnone
  cases hchild : fetch_child w.db ws n.id name with
  | none => rfl
  | some child =>
    obtain ⟨m, hm, _, hws, hup, _, hactive⟩ := fetch_child_eq_some hchild
    exact absurd ⟨hws, hup, hactive⟩ (hnone m hm)

theorem trash.purge_refines {trash_id : TrashId} {outcome : PurgeOutcome} (hw : Standing rt w)
    (h : purge_tx rt ws trash_id actor_json w = .ok (outcome, w')) :
    Refines (.Purge trash_id) outcome (w.db.volume ws) (w'.db.volume ws) := by
  have hwf := hw.sound.wf
  obtain ⟨rfl, rfl⟩ | ⟨record, rfl, hrecord, _, happ⟩ := purge_tx_ok h
  · refine ⟨fun habsurd => ?_, fun _ => rfl⟩
    cases habsurd
  refine ⟨fun _ => ?_, fun hnot => absurd rfl hnot⟩
  obtain ⟨hmem, hws, rfl⟩ := fetch_trash_row_eq_some hrecord
  obtain ⟨n, hn⟩ := InTrash.of_record hwf hmem hws
  obtain ⟨hnws, htrashed, hup, _⟩ := hn.shape hwf
  obtain ⟨row, hrow⟩ := hwf.nodes.workspace n hn.mem
  obtain ⟨r, hr⟩ := IsRoot.of_workspace hwf.nodes (hnws ▸ hrow)
  have hkind : n.trashed_at_ms = none → Live w.db n.workspace_id n :=
    fun hactive => absurd hactive htrashed
  have hwf' := Db.wellFormed_purge hwf hn.mem (by simp [hup]) hkind
  have hvolume : w'.db.volume ws = ⟨w.db.file_tree ws, (w.db.purge n.id).bin ws⟩ := by
    rw [happ.appended.volume, ← hn.node, ← Db.file_tree_purge_trashed hwf hwf'.nodes hr hn.mem htrashed]
    rfl
  rw [hvolume]
  refine ⟨none, .purge (Db.bin_of_inTrash hwf hn) ?_ ?_, fun _ htells => htells.elim⟩
  · rw [Db.bin_eq_none hwf']
    rintro t ht _ hid
    obtain ⟨ht, hnot⟩ := Db.mem_purge_trash.mp ht
    obtain rfl := Table.eq_of_key_eq ht hmem hid
    exact hnot (hn.node ▸ Below.refl _ _)
  · refine Db.bins_purge hwf hwf' hn.mem hnws hkind (fun t ht => ?_)
    exact congrArg TrashRow.id (hwf.trash.unique t ht.record record hmem (ht.node.symm.trans hn.node))

end fslite
