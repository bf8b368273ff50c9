import Fslite.Sqlite.Refine.Content

namespace fslite

open resolve mutate

variable {rt : Runtime} {ws : WorkspaceId} {w w' : World} {actor_json : Text} {path : VirtualPath}

/-- An attribute that is replaced with the revision of its node changes one entry of the volume. -/
theorem mutate.Reattributed.performs {kind : ChangeKind} {node row : RawNode}
    {attributes : Table AttributeRow.pair}
    (h : Reattributed rt ws kind path w w' node row attributes) (key : Text) (value : Option Bytes)
    (hw : Standing rt w)
    (hwf' : WellFormed w'.db) (hfound : resolve_following w.db ws path false = .Found node)
    (hother : ∀ k, k ≠ (node.id, key) → attributes.find? k = w.db.attributes.find? k)
    (hvalue : (attributes.find? (node.id, key)).map AttributeRow.value = value) :
    ∃ place, FileTree.Finds (w.db.file_tree ws) false path place (w.db.entry node) ∧
      w'.db.volume ws = { w.db.volume ws with
        tree := (w.db.file_tree ws).update place (Entry.attributed key value (rt.nowMs w.tick)) } ∧
      ((w.db.entry node).attributed key value (rt.nowMs w.tick)).Describes row := by
  have hwf := hw.sound.wf
  obtain ⟨_, _, hlive⟩ := resolve_following_live hfound
  obtain ⟨r, hr⟩ := IsRoot.of_live hlive
  obtain ⟨place, n, hn, rfl, hfinds⟩ := Db.finds hwf.nodes hw.linked hr hfound
  have happ := h.recorded.appended
  have hnodes : w'.db.nodes =
      w.db.nodes.modify n.id (revised (n.revision + 1) (rt.nowMs w.tick)) := happ.nodes
  have hattributes : w'.db.attributes = attributes := happ.attributes
  have hchunks : w'.db.content_chunks = w.db.content_chunks := happ.content_chunks
  have hentry : ∀ m ∈ w.db.nodes, m.id ≠ n.id →
      w'.db.entry m.toRawNode = w.db.entry m.toRawNode := by
    intro m _ hid
    refine Db.entry_congr (fun k => ?_) (fun g _ i => by rw [hchunks])
    rw [Db.attribute, Db.attribute, hattributes, hother]
    exact fun heq => hid (congrArg Prod.fst heq)
  have hchanged : w'.db.entry
      ((revised (n.revision + 1) (rt.nowMs w.tick)).apply n).toRawNode =
      (w.db.entry n.toRawNode).attributed key value (rt.nowMs w.tick) := by
    unfold Db.entry Entry.attributed Entry.revised
    congr 1
    · funext k
      show (w'.db.attributes.find? (n.id, k)).map AttributeRow.value = _
      rw [hattributes, Function.update_apply]
      split
      · rename_i heq
        rw [heq]
        exact hvalue
      · rename_i hne
        rw [hother _ (fun heq => hne (congrArg Prod.snd heq))]
        rfl
    · funext i
      exact congrArg (fun t : Table ChunkRow.key => n.content_generation_id.bind
        (fun g => (t.find? (g, i)).map ChunkRow.bytes)) hchunks
  refine ⟨place, hfinds, Db.volume_modify hwf hwf' hr hn hnodes (fun n => ⟨rfl, rfl, rfl, rfl⟩)
    happ.trash hentry hchanged, ?_⟩
  obtain ⟨x, hx, rfl, _, hid, _⟩ := fetch_by_id_eq_some.mp h.stored
  rw [hnodes] at hx
  obtain rfl | ⟨_, hne⟩ := (Table.mem_modify_of_mem hn.mem).mp hx
  · exact ⟨rfl, rfl, rfl, rfl, rfl, rfl, rfl, fun _ => rfl⟩
  · exact absurd hid hne

theorem set_attribute_refines {key : Text} {value : Bytes} {options : MutationOptions}
    {outcome : AttributeOutcome} (hw : Standing rt w)
    (h : set_attribute_tx rt ws path key value options actor_json w = .ok (outcome, w')) :
    Refines (.SetAttribute path key value options) outcome (w.db.volume ws) (w'.db.volume ws) := by
  have hwf' : WellFormed w'.db :=
    hw.wellFormed (.SetAttribute path key value options) h
  obtain ⟨rfl, hnot⟩ | ⟨node, row, hfound, rfl, hfresh, ⟨hkey, hvalue, _⟩, hset⟩ :=
    set_attribute_tx_cases h
  · refine ⟨?_, fun _ => rfl⟩
    rintro ⟨row, attributes, hrow⟩
    exact absurd hrow (hnot row attributes)
  · refine ⟨fun _ => ?_, fun hnot => absurd ⟨row, _, rfl⟩ hnot⟩
    obtain ⟨place, hfinds, hvolume, hdescribes⟩ := hset.performs key (some value) hw
      hwf' hfound (fun k hk => by rw [Table.find?_upsert, if_neg (Ne.symm hk)])
      (by rw [Table.find?_upsert, if_pos rfl]; rfl)
    rw [hvolume]
    refine ⟨_, .set_attribute hfinds hfresh ?_ (not_lt.mp hvalue), fun row' htells => ?_⟩
    · exact ⟨fun hnil => hkey (Or.inl hnil), not_lt.mp (fun hlong => hkey (Or.inr hlong))⟩
    · obtain ⟨_, hsame⟩ := htells
      cases hsame
      exact ⟨_, rfl, hdescribes⟩

theorem remove_attribute_refines {key : Text} {options : MutationOptions}
    {outcome : AttributeOutcome} (hw : Standing rt w)
    (h : remove_attribute_tx rt ws path key options actor_json w = .ok (outcome, w')) :
    Refines (.RemoveAttribute path key options) outcome (w.db.volume ws) (w'.db.volume ws) := by
  have hwf := hw.sound.wf
  have hwf' : WellFormed w'.db := hw.wellFormed (.RemoveAttribute path key options) h
  obtain ⟨rfl, hnot⟩ | ⟨node, row, hfound, rfl, hfresh, hcase⟩ := remove_attribute_tx_cases h
  · refine ⟨?_, fun _ => rfl⟩
    rintro ⟨row, attributes, hrow⟩
    exact absurd hrow (hnot row attributes)
  refine ⟨fun _ => ?_, fun hnot => absurd ⟨row, _, rfl⟩ hnot⟩
  have hset : (w.db.entry node).attributes key =
      (w.db.attributes.find? (node.id, key)).map AttributeRow.value := rfl
  obtain ⟨hunset, rfl, rfl⟩ | ⟨hcontains, hremoved⟩ := hcase
  · obtain ⟨_, _, hlive⟩ := resolve_following_live hfound
    obtain ⟨r, hr⟩ := IsRoot.of_live hlive
    obtain ⟨place, n, hn, rfl, hfinds⟩ := Db.finds hwf.nodes hw.linked hr hfound
    have hnone : w'.db.attributes.find? (n.id, key) = none :=
      Option.isSome_eq_false_iff.mp hunset |> Option.isNone_iff_eq_none.mp
    refine ⟨_, .remove_attribute_absent hfinds hfresh (by rw [hset, hnone]; rfl),
      fun row' htells => ?_⟩
    obtain ⟨_, hsame⟩ := htells
    cases hsame
    exact ⟨_, rfl, .entry _ _⟩
  · have hfind : ∀ k, (w.db.remove_attribute_row node.id key).attributes.find? k =
        if k = (node.id, key) then none else w.db.attributes.find? k := by
      intro k
      show Table.find? (Table.deleteWhere _ _) k = _
      rw [Table.find?_deleteWhere]
      cases hrow : w.db.attributes.find? k with
      | none => simp
      | some a =>
        have hpair : (a.node_id, a.key) = k := (Table.find?_eq_some.mp hrow).2
        rw [← hpair]
        by_cases hsame : a.node_id = node.id ∧ a.key = key
        · simp [Option.filter, hsame]
        · simp [Option.filter, hsame, Prod.ext_iff]
    obtain ⟨place, hfinds, hvolume, hdescribes⟩ := hremoved.performs key none hw hwf'
      hfound (fun k hk => by rw [hfind, if_neg hk]) (by rw [hfind, if_pos rfl]; rfl)
    rw [hvolume]
    refine ⟨_, .remove_attribute hfinds hfresh ?_, fun row' htells => ?_⟩
    · rw [hset, Option.isSome_map]
      exact Table.contains_iff.mp hcontains |> Option.isSome_iff_exists.mpr
    · obtain ⟨_, hsame⟩ := htells
      cases hsame
      exact ⟨_, rfl, hdescribes⟩

end fslite
