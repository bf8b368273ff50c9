import Fslite.Sqlite.Refine.Create
import Fslite.Sqlite.Run.Content

namespace fslite

open resolve content

namespace Db

variable {db db' : Db} {ws : WorkspaceId} {r n : NodeRow} {place : List Text}

/-- A live row that keeps its place changes one entry of the volume. -/
theorem volume_modify (hwf : WellFormed db) (hwf' : WellFormed db') (hr : IsRoot db ws r)
    (h : Under db r place n) {u : Table.Update NodeRow.key}
    (hnodes : db'.nodes = db.nodes.modify n.id u)
    (hkeeps : ∀ n, (u.apply n).parent_id = n.parent_id ∧ (u.apply n).name = n.name ∧
      (u.apply n).trashed_at_ms = n.trashed_at_ms ∧ (u.apply n).workspace_id = n.workspace_id)
    (htrash : db'.trash = db.trash)
    (hentry : ∀ m ∈ db.nodes, m.id ≠ n.id → db'.entry m.toRawNode = db.entry m.toRawNode)
    {f : Entry → Entry} (hchanged : db'.entry (u.apply n).toRawNode = f (db.entry n.toRawNode)) :
    db'.volume ws = { db.volume ws with tree := (db.file_tree ws).update place f } := by
  have hlive := h.live hwf.nodes (hr.live hwf.nodes)
  have hmem : ∀ m, m ∈ db'.nodes ↔ m = u.apply n ∨ m ∈ db.nodes ∧ m.id ≠ n.id := by
    intro m
    rw [hnodes]
    exact Table.mem_modify_of_mem h.mem
  have hbins : db'.bin ws = db.bin ws := by
    refine bins_congr hwf hwf' htrash (fun t top htop => htop.same_of_live hwf hlive (u.key_apply n)
      hmem (fun up _ hup => ?_) hentry)
    obtain ⟨p, hp, _, hid⟩ := hlive.parent ((hkeeps n).1.symm.trans hup)
    exact ⟨p, hp, hid⟩
  unfold volume
  rw [file_tree_modify hwf.nodes hwf'.nodes hr h hnodes hkeeps hentry hchanged, hbins]

end Db

variable {rt : Runtime} {ws : WorkspaceId} {w w' : World} {actor_json : Text} {path : VirtualPath}

/-- A commit of the content that a file has already leaves the contents alone. -/
theorem content.finalize_tx_again {g : GenerationId} {length : Nat} {params : FinalizeParams}
    {outcome : FinalizeOutcome} {node : RawNode}
    (h : finalize_tx rt ws path g length params actor_json w = .ok (outcome, w'))
    (hfound : resolve.resolve w.db ws path = some node)
    (hg : node.content_generation_id = some g) : w'.db.attributes = w.db.attributes ∧
      w'.db.content_chunks = w.db.content_chunks ∧ w'.db.trash = w.db.trash := by
  simp only [finalize_tx, Tx.query_bind, hfound] at h
  split at h
  · obtain ⟨_, rfl⟩ := Tx.pure_eq_ok.mp h
    exact ⟨rfl, rfl, rfl⟩
  · split at h
    · obtain ⟨_, rfl⟩ := Tx.pure_eq_ok.mp h
      exact ⟨rfl, rfl, rfl⟩
    · simp only [Tx.now_ms_bind, Tx.execute_bind_eq_ok] at h
      obtain ⟨db, hupdate, h⟩ := h
      simp only [finalize_generation, Tx.execute_bind_eq_ok, Except.ok.injEq, exists_eq_left',
        hg, ne_eq, not_true_eq_false, if_false] at h
      obtain ⟨_, w₁, happ, h⟩ := Tx.bind_eq_ok.mp h
      obtain ⟨_, rfl⟩ := Tx.pure_eq_ok.mp h
      obtain ⟨_, happ⟩ := change.append_ok happ
      obtain rfl := Db.update_node_ok hupdate
      exact ⟨happ.appended.attributes, happ.appended.content_chunks, happ.appended.trash⟩

/-- The commit of a staged content writes it to the volume. -/
theorem content.Finalized.writes {g : GenerationId} {length : Nat} {params : FinalizeParams}
    {row : RawNode} (h : Finalized rt ws path g length params w w' row) (hwf : WellFormed w.db)
    (hwf' : WellFormed w'.db) (hfresh : ∀ n ∈ w.db.nodes, n.id ≠ rt.newId w.tick)
    (hagain : ∀ node, resolve.resolve w.db ws path = some node →
      node.content_generation_id = some g → w'.db.attributes = w.db.attributes ∧
        w'.db.content_chunks = w.db.content_chunks ∧ w'.db.trash = w.db.trash) :
    ∃ e, e.Describes row ∧
      Volume.Writes path params length
        (fun i => (w.db.content_chunks.find? (g, i)).map ChunkRow.bytes) (w.db.volume ws)
        (w'.db.volume ws) e := by
  cases h with
  | @created parent_path parent name nodes habsent hparent_path hparent hdir hcreate hname hallowed
      hins htick happ =>
    obtain ⟨x, hx, hlive⟩ := resolve_live hparent
    obtain ⟨r, hr⟩ := IsRoot.of_live hlive
    obtain ⟨p, hp, rfl⟩ := Db.under_of_resolve hwf.nodes hr hparent
    obtain ⟨up, hup, hsegments⟩ := VirtualPath.parent_of_name hname
    obtain rfl := Option.some.inj (hup.symm.trans hparent_path)
    have hfree : w.db.Free ws p.id name := by
      intro m hm hws hmup hmname
      exact hallowed.free rfl p.id rfl m hm (hfresh m hm) hws hmup hmname
    have hvolume := Db.volume_insert hwf hwf' hr hp hins happ.appended.nodes
      happ.appended.attributes happ.appended.content_chunks happ.appended.trash rfl rfl hfree
    rw [Db.entry_created (fileRow (rt.newId w.tick) ws p.id name g length
      (rt.nowMs (w.tick + 1))).toRawNode hwf hfresh (fun a ha => happ.appended.attributes ▸ ha)
      rfl rfl rfl rfl]
      at hvolume
    have hchunks : (w'.db.entry (fileRow (rt.newId w.tick) ws p.id name g length
        (rt.nowMs (w.tick + 1))).toRawNode).chunks =
        fun i => (w.db.content_chunks.find? (g, i)).map ChunkRow.bytes := by
      funext i
      show (w'.db.content_chunks.find? (g, i)).map ChunkRow.bytes = _
      rw [happ.appended.content_chunks]
      rfl
    rw [hchunks] at hvolume
    have hnone : (w.db.volume ws).tree.lookup path.segments = none := by
      show (w.db.file_tree ws).lookup path.segments = none
      rw [Db.lookup_file_tree, habsent, Option.map_none]
    rw [hvolume]
    refine ⟨_, ?_, .created hcreate hnone hsegments (Db.lookup_of_under hwf.nodes hr hp) hdir
      (Db.volume_unused hwf hr hfresh)⟩
    exact ⟨rfl, rfl, rfl, rfl, rfl, rfl, rfl, fun _ => rfl⟩
  | @replaced n db hfound hlive hkind hstale hallowed htick happ hdrop hframe =>
    obtain ⟨old, hold⟩ := Option.ne_none_iff_exists'.mp (hwf.contents.file n hlive.mem hkind)
    have hattributes : w'.db.attributes = w.db.attributes ∧ w'.db.trash = w.db.trash := by
      by_cases hne : old = g
      · obtain ⟨hattributes, _, htrash⟩ := hagain _ hfound (hne ▸ hold)
        exact ⟨hattributes, htrash⟩
      · rw [hdrop old hold hne]
        exact ⟨happ.appended.attributes, happ.appended.trash⟩
    -- what goes is the content that the file has had, unless it is the same one
    have hchunk : ∀ g' i, g' = g ∨ g' ≠ old →
        w'.db.content_chunks.find? (g', i) = w.db.content_chunks.find? (g', i) := by
      intro g' i hg'
      by_cases hne : old = g
      · rw [(hagain _ hfound (hne ▸ hold)).2.1]
      · have hother : g' ≠ old := hg'.elim (fun heq => heq ▸ Ne.symm hne) id
        rw [hdrop old hold hne, Db.chunk_drop, if_neg hother, happ.appended.content_chunks]
        rfl
    obtain ⟨r, hr⟩ := IsRoot.of_live hlive
    obtain ⟨m, hm, hraw⟩ := Db.under_of_resolve hwf.nodes hr hfound
    obtain rfl := w.db.node_ext hm.mem hlive.mem (congrArg RawNode.id hraw)
    have hother : ∀ x ∈ w.db.nodes, x.id ≠ m.id →
        w'.db.entry x.toRawNode = w.db.entry x.toRawNode := by
      intro x hx hid
      refine Db.entry_congr (fun key => by rw [Db.attribute, Db.attribute, hattributes.1])
        (fun g' hg' i => hchunk g' i (Or.inr ?_))
      rintro rfl
      exact hid (congrArg (fun n => n.id) (hwf.contents.unshared x hx m hm.mem _ hg' hold))
    have hchanged : w'.db.entry
        ((content.replaced g length (m.revision + 1) (rt.nowMs w.tick)).apply m).toRawNode =
        (w.db.entry m.toRawNode).written length
          (fun i => (w.db.content_chunks.find? (g, i)).map ChunkRow.bytes) (rt.nowMs w.tick) := by
      unfold Db.entry Entry.written Entry.touched
      congr 1
      · funext key
        exact congrArg (fun t => (t.find? (m.id, key)).map AttributeRow.value) hattributes.1
      · funext i
        show (w'.db.content_chunks.find? (g, i)).map ChunkRow.bytes = _
        rw [hchunk g i (Or.inl rfl)]
    rw [Db.volume_modify hwf hwf' hr hm (hframe.1.trans happ.appended.nodes)
      (fun n => ⟨rfl, rfl, rfl, rfl⟩) hattributes.2 hother hchanged]
    refine ⟨_, ?_, .replaced (Db.lookup_of_under hwf.nodes hr hm) hkind hstale⟩
    refine ⟨rfl, hkind.symm, rfl, rfl, rfl, rfl, rfl, fun hlink => ?_⟩
    cases hkind.symm.trans hlink

theorem touch_refines {options : TouchOptions} {outcome : TouchOutcome} (hw : Standing rt w)
    (h : touch_tx rt ws path options actor_json w = .ok (outcome, w')) :
    Refines (.Touch path options) outcome (w.db.volume ws) (w'.db.volume ws) := by
  have hwf := hw.sound.wf
  have hwf' : WellFormed w'.db := hw.wellFormed (.Touch path options) h
  cases hfound : resolve.resolve w.db ws path with
  | some node =>
    obtain ⟨rfl, hnot⟩ | ⟨n, row, ⟨rfl, _, hrow⟩, rfl, hlive, hkind, hstale, hdb⟩ :=
      touch_existing_ok hfound h
    · refine ⟨?_, fun _ => rfl⟩
      rintro ⟨row, rfl | rfl⟩ <;> exact absurd trivial hnot
    · refine ⟨fun _ => ?_, fun hnot => absurd ⟨row, Or.inl rfl⟩ hnot⟩
      obtain ⟨r, hr⟩ := IsRoot.of_live hlive
      obtain ⟨m, hm, hraw⟩ := Db.under_of_resolve hwf.nodes hr hfound
      obtain rfl := w.db.node_ext hm.mem hlive.mem (congrArg RawNode.id hraw)
      subst hdb
      have hvolume := Db.volume_modify hwf hwf' hr hm rfl (fun n => ⟨rfl, rfl, rfl, rfl⟩) rfl
        (fun x _ _ => rfl) (f := Entry.touched (rt.nowMs w.tick)) rfl
      rw [hvolume]
      refine ⟨_, .touch (Db.lookup_of_under hwf.nodes hr hm) hkind hstale, fun row' htells => ?_⟩
      obtain hsame | habsurd := htells
      · cases hsame
        obtain ⟨x, hx, rfl, _, hid, _⟩ := fetch_by_id_eq_some.mp hrow
        obtain rfl | ⟨_, hne⟩ := (Table.mem_modify_of_mem hm.mem).mp hx
        · exact ⟨_, rfl, ⟨rfl, rfl, rfl, rfl, rfl, rfl, rfl, fun _ => rfl⟩⟩
        · exact absurd hid hne
      · cases habsurd
  | none =>
    obtain ⟨_, rfl, rfl⟩ | ⟨hcreate, w₁, hgeneration, result, hfinal, happlied, hdone⟩ :=
      touch_absent_ok hfound h
    · refine ⟨?_, fun _ => rfl⟩
      rintro ⟨row, habsurd | habsurd⟩ <;> cases habsurd
    · obtain ⟨gens, _, hins, hw₁⟩ := create_generation_ok hgeneration
      have heffect₁ : Effect rt Policy.any none w w₁ := create_generation_effect hgeneration
      have hstaged : Staged Policy.any w₁.db ws (rt.newId w.tick) 0 :=
        staged_of_create hwf hgeneration
      have heffect₂ : Effect rt Policy.any none w
          { w₁ with db := w₁.db.set_generation_complete (rt.newId w.tick) 0 } :=
        ⟨heffect₁.tick, heffect₁.edits.tail (.complete _
          (Or.inr ⟨w.tick, le_refl _, by simp [hw₁], rfl⟩) hstaged.unreferenced 0)⟩
      have hwf₂ := heffect₂.wellFormed hwf
      have hsame : (w₁.db.set_generation_complete (rt.newId w.tick) 0).volume ws =
          w.db.volume ws := by
        subst hw₁
        apply Db.volume_congr <;> rfl
      constructor
      · rintro hsucceeds
        obtain ⟨row, rfl⟩ := hdone.mp (by obtain ⟨_, rfl | rfl⟩ := hsucceeds <;> trivial)
        obtain rfl := happlied row rfl
        have hrun := hfinal
        obtain ⟨_, hnot⟩ | ⟨_, hrow, hfinal⟩ := finalize_tx_ok hfinal
        · exact absurd rfl (hnot row)
        cases hrow
        obtain ⟨e, hdescribes, hwrites⟩ := hfinal.writes hwf₂ hwf' (fun n hn =>
          hw.node_fresh heffect₁.tick n (by subst hw₁; exact hn))
          (fun _ => content.finalize_tx_again hrun)
        have hempty : (fun i => ((w₁.db.set_generation_complete (rt.newId w.tick)
            0).content_chunks.find? (rt.newId w.tick, i)).map ChunkRow.bytes) = fun _ => none := by
          funext i
          cases hchunk : w.db.content_chunks.find? (rt.newId w.tick, i) with
          | none =>
            subst hw₁
            exact congrArg (Option.map ChunkRow.bytes) hchunk
          | some c =>
            obtain ⟨hc, hkey⟩ := Table.find?_eq_some.mp hchunk
            obtain ⟨row, hrow⟩ := hwf.contents.chunk c hc
            rw [show c.generation_id = rt.newId w.tick from congrArg Prod.fst hkey,
              hw.sound.issued.generation_fresh] at hrow
            cases hrow
        rw [hempty, hsame] at hwrites
        generalize hv' : w'.db.volume ws = v' at hwrites
        cases hwrites with
        | created _ habsent hsplit hplace hdir hunused =>
          refine ⟨_, .touch_new hcreate habsent hsplit hplace hdir hunused, fun row' htells => ?_⟩
          obtain habsurd | hsame := htells
          · cases habsurd
          · cases hsame
            exact ⟨_, rfl, hdescribes⟩
        | replaced hfound' =>
          rw [show (w.db.volume ws).tree = w.db.file_tree ws from rfl, Db.lookup_file_tree, hfound]
            at hfound'
          cases hfound'
      · intro hnot
        obtain ⟨rfl, _⟩ | ⟨row, rfl, _⟩ := finalize_tx_ok hfinal
        · exact hsame
        · exact absurd ⟨row, Or.inr (happlied row rfl)⟩ hnot

end fslite
