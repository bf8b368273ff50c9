import Fslite.Sqlite.Effect.Owned
import Fslite.Sqlite.Run.Ledger

namespace fslite

open resolve directory content mutate trash

/-- Two stores have the same rows of a workspace, in the same order: its own, its nodes,
its trash records and its changes. -/
structure SameRows (A : WorkspaceId) (db db' : Db) : Prop where
  workspace : db'.workspace? A = db.workspace? A
  nodes : db'.nodes.deleteWhere (fun n => n.workspace_id ≠ A) =
    db.nodes.deleteWhere (fun n => n.workspace_id ≠ A)
  trash : db'.trash.deleteWhere (fun t => t.workspace_id ≠ A) =
    db.trash.deleteWhere (fun t => t.workspace_id ≠ A)
  changes : db'.changes.deleteWhere (fun c => c.workspace_id ≠ A) =
    db.changes.deleteWhere (fun c => c.workspace_id ≠ A)

namespace SameRows

variable {A ws : WorkspaceId} {db db' db'' : Db}

theorem refl (A : WorkspaceId) (db : Db) : SameRows A db db := ⟨rfl, rfl, rfl, rfl⟩

theorem symm (h : SameRows A db db') : SameRows A db' db :=
  ⟨h.workspace.symm, h.nodes.symm, h.trash.symm, h.changes.symm⟩

theorem trans (h : SameRows A db db') (h' : SameRows A db' db'') : SameRows A db db'' :=
  ⟨h'.workspace.trans h.workspace, h'.nodes.trans h.nodes, h'.trash.trans h.trash,
    h'.changes.trans h.changes⟩

theorem mem_nodes (h : SameRows A db db') {n : NodeRow} (hn : n.workspace_id = A) :
    n ∈ db'.nodes ↔ n ∈ db.nodes := by
  have hkept : ∀ {t : Table NodeRow.key}, n ∈ t.deleteWhere (fun n => n.workspace_id ≠ A) ↔ n ∈ t :=
    fun {t} => Table.mem_deleteWhere.trans (and_iff_left (by simp [hn]))
  rw [← hkept, h.nodes, hkept]

/-- Only node rows of other workspaces come, go or change. -/
theorem of_nodes (hframed : Framed db db')
    (hnodes : db'.nodes.deleteWhere (fun n => n.workspace_id ≠ A) =
      db.nodes.deleteWhere (fun n => n.workspace_id ≠ A)) : SameRows A db db' where
  workspace := by rw [Db.workspace?, Db.workspace?, hframed.workspaces]
  nodes := hnodes
  trash := by rw [hframed.trash]
  changes := by rw [hframed.changes]

theorem insert {n : NodeRow} (hws : n.workspace_id ≠ A)
    (hins : db.nodes.insert n = some db'.nodes) (hframed : Framed db db') : SameRows A db db' :=
  of_nodes hframed (Table.deleteWhere_insert hins (decide_eq_true hws))

/-- A node of another workspace gets other columns. -/
theorem nodes_modify {n : NodeRow} {u : Table.Update NodeRow.key} (hn : n ∈ db.nodes)
    (hws : n.workspace_id ≠ A) (hu : (u.apply n).workspace_id = n.workspace_id) :
    (db.nodes.modify n.id u).deleteWhere (fun n => n.workspace_id ≠ A) =
      db.nodes.deleteWhere (fun n => n.workspace_id ≠ A) := by
  refine Table.deleteWhere_modify (fun m hm hkey => ?_)
  rw [db.node_ext hm hn hkey, hu]
  exact ⟨decide_eq_true hws, decide_eq_true hws⟩

theorem modify {n : NodeRow} {u : Table.Update NodeRow.key} (hn : n ∈ db.nodes)
    (hws : n.workspace_id ≠ A) (hu : (u.apply n).workspace_id = n.workspace_id)
    (hnodes : db'.nodes = db.nodes.modify n.id u) (hframed : Framed db db') :
    SameRows A db db' :=
  of_nodes hframed (by rw [hnodes, nodes_modify hn hws hu])

theorem appended (hws : ws ≠ A) (h : Appended ws db db') : SameRows A db db' := by
  have hnodes := h.nodes
  have htrash := h.trash
  obtain ⟨now, c, row, changes, _, hcws, _, hins, rfl⟩ := h
  refine ⟨?_, by rw [hnodes], by rw [htrash], ?_⟩
  · exact (Db.workspace?_bump_sequence db ws now A).trans (if_neg hws.symm)
  · exact Table.deleteWhere_insert hins (decide_eq_true (hcws ▸ hws))

/-- A subtree lies in one workspace, and so do its trash records. -/
theorem purge (hwf : WellFormed db) {n : NodeRow} (hn : n ∈ db.nodes)
    (hws : n.workspace_id ≠ A) : SameRows A db (db.purge n.id) := by
  have hbelow : ∀ m ∈ db.nodes, db.cascades n.id m.id = true → m.workspace_id ≠ A := by
    intro m hm hcascades
    rwa [Db.below_workspace hwf.nodes (Db.cascades_iff.mp hcascades) hm hn rfl rfl]
  refine ⟨rfl, ?_, ?_, rfl⟩
  · exact Table.deleteWhere_of_imp (fun m hm hgone => decide_eq_true (hbelow m hm hgone))
  · refine Table.deleteWhere_of_imp (fun t ht hgone => decide_eq_true ?_)
    obtain ⟨m, hm, hid, hmws, _⟩ := hwf.trash.record t ht
    exact hmws ▸ hbelow m hm (hid ▸ hgone)

theorem overwritten (hwf : WellFormed db) {target : VirtualPath} {overwrite : Bool}
    {parent : RawNode} {name : Text} {existing : Option RawNode}
    (h : Destined db ws target overwrite parent name existing) (hws : ws ≠ A) :
    SameRows A db (db.overwritten existing) := by
  cases existing with
  | none => exact refl A db
  | some occupant =>
    obtain ⟨n, rfl, hn, _⟩ := h.occupant_live
    exact purge hwf hn.mem (hn.workspace ▸ hws)

theorem clear (hws : ws ≠ A) : SameRows A db (db.clear ws) := by
  have hother : ∀ x : WorkspaceId, decide (x = ws) = true → decide (x ≠ A) = true := by
    intro x hx
    rw [decide_eq_true_eq] at hx ⊢
    exact hx ▸ hws
  exact ⟨rfl, Table.deleteWhere_of_imp (fun n _ => hother n.workspace_id),
    Table.deleteWhere_of_imp (fun t _ => hother t.workspace_id),
    Table.deleteWhere_of_imp (fun c _ => hother c.workspace_id)⟩

end SameRows

section operations

variable {rt : Runtime} {A ws : WorkspaceId} {w w' : World} {actor_json : Text}

theorem directory.Nested.sameRows {up last : NodeId} {path last_path : VirtualPath}
    {names : List Text} (hws : ws ≠ A) (h : Nested rt ws up path names w last last_path w') :
    SameRows A w.db w'.db := by
  induction h with
  | done => exact SameRows.refl A _
  | @make _ _ _ _ _ _ _ w _ _ nodes _ hins _ happ _ ih =>
    have hinserted : SameRows A w.db { w.db with nodes } :=
      SameRows.insert hws hins ⟨rfl, rfl, rfl⟩
    exact (hinserted.trans (SameRows.appended hws happ.appended)).trans ih

theorem content.Finalized.sameRows {path : VirtualPath} {g : GenerationId} {length : Nat}
    {params : FinalizeParams} {row : RawNode} (hws : ws ≠ A) (htrash : w'.db.trash = w.db.trash)
    (h : Finalized rt ws path g length params w w' row) : SameRows A w.db w'.db := by
  cases h with
  | @created _ parent name nodes habsent hparent_path hparent hdir hcreate hname hallowed hins htick happ =>
    have hinserted : SameRows A w.db { w.db.set_generation_complete g length with nodes } :=
      SameRows.insert hws hins ⟨rfl, rfl, rfl⟩
    exact hinserted.trans (SameRows.appended hws happ.appended)
  | @replaced n db hfound hlive hkind hstale hallowed htick happ hdrop hframe =>
    have hmodified : SameRows A w.db { w.db.set_generation_complete g length with
        nodes := w.db.nodes.modify n.id
          (content.replaced g length (n.revision + 1) (rt.nowMs w.tick)) } :=
      SameRows.modify hlive.mem (hlive.workspace ▸ hws) rfl rfl ⟨rfl, rfl, rfl⟩
    have hrecorded := hmodified.trans (SameRows.appended hws happ.appended)
    obtain ⟨hnodes, hworkspaces, hchanges⟩ := hframe
    refine ⟨?_, ?_, by rw [htrash], ?_⟩
    · rw [Db.workspace?, hworkspaces]
      exact hrecorded.workspace
    · rw [hnodes]
      exact hrecorded.nodes
    · rw [hchanges]
      exact hrecorded.changes

theorem mutate.copy_loop_sameRows {now : Int} {bound : Nat}
    {stack : List (RawNode × NodeId × Text)} {top : Option RawNode} {raw : RawNode} (hws : ws ≠ A)
    (h : copy_loop rt ws now bound stack top w = .ok (raw, w')) : SameRows A w.db w'.db := by
  refine copy_loop_induction (motive := fun _ _ _ w => SameRows A w.db w'.db) ?_ ?_ h
  · exact fun _ => SameRows.refl A _
  · intro _ old new_node up name stack first w w₁ hcopy _ ih
    obtain ⟨generation, _, hins, _, hframed⟩ := copy_node_ok hcopy
    have hinserted : SameRows A w.db w₁.db := SameRows.insert hws hins hframed
    exact hinserted.trans ih

theorem mutate.copy_subtree_sameRows {source raw : RawNode} {up : NodeId} {name : Text} {now : Int}
    (hws : ws ≠ A) (h : copy_subtree rt ws source up name now w = .ok (raw, w')) :
    SameRows A w.db w'.db := by
  unfold copy_subtree at h
  obtain ⟨full, w₁, hfull, hloop⟩ := Tx.bind_eq_ok.mp h
  obtain ⟨rfl, _⟩ := fetch_full_ok hfull
  rw [Tx.query_bind] at hloop
  exact copy_loop_sameRows hws hloop

theorem mutate.Attributed.sameRows {kind : ChangeKind} {path : VirtualPath} {node : RawNode}
    (hws : ws ≠ A) (hlive : IsLive w.db ws node) (h : Attributed rt ws kind path w w' node) :
    SameRows A w.db w'.db := by
  obtain ⟨n, rfl, hn⟩ := hlive
  obtain ⟨attributes, _, _, happ⟩ := h
  have hrevised : SameRows A w.db { w.db with
      attributes, nodes := w.db.nodes.modify n.id
        (revised (n.revision + 1) (rt.nowMs w.tick)) } :=
    SameRows.modify hn.mem (hn.workspace ▸ hws) rfl rfl ⟨rfl, rfl, rfl⟩
  exact hrevised.trans (SameRows.appended hws happ.appended)

theorem content.touch_tx_sameRows {path : VirtualPath} {options : TouchOptions}
    {outcome : TouchOutcome} (hws : ws ≠ A)
    (h : touch_tx rt ws path options actor_json w = .ok (outcome, w')) :
    SameRows A w.db w'.db := by
  cases hfound : resolve.resolve w.db ws path with
  | some node =>
    obtain ⟨rfl, _⟩ | ⟨n, row, _, _, hn, _, _, rfl⟩ := touch_existing_ok hfound h
    · exact SameRows.refl A _
    · exact SameRows.modify hn.mem (hn.workspace ▸ hws) rfl rfl ⟨rfl, rfl, rfl⟩
  | none =>
    obtain ⟨_, rfl, _⟩ | ⟨_, w₁, hgeneration, result, hfinal, _, _⟩ := touch_absent_ok hfound h
    · exact SameRows.refl A _
    · obtain ⟨gens, _, _, rfl⟩ := create_generation_ok hgeneration
      have hstaged : SameRows A w.db (Db.set_generation_complete (rt.newId w.tick) 0
          { w.db with content_generations := gens }) :=
        SameRows.of_nodes ⟨rfl, rfl, rfl⟩ rfl
      refine hstaged.trans ?_
      have htrash := finalize_tx_trash _ _ _ hfinal
      obtain ⟨rfl, _⟩ | ⟨row, _, hfinal⟩ := finalize_tx_ok hfinal
      · exact SameRows.refl A _
      · exact hfinal.sameRows hws htrash

/-- An operation leaves the rows of the other workspaces alone. -/
theorem transact_sameRows {operation : BatchOperation} {outcome : Outcome operation}
    (hwf : WellFormed w.db) (hws : ws ≠ A)
    (h : transact rt ws actor_json operation w = .ok (outcome, w')) : SameRows A w.db w'.db := by
  cases operation with
  | Mkdir path options =>
    obtain ⟨rfl, _⟩ | ⟨_, _, _, _, _, _, _, _, _, hnested⟩ :=
      mkdir_tx_ok hwf (fun s hs => VirtualPath.segment_of_mem hs) h
    · exact SameRows.refl A _
    · exact hnested.sameRows hws
  | Touch path options => exact touch_tx_sameRows hws h
  | Copy source target options =>
    obtain ⟨rfl, _⟩ | ⟨source, parent, name, existing, row, w₁, _, hcopies, hcopy, _, happ⟩ :=
      copy_tx_ok h
    · exact SameRows.refl A _
    · have hpurged : SameRows A w.db (w.db.overwritten existing) :=
        SameRows.overwritten hwf hcopies.dest hws
      exact (hpurged.trans (copy_subtree_sameRows hws hcopy)).trans
        (SameRows.appended hws happ.appended)
  | Move source target options =>
    obtain ⟨rfl, _⟩ | ⟨source, parent, name, existing, db, _, hmoves, hupdate, _, happ⟩ :=
      move_tx_ok h
    · exact SameRows.refl A _
    · obtain rfl := Db.update_node_ok hupdate
      have hpurged : SameRows A w.db (w.db.overwritten existing) :=
        SameRows.overwritten hwf hmoves.dest hws
      refine (hpurged.trans ?_).trans (SameRows.appended hws happ.appended)
      obtain ⟨n, rfl, hn⟩ := resolve_following_live hmoves.found
      refine SameRows.of_nodes ⟨rfl, rfl, rfl⟩ (Table.deleteWhere_modify (fun m hm hkey => ?_))
      rw [w.db.node_ext (overwritten_mem hm) hn.mem hkey]
      exact ⟨decide_eq_true (hn.workspace ▸ hws), decide_eq_true (hn.workspace ▸ hws)⟩
  | Remove path options =>
    obtain ⟨rfl, _⟩ | ⟨node, _, hremoves, _, happ⟩ := remove_tx_ok h
    · exact SameRows.refl A _
    · obtain ⟨n, rfl, hn⟩ := resolve_following_live hremoves.found
      exact (SameRows.purge hwf hn.mem (hn.workspace ▸ hws)).trans
        (SameRows.appended hws happ.appended)
  | Symlink target link options =>
    obtain ⟨rfl, _⟩ | ⟨parent, name, nodes, _, _, hins, _, happ⟩ := symlink_tx_ok h
    · exact SameRows.refl A _
    · have hinserted : SameRows A w.db { w.db with nodes } :=
        SameRows.insert hws hins ⟨rfl, rfl, rfl⟩
      exact hinserted.trans (SameRows.appended hws happ.appended)
  | Trash path options =>
    obtain ⟨rfl, _⟩ | ⟨node, up, records, _, htrashes, _, hins, _, happ⟩ := trash_tx_ok h
    · exact SameRows.refl A _
    · obtain ⟨n, rfl, hn⟩ := resolve_following_live htrashes.found
      have htrashed : SameRows A w.db { w.db with
          trash := records, nodes :=
            w.db.nodes.modify n.id (trashed (rt.nowMs (w.tick + 1))) } :=
        ⟨rfl, SameRows.nodes_modify hn.mem (hn.workspace ▸ hws) rfl,
          Table.deleteWhere_insert hins (decide_eq_true hws), rfl⟩
      exact htrashed.trans (SameRows.appended hws happ.appended)
  | Restore trash_id destination options =>
    obtain ⟨rfl, _⟩ | ⟨record, node, parent, name, db, row, _, hrestores, hupdate, _, happ, _⟩ :=
      restore_tx_ok h
    · exact SameRows.refl A _
    · obtain rfl := Db.update_node_ok hupdate
      obtain ⟨hrecord, hrecordws, rfl⟩ := fetch_trash_row_eq_some hrestores.recorded
      obtain ⟨n, hn, rfl, hnws, _⟩ := fetch_by_id_any_eq_some.mp hrestores.stored
      have hrestored : SameRows A w.db (Db.remove_trash record.id { w.db with
          nodes := w.db.nodes.modify n.id
            (restored parent.id name (n.revision + 1) (rt.nowMs w.tick)) }) := by
        refine ⟨rfl, SameRows.nodes_modify hn (hnws ▸ hws) rfl, ?_, rfl⟩
        refine Table.deleteWhere_of_imp (fun t ht hid => decide_eq_true ?_)
        rw [Table.eq_of_key_eq ht hrecord (of_decide_eq_true hid), hrecordws]
        exact hws
      exact hrestored.trans (SameRows.appended hws happ.appended)
  | Purge trash_id =>
    obtain ⟨rfl, _⟩ | ⟨record, _, hrecord, _, happ⟩ := purge_tx_ok h
    · exact SameRows.refl A _
    · obtain ⟨hmem, hrecordws, _⟩ := fetch_trash_row_eq_some hrecord
      obtain ⟨n, hn, hid, hnws, _⟩ := hwf.trash.record record hmem
      rw [← hid] at happ
      exact (SameRows.purge hwf hn (by rwa [hnws, hrecordws])).trans
        (SameRows.appended hws happ.appended)
  | SetAttribute path key value options =>
    obtain ⟨rfl, _⟩ | ⟨node, _, _, _, hfound, _, hattributed⟩ := set_attribute_tx_ok h
    · exact SameRows.refl A _
    · exact hattributed.sameRows hws (resolve_following_live hfound)
  | RemoveAttribute path key options =>
    obtain ⟨rfl, _⟩ | ⟨node, _, _, _, hfound, _, rfl | hattributed⟩ :=
      remove_attribute_tx_ok hwf.nodes h
    · exact SameRows.refl A _
    · exact SameRows.refl A _
    · exact hattributed.sameRows hws (resolve_following_live hfound)

end operations

/-- A node that is there after a step as it was before it is the same version. -/
theorem Effect.same_version {rt : Runtime} {P P' : Policy} {alone : Prop} {o : Option GenerationId}
    {w w' : World} (h : Effect rt P o w w') (hw : Sound rt P' alone w) {n : NodeRow}
    (hn : n ∈ w.db.nodes) (hn' : n ∈ w'.db.nodes) : SameVersion w.db n w'.db n := by
  have hold : ¬ Drawn rt w.tick w'.tick n.id := fun hlater => (hw.issued.node n hn).disjoint hlater
  exact (h.edits.version hw.wf (fun _ hid => Or.inr hid) hn hold n hn' rfl).2 rfl

/-- What a store holds of a workspace is the same in another one: its rows, the attributes
of its nodes and the contents of its files. -/
structure SamePart (A : WorkspaceId) (db db' : Db) : Prop where
  rows : SameRows A db db'
  attributes : ∀ n ∈ db.nodes, n.workspace_id = A → ∀ key,
    db'.attributes.find? (n.id, key) = db.attributes.find? (n.id, key)
  content : ∀ n ∈ db.nodes, n.workspace_id = A → ∀ g, n.content_generation_id = some g →
    SameContent db db' g

namespace SamePart

variable {A : WorkspaceId} {db db' db'' : Db}

theorem refl (A : WorkspaceId) (db : Db) : SamePart A db db :=
  ⟨SameRows.refl A db, fun _ _ _ _ => rfl, fun _ _ _ g _ => SameContent.refl db g⟩

theorem trans (h : SamePart A db db') (h' : SamePart A db' db'') : SamePart A db db'' where
  rows := h.rows.trans h'.rows
  attributes n hn hws key :=
    (h'.attributes n ((h.rows.mem_nodes hws).mpr hn) hws key).trans (h.attributes n hn hws key)
  content n hn hws g hg :=
    (h.content n hn hws g hg).trans (h'.content n ((h.rows.mem_nodes hws).mpr hn) hws g hg)

/-- Nodes that are there after somebody's step as they were before it have the attributes
and the content that they had. -/
theorem of_foreign {rt : Runtime} {P : Policy} {t : Option GenerationId} {w w' : World}
    (hrows : SameRows A w.db w'.db) (h : Foreign rt P t w w') : SamePart A w.db w'.db := by
  obtain ⟨hsound, o, _, _, heffect⟩ := h
  have hversion : ∀ n ∈ w.db.nodes, n.workspace_id = A → SameVersion w.db n w'.db n :=
    fun n hn hws => heffect.same_version hsound hn ((hrows.mem_nodes hws).mpr hn)
  exact ⟨hrows, fun n hn hws => (hversion n hn hws).attributes,
    fun n hn hws => (hversion n hn hws).content⟩

end SamePart

/-- The calls that name a workspace. -/
def DbCall.Addresses (A : WorkspaceId) : DbCall → Prop
  | .resolve ws _ => ws = A
  | .resolve_following ws _ _ => ws = A
  | .fetch_max_file_bytes ws => ws = A
  | .fetch_usage ws => ws = A
  | .fetch_changes_page ws _ _ => ws = A
  | .create_generation ws => ws = A
  | .finalize ws _ _ _ _ _ => ws = A
  | .transaction ws _ _ => ws = A
  | .batch ctx _ _ => ctx.workspace_id = A
  | .reset_workspace ws => ws = A
  | .delete_workspace ws => ws = A
  | _ => False

instance DbCall.decidableAddresses (A : WorkspaceId) : (o : DbCall) → Decidable (o.Addresses A)
  | .resolve ws _ | .resolve_following ws _ _ | .fetch_max_file_bytes ws | .fetch_usage ws
  | .fetch_changes_page ws _ _ | .create_generation ws | .finalize ws _ _ _ _ _
  | .transaction ws _ _ | .reset_workspace ws | .delete_workspace ws =>
    inferInstanceAs (Decidable (ws = A))
  | .batch ctx _ _ => inferInstanceAs (Decidable (ctx.workspace_id = A))
  | .fetch_chunk_bytes _ _ | .upsert_chunk _ _ _ | .copy_chunk_range _ _ _ _
  | .delete_generation _ | .create_workspace _ => instDecidableFalse

/-- A call that neither names a workspace nor creates it leaves its rows alone. -/
theorem DbCall.exec_sameRows {rt : Runtime} {A : WorkspaceId} {call : DbCall} {w : World}
    (hwf : WellFormed w.db) (hnot : ¬ call.Addresses A)
    (hold : (∃ row, w.db.workspace? A = some row) ∨
      ∀ options, call = .create_workspace options → A ≠ rt.newId w.tick) :
    SameRows A w.db (call.exec rt w).2.db := by
  unfold DbCall.exec
  cases hbody : call.body rt w with
  | error fault => exact SameRows.refl A _
  | ok result =>
    obtain ⟨answer, w'⟩ := result
    cases call with
    | resolve | resolve_following | fetch_max_file_bytes | fetch_usage | fetch_changes_page | fetch_chunk_bytes =>
      simp only [body, Tx.query_eq_ok] at hbody
      exact hbody.2 ▸ SameRows.refl A _
    | create_generation ws =>
      obtain ⟨gens, _, _, rfl⟩ := content.create_generation_ok hbody
      exact SameRows.of_nodes ⟨rfl, rfl, rfl⟩ rfl
    | upsert_chunk g index bytes =>
      obtain ⟨_, rfl⟩ := content.upsert_chunk_ok hbody
      exact SameRows.of_nodes ⟨rfl, rfl, rfl⟩ rfl
    | copy_chunk_range source g lower upper =>
      simp only [body, content.copy_chunk_range, Tx.execute_eq_ok] at hbody
      obtain ⟨db, hcopy, rfl⟩ := hbody
      obtain ⟨_, chunks, _, rfl⟩ := content.insert_chunks_ok hcopy
      exact SameRows.of_nodes ⟨rfl, rfl, rfl⟩ rfl
    | delete_generation g =>
      obtain rfl := content.delete_generation_ok hbody
      exact SameRows.of_nodes ⟨rfl, rfl, rfl⟩ rfl
    | finalize ws path g length params actor_json =>
      have htrash := finalize_tx_trash _ _ _ hbody
      obtain ⟨rfl, _⟩ | ⟨row, _, hfinal⟩ := content.finalize_tx_ok hbody
      · exact SameRows.refl A _
      · exact hfinal.sameRows hnot htrash
    | transaction ws operation actor_json => exact transact_sameRows hwf hnot hbody
    | batch ctx operations actor_json =>
      simp only
      split
      · exact mutate.batch_loop_keeps (I := SameRows A w.db) hwf (SameRows.refl A _)
          (fun hwf hsame h => hsame.trans (transact_sameRows hwf hnot h)) hbody
      · exact SameRows.refl A _
    | create_workspace options =>
      obtain ⟨created, nodes, workspaces, hid, _, _, _, _, _, hws, hins, rfl⟩ :=
        workspace.create_workspace_ok hbody
      have hother : created.id ≠ A := by
        rintro rfl
        obtain ⟨row, hrow⟩ | hne := hold
        · rw [Db.workspace?, (Table.insert_eq_some.mp hws).1] at hrow
          cases hrow
        · exact hne options rfl hid
      refine ⟨?_, Table.deleteWhere_insert hins (decide_eq_true hother), rfl, rfl⟩
      exact (Table.find?_insert hws A).trans (if_neg hother)
    | reset_workspace ws =>
      obtain ⟨rfl, _⟩ | ⟨_, nodes, _, _, hins, rfl⟩ := workspace.reset_workspace_ok hwf hbody
      · exact SameRows.refl A _
      · refine SameRows.trans (SameRows.clear hnot) ⟨?_, ?_, rfl, rfl⟩
        · exact (Db.workspace?_reset_sequence _ ws _ A).trans (if_neg (Ne.symm hnot))
        · exact Table.deleteWhere_insert hins (decide_eq_true hnot)
    | delete_workspace ws =>
      obtain rfl := workspace.delete_workspace_ok hwf hbody
      have hkept : (w.db.workspaces.find? A).filter (fun row => !decide (row.id = ws)) =
          w.db.workspaces.find? A := by
        cases hrow : w.db.workspaces.find? A with
        | none => rfl
        | some row =>
          rw [Option.filter_some, Table.key_of_find? hrow, decide_eq_false (Ne.symm hnot)]
          rfl
      exact SameRows.trans (SameRows.clear hnot)
        ⟨(Table.find?_deleteWhere _ _ A).trans hkept, rfl, rfl, rfl⟩

/-- The requests that reset or delete a workspace. -/
def Request.Administers (A : WorkspaceId) : Request → Prop
  | .DeleteWorkspace ws => ws = A
  | .ResetWorkspace ws => ws = A
  | _ => False

section elsewhere

variable {rt : Runtime} {A : WorkspaceId} {ctx : RequestContext}

/-- The method of an operation makes no call but its transaction. -/
theorem SqliteFileSystem.perform_all {φ : DbCall → Prop} {operation : BatchOperation}
    (h : φ (.transaction ctx.workspace_id operation (actor_json rt ctx))) :
    Failing.All φ (SqliteFileSystem.perform rt ctx operation) := by
  have hcall : ∀ {B : Type} (result : Outcome operation → FsResult B), Failing.All φ (do
      let outcome ← Task.call (.transaction ctx.workspace_id operation (actor_json rt ctx))
      Task.ofResult (result outcome)) :=
    fun _ => Failing.All.bind ⟨h, fun _ => trivial⟩ (fun _ => trivial)
  cases operation with
  | Mkdir path options =>
    refine Failing.All.map (Task.all_guarded (fun _ => ?_))
    split
    · exact Failing.All.throw
    · exact hcall _
  | Symlink target link options =>
    refine Failing.All.map (Task.all_guarded (fun _ => ?_))
    split
    · exact Failing.All.throw
    · exact hcall _
  | _ => exact Failing.All.map (Task.all_guarded (fun _ => hcall _))

theorem DbCall.Reads.elsewhere {o : DbCall} (hws : ctx.workspace_id ≠ A)
    (h : o.Reads ctx.workspace_id) : ¬ o.Addresses A := by
  cases o with
  | resolve ws path => exact fun heq => hws (h.symm.trans heq)
  | fetch_chunk_bytes => exact id
  | _ => exact h.elim

theorem DbCall.Stages.elsewhere {o : DbCall} (hws : ctx.workspace_id ≠ A)
    (h : o.Stages ctx.workspace_id) : ¬ o.Addresses A := by
  cases o with
  | resolve ws | fetch_max_file_bytes ws | create_generation ws | finalize ws =>
    exact fun heq => hws (h.symm.trans heq)
  | upsert_chunk | copy_chunk_range | fetch_chunk_bytes | delete_generation => exact id
  | _ => exact h.elim

/-- A request for another workspace never names this one on the connection. -/
theorem Request.serve_elsewhere (hws : ctx.workspace_id ≠ A) {request : Request}
    (hadmin : ¬ request.Administers A) :
    Failing.All (fun o => ¬ o.Addresses A) (request.serve rt ctx) := by
  have hcall : ∀ {o : DbCall}, ¬ o.Addresses A →
      Failing.All (fun o => ¬ o.Addresses A) (Task.call o) := fun h => ⟨h, fun _ => trivial⟩
  have hreads : ∀ {B : Type} {p : Prog DbCall.Res B}, p.All (DbCall.Reads ctx.workspace_id) →
      p.All (fun o => ¬ o.Addresses A) := fun h => Prog.All.mono h (fun _ h => h.elsewhere hws)
  have hstages : ∀ {B : Type} {p : Prog DbCall.Res B}, p.All (DbCall.Stages ctx.workspace_id) →
      p.All (fun o => ¬ o.Addresses A) := fun h => Prog.All.mono h (fun _ h => h.elsewhere hws)
  cases request with
  | CreateWorkspace options => exact Failing.All.map (hcall id)
  | DeleteWorkspace ws => exact Failing.All.map (hcall hadmin)
  | ResetWorkspace ws =>
    refine Failing.All.map (Failing.All.bind (hcall hadmin) (fun found => ?_))
    split
    · exact Failing.All.pure
    · exact Failing.All.throw
  | WorkspaceUsage =>
    refine Failing.All.map (Task.all_guarded (fun _ =>
      Failing.All.bind (hcall hws) (fun raw => ?_)))
    cases raw with
    | some raw => exact Failing.All.pure
    | none => exact Failing.All.throw
  | Stat path follow_symlinks =>
    refine Failing.All.map (Task.all_guarded (fun _ =>
      Failing.All.bind (hcall hws) (fun outcome => ?_)))
    cases outcome with
    | Found row => trivial
    | _ => exact Failing.All.throw
  | Read path options =>
    refine Failing.All.bind (Task.all_guarded (fun _ => hreads (DbCall.Reads.read path options)))
      (fun file => Failing.All.bind (Failing.All.lift ?_) (fun _ => Failing.All.pure))
    unfold FileRead.into_stream
    split
    · trivial
    · exact hreads (DbCall.Reads.drain _ _)
  | Write path source options =>
    exact Failing.All.map (Task.all_guarded (fun _ => hstages DbCall.Stages.write))
  | WriteAt path offset source options =>
    exact Failing.All.map (Task.all_guarded (fun _ => hstages DbCall.Stages.write_at_impl))
  | Append path source options =>
    refine Failing.All.map (Task.all_guarded (fun _ => hstages ?_))
    exact Failing.All.bind (DbCall.Stages.resolve_existing_file _)
      (fun _ => DbCall.Stages.write_at_impl)
  | Truncate path length options =>
    exact Failing.All.map (Task.all_guarded (fun _ => hstages DbCall.Stages.write_at_impl))
  | Perform operation => exact Failing.All.map (SqliteFileSystem.perform_all hws)
  | Batch operations =>
    exact Failing.All.map (Failing.All.bind (hcall hws) (fun _ => trivial))
  | Changes after page =>
    exact Failing.All.map (Task.all_guarded (fun _ => Failing.All.bind (p := Task.ofResult _) trivial
      (fun _ => Failing.All.bind (hcall hws) (fun _ => trivial))))

end elsewhere

/-- A request for another workspace. -/
def ServedElsewhere (rt : Runtime) (A : WorkspaceId)
    (p : Prog DbCall.Res (Except FsError Reply)) : Prop :=
  ∃ ctx request, ctx.workspace_id ≠ A ∧ ¬ Request.Administers A request ∧
    p = (request.serve rt ctx).run

theorem ServedElsewhere.served {rt : Runtime} {A : WorkspaceId}
    {p : Prog DbCall.Res (Except FsError Reply)} (h : ServedElsewhere rt A p) : Served rt p := by
  obtain ⟨ctx, request, _, _, rfl⟩ := h
  exact ⟨ctx, request, rfl⟩

theorem Reached.any {rt : Runtime} {may : System → Nat → DbCall → Prop} {c : System}
    (h : Reached rt may c) : Reached rt (fun c _ o => Policy.any.Allows rt c.state o) c :=
  h.mono (fun _ hp => hp) (fun c _ o _ => Policy.allows_any rt c.state o)

/-- Whatever the requests for other workspaces do, in any interleaving with each other and
with what the requests for this one do that does not name it, they leave what the store
holds of it alone. -/
theorem Reached.isolated {rt : Runtime} {may : System → Nat → DbCall → Prop} {A : WorkspaceId}
    {row : WorkspaceRow} {c d : System} (h : Reached rt may c)
    (hrow : c.state.db.workspace? A = some row)
    (hrun : Steps (DbCall.exec rt) (ServedElsewhere rt A)
      (fun _ i o => c.procs.length ≤ i ∨ ¬ o.Addresses A) c d) :
    SamePart A c.state.db d.state.db := by
  have hquiet : Steps (DbCall.exec rt) (ServedElsewhere rt A) (fun _ _ o => ¬ o.Addresses A) c d := by
    refine (hrun.arrived (φ := fun o => ¬ o.Addresses A) (fun p hp => ?_)).mono (fun _ hp => hp)
      (fun e i o hmay => hmay.1.elim hmay.2 id)
    obtain ⟨ctx, request, hws, hadmin, rfl⟩ := hp
    exact Request.serve_elsewhere hws hadmin
  clear hrun
  induction hquiet with
  | refl => exact SamePart.refl A _
  | @tail e f hsteps hstep ih =>
    have hmiddle : Reached rt (fun c _ o => Policy.any.Allows rt c.state o) e :=
      Relation.ReflTransGen.trans h.any (Steps.mono hsteps (fun _ hp => hp.served)
        (fun c _ o _ => Policy.allows_any rt c.state o))
    have hrow' : e.state.db.workspace? A = some row := ih.rows.workspace.trans hrow
    cases hstep with
    | arrive s ps p hp => exact ih
    | advance s ps i o next hproc hnot =>
      have hforeign := hmiddle.step_foreign hproc (Policy.allows_any rt s o)
      exact ih.trans (SamePart.of_foreign
        (DbCall.exec_sameRows hmiddle.sound.wf hnot (Or.inl ⟨row, hrow'⟩)) hforeign)

/-- Two workspaces, the first one with a file that has an attribute, and a write to that
workspace that has not stored its bytes. -/
def neighbourRequests : List (RequestContext × Request) :=
  [(.trusted 0, .CreateWorkspace {}), (.trusted 0, .CreateWorkspace {}),
    (.trusted 0, .Write (.named [['g']]) [.ok [7]] {}),
    (.trusted 0, .Perform (.SetAttribute (.named [['g']]) ['k'] [9] {})),
    (.trusted 0, .Write (.named [['f']]) [.ok [1, 2, 3]] {})]

def neighbourSchedule : List Nat := [0, 1, 2, 2, 2, 2, 3, 4, 4]

def neighbourSystem : System :=
  System.scheduled Runtime.counting neighbourRequests neighbourSchedule

/-- The second workspace gets a directory and a file while the write stores its bytes. -/
def neighbourRest : List (RequestContext × Request) :=
  [(.trusted 3, .Perform (.Mkdir (.named [['a']]) {})),
    (.trusted 3, .Write (.named [['f']]) [.ok [4, 5]] {})]

def neighbourEnd : System :=
  Config.schedule (DbCall.exec Runtime.counting) ⟨neighbourSystem.state,
    neighbourSystem.procs ++ neighbourRest.map (fun r => (r.2.serve Runtime.counting r.1).run)⟩
    [5, 4, 6, 6, 6, 6]

theorem neighbour_steps : Steps (DbCall.exec Runtime.counting) (ServedElsewhere Runtime.counting 0)
    (fun _ i o => neighbourSystem.procs.length ≤ i ∨ ¬ o.Addresses 0) neighbourSystem
    neighbourEnd := by
  have hnew : ∀ p ∈ neighbourRest.map (fun r => (r.2.serve Runtime.counting r.1).run),
      ServedElsewhere Runtime.counting 0 p := by
    intro p hp
    obtain ⟨r, hr, rfl⟩ := List.mem_map.mp hp
    simp only [neighbourRest, List.mem_cons, List.not_mem_nil, or_false] at hr
    obtain rfl | rfl := hr
    · exact ⟨_, .Perform _, by decide, id, rfl⟩
    · exact ⟨_, .Write _ _ _, by decide, id, rfl⟩
  exact Relation.ReflTransGen.trans (Steps.arrive_all hnew _ _) (Steps.schedule (by decide +kernel))

theorem neighbour_isolated :
    neighbourSystem.state.db.content_chunks.rows.map (fun chunk => chunk.bytes) = [[7]] ∧
    neighbourSystem.state.db.attributes.rows.map (fun a => a.value) = [[9]] ∧
    neighbourEnd.state.db.content_chunks.rows.map (fun chunk => chunk.bytes) =
      [[7], [1, 2, 3], [4, 5]] ∧
    SamePart 0 neighbourSystem.state.db neighbourEnd.state.db := by
  obtain ⟨row, hrow⟩ := Option.isSome_iff_exists.mp
    (show (neighbourSystem.state.db.workspace? 0).isSome = true by decide +kernel)
  exact ⟨by decide +kernel, by decide +kernel, by decide +kernel,
    (Reached.scheduled Runtime.counting neighbourRequests neighbourSchedule).isolated hrow
      neighbour_steps⟩

end fslite
