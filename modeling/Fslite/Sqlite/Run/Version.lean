import Fslite.Sqlite.Effect.Growth
import Fslite.Sqlite.Run.Move

namespace fslite

open resolve directory content mutate trash

/-- The stores that an operation may find: reachable ones, and those between two
operations of a batch. -/
inductive Ongoing (rt : Runtime) : World → Prop where
  | start {w : World} (h : Reachable rt w) : Ongoing rt w
  | next {w w' : World} {ws : WorkspaceId} {actor_json : Text} {operation : BatchOperation}
    {result : BatchResult}
      (h : Ongoing rt w) (hstep : execute_batch_operation rt ws operation actor_json w = .ok
        (.Result result, w')) :
      Ongoing rt w'

theorem Ongoing.sound {rt : Runtime} {w : World} (h : Ongoing rt w) :
    Sound rt Policy.any False w := by
  induction h with
  | start h => exact h.sound
  | @next w w' ws actor_json operation result _ hstep ih =>
    obtain rfl | ⟨outcome, hrun⟩ := execute_batch_operation_ok hstep
    · exact ih
    · have heffect : Effect rt Policy.any none w w' :=
        transact_effect ih.wf (ih.laid not_false) (Policy.permits_any _ _ _) hrun
      exact ⟨heffect.wellFormed ih.wf, heffect.issued ih.issued, fun _ hlaid => hlaid.elim⟩

/-- No node's revision is raised by more than one. -/
def RaisedByOne (db db' : Db) : Prop :=
  ∀ n ∈ db.nodes, ∀ m ∈ db'.nodes, n.id = m.id → m.revision ≤ n.revision + 1

namespace RaisedByOne

variable {rt : Runtime} {db : Db} {w w' : World}

theorem refl (db : Db) : RaisedByOne db db := by
  intro n hn m hm hid
  rw [db.node_ext hm hn hid.symm]
  omega

/-- Nodes that come and go raise no revision. -/
theorem of_fresh (hissued : ∀ n ∈ w.db.nodes, Drawn rt 0 w.tick n.id)
    (h : ∀ m ∈ w'.db.nodes, m ∈ w.db.nodes ∨ Drawn rt w.tick w'.tick m.id) :
    RaisedByOne w.db w'.db := by
  intro n hn m hm hid
  obtain hm | hdrawn := h m hm
  · exact refl _ n hn m hm hid
  · exact ((hissued n hn).disjoint (hid ▸ hdrawn)).elim

/-- One row that is changed, after others may have gone. -/
theorem of_modify {db' : Db} {nodes : Table NodeRow.key} {id : NodeId}
    {u : Table.Update NodeRow.key} (hnodes : db'.nodes = nodes.modify id u)
    (hsub : ∀ m ∈ nodes, m ∈ db.nodes)
    (hraise : ∀ m ∈ db.nodes, m.id = id → (u.apply m).revision ≤ m.revision + 1) :
    RaisedByOne db db' := by
  intro n hn m hm hid
  rw [hnodes] at hm
  obtain ⟨x, hx, rfl⟩ := Table.mem_modify.mp hm
  have hsame : n = x := by
    refine db.node_ext hn (hsub x hx) (hid.trans ?_)
    split
    · exact u.key_apply x
    · rfl
  subst hsame
  split
  · rename_i hkey
    exact hraise n hn hkey
  · omega

end RaisedByOne

theorem directory.Nested.fresh {rt : Runtime} {ws : WorkspaceId} {up last : NodeId}
    {path last_path : VirtualPath} {names : List Text} {w w' : World}
    (h : Nested rt ws up path names w last last_path w') :
    w.tick ≤ w'.tick ∧ ∀ m ∈ w'.db.nodes, m ∈ w.db.nodes ∨ Drawn rt w.tick w'.tick m.id := by
  induction h with
  | done => exact ⟨le_refl _, fun m hm => Or.inl hm⟩
  | @make _ _ _ _ _ _ _ w w₁ w' _ _ hins htick happ _ ih =>
    obtain ⟨hle, hfresh⟩ := ih
    refine ⟨by omega, fun m hm => ?_⟩
    obtain hm | hdrawn := hfresh m hm
    · rw [happ.appended.nodes] at hm
      obtain hm | rfl := (Table.mem_insert hins).mp hm
      · exact Or.inl hm
      · exact Or.inr ⟨w.tick, le_refl _, by omega, rfl⟩
    · exact Or.inr (hdrawn.mono (by omega) (le_refl _))

theorem content.Finalized.raised {rt : Runtime} {ws : WorkspaceId} {path : VirtualPath}
    {g : GenerationId} {length : Nat} {params : FinalizeParams} {w w' : World} {row : RawNode}
    (hissued : ∀ n ∈ w.db.nodes, Drawn rt 0 w.tick n.id)
    (h : Finalized rt ws path g length params w w' row) : RaisedByOne w.db w'.db := by
  cases h with
  | created habsent hparent_path hparent hdir hcreate hname hallowed hins htick happ =>
    refine .of_fresh hissued (fun m hm => ?_)
    rw [happ.appended.nodes] at hm
    obtain hm | rfl := (Table.mem_insert hins).mp hm
    · exact Or.inl hm
    · exact Or.inr ⟨w.tick, le_refl _, by omega, rfl⟩
  | @replaced n db hfound hlive hkind hstale hallowed htick happ hdrop hframe =>
    refine .of_modify (hframe.1.trans happ.appended.nodes) (fun m hm => hm) (fun m hm hid => ?_)
    rw [w.db.node_ext hm hlive.mem hid]
    exact le_refl _

/-- An operation raises no revision by more than one. -/
theorem transact_raised {rt : Runtime} {ws : WorkspaceId} {actor_json : Text}
    {operation : BatchOperation} {outcome : Outcome operation} {w w' : World}
    (hwf : WellFormed w.db) (hissued : ∀ n ∈ w.db.nodes, Drawn rt 0 w.tick n.id)
    (h : transact rt ws actor_json operation w = .ok (outcome, w')) : RaisedByOne w.db w'.db := by
  have hrow : ∀ {raw : RawNode}, IsLive w.db ws raw → ∀ m ∈ w.db.nodes, m.id = raw.id →
      m.revision = raw.revision := by
    rintro raw ⟨n, rfl, hn⟩ m hm hid
    rw [w.db.node_ext hm hn.mem hid]
  have hattributed : ∀ {kind path node}, IsLive w.db ws node →
    Attributed rt ws kind path w w' node →
      RaisedByOne w.db w'.db := by
    rintro kind path node hlive ⟨attributes, _, _, happ⟩
    exact .of_modify happ.appended.nodes (fun m hm => hm)
      (fun m hm hid => by rw [hrow hlive m hm hid]; exact le_refl _)
  have hpurged : ∀ {db₁ : Db} {id : NodeId}, w'.db.nodes = db₁.nodes → db₁ = w.db.purge id →
      RaisedByOne w.db w'.db := by
    rintro db₁ id hnodes rfl
    exact .of_fresh hissued (fun m hm => Or.inl (Db.mem_purge_nodes.mp (hnodes ▸ hm)).1)
  cases operation with
  | Mkdir path options =>
    obtain ⟨rfl, _⟩ | ⟨_, _, _, _, _, _, _, _, _, hnested⟩ :=
      mkdir_tx_ok hwf (fun s hs => VirtualPath.segment_of_mem hs) h
    · exact .refl _
    · exact .of_fresh hissued hnested.fresh.2
  | Touch path options =>
    cases hfound : resolve.resolve w.db ws path with
    | some node =>
      obtain ⟨rfl, _⟩ | ⟨n, row, _, _, hlive, _, _, rfl⟩ := touch_existing_ok hfound h
      · exact .refl _
      · refine .of_modify rfl (fun m hm => hm) (fun m hm hid => ?_)
        rw [w.db.node_ext hm hlive.mem hid]
        exact le_refl _
    | none =>
      obtain ⟨_, rfl, _⟩ | ⟨_, w₁, hcreate, result, hfinal, _⟩ := touch_absent_ok hfound h
      · exact .refl _
      · obtain ⟨_, _, _, hw₁⟩ := create_generation_ok hcreate
        have hissued₁ : ∀ n ∈ w₁.db.nodes, Drawn rt 0 w₁.tick n.id := by
          rw [hw₁]
          exact fun n hn => (hissued n hn).mono (le_refl _) (Nat.le_add_right _ 2)
        have hraised : RaisedByOne w₁.db w'.db := by
          obtain ⟨rfl, _⟩ | ⟨row, _, hfinal⟩ := finalize_tx_ok hfinal
          · exact RaisedByOne.refl w₁.db
          · have hraised := hfinal.raised (by exact hissued₁)
            exact hraised
        rw [hw₁] at hraised
        exact hraised
  | Copy source target options =>
    obtain ⟨rfl, _⟩ | ⟨source, parent, name, existing, row, w₁, _, hcopies, hcopy, htick, happ⟩ :=
      copy_tx_ok h
    · exact .refl _
    · obtain ⟨full, generation, w₂, _, _, hins, htick₁, _, hgrown⟩ := copy_subtree_ok hcopy
      refine .of_fresh hissued (fun m hm => ?_)
      have htick₂ := hgrown.tick
      simp only at htick₁
      rw [happ.appended.nodes] at hm
      obtain hm | ⟨hdrawn, _⟩ := hgrown.added m hm
      · obtain hm | rfl := (Table.mem_insert hins).mp hm
        · exact Or.inl (overwritten_mem hm)
        · exact Or.inr ⟨w.tick + 1, by omega, by omega, rfl⟩
      · exact Or.inr (hdrawn.mono (by omega) (by omega))
  | Move source target options =>
    obtain ⟨rfl, _⟩ | ⟨source, parent, name, existing, db, _, hmoves, hupdate, _, happ⟩ :=
      move_tx_ok h
    · exact .refl _
    · obtain rfl := Db.update_node_ok hupdate
      exact .of_modify happ.appended.nodes (fun m hm => overwritten_mem hm) (fun m hm hid => by
        rw [hrow (resolve_following_live hmoves.found) m hm hid]
        exact le_refl _)
  | Remove path options =>
    obtain ⟨rfl, _⟩ | ⟨node, _, _, _, happ⟩ := remove_tx_ok h
    · exact .refl _
    · exact hpurged happ.appended.nodes rfl
  | Symlink target link options =>
    obtain ⟨rfl, _⟩ | ⟨parent, name, nodes, _, _, hins, htick, happ⟩ := symlink_tx_ok h
    · exact .refl _
    · refine .of_fresh hissued (fun m hm => ?_)
      rw [happ.appended.nodes] at hm
      obtain hm | rfl := (Table.mem_insert hins).mp hm
      · exact Or.inl hm
      · exact Or.inr ⟨w.tick, le_refl _, by omega, rfl⟩
  | Trash path options =>
    obtain ⟨rfl, _⟩ | ⟨node, up, records, _, _, _, _, _, happ⟩ := trash_tx_ok h
    · exact .refl _
    · exact .of_modify happ.appended.nodes (fun m hm => hm) (fun m hm hid => Nat.le_succ _)
  | Restore trash_id destination options =>
    obtain ⟨rfl, _⟩ | ⟨record, node, parent, name, db, row, _, hrestores, hupdate, _, happ, _⟩ :=
      restore_tx_ok h
    · exact .refl _
    · obtain rfl := Db.update_node_ok hupdate
      obtain ⟨n, hn, rfl, _, _⟩ := fetch_by_id_any_eq_some.mp hrestores.stored
      refine .of_modify happ.appended.nodes (fun m hm => hm) (fun m hm hid => ?_)
      rw [w.db.node_ext hm hn hid]
      exact le_refl _
  | Purge trash_id =>
    obtain ⟨rfl, _⟩ | ⟨record, _, _, _, happ⟩ := purge_tx_ok h
    · exact .refl _
    · exact hpurged happ.appended.nodes rfl
  | SetAttribute path key value options =>
    obtain ⟨rfl, _⟩ | ⟨node, _, _, _, hfound, _, h⟩ := set_attribute_tx_ok h
    · exact .refl _
    · exact hattributed (resolve_following_live hfound) h
  | RemoveAttribute path key options =>
    obtain ⟨rfl, _⟩ | ⟨node, _, _, _, hfound, _, rfl | h⟩ := remove_attribute_tx_ok hwf.nodes h
    · exact .refl _
    · exact .refl _
    · exact hattributed (resolve_following_live hfound) h

/-- So does a call that is no batch. -/
theorem DbCall.exec_raised {rt : Runtime} {call : DbCall} {w : World} (hwf : WellFormed w.db)
    (hissued : Issued rt w) (hsingle : ∀ ctx operations actor_json,
    call ≠ .batch ctx operations actor_json) :
    RaisedByOne w.db (call.exec rt w).2.db := by
  unfold DbCall.exec
  cases hbody : call.body rt w with
  | error fault => exact .refl _
  | ok result =>
    obtain ⟨answer, w'⟩ := result
    simp only
    split
    · cases call with
      | resolve | resolve_following | fetch_max_file_bytes | fetch_usage | fetch_changes_page | fetch_chunk_bytes =>
        simp only [body, Tx.query_eq_ok] at hbody
        exact hbody.2 ▸ .refl _
      | create_generation ws =>
        obtain ⟨_, _, _, rfl⟩ := create_generation_ok hbody
        exact RaisedByOne.refl w.db
      | upsert_chunk g index bytes =>
        obtain ⟨_, rfl⟩ := upsert_chunk_ok hbody
        exact RaisedByOne.refl w.db
      | copy_chunk_range source g lower upper =>
        simp only [body, content.copy_chunk_range, Tx.execute_eq_ok] at hbody
        obtain ⟨db, hcopy, rfl⟩ := hbody
        obtain ⟨_, chunks, _, rfl⟩ := insert_chunks_ok hcopy
        exact RaisedByOne.refl w.db
      | delete_generation g =>
        obtain rfl := delete_generation_ok hbody
        exact RaisedByOne.refl w.db
      | finalize ws path g length params actor_json =>
        obtain ⟨rfl, _⟩ | ⟨row, _, hfinal⟩ := finalize_tx_ok hbody
        · exact .refl _
        · exact hfinal.raised hissued.node
      | transaction ws operation actor_json => exact transact_raised hwf hissued.node hbody
      | batch ctx operations actor_json => exact absurd rfl (hsingle ctx operations actor_json)
      | create_workspace options =>
        obtain ⟨row, nodes, workspaces, _, _, _, _, _, _, _, hins, rfl⟩ :=
          workspace.create_workspace_ok hbody
        refine .of_fresh hissued.node (fun m hm => ?_)
        obtain hm | rfl := (Table.mem_insert hins).mp hm
        · exact Or.inl hm
        · exact Or.inr ⟨w.tick + 1, by simp, by simp, rfl⟩
      | reset_workspace ws =>
        obtain ⟨rfl, _⟩ | ⟨row, nodes, _, _, hins, rfl⟩ := workspace.reset_workspace_ok hwf hbody
        · exact .refl _
        · refine .of_fresh hissued.node (fun m hm => ?_)
          obtain hm | rfl := (Table.mem_insert hins).mp hm
          · exact Or.inl (Db.mem_clear_nodes.mp hm).1
          · exact Or.inr ⟨w.tick, le_refl _, by simp, rfl⟩
      | delete_workspace ws =>
        obtain rfl := workspace.delete_workspace_ok hwf hbody
        exact .of_fresh hissued.node (fun m hm => Or.inl (Db.mem_clear_nodes.mp hm).1)
    · exact .refl _

/-- Whatever others do, a node's revision never decreases, and as long as it is
the same, so is all that it stands for. -/
theorem Foreign.version {rt : Runtime} {P : Policy} {w w' : World}
    (h : Relation.ReflTransGen (Foreign rt P none) w w') {n : NodeRow} (hn : n ∈ w.db.nodes)
    (hissued : Drawn rt 0 w.tick n.id) : w.tick ≤ w'.tick ∧
      ∀ m ∈ w'.db.nodes, n.id = m.id →
        n.revision ≤ m.revision ∧ (n.revision = m.revision → SameVersion w.db n w'.db m) := by
  induction h with
  | refl =>
    refine ⟨le_refl _, fun m hm hid => ?_⟩
    rw [w.db.node_ext hm hn hid.symm]
    exact ⟨le_refl _, fun _ => SameVersion.refl _ _⟩
  | tail _ hstep ih =>
    obtain ⟨htick, hkept⟩ := ih
    obtain ⟨hsound, _, _, _, heffect⟩ := hstep
    refine ⟨htick.trans heffect.tick, fun m hm hid => ?_⟩
    obtain ⟨x, hx, hxid⟩ | hlater := heffect.edits.node_ids m hm
    · have hnx : n.id = x.id := hid.trans hxid.symm
      obtain ⟨hle, hsame⟩ := hkept x hx hnx
      obtain ⟨hle', hsame'⟩ := heffect.edits.version hsound.wf (fun _ hf => Or.inr hf) hx
        (fun hlater => (hsound.issued.node x hx).disjoint hlater) m hm hxid
      refine ⟨hle.trans hle', fun heq => ?_⟩
      exact (hsame (by omega)).trans (hsame' (by omega)) hnx
    · rw [← hid] at hlater
      exact ((hissued.mono (le_refl _) htick).disjoint hlater).elim

/-- What one step does to a node: it leaves everything that a revision stands for
alone, or raises the revision by exactly one. -/
def Versioned (db db' : Db) : Prop := ∀ n ∈ db.nodes, ∀ m ∈ db'.nodes, n.id = m.id →
  (n.revision = m.revision ∧ SameVersion db n db' m) ∨ m.revision = n.revision + 1

theorem Versioned.of_raised {db db' : Db} (hraised : RaisedByOne db db')
    (h : ∀ n ∈ db.nodes, ∀ m ∈ db'.nodes, n.id = m.id →
      n.revision ≤ m.revision ∧ (n.revision = m.revision → SameVersion db n db' m)) :
        Versioned db db' := by
  intro n hn m hm hid
  obtain ⟨hle, hsame⟩ := h n hn m hm hid
  have hraise := hraised n hn m hm hid
  by_cases heq : n.revision = m.revision
  · exact Or.inl ⟨heq, hsame heq⟩
  · exact Or.inr (by omega)

/-- Revisions version nodes: in every run a node's revision never decreases, two
stores in which it is the same agree on all that it stands for, and every
operation, on its own or in a batch, either leaves that alone or raises the
revision by exactly one. -/
theorem Reached.versioned {rt : Runtime} {c : System} (h : Reached rt (fun _ _ _ => True) c) :
    (∀ d, Steps (DbCall.exec rt) (Served rt) (fun _ _ _ => True) c d → ∀ n ∈ c.state.db.nodes,
    ∀ m ∈ d.state.db.nodes,
      n.id = m.id → n.revision ≤ m.revision ∧
      (n.revision = m.revision → SameVersion c.state.db n d.state.db m)) ∧
    (∀ (i : Nat) (call : DbCall) (next : DbCall.Res call → Prog DbCall.Res (Except FsError Reply)),
      c.procs[i]? = some (.call call next) →
        (∀ ctx operations actor_json, call ≠ .batch ctx operations actor_json) →
        Versioned c.state.db (call.exec rt c.state).2.db) ∧
    ∀ w, Ongoing rt w → ∀ ws actor_json operation outcome w',
      transact rt ws actor_json operation w = .ok (outcome, w') → Versioned w.db w'.db := by
  have hreached : Reached rt (fun c _ o => Policy.any.Allows rt c.state o) c :=
    h.mono (fun _ hp => hp) (fun c _ o _ => Policy.allows_any rt c.state o)
  have hsound := hreached.sound
  have hrun : ∀ d, Steps (DbCall.exec rt) (Served rt) (fun _ _ _ => True) c d →
    ∀ n ∈ c.state.db.nodes,
      ∀ m ∈ d.state.db.nodes, n.id = m.id →
        n.revision ≤ m.revision ∧
          (n.revision = m.revision → SameVersion c.state.db n d.state.db m) := by
    intro d hsteps n hn m hm hid
    have hforeign := hreached.steps_foreign
      (hsteps.mono (fun _ hp => hp) (fun c _ o _ => Policy.allows_any rt c.state o))
    exact (Foreign.version hforeign hn (hsound.issued.node n hn)).2 m hm hid
  refine ⟨hrun, fun i call next hproc hsingle => ?_,
    fun w hw ws actor_json operation outcome w' htransact => ?_⟩
  · exact .of_raised (DbCall.exec_raised hsound.wf hsound.issued hsingle)
      (hrun _ (Relation.ReflTransGen.single (.advance c.state c.procs i call next hproc trivial)))
  · have hsound := hw.sound
    have heffect : Effect rt Policy.any none w w' :=
      transact_effect hsound.wf (hsound.laid not_false) (Policy.permits_any _ _ _) htransact
    exact .of_raised (transact_raised hsound.wf hsound.issued.node htransact) (fun n hn =>
      heffect.edits.version hsound.wf (fun _ hf => Or.inr hf) hn
        (fun hlater => (hsound.issued.node n hn).disjoint hlater))

/-- The laws hold in a run that has made the directories `/a`, `/a/b` and `/c`. -/
theorem nested_versioned : ∃ c : System, c.state = nestedWorld ∧
    (∀ d, Steps (DbCall.exec Runtime.counting) (Served Runtime.counting) (fun _ _ _ => True) c d →
      ∀ n ∈ c.state.db.nodes, ∀ m ∈ d.state.db.nodes, n.id = m.id →
        n.revision ≤ m.revision ∧
        (n.revision = m.revision → SameVersion c.state.db n d.state.db m)) ∧
    (∀ (i : Nat) (call : DbCall) (next : DbCall.Res call → Prog DbCall.Res (Except FsError Reply)),
      c.procs[i]? = some (.call call next) →
        (∀ ctx operations actor_json, call ≠ .batch ctx operations actor_json) →
        Versioned c.state.db (call.exec Runtime.counting c.state).2.db) ∧
    ∀ w, Ongoing Runtime.counting w → ∀ ws actor_json operation outcome w',
      transact Runtime.counting ws actor_json operation w = .ok (outcome, w') →
        Versioned w.db w'.db := by
  obtain ⟨c, hreached, hstate⟩ := (Reachable.empty Runtime.counting).serveAll nestedRequests
  exact ⟨c, hstate, hreached.versioned⟩

end fslite
