import Fslite.Sqlite.Effect.Call
import Fslite.Sqlite.Effect.Growth

namespace fslite

open resolve directory content mutate trash

/-- Every stored generation is some node's content. -/
def Db.Owned (db : Db) : Prop :=
  ∀ g row, db.generation? g = some row → ∃ n ∈ db.nodes, n.content_generation_id = some g

namespace Db.Owned

variable {db db' : Db}

/-- The generations that stay keep a node, and no other ones come. -/
theorem frame (h : db.Owned) (hgen : ∀ g row, db'.generation? g = some row → ∃ old,
    db.generation? g = some old)
    (hnode : ∀ n ∈ db.nodes, ∀ g row, n.content_generation_id = some g →
    db'.generation? g = some row →
      ∃ m ∈ db'.nodes, m.content_generation_id = some g) : db'.Owned := by
  intro g row hrow
  obtain ⟨old, hold⟩ := hgen g row hrow
  obtain ⟨n, hn, hng⟩ := h g old hold
  exact hnode n hn g row hng hrow

theorem congr (h : db.Owned) (hnodes : db'.nodes = db.nodes)
    (hgens : db'.content_generations = db.content_generations) :
    db'.Owned := by
  unfold Db.Owned generation?
  rw [hnodes, hgens]
  exact h

theorem appended {ws : WorkspaceId} (h : db.Owned) (happ : Appended ws db db') : db'.Owned :=
  h.congr happ.nodes happ.content_generations

theorem insert {n : NodeRow} (h : db.Owned) (hins : db.nodes.insert n = some db'.nodes)
    (hgens : db'.content_generations = db.content_generations) : db'.Owned := by
  refine h.frame (fun g row hrow => ⟨row, ?_⟩)
    (fun m hm g _ hmg _ => ⟨m, (Table.mem_insert hins).mpr (Or.inl hm), hmg⟩)
  rwa [generation?, hgens] at hrow

/-- A changed row that keeps its content. -/
theorem modify {id : NodeId} {u : Table.Update NodeRow.key} (h : db.Owned)
    (hnodes : db'.nodes = db.nodes.modify id u)
    (hu : ∀ n, (u.apply n).content_generation_id = n.content_generation_id)
    (hgens : db'.content_generations = db.content_generations) : db'.Owned := by
  refine h.frame (fun g row hrow => ⟨row, ?_⟩) (fun n hn g _ hng _ => ?_)
  · rwa [generation?, hgens] at hrow
  · rw [hnodes]
    refine ⟨_, Table.mem_modify.mpr ⟨n, hn, rfl⟩, ?_⟩
    split
    · rw [hu, hng]
    · exact hng

/-- What stays after a purge is not below the purged node. -/
theorem purge (h : db.Owned) (id : NodeId) : (db.purge id).Owned := by
  refine h.frame (fun g row hrow => ?_)
    (fun n hn g row hng hrow => ⟨n, Db.mem_purge_nodes.mpr ⟨hn, fun hbelow => ?_⟩, hng⟩)
  · rw [generation?_purge] at hrow
    split at hrow
    · cases hrow
    · exact ⟨row, hrow⟩
  · rw [generation?_purge, if_pos (mem_subtree_generations.mpr ⟨n, hn, hbelow, hng⟩)] at hrow
    cases hrow

theorem overwritten (h : db.Owned) (existing : Option RawNode) :
    (db.overwritten existing).Owned := by
  cases existing with
  | none => exact h
  | some occupant => exact h.purge occupant.id

/-- A content and its node are of one workspace, and go together. -/
theorem clear (h : db.Owned) (hwf : ContentsWellFormed db) (ws : WorkspaceId) :
    (db.clear ws).Owned := by
  refine h.frame (fun g row hrow => ?_)
    (fun n hn g row hng hrow => ⟨n, Db.mem_clear_nodes.mpr ⟨hn, fun hws => ?_⟩, hng⟩)
  · rw [generation?_clear, Option.filter_eq_some_iff] at hrow
    exact ⟨row, hrow.1⟩
  · obtain ⟨_, old, hold, _, _, holdws⟩ := hwf.generation n hn g hng
    rw [generation?_clear, Option.filter_eq_some_iff, hold, Option.some.injEq] at hrow
    obtain ⟨rfl, hkept⟩ := hrow
    rw [holdws, hws] at hkept
    simp at hkept

end Db.Owned

theorem Db.generation?_complete_other {db : Db} {g g' : GenerationId} {length : Nat}
    (hne : g' ≠ g) :
    (db.set_generation_complete g length).generation? g' = db.generation? g' := by
  rw [Db.generation?_set_complete, if_neg hne]

/-- A `touch` reports a file. -/
def BatchOperation.Reports : (operation : BatchOperation) → Outcome operation → Prop
  | .Touch .., outcome => TouchOutcome.Done outcome
  | _, _ => True

section operations

variable {rt : Runtime} {ws : WorkspaceId} {w w' : World} {actor_json : Text}

theorem directory.Nested.owned {up last : NodeId} {path last_path : VirtualPath} {names : List Text}
    (h : Nested rt ws up path names w last last_path w') (howned : w.db.Owned) : w'.db.Owned := by
  induction h with
  | done => exact howned
  | @make _ _ _ _ _ _ _ w _ _ nodes _ hins _ happ _ ih =>
    have hinserted : Db.Owned { w.db with nodes } := howned.insert hins rfl
    exact ih (hinserted.appended happ.appended)

/-- Committing the one generation that is nobody's content makes it somebody's. -/
theorem content.Finalized.owned {path : VirtualPath} {g : GenerationId} {length : Nat}
    {params : FinalizeParams} {row : RawNode}
    (hfile : ∀ n ∈ w.db.nodes, n.kind = .File → n.content_generation_id ≠ none)
    (hunref : w.db.Unreferenced g) (hrest : (w.db.drop g).Owned)
    (h : Finalized rt ws path g length params w w' row) : w'.db.Owned := by
  have hothers : ∀ g' row', g' ≠ g → w.db.generation? g' = some row' → ∃ n ∈ w.db.nodes,
      n.content_generation_id = some g' := by
    intro g' row' hne hrow'
    refine hrest g' row' ?_
    rw [Db.generation?_drop, if_neg hne, hrow']
  cases h with
  | @created _ parent name nodes habsent hparent_path hparent hdir hcreate hname hallowed hins htick happ =>
    suffices hinserted : Db.Owned
      { w.db.set_generation_complete g length with nodes } from hinserted.appended happ.appended
    intro g' row' hrow'
    by_cases hg : g' = g
    · exact ⟨_, (Table.mem_insert hins).mpr (Or.inr rfl), congrArg some hg.symm⟩
    · obtain ⟨n, hn, hng⟩ := hothers g' row' hg ((Db.generation?_complete_other hg).symm.trans hrow')
      exact ⟨n, (Table.mem_insert hins).mpr (Or.inl hn), hng⟩
  | @replaced n db hfound hlive hkind hstale hallowed htick happ hdrop hframe =>
    obtain ⟨old, hold⟩ := Option.ne_none_iff_exists'.mp (hfile n hlive.mem hkind)
    have hne : old ≠ g := fun heq => hunref n hlive.mem (heq ▸ hold)
    have hnodes : w'.db.nodes = w.db.nodes.modify n.id
      (content.replaced g length (n.revision + 1) (rt.nowMs w.tick)) :=
      hframe.1.trans happ.appended.nodes
    intro g' row' hrow'
    rw [hdrop old hold hne, Db.generation?_drop] at hrow'
    split at hrow'
    · cases hrow'
    · rename_i hg'
      rw [hnodes]
      by_cases hg : g' = g
      · exact ⟨_, (Db.mem_modify_nodes hlive.mem).mpr (Or.inl rfl), congrArg some hg.symm⟩
      · have hkept : db.generation? g' = w.db.generation? g' := by
          rw [Db.generation?, happ.appended.content_generations]
          exact Db.generation?_complete_other hg
        obtain ⟨m, hm, hmg⟩ := hothers g' row' hg (hkept.symm.trans hrow')
        refine ⟨m, (Db.mem_modify_nodes hlive.mem).mpr (Or.inr ⟨hm, fun hkey => hg' ?_⟩), hmg⟩
        rw [w.db.node_ext hm hlive.mem hkey, hold] at hmg
        exact (Option.some.inj hmg).symm

/-- The content of a copied node is the only generation that is new. -/
theorem mutate.copy_content_generations {old : RawNode} {result : Option GenerationId}
    (h : copy_content rt ws old w = .ok (result, w')) {g : GenerationId} {row : GenerationRow}
    (hrow : w'.db.generation? g = some row) :
    result = some g ∨ ∃ before, w.db.generation? g = some before := by
  obtain ⟨_, _, rfl⟩ | ⟨source, gens, chunks, _, rfl, hcreate, _, rfl⟩ := copy_content_cases h
  · exact Or.inr ⟨row, hrow⟩
  · obtain ⟨_, _, hgens, heq⟩ := content.create_generation_ok hcreate
    cases heq
    by_cases hg : g = rt.newId w.tick
    · exact Or.inl (congrArg some hg.symm)
    · have hinserted := (Db.generation?_insert hgens g).trans (if_neg (Ne.symm hg))
      exact Or.inr ⟨row, hinserted.symm.trans ((Db.generation?_complete_other hg).symm.trans hrow)⟩

theorem mutate.copy_node_owned {now : Int} {old raw : RawNode} {up : NodeId} {name : Text}
    (howned : w.db.Owned) (h : copy_node rt ws now old up name w = .ok (raw, w')) :
    w'.db.Owned := by
  simp only [copy_node, Tx.new_id_bind] at h
  obtain ⟨generation, w₁, hcontent, h⟩ := Tx.bind_eq_ok.mp h
  simp only [Tx.execute_bind_eq_ok] at h
  obtain ⟨db, hinsert, db', hattributes, h⟩ := h
  obtain ⟨rfl, rfl⟩ := Tx.pure_eq_ok.mp h
  obtain ⟨_, hnodes, _⟩ := copy_content_ok hcontent
  obtain ⟨nodes, hins, rfl⟩ := Db.insert_node_ok hinsert
  obtain ⟨attributes, rfl, _⟩ := insert_attributes_ok hattributes
  intro g row hrow
  obtain rfl | ⟨before, hbefore⟩ := copy_content_generations hcontent hrow
  · exact ⟨_, (Table.mem_insert hins).mpr (Or.inr rfl), rfl⟩
  · obtain ⟨n, hn, hng⟩ := howned g before hbefore
    exact ⟨n, (Table.mem_insert hins).mpr (Or.inl (hnodes ▸ hn)), hng⟩

theorem mutate.copy_loop_owned {now : Int} {bound : Nat} {stack : List (RawNode × NodeId × Text)}
    {top : Option RawNode} {raw : RawNode} (howned : w.db.Owned)
    (h : copy_loop rt ws now bound stack top w = .ok (raw, w')) : w'.db.Owned := by
  induction bound generalizing stack top w with
  | zero =>
    cases stack with
    | nil =>
      obtain ⟨_, rfl⟩ := Tx.expect_eq_ok.mp h
      exact howned
    | cons item stack => exact absurd h Tx.fail_ne_ok
  | succ bound ih =>
    cases stack with
    | nil =>
      obtain ⟨_, rfl⟩ := Tx.expect_eq_ok.mp h
      exact howned
    | cons item stack =>
      unfold copy_loop at h
      obtain ⟨new_node, w₁, hcopy, h⟩ := Tx.bind_eq_ok.mp h
      simp only [Tx.query_bind] at h
      exact ih (copy_node_owned howned hcopy) h

theorem mutate.copy_subtree_owned {source raw : RawNode} {up : NodeId} {name : Text} {now : Int}
    (howned : w.db.Owned) (h : copy_subtree rt ws source up name now w = .ok (raw, w')) :
    w'.db.Owned := by
  unfold copy_subtree at h
  obtain ⟨full, w₁, hfull, hloop⟩ := Tx.bind_eq_ok.mp h
  obtain ⟨rfl, _⟩ := fetch_full_ok hfull
  rw [Tx.query_bind] at hloop
  exact copy_loop_owned howned hloop

theorem mutate.Attributed.owned {kind : ChangeKind} {path : VirtualPath} {node : RawNode}
    (howned : w.db.Owned) (h : Attributed rt ws kind path w w' node) : w'.db.Owned := by
  obtain ⟨attributes, _, _, happ⟩ := h
  have hrevised : Db.Owned { w.db with
      attributes, nodes := w.db.nodes.modify node.id
        (revised (node.revision + 1) (rt.nowMs w.tick)) } :=
    howned.modify rfl (fun _ => rfl) rfl
  exact hrevised.appended happ.appended

/-- A `touch` that reports a file leaves no generation without a node. -/
theorem content.touch_tx_owned {path : VirtualPath} {options : TouchOptions}
    {outcome : TouchOutcome} (hwf : WellFormed w.db) (howned : w.db.Owned) (hdone : outcome.Done)
    (h : touch_tx rt ws path options actor_json w = .ok (outcome, w')) : w'.db.Owned := by
  cases hfound : resolve.resolve w.db ws path with
  | some node =>
    obtain ⟨rfl, _⟩ | ⟨n, row, _, _, _, _, _, rfl⟩ := touch_existing_ok hfound h
    · exact howned
    · exact howned.modify rfl (fun _ => rfl) rfl
  | none =>
    obtain ⟨_, rfl, _⟩ | ⟨_, w₁, hgeneration, result, hfinal, _, hdone_iff⟩ :=
      touch_absent_ok hfound h
    · exact howned
    · obtain ⟨row, rfl⟩ := hdone_iff.mp hdone
      have hstaged : Staged Policy.any w₁.db ws (rt.newId w.tick) 0 :=
        staged_of_create hwf hgeneration
      obtain ⟨gens, _, hins, rfl⟩ := create_generation_ok hgeneration
      obtain ⟨_, hnot⟩ | ⟨row', hrow', hfinal⟩ := finalize_tx_ok hfinal
      · exact absurd rfl (hnot row)
      · refine Finalized.owned (w := ⟨_, _⟩) ?_ ?_ ?_ hfinal
        · exact hwf.contents.file
        · exact hstaged.unreferenced
        refine howned.frame (fun g row hrow => ?_) (fun n hn g row hng _ => ⟨n, hn, hng⟩)
        rw [Db.generation?_drop] at hrow
        split at hrow
        · cases hrow
        · rename_i hg
          have hinserted := (Db.generation?_insert hins g).trans (if_neg (Ne.symm hg))
          exact ⟨row, hinserted.symm.trans ((Db.generation?_complete_other hg).symm.trans hrow)⟩

/-- Every operation keeps each stored generation some node's content, except for a
`touch` that reports no file. -/
theorem transact_owned {operation : BatchOperation} {outcome : Outcome operation}
    (hwf : WellFormed w.db) (howned : w.db.Owned) (hdone : operation.Reports outcome)
    (h : transact rt ws actor_json operation w = .ok (outcome, w')) :
    w'.db.Owned := by
  cases operation with
  | Mkdir path options =>
    obtain ⟨rfl, _⟩ | ⟨_, _, _, _, _, _, _, _, _, hnested⟩ :=
      mkdir_tx_ok hwf (fun s hs => VirtualPath.segment_of_mem hs) h
    · exact howned
    · exact hnested.owned howned
  | Touch path options => exact touch_tx_owned hwf howned hdone h
  | Copy source target options =>
    obtain ⟨rfl, _⟩ | ⟨source, parent, name, existing, row, w₁, _, _, hcopy, _, happ⟩ :=
      copy_tx_ok h
    · exact howned
    · have hcopied : w₁.db.Owned := copy_subtree_owned (howned.overwritten existing) hcopy
      exact hcopied.appended happ.appended
  | Move source target options =>
    obtain ⟨rfl, _⟩ | ⟨source, parent, name, existing, db, _, _, hupdate, _, happ⟩ := move_tx_ok h
    · exact howned
    · obtain rfl := Db.update_node_ok hupdate
      have hmoved : Db.Owned { w.db.overwritten existing with
          nodes := (w.db.overwritten existing).nodes.modify source.id
            (moved parent.id name (source.revision + 1) (rt.nowMs w.tick)) } :=
        (howned.overwritten existing).modify rfl (fun _ => rfl) rfl
      exact hmoved.appended happ.appended
  | Remove path options =>
    obtain ⟨rfl, _⟩ | ⟨node, _, _, _, happ⟩ := remove_tx_ok h
    · exact howned
    · exact (howned.purge node.id).appended happ.appended
  | Symlink target link options =>
    obtain ⟨rfl, _⟩ | ⟨parent, name, nodes, _, _, hins, _, happ⟩ := symlink_tx_ok h
    · exact howned
    · have hinserted : Db.Owned { w.db with nodes } := howned.insert hins rfl
      exact hinserted.appended happ.appended
  | Trash path options =>
    obtain ⟨rfl, _⟩ | ⟨node, up, records, _, _, _, _, _, happ⟩ := trash_tx_ok h
    · exact howned
    · have htrashed : Db.Owned { w.db with
          trash := records, nodes :=
            w.db.nodes.modify node.id (trashed (rt.nowMs (w.tick + 1))) } :=
        howned.modify rfl (fun _ => rfl) rfl
      exact htrashed.appended happ.appended
  | Restore trash_id destination options =>
    obtain ⟨rfl, _⟩ | ⟨record, node, parent, name, db, row, _, _, hupdate, _, happ, _⟩ :=
      restore_tx_ok h
    · exact howned
    · obtain rfl := Db.update_node_ok hupdate
      have hrestored : Db.Owned (Db.remove_trash trash_id { w.db with
          nodes := w.db.nodes.modify node.id
            (restored parent.id name (node.revision + 1) (rt.nowMs w.tick)) }) :=
        howned.modify rfl (fun _ => rfl) rfl
      exact hrestored.appended happ.appended
  | Purge trash_id =>
    obtain ⟨rfl, _⟩ | ⟨record, _, _, _, happ⟩ := purge_tx_ok h
    · exact howned
    · exact (howned.purge record.node_id).appended happ.appended
  | SetAttribute path key value options =>
    obtain ⟨rfl, _⟩ | ⟨node, _, _, _, _, _, hattributed⟩ := set_attribute_tx_ok h
    · exact howned
    · exact hattributed.owned howned
  | RemoveAttribute path key options =>
    obtain ⟨rfl, _⟩ | ⟨node, _, _, _, _, _, rfl | hattributed⟩ := remove_attribute_tx_ok hwf.nodes h
    · exact howned
    · exact howned
    · exact hattributed.owned howned

/-- So does a step of a batch that has a result. -/
theorem mutate.execute_batch_operation_owned {operation : BatchOperation} {result : BatchResult}
    (hwf : WellFormed w.db) (howned : w.db.Owned)
    (h : execute_batch_operation rt ws operation actor_json w = .ok (.Result result, w')) :
    w'.db.Owned := by
  cases operation with
  | Touch path options =>
    obtain ⟨outcome, w₁, htouch, h⟩ := Tx.bind_eq_ok.mp h
    obtain ⟨hstep, rfl⟩ := Tx.pure_eq_ok.mp h
    refine touch_tx_owned hwf howned ?_ htouch
    cases outcome with
    | Touched row => trivial
    | Created row => trivial
    | _ => cases hstep
  | _ =>
    obtain rfl | ⟨outcome, hrun⟩ := execute_batch_operation_ok h
    · exact howned
    · exact transact_owned hwf howned (by exact trivial) hrun

theorem mutate.execute_batch_operation_wellFormed {operation : BatchOperation}
    {outcome : BatchStepOutcome} (hwf : WellFormed w.db)
    (h : execute_batch_operation rt ws operation actor_json w = .ok (outcome, w')) :
    WellFormed w'.db := by
  obtain rfl | ⟨result, hrun⟩ := execute_batch_operation_ok h
  · exact hwf
  · have heffect : Effect rt Policy.any none w w' :=
      transact_effect hwf (fun hlaid => hlaid.elim) (Policy.permits_any _ _ _) hrun
    exact heffect.wellFormed hwf

theorem mutate.batch_loop_owned {ctx : RequestContext} {index : Nat}
    {results results' : List BatchResult} {operations : List BatchOperation} (hwf : WellFormed w.db)
    (howned : w.db.Owned) (h : batch_loop rt ctx actor_json index results operations w = .ok
    (.Completed results', w')) : w'.db.Owned := by
  induction operations generalizing index results w with
  | nil =>
    obtain ⟨_, rfl⟩ := Tx.pure_eq_ok.mp h
    exact howned
  | cons operation rest ih =>
    unfold batch_loop at h
    split at h
    · obtain ⟨heq, _⟩ := Tx.pure_eq_ok.mp h
      cases heq
    · obtain ⟨step, w₁, hstep, h⟩ := Tx.bind_eq_ok.mp h
      cases step with
      | Result result =>
        exact ih (execute_batch_operation_wellFormed hwf hstep)
          (execute_batch_operation_owned hwf howned hstep) h
      | Failed error =>
        obtain ⟨heq, _⟩ := Tx.pure_eq_ok.mp h
        cases heq

end operations

end fslite
