import Fslite.Sqlite.Effect.Call
import Fslite.Sqlite.Effect.Growth

namespace fslite

open resolve directory content mutate trash

/-- A symbolic link stores a target. -/
def NodeRow.Linked (n : NodeRow) : Prop :=
  n.kind = .Symlink → ∃ target : LinkTarget, n.symlink_target = some target.as_str

def Db.Linked (db : Db) : Prop := ∀ n ∈ db.nodes, n.Linked

namespace Db.Linked

variable {db db' : Db}

theorem of_subset (h : db.Linked) (hsub : ∀ n ∈ db'.nodes, n ∈ db.nodes) : db'.Linked :=
  fun n hn => h n (hsub n hn)

theorem congr (h : db.Linked) (hnodes : db'.nodes = db.nodes) : db'.Linked :=
  h.of_subset (fun _ hn => hnodes ▸ hn)

theorem insert {n : NodeRow} (h : db.Linked) (hins : db.nodes.insert n = some db'.nodes)
    (hn : n.Linked) : db'.Linked := by
  intro m hm
  obtain hm | rfl := (Table.mem_insert hins).mp hm
  · exact h m hm
  · exact hn

theorem modify {id : NodeId} {u : Table.Update NodeRow.key} (h : db.Linked)
    (hnodes : db'.nodes = db.nodes.modify id u)
    (hu : ∀ n, (u.apply n).kind = n.kind ∧ (u.apply n).symlink_target = n.symlink_target) :
    db'.Linked := by
  intro m hm
  rw [hnodes] at hm
  obtain ⟨n, hn, rfl⟩ := Table.mem_modify.mp hm
  split
  · rw [NodeRow.Linked, (hu n).1, (hu n).2]
    exact h n hn
  · exact h n hn

theorem purge (h : db.Linked) (id : NodeId) : (db.purge id).Linked :=
  h.of_subset (fun _ hn => (Db.mem_purge_nodes.mp hn).1)

theorem overwritten (h : db.Linked) (existing : Option RawNode) :
    (db.overwritten existing).Linked :=
  h.of_subset (fun _ hn => overwritten_mem hn)

end Db.Linked

section operations

variable {rt : Runtime} {ws : WorkspaceId} {w w' : World} {actor_json : Text}

theorem directory.Nested.linked {up last : NodeId} {path last_path : VirtualPath}
    {names : List Text} (h : Nested rt ws up path names w last last_path w')
    (hlinked : w.db.Linked) : w'.db.Linked := by
  induction h with
  | done => exact hlinked
  | @make _ _ _ _ _ _ _ w _ _ nodes _ hins _ happ _ ih =>
    have hinserted : Db.Linked { w.db with nodes } :=
      hlinked.insert hins (fun hkind => by cases hkind)
    exact ih (hinserted.congr happ.appended.nodes)

theorem content.Finalized.linked {path : VirtualPath} {g : GenerationId} {length : Nat}
    {params : FinalizeParams} {row : RawNode} (h : Finalized rt ws path g length params w w' row)
    (hlinked : w.db.Linked) : w'.db.Linked := by
  cases h with
  | @created _ parent name nodes _ _ _ _ _ _ _ hins _ happ =>
    have hinserted : Db.Linked { w.db.set_generation_complete g length with nodes } :=
      hlinked.insert hins (fun hkind => by cases hkind)
    exact hinserted.congr happ.appended.nodes
  | @replaced n db _ _ _ _ _ _ happ _ hframe =>
    have hmodified : Db.Linked { w.db.set_generation_complete g length with
        nodes := w.db.nodes.modify n.id
          (content.replaced g length (n.revision + 1) (rt.nowMs w.tick)) } :=
      hlinked.modify rfl (fun _ => ⟨rfl, rfl⟩)
    exact hmodified.congr (hframe.1.trans happ.appended.nodes)

theorem mutate.copy_loop_linked {now : Int} {bound : Nat} {stack : List (RawNode × NodeId × Text)}
    {top : Option RawNode} {raw : RawNode} (hlinked : w.db.Linked)
    (hstack : ∀ item ∈ stack, ∃ n : NodeRow, n.toRawNode = item.1 ∧ n.Linked)
    (h : copy_loop rt ws now bound stack top w = .ok (raw, w')) : w'.db.Linked := by
  induction bound generalizing stack top w with
  | zero =>
    cases stack with
    | nil =>
      obtain ⟨_, rfl⟩ := Tx.expect_eq_ok.mp h
      exact hlinked
    | cons item stack => exact absurd h Tx.fail_ne_ok
  | succ bound ih =>
    cases stack with
    | nil =>
      obtain ⟨_, rfl⟩ := Tx.expect_eq_ok.mp h
      exact hlinked
    | cons item stack =>
      obtain ⟨old, up, name⟩ := item
      unfold copy_loop at h
      obtain ⟨new_node, w₁, hcopy, h⟩ := Tx.bind_eq_ok.mp h
      simp only [Tx.query_bind] at h
      obtain ⟨generation, _, hins, _⟩ := copy_node_ok hcopy
      obtain ⟨n, hraw, hn⟩ := hstack _ List.mem_cons_self
      simp only at hraw
      subst hraw
      have hlinked₁ : w₁.db.Linked := hlinked.insert hins hn
      refine ih hlinked₁ (fun item hitem => ?_) h
      obtain hpushed | hstacked := List.mem_append.mp hitem
      · obtain ⟨child, hchild, rfl⟩ := List.mem_map.mp (List.mem_reverse.mp hpushed)
        split at hchild
        · obtain ⟨m, hm, hchild, _⟩ := fetch_children_mem hchild
          exact ⟨m, hchild, hlinked₁ m hm⟩
        · cases hchild
      · exact hstack item (List.mem_cons_of_mem _ hstacked)

theorem mutate.copy_subtree_linked {source raw : RawNode} {up : NodeId} {name : Text} {now : Int}
    (hlinked : w.db.Linked) (h : copy_subtree rt ws source up name now w = .ok (raw, w')) :
    w'.db.Linked := by
  unfold copy_subtree at h
  obtain ⟨full, w₁, hfull, hloop⟩ := Tx.bind_eq_ok.mp h
  obtain ⟨rfl, hfull⟩ := fetch_full_ok hfull
  rw [Tx.query_bind] at hloop
  obtain ⟨n, hn, rfl, _⟩ := fetch_by_id_eq_some.mp hfull
  refine copy_loop_linked hlinked (fun item hitem => ?_) hloop
  rw [List.mem_singleton.mp hitem]
  exact ⟨n, rfl, hlinked n hn⟩

theorem mutate.Attributed.linked {kind : ChangeKind} {path : VirtualPath} {node : RawNode}
    (hlinked : w.db.Linked) (h : Attributed rt ws kind path w w' node) : w'.db.Linked := by
  obtain ⟨attributes, _, _, happ⟩ := h
  have hrevised : Db.Linked { w.db with
      attributes, nodes := w.db.nodes.modify node.id
        (revised (node.revision + 1) (rt.nowMs w.tick)) } :=
    hlinked.modify rfl (fun _ => ⟨rfl, rfl⟩)
  exact hrevised.congr happ.appended.nodes

/-- Every operation leaves the links with targets. -/
theorem transact_linked {operation : BatchOperation} {outcome : Outcome operation}
    (hwf : WellFormed w.db) (hlinked : w.db.Linked)
    (h : transact rt ws actor_json operation w = .ok (outcome, w')) : w'.db.Linked := by
  cases operation with
  | Mkdir path options =>
    obtain ⟨rfl, _⟩ | ⟨_, _, _, _, _, _, _, _, _, hnested⟩ :=
      mkdir_tx_ok hwf (fun s hs => VirtualPath.segment_of_mem hs) h
    · exact hlinked
    · exact hnested.linked hlinked
  | Touch path options =>
    cases hfound : resolve.resolve w.db ws path with
    | some node =>
      obtain ⟨rfl, _⟩ | ⟨n, row, _, _, _, _, _, rfl⟩ := touch_existing_ok hfound h
      · exact hlinked
      · exact hlinked.modify rfl (fun _ => ⟨rfl, rfl⟩)
    | none =>
      obtain ⟨_, rfl, _⟩ | ⟨_, w₁, hcreate, result, hfinal, _⟩ := touch_absent_ok hfound h
      · exact hlinked
      · obtain ⟨_, _, _, rfl⟩ := create_generation_ok hcreate
        obtain ⟨rfl, _⟩ | ⟨row, _, hfinal⟩ := finalize_tx_ok hfinal
        · exact hlinked.congr rfl
        · exact hfinal.linked (hlinked.congr rfl)
  | Copy source target options =>
    obtain ⟨rfl, _⟩ | ⟨source, parent, name, existing, row, w₁, _, _, hcopy, _, happ⟩ :=
      copy_tx_ok h
    · exact hlinked
    · have hcopied : w₁.db.Linked := copy_subtree_linked (hlinked.overwritten existing) hcopy
      exact hcopied.congr happ.appended.nodes
  | Move source target options =>
    obtain ⟨rfl, _⟩ | ⟨source, parent, name, existing, db, _, _, hupdate, _, happ⟩ := move_tx_ok h
    · exact hlinked
    · obtain rfl := Db.update_node_ok hupdate
      have hmoved : Db.Linked { w.db.overwritten existing with
          nodes := (w.db.overwritten existing).nodes.modify source.id
            (moved parent.id name (source.revision + 1) (rt.nowMs w.tick)) } :=
        (hlinked.overwritten existing).modify rfl (fun _ => ⟨rfl, rfl⟩)
      exact hmoved.congr happ.appended.nodes
  | Remove path options =>
    obtain ⟨rfl, _⟩ | ⟨node, _, _, _, happ⟩ := remove_tx_ok h
    · exact hlinked
    · exact (hlinked.purge node.id).congr happ.appended.nodes
  | Symlink target link options =>
    obtain ⟨rfl, _⟩ | ⟨parent, name, nodes, _, _, hins, _, happ⟩ := symlink_tx_ok h
    · exact hlinked
    · have hinserted : Db.Linked { w.db with nodes } := hlinked.insert hins (fun _ => ⟨target, rfl⟩)
      exact hinserted.congr happ.appended.nodes
  | Trash path options =>
    obtain ⟨rfl, _⟩ | ⟨node, up, records, _, _, _, _, _, happ⟩ := trash_tx_ok h
    · exact hlinked
    · have htrashed : Db.Linked { w.db with
          trash := records, nodes :=
            w.db.nodes.modify node.id (trashed (rt.nowMs (w.tick + 1))) } :=
        hlinked.modify rfl (fun _ => ⟨rfl, rfl⟩)
      exact htrashed.congr happ.appended.nodes
  | Restore trash_id destination options =>
    obtain ⟨rfl, _⟩ | ⟨record, node, parent, name, db, row, _, _, hupdate, _, happ, _⟩ :=
      restore_tx_ok h
    · exact hlinked
    · obtain rfl := Db.update_node_ok hupdate
      have hrestored : Db.Linked (Db.remove_trash trash_id { w.db with
          nodes := w.db.nodes.modify node.id
            (restored parent.id name (node.revision + 1) (rt.nowMs w.tick)) }) :=
        hlinked.modify rfl (fun _ => ⟨rfl, rfl⟩)
      exact hrestored.congr happ.appended.nodes
  | Purge trash_id =>
    obtain ⟨rfl, _⟩ | ⟨record, _, _, _, happ⟩ := purge_tx_ok h
    · exact hlinked
    · exact (hlinked.purge record.node_id).congr happ.appended.nodes
  | SetAttribute path key value options =>
    obtain ⟨rfl, _⟩ | ⟨node, _, _, _, _, _, hattributed⟩ := set_attribute_tx_ok h
    · exact hlinked
    · exact hattributed.linked hlinked
  | RemoveAttribute path key options =>
    obtain ⟨rfl, _⟩ | ⟨node, _, _, _, _, _, rfl | hattributed⟩ := remove_attribute_tx_ok hwf.nodes h
    · exact hlinked
    · exact hlinked
    · exact hattributed.linked hlinked

/-- So does every call. -/
theorem DbCall.exec_linked {call : DbCall} (hwf : WellFormed w.db) (hlinked : w.db.Linked) :
    (call.exec rt w).2.db.Linked := by
  refine DbCall.exec_keeps hwf hlinked (fun _ _ => hlinked.congr rfl) transact_linked ?_ ?_ ?_ ?_
  · intro ws path g length params actor_json outcome w' _ h
    obtain ⟨rfl, _⟩ | ⟨row, _, hfinal⟩ := finalize_tx_ok h
    · exact hlinked
    · exact hfinal.linked hlinked
  · intro options result w' h
    obtain ⟨row, nodes, workspaces, _, _, _, _, _, _, _, hins, rfl⟩ :=
      workspace.create_workspace_ok h
    exact hlinked.insert hins (fun hkind => by cases hkind)
  · intro ws result w' h
    obtain ⟨rfl, _⟩ | ⟨row, nodes, _, _, hins, rfl⟩ := workspace.reset_workspace_ok hwf h
    · exact hlinked
    · have hcleared : (w.db.clear ws).Linked :=
        hlinked.of_subset (fun _ hn => (Db.mem_clear_nodes.mp hn).1)
      exact hcleared.insert hins (fun hkind => by cases hkind)
  · intro ws u w' h
    obtain rfl := workspace.delete_workspace_ok hwf h
    exact hlinked.of_subset (fun _ hn => (Db.mem_clear_nodes.mp hn).1)

end operations

end fslite
