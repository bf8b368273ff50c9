import Fslite.Sqlite.Run.Tree

namespace fslite

/-- Nothing that has been trashed lies under itself. -/
def Unknotted (db : Db) : Prop :=
  ∀ n ∈ db.nodes, n.trashed_at_ms ≠ none → ∀ up, n.parent_id = some up →
    ¬ Below db.parent up n.id

namespace Unknotted

variable {db db' : Db}

theorem empty : Unknotted Db.empty := fun n hn => absurd hn (Table.not_mem_empty n)

theorem congr (h : Unknotted db) (hnodes : db'.nodes = db.nodes) : Unknotted db' := by
  unfold Unknotted
  rw [hnodes, Db.parent_of_nodes hnodes]
  exact h

/-- Fewer nodes, or more of them, climb as before. -/
theorem of_kept (h : Unknotted db)
    (hmem : ∀ n ∈ db'.nodes, n.trashed_at_ms ≠ none → n ∈ db.nodes)
    (hparent : ∀ n ∈ db.nodes, ∀ up b, n.parent_id = some up → Below db'.parent up b →
      Below db.parent up b) : Unknotted db' := by
  intro n hn htrashed up hup hbelow
  have hn' := hmem n hn htrashed
  exact h n hn' htrashed up hup (hparent n hn' up _ hup hbelow)

theorem of_subset (h : Unknotted db) (hsub : ∀ n ∈ db'.nodes, n ∈ db.nodes) : Unknotted db' := by
  refine h.of_kept (fun n hn _ => hsub n hn) (fun n _ up b _ hbelow => hbelow.mono (fun x y hx => ?_))
  obtain ⟨m, hm, hid, hy⟩ := Db.stored_of_parent hx
  exact Db.parent_eq_some.mpr ⟨m, hsub m hm, hid, hy⟩

theorem insert (h : Unknotted db)
    (hstored : ∀ m ∈ db.nodes, ∀ up, m.parent_id = some up → ∃ p ∈ db.nodes, p.id = up)
    {n : NodeRow} {nodes : Table NodeRow.key} (hins : db.nodes.insert n = some nodes)
    (hactive : n.trashed_at_ms = none) : Unknotted { db with nodes } := by
  have hnew : ∀ m ∈ db.nodes, m.id ≠ n.id := fun m hm heq =>
    Table.find?_eq_none.mp (Table.insert_eq_some.mp hins).1 m hm heq
  refine h.of_kept (fun m hm htrashed => ?_) (fun m hm up b hup hbelow => ?_)
  · obtain hm | rfl := (Table.mem_insert hins).mp hm
    · exact hm
    · exact absurd hactive htrashed
  · -- the climb passes through stored nodes only, and so not through the new one
    obtain ⟨p, hp, hid⟩ := hstored m hm up hup
    clear hup
    induction hbelow using Below.head_induction generalizing p with
    | top => exact Below.refl _ _
    | @step x y hxy _ ih =>
      subst hid
      rw [Db.parent_insert hins, if_neg (hnew p hp).symm] at hxy
      obtain ⟨q, hq, hqid, hqup⟩ := Db.stored_of_parent hxy
      obtain ⟨r, hr, hrid⟩ := hstored q hq y hqup
      exact Below.head hxy (ih r hr hrid)

/-- A row that is live, or becomes active, changes in place. -/
theorem modify_in_place (h : Unknotted db) {n : NodeRow} (hn : n ∈ db.nodes)
    {u : Table.Update NodeRow.key} (hparent : (u.apply n).parent_id = n.parent_id)
    (hplace : (u.apply n).trashed_at_ms = none ∨ Live db n.workspace_id n) :
    Unknotted { db with nodes := db.nodes.modify n.id u } := by
  have hparents : Db.parent { db with nodes := db.nodes.modify n.id u } = db.parent := by
    funext x
    rw [Db.parent_modify hn]
    split
    · rename_i heq
      rw [hparent, heq, Db.parent_of_mem hn]
    · rfl
  intro m hm htrashed up hup
  rw [hparents]
  obtain rfl | ⟨hm, _⟩ := (Db.mem_modify_nodes hn).mp hm
  · rw [show (u.apply n).id = n.id from u.key_apply n]
    obtain hactive | hlive := hplace
    · exact absurd hactive htrashed
    · exact hlive.acyclic (hparent.symm.trans hup)
  · exact h m hm htrashed up hup

/-- A row goes under a live directory. -/
theorem rehang (h : Unknotted db) {n p : NodeRow} {ws : WorkspaceId} (hn : n ∈ db.nodes)
    (hp : Live db ws p) {u : Table.Update NodeRow.key}
    (hparent : (u.apply n).parent_id = some p.id) (hactive : (u.apply n).trashed_at_ms = none) :
    Unknotted { db with nodes := db.nodes.modify n.id u } := by
  intro m hm htrashed up hup hbelow
  obtain rfl | ⟨hm, _⟩ := (Db.mem_modify_nodes hn).mp hm
  · exact htrashed hactive
  · obtain hold | hnew := Below.rehung hbelow
      (fun x (hx : x ≠ n.id) => (Db.parent_modify hn u x).trans (if_neg hx))
      ((Db.parent_modify hn u n.id).trans ((if_pos rfl).trans hparent))
    · exact h m hm htrashed up hup hold
    · obtain ⟨x, hx, hid⟩ := hp.of_below hnew
      obtain rfl := db.node_ext hx.mem hm hid
      exact htrashed hx.active

end Unknotted

end fslite
