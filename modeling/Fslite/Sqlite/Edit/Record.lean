import Fslite.Sqlite.Edit.WellFormed

namespace fslite

section edit

variable {P : Policy} {fresh : Uuid → Prop} {mine : GenerationId → Prop} {db db' : Db}

/-- A record is old, or its identifier has just been drawn for a trashing that the
policy allows. -/
theorem Edit.record_origin (h : Edit P fresh mine db db') {t : TrashRow} (ht : t ∈ db'.trash) :
    t ∈ db.trash ∨ fresh t.id ∧ ∃ id, P.trash db id := by
  cases h with
  | trash n hlive u hfresh hnode hws hup hname hpolicy hins now =>
    obtain ht | rfl := (Table.mem_insert hins).mp ht
    · exact Or.inl ht
    · exact Or.inr ⟨hfresh, n.id, hpolicy⟩
  | purge | restore | reset | erase => exact Or.inl (Table.mem_deleteWhere.mp ht).1
  | _ => exact Or.inl ht

/-- A node in the trash stays as it is as long as its record is there. -/
theorem Edit.trashed_stays (h : Edit P fresh mine db db') (hwf : WellFormed db) {t : TrashRow}
    (ht : t ∈ db.trash) (ht' : t ∈ db'.trash) {n : NodeRow} (hn : n ∈ db.nodes)
    (hid : n.id = t.node_id) : n ∈ db'.nodes := by
  have htrashed : n.workspace_id = t.workspace_id ∧ n.trashed_at_ms ≠ none := by
    obtain ⟨m, hm, hmid, hws, htime, _⟩ := hwf.trash.record t ht
    rw [db.node_ext hn hm (hid.trans hmid.symm)]
    exact ⟨hws, htime⟩
  have hother : ∀ {m : NodeRow} {u : Table.Update NodeRow.key}, m ∈ db.nodes →
      m.trashed_at_ms = none → n ∈ db.nodes.modify m.id u := by
    intro m u hm hactive
    refine (Db.mem_modify_nodes hm).mpr (Or.inr ⟨hn, fun hsame => htrashed.2 ?_⟩)
    rw [db.node_ext hn hm hsame, hactive]
  have hclear : ∀ {ws}, t ∈ (db.clear ws).trash → n ∈ (db.clear ws).nodes := by
    intro ws hkept
    refine Db.mem_clear_nodes.mpr ⟨hn, ?_⟩
    rw [htrashed.1]
    simpa using (Table.mem_deleteWhere.mp hkept).2
  cases h with
  | insert m p hf hp hdir hopen hup hws hsegment hfree hactive hrevision hfile hcontent hins =>
    exact (Table.mem_insert hins).mpr (Or.inl hn)
  | enter row root hroot hrow hseq now hws hins => exact (Table.mem_insert hins).mpr (Or.inl hn)
  | revise m hlive | replace m hlive | relocate m p hlive | trash m hlive =>
    exact hother hlive.mem hlive.active
  | purge m hm =>
    obtain ⟨_, hkept⟩ := Table.mem_deleteWhere.mp ht'
    refine Db.mem_purge_nodes.mpr ⟨hn, ?_⟩
    rwa [hid, ← Db.cascades_iff, Bool.not_eq_true]
  | restore m p hm u hu hnode =>
    obtain ⟨_, hkept⟩ := Table.mem_deleteWhere.mp ht'
    refine (Db.mem_modify_nodes hm).mpr (Or.inr ⟨hn, fun hsame => ?_⟩)
    obtain rfl := hwf.trash.unique t ht u hu (hid.symm.trans (hsame.trans hnode.symm))
    exact of_decide_eq_false hkept rfl
  | reset ws row hrow hpolicy root hroot now hins =>
    exact (Table.mem_insert hins).mpr (Or.inl (hclear ht'))
  | erase ws hpolicy => exact hclear ht'
  | _ => exact hn

end edit

namespace Edits

variable {P : Policy} {fresh : Uuid → Prop} {mine : GenerationId → Prop} {db db' : Db}

/-- Without a trashing there are no new records. -/
theorem records_subset (h : Edits P fresh mine db db') (hpolicy : ∀ db id, ¬ P.trash db id) :
    ∀ t ∈ db'.trash, t ∈ db.trash := by
  induction h with
  | refl => exact fun t ht => ht
  | tail _ hedit ih =>
    intro t ht
    obtain ht | ⟨_, id, hid⟩ := hedit.record_origin ht
    · exact ih t ht
    · exact absurd hid (hpolicy _ id)

theorem trashed_stays (h : Edits P fresh mine db db') (hfresh : ∀ id, fresh id → mine id)
    (hwf : WellFormed db) {t : TrashRow} (ht : t ∈ db.trash) (hold : ¬ fresh t.id)
    (ht' : t ∈ db'.trash) {n : NodeRow} (hn : n ∈ db.nodes) (hid : n.id = t.node_id) :
    n ∈ db'.nodes := by
  refine (h.preserve hfresh hwf (I := fun a => t ∈ a.trash → t ∈ db.trash ∧ n ∈ a.nodes)
    (fun {a b} hedit hwf ih hb => ?_)
    (fun _ => ⟨ht, hn⟩)).2 ht' |>.2
  obtain ha | ⟨hnew, _⟩ := hedit.record_origin hb
  · exact ⟨ht, hedit.trashed_stays hwf ha hb (ih ha).2 hid⟩
  · exact absurd hnew hold

end Edits

end fslite
