import Fslite.Sqlite.Edit.WellFormed

namespace fslite

/-- A generation that only its author knows and that is not committed yet. -/
structure Private (db : Db) (g : GenerationId) : Prop where
  unreferenced : db.Unreferenced g
  incomplete : ∀ row, db.generation? g = some row → row.complete = false

namespace Edit

variable {P : Policy} {fresh : Uuid → Prop} {mine : GenerationId → Prop} {db db' : Db}

/-- Every node has an identifier that was there before or is fresh. -/
theorem node_ids (h : Edit P fresh mine db db') :
    ∀ m ∈ db'.nodes, (∃ n ∈ db.nodes, n.id = m.id) ∨ fresh m.id := by
  have hmodify : ∀ {n : NodeRow} {u : Table.Update NodeRow.key}, ∀ m ∈ db.nodes.modify n.id u,
      (∃ n ∈ db.nodes, n.id = m.id) ∨ fresh m.id := by
    rintro n u m hm
    obtain ⟨x, hx, rfl⟩ := Table.mem_modify.mp hm
    split
    · exact Or.inl ⟨x, hx, (u.key_apply x).symm⟩
    · exact Or.inl ⟨x, hx, rfl⟩
  cases h with
  | insert n p hf hp hdir hopen hup hws hsegment hfree hactive hrevision hfile hcontent hins =>
    intro m hm
    obtain hm | rfl := (Table.mem_insert hins).mp hm
    · exact Or.inl ⟨m, hm, rfl⟩
    · exact Or.inr hf
  | revise | replace | relocate | trash | restore => exact hmodify
  | purge n => exact fun m hm => Or.inl ⟨m, (Db.mem_purge_nodes.mp hm).1, rfl⟩
  | enter row root hroot hid hseq now hws hins =>
    intro m hm
    obtain hm | rfl := (Table.mem_insert hins).mp hm
    · exact Or.inl ⟨m, hm, rfl⟩
    · exact Or.inr hroot
  | reset ws row hrow hpolicy root hroot now hins =>
    intro m hm
    obtain hm | rfl := (Table.mem_insert hins).mp hm
    · exact Or.inl ⟨m, (Db.mem_clear_nodes.mp hm).1, rfl⟩
    · exact Or.inr hroot
  | erase ws => exact fun m hm => Or.inl ⟨m, (Table.mem_deleteWhere.mp hm).1, rfl⟩
  | _ => exact fun m hm => Or.inl ⟨m, hm, rfl⟩

/-- Every generation has an identifier that was there before or is fresh. -/
theorem generation_ids (h : Edit P fresh mine db db') :
    ∀ g row, db'.generation? g = some row → (∃ old, db.generation? g = some old) ∨ fresh g := by
  intro g row hrow
  cases h with
  | generation new hf hopen hins =>
    have hfind := (Db.generation?_insert hins g).symm.trans hrow
    split at hfind
    · rename_i heq
      exact Or.inr (heq ▸ hf)
    · exact Or.inl ⟨row, hfind⟩
  | complete g' hmine hun length =>
    rw [Db.generation?_set_complete] at hrow
    split at hrow
    · rename_i heq
      obtain ⟨old, hold, _⟩ := Option.map_eq_some_iff.mp hrow
      exact Or.inl ⟨old, heq ▸ hold⟩
    · exact Or.inl ⟨row, hrow⟩
  | drop g' =>
    rw [Db.generation?_drop] at hrow
    split at hrow
    · cases hrow
    · exact Or.inl ⟨row, hrow⟩
  | replace n hlive g' hmine length hready old hold now =>
    have hfind := (Db.generation?_drop old g).symm.trans hrow
    split at hfind
    · cases hfind
    · exact Or.inl ⟨row, hfind⟩
  | purge n =>
    rw [Db.generation?_purge] at hrow
    split at hrow
    · cases hrow
    · exact Or.inl ⟨row, hrow⟩
  | reset ws =>
    exact Or.inl ⟨row, (Option.filter_eq_some_iff.mp
      ((Db.generation?_clear ws g).symm.trans hrow)).1⟩
  | erase ws =>
    exact Or.inl ⟨row, (Option.filter_eq_some_iff.mp
      ((Db.generation?_clear ws g).symm.trans hrow)).1⟩
  | _ => exact Or.inl ⟨row, hrow⟩

/-- Every trash record was there before or has a fresh identifier. -/
theorem trash_ids (h : Edit P fresh mine db db') : ∀ t ∈ db'.trash, t ∈ db.trash ∨ fresh t.id := by
  cases h with
  | purge n => exact fun t ht => Or.inl (Table.mem_deleteWhere.mp ht).1
  | trash n hlive t hf hnode hws hup hname hpolicy hins now =>
    intro u hu
    obtain hu | rfl := (Table.mem_insert hins).mp hu
    · exact Or.inl hu
    · exact Or.inr hf
  | restore n p hn t => exact fun u hu => Or.inl (Table.mem_deleteWhere.mp hu).1
  | reset ws => exact fun t ht => Or.inl (Table.mem_deleteWhere.mp ht).1
  | erase ws => exact fun t ht => Or.inl (Table.mem_deleteWhere.mp ht).1
  | _ => exact fun t ht => Or.inl ht

/-- A generation that only someone else knows stays private. -/
theorem stays_private (h : Edit P fresh mine db db') (hwf : WellFormed db)
    (hfresh : ∀ id, fresh id → mine id) {g : GenerationId} (hnot : ¬ mine g)
    (hprivate : Private db g) : Private db' g := by
  obtain hsame | ⟨hnone, hunref⟩ := h.content hwf hfresh (g := g) (fun hmine => absurd hmine hnot)
  · refine ⟨fun m hm hmg => ?_, fun row hrow => hprivate.incomplete row (hsame.row ▸ hrow)⟩
    obtain ⟨x, hnodes⟩ := h.node_content hwf
    obtain ⟨n, hn, hfile⟩ | ⟨_, _, hready⟩ := hnodes m hm
    · exact hprivate.unreferenced n hn (hfile.generation.trans hmg)
    · exact hnot (hready g hmg).2.1
  · refine ⟨hunref, fun row hrow => ?_⟩
    rw [hnone] at hrow
    cases hrow

end Edit

theorem Edits.node_ids {P : Policy} {fresh : Uuid → Prop} {mine : GenerationId → Prop} {db db' : Db}
    (h : Edits P fresh mine db db') :
    ∀ m ∈ db'.nodes, (∃ n ∈ db.nodes, n.id = m.id) ∨ fresh m.id := by
  induction h with
  | refl => exact fun m hm => Or.inl ⟨m, hm, rfl⟩
  | tail _ hedit ih =>
    intro m hm
    obtain ⟨x, hx, hid⟩ | hf := hedit.node_ids m hm
    · exact hid ▸ ih x hx
    · exact Or.inr hf

end fslite
