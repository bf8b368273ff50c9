import Fslite.Sqlite.Edit.Nodes

namespace fslite

/-- The generation's row and chunks are the same in both databases. -/
structure SameContent (db db' : Db) (g : GenerationId) : Prop where
  row : db'.generation? g = db.generation? g
  chunk : ∀ i, db'.content_chunks.find? (g, i) = db.content_chunks.find? (g, i)

namespace SameContent

variable {db db' db'' : Db} {g : GenerationId}

theorem refl (db : Db) (g : GenerationId) : SameContent db db g := ⟨rfl, fun _ => rfl⟩

theorem trans (h : SameContent db db' g) (h' : SameContent db' db'' g) : SameContent db db'' g :=
  ⟨h'.row.trans h.row, fun i => (h'.chunk i).trans (h.chunk i)⟩

theorem laid (h : SameContent db db' g) (bytes : Bytes) : db'.Laid g bytes ↔ db.Laid g bytes := by
  simp only [Db.Laid, h.chunk]

theorem laidOut (h : SameContent db db' g) (length : Nat) :
    db'.LaidOut g length ↔ db.LaidOut g length := by
  simp only [Db.LaidOut, h.laid]

end SameContent

namespace Db

variable {db : Db}

theorem generation?_eq_some {g : GenerationId} {row : GenerationRow} :
    db.generation? g = some row ↔ row ∈ db.content_generations ∧ row.id = g := Table.find?_eq_some

theorem generation?_insert {row : GenerationRow} {gens : Table GenerationRow.id}
    (hins : db.content_generations.insert row = some gens) (g : GenerationId) :
    gens.find? g = if row.id = g then some row else db.generation? g := Table.find?_insert hins g

theorem generation?_set_complete (g : GenerationId) (length : Nat) (g' : GenerationId) :
    (db.set_generation_complete g length).generation? g' = if g' = g then
      (db.generation? g).map (fun row => { row with complete := true, length := length })
    else db.generation? g' := Table.find?_modify _ _ _

theorem generation?_drop (g g' : GenerationId) :
    (db.drop g).generation? g' = if g' = g then none else db.generation? g' := by
  rw [show (db.drop g).generation? g' = (db.generation? g').filter
    (fun row => !decide (row.id = g)) from
    Table.find?_deleteWhere _ _ _]
  cases hrow : db.generation? g' with
  | none => simp
  | some row =>
    have hid : row.id = g' := Table.key_of_find? hrow
    by_cases h : g' = g <;> simp [Option.filter, hid, h]

theorem chunk_drop (g : GenerationId) (k : GenerationId × Nat) :
    (db.drop g).content_chunks.find? k = if k.1 = g then none else db.content_chunks.find? k := by
  rw [show (db.drop g).content_chunks.find? k =
    (db.content_chunks.find? k).filter
      (fun c => !decide (c.generation_id = g)) from Table.find?_deleteWhere _ _ _]
  cases hrow : db.content_chunks.find? k with
  | none => simp
  | some c =>
    have hid : c.generation_id = k.1 := congrArg Prod.fst (Table.key_of_find? hrow)
    by_cases h : k.1 = g <;> simp [Option.filter, hid, h]

theorem mem_subtree_generations {id : NodeId} {g : GenerationId} :
    g ∈ mutate.subtree_generations db id ↔
      ∃ n ∈ db.nodes, Below db.parent n.id id ∧ n.content_generation_id = some g := by
  simp only [mutate.subtree_generations, List.mem_filterMap, List.mem_filter, cascades_iff,
    Table.mem_def, and_assoc]

theorem generation?_purge (id : NodeId) (g : GenerationId) :
    (db.purge id).generation? g =
    if g ∈ mutate.subtree_generations db id then none else db.generation? g := by
  rw [show (db.purge id).generation? g =
    (db.generation? g).filter (fun row => !decide (row.id ∈ mutate.subtree_generations db id)) from
    Table.find?_deleteWhere _ _ _]
  cases hrow : db.generation? g with
  | none => simp
  | some row =>
    have hid : row.id = g := Table.key_of_find? hrow
    by_cases h : g ∈ mutate.subtree_generations db id <;> simp [Option.filter, hid, h]

theorem chunk_purge (id : NodeId) (k : GenerationId × Nat) :
    (db.purge id).content_chunks.find? k =
      if k.1 ∈ mutate.subtree_generations db id then none else db.content_chunks.find? k := by
  rw [show (db.purge id).content_chunks.find? k = (db.content_chunks.find? k).filter
    (fun c => !decide (c.generation_id ∈ mutate.subtree_generations db id)) from Table.find?_deleteWhere _ _ _]
  cases hrow : db.content_chunks.find? k with
  | none => simp
  | some c =>
    have hid : c.generation_id = k.1 := congrArg Prod.fst (Table.key_of_find? hrow)
    by_cases h : k.1 ∈ mutate.subtree_generations db id <;> simp [Option.filter, hid, h]

theorem generation?_clear (ws : WorkspaceId) (g : GenerationId) :
    (db.clear ws).generation? g = (db.generation? g).filter
    (fun row => !decide (row.workspace_id = ws)) :=
  Table.find?_deleteWhere _ _ _

theorem chunk_clear (ws : WorkspaceId) (k : GenerationId × Nat) :
    (db.clear ws).content_chunks.find? k = if (db.generation? k.1).any
    (fun row => row.workspace_id = ws) then none
      else db.content_chunks.find? k := by
  rw [show (db.clear ws).content_chunks.find? k = (db.content_chunks.find? k).filter
    (fun c => !((db.generation? c.generation_id).any (fun row => row.workspace_id = ws))) from
    Table.find?_deleteWhere _ _ _]
  cases hrow : db.content_chunks.find? k with
  | none => simp
  | some c =>
    have hid : c.generation_id = k.1 := congrArg Prod.fst (Table.key_of_find? hrow)
    cases h : (db.generation? k.1).any (fun row => row.workspace_id = ws) <;> simp [Option.filter,
      hid, h]

/-- Emptying a workspace deletes a generation whole or leaves it alone. -/
theorem clear_content (ws : WorkspaceId) (g : GenerationId) :
    SameContent db (db.clear ws) g ∨ (db.clear ws).generation? g = none ∧
      ∃ row, db.generation? g = some row ∧ row.workspace_id = ws := by
  have hrow := db.generation?_clear ws g
  cases hg : db.generation? g with
  | none =>
    rw [hg] at hrow
    exact Or.inl ⟨hrow.trans hg.symm, fun i => by rw [chunk_clear]; simp [hg]⟩
  | some row =>
    rw [hg] at hrow
    by_cases hws : row.workspace_id = ws
    · exact Or.inr ⟨by simpa [Option.filter, hws] using hrow, row, rfl, hws⟩
    · refine Or.inl ⟨?_, fun i => ?_⟩
      · rw [hg]
        simpa [Option.filter, hws] using hrow
      · rw [chunk_clear]
        simp [hg, hws]

end Db

namespace ContentsWellFormed

variable {db : Db}

/-- A referenced generation is stored. -/
theorem stored (h : ContentsWellFormed db) {g : GenerationId} (hg : ¬ db.Unreferenced g) :
    ∃ row, db.generation? g = some row := by
  unfold Db.Unreferenced at hg
  simp only [not_forall, not_not] at hg
  obtain ⟨n, hn, hng⟩ := hg
  obtain ⟨_, row, hrow, _⟩ := h.generation n hn g hng
  exact ⟨row, hrow⟩

theorem unreferenced_of_none (h : ContentsWellFormed db) {g : GenerationId}
    (hg : db.generation? g = none) :
    db.Unreferenced g := by
  intro n hn hng
  obtain ⟨_, row, hrow, _⟩ := h.generation n hn g hng
  rw [hg] at hrow
  cases hrow

end ContentsWellFormed

namespace Edit

variable {P : Policy} {fresh : Uuid → Prop} {mine : GenerationId → Prop} {db db' : Db}

/-- A generation that is someone's content, or that the author of the change
does not know, is left alone or deleted whole. -/
theorem content (h : Edit P fresh mine db db') (hwf : WellFormed db)
    (hfresh : ∀ id, fresh id → mine id) {g : GenerationId} (hg : mine g → ¬ db.Unreferenced g) :
    SameContent db db' g ∨ db'.generation? g = none ∧ db'.Unreferenced g := by
  have hunref : ∀ g', mine g' → db.Unreferenced g' → g ≠ g' := by
    rintro g' hmine hun rfl
    exact hg hmine hun
  cases h with
  | append => exact Or.inl ⟨rfl, fun _ => rfl⟩
  | generation row hf hopen hins =>
    refine Or.inl ⟨?_, fun _ => rfl⟩
    refine (Db.generation?_insert hins g).trans (if_neg (hunref row.id (hfresh _ hf) ?_).symm)
    exact hwf.contents.unreferenced_of_none (Table.insert_eq_some.mp hins).1
  | chunks g' hmine hun hopen cs hother =>
    exact Or.inl ⟨rfl, fun i => hother (g, i) (hunref g' hmine hun)⟩
  | complete g' hmine hun length =>
    refine Or.inl ⟨?_, fun _ => rfl⟩
    rw [Db.generation?_set_complete, if_neg (hunref g' hmine hun)]
  | drop g' hmine hun =>
    have hne := hunref g' hmine hun
    exact Or.inl ⟨by rw [Db.generation?_drop, if_neg hne], fun i => by rw [Db.chunk_drop, if_neg hne]⟩
  | insert => exact Or.inl ⟨rfl, fun _ => rfl⟩
  | attributes => exact Or.inl ⟨rfl, fun _ => rfl⟩
  | revise => exact Or.inl ⟨rfl, fun _ => rfl⟩
  | replace n hlive g' hmine length hready old hold now =>
    by_cases hne : g = old
    · subst hne
      refine Or.inr ⟨(Db.generation?_drop g g).trans (if_pos rfl), ?_⟩
      intro m hm hmg
      obtain rfl | ⟨hm, hmn⟩ := (Db.mem_modify_nodes hlive.mem).mp hm
      · rw [content.replaced, Option.some.injEq] at hmg
        exact hready.unreferenced n hlive.mem (hmg ▸ hold)
      · exact hmn (congrArg NodeRow.key (hwf.contents.unshared m hm n hlive.mem g hmg hold))
    · exact Or.inl ⟨(Db.generation?_drop old g).trans (if_neg hne), fun i =>
        (Db.chunk_drop old (g, i)).trans (if_neg hne)⟩
  | relocate => exact Or.inl ⟨rfl, fun _ => rfl⟩
  | purge n hn hroot hkind hpolicy =>
    by_cases hsub : g ∈ mutate.subtree_generations db n.id
    · refine Or.inr ⟨by rw [Db.generation?_purge, if_pos hsub], ?_⟩
      intro m hm hmg
      rw [Db.mem_purge_nodes] at hm
      obtain ⟨r, hr, hbelow, hrg⟩ := Db.mem_subtree_generations.mp hsub
      rw [hwf.contents.unshared r hr m hm.1 g hrg hmg] at hbelow
      exact hm.2 hbelow
    · exact Or.inl ⟨by rw [Db.generation?_purge, if_neg hsub], fun i => by rw [Db.chunk_purge, if_neg hsub]⟩
  | trash => exact Or.inl ⟨rfl, fun _ => rfl⟩
  | restore => exact Or.inl ⟨rfl, fun _ => rfl⟩
  | enter => exact Or.inl ⟨rfl, fun _ => rfl⟩
  | reset ws row hrow hpolicy root hroot now hins =>
    obtain hsame | ⟨hgone, row', hrow', hws'⟩ := db.clear_content ws g
    · exact Or.inl ⟨hsame.row, hsame.chunk⟩
    · refine Or.inr ⟨hgone, ?_⟩
      intro m hm hmg
      obtain hm | rfl := (Table.mem_insert hins).mp hm
      · rw [Db.mem_clear_nodes] at hm
        obtain ⟨_, row'', hrow'', _, _, hws''⟩ := hwf.contents.generation m hm.1 g hmg
        rw [hrow', Option.some.injEq] at hrow''
        exact hm.2 (by rw [← hws'', ← hrow'', hws'])
      · cases hmg
  | erase ws hpolicy =>
    obtain hsame | ⟨hgone, row', hrow', hws'⟩ := db.clear_content ws g
    · exact Or.inl ⟨hsame.row, hsame.chunk⟩
    · refine Or.inr ⟨hgone, ?_⟩
      intro m hm hmg
      rw [show m ∈ Db.nodes _ ↔ _ from Db.mem_clear_nodes] at hm
      obtain ⟨_, row'', hrow'', _, _, hws''⟩ := hwf.contents.generation m hm.1 g hmg
      rw [hrow', Option.some.injEq] at hrow''
      exact hm.2 (by rw [← hws'', ← hrow'', hws'])

/-- Two rows with the same identifier, workspace, kind and content. -/
structure SameFile (n m : NodeRow) : Prop where
  id : n.id = m.id
  workspace : n.workspace_id = m.workspace_id
  kind : n.kind = m.kind
  generation : n.content_generation_id = m.content_generation_id
  size : n.size = m.size

theorem SameFile.refl (n : NodeRow) : SameFile n n := ⟨rfl, rfl, rfl, rfl, rfl⟩

/-- After a change every node has the content it had, or it is the one node
that has just been given a generation that was ready for it. -/
theorem node_content (h : Edit P fresh mine db db') (hwf : WellFormed db) :
    ∃ x : NodeRow, ∀ m ∈ db'.nodes, (∃ n ∈ db.nodes, SameFile n m) ∨ m = x ∧
      (m.kind = .File → m.content_generation_id ≠ none) ∧
      ∀ g, m.content_generation_id = some g →
        m.kind = .File ∧ mine g ∧ Ready P db m.workspace_id g m.size ∧ SameContent db db' g := by
  have hall : ∀ {x : NodeRow} {nodes : Table NodeRow.key}, nodes = db.nodes → ∀ m ∈ nodes,
      (∃ n ∈ db.nodes, SameFile n m) ∨ m = x ∧ (m.kind = .File → m.content_generation_id ≠ none) ∧
      ∀ g, m.content_generation_id = some g →
        m.kind = .File ∧ mine g ∧ Ready P db m.workspace_id g m.size ∧ SameContent db db' g := by
    rintro x nodes rfl m hm
    exact Or.inl ⟨m, hm, .refl m⟩
  have hmodify : ∀ {n : NodeRow} {u : Table.Update NodeRow.key}, n ∈ db.nodes →
    SameFile n (u.apply n) →
      ∀ m ∈ db.nodes.modify n.id u, ∃ n ∈ db.nodes, SameFile n m := by
    rintro n u hn hsame m hm
    obtain rfl | ⟨hm, _⟩ := (Db.mem_modify_nodes hn).mp hm
    · exact ⟨n, hn, hsame⟩
    · exact ⟨m, hm, .refl m⟩
  cases h with
  | append ws now c => exact ⟨workspace.rootRow 0 0 0, hall rfl⟩
  | generation => exact ⟨workspace.rootRow 0 0 0, hall rfl⟩
  | chunks => exact ⟨workspace.rootRow 0 0 0, hall rfl⟩
  | complete => exact ⟨workspace.rootRow 0 0 0, hall rfl⟩
  | drop => exact ⟨workspace.rootRow 0 0 0, hall rfl⟩
  | insert n p hf hp hdir hopen hup hws hsegment hfree hactive hrevision hfile hcontent hins =>
    refine ⟨n, fun m hm => ?_⟩
    obtain hm | rfl := (Table.mem_insert hins).mp hm
    · exact Or.inl ⟨m, hm, .refl m⟩
    · exact Or.inr ⟨rfl, hfile, fun g hg =>
        ⟨(hcontent g hg).1, (hcontent g hg).2.1, (hcontent g hg).2.2,
        rfl, fun _ => rfl⟩⟩
  | attributes => exact ⟨workspace.rootRow 0 0 0, hall rfl⟩
  | revise n hlive u hrow as hother =>
    refine ⟨n, fun m hm => Or.inl (hmodify hlive.mem ?_ m hm)⟩
    rw [hrow]
    exact ⟨rfl, rfl, rfl, rfl, rfl⟩
  | replace n hlive g' hmine length hready old hold now =>
    refine ⟨(content.replaced g' length (n.revision + 1) now).apply n, fun m hm => ?_⟩
    obtain rfl | ⟨hm, _⟩ := (Db.mem_modify_nodes hlive.mem).mp hm
    · have hkind := (hwf.contents.generation n hlive.mem old hold).1
      refine Or.inr ⟨rfl, fun _ hnone => (by cases hnone), fun g hg => ?_⟩
      rw [content.replaced, Option.some.injEq] at hg
      subst hg
      have hne : g' ≠ old := by
        rintro rfl
        exact hready.unreferenced n hlive.mem hold
      exact ⟨hkind, hmine, hready, (Db.generation?_drop old g').trans (if_neg hne),
        fun i => (Db.chunk_drop old (g', i)).trans (if_neg hne)⟩
    · exact Or.inl ⟨m, hm, .refl m⟩
  | relocate n p hlive =>
    exact ⟨n, fun m hm => Or.inl (hmodify hlive.mem ⟨rfl, rfl, rfl, rfl, rfl⟩ m hm)⟩
  | purge n =>
    exact ⟨n, fun m hm => Or.inl ⟨m, (Db.mem_purge_nodes.mp hm).1, .refl m⟩⟩
  | trash n hlive =>
    exact ⟨n, fun m hm => Or.inl (hmodify hlive.mem ⟨rfl, rfl, rfl, rfl, rfl⟩ m hm)⟩
  | restore n p hn =>
    exact ⟨n, fun m hm => Or.inl (hmodify hn ⟨rfl, rfl, rfl, rfl, rfl⟩ m hm)⟩
  | enter row root hroot hid hseq now hws hins =>
    refine ⟨workspace.rootRow root row.id now, fun m hm => ?_⟩
    obtain hm | rfl := (Table.mem_insert hins).mp hm
    · exact Or.inl ⟨m, hm, .refl m⟩
    · exact Or.inr ⟨rfl, fun hkind => (by cases hkind), fun g hg => (by cases hg)⟩
  | reset ws row hrow hpolicy root hroot now hins =>
    refine ⟨workspace.rootRow root ws now, fun m hm => ?_⟩
    obtain hm | rfl := (Table.mem_insert hins).mp hm
    · exact Or.inl ⟨m, (Db.mem_clear_nodes.mp hm).1, .refl m⟩
    · exact Or.inr ⟨rfl, fun hkind => (by cases hkind), fun g hg => (by cases hg)⟩
  | erase ws =>
    refine ⟨workspace.rootRow 0 0 0, fun m hm => Or.inl ⟨m, ?_, .refl m⟩⟩
    exact (Db.mem_clear_nodes.mp hm).1

/-- Chunks stay with their generations. -/
theorem chunk_stored (h : Edit P fresh mine db db') (hwf : WellFormed db) :
    ∀ c ∈ db'.content_chunks, ∃ row, db'.generation? c.generation_id = some row := by
  have hchunk := hwf.contents.chunk
  cases h with
  | append => exact hchunk
  | generation row hf hopen hins =>
    intro c hc
    obtain ⟨old, hold⟩ := hchunk c hc
    show ∃ row', Table.find? _ _ = some row'
    rw [Db.generation?_insert hins]
    split
    · exact ⟨row, rfl⟩
    · exact ⟨old, hold⟩
  | chunks g' hmine hun hopen cs hother =>
    intro c hc
    by_cases hc' : c.generation_id = g'
    · obtain ⟨row, hrow, _⟩ := hopen
      exact ⟨row, hc' ▸ hrow⟩
    · have hfind := (hother c.key hc').symm.trans (Table.find?_key hc)
      exact hchunk c (Table.mem_of_find? hfind)
  | complete g' hmine hun length =>
    intro c hc
    obtain ⟨old, hold⟩ := hchunk c hc
    rw [Db.generation?_set_complete]
    split
    · rename_i heq
      exact ⟨_, by rw [← heq, hold]; rfl⟩
    · exact ⟨old, hold⟩
  | drop g' hmine hun =>
    intro c hc
    obtain ⟨hc, hne⟩ := Table.mem_deleteWhere.mp hc
    rw [Db.generation?_drop, if_neg (by simpa using hne)]
    exact hchunk c hc
  | insert => exact hchunk
  | attributes => exact hchunk
  | revise => exact hchunk
  | replace n hlive g' hmine length hready old hold now =>
    intro c hc
    obtain ⟨hc, hne⟩ := Table.mem_deleteWhere.mp hc
    show ∃ row, (db.drop old).generation? _ = some row
    rw [Db.generation?_drop, if_neg (by simpa using hne)]
    exact hchunk c hc
  | relocate => exact hchunk
  | purge n =>
    intro c hc
    obtain ⟨hc, hne⟩ := Table.mem_deleteWhere.mp hc
    rw [Db.generation?_purge, if_neg (by simpa using hne)]
    exact hchunk c hc
  | trash => exact hchunk
  | restore => exact hchunk
  | enter => exact hchunk
  | reset ws =>
    intro c hc
    obtain ⟨hc, hne⟩ := Table.mem_deleteWhere.mp hc
    obtain ⟨row, hrow⟩ := hchunk c hc
    refine ⟨row, ?_⟩
    show (db.clear ws).generation? _ = _
    rw [Db.generation?_clear, hrow]
    simpa [Option.filter, hrow] using hne
  | erase ws =>
    intro c hc
    obtain ⟨hc, hne⟩ := Table.mem_deleteWhere.mp hc
    obtain ⟨row, hrow⟩ := hchunk c hc
    refine ⟨row, ?_⟩
    show (db.clear ws).generation? _ = _
    rw [Db.generation?_clear, hrow]
    simpa [Option.filter, hrow] using hne

/-- A node that keeps its content keeps it unchanged. -/
theorem same_content_of_same_file (h : Edit P fresh mine db db') (hwf : WellFormed db)
    (hfresh : ∀ id, fresh id → mine id) {n m : NodeRow} (hn : n ∈ db.nodes) (hm : m ∈ db'.nodes)
    (hsame : SameFile n m) {g : GenerationId} (hg : m.content_generation_id = some g) :
    SameContent db db' g := by
  have hng : n.content_generation_id = some g := hsame.generation.trans hg
  obtain hkept | ⟨_, hun⟩ := h.content hwf hfresh (g := g) (fun _ hun => hun n hn hng)
  · exact hkept
  · exact absurd hg (hun m hm)

theorem contentsWellFormed (h : Edit P fresh mine db db') (hwf : WellFormed db)
    (hfresh : ∀ id, fresh id → mine id) :
    ContentsWellFormed db' := by
  obtain ⟨x, hnodes⟩ := h.node_content hwf
  refine ⟨?_, ?_, ?_, h.chunk_stored hwf⟩
  · intro m hm hkind
    obtain ⟨n, hn, hsame⟩ | ⟨_, hfile, _⟩ := hnodes m hm
    · rw [← hsame.generation]
      exact hwf.contents.file n hn (hsame.kind.trans hkind)
    · exact hfile hkind
  · intro m hm g hg
    obtain ⟨n, hn, hsame⟩ | ⟨_, _, hready⟩ := hnodes m hm
    · obtain ⟨hkind, row, hrow, hcomplete, hlength, hws⟩ :=
        hwf.contents.generation n hn g (hsame.generation.trans hg)
      have hkept := h.same_content_of_same_file hwf hfresh hn hm hsame hg
      exact ⟨hsame.kind.symm.trans hkind, row, hkept.row.trans hrow, hcomplete,
        hlength.trans hsame.size,
        hws.trans hsame.workspace⟩
    · obtain ⟨hkind, _, hr, hkept⟩ := hready g hg
      obtain ⟨row, hrow, hrest⟩ := hr.stored
      exact ⟨hkind, row, hkept.row.trans hrow, hrest⟩
  · intro m hm m' hm' g hg hg'
    obtain ⟨n, hn, hsame⟩ | ⟨hx, _, hready⟩ := hnodes m hm
    · obtain ⟨n', hn', hsame'⟩ | ⟨_, _, hready'⟩ := hnodes m' hm'
      · have heq := hwf.contents.unshared n hn n' hn' g (hsame.generation.trans hg) (hsame'.generation.trans hg')
        subst heq
        exact db'.node_ext hm hm' (hsame.id.symm.trans hsame'.id)
      · exact absurd (hsame.generation.trans hg) ((hready' g hg').2.2.1.unreferenced n hn)
    · obtain ⟨n', hn', hsame'⟩ | ⟨hx', _, _⟩ := hnodes m' hm'
      · exact absurd (hsame'.generation.trans hg') ((hready g hg).2.2.1.unreferenced n' hn')
      · rw [hx, hx']

/-- Contents without gaps stay so. -/
theorem laidOut (h : Edit P fresh mine db db') (hwf : WellFormed db)
    (hfresh : ∀ id, fresh id → mine id) (hlaid : P.laid) (hall : LaidOut db) : LaidOut db' := by
  obtain ⟨x, hnodes⟩ := h.node_content hwf
  intro m hm g hg
  obtain ⟨n, hn, hsame⟩ | ⟨_, _, hready⟩ := hnodes m hm
  · rw [(h.same_content_of_same_file hwf hfresh hn hm hsame hg).laidOut, ← hsame.size]
    exact hall n hn g (hsame.generation.trans hg)
  · obtain ⟨_, _, hr, hkept⟩ := hready g hg
    rw [hkept.laidOut]
    exact hr.laid hlaid

end Edit

end fslite
