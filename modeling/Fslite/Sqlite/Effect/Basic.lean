import Fslite.Sqlite.Edit.Version

namespace fslite

/-- The identifiers drawn between two ticks. -/
def Drawn (rt : Runtime) (lower upper : Nat) (id : Uuid) : Prop :=
  ∃ k, lower ≤ k ∧ k < upper ∧ rt.newId k = id

/-- What a transaction does to the store: changes with the identifiers it draws
and the generations only its author knows. -/
structure Effect (rt : Runtime) (P : Policy) (o : Option GenerationId) (w w' : World) : Prop where
  tick : w.tick ≤ w'.tick
  edits : Edits P (Drawn rt w.tick w'.tick)
    (fun g => o = some g ∨ Drawn rt w.tick w'.tick g) w.db w'.db

theorem Drawn.mono {rt : Runtime} {a b c d : Nat} {id : Uuid} (h : Drawn rt b c id) (hab : a ≤ b)
    (hcd : c ≤ d) :
    Drawn rt a d id := by
  obtain ⟨k, hbk, hkc, hid⟩ := h
  exact ⟨k, hab.trans hbk, hkc.trans_le hcd, hid⟩

namespace Effect

variable {rt : Runtime} {P : Policy} {o : Option GenerationId} {w w₁ w₂ : World}

theorem refl (rt : Runtime) (P : Policy) (o : Option GenerationId) (w : World) :
    Effect rt P o w w :=
  ⟨le_refl _, Edits.refl _⟩

theorem trans (h : Effect rt P o w w₁) (h' : Effect rt P o w₁ w₂) : Effect rt P o w w₂ := by
  refine ⟨h.tick.trans h'.tick, (h.edits.mono ?_ ?_).trans (h'.edits.mono ?_ ?_)⟩
  · exact fun id hid => hid.mono (le_refl _) h'.tick
  · exact fun g hg => hg.imp_right (fun hid => hid.mono (le_refl _) h'.tick)
  · exact fun id hid => hid.mono h.tick (le_refl _)
  · exact fun g hg => hg.imp_right (fun hid => hid.mono h.tick (le_refl _))

theorem of_edit (htick : w.tick ≤ w₁.tick)
    (h : Edit P (Drawn rt w.tick w₁.tick)
    (fun g => o = some g ∨ Drawn rt w.tick w₁.tick g) w.db w₁.db) :
    Effect rt P o w w₁ := ⟨htick, Edits.single h⟩

theorem wellFormed (h : Effect rt P o w w₁) (hwf : WellFormed w.db) : WellFormed w₁.db :=
  h.edits.wellFormed (fun _ hid => Or.inr hid) hwf

end Effect

/-- One change row has been appended for the workspace, and nothing else happened. -/
def Appended (ws : WorkspaceId) (db db' : Db) : Prop :=
  ∃ (now : Int) (c : ChangeRow) (row : WorkspaceRow) (changes : Table ChangeRow.position),
    db.workspace? ws = some row ∧ c.workspace_id = ws ∧ c.sequence = row.change_seq + 1 ∧
    db.changes.insert c = some changes ∧ db' = { db.bump_sequence ws now with changes }

namespace Appended

variable {ws : WorkspaceId} {db db' : Db}

theorem nodes (h : Appended ws db db') : db'.nodes = db.nodes := by
  obtain ⟨now, c, row, changes, _, _, _, _, rfl⟩ := h
  rfl

theorem content_generations (h : Appended ws db db') :
    db'.content_generations = db.content_generations := by
  obtain ⟨now, c, row, changes, _, _, _, _, rfl⟩ := h
  rfl

theorem content_chunks (h : Appended ws db db') : db'.content_chunks = db.content_chunks := by
  obtain ⟨now, c, row, changes, _, _, _, _, rfl⟩ := h
  rfl

theorem attributes (h : Appended ws db db') : db'.attributes = db.attributes := by
  obtain ⟨now, c, row, changes, _, _, _, _, rfl⟩ := h
  rfl

theorem trash (h : Appended ws db db') : db'.trash = db.trash := by
  obtain ⟨now, c, row, changes, _, _, _, _, rfl⟩ := h
  rfl

theorem nodesWellFormed (h : Appended ws db db') (hwf : NodesWellFormed db) :
    NodesWellFormed db' := by
  obtain ⟨now, c, row, changes, hrow, _, _, _, rfl⟩ := h
  exact (hwf.bump_sequence hrow now).frame rfl (fun _ => Iff.rfl)

end Appended

/-- The appended row says what happened, to which node and at which paths. -/
def Recorded (ws : WorkspaceId) (kind : ChangeKind) (node_id : Option NodeId)
    (old_path new_path : Option Text) (revision : Option Nat) (db db' : Db) : Prop :=
  ∃ (now : Int) (actor_json : Text) (row : WorkspaceRow) (changes : Table ChangeRow.position),
    db.workspace? ws = some row ∧
    db.changes.insert ⟨ws, row.change_seq + 1, kind, node_id, old_path, new_path, revision, now,
      actor_json⟩ =
      some changes ∧
    db' = { db.bump_sequence ws now with changes }

theorem Recorded.appended {ws : WorkspaceId} {kind : ChangeKind} {node_id : Option NodeId}
    {old_path new_path : Option Text} {revision : Option Nat} {db db' : Db}
    (h : Recorded ws kind node_id old_path new_path revision db db') : Appended ws db db' := by
  obtain ⟨now, actor_json, row, changes, hrow, hins, rfl⟩ := h
  exact ⟨now, _, row, changes, hrow, rfl, rfl, hins, rfl⟩

/-- A recorded change that can be read back is a permitted change of the store. -/
theorem Recorded.edit {ws : WorkspaceId} {kind : ChangeKind} {node_id : Option NodeId}
    {old_path new_path : Option Text} {revision : Option Nat} {db db' : Db} {P : Policy}
    {fresh : Uuid → Prop} {mine : GenerationId → Prop}
    (h : Recorded ws kind node_id old_path new_path revision db db') (hold : PathText old_path)
    (hnew : PathText new_path) (hrevision : revision ≠ some 0) : Edit P fresh mine db db' := by
  obtain ⟨now, actor_json, row, changes, hrow, hins, rfl⟩ := h
  exact .append ws now _ row hrow rfl rfl ⟨hold, hnew, hrevision⟩ hins

/-- The row that is appended, and where. -/
theorem change.append_exact {ws : WorkspaceId} {kind : ChangeKind} {node_id : Option NodeId}
    {old_path new_path : Option Text} {revision : Option Nat} {actor_json : Text} {now : Int}
    {w w' : World} {u : Unit}
    (h : change.append ws kind node_id old_path new_path revision actor_json now w = .ok (u, w')) :
    w'.tick = w.tick ∧ ∃ row changes, w.db.workspace? ws = some row ∧
      w.db.changes.insert ⟨ws, row.change_seq + 1, kind, node_id, old_path, new_path, revision, now,
        actor_json⟩ =
        some changes ∧ w'.db = { w.db.bump_sequence ws now with changes } := by
  simp only [change.append, Tx.execute_bind_eq_ok, Tx.query_bind, Except.ok.injEq,
    exists_eq_left'] at h
  rw [show Db.workspace? _ ws = _ from Db.workspace?_bump_sequence w.db ws now ws, if_pos rfl] at h
  cases hrow : w.db.workspace? ws with
  | none => simp [hrow] at h
  | some row =>
    simp only [hrow, Option.map_some, Tx.execute_eq_ok] at h
    obtain ⟨db, hins, rfl⟩ := h
    unfold Db.insert_change at hins
    split at hins
    · split at hins
      · rename_i changes hinsert
        cases hins
        exact ⟨rfl, row, changes, rfl, hinsert, rfl⟩
      · cases hins
    · cases hins

theorem change.append_ok {ws : WorkspaceId} {kind : ChangeKind} {node_id : Option NodeId}
    {old_path new_path : Option Text} {revision : Option Nat} {actor_json : Text} {now : Int}
    {w w' : World} {u : Unit}
    (h : change.append ws kind node_id old_path new_path revision actor_json now w = .ok (u, w')) :
    w'.tick = w.tick ∧ Recorded ws kind node_id old_path new_path revision w.db w'.db := by
  obtain ⟨htick, row, changes, hrow, hins, hdb⟩ := change.append_exact h
  exact ⟨htick, now, actor_json, row, changes, hrow, hins, hdb⟩

theorem Db.insert_node_ok {row : NodeRow} {db db' : Db} (h : Db.insert_node row db = .ok db') :
    ∃ nodes, db.nodes.insert row = some nodes ∧ db' = { db with nodes } := by
  unfold Db.insert_node at h
  split at h
  · split at h
    · rename_i nodes hins
      cases h
      exact ⟨nodes, hins, rfl⟩
    · cases h
  · cases h

theorem Db.update_node_ok {id : NodeId} {u : Table.Update NodeRow.key} {db db' : Db}
    (h : Db.update_node id u db = .ok db') : db' = { db with nodes := db.nodes.modify id u } := by
  unfold Db.update_node at h
  split at h
  · rename_i hnone
    cases h
    rw [Table.modify_eq_self hnone]
  · split at h
    · cases h
      rfl
    · cases h

theorem Db.drop_of_remove_generation {g : GenerationId} {db db' : Db}
    (h : db.remove_generation g = .ok db') :
    db' = db.drop g := by
  unfold Db.remove_generation at h
  split at h
  · cases h
  · cases h
    rfl

theorem Db.foldlM_remove_generation {gens : List GenerationId} {db db' : Db}
    (h : gens.foldlM (fun db g => db.remove_generation g) db = .ok db') :
    db' = { db with
      content_generations := db.content_generations.deleteWhere (fun row => row.id ∈ gens)
      content_chunks := db.content_chunks.deleteWhere (fun c => c.generation_id ∈ gens) } := by
  induction gens generalizing db with
  | nil =>
    cases h
    simp [Table.deleteWhere_eq_self]
  | cons g rest ih =>
    rw [List.foldlM_cons] at h
    cases hg : db.remove_generation g with
    | error fault =>
      rw [hg] at h
      cases h
    | ok db₁ =>
      rw [hg] at h
      rw [ih h, Db.drop_of_remove_generation hg]
      simp only [Db.drop, Table.deleteWhere_deleteWhere, List.mem_cons, Bool.decide_or]

theorem mutate.purge_subtree_ok {id : NodeId} {w w' : World} {u : Unit}
    (h : mutate.purge_subtree id w = .ok (u, w')) : w' = { w with db := w.db.purge id } := by
  simp only [mutate.purge_subtree, Tx.query_bind] at h
  split at h
  · simp at h
  · simp only [Tx.query_bind, Tx.execute_bind_eq_ok, Tx.execute_eq_ok, Except.ok.injEq,
      exists_eq_left'] at h
    obtain ⟨db, hdb, rfl⟩ := h
    rw [Db.foldlM_remove_generation hdb]
    rfl

/-- A row that is read back after it has been written has the revision written. -/
theorem resolve.revision_pos_of_modified {db : Db} {ws : WorkspaceId} {nodes : Table NodeRow.key}
    {id : NodeId} {u : Table.Update NodeRow.key} {row : RawNode}
    (hnodes : db.nodes = nodes.modify id u) (h : fetch_by_id db ws id = some row)
    (hpos : ∀ n, 0 < (u.apply n).revision) : 0 < row.revision := by
  obtain ⟨n, hn, rfl, _, hid, _⟩ := fetch_by_id_eq_some.mp h
  rw [hnodes] at hn
  obtain ⟨m, _, rfl⟩ := Table.mem_modify.mp hn
  by_cases hkey : NodeRow.key m = id
  · rw [if_pos hkey]
    exact hpos m
  · rw [if_neg hkey] at hid
    exact absurd hid hkey

end fslite
