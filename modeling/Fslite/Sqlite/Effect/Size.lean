import Fslite.Sqlite.Effect.Growth

namespace fslite

open resolve

/-- The logical sizes of the workspace's nodes, trashed ones included. -/
def Db.sizes (db : Db) (ws : WorkspaceId) : List Nat :=
  (db.nodes.rows.filter (fun n => n.workspace_id = ws)).map (fun n => n.size)

/-- The rows are of one workspace and give it the same limits. -/
structure WorkspaceRow.SameLimits (row row' : WorkspaceRow) : Prop where
  id : row.id = row'.id
  max_bytes : row.max_bytes = row'.max_bytes
  max_nodes : row.max_nodes = row'.max_nodes
  max_file_bytes : row.max_file_bytes = row'.max_file_bytes

theorem WorkspaceRow.SameLimits.refl (row : WorkspaceRow) : row.SameLimits row :=
  ⟨rfl, rfl, rfl, rfl⟩

theorem WorkspaceRow.SameLimits.trans {row row' row'' : WorkspaceRow} (h : row.SameLimits row')
    (h' : row'.SameLimits row'') :
    row.SameLimits row'' :=
  ⟨h.id.trans h'.id, h.max_bytes.trans h'.max_bytes, h.max_nodes.trans h'.max_nodes,
    h.max_file_bytes.trans h'.max_file_bytes⟩

/-- No workspace is new or has other limits. -/
def LimitsKept (db db' : Db) : Prop :=
  ∀ row ∈ db'.workspaces, ∃ row' ∈ db.workspaces, row.SameLimits row'

theorem LimitsKept.of_eq {db db' : Db} (h : db'.workspaces = db.workspaces) : LimitsKept db db' :=
  fun row hrow => ⟨row, h ▸ hrow, .refl row⟩

theorem LimitsKept.trans {db db' db'' : Db} (h : LimitsKept db db') (h' : LimitsKept db' db'') :
    LimitsKept db db'' := by
  intro row hrow
  obtain ⟨row', hrow', hsame⟩ := h' row hrow
  obtain ⟨row'', hrow'', hsame'⟩ := h row' hrow'
  exact ⟨row'', hrow'', hsame.trans hsame'⟩

/-- Up to the order, the workspace has at most nodes of these sizes besides those
it had, those of the `removed` sizes are gone, and no other workspace has grown. -/
structure Grows (ws : WorkspaceId) (removed added : List Nat) (db db' : Db) : Prop where
  own : List.Subperm (db'.sizes ws ++ removed) (db.sizes ws ++ added)
  other : ∀ id, id ≠ ws → List.Subperm (db'.sizes id) (db.sizes id)
  limits : LimitsKept db db'

namespace Grows

variable {ws : WorkspaceId} {removed added added' : List Nat} {db db' db'' : Db}

theorem of_sizes (h : ∀ id, List.Subperm (db'.sizes id) (db.sizes id))
    (hlimits : LimitsKept db db') :
    Grows ws [] [] db db' where
  own := by simpa using h ws
  other id _ := h id
  limits := hlimits

theorem of_eq (h : db'.nodes = db.nodes) (hlimits : LimitsKept db db') : Grows ws [] [] db db' :=
  of_sizes (fun id => by rw [Db.sizes, Db.sizes, h]) hlimits

theorem refl (ws : WorkspaceId) (db : Db) : Grows ws [] [] db db := of_eq rfl (.of_eq rfl)

theorem trans (h : Grows ws removed added db db') (h' : Grows ws [] added' db' db'') :
    Grows ws removed (added ++ added') db db'' where
  own := by
    have hown' := h'.own
    rw [List.append_nil] at hown'
    have hmiddle : (db'.sizes ws ++ added' ++ removed).Perm
        (db'.sizes ws ++ removed ++ added') := by
      rw [List.append_assoc, List.append_assoc]
      exact List.Perm.append_left _ List.perm_append_comm
    rw [← List.append_assoc]
    exact ((List.subperm_append_right removed).mpr hown').trans
      (hmiddle.subperm.trans ((List.subperm_append_right added').mpr h.own))
  other id hid := (h'.other id hid).trans (h.other id hid)
  limits := h.limits.trans h'.limits

/-- Nodes that go make no workspace grow. -/
theorem of_filter {p : NodeRow → Bool} (hnodes : db'.nodes.rows = db.nodes.rows.filter p)
    (hlimits : LimitsKept db db') :
    Grows ws [] [] db db' := by
  refine of_sizes (fun id => List.Sublist.subperm (List.Sublist.map _ ?_)) hlimits
  rw [hnodes]
  exact List.Sublist.filter _ (List.filter_sublist ..)

/-- A changed row that keeps its workspace and its size. -/
theorem of_modify {id : NodeId} {u : Table.Update NodeRow.key}
    (hnodes : db'.nodes = db.nodes.modify id u)
    (hws : ∀ n ∈ db.nodes, (u.apply n).workspace_id = n.workspace_id)
    (hsize : ∀ n ∈ db.nodes, (u.apply n).size = n.size) (hlimits : LimitsKept db db') :
    Grows ws [] [] db db' := by
  have hrow : ∀ n ∈ db.nodes.rows,
    (if NodeRow.key n = id then u.apply n else n).workspace_id = n.workspace_id ∧
      (if NodeRow.key n = id then u.apply n else n).size = n.size := by
    intro n hn
    split
    · exact ⟨hws n hn, hsize n hn⟩
    · exact ⟨rfl, rfl⟩
  refine of_sizes (fun id' => ?_) hlimits
  have hsame : db'.sizes id' = db.sizes id' := by
    rw [Db.sizes, hnodes, Table.modify, List.filter_map, List.map_map, Db.sizes]
    rw [List.filter_congr (q := fun n => decide (n.workspace_id = id'))
      (fun n hn => by simp only [Function.comp_apply, (hrow n hn).1])]
    exact List.map_congr_left (fun n hn => (hrow n (List.mem_of_mem_filter hn)).2)
  rw [hsame]

/-- A new node. -/
theorem of_insert {n : NodeRow} (hins : db.nodes.insert n = some db'.nodes)
    (hws : n.workspace_id = ws) (hlimits : LimitsKept db db') : Grows ws [] [n.size] db db' := by
  have hsizes : ∀ id, db'.sizes id = db.sizes id ++ if id = ws then [n.size] else [] := by
    intro id
    rw [Db.sizes, (Table.insert_eq_some.mp hins).2, List.filter_append, List.map_append, Db.sizes]
    congr 1
    by_cases hid : id = ws
    · rw [if_pos hid, List.filter_cons_of_pos (by simp [hws, hid])]
      rfl
    · rw [if_neg hid, List.filter_cons_of_neg (by simp [hws, Ne.symm hid])]
      rfl
  refine ⟨?_, fun id hid => ?_, hlimits⟩
  · rw [hsizes, if_pos rfl, List.append_nil]
  · rw [hsizes, if_neg hid, List.append_nil]

/-- A changed row of another size. -/
theorem of_replace {n : NodeRow} {u : Table.Update NodeRow.key} (hn : n ∈ db.nodes)
    (hnodes : db'.nodes = db.nodes.modify n.id u) (hws : n.workspace_id = ws)
    (hws' : (u.apply n).workspace_id = ws) (hlimits : LimitsKept db db') :
    Grows ws [n.size] [(u.apply n).size] db db' := by
  obtain ⟨front, back, hrows⟩ := List.append_of_mem hn
  have hunique : ∀ m ∈ front ++ back, NodeRow.key m ≠ n.id := by
    have hnodup := db.nodes.nodup
    rw [hrows, List.map_append, List.map_cons, List.nodup_middle, ← List.map_append,
      List.nodup_cons] at hnodup
    exact fun m hm hkey => hnodup.1 (List.mem_map.mpr ⟨m, hm, hkey⟩)
  have hfix : ∀ l : List NodeRow, (∀ m ∈ l, NodeRow.key m ≠ n.id) →
      l.map (fun m => if NodeRow.key m = n.id then u.apply m else m) = l := by
    intro l hl
    exact (List.map_congr_left (fun m hm => if_neg (hl m hm))).trans (List.map_id' l)
  have hrows' : db'.nodes.rows = front ++ u.apply n :: back := by
    rw [hnodes]
    show db.nodes.rows.map _ = _
    rw [hrows, List.map_append, List.map_cons, hfix front
      (fun m hm => hunique m (List.mem_append_left _ hm)),
      hfix back (fun m hm => hunique m (List.mem_append_right _ hm)), if_pos rfl]
  refine ⟨List.Perm.subperm ?_, fun id hid => ?_, hlimits⟩
  · simp only [Db.sizes, hrows, hrows', List.filter_append, List.map_append]
    rw [List.filter_cons_of_pos (by simp [hws']), List.filter_cons_of_pos (by simp [hws]),
      List.map_cons, List.map_cons]
    rw [List.perm_iff_count]
    intro a
    simp only [List.count_append, List.count_cons, List.count_nil]
    omega
  · simp only [Db.sizes, hrows, hrows', List.filter_append]
    rw [List.filter_cons_of_neg (by simp [hws', Ne.symm hid]),
      List.filter_cons_of_neg (by simp [hws, Ne.symm hid])]

end Grows

/-- A recorded change makes no workspace grow. -/
theorem Recorded.grows {ws id : WorkspaceId} {kind : ChangeKind} {node_id : Option NodeId}
    {old_path new_path : Option Text} {revision : Option Nat} {db db' : Db}
    (h : Recorded ws kind node_id old_path new_path revision db db') :
    Grows id [] [] db db' := by
  refine .of_eq h.appended.nodes ?_
  obtain ⟨now, actor_json, row, changes, hrow, hins, rfl⟩ := h
  intro row' hrow'
  obtain ⟨x, hx, rfl⟩ := Table.mem_modify.mp (show row' ∈ db.workspaces.modify ws _ from hrow')
  refine ⟨x, hx, ?_⟩
  split
  · exact ⟨rfl, rfl, rfl, rfl⟩
  · exact .refl x

end fslite
