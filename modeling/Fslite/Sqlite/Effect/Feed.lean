import Fslite.Sqlite.Effect.Growth

namespace fslite

/-- The sequence of the workspace's last change. -/
def Db.change_seq (db : Db) (ws : WorkspaceId) : Nat :=
  ((db.workspace? ws).map WorkspaceRow.change_seq).getD 0

/-- The rows are appended to the workspace's feed and continue its sequence. -/
structure Feeds (ws : WorkspaceId) (rows : List ChangeRow) (db db' : Db) : Prop where
  changes : db'.changes.rows = db.changes.rows ++ rows
  owner : ∀ c ∈ rows, c.workspace_id = ws
  sequences : rows.map ChangeRow.sequence = List.range' (db.change_seq ws + 1) rows.length
  last : db'.change_seq ws = db.change_seq ws + rows.length

namespace Feeds

variable {ws : WorkspaceId} {rows rows' : List ChangeRow} {db db' db'' : Db}

theorem nothing (hchanges : db'.changes = db.changes)
    (hworkspaces : db'.workspaces = db.workspaces) : Feeds ws [] db db' where
  changes := by rw [hchanges, List.append_nil]
  owner := by simp
  sequences := rfl
  last := by simp only [Db.change_seq, Db.workspace?, hworkspaces, List.length_nil, Nat.add_zero]

theorem refl (ws : WorkspaceId) (db : Db) : Feeds ws [] db db := nothing rfl rfl

theorem trans (h : Feeds ws rows db db') (h' : Feeds ws rows' db' db'') :
    Feeds ws (rows ++ rows') db db'' where
  changes := by rw [h'.changes, h.changes, List.append_assoc]
  owner c hc := (List.mem_append.mp hc).elim (h.owner c) (h'.owner c)
  sequences := by
    rw [List.map_append, h.sequences, h'.sequences, h.last, List.length_append,
      ← List.range'_append_1]
    congr 2
    omega
  last := by rw [h'.last, h.last, List.length_append, Nat.add_assoc]

/-- What happens elsewhere does not matter. -/
theorem congr (h : Feeds ws rows db db') {db₀ db₁ : Db} (hchanges : db.changes = db₀.changes)
    (hworkspaces : db.workspaces = db₀.workspaces) (hchanges' : db₁.changes = db'.changes)
    (hworkspaces' : db₁.workspaces = db'.workspaces) : Feeds ws rows db₀ db₁ := by
  have hbefore : Feeds ws [] db₀ db := nothing hchanges hworkspaces
  have hafter : Feeds ws [] db' db₁ := nothing hchanges' hworkspaces'
  simpa using (hbefore.trans h).trans hafter

end Feeds

/-- The row that takes the next sequence is the next row of the workspace's feed. -/
theorem Feeds.of_insert {ws : WorkspaceId} {now : Int} {c : ChangeRow} {row : WorkspaceRow}
    {db : Db} {changes : Table ChangeRow.position} (hrow : db.workspace? ws = some row)
    (hws : c.workspace_id = ws) (hseq : c.sequence = row.change_seq + 1)
    (hins : db.changes.insert c = some changes) :
    Feeds ws [c] db { db.bump_sequence ws now with changes } := by
  have hlast : db.change_seq ws =
    row.change_seq := by rw [Db.change_seq, hrow, Option.map_some, Option.getD_some]
  refine ⟨(Table.insert_eq_some.mp hins).2, by simp [hws], by simp [hlast, hseq], ?_⟩
  show ((Db.workspace? (db.bump_sequence ws now) ws).map WorkspaceRow.change_seq).getD 0 = _
  rw [Db.workspace?_bump_sequence, if_pos rfl, hrow, hlast]
  rfl

/-- A recorded change is the next row of the workspace's feed. -/
theorem Recorded.feeds {ws : WorkspaceId} {kind : ChangeKind} {node_id : Option NodeId}
    {old_path new_path : Option Text} {revision : Option Nat} {db₁ db' : Db}
    (h : Recorded ws kind node_id old_path new_path revision db₁ db') (db : Db)
    (hchanges : db₁.changes = db.changes) (hworkspaces : db₁.workspaces = db.workspaces) :
    ∃ sequence now actor_json, Feeds ws
      [⟨ws, sequence, kind, node_id, old_path, new_path, revision, now, actor_json⟩] db db' := by
  obtain ⟨now, actor_json, row, changes, hrow, hins, rfl⟩ := h
  exact ⟨row.change_seq + 1, now, actor_json,
    (Feeds.of_insert hrow rfl rfl hins).congr hchanges hworkspaces rfl rfl⟩

theorem Db.overwritten_changes (db : Db) (existing : Option RawNode) :
    (db.overwritten existing).changes = db.changes := by
  cases existing <;> rfl

theorem Db.overwritten_workspaces (db : Db) (existing : Option RawNode) :
    (db.overwritten existing).workspaces = db.workspaces := by
  cases existing <;> rfl

/-- The rows of the workspace's feed, oldest first. -/
def Db.feed (db : Db) (ws : WorkspaceId) : List ChangeRow :=
  db.changes.rows.filter (fun c => c.workspace_id = ws)

/-- Every feed is numbered from one up to the sequence of its last change. -/
def Numbered (db : Db) : Prop :=
  ∀ ws, (db.feed ws).map ChangeRow.sequence = List.range' 1 (db.change_seq ws)

namespace Numbered

variable {db db' : Db}

theorem empty : Numbered Db.empty := fun _ => rfl

theorem congr (h : Numbered db) (hchanges : db'.changes = db.changes)
    (hworkspaces : db'.workspaces = db.workspaces) :
    Numbered db' := by
  intro ws
  simp only [Db.feed, Db.change_seq, Db.workspace?, hchanges, hworkspaces]
  exact h ws

theorem append (h : Numbered db) {ws : WorkspaceId} {now : Int} {c : ChangeRow} {row : WorkspaceRow}
    {changes : Table ChangeRow.position} (hrow : db.workspace? ws = some row)
    (hws : c.workspace_id = ws) (hseq : c.sequence = row.change_seq + 1)
    (hins : db.changes.insert c = some changes) :
    Numbered { db.bump_sequence ws now with changes } := by
  intro ws'
  have hnumber : ∀ id, Db.change_seq { db.bump_sequence ws now with changes } id =
      if id = ws then row.change_seq + 1 else db.change_seq id := by
    intro id
    show ((Db.workspace? (db.bump_sequence ws now) id).map WorkspaceRow.change_seq).getD 0 = _
    rw [Db.workspace?_bump_sequence]
    split
    · rw [hrow]
      rfl
    · rfl
  have hold := h ws'
  simp only [Db.feed, (Table.insert_eq_some.mp hins).2, List.filter_append,
    List.map_append] at hold ⊢
  rw [hold, hnumber]
  split
  · rename_i heq
    subst heq
    rw [List.filter_cons_of_pos (by simpa using hws), List.filter_nil, Db.change_seq, hrow,
      Option.map_some,
      Option.getD_some, List.range'_1_concat, List.map_singleton, hseq, Nat.add_comm 1]
  · rename_i hne
    rw [List.filter_cons_of_neg (by simpa [hws] using Ne.symm hne), List.filter_nil, List.map_nil,
      List.append_nil]

/-- A workspace that has no changes any more starts again at zero. -/
theorem clear (h : Numbered db) {ws : WorkspaceId} (hchanges : db'.changes = (db.clear ws).changes)
    (hself : db'.change_seq ws = 0)
    (hother : ∀ id, id ≠ ws → db'.change_seq id = db.change_seq id) : Numbered db' := by
  intro id
  have hrows : db'.feed id = (db.feed id).filter (fun c => !decide (c.workspace_id = ws)) := by
    simp only [Db.feed, hchanges, Db.clear, Table.deleteWhere, List.filter_filter, Bool.and_comm]
  by_cases hid : id = ws
  · subst hid
    rw [hself, hrows]
    simp [Db.feed, List.filter_filter]
  · rw [hother id hid, ← h id, hrows, List.filter_eq_self.mpr]
    intro c hc
    have hc' := (List.mem_filter.mp hc).2
    simp only [decide_eq_true_eq] at hc'
    simpa [hc'] using hid

end Numbered

/-- Every change keeps the feeds numbered. -/
theorem Edit.numbered {P : Policy} {fresh : Uuid → Prop} {mine : GenerationId → Prop} {db db' : Db}
    (h : Edit P fresh mine db db') (hwf : WellFormed db) (hnumbered : Numbered db) :
    Numbered db' := by
  cases h with
  | append ws now c row hrow hws hseq hreadable hins => exact hnumbered.append hrow hws hseq hins
  | enter row root hroot hid hseq now hws hins =>
    intro ws
    have hfind := Table.find?_insert hws
    show (db.feed ws).map ChangeRow.sequence = _
    by_cases hne : row.id = ws
    · have hnone : db.feed ws = [] := by
        refine List.filter_eq_nil_iff.mpr (fun c hc => ?_)
        obtain ⟨w, hw, _⟩ := hwf.changes c hc
        simp only [decide_eq_true_eq]
        rintro rfl
        rw [← hne, Db.workspace?, (Table.insert_eq_some.mp hws).1] at hw
        cases hw
      rw [hnone, Db.change_seq, Db.workspace?, hfind, if_pos hne, Option.map_some, Option.getD_some,
        hseq]
      rfl
    · rw [hnumbered ws, Db.change_seq, Db.change_seq, Db.workspace?, Db.workspace?, hfind,
        if_neg hne]
  | reset ws row hrow hpolicy root hroot now hins =>
    have hseq : ∀ id, ((Db.workspace?
      (Db.reset_sequence ws now (db.clear ws)) id).map WorkspaceRow.change_seq).getD 0 =
        if id = ws then 0 else db.change_seq id := by
      intro id
      rw [Db.workspace?_reset_sequence]
      split
      · show (((db.workspace? ws).map _).map WorkspaceRow.change_seq).getD 0 = 0
        rw [hrow]
        rfl
      · rfl
    exact hnumbered.clear rfl ((hseq ws).trans (if_pos rfl))
      (fun id hid => (hseq id).trans (if_neg hid))
  | erase ws hpolicy =>
    have hfind := Table.find?_deleteWhere db.workspaces (fun row => row.id = ws)
    refine hnumbered.clear rfl ?_ (fun id hid => ?_)
    · rw [Db.change_seq, Db.workspace?, hfind]
      cases hrow : db.workspaces.find? ws with
      | none => rfl
      | some row =>
        rw [Option.filter_some, if_neg (by simpa using Table.key_of_find? hrow)]
        rfl
    · rw [Db.change_seq, Db.change_seq, Db.workspace?, Db.workspace?, hfind]
      cases hrow : db.workspaces.find? id with
      | none => rfl
      | some row =>
        rw [Option.filter_some, if_pos]
        simpa [Table.key_of_find? hrow] using hid
  | _ => exact hnumbered.congr rfl rfl

end fslite
