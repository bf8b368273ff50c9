import Fslite.Sqlite.Schema

namespace fslite

/-- A transaction body: it reads and writes the database, draws identifiers and
times, and may fail; a failure rolls everything back. -/
abbrev Tx (A : Type) := StateT World (Except Fault) A

namespace Tx

def query {A : Type} (f : Db → A) : Tx A := fun w => .ok (f w.db, w)

def execute (f : Db → Except Fault Db) : Tx Unit := fun w =>
  match f w.db with
  | .ok db => .ok ((), { w with db })
  | .error fault => .error fault

def fail {A : Type} (fault : Fault) : Tx A := fun _ => .error fault

/-- `NodeId::new()` and its siblings. -/
def new_id (rt : Runtime) : Tx Uuid := fun w => .ok (rt.newId w.tick, { w with tick := w.tick + 1 })

def now_ms (rt : Runtime) : Tx Int := fun w => .ok (rt.nowMs w.tick, { w with tick := w.tick + 1 })

/-- `expect`: the value, or a panic. -/
def expect {A : Type} : Option A → Tx A
  | some a => fun w => .ok (a, w)
  | none => fail .Panic

theorem bind_eq_ok {A B : Type} {x : Tx A} {f : A → Tx B} {w : World} {r : B × World} :
    (x >>= f) w = .ok r ↔ ∃ a w₁, x w = .ok (a, w₁) ∧ f a w₁ = .ok r := by
  show Except.bind (x w) (fun p => f p.1 p.2) = .ok r ↔ _
  cases x w with
  | error e => simp [Except.bind]
  | ok p =>
    obtain ⟨a, w₁⟩ := p
    simp [Except.bind]

theorem ok_of_any {A : Type} {x : Except Fault A} {p : A → Bool}
    (h : x.toOption.any p = true) : ∃ a, x = .ok a ∧ p a = true := by
  cases x with
  | error fault => cases h
  | ok a => exact ⟨a, rfl, h⟩

theorem bind_of_ok {A B : Type} {x : Tx A} {f : A → Tx B} {w w₁ : World} {a : A}
    (h : x w = .ok (a, w₁)) :
    (x >>= f) w = f a w₁ := by
  show Except.bind (x w) (fun p => f p.1 p.2) = _
  rw [h]
  rfl

theorem bind_of_error {A B : Type} {x : Tx A} {f : A → Tx B} {w : World} {fault : Fault}
    (h : x w = .error fault) :
    (x >>= f) w = .error fault := by
  show Except.bind (x w) (fun p => f p.1 p.2) = _
  rw [h]
  rfl

section bind

variable {A B : Type} {w : World}

@[simp] theorem query_bind (f : Db → A) (g : A → Tx B) : (query f >>= g) w = g (f w.db) w := rfl

@[simp] theorem new_id_bind (rt : Runtime) (g : Uuid → Tx B) :
    (new_id rt >>= g) w = g (rt.newId w.tick) { w with tick := w.tick + 1 } := rfl

@[simp] theorem now_ms_bind (rt : Runtime) (g : Int → Tx B) :
    (now_ms rt >>= g) w = g (rt.nowMs w.tick) { w with tick := w.tick + 1 } := rfl

@[simp] theorem return_bind (a : A) (g : A → Tx B) : (pure a >>= g) w = g a w := rfl

@[simp] theorem execute_bind_eq_ok {f : Db → Except Fault Db} {g : Unit → Tx B} {r : B × World} :
    (execute f >>= g) w = .ok r ↔ ∃ db, f w.db = .ok db ∧ g () { w with db } = .ok r := by
  rw [bind_eq_ok]
  unfold execute
  cases f w.db with
  | error fault => simp
  | ok db =>
    simp only [Except.ok.injEq, Prod.mk.injEq, exists_eq_left']
    exact ⟨fun ⟨_, _, ⟨_, hw⟩, h⟩ => hw ▸ h, fun h => ⟨(), _, ⟨trivial, rfl⟩, h⟩⟩

@[simp] theorem expect_bind_eq_ok {x : Option A} {g : A → Tx B} {r : B × World} :
    (expect x >>= g) w = .ok r ↔ ∃ a, x = some a ∧ g a w = .ok r := by
  rw [bind_eq_ok]
  cases x <;> simp [expect, fail]

end bind

@[simp] theorem pure_eq_ok {A : Type} {a b : A} {w w' : World} :
    (pure a : Tx A) w = .ok (b, w') ↔ a = b ∧ w = w' := by
  show Except.ok (a, w) = .ok (b, w') ↔ _
  simp

@[simp] theorem fail_ne_ok {A : Type} {fault : Fault} {w : World} {r : A × World} :
    (fail fault : Tx A) w ≠ .ok r := by
  simp [fail]

@[simp] theorem query_eq_ok {A : Type} {f : Db → A} {b : A} {w w' : World} :
    query f w = .ok (b, w') ↔ f w.db = b ∧ w = w' := by
  simp [query]

@[simp] theorem expect_eq_ok {A : Type} {x : Option A} {a : A} {w w' : World} :
    expect x w = .ok (a, w') ↔ x = some a ∧ w = w' := by
  cases x <;> simp [expect, fail]

@[simp] theorem execute_eq_ok {f : Db → Except Fault Db} {w w' : World} {u : Unit} :
    execute f w = .ok (u, w') ↔ ∃ db, f w.db = .ok db ∧ w' = { w with db } := by
  unfold execute
  cases f w.db with
  | error fault => simp
  | ok db => simp [eq_comm]

end Tx

namespace Db

/-- Whether an untrashed child of `parent_id` other than `except` has the name:
the unique index `nodes_parent_active`. -/
def name_taken (db : Db) (ws : WorkspaceId) (parent_id : Option NodeId) (name : Text)
    (id : NodeId) : Bool :=
  parent_id.isSome && db.nodes.rows.any (fun n =>
    n.id ≠ id ∧ n.workspace_id = ws ∧ n.parent_id = parent_id ∧ n.name = name ∧
      n.trashed_at_ms = none)

/-- The constraints on a node row that is written: its foreign keys and the
unique index. -/
def node_allowed (db : Db) (row : NodeRow) : Bool :=
  db.workspaces.contains row.workspace_id &&
  row.parent_id.all (fun p => db.nodes.contains p) &&
  row.content_generation_id.all (fun g => db.content_generations.contains g) &&
  (row.trashed_at_ms.isSome || !db.name_taken row.workspace_id row.parent_id row.name row.id)

def insert_node (row : NodeRow) (db : Db) : Except Fault Db :=
  if db.node_allowed row then
    match db.nodes.insert row with
    | some nodes => .ok { db with nodes }
    | none => .error .Constraint
  else .error .Constraint

/-- `UPDATE nodes SET .. WHERE id = ?`; no row matching is no error. -/
def update_node (id : NodeId) (u : Table.Update NodeRow.key) (db : Db) : Except Fault Db :=
  match db.node? id with
  | none => .ok db
  | some row =>
    if db.node_allowed (u.apply row) then .ok
      { db with nodes := db.nodes.modify id u } else .error .Constraint

/-- `DELETE FROM nodes WHERE id = ?` with its cascades to descendants,
attributes and trash records. -/
def delete_node (id : NodeId) (db : Db) : Db :=
  { db with
    nodes := db.nodes.deleteWhere (fun n => db.cascades id n.id)
    attributes := db.attributes.deleteWhere (fun a => db.cascades id a.node_id)
    trash := db.trash.deleteWhere (fun t => db.cascades id t.node_id) }

/-- `DELETE FROM nodes WHERE workspace_id = ?` with the same cascades. -/
def delete_nodes_of (ws : WorkspaceId) (db : Db) : Db :=
  let gone (id : NodeId) := db.nodes.rows.any (fun n => n.workspace_id = ws ∧ db.cascades n.id id)
  { db with
    nodes := db.nodes.deleteWhere (fun n => gone n.id)
    attributes := db.attributes.deleteWhere (fun a => gone a.node_id)
    trash := db.trash.deleteWhere (fun t => gone t.node_id) }

def insert_generation (row : GenerationRow) (db : Db) : Except Fault Db :=
  if db.workspaces.contains row.workspace_id then
    match db.content_generations.insert row with
    | some content_generations => .ok { db with content_generations }
    | none => .error .Constraint
  else .error .Constraint

/-- `DELETE FROM content_generations WHERE id = ?` with its cascade to chunks;
a generation that a node refers to cannot be deleted. -/
def remove_generation (id : GenerationId) (db : Db) : Except Fault Db :=
  if db.content_generations.contains id && db.nodes.rows.any
    (fun n => n.content_generation_id = some id) then
    .error .Constraint
  else .ok { db with
    content_generations := db.content_generations.deleteWhere (fun g => g.id = id)
    content_chunks := db.content_chunks.deleteWhere (fun c => c.generation_id = id) }

/-- `DELETE FROM content_generations WHERE workspace_id = ?` with its cascade
to chunks; a generation that a node refers to cannot be deleted. -/
def remove_generations_of (ws : WorkspaceId) (db : Db) : Except Fault Db :=
  let gone (id : GenerationId) := (db.generation? id).any (fun g => g.workspace_id = ws)
  if db.nodes.rows.any (fun n => n.content_generation_id.any gone) then .error .Constraint
  else .ok { db with
    content_generations := db.content_generations.deleteWhere (fun g => g.workspace_id = ws)
    content_chunks := db.content_chunks.deleteWhere (fun c => gone c.generation_id) }

def remove_changes_of (ws : WorkspaceId) (db : Db) : Db :=
  { db with changes := db.changes.deleteWhere (fun c => c.workspace_id = ws) }

def insert_workspace (row : WorkspaceRow) (db : Db) : Except Fault Db :=
  match db.workspaces.insert row with
  | some workspaces => .ok { db with workspaces }
  | none => .error .Constraint

/-- `DELETE FROM workspaces WHERE id = ?`, which cascades to every table; the
reference from nodes to generations is checked when all of it is gone. -/
def delete_workspace_row (ws : WorkspaceId) (db : Db) : Except Fault Db := do
  let nodes := db.delete_nodes_of ws
  let records := { nodes with trash := nodes.trash.deleteWhere (fun t => t.workspace_id = ws) }
  let generations ← records.remove_generations_of ws
  .ok { generations.remove_changes_of ws with
    workspaces := db.workspaces.deleteWhere (fun row => row.id = ws) }

def reset_sequence (ws : WorkspaceId) (now : Int) (db : Db) : Db :=
  let restart (row : WorkspaceRow) := { row with change_seq := 0, updated_at_ms := now }
  { db with workspaces := db.workspaces.modify ws ⟨restart, fun _ => rfl⟩ }

def set_generation_complete (id : GenerationId) (length : Nat) (db : Db) : Db :=
  { db with content_generations :=
      db.content_generations.modify id ⟨fun g => { g with complete := true, length := length }, fun _ => rfl⟩ }

def put_chunk (row : ChunkRow) (db : Db) : Except Fault Db :=
  if db.content_generations.contains row.generation_id then .ok
    { db with content_chunks := db.content_chunks.upsert row }
  else .error .Constraint

/-- `INSERT INTO content_chunks .. SELECT` of the chunks of one generation that
satisfy a condition into another one. -/
def insert_chunks (source target : GenerationId) (p : Nat → Bool) (db : Db) : Except Fault Db :=
  let rows := (db.content_chunks.rows.filter
    (fun c => c.generation_id = source ∧ p c.chunk_index)).map
    (fun c => { c with generation_id := target })
  if rows.isEmpty || db.content_generations.contains target then
    match db.content_chunks.insertAll rows with
    | some content_chunks => .ok { db with content_chunks }
    | none => .error .Constraint
  else .error .Constraint

def put_attribute (row : AttributeRow) (db : Db) : Except Fault Db :=
  if db.nodes.contains row.node_id then .ok { db with attributes := db.attributes.upsert row }
  else .error .Constraint

def remove_attribute_row (node_id : NodeId) (key : Text) (db : Db) : Db :=
  { db with attributes := db.attributes.deleteWhere (fun a => a.node_id = node_id ∧ a.key = key) }

/-- `INSERT INTO attributes .. SELECT` of all attributes of one node for another one. -/
def insert_attributes (source target : NodeId) (db : Db) : Except Fault Db :=
  let rows := (db.attributes.rows.filter (fun a => a.node_id = source)).map
    (fun a => { a with node_id := target })
  if rows.isEmpty || db.nodes.contains target then
    match db.attributes.insertAll rows with
    | some attributes => .ok { db with attributes }
    | none => .error .Constraint
  else .error .Constraint

def insert_trash (row : TrashRow) (db : Db) : Except Fault Db :=
  if db.workspaces.contains row.workspace_id && db.nodes.contains row.node_id then
    match db.trash.insert row with
    | some trash => .ok { db with trash }
    | none => .error .Constraint
  else .error .Constraint

def remove_trash (id : TrashId) (db : Db) : Db :=
  { db with trash := db.trash.deleteWhere (fun t => t.id = id) }

def bump_sequence (ws : WorkspaceId) (now : Int) (db : Db) : Db :=
  let bump (row : WorkspaceRow) :=
    { row with change_seq := row.change_seq + 1, updated_at_ms := now }
  { db with workspaces := db.workspaces.modify ws ⟨bump, fun _ => rfl⟩ }

def insert_change (row : ChangeRow) (db : Db) : Except Fault Db :=
  if db.workspaces.contains row.workspace_id then
    match db.changes.insert row with
    | some changes => .ok { db with changes }
    | none => .error .Constraint
  else .error .Constraint

end Db

end fslite
