import Fslite.Pieces
import Fslite.Sqlite.Generation
import Fslite.Sqlite.Live

namespace fslite

/-- No node refers to the generation. -/
def Db.Unreferenced (db : Db) (g : GenerationId) : Prop :=
  ∀ n ∈ db.nodes, n.content_generation_id ≠ some g

/-- The stored chunks of the generation are the given bytes, cut into chunks. -/
def Db.Laid (db : Db) (g : GenerationId) (bytes : Bytes) : Prop :=
  ∀ i, (db.content_chunks.find? (g, i)).map ChunkRow.bytes = piece? content.CHUNK_SIZE bytes i

/-- The stored chunks of the generation hold so many bytes without a gap. -/
def Db.LaidOut (db : Db) (g : GenerationId) (length : Nat) : Prop :=
  ∃ bytes : Bytes, bytes.length = length ∧ db.Laid g bytes

/-- What holds of the node table after every transaction: the foreign keys and
the unique index, one root for each workspace, and parents that are directories
of the same workspace. -/
structure NodesWellFormed (db : Db) : Prop where
  workspace : ∀ n ∈ db.nodes, ∃ w, db.workspace? n.workspace_id = some w
  root : ∀ ws w, db.workspace? ws = some w → ∃ n ∈ db.nodes, n.workspace_id = ws ∧
    n.parent_id = none
  root_unique : ∀ n ∈ db.nodes, ∀ m ∈ db.nodes, n.workspace_id = m.workspace_id →
    n.parent_id = none →
    m.parent_id = none → n = m
  root_shape : ∀ n ∈ db.nodes, n.parent_id = none → n.kind = .Directory ∧ n.trashed_at_ms = none
  parent : ∀ n ∈ db.nodes, ∀ up, n.parent_id = some up →
    ∃ p ∈ db.nodes, p.id = up ∧ p.workspace_id = n.workspace_id ∧ p.kind = .Directory
  name : ∀ n ∈ db.nodes, ∀ m ∈ db.nodes, n.workspace_id = m.workspace_id →
    n.parent_id = m.parent_id →
    n.parent_id ≠ none → n.name = m.name → n.trashed_at_ms = none → m.trashed_at_ms = none → n = m
  segment : ∀ n ∈ db.nodes, n.parent_id ≠ none → Segment n.name
  revision : ∀ n ∈ db.nodes, 0 < n.revision

/-- What holds of contents after every transaction: a node has a generation if
and only if it is a file, the generation is complete, has the node's size and
is the node's own. -/
structure ContentsWellFormed (db : Db) : Prop where
  file : ∀ n ∈ db.nodes, n.kind = .File → n.content_generation_id ≠ none
  generation : ∀ n ∈ db.nodes, ∀ g, n.content_generation_id = some g → n.kind = .File ∧
    ∃ row, db.generation? g = some row ∧ row.complete = true ∧ row.length = n.size ∧
      row.workspace_id = n.workspace_id
  unshared : ∀ n ∈ db.nodes, ∀ m ∈ db.nodes, ∀ g, n.content_generation_id = some g →
    m.content_generation_id = some g → n = m
  chunk : ∀ c ∈ db.content_chunks, ∃ row, db.generation? c.generation_id = some row

/-- What holds of the trash after every transaction: its records and the
trashed nodes correspond, and a record names the node's current place. -/
structure TrashWellFormed (db : Db) : Prop where
  record : ∀ t ∈ db.trash, ∃ n ∈ db.nodes, n.id = t.node_id ∧ n.workspace_id = t.workspace_id ∧
    n.trashed_at_ms ≠ none ∧ n.parent_id = some t.original_parent_id ∧ n.name = t.original_name
  unique : ∀ t ∈ db.trash, ∀ u ∈ db.trash, t.node_id = u.node_id → t = u
  recorded : ∀ n ∈ db.nodes, n.trashed_at_ms ≠ none → ∃ t ∈ db.trash, t.node_id = n.id

structure WellFormed (db : Db) : Prop where
  nodes : NodesWellFormed db
  contents : ContentsWellFormed db
  trash : TrashWellFormed db
  attributes : ∀ a ∈ db.attributes, ∃ n ∈ db.nodes, n.id = a.node_id
  changes : ∀ c ∈ db.changes, ∃ w, db.workspace? c.workspace_id = some w ∧ c.sequence ≤ w.change_seq

/-- The content of every file lies in its generation's chunks without a gap. -/
def LaidOut (db : Db) : Prop :=
  ∀ n ∈ db.nodes, ∀ g, n.content_generation_id = some g → db.LaidOut g n.size

theorem WellFormed.empty : WellFormed Db.empty where
  nodes := by constructor <;> simp [Db.empty, Db.workspace?]
  contents := by constructor <;> simp [Db.empty]
  trash := by constructor <;> simp [Db.empty]
  attributes := by simp [Db.empty]
  changes := by simp [Db.empty]

end fslite
