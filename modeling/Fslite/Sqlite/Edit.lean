import Fslite.Sqlite.Trash
import Fslite.Sqlite.WellFormed
import Fslite.Sqlite.Workspace

namespace fslite

/-- What a run is allowed to do: which nodes may be put under which directories,
which subtrees may be discarded, which nodes may be trashed, which trashed nodes
may be restored, which workspaces may be emptied, and whether contents are known
to have no gaps. -/
structure Policy where
  rehang : Db → NodeId → NodeId → Prop
  discard : Db → NodeId → Prop
  trash : Db → NodeId → Prop
  restore : Db → NodeId → Prop
  clear : Db → WorkspaceId → Prop
  laid : Prop

/-- The policy that allows everything and knows nothing. -/
def Policy.any : Policy := ⟨fun _ _ _ => True, fun _ _ => True, fun _ _ => True, fun _ _ => True,
    fun _ _ => True, False⟩

namespace Db

/-- No untrashed node has the place. -/
def Free (db : Db) (ws : WorkspaceId) (up : NodeId) (name : Text) : Prop :=
  ∀ m ∈ db.nodes, m.workspace_id = ws → m.parent_id = some up → m.name = name →
    m.trashed_at_ms ≠ none

/-- Everything of the workspace but its own row is gone. -/
def clear (ws : WorkspaceId) (db : Db) : Db where
  workspaces := db.workspaces
  content_generations := db.content_generations.deleteWhere (fun g => g.workspace_id = ws)
  nodes := db.nodes.deleteWhere (fun n => n.workspace_id = ws)
  content_chunks := db.content_chunks.deleteWhere (fun c =>
    (db.generation? c.generation_id).any (fun g => g.workspace_id = ws))
  attributes := db.attributes.deleteWhere
    (fun a => (db.node? a.node_id).any (fun n => n.workspace_id = ws))
  trash := db.trash.deleteWhere (fun t => t.workspace_id = ws)
  changes := db.changes.deleteWhere (fun c => c.workspace_id = ws)

/-- The node's subtree is gone, with its attributes, trash records and contents. -/
def purge (id : NodeId) (db : Db) : Db :=
  { db.delete_node id with
    content_generations := db.content_generations.deleteWhere
      (fun g => g.id ∈ mutate.subtree_generations db id)
    content_chunks := db.content_chunks.deleteWhere
      (fun c => c.generation_id ∈ mutate.subtree_generations db id) }

def drop (g : GenerationId) (db : Db) : Db :=
  { db with
    content_generations := db.content_generations.deleteWhere (fun row => row.id = g)
    content_chunks := db.content_chunks.deleteWhere (fun c => c.generation_id = g) }

end Db

/-- A generation that is ready to become the content of a node of the workspace. -/
structure Ready (P : Policy) (db : Db) (ws : WorkspaceId) (g : GenerationId) (length : Nat) :
    Prop where
  unreferenced : db.Unreferenced g
  stored : ∃ row, db.generation? g = some row ∧ row.complete = true ∧ row.length = length ∧
    row.workspace_id = ws
  laid : P.laid → db.LaidOut g length

/-- What committed changes are made of. `fresh` says which identifiers were
drawn for the change, and `mine` which generations only its author knows. -/
inductive Edit (P : Policy) (fresh : Uuid → Prop) (mine : GenerationId → Prop) :
    Db → Db → Prop where
  | append {db : Db} (ws : WorkspaceId) (now : Int) (c : ChangeRow) (row : WorkspaceRow)
      (hrow : db.workspace? ws = some row) (hws : c.workspace_id = ws)
        (hseq : c.sequence = row.change_seq + 1)
      (hreadable : c.Readable) {changes : Table ChangeRow.position}
        (hins : db.changes.insert c = some changes) :
      Edit P fresh mine db { db.bump_sequence ws now with changes }
  | generation {db : Db} (row : GenerationRow) (hfresh : fresh row.id)
    (hopen : row.complete = false)
      {content_generations : Table GenerationRow.id}
      (hins : db.content_generations.insert row = some content_generations)
        (hempty : row.length = 0) :
      Edit P fresh mine db { db with content_generations }
  | chunks {db : Db} (g : GenerationId) (hmine : mine g) (hunref : db.Unreferenced g)
      (hopen : ∃ row, db.generation? g = some row ∧ row.complete = false)
      (content_chunks : Table ChunkRow.key)
      (hother : ∀ k : GenerationId × Nat, k.1 ≠ g →
        content_chunks.find? k = db.content_chunks.find? k) :
      Edit P fresh mine db { db with content_chunks }
  | complete {db : Db} (g : GenerationId) (hmine : mine g) (hunref : db.Unreferenced g)
    (length : Nat) :
      Edit P fresh mine db (db.set_generation_complete g length)
  | drop {db : Db} (g : GenerationId) (hmine : mine g) (hunref : db.Unreferenced g) :
    Edit P fresh mine db (db.drop g)
  | insert {db : Db} (n p : NodeRow) (hfresh : fresh n.id) (hp : p ∈ db.nodes)
    (hdir : p.kind = .Directory)
      (hopen : p.trashed_at_ms = none) (hup : n.parent_id = some p.id)
        (hws : p.workspace_id = n.workspace_id) (hsegment : Segment n.name)
      (hfree : db.Free n.workspace_id p.id n.name) (hactive : n.trashed_at_ms = none)
        (hrevision : n.revision = 1)
      (hfile : n.kind = .File → n.content_generation_id ≠ none)
      (hcontent : ∀ g, n.content_generation_id = some g → n.kind = .File ∧ mine g ∧
        Ready P db n.workspace_id g n.size)
      {nodes : Table NodeRow.key} (hins : db.nodes.insert n = some nodes) :
      Edit P fresh mine db { db with nodes }
  | attributes {db : Db} (n : NodeRow) (hn : n ∈ db.nodes) (hfresh : fresh n.id)
    (attributes : Table AttributeRow.pair)
      (hother : ∀ k : NodeId × Text, k.1 ≠ n.id → attributes.find? k = db.attributes.find? k) :
      Edit P fresh mine db { db with attributes }
  | revise {db : Db} (n : NodeRow) (hlive : Live db n.workspace_id n) (u : Table.Update NodeRow.key)
      (hrow : u.apply n = { n with
        revision := n.revision + 1
        modified_at_ms := (u.apply n).modified_at_ms
        accessed_at_ms := (u.apply n).accessed_at_ms })
      (attributes : Table AttributeRow.pair)
      (hother : ∀ k : NodeId × Text, k.1 ≠ n.id → attributes.find? k = db.attributes.find? k) :
      Edit P fresh mine db { db with nodes := db.nodes.modify n.id u, attributes }
  | replace {db : Db} (n : NodeRow) (hlive : Live db n.workspace_id n) (g : GenerationId)
    (hmine : mine g)
      (length : Nat) (hready : Ready P db n.workspace_id g length) (old : GenerationId)
      (hold : n.content_generation_id = some old) (now : Int) :
      Edit P fresh mine db { db.drop old with
        nodes := db.nodes.modify n.id (content.replaced g length (n.revision + 1) now) }
  | relocate {db : Db} (n p : NodeRow) (hlive : Live db n.workspace_id n)
    (hroot : n.parent_id ≠ none)
      (hp : Live db n.workspace_id p) (hdir : p.kind = .Directory) (name : Text)
        (hsegment : Segment name)
      (hfree : db.Free n.workspace_id p.id name) (hpolicy : P.rehang db n.id p.id) (now : Int) :
      Edit P fresh mine db { db with
        nodes := db.nodes.modify n.id (mutate.moved p.id name (n.revision + 1) now) }
  | purge {db : Db} (n : NodeRow) (hn : n ∈ db.nodes) (hroot : n.parent_id ≠ none)
      (hkind : n.trashed_at_ms = none → Live db n.workspace_id n) (hpolicy : P.discard db n.id) :
      Edit P fresh mine db (db.purge n.id)
  | trash {db : Db} (n : NodeRow) (hlive : Live db n.workspace_id n) (t : TrashRow)
    (hfresh : fresh t.id)
      (hnode : t.node_id = n.id) (hws : t.workspace_id = n.workspace_id)
      (hup : n.parent_id = some t.original_parent_id) (hname : t.original_name = n.name)
        (hpolicy : P.trash db n.id)
      {records : Table TrashRow.id} (hins : db.trash.insert t = some records) (now : Int) :
      Edit P fresh mine db { db with
        nodes := db.nodes.modify n.id (trash.trashed now), trash := records }
  | restore {db : Db} (n p : NodeRow) (hn : n ∈ db.nodes) (t : TrashRow) (ht : t ∈ db.trash)
    (hnode : t.node_id = n.id)
      (hp : p ∈ db.nodes) (hdir : p.kind = .Directory) (hws : p.workspace_id = n.workspace_id)
      (hactive : p.trashed_at_ms = none)
        (hplace : Live db n.workspace_id p ∨ n.parent_id = some p.id)
      (name : Text) (hsegment : Segment name) (hfree : db.Free n.workspace_id p.id name)
      (hpolicy : P.restore db n.id) (now : Int) :
      Edit P fresh mine db { db.remove_trash t.id with
        nodes := db.nodes.modify n.id (trash.restored p.id name (n.revision + 1) now) }
  | enter {db : Db} (row : WorkspaceRow) (root : NodeId) (hroot : fresh root) (hid : fresh row.id)
      (hseq : row.change_seq = 0) (now : Int)
      {workspaces : Table WorkspaceRow.id} (hws : db.workspaces.insert row = some workspaces)
      {nodes : Table NodeRow.key}
        (hins : db.nodes.insert (workspace.rootRow root row.id now) = some nodes) :
      Edit P fresh mine db { db with workspaces, nodes }
  | reset {db : Db} (ws : WorkspaceId) (row : WorkspaceRow) (hrow : db.workspace? ws = some row)
    (hpolicy : P.clear db ws)
      (root : NodeId) (hroot : fresh root) (now : Int) {nodes : Table NodeRow.key}
      (hins : (db.clear ws).nodes.insert (workspace.rootRow root ws now) = some nodes) :
      Edit P fresh mine db { (db.clear ws).reset_sequence ws now with nodes }
  | erase {db : Db} (ws : WorkspaceId) (hpolicy : P.clear db ws) :
      Edit P fresh mine db { db.clear ws with workspaces := db.workspaces.deleteWhere (fun row => row.id = ws) }

/-- Several changes in a row. -/
def Edits (P : Policy) (fresh : Uuid → Prop) (mine : GenerationId → Prop) : Db → Db → Prop :=
  Relation.ReflTransGen (Edit P fresh mine)

namespace Edit

variable {P : Policy} {fresh fresh' : Uuid → Prop} {mine mine' : GenerationId → Prop} {db db' : Db}

theorem mono (h : Edit P fresh mine db db') (hfresh : ∀ id, fresh id → fresh' id)
    (hmine : ∀ g, mine g → mine' g) :
    Edit P fresh' mine' db db' := by
  cases h with
  | append ws now c row hrow hws hseq hreadable hins =>
    exact .append ws now c row hrow hws hseq hreadable hins
  | generation row hf hopen hins hempty => exact .generation row (hfresh _ hf) hopen hins hempty
  | chunks g hm hunref hopen cs hother => exact .chunks g (hmine _ hm) hunref hopen cs hother
  | complete g hm hunref length => exact .complete g (hmine _ hm) hunref length
  | drop g hm hunref => exact .drop g (hmine _ hm) hunref
  | insert n p hf hp hdir hopen hup hws hsegment hfree hactive hrevision hfile hcontent hins =>
    exact .insert n p (hfresh _ hf) hp hdir hopen hup hws hsegment hfree hactive hrevision hfile
      (fun g hg => ⟨(hcontent g hg).1, hmine _ (hcontent g hg).2.1, (hcontent g hg).2.2⟩) hins
  | attributes n hn hf as hother => exact .attributes n hn (hfresh _ hf) as hother
  | revise n hlive u hrow as hother => exact .revise n hlive u hrow as hother
  | replace n hlive g hm length hready old hold now =>
    exact .replace n hlive g (hmine _ hm) length hready old hold now
  | relocate n p hlive hroot hp hdir name hsegment hfree hpolicy now =>
    exact .relocate n p hlive hroot hp hdir name hsegment hfree hpolicy now
  | purge n hn hroot hkind hpolicy => exact .purge n hn hroot hkind hpolicy
  | trash n hlive t hf hnode hws hup hname hpolicy hins now =>
    exact .trash n hlive t (hfresh _ hf) hnode hws hup hname hpolicy hins now
  | restore n p hn t ht hnode hp hdir hws hactive hplace name hsegment hfree hpolicy now =>
    exact .restore n p hn t ht hnode hp hdir hws hactive hplace name hsegment hfree hpolicy now
  | enter row root hroot hid hseq now hws hins =>
    exact .enter row root (hfresh _ hroot) (hfresh _ hid) hseq now hws hins
  | reset ws row hrow hpolicy root hroot now hins =>
    exact .reset ws row hrow hpolicy root (hfresh _ hroot) now hins
  | erase ws hpolicy => exact .erase ws hpolicy

end Edit

namespace Edits

variable {P : Policy} {fresh fresh' : Uuid → Prop} {mine mine' : GenerationId → Prop}
  {db db' db'' : Db}

theorem refl (db : Db) : Edits P fresh mine db db := Relation.ReflTransGen.refl

theorem single (h : Edit P fresh mine db db') : Edits P fresh mine db db' :=
  Relation.ReflTransGen.single h

theorem trans (h : Edits P fresh mine db db') (h' : Edits P fresh mine db' db'') :
    Edits P fresh mine db db'' :=
  Relation.ReflTransGen.trans h h'

theorem tail (h : Edits P fresh mine db db') (h' : Edit P fresh mine db' db'') :
    Edits P fresh mine db db'' :=
  Relation.ReflTransGen.tail h h'

theorem mono (h : Edits P fresh mine db db') (hfresh : ∀ id, fresh id → fresh' id)
    (hmine : ∀ g, mine g → mine' g) :
    Edits P fresh' mine' db db' :=
  Relation.ReflTransGen.mono (fun _ _ hedit => hedit.mono hfresh hmine) _ _ h

end Edits

end fslite
