import Fslite.Sqlite.Edit.Identity

namespace fslite

namespace Db

variable {db : Db}

/-- A purge leaves the attributes of the nodes outside the subtree alone. -/
theorem purge_attributes {id : NodeId} {k : NodeId × Text} (hnot : ¬ Below db.parent k.1 id) :
    (db.purge id).attributes.find? k = db.attributes.find? k := by
  rw [show (db.purge id).attributes.find? k = (db.attributes.find? k).filter
    (fun a => !db.cascades id a.node_id) from
    Table.find?_deleteWhere _ _ _]
  cases hrow : db.attributes.find? k with
  | none => rfl
  | some a =>
    have hid : a.node_id = k.1 := congrArg Prod.fst (Table.key_of_find? hrow)
    have hkept : db.cascades id a.node_id = false := by
      rw [hid, ← Bool.not_eq_true, cascades_iff]
      exact hnot
    simp [Option.filter, hkept]

/-- So does the emptying of another workspace. -/
theorem clear_attributes {ws : WorkspaceId} {n : NodeRow} (hn : n ∈ db.nodes)
    (hws : n.workspace_id ≠ ws) (key : Text) :
    (db.clear ws).attributes.find? (n.id, key) = db.attributes.find? (n.id, key) := by
  rw [show (db.clear ws).attributes.find? (n.id, key) = (db.attributes.find? (n.id, key)).filter
    (fun a => !(db.node? a.node_id).any
      (fun n => n.workspace_id = ws)) from Table.find?_deleteWhere _ _ _]
  cases hrow : db.attributes.find? (n.id, key) with
  | none => rfl
  | some a =>
    have hid : a.node_id = n.id := congrArg Prod.fst (Table.key_of_find? hrow)
    simp [Option.filter, hid, node?_of_mem hn, hws]

end Db

/-- What a revision stands for: the node's kind, place, size, link target,
content and attributes. -/
structure SameVersion (db : Db) (n : NodeRow) (db' : Db) (m : NodeRow) : Prop where
  kind : n.kind = m.kind
  parent : n.parent_id = m.parent_id
  name : n.name = m.name
  size : n.size = m.size
  target : n.symlink_target = m.symlink_target
  generation : n.content_generation_id = m.content_generation_id
  content : ∀ g, n.content_generation_id = some g → SameContent db db' g
  attributes : ∀ key, db'.attributes.find? (n.id, key) = db.attributes.find? (n.id, key)

namespace SameVersion

variable {db db' db'' : Db} {n m l : NodeRow}

theorem refl (db : Db) (n : NodeRow) : SameVersion db n db n :=
  ⟨rfl, rfl, rfl, rfl, rfl, rfl, fun g _ => SameContent.refl db g, fun _ => rfl⟩

theorem trans (h : SameVersion db n db' m) (h' : SameVersion db' m db'' l) (hid : n.id = m.id) :
    SameVersion db n db'' l :=
  ⟨h.kind.trans h'.kind, h.parent.trans h'.parent, h.name.trans h'.name, h.size.trans h'.size,
    h.target.trans h'.target,
    h.generation.trans h'.generation,
    fun g hg => (h.content g hg).trans (h'.content g (h.generation ▸ hg)),
    fun key => (hid ▸ h'.attributes key).trans (h.attributes key)⟩

end SameVersion

namespace Edit

variable {P : Policy} {fresh : Uuid → Prop} {mine : GenerationId → Prop} {db db' : Db}

/-- A change leaves a node and its attributes alone, but for the mark of being
trashed, or it raises the node's revision. -/
theorem row_version (h : Edit P fresh mine db db') {n m : NodeRow} (hn : n ∈ db.nodes)
    (hm : m ∈ db'.nodes) (hid : n.id = m.id) (hold : ¬ fresh n.id) :
    m.revision = n.revision + 1 ∨ m = { n with trashed_at_ms := m.trashed_at_ms } ∧
      ∀ key, db'.attributes.find? (n.id, key) = db.attributes.find? (n.id, key) := by
  have hsame : m ∈ db.nodes → m = { n with trashed_at_ms := m.trashed_at_ms } := by
    intro hm
    rw [db.node_ext hm hn hid.symm]
  have hmodify : ∀ {x : NodeRow} {u : Table.Update NodeRow.key}, x ∈ db.nodes →
      (u.apply x).revision = x.revision + 1 → m ∈ db.nodes.modify x.id u →
      m.revision = n.revision + 1 ∨ m.id ≠ x.id ∧ m ∈ db.nodes := by
    intro x u hx hraise hm
    obtain rfl | ⟨hm, hne⟩ := (Db.mem_modify_nodes hx).mp hm
    · rw [db.node_ext hn hx (hid.trans (u.key_apply x))]
      exact Or.inl hraise
    · exact Or.inr ⟨hne, hm⟩
  cases h with
  | insert x p hf hp hdir hopen hup hws hsegment hfree hactive hrevision hfile hcontent hins =>
    obtain hm | rfl := (Table.mem_insert hins).mp hm
    · exact Or.inr ⟨hsame hm, fun _ => rfl⟩
    · exact absurd (hid ▸ hf) hold
  | attributes x hx hf as hother =>
    refine Or.inr ⟨hsame hm, fun key => hother (n.id, key) ?_⟩
    intro heq
    exact hold ((show n.id = x.id from heq) ▸ hf)
  | revise x hlive u hrow as hother =>
    obtain hraised | ⟨hne, hm⟩ := hmodify hlive.mem (by rw [hrow]) hm
    · exact Or.inl hraised
    · exact Or.inr ⟨hsame hm, fun key => hother (n.id, key) (hid ▸ hne)⟩
  | replace x hlive g hmine length hready old hold now =>
    obtain hraised | ⟨_, hm⟩ := hmodify (u := content.replaced g length _ now) hlive.mem rfl hm
    · exact Or.inl hraised
    · exact Or.inr ⟨hsame hm, fun _ => rfl⟩
  | relocate x p hlive hroot hp hdir name hsegment hfree hpolicy now =>
    obtain hraised | ⟨_, hm⟩ := hmodify (u := mutate.moved p.id name _ now) hlive.mem rfl hm
    · exact Or.inl hraised
    · exact Or.inr ⟨hsame hm, fun _ => rfl⟩
  | purge x hx hroot hkind hpolicy =>
    obtain ⟨hm, hnot⟩ := Db.mem_purge_nodes.mp hm
    exact Or.inr ⟨hsame hm, fun key => Db.purge_attributes (k := (n.id, key)) (hid ▸ hnot)⟩
  | trash x hlive t hf hnode hws hup hname hpolicy hins now =>
    obtain rfl | ⟨hm, hne⟩ := (Db.mem_modify_nodes hlive.mem).mp hm
    · rw [db.node_ext hn hlive.mem hid]
      exact Or.inr ⟨rfl, fun _ => rfl⟩
    · exact Or.inr ⟨hsame hm, fun _ => rfl⟩
  | restore x p hx t ht hnode hp hdir hws hactive hplace name hsegment hfree hpolicy now =>
    obtain hraised | ⟨_, hm⟩ := hmodify (u := trash.restored p.id name _ now) hx rfl hm
    · exact Or.inl hraised
    · exact Or.inr ⟨hsame hm, fun _ => rfl⟩
  | enter row root hroot hid hseq now hws hins =>
    obtain hm | rfl := (Table.mem_insert hins).mp hm
    · exact Or.inr ⟨hsame hm, fun _ => rfl⟩
    · exact absurd (hid ▸ hroot) hold
  | reset ws row hrow hpolicy root hroot now hins =>
    obtain hm | rfl := (Table.mem_insert hins).mp hm
    · obtain ⟨hm, hne⟩ := Db.mem_clear_nodes.mp hm
      exact Or.inr ⟨hsame hm, Db.clear_attributes hn (by rwa [db.node_ext hn hm hid])⟩
    · exact absurd (hid ▸ hroot) hold
  | erase ws hpolicy =>
    obtain ⟨hm, hne⟩ := Db.mem_clear_nodes.mp hm
    exact Or.inr ⟨hsame hm, Db.clear_attributes hn (by rwa [db.node_ext hn hm hid])⟩
  | _ => exact Or.inr ⟨hsame hm, fun _ => rfl⟩

/-- A change raises a node's revision or leaves all that it stands for alone. -/
theorem version (h : Edit P fresh mine db db') (hwf : WellFormed db)
    (hfresh : ∀ id, fresh id → mine id) {n m : NodeRow} (hn : n ∈ db.nodes) (hm : m ∈ db'.nodes)
    (hid : n.id = m.id) (hold : ¬ fresh n.id) :
    n.revision ≤ m.revision ∧ (n.revision = m.revision → SameVersion db n db' m) := by
  obtain hraised | ⟨hrow, hattributes⟩ := h.row_version hn hm hid hold
  · exact ⟨by omega, fun heq => by omega⟩
  · have hfile : SameFile n m := by
      rw [hrow]
      exact ⟨rfl, rfl, rfl, rfl, rfl⟩
    refine ⟨by rw [hrow], fun _ => ?_⟩
    refine ⟨hfile.kind, by rw [hrow], by rw [hrow], hfile.size, by rw [hrow], hfile.generation,
      fun g hg => ?_, hattributes⟩
    exact h.same_content_of_same_file hwf hfresh hn hm hfile (hfile.generation ▸ hg)

end Edit

/-- Through any number of changes a revision never decreases, and as long as it
is the same, so is all that it stands for. -/
theorem Edits.version {P : Policy} {fresh : Uuid → Prop} {mine : GenerationId → Prop} {db db' : Db}
    (h : Edits P fresh mine db db') (hwf : WellFormed db) (hfresh : ∀ id, fresh id → mine id)
    {n : NodeRow} (hn : n ∈ db.nodes) (hold : ¬ fresh n.id) : ∀ m ∈ db'.nodes, n.id = m.id →
      n.revision ≤ m.revision ∧ (n.revision = m.revision → SameVersion db n db' m) := by
  refine (h.preserve hfresh hwf (I := fun db' => ∀ m ∈ db'.nodes, n.id = m.id →
    n.revision ≤ m.revision ∧ (n.revision = m.revision → SameVersion db n db' m))
      (fun hedit hwf hI m hm hid => ?_)
    (fun m hm hid => ?_)).2
  · obtain ⟨x, hx, hxid⟩ | hf := hedit.node_ids m hm
    · obtain ⟨hle, hsame⟩ := hI x hx (hid.trans hxid.symm)
      obtain ⟨hle', hsame'⟩ := hedit.version hwf hfresh hx hm hxid (by rwa [hxid, ← hid])
      refine ⟨hle.trans hle', fun heq => ?_⟩
      exact (hsame (by omega)).trans (hsame' (by omega)) (hid.trans hxid.symm)
    · exact absurd (hid ▸ hf) hold
  · rw [db.node_ext hm hn hid.symm]
    exact ⟨le_refl _, fun _ => SameVersion.refl db n⟩

end fslite
