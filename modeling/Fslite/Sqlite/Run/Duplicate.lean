import Fslite.Bisimulation
import Fslite.Sqlite.Run.Termination

namespace fslite

open resolve

/-- What is stored under an identifier that has not been drawn in between is as it was. -/
structure Kept (rt : Runtime) (w w' : World) : Prop where
  tick : w.tick ≤ w'.tick
  content : ∀ g, ¬ Drawn rt w.tick w'.tick g → SameContent w.db w'.db g
  attributes : ∀ id key, ¬ Drawn rt w.tick w'.tick id →
    w'.db.attributes.find? (id, key) = w.db.attributes.find? (id, key)

namespace Kept

variable {rt : Runtime} {w w₁ w' : World}

theorem refl (rt : Runtime) (w : World) : Kept rt w w :=
  ⟨le_refl _, fun g _ => SameContent.refl _ g, fun _ _ _ => rfl⟩

theorem trans (h : Kept rt w w₁) (h' : Kept rt w₁ w') : Kept rt w w' where
  tick := h.tick.trans h'.tick
  content := fun g hg => (h.content g (fun hd => hg (hd.mono (le_refl _) h'.tick))).trans
    (h'.content g (fun hd => hg (hd.mono h.tick (le_refl _))))
  attributes := fun id key hid =>
    (h'.attributes id key (fun hd => hid (hd.mono h.tick (le_refl _)))).trans
    (h.attributes id key (fun hd => hid (hd.mono (le_refl _) h'.tick)))

end Kept

/-- One node is like another one: of the same kind and size, with the same link
target, attributes and bytes. -/
structure Alike (db db' : Db) (m n : RawNode) : Prop where
  kind : n.kind = m.kind
  size : n.size = m.size
  link : n.symlink_target = m.symlink_target
  attributes : ∀ key, (db'.attributes.find? (n.id, key)).map AttributeRow.value =
    (db.attributes.find? (m.id, key)).map AttributeRow.value
  empty : m.content_generation_id = none → n.content_generation_id = none
  bytes : ∀ g, m.content_generation_id = some g → ∃ g', n.content_generation_id = some g' ∧
    ∀ i, (db'.content_chunks.find? (g', i)).map ChunkRow.bytes =
      (db.content_chunks.find? (g, i)).map ChunkRow.bytes

/-- The row of an active node that has been made in between, with a content of its own. -/
structure Made (rt : Runtime) (lower upper : Nat) (ws : WorkspaceId) (n : NodeRow) : Prop where
  id : Drawn rt lower upper n.id
  generation : ∀ g, n.content_generation_id = some g → Drawn rt lower upper g
  workspace : n.workspace_id = ws
  revision : n.revision = 1
  active : n.trashed_at_ms = none

theorem Made.mono {rt : Runtime} {a b c d : Nat} {ws : WorkspaceId} {n : NodeRow}
    (h : Made rt b c ws n) (hab : a ≤ b) (hcd : c ≤ d) :
    Made rt a d ws n := ⟨h.id.mono hab hcd, fun g hg => (h.generation g hg).mono hab hcd,
      h.workspace, h.revision, h.active⟩

/-- A node that is like a stored one stays so while nothing that either of them has is drawn. -/
theorem Alike.frame {rt : Runtime} {ws : WorkspaceId} {base w w₁ w' : World} {m : RawNode}
    {n : NodeRow} (hwf : WellFormed base.db) (hissued : Issued rt base) (hm : IsStored base.db ws m)
    (hn : Made rt w.tick w₁.tick ws n) (h : Alike w.db w₁.db m n.toRawNode)
    (hbefore : Kept rt base w) (hafter : Kept rt w₁ w') : Alike base.db w'.db m n.toRawNode := by
  obtain ⟨s, hs, rfl, _⟩ := hm
  refine ⟨h.kind, h.size, h.link, fun key => ?_, h.empty, fun g hg => ?_⟩
  · rw [← hbefore.attributes s.id key (hissued.node s hs).disjoint, ← h.attributes key]
    exact congrArg _ (hafter.attributes n.id key hn.id.disjoint)
  · obtain ⟨_, row, hrow, _⟩ := hwf.contents.generation s hs g hg
    obtain ⟨g', hg', hbytes⟩ := h.bytes g hg
    refine ⟨g', hg', fun i => ?_⟩
    rw [(hafter.content g' (hn.generation g' hg').disjoint).chunk, hbytes,
      (hbefore.content g (hissued.generation g row hrow).disjoint).chunk]

namespace mutate

variable {rt : Runtime} {ws : WorkspaceId} {w w' : World}

/-- The content of a copied node is that of the original. -/
theorem copy_content_alike {old : RawNode} {result : Option GenerationId} (hwf : WellFormed w.db)
    (hissued : Issued rt w) (hold : IsStored w.db ws old)
    (h : copy_content rt ws old w = .ok (result, w')) :
    Kept rt w w' ∧ (∀ g, result = some g → Drawn rt w.tick w'.tick g) ∧
    (old.content_generation_id = none → result = none) ∧
      ∀ g, old.content_generation_id = some g → ∃ g', result = some g' ∧
        ∀ i, (w'.db.content_chunks.find? (g', i)).map ChunkRow.bytes =
          (w.db.content_chunks.find? (g, i)).map ChunkRow.bytes := by
  obtain ⟨n, hn, rfl, hws⟩ := hold
  obtain ⟨hnothing, rfl, rfl⟩ | ⟨source, gens, chunks, ⟨_, hsource⟩, rfl, hcreate, hins, rfl⟩ :=
    copy_content_cases h
  · refine ⟨Kept.refl _ _, fun g hg => (by cases hg), fun _ => rfl, fun g hg => ?_⟩
    have hnone := hnothing (hwf.contents.generation n hn g hg).1
    exact absurd (hnone.symm.trans hg) (Option.some_ne_none g).symm
  · obtain ⟨_, _, hgens, heq⟩ := content.create_generation_ok hcreate
    cases heq
    have hcopied : w.db.content_chunks.insertAll
        (content.copied_chunks w.db source (rt.newId w.tick) (fun _ => true)) = some chunks := hins
    have hdrawn : Drawn rt w.tick (w.tick + 2) (rt.newId w.tick) :=
      ⟨w.tick, le_refl _, by omega, rfl⟩
    have hfree := hwf.contents.chunkless hissued.generation_fresh
    refine ⟨⟨by simp, fun g hg => ?_, fun _ _ _ => rfl⟩, fun g hg => ?_, fun hnone =>
      absurd (hsource.symm.trans hnone) (Option.some_ne_none _),
      fun g hg => ⟨_, rfl, fun i => ?_⟩⟩
    · have hne : g ≠ rt.newId w.tick := fun heq => hg (heq ▸ hdrawn)
      refine ⟨?_, fun i => content.insert_chunks_other hcopied (g, i) hne⟩
      refine (Db.generation?_set_complete _ _ g).trans ((if_neg hne).trans ?_)
      exact (Db.generation?_insert hgens g).trans (if_neg (fun heq => hne heq.symm))
    · cases hg
      exact hdrawn
    · obtain rfl : source = g := Option.some.inj (hsource.symm.trans hg)
      exact insert_chunks_target hcopied i (hfree i)

/-- Copied attributes are those of the source, on the target. -/
theorem insert_attributes_target {source target : NodeId} {db db' : Db}
    (h : db.insert_attributes source target = .ok db') {key : Text}
    (hnone : db.attributes.find? (target, key) = none) :
    (db'.attributes.find? (target, key)).map AttributeRow.value =
    (db.attributes.find? (source, key)).map AttributeRow.value := by
  unfold Db.insert_attributes at h
  simp only at h
  split at h
  · split at h
    · rename_i attributes hins
      cases h
      rw [Table.find?_insertAll hins, hnone, Option.none_or, List.find?_map, List.find?_filter]
      have hpred : (fun a : AttributeRow => decide (decide (a.node_id = source) = true ∧
          ((fun r : AttributeRow => decide (r.pair = (target, key))) ∘ fun a =>
            { a with node_id := target }) a = true)) =
          fun a => decide (a.pair = (source, key)) := by
        funext a
        by_cases hs : a.node_id = source <;> simp [hs, AttributeRow.pair]
      rw [hpred, Option.map_map]
      rfl
    · cases h
  · cases h

/-- One round of the loop of `copy_subtree` makes a node like the original. -/
theorem copy_node_alike {now : Int} {old raw : RawNode} {up : NodeId} {name : Text}
    (hwf : WellFormed w.db) (hissued : Issued rt w) (hold : IsStored w.db ws old)
    (h : copy_node rt ws now old up name w = .ok (raw, w')) :
    ∃ n : NodeRow, raw = n.toRawNode ∧ w.db.nodes.insert n = some w'.db.nodes ∧
    n.parent_id = some up ∧ n.name = name ∧
      Made rt w.tick w'.tick ws n ∧ Alike w.db w'.db old raw ∧ Kept rt w w' := by
  simp only [copy_node, Tx.new_id_bind] at h
  obtain ⟨generation, w₁, hcontent, h⟩ := Tx.bind_eq_ok.mp h
  simp only [Tx.execute_bind_eq_ok] at h
  obtain ⟨db, hinsert, db', hattributes, h⟩ := h
  obtain ⟨rfl, rfl⟩ := Tx.pure_eq_ok.mp h
  obtain ⟨hkept, hgeneration, hempty, hbytes⟩ :=
    copy_content_alike (w := ⟨w.db, w.tick + 1⟩) hwf (hissued.later (Nat.le_succ _)) hold hcontent
  obtain ⟨_, hnodes, hsame, _⟩ :=
    copy_content_effect (P := Policy.any) (o := none) (w := ⟨w.db, w.tick + 1⟩) hwf
    (fun hlaid => hlaid.elim) hold hcontent
  obtain ⟨nodes, hins, rfl⟩ := Db.insert_node_ok hinsert
  have htarget := fun key => @insert_attributes_target old.id (rt.newId w.tick) _ _ hattributes key
  obtain ⟨attributes, rfl, hother⟩ := insert_attributes_ok hattributes
  have htick : w.tick + 1 ≤ w₁.tick := hkept.tick
  have hdrawn : Drawn rt w.tick w₁.tick (rt.newId w.tick) := ⟨w.tick, le_refl _, htick, rfl⟩
  refine ⟨copiedRow (rt.newId w.tick) ws up name old generation now, rfl, hnodes ▸ hins, rfl, rfl,
    ⟨hdrawn, fun g hg => (hgeneration g hg).mono (Nat.le_succ _) (le_refl _), rfl, rfl, rfl⟩,
    ⟨rfl, rfl, rfl, fun key => ?_, hempty, hbytes⟩,
      ⟨Nat.le_of_succ_le htick, fun g hg => ?_, fun id key hid => ?_⟩⟩
  · have hfree : w₁.db.attributes.find? (rt.newId w.tick, key) = none := by
      rw [hsame]
      cases hrow : w.db.attributes.find? (rt.newId w.tick, key) with
      | none => rfl
      | some a =>
        obtain ⟨m, hm, hid⟩ := hwf.attributes a (Table.mem_of_find? hrow)
        exact absurd (hid.trans (congrArg Prod.fst (Table.key_of_find? hrow)))
          (hissued.node_fresh hm)
    exact (htarget key hfree).trans (by rw [hsame])
  · have hsame : SameContent w.db w₁.db g := hkept.content g (fun hd => hg (hd.mono (Nat.le_succ _) (le_refl _)))
    exact ⟨hsame.row, hsame.chunk⟩
  · have hne : id ≠ rt.newId w.tick := by
      rintro rfl
      exact hid hdrawn
    exact (hother (id, key) hne).trans (by rw [hsame])

/-- What the loop of `copy_subtree` goes by: the store has grown from the one that it
started with, in which the nodes on its stack were stored. -/
structure Tracks (rt : Runtime) (base : World) (ws : WorkspaceId)
    (stack : List (RawNode × NodeId × Text)) (w : World) : Prop where
  wf : WellFormed w.db
  issued : Issued rt w
  placeable : Placeable w.db ws stack
  apart : Apart base.db ws stack w.db
  stored : ∀ item ∈ stack, IsStored base.db ws item.1
  kept : Kept rt base w

theorem Tracks.next {base : World} {now : Int} {old raw : RawNode} {up : NodeId} {name : Text}
    {stack : List (RawNode × NodeId × Text)} {w₁ : World}
    (h : Tracks rt base ws ((old, up, name) :: stack) w)
    (hcopy : copy_node rt ws now old up name w = .ok (raw, w₁)) :
    pushed w₁.db ws old raw.id stack = pushed base.db ws old raw.id stack ∧
      Tracks rt base ws (pushed base.db ws old raw.id stack) w₁ := by
  obtain ⟨new_node, w₂, hcopy', hwf₁, hissued₁, hplaceable₁⟩ :=
    copy_node_step h.wf h.issued h.placeable now
  obtain ⟨rfl, rfl⟩ := Prod.mk.inj (Except.ok.inj (hcopy'.symm.trans hcopy))
  obtain ⟨hchildren, hapart⟩ := h.apart.next hcopy
  obtain ⟨_, _, _, _, _, _, _, hkept⟩ :=
    copy_node_alike h.wf h.issued (h.placeable.pending _ List.mem_cons_self).1 hcopy
  refine ⟨hchildren, hwf₁, hissued₁, hchildren ▸ hplaceable₁, hapart, fun item hitem => ?_,
    h.kept.trans hkept⟩
  obtain ⟨_, child, hchild, rfl⟩ | hitem := mem_pushed.mp hitem
  · obtain ⟨m, hm, hraw, hws, _⟩ := mem_fetch_children.mp hchild
    exact ⟨m, hm, hraw, hws⟩
  · exact h.stored item (List.mem_cons_of_mem _ hitem)

/-- What the loop of `copy_subtree` makes, as pairs of an original and its copy. -/
structure Duplicates (rt : Runtime) (base : World) (ws : WorkspaceId)
    (stack : List (RawNode × NodeId × Text)) (w w' : World) (pairs : List (RawNode × NodeRow)) :
    Prop where
  nodes : ∀ m, m ∈ w'.db.nodes ↔ m ∈ w.db.nodes ∨ ∃ p ∈ pairs, p.2 = m
  kept : Kept rt w w'
  made : ∀ p ∈ pairs, Made rt w.tick w'.tick ws p.2
  alike : ∀ p ∈ pairs, Alike base.db w'.db p.1 p.2.toRawNode
  distinct : ∀ p ∈ pairs, ∀ q ∈ pairs, p.2.id = q.2.id → p = q
  reached : ∀ p ∈ pairs, ∃ item ∈ stack, Reaches base.db ws item.1 p.1
  starts : ∀ item ∈ stack, ∃ n, (item.1, n) ∈ pairs ∧ n.parent_id = some item.2.1 ∧
    n.name = item.2.2
  held : ∀ q ∈ pairs, ∀ c, Holds base.db ws q.1 c → ∃ n, (c, n) ∈ pairs ∧
    n.parent_id = some q.2.id ∧ n.name = c.name
  placed : ∀ p ∈ pairs, (∃ item ∈ stack, p.1 = item.1 ∧ p.2.parent_id = some item.2.1 ∧
    p.2.name = item.2.2) ∨
    ∃ q ∈ pairs, Holds base.db ws q.1 p.1 ∧ p.2.parent_id = some q.2.id ∧ p.2.name = p.1.name

theorem Duplicates.recorded {base : World} {stack : List (RawNode × NodeId × Text)} {w₁ : World}
    {pairs : List (RawNode × NodeRow)} (h : Duplicates rt base ws stack w w₁ pairs)
    (htick : w'.tick = w₁.tick) (happ : Appended ws w₁.db w'.db) :
    Duplicates rt base ws stack w w' pairs := by
  have hkept : Kept rt w₁ w' := by
    refine ⟨htick.ge, fun g _ => ⟨?_, fun i => ?_⟩, fun id key _ => ?_⟩
    · rw [Db.generation?, happ.content_generations]
      rfl
    · rw [happ.content_chunks]
    · rw [happ.attributes]
  refine ⟨fun m => ?_, h.kept.trans hkept, fun p hp => htick ▸ h.made p hp, fun p hp => ?_,
    h.distinct, h.reached, h.starts,
    h.held, h.placed⟩
  · rw [happ.nodes]
    exact h.nodes m
  · obtain ⟨hkind, hsize, hlink, hattributes, hempty, hbytes⟩ := h.alike p hp
    rw [← happ.attributes] at hattributes
    rw [← happ.content_chunks] at hbytes
    exact ⟨hkind, hsize, hlink, hattributes, hempty, hbytes⟩

/-- The pair of one round, before those of the rounds that follow. -/
theorem Duplicates.cons {base : World} {old : RawNode} {n : NodeRow} {up : NodeId} {name : Text}
    {stack : List (RawNode × NodeId × Text)} {w₁ : World} {pairs : List (RawNode × NodeRow)}
    (hins : w.db.nodes.insert n = some w₁.db.nodes) (hup : n.parent_id = some up)
    (hname : n.name = name) (hmade : Made rt w.tick w₁.tick ws n) (hkept : Kept rt w w₁)
    (halike : ∀ w', Kept rt w₁ w' → Alike base.db w'.db old n.toRawNode)
    (h : Duplicates rt base ws (pushed base.db ws old n.id stack) w₁ w' pairs) :
    Duplicates rt base ws ((old, up, name) :: stack) w w' ((old, n) :: pairs) := by
  have hlater : ∀ p ∈ pairs, p.2.id ≠ n.id :=
    fun p hp hid => hmade.id.disjoint (hid ▸ (h.made p hp).id)
  refine ⟨fun m => ?_, hkept.trans h.kept, fun p hp => ?_, fun p hp => ?_, fun p hp q hq hid => ?_,
    fun p hp => ?_,
    fun item hitem => ?_, fun q hq c hc => ?_, fun p hp => ?_⟩
  · rw [h.nodes, Table.mem_insert hins, List.exists_mem_cons_iff, or_assoc]
    exact or_congr_right (or_congr_left eq_comm)
  · obtain rfl | hp := List.mem_cons.mp hp
    · exact hmade.mono (le_refl _) h.kept.tick
    · exact (h.made p hp).mono hkept.tick (le_refl _)
  · obtain rfl | hp := List.mem_cons.mp hp
    · exact halike w' h.kept
    · exact h.alike p hp
  · obtain rfl | hp := List.mem_cons.mp hp
    · obtain rfl | hq := List.mem_cons.mp hq
      · rfl
      · exact absurd hid.symm (hlater q hq)
    · obtain rfl | hq := List.mem_cons.mp hq
      · exact absurd hid (hlater p hp)
      · exact h.distinct p hp q hq hid
  · obtain rfl | hp := List.mem_cons.mp hp
    · exact ⟨_, List.mem_cons_self, .refl⟩
    · obtain ⟨item, hitem, hreach⟩ := h.reached p hp
      obtain ⟨hdir, child, hchild, rfl⟩ | hitem := mem_pushed.mp hitem
      · exact ⟨_, List.mem_cons_self, Relation.ReflTransGen.head ⟨hdir, hchild⟩ hreach⟩
      · exact ⟨item, List.mem_cons_of_mem _ hitem, hreach⟩
  · obtain rfl | hitem := List.mem_cons.mp hitem
    · exact ⟨n, List.mem_cons_self, hup, hname⟩
    · obtain ⟨m, hm, hplace⟩ := h.starts item (mem_pushed.mpr (Or.inr hitem))
      exact ⟨m, List.mem_cons_of_mem _ hm, hplace⟩
  · obtain rfl | hq := List.mem_cons.mp hq
    · obtain ⟨m, hm, hplace⟩ :=
        h.starts (c, n.id, c.name) (mem_pushed.mpr (Or.inl ⟨hc.1, c, hc.2, rfl⟩))
      exact ⟨m, List.mem_cons_of_mem _ hm, hplace⟩
    · obtain ⟨m, hm, hplace⟩ := h.held q hq c hc
      exact ⟨m, List.mem_cons_of_mem _ hm, hplace⟩
  · obtain rfl | hp := List.mem_cons.mp hp
    · exact Or.inl ⟨_, List.mem_cons_self, rfl, hup, hname⟩
    · obtain ⟨item, hitem, heq, hplace⟩ | ⟨q, hq, hplace⟩ := h.placed p hp
      · obtain ⟨hdir, child, hchild, rfl⟩ | hitem := mem_pushed.mp hitem
        · obtain rfl : p.1 = child := heq
          exact Or.inr ⟨_, List.mem_cons_self, ⟨hdir, hchild⟩, hplace⟩
        · exact Or.inl ⟨item, List.mem_cons_of_mem _ hitem, heq, hplace⟩
      · exact Or.inr ⟨q, List.mem_cons_of_mem _ hq, hplace⟩

/-- The rounds of the loop of `copy_subtree` make the pairs one after the other. -/
theorem copy_loop_duplicates {base : World} {now : Int} {bound : Nat}
    {stack : List (RawNode × NodeId × Text)} {top : Option RawNode} {raw : RawNode}
    (hwf : WellFormed base.db) (hissued : Issued rt base) (htracks : Tracks rt base ws stack w)
    (h : copy_loop rt ws now bound stack top w = .ok (raw, w')) :
    ∃ pairs, Duplicates rt base ws stack w w' pairs := by
  revert htracks
  refine copy_loop_induction (motive :=
    fun _ stack _ w => Tracks rt base ws stack w → ∃ pairs,
    Duplicates rt base ws stack w w' pairs) ?_ ?_ h
  · intro _ _
    refine ⟨[], ⟨fun m => ?_, Kept.refl _ _, ?_, ?_, ?_, ?_, ?_, ?_, ?_⟩⟩
    · simp
    all_goals exact fun x hx => absurd hx List.not_mem_nil
  · intro _ old new_node up name stack _ w w₁ hcopy _ ih htracks
    obtain ⟨hchildren, hnext⟩ := htracks.next hcopy
    obtain ⟨n, rfl, hins, hup, hname, hmade, halike, hkept⟩ :=
      copy_node_alike htracks.wf htracks.issued
        (htracks.placeable.pending _ List.mem_cons_self).1 hcopy
    rw [hchildren] at ih
    obtain ⟨pairs, hpairs⟩ := ih hnext
    exact ⟨(old, n) :: pairs, hpairs.cons hins hup hname hmade hkept (fun w' hafter =>
      halike.frame hwf hissued (htracks.stored _ List.mem_cons_self) hmade htracks.kept hafter)⟩

end mutate

end fslite
