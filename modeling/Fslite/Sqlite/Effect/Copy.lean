import Fslite.Sqlite.Effect.Content

namespace fslite

open resolve

theorem Effect.laidOut {rt : Runtime} {P : Policy} {o : Option GenerationId} {w w' : World}
    (h : Effect rt P o w w') (hwf : WellFormed w.db) (hlaid : P.laid) (hall : LaidOut w.db) :
    LaidOut w'.db :=
  (h.edits.preserve (fun _ hid => Or.inr hid) hwf
    (fun hedit hwf => hedit.laidOut hwf (fun _ hid => Or.inr hid) hlaid) hall).2

/-- No chunk belongs to a generation that is not stored. -/
theorem ContentsWellFormed.chunkless {db : Db} (h : ContentsWellFormed db) {g : GenerationId}
    (hnone : db.generation? g = none) (i : Nat) : db.content_chunks.find? (g, i) = none := by
  cases hrow : db.content_chunks.find? (g, i) with
  | none => rfl
  | some c =>
    obtain ⟨row, hstored⟩ := h.chunk c (Table.mem_of_find? hrow)
    rw [show c.generation_id = g from congrArg Prod.fst (Table.key_of_find? hrow), hnone] at hstored
    cases hstored

/-- Copied chunks are those of the source, in the place of the target. -/
theorem insert_chunks_target {source target : GenerationId} {p : Nat → Bool} {db : Db}
    {chunks : Table ChunkRow.key}
    (hins : db.content_chunks.insertAll (content.copied_chunks db source target p) = some chunks)
    (i : Nat) (hnone : db.content_chunks.find? (target, i) = none) :
    (chunks.find? (target, i)).map ChunkRow.bytes =
      if p i then (db.content_chunks.find? (source, i)).map ChunkRow.bytes else none := by
  rw [Table.find?_insertAll hins, hnone, Option.none_or, content.copied_chunks, List.find?_map,
    List.find?_filter]
  have hpred : (fun c : ChunkRow =>
    decide (decide (c.generation_id = source ∧ p c.chunk_index = true) = true ∧
      ((fun r : ChunkRow => decide (r.key = (target, i))) ∘ fun c =>
        { c with generation_id := target }) c = true)) =
      fun c => decide (c.key = (source, i)) && p i := by
    funext c
    by_cases hi : c.chunk_index = i
    · subst hi
      by_cases hs : c.generation_id = source <;> simp [hs, ChunkRow.key]
    · simp [hi, ChunkRow.key]
  rw [hpred]
  cases hp : p i with
  | false => simp
  | true =>
    simp only [Bool.and_true, if_true, Option.map_map]
    rfl

/-- The new generation of a copied file holds what the old one holds. -/
theorem Db.Laid.copied {source target : GenerationId} {db : Db} {chunks : Table ChunkRow.key}
    {bytes : Bytes} (h : db.Laid source bytes)
    (hnone : ∀ i, db.content_chunks.find? (target, i) = none)
    (hins : db.content_chunks.insertAll (content.copied_chunks db source target (fun _ => true)) =
    some chunks) :
    Db.Laid { db with content_chunks := chunks } target bytes := by
  intro i
  rw [← h i]
  exact insert_chunks_target hins i (hnone i)

/-- A stored, untrashed directory of the workspace. -/
def IsDirectory (db : Db) (ws : WorkspaceId) (id : NodeId) : Prop :=
  ∃ p ∈ db.nodes, p.id = id ∧ p.kind = .Directory ∧ p.workspace_id = ws ∧ p.trashed_at_ms = none

theorem IsDirectory.mono {db db' : Db} {ws : WorkspaceId} {id : NodeId} (h : IsDirectory db ws id)
    (hsub : ∀ m ∈ db.nodes, m ∈ db'.nodes) : IsDirectory db' ws id := by
  obtain ⟨p, hp, hrest⟩ := h
  exact ⟨p, hsub p hp, hrest⟩

/-- A row that the loop of `copy_subtree` may copy: stored in the workspace. -/
def IsStored (db : Db) (ws : WorkspaceId) (raw : RawNode) : Prop :=
  ∃ n ∈ db.nodes, n.toRawNode = raw ∧ n.workspace_id = ws

theorem IsStored.mono {db db' : Db} {ws : WorkspaceId} {raw : RawNode} (h : IsStored db ws raw)
    (hsub : ∀ m ∈ db.nodes, m ∈ db'.nodes) : IsStored db' ws raw := by
  obtain ⟨n, hn, hrest⟩ := h
  exact ⟨n, hsub n hn, hrest⟩

theorem IsLive.stored {db : Db} {ws : WorkspaceId} {raw : RawNode} (h : IsLive db ws raw) :
    IsStored db ws raw := by
  obtain ⟨n, hraw, hlive⟩ := h
  exact ⟨n, hlive.mem, hraw, hlive.workspace⟩

namespace mutate

variable {rt : Runtime} {P : Policy} {o : Option GenerationId} {ws : WorkspaceId} {w w' : World}
  {actor_json : Text}

/-- Only a file has content to copy. -/
theorem copy_content_nothing {old : RawNode}
    (h : old.kind = .File → old.content_generation_id = none) :
    copy_content rt ws old = pure none := by
  unfold copy_content
  cases hkind : old.kind <;> cases hgeneration : old.content_generation_id <;> simp_all

/-- What `copy_content` does: nothing, or it completes a new generation that has
the chunks of the old one. -/
theorem copy_content_cases {old : RawNode} {result : Option GenerationId}
    (h : copy_content rt ws old w = .ok (result, w')) :
    ((old.kind = .File → old.content_generation_id = none) ∧ result = none ∧ w' = w) ∨
      ∃ source gens chunks, (old.kind = .File ∧ old.content_generation_id = some source) ∧
      result = some (rt.newId w.tick) ∧
        content.create_generation rt ws w =
          .ok (rt.newId w.tick, ⟨{ w.db with content_generations := gens }, w.tick + 2⟩) ∧
        w.db.content_chunks.insertAll
          (content.copied_chunks { w.db with content_generations := gens } source (rt.newId w.tick)
            (fun _ => true)) = some chunks ∧
        w' = ⟨Db.set_generation_complete (rt.newId w.tick) old.size
          { w.db with content_generations := gens, content_chunks := chunks }, w.tick + 2⟩ := by
  by_cases hnothing : old.kind = .File → old.content_generation_id = none
  · rw [copy_content_nothing hnothing] at h
    obtain ⟨rfl, rfl⟩ := Tx.pure_eq_ok.mp h
    exact Or.inl ⟨hnothing, rfl, rfl⟩
  · obtain ⟨hkind, hsome⟩ := Classical.not_imp.mp hnothing
    obtain ⟨source, hsource⟩ := Option.ne_none_iff_exists'.mp hsome
    simp only [copy_content, hkind, hsource] at h
    obtain ⟨g, w₁, hcreate, h⟩ := Tx.bind_eq_ok.mp h
    simp only [content.finalize_generation, Tx.execute_bind_eq_ok, Except.ok.injEq,
      exists_eq_left'] at h
    obtain ⟨db, hcopy, h⟩ := h
    obtain ⟨rfl, rfl⟩ := Tx.pure_eq_ok.mp h
    obtain ⟨_, chunks, hins, rfl⟩ := content.insert_chunks_ok hcopy
    obtain ⟨gens, rfl, _, rfl⟩ := content.create_generation_ok hcreate
    exact Or.inr ⟨source, gens, chunks, ⟨hkind, hsource⟩, rfl, hcreate, hins, rfl⟩

/-- The content of a copied node: none, or a new generation that is ready. -/
theorem copy_content_effect {old : RawNode} {result : Option GenerationId} (hwf : WellFormed w.db)
    (hlaid : P.laid → LaidOut w.db) (hold : IsStored w.db ws old)
    (h : copy_content rt ws old w = .ok (result, w')) :
    Effect rt P o w w' ∧ w'.db.nodes = w.db.nodes ∧ w'.db.attributes = w.db.attributes ∧
      (old.kind = .File → result ≠ none) ∧
      ∀ g, result = some g → old.kind = .File ∧ Drawn rt w.tick w'.tick g ∧
        Ready P w'.db ws g old.size := by
  obtain ⟨n, hn, rfl, hws⟩ := hold
  by_cases hkind : n.kind = .File
  · obtain ⟨hnothing, _⟩ | ⟨old_generation, gens, chunks, ⟨_, hgeneration⟩, rfl, hcreate, hins,
      rfl⟩ := copy_content_cases h
    · exact absurd (hnothing hkind) (hwf.contents.file n hn hkind)
    have hstaged : Staged P { w.db with content_generations := gens } ws (rt.newId w.tick) 0 :=
      content.staged_of_create hwf hcreate
    have heffect₁ : Effect rt P o w ⟨{ w.db with content_generations := gens }, w.tick + 2⟩ :=
      content.create_generation_effect hcreate
    obtain ⟨_, _, hgens, heq⟩ := content.create_generation_ok hcreate
    cases heq
    have hnone : w.db.generation? (rt.newId w.tick) = none := (Table.insert_eq_some.mp hgens).1
    have hstored := (Db.generation?_insert hgens (rt.newId w.tick)).trans (if_pos rfl)
    have hdrawn : Drawn rt w.tick (w.tick + 2) (rt.newId w.tick) :=
      ⟨w.tick, le_refl _, by omega, rfl⟩
    have hunref : Db.Unreferenced
      { w.db with content_generations := gens, content_chunks := chunks }
        (rt.newId w.tick) := hstaged.unreferenced
    refine ⟨⟨heffect₁.tick, (heffect₁.edits.tail
      (.chunks _ (Or.inr hdrawn) hstaged.unreferenced ⟨_, hstored, rfl⟩ chunks
      (content.insert_chunks_other hins))).tail (.complete _ (Or.inr hdrawn) hunref n.size)⟩, rfl,
        rfl,
      fun _ => Option.some_ne_none _, fun g hg => ?_⟩
    cases hg
    refine ⟨hkind, hdrawn, hstaged.unreferenced,
      ⟨_, (Db.generation?_set_complete _ _ _).trans (if_pos rfl) |>.trans
      (congrArg _ hstored), rfl, rfl, rfl⟩, fun hP => ?_⟩
    obtain ⟨bytes, hlength, hbytes⟩ := hlaid hP n hn old_generation hgeneration
    exact ⟨bytes, hlength, Db.Laid.copied hbytes (hwf.contents.chunkless hnone) hins⟩
  · rw [copy_content_nothing (fun hfile => absurd hfile hkind)] at h
    obtain ⟨rfl, rfl⟩ := Tx.pure_eq_ok.mp h
    exact ⟨Effect.refl _ _ _ _, rfl, rfl, fun hfile => absurd hfile hkind, fun g hg => by cases hg⟩

/-- The attributes of one node are copied to another one. -/
theorem insert_attributes_ok {source target : NodeId} {db db' : Db}
    (h : db.insert_attributes source target = .ok db') :
    ∃ attributes : Table AttributeRow.pair, db' = { db with attributes } ∧
      ∀ k : NodeId × Text, k.1 ≠ target → attributes.find? k = db.attributes.find? k := by
  unfold Db.insert_attributes at h
  simp only at h
  split at h
  · split at h
    · rename_i attributes hins
      cases h
      refine ⟨attributes, rfl, fun k hk => ?_⟩
      rw [Table.find?_insertAll hins, List.find?_eq_none.mpr, Option.or_none]
      intro a ha hkey
      obtain ⟨a', _, rfl⟩ := List.mem_map.mp ha
      rw [decide_eq_true_eq] at hkey
      exact hk (congrArg Prod.fst hkey.symm)
    · cases h
  · cases h

/-- One round of the loop of `copy_subtree` adds one node. -/
theorem copy_node_effect {now : Int} {old raw : RawNode} {up : NodeId} {name : Text}
    (hwf : WellFormed w.db) (hlaid : P.laid → LaidOut w.db) (hold : IsStored w.db ws old)
    (hparent : IsDirectory w.db ws up) (hsegment : Segment name)
    (h : copy_node rt ws now old up name w = .ok (raw, w')) :
    Effect rt P o w w' ∧ (∀ m ∈ w.db.nodes, m ∈ w'.db.nodes) ∧
      ∃ n ∈ w'.db.nodes, n.toRawNode = raw ∧ n.kind = old.kind ∧ n.workspace_id = ws ∧
      n.trashed_at_ms = none := by
  simp only [copy_node, Tx.new_id_bind] at h
  obtain ⟨generation, w₁, hcontent, h⟩ := Tx.bind_eq_ok.mp h
  simp only [Tx.execute_bind_eq_ok] at h
  obtain ⟨db, hinsert, db', hattributes, h⟩ := h
  obtain ⟨rfl, rfl⟩ := Tx.pure_eq_ok.mp h
  obtain ⟨heffect₁, hnodes, hsame, hfile, hready⟩ := copy_content_effect (P := P) (o := o)
    (w := ⟨w.db, w.tick + 1⟩) hwf hlaid hold hcontent
  obtain ⟨p, hp, rfl, hdir, hpws, hopen⟩ := hparent
  have hallowed := Db.insert_node_allowed hinsert
  obtain ⟨nodes, hins, rfl⟩ := Db.insert_node_ok hinsert
  obtain ⟨attributes, rfl, hother⟩ := insert_attributes_ok hattributes
  have hmem : ∀ m, m ∈ nodes ↔ m ∈ w₁.db.nodes ∨
      m = copiedRow (rt.newId w.tick) ws p.id name old generation now :=
        fun m => Table.mem_insert hins
  have htick : w.tick + 1 ≤ w₁.tick := heffect₁.tick
  have hdrawn : Drawn rt w.tick w₁.tick (rt.newId w.tick) := ⟨w.tick, le_refl _, by omega, rfl⟩
  refine ⟨⟨Nat.le_of_succ_le htick,
    Edits.tail (Edits.tail (heffect₁.edits.mono ?_ ?_)
    (.insert _ p hdrawn (hnodes ▸ hp) hdir hopen rfl hpws
    hsegment ?_ rfl rfl hfile ?_ hins))
      (.attributes _ ((hmem _).mpr (Or.inr rfl)) hdrawn attributes hother)⟩,
    fun m hm => (hmem m).mpr (Or.inl (hnodes ▸ hm)), _, (hmem _).mpr (Or.inr rfl), rfl, rfl, rfl,
      rfl⟩
  · exact fun id hid => hid.mono (by simp) (le_refl _)
  · exact fun g hg => hg.imp_right (fun hid => hid.mono (by simp) (le_refl _))
  · intro m hm hws hup hname hactive
    refine hallowed.free rfl p.id rfl m hm ?_ hws hup hname hactive
    exact Table.find?_eq_none.mp (Table.insert_eq_some.mp hins).1 m hm
  · intro g hg
    obtain ⟨hkind, hdrawn', hr⟩ := hready g hg
    exact ⟨hkind, Or.inr (hdrawn'.mono (by simp) (le_refl _)), hr⟩

theorem fetch_children_mem {db : Db} {id : NodeId} {child : RawNode}
    (h : child ∈ fetch_children db ws id) :
    ∃ n ∈ db.nodes, n.toRawNode = child ∧ n.workspace_id = ws ∧ n.parent_id = some id ∧
    n.trashed_at_ms = none := by
  unfold fetch_children at h
  rw [List.mem_insertionSort] at h
  obtain ⟨n, hn, hraw⟩ := List.mem_map.mp h
  obtain ⟨hmem, hp⟩ := List.mem_filter.mp hn
  exact ⟨n, hmem, hraw, by simpa using hp⟩

/-- The rest of the stack after one round of the loop of `copy_subtree`. -/
def pushed (db : Db) (ws : WorkspaceId) (old : RawNode) (up : NodeId)
    (stack : List (RawNode × NodeId × Text)) :
    List (RawNode × NodeId × Text) :=
  ((if old.kind = .Directory then fetch_children db ws old.id else []).map
    (fun child => (child, up, child.name))).reverse ++ stack

theorem mem_pushed {db : Db} {old : RawNode} {up : NodeId} {stack : List (RawNode × NodeId × Text)}
    {item : RawNode × NodeId × Text} :
    item ∈ pushed db ws old up stack ↔
      (old.kind = .Directory ∧ ∃ child ∈ fetch_children db ws old.id,
      item = (child, up, child.name)) ∨ item ∈ stack := by
  unfold pushed
  rw [List.mem_append, List.mem_reverse, List.mem_map]
  refine or_congr_left ?_
  split
  · rename_i hdir
    exact ⟨fun ⟨child, hchild, heq⟩ => ⟨hdir, child, hchild, heq.symm⟩,
      fun ⟨_, child, hchild, heq⟩ => ⟨child, hchild, heq.symm⟩⟩
  · rename_i hdir
    exact ⟨fun ⟨_, hchild, _⟩ => (by cases hchild), fun ⟨hdir', _⟩ => absurd hdir' hdir⟩

theorem copy_loop_succ {now : Int} {bound : Nat} {old new_node : RawNode} {up : NodeId}
    {name : Text} {stack : List (RawNode × NodeId × Text)} {top : Option RawNode} {w₁ : World}
    (h : copy_node rt ws now old up name w = .ok (new_node, w₁)) :
    copy_loop rt ws now (bound + 1) ((old, up, name) :: stack) top w =
      copy_loop rt ws now bound (pushed w₁.db ws old new_node.id stack)
        (top.or (some new_node)) w₁ := by
  rw [copy_loop, Tx.bind_of_ok h, Tx.query_bind]
  rfl

/-- Induction on the rounds of a loop of `copy_subtree` that ends. -/
theorem copy_loop_induction {now : Int} {bound : Nat} {stack : List (RawNode × NodeId × Text)}
    {top : Option RawNode} {raw : RawNode}
    {motive : Nat → List (RawNode × NodeId × Text) → Option RawNode → World → Prop}
    (done : ∀ bound, motive bound [] (some raw) w')
    (step : ∀ {bound : Nat} {old new_node : RawNode} {up : NodeId} {name : Text}
    {stack : List (RawNode × NodeId × Text)}
      {top : Option RawNode} {w w₁ : World}, copy_node rt ws now old up name w = .ok
      (new_node, w₁) →
        copy_loop rt ws now bound (pushed w₁.db ws old new_node.id stack)
          (top.or (some new_node)) w₁ = .ok (raw, w') →
        motive bound (pushed w₁.db ws old new_node.id stack) (top.or (some new_node)) w₁ →
        motive (bound + 1) ((old, up, name) :: stack) top w)
    (h : copy_loop rt ws now bound stack top w = .ok (raw, w')) : motive bound stack top w := by
  induction bound generalizing stack top w with
  | zero =>
    cases stack with
    | nil =>
      obtain ⟨rfl, rfl⟩ := Tx.expect_eq_ok.mp h
      exact done 0
    | cons item stack => exact absurd h Tx.fail_ne_ok
  | succ bound ih =>
    cases stack with
    | nil =>
      obtain ⟨rfl, rfl⟩ := Tx.expect_eq_ok.mp h
      exact done (bound + 1)
    | cons item stack =>
      obtain ⟨old, up, name⟩ := item
      rw [copy_loop] at h
      obtain ⟨new_node, w₁, hcopy, h⟩ := Tx.bind_eq_ok.mp h
      exact step hcopy h (ih h)

/-- What the loop of `copy_subtree` still has to do makes sense. -/
def Pending (db : Db) (ws : WorkspaceId) (stack : List (RawNode × NodeId × Text)) : Prop :=
  ∀ item ∈ stack, IsStored db ws item.1 ∧ IsDirectory db ws item.2.1 ∧ Segment item.2.2

theorem Pending.mono {db db' : Db} {stack : List (RawNode × NodeId × Text)}
    (h : Pending db ws stack) (hsub : ∀ m ∈ db.nodes, m ∈ db'.nodes) : Pending db' ws stack :=
  fun item hitem => ⟨(h item hitem).1.mono hsub, (h item hitem).2.1.mono hsub, (h item hitem).2.2⟩

/-- The loop of `copy_subtree` only adds nodes. -/
theorem copy_loop_effect {now : Int} {bound : Nat} {stack : List (RawNode × NodeId × Text)}
    {top : Option RawNode} {raw : RawNode} (hwf : WellFormed w.db) (hlaid : P.laid → LaidOut w.db)
    (hstack : Pending w.db ws stack) (h : copy_loop rt ws now bound stack top w = .ok (raw, w')) :
    Effect rt P o w w' ∧ ∀ m ∈ w.db.nodes, m ∈ w'.db.nodes := by
  revert hwf hlaid hstack
  refine copy_loop_induction (motive :=
    fun _ stack _ w => WellFormed w.db → (P.laid → LaidOut w.db) →
    Pending w.db ws stack → Effect rt P o w w' ∧ ∀ m ∈ w.db.nodes, m ∈ w'.db.nodes) ?_ ?_ h
  · exact fun _ _ _ _ => ⟨Effect.refl _ _ _ _, fun _ hm => hm⟩
  · intro _ old new_node up name stack _ w w₁ hcopy _ ih hwf hlaid hstack
    obtain ⟨hold, hparent, hsegment⟩ := hstack _ List.mem_cons_self
    obtain ⟨heffect, hsub, n, hn, hraw, hkind, hws, hopen⟩ :=
      copy_node_effect (P := P) (o := o) hwf hlaid hold hparent
      hsegment hcopy
    have hwf₁ := heffect.wellFormed hwf
    have hpending : Pending w₁.db ws (pushed w₁.db ws old new_node.id stack) := by
      intro item hitem
      obtain ⟨hdir, child, hchild, rfl⟩ | hstacked := mem_pushed.mp hitem
      · obtain ⟨m, hm, rfl, hmws, hmup, _⟩ := fetch_children_mem hchild
        refine ⟨⟨m, hm, rfl, hmws⟩, ⟨n, hn, by rw [← hraw], hkind.trans hdir, hws, hopen⟩, ?_⟩
        exact hwf₁.nodes.segment m hm (by simp [hmup])
      · exact (hstack.mono hsub) item (List.mem_cons_of_mem _ hstacked)
    obtain ⟨hrest, hsub'⟩ := ih hwf₁ (fun hP => heffect.laidOut hwf hP (hlaid hP)) hpending
    exact ⟨heffect.trans hrest, fun m hm => hsub' m (hsub m hm)⟩

/-- Every copied row has revision 1, also the one that the loop returns. -/
theorem copy_loop_revision {now : Int} {bound : Nat} {stack : List (RawNode × NodeId × Text)}
    {top : Option RawNode} {raw : RawNode} (htop : ∀ row, top = some row → row.revision = 1)
    (h : copy_loop rt ws now bound stack top w = .ok (raw, w')) : raw.revision = 1 := by
  revert htop
  refine copy_loop_induction (motive :=
    fun _ _ top _ => (∀ row, top = some row → row.revision = 1) → raw.revision = 1) ?_ ?_ h
  · exact fun _ htop => htop raw rfl
  · intro _ _ new_node _ _ _ top w _ hcopy _ ih htop
    refine ih (fun row hrow => ?_)
    cases top with
    | some row' => exact htop row hrow
    | none =>
      obtain rfl : new_node = row := Option.some.inj hrow
      simp only [copy_node, Tx.new_id_bind] at hcopy
      obtain ⟨generation, w₂, _, hcopy⟩ := Tx.bind_eq_ok.mp hcopy
      simp only [Tx.execute_bind_eq_ok] at hcopy
      obtain ⟨_, _, _, _, hcopy⟩ := hcopy
      obtain ⟨rfl, _⟩ := Tx.pure_eq_ok.mp hcopy
      rfl

theorem copy_subtree_revision {source raw : RawNode} {up : NodeId} {name : Text} {now : Int}
    (h : copy_subtree rt ws source up name now w = .ok (raw, w')) : raw.revision = 1 := by
  unfold copy_subtree at h
  obtain ⟨full, w₁, _, h⟩ := Tx.bind_eq_ok.mp h
  rw [Tx.query_bind] at h
  exact copy_loop_revision (fun _ hnone => by cases hnone) h

end mutate

end fslite
