import Fslite.Sqlite.Effect.Size

namespace fslite

open resolve

namespace mutate

/-- The nodes that the loop of `copy_subtree` takes from its stack, in their
order, when the store does not change meanwhile. -/
def visited (db : Db) (ws : WorkspaceId) : Nat → List RawNode → Option (List RawNode)
  | _, [] => some []
  | 0, _ :: _ => none
  | bound + 1, node :: stack =>
    let children := if node.kind = .Directory then fetch_children db ws node.id else []
    (visited db ws bound (children.reverse ++ stack)).map (fun rest => node :: rest)

/-- What a copy of the node copies: the node and what is untrashed below it. -/
def copied (db : Db) (ws : WorkspaceId) (id : NodeId) : Option (List RawNode) :=
  (fetch_by_id db ws id).bind (fun full => visited db ws db.nodes.rows.length [full])

/-- The directory has the untrashed child. -/
def Holds (db : Db) (ws : WorkspaceId) (a b : RawNode) : Prop :=
  a.kind = .Directory ∧ b ∈ fetch_children db ws a.id

/-- The node is the first one or lies below it, with untrashed nodes in between. -/
def Reaches (db : Db) (ws : WorkspaceId) : RawNode → RawNode → Prop :=
  Relation.ReflTransGen (Holds db ws)

variable {rt : Runtime} {ws : WorkspaceId} {w w' : World} {db : Db}

theorem mem_fetch_children {id : NodeId} {child : RawNode} : child ∈ fetch_children db ws id ↔
    ∃ n ∈ db.nodes, n.toRawNode = child ∧ n.workspace_id = ws ∧ n.parent_id = some id ∧
    n.trashed_at_ms = none := by
  refine ⟨fetch_children_mem, ?_⟩
  rintro ⟨n, hn, rfl, hws, hup, hactive⟩
  unfold fetch_children
  rw [List.mem_insertionSort]
  exact List.mem_map.mpr ⟨n, List.mem_filter.mpr ⟨hn, by simp [hws, hup, hactive]⟩, rfl⟩

/-- A new node is listed in its directory only. -/
theorem fetch_children_insert {db' : Db} {n : NodeRow} (hins : db.nodes.insert n = some db'.nodes)
    {id : NodeId} (hne : n.parent_id ≠ some id) :
    fetch_children db' ws id = fetch_children db ws id := by
  unfold fetch_children
  rw [(Table.insert_eq_some.mp hins).2, List.filter_append, List.filter_cons_of_neg (by simp [hne]),
    List.filter_nil,
    List.append_nil]

theorem fetch_children_mono {db' : Db} (hsub : ∀ n ∈ db.nodes, n ∈ db'.nodes) {id : NodeId}
    {child : RawNode} (h : child ∈ fetch_children db ws id) : child ∈ fetch_children db' ws id := by
  obtain ⟨n, hn, hplace⟩ := mem_fetch_children.mp h
  exact mem_fetch_children.mpr ⟨n, hsub n hn, hplace⟩

theorem Reaches.mono {db' : Db} (hsub : ∀ n ∈ db.nodes, n ∈ db'.nodes) {a b : RawNode}
    (h : Reaches db ws a b) :
    Reaches db' ws a b :=
  Relation.ReflTransGen.mono (fun _ _ hxy => ⟨hxy.1, fetch_children_mono hsub hxy.2⟩) _ _ h

/-- A copy that ends does not put a copy of a directory into the directory. -/
theorem copy_loop_outside {now : Int} {bound : Nat} {stack : List (RawNode × NodeId × Text)}
    {top : Option RawNode} {raw : RawNode}
    (h : copy_loop rt ws now bound stack top w = .ok (raw, w')) :
    ∀ item ∈ stack, ∀ x, Reaches w.db ws item.1 x → x.kind = .Directory → x.id ≠ item.2.1 := by
  refine copy_loop_induction (motive :=
    fun _ stack _ w => ∀ item ∈ stack, ∀ x, Reaches w.db ws item.1 x →
    x.kind = .Directory → x.id ≠ item.2.1) ?_ ?_ h
  · exact fun _ item hitem => by cases hitem
  · intro _ old new_node up name stack _ w w₁ hcopy _ hrest item hitem x hreach hdir hid
    obtain ⟨generation, hraw, hins, _⟩ := copy_node_ok hcopy
    have hkind' : new_node.kind = old.kind := by rw [hraw]; rfl
    have hsub : ∀ n ∈ w.db.nodes, n ∈ w₁.db.nodes :=
      fun n hn => (Table.mem_insert hins).mpr (Or.inl hn)
    obtain rfl | hitem := List.mem_cons.mp hitem
    · -- the new node hangs under `x`, and is then taken from the stack to be copied below itself
      simp only at hreach hid
      have hlisted : new_node ∈ fetch_children w₁.db ws x.id :=
        mem_fetch_children.mpr
          ⟨_, (Table.mem_insert hins).mpr (Or.inr rfl), hraw.symm, rfl, congrArg some hid.symm, rfl⟩
      have hpush : ∀ child ∈ fetch_children w₁.db ws old.id, old.kind = .Directory →
          ∀ y, Reaches w₁.db ws child y → y.kind = .Directory → y.id ≠ new_node.id :=
        fun child hchild hkind => hrest _ (mem_pushed.mpr (Or.inl ⟨hkind, child, hchild, rfl⟩))
      obtain rfl | ⟨child, ⟨hkind, hchild⟩, hbelow⟩ := Relation.ReflTransGen.cases_head hreach
      · exact hpush _ hlisted hdir _ .refl (hkind'.trans hdir) rfl
      · have hbelow' : Reaches w₁.db ws child x := Reaches.mono hsub hbelow
        exact hpush child (fetch_children_mono hsub hchild) hkind _ (hbelow'.tail ⟨hdir, hlisted⟩)
          (hkind'.trans hkind) rfl
    · exact hrest item (mem_pushed.mpr (Or.inr hitem)) x (Reaches.mono hsub hreach) hdir hid

/-- What is left on the stack reads the same as in `base`: no copy has been put
into a directory that is still to be copied, and none will be. -/
structure Apart (base : Db) (ws : WorkspaceId) (stack : List (RawNode × NodeId × Text)) (db : Db) :
    Prop where
  reads : ∀ item ∈ stack, ∀ x, Reaches base ws item.1 x → x.kind = .Directory →
    fetch_children db ws x.id = fetch_children base ws x.id
  apart : ∀ item ∈ stack, ∀ other ∈ stack, ∀ x, Reaches base ws item.1 x → x.kind = .Directory →
    x.id ≠ other.2.1
  stored : ∀ item ∈ stack, ∀ x, Reaches base ws item.1 x → ∃ n ∈ db.nodes, n.id = x.id

/-- One round of the loop: the new node goes into the first item's directory, and
the children of the first item are pushed with the new node. -/
theorem Apart.push {base db' : Db} {old : RawNode} {up : NodeId} {name : Text}
    {stack : List (RawNode × NodeId × Text)} {n : NodeRow}
    (h : Apart base ws ((old, up, name) :: stack) db) (hins : db.nodes.insert n = some db'.nodes)
    (hup : n.parent_id = some up) {pushed : List (RawNode × NodeId × Text)}
    (hpushed : ∀ item ∈ pushed, Holds base ws old item.1 ∧ item.2.1 = n.id) :
    Apart base ws (pushed ++ stack) db' := by
  -- what an item reaches, an item before the round has reached
  have hreach : ∀ item ∈ pushed ++ stack, ∀ x, Reaches base ws item.1 x →
      ∃ item' ∈ (old, up, name) :: stack, Reaches base ws item'.1 x := by
    intro item hitem x hx
    obtain hitem | hitem := List.mem_append.mp hitem
    · exact ⟨_, List.mem_cons_self, Relation.ReflTransGen.head (hpushed item hitem).1 hx⟩
    · exact ⟨item, List.mem_cons_of_mem _ hitem, hx⟩
  refine ⟨fun item hitem x hx hdir => ?_, fun item hitem other hother x hx hdir => ?_,
    fun item hitem x hx => ?_⟩
  · obtain ⟨item', hitem', hx'⟩ := hreach item hitem x hx
    rw [fetch_children_insert hins, h.reads item' hitem' x hx' hdir]
    rw [hup]
    exact fun heq => h.apart item' hitem' _ List.mem_cons_self x hx' hdir (Option.some.inj heq).symm
  · obtain ⟨item', hitem', hx'⟩ := hreach item hitem x hx
    obtain hother | hother := List.mem_append.mp hother
    · obtain ⟨m, hm, hid⟩ := h.stored item' hitem' x hx'
      rw [(hpushed other hother).2, ← hid]
      exact Table.find?_eq_none.mp (Table.insert_eq_some.mp hins).1 m hm
    · exact h.apart item' hitem' other (List.mem_cons_of_mem _ hother) x hx' hdir
  · obtain ⟨item', hitem', hx'⟩ := hreach item hitem x hx
    obtain ⟨m, hm, hid⟩ := h.stored item' hitem' x hx'
    exact ⟨m, (Table.mem_insert hins).mpr (Or.inl hm), hid⟩

/-- A round of the loop pushes the children that the first item had in `base`. -/
theorem Apart.next {base : Db} {now : Int} {old raw : RawNode} {up : NodeId} {name : Text}
    {stack : List (RawNode × NodeId × Text)} (h : Apart base ws ((old, up, name) :: stack) w.db)
    (hcopy : copy_node rt ws now old up name w = .ok (raw, w')) :
    pushed w'.db ws old raw.id stack = pushed base ws old raw.id stack ∧
    Apart base ws (pushed base ws old raw.id stack) w'.db := by
  obtain ⟨generation, rfl, hins, _⟩ := copy_node_ok hcopy
  constructor
  · unfold pushed
    split
    · rename_i hdir
      rw [fetch_children_insert hins, h.reads _ List.mem_cons_self old .refl hdir]
      exact fun heq => h.apart _ List.mem_cons_self _ List.mem_cons_self old .refl hdir
        (Option.some.inj heq).symm
    · rfl
  · refine h.push hins rfl (fun item hitem => ?_)
    obtain ⟨child, hchild, rfl⟩ := List.mem_map.mp (List.mem_reverse.mp hitem)
    split at hchild
    · rename_i hdir
      exact ⟨⟨hdir, hchild⟩, rfl⟩
    · cases hchild

/-- The loop of `copy_subtree` adds one node for each visited one. -/
theorem copy_loop_grows {base : Db} {now : Int} {bound : Nat}
    {stack : List (RawNode × NodeId × Text)} {top : Option RawNode} {raw : RawNode}
    (hapart : Apart base ws stack w.db)
    (h : copy_loop rt ws now bound stack top w = .ok (raw, w')) :
    ∃ nodes, visited base ws bound (stack.map Prod.fst) = some nodes ∧
      Grows ws [] (nodes.map (fun n => n.size)) w.db w'.db := by
  revert hapart
  refine copy_loop_induction (motive := fun bound stack _ w => Apart base ws stack w.db →
    ∃ nodes, visited base ws bound (stack.map Prod.fst) = some nodes ∧
      Grows ws [] (nodes.map (fun n => n.size)) w.db w'.db) ?_ ?_ h
  · exact fun bound _ => ⟨[], by cases bound <;> rfl, .refl _ _⟩
  · intro bound old new_node up name stack _ w w₁ hcopy _ ih hapart
    obtain ⟨hchildren, hnext⟩ := hapart.next hcopy
    obtain ⟨generation, rfl, hins, _, hframed⟩ := copy_node_ok hcopy
    have hgrows : Grows ws [] [old.size] w.db w₁.db :=
      .of_insert hins rfl (.of_eq hframed.workspaces)
    obtain ⟨nodes, hvisited, hgrows'⟩ := ih (hchildren ▸ hnext)
    refine ⟨old :: nodes, ?_, hgrows.trans hgrows'⟩
    rw [hchildren] at hvisited
    simp only [pushed, List.map_append, List.map_reverse, List.map_map, Function.comp_def,
      List.map_id'] at hvisited
    simp only [List.map_cons, visited, hvisited, Option.map_some]

theorem Reaches.stored {a b : RawNode} (h : Reaches db ws a b) (ha : ∃ n ∈ db.nodes, n.id = a.id) :
    ∃ n ∈ db.nodes, n.id = b.id := by
  induction h with
  | refl => exact ha
  | tail _ hstep _ =>
    obtain ⟨n, hn, rfl, _⟩ := mem_fetch_children.mp hstep.2
    exact ⟨n, hn, rfl⟩

/-- A copy starts apart when its destination directory is not reached from its source. -/
theorem Apart.single {full : RawNode} {up : NodeId} {name : Text}
    (hstored : ∃ n ∈ db.nodes, n.id = full.id)
    (hout : ∀ x, Reaches db ws full x → x.kind = .Directory → x.id ≠ up) :
    Apart db ws [(full, up, name)] db := by
  refine ⟨fun _ _ _ _ _ => rfl, fun item hitem other hother x hx hdir => ?_, fun item hitem x hx =>
    ?_⟩
  · rw [List.mem_singleton.mp hitem] at hx
    rw [List.mem_singleton.mp hother]
    exact hout x hx hdir
  · rw [List.mem_singleton.mp hitem] at hx
    exact Reaches.stored hx hstored

/-- A copy adds what it copies. -/
theorem copy_subtree_grows {source raw : RawNode} {up : NodeId} {name : Text} {now : Int}
    (h : copy_subtree rt ws source up name now w = .ok (raw, w')) :
    ∃ nodes, copied w.db ws source.id = some nodes ∧
    Grows ws [] (nodes.map (fun n => n.size)) w.db w'.db := by
  unfold copy_subtree at h
  obtain ⟨full, w₁, hfull, hloop⟩ := Tx.bind_eq_ok.mp h
  obtain ⟨rfl, hfull⟩ := fetch_full_ok hfull
  rw [Tx.query_bind] at hloop
  have hstored : ∃ n ∈ w₁.db.nodes, n.id = full.id := by
    obtain ⟨n, hn, rfl, _⟩ := fetch_by_id_eq_some.mp hfull
    exact ⟨n, hn, rfl⟩
  have hapart : Apart w₁.db ws [(full, up, name)] w₁.db :=
    .single hstored (copy_loop_outside hloop _ List.mem_cons_self)
  obtain ⟨nodes, hvisited, hgrows⟩ := copy_loop_grows hapart hloop
  refine ⟨nodes, ?_, hgrows⟩
  rw [copied, hfull]
  exact hvisited

end mutate

end fslite
