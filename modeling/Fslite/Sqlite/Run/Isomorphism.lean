import Fslite.Sqlite.Run.Duplicate
import Fslite.Sqlite.Run.Version

namespace fslite

open resolve mutate

/-- The untrashed subtrees of two nodes are isomorphic: the nodes of the one
correspond to those of the other, with the same children under the same names, and
are alike. -/
structure Isomorphic (db db' : Db) (ws : WorkspaceId) (source top : RawNode)
    (φ : RawNode → RawNode) : Prop where
  onto : Set.BijOn φ {m | Reaches db ws source m} {m | Reaches db' ws top m}
  top : φ source = top
  holds : ∀ m c, Reaches db ws source m → Reaches db ws source c →
    (Holds db' ws (φ m) (φ c) ↔ Holds db ws m c)
  name : ∀ m c, Reaches db ws source m → Holds db ws m c → (φ c).name = c.name
  alike : ∀ m, Reaches db ws source m → Alike db db' m (φ m)

namespace mutate.Duplicates

variable {rt : Runtime} {ws : WorkspaceId} {base w' : World} {source : RawNode} {up : NodeId}
  {name : Text} {pairs : List (RawNode × NodeRow)}

/-- A copy has the identifier of no node that was stored before. -/
theorem fresh (h : Duplicates rt base ws [(source, up, name)] base w' pairs)
    (hissued : Issued rt base) {p : RawNode × NodeRow} (hp : p ∈ pairs) {m : NodeRow}
    (hm : m ∈ base.db.nodes) : m.id ≠ p.2.id := fun heq =>
  (hissued.node m hm).disjoint (heq ▸ (h.made p hp).id)

theorem mem (h : Duplicates rt base ws [(source, up, name)] base w' pairs) {p : RawNode × NodeRow}
    (hp : p ∈ pairs) :
    p.2 ∈ w'.db.nodes := (h.nodes p.2).mpr (Or.inr ⟨p, hp, rfl⟩)

theorem kept_nodes (h : Duplicates rt base ws [(source, up, name)] base w' pairs) {m : NodeRow}
    (hm : m ∈ base.db.nodes) :
    m ∈ w'.db.nodes := (h.nodes m).mpr (Or.inl hm)

/-- What hangs below a copy is a copy. -/
theorem of_parent (h : Duplicates rt base ws [(source, up, name)] base w' pairs)
    (hwf : WellFormed base.db) (hissued : Issued rt base) {q : RawNode × NodeRow} (hq : q ∈ pairs)
    {m : NodeRow} (hm : m ∈ w'.db.nodes) (hup : m.parent_id = some q.2.id) :
    ∃ p ∈ pairs, p.2 = m := by
  refine ((h.nodes m).mp hm).resolve_left (fun hold => ?_)
  obtain ⟨x, hx, hid, _⟩ := hwf.nodes.parent m hold _ hup
  exact h.fresh hissued hq hx hid

/-- The original of a copy is the source or lies below it. -/
theorem reaches (h : Duplicates rt base ws [(source, up, name)] base w' pairs)
    {p : RawNode × NodeRow} (hp : p ∈ pairs) :
    Reaches base.db ws source p.1 := by
  obtain ⟨item, hitem, hreach⟩ := h.reached p hp
  rw [List.mem_singleton.mp hitem] at hreach
  exact hreach

/-- No node that is reached from the source holds the source. -/
theorem not_holds_source (hlive : IsLive base.db ws source) {m : RawNode}
    (hm : Reaches base.db ws source m) :
    ¬ Holds base.db ws m source := by
  intro hholds
  have hbelow := (hm.live hlive).2
  obtain ⟨s, rfl, hs⟩ := hlive
  obtain ⟨n, hn, hraw, _, hup, _⟩ := mem_fetch_children.mp hholds.2
  obtain rfl := base.db.node_ext hn hs.mem (congrArg RawNode.id hraw)
  exact hs.acyclic hup hbelow

/-- A node has one parent. -/
theorem holder_unique (hlive : IsLive base.db ws source) {m m' c : RawNode}
    (hm : Reaches base.db ws source m) (hm' : Reaches base.db ws source m')
    (hc : Holds base.db ws m c) (hc' : Holds base.db ws m' c) : m = m' := by
  obtain ⟨n, hn, rfl, _, hup, _⟩ := mem_fetch_children.mp hc.2
  obtain ⟨n', hn', hraw, _, hup', _⟩ := mem_fetch_children.mp hc'.2
  obtain rfl := base.db.node_ext hn' hn (congrArg RawNode.id hraw)
  obtain ⟨x, rfl, hx⟩ := (hm.live hlive).1
  obtain ⟨y, rfl, hy⟩ := (hm'.live hlive).1
  rw [base.db.node_ext hx.mem hy.mem (Option.some.inj (hup.symm.trans hup'))]

/-- Two copies in one directory have different names. -/
theorem eq_of_place (h : Duplicates rt base ws [(source, up, name)] base w' pairs)
    (hwf' : NodesWellFormed w'.db) {a b : RawNode} {n m : NodeRow} (hn : (a, n) ∈ pairs)
    (hm : (b, m) ∈ pairs) {parent : NodeId} (hup : n.parent_id = some parent)
    (hup' : m.parent_id = some parent) (hname : n.name = m.name) : n = m :=
  hwf'.name n (h.mem hn) m (h.mem hm) ((h.made _ hn).workspace.trans (h.made _ hm).workspace.symm)
    (hup.trans hup'.symm)
    (by rw [hup]; exact Option.some_ne_none _) hname (h.made _ hn).active (h.made _ hm).active

/-- A node is copied once. -/
theorem unique (h : Duplicates rt base ws [(source, up, name)] base w' pairs)
    (hlive : IsLive base.db ws source) (hwf' : NodesWellFormed w'.db) {a : RawNode} {n m : NodeRow}
    (hn : (a, n) ∈ pairs) (hm : (a, m) ∈ pairs) : n = m := by
  have hreach : Reaches base.db ws source a := h.reaches hn
  induction hreach generalizing n m with
  | refl =>
    have hplace : ∀ n, (source, n) ∈ pairs → n.parent_id = some up ∧ n.name = name := by
      intro n hn
      obtain ⟨item, hitem, _, hplace⟩ | ⟨q, hq, hholds, _⟩ := h.placed _ hn
      · rw [List.mem_singleton.mp hitem] at hplace
        exact hplace
      · exact absurd hholds (not_holds_source hlive (h.reaches hq))
    obtain ⟨hup, hname⟩ := hplace n hn
    obtain ⟨hup', hname'⟩ := hplace m hm
    exact h.eq_of_place hwf' hn hm hup hup' (hname.trans hname'.symm)
  | @tail b c hreach hstep ih =>
    -- both copies hang below copies of the one node that holds the original
    have hplace : ∀ n, (c, n) ∈ pairs → ∃ q, (b, q) ∈ pairs ∧ n.parent_id = some q.id ∧
        n.name = c.name := by
      intro n hn
      obtain ⟨item, hitem, heq, _⟩ | ⟨q, hq, hholds, hplace⟩ := h.placed _ hn
      · rw [List.mem_singleton.mp hitem] at heq
        obtain rfl : c = source := heq
        exact absurd hstep (not_holds_source hlive hreach)
      · obtain rfl := holder_unique hlive hreach (h.reaches hq) hstep hholds
        exact ⟨q.2, hq, hplace⟩
    obtain ⟨q, hq, hup, hname⟩ := hplace n hn
    obtain ⟨q', hq', hup', hname'⟩ := hplace m hm
    obtain rfl := ih hq hq'
    exact h.eq_of_place hwf' hn hm hup hup' (hname.trans hname'.symm)

/-- The original and the row that its copy reads as. -/
def related (pairs : List (RawNode × NodeRow)) (a b : RawNode) : Prop :=
  ∃ n, (a, n) ∈ pairs ∧ n.toRawNode = b

theorem bisimulation (h : Duplicates rt base ws [(source, up, name)] base w' pairs)
    (hwf : WellFormed base.db) (hissued : Issued rt base) (hup : ∃ p ∈ base.db.nodes, p.id = up) :
    Bisimulation (Holds base.db ws) (Holds w'.db ws) (related pairs) where
  forth := by
    rintro a _ c ⟨n, hn, rfl⟩ hholds
    obtain ⟨m, hm, hmup, _⟩ := h.held (a, n) hn c hholds
    exact ⟨m.toRawNode, ⟨m, hm, rfl⟩, (h.alike _ hn).kind.trans hholds.1,
      mem_fetch_children.mpr ⟨m, h.mem hm, rfl, (h.made _ hm).workspace, hmup,
        (h.made _ hm).active⟩⟩
  back := by
    rintro a _ d ⟨n, hn, rfl⟩ hholds
    obtain ⟨m, hm, rfl, _, hmup, _⟩ := mem_fetch_children.mp hholds.2
    obtain ⟨⟨c, m⟩, hc, rfl⟩ := h.of_parent hwf hissued hn hm hmup
    refine ⟨c, ⟨m, hc, rfl⟩, ?_⟩
    obtain ⟨item, hitem, _, hplace, _⟩ | ⟨q, hq, hq_holds, hplace, _⟩ := h.placed _ hc
    · rw [List.mem_singleton.mp hitem] at hplace
      obtain ⟨p, hp, hid⟩ := hup
      exact absurd (hid.trans (Option.some.inj (hplace.symm.trans hmup))) (h.fresh hissued hn hp)
    · obtain rfl := h.distinct q hq (a, n) hn (Option.some.inj (hplace.symm.trans hmup))
      exact hq_holds

theorem injective (h : Duplicates rt base ws [(source, up, name)] base w' pairs) {a a' b : RawNode}
    (hab : related pairs a b) (hab' : related pairs a' b) : a = a' := by
  obtain ⟨n, hn, rfl⟩ := hab
  obtain ⟨m, hm, heq⟩ := hab'
  exact congrArg Prod.fst (h.distinct _ hn _ hm (congrArg RawNode.id heq.symm))

theorem functional (h : Duplicates rt base ws [(source, up, name)] base w' pairs)
    (hlive : IsLive base.db ws source) (hwf' : NodesWellFormed w'.db) {a b b' : RawNode}
    (hab : related pairs a b) (hab' : related pairs a b') : b = b' := by
  obtain ⟨n, hn, rfl⟩ := hab
  obtain ⟨m, hm, rfl⟩ := hab'
  rw [h.unique hlive hwf' hn hm]

/-- The copies below the copy of the source are an image of what lies below the source. -/
theorem isomorphic (h : Duplicates rt base ws [(source, up, name)] base w' pairs)
    (hwf : WellFormed base.db) (hissued : Issued rt base) (hwf' : NodesWellFormed w'.db)
    (hlive : IsLive base.db ws source) (hup : ∃ p ∈ base.db.nodes, p.id = up) {n : NodeRow}
    (hn : (source, n) ∈ pairs) : ∃ φ, Isomorphic base.db w'.db ws source n.toRawNode φ := by
  have hbisim := h.bisimulation hwf hissued hup
  obtain ⟨φ, hbij, hφ⟩ := hbisim.exists_bijOn (h.functional hlive hwf') h.injective ⟨n, hn, rfl⟩
  refine ⟨φ, hbij, ?_, fun m c hm hc => hbisim.step_iff (h.functional hlive hwf') h.injective
    (hφ m hm) (hφ c hc),
    fun m c hm hholds => ?_, fun m hm => ?_⟩
  · exact h.functional hlive hwf' (hφ source .refl) ⟨n, hn, rfl⟩
  · obtain ⟨a, ha, _⟩ := hφ m hm
    obtain ⟨b, hb, _, hname⟩ := h.held (m, a) ha c hholds
    rw [h.functional hlive hwf' (hφ c (hm.tail hholds)) ⟨b, hb, rfl⟩]
    exact hname
  · obtain ⟨a, ha, heq⟩ := hφ m hm
    rw [← heq]
    exact h.alike _ ha

/-- What is new is a copy below that of the source. -/
theorem new (h : Duplicates rt base ws [(source, up, name)] base w' pairs)
    (hwf : WellFormed base.db) (hissued : Issued rt base) (hwf' : NodesWellFormed w'.db)
    (hlive : IsLive base.db ws source) (hup : ∃ p ∈ base.db.nodes, p.id = up) {n : NodeRow}
    (hn : (source, n) ∈ pairs) {m : NodeRow} (hm : m ∈ w'.db.nodes) :
    m ∈ base.db.nodes ∨ Reaches w'.db ws n.toRawNode m.toRawNode := by
  obtain hm | ⟨p, hp, rfl⟩ := (h.nodes m).mp hm
  · exact Or.inl hm
  · obtain ⟨d, hd, hreach⟩ :=
      (h.bisimulation hwf hissued hup).reach_forth ⟨n, hn, rfl⟩ (h.reaches hp)
    rw [h.functional hlive hwf' hd ⟨p.2, hp, rfl⟩] at hreach
    exact Or.inr hreach

/-- What reads as a node below the copy of the source is a copy. -/
theorem of_reaches (h : Duplicates rt base ws [(source, up, name)] base w' pairs)
    (hwf : WellFormed base.db) (hissued : Issued rt base) (hup : ∃ p ∈ base.db.nodes, p.id = up)
    {n : NodeRow} (hn : (source, n) ∈ pairs) {m : RawNode} (hm : Reaches w'.db ws n.toRawNode m) :
    ∃ p ∈ pairs, p.2.toRawNode = m := by
  obtain ⟨c, ⟨x, hx, rfl⟩, _⟩ := (h.bisimulation hwf hissued hup).reach_back ⟨n, hn, rfl⟩ hm
  exact ⟨(c, x), hx, rfl⟩

/-- A climb from a node that was stored before stays among such nodes. -/
theorem below_base (h : Duplicates rt base ws [(source, up, name)] base w' pairs)
    (hwf : WellFormed base.db) {a b : NodeId} (ha : ∃ m ∈ base.db.nodes, m.id = a)
    (hbelow : Below w'.db.parent a b) : Below base.db.parent a b := by
  induction hbelow using Below.head_induction with
  | top => exact Below.refl _ _
  | @step x y hxy _ ih =>
    obtain ⟨m, hm, rfl⟩ := ha
    rw [Db.parent_of_mem (h.kept_nodes hm)] at hxy
    obtain ⟨p, hp, hid, _⟩ := hwf.nodes.parent m hm y hxy
    exact Below.head (by rw [Db.parent_of_mem hm, hxy]) (ih ⟨p, hp, hid⟩)

/-- Nothing new lies below the source, if the copies went elsewhere. -/
theorem outside_source (h : Duplicates rt base ws [(source, up, name)] base w' pairs)
    (hwf : WellFormed base.db) (hissued : Issued rt base) (hup : ∃ p ∈ base.db.nodes, p.id = up)
    (hlive : IsLive base.db ws source) (hout : ¬ Below base.db.parent up source.id) {m : NodeRow}
    (hm : m ∈ w'.db.nodes) (hbelow : Below w'.db.parent m.id source.id) :
    m ∈ base.db.nodes := by
  refine ((h.nodes m).mp hm).resolve_right (fun ⟨p, hp, heq⟩ => ?_)
  have hnot : ∀ x, Below w'.db.parent x source.id → ∀ p ∈ pairs, p.2.id ≠ x := by
    intro x hx
    induction hx using Below.head_induction with
    | top =>
      intro p hp hid
      obtain ⟨s, rfl, hs⟩ := hlive
      exact h.fresh hissued hp hs.mem hid.symm
    | @step x y hxy hy ih =>
      rintro p hp rfl
      rw [Db.parent_of_mem (h.mem hp)] at hxy
      obtain ⟨item, hitem, _, hplace, _⟩ | ⟨q, hq, _, hplace, _⟩ := h.placed p hp
      · rw [List.mem_singleton.mp hitem] at hplace
        obtain rfl := Option.some.inj (hxy.symm.trans hplace)
        exact hout (h.below_base hwf hup hy)
      · exact ih q hq (Option.some.inj (hplace.symm.trans hxy))
  exact hnot m.id hbelow p hp (by rw [heq])

end mutate.Duplicates

/-- A node with an identifier, a revision and a content of its own. -/
structure Fresh (db db' : Db) (n : RawNode) : Prop where
  id : db.node? n.id = none
  revision : n.revision = 1
  generation : ∀ g, n.content_generation_id = some g →
    db.generation? g = none ∧ ∀ m ∈ db'.nodes, m.content_generation_id = some g → m.toRawNode = n

/-- What a copy does: the destination holds the new node, the untrashed subtrees of
the source and of the new node are isomorphic, all new nodes are in the latter, and
what was stored outside the overwritten subtree, as the source with all that lies below
it was, is as before. The destination path leads to the new node, as long as its parent
leads to the destination directory without the overwritten subtree. -/
structure Duplicated (db db' : Db) (ws : WorkspaceId) (target : VirtualPath)
    (source parent : RawNode) (name : Text) (existing : Option RawNode) (n : RawNode) : Prop where
  held : fetch_child db' ws parent.id name = some n
  found : (∃ parent_path, target.parent = some parent_path ∧
    resolve_following (db.overwritten existing) ws parent_path true = .Found parent) →
      resolve_following db' ws target false = .Found n
  isomorphic : ∃ φ, Isomorphic db db' ws source n φ
  fresh : ∀ m, Reaches db' ws n m → Fresh db db' m
  new : ∀ m ∈ db'.nodes, m ∈ db.nodes ∨ Reaches db' ws n m.toRawNode
  rest : ∀ m ∈ db.nodes, db.Spared existing m.id → m ∈ db'.nodes ∧
    (∀ key, db'.attributes.find? (m.id, key) = db.attributes.find? (m.id, key)) ∧
    ∀ g, m.content_generation_id = some g → SameContent db db' g
  spared : ∀ m ∈ db.nodes, Below db.parent m.id source.id → db.Spared existing m.id
  source : ∀ m ∈ db'.nodes, Below db'.parent m.id source.id → m ∈ db.nodes

section copy

variable {rt : Runtime} {ws : WorkspaceId} {w w' : World} {source_path target : VirtualPath}
  {options : CopyOptions} {actor_json : Text} {source parent n : RawNode} {name : Text}
  {existing : Option RawNode}

/-- The pairs that a successful copy makes, seen from the store that it ends with. -/
theorem mutate.copied_pairs (hwf : WellFormed w.db) (hissued : Issued rt w)
    (h : copy_tx rt ws source_path target options actor_json w = .ok (.Created n, w')) :
    ∃ source parent name existing pairs,
      Copies w.db ws source_path target options source parent name existing ∧
      Starts rt w.db ws w.tick source parent name existing ∧
      ¬ Below w.db.parent parent.id source.id ∧
      Duplicates rt ⟨w.db.overwritten existing, w.tick + 1⟩ ws [(source, parent.id, name)]
        ⟨w.db.overwritten existing, w.tick + 1⟩ w' pairs ∧
      ∃ row, (source, row) ∈ pairs ∧ row.toRawNode = n ∧ row.parent_id = some parent.id ∧
      row.name = name := by
  obtain ⟨_, hnot⟩ | ⟨source, parent, name, existing, raw, w₁, houtcome, hcopies, hcopy, htick,
    happ⟩ := copy_tx_ok h
  · exact absurd rfl (hnot n)
  · cases houtcome
    obtain ⟨full, hfull, hloop⟩ : ∃ full,
      fetch_by_id (w.db.overwritten existing) ws source.id = some full ∧
        copy_loop rt ws (rt.nowMs w.tick)
          (w.db.overwritten existing).nodes.rows.length [(full, parent.id, name)] none
          ⟨w.db.overwritten existing, w.tick + 1⟩ = .ok (n, w₁) := by
      rw [copy_subtree] at hcopy
      obtain ⟨full, w₂, hfull, hloop⟩ := Tx.bind_eq_ok.mp hcopy
      obtain ⟨rfl, hfetched⟩ := fetch_full_ok hfull
      exact ⟨full, hfetched, hloop⟩
    obtain ⟨rfl, hstarts⟩ := hcopies.starts hwf hissued hfull
    have hout : ¬ Below w.db.parent parent.id full.id := by
      intro hbelow
      rw [(hcopies.loop hwf hissued hfull _).2 hbelow] at hloop
      cases hloop
    have hstored : ∃ s ∈ (w.db.overwritten existing).nodes, s.id = full.id := by
      obtain ⟨s, rfl, hs⟩ := hstarts.live
      exact ⟨s, hs.mem, rfl⟩
    have htracks : Tracks rt ⟨w.db.overwritten existing, w.tick + 1⟩ ws [(full, parent.id, name)]
        ⟨w.db.overwritten existing, w.tick + 1⟩ := by
      refine ⟨hstarts.wf, hstarts.issued, hstarts.placeable,
        .single hstored (copy_loop_outside hloop _ List.mem_cons_self),
        fun item hitem => ?_, Kept.refl _ _⟩
      rw [List.mem_singleton.mp hitem]
      exact hstarts.live.stored
    obtain ⟨pairs, hpairs⟩ := copy_loop_duplicates hstarts.wf hstarts.issued htracks hloop
    refine ⟨full, parent, name, existing, pairs, hcopies, hstarts, hout,
      hpairs.recorded htick happ.appended, ?_⟩
    obtain ⟨_, generation, w₂, _, rfl, hins, _, _, hgrown⟩ := copy_subtree_ok hcopy
    have hrow := hgrown.kept _ ((Table.mem_insert hins).mpr (Or.inr rfl))
    obtain hold | ⟨p, hp, heq⟩ := (hpairs.nodes _).mp hrow
    · exact absurd rfl (hstarts.issued.node_fresh hold)
    · obtain ⟨q, row⟩ := p
      obtain rfl : row = _ := heq
      obtain ⟨item, hitem, hsource, _⟩ | ⟨q', hq', _, hplace, _⟩ := hpairs.placed _ hp
      · rw [List.mem_singleton.mp hitem] at hsource
        obtain rfl : q = full := hsource
        exact ⟨_, hp, rfl, rfl, rfl⟩
      · obtain ⟨x, rfl, _, hx⟩ := hcopies.dest.parent_live
        exact absurd (Option.some.inj hplace) (hpairs.fresh hstarts.issued hq' hx.mem)

/-- What is held below the source is held after the overwriting too. -/
theorem mutate.holds_overwritten {m c : RawNode} (hsource : IsLive w.db ws source)
    (hspared : ∀ id, Below w.db.parent id source.id → w.db.Spared existing id)
    (hm : Reaches w.db ws source m) :
    Holds (w.db.overwritten existing) ws m c ↔ Holds w.db ws m c := by
  refine and_congr_right (fun hdir =>
    ⟨fun hc => fetch_children_mono (fun x hx => overwritten_mem hx) hc, fun hc => ?_⟩)
  have hbelow := (Reaches.live (hm.tail ⟨hdir, hc⟩) hsource).2
  obtain ⟨x, hx, rfl, hplace⟩ := mem_fetch_children.mp hc
  exact mem_fetch_children.mpr ⟨x, Db.mem_overwritten.mpr ⟨hx, hspared x.id hbelow⟩, rfl, hplace⟩

theorem mutate.reaches_overwritten {m : RawNode} (hsource : IsLive w.db ws source)
    (hspared : ∀ id, Below w.db.parent id source.id → w.db.Spared existing id) :
    Reaches (w.db.overwritten existing) ws source m ↔ Reaches w.db ws source m := by
  refine ⟨Reaches.mono (fun x hx => overwritten_mem hx), fun h => ?_⟩
  induction h with
  | refl => exact .refl
  | tail hreach hstep ih => exact ih.tail ((holds_overwritten hsource hspared hreach).mpr hstep)

theorem Alike.of_overwritten (hwf : WellFormed w.db) {m : NodeRow} (hm : m ∈ w.db.nodes)
    (hspared : w.db.Spared existing m.id) {x : RawNode}
    (h : Alike (w.db.overwritten existing) w'.db m.toRawNode x) :
    Alike w.db w'.db m.toRawNode x := by
  refine ⟨h.kind, h.size, h.link, fun key => ?_, h.empty, fun g hg => ?_⟩
  · rw [h.attributes key, Db.overwritten_attributes hspared]
  · obtain ⟨g', hg', hbytes⟩ := h.bytes g hg
    refine ⟨g', hg', fun i => ?_⟩
    rw [hbytes, (Db.overwritten_content hwf hm hspared hg).chunk]

/-- A copy that creates a node is an isomorphism onto what it creates. -/
theorem Ongoing.copy_duplicates (h : Ongoing rt w)
    (hrun : copy_tx rt ws source_path target options actor_json w = .ok (.Created n, w')) :
    ∃ source parent name existing,
      Copies w.db ws source_path target options source parent name existing ∧
      Duplicated w.db w'.db ws target source parent name existing n := by
  have hwf := h.sound.wf
  have hissued := h.sound.issued
  have hwf' : WellFormed w'.db :=
    (copy_tx_effect (P := Policy.any) (o := none) hwf (h.sound.laid not_false)
      (Policy.permits_any _ _ _) hrun).wellFormed hwf
  obtain ⟨source, parent, name, existing, pairs, hcopies, hstarts, hout, hpairs, row, hrow, rfl,
    hup, rfl⟩ :=
    copied_pairs hwf hissued hrun
  have hstored : ∃ p ∈ (w.db.overwritten existing).nodes, p.id = parent.id := by
    obtain ⟨p, rfl, _, hp⟩ := hcopies.dest.parent_live
    exact ⟨p, hp.mem, rfl⟩
  have hlive : IsLive w.db ws source := resolve_following_live hcopies.found
  have hsource : w.db.Spared existing source.id := by
    obtain ⟨s, rfl, hs⟩ := hstarts.live
    exact (Db.mem_overwritten.mp hs.mem).2
  have hspared : ∀ id, Below w.db.parent id source.id → w.db.Spared existing id :=
    fun id hbelow => hsource.beneath hcopies.dest hout hbelow
  have houtside : ¬ Below (w.db.overwritten existing).parent parent.id source.id :=
    fun hin => hout (hin.mono (fun _ _ => Db.parent_of_overwritten))
  have hdrawn : ∀ {id}, Drawn rt (w.tick + 1) w'.tick id → ¬ Drawn rt 0 w.tick id := fun hid hold =>
    hold.disjoint (hid.mono (Nat.le_succ _) (le_refl _))
  refine ⟨source, parent, row.name, existing, hcopies, ?_, fun hreached => ?_, ?_, fun m hm => ?_,
    fun m hm => ?_, fun m hm hkept => ?_,
    fun m _ => hspared m.id, fun m hm hbelow => ?_⟩
  · exact fetch_child_of_mem hwf'.nodes (hpairs.mem hrow) (hpairs.made _ hrow).workspace hup
      (hpairs.made _ hrow).active
  · obtain ⟨parent_path, hparent_path, hparent⟩ := hreached
    obtain ⟨path, hpath, hsegments⟩ := VirtualPath.parent_of_name hcopies.dest.named
    obtain rfl := Option.some.inj (hparent_path.symm.trans hpath)
    exact resolve_following_child hwf'.nodes hsegments
      ((extends_of_subset hwf'.nodes
        (fun x hx => hpairs.kept_nodes hx)).resolve_following hparent) hcopies.dest.dir
      (hpairs.mem hrow) (hpairs.made _ hrow).workspace hup (hpairs.made _ hrow).active
  · obtain ⟨φ, hbij, htop, hholds, hnames, halike⟩ :=
      hpairs.isomorphic hstarts.wf hstarts.issued hwf'.nodes hstarts.live hstored hrow
    have hreach : ∀ {m}, Reaches (w.db.overwritten existing) ws source m ↔
      Reaches w.db ws source m := reaches_overwritten hlive hspared
    refine ⟨φ, ?_, htop, fun m c hm hc => ?_, fun m c hm hc => ?_, fun m hm => ?_⟩
    · simp only [hreach] at hbij
      exact hbij
    · exact (hholds m c (hreach.mpr hm) (hreach.mpr hc)).trans (holds_overwritten hlive hspared hm)
    · exact hnames m c (hreach.mpr hm) ((holds_overwritten hlive hspared hm).mpr hc)
    · obtain ⟨⟨x, rfl, hx⟩, hbelow⟩ := hm.live hlive
      exact (halike _ (hreach.mpr hm)).of_overwritten hwf hx.mem (hspared _ hbelow)
  · obtain ⟨p, hp, rfl⟩ := hpairs.of_reaches hstarts.wf hstarts.issued hstored hrow hm
    have hmade := hpairs.made p hp
    refine ⟨?_, hmade.revision, fun g hg => ⟨?_, fun x hx hxg => ?_⟩⟩
    · exact Table.find?_eq_none.mpr (fun x hx hid => hdrawn hmade.id (hid ▸ hissued.node x hx))
    · cases hstored_row : w.db.generation? g with
      | none => rfl
      | some old => exact absurd (hissued.generation g old hstored_row) (hdrawn (hmade.generation g hg))
    · rw [hwf'.contents.unshared x hx p.2 (hpairs.mem hp) g hxg hg]
  · exact (hpairs.new hstarts.wf hstarts.issued hwf'.nodes hstarts.live hstored hrow hm).imp_left
      overwritten_mem
  · refine ⟨hpairs.kept_nodes (Db.mem_overwritten.mpr ⟨hm, hkept⟩), fun key => ?_, fun g hg => ?_⟩
    · exact (hpairs.kept.attributes m.id key (fun hd => hdrawn hd (hissued.node m hm))).trans
        (Db.overwritten_attributes hkept)
    · obtain ⟨_, old, hold, _⟩ := hwf.contents.generation m hm g hg
      exact (Db.overwritten_content hwf hm hkept hg).trans
        (hpairs.kept.content g (fun hd => hdrawn hd (hissued.generation g old hold)))
  · exact overwritten_mem
      (hpairs.outside_source hstarts.wf hstarts.issued hstored hstarts.live houtside hm hbelow)

end copy

/-- The row that a successful copy returns, with the store it leaves. -/
def copied_row : Except Fault (CopyOutcome × World) → Option (RawNode × World)
  | .ok (.Created row, w') => some (row, w')
  | _ => none

theorem copied_row_eq_some {result : Except Fault (CopyOutcome × World)} {row : RawNode}
    {w' : World} (h : copied_row result = some (row, w')) : result = .ok (.Created row, w') := by
  unfold copied_row at h
  split at h
  · cases h
    rfl
  · cases h

/-- The directory `/a` with a file that has content and an attribute. -/
def filledRequests : List (RequestContext × Request) :=
  [(.trusted 0, .CreateWorkspace {}),
    (.trusted 0, .Perform (.Mkdir (.named [['a']]) {})),
    (.trusted 0, .Write (.named [['a'], ['f']]) [.ok [1, 2]] {}),
    (.trusted 0, .Perform (.SetAttribute (.named [['a'], ['f']]) ['k'] [3] {}))]

def filledWorld : World := serveAll Runtime.counting filledRequests ⟨Db.empty, 0⟩

theorem filledWorld_reachable : Reachable Runtime.counting filledWorld :=
  (Reachable.empty _).serveAll _

/-- The directory and its file, copied to `/c`. -/
theorem nested_copy_duplicates :
    ∃ n w', copy_tx Runtime.counting 0 (.ofSegments [['a']] (by decide))
      (.ofSegments [['c']] (by decide)) { recursive := true } [] filledWorld = .ok
      (.Created n, w') ∧
    (∃ m ∈ w'.db.nodes, m.parent_id = some n.id ∧ m.kind = .File ∧
      ∃ g, m.content_generation_id = some g ∧
        (w'.db.content_chunks.find? (g, 0)).map ChunkRow.bytes = some [1, 2]) ∧
    ∃ source parent name existing, Copies filledWorld.db 0 (.ofSegments [['a']] (by decide))
      (.ofSegments [['c']] (by decide)) { recursive := true } source parent name existing ∧
      Duplicated filledWorld.db w'.db 0
        (.ofSegments [['c']] (by decide)) source parent name existing n := by
  have hcopied : ((copied_row (copy_tx Runtime.counting 0 (.ofSegments [['a']] (by decide))
      (.ofSegments [['c']] (by decide)) { recursive := true } [] filledWorld)).any fun r =>
        r.2.db.nodes.rows.any fun m => decide (m.parent_id = some r.1.id ∧ m.kind = .File) &&
          m.content_generation_id.any fun g =>
            (r.2.db.content_chunks.find? (g, 0)).map ChunkRow.bytes = some [1, 2]) = true := by
    decide +kernel
  obtain ⟨⟨n, w'⟩, hn, hfile⟩ := (Option.any_eq_true _ _).mp hcopied
  obtain ⟨m, hm, hfile⟩ := List.any_eq_true.mp hfile
  obtain ⟨hplace, hcontent⟩ := Bool.and_eq_true_iff.mp hfile
  obtain ⟨hup, hkind⟩ := of_decide_eq_true hplace
  obtain ⟨g, hg, hbytes⟩ := (Option.any_eq_true _ _).mp hcontent
  have h := copied_row_eq_some hn
  exact ⟨n, w', h, ⟨m, hm, hup, hkind, g, hg, of_decide_eq_true hbytes⟩,
    Ongoing.copy_duplicates (.start filledWorld_reachable) h⟩

/-- The directory `/x` with a link `/x/l` to the root, and the file `/f`. -/
def linkedRequests : List (RequestContext × Request) :=
  [(.trusted 0, .CreateWorkspace {}),
    (.trusted 0, .Perform (.Mkdir (.named [['x']]) {})),
    (.trusted 0, .Perform (.Symlink ⟨['/'], ['/'], by decide, by decide, by decide⟩
      (.named [['x'], ['l']]) {})),
    (.trusted 0, .Perform (.Touch (.named [['f']]) {}))]

def linkedWorld : World := serveAll Runtime.counting linkedRequests ⟨Db.empty, 0⟩

/-- A copy of `/f` to `/x/l/x` overwrites `/x`, and with it the link on its own way. -/
theorem overwriting_copy_unreached :
    Reachable Runtime.counting linkedWorld ∧ TreeShaped linkedWorld.db 0 ∧
    ∃ n w', copy_tx Runtime.counting 0 (.ofSegments [['f']] (by decide))
      (.ofSegments [['x'], ['l'], ['x']] (by decide))
        { overwrite := true } [] linkedWorld = .ok (.Created n, w') ∧
      (∃ source parent name existing, Copies linkedWorld.db 0 (.ofSegments [['f']] (by decide))
        (.ofSegments [['x'], ['l'], ['x']] (by decide))
          { overwrite := true } source parent name existing ∧
          ¬ Below linkedWorld.db.parent parent.id source.id ∧
            linkedWorld.db.Spared existing source.id) ∧
      resolve_following w'.db 0 (.ofSegments [['x'], ['l'], ['x']] (by decide)) false =
        .NotFound := by
  have hreach : Reachable Runtime.counting linkedWorld := (Reachable.empty _).serveAll _
  refine ⟨hreach, hreach.treeShaped_of_climbs (by decide +kernel) (by decide +kernel), ?_⟩
  have houtcome : (copied_row (copy_tx Runtime.counting 0 (.ofSegments [['f']] (by decide))
      (.ofSegments [['x'], ['l'], ['x']] (by decide)) { overwrite := true } [] linkedWorld)).map
        (fun p =>
        resolve_following p.2.db 0 (.ofSegments [['x'], ['l'], ['x']] (by decide)) false) =
          some .NotFound := by decide +kernel
  obtain ⟨⟨n, w'⟩, hn, hfound⟩ := Option.map_eq_some_iff.mp houtcome
  have h := copied_row_eq_some hn
  obtain ⟨source, parent, name, existing, _, hcopies, hstarts, hout, _⟩ :=
    copied_pairs hreach.sound.wf hreach.sound.issued h
  obtain ⟨s, rfl, hs⟩ := hstarts.live
  exact ⟨n, w', h, ⟨s.toRawNode, parent, name, existing, hcopies, hout,
    (Db.mem_overwritten.mp hs.mem).2⟩, hfound⟩

end fslite
