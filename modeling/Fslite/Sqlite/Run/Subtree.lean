import Fslite.Sqlite.Effect.Operation
import Fslite.Sqlite.Listing
import Fslite.Sqlite.Lookup

namespace fslite

/-- The node is reached from another one through untrashed nodes with the given
names, its own being the last. -/
inductive Beneath (db : Db) (root : NodeId) : List Text → NodeRow → Prop where
  | child {n : NodeRow} (hn : n ∈ db.nodes) (hup : n.parent_id = some root)
    (hactive : n.trashed_at_ms = none) :
      Beneath db root [n.name] n
  | step {names : List Text} {p n : NodeRow} (h : Beneath db root names p) (hn : n ∈ db.nodes)
      (hup : n.parent_id = some p.id) (hactive : n.trashed_at_ms = none) :
        Beneath db root (names ++ [n.name]) n

namespace Beneath

variable {db : Db} {ws : WorkspaceId} {r n : NodeRow} {root : NodeId} {names : List Text}

theorem mem (h : Beneath db root names n) : n ∈ db.nodes := by
  cases h <;> assumption

theorem active (h : Beneath db root names n) : n.trashed_at_ms = none := by
  cases h <;> assumption

theorem names_ne_nil (h : Beneath db root names n) : names ≠ [] := by
  cases h <;> simp

theorem length_pos (h : Beneath db root names n) : 0 < names.length :=
  List.length_pos_iff.mpr h.names_ne_nil

theorem segments (h : Beneath db root names n) (hwf : NodesWellFormed db) :
    ∀ name ∈ names, Segment name := by
  induction h with
  | @child n hn hup hactive =>
    intro name hname
    rw [List.mem_singleton.mp hname]
    exact hwf.segment n hn (by simp [hup])
  | @step names p n h hn hup hactive ih =>
    intro name hname
    obtain hname | hname := List.mem_append.mp hname
    · exact ih name hname
    · rw [List.mem_singleton.mp hname]
      exact hwf.segment n hn (by simp [hup])

/-- What is below a live node is live. -/
theorem live (h : Beneath db r.id names n) (hwf : NodesWellFormed db) (hr : Live db ws r) :
    Live db ws n := by
  have hchild : ∀ p m : NodeRow, Live db ws p → m ∈ db.nodes → m.parent_id = some p.id →
    m.trashed_at_ms = none →
      Live db ws m := by
    intro p m hp hm hup hactive
    obtain ⟨q, hq, hid, hws, hdir⟩ := hwf.parent m hm p.id hup
    obtain rfl := db.node_ext hq hp.mem hid
    exact .child hp hdir hm (hws.symm.trans hp.workspace) hup hactive
  induction h with
  | child hn hup hactive => exact hchild r _ hr hn hup hactive
  | step _ hn hup hactive ih => exact hchild _ _ ih hn hup hactive

theorem climb (h : Beneath db root names n) :
    ∃ up, n.parent_id = some up ∧ Below db.parent up root := by
  induction h with
  | child hn hup hactive => exact ⟨root, hup, .refl _ _⟩
  | @step names p n h hn hup hactive ih =>
    obtain ⟨up, hp, hbelow⟩ := ih
    exact ⟨p.id, hup, .head ((Db.parent_of_mem h.mem).trans hp) hbelow⟩

/-- A live node is not below itself. -/
theorem ne_root (h : Beneath db r.id names n) (hr : Live db ws r) : n.id ≠ r.id := by
  intro hid
  obtain ⟨up, hup, hbelow⟩ := h.climb
  obtain rfl := db.node_ext h.mem hr.mem hid
  exact hr.acyclic hup hbelow

/-- The nodes on the way differ from each other. -/
theorem chain (h : Beneath db r.id names n) (hwf : NodesWellFormed db) (hr : Live db ws r) :
    ∃ ids : List NodeId, ids.length = names.length ∧ ids.Nodup ∧
      ∀ id ∈ ids, id ∈ db.nodes.rows.map NodeRow.key ∧ Below db.parent n.id id := by
  induction h with
  | @child n hn hup hactive =>
    refine ⟨[n.id], rfl, List.nodup_singleton _, fun id hid => ?_⟩
    rw [List.mem_singleton.mp hid]
    exact ⟨List.mem_map_of_mem hn, .refl _ _⟩
  | @step names p n h hn hup hactive ih =>
    obtain ⟨ids, hlength, hnodup, hids⟩ := ih
    have hlive : Live db ws n := (Beneath.step h hn hup hactive).live hwf hr
    refine ⟨ids ++ [n.id], by simp [hlength], ?_, ?_⟩
    · refine List.Nodup.append hnodup (List.nodup_singleton _) (fun id hid hn' => ?_)
      rw [List.mem_singleton.mp hn'] at hid
      exact hlive.acyclic hup (hids _ hid).2
    · intro id hid
      obtain hid | hid := List.mem_append.mp hid
      · exact ⟨(hids id hid).1, .head ((Db.parent_of_mem hn).trans hup) (hids id hid).2⟩
      · rw [List.mem_singleton.mp hid]
        exact ⟨List.mem_map_of_mem hn, .refl _ _⟩

/-- A way down is no longer than there are nodes. -/
theorem length_le (h : Beneath db r.id names n) (hwf : NodesWellFormed db) (hr : Live db ws r) :
    names.length ≤ db.nodes.rows.length := by
  obtain ⟨ids, hlength, hnodup, hids⟩ := h.chain hwf hr
  have hsub : ids ⊆ db.nodes.rows.map NodeRow.key := fun id hid => (hids id hid).1
  have hle := (List.subperm_of_subset hnodup hsub).length_le
  rw [List.length_map] at hle
  omega

/-- A node is reached in one way only. -/
theorem unique (h : Beneath db r.id names n) (hr : Live db ws r) {names' : List Text}
    (h' : Beneath db r.id names' n) :
    names = names' := by
  induction h generalizing names' with
  | @child n hn hup hactive =>
    cases h' with
    | child => rfl
    | @step names p _ hp _ hup' _ =>
      rw [hup, Option.some.injEq] at hup'
      exact absurd hup'.symm (hp.ne_root hr)
  | @step names p n h hn hup hactive ih =>
    cases h' with
    | child _ hup' _ =>
      rw [hup, Option.some.injEq] at hup'
      exact absurd hup' (h.ne_root hr)
    | @step names' q _ hq _ hup' _ =>
      rw [hup, Option.some.injEq] at hup'
      obtain rfl := db.node_ext h.mem hq.mem hup'
      rw [ih hq]

end Beneath

namespace resolve

variable {db : Db} {ws : WorkspaceId} {r : NodeRow} {path path' : VirtualPath} {names : List Text}
  {raw : RawNode}

theorem walk_split (current : RawNode) (front rest : List Text) :
    walk db ws current (front ++ rest) = (walk db ws current front).bind
      (fun mid => walk db ws mid rest) := by
  induction front generalizing current with
  | nil => rfl
  | cons segment front ih =>
    rw [List.cons_append, walk, walk]
    split
    · rfl
    · split
      · exact ih _
      · rfl

theorem walk_single {current : RawNode} {name : Text} : walk db ws current [name] = some raw ↔
    current.kind = .Directory ∧ fetch_child db ws current.id name = some raw := by
  unfold walk
  by_cases hkind : current.kind = .Directory
  · cases hchild : fetch_child db ws current.id name <;> simp [hkind, walk]
  · simp [hkind]

/-- From a live node names lead to the nodes beneath it. -/
theorem walk_iff_beneath (hwf : NodesWellFormed db) (hr : Live db ws r) (hne : names ≠ []) :
    walk db ws r.toRawNode names = some raw ↔ ∃ n, n.toRawNode = raw ∧ Beneath db r.id names n := by
  constructor
  · intro h
    induction names using List.reverseRecOn generalizing raw with
    | nil => exact absurd rfl hne
    | append_singleton names name ih =>
      rw [walk_split] at h
      obtain ⟨parent, hparent, hlast⟩ := Option.bind_eq_some_iff.mp h
      obtain ⟨_, hchild⟩ := walk_single.mp hlast
      obtain ⟨n, hn, hraw, _, hup, rfl, hactive⟩ := fetch_child_eq_some hchild
      refine ⟨n, hraw, ?_⟩
      cases names with
      | nil =>
        cases hparent
        exact .child hn hup hactive
      | cons first rest =>
        obtain ⟨p, rfl, hp⟩ := ih (List.cons_ne_nil first rest) hparent
        exact .step hp hn hup hactive
  · rintro ⟨n, rfl, h⟩
    clear hne
    have hlast : ∀ p m : NodeRow, Live db ws p → m ∈ db.nodes → m.parent_id = some p.id →
      m.trashed_at_ms = none →
        walk db ws p.toRawNode [m.name] = some m.toRawNode := by
      intro p m hp hm hup hactive
      obtain ⟨q, hq, hid, hws, hdir⟩ := hwf.parent m hm p.id hup
      obtain rfl := db.node_ext hq hp.mem hid
      exact walk_single.mpr ⟨hdir, fetch_child_of_mem hwf hm
        (hws.symm.trans hp.workspace) hup hactive⟩
    induction h with
    | child hn hup hactive => exact hlast r _ hr hn hup hactive
    | step hp hn hup hactive ih =>
      rw [walk_split, ih, Option.bind_some]
      exact hlast _ _ (hp.live hwf hr) hn hup hactive

/-- Where a path leads to a node, longer paths lead to the nodes beneath it. -/
theorem resolve_iff_beneath (hwf : NodesWellFormed db)
    (hpath : resolve db ws path = some r.toRawNode) (hr : Live db ws r) (hne : names ≠ [])
    (hsegments : path'.segments = path.segments ++ names) :
    resolve db ws path' = some raw ↔ ∃ n, n.toRawNode = raw ∧ Beneath db r.id names n := by
  unfold resolve at hpath ⊢
  cases hroot : fetch_root db ws with
  | none =>
    rw [hroot] at hpath
    cases hpath
  | some root =>
    rw [hroot] at hpath
    simp only at hpath ⊢
    rw [hsegments, walk_split, hpath, Option.bind_some]
    exact walk_iff_beneath hwf hr hne

end resolve

/-- The row that a recursive query gives for a node. -/
def Descendant.of (names : List Text) (n : NodeRow) : Descendant :=
  ⟨n.toRawNode, names.length, ['/'].intercalate names⟩

theorem intercalate_concat {names : List Text} (hne : names ≠ []) (name : Text) :
    ['/'].intercalate (names ++ [name]) = ['/'].intercalate names ++ '/' :: name := by
  have h := render_append names [name]
  rw [render_eq_intercalate hne, render_eq_intercalate (by simp), render_cons] at h
  simpa [render] using h

section descendants

variable {db : Db} {ws : WorkspaceId} {r : NodeRow} {max_depth : Option Nat} {row row' : Descendant}
  {rows : List Descendant}

theorem mem_first_descendants {root : NodeId} :
    row ∈ first_descendants db ws root ↔ ∃ n ∈ db.nodes, n.workspace_id = ws ∧
    n.parent_id = some root ∧ n.trashed_at_ms = none ∧ ⟨n.toRawNode, 1, n.name⟩ = row := by
  simp only [first_descendants, List.mem_map, List.mem_filter, decide_eq_true_eq, and_assoc,
    Table.mem_def]

theorem mem_next_descendants :
    row' ∈ next_descendants db max_depth row ↔
    (∀ depth, max_depth = some depth → row.depth < depth) ∧
    ∃ n ∈ db.nodes, n.parent_id = some row.node.id ∧ n.trashed_at_ms = none ∧
      ⟨n.toRawNode, row.depth + 1, row.relative_path ++ '/' :: n.name⟩ = row' := by
  unfold next_descendants
  split
  · rename_i hdeep
    obtain ⟨depth, hmax, hle⟩ := hdeep
    simp only [List.not_mem_nil, false_iff, not_and]
    intro hdepth
    exact absurd (hdepth depth hmax) (by omega)
  · rename_i hdeep
    simp only [List.mem_map, List.mem_filter, decide_eq_true_eq, and_assoc, Table.mem_def]
    refine (and_iff_right (fun depth hmax => ?_)).symm
    by_contra hle
    exact hdeep ⟨depth, hmax, by omega⟩

/-- Rows that the query reaches in so many rounds are nodes that are so deep beneath
the root. -/
theorem beneath_of_first (hrow : row ∈ first_descendants db ws r.id) :
    ∃ names n, Beneath db r.id names n ∧ row = Descendant.of names n ∧ names.length = 1 := by
  obtain ⟨n, hn, _, hup, hactive, rfl⟩ := mem_first_descendants.mp hrow
  exact ⟨[n.name], n, .child hn hup hactive, by simp [Descendant.of, List.intercalate], rfl⟩

theorem beneath_of_next {names : List Text} {n : NodeRow} (h : Beneath db r.id names n)
    (hrow : row ∈ next_descendants db max_depth (Descendant.of names n)) :
    (∀ depth, max_depth = some depth → names.length < depth) ∧
      ∃ m, Beneath db r.id (names ++ [m.name]) m ∧ row = Descendant.of (names ++ [m.name]) m := by
  obtain ⟨hdepth, m, hm, hup, hactive, rfl⟩ := mem_next_descendants.mp hrow
  refine ⟨hdepth, m, .step h hm hup hactive, ?_⟩
  simp [Descendant.of, intercalate_concat h.names_ne_nil]

theorem beneath_of_reachesIn {rounds : Nat}
    (h : Levels.ReachesIn (next_descendants db max_depth) rounds row row') {names : List Text}
    {n : NodeRow} (hn : Beneath db r.id names n) (hrow : row = Descendant.of names n) :
    ∃ names' n', Beneath db r.id names' n' ∧ row' = Descendant.of names' n' ∧
    names'.length = names.length + rounds ∧
      (∀ depth, max_depth = some depth → 0 < rounds → names'.length ≤ depth) := by
  induction h generalizing names n with
  | zero a => exact ⟨names, n, hn, hrow, rfl, fun _ _ hpos => absurd hpos (lt_irrefl 0)⟩
  | @succ rounds a b c hstep _ ih =>
    rw [hrow] at hstep
    obtain ⟨hdepth, m, hm, hb⟩ := beneath_of_next hn hstep
    obtain ⟨names', n', hn', hc, hlength, hbound⟩ := ih hm hb
    refine ⟨names', n', hn', hc, by simp at hlength; omega, fun depth hmax _ => ?_⟩
    have hlt := hdepth depth hmax
    by_cases hpos : 0 < rounds
    · exact hbound depth hmax hpos
    · simp at hlength
      omega

/-- Whether the query goes as deep as the names. -/
def Within (max_depth : Option Nat) (names : List Text) : Prop :=
  ∀ depth, max_depth = some depth → names.length ≤ max depth 1

theorem mem_descendants (hwf : NodesWellFormed db) (hr : Live db ws r)
    (h : descendants db ws r.id max_depth = .ok rows) : row ∈ rows ↔
      ∃ names n, Beneath db r.id names n ∧ Within max_depth names ∧
      row = Descendant.of names n := by
  unfold descendants at h
  split at h
  · rename_i rows' hcollect
    cases h
    rw [Levels.mem_collect hcollect]
    constructor
    · rintro ⟨first, hfirst, hreach⟩
      obtain ⟨names, n, hn, hof, hone⟩ := beneath_of_first hfirst
      obtain ⟨rounds, hreach⟩ := Levels.reaches_iff.mp hreach
      obtain ⟨names', n', hn', hof', hlength, hbound⟩ := beneath_of_reachesIn hreach hn hof
      refine ⟨names', n', hn', fun depth hmax => ?_, hof'⟩
      by_cases hpos : 0 < rounds
      · exact (hbound depth hmax hpos).trans (le_max_left depth 1)
      · have := le_max_right depth 1
        omega
    · rintro ⟨names, n, hn, hwithin, rfl⟩
      induction hn with
      | @child n hn hup hactive =>
        obtain ⟨p, hp, hid, hws, _⟩ := hwf.parent n hn r.id hup
        obtain rfl := db.node_ext hp hr.mem hid
        refine ⟨_, mem_first_descendants.mpr
          ⟨n, hn, hws.symm.trans hr.workspace, hup, hactive, rfl⟩, ?_⟩
        simpa [Descendant.of, List.intercalate] using Levels.Reaches.refl _
      | @step names p n hp hn hup hactive ih =>
        have hshort : ∀ depth, max_depth = some depth → names.length < depth := by
          intro depth hmax
          have hle := hwithin depth hmax
          have hpos := hp.length_pos
          rw [List.length_append, List.length_singleton] at hle
          omega
        obtain ⟨first, hfirst, hreach⟩ :=
          ih (fun depth hmax => (hshort depth hmax).le.trans (le_max_left depth 1))
        refine ⟨first, hfirst, Relation.ReflTransGen.tail hreach
          (mem_next_descendants.mpr ⟨hshort, n, hn, hup, hactive, ?_⟩)⟩
        simp [Descendant.of, intercalate_concat hp.names_ne_nil]
  · cases h

/-- Below a live node the query ends. -/
theorem descendants_ok (hwf : NodesWellFormed db) (hr : Live db ws r) (max_depth : Option Nat) :
    ∃ rows, descendants db ws r.id max_depth = .ok rows := by
  unfold descendants
  cases hcollect : Levels.collect (next_descendants db max_depth) (max_depth.getD db.nodes.rows.length + 1)
      (first_descendants db ws r.id) with
  | some rows => exact ⟨rows, rfl⟩
  | none =>
    obtain ⟨first, hfirst, last, hreach⟩ := Levels.reachesIn_of_collect_eq_none hcollect
    obtain ⟨names, n, hn, hof, hone⟩ := beneath_of_first hfirst
    obtain ⟨names', n', hn', _, hlength, hbound⟩ := beneath_of_reachesIn hreach hn hof
    have hle := hn'.length_le hwf hr
    cases max_depth with
    | none =>
      rw [Option.getD_none] at hlength
      omega
    | some depth =>
      have hdepth := hbound depth rfl (Nat.succ_pos _)
      rw [Option.getD_some] at hlength
      omega

/-- The query gives no node twice. -/
theorem descendants_nodup (hr : Live db ws r) (h : descendants db ws r.id max_depth = .ok rows) :
    (rows.map (fun row => row.node.id)).Nodup := by
  have hids : ∀ p : NodeRow → Bool, ((db.nodes.rows.filter p).map NodeRow.key).Nodup :=
    fun p => db.nodes.nodup.sublist (List.filter_sublist.map NodeRow.key)
  unfold descendants at h
  split at h
  · rename_i rows' hcollect
    cases h
    refine Levels.collect_nodup (fun row : Descendant => row.node.id) ?_ ?_ ?_ ?_ hcollect
    · intro row
      unfold next_descendants
      split
      · exact List.nodup_nil
      · rw [List.map_map]
        exact hids _
    · intro a a' b b' hb hb' hkey
      obtain ⟨_, n, hn, hup, _, rfl⟩ := mem_next_descendants.mp hb
      obtain ⟨_, n', hn', hup', _, rfl⟩ := mem_next_descendants.mp hb'
      obtain rfl := db.node_ext hn hn' hkey
      exact Option.some.inj (hup.symm.trans hup')
    · rw [first_descendants, List.map_map]
      exact hids _
    · intro first hfirst b c hreach hc hmem
      obtain ⟨names, n, hn, hof, _⟩ := beneath_of_first hfirst
      obtain ⟨rounds, hreach⟩ := Levels.reaches_iff.mp hreach
      obtain ⟨names', n', hn', rfl, _⟩ := beneath_of_reachesIn hreach hn hof
      obtain ⟨_, m, hm, hup, _, rfl⟩ := mem_next_descendants.mp hc
      obtain ⟨other, hother, hkey⟩ := List.mem_map.mp hmem
      obtain ⟨m', hm', _, hup', _, rfl⟩ := mem_first_descendants.mp hother
      -- the repeated node would hang under the root, and the root beneath itself
      obtain rfl := db.node_ext hm' hm hkey
      exact hn'.ne_root hr (Option.some.inj (hup.symm.trans hup'))
  · cases h

theorem after_descendant_iff {after : ℤ × Text × WithBot NodeId} :
    after_descendant after row = true ↔
    toLex (after.1, toLex (after.2.1, after.2.2)) < descendant_key row := by
  obtain ⟨depth, name, id⟩ := after
  simp only [after_descendant, descendant_key, child_key, Prod.Lex.toLex_lt_toLex,
    decide_eq_true_eq, gt_iff_lt]
  constructor
  · rintro (hlt | ⟨heq, hlt⟩ | ⟨heq, hname, hlt⟩)
    · exact Or.inl hlt
    · exact Or.inr ⟨heq.symm, Or.inl hlt⟩
    · exact Or.inr ⟨heq.symm, Or.inr ⟨hname.symm, hlt⟩⟩
  · rintro (hlt | ⟨heq, hlt | ⟨hname, hlt⟩⟩)
    · exact Or.inl hlt
    · exact Or.inr (Or.inl ⟨heq.symm, hlt⟩)
    · exact Or.inr (Or.inr ⟨heq.symm, hname.symm, hlt⟩)

end descendants

end fslite
