import Fslite.Sqlite.Run.Subtree

namespace fslite

open resolve

/-- From a stored node the names lead to another one, each of them to an untrashed child. -/
inductive Under (db : Db) (r : NodeRow) : List Text → NodeRow → Prop where
  | here (hr : r ∈ db.nodes) : Under db r [] r
  | child {place : List Text} {p n : NodeRow} (h : Under db r place p) (hn : n ∈ db.nodes)
      (hup : n.parent_id = some p.id) (hactive : n.trashed_at_ms = none) :
        Under db r (place ++ [n.name]) n

namespace Under

variable {db db' : Db} {ws : WorkspaceId} {r n m p s : NodeRow} {place q rest : List Text}

theorem mem (h : Under db r q m) : m ∈ db.nodes := by
  cases h <;> assumption

theorem nil_iff : Under db r [] m ↔ m = r ∧ r ∈ db.nodes := by
  constructor
  · generalize hplace : ([] : List Text) = place
    intro h
    cases h with
    | here hr => exact ⟨rfl, hr⟩
    | child => exact absurd hplace (by simp)
  · rintro ⟨rfl, hr⟩
    exact here hr

theorem concat_iff {name : Text} : Under db r (q ++ [name]) m ↔
    ∃ p, Under db r q p ∧ m ∈ db.nodes ∧ m.parent_id = some p.id ∧ m.trashed_at_ms = none ∧
      m.name = name := by
  constructor
  · generalize hplace : q ++ [name] = place
    intro h
    cases h with
    | here => exact absurd hplace (by simp)
    | child hp hn hup hactive =>
      obtain ⟨rfl, hname⟩ := List.append_inj' hplace rfl
      exact ⟨_, hp, hn, hup, hactive, (List.singleton_inj.mp hname).symm⟩
  · rintro ⟨p, hp, hm, hup, hactive, rfl⟩
    exact child hp hm hup hactive

theorem append_iff : Under db r (q ++ rest) m ↔ ∃ p, Under db r q p ∧ Under db p rest m := by
  induction rest using List.reverseRecOn generalizing m with
  | nil =>
    rw [List.append_nil]
    constructor
    · exact fun h => ⟨m, h, here h.mem⟩
    · rintro ⟨p, hp, hm⟩
      obtain ⟨rfl, _⟩ := nil_iff.mp hm
      exact hp
  | append_singleton rest name ih =>
    rw [← List.append_assoc, concat_iff]
    constructor
    · rintro ⟨p, hp, hm⟩
      obtain ⟨top, htop, hrest⟩ := ih.mp hp
      exact ⟨top, htop, concat_iff.mpr ⟨p, hrest, hm⟩⟩
    · rintro ⟨top, htop, hrest⟩
      obtain ⟨p, hp, hm⟩ := concat_iff.mp hrest
      exact ⟨p, ih.mpr ⟨top, htop, hp⟩, hm⟩

theorem active (h : Under db r q m) (hne : q ≠ []) : m.trashed_at_ms = none := by
  cases h with
  | here => exact absurd rfl hne
  | child _ _ _ hactive => exact hactive

/-- What the names lead to lies below the node that they lead from. -/
theorem below_top (h : Under db r q m) : Below db.parent m.id r.id := by
  induction h with
  | here => exact Below.refl _ _
  | child _ hn hup _ ih => exact Below.head (by rw [Db.parent_of_mem hn, hup]) ih

theorem beneath (h : Under db r q m) (hne : q ≠ []) : Beneath db r.id q m := by
  induction h with
  | here => exact absurd rfl hne
  | @child place p n hp hn hup hactive ih =>
    cases hp with
    | here => exact .child hn hup hactive
    | child => exact .step (ih (by simp)) hn hup hactive

theorem workspace (h : Under db r q m) (hwf : NodesWellFormed db) :
    m.workspace_id = r.workspace_id := by
  induction h with
  | here => rfl
  | @child place p n hp hn hup _ ih =>
    obtain ⟨x, hx, hid, hws, _⟩ := hwf.parent n hn p.id hup
    obtain rfl := db.node_ext hx hp.mem hid
    exact hws.symm.trans ih

theorem live (h : Under db r q m) (hwf : NodesWellFormed db) (hr : Live db ws r) :
    Live db ws m := by
  cases h with
  | here => exact hr
  | child hp hn hup hactive => exact ((child hp hn hup hactive).beneath (by simp)).live hwf hr

/-- The names lead to one node. -/
theorem unique (h : Under db r q n) (hwf : NodesWellFormed db) (h' : Under db r q m) : n = m := by
  induction q using List.reverseRecOn generalizing n m with
  | nil => rw [(nil_iff.mp h).1, (nil_iff.mp h').1]
  | append_singleton q name ih =>
    obtain ⟨p, hp, hn, hup, hactive, rfl⟩ := concat_iff.mp h
    obtain ⟨p', hp', hm, hup', hactive', hname⟩ := concat_iff.mp h'
    obtain rfl := ih hp hp'
    exact hwf.name n hn m hm
      (((child hp hn hup hactive).workspace hwf).trans ((child hp hm hup' hactive').workspace hwf).symm)
      (hup.trans hup'.symm) (by simp [hup]) hname.symm hactive hactive'

/-- No names but these lead to the node. -/
theorem place_unique (h : Under db r q m) (hr : Live db ws r) (h' : Under db r place m) :
    q = place := by
  by_cases hq : q = []
  · subst hq
    obtain ⟨rfl, _⟩ := nil_iff.mp h
    by_contra hne
    exact (h'.beneath (Ne.symm hne)).ne_root hr rfl
  · by_cases hplace : place = []
    · subst hplace
      obtain ⟨rfl, _⟩ := nil_iff.mp h'
      exact absurd rfl ((h.beneath hq).ne_root hr)
    · exact (h.beneath hq).unique hr (h'.beneath hplace)

/-- Below a node in the trash too. -/
theorem place_unique_of_trashed (h : Under db r q m) (hr : r.trashed_at_ms ≠ none)
    (h' : Under db r place m) : q = place := by
  induction h generalizing place with
  | here =>
    by_contra hne
    exact hr (h'.active (Ne.symm hne))
  | @child q p m hp hm hup hactive ih =>
    generalize hx : m = x at h'
    cases h' with
    | here => exact absurd (hx ▸ hactive) hr
    | child hp' _ hup' =>
      subst hx
      obtain rfl := db.node_ext hp.mem hp'.mem (Option.some.inj (hup.symm.trans hup'))
      rw [ih hp']

/-- One node lies below another one when its place continues that of the other one. -/
theorem prefix_iff_below (h : Under db r place n) (hwf : NodesWellFormed db) (hr : Live db ws r)
    (h' : Under db r q m) : place <+: q ↔ Below db.parent m.id n.id := by
  constructor
  · rintro ⟨rest, rfl⟩
    obtain ⟨p, hp, hm⟩ := append_iff.mp h'
    obtain rfl := h.unique hwf hp
    exact hm.below_top
  · intro hbelow
    induction h' with
    | here =>
      -- the root lies below nothing but itself
      have hsame : n = r := by
        by_contra hne
        obtain heq | ⟨up, hup, hrest⟩ := hbelow.cases_head
        · exact hne (db.node_ext h.mem hr.mem heq.symm)
        · rw [Db.parent_of_mem hr.mem] at hup
          exact hr.acyclic hup (hrest.trans h.below_top)
      subst hsame
      rw [h.place_unique hr (here hr.mem)]
    | @child q p m hp hm hup hactive ih =>
      obtain hid | hup' := (Db.below_of_mem hm hup).mp hbelow
      · obtain rfl := db.node_ext h.mem hm hid.symm
        rw [h.place_unique hr (child hp hm hup hactive)]
      · exact (ih hup').trans (List.prefix_append _ _)

/-- Every live node has a place under its workspace's root. -/
theorem of_live (hwf : NodesWellFormed db) (hr : Live db ws r) (hroot : r.parent_id = none)
    (h : Live db ws m) : ∃ q, Under db r q m := by
  induction h with
  | @root m hmem hws hup _ =>
    obtain rfl := hwf.root_unique m hmem r hr.mem (hws.trans hr.workspace.symm) hup hroot
    exact ⟨[], here hmem⟩
  | child _ _ hmem _ hup hactive ih =>
    obtain ⟨q, hq⟩ := ih
    exact ⟨_, child hq hmem hup hactive⟩

/-- The walk from a node goes where the names lead. -/
theorem walk_iff (hwf : NodesWellFormed db) (hr : r ∈ db.nodes) (hws : r.workspace_id = ws)
    {raw : RawNode} : walk db ws r.toRawNode q = some raw ↔ ∃ m, Under db r q m ∧ m.toRawNode = raw := by
  induction q using List.reverseRecOn generalizing raw with
  | nil =>
    simp only [walk, Option.some.injEq, nil_iff]
    constructor
    · exact fun h => ⟨r, ⟨rfl, hr⟩, h⟩
    · rintro ⟨m, ⟨rfl, _⟩, h⟩
      exact h
  | append_singleton q name ih =>
    rw [walk_split, Option.bind_eq_some_iff]
    constructor
    · rintro ⟨parent, hparent, hlast⟩
      obtain ⟨p, hp, rfl⟩ := ih.mp hparent
      obtain ⟨_, hchild⟩ := walk_single.mp hlast
      obtain ⟨m, hm, hraw, _, hup, hname, hactive⟩ := fetch_child_eq_some hchild
      exact ⟨m, concat_iff.mpr ⟨p, hp, hm, hup, hactive, hname⟩, hraw⟩
    · rintro ⟨m, hm, rfl⟩
      have hmws := (hm.workspace hwf).trans hws
      obtain ⟨p, hp, hmem, hup, hactive, rfl⟩ := concat_iff.mp hm
      obtain ⟨x, hx, hid, _, hdir⟩ := hwf.parent m hmem p.id hup
      obtain rfl := db.node_ext hx hp.mem hid
      exact ⟨x.toRawNode, ih.mpr ⟨x, hp, rfl⟩,
        walk_single.mpr ⟨hdir, fetch_child_of_mem hwf hmem hmws hup hactive⟩⟩

section changes

/-- Rows that change in place keep their places. -/
theorem map {f : NodeRow → NodeRow} (hnodes : ∀ m, m ∈ db'.nodes ↔ ∃ n ∈ db.nodes, f n = m)
    (hkeeps : ∀ n, (f n).id = n.id ∧ (f n).parent_id = n.parent_id ∧ (f n).name = n.name ∧
      (f n).trashed_at_ms = n.trashed_at_ms) (hr : r ∈ db.nodes) :
    Under db' (f r) q m ↔ ∃ n, Under db r q n ∧ f n = m := by
  induction q using List.reverseRecOn generalizing m with
  | nil =>
    simp only [nil_iff, hnodes]
    constructor
    · rintro ⟨rfl, _⟩
      exact ⟨r, ⟨rfl, hr⟩, rfl⟩
    · rintro ⟨n, ⟨rfl, _⟩, rfl⟩
      exact ⟨rfl, n, hr, rfl⟩
  | append_singleton q name ih =>
    simp only [concat_iff, hnodes]
    constructor
    · rintro ⟨p, hp, ⟨n, hn, rfl⟩, hup, hactive, hname⟩
      obtain ⟨x, hx, rfl⟩ := ih.mp hp
      obtain ⟨_, hparent, hnames, htrashed⟩ := hkeeps n
      exact ⟨n, ⟨x, hx, hn, by rw [← hparent, hup, (hkeeps x).1], htrashed ▸ hactive,
        hnames ▸ hname⟩, rfl⟩
    · rintro ⟨n, ⟨x, hx, hn, hup, hactive, hname⟩, rfl⟩
      obtain ⟨_, hparent, hnames, htrashed⟩ := hkeeps n
      exact ⟨f x, ih.mpr ⟨x, hx, rfl⟩, ⟨n, hn, rfl⟩, by rw [hparent, hup, (hkeeps x).1],
        htrashed ▸ hactive, hnames ▸ hname⟩

/-- A purge takes away what is below its node. -/
theorem purge_iff {id : NodeId} :
    Under (db.purge id) r q m ↔ Under db r q m ∧ ¬ Below db.parent m.id id := by
  induction q using List.reverseRecOn generalizing m with
  | nil =>
    simp only [nil_iff, Db.mem_purge_nodes]
    constructor
    · rintro ⟨rfl, hr, hnot⟩
      exact ⟨⟨rfl, hr⟩, hnot⟩
    · rintro ⟨⟨rfl, hr⟩, hnot⟩
      exact ⟨rfl, hr, hnot⟩
  | append_singleton q name ih =>
    simp only [concat_iff, Db.mem_purge_nodes]
    constructor
    · rintro ⟨p, hp, ⟨hm, hnot⟩, hplace⟩
      exact ⟨⟨p, (ih.mp hp).1, hm, hplace⟩, hnot⟩
    · rintro ⟨⟨p, hp, hm, hup, hplace⟩, hnot⟩
      exact ⟨p, ih.mpr ⟨hp, fun hbelow => hnot ((Db.below_of_mem hm hup).mpr (Or.inr hbelow))⟩,
        ⟨hm, hnot⟩, hup, hplace⟩

/-- A new child of a node has a place below that of the node. -/
theorem insert_iff (hwf : NodesWellFormed db) {nodes : Table NodeRow.key}
    (hins : db.nodes.insert n = some nodes) (hnodes : db'.nodes = nodes) (hp : p ∈ db.nodes)
    (hup : n.parent_id = some p.id) (hactive : n.trashed_at_ms = none) (hr : r ∈ db.nodes) :
    Under db' r q m ↔ Under db r q m ∨ ∃ place, Under db r place p ∧ q = place ++ [n.name] ∧ m = n := by
  have hmem : ∀ m, m ∈ db'.nodes ↔ m ∈ db.nodes ∨ m = n := by
    rw [hnodes]
    exact fun m => Table.mem_insert hins
  have hnew : ∀ m ∈ db.nodes, m.id ≠ n.id :=
    Table.find?_eq_none.mp (Table.insert_eq_some.mp hins).1
  constructor
  · intro h
    induction h with
    | here => exact Or.inl (here hr)
    | @child place x m _ hm hxup hactive' ih =>
      -- nothing but the new node hangs below what has been there
      have hx : x ∈ db.nodes → Under db r place x := fun hx =>
        ih.elim id (fun ⟨_, _, _, heq⟩ => absurd (congrArg NodeRow.key heq) (hnew x hx))
      obtain hm | rfl := (hmem m).mp hm
      · obtain ⟨y, hy, hid, _⟩ := hwf.parent m hm x.id hxup
        obtain hold | ⟨_, _, _, rfl⟩ := ih
        · exact Or.inl (child hold hm hxup hactive')
        · exact absurd hid (hnew y hy)
      · have hid : x.id = p.id := Option.some.inj (hxup.symm.trans hup)
        obtain hold | ⟨_, _, _, rfl⟩ := ih
        · exact Or.inr ⟨place, db.node_ext hold.mem hp hid ▸ hold, rfl, rfl⟩
        · exact absurd hid.symm (hnew p hp)
  · have hkeep : ∀ {q m}, Under db r q m → Under db' r q m := by
      intro q m h
      induction h with
      | here => exact here ((hmem r).mpr (Or.inl hr))
      | child _ hn hup' hactive' ih => exact child ih ((hmem _).mpr (Or.inl hn)) hup' hactive'
    rintro (h | ⟨place, hplace, rfl, rfl⟩)
    · exact hkeep h
    · exact child (hkeep hplace) ((hmem m).mpr (Or.inr rfl)) hup hactive

/-- A row that changes elsewhere leaves the places under a node alone. -/
theorem aside_iff (hr : r.id ≠ n.id)
    (hmem : ∀ m, m ∈ db'.nodes ↔ m = s ∨ m ∈ db.nodes ∧ m.id ≠ n.id) (hid : s.id = n.id)
    (hnot : ∀ q m, Under db r q m → m.id ≠ n.id)
    (hparent : s.trashed_at_ms = none → ∀ q m, Under db r q m → s.parent_id ≠ some m.id) :
    Under db' r q m ↔ Under db r q m := by
  induction q using List.reverseRecOn generalizing m with
  | nil =>
    simp only [nil_iff, hmem]
    refine and_congr_right (fun _ => ⟨?_, fun hmem => Or.inr ⟨hmem, hr⟩⟩)
    rintro (rfl | ⟨hmem, _⟩)
    · exact absurd hid hr
    · exact hmem
  | append_singleton q name ih =>
    constructor
    · intro h
      obtain ⟨p, hp, hm, hup, hactive, hname⟩ := concat_iff.mp h
      have hp := ih.mp hp
      obtain rfl | ⟨hm, _⟩ := (hmem m).mp hm
      · exact absurd hup (hparent hactive q p hp)
      · exact concat_iff.mpr ⟨p, hp, hm, hup, hactive, hname⟩
    · intro h
      obtain ⟨p, hp, hm, hplace⟩ := concat_iff.mp h
      exact concat_iff.mpr ⟨p, ih.mpr hp, (hmem m).mpr (Or.inr ⟨hm, hnot _ m h⟩), hplace⟩

/-- What a node that gets another row takes with it: its untrashed subtree. -/
def Carried (db : Db) (n s : NodeRow) (rest : List Text) (m : NodeRow) : Prop :=
  rest = [] ∧ m = s ∨ rest ≠ [] ∧ Under db n rest m

theorem Carried.below (h : Carried db n s rest m) (hid : s.id = n.id) :
    Below db.parent m.id n.id := by
  obtain ⟨_, rfl⟩ | ⟨_, h⟩ := h
  · rw [hid]
    exact Below.refl _ _
  · exact h.below_top

/-- What is under a row that goes to the trash is what has been under it. -/
theorem trashed_iff (hn : n ∈ db.nodes) (hid : s.id = n.id)
    (hmem : ∀ m, m ∈ db'.nodes ↔ m = s ∨ m ∈ db.nodes ∧ m.id ≠ n.id)
    (hself : ∀ rest m, rest ≠ [] → Under db n rest m → m.id ≠ n.id)
    (htrashed : s.trashed_at_ms ≠ none) : Under db' s q m ↔ Carried db n s q m := by
  have hs : s ∈ db'.nodes := (hmem s).mpr (Or.inl rfl)
  constructor
  · intro h
    induction h with
    | here => exact Or.inl ⟨rfl, rfl⟩
    | @child q x m _ hm hup hactive ih =>
      obtain rfl | ⟨hm, _⟩ := (hmem m).mp hm
      · exact absurd hactive htrashed
      · refine Or.inr ⟨by simp, ?_⟩
        obtain ⟨rfl, rfl⟩ | ⟨_, hx⟩ := ih
        · exact child (here hn) hm (hid ▸ hup) hactive
        · exact child hx hm hup hactive
  · rintro (⟨rfl, rfl⟩ | ⟨hne, h⟩)
    · exact here hs
    · induction h with
      | here => exact absurd rfl hne
      | @child q x m hx hm hup hactive ih =>
        have hm' : m ∈ db'.nodes :=
          (hmem m).mpr (Or.inr ⟨hm, hself _ m (by simp) (child hx hm hup hactive)⟩)
        by_cases hq : q = []
        · subst hq
          obtain ⟨rfl, _⟩ := nil_iff.mp hx
          exact child (here hs) hm' (hid.symm ▸ hup) hactive
        · exact child (ih hq) hm' hup hactive

/-- When one row gets another parent, name or mark, its subtree leaves its place and appears
where the new parent is, if the parent has a place and does not lie in the subtree itself. -/
theorem rehang_iff (hn : n ∈ db.nodes) (hid : s.id = n.id)
    (hmem : ∀ m, m ∈ db'.nodes ↔ m = s ∨ m ∈ db.nodes ∧ m.id ≠ n.id)
    (hself : ∀ rest m, rest ≠ [] → Under db n rest m → m.id ≠ n.id)
    (hr : ¬ Below db.parent r.id n.id) :
    Under db' r q m ↔ (Under db r q m ∧ ¬ Below db.parent m.id n.id) ∨
      s.trashed_at_ms = none ∧ ∃ place p rest, Under db r place p ∧ ¬ Below db.parent p.id n.id ∧
        s.parent_id = some p.id ∧ q = place ++ s.name :: rest ∧ Carried db n s rest m := by
  constructor
  · intro h
    induction h with
    | here hr' =>
      obtain rfl | ⟨hr', _⟩ := (hmem _).mp hr'
      · exact absurd (hid ▸ Below.refl _ _) hr
      · exact Or.inl ⟨here hr', hr⟩
    | @child place x m _ hm hup hactive ih =>
      obtain rfl | ⟨hm, hne⟩ := (hmem m).mp hm
      · obtain ⟨hx, hnot⟩ | ⟨_, _, p, rest, _, hnot, hup', _, hcarried⟩ := ih
        · exact Or.inr ⟨hactive, place, x, [], hx, hnot, hup, rfl, Or.inl ⟨rfl, rfl⟩⟩
        · rw [hup, Option.some.injEq] at hup'
          exact absurd (hup' ▸ hcarried.below hid) hnot
      · obtain ⟨hx, hnot⟩ | ⟨hactive', at_, p, rest, hp, hnot, hup', rfl, hcarried⟩ := ih
        · refine Or.inl ⟨child hx hm hup hactive, fun hbelow => ?_⟩
          exact ((Db.below_of_mem hm hup).mp hbelow).elim hne hnot
        · refine Or.inr ⟨hactive', at_, p, rest ++ [m.name], hp, hnot, hup', by simp,
            Or.inr ⟨by simp, ?_⟩⟩
          obtain ⟨rfl, rfl⟩ | ⟨_, hx⟩ := hcarried
          · exact child (here hn) hm (hid ▸ hup) hactive
          · exact child hx hm hup hactive
  · have hkeep : ∀ {q m}, Under db r q m → ¬ Below db.parent m.id n.id → Under db' r q m := by
      intro q m h hnot
      induction h with
      | here hr' =>
        exact here ((hmem _).mpr (Or.inr ⟨hr', fun heq => hr (heq ▸ Below.refl _ _)⟩))
      | @child place x m _ hm hup hactive ih =>
        refine child (ih fun hbelow => hnot ((Db.below_of_mem hm hup).mpr (Or.inr hbelow)))
          ((hmem m).mpr (Or.inr ⟨hm, fun heq => hnot (heq ▸ Below.refl _ _)⟩)) hup hactive
    rintro (⟨h, hnot⟩ | ⟨hactive, place, p, rest, hp, hnot, hup, rfl, hcarried⟩)
    · exact hkeep h hnot
    · have hs : Under db' r (place ++ [s.name]) s :=
        child (hkeep hp hnot) ((hmem s).mpr (Or.inl rfl)) hup hactive
      rw [List.append_cons]
      obtain ⟨rfl, rfl⟩ | ⟨hne, hm⟩ := hcarried
      · rwa [List.append_nil]
      · refine append_iff.mpr ⟨s, hs, ?_⟩
        induction hm with
        | here => exact absurd rfl hne
        | @child rest x m hx hm hup' hactive' ih =>
          have hm' : m ∈ db'.nodes :=
            (hmem m).mpr (Or.inr ⟨hm, hself _ m (by simp) (child hx hm hup' hactive')⟩)
          by_cases hrest : rest = []
          · subst hrest
            obtain ⟨rfl, _⟩ := nil_iff.mp hx
            exact child (here hs.mem) hm' (hid.symm ▸ hup') hactive'
          · exact child (ih hrest) hm' hup' hactive'

end changes

end Under

end fslite
