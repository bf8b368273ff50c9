import Fslite.Sqlite.Resolve

namespace fslite

/-- The row is reached from its workspace's root through directories none of
which is trashed. -/
inductive Live (db : Db) (ws : WorkspaceId) : NodeRow → Prop where
  | root {n : NodeRow} (hmem : n ∈ db.nodes) (hws : n.workspace_id = ws)
    (hroot : n.parent_id = none)
      (hactive : n.trashed_at_ms = none) : Live db ws n
  | child {n p : NodeRow} (hparent : Live db ws p) (hdir : p.kind = .Directory)
    (hmem : n ∈ db.nodes)
      (hws : n.workspace_id = ws) (hup : n.parent_id = some p.id)
        (hactive : n.trashed_at_ms = none) : Live db ws n

namespace Live

variable {db : Db} {ws : WorkspaceId} {n : NodeRow}

theorem mem (h : Live db ws n) : n ∈ db.nodes := by
  cases h <;> assumption

theorem workspace (h : Live db ws n) : n.workspace_id = ws := by
  cases h <;> assumption

theorem active (h : Live db ws n) : n.trashed_at_ms = none := by
  cases h <;> assumption

/-- The parent of a live node is live. -/
theorem parent (h : Live db ws n) {up : NodeId} (hup : n.parent_id = some up) :
    ∃ p, Live db ws p ∧ p.kind = .Directory ∧ p.id = up := by
  cases h with
  | root _ _ hroot _ =>
    rw [hroot] at hup
    cases hup
  | @child _ p hparent hdir _ _ hup' _ =>
    rw [hup', Option.some.injEq] at hup
    exact ⟨p, hparent, hdir, hup⟩

/-- More nodes leave the live ones live. -/
theorem mono {db' : Db} (h : Live db ws n) (hsub : ∀ m ∈ db.nodes, m ∈ db'.nodes) :
    Live db' ws n := by
  induction h with
  | root hmem hws hroot hactive => exact .root (hsub _ hmem) hws hroot hactive
  | child _ hdir hmem hws hup hactive ih => exact .child ih hdir (hsub _ hmem) hws hup hactive

end Live

/-- A fetched row is the columns of a live node. -/
def IsLive (db : Db) (ws : WorkspaceId) (raw : RawNode) : Prop :=
  ∃ n, n.toRawNode = raw ∧ Live db ws n

namespace Db

variable {db : Db} {ws : WorkspaceId}

theorem node?_eq_some {id : NodeId} {n : NodeRow} :
    db.node? id = some n ↔ n ∈ db.nodes ∧ n.id = id :=
  Table.find?_eq_some

theorem node?_of_mem {n : NodeRow} (h : n ∈ db.nodes) : db.node? n.id = some n := Table.find?_key h

/-- Two stored rows with the same identifier are the same row. -/
theorem node_ext {n m : NodeRow} (hn : n ∈ db.nodes) (hm : m ∈ db.nodes) (h : n.id = m.id) :
    n = m :=
  Table.eq_of_key_eq hn hm h

theorem parent_eq_some {id up : NodeId} :
    db.parent id = some up ↔ ∃ n ∈ db.nodes, n.id = id ∧ n.parent_id = some up := by
  unfold parent
  rw [Option.bind_eq_some_iff]
  constructor
  · rintro ⟨n, hn, hup⟩
    obtain ⟨hmem, hid⟩ := node?_eq_some.mp hn
    exact ⟨n, hmem, hid, hup⟩
  · rintro ⟨n, hmem, hid, hup⟩
    exact ⟨n, node?_eq_some.mpr ⟨hmem, hid⟩, hup⟩

theorem parent_of_mem {n : NodeRow} (h : n ∈ db.nodes) : db.parent n.id = n.parent_id := by
  rw [parent, node?_of_mem h, Option.bind_some]

end Db

namespace resolve

variable {db : Db} {ws : WorkspaceId}

theorem fetch_root_eq_some {raw : RawNode} (h : fetch_root db ws = some raw) :
    ∃ n ∈ db.nodes, n.toRawNode = raw ∧ n.workspace_id = ws ∧ n.parent_id = none ∧
    n.trashed_at_ms = none := by
  obtain ⟨n, hfind, hraw⟩ := Option.map_eq_some_iff.mp h
  have hp := List.find?_some hfind
  simp only [decide_eq_true_eq] at hp
  exact ⟨n, List.mem_of_find?_eq_some hfind, hraw, hp⟩

theorem fetch_child_eq_some {parent_id : NodeId} {name : Text} {raw : RawNode}
    (h : fetch_child db ws parent_id name = some raw) :
    ∃ n ∈ db.nodes, n.toRawNode = raw ∧ n.workspace_id = ws ∧ n.parent_id = some parent_id ∧
    n.name = name ∧
      n.trashed_at_ms = none := by
  obtain ⟨n, hfind, hraw⟩ := Option.map_eq_some_iff.mp h
  have hp := List.find?_some hfind
  simp only [decide_eq_true_eq] at hp
  exact ⟨n, List.mem_of_find?_eq_some hfind, hraw, hp⟩

theorem fetch_child_eq_none {parent_id : NodeId} {name : Text}
    (h : fetch_child db ws parent_id name = none) :
    ∀ n ∈ db.nodes, n.workspace_id = ws → n.parent_id = some parent_id → n.name = name →
      n.trashed_at_ms ≠ none := by
  intro n hn hws hup hname hactive
  have hp := List.find?_eq_none.mp (Option.map_eq_none_iff.mp h) n hn
  simp [hws, hup, hname, hactive] at hp

/-- What a path leads to depends on the nodes only. -/
theorem walk_congr {db' : Db} (hnodes : db'.nodes = db.nodes) (current : RawNode)
    (segments : List Text) :
    walk db' ws current segments = walk db ws current segments := by
  have hchild : ∀ id name, fetch_child db' ws id name = fetch_child db ws id name :=
      fun id name => by
    rw [fetch_child, fetch_child, hnodes]
  induction segments generalizing current with
  | nil => rfl
  | cons segment rest ih =>
    unfold walk
    rw [hchild]
    simp only [ih]

theorem resolve_congr {db' : Db} (hnodes : db'.nodes = db.nodes) (path : VirtualPath) :
    resolve db' ws path = resolve db ws path := by
  have hroot : fetch_root db' ws = fetch_root db ws := by rw [fetch_root, fetch_root, hnodes]
  unfold resolve
  rw [hroot]
  simp only [walk_congr hnodes]

theorem fetch_by_id_eq_some {id : NodeId} {raw : RawNode} :
    fetch_by_id db ws id = some raw ↔
      ∃ n ∈ db.nodes, n.toRawNode = raw ∧ n.workspace_id = ws ∧ n.id = id ∧
      n.trashed_at_ms = none := by
  constructor
  · intro h
    obtain ⟨n, hfind, hraw⟩ := Option.map_eq_some_iff.mp h
    have hp := List.find?_some hfind
    simp only [decide_eq_true_eq] at hp
    exact ⟨n, List.mem_of_find?_eq_some hfind, hraw, hp⟩
  · rintro ⟨n, hn, hraw, hp⟩
    refine Option.map_eq_some_iff.mpr ⟨n, Table.find?_of_unique hn (by simpa using hp) ?_, hraw⟩
    intro m hm hpm
    simp only [decide_eq_true_eq] at hpm
    exact db.node_ext hm hn (hpm.2.1.trans hp.2.1.symm)

theorem fetch_by_id_any_eq_some {id : NodeId} {raw : RawNode} :
    fetch_by_id_any db ws id = some raw ↔ ∃ n ∈ db.nodes, n.toRawNode = raw ∧ n.workspace_id = ws ∧
    n.id = id := by
  constructor
  · intro h
    obtain ⟨n, hfind, hraw⟩ := Option.map_eq_some_iff.mp h
    have hp := List.find?_some hfind
    simp only [decide_eq_true_eq] at hp
    exact ⟨n, List.mem_of_find?_eq_some hfind, hraw, hp⟩
  · rintro ⟨n, hn, hraw, hp⟩
    refine Option.map_eq_some_iff.mpr ⟨n, Table.find?_of_unique hn (by simpa using hp) ?_, hraw⟩
    intro m hm hpm
    simp only [decide_eq_true_eq] at hpm
    exact db.node_ext hm hn (hpm.2.trans hp.2.symm)

theorem fetch_root_live {raw : RawNode} (h : fetch_root db ws = some raw) : IsLive db ws raw := by
  obtain ⟨n, hn, hraw, hws, hroot, hactive⟩ := fetch_root_eq_some h
  exact ⟨n, hraw, .root hn hws hroot hactive⟩

/-- Descending from a live directory leads to a live node. -/
theorem fetch_child_live {current raw : RawNode} {name : Text} (hcurrent : IsLive db ws current)
    (hdir : current.kind = .Directory) (h : fetch_child db ws current.id name = some raw) :
    IsLive db ws raw := by
  obtain ⟨p, rfl, hp⟩ := hcurrent
  obtain ⟨n, hn, hraw, hws, hup, _, hactive⟩ := fetch_child_eq_some h
  exact ⟨n, hraw, .child hp hdir hn hws hup hactive⟩

/-- Climbing from a live node leads to a live directory. -/
theorem fetch_parent_live {current raw : RawNode} {up : NodeId} (hcurrent : IsLive db ws current)
    (hup : current.parent_id = some up) (h : fetch_by_id db ws up = some raw) :
    IsLive db ws raw := by
  obtain ⟨n, rfl, hn⟩ := hcurrent
  obtain ⟨p, hp, _, hpid⟩ := hn.parent hup
  obtain ⟨m, hm, hraw, _, hmid, _⟩ := fetch_by_id_eq_some.mp h
  rw [db.node_ext hm hp.mem (hmid.trans hpid.symm)] at hraw
  exact ⟨p, hraw, hp⟩

theorem walk_live {current raw : RawNode} {segments : List Text} (hcurrent : IsLive db ws current)
    (h : walk db ws current segments = some raw) : IsLive db ws raw := by
  induction segments generalizing current with
  | nil =>
    cases h
    exact hcurrent
  | cons segment rest ih =>
    unfold walk at h
    split at h
    · cases h
    · rename_i hdir
      split at h
      · rename_i child hchild
        exact ih (fetch_child_live hcurrent (not_ne_iff.mp hdir) hchild) h
      · cases h

/-- A path resolves to a live node only. -/
theorem resolve_live {path : VirtualPath} {raw : RawNode} (h : resolve db ws path = some raw) :
    IsLive db ws raw := by
  unfold resolve at h
  split at h
  · cases h
  · rename_i root hroot
    exact walk_live (fetch_root_live hroot) h

theorem climb_live {current base : RawNode} {segments remaining : List Text}
    (hcurrent : IsLive db ws current) (h : climb db ws current segments = .Next base remaining) :
    IsLive db ws base := by
  induction segments generalizing current with
  | nil =>
    cases h
    exact hcurrent
  | cons segment rest ih =>
    unfold climb at h
    split at h
    · split at h
      · exact ih hcurrent h
      · rename_i up hup
        split at h
        · rename_i node hnode
          exact ih (fetch_parent_live hcurrent hup hnode) h
        · cases h
    · cases h
      exact hcurrent

theorem follow_one_live {link base : RawNode} {remaining : List Text} (hlink : IsLive db ws link)
    (h : follow_one db ws link = .Next base remaining) : IsLive db ws base := by
  unfold follow_one at h
  split at h
  · cases h
  · split at h
    · cases h
    · split at h
      · split at h
        · cases h
        · rename_i root hroot
          cases h
          exact fetch_root_live hroot
      · split at h
        · cases h
        · rename_i up hup
          split at h
          · cases h
          · rename_i parent hparent
            exact climb_live (fetch_parent_live hlink hup hparent) h

/-- What the walk between two links arrives at: the found node is live, and so
is the link it stops at; with segments still to go, a found node is a child. -/
theorem descend_spec (follow_final : Bool) {current : RawNode} (pending : List Text) (k : Nat)
    (hcurrent : IsLive db ws current) :
    (∀ raw, descend db ws follow_final current pending k = .Done (.Found raw) →
      IsLive db ws raw ∧ (pending ≠ [] → raw.parent_id ≠ none)) ∧
    (∀ link rest, descend db ws follow_final current pending k = .Link link rest →
      IsLive db ws link ∧ (follow_final = false → rest ≠ [])) := by
  induction pending generalizing current k with
  | nil =>
    unfold descend
    split
    · rename_i hfollow
      refine ⟨fun raw h => ?_, fun link rest h => ?_⟩
      · cases h
      · cases h
        exact ⟨hcurrent, fun hf => by simp [hf] at hfollow⟩
    · refine ⟨fun raw h => ?_, fun link rest h => ?_⟩
      · cases h
        exact ⟨hcurrent, fun hne => absurd rfl hne⟩
      · cases h
  | cons segment rest ih =>
    unfold descend
    split
    · rename_i hdir
      split
      · rename_i child hchild
        have hlive := fetch_child_live hcurrent hdir hchild
        obtain ⟨hfound, hlink⟩ := ih (k - 1) hlive
        refine ⟨fun raw h => ⟨(hfound raw h).1, fun _ => ?_⟩, hlink⟩
        by_cases hrest : rest = []
        · subst hrest
          unfold descend at h
          split at h
          · cases h
          · cases h
            obtain ⟨n, _, rfl, _, hup, _⟩ := fetch_child_eq_some hchild
            simp [hup]
        · exact (hfound raw h).2 hrest
      · refine ⟨fun raw h => ?_, fun link rest h => ?_⟩
        · split at h <;> cases h
        · cases h
    · refine ⟨fun raw h => ?_, fun link rest' h => ?_⟩
      · cases h
      · cases h
        exact ⟨hcurrent, fun _ => List.cons_ne_nil _ _⟩
    · refine ⟨fun raw h => ?_, fun link rest h => ?_⟩
      · cases h
      · cases h

/-- The walk through links arrives at a live node; when it does not follow a
final link and has segments to go, the node is not a root. -/
theorem follow_loop_spec {follow_final : Bool} {hops : Nat} {current raw : RawNode}
    {pending : List Text} {k : Nat} (hcurrent : IsLive db ws current)
    (h : follow_loop db ws follow_final hops current pending k = .Found raw) :
    IsLive db ws raw ∧ (follow_final = false → pending ≠ [] → raw.parent_id ≠ none) := by
  induction hops generalizing current pending k with
  | zero =>
    obtain ⟨hfound, _⟩ := descend_spec follow_final pending k hcurrent
    unfold follow_loop at h
    split at h
    · rename_i outcome hdone
      subst h
      exact ⟨(hfound raw hdone).1, fun _ => (hfound raw hdone).2⟩
    · cases h
  | succ hops ih =>
    obtain ⟨hfound, hlink⟩ := descend_spec follow_final pending k hcurrent
    unfold follow_loop at h
    split at h
    · rename_i outcome hdone
      subst h
      exact ⟨(hfound raw hdone).1, fun _ => (hfound raw hdone).2⟩
    · rename_i node rest hstop
      obtain ⟨hnode, hrest⟩ := hlink node rest hstop
      simp only at h
      split at h
      · cases h
      · rename_i base remaining hnext
        obtain ⟨hlive, hchild⟩ := ih (follow_one_live hnode hnext) h
        exact ⟨hlive, fun hf _ => hchild hf (by simp [hrest hf])⟩

/-- A path resolves through links to a live node only. -/
theorem resolve_following_live {path : VirtualPath} {follow_final : Bool} {raw : RawNode}
    (h : resolve_following db ws path follow_final = .Found raw) : IsLive db ws raw := by
  unfold resolve_following at h
  split at h
  · cases h
  · rename_i root hroot
    exact (follow_loop_spec (fetch_root_live hroot) h).1

/-- A path with a name never resolves to a root when its last link is not followed. -/
theorem resolve_following_named {path : VirtualPath} {raw : RawNode} (hname : path.name ≠ none)
    (h : resolve_following db ws path false = .Found raw) : raw.parent_id ≠ none := by
  unfold resolve_following at h
  split at h
  · cases h
  · rename_i root hroot
    exact (follow_loop_spec (fetch_root_live hroot) h).2 rfl
      (fun hnil => hname (VirtualPath.name_eq_none.mpr hnil))

end resolve

end fslite
