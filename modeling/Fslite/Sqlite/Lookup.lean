import Fslite.Sqlite.WellFormed

namespace fslite.resolve

variable {db db' : Db} {ws : WorkspaceId}

theorem fetch_root_of_mem (hwf : NodesWellFormed db) {n : NodeRow} (hn : n ∈ db.nodes)
    (hws : n.workspace_id = ws) (hroot : n.parent_id = none) :
    fetch_root db ws = some n.toRawNode := by
  have hactive := (hwf.root_shape n hn hroot).2
  refine Option.map_eq_some_iff.mpr
    ⟨n, Table.find?_of_unique hn (by simp [hws, hroot, hactive]) ?_, rfl⟩
  intro m hm hp
  simp only [decide_eq_true_eq] at hp
  exact hwf.root_unique m hm n hn (hp.1.trans hws.symm) hp.2.1 hroot

theorem fetch_child_of_mem (hwf : NodesWellFormed db) {n : NodeRow} (hn : n ∈ db.nodes)
    (hws : n.workspace_id = ws) {up : NodeId} (hup : n.parent_id = some up)
    (hactive : n.trashed_at_ms = none) :
    fetch_child db ws up n.name = some n.toRawNode := by
  refine Option.map_eq_some_iff.mpr
    ⟨n, Table.find?_of_unique hn (by simp [hws, hup, hactive]) ?_, rfl⟩
  intro m hm hp
  simp only [decide_eq_true_eq] at hp
  exact hwf.name m hm n hn (hp.1.trans hws.symm) (hp.2.1.trans hup.symm)
    (by simp [hp.2.1]) hp.2.2.1 hp.2.2.2 hactive

theorem fetch_by_id_of_mem {n : NodeRow} (hn : n ∈ db.nodes) (hws : n.workspace_id = ws)
    (hactive : n.trashed_at_ms = none) :
    fetch_by_id db ws n.id = some n.toRawNode :=
      fetch_by_id_eq_some.mpr ⟨n, hn, rfl, hws, rfl, hactive⟩

/-- What one store finds, the other finds as well, changed at most in columns that
no lookup reads. -/
structure Extends (ws : WorkspaceId) (φ : RawNode → RawNode) (db db' : Db) : Prop where
  shape : ∀ raw, (φ raw).id = raw.id ∧ (φ raw).kind = raw.kind ∧ (φ raw).parent_id = raw.parent_id ∧
    (φ raw).symlink_target = raw.symlink_target
  root : ∀ raw, fetch_root db ws = some raw → fetch_root db' ws = some (φ raw)
  child : ∀ up name raw, fetch_child db ws up name = some raw →
    fetch_child db' ws up name = some (φ raw)
  node : ∀ id raw, fetch_by_id db ws id = some raw → fetch_by_id db' ws id = some (φ raw)

/-- Each untrashed row has its counterpart in the other store. -/
theorem extends_of_rows {φ : RawNode → RawNode} (hwf : NodesWellFormed db')
    (hshape : ∀ raw, (φ raw).id = raw.id ∧ (φ raw).kind = raw.kind ∧
    (φ raw).parent_id = raw.parent_id ∧
      (φ raw).symlink_target = raw.symlink_target)
    (hrows : ∀ n ∈ db.nodes, n.trashed_at_ms = none → ∃ m ∈ db'.nodes, m.toRawNode = φ n.toRawNode ∧
      m.workspace_id = n.workspace_id ∧ m.name = n.name ∧ m.trashed_at_ms = n.trashed_at_ms) :
        Extends ws φ db db' where
  shape := hshape
  root raw h := by
    obtain ⟨n, hn, rfl, hws, hroot, hactive⟩ := fetch_root_eq_some h
    obtain ⟨m, hm, hraw, hmws, _⟩ := hrows n hn hactive
    obtain ⟨_, _, hup, _⟩ := hshape n.toRawNode
    rw [← hraw]
    exact fetch_root_of_mem hwf hm (hmws.trans hws)
      ((congrArg RawNode.parent_id hraw).trans (hup.trans hroot))
  child up name raw h := by
    obtain ⟨n, hn, rfl, hws, hparent, rfl, hactive⟩ := fetch_child_eq_some h
    obtain ⟨m, hm, hraw, hmws, hname, hmark⟩ := hrows n hn hactive
    obtain ⟨_, _, hup, _⟩ := hshape n.toRawNode
    rw [← hraw, ← hname]
    exact fetch_child_of_mem hwf hm (hmws.trans hws)
      ((congrArg RawNode.parent_id hraw).trans (hup.trans hparent))
      (hmark.trans hactive)
  node id raw h := by
    obtain ⟨n, hn, rfl, hws, rfl, hactive⟩ := fetch_by_id_eq_some.mp h
    obtain ⟨m, hm, hraw, hmws, _, hmark⟩ := hrows n hn hactive
    obtain ⟨hid, _⟩ := hshape n.toRawNode
    rw [← hraw, show n.id = m.id from ((congrArg RawNode.id hraw).trans hid).symm]
    exact fetch_by_id_of_mem hm (hmws.trans hws) (hmark.trans hactive)

theorem extends_of_active (hwf : NodesWellFormed db')
    (hsub : ∀ n ∈ db.nodes, n.trashed_at_ms = none → n ∈ db'.nodes) :
    Extends ws id db db' :=
  extends_of_rows hwf (fun _ => ⟨rfl, rfl, rfl, rfl⟩)
    (fun n hn hactive => ⟨n, hsub n hn hactive, rfl, rfl, rfl, rfl⟩)

theorem extends_of_subset (hwf : NodesWellFormed db') (hsub : ∀ n ∈ db.nodes, n ∈ db'.nodes) :
    Extends ws id db db' :=
  extends_of_active hwf (fun n hn _ => hsub n hn)

/-- One row that is changed in columns that no lookup reads. -/
theorem extends_of_modify {id : NodeId} {u : Table.Update NodeRow.key} {ψ : RawNode → RawNode}
    (hwf : NodesWellFormed db') (hnodes : db'.nodes = db.nodes.modify id u)
    (hrow : ∀ n, (u.apply n).toRawNode = ψ n.toRawNode)
    (hshape : ∀ raw, (ψ raw).id = raw.id ∧ (ψ raw).kind = raw.kind ∧
    (ψ raw).parent_id = raw.parent_id ∧
      (ψ raw).symlink_target = raw.symlink_target)
    (hplace : ∀ n, (u.apply n).workspace_id = n.workspace_id ∧ (u.apply n).name = n.name ∧
      (u.apply n).trashed_at_ms = n.trashed_at_ms) :
    Extends ws (fun raw => if raw.id = id then ψ raw else raw) db db' := by
  refine extends_of_rows hwf (fun raw => ?_) (fun n hn _ => ?_)
  · split
    · exact hshape raw
    · exact ⟨rfl, rfl, rfl, rfl⟩
  · refine ⟨_, hnodes ▸ Table.mem_modify.mpr ⟨n, hn, rfl⟩, ?_⟩
    show NodeRow.toRawNode (if n.id = id then u.apply n else n) = _ ∧ _
    by_cases hid : n.id = id
    · rw [if_pos hid, if_pos hid]
      exact ⟨hrow n, hplace n⟩
    · rw [if_neg hid, if_neg hid]
      exact ⟨rfl, rfl, rfl, rfl⟩

namespace Extends

variable {φ : RawNode → RawNode} {current raw : RawNode}

theorem walk (h : Extends ws φ db db') {segments : List Text}
    (hw : walk db ws current segments = some raw) :
    resolve.walk db' ws (φ current) segments = some (φ raw) := by
  induction segments generalizing current with
  | nil =>
    cases hw
    rfl
  | cons segment rest ih =>
    obtain ⟨hid, hkind, _⟩ := h.shape current
    unfold resolve.walk at hw ⊢
    rw [hkind, hid]
    split at hw
    · cases hw
    · rename_i hdir
      rw [if_neg hdir]
      split at hw
      · rename_i child hchild
        simp only [h.child _ _ _ hchild]
        exact ih hw
      · cases hw

theorem resolve_path (h : Extends ws φ db db') {path : VirtualPath}
    (hr : resolve db ws path = some raw) :
    resolve.resolve db' ws path = some (φ raw) := by
  unfold resolve.resolve at hr ⊢
  split at hr
  · cases hr
  · rename_i root hroot
    simp only [h.root _ hroot]
    exact h.walk hr

theorem climb (h : Extends ws φ db db') {base : RawNode} {segments remaining : List Text}
    (hc : climb db ws current segments = .Next base remaining) :
    resolve.climb db' ws (φ current) segments = .Next (φ base) remaining := by
  induction segments generalizing current with
  | nil =>
    cases hc
    rfl
  | cons segment rest ih =>
    obtain ⟨_, _, hparent, _⟩ := h.shape current
    unfold resolve.climb at hc ⊢
    rw [hparent]
    split at hc
    · rename_i hdots
      rw [if_pos hdots]
      split at hc
      · exact ih hc
      · split at hc
        · rename_i node hnode
          simp only [h.node _ _ hnode]
          exact ih hc
        · cases hc
    · rename_i hdots
      rw [if_neg hdots]
      cases hc
      rfl

theorem follow_one (h : Extends ws φ db db') {link base : RawNode} {remaining : List Text}
    (hf : follow_one db ws link = .Next base remaining) :
    resolve.follow_one db' ws (φ link) = .Next (φ base) remaining := by
  obtain ⟨_, _, hparent, htarget⟩ := h.shape link
  unfold resolve.follow_one at hf ⊢
  rw [hparent, htarget]
  split at hf
  · cases hf
  · split at hf
    · cases hf
    · rename_i target htarget
      split at hf
      · rename_i habsolute
        simp only [habsolute, if_true]
        split at hf
        · cases hf
        · rename_i root hroot
          simp only [h.root _ hroot]
          cases hf
          rfl
      · rename_i habsolute
        simp only [habsolute]
        split at hf
        · cases hf
        · split at hf
          · cases hf
          · rename_i parent hparent
            simp only [h.node _ _ hparent]
            exact h.climb hf

theorem descend (h : Extends ws φ db db') (follow_final : Bool) (current : RawNode)
    (pending : List Text) (k : Nat) :
    (∀ raw, descend db ws follow_final current pending k = .Done (.Found raw) →
      resolve.descend db' ws follow_final (φ current) pending k = .Done (.Found (φ raw))) ∧
    (∀ link rest, resolve.descend db ws follow_final current pending k = .Link link rest →
      resolve.descend db' ws follow_final (φ current) pending k = .Link (φ link) rest) := by
  induction pending generalizing current k with
  | nil =>
    obtain ⟨_, hkind, _⟩ := h.shape current
    unfold resolve.descend
    rw [hkind]
    split
    · refine ⟨fun raw hd => (by cases hd), fun link rest hd => ?_⟩
      cases hd
      rfl
    · refine ⟨fun raw hd => ?_, fun link rest hd => (by cases hd)⟩
      cases hd
      rfl
  | cons segment rest ih =>
    obtain ⟨hid, hshape, _⟩ := h.shape current
    unfold resolve.descend
    rw [hshape, hid]
    cases hkind : current.kind with
    | Directory =>
      simp only
      cases hchild : fetch_child db ws current.id segment with
      | some child =>
        simp only [h.child _ _ _ hchild]
        exact ih child (k - 1)
      | none =>
        refine ⟨fun raw hd => ?_, fun link rest hd => ?_⟩
        · simp only at hd
          split at hd <;> cases hd
        · cases hd
    | Symlink =>
      refine ⟨fun raw hd => (by cases hd), fun link rest hd => ?_⟩
      cases hd
      rfl
    | File => exact ⟨fun raw hd => (by cases hd), fun link rest hd => (by cases hd)⟩

theorem follow_loop (h : Extends ws φ db db') {follow_final : Bool} {hops : Nat}
    {pending : List Text} {k : Nat}
    (hf : follow_loop db ws follow_final hops current pending k = .Found raw) :
    resolve.follow_loop db' ws follow_final hops (φ current) pending k = .Found (φ raw) := by
  induction hops generalizing current pending k with
  | zero =>
    obtain ⟨hdone, _⟩ := h.descend follow_final current pending k
    unfold resolve.follow_loop at hf ⊢
    split at hf
    · rename_i outcome hstop
      subst hf
      simp only [hdone raw hstop]
    · cases hf
  | succ hops ih =>
    obtain ⟨hdone, hlink⟩ := h.descend follow_final current pending k
    unfold resolve.follow_loop at hf ⊢
    split at hf
    · rename_i outcome hstop
      subst hf
      simp only [hdone raw hstop]
    · rename_i node rest hstop
      simp only [hlink node rest hstop]
      simp only at hf
      split at hf
      · cases hf
      · rename_i base remaining hnext
        simp only [h.follow_one hnext]
        exact ih hf

/-- A path that leads to a node in one store leads to it in the other. -/
theorem resolve_following (h : Extends ws φ db db') {path : VirtualPath} {follow_final : Bool}
    (hr : resolve_following db ws path follow_final = .Found raw) :
    resolve.resolve_following db' ws path follow_final = .Found (φ raw) := by
  unfold resolve.resolve_following at hr ⊢
  split at hr
  · cases hr
  · rename_i root hroot
    simp only [h.root _ hroot]
    exact h.follow_loop hr

end Extends

/-- Two stores and what they have in common: at a node of the common part the
two searches agree within it, or the second one finds nothing. -/
structure Common (ws : WorkspaceId) (inside : RawNode → Prop) (db db' shared : Db) : Prop where
  root : ∀ raw, fetch_root db ws = some raw →
    inside raw ∧ fetch_root db' ws = some raw ∧ fetch_root shared ws = some raw
  child : ∀ current name raw, inside current → fetch_child db ws current.id name = some raw →
    fetch_child db' ws current.id name = none ∨
      inside raw ∧ fetch_child db' ws current.id name = some raw ∧
        fetch_child shared ws current.id name = some raw
  node : ∀ current up raw, inside current → current.parent_id = some up →
    fetch_by_id db ws up = some raw →
    inside raw ∧ fetch_by_id db' ws up = some raw ∧ fetch_by_id shared ws up = some raw

/-- Where a walk between two links got to, if it did not fail. -/
def WalkStop.arrived : WalkStop → Option RawNode
  | .Done (.Found raw) => some raw
  | .Done _ => none
  | .Link node _ => some node

namespace Common

variable {inside : RawNode → Prop} {shared : Db} {current raw raw' : RawNode}

theorem climb (h : Common ws inside db db' shared) {base : RawNode} {segments remaining : List Text}
    (hin : inside current) (hc : climb db ws current segments = .Next base remaining) :
    inside base ∧ resolve.climb db' ws current segments = .Next base remaining ∧
      resolve.climb shared ws current segments = .Next base remaining := by
  induction segments generalizing current with
  | nil =>
    cases hc
    exact ⟨hin, rfl, rfl⟩
  | cons segment rest ih =>
    unfold resolve.climb at hc ⊢
    split at hc
    · rename_i hdots
      simp only [if_pos hdots]
      cases hup : current.parent_id with
      | none =>
        simp only [hup] at hc ⊢
        exact ih hin hc
      | some up =>
        simp only [hup] at hc ⊢
        split at hc
        · rename_i node hnode
          obtain ⟨hin', hnode', hshared⟩ := h.node _ _ _ hin hup hnode
          simp only [hnode', hshared]
          exact ih hin' hc
        · cases hc
    · rename_i hdots
      simp only [if_neg hdots]
      cases hc
      exact ⟨hin, rfl, rfl⟩

theorem follow_one (h : Common ws inside db db' shared) {link base : RawNode}
    {remaining : List Text} (hin : inside link)
    (hf : follow_one db ws link = .Next base remaining) :
    inside base ∧ resolve.follow_one db' ws link = .Next base remaining ∧
      resolve.follow_one shared ws link = .Next base remaining := by
  unfold resolve.follow_one at hf ⊢
  split at hf
  · cases hf
  · split at hf
    · cases hf
    · rename_i target htarget
      split at hf
      · rename_i habsolute
        simp only [habsolute, if_true]
        split at hf
        · cases hf
        · rename_i root hroot
          obtain ⟨hin', hroot', hshared⟩ := h.root _ hroot
          cases hf
          simp only [hroot', hshared, and_self, and_true]
          exact hin'
      · rename_i habsolute
        simp only [habsolute]
        cases hup : link.parent_id with
        | none =>
          simp only [hup] at hf
          cases hf
        | some up =>
          simp only [hup] at hf ⊢
          split at hf
          · cases hf
          · rename_i parent hparent
            obtain ⟨hin', hparent', hshared⟩ := h.node _ _ _ hin hup hparent
            simp only [hparent', hshared]
            exact h.climb hin' hf

/-- Two walks between links that both get somewhere take the same way, within
the common part. -/
theorem descend (h : Common ws inside db db' shared) (follow_final : Bool) (pending : List Text)
    (k : Nat) (hin : inside current)
    (hd : (descend db ws follow_final current pending k).arrived = some raw)
    (hd' : (descend db' ws follow_final current pending k).arrived = some raw') :
    inside raw ∧
      resolve.descend db' ws follow_final current pending k =
        resolve.descend db ws follow_final current pending k ∧
      resolve.descend shared ws follow_final current pending k =
        resolve.descend db ws follow_final current pending k := by
  induction pending generalizing current k with
  | nil =>
    unfold resolve.descend at hd ⊢
    split at hd
    · cases hd
      exact ⟨hin, rfl, rfl⟩
    · cases hd
      exact ⟨hin, rfl, rfl⟩
  | cons segment rest ih =>
    unfold resolve.descend at hd hd' ⊢
    cases hkind : current.kind with
    | Directory =>
      simp only [hkind] at hd hd' ⊢
      cases hchild : fetch_child db ws current.id segment with
      | some child =>
        obtain hnone | ⟨hin', hchild', hshared⟩ := h.child _ _ _ hin hchild
        · -- here the second walk fails
          simp only [hnone] at hd'
          split at hd' <;> cases hd'
        · simp only [hchild, hchild', hshared] at hd hd' ⊢
          exact ih (k - 1) hin' hd hd'
      | none =>
        simp only [hchild] at hd
        split at hd <;> cases hd
    | Symlink =>
      simp only [hkind] at hd
      cases hd
      exact ⟨hin, rfl, rfl⟩
    | File =>
      simp only [hkind] at hd
      cases hd

theorem follow_loop (h : Common ws inside db db' shared) {follow_final : Bool} {hops : Nat}
    {pending : List Text} {k : Nat} (hin : inside current)
    (hf : follow_loop db ws follow_final hops current pending k = .Found raw)
    (hf' : resolve.follow_loop db' ws follow_final hops current pending k = .Found raw') :
    resolve.follow_loop shared ws follow_final hops current pending k = .Found raw := by
  have harrived : ∀ {store : Db} {hops : Nat} {current raw : RawNode} {pending : List Text}
    {k : Nat},
      resolve.follow_loop store ws follow_final hops current pending k = .Found raw →
        ∃ stop, (resolve.descend store ws follow_final current pending k).arrived = some stop := by
    intro store hops current raw pending k hfound
    cases hops <;> unfold resolve.follow_loop at hfound <;> split at hfound
    · rename_i outcome hstop
      exact ⟨raw, by rw [hstop, hfound]; rfl⟩
    · rename_i node rest hstop
      exact ⟨node, by rw [hstop]; rfl⟩
    · rename_i outcome hstop
      exact ⟨raw, by rw [hstop, hfound]; rfl⟩
    · rename_i node rest hstop
      exact ⟨node, by rw [hstop]; rfl⟩
  induction hops generalizing current pending k with
  | zero =>
    obtain ⟨stop, hstop⟩ := harrived hf
    obtain ⟨stop', hstop'⟩ := harrived hf'
    obtain ⟨_, _, hshared⟩ := h.descend follow_final pending k hin hstop hstop'
    unfold resolve.follow_loop at hf ⊢
    rw [hshared]
    exact hf
  | succ hops ih =>
    obtain ⟨stop, hstop⟩ := harrived hf
    obtain ⟨stop', hstop'⟩ := harrived hf'
    obtain ⟨hin', hsame, hshared⟩ := h.descend follow_final pending k hin hstop hstop'
    unfold resolve.follow_loop at hf hf' ⊢
    rw [hsame] at hf'
    rw [hshared]
    cases hd : resolve.descend db ws follow_final current pending k with
    | Done outcome =>
      simp only [hd] at hf ⊢
      exact hf
    | Link node rest =>
      rw [hd] at hstop
      cases hstop
      simp only [hd] at hf hf' ⊢
      split at hf
      · cases hf
      · rename_i base remaining hnext
        obtain ⟨hbase, hnext', hnextShared⟩ := h.follow_one hin' hnext
        simp only [hnext'] at hf'
        simp only [hnextShared]
        exact ih hbase hf hf'

/-- A path that leads somewhere in both stores leads there within what they have
in common. -/
theorem resolve_following (h : Common ws inside db db' shared) {path : VirtualPath}
    {follow_final : Bool} (hr : resolve_following db ws path follow_final = .Found raw)
    (hr' : resolve.resolve_following db' ws path follow_final = .Found raw') :
    resolve.resolve_following shared ws path follow_final = .Found raw := by
  unfold resolve.resolve_following at hr hr' ⊢
  split at hr
  · cases hr
  · rename_i root hroot
    obtain ⟨hin, hroot', hshared⟩ := h.root _ hroot
    simp only [hroot'] at hr'
    simp only [hshared]
    exact h.follow_loop hin hr hr'

end Common

/-- The walk along a path with one more name, its last link not followed: it
goes as the walk along the shorter path with all links followed, and on to the
child of that name. -/
theorem descend_append (current : RawNode) (segments : List Text) (name : Text) (k : Nat) :
    (∀ raw, descend db ws false current (segments ++ [name]) k = .Done (.Found raw) → ∃ parent,
      descend db ws true current segments k = .Done (.Found parent) ∧ parent.kind = .Directory ∧
        fetch_child db ws parent.id name = some raw) ∧
    (∀ parent raw, descend db ws true current segments k = .Done (.Found parent) →
    parent.kind = .Directory →
      fetch_child db ws parent.id name = some raw →
      descend db ws false current (segments ++ [name]) k = .Done (.Found raw)) ∧
    (∀ link pending, descend db ws false current (segments ++ [name]) k = .Link link pending ↔
      ∃ rest, descend db ws true current segments k = .Link link rest ∧
      pending = rest ++ [name]) := by
  induction segments generalizing current k with
  | nil =>
    simp only [List.nil_append, descend]
    cases hkind : current.kind with
    | Directory =>
      simp only [reduceCtorEq, and_false, if_false]
      refine ⟨?_, ?_, ?_⟩
      · intro raw hd
        cases hchild : fetch_child db ws current.id name with
        | some child =>
          simp only [hchild, false_and, if_false, WalkStop.Done.injEq,
            ResolveOutcome.Found.injEq] at hd
          exact ⟨current, rfl, hkind, hd ▸ hchild⟩
        | none =>
          simp only [hchild] at hd
          split at hd <;> cases hd
      · rintro parent raw ⟨⟩ _ hchild
        simp [hchild]
      · intro link pending
        cases hchild : fetch_child db ws current.id name with
        | some child => simp
        | none => simp
    | Symlink =>
      simp only [and_true, if_true]
      refine ⟨fun raw hd => (by cases hd), fun parent raw hd => (by cases hd), fun link pending =>
        ?_⟩
      constructor
      · rintro ⟨⟩
        exact ⟨[], rfl, rfl⟩
      · rintro ⟨rest, ⟨⟩, rfl⟩
        rfl
    | File =>
      simp only [reduceCtorEq, and_false, if_false]
      refine ⟨fun raw hd => (by cases hd), ?_, fun link pending => by simp⟩
      rintro parent raw ⟨⟩ hdir
      rw [hkind] at hdir
      cases hdir
  | cons segment rest ih =>
    simp only [List.cons_append, descend]
    cases hkind : current.kind with
    | Directory =>
      cases hchild : fetch_child db ws current.id segment with
      | some child => exact ih child (k - 1)
      | none =>
        refine ⟨fun raw hd => ?_, fun parent raw hd => ?_, fun link pending => ?_⟩
        · simp only at hd
          split at hd <;> cases hd
        · simp only at hd
          split at hd <;> cases hd
        · simp
    | Symlink =>
      refine ⟨fun raw hd => (by cases hd), fun parent raw hd => (by cases hd), fun link pending =>
        ?_⟩
      constructor
      · rintro ⟨⟩
        exact ⟨segment :: rest, rfl, rfl⟩
      · rintro ⟨_, ⟨⟩, rfl⟩
        rfl
    | File =>
      exact ⟨fun raw hd => (by cases hd), fun parent raw hd => (by cases hd),
        fun link pending => by simp⟩

theorem follow_loop_append {hops : Nat} {current raw : RawNode} {segments : List Text} {name : Text}
    {k : Nat} :
    follow_loop db ws false hops current (segments ++ [name]) k = .Found raw ↔ ∃ parent,
      follow_loop db ws true hops current segments k = .Found parent ∧ parent.kind = .Directory ∧
        fetch_child db ws parent.id name = some raw := by
  induction hops generalizing current segments k with
  | zero =>
    obtain ⟨hfound, hback, hlink⟩ := @descend_append db ws current segments name k
    constructor
    · intro hf
      unfold follow_loop at hf
      split at hf
      · rename_i outcome hstop
        subst hf
        obtain ⟨parent, hparent, hdir, hchild⟩ := hfound raw hstop
        refine ⟨parent, ?_, hdir, hchild⟩
        unfold follow_loop
        simp only [hparent]
      · cases hf
    · rintro ⟨parent, hf, hdir, hchild⟩
      unfold follow_loop at hf ⊢
      split at hf
      · rename_i outcome hstop
        subst hf
        simp only [hback parent raw hstop hdir hchild]
      · cases hf
  | succ hops ih =>
    obtain ⟨hfound, hback, hlink⟩ := @descend_append db ws current segments name k
    constructor
    · intro hf
      unfold follow_loop at hf
      split at hf
      · rename_i outcome hstop
        subst hf
        obtain ⟨parent, hparent, hdir, hchild⟩ := hfound raw hstop
        refine ⟨parent, ?_, hdir, hchild⟩
        unfold follow_loop
        simp only [hparent]
      · rename_i node pending hstop
        obtain ⟨rest, hrest, rfl⟩ := (hlink node pending).mp hstop
        simp only at hf
        split at hf
        · cases hf
        · rename_i base remaining hnext
          rw [← List.append_assoc] at hf
          obtain ⟨parent, hparent, hdir, hchild⟩ := ih.mp hf
          refine ⟨parent, ?_, hdir, hchild⟩
          unfold follow_loop
          simp only [hrest, hnext]
          exact hparent
    · rintro ⟨parent, hf, hdir, hchild⟩
      unfold follow_loop at hf ⊢
      split at hf
      · rename_i outcome hstop
        subst hf
        simp only [hback parent raw hstop hdir hchild]
      · rename_i node rest hstop
        have hmore := (hlink node (rest ++ [name])).mpr ⟨rest, hstop, rfl⟩
        simp only at hf
        split at hf
        · cases hf
        · rename_i base remaining hnext
          simp only [hmore, hnext]
          rw [← List.append_assoc]
          exact ih.mpr ⟨parent, hf, hdir, hchild⟩

/-- A path leads to a node, its last link not followed, when its parent path
leads to a directory with a child of the last name. -/
theorem resolve_following_append {path parent_path : VirtualPath} {name : Text} {raw : RawNode}
    (hsegments : path.segments = parent_path.segments ++ [name]) :
    resolve_following db ws path false = .Found raw ↔ ∃ parent,
      resolve_following db ws parent_path true = .Found parent ∧ parent.kind = .Directory ∧
        fetch_child db ws parent.id name = some raw := by
  unfold resolve_following
  cases fetch_root db ws with
  | none => simp
  | some root =>
    simp only [hsegments]
    exact follow_loop_append

theorem descend_of_walk {follow_final : Bool} {current raw : RawNode} {segments : List Text}
    {k : Nat} (h : walk db ws current segments = some raw)
    (hlink : follow_final = true → raw.kind ≠ .Symlink) :
    descend db ws follow_final current segments k = .Done (.Found raw) := by
  induction segments generalizing current k with
  | nil =>
    cases h
    unfold descend
    rw [if_neg (fun hfollow => hlink hfollow.1 hfollow.2)]
  | cons segment rest ih =>
    unfold walk at h
    split at h
    · cases h
    · rename_i hdir
      split at h
      · rename_i child hchild
        unfold descend
        simp only [not_ne_iff.mp hdir, hchild]
        exact ih h
      · cases h

theorem walk_append {current parent raw : RawNode} {segments : List Text} {name : Text}
    (h : walk db ws current segments = some parent) (hdir : parent.kind = .Directory)
    (hchild : fetch_child db ws parent.id name = some raw) :
    walk db ws current (segments ++ [name]) = some raw := by
  induction segments generalizing current with
  | nil =>
    cases h
    simp only [List.nil_append, walk, hdir, ne_eq, not_true_eq_false, if_false, hchild]
  | cons segment rest ih =>
    unfold walk at h
    rw [List.cons_append]
    unfold walk
    split at h
    · cases h
    · rename_i hcurrent
      rw [if_neg hcurrent]
      split at h
      · exact ih h
      · cases h

/-- A child of the directory that the parent path leads to is where its path
leads, without links. -/
theorem resolve_child (hwf : NodesWellFormed db) {path parent_path : VirtualPath} {parent : RawNode}
    {n : NodeRow} (hsegments : path.segments = parent_path.segments ++ [n.name])
    (hparent : resolve db ws parent_path = some parent) (hdir : parent.kind = .Directory)
    (hn : n ∈ db.nodes) (hws : n.workspace_id = ws) (hup : n.parent_id = some parent.id)
    (hactive : n.trashed_at_ms = none) : resolve db ws path = some n.toRawNode := by
  unfold resolve at hparent ⊢
  split at hparent
  · cases hparent
  · rename_i root hroot
    simp only [hsegments]
    exact walk_append hparent hdir (fetch_child_of_mem hwf hn hws hup hactive)

/-- A path that leads to a node without links leads to it with links. -/
theorem resolve_following_of_resolve {follow_final : Bool} {path : VirtualPath} {raw : RawNode}
    (h : resolve db ws path = some raw) (hlink : follow_final = true → raw.kind ≠ .Symlink) :
    resolve_following db ws path follow_final = .Found raw := by
  unfold resolve at h
  split at h
  · cases h
  · rename_i root hroot
    unfold resolve_following
    simp only [hroot]
    unfold MAX_LINK_HOPS follow_loop
    simp only [descend_of_walk h hlink]

/-- A child of the directory that the parent path leads to is where its path leads. -/
theorem resolve_following_child (hwf : NodesWellFormed db) {path parent_path : VirtualPath}
    {parent : RawNode} {n : NodeRow} (hsegments : path.segments = parent_path.segments ++ [n.name])
    (hparent : resolve_following db ws parent_path true = .Found parent)
    (hdir : parent.kind = .Directory) (hn : n ∈ db.nodes) (hws : n.workspace_id = ws)
    (hup : n.parent_id = some parent.id) (hactive : n.trashed_at_ms = none) :
    resolve_following db ws path false = .Found n.toRawNode :=
  (resolve_following_append hsegments).mpr
    ⟨parent, hparent, hdir, fetch_child_of_mem hwf hn hws hup hactive⟩

end fslite.resolve
