import Fslite.Sqlite.Effect.Feed
import Fslite.Sqlite.Run.Deletion
import Fslite.Sqlite.Run.Version

namespace fslite

open resolve directory content mutate trash

/-- The number of rows that name the node. -/
def mentions (id : NodeId) (rows : List ChangeRow) : Nat :=
  rows.countP (fun c => c.node_id = some id)

/-- Exactly one row names each node that the change leaves with a higher
revision, and gives this revision. -/
def ReportsRaised (rows : List ChangeRow) (db db' : Db) : Prop :=
  ∀ n ∈ db.nodes, ∀ m ∈ db'.nodes, n.id = m.id → n.revision < m.revision →
    rows.countP (fun c => c.node_id = some m.id ∧ c.revision = some m.revision) = 1

/-- Exactly one row names the top of each subtree that the change creates: a new
node whose parent was there before. -/
def ReportsCreated (rows : List ChangeRow) (db db' : Db) : Prop :=
  ∀ m ∈ db'.nodes, db.node? m.id = none →
    (∀ up, m.parent_id = some up → (db.node? up).isSome = true) →
    mentions m.id rows = 1

/-- Exactly one row names the top of each subtree that the change deletes: a node
that is gone while its parent is still there. -/
def ReportsDeleted (rows : List ChangeRow) (db db' : Db) : Prop :=
  ∀ n ∈ db.nodes, db'.node? n.id = none →
    (∀ up, n.parent_id = some up → (db'.node? up).isSome = true) →
    mentions n.id rows = 1

section reports

variable {rows : List ChangeRow} {db db' : Db}

theorem Db.node?_isSome {id : NodeId} (h : (db.node? id).isSome = true) :
    ∃ n ∈ db.nodes, n.id = id := by
  obtain ⟨n, hn⟩ := Option.isSome_iff_exists.mp h
  exact ⟨n, Db.node?_eq_some.mp hn⟩

theorem Db.node?_eq_none {id : NodeId} : db.node? id = none ↔ ∀ n ∈ db.nodes, n.id ≠ id :=
  Table.find?_eq_none

/-- One row that is changed, after others may have gone. -/
theorem ReportsRaised.of_modify {nodes : Table NodeRow.key} {id : NodeId}
    {u : Table.Update NodeRow.key} (hnodes : db'.nodes = nodes.modify id u)
    (hsub : ∀ m ∈ nodes, m ∈ db.nodes)
    (hraise : ∀ m ∈ db.nodes, m.id = id → m.revision < (u.apply m).revision →
      rows.countP (fun c => c.node_id = some id ∧ c.revision = some (u.apply m).revision) = 1) :
    ReportsRaised rows db db' := by
  intro n hn m hm hid hlt
  rw [hnodes] at hm
  obtain ⟨x, hx, rfl⟩ := Table.mem_modify.mp hm
  have hkey : (if NodeRow.key x = id then u.apply x else x).id = x.id := by
    split
    · exact u.key_apply x
    · rfl
  obtain rfl := db.node_ext hn (hsub x hx) (hid.trans hkey)
  by_cases hx : NodeRow.key n = id
  · rw [if_pos hx] at hlt ⊢
    rw [show (u.apply n).id = n.id from u.key_apply n, show n.id = id from hx]
    exact hraise n hn hx hlt
  · rw [if_neg hx] at hlt
    exact absurd hlt (lt_irrefl _)

/-- New nodes raise no revision. -/
theorem ReportsRaised.of_added (hadded : ∀ m ∈ db'.nodes, m ∈ db.nodes ∨ db.node? m.id = none) :
    ReportsRaised rows db db' := by
  intro n hn m hm hid hlt
  obtain hm | hnew := hadded m hm
  · rw [db.node_ext hn hm hid] at hlt
    exact absurd hlt (lt_irrefl _)
  · exact absurd hid (Db.node?_eq_none.mp hnew n hn)

theorem ReportsCreated.of_stored (hstored : ∀ m ∈ db'.nodes, ∃ n ∈ db.nodes, n.id = m.id) :
    ReportsCreated rows db db' := by
  intro m hm hnew _
  obtain ⟨n, hn, hid⟩ := hstored m hm
  exact absurd hid (Db.node?_eq_none.mp hnew n hn)

theorem ReportsCreated.of_modify {nodes : Table NodeRow.key} {id : NodeId}
    {u : Table.Update NodeRow.key} (hnodes : db'.nodes = nodes.modify id u)
    (hsub : ∀ m ∈ nodes, m ∈ db.nodes) : ReportsCreated rows db db' := by
  refine .of_stored (fun m hm => ?_)
  rw [hnodes] at hm
  obtain ⟨x, hx, rfl⟩ := Table.mem_modify.mp hm
  refine ⟨x, hsub x hx, ?_⟩
  split
  · exact (u.key_apply x).symm
  · rfl

/-- Each new node is the named one or hangs under another new one. -/
theorem ReportsCreated.of_added (hadded : ∀ m ∈ db'.nodes, m ∈ db.nodes ∨ mentions m.id rows = 1 ∨
    ∃ up, m.parent_id = some up ∧ db.node? up = none) : ReportsCreated rows db db' := by
  intro m hm hnew hup
  obtain hm | hone | ⟨up, hparent, hnone⟩ := hadded m hm
  · exact absurd rfl (Db.node?_eq_none.mp hnew m hm)
  · exact hone
  · have hsome := hup up hparent
    rw [hnone] at hsome
    cases hsome

theorem ReportsDeleted.of_kept (hkept : ∀ n ∈ db.nodes, ∃ m ∈ db'.nodes, m.id = n.id) :
    ReportsDeleted rows db db' := by
  intro n hn hgone _
  obtain ⟨m, hm, hid⟩ := hkept n hn
  exact absurd hid (Db.node?_eq_none.mp hgone m hm)

theorem ReportsDeleted.of_modify {id : NodeId} {u : Table.Update NodeRow.key}
    (hnodes : db'.nodes = db.nodes.modify id u) :
    ReportsDeleted rows db db' := by
  refine .of_kept (fun n hn => ⟨_, hnodes ▸ Table.mem_modify.mpr ⟨n, hn, rfl⟩, ?_⟩)
  split
  · exact u.key_apply n
  · rfl

/-- The top of a purged subtree is the purged node. -/
theorem ReportsDeleted.of_purge {id : NodeId} (hnodes : db'.nodes = (db.purge id).nodes)
    (hone : mentions id rows = 1) :
    ReportsDeleted rows db db' := by
  intro n hn hgone hup
  have hbelow : Below db.parent n.id id := by
    by_contra hnot
    exact Db.node?_eq_none.mp hgone n (hnodes ▸ Db.mem_purge_nodes.mpr ⟨hn, hnot⟩) rfl
  cases hparent : n.parent_id with
  | none =>
    rw [hbelow.eq_of_root (by rw [Db.parent_of_mem hn, hparent])]
    exact hone
  | some up =>
    obtain rfl | hbelow' := hbelow.eq_or_parent (by rw [Db.parent_of_mem hn, hparent])
    · exact hone
    · obtain ⟨p, hp, rfl⟩ := Db.node?_isSome (hup up hparent)
      exact absurd hbelow' (Db.mem_purge_nodes.mp (hnodes ▸ hp)).2

end reports

/-- What the rows appended by a change report. -/
structure Reports (ws : WorkspaceId) (rows : List ChangeRow) (db db' : Db) : Prop where
  feeds : Feeds ws rows db db'
  raised : ReportsRaised rows db db'
  created : ReportsCreated rows db db'
  deleted : ReportsDeleted rows db db'

/-- The operation touches a file that is there. -/
def TouchesFile (db : Db) (ws : WorkspaceId) : BatchOperation → Prop
  | .Touch path _ => ∃ node, resolve db ws path = some node
  | _ => False

/-- What the rows appended by an operation report. A touch of an existing file
and an overwritten destination are left open. -/
structure Reported (ws : WorkspaceId) (operation : BatchOperation) (rows : List ChangeRow)
    (db db' : Db) : Prop where
  feeds : Feeds ws rows db db'
  raised : ¬ TouchesFile db ws operation → ReportsRaised rows db db'
  created : ReportsCreated rows db db'
  deleted : ¬ Overwrites db ws operation → ReportsDeleted rows db db'

theorem Reports.weaken {ws : WorkspaceId} {operation : BatchOperation} {rows : List ChangeRow}
    {db db' : Db} (h : Reports ws rows db db') : Reported ws operation rows db db' :=
  ⟨h.feeds, fun _ => h.raised, h.created, fun _ => h.deleted⟩

namespace Reports

variable {ws : WorkspaceId} {rows : List ChangeRow} {db db' : Db}

/-- A change that leaves the nodes alone has nothing to report. -/
theorem of_same (hfeeds : Feeds ws rows db db') (hnodes : db'.nodes = db.nodes) :
    Reports ws rows db db' where
  feeds := hfeeds
  raised := .of_added (fun _ hm => Or.inl (hnodes ▸ hm))
  created := .of_stored (fun m hm => ⟨m, hnodes ▸ hm, rfl⟩)
  deleted := .of_kept (fun n hn => ⟨n, hnodes ▸ hn, rfl⟩)

theorem refl (ws : WorkspaceId) (db : Db) : Reports ws [] db db := of_same (Feeds.refl ws db) rfl

/-- What was written before without a node or a change does not matter. -/
theorem frame (h : Reports ws rows db db') {db₀ : Db} (hnodes : db.nodes = db₀.nodes)
    (hchanges : db.changes = db₀.changes) (hworkspaces : db.workspaces = db₀.workspaces) :
    Reports ws rows db₀ db' where
  feeds := h.feeds.congr hchanges hworkspaces rfl rfl
  raised n hn := h.raised n (hnodes ▸ hn)
  created m hm hnew hup := by
    simp only [Db.node?, ← hnodes] at hnew hup
    exact h.created m hm hnew hup
  deleted n hn := h.deleted n (hnodes ▸ hn)

/-- One row that is changed and reported with its next revision. -/
theorem of_modify {kind : ChangeKind} {old_path new_path : Option Text} {now : Int}
    {actor_json : Text} {sequence : Nat} {n : NodeRow} {u : Table.Update NodeRow.key}
    (hn : n ∈ db.nodes) (hraise : (u.apply n).revision = n.revision + 1)
    (hnodes : db'.nodes = db.nodes.modify n.id u)
    (hfeeds : Feeds ws [⟨ws, sequence, kind, some n.id, old_path, new_path, some (n.revision + 1),
    now, actor_json⟩] db db') :
    Reports ws [⟨ws, sequence, kind, some n.id, old_path, new_path, some (n.revision + 1), now,
      actor_json⟩] db db' where
  feeds := hfeeds
  raised := by
    refine .of_modify hnodes (fun m hm => hm) (fun m hm hid _ => ?_)
    rw [db.node_ext hm hn hid, hraise]
    simp
  created := .of_modify hnodes (fun m hm => hm)
  deleted := .of_modify hnodes

/-- One new node, reported by its row. -/
theorem of_insert {kind : ChangeKind} {old_path new_path : Option Text} {revision : Option Nat}
    {now : Int} {actor_json : Text} {sequence : Nat} {n : NodeRow}
    (hins : db.nodes.insert n = some db'.nodes)
    (hfeeds : Feeds ws [⟨ws, sequence, kind, some n.id, old_path, new_path, revision, now,
    actor_json⟩] db db') :
    Reports ws [⟨ws, sequence, kind, some n.id, old_path, new_path, revision, now,
      actor_json⟩] db db' where
  feeds := hfeeds
  raised := by
    refine .of_added (fun m hm => ?_)
    obtain hm | rfl := (Table.mem_insert hins).mp hm
    · exact Or.inl hm
    · exact Or.inr (Table.insert_eq_some.mp hins).1
  created := by
    refine .of_added (fun m hm => ?_)
    obtain hm | rfl := (Table.mem_insert hins).mp hm
    · exact Or.inl hm
    · exact Or.inr (Or.inl (by simp [mentions]))
  deleted := .of_kept (fun n hn => ⟨n, (Table.mem_insert hins).mpr (Or.inl hn), rfl⟩)

/-- A purged subtree, reported by the row of its top. -/
theorem of_purge {kind : ChangeKind} {old_path new_path : Option Text} {revision : Option Nat}
    {now : Int} {actor_json : Text} {sequence : Nat} {id : NodeId}
    (hnodes : db'.nodes = (db.purge id).nodes)
    (hfeeds : Feeds ws [⟨ws, sequence, kind, some id, old_path, new_path, revision, now,
    actor_json⟩] db db') :
    Reports ws [⟨ws, sequence, kind, some id, old_path, new_path, revision, now,
      actor_json⟩] db db' where
  feeds := hfeeds
  raised := .of_added (fun _ hm => Or.inl (Db.mem_purge_nodes.mp (hnodes ▸ hm)).1)
  created := .of_stored (fun m hm => ⟨m, (Db.mem_purge_nodes.mp (hnodes ▸ hm)).1, rfl⟩)
  deleted := .of_purge hnodes (by simp [mentions])

end Reports

section operations

variable {rt : Runtime} {ws : WorkspaceId} {w w' : World} {actor_json : Text}

/-- The directories that are made one below the other, each with its row: only
the first one hangs under a directory that was there before. -/
theorem directory.Nested.feeds {up last : NodeId} {path last_path : VirtualPath} {names : List Text}
    (h : Nested rt ws up path names w last last_path w') : ∃ rows, Feeds ws rows w.db w'.db ∧
      (∀ c ∈ rows, ∃ id, c.node_id = some id ∧ Drawn rt w.tick w'.tick id) ∧
      ∀ m ∈ w'.db.nodes, m ∈ w.db.nodes ∨ Drawn rt w.tick w'.tick m.id ∧
        ∃ p, m.parent_id = some p ∧
        (p = up ∧ mentions m.id rows = 1 ∨ Drawn rt w.tick w'.tick p) := by
  induction h with
  | done => exact ⟨[], Feeds.refl _ _, by simp, fun m hm => Or.inl hm⟩
  | @make up last path joined last_path name names w w₁ w' nodes hjoin hins htick happ hrest ih =>
    obtain ⟨rows, hfeeds, hdrawn, hadded⟩ := ih
    obtain ⟨sequence, now, actor_json, hfirst⟩ := happ.feeds w.db rfl rfl
    have htick' := hrest.fresh.1
    have hself : Drawn rt w.tick w'.tick (rt.newId w.tick) := ⟨w.tick, le_refl _, by omega, rfl⟩
    refine ⟨_, hfirst.trans hfeeds, fun c hc => ?_, fun m hm => ?_⟩
    · obtain hc | hc := List.mem_append.mp hc
      · rw [List.mem_singleton.mp hc]
        exact ⟨_, rfl, hself⟩
      · obtain ⟨id, hid, hid'⟩ := hdrawn c hc
        exact ⟨id, hid, hid'.mono (by omega) (le_refl _)⟩
    · obtain hm | ⟨hid, p, hp, hplace⟩ := hadded m hm
      · rw [happ.appended.nodes] at hm
        obtain hm | rfl := (Table.mem_insert hins).mp hm
        · exact Or.inl hm
        · refine Or.inr ⟨hself, up, rfl, Or.inl ⟨rfl, ?_⟩⟩
          -- the later rows name identifiers drawn later
          have hlater : mentions (rt.newId w.tick) rows = 0 := by
            refine List.countP_eq_zero.mpr (fun c hc => ?_)
            obtain ⟨id, hcid, hid⟩ := hdrawn c hc
            have hearlier : Drawn rt 0 w₁.tick (rt.newId w.tick) :=
              ⟨w.tick, Nat.zero_le _, by omega, rfl⟩
            simp only [decide_eq_true_eq]
            intro hsame
            rw [hcid, Option.some.injEq] at hsame
            exact hearlier.disjoint (hsame ▸ hid)
          unfold mentions at hlater ⊢
          rw [List.countP_append,
            show (directoryRow (rt.newId w.tick) ws up name (rt.nowMs (w.tick + 1))).id =
            rt.newId w.tick from rfl, hlater]
          simp
      · refine Or.inr ⟨hid.mono (by omega) (le_refl _), p, hp, Or.inr ?_⟩
        obtain ⟨rfl, _⟩ | hp := hplace
        · exact hself
        · exact hp.mono (by omega) (le_refl _)

theorem directory.Nested.kept {up last : NodeId} {path last_path : VirtualPath} {names : List Text}
    (h : Nested rt ws up path names w last last_path w') : ∀ n ∈ w.db.nodes, n ∈ w'.db.nodes := by
  induction h with
  | done => exact fun n hn => hn
  | make hjoin hins htick happ hrest ih =>
    intro n hn
    refine ih n ?_
    rw [happ.appended.nodes]
    exact (Table.mem_insert hins).mpr (Or.inl hn)

theorem mutate.Attributed.reports {kind : ChangeKind} {path : VirtualPath} {node : RawNode}
    (hlive : IsLive w.db ws node) (h : Attributed rt ws kind path w w' node) :
    ∃ rows, Reports ws rows w.db w'.db := by
  obtain ⟨attributes, _, _, happ⟩ := h
  obtain ⟨n, rfl, hn⟩ := hlive
  obtain ⟨sequence, now, actor_json, hfeeds⟩ := happ.feeds w.db rfl rfl
  exact ⟨_, .of_modify (u := revised (n.revision + 1)
    (rt.nowMs w.tick)) hn.mem rfl happ.appended.nodes hfeeds⟩

theorem content.Finalized.reports {path : VirtualPath} {g : GenerationId} {length : Nat}
    {params : FinalizeParams} {row : RawNode} (h : Finalized rt ws path g length params w w' row) :
    ∃ rows, Reports ws rows w.db w'.db := by
  cases h with
  | created habsent hparent_path hparent hdir hcreate hname hallowed hins htick happ =>
    obtain ⟨sequence, now, actor_json, hfeeds⟩ := happ.feeds w.db rfl rfl
    exact ⟨_, .of_insert (by rw [happ.appended.nodes]; exact hins) hfeeds⟩
  | @replaced n db hfound hlive hkind hstale hallowed htick happ hdrop hframe =>
    obtain ⟨sequence, now, actor_json, hfeeds⟩ := happ.feeds w.db rfl rfl
    obtain ⟨hnodes, hworkspaces, hchanges⟩ := hframe
    exact ⟨_, .of_modify (u :=
      content.replaced g length (n.revision + 1) (rt.nowMs w.tick)) hlive.mem rfl
      (hnodes.trans happ.appended.nodes) (hfeeds.congr rfl rfl hchanges hworkspaces)⟩

/-- Identifiers that are drawn later are not stored yet. -/
theorem Db.node?_drawn (hissued : ∀ n ∈ w.db.nodes, Drawn rt 0 w.tick n.id) {upper : Nat}
    {id : NodeId} (hid : Drawn rt w.tick upper id) : w.db.node? id = none :=
  Db.node?_eq_none.mpr (fun n hn heq => (hissued n hn).disjoint (heq ▸ hid))

theorem mkdir_reports {path : VirtualPath} {options : CreateOptions} {outcome : MkdirOutcome}
    (hwf : WellFormed w.db) (hissued : ∀ n ∈ w.db.nodes, Drawn rt 0 w.tick n.id)
    (h : mkdir_tx rt ws path.segments options actor_json w = .ok (outcome, w')) :
    ∃ rows, Reports ws rows w.db w'.db := by
  obtain ⟨rfl, _⟩ | ⟨_, _, _, _, _, _, _, _, _, hnested⟩ :=
    mkdir_tx_ok hwf (fun s hs => VirtualPath.segment_of_mem hs) h
  · exact ⟨[], .refl _ _⟩
  · obtain ⟨rows, hfeeds, _, hadded⟩ := hnested.feeds
    refine ⟨rows, hfeeds, .of_added (fun m hm => ?_), .of_added (fun m hm => ?_),
      .of_kept (fun n hn => ?_)⟩
    · exact (hadded m hm).imp_right (fun hnew => Db.node?_drawn hissued hnew.1)
    · obtain hm | ⟨_, p, hp, ⟨_, hone⟩ | hdrawn⟩ := hadded m hm
      · exact Or.inl hm
      · exact Or.inr (Or.inl hone)
      · exact Or.inr (Or.inr ⟨p, hp, Db.node?_drawn hissued hdrawn⟩)
    · exact ⟨n, hnested.kept n hn, rfl⟩

theorem copy_reported {source_path target : VirtualPath} {options : CopyOptions}
    {outcome : CopyOutcome} (hissued : ∀ n ∈ w.db.nodes, Drawn rt 0 w.tick n.id)
    (h : copy_tx rt ws source_path target options actor_json w = .ok (outcome, w')) :
    ∃ rows, Reported ws (.Copy source_path target options) rows w.db w'.db := by
  obtain ⟨rfl, _⟩ | ⟨source, parent, name, existing, row, w₁, _, hcopies, hcopy, htick, happ⟩ :=
    copy_tx_ok h
  · exact ⟨[], (Reports.refl _ _).weaken⟩
  · obtain ⟨full, generation, w₂, _, rfl, hins, htick₁, hframed, hgrown⟩ := copy_subtree_ok hcopy
    have hframe : Framed (w.db.overwritten existing) w₁.db := hframed.trans hgrown.framed
    obtain ⟨sequence, now, actor_json, hfeeds⟩ := happ.feeds w.db
      (hframe.changes.trans (Db.overwritten_changes _ _))
        (hframe.workspaces.trans (Db.overwritten_workspaces _ _))
    have htick₂ := hgrown.tick
    simp only at htick₁ hins
    have hadded : ∀ m ∈ w'.db.nodes, m ∈ w.db.nodes ∨ Drawn rt w.tick w₁.tick m.id ∧
        (m.id = rt.newId (w.tick + 1) ∨ ∃ up, m.parent_id = some up ∧
          Drawn rt w.tick w₁.tick up) := by
      intro m hm
      rw [happ.appended.nodes] at hm
      obtain hm | ⟨hdrawn, _, up, hup, hup'⟩ := hgrown.added m hm
      · obtain hm | rfl := (Table.mem_insert hins).mp hm
        · exact Or.inl (overwritten_mem hm)
        · exact Or.inr ⟨⟨w.tick + 1, by omega, by omega, rfl⟩, Or.inl rfl⟩
      · exact Or.inr ⟨hdrawn.mono (by omega) (le_refl _),
          Or.inr ⟨up, hup, hup'.mono (by simp) (le_refl _)⟩⟩
    refine ⟨_, hfeeds, fun _ => .of_added (fun m hm => ?_), .of_added (fun m hm => ?_), fun hfree =>
      .of_kept (fun n hn => ?_)⟩
    · exact (hadded m hm).imp_right (fun hnew => Db.node?_drawn hissued hnew.1)
    · obtain hm | ⟨_, hid | ⟨up, hup, hdrawn⟩⟩ := hadded m hm
      · exact Or.inl hm
      · exact Or.inr (Or.inl (by simp [mentions, hid, copiedRow]))
      · exact Or.inr (Or.inr ⟨up, hup, Db.node?_drawn hissued hdrawn⟩)
    · cases existing with
      | some existing => exact absurd ⟨source, parent, name, existing, hcopies⟩ hfree
      | none =>
        refine ⟨n, ?_, rfl⟩
        rw [happ.appended.nodes]
        exact hgrown.kept n ((Table.mem_insert hins).mpr (Or.inl hn))

theorem move_reported {source_path target : VirtualPath} {options : MoveOptions}
    {outcome : MoveOutcome} (h : move_tx rt ws source_path target options actor_json w = .ok
    (outcome, w')) :
    ∃ rows, Reported ws (.Move source_path target options) rows w.db w'.db := by
  obtain ⟨rfl, _⟩ | ⟨source, parent, name, existing, db, _, hmoves, hupdate, _, happ⟩ :=
    move_tx_ok h
  · exact ⟨[], (Reports.refl _ _).weaken⟩
  · obtain rfl := Db.update_node_ok hupdate
    obtain ⟨n, rfl, hn⟩ := resolve_following_live hmoves.found
    obtain ⟨sequence, now, actor_json, hfeeds⟩ := happ.feeds w.db (Db.overwritten_changes _ _)
      (Db.overwritten_workspaces _ _)
    refine ⟨_, hfeeds, fun _ => .of_modify happ.appended.nodes (fun m hm => overwritten_mem hm)
      (fun m hm hid _ => ?_),
      .of_modify happ.appended.nodes (fun m hm => overwritten_mem hm), fun hfree => ?_⟩
    · obtain rfl := w.db.node_ext hm hn.mem hid
      simp [moved]
    · cases existing with
      | some existing => exact absurd ⟨n.toRawNode, parent, name, existing, hmoves⟩ hfree
      | none => exact .of_modify happ.appended.nodes

theorem touch_reported {path : VirtualPath} {options : TouchOptions} {outcome : TouchOutcome}
    (hwf : WellFormed w.db) (h : touch_tx rt ws path options actor_json w = .ok (outcome, w')) :
    ∃ rows, Reported ws (.Touch path options) rows w.db w'.db := by
  cases hfound : resolve.resolve w.db ws path with
  | some node =>
    obtain ⟨rfl, _⟩ | ⟨n, row, _, _, hlive, _, _, rfl⟩ := touch_existing_ok hfound h
    · exact ⟨[], (Reports.refl _ _).weaken⟩
    · exact ⟨[], Feeds.nothing rfl rfl, fun hfree => absurd ⟨node, hfound⟩ hfree,
        .of_modify rfl (fun m hm => hm),
        fun _ => .of_modify rfl⟩
  | none =>
    obtain ⟨_, rfl, _⟩ | ⟨_, w₁, hcreate, result, hfinal, _⟩ := touch_absent_ok hfound h
    · exact ⟨[], (Reports.refl _ _).weaken⟩
    · obtain ⟨_, _, _, rfl⟩ := create_generation_ok hcreate
      obtain ⟨rfl, _⟩ | ⟨row, _, hfinal⟩ := finalize_tx_ok hfinal
      · refine ⟨[], Reports.weaken (.of_same (.nothing ?_ ?_) ?_)⟩ <;> rfl
      · obtain ⟨rows, hreports⟩ := hfinal.reports
        have hframed : Reports ws rows w.db w'.db := hreports.frame rfl rfl rfl
        exact ⟨rows, hframed.weaken⟩

/-- What the rows of one committed operation report. -/
theorem transact_reported {operation : BatchOperation} {outcome : Outcome operation}
    (hwf : WellFormed w.db) (hissued : ∀ n ∈ w.db.nodes, Drawn rt 0 w.tick n.id)
    (h : transact rt ws actor_json operation w = .ok (outcome, w')) :
    ∃ rows, Reported ws operation rows w.db w'.db := by
  have hreported : (∃ rows, Reports ws rows w.db w'.db) → ∃ rows,
    Reported ws operation rows w.db w'.db :=
    fun ⟨rows, hreports⟩ => ⟨rows, hreports.weaken⟩
  cases operation with
  | Mkdir path options => exact hreported (mkdir_reports hwf hissued h)
  | Touch path options => exact touch_reported hwf h
  | Copy source target options => exact copy_reported hissued h
  | Move source target options => exact move_reported h
  | Remove path options =>
    obtain ⟨rfl, _⟩ | ⟨node, _, _, _, happ⟩ := remove_tx_ok h
    · exact hreported ⟨[], .refl _ _⟩
    · obtain ⟨sequence, now, actor_json, hfeeds⟩ := happ.feeds w.db rfl rfl
      exact hreported ⟨_, .of_purge happ.appended.nodes hfeeds⟩
  | Symlink target link options =>
    obtain ⟨rfl, _⟩ | ⟨parent, name, nodes, _, _, hins, htick, happ⟩ := symlink_tx_ok h
    · exact hreported ⟨[], .refl _ _⟩
    · obtain ⟨sequence, now, actor_json, hfeeds⟩ := happ.feeds w.db rfl rfl
      exact hreported ⟨_, .of_insert (by rw [happ.appended.nodes]; exact hins) hfeeds⟩
  | Trash path options =>
    obtain ⟨rfl, _⟩ | ⟨node, up, records, _, _, _, _, _, happ⟩ := trash_tx_ok h
    · exact hreported ⟨[], .refl _ _⟩
    · obtain ⟨sequence, now, actor_json, hfeeds⟩ := happ.feeds w.db rfl rfl
      exact hreported ⟨_, hfeeds,
        .of_modify happ.appended.nodes (fun m hm => hm) (fun m _ _ hlt => absurd hlt (lt_irrefl _)),
        .of_modify happ.appended.nodes (fun m hm => hm), .of_modify happ.appended.nodes⟩
  | Restore trash_id destination options =>
    obtain ⟨rfl, _⟩ | ⟨record, node, parent, name, db, row, _, hrestores, hupdate, _, happ, _⟩ :=
      restore_tx_ok h
    · exact hreported ⟨[], .refl _ _⟩
    · obtain rfl := Db.update_node_ok hupdate
      obtain ⟨n, hn, rfl, _, _⟩ := fetch_by_id_any_eq_some.mp hrestores.stored
      obtain ⟨sequence, now, actor_json, hfeeds⟩ := happ.feeds w.db rfl rfl
      exact hreported ⟨_, .of_modify
        (u := restored parent.id name (n.revision + 1) (rt.nowMs w.tick)) hn rfl
        happ.appended.nodes hfeeds⟩
  | Purge trash_id =>
    obtain ⟨rfl, _⟩ | ⟨record, _, _, _, happ⟩ := purge_tx_ok h
    · exact hreported ⟨[], .refl _ _⟩
    · obtain ⟨sequence, now, actor_json, hfeeds⟩ := happ.feeds w.db rfl rfl
      exact hreported ⟨_, .of_purge happ.appended.nodes hfeeds⟩
  | SetAttribute path key value options =>
    obtain ⟨rfl, _⟩ | ⟨node, _, _, _, hfound, _, h⟩ := set_attribute_tx_ok h
    · exact hreported ⟨[], .refl _ _⟩
    · exact hreported (h.reports (resolve_following_live hfound))
  | RemoveAttribute path key options =>
    obtain ⟨rfl, _⟩ | ⟨node, _, _, _, hfound, _, rfl | h⟩ := remove_attribute_tx_ok hwf.nodes h
    · exact hreported ⟨[], .refl _ _⟩
    · exact hreported ⟨[], .refl _ _⟩
    · exact hreported (h.reports (resolve_following_live hfound))

end operations

/-- The rows of a batch are those of its operations, one after the other; `R` says
what the rows of one operation are. -/
inductive Batched (rt : Runtime)
    (R : WorkspaceId → BatchOperation → List ChangeRow → Db → Db → Prop) (ws : WorkspaceId)
    (actor_json : Text) : List BatchOperation → World → List ChangeRow → World → Prop where
  | done (w : World) : Batched rt R ws actor_json [] w [] w
  | step {operation : BatchOperation} {rest : List BatchOperation} {result : BatchResult}
    {w w₁ w' : World}
      {rows rows' : List ChangeRow}
      (hstep : execute_batch_operation rt ws operation actor_json w = .ok (.Result result, w₁))
      (hrows : R ws operation rows w.db w₁.db)
        (hrest : Batched rt R ws actor_json rest w₁ rows' w') :
      Batched rt R ws actor_json (operation :: rest) w (rows ++ rows') w'

section batch

variable {rt : Runtime} {R : WorkspaceId → BatchOperation → List ChangeRow → Db → Db → Prop}

theorem Batched.feeds {ws : WorkspaceId} {actor_json : Text} {operations : List BatchOperation}
    {w w' : World} {rows : List ChangeRow} (h : Batched rt R ws actor_json operations w rows w')
    (hfeeds : ∀ ws operation rows db db', R ws operation rows db db' → Feeds ws rows db db') :
    Feeds ws rows w.db w'.db := by
  induction h with
  | done w => exact Feeds.refl _ _
  | step _ hrows _ ih => exact (hfeeds _ _ _ _ _ hrows).trans ih

/-- What holds of the rows of each operation holds of the parts of a batch. -/
theorem batch_loop_batched {ctx : RequestContext} {actor_json : Text} {index : Nat}
    {results results' : List BatchResult} {operations : List BatchOperation} {w w' : World}
    (hnothing : ∀ ws operation db, R ws operation [] db db)
    (htransact : ∀ w ws actor_json operation outcome w', Ongoing rt w →
      transact rt ws actor_json operation w = .ok (outcome, w') → ∃ rows,
        R ws operation rows w.db w'.db)
    (hongoing : Ongoing rt w)
    (h : batch_loop rt ctx actor_json index results operations w = .ok (.Completed results', w')) :
    ∃ rows, Batched rt R ctx.workspace_id actor_json operations w rows w' := by
  induction operations generalizing index results w with
  | nil =>
    obtain ⟨_, rfl⟩ := Tx.pure_eq_ok.mp h
    exact ⟨[], .done w⟩
  | cons operation rest ih =>
    unfold batch_loop at h
    split at h
    · obtain ⟨heq, _⟩ := Tx.pure_eq_ok.mp h
      cases heq
    · obtain ⟨step, w₁, hstep, h⟩ := Tx.bind_eq_ok.mp h
      cases step with
      | Result result =>
        obtain ⟨rows', hrest⟩ := ih (.next hongoing hstep) h
        obtain rfl | ⟨outcome, hrun⟩ := execute_batch_operation_ok hstep
        · exact ⟨_, .step hstep (hnothing _ _ _) hrest⟩
        · obtain ⟨rows, hrows⟩ := htransact _ _ _ _ _ _ hongoing hrun
          exact ⟨_, .step hstep hrows hrest⟩
      | Failed error =>
        obtain ⟨heq, _⟩ := Tx.pure_eq_ok.mp h
        cases heq

end batch

theorem Ongoing.numbered {rt : Runtime} {w : World} (h : Ongoing rt w) : Numbered w.db := by
  induction h with
  | start h =>
    obtain ⟨c, hreached, rfl⟩ := h
    have hallowed : Reached rt (fun c _ o => Policy.any.Allows rt c.state o) c :=
      hreached.mono (fun _ hp => hp) (fun c _ o _ => Policy.allows_any rt c.state o)
    exact hallowed.invariant Numbered.empty (fun hedit hwf => hedit.numbered hwf)
  | @next w w' ws actor_json operation result hongoing hstep ih =>
    obtain rfl | ⟨outcome, hrun⟩ := execute_batch_operation_ok hstep
    · exact ih
    · have heffect : Effect rt Policy.any none w w' :=
        transact_effect hongoing.sound.wf (hongoing.sound.laid not_false)
          (Policy.permits_any _ _ _) hrun
      exact (heffect.edits.preserve (fun _ hid => Or.inr hid) hongoing.sound.wf
        (fun hedit hwf => hedit.numbered hwf) ih).2

/-- The feed is complete: it is numbered without gap or repeat, and the rows of
every committed operation and of every commit of a content continue its
numbers, name each node whose revision is raised, and name the top of what is
created and deleted. The rows of a batch are those of its operations. -/
theorem Ongoing.reported {rt : Runtime} {w : World} (h : Ongoing rt w) :
    Numbered w.db ∧ (∀ ws actor_json operation outcome w',
      transact rt ws actor_json operation w = .ok (outcome, w') →
      ∃ rows, Reported ws operation rows w.db w'.db) ∧
    (∀ ws path g length params actor_json outcome w',
      finalize_tx rt ws path g length params actor_json w = .ok (outcome, w') → ∃ rows,
        Reports ws rows w.db w'.db) ∧
    ∀ ctx operations actor_json results w',
      batch_tx rt ctx operations actor_json w = .ok (.Completed results, w') →
        ∃ rows, Feeds ctx.workspace_id rows w.db w'.db ∧
          Batched rt Reported ctx.workspace_id actor_json operations w rows w' := by
  refine ⟨h.numbered, fun ws actor_json operation outcome w' hrun =>
    transact_reported h.sound.wf h.sound.issued.node hrun,
    fun ws path g length params actor_json outcome w' hrun => ?_,
      fun ctx operations actor_json results w' hrun => ?_⟩
  · obtain ⟨rfl, _⟩ | ⟨row, _, hfinal⟩ := finalize_tx_ok hrun
    · exact ⟨[], .refl _ _⟩
    · exact hfinal.reports
  · obtain ⟨rows, hbatched⟩ := batch_loop_batched (fun _ _ _ => (Reports.refl _ _).weaken)
      (fun _ _ _ _ _ _ hongoing =>
        transact_reported hongoing.sound.wf hongoing.sound.issued.node) h hrun
    exact ⟨rows, hbatched.feeds (fun _ _ _ _ _ hreported => hreported.feeds), hbatched⟩

theorem Tx.eq_ok_of_toOption {A : Type} {x : Except Fault A} {a : A} (h : x.toOption = some a) :
    x = .ok a := by
  cases x with
  | error fault => cases h
  | ok b =>
    cases h
    rfl

/-- Making `/a/d` in the workspace of the nested directories is reported. -/
theorem nested_reported : ∃ outcome w' rows,
    transact Runtime.counting 0 []
      (.Mkdir (.ofSegments [['a'], ['d']] (by decide)) {}) nestedWorld = .ok (outcome, w') ∧
    w'.db.nodes.rows.length = nestedWorld.db.nodes.rows.length + 1 ∧
    Reported 0 (.Mkdir (.ofSegments [['a'], ['d']] (by decide)) {}) rows nestedWorld.db w'.db := by
  have hlength : ((transact Runtime.counting 0 []
    (.Mkdir (.ofSegments [['a'], ['d']] (by decide)) {})
      nestedWorld).toOption.map (fun p => p.2.db.nodes.rows.length)) =
        some (nestedWorld.db.nodes.rows.length + 1) := by
    decide +kernel
  obtain ⟨⟨outcome, w'⟩, hrun, hlength⟩ := Option.map_eq_some_iff.mp hlength
  have hok := Tx.eq_ok_of_toOption hrun
  have hongoing : Ongoing Runtime.counting nestedWorld := .start ((Reachable.empty _).serveAll _)
  obtain ⟨rows, hreported⟩ := hongoing.reported.2.1 0 [] _ outcome w' hok
  exact ⟨outcome, w', rows, hok, hlength, hreported⟩

/-- A new workspace. -/
def freshWorld : World := serveAll Runtime.counting [(.trusted 0, .CreateWorkspace {})]
    ⟨Db.empty, 0⟩

/-- The directory `/x` is made and gets an attribute, in one batch. -/
def markedWorld : World :=
  serveAll Runtime.counting [(.trusted 0, .Batch [.Mkdir (.named [['x']]) {},
    .SetAttribute (.named [['x']]) ['k'] [] {}])] freshWorld

/-- The rows of a batch name the same new node twice. -/
theorem marked_reported_twice : Reachable Runtime.counting freshWorld ∧
    ∃ rows, markedWorld.db.changes.rows = freshWorld.db.changes.rows ++ rows ∧
      ¬ ReportsCreated rows freshWorld.db markedWorld.db := by
  refine ⟨(Reachable.empty _).serveAll _,
    markedWorld.db.changes.rows.drop freshWorld.db.changes.rows.length,
    by decide +kernel, fun hcreated => ?_⟩
  have htwice : ∃ m ∈ markedWorld.db.nodes.rows, freshWorld.db.node? m.id = none ∧
      (∃ p ∈ freshWorld.db.nodes.rows, m.parent_id = some p.id) ∧
      mentions m.id (markedWorld.db.changes.rows.drop freshWorld.db.changes.rows.length) =
        2 := by decide +kernel
  obtain ⟨m, hm, hnew, ⟨p, hp, hup⟩, htwice⟩ := htwice
  have hone := hcreated m hm hnew (fun up hparent => by
    rw [hup, Option.some.injEq] at hparent
    rw [← hparent, show freshWorld.db.node? p.id = some p from Db.node?_of_mem hp]
    rfl)
  rw [htwice] at hone
  cases hone

end fslite
