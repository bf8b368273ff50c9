import Fslite.Sqlite.Run.Feed

namespace fslite

open resolve directory content mutate trash

/-- The kinds of change after which the node is at a path. -/
def ChangeKind.arrives : ChangeKind → Bool
  | .Created | .Modified | .Copied | .Moved | .AttributeSet | .AttributeRemoved => true
  | _ => false

/-- The kinds of change before which the node was at a path that it leaves. -/
def ChangeKind.departs : ChangeKind → Bool
  | .Moved | .Removed | .Trashed => true
  | _ => false

/-- The row's new path leads to the node that it names, at the revision that it gives. -/
def Arrives (db : Db) (ws : WorkspaceId) (c : ChangeRow) : Prop :=
  ∃ path raw, c.new_path = some (VirtualPath.as_str path) ∧
    resolve_following db ws path false = .Found raw ∧
    c.node_id = some raw.id ∧ c.revision = some raw.revision

/-- The row's old path leads to the node that it names. -/
def Departs (db : Db) (ws : WorkspaceId) (c : ChangeRow) : Prop :=
  ∃ path raw, c.old_path = some (VirtualPath.as_str path) ∧
    resolve_following db ws path false = .Found raw ∧
    c.node_id = some raw.id

/-- The paths in the rows appended by a change lead to the nodes they name. -/
structure Locates (ws : WorkspaceId) (rows : List ChangeRow) (db db' : Db) : Prop where
  feeds : Feeds ws rows db db'
  arrives : ∀ c ∈ rows, c.kind.arrives = true → Arrives db' ws c
  departs : ∀ c ∈ rows, c.kind.departs = true → Departs db ws c

/-- What a copy or a move takes away is not on the way to its destination. -/
def Undisturbed (db : Db) (ws : WorkspaceId) : BatchOperation → Prop
  | .Copy source_path target options => ∀ source parent name existing,
    Copies db ws source_path target options source parent name existing →
      ∃ parent_path, target.parent = some parent_path ∧
        resolve_following (db.overwritten existing) ws parent_path true = .Found parent
  | .Move source_path target options => ∀ source parent name existing,
    Moves db ws source_path target options source parent name existing →
      MoveSafe db ws target source parent existing
  | _ => True

/-- What the paths in the rows of an operation are. A copy or a move that takes
away what is on the way to its destination is left open. -/
structure Located (ws : WorkspaceId) (operation : BatchOperation) (rows : List ChangeRow)
    (db db' : Db) : Prop where
  feeds : Feeds ws rows db db'
  arrives : Undisturbed db ws operation → ∀ c ∈ rows, c.kind.arrives = true → Arrives db' ws c
  departs : ∀ c ∈ rows, c.kind.departs = true → Departs db ws c

theorem Locates.weaken {ws : WorkspaceId} {operation : BatchOperation} {rows : List ChangeRow}
    {db db' : Db} (h : Locates ws rows db db') : Located ws operation rows db db' :=
    ⟨h.feeds, fun _ => h.arrives, h.departs⟩

theorem Locates.nothing {ws : WorkspaceId} {db db' : Db} (hfeeds : Feeds ws [] db db') :
    Locates ws [] db db' :=
  ⟨hfeeds, fun c hc => (by cases hc), fun c hc => (by cases hc)⟩

/-- One row that says where a node is and leaves nothing. -/
theorem Locates.of_arrival {ws : WorkspaceId} {db db' : Db} {kind : ChangeKind}
    {old_path : Option Text} {path : VirtualPath} {sequence revision : Nat} {id : NodeId}
    {now : Int} {actor_json : Text} {raw : RawNode} (hkind : kind.departs = false)
    (hfound : resolve_following db' ws path false = .Found raw) (hid : raw.id = id)
    (hrevision : raw.revision = revision)
    (hfeeds : Feeds ws [⟨ws, sequence, kind, some id, old_path, some path.as_str, some revision,
    now, actor_json⟩] db db') :
    Locates ws [⟨ws, sequence, kind, some id, old_path, some path.as_str, some revision, now,
      actor_json⟩] db db' where
  feeds := hfeeds
  arrives c hc _ := by
    rw [List.mem_singleton.mp hc]
    exact ⟨path, raw, rfl, hfound, by rw [hid], by rw [hrevision]⟩
  departs c hc hdeparts := by
    rw [List.mem_singleton.mp hc, hkind] at hdeparts
    cases hdeparts

/-- One row that says which path a node leaves. -/
theorem Locates.of_departure {ws : WorkspaceId} {db db' : Db} {kind : ChangeKind}
    {new_path : Option Text} {path : VirtualPath} {revision : Option Nat} {sequence : Nat}
    {now : Int} {actor_json : Text} {raw : RawNode} (hkind : kind.arrives = false)
    (hfound : resolve_following db ws path false = .Found raw)
    (hfeeds : Feeds ws [⟨ws, sequence, kind, some raw.id, some path.as_str, new_path, revision, now,
    actor_json⟩] db db') :
    Locates ws [⟨ws, sequence, kind, some raw.id, some path.as_str, new_path, revision, now,
      actor_json⟩] db db' where
  feeds := hfeeds
  arrives c hc harrives := by
    rw [List.mem_singleton.mp hc, hkind] at harrives
    cases harrives
  departs c hc _ := by
    rw [List.mem_singleton.mp hc]
    exact ⟨path, raw, rfl, hfound, rfl⟩

/-- One row that says of no path that it leads to the node. -/
theorem Locates.of_silence {ws : WorkspaceId} {db db' : Db} {c : ChangeRow}
    (harrives : c.kind.arrives = false) (hdeparts : c.kind.departs = false)
    (hfeeds : Feeds ws [c] db db') : Locates ws [c] db db' where
  feeds := hfeeds
  arrives c' hc h := by
    rw [List.mem_singleton.mp hc, harrives] at h
    cases h
  departs c' hc h := by
    rw [List.mem_singleton.mp hc, hdeparts] at h
    cases h

section operations

variable {rt : Runtime} {ws : WorkspaceId} {w w' : World} {actor_json : Text}

theorem directory.Nested.arrive {up last : NodeId} {path last_path : VirtualPath}
    {names : List Text} {base : RawNode} (h : Nested rt ws up path names w last last_path w')
    (hwf : NodesWellFormed w'.db) (hbase : resolve w'.db ws path = some base) (hid : base.id = up)
    (hdir : base.kind = .Directory) :
    ∃ rows, Feeds ws rows w.db w'.db ∧ ∀ c ∈ rows, c.kind = .Created ∧ Arrives w'.db ws c := by
  induction h generalizing base with
  | done => exact ⟨[], Feeds.refl _ _, fun c hc => by cases hc⟩
  | @make up last path joined last_path name names w w₁ w' nodes hjoin hins htick happ hrest ih =>
    obtain ⟨sequence, now, actor_json, hfirst⟩ := happ.feeds w.db rfl rfl
    have hrow : directoryRow (rt.newId w.tick) ws up name
        (rt.nowMs (w.tick + 1)) ∈ w'.db.nodes := by
      refine hrest.kept _ ?_
      rw [happ.appended.nodes]
      exact (Table.mem_insert hins).mpr (Or.inr rfl)
    have hfound := resolve_child hwf hjoin hbase hdir hrow rfl (hid ▸ rfl) rfl
    obtain ⟨rows, hfeeds, hrows⟩ := ih hwf hfound rfl rfl
    refine ⟨_, hfirst.trans hfeeds, fun c hc => ?_⟩
    obtain hc | hc := List.mem_append.mp hc
    · rw [List.mem_singleton.mp hc]
      exact ⟨rfl, joined, _, rfl, resolve_following_of_resolve hfound
        (fun hfollow => (by cases hfollow)), rfl, rfl⟩
    · exact hrows c hc

theorem mkdir_locates {path : VirtualPath} {options : CreateOptions} {outcome : MkdirOutcome}
    (hwf : WellFormed w.db) (hwf' : NodesWellFormed w'.db)
    (h : mkdir_tx rt ws path.segments options actor_json w = .ok (outcome, w')) :
    ∃ rows, Locates ws rows w.db w'.db := by
  obtain ⟨rfl, _⟩ | ⟨row, existing, made, base, base_path, last_path, _, hmakes, hsegments,
    hnested⟩ :=
    mkdir_tx_ok hwf (fun s hs => VirtualPath.segment_of_mem hs) h
  · exact ⟨[], .nothing (Feeds.refl _ _)⟩
  · subst hsegments
    have hbase := hmakes.resolve_base
    obtain ⟨rows, hfeeds, hrows⟩ :=
      hnested.arrive hwf' ((extends_of_subset hwf' hnested.kept).resolve_path hbase) rfl hmakes.dir
    refine ⟨rows, hfeeds, fun c hc _ => (hrows c hc).2, fun c hc hdeparts => ?_⟩
    rw [(hrows c hc).1] at hdeparts
    cases hdeparts

theorem content.Finalized.nodesWellFormed {path : VirtualPath} {g : GenerationId} {length : Nat}
    {params : FinalizeParams} {row : RawNode} (hwf : NodesWellFormed w.db)
    (h : Finalized rt ws path g length params w w' row) :
    NodesWellFormed w'.db := by
  cases h with
  | @created parent_path parent name nodes habsent hparent_path hparent hdir hcreate hname hallowed hins htick happ =>
    obtain ⟨p, rfl, hp⟩ := resolve_live hparent
    refine happ.appended.nodesWellFormed
      ((hwf.insert hp.mem hdir rfl hp.workspace ?_ ?_ Nat.one_pos hins).frame rfl
      (fun _ => Iff.rfl))
    · rw [VirtualPath.name_eq] at hname
      exact VirtualPath.segment_of_mem (List.mem_of_getLast? hname)
    · intro m hm hws hup hname' hactive
      exact hallowed.free rfl p.id rfl m hm
        (Table.find?_eq_none.mp (Table.insert_eq_some.mp hins).1 m hm) hws hup hname'
        hactive
  | @replaced n db hfound hlive hkind hstale hallowed htick happ hdrop hframe =>
    obtain ⟨hnodes, hworkspaces, _⟩ := hframe
    refine (happ.appended.nodesWellFormed ((hwf.modify_in_place
      (u := content.replaced g length (n.revision + 1) (rt.nowMs w.tick)) hlive.mem rfl rfl rfl rfl
        (fun _ => hlive.active) (fun hact => hact) (Nat.succ_pos _)).frame rfl
      (fun _ => Iff.rfl))).frame hnodes (fun id => ?_)
    simp only [Db.workspace?, hworkspaces]

/-- The path leads to the committed file. -/
theorem content.Finalized.found {path : VirtualPath} {g : GenerationId} {length : Nat}
    {params : FinalizeParams} {row : RawNode} (hwf' : NodesWellFormed w'.db)
    (h : Finalized rt ws path g length params w w' row) :
    ∃ raw, resolve w'.db ws path = some raw ∧ raw.id = row.id ∧ raw.revision = row.revision ∧
    raw.kind = .File ∧
      raw.content_generation_id = some g ∧ raw.size = length := by
  cases h with
  | @created parent_path parent name nodes habsent hparent_path hparent hdir hcreate hname hallowed hins htick happ =>
    have hnodes : w'.db.nodes = nodes := happ.appended.nodes
    have hsub : ∀ m ∈ w.db.nodes, m ∈ w'.db.nodes :=
      fun m hm => hnodes ▸ (Table.mem_insert hins).mpr (Or.inl hm)
    obtain ⟨up, hup, hsegments⟩ := VirtualPath.parent_of_name hname
    rw [hparent_path, Option.some.injEq] at hup
    subst hup
    exact ⟨_, resolve_child (n :=
      fileRow (rt.newId w.tick) ws parent.id name g length (rt.nowMs (w.tick + 1))) hwf'
      hsegments ((extends_of_subset hwf' hsub).resolve_path hparent) hdir
      (hnodes ▸ (Table.mem_insert hins).mpr (Or.inr rfl)) rfl rfl rfl, rfl, rfl, rfl, rfl, rfl⟩
  | @replaced n db hfound hlive hkind hstale hallowed htick happ hdrop hframe =>
    have hextends : Extends ws _ w.db w'.db := extends_of_modify (ψ := fun raw => { raw with
        content_generation_id := some g, size := length, revision :=
          n.revision + 1, modified_at_ms := rt.nowMs w.tick
        accessed_at_ms := rt.nowMs w.tick }) hwf' (hframe.1.trans happ.appended.nodes)
          (fun _ => rfl)
      (fun _ => ⟨rfl, rfl, rfl, rfl⟩) (fun _ => ⟨rfl, rfl, rfl⟩)
    have hfound' := hextends.resolve_path hfound
    simp only [if_true] at hfound'
    exact ⟨_, hfound', rfl, rfl, hkind, rfl, rfl⟩

theorem content.Finalized.locates {path : VirtualPath} {g : GenerationId} {length : Nat}
    {params : FinalizeParams} {row : RawNode} (hwf' : NodesWellFormed w'.db)
    (h : Finalized rt ws path g length params w w' row) :
    ∃ rows, Locates ws rows w.db w'.db ∧ ∀ c ∈ rows, c.kind.departs = false := by
  have hstays : ∀ {c : ChangeRow}, c.kind.departs = false → ∀ c' ∈ [c],
      c'.kind.departs = false := by
    intro c hc c' hc'
    rwa [List.mem_singleton.mp hc']
  obtain ⟨raw, hfound, hid, hrevision, hfile, _⟩ := h.found hwf'
  have hfollowed : resolve_following w'.db ws path false = .Found raw :=
    resolve_following_of_resolve hfound (fun hfollow => by cases hfollow)
  cases h with
  | created habsent hparent_path hparent hdir hcreate hname hallowed hins htick happ =>
    obtain ⟨sequence, now, actor_json, hfeeds⟩ := happ.feeds w.db rfl rfl
    exact ⟨_, .of_arrival rfl hfollowed hid hrevision hfeeds, hstays rfl⟩
  | replaced hfound hlive hkind hstale hallowed htick happ hdrop hframe =>
    obtain ⟨sequence, now, actor_json, hfeeds⟩ := happ.feeds w.db rfl rfl
    obtain ⟨_, hworkspaces, hchanges⟩ := hframe
    exact ⟨_, .of_arrival rfl hfollowed hid hrevision (hfeeds.congr rfl rfl hchanges hworkspaces),
      hstays rfl⟩

theorem mutate.Attributed.locates {kind : ChangeKind} {path : VirtualPath} {node : RawNode}
    (hkind : kind.departs = false) (hwf' : NodesWellFormed w'.db)
    (hfound : resolve_following w.db ws path false = .Found node)
    (h : Attributed rt ws kind path w w' node) : ∃ rows, Locates ws rows w.db w'.db := by
  obtain ⟨attributes, _, _, happ⟩ := h
  obtain ⟨sequence, now, actor_json, hfeeds⟩ := happ.feeds w.db rfl rfl
  have hextends : Extends ws _ w.db w'.db := extends_of_modify (ψ := fun raw => { raw with
      revision := node.revision + 1, modified_at_ms := rt.nowMs w.tick }) hwf' happ.appended.nodes
        (fun _ => rfl)
    (fun _ => ⟨rfl, rfl, rfl, rfl⟩) (fun _ => ⟨rfl, rfl, rfl⟩)
  have hfound' := hextends.resolve_following hfound
  simp only [if_true] at hfound'
  exact ⟨_, .of_arrival hkind hfound' rfl rfl hfeeds⟩

/-- The path of a link leads to it once it is stored. -/
theorem mutate.Links.leads {link : VirtualPath} {parent : RawNode} {name target_str : Text}
    {id : NodeId} {now : Int} {db' : Db} (h : Links w.db ws link parent name)
    (hwf' : NodesWellFormed db') (hsub : ∀ m ∈ w.db.nodes, m ∈ db'.nodes)
    (hrow : linkRow id ws parent.id name target_str now ∈ db'.nodes) :
    resolve_following db' ws link false =
      .Found (linkRow id ws parent.id name target_str now).toRawNode := by
  obtain ⟨parent_path, hparent_path, hparent⟩ := h.found
  obtain ⟨up, hup, hsegments⟩ := VirtualPath.parent_of_name h.named
  rw [hparent_path, Option.some.injEq] at hup
  subst hup
  exact resolve_following_child hwf' hsegments
    ((extends_of_subset hwf' hsub).resolve_following hparent) h.dir hrow rfl rfl rfl

theorem symlink_locates {link : VirtualPath} {target_str : Text} {options : CreateOptions}
    {outcome : SymlinkOutcome} (hwf' : NodesWellFormed w'.db)
    (h : symlink_tx rt ws link target_str options actor_json w = .ok (outcome, w')) :
    ∃ rows, Locates ws rows w.db w'.db := by
  obtain ⟨rfl, _⟩ | ⟨parent, name, nodes, _, hlinks, hins, htick, happ⟩ := symlink_tx_ok h
  · exact ⟨[], .nothing (Feeds.refl _ _)⟩
  · obtain ⟨sequence, now, actor_json, hfeeds⟩ := happ.feeds w.db rfl rfl
    have hnodes : w'.db.nodes = nodes := happ.appended.nodes
    have hsub : ∀ m ∈ w.db.nodes, m ∈ w'.db.nodes :=
      fun m hm => hnodes ▸ (Table.mem_insert hins).mpr (Or.inl hm)
    have hfound := hlinks.leads hwf' hsub (hnodes ▸ (Table.mem_insert hins).mpr (Or.inr rfl))
    exact ⟨_, .of_arrival rfl hfound rfl rfl hfeeds⟩

theorem copy_located {source_path target : VirtualPath} {options : CopyOptions}
    {outcome : CopyOutcome} (hwf' : NodesWellFormed w'.db)
    (h : copy_tx rt ws source_path target options actor_json w = .ok (outcome, w')) :
    ∃ rows, Located ws (.Copy source_path target options) rows w.db w'.db := by
  obtain ⟨rfl, _⟩ | ⟨source, parent, name, existing, row, w₁, _, hcopies, hcopy, htick, happ⟩ :=
    copy_tx_ok h
  · exact ⟨[], (Locates.nothing (Feeds.refl _ _)).weaken⟩
  · obtain ⟨full, generation, w₂, _, rfl, hins, _, hframed, hgrown⟩ := copy_subtree_ok hcopy
    have hframe : Framed (w.db.overwritten existing) w₁.db := hframed.trans hgrown.framed
    obtain ⟨sequence, now, actor_json, hfeeds⟩ := happ.feeds w.db
      (hframe.changes.trans (Db.overwritten_changes _ _))
        (hframe.workspaces.trans (Db.overwritten_workspaces _ _))
    have hnodes : w'.db.nodes = w₁.db.nodes := happ.appended.nodes
    have hsub : ∀ m ∈ (w.db.overwritten existing).nodes, m ∈ w'.db.nodes := fun m hm =>
      hnodes ▸ hgrown.kept m ((Table.mem_insert hins).mpr (Or.inl hm))
    refine ⟨_, hfeeds, fun hundisturbed c hc _ => ?_, fun c hc hdeparts => ?_⟩
    · obtain ⟨parent_path, hparent_path, hparent⟩ :=
        hundisturbed source parent name existing hcopies
      obtain ⟨up, hup, hsegments⟩ := VirtualPath.parent_of_name hcopies.dest.named
      rw [hparent_path, Option.some.injEq] at hup
      subst hup
      have hfound := resolve_following_child
        (n := copiedRow (rt.newId (w.tick + 1)) ws parent.id name full generation
        (rt.nowMs w.tick)) hwf' hsegments
          ((extends_of_subset hwf' hsub).resolve_following hparent) hcopies.dest.dir
        (hnodes ▸ hgrown.kept _ ((Table.mem_insert hins).mpr (Or.inr rfl))) rfl rfl rfl
      rw [List.mem_singleton.mp hc]
      exact ⟨target, _, rfl, hfound, rfl, rfl⟩
    · rw [List.mem_singleton.mp hc] at hdeparts
      cases hdeparts

theorem move_located {source_path target : VirtualPath} {options : MoveOptions}
    {outcome : MoveOutcome} (hwf : WellFormed w.db)
    (h : move_tx rt ws source_path target options actor_json w = .ok (outcome, w')) :
    ∃ rows, Located ws (.Move source_path target options) rows w.db w'.db := by
  obtain ⟨rfl, _⟩ | ⟨source, parent, name, existing, db, rfl, hmoves, hupdate, _, happ⟩ :=
    move_tx_ok h
  · exact ⟨[], (Locates.nothing (Feeds.refl _ _)).weaken⟩
  · obtain rfl := Db.update_node_ok hupdate
    obtain ⟨sequence, now, actor_json, hfeeds⟩ := happ.feeds w.db (Db.overwritten_changes _ _)
      (Db.overwritten_workspaces _ _)
    refine ⟨_, hfeeds, fun hundisturbed c hc _ => ?_, fun c hc _ => ?_⟩
    · have hkeeps := moveKeeps_of_safe hwf hmoves h (hundisturbed source parent name existing hmoves)
      rw [List.mem_singleton.mp hc]
      exact ⟨target, _, rfl, hkeeps.found, rfl, rfl⟩
    · rw [List.mem_singleton.mp hc]
      exact ⟨source_path, source, rfl, hmoves.found, rfl⟩

theorem touch_locates {path : VirtualPath} {options : TouchOptions} {outcome : TouchOutcome}
    (hwf' : NodesWellFormed w'.db)
    (h : touch_tx rt ws path options actor_json w = .ok (outcome, w')) :
    ∃ rows, Locates ws rows w.db w'.db := by
  cases hfound : resolve.resolve w.db ws path with
  | some node =>
    obtain ⟨rfl, _⟩ | ⟨n, row, _, _, hlive, _, _, rfl⟩ := touch_existing_ok hfound h
    · exact ⟨[], .nothing (Feeds.refl _ _)⟩
    · exact ⟨[], .nothing (Feeds.nothing rfl rfl)⟩
  | none =>
    obtain ⟨_, rfl, _⟩ | ⟨_, w₁, hcreate, result, hfinal, _⟩ := touch_absent_ok hfound h
    · exact ⟨[], .nothing (Feeds.refl _ _)⟩
    · obtain ⟨_, _, _, rfl⟩ := create_generation_ok hcreate
      obtain ⟨rfl, _⟩ | ⟨row, _, hfinal⟩ := finalize_tx_ok hfinal
      · refine ⟨[], .nothing (.nothing ?_ ?_)⟩ <;> rfl
      · obtain ⟨rows, ⟨hfeeds, harrives, _⟩, hstays⟩ := hfinal.locates hwf'
        refine ⟨rows, hfeeds.congr rfl rfl rfl rfl, harrives, fun c hc hdeparts => ?_⟩
        rw [hstays c hc] at hdeparts
        cases hdeparts

/-- Where the paths in the rows of one committed operation lead. -/
theorem transact_located {operation : BatchOperation} {outcome : Outcome operation}
    (hwf : WellFormed w.db) (hwf' : NodesWellFormed w'.db)
    (h : transact rt ws actor_json operation w = .ok (outcome, w')) :
    ∃ rows, Located ws operation rows w.db w'.db := by
  have hlocated : (∃ rows, Locates ws rows w.db w'.db) → ∃ rows,
    Located ws operation rows w.db w'.db :=
    fun ⟨rows, hlocates⟩ => ⟨rows, hlocates.weaken⟩
  cases operation with
  | Mkdir path options => exact hlocated (mkdir_locates hwf hwf' h)
  | Touch path options => exact hlocated (touch_locates hwf' h)
  | Copy source target options => exact copy_located hwf' h
  | Move source target options => exact move_located hwf h
  | Remove path options =>
    obtain ⟨rfl, _⟩ | ⟨node, _, hremoves, _, happ⟩ := remove_tx_ok h
    · exact hlocated ⟨[], .nothing (Feeds.refl _ _)⟩
    · obtain ⟨sequence, now, actor_json, hfeeds⟩ := happ.feeds w.db rfl rfl
      exact hlocated ⟨_, .of_departure rfl hremoves.found hfeeds⟩
  | Symlink target link options => exact hlocated (symlink_locates hwf' h)
  | Trash path options =>
    obtain ⟨rfl, _⟩ | ⟨node, up, records, _, htrashes, _, _, _, happ⟩ := trash_tx_ok h
    · exact hlocated ⟨[], .nothing (Feeds.refl _ _)⟩
    · obtain ⟨sequence, now, actor_json, hfeeds⟩ := happ.feeds w.db rfl rfl
      exact hlocated ⟨_, .of_departure rfl htrashes.found hfeeds⟩
  | Restore trash_id destination options =>
    obtain ⟨rfl, _⟩ | ⟨record, node, parent, name, db, row, _, hrestores, hupdate, _, happ, _⟩ :=
      restore_tx_ok h
    · exact hlocated ⟨[], .nothing (Feeds.refl _ _)⟩
    · obtain rfl := Db.update_node_ok hupdate
      obtain ⟨sequence, now, actor_json, hfeeds⟩ := happ.feeds w.db rfl rfl
      exact hlocated ⟨_, .of_silence rfl rfl hfeeds⟩
  | Purge trash_id =>
    obtain ⟨rfl, _⟩ | ⟨record, _, _, _, happ⟩ := purge_tx_ok h
    · exact hlocated ⟨[], .nothing (Feeds.refl _ _)⟩
    · obtain ⟨sequence, now, actor_json, hfeeds⟩ := happ.feeds w.db rfl rfl
      exact hlocated ⟨_, .of_silence rfl rfl hfeeds⟩
  | SetAttribute path key value options =>
    obtain ⟨rfl, _⟩ | ⟨node, _, _, _, hfound, _, h⟩ := set_attribute_tx_ok h
    · exact hlocated ⟨[], .nothing (Feeds.refl _ _)⟩
    · exact hlocated (h.locates rfl hwf' hfound)
  | RemoveAttribute path key options =>
    obtain ⟨rfl, _⟩ | ⟨node, _, _, _, hfound, _, rfl | h⟩ := remove_attribute_tx_ok hwf.nodes h
    · exact hlocated ⟨[], .nothing (Feeds.refl _ _)⟩
    · exact hlocated ⟨[], .nothing (Feeds.refl _ _)⟩
    · exact hlocated (h.locates rfl hwf' hfound)

end operations

/-- The feed is sound: right after an operation (or the commit of a content) the
new path of each row of a kind that leaves the node somewhere leads to the node
the row names, at the row's revision, and right before it the old path of each
row of a kind that takes the node away led to that node. The rows of a batch are
those of its operations. -/
theorem Ongoing.located {rt : Runtime} {w : World} (h : Ongoing rt w) :
    (∀ ws actor_json operation outcome w', transact rt ws actor_json operation w = .ok
    (outcome, w') →
      ∃ rows, Located ws operation rows w.db w'.db) ∧
    (∀ ws path g length params actor_json outcome w',
      finalize_tx rt ws path g length params actor_json w = .ok (outcome, w') → ∃ rows,
        Locates ws rows w.db w'.db) ∧
    ∀ ctx operations actor_json results w',
      batch_tx rt ctx operations actor_json w = .ok (.Completed results, w') →
        ∃ rows, Feeds ctx.workspace_id rows w.db w'.db ∧
          Batched rt Located ctx.workspace_id actor_json operations w rows w' := by
  have htransact : ∀ w ws actor_json operation outcome w', Ongoing rt w →
      transact rt ws actor_json operation w = .ok (outcome, w') → ∃ rows,
        Located ws operation rows w.db w'.db := by
    intro w ws actor_json operation outcome w' hongoing hrun
    have hwf := hongoing.sound.wf
    have heffect : Effect rt Policy.any none w w' :=
      transact_effect hwf (hongoing.sound.laid not_false) (Policy.permits_any _ _ _) hrun
    exact transact_located hwf (heffect.wellFormed hwf).nodes hrun
  refine ⟨fun ws actor_json operation outcome w' hrun =>
    htransact w ws actor_json operation outcome w' h hrun,
    fun ws path g length params actor_json outcome w' hrun => ?_,
      fun ctx operations actor_json results w' hrun => ?_⟩
  · obtain ⟨rfl, _⟩ | ⟨row, _, hfinal⟩ := finalize_tx_ok hrun
    · exact ⟨[], .nothing (Feeds.refl _ _)⟩
    · obtain ⟨rows, hlocates, _⟩ := hfinal.locates (hfinal.nodesWellFormed h.sound.wf.nodes)
      exact ⟨rows, hlocates⟩
  · obtain ⟨rows, hbatched⟩ :=
      batch_loop_batched (fun _ _ _ => (Locates.nothing (Feeds.refl _ _)).weaken) htransact h hrun
    exact ⟨rows, hbatched.feeds (fun _ _ _ _ _ hlocated => hlocated.feeds), hbatched⟩

/-- Where the row of making `/a/d` in the workspace of the nested directories leads. -/
theorem nested_located : ∃ outcome w' rows,
    transact Runtime.counting 0 []
      (.Mkdir (.ofSegments [['a'], ['d']] (by decide)) {}) nestedWorld = .ok (outcome, w') ∧
    w'.db.changes.rows.length = nestedWorld.db.changes.rows.length + 1 ∧
    Located 0 (.Mkdir (.ofSegments [['a'], ['d']] (by decide)) {}) rows nestedWorld.db w'.db := by
  have hlength : ((transact Runtime.counting 0 []
    (.Mkdir (.ofSegments [['a'], ['d']] (by decide)) {})
      nestedWorld).toOption.map (fun p => p.2.db.changes.rows.length)) =
        some (nestedWorld.db.changes.rows.length + 1) := by
    decide +kernel
  obtain ⟨⟨outcome, w'⟩, hrun, hlength⟩ := Option.map_eq_some_iff.mp hlength
  have hok := Tx.eq_ok_of_toOption hrun
  have hongoing : Ongoing Runtime.counting nestedWorld := .start ((Reachable.empty _).serveAll _)
  obtain ⟨rows, hlocated⟩ := hongoing.located.1 0 [] _ outcome w' hok
  exact ⟨outcome, w', rows, hok, hlength, hlocated⟩

/-- The directory `/x` is made and put into the trash. -/
def trashedWorld : World :=
  serveAll Runtime.counting [(.trusted 0, .Perform (.Mkdir (.named [['x']]) {})),
    (.trusted 0, .Perform (.Trash (.named [['x']]) {}))] freshWorld

/-- The row of its restoration says of no path that it leads to the directory. -/
theorem trashed_restored_nowhere : Reachable Runtime.counting trashedWorld ∧
    ∃ outcome w', transact Runtime.counting 0 [] (.Restore 5 none {}) trashedWorld = .ok
      (outcome, w') ∧
      ∃ c ∈ w'.db.changes.rows.drop trashedWorld.db.changes.rows.length, c.kind = .Restored ∧
      ¬ Arrives w'.db 0 c := by
  refine ⟨((Reachable.empty _).serveAll _).serveAll _, ?_⟩
  have hrow : ((transact Runtime.counting 0 [] (.Restore 5 none {}) trashedWorld).toOption.any
    (fun p =>
      (p.2.db.changes.rows.drop trashedWorld.db.changes.rows.length).any (fun c =>
        decide (c.kind = .Restored) && c.new_path.isNone))) = true := by decide +kernel
  obtain ⟨⟨outcome, w'⟩, hrun, hrow⟩ := (Option.any_eq_true _ _).mp hrow
  obtain ⟨c, hc, hkind⟩ := List.any_eq_true.mp hrow
  simp only [Bool.and_eq_true, decide_eq_true_eq, Option.isNone_iff_eq_none] at hkind
  refine ⟨outcome, w', Tx.eq_ok_of_toOption hrun, c, hc, hkind.1, fun harrives => ?_⟩
  obtain ⟨path, raw, hpath, _⟩ := harrives
  rw [hkind.2] at hpath
  cases hpath

end fslite
