import Fslite.Sqlite.Connection
import Fslite.Sqlite.Effect.Copy
import Fslite.Sqlite.Effect.Outcome

namespace fslite

open resolve mutate trash

namespace Live

variable {db : Db} {ws : WorkspaceId} {n : NodeRow}

/-- A live node climbs to a root of its workspace. -/
theorem below_root (h : Live db ws n) :
    ∃ r ∈ db.nodes, r.parent_id = none ∧ r.workspace_id = ws ∧ Below db.parent n.id r.id := by
  induction h with
  | root hmem hws hroot _ => exact ⟨_, hmem, hroot, hws, Below.refl _ _⟩
  | child _ _ hmem _ hup _ ih =>
    obtain ⟨r, hr, hroot, hws, hbelow⟩ := ih
    exact ⟨r, hr, hroot, hws, (Db.below_of_mem hmem hup).mpr (Or.inr hbelow)⟩

/-- A live node is not above its parent. -/
theorem acyclic (h : Live db ws n) {up : NodeId} (hup : n.parent_id = some up) :
    ¬ Below db.parent up n.id := by
  obtain ⟨r, hr, hroot, _, hbelow⟩ := h.below_root
  exact hbelow.acyclic (by rw [Db.parent_of_mem hr, hroot]) (by rw [Db.parent_of_mem h.mem, hup])

/-- Live nodes outside a purged subtree stay live. -/
theorem purge (h : Live db ws n) {id : NodeId} (hnot : ¬ Below db.parent n.id id) :
    Live (db.purge id) ws n := by
  induction h with
  | root hmem hws hroot hactive =>
    exact .root (Db.mem_purge_nodes.mpr ⟨hmem, hnot⟩) hws hroot hactive
  | child _ hdir hmem hws hup hactive ih =>
    refine .child (ih fun hbelow => ?_) hdir (Db.mem_purge_nodes.mpr ⟨hmem, hnot⟩) hws hup hactive
    exact hnot ((Db.below_of_mem hmem hup).mpr (Or.inr hbelow))

end Live

/-- What a policy has to allow for an operation. -/
def Policy.Permits (P : Policy) (ws : WorkspaceId) (db : Db) : BatchOperation → Prop
  | .Copy source_path target options => ∀ source parent name existing,
    Copies db ws source_path target options source parent name (some existing) →
      P.discard db existing.id
  | .Move source_path target options => ∀ source parent name existing,
    Moves db ws source_path target options source parent name existing →
      (∀ occupant, existing = some occupant → P.discard db occupant.id) ∧
      ((∃ n ∈ (db.overwritten existing).nodes, n.id = source.id) →
        P.rehang (db.overwritten existing) source.id parent.id)
  | .Remove path options => ∀ node, Removes db ws path options node → P.discard db node.id
  | .Trash path options => ∀ node, Trashes db ws path options node → P.trash db node.id
  | .Restore trash_id destination options => ∀ record node parent name,
    Restores db ws trash_id destination options record node parent name → P.restore db node.id
  | .Purge trash_id => ∀ record, fetch_trash_row db ws trash_id = some record →
    P.discard db record.node_id
  | _ => True

/-- A policy that allows every edit permits every operation. -/
theorem Policy.permits_all {P : Policy} (hrehang : ∀ db id up, P.rehang db id up)
    (hdiscard : ∀ db id, P.discard db id) (htrash : ∀ db id, P.trash db id)
    (hrestore : ∀ db id, P.restore db id) (ws : WorkspaceId) (db : Db)
    (operation : BatchOperation) : P.Permits ws db operation := by
  cases operation with
  | Copy => exact fun _ _ _ _ _ => hdiscard _ _
  | Move => exact fun _ _ _ _ _ => ⟨fun _ _ => hdiscard _ _, fun _ => hrehang _ _ _⟩
  | Remove => exact fun _ _ => hdiscard _ _
  | Trash => exact fun _ _ => htrash _ _
  | Restore => exact fun _ _ _ _ _ => hrestore _ _
  | Purge => exact fun _ _ => hdiscard _ _
  | _ => trivial

theorem Policy.permits_any (ws : WorkspaceId) (db : Db) (operation : BatchOperation) :
    Policy.any.Permits ws db operation :=
  Policy.permits_all (fun _ _ _ => trivial) (fun _ _ => trivial) (fun _ _ => trivial)
    (fun _ _ => trivial) ws db operation

namespace mutate

variable {rt : Runtime} {P : Policy} {o : Option GenerationId} {ws : WorkspaceId} {w w' : World}
  {actor_json : Text}

namespace Destined

variable {db : Db} {target : VirtualPath} {overwrite : Bool} {parent : RawNode} {name : Text}
  {existing : Option RawNode}

theorem live (h : Destined db ws target overwrite parent name existing) : IsLive db ws parent := by
  obtain ⟨_, _, hfound⟩ := h.found
  exact resolve_following_live hfound

theorem segment (h : Destined db ws target overwrite parent name existing) : Segment name := by
  have hname := h.named
  rw [VirtualPath.name_eq] at hname
  exact VirtualPath.segment_of_mem (List.mem_of_getLast? hname)

/-- The occupant of a destination is a live child of its directory. -/
theorem occupant_live {occupant : RawNode}
    (h : Destined db ws target overwrite parent name (some occupant)) :
    ∃ n, n.toRawNode = occupant ∧ Live db ws n ∧ n.parent_id = some parent.id ∧ n.name = name := by
  obtain ⟨n, hn, hraw, hws, hup, hname, hactive⟩ := fetch_child_eq_some h.occupant
  obtain ⟨p, rfl, hp⟩ := h.live
  exact ⟨n, hraw, .child hp h.dir hn hws hup hactive, hup, hname⟩

/-- Overwriting the destination leaves its directory live. -/
theorem parent_live (h : Destined db ws target overwrite parent name existing) :
    ∃ p, p.toRawNode = parent ∧ Live db ws p ∧ Live (db.overwritten existing) ws p := by
  obtain ⟨p, rfl, hp⟩ := h.live
  refine ⟨p, rfl, hp, ?_⟩
  cases existing with
  | none => exact hp
  | some occupant =>
    obtain ⟨n, rfl, hn, hup, _⟩ := h.occupant_live
    exact hp.purge (hn.acyclic hup)

/-- After the overwriting the place is free. -/
theorem free (h : Destined db ws target overwrite parent name existing) (hwf : WellFormed db) :
    (db.overwritten existing).Free ws parent.id name := by
  cases existing with
  | none => exact fetch_child_eq_none h.occupant
  | some occupant =>
    intro m hm hws hup hname hactive
    obtain ⟨n, rfl, hn, hnup, hnname⟩ := h.occupant_live
    rw [Db.overwritten, Db.mem_purge_nodes] at hm
    have heq := hwf.nodes.name m hm.1 n hn.mem (hws.trans hn.workspace.symm) (hup.trans hnup.symm)
      (by simp [hup])
      (hname.trans hnname.symm) hactive hn.active
    rw [heq] at hm
    exact hm.2 (Below.refl _ _)

/-- The overwriting purges the occupant of the destination. -/
theorem edits {fresh : Uuid → Prop} {mine : GenerationId → Prop}
    (h : Destined db ws target overwrite parent name existing)
    (hpolicy : ∀ occupant, existing = some occupant → P.discard db occupant.id) :
    Edits P fresh mine db (db.overwritten existing) := by
  cases existing with
  | none => exact Edits.refl _
  | some occupant =>
    obtain ⟨n, rfl, hn, hup, _⟩ := h.occupant_live
    exact Edits.single (.purge n hn.mem (by simp [hup]) (fun _ => hn.workspace.symm ▸ hn)
      (hpolicy _ rfl))

end Destined

theorem overwritten_mem {db : Db} {existing : Option RawNode} {m : NodeRow}
    (h : m ∈ (db.overwritten existing).nodes) :
    m ∈ db.nodes := by
  cases existing with
  | none => exact h
  | some occupant => exact (Db.mem_purge_nodes.mp h).1

/-- A live node that is still stored after an overwriting is still live. -/
theorem overwritten_live {db : Db} {existing : Option RawNode} {n : NodeRow} (h : Live db ws n)
    (hn : n ∈ (db.overwritten existing).nodes) : Live (db.overwritten existing) ws n := by
  cases existing with
  | none => exact h
  | some occupant => exact h.purge (Db.mem_purge_nodes.mp hn).2

theorem copy_tx_effect {source_path target : VirtualPath} {options : CopyOptions}
    {outcome : CopyOutcome} (hwf : WellFormed w.db) (hlaid : P.laid → LaidOut w.db)
    (hpolicy : P.Permits ws w.db (.Copy source_path target options))
    (h : copy_tx rt ws source_path target options actor_json w = .ok (outcome, w')) :
    Effect rt P o w w' := by
  obtain ⟨rfl, _⟩ | ⟨source, parent, name, existing, row, w₁, _, hcopies, hcopy, htick, happ⟩ :=
    copy_tx_ok h
  · exact Effect.refl _ _ _ _
  · have hpurge : Effect rt P o w ⟨w.db.overwritten existing, w.tick + 1⟩ := by
      refine ⟨Nat.le_succ _, hcopies.dest.edits (fun occupant hocc => ?_)⟩
      subst hocc
      exact hpolicy source parent name occupant hcopies
    have hwf₁ := hpurge.wellFormed hwf
    simp only [copy_subtree] at hcopy
    obtain ⟨full, w₂, hfull, hcopy⟩ := Tx.bind_eq_ok.mp hcopy
    have hstored : IsStored (w.db.overwritten existing) ws full ∧
        w₂ = ⟨w.db.overwritten existing, w.tick + 1⟩ := by
      simp only [fetch_full, Tx.query_bind] at hfull
      cases hrow : fetch_by_id (w.db.overwritten existing) ws source.id with
      | none => simp [hrow] at hfull
      | some raw =>
        simp only [hrow] at hfull
        obtain ⟨rfl, rfl⟩ := Tx.pure_eq_ok.mp hfull
        obtain ⟨n, hn, hraw, hws, _⟩ := fetch_by_id_eq_some.mp hrow
        exact ⟨⟨n, hn, hraw, hws⟩, rfl⟩
    obtain ⟨hfullStored, rfl⟩ := hstored
    obtain ⟨p, rfl, _, hp⟩ := hcopies.dest.parent_live
    have hpending : Pending (w.db.overwritten existing) ws [(full, p.id, name)] := by
      intro item hitem
      rw [List.mem_singleton] at hitem
      subst hitem
      exact ⟨hfullStored, ⟨p, hp.mem, rfl, hcopies.dest.dir, hp.workspace, hp.active⟩,
        hcopies.dest.segment⟩
    obtain ⟨hloop, _⟩ := copy_loop_effect (P := P) (o :=
      o) hwf₁ (fun hP => hpurge.laidOut hwf hP (hlaid hP)) hpending hcopy
    exact (hpurge.trans hloop).trans (Effect.of_edit (le_of_eq htick.symm)
      (happ.edit ⟨some source_path, rfl⟩ ⟨some target, rfl⟩ (by simp)))

theorem move_tx_effect {source_path target : VirtualPath} {options : MoveOptions}
    {outcome : MoveOutcome} (hwf : WellFormed w.db)
    (hpolicy : P.Permits ws w.db (.Move source_path target options))
    (h : move_tx rt ws source_path target options actor_json w = .ok (outcome, w')) :
    Effect rt P o w w' := by
  obtain ⟨rfl, _⟩ | ⟨source, parent, name, existing, db, _, hmoves, hupdate, htick, happ⟩ :=
    move_tx_ok h
  · exact Effect.refl _ _ _ _
  · obtain ⟨hdiscard, hrehang⟩ := hpolicy source parent name existing hmoves
    refine ⟨by omega, ((hmoves.dest.edits hdiscard).trans ?_).tail
      (happ.edit ⟨some source_path, rfl⟩ ⟨some target, rfl⟩ (by simp))⟩
    obtain ⟨n, rfl, hn⟩ := resolve_following_live hmoves.found
    obtain rfl := Db.update_node_ok hupdate
    by_cases hstored : n ∈ (w.db.overwritten existing).nodes
    · obtain ⟨p, rfl, _, hp⟩ := hmoves.dest.parent_live
      have hlive := overwritten_live hn hstored
      have hws := hn.workspace
      subst hws
      exact Edits.single (.relocate n p hlive
        (resolve_following_named hmoves.named hmoves.found) hp hmoves.dest.dir name
        hmoves.dest.segment (hmoves.dest.free hwf) (hrehang ⟨n, hstored, rfl⟩) (rt.nowMs w.tick))
    · rw [Table.modify_eq_self]
      · exact Edits.refl _
      · refine Table.find?_eq_none.mpr (fun m hm hid => hstored ?_)
        rwa [← w.db.node_ext (overwritten_mem hm) hn.mem hid]

theorem remove_tx_effect {path : VirtualPath} {options : RemoveOptions} {outcome : RemoveOutcome}
    (hpolicy : P.Permits ws w.db (.Remove path options))
    (h : remove_tx rt ws path options actor_json w = .ok (outcome, w')) : Effect rt P o w w' := by
  obtain ⟨rfl, _⟩ | ⟨node, _, hremoves, htick, happ⟩ := remove_tx_ok h
  · exact Effect.refl _ _ _ _
  · obtain ⟨n, rfl, hn⟩ := resolve_following_live hremoves.found
    refine ⟨by omega, (Edits.single (.purge n hn.mem ?_ (fun _ => hn.workspace.symm ▸ hn) (hpolicy _ hremoves))).tail
      (happ.edit ⟨some path, rfl⟩ ⟨none, rfl⟩ (by simp))⟩
    exact resolve_following_named hremoves.named hremoves.found

theorem attributed_effect {kind : ChangeKind} {path : VirtualPath} {node : RawNode}
    (hlive : IsLive w.db ws node) (h : Attributed rt ws kind path w w' node) :
    Effect rt P o w w' := by
  obtain ⟨attributes, hother, htick, happ⟩ := h
  obtain ⟨n, rfl, hn⟩ := hlive
  have hn' : Live w.db n.workspace_id n := hn.workspace.symm ▸ hn
  exact ⟨by omega, (Edits.single (.revise n hn' (revised (n.revision + 1) _) rfl attributes hother)).tail
    (happ.edit ⟨none, rfl⟩ ⟨some path, rfl⟩ (by simp))⟩

theorem set_attribute_tx_effect {path : VirtualPath} {key : Text} {value : Bytes}
    {options : MutationOptions} {outcome : AttributeOutcome}
    (h : set_attribute_tx rt ws path key value options actor_json w = .ok (outcome, w')) :
    Effect rt P o w w' := by
  obtain ⟨rfl, _⟩ | ⟨node, _, _, _, hfound, _, hattributed⟩ := set_attribute_tx_ok h
  · exact Effect.refl _ _ _ _
  · exact attributed_effect (resolve_following_live hfound) hattributed

theorem remove_attribute_tx_effect {path : VirtualPath} {key : Text} {options : MutationOptions}
    {outcome : AttributeOutcome} (hwf : WellFormed w.db)
    (h : remove_attribute_tx rt ws path key options actor_json w = .ok (outcome, w')) :
    Effect rt P o w w' := by
  obtain ⟨rfl, _⟩ | ⟨node, _, _, _, hfound, _, rfl | hattributed⟩ :=
    remove_attribute_tx_ok hwf.nodes h
  · exact Effect.refl _ _ _ _
  · exact Effect.refl _ _ _ _
  · exact attributed_effect (resolve_following_live hfound) hattributed

end mutate

namespace trash

variable {rt : Runtime} {P : Policy} {o : Option GenerationId} {ws : WorkspaceId} {w w' : World}
  {actor_json : Text}

theorem fetch_trash_row_eq_some {db : Db} {trash_id : TrashId} {record : TrashRow}
    (h : fetch_trash_row db ws trash_id = some record) :
    record ∈ db.trash ∧ record.workspace_id = ws ∧ record.id = trash_id := by
  have hp := List.find?_some h
  simp only [decide_eq_true_eq] at hp
  exact ⟨List.mem_of_find?_eq_some h, hp⟩

theorem trash_tx_effect {path : VirtualPath} {options : MutationOptions} {outcome : TrashOutcome}
    (hwf : WellFormed w.db) (hpolicy : P.Permits ws w.db (.Trash path options))
    (h : trash_tx rt ws path options actor_json w = .ok (outcome, w')) : Effect rt P o w w' := by
  obtain ⟨rfl, _⟩ | ⟨node, up, records, _, htrashes, hup, hins, htick, happ⟩ := trash_tx_ok h
  · exact Effect.refl _ _ _ _
  · obtain ⟨n, rfl, hn⟩ := resolve_following_live htrashes.found
    have hn' : Live w.db n.workspace_id n := hn.workspace.symm ▸ hn
    refine ⟨by omega, (Edits.single (.trash n hn' _ ?_ rfl hn.workspace.symm hup rfl
      (hpolicy n.toRawNode htrashes) hins _)).tail (happ.edit ⟨some path, rfl⟩ ⟨none, rfl⟩ ?_)⟩
    · exact ⟨w.tick, le_refl _, by omega, rfl⟩
    · simpa using (hwf.nodes.revision n hn.mem).ne'

/-- Where a restoration may put a node: under a live directory, or under the
untrashed directory that is still its parent. -/
theorem Returns.place {db : Db} {record : TrashRow} {destination : Option VirtualPath}
    {parent : RawNode} {name : Text} {n : NodeRow}
    (h : Returns db ws record destination parent name)
    (hup : n.parent_id = some record.original_parent_id) (hname : record.original_name = n.name)
    (hwf : WellFormed db) (hn : n ∈ db.nodes) :
    ∃ p ∈ db.nodes, p.toRawNode = parent ∧ p.kind = .Directory ∧ p.workspace_id = ws ∧
    p.trashed_at_ms = none ∧
      (Live db ws p ∨ n.parent_id = some p.id) ∧ Segment name := by
  cases h with
  | given hname hparent_path hparent hdir =>
    obtain ⟨p, rfl, hp⟩ := resolve_following_live hparent
    rw [VirtualPath.name_eq] at hname
    exact ⟨p, hp.mem, rfl, hdir, hp.workspace, hp.active, Or.inl hp,
      VirtualPath.segment_of_mem (List.mem_of_getLast? hname)⟩
  | original hparent hdir =>
    obtain ⟨p, hp, rfl, hws, hid, hactive⟩ := fetch_by_id_eq_some.mp hparent
    refine ⟨p, hp, rfl, hdir, hws, hactive, Or.inr (hid ▸ hup), ?_⟩
    rw [hname]
    exact hwf.nodes.segment n hn (by simp [hup])

theorem restore_tx_effect {trash_id : TrashId} {destination : Option VirtualPath}
    {options : MutationOptions} {outcome : RestoreOutcome} (hwf : WellFormed w.db)
    (hpolicy : P.Permits ws w.db (.Restore trash_id destination options))
    (h : restore_tx rt ws trash_id destination options actor_json w = .ok (outcome, w')) :
    Effect rt P o w w' := by
  obtain ⟨rfl, _⟩ | ⟨record, node, parent, name, db, row, _, hrestores, hupdate, htick, happ, _⟩ :=
    restore_tx_ok h
  · exact Effect.refl _ _ _ _
  · obtain ⟨hrecord, hrecordws, rfl⟩ := fetch_trash_row_eq_some hrestores.recorded
    obtain ⟨n, hn, rfl, hws, hid⟩ := fetch_by_id_any_eq_some.mp hrestores.stored
    obtain ⟨n', hn', hid', _, _, hup, hname⟩ := hwf.trash.record record hrecord
    obtain rfl := w.db.node_ext hn' hn (hid'.trans hid.symm)
    obtain ⟨p, hp, rfl, hdir, hpws, hactive, hplace, hsegment⟩ :=
      hrestores.dest.place hup hname.symm hwf hn'
    obtain rfl := Db.update_node_ok hupdate
    subst hws
    refine ⟨by omega, (Edits.single (.restore n' p hn' record hrecord hid'.symm hp hdir hpws hactive
      hplace name hsegment
      (fetch_child_eq_none hrestores.free)
        (hpolicy record n'.toRawNode p.toRawNode name hrestores) _)).tail
      (happ.edit ⟨none, rfl⟩ ⟨none, rfl⟩ (by simp))⟩

theorem purge_tx_effect {trash_id : TrashId} {outcome : PurgeOutcome} (hwf : WellFormed w.db)
    (hpolicy : P.Permits ws w.db (.Purge trash_id))
    (h : purge_tx rt ws trash_id actor_json w = .ok (outcome, w')) : Effect rt P o w w' := by
  obtain ⟨rfl, _⟩ | ⟨record, _, hrecord, htick, happ⟩ := purge_tx_ok h
  · exact Effect.refl _ _ _ _
  · obtain ⟨hmem, _, _⟩ := fetch_trash_row_eq_some hrecord
    obtain ⟨n, hn, hid, _, htrashed, hup, _⟩ := hwf.trash.record record hmem
    have hdiscard := hpolicy record hrecord
    rw [← hid] at hdiscard happ
    exact ⟨by omega, (Edits.single (.purge n hn (by simp [hup]) (fun hnone => absurd hnone htrashed) hdiscard)).tail
      (happ.edit ⟨none, rfl⟩ ⟨none, rfl⟩ (by simp))⟩

end trash

/-- The changes of an operation that the policy permits. -/
theorem transact_effect {rt : Runtime} {P : Policy} {o : Option GenerationId} {ws : WorkspaceId}
    {w w' : World} {actor_json : Text} {operation : BatchOperation} {outcome : Outcome operation}
    (hwf : WellFormed w.db) (hlaid : P.laid → LaidOut w.db) (hpolicy : P.Permits ws w.db operation)
    (h : transact rt ws actor_json operation w = .ok (outcome, w')) : Effect rt P o w w' := by
  cases operation with
  | Mkdir path options =>
    exact (directory.mkdir_tx_effect hwf (fun s hs => VirtualPath.segment_of_mem hs) h).1
  | Touch path options => exact content.touch_tx_effect hwf h
  | Copy source target options => exact copy_tx_effect hwf hlaid hpolicy h
  | Move source target options => exact move_tx_effect hwf hpolicy h
  | Remove path options => exact remove_tx_effect hpolicy h
  | Symlink target link options => exact (symlink_tx_effect h).1
  | Trash path options => exact trash_tx_effect hwf hpolicy h
  | Restore trash_id destination options => exact restore_tx_effect hwf hpolicy h
  | Purge trash_id => exact purge_tx_effect hwf hpolicy h
  | SetAttribute path key value options => exact set_attribute_tx_effect h
  | RemoveAttribute path key options => exact remove_attribute_tx_effect hwf h

end fslite
