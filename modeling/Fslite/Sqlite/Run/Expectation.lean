import Fslite.Sqlite.Run.Authority
import Fslite.Sqlite.Run.Mkdir
import Fslite.Sqlite.Run.Restore

namespace fslite

open resolve directory content mutate trash

/-- The path that a request rewrites the content of, and the revision that it expects there. -/
def Request.rewrites : Request → Option (VirtualPath × Option Revision)
  | .Write path _ options => some (path, options.expected_revision)
  | .WriteAt path _ _ options => some (path, options.expected_revision)
  | .Append path _ options => some (path, options.expected_revision)
  | .Truncate path _ options => some (path, options.expected_revision)
  | _ => none

/-- The rows that an operation returns on success. -/
def BatchOperation.Tells : (operation : BatchOperation) → Outcome operation → RawNode → Prop
  | .Mkdir .., outcome, row => outcome = .Created row ∨ outcome = .Existing row
  | .Touch .., outcome, row => outcome = .Touched row ∨ outcome = .Created row
  | .Copy .., outcome, row => outcome = .Created row
  | .Move .., outcome, row => outcome = .Moved row
  | .Symlink .., outcome, row => outcome = .Created row ∨ outcome = .Existing row
  | .Trash .., outcome, row => ∃ trash_id deleted_at_ms,
    outcome = .Trashed trash_id row deleted_at_ms
  | .Restore .., outcome, row => outcome = .Restored row
  | .SetAttribute .., outcome, row => ∃ attributes, outcome = .Updated row attributes
  | .RemoveAttribute .., outcome, row => ∃ attributes, outcome = .Updated row attributes
  | .Remove .., _, _ => False
  | .Purge .., _, _ => False

/-- A client has been told the node and its revision: by `stat`, or as the result of
a mutation of its own. -/
inductive Observes (rt : Runtime) (revision : Revision) (observed : RawNode) : World → Prop where
  | stat {w : World} {ws : WorkspaceId} {path : VirtualPath} {follow_symlinks : Bool}
    (hw : Ongoing rt w)
      (hfound : resolve_following w.db ws path follow_symlinks = .Found observed)
        (hrevision : observed.revision = revision.get) :
      Observes rt revision observed w
  | operation {w w' : World} {ws : WorkspaceId} {actor_json : Text} {operation : BatchOperation}
    {outcome : Outcome operation}
      (hw : Ongoing rt w) (hrun : transact rt ws actor_json operation w = .ok (outcome, w'))
      (htells : operation.Tells outcome observed) (hrevision : observed.revision = revision.get) :
      Observes rt revision observed w'
  | write {w w' : World} {ws : WorkspaceId} {path : VirtualPath} {g : GenerationId} {length : Nat}
    {params : FinalizeParams}
      {actor_json : Text} (hw : Ongoing rt w)
      (hrun : finalize_tx rt ws path g length params actor_json w = .ok (.Applied observed, w'))
      (hrevision : observed.revision = revision.get) : Observes rt revision observed w'

/-- A mutation that is addressed to the path and expects the revision there succeeds;
the node is the one that it finds at the path and acts on. -/
inductive Mutates (rt : Runtime) (ws : WorkspaceId) (path : VirtualPath) (revision : Revision)
    (w : World) (node : RawNode) :
    Prop where
  | write {ctx : RequestContext} {request : Request} {g : GenerationId} {length : Nat}
    {params : FinalizeParams}
      {target : VirtualPath} {actor_json : Text} {row : RawNode} {w' : World}
      (hrequest : request.rewrites = some (path, some revision))
      (hcall : (request.serve rt ctx).run.Makes (.finalize ws target g length params actor_json))
      (hfound : resolve w.db ws path = some node)
      (hrun : finalize_tx rt ws target g length params actor_json w = .ok (.Applied row, w'))
  | touch {options : TouchOptions} {actor_json : Text} {outcome : TouchOutcome} {w' : World}
      (hexpected : options.expected_revision = some revision)
        (hfound : resolve w.db ws path = some node)
      (hrun : touch_tx rt ws path options actor_json w = .ok (outcome, w')) (hdone : outcome.Done)
  | copy {target : VirtualPath} {options : CopyOptions} {actor_json : Text} {row : RawNode}
    {w' : World}
      (hexpected : options.expected_revision = some revision)
        (hfound : resolve_following w.db ws path false = .Found node)
      (hrun : copy_tx rt ws path target options actor_json w = .ok (.Created row, w'))
  | move {target : VirtualPath} {options : MoveOptions} {actor_json : Text} {row : RawNode}
    {w' : World}
      (hexpected : options.expected_revision = some revision)
        (hfound : resolve_following w.db ws path false = .Found node)
      (hrun : move_tx rt ws path target options actor_json w = .ok (.Moved row, w'))
  | remove {options : RemoveOptions} {actor_json : Text} {w' : World}
      (hexpected : options.expected_revision = some revision)
        (hfound : resolve_following w.db ws path false = .Found node)
      (hrun : remove_tx rt ws path options actor_json w = .ok (.Removed, w'))
  | trash {options : MutationOptions} {actor_json : Text} {trash_id : TrashId} {row : RawNode}
    {deleted_at_ms : Int} {w' : World}
      (hexpected : options.expected_revision = some revision)
        (hfound : resolve_following w.db ws path false = .Found node)
      (hrun : trash_tx rt ws path options actor_json w = .ok
        (.Trashed trash_id row deleted_at_ms, w'))
  | set_attribute {key : Text} {value : Bytes} {options : MutationOptions} {actor_json : Text}
    {row : RawNode}
      {attributes : Attributes} {w' : World} (hexpected : options.expected_revision = some revision)
      (hfound : resolve_following w.db ws path false = .Found node)
      (hrun : set_attribute_tx rt ws path key value options actor_json w = .ok
        (.Updated row attributes, w'))
  | remove_attribute {key : Text} {options : MutationOptions} {actor_json : Text} {row : RawNode}
    {attributes : Attributes}
      {w' : World} (hexpected : options.expected_revision = some revision)
      (hfound : resolve_following w.db ws path false = .Found node)
      (hrun : remove_attribute_tx rt ws path key options actor_json w = .ok
        (.Updated row attributes, w'))

/-- The node is the observed one, and all that a revision stands for is as it was. -/
def Unchanged (observed : RawNode) (before : Db) (node : RawNode) (db : Db) : Prop :=
  ∃ n ∈ before.nodes, ∃ m ∈ db.nodes, n.id = observed.id ∧ m.toRawNode = node ∧ n.id = m.id ∧
    SameVersion before n db m

/-- A finalization is one for the path, with the expected revision. -/
def DbCall.Carries (path : VirtualPath) (expected : Option Revision) : DbCall → Prop
  | .finalize _ target _ _ params _ => target = path ∧ params.expected_revision = expected
  | _ => True

theorem DbCall.Prepares.carries {ws : WorkspaceId} {path : VirtualPath} {expected : Option Revision}
    {o : DbCall} (h : o.Prepares ws) : o.Carries path expected := by
  cases o with
  | finalize => exact h.elim
  | _ => trivial

/-- The finalization of a request is the one that it has been asked for. -/
theorem Request.carries {rt : Runtime} {ctx : RequestContext} {request : Request}
    {path : VirtualPath} {expected : Option Revision}
    (h : request.rewrites = some (path, expected)) :
    Failing.All (DbCall.Carries path expected) (request.serve rt ctx) := by
  cases request with
  | Write path' source options =>
    cases h
    exact Failing.All.map (Task.all_guarded
      (fun _ => DbCall.Prepares.write (fun _ ho => ho.carries) (fun _ _ => ⟨rfl, rfl⟩)))
  | WriteAt path' offset source options =>
    cases h
    exact Failing.All.map (Task.all_guarded
      (fun _ => DbCall.Prepares.write_at_impl (fun _ ho => ho.carries) (fun _ _ => ⟨rfl, rfl⟩)))
  | Append path' source options =>
    cases h
    refine Failing.All.map (Task.all_guarded (fun _ => ?_))
    exact Failing.All.bind (Prog.All.mono (DbCall.Prepares.resolve_existing_file _)
      (fun _ ho => ho.carries)) (fun _ =>
      DbCall.Prepares.write_at_impl (fun _ ho => ho.carries) (fun _ _ => ⟨rfl, rfl⟩))
  | Truncate path' length options =>
    cases h
    exact Failing.All.map (Task.all_guarded
      (fun _ => DbCall.Prepares.write_at_impl (fun _ ho => ho.carries) (fun _ _ => ⟨rfl, rfl⟩)))
  | _ => cases h

section mutates

variable {rt : Runtime} {ws : WorkspaceId} {path : VirtualPath} {revision : Revision} {w w' : World}
  {node : RawNode}

/-- A mutation succeeds only on a live node of the revision that it expects. -/
theorem Mutates.current (h : Mutates rt ws path revision w node) :
    IsLive w.db ws node ∧ node.revision = revision.get := by
  cases h with
  | write hrequest hcall hfound hrun =>
    obtain ⟨rfl, hexpected⟩ := Prog.All.of_makes (Request.carries hrequest) hcall
    refine ⟨resolve_live hfound, ?_⟩
    obtain ⟨_, hnot⟩ | ⟨row, _, hfinal⟩ := finalize_tx_ok hrun
    · exact absurd rfl (hnot _)
    · cases hfinal with
      | created habsent => exact absurd (habsent.symm.trans hfound) (Option.some_ne_none node).symm
      | replaced hfound' _ _ hstale =>
        rw [hfound, Option.some.injEq] at hfound'
        subst hfound'
        exact stale_eq_false.mp hstale _ hexpected
  | touch hexpected hfound hrun hdone =>
    refine ⟨resolve_live hfound, ?_⟩
    obtain ⟨_, hnot⟩ | ⟨n, row, _, rfl, _, _, hstale, _⟩ := touch_existing_ok hfound hrun
    · exact absurd hdone hnot
    · exact stale_eq_false.mp hstale _ hexpected
  | copy hexpected hfound hrun =>
    refine ⟨resolve_following_live hfound, ?_⟩
    obtain ⟨_, hnot⟩ | ⟨source, _, _, _, _, _, _, hcopies, _⟩ := copy_tx_ok hrun
    · exact absurd rfl (hnot _)
    · obtain rfl : node = source := by simpa using hfound.symm.trans hcopies.found
      exact stale_eq_false.mp hcopies.fresh _ hexpected
  | move hexpected hfound hrun =>
    refine ⟨resolve_following_live hfound, ?_⟩
    obtain ⟨_, hnot⟩ | ⟨source, _, _, _, _, _, hmoves, _⟩ := move_tx_ok hrun
    · exact absurd rfl (hnot _)
    · obtain rfl : node = source := by simpa using hfound.symm.trans hmoves.found
      exact stale_eq_false.mp hmoves.fresh _ hexpected
  | remove hexpected hfound hrun =>
    refine ⟨resolve_following_live hfound, ?_⟩
    obtain ⟨_, hnot⟩ | ⟨removed, _, hremoves, _⟩ := remove_tx_ok hrun
    · exact absurd rfl hnot
    · obtain rfl : node = removed := by simpa using hfound.symm.trans hremoves.found
      exact stale_eq_false.mp hremoves.fresh _ hexpected
  | trash hexpected hfound hrun =>
    refine ⟨resolve_following_live hfound, ?_⟩
    obtain ⟨_, hnot⟩ | ⟨trashed, _, _, _, htrashes, _⟩ := trash_tx_ok hrun
    · exact absurd rfl (hnot _ _ _)
    · obtain rfl : node = trashed := by simpa using hfound.symm.trans htrashes.found
      exact stale_eq_false.mp htrashes.fresh _ hexpected
  | set_attribute hexpected hfound hrun =>
    refine ⟨resolve_following_live hfound, ?_⟩
    obtain ⟨_, hnot⟩ | ⟨found, _, hnode, _, hstale, _⟩ := set_attribute_tx_cases hrun
    · exact absurd rfl (hnot _ _)
    · obtain rfl : node = found := by simpa using hfound.symm.trans hnode
      exact stale_eq_false.mp hstale _ hexpected
  | remove_attribute hexpected hfound hrun =>
    refine ⟨resolve_following_live hfound, ?_⟩
    obtain ⟨_, hnot⟩ | ⟨found, _, hnode, _, hstale, _⟩ := remove_attribute_tx_cases hrun
    · exact absurd rfl (hnot _ _)
    · obtain rfl : node = found := by simpa using hfound.symm.trans hnode
      exact stale_eq_false.mp hstale _ hexpected

end mutates

/-- What a client knows of a node: the identifier has been drawn, and a node that has
it has the revision. -/
structure Known (rt : Runtime) (w : World) (row : RawNode) : Prop where
  drawn : Drawn rt 0 w.tick row.id
  revision : ∀ n ∈ w.db.nodes, n.id = row.id → n.revision = row.revision

section known

variable {rt : Runtime} {ws : WorkspaceId} {w w' : World} {row : RawNode} {actor_json : Text}

theorem Known.of_stored (hissued : Issued rt w) {n : NodeRow} (hn : n ∈ w.db.nodes) :
    Known rt w n.toRawNode :=
  ⟨hissued.node n hn, fun m hm hid => by rw [w.db.node_ext hm hn hid]⟩

theorem Known.of_live (hissued : Issued rt w) (h : IsLive w.db ws row) : Known rt w row := by
  obtain ⟨n, rfl, hn⟩ := h
  exact .of_stored hissued hn.mem

theorem Known.of_fetch (hissued : Issued rt w) {id : NodeId}
    (h : fetch_by_id w.db ws id = some row) : Known rt w row := by
  obtain ⟨n, hn, rfl, _⟩ := fetch_by_id_eq_some.mp h
  exact .of_stored hissued hn

/-- A row that has been changed has the revision that the change has given it. -/
theorem Known.of_modify {db : Db} {n : NodeRow} {u : Table.Update NodeRow.key}
    (hissued : ∀ n ∈ w.db.nodes, Drawn rt 0 w.tick n.id) (hn : n ∈ w.db.nodes)
    (htick : w.tick ≤ w'.tick) (hsub : ∀ m ∈ db.nodes, m ∈ w.db.nodes)
    (hnodes : w'.db.nodes = db.nodes.modify n.id u) (hid : row.id = n.id)
    (hrevision : (u.apply n).revision = row.revision) : Known rt w' row := by
  refine ⟨hid ▸ (hissued n hn).mono (le_refl _) htick, fun m hm hmid => ?_⟩
  rw [hnodes] at hm
  obtain ⟨x, hx, rfl⟩ := Table.mem_modify.mp hm
  split at hmid
  · rename_i hkey
    rw [if_pos hkey, w.db.node_ext (hsub x hx) hn hkey, hrevision]
  · rename_i hkey
    exact absurd (hmid.trans hid) hkey

theorem content.Finalized.known {path : VirtualPath} {g : GenerationId} {length : Nat}
    {params : FinalizeParams} (hissued : ∀ n ∈ w.db.nodes, Drawn rt 0 w.tick n.id)
    (h : Finalized rt ws path g length params w w' row) : Known rt w' row := by
  cases h with
  | created habsent hparent_path hparent hdir hcreate hname hallowed hins htick happ =>
    refine ⟨⟨w.tick, Nat.zero_le _, by omega, rfl⟩, fun n hn hid => ?_⟩
    rw [happ.appended.nodes] at hn
    obtain hn | rfl := (Table.mem_insert hins).mp hn
    · exact ((hissued n hn).disjoint ⟨w.tick, le_refl _, Nat.lt_succ_self _, hid.symm⟩).elim
    · rfl
  | replaced hfound hlive hkind hstale hallowed htick happ hdrop hframe =>
    exact .of_modify hissued hlive.mem (by omega) (fun m hm => hm)
      (hframe.1.trans happ.appended.nodes) rfl rfl

theorem mutate.symlink_tx_existing {options : CreateOptions} {link : VirtualPath}
    {target_str : Text} (h : symlink_tx rt ws link target_str options actor_json w = .ok
    (.Existing row, w')) :
    w' = w ∧ ∃ parent name, fetch_child w.db ws parent name = some row := by
  simp only [symlink_tx, Tx.expect_bind_eq_ok, Tx.query_bind] at h
  obtain ⟨name, _, parent_path, _, h⟩ := h
  cases hparent : resolve_following w.db ws parent_path true with
  | Found parent =>
    simp only [hparent] at h
    split at h
    · obtain ⟨habsurd, _⟩ := Tx.pure_eq_ok.mp h
      cases habsurd
    · simp only [Tx.query_bind] at h
      cases hexisting : fetch_child w.db ws parent.id name with
      | none =>
        simp only [hexisting, Tx.new_id_bind, Tx.now_ms_bind, Tx.execute_bind_eq_ok] at h
        obtain ⟨db, _, h⟩ := h
        obtain ⟨_, w₁, _, h⟩ := Tx.bind_eq_ok.mp h
        obtain ⟨habsurd, _⟩ := Tx.pure_eq_ok.mp h
        cases habsurd
      | some existing =>
        simp only [hexisting] at h
        split at h
        · obtain ⟨habsurd, _⟩ := Tx.pure_eq_ok.mp h
          cases habsurd
        · split at h
          · obtain ⟨habsurd, _⟩ := Tx.pure_eq_ok.mp h
            cases habsurd
          · split at h
            · obtain ⟨habsurd, _⟩ := Tx.pure_eq_ok.mp h
              cases habsurd
            · obtain ⟨heq, rfl⟩ := Tx.pure_eq_ok.mp h
              cases heq
              exact ⟨rfl, parent.id, name, hexisting⟩
  | _ =>
    simp only [hparent] at h
    obtain ⟨habsurd, _⟩ := Tx.pure_eq_ok.mp h
    cases habsurd

/-- The row that a successful operation returns is known to its client. -/
theorem transact_known {operation : BatchOperation} {outcome : Outcome operation}
    (hsound : Sound rt Policy.any False w)
    (h : transact rt ws actor_json operation w = .ok (outcome, w'))
    (htells : operation.Tells outcome row) : Known rt w' row := by
  have hwf := hsound.wf
  have hissued := hsound.issued
  have heffect : Effect rt Policy.any none w w' :=
    transact_effect hwf (hsound.laid not_false) (Policy.permits_any _ _ _) h
  have hissued' : Issued rt w' := heffect.issued hissued
  cases operation with
  | Mkdir path options =>
    obtain rfl | rfl := htells
    · obtain ⟨n, hn, rfl, _⟩ := mkdir_tx_created h
      exact .of_stored hissued' hn
    · obtain ⟨rfl, hfound, _⟩ := mkdir_tx_existing hwf h
      exact .of_live hissued (resolve_live hfound)
  | Touch path options =>
    cases hfound : resolve.resolve w.db ws path with
    | some node =>
      obtain ⟨_, hnot⟩ | ⟨n, updated, ⟨rfl, _, hupdated⟩, _⟩ := touch_existing_ok hfound h
      · obtain rfl | rfl := htells <;> exact absurd trivial hnot
      · obtain hsame | habsurd := htells
        · cases hsame
          exact .of_fetch hissued' hupdated
        · cases habsurd
    | none =>
      obtain ⟨_, _, rfl⟩ | ⟨_, w₁, hcreate, result, hfinal, happlied, hdone⟩ :=
        touch_absent_ok hfound h
      · obtain habsurd | habsurd := htells <;> cases habsurd
      · obtain ⟨row', rfl⟩ := hdone.mp (by obtain rfl | rfl := htells <;> trivial)
        obtain rfl := happlied row' rfl
        obtain habsurd | hsame := htells
        · cases habsurd
        cases hsame
        obtain ⟨_, hnot⟩ | ⟨_, hresult, hfinal⟩ := finalize_tx_ok hfinal
        · exact absurd rfl (hnot row)
        cases hresult
        obtain ⟨_, _, _, rfl⟩ := create_generation_ok hcreate
        have hissued₁ : ∀ n ∈ w.db.nodes, Drawn rt 0 (w.tick + 2) n.id :=
          fun n hn => (hissued.node n hn).mono (le_refl _) (Nat.le_add_right _ 2)
        exact hfinal.known (by exact hissued₁)
  | Copy source target options =>
    obtain ⟨_, hnot⟩ | ⟨_, _, _, _, row', w₁, rfl, _, hcopy, _, happ⟩ := copy_tx_ok h
    · exact absurd htells (hnot row)
    · cases htells
      obtain ⟨full, generation, w₂, _, rfl, hins, _, _, hgrown⟩ := copy_subtree_ok hcopy
      refine .of_stored hissued' ?_
      rw [happ.appended.nodes]
      exact hgrown.kept _ ((Table.mem_insert hins).mpr (Or.inr rfl))
  | Move source target options =>
    obtain ⟨_, hnot⟩ | ⟨source, _, _, _, db, rfl, hmoves, hupdate, htick, happ⟩ := move_tx_ok h
    · exact absurd htells (hnot row)
    · cases htells
      obtain rfl := Db.update_node_ok hupdate
      obtain ⟨n, rfl, hn⟩ := resolve_following_live hmoves.found
      exact .of_modify hissued.node hn.mem (by omega)
        (fun m hm => overwritten_mem hm) happ.appended.nodes rfl rfl
  | Remove path options => exact htells.elim
  | Symlink target link options =>
    obtain rfl | rfl := htells
    · obtain ⟨_, hnot⟩ | ⟨_, _, nodes, hrow, _, hins, _, happ⟩ := symlink_tx_ok h
      · exact absurd rfl (hnot row)
      · cases hrow
        refine .of_stored hissued' ?_
        rw [happ.appended.nodes]
        exact (Table.mem_insert hins).mpr (Or.inr rfl)
    · obtain ⟨rfl, _, _, hchild⟩ := symlink_tx_existing h
      obtain ⟨n, hn, rfl, _⟩ := fetch_child_eq_some hchild
      exact .of_stored hissued hn
  | Trash path options =>
    obtain ⟨trash_id, deleted_at_ms, rfl⟩ := htells
    obtain ⟨_, hnot⟩ | ⟨node, _, _, hrow, htrashes, _, _, htick, happ⟩ := trash_tx_ok h
    · exact absurd rfl (hnot _ _ _)
    · cases hrow
      obtain ⟨n, rfl, hn⟩ := resolve_following_live htrashes.found
      exact .of_modify hissued.node hn.mem (by omega) (fun m hm => hm) happ.appended.nodes rfl rfl
  | Restore trash_id destination options =>
    obtain ⟨_, hnot⟩ | ⟨_, _, _, _, _, row', rfl, _, _, _, _, hfetched⟩ := restore_tx_ok h
    · exact absurd htells (hnot row)
    · cases htells
      exact .of_fetch hissued' hfetched
  | Purge trash_id => exact htells.elim
  | SetAttribute path key value options =>
    obtain ⟨attributes, rfl⟩ := htells
    obtain ⟨_, hnot⟩ | ⟨_, row', _, hrow, _, _, hset⟩ := set_attribute_tx_cases h
    · exact absurd rfl (hnot _ _)
    · cases hrow
      exact .of_fetch hissued' hset.stored
  | RemoveAttribute path key options =>
    obtain ⟨attributes, rfl⟩ := htells
    obtain ⟨_, hnot⟩ | ⟨_, row', hnode, hrow, _, ⟨_, rfl, rfl⟩ | ⟨_, hremoved⟩⟩ :=
      remove_attribute_tx_cases h
    · exact absurd rfl (hnot _ _)
    · cases hrow
      exact .of_live hissued (resolve_following_live hnode)
    · cases hrow
      exact .of_fetch hissued' hremoved.stored

theorem Observes.known {revision : Revision} {observed : RawNode}
    (h : Observes rt revision observed w) :
    Known rt w observed ∧ observed.revision = revision.get := by
  cases h with
  | stat hw hfound hrevision =>
    exact ⟨.of_live hw.sound.issued (resolve_following_live hfound), hrevision⟩
  | operation hw hrun htells hrevision => exact ⟨transact_known hw.sound hrun htells, hrevision⟩
  | write hw hrun hrevision =>
    obtain ⟨_, hnot⟩ | ⟨_, hrow, hfinal⟩ := finalize_tx_ok hrun
    · exact absurd rfl (hnot _)
    · cases hrow
      exact ⟨hfinal.known hw.sound.issued.node, hrevision⟩

end known

/-- A node with an identifier that had been drawn was stored then. -/
theorem Foreign.stored_before {rt : Runtime} {P : Policy} {w w' : World}
    (h : Relation.ReflTransGen (Foreign rt P none) w w') {id : NodeId}
    (hdrawn : Drawn rt 0 w.tick id) :
    w.tick ≤ w'.tick ∧ ∀ m ∈ w'.db.nodes, m.id = id → ∃ n ∈ w.db.nodes, n.id = id := by
  induction h with
  | refl => exact ⟨le_refl _, fun m hm hid => ⟨m, hm, hid⟩⟩
  | tail _ hstep ih =>
    obtain ⟨htick, hbefore⟩ := ih
    obtain ⟨_, _, _, _, heffect⟩ := hstep
    refine ⟨htick.trans heffect.tick, fun m hm hid => ?_⟩
    obtain ⟨x, hx, hxid⟩ | hlater := heffect.edits.node_ids m hm
    · exact hbefore x hx (hxid.trans hid)
    · exact ((hdrawn.mono (le_refl _) htick).disjoint (hid ▸ hlater)).elim

/-- The mutation acts on the observed node, unchanged since the observation, exactly
if the node that it finds at its path has the observed identifier. -/
theorem unchanged_iff {rt : Runtime} {ws : WorkspaceId} {path : VirtualPath} {revision : Revision}
    {w₀ w : World} {observed node : RawNode} (hobserved : Observes rt revision observed w₀)
    (hlater : Later rt w₀ w) (hmutates : Mutates rt ws path revision w node) :
    Unchanged observed w₀.db node w.db ↔ node.id = observed.id := by
  constructor
  · rintro ⟨n, _, m, _, hid, rfl, hsame, _⟩
    exact hsame.symm.trans hid
  · intro hid
    obtain ⟨hknown, hrevision⟩ := hobserved.known
    obtain ⟨⟨m, rfl, hm⟩, hcurrent⟩ := hmutates.current
    obtain ⟨n, hn, hnid⟩ := (Foreign.stored_before hlater.foreign hknown.drawn).2 m hm.mem hid
    have hsame : n.id = m.id := hnid.trans hid.symm
    have hversion := (Foreign.version hlater.foreign hn (hnid ▸ hknown.drawn)).2 m hm.mem hsame
    refine ⟨n, hn, m, hm.mem, hnid, rfl, hsame, hversion.2 ?_⟩
    calc n.revision = observed.revision := hknown.revision n hn hnid
      _ = revision.get := hrevision
      _ = m.revision := hcurrent.symm

section runs

/-- A new workspace with the directory `/a`. -/
def singleRequests : List (RequestContext × Request) :=
  [(.trusted 0, .CreateWorkspace {}),
    (.trusted 0, .Perform (.Mkdir (.named [['a']]) {}))]

def singleWorld : World := serveAll Runtime.counting singleRequests ⟨Db.empty, 0⟩

theorem singleWorld_reachable : Reachable Runtime.counting singleWorld :=
  (Reachable.empty _).serveAll _

/-- Whether a client that has observed `/a` in the one store can remove it in the other one, with
the observed revision, and has observed the node that it removes. -/
def removes_observed (path : VirtualPath) (before after : World) : Option Bool :=
  match resolve_following before.db 0 path false, resolve_following after.db 0 path false,
    remove_tx Runtime.counting 0 path { expected_revision := some ⟨1, Nat.one_pos⟩ } [] after with
  | .Found observed, .Found node, .ok (.Removed, _) =>
    if observed.revision = 1 then some (node.id = observed.id) else none
  | _, _, _ => none

theorem removes_observed_eq_some {path : VirtualPath} {before after : World} {same : Bool}
    (h : removes_observed path before after = some same)
    (hbefore : Reachable Runtime.counting before) :
    ∃ observed node, resolve_following before.db 0 path false = .Found observed ∧
      Observes Runtime.counting ⟨1, Nat.one_pos⟩ observed before ∧
      Mutates Runtime.counting 0 path ⟨1, Nat.one_pos⟩ after node ∧
      (same = true ↔ node.id = observed.id) := by
  unfold removes_observed at h
  split at h
  · rename_i observed node w' hfound hnode hrun
    split at h
    · rename_i hrevision
      obtain rfl := Option.some.inj h
      exact ⟨observed, node, hfound, .stat (.start hbefore) hfound hrevision,
        .remove rfl hnode hrun, decide_eq_true_iff⟩
    · cases h
  · cases h

/-- A client observes `/a`, another one makes `/b`, and the former removes what it has observed. -/
theorem observed_removed : ∃ (observed node : RawNode) (w : World),
    Later Runtime.counting singleWorld w ∧
    Mutates Runtime.counting 0 (.ofSegments [['a']] (by decide)) ⟨1, Nat.one_pos⟩ w node ∧
    Unchanged observed singleWorld.db node w.db := by
  have hsome : removes_observed (.ofSegments [['a']] (by decide)) singleWorld
    (serveAll Runtime.counting
      [(.trusted 0, .Perform (.Mkdir (.ofSegments [['b']] (by decide)) {}))] singleWorld) =
        some true := by decide +kernel
  obtain ⟨observed, node, _, hobserved, hmutates, hsame⟩ :=
    removes_observed_eq_some hsome singleWorld_reachable
  have hlater := Later.serveAll singleWorld_reachable [(.trusted 0,
    .Perform (.Mkdir (.ofSegments [['b']] (by decide)) {}))]
  exact ⟨observed, node, _, hlater, hmutates, (unchanged_iff hobserved hlater hmutates).mpr
    (hsame.mp rfl)⟩

/-- `/a` is removed and made again: the removal that expects the revision of the old
directory succeeds on the new one. -/
theorem successor_removed : ∃ (observed node : RawNode) (w : World),
    resolve_following singleWorld.db 0 (.ofSegments [['a']] (by decide)) false = .Found observed ∧
    Observes Runtime.counting ⟨1, Nat.one_pos⟩ observed singleWorld ∧
    Later Runtime.counting singleWorld w ∧
    Mutates Runtime.counting 0 (.ofSegments [['a']] (by decide)) ⟨1, Nat.one_pos⟩ w node ∧
    ¬ Unchanged observed singleWorld.db node w.db := by
  have hsome : removes_observed (.ofSegments [['a']] (by decide)) singleWorld
    (serveAll Runtime.counting
      [(.trusted 0, .Perform (.Remove (.ofSegments [['a']] (by decide)) {})),
        (.trusted 0, .Perform (.Mkdir (.ofSegments [['a']] (by decide)) {}))] singleWorld) =
          some false := by decide +kernel
  obtain ⟨observed, node, hfound, hobserved, hmutates, hsame⟩ :=
    removes_observed_eq_some hsome singleWorld_reachable
  refine ⟨observed, node, _, hfound, hobserved, Later.serveAll singleWorld_reachable _, hmutates,
    ?_⟩
  rintro ⟨n, _, m, _, hid, rfl, heq, _⟩
  exact absurd (hsame.mpr (heq.symm.trans hid)) Bool.false_ne_true

end runs

end fslite
