import Fslite.Sqlite.Refine.Operation
import Fslite.Sqlite.Run.Isolation

namespace fslite

open resolve content mutate

section parts

variable {A : WorkspaceId} {db db' : Db} {r m : NodeRow} {t : TrashRow} {q : List Text}

namespace SameRows

theorem mem_trash (h : SameRows A db db') (ht : t.workspace_id = A) :
    t ∈ db'.trash ↔ t ∈ db.trash := by
  have hkept : ∀ {u : Table TrashRow.id}, t ∈ u.deleteWhere (fun t => t.workspace_id ≠ A) ↔ t ∈ u :=
    fun {u} => Table.mem_deleteWhere.trans (and_iff_left (by simp [ht]))
  rw [← hkept, h.trash, hkept]

/-- The names lead through one workspace. -/
theorem under (h : SameRows A db db') (hwf : NodesWellFormed db) (hr : r.workspace_id = A)
    (hm : Under db r q m) : Under db' r q m := by
  induction hm with
  | here hmem => exact .here ((h.mem_nodes hr).mpr hmem)
  | @child place p n hp hn hup hactive ih =>
    have hws := ((Under.child hp hn hup hactive).workspace hwf).trans hr
    exact .child ih ((h.mem_nodes hws).mpr hn) hup hactive

end SameRows

/-- Two stores that hold the same of a workspace hold the same volume for it. -/
theorem SamePart.volume (h : SamePart A db db') (hwf : WellFormed db) (hwf' : WellFormed db') :
    db'.volume A = db.volume A := by
  have hentry : ∀ n ∈ db.nodes, n.workspace_id = A →
      db'.entry n.toRawNode = db.entry n.toRawNode := by
    intro n hn hws
    refine Db.entry_congr (fun key => ?_) (fun g hg i => (h.content n hn hws g hg).chunk i)
    rw [Db.attribute, Db.attribute, h.attributes n hn hws key]
  have hsame : ∀ top ∈ db.nodes, top.workspace_id = A → SameUnder db db' top := by
    intro top htop hws
    refine ⟨(h.rows.mem_nodes hws).mpr htop, fun q m => ?_, fun q m hm => ?_⟩
    · exact ⟨h.rows.symm.under hwf'.nodes hws, h.rows.under hwf.nodes hws⟩
    · exact hentry m hm.mem ((hm.workspace hwf.nodes).trans hws)
  unfold Db.volume
  congr 1
  · cases hrow : db.workspace? A with
    | none =>
      rw [Db.file_tree_empty hwf.nodes hrow,
        Db.file_tree_empty hwf'.nodes (h.rows.workspace.trans hrow)]
    | some row =>
      obtain ⟨r, hr⟩ := IsRoot.of_workspace hwf.nodes hrow
      have hr' : IsRoot db' A r := ⟨(h.rows.mem_nodes hr.workspace).mpr hr.mem, hr.workspace, hr.root⟩
      rw [Db.file_tree_eq_branch hwf.nodes hr, Db.file_tree_eq_branch hwf'.nodes hr']
      exact Db.branch_congr hwf hwf' hr.mem hr.workspace (hsame r hr.mem hr.workspace)
  · funext trash_id
    exact Db.bin_congr hwf hwf' (fun t ht _ => h.rows.mem_trash ht)
      (fun t top htop _ => hsame top htop.mem (htop.shape hwf).1)

end parts

namespace Volume

/-- What there is of a workspace that does not exist. -/
def empty : Volume := ⟨.empty, fun _ => none⟩

/-- A workspace with nothing but its root. -/
def fresh (id : NodeId) (now : Int) : Volume :=
  ⟨.leaf (.created id .Directory 0 none (fun _ => none) now), fun _ => none⟩

end Volume

namespace Db

variable {db : Db} {ws : WorkspaceId}

theorem volume_empty (hwf : WellFormed db) (h : db.workspace? ws = none) :
    db.volume ws = .empty := by
  unfold volume Volume.empty
  rw [file_tree_empty hwf.nodes h]
  congr 1
  funext trash_id
  refine (bin_eq_none hwf).mpr (fun t ht hws _ => ?_)
  obtain ⟨n, hn⟩ := InTrash.of_record hwf ht hws
  obtain ⟨row, hrow⟩ := hwf.nodes.workspace n hn.mem
  rw [(hn.shape hwf).1, h] at hrow
  cases hrow

/-- A new root that is the only node of its workspace. -/
theorem volume_fresh {db' : Db} (hwf : WellFormed db) (hwf' : WellFormed db') {id : NodeId}
    {now : Int} (hnew : ∀ n ∈ db.nodes, n.id ≠ id)
    (hattributes : ∀ a ∈ db'.attributes, a ∈ db.attributes)
    (hmem : workspace.rootRow id ws now ∈ db'.nodes)
    (honly : ∀ n ∈ db'.nodes, n.workspace_id = ws → n = workspace.rootRow id ws now) :
    db'.volume ws = .fresh id now := by
  have hr : IsRoot db' ws (workspace.rootRow id ws now) := ⟨hmem, rfl, rfl⟩
  have hroot := hr.live hwf'.nodes
  have hentry : db'.entry (workspace.rootRow id ws now).toRawNode =
      .created id .Directory 0 none (fun _ => none) now :=
    entry_created (workspace.rootRow id ws now).toRawNode hwf hnew hattributes rfl rfl rfl rfl
  unfold volume Volume.fresh
  rw [← hentry]
  congr 1
  · refine Hierarchy.ext_some (fun q e => ?_)
    rw [file_tree_eq_some hwf'.nodes hr, Hierarchy.lookup_leaf_eq_some]
    constructor
    · rintro ⟨m, hm, rfl⟩
      obtain rfl := honly m hm.mem ((hm.workspace hwf'.nodes).trans hr.workspace)
      exact ⟨hm.place_unique hroot (.here hr.mem), rfl⟩
    · rintro ⟨rfl, rfl⟩
      exact ⟨_, .here hr.mem, rfl⟩
  · funext trash_id
    refine (bin_eq_none hwf').mpr (fun t ht hws _ => ?_)
    obtain ⟨n, hn⟩ := InTrash.of_record hwf' ht hws
    obtain ⟨hnws, htrashed, _⟩ := hn.shape hwf'
    obtain rfl := honly n hn.mem hnws
    exact htrashed hroot.active

end Db

/-- The chunks that a store holds of the contents, committed or staged. -/
def Db.staged_chunk (db : Db) (g : GenerationId) (i : Nat) : Option Bytes :=
  (db.content_chunks.find? (g, i)).map ChunkRow.bytes

/-- The answers that report a change of a volume. -/
def DbCall.Reports : (call : DbCall) → call.Answer → Prop
  | .finalize .., outcome => ∃ row, outcome = .Applied row
  | .transaction _ operation _, outcome => operation.Succeeds outcome
  | .batch .., outcome => ∃ results, outcome = .Completed results
  | .create_workspace .., _ | .delete_workspace .., _ => True
  | .reset_workspace .., found => found = true
  | _, _ => False

/-- What a call on the connection does to the volumes of the workspaces, by what it answers: an
error or an answer that reports nothing does nothing, and any other does what it reports. -/
inductive DbCall.Turn (staged : GenerationId → Nat → Option Bytes) : (call : DbCall) → call.Res →
    (WorkspaceId → Volume) → (WorkspaceId → Volume) → Prop where
  | fault (call : DbCall) (err : FsError) (v : WorkspaceId → Volume) : Turn staged call (.error err) v v
  | quiet {call : DbCall} {answer : call.Answer} (h : ¬ call.Reports answer)
      (v : WorkspaceId → Volume) : Turn staged call (.ok answer) v v
  | transaction {ws : WorkspaceId} {operation : BatchOperation} {actor_json : Text}
      {outcome : Outcome operation} {v : WorkspaceId → Volume} {v' : Volume} {reported : Option Entry}
      (hsucceeds : operation.Succeeds outcome) (h : (v ws).Performs operation v' reported)
      (htells : ∀ row, operation.Tells outcome row → ∃ e, reported = some e ∧ e.Describes row) :
        Turn staged (.transaction ws operation actor_json) (.ok outcome) v (Function.update v ws v')
  | batch {ctx : RequestContext} {operations : List BatchOperation} {actor_json : Text}
      {v : WorkspaceId → Volume} {v' : Volume} {results : List BatchResult}
      (h : Volume.ServesAll operations results (v ctx.workspace_id) v') :
        Turn staged (.batch ctx operations actor_json) (.ok (.Completed results)) v
          (Function.update v ctx.workspace_id v')
  | finalize {ws : WorkspaceId} {path : VirtualPath} {g : GenerationId} {length : Nat}
      {params : FinalizeParams} {actor_json : Text} {v : WorkspaceId → Volume} {v' : Volume}
      {row : RawNode} {e : Entry} (hrow : e.Describes row)
      (h : Volume.Writes path params length (staged g) (v ws) v' e) :
        Turn staged (.finalize ws path g length params actor_json) (.ok (.Applied row)) v
          (Function.update v ws v')
  | create_workspace {options : workspace.WorkspaceOptions} {row : workspace.Workspace} {id : NodeId}
      {now : Int} {v : WorkspaceId → Volume} (hempty : v row.id = .empty) :
        Turn staged (.create_workspace options) (.ok row) v (Function.update v row.id (.fresh id now))
  | reset_workspace {ws : WorkspaceId} {id : NodeId} {now : Int} {v : WorkspaceId → Volume}
      (hexists : v ws ≠ .empty) :
        Turn staged (.reset_workspace ws) (.ok true) v (Function.update v ws (.fresh id now))
  | delete_workspace {ws : WorkspaceId} {v : WorkspaceId → Volume} :
        Turn staged (.delete_workspace ws) (.ok ()) v (Function.update v ws .empty)

namespace DbCall.Turn

variable {staged : GenerationId → Nat → Option Bytes} {call : DbCall} {result : call.Res}
  {v u : WorkspaceId → Volume}

/-- One volume changes. -/
theorem of_update {ws : WorkspaceId} {v' : Volume}
    (h : call.Turn staged result v (Function.update v ws v')) (hnew : u ws = v')
    (hrest : ∀ A, A ≠ ws → u A = v A) : call.Turn staged result v u := by
  rwa [← Function.eq_update_iff.mpr ⟨hnew, hrest⟩] at h

theorem of_quiet {answer : call.Answer} (h : ¬ call.Reports answer) (hsame : u = v) :
    call.Turn staged (.ok answer) v u := by
  rw [hsame]
  exact .quiet h v

end DbCall.Turn

namespace workspace

variable {rt : Runtime} {w w' : World}

/-- A workspace that is created was not there, and has its root alone. -/
theorem create_workspace_volume {options : WorkspaceOptions} {answer : Workspace}
    (hw : Standing rt w) (hwf' : WellFormed w'.db)
    (h : create_workspace rt options w = .ok (answer, w')) :
    answer.id = rt.newId w.tick ∧ w.db.volume answer.id = .empty ∧
      w'.db.volume answer.id = .fresh (rt.newId (w.tick + 1)) (rt.nowMs (w.tick + 2)) := by
  have hwf := hw.sound.wf
  obtain ⟨row, nodes, workspaces, hid, _, _, _, _, hanswer, hws, hins, rfl⟩ := create_workspace_ok h
  have hnone : w.db.workspace? row.id = none := (Table.insert_eq_some.mp hws).1
  rw [hanswer]
  refine ⟨hid, Db.volume_empty hwf hnone, Db.volume_fresh hwf hwf' (hw.node_fresh (Nat.le_succ _))
    (fun a ha => ha) ((Table.mem_insert hins).mpr (Or.inr rfl)) (fun n hn hnws => ?_)⟩
  obtain hn | rfl := (Table.mem_insert hins).mp hn
  · obtain ⟨old, hold⟩ := hwf.nodes.workspace n hn
    rw [hnws, hnone] at hold
    cases hold
  · rfl

/-- A workspace that is reset was there, and has a new root alone. -/
theorem reset_workspace_volume {ws : WorkspaceId} (hw : Standing rt w) (hwf' : WellFormed w'.db)
    (h : reset_workspace rt ws w = .ok (true, w')) :
    w.db.volume ws ≠ .empty ∧
      w'.db.volume ws = .fresh (rt.newId w.tick) (rt.nowMs (w.tick + 1)) := by
  have hwf := hw.sound.wf
  obtain ⟨_, hfalse, _⟩ | ⟨row, nodes, _, hrow, hins, rfl⟩ := reset_workspace_ok hwf h
  · cases hfalse
  obtain ⟨r, hr⟩ := IsRoot.of_workspace hwf.nodes hrow
  refine ⟨fun hempty => ?_, Db.volume_fresh hwf hwf' (hw.node_fresh (le_refl _))
    (fun a ha => (Table.mem_deleteWhere.mp ha).1) ((Table.mem_insert hins).mpr (Or.inr rfl))
    (fun n hn hnws => ?_)⟩
  · have hroot := Db.lookup_of_under hwf.nodes hr (.here hr.mem)
    rw [show w.db.file_tree ws = .empty from congrArg Volume.tree hempty] at hroot
    cases hroot
  · obtain hn | rfl := (Table.mem_insert hins).mp hn
    · exact absurd hnws (Db.mem_clear_nodes.mp hn).2
    · rfl

/-- Nothing is left of a workspace that is deleted. -/
theorem delete_workspace_volume {ws : WorkspaceId} (hw : Standing rt w) (hwf' : WellFormed w'.db)
    (h : delete_workspace ws w = .ok ((), w')) : w'.db.volume ws = .empty := by
  obtain rfl := delete_workspace_ok hw.sound.wf h
  refine Db.volume_empty hwf' (Table.find?_eq_none.mpr (fun row hrow hid => ?_))
  exact absurd (decide_eq_true hid) (by simp [(Table.mem_deleteWhere.mp hrow).2])

end workspace

theorem DbCall.exec_turns {rt : Runtime} {call : DbCall} {w : World} (hw : Standing rt w)
    (hforeign : Foreign rt Policy.any none w (call.exec rt w).2) :
    call.Turn w.db.staged_chunk (call.exec rt w).1 w.db.volume (call.exec rt w).2.db.volume := by
  have hwf := hw.sound.wf
  have hwf' := hforeign.sound.wf
  -- what the call neither names nor creates stays as it is
  have hother : ∀ A, ¬ call.Addresses A →
      (∀ options, call = .create_workspace options → A ≠ rt.newId w.tick) →
        (call.exec rt w).2.db.volume A = w.db.volume A := fun A hnot hnew =>
    (SamePart.of_foreign (exec_sameRows hwf hnot (Or.inr hnew)) hforeign).volume hwf hwf'
  cases hbody : call.body rt w with
  | error fault =>
    rw [exec, hbody]
    exact .fault call _ _
  | ok result =>
    obtain ⟨answer, w'⟩ := result
    have hexec : call.exec rt w = (.ok answer, if call.commits answer then w' else w) := by
      rw [exec, hbody]
    rw [hexec] at hwf' hother ⊢
    clear hforeign hexec
    cases call with
    | resolve | resolve_following | fetch_max_file_bytes | fetch_usage | fetch_changes_page | fetch_chunk_bytes =>
      simp only [body, Tx.query_eq_ok] at hbody
      exact .of_quiet id (congrArg (fun w => w.db.volume) hbody.2.symm)
    | create_generation ws =>
      obtain ⟨gens, _, _, rfl⟩ := content.create_generation_ok hbody
      exact .of_quiet id (funext (fun A => by apply Db.volume_congr <;> rfl))
    | upsert_chunk | copy_chunk_range | delete_generation =>
      exact .of_quiet id (funext (fun A => hother A id (fun _ h => by cases h)))
    | finalize ws path g length params actor_json =>
      obtain ⟨rfl, hrejected⟩ | ⟨row, rfl, hfinal⟩ := content.finalize_tx_ok hbody
      · refine .of_quiet ?_ rfl
        rintro ⟨row, hrow⟩
        exact hrejected row hrow
      · obtain ⟨e, hrow, hwrites⟩ := hfinal.writes hwf hwf' (hw.node_fresh (le_refl _))
          (fun _ => content.finalize_tx_again hbody)
        exact .of_update (.finalize hrow hwrites) rfl
          (fun A hne => hother A (Ne.symm hne) (fun _ h => by cases h))
    | transaction ws operation actor_json =>
      have hrefines := transact_refines hw hbody
      have hrest : ∀ A, A ≠ ws → w'.db.volume A = w.db.volume A :=
        fun A hne => hother A (Ne.symm hne) (fun _ h => by cases h)
      by_cases hsucceeds : operation.Succeeds answer
      · obtain ⟨reported, hperforms, htells⟩ := hrefines.performed hsucceeds
        exact .of_update (.transaction hsucceeds hperforms htells) rfl hrest
      · refine .of_quiet hsucceeds (funext (fun A => ?_))
        by_cases hA : A = ws
        · subst hA
          exact hrefines.failed hsucceeds
        · exact hrest A hA
    | batch ctx operations actor_json =>
      cases answer with
      | Failed index err =>
        refine .of_quiet ?_ rfl
        rintro ⟨results, h⟩
        cases h
      | Completed results =>
        obtain ⟨own, rfl, hserves⟩ := batch_loop_serves hw hbody
        exact .of_update (.batch hserves) rfl
          (fun A hne => hother A (Ne.symm hne) (fun _ h => by cases h))
    | create_workspace options =>
      obtain ⟨hid, hempty, hfresh⟩ := workspace.create_workspace_volume hw hwf' hbody
      exact .of_update (.create_workspace hempty) hfresh
        (fun A hne => hother A id (fun _ _ hA => hne (hA.trans hid.symm)))
    | reset_workspace ws =>
      have hrest : ∀ A, A ≠ ws → w'.db.volume A = w.db.volume A :=
        fun A hne => hother A (Ne.symm hne) (fun _ h => by cases h)
      cases answer with
      | false =>
        obtain ⟨rfl, _⟩ | ⟨_, _, htrue, _⟩ := workspace.reset_workspace_ok hwf hbody
        · exact .of_quiet Bool.false_ne_true rfl
        · cases htrue
      | true =>
        obtain ⟨hexists, hfresh⟩ := workspace.reset_workspace_volume hw hwf' hbody
        exact .of_update (.reset_workspace hexists) hfresh hrest
    | delete_workspace ws =>
      exact .of_update .delete_workspace (workspace.delete_workspace_volume hw hwf' hbody)
        (fun A hne => hother A (Ne.symm hne) (fun _ h => by cases h))

/-- A call that is executed as the next one of a run, and the turn it takes. -/
def DbCall.Advances (rt : Runtime) (φ : DbCall → Prop) (s s' : World) : Prop :=
  ∃ o : DbCall, φ o ∧ s' = (o.exec rt s).2 ∧
    o.Turn s.db.staged_chunk (o.exec rt s).1 s.db.volume s'.db.volume

/-- Whatever requests are served, in any interleaving of their calls on the connection: the calls
are executed one after another, and each of them takes the turn that its answer reports. -/
theorem Reached.simulated {rt : Runtime} {may : System → Nat → DbCall → Prop}
    {φ : DbCall → Prop} {c d : System} (h : Reached rt may c)
    (hrun : Steps (DbCall.exec rt) (Served rt) (fun _ _ o => φ o) c d) :
    Relation.ReflTransGen (DbCall.Advances rt φ) c.state d.state := by
  induction hrun with
  | refl => exact .refl
  | @tail e f hsteps hstep ih =>
    have hmiddle : Reached rt (fun c _ o => Policy.any.Allows rt c.state o) e :=
      Relation.ReflTransGen.trans h.any (Steps.mono hsteps (fun _ hp => hp)
        (fun c _ o _ => Policy.allows_any rt c.state o))
    cases hstep with
    | arrive s ps p hp => exact ih
    | advance s ps i o next hproc hmay =>
      have hlinked := Reached.linked (hmiddle.mono (fun _ hp => hp) (fun _ _ _ _ => trivial))
      have hturn := DbCall.exec_turns ⟨hmiddle.sound, hlinked⟩
        (hmiddle.step_foreign hproc (Policy.allows_any rt s o))
      exact ih.tail ⟨o, hmay, rfl, hturn⟩

/-- A directory is made while a write stores its bytes. -/
def meanwhileSystem : System :=
  System.scheduled Runtime.counting [(.trusted 0, .CreateWorkspace {}),
    (.trusted 0, .Write (.named [['f']]) [.ok [1, 2, 3]] {}),
    (.trusted 0, .Perform (.Mkdir (.named [['a']]) {}))] [0, 1, 1, 1, 2, 1, 1, 1, 1]

theorem meanwhile_simulated :
    ((meanwhileSystem.state.db.volume 0).tree.lookup [['f']]).map Entry.size = some 3 ∧
    ((meanwhileSystem.state.db.volume 0).tree.lookup [['a']]).map Entry.kind = some .Directory ∧
    Relation.ReflTransGen (DbCall.Advances Runtime.counting (fun _ => True)) System.empty.state
      meanwhileSystem.state := by
  have hempty : Reached Runtime.counting (fun _ _ _ => True) System.empty := .refl
  exact ⟨by decide +kernel, by decide +kernel, hempty.simulated (Reached.scheduled _ _ _)⟩

end fslite
