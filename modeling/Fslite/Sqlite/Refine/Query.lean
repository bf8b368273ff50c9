import Fslite.Core.Canonical
import Fslite.Sqlite.Refine.Operation

namespace fslite

open resolve mutate

namespace directory

def stat (ws : WorkspaceId) (path : VirtualPath) (follow_symlinks : Bool) : Task Node := do
  match ← Task.call (.resolve_following ws path follow_symlinks) with
  | .Found row => Task.ofResult row.into_node
  | .NotFound => throw (FsError.not_found path.as_str)
  | .BrokenLink => throw (FsError.broken_link path.as_str)
  | .LinkLoop => throw (FsError.link_loop path.as_str)

def exists_ (ws : WorkspaceId) (path : VirtualPath) (follow_symlinks : Bool) : Task Bool :=
  tryCatch ((fun _ => true) <$> stat ws path follow_symlinks) (fun err =>
    if err.code = .NotFound then pure false else throw err)

end directory

namespace mutate

def read_link (ws : WorkspaceId) (path : VirtualPath) : Task LinkTarget := do
  match ← Task.call (.resolve_following ws path false) with
  | .Found node =>
    if node.kind = .Symlink then
      match node.symlink_target with
      | some target => Task.ofResult (LinkTarget.parse target)
      | none => throw (FsError.internal_storage_failure
          "symlink node missing a stored target".toList)
    else throw (FsError.wrong_node_type path.as_str)
  | .NotFound | .BrokenLink => throw (FsError.not_found path.as_str)
  | .LinkLoop => throw (FsError.link_loop path.as_str)

end mutate

namespace SqliteFileSystem

variable (ctx : RequestContext)

def exists_ (path : VirtualPath) (follow_symlinks : Bool) : Task Bool := do
  require_capability ctx .Read path.as_str
  directory.exists_ ctx.workspace_id path follow_symlinks

def read_link (path : VirtualPath) : Task LinkTarget := do
  require_capability ctx .Read path.as_str
  mutate.read_link ctx.workspace_id path

end SqliteFileSystem

/-- What is stored for a target is read as that target. -/
theorem LinkTarget.parse_self (target : LinkTarget) : parse target.as_str = .ok target := by
  obtain ⟨input, hne, hnul, hcanonical⟩ := target.wellFormed
  exact parse_as_str (parse_eq_ok.mpr ⟨⟨hne, hnul⟩, hcanonical⟩)

theorem LinkTarget.as_str_inj {target other : LinkTarget} (h : target.as_str = other.as_str) :
    target = other := by
  have hparsed := target.parse_self
  rw [h, other.parse_self] at hparsed
  exact (Except.ok.inj hparsed).symm

/-- The links on a path can be replaced more often than is allowed. -/
def FileTree.Loops (t : FileTree) (follow_final : Bool) (path : VirtualPath) : Prop :=
  ∃ last, Rewriting.InSteps (Rewrites t follow_final) (MAX_LINK_HOPS + 1) path last

namespace resolve

variable {db : Db} {ws : WorkspaceId} {path : VirtualPath} {follow_final : Bool}

/-- Only what comes from the target of a link can be missing in it. -/
theorem descend_unbroken {current : RawNode} {pending : List Text} :
    descend db ws follow_final current pending 0 ≠ .Done .BrokenLink := by
  induction pending generalizing current with
  | nil =>
    unfold descend
    split <;> simp
  | cons segment rest ih =>
    unfold descend
    split
    · split
      · exact ih
      · simp
    · simp
    · simp

/-- A path without links leads to no broken one. -/
theorem resolve_following_unbroken (hlinked : db.Linked)
    (hdir : ∀ root, fetch_root db ws = some root → root.kind = .Directory)
    (h : Rewriting.Normal (Rewrites db ws follow_final) path) :
    resolve_following db ws path follow_final ≠ .BrokenLink := by
  unfold resolve_following
  cases hroot : fetch_root db ws with
  | none => simp
  | some root =>
    have hpath : path.segments = VirtualPath.root.segments ++ path.segments := by
      rw [VirtualPath.segments_root, List.nil_append]
    have hcurrent : resolve db ws .root = some root := by
      rw [resolve, hroot, VirtualPath.segments_root]
      rfl
    obtain ⟨outcome, hstop, _⟩ :=
      @descend_normal db ws follow_final path root path.segments .root 0 hlinked hdir hpath hcurrent h
    simp only [MAX_LINK_HOPS, follow_loop, hstop]
    rintro rfl
    exact descend_unbroken hstop

end resolve

namespace Db

variable {db : Db} {ws : WorkspaceId} {path : VirtualPath} {follow_final : Bool} {e : Entry}

/-- There is something to be found in the tree exactly where the code finds a row. -/
theorem finds_iff (hwf : NodesWellFormed db) (hlinked : db.Linked) :
    (∃ place, FileTree.Finds (db.file_tree ws) follow_final path place e) ↔
      ∃ raw, resolve_following db ws path follow_final = .Found raw ∧ db.entry raw = e := by
  constructor
  · rintro ⟨place, k, hk, last, hsteps, hnormal, rfl, he⟩
    rw [rewrites_eq] at hsteps hnormal
    obtain ⟨raw, hraw, rfl⟩ := lookup_file_tree_eq_some.mp he
    obtain ⟨_, hfound⟩ := @resolve_following_steps db ws follow_final path hlinked
      (fun _ => root_directory hwf)
    exact ⟨raw, (hfound k hk last hsteps hnormal raw).mpr hraw, rfl⟩
  · rintro ⟨raw, hraw, rfl⟩
    obtain ⟨x, hx, hlive⟩ := resolve_following_live hraw
    obtain ⟨r, hr⟩ := IsRoot.of_live hlive
    obtain ⟨place, _, _, _, hfinds⟩ := finds hwf hlinked hr hraw
    exact ⟨place, hfinds⟩

theorem loops_iff (hwf : NodesWellFormed db) (hlinked : db.Linked) :
    FileTree.Loops (db.file_tree ws) follow_final path ↔
      resolve_following db ws path follow_final = .LinkLoop := by
  unfold FileTree.Loops
  rw [rewrites_eq]
  exact (@resolve_following_steps db ws follow_final path hlinked
    (fun _ => root_directory hwf)).1.symm

end Db

theorem RawNode.into_node_error {row : RawNode} {err : FsError} (h : row.into_node = .error err) :
    err.code = .InternalStorageFailure := by
  unfold RawNode.into_node at h
  split at h
  · cases h
    rfl
  · cases h

/-- A task whose error is caught. -/
theorem Task.run_tryCatch {rt : Runtime} {w : World} {A : Type} {p : Task A}
    {f : FsError → Task A} : (tryCatch p f : Task A).run.run (DbCall.exec rt) w =
      match p.run.run (DbCall.exec rt) w with
      | (.ok a, w') => (.ok a, w')
      | (.error err, w') => (f err).run.run (DbCall.exec rt) w' := by
  show Prog.run (DbCall.exec rt) (p.run >>= _) w = _
  rw [Prog.run_bind]
  obtain ⟨a | err, w'⟩ := p.run.run (DbCall.exec rt) w <;> rfl

/-- `exists` reports what the lookup ends with. -/
theorem directory.exists_run {rt : Runtime} {ws : WorkspaceId} {w : World} {path : VirtualPath}
    {follow_symlinks : Bool} :
    (exists_ ws path follow_symlinks).run.run (DbCall.exec rt) w =
      (match resolve_following w.db ws path follow_symlinks with
        | .Found raw => raw.into_node.map (fun _ => true)
        | .NotFound => .ok false
        | .BrokenLink => .error (FsError.broken_link path.as_str)
        | .LinkLoop => .error (FsError.link_loop path.as_str), w) := by
  have hexec : (DbCall.resolve_following ws path follow_symlinks).exec rt w =
      (.ok (resolve_following w.db ws path follow_symlinks), w) := rfl
  have hstat : (stat ws path follow_symlinks).run.run (DbCall.exec rt) w =
      (match resolve_following w.db ws path follow_symlinks with
        | .Found raw => raw.into_node
        | .NotFound => .error (FsError.not_found path.as_str)
        | .BrokenLink => .error (FsError.broken_link path.as_str)
        | .LinkLoop => .error (FsError.link_loop path.as_str), w) := by
    unfold stat
    rw [Task.run_bind_ok (Task.run_call.trans hexec)]
    cases resolve_following w.db ws path follow_symlinks <;> rfl
  unfold exists_
  rw [Task.run_tryCatch, Task.run_map, hstat]
  cases hfollowed : resolve_following w.db ws path follow_symlinks with
  | Found raw =>
    simp only
    cases hnode : raw.into_node with
    | ok node => rfl
    | error err =>
      have hcode := RawNode.into_node_error hnode
      show ((if err.code = .NotFound then pure false else throw err : Task Bool)).run.run _ _ = _
      rw [if_neg (by rw [hcode]; decide)]
      rfl
  | _ => rfl

namespace mutate

variable {rt : Runtime} {ws : WorkspaceId} {w : World} {path : VirtualPath}

theorem read_link_found {raw : RawNode} {target : LinkTarget}
    (hfound : resolve_following w.db ws path false = .Found raw) (hkind : raw.kind = .Symlink)
    (htarget : raw.symlink_target = some target.as_str) :
    (read_link ws path).run.run (DbCall.exec rt) w = (.ok target, w) := by
  have hexec : (DbCall.resolve_following ws path false).exec rt w = (.ok (.Found raw), w) := by
    rw [← hfound]
    rfl
  unfold read_link
  rw [Task.run_bind_ok (Task.run_call.trans hexec)]
  simp only [hkind, if_true, htarget, target.parse_self]
  rfl

theorem read_link_failed (h : ¬ ∃ raw, resolve_following w.db ws path false = .Found raw ∧
    raw.kind = .Symlink) :
    ∃ err, (read_link ws path).run.run (DbCall.exec rt) w = (.error err, w) := by
  have hexec : (DbCall.resolve_following ws path false).exec rt w =
      (.ok (resolve_following w.db ws path false), w) := rfl
  unfold read_link
  rw [Task.run_bind_ok (Task.run_call.trans hexec)]
  cases hfollowed : resolve_following w.db ws path false with
  | Found raw =>
    simp only [if_neg (fun hkind => h ⟨raw, hfollowed, hkind⟩)]
    exact ⟨_, rfl⟩
  | _ => exact ⟨_, rfl⟩

end mutate

namespace SqliteFileSystem

variable {rt : Runtime} {ctx : RequestContext} {w w' : World} {path : VirtualPath}

/-- `exists` tells whether there is something to be found in the tree. It fails only because of
the links on the path: where they loop, or where the last of them leads to nothing. -/
theorem exists_answers {follow_symlinks : Bool} (h : Ongoing rt w)
    (hread : ctx.has_capability .Read = true) :
    ∃ answer, (exists_ ctx path follow_symlinks).run.run (DbCall.exec rt) w = (answer, w) ∧
      (answer = .ok true ↔ ∃ e place,
        FileTree.Finds (w.db.file_tree ctx.workspace_id) follow_symlinks path place e) ∧
      (answer = .error (FsError.link_loop path.as_str) ↔
        FileTree.Loops (w.db.file_tree ctx.workspace_id) follow_symlinks path) ∧
      (Rewriting.Normal (FileTree.Rewrites (w.db.file_tree ctx.workspace_id) follow_symlinks) path →
        ∃ found, answer = .ok found) := by
  have hlinked := h.standing.linked
  have hwf := h.standing.sound.wf.nodes
  have hrun := @directory.exists_run rt ctx.workspace_id w path follow_symlinks
  unfold exists_
  rw [Task.run_required hread, Db.rewrites_eq]
  simp only [Db.finds_iff hwf hlinked, Db.loops_iff hwf hlinked]
  cases hfollowed : resolve_following w.db ctx.workspace_id path follow_symlinks with
  | Found raw =>
    obtain ⟨n, rfl, hlive⟩ := resolve_following_live hfollowed
    obtain ⟨node, hnode⟩ := RawNode.into_node_ok (hwf.revision n hlive.mem)
    simp only [hfollowed, hnode] at hrun
    exact ⟨.ok true, hrun, iff_of_true rfl ⟨_, _, rfl, rfl⟩, iff_of_false (by simp) (by simp),
      fun _ => ⟨true, rfl⟩⟩
  | NotFound =>
    simp only [hfollowed] at hrun
    exact ⟨_, hrun, iff_of_false (by simp) (by simp), iff_of_false (by simp) (by simp),
      fun _ => ⟨false, rfl⟩⟩
  | BrokenLink =>
    simp only [hfollowed] at hrun
    refine ⟨_, hrun, iff_of_false (by simp) (by simp), iff_of_false ?_ (by simp), fun hnormal => ?_⟩
    · intro heq
      have hcode := congrArg FsError.code (Except.error.inj heq)
      cases hcode
    · exact absurd hfollowed (resolve_following_unbroken hlinked
        (fun _ => Db.root_directory hwf) hnormal)
  | LinkLoop =>
    simp only [hfollowed] at hrun
    refine ⟨_, hrun, iff_of_false (by simp) (by simp), iff_of_true rfl rfl, fun hnormal => ?_⟩
    obtain ⟨last, hsteps⟩ := (Db.loops_iff hwf hlinked).mpr hfollowed
    rw [Db.rewrites_eq] at hsteps
    exact absurd ((Rewriting.InSteps.normal_iff hnormal).mp hsteps).1 (Nat.succ_ne_zero _)

/-- The path of the link leads to the file. -/
theorem link_leads : ∃ e place, FileTree.Finds (linkWorld.db.file_tree 0) true
    (.named [['l']]) place e := by
  obtain ⟨answer, hrun, hfinds, _⟩ := @exists_answers Runtime.counting (.trusted 0) linkWorld
    (.named [['l']]) true (.start linkWorld_reachable) rfl
  have hfound : ((exists_ (.trusted 0) (.named [['l']]) true).run.run
    (DbCall.exec Runtime.counting) linkWorld).1 = .ok true := by decide +kernel
  rw [hrun] at hfound
  exact hfinds.mp hfound

/-- `read_link` tells the target of the link that the path leads to, and fails elsewhere. -/
theorem read_link_answers (h : Ongoing rt w) (hread : ctx.has_capability .Read = true) :
    ∃ answer, (read_link ctx path).run.run (DbCall.exec rt) w = (answer, w) ∧
      ∀ target, answer = .ok target ↔ ∃ e place,
        FileTree.Finds (w.db.file_tree ctx.workspace_id) false path place e ∧
          e.kind = .Symlink ∧ e.symlink_target = some target.as_str := by
  have hlinked := h.standing.linked
  have hwf := h.standing.sound.wf.nodes
  have hentry : ∀ target : LinkTarget, (∃ e place,
      FileTree.Finds (w.db.file_tree ctx.workspace_id) false path place e ∧
        e.kind = .Symlink ∧ e.symlink_target = some target.as_str) ↔
      ∃ raw, resolve_following w.db ctx.workspace_id path false = .Found raw ∧
        raw.kind = .Symlink ∧ raw.symlink_target = some target.as_str := by
    intro target
    constructor
    · rintro ⟨e, place, hfinds, hkind, htarget⟩
      obtain ⟨raw, hraw, rfl⟩ := (Db.finds_iff hwf hlinked).mp ⟨place, hfinds⟩
      exact ⟨raw, hraw, hkind, htarget⟩
    · rintro ⟨raw, hraw, hkind, htarget⟩
      obtain ⟨place, hfinds⟩ := (Db.finds_iff hwf hlinked).mpr ⟨raw, hraw, rfl⟩
      exact ⟨_, place, hfinds, hkind, htarget⟩
  unfold read_link
  rw [Task.run_required hread]
  simp only [hentry]
  by_cases hlink : ∃ raw, resolve_following w.db ctx.workspace_id path false = .Found raw ∧
      raw.kind = .Symlink
  · obtain ⟨raw, hfound, hkind⟩ := hlink
    obtain ⟨n, rfl, hlive⟩ := resolve_following_live hfound
    obtain ⟨target, htarget⟩ := hlinked n hlive.mem hkind
    refine ⟨.ok target, read_link_found hfound hkind htarget, fun other => ?_⟩
    constructor
    · intro heq
      cases heq
      exact ⟨_, hfound, hkind, htarget⟩
    · rintro ⟨raw, hraw, _, hother⟩
      rw [hfound, ResolveOutcome.Found.injEq] at hraw
      subst hraw
      rw [LinkTarget.as_str_inj (Option.some.inj (htarget.symm.trans hother))]
  · obtain ⟨err, hrun⟩ := @read_link_failed rt _ _ _ hlink
    exact ⟨.error err, hrun, fun _ => iff_of_false (by simp)
      (fun ⟨raw, hraw, hkind, _⟩ => hlink ⟨raw, hraw, hkind⟩)⟩

/-- The target of a link that has been created is read back from its path. -/
theorem symlink_read_back {target : LinkTarget} {link : VirtualPath} {options : CreateOptions}
    {result : BatchResult} (h : Ongoing rt w) (hread : ctx.has_capability .Read = true)
    (hnew : options.exist_ok = false)
    (hrun : (perform rt ctx (.Symlink target link options)).run.run (DbCall.exec rt) w =
      (.ok result, w')) :
    (read_link ctx link).run.run (DbCall.exec rt) w' = (.ok target, w') := by
  obtain ⟨_, heq, hdone⟩ | ⟨_, heq, _⟩ := perform_cases hrun
  · cases heq
    simp only [execute_batch_operation] at hdone
    split at hdone
    · cases (Tx.pure_eq_ok.mp hdone).1
    · obtain ⟨outcome, node, htx, hnode, rfl⟩ := ran hdone
      cases outcome with
      | Created row =>
        have hwf' := h.standing.wellFormed (.Symlink target link options) htx
        obtain ⟨_, hnot⟩ | ⟨parent, name, nodes, hrow, hlinks, hins, _, happ⟩ := symlink_tx_ok htx
        · exact absurd rfl (hnot row)
        have hnodes : w'.db.nodes = nodes := happ.appended.nodes
        have hfound := hlinks.leads hwf'.nodes
          (fun m hm => hnodes ▸ (Table.mem_insert hins).mpr (Or.inl hm))
          (hnodes ▸ (Table.mem_insert hins).mpr (Or.inr rfl))
        unfold read_link
        rw [Task.run_required hread]
        exact read_link_found hfound rfl rfl
      | Existing row =>
        obtain ⟨_, _, _, _, _, _, _, _, _, hexist, _⟩ := symlink_tx_found htx
        rw [hnew] at hexist
        cases hexist
      | _ => cases hnode
  · cases heq

theorem beside_wellFormed : ∃ input, input ≠ [] ∧ NUL ∉ input ∧ ['f'] = normalize_target input :=
  ⟨['f'], by decide, by decide, by decide⟩

/-- The file beside the link. -/
def fileLink : LinkTarget := ⟨['f'], beside_wellFormed⟩

/-- The request for a second link. -/
def linkFile : BatchOperation := .Symlink fileLink (.named [['m']]) {}

theorem link_read_back : ∃ result w', (perform Runtime.counting (.trusted 0) linkFile).run.run
    (DbCall.exec Runtime.counting) linkWorld = (.ok result, w') ∧
      (read_link (.trusted 0) (.named [['m']])).run.run
        (DbCall.exec Runtime.counting) w' = (.ok fileLink, w') := by
  have hok : ((perform Runtime.counting (.trusted 0) linkFile).run.run
      (DbCall.exec Runtime.counting) linkWorld).1.isOk = true := by decide +kernel
  generalize hrun : (perform Runtime.counting (.trusted 0) linkFile).run.run
    (DbCall.exec Runtime.counting) linkWorld = served at hok
  obtain ⟨err | result, w'⟩ := served
  · cases hok
  · exact ⟨result, w', rfl, symlink_read_back (.start linkWorld_reachable) rfl rfl hrun⟩

end SqliteFileSystem

end fslite
