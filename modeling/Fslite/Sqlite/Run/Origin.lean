import Fslite.Sqlite.Run.Request

namespace fslite

namespace resolve

/-- Where a pending segment stems from: the requested path, the target of the link that
was followed last, or the target of a link that was followed before that one. -/
inductive Origin where
  | Path
  | Last
  | Earlier
  deriving DecidableEq

/-- The origin after another link has been followed. -/
def Origin.age : Origin → Origin
  | .Path => .Path
  | .Last => .Earlier
  | .Earlier => .Earlier

/-- How a walk ends. It may fail at a segment that names no child, at a segment that is
to be looked up in a file, or at a link that cannot be followed at all. -/
inductive WalkEnd where
  | Found (node : RawNode)
  | Loop
  | Missing (origin : Origin)
  | Blocked (origin : Origin)
  | Unreadable
  | Rootless
  deriving DecidableEq

inductive OriginStop where
  | Done (result : WalkEnd)
  | Link (node : RawNode) (pending : List (Text × Origin))

/-- The walk of `descend` over segments that carry their origin. -/
def descend_origin (db : Db) (ws : WorkspaceId) (follow_final : Bool) :
    RawNode → List (Text × Origin) → OriginStop
  | current, [] => if follow_final ∧ current.kind = .Symlink then .Link current [] else .Done
    (.Found current)
  | current, (segment, origin) :: rest =>
    match current.kind with
    | .Directory =>
      match fetch_child db ws current.id segment with
      | some child => descend_origin db ws follow_final child rest
      | none => .Done (.Missing origin)
    | .Symlink => .Link current ((segment, origin) :: rest)
    | .File => .Done (.Blocked origin)

/-- The walk of `follow_loop` over segments that carry their origin. -/
def follow_origin (db : Db) (ws : WorkspaceId) (follow_final : Bool) :
    Nat → RawNode → List (Text × Origin) → WalkEnd
  | hops, current, pending =>
    match descend_origin db ws follow_final current pending with
    | .Done result => result
    | .Link node rest =>
      match hops with
      | 0 => .Loop
      | hops + 1 =>
        match follow_one db ws node with
        | .Broken => .Unreadable
        | .Next base remaining =>
          follow_origin db ws follow_final hops base
            (remaining.map (·, Origin.Last) ++ rest.map (Prod.map id Origin.age))

/-- How the walk along a path ends. -/
def walk_end (db : Db) (ws : WorkspaceId) (path : VirtualPath) (follow_final : Bool) : WalkEnd :=
  match fetch_root db ws with
  | none => .Rootless
  | some root => follow_origin db ws follow_final MAX_LINK_HOPS root
    (path.segments.map (·, Origin.Path))

/-- The walk fails at what some link's target asks for. -/
def WalkEnd.OfTarget : WalkEnd → Prop
  | .Missing origin | .Blocked origin => origin ≠ .Path
  | .Unreadable => True
  | _ => False

/-- The walk fails at what the requested path asks for. -/
def WalkEnd.OfPath : WalkEnd → Prop
  | .Missing origin | .Blocked origin => origin = .Path
  | .Rootless => True
  | _ => False

/-- The walk fails at a segment of a link's target, either in a file or after another
link has been followed. -/
def WalkEnd.Mistaken : WalkEnd → Prop
  | .Missing origin => origin = .Earlier
  | .Blocked origin => origin ≠ .Path
  | _ => False

/-- The class in which `resolve_following` puts the end of a walk. -/
def WalkEnd.outcome : WalkEnd → ResolveOutcome
  | .Found node => .Found node
  | .Loop => .LinkLoop
  | .Missing .Last | .Unreadable => .BrokenLink
  | .Missing _ | .Blocked _ | .Rootless => .NotFound

/-- The number of pending segments that the counter of the code takes for the target's. -/
def last_segments (pending : List (Text × Origin)) : Nat :=
  (pending.takeWhile (fun p => p.2 = .Last)).length

/-- The segments of the last target come first. -/
def Sorted (pending : List (Text × Origin)) : Prop :=
  ∀ p ∈ pending.drop (last_segments pending), p.2 ≠ .Last

section origin

variable {db : Db} {ws : WorkspaceId} {follow_final : Bool} {pending : List (Text × Origin)}

theorem last_segments_cons {segment : Text} {origin : Origin} {rest : List (Text × Origin)}
    (h : Sorted ((segment, origin) :: rest)) :
    Sorted rest ∧ last_segments rest = last_segments ((segment, origin) :: rest) - 1 ∧
      (0 < last_segments ((segment, origin) :: rest) ↔ origin = .Last) := by
  unfold Sorted last_segments at *
  rw [List.takeWhile_cons] at *
  by_cases horigin : origin = .Last
  · simp only [horigin, decide_true, if_true, List.length_cons, List.drop_succ_cons] at h ⊢
    exact ⟨h, by omega, by simp⟩
  · -- nothing of the last target is left
    simp only [horigin, decide_false, Bool.false_eq_true, if_false, List.length_nil,
      List.drop_zero] at h ⊢
    have hrest : rest.takeWhile (fun p => p.2 = .Last) = [] := by
      cases rest with
      | nil => rfl
      | cons next rest =>
        have hnext : next.2 ≠ .Last := h next (by simp)
        rw [List.takeWhile_cons, if_neg (by simpa using hnext)]
    rw [hrest, List.length_nil, List.drop_zero]
    exact ⟨fun p hp => h p (List.mem_cons_of_mem _ hp), rfl, by simp⟩

/-- After a link has been followed the segments of its target are counted. -/
theorem last_segments_followed (remaining : List Text) (rest : List (Text × Origin)) :
    last_segments (remaining.map (·, Origin.Last) ++ rest.map (Prod.map id Origin.age)) =
      remaining.length ∧
      Sorted (remaining.map (·, Origin.Last) ++ rest.map (Prod.map id Origin.age)) := by
  have haged : ∀ p ∈ rest.map (Prod.map id Origin.age), p.2 ≠ Origin.Last := by
    intro p hp
    obtain ⟨⟨segment, origin⟩, _, rfl⟩ := List.mem_map.mp hp
    cases origin <;> simp [Origin.age]
  have hcount : last_segments
      (remaining.map (·, Origin.Last) ++ rest.map (Prod.map id Origin.age)) = remaining.length := by
    unfold last_segments
    rw [List.takeWhile_append_of_pos (by simp), List.length_append, List.length_map]
    cases haging : rest.map (Prod.map id Origin.age) with
    | nil => rfl
    | cons first others =>
      rw [haging] at haged
      rw [List.takeWhile_cons, if_neg (by simpa using haged first List.mem_cons_self)]
      rfl
  refine ⟨hcount, ?_⟩
  unfold Sorted
  rw [hcount, List.drop_left' (List.length_map _)]
  exact haged

/-- What the loop between two links does, read off the walk with origins. -/
def OriginStop.stop : OriginStop → WalkStop
  | .Done result => .Done result.outcome
  | .Link node pending => .Link node (pending.map Prod.fst)

theorem descend_eq {current : RawNode} (h : Sorted pending) :
    descend db ws follow_final current (pending.map Prod.fst) (last_segments pending) =
      (descend_origin db ws follow_final current pending).stop := by
  induction pending generalizing current with
  | nil =>
    simp only [List.map_nil, descend, descend_origin]
    split <;> rfl
  | cons first rest ih =>
    obtain ⟨segment, origin⟩ := first
    obtain ⟨hrest, hcount, hlast⟩ := last_segments_cons h
    simp only [List.map_cons, descend, descend_origin]
    cases current.kind with
    | File => rfl
    | Symlink => rfl
    | Directory =>
      simp only
      cases fetch_child db ws current.id segment with
      | some child =>
        simp only
        rw [← hcount]
        exact ih hrest
      | none =>
        simp only [hlast, OriginStop.stop]
        cases origin <;> rfl

theorem follow_loop_eq {hops : Nat} {current : RawNode} (h : Sorted pending) :
    follow_loop db ws follow_final hops current (pending.map Prod.fst) (last_segments pending) =
      (follow_origin db ws follow_final hops current pending).outcome := by
  induction hops generalizing current pending with
  | zero =>
    rw [follow_loop, follow_origin, descend_eq h]
    cases descend_origin db ws follow_final current pending <;> rfl
  | succ hops ih =>
    rw [follow_loop, follow_origin, descend_eq h]
    cases descend_origin db ws follow_final current pending with
    | Done result => rfl
    | Link node rest =>
      simp only [OriginStop.stop]
      cases follow_one db ws node with
      | Broken => rfl
      | Next base remaining =>
        obtain ⟨hcount, hsorted⟩ := last_segments_followed remaining rest
        have hnext := @ih (remaining.map (·, Origin.Last) ++ rest.map
          (Prod.map id Origin.age)) base hsorted
        rw [hcount] at hnext
        simpa [List.map_map, Function.comp_def] using hnext

/-- The outcome that `resolve_following` reports is the class of the end of the walk. -/
theorem resolve_following_eq (db : Db) (ws : WorkspaceId) (path : VirtualPath)
    (follow_final : Bool) :
    resolve_following db ws path follow_final = (walk_end db ws path follow_final).outcome := by
  unfold resolve_following walk_end
  cases fetch_root db ws with
  | none => rfl
  | some root =>
    have hnone : ∀ p ∈ path.segments.map (·, Origin.Path), p.2 ≠ Origin.Last := by
      intro p hp
      obtain ⟨segment, _, rfl⟩ := List.mem_map.mp hp
      exact Origin.noConfusion
    have hcount : last_segments (path.segments.map (·, Origin.Path)) = 0 := by
      unfold last_segments
      cases path.segments <;> rfl
    have hloop := @follow_loop_eq db ws follow_final
      (path.segments.map (·, Origin.Path)) MAX_LINK_HOPS root
      (fun p hp => hnone p (List.mem_of_mem_drop hp))
    rw [hcount, List.map_map, show Prod.fst ∘ (·, Origin.Path) = @id Text from rfl,
      List.map_id] at hloop
    exact hloop

end origin

end resolve

/-- Where a path is not found and leads into no loop, `resolve_following` tells a broken
link from a missing node if and only if the walk does not fail at a segment of a link's
target that is to be looked up in a file, or after another link has been followed. -/
theorem broken_link_told (db : Db) (ws : WorkspaceId) (path : VirtualPath) (follow_final : Bool)
    (hfound : ∀ raw, resolve.resolve_following db ws path follow_final ≠ .Found raw)
    (hloop : resolve.resolve_following db ws path follow_final ≠ .LinkLoop) :
    ((resolve.resolve_following db ws path follow_final = .BrokenLink ↔
    (resolve.walk_end db ws path follow_final).OfTarget) ∧
        (resolve.resolve_following db ws path follow_final = .NotFound ↔
        (resolve.walk_end db ws path follow_final).OfPath)) ↔
      ¬ (resolve.walk_end db ws path follow_final).Mistaken := by
  rw [resolve.resolve_following_eq] at *
  cases hend : resolve.walk_end db ws path follow_final with
  | Found node =>
    rw [hend] at hfound
    exact absurd rfl (hfound node)
  | Loop =>
    rw [hend] at hloop
    exact absurd rfl hloop
  | Missing origin =>
    cases origin <;> simp [resolve.WalkEnd.outcome, resolve.WalkEnd.OfTarget,
      resolve.WalkEnd.OfPath, resolve.WalkEnd.Mistaken]
  | Blocked origin =>
    cases origin <;> simp [resolve.WalkEnd.outcome, resolve.WalkEnd.OfTarget,
      resolve.WalkEnd.OfPath, resolve.WalkEnd.Mistaken]
  | Unreadable => simp [resolve.WalkEnd.outcome, resolve.WalkEnd.OfTarget, resolve.WalkEnd.OfPath,
    resolve.WalkEnd.Mistaken]
  | Rootless => simp [resolve.WalkEnd.outcome, resolve.WalkEnd.OfTarget, resolve.WalkEnd.OfPath,
    resolve.WalkEnd.Mistaken]

/-- A directory, a file, a link into the file, a link through another link to a name that
is not there, and a link to such a name. -/
def brokenRequests : List (RequestContext × Request) :=
  [(.trusted 0, .CreateWorkspace {}),
    (.trusted 0, .Perform (.Mkdir (.named [['d']]) {})),
    (.trusted 0, .Perform (.Touch (.named [['f']]) {})),
    (.trusted 0, .Perform (.Symlink ⟨"/f/x".toList, "/f/x".toList, by decide, by decide, by decide⟩
      (.named [['l']]) {})),
    (.trusted 0, .Perform (.Symlink ⟨['d'], ['d'], by decide, by decide, by decide⟩
      (.named [['n']]) {})),
    (.trusted 0, .Perform (.Symlink ⟨"n/z".toList, "n/z".toList, by decide, by decide, by decide⟩
      (.named [['m']]) {})),
    (.trusted 0, .Perform (.Symlink ⟨"/z".toList, "/z".toList, by decide, by decide, by decide⟩
      (.named [['b']]) {}))]

def brokenWorld : World := serveAll Runtime.counting brokenRequests ⟨Db.empty, 0⟩

/-- At `/l` and at `/m` the walk fails at a segment of a link's target, and the node is
said to be missing. -/
theorem broken_links_missed :
    Reachable Runtime.counting brokenWorld ∧ ∀ path ∈ [VirtualPath.ofSegments [['l']] (by decide),
      VirtualPath.ofSegments [['m']] (by decide)],
    resolve.resolve_following brokenWorld.db 0 path true = .NotFound ∧
    (resolve.walk_end brokenWorld.db 0 path true).OfTarget := by
  refine ⟨(Reachable.empty Runtime.counting).serveAll brokenRequests, fun path hpath => ?_⟩
  have hends : (resolve.walk_end brokenWorld.db 0
    (.ofSegments [['l']] (by decide)) true = .Blocked .Last) ∧
      resolve.walk_end brokenWorld.db 0 (.ofSegments [['m']] (by decide)) true =
        .Missing .Earlier := by decide +kernel
  rw [resolve.resolve_following_eq]
  obtain rfl | hpath := List.mem_cons.mp hpath
  · rw [hends.1]
    exact ⟨rfl, by simp [resolve.WalkEnd.OfTarget]⟩
  · rw [List.mem_singleton.mp hpath, hends.2]
    exact ⟨rfl, by simp [resolve.WalkEnd.OfTarget]⟩

/-- The link at `/b` is known to be broken. -/
theorem plain_broken_link_told :
    (resolve.resolve_following brokenWorld.db 0 (.ofSegments [['b']] (by decide)) true =
    .BrokenLink ↔
        (resolve.walk_end brokenWorld.db 0 (.ofSegments [['b']] (by decide)) true).OfTarget) ∧
      (resolve.resolve_following brokenWorld.db 0
      (.ofSegments [['b']] (by decide)) true = .NotFound ↔
        (resolve.walk_end brokenWorld.db 0 (.ofSegments [['b']] (by decide)) true).OfPath) := by
  have hend : resolve.walk_end brokenWorld.db 0 (.ofSegments [['b']] (by decide)) true =
    .Missing .Last := by decide +kernel
  have houtcome : resolve.resolve_following brokenWorld.db 0
      (.ofSegments [['b']] (by decide)) true = .BrokenLink := by
    rw [resolve.resolve_following_eq, hend]
    rfl
  refine (broken_link_told brokenWorld.db 0 (.ofSegments [['b']] (by decide)) true
    (fun raw => ?_) ?_).mpr ?_
  · rw [houtcome]
    exact resolve.ResolveOutcome.noConfusion
  · rw [houtcome]
    exact resolve.ResolveOutcome.noConfusion
  · rw [hend]
    exact resolve.Origin.noConfusion

end fslite
