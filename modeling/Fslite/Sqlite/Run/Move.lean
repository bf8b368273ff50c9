import Fslite.Sqlite.Lookup
import Fslite.Sqlite.Run.Tree

namespace fslite

open resolve mutate

def resolve.ResolveOutcome.found? : ResolveOutcome → Option RawNode
  | .Found node => some node
  | _ => none

theorem resolve.ResolveOutcome.found?_eq_some {outcome : ResolveOutcome} {node : RawNode}
    (h : outcome.found? = some node) : outcome = .Found node := by
  cases outcome with
  | Found node' =>
    cases h
    rfl
  | _ => cases h

namespace Db

variable {db : Db} {existing : Option RawNode}

/-- The node does not lie in the overwritten subtree. -/
def Spared (db : Db) (existing : Option RawNode) (id : NodeId) : Prop :=
  ∀ occupant, existing = some occupant → ¬ Below db.parent id occupant.id

theorem mem_overwritten {m : NodeRow} :
    m ∈ (db.overwritten existing).nodes ↔ m ∈ db.nodes ∧ db.Spared existing m.id := by
  cases existing with
  | none => exact ⟨fun hm => ⟨hm, fun _ hocc => by cases hocc⟩, fun hm => hm.1⟩
  | some occupant =>
    rw [show m ∈ (db.overwritten (some occupant)).nodes ↔ _ from mem_purge_nodes]
    refine and_congr_right (fun _ => ⟨fun hnot e he => ?_, fun hspared => hspared occupant rfl⟩)
    cases he
    exact hnot

theorem parent_overwritten {id : NodeId} (h : db.Spared existing id) :
    (db.overwritten existing).parent id = db.parent id := by
  cases existing with
  | none => rfl
  | some occupant => exact parent_purge (h occupant rfl)

/-- The overwriting adds no links. -/
theorem parent_of_overwritten {a up : NodeId} (h : (db.overwritten existing).parent a = some up) :
    db.parent a = some up := by
  obtain ⟨m, hm, hid, hup⟩ := stored_of_parent h
  exact parent_eq_some.mpr ⟨m, (mem_overwritten.mp hm).1, hid, hup⟩

/-- A climb from a spared node stays among spared nodes. -/
theorem Spared.below {a b : NodeId} (h : db.Spared existing a) (hab : Below db.parent a b) :
    db.Spared existing b :=
  fun occupant hocc hb => h occupant hocc (hab.trans hb)

/-- The nodes below a spared one are spared too, if the destination lies outside of them. -/
theorem Spared.beneath {ws : WorkspaceId} {target : VirtualPath} {overwrite : Bool}
    {parent : RawNode} {name : Text} {source id : NodeId}
    (hdest : Destined db ws target overwrite parent name existing)
    (hsource : db.Spared existing source) (hout : ¬ Below db.parent parent.id source)
    (hbelow : Below db.parent id source) : db.Spared existing id := by
  rintro occupant rfl hocc
  -- the entry lies neither above nor below the source
  obtain hup | hdown := hbelow.total hocc
  · exact hsource occupant rfl hup
  · obtain ⟨e, rfl, he, heup, _⟩ := hdest.occupant_live
    obtain heq | hparent := hdown.eq_or_parent (show db.parent e.id =
      some parent.id by rw [Db.parent_of_mem he.mem, heup])
    · exact hsource e.toRawNode rfl (heq ▸ Below.refl _ _)
    · exact hout hparent

/-- A purge leaves the contents of the nodes outside the subtree alone. -/
theorem purge_content (hwf : WellFormed db) {n : NodeRow} (hn : n ∈ db.nodes) {id : NodeId}
    (hnot : ¬ Below db.parent n.id id) {g : GenerationId} (hg : n.content_generation_id = some g) :
    SameContent db (db.purge id) g := by
  have hkept : g ∉ subtree_generations db id := by
    rw [mem_subtree_generations]
    rintro ⟨m, hm, hbelow, hmg⟩
    rw [hwf.contents.unshared m hm n hn g hmg hg] at hbelow
    exact hnot hbelow
  exact ⟨by rw [generation?_purge, if_neg hkept], fun i => by rw [chunk_purge, if_neg hkept]⟩

theorem overwritten_content (hwf : WellFormed db) {n : NodeRow} (hn : n ∈ db.nodes)
    (hspared : db.Spared existing n.id) {g : GenerationId} (hg : n.content_generation_id = some g) :
    SameContent db (db.overwritten existing) g := by
  cases existing with
  | none => exact SameContent.refl _ _
  | some occupant => exact purge_content hwf hn (hspared occupant rfl) hg

theorem overwritten_attributes {k : NodeId × Text} (hspared : db.Spared existing k.1) :
    (db.overwritten existing).attributes.find? k = db.attributes.find? k := by
  cases existing with
  | none => rfl
  | some occupant => exact purge_attributes (hspared occupant rfl)

/-- The store without the source of a move and without the overwritten subtree. -/
def detached (db : Db) (source : NodeId) (existing : Option RawNode) : Db :=
  { db with nodes := db.nodes.deleteWhere (fun n =>
      db.cascades source n.id || existing.any (fun occupant => db.cascades occupant.id n.id)) }

theorem mem_detached {source : NodeId} {m : NodeRow} : m ∈ (db.detached source existing).nodes ↔
    m ∈ db.nodes ∧ ¬ Below db.parent m.id source ∧ db.Spared existing m.id := by
  show m ∈ db.nodes.deleteWhere _ ↔ _
  rw [Table.mem_deleteWhere, Bool.or_eq_false_iff, ← Bool.not_eq_true, cascades_iff]
  refine and_congr_right (fun _ => and_congr_right (fun _ => ?_))
  cases existing with
  | none => exact ⟨fun _ occupant hocc => (by cases hocc), fun _ => rfl⟩
  | some occupant =>
    rw [Option.any_some, ← Bool.not_eq_true, cascades_iff]
    exact ⟨fun hnot e he => (by cases he; exact hnot), fun hspared => hspared occupant rfl⟩

end Db

namespace mutate

/-- What a move must not lose: the moved node with its content, attributes and
descendants, its reachability at the destination path, and everything outside
the overwritten subtree. -/
structure MoveKeeps (db db' : Db) (ws : WorkspaceId) (target : VirtualPath) (source : RawNode)
    (existing : Option RawNode) (n : RawNode) : Prop where
  moved : fetch_by_id db' ws n.id = some n
  same : n.id = source.id ∧ n.kind = source.kind ∧
    n.content_generation_id = source.content_generation_id ∧
    n.size = source.size ∧ n.symlink_target = source.symlink_target
  content : ∀ g, source.content_generation_id = some g → SameContent db db' g
  attributes : ∀ key, db'.attributes.find? (source.id, key) = db.attributes.find? (source.id, key)
  descendants : ∀ x ∈ db.nodes, x.id ≠ source.id → Below db.parent x.id source.id →
    x ∈ db'.nodes ∧ Below db'.parent x.id source.id
  no_others : ∀ x ∈ db'.nodes, Below db'.parent x.id source.id → Below db.parent x.id source.id
  found : resolve_following db' ws target false = .Found n
  rest : ∀ x ∈ db.nodes, db.Spared existing x.id → ∃ x' ∈ db'.nodes, Edit.SameFile x x' ∧
    x.symlink_target = x'.symlink_target ∧ ∀ g, x.content_generation_id = some g →
      SameContent db db' g

/-- The source does not lie at or below the overwritten entry, the destination
directory does not lie at or below the source, and the parent of the destination
path still leads to the destination directory when the source and the
overwritten entry are taken out of the tree. -/
structure MoveSafe (db : Db) (ws : WorkspaceId) (target : VirtualPath) (source parent : RawNode)
    (existing : Option RawNode) : Prop where
  spared : db.Spared existing source.id
  outward : ¬ Below db.parent parent.id source.id
  reached : ∃ parent_path, target.parent = some parent_path ∧
    resolve_following (db.detached source.id existing) ws parent_path true = .Found parent

section keeps

variable {rt : Runtime} {ws : WorkspaceId} {w w' : World} {source_path target : VirtualPath}
  {options : MoveOptions}
variable {actor_json : Text} {source parent n : RawNode} {name : Text} {existing : Option RawNode}

/-- The store after a move, in terms of the one before. -/
structure Relocated (db db' : Db) (ws : WorkspaceId) (source : NodeRow) (parent : NodeId)
    (name : Text) (existing : Option RawNode) (now : Int) : Prop where
  nodes : db'.nodes = (db.overwritten existing).nodes.modify source.id
    (moved parent name (source.revision + 1) now)
  generations : db'.content_generations = (db.overwritten existing).content_generations
  chunks : db'.content_chunks = (db.overwritten existing).content_chunks
  attributes : db'.attributes = (db.overwritten existing).attributes

/-- Resolution of a path is a function: the checks of a move find one thing. -/
theorem Destined.unique {db : Db} {overwrite : Bool} {parent' : RawNode} {name' : Text}
    {existing' : Option RawNode} (h : Destined db ws target overwrite parent name existing)
    (h' : Destined db ws target overwrite parent' name' existing') :
    parent = parent' ∧ name = name' ∧ existing = existing' := by
  obtain ⟨up, hup, hparent⟩ := h.found
  obtain ⟨up', hup', hparent'⟩ := h'.found
  rw [hup, Option.some.injEq] at hup'
  subst hup'
  rw [hparent, ResolveOutcome.Found.injEq] at hparent'
  subst hparent'
  have hname := h.named
  rw [h'.named, Option.some.injEq] at hname
  subst hname
  exact ⟨rfl, rfl, h.occupant.symm.trans h'.occupant⟩

theorem Moves.unique {db : Db} {source' parent' : RawNode} {name' : Text}
    {existing' : Option RawNode}
    (h : Moves db ws source_path target options source parent name existing)
    (h' : Moves db ws source_path target options source' parent' name' existing') :
    source = source' ∧ parent = parent' ∧ name = name' ∧ existing = existing' := by
  have hfound := h.found
  rw [h'.found, ResolveOutcome.Found.injEq] at hfound
  exact ⟨hfound.symm, h.dest.unique h'.dest⟩

/-- What a successful move returns and does. -/
theorem moved_ok (hmoves : Moves w.db ws source_path target options source parent name existing)
    (h : move_tx rt ws source_path target options actor_json w = .ok (.Moved n, w')) :
    ∃ s : NodeRow, s.toRawNode = source ∧ Live w.db ws s ∧ s.parent_id ≠ none ∧
      n = ((moved parent.id name (s.revision + 1) (rt.nowMs w.tick)).apply s).toRawNode ∧
      Relocated w.db w'.db ws s parent.id name existing (rt.nowMs w.tick) := by
  obtain ⟨_, hnot⟩ | ⟨source', parent', name', existing', db, houtcome, hmoves', hupdate, _,
    happ⟩ := move_tx_ok h
  · exact absurd rfl (hnot n)
  · obtain ⟨rfl, rfl, rfl, rfl⟩ := hmoves.unique hmoves'
    obtain ⟨s, rfl, hs⟩ := resolve_following_live hmoves.found
    obtain rfl := Db.update_node_ok hupdate
    refine ⟨s, rfl, hs, resolve_following_named hmoves.named hmoves.found, ?_, happ.appended.nodes,
      happ.appended.content_generations, happ.appended.content_chunks, happ.appended.attributes⟩
    cases houtcome
    simp only [moved, ← hs.workspace]

namespace Relocated

variable {db db' : Db} {s : NodeRow} {up : NodeId} {now : Int}

theorem mem (h : Relocated db db' ws s up name existing now)
    (hs : s ∈ (db.overwritten existing).nodes) {m : NodeRow} :
    m ∈ db'.nodes ↔ m = (moved up name (s.revision + 1) now).apply s ∨
      (m ∈ db.nodes ∧ db.Spared existing m.id) ∧ m.id ≠ s.id := by
  rw [h.nodes, Db.mem_modify_nodes hs, Db.mem_overwritten]

theorem parent_other (h : Relocated db db' ws s up name existing now)
    (hs : s ∈ (db.overwritten existing).nodes) {x : NodeId} (hx : x ≠ s.id)
    (hspared : db.Spared existing x) : db'.parent x = db.parent x := by
  have hnodes : db'.nodes = ({ db.overwritten existing with
    nodes := (db.overwritten existing).nodes.modify s.id (moved up name (s.revision + 1) now) } :
      Db).nodes := h.nodes
  rw [Db.parent_of_nodes hnodes, Db.parent_modify hs, if_neg hx, Db.parent_overwritten hspared]

/-- A climb of spared nodes up to the moved one, or clear of it, is as before. -/
theorem below (h : Relocated db db' ws s up name existing now)
    (hs : s ∈ (db.overwritten existing).nodes) {a b : NodeId} (hab : Below db.parent a b)
    (hspared : db.Spared existing a) (hclear : b = s.id ∨ ¬ Below db.parent a s.id) :
    Below db'.parent a b := by
  refine hab.congr (fun x hax _ hx => h.parent_other hs ?_ (hspared.below hax))
  rintro rfl
  exact hclear.elim (fun hb => hx hb.symm) (fun hnot => hnot hax)

/-- What climbs to the moved node afterwards did so before. -/
theorem of_below (h : Relocated db db' ws s up name existing now)
    (hs : s ∈ (db.overwritten existing).nodes) {a : NodeId} (hab : Below db'.parent a s.id) :
    Below db.parent a s.id := by
  induction hab using Below.head_induction with
  | top => exact Below.refl _ _
  | @step x y hxy _ ih =>
    by_cases hx : x = s.id
    · rw [hx]
      exact Below.refl _ _
    · obtain ⟨m, hm, rfl, hup⟩ := Db.stored_of_parent hxy
      obtain rfl | ⟨⟨hmem, _⟩, _⟩ := (h.mem hs).mp hm
      · exact absurd rfl hx
      · exact Below.head (by rw [Db.parent_of_mem hmem, hup]) ih

theorem content (h : Relocated db db' ws s up name existing now) (hwf : WellFormed db) {x : NodeRow}
    (hx : x ∈ db.nodes) (hspared : db.Spared existing x.id) {g : GenerationId}
    (hg : x.content_generation_id = some g) :
    SameContent db db' g := by
  have hsame := Db.overwritten_content hwf hx hspared hg
  refine ⟨?_, fun i => ?_⟩
  · rw [Db.generation?, h.generations]
    exact hsame.row
  · rw [h.chunks]
    exact hsame.chunk i

end Relocated

/-- A move without overlap loses nothing. -/
theorem moveKeeps_of_safe (hwf : WellFormed w.db)
    (hmoves : Moves w.db ws source_path target options source parent name existing)
    (h : move_tx rt ws source_path target options actor_json w = .ok (.Moved n, w'))
    (hsafe : MoveSafe w.db ws target source parent existing) :
    MoveKeeps w.db w'.db ws target source existing n := by
  have hwf' : WellFormed w'.db :=
    (move_tx_effect (P := Policy.any) (o := none) hwf (Policy.permits_any _ _ _) h).wellFormed hwf
  obtain ⟨s, rfl, hs, hroot, rfl, hrelocated⟩ := moved_ok hmoves h
  have hstored : s ∈ (w.db.overwritten existing).nodes :=
    Db.mem_overwritten.mpr ⟨hs.mem, hsafe.spared⟩
  have hmoved : (moved parent.id name (s.revision + 1) (rt.nowMs w.tick)).apply s ∈ w'.db.nodes :=
    (hrelocated.mem hstored).mpr (Or.inl rfl)
  have hdescendants : ∀ x : NodeId, Below w.db.parent x s.id → w.db.Spared existing x :=
    fun x hx => hsafe.spared.beneath hmoves.dest hsafe.outward hx
  refine ⟨fetch_by_id_of_mem hmoved hs.workspace hs.active, ⟨rfl, rfl, rfl, rfl, rfl⟩, ?_, ?_, ?_,
    ?_, ?_, ?_⟩
  · exact fun g hg => hrelocated.content hwf hs.mem hsafe.spared hg
  · intro key
    rw [hrelocated.attributes]
    exact Db.overwritten_attributes hsafe.spared
  · intro x hx hne hbelow
    exact ⟨(hrelocated.mem hstored).mpr (Or.inr ⟨⟨hx, hdescendants _ hbelow⟩, hne⟩),
      hrelocated.below hstored hbelow (hdescendants _ hbelow) (Or.inl rfl)⟩
  · exact fun x _ hbelow => hrelocated.of_below hstored hbelow
  · obtain ⟨parent_path, hup, hreached⟩ := hsafe.reached
    obtain ⟨up', hup', hsegments⟩ := VirtualPath.parent_of_name hmoves.dest.named
    rw [hup, Option.some.injEq] at hup'
    subst hup'
    refine (resolve_following_append hsegments).mpr ⟨parent, ?_, hmoves.dest.dir, ?_⟩
    · refine (extends_of_subset hwf'.nodes (fun m hm => ?_)).resolve_following hreached
      obtain ⟨hm, hnot, hspared⟩ := Db.mem_detached.mp hm
      refine (hrelocated.mem hstored).mpr (Or.inr ⟨⟨hm, hspared⟩, fun heq => hnot ?_⟩)
      rw [heq]
      exact Below.refl _ _
    · exact fetch_child_of_mem hwf'.nodes hmoved hs.workspace rfl hs.active
  · intro x hx hspared
    by_cases hxs : x.id = s.id
    · obtain rfl := w.db.node_ext hx hs.mem hxs
      exact ⟨_, hmoved, ⟨rfl, rfl, rfl, rfl, rfl⟩, rfl, fun g hg =>
        hrelocated.content hwf hx hspared hg⟩
    · exact ⟨x, (hrelocated.mem hstored).mpr (Or.inr ⟨⟨hx, hspared⟩, hxs⟩), Edit.SameFile.refl x,
        rfl,
        fun g hg => hrelocated.content hwf hx hspared hg⟩

/-- A move that loses nothing spared its source. -/
theorem MoveKeeps.spared (hmoves : Moves w.db ws source_path target options source parent name existing)
    (h : move_tx rt ws source_path target options actor_json w = .ok (.Moved n, w'))
    (hkeeps : MoveKeeps w.db w'.db ws target source existing n) :
    w.db.Spared existing source.id := by
  obtain ⟨s, rfl, _, _, _, hrelocated⟩ := moved_ok hmoves h
  obtain ⟨m, hm, _, _, hid, _⟩ := fetch_by_id_eq_some.mp hkeeps.moved
  rw [hkeeps.same.1] at hid
  rw [hrelocated.nodes] at hm
  obtain ⟨x, hx, hxm⟩ := Table.mem_modify.mp hm
  have hxid : x.id = s.id := by
    split at hxm
    · rename_i hkey
      exact hkey
    · rw [hxm]
      exact hid
  exact hxid ▸ (Db.mem_overwritten.mp hx).2

/-- A move that loses nothing does not put its source under itself: the moved
node would not be reached by any path. -/
theorem MoveKeeps.outward (hmoves : Moves w.db ws source_path target options source parent name existing)
    (h : move_tx rt ws source_path target options actor_json w = .ok (.Moved n, w'))
    (hkeeps : MoveKeeps w.db w'.db ws target source existing n) :
    ¬ Below w.db.parent parent.id source.id := by
  have hspared := hkeeps.spared hmoves h
  obtain ⟨s, rfl, hs, _, rfl, hrelocated⟩ := moved_ok hmoves h
  have hstored : s ∈ (w.db.overwritten existing).nodes := Db.mem_overwritten.mpr ⟨hs.mem, hspared⟩
  obtain ⟨p, rfl, _, hp⟩ := hmoves.dest.parent_live
  intro hbelow
  obtain ⟨m, hraw, hm⟩ := resolve_following_live hkeeps.found
  have hid := congrArg RawNode.id hraw
  have hup := congrArg RawNode.parent_id hraw
  refine hm.acyclic hup ?_
  rw [hid]
  exact hrelocated.below hstored hbelow (Db.mem_overwritten.mp hp.mem).2 (Or.inl rfl)

/-- Without an overwritten entry, what the stores before and after a move both
find is found in the store without the source. -/
theorem Relocated.common {db db' : Db} {s : NodeRow} {up : NodeId} {now : Int}
    (h : Relocated db db' ws s up name none now) (hwf : WellFormed db) (hwf' : WellFormed db')
    (hs : Live db ws s) (hroot : s.parent_id ≠ none) (hfree : fetch_child db ws up name = none) :
    Common ws (fun raw => ∃ m ∈ (db.detached s.id none).nodes, m.toRawNode = raw) db db'
      (db.detached s.id none) := by
  have hstored : s ∈ (db.overwritten none).nodes := hs.mem
  have hshared : ∀ {m : NodeRow}, m ∈ db.nodes → ¬ Below db.parent m.id s.id →
    m ∈ (db.detached s.id none).nodes :=
    fun hm hnot => Db.mem_detached.mpr ⟨hm, hnot, fun occupant hocc => by cases hocc⟩
  have hafter : ∀ {m : NodeRow}, m ∈ db.nodes → ¬ Below db.parent m.id s.id → m ∈ db'.nodes := by
    intro m hm hnot
    refine (h.mem hstored).mpr
      (Or.inr ⟨⟨hm, fun occupant hocc => (by cases hocc)⟩, fun heq => hnot ?_⟩)
    rw [heq]
    exact Below.refl _ _
  have hdetached : NodesWellFormed (db.detached s.id none) := by
    refine hwf.nodes.prune (fun n hn m hm hup hgone => ?_) (fun n hn hnone => ?_)
    · simp only [Option.any_none, Bool.or_false, Db.cascades_iff] at hgone ⊢
      exact Below.head (by rw [Db.parent_of_mem hn, hup]) hgone
    · rw [Option.any_none, Bool.or_false, ← Bool.not_eq_true, Db.cascades_iff]
      intro hbelow
      have hid := hbelow.eq_of_root (by rw [Db.parent_of_mem hn, hnone])
      rw [db.node_ext hn hs.mem hid] at hnone
      exact hroot hnone
  refine ⟨?_, ?_, ?_⟩
  · intro raw hfetch
    obtain ⟨m, hm, rfl, hmws, hnone, _⟩ := fetch_root_eq_some hfetch
    have hnot : ¬ Below db.parent m.id s.id := by
      intro hbelow
      have hid := hbelow.eq_of_root (by rw [Db.parent_of_mem hm, hnone])
      rw [db.node_ext hm hs.mem hid] at hnone
      exact hroot hnone
    exact ⟨⟨m, hshared hm hnot, rfl⟩, fetch_root_of_mem hwf'.nodes (hafter hm hnot) hmws hnone,
      fetch_root_of_mem hdetached (hshared hm hnot) hmws hnone⟩
  · rintro _ segment raw ⟨current, hcurrent, rfl⟩ hfetch
    obtain ⟨m, hm, rfl, hmws, hup, rfl, hactive⟩ := fetch_child_eq_some hfetch
    by_cases hms : m.id = s.id
    · -- the child is the source itself: its old place is empty afterwards
      obtain rfl := db.node_ext hm hs.mem hms
      left
      cases hfound : fetch_child db' ws current.id m.name with
      | none => rfl
      | some other =>
        obtain ⟨x, hx, rfl, hxws, hxup, hxname, hxactive⟩ := fetch_child_eq_some hfound
        obtain rfl | ⟨⟨hx, _⟩, hne⟩ := (h.mem hstored).mp hx
        · rw [show up = current.id from Option.some.inj hxup, show name = m.name from hxname,
            hfetch] at hfree
          cases hfree
        · exact absurd (congrArg NodeRow.key
            (hwf.nodes.name x hx m hm (hxws.trans hmws.symm) (hxup.trans hup.symm)
            (by simp [hxup]) hxname hxactive hactive)) hne
    · right
      have hnot : ¬ Below db.parent m.id s.id := by
        intro hbelow
        obtain heq | hbelow :=
          hbelow.eq_or_parent
          (show db.parent m.id = some current.id by rw [Db.parent_of_mem hm, hup])
        · exact hms heq
        · exact (Db.mem_detached.mp hcurrent).2.1 hbelow
      exact ⟨⟨m, hshared hm hnot, rfl⟩, fetch_child_of_mem hwf'.nodes
        (hafter hm hnot) hmws hup hactive,
        fetch_child_of_mem hdetached (hshared hm hnot) hmws hup hactive⟩
  · rintro _ parent_id raw ⟨current, hcurrent, rfl⟩ hup hfetch
    obtain ⟨m, hm, rfl, hmws, rfl, hactive⟩ := fetch_by_id_eq_some.mp hfetch
    obtain ⟨hcurrent, houtside, _⟩ := Db.mem_detached.mp hcurrent
    have hnot : ¬ Below db.parent m.id s.id :=
      fun hbelow => houtside (Below.head (by rw [Db.parent_of_mem hcurrent, hup]) hbelow)
    exact ⟨⟨m, hshared hm hnot, rfl⟩, fetch_by_id_of_mem (hafter hm hnot) hmws hactive,
      fetch_by_id_of_mem (hshared hm hnot) hmws hactive⟩

/-- A move to a free place that loses nothing is safe. -/
theorem MoveKeeps.safe (hwf : WellFormed w.db)
    (hmoves : Moves w.db ws source_path target options source parent name none)
    (h : move_tx rt ws source_path target options actor_json w = .ok (.Moved n, w'))
    (hkeeps : MoveKeeps w.db w'.db ws target source none n) :
    MoveSafe w.db ws target source parent none := by
  have hwf' : WellFormed w'.db :=
    (move_tx_effect (P := Policy.any) (o := none) hwf (Policy.permits_any _ _ _) h).wellFormed hwf
  refine ⟨hkeeps.spared hmoves h, hkeeps.outward hmoves h, ?_⟩
  obtain ⟨s, rfl, hs, hroot, rfl, hrelocated⟩ := moved_ok hmoves h
  obtain ⟨parent_path, hup, hparent⟩ := hmoves.dest.found
  obtain ⟨up', hup', hsegments⟩ := VirtualPath.parent_of_name hmoves.dest.named
  rw [hup, Option.some.injEq] at hup'
  subst hup'
  obtain ⟨_, hreached, _, _⟩ := (resolve_following_append hsegments).mp hkeeps.found
  exact ⟨parent_path, hup,
    (hrelocated.common hwf hwf' hs hroot hmoves.dest.occupant).resolve_following hparent hreached⟩

/-- A move of a reachable store that reports success loses nothing when its
source, the overwritten entry and the destination path do not overlap, and only
then: always for a free destination, and as far as the source is concerned for
an overwritten one. -/
theorem move_keeps (hreachable : Reachable rt w)
    (h : move_tx rt ws source_path target options actor_json w = .ok (.Moved n, w')) :
    ∃ source parent name existing,
      Moves w.db ws source_path target options source parent name existing ∧
      (MoveSafe w.db ws target source parent existing →
      MoveKeeps w.db w'.db ws target source existing n) ∧
      (MoveKeeps w.db w'.db ws target source existing n →
        w.db.Spared existing source.id ∧ ¬ Below w.db.parent parent.id source.id ∧
          (existing = none → MoveSafe w.db ws target source parent existing)) := by
  have hwf := hreachable.sound.wf
  obtain ⟨_, hnot⟩ | ⟨source, parent, name, existing, _, _, hmoves, _⟩ := move_tx_ok h
  · exact absurd rfl (hnot n)
  · refine ⟨source, parent, name, existing, hmoves, moveKeeps_of_safe hwf hmoves h, fun hkeeps =>
      ⟨hkeeps.spared hmoves h, hkeeps.outward hmoves h, ?_⟩⟩
    rintro rfl
    exact hkeeps.safe hwf hmoves h

end keeps

/-- The row that a successful move returns. -/
def moved_row : Except Fault (MoveOutcome × World) → Option RawNode
  | .ok (.Moved row, _) => some row
  | _ => none

theorem moved_row_eq_some {result : Except Fault (MoveOutcome × World)} {row : RawNode}
    (h : moved_row result = some row) :
    ∃ w', result = .ok (.Moved row, w') := by
  unfold moved_row at h
  split at h
  · rename_i w'
    cases h
    exact ⟨w', rfl⟩
  · cases h

/-- The directories `/a`, `/a/b` and `/c` of a new workspace. -/
def nestedRequests : List (RequestContext × Request) :=
  [(.trusted 0, .CreateWorkspace {}),
    (.trusted 0, .Perform (.Mkdir (.named [['a'], ['b']]) { parents := true })),
    (.trusted 0, .Perform (.Mkdir (.named [['c']]) {}))]

/-- The store with these directories. -/
def nestedWorld : World := serveAll Runtime.counting nestedRequests ⟨Db.empty, 0⟩

theorem nestedWorld_reachable : Reachable Runtime.counting nestedWorld :=
  (Reachable.empty _).serveAll _

theorem nestedWorld_tree_shaped : TreeShaped nestedWorld.db 0 :=
  nestedWorld_reachable.treeShaped_of_climbs (by decide +kernel) (by decide +kernel)

/-- The directory `/a/b` moved to `/c/b` keeps everything. -/
theorem nested_move_keeps : ∃ n w' source parent name existing, move_tx Runtime.counting 0
    (.ofSegments [['a'], ['b']] (by decide))
      (.ofSegments [['c'], ['b']] (by decide)) {} [] nestedWorld = .ok (.Moved n, w') ∧
    Moves nestedWorld.db 0 (.ofSegments [['a'], ['b']] (by decide))
      (.ofSegments [['c'], ['b']] (by decide)) {} source parent name existing ∧
    MoveKeeps nestedWorld.db w'.db 0
      (.ofSegments [['c'], ['b']] (by decide)) source existing n := by
  obtain ⟨n, hn⟩ := Option.isSome_iff_exists.mp (show (moved_row (move_tx Runtime.counting 0
    (.ofSegments [['a'], ['b']] (by decide)) (.ofSegments [['c'], ['b']] (by decide))
      {} [] nestedWorld)).isSome = true by
    decide +kernel)
  obtain ⟨w', h⟩ := moved_row_eq_some hn
  obtain ⟨source, parent, name, existing, hmoves, hkeeps, _⟩ := move_keeps nestedWorld_reachable h
  have hcheck : ((resolve_following nestedWorld.db 0
      (.ofSegments [['a'], ['b']] (by decide)) false).found?.all fun source =>
    (resolve_following nestedWorld.db 0 (.ofSegments [['c']] (by decide)) true).found?.all
      fun parent => decide (fetch_child nestedWorld.db 0 parent.id ['b'] = none ∧
        nestedWorld.db.cascades source.id parent.id = false ∧
        (resolve_following (nestedWorld.db.detached source.id none) 0
          (.ofSegments [['c']] (by decide)) true).found? = some parent)) = true := by decide +kernel
  have hup : VirtualPath.parent (.ofSegments [['c'], ['b']] (by decide)) =
      some (.ofSegments [['c']] (by decide)) := by decide +kernel
  have hlast : VirtualPath.name (.ofSegments [['c'], ['b']] (by decide)) = some ['b'] := by
    decide +kernel
  obtain ⟨parent_path, hparent_path, hparent⟩ := hmoves.dest.found
  obtain rfl := Option.some.inj (hup.symm.trans hparent_path)
  obtain rfl := Option.some.inj (hlast.symm.trans hmoves.dest.named)
  rw [hmoves.found, hparent] at hcheck
  obtain ⟨hfree, hout, hreached⟩ := of_decide_eq_true hcheck
  obtain rfl := hmoves.dest.occupant.symm.trans hfree
  refine ⟨n, w', source, parent, _, none, h, hmoves, hkeeps ⟨fun _ hnone => (by cases hnone), ?_,
    _, hup, ResolveOutcome.found?_eq_some hreached⟩⟩
  rw [← Db.cascades_iff, hout]
  exact Bool.false_ne_true

/-- Moving `/a/b` over its own parent `/a` deletes it and reports success. -/
theorem nested_move_loses : Reachable Runtime.counting nestedWorld ∧ TreeShaped nestedWorld.db 0 ∧
    ∃ n w', move_tx Runtime.counting 0 (.ofSegments [['a'], ['b']] (by decide))
      (.ofSegments [['a']] (by decide))
        { overwrite := true } [] nestedWorld = .ok (.Moved n, w') ∧
      ∀ source existing, ¬ MoveKeeps nestedWorld.db w'.db 0
        (.ofSegments [['a']] (by decide)) source existing n := by
  refine ⟨nestedWorld_reachable, nestedWorld_tree_shaped, ?_⟩
  obtain ⟨n, hn⟩ := Option.isSome_iff_exists.mp (show (moved_row (move_tx Runtime.counting 0
    (.ofSegments [['a'], ['b']] (by decide)) (.ofSegments [['a']] (by decide))
      { overwrite := true } []
    nestedWorld)).isSome = true by decide +kernel)
  obtain ⟨w', h⟩ := moved_row_eq_some hn
  refine ⟨n, w', h, fun source existing hkeeps => ?_⟩
  have hgone : (match move_tx Runtime.counting 0 (.ofSegments [['a'], ['b']] (by decide))
      (.ofSegments [['a']] (by decide)) { overwrite := true } [] nestedWorld with
    | .ok (.Moved row, w') => fetch_by_id w'.db 0 row.id
    | _ => none) = none := by decide +kernel
  rw [h] at hgone
  have hmoved := hkeeps.moved
  rw [show fetch_by_id w'.db 0 n.id = none from hgone] at hmoved
  cases hmoved

end mutate

end fslite
