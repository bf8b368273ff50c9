import Fslite.Sqlite.Run.Durable
import Fslite.Sqlite.Run.Views

namespace fslite

open resolve trash

/-- A record that is stored has been stored all along, and what it stands for has
remained. -/
theorem Foreign.remained {rt : Runtime} {P : Policy} {t : TrashRow} {w w' : World}
    (h : Relation.ReflTransGen (Foreign rt P none) w w') (hdrawn : Drawn rt 0 w.tick t.id) :
    w.tick ≤ w'.tick ∧ (t ∈ w'.db.trash → t ∈ w.db.trash ∧ Remains t w.db w'.db) := by
  induction h with
  | refl => exact ⟨le_refl _, fun ht => ⟨ht, ht, fun n hn _ => hn, fun _ _ hn => hn⟩⟩
  | tail _ hstep ih =>
    obtain ⟨htick, ih⟩ := ih
    obtain ⟨hsound, _, _, _, heffect⟩ := hstep
    refine ⟨htick.trans heffect.tick, ?_⟩
    refine (heffect.edits.preserve (fun _ hf => Or.inr hf) hsound.wf
      (I := fun a => t ∈ a.trash → t ∈ w.db.trash ∧ Remains t w.db a)
      (fun {a b} hedit hwf ha hb => ?_) ih).2
    obtain hstored | ⟨hlater, _⟩ := hedit.record_origin hb
    · obtain ⟨ht, hremains⟩ := ha hstored
      exact ⟨ht, hb, fun n hn hid => hedit.trashed_stays hwf hstored hb
        (hremains.node n hn hid) hid,
        fun names n hn => hedit.beneath_stays hwf hstored hb (hremains.beneath names n hn)⟩
    · exact ((hdrawn.mono (le_refl _) htick).disjoint hlater).elim

/-- The store after a node has been brought back from the trash, in terms of the one
before. -/
structure BroughtBack (db db' : Db) (ws : WorkspaceId) (record : TrashRow)
    (destination : Option VirtualPath) (n p : NodeRow) (name : Text) (now : Int) : Prop where
  recorded : record ∈ db.trash
  stored : n ∈ db.nodes
  node : n.id = record.node_id
  workspace : n.workspace_id = ws
  trashed : n.trashed_at_ms ≠ none
  returns : Returns db ws record destination p.toRawNode name
  parent : p ∈ db.nodes
  active : p.trashed_at_ms = none
  dir : p.kind = .Directory
  segment : Segment name
  nodes : db'.nodes = db.nodes.modify n.id (restored p.id name (n.revision + 1) now)
  trash : db'.trash = (db.remove_trash record.id).trash
  attributes : db'.attributes = db.attributes
  content_generations : db'.content_generations = db.content_generations
  content_chunks : db'.content_chunks = db.content_chunks

section brought

variable {rt : Runtime} {ws : WorkspaceId} {w w' : World} {destination : Option VirtualPath}
  {record : TrashRow} {n p m : NodeRow} {name : Text} {now : Int}

theorem trash.restore_tx_brought {trash_id : TrashId} {options : MutationOptions}
    {actor_json : Text} {row : RawNode} (hwf : WellFormed w.db)
    (h : restore_tx rt ws trash_id destination options actor_json w = .ok (.Restored row, w')) :
    ∃ record n p name now, record.id = trash_id ∧
    BroughtBack w.db w'.db ws record destination n p name now ∧
      row = ((restored p.id name (n.revision + 1) now).apply n).toRawNode := by
  obtain ⟨_, hnot⟩ | ⟨record, node, parent, name, db, row', houtcome, hrestores, hupdate, _, happ,
    hfetch⟩ := restore_tx_ok h
  · exact absurd rfl (hnot row)
  · cases houtcome
    obtain ⟨hrecord, hrecordws, rfl⟩ := fetch_trash_row_eq_some hrestores.recorded
    obtain ⟨n, hn, rfl, hws, hid⟩ := fetch_by_id_any_eq_some.mp hrestores.stored
    obtain ⟨n', hn', hid', _, htrashed, hup, hname⟩ := hwf.trash.record record hrecord
    obtain rfl := w.db.node_ext hn' hn (hid'.trans hid.symm)
    obtain ⟨p, hp, rfl, hdir, _, hactive, _, hsegment⟩ :=
      hrestores.dest.place hup hname.symm hwf hn'
    obtain rfl := Db.update_node_ok hupdate
    have happended := happ.appended
    refine ⟨record, n', p, name, _, rfl,
      ⟨hrecord, hn', hid', hws, htrashed, hrestores.dest, hp, hactive, hdir, hsegment,
      happended.nodes, happended.trash, happended.attributes, happended.content_generations,
        happended.content_chunks⟩, ?_⟩
    obtain ⟨m, hm, hraw, _, hmid, _⟩ := fetch_by_id_eq_some.mp hfetch
    rw [happended.nodes] at hm
    obtain rfl | ⟨_, hne⟩ := (Db.mem_modify_nodes hn').mp hm
    · exact hraw.symm
    · exact absurd hmid hne

namespace BroughtBack

variable {db db' : Db}

theorem mem (h : BroughtBack db db' ws record destination n p name now) : m ∈ db'.nodes ↔
    m = (restored p.id name (n.revision + 1) now).apply n ∨ m ∈ db.nodes ∧ m.id ≠ n.id := by
  rw [h.nodes]
  exact Db.mem_modify_nodes h.stored

/-- What is untrashed stays as it is. -/
theorem keeps (h : BroughtBack db db' ws record destination n p name now) (hm : m ∈ db.nodes)
    (hactive : m.trashed_at_ms = none) :
    m ∈ db'.nodes := by
  refine h.mem.mpr (Or.inr ⟨hm, fun hid => h.trashed ?_⟩)
  rw [db.node_ext h.stored hm hid.symm, hactive]

theorem child (h : BroughtBack db db' ws record destination n p name now)
    (hwf : NodesWellFormed db') :
    fetch_child db' ws p.id name =
      some ((restored p.id name (n.revision + 1) now).apply n).toRawNode :=
  fetch_child_of_mem hwf (h.mem.mpr (Or.inl rfl)) h.workspace rfl rfl

theorem original (h : BroughtBack db db' ws record none n p name now) :
    p.id = record.original_parent_id ∧ name = record.original_name := by
  cases h.returns with
  | original hparent hdir =>
    obtain ⟨m, _, hraw, _, hid, _⟩ := fetch_by_id_eq_some.mp hparent
    exact ⟨(congrArg RawNode.id hraw).symm.trans hid, rfl⟩

/-- What is live afterwards and not below the node was live before. -/
theorem live (h : BroughtBack db db' ws record destination n p name now) (hm : Live db' ws m)
    (hnot : ¬ Below db'.parent m.id n.id) : Live db ws m := by
  induction hm with
  | root hmem hws hroot hactive =>
    obtain rfl | ⟨hmem, _⟩ := h.mem.mp hmem
    · cases hroot
    · exact .root hmem hws hroot hactive
  | @child m q _ hdir hmem hws hup hactive ih =>
    obtain rfl | ⟨hold, _⟩ := h.mem.mp hmem
    · exact absurd (Below.refl _ _) hnot
    · exact .child (ih fun hbelow =>
        hnot ((Db.below_of_mem hmem hup).mpr (Or.inr hbelow))) hdir hold hws hup hactive

end BroughtBack

end brought

/-- Every live node has a path. -/
theorem Live.resolves {db : Db} {ws : WorkspaceId} {n : NodeRow} (h : Live db ws n)
    (hwf : NodesWellFormed db) :
    ∃ path, resolve db ws path = some n.toRawNode := by
  obtain ⟨r, hr, hroot, hws, _⟩ := h.below_root
  obtain ⟨_, hactive⟩ := hwf.root_shape r hr hroot
  have hlive : Live db ws r := .root hr hws hroot hactive
  have hfound : resolve db ws VirtualPath.root = some r.toRawNode := by
    simp only [resolve.resolve, fetch_root_of_mem hwf hr hws hroot, VirtualPath.segments_root, walk]
  obtain rfl | ⟨names, hn⟩ := Beneath.of_live hwf hlive hroot h
  · exact ⟨VirtualPath.root, hfound⟩
  · obtain ⟨path, hpath⟩ := beneath_path hwf hn
    exact ⟨path, (resolve_iff_beneath hwf hfound hlive hn.names_ne_nil (by simpa using hpath)).mpr
      ⟨n, rfl, hn⟩⟩

/-- What a restoration promises: its node is reached by a path, at the destination that
was given or in its old place under its old parent, and is what it was but for its
place, its revision and its times; the untrashed nodes that it had beneath it are back
under their names with what they were; the record is gone, and nothing else has
changed. -/
structure RestoredFully (record : TrashRow) (trashed db db' : Db) (ws : WorkspaceId)
    (destination : Option VirtualPath) (row : RawNode) : Prop where
  node : row.id = record.node_id
  reached : ∃ path, resolve db' ws path = some row
  given : ∀ path, destination = some path → resolve_following db' ws path false = .Found row
  original : destination = none → ∃ parent_path parent path,
    resolve db' ws parent_path = some parent ∧
    parent.id = record.original_parent_id ∧
      path.segments = parent_path.segments ++ [record.original_name] ∧
    resolve db' ws path = some row
  top : ∃ n ∈ trashed.nodes, n.id = record.node_id ∧ ∃ m ∈ db'.nodes, m.toRawNode = row ∧
    SameVersion trashed n db' { m with parent_id := n.parent_id, name := n.name }
  beneath : ∀ names m, Beneath trashed record.node_id names m → SameVersion trashed m db' m ∧
    ∀ path path', resolve db' ws path = some row → path'.segments = path.segments ++ names →
      resolve db' ws path' = some m.toRawNode
  gone : ∀ t, t ∈ db'.trash ↔ t ∈ db.trash ∧ t ≠ record
  others : ∀ m, m.id ≠ record.node_id → (m ∈ db'.nodes ↔ m ∈ db.nodes)
  attributes : db'.attributes = db.attributes
  content_generations : db'.content_generations = db.content_generations
  content_chunks : db'.content_chunks = db.content_chunks

namespace BroughtBack

variable {ws : WorkspaceId} {destination : Option VirtualPath} {record : TrashRow} {n p : NodeRow}
  {name : Text} {now : Int} {db db' : Db}

theorem extended (h : BroughtBack db db' ws record destination n p name now)
    (hwf' : NodesWellFormed db') :
    Extends ws id db db' := extends_of_active hwf' (fun _ hm hactive => h.keeps hm hactive)

/-- The node is what it was before, but for its place, its revision and its times. -/
theorem sameVersion (h : BroughtBack db db' ws record destination n p name now) {before : Db}
    {n₀ : NodeRow} (hversion : SameVersion before n₀ db n) : SameVersion before n₀ db'
      { (restored p.id name (n.revision + 1) now).apply n with
        parent_id := n₀.parent_id, name := n₀.name } where
  kind := hversion.kind
  parent := rfl
  name := rfl
  size := hversion.size
  target := hversion.target
  generation := hversion.generation
  content g hg := by
    obtain ⟨hrow, hchunk⟩ := hversion.content g hg
    refine ⟨?_, fun i => ?_⟩
    · rw [← hrow, Db.generation?, h.content_generations]
      rfl
    · rw [← hchunk, h.content_chunks]
  attributes key := by rw [← hversion.attributes, h.attributes]

theorem parent_live (h : BroughtBack db db' ws record destination n p name now)
    (hlive : IsLive db' ws p.toRawNode) :
    Live db' ws p := by
  obtain ⟨q, hq, hlive⟩ := hlive
  rwa [db'.node_ext (h.keeps h.parent h.active) hlive.mem (congrArg RawNode.id hq).symm]

theorem node_live (h : BroughtBack db db' ws record destination n p name now)
    (hlive : Live db' ws p) :
    Live db' ws ((restored p.id name (n.revision + 1) now).apply n) :=
  .child hlive h.dir (h.mem.mpr (Or.inl rfl)) h.workspace rfl rfl

/-- The node's directory is live afterwards if and only if a destination was given or
the original parent was to be found. -/
theorem live_iff (h : BroughtBack db db' ws record destination n p name now)
    (hwf : NodesWellFormed db) (hwf' : NodesWellFormed db') : Live db' ws p ↔
      destination ≠ none ∨ ∃ path parent, resolve db ws path = some parent ∧
      parent.id = record.original_parent_id := by
  constructor
  · intro hlive
    cases destination with
    | some path => exact Or.inl (Option.some_ne_none path)
    | none =>
      have hbefore : Live db ws p := h.live hlive ((h.node_live hlive).acyclic rfl)
      obtain ⟨path, hpath⟩ := hbefore.resolves hwf
      exact Or.inr ⟨path, p.toRawNode, hpath, h.original.1⟩
  · intro hcondition
    apply h.parent_live
    cases destination with
    | some path =>
      cases h.returns with
      | given _ _ hparent => exact resolve_following_live ((h.extended hwf').resolve_following hparent)
    | none =>
      obtain hnone | ⟨path, parent, hpath, hid⟩ := hcondition
      · exact absurd rfl hnone
      · obtain ⟨q, rfl, hq⟩ := resolve_live hpath
        obtain rfl := db.node_ext hq.mem h.parent (hid.trans h.original.1.symm)
        exact resolve_live ((h.extended hwf').resolve_path hpath)

/-- Where the node is found when its directory is live. -/
theorem found (h : BroughtBack db db' ws record destination n p name now)
    (hwf' : NodesWellFormed db') (hlive : Live db' ws p) :
    (∀ path, destination = some path →
        resolve_following db' ws path false = .Found
          ((restored p.id name (n.revision + 1) now).apply n).toRawNode) ∧
      ∃ parent_path path, resolve db' ws parent_path = some p.toRawNode ∧
      path.segments = parent_path.segments ++ [name] ∧
        resolve db' ws path =
          some ((restored p.id name (n.revision + 1) now).apply n).toRawNode := by
  constructor
  · rintro path rfl
    cases h.returns with
    | given hname hparent_path hparent hdir =>
      obtain ⟨up, hup, hsegments⟩ := VirtualPath.parent_of_name hname
      rw [hparent_path, Option.some.injEq] at hup
      subst hup
      exact (resolve_following_append hsegments).mpr
        ⟨_, (h.extended hwf').resolve_following hparent, hdir, h.child hwf'⟩
  · obtain ⟨parent_path, hparent⟩ := hlive.resolves hwf'
    obtain ⟨path, _, hpath⟩ :=
      parent_path.join_names (List.cons_ne_nil name []) (by simpa using h.segment)
    exact ⟨parent_path, path, hparent, hpath, resolve_child hwf' hpath hparent h.dir
      (h.mem.mpr (Or.inl rfl)) h.workspace rfl rfl⟩

end BroughtBack

theorem Db.mem_remove_trash {db : Db} {record t : TrashRow} (hrecord : record ∈ db.trash) :
    t ∈ (db.remove_trash record.id).trash ↔ t ∈ db.trash ∧ t ≠ record := by
  rw [show t ∈ (db.remove_trash record.id).trash ↔ _ from Table.mem_deleteWhere,
    decide_eq_false_iff_not]
  refine and_congr_right (fun ht =>
    not_congr ⟨fun hid => Table.eq_of_key_eq ht hrecord hid, fun heq => heq ▸ rfl⟩)

/-- A restoration that succeeds does all that it promises if and only if a destination
was given or the original parent is where a path leads. -/
theorem restored_iff {rt : Runtime} {ws ws' : WorkspaceId} {path : VirtualPath}
    {options options' : MutationOptions} {actor_json actor_json' : Text} {record : TrashRow}
    {node row : RawNode} {time : Int} {destination : Option VirtualPath} {w₀ w₁ w w' : World}
    (hw : Ongoing rt w₀) (htrash : trash_tx rt ws path options actor_json w₀ = .ok
    (.Trashed record.id node time, w₁)) (hrecord : record ∈ w₁.db.trash) (hlater : Later rt w₁ w)
    (hrestore : restore_tx rt ws' record.id destination options' actor_json' w = .ok
    (.Restored row, w')) :
    RestoredFully record w₀.db w.db w'.db ws' destination row ↔ destination ≠ none ∨ ∃ path parent,
      resolve w.db ws' path = some parent ∧ parent.id = record.original_parent_id := by
  have hsound := hw.sound
  have htrashing : Foreign rt Policy.any none w₀ w₁ :=
    ⟨hsound, none, fun _ hg => (by cases hg), fun _ hg => (by cases hg),
      trash_tx_effect hsound.wf (fun _ _ => trivial) htrash⟩
  have hforeign : Relation.ReflTransGen (Foreign rt Policy.any none) w₀ w :=
    .head htrashing hlater.foreign
  have hsound₁ := htrashing.sound
  have hsoundw : Sound rt Policy.any False w := by
    cases hlater with
    | refl => exact htrashing.sound
    | tail _ hlast => exact hlast.foreign.sound
  have hrestoring : Foreign rt Policy.any none w w' :=
    ⟨hsoundw, none, fun _ hg => (by cases hg), fun _ hg => (by cases hg),
      restore_tx_effect hsoundw.wf (fun _ _ _ _ _ => trivial) hrestore⟩
  have hwf' := hrestoring.sound.wf
  obtain ⟨record', n, p, name, now, hid, hbrought, rfl⟩ := restore_tx_brought hsoundw.wf hrestore
  have hremained := (Foreign.remained (t := record') hlater.foreign
    (hid ▸ htrashing.sound.issued.trash record hrecord)).2 hbrought.recorded
  obtain rfl := Table.eq_of_key_eq hremained.1 hrecord hid
  obtain ⟨hnode, n₀, rfl, hn₀, hmarked, hbeneath⟩ := trash_tx_remains htrash hrecord rfl
  have hn : (trashed time).apply n₀ = n :=
    w.db.node_ext (hremained.2.node _ hmarked hnode.symm) hbrought.stored
      (hnode.symm.trans hbrought.node.symm)
  have hversion : SameVersion w₀.db n₀ w.db n := by
    subst hn
    exact ((Foreign.version hforeign hn₀.mem (hsound.issued.node n₀ hn₀.mem)).2 _ hbrought.stored
      rfl).2 rfl
  rw [← hbrought.live_iff hsoundw.wf.nodes hwf'.nodes]
  constructor
  · intro hfully
    cases destination with
    | some path => exact (hbrought.live_iff hsoundw.wf.nodes hwf'.nodes).mpr (Or.inl (Option.some_ne_none path))
    | none =>
      obtain ⟨parent_path, parent, _, hparent, hup, _⟩ := hfully.original rfl
      obtain ⟨q, rfl, hq⟩ := resolve_live hparent
      have hrow : p ∈ w'.db.nodes := hbrought.keeps hbrought.parent hbrought.active
      rwa [w'.db.node_ext hrow hq.mem (hbrought.original.1.trans hup.symm)]
  · intro hlive
    obtain ⟨hgiven, parent_path, path, hparent, hsegments, hpath⟩ := hbrought.found hwf'.nodes hlive
    refine ⟨hbrought.node, ⟨path, hpath⟩, hgiven, ?_, ⟨n₀, hn₀.mem, hnode.symm, _,
      hbrought.mem.mpr (Or.inl rfl), rfl, hbrought.sameVersion hversion⟩,
      fun names m hm => ?_, fun t => ?_,
      fun m hne => ?_, hbrought.attributes,
      hbrought.content_generations, hbrought.content_chunks⟩
    · rintro rfl
      obtain ⟨hup, rfl⟩ := hbrought.original
      exact ⟨parent_path, p.toRawNode, path, hparent, hup, hsegments, hpath⟩
    · have hstays : Beneath w.db record'.node_id names m :=
        hremained.2.beneath names m (hnode ▸ hbeneath names m (hnode ▸ hm))
      have hback : Beneath w'.db record'.node_id names m :=
        hstays.carry (fun names m hm => hbrought.keeps hm.mem hm.active)
      refine ⟨((Foreign.version (hforeign.tail hrestoring) hm.mem
        (hsound.issued.node m hm.mem)).2 m hback.mem rfl).2 rfl,
        fun path path' hpath hsegments => ?_⟩
      obtain ⟨r, hr, hlive⟩ := resolve_live hpath
      rw [← hr] at hpath
      have hid : r.id = record'.node_id := (congrArg RawNode.id hr).trans hbrought.node
      exact (resolve_iff_beneath hwf'.nodes hpath hlive hback.names_ne_nil hsegments).mpr
        ⟨m, rfl, hid ▸ hback⟩
    · rw [hbrought.trash]
      exact Db.mem_remove_trash hbrought.recorded
    · rw [hbrought.mem]
      have hother : m.id ≠ n.id := fun heq => hne (heq.trans hbrought.node)
      refine ⟨?_, fun hm => Or.inr ⟨hm, hother⟩⟩
      rintro (rfl | ⟨hm, _⟩)
      · exact absurd rfl hother
      · exact hm

section runs

/-- A run that serves these requests one after another, the first of them a trashing. -/
theorem later_trashing {requests rest : List (RequestContext × Request)} {path : VirtualPath}
    {outcome : TrashOutcome} {w : World}
    (htrash : trash_tx Runtime.counting 0 path {} (actor_json Runtime.counting (.trusted 0))
      (serveAll Runtime.counting requests ⟨Db.empty, 0⟩) = .ok (outcome, w)) :
    Ongoing Runtime.counting (serveAll Runtime.counting requests ⟨Db.empty, 0⟩) ∧
      Later Runtime.counting w (serveAll Runtime.counting rest w) := by
  obtain ⟨ps, hc⟩ := serveAll_run Runtime.counting requests ⟨Db.empty, 0⟩ []
  obtain ⟨next, hproc⟩ := trashing_arrived path ps
  have hafter := (hc.tail (.arrive _ ps _
    (served_counting (.trusted 0) (.Perform (.Trash path {}))))).tail
    (.advance _ _ ps.length _ next hproc trivial)
  have hw : (DbCall.exec Runtime.counting
    (.transaction 0 (.Trash path {}) (actor_json Runtime.counting (.trusted 0)))
      (serveAll Runtime.counting requests ⟨Db.empty, 0⟩)).2 = w := DbCall.exec_of_body htrash rfl
  rw [hw] at hafter
  obtain ⟨rs, hrest⟩ := serveAll_run Runtime.counting rest w _
  exact ⟨.start ⟨_, hc, rfl⟩, Reached.later hafter hrest⟩

def trash.RestoreOutcome.restored? : RestoreOutcome → Option RawNode
  | .Restored row => some row
  | _ => none

theorem trash.RestoreOutcome.restored?_eq_some {outcome : RestoreOutcome} {row : RawNode}
    (h : outcome.restored? = some row) : outcome = .Restored row := by
  cases outcome with
  | Restored row' =>
    cases h
    rfl
  | _ => cases h

/-- The directory `/a/f` with its file, brought back from the trash after `/b` has been
removed. -/
theorem directory_restored : ∃ (record : TrashRow) (row : RawNode) (w w' : World),
    restore_tx Runtime.counting 0 record.id none {}
      (actor_json Runtime.counting (.trusted 0)) w = .ok (.Restored row, w') ∧
    RestoredFully record (serveAll Runtime.counting trashingRequests
      ⟨Db.empty, 0⟩).db w.db w'.db 0 none row := by
  obtain ⟨⟨outcome, w⟩, htrash, hok⟩ := @Tx.ok_of_any _ (trash_tx Runtime.counting 0
    (.ofSegments [['a'], ['f']] (by decide)) {} (actor_json Runtime.counting (.trusted 0))
      (serveAll Runtime.counting trashingRequests ⟨Db.empty, 0⟩))
    (fun p => p.1.trashed?.any fun id =>
      (restore_tx Runtime.counting 0 id none {} (actor_json Runtime.counting (.trusted 0))
        (serveAll Runtime.counting (afterTrashing.drop 1) p.2)).toOption.any
          fun (q : RestoreOutcome × World) =>
          q.1.restored?.any fun _ => p.2.db.trash.rows.all
            (fun t => (resolve (serveAll Runtime.counting (afterTrashing.drop 1) p.2).db 0
              (.ofSegments [['a']] (by decide))).map RawNode.id = some t.original_parent_id))
    (by decide +kernel)
  obtain ⟨id, hid, hok⟩ := (Option.any_eq_true _ _).mp hok
  obtain ⟨node, time, rfl⟩ := TrashOutcome.trashed?_eq_some hid
  obtain ⟨record, hrecord, rfl⟩ := trash_tx_recorded htrash
  obtain ⟨⟨restored, w'⟩, hrestore, hok⟩ := Tx.ok_of_any hok
  obtain ⟨row, hrow, hok⟩ := (Option.any_eq_true _ _).mp hok
  obtain rfl := RestoreOutcome.restored?_eq_some hrow
  have hparent := of_decide_eq_true (List.all_eq_true.mp hok record hrecord)
  obtain ⟨parent, hfound, hid⟩ := Option.map_eq_some_iff.mp hparent
  obtain ⟨hw, hlater⟩ := later_trashing htrash
  exact ⟨record, row, _, w', hrestore, (restored_iff hw htrash hrecord hlater hrestore).mpr
    (Or.inr ⟨_, parent, hfound, hid⟩)⟩

/-- A new workspace with the directories `/a`, `/a/b` and `/a/b/c`. -/
def deepRequests : List (RequestContext × Request) :=
  [(.trusted 0, .CreateWorkspace {}),
    (.trusted 0, .Perform (.Mkdir (.named [['a'], ['b'], ['c']])
      { parents := true }))]

/-- With `/a/b/c` in the trash and `/a` in the trash after it, the former is restored out
of sight: it is in the trash no more, and no path leads to it. -/
theorem restored_out_of_sight :
    ∃ (record : TrashRow) (node row : RawNode) (time : Int) (w₁ w w' : World),
    Ongoing Runtime.counting (serveAll Runtime.counting deepRequests ⟨Db.empty, 0⟩) ∧
    trash_tx Runtime.counting 0 (.ofSegments [['a'], ['b'], ['c']] (by decide)) {}
      (actor_json Runtime.counting (.trusted 0))
      (serveAll Runtime.counting deepRequests ⟨Db.empty, 0⟩) = .ok
      (.Trashed record.id node time, w₁) ∧
    record ∈ w₁.db.trash ∧ Later Runtime.counting w₁ w ∧
    restore_tx Runtime.counting 0 record.id none {}
      (actor_json Runtime.counting (.trusted 0)) w = .ok (.Restored row, w') ∧
    ¬ RestoredFully record (serveAll Runtime.counting deepRequests
      ⟨Db.empty, 0⟩).db w.db w'.db 0 none row := by
  obtain ⟨⟨outcome, w⟩, htrash, hok⟩ := @Tx.ok_of_any _ (trash_tx Runtime.counting 0
    (.ofSegments [['a'], ['b'], ['c']] (by decide)) {} (actor_json Runtime.counting (.trusted 0))
      (serveAll Runtime.counting deepRequests ⟨Db.empty, 0⟩))
    (fun p => p.1.trashed?.any fun id =>
      (restore_tx Runtime.counting 0 id none {} (actor_json Runtime.counting (.trusted 0))
        (serveAll Runtime.counting [(.trusted 0,
          .Perform (.Trash (.ofSegments [['a']] (by decide)) {}))] p.2)).toOption.any
          fun (q : RestoreOutcome × World) =>
            q.1.restored?.any fun row => q.2.db.nodes.rows.any
              (fun a => a.trashed_at_ms.isSome ∧ q.2.db.nodes.rows.any (fun b =>
                b.parent_id = some a.id ∧ row.parent_id = some b.id)))
    (by decide +kernel)
  obtain ⟨id, hid, hok⟩ := (Option.any_eq_true _ _).mp hok
  obtain ⟨node, time, rfl⟩ := TrashOutcome.trashed?_eq_some hid
  obtain ⟨record, hrecord, rfl⟩ := trash_tx_recorded htrash
  obtain ⟨⟨restored, w'⟩, hrestore, hok⟩ := Tx.ok_of_any hok
  obtain ⟨row, hrow, hok⟩ := (Option.any_eq_true _ _).mp hok
  obtain rfl := RestoreOutcome.restored?_eq_some hrow
  obtain ⟨hw, hlater⟩ := later_trashing htrash
  refine ⟨record, node, row, time, w, _, w', hw, htrash, hrecord, hlater, hrestore,
    fun hfully => ?_⟩
  obtain ⟨path, hpath⟩ := hfully.reached
  obtain ⟨c, rfl, hc⟩ := resolve_live hpath
  obtain ⟨a, ha, hchain⟩ := List.any_eq_true.mp hok
  obtain ⟨htrashed, hchain⟩ := of_decide_eq_true hchain
  obtain ⟨b, hb, hchain⟩ := List.any_eq_true.mp hchain
  obtain ⟨hba, hcb⟩ := of_decide_eq_true hchain
  obtain ⟨b', hb', _, hbid⟩ := hc.parent hcb
  obtain rfl := w'.db.node_ext hb'.mem hb hbid
  obtain ⟨a', ha', _, haid⟩ := hb'.parent hba
  obtain rfl := w'.db.node_ext ha'.mem ha haid
  rw [ha'.active] at htrashed
  cases htrashed

end runs

end fslite
