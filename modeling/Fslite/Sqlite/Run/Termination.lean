import Fslite.Sqlite.Run.Move
import Fslite.Sqlite.Run.Total

namespace fslite

open resolve mutate

/-- How many stored nodes lie at or below the node. -/
noncomputable def Db.extent (db : Db) (id : NodeId) : Nat :=
  weight db.parent (db.nodes.rows.map NodeRow.key).toFinset id

/-- The operation is a copy whose destination directory is its source or lies
below it. -/
def CopiesInward (db : Db) (ws : WorkspaceId) (source_path target : VirtualPath)
    (options : CopyOptions) : Prop :=
  ∃ source parent name existing,
    Copies db ws source_path target options source parent name existing ∧
    Below db.parent parent.id source.id

/-- The loop of `copy_subtree` that the copy enters is left after finitely many
rounds, without a bound of the model's own. -/
def CopyEnds (rt : Runtime) (w : World) (ws : WorkspaceId) (source_path target : VirtualPath)
    (options : CopyOptions) : Prop :=
  ∀ source parent name existing full,
    Copies w.db ws source_path target options source parent name existing →
    fetch_by_id (w.db.overwritten existing) ws source.id = some full → ∃ rounds,
      copy_loop rt ws (rt.nowMs w.tick) rounds [(full, parent.id,
        name)] none ⟨w.db.overwritten existing, w.tick + 1⟩ ≠ .error .Diverges

namespace mutate

variable {rt : Runtime} {ws : WorkspaceId} {w : World} {db : Db}

/-- What a live node reaches is live and lies below it. -/
theorem Reaches.live {a b : RawNode} (h : Reaches db ws a b) (ha : IsLive db ws a) :
    IsLive db ws b ∧ Below db.parent b.id a.id := by
  induction h with
  | refl => exact ⟨ha, Below.refl _ _⟩
  | @tail b c _ hstep ih =>
    obtain ⟨⟨p, rfl, hp⟩, hbelow⟩ := ih
    obtain ⟨hdir, hchild⟩ := hstep
    obtain ⟨n, hn, rfl, hws, hup, hactive⟩ := mem_fetch_children.mp hchild
    exact ⟨⟨n, rfl, .child hp hdir hn hws hup hactive⟩,
      Below.head (by rw [Db.parent_of_mem hn, hup]) hbelow⟩

/-- A live node is reached from everything above it. -/
theorem Reaches.of_below {n s : NodeRow} (hn : Live db ws n) (hs : s ∈ db.nodes)
    (h : Below db.parent n.id s.id) :
    Reaches db ws s.toRawNode n.toRawNode := by
  induction hn with
  | root hmem hws hroot _ =>
    obtain rfl := db.node_ext hmem hs (h.eq_of_root (by rw [Db.parent_of_mem hmem, hroot]))
    exact .refl
  | @child n p hp hdir hmem hws hup hactive ih =>
    obtain heq | hbelow := h.eq_or_parent (show db.parent n.id =
      some p.id by rw [Db.parent_of_mem hmem, hup])
    · obtain rfl := db.node_ext hmem hs heq
      exact .refl
    · exact (ih hbelow).tail ⟨hdir, mem_fetch_children.mpr ⟨n, hmem, rfl, hws, hup, hactive⟩⟩

/-- The children of a live directory weigh less than the directory. -/
theorem sum_children_extent_lt (hwf : NodesWellFormed db) {old : RawNode}
    (hlive : IsLive db ws old) :
    ((if old.kind = .Directory then fetch_children db ws old.id else []).map
    (fun child => db.extent child.id)).sum < db.extent old.id := by
  obtain ⟨n, rfl, hn⟩ := hlive
  have hmem : n.id ∈ (db.nodes.rows.map NodeRow.key).toFinset :=
    List.mem_toFinset.mpr (List.mem_map_of_mem hn.mem)
  have hchildren : ∀ c ∈ (if n.kind =
    .Directory then fetch_children db ws n.id else []).map RawNode.id,
      ∃ m, Live db ws m ∧ m.id = c ∧ m.parent_id = some n.id := by
    intro c hc
    split at hc
    · rename_i hdir
      obtain ⟨child, hchild, rfl⟩ := List.mem_map.mp hc
      obtain ⟨m, hm, rfl, hws, hup, hactive⟩ := mem_fetch_children.mp hchild
      exact ⟨m, .child hn hdir hm hws hup hactive, rfl, hup⟩
    · cases hc
  have hnodup : ((if n.kind =
      .Directory then fetch_children db ws n.id else []).map RawNode.id).Nodup := by
    split
    · refine List.Nodup.map_on (fun a ha b hb heq => ?_) (fetch_children_names ws hwf n.id).of_map
      obtain ⟨m, hm, rfl, _⟩ := mem_fetch_children.mp ha
      obtain ⟨m', hm', rfl, _⟩ := mem_fetch_children.mp hb
      rw [db.node_ext hm hm' heq]
    · exact List.nodup_nil
  have hup : ∀ c ∈ (if n.kind = .Directory then fetch_children db ws n.id else []).map RawNode.id,
      db.parent c = some n.id := by
    intro c hc
    obtain ⟨m, hm, rfl, hup⟩ := hchildren c hc
    rw [Db.parent_of_mem hm.mem, hup]
  have hlt := sum_weight_lt hnodup hup hmem (fun c hc => by
    obtain ⟨m, hm, rfl, hup⟩ := hchildren c hc
    exact hm.acyclic hup)
  rw [List.map_map] at hlt
  exact hlt

/-- The loop of `copy_subtree` fails in no other way than by not ending. -/
theorem copy_loop_total {now : Int} {bound : Nat} {stack : List (RawNode × NodeId × Text)}
    {top : Option RawNode} (hwf : WellFormed w.db) (hissued : Issued rt w)
    (hplace : Placeable w.db ws stack) (hsome : stack ≠ [] ∨ top ≠ none) :
    (∃ r, copy_loop rt ws now bound stack top w = .ok r) ∨
    copy_loop rt ws now bound stack top w = .error .Diverges := by
  induction bound generalizing stack top w with
  | zero =>
    cases stack with
    | nil =>
      obtain ⟨raw, rfl⟩ := Option.ne_none_iff_exists'.mp (hsome.resolve_left (fun hne => hne rfl))
      exact Or.inl ⟨_, rfl⟩
    | cons item stack => exact Or.inr rfl
  | succ bound ih =>
    cases stack with
    | nil =>
      obtain ⟨raw, rfl⟩ := Option.ne_none_iff_exists'.mp (hsome.resolve_left (fun hne => hne rfl))
      exact Or.inl ⟨_, rfl⟩
    | cons item stack =>
      obtain ⟨old, up, name⟩ := item
      obtain ⟨new_node, w₁, hcopy, hwf₁, hissued₁, hplace₁⟩ := copy_node_step hwf hissued hplace now
      rw [copy_loop_succ hcopy]
      exact ih hwf₁ hissued₁ hplace₁ (Or.inr (by cases top <;> simp))

/-- The loop of `copy_subtree` ends when the copies go where nothing is to be
copied from: what is left to copy weighs less after each round. -/
theorem copy_loop_ends {base : Db} {now : Int} {bound : Nat}
    {stack : List (RawNode × NodeId × Text)} {top : Option RawNode} (hbase : NodesWellFormed base)
    (hwf : WellFormed w.db) (hissued : Issued rt w) (hplace : Placeable w.db ws stack)
    (hapart : Apart base ws stack w.db) (hlive : ∀ item ∈ stack, IsLive base ws item.1)
    (hbound : (stack.map (fun item => base.extent item.1.id)).sum ≤ bound)
    (hsome : stack ≠ [] ∨ top ≠ none) :
    ∃ r, copy_loop rt ws now bound stack top w = .ok r := by
  induction bound generalizing stack top w with
  | zero =>
    cases stack with
    | nil =>
      obtain ⟨raw, rfl⟩ := Option.ne_none_iff_exists'.mp (hsome.resolve_left (fun hne => hne rfl))
      exact ⟨_, rfl⟩
    | cons item stack =>
      have hpos := sum_children_extent_lt hbase (hlive item List.mem_cons_self)
      rw [List.map_cons, List.sum_cons] at hbound
      omega
  | succ bound ih =>
    cases stack with
    | nil =>
      obtain ⟨raw, rfl⟩ := Option.ne_none_iff_exists'.mp (hsome.resolve_left (fun hne => hne rfl))
      exact ⟨_, rfl⟩
    | cons item stack =>
      obtain ⟨old, up, name⟩ := item
      obtain ⟨new_node, w₁, hcopy, hwf₁, hissued₁, hplace₁⟩ := copy_node_step hwf hissued hplace now
      obtain ⟨hchildren, hnext⟩ := hapart.next hcopy
      have hold := hlive _ List.mem_cons_self
      rw [copy_loop_succ hcopy]
      rw [hchildren] at hplace₁ ⊢
      refine ih hwf₁ hissued₁ hplace₁ hnext
        (fun item hitem => ?_) ?_ (Or.inr (by cases top <;> simp))
      · obtain ⟨hdir, child, hchild, rfl⟩ | hitem := mem_pushed.mp hitem
        · exact (Reaches.live (Relation.ReflTransGen.single ⟨hdir, hchild⟩) hold).1
        · exact hlive item (List.mem_cons_of_mem _ hitem)
      · have hlt := sum_children_extent_lt hbase hold
        rw [List.map_cons, List.sum_cons] at hbound
        rw [pushed, List.map_append, List.map_reverse, List.sum_append, List.sum_reverse,
          List.map_map]
        simp only [Function.comp_def] at hbound hlt ⊢
        omega

section copy

variable {source_path target : VirtualPath} {options : CopyOptions} {actor_json : Text}
  {source parent : RawNode} {name : Text}
variable {existing : Option RawNode}

theorem resolve_destination_total (ws : WorkspaceId) (w : World) (target : VirtualPath) :
    ∃ destination, resolve_destination ws target w = .ok (destination, w) := by
  unfold resolve_destination
  cases hname : target.name with
  | none => exact ⟨_, rfl⟩
  | some name =>
    obtain ⟨parent_path, hup, _⟩ := VirtualPath.parent_of_name hname
    simp only [hup, Tx.bind_of_ok
      (show Tx.expect (some parent_path) w = .ok (parent_path, w) from rfl), Tx.query_bind]
    cases resolve_following w.db ws parent_path true with
    | Found parent =>
      by_cases hdir : parent.kind = .Directory
      · exact ⟨.Ready parent.id
          (fetch_child w.db ws parent.id name), by simp only [hdir, if_true]; rfl⟩
      · exact ⟨.ParentNotDirectory, by simp only [hdir, if_false]; rfl⟩
    | NotFound => exact ⟨.ParentNotFound, rfl⟩
    | BrokenLink => exact ⟨.ParentNotFound, rfl⟩
    | LinkLoop => exact ⟨.ParentNotFound, rfl⟩

theorem Destined.resolved {overwrite : Bool}
    (h : Destined w.db ws target overwrite parent name existing) :
    resolve_destination ws target w = .ok (.Ready parent.id existing, w) := by
  obtain ⟨parent_path, hup, hparent⟩ := h.found
  unfold resolve_destination
  simp only [h.named, hup, Tx.bind_of_ok
    (show Tx.expect (some parent_path) w = .ok (parent_path, w) from rfl), Tx.query_bind,
    hparent, if_pos h.dir, h.occupant]
  rfl

/-- What occupies a destination is deleted: it does not lie above its own directory. -/
theorem Destined.purged {overwrite : Bool} (hwf : WellFormed w.db) {occupant : RawNode}
    (h : Destined w.db ws target overwrite parent name (some occupant)) :
    purge_subtree occupant.id w = .ok ((), ⟨w.db.overwritten (some occupant), w.tick⟩) := by
  obtain ⟨e, rfl, he, hup, _⟩ := h.occupant_live
  refine purge_subtree_total hwf ?_
  rw [cyclic, Db.parent_of_mem he.mem, hup, Option.any_some, ← Bool.not_eq_true, Db.cascades_iff]
  exact he.acyclic hup

/-- A copy that passes its checks overwrites its destination and copies the subtree. -/
theorem Copies.run (hwf : WellFormed w.db)
    (h : Copies w.db ws source_path target options source parent name existing) :
    copy_tx rt ws source_path target options actor_json w = (do
      let new_node ← copy_subtree rt ws source parent.id name (rt.nowMs w.tick)
      change.append ws .Copied (some new_node.id) (some source_path.as_str) (some target.as_str)
        (some 1) actor_json (rt.nowMs w.tick)
      return CopyOutcome.Created new_node : Tx CopyOutcome)
        ⟨w.db.overwritten existing, w.tick + 1⟩ := by
  have hrecursive : ¬ (source.kind = .Directory ∧ (!options.recursive) = true) := by
    rintro ⟨hdir, hnot⟩
    rw [h.recursive hdir] at hnot
    cases hnot
  have hallowed : ¬ (existing.isSome = true ∧ (!options.overwrite) = true) := by
    rintro ⟨hsome, hnot⟩
    rw [h.dest.allowed hsome] at hnot
    cases hnot
  rw [copy_tx, Tx.query_bind]
  simp only [h.found, h.fresh, Bool.false_eq_true, if_false, if_neg hrecursive]
  rw [Tx.bind_of_ok h.dest.resolved]
  simp only [h.dest.named]
  rw [Tx.bind_of_ok (show Tx.expect (some name) w = .ok (name, w) from rfl)]
  simp only [if_neg hallowed]
  cases existing with
  | none => rfl
  | some occupant =>
    exact Tx.bind_of_ok (h.dest.purged hwf)

/-- A copy that does not pass its checks answers so. -/
theorem copy_tx_refused (rt : Runtime) (actor_json : Text)
    (h : ∀ source parent name existing,
    ¬ Copies w.db ws source_path target options source parent name existing) :
    ∃ outcome, copy_tx rt ws source_path target options actor_json w = .ok (outcome, w) := by
  rw [copy_tx, Tx.query_bind]
  cases hsource : resolve_following w.db ws source_path false with
  | NotFound => exact ⟨_, rfl⟩
  | BrokenLink => exact ⟨_, rfl⟩
  | LinkLoop => exact ⟨_, rfl⟩
  | Found source =>
    simp only
    split
    · exact ⟨_, rfl⟩
    · rename_i hfresh
      split
      · exact ⟨_, rfl⟩
      · rename_i hrecursive
        obtain ⟨destination, hdest⟩ := resolve_destination_total ws w target
        rw [Tx.bind_of_ok hdest]
        cases destination with
        | IsRoot => exact ⟨_, rfl⟩
        | ParentNotFound => exact ⟨_, rfl⟩
        | ParentNotDirectory => exact ⟨_, rfl⟩
        | Ready up existing =>
          obtain ⟨parent, name, parent_path, rfl, hup, hparent, hdir, hname, hoccupant⟩ :=
            (resolve_destination_ok hdest).2 up existing rfl
          simp only [hname]
          rw [Tx.bind_of_ok (show Tx.expect (some name) w = .ok (name, w) from rfl)]
          split
          · exact ⟨_, rfl⟩
          · rename_i hallowed
            refine absurd ⟨hsource, by simpa using hfresh,
              fun hkind => by simpa [hkind] using hrecursive, ⟨parent_path, hup, hparent⟩,
              hdir, hname, hoccupant, fun hsome => by simpa [hsome] using hallowed⟩
                (h source parent name existing)

theorem Copies.unique {source' parent' : RawNode} {name' : Text} {existing' : Option RawNode}
    (h : Copies db ws source_path target options source parent name existing)
    (h' : Copies db ws source_path target options source' parent' name' existing') :
    source = source' ∧ parent = parent' ∧ name = name' ∧ existing = existing' := by
  have hfound := h.found
  rw [h'.found, ResolveOutcome.Found.injEq] at hfound
  exact ⟨hfound.symm, h.dest.unique h'.dest⟩

/-- The store in which the loop of `copy_subtree` starts, and what it starts with. -/
structure Starts (rt : Runtime) (db : Db) (ws : WorkspaceId) (tick : Nat) (source parent : RawNode)
    (name : Text) (existing : Option RawNode) : Prop where
  wf : WellFormed (db.overwritten existing)
  issued : Issued rt ⟨db.overwritten existing, tick + 1⟩
  live : IsLive (db.overwritten existing) ws source
  placeable : Placeable (db.overwritten existing) ws [(source, parent.id, name)]

theorem Copies.starts (hwf : WellFormed w.db) (hissued : Issued rt w)
    (h : Copies w.db ws source_path target options source parent name existing) {full : RawNode}
    (hfull : fetch_by_id (w.db.overwritten existing) ws source.id = some full) :
    full = source ∧ Starts rt w.db ws w.tick source parent name existing := by
  have heffect : Effect rt Policy.any none w ⟨w.db.overwritten existing, w.tick + 1⟩ :=
    ⟨Nat.le_succ _, h.dest.edits (fun _ _ => trivial)⟩
  obtain ⟨s, rfl, hs⟩ := resolve_following_live h.found
  obtain ⟨m, hm, rfl, _, hid, _⟩ := fetch_by_id_eq_some.mp hfull
  obtain rfl := w.db.node_ext (overwritten_mem hm) hs.mem hid
  have hlive := overwritten_live hs hm
  obtain ⟨p, rfl, _, hp⟩ := h.dest.parent_live
  refine ⟨rfl, heffect.wellFormed hwf, heffect.issued hissued, ⟨m, rfl, hlive⟩, fun item hitem =>
    ?_, fun item hitem => ?_, ?_⟩
  · obtain rfl := List.mem_singleton.mp hitem
    exact ⟨⟨m, hm, rfl, hlive.workspace⟩, ⟨p, hp.mem, rfl, h.dest.dir, hp.workspace, hp.active⟩,
      h.dest.segment⟩
  · obtain rfl := List.mem_singleton.mp hitem
    exact h.dest.free hwf
  · exact List.nodup_singleton _

/-- The loop that a copy enters ends, given rounds for all stored nodes, unless
the copy goes inward; then it does not end, whatever the rounds. -/
theorem Copies.loop (hwf : WellFormed w.db) (hissued : Issued rt w)
    (h : Copies w.db ws source_path target options source parent name existing) {full : RawNode}
    (hfull : fetch_by_id (w.db.overwritten existing) ws source.id = some full) (now : Int) :
    (¬ Below w.db.parent parent.id source.id → ∃ r,
    copy_loop rt ws now (w.db.overwritten existing).nodes.rows.length
      [(full, parent.id, name)] none ⟨w.db.overwritten existing, w.tick + 1⟩ = .ok r) ∧
    (Below w.db.parent parent.id source.id → ∀ rounds, copy_loop rt ws now rounds
      [(full, parent.id, name)] none ⟨w.db.overwritten existing, w.tick + 1⟩ =
      .error .Diverges) := by
  obtain ⟨rfl, hstarts⟩ := h.starts hwf hissued hfull
  obtain ⟨p, rfl, hp, hp'⟩ := h.dest.parent_live
  obtain ⟨s, hraw, hs⟩ := hstarts.live
  constructor
  · intro hout
    refine copy_loop_ends hstarts.wf.nodes hstarts.wf hstarts.issued hstarts.placeable
      (.single ⟨s, hs.mem, by rw [← hraw]⟩ (fun x hx hdir hid => hout ?_))
        (fun item hitem => ?_) ?_ (Or.inl (List.cons_ne_nil _ _))
    · rw [← hid]
      exact (hx.live hstarts.live).2.mono (fun _ _ => Db.parent_of_overwritten)
    · obtain rfl := List.mem_singleton.mp hitem
      exact hstarts.live
    · rw [List.map_singleton, List.sum_singleton]
      refine weight_le.trans ((List.toFinset_card_le _).trans (le_of_eq ?_))
      rw [List.length_map]
  · intro hbelow rounds
    refine (copy_loop_total hstarts.wf hstarts.issued hstarts.placeable
      (Or.inl (List.cons_ne_nil _ _))).resolve_left ?_
    rintro ⟨⟨raw, w'⟩, hloop⟩
    have hspared : w.db.Spared existing p.id := (Db.mem_overwritten.mp hp'.mem).2
    have hbelow' : Below (w.db.overwritten existing).parent p.id s.id := by
      rw [← hraw] at hbelow
      exact hbelow.congr (fun x hpx _ _ => Db.parent_overwritten (hspared.below hpx))
    refine copy_loop_outside hloop _ List.mem_cons_self p.toRawNode ?_ h.dest.dir rfl
    rw [← hraw]
    exact Reaches.of_below hp' hs.mem hbelow'

/-- The source of a copy that goes inward is not overwritten. -/
theorem Copies.kept_of_inward
    (h : Copies w.db ws source_path target options source parent name existing)
    (hbelow : Below w.db.parent parent.id source.id) :
    fetch_by_id (w.db.overwritten existing) ws source.id = some source := by
  obtain ⟨s, rfl, hs⟩ := resolve_following_live h.found
  obtain ⟨p, rfl, _, hp⟩ := h.dest.parent_live
  have hspared : w.db.Spared existing s.id := (Db.mem_overwritten.mp hp.mem).2.below hbelow
  exact fetch_by_id_of_mem (Db.mem_overwritten.mpr ⟨hs.mem, hspared⟩) hs.workspace hs.active

theorem append_ne_diverges {kind : ChangeKind} {node_id : Option NodeId}
    {old_path new_path : Option Text} {revision : Option Nat} {now : Int} :
    change.append ws kind node_id old_path new_path revision actor_json now w ≠ .error .Diverges := by
  unfold change.append
  rw [Tx.bind_of_ok (show Tx.execute _ w = .ok
    ((), { w with db := w.db.bump_sequence ws now }) from rfl), Tx.query_bind]
  cases Db.workspace? (w.db.bump_sequence ws now) ws with
  | none => exact fun h => by cases h
  | some row =>
    intro h
    simp only [Tx.execute, Db.insert_change] at h
    split at h
    · cases h
    · rename_i hinsert
      cases h
      split at hinsert
      · split at hinsert <;> cases hinsert
      · cases hinsert

/-- A copied subtree is what the loop makes of its stored root. -/
theorem copy_subtree_eq {full : RawNode} (hfull : fetch_by_id w.db ws source.id = some full)
    (up : NodeId) (name : Text) (now : Int) : copy_subtree rt ws source up name now w =
      copy_loop rt ws now w.db.nodes.rows.length [(full, up, name)] none w := by
  have hfetch : fetch_full ws source.id w = .ok (full, w) := by
    rw [fetch_full, Tx.query_bind]
    simp only [hfull]
    rfl
  rw [copy_subtree, Tx.bind_of_ok hfetch, Tx.query_bind]

/-- A copy ends if and only if its loop does. -/
theorem Copies.diverges_iff (hwf : WellFormed w.db)
    (h : Copies w.db ws source_path target options source parent name existing) {full : RawNode}
    (hfull : fetch_by_id (w.db.overwritten existing) ws source.id = some full) :
    copy_tx rt ws source_path target options actor_json w = .error .Diverges ↔
      copy_loop rt ws (rt.nowMs w.tick)
        (w.db.overwritten existing).nodes.rows.length [(full, parent.id, name)] none
        ⟨w.db.overwritten existing, w.tick + 1⟩ = .error .Diverges := by
  have hsubtree := @copy_subtree_eq rt ws ⟨w.db.overwritten existing, w.tick + 1⟩ source full hfull
    parent.id name (rt.nowMs w.tick)
  rw [h.run hwf, ← hsubtree]
  cases hcopy : copy_subtree rt ws source parent.id name (rt.nowMs w.tick)
      ⟨w.db.overwritten existing, w.tick + 1⟩ with
  | error fault =>
    rw [Tx.bind_of_error hcopy]
    simp
  | ok r =>
    obtain ⟨raw, w₁⟩ := r
    rw [Tx.bind_of_ok hcopy]
    refine ⟨fun hdiverges => ?_, fun hdiverges => by cases hdiverges⟩
    cases happend : change.append ws .Copied (some raw.id) (some source_path.as_str)
        (some target.as_str) (some 1) actor_json
        (rt.nowMs w.tick) w₁ with
    | error fault =>
      rw [Tx.bind_of_error happend] at hdiverges
      cases hdiverges
      exact absurd happend append_ne_diverges
    | ok r =>
      rw [Tx.bind_of_ok happend] at hdiverges
      cases hdiverges

end copy

end mutate

section termination

variable {rt : Runtime} {ws : WorkspaceId} {w : World} {source_path target : VirtualPath}
  {options : CopyOptions}
variable {source parent full : RawNode} {name : Text} {existing : Option RawNode}

theorem mutate.Copies.inward_iff
    (h : Copies w.db ws source_path target options source parent name existing) :
    CopiesInward w.db ws source_path target options ↔ Below w.db.parent parent.id source.id := by
  refine ⟨?_, fun hbelow => ⟨source, parent, name, existing, h, hbelow⟩⟩
  rintro ⟨source', parent', name', existing', h', hbelow⟩
  obtain ⟨rfl, rfl, _, _⟩ := h.unique h'
  exact hbelow

/-- A copy whose source has been overwritten fails. -/
theorem mutate.Copies.ends_of_none (hwf : WellFormed w.db)
    (h : Copies w.db ws source_path target options source parent name existing)
    (hnone : fetch_by_id (w.db.overwritten existing) ws source.id = none) (actor_json : Text) :
    copy_tx rt ws source_path target options actor_json w ≠ .error .Diverges := by
  have hfetch : copy_subtree rt ws source parent.id name (rt.nowMs w.tick)
    ⟨w.db.overwritten existing, w.tick + 1⟩ =
      .error .QueryReturnedNoRows := by
    refine Tx.bind_of_error ?_
    rw [fetch_full, Tx.query_bind]
    simp only [hnone]
    rfl
  rw [h.run hwf, Tx.bind_of_error hfetch]
  exact fun h => by cases h

/-- The whole copy and its loop, given enough rounds, end alike. -/
theorem mutate.Copies.ends_iff (hwf : WellFormed w.db) (hissued : Issued rt w)
    (h : Copies w.db ws source_path target options source parent name existing)
    (hfull : fetch_by_id (w.db.overwritten existing) ws source.id = some full) (actor_json : Text) :
    (copy_tx rt ws source_path target options actor_json w ≠ .error .Diverges ↔
    ¬ Below w.db.parent parent.id source.id) ∧
    ((∃ rounds, copy_loop rt ws (rt.nowMs w.tick) rounds [(full, parent.id, name)] none
      ⟨w.db.overwritten existing, w.tick + 1⟩ ≠ .error .Diverges) ↔
        ¬ Below w.db.parent parent.id source.id) := by
  obtain ⟨hout, hin⟩ := h.loop hwf hissued hfull (rt.nowMs w.tick)
  have hends : ¬ Below w.db.parent parent.id source.id → copy_loop rt ws (rt.nowMs w.tick)
      (w.db.overwritten existing).nodes.rows.length [(full, parent.id, name)] none
      ⟨w.db.overwritten existing, w.tick + 1⟩ ≠ .error .Diverges := by
    intro hnot
    obtain ⟨r, hr⟩ := hout hnot
    rw [hr]
    exact fun h => by cases h
  constructor
  · rw [ne_eq, h.diverges_iff hwf hfull]
    exact ⟨fun hne hbelow => hne (hin hbelow _), hends⟩
  · exact ⟨fun ⟨rounds, hne⟩ hbelow => hne (hin hbelow rounds), fun hnot => ⟨_, hends hnot⟩⟩

/-- A copy ends if and only if its destination directory is not its source and
does not lie below it, whatever way the paths lead to them. -/
theorem copy_ends_iff (hreach : Reachable rt w) (source_path target : VirtualPath)
    (options : CopyOptions) (actor_json : Text) :
    (copy_tx rt ws source_path target options actor_json w ≠ .error .Diverges ↔
    ¬ CopiesInward w.db ws source_path target options) ∧
    (CopyEnds rt w ws source_path target options ↔
    ¬ CopiesInward w.db ws source_path target options) := by
  have hwf := hreach.sound.wf
  by_cases hex : ∃ source parent name existing,
    Copies w.db ws source_path target options source parent name existing
  · obtain ⟨source, parent, name, existing, h⟩ := hex
    rw [h.inward_iff]
    cases hfull : fetch_by_id (w.db.overwritten existing) ws source.id with
    | none =>
      have hout : ¬ Below w.db.parent parent.id source.id := by
        intro hbelow
        rw [h.kept_of_inward hbelow] at hfull
        cases hfull
      refine ⟨iff_of_true (h.ends_of_none hwf hfull actor_json) hout, iff_of_true ?_ hout⟩
      intro source' parent' name' existing' full h' hfull'
      obtain ⟨rfl, rfl, rfl, rfl⟩ := h.unique h'
      rw [hfull] at hfull'
      cases hfull'
    | some full =>
      obtain ⟨hcopy, hloop⟩ := h.ends_iff hwf hreach.sound.issued hfull actor_json
      refine ⟨hcopy, ⟨fun hall => hloop.mp (hall source parent name existing full h hfull),
        fun hnot => ?_⟩⟩
      intro source' parent' name' existing' full' h' hfull'
      obtain ⟨rfl, rfl, rfl, rfl⟩ := h.unique h'
      obtain rfl : full = full' := Option.some.inj (hfull.symm.trans hfull')
      exact hloop.mpr hnot
  · have hnone : ∀ source parent name existing,
        ¬ Copies w.db ws source_path target options source parent name existing :=
      fun source parent name existing h => hex ⟨source, parent, name, existing, h⟩
    have hout : ¬ CopiesInward w.db ws source_path target options :=
      fun ⟨source, parent, name, existing, h, _⟩ => hnone source parent name existing h
    obtain ⟨outcome, hrun⟩ := copy_tx_refused rt actor_json hnone
    refine ⟨iff_of_true ?_ hout,
      iff_of_true (fun source parent name existing _ h _ =>
      absurd h (hnone source parent name existing)) hout⟩
    rw [hrun]
    exact fun h => by cases h

/-- The directory `/a` copied to `/c/a`. -/
theorem outward_copy_ends : ¬ CopiesInward nestedWorld.db 0 (.ofSegments [['a']] (by decide))
    (.ofSegments [['c'], ['a']] (by decide)) { recursive := true } := by
  refine (copy_ends_iff nestedWorld_reachable (.ofSegments [['a']] (by decide))
    (.ofSegments [['c'], ['a']] (by decide))
    { recursive := true } []).1.mp (fun h => ?_)
  have hok : (copy_tx Runtime.counting 0 (.ofSegments [['a']] (by decide))
    (.ofSegments [['c'], ['a']] (by decide))
    { recursive := true } [] nestedWorld).isOk = true := by decide +kernel
  rw [h] at hok
  cases hok

/-- The copy of `/a` to `/a/b/c` never ends. -/
theorem inward_copy_endless : Reachable Runtime.counting nestedWorld ∧ TreeShaped nestedWorld.db 0 ∧
    copy_tx Runtime.counting 0 (.ofSegments [['a']] (by decide))
      (.ofSegments [['a'], ['b'], ['c']] (by decide))
      { recursive := true } [] nestedWorld = .error .Diverges ∧
    ¬ CopyEnds Runtime.counting nestedWorld 0 (.ofSegments [['a']] (by decide))
      (.ofSegments [['a'], ['b'], ['c']] (by decide))
      { recursive := true } := by
  have hcheck : ((resolve_following nestedWorld.db 0
      (.ofSegments [['a']] (by decide)) false).found?.any fun source =>
    (resolve_following nestedWorld.db 0
      (.ofSegments [['a'], ['b']] (by decide)) true).found?.any fun parent =>
        decide (parent.kind = .Directory ∧ fetch_child nestedWorld.db 0 parent.id ['c'] = none ∧
          nestedWorld.db.cascades source.id parent.id = true ∧
            fetch_by_id nestedWorld.db 0 source.id = some source)) = true := by decide +kernel
  obtain ⟨source, hsource, hcheck⟩ := (Option.any_eq_true _ _).mp hcheck
  obtain ⟨parent, hparent, hcheck⟩ := (Option.any_eq_true _ _).mp hcheck
  obtain ⟨hdir, hfree, hbelow, hfull⟩ := of_decide_eq_true hcheck
  have h : Copies nestedWorld.db 0 (.ofSegments [['a']] (by decide))
    (.ofSegments [['a'], ['b'], ['c']] (by decide))
      { recursive := true } source parent ['c'] none :=
    ⟨ResolveOutcome.found?_eq_some hsource, rfl, fun _ => rfl,
      ⟨_, by decide +kernel, ResolveOutcome.found?_eq_some hparent⟩,
      hdir, by decide +kernel, hfree, fun hsome => by cases hsome⟩
  have hwf := nestedWorld_reachable.sound.wf
  have hends := h.ends_iff hwf nestedWorld_reachable.sound.issued hfull []
  refine ⟨nestedWorld_reachable, nestedWorld_tree_shaped, ?_, fun hall => ?_⟩
  · exact not_not.mp (fun hne => hends.1.mp hne (Db.cascades_iff.mp hbelow))
  · exact hends.2.mp (hall source parent ['c'] none source h hfull) (Db.cascades_iff.mp hbelow)

end termination

end fslite
