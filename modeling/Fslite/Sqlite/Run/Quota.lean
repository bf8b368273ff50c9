import Mathlib.Algebra.Order.BigOperators.Group.List
import Mathlib.Algebra.Order.Monoid.NatCast
import Mathlib.Algebra.Order.Group.Nat
import Fslite.Sqlite.Effect.Visit
import Fslite.Sqlite.Run.Version

namespace fslite

open resolve directory content mutate trash

/-- No workspace has more nodes or more logical bytes than its limits say. -/
def WithinQuota (db : Db) : Prop :=
  ∀ row ∈ db.workspaces, (db.sizes row.id).length ≤ row.max_nodes ∧
    (db.sizes row.id).sum ≤ row.max_bytes

/-- The workspace's limits allow nodes of the `added` sizes when those of the
`removed` sizes go. -/
def Room (db : Db) (ws : WorkspaceId) (removed added : List Nat) : Prop :=
  ∀ row ∈ db.workspaces, row.id = ws →
  (db.sizes ws).length + added.length ≤ row.max_nodes + removed.length ∧
  (db.sizes ws).sum + added.sum ≤ row.max_bytes + removed.sum

theorem sum_le_of_subperm {l l' : List Nat} (h : List.Subperm l l') : l.sum ≤ l'.sum := by
  obtain ⟨m, hperm, hsub⟩ := h
  rw [← hperm.sum_nat]
  exact hsub.sum_le_sum (fun _ _ => Nat.zero_le _)

section growth

variable {ws : WorkspaceId} {removed added : List Nat} {db db' : Db}

theorem WithinQuota.room (h : WithinQuota db) (ws : WorkspaceId) : Room db ws [] [] := by
  rintro row hrow rfl
  exact h row hrow

/-- Growth that the limits allow keeps the quotas. -/
theorem WithinQuota.grow (h : WithinQuota db) (hgrows : Grows ws removed added db db')
    (hroom : Room db ws removed added) :
    WithinQuota db' := by
  intro row hrow
  obtain ⟨row', hrow', hsame⟩ := hgrows.limits row hrow
  rw [hsame.id, hsame.max_nodes, hsame.max_bytes]
  by_cases hid : row'.id = ws
  · obtain ⟨hnodes, hbytes⟩ := hroom row' hrow' hid
    have hlength := hgrows.own.length_le
    have hsum := sum_le_of_subperm hgrows.own
    simp only [List.length_append, List.sum_append] at hlength hsum
    rw [hid]
    omega
  · obtain ⟨hnodes, hbytes⟩ := h row' hrow'
    exact ⟨(hgrows.other _ hid).length_le.trans hnodes,
      (sum_le_of_subperm (hgrows.other _ hid)).trans hbytes⟩

theorem WithinQuota.same (h : WithinQuota db) (hgrows : Grows ws [] [] db db') : WithinQuota db' :=
  h.grow hgrows (h.room ws)

theorem Grows.overwritten (existing : Option RawNode) :
    Grows ws [] [] db (db.overwritten existing) := by
  cases existing with
  | none => exact .refl ws db
  | some existing => exact .of_filter rfl (.of_eq rfl)

theorem Db.mem_sizes {size : Nat} :
    size ∈ db.sizes ws ↔ ∃ n ∈ db.nodes, n.workspace_id = ws ∧ n.size = size := by
  simp [Db.sizes, Table.mem_def, and_assoc]

end growth

/-- The reported usage counts the sizes of the workspace's nodes. -/
theorem fetch_usage_sizes {db : Db} {ws : WorkspaceId} {raw : workspace.RawUsage}
    (h : workspace.fetch_usage db ws = some raw) :
    raw.active_nodes + raw.trashed_nodes = (db.sizes ws).length ∧
    raw.active_logical_bytes + raw.trashed_logical_bytes = (db.sizes ws).sum := by
  have hsplit : List.Perm ((db.nodes.rows.filter
    (fun n => n.workspace_id = ws ∧ n.trashed_at_ms = none)) ++
      db.nodes.rows.filter (fun n => n.workspace_id = ws ∧ n.trashed_at_ms ≠ none))
      (db.nodes.rows.filter (fun n => n.workspace_id = ws)) := by
    have hpartition := List.filter_append_perm (fun n : NodeRow => decide (n.trashed_at_ms = none))
      (db.nodes.rows.filter (fun n => n.workspace_id = ws))
    simp only [List.filter_filter] at hpartition
    simpa [Bool.and_comm] using hpartition
  unfold workspace.fetch_usage at h
  split at h
  · cases h
  · cases h
    have hsizes := hsplit.map (fun n : NodeRow => n.size)
    rw [List.map_append] at hsizes
    constructor
    · rw [Db.sizes, List.length_map, ← hsplit.length_eq, List.length_append]
    · rw [Db.sizes, ← hsizes.sum_nat, List.sum_append]
      rfl

/-- Within its quotas a workspace reports no more than its limits. -/
theorem WithinQuota.usage {db : Db} (h : WithinQuota db) {ws : WorkspaceId}
    {raw : workspace.RawUsage} (hraw : workspace.fetch_usage db ws = some raw) :
    raw.active_nodes + raw.trashed_nodes ≤ raw.max_nodes ∧
      raw.active_logical_bytes + raw.trashed_logical_bytes ≤ raw.max_bytes := by
  obtain ⟨hnodes, hbytes⟩ := fetch_usage_sizes hraw
  rw [hnodes, hbytes]
  unfold workspace.fetch_usage at hraw
  split at hraw
  · cases hraw
  · rename_i row hrow
    cases hraw
    obtain ⟨hmem, rfl⟩ := Table.find?_eq_some.mp hrow
    exact h row hmem

/-- Where the operation adds nodes, the limits of its workspace allow them. -/
def BatchOperation.Fits (db : Db) (ws : WorkspaceId) : BatchOperation → Prop
  | .Mkdir path options => ∀ existing made base, Makes db ws path.segments existing made base →
    (options.parents = true ∨ made.length = 1) → Room db ws [] (made.map (fun _ => 0))
  | .Touch path options => options.create = true → CreatesFile db ws path → Room db ws [] [0]
  | .Copy source_path target options => ∀ source parent name existing nodes,
    Copies db ws source_path target options source parent name existing →
    copied (db.overwritten existing) ws source.id = some nodes →
      Room (db.overwritten existing) ws [] (nodes.map (fun n => n.size))
  | .Symlink _ link _ => ∀ parent name, Links db ws link parent name → Room db ws [] [0]
  | _ => True

/-- Where a content of the length is committed, as a new file or in the place of a
file's old content, the limits of the workspace allow it. -/
def FileFits (db : Db) (ws : WorkspaceId) (path : VirtualPath) (length : Nat)
    (params : FinalizeParams) : Prop :=
  (params.allow_create = true → CreatesFile db ws path → Room db ws [] [length]) ∧
  ∀ n ∈ db.nodes, resolve.resolve db ws path = some n.toRawNode → n.kind = .File →
    stale params.expected_revision n.revision = false → Room db ws [n.size] [length]

theorem FileFits.congr {db db' : Db} {ws : WorkspaceId} {path : VirtualPath} {length : Nat}
    {params : FinalizeParams} (h : FileFits db ws path length params)
    (hnodes : db'.nodes = db.nodes) (hworkspaces : db'.workspaces = db.workspaces) :
    FileFits db' ws path length params := by
  simp only [FileFits, CreatesFile, Room, Db.sizes, resolve_congr hnodes, hnodes, hworkspaces]
  exact h

/-- Where the call adds nodes or bytes, the limits of its workspace allow them. -/
def DbCall.Fits (rt : Runtime) (w : World) : DbCall → Prop
  | .finalize ws path _ length params _ => FileFits w.db ws path length params
  | .create_workspace options => 1 ≤ options.max_nodes
  | call => ∀ ws db operation, call.Performs rt w ws db operation → operation.Fits db ws

section operations

variable {rt : Runtime} {ws : WorkspaceId} {w w' : World} {actor_json : Text}

theorem directory.Nested.grows {up last : NodeId} {path last_path : VirtualPath} {names : List Text}
    (h : Nested rt ws up path names w last last_path w') :
    w'.tick = w.tick + 2 * names.length ∧ Grows ws [] (names.map (fun _ => 0)) w.db w'.db := by
  induction h with
  | done => exact ⟨rfl, .refl _ _⟩
  | @make _ _ _ _ _ _ _ w w₁ w' nodes _ hins htick happ _ ih =>
    obtain ⟨htick', hgrows⟩ := ih
    have hfirst : Grows ws [] [0] w.db { w.db with nodes } :=
      .of_insert (n := directoryRow _ ws _ _ _) hins rfl (.of_eq rfl)
    refine ⟨by rw [List.length_cons]; omega, ?_⟩
    simpa using (hfirst.trans happ.grows).trans hgrows

theorem directory.mkdir_ancestors_same {options : CreateOptions} {segments : List Text}
    {current : RawNode} {current_path : VirtualPath}
    {result : Except MkdirOutcome (RawNode × VirtualPath)} (hparents : options.parents = false)
    (h : mkdir_ancestors rt ws options actor_json segments current current_path w = .ok
    (result, w')) : w' = w := by
  induction segments generalizing current current_path with
  | nil => exact (Tx.pure_eq_ok.mp h).2.symm
  | cons segment rest ih =>
    unfold mkdir_ancestors at h
    split at h
    · exact (Tx.pure_eq_ok.mp h).2.symm
    · simp only [Tx.query_bind] at h
      cases hchild : fetch_child w.db ws current.id segment with
      | some child =>
        simp only [hchild, Tx.expect_bind_eq_ok] at h
        obtain ⟨_, _, h⟩ := h
        exact ih h
      | none =>
        simp only [hchild, hparents] at h
        exact (Tx.pure_eq_ok.mp h).2.symm

/-- Without `parents` no more than the last directory is made. -/
theorem directory.mkdir_tx_single {options : CreateOptions} {segments : List Text}
    {outcome : MkdirOutcome} (hparents : options.parents = false)
    (h : mkdir_tx rt ws segments options actor_json w = .ok (outcome, w')) :
    w' = w ∨ w'.tick = w.tick + 2 := by
  simp only [mkdir_tx, Tx.query_bind] at h
  cases hroot : fetch_root w.db ws with
  | none =>
    simp only [hroot] at h
    exact Or.inl (Tx.pure_eq_ok.mp h).2.symm
  | some root =>
    simp only [hroot, Tx.expect_bind_eq_ok] at h
    obtain ⟨leaf_name, _, h⟩ := h
    obtain ⟨result, w₁, hancestors, h⟩ := Tx.bind_eq_ok.mp h
    obtain rfl := mkdir_ancestors_same hparents hancestors
    cases result with
    | error out => exact Or.inl (Tx.pure_eq_ok.mp h).2.symm
    | ok last =>
      simp only at h
      split at h
      · exact Or.inl (Tx.pure_eq_ok.mp h).2.symm
      · simp only [Tx.query_bind] at h
        cases hexisting : fetch_child w₁.db ws last.1.id leaf_name with
        | some child =>
          simp only [hexisting] at h
          left
          split at h
          · exact (Tx.pure_eq_ok.mp h).2.symm
          · split at h
            · exact (Tx.pure_eq_ok.mp h).2.symm
            · split at h <;> exact (Tx.pure_eq_ok.mp h).2.symm
        | none =>
          simp only [hexisting, Tx.expect_bind_eq_ok] at h
          obtain ⟨leaf_path, _, h⟩ := h
          obtain ⟨created, w₂, hcreate, h⟩ := Tx.bind_eq_ok.mp h
          obtain ⟨rfl, rfl⟩ := Tx.pure_eq_ok.mp h
          obtain ⟨_, _, _, htick, _⟩ := create_directory_ok hcreate
          exact Or.inr htick

/-- What an operation does to the sizes of the nodes: it adds directories and links, which have
none, and copies of what was there, and it makes the room that they need. -/
def Resizes (ws : WorkspaceId) (fits : Prop) (w w' : World) : Prop :=
  ∃ db removed added, Grows ws [] [] w.db db ∧ Grows ws removed added db w'.db ∧
    (fits → WithinQuota db → Room db ws removed added) ∧
    ∀ size ∈ added, size = 0 ∨ size ∈ w.db.sizes ws

namespace Resizes

variable {fits : Prop}

theorem of_same (h : Grows ws [] [] w.db w'.db) : Resizes ws fits w w' :=
  ⟨w'.db, [], [], h, .refl _ _, fun _ hquota => hquota.room ws, fun _ hsize => by cases hsize⟩

theorem refl (w : World) : Resizes ws fits w w := of_same (.refl ws w.db)

theorem of_adds {added : List Nat} (h : Grows ws [] added w.db w'.db)
    (hroom : fits → Room w.db ws [] added)
    (hadded : ∀ size ∈ added, size = 0 ∨ size ∈ w.db.sizes ws) : Resizes ws fits w w' :=
  ⟨w.db, [], added, .refl _ _, h, fun hfits _ => hroom hfits, hadded⟩

/-- Growth that fits keeps the quotas. -/
theorem within (h : Resizes ws fits w w') (hquota : WithinQuota w.db) (hfits : fits) :
    WithinQuota w'.db := by
  obtain ⟨db, removed, added, hgone, hgrows, hroom, _⟩ := h
  exact (hquota.same hgone).grow hgrows (hroom hfits (hquota.same hgone))

end Resizes

theorem mkdir_resizes {path : VirtualPath} {options : CreateOptions} {outcome : MkdirOutcome}
    (hwf : WellFormed w.db)
    (h : mkdir_tx rt ws path.segments options actor_json w = .ok (outcome, w')) :
    Resizes ws ((BatchOperation.Mkdir path options).Fits w.db ws) w w' := by
  obtain ⟨rfl, _⟩ | ⟨_, existing, made, base, _, _, _, hmakes, _, hnested⟩ :=
    mkdir_tx_ok hwf (fun s hs => VirtualPath.segment_of_mem hs) h
  · exact .refl _
  · obtain ⟨htick, hgrows⟩ := hnested.grows
    refine .of_adds hgrows (fun hfits => hfits existing made base hmakes ?_) (fun size hsize => ?_)
    · cases hparents : options.parents with
      | true => exact Or.inl rfl
      | false =>
        have hpos : made.length ≠ 0 := fun hzero => hmakes.new (List.length_eq_zero_iff.mp hzero)
        obtain rfl | htick' := mkdir_tx_single hparents h
        · omega
        · exact Or.inr (by omega)
    · obtain ⟨_, _, rfl⟩ := List.mem_map.mp hsize
      exact Or.inl rfl

/-- A content that is committed is that of a new file, or takes the place of a file's. -/
theorem content.Finalized.grows {path : VirtualPath} {g : GenerationId} {length : Nat}
    {params : FinalizeParams} {row : RawNode} (h : Finalized rt ws path g length params w w' row) :
    ∃ removed, Grows ws removed [length] w.db w'.db ∧
      (FileFits w.db ws path length params → Room w.db ws removed [length]) := by
  cases h with
  | created habsent hparent_path hparent hdir hcreate hname hallowed hins htick happ =>
    rename_i parent_path parent name nodes
    have hgrows : Grows ws [] [length] w.db { w.db.set_generation_complete g length with nodes } :=
      .of_insert (n := fileRow _ ws _ _ g length _) hins rfl (.of_eq rfl)
    exact ⟨[], hgrows.trans happ.grows,
      fun hfits => hfits.1 hcreate ⟨habsent, parent_path, parent, hparent_path, hparent, hdir⟩⟩
  | @replaced n db hfound hlive hkind hstale hallowed htick happ hdrop hframe =>
    obtain ⟨hnodes, hworkspaces, _⟩ := hframe
    have hreplaced : Grows ws [n.size] [length] w.db { w.db.set_generation_complete g length with
        nodes := w.db.nodes.modify n.id
          (content.replaced g length (n.revision + 1) (rt.nowMs w.tick)) } :=
      .of_replace (u := content.replaced g length (n.revision + 1)
        (rt.nowMs w.tick)) hlive.mem rfl hlive.workspace hlive.workspace (.of_eq rfl)
    have hdropped : Grows ws [] [] db w'.db := .of_eq hnodes (.of_eq hworkspaces)
    exact ⟨[n.size], (hreplaced.trans happ.grows).trans hdropped,
      fun hfits => hfits.2 n hlive.mem hfound hkind hstale⟩

theorem touch_resizes {path : VirtualPath} {options : TouchOptions} {outcome : TouchOutcome}
    (h : touch_tx rt ws path options actor_json w = .ok (outcome, w')) :
    Resizes ws ((BatchOperation.Touch path options).Fits w.db ws) w w' := by
  cases hfound : resolve.resolve w.db ws path with
  | some node =>
    obtain ⟨rfl, _⟩ | ⟨n, row, _, _, _, _, _, rfl⟩ := touch_existing_ok hfound h
    · exact .refl _
    · exact .of_same (.of_modify rfl (fun _ _ => rfl) (fun _ _ => rfl) (.of_eq rfl))
  | none =>
    obtain ⟨_, rfl, _⟩ | ⟨hcreate, w₁, hgeneration, result, hfinal, _⟩ := touch_absent_ok hfound h
    · exact .refl _
    · obtain ⟨_, _, _, rfl⟩ := create_generation_ok hgeneration
      obtain ⟨rfl, _⟩ | ⟨row, _, hfinal⟩ := finalize_tx_ok hfinal
      · exact .of_same (.of_eq rfl (.of_eq rfl))
      · -- the file was not there before
        obtain ⟨removed, hgrows, hroom⟩ := hfinal.grows
        refine ⟨_, removed, [0], ?_, hgrows, fun hfits _ => hroom ?_,
          fun size hsize => Or.inl (List.mem_singleton.mp hsize)⟩
        · exact .of_eq rfl (.of_eq rfl)
        have hempty : FileFits w.db ws path 0 ⟨true, none⟩ := by
          refine ⟨fun _ hfree => hfits hcreate hfree, fun n _ hn => ?_⟩
          rw [hfound] at hn
          cases hn
        exact hempty.congr rfl rfl

theorem mutate.visited_sizes {db : Db} {bound : Nat} {stack nodes : List RawNode}
    (h : visited db ws bound stack = some nodes)
    (hstack : ∀ node ∈ stack, node.size ∈ db.sizes ws) :
    ∀ node ∈ nodes, node.size ∈ db.sizes ws := by
  induction bound generalizing stack nodes with
  | zero =>
    cases stack with
    | nil =>
      cases h
      exact fun node hnode => by cases hnode
    | cons first stack => cases h
  | succ bound ih =>
    cases stack with
    | nil =>
      cases h
      exact fun node hnode => by cases hnode
    | cons first stack =>
      simp only [visited, Option.map_eq_some_iff] at h
      obtain ⟨rest, hrest, rfl⟩ := h
      intro node hnode
      obtain rfl | hnode := List.mem_cons.mp hnode
      · exact hstack _ List.mem_cons_self
      · refine ih hrest (fun child hchild => ?_) node hnode
        obtain hchild | hchild := List.mem_append.mp hchild
        · rw [List.mem_reverse] at hchild
          split at hchild
          · obtain ⟨n, hn, rfl, hws, _⟩ := mem_fetch_children.mp hchild
            exact Db.mem_sizes.mpr ⟨n, hn, hws, rfl⟩
          · cases hchild
        · exact hstack child (List.mem_cons_of_mem _ hchild)

theorem copy_resizes {source_path target : VirtualPath} {options : CopyOptions}
    {outcome : CopyOutcome}
    (h : copy_tx rt ws source_path target options actor_json w = .ok (outcome, w')) :
    Resizes ws ((BatchOperation.Copy source_path target options).Fits w.db ws) w w' := by
  obtain ⟨rfl, _⟩ | ⟨source, parent, name, existing, row, w₁, _, hcopies, hcopy, _, happ⟩ :=
    copy_tx_ok h
  · exact .refl _
  · obtain ⟨nodes, hcopied, hgrows⟩ := copy_subtree_grows hcopy
    refine ⟨_, [], _, .overwritten existing, by simpa using hgrows.trans happ.grows,
      fun hfits _ => hfits source parent name existing nodes hcopies hcopied, fun size hsize => ?_⟩
    obtain ⟨node, hnode, rfl⟩ := List.mem_map.mp hsize
    obtain ⟨full, hfull, hvisited⟩ := Option.bind_eq_some_iff.mp hcopied
    obtain ⟨n, hn, rfl, hws, _⟩ := fetch_by_id_eq_some.mp hfull
    have hcopied' := visited_sizes hvisited (fun node hfirst => by
      rw [List.mem_singleton.mp hfirst]
      exact Db.mem_sizes.mpr ⟨n, hn, hws, rfl⟩) node hnode
    obtain ⟨m, hm, hmws, hsize⟩ := Db.mem_sizes.mp hcopied'
    exact Or.inr (Db.mem_sizes.mpr ⟨m, overwritten_mem hm, hmws, hsize⟩)

/-- What the operations do to the sizes of the nodes. -/
theorem transact_resizes {operation : BatchOperation} {outcome : Outcome operation}
    (hwf : WellFormed w.db) (h : transact rt ws actor_json operation w = .ok (outcome, w')) :
    Resizes ws (operation.Fits w.db ws) w w' := by
  have hattributed : ∀ {kind path node fits}, Attributed rt ws kind path w w' node →
      Resizes ws fits w w' := by
    rintro kind path node fits ⟨attributes, _, _, happ⟩
    have hchanged : Grows ws [] [] w.db
      { w.db with attributes, nodes := w.db.nodes.modify node.id _ } :=
      .of_modify (u := revised (node.revision + 1) (rt.nowMs w.tick)) rfl (fun _ _ => rfl)
        (fun _ _ => rfl) (.of_eq rfl)
    exact .of_same (hchanged.trans happ.grows)
  have hpurged : ∀ {kind id path fits},
      Recorded ws kind (some id) path none none (w.db.purge id) w'.db → Resizes ws fits w w' := by
    intro kind id path fits happ
    have hgone : Grows ws [] [] w.db (w.db.purge id) := .of_filter rfl (.of_eq rfl)
    exact .of_same (hgone.trans happ.grows)
  cases operation with
  | Mkdir path options => exact mkdir_resizes hwf h
  | Touch path options => exact touch_resizes h
  | Copy source target options => exact copy_resizes h
  | Move source target options =>
    obtain ⟨rfl, _⟩ | ⟨source, parent, name, existing, db, _, hmoves, hupdate, _, happ⟩ :=
      move_tx_ok h
    · exact .refl _
    · obtain rfl := Db.update_node_ok hupdate
      have hmoved : Grows ws [] [] (w.db.overwritten existing) { w.db.overwritten existing with
          nodes := (w.db.overwritten existing).nodes.modify source.id _ } :=
        .of_modify (u := moved parent.id name (source.revision + 1) (rt.nowMs w.tick)) rfl
          (fun _ _ => rfl)
          (fun _ _ => rfl) (.of_eq rfl)
      exact .of_same ((Grows.overwritten existing).trans (hmoved.trans happ.grows))
  | Remove path options =>
    obtain ⟨rfl, _⟩ | ⟨node, _, _, _, happ⟩ := remove_tx_ok h
    · exact .refl _
    · exact hpurged happ
  | Symlink target link options =>
    obtain ⟨rfl, _⟩ | ⟨parent, name, nodes, _, hlinks, hins, htick, happ⟩ := symlink_tx_ok h
    · exact .refl _
    · have hlinked : Grows ws [] [0] w.db { w.db with nodes } :=
        .of_insert (n := linkRow _ ws _ _ _ _) hins rfl (.of_eq rfl)
      exact .of_adds (hlinked.trans happ.grows) (fun hfits => hfits parent name hlinks)
        (fun size hsize => Or.inl (List.mem_singleton.mp hsize))
  | Trash path options =>
    obtain ⟨rfl, _⟩ | ⟨node, up, records, _, _, _, _, _, happ⟩ := trash_tx_ok h
    · exact .refl _
    · have htrashed : Grows ws [] [] w.db { w.db with trash := records, nodes := w.db.nodes.modify node.id _ } :=
        .of_modify (u := trashed (rt.nowMs (w.tick + 1))) rfl (fun _ _ => rfl) (fun _ _ => rfl)
          (.of_eq rfl)
      exact .of_same (htrashed.trans happ.grows)
  | Restore trash_id destination options =>
    obtain ⟨rfl, _⟩ | ⟨record, node, parent, name, db, row, _, hrestores, hupdate, _, happ, _⟩ :=
      restore_tx_ok h
    · exact .refl _
    · obtain rfl := Db.update_node_ok hupdate
      have hrestored : Grows ws [] [] w.db
        (Db.remove_trash trash_id { w.db with nodes := w.db.nodes.modify node.id _ }) :=
        .of_modify (u := restored parent.id name (node.revision + 1) (rt.nowMs w.tick)) rfl
          (fun _ _ => rfl)
          (fun _ _ => rfl) (.of_eq rfl)
      exact .of_same (hrestored.trans happ.grows)
  | Purge trash_id =>
    obtain ⟨rfl, _⟩ | ⟨record, _, _, _, happ⟩ := purge_tx_ok h
    · exact .refl _
    · exact hpurged happ
  | SetAttribute path key value options =>
    obtain ⟨rfl, _⟩ | ⟨node, _, _, _, hfound, _, h⟩ := set_attribute_tx_ok h
    · exact .refl _
    · exact hattributed h
  | RemoveAttribute path key options =>
    obtain ⟨rfl, _⟩ | ⟨node, _, _, _, hfound, _, rfl | h⟩ := remove_attribute_tx_ok hwf.nodes h
    · exact .refl _
    · exact .refl _
    · exact hattributed h

end operations

/-- A batch whose operations fit one after the other keeps the quotas. -/
theorem mutate.batch_loop_within {rt : Runtime} {ctx : RequestContext} {actor_json : Text}
    {index : Nat} {results : List BatchResult} {operations : List BatchOperation}
    {outcome : BatchOutcome} {w w' : World} (hwf : WellFormed w.db) (hquota : WithinQuota w.db)
    (hfits : ∀ db operation, BatchPerforms rt ctx.workspace_id actor_json db operation operations w →
      operation.Fits db ctx.workspace_id)
    (h : batch_loop rt ctx actor_json index results operations w = .ok (outcome, w')) :
    WithinQuota w'.db := by
  induction operations generalizing index results w with
  | nil =>
    obtain ⟨rfl, rfl⟩ := Tx.pure_eq_ok.mp h
    exact hquota
  | cons operation rest ih =>
    unfold batch_loop at h
    split at h
    · obtain ⟨rfl, rfl⟩ := Tx.pure_eq_ok.mp h
      exact hquota
    · obtain ⟨step, w₁, hstep, h⟩ := Tx.bind_eq_ok.mp h
      have hfirst : WellFormed w₁.db ∧ WithinQuota w₁.db := by
        obtain rfl | ⟨result, hresult⟩ := execute_batch_operation_ok hstep
        · exact ⟨hwf, hquota⟩
        · have heffect : Effect rt Policy.any none w w₁ :=
            transact_effect hwf (fun hlaid => hlaid.elim) (Policy.permits_any _ _ _) hresult
          exact ⟨heffect.wellFormed hwf, (transact_resizes hwf hresult).within hquota
            (hfits w.db operation (Or.inl ⟨rfl, rfl⟩))⟩
      cases step with
      | Result result =>
        exact ih hfirst.1 hfirst.2
          (fun db operation hrest => hfits db operation (Or.inr ⟨result, w₁, hstep, hrest⟩)) h
      | Failed error =>
        obtain ⟨rfl, rfl⟩ := Tx.pure_eq_ok.mp h
        exact hfirst.2

namespace workspace

variable {rt : Runtime} {ws : WorkspaceId} {w w' : World}

/-- A new workspace has a root and nothing else. -/
theorem create_workspace_within {options : WorkspaceOptions} {result : Workspace}
    (hwf : WellFormed w.db) (hquota : WithinQuota w.db) (hfits : 1 ≤ options.max_nodes)
    (h : create_workspace rt options w = .ok (result, w')) :
    WithinQuota w'.db := by
  obtain ⟨row, nodes, workspaces, _, _, _, hmax_nodes, _, _, hws, hins, rfl⟩ :=
    create_workspace_ok h
  have hnew : w.db.sizes row.id = [] := by
    refine List.map_eq_nil_iff.mpr (List.filter_eq_nil_iff.mpr (fun n hn => ?_))
    obtain ⟨row', hrow'⟩ := hwf.nodes.workspace n hn
    simp only [decide_eq_true_eq]
    intro hid
    rw [hid, Db.workspace?, (Table.insert_eq_some.mp hws).1] at hrow'
    cases hrow'
  have hgrows : Grows row.id [] [0] w.db { w.db with nodes } :=
    .of_insert (n := rootRow _ row.id _) hins rfl (.of_eq rfl)
  intro row' hrow'
  obtain hrow' | rfl := (Table.mem_insert hws).mp hrow'
  · obtain ⟨hnodes, hbytes⟩ := hquota row' hrow'
    have hother := hgrows.other row'.id
      (Table.find?_eq_none.mp (Table.insert_eq_some.mp hws).1 row' hrow')
    exact ⟨hother.length_le.trans hnodes, (sum_le_of_subperm hother).trans hbytes⟩
  · have hown := hgrows.own
    rw [hnew, List.append_nil, List.nil_append] at hown
    have hlength := hown.length_le
    have hsum := sum_le_of_subperm hown
    simp only [List.length_singleton, List.sum_singleton] at hlength hsum
    exact ⟨hlength.trans (hmax_nodes ▸ hfits), hsum.trans (Nat.zero_le _)⟩

/-- A workspace that is reset has a root and nothing else. -/
theorem reset_workspace_within {result : Bool} (hwf : WellFormed w.db) (hquota : WithinQuota w.db)
    (h : reset_workspace rt ws w = .ok (result, w')) : WithinQuota w'.db := by
  obtain ⟨rfl, _⟩ | ⟨row, nodes, _, hrow, hins, rfl⟩ := reset_workspace_ok hwf h
  · exact hquota
  · have hempty : (w.db.clear ws).sizes ws = [] := by
      refine List.map_eq_nil_iff.mpr (List.filter_eq_nil_iff.mpr (fun n hn => ?_))
      simpa using (Db.mem_clear_nodes.mp hn).2
    have hroot : Grows ws [] [0] (w.db.clear ws) { w.db.clear ws with nodes } :=
      .of_insert (n := rootRow _ ws _) hins rfl (.of_eq rfl)
    have hcleared : Grows ws [] [] w.db (w.db.clear ws) := .of_filter rfl (.of_eq rfl)
    have hgrows : Grows ws (w.db.sizes ws) [0] w.db
        { (w.db.clear ws).reset_sequence ws (rt.nowMs (w.tick + 1)) with nodes } := by
      refine ⟨?_, fun id hne => (hroot.other id hne).trans (hcleared.other id hne),
        fun row' hrow' => ?_⟩
      · have hown := hroot.own
        rw [hempty, List.append_nil, List.nil_append] at hown
        exact ((List.subperm_append_right _).mpr hown).trans List.perm_append_comm.subperm
      · obtain ⟨x, hx, rfl⟩ := Table.mem_modify.mp hrow'
        refine ⟨x, hx, ?_⟩
        split
        · exact ⟨rfl, rfl, rfl, rfl⟩
        · exact .refl x
    -- the root that was there before has made room for the new one
    obtain ⟨n, hn, hnws, _⟩ := hwf.nodes.root ws row hrow
    have hpos : 0 < (w.db.sizes ws).length :=
      List.length_pos_of_mem (List.mem_map_of_mem (List.mem_filter.mpr ⟨hn, by simpa using hnws⟩))
    refine hquota.grow hgrows (fun row' hrow' hid => ?_)
    have hnodes := (hquota row' hrow').1
    rw [hid] at hnodes
    simp only [List.length_singleton, List.sum_singleton]
    omega

end workspace

/-- A call that fits keeps the quotas. -/
theorem DbCall.exec_within {rt : Runtime} {call : DbCall} {w : World} (hwf : WellFormed w.db)
    (hquota : WithinQuota w.db) (hfits : call.Fits rt w) : WithinQuota (call.exec rt w).2.db := by
  unfold DbCall.exec
  cases hbody : call.body rt w with
  | error fault => exact hquota
  | ok result =>
    obtain ⟨answer, w'⟩ := result
    simp only
    split
    · cases call with
      | resolve | resolve_following | fetch_max_file_bytes | fetch_usage | fetch_changes_page | fetch_chunk_bytes =>
        simp only [body, Tx.query_eq_ok] at hbody
        exact hbody.2 ▸ hquota
      | create_generation ws =>
        obtain ⟨_, _, _, rfl⟩ := create_generation_ok hbody
        exact hquota
      | upsert_chunk g index bytes =>
        obtain ⟨_, rfl⟩ := upsert_chunk_ok hbody
        exact hquota
      | copy_chunk_range source g lower upper =>
        simp only [body, content.copy_chunk_range, Tx.execute_eq_ok] at hbody
        obtain ⟨db, hcopy, rfl⟩ := hbody
        obtain ⟨_, chunks, _, rfl⟩ := insert_chunks_ok hcopy
        exact hquota
      | delete_generation g =>
        obtain rfl := delete_generation_ok hbody
        exact hquota
      | finalize ws path g length params actor_json =>
        obtain ⟨rfl, _⟩ | ⟨row, _, hfinal⟩ := finalize_tx_ok hbody
        · exact hquota
        · obtain ⟨removed, hgrows, hroom⟩ := hfinal.grows
          exact hquota.grow hgrows (hroom hfits)
      | transaction ws operation actor_json =>
        exact (transact_resizes hwf hbody).within hquota (hfits ws w.db operation ⟨rfl, rfl, rfl⟩)
      | batch ctx operations actor_json =>
        exact batch_loop_within hwf hquota
          (fun db operation hop => hfits ctx.workspace_id db operation ⟨rfl, hop⟩) hbody
      | create_workspace options => exact workspace.create_workspace_within hwf hquota hfits hbody
      | reset_workspace ws => exact workspace.reset_workspace_within hwf hquota hbody
      | delete_workspace ws =>
        obtain rfl := workspace.delete_workspace_ok hwf hbody
        refine hquota.same (show Grows ws [] [] w.db _ from .of_filter rfl ?_)
        exact fun row hrow => ⟨row, (Table.mem_deleteWhere.mp hrow).1, .refl row⟩
    · exact hquota

/-- In every run in which each call finds room for what it adds, no workspace ever
exceeds its quotas. -/
theorem Reached.within_quota {rt : Runtime} {c : System}
    (h : Reached rt (fun c _ o => o.Fits rt c.state) c) :
    WithinQuota c.state.db := by
  induction h with
  | refl => exact fun row hrow => by cases hrow
  | tail hsteps hstep ih =>
    have hsound := Reached.sound (P := Policy.any) (Steps.mono hsteps (fun _ hp => hp)
      (fun c _ o _ => Policy.allows_any rt c.state o))
    cases hstep with
    | arrive s ps p hnew => exact ih
    | advance s ps i o next hproc hmay => exact DbCall.exec_within hsound.wf ih hmay

/-- A workspace for a root and one more node. -/
def tightRequests : List (RequestContext × Request) :=
  [(.trusted 0, .CreateWorkspace { max_bytes := 2, max_nodes := 2 })]

/-- Making `/a` in it fits. -/
theorem tight_within_quota : ∃ c : System, c.state =
    serveAll Runtime.counting [(.trusted 0, .Perform (.Mkdir (.ofSegments [['a']] (by decide)) {}))]
      (serveAll Runtime.counting tightRequests ⟨Db.empty, 0⟩) ∧ WithinQuota c.state.db := by
  have hcreated : ∃ ps, Reached Runtime.counting (fun c _ o => o.Fits Runtime.counting c.state)
      ⟨serveAll Runtime.counting tightRequests ⟨Db.empty, 0⟩, ps⟩ := by
    refine serveAll_steps (fun r _ => ⟨r.1, r.2, rfl⟩) (fun r hr w => ?_) _ _
    rw [List.mem_singleton.mp hr]
    exact Task.along_map ⟨fun _ _ => show 1 ≤ 2 by decide, trivial⟩
  obtain ⟨ps, hcreated⟩ := hcreated
  obtain ⟨qs, hmade⟩ := hcreated.serve (.trusted 0)
    (.Perform (.Mkdir (.ofSegments [['a']] (by decide)) {})) (along_perform (by
    rintro _ _ _ _ ⟨rfl, rfl, rfl⟩ existing made base hmakes _ row hrow hid
    have hmade : made.length ≤ 1 := by
      have hlength := congrArg List.length hmakes.split
      simp only [List.length_append] at hlength
      exact le_trans (Nat.le_add_left _ _) hlength.symm.le
    have hroom : ∀ row ∈ (serveAll Runtime.counting tightRequests ⟨Db.empty, 0⟩).db.workspaces.rows,
        ((serveAll Runtime.counting tightRequests ⟨Db.empty, 0⟩).db.sizes 0).length + 1 ≤
          row.max_nodes ∧
        ((serveAll Runtime.counting tightRequests ⟨Db.empty, 0⟩).db.sizes 0).sum ≤
          row.max_bytes := by decide +kernel
    obtain ⟨hnodes, hbytes⟩ := hroom row hrow
    rw [List.map_const', List.length_replicate, List.sum_replicate_nat, Nat.mul_zero]
    exact ⟨(Nat.add_le_add_left hmade _).trans hnodes, hbytes⟩))
  exact ⟨_, rfl, hmade.within_quota⟩

/-- A workspace for two bytes and no node but its root, and a file of three bytes. -/
def exceedingRequests : List (RequestContext × Request) :=
  [(.trusted 0, .CreateWorkspace { max_bytes := 2, max_nodes := 1 }),
    (.trusted 0, .Write (.named [['f']]) [.ok [1, 2, 3]] {})]

/-- The file is written and both limits are exceeded. -/
theorem exceeding_not_within_quota :
    Reachable Runtime.counting (serveAll Runtime.counting exceedingRequests ⟨Db.empty, 0⟩) ∧
    (∃ row ∈ (serveAll Runtime.counting exceedingRequests ⟨Db.empty, 0⟩).db.workspaces.rows,
      row.max_nodes < ((serveAll Runtime.counting exceedingRequests
        ⟨Db.empty, 0⟩).db.sizes row.id).length ∧
      row.max_bytes < ((serveAll Runtime.counting exceedingRequests
        ⟨Db.empty, 0⟩).db.sizes row.id).sum) ∧
    ¬ WithinQuota (serveAll Runtime.counting exceedingRequests ⟨Db.empty, 0⟩).db := by
  have hexceeds : ∃ row ∈ (serveAll Runtime.counting exceedingRequests
    ⟨Db.empty, 0⟩).db.workspaces.rows,
      row.max_nodes < ((serveAll Runtime.counting exceedingRequests
        ⟨Db.empty, 0⟩).db.sizes row.id).length ∧
      row.max_bytes < ((serveAll Runtime.counting exceedingRequests
        ⟨Db.empty, 0⟩).db.sizes row.id).sum := by
    decide +kernel
  refine ⟨(Reachable.empty _).serveAll _, hexceeds, fun hquota => ?_⟩
  obtain ⟨row, hrow, hnodes, _⟩ := hexceeds
  exact absurd (hquota row hrow).1 (Nat.not_le.mpr hnodes)

end fslite
