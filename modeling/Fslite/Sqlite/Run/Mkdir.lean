import Fslite.Sqlite.Run.Depth
import Fslite.Sqlite.Run.Location
import Fslite.Sqlite.Run.Quota

namespace fslite

open resolve

/-- The path of the first segments. -/
def VirtualPath.front (path : VirtualPath) (k : Nat) : VirtualPath :=
  .ofSegments (path.segments.take k)
    (fun _ hs => VirtualPath.segment_of_mem (List.mem_of_mem_take hs))

@[simp] theorem VirtualPath.segments_front (path : VirtualPath) (k : Nat) :
    (path.front k).segments = path.segments.take k :=
  segments_ofSegments _

/-- The paths from the root down to the path, without the root. -/
def VirtualPath.prefixes (path : VirtualPath) : List VirtualPath :=
  (List.range' 1 path.segments.length).map path.front

/-- Those of them that lead to no node. -/
def resolve.missing (db : Db) (ws : WorkspaceId) (path : VirtualPath) : List VirtualPath :=
  path.prefixes.filter (fun p => (resolve db ws p).isNone)

/-- The prefixes of a path that leads to a node do so as well. -/
theorem resolve.resolve_front {db : Db} {ws : WorkspaceId} {path : VirtualPath} {j k : Nat}
    (hle : k ≤ j) (h : (resolve db ws (path.front j)).isSome) :
    (resolve db ws (path.front k)).isSome := by
  have hsegments : (path.front j).segments = (path.front k).segments ++
      (path.segments.take j).drop k := by
    rw [VirtualPath.segments_front, VirtualPath.segments_front, ← Nat.min_eq_left hle,
      ← List.take_take, Nat.min_eq_left hle,
      List.take_append_drop]
  cases hfront : resolve db ws (path.front k) with
  | none =>
    rw [resolve_none hfront hsegments] at h
    cases h
  | some raw => rfl

theorem VirtualPath.front_length (path : VirtualPath) : path.front path.segments.length = path :=
  eq_of_segments_eq (by rw [segments_front, List.take_length])

namespace directory

/-- A directory that a call makes, with its path and its change row. -/
structure Made where
  path : VirtualPath
  node : NodeRow
  change : ChangeRow

/-- The directories are made, each with its change, and nothing else happens but that the
workspace counts the changes. -/
structure MakesAll (ws : WorkspaceId) (made : List Made) (db db' : Db) : Prop where
  nodes : db'.nodes.rows = db.nodes.rows ++ made.map Made.node
  feeds : Feeds ws (made.map Made.change) db db'
  found : ∀ m ∈ made, resolve db' ws m.path = some m.node.toRawNode
  shape : ∀ m ∈ made, m.node.kind = .Directory ∧ m.node.revision = 1
  recorded : ∀ m ∈ made, m.change.kind = .Created ∧ m.change.node_id = some m.node.id ∧
    m.change.old_path = none ∧
    m.change.new_path = some m.path.as_str ∧ m.change.revision = some 1
  workspaces : List.Forall₂ (fun row row' => row' = if row.id = ws then
      { row with change_seq := row.change_seq + made.length, updated_at_ms :=
        row'.updated_at_ms } else row)
    db.workspaces.rows db'.workspaces.rows
  content_generations : db'.content_generations = db.content_generations
  content_chunks : db'.content_chunks = db.content_chunks
  attributes : db'.attributes = db.attributes
  trash : db'.trash = db.trash

/-- The path leads to the directory, the directories that were missing on the way have been
made from the root down and no others, and to make it again only finds it. -/
structure MakesMissing (ws : WorkspaceId) (path : VirtualPath) (options : CreateOptions)
    (row : RawNode) (db db' : Db) : Prop where
  found : resolve db' ws path = some row ∧ row.kind = .Directory
  makes : ∃ made : List Made, made.map Made.path = missing db ws path ∧ MakesAll ws made db db'
  idle : missing db ws path = [] → db' = db
  single : options.parents = false → ∀ p ∈ missing db ws path, p = path
  again : ∀ (rt : Runtime) (options' : CreateOptions) (actor_json : Text) (tick : Nat),
    options'.exist_ok = true →
    options'.expected_revision = none →
    mkdir_tx rt ws path.segments options' actor_json ⟨db', tick⟩ = .ok (.Existing row, ⟨db', tick⟩)

section makes

variable {rt : Runtime} {ws : WorkspaceId} {w w' : World} {actor_json : Text} {db db₁ db' : Db}

theorem MakesAll.nil (ws : WorkspaceId) (db : Db) : MakesAll ws [] db db where
  nodes := by simp
  feeds := .refl ws db
  found := by simp
  shape := by simp
  recorded := by simp
  workspaces := List.forall₂_same.mpr (fun row _ => by split <;> rfl)
  content_generations := rfl
  content_chunks := rfl
  attributes := rfl
  trash := rfl

/-- A directory that has just been made, before the others. -/
theorem MakesAll.cons {m : Made} {made : List Made} {nodes : Table NodeRow.key}
    (hins : db.nodes.insert m.node = some nodes)
    (happ : Recorded ws .Created (some m.node.id) none (some m.path.as_str) (some 1)
    { db with nodes } db₁) (hfound : resolve db' ws m.path = some m.node.toRawNode)
    (hshape : m.node.kind = .Directory ∧ m.node.revision = 1) (hfeeds : Feeds ws [m.change] db db₁)
    (hrecorded : m.change.kind = .Created ∧ m.change.node_id = some m.node.id ∧
    m.change.old_path = none ∧
      m.change.new_path = some m.path.as_str ∧ m.change.revision = some 1)
    (h : MakesAll ws made db₁ db') : MakesAll ws (m :: made) db db' where
  nodes := by
    rw [h.nodes, happ.appended.nodes, (Table.insert_eq_some.mp hins).2, List.append_assoc,
      List.map_cons, List.singleton_append]
  feeds := hfeeds.trans h.feeds
  found := List.forall_mem_cons.mpr ⟨hfound, h.found⟩
  shape := List.forall_mem_cons.mpr ⟨hshape, h.shape⟩
  recorded := List.forall_mem_cons.mpr ⟨hrecorded, h.recorded⟩
  workspaces := by
    have hrest := h.workspaces
    obtain ⟨now, _, _, changes, _, _, rfl⟩ := happ
    simp only [Db.bump_sequence, Table.modify, List.forall₂_map_left_iff] at hrest
    refine hrest.imp (fun row row' hrow => ?_)
    by_cases hid : row.id = ws
    · simp only [hid, if_true] at hrow ⊢
      rw [hrow, List.length_cons, Nat.add_assoc, Nat.add_comm 1]
    · simpa only [hid, if_false] using hrow
  content_generations := h.content_generations.trans happ.appended.content_generations
  content_chunks := h.content_chunks.trans happ.appended.content_chunks
  attributes := h.attributes.trans happ.appended.attributes
  trash := h.trash.trans happ.appended.trash

/-- What has been made one below the other are the directories on the way to the target. -/
theorem Nested.makes {up last : NodeId} {path last_path target : VirtualPath} {names : List Text}
    {base : RawNode} (h : Nested rt ws up path names w last last_path w')
    (hwf : NodesWellFormed w'.db) (hbase : resolve w'.db ws path = some base) (hid : base.id = up)
    (hdir : base.kind = .Directory) (htarget : target.segments = path.segments ++ names) :
    ∃ made : List Made, made.map Made.path =
      (List.range' (path.segments.length + 1) names.length).map target.front ∧
      MakesAll ws made w.db w'.db ∧ (made.map (fun m => m.node.id)).getLastD up = last := by
  induction h generalizing base with
  | done => exact ⟨[], rfl, .nil _ _, rfl⟩
  | @make up last path joined last_path name names w w₁ w' nodes hjoin hins htick happ hrest ih =>
    have hrow : directoryRow (rt.newId w.tick) ws up name
        (rt.nowMs (w.tick + 1)) ∈ w'.db.nodes := by
      refine hrest.kept _ ?_
      rw [happ.appended.nodes]
      exact (Table.mem_insert hins).mpr (Or.inr rfl)
    have hfound := resolve_child hwf hjoin hbase hdir hrow rfl (hid ▸ rfl) rfl
    have htarget' : target.segments = joined.segments ++ names := by
      rw [htarget, hjoin, List.append_assoc, List.singleton_append]
    obtain ⟨made, hpaths, hmakes, hlast⟩ := ih hwf hfound rfl rfl htarget'
    obtain ⟨sequence, now, actor_json, hfeeds⟩ := happ.feeds w.db rfl rfl
    have hlength : joined.segments.length = path.segments.length +
      1 := by rw [hjoin, List.length_append, List.length_singleton]
    have hjoined : joined = target.front (path.segments.length + 1) := by
      apply VirtualPath.eq_of_segments_eq
      rw [VirtualPath.segments_front, htarget', ← hlength, List.take_left]
    refine ⟨⟨joined, _, _⟩ :: made, ?_, .cons hins happ hfound ⟨rfl, rfl⟩ hfeeds
      ⟨rfl, rfl, rfl, rfl, rfl⟩ hmakes, ?_⟩
    · rw [List.map_cons, hpaths, List.length_cons, List.range'_succ, List.map_cons, ← hjoined,
        hlength]
    · rw [List.map_cons, List.getLastD_cons]
      exact hlast

/-- The prefixes that are missing are those below what is found. -/
theorem Makes.missing {existing names : List Text} {base : RawNode} {path : VirtualPath}
    (h : Makes db ws path.segments existing names base) :
    missing db ws path = (List.range' (existing.length + 1) names.length).map path.front := by
  obtain ⟨root, hroot, hwalk⟩ := h.found
  have hresolve : ∀ k, resolve db ws (path.front k) = walk db ws root
      ((existing ++ names).take k) := by
    intro k
    unfold resolve.resolve
    rw [hroot, VirtualPath.segments_front, h.split]
  have hlength : path.segments.length = existing.length +
    names.length := by rw [h.split, List.length_append]
  unfold resolve.missing VirtualPath.prefixes
  rw [hlength, ← List.range'_append_1, List.map_append, List.filter_append, Nat.add_comm 1]
  have hfound : ((List.range' 1 existing.length).map path.front).filter
      (fun p => (resolve db ws p).isNone) = [] := by
    refine List.filter_eq_nil_iff.mpr (List.forall_mem_map.mpr (fun k hk => ?_))
    have hbase : (resolve db ws (path.front existing.length)).isSome := by
      rw [hresolve, List.take_left, hwalk]
      rfl
    obtain ⟨_, hlt⟩ := List.mem_range'_1.mp hk
    have hle : k ≤ existing.length := by omega
    rw [Option.isNone_iff_eq_none, ← Option.not_isSome_iff_eq_none, not_not]
    exact resolve_front hle hbase
  have hmissing : ((List.range' (existing.length + 1) names.length).map path.front).filter
    (fun p => (resolve db ws p).isNone) =
      (List.range' (existing.length + 1) names.length).map path.front := by
    refine List.filter_eq_self.mpr (List.forall_mem_map.mpr (fun k hk => ?_))
    obtain ⟨hlt, _⟩ := List.mem_range'_1.mp hk
    obtain ⟨j, rfl⟩ := Nat.exists_eq_add_of_le hlt
    obtain ⟨name, rest, rfl⟩ := List.exists_cons_of_ne_nil h.new
    rw [hresolve, Nat.add_assoc, List.take_length_add_append, Nat.add_comm 1, List.take_succ_cons,
      walk_split, hwalk, Option.bind_some, walk,
      h.free name rfl]
    simp [h.dir]
  rw [hfound, hmissing, List.nil_append]

/-- What `mkdir` finds or makes: where it stands when it comes to the last segment. -/
theorem mkdir_tx_cases {options : CreateOptions} {segments : List Text} {outcome : MkdirOutcome}
    (h : mkdir_tx rt ws segments options actor_json w = .ok (outcome, w')) {row : RawNode}
    (hrow : outcome = .Created row ∨ outcome = .Existing row) :
    ∃ root leaf_name current current_path w₁, fetch_root w.db ws = some root ∧
    segments.getLast? = some leaf_name ∧
      mkdir_ancestors rt ws options actor_json segments.dropLast root VirtualPath.root w = .ok
        (.ok (current, current_path), w₁) ∧
      current.kind = .Directory ∧
      (outcome = .Created row ∧
      (∃ leaf_path, create_directory rt ws current.id leaf_name leaf_path actor_json w₁ = .ok
      (row, w')) ∨
       outcome = .Existing row ∧ w' = w₁ ∧ fetch_child w₁.db ws current.id leaf_name = some row ∧
       row.kind = .Directory) := by
  simp only [mkdir_tx, Tx.query_bind] at h
  cases hroot : fetch_root w.db ws with
  | none =>
    simp only [hroot] at h
    obtain ⟨rfl, _⟩ := Tx.pure_eq_ok.mp h
    simp at hrow
  | some root =>
    simp only [hroot, Tx.expect_bind_eq_ok] at h
    obtain ⟨leaf_name, hleaf, h⟩ := h
    obtain ⟨result, w₁, hancestors, h⟩ := Tx.bind_eq_ok.mp h
    cases result with
    | error out =>
      obtain ⟨rfl, _⟩ := Tx.pure_eq_ok.mp h
      obtain rfl | rfl := mkdir_ancestors_error hancestors <;> simp at hrow
    | ok last =>
      obtain ⟨current, current_path⟩ := last
      refine ⟨root, leaf_name, current, current_path, w₁, rfl, hleaf, hancestors, ?_⟩
      simp only at h
      split at h
      · obtain ⟨rfl, _⟩ := Tx.pure_eq_ok.mp h
        simp at hrow
      · rename_i hkind
        refine ⟨not_not.mp hkind, ?_⟩
        simp only [Tx.query_bind] at h
        cases hexisting : fetch_child w₁.db ws current.id leaf_name with
        | some child =>
          simp only [hexisting] at h
          split at h
          · obtain ⟨rfl, _⟩ := Tx.pure_eq_ok.mp h
            simp at hrow
          · rename_i hdirectory
            split at h
            · obtain ⟨rfl, _⟩ := Tx.pure_eq_ok.mp h
              simp at hrow
            · split at h
              · obtain ⟨rfl, _⟩ := Tx.pure_eq_ok.mp h
                simp at hrow
              · obtain ⟨rfl, rfl⟩ := Tx.pure_eq_ok.mp h
                obtain rfl : child = row := by simpa using hrow
                exact Or.inr ⟨rfl, rfl, rfl, not_not.mp hdirectory⟩
        | none =>
          simp only [hexisting, Tx.expect_bind_eq_ok] at h
          obtain ⟨leaf_path, _, h⟩ := h
          obtain ⟨created, w₂, hcreate, h⟩ := Tx.bind_eq_ok.mp h
          obtain ⟨rfl, rfl⟩ := Tx.pure_eq_ok.mp h
          obtain rfl : created = row := by simpa using hrow
          exact Or.inl ⟨rfl, leaf_path, hcreate⟩

/-- Where the path leads to a directory, `mkdir` only finds it. -/
theorem mkdir_tx_existing {options : CreateOptions} {path : VirtualPath} {row : RawNode}
    (hwf : WellFormed w.db) (h : mkdir_tx rt ws path.segments options actor_json w = .ok
    (.Existing row, w')) :
    w' = w ∧ resolve w.db ws path = some row ∧ row.kind = .Directory := by
  obtain ⟨root, leaf_name, current, current_path, w₁, hroot, hleaf, hancestors, hkind, hcase⟩ :=
    mkdir_tx_cases h (Or.inr rfl)
  obtain ⟨hcreated, _⟩ | ⟨_, rfl, hchild, hrow⟩ := hcase
  · cases hcreated
  have hsplit : path.segments.dropLast ++ [leaf_name] = path.segments :=
    List.dropLast_append_getLast? leaf_name hleaf
  have hsegments : ∀ s ∈ path.segments.dropLast, Segment s := fun s hs =>
    VirtualPath.segment_of_mem (List.dropLast_subset _ hs)
  obtain ⟨_, _, hok⟩ := mkdir_ancestors_effect (P := Policy.any) (o :=
    none) hwf (fetch_root_live hroot) hsegments hancestors
  -- a directory that has just been made has no child that could be found
  obtain rfl : w' = w := (hok current current_path rfl).2.1.resolve_right (fun hb => by simp [hb.2] at hchild)
  obtain ⟨existing, made, base, base_path, hexisting, hwalk, _, hnested, hlast, _⟩ :=
    mkdir_ancestors_ok hwf (fetch_root_live hroot) hsegments hancestors
  have hnone : made = [] := List.length_eq_zero_iff.mp (by have := hnested.grows.1; omega)
  obtain rfl := hlast hnone
  refine ⟨rfl, ?_, hrow⟩
  unfold resolve.resolve
  rw [hroot, ← hsplit, hexisting, hnone, List.append_nil]
  simp only [walk_split, hwalk, Option.bind_some]
  exact walk_single.mpr ⟨hkind, hchild⟩

/-- The row that `mkdir` returns for what it has made is stored. -/
theorem mkdir_tx_created {options : CreateOptions} {segments : List Text} {row : RawNode}
    (h : mkdir_tx rt ws segments options actor_json w = .ok (.Created row, w')) :
    ∃ n ∈ w'.db.nodes, n.toRawNode = row ∧ row.kind = .Directory := by
  obtain ⟨_, _, _, _, w₁, _, _, _, _, ⟨_, _, hcreate⟩ | ⟨hexisting, _⟩⟩ :=
    mkdir_tx_cases h (Or.inl rfl)
  · obtain ⟨nodes, rfl, hins, _, happ⟩ := create_directory_ok hcreate
    refine ⟨_, ?_, rfl, rfl⟩
    rw [happ.appended.nodes]
    exact (Table.mem_insert hins).mpr (Or.inr rfl)
  · cases hexisting

/-- The walk of `mkdir` over directories that are there. -/
theorem mkdir_ancestors_walk (rt : Runtime) (options : CreateOptions) (actor_json : Text)
    {segments : List Text} {current base : RawNode} (hsegments : ∀ s ∈ segments, Segment s)
    (h : walk w.db ws current segments = some base) (current_path : VirtualPath) :
    ∃ path, mkdir_ancestors rt ws options actor_json segments current current_path w = .ok
      (.ok (base, path), w) := by
  induction segments generalizing current current_path with
  | nil =>
    cases h
    exact ⟨current_path, rfl⟩
  | cons segment rest ih =>
    unfold walk at h
    split at h
    · cases h
    · rename_i hkind
      split at h
      · rename_i child hchild
        obtain ⟨joined, hjoin, _⟩ :=
          current_path.join_segment (hsegments segment List.mem_cons_self)
        obtain ⟨path, hpath⟩ := ih (fun s hs => hsegments s (List.mem_cons_of_mem _ hs)) h joined
        refine ⟨path, ?_⟩
        unfold mkdir_ancestors
        rw [if_neg hkind]
        simp only [Tx.query_bind, hchild, Tx.expect_bind_eq_ok, hjoin]
        exact ⟨joined, rfl, hpath⟩
      · cases h

/-- Made once more, a directory that is there is found. -/
theorem mkdir_tx_again {options : CreateOptions} {path : VirtualPath} {row : RawNode}
    (hne : path.segments ≠ []) (hfound : resolve w.db ws path = some row)
    (hkind : row.kind = .Directory) (hexist : options.exist_ok = true)
    (hexpected : options.expected_revision = none) :
    mkdir_tx rt ws path.segments options actor_json w = .ok (.Existing row, w) := by
  obtain ⟨front, leaf_name, hsplit⟩ : ∃ front leaf_name, path.segments = front ++ [leaf_name] :=
    ⟨_, _, (List.dropLast_append_getLast hne).symm⟩
  unfold resolve.resolve at hfound
  cases hroot : fetch_root w.db ws with
  | none =>
    rw [hroot] at hfound
    cases hfound
  | some root =>
    rw [hroot, hsplit] at hfound
    simp only [walk_split] at hfound
    obtain ⟨base, hwalk, hchild⟩ := Option.bind_eq_some_iff.mp hfound
    obtain ⟨hbase, hchild⟩ := walk_single.mp hchild
    have hsegments : ∀ s ∈ front, Segment s := fun s hs =>
      VirtualPath.segment_of_mem (p := path) (hsplit ▸ List.mem_append_left _ hs)
    obtain ⟨base_path, hancestors⟩ :=
      mkdir_ancestors_walk rt options actor_json hsegments hwalk VirtualPath.root
    simp only [mkdir_tx, Tx.query_bind, hroot, hsplit, List.getLast?_concat, List.dropLast_concat,
      Tx.expect_bind_eq_ok,
      Option.some.injEq, exists_eq_left']
    rw [Tx.bind_of_ok hancestors]
    simp only [hbase, ne_eq, not_true_eq_false, if_false, Tx.query_bind, hchild, hkind, hexist,
      Bool.not_true,
      Bool.false_eq_true, hexpected, stale, Option.any_none]
    rfl

/-- What has been found is left as it is. -/
theorem MakesMissing.of_existing {options : CreateOptions} {path : VirtualPath} {row : RawNode}
    (hne : path.segments ≠ []) (hfound : resolve db ws path = some row)
    (hkind : row.kind = .Directory) : MakesMissing ws path options row db db := by
  have hmissing : missing db ws path = [] := by
    refine List.filter_eq_nil_iff.mpr (List.forall_mem_map.mpr (fun k hk => ?_))
    obtain ⟨_, hlt⟩ := List.mem_range'_1.mp hk
    have hle : k ≤ path.segments.length := by omega
    rw [Option.isNone_iff_eq_none, ← Option.not_isSome_iff_eq_none, not_not]
    exact resolve_front hle (by rw [path.front_length, hfound]; rfl)
  exact ⟨⟨hfound, hkind⟩, ⟨[], hmissing.symm, .nil ws db⟩, fun _ => rfl, by simp [hmissing],
    fun _ _ _ _ hexist hexpected => mkdir_tx_again hne hfound hkind hexist hexpected⟩

/-- What has been made is where the path leads. -/
theorem MakesMissing.of_created {options : CreateOptions} {path : VirtualPath} {row : RawNode}
    (hwf : WellFormed w.db) (hwf' : NodesWellFormed w'.db) (hne : path.segments ≠ [])
    (h : mkdir_tx rt ws path.segments options actor_json w = .ok (.Created row, w')) :
    MakesMissing ws path options row w.db w'.db := by
  obtain ⟨n, hn, rfl, hkind⟩ := mkdir_tx_created h
  obtain ⟨_, habsurd⟩ | ⟨row', existing, names, base, base_path, last_path, ⟨hrow', _⟩, hmakes,
    hsegments, hnested⟩ :=
    mkdir_tx_ok hwf (fun s hs => VirtualPath.segment_of_mem hs) h
  · exact absurd rfl (habsurd _)
  cases hrow'
  have hbase : resolve w.db ws base_path = some base := Makes.resolve_base (hsegments ▸ hmakes)
  have hmissing := hmakes.missing
  obtain ⟨made, hpaths, hall, hlast⟩ :=
    hnested.makes hwf' ((extends_of_subset hwf' hnested.kept).resolve_path hbase) rfl hmakes.dir
    (show path.segments = base_path.segments ++ names by rw [hsegments, hmakes.split])
  rw [hsegments, ← hmissing] at hpaths
  have hlength : made.length = names.length := by
    rw [← List.length_map Made.path, hpaths, hmissing, List.length_map, List.length_range']
  have hpos : 0 < names.length := List.length_pos_iff.mpr hmakes.new
  -- the last of the directories is the one that is returned
  obtain ⟨before, m, rfl⟩ : ∃ before m, made = before ++ [m] :=
    ⟨_, _, (List.dropLast_append_getLast (List.length_pos_iff.mp (hlength ▸ hpos))).symm⟩
  have hpath : m.path = path := by
    rw [hmissing, List.map_append, List.map_singleton] at hpaths
    have hend := congrArg List.getLast? hpaths
    obtain ⟨k, hk⟩ := Nat.exists_eq_add_of_le' hpos
    rw [List.getLast?_concat, hk, List.range'_concat, List.map_append, List.map_singleton,
      List.getLast?_concat, Option.some.injEq] at hend
    rw [hend, show existing.length + 1 + 1 * k =
      path.segments.length by rw [hmakes.split, List.length_append]; omega, path.front_length]
  have hnode : m.node = n := by
    rw [List.map_append, List.map_singleton, List.getLastD_concat] at hlast
    refine w'.db.nodes.eq_of_key_eq ?_ hn hlast
    rw [Table.mem_def, hall.nodes]
    simp
  have hfound : resolve w'.db ws path = some n.toRawNode := by
    rw [← hpath, ← hnode]
    exact hall.found m (by simp)
  refine ⟨⟨hfound, hkind⟩, ⟨_, hpaths, hall⟩, fun hnil => ?_, fun hparents p hp => ?_,
    fun _ _ _ _ hexist hexpected => mkdir_tx_again hne hfound hkind hexist hexpected⟩
  · rw [hnil] at hpaths
    simp at hpaths
  · have hsingle : names.length = 1 := by
      have htick := hnested.grows.1
      obtain rfl | htick' := mkdir_tx_single hparents h <;> omega
    rw [← hpaths] at hp
    obtain ⟨m', hm', rfl⟩ := List.mem_map.mp hp
    rw [List.length_append, List.length_singleton, hsingle, Nat.add_eq_right,
      List.length_eq_zero_iff] at hlength
    rw [hlength, List.nil_append, List.mem_singleton] at hm'
    rw [hm', hpath]

end makes

/-- `mkdir` makes what is missing on the way to the path, and nothing else. -/
theorem mkdir_makes_missing (rt : Runtime) (w w' : World) (hreach : Reachable rt w)
    (ws : WorkspaceId) (path : VirtualPath) (options : CreateOptions) (actor_json : Text)
    (outcome : MkdirOutcome) (row : RawNode)
    (hmkdir : mkdir_tx rt ws path.segments options actor_json w = .ok (outcome, w'))
    (hrow : outcome = .Created row ∨ outcome = .Existing row) :
    MakesMissing ws path options row w.db w'.db := by
  have hwf := hreach.sound.wf
  obtain ⟨_, leaf_name, _, _, _, _, hleaf, _⟩ := mkdir_tx_cases hmkdir hrow
  have hne : path.segments ≠ [] := fun hnil => by simp [hnil] at hleaf
  obtain rfl | rfl := hrow
  · have hwf' := (mkdir_tx_effect (P := Policy.any) (o := none) hwf
      (fun s hs => VirtualPath.segment_of_mem hs) hmkdir).1.wellFormed hwf
    exact .of_created hwf hwf'.nodes hne hmkdir
  · obtain ⟨rfl, hfound, hkind⟩ := mkdir_tx_existing hwf hmkdir
    exact .of_existing hne hfound hkind

def MkdirOutcome.created? : MkdirOutcome → Option RawNode
  | .Created row => some row
  | _ => none

theorem MkdirOutcome.created?_isSome {outcome : MkdirOutcome} (h : outcome.created?.isSome = true) :
    ∃ row, outcome = .Created row := by
  cases outcome with
  | Created row => exact ⟨row, rfl⟩
  | _ => cases h

/-- Below `/a` in the new workspace two directories are missing. -/
theorem nested_makes_missing : ∃ (path : VirtualPath) (row : RawNode) (w' : World),
    path.segments = [['a'], ['c'], ['d']] ∧
    mkdir_tx Runtime.counting 0 path.segments { parents := true } [] emptyWorld = .ok
      (.Created row, w') ∧
    (missing emptyWorld.db 0 path).map VirtualPath.segments =
      [[['a'], ['c']], [['a'], ['c'], ['d']]] ∧
    MakesMissing 0 path { parents := true } row emptyWorld.db w'.db := by
  obtain ⟨⟨outcome, w'⟩, hmkdir, hcreated⟩ := @Tx.ok_of_any _ (mkdir_tx Runtime.counting 0
    (VirtualPath.ofSegments [['a'], ['c'], ['d']] (by decide)).segments
      { parents := true } [] emptyWorld) (fun p => p.1.created?.isSome) (by decide +kernel)
  obtain ⟨row, rfl⟩ := MkdirOutcome.created?_isSome hcreated
  exact ⟨_, row, w', by decide, hmkdir, by decide +kernel,
    mkdir_makes_missing Runtime.counting emptyWorld w' emptyWorld_reachable 0 _ _ [] _ row hmkdir
      (Or.inl rfl)⟩

end directory

end fslite
