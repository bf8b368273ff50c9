import Fslite.Sqlite.ContentSearch
import Fslite.Sqlite.Run.Attribute
import Fslite.Sqlite.Run.Isolation
import Fslite.Sqlite.Run.Lone
import Fslite.Sqlite.Run.Staged
import Fslite.Sqlite.Run.Views

namespace fslite

open resolve directory content mutate trash

namespace SameRows

variable {A : WorkspaceId} {db db' : Db}

/-- Conditions that only nodes of the workspace meet select the same nodes. -/
theorem filter_nodes (h : SameRows A db db') {p : NodeRow → Bool}
    (hp : ∀ n, p n = true → n.workspace_id = A) :
    db'.nodes.rows.filter p = db.nodes.rows.filter p := by
  have hkept : ∀ n, p n = true → decide (n.workspace_id ≠ A) = false :=
    fun n hn => decide_eq_false (not_not.mpr (hp n hn))
  rw [← Table.filter_of_deleteWhere db'.nodes hkept, h.nodes,
    Table.filter_of_deleteWhere db.nodes hkept]

theorem find_nodes (h : SameRows A db db') {p : NodeRow → Bool}
    (hp : ∀ n, p n = true → n.workspace_id = A) :
    db'.nodes.rows.find? p = db.nodes.rows.find? p := by
  rw [← List.head?_filter, ← List.head?_filter, h.filter_nodes hp]

theorem filter_trash (h : SameRows A db db') {p : TrashRow → Bool}
    (hp : ∀ t, p t = true → t.workspace_id = A) :
    db'.trash.rows.filter p = db.trash.rows.filter p := by
  have hkept : ∀ t, p t = true → decide (t.workspace_id ≠ A) = false :=
    fun t ht => decide_eq_false (not_not.mpr (hp t ht))
  rw [← Table.filter_of_deleteWhere db'.trash hkept, h.trash,
    Table.filter_of_deleteWhere db.trash hkept]

theorem filter_changes (h : SameRows A db db') {p : ChangeRow → Bool}
    (hp : ∀ c, p c = true → c.workspace_id = A) :
    db'.changes.rows.filter p = db.changes.rows.filter p := by
  have hkept : ∀ c, p c = true → decide (c.workspace_id ≠ A) = false :=
    fun c hc => decide_eq_false (not_not.mpr (hp c hc))
  rw [← Table.filter_of_deleteWhere db'.changes hkept, h.changes,
    Table.filter_of_deleteWhere db.changes hkept]

theorem fetch_root (h : SameRows A db db') : fetch_root db' A = fetch_root db A :=
  congrArg (Option.map NodeRow.toRawNode) (h.find_nodes (fun _ hn => (of_decide_eq_true hn).1))

theorem fetch_child (h : SameRows A db db') (parent_id : NodeId) (name : Text) :
    fetch_child db' A parent_id name = fetch_child db A parent_id name :=
  congrArg (Option.map NodeRow.toRawNode) (h.find_nodes (fun _ hn => (of_decide_eq_true hn).1))

theorem fetch_children (h : SameRows A db db') (parent_id : NodeId) :
    fetch_children db' A parent_id = fetch_children db A parent_id :=
  congrArg (fun rows => (List.map NodeRow.toRawNode rows).insertionSort child_le)
    (h.filter_nodes (fun _ hn => (of_decide_eq_true hn).1))

theorem fetch_by_id (h : SameRows A db db') (id : NodeId) :
    fetch_by_id db' A id = fetch_by_id db A id :=
  congrArg (Option.map NodeRow.toRawNode) (h.find_nodes (fun _ hn => (of_decide_eq_true hn).1))

theorem fetch_by_id_any (h : SameRows A db db') (id : NodeId) :
    fetch_by_id_any db' A id = fetch_by_id_any db A id :=
  congrArg (Option.map NodeRow.toRawNode) (h.find_nodes (fun _ hn => (of_decide_eq_true hn).1))

/-- The path walk looks at nothing but the workspace's nodes. -/
theorem walk (h : SameRows A db db') (current : RawNode) (names : List Text) :
    walk db' A current names = walk db A current names := by
  induction names generalizing current with
  | nil => rfl
  | cons segment rest ih => simp only [resolve.walk, h.fetch_child, ih]

theorem resolve (h : SameRows A db db') (path : VirtualPath) :
    resolve db' A path = resolve db A path := by
  simp only [resolve.resolve, h.fetch_root, h.walk]

theorem climb (h : SameRows A db db') (base : RawNode) (names : List Text) :
    climb db' A base names = climb db A base names := by
  induction names generalizing base with
  | nil => rfl
  | cons segment rest ih => simp only [resolve.climb, h.fetch_by_id, ih]

theorem follow_one (h : SameRows A db db') (link : RawNode) :
    follow_one db' A link = follow_one db A link := by
  simp only [resolve.follow_one, h.fetch_root, h.fetch_by_id, h.climb]

theorem descend (h : SameRows A db db') (follow_final : Bool) (current : RawNode)
    (pending : List Text) (count : Nat) :
    descend db' A follow_final current pending count =
      descend db A follow_final current pending count := by
  induction pending generalizing current count with
  | nil => rfl
  | cons segment rest ih => simp only [resolve.descend, h.fetch_child, ih]

theorem follow_loop (h : SameRows A db db') (follow_final : Bool) (hops : Nat)
    (current : RawNode) (pending : List Text) (count : Nat) :
    follow_loop db' A follow_final hops current pending count =
      follow_loop db A follow_final hops current pending count := by
  induction hops generalizing current pending count with
  | zero =>
    unfold resolve.follow_loop
    rw [h.descend]
  | succ hops ih =>
    unfold resolve.follow_loop
    simp only [h.descend, h.follow_one, ih]

theorem resolve_following (h : SameRows A db db') (path : VirtualPath) (follow_final : Bool) :
    resolve_following db' A path follow_final = resolve_following db A path follow_final := by
  simp only [resolve.resolve_following, h.fetch_root, h.follow_loop]

theorem fetch_changes_page (h : SameRows A db db') (after_sequence : Int) (limit : Nat) :
    change.fetch_changes_page db' A after_sequence limit =
      change.fetch_changes_page db A after_sequence limit := by
  unfold change.fetch_changes_page change.changes_after
  rw [h.filter_changes (fun _ hc => (of_decide_eq_true hc).1)]

/-- What is beneath a live node of the workspace stays beneath it. -/
theorem beneath (h : SameRows A db db') (hwf : NodesWellFormed db) {r n : NodeRow}
    (hr : Live db A r) {names : List Text} (hn : Beneath db r.id names n) :
    Beneath db' r.id names n := by
  have hmem : ∀ {names : List Text} {m : NodeRow}, Beneath db r.id names m → m ∈ db'.nodes :=
    fun hm => (h.mem_nodes (hm.live hwf hr).workspace).mpr hm.mem
  induction hn with
  | @child n hn hup hactive => exact .child (hmem (.child hn hup hactive)) hup hactive
  | @step names p n hp hn hup hactive ih =>
    exact .step ih (hmem (.step hp hn hup hactive)) hup hactive

theorem live (h : SameRows A db db') {n : NodeRow} (hn : Live db A n) : Live db' A n := by
  induction hn with
  | root hmem hws hroot hactive =>
    exact .root ((h.mem_nodes hws).mpr hmem) hws hroot hactive
  | child _ hdir hmem hws hup hactive ih =>
    exact .child ih hdir ((h.mem_nodes hws).mpr hmem) hws hup hactive

theorem subtree (h : SameRows A db db') (hwf : NodesWellFormed db)
    (hwf' : NodesWellFormed db') {r : NodeRow} (hr : Live db A r) (max_depth : Option Nat) :
    subtree db' A r.id max_depth = subtree db A r.id max_depth := by
  refine Paging.Ascending.ext (subtree_ascending (h.live hr) max_depth)
    (subtree_ascending hr max_depth) (fun row => ?_)
  rw [mem_subtree hwf' (h.live hr), mem_subtree hwf hr]
  refine exists_congr (fun names => exists_congr (fun n => and_congr_left (fun _ => ?_)))
  exact ⟨h.symm.beneath hwf' (h.live hr), h.beneath hwf hr⟩

/-- The recursive query below a live node of the workspace, however many other nodes
there are. -/
theorem fetch_descendants (h : SameRows A db db') (hwf : NodesWellFormed db)
    (hwf' : NodesWellFormed db') {r : NodeRow} (hr : Live db A r) (max_depth : Option Nat)
    (after : ℤ × Text × WithBot NodeId) (limit : Nat) :
    fetch_descendants db' A r.id max_depth after limit =
      fetch_descendants db A r.id max_depth after limit := by
  obtain ⟨rows, hrows⟩ := descendants_ok hwf hr max_depth
  obtain ⟨rows', hrows'⟩ := descendants_ok hwf' (h.live hr) max_depth
  have hsame := h.subtree hwf hwf' hr max_depth
  simp only [fslite.subtree, hrows, hrows'] at hsame
  simp only [fslite.fetch_descendants, hrows, hrows', bind, Except.bind, hsame]

end SameRows

/-- The rows of the recursive query show nodes of the workspace. -/
theorem fetch_descendants_workspace {A : WorkspaceId} {db : Db} {r : NodeRow}
    {max_depth : Option Nat} {after : ℤ × Text × WithBot NodeId} {limit : Nat}
    {rows : List Descendant} (hwf : NodesWellFormed db) (hr : Live db A r)
    (h : fetch_descendants db A r.id max_depth after limit = .ok rows) :
    ∀ row ∈ rows, ∃ n ∈ db.nodes, n.workspace_id = A ∧ row.node = n.toRawNode := by
  obtain ⟨all, hall⟩ := descendants_ok hwf hr max_depth
  simp only [fetch_descendants, hall, bind, Except.bind, pure, Except.pure, Except.ok.injEq] at h
  rintro row hrow
  have hmem : row ∈ all := by
    rw [← h] at hrow
    exact (List.mem_insertionSort _).mp (List.mem_filter.mp (List.mem_of_mem_take hrow)).1
  obtain ⟨names, n, hn, _, rfl⟩ := (mem_descendants hwf hr hall).mp hmem
  exact ⟨n, hn.mem, (hn.live hwf hr).workspace, rfl⟩

namespace search

theorem scan_rows_congr {is_match is_match' : Descendant → Bool} (limit : Nat)
    {rows : List Descendant} (h : ∀ row ∈ rows, is_match' row = is_match row)
    (found : List RawNode) (last_pos : Option search.CursorPos) :
    scan_rows is_match' limit rows found last_pos = scan_rows is_match limit rows found last_pos := by
  induction rows generalizing found last_pos with
  | nil => rfl
  | cons row rest ih =>
    simp only [scan_rows, h row List.mem_cons_self,
      ih (fun row hrow => h row (List.mem_cons_of_mem _ hrow))]

theorem search_file_loop_congr {db db' : Db} {g : GenerationId}
    (h : ∀ i, fetch_chunk_bytes db' g i = fetch_chunk_bytes db g i) (node : RawNode)
    (relative_path : Text) (needle overlap : Bytes) (buffer_base chunk_index bytes_scanned : Nat)
    (results : List RawSearchMatch) :
    search_file_loop db' node relative_path needle g overlap buffer_base chunk_index bytes_scanned
      results = search_file_loop db node relative_path needle g overlap buffer_base chunk_index
        bytes_scanned results := by
  induction overlap, buffer_base, chunk_index, bytes_scanned, results using
    search_file_loop.induct db node relative_path needle g with
  | case1 overlap buffer_base chunk_index bytes_scanned results hfull =>
    rw [search_file_loop, search_file_loop, if_pos hfull, if_pos hfull]
  | case2 overlap buffer_base chunk_index bytes_scanned results hmore chunk hnone =>
    rw [search_file_loop, search_file_loop, if_neg hmore, if_neg hmore]
    simp only [h]
    rw [if_pos hnone, if_pos hnone]
  | case3 overlap buffer_base chunk_index bytes_scanned results hmore chunk hsome buffer found
      next_overlap_start ih =>
    rw [search_file_loop, search_file_loop, if_neg hmore, if_neg hmore]
    simp only [h]
    rw [if_neg hsome, if_neg hsome]
    exact ih

end search

namespace SamePart

variable {A : WorkspaceId} {db db' : Db}

theorem fetch_chunk_bytes (h : SamePart A db db') {n : NodeRow} (hn : n ∈ db.nodes)
    (hws : n.workspace_id = A) {g : GenerationId} (hg : n.content_generation_id = some g)
    (index : Nat) : fetch_chunk_bytes db' g index = fetch_chunk_bytes db g index := by
  unfold content.fetch_chunk_bytes
  rw [(h.content n hn hws g hg).chunk index]

theorem find_matches (h : SamePart A db db') (rt : Runtime) (query : FindQuery)
    {n : NodeRow} (hn : n ∈ db.nodes) (hws : n.workspace_id = A) :
    search.find_matches rt db' query n.toRawNode = search.find_matches rt db query n.toRawNode := by
  have hattribute : ∀ key, db'.attribute n.id key = db.attribute n.id key :=
    fun key => congrArg (Option.map AttributeRow.value) (h.attributes n hn hws key)
  unfold search.find_matches search.attributes_match
  simp only [lookup_build_attributes_map, hattribute]

theorem row_matches (h : SamePart A db db') (needle : Bytes) {row : Descendant} {n : NodeRow}
    (hn : n ∈ db.nodes) (hws : n.workspace_id = A) (hnode : row.node = n.toRawNode)
    (bytes_scanned : Nat) :
    search.row_matches db' needle row bytes_scanned =
      search.row_matches db needle row bytes_scanned := by
  unfold search.row_matches search.search_file
  rw [hnode]
  cases hg : n.toRawNode.content_generation_id with
  | none => rfl
  | some g =>
    simp only [search.search_file_loop_congr (h.fetch_chunk_bytes hn hws hg)]

theorem search_rows (h : SamePart A db db') (needle : Bytes) (limit : Nat)
    {rows : List Descendant}
    (hrows : ∀ row ∈ rows, ∃ n ∈ db.nodes, n.workspace_id = A ∧ row.node = n.toRawNode)
    (taken : List search.RawSearchMatch) (bytes_scanned : Nat) (last_pos : Option search.CursorPos) :
    search.search_rows db' needle limit rows taken bytes_scanned last_pos =
      search.search_rows db needle limit rows taken bytes_scanned last_pos := by
  induction rows generalizing taken bytes_scanned last_pos with
  | nil => rfl
  | cons row rest ih =>
    obtain ⟨n, hn, hws, hnode⟩ := hrows row List.mem_cons_self
    simp only [search.search_rows, h.row_matches needle hn hws hnode,
      ih (fun row hrow => hrows row (List.mem_cons_of_mem _ hrow))]

/-- The rows that a search goes through, and what they are compared with. -/
theorem scan_tx (h : SamePart A db db') (hwf : NodesWellFormed db) (hwf' : NodesWellFormed db')
    {r : NodeRow} (hr : Live db A r) (root_matches : Bool) {is_match is_match' : Descendant → Bool}
    (hmatch : ∀ row, (∃ n ∈ db.nodes, n.workspace_id = A ∧ row.node = n.toRawNode) →
      is_match' row = is_match row) (after : Option search.CursorPos) (limit : Nat) :
    search.scan_tx db' A r.toRawNode root_matches is_match' after limit =
      search.scan_tx db A r.toRawNode root_matches is_match after limit := by
  unfold search.scan_tx search.fetch_subtree_page
  rw [show r.toRawNode.id = r.id from rfl, h.rows.fetch_descendants hwf hwf' hr]
  cases hrows : fetch_descendants db A r.id (some search.MAX_SUBTREE_DEPTH)
      (after.getD (0, [], ⊥)) (search.WORK_BUDGET + 1) with
  | error fault => rfl
  | ok rows =>
    have hsame := fun found => search.scan_rows_congr limit
      (fun row (hrow : row ∈ rows.take search.WORK_BUDGET) => hmatch row
        (fetch_descendants_workspace hwf hr hrows row (List.mem_of_mem_take hrow))) found none
    simp only [bind, Except.bind, hsame]

theorem glob (h : SamePart A db db') (hwf : NodesWellFormed db) (hwf' : NodesWellFormed db')
    (rt : Runtime) (codec : Codec search.SearchCursor) (pattern : Text) (page : PageRequest) :
    search.glob rt codec db' A pattern page = search.glob rt codec db A pattern page := by
  have htx : ∀ prefix_path remaining after limit,
      search.glob_tx db' A prefix_path remaining after limit =
        search.glob_tx db A prefix_path remaining after limit := by
    intro prefix_path remaining after limit
    unfold search.glob_tx
    rw [h.rows.resolve]
    cases hroot : resolve.resolve db A prefix_path with
    | none => rfl
    | some root =>
      obtain ⟨r, rfl, hr⟩ := resolve_live hroot
      simp only [h.scan_tx hwf hwf' hr _ (fun _ _ => rfl)]
  simp only [search.glob, htx]

theorem find (h : SamePart A db db') (hwf : NodesWellFormed db) (hwf' : NodesWellFormed db')
    (rt : Runtime) (codec : Codec search.SearchCursor) (query : FindQuery) (page : PageRequest) :
    search.find rt codec db' A query page = search.find rt codec db A query page := by
  have htx : ∀ after limit, search.find_tx rt db' A query.root query after limit =
      search.find_tx rt db A query.root query after limit := by
    intro after limit
    unfold search.find_tx
    rw [h.rows.resolve]
    cases hroot : resolve.resolve db A query.root with
    | none => rfl
    | some root =>
      obtain ⟨r, rfl, hr⟩ := resolve_live hroot
      have hmatch : ∀ row : Descendant,
          (∃ n ∈ db.nodes, n.workspace_id = A ∧ row.node = n.toRawNode) →
            search.find_matches rt db' query row.node = search.find_matches rt db query row.node := by
        rintro row ⟨n, hn, hws, hnode⟩
        rw [hnode]
        exact h.find_matches rt query hn hws
      simp only [h.scan_tx hwf hwf' hr _ hmatch, h.find_matches rt query hr.mem hr.workspace]
  simp only [search.find, htx]

theorem search_content (h : SamePart A db db') (hwf : NodesWellFormed db)
    (hwf' : NodesWellFormed db') (rt : Runtime) (codec : Codec search.SearchCursor)
    (query : ContentQuery) (page : PageRequest) :
    search.search_content rt codec db' A query page =
      search.search_content rt codec db A query page := by
  have htx : ∀ after limit, search.search_content_tx db' A query.root query.needle after limit =
      search.search_content_tx db A query.root query.needle after limit := by
    intro after limit
    unfold search.search_content_tx search.fetch_subtree_page
    rw [h.rows.resolve]
    cases hroot : resolve.resolve db A query.root with
    | none => rfl
    | some root =>
      obtain ⟨r, rfl, hr⟩ := resolve_live hroot
      have hroot := h.row_matches query.needle hr.mem hr.workspace
        (rfl : (⟨r.toRawNode, 0, []⟩ : Descendant).node = r.toRawNode)
      simp only [hroot]
      rw [show r.toRawNode.id = r.id from rfl, h.rows.fetch_descendants hwf hwf' hr]
      cases hrows : fetch_descendants db A r.id (some search.MAX_SUBTREE_DEPTH)
          (after.getD (0, [], ⊥)) (search.WORK_BUDGET + 1) with
      | error fault => rfl
      | ok rows =>
        have hsame := h.search_rows query.needle limit
          (fun row (hrow : row ∈ rows.take search.WORK_BUDGET) =>
            fetch_descendants_workspace hwf hr hrows row (List.mem_of_mem_take hrow))
        simp only [bind, Except.bind, hsame]
  simp only [search.search_content, htx]

theorem read_dir (h : SamePart A db db') (codec : Codec DirCursor) (path : VirtualPath)
    (page : PageRequest) :
    directory.read_dir codec db' A path page = directory.read_dir codec db A path page := by
  simp only [directory.read_dir, read_dir_raw, fetch_children_page, h.rows.resolve,
    h.rows.fetch_children]

theorem tree (h : SamePart A db db') (hwf : NodesWellFormed db) (hwf' : NodesWellFormed db')
    (rt : Runtime) (codec : Codec TreeCursor) (path : VirtualPath) (options : TreeOptions)
    (page : PageRequest) : directory.tree rt codec db' A path options page =
      directory.tree rt codec db A path options page := by
  have hraw : ∀ after limit, tree_raw db' A path options after limit =
      tree_raw db A path options after limit := by
    intro after limit
    unfold tree_raw fetch_tree_page
    rw [h.rows.resolve]
    cases hroot : resolve.resolve db A path with
    | none => rfl
    | some root =>
      obtain ⟨r, rfl, hr⟩ := resolve_live hroot
      simp only [h.rows.fetch_descendants hwf hwf' hr]
  simp only [directory.tree, hraw]

theorem list_trash (h : SamePart A db db') (rt : Runtime) (codec : Codec TrashCursor)
    (page : PageRequest) :
    trash.list_trash rt codec db' A page = trash.list_trash rt codec db A page := by
  have hrecords : ∀ after limit, fetch_trash_page db' A after limit =
      fetch_trash_page db A after limit := by
    intro after limit
    unfold fetch_trash_page
    rw [h.rows.filter_trash (fun _ ht => of_decide_eq_true ht)]
  have hcontext : ∀ id, fetch_trash_change_context db' A id = fetch_trash_change_context db A id := by
    intro id
    unfold fetch_trash_change_context
    rw [h.rows.filter_changes (fun _ hc => (of_decide_eq_true hc).1)]
  simp only [trash.list_trash, hrecords, hcontext, h.rows.fetch_by_id_any]

end SamePart

/-- The requests that only read. -/
def Request.OnlyReads : Request → Prop
  | .WorkspaceUsage => True
  | .Stat _ _ => True
  | .Read _ _ => True
  | .Changes _ _ => True
  | _ => False

/-- The call has the same answer in both stores, and changes neither. -/
def DbCall.Alike (rt : Runtime) (w' : World) (o : DbCall) (w : World) : Prop :=
  (o.exec rt w').1 = (o.exec rt w).1 ∧ (o.exec rt w).2 = w ∧ (o.exec rt w').2 = w'

/-- What opening a file finds is a content of a node of the workspace. -/
theorem content.read_stream {rt : Runtime} {ws : WorkspaceId} {path : VirtualPath}
    {options : ReadOptions} {w w' : World} {file : FileRead} {state : ChunkRangeState}
    (h : (content.read ws path options).run.run (DbCall.exec rt) w = (.ok file, w'))
    (hstream : file.stream = some state) : ∃ n ∈ w.db.nodes, n.workspace_id = ws ∧
      n.content_generation_id = some state.generation_id := by
  have hresolve : (Task.call (.resolve ws path)).run.run (DbCall.exec rt) w =
      (.ok (resolve.resolve w.db ws path), w) := rfl
  unfold content.read at h
  rw [Task.run_bind_ok hresolve] at h
  cases hfound : resolve.resolve w.db ws path with
  | none =>
    rw [hfound] at h
    cases h
  | some node =>
    obtain ⟨n, rfl, hn⟩ := resolve_live hfound
    rw [hfound] at h
    refine ⟨n, hn.mem, hn.workspace, ?_⟩
    simp only at h
    split at h
    · cases h
    · split at h
      · cases h
      · split at h
        · cases h
        · split at h
          · cases h
            cases hstream
          · cases hg : n.toRawNode.content_generation_id with
            | none =>
              rw [hg] at h
              cases h
            | some g =>
              rw [hg] at h
              cases h
              cases hstream
              rfl

section alike

variable {rt : Runtime} {A : WorkspaceId} {w w' : World} {ctx : RequestContext}

theorem SqliteFileSystem.read_stream {path : VirtualPath} {options : ReadOptions}
    {file : FileRead} {state : ChunkRangeState}
    (h : (SqliteFileSystem.read ctx path options).run.run (DbCall.exec rt) w = (.ok file, w'))
    (hstream : file.stream = some state) : ∃ n ∈ w.db.nodes, n.workspace_id = ctx.workspace_id ∧
      n.content_generation_id = some state.generation_id := by
  by_cases hcapability : ctx.has_capability .Read = true
  · exact content.read_stream ((Task.run_required hcapability).symm.trans h) hstream
  · cases (Task.run_denied hcapability).symm.trans h

theorem content.drain_alike (polls : Nat) {state : ChunkRangeState}
    (h : ∀ i, fetch_chunk_bytes w'.db state.generation_id i =
      fetch_chunk_bytes w.db state.generation_id i) :
    (state.drain polls).Along (DbCall.exec rt) (DbCall.Alike rt w') w := by
  induction polls generalizing state with
  | zero => trivial
  | succ polls ih =>
    rw [drain_succ]
    split
    · trivial
    · exact ⟨⟨congrArg Except.ok (h _), rfl, rfl⟩, Prog.along_bind _ (ih h) (fun _ => trivial)⟩

/-- The calls of a request for the workspace that only reads are answered alike in two stores
that hold the same of it. -/
theorem Request.along_alike (h : SamePart A w.db w'.db) (hws : ctx.workspace_id = A)
    (husage : workspace.fetch_usage w'.db A = workspace.fetch_usage w.db A) {request : Request}
    (hreads : request.OnlyReads) :
    Prog.Along (DbCall.exec rt) (DbCall.Alike rt w') (request.serve rt ctx).run w := by
  subst hws
  cases request with
  | WorkspaceUsage =>
    refine Task.along_map (Task.along_guarded (Task.along_bind
      ⟨⟨congrArg Except.ok husage, rfl, rfl⟩, trivial⟩ (fun raw => ?_)))
    cases raw <;> trivial
  | Stat path follow_symlinks =>
    refine Task.along_map (Task.along_guarded (Task.along_bind
      ⟨⟨congrArg Except.ok (h.rows.resolve_following _ _), rfl, rfl⟩, trivial⟩ (fun outcome => ?_)))
    cases outcome <;> trivial
  | Changes after page =>
    refine Task.along_map (Task.along_guarded (Task.along_bind (p := Task.ofResult _) trivial
      (fun sequence => Task.along_call ⟨congrArg Except.ok (h.rows.fetch_changes_page _ _), rfl, rfl⟩)))
  | Read path options =>
    have hopens : Prog.Along (DbCall.exec rt) (DbCall.Alike rt w')
        (SqliteFileSystem.read ctx path options).run w := by
      refine Task.along_guarded (Task.along_bind
        ⟨⟨congrArg Except.ok (h.rows.resolve path), rfl, rfl⟩, trivial⟩ (fun node => ?_))
      cases node with
      | none => trivial
      | some node =>
        simp only
        split
        · trivial
        · split
          · trivial
          · split
            · trivial
            · split
              · trivial
              · cases node.content_generation_id <;> trivial
    have hsame := Prog.run_unchanged _ (Prog.along_mono _ hopens (fun _ _ halike => halike.2.1))
    refine Task.along_bind_run hopens (fun file hfile => ?_)
    rw [hsame]
    refine Task.along_bind (p := ExceptT.lift file.into_stream)
      (Prog.along_bind _ ?_ (fun _ => trivial)) (fun _ => trivial)
    unfold FileRead.into_stream
    cases hstream : file.stream with
    | none => trivial
    | some state =>
      obtain ⟨n, hn, hws, hg⟩ := SqliteFileSystem.read_stream (Prod.ext hfile hsame) hstream
      exact content.drain_alike _ (h.fetch_chunk_bytes hn hws hg)
  | _ => exact hreads.elim

end alike

/-- The usage of a workspace is counted over its own rows; no bytes are ever reported as staged. -/
theorem SameRows.fetch_usage {A : WorkspaceId} {db db' : Db} (h : SameRows A db db')
    (hunmeasured : Unmeasured db) (hunmeasured' : Unmeasured db') :
    workspace.fetch_usage db' A = workspace.fetch_usage db A := by
  cases hrow : db.workspace? A with
  | none => simp only [workspace.fetch_usage, h.workspace, hrow]
  | some row =>
    obtain ⟨raw, hraw⟩ := fetch_usage_stored hrow
    obtain ⟨raw', hraw'⟩ := fetch_usage_stored (h.workspace.trans hrow)
    have hstaged := hunmeasured.staged_zero hraw
    have hstaged' := hunmeasured'.staged_zero hraw'
    have hactive := h.filter_nodes (p := fun n => n.workspace_id = A ∧ n.trashed_at_ms = none)
      (fun _ hn => (of_decide_eq_true hn).1)
    have htrashed := h.filter_nodes (p := fun n => n.workspace_id = A ∧ n.trashed_at_ms ≠ none)
      (fun _ hn => (of_decide_eq_true hn).1)
    rw [hraw, hraw']
    unfold workspace.fetch_usage at hraw hraw'
    rw [hrow] at hraw
    rw [h.workspace, hrow] at hraw'
    cases hraw
    cases hraw'
    simp only at hstaged hstaged'
    simp only [hactive, htrashed, hstaged, hstaged']

/-- Whoever reads in the context is answered alike in two states of the server. -/
structure SameAnswers (rt : Runtime) (cursors : SqliteFileSystem.Cursors) (ctx : RequestContext)
    (w w' : World) : Prop where
  requests : ∀ request : Request, request.OnlyReads →
    (request.alone rt ctx w').1 = (request.alone rt ctx w).1
  read_dir : ∀ path page, SqliteFileSystem.read_dir cursors ctx w'.db path page =
    SqliteFileSystem.read_dir cursors ctx w.db path page
  tree : ∀ path options page, SqliteFileSystem.tree rt cursors ctx w'.db path options page =
    SqliteFileSystem.tree rt cursors ctx w.db path options page
  list_trash : ∀ page, SqliteFileSystem.list_trash rt cursors ctx w'.db page =
    SqliteFileSystem.list_trash rt cursors ctx w.db page
  glob : ∀ pattern page, SqliteFileSystem.glob rt cursors ctx w'.db pattern page =
    SqliteFileSystem.glob rt cursors ctx w.db pattern page
  find : ∀ query page, SqliteFileSystem.find rt cursors ctx w'.db query page =
    SqliteFileSystem.find rt cursors ctx w.db query page
  search_content : ∀ query page, SqliteFileSystem.search_content rt cursors ctx w'.db query page =
    SqliteFileSystem.search_content rt cursors ctx w.db query page

/-- Whatever the requests for other workspaces do in any interleaving, whoever reads in this one
is answered as before them. -/
theorem Reached.answers_isolated {rt : Runtime} {may : System → Nat → DbCall → Prop}
    {ctx : RequestContext} {row : WorkspaceRow} {c d : System} (h : Reached rt may c)
    (hrow : c.state.db.workspace? ctx.workspace_id = some row)
    (hrun : Steps (DbCall.exec rt) (ServedElsewhere rt ctx.workspace_id)
      (fun _ i o => c.procs.length ≤ i ∨ ¬ o.Addresses ctx.workspace_id) c d)
    (cursors : SqliteFileSystem.Cursors) : SameAnswers rt cursors ctx c.state d.state := by
  have hpart := h.isolated hrow hrun
  have hlater : Reached rt (fun c _ o => Policy.any.Allows rt c.state o) d :=
    Relation.ReflTransGen.trans h.any (Steps.mono hrun (fun _ hp => hp.served)
      (fun c _ o _ => Policy.allows_any rt c.state o))
  have hwf := h.any.sound.wf.nodes
  have hwf' := hlater.sound.wf.nodes
  have husage := hpart.rows.fetch_usage
    (h.any.invariant Unmeasured.empty (fun hedit _ => hedit.unmeasured))
    (hlater.invariant Unmeasured.empty (fun hedit _ => hedit.unmeasured))
  exact {
    requests := fun request hreads => by
      unfold Request.alone
      rw [Prog.run_alike _ (Request.along_alike hpart rfl husage hreads)]
    read_dir := fun path page => by simp only [SqliteFileSystem.read_dir, hpart.read_dir]
    tree := fun path options page => by
      simp only [SqliteFileSystem.tree, hpart.tree hwf hwf']
    list_trash := fun page => by simp only [SqliteFileSystem.list_trash, hpart.list_trash]
    glob := fun pattern page => by simp only [SqliteFileSystem.glob, hpart.glob hwf hwf']
    find := fun query page => by simp only [SqliteFileSystem.find, hpart.find hwf hwf']
    search_content := fun query page => by
      simp only [SqliteFileSystem.search_content, hpart.search_content hwf hwf'] }

/-- What is read of the first workspace while the second one is filled. -/
theorem neighbour_answers : neighbourSystem.state.db.nodes.rows.length = 3 ∧
    neighbourSystem.state.db.attributes.rows.length = 1 ∧
    neighbourEnd.state.db.nodes.rows.length = 5 ∧
    SameAnswers Runtime.counting .counting (.trusted 0) neighbourSystem.state neighbourEnd.state := by
  obtain ⟨row, hrow⟩ := Option.isSome_iff_exists.mp
    (show (neighbourSystem.state.db.workspace? 0).isSome = true by decide +kernel)
  exact ⟨by decide +kernel, by decide +kernel, by decide +kernel,
    (Reached.scheduled Runtime.counting neighbourRequests neighbourSchedule).answers_isolated
      (show neighbourSystem.state.db.workspace? (RequestContext.trusted 0).workspace_id = some row
        from hrow) neighbour_steps .counting⟩

end fslite
