import Fslite.Sqlite.Run.Failure
import Fslite.Sqlite.Run.Matches
import Fslite.Sqlite.Run.Search

namespace fslite

open Paging

namespace search

open content

section rows

variable {db : Db} {ws : WorkspaceId} {r : NodeRow} {needle : Bytes} {limit : Nat}

/-- The loop over the rows of a call reports what the pages report up to the row at which it
stops. -/
theorem search_rows_reports (hneedle : needle ≠ []) {rows : List Descendant}
    {taken : List RawSearchMatch} (htaken : taken.length < limit) {rows_left : Nat}
    (hleft : 0 < rows_left) (bytes_scanned : Nat) (last_pos : Option CursorPos) :
    ∃ consumed left, rows.take rows_left = consumed ++ left ∧
      (search_rows db needle limit (rows.take rows_left) taken bytes_scanned last_pos).2.1 =
        (consumed.getLast?.map row_pos).or last_pos ∧
      ((search_rows db needle limit (rows.take rows_left) taken bytes_scanned last_pos).2.2 = true →
        consumed ≠ []) ∧
      ((search_rows db needle limit (rows.take rows_left) taken bytes_scanned last_pos).2.2 = false →
        left = []) ∧
      taken ++ reported db needle limit rows taken.length bytes_scanned rows_left =
        (search_rows db needle limit (rows.take rows_left) taken bytes_scanned last_pos).1 ++
          reported db needle limit (rows.drop consumed.length) 0 0 WORK_BUDGET := by
  induction rows generalizing taken rows_left bytes_scanned last_pos with
  | nil => exact ⟨[], [], by simp [search_rows, reported]⟩
  | cons row rest ih =>
    obtain ⟨n, rfl⟩ : ∃ n, rows_left = n + 1 := ⟨_, (Nat.sub_add_cancel hleft).symm⟩
    obtain ⟨file_matches, hrow, _⟩ := row_matches_reads db hneedle row bytes_scanned
    generalize bytes_scanned + _ = scanned at hrow
    rw [List.take_succ_cons, reported_cons hrow, search_rows, hrow]
    simp only [take_matches_eq htaken]
    by_cases hstop : limit ≤ taken.length + file_matches.length ∨ SEARCH_BYTE_BUDGET ≤ scanned
    · -- the page ends at this row
      have hends : limit ≤ taken.length + file_matches.length ∨ SEARCH_BYTE_BUDGET ≤ scanned ∨
          n + 1 ≤ 1 := hstop.imp_right Or.inl
      refine ⟨[row], rest.take n, rfl, ?_⟩
      simp only [decide_eq_true_eq, if_pos hstop, if_pos hends]
      simp [row_pos]
    · obtain ⟨hroom, hbytes⟩ := not_or.mp hstop
      have hall : file_matches.take (limit - taken.length) = file_matches :=
        List.take_of_length_le (by omega)
      simp only [decide_eq_true_eq, if_neg hstop, hall]
      cases n with
      | zero =>
        -- so does the row budget
        refine ⟨[row], [], by rw [List.take_zero, List.append_nil], ?_⟩
        simp [search_rows, row_pos]
      | succ n =>
        have hgoes : ¬ (limit ≤ taken.length + file_matches.length ∨ SEARCH_BYTE_BUDGET ≤ scanned ∨
            n + 1 + 1 ≤ 1) := by
          rintro (hle | hle | hle)
          · exact hroom hle
          · exact hbytes hle
          · omega
        have hlength : (taken ++ file_matches).length = taken.length + file_matches.length :=
          List.length_append
        obtain ⟨consumed, left, hsplit, hpos, hstopped, hend, hreports⟩ :=
          @ih (taken ++ file_matches) (by rw [hlength]; omega) (n + 1) (Nat.succ_pos n) scanned
            (some (row_pos row))
        refine ⟨row :: consumed, left, by rw [hsplit, List.cons_append], ?_,
          fun _ => List.cons_ne_nil row consumed, hend, ?_⟩
        · refine hpos.trans ?_
          rw [List.getLast?_cons]
          cases consumed.getLast? <;> rfl
        · rw [if_neg hgoes, ← List.append_assoc, ← hlength]
          exact hreports

/-- The rows that a page has left to look at: the first one looks at the root as well. -/
def rows_ahead {K : Type} (pos : Option K) : Nat :=
  if pos.isNone then WORK_BUDGET + 1 else WORK_BUDGET

/-- What the pages report from a position on. -/
def reported_from (db : Db) (ws : WorkspaceId) (root : RawNode) (needle : Bytes) (limit : Nat)
    (pos : Option (ℤ ×ₗ Text ×ₗ WithBot NodeId)) : List RawSearchMatch :=
  reported db needle limit (after scan_key (scan_list db ws root) pos) 0 0 (rows_ahead pos)

/-- What is reported of the rows that a page leaves is what the next pages report. -/
theorem reported_left (hwf : NodesWellFormed db) (hr : Live db ws r)
    {pos next : Option (ℤ ×ₗ Text ×ₗ WithBot NodeId)} {taken back : List Descendant}
    (htakes : Takes scan_key (scan_list db ws r.toRawNode) pos taken next)
    (hsplit : after scan_key (scan_list db ws r.toRawNode) pos = taken ++ back) :
    reported db needle limit back 0 0 WORK_BUDGET =
      if next.isNone then [] else reported_from db ws r.toRawNode needle limit next := by
  cases next with
  | none =>
    have hsame : taken ++ back = taken ++ [] := by rw [← hsplit, List.append_nil, htakes.all]
    rw [List.append_cancel_left hsame]
    rfl
  | some k =>
    rw [htakes.after_next (scan_list_ascending hwf hr) rfl] at hsplit
    rw [← List.append_cancel_left hsplit]
    rfl

/-- The part of a call that looks at the rows below the root. -/
theorem search_rows_takes (hwf : NodesWellFormed db) (hr : Live db ws r) (hneedle : needle ≠ [])
    {from_ : Option CursorPos} {first : List Descendant}
    (hsplit : after scan_key (scan_list db ws r.toRawNode) (from_.map position_key) =
      first ++ after descendant_key (subtree db ws r.id (some MAX_SUBTREE_DEPTH))
        (from_.map position_key)) {taken : List RawSearchMatch} (htaken : taken.length < limit)
    {bytes_scanned : Nat} {raw : SearchRaw}
    (h : (do
      let rows ← fetch_subtree_page db ws r.id (from_.getD (0, [], ⊥)) (WORK_BUDGET + 1)
      let budget_exhausted_nodes := decide (WORK_BUDGET < rows.length)
      let (taken, last_pos, stopped_early) :=
        search_rows db needle limit (rows.take WORK_BUDGET) taken bytes_scanned none
      return .Found taken (if stopped_early || budget_exhausted_nodes then last_pos else none) :
        Except Fault SearchRaw) = .ok raw) :
    ∃ found next consumed back, raw = .Found found next ∧
      Takes scan_key (scan_list db ws r.toRawNode) (from_.map position_key) (first ++ consumed)
        (next.map position_key) ∧
      after descendant_key (subtree db ws r.id (some MAX_SUBTREE_DEPTH)) (from_.map position_key) =
        consumed ++ back ∧
      taken ++ reported db needle limit (after descendant_key (subtree db ws r.id
        (some MAX_SUBTREE_DEPTH)) (from_.map position_key)) taken.length bytes_scanned WORK_BUDGET =
          found ++ reported db needle limit back 0 0 WORK_BUDGET := by
  generalize hrest : after descendant_key (subtree db ws r.id (some MAX_SUBTREE_DEPTH))
    (from_.map position_key) = rest at hsplit ⊢
  have hdepth : ∀ row ∈ rest, 0 < row.depth := by
    intro row hrow
    rw [← hrest] at hrow
    exact subtree_depth hwf hr (mem_after.mp hrow).1
  obtain ⟨rows, hfetch, h⟩ := FsResult.bind_eq_ok.mp h
  obtain ⟨_, hrows⟩ := fetch_descendants_eq_ok.mp hfetch
  rw [hrest] at hrows
  subst hrows
  have hbudget : 0 < WORK_BUDGET := by decide
  rw [List.take_take, min_eq_left (Nat.le_succ _)] at h
  obtain ⟨consumed, left, hconsumed, hpos, hstopped, hend, hreports⟩ :=
    @search_rows_reports db needle limit hneedle rest taken htaken WORK_BUDGET hbudget bytes_scanned none
  generalize search_rows db needle limit (rest.take WORK_BUDGET) taken bytes_scanned none = out
    at h hpos hstopped hend hreports
  obtain ⟨found, last_pos, stopped⟩ := out
  simp only [pure, Except.pure, Except.ok.injEq] at h
  rw [Option.or_none] at hpos
  obtain ⟨back, hback, htakes⟩ := page_takes hsplit hdepth hconsumed hpos hstopped hend
  refine ⟨found, _, consumed, back, h.symm, htakes, hback, ?_⟩
  rw [hreports, show rest.drop consumed.length = back by rw [hback, List.drop_left]]

/-- A call takes the first rows of the scan after its position, and finds what is reported of
them. -/
theorem search_content_tx_takes (hwf : NodesWellFormed db) (hr : Live db ws r)
    (hneedle : needle ≠ []) (hlimit : 0 < limit) {path : VirtualPath}
    (hpath : resolve.resolve db ws path = some r.toRawNode) {from_ : Option CursorPos}
    (hafter : ∀ pos, from_ = some pos → ∃ row ∈ scan_list db ws r.toRawNode,
      position_key pos = scan_key row) {raw : SearchRaw}
    (h : search_content_tx db ws path needle from_ limit = .ok raw) :
    ∃ found next taken, raw = .Found found next ∧
      Takes scan_key (scan_list db ws r.toRawNode) (from_.map position_key) taken
        (next.map position_key) ∧
      reported_from db ws r.toRawNode needle limit (from_.map position_key) =
        found ++ if next.isNone then [] else
          reported_from db ws r.toRawNode needle limit (next.map position_key) := by
  have hsplit := after_scan_list hwf hr hafter
  simp only [search_content_tx, hpath] at h
  cases from_ with
  | some pos =>
    have hnone : take_matches limit [] [] = ([], false) := rfl
    simp only [Option.isNone_some, Bool.false_eq_true, if_false, hnone, false_or,
      if_neg (show ¬ SEARCH_BYTE_BUDGET ≤ 0 by decide)] at h hsplit
    obtain ⟨found, next, consumed, back, rfl, htakes, hback, hreports⟩ :=
      search_rows_takes hwf hr hneedle hsplit hlimit h
    refine ⟨found, next, _, rfl, htakes, ?_⟩
    rw [List.nil_append] at hsplit htakes
    have hleft := @reported_left db ws r needle limit hwf hr _ _ consumed back htakes (hsplit.trans hback)
    rw [Option.isNone_map] at hleft
    rw [← hleft, ← hreports, reported_from, hsplit]
    rfl
  | none =>
    obtain ⟨file_matches, hroot, _⟩ := row_matches_reads db hneedle ⟨r.toRawNode, 0, []⟩ 0
    generalize 0 + _ = scanned at hroot
    have hcons := @reported_cons db needle limit _ _ _ _ hroot 0 (WORK_BUDGET + 1)
      (subtree db ws r.id (some MAX_SUBTREE_DEPTH))
    have hlist : reported_from db ws r.toRawNode needle limit (Option.map position_key none) =
      reported db needle limit (⟨r.toRawNode, 0, []⟩ :: subtree db ws r.id (some MAX_SUBTREE_DEPTH))
        0 0 (WORK_BUDGET + 1) := rfl
    have hends : ¬ WORK_BUDGET + 1 ≤ 1 := by decide
    simp only [Option.isNone_none, if_true, hroot, take_matches_eq (show ([] : List RawSearchMatch).length
      < limit from hlimit), List.nil_append, List.length_nil, Nat.sub_zero, Nat.zero_add,
      decide_eq_true_eq] at h hcons
    simp only [hends, or_false, Nat.add_sub_cancel] at hcons
    rw [hlist, hcons]
    by_cases hstop : limit ≤ file_matches.length ∨ SEARCH_BYTE_BUDGET ≤ scanned
    · -- the page ends at the root
      rw [if_pos hstop] at h ⊢
      cases h
      have htakes : Takes scan_key (scan_list db ws r.toRawNode) (Option.map position_key none)
          [⟨r.toRawNode, 0, []⟩] (Option.map position_key (some (0, [], (r.toRawNode.id : WithBot NodeId)))) :=
        ⟨⟨_, hsplit, fun hnone => by cases hnone⟩, fun k hk =>
          ⟨_, rfl, by simpa [scan_key] using hk⟩⟩
      refine ⟨_, _, _, rfl, htakes, ?_⟩
      exact congrArg _ (reported_left hwf hr htakes hsplit)
    · rw [if_neg hstop] at h ⊢
      have hall : file_matches.take limit = file_matches :=
        List.take_of_length_le (by omega)
      rw [hall] at h ⊢
      obtain ⟨found, next, consumed, back, rfl, htakes, hback, hreports⟩ :=
        @search_rows_takes db ws r needle limit hwf hr hneedle none _ hsplit _ (by omega) _ _ h
      refine ⟨found, next, _, rfl, htakes, ?_⟩
      have hleft := @reported_left db ws r needle limit hwf hr _ _ _ back htakes
        (by rw [hsplit, hback, List.append_assoc])
      rw [Option.isNone_map] at hleft
      rw [← hleft, ← hreports]
      rfl

/-- A call ends. -/
theorem search_content_tx_ok (hwf : NodesWellFormed db) (hr : Live db ws r) {path : VirtualPath}
    (hpath : resolve.resolve db ws path = some r.toRawNode) (needle : Bytes)
    (from_ : Option CursorPos) (limit : Nat) :
    ∃ raw, search_content_tx db ws path needle from_ limit = .ok raw := by
  obtain ⟨all, hall⟩ := descendants_ok hwf hr (some MAX_SUBTREE_DEPTH)
  have hfetch := @fetch_descendants_eq_ok db ws r.id (some MAX_SUBTREE_DEPTH) from_
    (WORK_BUDGET + 1) _ |>.mpr ⟨⟨all, hall⟩, rfl⟩
  simp only [search_content_tx, hpath, fetch_subtree_page]
  rw [hfetch]
  split
  · split
    · exact ⟨_, rfl⟩
    · exact ⟨_, rfl⟩
  · split
    · exact ⟨_, rfl⟩
    · exact ⟨_, rfl⟩

/-- What is told of a match. -/
theorem into_search_match_eq_ok {root_path : VirtualPath} {found : RawSearchMatch}
    {item : SearchMatch} : found.into_search_match root_path = .ok item ↔ ∃ path node,
      (if found.relative_path = [] then .ok root_path else root_path.join found.relative_path) =
        .ok path ∧ found.node.into_node = .ok node ∧
      ⟨node, path, ⟨found.start, found.end_⟩, found.preview⟩ = item := by
  unfold RawSearchMatch.into_search_match
  split
  · simp only [FsResult.bind_eq_ok, pure, Except.pure, Except.ok.injEq, exists_eq_left',
      exists_and_left]
  · simp only [FsResult.bind_eq_ok, pure, Except.pure, Except.ok.injEq, exists_and_left]

/-- The path of a reported match can be spelled. -/
theorem into_search_match_ok (hwf : NodesWellFormed db) (hr : Live db ws r) (hneedle : needle ≠ [])
    (path : VirtualPath) {pos : Option (ℤ ×ₗ Text ×ₗ WithBot NodeId)} {found : RawSearchMatch}
    (hfound : found ∈ reported_from db ws r.toRawNode needle limit pos) :
    ∃ item, found.into_search_match path = .ok item := by
  obtain ⟨row, hrow, hnode, hrelative, _⟩ := reported_sound hneedle hfound
  simp only [into_search_match_eq_ok, hnode, hrelative]
  obtain rfl | hrow := List.mem_cons.mp (mem_after.mp hrow).1
  · obtain ⟨node, hnode⟩ := RawNode.into_node_ok (hwf.revision r hr.mem)
    exact ⟨_, path, node, rfl, hnode, rfl⟩
  · obtain ⟨names, n, hn, _, rfl⟩ := (mem_subtree hwf hr).mp hrow
    obtain ⟨q, hjoin, _⟩ := path.join_names hn.names_ne_nil (hn.segments hwf)
    obtain ⟨node, hnode⟩ := RawNode.into_node_ok (hwf.revision n hn.mem)
    by_cases hself : (Descendant.of names n).relative_path = []
    · exact ⟨_, path, node, if_pos hself, hnode, rfl⟩
    · exact ⟨_, q, node, (if_neg hself).trans hjoin, hnode, rfl⟩

end rows

/-- The pages of a content search whose root is found. -/
def Searches (codec : Codec SearchCursor) (db : Db) (ws : WorkspaceId) (query : ContentQuery)
    (limit : Nat) (cursor : Option Text) (items : List SearchMatch) (next : Option Text) : Prop :=
  ∃ from_ found next_pos,
    cursor.mapM (fun raw => decode_search_cursor codec raw ws query.root) = .ok from_ ∧
      search_content_tx db ws query.root query.needle from_ limit = .ok (.Found found next_pos) ∧
      found.mapM (RawSearchMatch.into_search_match query.root) = .ok items ∧
    next_pos.map (encode_search_cursor codec ws query.root) = next

section pages

variable {codec : Codec SearchCursor} {db : Db} {ws : WorkspaceId} {query : ContentQuery}
  {r : NodeRow} {limit : Nat}

/-- A page of a content search takes rows of the scan and shows what is reported of them. -/
theorem searches_takes (hwf : NodesWellFormed db) (hr : Live db ws r) (hneedle : query.needle ≠ [])
    (hlimit : 0 < limit) (hpath : resolve.resolve db ws query.root = some r.toRawNode)
    {cursor : Option Text} {pos : Option (ℤ ×ₗ Text ×ₗ WithBot NodeId)}
    (hstands : Stands codec db ws query.root r.toRawNode cursor pos) {items : List SearchMatch}
    {next : Option Text} (h : Searches codec db ws query limit cursor items next) :
    ∃ found taken pos', Takes scan_key (scan_list db ws r.toRawNode) pos taken pos' ∧
      reported_from db ws r.toRawNode query.needle limit pos = found ++
        (if pos'.isNone then [] else reported_from db ws r.toRawNode query.needle limit pos') ∧
      List.Forall₂ (fun f item => f.into_search_match query.root = .ok item) found items ∧
      Stands codec db ws query.root r.toRawNode next pos' ∧ (next.isSome ↔ pos'.isSome) := by
  obtain ⟨after, rfl, rfl, hafter⟩ := hstands
  obtain ⟨from_, found, next_pos, hdecode, htx, hitems, rfl⟩ := h
  rw [decode_stands hdecode] at htx
  obtain ⟨found', next', taken, hraw, htakes, hreports⟩ :=
    search_content_tx_takes hwf hr hneedle hlimit hpath hafter htx
  cases hraw
  refine ⟨found, taken, _, htakes, ?_, FsResult.mapM_eq_ok.mp hitems,
    ⟨next_pos, rfl, rfl, fun p hp => ?_⟩, by simp⟩
  · rw [Option.isNone_map]
    exact hreports
  · obtain ⟨row, hrow, hkey⟩ := htakes.last (position_key p) (by rw [hp]; rfl)
    exact ⟨row, (htakes.sub (List.mem_of_getLast? hrow)).1, hkey.symm⟩

/-- Every cursor of a content search gives a page. -/
theorem searches_ok (hwf : NodesWellFormed db) (hr : Live db ws r) (hneedle : query.needle ≠ [])
    (hlimit : 0 < limit) (hpath : resolve.resolve db ws query.root = some r.toRawNode)
    {cursor : Option Text} {pos : Option (ℤ ×ₗ Text ×ₗ WithBot NodeId)}
    (hstands : Stands codec db ws query.root r.toRawNode cursor pos) :
    ∃ items next, Searches codec db ws query limit cursor items next := by
  obtain ⟨after, rfl, rfl, hafter⟩ := hstands
  obtain ⟨raw, htx⟩ := search_content_tx_ok hwf hr hpath query.needle after limit
  obtain ⟨found, next, taken, rfl, _, hreports⟩ :=
    search_content_tx_takes hwf hr hneedle hlimit hpath hafter htx
  obtain ⟨items, hitems⟩ := FsResult.mapM_ok (fun f hf => into_search_match_ok hwf hr hneedle query.root
    (hreports ▸ List.mem_append_left _ hf))
  refine ⟨items, _, after, found, next, ?_, htx, hitems, rfl⟩
  cases after with
  | none => rfl
  | some p => exact FsResult.option_mapM_eq_ok.mpr (Or.inr ⟨_, p, rfl, rfl, decode_encode_search_cursor p⟩)

end pages

/-- In a store that stays as it is a content search comes to an end, and its pages hold every
occurrence of the needle in every file at and below the root, each once. -/
structure SearchesAll (rt : Runtime) (method : Db → PageRequest → FsResult (Page SearchMatch))
    (limit : Nat) (w : World) (ws : WorkspaceId) (query : ContentQuery) : Prop where
  finishes : ∃ pages, Finished (PagesIn rt method limit w) pages
  once : ∀ pages, Finished (PagesIn rt method limit w) pages →
    ((contents pages).map (fun item => (item.node.id, item.range))).Nodup
  exact : ∀ pages, Finished (PagesIn rt method limit w) pages → ∀ id range,
    (id, range) ∈ (contents pages).map (fun item => (item.node.id, item.range)) ↔
      ∃ names raw, Leads ws query.root w.db names raw ∧ raw.id = id ∧
        Occurs query.needle (file_chunks w.db raw).flatten range.start ∧
        range.end_ = range.start + query.needle.length

/-- No occurrence is too far below the root, and no page has to end inside a file. -/
structure SearchFits (w : World) (ws : WorkspaceId) (query : ContentQuery) (root : RawNode)
    (limit : Nat) : Prop where
  shallow : ∀ names raw, Leads ws query.root w.db names raw →
    ∀ i, Occurs query.needle (file_chunks w.db raw).flatten i → names.length ≤ MAX_SUBTREE_DEPTH
  pages : PagesFit query.needle limit
    ((scan_list w.db ws root).map (fun row => file_chunks w.db row.node)) 0 0 (WORK_BUDGET + 1)

section complete

variable {rt : Runtime} {cursors : SqliteFileSystem.Cursors} {ctx : RequestContext} {w : World}
  {query : ContentQuery} {limit : Nat} {r : NodeRow}

theorem search_content_tx_found {db : Db} {ws : WorkspaceId} {path : VirtualPath} {root : RawNode}
    (hpath : resolve.resolve db ws path = some root) (needle : Bytes) (from_ : Option CursorPos)
    (limit : Nat) : search_content_tx db ws path needle from_ limit ≠ .ok .RootNotFound := by
  intro h
  simp only [search_content_tx, hpath] at h
  split at h
  · split at h
    · cases h
    · obtain ⟨_, _, h⟩ := FsResult.bind_eq_ok.mp h
      cases h
  · split at h
    · cases h
    · obtain ⟨_, _, h⟩ := FsResult.bind_eq_ok.mp h
      cases h

theorem search_content_eq_ok (hread : ctx.has_capability .Read = true)
    (hneedle : query.needle ≠ []) {db : Db} {root : RawNode}
    (hpath : resolve.resolve db ctx.workspace_id query.root = some root) {cursor : Option Text}
    {items : List SearchMatch} {next : Option Text} :
    SqliteFileSystem.search_content rt cursors ctx db query ⟨cursor, limit⟩ = .ok ⟨items, next⟩ ↔
      Searches cursors.search db ctx.workspace_id query (max limit 1) cursor items next := by
  rw [SqliteFileSystem.search_content, require_read_bind_eq_ok, and_iff_right hread, search_content,
    if_neg hneedle]
  simp only [FsResult.bind_eq_ok, Searches]
  refine exists_congr (fun from_ => ?_)
  have hfound := search_content_tx_found hpath query.needle from_ (max limit 1)
  cases htx : search_content_tx db ctx.workspace_id query.root query.needle from_ (max limit 1) with
  | error fault => simp [Except.mapError]
  | ok raw =>
    cases raw with
    | RootNotFound => exact absurd htx hfound
    | Found found next_pos => simp [Except.mapError, FsResult.bind_eq_ok, pure, Except.pure]

/-- The pages of a content search show what is reported from the start on. -/
theorem search_pages_show (hread : ctx.has_capability .Read = true) (hreach : Reachable rt w)
    (hneedle : query.needle ≠ [])
    (hpath : resolve.resolve w.db ctx.workspace_id query.root = some r.toRawNode)
    (hr : Live w.db ctx.workspace_id r) :
    (∃ pages, Finished (PagesIn rt (fun db page =>
      SqliteFileSystem.search_content rt cursors ctx db query page) limit w) pages) ∧
    ∀ pages, Finished (PagesIn rt (fun db page =>
      SqliteFileSystem.search_content rt cursors ctx db query page) limit w) pages →
      List.Forall₂ (fun f item => f.into_search_match query.root = .ok item)
        (reported_from w.db ctx.workspace_id r.toRawNode query.needle (max limit 1) none)
        (contents pages) := by
  have hwf := hreach.sound.wf.nodes
  have hlimit : 0 < max limit 1 := Nat.lt_of_lt_of_le Nat.zero_lt_one (Nat.le_max_right _ _)
  have hpage : ∀ t cursor items next, PagesIn rt (fun db page =>
      SqliteFileSystem.search_content rt cursors ctx db query page) limit w t cursor items next ↔
      t = w ∧ Searches cursors.search w.db ctx.workspace_id query (max limit 1) cursor items next := by
    intro t cursor items next
    unfold PagesIn Pages
    constructor
    · rintro ⟨rfl, _, h⟩
      exact ⟨rfl, (search_content_eq_ok hread hneedle hpath).mp h⟩
    · rintro ⟨rfl, h⟩
      exact ⟨rfl, hreach, (search_content_eq_ok hread hneedle hpath).mpr h⟩
  have hstart : Stands cursors.search w.db ctx.workspace_id query.root r.toRawNode none none :=
    ⟨none, rfl, rfl, fun p hp => by cases hp⟩
  constructor
  · obtain ⟨pages, hpages⟩ := Paging.finishes (s := w)
      (fun t => scan_list t.db ctx.workspace_id r.toRawNode)
      (fun _ => Searches cursors.search w.db ctx.workspace_id query (max limit 1)) _
      (scan_list_ascending hwf hr) hstart (by
        intro cursor pos hstands
        obtain ⟨items, next, hnext⟩ := searches_ok hwf hr hneedle hlimit hpath hstands
        obtain ⟨_, taken, pos', htakes, _, _, hstands', hsome⟩ :=
          searches_takes hwf hr hneedle hlimit hpath hstands hnext
        exact ⟨items, next, taken, pos', hnext, htakes, hstands', hsome⟩)
    exact ⟨pages, hpages.mono (fun t cursor items next h => (hpage t cursor items next).mpr h)⟩
  · intro pages hpages
    obtain ⟨found, hfound, hshows⟩ := hpages.simulate
      (fun t pos found pos' => t = w ∧
        reported_from w.db ctx.workspace_id r.toRawNode query.needle (max limit 1) pos = found ++
          if pos'.isNone then [] else
            reported_from w.db ctx.workspace_id r.toRawNode query.needle (max limit 1) pos')
      (fun _ => List.Forall₂ (fun f item => f.into_search_match query.root = .ok item)) hstart (by
        intro t cursor pos items next hstands hnext
        obtain ⟨rfl, hsearches⟩ := (hpage t cursor items next).mp hnext
        obtain ⟨found, _, pos', _, hreports, hitems, hstands', hsome⟩ :=
          searches_takes hwf hr hneedle hlimit hpath hstands hsearches
        exact ⟨found, pos', ⟨rfl, hreports⟩, hitems, hstands', hsome⟩)
    rw [hfound.unfolds _ (fun _ _ _ _ h => h.2)]
    exact hshows.one_by_one.imp (fun _ _ h => h.choose_spec)

theorem shown_places {path : VirtualPath} {found : List RawSearchMatch} {items : List SearchMatch}
    (h : List.Forall₂ (fun f item => f.into_search_match path = .ok item) found items) :
    items.map (fun item => (item.node.id, item.range)) = found.map RawSearchMatch.place := by
  induction h with
  | nil => rfl
  | @cons f item _ _ hitem _ ih =>
    obtain ⟨_, node, _, hnode, rfl⟩ := into_search_match_eq_ok.mp hitem
    rw [List.map_cons, List.map_cons, ih, RawSearchMatch.place, (RawNode.into_node_key hnode).2]

/-- What is reported from the start on is complete exactly if the search fits into its pages. -/
theorem reported_from_all_iff (hwf : NodesWellFormed w.db) (hneedle : query.needle ≠ [])
    (hlimit : 0 < limit) {ws : WorkspaceId}
    (hpath : resolve.resolve w.db ws query.root = some r.toRawNode) (hr : Live w.db ws r) :
    (∀ id range, (id, range) ∈ (reported_from w.db ws r.toRawNode query.needle limit none).map
      RawSearchMatch.place ↔ ∃ names raw, Leads ws query.root w.db names raw ∧ raw.id = id ∧
        Occurs query.needle (file_chunks w.db raw).flatten range.start ∧
        range.end_ = range.start + query.needle.length) ↔
      SearchFits w ws query r.toRawNode limit := by
  have hids := scan_list_nodup hwf hr
  have hall := @reported_all_iff w.db query.needle limit hneedle _ hids 0 0 (WORK_BUDGET + 1) hlimit
  have hrows := fun row => @mem_scan_list_within w.db ws r query.root hwf hpath hr row
  change (∀ row ∈ scan_list w.db ws r.toRawNode, ∀ i, _ → ∃ f ∈ reported_from w.db ws r.toRawNode
    query.needle limit none, _) ↔ _ at hall
  have hsound : ∀ f ∈ reported_from w.db ws r.toRawNode query.needle limit none, ∃ names,
      Leads ws query.root w.db names f.node ∧ names.length ≤ MAX_SUBTREE_DEPTH ∧
      f.end_ = f.start + query.needle.length ∧
      Occurs query.needle (file_chunks w.db f.node).flatten f.start := by
    intro f hf
    obtain ⟨row, hrow, hnode, _, hends, hoccurs⟩ := reported_sound hneedle hf
    obtain ⟨names, raw, hleads, hdeep, rfl⟩ := (hrows row).mp hrow
    rw [hnode]
    exact ⟨names, hleads, hdeep, hends, hoccurs⟩
  constructor
  · intro h
    have hfinds : ∀ names raw, Leads ws query.root w.db names raw → ∀ i,
        Occurs query.needle (file_chunks w.db raw).flatten i → names.length ≤ MAX_SUBTREE_DEPTH ∧
        ∃ f ∈ reported_from w.db ws r.toRawNode query.needle limit none,
          f.node = raw ∧ f.start = i := by
      intro names raw hleads i hi
      obtain ⟨f, hf, hplace⟩ := List.mem_map.mp
        ((h raw.id ⟨i, i + query.needle.length⟩).mpr ⟨names, raw, hleads, rfl, hi, rfl⟩)
      obtain ⟨names', hleads', hdeep, _⟩ := hsound f hf
      obtain ⟨rfl, rfl⟩ := Leads.unique hwf hpath hr hleads' hleads (congrArg Prod.fst hplace)
      exact ⟨hdeep, f, hf, rfl, congrArg (fun p => p.2.start) hplace⟩
    refine ⟨fun names raw hleads i hi => (hfinds names raw hleads i hi).1, hall.mp ?_⟩
    intro row hrow i hi
    obtain ⟨names, raw, hleads, _, rfl⟩ := (hrows row).mp hrow
    exact (hfinds names raw hleads i hi).2
  · intro h id range
    rw [List.mem_map]
    constructor
    · rintro ⟨f, hf, hplace⟩
      obtain ⟨names, hleads, _, hends, hoccurs⟩ := hsound f hf
      cases hplace
      exact ⟨names, f.node, hleads, rfl, hoccurs, hends⟩
    · rintro ⟨names, raw, hleads, rfl, hoccurs, hends⟩
      obtain ⟨f, hf, hnode, hstart⟩ := hall.mpr h.pages _ ((hrows _).mpr
        ⟨names, raw, hleads, h.shallow names raw hleads _ hoccurs, rfl⟩) _ hoccurs
      obtain ⟨_, _, _, hends', _⟩ := hsound f hf
      refine ⟨f, hf, ?_⟩
      rw [RawSearchMatch.place, hends', hstart, ← hends, hnode]

/-- A search that is complete fits into its pages. -/
theorem SearchesAll.fits (h : SearchesAll rt (fun db page =>
      SqliteFileSystem.search_content rt cursors ctx db query page) limit w ctx.workspace_id query)
    (hread : ctx.has_capability .Read = true) (hreach : Reachable rt w)
    (hneedle : query.needle ≠ [])
    (hpath : resolve.resolve w.db ctx.workspace_id query.root = some r.toRawNode)
    (hr : Live w.db ctx.workspace_id r) :
    SearchFits w ctx.workspace_id query r.toRawNode (max limit 1) := by
  obtain ⟨pages, hpages⟩ := h.finishes
  have hshown := shown_places ((search_pages_show hread hreach hneedle hpath hr).2 pages hpages)
  refine (reported_from_all_iff hreach.sound.wf.nodes hneedle (Nat.lt_of_lt_of_le Nat.zero_lt_one
    (Nat.le_max_right _ _)) hpath hr).mp ?_
  rw [← hshown]
  exact h.exact pages hpages

/-- Where the root is not found there is no page. -/
theorem SearchesAll.root_found (h : SearchesAll rt (fun db page =>
      SqliteFileSystem.search_content rt cursors ctx db query page) limit w ctx.workspace_id query) :
    resolve.resolve w.db ctx.workspace_id query.root ≠ none := by
  intro hnone
  obtain ⟨_, _, rfl, _, hlast⟩ := h.finishes
  obtain ⟨_, hlast⟩ := require_read_bind_eq_ok.mp hlast
  unfold search_content at hlast
  split at hlast
  · cases hlast
  · obtain ⟨_, _, hlast⟩ := FsResult.bind_eq_ok.mp hlast
    simp only [search_content_tx, hnone] at hlast
    cases hlast

end complete

end search

/-- A content search is complete, over its pages, if and only if its root is found, no occurrence
is too far below it, and no page has to end inside a file. -/
theorem search_content_complete_iff (rt : Runtime) (cursors : SqliteFileSystem.Cursors)
    (ctx : RequestContext) (hread : ctx.has_capability .Read = true) (w : World)
    (hreach : Reachable rt w) (query : ContentQuery) (hneedle : query.needle ≠ []) (limit : Nat) :
    search.SearchesAll rt (fun db page =>
        SqliteFileSystem.search_content rt cursors ctx db query page) limit w ctx.workspace_id query ↔
      ∃ root, resolve.resolve w.db ctx.workspace_id query.root = some root ∧
        search.SearchFits w ctx.workspace_id query root (max limit 1) := by
  have hwf := hreach.sound.wf.nodes
  have hlimit : 0 < max limit 1 := Nat.lt_of_lt_of_le Nat.zero_lt_one (Nat.le_max_right _ _)
  constructor
  · intro h
    obtain ⟨root, hpath⟩ := Option.ne_none_iff_exists'.mp h.root_found
    obtain ⟨r, rfl, hr⟩ := resolve.resolve_live hpath
    exact ⟨r.toRawNode, hpath, h.fits hread hreach hneedle hpath hr⟩
  · rintro ⟨root, hpath, hfits⟩
    obtain ⟨r, rfl, hr⟩ := resolve.resolve_live hpath
    obtain ⟨hfinishes, hshows⟩ := search.search_pages_show hread hreach hneedle hpath hr
    refine ⟨hfinishes, fun pages hpages => ?_, fun pages hpages => ?_⟩
    · rw [search.shown_places (hshows pages hpages)]
      exact search.reported_once hneedle (search.scan_list_nodup hwf hr) _ _ _
    · rw [search.shown_places (hshows pages hpages)]
      exact (search.reported_from_all_iff hwf hneedle hlimit hpath hr).mpr hfits

/-- A workspace with the file `/f` of two bytes and the file `/g` of three. -/
def searchedWorld : World :=
  serveAll Runtime.counting [(.trusted 0, .Write (.named [['f']]) [.ok [97, 97]] {}),
    (.trusted 0, .Write (.named [['g']]) [.ok [98], .ok [97, 98]] {})] bareWorld

/-- The byte that is searched for. -/
def searchedByte : ContentQuery := { needle := [97] }

theorem searchedWorld_reachable : Reachable Runtime.counting searchedWorld :=
  ((Reachable.empty Runtime.counting).serveAll _).serveAll _

/-- With one match on a page, the second one in `/f` is left out. -/
theorem second_match_left_out : Reachable Runtime.counting searchedWorld ∧
    ¬ search.SearchesAll Runtime.counting (fun db page => SqliteFileSystem.search_content
      Runtime.counting SqliteFileSystem.Cursors.counting (.trusted 0) db searchedByte page) 1
      searchedWorld 0 searchedByte := by
  refine ⟨searchedWorld_reachable, fun h => ?_⟩
  obtain ⟨root, hpath⟩ := Option.ne_none_iff_exists'.mp h.root_found
  obtain ⟨r, rfl, hr⟩ := resolve.resolve_live hpath
  have hfits := (h.fits rfl searchedWorld_reachable (by decide) hpath hr).pages
  have hnot : ((resolve.resolve searchedWorld.db 0 VirtualPath.root).all (fun root =>
      ¬ search.PagesFit [97] 1 ((search.scan_list searchedWorld.db 0 root).map
        (fun row => search.file_chunks searchedWorld.db row.node)) 0 0
          (search.WORK_BUDGET + 1))) = true := by
    decide +kernel
  rw [show resolve.resolve searchedWorld.db 0 VirtualPath.root = some r.toRawNode from hpath] at hnot
  simp only [Option.all_some, decide_eq_true_eq] at hnot
  exact hnot hfits

theorem searchedWorld_shallow : Shallow 0 searchedWorld.db := by
  have hrows : searchedWorld.db.nodes.rows.length = 3 := by decide +kernel
  exact Shallow.of_few searchedWorld_reachable.sound.wf.nodes
    (by rw [hrows, search.MAX_SUBTREE_DEPTH]; omega)

/-- With two matches on a page the search is complete: the one in `/g` is on a later page. -/
theorem two_matches_fit :
    search.SearchesAll Runtime.counting (fun db page => SqliteFileSystem.search_content
      Runtime.counting SqliteFileSystem.Cursors.counting (.trusted 0) db searchedByte page) 2
      searchedWorld 0 searchedByte ∧
    ∃ raw pages, resolve.resolve searchedWorld.db 0 (.named [['g']]) = some raw ∧
      Finished (PagesIn Runtime.counting (fun db page => SqliteFileSystem.search_content
        Runtime.counting SqliteFileSystem.Cursors.counting (.trusted 0) db searchedByte page) 2
        searchedWorld) pages ∧
      (raw.id, ⟨1, 2⟩) ∈ (contents pages).map (fun item => (item.node.id, item.range)) := by
  obtain ⟨root, hroot⟩ := Option.isSome_iff_exists.mp
    (show (resolve.resolve searchedWorld.db 0 VirtualPath.root).isSome = true by decide +kernel)
  have hpages : ((resolve.resolve searchedWorld.db 0 VirtualPath.root).all (fun root =>
      search.PagesFit [97] 2 ((search.scan_list searchedWorld.db 0 root).map
        (fun row => search.file_chunks searchedWorld.db row.node)) 0 0
          (search.WORK_BUDGET + 1))) = true := by
    decide +kernel
  rw [hroot, Option.all_some, decide_eq_true_eq] at hpages
  have hall := (search_content_complete_iff Runtime.counting SqliteFileSystem.Cursors.counting
    (.trusted 0) rfl searchedWorld searchedWorld_reachable searchedByte (by decide) 2).mpr
    ⟨root, hroot, ?_, hpages⟩
  · obtain ⟨pages, hfinished⟩ := hall.finishes
    obtain ⟨raw, hraw⟩ := Option.isSome_iff_exists.mp
      (show (resolve.resolve searchedWorld.db 0 (.named [['g']])).isSome = true by decide +kernel)
    have hoccurs : ((resolve.resolve searchedWorld.db 0 (.named [['g']])).all (fun raw =>
        [97] <+: (search.file_chunks searchedWorld.db raw).flatten.drop 1)) = true := by
      decide +kernel
    rw [hraw, Option.all_some, decide_eq_true_eq] at hoccurs
    refine ⟨hall, raw, pages, hraw, hfinished, (hall.exact pages hfinished raw.id ⟨1, 2⟩).mpr
      ⟨[['g']], raw, ⟨_, VirtualPath.segments_named (by decide), hraw⟩, rfl, hoccurs, rfl⟩⟩
  · rintro names raw ⟨path', hsegments, hresolve⟩ _ _
    have hle := searchedWorld_shallow path' raw hresolve
    rwa [hsegments] at hle

end fslite
