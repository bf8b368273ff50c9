import Fslite.Sqlite.Run.Pages

namespace fslite

open Paging

namespace search

/-- The position of a row. -/
def row_pos (row : Descendant) : CursorPos := (row.depth, row.node.name, row.node.id)

/-- The loop consumes the first rows and finds those among them that match; it leaves
rows only if it stops early. -/
theorem scan_rows_spec (is_match : Descendant → Bool) (limit : Nat) (rows : List Descendant)
    (found : List RawNode) (last_pos : Option CursorPos) :
    ∃ consumed left, rows = consumed ++ left ∧
      (scan_rows is_match limit rows found last_pos).1 = found ++
      (consumed.filter is_match).map Descendant.node ∧
      (scan_rows is_match limit rows found last_pos).2.1 =
      (consumed.getLast?.map row_pos).or last_pos ∧
      ((scan_rows is_match limit rows found last_pos).2.2 = true → consumed ≠ []) ∧
      ((scan_rows is_match limit rows found last_pos).2.2 = false → left = []) := by
  induction rows generalizing found last_pos with
  | nil => exact ⟨[], [], by simp [scan_rows]⟩
  | cons row rest ih =>
    have hlast : ∀ consumed : List Descendant, (consumed.getLast?.map row_pos).or
      (some (row_pos row)) =
        ((row :: consumed).getLast?.map row_pos).or last_pos := by
      intro consumed
      rw [List.getLast?_cons]
      cases consumed.getLast? <;> rfl
    unfold scan_rows
    by_cases hmatch : is_match row = true
    · by_cases hfull : limit ≤ (found ++ [row.node]).length
      · refine ⟨[row], rest, rfl, ?_⟩
        simp only [hmatch, hfull, if_true]
        simp [hmatch, row_pos]
      · obtain ⟨consumed, left, hsplit, hfound, hpos, hstopped, hend⟩ :=
          ih (found ++ [row.node]) (some (row_pos row))
        refine ⟨row :: consumed, left, by rw [hsplit, List.cons_append], ?_⟩
        simp only [hmatch, hfull, if_true, if_false]
        refine ⟨hfound.trans ?_, hpos.trans (hlast consumed), fun _ => List.cons_ne_nil _ _, hend⟩
        rw [List.filter_cons_of_pos hmatch, List.map_cons, List.append_assoc, List.singleton_append]
    · obtain ⟨consumed, left, hsplit, hfound, hpos, hstopped, hend⟩ := ih found (some (row_pos row))
      refine ⟨row :: consumed, left, by rw [hsplit, List.cons_append], ?_⟩
      simp only [hmatch, Bool.false_eq_true, if_false]
      refine ⟨hfound.trans ?_, hpos.trans (hlast consumed), fun _ => List.cons_ne_nil _ _, hend⟩
      rw [List.filter_cons_of_neg hmatch]

/-- The rows of a whole scan: the root, and the rows of the query below it. -/
def scan_list (db : Db) (ws : WorkspaceId) (root : RawNode) : List Descendant :=
  ⟨root, 0, []⟩ :: subtree db ws root.id (some MAX_SUBTREE_DEPTH)

/-- The sort key of a row of a scan. The root comes without its name. -/
def scan_key (row : Descendant) : ℤ ×ₗ Text ×ₗ WithBot NodeId :=
  if row.depth = 0 then position_key (0, [], (row.node.id : WithBot NodeId)) else descendant_key row

/-- Whether a row of a scan matches. -/
def scan_match (root_matches : Bool) (is_match : Descendant → Bool) (row : Descendant) : Bool :=
  if row.depth = 0 then root_matches else is_match row

section scan

variable {db : Db} {ws : WorkspaceId} {r : NodeRow} {root_matches : Bool}
  {is_match : Descendant → Bool}
variable {after : Option CursorPos} {limit : Nat} {found : Found}

theorem subtree_depth (hwf : NodesWellFormed db) (hr : Live db ws r) {max_depth : Option Nat}
    {row : Descendant} (hrow : row ∈ subtree db ws r.id max_depth) : 0 < row.depth := by
  obtain ⟨names, n, hn, _, rfl⟩ := (mem_subtree hwf hr).mp hrow
  exact hn.length_pos

theorem scan_key_eq {row : Descendant} (h : 0 < row.depth) :
    scan_key row = position_key (row_pos row) := by
  rw [scan_key, if_neg h.ne']
  rfl

theorem scan_list_ascending (hwf : NodesWellFormed db) (hr : Live db ws r) :
    Ascending scan_key (scan_list db ws r.toRawNode) := by
  refine List.pairwise_cons.mpr ⟨fun row hrow => ?_, ?_⟩
  · have hdepth := subtree_depth hwf hr hrow
    rw [scan_key_eq hdepth, scan_key, if_pos rfl, position_key, position_key,
      Prod.Lex.toLex_lt_toLex]
    exact Or.inl (by simpa [row_pos] using hdepth)
  · refine (subtree_ascending hr _).imp_of_mem (fun {a b} ha hb hlt => ?_)
    rwa [scan_key, scan_key, if_neg (subtree_depth hwf hr ha).ne',
      if_neg (subtree_depth hwf hr hb).ne']

/-- After the start there are the root and the rows below it, after a row only rows
below the root. -/
theorem after_scan_list (hwf : NodesWellFormed db) (hr : Live db ws r)
    (hafter : ∀ pos, after = some pos → ∃ row ∈ scan_list db ws r.toRawNode,
    position_key pos = scan_key row) :
    Paging.after scan_key (scan_list db ws r.toRawNode) (after.map position_key) =
      (if after.isNone then [⟨r.toRawNode, 0, []⟩] else []) ++
        Paging.after descendant_key (subtree db ws r.id (some MAX_SUBTREE_DEPTH))
          (after.map position_key) := by
  cases after with
  | none => rfl
  | some pos =>
    obtain ⟨row, hrow, hpos⟩ := hafter pos rfl
    have hfirst : ¬ position_key pos < scan_key ⟨r.toRawNode, 0, []⟩ := by
      rw [hpos, not_lt]
      obtain rfl | hrow := List.mem_cons.mp hrow
      · exact le_refl _
      · exact ((List.pairwise_cons.mp (scan_list_ascending hwf hr)).1 row hrow).le
    simp only [Option.map_some, Paging.after, Option.isNone_some, Bool.false_eq_true, if_false,
      List.nil_append, scan_list]
    rw [List.filter_cons_of_neg (by simpa using hfirst)]
    refine List.filter_congr (fun row hrow => ?_)
    rw [scan_key, if_neg (subtree_depth hwf hr hrow).ne']

/-- The rows of a page, after the root if it is the first one: those that its loop has
consumed. The page ends at the last of them, unless there is nothing left. -/
theorem page_takes {pos : Option (ℤ ×ₗ Text ×ₗ WithBot NodeId)} {first rest consumed left : List Descendant}
    {last_pos : Option CursorPos} {stopped : Bool}
    (hsplit : Paging.after scan_key (scan_list db ws r.toRawNode) pos = first ++ rest)
    (hdepth : ∀ row ∈ rest, 0 < row.depth) (hconsumed : rest.take WORK_BUDGET = consumed ++ left)
    (hpos : last_pos = consumed.getLast?.map row_pos) (hstopped : stopped = true → consumed ≠ [])
    (hend : stopped = false → left = []) :
    ∃ back, rest = consumed ++ back ∧ Takes scan_key (scan_list db ws r.toRawNode) pos (first ++ consumed)
      ((if (stopped || decide (WORK_BUDGET < (rest.take (WORK_BUDGET + 1)).length)) = true then last_pos
        else none).map position_key) := by
  have hrest : rest = consumed ++ (left ++ rest.drop WORK_BUDGET) := by
    rw [← List.append_assoc, ← hconsumed, List.take_append_drop]
  refine ⟨_, hrest, ⟨left ++ rest.drop WORK_BUDGET, ?_, fun hnone => ?_⟩, fun k hk => ?_⟩
  · rw [hsplit, List.append_assoc, ← hrest]
  · rw [Option.map_eq_none_iff] at hnone
    split at hnone
    · rename_i hmore
      rw [hpos, Option.map_eq_none_iff, List.getLast?_eq_none_iff] at hnone
      rw [Bool.or_eq_true, decide_eq_true_iff, List.length_take] at hmore
      -- the budget is spent on rows that have been consumed
      cases stopped with
      | true => exact absurd hnone (hstopped rfl)
      | false =>
        rw [hnone, hend rfl, List.append_nil] at hconsumed
        have hlength := congrArg List.length hconsumed
        rw [List.length_take, List.length_nil] at hlength
        unfold WORK_BUDGET at hlength hmore
        simp only [Bool.false_eq_true, false_or] at hmore
        omega
    · rename_i hmore
      rw [Bool.or_eq_true, decide_eq_true_iff, List.length_take, not_or,
        Bool.not_eq_true] at hmore
      rw [hend hmore.1, List.drop_of_length_le (by omega)]
      rfl
  · obtain ⟨p, hp, rfl⟩ := Option.map_eq_some_iff.mp hk
    split at hp
    · obtain ⟨row, hrow, rfl⟩ := Option.map_eq_some_iff.mp (hpos.symm.trans hp)
      have hmem : row ∈ rest := hrest ▸ List.mem_append_left _ (List.mem_of_getLast? hrow)
      exact ⟨row, by rw [List.getLast?_append, hrow, Option.some_or], scan_key_eq (hdepth row hmem)⟩
    · cases hp

/-- A call takes the first rows of the scan after its position, and gives those of
them that match. -/
theorem scan_tx_takes (hwf : NodesWellFormed db) (hr : Live db ws r)
    (hafter : ∀ pos, after = some pos → ∃ row ∈ scan_list db ws r.toRawNode,
    position_key pos = scan_key row)
    (h : scan_tx db ws r.toRawNode root_matches is_match after limit = .ok found) :
    ∃ taken, Takes scan_key (scan_list db ws r.toRawNode) (after.map position_key) taken
      (found.next_cursor_pos.map position_key) ∧
      found.candidates = (taken.filter (scan_match root_matches is_match)).map Descendant.node := by
  have hsplit := after_scan_list hwf hr hafter
  generalize hrest : Paging.after descendant_key (subtree db ws r.id (some MAX_SUBTREE_DEPTH))
    (after.map position_key) = rest
    at hsplit
  have hdepth : ∀ row ∈ rest, 0 < row.depth := by
    intro row hrow
    rw [← hrest] at hrow
    exact subtree_depth hwf hr (mem_after.mp hrow).1
  unfold scan_tx at h
  by_cases hfull : after.isNone = true ∧ root_matches = true ∧ limit ≤ 1
  · -- the limit is reached at the root
    obtain ⟨hnone, hmatch, hone⟩ := hfull
    simp only [hnone, hmatch, and_self, if_true, List.length_singleton, hone, pure, Except.pure,
      Except.ok.injEq] at h
    subst h
    rw [if_pos hnone] at hsplit
    refine ⟨[⟨r.toRawNode, 0, []⟩], ⟨⟨rest, hsplit, fun hnext => by cases hnext⟩, ?_⟩, ?_⟩
    · intro k hk
      exact ⟨_, rfl, by simpa [scan_key] using hk⟩
    · simp [scan_match, hmatch]
  · have hskip : ¬ (after.isNone = true ∧ root_matches = true ∧
        limit ≤ (if after.isNone = true ∧
          root_matches = true then [r.toRawNode] else []).length) := by
      rintro ⟨hnone, hmatch, hle⟩
      rw [if_pos ⟨hnone, hmatch⟩] at hle
      exact hfull ⟨hnone, hmatch, hle⟩
    simp only [if_neg hskip, fetch_subtree_page] at h
    obtain ⟨rows, hfetch, h⟩ := FsResult.bind_eq_ok.mp h
    obtain ⟨_, hrows⟩ := fetch_descendants_eq_ok.mp hfetch
    rw [hrest] at hrows
    subst hrows
    obtain ⟨consumed, left, hconsumed, hcandidates, hpos, hstopped, hend⟩ :=
      scan_rows_spec is_match limit
      ((rest.take (WORK_BUDGET + 1)).take WORK_BUDGET)
      (if after.isNone = true ∧ root_matches = true then [r.toRawNode] else []) none
    simp only [pure, Except.pure, Except.ok.injEq] at h
    generalize scan_rows is_match limit ((rest.take (WORK_BUDGET + 1)).take WORK_BUDGET)
      (if after.isNone = true ∧ root_matches = true then [r.toRawNode] else []) none =
        scanned at h hcandidates hpos hstopped hend
    obtain ⟨candidates, last_pos, stopped⟩ := scanned
    simp only at h hcandidates hpos hstopped hend
    clear hfetch
    subst h
    rw [List.take_take, min_eq_left (Nat.le_succ _)] at hconsumed
    rw [Option.or_none] at hpos
    obtain ⟨back, hback, htakes⟩ := page_takes hsplit hdepth hconsumed hpos hstopped hend
    have hsub : ∀ row ∈ consumed, 0 < row.depth := fun row hrow =>
      hdepth row (hback ▸ List.mem_append_left back hrow)
    refine ⟨(if after.isNone = true then [⟨r.toRawNode, 0, []⟩] else []) ++ consumed, htakes, ?_⟩
    have hconsumedMatch : consumed.filter (scan_match root_matches is_match) = consumed.filter is_match :=
      List.filter_congr (fun row hrow => by rw [scan_match, if_neg (hsub row hrow).ne'])
    rw [List.filter_append, List.map_append, hconsumedMatch, hcandidates]
    cases after with
    | none => cases root_matches <;> simp [scan_match]
    | some pos => simp

/-- Below a live node a call succeeds. -/
theorem scan_tx_ok (hwf : NodesWellFormed db) (hr : Live db ws r) :
    ∃ found, scan_tx db ws r.toRawNode root_matches is_match after limit = .ok found := by
  obtain ⟨all, hall⟩ := descendants_ok hwf hr (some MAX_SUBTREE_DEPTH)
  have hfetch := @fetch_descendants_eq_ok db ws r.id (some MAX_SUBTREE_DEPTH) after
    (WORK_BUDGET + 1)
    _ |>.mpr ⟨⟨all, hall⟩, rfl⟩
  unfold scan_tx
  by_cases hfull : after.isNone = true ∧ root_matches = true ∧
      limit ≤ (if after.isNone = true ∧ root_matches = true then [r.toRawNode] else []).length
  · exact ⟨_, if_pos hfull⟩
  · simp only [if_neg hfull, fetch_subtree_page]
    rw [hfetch]
    exact ⟨_, rfl⟩

end scan

/-- The pages of a scan: what `glob` and `find` answer once their anchor is found. -/
def Scans (codec : Codec SearchCursor) (db : Db) (ws : WorkspaceId) (path : VirtualPath)
    (root : RawNode) (root_matches : Bool) (is_match : Descendant → Bool) (limit : Nat)
    (cursor : Option Text) (items : List Node) (next : Option Text) : Prop :=
  ∃ after found, cursor.mapM (fun raw => decode_search_cursor codec raw ws path) = .ok after ∧
    scan_tx db ws root root_matches is_match after limit = .ok found ∧
      found.candidates.mapM RawNode.into_node = .ok items ∧
    found.next_cursor_pos.map (encode_search_cursor codec ws path) = next

section pages

variable {codec : Codec SearchCursor} {db : Db} {ws : WorkspaceId} {path : VirtualPath}
  {r : NodeRow} {root_matches : Bool}
variable {is_match : Descendant → Bool} {limit : Nat}

theorem decode_encode_search_cursor (pos : CursorPos) :
    decode_search_cursor codec (encode_search_cursor codec ws path pos) ws path = .ok pos := by
  unfold decode_search_cursor encode_search_cursor
  rw [FsResult.bind_eq_ok]
  exact ⟨_, decode_cursor_eq_ok.mpr ⟨codec.decode_encode _, by simp⟩, rfl⟩

/-- The cursor of a scan that has got to a row. -/
def Stands (codec : Codec SearchCursor) (db : Db) (ws : WorkspaceId) (path : VirtualPath)
    (root : RawNode) (cursor : Option Text) (pos : Option (ℤ ×ₗ Text ×ₗ WithBot NodeId)) : Prop :=
  ∃ after : Option CursorPos, cursor = after.map (encode_search_cursor codec ws path) ∧
    pos = after.map position_key ∧
    ∀ p, after = some p → ∃ row ∈ scan_list db ws root, position_key p = scan_key row

/-- What a cursor of a scan is decoded to. -/
theorem decode_stands {after from_ : Option CursorPos}
    (h : (after.map (encode_search_cursor codec ws path)).mapM
      (fun raw => decode_search_cursor codec raw ws path) = .ok from_) : from_ = after := by
  cases after with
  | none => exact (Except.ok.inj h).symm
  | some p =>
    obtain ⟨hnone, _⟩ | ⟨_, q, hraw, rfl, hq⟩ := FsResult.option_mapM_eq_ok.mp h
    · cases hnone
    · cases hraw
      rw [decode_encode_search_cursor, Except.ok.injEq] at hq
      rw [hq]

/-- A page of a scan takes rows of the scan and shows those that match. -/
theorem scans_takes (hwf : NodesWellFormed db) (hr : Live db ws r) {cursor : Option Text}
    {pos : Option (ℤ ×ₗ Text ×ₗ WithBot NodeId)}
    (hstands : Stands codec db ws path r.toRawNode cursor pos) {items : List Node}
    {next : Option Text} (h : Scans codec db ws path r.toRawNode root_matches is_match limit cursor items next) :
    ∃ taken pos', Takes scan_key (scan_list db ws r.toRawNode) pos taken pos' ∧
      List.Forall₂ (fun row node => row.node.into_node = .ok node)
        (taken.filter (scan_match root_matches is_match)) items ∧
      Stands codec db ws path r.toRawNode next pos' ∧ (next.isSome ↔ pos'.isSome) := by
  obtain ⟨after, rfl, rfl, hafter⟩ := hstands
  obtain ⟨after', found, hdecode, hscan, hitems, rfl⟩ := h
  rw [decode_stands hdecode] at hscan
  obtain ⟨taken, htakes, hcandidates⟩ := scan_tx_takes hwf hr hafter hscan
  refine ⟨taken, _, htakes, ?_, ⟨found.next_cursor_pos, rfl, rfl, fun p hp => ?_⟩, by simp⟩
  · rw [hcandidates] at hitems
    exact List.forall₂_map_left_iff.mp (FsResult.mapM_eq_ok.mp hitems)
  · obtain ⟨row, hrow, hkey⟩ := htakes.last (position_key p) (by rw [hp]; rfl)
    exact ⟨row, (htakes.sub (List.mem_of_getLast? hrow)).1, hkey.symm⟩

/-- Every cursor of a scan gives a page. -/
theorem scans_ok (hwf : NodesWellFormed db) (hr : Live db ws r) {cursor : Option Text}
    {pos : Option (ℤ ×ₗ Text ×ₗ WithBot NodeId)}
    (hstands : Stands codec db ws path r.toRawNode cursor pos) :
    ∃ items next, Scans codec db ws path r.toRawNode root_matches is_match limit cursor items next := by
  obtain ⟨after, rfl, rfl, hafter⟩ := hstands
  obtain ⟨found, hscan⟩ := @scan_tx_ok db ws r root_matches is_match after limit hwf hr
  obtain ⟨taken, htakes, hcandidates⟩ := scan_tx_takes hwf hr hafter hscan
  have hrows : ∀ raw ∈ found.candidates, ∃ node, raw.into_node = .ok node := by
    intro raw hraw
    rw [hcandidates] at hraw
    obtain ⟨row, hrow, rfl⟩ := List.mem_map.mp hraw
    obtain rfl | hrow := List.mem_cons.mp (htakes.sub (List.mem_filter.mp hrow).1).1
    · exact RawNode.into_node_ok (hwf.revision r hr.mem)
    · obtain ⟨names, n, hn, _, rfl⟩ := (mem_subtree hwf hr).mp hrow
      exact RawNode.into_node_ok (hwf.revision n hn.mem)
  obtain ⟨items, hitems⟩ := FsResult.mapM_ok hrows
  refine ⟨items, _, after, found, ?_, hscan, hitems, rfl⟩
  cases after with
  | none => rfl
  | some p => exact FsResult.option_mapM_eq_ok.mpr (Or.inr ⟨_, p, rfl, rfl, decode_encode_search_cursor p⟩)

end pages

end search

end fslite
