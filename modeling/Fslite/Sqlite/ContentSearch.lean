import Fslite.Occurrences
import Fslite.Sqlite.Search

namespace fslite

/-- One literal match of a content search. -/
structure SearchMatch where
  node : Node
  path : VirtualPath
  range : ByteRange
  preview : Bytes

structure ContentQuery where
  root : VirtualPath := VirtualPath.root
  needle : Bytes := []

namespace search

open content

/-- The maximum number of bytes of files that are read in one call. -/
def SEARCH_BYTE_BUDGET : Nat := 16 * 1024 * 1024

/-- The number of bytes shown on each side of a match, where the buffer has them. -/
def PREVIEW_CONTEXT_BYTES : Nat := 32

def find_all_occurrences (haystack needle : Bytes) : List Nat :=
  if needle = [] ∨ haystack.length < needle.length then []
  else (List.range (haystack.length - needle.length + 1)).filter
    (fun start => (haystack.drop start).take needle.length = needle)

theorem find_all_occurrences_all (haystack : Bytes) {needle : Bytes} (hneedle : needle ≠ []) :
    AllOccurrences needle haystack (find_all_occurrences haystack needle) := by
  unfold find_all_occurrences
  by_cases hshort : haystack.length < needle.length
  · rw [if_pos (Or.inr hshort)]
    refine ⟨.nil, fun i => iff_of_false List.not_mem_nil (fun h => ?_)⟩
    have hfits := h.fits hneedle
    omega
  · rw [if_neg (not_or.mpr ⟨hneedle, hshort⟩)]
    refine ⟨List.pairwise_lt_range.filter _, fun i => ?_⟩
    rw [List.mem_filter, List.mem_range, decide_eq_true_eq, ← occurs_iff_take]
    refine and_iff_right_of_imp (fun h => ?_)
    have hfits := h.fits hneedle
    omega

structure RawSearchMatch where
  node : RawNode
  relative_path : Text
  start : Nat
  end_ : Nat
  preview : Bytes
  deriving DecidableEq

/-- The match that is reported for an occurrence in the buffer. -/
def buffer_match (node : RawNode) (relative_path : Text) (needle buffer : Bytes)
    (buffer_base start : Nat) : RawSearchMatch :=
  let match_start := buffer_base + start
  let match_end := match_start + needle.length
  let preview_start := start - PREVIEW_CONTEXT_BYTES
  let preview_end := min (start + needle.length + PREVIEW_CONTEXT_BYTES) buffer.length
  { node, relative_path, start := match_start, end_ := match_end,
    preview := (buffer.drop preview_start).take (preview_end - preview_start) }

/-- The loop of `search_file`, with the matches and the number of bytes that it ends with. -/
def search_file_loop (db : Db) (node : RawNode) (relative_path : Text) (needle : Bytes)
    (generation_id : GenerationId) (overlap : Bytes) (buffer_base chunk_index bytes_scanned : Nat)
    (results : List RawSearchMatch) : List RawSearchMatch × Nat :=
  if SEARCH_BYTE_BUDGET ≤ bytes_scanned then (results, bytes_scanned)
  else
    let chunk := fetch_chunk_bytes db generation_id chunk_index
    if chunk = [] then (results, bytes_scanned)
    else
      let buffer := overlap ++ chunk
      let found := (find_all_occurrences buffer needle).map
        (buffer_match node relative_path needle buffer buffer_base)
      let next_overlap_start := buffer.length - (needle.length - 1)
      search_file_loop db node relative_path needle generation_id (buffer.drop next_overlap_start)
        (buffer_base + next_overlap_start) (chunk_index + 1) (bytes_scanned + chunk.length)
          (results ++ found)
termination_by SEARCH_BYTE_BUDGET - bytes_scanned
decreasing_by
  have hpos : 0 < (fetch_chunk_bytes db generation_id chunk_index).length :=
    List.length_pos_iff.mpr (by assumption)
  omega

def search_file (db : Db) (node : RawNode) (relative_path : Text) (needle : Bytes)
    (bytes_scanned : Nat) :
    List RawSearchMatch × Nat :=
  match node.content_generation_id with
  | none => ([], bytes_scanned)
  | some generation_id => search_file_loop db node relative_path needle generation_id [] 0 0 bytes_scanned []

def RawSearchMatch.into_search_match (root_path : VirtualPath) (found : RawSearchMatch) :
    FsResult SearchMatch := do
  let path ← if found.relative_path = [] then pure root_path else root_path.join found.relative_path
  return { node := ← found.node.into_node, path, range := ⟨found.start, found.end_⟩, preview :=
    found.preview }

inductive SearchRaw where
  | RootNotFound
  | Found (found : List RawSearchMatch) (next_cursor_pos : Option CursorPos)

/-- The loop that takes over the matches of a file, and whether it has reached the limit. -/
def take_matches (limit : Nat) :
    List RawSearchMatch → List RawSearchMatch → List RawSearchMatch × Bool
  | [], taken => (taken, false)
  | found :: rest, taken =>
    let taken := taken ++ [found]
    if limit ≤ taken.length then (taken, true) else take_matches limit rest taken

/-- The matches in a row, if it is a file, and the number of bytes that have then been
scanned. -/
def row_matches (db : Db) (needle : Bytes) (row : Descendant) (bytes_scanned : Nat) :
    List RawSearchMatch × Nat :=
  if row.node.kind = .File then search_file db row.node row.relative_path needle bytes_scanned
  else ([], bytes_scanned)

/-- The loop over the rows of a call. It tells the matches that have been found, the
position of the last row that it has consumed, and whether it has stopped early. -/
def search_rows (db : Db) (needle : Bytes) (limit : Nat) :
    List Descendant → List RawSearchMatch → Nat → Option CursorPos →
      List RawSearchMatch × Option CursorPos × Bool
  | [], taken, _, last_pos => (taken, last_pos, false)
  | row :: rest, taken, bytes_scanned, _ =>
    let pos : CursorPos := (row.depth, row.node.name, row.node.id)
    let (file_matches, bytes_scanned) := row_matches db needle row bytes_scanned
    let (taken, stopped_early) := take_matches limit file_matches taken
    if stopped_early ∨ SEARCH_BYTE_BUDGET ≤ bytes_scanned then (taken, some pos, true)
    else search_rows db needle limit rest taken bytes_scanned (some pos)

/-- The root is searched first if it is a file, then as many rows below it as the budgets
allow. -/
def search_content_tx (db : Db) (ws : WorkspaceId) (root_path : VirtualPath) (needle : Bytes)
    (after : Option CursorPos) (limit : Nat) : Except Fault SearchRaw :=
  match resolve.resolve db ws root_path with
  | none => .ok .RootNotFound
  | some root => do
    let (file_matches, bytes_scanned) :=
      if after.isNone then row_matches db needle ⟨root, 0, []⟩ 0 else ([], 0)
    let (taken, full) := take_matches limit file_matches []
    if full ∨ SEARCH_BYTE_BUDGET ≤ bytes_scanned then
      return .Found taken (some (0, [], (root.id : WithBot NodeId)))
    else
      let rows ← fetch_subtree_page db ws root.id (after.getD (0, [], ⊥)) (WORK_BUDGET + 1)
      let budget_exhausted_nodes := decide (WORK_BUDGET < rows.length)
      let (taken, last_pos, stopped_early) :=
        search_rows db needle limit (rows.take WORK_BUDGET) taken bytes_scanned none
      return .Found taken (if stopped_early || budget_exhausted_nodes then last_pos else none)

def search_content (rt : Runtime) (codec : Codec SearchCursor) (db : Db) (ws : WorkspaceId)
    (query : ContentQuery) (page : PageRequest) : FsResult (Page SearchMatch) :=
  if query.needle = [] then .error
    (FsError.invalid_range "content search needle must not be empty".toList)
  else do
    let limit := max page.limit 1
    let after ← page.cursor.mapM (fun raw => decode_search_cursor codec raw ws query.root)
    match ← (search_content_tx db ws query.root query.needle after limit).mapError
      (DbCall.map_call_error rt) with
    | .RootNotFound => throw (FsError.not_found query.root.as_str)
    | .Found found next_cursor_pos =>
      let items ← found.mapM (RawSearchMatch.into_search_match query.root)
      return ⟨items, next_cursor_pos.map (encode_search_cursor codec ws query.root)⟩

/-- The part of a generation that a search reads from a chunk on, until a chunk is
missing or the byte budget is spent. -/
def scanned_part (db : Db) (generation_id : GenerationId) (chunk_index bytes_scanned : Nat) :
    Bytes :=
  if SEARCH_BYTE_BUDGET ≤ bytes_scanned then []
  else
    let chunk := fetch_chunk_bytes db generation_id chunk_index
    if chunk = [] then [] else chunk ++ scanned_part db generation_id (chunk_index + 1)
      (bytes_scanned + chunk.length)
termination_by SEARCH_BYTE_BUDGET - bytes_scanned
decreasing_by
  have hpos : 0 < (fetch_chunk_bytes db generation_id chunk_index).length :=
    List.length_pos_iff.mpr (by assumption)
  omega

/-- The part of a node's content that a search reads. -/
def file_part (db : Db) (node : RawNode) (bytes_scanned : Nat) : Bytes :=
  match node.content_generation_id with
  | none => []
  | some generation_id => scanned_part db generation_id 0 bytes_scanned

/-- The content of a node is stored as the chunks. -/
structure StoredAs (db : Db) (node : RawNode) (chunks : List Bytes) : Prop where
  nonempty : ∀ chunk ∈ chunks, chunk ≠ []
  generation : node.content_generation_id = none → chunks = []
  stored : ∀ g, node.content_generation_id = some g → ∀ i,
    fetch_chunk_bytes db g i = chunks.getD i []

/-- The scan of the chunks is not cut short by the byte budget. -/
def WithinBudget (bytes_scanned : Nat) (chunks : List Bytes) : Prop :=
  ∀ k < chunks.length, bytes_scanned + (chunks.take k).flatten.length < SEARCH_BYTE_BUDGET

/-- What a match says about the content. -/
structure Describes (node : RawNode) (relative_path : Text) (needle content : Bytes)
    (found : RawSearchMatch) : Prop where
  node : found.node = node
  relative_path : found.relative_path = relative_path
  ends : found.end_ = found.start + needle.length
  preview : ∃ offset ≤ found.start, found.preview <+: content.drop offset ∧
    found.end_ ≤ offset + found.preview.length ∧
    Occurs needle found.preview (found.start - offset)

/-- The matches are those of the content: one for each occurrence, in order. -/
structure Searched (node : RawNode) (relative_path : Text) (needle content : Bytes)
    (results : List RawSearchMatch) : Prop where
  positions : AllOccurrences needle content (results.map RawSearchMatch.start)
  described : ∀ found ∈ results, Describes node relative_path needle content found

/-- Where the loop is after it has read the front of the content. -/
structure Scanned (node : RawNode) (relative_path : Text) (needle front overlap : Bytes)
    (buffer_base : Nat) (results : List RawSearchMatch) : Prop where
  base : buffer_base = front.length - (needle.length - 1)
  overlap : overlap = front.drop buffer_base
  searched : Searched node relative_path needle front results

section loop

variable {db : Db} {node : RawNode} {relative_path : Text} {needle front overlap chunk : Bytes}
  {generation_id : GenerationId}
variable {buffer_base chunk_index bytes_scanned : Nat} {results : List RawSearchMatch}
  {found : RawSearchMatch}

theorem WithinBudget.of_total {chunks : List Bytes} (hnonempty : ∀ chunk ∈ chunks, chunk ≠ [])
    (h : bytes_scanned + chunks.flatten.length ≤ SEARCH_BYTE_BUDGET) :
    WithinBudget bytes_scanned chunks := by
  intro k hk
  have hlength : (chunks.take k).flatten.length + (chunks.drop k).flatten.length =
      chunks.flatten.length := by
    rw [← List.length_append, ← List.flatten_append, List.take_append_drop]
  have hpos : 0 < (chunks.drop k).flatten.length := by
    rw [List.drop_eq_getElem_cons hk, List.flatten_cons, List.length_append]
    have := List.length_pos_iff.mpr (hnonempty _ (List.getElem_mem hk))
    omega
  omega

theorem Describes.append (h : Describes node relative_path needle front found) (back : Bytes)
    (hstart : found.start ≤ front.length) :
    Describes node relative_path needle (front ++ back) found := by
  refine ⟨h.node, h.relative_path, h.ends, ?_⟩
  obtain ⟨offset, hoffset, hprefix, hends, hoccurs⟩ := h.preview
  refine ⟨offset, hoffset, ?_, hends, hoccurs⟩
  rw [List.drop_append_of_le_length (hoffset.trans hstart)]
  exact hprefix.trans (List.prefix_append _ _)

/-- The match for an occurrence in the buffer describes the content that the buffer is
the end of. -/
theorem buffer_match_describes {content buffer : Bytes} {start : Nat}
    (hbuffer : buffer = content.drop buffer_base) (hoccurs : Occurs needle buffer start)
    (hfits : start + needle.length ≤ buffer.length) :
    Describes node relative_path needle content
      (buffer_match node relative_path needle buffer buffer_base start) := by
  refine ⟨rfl, rfl, rfl, buffer_base + (start - PREVIEW_CONTEXT_BYTES), ?_, ?_, ?_, ?_⟩
  · simp only [buffer_match]
    omega
  · rw [← List.drop_drop, ← hbuffer]
    exact List.take_prefix _ _
  · simp only [buffer_match, List.length_take, List.length_drop]
    omega
  · have hshift : buffer_base + start - (buffer_base + (start - PREVIEW_CONTEXT_BYTES)) =
        start - (start - PREVIEW_CONTEXT_BYTES) := by
      omega
    simp only [buffer_match, hshift]
    rw [occurs_iff_take, List.drop_take, List.drop_drop, List.take_take,
      Nat.min_eq_left (by omega), Nat.add_sub_cancel' (Nat.sub_le start PREVIEW_CONTEXT_BYTES)]
    exact occurs_iff_take.mp hoccurs

/-- One round of the loop. -/
theorem Scanned.step (h : Scanned node relative_path needle front overlap buffer_base results)
    (hneedle : needle ≠ []) (chunk : Bytes) :
    let buffer := overlap ++ chunk
    let next_overlap_start := buffer.length - (needle.length - 1)
    Scanned node relative_path needle (front ++ chunk) (buffer.drop next_overlap_start)
      (buffer_base + next_overlap_start)
      (results ++ (find_all_occurrences buffer needle).map
        (buffer_match node relative_path needle buffer buffer_base)) := by
  have hbase := h.base
  have hbuffer : overlap ++ chunk = (front ++ chunk).drop buffer_base := by
    rw [h.overlap, List.drop_append_of_le_length (by omega)]
  have hall := find_all_occurrences_all (overlap ++ chunk) hneedle
  constructor
  · rw [hbuffer, List.length_drop, List.length_append]
    omega
  · rw [hbuffer, List.drop_drop]
  · constructor
    · rw [List.map_append, List.map_map]
      refine h.searched.positions.append hneedle hbase ?_
      rw [← hbuffer]
      exact hall
    · intro found hfound
      obtain hold | hnew := List.mem_append.mp hfound
      · refine (h.searched.described found hold).append chunk ?_
        have hfits := ((h.searched.positions.exact found.start).mp
          (List.mem_map_of_mem hold)).fits hneedle
        omega
      · obtain ⟨start, hstart, rfl⟩ := List.mem_map.mp hnew
        have hoccurs := (hall.exact start).mp hstart
        exact buffer_match_describes hbuffer hoccurs (hoccurs.fits hneedle)

/-- The loop over the chunks that are left. -/
theorem search_file_loop_searched (hneedle : needle ≠ [])
    (h : Scanned node relative_path needle front overlap buffer_base results) :
    ∃ found, search_file_loop db node relative_path needle generation_id overlap buffer_base chunk_index
          bytes_scanned results =
        (found, bytes_scanned + (scanned_part db generation_id chunk_index bytes_scanned).length) ∧
      Searched node relative_path needle
        (front ++ scanned_part db generation_id chunk_index bytes_scanned) found := by
  induction chunk_index, bytes_scanned using scanned_part.induct db generation_id
    generalizing front overlap buffer_base results with
  | case1 chunk_index bytes_scanned hspent =>
    refine ⟨results, ?_, ?_⟩
    · rw [search_file_loop, scanned_part, if_pos hspent, if_pos hspent]
      rfl
    · rw [scanned_part, if_pos hspent, List.append_nil]
      exact h.searched
  | case2 chunk_index bytes_scanned hlt chunk =>
    rename_i hempty
    refine ⟨results, ?_, ?_⟩
    · rw [search_file_loop, scanned_part, if_neg hlt, if_neg hlt]
      simp only [show fetch_chunk_bytes db generation_id chunk_index = [] from hempty, if_true,
        List.length_nil, Nat.add_zero]
    · rw [scanned_part, if_neg hlt, if_pos hempty, List.append_nil]
      exact h.searched
  | case3 chunk_index bytes_scanned hlt chunk hne =>
    rename_i ih
    obtain ⟨found, hloop, hsearched⟩ := ih (h.step hneedle chunk)
    refine ⟨found, ?_, ?_⟩
    · rw [search_file_loop, scanned_part, if_neg hlt, if_neg hlt, if_neg hne, if_neg hne,
        List.length_append, ← Nat.add_assoc]
      exact hloop
    · rw [scanned_part, if_neg hlt, if_neg hne, ← List.append_assoc]
      exact hsearched

/-- Where the chunks are within the budget the search reads them all. -/
theorem scanned_part_eq {chunks : List Bytes} (hnonempty : ∀ chunk ∈ chunks, chunk ≠ [])
    (hfetch : ∀ i, fetch_chunk_bytes db generation_id (chunk_index + i) = chunks.getD i [])
    (hbudget : WithinBudget bytes_scanned chunks) :
    scanned_part db generation_id chunk_index bytes_scanned = chunks.flatten := by
  induction chunks generalizing chunk_index bytes_scanned with
  | nil =>
    have hempty : fetch_chunk_bytes db generation_id chunk_index = [] := by simpa using hfetch 0
    rw [scanned_part, hempty]
    simp
  | cons chunk chunks ih =>
    have hchunk : fetch_chunk_bytes db generation_id chunk_index = chunk := by simpa using hfetch 0
    have hlt : bytes_scanned < SEARCH_BYTE_BUDGET := by simpa using hbudget 0 (by simp)
    have hne : chunk ≠ [] := hnonempty chunk List.mem_cons_self
    have hrest : ∀ i, fetch_chunk_bytes db generation_id
        (chunk_index + 1 + i) = chunks.getD i [] := by
      intro i
      rw [Nat.add_assoc, Nat.add_comm 1 i, hfetch (i + 1), List.getD_cons_succ]
    have hleft : WithinBudget (bytes_scanned + chunk.length) chunks := by
      intro k hk
      have hnext := hbudget (k + 1) (by simpa using hk)
      rw [List.take_succ_cons, List.flatten_cons, List.length_append] at hnext
      omega
    rw [scanned_part, if_neg (Nat.not_le.mpr hlt)]
    simp only [hchunk, if_neg hne]
    rw [ih (fun c hc => hnonempty c (List.mem_cons_of_mem chunk hc)) hrest hleft, List.flatten_cons]

end loop

/-- The search of a file reports the occurrences in the part of it that is read. -/
theorem search_file_reads (db : Db) (node : RawNode) (relative_path : Text) {needle : Bytes}
    (hneedle : needle ≠ []) (bytes_scanned : Nat) :
    ∃ found, search_file db node relative_path needle bytes_scanned =
        (found, bytes_scanned + (file_part db node bytes_scanned).length) ∧
      Searched node relative_path needle (file_part db node bytes_scanned) found := by
  have hnone : Searched node relative_path needle [] [] := ⟨.nil hneedle, by simp⟩
  unfold search_file file_part
  cases node.content_generation_id with
  | none => exact ⟨[], rfl, hnone⟩
  | some g => exact search_file_loop_searched hneedle ⟨by simp, by simp, hnone⟩

/-- The search of a file reports the occurrences in its whole content. -/
theorem search_file_searches (db : Db) (node : RawNode) (relative_path : Text) (needle : Bytes)
    (hneedle : needle ≠ []) (bytes_scanned : Nat) (chunks : List Bytes)
    (hstored : StoredAs db node chunks) (hbudget : WithinBudget bytes_scanned chunks) :
    ∃ found, search_file db node relative_path needle bytes_scanned =
      (found, bytes_scanned + chunks.flatten.length) ∧
      Searched node relative_path needle chunks.flatten found := by
  have hpart : file_part db node bytes_scanned = chunks.flatten := by
    unfold file_part
    cases hgeneration : node.content_generation_id with
    | none => rw [hstored.generation hgeneration, List.flatten_nil]
    | some g =>
      refine scanned_part_eq hstored.nonempty (fun i => ?_) hbudget
      rw [Nat.zero_add, hstored.stored g hgeneration i]
  rw [← hpart]
  exact search_file_reads db node relative_path hneedle bytes_scanned

/-- A store with one file, in three short chunks. -/
def shortChunks : Db :=
  { Db.empty with content_chunks :=
    ⟨[⟨0, 0, [97, 98]⟩, ⟨0, 1, [97]⟩, ⟨0, 2, [98, 97]⟩], by decide⟩ }

/-- The node of that file. -/
def shortChunksNode : RawNode := ⟨0, 0, none, [], .File, 5, 1, 0, 0, 0, some 0, none⟩

theorem shortChunks_stored : StoredAs shortChunks shortChunksNode [[97, 98], [97], [98, 97]] := by
  refine ⟨by decide, by simp [shortChunksNode], ?_⟩
  rintro _ ⟨⟩ i
  match i with
  | 0 | 1 | 2 => rfl
  | i + 3 => simp [fetch_chunk_bytes, shortChunks, Table.find?]

/-- The needle is longer than each chunk, and its two occurrences overlap. -/
theorem short_chunks_searched :
    ∃ found, search_file shortChunks shortChunksNode [] [97, 98, 97] 0 = (found, 5) ∧
    found.map RawSearchMatch.start = [0, 2] := by
  obtain ⟨found, hfile, hsearched⟩ :=
    search_file_searches shortChunks shortChunksNode [] [97, 98, 97] (by decide) 0 _
    shortChunks_stored (.of_total shortChunks_stored.nonempty (by decide))
  refine ⟨found, hfile, hsearched.positions.unique ?_⟩
  exact find_all_occurrences_all [97, 98, 97, 98, 97] (by decide)

end search

/-- The bounded literal byte matches in regular files. -/
def SqliteFileSystem.search_content (rt : Runtime) (cursors : SqliteFileSystem.Cursors)
    (ctx : RequestContext) (db : Db) (query : ContentQuery) (page : PageRequest) :
    FsResult (Page SearchMatch) := do
  require_read ctx (uuid_text ctx.workspace_id)
  search.search_content rt cursors.search db ctx.workspace_id query page

end fslite
