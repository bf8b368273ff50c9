import Fslite.Sqlite.ContentSearch

namespace fslite

namespace search

open content

/-- One past the largest index of a chunk. -/
def chunk_end (db : Db) : Nat := (db.content_chunks.rows.map (fun c => c.chunk_index + 1)).foldr max 0

/-- The chunks of a generation by their indices, those that are missing as empty ones. -/
def chunk_slots (db : Db) (generation_id : GenerationId) : List Bytes :=
  (List.range (chunk_end db)).map (fetch_chunk_bytes db generation_id)

/-- The chunks of a node's content, if it is a file. -/
def file_chunks (db : Db) (node : RawNode) : List Bytes :=
  if node.kind = .File then (node.content_generation_id.map (chunk_slots db)).getD [] else []

/-- The chunks that a search reads once it has scanned so many bytes: up to one that is
missing, as far as the byte budget goes. -/
def chunks_within : Nat → List Bytes → List Bytes
  | _, [] => []
  | bytes_scanned, chunk :: rest =>
    if SEARCH_BYTE_BUDGET ≤ bytes_scanned ∨ chunk = [] then []
    else chunk :: chunks_within (bytes_scanned + chunk.length) rest

/-- Whether pages of at most `limit` matches end between files: no page has to leave out
occurrences of a file that it has begun. The numbers are those of the matches that are already
on the page, of the bytes that it has scanned, and of the rows that it may still look at. -/
def PagesFit (needle : Bytes) (limit : Nat) : List (List Bytes) → Nat → Nat → Nat → Prop
  | [], _, _, _ => True
  | chunks :: rest, found, bytes_scanned, rows_left =>
    let positions := find_all_occurrences chunks.flatten needle
    let part := (chunks_within bytes_scanned chunks).flatten
    (∀ i ∈ positions, i + needle.length ≤ part.length) ∧ found + positions.length ≤ limit ∧
      if limit ≤ found + positions.length ∨ SEARCH_BYTE_BUDGET ≤ bytes_scanned + part.length ∨
          rows_left ≤ 1 then
        PagesFit needle limit rest 0 0 WORK_BUDGET
      else PagesFit needle limit rest (found + positions.length) (bytes_scanned + part.length)
        (rows_left - 1)

instance PagesFit.decidable (needle : Bytes) (limit : Nat) :
    ∀ (files : List (List Bytes)) (found bytes_scanned rows_left : Nat),
      Decidable (PagesFit needle limit files found bytes_scanned rows_left)
  | [], _, _, _ => .isTrue trivial
  | chunks :: rest, found, bytes_scanned, rows_left =>
    let positions := find_all_occurrences chunks.flatten needle
    let part := (chunks_within bytes_scanned chunks).flatten
    have := PagesFit.decidable needle limit rest 0 0 WORK_BUDGET
    have := PagesFit.decidable needle limit rest (found + positions.length)
      (bytes_scanned + part.length) (rows_left - 1)
    inferInstanceAs (Decidable ((∀ i ∈ positions, i + needle.length ≤ part.length) ∧
      found + positions.length ≤ limit ∧ ite _ _ _))

/-- What the pages report from a row on, page after page. -/
def reported (db : Db) (needle : Bytes) (limit : Nat) :
    List Descendant → Nat → Nat → Nat → List RawSearchMatch
  | [], _, _, _ => []
  | row :: rest, found, bytes_scanned, rows_left =>
    let (file_matches, bytes_scanned) := row_matches db needle row bytes_scanned
    let kept := file_matches.take (limit - found)
    if limit ≤ found + file_matches.length ∨ SEARCH_BYTE_BUDGET ≤ bytes_scanned ∨ rows_left ≤ 1 then
      kept ++ reported db needle limit rest 0 0 WORK_BUDGET
    else kept ++ reported db needle limit rest (found + file_matches.length) bytes_scanned
      (rows_left - 1)

section parts

variable {db : Db} {node : RawNode} {needle : Bytes} {g : GenerationId} {bytes_scanned : Nat}

theorem chunks_within_append (bytes_scanned : Nat) (chunks : List Bytes) :
    ∃ left, chunks.flatten = (chunks_within bytes_scanned chunks).flatten ++ left := by
  induction chunks generalizing bytes_scanned with
  | nil => exact ⟨[], rfl⟩
  | cons chunk rest ih =>
    rw [chunks_within]
    split
    · exact ⟨_, rfl⟩
    · obtain ⟨left, hleft⟩ := ih (bytes_scanned + chunk.length)
      exact ⟨left, by rw [List.flatten_cons, List.flatten_cons, List.append_assoc, ← hleft]⟩

/-- From a place on that has nothing stored beyond the given number of places, a search reads
the chunks in these places. -/
theorem scanned_part_slots {n : Nat} {i : Nat} (hend : fetch_chunk_bytes db g (i + n) = []) :
    scanned_part db g i bytes_scanned = (chunks_within bytes_scanned
      ((List.range' i n).map (fetch_chunk_bytes db g))).flatten := by
  induction n generalizing i bytes_scanned with
  | zero =>
    rw [scanned_part]
    simp only [show fetch_chunk_bytes db g i = [] from hend, if_true, ite_self]
    rfl
  | succ n ih =>
    rw [scanned_part, List.range'_succ, List.map_cons, chunks_within]
    by_cases hspent : SEARCH_BYTE_BUDGET ≤ bytes_scanned
    · rw [if_pos hspent, if_pos (Or.inl hspent)]
      rfl
    · rw [if_neg hspent]
      by_cases hempty : fetch_chunk_bytes db g i = []
      · rw [if_pos (Or.inr hempty)]
        simp only [hempty, if_true]
        rfl
      · rw [if_neg (not_or.mpr ⟨hspent, hempty⟩), List.flatten_cons]
        simp only [hempty, if_false]
        rw [ih (by rw [Nat.add_right_comm]; exact hend)]

theorem lt_chunk_end {rows : List ChunkRow} {c : ChunkRow} (hc : c ∈ rows) :
    c.chunk_index < (rows.map (fun c => c.chunk_index + 1)).foldr max 0 := by
  induction rows with
  | nil => cases hc
  | cons first rest ih =>
    rw [List.map_cons, List.foldr_cons]
    obtain rfl | hc := List.mem_cons.mp hc
    · exact Nat.lt_of_lt_of_le (Nat.lt_succ_self _) (Nat.le_max_left _ _)
    · exact (ih hc).trans_le (Nat.le_max_right _ _)

theorem fetch_chunk_end (db : Db) (g : GenerationId) : fetch_chunk_bytes db g (chunk_end db) = [] := by
  have hnone : db.content_chunks.find? (g, chunk_end db) = none := by
    refine Table.find?_eq_none.mpr (fun c hc hkey => ?_)
    exact (lt_chunk_end hc).ne (congrArg Prod.snd hkey)
  unfold fetch_chunk_bytes
  rw [hnone]
  rfl

/-- The search of a row reports the occurrences in the chunks that it reads. -/
theorem row_matches_reads (db : Db) (hneedle : needle ≠ []) (row : Descendant)
    (bytes_scanned : Nat) :
    ∃ found, row_matches db needle row bytes_scanned = (found, bytes_scanned +
        (chunks_within bytes_scanned (file_chunks db row.node)).flatten.length) ∧
      Searched row.node row.relative_path needle
        (chunks_within bytes_scanned (file_chunks db row.node)).flatten found := by
  unfold row_matches file_chunks
  by_cases hkind : row.node.kind = .File
  · rw [if_pos hkind, if_pos hkind]
    have hpart : file_part db row.node bytes_scanned = (chunks_within bytes_scanned
        ((row.node.content_generation_id.map (chunk_slots db)).getD [])).flatten := by
      unfold file_part
      cases row.node.content_generation_id with
      | none => rfl
      | some g =>
        simp only [Option.map_some, Option.getD_some, chunk_slots, List.range_eq_range']
        exact scanned_part_slots (by rw [Nat.zero_add]; exact fetch_chunk_end db g)
    rw [← hpart]
    exact search_file_reads db row.node row.relative_path hneedle bytes_scanned
  · rw [if_neg hkind, if_neg hkind]
    exact ⟨[], rfl, .nil hneedle, fun found hfound => by cases hfound⟩

end parts

section reports

variable {db : Db} {needle : Bytes} {limit : Nat} {row : Descendant}

/-- Where a match is. -/
def RawSearchMatch.place (found : RawSearchMatch) : NodeId × ByteRange :=
  (found.node.id, ⟨found.start, found.end_⟩)

theorem take_matches_eq {taken : List RawSearchMatch} (htaken : taken.length < limit)
    (file_matches : List RawSearchMatch) : take_matches limit file_matches taken =
      (taken ++ file_matches.take (limit - taken.length),
        decide (limit ≤ taken.length + file_matches.length)) := by
  induction file_matches generalizing taken with
  | nil =>
    rw [take_matches, List.take_nil, List.append_nil, List.length_nil, Nat.add_zero,
      decide_eq_false (Nat.not_le.mpr htaken)]
  | cons found rest ih =>
    have hlength : (taken ++ [found]).length = taken.length + 1 := by simp
    obtain ⟨left, hleft⟩ : ∃ left, limit - taken.length = left + 1 := ⟨_, (Nat.sub_add_cancel
      (Nat.sub_pos_of_lt htaken)).symm⟩
    rw [take_matches, hlength, hleft, List.take_succ_cons, List.length_cons]
    by_cases hfull : limit ≤ taken.length + 1
    · have hzero : left = 0 := by omega
      rw [if_pos hfull, hzero, List.take_zero, decide_eq_true (by omega)]
    · rw [if_neg hfull, ih (by rw [hlength]; omega), hlength, List.append_assoc,
        List.singleton_append]
      refine Prod.ext ?_ (decide_eq_decide.mpr (by omega))
      rw [show limit - (taken.length + 1) = left by omega]

theorem reported_cons {file_matches : List RawSearchMatch} {bytes_scanned scanned : Nat}
    (hrow : row_matches db needle row bytes_scanned = (file_matches, scanned))
    (found rows_left : Nat) (rest : List Descendant) :
    reported db needle limit (row :: rest) found bytes_scanned rows_left =
      file_matches.take (limit - found) ++
        if limit ≤ found + file_matches.length ∨ SEARCH_BYTE_BUDGET ≤ scanned ∨ rows_left ≤ 1 then
          reported db needle limit rest 0 0 WORK_BUDGET
        else reported db needle limit rest (found + file_matches.length) scanned (rows_left - 1) := by
  rw [reported, hrow]
  dsimp only
  split <;> rfl

/-- What is reported of the rows after a row is what would be reported of them alone, on a page
that has been begun. -/
theorem exists_reported_cons {file_matches : List RawSearchMatch} {bytes_scanned scanned : Nat}
    (hrow : row_matches db needle row bytes_scanned = (file_matches, scanned))
    (found rows_left : Nat) (rest : List Descendant) :
    ∃ found' scanned' rows_left', reported db needle limit (row :: rest) found bytes_scanned rows_left =
      file_matches.take (limit - found) ++
        reported db needle limit rest found' scanned' rows_left' := by
  rw [reported_cons hrow]
  split
  · exact ⟨_, _, _, rfl⟩
  · exact ⟨_, _, _, rfl⟩

/-- A match that is reported is an occurrence in a row. -/
theorem reported_sound (hneedle : needle ≠ []) {rows : List Descendant}
    {found bytes_scanned rows_left : Nat} {f : RawSearchMatch}
    (hf : f ∈ reported db needle limit rows found bytes_scanned rows_left) :
    ∃ row ∈ rows, f.node = row.node ∧ f.relative_path = row.relative_path ∧
      f.end_ = f.start + needle.length ∧
      Occurs needle (file_chunks db row.node).flatten f.start := by
  induction rows generalizing found bytes_scanned rows_left with
  | nil => cases hf
  | cons row rest ih =>
    obtain ⟨file_matches, hrow, hsearched⟩ := row_matches_reads db hneedle row bytes_scanned
    obtain ⟨_, _, _, hcons⟩ := exists_reported_cons hrow found rows_left rest
    rw [hcons] at hf
    obtain hkept | hrest := List.mem_append.mp hf
    · have hmem := List.mem_of_mem_take hkept
      obtain ⟨hnode, hpath, hends, _⟩ := hsearched.described f hmem
      have hoccurs := (hsearched.positions.exact f.start).mp (List.mem_map_of_mem hmem)
      obtain ⟨left, hleft⟩ := chunks_within_append bytes_scanned (file_chunks db row.node)
      refine ⟨row, List.mem_cons_self, hnode, hpath, hends, ?_⟩
      rw [hleft]
      exact (occurs_append (hoccurs.fits hneedle)).mpr hoccurs
    · obtain ⟨row', hrow', h⟩ := ih hrest
      exact ⟨row', List.mem_cons_of_mem row hrow', h⟩

/-- No occurrence is reported twice. -/
theorem reported_once (hneedle : needle ≠ []) {rows : List Descendant}
    (hids : (rows.map (fun row => row.node.id)).Nodup) (found bytes_scanned rows_left : Nat) :
    ((reported db needle limit rows found bytes_scanned rows_left).map
      RawSearchMatch.place).Nodup := by
  induction rows generalizing found bytes_scanned rows_left with
  | nil => exact .nil
  | cons row rest ih =>
    obtain ⟨hnew, hrest⟩ := List.nodup_cons.mp hids
    obtain ⟨file_matches, hrow, hsearched⟩ := row_matches_reads db hneedle row bytes_scanned
    obtain ⟨_, _, _, hcons⟩ := exists_reported_cons hrow found rows_left rest
    rw [hcons, List.map_append]
    refine List.Nodup.append ?_ (ih hrest _ _ _) (fun p hp hp' => ?_)
    · have hstarts : ((file_matches.take (limit - found)).map RawSearchMatch.start).Nodup := by
        rw [List.map_take]
        exact (hsearched.positions.increasing.imp ne_of_lt).sublist (List.take_sublist _ _)
      refine List.Nodup.of_map (fun p : NodeId × ByteRange => p.2.start) ?_
      rwa [List.map_map]
    · -- a match of a later row is in another node
      obtain ⟨f, hf, rfl⟩ := List.mem_map.mp hp
      obtain ⟨f', hf', hplace⟩ := List.mem_map.mp hp'
      have hnode := (hsearched.described f (List.mem_of_mem_take hf)).node
      obtain ⟨row', hrow', hnode', _⟩ := reported_sound hneedle hf'
      have hid : f'.node.id = f.node.id := congrArg Prod.fst hplace
      rw [hnode', hnode] at hid
      exact hnew (List.mem_map.mpr ⟨row', hrow', hid⟩)

/-- Where the part that is read holds the occurrences, all of them are found. -/
theorem positions_eq (hneedle : needle ≠ []) {content part left : Bytes}
    (hcontent : content = part ++ left) {node : RawNode} {relative_path : Text}
    {file_matches : List RawSearchMatch}
    (hsearched : Searched node relative_path needle part file_matches)
    (hwithin : ∀ i ∈ find_all_occurrences content needle, i + needle.length ≤ part.length) :
    find_all_occurrences content needle = file_matches.map RawSearchMatch.start := by
  have hall := find_all_occurrences_all content hneedle
  refine hall.unique ⟨hsearched.positions.increasing, fun i => ?_⟩
  rw [hsearched.positions.exact]
  constructor
  · intro hi
    rw [hcontent]
    exact (occurs_append (hi.fits hneedle)).mpr hi
  · intro hi
    have hfits := hwithin i ((hall.exact i).mpr hi)
    rw [hcontent] at hi
    exact (occurs_append hfits).mp hi

/-- The occurrences in a file are all kept exactly if they lie in the part that is read and
there is room for them on the page. -/
theorem kept_all_iff (hneedle : needle ≠ []) {content part left : Bytes}
    (hcontent : content = part ++ left) {node : RawNode} {relative_path : Text}
    {file_matches : List RawSearchMatch}
    (hsearched : Searched node relative_path needle part file_matches) {found : Nat}
    (hfound : found < limit) :
    (∀ i, Occurs needle content i →
      i ∈ (file_matches.take (limit - found)).map RawSearchMatch.start) ↔
      (∀ i ∈ find_all_occurrences content needle, i + needle.length ≤ part.length) ∧
      found + (find_all_occurrences content needle).length ≤ limit := by
  have hall := find_all_occurrences_all content hneedle
  constructor
  · intro h
    constructor
    · intro i hi
      have hkept := h i ((hall.exact i).mp hi)
      rw [List.map_take] at hkept
      exact ((hsearched.positions.exact i).mp (List.mem_of_mem_take hkept)).fits hneedle
    · have hsubset : find_all_occurrences content needle ⊆
          (file_matches.take (limit - found)).map RawSearchMatch.start :=
        fun i hi => h i ((hall.exact i).mp hi)
      have hnodup : (find_all_occurrences content needle).Nodup := hall.increasing.imp ne_of_lt
      have hle := (hnodup.subperm hsubset).length_le
      rw [List.length_map, List.length_take] at hle
      omega
  · rintro ⟨hwithin, hroom⟩ i hi
    have hsame := positions_eq hneedle hcontent hsearched hwithin
    have hlength := congrArg List.length hsame
    rw [List.length_map] at hlength
    rw [List.take_of_length_le (by omega), ← hsame]
    exact (hall.exact i).mpr hi

/-- Where the matches of a row are apart from those of the later rows, each tells of its own. -/
theorem complete_cons {rest : List Descendant} {kept later : List RawSearchMatch}
    (hother : ∀ row' ∈ rest, row'.node ≠ row.node) (hkept : ∀ f ∈ kept, f.node = row.node)
    (hlater : ∀ f ∈ later, ∃ row' ∈ rest, f.node = row'.node) :
    (∀ row' ∈ row :: rest, ∀ i, Occurs needle (file_chunks db row'.node).flatten i →
      ∃ f ∈ kept ++ later, f.node = row'.node ∧ f.start = i) ↔
      (∀ i, Occurs needle (file_chunks db row.node).flatten i →
        i ∈ kept.map RawSearchMatch.start) ∧
      ∀ row' ∈ rest, ∀ i, Occurs needle (file_chunks db row'.node).flatten i →
        ∃ f ∈ later, f.node = row'.node ∧ f.start = i := by
  constructor
  · intro h
    refine ⟨fun i hi => ?_, fun row' hrow' i hi => ?_⟩
    · obtain ⟨f, hf, hnode, rfl⟩ := h row List.mem_cons_self i hi
      obtain hf | hf := List.mem_append.mp hf
      · exact List.mem_map_of_mem hf
      · obtain ⟨row', hrow', hnode'⟩ := hlater f hf
        exact absurd (hnode'.symm.trans hnode) (hother row' hrow')
    · obtain ⟨f, hf, hnode, hstart⟩ := h row' (List.mem_cons_of_mem row hrow') i hi
      obtain hf | hf := List.mem_append.mp hf
      · exact absurd (hnode.symm.trans (hkept f hf)) (hother row' hrow')
      · exact ⟨f, hf, hnode, hstart⟩
  · rintro ⟨hrow, hrest⟩ row' hrow' i hi
    obtain rfl | hrow' := List.mem_cons.mp hrow'
    · obtain ⟨f, hf, hstart⟩ := List.mem_map.mp (hrow i hi)
      exact ⟨f, List.mem_append_left later hf, hkept f hf, hstart⟩
    · obtain ⟨f, hf, hnode, hstart⟩ := hrest row' hrow' i hi
      exact ⟨f, List.mem_append_right kept hf, hnode, hstart⟩

/-- Nothing is left out exactly if every page ends between files. -/
theorem reported_all_iff (hneedle : needle ≠ []) {rows : List Descendant}
    (hids : (rows.map (fun row => row.node.id)).Nodup) {found bytes_scanned rows_left : Nat}
    (hfound : found < limit) :
    (∀ row ∈ rows, ∀ i, Occurs needle (file_chunks db row.node).flatten i →
      ∃ f ∈ reported db needle limit rows found bytes_scanned rows_left,
        f.node = row.node ∧ f.start = i) ↔
      PagesFit needle limit (rows.map (fun row => file_chunks db row.node)) found bytes_scanned
        rows_left := by
  induction rows generalizing found bytes_scanned rows_left with
  | nil => exact iff_of_true (fun row hrow => by cases hrow) trivial
  | cons row rest ih =>
    obtain ⟨hnew, hrest⟩ := List.nodup_cons.mp hids
    obtain ⟨file_matches, hrow, hsearched⟩ := row_matches_reads db hneedle row bytes_scanned
    obtain ⟨left, hleft⟩ := chunks_within_append bytes_scanned (file_chunks db row.node)
    have hkept := kept_all_iff hneedle hleft hsearched hfound
    rw [reported_cons hrow]
    refine (complete_cons (fun row' hrow' hnode => hnew (List.mem_map.mpr
      ⟨row', hrow', congrArg RawNode.id hnode⟩)) (fun f hf =>
        (hsearched.described f (List.mem_of_mem_take hf)).node) (fun f hf => ?_)).trans ?_
    · split at hf
      · obtain ⟨row', hrow', hnode, _⟩ := reported_sound hneedle hf
        exact ⟨row', hrow', hnode⟩
      · obtain ⟨row', hrow', hnode, _⟩ := reported_sound hneedle hf
        exact ⟨row', hrow', hnode⟩
    · rw [List.map_cons, PagesFit, ← and_assoc, ← hkept]
      refine and_congr_right (fun hall => ?_)
      obtain ⟨hwithin, hroom⟩ := hkept.mp hall
      have hcount := congrArg List.length (positions_eq hneedle hleft hsearched hwithin)
      rw [List.length_map] at hcount
      rw [hcount] at hroom ⊢
      split
      · exact ih hrest (Nat.lt_of_le_of_lt (Nat.zero_le _) hfound)
      · rename_i hgoes
        exact ih hrest (Nat.lt_of_not_le (fun hle => hgoes (Or.inl hle)))

end reports

end search

end fslite
