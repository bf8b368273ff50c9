import Fslite.Sqlite.Run.Discard
import Fslite.Sqlite.Run.Failure
import Fslite.Sqlite.Run.Pages

namespace fslite

/-- Numbers of some digits are told apart by them. -/
theorem eq_of_digits {width n m : Nat} (hn : n < 16 ^ width) (hm : m < 16 ^ width)
    (hdigits : ∀ i < width, n / 16 ^ i % 16 = m / 16 ^ i % 16) : n = m := by
  induction width generalizing n m with
  | zero =>
    rw [Nat.pow_zero] at hn hm
    omega
  | succ width ih =>
    have hlast := hdigits 0 (Nat.succ_pos width)
    rw [Nat.pow_zero, Nat.div_one, Nat.div_one] at hlast
    rw [Nat.pow_succ] at hn hm
    have hfront : n / 16 = m / 16 := by
      refine ih (by omega) (by omega) (fun i hi => ?_)
      have hdigit := hdigits (i + 1) (by omega)
      rwa [Nat.pow_succ', ← Nat.div_div_eq_div_mul, ← Nat.div_div_eq_div_mul] at hdigit
    omega

theorem hex_inj {width n m : Nat} (hn : n < 16 ^ width) (hm : m < 16 ^ width)
    (h : hex width n = hex width m) : n = m := by
  have hdigitChar : ∀ a < 16, ∀ b < 16, Nat.digitChar a = Nat.digitChar b → a = b := by decide
  refine eq_of_digits hn hm (fun i hi => hdigitChar _ (Nat.mod_lt _ (by omega)) _
    (Nat.mod_lt _ (by omega)) ?_)
  have hmem : width - 1 - i ∈ List.range width := List.mem_range.mpr (by omega)
  have hdigit := List.map_inj_left.mp h _ hmem
  rwa [show width - 1 - (width - 1 - i) = i by omega] at hdigit

theorem uuid_text_inj {a b : Uuid} (ha : a < 2 ^ 128) (hb : b < 2 ^ 128)
    (h : uuid_text a = uuid_text b) : a = b := by
  have hdigits (id : Uuid) : (uuid_text id).filter (fun c => c ≠ '-') = hex 32 id := by
    have hhex : ∀ c ∈ hex 32 id, c ≠ '-' := by
      have hdigit : ∀ n < 16, Nat.digitChar n ≠ '-' := by decide
      intro c hc
      obtain ⟨i, _, rfl⟩ := List.mem_map.mp hc
      exact hdigit _ (Nat.mod_lt _ (by omega))
    have hpart (n k : Nat) : ((hex 32 id).drop n).take k ++ (hex 32 id).drop
        (n + k) = (hex 32 id).drop n := by
      rw [← List.drop_drop, List.take_append_drop]
    have hkept (n k : Nat) : (((hex 32 id).drop n).take k).filter
        (fun c => c ≠ '-') = ((hex 32 id).drop n).take k := by
      apply List.filter_eq_self.mpr
      intro c hc
      exact decide_eq_true (hhex c (List.mem_of_mem_drop (List.mem_of_mem_take hc)))
    have hlast : ((hex 32 id).drop 20).filter (fun c => c ≠ '-') = (hex 32 id).drop 20 := by
      apply List.filter_eq_self.mpr
      intro c hc
      exact decide_eq_true (hhex c (List.mem_of_mem_drop hc))
    have hfirst := hkept 0 8
    rw [List.drop_zero] at hfirst
    have hhyphen (part : Text) :
      ('-' :: part).filter (fun c => c ≠ '-') = part.filter (fun c => c ≠ '-') := rfl
    have hzero := hpart 0 8
    rw [List.drop_zero] at hzero
    simp only [uuid_text, List.filter_append, hhyphen, hkept, hfirst, hlast, List.append_assoc,
      hpart 16 4, hpart 12 4, hpart 8 4]
    exact hzero
  have hpow : 2 ^ 128 = 16 ^ 32 := by decide
  exact hex_inj (ha.trans_eq hpow) (hb.trans_eq hpow) (by rw [← hdigits a, h, hdigits b])

namespace showcase

/-- A value that is read from a JSON text. -/
inductive Data where
  | null
  | boolean (value : Bool)
  | number (value : Int)
  | string (value : Text)
  | array (items : List Data)
  | object (fields : List (Text × Data))
  | verbatim (json : Text)

/-- A character in a string, as `serde_json` writes it. -/
def escape_char (c : Char) : Text :=
  if c = '"' ∨ c = '\\' then ['\\', c]
  else if c.toNat = 8 then ['\\', 'b']
  else if c.toNat = 9 then ['\\', 't']
  else if c.toNat = 10 then ['\\', 'n']
  else if c.toNat = 12 then ['\\', 'f']
  else if c.toNat = 13 then ['\\', 'r']
  else if c.toNat < 32 then ['\\', 'u', '0', '0'] ++ hex 2 c.toNat
  else [c]

def json_string (text : Text) : Text := '"' :: text.flatMap escape_char ++ ['"']

def json_number (value : Int) : Text :=
  if value < 0 then '-' :: decimal value.natAbs else decimal value.natAbs

mutual

/-- The compact text of a value. -/
def Data.json : Data → Text
  | .null => "null".toList
  | .boolean value => if value then "true".toList else "false".toList
  | .number value => json_number value
  | .string value => json_string value
  | .array items => '[' :: [','].intercalate (jsonItems items) ++ [']']
  | .object fields => "\x7b".toList ++ [','].intercalate (jsonFields fields) ++ "\x7d".toList
  | .verbatim json => json

def Data.jsonItems : List Data → List Text
  | [] => []
  | item :: rest => item.json :: jsonItems rest

def Data.jsonFields : List (Text × Data) → List Text
  | [] => []
  | (name, value) :: rest => (json_string name ++ ':' :: value.json) :: jsonFields rest

end

/-- The value of a field, where there is an object that has it. -/
def Data.field (name : Text) : Data → Option Data
  | .object fields => fields.lookup name
  | _ => none

/-- The text of a value that is one. -/
def Data.text : Data → Option Text
  | .string value => some value
  | _ => none

/-- The loop of `trashEntryName`: the first entry with the identifier decides. -/
def entryName (trashId : Text) : List Data → Option Text
  | [] => none
  | entry :: rest =>
    if (entry.field "id".toList).bind Data.text ≠ some trashId then entryName trashId rest
    else ((entry.field "node".toList).bind (Data.field "name".toList)).bind Data.text

def trashEntryName (data : Data) (trashId : Text) : Option Text :=
  match data.field "items".toList with
  | some (.array items) => entryName trashId items
  | _ => none

def kind_data : NodeKind → Data
  | .Directory => .string "directory".toList
  | .File => .string "file".toList
  | .Symlink => .string "symlink".toList

def node_data (node : Node) : Data :=
  .object [("workspace_id".toList, .string (uuid_text node.workspace_id)),
    ("id".toList, .string (uuid_text node.id)),
    ("parent_id".toList, node.parent_id.elim .null (fun id => .string (uuid_text id))),
    ("name".toList, .string node.name),
    ("kind".toList, kind_data node.kind),
    ("logical_size".toList, .number node.logical_size),
    ("created_at_ms".toList, .number node.created_at_ms),
    ("modified_at_ms".toList, .number node.modified_at_ms),
    ("accessed_at_ms".toList, .number node.accessed_at_ms),
    ("revision".toList, .number node.revision.get),
    ("attributes".toList,
      .object (node.attributes.map (fun (key, value) => (key, .string value))))]

def trash_entry_data (entry : TrashEntry) : Data :=
  .object [("id".toList, .string (uuid_text entry.id)),
    ("node".toList, node_data entry.node),
    ("original_path".toList, .string entry.original_path.as_str),
    ("trashed_at_ms".toList, .number entry.trashed_at_ms),
    ("actor_metadata".toList,
      .object (entry.actor_metadata.map (fun (key, value) => (key, .verbatim value))))]

def trash_page_data (page : Page TrashEntry) : Data :=
  .object [("items".toList, .array (page.items.map trash_entry_data)),
    ("next_cursor".toList, page.next_cursor.elim .null .string)]

def PAGE_LIMIT : Nat := 250
def MAX_JSON_RESPONSE_BYTES : Nat := 1024 * 1024

/-- Why a request of the client fails. -/
inductive RequestError where
  | UpstreamApiError (error : FsError)
  | UpstreamResponseTooLargeError (limitBytes : Nat)
  deriving DecidableEq

section purge

-- How the upstream answers the requests for its trash.
variable (upstream : PageRequest → FsResult (Page TrashEntry))

/-- The client reads an answer of at most so many bytes. -/
def listTrash : Except RequestError Data :=
  match upstream ⟨none, PAGE_LIMIT⟩ with
  | .error error => .error (.UpstreamApiError error)
  | .ok page =>
    if MAX_JSON_RESPONSE_BYTES < utf8_len (trash_page_data page).json then
      .error (.UpstreamResponseTooLargeError MAX_JSON_RESPONSE_BYTES)
    else .ok (trash_page_data page)

/-- What becomes of a request to purge. -/
inductive Purge where
  | Forwarded (trashId : Text)
  | NotConfirmed
  | ListingFailed (error : RequestError)
  deriving DecidableEq

def purge (trashId confirmedName : Text) : Purge :=
  match listTrash upstream with
  | .error error => .ListingFailed error
  | .ok listing =>
    match trashEntryName listing trashId with
    | none => .NotConfirmed
    | some name => if name ≠ confirmedName then .NotConfirmed else .Forwarded trashId

/-- The first page of the trash is an answer that the client reads. -/
def FirstPageFits : Prop := ∀ page, upstream ⟨none, PAGE_LIMIT⟩ = .ok page →
  utf8_len (trash_page_data page).json ≤ MAX_JSON_RESPONSE_BYTES

end purge

theorem entryName_eq_some {entries : List TrashEntry} {trashId name : Text}
    (hdistinct : (entries.map (fun e => uuid_text e.id)).Nodup) :
    entryName trashId (entries.map trash_entry_data) = some name ↔
      ∃ e ∈ entries, uuid_text e.id = trashId ∧ e.node.name = name := by
  induction entries with
  | nil => simp [entryName]
  | cons entry rest ih =>
    obtain ⟨hfirst, hrest⟩ := List.nodup_cons.mp hdistinct
    have hid : ((trash_entry_data entry).field "id".toList).bind Data.text =
      some (uuid_text entry.id) := rfl
    have hname : ((((trash_entry_data entry).field "node".toList).bind
      (Data.field "name".toList)).bind Data.text) =
        some entry.node.name := rfl
    rw [List.map_cons, entryName, hid, hname]
    by_cases hthis : uuid_text entry.id = trashId
    · rw [if_neg (by simpa using hthis), Option.some.injEq]
      constructor
      · intro h
        exact ⟨entry, List.mem_cons_self, hthis, h⟩
      · rintro ⟨e, he, hide, h⟩
        rcases List.mem_cons.mp he with rfl | he
        · exact h
        · exact absurd (List.mem_map.mpr ⟨e, he, hide.trans hthis.symm⟩) hfirst
    · rw [if_pos (by simpa using hthis), ih hrest]
      simp only [List.mem_cons, exists_eq_or_imp, hthis, false_and, false_or]

/-- A record of the workspace's trash has the identifier, and its node has the name. -/
def Confirmed (rt : Runtime) (ws : WorkspaceId) (db : Db) (trashId confirmedName : Text)
    (e : TrashEntry) : Prop :=
  trash.ListsTrash rt ws db e ∧ uuid_text e.id = trashId ∧ e.node.name = confirmedName

/-- The number of records in front of an identifier, in the order of the listing. -/
def recordsBefore (db : Db) (ws : WorkspaceId) (id : TrashId) : Nat :=
  ((trash.records db ws).filter (fun t => t.id < id)).length

variable {rt : Runtime} {cursors : SqliteFileSystem.Cursors} {ctx : RequestContext} {w : World}

theorem cut_front {A : Type} (limit : Nat) (rows : List A) :
    (cut limit (rows.take (limit + 1))).1 = rows.take limit := by
  unfold cut
  split
  case isTrue => rw [List.take_take, min_eq_left (Nat.le_succ limit)]
  case isFalse h =>
    rw [List.length_take] at h
    rw [List.take_of_length_le (by omega), List.take_of_length_le (by omega)]

/-- What the first page lists. -/
theorem mem_first_page (hread : ctx.has_capability .Read = true) (hreach : Reachable rt w) :
    ∃ page, SqliteFileSystem.list_trash rt cursors ctx w.db ⟨none, PAGE_LIMIT⟩ = .ok page ∧
      (page.items.map TrashEntry.id).Nodup ∧
      ∀ e, e ∈ page.items ↔ trash.ListsTrash rt ctx.workspace_id w.db e ∧
        recordsBefore w.db ctx.workspace_id e.id < PAGE_LIMIT := by
  have hentry : ∀ t ∈ (trash.records w.db ctx.workspace_id).take PAGE_LIMIT, ∃ e,
      trash.entry rt w.db ctx.workspace_id t = .ok e := by
    intro t ht
    obtain ⟨ht, hws⟩ := trash.mem_records.mp (List.mem_of_mem_take ht)
    rw [← hws]
    exact trash.entry_ok hreach ht
  obtain ⟨items, hitems⟩ := FsResult.mapM_ok hentry
  have hshown := FsResult.mapM_eq_ok.mp hitems
  refine ⟨⟨items, _⟩, (((trash.list_trash_keyset rt cursors ctx PAGE_LIMIT).method_eq_ok w.db none _).mpr
    ⟨hread, none, .inl ⟨rfl, rfl⟩, _, rfl, ?_, rfl⟩), ?_, fun e => ?_⟩
  · rw [cut_front]
    exact hitems
  · have hids : items.map TrashEntry.id =
        ((trash.records w.db ctx.workspace_id).take PAGE_LIMIT).map TrashRow.id := by
      rw [eq_comm, ← List.forall₂_eq_eq_eq, List.forall₂_map_left_iff, List.forall₂_map_right_iff]
      exact hshown.imp (fun t e he => (trash.entry_id he).symm)
    rw [hids]
    have hascending := trash.records_ascending w.db ctx.workspace_id
    exact (List.pairwise_map.mpr ((hascending.sublist (List.take_sublist _ _)).imp ne_of_lt))
  · have htaken (t : TrashRow) :=
      Paging.mem_take_iff (trash.records_ascending w.db ctx.workspace_id) (n := PAGE_LIMIT) (a := t)
    constructor
    · intro he
      obtain ⟨t, ht, hte⟩ := Paging.exists_shown_right hshown e he
      obtain ⟨ht, hbefore⟩ := (htaken t).mp ht
      obtain ⟨ht, hws⟩ := trash.mem_records.mp ht
      rw [← trash.entry_id hte] at hbefore
      exact ⟨⟨t, ht, hws, hte⟩, hbefore⟩
    · rintro ⟨⟨t, ht, hws, hte⟩, hbefore⟩
      rw [trash.entry_id hte] at hbefore
      obtain ⟨e', he', hte'⟩ :=
        Paging.exists_shown_left hshown t
        ((htaken t).mpr ⟨trash.mem_records.mpr ⟨ht, hws⟩, hbefore⟩)
      rw [hte, Except.ok.injEq] at hte'
      rw [hte']
      exact he'

/-- The records have identifiers of 128 bits. -/
def Spelled (db : Db) : Prop := ∀ t ∈ db.trash, t.id < 2 ^ 128

theorem ListsTrash.id_lt (hids : Spelled w.db) {e : TrashEntry}
    (h : trash.ListsTrash rt ctx.workspace_id w.db e) : e.id < 2 ^ 128 := by
  obtain ⟨t, ht, _, hte⟩ := h
  rw [trash.entry_id hte]
  exact hids t ht

section listing

variable {upstream : PageRequest → FsResult (Page TrashEntry)} {page : Page TrashEntry}

theorem firstPageFits_iff (hpage : upstream ⟨none, PAGE_LIMIT⟩ = .ok page) :
    FirstPageFits upstream ↔ utf8_len (trash_page_data page).json ≤ MAX_JSON_RESPONSE_BYTES := by
  constructor
  · intro h
    exact h page hpage
  · intro h page' hpage'
    rw [hpage, Except.ok.injEq] at hpage'
    exact hpage' ▸ h

/-- A purge is forwarded if the listing that is read has the name for the identifier. -/
theorem purge_eq_forwarded_iff (hpage : upstream ⟨none, PAGE_LIMIT⟩ = .ok page)
    (trashId confirmedName : Text) :
    purge upstream trashId confirmedName = .Forwarded trashId ↔ FirstPageFits upstream ∧
      entryName trashId (page.items.map trash_entry_data) = some confirmedName := by
  have hfound : trashEntryName (trash_page_data page) trashId = entryName trashId
    (page.items.map trash_entry_data) := rfl
  rw [firstPageFits_iff hpage]
  unfold purge listTrash
  rw [hpage]
  dsimp only
  split
  · rename_i hfailed
    split at hfailed
    · rename_i hlarge
      simp [Nat.not_le.mpr hlarge]
    · cases hfailed
  · rename_i listing hread
    split at hread
    · cases hread
    · rename_i hfits
      cases hread
      rw [hfound, and_iff_right (Nat.not_lt.mp hfits)]
      cases entryName trashId (page.items.map trash_entry_data) with
      | none => simp
      | some name => simp

end listing

/-- A purge is forwarded exactly if the first page is read and the confirmed record is on it. -/
theorem purge_eq_forwarded (hread : ctx.has_capability .Read = true) (hreach : Reachable rt w)
    (hids : Spelled w.db) (trashId confirmedName : Text) :
    purge (SqliteFileSystem.list_trash rt cursors ctx w.db) trashId confirmedName =
      .Forwarded trashId ↔
      FirstPageFits (SqliteFileSystem.list_trash rt cursors ctx w.db) ∧
      ∃ e, Confirmed rt ctx.workspace_id w.db trashId confirmedName e ∧
      recordsBefore w.db ctx.workspace_id e.id < PAGE_LIMIT := by
  obtain ⟨page, hpage, hnodup, hlisted⟩ := @mem_first_page rt cursors ctx w hread hreach
  have hdistinct : (page.items.map (fun e => uuid_text e.id)).Nodup := by
    rw [List.Nodup, List.pairwise_map] at hnodup ⊢
    refine hnodup.imp_of_mem (fun ha hb hne heq => hne ?_)
    exact uuid_text_inj (ListsTrash.id_lt hids ((hlisted _).mp ha).1)
      (ListsTrash.id_lt hids ((hlisted _).mp hb).1) heq
  rw [purge_eq_forwarded_iff hpage, entryName_eq_some hdistinct]
  refine and_congr_right (fun _ => ?_)
  constructor
  · rintro ⟨e, he, hid, hnamed⟩
    obtain ⟨hlists, hbefore⟩ := (hlisted e).mp he
    exact ⟨e, ⟨hlists, hid, hnamed⟩, hbefore⟩
  · rintro ⟨e, ⟨hlists, hid, hnamed⟩, hbefore⟩
    exact ⟨e, (hlisted e).mpr ⟨hlists, hbefore⟩, hid, hnamed⟩

/-- The purge of a record is forwarded just when its confirmation is right, in case there is no
page of records before it and the first page is small enough to be read. -/
theorem purge_confirmed_iff (rt : Runtime) (cursors : SqliteFileSystem.Cursors)
    (ctx : RequestContext) (hread : ctx.has_capability .Read = true) (w : World)
    (hreach : Reachable rt w) (hids : Spelled w.db) (trashId confirmedName : Text) :
    (purge (SqliteFileSystem.list_trash rt cursors ctx w.db) trashId confirmedName =
    .Forwarded trashId ↔
      ∃ e, Confirmed rt ctx.workspace_id w.db trashId confirmedName e) ↔
    ∀ e, Confirmed rt ctx.workspace_id w.db trashId confirmedName e →
      recordsBefore w.db ctx.workspace_id e.id < PAGE_LIMIT ∧
      FirstPageFits (SqliteFileSystem.list_trash rt cursors ctx w.db) := by
  rw [purge_eq_forwarded hread hreach hids]
  constructor
  · intro h e he
    obtain ⟨hfits, e', he', hbefore⟩ := h.mpr ⟨e, he⟩
    have hsame : e'.id = e.id :=
      uuid_text_inj (ListsTrash.id_lt hids he'.1) (ListsTrash.id_lt hids he.1)
      (he'.2.1.trans he.2.1.symm)
    rw [hsame] at hbefore
    exact ⟨hbefore, hfits⟩
  · intro h
    constructor
    · rintro ⟨_, e, he, _⟩
      exact ⟨e, he⟩
    · rintro ⟨e, he⟩
      obtain ⟨hbefore, hfits⟩ := h e he
      exact ⟨hfits, e, he, hbefore⟩

/-- The path `/a`. -/
def discardPath : VirtualPath := .named [['a']]

/-- A new workspace after the directory has been made and trashed so often. -/
def discardedWorld (n : Nat) : World :=
  (serveAll Runtime.counting (discardRequests 0 discardPath))^[n] bareWorld

theorem bareWorld_bare : Bare Runtime.counting 0 bareWorld where
  reach := (Reachable.empty _).serveAll _
  workspace := Table.contains_iff.mp
    (show bareWorld.db.workspaces.contains 0 = true by decide +kernel)
  clear := by
    have hclear : bareWorld.db.nodes.rows.all
        (fun m => m.workspace_id = 0 ∧ m.parent_id ≠ none → m.trashed_at_ms ≠ none) = true := by
      decide +kernel
    intro m hm hws hup
    exact of_decide_eq_true (List.all_eq_true.mp hclear m hm) ⟨hws, hup⟩

theorem discardedWorld_bare (n : Nat) : Bare Runtime.counting 0 (discardedWorld n) ∧
    (trash.records (discardedWorld n).db 0).length = n ∧
    (discardedWorld n).tick ≤ 1000 + 4 * n := by
  have hpath : discardPath.segments = [['a']] := VirtualPath.segments_named (by decide)
  obtain ⟨hbare, hlength, htick⟩ := bareWorld_bare.discards hpath (by decide) n
  have hnone : (trash.records bareWorld.db 0).length = 0 := by decide +kernel
  have hstart : bareWorld.tick ≤ 1000 := by decide +kernel
  rw [hnone, Nat.zero_add] at hlength
  exact ⟨hbare, hlength, htick.trans_le (Nat.add_le_add_right hstart _)⟩

theorem discardedWorld_spelled {n : Nat} (hn : n ≤ 1000) : Spelled (discardedWorld n).db := by
  obtain ⟨hbare, _, htick⟩ := discardedWorld_bare n
  intro t ht
  obtain ⟨k, _, hk, hid⟩ := hbare.reach.sound.issued.trash t ht
  have hsmall : k < 10000 := by omega
  exact hid ▸ hsmall.trans_le (by decide)

/-- The last of 251 records is confirmed in vain. -/
theorem late_record_not_confirmed :
    Reachable Runtime.counting (discardedWorld 251) ∧ Spelled (discardedWorld 251).db ∧
    ∃ trashId confirmedName, (∃ e, Confirmed Runtime.counting 0
      (discardedWorld 251).db trashId confirmedName e) ∧
      purge (SqliteFileSystem.list_trash Runtime.counting SqliteFileSystem.Cursors.counting
        (.trusted 0) (discardedWorld 251).db)
        trashId confirmedName ≠ .Forwarded trashId := by
  obtain ⟨hbare, hlength, _⟩ := discardedWorld_bare 251
  have hspelled := discardedWorld_spelled (show 251 ≤ 1000 by decide)
  generalize discardedWorld 251 = w at *
  refine ⟨hbare.reach, hspelled, ?_⟩
  have hascending := trash.records_ascending w.db 0
  have hdrop : (trash.records w.db 0).drop PAGE_LIMIT ≠ [] := by
    rw [ne_eq, List.drop_eq_nil_iff, hlength, PAGE_LIMIT]
    omega
  obtain ⟨t, ht⟩ := List.exists_mem_of_ne_nil _ hdrop
  obtain ⟨hstored, hws⟩ := trash.mem_records.mp (List.mem_of_mem_drop ht)
  have hlate : ¬ recordsBefore w.db 0 t.id < PAGE_LIMIT := by
    intro hearly
    have htake := (Paging.mem_take_iff hascending).mpr ⟨List.mem_of_mem_drop ht, hearly⟩
    exact List.disjoint_take_drop (hascending.imp (fun h heq => (heq ▸ h).false)) le_rfl htake ht
  obtain ⟨e, he⟩ := trash.entry_ok hbare.reach hstored
  rw [hws] at he
  have hlists : trash.ListsTrash Runtime.counting 0 w.db e := ⟨t, hstored, hws, he⟩
  refine ⟨uuid_text e.id, e.node.name, ⟨e, hlists, rfl, rfl⟩, fun hforwarded => ?_⟩
  obtain ⟨_, e', ⟨hlists', hid, _⟩, hearly⟩ :=
    (@purge_eq_forwarded _ _ (.trusted 0) w rfl hbare.reach hspelled _ _).mp hforwarded
  have hsame : e'.id = e.id := uuid_text_inj (@ListsTrash.id_lt _ (.trusted 0) _ hspelled _ hlists')
    (@ListsTrash.id_lt _ (.trusted 0) _ hspelled _ hlists) hid
  rw [hsame, trash.entry_id he] at hearly
  exact hlate hearly

/-- The text of the identifier of the only record of a workspace with one. -/
def onlyTrashId : Text :=
  (((trash.records (discardedWorld 1).db 0).map (fun t => uuid_text t.id)).head?).getD []

/-- The only record is confirmed with its identifier and its name. -/
theorem only_record_confirmed :
    (∃ e, Confirmed Runtime.counting 0 (discardedWorld 1).db onlyTrashId ['a'] e) ∧
    purge (SqliteFileSystem.list_trash Runtime.counting SqliteFileSystem.Cursors.counting
      (.trusted 0) (discardedWorld 1).db) onlyTrashId ['a'] = .Forwarded onlyTrashId := by
  have hiff := purge_confirmed_iff Runtime.counting SqliteFileSystem.Cursors.counting (.trusted 0)
    rfl (discardedWorld 1) (discardedWorld_bare 1).1.reach (discardedWorld_spelled (by decide))
    onlyTrashId ['a']
  obtain ⟨page, hpage, _, hlisted⟩ := @mem_first_page Runtime.counting SqliteFileSystem.Cursors.counting
    (.trusted 0) (discardedWorld 1) rfl (discardedWorld_bare 1).1.reach
  obtain ⟨e, he, hid, hname⟩ : ∃ e ∈ page.items, uuid_text e.id = onlyTrashId ∧ e.node.name = ['a'] := by
    have hitems : (SqliteFileSystem.list_trash Runtime.counting SqliteFileSystem.Cursors.counting
        (.trusted 0) (discardedWorld 1).db ⟨none, PAGE_LIMIT⟩).toOption.any (fun page =>
          page.items.any (fun e => uuid_text e.id = onlyTrashId ∧ e.node.name = ['a'])) = true := by
      decide +kernel
    rw [hpage] at hitems
    obtain ⟨e, he, hfound⟩ := List.any_eq_true.mp hitems
    exact ⟨e, he, of_decide_eq_true hfound⟩
  have hfits : FirstPageFits (SqliteFileSystem.list_trash Runtime.counting
      SqliteFileSystem.Cursors.counting (.trusted 0) (discardedWorld 1).db) := by
    have hsmall : (SqliteFileSystem.list_trash Runtime.counting SqliteFileSystem.Cursors.counting
        (.trusted 0) (discardedWorld 1).db ⟨none, PAGE_LIMIT⟩).toOption.all (fun page =>
          utf8_len (trash_page_data page).json ≤ MAX_JSON_RESPONSE_BYTES) = true := by
      decide +kernel
    intro page' hpage'
    rw [hpage'] at hsmall
    simpa only [Except.toOption, Option.all_some, decide_eq_true_eq] using hsmall
  have hconfirmed : Confirmed Runtime.counting 0 (discardedWorld 1).db onlyTrashId ['a'] e :=
    ⟨((hlisted e).mp he).1, hid, hname⟩
  refine ⟨⟨e, hconfirmed⟩, (hiff.mpr (fun e' he' => ⟨?_, hfits⟩)).mpr ⟨e, hconfirmed⟩⟩
  have hlength : (trash.records (discardedWorld 1).db 0).length = 1 := (discardedWorld_bare 1).2.1
  have hfront : recordsBefore (discardedWorld 1).db 0 e'.id ≤ 1 :=
    (List.length_filter_le _ _).trans_eq hlength
  exact hfront.trans_lt (by decide)

end showcase

end fslite
