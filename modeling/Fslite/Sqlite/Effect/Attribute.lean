import Fslite.Sqlite.Effect.Call
import Fslite.Sqlite.Effect.Growth

namespace fslite

open resolve directory content mutate trash

/-- The value of a node's attribute. -/
def Db.attribute (db : Db) (id : NodeId) (key : Text) : Option Bytes :=
  (db.attributes.find? (id, key)).map AttributeRow.value

/-- The rows of a node's attributes. -/
def Db.attribute_rows (db : Db) (id : NodeId) : List AttributeRow :=
  db.attributes.rows.filter (fun a => a.node_id = id)

/-- The sizes of an attribute are within their limits. -/
structure AttributeRow.Limited (a : AttributeRow) : Prop where
  nonempty : 1 ≤ utf8_len a.key
  key : utf8_len a.key ≤ MAX_ATTRIBUTE_KEY_BYTES
  value : a.value.length ≤ MAX_ATTRIBUTE_VALUE_BYTES

/-- The sizes and the numbers of the attributes are within their limits. -/
structure Db.Limited (db : Db) : Prop where
  sizes : ∀ a ∈ db.attributes, a.Limited
  count : ∀ id, (db.attribute_rows id).length ≤ MAX_ATTRIBUTES_PER_NODE

/-- Every attribute is one of a stored node. -/
def Db.Attached (db : Db) : Prop := ∀ a ∈ db.attributes, ∃ n ∈ db.nodes, n.id = a.node_id

namespace Db.Limited

variable {db db' : Db}

theorem of_subset (h : db.Limited) (hsub : ∀ a ∈ db'.attributes, a ∈ db.attributes) :
    db'.Limited where
  sizes a ha := h.sizes a (hsub a ha)
  count id := by
    have hsubset : db'.attribute_rows id ⊆ db.attribute_rows id := fun a ha => by
      obtain ⟨hmem, hid⟩ := List.mem_filter.mp ha
      exact List.mem_filter.mpr ⟨hsub a hmem, hid⟩
    exact ((db'.attributes.rows_nodup.filter _).subperm hsubset).length_le.trans (h.count id)

theorem congr (h : db.Limited) (hattributes : db'.attributes = db.attributes) : db'.Limited :=
  h.of_subset (fun _ ha => hattributes ▸ ha)

theorem purge (h : db.Limited) (id : NodeId) : (db.purge id).Limited :=
  h.of_subset (fun _ ha => (Table.mem_deleteWhere.mp ha).1)

theorem overwritten (h : db.Limited) (existing : Option RawNode) :
    (db.overwritten existing).Limited := by
  cases existing with
  | none => exact h
  | some occupant => exact h.purge occupant.id

theorem clear (h : db.Limited) (ws : WorkspaceId) : (db.clear ws).Limited :=
  h.of_subset (fun _ ha => (Table.mem_deleteWhere.mp ha).1)

/-- One attribute more, or another value of one that is there. -/
theorem put {a : AttributeRow} (h : db.Limited) (ha : a.Limited)
    (hroom : db.attributes.contains a.pair = true ∨
    (db.attribute_rows a.node_id).length < MAX_ATTRIBUTES_PER_NODE)
    (hattributes : db'.attributes = db.attributes.upsert a) : db'.Limited := by
  have hrows : db'.attributes.rows = (db.attributes.upsert a).rows :=
    congrArg Table.rows hattributes
  unfold Table.upsert at hrows
  cases hins : db.attributes.insert a with
  | none =>
    simp only [hins] at hrows
    constructor
    · intro b hb
      rw [Table.mem_def, hrows] at hb
      obtain ⟨c, hc, rfl⟩ := List.mem_map.mp hb
      split
      · exact ha
      · exact h.sizes c hc
    · intro id
      rw [attribute_rows, hrows, List.filter_map, List.length_map]
      refine (congrArg List.length (List.filter_congr (fun c _ => ?_))).trans_le (h.count id)
      by_cases hpair : c.pair = a.pair
      · have hid : c.node_id = a.node_id := congrArg Prod.fst hpair
        rw [Function.comp_apply, if_pos hpair, hid]
      · rw [Function.comp_apply, if_neg hpair]
  | some attributes =>
    simp only [hins] at hrows
    obtain ⟨hnew, hadded⟩ := Table.insert_eq_some.mp hins
    rw [hadded] at hrows
    constructor
    · intro b hb
      rw [Table.mem_def, hrows, List.mem_append, List.mem_singleton] at hb
      obtain hb | rfl := hb
      · exact h.sizes b hb
      · exact ha
    · intro id
      rw [attribute_rows, hrows, List.filter_append, List.length_append]
      have hcount := h.count id
      by_cases hid : a.node_id = id
      · have hlt := hroom.resolve_left (fun hcontains => by simp [Table.contains, hnew] at hcontains)
        rw [hid] at hlt
        simp only [hid, decide_true, List.filter_cons_of_pos, List.filter_nil,
          List.length_singleton]
        exact hlt
      · simp only [hid, decide_false, Bool.false_eq_true, not_false_eq_true,
          List.filter_cons_of_neg, List.filter_nil, List.length_nil]
        exact hcount

/-- The attributes of one node, given to a node that has none. -/
theorem copied {source target : NodeId} (h : db.Limited)
    (hnone : ∀ a ∈ db.attributes, a.node_id ≠ target)
    (hattributes : db'.attributes.rows = db.attributes.rows ++ (db.attribute_rows source).map
    (fun a => { a with node_id := target })) :
    db'.Limited where
  sizes a ha := by
    rw [Table.mem_def, hattributes, List.mem_append] at ha
    obtain ha | ha := ha
    · exact h.sizes a ha
    · obtain ⟨b, hb, rfl⟩ := List.mem_map.mp ha
      obtain ⟨hnonempty, hkey, hvalue⟩ := h.sizes b (List.mem_of_mem_filter hb)
      exact ⟨hnonempty, hkey, hvalue⟩
  count id := by
    rw [attribute_rows, hattributes, List.filter_append, List.length_append]
    by_cases hid : target = id
    · subst hid
      have hbefore : db.attributes.rows.filter (fun a => a.node_id = target) = [] :=
        List.filter_eq_nil_iff.mpr (fun a ha => by simpa using hnone a ha)
      rw [hbefore, List.length_nil, Nat.zero_add]
      exact (List.length_filter_le _ _).trans ((List.length_map _).trans_le (h.count source))
    · have hafter : ((db.attribute_rows source).map (fun a => { a with node_id := target })).filter
          (fun a => a.node_id = id) = [] :=
        List.filter_eq_nil_iff.mpr (List.forall_mem_map.mpr (fun a _ => by simpa using hid))
      rw [hafter, List.length_nil]
      exact h.count id

end Db.Limited

/-- Committing a content leaves the attributes alone. -/
theorem content.finalize_tx_keeps (rt : Runtime) (ws : WorkspaceId) (path : VirtualPath)
    (g : GenerationId) (length : Nat) (params : FinalizeParams) (actor_json : Text) :
    Tx.Keeps (fun db db' => db'.attributes = db.attributes)
      (finalize_tx rt ws path g length params actor_json) :=
  (KeptByCommit.of_view (fun _ _ => rfl) (fun _ => rfl) (fun _ _ _ => rfl)
    (fun _ _ => rfl)).finalize_tx

namespace mutate

variable {rt : Runtime} {ws : WorkspaceId} {w w' : World} {actor_json : Text} {path : VirtualPath}
  {key : Text} {value : Bytes}
variable {options : MutationOptions} {outcome : AttributeOutcome}

/-- A change of attributes that is recorded with a new revision of its node. -/
structure Revises (rt : Runtime) (ws : WorkspaceId) (node row : RawNode) (w w' : World) : Prop where
  nodes : w'.db.nodes = w.db.nodes.modify node.id (revised (node.revision + 1) (rt.nowMs w.tick))
  stored : fetch_by_id w'.db ws node.id = some row

theorem utf8_len_pos {text : Text} (h : text ≠ []) : 1 ≤ utf8_len text := by
  obtain ⟨c, rest, rfl⟩ := List.exists_cons_of_ne_nil h
  have hpos := c.utf8Size_pos
  simp only [utf8_len, List.map_cons, List.sum_cons]
  omega

/-- What `set_attribute` does: nothing, or it stores an attribute within the limits. -/
theorem set_attribute_tx_exact (h : set_attribute_tx rt ws path key value options actor_json w = .ok
    (outcome, w')) :
    (w' = w ∧ ∀ row shown, outcome ≠ .Updated row shown) ∨ ∃ node row,
    resolve_following w.db ws path false = .Found node ∧
      outcome = .Updated row (build_attributes_map rt w'.db node.id) ∧
      AttributeRow.Limited ⟨node.id, key, value⟩ ∧
      (w.db.attributes.contains (node.id, key) = true ∨
      (w.db.attribute_rows node.id).length < MAX_ATTRIBUTES_PER_NODE) ∧
      w'.db.attributes = w.db.attributes.upsert ⟨node.id, key, value⟩ ∧
      Revises rt ws node row w w' := by
  obtain hnothing | ⟨node, row, hnode, houtcome, _, ⟨hkey, hvalue, hroom⟩, hset⟩ :=
    set_attribute_tx_cases h
  · exact Or.inl hnothing
  · obtain ⟨hne, hlen⟩ := not_or.mp hkey
    exact Or.inr ⟨node, row, hnode, houtcome,
      ⟨utf8_len_pos hne, Nat.not_lt.mp hlen, Nat.not_lt.mp hvalue⟩, hroom,
      hset.recorded.appended.attributes, hset.recorded.appended.nodes, hset.stored⟩

/-- What `remove_attribute` does: nothing, or it deletes the attribute. -/
theorem remove_attribute_tx_exact (h : remove_attribute_tx rt ws path key options actor_json w = .ok
    (outcome, w')) :
    (w' = w ∧ ∀ row shown, outcome ≠ .Updated row shown) ∨ ∃ node row,
    resolve_following w.db ws path false = .Found node ∧
      outcome = .Updated row (build_attributes_map rt w'.db row.id) ∧
      (w.db.attributes.contains (node.id, key) = false ∧ w' = w ∧ row = node ∨
        w.db.attributes.contains (node.id, key) = true ∧
          w'.db.attributes = (w.db.remove_attribute_row node.id key).attributes ∧
          Revises rt ws node row w w') := by
  obtain hnothing | ⟨node, row, hnode, houtcome, _, hkept | ⟨hdeleted, hremoved⟩⟩ :=
    remove_attribute_tx_cases h
  · exact Or.inl hnothing
  · exact Or.inr ⟨node, row, hnode, houtcome, Or.inl hkept⟩
  · exact Or.inr ⟨node, row, hnode, houtcome, Or.inr
      ⟨hdeleted, hremoved.recorded.appended.attributes,
      hremoved.recorded.appended.nodes, hremoved.stored⟩⟩

/-- A copied content leaves the attributes alone. -/
theorem copy_content_attributes {old : RawNode} {result : Option GenerationId}
    (h : copy_content rt ws old w = .ok (result, w')) :
    w'.db.attributes = w.db.attributes := by
  obtain ⟨_, _, rfl⟩ | ⟨source, gens, chunks, _, _, _, _, rfl⟩ := copy_content_cases h
  · rfl
  · rfl

/-- A copied node has the attributes of the node that it is a copy of. -/
theorem copy_node_limited {now : Int} {old raw : RawNode} {up : NodeId} {name : Text}
    (hlimited : w.db.Limited) (hattached : w.db.Attached)
    (h : copy_node rt ws now old up name w = .ok (raw, w')) : w'.db.Limited ∧ w'.db.Attached := by
  simp only [copy_node, Tx.new_id_bind] at h
  obtain ⟨generation, w₁, hcontent, h⟩ := Tx.bind_eq_ok.mp h
  simp only [Tx.execute_bind_eq_ok] at h
  obtain ⟨db, hinsert, db', hattributes, h⟩ := h
  obtain ⟨rfl, rfl⟩ := Tx.pure_eq_ok.mp h
  obtain ⟨_, hnodes, _⟩ := copy_content_ok hcontent
  have hsame := copy_content_attributes hcontent
  obtain ⟨nodes, hins, rfl⟩ := Db.insert_node_ok hinsert
  simp only at hnodes hsame
  unfold Db.insert_attributes at hattributes
  simp only at hattributes
  split at hattributes
  · split at hattributes
    · rename_i attributes hall
      cases hattributes
      have hrows := Table.insertAll_rows hall
      have hnew := (Table.insert_eq_some.mp hins).1
      constructor
      · refine (hlimited.congr hsame).copied (fun a ha hid => ?_) hrows
        obtain ⟨n, hn, hnid⟩ := hattached a (hsame ▸ ha)
        exact Table.find?_eq_none.mp hnew n (hnodes ▸ hn) (hnid.trans hid)
      · intro a ha
        rw [Table.mem_def, hrows, List.mem_append] at ha
        obtain ha | ha := ha
        · obtain ⟨n, hn, hnid⟩ := hattached a (hsame ▸ ha)
          exact ⟨n, (Table.mem_insert hins).mpr (Or.inl (hnodes ▸ hn)), hnid⟩
        · obtain ⟨b, _, rfl⟩ := List.mem_map.mp ha
          exact ⟨_, (Table.mem_insert hins).mpr (Or.inr rfl), rfl⟩
    · cases hattributes
  · cases hattributes

theorem copy_loop_limited {now : Int} {bound : Nat} {stack : List (RawNode × NodeId × Text)}
    {top : Option RawNode} {raw : RawNode} (hlimited : w.db.Limited) (hattached : w.db.Attached)
    (h : copy_loop rt ws now bound stack top w = .ok (raw, w')) : w'.db.Limited := by
  induction bound generalizing stack top w with
  | zero =>
    cases stack with
    | nil =>
      obtain ⟨_, rfl⟩ := Tx.expect_eq_ok.mp h
      exact hlimited
    | cons item stack => exact absurd h Tx.fail_ne_ok
  | succ bound ih =>
    cases stack with
    | nil =>
      obtain ⟨_, rfl⟩ := Tx.expect_eq_ok.mp h
      exact hlimited
    | cons item stack =>
      unfold copy_loop at h
      obtain ⟨new_node, w₁, hcopy, h⟩ := Tx.bind_eq_ok.mp h
      simp only [Tx.query_bind] at h
      obtain ⟨hlimited₁, hattached₁⟩ := copy_node_limited hlimited hattached hcopy
      exact ih hlimited₁ hattached₁ h

theorem copy_subtree_limited {source raw : RawNode} {up : NodeId} {name : Text} {now : Int}
    (hlimited : w.db.Limited) (hattached : w.db.Attached)
    (h : copy_subtree rt ws source up name now w = .ok (raw, w')) : w'.db.Limited := by
  unfold copy_subtree at h
  obtain ⟨full, w₁, hfull, hloop⟩ := Tx.bind_eq_ok.mp h
  obtain ⟨rfl, _⟩ := fetch_full_ok hfull
  rw [Tx.query_bind] at hloop
  exact copy_loop_limited hlimited hattached hloop

end mutate

section operations

variable {rt : Runtime} {ws : WorkspaceId} {w w' : World} {actor_json : Text}

theorem Db.Attached.purge {db : Db} (h : db.Attached) (id : NodeId) : (db.purge id).Attached := by
  intro a ha
  obtain ⟨hmem, hkept⟩ := Table.mem_deleteWhere.mp ha
  obtain ⟨n, hn, hid⟩ := h a hmem
  exact ⟨n, Table.mem_deleteWhere.mpr ⟨hn, by rwa [hid]⟩, hid⟩

theorem Db.Attached.overwritten {db : Db} (h : db.Attached) (existing : Option RawNode) :
    (db.overwritten existing).Attached := by
  cases existing with
  | none => exact h
  | some occupant => exact h.purge occupant.id

theorem directory.Nested.limited {up last : NodeId} {path last_path : VirtualPath}
    {names : List Text} (h : Nested rt ws up path names w last last_path w')
    (hlimited : w.db.Limited) : w'.db.Limited := by
  induction h with
  | done => exact hlimited
  | make _ _ _ happ _ ih => exact ih (hlimited.congr happ.appended.attributes)

/-- Every operation keeps the attributes within their limits. -/
theorem transact_limited {operation : BatchOperation} {outcome : Outcome operation}
    (hwf : WellFormed w.db) (hlimited : w.db.Limited)
    (h : transact rt ws actor_json operation w = .ok (outcome, w')) : w'.db.Limited := by
  cases operation with
  | Mkdir path options =>
    obtain ⟨rfl, _⟩ | ⟨_, _, _, _, _, _, _, _, _, hnested⟩ :=
      mkdir_tx_ok hwf (fun s hs => VirtualPath.segment_of_mem hs) h
    · exact hlimited
    · exact hnested.limited hlimited
  | Touch path options =>
    cases hfound : resolve.resolve w.db ws path with
    | some node =>
      obtain ⟨rfl, _⟩ | ⟨n, row, _, _, _, _, _, rfl⟩ := touch_existing_ok hfound h
      · exact hlimited
      · exact hlimited.congr rfl
    | none =>
      obtain ⟨_, rfl, _⟩ | ⟨_, w₁, hcreate, result, hfinal, _⟩ := touch_absent_ok hfound h
      · exact hlimited
      · obtain ⟨_, _, _, rfl⟩ := create_generation_ok hcreate
        have hkept := finalize_tx_keeps _ _ _ _ _ _ _ _ _ _ hfinal
        exact hlimited.congr hkept
  | Copy source target options =>
    obtain ⟨rfl, _⟩ | ⟨source, parent, name, existing, row, w₁, _, _, hcopy, _, happ⟩ :=
      copy_tx_ok h
    · exact hlimited
    · have hattached : w.db.Attached := hwf.attributes
      have hcopied : w₁.db.Limited :=
        copy_subtree_limited (hlimited.overwritten existing) (hattached.overwritten existing) hcopy
      exact hcopied.congr happ.appended.attributes
  | Move source target options =>
    obtain ⟨rfl, _⟩ | ⟨source, parent, name, existing, db, _, _, hupdate, _, happ⟩ := move_tx_ok h
    · exact hlimited
    · obtain rfl := Db.update_node_ok hupdate
      exact (hlimited.overwritten existing).congr happ.appended.attributes
  | Remove path options =>
    obtain ⟨rfl, _⟩ | ⟨node, _, _, _, happ⟩ := remove_tx_ok h
    · exact hlimited
    · exact (hlimited.purge node.id).congr happ.appended.attributes
  | Symlink target link options =>
    obtain ⟨rfl, _⟩ | ⟨parent, name, nodes, _, _, hins, _, happ⟩ := symlink_tx_ok h
    · exact hlimited
    · exact hlimited.congr happ.appended.attributes
  | Trash path options =>
    obtain ⟨rfl, _⟩ | ⟨node, up, records, _, _, _, _, _, happ⟩ := trash_tx_ok h
    · exact hlimited
    · exact hlimited.congr happ.appended.attributes
  | Restore trash_id destination options =>
    obtain ⟨rfl, _⟩ | ⟨record, node, parent, name, db, row, _, _, hupdate, _, happ, _⟩ :=
      restore_tx_ok h
    · exact hlimited
    · obtain rfl := Db.update_node_ok hupdate
      exact hlimited.congr happ.appended.attributes
  | Purge trash_id =>
    obtain ⟨rfl, _⟩ | ⟨record, _, _, _, happ⟩ := purge_tx_ok h
    · exact hlimited
    · exact (hlimited.purge record.node_id).congr happ.appended.attributes
  | SetAttribute path key value options =>
    obtain ⟨rfl, _⟩ | ⟨node, row, _, _, hsizes, hroom, hattributes, _⟩ := set_attribute_tx_exact h
    · exact hlimited
    · exact hlimited.put hsizes hroom hattributes
  | RemoveAttribute path key options =>
    obtain ⟨rfl, _⟩ | ⟨node, row, _, _, ⟨_, rfl, _⟩ | ⟨_, hattributes, _⟩⟩ :=
      remove_attribute_tx_exact h
    · exact hlimited
    · exact hlimited
    · exact hlimited.of_subset (fun a ha => (Table.mem_deleteWhere.mp (hattributes ▸ ha)).1)

/-- So does every call. -/
theorem DbCall.exec_limited {call : DbCall} (hwf : WellFormed w.db) (hlimited : w.db.Limited) :
    (call.exec rt w).2.db.Limited := by
  refine DbCall.exec_keeps hwf hlimited (fun _ _ => hlimited.congr rfl) transact_limited ?_ ?_ ?_ ?_
  · intro ws path g length params actor_json outcome w' _ h
    exact hlimited.congr (finalize_tx_keeps rt ws path g length params actor_json w _ w' h)
  · intro options result w' h
    obtain ⟨row, nodes, workspaces, _, _, _, _, _, _, _, hins, rfl⟩ :=
      workspace.create_workspace_ok h
    exact hlimited.congr rfl
  · intro ws result w' h
    obtain ⟨rfl, _⟩ | ⟨row, nodes, _, _, hins, rfl⟩ := workspace.reset_workspace_ok hwf h
    · exact hlimited
    · exact (hlimited.clear ws).congr rfl
  · intro ws u w' h
    obtain rfl := workspace.delete_workspace_ok hwf h
    exact (hlimited.clear ws).congr rfl

end operations

end fslite
