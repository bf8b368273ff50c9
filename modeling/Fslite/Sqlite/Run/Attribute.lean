import Fslite.Base64
import Fslite.Sqlite.Effect.Attribute
import Fslite.Sqlite.Run.Depth

namespace fslite

open resolve mutate

/-- In every run the attributes stay within their limits. -/
theorem Reached.limited {rt : Runtime} {c : System} (h : Reached rt (fun _ _ _ => True) c) :
    c.state.db.Limited := by
  unfold Reached at h
  induction h with
  | refl => exact ⟨fun a ha => absurd ha (Table.not_mem_empty a), fun _ => Nat.zero_le _⟩
  | @tail c d hsteps hstep ih =>
    have hreached : Reached rt (fun c _ o => Policy.any.Allows rt c.state o) c :=
      Steps.mono hsteps (fun _ hp => hp) (fun c _ o _ => Policy.allows_any rt c.state o)
    cases hstep with
    | arrive => exact ih
    | advance => exact DbCall.exec_limited hreached.sound.wf ih

namespace mutate

/-- The map that is returned with a node decodes to the one that is stored. -/
structure Shows (decode : Text → Option Bytes) (db : Db) (id : NodeId) (shown : Attributes) :
    Prop where
  once : (shown.map Prod.fst).Nodup
  exact : ∀ key, (shown.lookup key).map decode = (db.attribute id key).map some

/-- The node's attributes are what they were but for one key, the other nodes' attributes
are what they were, and the node is returned with its attributes. -/
structure Rebinds (decode : Text → Option Bytes) (ws : WorkspaceId) (path : VirtualPath)
    (key : Text) (value : Option Bytes) (node row : RawNode) (shown : Attributes) (w w' : World) :
    Prop where
  map : ∀ id key', w'.db.attribute id key' = if id = node.id ∧
    key' = key then value else w.db.attribute id key'
  stored : row.id = node.id ∧ fetch_by_id w'.db ws node.id = some row
  returned : ∃ result, attribute_result (.Updated row shown) path = .ok result ∧
    result.id = node.id ∧
    Shows decode w'.db node.id result.attributes

section maps

variable {rt : Runtime} {decode : Text → Option Bytes} {db db' : Db} {id : NodeId} {key : Text}

theorem mem_attribute_rows {a : AttributeRow} :
    a ∈ db.attribute_rows id ↔ a ∈ db.attributes ∧ a.node_id = id := by
  simp [Db.attribute_rows, Table.mem_def]

theorem attribute_keys_nodup (db : Db) (id : NodeId) :
    ((db.attribute_rows id).map AttributeRow.key).Nodup := by
  refine List.Nodup.map_on (fun a ha b hb hkey => ?_) (db.attributes.rows_nodup.filter _)
  obtain ⟨ha, haid⟩ := mem_attribute_rows.mp ha
  obtain ⟨hb, hbid⟩ := mem_attribute_rows.mp hb
  exact db.attributes.eq_of_key_eq ha hb (Prod.ext (haid.trans hbid.symm) hkey)

theorem lookup_of_mem {V : Type} {l : List (Text × V)} {v : V} (hnodup : (l.map Prod.fst).Nodup)
    (h : (key, v) ∈ l) :
    l.lookup key = some v := by
  induction l with
  | nil => cases h
  | cons p l ih =>
    obtain ⟨hfirst, hrest⟩ := List.nodup_cons.mp hnodup
    obtain rfl | hmem := List.mem_cons.mp h
    · simp
    · have hne : (key == p.1) = false := by
        refine beq_false_of_ne (fun heq => hfirst ?_)
        rw [← heq]
        exact List.mem_map.mpr ⟨_, hmem, rfl⟩
      rw [List.lookup_cons, hne]
      exact ih hrest hmem

theorem build_attributes_map_keys (rt : Runtime) (db : Db) (id : NodeId) :
    ((build_attributes_map rt db id).map Prod.fst).Nodup := by
  rw [build_attributes_map, List.map_map]
  refine (List.Perm.nodup_iff ?_).mp (attribute_keys_nodup db id)
  exact ((List.perm_insertionSort _ _).map _).symm

theorem lookup_build_attributes_map (rt : Runtime) (db : Db) (id : NodeId) (key : Text) :
    (build_attributes_map rt db id).lookup key = (db.attribute id key).map rt.base64 := by
  unfold Db.attribute
  cases hfind : db.attributes.find? (id, key) with
  | some a =>
    obtain ⟨ha, hpair⟩ := Table.find?_eq_some.mp hfind
    obtain ⟨rfl, rfl⟩ := Prod.mk.inj hpair
    refine lookup_of_mem (build_attributes_map_keys rt db _) ?_
    exact List.mem_map.mpr ⟨a, (List.mem_insertionSort _).mpr (mem_attribute_rows.mpr ⟨ha, rfl⟩),
      rfl⟩
  | none =>
    refine List.lookup_eq_none_iff.mpr (List.forall_mem_map.mpr (fun a ha => ?_))
    obtain ⟨ha, haid⟩ := mem_attribute_rows.mp ((List.mem_insertionSort _).mp ha)
    exact bne_iff_ne.mpr (fun heq => Table.find?_eq_none.mp hfind a ha (Prod.ext haid heq.symm))

theorem build_attributes_map_shows (hdecode : ∀ value, decode (rt.base64 value) = some value)
    (db : Db) (id : NodeId) :
    Shows decode db id (build_attributes_map rt db id) := by
  refine ⟨build_attributes_map_keys rt db id, fun key => ?_⟩
  rw [lookup_build_attributes_map, Option.map_map]
  exact Option.map_congr (fun value _ => hdecode value)

theorem attribute_upsert {a : AttributeRow} (h : db'.attributes = db.attributes.upsert a)
    (id : NodeId) (key : Text) :
    db'.attribute id key = if id = a.node_id ∧
    key = a.key then some a.value else db.attribute id key := by
  unfold Db.attribute
  rw [h, Table.find?_upsert]
  by_cases hkey : id = a.node_id ∧ key = a.key
  · rw [if_pos hkey, if_pos (Prod.ext hkey.1.symm hkey.2.symm)]
    rfl
  · rw [if_neg hkey, if_neg (fun heq => hkey ⟨(Prod.mk.inj heq).1.symm, (Prod.mk.inj heq).2.symm⟩)]

theorem attribute_removed {node_id : NodeId} {gone : Text}
    (h : db'.attributes = (db.remove_attribute_row node_id gone).attributes) (id : NodeId)
    (key : Text) : db'.attribute id key = if id = node_id ∧
    key = gone then none else db.attribute id key := by
  unfold Db.attribute
  rw [h, Db.remove_attribute_row, Table.find?_deleteWhere]
  cases hfind : db.attributes.find? (id, key) with
  | none => simp
  | some a =>
    have hpair : a.pair = (id, key) := Table.key_of_find? hfind
    obtain ⟨rfl, rfl⟩ := Prod.mk.inj hpair
    by_cases hkey : a.node_id = node_id ∧ a.key = gone <;> simp [Option.filter, hkey]

theorem contains_iff_attribute :
    db.attributes.contains (id, key) = (db.attribute id key).isSome := by
  rw [Db.attribute, Option.isSome_map, Table.contains]

theorem attribute_result_ok {row : RawNode} (hrevision : 0 < row.revision) (shown : Attributes)
    (path : VirtualPath) :
    ∃ result, attribute_result (.Updated row shown) path = .ok result ∧ result.id = row.id ∧
    result.attributes = shown := by
  obtain ⟨node, hnode⟩ := RawNode.into_node_ok hrevision
  refine ⟨{ node with attributes := shown }, ?_, (RawNode.into_node_shape hnode).1, rfl⟩
  simp only [attribute_result, hnode]

end maps

section changes

variable {rt : Runtime} {decode : Text → Option Bytes} {ws : WorkspaceId} {w w' : World}
  {actor_json : Text} {path : VirtualPath}
variable {key : Text} {value : Bytes} {options : MutationOptions} {outcome : AttributeOutcome}
  {node row : RawNode} {shown : Attributes}

theorem Revises.revision (h : Revises rt ws node row w w') :
    row.id = node.id ∧ row.revision = node.revision + 1 := by
  obtain ⟨n, hn, rfl, _, hid, _⟩ := fetch_by_id_eq_some.mp h.stored
  refine ⟨hid, ?_⟩
  rw [h.nodes] at hn
  obtain ⟨m, hm, rfl⟩ := Table.mem_modify.mp hn
  split at hid
  · rename_i hkey
    rw [if_pos hkey]
    rfl
  · rename_i hkey
    exact absurd hid hkey

theorem set_attribute_rebinds (hdecode : ∀ value, decode (rt.base64 value) = some value)
    (h : set_attribute_tx rt ws path key value options actor_json w = .ok
    (.Updated row shown, w')) :
    ∃ node, resolve_following w.db ws path false = .Found node ∧ row.revision = node.revision + 1 ∧
      Rebinds decode ws path key (some value) node row shown w w' := by
  obtain ⟨_, hnot⟩ | ⟨node, row', hfound, houtcome, _, _, hattributes, hrevises⟩ :=
    set_attribute_tx_exact h
  · exact absurd rfl (hnot row shown)
  · cases houtcome
    obtain ⟨hid, hrevision⟩ := hrevises.revision
    refine ⟨node, hfound, hrevision, attribute_upsert hattributes, ⟨hid, hrevises.stored⟩, ?_⟩
    have hpos : 0 < row.revision := by omega
    obtain ⟨result, hresult, hresultid, hshown⟩ :=
      attribute_result_ok hpos (build_attributes_map rt w'.db node.id) path
    exact ⟨result, hresult, hresultid.trans hid,
      hshown ▸ build_attributes_map_shows hdecode w'.db node.id⟩

/-- An attribute that is there is not refused for its number. -/
theorem set_attribute_replaces
    (h : set_attribute_tx rt ws path key value options actor_json w = .ok (outcome, w'))
    (hfound : resolve_following w.db ws path false = .Found node)
    (hpresent : (w.db.attribute node.id key).isSome)
    (hvalue : value.length ≤ MAX_ATTRIBUTE_VALUE_BYTES) : outcome ≠ .QuotaExceeded := by
  rw [← contains_iff_attribute] at hpresent
  rintro rfl
  simp only [set_attribute_tx, Tx.query_bind, hfound] at h
  split at h
  · cases (Tx.pure_eq_ok.mp h).1
  · rw [if_neg (Nat.not_lt.mpr hvalue)] at h
    split at h
    · cases (Tx.pure_eq_ok.mp h).1
    · simp only [Tx.query_bind, hpresent, Bool.not_true, Bool.false_eq_true, false_and, if_false,
        Tx.execute_bind_eq_ok,
        Tx.now_ms_bind] at h
      obtain ⟨_, _, _, _, h⟩ := h
      obtain ⟨_, _, _, h⟩ := Tx.bind_eq_ok.mp h
      simp only [Tx.query_bind, Tx.expect_bind_eq_ok] at h
      obtain ⟨_, _, h⟩ := h
      cases (Tx.pure_eq_ok.mp h).1

theorem remove_attribute_rebinds (hdecode : ∀ value, decode (rt.base64 value) = some value)
    (hwf : WellFormed w.db) (h : remove_attribute_tx rt ws path key options actor_json w = .ok
    (.Updated row shown, w')) :
    ∃ node, resolve_following w.db ws path false = .Found node ∧
      (row.revision = if (w.db.attribute node.id key).isSome then node.revision +
      1 else node.revision) ∧
      (w.db.attribute node.id key = none → w' = w) ∧
      Rebinds decode ws path key none node row shown w w' := by
  obtain ⟨_, hnot⟩ | ⟨node, row', hfound, houtcome, hcase⟩ := remove_attribute_tx_exact h
  · exact absurd rfl (hnot row shown)
  · cases houtcome
    refine ⟨node, hfound, ?_⟩
    obtain ⟨n, rfl, hn⟩ := resolve_following_live hfound
    have hpos := hwf.nodes.revision n hn.mem
    simp only [contains_iff_attribute] at hcase
    obtain ⟨habsent, rfl, rfl⟩ | ⟨hpresent, hattributes, hrevises⟩ := hcase
    · have hnone : w'.db.attribute n.id key = none := by simpa using habsent
      obtain ⟨result, hresult, hresultid, hshown⟩ :=
        attribute_result_ok hpos (build_attributes_map rt w'.db n.id) path
      refine ⟨by simp [hnone], fun _ => rfl, fun id key' => ?_,
        ⟨rfl, fetch_by_id_of_mem hn.mem hn.workspace hn.active⟩, result,
        hresult, hresultid, hshown ▸ build_attributes_map_shows hdecode w'.db n.id⟩
      split
      · rename_i hkey
        rw [hkey.1, hkey.2, hnone]
      · rfl
    · obtain ⟨hid, hrevision⟩ := hrevises.revision
      have hpos' : 0 < row.revision := by omega
      obtain ⟨result, hresult, hresultid, hshown⟩ :=
        attribute_result_ok hpos' (build_attributes_map rt w'.db row.id) path
      refine ⟨by rw [if_pos hpresent, hrevision], fun hnone => ?_, attribute_removed hattributes,
        ⟨hid, hrevises.stored⟩, result, hresult,
        hresultid.trans hid, ?_⟩
      · rw [hnone] at hpresent
        cases hpresent
      · rw [hshown, hid]
        exact build_attributes_map_shows hdecode w'.db n.id

end changes

/-- In every reachable store the attributes are within their limits, and to set and to
remove an attribute changes one key of one node's map. -/
theorem attributes_bounded_maps (rt : Runtime) (decode : Text → Option Bytes)
    (hdecode : ∀ value, decode (rt.base64 value) = some value) :
    (∀ w, Reachable rt w → WellFormed w.db ∧ w.db.Limited) ∧
    ∀ (w w' : World) (ws : WorkspaceId) (path : VirtualPath) (key : Text)
      (options : MutationOptions) (actor_json : Text),
      WellFormed w.db →
      (∀ value row shown, set_attribute_tx rt ws path key value options actor_json w = .ok
      (.Updated row shown, w') →
        ∃ node, resolve_following w.db ws path false = .Found node ∧
        row.revision = node.revision + 1 ∧
          Rebinds decode ws path key (some value) node row shown w w') ∧
      (∀ value node outcome, set_attribute_tx rt ws path key value options actor_json w = .ok
      (outcome, w') →
        resolve_following w.db ws path false = .Found node → (w.db.attribute node.id key).isSome →
        value.length ≤ MAX_ATTRIBUTE_VALUE_BYTES → outcome ≠ .QuotaExceeded) ∧
      ∀ row shown, remove_attribute_tx rt ws path key options actor_json w = .ok
        (.Updated row shown, w') →
        ∃ node, resolve_following w.db ws path false = .Found node ∧
          (row.revision = if (w.db.attribute node.id key).isSome then node.revision +
          1 else node.revision) ∧
          (w.db.attribute node.id key = none → w' = w) ∧
          Rebinds decode ws path key none node row shown w w' := by
  refine ⟨fun w hreach => ⟨hreach.sound.wf, ?_⟩, fun w w' ws path key options actor_json hwf =>
    ⟨?_, ?_, ?_⟩⟩
  · obtain ⟨c, hreached, rfl⟩ := hreach
    exact hreached.limited
  · exact fun value row shown h => set_attribute_rebinds hdecode h
  · exact fun value node outcome h hfound hpresent hvalue =>
      set_attribute_replaces h hfound hpresent hvalue
  · exact fun row shown h => remove_attribute_rebinds hdecode hwf h

/-- A runtime that spells the values of attributes as they are spelled. -/
def spellingRuntime : Runtime := { Runtime.counting with base64 := Base64.encode }

def AttributeOutcome.updated? : AttributeOutcome → Option (RawNode × Attributes)
  | .Updated row attributes => some (row, attributes)
  | _ => none

theorem AttributeOutcome.updated?_eq_some {outcome : AttributeOutcome} {row : RawNode}
    {attributes : Attributes} (h : outcome.updated? = some (row, attributes)) :
    outcome = .Updated row attributes := by
  cases outcome with
  | Updated row' attributes' =>
    cases h
    rfl
  | _ => cases h

/-- The root of a new workspace is given an attribute. -/
theorem root_attribute_bounded_map : ∃ w w' row shown, Reachable spellingRuntime w ∧
    set_attribute_tx spellingRuntime 0 VirtualPath.root ['k'] [251, 255] {} [] w = .ok
      (.Updated row shown, w') ∧
    w'.db.Limited ∧ w'.db.attribute row.id ['k'] = some [251, 255] ∧
    shown.lookup ['k'] = some ['-', '_', '8'] := by
  have hreach : Reachable spellingRuntime (serveAll spellingRuntime emptyRequests ⟨Db.empty, 0⟩) :=
    (Reachable.empty _).serveAll _
  obtain ⟨⟨outcome, w'⟩, hset, hupdated⟩ := @Tx.ok_of_any _ (set_attribute_tx spellingRuntime 0
    VirtualPath.root ['k'] [251, 255] {} [] (serveAll spellingRuntime emptyRequests ⟨Db.empty, 0⟩))
      (fun p => p.1.updated?.any fun (q : RawNode × Attributes) =>
        decide (q.2.lookup ['k'] = some ['-', '_', '8']))
    (by decide +kernel)
  obtain ⟨⟨row, shown⟩, houtcome, hupdated⟩ := (Option.any_eq_true _ _).mp hupdated
  obtain rfl := AttributeOutcome.updated?_eq_some houtcome
  obtain ⟨hbounded, hmaps⟩ :=
    attributes_bounded_maps spellingRuntime (fun text => some (Base64.decode text))
    (fun value => congrArg some (Base64.decode_encode value))
  obtain ⟨hwf, hlimited⟩ := hbounded _ hreach
  obtain ⟨node, _, _, hrebinds⟩ :=
    (hmaps _ w' 0 VirtualPath.root ['k'] {} [] hwf).1 _ row shown hset
  refine ⟨_, w', row, shown, hreach, hset, ?_, ?_, of_decide_eq_true hupdated⟩
  · exact @transact_limited _ _ _ _ _
      (.SetAttribute VirtualPath.root ['k'] [251, 255] {}) _ hwf hlimited hset
  · rw [hrebinds.map, hrebinds.stored.1, if_pos ⟨rfl, rfl⟩]

end mutate

end fslite
