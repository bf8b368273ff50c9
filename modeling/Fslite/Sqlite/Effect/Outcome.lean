import Fslite.Sqlite.Effect.Basic

namespace fslite

open resolve

/-- The store after an overwritten destination has been purged. -/
def Db.overwritten (db : Db) : Option RawNode → Db
  | none => db
  | some existing => db.purge existing.id

namespace mutate

/-- A destination that passes its checks: the directory its parent path leads
to, the name in it, and what has the name now. -/
structure Destined (db : Db) (ws : WorkspaceId) (target : VirtualPath) (overwrite : Bool)
    (parent : RawNode) (name : Text) (existing : Option RawNode) : Prop where
  found : ∃ parent_path, target.parent = some parent_path ∧
    resolve_following db ws parent_path true = .Found parent
  dir : parent.kind = .Directory
  named : target.name = some name
  occupant : fetch_child db ws parent.id name = existing
  allowed : existing.isSome = true → overwrite = true

/-- A copy that passes its checks. -/
structure Copies (db : Db) (ws : WorkspaceId) (source_path target : VirtualPath)
    (options : CopyOptions) (source parent : RawNode) (name : Text) (existing : Option RawNode) :
    Prop where
  found : resolve_following db ws source_path false = .Found source
  fresh : stale options.expected_revision source.revision = false
  recursive : source.kind = .Directory → options.recursive = true
  dest : Destined db ws target options.overwrite parent name existing

/-- A move that passes its checks. -/
structure Moves (db : Db) (ws : WorkspaceId) (source_path target : VirtualPath)
    (options : MoveOptions) (source parent : RawNode) (name : Text) (existing : Option RawNode) :
    Prop where
  named : source_path.name ≠ none
  found : resolve_following db ws source_path false = .Found source
  fresh : stale options.expected_revision source.revision = false
  outside : is_same_or_descendant source_path target = false
  dest : Destined db ws target options.overwrite parent name existing

/-- A removal that passes its checks. -/
structure Removes (db : Db) (ws : WorkspaceId) (path : VirtualPath) (options : RemoveOptions)
    (node : RawNode) : Prop where
  named : path.name ≠ none
  found : resolve_following db ws path false = .Found node
  fresh : stale options.expected_revision node.revision = false
  empty : node.kind = .Directory → options.recursive = false →
    has_active_children db ws node.id = false

variable {rt : Runtime} {ws : WorkspaceId} {w w' : World} {actor_json : Text}

theorem resolve_destination_ok {target : VirtualPath} {destination : Destination}
    (h : resolve_destination ws target w = .ok (destination, w')) :
    w' = w ∧ ∀ up existing, destination = .Ready up existing → ∃ parent name parent_path,
      parent.id = up ∧
      target.parent = some parent_path ∧
      resolve_following w.db ws parent_path true = .Found parent ∧
      parent.kind = .Directory ∧ target.name = some name ∧
      fetch_child w.db ws up name = existing := by
  unfold resolve_destination at h
  cases hname : target.name with
  | none =>
    simp only [hname] at h
    obtain ⟨rfl, rfl⟩ := Tx.pure_eq_ok.mp h
    exact ⟨rfl, fun up existing hready => by cases hready⟩
  | some name =>
    simp only [hname, Tx.expect_bind_eq_ok, Tx.query_bind] at h
    obtain ⟨parent_path, hparent_path, h⟩ := h
    cases hparent : resolve_following w.db ws parent_path true with
    | Found parent =>
      simp only [hparent] at h
      split at h
      · rename_i hdir
        simp only [Tx.query_bind] at h
        obtain ⟨rfl, rfl⟩ := Tx.pure_eq_ok.mp h
        refine ⟨rfl, fun up existing hready => ?_⟩
        cases hready
        exact ⟨parent, name, parent_path, rfl, hparent_path, hparent, hdir, rfl, rfl⟩
      · obtain ⟨rfl, rfl⟩ := Tx.pure_eq_ok.mp h
        exact ⟨rfl, fun up existing hready => by cases hready⟩
    | _ =>
      simp only [hparent] at h
      obtain ⟨rfl, rfl⟩ := Tx.pure_eq_ok.mp h
      exact ⟨rfl, fun up existing hready => by cases hready⟩

/-- What a `copy` does: nothing, or it overwrites the destination and copies
the subtree of its source. -/
theorem copy_tx_ok {source_path target : VirtualPath} {options : CopyOptions}
    {outcome : CopyOutcome} (h : copy_tx rt ws source_path target options actor_json w = .ok
    (outcome, w')) :
    (w' = w ∧ ∀ row, outcome ≠ .Created row) ∨ ∃ source parent name existing row w₁,
    outcome = .Created row ∧
      Copies w.db ws source_path target options source parent name existing ∧
      copy_subtree rt ws source parent.id name (rt.nowMs w.tick)
        ⟨w.db.overwritten existing, w.tick + 1⟩ =
        .ok (row, w₁) ∧ w'.tick = w₁.tick ∧
      Recorded ws .Copied (some row.id) (some source_path.as_str) (some target.as_str)
        (some 1) w₁.db w'.db := by
  simp only [copy_tx, Tx.query_bind] at h
  cases hsource : resolve_following w.db ws source_path false with
  | Found source =>
    simp only [hsource] at h
    split at h
    · obtain ⟨rfl, rfl⟩ := Tx.pure_eq_ok.mp h
      exact Or.inl ⟨rfl, fun row hrow => by cases hrow⟩
    · rename_i hfresh
      split at h
      · obtain ⟨rfl, rfl⟩ := Tx.pure_eq_ok.mp h
        exact Or.inl ⟨rfl, fun row hrow => by cases hrow⟩
      · rename_i hrecursive
        obtain ⟨destination, w₁, hdest, h⟩ := Tx.bind_eq_ok.mp h
        obtain ⟨rfl, hready⟩ := resolve_destination_ok hdest
        cases destination with
        | Ready up existing =>
          obtain ⟨parent, name, parent_path, rfl, hparent_path, hparent, hdir, hname, hexisting⟩ :=
            hready up existing rfl
          simp only [hname, Tx.expect_bind_eq_ok, Option.some.injEq, exists_eq_left'] at h
          split at h
          · obtain ⟨rfl, rfl⟩ := Tx.pure_eq_ok.mp h
            exact Or.inl ⟨rfl, fun row hrow => by cases hrow⟩
          · rename_i hoverwrite
            have hcopies : Copies w₁.db ws source_path target options source parent name existing :=
              ⟨hsource, by simpa using hfresh, fun hkind => by simpa [hkind] using hrecursive,
                ⟨parent_path, hparent_path, hparent⟩, hdir, hname, hexisting,
                  fun hsome => by simpa [hsome] using hoverwrite⟩
            have hpurged : ∃ w₂ : World, w₂ = ⟨w₁.db.overwritten existing, w₁.tick⟩ ∧ (do
                let now ← Tx.now_ms rt
                let new_node ← copy_subtree rt ws source parent.id name now
                change.append ws .Copied (some new_node.id) (some source_path.as_str)
                  (some target.as_str) (some 1)
                  actor_json now
                return CopyOutcome.Created new_node : Tx CopyOutcome) w₂ = .ok (outcome, w') := by
              cases existing with
              | none => exact ⟨w₁, rfl, h⟩
              | some existing =>
                obtain ⟨_, w₂, hpurge, h⟩ := Tx.bind_eq_ok.mp h
                exact ⟨w₂, purge_subtree_ok hpurge, h⟩
            obtain ⟨_, rfl, hrest⟩ := hpurged
            simp only [Tx.now_ms_bind] at hrest
            obtain ⟨row, w₂, hcopy, hrest⟩ := Tx.bind_eq_ok.mp hrest
            obtain ⟨_, w₃, happ, hrest⟩ := Tx.bind_eq_ok.mp hrest
            obtain ⟨rfl, rfl⟩ := Tx.pure_eq_ok.mp hrest
            obtain ⟨htick, happ⟩ := change.append_ok happ
            exact Or.inr ⟨source, parent, name, existing, row, w₂, rfl, hcopies, hcopy, htick, happ⟩
        | _ =>
          obtain ⟨rfl, rfl⟩ := Tx.pure_eq_ok.mp h
          exact Or.inl ⟨rfl, fun row hrow => by cases hrow⟩
  | _ =>
    simp only [hsource] at h
    obtain ⟨rfl, rfl⟩ := Tx.pure_eq_ok.mp h
    exact Or.inl ⟨rfl, fun row hrow => by cases hrow⟩

/-- What a `move` does: nothing, or it overwrites the destination and writes the
row of its source, if that is still there. -/
theorem move_tx_ok {source_path target : VirtualPath} {options : MoveOptions}
    {outcome : MoveOutcome} (h : move_tx rt ws source_path target options actor_json w = .ok
    (outcome, w')) :
    (w' = w ∧ ∀ row, outcome ≠ .Moved row) ∨ ∃ source parent name existing db,
      outcome = .Moved { source with
        workspace_id := ws, parent_id := some parent.id, name, revision := source.revision + 1
        modified_at_ms := rt.nowMs w.tick } ∧
      Moves w.db ws source_path target options source parent name existing ∧
      (w.db.overwritten existing).update_node source.id
        (moved parent.id name (source.revision + 1) (rt.nowMs w.tick)) = .ok db ∧
      w'.tick = w.tick + 1 ∧ Recorded ws .Moved (some source.id) (some source_path.as_str)
        (some target.as_str)
        (some (source.revision + 1)) db w'.db := by
  unfold move_tx at h
  split at h
  · obtain ⟨rfl, rfl⟩ := Tx.pure_eq_ok.mp h
    exact Or.inl ⟨rfl, fun row hrow => by cases hrow⟩
  · rename_i hnamed
    simp only [Tx.query_bind] at h
    cases hsource : resolve_following w.db ws source_path false with
    | Found source =>
      simp only [hsource] at h
      split at h
      · obtain ⟨rfl, rfl⟩ := Tx.pure_eq_ok.mp h
        exact Or.inl ⟨rfl, fun row hrow => by cases hrow⟩
      · rename_i hfresh
        split at h
        · obtain ⟨rfl, rfl⟩ := Tx.pure_eq_ok.mp h
          exact Or.inl ⟨rfl, fun row hrow => by cases hrow⟩
        · rename_i houtside
          obtain ⟨destination, w₁, hdest, h⟩ := Tx.bind_eq_ok.mp h
          obtain ⟨rfl, hready⟩ := resolve_destination_ok hdest
          cases destination with
          | Ready up existing =>
            obtain ⟨parent, name, parent_path, rfl, hparent_path, hparent, hdir, hname,
              hexisting⟩ :=
              hready up existing rfl
            simp only [hname, Tx.expect_bind_eq_ok, Option.some.injEq, exists_eq_left'] at h
            split at h
            · obtain ⟨rfl, rfl⟩ := Tx.pure_eq_ok.mp h
              exact Or.inl ⟨rfl, fun row hrow => by cases hrow⟩
            · rename_i hoverwrite
              have hmoves : Moves w₁.db ws source_path target options source parent name existing :=
                ⟨fun hnone => hnamed (by simp [hnone]),
                  hsource, by simpa using hfresh, by simpa using houtside,
                  ⟨parent_path, hparent_path, hparent⟩, hdir, hname, hexisting,
                  fun hsome => by simpa [hsome] using hoverwrite⟩
              have hpurged : ∃ w₂ : World, w₂ = ⟨w₁.db.overwritten existing, w₁.tick⟩ ∧ (do
                  let now ← Tx.now_ms rt
                  let new_revision := source.revision + 1
                  Tx.execute (Db.update_node source.id (moved parent.id name new_revision now))
                  change.append ws .Moved (some source.id) (some source_path.as_str)
                    (some target.as_str)
                    (some new_revision) actor_json now
                  return MoveOutcome.Moved { source with
                    workspace_id := ws, parent_id := some parent.id, name, revision := new_revision
                    modified_at_ms := now } : Tx MoveOutcome) w₂ = .ok (outcome, w') := by
                cases existing with
                | none => exact ⟨w₁, rfl, h⟩
                | some existing =>
                  obtain ⟨_, w₂, hpurge, h⟩ := Tx.bind_eq_ok.mp h
                  exact ⟨w₂, purge_subtree_ok hpurge, h⟩
              obtain ⟨_, rfl, hrest⟩ := hpurged
              simp only [Tx.now_ms_bind, Tx.execute_bind_eq_ok] at hrest
              obtain ⟨db, hupdate, hrest⟩ := hrest
              obtain ⟨_, w₂, happ, hrest⟩ := Tx.bind_eq_ok.mp hrest
              obtain ⟨rfl, rfl⟩ := Tx.pure_eq_ok.mp hrest
              obtain ⟨htick, happ⟩ := change.append_ok happ
              exact Or.inr ⟨source, parent, name, existing, db, rfl, hmoves, hupdate, htick, happ⟩
          | _ =>
            obtain ⟨rfl, rfl⟩ := Tx.pure_eq_ok.mp h
            exact Or.inl ⟨rfl, fun row hrow => by cases hrow⟩
    | _ =>
      simp only [hsource] at h
      obtain ⟨rfl, rfl⟩ := Tx.pure_eq_ok.mp h
      exact Or.inl ⟨rfl, fun row hrow => by cases hrow⟩

/-- What a `remove` does: nothing, or it purges the subtree of its node. -/
theorem remove_tx_ok {path : VirtualPath} {options : RemoveOptions} {outcome : RemoveOutcome}
    (h : remove_tx rt ws path options actor_json w = .ok (outcome, w')) :
    (w' = w ∧ outcome ≠ .Removed) ∨ ∃ node, outcome = .Removed ∧ Removes w.db ws path options node ∧
      w'.tick = w.tick + 1 ∧
      Recorded ws .Removed (some node.id)
        (some path.as_str) none none (w.db.purge node.id) w'.db := by
  unfold remove_tx at h
  split at h
  · obtain ⟨rfl, rfl⟩ := Tx.pure_eq_ok.mp h
    exact Or.inl ⟨rfl, fun hrow => by cases hrow⟩
  · rename_i hnamed
    simp only [Tx.query_bind] at h
    cases hnode : resolve_following w.db ws path false with
    | Found node =>
      simp only [hnode] at h
      split at h
      · obtain ⟨rfl, rfl⟩ := Tx.pure_eq_ok.mp h
        exact Or.inl ⟨rfl, fun hrow => by cases hrow⟩
      · rename_i hfresh
        simp only [Tx.query_bind] at h
        split at h
        · obtain ⟨rfl, rfl⟩ := Tx.pure_eq_ok.mp h
          exact Or.inl ⟨rfl, fun hrow => by cases hrow⟩
        · rename_i hempty
          obtain ⟨_, w₁, hpurge, h⟩ := Tx.bind_eq_ok.mp h
          simp only [Tx.now_ms_bind] at h
          obtain ⟨_, w₂, happ, h⟩ := Tx.bind_eq_ok.mp h
          obtain ⟨rfl, rfl⟩ := Tx.pure_eq_ok.mp h
          obtain rfl := purge_subtree_ok hpurge
          obtain ⟨htick, happ⟩ := change.append_ok happ
          refine Or.inr ⟨node, rfl,
            ⟨fun hnone => hnamed (by simp [hnone]), hnode, by simpa using hfresh, ?_⟩, htick, happ⟩
          intro hkind hrecursive
          simpa [hkind, hrecursive] using hempty
    | _ =>
      simp only [hnode] at h
      obtain ⟨rfl, rfl⟩ := Tx.pure_eq_ok.mp h
      exact Or.inl ⟨rfl, fun hrow => by cases hrow⟩

/-- What a change of attributes does on success: it rewrites attributes of one
live node and bumps its revision, or changes nothing. -/
def Attributed (rt : Runtime) (ws : WorkspaceId) (kind : ChangeKind) (path : VirtualPath)
    (w w' : World) (node : RawNode) : Prop :=
  ∃ attributes : Table AttributeRow.pair, (∀ k : NodeId × Text, k.1 ≠ node.id →
      attributes.find? k = w.db.attributes.find? k) ∧ w'.tick = w.tick + 1 ∧
    Recorded ws kind (some node.id) none (some path.as_str) (some (node.revision + 1)) { w.db with
      attributes, nodes := w.db.nodes.modify node.id
        (revised (node.revision + 1) (rt.nowMs w.tick)) } w'.db

theorem put_attribute_ok {row : AttributeRow} {db db' : Db} (h : db.put_attribute row = .ok db') :
    db' = { db with attributes := db.attributes.upsert row } := by
  unfold Db.put_attribute at h
  split at h
  · cases h
    rfl
  · cases h

/-- The attributes are replaced with the revision of their node, and the node is read back. -/
structure Reattributed (rt : Runtime) (ws : WorkspaceId) (kind : ChangeKind) (path : VirtualPath)
    (w w' : World) (node row : RawNode) (attributes : Table AttributeRow.pair) : Prop where
  tick : w'.tick = w.tick + 1
  recorded : Recorded ws kind (some node.id) none (some path.as_str) (some (node.revision + 1))
    { w.db with
    attributes, nodes := w.db.nodes.modify node.id
      (revised (node.revision + 1) (rt.nowMs w.tick)) } w'.db
  stored : fetch_by_id w'.db ws node.id = some row

theorem Reattributed.pos {kind : ChangeKind} {path : VirtualPath} {node row : RawNode}
    {attributes : Table AttributeRow.pair}
    (h : Reattributed rt ws kind path w w' node row attributes) : 0 < row.revision :=
  revision_pos_of_modified (u := revised _ _) h.recorded.appended.nodes h.stored
    (fun _ => Nat.succ_pos _)

theorem set_attribute_tx_cases {path : VirtualPath} {key : Text} {value : Bytes}
    {options : MutationOptions} {outcome : AttributeOutcome}
    (h : set_attribute_tx rt ws path key value options actor_json w = .ok (outcome, w')) :
    (w' = w ∧ ∀ row shown, outcome ≠ .Updated row shown) ∨ ∃ node row,
    resolve_following w.db ws path false = .Found node ∧
      outcome = .Updated row (build_attributes_map rt w'.db node.id) ∧
      stale options.expected_revision node.revision = false ∧
      (¬ (key = [] ∨ MAX_ATTRIBUTE_KEY_BYTES < utf8_len key) ∧
      ¬ MAX_ATTRIBUTE_VALUE_BYTES < value.length ∧
        (w.db.attributes.contains (node.id, key) = true ∨
          (w.db.attributes.rows.filter (fun a => a.node_id = node.id)).length <
          MAX_ATTRIBUTES_PER_NODE)) ∧
      Reattributed rt ws .AttributeSet path w w' node row
        (w.db.attributes.upsert ⟨node.id, key, value⟩) := by
  simp only [set_attribute_tx, Tx.query_bind] at h
  cases hnode : resolve_following w.db ws path false with
  | Found node =>
    simp only [hnode] at h
    split at h
    · obtain ⟨rfl, rfl⟩ := Tx.pure_eq_ok.mp h
      exact Or.inl ⟨rfl, fun row shown hrow => by cases hrow⟩
    · rename_i hkey
      split at h
      · obtain ⟨rfl, rfl⟩ := Tx.pure_eq_ok.mp h
        exact Or.inl ⟨rfl, fun row shown hrow => by cases hrow⟩
      · rename_i hvalue
        split at h
        · obtain ⟨rfl, rfl⟩ := Tx.pure_eq_ok.mp h
          exact Or.inl ⟨rfl, fun row shown hrow => by cases hrow⟩
        · rename_i hfresh
          simp only [Tx.query_bind] at h
          split at h
          · obtain ⟨rfl, rfl⟩ := Tx.pure_eq_ok.mp h
            exact Or.inl ⟨rfl, fun row shown hrow => by cases hrow⟩
          · rename_i hroom
            simp only [Tx.execute_bind_eq_ok, Tx.now_ms_bind] at h
            obtain ⟨db, hput, db', hupdate, h⟩ := h
            obtain ⟨_, w₁, happ, h⟩ := Tx.bind_eq_ok.mp h
            simp only [Tx.query_bind, Tx.expect_bind_eq_ok] at h
            obtain ⟨updated, hupdated, h⟩ := h
            obtain ⟨rfl, rfl⟩ := Tx.pure_eq_ok.mp h
            obtain rfl := put_attribute_ok hput
            obtain rfl := Db.update_node_ok hupdate
            obtain ⟨htick, happ⟩ := change.append_ok happ
            refine Or.inr ⟨node, updated, rfl,
              rfl, by simpa using hfresh, ⟨hkey, hvalue, ?_⟩, htick, happ, hupdated⟩
            by_cases hcontains : w.db.attributes.contains (node.id, key) = true
            · exact Or.inl hcontains
            · exact Or.inr (Nat.not_le.mp (fun hle => hroom ⟨by simpa using hcontains, hle⟩))
  | _ =>
    simp only [hnode] at h
    obtain ⟨rfl, rfl⟩ := Tx.pure_eq_ok.mp h
    exact Or.inl ⟨rfl, fun row shown hrow => by cases hrow⟩

theorem set_attribute_tx_ok {path : VirtualPath} {key : Text} {value : Bytes}
    {options : MutationOptions} {outcome : AttributeOutcome}
    (h : set_attribute_tx rt ws path key value options actor_json w = .ok (outcome, w')) :
    (w' = w ∧ ∀ row attributes, outcome ≠ .Updated row attributes) ∨ ∃ node row attributes,
      (outcome = .Updated row attributes ∧ 0 < row.revision) ∧
      resolve_following w.db ws path false = .Found node ∧
      stale options.expected_revision node.revision = false ∧
      Attributed rt ws .AttributeSet path w w' node := by
  obtain hnothing | ⟨node, row, hnode, houtcome, hfresh, _, hset⟩ := set_attribute_tx_cases h
  · exact Or.inl hnothing
  · refine Or.inr ⟨node, row, _, ⟨houtcome, hset.pos⟩, hnode, hfresh, _, fun k hk => ?_, hset.tick,
      hset.recorded⟩
    rw [Table.find?_upsert, if_neg]
    rintro rfl
    exact hk rfl

/-- What `remove_attribute` does: nothing, or it deletes the attribute. -/
theorem remove_attribute_tx_cases {path : VirtualPath} {key : Text} {options : MutationOptions}
    {outcome : AttributeOutcome}
    (h : remove_attribute_tx rt ws path key options actor_json w = .ok (outcome, w')) :
    (w' = w ∧ ∀ row shown, outcome ≠ .Updated row shown) ∨ ∃ node row,
    resolve_following w.db ws path false = .Found node ∧
      outcome = .Updated row (build_attributes_map rt w'.db row.id) ∧
      stale options.expected_revision node.revision = false ∧
      (w.db.attributes.contains (node.id, key) = false ∧ w' = w ∧ row = node ∨
        w.db.attributes.contains (node.id, key) = true ∧
          Reattributed rt ws .AttributeRemoved path w w' node row
            (w.db.remove_attribute_row node.id key).attributes) := by
  simp only [remove_attribute_tx, Tx.query_bind] at h
  cases hnode : resolve_following w.db ws path false with
  | Found node =>
    simp only [hnode] at h
    split at h
    · obtain ⟨rfl, rfl⟩ := Tx.pure_eq_ok.mp h
      exact Or.inl ⟨rfl, fun row shown hrow => by cases hrow⟩
    · rename_i hfresh
      simp only [Tx.query_bind, Tx.execute_bind_eq_ok, Except.ok.injEq, exists_eq_left'] at h
      split at h
      · rename_i hdeleted
        simp only [Tx.now_ms_bind, Tx.execute_bind_eq_ok] at h
        obtain ⟨db, hupdate, h⟩ := h
        obtain ⟨_, w₁, happ, h⟩ := Tx.bind_eq_ok.mp h
        simp only [Tx.query_bind, Tx.expect_bind_eq_ok] at h
        obtain ⟨updated, hupdated, h⟩ := h
        obtain ⟨rfl, rfl⟩ := Tx.pure_eq_ok.mp h
        obtain rfl := Db.update_node_ok hupdate
        obtain ⟨htick, happ⟩ := change.append_ok happ
        exact Or.inr ⟨node, updated, rfl,
          rfl, by simpa using hfresh, Or.inr ⟨hdeleted, htick, happ, hupdated⟩⟩
      · rename_i hdeleted
        obtain ⟨rfl, rfl⟩ := Tx.pure_eq_ok.mp h
        have hsame : w.db.remove_attribute_row node.id key = w.db := by
          unfold Db.remove_attribute_row
          rw [Table.deleteWhere_eq_self]
          intro a ha
          by_contra hboth
          simp only [Bool.not_eq_false, decide_eq_true_eq] at hboth
          exact hdeleted (Table.contains_iff.mpr
            ⟨a, Table.find?_eq_some.mpr ⟨ha, Prod.ext hboth.1 hboth.2⟩⟩)
        rw [hsame]
        exact Or.inr ⟨node, node, rfl,
          rfl, by simpa using hfresh, Or.inl ⟨by simpa using hdeleted, rfl, rfl⟩⟩
  | _ =>
    simp only [hnode] at h
    obtain ⟨rfl, rfl⟩ := Tx.pure_eq_ok.mp h
    exact Or.inl ⟨rfl, fun row shown hrow => by cases hrow⟩

/-- Without the attribute a successful `remove_attribute` changes nothing. -/
theorem remove_attribute_tx_ok {path : VirtualPath} {key : Text} {options : MutationOptions}
    {outcome : AttributeOutcome} (hwf : NodesWellFormed w.db)
    (h : remove_attribute_tx rt ws path key options actor_json w = .ok (outcome, w')) :
    (w' = w ∧ ∀ row attributes, outcome ≠ .Updated row attributes) ∨ ∃ node row attributes,
      (outcome = .Updated row attributes ∧ 0 < row.revision) ∧
      resolve_following w.db ws path false = .Found node ∧
      stale options.expected_revision node.revision = false ∧
      (w' = w ∨ Attributed rt ws .AttributeRemoved path w w' node) := by
  obtain hnothing | ⟨node, row, hnode, houtcome, hfresh, ⟨_, rfl, rfl⟩ | ⟨_, hremoved⟩⟩ :=
    remove_attribute_tx_cases h
  · exact Or.inl hnothing
  · obtain ⟨n, rfl, hn⟩ := resolve_following_live hnode
    exact Or.inr ⟨_, _, _, ⟨houtcome, hwf.revision n hn.mem⟩, hnode, hfresh, Or.inl rfl⟩
  · refine Or.inr ⟨node, row, _, ⟨houtcome, hremoved.pos⟩, hnode, hfresh,
      Or.inr ⟨_, fun k hk => ?_, hremoved.tick, hremoved.recorded⟩⟩
    show Table.find? (Table.deleteWhere _ _) k = _
    rw [Table.find?_deleteWhere]
    cases hrow : w.db.attributes.find? k with
    | none => rfl
    | some a =>
      have hid : a.node_id = k.1 := congrArg Prod.fst (Table.key_of_find? hrow)
      simp [Option.filter, hid, hk]

end mutate

namespace trash

variable {rt : Runtime} {ws : WorkspaceId} {w w' : World} {actor_json : Text}

/-- A trashing that passes its checks. -/
structure Trashes (db : Db) (ws : WorkspaceId) (path : VirtualPath) (options : MutationOptions)
    (node : RawNode) : Prop where
  named : path.name ≠ none
  found : resolve_following db ws path false = .Found node
  fresh : stale options.expected_revision node.revision = false

theorem insert_trash_ok {row : TrashRow} {db db' : Db} (h : db.insert_trash row = .ok db') :
    ∃ records, db.trash.insert row = some records ∧ db' = { db with trash := records } := by
  unfold Db.insert_trash at h
  split at h
  · split at h
    · rename_i records hins
      cases h
      exact ⟨records, hins, rfl⟩
    · cases h
  · cases h

/-- What a `trash` does: nothing, or it records and marks its node, and appends a
change with the actor's metadata. -/
theorem trash_tx_appends {path : VirtualPath} {options : MutationOptions} {outcome : TrashOutcome}
    (h : trash_tx rt ws path options actor_json w = .ok (outcome, w')) :
    (w' = w ∧ ∀ id row t, outcome ≠ .Trashed id row t) ∨ ∃ node up records,
      outcome = .Trashed (rt.newId w.tick) node (rt.nowMs (w.tick + 1)) ∧
      Trashes w.db ws path options node ∧
      node.parent_id = some up ∧
      w.db.trash.insert ⟨rt.newId w.tick, ws, node.id, up, node.name, rt.nowMs (w.tick + 1)⟩ =
        some records ∧
      change.append ws .Trashed (some node.id)
        (some path.as_str) none (some node.revision) actor_json (rt.nowMs (w.tick + 1))
        ⟨{ w.db with trash := records, nodes :=
          w.db.nodes.modify node.id (trashed (rt.nowMs (w.tick + 1))) }, w.tick + 2⟩ =
          .ok ((), w') := by
  unfold trash_tx at h
  split at h
  · obtain ⟨rfl, rfl⟩ := Tx.pure_eq_ok.mp h
    exact Or.inl ⟨rfl, fun id row t hrow => by cases hrow⟩
  · rename_i hnamed
    simp only [Tx.query_bind] at h
    cases hnode : resolve_following w.db ws path false with
    | Found node =>
      simp only [hnode] at h
      split at h
      · obtain ⟨rfl, rfl⟩ := Tx.pure_eq_ok.mp h
        exact Or.inl ⟨rfl, fun id row t hrow => by cases hrow⟩
      · rename_i hfresh
        simp only [Tx.new_id_bind, Tx.now_ms_bind, Tx.expect_bind_eq_ok, Tx.execute_bind_eq_ok] at h
        obtain ⟨up, hup, db, hinsert, db', hupdate, h⟩ := h
        obtain ⟨_, w₁, happ, h⟩ := Tx.bind_eq_ok.mp h
        obtain ⟨rfl, rfl⟩ := Tx.pure_eq_ok.mp h
        obtain ⟨records, hins, rfl⟩ := insert_trash_ok hinsert
        obtain rfl := Db.update_node_ok hupdate
        exact Or.inr ⟨node, up, records, rfl,
          ⟨fun hnone => hnamed (by simp [hnone]), hnode, by simpa using hfresh⟩, hup,
          hins, happ⟩
    | _ =>
      simp only [hnode] at h
      obtain ⟨rfl, rfl⟩ := Tx.pure_eq_ok.mp h
      exact Or.inl ⟨rfl, fun id row t hrow => by cases hrow⟩

theorem trash_tx_ok {path : VirtualPath} {options : MutationOptions} {outcome : TrashOutcome}
    (h : trash_tx rt ws path options actor_json w = .ok (outcome, w')) :
    (w' = w ∧ ∀ id row t, outcome ≠ .Trashed id row t) ∨ ∃ node up records,
      outcome = .Trashed (rt.newId w.tick) node (rt.nowMs (w.tick + 1)) ∧
      Trashes w.db ws path options node ∧
      node.parent_id = some up ∧
      w.db.trash.insert ⟨rt.newId w.tick, ws, node.id, up, node.name, rt.nowMs (w.tick + 1)⟩ =
        some records ∧
      w'.tick = w.tick + 2 ∧ Recorded ws .Trashed (some node.id)
        (some path.as_str) none (some node.revision) { w.db with
        trash := records, nodes :=
          w.db.nodes.modify node.id (trashed (rt.nowMs (w.tick + 1))) } w'.db := by
  refine (trash_tx_appends h).imp_right ?_
  rintro ⟨node, up, records, houtcome, htrashes, hup, hins, happ⟩
  obtain ⟨htick, happ⟩ := change.append_ok happ
  exact ⟨node, up, records, houtcome, htrashes, hup, hins, htick, happ⟩

/-- Where a restoration puts its node: under the directory that the
destination's parent path leads to, or back under the original parent. -/
inductive Returns (db : Db) (ws : WorkspaceId) (record : TrashRow) :
    Option VirtualPath → RawNode → Text → Prop where
  | given {dest_path parent_path : VirtualPath} {parent : RawNode} {name : Text}
    (hname : dest_path.name = some name)
      (hparent_path : dest_path.parent = some parent_path)
      (hparent : resolve_following db ws parent_path true = .Found parent)
        (hdir : parent.kind = .Directory) :
      Returns db ws record (some dest_path) parent name
  | original {parent : RawNode}
    (hparent : fetch_by_id db ws record.original_parent_id = some parent)
      (hdir : parent.kind = .Directory) : Returns db ws record none parent record.original_name

/-- A restoration that passes its checks. -/
structure Restores (db : Db) (ws : WorkspaceId) (trash_id : TrashId)
    (destination : Option VirtualPath) (options : MutationOptions) (record : TrashRow)
    (node parent : RawNode) (name : Text) : Prop where
  recorded : fetch_trash_row db ws trash_id = some record
  stored : fetch_by_id_any db ws record.node_id = some node
  fresh : stale options.expected_revision node.revision = false
  dest : Returns db ws record destination parent name
  free : fetch_child db ws parent.id name = none

theorem restore_destination_ok {record : TrashRow} {destination : Option VirtualPath}
    {result : Except RestoreOutcome (NodeId × Text)}
    (h : restore_destination ws record destination w = .ok (result, w')) :
    w' = w ∧ (∀ row, result ≠ .error (.Restored row)) ∧
      ∀ up name, result = .ok (up, name) → ∃ parent, parent.id = up ∧
        Returns w.db ws record destination parent name := by
  unfold restore_destination at h
  cases destination with
  | some dest_path =>
    cases hname : dest_path.name with
    | none =>
      simp only [hname] at h
      obtain ⟨rfl, rfl⟩ := Tx.pure_eq_ok.mp h
      exact ⟨rfl, by simp, by simp⟩
    | some name =>
      simp only [hname, Tx.expect_bind_eq_ok, Tx.query_bind] at h
      obtain ⟨parent_path, hparent_path, h⟩ := h
      cases hparent : resolve_following w.db ws parent_path true with
      | Found parent =>
        simp only [hparent] at h
        split at h
        · rename_i hdir
          obtain ⟨rfl, rfl⟩ := Tx.pure_eq_ok.mp h
          refine ⟨rfl, fun row hrow => (by cases hrow), fun up name hok => ?_⟩
          cases hok
          exact ⟨parent, rfl, .given hname hparent_path hparent hdir⟩
        · obtain ⟨rfl, rfl⟩ := Tx.pure_eq_ok.mp h
          exact ⟨rfl, by simp, by simp⟩
      | _ =>
        simp only [hparent] at h
        obtain ⟨rfl, rfl⟩ := Tx.pure_eq_ok.mp h
        exact ⟨rfl, by simp, by simp⟩
  | none =>
    simp only [Tx.query_bind] at h
    cases hparent : fetch_by_id w.db ws record.original_parent_id with
    | some parent =>
      simp only [hparent] at h
      split at h
      · rename_i hdir
        obtain ⟨rfl, rfl⟩ := Tx.pure_eq_ok.mp h
        refine ⟨rfl, fun row hrow => (by cases hrow), fun up name hok => ?_⟩
        cases hok
        obtain ⟨n, _, rfl, _, hid, _⟩ := fetch_by_id_eq_some.mp hparent
        exact ⟨n.toRawNode, hid, .original hparent hdir⟩
      · obtain ⟨rfl, rfl⟩ := Tx.pure_eq_ok.mp h
        exact ⟨rfl, by simp, by simp⟩
    | none =>
      simp only [hparent] at h
      obtain ⟨rfl, rfl⟩ := Tx.pure_eq_ok.mp h
      exact ⟨rfl, by simp, by simp⟩

/-- What a `restore` does: nothing, or it puts its node under the destination
and drops the record. -/
theorem restore_tx_ok {trash_id : TrashId} {destination : Option VirtualPath}
    {options : MutationOptions} {outcome : RestoreOutcome}
    (h : restore_tx rt ws trash_id destination options actor_json w = .ok (outcome, w')) :
    (w' = w ∧ ∀ row, outcome ≠ .Restored row) ∨ ∃ record node parent name db row,
    outcome = .Restored row ∧
      Restores w.db ws trash_id destination options record node parent name ∧
      w.db.update_node node.id (restored parent.id name (node.revision + 1) (rt.nowMs w.tick)) =
        .ok db ∧
      w'.tick = w.tick + 1 ∧
      Recorded ws .Restored (some node.id) none none (some (node.revision + 1))
        (db.remove_trash trash_id) w'.db ∧
      fetch_by_id w'.db ws node.id = some row := by
  simp only [restore_tx, Tx.query_bind] at h
  cases hrecord : fetch_trash_row w.db ws trash_id with
  | none =>
    simp only [hrecord] at h
    obtain ⟨rfl, rfl⟩ := Tx.pure_eq_ok.mp h
    exact Or.inl ⟨rfl, fun row hrow => by cases hrow⟩
  | some record =>
    simp only [hrecord, Tx.query_bind] at h
    cases hnode : fetch_by_id_any w.db ws record.node_id with
    | none =>
      simp only [hnode] at h
      obtain ⟨rfl, rfl⟩ := Tx.pure_eq_ok.mp h
      exact Or.inl ⟨rfl, fun row hrow => by cases hrow⟩
    | some node =>
      simp only [hnode] at h
      split at h
      · obtain ⟨rfl, rfl⟩ := Tx.pure_eq_ok.mp h
        exact Or.inl ⟨rfl, fun row hrow => by cases hrow⟩
      · rename_i hfresh
        obtain ⟨result, w₁, hdest, h⟩ := Tx.bind_eq_ok.mp h
        obtain ⟨rfl, herror, hok⟩ := restore_destination_ok hdest
        cases result with
        | error out =>
          obtain ⟨rfl, rfl⟩ := Tx.pure_eq_ok.mp h
          exact Or.inl ⟨rfl, fun row hrow => herror row (by rw [hrow])⟩
        | ok place =>
          obtain ⟨up, name⟩ := place
          obtain ⟨parent, rfl, hreturns⟩ := hok up name rfl
          simp only [Tx.query_bind] at h
          split at h
          · obtain ⟨rfl, rfl⟩ := Tx.pure_eq_ok.mp h
            exact Or.inl ⟨rfl, fun row hrow => by cases hrow⟩
          · rename_i hfree
            simp only [Tx.now_ms_bind, Tx.execute_bind_eq_ok, Except.ok.injEq, exists_eq_left'] at h
            obtain ⟨db, hupdate, h⟩ := h
            obtain ⟨_, w₂, happ, h⟩ := Tx.bind_eq_ok.mp h
            simp only [Tx.query_bind, Tx.expect_bind_eq_ok] at h
            obtain ⟨row, hrow, h⟩ := h
            obtain ⟨rfl, rfl⟩ := Tx.pure_eq_ok.mp h
            obtain ⟨htick, happ⟩ := change.append_ok happ
            exact Or.inr ⟨record, node, parent, name, db, row, rfl,
              ⟨hrecord, hnode, by simpa using hfresh, hreturns,
              by simpa using hfree⟩, hupdate, htick, happ, hrow⟩

/-- What a `purge` does: nothing, or it purges the subtree of its record's node. -/
theorem purge_tx_ok {trash_id : TrashId} {outcome : PurgeOutcome}
    (h : purge_tx rt ws trash_id actor_json w = .ok (outcome, w')) :
    (w' = w ∧ outcome = .NotFound) ∨ ∃ record, outcome = .Purged ∧
    fetch_trash_row w.db ws trash_id = some record ∧
      w'.tick = w.tick + 1 ∧
      Recorded ws .Purged (some record.node_id) none none none (w.db.purge record.node_id) w'.db := by
  simp only [purge_tx, Tx.query_bind] at h
  cases hrecord : fetch_trash_row w.db ws trash_id with
  | none =>
    simp only [hrecord] at h
    obtain ⟨rfl, rfl⟩ := Tx.pure_eq_ok.mp h
    exact Or.inl ⟨rfl, rfl⟩
  | some record =>
    simp only [hrecord, Tx.now_ms_bind] at h
    obtain ⟨_, w₁, happ, h⟩ := Tx.bind_eq_ok.mp h
    obtain ⟨_, w₂, hpurge, h⟩ := Tx.bind_eq_ok.mp h
    obtain ⟨rfl, rfl⟩ := Tx.pure_eq_ok.mp h
    obtain rfl := mutate.purge_subtree_ok hpurge
    obtain ⟨htick, now, actor, row, changes, hrow, hins, hdb⟩ := change.append_ok happ
    refine Or.inr ⟨record, rfl, rfl, htick, now, actor, row, changes, hrow, hins, ?_⟩
    rw [hdb]
    rfl

end trash

end fslite
