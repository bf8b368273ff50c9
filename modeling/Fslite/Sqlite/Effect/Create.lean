import Fslite.Sqlite.Effect.Basic

namespace fslite

open resolve

/-- A directory without untrashed children. -/
def Barren (db : Db) (ws : WorkspaceId) (raw : RawNode) : Prop :=
  raw.kind = .Directory ∧ ∀ name, fetch_child db ws raw.id name = none

theorem stale_eq_false {expected : Option Revision} {revision : Nat} :
    stale expected revision = false ↔ ∀ e, expected = some e → revision = e.get := by
  cases expected <;> simp [stale]

/-- A new child of a live directory, with its change row. -/
theorem Effect.child {rt : Runtime} {P : Policy} {o : Option GenerationId} {w w' : World}
    {ws : WorkspaceId} {parent : RawNode} {n : NodeRow} {nodes : Table NodeRow.key}
    (hparent : IsLive w.db ws parent) (hdir : parent.kind = .Directory) (htick : w.tick ≤ w'.tick)
    (hfresh : Drawn rt w.tick w'.tick n.id) (hup : n.parent_id = some parent.id)
    (hws : n.workspace_id = ws) (hsegment : Segment n.name)
    (hfree : fetch_child w.db ws parent.id n.name = none) (hactive : n.trashed_at_ms = none)
    (hrevision : n.revision = 1) (hfile : n.kind ≠ .File)
    (hcontent : n.content_generation_id = none) (hins : w.db.nodes.insert n = some nodes)
    {kind : ChangeKind} {node_id : Option NodeId} {path : VirtualPath}
    (happ : Recorded ws kind node_id none (some path.as_str) (some 1) { w.db with nodes } w'.db) :
    Effect rt P o w w' := by
  obtain ⟨p, rfl, hp⟩ := hparent
  refine ⟨htick, (Edits.single
    (.insert n p hfresh hp.mem hdir hp.active hup (hp.workspace.trans hws.symm) hsegment ?_
    hactive hrevision (fun hkind => absurd hkind hfile) (fun g hg => ?_) hins)).tail
      (happ.edit ⟨none, rfl⟩ ⟨some path, rfl⟩ (by simp))⟩
  · rw [hws]
    exact fetch_child_eq_none hfree
  · rw [hcontent] at hg
    cases hg

/-- A node that has just been inserted under a live directory is live. -/
theorem IsLive.inserted {db db' : Db} {ws : WorkspaceId} {parent : RawNode} {n : NodeRow}
    {nodes : Table NodeRow.key} (hparent : IsLive db ws parent) (hdir : parent.kind = .Directory)
    (hup : n.parent_id = some parent.id) (hws : n.workspace_id = ws)
    (hactive : n.trashed_at_ms = none) (hins : db.nodes.insert n = some nodes)
    (hnodes : db'.nodes = nodes) : IsLive db' ws n.toRawNode := by
  obtain ⟨p, rfl, hp⟩ := hparent
  have hmem : ∀ m, m ∈ db'.nodes ↔ m ∈ db.nodes ∨ m = n := by
    rw [hnodes]
    exact fun m => Table.mem_insert hins
  exact ⟨n, rfl, .child (hp.mono (fun m hm => (hmem m).mpr (Or.inl hm))) hdir
    ((hmem n).mpr (Or.inr rfl)) hws hup
    hactive⟩

/-- A directory that has just been inserted has no children. -/
theorem Barren.inserted {db db' : Db} {ws : WorkspaceId} {parent : RawNode} {n : NodeRow}
    {nodes : Table NodeRow.key} (hwf : WellFormed db) (hparent : IsLive db ws parent)
    (hdir : n.kind = .Directory) (hup : n.parent_id = some parent.id)
    (hins : db.nodes.insert n = some nodes) (hnodes : db'.nodes = nodes) :
    Barren db' ws n.toRawNode := by
  have hnew : ∀ m ∈ db.nodes, m.id ≠ n.id := Table.find?_eq_none.mp (Table.insert_eq_some.mp hins).1
  refine ⟨hdir, fun name => ?_⟩
  cases hchild : fetch_child db' ws n.id name with
  | none => rfl
  | some raw =>
    obtain ⟨m, hm, _, _, hmup, _⟩ := fetch_child_eq_some hchild
    rw [hnodes, Table.mem_insert hins] at hm
    obtain hm | rfl := hm
    · obtain ⟨q, hq, hqid, _⟩ := hwf.nodes.parent m hm n.id hmup
      exact absurd hqid (hnew q hq)
    · obtain ⟨p, rfl, hp⟩ := hparent
      rw [hup, Option.some.injEq] at hmup
      exact absurd hmup (hnew p hp.mem)

namespace directory

variable {rt : Runtime} {P : Policy} {o : Option GenerationId} {ws : WorkspaceId} {w w' : World}
  {actor_json : Text}

theorem create_directory_ok {up : NodeId} {name : Text} {full_path : VirtualPath} {raw : RawNode}
    (h : create_directory rt ws up name full_path actor_json w = .ok (raw, w')) :
    ∃ nodes, raw = (directoryRow (rt.newId w.tick) ws up name (rt.nowMs (w.tick + 1))).toRawNode ∧
      w.db.nodes.insert (directoryRow (rt.newId w.tick) ws up name (rt.nowMs (w.tick + 1))) =
        some nodes ∧
      w'.tick = w.tick + 2 ∧ Recorded ws .Created
        (some (rt.newId w.tick)) none (some full_path.as_str) (some 1)
        { w.db with nodes } w'.db := by
  simp only [create_directory, Tx.new_id_bind, Tx.now_ms_bind, Tx.execute_bind_eq_ok] at h
  obtain ⟨db, hinsert, h⟩ := h
  obtain ⟨_, w₁, happ, h⟩ := Tx.bind_eq_ok.mp h
  obtain ⟨rfl, rfl⟩ := Tx.pure_eq_ok.mp h
  obtain ⟨nodes, hins, rfl⟩ := Db.insert_node_ok hinsert
  obtain ⟨htick, happ⟩ := change.append_ok happ
  exact ⟨nodes, rfl, hins, htick, happ⟩

/-- Creating a directory under a live one: the new one is live and has no children. -/
theorem create_directory_effect {parent : RawNode} {name : Text} {full_path : VirtualPath}
    {raw : RawNode} (hwf : WellFormed w.db) (hparent : IsLive w.db ws parent)
    (hdir : parent.kind = .Directory) (hsegment : Segment name)
    (hfree : fetch_child w.db ws parent.id name = none)
    (h : create_directory rt ws parent.id name full_path actor_json w = .ok (raw, w')) :
    Effect rt P o w w' ∧ IsLive w'.db ws raw ∧ Barren w'.db ws raw := by
  obtain ⟨nodes, rfl, hins, htick, happ⟩ := create_directory_ok h
  refine ⟨?_, ?_, ?_⟩
  · exact Effect.child hparent hdir (by omega)
      ⟨w.tick, le_refl _, by omega, rfl⟩ rfl rfl hsegment hfree rfl rfl
      (fun hkind => by cases hkind) rfl hins happ
  · exact hparent.inserted hdir rfl rfl rfl hins happ.appended.nodes
  · exact Barren.inserted hwf hparent rfl rfl hins happ.appended.nodes

/-- The walk of `mkdir` over the ancestors: it fails only before it has created
anything, and after it has created something the current directory is a new one. -/
theorem mkdir_ancestors_effect {options : CreateOptions} {segments : List Text} {current : RawNode}
    {current_path : VirtualPath} {result : Except MkdirOutcome (RawNode × VirtualPath)}
    (hwf : WellFormed w.db) (hcurrent : IsLive w.db ws current)
    (hsegments : ∀ s ∈ segments, Segment s)
    (h : mkdir_ancestors rt ws options actor_json segments current current_path w = .ok
    (result, w')) :
    Effect rt P o w w' ∧
      (∀ outcome, result = .error outcome → w' = w ∧
      ¬ (options.parents = true ∧ Barren w.db ws current)) ∧
      ∀ last path, result = .ok (last, path) → IsLive w'.db ws last ∧
        (w' = w ∨ Barren w'.db ws last) ∧
        (options.parents = true → Barren w.db ws current → Barren w'.db ws last) := by
  induction segments generalizing current current_path w with
  | nil =>
    simp only [mkdir_ancestors, Tx.pure_eq_ok] at h
    obtain ⟨rfl, rfl⟩ := h
    refine ⟨Effect.refl _ _ _ _, fun outcome hout => ?_, fun last path hout => ?_⟩ <;> cases hout
    exact ⟨hcurrent, Or.inl rfl, fun _ hbarren => hbarren⟩
  | cons segment rest ih =>
    have hrest : ∀ s ∈ rest, Segment s := fun s hs => hsegments s (List.mem_cons_of_mem _ hs)
    unfold mkdir_ancestors at h
    split at h
    · rename_i hkind
      obtain ⟨rfl, rfl⟩ := Tx.pure_eq_ok.mp h
      refine ⟨Effect.refl _ _ _ _, fun outcome _ => ⟨rfl, fun hb => hkind hb.2.1⟩,
        fun last path hout => ?_⟩
      cases hout
    · rename_i hkind
      rw [not_not] at hkind
      simp only [Tx.query_bind] at h
      cases hchild : fetch_child w.db ws current.id segment with
      | some child =>
        simp only [hchild, Tx.expect_bind_eq_ok] at h
        obtain ⟨joined, _, h⟩ := h
        obtain ⟨heffect, herror, hok⟩ := ih hwf (fetch_child_live hcurrent hkind hchild) hrest h
        refine ⟨heffect, fun outcome hout => ⟨(herror outcome hout).1, fun hb => ?_⟩,
          fun last path hout => ?_⟩
        · rw [hb.2.2 segment] at hchild
          cases hchild
        · obtain ⟨hlive, hsame, _⟩ := hok last path hout
          refine ⟨hlive, hsame, fun _ hb => ?_⟩
          rw [hb.2 segment] at hchild
          cases hchild
      | none =>
        simp only [hchild] at h
        split at h
        · rename_i hparents
          simp only [Tx.expect_bind_eq_ok] at h
          obtain ⟨joined, _, h⟩ := h
          obtain ⟨created, w₁, hcreate, h⟩ := Tx.bind_eq_ok.mp h
          obtain ⟨heffect₁, hlive₁, hbarren₁⟩ :=
            create_directory_effect (P := P) (o := o) hwf hcurrent hkind
            (hsegments segment List.mem_cons_self) hchild hcreate
          obtain ⟨heffect, herror, hok⟩ := ih (heffect₁.wellFormed hwf) hlive₁ hrest h
          refine ⟨heffect₁.trans heffect, fun outcome hout => ?_, fun last path hout => ?_⟩
          · exact absurd ⟨hparents, hbarren₁⟩ (herror outcome hout).2
          · obtain ⟨hlive, _, hbarren⟩ := hok last path hout
            exact ⟨hlive, Or.inr (hbarren hparents hbarren₁), fun _ _ => hbarren hparents hbarren₁⟩
        · rename_i hparents
          obtain ⟨rfl, rfl⟩ := Tx.pure_eq_ok.mp h
          refine ⟨Effect.refl _ _ _ _, fun outcome _ => ⟨rfl, fun hb => hparents hb.1⟩,
            fun last path hout => ?_⟩
          cases hout

/-- Whether an outcome reports a directory. -/
def MkdirOutcome.Done : MkdirOutcome → Prop
  | .Created _ => True
  | .Existing _ => True
  | _ => False

/-- `mkdir` changes the store by creating directories, and not at all unless it
reports one. -/
theorem mkdir_tx_effect {options : CreateOptions} {segments : List Text} {outcome : MkdirOutcome}
    (hwf : WellFormed w.db) (hsegments : ∀ s ∈ segments, Segment s)
    (h : mkdir_tx rt ws segments options actor_json w = .ok (outcome, w')) :
    Effect rt P o w w' ∧ (¬ outcome.Done → w' = w) := by
  simp only [mkdir_tx, Tx.query_bind] at h
  cases hroot : fetch_root w.db ws with
  | none =>
    simp only [hroot] at h
    obtain ⟨rfl, rfl⟩ := Tx.pure_eq_ok.mp h
    exact ⟨Effect.refl _ _ _ _, fun _ => rfl⟩
  | some root =>
    simp only [hroot, Tx.expect_bind_eq_ok] at h
    obtain ⟨leaf_name, hleaf, h⟩ := h
    obtain ⟨result, w₁, hancestors, h⟩ := Tx.bind_eq_ok.mp h
    obtain ⟨heffect, herror, hok⟩ :=
      mkdir_ancestors_effect (P := P) (o := o) hwf (fetch_root_live hroot)
      (fun s hs => hsegments s (List.dropLast_subset _ hs)) hancestors
    cases result with
    | error out =>
      obtain ⟨rfl, rfl⟩ := Tx.pure_eq_ok.mp h
      exact ⟨heffect, fun _ => (herror out rfl).1⟩
    | ok last =>
      obtain ⟨current, current_path⟩ := last
      obtain ⟨hlive, hsame, _⟩ := hok current current_path rfl
      simp only at h
      split at h
      · rename_i hkind
        obtain ⟨rfl, rfl⟩ := Tx.pure_eq_ok.mp h
        exact ⟨heffect, fun _ => hsame.resolve_right (fun hb => hkind hb.1)⟩
      · rename_i hkind
        rw [not_not] at hkind
        simp only [Tx.query_bind] at h
        cases hexisting : fetch_child w₁.db ws current.id leaf_name with
        | some existing =>
          simp only [hexisting] at h
          have hw₁ : w₁ = w := hsame.resolve_right (fun hb => by simp [hb.2] at hexisting)
          have hw' : w' = w := by
            split at h
            · exact (Tx.pure_eq_ok.mp h).2.symm.trans hw₁
            · split at h
              · exact (Tx.pure_eq_ok.mp h).2.symm.trans hw₁
              · split at h <;> exact (Tx.pure_eq_ok.mp h).2.symm.trans hw₁
          rw [hw']
          exact ⟨Effect.refl _ _ _ _, fun _ => rfl⟩
        | none =>
          simp only [hexisting, Tx.expect_bind_eq_ok] at h
          obtain ⟨leaf_path, _, h⟩ := h
          obtain ⟨created, w₂, hcreate, h⟩ := Tx.bind_eq_ok.mp h
          obtain ⟨rfl, rfl⟩ := Tx.pure_eq_ok.mp h
          have hsegment : Segment leaf_name := hsegments leaf_name (List.mem_of_getLast? hleaf)
          obtain ⟨heffect', _⟩ :=
            create_directory_effect (P := P) (o := o) (heffect.wellFormed hwf) hlive hkind
            hsegment hexisting hcreate
          exact ⟨heffect.trans heffect', fun hnot => absurd trivial hnot⟩

end directory

namespace mutate

variable {rt : Runtime} {P : Policy} {o : Option GenerationId} {ws : WorkspaceId} {w w' : World}
  {actor_json : Text}

/-- Whether an outcome reports a link. -/
def SymlinkOutcome.Done : SymlinkOutcome → Prop
  | .Created _ => True
  | .Existing _ => True
  | _ => False

/-- A link that passes its checks. -/
structure Links (db : Db) (ws : WorkspaceId) (link : VirtualPath) (parent : RawNode) (name : Text) :
    Prop where
  found : ∃ parent_path, link.parent = some parent_path ∧
    resolve_following db ws parent_path true = .Found parent
  dir : parent.kind = .Directory
  named : link.name = some name
  free : fetch_child db ws parent.id name = none

/-- What `symlink` does: nothing, or it creates a link. -/
theorem symlink_tx_ok {options : CreateOptions} {link : VirtualPath} {target_str : Text}
    {outcome : SymlinkOutcome}
    (h : symlink_tx rt ws link target_str options actor_json w = .ok (outcome, w')) :
    (w' = w ∧ ∀ row, outcome ≠ .Created row) ∨ ∃ parent name nodes,
      outcome = .Created (linkRow (rt.newId w.tick) ws parent.id name target_str
        (rt.nowMs (w.tick + 1))).toRawNode ∧
      Links w.db ws link parent name ∧
      w.db.nodes.insert (linkRow (rt.newId w.tick) ws parent.id name target_str
        (rt.nowMs (w.tick + 1))) = some nodes ∧
      w'.tick = w.tick + 2 ∧ Recorded ws .Created (some (rt.newId w.tick)) none (some link.as_str)
        (some 1) { w.db with nodes } w'.db := by
  simp only [symlink_tx, Tx.expect_bind_eq_ok, Tx.query_bind] at h
  obtain ⟨name, hname, parent_path, hparent_path, h⟩ := h
  cases hparent : resolve_following w.db ws parent_path true with
  | Found parent =>
    simp only [hparent] at h
    split at h
    · obtain ⟨rfl, rfl⟩ := Tx.pure_eq_ok.mp h
      exact Or.inl ⟨rfl, fun row hrow => by cases hrow⟩
    · rename_i hkind
      simp only [Tx.query_bind] at h
      cases hexisting : fetch_child w.db ws parent.id name with
      | some existing =>
        simp only [hexisting] at h
        split at h
        · obtain ⟨rfl, rfl⟩ := Tx.pure_eq_ok.mp h
          exact Or.inl ⟨rfl, fun row hrow => by cases hrow⟩
        · split at h
          · obtain ⟨rfl, rfl⟩ := Tx.pure_eq_ok.mp h
            exact Or.inl ⟨rfl, fun row hrow => by cases hrow⟩
          · split at h <;>
              (obtain ⟨rfl, rfl⟩ := Tx.pure_eq_ok.mp h
               exact Or.inl ⟨rfl, fun row hrow => by cases hrow⟩)
      | none =>
        simp only [hexisting, Tx.new_id_bind, Tx.now_ms_bind, Tx.execute_bind_eq_ok] at h
        obtain ⟨db, hinsert, h⟩ := h
        obtain ⟨_, w₁, happ, h⟩ := Tx.bind_eq_ok.mp h
        obtain ⟨rfl, rfl⟩ := Tx.pure_eq_ok.mp h
        obtain ⟨nodes, hins, rfl⟩ := Db.insert_node_ok hinsert
        obtain ⟨htick, happ⟩ := change.append_ok happ
        exact Or.inr ⟨parent, name, nodes, rfl,
          ⟨⟨parent_path, hparent_path, hparent⟩, not_not.mp hkind, hname, hexisting⟩,
          hins, htick, happ⟩
  | _ =>
    simp only [hparent] at h
    obtain ⟨rfl, rfl⟩ := Tx.pure_eq_ok.mp h
    exact Or.inl ⟨rfl, fun row hrow => by cases hrow⟩

theorem Links.segment {db : Db} {link : VirtualPath} {parent : RawNode} {name : Text}
    (h : Links db ws link parent name) :
    Segment name := by
  have hname := h.named
  rw [VirtualPath.name_eq] at hname
  exact VirtualPath.segment_of_mem (List.mem_of_getLast? hname)

/-- `symlink` changes the store by creating a link, and not at all unless it
reports one. -/
theorem symlink_tx_effect {options : CreateOptions} {link : VirtualPath} {target_str : Text}
    {outcome : SymlinkOutcome}
    (h : symlink_tx rt ws link target_str options actor_json w = .ok (outcome, w')) :
    Effect rt P o w w' ∧ (¬ outcome.Done → w' = w) := by
  obtain ⟨rfl, _⟩ | ⟨parent, name, nodes, rfl, hlinks, hins, htick, happ⟩ := symlink_tx_ok h
  · exact ⟨Effect.refl _ _ _ _, fun _ => rfl⟩
  · refine ⟨?_, fun hnot => absurd trivial hnot⟩
    obtain ⟨parent_path, _, hparent⟩ := hlinks.found
    exact Effect.child (resolve_following_live hparent) hlinks.dir (by omega)
      ⟨w.tick, le_refl _, by omega, rfl⟩ rfl rfl
      hlinks.segment hlinks.free rfl rfl (fun hk => by cases hk) rfl hins happ

end mutate

end fslite
