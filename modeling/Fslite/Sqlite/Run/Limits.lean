import Fslite.Sqlite.Run.Isolation
import Fslite.Sqlite.Run.Quota

namespace fslite

open resolve mutate content

/-- A workspace is one that was there before, with its limits, or it is new. -/
def LimitsKnown (fresh : Uuid → Prop) (db db' : Db) : Prop :=
  ∀ row ∈ db'.workspaces, (∃ row' ∈ db.workspaces, row.SameLimits row') ∨ fresh row.id

namespace LimitsKnown

variable {fresh fresh' : Uuid → Prop} {db db' db'' : Db}

theorem of_kept (h : LimitsKept db db') : LimitsKnown fresh db db' :=
  fun row hrow => Or.inl (h row hrow)

theorem trans (h : LimitsKnown fresh db db') (h' : LimitsKnown fresh db' db'') :
    LimitsKnown fresh db db'' := by
  intro row hrow
  obtain ⟨row', hrow', hsame⟩ | hfresh := h' row hrow
  · obtain ⟨row'', hrow'', hsame'⟩ | hfresh := h row' hrow'
    · exact Or.inl ⟨row'', hrow'', hsame.trans hsame'⟩
    · exact Or.inr (hsame.id ▸ hfresh)
  · exact Or.inr hfresh

theorem mono (h : LimitsKnown fresh db db') (hfresh : ∀ id, fresh id → fresh' id) :
    LimitsKnown fresh' db db' :=
  fun row hrow => (h row hrow).imp_right (hfresh row.id)

/-- A changed row that keeps its limits. -/
theorem of_modify {ws : WorkspaceId} {u : Table.Update WorkspaceRow.id}
    (h : db'.workspaces = db.workspaces.modify ws u) (hlimits : ∀ row, (u.apply row).SameLimits row) :
    LimitsKnown fresh db db' := by
  intro row hrow
  rw [h] at hrow
  obtain ⟨row', hrow', rfl⟩ := Table.mem_modify.mp hrow
  refine Or.inl ⟨row', hrow', ?_⟩
  split
  · exact hlimits row'
  · exact .refl row'

end LimitsKnown

theorem Edit.limits {P : Policy} {fresh : Uuid → Prop} {mine : GenerationId → Prop} {db db' : Db}
    (h : Edit P fresh mine db db') : LimitsKnown fresh db db' := by
  cases h with
  | append => exact .of_modify rfl (fun _ => ⟨rfl, rfl, rfl, rfl⟩)
  | reset => exact .of_modify rfl (fun _ => ⟨rfl, rfl, rfl, rfl⟩)
  | enter row root hroot hid hseq now hws hins =>
    intro row' hrow'
    obtain hrow' | rfl := (Table.mem_insert hws).mp hrow'
    · exact Or.inl ⟨row', hrow', .refl row'⟩
    · exact Or.inr hid
  | erase =>
    exact fun row hrow => Or.inl ⟨row, (Table.mem_deleteWhere.mp hrow).1, .refl row⟩
  | _ => exact .of_kept (.of_eq rfl)

/-- Whatever others do, the workspaces keep their limits. -/
theorem Foreign.limits {rt : Runtime} {P : Policy} {w w' : World}
    (h : Relation.ReflTransGen (Foreign rt P none) w w') :
    w.tick ≤ w'.tick ∧ LimitsKnown (Drawn rt w.tick w'.tick) w.db w'.db := by
  induction h with
  | refl => exact ⟨le_refl _, .of_kept (.of_eq rfl)⟩
  | tail _ hstep ih =>
    obtain ⟨htick, hknown⟩ := ih
    obtain ⟨_, _, _, _, heffect⟩ := hstep
    have hedits : ∀ {P fresh mine db db'}, Edits P fresh mine db db' → LimitsKnown fresh db db' := by
      intro P fresh mine db db' h
      induction h with
      | refl => exact .of_kept (.of_eq rfl)
      | tail _ hedit ih => exact ih.trans hedit.limits
    exact ⟨htick.trans heffect.tick,
      (hknown.mono (fun _ hid => hid.mono (le_refl _) heffect.tick)).trans
        ((hedits heffect.edits).mono (fun _ hid => hid.mono htick (le_refl _)))⟩

section limits

variable {rt : Runtime} {may may' : System → Nat → DbCall → Prop} {c d : System}

/-- A workspace that is there before a part of a run and after it has the same limits. -/
theorem Reached.same_limits (h : Reached rt may c)
    (hrun : Steps (DbCall.exec rt) (Served rt) may' c d) {row row' : WorkspaceRow}
    (hrow : row ∈ c.state.db.workspaces) (hrow' : row' ∈ d.state.db.workspaces)
    (hid : row.id = row'.id) : row'.SameLimits row := by
  have hissued : Drawn rt 0 c.state.tick row.id := by
    obtain ⟨_, hknown⟩ := Foreign.limits h.any.foreign
    obtain ⟨_, hnone, _⟩ | hdrawn := hknown row hrow
    · exact absurd hnone (Table.not_mem_empty _)
    · exact hdrawn
  obtain ⟨_, hknown⟩ := Foreign.limits (h.any.steps_foreign
    (Steps.mono hrun (fun _ hp => hp) (fun c _ o _ => Policy.allows_any rt c.state o)))
  obtain ⟨row₀, hrow₀, hsame⟩ | hdrawn := hknown row' hrow'
  · rwa [c.state.db.workspaces.eq_of_key_eq hrow hrow₀ (hid.trans hsame.id)]
  · exact ((hid ▸ hissued).disjoint hdrawn).elim

end limits

/-- No node of the workspace has more than so many bytes. -/
def Db.Sized (db : Db) (ws : WorkspaceId) (limit : Nat) : Prop := ∀ size ∈ db.sizes ws, size ≤ limit

namespace Db.Sized

variable {rt : Runtime} {ws ws' : WorkspaceId} {limit : Nat} {removed added : List Nat}
  {db db' : Db} {w w' : World}

theorem grow (h : db.Sized ws limit) (hgrows : Grows ws' removed added db db')
    (hadded : ws' = ws → ∀ size ∈ added, size ≤ limit) : db'.Sized ws limit := by
  intro size hsize
  by_cases hws : ws' = ws
  · subst hws
    have hin := hgrows.own.subset (List.mem_append_left removed hsize)
    obtain hold | hnew := List.mem_append.mp hin
    · exact h size hold
    · exact hadded rfl size hnew
  · exact h size ((hgrows.other ws (Ne.symm hws)).subset hsize)

theorem resizes {fits : Prop} (h : w.db.Sized ws limit) (hresizes : Resizes ws' fits w w') :
    w'.db.Sized ws limit := by
  obtain ⟨db, removed, added, hgone, hgrows, _, hadded⟩ := hresizes
  refine (h.grow hgone (fun _ _ hsize => by cases hsize)).grow hgrows (fun hws size hsize => ?_)
  obtain rfl | hold := hadded size hsize
  · exact Nat.zero_le _
  · exact h size (hws ▸ hold)

/-- A root that is put into a store. -/
theorem root {id : NodeId} {now : Int} (h : db.Sized ws limit)
    (hins : db.nodes.insert (workspace.rootRow id ws' now) = some db'.nodes) :
    db'.Sized ws limit := by
  intro size hsize
  obtain ⟨n, hn, hnws, rfl⟩ := Db.mem_sizes.mp hsize
  obtain hn | rfl := (Table.mem_insert hins).mp hn
  · exact h _ (Db.mem_sizes.mpr ⟨n, hn, hnws, rfl⟩)
  · exact Nat.zero_le _

theorem clear (h : db.Sized ws limit) (ws' : WorkspaceId) : (db.clear ws').Sized ws limit := by
  intro size hsize
  obtain ⟨n, hn, hnws, rfl⟩ := Db.mem_sizes.mp hsize
  exact h _ (Db.mem_sizes.mpr ⟨n, (Db.mem_clear_nodes.mp hn).1, hnws, rfl⟩)

end Db.Sized

/-- A content that is committed in the workspace has no more than so many bytes. -/
def DbCall.Small (ws : WorkspaceId) (limit : Nat) : DbCall → Prop
  | .finalize ws' _ _ length _ _ => ws' = ws → length ≤ limit
  | _ => True

theorem DbCall.exec_sized {rt : Runtime} {ws : WorkspaceId} {limit : Nat} {call : DbCall}
    {w : World} (hwf : WellFormed w.db) (hsized : w.db.Sized ws limit) (hsmall : call.Small ws limit) :
    (call.exec rt w).2.db.Sized ws limit := by
  refine DbCall.exec_keeps (I := fun db => db.Sized ws limit) hwf hsized (fun _ _ => hsized)
    (fun hwf hsized h => hsized.resizes (transact_resizes hwf h)) ?_ ?_ ?_ ?_
  · rintro ws' path g length params actor_json outcome w' rfl h
    obtain ⟨rfl, _⟩ | ⟨row, _, hfinal⟩ := finalize_tx_ok h
    · exact hsized
    · obtain ⟨removed, hgrows, _⟩ := hfinal.grows
      exact hsized.grow hgrows (fun hws size hsize => List.mem_singleton.mp hsize ▸ hsmall hws)
  · intro options result w' h
    obtain ⟨row, nodes, workspaces, _, _, _, _, _, _, _, hins, rfl⟩ :=
      workspace.create_workspace_ok h
    exact hsized.root hins
  · intro ws' result w' h
    obtain ⟨rfl, _⟩ | ⟨row, nodes, _, _, hins, rfl⟩ := workspace.reset_workspace_ok hwf h
    · exact hsized
    · exact (hsized.clear ws').root hins
  · intro ws' u w' h
    obtain rfl := workspace.delete_workspace_ok hwf h
    exact hsized.clear ws'

end fslite
