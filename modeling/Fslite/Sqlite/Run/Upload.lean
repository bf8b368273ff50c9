import Fslite.Sqlite.Run.Writer

namespace fslite

open content

/-- The bytes that the path leads to; a path that leads nowhere has none. -/
structure Db.Holding (db : Db) (ws : WorkspaceId) (path : VirtualPath) (bytes : Bytes) : Prop where
  absent : resolve.resolve db ws path = none → bytes = []
  file : ∀ raw, resolve.resolve db ws path = some raw →
    ∃ g, raw.content_generation_id = some g ∧ bytes.length = raw.size ∧ db.Laid g bytes

namespace Session

variable {σ : Session} {g : GenerationId} {bytes : Bytes}

/-- What a method that runs alone has done when it returns: the store before it
with one staged generation of good content was given its final change. -/
def Committed (σ : Session) (path : VirtualPath) (params : FinalizeParams) (good : Bytes → Prop)
    (node : Node) (w : World) : Prop :=
  ∃ w₀ g data row, WellFormed w₀.db ∧ Private w₀.db g ∧ (∃ gen, w₀.db.generation? g = some gen) ∧
    w₀.db.drop g = σ.before ∧ (σ.policy.laid → w₀.db.Laid g data) ∧ good data ∧
    Finalized σ.rt σ.ws path g data.length params w₀ w row ∧ row.into_node = .ok node

variable {path : VirtualPath} {params : FinalizeParams} {actor_json : Text} {good : Bytes → Prop}

/-- Deleting the staged generation and failing. -/
theorem fail_undone {A : Type} {Q : A → Option GenerationId → World → Prop} {e : FsError} :
    σ.Runs (some g) (σ.Staging g bytes) (do delete_generation_async g; throw e : Task A) Q
      (fun _ _ w => σ.Undone w) :=
  Runs.bind delete_generation (fun _ _ => Runs.throw (fun _ _ hw => hw.2))

/-- Committing the staged generation, or deleting it. -/
theorem finalize_or_delete (hgood : good bytes) :
    σ.Runs (some g) (σ.Staging g bytes)
      (content.finalize σ.ws path g bytes.length params actor_json)
      (fun node _ w => σ.alone → σ.Committed path params good node w)
      (fun _ _ w => σ.Undone w) := by
  unfold content.finalize
  refine Runs.bind (Runs.tryCatch (finalize rfl) (fun e t => Runs.of_fact (fun ht => ?_)))
    (fun outcome t => ?_)
  · subst ht
    exact fail_undone
  · cases outcome with
    | Applied row =>
      cases hnode : row.into_node with
      | ok node =>
        simp only [hnode]
        refine Runs.pure (a := node) (fun w _ hw => ?_)
        intro halone
        obtain ⟨row', hrow, hfinal⟩ | ⟨hnot, _⟩ := hw
        · cases hrow
          obtain ⟨w₀, hwf, hprivate, hstaging, hfinal⟩ := hfinal halone
          exact ⟨w₀, g, bytes, row, hwf, hprivate, hstaging.stored halone, hstaging.rest halone,
            fun hlaid => hstaging.laid hlaid (hstaging.stored halone), hgood, hfinal, hnode⟩
        · exact absurd rfl (hnot row)
      | error e =>
        simp only [hnode]
        refine Runs.throw (e := e) (fun w _ hw => ?_)
        intro halone
        obtain ⟨row', hrow, hfinal⟩ | ⟨hnot, _⟩ := hw
        · cases hrow
          obtain ⟨w₀, _, _, _, hfinal⟩ := hfinal halone
          obtain ⟨node, hok⟩ := RawNode.into_node_ok hfinal.revision_pos
          rw [hok] at hnode
          cases hnode
        · exact absurd rfl (hnot row)
    | _ =>
      refine Runs.weaken (P := fun w => t = some g ∧ σ.Staging g bytes w)
        (Runs.of_fact (fun ht => ?_)) ?_
        (fun _ _ _ _ h => h) (fun _ _ _ _ h => h)
      · subst ht
        exact fail_undone
      · rintro w _ (⟨row, hrow, _⟩ | ⟨_, hw⟩)
        · cases hrow
        · exact hw

/-- The quota of the workspace. -/
theorem max_file_bytes {t : Option GenerationId} {P : World → Prop}
    {R : FsError → Option GenerationId → World → Prop}
    (hstable : (ownership σ.rt σ.policy σ.alone).Stable (Sound σ.rt σ.policy σ.alone) t P)
    (hR : ∀ e t w, P w → R e t w) :
    σ.Runs t P (content.max_file_bytes σ.ws) (fun _ t' w => t' = t ∧ P w) R := by
  unfold content.max_file_bytes
  refine Runs.bind (fetch_max_file_bytes hstable) (fun limit t' => Runs.of_fact (fun ht => ?_))
  subst ht
  cases limit with
  | some limit => exact Runs.pure (fun w _ hw => ⟨rfl, hw⟩)
  | none => exact Runs.throw (fun w _ hw => hR _ _ w hw)

/-- Finishing a filled writer. -/
theorem finish_holds {t : Option GenerationId} {limit : Nat} :
    σ.Runs t (σ.Holds g limit good writer t) writer.finish
      (fun result t w => t = some g ∧ ∃ bytes,
      (result.1 = g ∧ result.2 = bytes.length ∧ good bytes) ∧ σ.Staging g bytes w)
      (fun _ _ w => σ.Undone w) := by
  refine Runs.of_holds (fun front hstored hgood => (finish hstored).post ?_ (fun _ _ _ hR => hR))
  rintro result t w ⟨ht, ⟨hg, hlength⟩, hw⟩
  exact ⟨ht, _, ⟨hg, hlength, hgood⟩, hw⟩

/-- Committing what a finished writer has staged. -/
theorem finalize_finished {result : GenerationId × Nat} {t : Option GenerationId} :
    σ.Runs t (fun w => t = some g ∧ ∃ bytes, (result.1 = g ∧ result.2 = bytes.length ∧ good bytes) ∧
      σ.Staging g bytes w)
      (content.finalize σ.ws path result.1 result.2 params actor_json)
      (fun node _ w => σ.alone → σ.Committed path params good node w)
      (fun _ _ w => σ.Undone w) := by
  refine Runs.of_fact (fun ht => Runs.of_exists (fun bytes => Runs.of_fact (fun hfact => ?_)))
  obtain ⟨hg, hlength, hgood⟩ := hfact
  rw [ht, hg, hlength]
  exact finalize_or_delete hgood

/-- Replacing a file's content by what a source yields. -/
theorem write {source : WriteSource} {options : WriteOptions} (hold : σ.old = none) :
    σ.Runs none σ.Undone (content.write σ.ws path source options actor_json)
      (fun node _ w => σ.alone → σ.Committed path ⟨options.create, options.expected_revision⟩
        (fun data => data = source_bytes source) node w) (fun _ _ w => σ.Undone w) := by
  have hidle : ∀ w, Sound σ.rt σ.policy σ.alone w → σ.Undone w → σ.Idle w :=
    fun w _ hw => ⟨hw, fun g bytes hsome => by rw [hold] at hsome; cases hsome⟩
  unfold content.write
  refine Runs.bind (Runs.weaken (max_file_bytes (idle_stable none) (fun _ _ _ hw => hw.same)) hidle
    (fun _ _ _ _ hQ => hQ) (fun _ _ _ _ hR => hR)) (fun limit t => Runs.of_fact (fun ht => ?_))
  subst ht
  refine Runs.bind (create_generation (fun _ _ hw => hw.same) (fun _ => alone_stable))
    (fun g t => Runs.of_fact (fun ht => ?_))
  subst ht
  unfold stage_source
  exact Runs.bind (Runs.bind (ingest source (Stored.new g limit)) (fun _ _ => finish_holds))
    (fun _ _ => finalize_finished)

/-- A method that runs alone can read what the path leads to. -/
def Readable (σ : Session) (path : VirtualPath) : Prop :=
  σ.alone → σ.policy.laid → ∀ raw g, resolve.resolve σ.before σ.ws path = some raw →
    raw.content_generation_id = some g → σ.before.LaidOut g raw.size

/-- Resolving a path that has to lead to a file, if anywhere. -/
theorem resolve_existing_file (hread : σ.Readable path) :
    σ.Runs none σ.Undone (content.resolve_existing_file σ.ws path)
      (fun node t w => t = none ∧ ((σ.alone → node = resolve.resolve σ.before σ.ws path) ∧
        ∀ raw, node = some raw → raw.kind = .File) ∧ σ.Undone w ∧ σ.Seen node w)
          (fun _ _ w => σ.Undone w) := by
  unfold content.resolve_existing_file
  refine Runs.bind (resolve hread) (fun node t => Runs.of_fact (fun ht => ?_))
  subst ht
  cases node with
  | none =>
    exact Runs.pure (fun w _ hw =>
      ⟨rfl, ⟨fun halone => (hw.1 halone).1, fun raw hraw => by cases hraw⟩,
      fun halone => (hw.1 halone).2, hw.2⟩)
  | some raw =>
    simp only
    split
    · rename_i hkind
      refine Runs.pure (fun w _ hw => ⟨rfl, ⟨fun halone => (hw.1 halone).1, fun raw' hraw => ?_⟩,
        fun halone => (hw.1 halone).2, hw.2⟩)
      cases hraw
      exact hkind
    · exact Runs.throw (fun w _ hw halone => (hw.1 halone).2)

/-- The part of `write_at_impl` that follows the lookup of the file. -/
theorem rewrite_and_commit {kept : Bytes} {old_generation_id : Option GenerationId} {offset : Nat}
    {source : WriteSource} {preserve_old_suffix : Bool}
    (hold : ∀ old, old_generation_id = some old → σ.old = some (old, kept))
    (hnone : old_generation_id = none → kept = []) :
    σ.Runs none σ.Idle
      (do
        let max_file_bytes ← content.max_file_bytes σ.ws
        let generation_id ← start_new_generation σ.ws
        let writer ← content.rewrite
          (ChunkWriter.new generation_id max_file_bytes) old_generation_id kept.length offset source
          preserve_old_suffix
        let (generation_id, length) ← writer.finish
        content.finalize σ.ws path generation_id length params actor_json)
      (fun node _ w => σ.alone → σ.Committed path params (fun bytes => σ.alone → σ.policy.laid →
        bytes = splice kept offset (source_bytes source) preserve_old_suffix) node w)
          (fun _ _ w => σ.Undone w) := by
  refine Runs.bind (max_file_bytes (idle_stable none) (fun _ _ _ hw => hw.same))
    (fun limit t => Runs.of_fact (fun ht => ?_))
  subst ht
  refine Runs.bind (create_generation (fun _ _ hw => hw.same) (fun _ => alone_stable))
    (fun g t => Runs.of_fact (fun ht => ?_))
  subst ht
  exact Runs.bind (rewrite hold hnone)
    (fun _ _ => Runs.bind finish_holds (fun _ _ => finalize_finished))

/-- Replacing a part of a file's content. -/
theorem write_at_impl {offset : Nat} {source : WriteSource} {create : Bool}
    {expected_revision : Option Revision} {preserve_old_suffix : Bool} (hread : σ.Readable path) :
    σ.Runs none σ.Undone
      (content.write_at_impl σ.ws path offset source create expected_revision actor_json preserve_old_suffix)
      (fun node _ w => σ.alone → σ.Committed path ⟨create, expected_revision⟩
      (fun bytes => σ.policy.laid →
        ∃ kept, σ.before.Holding σ.ws path kept ∧
        bytes = splice kept offset (source_bytes source) preserve_old_suffix)
        node w) (fun _ _ w => σ.Undone w) := by
  unfold content.write_at_impl
  refine Runs.bind (resolve_existing_file hread)
    (fun existing t => Runs.of_fact (fun ht => Runs.of_fact (fun hfact => ?_)))
  subst ht
  obtain ⟨hfound, hfile⟩ := hfact
  split
  · exact Runs.throw (fun w _ hw => hw.1)
  · cases existing with
    | none =>
      have hidle : ∀ w, σ.Undone w → { σ with old := none }.Idle w :=
        fun w hw => ⟨hw, fun g bytes hsome => by cases hsome⟩
      have hempty : (none : Option GenerationId) = none → ([] : Bytes) = [] := fun _ => rfl
      rw [show (Option.map RawNode.size none).getD 0 = ([] : Bytes).length from rfl,
        Option.bind_none]
      refine Runs.weaken (rewrite_and_commit (σ := { σ with old := none })
        (fun old hsome => by cases hsome) hempty) (fun w _ hw => hidle w hw.1)
        (fun node t w _ hQ halone => ?_) (fun _ _ _ _ hR => hR)
      obtain ⟨w₀, g, data, row, hwf, hprivate, hstored, hrest, hlaid, hgood, hfinal, hnode⟩ :=
        hQ halone
      refine ⟨w₀, g, data, row, hwf, hprivate, hstored, hrest, hlaid, fun hl =>
        ⟨[], ⟨fun _ => rfl, fun raw hraw => ?_⟩,
        hgood halone hl⟩, hfinal, hnode⟩
      rw [← hfound halone] at hraw
      cases hraw
    | some raw =>
      have hseen : ∀ w, Sound σ.rt σ.policy σ.alone w → σ.Undone w ∧ σ.Seen (some raw) w →
        ∃ g bytes,
          (raw.content_generation_id = some g ∧ bytes.length = raw.size ∧
            (σ.alone → σ.policy.laid → σ.before.Laid g bytes)) ∧
          { σ with old := some (g, bytes) }.Idle w := by
        rintro w _ ⟨hsame, hseen⟩
        obtain ⟨g, bytes, hg, hlength, hintact, hbefore⟩ := hseen raw rfl (hfile raw rfl)
        refine ⟨g, bytes, ⟨hg, hlength, hbefore⟩, hsame, fun g' bytes' hsome => ?_⟩
        cases hsome
        exact hintact
      refine Runs.weaken (Runs.of_exists
        (fun g => Runs.of_exists (fun bytes => Runs.of_fact (fun hfact => ?_)))) hseen
        (fun _ _ _ _ hQ => hQ) (fun _ _ _ _ hR => hR)
      obtain ⟨hg, hlength, hbefore⟩ := hfact
      simp only [Option.bind_some, hg, Option.map_some, Option.getD_some, ← hlength]
      refine Runs.post (rewrite_and_commit (σ := { σ with old := some (g, bytes) })
        (fun old hsome => by cases hsome; rfl)
        (fun hnone => by cases hnone)) (fun node t w hQ halone => ?_) (fun _ _ _ hR => hR)
      obtain ⟨w₀, g', data, row, hwf, hprivate, hstored, hrest, hlaid, hgood, hfinal, hnode⟩ :=
        hQ halone
      refine ⟨w₀, g', data, row, hwf, hprivate, hstored, hrest, hlaid, fun hl =>
        ⟨bytes, ⟨fun habsent => ?_, fun raw' hraw => ?_⟩,
        hgood halone hl⟩, hfinal, hnode⟩
      · rw [← hfound halone] at habsent
        cases habsent
      · rw [← hfound halone, Option.some.injEq] at hraw
        subst hraw
        exact ⟨g, hg, hlength, hbefore halone hl⟩

theorem write_at {offset : Nat} {source : WriteSource} {options : WriteOptions}
    (hread : σ.Readable path) :
    σ.Runs none σ.Undone (content.write_at σ.ws path offset source options actor_json)
      (fun node _ w => σ.alone → σ.Committed path ⟨options.create, options.expected_revision⟩
      (fun bytes => σ.policy.laid →
        ∃ kept, σ.before.Holding σ.ws path kept ∧
        bytes = splice kept offset (source_bytes source) true) node w)
      (fun _ _ w => σ.Undone w) :=
  write_at_impl hread

theorem truncate {length : Nat} {options : MutationOptions} (hread : σ.Readable path) :
    σ.Runs none σ.Undone (content.truncate σ.ws path length options actor_json)
      (fun node _ w => σ.alone → σ.Committed path ⟨false, options.expected_revision⟩
      (fun bytes => σ.policy.laid →
        ∃ kept, σ.before.Holding σ.ws path kept ∧ bytes = splice kept length [] false) node w)
      (fun _ _ w => σ.Undone w) :=
  write_at_impl hread

/-- Appending to a file's content. -/
theorem append {source : WriteSource} {options : WriteOptions} (hread : σ.Readable path) :
    σ.Runs none σ.Undone (content.append σ.ws path source options actor_json)
      (fun node _ w => σ.alone → σ.Committed path ⟨options.create, options.expected_revision⟩
      (fun bytes => σ.policy.laid →
        ∃ kept, σ.before.Holding σ.ws path kept ∧ bytes = kept ++ source_bytes source) node w)
      (fun _ _ w => σ.Undone w) := by
  unfold content.append
  refine Runs.bind (resolve_existing_file hread)
    (fun existing t => Runs.of_fact (fun ht => Runs.of_fact (fun hfact => ?_)))
  subst ht
  refine Runs.weaken (write_at_impl hread) (fun w _ hw => hw.1) (fun node t w _ hQ halone => ?_)
    (fun _ _ _ _ hR => hR)
  obtain ⟨w₀, g, data, row, hwf, hprivate, hstored, hrest, hlaid, hgood, hfinal, hnode⟩ := hQ halone
  refine ⟨w₀, g, data, row, hwf, hprivate, hstored, hrest, hlaid, fun hl => ?_, hfinal, hnode⟩
  obtain ⟨kept, hkept, hdata⟩ := hgood hl
  have hlength : kept.length = (existing.map RawNode.size).getD 0 := by
    rw [hfact.1 halone]
    cases hfound : resolve.resolve σ.before σ.ws path with
    | none => rw [hkept.absent hfound, List.length_nil, Option.map_none, Option.getD_none]
    | some raw =>
      obtain ⟨_, _, hlength, _⟩ := hkept.file raw hfound
      exact hlength
  refine ⟨kept, hkept, hdata.trans ?_⟩
  rw [← hlength, splice_end]

end Session

end fslite
