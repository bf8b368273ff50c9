import Fslite.Sqlite.Run.Exceeding

namespace fslite

open resolve content

/-- The calls that stage a content leave the nodes alone. -/
theorem DbCall.Prepares.nodes {rt : Runtime} {ws : WorkspaceId} {o : DbCall} (h : o.Prepares ws)
    (w : World) : (o.exec rt w).2.db.nodes = w.db.nodes := by
  unfold DbCall.exec
  cases hbody : o.body rt w with
  | error fault => rfl
  | ok result =>
    obtain ⟨answer, w'⟩ := result
    simp only
    split
    · cases o with
      | resolve | fetch_max_file_bytes | fetch_chunk_bytes =>
        simp only [body, Tx.query_eq_ok] at hbody
        rw [hbody.2]
      | create_generation ws =>
        obtain ⟨_, _, _, rfl⟩ := content.create_generation_ok hbody
        rfl
      | upsert_chunk g index bytes =>
        obtain ⟨_, rfl⟩ := content.upsert_chunk_ok hbody
        rfl
      | copy_chunk_range source g lower upper =>
        simp only [body, content.copy_chunk_range, Tx.execute_eq_ok] at hbody
        obtain ⟨db, hcopy, rfl⟩ := hbody
        obtain ⟨_, chunks, _, rfl⟩ := content.insert_chunks_ok hcopy
        rfl
      | delete_generation g =>
        obtain rfl := content.delete_generation_ok hbody
        rfl
      | _ => exact h.elim
    · rfl

section run

variable {rt : Runtime} {ws : WorkspaceId} {w : World} {path : VirtualPath} {raw : RawNode}
  {A B : Type}

/-- Two methods that go on alike while the nodes are as they were do the same. -/
theorem Task.run_bind_congr {p : Task A} {f f' : A → Task B}
    (hp : Failing.All (DbCall.Prepares ws) p) {nodes : Table NodeRow.key}
    (hw : w.db.nodes = nodes)
    (hf : ∀ a (w' : World), w'.db.nodes = nodes →
      (f a).run.run (DbCall.exec rt) w' = (f' a).run.run (DbCall.exec rt) w') :
    (p >>= f : Task B).run.run (DbCall.exec rt) w =
      (p >>= f' : Task B).run.run (DbCall.exec rt) w := by
  have hnodes : (p.run.run (DbCall.exec rt) w).2.db.nodes = nodes :=
    hp.run_invariant (I := fun w' : World => w'.db.nodes = nodes) (DbCall.exec rt)
      (fun o w' ho hw' => (ho.nodes w').trans hw') hw
  obtain ⟨result, w', hrun⟩ : ∃ result w', p.run.run (DbCall.exec rt) w = (result, w') := ⟨_, _, rfl⟩
  rw [hrun] at hnodes
  cases result with
  | ok a => rw [Task.run_bind_ok hrun, Task.run_bind_ok hrun, hf a w' hnodes]
  | error err => rw [Task.run_bind_error hrun, Task.run_bind_error hrun]

variable {g : GenerationId} {length : Nat} {params : FinalizeParams} {actor_json : Text}

/-- Where the file exists, it does not matter whether it may be created. -/
theorem finalize_existing (hfound : resolve w.db ws path = some raw)
    {expected : Option Revision} (create create' : Bool) :
    (finalize ws path g length ⟨create, expected⟩ actor_json).run.run (DbCall.exec rt) w =
      (finalize ws path g length ⟨create', expected⟩ actor_json).run.run (DbCall.exec rt) w := by
  have htx : finalize_tx rt ws path g length ⟨create, expected⟩ actor_json w =
      finalize_tx rt ws path g length ⟨create', expected⟩ actor_json w := by
    simp only [finalize_tx, Tx.query_bind, hfound]
  cases hresult : finalize_tx rt ws path g length ⟨create', expected⟩ actor_json w with
  | ok result => rw [finalize_ok (htx.trans hresult), finalize_ok hresult]
  | error fault => rw [finalize_fault (htx.trans hresult), finalize_fault hresult]

theorem resolve_existing_file_found (hfound : resolve w.db ws path = some raw) :
    ∃ result, (resolve_existing_file ws path).run.run (DbCall.exec rt) w = (result, w) ∧
      ∀ existing, result = .ok existing → existing = some raw := by
  by_cases hkind : raw.kind = .File
  · refine ⟨_, resolve_existing_file_alone hfound hkind, fun existing h => ?_⟩
    cases h
    rfl
  · have hexec : (DbCall.resolve ws path).exec rt w = (.ok (some raw), w) := by
      rw [← hfound]
      rfl
    refine ⟨.error (FsError.wrong_node_type path.as_str),
      (Task.run_bind_ok (Task.run_call.trans hexec)).trans ?_, fun existing h => by cases h⟩
    simp only [hkind, if_false]
    rfl

/-- Nor does it for the methods that rewrite a part of a file. -/
theorem write_at_impl_existing (hfound : resolve w.db ws path = some raw) {offset : Nat}
    {source : WriteSource} {expected : Option Revision} {preserve_old_suffix : Bool}
    (create create' : Bool) :
    (write_at_impl ws path offset source create expected actor_json
      preserve_old_suffix).run.run (DbCall.exec rt) w =
    (write_at_impl ws path offset source create' expected actor_json
      preserve_old_suffix).run.run (DbCall.exec rt) w := by
  obtain ⟨result, hexisting, hsome⟩ := @resolve_existing_file_found rt ws w path raw hfound
  unfold write_at_impl
  cases result with
  | error err => rw [Task.run_bind_error hexisting, Task.run_bind_error hexisting]
  | ok existing =>
    obtain rfl := hsome existing rfl
    rw [Task.run_bind_ok hexisting, Task.run_bind_ok hexisting]
    simp only [Option.isNone_some, Bool.false_eq_true, false_and, if_false]
    refine Task.run_bind_congr DbCall.Prepares.max_file_bytes rfl (fun limit w₁ hw₁ => ?_)
    refine @Task.run_bind_congr rt ws w₁ _ _ _ _ _ ⟨rfl, fun _ => trivial⟩ _ hw₁ (fun g w₂ hw₂ => ?_)
    refine Task.run_bind_congr (@DbCall.Prepares.rewrite ws _ _ _ _ _ _) hw₂ (fun writer w₃ hw₃ => ?_)
    refine Task.run_bind_congr (@DbCall.Prepares.finish ws _) hw₃ (fun staged w₄ hw₄ => ?_)
    exact finalize_existing ((resolve_congr hw₄ path).trans hfound) create create'

end run

/-- The code of the error that a result is, if it is one. -/
def verdict {A : Type} : FsResult A → Option ErrorCode
  | .ok _ => none
  | .error err => some err.code

/-- A new file of so many bytes does not come to nothing for want of a place: they are more
than the workspace allows a file, or the parent of the path leads to a node. -/
def Db.Place (db : Db) (ws : WorkspaceId) (path : VirtualPath) (length : Nat) : Prop :=
  ∃ row, db.workspace? ws = some row ∧ (row.max_file_bytes < length ∨
    ∃ parent_path parent, path.parent = some parent_path ∧
      resolve db ws parent_path = some parent)

section absent

variable {rt : Runtime} {ws : WorkspaceId} {w : World} {path : VirtualPath} {g : GenerationId}
  {length : Nat} {actor_json : Text}

/-- A new file comes to nothing for want of its directory, and only for that. -/
theorem finalize_absent (habsent : resolve w.db ws path = none) {expected : Option Revision} :
    verdict ((finalize ws path g length ⟨true, expected⟩ actor_json).run.run
      (DbCall.exec rt) w).1 = some .NotFound ↔
    ¬ ∃ parent_path parent, path.parent = some parent_path ∧
      resolve w.db ws parent_path = some parent := by
  cases hparent_path : path.parent with
  | none =>
    have htx : finalize_tx rt ws path g length ⟨true, expected⟩ actor_json w =
        .ok (.NotFound, w) := by
      simp only [finalize_tx, Tx.query_bind, habsent, hparent_path]
      rfl
    rw [finalize_ok htx]
    refine iff_of_true rfl ?_
    rintro ⟨_, _, h, _⟩
    cases h
  | some parent_path =>
    cases hparent : resolve w.db ws parent_path with
    | none =>
      have htx : finalize_tx rt ws path g length ⟨true, expected⟩ actor_json w =
          .ok (.NotFound, w) := by
        simp only [finalize_tx, Tx.query_bind, habsent, hparent_path, hparent]
        rfl
      rw [finalize_ok htx]
      refine iff_of_true rfl ?_
      rintro ⟨_, parent, h, hfound⟩
      cases h
      rw [hparent] at hfound
      cases hfound
    | some parent =>
      refine iff_of_false ?_ (fun h => h ⟨parent_path, parent, rfl, hparent⟩)
      by_cases hdir : parent.kind = .Directory
      · cases hresult : finalize_tx rt ws path g length ⟨true, expected⟩ actor_json w with
        | error fault =>
          rw [finalize_fault hresult]
          exact fun h => by cases h
        | ok result =>
          obtain ⟨outcome, w'⟩ := result
          obtain ⟨row, rfl⟩ := (finalize_tx_creates habsent rfl hresult).mpr
            ⟨habsent, parent_path, parent, hparent_path, hparent, hdir⟩
          rw [finalize_ok hresult]
          show verdict row.into_node ≠ _
          unfold RawNode.into_node
          split
          · exact fun h => by cases h
          · exact fun h => by cases h
      · have htx : finalize_tx rt ws path g length ⟨true, expected⟩ actor_json w =
            .ok (.WrongNodeType, w) := by
          simp only [finalize_tx, Tx.query_bind, habsent, hparent_path, hparent, hdir, ne_eq,
            not_false_eq_true, if_true]
          rfl
        rw [finalize_ok htx]
        exact fun h => by cases h

theorem resolve_existing_file_absent (habsent : resolve w.db ws path = none) :
    (resolve_existing_file ws path).run.run (DbCall.exec rt) w = (.ok none, w) := by
  have hexec : (DbCall.resolve ws path).exec rt w = (.ok none, w) := by
    rw [← habsent]
    rfl
  exact Task.run_bind_ok (Task.run_call.trans hexec)

/-- A method that may not create a file does nothing where there is none. -/
theorem write_at_impl_kept (habsent : resolve w.db ws path = none) {offset : Nat}
    {source : WriteSource} {expected : Option Revision} {preserve_old_suffix : Bool} :
    (write_at_impl ws path offset source false expected actor_json
      preserve_old_suffix).run.run (DbCall.exec rt) w =
      (.error (FsError.not_found path.as_str), w) :=
  Task.run_bind_ok (resolve_existing_file_absent habsent)

/-- What a lone rewriting of a new file stages. -/
theorem rewrite_fresh_alone {base : Db} {limit offset : Nat} {chunks : List Bytes}
    (hstored : base.content_generations.contains g = true) (hw : Filling base g w) :
    Fills rt base (ChunkWriter.new g limit) (offset + chunks.flatten.length)
      (rewrite (ChunkWriter.new g limit) none 0 offset (chunks.map .ok) true) w := by
  have hsource : ∀ (writer : ChunkWriter) (w : World),
      base.content_generations.contains writer.generation_id = true →
      Filling base writer.generation_id w → writer.total_len ≤ writer.max_file_bytes →
      Fills rt base writer chunks.flatten.length (do
        let writer ← ChunkWriter.ingest (chunks.map .ok) writer
        if true = true ∧ writer.total_len < 0 then do
          let old ← Task.expect none
          writer.or_abort (writer.copy_suffix_from old writer.total_len 0)
        else pure writer) w := by
    intro writer w hstored hw hfits
    refine Fills.of_eq ((ingest_alone hstored hw hfits).bind (fun writer' w' _ _ _ hfits' hw' => ?_))
      (Nat.add_zero _)
    rw [if_neg (fun h => Nat.not_lt_zero _ h.2)]
    exact Fills.pure hfits' hw'
  have hempty : (ChunkWriter.new g limit).total_len ≤ (ChunkWriter.new g limit).max_file_bytes :=
    Nat.zero_le _
  unfold rewrite
  by_cases hbeyond : 0 < offset
  · simp only [hbeyond, if_true, pure_bind]
    refine (or_abort_alone (zero_rounds_alone (le_refl _) hstored hw hempty)).bind
      (fun writer' w' hgeneration _ _ hfits' hw' => ?_)
    exact hsource writer' w' (hgeneration ▸ hstored) hw' hfits'
  · simp only [hbeyond, if_false, pure_bind]
    rw [Nat.eq_zero_of_not_pos hbeyond, Nat.zero_add]
    exact hsource _ w hstored hw hempty

/-- Whether a method that may create a file where there is none misses its place. -/
theorem write_at_impl_absent (hfresh : w.db.generation? (rt.newId w.tick) = none)
    (habsent : resolve w.db ws path = none) (offset : Nat) (chunks : List Bytes)
    (expected : Option Revision) :
    verdict ((write_at_impl ws path offset (chunks.map .ok) true expected actor_json true).run.run
      (DbCall.exec rt) w).1 = some .NotFound ↔
    ¬ w.db.Place ws path (offset + chunks.flatten.length) := by
  unfold write_at_impl
  rw [Task.run_bind_ok (resolve_existing_file_absent habsent)]
  simp only [Option.isNone_none, Bool.not_true, Bool.false_eq_true, and_false, if_false,
    Option.map_none, Option.getD_none, Option.bind_none]
  cases hrow : w.db.workspace? ws with
  | none =>
    have hlimit : (max_file_bytes ws).run.run (DbCall.exec rt) w =
        (.error (FsError.not_found (uuid_text ws)), w) := by
      have hexec : (DbCall.fetch_max_file_bytes ws).exec rt w = (.ok none, w) := by
        show ((.ok (fetch_max_file_bytes w.db ws), w) : FsResult _ × World) = _
        rw [fetch_max_file_bytes, hrow]
        rfl
      exact Task.run_bind_ok (Task.run_call.trans hexec)
    rw [Task.run_bind_error hlimit]
    refine iff_of_true rfl ?_
    rintro ⟨row, hsome, _⟩
    rw [hrow] at hsome
    cases hsome
  | some row =>
    obtain ⟨result, w', hrun, hends⟩ := @staged_run rt ws w path (offset + chunks.flatten.length)
      ⟨true, expected⟩ actor_json row
      (fun writer => rewrite writer none 0 offset (chunks.map .ok) true) hfresh hrow
      (fun g w' hcreate => by
        obtain ⟨gens, rfl, hins, hw'⟩ := create_generation_ok hcreate
        refine rewrite_fresh_alone ?_ ⟨w'.db.content_chunks, rfl, fun _ _ _ => rfl⟩
        rw [hw']
        exact Table.contains_iff.mpr ⟨_, (Table.find?_insert hins _).trans (if_pos rfl)⟩)
    have hplace : w.db.Place ws path (offset + chunks.flatten.length) ↔
        row.max_file_bytes < offset + chunks.flatten.length ∨
          ∃ parent_path parent, path.parent = some parent_path ∧
            resolve w.db ws parent_path = some parent := by
      constructor
      · rintro ⟨row', hrow', hplace⟩
        rw [hrow, Option.some.injEq] at hrow'
        exact hrow' ▸ hplace
      · exact fun hplace => ⟨row, hrow, hplace⟩
    rw [hplace]
    refine (iff_of_eq (congrArg (fun r => verdict r.1 = some ErrorCode.NotFound) hrun)).trans ?_
    obtain ⟨hexceeds, rfl⟩ | ⟨hfits, w₀, hsame, _, hfinal⟩ := hends
    · exact iff_of_false (fun h => by cases h) (fun h => h (Or.inl hexceeds))
    · have habsent' := (resolve_congr hsame.nodes path).trans habsent
      have hverdict := @finalize_absent rt ws w₀ path (rt.newId w.tick)
        (offset + chunks.flatten.length) actor_json habsent' expected
      rw [hfinal] at hverdict
      simp only [resolve_congr hsame.nodes] at hverdict
      rw [hverdict]
      exact not_congr (or_iff_right (not_lt.mpr hfits)).symm

end absent

/-- Two runs end alike: with the same value, or with errors of the same code, and with the same
store. -/
def EndAlike {A : Type} (a b : FsResult A × World) : Prop :=
  (match a.1, b.1 with
  | .ok x, .ok y => x = y
  | .error e, .error f => e.code = f.code
  | _, _ => False) ∧ a.2.db = b.2.db

namespace EndAlike

variable {A B : Type} {a b : FsResult A × World}

theorem refl (a : FsResult A × World) : EndAlike a a := by
  obtain ⟨result, w⟩ := a
  cases result with
  | ok x => exact ⟨rfl, rfl⟩
  | error e => exact ⟨rfl, rfl⟩

theorem verdict_eq (h : EndAlike a b) : verdict a.1 = verdict b.1 := by
  obtain ⟨result, w⟩ := a
  obtain ⟨result', w'⟩ := b
  obtain ⟨hresult, _⟩ := h
  cases result with
  | ok x =>
    cases result' with
    | ok y => rfl
    | error f => exact hresult.elim
  | error e =>
    cases result' with
    | ok y => exact hresult.elim
    | error f => exact congrArg some hresult

theorem map_iff {f : A → B} (hf : Function.Injective f) :
    EndAlike (a.1.map f, a.2) (b.1.map f, b.2) ↔ EndAlike a b := by
  obtain ⟨result, w⟩ := a
  obtain ⟨result', w'⟩ := b
  cases result with
  | ok x =>
    cases result' with
    | ok y => exact and_congr_left' hf.eq_iff
    | error e => exact Iff.rfl
  | error e => cases result' <;> exact Iff.rfl

end EndAlike

section dropped

variable {rt : Runtime} {ctx : RequestContext} {w : World} {path : VirtualPath}
  {expected : Option Revision}

/-- A client that may write finds no file where one has its place. -/
def Db.Lacks (db : Db) (ctx : RequestContext) (path : VirtualPath) (length : Nat) : Prop :=
  ctx.has_capability .Write = true ∧ resolve db ctx.workspace_id path = none ∧
    db.Place ctx.workspace_id path length

/-- A method that creates a missing file ends otherwise than one that does not. -/
theorem Task.created_end_alike {length : Nat} {request : Request} (rewriting : Bool → Task Node)
    (hreach : Reachable rt w)
    (hserve : request.serve rt ctx = (Reply.Node <$> do
      require_capability ctx .Write path.as_str; rewriting true : Task Reply))
    (hmutates : request.Mutates) (hwrites : ∀ operation, request ≠ .Perform operation)
    (hexisting : ∀ raw, resolve w.db ctx.workspace_id path = some raw →
      (rewriting true).run.run (DbCall.exec rt) w = (rewriting false).run.run (DbCall.exec rt) w)
    (habsent : resolve w.db ctx.workspace_id path = none →
      (verdict ((rewriting true).run.run (DbCall.exec rt) w).1 = some .NotFound ↔
        ¬ w.db.Place ctx.workspace_id path length) ∧
      (rewriting false).run.run (DbCall.exec rt) w = (.error (FsError.not_found path.as_str), w))
    {create kept : FsResult Node × World}
    (hcreate : (do require_capability ctx .Write path.as_str; rewriting true : Task Node).run.run
      (DbCall.exec rt) w = create)
    (hkept : (do require_capability ctx .Write path.as_str; rewriting false : Task Node).run.run
      (DbCall.exec rt) w = kept) :
    EndAlike create kept ↔ ¬ w.db.Lacks ctx path length := by
  have hsame : create = kept → ¬ w.db.Lacks ctx path length →
      (EndAlike create kept ↔ ¬ w.db.Lacks ctx path length) := by
    rintro rfl hnot
    exact iff_of_true (EndAlike.refl _) hnot
  by_cases hwrite : ctx.has_capability .Write = true
  · have hdb : ∀ err, create.1 = .error err → create.2.db = w.db := by
      intro err herr
      have halone : request.alone rt ctx w = (create.1.map Reply.Node, create.2) := by
        unfold Request.alone
        rw [hserve, Task.run_map, hcreate]
      have hfailed := Request.failed hreach.sound ctx request hmutates hwrites
        (show (request.alone rt ctx w).1 = .error err by rw [halone, herr]; rfl)
      rwa [halone] at hfailed
    rw [Task.run_required hwrite] at hcreate hkept
    cases hfound : resolve w.db ctx.workspace_id path with
    | some raw =>
      refine hsame ?_ (fun hlacks => by rw [hlacks.2.1] at hfound; cases hfound)
      rw [← hcreate, ← hkept, hexisting raw hfound]
    | none =>
      obtain ⟨hverdict, hlocal⟩ := habsent hfound
      have hlacks : w.db.Lacks ctx path length ↔ w.db.Place ctx.workspace_id path length :=
        ⟨fun h => h.2.2, fun h => ⟨hwrite, hfound, h⟩⟩
      rw [hcreate, ← hlacks] at hverdict
      rw [hlocal] at hkept
      subst hkept
      refine ⟨fun halike => hverdict.mp halike.verdict_eq, fun hnot => ?_⟩
      have hfailed := hverdict.mpr hnot
      obtain ⟨result, w'⟩ := create
      cases result with
      | ok node => cases hfailed
      | error err => exact ⟨Option.some.inj hfailed, hdb err rfl⟩
  · rw [Task.run_denied hwrite] at hcreate hkept
    exact hsame (hcreate.symm.trans hkept) (fun hlacks => hwrite hlacks.1)

/-- The bytes of a new file begin with zeros up to the offset. -/
theorem SqliteFileSystem.write_at_created (hreach : Reachable rt w) (offset : Nat)
    (chunks : List Bytes) {create kept : FsResult Node × World}
    (hcreate : (SqliteFileSystem.write_at rt ctx path offset (chunks.map .ok)
      ⟨true, expected⟩).run.run (DbCall.exec rt) w = create)
    (hkept : (SqliteFileSystem.write_at rt ctx path offset (chunks.map .ok)
      ⟨false, expected⟩).run.run (DbCall.exec rt) w = kept) :
    EndAlike create kept ↔ ¬ w.db.Lacks ctx path (offset + chunks.flatten.length) :=
  @Task.created_end_alike rt ctx w path _ (.WriteAt path offset (chunks.map .ok) ⟨true, expected⟩)
    (fun create => content.write_at ctx.workspace_id path offset (chunks.map .ok) ⟨create, expected⟩
      (actor_json rt ctx)) hreach rfl trivial (fun _ h => by cases h)
    (fun raw hfound => write_at_impl_existing hfound true false)
    (fun habsent => ⟨write_at_impl_absent hreach.sound.issued.generation_fresh habsent offset
      chunks expected, write_at_impl_kept habsent⟩) create kept hcreate hkept

theorem SqliteFileSystem.append_created (hreach : Reachable rt w) (chunks : List Bytes)
    {create kept : FsResult Node × World}
    (hcreate : (SqliteFileSystem.append rt ctx path (chunks.map .ok)
      ⟨true, expected⟩).run.run (DbCall.exec rt) w = create)
    (hkept : (SqliteFileSystem.append rt ctx path (chunks.map .ok)
      ⟨false, expected⟩).run.run (DbCall.exec rt) w = kept) :
    EndAlike create kept ↔ ¬ w.db.Lacks ctx path chunks.flatten.length := by
  refine @Task.created_end_alike rt ctx w path _ (.Append path (chunks.map .ok) ⟨true, expected⟩)
    (fun create => content.append ctx.workspace_id path (chunks.map .ok) ⟨create, expected⟩
      (actor_json rt ctx)) hreach rfl trivial (fun _ h => by cases h)
    (fun raw hfound => ?_) (fun habsent => ⟨?_, ?_⟩) create kept hcreate hkept
  · obtain ⟨result, hexisting, hsome⟩ :=
      @resolve_existing_file_found rt ctx.workspace_id w path raw hfound
    unfold content.append
    cases result with
    | error err => rw [Task.run_bind_error hexisting, Task.run_bind_error hexisting]
    | ok existing =>
      rw [Task.run_bind_ok hexisting, Task.run_bind_ok hexisting]
      exact write_at_impl_existing hfound true false
  · unfold content.append
    rw [Task.run_bind_ok (resolve_existing_file_absent habsent)]
    have hverdict := @write_at_impl_absent rt ctx.workspace_id w path (actor_json rt ctx)
      hreach.sound.issued.generation_fresh habsent 0 chunks expected
    rwa [Nat.zero_add] at hverdict
  · unfold content.append
    rw [Task.run_bind_ok (resolve_existing_file_absent habsent)]
    exact write_at_impl_kept habsent

end dropped

end fslite
