import Fslite.Sqlite.FileSystem
import Fslite.Sqlite.Run.Ownership
import Fslite.Sqlite.Run.Slice

namespace fslite

open content

/-- A committed content that a method has come across: as long as it is stored,
it is what it was. -/
structure Intact (rt : Runtime) (P : Policy) (alone : Prop) (g : GenerationId) (bytes : Bytes)
    (w : World) : Prop where
  drawn : Drawn rt 0 w.tick g
  complete : ∀ row, w.db.generation? g = some row → row.complete = true
  laid : P.laid → (∃ row, w.db.generation? g = some row) → w.db.Laid g bytes
  stored : alone → ∃ row, w.db.generation? g = some row

namespace Intact

variable {rt : Runtime} {P : Policy} {alone : Prop} {g : GenerationId} {bytes : Bytes}
  {w w' : World}

theorem same (h : Intact rt P alone g bytes w) (htick : w.tick ≤ w'.tick)
    (hsame : SameContent w.db w'.db g) :
    Intact rt P alone g bytes w' where
  drawn := h.drawn.mono (le_refl _) htick
  complete row hrow := h.complete row (hsame.row ▸ hrow)
  laid hlaid hrow := (hsame.laid bytes).mpr (h.laid hlaid (hsame.row ▸ hrow))
  stored halone := hsame.row ▸ h.stored halone

theorem foreign {t : Option GenerationId} (h : Intact rt P alone g bytes w) (hnot : ¬ alone)
    (hstep : Foreign rt P t w w') :
    Intact rt P alone g bytes w' := by
  have htick : w.tick ≤ w'.tick := by
    obtain ⟨_, _, _, _, heffect⟩ := hstep
    exact heffect.tick
  obtain hsame | hnone := hstep.committed h.drawn h.complete
  · exact h.same htick hsame
  · refine ⟨h.drawn.mono (le_refl _) htick, fun row hrow => ?_, fun _ hrow => ?_, fun halone =>
      absurd halone hnot⟩
    · rw [hnone] at hrow
      cases hrow
    · rw [hnone] at hrow
      obtain ⟨row, hrow⟩ := hrow
      cases hrow

end Intact

/-- What is fixed while one method stages a generation: the policy, whether the
method runs alone, its workspace, the store before it and the content it
replaces. -/
structure Session where
  rt : Runtime
  policy : Policy
  alone : Prop
  ws : WorkspaceId
  before : Db
  old : Option (GenerationId × Bytes)

namespace Session

/-- The triples of a session's programs. -/
def Runs {A : Type} (σ : Session) (t : Option GenerationId) (P : World → Prop) (p : Task A)
    (Q : A → Option GenerationId → World → Prop)
    (R : FsError → Option GenerationId → World → Prop) : Prop :=
  (ownership σ.rt σ.policy σ.alone).FailingTriple (DbCall.exec σ.rt)
    (fun o w => ¬ σ.alone → σ.policy.Allows σ.rt w o)
    (Sound σ.rt σ.policy σ.alone) t P p Q R

namespace Runs

variable {A B : Type} {σ : Session} {t : Option GenerationId} {P : World → Prop} {p : Task A}
variable {Q : A → Option GenerationId → World → Prop}
  {R : FsError → Option GenerationId → World → Prop}

theorem pure {a : A} (h : ∀ w, Sound σ.rt σ.policy σ.alone w → P w → Q a t w) :
    σ.Runs t P (pure a) Q R :=
  Ownership.FailingTriple.pure (fun w hw _ hP => h w hw hP)

theorem throw {e : FsError} (h : ∀ w, Sound σ.rt σ.policy σ.alone w → P w → R e t w) :
    σ.Runs t P (throw e) Q R :=
  Ownership.FailingTriple.throw (fun w hw _ hP => h w hw hP)

theorem bind {f : A → Task B} {Q' : B → Option GenerationId → World → Prop} (h : σ.Runs t P p Q R)
    (hf : ∀ a t', σ.Runs t' (Q a t') (f a) Q' R) : σ.Runs t P (p >>= f) Q' R :=
  Ownership.FailingTriple.bind h hf

theorem tryCatch {f : FsError → Task A} {R' : FsError → Option GenerationId → World → Prop}
    (h : σ.Runs t P p Q R') (hf : ∀ e t', σ.Runs t' (R' e t') (f e) Q R) :
    σ.Runs t P (tryCatch p f) Q R :=
  Ownership.FailingTriple.tryCatch h hf

theorem weaken {P' : World → Prop} {Q' : A → Option GenerationId → World → Prop}
    {R' : FsError → Option GenerationId → World → Prop} (h : σ.Runs t P p Q R)
    (hP : ∀ w, Sound σ.rt σ.policy σ.alone w → P' w → P w)
    (hQ : ∀ a t w, Sound σ.rt σ.policy σ.alone w → Q a t w → Q' a t w)
    (hR : ∀ e t w, Sound σ.rt σ.policy σ.alone w → R e t w → R' e t w) : σ.Runs t P' p Q' R' :=
  Ownership.FailingTriple.weaken h (fun w hw _ => hP w hw) (fun a t w hw _ => hQ a t w hw)
    (fun e t w hw _ => hR e t w hw)

theorem of_fact {φ : Prop} (h : φ → σ.Runs t P p Q R) : σ.Runs t (fun w => φ ∧ P w) p Q R :=
  Ownership.FailingTriple.of_fact h

theorem of_exists {X : Type} {P : X → World → Prop} (h : ∀ x, σ.Runs t (P x) p Q R) :
    σ.Runs t (fun w => ∃ x, P x w) p Q R :=
  Ownership.FailingTriple.of_exists h

/-- Weaker assertions at both ends of a program. -/
theorem post {Q' : A → Option GenerationId → World → Prop}
    {R' : FsError → Option GenerationId → World → Prop} (h : σ.Runs t P p Q R)
    (hQ : ∀ a t w, Q a t w → Q' a t w) (hR : ∀ e t w, R e t w → R' e t w) :
    σ.Runs t P p Q' R' :=
  h.weaken (fun _ _ hP => hP) (fun a t w _ => hQ a t w) (fun e t w _ => hR e t w)

end Runs

/-- Nothing is staged: a method that runs alone finds the store as it was. -/
structure Idle (σ : Session) (w : World) : Prop where
  same : σ.alone → w.db = σ.before
  old : ∀ g bytes, σ.old = some (g, bytes) → Intact σ.rt σ.policy σ.alone g bytes w

/-- The generation is staged and its chunks hold the given bytes, as long as
nobody deletes its workspace; without it the store is what it was. -/
structure Staging (σ : Session) (g : GenerationId) (bytes : Bytes) (w : World) : Prop where
  workspace : ∀ row, w.db.generation? g = some row → row.workspace_id = σ.ws
  stored : σ.alone → ∃ row, w.db.generation? g = some row
  rest : σ.alone → w.db.drop g = σ.before
  laid : σ.policy.laid → (∃ row, w.db.generation? g = some row) → w.db.Laid g bytes
  old : ∀ old content, σ.old = some (old, content) → old ≠ g ∧
    Intact σ.rt σ.policy σ.alone old content w

variable {σ : Session} {g : GenerationId} {bytes : Bytes}

theorem idle_stable (t : Option GenerationId) :
    (ownership σ.rt σ.policy σ.alone).Stable (Sound σ.rt σ.policy σ.alone) t σ.Idle := by
  intro w w' _ _ hrely hidle
  exact ⟨fun halone => absurd halone hrely.1, fun g bytes hold =>
    (hidle.old g bytes hold).foreign hrely.1 hrely.2⟩

theorem staging_stable : (ownership σ.rt σ.policy σ.alone).Stable (Sound σ.rt σ.policy σ.alone)
    (some g) (σ.Staging g bytes) := by
  intro w w' _ hheld hrely hstaging
  have hold : ∀ old content, σ.old = some (old, content) → old ≠ g ∧
    Intact σ.rt σ.policy σ.alone old content w' :=
    fun old content h => ⟨(hstaging.old old content h).1,
      (hstaging.old old content h).2.foreign hrely.1 hrely.2⟩
  obtain hsame | hnone := hrely.2.content (hheld g rfl).1 (Or.inl rfl)
  · exact ⟨fun row hrow => hstaging.workspace row (hsame.row ▸ hrow), fun halone =>
      absurd halone hrely.1,
      fun halone => absurd halone hrely.1,
      fun hlaid hrow => (hsame.laid bytes).mpr (hstaging.laid hlaid (hsame.row ▸ hrow)), hold⟩
  · refine ⟨fun row hrow => ?_, fun halone => absurd halone hrely.1, fun halone =>
      absurd halone hrely.1,
      fun _ hrow => ?_, hold⟩
    · rw [hnone] at hrow
      cases hrow
    · rw [hnone] at hrow
      obtain ⟨row, hrow⟩ := hrow
      cases hrow

/-- A statement about a method that runs alone is stable. -/
theorem alone_stable {t : Option GenerationId} {φ : World → Prop} :
    (ownership σ.rt σ.policy σ.alone).Stable (Sound σ.rt σ.policy σ.alone) t
    (fun w => σ.alone → φ w) :=
  fun _ _ _ _ hrely _ halone => absurd halone hrely.1

/-- One call of a session that always commits. -/
theorem call {o : DbCall} {t : Option GenerationId} {P : World → Prop}
    {Q : o.Answer → Option GenerationId → World → Prop}
    {R : FsError → Option GenerationId → World → Prop}
    (hcommits : ∀ answer, o.commits answer = true)
    (hok : ∀ w answer w', Sound σ.rt σ.policy σ.alone w →
    (ownership σ.rt σ.policy σ.alone).held t w → P w →
      (¬ σ.alone → σ.policy.Allows σ.rt w o) → o.body σ.rt w = .ok (answer, w') → ∃ t',
      (ownership σ.rt σ.policy σ.alone).Kept (Sound σ.rt σ.policy σ.alone) t t' w w' ∧
      (ownership σ.rt σ.policy σ.alone).Stable (Sound σ.rt σ.policy σ.alone) t' (Q answer t') ∧
      Q answer t' w')
    (herr : ∀ w fault, Sound σ.rt σ.policy σ.alone w → (ownership σ.rt σ.policy σ.alone).held t w →
    P w →
      o.body σ.rt w = .error fault → ∀ e,
      (ownership σ.rt σ.policy σ.alone).Stable (Sound σ.rt σ.policy σ.alone) t (R e t) ∧ R e t w) :
    σ.Runs t P (Task.call o) Q R := by
  refine Ownership.FailingTriple.perform o (fun r : DbCall.Res o => (r : FsResult o.Answer))
    (fun w hw ht hP hmay => ?_)
  unfold DbCall.exec
  cases hbody : o.body σ.rt w with
  | ok result =>
    obtain ⟨answer, w'⟩ := result
    obtain ⟨t', hkept, hstable, hQ⟩ := hok w answer w' hw ht hP hmay hbody
    simp only [hcommits, if_true]
    exact ⟨t', hkept, hstable, hQ⟩
  | error fault =>
    exact ⟨t, kept_of_effect hw ht (Effect.refl _ _ _ _) ht (fun g hg => Or.inl hg),
      herr w fault hw ht hP hbody _⟩

/-- A call that only reads. -/
theorem query {o : DbCall} {f : Db → o.Answer} {t : Option GenerationId} {P : World → Prop}
    {R : FsError → Option GenerationId → World → Prop} {φ : o.Answer → World → Prop}
    (hbody : o.body σ.rt = Tx.query f) (hcommits : ∀ answer, o.commits answer = true)
    (hstable : ∀ answer, (ownership σ.rt σ.policy σ.alone).Stable (Sound σ.rt σ.policy σ.alone) t
    (φ answer)) (hφ : ∀ w, Sound σ.rt σ.policy σ.alone w →
    (ownership σ.rt σ.policy σ.alone).held t w → P w →
      (¬ σ.alone → σ.policy.Allows σ.rt w o) → φ (f w.db) w) :
    σ.Runs t P (Task.call o) (fun answer t' w => t' = t ∧ φ answer w) R := by
  refine call hcommits (fun w answer w' hw ht hP hmay hok => ?_) (fun w fault _ _ _ herr => ?_)
  · rw [hbody, Tx.query_eq_ok] at hok
    obtain ⟨rfl, rfl⟩ := hok
    refine ⟨t, kept_of_effect hw ht (Effect.refl _ _ _ _) ht (fun g hg => Or.inl hg), ?_, rfl,
      hφ w hw ht hP hmay⟩
    exact fun s s' hs hheld hrely hp => ⟨rfl, hstable _ s s' hs hheld hrely hp.2⟩
  · rw [hbody] at herr
    cases herr

/-- Dropping a generation that has just been stored gives the store back. -/
theorem drop_created {db : Db} (hwf : ContentsWellFormed db) {row : GenerationRow}
    {gens : Table GenerationRow.id} (hins : db.content_generations.insert row = some gens) :
    Db.drop row.id { db with content_generations := gens } = db := by
  have hnone : db.generation? row.id = none := (Table.insert_eq_some.mp hins).1
  have hgens : gens.deleteWhere (fun r => r.id = row.id) = db.content_generations := by
    rw [Table.deleteWhere_insert hins (by simp)]
    exact Table.deleteWhere_eq_self (fun r hr => by simpa using Table.find?_eq_none.mp hnone r hr)
  have hchunks : db.content_chunks.deleteWhere (fun c => c.generation_id = row.id) =
      db.content_chunks := by
    refine Table.deleteWhere_eq_self (fun c hc => ?_)
    obtain ⟨stored, hstored⟩ := hwf.chunk c hc
    by_contra heq
    rw [Bool.not_eq_false, decide_eq_true_eq] at heq
    rw [heq, hnone] at hstored
    cases hstored
  simp only [Db.drop, hgens, hchunks]

/-- Starting a new generation. -/
theorem create_generation {R : FsError → Option GenerationId → World → Prop}
    (hR : ∀ e w, σ.Idle w → R e none w)
    (hstable : ∀ e, (ownership σ.rt σ.policy σ.alone).Stable
    (Sound σ.rt σ.policy σ.alone) none (R e none)) :
    σ.Runs none σ.Idle (Task.call (.create_generation σ.ws))
      (fun g t w => t = some g ∧ σ.Staging g [] w) R := by
  refine call (fun _ => rfl) (fun w g w' hw ht hidle _ hok => ?_)
    (fun w fault _ _ hidle _ e => ⟨hstable e, hR e w hidle⟩)
  have heffect : Effect σ.rt σ.policy none w w' := content.create_generation_effect hok
  obtain ⟨gens, rfl, hins, rfl⟩ := content.create_generation_ok hok
  have hnone : w.db.generation? (σ.rt.newId w.tick) = none := (Table.insert_eq_some.mp hins).1
  have hrow : Db.generation? { w.db with content_generations := gens } (σ.rt.newId w.tick) = _ :=
    (Db.generation?_insert hins (σ.rt.newId w.tick)).trans (if_pos rfl)
  have hdrawn : Drawn σ.rt w.tick (w.tick + 2) (σ.rt.newId w.tick) :=
    ⟨w.tick, le_refl _, by omega, rfl⟩
  have hlaid : w.db.Laid (σ.rt.newId w.tick) [] := by
    obtain ⟨bytes, hlength, hbytes⟩ := laidOut_zero hw.wf.contents hnone
    rwa [List.length_eq_zero_iff.mp hlength] at hbytes
  refine ⟨some (σ.rt.newId w.tick), kept_of_effect hw ht heffect ?_ ?_, ?_, rfl, ?_⟩
  · intro g hg
    cases hg
    refine ⟨hdrawn.mono (Nat.zero_le _) (le_refl _), hw.wf.contents.unreferenced_of_none hnone,
      fun row hrow' => ?_⟩
    rw [← Option.some.inj (hrow.symm.trans hrow')]
  · intro g hg
    cases hg
    exact Or.inr hdrawn
  · exact fun s s' hs hheld hrely hp => ⟨rfl, staging_stable s s' hs hheld hrely hp.2⟩
  · refine ⟨fun row hrow' => ?_, fun _ => ⟨_, hrow⟩, fun halone => ?_, fun _ _ => hlaid,
      fun old content hold => ?_⟩
    · rw [← Option.some.inj (hrow.symm.trans hrow')]
    · rw [← hidle.same halone]
      exact drop_created hw.wf.contents hins
    · have hintact := hidle.old old content hold
      have hne : old ≠ σ.rt.newId w.tick := by
        rintro rfl
        exact hintact.drawn.disjoint hdrawn
      refine ⟨hne, hintact.same (by simp) ⟨?_, fun _ => rfl⟩⟩
      exact (Db.generation?_insert hins old).trans (if_neg (Ne.symm hne))

theorem Staging.private_held {w : World} (h : (ownership σ.rt σ.policy σ.alone).held (some g) w) :
    Private w.db g :=
  (h g rfl).2

/-- Changing only chunks of the staged generation keeps what surrounds it. -/
theorem Staging.chunks {w : World} {chunks : Table ChunkRow.key} {bytes' : Bytes}
    (h : σ.Staging g bytes w)
    (hother : ∀ k : GenerationId × Nat, k.1 ≠ g → chunks.find? k = w.db.content_chunks.find? k)
    (hrest : chunks.deleteWhere (fun c => c.generation_id = g) =
      w.db.content_chunks.deleteWhere (fun c => c.generation_id = g))
    (hlaid : σ.policy.laid → (∃ row, w.db.generation? g = some row) →
      Db.Laid { w.db with content_chunks := chunks } g bytes') :
    σ.Staging g bytes' { w with db := { w.db with content_chunks := chunks } } where
  workspace := h.workspace
  stored := h.stored
  rest halone := by
    rw [← h.rest halone]
    simp only [Db.drop, hrest]
  laid := hlaid
  old old content hold := by
    obtain ⟨hne, hintact⟩ := h.old old content hold
    exact ⟨hne, hintact.same (le_refl _) ⟨rfl, fun i => hother (old, i) hne⟩⟩

theorem held_chunks {w : World} {chunks : Table ChunkRow.key}
    (h : (ownership σ.rt σ.policy σ.alone).held (some g) w) :
    (ownership σ.rt σ.policy σ.alone).held (some g)
    { w with db := { w.db with content_chunks := chunks } } := by
  intro g' hg'
  obtain ⟨hdrawn, hprivate⟩ := h g' hg'
  exact ⟨hdrawn, hprivate.unreferenced, hprivate.incomplete⟩

/-- Storing the next chunk of the staged generation. -/
theorem upsert_chunk {index : Nat} {chunk : Bytes} (haligned : bytes.length = index * CHUNK_SIZE)
    (hne : chunk ≠ []) (hle : chunk.length ≤ CHUNK_SIZE) :
    σ.Runs (some g) (σ.Staging g bytes) (Task.call (.upsert_chunk g index chunk))
      (fun _ t w => t = some g ∧ σ.Staging g (bytes ++ chunk) w)
      (fun _ t w => ¬ σ.alone ∧ t = some g ∧ σ.Staging g bytes w) := by
  refine call (fun _ => rfl) (fun w answer w' hw ht hstaging _ hok => ?_)
    (fun w fault hw ht hstaging herr e => ?_)
  · have heffect : Effect σ.rt σ.policy (some g) w w' := content.upsert_chunk_effect (Staging.private_held ht) hok
    obtain ⟨_, rfl⟩ := content.upsert_chunk_ok hok
    refine ⟨some g, kept_of_effect hw ht heffect (held_chunks ht) (fun g hg => Or.inl hg),
      fun s s' hs hheld hrely hp => ⟨rfl, staging_stable s s' hs hheld hrely hp.2⟩, rfl, ?_⟩
    refine hstaging.chunks (fun k hk => ?_) ?_ (fun hlaid hrow i => ?_)
    · rw [Table.find?_upsert, if_neg]
      rintro rfl
      exact hk rfl
    · refine Table.deleteWhere_upsert (fun c hc => ?_)
      exact decide_eq_true (congrArg Prod.fst hc)
    · rw [piece?_append haligned hne hle, Table.find?_upsert]
      by_cases hi : i = index
      · subst hi
        rw [if_pos rfl, if_pos rfl]
        rfl
      · rw [if_neg (fun heq => hi (congrArg Prod.snd heq).symm), if_neg hi]
        exact hstaging.laid hlaid hrow i
  · have hnot : ¬ σ.alone := by
      intro halone
      have hstored : w.db.content_generations.contains g = true :=
        Table.contains_iff.mpr (hstaging.stored halone)
      simp [DbCall.body, content.upsert_chunk, Tx.execute, Db.put_chunk, hstored] at herr
    exact ⟨fun s s' hs hheld hrely hp => ⟨hnot, rfl, staging_stable s s' hs hheld hrely hp.2.2⟩,
      hnot, rfl, hstaging⟩

/-- Copying whole chunks from the old content, all of which it has. -/
theorem copy_chunk_range {old : GenerationId} {kept : Bytes} {whole : Nat}
    (hold : σ.old = some (old, kept)) :
    σ.Runs (some g) (σ.Staging g []) (Task.call (.copy_chunk_range old g 0 whole))
      (fun _ t w => t = some g ∧ σ.Staging g (kept.take (whole * CHUNK_SIZE)) w)
      (fun _ t w => t = some g ∧ σ.Staging g [] w) := by
  refine call (fun _ => rfl) (fun w answer w' hw ht hstaging hmay hok => ?_)
    (fun w fault hw ht hstaging herr e => ?_)
  · have heffect : Effect σ.rt σ.policy (some g) w w' :=
      content.copy_chunk_range_effect (Staging.private_held ht) hok
    simp only [DbCall.body, content.copy_chunk_range, Tx.execute_eq_ok] at hok
    obtain ⟨db, hcopy, rfl⟩ := hok
    obtain ⟨_, chunks, hins, rfl⟩ := content.insert_chunks_ok hcopy
    refine ⟨some g, kept_of_effect hw ht heffect (held_chunks ht) (fun g hg => Or.inl hg),
      fun s s' hs hheld hrely hp => ⟨rfl, staging_stable s s' hs hheld hrely hp.2⟩, rfl, ?_⟩
    refine hstaging.chunks (content.insert_chunks_other hins) ?_ (fun hlaid hrow i => ?_)
    · refine Table.deleteWhere_insertAll hins (fun c hc => ?_)
      obtain ⟨c', _, rfl⟩ := List.mem_map.mp hc
      exact decide_eq_true rfl
    · have hempty : w.db.content_chunks.find? (g, i) = none := by
        have hnil := hstaging.laid hlaid hrow i
        rw [piece?_eq_none.mpr (Nat.zero_le _)] at hnil
        exact Option.map_eq_none_iff.mp hnil
      obtain ⟨_, hintact⟩ := hstaging.old old kept hold
      have hstored : ∃ row, w.db.generation? old = some row := by
        by_cases halone : σ.alone
        · exact hintact.stored halone
        · exact hmay halone hlaid
      rw [show (Table.find? _ _).map ChunkRow.bytes = _ from insert_chunks_target hins i hempty,
        hintact.laid hlaid hstored i, piece?_take chunk_size_pos]
      simp
  · exact ⟨fun s s' hs hheld hrely hp => ⟨rfl, staging_stable s s' hs hheld hrely hp.2⟩, rfl,
      hstaging⟩

theorem piece_of_laid {db : Db} (h : db.Laid g bytes) (i : Nat) :
    content.fetch_chunk_bytes db g i = piece CHUNK_SIZE bytes i := by
  unfold content.fetch_chunk_bytes
  rw [h i, piece?]
  split
  · rw [Option.getD_some]
  · rename_i hlt
    rw [piece, List.drop_of_length_le (by omega), List.take_nil, Option.getD_none]

/-- Fetching a chunk of the old content. -/
theorem fetch_chunk_bytes {old : GenerationId} {kept : Bytes} {index : Nat}
    {R : FsError → Option GenerationId → World → Prop} (hold : σ.old = some (old, kept)) :
    σ.Runs (some g) (σ.Staging g bytes) (Task.call (.fetch_chunk_bytes old index))
      (fun chunk t w => t = some g ∧
      (σ.alone → σ.policy.laid → chunk = piece CHUNK_SIZE kept index) ∧
        σ.Staging g bytes w) R := by
  refine query (f := fun db => content.fetch_chunk_bytes db old index) rfl (fun _ => rfl)
    (fun chunk s s' hs hheld hrely hp => ⟨fun halone => absurd halone hrely.1,
    staging_stable s s' hs hheld hrely hp.2⟩)
      (fun w hw ht hstaging _ => ⟨fun halone hlaid => ?_, hstaging⟩)
  obtain ⟨_, hintact⟩ := hstaging.old old kept hold
  exact piece_of_laid (hintact.laid hlaid (hintact.stored halone)) index

/-- Deleting the staged generation, an error being ignored. -/
theorem delete_generation {R : FsError → Option GenerationId → World → Prop} :
    σ.Runs (some g) (σ.Staging g bytes) (Task.call_ignored (.delete_generation g))
      (fun _ t w => t = none ∧ (σ.alone → w.db = σ.before)) R := by
  refine Ownership.FailingTriple.perform _ (fun _ => .ok ()) (fun w hw ht hstaging _ => ?_)
  refine ⟨none, ?_, fun s s' hs hheld hrely hp => ⟨rfl, fun halone => absurd halone hrely.1⟩, rfl,
    fun halone => ?_⟩
  · refine kept_of_effect hw ht ?_ (held_none _) (fun g hg => by cases hg)
    unfold DbCall.exec
    cases hbody : DbCall.body σ.rt (.delete_generation g) w with
    | error fault => exact Effect.refl _ _ _ _
    | ok result => exact content.delete_generation_effect (Staging.private_held ht) hbody
  · have hremove : w.db.remove_generation g = .ok (w.db.drop g) := by
      unfold Db.remove_generation
      rw [if_neg]
      · rfl
      · intro hboth
        rw [Bool.and_eq_true, List.any_eq_true] at hboth
        obtain ⟨_, n, hn, hng⟩ := hboth
        exact (Staging.private_held ht).unreferenced n hn (by simpa using hng)
    rw [← hstaging.rest halone]
    simp [DbCall.exec, DbCall.body, content.delete_generation, Tx.execute, hremove, DbCall.commits]

theorem Staging.staged {w : World} {length : Nat} (h : σ.Staging g bytes w)
    (hprivate : Private w.db g) (hlength : bytes.length = length) :
    Staged σ.policy w.db σ.ws g length :=
  ⟨hprivate.unreferenced, h.workspace, fun hlaid hrow => ⟨bytes, hlength, h.laid hlaid hrow⟩⟩

/-- Committing the staged generation. -/
theorem finalize {path : VirtualPath} {length : Nat} {params : FinalizeParams} {actor_json : Text}
    (hlength : bytes.length = length) :
    σ.Runs (some g) (σ.Staging g bytes) (Task.call (.finalize σ.ws path g length params actor_json))
      (fun outcome t w => (∃ row, outcome = .Applied row ∧
      (σ.alone → ∃ w₀, WellFormed w₀.db ∧ Private w₀.db g ∧
          σ.Staging g bytes w₀ ∧ Finalized σ.rt σ.ws path g length params w₀ w row)) ∨
        (∀ row, outcome ≠ .Applied row) ∧ t = some g ∧ σ.Staging g bytes w)
      (fun _ t w => t = some g ∧ σ.Staging g bytes w) := by
  refine call (fun _ => rfl) (fun w outcome w' hw ht hstaging _ hok => ?_)
    (fun w fault hw ht hstaging herr e => ?_)
  · have hprivate := Staging.private_held ht
    have heffect : Effect σ.rt σ.policy (some g) w w' :=
      content.finalize_tx_effect hok hw.wf rfl (hstaging.staged hprivate hlength)
    obtain ⟨rfl, hnot⟩ | ⟨row, rfl, hfinal⟩ := content.finalize_tx_ok hok
    · refine ⟨some g, kept_of_effect hw ht heffect ht (fun g hg => Or.inl hg),
        fun s s' hs hheld hrely hp => Or.inr ⟨hnot, rfl, ?_⟩, Or.inr ⟨hnot, rfl, hstaging⟩⟩
      obtain ⟨row, hrow, _⟩ | hp := hp
      · exact absurd hrow (hnot row)
      · exact staging_stable s s' hs hheld hrely hp.2.2
    · refine ⟨none, kept_of_effect hw ht heffect (held_none _) (fun g hg => by cases hg),
        fun s s' hs hheld hrely hp => Or.inl ⟨row, rfl, fun halone => absurd halone hrely.1⟩,
        Or.inl ⟨row, rfl, fun _ => ⟨w, hw.wf, hprivate, hstaging, hfinal⟩⟩⟩
  · exact ⟨fun s s' hs hheld hrely hp => ⟨rfl, staging_stable s s' hs hheld hrely hp.2⟩, rfl,
      hstaging⟩

/-- What a method knows of a file that it has resolved: its content is intact as
long as it is stored. -/
def Seen (σ : Session) (node : Option RawNode) (w : World) : Prop :=
  ∀ raw, node = some raw → raw.kind = .File → ∃ g bytes, raw.content_generation_id = some g ∧
    bytes.length = raw.size ∧
    Intact σ.rt σ.policy σ.alone g bytes w ∧ (σ.alone → σ.policy.laid → σ.before.Laid g bytes)

theorem seen_stable (t : Option GenerationId) (node : Option RawNode) :
    (ownership σ.rt σ.policy σ.alone).Stable (Sound σ.rt σ.policy σ.alone) t (σ.Seen node) := by
  intro w w' _ _ hrely hseen raw hraw hkind
  obtain ⟨g, bytes, hg, hlength, hintact, hbefore⟩ := hseen raw hraw hkind
  exact ⟨g, bytes, hg, hlength, hintact.foreign hrely.1 hrely.2, hbefore⟩

/-- The content of a stored file, whatever is known of it. -/
theorem seen_of_live {node : Option RawNode} {w : World} (hw : Sound σ.rt σ.policy σ.alone w)
    (hnode : ∀ raw, node = some raw → IsLive w.db σ.ws raw) (hsame : σ.alone → w.db = σ.before)
    (hfile : σ.alone → σ.policy.laid → ∀ raw g, node = some raw →
    raw.content_generation_id = some g →
      σ.before.LaidOut g raw.size) : σ.Seen node w := by
  intro raw hraw hkind
  obtain ⟨n, rfl, hn⟩ := hnode raw hraw
  obtain ⟨g, hg⟩ := Option.ne_none_iff_exists'.mp (hw.wf.contents.file n hn.mem hkind)
  obtain ⟨_, row, hrow, hcomplete, _⟩ := hw.wf.contents.generation n hn.mem g hg
  have hcontent : ∃ bytes : Bytes, bytes.length = n.size ∧ (σ.policy.laid → w.db.Laid g bytes) := by
    by_cases hlaid : σ.policy.laid
    · by_cases halone : σ.alone
      · obtain ⟨bytes, hlength, hbytes⟩ := hfile halone hlaid n.toRawNode g hraw hg
        exact ⟨bytes, hlength, fun _ => hsame halone ▸ hbytes⟩
      · obtain ⟨bytes, hlength, hbytes⟩ := hw.laid halone hlaid n hn.mem g hg
        exact ⟨bytes, hlength, fun _ => hbytes⟩
    · exact ⟨List.replicate n.size 0, List.length_replicate, fun h => absurd h hlaid⟩
  obtain ⟨bytes, hlength, hbytes⟩ := hcontent
  refine ⟨g, bytes, hg, hlength,
    ⟨hw.issued.generation g row hrow, fun row' hrow' => ?_, fun hlaid _ => hbytes hlaid,
    fun _ => ⟨row, hrow⟩⟩, fun halone hlaid => hsame halone ▸ hbytes hlaid⟩
  rw [hrow, Option.some.injEq] at hrow'
  rw [← hrow', hcomplete]

/-- Resolving a path while nothing is staged. -/
theorem resolve {path : VirtualPath} {R : FsError → Option GenerationId → World → Prop}
    (hfile : σ.alone → σ.policy.laid → ∀ raw g, resolve.resolve σ.before σ.ws path = some raw →
      raw.content_generation_id = some g → σ.before.LaidOut g raw.size) :
    σ.Runs none (fun w => σ.alone → w.db = σ.before) (Task.call (.resolve σ.ws path))
      (fun node t w => t = none ∧
      (σ.alone → node = resolve.resolve σ.before σ.ws path ∧ w.db = σ.before) ∧ σ.Seen node w)
      R := by
  refine query (f := fun db => resolve.resolve db σ.ws path) rfl (fun _ => rfl)
    (fun node s s' hs hheld hrely hp =>
    ⟨fun halone => absurd halone hrely.1, seen_stable none node s s' hs hheld hrely hp.2⟩)
    (fun w hw ht hsame _ => ⟨fun halone => ⟨by rw [hsame halone], hsame halone⟩, ?_⟩)
  refine seen_of_live hw (fun raw hraw => resolve.resolve_live hraw) hsame
    (fun halone hlaid raw g hraw hg => ?_)
  exact hfile halone hlaid raw g (by rw [← hsame halone]; exact hraw) hg

/-- Fetching the quota. -/
theorem fetch_max_file_bytes {t : Option GenerationId} {P : World → Prop}
    {R : FsError → Option GenerationId → World → Prop}
    (hstable : (ownership σ.rt σ.policy σ.alone).Stable (Sound σ.rt σ.policy σ.alone) t P) :
    σ.Runs t P (Task.call (.fetch_max_file_bytes σ.ws)) (fun _ t' w => t' = t ∧ P w) R :=
  query (f := fun db => content.fetch_max_file_bytes db σ.ws) rfl (fun _ => rfl) (fun _ => hstable)
    (fun _ _ _ hP _ => hP)

end Session

end fslite
