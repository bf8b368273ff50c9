import Fslite.Sqlite.Effect.Call

namespace fslite

theorem Drawn.disjoint {rt : Runtime} {a b c : Nat} {id : Uuid} (h : Drawn rt a b id)
    (h' : Drawn rt b c id) : False := by
  obtain ⟨j, _, hj, hid⟩ := h
  obtain ⟨k, hk, _, hid'⟩ := h'
  have heq := rt.newId_injective (hid.trans hid'.symm)
  omega

/-- Every stored identifier has been drawn. -/
structure Issued (rt : Runtime) (w : World) : Prop where
  node : ∀ n ∈ w.db.nodes, Drawn rt 0 w.tick n.id
  generation : ∀ g row, w.db.generation? g = some row → Drawn rt 0 w.tick g
  trash : ∀ t ∈ w.db.trash, Drawn rt 0 w.tick t.id

theorem Issued.empty (rt : Runtime) : Issued rt ⟨Db.empty, 0⟩ := by
  constructor <;> simp [Db.empty, Db.generation?]

/-- The next identifier is that of no generation. -/
theorem Issued.generation_fresh {rt : Runtime} {w : World} (h : Issued rt w) :
    w.db.generation? (rt.newId w.tick) = none := by
  cases hrow : w.db.generation? (rt.newId w.tick) with
  | none => rfl
  | some row =>
    exact ((h.generation _ row hrow).disjoint ⟨w.tick, le_refl _, Nat.lt_succ_self _, rfl⟩).elim

namespace Effect

variable {rt : Runtime} {P : Policy} {o : Option GenerationId} {w w' : World}

theorem issued (h : Effect rt P o w w') (hissued : Issued rt w) : Issued rt w' := by
  have hfresh : ∀ id, Drawn rt w.tick w'.tick id → Drawn rt 0 w'.tick id :=
    fun id hid => hid.mono (Nat.zero_le _) (le_refl _)
  have hall : ∀ db, Edits P (Drawn rt w.tick w'.tick)
    (fun g => o = some g ∨ Drawn rt w.tick w'.tick g) w.db db →
      (∀ n ∈ db.nodes, Drawn rt 0 w'.tick n.id) ∧
        (∀ g row, db.generation? g = some row → Drawn rt 0 w'.tick g) ∧
        ∀ t ∈ db.trash, Drawn rt 0 w'.tick t.id := by
    intro db hedits
    induction hedits with
    | refl =>
      exact ⟨fun n hn => (hissued.node n hn).mono (le_refl _) h.tick,
        fun g row hrow => (hissued.generation g row hrow).mono (le_refl _) h.tick,
        fun t ht => (hissued.trash t ht).mono (le_refl _) h.tick⟩
    | tail _ hedit ih =>
      obtain ⟨hnode, hgeneration, htrash⟩ := ih
      refine ⟨fun m hm => ?_, fun g row hrow => ?_, fun t ht => ?_⟩
      · obtain ⟨n, hn, hid⟩ | hf := hedit.node_ids m hm
        · exact hid ▸ hnode n hn
        · exact hfresh _ hf
      · obtain ⟨old, hold⟩ | hf := hedit.generation_ids g row hrow
        · exact hgeneration g old hold
        · exact hfresh _ hf
      · obtain ht | hf := hedit.trash_ids t ht
        · exact htrash t ht
        · exact hfresh _ hf
  obtain ⟨hnode, hgeneration, htrash⟩ := hall w'.db h.edits
  exact ⟨hnode, hgeneration, htrash⟩

/-- A generation that the author of an effect does not know is left alone or
deleted whole, and does not come back. -/
theorem content (h : Effect rt P o w w') (hwf : WellFormed w.db) {g : GenerationId}
    (hnot : ¬ (o = some g ∨ Drawn rt w.tick w'.tick g)) :
    SameContent w.db w'.db g ∨ w'.db.generation? g = none := by
  refine (h.edits.preserve (fun _ hid => Or.inr hid) hwf
    (I := fun db => SameContent w.db db g ∨ db.generation? g = none)
    (fun {a b} hedit hwf hI => ?_) (Or.inl (SameContent.refl _ _))).2
  obtain hsame | hnone := hI
  · obtain hsame' | ⟨hnone', _⟩ :=
      hedit.content hwf (fun _ hid => Or.inr hid) (fun hmine => absurd hmine hnot)
    · exact Or.inl (hsame.trans hsame')
    · exact Or.inr hnone'
  · refine Or.inr ?_
    cases hrow : b.generation? g with
    | none => rfl
    | some row =>
      obtain ⟨old, hold⟩ | hf := hedit.generation_ids g row hrow
      · rw [hnone] at hold
        cases hold
      · exact absurd (Or.inr hf) hnot

/-- An issued generation that is gone stays gone. -/
theorem gone (h : Effect rt P o w w') {g : GenerationId} (hdrawn : Drawn rt 0 w.tick g)
    (hnone : w.db.generation? g = none) : w'.db.generation? g = none := by
  have hall : ∀ db, Edits P (Drawn rt w.tick w'.tick)
    (fun g => o = some g ∨ Drawn rt w.tick w'.tick g) w.db db →
      db.generation? g = none := by
    intro db hedits
    induction hedits with
    | refl => exact hnone
    | @tail b c _ hedit ih =>
      cases hrow : c.generation? g with
      | none => rfl
      | some row =>
        obtain ⟨old, hold⟩ | hf := hedit.generation_ids g row hrow
        · rw [ih] at hold
          cases hold
        · exact (hdrawn.disjoint hf).elim
  exact hall w'.db h.edits

theorem stays_private (h : Effect rt P o w w') (hwf : WellFormed w.db) {g : GenerationId}
    (hnot : ¬ (o = some g ∨ Drawn rt w.tick w'.tick g)) (hprivate : Private w.db g) :
    Private w'.db g :=
  (h.edits.preserve (fun _ hid => Or.inr hid) hwf
    (fun hedit hwf hI => hedit.stays_private hwf (fun _ hid => Or.inr hid) hnot hI) hprivate).2

end Effect

/-- What holds of the store between any two calls. A method that runs alone
needs to know less. -/
structure Sound (rt : Runtime) (P : Policy) (alone : Prop) (w : World) : Prop where
  wf : WellFormed w.db
  issued : Issued rt w
  laid : ¬ alone → P.laid → LaidOut w.db

theorem Sound.empty (rt : Runtime) (P : Policy) (alone : Prop) : Sound rt P alone ⟨Db.empty, 0⟩ :=
  ⟨WellFormed.empty, Issued.empty rt, fun _ _ n hn => absurd hn (Table.not_mem_empty n)⟩

/-- A step of someone else, as the owner of a staged generation sees it. -/
def Foreign (rt : Runtime) (P : Policy) (t : Option GenerationId) (w w' : World) : Prop :=
  Sound rt P False w ∧ ∃ o, (∀ g, t = some g → o ≠ some g) ∧ (∀ g, o = some g → Private w.db g) ∧
    Effect rt P o w w'

/-- Each method owns the generation it stages: nobody else writes to it or makes
it the content of a file. A method that runs alone has no others to fear. -/
def ownership (rt : Runtime) (P : Policy) (alone : Prop) :
    Ownership (Option GenerationId) World where
  held t w := ∀ g, t = some g → Drawn rt 0 w.tick g ∧ Private w.db g
  apart t u := ¬ alone ∧ ∀ g, t = some g → u ≠ some g
  rely t w w' := ¬ alone ∧ Foreign rt P t w w'
  apart_symm h := ⟨h.1, fun g hg ht => h.2 g ht hg⟩
  held_of_rely {t w w'} hheld hrely g hg := by
    obtain ⟨_, hsound, o, hother, _, heffect⟩ := hrely
    obtain ⟨hdrawn, hprivate⟩ := hheld g hg
    refine ⟨hdrawn.mono (le_refl _) heffect.tick, heffect.stays_private hsound.wf ?_ hprivate⟩
    rintro (hown | hlater)
    · exact hother g hg hown
    · exact hdrawn.disjoint hlater

section ownership

variable {rt : Runtime} {P : Policy} {alone : Prop} {t t' : Option GenerationId} {w w' : World}

theorem held_none (w : World) : (ownership rt P alone).held none w := fun g hg => by cases hg

/-- A stranger's step leaves one's own generation, and any committed one, alone
or deletes it. -/
theorem Foreign.content {g : GenerationId} (h : Foreign rt P t w w') (hdrawn : Drawn rt 0 w.tick g)
    (hg : t = some g ∨ ¬ Private w.db g) :
    SameContent w.db w'.db g ∨ w'.db.generation? g = none := by
  obtain ⟨hsound, o, hother, hprivate, heffect⟩ := h
  refine heffect.content hsound.wf ?_
  rintro (hown | hlater)
  · exact hg.elim (fun ht => hother g ht hown) (fun hnot => hnot (hprivate g hown))
  · exact hdrawn.disjoint hlater

/-- A stranger's step leaves a committed generation alone or deletes it for good. -/
theorem Foreign.committed {g : GenerationId} (h : Foreign rt P t w w')
    (hdrawn : Drawn rt 0 w.tick g)
    (hcomplete : ∀ row, w.db.generation? g = some row → row.complete = true) :
    SameContent w.db w'.db g ∨ w'.db.generation? g = none := by
  cases hrow : w.db.generation? g with
  | some row =>
    refine h.content hdrawn (Or.inr fun hprivate => ?_)
    exact Bool.false_ne_true ((hprivate.incomplete row hrow).symm.trans (hcomplete row hrow))
  | none =>
    obtain ⟨_, _, _, _, heffect⟩ := h
    exact Or.inr (heffect.gone hdrawn hrow)

theorem Foreign.sound (h : Foreign rt P t w w') : Sound rt P False w' := by
  obtain ⟨hsound, o, _, _, heffect⟩ := h
  exact ⟨heffect.wellFormed hsound.wf, heffect.issued hsound.issued,
    fun _ hlaid => heffect.laidOut hsound.wf hlaid (hsound.laid not_false hlaid)⟩

/-- An effect of the owner of `t` is a stranger's step for everyone else. -/
theorem kept_of_effect (hsound : Sound rt P alone w) (hheld : (ownership rt P alone).held t w)
    (heffect : Effect rt P t w w') (hheld' : (ownership rt P alone).held t' w')
    (htoken : ∀ g, t' = some g → t = some g ∨ Drawn rt w.tick w'.tick g) :
    (ownership rt P alone).Kept (Sound rt P alone) t t' w w' where
  inv := ⟨heffect.wellFormed hsound.wf, heffect.issued hsound.issued,
    fun halone hlaid => heffect.laidOut hsound.wf hlaid (hsound.laid halone hlaid)⟩
  rely u happart _ := ⟨happart.1,
    ⟨hsound.wf, hsound.issued, fun _ hlaid => hsound.laid happart.1 hlaid⟩, t,
    fun g hu ht => happart.2 g ht hu, fun g hg => (hheld g hg).2, heffect⟩
  held := hheld'
  apart u happart hu := by
    refine ⟨happart.1, fun g hg hug => ?_⟩
    obtain hold | hlater := htoken g hg
    · exact happart.2 g hold hug
    · exact ((hu g hug).1).disjoint hlater

theorem stable_true : (ownership rt P alone).Stable (Sound rt P alone) t (fun _ => True) :=
  fun _ _ _ _ _ _ => trivial

end ownership

end fslite
