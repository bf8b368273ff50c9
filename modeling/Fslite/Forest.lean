import Mathlib.Algebra.BigOperators.Group.Finset.Basic
import Mathlib.Algebra.GroupWithZero.Nat
import Mathlib.Data.Finset.Card
import Mathlib.Data.List.Nodup
import Mathlib.Data.Nat.Find
import Mathlib.Logic.Relation
import Mathlib.Tactic.Common

/-- `Below parent a b`: following parent pointers from `a` reaches `b` in
finitely many (possibly no) steps. -/
def Below {A : Type} (parent : A → Option A) : A → A → Prop :=
  Relation.ReflTransGen (fun child up => parent child = some up)

namespace Below

variable {A : Type} {parent : A → Option A} {a b c : A}

theorem refl (parent : A → Option A) (a : A) : Below parent a a := Relation.ReflTransGen.refl

theorem trans (hab : Below parent a b) (hbc : Below parent b c) : Below parent a c :=
  Relation.ReflTransGen.trans hab hbc

theorem head (h : parent a = some b) (hbc : Below parent b c) : Below parent a c :=
  Relation.ReflTransGen.head h hbc

theorem tail (hab : Below parent a b) (h : parent b = some c) : Below parent a c :=
  Relation.ReflTransGen.tail hab h

/-- Induction on the length of the climb, from the bottom. -/
@[elab_as_elim] theorem head_induction {motive : (a : A) → Below parent a b → Prop} {a : A}
    (h : Below parent a b) (top : motive b (refl parent b))
    (step : ∀ {x y} (hxy : parent x = some y) (hyb : Below parent y b), motive y hyb →
    motive x (head hxy hyb)) :
    motive a h :=
  Relation.ReflTransGen.head_induction_on h top (fun hxy hyb ih => step hxy hyb ih)

theorem cases_head (h : Below parent a b) : a = b ∨ ∃ up, parent a = some up ∧ Below parent up b :=
  Relation.ReflTransGen.cases_head h

theorem eq_or_parent (h : Below parent a b) {up : A} (hup : parent a = some up) :
    a = b ∨ Below parent up b := by
  obtain rfl | ⟨x, hx, hxb⟩ := h.cases_head
  · exact Or.inl rfl
  · rw [hup, Option.some.injEq] at hx
    subst hx
    exact Or.inr hxb

/-- A root has nothing above it. -/
theorem eq_of_root (h : Below parent a b) (hroot : parent a = none) : a = b := by
  obtain rfl | ⟨x, hx, _⟩ := h.cases_head
  · rfl
  · rw [hroot] at hx
    cases hx

/-- What climbs to a root does not lie on a cycle. -/
theorem acyclic {r up : A} (h : Below parent a r) (hroot : parent r = none)
    (hup : parent a = some up) :
    ¬ Below parent up a := by
  induction h using head_induction generalizing up with
  | top =>
    rw [hroot] at hup
    cases hup
  | @step x y hxy hyr ih =>
    rw [hxy, Option.some.injEq] at hup
    subst hup
    intro hback
    obtain heq | ⟨z, hyz, hzx⟩ := hback.cases_head
    · subst heq
      exact ih hxy (refl parent y)
    · exact ih hyz (hzx.tail hxy)

/-- Everything above one element is linearly ordered, since a parent is unique. -/
theorem total (hab : Below parent a b) (hac : Below parent a c) :
    Below parent b c ∨ Below parent c b := by
  induction hab using head_induction with
  | top => exact Or.inl hac
  | step hxy hyb ih =>
    obtain rfl | hyc := hac.eq_or_parent hxy
    · exact Or.inr (head hxy hyb)
    · exact ih hyc

/-- A climb survives any change of pointers off its way. -/
theorem congr {parent' : A → Option A} (h : Below parent a b)
    (hsame : ∀ x, Below parent a x → Below parent x b → x ≠ b → parent' x = parent x) :
    Below parent' a b := by
  induction h using head_induction with
  | top => exact refl parent' b
  | @step x y hxy hyb ih =>
    by_cases hx : x = b
    · rw [hx]
      exact refl parent' b
    · have hstep : parent' x = some y := by rw [hsame x (refl _ _) (head hxy hyb) hx, hxy]
      exact head hstep (ih (fun z hyz hzb hz => hsame z (head hxy hyz) hzb hz))

theorem mono {parent' : A → Option A} (h : Below parent a b)
    (hsub : ∀ x up, parent x = some up → parent' x = some up) : Below parent' a b :=
  Relation.ReflTransGen.mono (fun x up hx => hsub x up hx) _ _ h

/-- Cutting away everything at or below `cut` keeps every climb that does not
start there. -/
theorem prune {parent' : A → Option A} {cut : A} (h : Below parent a b)
    (hnot : ¬ Below parent a cut) (hsame : ∀ x, ¬ Below parent x cut → parent' x = parent x) :
    Below parent' a b := by
  apply h.congr
  intro x hax _ _
  exact hsame x (fun hx => hnot (hax.trans hx))

/-- After one pointer has changed, a climb goes as before or leads on from the new parent. -/
theorem rehung {parent' : A → Option A} {n p : A} (h : Below parent' a b)
    (hother : ∀ x, x ≠ n → parent' x = parent x) (hnew : parent' n = some p) :
    Below parent a b ∨ Below parent p b := by
  induction h with
  | refl => exact Or.inl (refl parent a)
  | @tail b c _ hstep ih =>
    by_cases hb : b = n
    · subst hb
      rw [hnew, Option.some.injEq] at hstep
      subst hstep
      exact Or.inr (refl parent p)
    · rw [hother b hb] at hstep
      exact ih.imp (fun hbelow => tail hbelow hstep) (fun hbelow => tail hbelow hstep)

end Below

section climbs

variable {A : Type} (parent : A → Option A)

/-- The element a given number of parent steps above. -/
private def ancestor : Nat → A → Option A
  | 0, a => some a
  | steps + 1, a => (parent a).bind (ancestor steps)

private theorem ancestor_add (m n : Nat) (a : A) :
    ancestor parent (m + n) a = (ancestor parent m a).bind (ancestor parent n) := by
  induction m generalizing a with
  | zero => simp [ancestor]
  | succ m ih =>
    rw [Nat.succ_add]
    cases h : parent a with
    | none => simp [ancestor, h]
    | some up => simp [ancestor, h, ih]

private theorem below_iff_ancestor {a target : A} :
    Below parent a target ↔ ∃ k, ancestor parent k a = some target := by
  constructor
  · intro h
    induction h using Below.head_induction with
    | top => exact ⟨0, rfl⟩
    | step hxy _ ih =>
      obtain ⟨k, hk⟩ := ih
      exact ⟨k + 1, by simp [ancestor, hxy, hk]⟩
  · rintro ⟨k, hk⟩
    induction k generalizing a with
    | zero =>
      rw [ancestor, Option.some.injEq] at hk
      rw [hk]
      exact Below.refl parent target
    | succ k ih =>
      obtain ⟨up, hup, hrest⟩ := Option.bind_eq_some_iff.mp hk
      exact Below.head hup (ih hrest)

variable [DecidableEq A]

/-- Whether at most `steps` parent steps lead from an element to the target. -/
def climbs (target : A) : Nat → A → Bool
  | 0, a => a = target
  | steps + 1, a => a = target || match parent a with
    | none => false
    | some up => climbs target steps up

private theorem climbs_iff_ancestor {target : A} (steps : Nat) (a : A) :
    climbs parent target steps a = true ↔ ∃ k ≤ steps, ancestor parent k a = some target := by
  induction steps generalizing a with
  | zero => simp [climbs, ancestor]
  | succ steps ih =>
    simp only [climbs, Bool.or_eq_true, decide_eq_true_eq]
    constructor
    · rintro (rfl | h)
      · exact ⟨0, Nat.zero_le _, rfl⟩
      · cases hup : parent a with
        | none => simp [hup] at h
        | some up =>
          rw [hup] at h
          obtain ⟨k, hk, hanc⟩ := (ih up).mp h
          exact ⟨k + 1, Nat.succ_le_succ hk, by simp [ancestor, hup, hanc]⟩
    · rintro ⟨k, hk, hanc⟩
      cases k with
      | zero => exact Or.inl (by simpa [ancestor] using hanc)
      | succ k =>
        cases hup : parent a with
        | none => simp [ancestor, hup] at hanc
        | some up =>
          exact Or.inr ((ih up).mpr
            ⟨k, Nat.le_of_succ_le_succ hk, by simpa [ancestor, hup] using hanc⟩)

/-- A shortest climb passes through distinct elements, so it is no longer than
the list of elements that have a parent. -/
private theorem ancestor_le {a target : A} {domain : List A}
    (hdomain : ∀ x up, parent x = some up → x ∈ domain) {k : Nat}
    (hk : ancestor parent k a = some target)
    (hmin : ∀ j, j < k → ancestor parent j a ≠ some target) : k ≤ domain.length := by
  have hbefore : ∀ i, i < k → ∃ x, ancestor parent i a = some x ∧ x ∈ domain := by
    intro i hi
    have hsplit := ancestor_add parent i (k - i - 1 + 1) a
    rw [show i + (k - i - 1 + 1) = k by omega, hk] at hsplit
    obtain ⟨x, hx, hrest⟩ := Option.bind_eq_some_iff.mp hsplit.symm
    obtain ⟨up, hup, _⟩ := Option.bind_eq_some_iff.mp hrest
    exact ⟨x, hx, hdomain x up hup⟩
  have hinj : Set.InjOn (fun i => ancestor parent i a) (Finset.range k) := by
    intro i hi j hj hij
    rw [Finset.coe_range, Set.mem_Iio] at hi hj
    have hne : ∀ m n, m < n → n < k → ancestor parent m a ≠ ancestor parent n a := by
      intro m n hmn hnk heq
      have hsplit := ancestor_add parent n (k - n) a
      rw [show n + (k - n) = k by omega, hk, ← heq, ← ancestor_add] at hsplit
      exact hmin (m + (k - n)) (by omega) hsplit.symm
    obtain hlt | heq | hlt := Nat.lt_trichotomy i j
    · exact absurd hij (hne i j hlt hj)
    · exact heq
    · exact absurd hij.symm (hne j i hlt hi)
  have hcard := Finset.card_le_card_of_injOn (s := Finset.range k)
    (t := domain.toFinset.image some) _
    (fun i hi => by
      obtain ⟨x, hx, hmem⟩ := hbefore i (Finset.mem_range.mp hi)
      exact Finset.mem_image.mpr ⟨x, List.mem_toFinset.mpr hmem, hx.symm⟩) hinj
  rw [Finset.card_range] at hcard
  exact hcard.trans (Finset.card_image_le.trans domain.toFinset_card_le)

/-- A bounded climb decides whether the target lies above, as soon as the
bound is the number of elements that have a parent. -/
theorem climbs_iff_below {target : A} {domain : List A}
    (hdomain : ∀ x up, parent x = some up → x ∈ domain) (a : A) :
    climbs parent target domain.length a = true ↔ Below parent a target := by
  rw [climbs_iff_ancestor, below_iff_ancestor]
  constructor
  · rintro ⟨k, _, hk⟩
    exact ⟨k, hk⟩
  · intro hex
    classical
    exact ⟨Nat.find hex, ancestor_le parent hdomain (Nat.find_spec hex)
      (fun j hj => Nat.find_min hex hj),
      Nat.find_spec hex⟩

end climbs

section weight

variable {A : Type} {parent : A → Option A} {domain : Finset A} {a : A}

open Classical in
/-- The elements of a finite set that lie at or below an element. -/
noncomputable def subtree (parent : A → Option A) (domain : Finset A) (a : A) : Finset A :=
  domain.filter (fun x => Below parent x a)

/-- How many elements of a finite set lie at or below an element. -/
noncomputable def weight (parent : A → Option A) (domain : Finset A) (a : A) : Nat :=
  (subtree parent domain a).card

theorem mem_subtree {x : A} : x ∈ subtree parent domain a ↔ x ∈ domain ∧ Below parent x a := by
  classical
  exact Finset.mem_filter

theorem weight_le : weight parent domain a ≤ domain.card :=
  Finset.card_le_card (fun _ hx => (mem_subtree.mp hx).1)

variable [DecidableEq A]

/-- The subtrees of the children of an element are disjoint, and together
smaller than its own. -/
theorem sum_weight_lt {children : List A} (hnodup : children.Nodup)
    (hup : ∀ c ∈ children, parent c = some a) (ha : a ∈ domain)
    (hacyclic : ∀ c ∈ children, ¬ Below parent a c) :
    (children.map (weight parent domain)).sum < weight parent domain a := by
  have hdisjoint : (children.toFinset : Set A).PairwiseDisjoint (subtree parent domain) := by
    intro c hc d hd hne
    rw [List.coe_toFinset, Set.mem_ofPred_eq] at hc hd
    refine Finset.disjoint_left.mpr (fun x hxc hxd => ?_)
    -- what lies below two children has one of them below the other, and so their parent
    obtain hcd | hdc := (mem_subtree.mp hxc).2.total (mem_subtree.mp hxd).2
    · exact (hcd.eq_or_parent (hup c hc)).elim hne (hacyclic d hd)
    · exact (hdc.eq_or_parent (hup d hd)).elim (fun heq => hne heq.symm) (hacyclic c hc)
  have hsum : (children.map (weight parent domain)).sum =
      (children.toFinset.biUnion (subtree parent domain)).card := by
    rw [Finset.card_biUnion hdisjoint, List.sum_toFinset _ hnodup]
    rfl
  have hnot : a ∉ children.toFinset.biUnion (subtree parent domain) := by
    rw [Finset.mem_biUnion]
    rintro ⟨c, hc, hac⟩
    exact hacyclic c (List.mem_toFinset.mp hc) (mem_subtree.mp hac).2
  have hsub : insert a (children.toFinset.biUnion
      (subtree parent domain)) ⊆ subtree parent domain a := by
    refine Finset.insert_subset (mem_subtree.mpr ⟨ha, Below.refl _ _⟩) (fun x hx => ?_)
    obtain ⟨c, hc, hxc⟩ := Finset.mem_biUnion.mp hx
    obtain ⟨hx, hbelow⟩ := mem_subtree.mp hxc
    exact mem_subtree.mpr ⟨hx, hbelow.tail (hup c (List.mem_toFinset.mp hc))⟩
  have hcard := Finset.card_le_card hsub
  rw [Finset.card_insert_of_notMem hnot] at hcard
  rw [hsum]
  exact hcard

end weight
