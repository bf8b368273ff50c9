import Mathlib.Data.List.Nodup
import Mathlib.Logic.Relation
import Mathlib.Tactic.Common

namespace fslite

namespace Levels

section collect

variable {A : Type} (next : A → List A)

/-- The given elements and everything that follows from them, level by level, if
no level is left after so many rounds. -/
def collect : Nat → List A → Option (List A)
  | _, [] => some []
  | 0, _ :: _ => none
  | rounds + 1, first :: rest =>
    (collect rounds ((first :: rest).flatMap next)).map (fun below => first :: rest ++ below)

/-- What follows from an element in any number of steps. -/
def Reaches : A → A → Prop := Relation.ReflTransGen (fun a b => b ∈ next a)

/-- What follows from an element in the given number of steps. -/
inductive ReachesIn : Nat → A → A → Prop where
  | zero (a : A) : ReachesIn 0 a a
  | succ {n : Nat} {a b c : A} (hstep : b ∈ next a) (h : ReachesIn n b c) : ReachesIn (n + 1) a c

variable {next} {rounds : Nat} {level all : List A} {a b c : A}

theorem Reaches.refl (a : A) : Reaches next a a := Relation.ReflTransGen.refl

theorem Reaches.head (hab : b ∈ next a) (hbc : Reaches next b c) : Reaches next a c :=
  Relation.ReflTransGen.head hab hbc

theorem reaches_iff : Reaches next a b ↔ ∃ n, ReachesIn next n a b := by
  constructor
  · intro h
    induction h using Relation.ReflTransGen.head_induction_on with
    | refl => exact ⟨0, .zero b⟩
    | head hstep _ ih =>
      obtain ⟨n, hn⟩ := ih
      exact ⟨n + 1, .succ hstep hn⟩
  · rintro ⟨n, h⟩
    induction h with
    | zero a => exact .refl a
    | succ hstep _ ih => exact .head hstep ih

theorem collect_zero (h : collect next 0 level = some all) : level = [] ∧ all = [] := by
  cases level with
  | nil =>
    cases h
    exact ⟨rfl, rfl⟩
  | cons first rest => cases h

theorem collect_succ : collect next (rounds + 1) level =
    (collect next rounds (level.flatMap next)).map (fun below => level ++ below) := by
  cases level with
  | nil => cases rounds <;> rfl
  | cons first rest => rfl

/-- A level is followed by what follows from its elements in one step or more. -/
theorem collect_split (h : collect next (rounds + 1) level = some all) :
    ∃ below, collect next rounds (level.flatMap next) = some below ∧ all = level ++ below := by
  rw [collect_succ] at h
  obtain ⟨below, hbelow, rfl⟩ := Option.map_eq_some_iff.mp h
  exact ⟨below, hbelow, rfl⟩

theorem mem_collect (h : collect next rounds level = some all) :
    b ∈ all ↔ ∃ a ∈ level, Reaches next a b := by
  induction rounds generalizing level all with
  | zero =>
    obtain ⟨rfl, rfl⟩ := collect_zero h
    simp
  | succ rounds ih =>
    obtain ⟨below, hbelow, rfl⟩ := collect_split h
    rw [List.mem_append, ih hbelow]
    constructor
    · rintro (hb | ⟨x, hx, hreach⟩)
      · exact ⟨b, hb, .refl b⟩
      · obtain ⟨a, ha, hstep⟩ := List.mem_flatMap.mp hx
        exact ⟨a, ha, .head hstep hreach⟩
    · rintro ⟨a, ha, hreach⟩
      obtain rfl | ⟨x, hstep, hrest⟩ := Relation.ReflTransGen.cases_head hreach
      · exact Or.inl ha
      · exact Or.inr ⟨x, List.mem_flatMap.mpr ⟨a, ha, hstep⟩, hrest⟩

/-- If a level is left, something follows from the first one in all the rounds. -/
theorem reachesIn_of_collect_eq_none (h : collect next rounds level = none) :
    ∃ a ∈ level, ∃ b, ReachesIn next rounds a b := by
  induction rounds generalizing level with
  | zero =>
    cases level with
    | nil => cases h
    | cons first rest => exact ⟨first, List.mem_cons_self, first, .zero first⟩
  | succ rounds ih =>
    rw [collect_succ, Option.map_eq_none_iff] at h
    obtain ⟨x, hx, b, hreach⟩ := ih h
    obtain ⟨a, ha, hstep⟩ := List.mem_flatMap.mp hx
    exact ⟨a, ha, b, .succ hstep hreach⟩

end collect

section nodup

variable {A K : Type} {next : A → List A} {key : A → K} {rounds : Nat} {level all : List A}

theorem flatMap_nodup (hnext : ∀ a, ((next a).map key).Nodup)
    (hparent : ∀ a a' b b', b ∈ next a → b' ∈ next a' → key b = key b' → key a = key a')
    (hlevel : (level.map key).Nodup) :
    ((level.flatMap next).map key).Nodup := by
  rw [List.map_flatMap, List.nodup_flatMap]
  refine ⟨fun a _ => hnext a, ?_⟩
  refine List.Pairwise.imp ?_ (List.pairwise_map.mp hlevel)
  intro a a' hne k hk hk'
  obtain ⟨b, hb, rfl⟩ := List.mem_map.mp hk
  obtain ⟨b', hb', hkey⟩ := List.mem_map.mp hk'
  exact hne (hparent a a' b b' hb hb' hkey.symm)

/-- Where a key determines the key that it follows from, and none of the first
level comes back, no key is collected twice. -/
theorem collect_nodup (key : A → K) (hnext : ∀ a, ((next a).map key).Nodup)
    (hparent : ∀ a a' b b', b ∈ next a → b' ∈ next a' → key b = key b' → key a = key a')
    (hlevel : (level.map key).Nodup)
    (hfresh : ∀ a ∈ level, ∀ b c, Reaches next a b → c ∈ next b → key c ∉ level.map key)
    (h : collect next rounds level = some all) : (all.map key).Nodup := by
  induction rounds generalizing level all with
  | zero =>
    obtain ⟨_, rfl⟩ := collect_zero h
    exact List.nodup_nil
  | succ rounds ih =>
    obtain ⟨below, hbelow, rfl⟩ := collect_split h
    rw [List.map_append]
    refine List.Nodup.append hlevel (ih (flatMap_nodup hnext hparent hlevel) ?_ hbelow) ?_
    · intro x hx b c hreach hc hmem
      obtain ⟨x', hx', hkey⟩ := List.mem_map.mp hmem
      obtain ⟨a, ha, hstep⟩ := List.mem_flatMap.mp hx
      obtain ⟨a', ha', hstep'⟩ := List.mem_flatMap.mp hx'
      -- the elements that the two follow from have the same key
      have hsame := hparent _ _ _ _ hstep' hc hkey
      obtain rfl | ⟨y, hy, hb⟩ := Relation.ReflTransGen.cases_tail hreach
      · exact hfresh a ha a _ (.refl a) hstep (hsame ▸ List.mem_map_of_mem ha')
      · exact hfresh a ha y b (.head hstep hy) hb (hsame ▸ List.mem_map_of_mem ha')
    · intro k hk hk'
      obtain ⟨b, hb, rfl⟩ := List.mem_map.mp hk'
      obtain ⟨x, hx, hreach⟩ := (mem_collect hbelow).mp hb
      obtain ⟨a, ha, hstep⟩ := List.mem_flatMap.mp hx
      obtain rfl | ⟨y, hy, hb⟩ := Relation.ReflTransGen.cases_tail hreach
      · exact hfresh a ha a _ (.refl a) hstep hk
      · exact hfresh a ha y b (.head hstep hy) hb hk

end nodup

end Levels

end fslite
