import Mathlib.Data.List.Sort
import Mathlib.Order.Defs.LinearOrder

namespace fslite

namespace Paging

section pages

variable {S C A : Type}

/-- Pages that are fetched one after another, each in a state of its own and with
the cursor that the one before it has returned: the states with their items, and
the cursor of the page to be fetched next. `page` relates a state and a cursor to
the items and the next cursor of the page that they give. -/
inductive Fetched (page : S → Option C → List A → Option C → Prop) :
    List (S × List A) → Option C → Prop where
  | start : Fetched page [] none
  | next {pages : List (S × List A)} {cursor : Option C} {s : S} {items : List A} {c : C}
    (h : Fetched page pages cursor)
      (hpage : page s cursor items (some c)) : Fetched page (pages ++ [(s, items)]) (some c)

/-- Pages up to one that no other one follows. -/
inductive Finished (page : S → Option C → List A → Option C → Prop) : List (S × List A) → Prop where
  | last {pages : List (S × List A)} {cursor : Option C} {s : S} {items : List A}
    (h : Fetched page pages cursor)
      (hpage : page s cursor items none) : Finished page (pages ++ [(s, items)])

/-- What the pages hold together. -/
def contents (pages : List (S × List A)) : List A := pages.flatMap Prod.snd

@[simp] theorem contents_nil : contents ([] : List (S × List A)) = [] := rfl

@[simp] theorem contents_concat (pages : List (S × List A)) (s : S) (items : List A) :
    contents (pages ++ [(s, items)]) = contents pages ++ items := by
  simp [contents]

variable {page page' : S → Option C → List A → Option C → Prop}

theorem Fetched.mono {pages : List (S × List A)} {cursor : Option C} (h : Fetched page pages cursor)
    (hpage : ∀ s c items next, page s c items next → page' s c items next) :
    Fetched page' pages cursor := by
  induction h with
  | start => exact .start
  | next _ hnext ih => exact .next ih (hpage _ _ _ _ hnext)

theorem Finished.mono {pages : List (S × List A)} (h : Finished page pages)
    (hpage : ∀ s c items next, page s c items next → page' s c items next) :
    Finished page' pages := by
  obtain ⟨hfetched, hlast⟩ := h
  exact .last (hfetched.mono hpage) (hpage _ _ _ _ hlast)

/-- Where a page shows the front of what is to be seen from its cursor on, and the next cursor
stands for the rest, the pages show what is to be seen from the start on. -/
theorem Fetched.unfolds (seen : Option C → List A)
    (hpage : ∀ s cursor items next, page s cursor items next →
      seen cursor = items ++ if next.isNone then [] else seen next)
    {pages : List (S × List A)} {cursor : Option C} (h : Fetched page pages cursor) :
    seen none = contents pages ++ seen cursor := by
  induction h with
  | start => rfl
  | @next pages cursor s items c _ hnext ih =>
    rw [ih, hpage s cursor items (some c) hnext, contents_concat, List.append_assoc]
    rfl

theorem Finished.unfolds (seen : Option C → List A)
    (hpage : ∀ s cursor items next, page s cursor items next →
      seen cursor = items ++ if next.isNone then [] else seen next)
    {pages : List (S × List A)} (h : Finished page pages) : seen none = contents pages := by
  obtain ⟨hfetched, hlast⟩ := h
  rw [hfetched.unfolds seen hpage, hpage _ _ _ _ hlast, contents_concat]
  exact congrArg _ (List.append_nil _)

end pages

section simulation

variable {S C K A B : Type} {page : S → Option C → List B → Option C → Prop}
  {takes : S → Option K → List A → Option K → Prop}
variable {at_ : Option C → Option K → Prop} {shows : S → List A → List B → Prop}

/-- Pages whose items show the rows that they have taken. -/
def Shows (shows : S → List A → List B → Prop) : List (S × List A) → List (S × List B) → Prop :=
  List.Forall₂ (fun taken shown => taken.1 = shown.1 ∧ shows taken.1 taken.2 shown.2)

/-- Where every page comes from a page of rows, pages come from pages of rows. -/
theorem Fetched.simulate (takes : S → Option K → List A → Option K → Prop)
    (shows : S → List A → List B → Prop) (hstart : at_ none none)
    (hpage : ∀ s c pos items next, at_ c pos → page s c items next →
      ∃ taken pos', takes s pos taken pos' ∧ shows s taken items ∧ at_ next pos' ∧
      (next.isSome → pos'.isSome))
    {pages : List (S × List B)} {cursor : Option C} (h : Fetched page pages cursor) :
    ∃ taken pos, Fetched takes taken pos ∧ at_ cursor pos ∧ Shows shows taken pages := by
  induction h with
  | start => exact ⟨[], none, .start, hstart, .nil⟩
  | @next pages cursor s items c _ hnext ih =>
    obtain ⟨taken, pos, hfetched, hat, hshows⟩ := ih
    obtain ⟨rows, pos', htakes, hshow, hat', hsome⟩ := hpage s cursor pos items (some c) hat hnext
    obtain ⟨k, rfl⟩ := Option.isSome_iff_exists.mp (hsome rfl)
    exact ⟨taken ++ [(s, rows)], some k, .next hfetched htakes, hat',
      List.rel_append hshows (.cons ⟨rfl, hshow⟩ .nil)⟩

theorem Finished.simulate (takes : S → Option K → List A → Option K → Prop)
    (shows : S → List A → List B → Prop) (hstart : at_ none none)
    (hpage : ∀ s c pos items next, at_ c pos → page s c items next →
      ∃ taken pos', takes s pos taken pos' ∧ shows s taken items ∧ at_ next pos' ∧
      (next.isSome ↔ pos'.isSome))
    {pages : List (S × List B)} (h : Finished page pages) :
    ∃ taken, Finished takes taken ∧ Shows shows taken pages := by
  obtain ⟨hfetched, hlast⟩ := h
  obtain ⟨taken, pos, hfetched', hat, hshows⟩ := Fetched.simulate takes shows hstart
    (fun s c pos items next hat hnext => by
      obtain ⟨rows, pos', htakes, hshow, hat', hsome⟩ := hpage s c pos items next hat hnext
      exact ⟨rows, pos', htakes, hshow, hat', hsome.mp⟩) hfetched
  obtain ⟨rows, pos', htakes, hshow, _, hsome⟩ := hpage _ _ pos _ none hat hlast
  cases pos' with
  | some k => exact absurd (hsome.mpr rfl) (by simp)
  | none => exact ⟨_, .last hfetched' htakes, List.rel_append hshows (.cons ⟨rfl, hshow⟩ .nil)⟩

end simulation

section keyset

variable {S A K : Type} [LinearOrder K] (key : A → K)

/-- The rows are in strictly increasing order of their keys. -/
def Ascending (rows : List A) : Prop := rows.Pairwise (fun a b => key a < key b)

/-- The rows after a position; without one, all of them. -/
def after (rows : List A) : Option K → List A
  | none => rows
  | some k => rows.filter (fun a => k < key a)

/-- Rows with different keys are sorted into their order. -/
theorem ascending_insertionSort {r : A → A → Prop} [DecidableRel r]
    (hr : ∀ a b, r a b ↔ key a ≤ key b) {rows : List A} (hnodup : (rows.map key).Nodup) :
    Ascending key (rows.insertionSort r) := by
  have : Std.Total r := ⟨fun a b => by simpa only [hr] using le_total (key a) (key b)⟩
  have : IsTrans A r := ⟨fun a b c hab hbc => (hr a c).mpr
    (((hr a b).mp hab).trans ((hr b c).mp hbc))⟩
  have hkeys : ((rows.insertionSort r).map key).Nodup :=
    ((List.perm_insertionSort r rows).map key).nodup_iff.mpr hnodup
  refine (List.pairwise_insertionSort r rows).imp₂ (fun a b hle hne => ?_)
    (List.pairwise_map.mp hkeys)
  exact lt_of_le_of_ne ((hr a b).mp hle) hne

/-- Rows in their order are determined by which they are. -/
theorem Ascending.ext {key : A → K} {rows rows' : List A} (h : Ascending key rows)
    (h' : Ascending key rows') (hmem : ∀ a, a ∈ rows ↔ a ∈ rows') : rows = rows' := by
  have hirrefl : Std.Irrefl (fun a b => key a < key b) := ⟨fun a => lt_irrefl (key a)⟩
  have hantisymm : Std.Antisymm (fun a b => key a < key b) :=
    ⟨fun a b hab hba => absurd hba (lt_asymm hab)⟩
  exact h.eq_of_mem_iff h' (fun {a} => hmem a)

/-- A page takes the first rows after its position and leaves the others; the
position that it ends at is that of its last row, and there is none only if it
leaves nothing. -/
structure Takes (rows : List A) (pos : Option K) (taken : List A) (next : Option K) : Prop where
  split : ∃ left, after key rows pos = taken ++ left ∧ (next = none → left = [])
  last : ∀ k, next = some k → ∃ a, taken.getLast? = some a ∧ key a = k

variable {key} {rows taken : List A} {pos next : Option K}

theorem after_ascending (h : Ascending key rows) (pos : Option K) :
    Ascending key (after key rows pos) := by
  cases pos with
  | none => exact h
  | some k => exact h.sublist List.filter_sublist

/-- The front of the rows is made of those that have few rows before them. -/
theorem mem_take_iff (h : Ascending key rows) {n : Nat} {a : A} :
    a ∈ rows.take n ↔ a ∈ rows ∧ (rows.filter (fun b => key b < key a)).length < n := by
  induction rows generalizing n with
  | nil => simp
  | cons first rest ih =>
    obtain ⟨hfirst, hrest⟩ := List.pairwise_cons.mp h
    cases n with
    | zero => simp
    | succ n =>
      rw [List.take_succ_cons, List.mem_cons, List.mem_cons, ih hrest]
      by_cases ha : a = first
      · subst ha
        have hnone : (a :: rest).filter (fun b => key b < key a) = [] := by
          rw [List.filter_eq_nil_iff]
          intro b hb
          rcases List.mem_cons.mp hb with rfl | hb
          · simp
          · simpa using (hfirst b hb).le
        simp [hnone]
      · simp only [ha, false_or]
        refine and_congr_right fun hmem => ?_
        rw [List.filter_cons_of_pos (by simpa using hfirst a hmem), List.length_cons]
        omega

theorem mem_after {a : A} : a ∈ after key rows pos ↔ a ∈ rows ∧ ∀ k, pos = some k → k < key a := by
  cases pos with
  | none => simp [after]
  | some k => simp [after]

namespace Takes

theorem sub (h : Takes key rows pos taken next) {a : A} (ha : a ∈ taken) :
    a ∈ rows ∧ ∀ k, pos = some k → k < key a := by
  obtain ⟨left, hsplit, _⟩ := h.split
  exact mem_after.mp (hsplit ▸ List.mem_append_left left ha)

theorem ascending (h : Takes key rows pos taken next) (hrows : Ascending key rows) :
    Ascending key taken := by
  obtain ⟨left, hsplit, _⟩ := h.split
  have hafter := after_ascending hrows pos
  rw [hsplit] at hafter
  exact (List.pairwise_append.mp hafter).1

/-- What a page takes lies up to the position that it ends at. -/
theorem le_next (h : Takes key rows pos taken next) (hrows : Ascending key rows) {k : K}
    (hk : next = some k) {a : A} (ha : a ∈ taken) : key a ≤ k := by
  obtain ⟨last, hlast, rfl⟩ := h.last k hk
  obtain ⟨front, rfl⟩ := List.getLast?_eq_some_iff.mp hlast
  obtain ha | ha := List.mem_append.mp ha
  · exact ((List.pairwise_append.mp (h.ascending hrows)).2.2 a ha last
      (List.mem_singleton_self last)).le
  · rw [List.mem_singleton.mp ha]

/-- The rows after the position at which a page ends are those that it leaves. -/
theorem after_next (h : Takes key rows pos taken next) (hrows : Ascending key rows) {k : K}
    (hk : next = some k) :
    after key rows pos = taken ++ after key rows next := by
  obtain ⟨left, hsplit, _⟩ := h.split
  have hafter := after_ascending hrows pos
  rw [hsplit] at hafter ⊢
  obtain ⟨last, hlast, rfl⟩ := h.last k hk
  have hpos : ∀ k', pos = some k' → k' < key last := (h.sub (List.mem_of_getLast? hlast)).2
  have hleft : after key rows next = (after key rows pos).filter (fun a => key last < key a) := by
    rw [hk]
    cases pos with
    | none => rfl
    | some k' =>
      simp only [after, List.filter_filter]
      refine List.filter_congr (fun a _ => ?_)
      rw [Bool.eq_iff_iff]
      simp only [decide_eq_true_eq, Bool.and_eq_true]
      exact ⟨fun hlt => ⟨hlt, (hpos k' rfl).trans hlt⟩, And.left⟩
  rw [hleft, hsplit, List.filter_append]
  have htaken : taken.filter (fun a => key last < key a) = [] :=
    List.filter_eq_nil_iff.mpr (fun a ha => by simpa using h.le_next hrows hk ha)
  have hrest : left.filter (fun a => key last < key a) = left :=
    List.filter_eq_self.mpr (fun a ha => by
      simpa using (List.pairwise_append.mp hafter).2.2 last (List.mem_of_getLast? hlast) a ha)
  rw [htaken, hrest, List.nil_append]

/-- A page that is the last one takes all the rows after its position. -/
theorem all (h : Takes key rows pos taken none) : after key rows pos = taken := by
  obtain ⟨left, hsplit, hnone⟩ := h.split
  rw [hsplit, hnone rfl, List.append_nil]

/-- The page of at most `limit` rows, with a cursor if there are more. -/
theorem of_limit {limit : Nat} (hlimit : 0 < limit) (rows : List A) (pos : Option K) :
    Takes key rows pos ((after key rows pos).take limit)
      (if limit < (after key rows pos).length then
      ((after key rows pos).take limit).getLast?.map key else none) := by
  refine ⟨⟨(after key rows pos).drop limit, (List.take_append_drop _ _).symm, fun hnone => ?_⟩,
    fun k hk => ?_⟩
  · split at hnone
    · rename_i hmore
      rw [Option.map_eq_none_iff, List.getLast?_eq_none_iff, List.take_eq_nil_iff] at hnone
      obtain hzero | hnil := hnone
      · omega
      · rw [hnil, List.length_nil] at hmore
        omega
    · exact List.drop_of_length_le (by omega)
  · split at hk
    · exact Option.map_eq_some_iff.mp hk
    · cases hk

end Takes

/-- A page of a listing: it takes rows of what the listing is in its state. -/
def Listing (key : A → K) (rows : S → List A) (s : S) (pos : Option K) (taken : List A)
    (next : Option K) : Prop :=
  Ascending key (rows s) ∧ Takes key (rows s) pos taken next

variable {listing : S → List A} {pages : List (S × List A)}

/-- Whatever happens between the pages, no key is taken twice and all are taken in
order, each up to the position at which the pages end. -/
theorem Fetched.ascending (h : Fetched (Listing key listing) pages pos) :
    Ascending key (contents pages) ∧ ∀ a ∈ contents pages, ∃ k, pos = some k ∧ key a ≤ k := by
  induction h with
  | start => exact ⟨.nil, by simp⟩
  | @next pages pos s taken k _ htakes ih =>
    obtain ⟨hascending, hbelow⟩ := ih
    obtain ⟨hrows, htakes⟩ := htakes
    have hbefore : ∀ a ∈ contents pages, ∀ b ∈ taken, key a < key b := by
      intro a ha b hb
      obtain ⟨k', hk', hle⟩ := hbelow a ha
      exact hle.trans_lt ((htakes.sub hb).2 k' hk')
    rw [contents_concat]
    refine ⟨List.pairwise_append.mpr ⟨hascending, htakes.ascending hrows, hbefore⟩, fun a ha =>
      ⟨k, rfl, ?_⟩⟩
    obtain ha | ha := List.mem_append.mp ha
    · obtain ⟨last, hlast, rfl⟩ := htakes.last k rfl
      exact (hbefore a ha last (List.mem_of_getLast? hlast)).le
    · exact htakes.le_next hrows rfl ha

theorem Finished.ascending (h : Finished (Listing key listing) pages) :
    Ascending key (contents pages) := by
  obtain ⟨hfetched, hrows, htakes⟩ := h
  obtain ⟨hascending, hbelow⟩ := hfetched.ascending
  rw [contents_concat]
  refine List.pairwise_append.mpr ⟨hascending, htakes.ascending hrows, fun a ha b hb => ?_⟩
  obtain ⟨k, hk, hle⟩ := hbelow a ha
  exact hle.trans_lt ((htakes.sub hb).2 k hk)

/-- A key that is listed in every state in which a page is fetched has been taken,
or lies after the position at which the pages end. -/
theorem Fetched.covers (h : Fetched (Listing key listing) pages pos) {k : K}
    (hk : ∀ p ∈ pages, k ∈ (listing p.1).map key) :
    k ∈ (contents pages).map key ∨ ∀ k', pos = some k' → k' < k := by
  induction h with
  | start => exact Or.inr (fun k' hk' => by cases hk')
  | @next pages pos s taken last _ htakes ih =>
    obtain ⟨hrows, htakes⟩ := htakes
    rw [contents_concat, List.map_append]
    obtain hin | hpos := ih (fun p hp => hk p (List.mem_append_left _ hp))
    · exact Or.inl (List.mem_append_left _ hin)
    · obtain ⟨a, ha, rfl⟩ := List.mem_map.mp (hk (s, taken) (by simp))
      have hafter : a ∈ after key (listing s) pos := mem_after.mpr ⟨ha, hpos⟩
      rw [htakes.after_next hrows rfl] at hafter
      obtain htaken | hleft := List.mem_append.mp hafter
      · exact Or.inl (List.mem_append_right _ (List.mem_map_of_mem htaken))
      · exact Or.inr (mem_after.mp hleft).2

/-- A key that is listed whenever a page is fetched is taken exactly once. -/
theorem Finished.once (h : Finished (Listing key listing) pages) {k : K}
    (hk : ∀ p ∈ pages, k ∈ (listing p.1).map key) : ((contents pages).map key).count k = 1 := by
  have hascending := h.ascending
  have hnodup : ((contents pages).map key).Nodup :=
    List.pairwise_map.mpr (hascending.imp (fun hlt heq => hlt.ne heq))
  refine List.count_eq_one_of_mem hnodup ?_
  obtain ⟨hfetched, hrows, htakes⟩ := h
  rw [contents_concat, List.map_append]
  obtain hin | hpos := hfetched.covers (fun p hp => hk p (List.mem_append_left _ hp))
  · exact List.mem_append_left _ hin
  · obtain ⟨a, ha, rfl⟩ := List.mem_map.mp (hk _ (List.mem_append_right _ (List.mem_singleton_self _)))
    have hafter := mem_after.mpr ⟨ha, hpos⟩
    rw [htakes.all] at hafter
    exact List.mem_append_right _ (List.mem_map_of_mem hafter)

/-- In one state the pages take the listing from its start to their position. -/
theorem Fetched.whole {s : S}
    (h : Fetched (fun t pos taken next => t = s ∧ Listing key listing t pos taken next) pages pos) :
    contents pages ++ after key (listing s) pos = listing s := by
  induction h with
  | start => rfl
  | next _ htakes ih =>
    obtain ⟨rfl, hrows, htakes⟩ := htakes
    rw [contents_concat, List.append_assoc, ← htakes.after_next hrows rfl]
    exact ih

theorem Finished.whole {s : S}
    (h : Finished (fun t pos taken next => t = s ∧ Listing key listing t pos taken next) pages) :
    contents pages = listing s := by
  obtain ⟨hfetched, rfl, _, htakes⟩ := h
  rw [contents_concat, ← htakes.all]
  exact hfetched.whole

end keyset

section paginates

variable {S C A B K : Type} [LinearOrder K]

/-- A method that lists by pages what is present in a state, in the order of a key. -/
structure Paginates (page : S → Option C → List B → Option C → Prop) (key : B → K)
    (present : S → B → Prop) : Prop where
  fetched : ∀ pages cursor, Fetched page pages cursor → Ascending key (contents pages)
  finished : ∀ pages, Finished page pages → Ascending key (contents pages)
  once : ∀ pages, Finished page pages → ∀ k, (∀ p ∈ pages, ∃ b, present p.1 b ∧ key b = k) →
    ((contents pages).map key).count k = 1
  whole : ∀ pages s, Finished (fun t c items next => t = s ∧ page t c items next) pages →
    ∀ b, b ∈ contents pages ↔ present s b

variable {page : S → Option C → List B → Option C → Prop} {key : B → K} {rowKey : A → K}
  {present : S → B → Prop}
variable {listing : S → List A} {at_ : Option C → Option K → Prop} {shows : S → A → B → Prop}

theorem exists_shown_left {R : A → B → Prop} {as : List A} {bs : List B}
    (h : List.Forall₂ R as bs) :
    ∀ a ∈ as, ∃ b ∈ bs, R a b := by
  induction h with
  | nil => simp
  | @cons a b _ _ hab _ ih =>
    intro x hx
    obtain rfl | hx := List.mem_cons.mp hx
    · exact ⟨b, List.mem_cons_self, hab⟩
    · obtain ⟨y, hy, hxy⟩ := ih x hx
      exact ⟨y, List.mem_cons_of_mem _ hy, hxy⟩

theorem exists_shown_right {R : A → B → Prop} {as : List A} {bs : List B}
    (h : List.Forall₂ R as bs) :
    ∀ b ∈ bs, ∃ a ∈ as, R a b := exists_shown_left (R := fun b a => R a b) h.flip

/-- Items show the rows of their pages one by one. -/
theorem Shows.one_by_one {taken : List (S × List A)} {pages : List (S × List B)}
    (h : Shows (fun s => List.Forall₂ (shows s)) taken pages) :
    List.Forall₂ (fun a b => ∃ s, shows s a b) (contents taken) (contents pages) := by
  induction h with
  | nil => exact .nil
  | @cons first shown taken pages hfirst _ ih =>
    rw [contents, contents, List.flatMap_cons, List.flatMap_cons]
    exact List.rel_append (hfirst.2.imp (fun _ _ hshow => ⟨_, hshow⟩)) ih

/-- Items show those rows of their pages that satisfy a condition. -/
theorem Shows.filtered {R : A → B → Prop} {p : A → Bool} {taken : List (S × List A)}
    {pages : List (S × List B)}
    (h : Shows (fun _ rows items => List.Forall₂ R (rows.filter p) items) taken pages) :
    List.Forall₂ R ((contents taken).filter p) (contents pages) := by
  induction h with
  | nil => exact .nil
  | @cons first shown taken pages hfirst _ ih =>
    rw [contents, contents, List.flatMap_cons, List.flatMap_cons, List.filter_append]
    exact List.rel_append hfirst.2 ih

omit [LinearOrder K] in
theorem Shows.keys (hkey : ∀ s a b, shows s a b → key b = rowKey a) {taken : List (S × List A)}
    {pages : List (S × List B)} (h : Shows (fun s => List.Forall₂ (shows s)) taken pages) :
    (contents taken).map rowKey = (contents pages).map key := by
  have hall := h.one_by_one
  generalize contents taken = rows at hall ⊢
  generalize contents pages = items at hall ⊢
  induction hall with
  | nil => rfl
  | @cons a b _ _ hshow _ ih =>
    obtain ⟨s, hshow⟩ := hshow
    rw [List.map_cons, List.map_cons, hkey s a b hshow, ih]

theorem ascending_of_keys {rows : List A} {items : List B} (hkeys : rows.map rowKey = items.map key)
    (h : Ascending rowKey rows) : Ascending key items := by
  have hrows : (rows.map rowKey).Pairwise (fun k k' => k < k') := List.pairwise_map.mpr h
  rw [hkeys] at hrows
  exact List.pairwise_map.mp hrows

theorem Shows.states {shows : S → List A → List B → Prop} {taken : List (S × List A)}
    {pages : List (S × List B)} (h : Shows shows taken pages) {p : S × List A} (hp : p ∈ taken) :
    ∃ items, (p.1, items) ∈ pages := by
  induction h with
  | nil => cases hp
  | @cons first shown taken pages hfirst _ ih =>
    obtain rfl | hp := List.mem_cons.mp hp
    · exact ⟨shown.2, by rw [hfirst.1]; exact List.mem_cons_self⟩
    · obtain ⟨items, hitems⟩ := ih hp
      exact ⟨items, List.mem_cons_of_mem _ hitems⟩

/-- Where every page shows rows that it takes of a sorted listing, and the listing
shows what is present, the pages list it. -/
theorem Paginates.of_listing (rowKey : A → K) (listing : S → List A)
    (at_ : Option C → Option K → Prop) (shows : S → A → B → Prop) (hstart : at_ none none)
    (hkey : ∀ s a b, shows s a b → key b = rowKey a)
    (hpage : ∀ s c pos items next, at_ c pos → page s c items next → ∃ taken pos',
    Listing rowKey listing s pos taken pos' ∧
      List.Forall₂ (shows s) taken items ∧ at_ next pos' ∧ (next.isSome ↔ pos'.isSome))
    (hpresent : ∀ s c items next, page s c items next → ∀ b, present s b ↔ ∃ a ∈ listing s,
    shows s a b)
    (hunique : ∀ s a b b', shows s a b → shows s a b' → b = b') : Paginates page key present := by
  have hfinished : ∀ pages, Finished page pages → ∃ taken, Finished (Listing rowKey listing) taken ∧
      Shows (fun s => List.Forall₂ (shows s)) taken pages :=
        fun pages h => h.simulate _ _ hstart hpage
  have hpages : ∀ {pages : List (S × List B)} {s : S} {items : List B}, Finished page pages →
    (s, items) ∈ pages →
      ∃ c items next, page s c items next := by
    have hfetched : ∀ {pages : List (S × List B)} {cursor : Option C} {s : S} {items : List B},
      Fetched page pages cursor →
        (s, items) ∈ pages → ∃ c items next, page s c items next := by
      intro pages cursor s items h hmem
      induction h with
      | start => cases hmem
      | next _ hnext ih =>
        obtain hmem | hmem := List.mem_append.mp hmem
        · exact ih hmem
        · cases List.mem_singleton.mp hmem
          exact ⟨_, _, _, hnext⟩
    rintro pages s items ⟨h, hlast⟩ hmem
    obtain hmem | hmem := List.mem_append.mp hmem
    · exact hfetched h hmem
    · cases List.mem_singleton.mp hmem
      exact ⟨_, _, _, hlast⟩
  constructor
  · intro pages cursor h
    obtain ⟨taken, pos, htaken, _, hshows⟩ :=
        h.simulate _ _ hstart (fun s c pos items next hat hnext => by
      obtain ⟨rows, pos', htakes, hshow, hat', hsome⟩ := hpage s c pos items next hat hnext
      exact ⟨rows, pos', htakes, hshow, hat', hsome.mp⟩)
    exact ascending_of_keys (hshows.keys hkey) htaken.ascending.1
  · intro pages h
    obtain ⟨taken, htaken, hshows⟩ := hfinished pages h
    exact ascending_of_keys (hshows.keys hkey) htaken.ascending
  · intro pages h k hk
    obtain ⟨taken, htaken, hshows⟩ := hfinished pages h
    rw [← hshows.keys hkey]
    refine htaken.once (fun p hp => ?_)
    obtain ⟨items, hitems⟩ := hshows.states hp
    obtain ⟨b, hb, rfl⟩ := hk _ hitems
    obtain ⟨c, items', next, hpage'⟩ := hpages h hitems
    obtain ⟨a, ha, hshow⟩ := (hpresent p.1 c items' next hpage' b).mp hb
    rw [hkey p.1 a b hshow]
    exact List.mem_map_of_mem ha
  · intro pages s h b
    obtain ⟨taken, htaken, hshows⟩ :=
      h.simulate (fun t pos taken next => t = s ∧ Listing rowKey listing t pos taken next)
      (fun _ => List.Forall₂ (fun a b => shows s a b)) hstart (by
        rintro t c pos items next hat ⟨rfl, hnext⟩
        obtain ⟨rows, pos', htakes, hshow, hat', hsome⟩ := hpage t c pos items next hat hnext
        exact ⟨rows, pos', ⟨rfl, htakes⟩, hshow, hat', hsome⟩)
    obtain ⟨_, hsame, hlast⟩ := h
    rw [hsame] at hlast
    rw [hpresent s _ _ _ hlast b, ← htaken.whole]
    have hall := hshows.one_by_one
    constructor
    · intro hb
      obtain ⟨a, ha, _, hshow⟩ := exists_shown_right hall b hb
      exact ⟨a, ha, hshow⟩
    · rintro ⟨a, ha, hshow⟩
      obtain ⟨b', hb', _, hshow'⟩ := exists_shown_left hall a ha
      rw [hunique s a b b' hshow hshow']
      exact hb'

end paginates

section termination

variable {S C A B K : Type} [LinearOrder K] {key : A → K} {listing : S → List A} {s : S}
variable {page : S → Option C → List B → Option C → Prop} {at_ : Option C → Option K → Prop}

/-- In one state paging ends: where every cursor gives a page that takes rows and
whose own cursor stands for the position at which it ends. -/
theorem finishes (listing : S → List A) (page : S → Option C → List B → Option C → Prop)
    (at_ : Option C → Option K → Prop) (hrows : Ascending key (listing s)) (hstart : at_ none none)
    (hpage : ∀ c pos, at_ c pos → ∃ items next taken pos', page s c items next ∧
      Takes key (listing s) pos taken pos' ∧ at_ next pos' ∧ (next.isSome ↔ pos'.isSome)) :
    ∃ pages, Finished (fun t c items next => t = s ∧ page t c items next) pages := by
  have hrest : ∀ n pages c pos,
    Fetched (fun t c items next => t = s ∧ page t c items next) pages c → at_ c pos →
      (after key (listing s) pos).length = n → ∃ pages,
        Finished (fun t c items next => t = s ∧ page t c items next) pages := by
    intro n
    induction n using Nat.strongRecOn with
    | ind n ih =>
      intro pages c pos hfetched hat hlength
      obtain ⟨items, next, taken, pos', hnext, htakes, hat', hsome⟩ := hpage c pos hat
      cases next with
      | none => exact ⟨_, .last hfetched ⟨rfl, hnext⟩⟩
      | some c' =>
        obtain ⟨k, rfl⟩ := Option.isSome_iff_exists.mp (hsome.mp rfl)
        obtain ⟨last, hlast, _⟩ := htakes.last k rfl
        have hsplit := congrArg List.length (htakes.after_next hrows rfl)
        have hpos : 0 < taken.length := List.length_pos_of_mem (List.mem_of_getLast? hlast)
        rw [List.length_append] at hsplit
        exact ih _ (by omega) _ _ _ (.next hfetched ⟨rfl, hnext⟩) hat' rfl
  exact hrest _ [] none none .start hstart rfl

end termination

end Paging

end fslite
