import Fslite.Showcase.RateBound
import Mathlib.Order.Bounds.Defs

namespace fslite.showcase

open RollingWindowRateLimiter

variable (limiter : RollingWindowRateLimiter) (call : RateCall)

local instance lawful_keys : LawfulBEq Text := inferInstance

/-- The number of keys that are not the call's and that have a timestamp later than `since`. -/
def others (since : Int) : Nat :=
  limiter.timestamps.rows.countP
    (fun row => row.1 ∉ call.buckets.map (key call.clientIp) ∧ ∃ time ∈ row.2, since < time)

/-- There is room for the call's keys next to the others, once the timestamps up to `since` are
gone. -/
def HasRoom (since : Int) : Prop :=
  others limiter call since + call.buckets.eraseDups.length ≤ limiter.maxKeys

instance (since : Int) : Decidable (HasRoom limiter call since) :=
  inferInstanceAs (Decidable (_ ≤ _))

/-- The call is allowed once the timestamps up to `since` are gone. -/
def Admits (since : Int) : Prop :=
  HasRoom limiter call since ∧
    ∀ bucket ∈ call.buckets, (limiter.get (key call.clientIp bucket)).countP
      (since < ·) < RATE_LIMITS bucket

variable {limiter call}

theorem HasRoom.mono {since later : Int} (h : HasRoom limiter call since) (hle : since ≤ later) :
    HasRoom limiter call later := by
  have hfewer : others limiter call later ≤ others limiter call since := by
    apply List.countP_mono_left
    intro row _ hrow
    obtain ⟨hkey, time, htime, hlater⟩ := of_decide_eq_true hrow
    exact decide_eq_true ⟨hkey, time, htime, hle.trans_lt hlater⟩
  rw [HasRoom] at h ⊢
  omega

/-- Pruning takes no timestamp away that counts later. -/
theorem others_pruneAll {now since : Int} (hle : now - WINDOW_MS ≤ since) :
    others (limiter.pruneAll now) call since = others limiter call since := by
  simp only [others, pruneAll, Table.reduce, List.countP_filterMap]
  apply List.countP_congr
  intro row _
  have hkept (time : Int) (hlater : since < time) :
      time ∈ recent WINDOW_MS now row.2 ↔ time ∈ row.2 := by
    rw [mem_recent]
    exact and_iff_left (hle.trans_lt hlater)
  simp only [retain]
  split
  case isTrue hempty =>
    simp only [Option.map_none, Option.getD_none, Bool.false_eq_true, false_iff, decide_eq_true_eq,
      not_and]
    rintro _ ⟨time, htime, hlater⟩
    rw [← hkept time hlater, hempty] at htime
    cases htime
  case isFalse =>
    simp only [Option.map_some, Option.getD_some, decide_eq_true_eq]
    refine and_congr_right fun _ => exists_congr fun time => ?_
    exact and_congr_left (hkept time)

theorem exhausted_iff : Exhausted limiter call.now call.clientIp call.buckets ↔
    ¬ HasRoom limiter call (call.now - WINDOW_MS) := by
  have hnodup : (call.buckets.eraseDups.map (key call.clientIp)).Nodup := by
    apply (nodup_eraseDups call.buckets).map
    intro a b hab
    exact (key_inj.mp hab).2
  have hcount := (limiter.pruneAll call.now).timestamps.length_add_missing hnodup
    (p := fun row => row.1 ∉ call.buckets.map (key call.clientIp) ∧ ∃ time ∈ row.2,
      call.now - WINDOW_MS < time) ?_
  swap
  · intro row hrow
    obtain ⟨hne, hlater⟩ := fresh_pruneAll limiter call.now row hrow
    obtain ⟨time, htime⟩ := List.exists_mem_of_ne_nil _ hne
    simp only [List.mem_map, List.mem_eraseDups, decide_eq_true_eq]
    exact ⟨And.left, fun h => ⟨h, time, htime, hlater time htime⟩⟩
  have hothers : others (limiter.pruneAll call.now) call
    (call.now - WINDOW_MS) = others limiter call (call.now - WINDOW_MS) :=
    others_pruneAll le_rfl
  rw [others] at hothers
  rw [List.filter_map, List.length_map, List.length_map, hothers] at hcount
  simp only [Exhausted, HasRoom, has]
  simp only [Function.comp_def] at hcount
  rw [hcount, Nat.not_le]
  exact Iff.rfl

theorem not_full_iff {bucket : RateLimitBucket} : ¬ Full limiter call.now call.clientIp bucket ↔
    (limiter.get (key call.clientIp bucket)).countP
    (call.now - WINDOW_MS < ·) < RATE_LIMITS bucket := by
  rw [Full, Nat.not_le, recent, List.countP_eq_length_filter]

/-- A call is decided by the timestamps that its window holds. -/
theorem allowed_iff : (limiter.checkAll call.now call.clientIp call.buckets).1.allowed = true ↔
    Admits limiter call (call.now - WINDOW_MS) := by
  rw [checkAll_allowed, exhausted_iff, not_not, Admits]
  exact and_congr_right fun _ => forall_congr' fun _ => imp_congr_right fun _ => not_full_iff

theorem checkAll_denied (h : (limiter.checkAll call.now call.clientIp call.buckets).1.allowed =
    false) :
    (limiter.checkAll call.now call.clientIp call.buckets).2 = limiter.pruneAll call.now := by
  rw [checkAll_eq] at h ⊢
  split
  · rfl
  case isFalse hroom =>
    rw [if_neg hroom] at h
    split at h
    · rfl
    · cases h

theorem admits_pruneAll {now since : Int} (hle : now - WINDOW_MS ≤ since) :
    Admits (limiter.pruneAll now) call since ↔ Admits limiter call since := by
  have hcount (k : Text) : ((limiter.pruneAll now).get k).countP
      (since < ·) = (limiter.get k).countP (since < ·) := by
    rw [get_pruneAll, recent, List.countP_filter]
    apply List.countP_congr
    intro time _
    simp only [Bool.and_eq_true, decide_eq_true_eq]
    exact and_iff_left_of_imp hle.trans_lt
  simp only [Admits, HasRoom, others_pruneAll hle, hcount]
  exact Iff.rfl

/-- The same call, repeated at another time. -/
def RateCall.repeated (call : RateCall) (now : Int) : RateCall := { call with now := now }

variable (limiter call) in
/-- The wait that a denied call is told: repeated after it the call is allowed, and at no earlier
time. -/
def Accurate : Prop :=
  let (result, after) := limiter.checkAll call.now call.clientIp call.buckets
  (after.checkAll (call.now + result.retryAfterMs) call.clientIp call.buckets).1.allowed = true ∧
    ∀ now, call.now ≤ now → now < call.now + result.retryAfterMs →
      (after.checkAll now call.clientIp call.buckets).1.allowed = false

/-- A wait to the end of a timestamp before which the call is not allowed is the right one exactly
where the call is allowed then. -/
theorem accurate_iff {since : Int}
    (hdenied : (limiter.checkAll call.now call.clientIp call.buckets).1.allowed = false)
    (hwait : call.now + (limiter.checkAll call.now call.clientIp call.buckets).1.retryAfterMs =
    since + WINDOW_MS)
    (hlate : call.now - WINDOW_MS ≤ since)
    (hbefore : ∀ earlier, call.now - WINDOW_MS ≤ earlier → earlier < since →
    ¬ Admits limiter call earlier) :
    Accurate limiter call ↔ Admits limiter call since := by
  have hrepeated (now : Int) (hnow : call.now ≤ now) :
      ((limiter.pruneAll call.now).checkAll now call.clientIp call.buckets).1.allowed = true ↔
        Admits limiter call (now - WINDOW_MS) := by
    have hallowed : ((limiter.pruneAll call.now).checkAll
      (call.repeated now).now call.clientIp call.buckets).1.allowed = true ↔
        Admits (limiter.pruneAll call.now) (call.repeated now) (now - WINDOW_MS) := allowed_iff
    exact hallowed.trans (admits_pruneAll (by omega))
  simp only [Accurate, checkAll_denied hdenied]
  rw [hwait, hrepeated _ (by omega), show since + WINDOW_MS - WINDOW_MS = since by omega]
  refine and_iff_left fun now hnow hearly => ?_
  rw [← Bool.not_eq_true, hrepeated now hnow]
  exact hbefore _ (by omega) (by omega)

variable (limiter call)

/-- Every bucket of the call that is full has a timestamp that is gone once those up to `since`
are. -/
def Frees (since : Int) : Prop :=
  ∀ bucket ∈ call.buckets, Full limiter call.now call.clientIp bucket →
    ∃ time ∈ recent WINDOW_MS call.now (limiter.get (key call.clientIp bucket)), time ≤ since

/-- The first timestamp to go makes room for all keys of the call, where they have none, and frees
every full bucket; otherwise the first timestamp of the first full bucket to go frees the other
ones too. -/
def OneWaitIsEnough : Prop :=
  if HasRoom limiter call (call.now - WINDOW_MS) then
    ∃ bucket since, call.buckets.eraseDups.find?
      (fun bucket => Full limiter call.now call.clientIp bucket) = some bucket ∧
      IsLeast {time | time ∈ recent WINDOW_MS call.now
        (limiter.get (key call.clientIp bucket))} since ∧ Frees limiter call since
  else
    ∃ since, IsLeast {time | ∃ row ∈ limiter.timestamps,
      time ∈ recent WINDOW_MS call.now row.2} since ∧
      HasRoom limiter call since ∧ Frees limiter call since

variable {limiter call}

theorem admits_iff_frees {since : Int} (hlate : call.now - WINDOW_MS ≤ since)
    (hwithin : ∀ bucket, (recent WINDOW_MS call.now
    (limiter.get (key call.clientIp bucket))).length ≤ RATE_LIMITS bucket) :
    Admits limiter call since ↔ HasRoom limiter call since ∧ Frees limiter call since := by
  refine and_congr_right fun _ => forall_congr' fun bucket => imp_congr_right fun _ => ?_
  have hcount : (limiter.get (key call.clientIp bucket)).countP (since < ·) =
      (recent WINDOW_MS call.now (limiter.get (key call.clientIp bucket))).countP (since < ·) := by
    rw [recent, List.countP_filter]
    apply List.countP_congr
    intro time _
    simp only [Bool.and_eq_true, decide_eq_true_eq]
    exact (and_iff_left_of_imp hlate.trans_lt).symm
  have hlength := hwithin bucket
  have hle := List.countP_le_length
    (l := recent WINDOW_MS call.now (limiter.get (key call.clientIp bucket))) (p := (since < ·))
  have hall := List.countP_eq_length
    (l := recent WINDOW_MS call.now (limiter.get (key call.clientIp bucket))) (p := (since < ·))
  rw [hcount, Full]
  constructor
  · intro hroom hfull
    by_contra hnone
    simp only [not_exists, not_and, not_le] at hnone
    have := hall.mpr (fun time htime => decide_eq_true (hnone time htime))
    omega
  · intro hfrees
    by_contra hfull
    obtain ⟨time, htime, hgone⟩ := hfrees (by omega)
    have hlater := of_decide_eq_true (hall.mp (by omega) time htime)
    omega

theorem isLeast_head {times : List Int} (hne : times ≠ []) (hsorted : times.Pairwise (· ≤ ·)) :
    IsLeast {time | time ∈ times} (times.headD 0) := by
  cases times with
  | nil => exact absurd rfl hne
  | cons first rest =>
    refine ⟨List.mem_cons_self, fun time htime => ?_⟩
    rcases List.mem_cons.mp htime with rfl | hrest
    · exact le_rfl
    · exact (List.pairwise_cons.mp hsorted).1 time hrest

theorem mapM_head? {rows : List (Text × List Int)} (h : ∀ row ∈ rows, row.2 ≠ []) :
    rows.mapM (fun (row : Text × List Int) => row.2.head?) =
      some (rows.map (fun row => row.2.headD 0)) := by
  induction rows with
  | nil => rfl
  | cons row rest ih =>
    rw [List.mapM_cons, ih (fun other hother => h other (List.mem_cons_of_mem row hother))]
    cases hrow : row.2 with
    | nil => exact absurd hrow (h row List.mem_cons_self)
    | cons first times => simp [hrow]

theorem min?_heads {now since : Int} (hfresh : RollingWindowRateLimiter.Fresh limiter now)
    (hsorted : ∀ row ∈ limiter.timestamps, row.2.Pairwise (· ≤ ·)) :
    (limiter.timestamps.rows.map (fun row => row.2.headD 0)).min? = some since ↔
      IsLeast {time | ∃ row ∈ limiter.timestamps, time ∈ row.2} since := by
  have hhead (row : Text × List Int) (hrow : row ∈ limiter.timestamps) :
    IsLeast {time | time ∈ row.2} (row.2.headD 0) :=
    isLeast_head (hfresh row hrow).1 (hsorted row hrow)
  rw [List.min?_eq_some_iff]
  constructor
  · rintro ⟨hmem, hall⟩
    refine ⟨?_, ?_⟩
    · obtain ⟨row, hrow, rfl⟩ := List.mem_map.mp hmem
      exact ⟨row, hrow, (hhead row hrow).1⟩
    · rintro time ⟨row, hrow, htime⟩
      exact (hall _ (List.mem_map.mpr ⟨row, hrow, rfl⟩)).trans ((hhead row hrow).2 htime)
  · intro hleast
    constructor
    · obtain ⟨row, hrow, htime⟩ := hleast.1
      refine List.mem_map.mpr ⟨row, hrow, le_antisymm ((hhead row hrow).2 htime) ?_⟩
      exact hleast.2 ⟨row, hrow, (hhead row hrow).1⟩
    · intro first hfirst
      obtain ⟨row, hrow, rfl⟩ := List.mem_map.mp hfirst
      exact hleast.2 ⟨row, hrow, (hhead row hrow).1⟩

/-- The wait for a key is counted from the first timestamp of all. -/
theorem capacityRetryAfterMs_eq {now : Int} (hfresh : RollingWindowRateLimiter.Fresh limiter now)
    (hsorted : ∀ row ∈ limiter.timestamps, row.2.Pairwise (· ≤ ·)) {since : Int}
    (hleast : IsLeast {time | ∃ row ∈ limiter.timestamps, time ∈ row.2} since) :
    limiter.capacityRetryAfterMs now = since + WINDOW_MS - now := by
  obtain ⟨row, hrow, htime⟩ := hleast.1
  have hlate := (hfresh row hrow).2 since htime
  rw [capacityRetryAfterMs, mapM_head? (fun row hrow => (hfresh row hrow).1), Option.bind_some,
    (min?_heads hfresh hsorted).mpr hleast]
  exact max_eq_right (by omega)

theorem mem_pruneAll {now time : Int} : (∃ row ∈ (limiter.pruneAll now).timestamps, time ∈ row.2) ↔
    ∃ row ∈ limiter.timestamps, time ∈ recent WINDOW_MS now row.2 := by
  constructor
  · rintro ⟨row, hrow, htime⟩
    obtain ⟨old, hold, happly⟩ := Table.mem_reduce.mp hrow
    obtain ⟨rfl, _⟩ := retain_eq_some.mp happly
    exact ⟨old, hold, htime⟩
  · rintro ⟨row, hrow, htime⟩
    refine ⟨(row.1, recent WINDOW_MS now row.2), ?_, htime⟩
    exact Table.mem_reduce.mpr ⟨row, hrow, retain_eq_some.mpr ⟨rfl, List.ne_nil_of_mem htime⟩⟩

/-- Where there is no room for the keys of a call. -/
theorem accurate_of_exhausted (hsorted : ∀ k, (limiter.get k).Pairwise (· ≤ ·))
    (hwithin : ∀ bucket, (recent WINDOW_MS call.now
    (limiter.get (key call.clientIp bucket))).length ≤ RATE_LIMITS bucket)
    (hroom : ¬ HasRoom limiter call (call.now - WINDOW_MS)) :
    Accurate limiter call ↔ OneWaitIsEnough limiter call := by
  have hexhausted := exhausted_iff.mpr hroom
  have hdenied : (limiter.checkAll call.now call.clientIp call.buckets).1.allowed = false := by
    rw [checkAll_eq, if_pos hexhausted]
  have hwait : (limiter.checkAll call.now call.clientIp call.buckets).1.retryAfterMs =
      (limiter.pruneAll call.now).capacityRetryAfterMs call.now := by
    rw [checkAll_eq, if_pos hexhausted]
  have hfresh := fresh_pruneAll limiter call.now
  have hpruned (row : Text × List Int) (hrow : row ∈ (limiter.pruneAll call.now).timestamps) :
      row.2.Pairwise (· ≤ ·) := by
    rw [← get_of_mem hrow, get_pruneAll]
    exact (hsorted row.1).filter _
  rw [OneWaitIsEnough, if_neg hroom]
  by_cases hrows : (limiter.pruneAll call.now).timestamps.rows = []
  · have hzero : (limiter.pruneAll call.now).capacityRetryAfterMs call.now = 0 := by
      rw [capacityRetryAfterMs, hrows]
      rfl
    rw [@accurate_iff _ _ (call.now - WINDOW_MS) hdenied (by omega) le_rfl (by omega)]
    constructor
    · intro h
      exact absurd h.1 hroom
    · rintro ⟨since, hleast, _⟩
      obtain ⟨row, hrow, _⟩ := mem_pruneAll.mpr hleast.1
      rw [Table.mem_def, hrows] at hrow
      cases hrow
  · have hheads : (limiter.pruneAll call.now).timestamps.rows.map (fun row => row.2.headD 0) ≠ [] := by
      simpa using hrows
    obtain ⟨since, hsince⟩ :=
      Option.ne_none_iff_exists'.mp (fun h => hheads (List.min?_eq_none_iff.mp h))
    have hleast := (min?_heads hfresh hpruned).mp hsince
    have hall := capacityRetryAfterMs_eq hfresh hpruned hleast
    simp only [mem_pruneAll] at hleast
    obtain ⟨_, _, hlive⟩ := hleast.1
    have hlate := (mem_recent.mp hlive).2
    have hbefore (earlier : Int) (_ : call.now - WINDOW_MS ≤ earlier) (hearly : earlier < since) :
        ¬ Admits limiter call earlier := by
      have hmore : others limiter call (call.now - WINDOW_MS) ≤ others limiter call earlier := by
        apply List.countP_mono_left
        intro row hrow hcounts
        obtain ⟨hkey, time, htime, hlater⟩ := of_decide_eq_true hcounts
        exact decide_eq_true ⟨hkey, time, htime, hearly.trans_le
          (hleast.2 ⟨row, hrow, mem_recent.mpr ⟨htime, hlater⟩⟩)⟩
      intro hadmits
      have hfits := hadmits.1
      rw [HasRoom] at hroom hfits
      omega
    rw [accurate_iff hdenied (by omega) hlate.le hbefore, admits_iff_frees hlate.le hwithin]
    constructor
    · intro h
      exact ⟨since, hleast, h⟩
    · rintro ⟨other, hother, h⟩
      rw [hleast.unique hother]
      exact h

/-- Where a bucket of the call is full. -/
theorem accurate_of_full (hsorted : ∀ k, (limiter.get k).Pairwise (· ≤ ·))
    (hwithin : ∀ bucket, (recent WINDOW_MS call.now
    (limiter.get (key call.clientIp bucket))).length ≤ RATE_LIMITS bucket)
    (hroom : HasRoom limiter call (call.now - WINDOW_MS))
    (hdenied : (limiter.checkAll call.now call.clientIp call.buckets).1.allowed = false) :
    Accurate limiter call ↔ OneWaitIsEnough limiter call := by
  have hexhausted : ¬ Exhausted limiter call.now call.clientIp call.buckets := by
    rw [exhausted_iff, not_not]
    exact hroom
  cases hfind : call.buckets.eraseDups.find? (fun bucket =>
    Full limiter call.now call.clientIp bucket) with
  | none =>
    rw [checkAll_eq, if_neg hexhausted, hfind] at hdenied
    cases hdenied
  | some bucket =>
    have hdecided := List.find?_some hfind
    have hfull : Full limiter call.now call.clientIp bucket := of_decide_eq_true hdecided
    have hmem := List.mem_eraseDups.mp (List.mem_of_find?_eq_some hfind)
    have hne : recent WINDOW_MS call.now (limiter.get (key call.clientIp bucket)) ≠ [] := by
      intro hnil
      rw [Full, hnil] at hfull
      cases bucket <;> exact absurd hfull (by decide)
    have hleast := isLeast_head hne ((hsorted (key call.clientIp bucket)).filter _)
    have hlate := (mem_recent.mp hleast.1).2
    have hwait : (limiter.checkAll call.now call.clientIp call.buckets).1.retryAfterMs =
        (recent WINDOW_MS call.now (limiter.get (key call.clientIp bucket))).headD 0 +
          WINDOW_MS - call.now := by
      rw [checkAll_eq, if_neg hexhausted, hfind]
      exact max_eq_right (by omega)
    have hbefore (earlier : Int) (_ : call.now - WINDOW_MS ≤ earlier)
        (hearly : earlier < (recent WINDOW_MS call.now
          (limiter.get (key call.clientIp bucket))).headD 0) :
        ¬ Admits limiter call earlier := by
      intro hadmits
      have hfree := hadmits.2 bucket hmem
      have hmore : (recent WINDOW_MS call.now (limiter.get (key call.clientIp bucket))).length ≤
          (limiter.get (key call.clientIp bucket)).countP (earlier < ·) := by
        rw [recent, ← List.countP_eq_length_filter]
        apply List.countP_mono_left
        intro time htime hlater
        exact decide_eq_true (hearly.trans_le
          (hleast.2 (mem_recent.mpr ⟨htime, of_decide_eq_true hlater⟩)))
      rw [Full] at hfull
      omega
    rw [accurate_iff hdenied (by omega) hlate.le hbefore, admits_iff_frees hlate.le hwithin,
      OneWaitIsEnough, if_pos hroom]
    constructor
    · rintro ⟨_, hfrees⟩
      exact ⟨bucket, _, hfind, hleast, hfrees⟩
    · rintro ⟨other, since, hother, hsince, hfrees⟩
      rw [hfind] at hother
      cases hother
      rw [hleast.unique hsince]
      exact ⟨hroom.mono (hlate.le.trans_eq (hleast.unique hsince)), hfrees⟩

/-- Whether the wait is right, for a call that is denied in any state that is reached under a
clock that does not go back. -/
theorem retryAfterMs_accurate {maxKeys : Int} {limiter : RollingWindowRateLimiter}
    (hnew : new maxKeys = .ok limiter) {calls : List RateCall} {call : RateCall}
    (hclock : ((calls ++ [call]).map (·.now)).Pairwise (· ≤ ·))
    (hdenied : ((checks limiter calls).2.checkAll call.now call.clientIp call.buckets).1.allowed =
    false) :
    Accurate (checks limiter calls).2 call ↔ OneWaitIsEnough (checks limiter calls).2 call := by
  rw [List.map_append, List.pairwise_append] at hclock
  have hcounts := counts_checks hnew hclock.1
    (fun time htime => hclock.2.2 time htime call.now (by simp))
  by_cases hroom : HasRoom (checks limiter calls).2 call (call.now - WINDOW_MS)
  · exact accurate_of_full hcounts.sorted (hcounts.within call.clientIp) hroom hdenied
  · exact accurate_of_exhausted hcounts.sorted (hcounts.within call.clientIp) hroom

/-- The keys of an address that called twice are not gone with its first call. -/
theorem capacity_wait_too_short :
    ∃ limiter, new 1 = .ok limiter ∧ ∃ calls call,
      ((calls ++ [call]).map (·.now)).Pairwise (· ≤ ·) ∧
      ((checks limiter calls).2.checkAll call.now call.clientIp call.buckets).1.allowed = false ∧
      ¬ Accurate (checks limiter calls).2 call := by
  refine ⟨_, rfl, [⟨['a'], [.read], 0⟩, ⟨['a'], [.read], 1⟩],
    ⟨['b'], [.read], 2⟩, by decide, by decide, fun h => ?_⟩
  exact absurd h.1 (by decide)

/-- The key of an address that called once is gone with that call: the wait is right. -/
theorem retryAfterMs_accurate_once :
    Accurate (checks ⟨Table.empty, 1, by decide⟩ [⟨['a'], [.read], 0⟩]).2 ⟨['b'], [.read], 2⟩ := by
  have haccurate : Accurate (checks ⟨Table.empty, 1, by decide⟩ [⟨['a'], [.read], 0⟩]).2
      ⟨['b'], [.read], 2⟩ ↔ OneWaitIsEnough (checks ⟨Table.empty, 1, by decide⟩
        [⟨['a'], [.read], 0⟩]).2 ⟨['b'], [.read], 2⟩ :=
    @retryAfterMs_accurate 1 _ rfl _ _ (by decide) (by decide)
  have hrows : (checks ⟨Table.empty, 1, by decide⟩ [⟨['a'], [.read], 0⟩]).2.timestamps.rows =
      [(key ['a'] .read, [0])] := by decide
  rw [haccurate, OneWaitIsEnough, if_neg (by decide)]
  refine ⟨0, ⟨⟨_, by rw [Table.mem_def, hrows]; exact List.mem_singleton.mpr rfl, by decide⟩, ?_⟩,
    by decide, fun bucket hbucket hfull => ?_⟩
  · rintro time ⟨row, hrow, htime⟩
    rw [Table.mem_def, hrows, List.mem_singleton] at hrow
    subst hrow
    exact (List.mem_singleton.mp (List.mem_of_mem_filter htime)).ge
  · obtain rfl := List.mem_singleton.mp hbucket
    exact absurd hfull (by decide)

end fslite.showcase
