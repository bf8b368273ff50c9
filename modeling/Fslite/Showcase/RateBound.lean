import Fslite.Showcase.RateLimit
import Mathlib.Data.Set.Finite.Lattice

namespace fslite.showcase

open RollingWindowRateLimiter

/-- A call of `checkAll`, and the time of the clock at it. -/
structure RateCall where
  clientIp : Text
  buckets : List RateLimitBucket
  now : Int

/-- The result of every call, in order, and the limiter after the last. -/
def checks (limiter : RollingWindowRateLimiter) :
    List RateCall → List (RateCall × RateLimitResult) × RollingWindowRateLimiter
  | [] => ([], limiter)
  | call :: rest =>
    let (result, limiter) := limiter.checkAll call.now call.clientIp call.buckets
    let (log, limiter) := checks limiter rest
    ((call, result) :: log, limiter)

/-- The times of the allowed calls that charged a bucket of an address. -/
def charged (ip : Text) (bucket : RateLimitBucket) (log : List (RateCall × RateLimitResult)) :
    List Int :=
  (log.filter (fun entry => entry.2.allowed ∧ entry.1.clientIp = ip ∧ bucket ∈ entry.1.buckets)).map
    (·.1.now)

theorem charged_append (ip : Text) (bucket : RateLimitBucket)
    (log more : List (RateCall × RateLimitResult)) :
    charged ip bucket (log ++ more) = charged ip bucket log ++ charged ip bucket more := by
  rw [charged, List.filter_append, List.map_append]
  rfl

/-- A limiter counts the allowed calls of a log whose last one was not after `last`, and nothing
else. -/
structure Counts (log : List (RateCall × RateLimitResult)) (limiter : RollingWindowRateLimiter)
    (last : Int) : Prop where
  past : ∀ k, ∀ time ∈ limiter.get k, time ≤ last
  sorted : ∀ k, (limiter.get k).Pairwise (· ≤ ·)
  counted : ∀ ip bucket now, last ≤ now →
    recent WINDOW_MS now (limiter.get (key ip bucket)) = recent WINDOW_MS now
      (charged ip bucket log)
  sparse : ∀ ip bucket, Sparse (RATE_LIMITS bucket) WINDOW_MS (charged ip bucket log)
  room : limiter.timestamps.rows.length ≤ limiter.maxKeys

theorem counts_new {maxKeys : Int} {limiter : RollingWindowRateLimiter}
    (h : new maxKeys = .ok limiter) (start : Int) :
    Counts [] limiter start := by
  rw [new] at h
  split at h
  · cases h
    exact ⟨fun _ _ h => absurd h List.not_mem_nil, fun _ => List.Pairwise.nil, fun _ _ _ _ => rfl,
      fun _ _ => sparse_nil _,
      Nat.zero_le _⟩
  · cases h

theorem Counts.later {log : List (RateCall × RateLimitResult)} {limiter : RollingWindowRateLimiter}
    {last later : Int} (h : Counts log limiter last) (hle : last ≤ later) :
    Counts log limiter later :=
  { h with
    past := fun k time htime => (h.past k time htime).trans hle
    counted := fun ip bucket now hnow => h.counted ip bucket now (hle.trans hnow) }

/-- One call. -/
theorem Counts.step {log : List (RateCall × RateLimitResult)} {limiter : RollingWindowRateLimiter}
    {call : RateCall} (h : Counts log limiter call.now) {result : RateLimitResult}
    {after : RollingWindowRateLimiter}
    (hcheck : limiter.checkAll call.now call.clientIp call.buckets = (result, after)) :
    Counts (log ++ [(call, result)]) after call.now := by
  have hget := checkAll_get limiter call.now call.clientIp call.buckets
  have hmax := checkAll_maxKeys limiter call.now call.clientIp call.buckets
  have hsize := checkAll_size h.room call.now call.clientIp call.buckets
  have hallowed := @checkAll_allowed limiter call.now call.clientIp call.buckets
  rw [hcheck] at hget hmax hsize hallowed
  have hone (ip : Text) (bucket : RateLimitBucket) : charged ip bucket [(call, result)] =
      if result.allowed = true ∧ key ip bucket ∈ call.buckets.map
        (key call.clientIp) then [call.now] else [] := by
    simp only [mem_keys]
    by_cases hcharge : result.allowed = true ∧ call.clientIp = ip ∧ bucket ∈ call.buckets
    · simp [charged, hcharge]
    · simp [charged, hcharge]
  have hpast (k : Text) (time : Int) (htime : time ∈ recent WINDOW_MS call.now (limiter.get k)) :
    time ≤ call.now :=
    h.past k time (mem_recent.mp htime).1
  refine ⟨fun k time htime => ?_, fun k => ?_, fun ip bucket now hnow => ?_, fun ip bucket => ?_,
    ?_⟩
  · rw [hget, List.mem_append] at htime
    rcases htime with hold | hnew
    · exact hpast k time hold
    · split at hnew
      · exact (List.mem_singleton.mp hnew).le
      · cases hnew
  · rw [hget, List.pairwise_append]
    refine ⟨(h.sorted k).filter _, ?_, fun old hold new hnew => ?_⟩
    · split
      · exact List.pairwise_singleton _ _
      · exact List.Pairwise.nil
    · split at hnew
      · rw [List.mem_singleton.mp hnew]
        exact hpast k old hold
      · cases hnew
  · rw [hget, recent_append, recent_recent hnow, h.counted ip bucket now hnow, charged_append,
      recent_append, hone]
  · rw [charged_append, hone]
    split
    case isTrue hcharge =>
      obtain ⟨hok, hmem⟩ := hcharge
      obtain ⟨rfl, hbucket⟩ := mem_keys.mp hmem
      have hroom := (hallowed.mp hok).2 bucket hbucket
      rw [Full, h.counted call.clientIp bucket call.now le_rfl] at hroom
      exact (h.sparse call.clientIp bucket).concat (Nat.lt_of_not_le hroom)
    case isFalse =>
      rw [List.append_nil]
      exact h.sparse ip bucket
  · rw [hmax]
    exact hsize

/-- Calls under a clock that does not go back. -/
theorem Counts.run {calls : List RateCall} {log : List (RateCall × RateLimitResult)}
    {limiter : RollingWindowRateLimiter} {last later : Int} (h : Counts log limiter last)
    (hclock : (last :: calls.map (·.now)).Pairwise (· ≤ ·))
    (hlater : ∀ time ∈ last :: calls.map (·.now), time ≤ later) :
    Counts (log ++ (checks limiter calls).1) (checks limiter calls).2 later := by
  induction calls generalizing log limiter last with
  | nil =>
    rw [checks, List.append_nil]
    exact h.later (hlater last List.mem_cons_self)
  | cons call rest ih =>
    rw [List.map_cons, List.pairwise_cons] at hclock
    obtain ⟨hfirst, hrest⟩ := hclock
    cases hcheck : limiter.checkAll call.now call.clientIp call.buckets with
    | mk result after =>
      have hstep := (h.later (hfirst call.now List.mem_cons_self)).step hcheck
      have hrun := ih hstep hrest (fun time htime => hlater time (List.mem_cons_of_mem last htime))
      rw [List.append_assoc, List.singleton_append] at hrun
      simpa only [checks, hcheck] using hrun

theorem counts_checks {maxKeys : Int} {limiter : RollingWindowRateLimiter}
    (hnew : new maxKeys = .ok limiter) {calls : List RateCall}
    (hclock : (calls.map (·.now)).Pairwise (· ≤ ·)) {later : Int}
    (hlater : ∀ time ∈ calls.map (·.now), time ≤ later) :
    Counts (checks limiter calls).1 (checks limiter calls).2 later := by
  cases calls with
  | nil => exact counts_new hnew later
  | cons call rest =>
    have hmem : ∀ time ∈ call.now :: (call :: rest).map (·.now),
        time ∈ (call :: rest).map (·.now) := by
      intro time htime
      rcases List.mem_cons.mp htime with rfl | h
      · exact List.mem_cons_self
      · exact h
    refine (counts_new hnew call.now).run (List.pairwise_cons.mpr ⟨fun time htime => ?_, hclock⟩)
      (fun time htime =>
      hlater time (hmem time htime))
    rcases List.mem_cons.mp htime with rfl | h
    · exact le_rfl
    · exact (List.pairwise_cons.mp hclock).1 time h

/-- No key has more calls in the window than its bucket allows. -/
theorem Counts.within {log : List (RateCall × RateLimitResult)} {limiter : RollingWindowRateLimiter}
    {last : Int} (h : Counts log limiter last) (ip : Text) (bucket : RateLimitBucket) :
    (recent WINDOW_MS last (limiter.get (key ip bucket))).length ≤ RATE_LIMITS bucket := by
  have hspan := ((h.sparse ip bucket).intervals (last - WINDOW_MS)).2
  have hinside : (recent WINDOW_MS last (limiter.get (key ip bucket))).countP
      (fun time => last - WINDOW_MS < time ∧ time ≤ last - WINDOW_MS + WINDOW_MS) =
      (recent WINDOW_MS last (limiter.get (key ip bucket))).length := by
    rw [List.countP_eq_length]
    intro time htime
    obtain ⟨hmem, hafter⟩ := mem_recent.mp htime
    have hpast := h.past _ time hmem
    apply decide_eq_true
    omega
  rw [← hinside, h.counted ip bucket last le_rfl]
  exact (List.filter_sublist.countP_le).trans hspan

/-- A call that is denied leaves every key the timestamps that are still in the window. -/
def DenialChargesNothing (limiter : RollingWindowRateLimiter) : Prop :=
  ∀ now ip buckets, (limiter.checkAll now ip buckets).1.allowed = false →
    ∀ k, (limiter.checkAll now ip buckets).2.get k = recent WINDOW_MS now (limiter.get k)

theorem denial_charges_nothing (limiter : RollingWindowRateLimiter) :
    DenialChargesNothing limiter := by
  intro now ip buckets hdenied k
  rw [checkAll_get, hdenied]
  simp

theorem checks_maxKeys (limiter : RollingWindowRateLimiter) (calls : List RateCall) :
    (checks limiter calls).2.maxKeys = limiter.maxKeys := by
  induction calls generalizing limiter with
  | nil => rfl
  | cons call rest ih =>
    rw [checks]
    exact (ih _).trans (checkAll_maxKeys limiter call.now call.clientIp call.buckets)

theorem new_maxKeys {maxKeys : Int} {limiter : RollingWindowRateLimiter}
    (h : new maxKeys = .ok limiter) :
    (limiter.maxKeys : Int) = maxKeys := by
  rw [new] at h
  split at h
  case isTrue hbounds =>
    cases h
    exact Int.toNat_of_nonneg (by omega)
  case isFalse => cases h

/-- The calls allowed in any minute, whether it is open at its start or at its end. -/
theorem checks_bounded {maxKeys : Int} {limiter : RollingWindowRateLimiter}
    (hnew : new maxKeys = .ok limiter) {calls : List RateCall}
    (hclock : (calls.map (·.now)).Pairwise (· ≤ ·)) :
    (∀ ip bucket start,
      (charged ip bucket (checks limiter calls).1).countP
      (fun time => start ≤ time ∧ time < start + WINDOW_MS) ≤ RATE_LIMITS bucket ∧
      (charged ip bucket (checks limiter calls).1).countP
      (fun time => start < time ∧ time ≤ start + WINDOW_MS) ≤ RATE_LIMITS bucket) ∧
    DenialChargesNothing (checks limiter calls).2 ∧
    ((checks limiter calls).2.timestamps.rows.length : Int) ≤ maxKeys := by
  obtain ⟨later, hlater⟩ := (calls.map (·.now)).toFinset.bddAbove
  have hcounts := counts_checks hnew hclock (fun time htime => hlater (by simpa using htime))
  refine ⟨fun ip bucket start => (hcounts.sparse ip bucket).intervals start,
    denial_charges_nothing _, ?_⟩
  have hroom := hcounts.room
  rw [checks_maxKeys] at hroom
  rw [← new_maxKeys hnew]
  exact_mod_cast hroom

theorem checks_bounded_two :
    (charged ['a'] .read (checks
    ⟨Table.empty, 2, by decide⟩ [⟨['a'], [.read], 0⟩, ⟨['a'], [.read], 5⟩]).1).countP
      (fun time => 0 ≤ time ∧ time < 0 + WINDOW_MS) ≤ 120 :=
  ((@checks_bounded 2 _ rfl _ (by decide)).1 ['a'] .read 0).1

end fslite.showcase
