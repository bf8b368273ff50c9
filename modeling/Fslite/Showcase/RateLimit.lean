import Fslite.Table
import Fslite.Window
import Fslite.Core.Model
import Mathlib.Algebra.Order.Group.Int

namespace fslite.showcase

inductive RateLimitBucket where
  | read
  | mutation
  | upload
  deriving DecidableEq

def RateLimitBucket.text : RateLimitBucket → Text
  | .read => "read".toList
  | .mutation => "mutation".toList
  | .upload => "upload".toList

def RATE_LIMITS : RateLimitBucket → Nat
  | .read => 120
  | .mutation => 30
  | .upload => 10

structure RateLimitResult where
  allowed : Bool
  bucket : Option RateLimitBucket := none
  retryAfterMs : Int

def WINDOW_MS : Int := 60000

def DEFAULT_MAX_KEYS : Int := 10000

/-- The times of the calls that each key was charged for. -/
abbrev Timestamps := Table (Prod.fst : Text × List Int → Text)

/-- Per-IP in-memory rate limiter with sliding, one-minute windows. -/
structure RollingWindowRateLimiter where
  timestamps : Timestamps
  maxKeys : Nat
  maxKeys_pos : 1 ≤ maxKeys

namespace RollingWindowRateLimiter

def new (maxKeys : Int := DEFAULT_MAX_KEYS) : Except Text RollingWindowRateLimiter :=
  if h : 1 ≤ maxKeys ∧ maxKeys < 2 ^ 53 then .ok ⟨Table.empty, maxKeys.toNat, by omega⟩
  else .error "rate-limit maxKeys must be a positive safe integer".toList

def key (clientIp : Text) (bucket : RateLimitBucket) : Text := clientIp ++ ':' :: bucket.text

variable (limiter : RollingWindowRateLimiter) (now : Int) (clientIp : Text)

def get (k : Text) : List Int := ((limiter.timestamps.find? k).map Prod.snd).getD []

def has (k : Text) : Bool := limiter.timestamps.contains k

def set (k : Text) (timestamps : List Int) : RollingWindowRateLimiter :=
  { limiter with timestamps := limiter.timestamps.upsert (k, timestamps) }

def delete (k : Text) : RollingWindowRateLimiter :=
  { limiter with timestamps := limiter.timestamps.deleteWhere (fun row => row.1 = k) }

def prune (bucket : RateLimitBucket) : List Int × RollingWindowRateLimiter :=
  let k := key clientIp bucket
  let retained := recent WINDOW_MS now (limiter.get k)
  if retained = [] then ([], limiter.delete k) else (retained, limiter.set k retained)

/-- Keeps the recent timestamps of a key, and the key when it has some. -/
def retain : Table.Reduction (Prod.fst : Text × List Int → Text) where
  apply row :=
    let retained := recent WINDOW_MS now row.2
    if retained = [] then none else some (row.1, retained)
  key_apply := by
    intro r s h
    dsimp only at h
    split at h
    · cases h
    · cases h
      rfl

def pruneAll : RollingWindowRateLimiter :=
  { limiter with timestamps := limiter.timestamps.reduce (retain now) }

def capacityRetryAfterMs : Int :=
  match (limiter.timestamps.rows.mapM
    (fun (row : Text × List Int) => row.2.head?)).bind List.min? with
  | some oldestTimestamp => max 0 (oldestTimestamp + WINDOW_MS - now)
  | none => 0

/-- The first bucket that is full, with its timestamps. -/
def full_bucket (limiter : RollingWindowRateLimiter) :
    List RateLimitBucket → RollingWindowRateLimiter × Option (RateLimitBucket × List Int)
  | [] => (limiter, none)
  | bucket :: rest =>
    let (timestamps, limiter) := limiter.prune now clientIp bucket
    if RATE_LIMITS bucket ≤ timestamps.length then (limiter,
      some (bucket, timestamps)) else full_bucket limiter rest

/-- Charges every bucket. -/
def charge (limiter : RollingWindowRateLimiter) : List RateLimitBucket → RollingWindowRateLimiter
  | [] => limiter
  | bucket :: rest =>
    let (timestamps, limiter) := limiter.prune now clientIp bucket
    charge (limiter.set (key clientIp bucket) (timestamps ++ [now])) rest

def checkAll (buckets : List RateLimitBucket) : RateLimitResult × RollingWindowRateLimiter :=
  let uniqueBuckets := buckets.eraseDups
  let limiter := limiter.pruneAll now
  let newKeyCount := (uniqueBuckets.filter
    (fun bucket => ! limiter.has (key clientIp bucket))).length
  if limiter.maxKeys < limiter.timestamps.rows.length + newKeyCount then
    (⟨false, uniqueBuckets.head?, limiter.capacityRetryAfterMs now⟩, limiter)
  else
    match full_bucket now clientIp limiter uniqueBuckets with
    | (limiter, some (bucket, timestamps)) =>
      (⟨false, some bucket, max 0 (timestamps.headD 0 + WINDOW_MS - now)⟩, limiter)
    | (limiter, none) => (⟨true, none, 0⟩, charge now clientIp limiter uniqueBuckets)

/-- The last four characters of a key tell its bucket from the others. -/
theorem key_end (ip : Text) (bucket : RateLimitBucket) :
    (key ip bucket).reverse.take 4 = bucket.text.reverse.take 4 := by
  rw [key, List.reverse_append, List.reverse_cons]
  cases bucket <;> rfl

theorem key_inj {ip ip' : Text} {bucket bucket' : RateLimitBucket} :
    key ip bucket = key ip' bucket' ↔ ip = ip' ∧ bucket = bucket' := by
  constructor
  · intro h
    have hend := congrArg (fun text => text.reverse.take 4) h
    simp only [key_end] at hend
    have hbucket : bucket = bucket' := by
      revert hend
      cases bucket <;> cases bucket' <;> decide
    subst hbucket
    exact ⟨List.append_cancel_right h, rfl⟩
  · rintro ⟨rfl, rfl⟩
    rfl

theorem mem_keys {ip ip' : Text} {bucket : RateLimitBucket} {buckets : List RateLimitBucket} :
    key ip bucket ∈ buckets.map (key ip') ↔ ip' = ip ∧ bucket ∈ buckets := by
  rw [List.mem_map]
  constructor
  · rintro ⟨other, hother, hkey⟩
    obtain ⟨hip, rfl⟩ := key_inj.mp hkey
    exact ⟨hip, hother⟩
  · rintro ⟨rfl, hbucket⟩
    exact ⟨bucket, hbucket, rfl⟩

/-- A limiter keeps no key without timestamps, and none that have left the window. -/
def Fresh : Prop := ∀ row ∈ limiter.timestamps, row.2 ≠ [] ∧ ∀ time ∈ row.2, now - WINDOW_MS < time

variable {limiter now}

theorem get_of_mem {row : Text × List Int} (h : row ∈ limiter.timestamps) :
    limiter.get row.1 = row.2 := by
  rw [get, Table.find?_key h]
  rfl

theorem get_eq_nil {k : Text} (h : limiter.has k = false) : limiter.get k = [] := by
  rw [has, Table.contains, Option.isSome_eq_false_iff, Option.isNone_iff_eq_none] at h
  rw [get, h]
  rfl

theorem mem_of_has {k : Text} (h : limiter.has k = true) :
    (k, limiter.get k) ∈ limiter.timestamps := by
  obtain ⟨row, hrow⟩ := Table.contains_iff.mp h
  have hkey := Table.key_of_find? hrow
  rw [get, hrow]
  subst hkey
  exact Table.mem_of_find? hrow

theorem Fresh.has_iff (h : Fresh limiter now) {k : Text} :
    limiter.has k = true ↔ limiter.get k ≠ [] := by
  constructor
  · intro hhas
    exact (h _ (mem_of_has hhas)).1
  · intro hget
    by_contra hhas
    exact hget (get_eq_nil (by simpa using hhas))

theorem Fresh.recent_get (h : Fresh limiter now) (k : Text) :
    recent WINDOW_MS now (limiter.get k) = limiter.get k := by
  apply recent_eq_self
  cases hhas : limiter.has k with
  | true => exact (h _ (mem_of_has hhas)).2
  | false =>
    rw [get_eq_nil hhas]
    intro time htime
    cases htime

theorem retain_eq_some {row kept : Text × List Int} :
    (retain now).apply row = some kept ↔ kept = (row.1, recent WINDOW_MS now row.2) ∧
    kept.2 ≠ [] := by
  simp only [retain]
  by_cases hempty : recent WINDOW_MS now row.2 = []
  · rw [if_pos hempty]
    constructor
    · intro h
      cases h
    · rintro ⟨rfl, hne⟩
      exact absurd hempty hne
  · rw [if_neg hempty, Option.some.injEq]
    constructor
    · rintro rfl
      exact ⟨rfl, hempty⟩
    · intro h
      exact h.1.symm

theorem fresh_pruneAll (limiter : RollingWindowRateLimiter) (now : Int) :
    Fresh (limiter.pruneAll now) now := by
  intro row hrow
  obtain ⟨old, _, happly⟩ := Table.mem_reduce.mp hrow
  obtain ⟨rfl, hne⟩ := retain_eq_some.mp happly
  exact ⟨hne, fun time htime => (mem_recent.mp htime).2⟩

theorem get_pruneAll (limiter : RollingWindowRateLimiter) (now : Int) (k : Text) :
    (limiter.pruneAll now).get k = recent WINDOW_MS now (limiter.get k) := by
  simp only [get, pruneAll, Table.find?_reduce]
  cases limiter.timestamps.find? k with
  | none => rfl
  | some row =>
    simp only [Option.bind_some, Option.map_some, Option.getD_some, retain]
    split
    case isTrue hempty => rw [hempty]; rfl
    case isFalse => rfl

theorem get_set (k k' : Text) (timestamps : List Int) :
    (limiter.set k timestamps).get k' = if k = k' then timestamps else limiter.get k' := by
  simp only [get, set, Table.find?_upsert]
  split <;> rfl

theorem mem_set {k : Text} {timestamps : List Int} {row : Text × List Int}
    (h : row ∈ (limiter.set k timestamps).timestamps) :
    row = (k, timestamps) ∨ row ∈ limiter.timestamps := by
  have hfind := Table.find?_key h
  rw [set, Table.find?_upsert] at hfind
  split at hfind
  · exact .inl (Option.some.inj hfind).symm
  · exact .inr (Table.mem_of_find? hfind)

/-- What has just been pruned is not changed by another pruning. -/
theorem Fresh.prune (h : Fresh limiter now) (bucket : RateLimitBucket) :
    limiter.prune now clientIp bucket = (limiter.get (key clientIp bucket), limiter) := by
  simp only [RollingWindowRateLimiter.prune, h.recent_get]
  cases hhas : limiter.has (key clientIp bucket) with
  | true =>
    rw [if_neg (h.has_iff.mp hhas), set, Table.upsert_eq_self (mem_of_has hhas)]
  | false =>
    have hnone := get_eq_nil hhas
    rw [if_pos hnone, hnone, delete, Table.deleteWhere_eq_self]
    intro row hrow
    refine decide_eq_false (fun hkey => ?_)
    have hget := get_of_mem hrow
    rw [hkey, hnone] at hget
    exact (h row hrow).1 hget.symm

theorem Fresh.full_bucket (h : Fresh limiter now) (buckets : List RateLimitBucket) :
    full_bucket now clientIp limiter buckets =
      (limiter, (buckets.find?
      (fun bucket => RATE_LIMITS bucket ≤ (limiter.get (key clientIp bucket)).length)).map
        (fun bucket => (bucket, limiter.get (key clientIp bucket)))) := by
  induction buckets with
  | nil => rfl
  | cons bucket rest ih =>
    rw [RollingWindowRateLimiter.full_bucket, h.prune]
    dsimp only
    rw [ih]
    by_cases hfull : RATE_LIMITS bucket ≤ (limiter.get (key clientIp bucket)).length
    · rw [if_pos hfull, List.find?_cons_of_pos (by simpa using hfull)]
      rfl
    · rw [if_neg hfull, List.find?_cons_of_neg (by simpa using hfull)]

theorem Fresh.push (h : Fresh limiter now) (k : Text) :
    Fresh (limiter.set k (limiter.get k ++ [now])) now := by
  intro row hrow
  rcases mem_set hrow with rfl | hrow
  · refine ⟨by simp, fun time htime => ?_⟩
    rcases List.mem_append.mp htime with hold | hnew
    · rw [← h.recent_get] at hold
      exact (mem_recent.mp hold).2
    · rw [List.mem_singleton.mp hnew, WINDOW_MS]
      omega
  · exact h row hrow

theorem nodup_eraseDups {A : Type} [DecidableEq A] (l : List A) : l.eraseDups.Nodup := by
  induction hn : l.length using Nat.strong_induction_on generalizing l with
  | _ n ih =>
    cases l with
    | nil => exact List.nodup_nil
    | cons a rest =>
      rw [List.eraseDups_cons, List.nodup_cons]
      refine ⟨by simp, ih _ ?_ _ rfl⟩
      have hshort := List.length_filter_le (fun b => ! b == a) rest
      rw [List.length_cons] at hn
      omega

/-- Every bucket is charged once. -/
theorem Fresh.charge (h : Fresh limiter now) {buckets : List RateLimitBucket}
    (hnodup : buckets.Nodup) :
    Fresh (charge now clientIp limiter buckets) now ∧
    (charge now clientIp limiter buckets).maxKeys = limiter.maxKeys ∧
    (charge now clientIp limiter buckets).timestamps.rows.length =
      limiter.timestamps.rows.length +
        (buckets.filter (fun bucket => ! limiter.has (key clientIp bucket))).length ∧
    ∀ k, (charge now clientIp limiter buckets).get k =
      limiter.get k ++ if k ∈ buckets.map (key clientIp) then [now] else [] := by
  induction buckets generalizing limiter with
  | nil => exact ⟨h, rfl, rfl, fun k => (List.append_nil _).symm⟩
  | cons bucket rest ih =>
    obtain ⟨hfirst, hrest⟩ := List.nodup_cons.mp hnodup
    simp only [RollingWindowRateLimiter.charge, h.prune]
    obtain ⟨hfresh, hmax, hsize, hget⟩ := ih (h.push (key clientIp bucket)) hrest
    have hne (other : RateLimitBucket) (hother : other ∈ rest) :
        key clientIp bucket ≠ key clientIp other := by
      intro heq
      exact hfirst ((key_inj.mp heq).2 ▸ hother)
    refine ⟨hfresh, hmax, ?_, fun k => ?_⟩
    · have hsame : rest.filter (fun other => ! (limiter.set (key clientIp bucket)
          (limiter.get (key clientIp bucket) ++ [now])).has (key clientIp other)) =
          rest.filter (fun other => ! limiter.has (key clientIp other)) := by
        apply List.filter_congr
        intro other hother
        simp only [has, set, Table.contains, Table.find?_upsert, if_neg (hne other hother)]
      rw [hsize, hsame, set, Table.length_upsert, List.filter_cons]
      cases hhas : limiter.has (key clientIp bucket)
      · rw [has] at hhas
        simp only [hhas, Bool.not_false, if_true, List.length_cons, Bool.false_eq_true, if_false]
        omega
      · rw [has] at hhas
        simp only [hhas, Bool.not_true, Bool.false_eq_true, if_true, if_false]
        omega
    · rw [hget, get_set]
      by_cases hk : key clientIp bucket = k
      · subst hk
        have hnot : key clientIp bucket ∉ rest.map (key clientIp) := by
          intro hmem
          obtain ⟨other, hother, heq⟩ := List.mem_map.mp hmem
          exact hne other hother heq.symm
        rw [if_pos rfl, if_neg hnot, List.append_nil, List.map_cons, if_pos List.mem_cons_self]
      · rw [if_neg hk, List.map_cons]
        simp only [List.mem_cons, Ne.symm hk, false_or]

variable (limiter now)

/-- Whether a call would put more keys into the map than it may have. -/
def Exhausted (buckets : List RateLimitBucket) : Prop :=
  (limiter.pruneAll now).maxKeys < (limiter.pruneAll now).timestamps.rows.length +
    (buckets.eraseDups.filter
      (fun bucket => ! (limiter.pruneAll now).has (key clientIp bucket))).length

instance (buckets : List RateLimitBucket) : Decidable (Exhausted limiter now clientIp buckets) :=
  inferInstanceAs (Decidable (_ < _))

/-- Whether a bucket has no room for a call. -/
def Full (bucket : RateLimitBucket) : Prop :=
  RATE_LIMITS bucket ≤ (recent WINDOW_MS now (limiter.get (key clientIp bucket))).length

instance (bucket : RateLimitBucket) : Decidable (Full limiter now clientIp bucket) :=
  inferInstanceAs (Decidable (_ ≤ _))

/-- A call prunes first, and charges its buckets only where the keys fit in and no bucket is full.
-/
theorem checkAll_eq (buckets : List RateLimitBucket) :
    limiter.checkAll now clientIp buckets =
      if Exhausted limiter now clientIp buckets then
        (⟨false, buckets.eraseDups.head?, (limiter.pruneAll now).capacityRetryAfterMs now⟩,
        limiter.pruneAll now)
      else
        match buckets.eraseDups.find? (fun bucket => Full limiter now clientIp bucket) with
        | some bucket =>
          (⟨false, some bucket,
            max 0 ((recent WINDOW_MS now (limiter.get (key clientIp bucket))).headD 0 +
              WINDOW_MS - now)⟩, limiter.pruneAll now)
        | none => (⟨true, none, 0⟩, charge now clientIp
          (limiter.pruneAll now) buckets.eraseDups) := by
  have hfull : (fun bucket =>
    decide (RATE_LIMITS bucket ≤ ((limiter.pruneAll now).get (key clientIp bucket)).length)) =
      fun bucket => decide (Full limiter now clientIp bucket) := by
    funext bucket
    rw [decide_eq_decide, get_pruneAll, Full]
  rw [checkAll, (fresh_pruneAll limiter now).full_bucket, hfull]
  simp only [get_pruneAll]
  congr 1
  cases buckets.eraseDups.find? (fun bucket => decide (Full limiter now clientIp bucket)) <;> rfl

/-- What a call leaves of the timestamps of a key. -/
theorem checkAll_get (buckets : List RateLimitBucket) (k : Text) :
    (limiter.checkAll now clientIp buckets).2.get k = recent WINDOW_MS now (limiter.get k) ++
      if (limiter.checkAll now clientIp buckets).1.allowed = true ∧
      k ∈ buckets.map (key clientIp) then [now] else [] := by
  rw [checkAll_eq]
  split
  · simp [get_pruneAll]
  · split
    · simp [get_pruneAll]
    · have hnodup := nodup_eraseDups buckets
      rw [((fresh_pruneAll limiter now).charge clientIp hnodup).2.2.2 k, get_pruneAll]
      simp only [List.mem_map, List.mem_eraseDups, true_and]

theorem checkAll_maxKeys (buckets : List RateLimitBucket) :
    (limiter.checkAll now clientIp buckets).2.maxKeys = limiter.maxKeys := by
  rw [checkAll_eq]
  split
  · rfl
  · split
    · rfl
    · exact ((fresh_pruneAll limiter now).charge clientIp (nodup_eraseDups buckets)).2.1

theorem size_pruneAll_le : (limiter.pruneAll now).timestamps.rows.length ≤
    limiter.timestamps.rows.length :=
  List.length_filterMap_le ..

/-- A call never makes the map larger than it may be. -/
theorem checkAll_size {limiter : RollingWindowRateLimiter}
    (h : limiter.timestamps.rows.length ≤ limiter.maxKeys) (now : Int) (clientIp : Text)
    (buckets : List RateLimitBucket) :
    (limiter.checkAll now clientIp buckets).2.timestamps.rows.length ≤ limiter.maxKeys := by
  have hpruned := (size_pruneAll_le limiter now).trans h
  rw [checkAll_eq]
  split
  case isTrue => exact hpruned
  case isFalse hroom =>
    split
    · exact hpruned
    · rw [((fresh_pruneAll limiter now).charge clientIp (nodup_eraseDups buckets)).2.2.1]
      exact Nat.le_of_not_lt hroom

theorem checkAll_allowed {buckets : List RateLimitBucket} :
    (limiter.checkAll now clientIp buckets).1.allowed = true ↔
      ¬ Exhausted limiter now clientIp buckets ∧ ∀ bucket ∈ buckets,
        ¬ Full limiter now clientIp bucket := by
  rw [checkAll_eq]
  split
  case isTrue hexhausted => simp [hexhausted]
  case isFalse hroom =>
    simp only [hroom, not_false_eq_true, true_and]
    split
    case h_1 bucket hfind =>
      have hfull := List.find?_some hfind
      have hmem := List.mem_eraseDups.mp (List.mem_of_find?_eq_some hfind)
      simp only [Bool.false_eq_true, false_iff]
      intro h
      exact h bucket hmem (of_decide_eq_true hfull)
    case h_2 hfind =>
      simp only [true_iff]
      intro bucket hbucket hfull
      exact List.find?_eq_none.mp hfind bucket (List.mem_eraseDups.mpr hbucket)
        (decide_eq_true hfull)

end RollingWindowRateLimiter

end fslite.showcase
