import Mathlib.Data.NNRat.Floor
import Mathlib.Data.Nat.ModEq
import Mathlib.Algebra.Order.BigOperators.Group.List
import OpenWebUI.Lib.Dict
import OpenWebUI.Lib.Split

/-! # Rate limits

`RateLimiter` of `backend/open_webui/utils/rate_limit.py` on its two stores. Calls are counted in
buckets of time, and a call is refused when the buckets of the window hold more calls than the
limit. The window is rounded down to whole buckets; the main result says when the limit holds
nevertheless.
-/

namespace OpenWebUI.Limits

open Py

structure RateLimiter where
  limit : ℕ
  window : ℕ
  bucketSize : ℕ
  enabled : Bool
  limit_pos : 0 < limit
  window_pos : 0 < window
  bucketSize_pos : 0 < bucketSize

/-- A call of `is_limited`, at seconds since the epoch. -/
structure Call where
  time : ℚ≥0
  key : String
deriving DecidableEq

/-- What Redis stores under a key, and when it forgets it. -/
structure Counter where
  hits : ℕ
  expiresAt : Option ℚ≥0

abbrev RedisStore := Dict String Counter

abbrev MemoryStore := Dict ℤ (Dict String ℕ)

variable (rl : RateLimiter)

def RateLimiter.numBuckets : ℕ := rl.window / rl.bucketSize

def RateLimiter.currentBucket (time : ℚ≥0) : ℤ := ((⌊time⌋₊ / rl.bucketSize : ℕ) : ℤ)

/-! ## In memory -/

def pruneMemoryStore (nowBucket : ℤ) (store : MemoryStore) : MemoryStore :=
  (store.keys.filter fun i => i < nowBucket - rl.numBuckets).foldl Dict.erase store

def hitsIn (store : MemoryStore) (bucket : ℤ) (key : String) : ℕ :=
    ((store.get? bucket).getD ∅).get? key |>.getD 0

def isLimitedMemory (store : MemoryStore) (c : Call) : MemoryStore × Bool :=
  let nowBucket := rl.currentBucket c.time
  let store := pruneMemoryStore rl nowBucket store
  let counts := (store.get? nowBucket).getD ∅
  let store := store.set nowBucket (counts.set c.key ((counts.get? c.key).getD 0 + 1))
  let total := (store.entries.map fun e => (e.2.get? c.key).getD 0).sum
  (store, rl.limit < total)

/-! ## In Redis -/

/-- `_bucket_key`; `lower` is `str.lower`. -/
def bucketKey (redisKeyPrefix : String) (lower : String → String) (key : String)
    (bucket : ℤ) : String :=
  redisKeyPrefix ++ ":ratelimit:" ++ lower key ++ ":" ++ toString bucket

/-- What is stored under a key and not expired. -/
def live (store : RedisStore) (now : ℚ≥0) (key : String) : Option Counter :=
  (store.get? key).filter fun counter => counter.expiresAt.all fun t => now < t

/-- `INCR`. -/
def incr (store : RedisStore) (now : ℚ≥0) (key : String) : RedisStore × ℕ :=
  match live store now key with
  | some counter => (store.set key { counter with hits := counter.hits + 1 }, counter.hits + 1)
  | none => (store.set key ⟨1, none⟩, 1)

/-- `EXPIRE`. -/
def expire (store : RedisStore) (now : ℚ≥0) (key : String) (seconds : ℕ) : RedisStore :=
  store.modify key fun counter => { counter with expiresAt := some (now + seconds) }

def isLimitedRedis (redisKeyPrefix : String) (lower : String → String)
    (store : RedisStore) (c : Call) :
    RedisStore × Bool :=
  let nowBucket := rl.currentBucket c.time
  let key := bucketKey redisKeyPrefix lower c.key nowBucket
  let incremented := incr store c.time key
  let store := if incremented.2 = 1 then expire incremented.1 c.time key (rl.window + rl.bucketSize)
    else incremented.1
  let buckets := (List.range (rl.numBuckets + 1)).map fun i : ℕ =>
    bucketKey redisKeyPrefix lower c.key (nowBucket - i)
  let counts := buckets.map fun k => live store c.time k
  let total := (counts.map fun counter => (counter.map Counter.hits).getD 0).sum
  (store, rl.limit < total)

/-! ## Sequences of calls -/

/-- The calls of a sequence, each with its verdict. -/
def run {σ : Type} (step : σ → Call → σ × Bool) : σ → List Call → List (Call × Bool)
  | _, [] => []
  | s, c :: calls => (c, (step s c).2) :: run step (step s c).1 calls

/-- `is_limited` without Redis. -/
def memoryRun (calls : List Call) : List (Call × Bool) :=
  if rl.enabled then run (isLimitedMemory rl) ∅ calls else calls.map fun c => (c, false)

/-- `is_limited` with Redis. -/
def redisRun (redisKeyPrefix : String) (lower : String → String) (calls : List Call) :
    List (Call × Bool) :=
  if rl.enabled then run (isLimitedRedis rl redisKeyPrefix lower) ∅ calls
    else calls.map fun c => (c, false)

/-- The calls for a key that were allowed in the interval of `window` seconds from `start`. -/
def allowedIn (key : String) (start : ℚ≥0) (history : List (Call × Bool)) : ℕ :=
  history.countP fun h => !h.2 && h.1.key = key && start ≤ h.1.time && h.1.time ≤ start + rl.window

def InOrder (calls : List Call) : Prop := calls.Pairwise fun c d => c.time ≤ d.time

instance (calls : List Call) : Decidable (InOrder calls) :=
    inferInstanceAs (Decidable (calls.Pairwise _))

/-- No interval of a window's length has more allowed calls for a key than the limit, and the stores
agree where `lower` changes no key. -/
structure KeepsLimit (redisKeyPrefix : String) (lower : String → String) : Prop where
  memory : ∀ calls, InOrder calls →
    ∀ key start, allowedIn rl key start (memoryRun rl calls) ≤ rl.limit
  redis : ∀ calls, InOrder calls → ∀ key start,
    allowedIn rl key start (redisRun rl redisKeyPrefix lower calls) ≤ rl.limit
  agree : ∀ calls, InOrder calls → (∀ c ∈ calls, lower c.key = c.key) →
    redisRun rl redisKeyPrefix lower calls = memoryRun rl calls

/-! ## What a verdict counts -/

/-- The calls of the same key in the buckets of the window. -/
def hitsSince (canon : String → String) (past : List Call) (c : Call) : ℕ :=
  past.countP fun d => decide (canon d.key = canon c.key) &&
    decide (rl.currentBucket c.time - rl.numBuckets ≤ rl.currentBucket d.time)

/-- The verdicts, from the calls alone. -/
def countingRun (canon : String → String) : List Call → List Call → List (Call × Bool)
  | _, [] => []
  | past, c :: calls =>
    (c, decide (rl.limit < hitsSince rl canon (past ++ [c]) c)) ::
      countingRun canon (past ++ [c]) calls

/-- The calls of a key in one bucket. -/
def hitsAt (canon : String → String) (past : List Call) (key : String) (bucket : ℤ) : ℕ :=
  past.countP fun d => decide (canon d.key = canon key) && decide (rl.currentBucket d.time = bucket)

variable {rl} {canon lower : String → String} {redisKeyPrefix : String}
    {past calls : List Call} {c : Call}

/-- Counting by bucket counts every element once. -/
theorem sum_countP {α ι : Type} [DecidableEq ι] (l : List α) (p : α → Bool) (f : α → ι)
    {keys : List ι} (hnodup : keys.Nodup) :
    (keys.map fun i => l.countP fun a => p a && decide (f a = i)).sum =
      l.countP fun a => p a && decide (f a ∈ keys) := by
  induction keys with
  | nil => simp
  | cons i keys ih =>
      obtain ⟨hi, hnodup⟩ := List.nodup_cons.mp hnodup
      rw [List.map_cons, List.sum_cons, ih hnodup]
      clear ih
      -- an element counts for the first bucket or for a later one, never for both
      induction l with
      | nil => rfl
      | cons a l ihl =>
          have hone : ((if (p a && decide (f a = i)) = true then 1 else 0) +
              if (p a && decide (f a ∈ keys)) = true then 1 else 0) =
              if (p a && decide (f a ∈ i :: keys)) = true then 1 else 0 := by
            by_cases hp : p a = true
            · by_cases hfi : f a = i
              · simp [hp, hfi, hi]
              · simp [hp, hfi]
            · simp [hp]
          rw [List.countP_cons, List.countP_cons, List.countP_cons, ← hone, ← ihl]
          omega

theorem hitsAt_append (past : List Call) (c : Call) (key : String) (bucket : ℤ) :
    hitsAt rl canon (past ++ [c]) key bucket = hitsAt rl canon past key bucket +
      if canon c.key = canon key ∧ rl.currentBucket c.time = bucket then 1 else 0 := by
  rw [hitsAt, List.countP_append, ← hitsAt, List.countP_singleton]
  simp

/-- Summing over buckets that hold all calls of the window gives the count of the verdict. -/
theorem sum_hitsAt {keys : List ℤ} (hnodup : keys.Nodup)
    (hkeys : ∀ d ∈ past, canon d.key = canon c.key →
      (rl.currentBucket d.time ∈ keys ↔
      rl.currentBucket c.time - rl.numBuckets ≤ rl.currentBucket d.time)) :
    (keys.map fun i => hitsAt rl canon past c.key i).sum = hitsSince rl canon past c := by
  have hsum := sum_countP past (fun d => decide (canon d.key = canon c.key))
    (fun d => rl.currentBucket d.time) hnodup
  refine hsum.trans (List.countP_congr fun d hd => ?_)
  by_cases hkey : canon d.key = canon c.key
  · simp [hkey, hkeys d hd hkey]
  · simp [hkey]

/-- Later calls do not fall into earlier buckets. -/
theorem currentBucket_mono {s t : ℚ≥0} (h : s ≤ t) : rl.currentBucket s ≤ rl.currentBucket t := by
  have hdiv : ⌊s⌋₊ / rl.bucketSize ≤ ⌊t⌋₊ / rl.bucketSize := Nat.div_le_div_right (Nat.floor_mono h)
  rw [RateLimiter.currentBucket, RateLimiter.currentBucket]
  exact_mod_cast hdiv

/-! ## The memory store -/

/-- The store holds the counts of all buckets that a later call can look at. -/
def Remembers (rl : RateLimiter) (store : MemoryStore) (past : List Call) : Prop :=
  ∀ bucket key, (∀ d ∈ past, rl.currentBucket d.time - rl.numBuckets ≤ bucket) →
    hitsIn store bucket key = hitsAt rl id past key bucket

theorem get?_pruneMemoryStore (nowBucket : ℤ) (store : MemoryStore) (i : ℤ) :
    (pruneMemoryStore rl nowBucket store).get? i = if i < nowBucket - rl.numBuckets then none
      else store.get? i := by
  rw [pruneMemoryStore, Dict.get?_foldl_erase]
  by_cases hi : i < nowBucket - rl.numBuckets
  · by_cases hmem : i ∈ store.keys
    · simp [hi, hmem]
    · have hnone : store.get? i = none := (Dict.get?_eq_none_iff store i).mpr hmem
      simp [hi, hnone]
  · simp [hi]

/-- The sum over the stored buckets is the sum over their indices. -/
theorem sum_entries (store : MemoryStore) (key : String) :
    (store.entries.map fun e => (e.2.get? key).getD 0).sum =
      (store.keys.map fun i => hitsIn store i key).sum := by
  rw [Dict.keys, Assoc.keys, List.map_map]
  congr 1
  refine List.map_congr_left fun e he => ?_
  have hget := (Dict.mem_entries_iff store e.1 e.2).mp he
  rw [Function.comp_apply, hitsIn, hget]
  rfl

/-- One call on the memory store answers by the count and remembers itself. -/
theorem isLimitedMemory_spec {store : MemoryStore} (h : Remembers rl store past)
    (hlater : ∀ d ∈ past, d.time ≤ c.time) :
    (isLimitedMemory rl store c).2 = decide (rl.limit < hitsSince rl id (past ++ [c]) c) ∧
      Remembers rl (isLimitedMemory rl store c).1 (past ++ [c]) := by
  have hbuckets : ∀ d ∈ past, rl.currentBucket d.time ≤ rl.currentBucket c.time := fun d hd =>
    currentBucket_mono (hlater d hd)
  generalize hstore : (isLimitedMemory rl store c).1 = store'
  have hget : ∀ i, store'.get? i = if i = rl.currentBucket c.time then
      some ((((pruneMemoryStore rl (rl.currentBucket c.time) store).get? i).getD ∅).set c.key
        (hitsIn store i c.key + 1))
      else (pruneMemoryStore rl (rl.currentBucket c.time) store).get? i := by
    intro i
    rw [← hstore, isLimitedMemory, Dict.get?_set]
    split_ifs with hi
    · subst hi
      have hnow : ¬ rl.currentBucket c.time < rl.currentBucket c.time - rl.numBuckets := by omega
      rw [hitsIn, get?_pruneMemoryStore, if_neg hnow]
    · rfl
  -- what the new store holds
  have hhits : ∀ i key, rl.currentBucket c.time - rl.numBuckets ≤ i →
      hitsIn store' i key = hitsAt rl id (past ++ [c]) key i := by
    intro i key hi
    have hold := h i key fun d hd => (sub_le_sub_right (hbuckets d hd) _).trans hi
    rw [hitsAt_append, ← hold, hitsIn, hget, get?_pruneMemoryStore, if_neg (not_lt.mpr hi)]
    by_cases hnow : i = rl.currentBucket c.time
    · rw [if_pos hnow, Option.getD_some, Dict.get?_set]
      by_cases hkey : key = c.key
      · rw [if_pos hkey, if_pos ⟨hkey.symm, hnow.symm⟩, hkey]
        rfl
      · rw [if_neg hkey, if_neg fun hand => hkey hand.1.symm]
        rfl
    · rw [if_neg hnow, if_neg fun hand => hnow hand.2.symm]
      rfl
  have hkeys : ∀ i, i ∈ store'.keys → rl.currentBucket c.time - rl.numBuckets ≤ i := by
    intro i hi
    obtain ⟨v, hv⟩ := (Dict.mem_iff_exists store' i).mp hi
    rw [hget, get?_pruneMemoryStore] at hv
    by_cases hnow : i = rl.currentBucket c.time
    · omega
    · rw [if_neg hnow] at hv
      by_cases hout : i < rl.currentBucket c.time - rl.numBuckets
      · rw [if_pos hout] at hv
        cases hv
      · exact not_lt.mp hout
  constructor
  · have htotal : (isLimitedMemory rl store c).2 =
        decide (rl.limit < (store'.entries.map fun e => (e.2.get? c.key).getD 0).sum) := by
      rw [← hstore]
      rfl
    have hsum : (store'.keys.map fun i => hitsAt rl id (past ++ [c]) c.key i).sum =
      hitsSince rl id (past ++ [c]) c := by
      refine sum_hitsAt store'.nodup_keys fun d hd hkey => ⟨hkeys _, fun hin => ?_⟩
      -- a bucket with a call is stored
      by_contra hout
      have hzero : hitsIn store' (rl.currentBucket d.time) c.key = 0 := by
        rw [hitsIn, (Dict.get?_eq_none_iff _ _).mpr hout]
        rfl
      rw [hhits _ _ hin, hitsAt, List.countP_eq_zero] at hzero
      exact hzero d hd (by simpa using hkey)
    rw [htotal, sum_entries, List.map_congr_left fun i hi => hhits i c.key (hkeys i hi), hsum]
  · intro i key hall
    exact hhits i key (hall c (List.mem_append_right _ (List.mem_singleton_self c)))

/-- A run on the memory store answers every call by the count. -/
theorem run_isLimitedMemory {store : MemoryStore} (h : Remembers rl store past)
    (horder : InOrder (past ++ calls)) :
    run (isLimitedMemory rl) store calls = countingRun rl id past calls := by
  induction calls generalizing store past with
  | nil => rfl
  | cons c calls ih =>
      have hlater : ∀ d ∈ past, d.time ≤ c.time := fun d hd =>
        (List.pairwise_append.mp horder).2.2 d hd c List.mem_cons_self
      obtain ⟨hverdict, hnext⟩ := isLimitedMemory_spec h hlater
      rw [run, countingRun, hverdict, ih hnext (by rwa [List.append_assoc, List.singleton_append])]

/-! ## The Redis store -/

/-- The keys of different buckets, or of keys that `lower` tells apart, are different. -/
theorem bucketKey_inj {key key' : String} {i j : ℤ}
    (h : bucketKey redisKeyPrefix lower key i = bucketKey redisKeyPrefix lower key' j) :
    lower key = lower key' ∧ i = j := by
  have hcolon : ∀ n : ℤ, ':' ∉ (toString n).toList := by
    intro n hmem
    rcases mem_toString_int hmem with hdigit | hminus
    · exact absurd hdigit (by decide)
    · exact absurd hminus (by decide)
  have hlist := congrArg String.toList h
  simp only [bucketKey, String.toList_append] at hlist
  have hsplit : redisKeyPrefix.toList ++ ":ratelimit:".toList ++ (lower key).toList ++ ':' ::
    (toString i).toList =
      redisKeyPrefix.toList ++ ":ratelimit:".toList ++ (lower key').toList ++ ':' ::
        (toString j).toList := by
    simpa using hlist
  obtain ⟨hkeys, hbuckets⟩ := append_sep_inj (hcolon i) (hcolon j) hsplit
  exact ⟨String.toList_injective (List.append_cancel_left hkeys),
    toString_int_inj (String.toList_injective hbuckets)⟩

/-- Every counter has its calls, and outlives the last call that can look at it. -/
structure Counts (rl : RateLimiter) (redisKeyPrefix : String) (lower : String → String)
    (store : RedisStore)
    (past : List Call) : Prop where
  absent : ∀ key i, hitsAt rl lower past key i = 0 →
    store.get? (bucketKey redisKeyPrefix lower key i) = none
  present : ∀ key i, 0 < hitsAt rl lower past key i → ∃ expiry,
    store.get? (bucketKey redisKeyPrefix lower key i) =
      some ⟨hitsAt rl lower past key i, some expiry⟩ ∧
      ∀ t, rl.currentBucket t ≤ i + rl.numBuckets → t < expiry

/-- `EXPIRE` keeps a counter until its bucket has left the window. -/
theorem lt_expiry {s t : ℚ≥0} (h : rl.currentBucket t ≤ rl.currentBucket s + rl.numBuckets) :
    t < s + ((rl.window + rl.bucketSize : ℕ) : ℚ≥0) := by
  have hdiv : ⌊t⌋₊ / rl.bucketSize ≤ ⌊s⌋₊ / rl.bucketSize + rl.window / rl.bucketSize := by
    rw [RateLimiter.currentBucket, RateLimiter.currentBucket, RateLimiter.numBuckets] at h
    exact_mod_cast h
  have hfloor : ⌊t⌋₊ + 1 ≤ ⌊s⌋₊ + (rl.window + rl.bucketSize) := by
    have ht := Nat.lt_mul_div_succ ⌊t⌋₊ rl.bucketSize_pos
    have hs := Nat.mul_div_le ⌊s⌋₊ rl.bucketSize
    have hw := Nat.mul_div_le rl.window rl.bucketSize
    have hmul := Nat.mul_le_mul_left rl.bucketSize hdiv
    rw [Nat.mul_add] at ht hmul
    omega
  calc t < ((⌊t⌋₊ + 1 : ℕ) : ℚ≥0) := by exact_mod_cast Nat.lt_floor_add_one t
    _ ≤ ((⌊s⌋₊ + (rl.window + rl.bucketSize) : ℕ) : ℚ≥0) := by exact_mod_cast hfloor
    _ = (⌊s⌋₊ : ℚ≥0) + ((rl.window + rl.bucketSize : ℕ) : ℚ≥0) := by push_cast; ring
    _ ≤ s + ((rl.window + rl.bucketSize : ℕ) : ℚ≥0) := by
      have hfloor_le : (⌊s⌋₊ : ℚ≥0) ≤ s := Nat.floor_le zero_le
      gcongr

/-- A Redis counter that is still live holds the hits of its bucket. -/
theorem Counts.live_eq {store : RedisStore} (h : Counts rl redisKeyPrefix lower store past)
    {key : String} {i : ℤ} {now : ℚ≥0} (hnow : rl.currentBucket now ≤ i + rl.numBuckets) :
    ((live store now (bucketKey redisKeyPrefix lower key i)).map Counter.hits).getD 0 =
      hitsAt rl lower past key i := by
  rcases Nat.eq_zero_or_pos (hitsAt rl lower past key i) with hzero | hpos
  · rw [live, h.absent key i hzero, hzero]
    rfl
  · obtain ⟨expiry, hget, hlive⟩ := h.present key i hpos
    rw [live, hget, Option.filter_some, if_pos (by simpa using hlive now hnow)]
    rfl

/-- One call adds its hit to one counter. -/
theorem Counts.step {store : RedisStore} (h : Counts rl redisKeyPrefix lower store past)
    (c : Call) :
    Counts rl redisKeyPrefix lower (isLimitedRedis rl redisKeyPrefix lower store c).1
      (past ++ [c]) := by
  generalize hstore : (isLimitedRedis rl redisKeyPrefix lower store c).1 = store'
  have hget :
    ∃ expiry, (∀ t, rl.currentBucket t ≤ rl.currentBucket c.time + rl.numBuckets → t < expiry) ∧
      ∀ k, store'.get? k =
        if k = bucketKey redisKeyPrefix lower c.key (rl.currentBucket c.time) then
          some ⟨hitsAt rl lower past c.key (rl.currentBucket c.time) + 1, some expiry⟩
        else store.get? k := by
    rw [← hstore, isLimitedRedis]
    dsimp only
    rcases Nat.eq_zero_or_pos
      (hitsAt rl lower past c.key (rl.currentBucket c.time)) with hzero | hpos
    · -- the first hit of a bucket sets the expiry
      refine ⟨c.time + ((rl.window + rl.bucketSize : ℕ) : ℚ≥0), fun t => lt_expiry, fun k => ?_⟩
      rw [incr, live, h.absent _ _ hzero, hzero, Option.filter_none]
      dsimp only
      rw [if_pos rfl, expire, Dict.get?_modify, Dict.get?_set]
      split_ifs <;> rfl
    · obtain ⟨expiry, hold, hlive⟩ := h.present _ _ hpos
      have hlive_now :
        live store c.time (bucketKey redisKeyPrefix lower c.key (rl.currentBucket c.time)) =
          some ⟨hitsAt rl lower past c.key (rl.currentBucket c.time), some expiry⟩ := by
        rw [live, hold, Option.filter_some, if_pos (by simpa using hlive c.time (by omega))]
      refine ⟨expiry, hlive, fun k => ?_⟩
      rw [incr, hlive_now]
      dsimp only
      rw [if_neg (by omega), Dict.get?_set]
  obtain ⟨expiry, hlive, hget⟩ := hget
  constructor
  -- a bucket without hits is not this one
  · intro key i hnone
    rw [hitsAt_append] at hnone
    have hother : ¬ (lower c.key = lower key ∧ rl.currentBucket c.time = i) := by
      intro hsame
      rw [if_pos hsame] at hnone
      omega
    have hne :
      bucketKey redisKeyPrefix lower key i ≠ bucketKey redisKeyPrefix lower c.key
      (rl.currentBucket c.time) :=
      fun heq => hother ⟨(bucketKey_inj heq).1.symm, (bucketKey_inj heq).2.symm⟩
    rw [hget, if_neg hne]
    exact h.absent key i (by omega)
  -- this bucket has one hit more, and any other one what it had
  · intro key i hpos
    rw [hitsAt_append] at hpos ⊢
    by_cases hsame : lower c.key = lower key ∧ rl.currentBucket c.time = i
    · have heq :
        bucketKey redisKeyPrefix lower key i =
          bucketKey redisKeyPrefix lower c.key (rl.currentBucket c.time) := by
        rw [bucketKey, bucketKey, hsame.1, hsame.2]
      have hhits :
        hitsAt rl lower past c.key (rl.currentBucket c.time) = hitsAt rl lower past key i := by
        rw [hitsAt, hitsAt, hsame.1, hsame.2]
      rw [hget, if_pos heq, if_pos hsame, hhits]
      exact ⟨expiry, rfl, hsame.2 ▸ hlive⟩
    · have hne :
        bucketKey redisKeyPrefix lower key i ≠
          bucketKey redisKeyPrefix lower c.key (rl.currentBucket c.time) :=
        fun heq => hsame ⟨(bucketKey_inj heq).1.symm, (bucketKey_inj heq).2.symm⟩
      rw [if_neg hsame, add_zero] at hpos ⊢
      rw [hget, if_neg hne]
      exact h.present key i hpos

/-- One call on Redis answers by the count. -/
theorem isLimitedRedis_verdict {store : RedisStore} (h : Counts rl redisKeyPrefix lower store past)
    (hlater : ∀ d ∈ past, d.time ≤ c.time) : (isLimitedRedis rl redisKeyPrefix lower store c).2 =
      decide (rl.limit < hitsSince rl lower (past ++ [c]) c) := by
  have hnext := h.step c
  have htotal : (isLimitedRedis rl redisKeyPrefix lower store c).2 = decide (rl.limit <
      (((List.range (rl.numBuckets + 1)).map fun i : ℕ => rl.currentBucket c.time - (i : ℤ)).map
        fun i =>
        ((live (isLimitedRedis rl redisKeyPrefix lower store c).1 c.time
          (bucketKey redisKeyPrefix lower c.key i)).map Counter.hits).getD 0).sum) := by
    simp only [isLimitedRedis, List.map_map]
    rfl
  rw [htotal]
  generalize hbuckets :
    (List.range (rl.numBuckets + 1)).map (fun i : ℕ => rl.currentBucket c.time - (i : ℤ)) = buckets
  -- the buckets asked for are those of the window
  have hmem : ∀ i, i ∈ buckets ↔ rl.currentBucket c.time - rl.numBuckets ≤ i ∧
    i ≤ rl.currentBucket c.time := by
    intro i
    rw [← hbuckets, List.mem_map]
    constructor
    · rintro ⟨j, hj, rfl⟩
      have := List.mem_range.mp hj
      omega
    · rintro ⟨hlow, hhigh⟩
      exact ⟨(rl.currentBucket c.time - i).toNat, List.mem_range.mpr (by omega), by omega⟩
  have hnodup : buckets.Nodup := by
    rw [← hbuckets]
    exact List.nodup_range.map fun i j hij => by simpa using hij
  -- no call is later than this one, so these are all the calls since
  have hsum : (buckets.map fun i => hitsAt rl lower (past ++ [c]) c.key i).sum =
    hitsSince rl lower (past ++ [c]) c := by
    refine sum_hitsAt hnodup fun d hd _ => ?_
    have hle : rl.currentBucket d.time ≤ rl.currentBucket c.time := by
      rcases List.mem_append.mp hd with hd | hd
      · exact currentBucket_mono (hlater d hd)
      · rw [List.mem_singleton.mp hd]
    rw [hmem]
    exact and_iff_left hle
  rw [← hsum]
  congr 3
  refine List.map_congr_left fun i hi => hnext.live_eq ?_
  have := ((hmem i).mp hi).1
  omega

/-- A run on Redis answers every call by the count. -/
theorem run_isLimitedRedis {store : RedisStore} (h : Counts rl redisKeyPrefix lower store past)
    (horder : InOrder (past ++ calls)) :
    run (isLimitedRedis rl redisKeyPrefix lower) store calls = countingRun rl lower past calls := by
  induction calls generalizing store past with
  | nil => rfl
  | cons c calls ih =>
      have hlater : ∀ d ∈ past, d.time ≤ c.time := fun d hd =>
        (List.pairwise_append.mp horder).2.2 d hd c List.mem_cons_self
      rw [run, countingRun, isLimitedRedis_verdict h hlater,
        ih (h.step c) (by rwa [List.append_assoc, List.singleton_append])]

/-! ## The limit -/

theorem hitsSince_congr (hfixed : ∀ d ∈ past, lower d.key = d.key) (hc : c ∈ past) :
    hitsSince rl lower past c = hitsSince rl id past c := by
  refine List.countP_congr fun d hd => ?_
  rw [hfixed d hd, hfixed c hc]
  rfl

theorem countingRun_congr (hfixed : ∀ d ∈ past ++ calls, lower d.key = d.key) :
    countingRun rl lower past calls = countingRun rl id past calls := by
  induction calls generalizing past with
  | nil => rfl
  | cons c calls ih =>
      have hsplit : past ++ c :: calls = past ++ [c] ++ calls := by simp
      rw [hsplit] at hfixed
      rw [countingRun, countingRun, ih hfixed,
        hitsSince_congr (fun d hd => hfixed d (List.mem_append_left _ hd)) (by simp)]

/-- When the window is a whole number of buckets, two calls in one interval are in buckets of one
window. -/
theorem currentBucket_le_add (hdvd : rl.bucketSize ∣ rl.window) {s t : ℚ≥0}
    (h : t ≤ s + rl.window) :
    rl.currentBucket t ≤ rl.currentBucket s + rl.numBuckets := by
  have hfloor : ⌊t⌋₊ ≤ ⌊s⌋₊ + rl.window := by
    rw [← Nat.floor_add_natCast (zero_le)]
    exact Nat.floor_mono h
  have hdiv : ⌊t⌋₊ / rl.bucketSize ≤ ⌊s⌋₊ / rl.bucketSize + rl.window / rl.bucketSize := by
    rw [← Nat.add_div_of_dvd_left hdvd]
    exact Nat.div_le_div_right hfloor
  rw [RateLimiter.currentBucket, RateLimiter.currentBucket, RateLimiter.numBuckets]
  exact_mod_cast hdiv

/-- The calls of a key in an interval, allowed or not. -/
def eventsIn (rl : RateLimiter) (key : String) (start : ℚ≥0) (past : List Call) : ℕ :=
  past.countP fun d => decide (d.key = key) && decide (start ≤ d.time) &&
    decide (d.time ≤ start + rl.window)

/-- Either nothing more is allowed in the interval, or what is allowed fits beside its events so
far. -/
theorem allowedIn_countingRun (hdvd : rl.bucketSize ∣ rl.window) (canon : String → String)
    (key : String) (start : ℚ≥0) (past calls : List Call) :
    allowedIn rl key start (countingRun rl canon past calls) = 0 ∨
      allowedIn rl key start (countingRun rl canon past calls) +
        eventsIn rl key start past ≤ rl.limit := by
  induction calls generalizing past with
  | nil => exact .inl rfl
  | cons c calls ih =>
      have hcons : allowedIn rl key start (countingRun rl canon past (c :: calls)) =
          allowedIn rl key start (countingRun rl canon (past ++ [c]) calls) +
            if (!decide (rl.limit < hitsSince rl canon (past ++ [c]) c) && decide (c.key = key) &&
              decide (start ≤ c.time) && decide (c.time ≤ start + rl.window)) = true then 1
                else 0 := by
        rw [countingRun, allowedIn, List.countP_cons]
        rfl
      have hevents : eventsIn rl key start past ≤ eventsIn rl key start (past ++ [c]) := by
        rw [eventsIn, eventsIn, List.countP_append]
        omega
      rw [hcons]
      split_ifs with hallowed
      · simp only [Bool.and_eq_true, Bool.not_eq_true', decide_eq_false_iff_not,
          decide_eq_true_eq] at hallowed
        obtain ⟨⟨⟨hlimit, hkey⟩, hstart⟩, hend⟩ := hallowed
        -- all events of the interval so far are in buckets that the verdict counts
        have hcounted :
          eventsIn rl key start (past ++ [c]) ≤ hitsSince rl canon (past ++ [c]) c := by
          refine List.countP_mono_left fun d _ hd => ?_
          simp only [Bool.and_eq_true, decide_eq_true_eq] at hd ⊢
          obtain ⟨⟨hdkey, hdstart⟩, -⟩ := hd
          have hbucket := currentBucket_le_add hdvd (hend.trans (add_le_add_left hdstart _))
          exact ⟨by rw [hdkey, hkey], by omega⟩
        have hone : eventsIn rl key start (past ++ [c]) = eventsIn rl key start past + 1 := by
          rw [eventsIn, List.countP_append, ← eventsIn, List.countP_singleton]
          simp [hkey, hstart, hend]
        right
        rcases ih (past ++ [c]) with hnone | hsome <;> omega
      · rw [add_zero]
        rcases ih (past ++ [c]) with hnone | hsome
        · exact .inl hnone
        · exact .inr (by omega)

/-! ## Windows that are not a whole number of buckets -/

theorem countingRun_append (canon : String → String) (xs ys : List Call) : ∀ past,
    countingRun rl canon past (xs ++ ys) = countingRun rl canon past xs ++
      countingRun rl canon (past ++ xs) ys := by
  induction xs with
  | nil => simp [countingRun]
  | cons c xs ih =>
      intro past
      rw [List.cons_append, countingRun, countingRun, ih, List.append_assoc, List.singleton_append,
        List.cons_append]

/-- Up to the limit, equal calls are allowed. -/
theorem countingRun_replicate (canon : String → String) (c : Call) (n : ℕ) : ∀ m, m + n ≤ rl.limit →
    countingRun rl canon (List.replicate m c) (List.replicate n c) =
      List.replicate n (c, false) := by
  induction n with
  | zero => intro m _; rfl
  | succ n ih =>
      intro m hle
      have hsnoc : List.replicate m c ++ [c] = List.replicate (m + 1) c := List.replicate_succ'.symm
      have hhits : hitsSince rl canon (List.replicate (m + 1) c) c ≤ m + 1 :=
        List.countP_le_length.trans (by simp)
      have hallowed : ¬ rl.limit < hitsSince rl canon (List.replicate (m + 1) c) c := by omega
      rw [List.replicate_succ (n := n), countingRun, hsnoc, ih (m + 1) (by omega),
        decide_eq_false hallowed, ← List.replicate_succ]

/-- The end of the first bucket. -/
def early (rl : RateLimiter) : Call := ⟨((rl.bucketSize - 1 : ℕ) : ℚ≥0), ""⟩

/-- The first call that no longer sees the first bucket. -/
def late (rl : RateLimiter) : Call := ⟨(((rl.numBuckets + 1) * rl.bucketSize : ℕ) : ℚ≥0), ""⟩

/-- The early call falls into the first bucket. -/
theorem currentBucket_early : rl.currentBucket (early rl).time = 0 := by
  have hpos := rl.bucketSize_pos
  rw [RateLimiter.currentBucket, early, Nat.floor_natCast, Nat.div_eq_of_lt (by omega)]
  rfl

/-- The late call falls into the first bucket after the counted ones. -/
theorem currentBucket_late : rl.currentBucket (late rl).time = rl.numBuckets + 1 := by
  rw [RateLimiter.currentBucket, late, Nat.floor_natCast, Nat.mul_div_cancel _ rl.bucketSize_pos]
  push_cast
  rfl

/-- The early call comes first. -/
theorem early_le_late : (early rl).time ≤ (late rl).time := by
  rw [early, late]
  dsimp only
  have hle : rl.bucketSize - 1 ≤ (rl.numBuckets + 1) * rl.bucketSize := by
    rw [Nat.succ_mul]
    omega
  exact_mod_cast hle

/-- Where the bucket does not divide the window, the early and the late call are within one. -/
theorem late_le_early (h : ¬ rl.bucketSize ∣ rl.window) :
    (late rl).time ≤ (early rl).time + rl.window := by
  rw [early, late]
  dsimp only
  have hle : (rl.numBuckets + 1) * rl.bucketSize ≤ rl.bucketSize - 1 + rl.window := by
    have hmod := Nat.div_add_mod rl.window rl.bucketSize
    have hrest : rl.window % rl.bucketSize ≠ 0 := fun hzero => h (Nat.dvd_of_mod_eq_zero hzero)
    have hpos := rl.bucketSize_pos
    rw [RateLimiter.numBuckets, Nat.succ_mul, Nat.mul_comm]
    omega
  exact_mod_cast hle

/-- `limit` calls at the end of a bucket and one call when the bucket is forgotten are all
allowed. -/
theorem countingRun_early_late (canon : String → String) :
    countingRun rl canon [] (List.replicate rl.limit (early rl) ++ [late rl]) =
      List.replicate rl.limit (early rl, false) ++ [(late rl, false)] := by
  have hearly := countingRun_replicate canon (early rl) rl.limit 0 (by rw [zero_add])
  rw [List.replicate_zero] at hearly
  have hnone : hitsSince rl canon (List.replicate rl.limit (early rl)) (late rl) = 0 := by
    rw [hitsSince, List.countP_replicate, currentBucket_early, currentBucket_late, if_neg (by simp)]
  have hlate :
    hitsSince rl canon (List.replicate rl.limit (early rl) ++ [late rl]) (late rl) ≤ 1 := by
    rw [hitsSince, List.countP_append, ← hitsSince, hnone, zero_add]
    exact List.countP_le_length
  have hpos := rl.limit_pos
  rw [countingRun_append, hearly, List.nil_append, countingRun, countingRun,
    decide_eq_false (by omega)]

/-- Where the bucket does not divide the window, it has one call more than the limit. -/
theorem allowedIn_early_late (h : ¬ rl.bucketSize ∣ rl.window) :
    allowedIn rl "" (early rl).time
      (List.replicate rl.limit (early rl, false) ++ [(late rl, false)]) =
      rl.limit + 1 := by
  have hwithin : (early rl).time ≤ (early rl).time + rl.window := le_add_of_nonneg_right zero_le
  rw [allowedIn, List.countP_append, List.countP_replicate, List.countP_singleton, if_pos, if_pos]
  · have hkey : (late rl).key = "" := rfl
    simp [hkey, late_le_early h, early_le_late]
  · have hkey : (early rl).key = "" := rfl
    simp [hkey, hwithin]

/-- In memory every verdict is the one of the count. -/
theorem memoryRun_eq (henabled : rl.enabled = true) (horder : InOrder calls) :
    memoryRun rl calls = countingRun rl id [] calls := by
  have hempty : Remembers rl ∅ [] := fun _ _ _ => rfl
  rw [memoryRun, if_pos henabled, run_isLimitedMemory hempty horder]

/-- On Redis every verdict is the one of the count. -/
theorem redisRun_eq (henabled : rl.enabled = true) (horder : InOrder calls) :
    redisRun rl redisKeyPrefix lower calls = countingRun rl lower [] calls := by
  have hempty : Counts rl redisKeyPrefix lower ∅ [] :=
    ⟨fun _ _ _ => rfl, fun _ _ hpos => absurd hpos (lt_irrefl 0)⟩
  rw [redisRun, if_pos henabled, run_isLimitedRedis hempty horder]

/-- An enabled limiter keeps its limit if and only if its window is a whole number of buckets. -/
theorem limits_iff (rl : RateLimiter) (henabled : rl.enabled = true) (redisKeyPrefix : String)
    (lower : String → String) : KeepsLimit rl redisKeyPrefix lower ↔ rl.bucketSize ∣ rl.window := by
  constructor
  · intro hlimits
    by_contra hndvd
    have horder : InOrder (List.replicate rl.limit (early rl) ++ [late rl]) := by
      refine List.pairwise_append.mpr ⟨List.pairwise_replicate.mpr (.inr le_rfl),
        List.pairwise_singleton _ _, ?_⟩
      intro c hc d hd
      rw [List.eq_of_mem_replicate hc, List.mem_singleton.mp hd]
      exact early_le_late
    have hle := hlimits.memory _ horder "" (early rl).time
    rw [memoryRun_eq henabled horder, countingRun_early_late, allowedIn_early_late hndvd] at hle
    omega
  · intro hdvd
    have hlimit :
      ∀ canon calls key start,
      allowedIn rl key start (countingRun rl canon [] calls) ≤ rl.limit := by
      intro canon calls key start
      rcases allowedIn_countingRun hdvd canon key start [] calls with hnone | hsome <;> omega
    refine ⟨fun calls horder key start => ?_, fun calls horder key start => ?_,
      fun calls horder hfixed => ?_⟩
    · rw [memoryRun_eq henabled horder]
      exact hlimit id calls key start
    · rw [redisRun_eq henabled horder]
      exact hlimit lower calls key start
    · rw [memoryRun_eq henabled horder, redisRun_eq henabled horder]
      exact countingRun_congr hfixed

/-- One call in ninety seconds, on buckets of a minute. -/
def ninetySeconds : RateLimiter := ⟨1, 90, 60, true, by decide, by decide, by decide⟩

/-- Five calls an hour, in buckets of a minute. -/
theorem limits_iff_hour :
    KeepsLimit ⟨5, 3600, 60, true, by decide, by decide, by decide⟩ "open-webui" String.toLower :=
  (limits_iff ⟨5, 3600, 60, true, by decide, by decide, by decide⟩ rfl "open-webui"
    String.toLower).mpr (by decide)

/-- Calls at second 59 and second 120 are both allowed. -/
theorem ninetySeconds_not_limits : ¬ ∀ calls, InOrder calls → ∀ key start,
    allowedIn ninetySeconds key start (memoryRun ninetySeconds calls) ≤ ninetySeconds.limit := by
  intro hall
  have hle := hall [⟨59, "1.2.3.4"⟩, ⟨120, "1.2.3.4"⟩] (by decide +kernel) "1.2.3.4" 59
  exact absurd hle (by decide +kernel)

end OpenWebUI.Limits
