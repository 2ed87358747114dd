/-
  FAILED REQUESTS: what a call leaves behind when it answers with an error.

  The one error of either algorithm is an invalid Gregorian interval.  By then the call has looked
  the key up, and a lookup is itself a write: it drops an entry it meets expired, and caches the
  item the Store serves.  `Shard.met` is the entry of the key after that and nothing else;
  `failed_keeps_entry` says that a failed call leaves it so, and the Store untouched.

  Two more writes come before the error: a token bucket adopts a new limit, and a switch of
  algorithms removes the item.  They are outside the statement (`keepsToken`, `keepsLeaky`).
-/
import Gubernator.TokenBucket
import Gubernator.Leaky.Call

namespace Gubernator

open Calendar

/-! ## The lookup

What the lookup does to the entry of the key, in one equation. -/

/-- A key stays absent when an item of another key is added. -/
theorem Cache.peek_add_none {c : Cache} {key : String} {item : CacheItem}
    (h : c.peek key = none) (hne : item.key ≠ key) : (c.add item).peek key = none := by
  have habsent : ∀ i ∈ item :: c.items, ¬ (i.key == key) = true := by
    intro i hi
    rcases List.mem_cons.mp hi with rfl | hi
    · simpa using hne
    · exact List.find?_eq_none.mp h i hi
  have hsub : ∀ i ∈ (c.add item).items, i ∈ item :: c.items := by
    intro i hi
    unfold add at hi
    split at hi
    · rcases List.mem_cons.mp hi with rfl | hi
      · exact List.mem_cons_self
      · exact List.mem_cons_of_mem _ (List.mem_filter.mp hi).1
    · split at hi
      · exact List.dropLast_subset _ hi
      · exact hi
  exact List.find?_eq_none.mpr (fun i hi => habsent i (hsub i hi))

/-- The item the Store serves a request, if it is the key's own. -/
def Shard.served (s : Shard) (now : ℤ) (r : RateLimitReq) : Option CacheItem :=
  (s.store.bind (fun st => st.get r now)).filter (fun item => item.key == r.hashKey)

/-- **The entry a lookup leaves**: the one that was there, unless it is expired; else what the
    Store serves. -/
def Shard.met (s : Shard) (now : ℤ) (r : RateLimitReq) : Option CacheItem :=
  match s.cache.peek r.hashKey with
  | some item => if item.isExpired now then s.served now r else some item
  | none => s.served now r

/-- `met` is what a lookup leaves. -/
theorem Shard.peek_lookup_eq_met (s : Shard) (now : ℤ) (r : RateLimitReq) :
    (s.lookup now r).2.cache.peek r.hashKey = s.met now r := by
  have hp := Cache.peek_getItem s.cache r.hashKey now
  -- a miss: the entry, if any, is gone, and the Store is asked
  have hmiss : (s.cache.getItem r.hashKey now).1 = none →
      (s.lookup now r).2.cache.peek r.hashKey = s.served now r := by
    intro hnone
    rcases hg : s.cache.getItem r.hashKey now with ⟨hit, c⟩
    rw [hg] at hp hnone
    obtain rfl : hit = none := hnone
    unfold lookup served
    rw [hg]
    cases hs : s.store.bind (fun st => st.get r now) with
    | none => exact hp
    | some item =>
      by_cases hk : item.key = r.hashKey
      · rw [Option.filter_some, if_pos (by simpa using hk), ← hk]
        exact Cache.peek_add_self c item
      · rw [Option.filter_some, if_neg (by simpa using hk)]
        exact Cache.peek_add_none hp hk
  unfold met
  cases hc : s.cache.peek r.hashKey with
  | none => exact hmiss (Cache.getItem_of_none hc)
  | some item =>
    dsimp only
    by_cases hx : item.isExpired now = true
    · rw [if_pos hx]
      exact hmiss (Cache.getItem_of_expired hc hx)
    · rw [if_neg hx]
      exact peek_lookup (lookup_of_fresh hc (by simpa using hx)) (Cache.peek_key hc)

/-! ## The call

One theorem for each algorithm, from what its functions have written when they fail. -/

/-- The key's entry is what the lookup leaves, and the Store holds for it what it held. -/
structure KeepsEntry (now : ℤ) (s : Shard) (r : RateLimitReq) (s' : Shard) : Prop where
  entry : s'.cache.peek r.hashKey = s.met now r
  stored : s'.stored r.hashKey = s.stored r.hashKey

/-- The request finds no item, or a token bucket whose limit it does not change. -/
def keepsToken (now : ℤ) (s : Shard) (r : RateLimitReq) : Bool :=
  match s.find now r with
  | none => true
  | some (_, .token t) => t.limit == r.limit
  | some (_, .leaky _) => false

/-- The request finds no item, or a leaky bucket. -/
def keepsLeaky (now : ℤ) (s : Shard) (r : RateLimitReq) : Bool :=
  match s.find now r with
  | some (_, .token _) => false
  | _ => true

section Call
variable {host : Host} {loc : Location} {now : ℤ} {s : Shard} {r : RateLimitReq}
  {reqState : RateLimitReqState} {e : String}

/-- A call that ends after the lookup keeps the entry. -/
theorem keepsEntry_lookup (now : ℤ) (s : Shard) (r : RateLimitReq) :
    KeepsEntry now s r (s.lookup now r).2 :=
  ⟨s.peek_lookup_eq_met now r, s.stored_lookup now r _⟩

/-- A new item that fails is not made. -/
theorem tokenBucketNewItem_error (h : (tokenBucketNewItem loc now s r reqState).1 = .error e) :
    (tokenBucketNewItem loc now s r reqState).2 = s := by
  unfold tokenBucketNewItem at h ⊢
  dsimp only at h ⊢
  split at h
  · rfl
  · cases h

/-- The limit is all a failed request has written of a token bucket. -/
theorem tokenBucketItem_error {t : TokenBucketItem} {x : ℤ}
    (h : (tokenBucketItem loc now r t x).result = .error e) :
    (tokenBucketItem loc now r t x).bucket = t.setLimit r.limit ∧
      (tokenBucketItem loc now r t x).expireAt = x := by
  unfold tokenBucketItem at h ⊢
  dsimp only at h ⊢
  split at h
  · exact ⟨rfl, rfl⟩
  · cases h

/-- A token call. -/
theorem tokenBucket_failed (h : (tokenBucket loc now s r reqState).1 = .error e)
    (hkeep : keepsToken (epochMillis now) s r = true) :
    KeepsEntry (epochMillis now) s r (tokenBucket loc now s r reqState).2 := by
  unfold keepsToken at hkeep
  cases hfind : s.find (epochMillis now) r with
  | none =>
    simp only [tokenBucket, hfind] at h ⊢
    rw [tokenBucketNewItem_error h]
    exact keepsEntry_lookup _ s r
  | some found =>
    obtain ⟨item, v⟩ := found
    cases v with
    | leaky b => simp [hfind] at hkeep
    | token t =>
      have hlimit : t.limit = r.limit := by simpa [hfind] using hkeep
      -- a reset does not fail
      have hreset : hasBehavior r.behavior .resetRemaining = false := by
        by_contra hr
        rw [Bool.not_eq_false] at hr
        simp only [tokenBucket, hfind, hr, if_true] at h
        cases h
      obtain ⟨hresult, hpeek⟩ := tokenBucket_found loc reqState hfind hreset
      rw [h] at hresult
      obtain ⟨hbucket, hexpire⟩ := tokenBucketItem_error hresult.symm
      obtain ⟨hlook, hv, hk⟩ := Shard.find_key hfind
      constructor
      · -- the entry is written over with itself
        rw [hpeek, hbucket, hexpire, ← hlimit, setLimit_self, ← hv, ← Shard.peek_lookup_eq_met,
          Shard.peek_lookup hlook hk]
      · simp only [tokenBucket, hfind, hreset, Bool.false_eq_true, if_false, ← hresult]
        exact s.stored_lookup _ r _

/-- A leaky call, which writes nothing before it can fail but the removal of a token bucket. -/
theorem leakyBucket_failed (h : (leakyBucket host now s r reqState).1 = .error e)
    (hkeep : keepsLeaky (epochMillis now) s r = true) :
    KeepsEntry (epochMillis now) s r (leakyBucket host now s r reqState).2 := by
  have hbase : leakyBase now s r = (s.lookup (epochMillis now) r).2 := by
    unfold keepsLeaky at hkeep
    unfold leakyBase
    split
    · rename_i hfind
      simp [hfind] at hkeep
    · rfl
  cases leakyBucket_call host now s r reqState with
  | failed e' _ _ hs =>
    rw [hs, hbase]
    exact keepsEntry_lookup _ s r
  | worked _ _ _ _ _ _ hr => rw [h] at hr; cases hr
  | neverFits _ _ _ _ _ hr => rw [h] at hr; cases hr
  | created _ _ _ _ _ _ _ _ hr => rw [h] at hr; cases hr

end Call

/-- **A failed request leaves the key's entry as the lookup left it**, and the Store as it was. -/
theorem failed_keeps_entry (host : Host) (now : ℤ) (s : Shard) (r : RateLimitReq)
    (reqState : RateLimitReqState) (e : String) :
    ((tokenBucket host.location now s r reqState).1 = .error e →
      keepsToken (epochMillis now) s r = true →
      KeepsEntry (epochMillis now) s r (tokenBucket host.location now s r reqState).2) ∧
    ((leakyBucket host now s r reqState).1 = .error e →
      keepsLeaky (epochMillis now) s r = true →
      KeepsEntry (epochMillis now) s r (leakyBucket host now s r reqState).2) :=
  ⟨tokenBucket_failed, leakyBucket_failed⟩

/-- A minute's token bucket, three of ten tokens left, that ends at 61 s. -/
def minuteItem : CacheItem :=
  ⟨.tokenBucket, "requests_account:1", some (.token ⟨.underLimit, 10, 60000, 3, 1000⟩), 61000, 0⟩

/-- A request for the ninth calendar interval, which there is none of. -/
def ninthInterval : RateLimitReq :=
  { RateLimitReq.sample 1 10 9 0 30000 0 with
    algorithm := .tokenBucket, behavior := .durationIsGregorian }

/-- At 30 s the request fails and the entry stays. -/
theorem failed_keeps_entry_minuteItem :
    KeepsEntry 30000 (.ofItems [minuteItem]) ninthInterval
        (tokenBucket utc 30000000000 (.ofItems [minuteItem]) ninthInterval ⟨true, 0⟩).2 ∧
      Shard.met (.ofItems [minuteItem]) 30000 ninthInterval = some minuteItem :=
  ⟨(failed_keeps_entry .amd64 30000000000 (.ofItems [minuteItem]) ninthInterval ⟨true, 0⟩
    invalidGregorian).1 (by decide +kernel) (by decide +kernel), by decide +kernel⟩

/-- At 62 s the request fails and the entry is gone. -/
theorem failed_drops_expired :
    (tokenBucket utc 62000000000 (.ofItems [minuteItem]) ninthInterval ⟨true, 0⟩).1 =
      .error invalidGregorian ∧
    (Shard.ofItems [minuteItem]).cache.peek "requests_account:1" = some minuteItem ∧
    (tokenBucket utc 62000000000 (.ofItems [minuteItem]) ninthInterval
      ⟨true, 0⟩).2.cache.peek "requests_account:1" = none :=
  ⟨by decide +kernel, by decide +kernel, by decide +kernel⟩

end Gubernator
