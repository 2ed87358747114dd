/-
  AGGREGATED HITS: many GLOBAL requests of one key as one.

  A peer that does not own a key answers from its copy and queues the requests that carry hits;
  `runAsyncHits` merges them into one request, with the sum of the hits and with RESET_REMAINING if
  any of them has it, and the owner handles that one in their place.

  Where the owner has the key's bucket up to date, taking hits is additive (`drained`, `spend`)
  and the merger changes nothing.  What it does change is everything that depends on the ORDER of
  the requests, or on there being several of them:

  * a reset is moved to the front, and one that carries no hits is lost;
  * the first request of a token bucket refuses what it cannot have, the later ones drain;
  * a bucket brought up to date twice, at two clocks, is credited twice.
-/
import Gubernator.KeyView
import Gubernator.Global.Refinement

namespace Gubernator

open ExactFloat

/-! ## The two ways

The merged request handled once, and the requests handled one by one. -/

/-- What `QueueHit` and `runAsyncHits` make of a key's requests. -/
def aggregated (rs : List RateLimitReq) : Option RateLimitReq :=
  (queueable rs).foldl (fun entry r => some (aggregateHit entry r)) none

/-- The owner handles a request that a peer has sent. -/
def serve (conf : Config) (host : Host) (now : ℤ) (s : Shard) (p : RateLimitReq) : Shard :=
  (getLocalRateLimit conf host now s p { isOwner := true }).shard

/-- `GetPeerRateLimits` on one request after another, at one clock. -/
def serveAll (conf : Config) (host : Host) (now : ℤ) (s : Shard) (rs : List RateLimitReq) : Shard :=
  rs.foldl (fun s r => (getPeerRateLimit conf host now s r).shard) s

/-- The balance of what a request finds; a key without an item is full. -/
def balanceFound (r : RateLimitReq) : Option (CacheItem × Bucket) → ExactFloat
  | some (_, .token t) => .ofInt t.remaining
  | some (_, .leaky b) => b.remaining
  | none => .ofInt (if r.algorithm = .leakyBucket then r.withBurst.burst else r.limit)

/-- The balance the owner holds for the key of a request. -/
def Shard.balanceOf (s : Shard) (now : ℤ) (r : RateLimitReq) : ExactFloat :=
  balanceFound r (s.find (epochMillis now) r)

/-! ## Requests of one window

A window is what is merged between two sends.  Its requests agree in their terms; they
may differ in hits, in RESET_REMAINING and in flags that the owner does not read or sets itself. -/

/-- Two GLOBAL requests for one key with the same terms, the second of them acceptable. -/
structure Alike (r₀ r : RateLimitReq) : Prop where
  key : r.hashKey = r₀.hashKey
  algorithm : r.algorithm = r₀.algorithm
  limit : r.limit = r₀.limit
  duration : r.duration = r₀.duration
  burst : r.burst = r₀.burst
  createdAt : r.createdAt = r₀.createdAt
  calendar : hasBehavior r.behavior .durationIsGregorian =
    hasBehavior r₀.behavior .durationIsGregorian
  global : hasBehavior r.behavior .global = true
  noWait : r.maxWait = 0
  hits : 0 ≤ r.hits
  interval : hasBehavior r.behavior .durationIsGregorian = true → ValidGregorian r.duration

/-- Such a request as the owner handles it. -/
structure Sent (r₀ p : RateLimitReq) : Prop where
  key : p.hashKey = r₀.hashKey
  algorithm : p.algorithm = r₀.algorithm
  limit : p.limit = r₀.limit
  duration : p.duration = r₀.duration
  burst : p.burst = r₀.burst
  createdAt : p.createdAt = r₀.createdAt
  calendar : hasBehavior p.behavior .durationIsGregorian =
    hasBehavior r₀.behavior .durationIsGregorian
  drain : hasBehavior p.behavior .drainOverLimit = true
  noWait : p.maxWait = 0
  hits : 0 ≤ p.hits

/-- Whether a request resets. -/
def RateLimitReq.resets (r : RateLimitReq) : Bool := hasBehavior r.behavior .resetRemaining

section Received
variable {r₀ r : RateLimitReq}

/-- What `GetPeerRateLimits` makes of a GLOBAL request. -/
theorem received_eq (now : ℤ) (hglobal : hasBehavior r.behavior .global = true) :
    r.received now = { r with
      behavior := setBehavior r.behavior .drainOverLimit true
      createdAt := (r.stamped now).createdAt } := by
  unfold RateLimitReq.received
  simp only [hglobal, if_true]
  unfold RateLimitReq.stamped
  split <;> rfl

/-- Received, they are still alike: DRAIN_OVER_LIMIT is set on all of them, and a missing
    `created_at` becomes the owner's clock for all. -/
theorem Alike.received (h : Alike r₀ r) (h₀ : Alike r₀ r₀) (now : ℤ) :
    Sent (r₀.received now) (r.received now) ∧ (r.received now).resets = r.resets ∧
      (r.received now).hits = r.hits := by
  rw [received_eq now h.global, received_eq now h₀.global]
  have hcalendar : ∀ b : Behavior, hasBehavior (setBehavior b .drainOverLimit true)
      .durationIsGregorian = hasBehavior b .durationIsGregorian := fun b =>
    hasBehavior_set_of_disjoint (by decide) true
  refine ⟨⟨h.key, h.algorithm, h.limit, h.duration, h.burst, ?_, ?_, ?_, h.noWait, h.hits⟩, ?_, rfl⟩
  · simp only [RateLimitReq.stamped, h.createdAt]
    split
    · rfl
    · exact h.createdAt
  · simp only [hcalendar, h.calendar]
  · exact hasBehavior_set_self _ (by decide)
  · exact hasBehavior_set_of_disjoint (by decide) true

end Received

/-! ## The aggregated request

By induction on the queue, with the entry of the map as the accumulator. -/

section Aggregate
variable {r₀ : RateLimitReq}

/-- The entry of the key after a request was merged into it, if the sum is an `int64`. -/
theorem aggregateHit_alike {h r : RateLimitReq} (hh : Alike r₀ h) (hr : Alike r₀ r)
    (hrange : h.hits + r.hits < 2 ^ 63) :
    Alike r₀ (aggregateHit (some h) r) ∧
      (aggregateHit (some h) r).hits = h.hits + r.hits ∧
      (aggregateHit (some h) r).resets = (h.resets || r.resets) := by
  -- merging changes no flag but RESET_REMAINING
  have hflag : ∀ other : Behavior, Behavior.resetRemaining &&& other = 0 →
      hasBehavior (aggregateHit (some h) r).behavior other = hasBehavior h.behavior other := by
    intro other hother
    unfold aggregateHit
    dsimp only
    split
    · exact hasBehavior_set_of_disjoint hother true
    · rfl
  have hsum := aggregateHit_hits hh.hits hr.hits hrange
  refine ⟨⟨hh.key, hh.algorithm, hh.limit, hh.duration, hh.burst, hh.createdAt, ?_, ?_, hh.noWait,
    ?_, ?_⟩, hsum, ?_⟩
  · rw [hflag _ (by decide)]
    exact hh.calendar
  · rw [hflag _ (by decide)]
    exact hh.global
  · rw [hsum]
    exact add_nonneg hh.hits hr.hits
  · rw [hflag _ (by decide)]
    exact hh.interval
  · unfold RateLimitReq.resets aggregateHit
    dsimp only
    cases hreset : hasBehavior r.behavior .resetRemaining with
    | true => simp [hasBehavior_set_self h.behavior (show Behavior.resetRemaining ≠ 0 by decide)]
    | false => simp

/-- All hits together are not negative. -/
theorem hitsOf_nonneg_of_alike {rs : List RateLimitReq} (hrs : ∀ r ∈ rs, Alike r₀ r) :
    0 ≤ hitsOf rs := by
  refine List.sum_nonneg (fun n hn => ?_)
  obtain ⟨r, hr, rfl⟩ := List.mem_map.mp hn
  exact (hrs r hr).hits

/-- Requests merged into an entry one after another.  All hits are non-negative, so a total within
    an `int64` keeps every sum on the way within it. -/
theorem aggregate_foldl {rs : List RateLimitReq} (hrs : ∀ r ∈ rs, Alike r₀ r) {h : RateLimitReq}
    (hh : Alike r₀ h) (hrange : h.hits + hitsOf rs < 2 ^ 63) :
    ∃ a, rs.foldl (fun entry r => some (aggregateHit entry r)) (some h) = some a ∧ Alike r₀ a ∧
      a.hits = h.hits + hitsOf rs ∧ a.resets = (h.resets || rs.any RateLimitReq.resets) := by
  induction rs generalizing h with
  | nil => exact ⟨h, rfl, hh, by simp, by simp⟩
  | cons r rs ih =>
    have hrs' : ∀ r' ∈ rs, Alike r₀ r' := fun r' hr' => hrs r' (List.mem_cons_of_mem _ hr')
    rw [hitsOf_cons] at hrange
    have hrest := hitsOf_nonneg_of_alike hrs'
    obtain ⟨hmerged, hhits, hresets⟩ :=
      aggregateHit_alike hh (hrs r List.mem_cons_self) (by omega)
    obtain ⟨a, ha, halike, hsum, hany⟩ := ih hrs' hmerged (by omega)
    refine ⟨a, ha, halike, ?_, ?_⟩
    · rw [hsum, hhits, hitsOf_cons]
      ring
    · rw [hany, hresets, List.any_cons, Bool.or_assoc]

/-- What is not queued carries no hits. -/
theorem hitsOf_queueable_all (rs : List RateLimitReq) : hitsOf (queueable rs) = hitsOf rs := by
  induction rs with
  | nil => rfl
  | cons r rs ih =>
    unfold queueable at ih ⊢
    rw [List.filter_cons]
    split
    · rw [hitsOf_cons, hitsOf_cons, ih]
    · rename_i h0
      have : r.hits = 0 := by simpa using h0
      rw [hitsOf_cons, ih, this, zero_add]

/-- **The request built**: the terms of the window, all its hits, and a reset if a request that
    carries hits has one.  The hits of the window together are an `int64`. -/
theorem aggregated_spec {rs : List RateLimitReq} (hrs : ∀ r ∈ rs, Alike r₀ r)
    (hrange : hitsOf rs < 2 ^ 63) {a : RateLimitReq} (ha : aggregated rs = some a) :
    Alike r₀ a ∧ a.hits = hitsOf rs ∧
      a.resets = rs.any (fun r => r.hits != 0 && r.resets) ∧ ∃ r ∈ rs, r.hits ≠ 0 := by
  have hany : rs.any (fun r => r.hits != 0 && r.resets) =
      (queueable rs).any RateLimitReq.resets := by
    unfold queueable
    rw [List.any_filter]
  unfold aggregated at ha
  rw [← hitsOf_queueable_all] at hrange
  rw [hany, ← hitsOf_queueable_all]
  cases hqueue : queueable rs with
  | nil => rw [hqueue] at ha; cases ha
  | cons r qs =>
    -- the first request queued becomes the entry, and the others are merged into it
    have hmem : ∀ r' ∈ queueable rs, r' ∈ rs ∧ r'.hits ≠ 0 := by
      intro r' hr'
      obtain ⟨h1, h2⟩ := List.mem_filter.mp hr'
      exact ⟨h1, by simpa using h2⟩
    rw [hqueue] at hmem hrange
    obtain ⟨hr, hne⟩ := hmem r List.mem_cons_self
    obtain ⟨a', ha', halike, hsum, hresets⟩ :=
      aggregate_foldl (fun r' hr' => hrs r' (hmem r' (List.mem_cons_of_mem _ hr')).1) (hrs r hr)
        hrange
    rw [hqueue, List.foldl_cons] at ha
    obtain rfl := Option.some.inj (ha'.symm.trans ha)
    exact ⟨halike, by rw [hsum, hitsOf_cons], by rw [hresets, List.any_cons], r, hr, hne⟩

end Aggregate

/-! ## What a window leaves

What is compared at the end is the balance that a request would find. -/

section Leaves
variable {now : ℤ} {s : Shard} {stored : Bool} {r₀ p : RateLimitReq} {ps : List RateLimitReq}

/-- Without `max_wait` there is nothing to complain about. -/
theorem Sent.validated (hp : Sent r₀ p) : validateMaxWait p = "" := by
  simp [validateMaxWait, hp.noWait]

/-- The hits of the requests received are not negative, either. -/
theorem hitsOf_nonneg (hps : ∀ p ∈ ps, Sent r₀ p) : 0 ≤ hitsOf ps := by
  refine List.sum_nonneg ?_
  intro n hn
  obtain ⟨p, hp, rfl⟩ := List.mem_map.mp hn
  exact (hps p hp).hits

/-- What the owner is left with is the balance `v`. -/
def Leaves (s : Shard) (stored : Bool) (now : ℤ) (r₀ : RateLimitReq) (v : ExactFloat) : Prop :=
  ∃ found, Seen s stored (epochMillis now) r₀.hashKey found ∧ balanceFound r₀ found = v

/-- What is left is the balance the owner holds. -/
theorem Leaves.balanceOf {v : ExactFloat} (h : Leaves s stored now r₀ v) :
    s.balanceOf now r₀ = v := by
  obtain ⟨found, hseen, hv⟩ := h
  rw [Shard.balanceOf, hseen.find r₀ rfl, hv]

end Leaves

end Gubernator
