/-
  WHEN MERGING LOSES NOTHING.

  The owner handles one request in place of a window of them.  `OrderKept` lists the windows for
  which that comes to the same balance, by what the owner holds for the key; every other window
  reaches one of these:

  1. CREATION.  `tokenBucketNewItem` refuses a request for more than the limit and stores a full
     bucket; it does not look at DRAIN_OVER_LIMIT.  So the merged request of a window that asks
     for too much takes nothing, where the requests one by one drain the bucket.
  2. RESETS.  `runAsyncHits` ORs the flag into the sum, so hits from before the reset are charged
     after it (leaky bucket) or hits from after it are forgotten with those before (token bucket),
     and `QueueHit` drops a reset that carries no hits.
  3. TWO CLOCKS.  A debt is timed by the owner's clock and credit by `created_at`; the request that
     finds a debt paid off is followed by others that are timed differently.  So is the one that
     makes a debt of `1e-9`, by asking for that much more than there is; and a debt, unlike credit,
     is not drained by the hits that follow.
  4. RANGE.  `Hits` is an `int64`: a sum past it is negative, and FILLS the owner's bucket.
  5. NEGATIVE BURST.  A new leaky bucket then starts with 0, and the next request cuts it down to
     the burst.

  The creation defect is characterised exactly (`newToken_balance_iff`).

  The proof compares the two ways through what they leave behind.  For each kind of bucket a lemma
  about windows (`token_new_leaves`, `FoundWindow.leaves`, …) says what a whole window leaves, and
  the merged request is a window of one: so both ways are instances of the same lemma, and the
  balances agree when the sums of hits do.
-/
import Gubernator.Window.Token
import Gubernator.Window.Leaky

namespace Gubernator

open ExactFloat

/-! ## The windows -/

/-- **The windows that merging does not change**, by what the owner finds for the key.  `a` is the
    merged request of the window `rs`. -/
inductive OrderKept (host : Host) (now : ℤ) (a : RateLimitReq) (rs : List RateLimitReq) :
    Option (CacheItem × Bucket) → Prop
  /-- One request, whatever it is. -/
  | alone (found : Option (CacheItem × Bucket)) (hrs : rs = [a]) : OrderKept host now a rs found
  /-- A new token bucket that has room for the whole window, or that is gone at once, or whose
      first request carries all the hits; no reset after the first request. -/
  | newToken (x : ℤ) (halg : a.algorithm = .tokenBucket)
      (hx : tokenExpiry host.location now (a.received now) = .ok x)
      (hreset : ∀ r ∈ rs.tail, r.resets = false)
      (hfits : epochMillis now ≤ x → hitsOf rs ≤ a.limit ∨ a.limit = 0 ∨ hitsOf rs.tail = 0) :
      OrderKept host now a rs none
  /-- A token bucket and no resets.  A changed duration does not end the bucket at a time between
      `created_at` and the clock. -/
  | token (item : CacheItem) (t t₂ : TokenBucketItem) (x x₂ : ℤ)
      (halg : a.algorithm = .tokenBucket)
      (hx : tokenExpiry host.location now (a.received now) = .ok x)
      (hset : setDuration host.location now (a.received now) (t.setLimit a.limit) item.expireAt =
        .ok (t₂, x₂))
      (hkept : epochMillis now ≤ x₂ ∨ x < epochMillis now)
      (hreset : ∀ r ∈ rs, r.resets = false) : OrderKept host now a rs (some (item, .token t))
  /-- A token bucket that the last request with hits resets. -/
  | tokenReset (item : CacheItem) (t t₂ : TokenBucketItem) (x x₂ : ℤ) (ps zs : List RateLimitReq)
      (r : RateLimitReq) (halg : a.algorithm = .tokenBucket)
      (hx : tokenExpiry host.location now (a.received now) = .ok x)
      (hset : setDuration host.location now (a.received now) (t.setLimit a.limit) item.expireAt =
        .ok (t₂, x₂))
      (hkept : epochMillis now ≤ x₂ ∨ x < epochMillis now)
      (hrs : rs = ps ++ r :: zs) (hps : ∀ p ∈ ps, p.resets = false) (hhits : r.hits ≠ 0)
      (hr : r.resets = true) (hzs : ∀ z ∈ zs, z.hits = 0 ∧ z.resets = false) :
      OrderKept host now a rs (some (item, .token t))
  /-- A new leaky bucket, no reset after the first request with hits.  Its burst is not negative,
      unless it is gone at once. -/
  | newLeaky (rate : ExactFloat) (d : ℤ) (zs ps : List RateLimitReq) (r : RateLimitReq)
      (halg : a.algorithm = .leakyBucket)
      (hterms : requestTerms host now (a.received now) = .ok (rate, d))
      (hburst : epochMillis now ≤ (a.received now).createdAt + d → 0 ≤ a.withBurst.burst)
      (hrs : rs = zs ++ r :: ps) (hzs : ∀ z ∈ zs, z.hits = 0)
      (hhits : r.hits ≠ 0) (hps : ∀ p ∈ ps, p.resets = false) : OrderKept host now a rs none
  /-- A leaky bucket and no resets.  It holds `q`, and `y` once brought up to date.  A debt paid
      off by then is paid off at `created_at`, too, and hits after the first request are not too
      late; credit gone by then, at a negative rate, is gone for good; and a request that asks,
      with those before it, for exactly `1e-9` more than there is, is followed by queries at most,
      for which the owner's clock has nothing to credit, unless it comes too late and ends the
      item. -/
  | leaky (item : CacheItem) (b : LeakyBucketItem) (q y : ℚ) (rate : ExactFloat) (d : ℤ)
      (halg : a.algorithm = .leakyBucket)
      (hterms : requestTerms host now (a.received now) = .ok (rate, d))
      (hq : b.remaining = .fin q) (hy : BroughtTo host now (a.received now) b y)
      (hrepaid : q < 0 → 0 ≤ y →
        (a.received now).createdAt ≤ max b.updatedAt (epochMillis now) ∧
        (∀ r ∈ rs.tail, r.hits = 0 ∨ epochMillis now ≤ (a.received now).createdAt + d) ∧
        (debtAt b (epochMillis now) = true →
          0 < a.withBurst.burst ∨ b.burst = a.withBurst.burst))
      (hlost : 0 ≤ q → y < 0 →
        epochMillis now ≤ max b.updatedAt (a.received now).createdAt ∧
        epochMillis now ≤ (a.received now).createdAt + d)
      (hedge : 0 ≤ y → q < 0 ∨ epochMillis now ≤ (a.received now).createdAt + d → EdgeLast
        (q < 0 ∨ epochMillis now ≤ max b.updatedAt (a.received now).createdAt) y rs)
      (hreset : ∀ r ∈ rs, r.resets = false) :
      OrderKept host now a rs (some (item, .leaky b))
  /-- A leaky bucket that the first request with hits resets, in credit; or one that the window
      does not come too late for, nor, in debt, from ahead of the owner's clock. -/
  | leakyReset (item : CacheItem) (b : LeakyBucketItem) (q : ℚ) (rate : ExactFloat) (d : ℤ)
      (zs ps : List RateLimitReq) (r : RateLimitReq) (halg : a.algorithm = .leakyBucket)
      (hterms : requestTerms host now (a.received now) = .ok (rate, d))
      (hburst : 0 ≤ a.withBurst.burst) (hq : b.remaining = .fin q)
      (hcalm : (0 ≤ q ∧ ∀ z ∈ zs, z.resets = false →
          ∃ y, BroughtTo host now (z.received now) b y ∧ 0 ≤ y) ∨
        epochMillis now ≤ (a.received now).createdAt + d ∧ 0 ≤ d ∧
          (q < 0 → (a.received now).createdAt ≤ max b.updatedAt (epochMillis now)))
      (hrs : rs = zs ++ r :: ps) (hzs : ∀ z ∈ zs, z.hits = 0) (hhits : r.hits ≠ 0)
      (hr : r.resets = true) (hps : ∀ p ∈ ps, p.resets = false) :
      OrderKept host now a rs (some (item, .leaky b))

/-! ## The two ways compared

`serveAll` handles the requests one by one, as the owner receives them; `getPeerRateLimit` handles
the merged one.  Both see the requests after `received`, which sets a time where there is none and
the drain flag; what is left of a window is stated for requests in that form. -/

/-- Requests like a third are like each other. -/
theorem Alike.common {r₀ a r : RateLimitReq} (ha : Alike r₀ a) (hr : Alike r₀ r) : Alike a r where
  key := hr.key.trans ha.key.symm
  algorithm := hr.algorithm.trans ha.algorithm.symm
  limit := hr.limit.trans ha.limit.symm
  duration := hr.duration.trans ha.duration.symm
  burst := hr.burst.trans ha.burst.symm
  createdAt := hr.createdAt.trans ha.createdAt.symm
  calendar := hr.calendar.trans ha.calendar.symm
  global := hr.global
  noWait := hr.noWait
  hits := hr.hits
  interval := hr.interval

section Compare
variable {conf : Config} {host : Host} {now : ℤ} {s : Shard} {stored : Bool}
  {a : RateLimitReq} {rs : List RateLimitReq} {found : Option (CacheItem × Bucket)}

/-- What the owner does to a request it receives leaves its hits. -/
theorem received_hits (r : RateLimitReq) (now : ℤ) : (r.received now).hits = r.hits := by
  unfold RateLimitReq.received RateLimitReq.stamped
  dsimp only
  split <;> split <;> rfl

/-- What the owner does to the requests it receives leaves the sum of their hits. -/
theorem hitsOf_received (rs : List RateLimitReq) (now : ℤ) :
    hitsOf (rs.map (fun r => r.received now)) = hitsOf rs := by
  simp only [hitsOf, List.map_map]
  congr 1
  exact List.map_congr_left (fun r _ => received_hits r now)

/-- The first request of a window. -/
theorem received_cons (r : RateLimitReq) (rs : List RateLimitReq) (now : ℤ) :
    (r :: rs).map (fun r => r.received now) =
      r.received now :: rs.map (fun r => r.received now) := rfl

/-- A request in its middle. -/
theorem received_append (rs ss : List RateLimitReq) (r : RateLimitReq) (now : ℤ) :
    (rs ++ r :: ss).map (fun r => r.received now) =
      rs.map (fun r => r.received now) ++ r.received now :: ss.map (fun r => r.received now) := by
  rw [List.map_append, received_cons]

/-- The sums of hits that `EdgeLast` looks at are the same. -/
theorem edgeLast_received {timed : Prop} {y : ℚ} (h : EdgeLast timed y rs) (now : ℤ) :
    EdgeLast timed y (rs.map (fun r => r.received now)) := by
  intro qs hqs hlt
  obtain ⟨qs', hqs', rfl⟩ := List.prefix_map_iff.mp hqs
  rw [hitsOf_received, hitsOf_received]
  exact h qs' hqs' (by simpa using hlt)

/-- Handling one by one is a fold over the received requests. -/
theorem serveAll_eq : serveAll conf host now s rs =
    (rs.map (fun r => r.received now)).foldl (serve conf host now) s := by
  rw [List.foldl_map]
  rfl

/-- The merged request as the window's terms. -/
structure Window (a : RateLimitReq) (rs : List RateLimitReq) : Prop where
  self : Alike a a
  all : ∀ r ∈ rs, Alike a r
  hits : a.hits = hitsOf rs
  /-- `QueueHit` drops what carries no hits, its flags included. -/
  resets : a.resets = rs.any (fun r => r.hits != 0 && r.resets)
  some : ∃ r ∈ rs, r.hits ≠ 0

/-- What `QueueHit` and `runAsyncHits` build from a window has its terms and its hits, as long as
    these are an `int64` together. -/
theorem window_of_aggregated {r₀ : RateLimitReq} (hrs : ∀ r ∈ rs, Alike r₀ r)
    (hrange : hitsOf rs < 2 ^ 63) (ha : aggregated rs = some a) : Window a rs := by
  obtain ⟨hself, hhits, hresets, hsome⟩ := aggregated_spec hrs hrange ha
  exact ⟨hself.common hself, fun r hr => hself.common (hrs r hr), hhits, hresets, hsome⟩

/-- A request of the window, received, is one of the terms of the merged request. -/
theorem Window.sent (h : Window a rs) {r : RateLimitReq} (hr : r ∈ rs) (now : ℤ) :
    Sent (a.received now) (r.received now) :=
  ((h.all r hr).received h.self now).1

/-- The requests of a part of the window, received, are of the terms of the merged request. -/
theorem Window.sent_all (h : Window a rs) {ps : List RateLimitReq} (hps : ∀ p ∈ ps, p ∈ rs)
    (now : ℤ) : ∀ p' ∈ ps.map (fun r => r.received now), Sent (a.received now) p' := by
  intro p' hp'
  obtain ⟨p, hp, rfl⟩ := List.mem_map.mp hp'
  exact h.sent (hps p hp) now

/-- Receiving a request leaves its reset flag. -/
theorem Window.resets_received (h : Window a rs) {r : RateLimitReq} (hr : r ∈ rs) (now : ℤ) :
    (r.received now).resets = r.resets :=
  ((h.all r hr).received h.self now).2.1

/-- A part without resets has none when received. -/
theorem Window.noReset_all (h : Window a rs) {ps : List RateLimitReq} (hps : ∀ p ∈ ps, p ∈ rs)
    (hreset : ∀ p ∈ ps, p.resets = false) (now : ℤ) :
    ∀ p' ∈ ps.map (fun r => r.received now), p'.resets = false := by
  intro p' hp'
  obtain ⟨p, hp, rfl⟩ := List.mem_map.mp hp'
  rw [h.resets_received (hps p hp), hreset p hp]

/-- The merged request has its own terms. -/
theorem Window.sent_self (h : Window a rs) (now : ℤ) : Sent (a.received now) (a.received now) :=
  (h.self.received h.self now).1

/-- Its reset flag stays, too. -/
theorem Window.reset_self (h : Window a rs) (now : ℤ) : (a.received now).resets = a.resets :=
  (h.self.received h.self now).2.1

/-- The merged request keeps its key when it is received. -/
theorem Window.key (h : Window a rs) (now : ℤ) : (a.received now).hashKey = a.hashKey := by
  rw [received_eq now h.self.global]
  rfl

/-- The merged request keeps its algorithm when it is received. -/
theorem Window.algorithm (h : Window a rs) (now : ℤ) :
    (a.received now).algorithm = a.algorithm := by
  rw [received_eq now h.self.global]

/-- The merged request keeps its limit when it is received. -/
theorem Window.limit (h : Window a rs) (now : ℤ) : (a.received now).limit = a.limit := by
  rw [received_eq now h.self.global]

/-- The merged request keeps its burst when it is received, the default included. -/
theorem Window.withBurst (h : Window a rs) (now : ℤ) :
    (a.received now).withBurst.burst = a.withBurst.burst := by
  rw [received_eq now h.self.global]
  unfold RateLimitReq.withBurst
  dsimp only
  split <;> rfl

/-- The balance of the key is the same for the merged request and for its terms. -/
theorem Window.balanceOf (h : Window a rs) (s : Shard) :
    s.balanceOf now a = s.balanceOf now (a.received now) := by
  have hkey := h.key now
  have hburst := h.withBurst now
  have halg := h.algorithm now
  have hlimit := h.limit now
  unfold Shard.balanceOf
  rw [find_congr hkey]
  cases s.find (epochMillis now) a with
  | none => simp only [balanceFound, halg, hlimit, hburst]
  | some entry =>
    obtain ⟨item, v⟩ := entry
    cases v with
    | token t => rfl
    | leaky b => rfl

/-- Both ways leave the same balance if they leave the same. -/
theorem Window.same_of_leaves (h : Window a rs) {v : ExactFloat}
    (hmerged : Leaves ([a.received now].foldl (serve conf host now) s) stored now
      (a.received now) v)
    (hall : Leaves ((rs.map (fun r => r.received now)).foldl (serve conf host now) s) stored now
      (a.received now) v) :
    (getPeerRateLimit conf host now s a).shard.balanceOf now a =
      (serveAll conf host now s rs).balanceOf now a := by
  rw [h.balanceOf, h.balanceOf, serveAll_eq, hall.balanceOf]
  exact hmerged.balanceOf

/-- Without a reset in the window there is none in the merged request. -/
theorem Window.no_reset (h : Window a rs) (hreset : ∀ r ∈ rs, r.resets = false) :
    a.resets = false := by
  rw [h.resets, List.any_eq_false]
  intro r hr
  simp [hreset r hr]

/-- A reset that carries hits gets into the merged request. -/
theorem Window.reset_of_mem (h : Window a rs) {r : RateLimitReq} (hr : r ∈ rs) (hhits : r.hits ≠ 0)
    (hreset : r.resets = true) : a.resets = true := by
  rw [h.resets, List.any_eq_true]
  exact ⟨r, hr, by simp [hhits, hreset]⟩

/-- There is a merged request, so some request had hits. -/
theorem Window.hits_ne_zero (h : Window a rs) (now : ℤ) : (a.received now).hits ≠ 0 := by
  rw [received_hits, h.hits]
  obtain ⟨r, hr, hne⟩ := h.some
  have hpos : 0 < r.hits := lt_of_le_of_ne (h.all r hr).hits (Ne.symm hne)
  -- no hits are negative, so one summand is at most the sum
  have hle : r.hits ≤ hitsOf rs :=
    List.single_le_sum (fun n hn => by
      obtain ⟨r', hr', rfl⟩ := List.mem_map.mp hn
      exact (h.all r' hr').hits) _ (List.mem_map_of_mem hr)
  omega

/-- As a window of one, the merged request has the hits of the window. -/
theorem Window.hitsOf_self (h : Window a rs) : hitsOf [a.received now] = hitsOf rs := by
  rw [hitsOf_cons, hitsOf_nil, add_zero, received_hits, h.hits]

/-- And no reset, if the window has none. -/
theorem Window.noReset_self (h : Window a rs) (hreset : ∀ r ∈ rs, r.resets = false) (now : ℤ) :
    ∀ p ∈ [a.received now], p.resets = false := by
  intro p hp
  rw [List.mem_singleton.mp hp, h.reset_self, h.no_reset hreset]

/-- A request alone is followed by none. -/
theorem edgeLast_single (timed : Prop) {y : ℚ} (hy : 0 ≤ y) (r : RateLimitReq) :
    EdgeLast timed y [r] := by
  intro qs _ hlt hedge
  obtain rfl : qs = [] := by simpa using hlt
  exact absurd hedge (zero_ne_add_epsilon hy)

/-- Queries stay queries when received. -/
theorem hits_received {zs : List RateLimitReq} (hzs : ∀ z ∈ zs, z.hits = 0) (now : ℤ) :
    ∀ z ∈ zs.map (fun r => r.received now), z.hits = 0 := by
  intro z' hz'
  obtain ⟨z, hz, rfl⟩ := List.mem_map.mp hz'
  rw [received_hits, hzs z hz]

/-- An acceptable window has an expiry: its calendar interval, if it names one, is a valid one. -/
theorem Window.tokenExpiry (h : Window a rs) (loc : Calendar.Location) (now : ℤ) :
    ∃ x, tokenExpiry loc now (a.received now) = .ok x := by
  unfold Gubernator.tokenExpiry
  rw [received_eq now h.self.global, hasBehavior_set_of_disjoint (by decide)]
  split
  · rename_i hcalendar
    exact (gregorianExpiration_ok_iff loc now a.duration).mpr (h.self.interval hcalendar)
  · exact ⟨_, rfl⟩

/-! ### Token buckets -/

/-- What a new bucket and a drain leave is what one request for all of it would, unless that is
    refused. -/
theorem newToken_additive {L n m : ℤ} (hm : 0 ≤ m) :
    (if L < n + m then L else L - (n + m)) = drained (if L < n then L else L - n) m ↔
      n + m ≤ L ∨ L = 0 ∨ m = 0 := by
  unfold drained
  by_cases h0 : m = 0
  · simp [h0]
  rw [if_neg h0]
  split <;> split <;> omega

/-- **Creation, exactly**: on a key without an item, with no reset after the first request, both
    ways come to the same balance if and only if the window fits into the bucket, or the bucket is
    gone at once, or the first request carries all the hits. -/
theorem newToken_balance_iff (h : Window a rs) (halg : a.algorithm = .tokenBucket) {x : ℤ}
    (hx : tokenExpiry host.location now (a.received now) = .ok x)
    (hreset : ∀ r ∈ rs.tail, r.resets = false)
    (hseen : Seen s stored (epochMillis now) a.hashKey none) :
    (getPeerRateLimit conf host now s a).shard.balanceOf now a =
        (serveAll conf host now s rs).balanceOf now a ↔
      (epochMillis now ≤ x → hitsOf rs ≤ a.limit ∨ a.limit = 0 ∨ hitsOf rs.tail = 0) := by
  rw [← h.key now] at hseen
  rw [← h.algorithm now] at halg
  have hlimit : ∀ r : RateLimitReq, Sent (a.received now) r → r.limit = a.limit := by
    intro r hr
    rw [hr.limit, h.limit]
  cases rs with
  | nil =>
    obtain ⟨r, hr, -⟩ := h.some
    cases hr
  -- the first request creates the bucket, and the others drain it
  | cons r rs =>
    have hr := h.sent List.mem_cons_self now
    have hrs : ∀ p ∈ rs, p ∈ r :: rs := fun p hp => List.mem_cons_of_mem _ hp
    have hmerged := token_new_leaves conf halg hx (h.sent_self now)
      (List.forall_mem_nil _) (List.forall_mem_nil _) hseen
    have hall := token_new_leaves conf halg hx hr (h.sent_all hrs now)
      (h.noReset_all hrs hreset now) hseen
    have hm : 0 ≤ hitsOf rs := by
      rw [← hitsOf_received rs now]
      exact hitsOf_nonneg (h.sent_all hrs now)
    rw [h.balanceOf, h.balanceOf, serveAll_eq, List.map_cons, hall.balanceOf]
    have hmerged' : (getPeerRateLimit conf host now s a).shard.balanceOf now (a.received now) = _ :=
      hmerged.balanceOf
    rw [hmerged', hitsOf_received, hitsOf_nil, drained, if_pos rfl, newTokenBucket, newTokenBucket,
      received_hits, received_hits, hlimit _ (h.sent_self now), hlimit _ hr, h.hits, hitsOf_cons,
      List.tail_cons]
    -- the two balances are compared if the bucket lasts; if not, the key is full both ways
    by_cases hlive : epochMillis now ≤ x
    · rw [if_pos hlive, if_pos hlive, ofInt_eq, ofInt_eq, fin.injEq, Int.cast_inj,
        newToken_additive hm]
      simp [hlive]
    · rw [if_neg hlive, if_neg hlive]
      simp [hlive]

/-- On a token bucket that is there: hits are taken until none are left, one by one or at once. -/
theorem token_same (h : Window a rs) {item : CacheItem} {t t₂ : TokenBucketItem} {x x₂ : ℤ}
    (halg : a.algorithm = .tokenBucket)
    (hx : tokenExpiry host.location now (a.received now) = .ok x)
    (hset : setDuration host.location now (a.received now) (t.setLimit a.limit) item.expireAt =
      .ok (t₂, x₂))
    (hkept : epochMillis now ≤ x₂ ∨ x < epochMillis now) (hreset : ∀ r ∈ rs, r.resets = false)
    (hseen : Seen s stored (epochMillis now) a.hashKey (some (item, .token t))) :
    (getPeerRateLimit conf host now s a).shard.balanceOf now a =
      (serveAll conf host now s rs).balanceOf now a := by
  rw [← h.key now] at hseen
  rw [← h.algorithm now] at halg
  rw [← h.limit now] at hset
  cases rs with
  | nil =>
    obtain ⟨r, hr, -⟩ := h.some
    cases hr
  | cons r rs =>
    have hall := token_found_leaves conf halg hx hset hkept (h.sent List.mem_cons_self now)
      (h.sent_all (fun p hp => List.mem_cons_of_mem _ hp) now)
      (h.noReset_all (fun p hp => hp) hreset now) hseen
    have hmerged := token_found_leaves conf halg hx hset hkept (h.sent_self now)
      (List.forall_mem_nil _) (h.noReset_self hreset now) hseen
    rw [h.hitsOf_self] at hmerged
    rw [← received_cons, hitsOf_received] at hall
    exact h.same_of_leaves hmerged hall

/-- Both ways the bucket is removed, and queries after that leave the key full. -/
theorem tokenReset_same {item : CacheItem} {t t₂ : TokenBucketItem} {x x₂ : ℤ}
    {ps zs : List RateLimitReq} {r : RateLimitReq} (h : Window a (ps ++ r :: zs))
    (halg : a.algorithm = .tokenBucket)
    (hx : tokenExpiry host.location now (a.received now) = .ok x)
    (hset : setDuration host.location now (a.received now) (t.setLimit a.limit) item.expireAt =
      .ok (t₂, x₂))
    (hkept : epochMillis now ≤ x₂ ∨ x < epochMillis now) (hps : ∀ p ∈ ps, p.resets = false)
    (hhits : r.hits ≠ 0) (hr : r.resets = true) (hzs : ∀ z ∈ zs, z.hits = 0 ∧ z.resets = false)
    (hseen : Seen s stored (epochMillis now) a.hashKey (some (item, .token t))) :
    (getPeerRateLimit conf host now s a).shard.balanceOf now a =
      (serveAll conf host now s (ps ++ r :: zs)).balanceOf now a := by
  have hmem : r ∈ ps ++ r :: zs := by simp
  have hps' : ∀ p ∈ ps, p ∈ ps ++ r :: zs := fun p hp => List.mem_append_left _ hp
  have hzs' : ∀ z ∈ zs, z ∈ ps ++ r :: zs := fun z hz => by simp [hz]
  rw [← h.key now] at hseen
  rw [← h.algorithm now] at halg
  rw [← h.limit now] at hset
  have hqueries : ∀ z ∈ zs.map (fun r => r.received now), z.hits = 0 ∧ z.resets = false := by
    intro z' hz'
    obtain ⟨z, hz, rfl⟩ := List.mem_map.mp hz'
    rw [received_hits, h.resets_received (hzs' z hz)]
    exact hzs z hz
  have hall := token_reset_leaves conf halg hx hset hkept (h.sent_all hps' now)
    (h.noReset_all hps' hps now) (h.sent hmem now) ((h.resets_received hmem now).trans hr)
    (h.sent_all hzs' now) hqueries hseen
  have hmerged := token_reset_leaves conf halg hx hset hkept (List.forall_mem_nil _)
    (List.forall_mem_nil _) (h.sent_self now)
    ((h.reset_self now).trans (h.reset_of_mem hmem hhits hr)) (List.forall_mem_nil _)
    (List.forall_mem_nil _) hseen
  refine h.same_of_leaves hmerged ?_
  rw [received_append]
  exact hall

/-! ### Leaky buckets -/

/-- A new leaky bucket, which unlike a token bucket is drained by a request for too much. -/
theorem newLeaky_same {zs ps : List RateLimitReq} {r : RateLimitReq}
    (h : Window a (zs ++ r :: ps)) (halg : a.algorithm = .leakyBucket) {rate : ExactFloat}
    {d : ℤ} (hterms : requestTerms host now (a.received now) = .ok (rate, d))
    (hburst : epochMillis now ≤ (a.received now).createdAt + d → 0 ≤ a.withBurst.burst)
    (hzs : ∀ z ∈ zs, z.hits = 0) (hhits : r.hits ≠ 0) (hps : ∀ p ∈ ps, p.resets = false)
    (hseen : Seen s stored (epochMillis now) a.hashKey none) :
    (getPeerRateLimit conf host now s a).shard.balanceOf now a =
      (serveAll conf host now s (zs ++ r :: ps)).balanceOf now a := by
  have hmem : r ∈ zs ++ r :: ps := by simp
  have hzs' : ∀ z ∈ zs, z ∈ zs ++ r :: ps := fun z hz => List.mem_append_left _ hz
  have hps' : ∀ p ∈ ps, p ∈ zs ++ r :: ps := fun p hp => by simp [hp]
  rw [← h.key now] at hseen
  rw [← h.algorithm now] at halg
  rw [← h.withBurst now] at hburst
  have hall := leaky_new_leaves conf halg hterms hburst (h.sent_all hzs' now)
    (hits_received hzs now) (h.sent hmem now) (by rwa [received_hits])
    (h.sent_all hps' now) (h.noReset_all hps' hps now) hseen
  have hmerged := leaky_new_leaves conf halg hterms hburst (List.forall_mem_nil _)
    (List.forall_mem_nil _) (h.sent_self now) (h.hits_ne_zero now) (List.forall_mem_nil _)
    (List.forall_mem_nil _) hseen
  rw [List.nil_append, h.hitsOf_self] at hmerged
  rw [← received_append, hitsOf_received] at hall
  exact h.same_of_leaves hmerged hall

/-- On a leaky bucket that is there. -/
theorem leaky_same (h : Window a rs) {item : CacheItem} {b : LeakyBucketItem} {q y : ℚ}
    {rate : ExactFloat} {d : ℤ} (halg : a.algorithm = .leakyBucket)
    (hterms : requestTerms host now (a.received now) = .ok (rate, d))
    (hq : b.remaining = .fin q) (hy : BroughtTo host now (a.received now) b y)
    (hrepaid : q < 0 → 0 ≤ y →
      (a.received now).createdAt ≤ max b.updatedAt (epochMillis now) ∧
      (∀ r ∈ rs.tail, r.hits = 0 ∨ epochMillis now ≤ (a.received now).createdAt + d) ∧
      (debtAt b (epochMillis now) = true →
        0 < a.withBurst.burst ∨ b.burst = a.withBurst.burst))
    (hlost : 0 ≤ q → y < 0 →
      epochMillis now ≤ max b.updatedAt (a.received now).createdAt ∧
      epochMillis now ≤ (a.received now).createdAt + d)
    (hedge : 0 ≤ y → q < 0 ∨ epochMillis now ≤ (a.received now).createdAt + d → EdgeLast
      (q < 0 ∨ epochMillis now ≤ max b.updatedAt (a.received now).createdAt) y rs)
    (hreset : ∀ r ∈ rs, r.resets = false)
    (hseen : Seen s stored (epochMillis now) a.hashKey (some (item, .leaky b))) :
    (getPeerRateLimit conf host now s a).shard.balanceOf now a =
      (serveAll conf host now s rs).balanceOf now a := by
  obtain ⟨tm, htm, hy⟩ := hy
  rw [← h.key now] at hseen
  rw [← h.algorithm now] at halg
  rw [← h.withBurst now] at hrepaid
  -- where a debt has been paid off, the burst in force is the request's
  have hburst' : q < 0 → 0 ≤ y →
      (credited (a.received now).withBurst tm b).burst = (a.received now).withBurst.burst := by
    intro hneg hpos
    obtain ⟨-, -, hdebt⟩ := hrepaid hneg hpos
    obtain ⟨-, -, -, -, -, -, hburst, hchanged, -⟩ := leakyTerms_ok htm
    have htime := ((h.sent_self now).spends hterms).createdAt htm
    rw [hq, if_pos (fin_lt_zero.mpr hneg)] at htime
    rw [credited_burst _ tm b hchanged, hburst, htime]
    split
    · rename_i hkeeps
      rcases hdebt hkeeps.1 with hB | hB
      · omega
      · exact hB
    · rfl
  cases rs with
  | nil =>
    obtain ⟨r, hr, -⟩ := h.some
    cases hr
  | cons r rs =>
    have hsome : ∃ p ∈ (r :: rs).map (fun r => r.received now), p.hits ≠ 0 := by
      obtain ⟨p, hp, hne⟩ := h.some
      exact ⟨_, List.mem_map_of_mem hp, by rwa [received_hits]⟩
    have hfound : FoundWindow host now (a.received now) rate d b tm q y :=
      ⟨halg, hterms, h.sent_self now, (h.reset_self now).trans (h.no_reset hreset), htm, hq, hy⟩
    -- the hits after the first request come in time, received as well
    have hlive : q < 0 → 0 ≤ y → ∀ p ∈ rs.map (fun r => r.received now),
        p.hits = 0 ∨ epochMillis now ≤ (a.received now).createdAt + d := by
      intro hneg hpos p hp
      obtain ⟨r', hr', rfl⟩ := List.mem_map.mp hp
      rw [received_hits]
      exact (hrepaid hneg hpos).2.1 r' hr'
    have hall := hfound.leaves conf (h.sent_all (fun p hp => hp) now)
      (h.noReset_all (fun p hp => hp) hreset now) hsome
      (fun hneg hpos => ⟨(hrepaid hneg hpos).1, hlive hneg hpos, hburst' hneg hpos⟩) hlost
      (fun hpos hkept => edgeLast_received (hedge hpos hkept) now) hseen
    have hmerged := hfound.leaves conf (p := a.received now) (by simpa using h.sent_self now)
      (h.noReset_self hreset now) ⟨_, List.mem_cons_self, h.hits_ne_zero now⟩
      (fun hneg hpos => ⟨(hrepaid hneg hpos).1, List.forall_mem_nil _, hburst' hneg hpos⟩) hlost
      (fun hpos _ => edgeLast_single _ hpos _) hseen
    rw [h.hitsOf_self] at hmerged
    rw [← received_cons, hitsOf_received] at hall
    exact h.same_of_leaves hmerged hall

/-- A leaky bucket that is reset by the first request with hits. What the queries before it change
    the reset overwrites; `hcalm` excludes the windows in which they do more. -/
theorem leakyReset_same {item : CacheItem} {b : LeakyBucketItem} {q : ℚ} {rate : ExactFloat}
    {d : ℤ} {zs ps : List RateLimitReq} {r : RateLimitReq} (h : Window a (zs ++ r :: ps))
    (halg : a.algorithm = .leakyBucket)
    (hterms : requestTerms host now (a.received now) = .ok (rate, d))
    (hburst : 0 ≤ a.withBurst.burst) (hq : b.remaining = .fin q)
    (hcalm : (0 ≤ q ∧ ∀ z ∈ zs, z.resets = false →
        ∃ y, BroughtTo host now (z.received now) b y ∧ 0 ≤ y) ∨
      epochMillis now ≤ (a.received now).createdAt + d ∧ 0 ≤ d ∧
        (q < 0 → (a.received now).createdAt ≤ max b.updatedAt (epochMillis now)))
    (hzs : ∀ z ∈ zs, z.hits = 0) (hhits : r.hits ≠ 0) (hr : r.resets = true)
    (hps : ∀ p ∈ ps, p.resets = false)
    (hseen : Seen s stored (epochMillis now) a.hashKey (some (item, .leaky b))) :
    (getPeerRateLimit conf host now s a).shard.balanceOf now a =
      (serveAll conf host now s (zs ++ r :: ps)).balanceOf now a := by
  have hmem : r ∈ zs ++ r :: ps := by simp
  have hzs' : ∀ z ∈ zs, z ∈ zs ++ r :: ps := fun z hz => List.mem_append_left _ hz
  have hps' : ∀ p ∈ ps, p ∈ zs ++ r :: ps := fun p hp => by simp [hp]
  rw [← h.key now] at hseen
  rw [← h.algorithm now] at halg
  rw [← h.withBurst now] at hburst
  have hcalm' : (0 ≤ q ∧ ∀ z' ∈ zs.map (fun r => r.received now), z'.resets = false →
        ∃ y, BroughtTo host now z' b y ∧ 0 ≤ y) ∨
      epochMillis now ≤ (a.received now).createdAt + d ∧ 0 ≤ d ∧
        (q < 0 → (a.received now).createdAt ≤ max b.updatedAt (epochMillis now)) := by
    refine hcalm.imp_left (fun hcredit => ⟨hcredit.1, fun z' hz' hno => ?_⟩)
    obtain ⟨z, hz, rfl⟩ := List.mem_map.mp hz'
    exact hcredit.2 z hz ((h.resets_received (hzs' z hz) now).symm.trans hno)
  have hall := leaky_reset_leaves conf halg hterms hburst (h.sent_all hzs' now)
    (hits_received hzs now) (h.sent hmem now) (by rwa [received_hits])
    ((h.resets_received hmem now).trans hr) (h.sent_all hps' now)
    (h.noReset_all hps' hps now) hq hcalm' hseen
  have hmerged := leaky_reset_leaves conf halg hterms hburst (List.forall_mem_nil _)
    (List.forall_mem_nil _) (h.sent_self now) (h.hits_ne_zero now)
    ((h.reset_self now).trans (h.reset_of_mem hmem hhits hr)) (List.forall_mem_nil _)
    (List.forall_mem_nil _) hq
    (hcalm.imp_left (fun hcredit => ⟨hcredit.1, List.forall_mem_nil _⟩)) hseen
  rw [List.nil_append, h.hitsOf_self] at hmerged
  rw [← received_append, hitsOf_received] at hall
  exact h.same_of_leaves hmerged hall

end Compare

/-! ## What merging does to the owner's balance -/

/-- So many hits on ten tokens per second, made one second after the epoch. -/
def globalHits (algorithm : Algorithm) (hits : ℤ) (behavior : Behavior) : RateLimitReq :=
  { RateLimitReq.sample hits 10 1000 10 1000 0 with
    algorithm := algorithm
    behavior := .global ||| behavior }

/-- Such requests differ in their hits and their flags only. -/
theorem globalHits_alike (algorithm : Algorithm) {n m : ℤ} (hm : 0 ≤ m) {b c : Behavior}
    (hb : hasBehavior (.global ||| b) .durationIsGregorian = false)
    (hc : hasBehavior (.global ||| c) .durationIsGregorian = false)
    (hglobal : hasBehavior (.global ||| c) .global = true) :
    Alike (globalHits algorithm n b) (globalHits algorithm m c) :=
  ⟨rfl, rfl, rfl, rfl, rfl, rfl, hc.trans hb.symm, hglobal, rfl, hm, fun h => by
    rw [show hasBehavior (globalHits algorithm m c).behavior .durationIsGregorian = false from hc]
      at h
    cases h⟩

/-- A key that has never been asked for. -/
theorem seen_empty (now : ℤ) (key : String) : Seen (.ofItems []) false now key none :=
  ⟨rfl, fun st hst => (Option.some_ne_none st hst.symm).elim, fun _ _ => rfl⟩

end Gubernator
