/-
  A WINDOW OF REQUESTS on a leaky bucket.

  `Ready` is a bucket in credit that has had its drip for the window's time: on it requests take
  the sum of their hits (`leaky_ready_run`), until one that comes after the item's end finishes
  it.  On a debt (`Indebted`) they all get nothing.  Which of the two it is the first request
  decides, unless it repays a debt at one clock and the next one credits it at the other.

  A window is a list of requests that differ in hits and resets only (`Sent`).  What the owner does
  with it is told by cases on the bucket it finds.

    * no item       the first request with hits makes one, in credit (`leaky_new_leaves`);
    * in credit     `Ready` after the first request: the requests take the sum of their hits, or all
                    there is (`leaky_ready_run`);
    * in debt       nothing is taken, by any of them (`leaky_indebted_run`);
    * late          `created_at` plus the duration is before the clock: the first hits end the item
                    (`leaky_ready_late`).

  The edge: a request for exactly `y + 1e-9` tokens is granted and leaves a balance of `-1e-9`,
  which is not snapped to zero.  To the NEXT request that is a debt, timed by the owner's clock and
  not to be drained, which the sum of the two would not have met.  `EdgeLast` allows it where only
  queries follow, on a bucket that is up to date at that clock.
-/
import Gubernator.Leaky.Spend
import Gubernator.Global.Aggregation

namespace Gubernator

open ExactFloat

/-! ## Leaky buckets

What the requests of a window have in common as far as a leaky bucket is concerned, and what one of
them does to a bucket it finds.  `leaky_work` is the one place where the algorithm is looked into;
the rest is about balances. -/

section Leaky
variable (conf : Config) {host : Host} {now : ℤ} {s : Shard} {stored : Bool}
  {r₀ p : RateLimitReq} {ps : List RateLimitReq} {rate : ExactFloat} {d : ℤ}
  {item : CacheItem} {b : LeakyBucketItem}

/-- The owner serves a request of the window with the algorithm itself. -/
theorem serve_leakyBucket (hp : Sent r₀ p) (halg : r₀.algorithm = .leakyBucket) :
    serve conf host now s p = (leakyBucket host now s p
      { isOwner := true, waitCeiling := conf.scheduleMaxWait }).2 := by
  simp only [serve, getLocalRateLimit, hp.validated, handleGetRateLimit, hp.algorithm, halg, ne_eq,
    not_true_eq_false, if_false]
  split <;> rename_i h <;> exact (Prod.mk.inj h).2.symm

/-- The burst is one of the shared terms, given or defaulted. -/
theorem Sent.withBurst_burst (hp : Sent r₀ p) : p.withBurst.burst = r₀.withBurst.burst := by
  unfold RateLimitReq.withBurst
  rw [hp.burst]
  split
  · exact hp.limit
  · exact hp.burst

/-- Requests of a window have one rate and duration. -/
theorem Sent.terms (hp : Sent r₀ p) (host : Host) (now : ℤ) :
    requestTerms host now p = requestTerms host now r₀ := by
  simp only [requestTerms, hp.calendar, hp.duration, hp.limit]

/-- A request of the window is one that spends: no wait, no hits below zero, and it drains. -/
theorem Sent.spends (hp : Sent r₀ p) (hterms : requestTerms host now r₀ = .ok (rate, d)) :
    Spends host now p.withBurst d where
  noWait := by rw [withBurst_maxWait, hp.noWait]; omega
  hits := by rw [withBurst_hits]; exact hp.hits
  drain := by rw [withBurst_behavior]; exact hp.drain
  terms := ⟨rate, by rw [requestTerms_withBurst, hp.terms, hterms]⟩

/-- A key without an item counts as full. -/
theorem full_leaky (halg : r₀.algorithm = .leakyBucket) :
    balanceFound r₀ none = .fin r₀.withBurst.burst := by
  simp [balanceFound, halg]

/-- **One request on a found bucket**, brought up to the balance `y` first. -/
theorem leaky_work (hp : Sent r₀ p) (halg : r₀.algorithm = .leakyBucket)
    (hterms : requestTerms host now r₀ = .ok (rate, d)) {tm : LeakyTerms}
    (htm : leakyTerms host now p.withBurst b = .ok tm) {y : ℚ}
    (hy : (credited p.withBurst tm b).remaining = .fin y)
    (h : Seen s stored (epochMillis now) r₀.hashKey (some (item, .leaky b))) :
    ∃ x item', Seen (serve conf host now s p) stored (epochMillis now) r₀.hashKey
        (if epochMillis now ≤ x then
          some (item', .leaky { credited p.withBurst tm b with
            remaining := .fin (spend y p.hits) }) else none) ∧
      (tm.wasInDebt = true → item.expireAt ≤ x) ∧
      (tm.wasInDebt = false → x = if p.hits = 0 then item.expireAt else tm.createdAt + d) := by
  -- the duration the request works with is the window's
  have hd : tm.duration = d := by
    have := (leakyTerms_ok htm).1
    rw [requestTerms_withBurst, hp.terms, hterms] at this
    exact (Prod.mk.inj (Except.ok.inj this)).2.symm
  obtain ⟨out, hout, hb, hx, hx'⟩ := leakyBucketItem_spend (hp.spends hterms) htm hd hy
    item.expireAt { isOwner := true, waitCeiling := conf.scheduleMaxWait }
  rw [withBurst_hits] at hb hx'
  have hwork := h.leaky_work hp.key hout
  rw [← serve_leakyBucket conf hp halg, seen_of_live (h.live rfl), hb] at hwork
  exact ⟨out.expireAt, _, hwork, hx, hx'⟩

/-- A request without hits leaves the credited bucket, found as before. -/
theorem leaky_query (hp : Sent r₀ p) (halg : r₀.algorithm = .leakyBucket)
    (hzero : p.hits = 0) {tm : LeakyTerms} (htm : leakyTerms host now p.withBurst b = .ok tm)
    (h : Seen s stored (epochMillis now) r₀.hashKey (some (item, .leaky b))) :
    ∃ item', Seen (serve conf host now s p) stored (epochMillis now) r₀.hashKey
      (some (item', .leaky (credited p.withBurst tm b))) := by
  have hzero' : p.withBurst.hits = 0 := by rw [withBurst_hits, hzero]
  have hout := leakyBucketItem_query hzero' htm
    { isOwner := true, waitCeiling := conf.scheduleMaxWait } item.expireAt
  -- a query only ever lengthens the life of the item
  obtain ⟨-, hb, hx⟩ := deferredExpiry_fields host tm
    (chargeRate tm (credited p.withBurst tm b))
    ⟨leakyStatus host (credited p.withBurst tm b) tm.createdAt
      (chargeRate tm (credited p.withBurst tm b)), credited p.withBurst tm b, item.expireAt⟩
  have hlive := h.live rfl
  have hwork := h.leaky_work hp.key hout
  rw [← serve_leakyBucket conf hp halg, seen_of_live hlive, hb,
    if_pos ((le_expireAt hlive).trans hx)] at hwork
  exact ⟨_, hwork⟩

/-! ### What the requests share -/

/-- All have the time of the first. -/
theorem Sent.withBurst_createdAt (hp : Sent r₀ p) : p.withBurst.createdAt = r₀.createdAt := by
  rw [Gubernator.withBurst_createdAt, hp.createdAt]

/-- All have the limit of the first. -/
theorem Sent.withBurst_limit (hp : Sent r₀ p) : p.withBurst.limit = r₀.withBurst.limit := by
  rw [Gubernator.withBurst_limit, Gubernator.withBurst_limit, hp.limit]

/-- All have its duration. -/
theorem Sent.withBurst_duration (hp : Sent r₀ p) :
    p.withBurst.duration = r₀.withBurst.duration := by
  rw [Gubernator.withBurst_duration, Gubernator.withBurst_duration, hp.duration]

/-- All read the duration the way it does. -/
theorem Sent.withBurst_calendar (hp : Sent r₀ p) :
    hasBehavior p.withBurst.behavior .durationIsGregorian =
      hasBehavior r₀.withBurst.behavior .durationIsGregorian := by
  rw [withBurst_behavior, withBurst_behavior, hp.calendar]

/-! ### In debt

A bucket in debt is timed by the owner's clock, whatever time the requests carry, and no request
takes anything from it. -/

/-- Whether a bucket is in debt is the same for all requests of a window. -/
theorem Sent.indebted (hp : Sent r₀ p) {t : ℤ} {y : ℚ} :
    Indebted t p.withBurst b y ↔ Indebted t r₀.withBurst b y := by
  constructor
  · exact fun h => h.congr hp.withBurst_burst hp.withBurst_limit hp.withBurst_duration
      hp.withBurst_calendar
  · exact fun h => h.congr hp.withBurst_burst.symm hp.withBurst_limit.symm
      hp.withBurst_duration.symm hp.withBurst_calendar.symm

/-- **Many requests on a debt** leave it as it is. -/
theorem leaky_indebted_run (halg : r₀.algorithm = .leakyBucket)
    (hterms : requestTerms host now r₀ = .ok (rate, d)) (hps : ∀ p ∈ ps, Sent r₀ p)
    (hreset : ∀ p ∈ ps, p.resets = false) {y : ℚ}
    (hb : Indebted (epochMillis now) r₀.withBurst b y)
    (h : Seen s stored (epochMillis now) r₀.hashKey (some (item, .leaky b))) :
    Leaves (ps.foldl (serve conf host now) s) stored now r₀ (.fin y) := by
  induction ps generalizing s item b with
  | nil => exact ⟨_, h, hb.balance⟩
  | cons p ps ih =>
    obtain ⟨hp, hps'⟩ := List.forall_mem_cons.mp hps
    obtain ⟨hpreset, hreset'⟩ := List.forall_mem_cons.mp hreset
    have hspends := hp.spends hterms
    obtain ⟨tm, htm, -⟩ := hspends.leakyTerms b
    obtain ⟨hy, hdebt, hnext⟩ := (hp.indebted.mpr hb).credited hspends htm
      (by rw [withBurst_behavior]; exact hpreset)
    obtain ⟨x, item', hseen, hx, -⟩ := leaky_work conf hp halg hterms htm hy h
    -- in debt the expiry is not moved back, so the item is found again
    rw [if_pos ((le_expireAt (h.live rfl)).trans (hx hdebt)), spend_of_debt hnext.debt hp.hits,
      ← hy] at hseen
    exact ih hps' hreset' (hp.indebted.mp hnext) hseen

/-! ### In credit

`Ready` is what a request needs to take its hits from the stored balance as it is: nothing is owed,
nothing more leaks in by the window's time, and no part below `1e-9` waits to be snapped off. -/

/-- A query is never at the edge. -/
theorem zero_ne_add_epsilon {y : ℚ} (hy : 0 ≤ y) : ((0 : ℤ) : ℚ) ≠ y + epsilon := by
  have := epsilon_pos
  intro h
  push_cast at h
  linarith

/-- Whether an item is found again at `t`: a query keeps its end `e`, hits renew it until `x`. -/
theorem le_renewed_iff {t e x n : ℤ} (h : t ≤ e) :
    t ≤ (if n = 0 then e else x) ↔ n = 0 ∨ t ≤ x := by
  by_cases h0 : n = 0
  · simp [h0, h]
  · simp [h0]

/-- **One request on a bucket in credit and up to date.**  Hits renew the item from the request's
    time, which may be over already.  At the edge the bucket is then in debt. -/
theorem leaky_ready_step (hp : Sent r₀ p) (halg : r₀.algorithm = .leakyBucket)
    (hterms : requestTerms host now r₀ = .ok (rate, d)) (hreset : p.resets = false) {y : ℚ}
    (hb : Ready r₀.withBurst.burst r₀.createdAt b y)
    (h : Seen s stored (epochMillis now) r₀.hashKey (some (item, .leaky b))) :
    ∃ item' b', Seen (serve conf host now s p) stored (epochMillis now) r₀.hashKey
        (if p.hits = 0 ∨ epochMillis now ≤ r₀.createdAt + d then some (item', .leaky b')
          else none) ∧
      b'.remaining = .fin (spend y p.hits) ∧ b.updatedAt ≤ b'.updatedAt ∧
      ((p.hits : ℚ) ≠ y + epsilon →
        Ready r₀.withBurst.burst r₀.createdAt b' (spend y p.hits)) ∧
      ((p.hits : ℚ) = y + epsilon → epochMillis now ≤ b.updatedAt →
        Indebted (epochMillis now) r₀.withBurst b' (spend y p.hits)) := by
  have hspends := hp.spends hterms
  obtain ⟨tm, htm, -⟩ := hspends.leakyTerms b
  rw [← hp.withBurst_burst, ← hp.withBurst_createdAt] at hb ⊢
  obtain ⟨hy, hdebt, htime, hready⟩ := hb.credited hspends htm
    (by rw [withBurst_behavior]; exact hreset)
  obtain ⟨x, item', hseen, -, hx⟩ := leaky_work conf hp halg hterms htm hy h
  have hlater : b.updatedAt ≤ (credited p.withBurst tm b).updatedAt := by
    rw [credited_updatedAt]
    exact le_max_left _ _
  refine ⟨item', { credited p.withBurst tm b with remaining := .fin (spend y p.hits) }, ?_, rfl,
    hlater, fun hedge => hready.spend hp.hits hedge,
    fun hedge htimed => hp.indebted.mp
      (hready.spend_edge hedge (htimed.trans hlater) (credited_terms htm))⟩
  -- the item is found again: a query keeps its expiry, hits renew it from the request's time
  have hfound : epochMillis now ≤ x ↔
      p.hits = 0 ∨ epochMillis now ≤ p.withBurst.createdAt + d := by
    rw [hx hdebt, htime]
    exact le_renewed_iff (le_expireAt (h.live rfl))
  simpa only [hfound] using hseen

/-- A reset fills the bucket up before the hits are taken, and takes the owner's clock from a
    debt. -/
theorem leaky_reset_step (hp : Sent r₀ p) (halg : r₀.algorithm = .leakyBucket)
    (hterms : requestTerms host now r₀ = .ok (rate, d)) (hreset : p.resets = true)
    (hB : 0 ≤ r₀.withBurst.burst)
    (htimed : b.remaining < 0 → r₀.createdAt ≤ max b.updatedAt (epochMillis now))
    (h : Seen s stored (epochMillis now) r₀.hashKey (some (item, .leaky b))) :
    ∃ item' b', Seen (serve conf host now s p) stored (epochMillis now) r₀.hashKey
        (if p.hits = 0 ∨ epochMillis now ≤
            (if b.remaining < 0 then epochMillis now else r₀.createdAt) + d then
          some (item', .leaky b') else none) ∧
      Ready r₀.withBurst.burst r₀.createdAt b' (spend r₀.withBurst.burst p.hits) := by
  have hspends := hp.spends hterms
  obtain ⟨tm, htm, -⟩ := hspends.leakyTerms b
  rw [← hp.withBurst_burst, ← hp.withBurst_createdAt] at ⊢
  rw [← hp.withBurst_burst] at hB
  rw [← hp.withBurst_createdAt] at htimed
  obtain ⟨hdebt, hready⟩ := ready_of_reset hspends htm
    (by rw [withBurst_behavior]; exact hreset) hB htimed
  obtain ⟨x, item', hseen, -, hx⟩ := leaky_work conf hp halg hterms htm hready.balance h
  refine ⟨item', _, ?_, hready.spend hp.hits (int_ne_add_epsilon _ _)⟩
  -- the same with the time of the reset, which for a debt is the owner's clock
  have hfound : epochMillis now ≤ x ↔ p.hits = 0 ∨ epochMillis now ≤
      (if b.remaining < 0 then epochMillis now else p.withBurst.createdAt) + d := by
    rw [hx hdebt, hspends.createdAt htm]
    exact le_renewed_iff (le_expireAt (h.live rfl))
  simpa only [hfound] using hseen

/-- The item a first request leaves: a full bucket less the hits. -/
theorem leaky_first (hp : Sent r₀ p) (halg : r₀.algorithm = .leakyBucket)
    (hterms : requestTerms host now r₀ = .ok (rate, d))
    (h : Seen s stored (epochMillis now) r₀.hashKey none) :
    ∃ item' b', Seen (serve conf host now s p) stored (epochMillis now) r₀.hashKey
        (if epochMillis now ≤ r₀.createdAt + d then some (item', .leaky b') else none) ∧
      (0 ≤ r₀.withBurst.burst →
        Ready r₀.withBurst.burst r₀.createdAt b' (spend r₀.withBurst.burst p.hits)) := by
  have hnew := h.leaky_new hp.key ((hp.terms host now).trans hterms)
    (by rw [hp.noWait]; omega) conf.scheduleMaxWait
  rw [← serve_leakyBucket conf hp halg, seen_of_valid rfl, hp.createdAt] at hnew
  refine ⟨_, _, hnew, fun hB => ?_⟩
  have hspend := newBalance_eq_spend (r := p.withBurst) (by rw [hp.withBurst_burst]; exact hB)
    (by rw [withBurst_hits]; exact hp.hits)
  rw [withBurst_hits, hp.withBurst_burst] at hspend
  have hB' : (0 : ℚ) ≤ r₀.withBurst.burst := by exact_mod_cast hB
  -- whole hits from a whole burst: never at the edge, and nothing to snap
  refine ⟨?_, spend_nonneg hB' (int_ne_add_epsilon _ _), snap_spend (snap_int _) hB',
    spend_le hB' hp.hits, hp.withBurst_burst, le_rfl⟩
  rw [← hspend]
  rfl

/-- A key whose items are born dead stays without one. -/
theorem leaky_stillborn (halg : r₀.algorithm = .leakyBucket)
    (hterms : requestTerms host now r₀ = .ok (rate, d))
    (hdead : r₀.createdAt + d < epochMillis now) (hps : ∀ p ∈ ps, Sent r₀ p)
    (h : Seen s stored (epochMillis now) r₀.hashKey none) :
    Seen (ps.foldl (serve conf host now) s) stored (epochMillis now) r₀.hashKey none := by
  induction ps generalizing s with
  | nil => exact h
  | cons p ps ih =>
    obtain ⟨hp, hps'⟩ := List.forall_mem_cons.mp hps
    obtain ⟨item', b', hstep, -⟩ := leaky_first conf hp halg hterms h
    rw [if_neg (not_le.mpr hdead)] at hstep
    exact ih hps' hstep

/-- A request that comes, with those before it, to exactly `1e-9` more than `y` is granted and
    leaves a debt of `1e-9`, which the next one finds.  No hits follow such a request, and if
    anything does, the bucket is up to date at the owner's clock (`timed`). -/
def EdgeLast (timed : Prop) (y : ℚ) (ps : List RateLimitReq) : Prop :=
  ∀ qs, qs <+: ps → qs.length < ps.length → ((hitsOf qs : ℤ) : ℚ) = y + epsilon →
    timed ∧ hitsOf ps = hitsOf qs

/-- Whole hits do not come to `1e-9` more than a whole balance. -/
theorem edgeLast_int (timed : Prop) (n : ℤ) (ps : List RateLimitReq) : EdgeLast timed n ps :=
  fun _ _ _ hedge => absurd hedge (int_ne_add_epsilon _ _)

/-- After a first request at the edge come queries only, if anything does. -/
theorem EdgeLast.head {timed : Prop} {y : ℚ} (h : EdgeLast timed y (p :: ps)) (hne : ps ≠ [])
    (hedge : (p.hits : ℚ) = y + epsilon) : timed ∧ hitsOf ps = 0 := by
  obtain ⟨htimed, hsum⟩ := h [p] (by simp) (by simpa using List.length_pos_of_ne_nil hne)
    (by simpa [hitsOf] using hedge)
  rw [hitsOf_cons, hitsOf_cons, hitsOf_nil] at hsum
  exact ⟨htimed, by omega⟩

/-- What a first request leaves has its edge where the window has it. -/
theorem EdgeLast.tail {timed timed' : Prop} {y : ℚ} (hy : 0 ≤ y) (himp : timed → timed')
    (h : EdgeLast timed y (p :: ps)) : EdgeLast timed' (spend y p.hits) ps := by
  intro qs hqs hlt hedge
  have hedge' := edge_of_spend hy hedge
  rw [← hitsOf_cons] at hedge'
  obtain ⟨htimed, hsum⟩ := h (p :: qs) (by simpa using hqs) (by simpa using hlt) hedge'
  rw [hitsOf_cons, hitsOf_cons] at hsum
  exact ⟨himp htimed, by omega⟩

/-- **Many requests on a bucket in credit** take the sum of their hits, if those with hits come in
    time.  The bucket stays in credit from one request to the next; at the edge it is left in debt,
    to queries. -/
theorem leaky_ready_run (halg : r₀.algorithm = .leakyBucket)
    (hterms : requestTerms host now r₀ = .ok (rate, d))
    (hlive : ∀ p ∈ ps, p.hits = 0 ∨ epochMillis now ≤ r₀.createdAt + d)
    (hps : ∀ p ∈ ps, Sent r₀ p) (hreset : ∀ p ∈ ps, p.resets = false) {y : ℚ}
    (hedge : EdgeLast (epochMillis now ≤ b.updatedAt) y ps)
    (hb : Ready r₀.withBurst.burst r₀.createdAt b y)
    (h : Seen s stored (epochMillis now) r₀.hashKey (some (item, .leaky b))) :
    Leaves (ps.foldl (serve conf host now) s) stored now r₀ (.fin (spend y (hitsOf ps))) := by
  induction ps generalizing s item b y with
  | nil => exact ⟨_, h, by rw [hitsOf_nil, spend_zero]; exact hb.balance⟩
  | cons p ps ih =>
    obtain ⟨hp, hps'⟩ := List.forall_mem_cons.mp hps
    obtain ⟨hpreset, hreset'⟩ := List.forall_mem_cons.mp hreset
    obtain ⟨hplive, hlive'⟩ := List.forall_mem_cons.mp hlive
    obtain ⟨item₁, b₁, h₁, hbalance, hlater, hready, hindebted⟩ :=
      leaky_ready_step conf hp halg hterms hpreset hb h
    rw [if_pos hplive] at h₁
    rw [List.foldl_cons]
    by_cases hlast : ps = []
    · -- nobody sees what the last request leaves
      subst hlast
      exact ⟨_, h₁, by simpa [balanceFound, hitsOf] using hbalance⟩
    by_cases hat : (p.hits : ℚ) = y + epsilon
    · -- at the edge: queries find the debt it leaves, and leave it
      obtain ⟨htimed, hzero⟩ := hedge.head hlast hat
      rw [hitsOf_cons, hzero, add_zero]
      exact leaky_indebted_run conf halg hterms hps' hreset' (hindebted hat htimed) h₁
    · have hrest := ih hlive' hps' hreset' (hedge.tail hb.credit (fun ht => ht.trans hlater))
        (hready hat) h₁
      rwa [spend_spend hb.credit hp.hits (hitsOf_nonneg hps') hat, ← hitsOf_cons] at hrest

/-- Requests that come too late to renew the item end it with their first hits. -/
theorem leaky_ready_late (halg : r₀.algorithm = .leakyBucket)
    (hterms : requestTerms host now r₀ = .ok (rate, d))
    (hdead : r₀.createdAt + d < epochMillis now) (hps : ∀ p ∈ ps, Sent r₀ p)
    (hreset : ∀ p ∈ ps, p.resets = false) (hsome : ∃ p ∈ ps, p.hits ≠ 0) {y : ℚ}
    (hb : Ready r₀.withBurst.burst r₀.createdAt b y)
    (h : Seen s stored (epochMillis now) r₀.hashKey (some (item, .leaky b))) :
    Seen (ps.foldl (serve conf host now) s) stored (epochMillis now) r₀.hashKey none := by
  induction ps generalizing s item b y with
  | nil =>
    obtain ⟨p, hp, -⟩ := hsome
    cases hp
  | cons p ps ih =>
    obtain ⟨hp, hps'⟩ := List.forall_mem_cons.mp hps
    obtain ⟨hpreset, hreset'⟩ := List.forall_mem_cons.mp hreset
    obtain ⟨item₁, b₁, h₁, -, -, hb₁, -⟩ := leaky_ready_step conf hp halg hterms hpreset hb h
    rw [List.foldl_cons]
    by_cases h0 : p.hits = 0
    · -- a query leaves the item to the requests after it
      rw [if_pos (.inl h0)] at h₁
      rw [h0] at hb₁
      obtain ⟨p', hp', hne⟩ := hsome
      rcases List.mem_cons.mp hp' with rfl | hp'
      · exact absurd h0 hne
      · exact ih hps' hreset' ⟨p', hp', hne⟩ (hb₁ (zero_ne_add_epsilon hb.credit)) h₁
    · -- the first hits end it, and every item made after them is dead at once
      rw [if_neg (by simp [h0, not_le.mpr hdead])] at h₁
      exact leaky_stillborn conf halg hterms hdead hps' h₁

/-! ### Windows

The first request brings the stored balance `q` to `y`: leak, changed burst, cap.  `windowBalance`
tells what a window then leaves, and has a case for each of a debt, a bucket in credit and in time,
and one in credit but late. -/

/-- The terms a found bucket is brought up to date with depend on six fields of a request. -/
theorem leakyTerms_congr {r r' : RateLimitReq} (hwait : r.maxWait = r'.maxWait)
    (hcreated : r.createdAt = r'.createdAt) (hlimit : r.limit = r'.limit)
    (hduration : r.duration = r'.duration) (hburst : r.burst = r'.burst)
    (hcalendar : hasBehavior r.behavior .durationIsGregorian =
      hasBehavior r'.behavior .durationIsGregorian)
    (hreset : hasBehavior r.behavior .resetRemaining = hasBehavior r'.behavior .resetRemaining) :
    leakyTerms host now r b = leakyTerms host now r' b := by
  simp only [leakyTerms, requestTerms, requestUsable, hwait, hcreated, hlimit, hduration, hburst,
    hcalendar, hreset]

/-- Requests of a window that reset alike have the same terms. -/
theorem Sent.leakyTerms (hp : Sent r₀ p) (h₀ : Sent r₀ r₀) (hreset : p.resets = r₀.resets) :
    leakyTerms host now p.withBurst b = leakyTerms host now r₀.withBurst b := by
  apply leakyTerms_congr
  · rw [withBurst_maxWait, withBurst_maxWait, hp.noWait, h₀.noWait]
  · rw [hp.withBurst_createdAt, Gubernator.withBurst_createdAt]
  · exact hp.withBurst_limit
  · exact hp.withBurst_duration
  · exact hp.withBurst_burst
  · exact hp.withBurst_calendar
  · rw [withBurst_behavior, withBurst_behavior]
    exact hreset

/-- Requests of a window that reset alike bring the bucket to the same balance. -/
theorem Sent.credited (hp : Sent r₀ p) (hreset : p.resets = r₀.resets) (tm : LeakyTerms) :
    credited p.withBurst tm b = credited r₀.withBurst tm b := by
  have hreset' : hasBehavior p.withBurst.behavior .resetRemaining =
      hasBehavior r₀.withBurst.behavior .resetRemaining := by
    rw [withBurst_behavior, withBurst_behavior]
    exact hreset
  have hrefill : ∀ b, refill p.withBurst tm b = refill r₀.withBurst tm b := by
    intro b
    rw [refill, refill, hreset']
  have hadopt : ∀ b, adoptConfig p.withBurst tm b = adoptConfig r₀.withBurst tm b := by
    intro b
    rw [adoptConfig, adoptConfig, hp.withBurst_limit, hp.withBurst_duration]
  rw [Gubernator.credited, Gubernator.credited, hrefill, hadopt]

/-- The stored balance is `y` once it is brought up to date for a request: what has leaked in by
    its time, a changed burst, the cap. -/
def BroughtTo (host : Host) (now : ℤ) (r : RateLimitReq) (b : LeakyBucketItem) (y : ℚ) : Prop :=
  ∃ tm, leakyTerms host now r.withBurst b = .ok tm ∧
    (credited r.withBurst tm b).remaining = .fin y

/-- What a window leaves of a bucket with the balance `q`, which its first request brings to `y`. -/
def windowBalance (now : ℤ) (r₀ : RateLimitReq) (d : ℤ) (q y : ℚ) (hits : ℤ) :
    ExactFloat :=
  if y < 0 then .fin y
  else if q < 0 ∨ epochMillis now ≤ r₀.createdAt + d then .fin (spend y hits)
  else .fin r₀.withBurst.burst

/-- **A window on a found bucket**: what the requests share, the bucket, and the balance `y` that
    the first of them brings the stored `q` to.  Nothing is reset. -/
structure FoundWindow (host : Host) (now : ℤ) (r₀ : RateLimitReq) (rate : ExactFloat) (d : ℤ)
    (b : LeakyBucketItem) (tm : LeakyTerms) (q y : ℚ) : Prop where
  leaky : r₀.algorithm = .leakyBucket
  terms : requestTerms host now r₀ = .ok (rate, d)
  self : Sent r₀ r₀
  noReset : r₀.resets = false
  found : leakyTerms host now r₀.withBurst b = .ok tm
  balance : b.remaining = .fin q
  upToDate : (Gubernator.credited r₀.withBurst tm b).remaining = .fin y

namespace FoundWindow

variable {tm : LeakyTerms} {q y : ℚ} (hw : FoundWindow host now r₀ rate d b tm q y)
include hw

/-- Each request of the window works with the window's terms. -/
theorem leakyTerms_eq (hp : Sent r₀ p) (hreset : p.resets = false) :
    leakyTerms host now p.withBurst b = .ok tm := by
  rw [hp.leakyTerms hw.self (by rw [hreset, hw.noReset]), hw.found]

/-- Each request of the window brings the stored bucket to the same balance. -/
theorem credited_eq (hp : Sent r₀ p) (hreset : p.resets = false) :
    credited p.withBurst tm b = credited r₀.withBurst tm b :=
  hp.credited (by rw [hreset, hw.noReset]) tm

/-- **The first request.**  A bucket in debt is found again after it; one in credit is, unless hits
    renew it from a time that is over already. -/
theorem first (hp : Sent r₀ p) (hreset : p.resets = false)
    (h : Seen s stored (epochMillis now) r₀.hashKey (some (item, .leaky b))) :
    ∃ x item', Seen (serve conf host now s p) stored (epochMillis now) r₀.hashKey
        (if epochMillis now ≤ x then
          some (item', .leaky { credited p.withBurst tm b with
            remaining := .fin (spend y p.hits) }) else none) ∧
      (q < 0 → epochMillis now ≤ x) ∧
      (0 ≤ q → (epochMillis now ≤ x ↔ p.hits = 0 ∨ epochMillis now ≤ r₀.createdAt + d)) := by
  have htm := hw.leakyTerms_eq hp hreset
  have hy : (credited p.withBurst tm b).remaining = .fin y := by
    rw [hw.credited_eq hp hreset, hw.upToDate]
  obtain ⟨x, item', hseen, hxdebt, hxcredit⟩ := leaky_work conf hp hw.leaky hw.terms htm hy h
  have hexpire := le_expireAt (h.live rfl)
  -- without a reset it was in debt if the stored balance was
  have hdebt : tm.wasInDebt = decide (q < 0) := by
    have hno : hasBehavior p.withBurst.behavior .resetRemaining = false := by
      rw [withBurst_behavior]
      exact hreset
    rw [(leakyTerms_ok htm).2.2.2.2.2.2.2.2, hno, hw.balance]
    simp
  refine ⟨x, item', hseen, fun hneg => ?_, fun hpos => ?_⟩
  · exact hexpire.trans (hxdebt (by rw [hdebt]; exact decide_eq_true hneg))
  · -- in credit the request's own time counts
    have htime : tm.createdAt = r₀.createdAt := by
      rw [(hp.spends hw.terms).createdAt htm, hw.balance,
        if_neg (by rw [fin_lt_zero]; exact not_lt.mpr hpos), hp.withBurst_createdAt]
    rw [hxcredit (by rw [hdebt]; exact decide_eq_false (not_lt.mpr hpos)), htime]
    exact le_renewed_iff hexpire

/-- It leaves the item found, if one in credit is in time. -/
theorem first_found (hp : Sent r₀ p) (hreset : p.resets = false)
    (hlive : 0 ≤ q → epochMillis now ≤ r₀.createdAt + d)
    (h : Seen s stored (epochMillis now) r₀.hashKey (some (item, .leaky b))) :
    ∃ item', Seen (serve conf host now s p) stored (epochMillis now) r₀.hashKey
      (some (item', .leaky { credited p.withBurst tm b with
        remaining := .fin (spend y p.hits) })) := by
  obtain ⟨x, item', hseen, hxdebt, hxcredit⟩ := hw.first conf hp hreset h
  have hx : epochMillis now ≤ x := by
    rcases lt_or_ge q 0 with hq | hq
    · exact hxdebt hq
    · exact (hxcredit hq).mpr (.inr (hlive hq))
  rw [if_pos hx] at hseen
  exact ⟨item', hseen⟩

/-- A debt after crediting: nobody gets anything. -/
theorem debt_leaves (hps : ∀ p' ∈ p :: ps, Sent r₀ p') (hreset : ∀ p' ∈ p :: ps, p'.resets = false)
    (hneg : y < 0)
    (hlost : 0 ≤ q → epochMillis now ≤ max b.updatedAt r₀.createdAt ∧
      epochMillis now ≤ r₀.createdAt + d)
    (h : Seen s stored (epochMillis now) r₀.hashKey (some (item, .leaky b))) :
    Leaves ((p :: ps).foldl (serve conf host now) s) stored now r₀ (.fin y) := by
  obtain ⟨hp, hps'⟩ := List.forall_mem_cons.mp hps
  obtain ⟨hpreset, hreset'⟩ := List.forall_mem_cons.mp hreset
  have hy : (credited p.withBurst tm b).remaining = .fin y := by
    rw [hw.credited_eq hp hpreset, hw.upToDate]
  -- what the first request leaves is a debt for the others as well
  have hindebted := indebted_of_credited (hp.spends hw.terms) (hw.leakyTerms_eq hp hpreset)
    hw.balance hy hneg (fun hpos => by rw [hp.withBurst_createdAt]; exact (hlost hpos).1)
  obtain ⟨item', hseen⟩ := hw.first_found conf hp hpreset (fun hq => (hlost hq).2) h
  rw [spend_of_debt hindebted.debt hp.hits, ← hy] at hseen
  exact leaky_indebted_run conf hw.leaky hw.terms hps' hreset' (hp.indebted.mp hindebted) hseen

/-- The first request brings a bucket in credit up to date, for the next one, too.  A debt that it
    finds paid off has to be paid off at the window's time. -/
theorem brought_ready (hp : Sent r₀ p) (hreset : p.resets = false) (hpos : 0 ≤ y)
    (hrepaid : q < 0 → r₀.createdAt ≤ max b.updatedAt (epochMillis now) ∧
      (credited r₀.withBurst tm b).burst = r₀.withBurst.burst) :
    Ready p.withBurst.burst p.withBurst.createdAt (credited p.withBurst tm b) y := by
  have hy : (credited p.withBurst tm b).remaining = .fin y := by
    rw [hw.credited_eq hp hreset, hw.upToDate]
  refine ready_of_credited (hp.spends hw.terms) (hw.leakyTerms_eq hp hreset) hw.balance hy hpos
    (fun hq => ?_)
  obtain ⟨hc, hB⟩ := hrepaid hq
  exact ⟨by rwa [hp.withBurst_createdAt], by rwa [hw.credited_eq hp hreset, hp.withBurst_burst]⟩

/-- A debt is brought up to the owner's clock, and credit to the request's time. -/
theorem brought_timed (hp : Sent r₀ p) (hreset : p.resets = false)
    (htimed : q < 0 ∨ epochMillis now ≤ max b.updatedAt r₀.createdAt) :
    epochMillis now ≤ (credited p.withBurst tm b).updatedAt := by
  rw [credited_updatedAt, (hp.spends hw.terms).createdAt (hw.leakyTerms_eq hp hreset), hw.balance,
    hp.withBurst_createdAt]
  split
  · exact le_max_right _ _
  · rename_i hcredit
    exact htimed.resolve_left (fun hneg => hcredit (fin_lt_zero.mpr hneg))

/-- Unless its hits come to the edge, it leaves a bucket in credit. -/
theorem first_ready (hp : Sent r₀ p) (hreset : p.resets = false) (hpos : 0 ≤ y)
    (hrepaid : q < 0 → r₀.createdAt ≤ max b.updatedAt (epochMillis now) ∧
      (credited r₀.withBurst tm b).burst = r₀.withBurst.burst)
    (hedge : (p.hits : ℚ) ≠ y + epsilon) :
    Ready r₀.withBurst.burst r₀.createdAt
      { credited p.withBurst tm b with remaining := .fin (spend y p.hits) } (spend y p.hits) := by
  rw [← hp.withBurst_burst, ← hp.withBurst_createdAt]
  exact (hw.brought_ready hp hreset hpos hrepaid).spend hp.hits hedge

/-- At the edge it leaves a debt, for queries. -/
theorem first_indebted (hp : Sent r₀ p) (hreset : p.resets = false) (hpos : 0 ≤ y)
    (hrepaid : q < 0 → r₀.createdAt ≤ max b.updatedAt (epochMillis now) ∧
      (credited r₀.withBurst tm b).burst = r₀.withBurst.burst)
    (hedge : (p.hits : ℚ) = y + epsilon) (htimed : q < 0 ∨ epochMillis now ≤ max b.updatedAt
      r₀.createdAt) :
    Indebted (epochMillis now) r₀.withBurst
      { credited p.withBurst tm b with remaining := .fin (spend y p.hits) } (spend y p.hits) :=
  hp.indebted.mp ((hw.brought_ready hp hreset hpos hrepaid).spend_edge hedge
    (hw.brought_timed hp hreset htimed) (credited_terms (hw.leakyTerms_eq hp hreset)))

/-- In credit, and in time: the hits add up.  Where the first request has found a debt paid off, the
    others have to be in time, as far as they have hits. -/
theorem live_leaves (hps : ∀ p' ∈ p :: ps, Sent r₀ p')
    (hreset : ∀ p' ∈ p :: ps, p'.resets = false) (hpos : 0 ≤ y)
    (hlive : 0 ≤ q → epochMillis now ≤ r₀.createdAt + d)
    (hlive' : ∀ p' ∈ ps, p'.hits = 0 ∨ epochMillis now ≤ r₀.createdAt + d)
    (hrepaid : q < 0 → r₀.createdAt ≤ max b.updatedAt (epochMillis now) ∧
      (credited r₀.withBurst tm b).burst = r₀.withBurst.burst)
    (hedge : EdgeLast (q < 0 ∨ epochMillis now ≤ max b.updatedAt r₀.createdAt) y (p :: ps))
    (h : Seen s stored (epochMillis now) r₀.hashKey (some (item, .leaky b))) :
    Leaves ((p :: ps).foldl (serve conf host now) s) stored now r₀
      (.fin (spend y (hitsOf (p :: ps)))) := by
  obtain ⟨hp, hps'⟩ := List.forall_mem_cons.mp hps
  obtain ⟨hpreset, hreset'⟩ := List.forall_mem_cons.mp hreset
  obtain ⟨item', hseen⟩ := hw.first_found conf hp hpreset hlive h
  rw [List.foldl_cons]
  by_cases hlast : ps = []
  · -- nobody comes after the first request, whatever it leaves
    subst hlast
    exact ⟨_, hseen, by simp [balanceFound, hitsOf]⟩
  by_cases hat : (p.hits : ℚ) = y + epsilon
  · -- the first request comes to the edge, and only queries follow
    obtain ⟨htimed, hzero⟩ := hedge.head hlast hat
    rw [hitsOf_cons, hzero, add_zero]
    exact leaky_indebted_run conf hw.leaky hw.terms hps' hreset'
      (hw.first_indebted hp hpreset hpos hrepaid hat htimed) hseen
  · rw [hitsOf_cons, ← spend_spend hpos hp.hits (hitsOf_nonneg hps') hat]
    refine leaky_ready_run conf hw.leaky hw.terms hlive' hps' hreset' ?_
      (hw.first_ready hp hpreset hpos hrepaid hat) hseen
    exact hedge.tail hpos (hw.brought_timed hp hpreset)

/-- In credit, and too late: the first hits end the item, and the key is full. -/
theorem late_leaves (hps : ∀ p' ∈ p :: ps, Sent r₀ p')
    (hreset : ∀ p' ∈ p :: ps, p'.resets = false) (hsome : ∃ p' ∈ p :: ps, p'.hits ≠ 0)
    (hpos : 0 ≤ y) (hq : 0 ≤ q) (hdead : r₀.createdAt + d < epochMillis now)
    (h : Seen s stored (epochMillis now) r₀.hashKey (some (item, .leaky b))) :
    Leaves ((p :: ps).foldl (serve conf host now) s) stored now r₀
      (.fin r₀.withBurst.burst) := by
  obtain ⟨hp, hps'⟩ := List.forall_mem_cons.mp hps
  obtain ⟨hpreset, hreset'⟩ := List.forall_mem_cons.mp hreset
  obtain ⟨x, item', hseen, -, hxcredit⟩ := hw.first conf hp hpreset h
  have hx := hxcredit hq
  rw [List.foldl_cons]
  refine ⟨none, ?_, full_leaky hw.leaky⟩
  by_cases h0 : p.hits = 0
  · -- a query: the item is as late for the requests after it
    rw [if_pos (hx.mpr (.inl h0))] at hseen
    have hready := hw.first_ready hp hpreset hpos (fun hneg => absurd hneg (not_lt.mpr hq))
      (by rw [h0]; exact zero_ne_add_epsilon hpos)
    obtain ⟨p', hp', hne⟩ := hsome
    rcases List.mem_cons.mp hp' with rfl | hp'
    · exact absurd h0 hne
    · exact leaky_ready_late conf hw.leaky hw.terms hdead hps' hreset' ⟨p', hp', hne⟩ hready
        hseen
  · -- hits: the item is gone, and none that follows lives
    rw [if_neg (by rw [hx]; simp [h0, hdead])] at hseen
    exact leaky_stillborn conf hw.leaky hw.terms hdead hps' hseen

/-- **What the window leaves.**  A debt that the first request finds paid off, and credit that it
    finds gone, must not be timed a second time by another clock. -/
theorem leaves (hps : ∀ p' ∈ p :: ps, Sent r₀ p') (hreset : ∀ p' ∈ p :: ps, p'.resets = false)
    (hsome : ∃ p' ∈ p :: ps, p'.hits ≠ 0)
    (hrepaid : q < 0 → 0 ≤ y → r₀.createdAt ≤ max b.updatedAt (epochMillis now) ∧
      (∀ p' ∈ ps, p'.hits = 0 ∨ epochMillis now ≤ r₀.createdAt + d) ∧
      (credited r₀.withBurst tm b).burst = r₀.withBurst.burst)
    (hlost : 0 ≤ q → y < 0 → epochMillis now ≤ max b.updatedAt r₀.createdAt ∧
      epochMillis now ≤ r₀.createdAt + d)
    (hedge : 0 ≤ y → q < 0 ∨ epochMillis now ≤ r₀.createdAt + d →
      EdgeLast (q < 0 ∨ epochMillis now ≤ max b.updatedAt r₀.createdAt) y (p :: ps))
    (h : Seen s stored (epochMillis now) r₀.hashKey (some (item, .leaky b))) :
    Leaves ((p :: ps).foldl (serve conf host now) s) stored now r₀
      (windowBalance now r₀ d q y (hitsOf (p :: ps))) := by
  unfold windowBalance
  rcases lt_or_ge y 0 with hneg | hpos
  · rw [if_pos hneg]
    exact hw.debt_leaves conf hps hreset hneg (fun hq => hlost hq hneg) h
  rw [if_neg (not_lt.mpr hpos)]
  by_cases hkept : q < 0 ∨ epochMillis now ≤ r₀.createdAt + d
  · rw [if_pos hkept]
    refine hw.live_leaves conf hps hreset hpos (fun hq => ?_) ?_
      (fun hq => ⟨(hrepaid hq hpos).1, (hrepaid hq hpos).2.2⟩) (hedge hpos hkept) h
    · exact hkept.resolve_left (not_lt.mpr hq)
    · rcases hkept with hneg | hlive
      · exact (hrepaid hneg hpos).2.1
      · exact fun _ _ => .inr hlive
  · rw [if_neg hkept]
    rw [not_or, not_lt, not_le] at hkept
    exact hw.late_leaves conf hps hreset hsome hpos hkept.1 hkept.2 h

end FoundWindow

/-- What is left to come after the hits of a first request: they find its bucket, or nothing if it
    was born dead. -/
theorem leaky_rest_leaves (halg : r₀.algorithm = .leakyBucket)
    (hterms : requestTerms host now r₀ = .ok (rate, d)) (hB : 0 ≤ r₀.withBurst.burst)
    (hp : Sent r₀ p) (hps : ∀ p' ∈ ps, Sent r₀ p') (hreset : ∀ p' ∈ ps, p'.resets = false)
    (hb : Ready r₀.withBurst.burst r₀.createdAt b (spend r₀.withBurst.burst p.hits))
    (h : Seen s stored (epochMillis now) r₀.hashKey
      (if epochMillis now ≤ r₀.createdAt + d then some (item, .leaky b) else none)) :
    Leaves (ps.foldl (serve conf host now) s) stored now r₀
      (windowBalance now r₀ d r₀.withBurst.burst r₀.withBurst.burst (p.hits + hitsOf ps)) := by
  have hB' : (0 : ℚ) ≤ r₀.withBurst.burst := by exact_mod_cast hB
  have hedge : EdgeLast (epochMillis now ≤ b.updatedAt) (r₀.withBurst.burst : ℚ) (p :: ps) :=
    edgeLast_int _ _ _
  rw [windowBalance, if_neg (not_lt.mpr hB')]
  split at h
  · -- its bucket is found, in credit
    rename_i hlive
    rw [if_pos (.inr hlive)]
    have hrest := leaky_ready_run conf halg hterms (fun _ _ => .inr hlive) hps hreset
      (hedge.tail hB' id) hb h
    rwa [spend_spend hB' hp.hits (hitsOf_nonneg hps) (int_ne_add_epsilon _ _)] at hrest
  · -- it was born dead, and so is every other
    rename_i hdead
    rw [if_neg (by rw [not_or]; exact ⟨not_lt.mpr hB', hdead⟩)]
    exact ⟨none, leaky_stillborn conf halg hterms (not_le.mp hdead) hps h, full_leaky halg⟩

/-- A key without an item, or with a full bucket that is up to date. -/
def LeakyFull (r₀ : RateLimitReq) (found : Option (CacheItem × Bucket)) : Prop :=
  found = none ∨ ∃ item b, found = some (item, .leaky b) ∧
    Ready r₀.withBurst.burst r₀.createdAt b r₀.withBurst.burst

/-- **One request on a full bucket**, reset or not. -/
theorem leaky_full_step {found : Option (CacheItem × Bucket)} (hp : Sent r₀ p)
    (halg : r₀.algorithm = .leakyBucket) (hterms : requestTerms host now r₀ = .ok (rate, d))
    (hB : 0 ≤ r₀.withBurst.burst) (hfull : LeakyFull r₀ found)
    (h : Seen s stored (epochMillis now) r₀.hashKey found) :
    ∃ item' b', Ready r₀.withBurst.burst r₀.createdAt b' (spend r₀.withBurst.burst p.hits) ∧
      Seen (serve conf host now s p) stored (epochMillis now) r₀.hashKey
        (if (p.hits = 0 ∧ found ≠ none) ∨ epochMillis now ≤ r₀.createdAt + d then
          some (item', .leaky b') else none) := by
  rcases hfull with rfl | ⟨item, b, rfl, hb⟩
  · -- no item: the request makes one
    obtain ⟨item', b', hseen, hb'⟩ := leaky_first conf hp halg hterms h
    exact ⟨item', b', hb' hB, by simpa using hseen⟩
  · cases hreset : p.resets with
    | false =>
      obtain ⟨item', b', hseen, -, -, hb', -⟩ := leaky_ready_step conf hp halg hterms hreset hb h
      exact ⟨item', b', hb' (int_ne_add_epsilon _ _), by simpa using hseen⟩
    | true =>
      -- a full bucket is not in debt, so the reset goes by the request's time
      obtain ⟨item', b', hseen, hb'⟩ := leaky_reset_step conf hp halg hterms hreset hB
        (fun hneg => absurd hneg hb.not_neg) h
      rw [if_neg hb.not_neg] at hseen
      exact ⟨item', b', hb', by simpa using hseen⟩

/-- Requests without hits leave it full. -/
theorem leaky_full_queries {found : Option (CacheItem × Bucket)}
    (halg : r₀.algorithm = .leakyBucket) (hterms : requestTerms host now r₀ = .ok (rate, d))
    (hB : 0 ≤ r₀.withBurst.burst) (hps : ∀ p ∈ ps, Sent r₀ p) (hzero : ∀ p ∈ ps, p.hits = 0)
    (hfull : LeakyFull r₀ found) (h : Seen s stored (epochMillis now) r₀.hashKey found) :
    ∃ found', LeakyFull r₀ found' ∧
      Seen (ps.foldl (serve conf host now) s) stored (epochMillis now) r₀.hashKey found' := by
  induction ps generalizing s found with
  | nil => exact ⟨found, hfull, h⟩
  | cons p ps ih =>
    obtain ⟨hp, hps'⟩ := List.forall_mem_cons.mp hps
    obtain ⟨h0, hzero'⟩ := List.forall_mem_cons.mp hzero
    obtain ⟨item', b', hb', hseen⟩ := leaky_full_step conf hp halg hterms hB hfull h
    rw [h0, spend_zero] at hb'
    refine ih hps' hzero' ?_ hseen
    split
    · exact .inr ⟨item', b', rfl, hb'⟩
    · exact .inl rfl

/-- Queries add nothing to the sum. -/
theorem hitsOf_queries {zs : List RateLimitReq} (hzero : ∀ z ∈ zs, z.hits = 0) (p : RateLimitReq)
    (ps : List RateLimitReq) : hitsOf (zs ++ p :: ps) = p.hits + hitsOf ps := by
  induction zs with
  | nil => exact hitsOf_cons p ps
  | cons z zs ih =>
    obtain ⟨h0, hzero'⟩ := List.forall_mem_cons.mp hzero
    rw [List.cons_append, hitsOf_cons, h0, ih hzero', zero_add]

/-- **A window on a key without an item**: no reset after its first request with hits.  A burst
    below zero does not matter to items that are born dead. -/
theorem leaky_new_leaves {zs : List RateLimitReq} (halg : r₀.algorithm = .leakyBucket)
    (hterms : requestTerms host now r₀ = .ok (rate, d))
    (hB : epochMillis now ≤ r₀.createdAt + d → 0 ≤ r₀.withBurst.burst)
    (hzs : ∀ z ∈ zs, Sent r₀ z) (hzero : ∀ z ∈ zs, z.hits = 0) (hp : Sent r₀ p)
    (hhits : p.hits ≠ 0) (hps : ∀ p' ∈ ps, Sent r₀ p') (hreset : ∀ p' ∈ ps, p'.resets = false)
    (h : Seen s stored (epochMillis now) r₀.hashKey none) :
    Leaves ((zs ++ p :: ps).foldl (serve conf host now) s) stored now r₀
      (windowBalance now r₀ d r₀.withBurst.burst r₀.withBurst.burst (hitsOf (zs ++ p :: ps))) := by
  by_cases hlive : epochMillis now ≤ r₀.createdAt + d
  swap
  · -- born dead, all of them, and a key without an item is full
    have hall : ∀ p' ∈ zs ++ p :: ps, Sent r₀ p' :=
      List.forall_mem_append.mpr ⟨hzs, List.forall_mem_cons.mpr ⟨hp, hps⟩⟩
    have hfull : windowBalance now r₀ d r₀.withBurst.burst r₀.withBurst.burst
        (hitsOf (zs ++ p :: ps)) = .fin r₀.withBurst.burst := by
      unfold windowBalance
      split
      · rfl
      · rename_i hpos
        exact if_neg (by rw [not_or]; exact ⟨hpos, hlive⟩)
    rw [hfull]
    exact ⟨none, leaky_stillborn conf halg hterms (not_le.mp hlive) hall h, full_leaky halg⟩
  have hB := hB hlive
  -- the queries before the first hits leave the key full, with an item or without
  obtain ⟨found, hfull, hseen⟩ :=
    leaky_full_queries conf halg hterms hB hzs hzero (.inl rfl) h
  obtain ⟨item', b', hb', hseen'⟩ := leaky_full_step conf hp halg hterms hB hfull hseen
  simp only [hhits, false_and, false_or] at hseen'
  rw [List.foldl_append, List.foldl_cons, hitsOf_queries hzero]
  exact leaky_rest_leaves conf halg hterms hB hp hps hreset hb' hseen'

/-! ### Windows that reset

A reset by the first request with hits fills the bucket, whatever the queries before it have made
of it.  What can go wrong is the clock: a bucket in debt is reset at the owner's, and the requests
after the reset go by their own.  So either the bucket is never in debt before the reset, or the two
clocks agree well enough (`hcalm` of `leaky_reset_leaves`). -/

/-- Requests without hits keep a bucket found, and keep the window's time from being ahead of a
    debt's clock. -/
theorem leaky_queries_timed (halg : r₀.algorithm = .leakyBucket)
    (hterms : requestTerms host now r₀ = .ok (rate, d)) (hps : ∀ p ∈ ps, Sent r₀ p)
    (hzero : ∀ p ∈ ps, p.hits = 0)
    (htimed : b.remaining < 0 → r₀.createdAt ≤ max b.updatedAt (epochMillis now))
    (h : Seen s stored (epochMillis now) r₀.hashKey (some (item, .leaky b))) :
    ∃ item' b', Seen (ps.foldl (serve conf host now) s) stored (epochMillis now) r₀.hashKey
        (some (item', .leaky b')) ∧
      (b'.remaining < 0 → r₀.createdAt ≤ max b'.updatedAt (epochMillis now)) := by
  induction ps generalizing s item b with
  | nil => exact ⟨item, b, h, htimed⟩
  | cons p ps ih =>
    obtain ⟨hp, hps'⟩ := List.forall_mem_cons.mp hps
    obtain ⟨h0, hzero'⟩ := List.forall_mem_cons.mp hzero
    have hspends := hp.spends hterms
    obtain ⟨tm, htm, -⟩ := hspends.leakyTerms b
    obtain ⟨item', hseen⟩ := leaky_query conf hp halg h0 htm h
    refine ih hps' hzero' (fun _ => ?_) hseen
    rw [credited_updatedAt, hspends.createdAt htm, hp.withBurst_createdAt]
    -- the query moves `updatedAt` to the owner's clock for a debt, and to its own time for credit
    by_cases hneg : b.remaining < 0
    · have := htimed hneg
      rw [if_pos hneg]
      omega
    · rw [if_neg hneg]
      omega

/-- Requests without hits on a bucket in credit leave it so. -/
theorem leaky_queries_ready (halg : r₀.algorithm = .leakyBucket)
    (hterms : requestTerms host now r₀ = .ok (rate, d)) (hB : 0 ≤ r₀.withBurst.burst)
    (hps : ∀ p ∈ ps, Sent r₀ p) (hzero : ∀ p ∈ ps, p.hits = 0) {y : ℚ}
    (hb : Ready r₀.withBurst.burst r₀.createdAt b y)
    (h : Seen s stored (epochMillis now) r₀.hashKey (some (item, .leaky b))) :
    ∃ item' b', Seen (ps.foldl (serve conf host now) s) stored (epochMillis now) r₀.hashKey
        (some (item', .leaky b')) ∧ ¬ b'.remaining < 0 := by
  induction ps generalizing s item b y with
  | nil => exact ⟨item, b, h, hb.not_neg⟩
  | cons p ps ih =>
    obtain ⟨hp, hps'⟩ := List.forall_mem_cons.mp hps
    obtain ⟨h0, hzero'⟩ := List.forall_mem_cons.mp hzero
    cases hreset : p.resets with
    | false =>
      obtain ⟨item', b', hseen, -, -, hb', -⟩ := leaky_ready_step conf hp halg hterms hreset hb h
      rw [if_pos (.inl h0)] at hseen
      rw [h0] at hb'
      exact ih hps' hzero' (hb' (zero_ne_add_epsilon hb.credit)) hseen
    | true =>
      obtain ⟨item', b', hseen, hb'⟩ := leaky_reset_step conf hp halg hterms hreset hB
        (fun hneg => absurd hneg hb.not_neg) h
      rw [if_pos (.inl h0)] at hseen
      exact ih hps' hzero' hb' hseen

/-- The same on a bucket that only the first of them brings up to date. -/
theorem leaky_queries_credit (halg : r₀.algorithm = .leakyBucket)
    (hterms : requestTerms host now r₀ = .ok (rate, d)) (hB : 0 ≤ r₀.withBurst.burst)
    (hps : ∀ p ∈ ps, Sent r₀ p) (hzero : ∀ p ∈ ps, p.hits = 0) {q : ℚ}
    (hq : b.remaining = .fin q) (hcredit : 0 ≤ q)
    (hkept : ∀ p ∈ ps, p.resets = false → ∃ y, BroughtTo host now p b y ∧ 0 ≤ y)
    (h : Seen s stored (epochMillis now) r₀.hashKey (some (item, .leaky b))) :
    ∃ item' b', Seen (ps.foldl (serve conf host now) s) stored (epochMillis now) r₀.hashKey
        (some (item', .leaky b')) ∧ ¬ b'.remaining < 0 := by
  have hnot : ¬ b.remaining < 0 := by
    rw [hq, fin_lt_zero]
    exact not_lt.mpr hcredit
  cases ps with
  | nil => exact ⟨item, b, h, hnot⟩
  | cons p ps =>
    obtain ⟨hp, hps'⟩ := List.forall_mem_cons.mp hps
    obtain ⟨h0, hzero'⟩ := List.forall_mem_cons.mp hzero
    rw [List.foldl_cons]
    cases hreset : p.resets with
    | true =>
      obtain ⟨item', b', hseen, hb'⟩ := leaky_reset_step conf hp halg hterms hreset hB
        (fun hneg => absurd hneg hnot) h
      rw [if_pos (.inl h0)] at hseen
      exact leaky_queries_ready conf halg hterms hB hps' hzero' hb' hseen
    | false =>
      -- not reset, and still in credit once it is brought up to date
      obtain ⟨y, ⟨tm, htm, hy⟩, hpos⟩ := hkept p List.mem_cons_self hreset
      obtain ⟨item', hseen⟩ := leaky_query conf hp halg h0 htm h
      have hready := ready_of_credited (hp.spends hterms) htm hq hy hpos
        (fun hneg => absurd hneg (not_lt.mpr hcredit))
      rw [hp.withBurst_burst, hp.withBurst_createdAt] at hready
      exact leaky_queries_ready conf halg hterms hB hps' hzero' hready hseen

/-- **A window whose first request with hits resets** a found bucket.  A debt is reset at the
    owner's clock, so that clock must not be behind the request's, nor past its end. -/
theorem leaky_reset_leaves {zs : List RateLimitReq} (halg : r₀.algorithm = .leakyBucket)
    (hterms : requestTerms host now r₀ = .ok (rate, d)) (hB : 0 ≤ r₀.withBurst.burst)
    (hzs : ∀ z ∈ zs, Sent r₀ z) (hzero : ∀ z ∈ zs, z.hits = 0) (hp : Sent r₀ p)
    (hhits : p.hits ≠ 0) (hpreset : p.resets = true) (hps : ∀ p' ∈ ps, Sent r₀ p')
    (hreset : ∀ p' ∈ ps, p'.resets = false) {q : ℚ} (hq : b.remaining = .fin q)
    (hcalm : (0 ≤ q ∧ ∀ z ∈ zs, z.resets = false → ∃ y, BroughtTo host now z b y ∧ 0 ≤ y) ∨
      epochMillis now ≤ r₀.createdAt + d ∧ 0 ≤ d ∧
        (q < 0 → r₀.createdAt ≤ max b.updatedAt (epochMillis now)))
    (h : Seen s stored (epochMillis now) r₀.hashKey (some (item, .leaky b))) :
    Leaves ((zs ++ p :: ps).foldl (serve conf host now) s) stored now r₀
      (windowBalance now r₀ d r₀.withBurst.burst r₀.withBurst.burst (hitsOf (zs ++ p :: ps))) := by
  rw [List.foldl_append, List.foldl_cons, hitsOf_queries hzero]
  rcases hcalm with ⟨hcredit, hkept⟩ | ⟨hlive, hd, htimed⟩
  · -- in credit up to the reset, which then goes by the request's time
    obtain ⟨item₁, b₁, h₁, hnot⟩ :=
      leaky_queries_credit conf halg hterms hB hzs hzero hq hcredit hkept h
    obtain ⟨item', b', hseen, hb'⟩ := leaky_reset_step conf hp halg hterms hpreset hB
      (fun hneg => absurd hneg hnot) h₁
    simp only [hhits, false_or, if_neg hnot] at hseen
    exact leaky_rest_leaves conf halg hterms hB hp hps hreset hb' hseen
  · -- perhaps in debt: in time on either clock
    obtain ⟨item₁, b₁, h₁, htimed₁⟩ := leaky_queries_timed conf halg hterms hzs hzero
      (fun hneg => htimed (by rwa [hq, fin_lt_zero] at hneg)) h
    obtain ⟨item', b', hseen, hb'⟩ :=
      leaky_reset_step conf hp halg hterms hpreset hB htimed₁ h₁
    have hx : epochMillis now ≤
        (if b₁.remaining < 0 then epochMillis now else r₀.createdAt) + d := by
      split <;> omega
    rw [if_pos (.inr hx)] at hseen
    exact leaky_rest_leaves conf halg hterms hB hp hps hreset hb'
      (by rw [if_pos hlive]; exact hseen)

end Leaky

end Gubernator
