/-
  EXPIRY hands out nothing extra: an item that the cache drops would have been full again.

  Dropping an item makes the next request create a full bucket, so it may only happen once the
  leak has filled the old one.  A bucket of `q` tokens, current at `u`, is full at
  `u + (burst - q) * ρ`; the item is kept until `x`.  What carries the argument is `Covered`,
  which says how far that moment may lie past `x`:

  * a balance that is not negative may be full one millisecond late, since an item that expires
    at `x` is dropped at `x + 1` at the earliest — the snap of a fraction of a token at most
    loses that much, once, when a debt clears;
  * a debt must be full in time, but for the one of exactly `1e-9` tokens that a plain request
    may leave.

  The duration covers the refill of an empty bucket only while the burst is at most the limit.

  `Covered.refreshed` is the step for the leak, `Settlement.covered` for a whole request, and
  `serveLeaky_lasting` for the item in cache and Store; the run follows by the invariant rule.  Two
  hypotheses are there for a reason: with a burst above the limit the item is dropped before it is
  full (`expired_item_half_full`), and the drain of a key whose stored debt has been paid meanwhile
  leaves an empty bucket without making the item stay longer.
-/
import Gubernator.Leaky.Conformance
import Gubernator.Leaky.Settle

namespace Gubernator

open ExactFloat

/-! ## The moment the bucket is full, against the expiry -/

/-- An item of `q` tokens, current at `u` and kept until `x`, is full by the time it can be
    dropped. -/
inductive Covered (burst : ℤ) (ρ : ℚ) (u x : ℤ) (q : ℚ) : Prop
  | credit (snapped : q = 0 ∨ epsilon ≤ q) (le : q ≤ burst)
      (full : u + (burst - q) * ρ ≤ max (x + 1 : ℚ) u)
  | debt (neg : q ≤ -epsilon) (full : u + (burst - q) * ρ ≤ x)
  | edge (least : q = -epsilon) (full : u + burst * ρ ≤ x)

section Covered
variable {burst : ℤ} {ρ : ℚ} {u x x' t : ℤ} {q : ℚ}

/-- A longer stay covers no less. -/
theorem Covered.mono (h : Covered burst ρ u x q) (hx : x ≤ x') : Covered burst ρ u x' q := by
  have hx' : (x : ℚ) ≤ x' := by exact_mod_cast hx
  cases h with
  | credit snapped le full =>
    exact .credit snapped le (full.trans (max_le_max (by linarith) le_rfl))
  | debt neg full => exact .debt neg (full.trans hx')
  | edge least full => exact .edge least (full.trans hx')

/-- A covered balance is within the burst. -/
theorem Covered.le_burst (h : Covered burst ρ u x q) (hB : 0 ≤ burst) : q ≤ burst := by
  have hB' : (0 : ℚ) ≤ burst := by exact_mod_cast hB
  have hε := epsilon_pos
  cases h with
  | credit _ le _ => exact le
  | debt neg _ => linarith
  | edge least _ => linarith

/-- A covered balance has been snapped already. -/
theorem Covered.snap_eq (h : Covered burst ρ u x q) : snap q = q := by
  cases h with
  | credit snapped _ _ =>
    rcases snapped with rfl | hq
    · exact_mod_cast snap_int 0
    · exact snap_of_ge hq
  | debt neg _ => exact snap_of_le neg
  | edge least _ => exact snap_of_le least.le

/-- **What being covered is for**: dropped at `t`, the item would be full. -/
theorem Covered.full_of_expired (h : Covered burst ρ u x q) (hρ : 0 < ρ)
    (hslow : epsilon * ρ ≤ 1) (hx : x < t) (hu : u ≤ t) :
    (burst : ℚ) ≤ balanceAt u q ρ t := by
  have hx' : (x : ℚ) + 1 ≤ t := by exact_mod_cast hx
  have hu' : (u : ℚ) ≤ t := by exact_mod_cast hu
  -- all three say that the bucket is full by the first millisecond after `x`
  have hfull : u + (burst - q) * ρ ≤ t := by
    cases h with
    | credit _ _ full => exact full.trans (max_le hx' hu')
    | debt _ full => linarith
    -- the missing `1e-9` tokens leak in within that millisecond
    | edge least full =>
      rw [least]
      linarith
  have : (burst : ℚ) - q ≤ (t - u) / ρ := by
    rw [le_div_iff₀ hρ]
    linarith
  rw [balanceAt, max_eq_right hu]
  linarith

/-- A full bucket is covered by any expiry. -/
theorem covered_burst (hB : 1 ≤ burst) : Covered burst ρ t x burst := by
  have hB' : (1 : ℚ) ≤ burst := by exact_mod_cast hB
  refine .credit (.inr ?_) le_rfl ?_
  · norm_num [epsilon]
    linarith
  · rw [sub_self, zero_mul, add_zero]
    exact le_max_right _ _

/-- Leaking on from `u` to `t` moves the moment of being full only where the burst cuts off. -/
theorem covered_leaked (hρ : 0 < ρ) (hB : 1 ≤ burst) (hu : u ≤ t)
    (hpos : epsilon ≤ q + (t - u) / ρ) (hfull : u + (burst - q) * ρ ≤ max (x + 1 : ℚ) u) :
    Covered burst ρ t x (snap (min burst (q + (t - u) / ρ))) := by
  have hB' : (1 : ℚ) ≤ burst := by exact_mod_cast hB
  have hε : epsilon ≤ 1 := by norm_num [epsilon]
  have hu' : (u : ℚ) ≤ t := by exact_mod_cast hu
  -- full, or on the same line as before: the moment it is full at has not moved
  rcases le_total (burst : ℚ) (q + (t - u) / ρ) with hcap | hcap
  · rw [min_eq_left hcap, snap_int]
    exact covered_burst hB
  rw [min_eq_right hcap, snap_of_ge hpos]
  refine .credit (.inr hpos) hcap ?_
  have hmove : t + (burst - (q + (t - u) / ρ)) * ρ = u + (burst - q) * ρ := by
    field_simp
    ring
  rw [hmove]
  exact hfull.trans (max_le_max le_rfl hu')

/-- **A request that only brings the balance up to date** keeps the item covered, with the
    expiry it had. -/
theorem Covered.refreshed (h : Covered burst ρ u x q) (hρ : 0 < ρ) (hslow : epsilon * ρ ≤ 1)
    (hB : 1 ≤ burst) (hu : u ≤ t) (reset : Bool) :
    Covered burst ρ t x (refreshed burst ρ reset u q t) := by
  unfold Gubernator.refreshed
  split
  · -- a reset
    exact covered_burst hB
  have hε := epsilon_pos
  have hB' : (1 : ℚ) ≤ burst := by exact_mod_cast hB
  have hε1 : epsilon ≤ 1 := by norm_num [epsilon]
  have hu' : (u : ℚ) ≤ t := by exact_mod_cast hu
  rw [balanceAt, max_eq_right hu]
  rcases eq_or_lt_of_le hu with rfl | hlt
  · -- no time has passed
    rw [sub_self, zero_div, add_zero]
    cases h with
    | credit snapped le full =>
      rw [min_eq_right le, (Covered.credit snapped le full).snap_eq]
      exact .credit snapped le full
    | debt neg full =>
      rw [min_eq_right (by linarith), snap_of_le neg]
      exact .debt neg full
    | edge least full =>
      rw [min_eq_right (by linarith), snap_of_le least.le]
      exact .edge least full
  -- a millisecond leaks in at least `1e-9` tokens
  have hms : (u : ℚ) + 1 ≤ t := by exact_mod_cast hlt
  have hleak : epsilon ≤ (t - u) / ρ := by
    rw [le_div_iff₀ hρ]
    linarith
  have hback : (t - u) / ρ * ρ = t - u := div_mul_cancel₀ _ hρ.ne'
  cases h with
  | credit snapped le full =>
    refine covered_leaked hρ hB hu ?_ full
    rcases snapped with rfl | hq <;> linarith
  | debt neg full =>
    rcases snap_cases (min burst (q + (t - u) / ρ)) with ⟨hlow, hhigh, hzero⟩ | ⟨hout, hsame⟩
    · -- cleared to within the snap, which costs less than a millisecond
      have hsmall : q + (t - u) / ρ < epsilon := by
        rcases min_lt_iff.mp hhigh with h | h
        · linarith
        · exact h
      rw [hzero]
      refine .credit (.inl rfl) (by linarith) (le_max_of_le_left ?_)
      have := mul_le_mul_of_nonneg_right hsmall.le hρ.le
      rw [add_mul, hback] at this
      linarith
    · -- still in debt, on the same line, or in credit by now
      rcases hout with hneg | hpos
      · have hw : min (burst : ℚ) (q + (t - u) / ρ) = q + (t - u) / ρ := by
          rcases min_le_iff.mp hneg with h | h
          · linarith
          · exact min_eq_right (by linarith)
        rw [hsame]
        rw [hw] at hneg ⊢
        refine .debt hneg ?_
        have hmove : t + (burst - (q + (t - u) / ρ)) * ρ = u + (burst - q) * ρ := by
          rw [sub_mul, add_mul, hback]
          ring
        rw [hmove]
        exact full
      · refine covered_leaked hρ hB hu (hpos.trans (min_le_right _ _)) ?_
        exact full.trans (le_max_of_le_left (by linarith))
  | edge least full =>
    subst least
    rcases lt_or_ge (-epsilon + (t - u) / ρ) epsilon with hsmall | hpos
    · -- the first millisecond clears it: a second would have leaked in twice the `1e-9`
      have hfirst : (t : ℚ) ≤ u + 1 := by
        have hlt2 : (t : ℚ) - u < 2 := by
          have := mul_lt_mul_of_pos_right hsmall hρ
          rw [add_mul, hback] at this
          linarith
        have : t < u + 2 := by exact_mod_cast (by linarith : (t : ℚ) < u + 2)
        exact_mod_cast (by omega : t ≤ u + 1)
      have hzero : snap (min (burst : ℚ) (-epsilon + (t - u) / ρ)) = 0 := by
        rw [min_eq_right (by linarith)]
        rcases snap_cases (-epsilon + (t - u) / ρ) with ⟨-, -, h0⟩ | ⟨hneg | hpos, -⟩
        · exact h0
        · linarith
        · linarith
      rw [hzero]
      exact .credit (.inl rfl) (by linarith) (le_max_of_le_left (by linarith))
    · refine covered_leaked hρ hB hu hpos (le_max_of_le_left ?_)
      linarith

/-- Hits taken from a balance that is not negative: an expiry that covers an empty bucket covers
    what they leave. -/
theorem covered_admitted {y : ℚ} {hits : ℤ} (hρ : 0 < ρ) (hpos : 0 < hits) (hy : y ≤ burst)
    (henough : (hits : ℚ) ≤ y + epsilon) (hx : t + burst * ρ ≤ x) :
    Covered burst ρ t x (snap (y - hits)) := by
  have hpos' : (0 : ℚ) < hits := by exact_mod_cast hpos
  have hempty : ∀ z : ℚ, 0 ≤ z → t + (burst - z) * ρ ≤ max (x + 1 : ℚ) t := by
    intro z hz
    have := mul_nonneg hz hρ.le
    exact le_max_of_le_left (by linarith)
  rcases snap_cases (y - hits) with ⟨hlow, -, hzero⟩ | ⟨hneg | hcredit, hsame⟩
  · rw [hzero]
    refine .credit (.inl rfl) ?_ (hempty 0 le_rfl)
    have : 0 ≤ burst := by
      refine nonneg_of_neg_epsilon_lt ?_
      linarith
    exact_mod_cast this
  · -- an admission leaves `-1e-9` at the least
    have hedge : y - hits = -epsilon := le_antisymm hneg (by linarith)
    rw [hsame, hedge]
    exact .edge rfl hx
  · rw [hsame]
    have hε := epsilon_pos
    exact .credit (.inr hcredit) (by linarith) (hempty _ (by linarith))

/-- An expiry no earlier than the moment the bucket is full. -/
theorem covered_of_full (hsnap : snap q = q) (hB : q ≤ burst) (hx : u + (burst - q) * ρ ≤ x) :
    Covered burst ρ u x q := by
  rcases snap_cases q with ⟨-, -, h0⟩ | ⟨hneg | hpos, -⟩
  · exact .credit (.inl (hsnap.symm.trans h0)) hB (le_max_of_le_left (by linarith))
  · exact .debt hneg hx
  · exact .credit (.inr hpos) hB (le_max_of_le_left (by linarith))

end Covered

/-! ## A request

What a request does to the balance is its `Settlement`.  A refusal or an admission on a key without
debt extends the item by the duration, which covers an empty bucket; a booking, and an admission on
a key in debt, extend it to the moment the bucket is full. -/

/-- **A request under unchanged terms keeps the item covered**, unless it drains a key that was in
    debt. -/
theorem Settlement.covered {r : RateLimitReq} {ceiling t : ℤ} {b : LeakyBucketItem} {q : ℚ}
    {x : ℤ} {out : LeakyOutcome} {ρ y : ℚ} (h : Settlement r ceiling t b q x out ρ y)
    (hc : Covered b.burst ρ b.updatedAt x q) (hρ : 0 < ρ) (hslow : epsilon * ρ ≤ 1)
    (hB : 1 ≤ b.burst) (hu : b.updatedAt ≤ t) (hhits : 0 ≤ r.hits)
    (hrefill : b.burst * ρ ≤ r.duration)
    (hdrain : hasBehavior r.behavior .drainOverLimit = true → 0 ≤ q) :
    ∃ q', out.b = { b with remaining := .fin q', updatedAt := t } ∧
      Covered b.burst ρ t out.expireAt q' := by
  have hy : Covered b.burst ρ t x y := by
    rw [h.refreshed]
    exact hc.refreshed hρ hslow hB hu _
  have hle : y ≤ b.burst := hy.le_burst (by omega)
  have hbucket := h.bucket
  have hfull := h.full
  have hstatus := h.status
  rw [max_eq_right hu] at hbucket hfull hstatus
  refine ⟨_, hbucket, ?_⟩
  rcases eq_or_lt_of_le hhits with h0 | hpos
  · rw [settle, if_pos h0.symm, h.query h0.symm]
    exact hy
  -- hits beyond the balance by more than `1e-9` leave a debt that is not snapped
  have hbooked : (r.hits : ℚ) > y + epsilon → snap (y - r.hits) = y - r.hits := by
    intro hshort
    exact snap_of_le (by linarith)
  have hpos' : (0 : ℚ) < r.hits := by exact_mod_cast hpos
  rcases settle_cases b.burst ρ (t - t) ceiling hpos hle with
    ⟨-, -, hkept | ⟨hflag, hdrained⟩⟩ | ⟨hunder, henough, hleft⟩ | ⟨hscheduled, hshort, hleft⟩
  · -- refused
    rw [hkept]
    by_cases hdebt : q < 0 ∧ hasBehavior r.behavior .resetRemaining = false
    · exact hy.mono (h.longer (fun hn => hn.2 hdebt))
    · have hy0 : 0 ≤ y := h.nonneg_of_clear (by omega) hρ hdebt
      have hx := h.touched hpos.ne' hdebt
      have hx' : (t : ℚ) + r.duration ≤ out.expireAt := by exact_mod_cast hx
      refine covered_of_full hy.snap_eq hle ?_
      have := mul_nonneg hy0 hρ.le
      linarith
  · -- drained, so the key was not in debt
    have hq := hdrain hflag
    have hclear : ¬ (q < 0 ∧ hasBehavior r.behavior .resetRemaining = false) :=
      fun hn => absurd hn.1 (not_lt.mpr hq)
    have hx' : (t : ℚ) + r.duration ≤ out.expireAt := by
      exact_mod_cast h.touched hpos.ne' hclear
    rw [hdrained, min_eq_right (h.nonneg_of_clear (by omega) hρ hclear)]
    refine covered_of_full (by exact_mod_cast snap_int 0) (by exact_mod_cast by omega) ?_
    linarith
  · -- admitted, with the expiry put back to the moment it is full if the key was in debt
    rw [hleft]
    by_cases hdebt : q < 0 ∧ hasBehavior r.behavior .resetRemaining = false
    · refine covered_of_full (snap_snap _) (snap_le_int (by linarith)) ?_
      rw [← hleft]
      exact hfull (.inr ⟨hpos, hstatus.trans hunder, hdebt.1, hdebt.2⟩)
    · have hx' : (t : ℚ) + r.duration ≤ out.expireAt := by
        exact_mod_cast h.touched hpos.ne' hdebt
      exact covered_admitted hρ hpos hle henough (by linarith)
  · -- booked
    rw [hleft]
    refine covered_of_full (hbooked hshort) (by linarith) ?_
    rw [← hleft]
    exact hfull (.inl (hstatus.trans hscheduled))

/-! ## Runs under fixed terms

The terms stay the same, so the rate does, and the line a balance rises on is one line for the whole
run. -/

/-- One key under one limit, duration and burst, the clock never going back and stamped on every
    request, no refund and no Gregorian request. -/
@[mk_iff] structure FixedTerms (key : String) (limit duration burst : ℤ) (o : Owner)
    (a : Arrival) : Prop where
  clock_le : o.clock ≤ a.now
  sameKey : a.req.hashKey = key
  sameLimit : a.req.limit = limit
  sameDuration : a.req.duration = duration
  sameBurst : a.req.withBurst.burst = burst
  created : a.req.createdAt = epochMillis a.now
  hits : 0 ≤ a.req.hits
  noGregorian : hasBehavior a.req.behavior .durationIsGregorian = false

instance (key : String) (limit duration burst : ℤ) (o : Owner) (a : Arrival) :
    Decidable (FixedTerms key limit duration burst o a) :=
  decidable_of_iff _ (fixedTerms_iff key limit duration burst o a).symm

/-- The request would drain a key whose stored balance is negative. -/
def drainsDebt (o : Owner) (a : Arrival) : Bool :=
  hasBehavior a.req.behavior .drainOverLimit &&
    match o.shard.find (epochMillis a.now) a.req with
    | some (_, .leaky b) => decide (b.remaining < 0)
    | _ => false

/-- The item of a key under fixed terms, covered by its expiry; `t` is the clock in
    milliseconds. -/
structure LastingItem (key : String) (limit duration burst t : ℤ) (item : CacheItem) : Prop where
  key_eq : item.key = key
  valid : item.invalidAt = 0
  held : ∃ b q, item.value = some (.leaky b) ∧ b.limit = limit ∧ b.duration = duration ∧
    b.burst = burst ∧ b.remaining = .fin q ∧ b.updatedAt ≤ t ∧
    Covered burst (duration / limit) b.updatedAt item.expireAt q

section Run
variable {host : Host} {key : String} {limit duration burst : ℤ} {o : Owner} {a : Arrival}

/-- The request has the terms of the item. -/
theorem FixedTerms.same (ha : FixedTerms key limit duration burst o a) {b : LeakyBucketItem}
    (hl : b.limit = limit) (hd : b.duration = duration) (hB : b.burst = burst) :
    SameTerms a.req.withBurst b :=
  ⟨by rw [hl, withBurst_limit, ha.sameLimit], by rw [hd, withBurst_duration, ha.sameDuration],
    by rw [hB, ha.sameBurst]⟩

/-- **The settlement of a request** on an item of the key. -/
theorem FixedTerms.settlement (ha : FixedTerms key limit duration burst o a) (hl : 0 < limit)
    (hd : 0 < duration) {b : LeakyBucketItem} {q : ℚ} {x : ℤ} {out : LeakyOutcome}
    (hlimit : b.limit = limit) (hduration : b.duration = duration) (hburst : b.burst = burst)
    (hq : b.remaining = .fin q)
    (hout : leakyBucketItem host a.now a.req.withBurst a.reqState b x = .ok out) :
    ∃ y, Settlement a.req.withBurst a.reqState.ceiling (epochMillis a.now) b q x out
      (duration / limit) y := by
  have hrate : ((a.req.withBurst.duration : ℚ) / a.req.withBurst.limit) = duration / limit := by
    rw [withBurst_duration, withBurst_limit, ha.sameDuration, ha.sameLimit]
  rw [← hrate]
  refine (ha.same hlimit hduration hburst).settlement hout ?_ ?_ ?_ ?_ ?_ hq
  · rw [withBurst_limit, ha.sameLimit]
    exact hl
  · rw [withBurst_duration, ha.sameDuration]
    exact hd
  · rw [withBurst_behavior, ha.noGregorian]
  · rw [withBurst_createdAt, ha.created]
  · rw [withBurst_hits]
    exact ha.hits

/-- The duration covers the refill of an empty bucket while the burst is at most the limit. -/
theorem burst_span (hl : 0 < limit) (hd : 0 < duration) (hBL : burst ≤ limit) :
    (burst : ℚ) * (duration / limit) ≤ duration := by
  have hl' : (0 : ℚ) < limit := by exact_mod_cast hl
  have hd' : (0 : ℚ) < duration := by exact_mod_cast hd
  have hBL' : (burst : ℚ) ≤ limit := by exact_mod_cast hBL
  have := mul_le_mul_of_nonneg_right hBL' (div_pos hd' hl').le
  rwa [mul_div_cancel₀ _ hl'.ne'] at this

/-- A token every `1e9` milliseconds: one of them leaks in `1e-9` tokens. -/
theorem leak_per_ms (hl : 0 < limit) (hslow : duration ≤ 1000000000 * limit) :
    epsilon * (duration / limit) ≤ 1 := by
  have hl' : (0 : ℚ) < limit := by exact_mod_cast hl
  have hslow' : (duration : ℚ) ≤ 1000000000 * limit := by exact_mod_cast hslow
  rw [← mul_div_assoc, div_le_one hl', epsilon]
  linarith

/-- A new bucket is covered by the duration it is kept for. -/
theorem newBalance_covered (hl : 0 < limit) (hd : 0 < duration) (hB : 1 ≤ burst)
    (hBL : burst ≤ limit) {r : RateLimitReq} (hburst : r.burst = burst) (t : ℤ) :
    Covered burst (duration / limit) t (t + duration) (newBalance r) := by
  have hρ : (0 : ℚ) < duration / limit := div_pos (by exact_mod_cast hd) (by exact_mod_cast hl)
  have hn : 0 ≤ newBalance r ∧ newBalance r ≤ burst := by
    unfold newBalance
    split <;> omega
  refine covered_of_full (snap_int _) (by exact_mod_cast hn.2) ?_
  have hspan := burst_span hl hd hBL
  have := mul_nonneg (by exact_mod_cast hn.1 : (0 : ℚ) ≤ newBalance r) hρ.le
  push_cast
  linarith

/-- **Step.**  A request keeps every copy of the item covered. -/
theorem serveLeaky_lasting (ha : FixedTerms key limit duration burst o a) (hl : 0 < limit)
    (hd : 0 < duration) (hB : 1 ≤ burst) (hBL : burst ≤ limit)
    (hslow : epsilon * (duration / limit) ≤ 1) (hdrain : drainsDebt o a = false)
    (h : o.shard.Holds key (LastingItem key limit duration burst (epochMillis o.clock))) :
    (serveLeaky host o a).2.shard.Holds key
      (LastingItem key limit duration burst (epochMillis a.now)) := by
  have hρ : (0 : ℚ) < duration / limit := div_pos (by exact_mod_cast hd) (by exact_mod_cast hl)
  have hclock : epochMillis o.clock ≤ epochMillis a.now := epochMillis_mono ha.clock_le
  have hsame := ha.sameKey
  rw [← hsame] at h ⊢
  refine leakyBucket_holds h (fun item hP => hP.key_eq) (fun item hP => ?_) ?_ ?_
  · -- an item nobody touches: only the clock has moved
    obtain ⟨hk, hv, b, q, hb, h1, h2, h3, hq, hu, hc⟩ := hP
    exact ⟨hk, hv, b, q, hb, h1, h2, h3, hq, hu.trans hclock, hc⟩
  · -- the item found is settled
    rintro item b out ⟨hk, hv, b₁, q, hb₁, hlimit, hduration, hburst, hq, hu, hc⟩ hfind hout -
    obtain rfl : b₁ = b := by
      have := (Shard.find_key hfind).2.1
      rw [hb₁] at this
      exact Bucket.leaky.inj (Option.some.inj this)
    obtain ⟨y, hsettled⟩ := ha.settlement hl hd hlimit hduration hburst hq hout
    have hspan := burst_span hl hd hBL
    obtain ⟨q', hbucket, hcovered⟩ := hsettled.covered (hburst ▸ hc) hρ hslow (by omega)
      (hu.trans hclock) (by simpa using ha.hits) (by simpa [hburst, ha.sameDuration] using hspan)
      (fun hflag => by
        rw [withBurst_behavior] at hflag
        simpa [drainsDebt, hflag, hfind, hq] using hdrain)
    refine ⟨hk, hv, out.b, q', rfl, ?_, ?_, ?_, ?_, ?_, ?_⟩
    · rw [hbucket]
      exact hlimit
    · rw [hbucket]
      exact hduration
    · rw [hbucket]
      exact hburst
    · rw [hbucket]
    · rw [hbucket]
    · rw [hburst] at hcovered
      rw [hbucket]
      exact hcovered
  · -- a new item
    intro createdAt length hcreated hlength
    rw [ha.created, ite_self] at hcreated
    rw [hlength ha.noGregorian, hcreated, ha.sameDuration]
    exact ⟨withBurst_hashKey a.req, rfl, _, _, rfl, by simp [newLeakyBucket, ha.sameLimit], rfl,
      ha.sameBurst, rfl, le_rfl, newBalance_covered hl hd hB hBL ha.sameBurst _⟩

end Run

/-- **Expiry hands out nothing extra**: an item that `GetItem` drops would have been full, on a
    key whose burst is at most its limit and whose tokens take at most `1e9` milliseconds, in a
    run that never drains a key in debt. -/
theorem expired_item_is_full (host : Host) (key : String) (limit duration burst : ℤ)
    (hl : 0 < limit) (hd : 0 < duration) (hB : 0 < burst) (hBL : burst ≤ limit)
    (hslow : duration ≤ 1000000000 * limit) (o : Owner) (run : List Arrival)
    (hc : o.shard.cache.peek key = none) (hs : o.shard.stored key = none)
    (hrun : Machine.Guarded (serveLeaky host)
      (fun o a => FixedTerms key limit duration burst o a ∧ drainsDebt o a = false) o run)
    (now : ℤ) (hnow : (Machine.exec (serveLeaky host) o run).clock ≤ now) (item : CacheItem)
    (hitem : (Machine.exec (serveLeaky host) o run).shard.cache.peek key = some item)
    (hdropped : ((Machine.exec (serveLeaky host) o run).shard.cache.getItem key
      (epochMillis now)).1 = none) :
    ∃ b, item.value = some (.leaky b) ∧
      .ofInt burst ≤ b.leaked (rateOf limit duration) (epochMillis now) := by
  have hρ : (0 : ℚ) < duration / limit := div_pos (by exact_mod_cast hd) (by exact_mod_cast hl)
  have hrate := leak_per_ms hl hslow
  have hlasting := Machine.invariant_rule
    (P := fun o => o.shard.Holds key (LastingItem key limit duration burst (epochMillis o.clock)))
    (fun o a hok h => serveLeaky_lasting hok.1 hl hd hB hBL hrate hok.2 h) hrun
    (Shard.holds_of_absent hc hs)
  obtain ⟨-, hvalid, b, q, hb, -, -, rfl, hq, hu, hcovered⟩ := hlasting.cached item hitem
  -- it is not invalidated, so it was dropped for its expiry
  have hexpired : item.expireAt < epochMillis now := by
    by_contra hfresh
    have hkept : item.isExpired (epochMillis now) = false := by
      simp [CacheItem.isExpired, hvalid, hfresh]
    rw [Cache.getItem_of_fresh hitem hkept] at hdropped
    cases hdropped
  have hfull := hcovered.full_of_expired hρ hrate hexpired (hu.trans (epochMillis_mono hnow))
  refine ⟨b, hb, ?_⟩
  rw [rateOf_pos _ hl, LeakyBucketItem.leaked, creditedLeak_fin b _ hρ, hq, fin_add_fin, ofInt_eq,
    fin_le_fin]
  exact hfull

/-- A request at `ms` milliseconds, for a key of 10 tokens per second. -/
def tenPerSecond (ms hits burst maxWait : ℤ) : Arrival :=
  ⟨ms * 1000000, .sample hits 10 1000 burst ms maxWait, ⟨true, 300000000000⟩⟩

/-- A bucket is emptied, five more tokens are booked, and it is queried at 300 ms. -/
def bookedAndQueried : Owner :=
  Machine.exec (serveLeaky .amd64) ⟨0, .ofItems []⟩
    [tenPerSecond 0 10 10 0, tenPerSecond 0 5 10 900, tenPerSecond 300 0 10 0]

/-- What that leaves: two tokens of debt, and the item kept until they and ten more are back. -/
def queriedItem : CacheItem :=
  { algorithm := .leakyBucket, key := "requests_account:1", expireAt := 1500
    value := some (.leaky { limit := 10, duration := 1000, remaining := .fin (-2)
                            updatedAt := 300, burst := 10 }) }

/-- Dropped at 1501 ms, when the ten tokens are back. -/
theorem expired_item_is_full_booked :
    bookedAndQueried.shard.cache.peek "requests_account:1" = some queriedItem ∧
      ∃ b, queriedItem.value = some (.leaky b) ∧
        .ofInt 10 ≤ b.leaked (rateOf 10 1000) (epochMillis 1501000000) :=
  ⟨by decide +kernel,
    expired_item_is_full .amd64 "requests_account:1" 10 1000 10 (by decide) (by decide)
      (by decide) (by decide) (by decide) ⟨0, .ofItems []⟩
      [tenPerSecond 0 10 10 0, tenPerSecond 0 5 10 900, tenPerSecond 300 0 10 0] rfl rfl
      (by decide +kernel) 1501000000 (by decide +kernel) queriedItem (by decide +kernel)
      (by decide +kernel)⟩

/-- **A burst of 20 on 10 tokens per second**, all taken at 0: the item is dropped at 1001 ms, when
    the leak has brought in ten tokens, and the next request finds twenty. -/
theorem expired_item_half_full :
    (Machine.exec (serveLeaky .amd64) ⟨0, .ofItems []⟩
        [tenPerSecond 0 20 20 0]).shard.cache.peek "requests_account:1" = some
      { algorithm := .leakyBucket, key := "requests_account:1", expireAt := 1000
        value := some (.leaky { limit := 10, duration := 1000, remaining := .fin 0
                                updatedAt := 0, burst := 20 }) } ∧
      ((Machine.exec (serveLeaky .amd64) ⟨0, .ofItems []⟩
        [tenPerSecond 0 20 20 0]).shard.cache.getItem
        "requests_account:1" (epochMillis 1001000000)).1 = none ∧
      LeakyBucketItem.leaked { limit := 10, duration := 1000, remaining := .fin 0, updatedAt := 0
                               burst := 20 } (rateOf 10 1000) (epochMillis 1001000000) <
        .ofInt 20 := by
  decide +kernel

end Gubernator
