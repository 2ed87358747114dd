/-
  Leaky-bucket CONFORMANCE: how many hits one key can be granted in a window of time.

  On a key whose limit, duration and burst stay fixed, the abstract limiter of `Lib/Gcra` is what
  the code implements: the theoretical arrival time is the moment the balance is back at zero,
  `updatedAt - remaining * rate`.  `steady_move` shows that a request on a found item is a `Move`,
  with the balance's `1e-9`, the wait's `1e-6` and the rounding of a wait to whole milliseconds
  as the three errors.

  The parts of the proof.

    1. LIMITER. `Lib/Gcra` bounds what a limiter with three errors grants in a window, whatever it
       limits.
    2. MOVES. `Charged` lists what a request does to a balance; each entry of the list is a move of
       the limiter (`kept_move`, `admitted_move`, `booked_move`), by arithmetic on the arrival time.
    3. CALLS. A key without an item has a full bucket, and so no arrival time yet (`ArrivalTime`);
       the first request gives it one.
    4. RUNS. The limiter's bound, at the end of the moves of a run.
-/
import Gubernator.Lib.Gcra
import Gubernator.Instance
import Gubernator.Leaky.Query

namespace Gubernator

open ExactFloat

/-! ## Runs

A run is a list of arrivals at one owner.  What it grants is read off the answers: hits let in are
granted for the time of the request, hits booked for the time at the end of the wait. -/

/-- The algorithm as a machine, without the validation around it. -/
def serveLeaky (host : Host) (o : Owner) (a : Arrival) : Except String RateLimitResp × Owner :=
  ((leakyBucket host a.now o.shard a.req a.reqState).1,
    ⟨a.now, (leakyBucket host a.now o.shard a.req a.reqState).2⟩)

/-- The runs conformance is about: one key under one limit, duration and burst, the clock never
    going back and stamped on every request, no refund, reset or Gregorian request, and the item
    never dropped. -/
@[mk_iff] structure Steady (key : String) (limit duration burst : ℤ) (o : Owner) (a : Arrival) :
    Prop where
  clock_le : o.clock ≤ a.now
  sameKey : a.req.hashKey = key
  sameLimit : a.req.limit = limit
  sameDuration : a.req.duration = duration
  sameBurst : a.req.withBurst.burst = burst
  created : a.req.createdAt = epochMillis a.now
  hits : 0 ≤ a.req.hits
  noReset : hasBehavior a.req.behavior .resetRemaining = false
  noGregorian : hasBehavior a.req.behavior .durationIsGregorian = false
  /-- an item of the key has not expired -/
  held : (o.shard.cache.peek key).all (fun item => !item.isExpired (epochMillis a.now)) = true

instance (key : String) (limit duration burst : ℤ) (o : Owner) (a : Arrival) :
    Decidable (Steady key limit duration burst o a) :=
  decidable_of_iff _ (steady_iff key limit duration burst o a).symm

/-- The grant an answer makes: for now, or for the slot booked. -/
def grantOf (now hits : ℤ) (resp : RateLimitResp) : Option Gcra.Grant :=
  if 0 < hits then
    match resp.status with
    | .underLimit => some ⟨epochMillis now, hits⟩
    -- the caller is told to wait `retry_after` and then to go ahead without asking again
    | .scheduled => some ⟨(epochMillis now + resp.retryAfter : ℤ), hits⟩
    | _ => none
  else none

/-- The grant an event of a run comes to. -/
def eventGrant : Arrival × Except String RateLimitResp → Option Gcra.Grant
  | (a, .ok resp) => grantOf a.now a.req.hits resp
  | (_, .error _) => none

/-- A refusal grants nothing, and neither does a query. -/
theorem grantOf_none {now hits : ℤ} {resp : RateLimitResp} (hs : resp.status ≠ .scheduled)
    (hu : 0 < hits → resp.status ≠ .underLimit) : grantOf now hits resp = none := by
  unfold grantOf
  split
  · rename_i hpos
    have := hu hpos
    split <;> simp_all
  · rfl

/-- Hits admitted are granted now. -/
theorem grantOf_underLimit {now hits : ℤ} {resp : RateLimitResp} (h : resp.status = .underLimit)
    (hpos : 0 < hits) : grantOf now hits resp = some ⟨epochMillis now, hits⟩ := by
  simp [grantOf, hpos, h]

/-- Hits booked are granted at the time the answer names. -/
theorem grantOf_scheduled {now hits : ℤ} {resp : RateLimitResp} (h : resp.status = .scheduled)
    (hpos : 0 < hits) :
    grantOf now hits resp = some ⟨(epochMillis now + resp.retryAfter : ℤ), hits⟩ := by
  simp [grantOf, hpos, h]

/-! ## A request on a found item

`C` is the arrival time before the request and `raw` the balance at `t` without cap or snap, so that
`C = t - raw * rate`.  The code charges on `q₁`, which is `raw` capped and snapped. -/

/-- The errors the code's rounding makes, and the key's rate and burst. -/
def leakyParams (limit duration burst : ℤ) (hl : 0 < limit) (hd : 0 < duration) : Gcra.Params where
  rate := duration / limit
  burst := burst
  slack := epsilon
  early := waitEpsilon
  late := 1
  rate_pos := div_pos (by exact_mod_cast hd) (by exact_mod_cast hl)
  slack_nonneg := epsilon_pos.le
  early_nonneg := by norm_num [waitEpsilon]
  late_nonneg := by norm_num

section Moves
variable {limit duration burst : ℤ} (hl : 0 < limit) (hd : 0 < duration) {t hits : ℤ}
  {C raw q₁ : ℚ}

/-- A request that grants nothing costs at most one snap. -/
theorem kept_move (hC : C = t - raw * (duration / limit)) {q' : ℚ} (hq' : q' ≤ raw + epsilon) :
    Gcra.Move (leakyParams limit duration burst hl hd) (some C) none
      (some (clearsAt t q' (duration / limit))) := by
  -- a balance snapped up by `1e-9` tokens brings the arrival time forward by as much; a cap or a
  -- drain moves it on
  refine .pass _ _ ?_
  show C ≤ clearsAt t q' (duration / limit) + epsilon * (duration / limit)
  have := mul_le_mul_of_nonneg_right hq' (leakyParams limit duration burst hl hd).rate_pos.le
  change q' * (duration / limit) ≤ (raw + epsilon) * (duration / limit) at this
  rw [hC, clearsAt]
  linarith

/-- Hits admitted now. -/
theorem admitted_move (hC : C = t - raw * (duration / limit))
    (hq₁ : q₁ = snap (min burst raw)) (hB : q₁ ≤ burst) (hpos : 0 < hits)
    (enough : (hits : ℚ) ≤ q₁ + epsilon) :
    Gcra.Move (leakyParams limit duration burst hl hd) (some C) (some ⟨t, hits⟩)
      (some (clearsAt t (snap (q₁ - hits)) (duration / limit))) := by
  set ρ : ℚ := duration / limit with hρdef
  have hρ : 0 < ρ := (leakyParams limit duration burst hl hd).rate_pos
  have hε : epsilon < 1 := by norm_num [epsilon]
  have hwait : (0 : ℚ) ≤ waitEpsilon := by norm_num [waitEpsilon]
  have hpos' : (1 : ℚ) ≤ hits := by exact_mod_cast hpos
  -- whole hits that are within `1e-9` of at most the burst are at most the burst
  have hfits : (hits : ℚ) ≤ burst := by
    have : (hits : ℚ) < ((burst + 1 : ℤ) : ℚ) := by push_cast; linarith
    exact_mod_cast Int.lt_add_one_iff.mp (by exact_mod_cast this)
  -- a balance that pays for hits was not raised by the snap
  have hraw : q₁ ≤ raw := by
    rcases snap_cases (min (burst : ℚ) raw) with ⟨-, -, h0⟩ | ⟨-, hsame⟩
    · rw [← hq₁] at h0
      linarith
    · rw [hq₁, hsame]
      exact min_le_right _ _
  have hleft : snap (q₁ - hits) + hits ≤ burst := by
    rcases snap_cases (q₁ - hits) with ⟨-, -, h0⟩ | ⟨-, hsame⟩
    · rw [h0]; linarith
    · rw [hsame]; linarith
  have hsnap := (abs_lt.mp (abs_snap_sub_lt (q₁ - hits))).2.le
  have h1 := mul_le_mul_of_nonneg_right hraw hρ.le
  have h2 := mul_le_mul_of_nonneg_right hsnap hρ.le
  have h3 := mul_le_mul_of_nonneg_right enough hρ.le
  have h4 := mul_le_mul_of_nonneg_right hleft hρ.le
  -- charged in full, granted not before the arrival time allows, and the burst not exceeded
  refine .grant _ _ _ (by show (0 : ℚ) ≤ hits; linarith) hfits ?_ ?_ ?_
  · show C + hits * ρ ≤ clearsAt t (snap (q₁ - hits)) ρ + epsilon * ρ
    rw [hC, clearsAt]
    linarith
  · show C + hits * ρ ≤ t + waitEpsilon + epsilon * ρ
    rw [hC]
    linarith
  · show (t : ℚ) + hits * ρ ≤ clearsAt t (snap (q₁ - hits)) ρ + burst * ρ + 1
    rw [clearsAt]
    linarith

/-- Hits booked: the slot is where the debt clears, rounded up to a millisecond. -/
theorem booked_move (hC : C = t - raw * (duration / limit)) (hraw : q₁ ≤ raw + epsilon)
    (hpos : 0 < hits) (fits : hits ≤ burst) (short : q₁ + epsilon < hits) {wait : ℤ}
    (hwait : wait =
      max 1 ⌈clearsAt t (q₁ - hits) (duration / limit) - t - waitEpsilon⌉) :
    Gcra.Move (leakyParams limit duration burst hl hd) (some C) (some ⟨(t + wait : ℤ), hits⟩)
      (some (clearsAt t (q₁ - hits) (duration / limit))) := by
  set ρ : ℚ := duration / limit with hρdef
  have hρ : 0 < ρ := (leakyParams limit duration burst hl hd).rate_pos
  have hwe : (0 : ℚ) ≤ waitEpsilon := by norm_num [waitEpsilon]
  have hpos' : (1 : ℚ) ≤ hits := by exact_mod_cast hpos
  have hfits : (hits : ℚ) ≤ burst := by exact_mod_cast fits
  -- the balance after the booking is a debt, so it clears in the future
  have hdebt : t ≤ clearsAt t (q₁ - hits) ρ := by
    have : 0 ≤ (hits - q₁) * ρ := mul_nonneg (by linarith [epsilon_pos]) hρ.le
    rw [clearsAt]
    linarith
  -- the rounding: never more than `1e-6` ms early, never more than a millisecond late
  have hlow : clearsAt t (q₁ - hits) ρ - t - waitEpsilon ≤ wait := by
    rw [hwait]
    exact (Int.le_ceil _).trans (by exact_mod_cast le_max_right _ _)
  have hhigh : (wait : ℚ) ≤ clearsAt t (q₁ - hits) ρ - t + 1 := by
    have hceil := (Int.ceil_lt_add_one (clearsAt t (q₁ - hits) ρ - t - waitEpsilon)).le
    rw [hwait]
    push_cast
    exact max_le (by linarith) (by linarith)
  have h1 := mul_le_mul_of_nonneg_right hraw hρ.le
  have h2 := mul_le_mul_of_nonneg_right hfits hρ.le
  have hcharged : C + hits * ρ ≤ clearsAt t (q₁ - hits) ρ + epsilon * ρ := by
    rw [hC, clearsAt]
    linarith
  refine .grant _ _ _ (by show (0 : ℚ) ≤ hits; linarith) hfits hcharged ?_ ?_
  · show C + hits * ρ ≤ ((t + wait : ℤ) : ℚ) + waitEpsilon + epsilon * ρ
    push_cast
    linarith
  · show ((t + wait : ℤ) : ℚ) + hits * ρ ≤ clearsAt t (q₁ - hits) ρ + burst * ρ + 1
    push_cast
    linarith

end Moves

/-- **A request on a found item is a move** of the abstract limiter. -/
theorem steady_move {host : Host} {now : ℤ} {r : RateLimitReq} {reqState : RateLimitReqState}
    {b : LeakyBucketItem} {x : ℤ} {out : LeakyOutcome} {q : ℚ}
    (hout : leakyBucketItem host now r reqState b x = .ok out)
    (hl : 0 < b.limit) (hd : 0 < b.duration) (hB : 1 ≤ b.burst) (hlimit : r.limit = b.limit)
    (hduration : r.duration = b.duration) (hburst : r.burst = b.burst)
    (hcreated : r.createdAt = epochMillis now) (hhits : 0 ≤ r.hits)
    (hreset : hasBehavior r.behavior .resetRemaining = false)
    (hgreg : hasBehavior r.behavior .durationIsGregorian = false) (hq : b.remaining = .fin q)
    (hclock : b.updatedAt ≤ epochMillis now) :
    ∃ q', out.b = { b with remaining := .fin q', updatedAt := epochMillis now } ∧
      Gcra.Move (leakyParams b.limit b.duration b.burst hl hd)
        (some (clearsAt b.updatedAt q (b.duration / b.limit)))
        (grantOf now r.hits out.resp)
        (some (clearsAt (epochMillis now) q' (b.duration / b.limit))) := by
  obtain ⟨tm, htm, -⟩ := leakyBucketItem_ok hout
  have htime : tm.createdAt = epochMillis now := by
    rw [(leakyTerms_ok htm).2.1, hcreated, ite_self]
  obtain ⟨-, -, -, -, -, hrate⟩ := usable_terms htm (hlimit ▸ hl) (hduration ▸ hd) hgreg
  have hcredited := SameTerms.upToDate ⟨hlimit.symm, hduration.symm, hburst.symm⟩ htm
    (hlimit ▸ hl) (hduration ▸ hd) hgreg hq
  rw [hlimit, hduration] at hrate hcredited
  simp only [refreshed, hreset, Bool.false_eq_true, if_false, htime, max_eq_right hclock]
    at hcredited
  have hρ : (0 : ℚ) < b.duration / b.limit := div_pos (by exact_mod_cast hd) (by exact_mod_cast hl)
  set t := epochMillis now with ht
  set raw := balanceAt b.updatedAt q (b.duration / b.limit) t with hraw
  set q₁ := snap (min b.burst raw) with hq₁
  -- the arrival time before the request, seen from `t`
  have hC : clearsAt b.updatedAt q (b.duration / b.limit) = t - raw * (b.duration / b.limit) := by
    rw [clearsAt, ← balanceAt_clears b.updatedAt q hρ t, max_eq_right hclock]
  have hq₁B : q₁ ≤ b.burst := snap_le (by omega) (min_le_left _ _)
  have hq₁raw : q₁ ≤ raw + epsilon := by
    have := (abs_lt.mp (abs_snap_sub_lt (min b.burst raw))).2
    linarith [min_le_right (b.burst : ℚ) raw]
  have hcharged := leakyBucketItem_charged (q := q₁) hout htm (by rw [hcredited])
    (by rw [hcredited]; exact hq₁B) (fun _ => hhits)
  rw [hrate, hcredited, htime] at hcharged
  -- the five outcomes of a charge; a refund has negative hits and is not steady
  cases hcharged with
  | kept hob hs hu _ =>
    refine ⟨q₁, hob, ?_⟩
    rw [grantOf_none hs hu]
    exact kept_move hl hd hC hq₁raw
  | drained hob hs _ =>
    refine ⟨min q₁ 0, hob, ?_⟩
    rw [grantOf_none (by rw [hs]; decide) (fun _ => by rw [hs]; decide)]
    exact kept_move hl hd hC ((min_le_left _ _).trans hq₁raw)
  | refunded hneg => omega
  | admitted hits enough hob hs _ =>
    refine ⟨snap (q₁ - r.hits), hob, ?_⟩
    rw [grantOf_underLimit hs hits]
    exact admitted_move hl hd hC hq₁ hq₁B hits enough
  | booked ρ₁ hρ₁ hrate₁ wait hits fits short hob hs hw allowed _ _ =>
    refine ⟨q₁ - r.hits, hob, ?_⟩
    rw [grantOf_scheduled hs hits]
    refine booked_move hl hd hC hq₁raw hits fits short ?_
    rw [hw]
    exact waitFor_clearsAt host (b := { b with remaining := .fin q₁, updatedAt := t }) rfl hρ
      le_rfl r.hits

/-! ## A call

A call without an item under its key creates one or refuses, a call with one works on it, and an
error leaves what there was.  All of them are moves. -/

/-- The theoretical arrival time of the key: none while there is no item. -/
inductive ArrivalTime (key : String) (limit duration burst : ℤ) (o : Owner) : Option ℚ → Prop
  | absent (hc : o.shard.cache.peek key = none) (hs : o.shard.stored key = none) :
      ArrivalTime key limit duration burst o none
  | present (item : CacheItem) (b : LeakyBucketItem) (q : ℚ)
      (hc : o.shard.cache.peek key = some item) (hv : item.value = some (.leaky b))
      (hlimit : b.limit = limit) (hduration : b.duration = duration) (hburst : b.burst = burst)
      (hq : b.remaining = .fin q) (hclock : b.updatedAt ≤ epochMillis o.clock) :
      ArrivalTime key limit duration burst o (some (clearsAt b.updatedAt q (duration / limit)))

section Call
variable {key : String} {limit duration burst : ℤ} {o : Owner} {a : Arrival}

/-- The first request on the key is a move. -/
theorem create_move (host : Host) (hl : 0 < limit) (hd : 0 < duration)
    (hc : o.shard.cache.peek key = none) (hs : o.shard.stored key = none)
    (ha : Steady key limit duration burst o a) :
    ∃ tat', ArrivalTime key limit duration burst (serveLeaky host o a).2 tat' ∧
      Gcra.Move (leakyParams limit duration burst hl hd) none
        (eventGrant (a, (serveLeaky host o a).1)) tat' := by
  have hk := ha.sameKey
  have hlook : (o.shard.lookup (epochMillis a.now) a.req).1 = none :=
    Shard.lookup_of_absent (by rw [hk, hc]) (by rw [hk, hs])
  have hbase : leakyBase a.now o.shard a.req = (o.shard.lookup (epochMillis a.now) a.req).2 := by
    simp [leakyBase, Shard.find, hlook]
  -- a call that creates nothing leaves the key absent, in the cache and in the Store
  have habsent : ∀ s', s' = leakyBase a.now o.shard a.req →
      ArrivalTime key limit duration burst ⟨a.now, s'⟩ none := by
    rintro s' rfl
    refine .absent ?_ ?_
    · rw [hbase, ← hk]
      exact Shard.peek_lookup_none hlook
    · simpa [hbase] using hs
  have hcall := leakyBucket_call host a.now o.shard a.req a.reqState
  unfold serveLeaky
  cases hcall with
  | failed e _ hr hs' =>
    rw [hr]
    exact ⟨none, habsent _ hs', .ignore⟩
  | worked item b out hfind =>
    simp [Shard.find, hlook] at hfind
  | neverFits resp _ _ _ _ hr hstatus hs' =>
    rw [hr]
    refine ⟨none, habsent _ hs', ?_⟩
    show Gcra.Move _ none (grantOf _ _ resp) none
    rw [grantOf_none (by rw [hstatus]; decide) (fun _ => by rw [hstatus]; decide)]
    exact .ignore
  | created resp createdAt d _ _ fits hcreated hduration hr hstatus hs' =>
    obtain rfl : createdAt = epochMillis a.now := by
      rw [hcreated, withBurst_createdAt, ha.created, ite_self]
    obtain rfl : d = duration := by
      rw [hduration (by simpa using ha.noGregorian), withBurst_duration, ha.sameDuration]
    rw [hr, hs']
    refine ⟨some (clearsAt (epochMillis a.now) (newBalance a.req.withBurst) (d / limit)),
      .present (newLeakyItem a.req.withBurst (epochMillis a.now) d)
        (newLeakyBucket a.req.withBurst (epochMillis a.now) d) _ ?_ rfl ?_ rfl ha.sameBurst rfl
        le_rfl, ?_⟩
    · rw [← hk, ← withBurst_hashKey]
      exact Cache.peek_add_self _ (newLeakyItem _ _ _)
    · exact (withBurst_limit a.req).trans ha.sameLimit
    · show Gcra.Move _ none (grantOf a.now a.req.hits resp) _
      simp only [newBalance, ha.sameBurst, withBurst_hits] at hstatus ⊢
      by_cases hlarge : burst < a.req.hits
      · -- more than the burst: the bucket is created empty and grants nothing
        rw [if_pos hlarge] at hstatus
        rw [grantOf_none (by rw [hstatus]; decide) (fun _ => by rw [hstatus]; decide)]
        exact .start _
      · rw [if_neg hlarge] at hstatus ⊢
        by_cases hpos : 0 < a.req.hits
        · -- the hits are taken from a full bucket
          rw [grantOf_underLimit hstatus hpos, min_eq_right (by omega)]
          have hpos' : (0 : ℚ) ≤ a.req.hits := by exact_mod_cast hpos.le
          have hfits : (a.req.hits : ℚ) ≤ burst := by exact_mod_cast not_lt.mp hlarge
          refine .first _ _ hpos' hfits ?_
          show (epochMillis a.now : ℚ) + a.req.hits * (d / limit) ≤
            clearsAt _ ((burst - a.req.hits : ℤ) : ℚ) (d / limit) + burst * (d / limit) + 1
          rw [clearsAt]
          push_cast
          linarith
        · rw [grantOf, if_neg hpos]
          exact .start _

/-- **Step.**  Every call of a steady run is a move. -/
theorem serveLeaky_move (host : Host) (hl : 0 < limit) (hd : 0 < duration) (hB : 1 ≤ burst)
    {tat : Option ℚ}
    (ha : Steady key limit duration burst o a)
    (htat : ArrivalTime key limit duration burst o tat) :
    ∃ tat', ArrivalTime key limit duration burst (serveLeaky host o a).2 tat' ∧
      Gcra.Move (leakyParams limit duration burst hl hd) tat
        (eventGrant (a, (serveLeaky host o a).1)) tat' := by
  cases htat with
  | absent hc hs => exact create_move host hl hd hc hs ha
  | present item b q hc hv hlimit hduration hburst hq hclock =>
    subst hlimit hduration hburst
    have hk := ha.sameKey
    -- the run never lets the item expire, so the call finds it
    have hfresh : item.isExpired (epochMillis a.now) = false := by
      have := ha.held
      simpa [hc] using this
    have hc' : o.shard.cache.peek a.req.hashKey = some item := by rw [hk, hc]
    have hfind := Shard.find_of_fresh (r := a.req) hc' hfresh hv
    have hclock' : b.updatedAt ≤ epochMillis a.now := hclock.trans (epochMillis_mono ha.clock_le)
    unfold serveLeaky
    cases hr : (leakyBucket host a.now o.shard a.req a.reqState).1 with
    | error e =>
      -- an error writes nothing, and time alone does not change the arrival time
      refine ⟨some _, .present item b q ?_ hv rfl rfl rfl hq hclock', .pass _ _ ?_⟩
      · show Cache.peek (leakyBucket host a.now o.shard a.req a.reqState).2.cache key = some item
        rw [leakyBucket_found_error hfind hr, ← hk]
        exact Shard.peek_lookup (Shard.lookup_of_fresh hc' hfresh) (Cache.peek_key hc')
      · have : 0 < (leakyParams b.limit b.duration b.burst hl hd).rate :=
          (leakyParams b.limit b.duration b.burst hl hd).rate_pos
        exact le_add_of_nonneg_right (mul_nonneg epsilon_pos.le this.le)
    | ok resp =>
      obtain ⟨out, hout, rfl, hpeek⟩ := leakyBucket_found hfind hr
      obtain ⟨q', hb', hmove⟩ := steady_move hout hl hd hB (by rw [withBurst_limit, ha.sameLimit])
        (by rw [withBurst_duration, ha.sameDuration]) ha.sameBurst
        (by rw [withBurst_createdAt, ha.created]) (by simpa using ha.hits)
        (by simpa using ha.noReset) (by simpa using ha.noGregorian) hq hclock'
      rw [withBurst_hits] at hmove
      have htat' : ArrivalTime key b.limit b.duration b.burst
          ⟨a.now, (leakyBucket host a.now o.shard a.req a.reqState).2⟩
          (some (clearsAt out.b.updatedAt q' (b.duration / b.limit))) := by
        refine .present _ out.b q' (by rw [← hk]; exact hpeek) rfl ?_ ?_ ?_ ?_ ?_ <;> rw [hb']
      refine ⟨_, htat', ?_⟩
      rw [hb']
      exact hmove

end Call

/-! ## The run

The moves of a run are put together by the rule for histories, with `Gcra.Within` as the invariant:
the grants so far, the number of events so far and the arrival time they have led to. -/

/-- **Conformance.**  In a steady run that starts without the key, the hits granted for times in
    any window `[s, t]` are at most the burst, the refill of the window and its rounding, and
    `1e-9` tokens for every request. -/
theorem leaky_conformance (host : Host) (key : String) (limit duration burst : ℤ)
    (hl : 0 < limit) (hd : 0 < duration) (hB : 1 ≤ burst) (o : Owner) (run : List Arrival)
    (hc : o.shard.cache.peek key = none) (hs : o.shard.stored key = none)
    (hrun : Machine.Guarded (serveLeaky host) (Steady key limit duration burst) o run)
    (s t : ℚ) (hst : s ≤ t) :
    Gcra.windowHits s t ((Machine.events (serveLeaky host) o run).filterMap eventGrant) ≤
      burst + (t - s + 1 + 1 / 10 ^ 6) / (duration / limit) + run.length * (1 / 10 ^ 9) := by
  have hwithin : ∃ tat,
      ArrivalTime key limit duration burst (Machine.exec (serveLeaky host) o run) tat ∧
      Gcra.Within (leakyParams limit duration burst hl hd) s t
        (Machine.events (serveLeaky host) o run).length
        ((Machine.events (serveLeaky host) o run).filterMap eventGrant) tat := by
    refine Machine.history_rule (P := fun h o => ∃ tat, ArrivalTime key limit duration burst o tat ∧
      Gcra.Within (leakyParams limit duration burst hl hd) s t h.length
        (h.filterMap eventGrant) tat)
      ?_ hrun ⟨none, .absent hc hs, ?_⟩
    · rintro h o a ha ⟨tat, htat, hin⟩
      obtain ⟨tat', htat', hmove⟩ := serveLeaky_move host hl hd hB ha htat
      refine ⟨tat', htat', ?_⟩
      have hstep := hin.step hmove
      rw [List.length_append, List.filterMap_append, List.length_singleton]
      -- the history grows by one event, and the list of grants by at most one
      convert hstep using 1
      simp only [List.filterMap_cons, List.filterMap_nil]
      cases eventGrant (a, (serveLeaky host o a).1) <;> rfl
    · refine Gcra.Within.init hst ?_ none
      show (0 : ℚ) ≤ burst
      exact_mod_cast (by omega : 0 ≤ burst)
  obtain ⟨tat, -, hin⟩ := hwithin
  have hle := hin.hits_le
  rw [Machine.length_events] at hle
  exact hle.trans (le_of_eq (by norm_num [leakyParams, epsilon, waitEpsilon]))

/-- One hit a second, admitted at once and then booked for a second later: two grants, in a window
    of exactly one second. -/
def bookedRun : List Arrival :=
  [⟨5000000000, .sample 1 1 1000 1 5000 0, ⟨true, 300000000000⟩⟩,
    ⟨5000000000, .sample 1 1 1000 1 5000 2000, ⟨true, 300000000000⟩⟩]

/-- Both hits are granted within one second, the second of them by a booking. -/
theorem leaky_conformance_bookedRun :
    Gcra.windowHits 5000 6000
      ((Machine.events (serveLeaky .amd64) ⟨0, .ofItems []⟩ bookedRun).filterMap eventGrant) = 2 ∧
    Gcra.windowHits 5000 6000
      ((Machine.events (serveLeaky .amd64) ⟨0, .ofItems []⟩ bookedRun).filterMap eventGrant) ≤
      ((1 : ℤ) : ℚ) + (6000 - 5000 + 1 + 1 / 10 ^ 6) / (((1000 : ℤ) : ℚ) / ((1 : ℤ) : ℚ))
        + bookedRun.length * (1 / 10 ^ 9) :=
  ⟨by decide +kernel,
    leaky_conformance .amd64 "requests_account:1" 1 1000 1 (by decide) (by decide) (by decide)
      ⟨0, .ofItems []⟩ bookedRun rfl rfl (by decide +kernel) 5000 6000 (by decide +kernel)⟩

end Gubernator
