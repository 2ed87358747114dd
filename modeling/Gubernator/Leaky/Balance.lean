/-
  The leaky bucket on RATIONAL balances.

  Every helper of `LeakyBucket.lean` is stated on `ExactFloat`; where a balance and a rate are
  rational numbers, the lemmas here say which rational (or integer) comes out.  On top of them
  stand the two spec lemmas the later modules cite instead of unfolding anything:

  * `leakyTerms_ok`      — what the terms of a request are;
  * `charge_charged`     — everything charging the hits can do to a rational balance (`Charged`).

  What is left out of these lemmas is what is not rational: a rate of zero or over a zero limit, and
  the infinities and NaNs such a rate makes of a balance.  `leaked_cases` and `refilled_inf` say how
  far these get.
-/
import Gubernator.LeakyBucket

namespace Gubernator

open ExactFloat

/-! ## Rounding helpers

The code allows for float error in three places: balances within `1e-9` of zero are taken for zero
(`snapToZero`), whole tokens are counted after adding `1e-9` (`wholeTokens`), and waits are rounded
up to milliseconds after taking `1e-6` off (`waitFor`). -/

/-- The code's tolerance, `1e-9` tokens. -/
theorem epsilon_pos : 0 < epsilon := by norm_num [epsilon]

/-- `snapToZero` on a rational. -/
def snap (q : ℚ) : ℚ := if |q| < epsilon then 0 else q

/-- And `snapToZero` is that function. -/
@[simp] theorem snapToZero_fin (q : ℚ) : snapToZero (.fin q) = .fin (snap q) := by
  simp only [snapToZero, snap, abs_fin, fin_lt_fin]
  split <;> rfl

/-- Near zero it is zero; elsewhere nothing happens. -/
theorem snap_cases (q : ℚ) :
    (-epsilon < q ∧ q < epsilon ∧ snap q = 0) ∨ ((q ≤ -epsilon ∨ epsilon ≤ q) ∧ snap q = q) := by
  by_cases h : |q| < epsilon
  · left
    exact ⟨(abs_lt.mp h).1, (abs_lt.mp h).2, if_pos h⟩
  · right
    refine ⟨?_, if_neg h⟩
    rcases le_abs.mp (not_lt.mp h) with h' | h'
    · exact .inr h'
    · exact .inl (by linarith)

/-- A debt is what reads as negative after snapping. -/
theorem snap_lt_zero {q : ℚ} : snap q < 0 ↔ q ≤ -epsilon := by
  have := epsilon_pos
  rcases snap_cases q with ⟨h1, h2, h⟩ | ⟨h1 | h1, h⟩ <;> rw [h]
  · exact ⟨fun h => absurd h (lt_irrefl 0), fun h => by linarith⟩
  · exact ⟨fun _ => h1, fun _ => by linarith⟩
  · exact ⟨fun h => by linarith, fun h => by linarith⟩

/-- And a credit what does not. -/
theorem snap_nonneg {q : ℚ} : 0 ≤ snap q ↔ -epsilon < q := by
  rw [← not_lt, snap_lt_zero, not_le]

/-- A debt is not snapped. -/
theorem snap_of_le {q : ℚ} (h : q ≤ -epsilon) : snap q = q := by
  rcases snap_cases q with ⟨h1, -, -⟩ | ⟨-, h2⟩
  · linarith
  · exact h2

/-- A balance of `1e-9` tokens or more is not snapped. -/
theorem snap_of_ge {q : ℚ} (h : epsilon ≤ q) : snap q = q := by
  rcases snap_cases q with ⟨-, h1, -⟩ | ⟨-, h2⟩
  · linarith
  · exact h2

/-- Snapping moves a balance by less than `1e-9`. -/
theorem abs_snap_sub_lt (q : ℚ) : |snap q - q| < epsilon := by
  rcases snap_cases q with ⟨h1, h2, h⟩ | ⟨-, h⟩ <;> rw [h]
  · rw [abs_lt]
    constructor <;> linarith
  · simpa using epsilon_pos

/-- A balance of at most a non-negative burst stays so. -/
theorem snap_le {q : ℚ} {n : ℤ} (hn : 0 ≤ n) (h : q ≤ n) : snap q ≤ n := by
  rcases snap_cases q with ⟨-, -, h0⟩ | ⟨-, hq⟩
  · rw [h0]
    exact_mod_cast hn
  · rw [hq]
    exact h

/-- Whole numbers are not moved. -/
theorem snap_int (n : ℤ) : snap n = n := by
  rcases snap_cases (n : ℚ) with ⟨h1, h2, h⟩ | ⟨-, h⟩
  · -- no whole number but zero is that small
    have hlow : -1 < n := by
      have : (-1 : ℚ) < n := by norm_num [epsilon] at h1; linarith
      exact_mod_cast this
    have hhigh : n < 1 := by
      have : (n : ℚ) < 1 := by norm_num [epsilon] at h2; linarith
      exact_mod_cast this
    rw [h, show n = 0 by omega, Int.cast_zero]
  · exact h

/-- Snapping twice is snapping once. -/
theorem snap_snap (q : ℚ) : snap (snap q) = snap q := by
  rcases snap_cases q with ⟨-, -, h⟩ | ⟨-, h⟩
  · rw [h]
    exact snap_int 0
  · rw [h, h]

/-- Above `-1e-9` a whole number is not negative. -/
theorem nonneg_of_neg_epsilon_lt {n : ℤ} (h : -epsilon < n) : 0 ≤ n := by
  have : (-1 : ℚ) < n := by norm_num [epsilon] at h; linarith
  have : -1 < n := by exact_mod_cast this
  omega

/-- Snapping respects a whole bound of either sign. -/
theorem snap_le_int {q : ℚ} {n : ℤ} (h : q ≤ n) : snap q ≤ n := by
  rcases snap_cases q with ⟨h1, -, -⟩ | ⟨-, hq⟩
  · exact snap_le (nonneg_of_neg_epsilon_lt (lt_of_lt_of_le h1 h)) h
  · rwa [hq]

/-- The conversion truncates towards zero: down for a credit, up for a debt. -/
theorem wholeTokens_fin (host : Host) (q : ℚ) : wholeTokens host (.fin q) =
    if 0 ≤ q + epsilon then ⌊q + epsilon⌋ else ⌈q + epsilon⌉ := rfl

/-- Down, on a balance that is not a debt. -/
theorem wholeTokens_of_nonneg (host : Host) {z : ℚ} (hz : -epsilon ≤ z) :
    wholeTokens host (.fin z) = ⌊z + epsilon⌋ := by
  rw [wholeTokens_fin, if_pos (by linarith)]

/-- Whole tokens are counted exactly. -/
theorem wholeTokens_int (host : Host) {n : ℤ} (hn : 0 ≤ n) : wholeTokens host (.fin n) = n := by
  have hn' : (0 : ℚ) ≤ n := by exact_mod_cast hn
  have hε := epsilon_pos
  rw [wholeTokens_of_nonneg host (by linarith), Int.floor_eq_iff]
  constructor
  · linarith
  · have hsmall : epsilon < 1 := by norm_num [epsilon]
    linarith

/-- A request for hits finds enough whole tokens iff the balance, with its float error, covers
    them. -/
theorem le_wholeTokens {host : Host} {q : ℚ} {h : ℤ} (hh : 0 < h) :
    h ≤ wholeTokens host (.fin q) ↔ (h : ℚ) ≤ q + epsilon := by
  rw [wholeTokens_fin]
  split
  · exact Int.le_floor
  · rename_i hneg
    have hh' : (0 : ℚ) < h := by exact_mod_cast hh
    constructor
    · intro hle
      have hceil : ⌈q + epsilon⌉ ≤ 0 := Int.ceil_le.mpr (by push_cast; linarith)
      omega
    · intro hle
      linarith

/-- A moment rounded up is the whole number it is, on either architecture. -/
theorem millis_ceil (host : Host) (q : ℚ) : millis host (ExactFloat.ceil (.fin q)) = ⌈q⌉ := by
  have h := trunc_ceil_fin q
  revert h
  simp only [ceil]
  split <;> intro h <;> simp [millis, Host.int64, h]

/-! ## Rates

A rate is milliseconds per token, `duration / limit`.  It is usable if it is a positive finite
number. -/

/-- A usable rate is a positive rational. -/
theorem usable_iff {rate : ExactFloat} :
    unusableRate rate = false ↔ ∃ ρ : ℚ, 0 < ρ ∧ rate = .fin ρ := by
  constructor
  · intro h
    cases rate with
    | fin q =>
      refine ⟨q, ?_, rfl⟩
      simpa [unusableRate] using h
    | negZero => simp [unusableRate] at h
    | inf s => simp [unusableRate, isInf] at h
    | nan => exact absurd h (by decide)
  · rintro ⟨ρ, hρ, rfl⟩
    simp [unusableRate, hρ]

/-- In particular a positive rational. -/
theorem unusableRate_fin {ρ : ℚ} (h : 0 < ρ) : unusableRate (.fin ρ) = false :=
  usable_iff.mpr ⟨ρ, h, rfl⟩

/-- Over a positive limit the division is the rational one. -/
theorem rateOf_pos {limit : ℤ} (duration : ℤ) (h : 0 < limit) :
    rateOf limit duration = .fin (duration / limit) :=
  fin_div_fin_of_pos (by exact_mod_cast h)

/-- `int64` of a rate: the quotient, truncated. -/
theorem int64_rateOf (host : Host) {limit duration : ℤ} (hl : 0 < limit) (hd : 0 ≤ duration) :
    host.int64 (rateOf limit duration) = duration / limit := by
  have hρ : (0 : ℚ) ≤ duration / limit :=
    div_nonneg (by exact_mod_cast hd) (by exact_mod_cast hl.le)
  have hfloor : ⌊(duration / limit : ℚ)⌋ = duration / limit := by
    obtain ⟨n, hn⟩ := Int.eq_ofNat_of_zero_le hl.le
    rw [hn]
    exact_mod_cast Rat.floor_intCast_div_natCast duration n
  rw [rateOf_pos _ hl]
  show (ExactFloat.trunc (.fin (duration / limit))).getD _ = _
  rw [ExactFloat.trunc, if_pos hρ, hfloor, Option.getD_some]

/-- A request's rate is usable exactly when its limit and duration are positive. -/
theorem requestUsable_iff {r : RateLimitReq} :
    requestUsable r = true ↔ 0 < r.limit ∧ 0 < r.duration := by
  constructor
  · intro h
    simp only [requestUsable, Bool.and_eq_true, decide_eq_true_eq] at h
    exact h.1
  · rintro ⟨hl, hd⟩
    have hρ : (0 : ℚ) < r.duration / r.limit :=
      div_pos (by exact_mod_cast hd) (by exact_mod_cast hl)
    simp [requestUsable, hl, hd, rateOf_pos r.duration hl, unusableRate_fin hρ]

/-! ## Leak, refill moment, wait

`balanceAt` is the line a balance follows while nobody touches it.  The clamp to the burst is not
part of it: the code applies it only when a request comes. -/

/-- The rational an item's balance has once its leak at `ρ` milliseconds per token is credited
    up to `t`. -/
def balanceAt (u : ℤ) (q ρ : ℚ) (t : ℤ) : ℚ := q + ((max u t : ℤ) - u : ℚ) / ρ

/-- The leak only adds. -/
theorem le_balanceAt (u : ℤ) (q : ℚ) {ρ : ℚ} (hρ : 0 < ρ) (t : ℤ) : q ≤ balanceAt u q ρ t := by
  have h : ((u : ℤ) : ℚ) ≤ (max u t : ℤ) := by exact_mod_cast le_max_left u t
  have : 0 ≤ ((max u t : ℤ) - u : ℚ) / ρ := div_nonneg (by linarith) hρ.le
  unfold balanceAt
  linarith

/-- Crediting moves neither the debt nor its clock apart: the balance reaches zero at the same
    moment. -/
theorem balanceAt_clears (u : ℤ) (q : ℚ) {ρ : ℚ} (hρ : 0 < ρ) (t : ℤ) :
    (max u t : ℤ) - balanceAt u q ρ t * ρ = u - q * ρ := by
  unfold balanceAt
  rw [add_mul, div_mul_cancel₀ _ (ne_of_gt hρ)]
  ring

/-- Once time has passed, the leak is the elapsed time over the rate; a NaN counts as none. -/
theorem creditedLeak_eq {b : LeakyBucketItem} {t : ℤ} {rate leak : ExactFloat}
    (ht : b.updatedAt < t) (h : .fin ((t - b.updatedAt : ℤ) : ℚ) / rate = leak) :
    creditedLeak b t rate = if leak.isNaN then 0 else leak := by
  subst h
  exact if_neg (not_le.mpr ht)

/-- At a positive rate, and counted from the item's own time, it is a rational. -/
theorem creditedLeak_fin (b : LeakyBucketItem) (t : ℤ) {ρ : ℚ} (hρ : 0 < ρ) :
    creditedLeak b t (.fin ρ) = .fin (((max b.updatedAt t : ℤ) - b.updatedAt : ℚ) / ρ) := by
  rcases lt_or_ge b.updatedAt t with h | h
  · rw [creditedLeak_eq h (fin_div_fin_of_pos hρ), max_eq_right h.le]
    push_cast
    rfl
  · rw [creditedLeak, if_pos h, max_eq_left h, sub_self, zero_div]
    rfl

/-- A leak is a rational, or infinite: a NaN counts as none. -/
theorem leaked_cases (q : ℚ) (b : LeakyBucketItem) (t : ℤ) (rate : ExactFloat) :
    (∃ x, .fin q + creditedLeak b t rate = .fin x) ∨
      ∃ s, .fin q + creditedLeak b t rate = .inf s ∧
        .fin ((t - b.updatedAt : ℤ) : ℚ) / rate = .inf s ∧ b.updatedAt < t := by
  rcases lt_or_ge b.updatedAt t with hlt | hle
  swap
  · exact .inl ⟨q + 0, by rw [creditedLeak, if_pos hle]; rfl⟩
  cases hleak : ExactFloat.fin ((t - b.updatedAt : ℤ) : ℚ) / rate with
  | fin l => exact .inl ⟨q + l, by rw [creditedLeak_eq hlt hleak]; rfl⟩
  | negZero => exact .inl ⟨q + 0, by rw [creditedLeak_eq hlt hleak]; rfl⟩
  | inf s => exact .inr ⟨s, by rw [creditedLeak_eq hlt hleak]; rfl, rfl, hlt⟩
  | nan => exact .inl ⟨q + 0, by rw [creditedLeak_eq hlt hleak]; rfl⟩

/-- When the item is full again, rounded up to a millisecond. -/
theorem fullAt_fin (host : Host) {b : LeakyBucketItem} {q ρ : ℚ} (hq : b.remaining = .fin q)
    (hρ : 0 < ρ) : fullAt host b (.fin ρ) = ⌈b.updatedAt + (b.burst - q) * ρ⌉ := by
  simp only [fullAt, hq, ofInt_eq, fin_sub_fin, fin_mul_fin hρ, fin_add_fin, millis_ceil]

/-- The time given is not before the bucket is full. -/
theorem le_fullAt (host : Host) {b : LeakyBucketItem} {q ρ : ℚ} (hq : b.remaining = .fin q)
    (hρ : 0 < ρ) : b.updatedAt + (b.burst - q) * ρ ≤ fullAt host b (.fin ρ) := by
  rw [fullAt_fin host hq hρ]
  exact Int.le_ceil _

/-- How long hits wait, in rational numbers. -/
theorem waitFor_fin (host : Host) {b : LeakyBucketItem} {q ρ : ℚ} (hq : b.remaining = .fin q)
    (hρ : 0 < ρ) (hits now : ℤ) :
    waitFor host b hits now (.fin ρ) =
      max 1 ⌈((max b.updatedAt now : ℤ) - now : ℚ) + (hits - q) * ρ - waitEpsilon⌉ := by
  simp only [waitFor, hq, ofInt_eq, fin_sub_fin, fin_mul_fin hρ, fin_add_fin, millis_ceil]
  push_cast
  rfl

/-- Whether the item will still be in debt at `t`. -/
theorem debtAt_fin {b : LeakyBucketItem} {q ρ : ℚ} (hq : b.remaining = .fin q)
    (hrate : rateOf b.limit b.duration = .fin ρ) (hρ : 0 < ρ) (t : ℤ) :
    debtAt b t = decide (balanceAt b.updatedAt q ρ t ≤ -epsilon) := by
  simp only [debtAt, hrate, unusableRate_fin hρ, Bool.false_eq_true, if_false, hq,
    creditedLeak_fin b t hρ, fin_add_fin, snapToZero_fin, fin_lt_zero, snap_lt_zero]
  rfl

/-! ## The terms

`leakyTerms` fails only if a Gregorian interval is not a valid one; otherwise its fields are as
`leakyTerms_ok` lists them, and later proofs take the ones they need from there. -/

/-- The terms of a request that returns no error. -/
theorem leakyTerms_ok {host : Host} {now : ℤ} {r : RateLimitReq} {b : LeakyBucketItem}
    {tm : LeakyTerms} (h : leakyTerms host now r b = .ok tm) :
    requestTerms host now r = .ok (tm.requestRate, tm.duration) ∧
    tm.createdAt = (if 0 < r.maxWait ∨ b.remaining < 0 then epochMillis now else r.createdAt) ∧
    tm.storedRate = rateOf b.limit b.duration ∧
    tm.keepStored = ((hasBehavior r.behavior .durationIsGregorian || !requestUsable r) &&
      decide (b.remaining < 0) && !unusableRate (rateOf b.limit b.duration)) ∧
    tm.rescale = (!hasBehavior r.behavior .durationIsGregorian && requestUsable r &&
      decide (b.remaining < 0) && tm.configChanged && !unusableRate (rateOf b.limit b.duration)) ∧
    tm.configChanged = (b.limit != r.limit || b.duration != r.duration) ∧
    tm.burst = (if debtAt b tm.createdAt ∧
      (r.burst < 0 ∨ r.burst = 0 ∧ ¬ hasBehavior r.behavior .resetRemaining) then b.burst
      else r.burst) ∧
    tm.burstChanged = (b.burst != tm.burst) ∧
    tm.wasInDebt = (decide (b.remaining < 0) && !hasBehavior r.behavior .resetRemaining) := by
  unfold leakyTerms at h
  cases hterms : requestTerms host now r with
  | error e => simp [hterms] at h
  | ok p =>
    obtain ⟨rate, d⟩ := p
    simp only [hterms] at h
    obtain rfl := Except.ok.inj h
    exact ⟨rfl, rfl, rfl, rfl, rfl, rfl, rfl, rfl, rfl⟩

/-- The burst is the request's or the item's. -/
theorem terms_burst_nonneg {host : Host} {now : ℤ} {r : RateLimitReq} {b : LeakyBucketItem}
    {tm : LeakyTerms} (htm : leakyTerms host now r b = .ok tm) (hr : 0 ≤ r.burst)
    (hb : 0 ≤ b.burst) : 0 ≤ tm.burst := by
  rw [(leakyTerms_ok htm).2.2.2.2.2.2.1]
  split <;> assumption

/-- Without a calendar the terms are the request's own, and there is no error. -/
theorem requestTerms_plain {host : Host} {now : ℤ} {r : RateLimitReq}
    (h : hasBehavior r.behavior .durationIsGregorian = false) :
    requestTerms host now r = .ok (rateOf r.limit r.duration, r.duration) := by
  simp [requestTerms, h]

/-- A debt is restated by the ratio of two positive rates. -/
theorem rescale_ratio {host : Host} {now : ℤ} {r : RateLimitReq} {b : LeakyBucketItem}
    {tm : LeakyTerms} (htm : leakyTerms host now r b = .ok tm) (hrescale : tm.rescale = true) :
    ∃ p : ℚ, 0 < p ∧ tm.storedRate / tm.rate = .fin p := by
  obtain ⟨hterms, -, hstored, hkeep, hresc, -⟩ := leakyTerms_ok htm
  rw [hresc] at hrescale
  simp only [Bool.and_eq_true, Bool.not_eq_true'] at hrescale
  obtain ⟨⟨⟨⟨hgreg, husable⟩, -⟩, -⟩, hu⟩ := hrescale
  obtain ⟨ρ, hρ, hrateOf⟩ := usable_iff.mp hu
  obtain ⟨hl, hd⟩ := requestUsable_iff.mp husable
  -- a rescaled debt does not keep its stored config, so the rate is the request's
  have hrequest : tm.rate = .fin (r.duration / r.limit) := by
    rw [requestTerms_plain hgreg, rateOf_pos _ hl] at hterms
    rw [LeakyTerms.rate, hkeep, husable, hgreg]
    exact (Prod.mk.inj (Except.ok.inj hterms)).1.symm
  have hpos : (0 : ℚ) < r.duration / r.limit :=
    div_pos (by exact_mod_cast hd) (by exact_mod_cast hl)
  exact ⟨ρ / (r.duration / r.limit), div_pos hρ hpos,
    by rw [hstored, hrateOf, hrequest, fin_div_fin_of_pos hpos]⟩

/-- A request's rate is its own limit's share of a length: of an interval of the calendar, or of
    its own duration. -/
theorem requestTerms_rateOf {host : Host} {now : ℤ} {r : RateLimitReq} {rate : ExactFloat}
    {duration : ℤ} (h : requestTerms host now r = .ok (rate, duration)) :
    ∃ d, rate = rateOf r.limit d ∧
      (hasBehavior r.behavior .durationIsGregorian = true ∧ 0 < d ∨
        hasBehavior r.behavior .durationIsGregorian = false ∧ d = r.duration) := by
  unfold requestTerms at h
  split at h
  · rename_i hgreg
    cases hg : gregorianDuration host.location now r.duration with
    | error e => simp [hg] at h
    | ok d =>
      cases he : gregorianExpiration host.location now r.duration with
      | error e => simp [hg, he] at h
      | ok e =>
        simp only [hg, he, Except.ok.injEq, Prod.mk.injEq] at h
        exact ⟨d, h.1.symm, .inl ⟨hgreg, gregorianDuration_pos hg⟩⟩
  · rename_i hgreg
    simp only [Except.ok.injEq, Prod.mk.injEq] at h
    exact ⟨r.duration, h.1.symm, .inr ⟨by simpa using hgreg, rfl⟩⟩

/-! ## Fields of the credited item

`credited` is a chain of six small functions.  Each changes one or two fields; the lemmas say which
it leaves alone. -/

section Credited
variable (r : RateLimitReq) (tm : LeakyTerms) (b : LeakyBucketItem)

/-- Adopting a config changes no balance. -/
@[simp] theorem adoptConfig_remaining : (adoptConfig r tm b).remaining = b.remaining := by
  unfold adoptConfig
  split <;> rfl

/-- No time. -/
@[simp] theorem adoptConfig_updatedAt : (adoptConfig r tm b).updatedAt = b.updatedAt := by
  unfold adoptConfig
  split <;> rfl

/-- And no burst. -/
@[simp] theorem adoptConfig_burst : (adoptConfig r tm b).burst = b.burst := by
  unfold adoptConfig
  split <;> rfl

/-- Between the leak and the adoption of a new config, only the balance and the burst move. -/
theorem refill_fields :
    (refill r tm b).updatedAt = b.updatedAt ∧ (refill r tm b).burst = b.burst ∧
      (refill r tm b).limit = b.limit ∧ (refill r tm b).duration = b.duration := by
  unfold refill
  split <;> exact ⟨rfl, rfl, rfl, rfl⟩

/-- A changed burst leaves time, limit and duration. -/
theorem shiftBurst_fields :
    (shiftBurst tm b).updatedAt = b.updatedAt ∧ (shiftBurst tm b).limit = b.limit ∧
      (shiftBurst tm b).duration = b.duration := by
  unfold shiftBurst
  split <;> exact ⟨rfl, rfl, rfl⟩

/-- Restating a debt changes the balance alone. -/
theorem rescaleDebt_fields :
    (rescaleDebt tm b).updatedAt = b.updatedAt ∧ (rescaleDebt tm b).burst = b.burst ∧
      (rescaleDebt tm b).limit = b.limit ∧ (rescaleDebt tm b).duration = b.duration := by
  unfold rescaleDebt
  split <;> exact ⟨rfl, rfl, rfl, rfl⟩

/-- Crediting the leak moves the item's time forward, never back. -/
theorem creditLeak_fields :
    (creditLeak tm b).updatedAt = max b.updatedAt tm.createdAt ∧
      (creditLeak tm b).burst = b.burst ∧ (creditLeak tm b).limit = b.limit ∧
      (creditLeak tm b).duration = b.duration := by
  unfold creditLeak
  split
  · exact ⟨(max_eq_right (le_of_lt ‹_›)).symm, rfl, rfl, rfl⟩
  · exact ⟨(max_eq_left (not_lt.mp ‹_›)).symm, rfl, rfl, rfl⟩

/-- The time is the later of the item's and the request's. -/
@[simp] theorem credited_updatedAt :
    (credited r tm b).updatedAt = max b.updatedAt tm.createdAt := by
  simp only [credited, adoptConfig_updatedAt, clampToBurst, (refill_fields _ _ _).1,
    (shiftBurst_fields _ _).1, (rescaleDebt_fields _ _).1, (creditLeak_fields _ _).1]

/-- The shift stores the burst of the terms. -/
theorem shiftBurst_burst (h : tm.burstChanged = (b.burst != tm.burst)) :
    (shiftBurst tm b).burst = tm.burst := by
  simp only [shiftBurst, h, bne_iff_ne, ne_eq]
  split
  · rfl
  · exact not_not.mp ‹_›

/-- The credited item has the burst of the terms. -/
theorem credited_burst (h : tm.burstChanged = (b.burst != tm.burst)) :
    (credited r tm b).burst = tm.burst := by
  have hburst : (rescaleDebt tm (creditLeak tm b)).burst = b.burst := by
    rw [(rescaleDebt_fields _ _).2.1, (creditLeak_fields _ _).2.1]
  simp only [credited, adoptConfig_burst, clampToBurst, (refill_fields _ _ _).2.1]
  exact shiftBurst_burst _ _ (by rw [hburst, h])

/-- The balance before the clamp and the snap is refilled, shifted, restated and leaked. -/
theorem credited_remaining (h : tm.burstChanged = (b.burst != tm.burst)) :
    (credited r tm b).remaining =
      snapToZero (ExactFloat.min (.ofInt tm.burst)
        (refill r tm (shiftBurst tm (rescaleDebt tm (creditLeak tm b)))).remaining) := by
  rw [← credited_burst r tm b h]
  simp only [credited, adoptConfig_remaining, adoptConfig_burst, clampToBurst]

/-- Shifting and refilling a rational balance leaves it rational. -/
theorem refilled_fin {y : ℚ} (hy : b.remaining = .fin y) :
    ∃ z, (refill r tm (shiftBurst tm b)).remaining = .fin z := by
  unfold refill
  split
  · exact ⟨tm.burst, rfl⟩
  unfold shiftBurst
  split
  swap
  · exact ⟨y, hy⟩
  dsimp only
  rw [hy]
  split
  · exact ⟨_, by rw [ofInt_eq, fin_add_fin, zero_eq_fin, max_fin]⟩
  · exact ⟨y, rfl⟩

/-- An infinite one stays infinite, unless it is refilled. -/
theorem refilled_inf {s : Bool} (hs : b.remaining = .inf s) :
    (∃ z, (refill r tm (shiftBurst tm b)).remaining = .fin z) ∨
      (refill r tm (shiftBurst tm b)).remaining = .inf s := by
  unfold refill
  split
  · exact .inl ⟨tm.burst, rfl⟩
  unfold shiftBurst
  split
  swap
  · exact .inr hs
  dsimp only
  rw [hs]
  cases s <;> exact .inr rfl

/-- The item's limit and duration after the call, and the rate the hits are charged at, are the
    request's or the stored ones together. -/
theorem credited_config :
    ((tm.keepStored = false ∨ 0 ≤ (credited r tm b).remaining) ∧
      (credited r tm b).limit = r.limit ∧ (credited r tm b).duration = r.duration ∧
      chargeRate tm (credited r tm b) = tm.requestRate) ∨
    (tm.keepStored = true ∧ ¬ 0 ≤ (credited r tm b).remaining ∧ (credited r tm b).limit = b.limit ∧
      (credited r tm b).duration = b.duration ∧
      chargeRate tm (credited r tm b) = tm.storedRate) := by
  set c := clampToBurst (refill r tm (shiftBurst tm (rescaleDebt tm (creditLeak tm b)))) with hc
  have hcredited : credited r tm b = adoptConfig r tm c := rfl
  have hlimit : c.limit = b.limit ∧ c.duration = b.duration := by
    simp only [hc, clampToBurst, (refill_fields _ _ _).2.2.1, (refill_fields _ _ _).2.2.2,
      (shiftBurst_fields _ _).2.1, (shiftBurst_fields _ _).2.2, (rescaleDebt_fields _ _).2.2.1,
      (rescaleDebt_fields _ _).2.2.2, (creditLeak_fields _ _).2.2.1,
      (creditLeak_fields _ _).2.2.2, and_self]
  have hadopts : adopts tm (adoptConfig r tm c) = adopts tm c := by
    simp only [adopts, adoptConfig_remaining]
  rw [hcredited, chargeRate, hadopts, adoptConfig_remaining]
  -- both the config and the rate are chosen by `adopts`
  by_cases h : adopts tm c = true
  · left
    have h' : tm.keepStored = false ∨ 0 ≤ c.remaining := by simpa [adopts] using h
    simp only [adoptConfig, h, if_true]
    exact ⟨h', trivial, trivial, trivial⟩
  · right
    have h' : tm.keepStored = true ∧ ¬ 0 ≤ c.remaining := by simpa [adopts] using h
    simp only [adoptConfig, h, LeakyTerms.rate, h'.1]
    exact ⟨trivial, h'.2, hlimit.1, hlimit.2, rfl⟩

/-- The balance charged, where rational, is at most the burst. -/
theorem credited_le_burst {q : ℚ} (h : tm.burstChanged = (b.burst != tm.burst))
    (hq : (credited r tm b).remaining = .fin q) : q ≤ tm.burst := by
  rw [credited_remaining r tm b h, ofInt_eq] at hq
  -- the clamp gives the burst or something below; `-0` is the one case to look at
  cases hy : (refill r tm (shiftBurst tm (rescaleDebt tm (creditLeak tm b)))).remaining with
  | fin y =>
    rw [hy, min_fin, snapToZero_fin] at hq
    rw [← ExactFloat.fin.inj hq]
    exact snap_le_int (min_le_left _ _)
  | inf s =>
    rw [hy] at hq
    cases s with
    | false =>
      rw [min_fin_posInf, snapToZero_fin] at hq
      rw [← ExactFloat.fin.inj hq]
      exact snap_le_int le_rfl
    | true => rw [min_fin_negInf] at hq; cases hq
  | nan => rw [hy] at hq; cases hq
  | negZero =>
    rcases lt_or_ge (tm.burst : ℚ) 0 with hneg | hburst
    · rw [hy, min_fin_negZero_of_neg hneg, snapToZero_fin, snap_int] at hq
      rw [← ExactFloat.fin.inj hq]
    · rw [hy, min_fin_negZero hburst, show snapToZero .negZero = .fin 0 by decide +kernel] at hq
      rw [← ExactFloat.fin.inj hq]
      exact hburst

/-- **A usable config without a calendar is adopted**, and the hits are charged at its rate. -/
theorem usable_terms {host : Host} {now : ℤ} {r : RateLimitReq} {tm : LeakyTerms}
    {b : LeakyBucketItem} (htm : leakyTerms host now r b = .ok tm) (hl : 0 < r.limit)
    (hd : 0 < r.duration) (hgreg : hasBehavior r.behavior .durationIsGregorian = false) :
    tm.duration = r.duration ∧ tm.requestRate = .fin (r.duration / r.limit) ∧
      tm.keepStored = false ∧ (credited r tm b).limit = r.limit ∧
      (credited r tm b).duration = r.duration ∧
      chargeRate tm (credited r tm b) = .fin (r.duration / r.limit) := by
  obtain ⟨hterms, -, -, hkeep, -⟩ := leakyTerms_ok htm
  rw [requestTerms_plain hgreg, rateOf_pos _ hl] at hterms
  obtain ⟨hrate, hduration⟩ := Prod.mk.inj (Except.ok.inj hterms)
  have hkeep' : tm.keepStored = false := by
    rw [hkeep, hgreg, requestUsable_iff.mpr ⟨hl, hd⟩]
    simp
  rcases credited_config r tm b with ⟨-, hlim, hdur, hcharge⟩ | ⟨hstored, -⟩
  · exact ⟨hduration.symm, hrate.symm, hkeep', hlim, hdur, hcharge.trans hrate.symm⟩
  · rw [hkeep'] at hstored
    cases hstored

/-- Without a calendar, the hits are charged at the rate the item then stores. -/
theorem chargeRate_plain {host : Host} {now : ℤ} {r : RateLimitReq} {tm : LeakyTerms}
    {b : LeakyBucketItem} (htm : leakyTerms host now r b = .ok tm)
    (hgreg : hasBehavior r.behavior .durationIsGregorian = false) :
    chargeRate tm (credited r tm b) =
      rateOf (credited r tm b).limit (credited r tm b).duration := by
  obtain ⟨hterms, -, hstored, -⟩ := leakyTerms_ok htm
  rw [requestTerms_plain hgreg] at hterms
  rcases credited_config r tm b with ⟨-, hlim, hdur, hcharge⟩ | ⟨-, -, hlim, hdur, hcharge⟩
  · rw [hcharge, hlim, hdur, ← (Prod.mk.inj (Except.ok.inj hterms)).1]
  · rw [hcharge, hlim, hdur, hstored]

end Credited

/-! ## The charge

After crediting, hits are charged on one number.  `Charged` has a case for each thing that can come
of it; what they share is that an expiry is never brought forward. -/

/-- **Everything charging the hits can do** to an item with the rational balance `q`, timed at
    `now`, when the item is to expire at `x`. -/
inductive Charged (host : Host) (x : ℤ) (b : LeakyBucketItem) (q : ℚ) (r : RateLimitReq)
    (reqState : RateLimitReqState) (now : ℤ) (rate : ExactFloat) (out : LeakyOutcome) : Prop
  /-- a query, a refusal, a request that never fits, a refund on a debt -/
  | kept (hb : out.b = b) (hs : out.resp.status ≠ .scheduled)
      (hu : 0 < r.hits → out.resp.status ≠ .underLimit) (hx : x ≤ out.expireAt)
  /-- a refusal with DRAIN_OVER_LIMIT: what there was is taken -/
  | drained (hb : out.b = { b with remaining := .fin (min q 0) })
      (hs : out.resp.status = .overLimit) (hx : x ≤ out.expireAt)
  /-- hits that the balance covers, with or without a wait -/
  | admitted (hits : 0 < r.hits) (enough : (r.hits : ℚ) ≤ q + epsilon)
      (hb : out.b = { b with remaining := .fin (snap (q - r.hits)) })
      (hs : out.resp.status = .underLimit) (hx : x ≤ out.expireAt)
  /-- negative hits are given back, up to the burst, on a balance that is no debt -/
  | refunded (hits : r.hits < 0) (credit : 0 ≤ q)
      (hb : out.b = { b with remaining := .fin (snap (min b.burst (q - r.hits))) })
      (hs : out.resp.status = .underLimit) (hx : x ≤ out.expireAt)
  /-- hits that may wait and have to: the balance goes below zero, by as much as is booked -/
  | booked (ρ : ℚ) (hρ : 0 < ρ) (hrate : rate = .fin ρ) (wait : 0 < r.maxWait)
      (hits : 0 < r.hits) (fits : r.hits ≤ b.burst) (short : q + epsilon < r.hits)
      (hb : out.b = { b with remaining := .fin (q - r.hits) })
      (hs : out.resp.status = .scheduled)
      (hw : out.resp.retryAfter = waitFor host b r.hits now rate)
      (allowed : out.resp.retryAfter ≤ min r.maxWait reqState.ceiling)
      (hx : x ≤ out.expireAt) (full : fullAt host out.b rate ≤ out.expireAt)

/-- Extending an expiry never shortens it. -/
theorem le_extendDebtExpiry (host : Host) (x : ℤ) (b : LeakyBucketItem) (now duration : ℤ)
    (rate : ExactFloat) : x ≤ extendDebtExpiry host x b now duration rate := le_max_left _ _

/-- And the item is kept until it is full. -/
theorem fullAt_le_extendDebtExpiry (host : Host) (x : ℤ) (b : LeakyBucketItem)
    (now duration : ℤ) (rate : ExactFloat) :
    fullAt host b rate ≤ extendDebtExpiry host x b now duration rate :=
  (le_max_right _ _).trans (le_max_right _ _)

/-- The same where only an item that was in debt is extended. -/
theorem le_ite_extendDebtExpiry (host : Host) (x : ℤ) (b : LeakyBucketItem) (now duration : ℤ)
    (rate : ExactFloat) (wasInDebt : Bool) :
    x ≤ if wasInDebt then extendDebtExpiry host x b now duration rate else x := by
  split
  · exact le_extendDebtExpiry ..
  · exact le_rfl

/-- What `scheduleHits` does is one of them: never fits, admitted, refused, booked. -/
theorem scheduleHits_charged (host : Host) (x : ℤ) {b : LeakyBucketItem} {q : ℚ}
    (hq : b.remaining = .fin q) {r : RateLimitReq} (reqState : RateLimitReqState)
    {rl : RateLimitResp} (hrl : rl.status = .underLimit) (now duration : ℤ) (rate : ExactFloat)
    (wasInDebt : Bool) (hwait : 0 < r.maxWait) (hits : 0 < r.hits) :
    Charged host x b q r reqState now rate
      (scheduleHits host x b r reqState rl now duration rate wasInDebt) := by
  unfold scheduleHits
  split
  · exact .kept rfl (by simp) (fun _ => by simp) le_rfl
  rename_i hfits
  simp only [not_or, not_lt, Bool.not_eq_true] at hfits
  obtain ⟨ρ, hρ, rfl⟩ := usable_iff.mp hfits.2
  rw [hq]
  split
  · rename_i henough
    refine .admitted hits ((le_wholeTokens hits).mp henough) ?_ hrl (le_ite_extendDebtExpiry ..)
    simp
  rename_i hshort
  have hshort' : q + epsilon < r.hits := not_le.mp (fun h => hshort ((le_wholeTokens hits).mpr h))
  dsimp only
  split
  · exact .kept rfl (by simp) (fun _ => by simp) le_rfl
  · rename_i hallowed
    refine .booked ρ hρ rfl hwait hits hfits.1 hshort' ?_ rfl rfl (not_lt.mp hallowed)
      (le_extendDebtExpiry ..) (fullAt_le_extendDebtExpiry ..)
    simp

/-- The charge moves nothing but the balance. -/
theorem charge_b (host : Host) (x : ℤ) (b : LeakyBucketItem) (r : RateLimitReq)
    (reqState : RateLimitReqState) (tm : LeakyTerms) (rate : ExactFloat) :
    (charge host x b r reqState tm rate).b =
      { b with remaining := (charge host x b r reqState tm rate).b.remaining } := by
  unfold charge scheduleHits
  dsimp only
  repeat' split
  all_goals rfl

/-- A validated request (a `max_wait` one asks for no refund) can do nothing but what `Charged`
    lists. -/
theorem charge_charged (host : Host) (x : ℤ) {b : LeakyBucketItem} {q : ℚ}
    (hq : b.remaining = .fin q) (hburst : q ≤ b.burst) {r : RateLimitReq}
    (reqState : RateLimitReqState) (tm : LeakyTerms) (rate : ExactFloat)
    (hvalid : 0 < r.maxWait → 0 ≤ r.hits) :
    Charged host x b q r reqState tm.createdAt rate (charge host x b r reqState tm rate) := by
  unfold charge
  dsimp only
  split
  · rename_i h0
    exact .kept rfl (by simp [leakyStatus]) (fun h => by omega) le_rfl
  rename_i h0
  split
  · rename_i hwait
    exact scheduleHits_charged host x hq reqState rfl _ _ rate _ hwait
      (lt_of_le_of_ne (hvalid hwait) (Ne.symm h0))
  split
  · rename_i hneg
    exact .kept rfl (by simp [leakyStatus]) (fun h => by omega) (le_extendDebtExpiry ..)
  rename_i hrefund
  rw [hq] at hrefund ⊢
  split
  · split
    · refine .drained ?_ rfl le_rfl
      rw [zero_eq_fin, min_fin]
    · exact .kept rfl (by simp) (fun _ => by simp) le_rfl
  rename_i henough
  -- the last branch is for refunds and admissions alike
  rcases lt_or_gt_of_ne h0 with hneg | hpos
  · have hcredit : 0 ≤ q := by
      by_contra hlt
      exact hrefund ⟨hneg, fin_lt_zero.mpr (not_le.mp hlt)⟩
    refine .refunded hneg hcredit ?_ rfl (le_ite_extendDebtExpiry ..)
    simp
  · have hpos' : (0 : ℚ) < r.hits := by exact_mod_cast hpos
    refine .admitted hpos ((le_wholeTokens hpos).mp (not_lt.mp henough)) ?_ rfl
      (le_ite_extendDebtExpiry ..)
    simp only [ofInt_eq, fin_sub_fin, min_fin, snapToZero_fin]
    rw [min_eq_right (by linarith)]

end Gubernator
