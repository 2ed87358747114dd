/-
  The balance a request is CHARGED ON, whatever terms the item had before.

  A request whose limit, duration and burst are positive brings an item up to date in four steps:
  the leak, the debt restated at the new rate, the burst moved, the cut at the burst.  On rational
  balances they compose to `upToDate`, a function of the item, the request and the clock.

  The order of the steps matters: the debt is restated before the burst moves, so a debt is never
  shifted, and the cut comes last.  `Brings.leaked`, `Brings.rescaled` and `Brings.credited` follow
  that order, one lemma for each intermediate balance.
-/
import Gubernator.Leaky.Query

namespace Gubernator

open ExactFloat

/-- The rate a balance leaks at up to a request: a debt at the rate it was booked at, if that is
    one, everything else at the request's. -/
def leakRate (r : RateLimitReq) (b : LeakyBucketItem) (q : ℚ) : ℚ :=
  if q < 0 ∧ (0 : ℚ) < b.duration / b.limit then b.duration / b.limit else r.duration / r.limit

/-- A debt of `w` tokens that clears at the same moment at the request's rate. -/
def restated (r : RateLimitReq) (b : LeakyBucketItem) (q w : ℚ) : ℚ :=
  if w ≤ -epsilon then w * (leakRate r b q / (r.duration / r.limit)) else w

/-- A balance that is not a debt moves with the burst. -/
def shifted (r : RateLimitReq) (b : LeakyBucketItem) (v : ℚ) : ℚ :=
  if b.burst ≠ r.burst ∧ -epsilon < v then max 0 (v + (r.burst - b.burst : ℤ)) else v

/-- **The balance `q` of the item when a request at `t` charges it.** -/
def upToDate (r : RateLimitReq) (b : LeakyBucketItem) (q : ℚ) (t : ℤ) : ℚ :=
  if hasBehavior r.behavior .resetRemaining then r.burst
  else snap (min r.burst
    (shifted r b (restated r b q (balanceAt b.updatedAt q (leakRate r b q) t))))

section Rates
variable {limit duration : ℤ}

/-! ## Usable rates

The code calls a rate unusable that is not a positive finite number.  On `duration / limit` that is
the sign of the quotient, where Lean's division by zero gives zero and the code's an infinity or no
number: unusable both. -/

/-- A stored rate is usable iff it is a positive number. -/
theorem rateOf_usable (h : (0 : ℚ) < duration / limit) :
    rateOf limit duration = .fin (duration / limit) ∧
      unusableRate (rateOf limit duration) = false := by
  have hl : (limit : ℚ) ≠ 0 := by
    intro h0
    rw [h0, div_zero] at h
    exact lt_irrefl 0 h
  have hd : (duration : ℚ) ≠ 0 := by
    intro h0
    rw [h0, zero_div] at h
    exact lt_irrefl 0 h
  have hrate : rateOf limit duration = .fin (duration / limit) := by
    show ExactFloat.fin duration / .fin limit = _
    rw [fin_div_fin hl, if_neg (fun hz => hd hz.1)]
  exact ⟨hrate, by rw [hrate]; exact unusableRate_fin h⟩

/-- And unusable otherwise. -/
theorem rateOf_unusable (h : ¬ (0 : ℚ) < duration / limit) :
    unusableRate (rateOf limit duration) = true := by
  by_contra hu
  obtain ⟨ρ, hρ, hrate⟩ := usable_iff.mp (by simpa using hu)
  refine h ?_
  by_cases hl : limit = 0
  · -- a rate over zero is no number
    subst hl
    exfalso
    revert hrate
    show ExactFloat.fin duration / .fin ((0 : ℤ) : ℚ) ≠ .fin ρ
    rw [Int.cast_zero]
    show ExactFloat.div (.fin duration) (.fin 0) ≠ .fin ρ
    by_cases hd : (duration : ℚ) = 0 <;> simp [ExactFloat.div, val, hd]
  · have hl' : (limit : ℚ) ≠ 0 := by exact_mod_cast hl
    have hquot : rateOf limit duration = if (duration : ℚ) = 0 ∧ (limit : ℚ) < 0 then .negZero
        else .fin (duration / limit) := fin_div_fin hl'
    rw [hquot] at hrate
    split at hrate
    · cases hrate
    · rw [ExactFloat.fin.inj hrate]
      exact hρ

end Rates

section UpToDate
variable {host : Host} {now : ℤ} {r : RateLimitReq} {b : LeakyBucketItem} {tm : LeakyTerms}
  {q : ℚ}

/-! ## The steps

Each lemma is one step of `credited` on a rational balance. -/

/-- Either way the leak has a positive rate. -/
theorem leakRate_pos (hl : 0 < r.limit) (hd : 0 < r.duration) : 0 < leakRate r b q := by
  unfold leakRate
  split
  · rename_i h
    exact h.2
  · exact div_pos (by exact_mod_cast hd) (by exact_mod_cast hl)

/-- The request's own terms. -/
structure Brings (r : RateLimitReq) (now : ℤ) : Prop where
  limit : 0 < r.limit
  duration : 0 < r.duration
  burst : 0 < r.burst
  noGregorian : hasBehavior r.behavior .durationIsGregorian = false
  created : r.createdAt = epochMillis now

/-- The request is timed by the owner's clock. -/
theorem Brings.createdAt (h : Brings r now) (htm : leakyTerms host now r b = .ok tm) :
    tm.createdAt = epochMillis now := by
  rw [(leakyTerms_ok htm).2.1, h.created, ite_self]

/-- It brings a burst, so the stored one is not kept. -/
theorem Brings.tm_burst (h : Brings r now) (htm : leakyTerms host now r b = .ok tm) :
    tm.burst = r.burst := by
  have := h.burst
  rw [(leakyTerms_ok htm).2.2.2.2.2.2.1, if_neg (fun hb => by omega)]

/-- The rate `creditLeak` uses: the stored one for a debt, if usable, and the request's otherwise.
    -/
theorem Brings.creditRate (h : Brings r now) (htm : leakyTerms host now r b = .ok tm)
    (hq : b.remaining = .fin q) : tm.creditRate = .fin (leakRate r b q) := by
  obtain ⟨-, hrate, hkeep, -⟩ := usable_terms htm h.limit h.duration h.noGregorian
  obtain ⟨-, -, hstored, -, hresc, hconfig, -⟩ := leakyTerms_ok htm
  rw [h.noGregorian, requestUsable_iff.mpr ⟨h.limit, h.duration⟩, hq] at hresc
  simp only [Bool.not_false, Bool.true_and, fin_lt_zero] at hresc
  unfold LeakyTerms.creditRate LeakyTerms.rate leakRate
  rw [hkeep, hresc, hstored]
  by_cases hdebt : q < 0 ∧ (0 : ℚ) < b.duration / b.limit
  · obtain ⟨hrateOf, husable⟩ := rateOf_usable hdebt.2
    rw [if_pos hdebt, husable, hrateOf]
    cases hchanged : tm.configChanged with
    | true => simp [hdebt.1]
    | false =>
      -- the same config, so the same rate
      rw [hconfig] at hchanged
      simp only [Bool.or_eq_false_iff, bne_eq_false_iff_eq] at hchanged
      rw [hchanged.1, hchanged.2]
      simp [hrate]
  · rw [if_neg hdebt]
    -- no debt, or one at no rate: nothing is restated
    have hno : (decide (q < 0) && tm.configChanged &&
        !unusableRate (rateOf b.limit b.duration)) = false := by
      by_cases hq0 : q < 0
      · rw [rateOf_unusable (fun hpos => hdebt ⟨hq0, hpos⟩)]
        simp
      · simp [hq0]
    rw [hno]
    simp [hrate]

/-- The first step: the leak. -/
theorem Brings.leaked (h : Brings r now) (htm : leakyTerms host now r b = .ok tm)
    (hq : b.remaining = .fin q) : (creditLeak tm b).remaining =
      .fin (balanceAt b.updatedAt q (leakRate r b q) (epochMillis now)) := by
  have hpos : 0 < leakRate r b q := leakRate_pos h.limit h.duration
  unfold creditLeak
  rw [h.createdAt htm]
  split
  · rw [h.creditRate htm hq, creditedLeak_fin b _ hpos, hq, fin_add_fin]
    rfl
  · rename_i hle
    rw [hq, balanceAt, max_eq_left (not_lt.mp hle), sub_self, zero_div, add_zero]

/-- The second step: the debt restated at the request's rate. -/
theorem Brings.rescaled (h : Brings r now) (htm : leakyTerms host now r b = .ok tm)
    (hq : b.remaining = .fin q) : (rescaleDebt tm (creditLeak tm b)).remaining =
      .fin (restated r b q (balanceAt b.updatedAt q (leakRate r b q) (epochMillis now))) := by
  have hρ : (0 : ℚ) < r.duration / r.limit :=
    div_pos (by exact_mod_cast h.duration) (by exact_mod_cast h.limit)
  have hcredit := h.creditRate htm hq
  obtain ⟨-, hrate, hkeep, -⟩ := usable_terms htm h.limit h.duration h.noGregorian
  have htmrate : tm.rate = .fin (r.duration / r.limit) := by
    rw [LeakyTerms.rate, hkeep]
    exact hrate
  have hleak := h.leaked htm hq
  -- the code asks whether the snapped balance is negative
  have howed : snapToZero (creditLeak tm b).remaining < 0 ↔
      balanceAt b.updatedAt q (leakRate r b q) (epochMillis now) ≤ -epsilon := by
    rw [hleak, snapToZero_fin, fin_lt_zero, snap_lt_zero]
  unfold rescaleDebt restated
  cases hresc : tm.rescale with
  | true =>
    simp only [LeakyTerms.creditRate, hresc, if_true] at hcredit
    by_cases hdebt : balanceAt b.updatedAt q (leakRate r b q) (epochMillis now) ≤ -epsilon
    · rw [if_pos ⟨rfl, howed.mpr hdebt⟩, if_pos hdebt]
      dsimp only
      rw [hleak, hcredit, htmrate, fin_div_fin_of_pos hρ]
      exact fin_mul_fin (div_pos (leakRate_pos h.limit h.duration) hρ)
    · rw [if_neg (fun hn => hdebt (howed.mp hn.2)), if_neg hdebt]
      exact hleak
  | false =>
    -- nothing to restate: the debt leaks at the request's rate
    simp only [LeakyTerms.creditRate, hresc, Bool.false_eq_true, if_false, htmrate] at hcredit
    simp only [Bool.false_eq_true, false_and, if_false]
    rw [← ExactFloat.fin.inj hcredit, div_self hρ.ne', mul_one, ite_self, hleak,
      ← ExactFloat.fin.inj hcredit]

/-- **`credited` computes `upToDate`.** -/
theorem Brings.credited (h : Brings r now) (htm : leakyTerms host now r b = .ok tm)
    (hq : b.remaining = .fin q) : Gubernator.credited r tm b =
      { limit := r.limit, duration := r.duration, burst := r.burst
        remaining := .fin (upToDate r b q (epochMillis now))
        updatedAt := max b.updatedAt (epochMillis now) } := by
  have hchanged := (leakyTerms_ok htm).2.2.2.2.2.2.2.1
  have hburst := h.tm_burst htm
  obtain ⟨-, -, -, hlimit, hduration, -⟩ := usable_terms htm h.limit h.duration h.noGregorian
  have htime : (Gubernator.credited r tm b).updatedAt = max b.updatedAt (epochMillis now) := by
    rw [credited_updatedAt, h.createdAt htm]
  have hcap : (Gubernator.credited r tm b).burst = r.burst := by
    rw [credited_burst _ _ _ hchanged, hburst]
  -- the last two steps: the burst moved, and the cut
  have hbalance : (Gubernator.credited r tm b).remaining =
      .fin (upToDate r b q (epochMillis now)) := by
    rw [credited_remaining r tm b hchanged, hburst]
    unfold refill upToDate
    split
    · rw [hburst, ofInt_eq, min_fin, snapToZero_fin, min_self, snap_int]
    · have hshift : (shiftBurst tm (rescaleDebt tm (creditLeak tm b))).remaining =
          .fin (shifted r b (restated r b q
            (balanceAt b.updatedAt q (leakRate r b q) (epochMillis now)))) := by
        have hbefore : (rescaleDebt tm (creditLeak tm b)).burst = b.burst := by
          simp [(rescaleDebt_fields _ _).2.1, (creditLeak_fields _ _).2.1]
        unfold shiftBurst shifted
        rw [hchanged, hburst]
        by_cases hne : b.burst = r.burst
        · simp only [hne, bne_self_eq_false, Bool.false_eq_true, if_false, ne_eq, not_true_eq_false,
            false_and]
          exact h.rescaled htm hq
        · simp only [bne_iff_ne, ne_eq, hne, not_false_eq_true, if_true, true_and, hbefore,
            h.rescaled htm hq, snapToZero_fin, zero_eq_fin, fin_le_fin, snap_nonneg, ofInt_eq,
            fin_add_fin, max_fin]
          split <;> rfl
      rw [hshift, ofInt_eq, min_fin, snapToZero_fin]
  rw [← hlimit, ← hduration, ← hcap, ← hbalance, ← htime]

/-- It is never above the burst. -/
theorem upToDate_le (t : ℤ) : upToDate r b q t ≤ r.burst := by
  unfold upToDate
  split
  · exact le_rfl
  · exact snap_le_int (min_le_left _ _)

end UpToDate

end Gubernator
