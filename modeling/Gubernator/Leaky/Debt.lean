/-
  DEBT: a leaky bucket whose balance is below zero, at a usable rate.

  Such a bucket clears at one moment, `updatedAt - balance * rate`.  A request that finds the key
  still in debt credits the leak, may restate the debt at a new rate, may book more — and the
  moment does not move except by what it books.  The one way out is a change of limit or
  duration that restates the debt as less than `1e-9` tokens, which counts as none.

  The argument has three steps:

  1. the TERMS: a bucket in debt is always timed by the owner's clock, leaks at the rate stored with
     it, and keeps its stored config unless the request is plain and usable;
  2. CREDITING: leak, rescaling, burst shift and clamp leave a debt a debt, and `balance * rate` is
     what the rescaling preserves, so the clearing moment stays;
  3. CHARGING: of the five things `charge` can do, a debt rules out admission and refund, makes
     draining idle, and a booking moves the moment by `hits * rate`.
-/
import Gubernator.Leaky.Call
import Gubernator.Instance

namespace Gubernator

open ExactFloat

/-- A balance of `q < 0` tokens at the stored rate of `ρ` milliseconds per token. -/
@[mk_iff] structure Debt (b : LeakyBucketItem) (q ρ : ℚ) : Prop where
  balance : b.remaining = .fin q
  neg : q < 0
  rate : rateOf b.limit b.duration = .fin ρ
  rate_pos : 0 < ρ

instance (b : LeakyBucketItem) (q ρ : ℚ) : Decidable (Debt b q ρ) :=
  decidable_of_iff _ (debt_iff b q ρ).symm

/-- The moment a balance of `q` tokens, current at `u`, is back at zero. -/
def clearsAt (u : ℤ) (q ρ : ℚ) : ℚ := u - q * ρ

/-- The request restates a debt of `q` tokens as less than `1e-9` tokens. -/
def RescaledAway (r : RateLimitReq) (b : LeakyBucketItem) (q ρ : ℚ) : Prop :=
  hasBehavior r.behavior .durationIsGregorian = false ∧ 0 < r.limit ∧ 0 < r.duration ∧
    (b.limit ≠ r.limit ∨ b.duration ≠ r.duration) ∧ |q * (ρ / (r.duration / r.limit))| < epsilon

instance (r : RateLimitReq) (b : LeakyBucketItem) (q ρ : ℚ) : Decidable (RescaledAway r b q ρ) :=
  inferInstanceAs (Decidable (_ ∧ _ ∧ _ ∧ _ ∧ _))

/-! ## The terms of a request on a debt

`leakyTerms` decides before anything is written whether the stored config is kept and whether the
debt is to be restated.  Both decisions depend on the sign of the balance and on the stored rate
being usable, which `Debt` fixes; what remains of them is about the request alone. -/

section Terms
variable {host : Host} {now : ℤ} {r : RateLimitReq} {b : LeakyBucketItem} {tm : LeakyTerms}
  {q ρ : ℚ}

/-- A key in debt is timed by the owner's clock, whatever the request says about its creation. -/
theorem Debt.createdAt (hd : Debt b q ρ) (htm : leakyTerms host now r b = .ok tm) :
    tm.createdAt = epochMillis now := by
  rw [(leakyTerms_ok htm).2.1, hd.balance]
  exact if_pos (.inr (fin_lt_zero.mpr hd.neg))

/-- The rate computed from the stored config is the one the debt was booked at. -/
theorem Debt.storedRate (hd : Debt b q ρ) (htm : leakyTerms host now r b = .ok tm) :
    tm.storedRate = .fin ρ := by
  rw [(leakyTerms_ok htm).2.2.1, hd.rate]

/-- The stored config is kept for a Gregorian request, and for one whose own rate is unusable. -/
theorem Debt.keepStored (hd : Debt b q ρ) (htm : leakyTerms host now r b = .ok tm) :
    tm.keepStored = (hasBehavior r.behavior .durationIsGregorian || !requestUsable r) := by
  rw [(leakyTerms_ok htm).2.2.2.1, hd.balance, hd.rate, unusableRate_fin hd.rate_pos]
  simp [hd.neg]

/-- The debt is restated exactly when the request brings another config and is free to bring it. -/
theorem Debt.rescale (hd : Debt b q ρ) (htm : leakyTerms host now r b = .ok tm) :
    tm.rescale = (!hasBehavior r.behavior .durationIsGregorian && requestUsable r &&
      tm.configChanged) := by
  rw [(leakyTerms_ok htm).2.2.2.2.1, hd.balance, hd.rate, unusableRate_fin hd.rate_pos]
  simp [hd.neg]

/-- A debt still owed keeps its burst unless the request brings a positive one. -/
theorem Debt.burst_owed (hd : Debt b q ρ) (htm : leakyTerms host now r b = .ok tm)
    (hreset : hasBehavior r.behavior .resetRemaining = false)
    (howed : balanceAt b.updatedAt q ρ (epochMillis now) ≤ -epsilon) :
    tm.burst = if 0 < r.burst then r.burst else b.burst := by
  have hdebt : debtAt b tm.createdAt = true := by
    rw [hd.createdAt htm, debtAt_fin hd.balance hd.rate hd.rate_pos]
    exact decide_eq_true howed
  rw [(leakyTerms_ok htm).2.2.2.2.2.2.1, hdebt, hreset]
  -- a burst of zero or less stands for none: the stored one is kept while the debt lasts
  by_cases hpos : 0 < r.burst
  · rw [if_pos hpos, if_neg (by omega)]
  · rw [if_neg hpos, if_pos ⟨rfl, by simp; omega⟩]

/-- Whatever the request, a debt leaks at the rate it was booked at. -/
theorem Debt.leaked (hd : Debt b q ρ) (htm : leakyTerms host now r b = .ok tm) :
    (creditLeak tm b).remaining = .fin (balanceAt b.updatedAt q ρ (epochMillis now)) := by
  -- the credit rate is the stored one whether it is kept, rescaled from or brought again
  have hrate : b.updatedAt < tm.createdAt → tm.creditRate = .fin ρ := by
    intro _
    unfold LeakyTerms.creditRate LeakyTerms.rate
    rw [hd.storedRate htm, hd.keepStored htm, hd.rescale htm]
    by_cases hkeep : (hasBehavior r.behavior .durationIsGregorian || !requestUsable r) = true
    · simp [hkeep]
    · simp only [Bool.or_eq_true, Bool.not_eq_true', not_or, Bool.not_eq_true,
        Bool.not_eq_false] at hkeep
      simp only [hkeep.1, hkeep.2, Bool.not_false, Bool.true_and, Bool.or_false,
        Bool.not_true, Bool.false_eq_true, if_false]
      split
      · rfl
      · -- neither kept nor rescaled: the request's config is the stored one
        rename_i hsame
        rw [(leakyTerms_ok htm).2.2.2.2.2.1] at hsame
        simp only [Bool.or_eq_true, bne_iff_ne, ne_eq, not_or, not_not] at hsame
        have hterms := (leakyTerms_ok htm).1
        rw [requestTerms_plain hkeep.1] at hterms
        rw [← (Prod.mk.inj (Except.ok.inj hterms)).1, ← hsame.1, ← hsame.2, hd.rate]
  -- the leak itself: nothing is credited to an item whose own time is ahead of the clock
  unfold creditLeak
  rw [← hd.createdAt htm]
  split
  · rename_i hlt
    simp only [hrate hlt, creditedLeak_fin b _ hd.rate_pos, hd.balance, fin_add_fin]
    rfl
  · rename_i hle
    rw [hd.balance, balanceAt, max_eq_left (not_lt.mp hle), sub_self, zero_div, add_zero]

end Terms

/-! ## From the rescaled balance to the balance charged

Two more steps lie between: a changed burst shifts a balance that is not a debt, and everything is
clamped to the burst and snapped to zero within `1e-9`.  A debt of at least `1e-9` passes both
untouched; anything above that is no debt any more and lands between zero and the burst. -/

section Settle
variable {r : RateLimitReq} {tm : LeakyTerms} {b : LeakyBucketItem}

/-- A balance that reads as debt passes the burst shift and the clamp unchanged. -/
theorem credited_of_debt {q : ℚ} (hchanged : tm.burstChanged = (b.burst != tm.burst))
    (hreset : hasBehavior r.behavior .resetRemaining = false) (hburst : 0 ≤ tm.burst)
    (hq : (rescaleDebt tm (creditLeak tm b)).remaining = .fin q) (hdebt : q ≤ -epsilon) :
    (credited r tm b).remaining = .fin q := by
  have hneg : q < 0 := by have := epsilon_pos; linarith
  have hshift : (shiftBurst tm (rescaleDebt tm (creditLeak tm b))).remaining = .fin q := by
    unfold shiftBurst
    split
    · simp [hq, snap_of_le hdebt, not_le.mpr hneg]
    · exact hq
  -- the clamp to the burst is idle below zero
  have hle : q ≤ tm.burst := by
    have : (0 : ℚ) ≤ tm.burst := by exact_mod_cast hburst
    linarith
  rw [credited_remaining r tm b hchanged, refill, hreset]
  simp only [Bool.false_eq_true, if_false, hshift, ofInt_eq, min_fin, snapToZero_fin,
    min_eq_right hle, snap_of_le hdebt]

/-- A balance that does not read as debt ends between zero and the burst. -/
theorem credited_of_credit {q : ℚ} (hchanged : tm.burstChanged = (b.burst != tm.burst))
    (hreset : hasBehavior r.behavior .resetRemaining = false) (hburst : 0 ≤ tm.burst)
    (hq : (rescaleDebt tm (creditLeak tm b)).remaining = .fin q) (hcredit : -epsilon < q) :
    ∃ q', (credited r tm b).remaining = .fin q' ∧ 0 ≤ q' ∧ q' ≤ tm.burst := by
  have hburst' : (0 : ℚ) ≤ tm.burst := by exact_mod_cast hburst
  -- the shift never makes a debt: it cuts at zero
  obtain ⟨q₁, hshift, hq₁⟩ :
      ∃ q₁, (shiftBurst tm (rescaleDebt tm (creditLeak tm b))).remaining = .fin q₁ ∧
        -epsilon < q₁ := by
    unfold shiftBurst
    split
    · refine ⟨max 0 (q + ((tm.burst - (rescaleDebt tm (creditLeak tm b)).burst : ℤ) : ℚ)), ?_, ?_⟩
      · simp only [hq, snapToZero_fin, zero_eq_fin, fin_le_fin, snap_nonneg.mpr hcredit, if_true,
          ofInt_eq, fin_add_fin, max_fin]
      · exact lt_of_lt_of_le (by have := epsilon_pos; linarith) (le_max_left _ _)
    · exact ⟨q, hq, hcredit⟩
  refine ⟨snap (min tm.burst q₁), ?_, ?_, ?_⟩
  · rw [credited_remaining r tm b hchanged, refill, hreset]
    simp only [Bool.false_eq_true, if_false, hshift, ofInt_eq, min_fin, snapToZero_fin]
  · exact snap_nonneg.mpr (lt_min (by have := epsilon_pos; linarith) hq₁)
  · exact snap_le hburst (min_le_left _ _)

end Settle

/-! ## A request on a debt still owed

The debt is still owed at the request's clock if what has leaked since leaves more than `1e-9` of
it. -/

/-- **What crediting does to a debt still owed.**  Unless the request rescales it away, the item
    holds a debt that clears at the same moment, at the rate the hits are charged at. -/
theorem Debt.credited_owed {host : Host} {now : ℤ} {r : RateLimitReq} {b : LeakyBucketItem}
    {tm : LeakyTerms} {q ρ : ℚ} (hd : Debt b q ρ) (hburst : 0 ≤ b.burst)
    (htm : leakyTerms host now r b = .ok tm)
    (hreset : hasBehavior r.behavior .resetRemaining = false)
    (howed : balanceAt b.updatedAt q ρ (epochMillis now) ≤ -epsilon)
    (hkept : ¬ RescaledAway r b (balanceAt b.updatedAt q ρ (epochMillis now)) ρ) :
    ∃ q' ρ', Debt (credited r tm b) q' ρ' ∧ q' ≤ -epsilon ∧ 0 ≤ (credited r tm b).burst ∧
      chargeRate tm (credited r tm b) = .fin ρ' ∧
      clearsAt (credited r tm b).updatedAt q' ρ' = clearsAt b.updatedAt q ρ := by
  set t := epochMillis now with ht
  set q₁ := balanceAt b.updatedAt q ρ t with hq₁
  have hε := epsilon_pos
  have hchanged := (leakyTerms_ok htm).2.2.2.2.2.2.2.1
  have htmburst : 0 ≤ tm.burst := by
    rw [hd.burst_owed htm hreset howed]
    split <;> omega
  -- the leak pays off the debt but does not move its clearing
  have hclears : ((max b.updatedAt t : ℤ) : ℚ) - q₁ * ρ = clearsAt b.updatedAt q ρ :=
    balanceAt_clears b.updatedAt q hd.rate_pos t
  have hupdated : (credited r tm b).updatedAt = max b.updatedAt t := by
    rw [credited_updatedAt, hd.createdAt htm]
  have hcburst : 0 ≤ (credited r tm b).burst := by
    rw [credited_burst r tm b hchanged]
    exact htmburst
  by_cases hresc : tm.rescale = true
  · -- the debt is restated at the request's rate
    have hresc' := hresc
    rw [hd.rescale htm] at hresc'
    simp only [Bool.and_eq_true, Bool.not_eq_true'] at hresc'
    obtain ⟨⟨hgreg, husable⟩, hconfig⟩ := hresc'
    obtain ⟨hl, hdur⟩ := requestUsable_iff.mp husable
    have hρr : (0 : ℚ) < r.duration / r.limit :=
      div_pos (by exact_mod_cast hdur) (by exact_mod_cast hl)
    have hkeep : tm.keepStored = false := by
      rw [hd.keepStored htm, hgreg, husable]
      rfl
    have hrate : tm.requestRate = .fin (r.duration / r.limit) := by
      have hterms := (leakyTerms_ok htm).1
      rw [requestTerms_plain hgreg, rateOf_pos _ hl] at hterms
      exact (Prod.mk.inj (Except.ok.inj hterms)).1.symm
    -- the code multiplies by `storedRate / rate`, so that `balance * rate` is kept
    have hfactor : 0 < ρ / (r.duration / r.limit : ℚ) := div_pos hd.rate_pos hρr
    have hq₂ : (rescaleDebt tm (creditLeak tm b)).remaining =
        .fin (q₁ * (ρ / (r.duration / r.limit))) := by
      rw [rescaleDebt, hd.leaked htm, ← ht, ← hq₁]
      rw [if_pos ⟨hresc, by simpa using snap_lt_zero.mpr howed⟩]
      simp only [LeakyTerms.rate, hkeep, Bool.false_eq_true, if_false, hrate, hd.storedRate htm,
        fin_div_fin_of_pos hρr, fin_mul_fin hfactor]
    have hneg : q₁ * (ρ / (r.duration / r.limit)) < 0 :=
      mul_neg_of_neg_of_pos (by linarith) hfactor
    -- a restated debt that would read as none is what `RescaledAway` excludes
    have hdebt : q₁ * (ρ / (r.duration / r.limit)) ≤ -epsilon := by
      by_contra hsmall
      refine hkept ⟨hgreg, hl, hdur, ?_, ?_⟩
      · rw [(leakyTerms_ok htm).2.2.2.2.2.1] at hconfig
        simpa using hconfig
      · rw [abs_of_neg hneg]
        linarith [not_le.mp hsmall]
    have hrem := credited_of_debt hchanged hreset htmburst hq₂ hdebt
    rcases credited_config r tm b with ⟨-, hlim, hdur', hcharge⟩ | ⟨hk, -⟩
    · refine ⟨_, _, ⟨hrem, hneg, ?_, hρr⟩, hdebt, hcburst, ?_, ?_⟩
      · rw [hlim, hdur', rateOf_pos _ hl]
      · rw [hcharge, hrate]
      · rw [hupdated, ← hclears, clearsAt]
        field_simp
    · rw [hkeep] at hk
      cases hk
  · have hq₂ : (rescaleDebt tm (creditLeak tm b)).remaining = .fin q₁ := by
      rw [rescaleDebt, if_neg (fun h => hresc h.1), hd.leaked htm]
    have hrem := credited_of_debt hchanged hreset htmburst hq₂ howed
    have hconfig : (credited r tm b).limit = b.limit ∧ (credited r tm b).duration = b.duration ∧
        chargeRate tm (credited r tm b) = .fin ρ := by
      rcases credited_config r tm b with ⟨hk, hlim, hdur, hcharge⟩ | ⟨-, -, hlim, hdur, hcharge⟩
      · -- nothing kept and nothing rescaled: the request's config is the stored one
        have hk' : tm.keepStored = false := hk.resolve_right (by
          rw [hrem, zero_le_fin]
          linarith)
        rw [hd.keepStored htm] at hk'
        simp only [Bool.or_eq_false_iff, Bool.not_eq_false'] at hk'
        have hsame := hresc
        rw [hd.rescale htm, hk'.1, hk'.2, (leakyTerms_ok htm).2.2.2.2.2.1] at hsame
        simp only [Bool.not_false, Bool.and_true, Bool.true_and, Bool.or_eq_true, bne_iff_ne,
          ne_eq, not_or, not_not] at hsame
        have hterms := (leakyTerms_ok htm).1
        rw [requestTerms_plain hk'.1] at hterms
        refine ⟨by rw [hlim, hsame.1], by rw [hdur, hsame.2], ?_⟩
        rw [hcharge, ← (Prod.mk.inj (Except.ok.inj hterms)).1, ← hsame.1, ← hsame.2, hd.rate]
      · exact ⟨hlim, hdur, by rw [hcharge, hd.storedRate htm]⟩
    refine ⟨q₁, ρ, ⟨hrem, by linarith, ?_, hd.rate_pos⟩, howed, hcburst, hconfig.2.2, ?_⟩
    · rw [hconfig.1, hconfig.2.1, hd.rate]
    · rw [hupdated, ← hclears, clearsAt]

/-- **What a call leaves of a debt still owed** that cleared at `C` and would have been back at
    burst at `F`, on an item that was to expire at `x`: a debt of `-q'` tokens at the rate `ρ'`. -/
structure Owing (t : ℤ) (r : RateLimitReq) (reqState : RateLimitReqState) (C F : ℚ) (x : ℤ)
    (out : LeakyOutcome) (q' ρ' : ℚ) : Prop where
  debt : Debt out.b q' ρ'
  owed : q' ≤ -epsilon
  burst_nonneg : 0 ≤ out.b.burst
  updatedAt_le : t ≤ out.b.updatedAt
  expiry_le : x ≤ out.expireAt
  refused : 0 < r.hits → out.resp.status ≠ .underLimit
  moment :
    (out.resp.status ≠ .scheduled ∧ clearsAt out.b.updatedAt q' ρ' = C) ∨
    (out.resp.status = .scheduled ∧ 0 < r.hits ∧
      clearsAt out.b.updatedAt q' ρ' = C + r.hits * ρ' ∧
      out.resp.retryAfter = max 1 ⌈clearsAt out.b.updatedAt q' ρ' - t - waitEpsilon⌉ ∧
      out.resp.retryAfter ≤ min r.maxWait reqState.ceiling)
  outlived : F ≤ x → clearsAt out.b.updatedAt q' ρ' + out.b.burst * ρ' ≤ out.expireAt

/-- The wait of a booking is the time to the moment its debt clears. -/
theorem waitFor_clearsAt (host : Host) {b : LeakyBucketItem} {q ρ : ℚ}
    (hq : b.remaining = .fin q) (hρ : 0 < ρ) {t : ℤ} (ht : t ≤ b.updatedAt) (hits : ℤ) :
    waitFor host b hits t (.fin ρ) =
      max 1 ⌈clearsAt b.updatedAt (q - hits) ρ - t - waitEpsilon⌉ := by
  rw [waitFor_fin host hq hρ, max_eq_left ht, clearsAt]
  congr 2
  ring

/-- Being full again is the burst's worth of refill after the debt clears. -/
theorem clearsAt_add_burst (u burst : ℤ) (q ρ : ℚ) :
    clearsAt u q ρ + burst * ρ = u + (burst - q) * ρ := by
  unfold clearsAt
  ring

/-- An unchanged limit, duration and burst are the item's after crediting, too. -/
theorem credited_unchanged {host : Host} {now : ℤ} {r : RateLimitReq} {b : LeakyBucketItem}
    {tm : LeakyTerms} (htm : leakyTerms host now r b = .ok tm)
    (h : ¬ (tm.burstChanged = true ∨ tm.configChanged = true)) :
    (credited r tm b).burst = b.burst ∧ (credited r tm b).limit = b.limit ∧
      (credited r tm b).duration = b.duration := by
  obtain ⟨-, -, -, -, -, hconfig, -, hchanged, -⟩ := leakyTerms_ok htm
  rw [hconfig, hchanged] at h
  simp only [bne_iff_ne, ne_eq, Bool.or_eq_true, not_or, not_not] at h
  rw [credited_burst r tm b hchanged]
  rcases credited_config r tm b with ⟨-, hlim, hdur, -⟩ | ⟨-, -, hlim, hdur, -⟩
  · exact ⟨h.1.symm, by rw [hlim, h.2.1], by rw [hdur, h.2.2]⟩
  · exact ⟨h.1.symm, hlim, hdur⟩

/-- **One request on a debt still owed.** It answers no hit `UNDER_LIMIT` and leaves `Owing`: the
    debt that was there, or that debt plus the hits it booked. -/
theorem Debt.item_owed {host : Host} {now : ℤ} {r : RateLimitReq} {reqState : RateLimitReqState}
    {b : LeakyBucketItem} {x : ℤ} {out : LeakyOutcome} {q ρ : ℚ} (hd : Debt b q ρ)
    (hburst : 0 ≤ b.burst) (hout : leakyBucketItem host now r reqState b x = .ok out)
    (hvalid : 0 < r.maxWait → 0 ≤ r.hits)
    (hreset : hasBehavior r.behavior .resetRemaining = false)
    (howed : balanceAt b.updatedAt q ρ (epochMillis now) ≤ -epsilon)
    (hkept : ¬ RescaledAway r b (balanceAt b.updatedAt q ρ (epochMillis now)) ρ) :
    ∃ tm q' ρ', leakyTerms host now r b = .ok tm ∧ chargeRate tm (credited r tm b) = .fin ρ' ∧
      Owing (epochMillis now) r reqState (clearsAt b.updatedAt q ρ)
        (clearsAt b.updatedAt q ρ + b.burst * ρ) x out q' ρ' := by
  obtain ⟨tm, htm, hdeferred⟩ := leakyBucketItem_ok hout
  obtain ⟨q', ρ', hd', hq', hburst', hrate, hclears⟩ :=
    hd.credited_owed hburst htm hreset howed hkept
  have hle : q' ≤ (credited r tm b).burst := by
    have : (0 : ℚ) ≤ (credited r tm b).burst := by exact_mod_cast hburst'
    linarith [hd'.neg]
  have hcharged := leakyBucketItem_charged hout htm hd'.balance hle hvalid
  have hsame := fun h => credited_unchanged htm h
  have hcreated := hd.createdAt htm
  have hupdated : epochMillis now ≤ (credited r tm b).updatedAt := by
    rw [credited_updatedAt, hcreated]
    exact le_max_right _ _
  have hwas : tm.wasInDebt = true := by
    rw [(leakyTerms_ok htm).2.2.2.2.2.2.2.2, hd.balance, hreset]
    simp [hd.neg]
  -- the hits of a request do not touch the expiry of an item that was in debt
  have htouched : touchedExpiry r tm x = x := by simp [touchedExpiry, hwas]
  rw [htouched, hrate, hcreated] at hcharged
  have hdefer : tm.burstChanged = true ∨ tm.configChanged = true →
      fullAt host out.b (.fin ρ') ≤ out.expireAt := by
    intro hch
    have husable := unusableRate_fin hd'.rate_pos
    rw [← hrate] at husable ⊢
    rw [hdeferred, (deferredExpiry_fields ..).2.1]
    exact deferredExpiry_full _ hwas hch husable
  set b' := credited r tm b with hb'
  have hε := epsilon_pos
  -- an item the charge leaves alone outlives its debt by the deferred extension, or because
  -- nothing about the debt has changed
  have houtlived : out.b = b' → x ≤ out.expireAt → clearsAt b.updatedAt q ρ + b.burst * ρ ≤ x →
      clearsAt b'.updatedAt q' ρ' + b'.burst * ρ' ≤ out.expireAt := by
    intro hob hxo hF
    by_cases hch : tm.burstChanged = true ∨ tm.configChanged = true
    · have hfull := hdefer hch
      rw [hob] at hfull
      rw [clearsAt_add_burst]
      exact (le_fullAt host hd'.balance hd'.rate_pos).trans (by exact_mod_cast hfull)
    · obtain ⟨hB, hlim, hdur⟩ := hsame hch
      have hρ : ρ' = ρ := by
        have := hd'.rate
        rw [hlim, hdur, hd.rate] at this
        exact (ExactFloat.fin.inj this).symm
      rw [hclears, hB, hρ]
      exact hF.trans (by exact_mod_cast hxo)
  -- what is common to every way that takes nothing
  have hkeeps : out.b = b' → x ≤ out.expireAt → out.resp.status ≠ .scheduled →
      (0 < r.hits → out.resp.status ≠ .underLimit) →
      Owing (epochMillis now) r reqState (clearsAt b.updatedAt q ρ)
        (clearsAt b.updatedAt q ρ + b.burst * ρ) x out q' ρ' := by
    intro hob hxo hs hu
    refine ⟨hob ▸ hd', hq', hob ▸ hburst', hob ▸ hupdated, hxo, hu, .inl ⟨hs, ?_⟩, ?_⟩
    · rw [hob]; exact hclears
    · rw [hob]; exact houtlived hob hxo
  cases hcharged with
  | kept hob hs hu hx => exact ⟨tm, q', ρ', htm, hrate, hkeeps hob hx hs hu⟩
  | drained hob hs hx =>
    -- draining takes a positive balance to zero; there is none
    have hsame : ({ b' with remaining := .fin (min q' 0) } : LeakyBucketItem) = b' := by
      rw [min_eq_left hd'.neg.le, ← hd'.balance]
    refine ⟨tm, q', ρ', htm, hrate, hkeeps (hob.trans hsame) hx ?_ (fun _ => ?_)⟩
    · rw [hs]; decide
    · rw [hs]; decide
  | admitted hits enough =>
    -- admission needs a balance of at least the hits
    have : (1 : ℚ) ≤ r.hits := by exact_mod_cast hits
    linarith
  | refunded hits credit => linarith [hd'.neg]
  | booked ρ₁ hρ₁ hrate₁ wait hits fits short hob hs hw allowed hx full =>
    have hhits : (0 : ℚ) < r.hits := by exact_mod_cast hits
    have hdebt : Debt out.b (q' - r.hits) ρ' :=
      ⟨by rw [hob], by linarith, by rw [hob]; exact hd'.rate, hd'.rate_pos⟩
    -- the booked hits are owed on top, at the rate in force
    have hmoment : clearsAt b'.updatedAt (q' - r.hits) ρ' =
        clearsAt b.updatedAt q ρ + r.hits * ρ' := by
      rw [← hclears, clearsAt, clearsAt]
      ring
    refine ⟨tm, q' - r.hits, ρ', htm, hrate, ⟨hdebt, by linarith, by rw [hob]; exact hburst',
      by rw [hob]; exact hupdated, hx, fun _ => by rw [hs]; decide, .inr ⟨hs, hits, ?_, ?_,
        allowed⟩, fun _ => ?_⟩⟩
    · rw [hob]; exact hmoment
    · rw [hw, hob]
      exact waitFor_clearsAt host hd'.balance hd'.rate_pos hupdated r.hits
    · rw [clearsAt_add_burst]
      exact (le_fullAt host hdebt.balance hd'.rate_pos).trans (by exact_mod_cast full)

/-- **What a booking leaves**: a debt at the rate it was charged at, whose clearing moment gives
    the wait, on an item that stays until the balance is back at burst. -/
theorem item_booked {host : Host} {now : ℤ} {r : RateLimitReq} {reqState : RateLimitReqState}
    {b : LeakyBucketItem} {x : ℤ} {out : LeakyOutcome} {tm : LeakyTerms} {q : ℚ}
    (hout : leakyBucketItem host now r reqState b x = .ok out)
    (htm : leakyTerms host now r b = .ok tm) (hq : (credited r tm b).remaining = .fin q)
    (hqB : q ≤ (credited r tm b).burst)
    (hvalid : 0 < r.maxWait →
      0 ≤ r.hits ∧ hasBehavior r.behavior .durationIsGregorian = false)
    (hs : out.resp.status = .scheduled) :
    ∃ ρ, chargeRate tm (credited r tm b) = .fin ρ ∧ Debt out.b (q - r.hits) ρ ∧
      q - r.hits ≤ -epsilon ∧ out.b.burst = (credited r tm b).burst ∧
      out.resp.retryAfter =
        max 1 ⌈clearsAt out.b.updatedAt (q - r.hits) ρ - epochMillis now - waitEpsilon⌉ ∧
      out.resp.retryAfter ≤ reqState.ceiling ∧
      clearsAt out.b.updatedAt (q - r.hits) ρ + out.b.burst * ρ ≤ out.expireAt := by
  have hcharged := leakyBucketItem_charged hout htm hq hqB (fun h => (hvalid h).1)
  have hplain := fun h => chargeRate_plain htm h
  have hupdated := credited_updatedAt r tm b
  cases hcharged with
  | kept _ hs' => exact absurd hs hs'
  | drained _ hs' => rw [hs'] at hs; cases hs
  | admitted _ _ _ hs' => rw [hs'] at hs; cases hs
  | refunded _ _ _ hs' => rw [hs'] at hs; cases hs
  | booked ρ hρ hrate wait hits fits short hob _ hw allowed _ full =>
    -- a request that may wait is timed by the owner's clock
    have hcreated : tm.createdAt = epochMillis now := by
      rw [(leakyTerms_ok htm).2.1]
      exact if_pos (.inl wait)
    have ht : epochMillis now ≤ (credited r tm b).updatedAt := by
      rw [hupdated, hcreated]
      exact le_max_right _ _
    have hd : Debt out.b (q - r.hits) ρ := by
      refine ⟨by rw [hob], by linarith [epsilon_pos], ?_, hρ⟩
      rw [hob, ← hrate]
      exact (hplain (hvalid wait).2).symm
    refine ⟨ρ, hrate, hd, by linarith, by rw [hob], ?_, allowed.trans (min_le_right _ _), ?_⟩
    · rw [hw, hrate, hcreated, hob]
      exact waitFor_clearsAt host hq hρ ht r.hits
    · rw [clearsAt_add_burst]
      rw [hrate] at full
      exact (le_fullAt host hd.balance hρ).trans (by exact_mod_cast full)

/-! ## The call

What `item_owed` says of the item holds of the call: the item is found, worked on and put back under
its key. -/

/-- **The debt-clearing moment is conserved.**  A request that finds a key still in debt answers
    no hit `UNDER_LIMIT`, and leaves a debt that clears when the old one did, plus the hits it
    booked at the rate then stored — unless it rescales the debt away. -/
theorem leakyBucket_conserves_clearing (host : Host) (now : ℤ) (s : Shard) (r : RateLimitReq)
    (reqState : RateLimitReqState) (item : CacheItem) (b : LeakyBucketItem) (q ρ : ℚ)
    (resp : RateLimitResp)
    (hfind : s.find (epochMillis now) r = some (item, .leaky b)) (hd : Debt b q ρ)
    (hburst : 0 ≤ b.burst)
    (howed : balanceAt b.updatedAt q ρ (epochMillis now) ≤ -epsilon)
    (hreset : hasBehavior r.behavior .resetRemaining = false) (hvalid : validateMaxWait r = "")
    (hok : (leakyBucket host now s r reqState).1 = .ok resp)
    (hkept : ¬ RescaledAway r b (balanceAt b.updatedAt q ρ (epochMillis now)) ρ) :
    (0 < r.hits → resp.status ≠ .underLimit) ∧
    ∃ item' b' q' ρ', (leakyBucket host now s r reqState).2.cache.peek r.hashKey = some item' ∧
      item'.value = some (.leaky b') ∧ b'.remaining = .fin q' ∧
      rateOf b'.limit b'.duration = .fin ρ' ∧ 0 < ρ' ∧
      clearsAt b'.updatedAt q' ρ' =
        clearsAt b.updatedAt q ρ + if resp.status = .scheduled then r.hits * ρ' else 0 := by
  obtain ⟨out, hout, rfl, hpeek⟩ := leakyBucket_found hfind hok
  obtain ⟨-, q', ρ', -, -, howing⟩ := hd.item_owed hburst hout
    (fun hw => by simpa using (validateMaxWait_scheduled hvalid (by simpa using hw)).2.2.2.2.2)
    (by simpa using hreset) howed (by simpa [RescaledAway] using hkept)
  refine ⟨by simpa using howing.refused, _, out.b, q', ρ', hpeek, rfl, howing.debt.balance,
    howing.debt.rate, howing.debt.rate_pos, ?_⟩
  rcases howing.moment with ⟨hne, hC⟩ | ⟨hsched, -, hC, -⟩
  · rw [hC, if_neg hne, add_zero]
  · rw [hC, if_pos hsched, withBurst_hits]

/-- A debt of three tokens at one a second. -/
def owingBucket : LeakyBucketItem := ⟨1, 1000, .fin (-3), 10000, 1⟩

/-- Its place in the cache, with the expiry at twenty seconds. -/
def owingItem : CacheItem :=
  ⟨.leakyBucket, "requests_account:1", some (.leaky owingBucket), 20000, 0⟩

/-- Queried with the duration doubled, it is a debt of one and a half tokens at one every two
    seconds, and clears at the same moment. -/
theorem leakyBucket_conserves_clearing_rescaled :
    ∃ item' b' q' ρ', (leakyBucket .amd64 10000000000 (.ofItems [owingItem])
        (.sample 0 1 2000 1 10000 0) ⟨true, 0⟩).2.cache.peek "requests_account:1" = some item' ∧
      item'.value = some (.leaky b') ∧ b'.remaining = .fin q' ∧
      rateOf b'.limit b'.duration = .fin ρ' ∧ 0 < ρ' ∧
      clearsAt b'.updatedAt q' ρ' = clearsAt 10000 (-3) 1000 + 0 :=
  (leakyBucket_conserves_clearing .amd64 10000000000 (.ofItems [owingItem])
    (.sample 0 1 2000 1 10000 0) ⟨true, 0⟩ owingItem owingBucket (-3) 1000
    { limit := 1, remaining := 0, resetTime := 15000 }
    (by decide +kernel) (by decide +kernel) (by decide) (by decide +kernel) (by decide)
    (by decide +kernel) (by decide +kernel) (by decide +kernel)).2

end Gubernator
