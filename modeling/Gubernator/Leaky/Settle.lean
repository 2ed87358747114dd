/-
  THE DECISION on a balance, in rational numbers.

  Once the balance is up to date, what a request does depends on six numbers: the balance, the
  burst, the rate, how far the item's time is ahead of the clock, the ceiling, and the request's
  own.  `settle` is that function; `charge_settle` says that `charge` computes it, and
  `charge_expiry` how long the item is kept at least.  `Settlement` puts the two together for a
  request that leaves the item's limit, duration and burst as they are.

  The statements about runs (the spend in a window, the table of slots, the conformance to a cell
  rate) are all about `settle` and the leak.  They never see `ExactFloat`, and not the order in
  which `charge` does its tests.
-/
import Gubernator.Leaky.Query

namespace Gubernator

open ExactFloat

/-- The wait for hits on a balance of `y`, the item's time `lag` ahead of the clock. -/
def slotWait (ρ : ℚ) (lag : ℤ) (hits : ℤ) (y : ℚ) : ℤ :=
  max 1 ⌈lag + (hits - y) * ρ - waitEpsilon⌉

/-- **The decision**: the status, and the balance left of `y`. -/
def settle (burst : ℤ) (ρ : ℚ) (lag ceiling : ℤ) (r : RateLimitReq) (y : ℚ) : Status × ℚ :=
  if r.hits = 0 then (.underLimit, y)
  else if 0 < r.maxWait then
    if burst < r.hits then (.neverFits, y)
    else if r.hits ≤ y + epsilon then (.underLimit, snap (y - r.hits))
    else if min r.maxWait ceiling < slotWait ρ lag r.hits y then (.overLimit, y)
    else (.scheduled, y - r.hits)
  else if r.hits < 0 ∧ y < 0 then (.underLimit, y)
  else if y + epsilon < r.hits then
    (.overLimit, if hasBehavior r.behavior .drainOverLimit then min y 0 else y)
  else (.underLimit, snap (min burst (y - r.hits)))

section Charge
variable {b : LeakyBucketItem} {r : RateLimitReq} {y ρ : ℚ}

/-- The wait that the code computes, on a rational balance. -/
theorem waitFor_eq_slotWait (host : Host) (hy : b.remaining = .fin y) (hρ : 0 < ρ) (hits t : ℤ) :
    waitFor host b hits t (.fin ρ) = slotWait ρ (max b.updatedAt t - t) hits y := by
  rw [waitFor_fin host hy hρ, slotWait]
  push_cast
  rfl

/-- Short of tokens, in whole numbers and in rationals. -/
theorem wholeTokens_lt_iff (host : Host) {hits : ℤ} (hplain : ¬ (hits < 0 ∧ y < 0))
    (h0 : hits ≠ 0) : wholeTokens host (.fin y) < hits ↔ y + epsilon < hits := by
  rcases lt_or_gt_of_ne h0 with hneg | hpos
  · -- a refund is never short
    have hy : 0 ≤ y := not_lt.mp (fun h => hplain ⟨hneg, h⟩)
    have hneg' : (hits : ℚ) < 0 := by exact_mod_cast hneg
    have hwhole : 0 ≤ wholeTokens host (.fin y) := by
      have := epsilon_pos
      rw [wholeTokens_of_nonneg host (by linarith)]
      exact Int.floor_nonneg.mpr (by linarith)
    refine iff_of_false (by omega) (not_lt.mpr ?_)
    linarith [epsilon_pos]
  · rw [← not_le, ← not_le, le_wholeTokens hpos]

/-- **`charge` computes the decision.** -/
theorem charge_settle (host : Host) (x : ℤ) (hy : b.remaining = .fin y) (hρ : 0 < ρ)
    (hvalid : 0 < r.maxWait → 0 ≤ r.hits) (reqState : RateLimitReqState) (tm : LeakyTerms) :
    (charge host x b r reqState tm (.fin ρ)).resp.status =
        (settle b.burst ρ (max b.updatedAt tm.createdAt - tm.createdAt) reqState.ceiling r y).1 ∧
      (charge host x b r reqState tm (.fin ρ)).b = { b with
        remaining := .fin (settle b.burst ρ (max b.updatedAt tm.createdAt - tm.createdAt)
          reqState.ceiling r y).2 } := by
  unfold charge settle
  dsimp only
  -- one `by_cases` for each test of `charge`, in its order: query, wait, refund on a debt, shortage
  by_cases h0 : r.hits = 0
  · rw [if_pos h0, if_pos h0]
    exact ⟨rfl, by rw [← hy]⟩
  rw [if_neg h0, if_neg h0]
  by_cases hwait : 0 < r.maxWait
  · have hpos : 0 < r.hits := lt_of_le_of_ne (hvalid hwait) (Ne.symm h0)
    rw [if_pos hwait, if_pos hwait]
    unfold scheduleHits
    simp only [unusableRate_fin hρ, Bool.false_eq_true, or_false]
    -- the tests of `scheduleHits`: size, balance, wait
    by_cases hfits : b.burst < r.hits
    · rw [if_pos hfits, if_pos hfits]
      exact ⟨rfl, by rw [← hy]⟩
    rw [if_neg hfits, if_neg hfits]
    by_cases henough : (r.hits : ℚ) ≤ y + epsilon
    · rw [if_pos henough, if_pos (hy ▸ (le_wholeTokens hpos).mpr henough)]
      exact ⟨rfl, by rw [hy, ofInt_eq, fin_sub_fin, snapToZero_fin]⟩
    have hshort : ¬ r.hits ≤ wholeTokens host b.remaining := by
      rw [hy, le_wholeTokens hpos]
      exact henough
    rw [if_neg henough, if_neg hshort, waitFor_eq_slotWait host hy hρ]
    by_cases hlong : min r.maxWait reqState.ceiling <
        slotWait ρ (max b.updatedAt tm.createdAt - tm.createdAt) r.hits y
    · rw [if_pos hlong, if_pos hlong]
      exact ⟨rfl, by rw [← hy]⟩
    · rw [if_neg hlong, if_neg hlong]
      exact ⟨rfl, by rw [hy, ofInt_eq, fin_sub_fin]⟩
  rw [if_neg hwait, if_neg hwait, hy]
  by_cases hrefund : r.hits < 0 ∧ y < 0
  · rw [if_pos hrefund, if_pos ⟨hrefund.1, fin_lt_zero.mpr hrefund.2⟩]
    exact ⟨rfl, by rw [← hy]⟩
  rw [if_neg hrefund, if_neg (fun h => hrefund ⟨h.1, fin_lt_zero.mp h.2⟩)]
  by_cases hshort : y + epsilon < r.hits
  · rw [if_pos hshort, if_pos ((wholeTokens_lt_iff host hrefund h0).mpr hshort)]
    by_cases hdrain : hasBehavior r.behavior .drainOverLimit = true
    · rw [if_pos hdrain, if_pos hdrain]
      exact ⟨rfl, by rw [zero_eq_fin, min_fin]⟩
    · rw [if_neg hdrain, if_neg hdrain]
      exact ⟨rfl, by rw [← hy]⟩
  · rw [if_neg hshort, if_neg (mt (wholeTokens_lt_iff host hrefund h0).mp hshort)]
    exact ⟨rfl, by rw [ofInt_eq, ofInt_eq, fin_sub_fin, min_fin, snapToZero_fin]⟩

end Charge

/-! ## What a decision can be

Hits are refused, let in or booked.  A refusal leaves the balance or drains it to zero, and the
other two take the hits off it; only an admission snaps the result. -/

/-- **What the decision on hits can be.** -/
theorem settle_cases (burst : ℤ) (ρ : ℚ) (lag ceiling : ℤ) {r : RateLimitReq} {y : ℚ}
    (hpos : 0 < r.hits) (hy : y ≤ burst) :
    ((settle burst ρ lag ceiling r y).1 ≠ .underLimit ∧
        (settle burst ρ lag ceiling r y).1 ≠ .scheduled ∧
        ((settle burst ρ lag ceiling r y).2 = y ∨
          hasBehavior r.behavior .drainOverLimit = true ∧
            (settle burst ρ lag ceiling r y).2 = min y 0)) ∨
      ((settle burst ρ lag ceiling r y).1 = .underLimit ∧ (r.hits : ℚ) ≤ y + epsilon ∧
        (settle burst ρ lag ceiling r y).2 = snap (y - r.hits)) ∨
      ((settle burst ρ lag ceiling r y).1 = .scheduled ∧ y + epsilon < r.hits ∧
        (settle burst ρ lag ceiling r y).2 = y - r.hits) := by
  have hpos' : (0 : ℚ) < r.hits := by exact_mod_cast hpos
  unfold settle
  rw [if_neg (by omega : ¬ r.hits = 0)]
  by_cases hwait : 0 < r.maxWait
  · rw [if_pos hwait]
    split
    · exact .inl ⟨by simp, by simp, .inl rfl⟩
    split
    · rename_i henough
      exact .inr (.inl ⟨rfl, henough, rfl⟩)
    rename_i hshort
    split
    · exact .inl ⟨by simp, by simp, .inl rfl⟩
    · exact .inr (.inr ⟨rfl, not_le.mp hshort, rfl⟩)
  rw [if_neg hwait, if_neg (fun h => by omega : ¬ (r.hits < 0 ∧ y < 0))]
  split
  · refine .inl ⟨by simp, by simp, ?_⟩
    by_cases hdrain : hasBehavior r.behavior .drainOverLimit = true
    · exact .inr ⟨hdrain, if_pos hdrain⟩
    · exact .inl (if_neg hdrain)
  · rename_i henough
    refine .inr (.inl ⟨rfl, not_lt.mp henough, ?_⟩)
    -- hits only lower the balance, so the burst does not cut it off
    show snap (min burst (y - r.hits)) = snap (y - r.hits)
    rw [min_eq_right (by linarith)]

/-- **How long the item is kept**: never shorter than before the decision, and until it is full
    once more if hits were booked, or taken from a key that was in debt. -/
theorem charge_expiry (host : Host) (x : ℤ) (b : LeakyBucketItem) (r : RateLimitReq)
    (reqState : RateLimitReqState) (tm : LeakyTerms) (rate : ExactFloat) (hhits : 0 ≤ r.hits) :
    x ≤ (charge host x b r reqState tm rate).expireAt ∧
      ((charge host x b r reqState tm rate).resp.status = .scheduled ∨
          tm.wasInDebt = true ∧ 0 < r.hits ∧
            (charge host x b r reqState tm rate).resp.status = .underLimit →
        fullAt host (charge host x b r reqState tm rate).b rate ≤
          (charge host x b r reqState tm rate).expireAt) ∧
      (r.hits = 0 → (charge host x b r reqState tm rate).expireAt = x) := by
  unfold charge
  dsimp only
  split
  · rename_i h0
    refine ⟨le_rfl, ?_, fun _ => rfl⟩
    rintro (h | ⟨-, hpos, -⟩)
    · simp [leakyStatus] at h
    · omega
  rename_i h0
  split
  · -- only an admission and a booking move the expiry, and both to `extendDebtExpiry`
    unfold scheduleHits
    split
    · refine ⟨le_rfl, fun h => by simp at h, fun h => absurd h h0⟩
    split
    · refine ⟨le_ite_extendDebtExpiry .., ?_, fun h => absurd h h0⟩
      rintro (h | ⟨hdebt, -⟩)
      · simp [leakyStatus] at h
      · simp only [hdebt, if_true]
        exact fullAt_le_extendDebtExpiry ..
    dsimp only
    split
    · exact ⟨le_rfl, fun h => by simp at h, fun h => absurd h h0⟩
    · exact ⟨le_extendDebtExpiry .., fun _ => fullAt_le_extendDebtExpiry .., fun h => absurd h h0⟩
  rw [if_neg (by omega)]
  split
  · split
    · exact ⟨le_rfl, fun h => by simp at h, fun h => absurd h h0⟩
    · exact ⟨le_rfl, fun h => by simp at h, fun h => absurd h h0⟩
  · refine ⟨le_ite_extendDebtExpiry .., ?_, fun h => absurd h h0⟩
    rintro (h | ⟨hdebt, -⟩)
    · simp [leakyStatus] at h
    · simp only [hdebt, if_true]
      exact fullAt_le_extendDebtExpiry ..

/-! ## A request under unchanged terms

If the request brings the limit, duration and burst of the item, crediting is the leak and the clamp
alone (`refreshed`), and there is no deferred extension. -/

/-- **The outcome of a request at `t` that leaves the terms of the item as they are**, on a
    balance of `q` tokens and an expiry of `x`. -/
structure Settlement (r : RateLimitReq) (ceiling t : ℤ) (b : LeakyBucketItem) (q : ℚ) (x : ℤ)
    (out : LeakyOutcome) (ρ y : ℚ) : Prop where
  /-- the balance decided on: leaked and cut at the burst, or the burst after a reset -/
  refreshed : y = refreshed b.burst ρ (hasBehavior r.behavior .resetRemaining) b.updatedAt q t
  status : out.resp.status = (settle b.burst ρ (max b.updatedAt t - t) ceiling r y).1
  bucket : out.b = { b with
    remaining := .fin (settle b.burst ρ (max b.updatedAt t - t) ceiling r y).2
    updatedAt := max b.updatedAt t }
  /-- hits on a key that was not in debt keep it for one more duration -/
  touched : r.hits ≠ 0 → ¬ (q < 0 ∧ hasBehavior r.behavior .resetRemaining = false) →
    t + r.duration ≤ out.expireAt
  /-- every other request keeps it as long as it was to be kept, at least -/
  longer : ¬ (r.hits ≠ 0 ∧ ¬ (q < 0 ∧ hasBehavior r.behavior .resetRemaining = false)) →
    x ≤ out.expireAt
  /-- a booking, and hits let in on a key that was in debt, keep it until it is full -/
  full : (out.resp.status = .scheduled ∨ 0 < r.hits ∧ out.resp.status = .underLimit ∧ q < 0 ∧
      hasBehavior r.behavior .resetRemaining = false) →
    ((max b.updatedAt t : ℤ) : ℚ) +
      (b.burst - (settle b.burst ρ (max b.updatedAt t - t) ceiling r y).2) * ρ ≤ out.expireAt
  query : r.hits = 0 → out.expireAt = x

/-- A key that was not in debt, or is reset, is not in debt when the hits are charged. -/
theorem Settlement.nonneg_of_clear {r : RateLimitReq} {ceiling t : ℤ} {b : LeakyBucketItem} {q : ℚ}
    {x : ℤ} {out : LeakyOutcome} {ρ y : ℚ} (h : Settlement r ceiling t b q x out ρ y)
    (hB : 0 ≤ b.burst) (hρ : 0 < ρ)
    (hclear : ¬ (q < 0 ∧ hasBehavior r.behavior .resetRemaining = false)) : 0 ≤ y := by
  have hB' : (0 : ℚ) ≤ b.burst := by exact_mod_cast hB
  rw [h.refreshed, Gubernator.refreshed]
  split
  · exact hB'
  · rename_i hreset
    have hq : 0 ≤ q := not_lt.mp (fun hn => hclear ⟨hn, by simpa using hreset⟩)
    refine snap_nonneg.mpr (lt_of_lt_of_le (neg_lt_zero.mpr epsilon_pos) (le_min hB' ?_))
    exact hq.trans (le_balanceAt b.updatedAt q hρ t)

/-- **A request under unchanged terms is settled**, at its own rate. -/
theorem SameTerms.settlement {host : Host} {now : ℤ} {r : RateLimitReq}
    {reqState : RateLimitReqState} {b : LeakyBucketItem} {x : ℤ} {out : LeakyOutcome} {q : ℚ}
    (h : SameTerms r b) (hout : leakyBucketItem host now r reqState b x = .ok out)
    (hl : 0 < r.limit) (hd : 0 < r.duration)
    (hgreg : hasBehavior r.behavior .durationIsGregorian = false)
    (hcreated : r.createdAt = epochMillis now) (hhits : 0 ≤ r.hits) (hq : b.remaining = .fin q) :
    ∃ y, Settlement r reqState.ceiling (epochMillis now) b q x out (r.duration / r.limit) y := by
  obtain ⟨tm, htm, hdeferred⟩ := leakyBucketItem_ok hout
  obtain ⟨-, hchanged, hconfig, -⟩ := h.unchanged htm
  -- nothing has changed, so nothing is deferred
  rw [deferredExpiry, if_neg (by simp [hchanged, hconfig])] at hdeferred
  have htime : tm.createdAt = epochMillis now := by
    rw [(leakyTerms_ok htm).2.1, hcreated, ite_self]
  obtain ⟨hduration, -, -, -, -, hrate⟩ := usable_terms htm hl hd hgreg
  have hwas : tm.wasInDebt = true ↔ q < 0 ∧ hasBehavior r.behavior .resetRemaining = false := by
    rw [(leakyTerms_ok htm).2.2.2.2.2.2.2.2, hq]
    simp
  have hρ : (0 : ℚ) < r.duration / r.limit := div_pos (by exact_mod_cast hd) (by exact_mod_cast hl)
  have hcredited := h.upToDate htm hl hd hgreg hq
  rw [hrate, hcredited] at hdeferred
  rw [htime] at hdeferred hcredited
  set y := Gubernator.refreshed b.burst (r.duration / r.limit)
    (hasBehavior r.behavior .resetRemaining) b.updatedAt q (epochMillis now) with hy
  set b' : LeakyBucketItem :=
    { b with remaining := .fin y, updatedAt := max b.updatedAt (epochMillis now) } with hb'
  obtain ⟨hstatus, hbucket⟩ := charge_settle host (touchedExpiry r tm x) (b := b') rfl hρ
    (fun _ => hhits) reqState tm
  obtain ⟨hlonger, hfull, hquery⟩ := charge_expiry host (touchedExpiry r tm x) b' r reqState tm
    (.fin (r.duration / r.limit)) hhits
  rw [← hdeferred] at hstatus hbucket hlonger hfull hquery
  -- the lag is the same before and after crediting
  have hlag : max b'.updatedAt tm.createdAt - tm.createdAt =
      max b.updatedAt (epochMillis now) - epochMillis now := by
    rw [htime, hb']
    simp
  rw [hlag] at hstatus hbucket
  refine ⟨y, hy, hstatus, hbucket, fun h0 hclear => ?_, fun hkeep => ?_, fun hgrant => ?_,
    fun h0 => ?_⟩
  · rw [touchedExpiry, if_pos ⟨h0, fun hw => hclear (hwas.mp hw)⟩, htime, hduration] at hlonger
    exact hlonger
  · rw [touchedExpiry, if_neg (fun hw => hkeep ⟨hw.1, fun hd => hw.2 (hwas.mpr hd)⟩)] at hlonger
    exact hlonger
  · have hle : fullAt host out.b (.fin (r.duration / r.limit)) ≤ out.expireAt := by
      refine hfull (hgrant.imp_right fun hg => ?_)
      exact ⟨hwas.mpr ⟨hg.2.2.1, hg.2.2.2⟩, hg.1, hg.2.1⟩
    have hmoment := le_fullAt host (b := out.b) (by rw [hbucket]) hρ
    rw [hbucket] at hmoment
    rw [hbucket] at hle
    exact hmoment.trans (by exact_mod_cast hle)
  · rw [hquery h0, touchedExpiry, if_neg (fun hw => hw.1 h0)]

end Gubernator
