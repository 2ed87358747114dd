/-
  ENTERING DEBT: how a leaky key that owes nothing can come to owe.

  By a booking, as it is meant — and in three more ways, all through a limit, duration or burst
  that is not positive.  A new bucket starts at a negative burst; a found one is clamped to a
  negative burst; and a negative rate makes the leak take tokens away.  `debtUnbooked` says
  exactly when, and `debt_only_booked_iff` that these are all.

  The proof has two halves, joined by the balance at the moment the hits are charged.

    1. TO DEBT. With a negative burst, or after a leak at a negative rate, the credited balance is
       below `-1e-9` (`credited_of_negative_burst`, `credited_of_leaked_debt`).  From there `charge`
       can only leave it so, and cannot book: a booking needs hits within the burst and a rate to
       compute a wait from, and neither kind of request has both (`charge_unbooked`).
    2. FROM CREDIT. Otherwise the credited balance is a rational of `-1e-9` or more
       (`credited_of_no_leak`), and of the five things `charge` does to it only a booking goes below
       (`item_booked_of_debt`).

  Debt is read as the code reads it, below `-1e-9`.  A leak can also end in minus infinity, for
  which every step has a case of its own.
-/
import Gubernator.Leaky.Solvency

namespace Gubernator

open ExactFloat

/-- The cached balance of the key is below `-1e-9` tokens. -/
def owesDebt (s : Shard) (key : String) : Bool :=
  match (s.cache.peek key).bind CacheItem.value with
  | some (.leaky b) => decide (b.remaining < .fin (-epsilon))
  | _ => false

/-- The answer is a booking. -/
def answeredScheduled : Except String RateLimitResp → Bool
  | .ok resp => resp.status == .scheduled
  | .error _ => false

/-- The key has no item, or a leaky one whose balance is not negative. -/
inductive NoDebt (s : Shard) (now : ℤ) (r : RateLimitReq) : Prop
  | absent (h : (s.lookup now r).1 = none)
  | present (item : CacheItem) (b : LeakyBucketItem) (q : ℚ)
      (hfind : s.find now r = some (item, .leaky b)) (hq : b.remaining = .fin q) (hq0 : 0 ≤ q)

/-- Crediting the leak at `rate` up to `t` takes the balance below `-1e-9` tokens. -/
def leaksIntoDebt (b : LeakyBucketItem) (t : ℤ) (rate : ExactFloat) : Bool :=
  decide (b.updatedAt < t ∧ b.remaining + creditedLeak b t rate < .fin (-epsilon))

/-- **The requests that put a key in debt without a booking.** -/
def debtUnbooked (host : Host) (now : ℤ) (s : Shard) (r : RateLimitReq) : Bool :=
  match requestTerms host now r, s.find (epochMillis now) r with
  | .error _, _ => false
  | .ok (rate, _), some (_, .leaky b) =>
    decide (r.withBurst.burst < 0) ||
      (!hasBehavior r.behavior .resetRemaining &&
        leaksIntoDebt b (if 0 < r.maxWait then epochMillis now else r.createdAt) rate)
  | .ok _, _ => decide (r.withBurst.burst < 0 ∧ r.hits ≤ r.withBurst.burst)

/-! ## The terms of a request on a balance that is not negative

A key out of debt is worked on with the request's own limit, duration and burst. -/

section Terms
variable {host : Host} {now : ℤ} {r : RateLimitReq} {b : LeakyBucketItem} {tm : LeakyTerms} {q : ℚ}

/-- A balance that is not negative reads as no debt at any time. -/
theorem debtAt_of_nonneg (hq : b.remaining = .fin q) (hq0 : 0 ≤ q) (t : ℤ) :
    debtAt b t = false := by
  have hε := epsilon_pos
  cases hu : unusableRate (rateOf b.limit b.duration) with
  | true =>
    simp only [debtAt, hu, if_true, hq, snapToZero_fin, fin_lt_zero, decide_eq_false_iff_not,
      not_lt]
    exact snap_nonneg.mpr (by linarith)
  | false =>
    obtain ⟨ρ, hρ, hrate⟩ := usable_iff.mp hu
    rw [debtAt_fin hq hrate hρ, decide_eq_false_iff_not]
    linarith [le_balanceAt b.updatedAt q hρ t]

/-- Nothing of the stored config is kept, and the burst and the rate are the request's. -/
theorem terms_of_nonneg (htm : leakyTerms host now r b = .ok tm) (hq : b.remaining = .fin q)
    (hq0 : 0 ≤ q) :
    tm.burst = r.burst ∧ tm.rescale = false ∧ tm.creditRate = tm.requestRate ∧
      chargeRate tm (credited r tm b) = tm.requestRate ∧
      tm.createdAt = if 0 < r.maxWait then epochMillis now else r.createdAt := by
  obtain ⟨-, hc, -, hkeep, hresc, -, hburst, -, -⟩ := leakyTerms_ok htm
  have hnot : ¬ b.remaining < 0 := by
    rw [hq, fin_lt_zero]
    exact not_lt.mpr hq0
  have hkeep' : tm.keepStored = false := by rw [hkeep, decide_eq_false hnot]; simp
  have hresc' : tm.rescale = false := by rw [hresc, decide_eq_false hnot]; simp
  refine ⟨?_, hresc', ?_, ?_, ?_⟩
  · rw [hburst, debtAt_of_nonneg hq hq0]
    simp
  · simp [LeakyTerms.creditRate, LeakyTerms.rate, hresc', hkeep']
  · simp [chargeRate, adopts, hkeep']
  · simpa [hnot] using hc

/-- The balance after the leak, and whether it reads as debt. -/
theorem leak_of_nonneg (htm : leakyTerms host now r b = .ok tm) (hq : b.remaining = .fin q)
    (hq0 : 0 ≤ q) :
    (rescaleDebt tm (creditLeak tm b)).remaining = (creditLeak tm b).remaining ∧
    ((∃ x, (creditLeak tm b).remaining = .fin x) ∨ ∃ s, (creditLeak tm b).remaining = .inf s) ∧
    ((creditLeak tm b).remaining < .fin (-epsilon) ↔
      leaksIntoDebt b tm.createdAt tm.requestRate = true) := by
  obtain ⟨-, hresc, hcredit, -, -⟩ := terms_of_nonneg htm hq hq0
  refine ⟨by simp [rescaleDebt, hresc], ?_⟩
  unfold creditLeak leaksIntoDebt
  rw [hcredit]
  split
  · rename_i hlt
    refine ⟨?_, by simp [hlt]⟩
    rw [hq]
    exact (leaked_cases q b _ _).imp_right (fun h => h.imp (fun _ hs => hs.1))
  · -- no time has passed, and the balance is what it was
    rename_i hle
    refine ⟨.inl ⟨q, hq⟩, ?_⟩
    have : ¬ q < -epsilon := by have := epsilon_pos; linarith
    simp [hle, hq, this]

end Terms

/-! ## A balance in debt when the hits are charged

Here the balance need not be a rational. -/

/-- A debt is a rational one or minus infinity; not a number is no debt. -/
theorem lt_debt_iff {y : ExactFloat} :
    y < .fin (-epsilon) ↔ (∃ q, y = .fin q ∧ q < -epsilon) ∨ y = .inf true := by
  cases y with
  | fin q => simp
  | negZero =>
    have : ¬ ExactFloat.negZero < .fin (-epsilon) := by decide +kernel
    simp [this]
  | inf s => simp
  | nan => simp

/-- A balance in debt is below zero. -/
theorem lt_zero_of_lt_debt {y : ExactFloat} (h : y < .fin (-epsilon)) : y < 0 := by
  have hε := epsilon_pos
  rcases lt_debt_iff.mp h with ⟨q, rfl, hq⟩ | rfl
  · rw [fin_lt_zero]
    linarith
  · rfl

/-- A balance in debt is not rounded to zero. -/
theorem snapToZero_of_debt {y : ExactFloat} (h : y < .fin (-epsilon)) : snapToZero y = y := by
  rcases lt_debt_iff.mp h with ⟨q, rfl, hq⟩ | rfl
  · rw [snapToZero_fin, snap_of_le hq.le]
  · rfl

/-- A debt the request cannot book on is left as it is, or worse, and the answer is no booking. -/
theorem charge_unbooked {host : Host} {x : ℤ} {b : LeakyBucketItem} {r : RateLimitReq}
    {reqState : RateLimitReqState} {tm : LeakyTerms} {rate : ExactFloat}
    (hdebt : b.remaining < .fin (-epsilon))
    (hnever : 0 < r.maxWait → 0 < r.hits → b.burst < r.hits ∨ unusableRate rate = true)
    (hvalid : 0 < r.maxWait → 0 ≤ r.hits) :
    (charge host x b r reqState tm rate).b.remaining < .fin (-epsilon) ∧
      (charge host x b r reqState tm rate).resp.status ≠ .scheduled := by
  unfold charge
  dsimp only
  -- a query leaves the balance
  by_cases h0 : r.hits = 0
  · rw [if_pos h0]
    exact ⟨hdebt, by simp [leakyStatus]⟩
  rw [if_neg h0]
  by_cases hw : 0 < r.maxWait
  · have hpos : 0 < r.hits := lt_of_le_of_ne (hvalid hw) (Ne.symm h0)
    -- a request that waits is told that it never fits
    rw [if_pos hw, scheduleHits, if_pos (hnever hw hpos)]
    exact ⟨hdebt, by simp⟩
  rw [if_neg hw]
  by_cases hneg : r.hits < 0
  · rw [if_pos ⟨hneg, lt_zero_of_lt_debt hdebt⟩]
    exact ⟨hdebt, by simp [leakyStatus]⟩
  rw [if_neg (fun h => hneg h.1)]
  have hpos : 0 < r.hits := by omega
  -- refused, with or without a drain, or granted out of minus infinity
  by_cases hmore : wholeTokens host b.remaining < r.hits
  · rw [if_pos hmore]
    split
    · refine ⟨?_, by simp⟩
      rcases lt_debt_iff.mp hdebt with ⟨q, hq, hlt⟩ | hinf
      · have : min q 0 = q := min_eq_left (by have := epsilon_pos; linarith)
        simp [hq, zero_eq_fin, this, hlt]
      · rw [hinf]
        rfl
    · exact ⟨hdebt, by simp⟩
  · rw [if_neg hmore]
    refine ⟨?_, by simp [leakyStatus]⟩
    rcases lt_debt_iff.mp hdebt with ⟨q, hq, hlt⟩ | hinf
    · -- no finite debt covers a hit
      rw [hq, not_lt, le_wholeTokens hpos] at hmore
      have : (1 : ℚ) ≤ r.hits := by exact_mod_cast hpos
      linarith
    · rw [hinf, ofInt_eq, ofInt_eq, inf_sub_fin, min_fin_negInf]
      rfl

/-! ## A found item

The two halves of the proof: into debt, and out of credit. -/

section Found
variable {host : Host} {now : ℤ} {r : RateLimitReq} {reqState : RateLimitReqState}
  {b : LeakyBucketItem} {tm : LeakyTerms} {q : ℚ} {x : ℤ} {out : LeakyOutcome}

/-- A negative burst clamps every balance into debt. -/
theorem credited_of_negative_burst (htm : leakyTerms host now r b = .ok tm)
    (hq : b.remaining = .fin q) (hq0 : 0 ≤ q) (hburst : r.burst < 0) :
    (credited r tm b).remaining < .fin (-epsilon) := by
  obtain ⟨hB, -⟩ := terms_of_nonneg htm hq hq0
  obtain ⟨hsame, hcases, -⟩ := leak_of_nonneg htm hq hq0
  rw [← hsame] at hcases
  -- a burst is whole, so a negative one is at most `-1`
  have hone : (tm.burst : ℚ) ≤ -1 := by
    rw [hB]
    exact_mod_cast (by omega : r.burst ≤ -1)
  have hε : epsilon < 1 := by norm_num [epsilon]
  rw [credited_remaining r tm b (leakyTerms_ok htm).2.2.2.2.2.2.2.1, ofInt_eq]
  have hmin : ExactFloat.min (.fin tm.burst)
      (refill r tm (shiftBurst tm (rescaleDebt tm (creditLeak tm b)))).remaining <
        .fin (-epsilon) := by
    -- shift and refill keep a rational balance rational
    have hrefilled :
        (∃ y, (refill r tm (shiftBurst tm (rescaleDebt tm (creditLeak tm b)))).remaining =
        .fin y) ∨ ∃ s, (refill r tm (shiftBurst tm (rescaleDebt tm (creditLeak tm b)))).remaining =
        .inf s := by
      rcases hcases with ⟨y, hy⟩ | ⟨s, hs⟩
      · exact .inl (refilled_fin r tm _ hy)
      · exact (refilled_inf r tm _ hs).imp_right (fun h => ⟨s, h⟩)
    rcases hrefilled with ⟨y, hy⟩ | ⟨s, hs⟩
    · rw [hy, min_fin, fin_lt_fin]
      exact lt_of_le_of_lt (min_le_left _ _) (by linarith)
    · rw [hs]
      cases s with
      | false =>
        rw [min_fin_posInf, fin_lt_fin]
        linarith
      | true =>
        rw [min_fin_negInf]
        rfl
  rw [snapToZero_of_debt hmin]
  exact hmin

/-- A leak into debt passes the shift and the clamp of a burst that is not negative. -/
theorem credited_of_leaked_debt (htm : leakyTerms host now r b = .ok tm)
    (hq : b.remaining = .fin q) (hq0 : 0 ≤ q) (hburst : 0 ≤ r.burst)
    (hreset : hasBehavior r.behavior .resetRemaining = false)
    (hleak : leaksIntoDebt b tm.createdAt tm.requestRate = true) :
    (credited r tm b).remaining < .fin (-epsilon) := by
  obtain ⟨hB, -⟩ := terms_of_nonneg htm hq hq0
  obtain ⟨hsame, -, hiff⟩ := leak_of_nonneg htm hq hq0
  have hchanged := (leakyTerms_ok htm).2.2.2.2.2.2.2.1
  rcases lt_debt_iff.mp (hiff.mpr hleak) with ⟨y, hy, hlt⟩ | hinf
  · rw [credited_of_debt hchanged hreset (hB ▸ hburst) (hsame.trans hy) hlt.le, fin_lt_fin]
    exact hlt
  · -- minus infinity passes the shift as well
    have hshift : (shiftBurst tm (rescaleDebt tm (creditLeak tm b))).remaining = .inf true := by
      unfold shiftBurst
      split
      · rw [hsame, hinf]
        rfl
      · exact hsame.trans hinf
    rw [credited_remaining r tm b hchanged, refill, hreset]
    simp only [Bool.false_eq_true, if_false, hshift, ofInt_eq, min_fin_negInf]
    rfl

/-- A rate that leaks tokens away is none a wait can be computed from. -/
theorem unusable_of_leaksIntoDebt {t : ℤ} {rate : ExactFloat} (hq : b.remaining = .fin q)
    (hq0 : 0 ≤ q) (h : leaksIntoDebt b t rate = true) : unusableRate rate = true := by
  by_contra hu
  -- a usable rate is positive, and leaks into the bucket
  obtain ⟨ρ, hρ, rfl⟩ := usable_iff.mp (Bool.eq_false_iff.mpr hu)
  obtain ⟨-, hlt⟩ := of_decide_eq_true h
  rw [hq, creditedLeak_fin b t hρ, fin_add_fin, fin_lt_fin] at hlt
  have := le_balanceAt b.updatedAt q hρ t
  unfold balanceAt at this
  linarith [epsilon_pos]

/-- The requests `debtUnbooked` names leave a debt they did not book. -/
theorem item_unbooked (hout : leakyBucketItem host now r reqState b x = .ok out)
    (htm : leakyTerms host now r b = .ok tm) (hq : b.remaining = .fin q) (hq0 : 0 ≤ q)
    (hvalid : 0 < r.maxWait → 0 ≤ r.hits)
    (h : r.burst < 0 ∨ hasBehavior r.behavior .resetRemaining = false ∧
      leaksIntoDebt b tm.createdAt tm.requestRate = true) :
    out.b.remaining < .fin (-epsilon) ∧ out.resp.status ≠ .scheduled := by
  obtain ⟨hB, -, -, hrate, -⟩ := terms_of_nonneg htm hq hq0
  obtain ⟨tm₁, htm₁, rfl⟩ := leakyBucketItem_ok hout
  obtain rfl := Except.ok.inj (htm.symm.trans htm₁)
  rw [(deferredExpiry_fields ..).1, (deferredExpiry_fields ..).2.1]
  have hcburst := credited_burst r tm b (leakyTerms_ok htm).2.2.2.2.2.2.2.1
  -- no hits are within a negative burst; no wait can be computed at a negative rate
  by_cases hburst : r.burst < 0
  · refine charge_unbooked (credited_of_negative_burst htm hq hq0 hburst) (fun _ hpos => .inl ?_)
      hvalid
    rw [hcburst, hB]
    omega
  · obtain ⟨hreset, hleak⟩ := h.resolve_left hburst
    refine charge_unbooked
      (credited_of_leaked_debt htm hq hq0 (not_lt.mp hburst) hreset hleak)
      (fun _ _ => .inr ?_) hvalid
    rw [hrate]
    exact unusable_of_leaksIntoDebt hq hq0 hleak

/-- Every other request reaches the charge with a rational balance of `-1e-9` or more. -/
theorem credited_of_no_leak (htm : leakyTerms host now r b = .ok tm) (hq : b.remaining = .fin q)
    (hq0 : 0 ≤ q) (hburst : 0 ≤ r.burst)
    (h : ¬ (hasBehavior r.behavior .resetRemaining = false ∧
      leaksIntoDebt b tm.createdAt tm.requestRate = true)) :
    ∃ y, (credited r tm b).remaining = .fin y ∧ -epsilon ≤ y ∧ y ≤ (credited r tm b).burst := by
  obtain ⟨hB, -⟩ := terms_of_nonneg htm hq hq0
  obtain ⟨hsame, hcases, hiff⟩ := leak_of_nonneg htm hq hq0
  have hchanged := (leakyTerms_ok htm).2.2.2.2.2.2.2.1
  have htmburst : 0 ≤ tm.burst := hB ▸ hburst
  have hε := epsilon_pos
  have hofSettled : Settled r tm b → ∃ y, (credited r tm b).remaining = .fin y ∧ -epsilon ≤ y ∧
      y ≤ (credited r tm b).burst := by
    rintro ⟨-, y, hy, hy0, hyB⟩
    exact ⟨y, hy, by linarith, hyB⟩
  -- a reset fills the bucket up, whatever the leak did
  by_cases hreset : hasBehavior r.behavior .resetRemaining = true
  · exact hofSettled (settled_of_reset htm htmburst hreset)
  have hreset' := Bool.eq_false_iff.mpr hreset
  have hnot : ¬ (creditLeak tm b).remaining < .fin (-epsilon) := fun hlt =>
    h ⟨hreset', hiff.mp hlt⟩
  -- the leak left a rational, or infinity, which the clamp makes the burst
  rcases hcases with ⟨y, hy⟩ | ⟨s, hs⟩
  · rw [hy, fin_lt_fin, not_lt] at hnot
    rcases eq_or_lt_of_le hnot with heq | hlt
    · -- a leak to exactly `-1e-9` tokens
      refine ⟨y, credited_of_debt hchanged hreset' htmburst (hsame.trans hy) heq.ge, hnot, ?_⟩
      rw [credited_burst r tm b hchanged]
      have : (0 : ℚ) ≤ tm.burst := by exact_mod_cast htmburst
      linarith
    · exact hofSettled (settled_of_credit htm htmburst hreset' (hsame.trans hy) hlt)
  · cases s with
    | false => exact hofSettled (settled_of_inf htm htmburst hreset' (hsame.trans hs))
    | true => exact absurd (by rw [hs]; rfl) hnot

/-- From there only a booking goes below `-1e-9`. -/
theorem item_booked_of_debt (hout : leakyBucketItem host now r reqState b x = .ok out)
    (htm : leakyTerms host now r b = .ok tm) (hvalid : 0 < r.maxWait → 0 ≤ r.hits) {y : ℚ}
    (hy : (credited r tm b).remaining = .fin y) (hlow : -epsilon ≤ y)
    (hyB : y ≤ (credited r tm b).burst) (hdebt : out.b.remaining < .fin (-epsilon)) :
    out.resp.status = .scheduled := by
  have hε := epsilon_pos
  -- what is taken is within `1e-9` of the balance, and rounding does not take more
  have hsnap : ∀ z : ℚ, -epsilon ≤ z → ¬ snap z < -epsilon := by
    intro z hz hlt
    rcases snap_cases z with ⟨-, -, h⟩ | ⟨-, h⟩ <;> rw [h] at hlt <;> linarith
  -- the five outcomes; the first four leave at least `-1e-9`
  cases leakyBucketItem_charged hout htm hy hyB hvalid with
  | kept hob =>
    rw [hob, hy, fin_lt_fin] at hdebt
    linarith
  | drained hob =>
    rw [hob, fin_lt_fin] at hdebt
    have : -epsilon ≤ min y 0 := le_min hlow (by linarith)
    linarith
  | admitted hits enough hob =>
    rw [hob, fin_lt_fin] at hdebt
    exact absurd hdebt (hsnap _ (by linarith))
  | refunded hits credit hob =>
    rw [hob, fin_lt_fin] at hdebt
    have hhits : (r.hits : ℚ) < 0 := by exact_mod_cast hits
    exact absurd hdebt (hsnap _ (le_min (by linarith) (by linarith)))
  | booked _ _ _ _ _ _ _ _ hs => exact hs

end Found

/-! ## The call

`leakyBucket_call` lists what a call can come to.  On a key without an item only `created` writes
one, on a key with one only `worked` does. -/

section Call
variable {host : Host} {now : ℤ} {s : Shard} {r : RateLimitReq} {reqState : RateLimitReqState}

/-- Read off the cached item. -/
theorem owesDebt_of_peek {s' : Shard} {key : String} {item : CacheItem} {b : LeakyBucketItem}
    (hp : s'.cache.peek key = some item) (hv : item.value = some (.leaky b)) :
    owesDebt s' key = decide (b.remaining < .fin (-epsilon)) := by
  simp [owesDebt, hp, hv]

/-- A new bucket is in debt exactly when its burst is negative and covers the hits. -/
theorem newBalance_lt_iff (r : RateLimitReq) :
    ((newBalance r : ℚ) < -epsilon) ↔ r.burst < 0 ∧ r.hits ≤ r.burst := by
  have h1 : epsilon < 1 := by norm_num [epsilon]
  have h0 := epsilon_pos
  -- a whole balance is in debt as soon as it is negative
  have hint : ((newBalance r : ℚ) < -epsilon) ↔ newBalance r < 0 := by
    constructor
    · intro h
      have : (newBalance r : ℚ) < 0 := by linarith
      exact_mod_cast this
    · intro h
      have : (newBalance r : ℚ) ≤ -1 := by exact_mod_cast (by omega : newBalance r ≤ -1)
      linarith
  rw [hint, newBalance]
  split <;> omega

/-- The key has no item. -/
theorem debt_absent_iff (hlook : (s.lookup (epochMillis now) r).1 = none) :
    (owesDebt (leakyBucket host now s r reqState).2 r.hashKey = true →
      answeredScheduled (leakyBucket host now s r reqState).1 = true) ↔
    debtUnbooked host now s r = false := by
  have hfind : s.find (epochMillis now) r = none := by simp [Shard.find, hlook]
  -- a call that creates nothing leaves the key without an item
  have hbase : owesDebt (leakyBase now s r) r.hashKey = false := by
    simp [leakyBase, hfind, owesDebt, Shard.peek_lookup_none hlook]
  cases leakyBucket_call host now s r reqState with
  | failed e hterms hr hs =>
    rw [hs, hbase]
    simp only [Bool.false_eq_true, false_implies, true_iff]
    cases h : requestTerms host now r with
    | error e => simp [debtUnbooked, h]
    | ok terms => exact absurd (by rw [requestTerms_withBurst, h]) (hterms terms)
  | worked item b out hfind' =>
    rw [find_withBurst, hfind] at hfind'
    cases hfind'
  | neverFits resp _ hterms wait large hr hstatus hs =>
    obtain ⟨terms, hterms⟩ := hterms
    rw [requestTerms_withBurst] at hterms
    rw [hs, hbase]
    simp only [Bool.false_eq_true, false_implies, true_iff]
    rw [withBurst_hits] at large
    simp only [debtUnbooked, hterms, hfind, decide_eq_false_iff_not]
    omega
  | created resp createdAt duration _ hterms _ _ _ hr hstatus hs =>
    obtain ⟨terms, hterms⟩ := hterms
    rw [requestTerms_withBurst] at hterms
    have hpeek : (leakyBucket host now s r reqState).2.cache.peek r.hashKey =
        some (newLeakyItem r.withBurst createdAt duration) := by
      rw [hs, ← withBurst_hashKey]
      exact Cache.peek_add_self _ (newLeakyItem _ _ _)
    -- a creation is never a booking
    have hstatus' : answeredScheduled (leakyBucket host now s r reqState).1 = false := by
      rw [hr]
      show (resp.status == .scheduled) = false
      rw [hstatus]
      split <;> rfl
    rw [owesDebt_of_peek hpeek rfl, hstatus']
    have hdebt : (newLeakyBucket r.withBurst createdAt duration).remaining < .fin (-epsilon) ↔
        r.withBurst.burst < 0 ∧ r.hits ≤ r.withBurst.burst := by
      rw [← withBurst_hits r, ← newBalance_lt_iff]
      exact fin_lt_fin
    simp only [decide_eq_true_eq, hdebt, debtUnbooked, hterms, hfind, Bool.false_eq_true,
      decide_eq_false_iff_not, imp_false]

/-- The key has an item whose balance is not negative. -/
theorem debt_present_iff (hvalid : validateMaxWait r = "") {item : CacheItem}
    {b : LeakyBucketItem} {q : ℚ}
    (hfind : s.find (epochMillis now) r = some (item, .leaky b)) (hq : b.remaining = .fin q)
    (hq0 : 0 ≤ q) :
    (owesDebt (leakyBucket host now s r reqState).2 r.hashKey = true →
      answeredScheduled (leakyBucket host now s r reqState).1 = true) ↔
    debtUnbooked host now s r = false := by
  have hvalid' : 0 < r.withBurst.maxWait → 0 ≤ r.withBurst.hits := fun hw => by
    simpa using (validateMaxWait_scheduled hvalid (by simpa using hw)).2.2.2.2.2
  -- a call that fails leaves the item, which is out of debt
  cases hr : (leakyBucket host now s r reqState).1 with
  | error e =>
    have hpeek : (leakyBucket host now s r reqState).2.cache.peek r.hashKey = some item := by
      rw [leakyBucket_found_error hfind hr]
      exact Shard.peek_lookup (Shard.find_key hfind).1 (Shard.find_key hfind).2.2
    have hnot : ¬ q < -epsilon := by have := epsilon_pos; linarith
    rw [owesDebt_of_peek hpeek (Shard.find_key hfind).2.1, hq]
    simp only [fin_lt_fin, decide_eq_true_eq, hnot, false_implies, true_iff]
    cases hterms : requestTerms host now r with
    | error e => simp [debtUnbooked, hterms]
    | ok terms =>
      -- a request with terms does not fail
      cases leakyBucket_call host now s r reqState with
      | failed e' hno => exact absurd (by rw [requestTerms_withBurst, hterms]) (hno terms)
      | worked _ _ _ _ _ _ hr' => rw [hr] at hr'; cases hr'
      | neverFits _ _ _ _ _ hr' => rw [hr] at hr'; cases hr'
      | created _ _ _ _ _ _ _ _ hr' => rw [hr] at hr'; cases hr'
  | ok resp =>
    obtain ⟨out, hout, rfl, hpeek⟩ := leakyBucket_found hfind hr
    obtain ⟨tm, htm, -⟩ := leakyBucketItem_ok hout
    have hterms := (leakyTerms_ok htm).1
    rw [requestTerms_withBurst] at hterms
    have hcreated := (terms_of_nonneg htm hq hq0).2.2.2.2
    rw [withBurst_maxWait, withBurst_createdAt] at hcreated
    rw [owesDebt_of_peek hpeek rfl]
    simp only [answeredScheduled, beq_iff_eq, decide_eq_true_eq, debtUnbooked, hterms, hfind,
      ← hcreated, Bool.or_eq_false_iff, Bool.and_eq_false_iff, decide_eq_false_iff_not,
      Bool.not_eq_false']
    -- the first half, and the second
    constructor
    · intro hbooked
      by_contra hnot
      have hunbooked := item_unbooked hout htm hq hq0 hvalid' (by
        by_cases hburst : r.withBurst.burst < 0
        · exact .inl hburst
        · right
          rw [withBurst_behavior]
          simpa [hburst] using hnot)
      exact hunbooked.2 (hbooked hunbooked.1)
    · rintro ⟨hburst, hno⟩ hdebt
      obtain ⟨y, hy, hlow, hyB⟩ := credited_of_no_leak htm hq hq0 (not_lt.mp hburst) (by
        rw [withBurst_behavior]
        rintro ⟨h1, h2⟩
        simp [h1, h2] at hno)
      exact item_booked_of_debt hout htm hvalid' hy hlow hyB hdebt

end Call

/-- **A key enters debt only through a booking, EXACTLY when the request is none of
    `debtUnbooked`.** -/
theorem debt_only_booked_iff (host : Host) (now : ℤ) (s : Shard) (r : RateLimitReq)
    (reqState : RateLimitReqState) (hvalid : validateMaxWait r = "")
    (hstate : NoDebt s (epochMillis now) r) :
    (owesDebt (leakyBucket host now s r reqState).2 r.hashKey = true →
      answeredScheduled (leakyBucket host now s r reqState).1 = true) ↔
    debtUnbooked host now s r = false := by
  cases hstate with
  | absent h => exact debt_absent_iff h
  | present item b q hfind hq hq0 => exact debt_present_iff hvalid hfind hq hq0

/-- An empty bucket that owes nothing. -/
def emptyBucket : LeakyBucketItem := ⟨1, 1000, .fin 0, 10000, 5⟩

/-- The item of an empty bucket. -/
def emptyItem : CacheItem :=
  ⟨.leakyBucket, "requests_account:1", some (.leaky emptyBucket), 20000, 0⟩

/-- A query with the limit `-10`, a second later: answered `UNDER_LIMIT`, and the key owes ten
    tokens. -/
theorem debt_by_query :
    validateMaxWait (.sample 0 (-10) 1000 5 11000 0) = "" ∧
    NoDebt (.ofItems [emptyItem]) (epochMillis 11000000000) (.sample 0 (-10) 1000 5 11000 0) ∧
    owesDebt (leakyBucket .amd64 11000000000 (.ofItems [emptyItem])
      (.sample 0 (-10) 1000 5 11000 0) ⟨true, 0⟩).2 "requests_account:1" = true ∧
    answeredScheduled (leakyBucket .amd64 11000000000 (.ofItems [emptyItem])
      (.sample 0 (-10) 1000 5 11000 0) ⟨true, 0⟩).1 = false :=
  ⟨by decide, .present emptyItem emptyBucket 0 (by decide +kernel) rfl le_rfl, by decide +kernel,
    by decide +kernel⟩

/-- A booking is the way it is meant: the key owes a token, and the answer says so. -/
theorem debt_only_booked_iff_booking :
    (owesDebt (leakyBucket .amd64 10000000000 (.ofItems [emptyItem])
      (.sample 1 1 1000 5 10000 2000) ⟨true, 300000000000⟩).2 "requests_account:1" = true →
      answeredScheduled (leakyBucket .amd64 10000000000 (.ofItems [emptyItem])
        (.sample 1 1 1000 5 10000 2000) ⟨true, 300000000000⟩).1 = true) ↔
    debtUnbooked .amd64 10000000000 (.ofItems [emptyItem]) (.sample 1 1 1000 5 10000 2000) =
      false :=
  debt_only_booked_iff .amd64 10000000000 (.ofItems [emptyItem]) (.sample 1 1 1000 5 10000 2000)
    ⟨true, 300000000000⟩ (by decide) (.present emptyItem emptyBucket 0
      (by decide +kernel) rfl le_rfl)

end Gubernator
