/-
  RESET TIME: is the bucket full at the moment an answer names?

  The code has two formulas.  A key in debt, or one that books, is answered with `fullAt`, which
  is exact.  Every other answer names an ESTIMATE, the whole tokens that are missing times the rate
  truncated to milliseconds, and that can be early for three reasons:

  * the truncation loses `duration % limit` on every limit's worth of tokens;
  * a refusal that drains the bucket names the estimate for the tokens it takes away;
  * the estimate counts from the clock, where the item's own time may be ahead.

  `ResetHonest` weighs them against the fraction of a token that the estimate gives away.

  The criterion is shown exact in both directions:

  1. `charge_exact` and `InCredit.charge_estimate` say which of the two moments an answer names, and
     what it leaves;
  2. `fullFrom_iff` says what later queries make of what is left: the first of them, at the moment
     named, decides for all;
  3. `fillsInTime_iff` compares the two in integers, without a division;
  4. `resetTime_full_iff` puts them together for a call on any key.
-/
import Gubernator.KeyView
import Gubernator.Leaky.Settle
import Gubernator.Leaky.UpToDate

namespace Gubernator

open ExactFloat

/-! ## The reset time of an answer

The balance `y` is the one the hits are charged on, after leak, rescaling, shift and clamp.

The definitions name what the code leaves implicit: which hits are booked, which balance the
estimate counts, which balance is written back.  The last two differ for a refusal that drains, and
that is one of the three errors above. -/

/-- Hits on a balance of `y` tokens are booked. -/
def Books (ceiling lag : ℤ) (r : RateLimitReq) (y : ℚ) : Prop :=
  0 < r.maxWait ∧ 0 < r.hits ∧ r.hits ≤ r.limit ∧ y + epsilon < r.hits ∧
    slotWait (r.duration / r.limit) lag r.hits y ≤ min r.maxWait ceiling

/-- The balance whose whole tokens an estimate counts, on a balance of `y` tokens. -/
def counted (r : RateLimitReq) (y : ℚ) : ℚ :=
  if r.hits < 0 ∨ 0 < r.hits ∧ (r.hits : ℚ) ≤ y + epsilon then snap (min r.limit (y - r.hits))
  else y

/-- The balance a request leaves that does not book: what it counts, unless it drains. -/
def leftOver (r : RateLimitReq) (y : ℚ) : ℚ :=
  if hasBehavior r.behavior .drainOverLimit = true ∧ ¬ 0 < r.maxWait ∧ y + epsilon < r.hits then 0
  else counted r y

/-- The tokens missing from the limit, counted in whole tokens. -/
def missing (r : RateLimitReq) (y : ℚ) : ℤ := r.limit - ⌊counted r y + epsilon⌋

/-- The estimate: so many times the truncated rate. -/
def estimate (r : RateLimitReq) (t : ℤ) (y : ℚ) : ℤ := t + missing r y * (r.duration / r.limit)

section Answer
variable {r : RateLimitReq} {b : LeakyBucketItem} {y : ℚ}

/-- The rate as the estimate uses it: truncated to whole milliseconds, on either architecture. -/
theorem int64_rate (host : Host) (hl : 0 < r.limit) (hd : 0 < r.duration) :
    host.int64 (.fin (r.duration / r.limit)) = r.duration / r.limit := by
  rw [← rateOf_pos _ hl, int64_rateOf host hl hd.le]

/-- What is counted after hits is never below `-1e-9`. -/
theorem counted_ge (hy : 0 ≤ y) (hl : 0 < r.limit) : -epsilon ≤ counted r y := by
  have hε := epsilon_pos
  have hl' : (0 : ℚ) < r.limit := by exact_mod_cast hl
  unfold counted
  split
  · rename_i h
    have hz : -epsilon ≤ min (r.limit : ℚ) (y - r.hits) := by
      refine le_min (by linarith) ?_
      -- a refund only adds; an admission takes at most `1e-9` more than there is
      rcases h with hneg | ⟨-, hle⟩
      · have : (r.hits : ℚ) < 0 := by exact_mod_cast hneg
        linarith
      · linarith
    rcases snap_cases (min (r.limit : ℚ) (y - r.hits)) with ⟨-, -, h0⟩ | ⟨-, hsame⟩
    · rw [h0]
      linarith
    · rwa [hsame]
  · linarith

/-- **An answer on a debt, or with a booking, names the exact moment.** -/
theorem charge_exact (host : Host) (x : ℤ) (reqState : RateLimitReqState) (tm : LeakyTerms)
    (hy : b.remaining = .fin y) (hl : 0 < r.limit) (hd : 0 < r.duration)
    (hburst : b.burst = r.limit) (hvalid : 0 < r.maxWait → 0 ≤ r.hits)
    (h : y < 0 ∨ Books reqState.ceiling (max b.updatedAt tm.createdAt - tm.createdAt) r y) :
    (charge host x b r reqState tm (.fin (r.duration / r.limit))).resp.resetTime =
      fullAt host (charge host x b r reqState tm (.fin (r.duration / r.limit))).b
        (.fin (r.duration / r.limit)) := by
  have hρ : (0 : ℚ) < r.duration / r.limit := div_pos (by exact_mod_cast hd) (by exact_mod_cast hl)
  have hε := epsilon_pos
  have hε1 : epsilon < 1 := by norm_num [epsilon]
  -- neither kind finds enough for its hits
  have hshort : 0 < r.hits → ¬ r.hits ≤ wholeTokens host (.fin y) := by
    intro hpos hle
    have hle' := (le_wholeTokens hpos).mp hle
    have hone : (1 : ℚ) ≤ r.hits := by exact_mod_cast hpos
    rcases h with hneg | hbooks
    · linarith
    · linarith [hbooks.2.2.2.1]
  have hstatus : y < 0 → (leakyStatus host b tm.createdAt
      (.fin (r.duration / r.limit))).resetTime = fullAt host b (.fin (r.duration / r.limit)) :=
    fun hneg => if_pos (by rw [hy]; exact fin_lt_zero.mpr hneg)
  unfold charge
  dsimp only
  -- one `by_cases` for each branch of `charge`: each passes `leakyStatus` on, or books
  by_cases h0 : r.hits = 0
  · rw [if_pos h0]
    exact hstatus (h.resolve_right fun hbooks => by have := hbooks.2.1; omega)
  rw [if_neg h0]
  by_cases hwait : 0 < r.maxWait
  · have hpos : 0 < r.hits := lt_of_le_of_ne (hvalid hwait) (Ne.symm h0)
    rw [if_pos hwait]
    unfold scheduleHits
    simp only [unusableRate_fin hρ, Bool.false_eq_true, or_false]
    by_cases hfits : b.burst < r.hits
    · rw [if_pos hfits]
      exact hstatus (h.resolve_right fun hbooks => by have := hbooks.2.2.1; omega)
    rw [if_neg hfits, if_neg (by rw [hy]; exact hshort hpos), waitFor_eq_slotWait host hy hρ]
    by_cases hlong : min r.maxWait reqState.ceiling <
        slotWait (r.duration / r.limit) (max b.updatedAt tm.createdAt - tm.createdAt) r.hits y
    · rw [if_pos hlong]
      exact hstatus (h.resolve_right fun hbooks => absurd hbooks.2.2.2.2 (not_le.mpr hlong))
    · rw [if_neg hlong]
  rw [if_neg hwait]
  have hneg : y < 0 := h.resolve_right fun hbooks => hwait hbooks.1
  by_cases hrefund : r.hits < 0
  · rw [if_pos ⟨hrefund, by rw [hy]; exact fin_lt_zero.mpr hneg⟩]
    exact hstatus hneg
  rw [if_neg (fun hn => hrefund hn.1), if_pos (by rw [hy]; exact not_le.mp (hshort (by omega)))]
  split
  · -- a debt is not drained any further
    have hsame : ExactFloat.min b.remaining 0 = b.remaining := by
      rw [hy, zero_eq_fin, min_fin, min_eq_left hneg.le]
    rw [hsame]
    exact hstatus hneg
  · exact hstatus hneg

/-! ## The estimate

`charge` has five ways to answer without a booking on a balance that is not a debt.  Three of them
take nothing and pass the status on; two take the hits and count again what is left.  Both kinds are
shown once to name the estimate, and each way is then one of them. -/

/-- **An outcome that names the estimate**: the balance is `leftOver`, and the expiry is extended
    only if hits were taken from a key that was in debt. -/
structure Estimates (host : Host) (x : ℤ) (b : LeakyBucketItem) (r : RateLimitReq)
    (tm : LeakyTerms) (y : ℚ) (out : LeakyOutcome) : Prop where
  resetTime : out.resp.resetTime = estimate r tm.createdAt y
  bucket : out.b = { b with remaining := .fin (leftOver r y) }
  expireAt : out.expireAt =
    if tm.wasInDebt = true ∧ r.hits ≠ 0 ∧ ¬ y + epsilon < r.hits then
      extendDebtExpiry host x { b with remaining := .fin (leftOver r y) } tm.createdAt
        tm.duration (.fin (r.duration / r.limit))
    else x

/-- A balance of `y` tokens that is no debt, of a bucket under the terms of the request. -/
structure InCredit (r : RateLimitReq) (b : LeakyBucketItem) (y : ℚ) : Prop where
  balance : b.remaining = .fin y
  limit : 0 < r.limit
  duration : 0 < r.duration
  sameLimit : b.limit = r.limit
  sameBurst : b.burst = r.limit
  nonneg : 0 ≤ y
  le_limit : y ≤ r.limit

/-- The hits are more than the balance has, so they are not counted. -/
theorem counted_short (hy : 0 ≤ y) (hshort : y + epsilon < r.hits) : counted r y = y := by
  have hε := epsilon_pos
  refine if_neg ?_
  rintro (hneg | ⟨-, hle⟩)
  · have : (r.hits : ℚ) < 0 := by exact_mod_cast hneg
    linarith
  · linarith

/-- The hits are there, so they are. -/
theorem counted_enough (h0 : r.hits ≠ 0) (henough : ¬ y + epsilon < r.hits) :
    counted r y = snap (min r.limit (y - r.hits)) := by
  refine if_pos ?_
  rcases lt_or_gt_of_ne h0 with hneg | hpos
  · exact .inl hneg
  · exact .inr ⟨hpos, not_lt.mp henough⟩

namespace InCredit

variable {host : Host} {x : ℤ} {reqState : RateLimitReqState} {tm : LeakyTerms}

/-- The request's rate is a positive number. -/
theorem rate_pos (h : InCredit r b y) : (0 : ℚ) < r.duration / r.limit :=
  div_pos (by exact_mod_cast h.duration) (by exact_mod_cast h.limit)

/-- An answer that takes nothing counts the balance it found. -/
theorem status (h : InCredit r b y) (host : Host) (t : ℤ) (hsame : counted r y = y) :
    (leakyStatus host b t (.fin (r.duration / r.limit))).resetTime = estimate r t y := by
  have hwhole : wholeTokens host (.fin y) = ⌊y + epsilon⌋ :=
    wholeTokens_of_nonneg host (by linarith [epsilon_pos, h.nonneg])
  have hcredit : ¬ b.remaining < 0 := by
    rw [h.balance, fin_lt_zero]
    exact not_lt.mpr h.nonneg
  show (if b.remaining < 0 then _ else _) = _
  rw [if_neg hcredit, int64_rate host h.limit h.duration, h.balance, hwhole, h.sameLimit, estimate,
    missing, hsame]

/-- **Nothing taken.**  The answer is the status, whatever it says besides, and the bucket stays. -/
theorem untaken (h : InCredit r b y) {resp : RateLimitResp} {b' : LeakyBucketItem}
    (hresp : resp.resetTime =
      (leakyStatus host b tm.createdAt (.fin (r.duration / r.limit))).resetTime)
    (hsame : counted r y = y) (hb : b' = { b with remaining := .fin (leftOver r y) })
    (hno : r.hits = 0 ∨ y + epsilon < r.hits) : Estimates host x b r tm y ⟨resp, b', x⟩ := by
  refine ⟨hresp.trans (h.status host tm.createdAt hsame), hb, (if_neg ?_).symm⟩
  rintro ⟨-, h0, henough⟩
  exact hno.elim h0 henough

/-- **Hits taken.**  What is left is counted in whole tokens, and is not drained. -/
theorem taken (h : InCredit r b y) {resp : RateLimitResp} {remaining : ℤ} (h0 : r.hits ≠ 0)
    (henough : ¬ y + epsilon < r.hits) (hcount : remaining = ⌊counted r y + epsilon⌋)
    (hresp : resp.resetTime =
      tm.createdAt + (b.limit - remaining) * host.int64 (.fin (r.duration / r.limit))) :
    Estimates host x b r tm y ⟨resp, { b with remaining := .fin (counted r y) },
      if tm.wasInDebt then extendDebtExpiry host x { b with remaining := .fin (counted r y) }
        tm.createdAt tm.duration (.fin (r.duration / r.limit)) else x⟩ := by
  -- draining is for refusals
  have hsaved : leftOver r y = counted r y := if_neg (fun hn => henough hn.2.2)
  refine ⟨?_, by rw [hsaved], ?_⟩
  · show resp.resetTime = _
    rw [hresp, hcount, int64_rate host h.limit h.duration, h.sameLimit, estimate, missing]
  · simp only [hsaved, h0, henough, ne_eq, not_false_eq_true, and_true]

/-- A status query. -/
theorem estimates_query (h : InCredit r b y) (h0 : r.hits = 0) :
    Estimates host x b r tm y
      ⟨leakyStatus host b tm.createdAt (.fin (r.duration / r.limit)), b, x⟩ := by
  have hsame : counted r y = y := if_neg (by omega)
  have hno : ¬ y + epsilon < r.hits := by
    rw [h0, Int.cast_zero]
    linarith [epsilon_pos, h.nonneg]
  refine h.untaken rfl hsame ?_ (.inl h0)
  rw [leftOver, if_neg (fun hn => hno hn.2.2), hsame, ← h.balance]

/-- A refusal of a `max_wait` request: the flag to drain cannot come with it. -/
theorem estimates_turnedAway (h : InCredit r b y) {resp : RateLimitResp} (hwait : 0 < r.maxWait)
    (hresp : resp.resetTime =
      (leakyStatus host b tm.createdAt (.fin (r.duration / r.limit))).resetTime)
    (hshort : y + epsilon < r.hits) : Estimates host x b r tm y ⟨resp, b, x⟩ := by
  have hsame := counted_short h.nonneg hshort
  refine h.untaken hresp hsame ?_ (.inr hshort)
  rw [leftOver, if_neg (fun hn => hn.2.1 hwait), hsame, ← h.balance]

/-- **`max_wait` requests** that do not book: they can never fit, are paid at once, or would have to
    wait too long. -/
theorem estimates_scheduled (h : InCredit r b y) (hwait : 0 < r.maxWait) (hpos : 0 < r.hits)
    (hbooks : ¬ Books reqState.ceiling (max b.updatedAt tm.createdAt - tm.createdAt) r y) :
    Estimates host x b r tm y (scheduleHits host x b r reqState
      (leakyStatus host b tm.createdAt (.fin (r.duration / r.limit))) tm.createdAt tm.duration
      (.fin (r.duration / r.limit)) tm.wasInDebt) := by
  unfold scheduleHits
  simp only [unusableRate_fin h.rate_pos, Bool.false_eq_true, or_false]
  by_cases hfits : b.burst < r.hits
  · -- more than the limit is more than the balance
    have hlarge : y + epsilon < r.hits := by
      have hε1 : epsilon < 1 := by norm_num [epsilon]
      have : (r.limit : ℚ) + 1 ≤ r.hits := by
        rw [h.sameBurst] at hfits
        exact_mod_cast hfits
      linarith [h.le_limit]
    rw [if_pos hfits]
    exact h.estimates_turnedAway hwait rfl hlarge
  rw [if_neg hfits]
  by_cases henough : (r.hits : ℚ) ≤ y + epsilon
  · -- paid at once; neither the cut at the limit in `counted` nor the one at zero in
    -- `spendableTokens` changes the balance
    have hpos' : (0 : ℚ) < r.hits := by exact_mod_cast hpos
    have hsame : counted r y = snap (y - r.hits) := by
      rw [counted_enough hpos.ne' (not_lt.mpr henough), min_eq_right (by linarith [h.le_limit])]
    have hleft : snapToZero (b.remaining - .ofInt r.hits) = .fin (counted r y) := by
      rw [h.balance, ofInt_eq, fin_sub_fin, snapToZero_fin, hsame]
    have hge := counted_ge (r := r) h.nonneg h.limit
    have hnonneg : 0 ≤ ⌊counted r y + epsilon⌋ := Int.floor_nonneg.mpr (by linarith)
    rw [if_pos (h.balance ▸ (le_wholeTokens hpos).mpr henough), hleft, spendableTokens,
      wholeTokens_of_nonneg host hge, max_eq_right hnonneg]
    exact h.taken hpos.ne' (not_lt.mpr henough) rfl rfl
  · -- short of tokens and not booked: the wait is too long
    have hlong : min r.maxWait reqState.ceiling < waitFor host b r.hits tm.createdAt
        (.fin (r.duration / r.limit)) := by
      rw [waitFor_eq_slotWait host h.balance h.rate_pos]
      by_contra hle
      exact hbooks ⟨hwait, hpos, h.sameBurst ▸ not_lt.mp hfits, not_le.mp henough, not_lt.mp hle⟩
    have hfew : ¬ r.hits ≤ wholeTokens host b.remaining := by
      rw [h.balance, le_wholeTokens hpos]
      exact henough
    rw [if_neg hfew, if_pos hlong]
    exact h.estimates_turnedAway hwait rfl (not_le.mp henough)

/-- **A refusal**; what it drains is still in the estimate. -/
theorem estimates_refused (h : InCredit r b y) (hwait : ¬ 0 < r.maxWait)
    (hshort : y + epsilon < r.hits) : Estimates host x b r tm y
      (if hasBehavior r.behavior .drainOverLimit then
        ⟨{ leakyStatus host b tm.createdAt (.fin (r.duration / r.limit)) with
            status := .overLimit, remaining := 0 },
          { b with remaining := ExactFloat.min b.remaining 0 }, x⟩
      else ⟨{ leakyStatus host b tm.createdAt (.fin (r.duration / r.limit)) with
            status := .overLimit }, b, x⟩) := by
  have hsame := counted_short h.nonneg hshort
  by_cases hdrain : hasBehavior r.behavior .drainOverLimit = true
  · -- drained: the answer still counts the tokens that are taken away
    rw [if_pos hdrain]
    refine h.untaken rfl hsame ?_ (.inr hshort)
    rw [leftOver, if_pos ⟨hdrain, hwait, hshort⟩, h.balance, zero_eq_fin, min_fin,
      min_eq_right h.nonneg]
  · rw [if_neg hdrain]
    refine h.untaken rfl hsame ?_ (.inr hshort)
    rw [leftOver, if_neg (fun hn => hdrain hn.1), hsame, ← h.balance]

/-- **Every answer on a credit that does not book names the estimate.** -/
theorem charge_estimate (h : InCredit r b y) (host : Host) (x : ℤ) (reqState : RateLimitReqState)
    (tm : LeakyTerms) (hvalid : 0 < r.maxWait → 0 ≤ r.hits)
    (hbooks : ¬ Books reqState.ceiling (max b.updatedAt tm.createdAt - tm.createdAt) r y) :
    Estimates host x b r tm y (charge host x b r reqState tm (.fin (r.duration / r.limit))) := by
  unfold charge
  dsimp only
  -- query, `max_wait`, refusal, hits: the order of `charge`
  by_cases h0 : r.hits = 0
  · rw [if_pos h0]
    exact h.estimates_query h0
  rw [if_neg h0]
  by_cases hwait : 0 < r.maxWait
  · rw [if_pos hwait]
    exact h.estimates_scheduled hwait (lt_of_le_of_ne (hvalid hwait) (Ne.symm h0)) hbooks
  -- the branch of a refund on a debt is not taken
  have hplain : ¬ (r.hits < 0 ∧ y < 0) := fun hn => absurd hn.2 (not_lt.mpr h.nonneg)
  have hnodebt : ¬ (r.hits < 0 ∧ b.remaining < 0) := by
    rw [h.balance, fin_lt_zero]
    exact hplain
  have hfew : wholeTokens host b.remaining < r.hits ↔ y + epsilon < r.hits := by
    rw [h.balance]
    exact wholeTokens_lt_iff host hplain h0
  rw [if_neg hwait, if_neg hnodebt]
  by_cases hshort : y + epsilon < r.hits
  · rw [if_pos (hfew.mpr hshort)]
    exact h.estimates_refused hwait hshort
  · -- hits let in, or a refund: both are taken off and cut at the burst
    have hleft : snapToZero (ExactFloat.min (.ofInt b.burst) (b.remaining - .ofInt r.hits)) =
        .fin (counted r y) := by
      rw [h.balance, ofInt_eq, ofInt_eq, fin_sub_fin, min_fin, snapToZero_fin, h.sameBurst,
        counted_enough h0 hshort]
    rw [if_neg (mt hfew.mp hshort), hleft]
    exact h.taken h0 hshort (wholeTokens_of_nonneg host (counted_ge h.nonneg h.limit)) rfl

end InCredit

end Answer

/-! ## The later query

A query finds either nothing, and answers with a full bucket that it would create, or the item,
brought up to its clock. -/

/-- A status query for the key of `r`, at `now` and with the same limit, duration and burst. -/
structure StatusQuery (r : RateLimitReq) (now : ℤ) (query : RateLimitReq) : Prop where
  key : query.hashKey = r.hashKey
  limit : query.limit = r.limit
  duration : query.duration = r.duration
  burst : query.withBurst.burst = r.withBurst.burst
  hits : query.hits = 0
  /-- the query is stamped by the owner -/
  created : query.createdAt = epochMillis now
  noReset : hasBehavior query.behavior .resetRemaining = false
  noGregorian : hasBehavior query.behavior .durationIsGregorian = false

/-- The query is answered, with `n` tokens remaining. -/
def Reports (host : Host) (now : ℤ) (s : Shard) (query : RateLimitReq)
    (reqState : RateLimitReqState) (n : ℤ) : Prop :=
  ∃ resp, (leakyBucket host now s query reqState).1 = .ok resp ∧ resp.remaining = n

section Query
variable {host : Host} {now : ℤ} {s : Shard} {r query : RateLimitReq}
  {reqState : RateLimitReqState}

/-- **On a key without an item** a query reports the burst. -/
theorem StatusQuery.reports_missing (hq : StatusQuery r now query) (hB : 0 < r.withBurst.burst)
    (hfind : s.find (epochMillis now) query = none) :
    Reports host now s query reqState r.withBurst.burst := by
  rw [← hq.burst] at hB ⊢
  refine ⟨{ status := .underLimit, limit := query.withBurst.limit
            remaining := query.withBurst.burst
            resetTime := (if 0 < query.withBurst.maxWait then epochMillis now
              else query.withBurst.createdAt) + (query.withBurst.limit - query.withBurst.burst) *
              host.int64 (rateOf query.withBurst.limit query.withBurst.duration) }, ?_, rfl⟩
  have hhits : query.withBurst.hits = 0 := by rw [withBurst_hits, hq.hits]
  have hgreg : hasBehavior query.withBurst.behavior .durationIsGregorian = false := by
    rw [withBurst_behavior, hq.noGregorian]
  unfold leakyBucket leakyBucketBurst
  rw [find_withBurst, hfind]
  simp only [leakyBucketNewItem, hgreg, Bool.false_eq_true, if_false, hhits, not_lt.mpr hB.le,
    and_false, decide_false, sub_zero, min_self]

/-- No more than the burst is ever reported. -/
theorem wholeTokens_capped_le (host : Host) {B : ℤ} (hB : 0 < B) (w : ℚ) :
    wholeTokens host (.fin (snap (min B w))) ≤ B := by
  have hε1 : 2 * epsilon < 1 := by norm_num [epsilon]
  by_contra hgt
  have hmore : B + 1 ≤ wholeTokens host (.fin (snap (min B w))) := by omega
  have hle := (le_wholeTokens (by omega)).mp hmore
  have hcap : snap (min (B : ℚ) w) ≤ B := snap_le_int (min_le_left _ _)
  push_cast at hle
  linarith

/-- The burst itself is reported iff the balance comes up to it within `1e-9` tokens: neither the
    cut at the burst nor the snap to zero decides about that. -/
theorem le_wholeTokens_capped_iff (host : Host) {B : ℤ} (hB : 0 < B) (w : ℚ) :
    B ≤ wholeTokens host (.fin (snap (min B w))) ↔ (B : ℚ) ≤ w + epsilon := by
  have hε := epsilon_pos
  have hε1 : 2 * epsilon < 1 := by norm_num [epsilon]
  have hone : (1 : ℚ) ≤ B := by exact_mod_cast hB
  refine (le_wholeTokens hB).trans ?_
  rcases snap_cases (min (B : ℚ) w) with ⟨hlow, hhigh, h0⟩ | ⟨-, hsame⟩
  · -- a balance snapped to zero is not full
    have hwsmall : w < epsilon := by
      rcases min_lt_iff.mp hhigh with h | h
      · linarith
      · exact h
    rw [h0]
    exact ⟨fun h => by linarith, fun h => by linarith⟩
  · rw [hsame]
    constructor
    · intro h
      exact h.trans (by linarith [min_le_right (B : ℚ) w])
    · intro h
      rcases le_total (B : ℚ) w with hle | hle
      · rw [min_eq_left hle]
        linarith
      · rwa [min_eq_right hle]

/-- **On an item with the same terms** it reports the burst iff the leak has brought it there, up
    to `1e-9` tokens. -/
theorem StatusQuery.reports_found (hq : StatusQuery r now query) (hl : 0 < r.limit)
    (hd : 0 < r.duration) (hB : 0 < r.withBurst.burst) {item : CacheItem} {b : LeakyBucketItem}
    {z : ℚ} (hfind : s.find (epochMillis now) query = some (item, .leaky b))
    (hlimit : b.limit = r.limit) (hduration : b.duration = r.duration)
    (hburst : b.burst = r.withBurst.burst) (hz : b.remaining = .fin z) :
    Reports host now s query reqState r.withBurst.burst ↔
      (r.withBurst.burst : ℚ) ≤
        balanceAt b.updatedAt z (r.duration / r.limit) (epochMillis now) + epsilon := by
  have hsame : SameTerms query.withBurst b :=
    ⟨by rw [hlimit, withBurst_limit, hq.limit], by rw [hduration, withBurst_duration, hq.duration],
      by rw [hburst, hq.burst]⟩
  have hgreg : hasBehavior query.withBurst.behavior .durationIsGregorian = false := by
    rw [withBurst_behavior, hq.noGregorian]
  obtain ⟨tm, htm⟩ : ∃ tm, leakyTerms host now query.withBurst b = .ok tm := by
    unfold leakyTerms
    rw [requestTerms_plain hgreg]
    exact ⟨_, rfl⟩
  -- the query leaves the item with the balance brought up to its clock, and answers with its status
  have hout := hsame.query htm (by rw [withBurst_hits, hq.hits]) reqState item.expireAt
  have hcredited := hsame.upToDate htm (by rw [withBurst_limit, hq.limit]; exact hl)
    (by rw [withBurst_duration, hq.duration]; exact hd) hgreg hz
  have htime : tm.createdAt = epochMillis now := by
    rw [(leakyTerms_ok htm).2.1, withBurst_createdAt, hq.created, ite_self]
  rw [withBurst_behavior, hq.noReset, withBurst_duration, hq.duration, withBurst_limit, hq.limit,
    htime, hburst] at hcredited
  have hanswer := (leakyBucket_of_item hfind hout).1
  set w := balanceAt b.updatedAt z (r.duration / r.limit) (epochMillis now) with hw
  have hremaining : (leakyStatus host (credited query.withBurst tm b) tm.createdAt
      (chargeRate tm (credited query.withBurst tm b))).remaining =
        max 0 (wholeTokens host (.fin (snap (min r.withBurst.burst w)))) := by
    show spendableTokens host (credited query.withBurst tm b).remaining = _
    rw [hcredited]
    rfl
  have htop := wholeTokens_capped_le host hB w
  rw [← le_wholeTokens_capped_iff host hB w]
  constructor
  · rintro ⟨resp, hok, hn⟩
    rw [hanswer] at hok
    rw [← Except.ok.inj hok, hremaining] at hn
    omega
  · intro hge
    refine ⟨_, hanswer, ?_⟩
    rw [hremaining]
    omega

end Query

/-- **Full from `x` on**: every later query reports the burst. -/
def FullFrom (host : Host) (r : RateLimitReq) (s : Shard) (x : ℤ) : Prop :=
  ∀ now query reqState, x ≤ epochMillis now → StatusQuery r now query →
    Reports host now s query reqState r.withBurst.burst

/-- There is such a query at every millisecond. -/
theorem statusQuery_at (r : RateLimitReq) (x : ℤ) : StatusQuery r (x * 1000000)
    { r with hits := 0, behavior := 0, createdAt := x, maxWait := 0 } := by
  have htime : epochMillis (x * 1000000) = x := Int.mul_tdiv_cancel x (by decide)
  have hplain : ∀ flag : Behavior, hasBehavior 0 flag = false := by
    intro flag
    simp [hasBehavior]
  refine ⟨rfl, rfl, rfl, ?_, rfl, htime.symm, hplain _, hplain _⟩
  unfold RateLimitReq.withBurst
  dsimp only
  split <;> rfl

/-- The first query decides for an item the owner has written. -/
theorem fullFrom_iff (host : Host) {r : RateLimitReq} {s : Shard} {stored : Bool}
    {item : CacheItem} {b : LeakyBucketItem} {z : ℚ} (x : ℤ) (hl : 0 < r.limit)
    (hd : 0 < r.duration) (hB : 0 < r.withBurst.burst)
    (hseen : ∀ t, Seen s stored t r.hashKey (item.seen stored t (.leaky b)))
    (hlimit : b.limit = r.limit) (hduration : b.duration = r.duration)
    (hburst : b.burst = r.withBurst.burst) (hz : b.remaining = .fin z) :
    FullFrom host r s x ↔ item.live stored x = false ∨
      (r.withBurst.burst : ℚ) ≤ balanceAt b.updatedAt z (r.duration / r.limit) x + epsilon := by
  have hρ : (0 : ℚ) < r.duration / r.limit := div_pos (by exact_mod_cast hd) (by exact_mod_cast hl)
  -- all queries of the key find the same item, as long as it lives
  have hfind : ∀ {now query}, StatusQuery r now query → s.find (epochMillis now) query =
      item.seen stored (epochMillis now) (.leaky b) := fun hq => (hseen _).find _ hq.key
  constructor
  · intro hfull
    -- the query at `x` itself
    have hq := statusQuery_at r x
    have htime : epochMillis (x * 1000000) = x := Int.mul_tdiv_cancel x (by decide)
    have hreport := hfull (x * 1000000) _ { isOwner := true } htime.ge hq
    cases hlive : item.live stored x with
    | false => exact .inl rfl
    | true =>
      right
      have hthere := hfind hq
      rw [htime, CacheItem.seen, hlive, if_pos rfl] at hthere
      rw [← htime] at hthere
      have := (hq.reports_found hl hd hB hthere hlimit hduration hburst hz).mp hreport
      rwa [htime] at this
  · -- any later query: still full, because the balance only grows, or gone, because an item does
    -- not come back
    intro h now query reqState hx hq
    have hthere := hfind hq
    unfold CacheItem.seen at hthere
    split at hthere
    · rename_i hlive
      refine (hq.reports_found hl hd hB hthere hlimit hduration hburst hz).mpr ?_
      rcases h with hdead | hfull
      · rw [live_anti hx hlive] at hdead
        cases hdead
      · refine hfull.trans ?_
        have hmono : ((max b.updatedAt x : ℤ) : ℚ) ≤ (max b.updatedAt (epochMillis now) : ℤ) := by
          exact_mod_cast max_le_max le_rfl hx
        have := div_le_div_of_nonneg_right (sub_le_sub_right hmono (b.updatedAt : ℚ)) hρ.le
        unfold balanceAt
        linarith
    · exact hq.reports_missing hB hthere

/-! ## When the estimate is late enough

What is missing after the request leaks in at the exact rate `duration / limit`; the estimate allows
for it `missing` times the truncated one.  In between lie the fraction of a token that `missing`
rounds up, in favour of the estimate, and the remainder of the division and the lag of the clock,
against it. -/

/-- The tokens `left` leak up to the limit within `m` times the truncated rate, counted from `lag`
    milliseconds before the item's time: the missing tokens, and what the truncation and the lag
    take off, cost no more than `m` tokens. -/
def FillsInTime (r : RateLimitReq) (lag m : ℤ) (left : ℚ) : Prop :=
  (r.limit : ℚ) ≤ left + epsilon ∨
    (r.limit - epsilon - left) * r.duration + m * (r.duration % r.limit : ℤ) + lag * r.limit ≤
      m * r.duration

/-- The request leaves the expiry as it is. -/
def KeepsExpiry (r : RateLimitReq) (b : LeakyBucketItem) (q y : ℚ) : Prop :=
  if r.hits = 0 then
    ¬ ((q < 0 ∧ hasBehavior r.behavior .resetRemaining = false) ∧
      (b.burst ≠ r.burst ∨ b.limit ≠ r.limit ∨ b.duration ≠ r.duration))
  else (q < 0 ∧ hasBehavior r.behavior .resetRemaining = false) ∧
    ¬ (b.burst ≠ r.burst ∨ b.limit ≠ r.limit ∨ b.duration ≠ r.duration) ∧ y + epsilon < r.hits

/-- The item of a request at `t` is full, or gone, by the reset time: the answer is exact, the
    estimate is late enough, or the item has been invalidated or has expired by then. -/
def FoundHonest (stored : Bool) (ceiling t : ℤ) (r : RateLimitReq) (item : CacheItem)
    (b : LeakyBucketItem) (q : ℚ) : Prop :=
  upToDate r b q t < 0 ∨ Books ceiling (max b.updatedAt t - t) r (upToDate r b q t) ∨
    FillsInTime r (max b.updatedAt t - t) (missing r (upToDate r b q t))
      (leftOver r (upToDate r b q t)) ∨
    (stored = false ∧ item.invalidAt ≠ 0 ∧ item.invalidAt < estimate r t (upToDate r b q t)) ∨
    (KeepsExpiry r b q (upToDate r b q t) ∧ item.expireAt < estimate r t (upToDate r b q t))

/-- The same for a key on which nothing is found: the request can never fit, or the estimate for
    the new bucket is late enough. -/
def NewHonest (r : RateLimitReq) : Prop :=
  0 < r.maxWait ∧ r.limit < r.hits ∨ FillsInTime r 0 (r.limit - newBalance r) (newBalance r)

/-- **The reset time of the answer can be relied on.** -/
def ResetHonest (now : ℤ) (s : Shard) (ceiling : ℤ) (r : RateLimitReq) : Prop :=
  match s.find (epochMillis now) r with
  | some (item, .leaky b) => ∃ q, b.remaining = .fin q ∧
      FoundHonest s.store.isSome ceiling (epochMillis now) r item b q
  | _ => NewHonest r

section Covers
variable {r : RateLimitReq} {t u m : ℤ} {left : ℚ}

/-- A time `a` suffices for the tokens missing to the limit iff it covers what they cost. -/
theorem le_leak_iff (hl : 0 < r.limit) (hd : 0 < r.duration) (left a : ℚ) :
    (r.limit : ℚ) ≤ left + a / (r.duration / r.limit) + epsilon ↔
      (r.limit - epsilon - left) * r.duration ≤ a * r.limit := by
  have hl' : (0 : ℚ) < r.limit := by exact_mod_cast hl
  have hd' : (0 : ℚ) < r.duration := by exact_mod_cast hd
  have hdiv : a / ((r.duration : ℚ) / r.limit) = a * r.limit / r.duration := by
    field_simp
  rw [hdiv]
  constructor
  · intro h
    rw [← le_div_iff₀ hd']
    linarith
  · intro h
    rw [← le_div_iff₀ hd'] at h
    linarith

/-- The arithmetic of the estimate. -/
theorem fillsInTime_iff (hl : 0 < r.limit) (hd : 0 < r.duration) :
    FillsInTime r (u - t) m left ↔ (r.limit : ℚ) ≤
      balanceAt u left (r.duration / r.limit) (t + m * (r.duration / r.limit : ℤ)) + epsilon := by
  have hl' : (0 : ℚ) < r.limit := by exact_mod_cast hl
  have hd' : (0 : ℚ) < r.duration := by exact_mod_cast hd
  set T := t + m * (r.duration / r.limit : ℤ) with hT
  -- the truncated rate, times the limit
  have htrunc : ((r.duration / r.limit : ℤ) : ℚ) * r.limit =
      r.duration - (r.duration % r.limit : ℤ) := by
    have := Int.mul_ediv_add_emod r.duration r.limit
    have hcast : (r.limit : ℚ) * (r.duration / r.limit : ℤ) + (r.duration % r.limit : ℤ) =
        r.duration := by exact_mod_cast this
    linarith
  -- the time the estimate allows, in units of `1 / limit`
  have hspan : (((T : ℤ) : ℚ) - u) * r.limit =
      m * (r.duration - (r.duration % r.limit : ℤ)) - ((u - t : ℤ) : ℚ) * r.limit := by
    rw [hT]
    push_cast
    have hm : (m : ℚ) * ((r.duration / r.limit : ℤ) : ℚ) * r.limit =
        m * (r.duration - (r.duration % r.limit : ℤ)) := by
      rw [mul_assoc, htrunc]
    linarith
  unfold FillsInTime balanceAt
  rcases le_total u T with hle | hle
  · rw [max_eq_right hle, le_leak_iff hl hd, hspan]
    have hT' : (0 : ℚ) ≤ (T - u) * r.limit := by
      have : (u : ℚ) ≤ T := by exact_mod_cast hle
      exact mul_nonneg (by linarith) hl'.le
    rw [hspan] at hT'
    constructor
    · rintro (h | h)
      · have : (r.limit - epsilon - left) * r.duration ≤ 0 :=
          mul_nonpos_of_nonpos_of_nonneg (by linarith) hd'.le
        linarith
      · linarith
    · intro h
      right
      linarith
  · -- the estimate has passed before the item's own time
    rw [max_eq_left hle, sub_self, zero_div, add_zero]
    have hT' : (T - u) * r.limit ≤ (0 : ℚ) := by
      have : (T : ℚ) ≤ u := by exact_mod_cast hle
      exact mul_nonpos_of_nonpos_of_nonneg (by linarith) hl'.le
    rw [hspan] at hT'
    constructor
    · rintro (h | h)
      · exact h
      · have : (r.limit - epsilon - left) * r.duration ≤ 0 := by linarith
        have := nonpos_of_mul_nonpos_left this hd'
        linarith
    · exact .inl

end Covers

/-- An item just written is gone at `x` iff it has expired, or was invalidated and no Store has
    it. -/
theorem live_eq_false_iff {item : CacheItem} {stored : Bool} {x : ℤ} :
    item.live stored x = false ↔
      (stored = false ∧ item.invalidAt ≠ 0 ∧ item.invalidAt < x) ∨ item.expireAt < x := by
  simp only [CacheItem.live, CacheItem.isExpired, Bool.or_eq_false_iff, Bool.not_eq_false',
    Bool.or_eq_true, Bool.and_eq_true, bne_iff_ne, ne_eq, decide_eq_true_eq,
    Bool.and_eq_false_imp, decide_eq_false_iff_not, not_le]
  cases stored with
  | false => simp
  | true =>
    simp only [true_implies, Bool.true_eq_false, false_and, false_or]
    exact ⟨fun h => h.2, fun h => ⟨.inr h, h⟩⟩

section Found
variable {host : Host} {now x : ℤ} {r : RateLimitReq} {reqState : RateLimitReqState}
  {b : LeakyBucketItem} {q : ℚ} {out : LeakyOutcome}

/-- The item with the request's terms, before the hits are charged. -/
def chargedItem (r : RateLimitReq) (b : LeakyBucketItem) (q : ℚ) (t : ℤ) : LeakyBucketItem :=
  { limit := r.limit, duration := r.duration, burst := r.burst
    remaining := .fin (upToDate r b q t), updatedAt := max b.updatedAt t }

/-- How far the item's time is ahead of the request's. -/
theorem chargedItem_lag {t : ℤ} (ht : t = epochMillis now) :
    max (chargedItem r b q (epochMillis now)).updatedAt t - t =
      max b.updatedAt (epochMillis now) - epochMillis now := by
  rw [ht]
  simp [chargedItem]

/-- The two flags that decide about the expiry, in terms of the stored item. -/
theorem Brings.flags (h : Brings r now) (hq : b.remaining = .fin q) {tm : LeakyTerms}
    (htm : leakyTerms host now r b = .ok tm) :
    (tm.wasInDebt = true ↔ q < 0 ∧ hasBehavior r.behavior .resetRemaining = false) ∧
      ((tm.burstChanged = true ∨ tm.configChanged = true) ↔
        (b.burst ≠ r.burst ∨ b.limit ≠ r.limit ∨ b.duration ≠ r.duration)) := by
  constructor
  · rw [(leakyTerms_ok htm).2.2.2.2.2.2.2.2, hq]
    simp
  · rw [(leakyTerms_ok htm).2.2.2.2.2.2.2.1, (leakyTerms_ok htm).2.2.2.2.2.1, h.tm_burst htm]
    simp

/-- The outcome is a charge of that item, and a deferred extension. -/
theorem Brings.outcome (h : Brings r now) (hq : b.remaining = .fin q)
    (hout : leakyBucketItem host now r reqState b x = .ok out) :
    ∃ tm, leakyTerms host now r b = .ok tm ∧ tm.createdAt = epochMillis now ∧
      tm.duration = r.duration ∧ tm.burst = r.burst ∧
      out = deferredExpiry host tm (.fin (r.duration / r.limit))
        (charge host (touchedExpiry r tm x) (chargedItem r b q (epochMillis now)) r reqState tm
          (.fin (r.duration / r.limit))) := by
  obtain ⟨tm, htm, hdeferred⟩ := leakyBucketItem_ok hout
  obtain ⟨hduration, -, -, -, -, hrate⟩ := usable_terms htm h.limit h.duration h.noGregorian
  rw [hrate, h.credited htm hq] at hdeferred
  exact ⟨tm, htm, h.createdAt htm, hduration, h.tm_burst htm, hdeferred⟩

/-- **An exact answer**: the item is full at the reset time. -/
theorem Brings.exact (h : Brings r now) (hburst : r.burst = r.limit) (hq : b.remaining = .fin q)
    (hvalid : 0 < r.maxWait → 0 ≤ r.hits)
    (hout : leakyBucketItem host now r reqState b x = .ok out)
    (hexact : upToDate r b q (epochMillis now) < 0 ∨ Books reqState.ceiling
      (max b.updatedAt (epochMillis now) - epochMillis now) r (upToDate r b q (epochMillis now))) :
    ∃ z, out.b = { chargedItem r b q (epochMillis now) with remaining := .fin z } ∧
      (r.burst : ℚ) ≤ balanceAt (max b.updatedAt (epochMillis now)) z (r.duration / r.limit)
        out.resp.resetTime + epsilon := by
  have hρ : (0 : ℚ) < r.duration / r.limit :=
    div_pos (by exact_mod_cast h.duration) (by exact_mod_cast h.limit)
  obtain ⟨tm, htm, htime, -, -, hdeferred⟩ := h.outcome hq hout
  set b₁ := chargedItem r b q (epochMillis now) with hb₁
  have hlag : max b₁.updatedAt tm.createdAt - tm.createdAt =
      max b.updatedAt (epochMillis now) - epochMillis now := chargedItem_lag htime
  obtain ⟨-, hbucket⟩ := charge_settle host (touchedExpiry r tm x) (b := b₁) rfl hρ hvalid
    reqState tm
  have hreset := charge_exact host (touchedExpiry r tm x) reqState tm (b := b₁) rfl h.limit
    h.duration hburst hvalid (by rw [hlag]; exact hexact)
  obtain ⟨hresp, hb, -⟩ := deferredExpiry_fields host tm (.fin (r.duration / r.limit))
    (charge host (touchedExpiry r tm x) b₁ r reqState tm (.fin (r.duration / r.limit)))
  rw [← hdeferred] at hresp hb
  refine ⟨_, hb.trans hbucket, ?_⟩
  rw [hresp, hreset, hbucket, fullAt_fin host rfl hρ]
  set z := (settle b₁.burst (r.duration / r.limit) (max b₁.updatedAt tm.createdAt - tm.createdAt)
    reqState.ceiling r (upToDate r b q (epochMillis now))).2 with hz
  show (r.burst : ℚ) ≤ balanceAt (max b.updatedAt (epochMillis now)) z (r.duration / r.limit)
    ⌈((max b.updatedAt (epochMillis now) : ℤ) : ℚ) + (r.burst - z) * (r.duration / r.limit)⌉ +
      epsilon
  set u := max b.updatedAt (epochMillis now)
  -- `fullAt` rounds the exact moment up
  have hceil := Int.le_ceil ((u : ℚ) + (r.burst - z) * (r.duration / r.limit))
  have hlate : ((r.burst : ℚ) - z) * (r.duration / r.limit) ≤
      (max u ⌈(u : ℚ) + (r.burst - z) * (r.duration / r.limit)⌉ : ℤ) - u := by
    have : ((⌈(u : ℚ) + (r.burst - z) * (r.duration / r.limit)⌉ : ℤ) : ℚ) ≤
        (max u ⌈(u : ℚ) + (r.burst - z) * (r.duration / r.limit)⌉ : ℤ) := by
      exact_mod_cast le_max_right _ _
    linarith
  rw [← le_div_iff₀ hρ] at hlate
  unfold balanceAt
  linarith [epsilon_pos]

/-- **An estimate**: what the request leaves, and for how long. -/
theorem Brings.estimated (h : Brings r now) (hburst : r.burst = r.limit) (hq : b.remaining = .fin q)
    (hvalid : 0 < r.maxWait → 0 ≤ r.hits)
    (hout : leakyBucketItem host now r reqState b x = .ok out)
    (hy0 : 0 ≤ upToDate r b q (epochMillis now))
    (hbooks : ¬ Books reqState.ceiling (max b.updatedAt (epochMillis now) - epochMillis now) r
      (upToDate r b q (epochMillis now))) :
    out.resp.resetTime = estimate r (epochMillis now) (upToDate r b q (epochMillis now)) ∧
      out.b = { chargedItem r b q (epochMillis now) with
        remaining := .fin (leftOver r (upToDate r b q (epochMillis now))) } ∧
      (KeepsExpiry r b q (upToDate r b q (epochMillis now)) → out.expireAt = x) ∧
      (¬ KeepsExpiry r b q (upToDate r b q (epochMillis now)) →
        epochMillis now + r.duration ≤ out.expireAt) := by
  have hρ : (0 : ℚ) < r.duration / r.limit :=
    div_pos (by exact_mod_cast h.duration) (by exact_mod_cast h.limit)
  obtain ⟨tm, htm, htime, hduration, -, hdeferred⟩ := h.outcome hq hout
  set b₁ := chargedItem r b q (epochMillis now) with hb₁
  set y := upToDate r b q (epochMillis now) with hy
  have hlag : max b₁.updatedAt tm.createdAt - tm.createdAt =
      max b.updatedAt (epochMillis now) - epochMillis now := chargedItem_lag htime
  have hle : y ≤ r.limit := by
    rw [← hburst]
    exact upToDate_le _
  -- a balance that is not a debt, under the request's own terms
  have hcredit : InCredit r b₁ y := ⟨rfl, h.limit, h.duration, rfl, hburst, hy0, hle⟩
  obtain ⟨hreset, hbucket, hexpire⟩ := hcredit.charge_estimate host (touchedExpiry r tm x) reqState
    tm hvalid (by rw [hlag]; exact hbooks)
  obtain ⟨hwas, hchanged⟩ := h.flags hq htm
  -- an extended expiry leaves at least a duration
  have hextend : ∀ e c, tm.createdAt + tm.duration ≤
      extendDebtExpiry host e c tm.createdAt tm.duration (.fin (r.duration / r.limit)) :=
    fun e c => (le_max_left _ _).trans (le_max_right _ _)
  obtain ⟨hresp, hb, hlonger⟩ := deferredExpiry_fields host tm (.fin (r.duration / r.limit))
    (charge host (touchedExpiry r tm x) b₁ r reqState tm (.fin (r.duration / r.limit)))
  rw [← hdeferred] at hresp hb hlonger
  rw [← htime, ← hduration]
  refine ⟨by rw [hresp, hreset], hb.trans hbucket, fun hkeep => ?_, fun hmove => ?_⟩
  · -- no extension, neither for the hits nor for new terms
    have htouched : touchedExpiry r tm x = x := by
      refine if_neg (fun hn => ?_)
      unfold KeepsExpiry at hkeep
      rw [if_neg hn.1] at hkeep
      exact hn.2 (hwas.mpr hkeep.1)
    rw [hdeferred, deferredExpiry, if_neg, hexpire, if_neg, htouched]
    · rintro ⟨-, h0, henough⟩
      unfold KeepsExpiry at hkeep
      rw [if_neg h0] at hkeep
      exact henough hkeep.2.2
    · rintro ⟨howed, hnew, -⟩
      unfold KeepsExpiry at hkeep
      split at hkeep
      · exact hkeep ⟨hwas.mp howed, hchanged.mp hnew⟩
      · exact hkeep.2.1 (hchanged.mp hnew)
  · -- moved for new terms of a debt, for hits that a key in debt lets in, or for hits on a key in
    -- credit
    by_cases hnew : tm.wasInDebt = true ∧ (tm.burstChanged = true ∨ tm.configChanged = true)
    · rw [hdeferred, deferredExpiry, if_pos ⟨hnew.1, hnew.2, by simp [unusableRate_fin hρ]⟩]
      exact hextend _ _
    refine le_trans ?_ hlonger
    rw [hexpire]
    unfold KeepsExpiry at hmove
    by_cases h0 : r.hits = 0
    · rw [if_pos h0] at hmove
      refine absurd ?_ hmove
      exact fun hn => hnew ⟨hwas.mpr hn.1, hchanged.mpr hn.2⟩
    · rw [if_neg h0] at hmove
      by_cases howed : tm.wasInDebt = true
      · have hadmitted : ¬ y + epsilon < r.hits := by
          intro hshort
          refine hmove ⟨hwas.mp howed, fun hn => hnew ⟨howed, hchanged.mpr hn⟩, hshort⟩
        rw [if_pos ⟨howed, h0, hadmitted⟩]
        exact hextend _ _
      · rw [if_neg (fun hn => howed hn.1), touchedExpiry, if_pos ⟨h0, howed⟩]

/-- Up to the limit, tokens cost at most a duration at the truncated rate. -/
theorem truncated_le (hl : 0 < r.limit) (hd : 0 < r.duration) {m : ℤ} (hm : m ≤ r.limit) :
    m * (r.duration / r.limit) ≤ r.duration :=
  calc m * (r.duration / r.limit)
      ≤ r.limit * (r.duration / r.limit) :=
        mul_le_mul_of_nonneg_right hm (Int.ediv_nonneg hd.le hl.le)
    _ ≤ r.duration := Int.mul_ediv_self_le hl.ne'

/-- The estimate lies within a duration. -/
theorem estimate_le (hl : 0 < r.limit) (hd : 0 < r.duration) {y : ℚ} (hy : 0 ≤ y) (t : ℤ) :
    estimate r t y ≤ t + r.duration := by
  have hmissing : missing r y ≤ r.limit := by
    have : 0 ≤ ⌊counted r y + epsilon⌋ :=
      Int.floor_nonneg.mpr (by linarith [counted_ge (r := r) hy hl])
    unfold missing
    omega
  have := truncated_le hl hd hmissing
  unfold estimate
  omega

/-- A new item outlives the estimate for it. -/
theorem Brings.newItem_live (h : Brings r now) (stored : Bool) :
    CacheItem.live stored
      (epochMillis now + (r.limit - newBalance r) * (r.duration / r.limit))
      (newLeakyItem r (epochMillis now) r.duration) = true := by
  have hn : 0 ≤ newBalance r := by
    have := h.burst
    unfold newBalance
    split <;> omega
  by_contra hdead
  rcases live_eq_false_iff.mp (Bool.eq_false_of_not_eq_true hdead) with ⟨-, h0, -⟩ | hexpired
  · exact h0 rfl
  · have := truncated_le h.limit h.duration (by omega : r.limit - newBalance r ≤ r.limit)
    have hexpire : (newLeakyItem r (epochMillis now) r.duration).expireAt =
      epochMillis now + r.duration := rfl
    omega

/-- An item whose expiry is kept, or else moved past `e`, is gone at `e` only under its old
    expiry. -/
theorem live_moved_iff {item : CacheItem} {value : Option Bucket} {stored : Bool} {e x' : ℤ}
    {kept : Prop} (hkeep : kept → x' = item.expireAt) (hmove : ¬ kept → e ≤ x') :
    CacheItem.live stored e { item with value := value, expireAt := x' } = false ↔
      (stored = false ∧ item.invalidAt ≠ 0 ∧ item.invalidAt < e) ∨
        (kept ∧ item.expireAt < e) := by
  rw [live_eq_false_iff]
  refine or_congr_right ?_
  dsimp only
  by_cases hkept : kept
  · rw [hkeep hkept]
    exact ⟨fun hlt => ⟨hkept, hlt⟩, fun hn => hn.2⟩
  · exact iff_of_false (not_lt.mpr (hmove hkept)) (fun hn => hkept hn.1)

end Found

/-! ## The two ways a request can go

Either there is a leaky bucket under the key, or a new one is created, in which case a token bucket
under the key is removed before. -/

section Ways
variable {host : Host} {now : ℤ} {s : Shard} {r : RateLimitReq} {reqState : RateLimitReqState}
  {resp : RateLimitResp}

/-- What any later query sees of an item found is the item as it is written back. -/
theorem leakyBucket_seen (howner : reqState.isOwner = true)
    (hfaithful : ∀ st, s.store = some st → st.Faithful) {item : CacheItem} {b : LeakyBucketItem}
    (hfind : s.find (epochMillis now) r = some (item, .leaky b)) {out : LeakyOutcome}
    (hout : leakyBucketItem host now r.withBurst reqState b item.expireAt = .ok out) (t : ℤ) :
    Seen (leakyBucket host now s r reqState).2 s.store.isSome t r.hashKey
      (CacheItem.seen s.store.isSome t
        { item with value := some (.leaky out.b), expireAt := out.expireAt } (.leaky out.b)) := by
  have hshard : (leakyBucket host now s r reqState).2 =
      (s.lookup (epochMillis now) r).2.update true
        { item with value := some (.leaky out.b), expireAt := out.expireAt } := by
    rw [← howner]
    simp only [leakyBucket, leakyBucketBurst, find_withBurst, lookup_withBurst, hfind, hout]
  rw [hshard]
  exact seen_update hfaithful hfind (by rfl) (by rfl) t

/-- **On an item found**, the reset time can be relied on iff the criterion holds of the item. -/
theorem found_fullFrom_iff (h : Brings r.withBurst now) (hB : r.withBurst.burst = r.limit)
    (hvalid : 0 < r.maxWait → 0 ≤ r.hits) (howner : reqState.isOwner = true)
    (hfaithful : ∀ st, s.store = some st → st.Faithful) {item : CacheItem} {b : LeakyBucketItem}
    {q : ℚ} (hfind : s.find (epochMillis now) r = some (item, .leaky b)) (hq : b.remaining = .fin q)
    (hok : (leakyBucket host now s r reqState).1 = .ok resp) :
    FullFrom host r (leakyBucket host now s r reqState).2 resp.resetTime ↔
      FoundHonest s.store.isSome reqState.ceiling (epochMillis now) r.withBurst item b q := by
  have hl : 0 < r.limit := by simpa using h.limit
  have hd : 0 < r.duration := by simpa using h.duration
  have hB' : r.withBurst.burst = r.withBurst.limit := by rw [withBurst_limit, hB]
  have hvalid' : 0 < r.withBurst.maxWait → 0 ≤ r.withBurst.hits := by
    rw [withBurst_maxWait, withBurst_hits]
    exact hvalid
  obtain ⟨out, hout, rfl, -⟩ := leakyBucket_found hfind hok
  have hseen := leakyBucket_seen howner hfaithful hfind hout
  set y := upToDate r.withBurst b q (epochMillis now) with hy
  by_cases hexact : y < 0 ∨ Books reqState.ceiling
      (max b.updatedAt (epochMillis now) - epochMillis now) r.withBurst y
  · -- the answer is exact, and both sides hold
    obtain ⟨z, hbucket, hfull⟩ := h.exact hB' hq hvalid' hout hexact
    have hiff := fullFrom_iff host out.resp.resetTime hl hd h.burst hseen
      (by rw [hbucket]; exact withBurst_limit r) (by rw [hbucket]; exact withBurst_duration r)
      (by rw [hbucket]; rfl) (by rw [hbucket])
    rw [hiff]
    refine iff_of_true (.inr ?_) (hexact.imp_right fun hbooks => .inl hbooks)
    rw [hbucket]
    rw [withBurst_duration, withBurst_limit] at hfull
    exact hfull
  rw [not_or, not_lt] at hexact
  obtain ⟨hreset, hbucket, hkeep, hmove⟩ := h.estimated hB' hq hvalid' hout hexact.1 hexact.2
  rw [← hy] at hreset hbucket hkeep hmove
  have hiff := fullFrom_iff host out.resp.resetTime hl hd h.burst hseen
    (by rw [hbucket]; exact withBurst_limit r) (by rw [hbucket]; exact withBurst_duration r)
    (by rw [hbucket]; rfl) (by rw [hbucket])
  -- the criterion's third case is the right side of `fullFrom_iff` at the estimate
  have hfills : FillsInTime r.withBurst (max b.updatedAt (epochMillis now) - epochMillis now)
      (missing r.withBurst y) (leftOver r.withBurst y) ↔
      (r.withBurst.burst : ℚ) ≤ balanceAt out.b.updatedAt (leftOver r.withBurst y)
        (r.duration / r.limit) out.resp.resetTime + epsilon := by
    rw [fillsInTime_iff h.limit h.duration, hreset, hbucket, hB']
    simp only [withBurst_limit, withBurst_duration, estimate, chargedItem]
  -- the item can be gone by then only under its old expiry: a new one is a duration away
  have hgone : CacheItem.live s.store.isSome out.resp.resetTime
      { item with value := some (.leaky out.b), expireAt := out.expireAt } = false ↔
      (s.store.isSome = false ∧ item.invalidAt ≠ 0 ∧
          item.invalidAt < estimate r.withBurst (epochMillis now) y) ∨
        (KeepsExpiry r.withBurst b q y ∧
          item.expireAt < estimate r.withBurst (epochMillis now) y) := by
    rw [hreset]
    exact live_moved_iff hkeep (fun hmoved =>
      (estimate_le h.limit h.duration hexact.1 (epochMillis now)).trans (hmove hmoved))
  rw [hiff, ← hfills, hgone]
  unfold FoundHonest
  rw [← hy]
  constructor
  · rintro (hg | hf)
    · exact .inr (.inr (.inr hg))
    · exact .inr (.inr (.inl hf))
  · rintro (hneg | hbooks | hf | hg)
    · exact absurd hneg (not_lt.mpr hexact.1)
    · exact absurd hbooks hexact.2
    · exact .inr hf
    · exact .inl hg

/-- What is found of the key once a request has found no leaky bucket: nothing, at any later
    time. -/
theorem leakyBase_find_none (hfaithful : ∀ st, s.store = some st → st.Faithful)
    (hmiss : ∀ item b, s.find (epochMillis now) r ≠ some (item, .leaky b))
    (hsane : s.find (epochMillis now) r = none → (s.lookup (epochMillis now) r).1 = none)
    {query : RateLimitReq} (hkey : query.hashKey = r.hashKey) {t : ℤ} (ht : epochMillis now ≤ t) :
    (leakyBase now s r).find t query = none := by
  unfold leakyBase
  rcases hfind : s.find (epochMillis now) r with _ | ⟨item, v | b⟩
  · exact find_none_later hfaithful hkey ht (hsane hfind)
  · -- the other algorithm's item is gone, from the Store too
    have hstored : ((s.lookup (epochMillis now) r).2.remove r.hashKey).stored query.hashKey =
        none := by
      rw [hkey]
      cases hst : s.store with
      | none => simp [Shard.stored, Shard.remove, lookup_store, hst]
      | some st => simp [Shard.stored, Shard.remove, lookup_store, hst]
    rw [Shard.find, Shard.lookup_of_absent (by simp [Shard.remove, hkey]) hstored,
      Option.bind_none]
  · exact absurd hfind (hmiss item b)

/-- **On a key without one**, the criterion is about the new bucket alone. -/
theorem missing_fullFrom_iff (h : Brings r.withBurst now) (hB : r.withBurst.burst = r.limit)
    (howner : reqState.isOwner = true) (hfaithful : ∀ st, s.store = some st → st.Faithful)
    (hmiss : ∀ item b, s.find (epochMillis now) r ≠ some (item, .leaky b))
    (hsane : s.find (epochMillis now) r = none → (s.lookup (epochMillis now) r).1 = none)
    (hok : (leakyBucket host now s r reqState).1 = .ok resp) :
    FullFrom host r (leakyBucket host now s r reqState).2 resp.resetTime ↔
      NewHonest r.withBurst := by
  have hl : 0 < r.limit := by simpa using h.limit
  have hd : 0 < r.duration := by simpa using h.duration
  have hB' : r.withBurst.burst = r.withBurst.limit := by rw [withBurst_limit, hB]
  have hrate := int64_rate host h.limit h.duration
  have hcreated : (if 0 < r.withBurst.maxWait then epochMillis now else r.withBurst.createdAt) =
      epochMillis now := by
    rw [h.created, ite_self]
  rw [leakyBucket_missing hmiss] at hok ⊢
  unfold leakyBucketNewItem at hok ⊢
  simp only [h.noGregorian, Bool.false_eq_true, if_false, hcreated, rateOf_pos _ h.limit,
    hrate] at hok ⊢
  by_cases hnever : 0 < r.withBurst.maxWait ∧ r.withBurst.burst < r.withBurst.hits
  · -- nothing is created, and the key stays full
    simp only [hnever, and_self, if_true] at hok ⊢
    obtain rfl := Except.ok.inj hok
    refine iff_of_true (fun now' query st' hx hquery => ?_) (.inl ⟨hnever.1, hB' ▸ hnever.2⟩)
    refine hquery.reports_missing h.burst ?_
    refine leakyBase_find_none hfaithful hmiss hsane hquery.key ?_
    simpa [hB'] using hx
  simp only [hnever, if_false] at hok ⊢
  obtain rfl := Except.ok.inj hok
  -- what any later query sees is the new item
  have hitem : ∀ t, Seen ((leakyBase now s r).create reqState.isOwner
      (newLeakyItem r.withBurst (epochMillis now) r.withBurst.duration))
      (leakyBase now s r).store.isSome t r.hashKey
      ((newLeakyItem r.withBurst (epochMillis now) r.withBurst.duration).seen
        (leakyBase now s r).store.isSome t
        (.leaky (newLeakyBucket r.withBurst (epochMillis now) r.withBurst.duration))) := by
    intro t
    rw [howner]
    exact seen_create (leakyBase_faithful hfaithful) (withBurst_hashKey r) rfl t
  -- the balance of the new item
  have hbalance : (if decide (r.withBurst.burst < r.withBurst.hits) = true then 0
      else min r.withBurst.burst (r.withBurst.burst - r.withBurst.hits)) =
        newBalance r.withBurst := by
    simp only [newBalance, decide_eq_true_eq]
  rw [hbalance]
  have hiff := fullFrom_iff host (epochMillis now +
      (r.withBurst.limit - newBalance r.withBurst) * (r.withBurst.duration / r.withBurst.limit))
    hl hd h.burst hitem (withBurst_limit r) (withBurst_duration r) rfl rfl
  refine hiff.trans ?_
  -- its time is the request's, so there is no lag
  have hfills : FillsInTime r.withBurst (epochMillis now - epochMillis now)
      (r.withBurst.limit - newBalance r.withBurst) (newBalance r.withBurst) ↔ _ :=
    fillsInTime_iff h.limit h.duration
  rw [sub_self] at hfills
  have hsame : ((r.duration : ℚ) / r.limit) = r.withBurst.duration / r.withBurst.limit := by
    rw [withBurst_duration, withBurst_limit]
  unfold NewHonest
  rw [h.newItem_live, hfills, hsame, hB']
  constructor
  · rintro (hdead | hfull)
    · cases hdead
    · exact .inr hfull
  · rintro (hfits | hfull)
    · exact absurd (hB'.symm ▸ hfits) hnever
    · exact .inr hfull

end Ways

/-- **The reset time is when the bucket is full**, at a key whose burst is its limit, exactly where
    the answer is exact, the estimate late enough or the item gone by then. -/
theorem resetTime_full_iff (host : Host) (now : ℤ) (s : Shard) (r : RateLimitReq)
    (reqState : RateLimitReqState) (hl : 0 < r.limit) (hd : 0 < r.duration)
    (hB : r.withBurst.burst = r.limit)
    (hgreg : hasBehavior r.behavior .durationIsGregorian = false)
    (hcreated : r.createdAt = epochMillis now) (hvalid : validateMaxWait r = "")
    (howner : reqState.isOwner = true) (hfaithful : ∀ st, s.store = some st → st.Faithful)
    (hsane : s.find (epochMillis now) r = none → (s.lookup (epochMillis now) r).1 = none)
    (hrational : ∀ item b, s.find (epochMillis now) r = some (item, .leaky b) →
      ∃ q, b.remaining = .fin q)
    (resp : RateLimitResp) (hok : (leakyBucket host now s r reqState).1 = .ok resp) :
    FullFrom host r (leakyBucket host now s r reqState).2 resp.resetTime ↔
      ResetHonest now s reqState.ceiling r.withBurst := by
  -- filling in the burst keeps what the hypotheses are about
  have hbrings : Brings r.withBurst now := by
    refine ⟨?_, ?_, ?_, ?_, ?_⟩
    · rwa [withBurst_limit]
    · rwa [withBurst_duration]
    · rwa [hB]
    · rwa [withBurst_behavior]
    · rwa [withBurst_createdAt]
  have hpos : 0 < r.maxWait → 0 ≤ r.hits := fun hw =>
    (validateMaxWait_scheduled hvalid hw).2.2.2.2.2
  unfold ResetHonest
  rw [find_withBurst]
  -- nothing, a token bucket, a leaky bucket
  rcases hfind : s.find (epochMillis now) r with _ | ⟨item, t | b⟩
  · exact missing_fullFrom_iff hbrings hB howner hfaithful (by simp [hfind]) hsane hok
  · exact missing_fullFrom_iff hbrings hB howner hfaithful (by simp [hfind]) hsane hok
  · obtain ⟨q, hq⟩ := hrational item b hfind
    rw [found_fullFrom_iff hbrings hB hpos howner hfaithful hfind hq hok]
    constructor
    · exact fun hhonest => ⟨q, hq, hhonest⟩
    · rintro ⟨q', hq', hhonest⟩
      obtain rfl := ExactFloat.fin.inj (hq.symm.trans hq')
      exact hhonest

/-- A bucket of ten tokens per second is emptied, and full a second later. -/
theorem resetTime_full_second :
    (leakyBucket .amd64 0 (.ofItems []) (.sample 10 10 1000 0 0 0) { isOwner := true }).1 =
      .ok { status := .underLimit, limit := 10, remaining := 0, resetTime := 1000 } ∧
    FullFrom .amd64 (.sample 10 10 1000 0 0 0)
      (leakyBucket .amd64 0 (.ofItems []) (.sample 10 10 1000 0 0 0) { isOwner := true }).2 1000 :=
  ⟨by decide +kernel, (resetTime_full_iff .amd64 0 (.ofItems []) (.sample 10 10 1000 0 0 0)
    { isOwner := true }
    (by decide) (by decide) rfl rfl rfl rfl rfl (by intro st hst; cases hst) (fun _ => rfl)
    (by intro item b hfind; cases hfind)
    { status := .underLimit, limit := 10, remaining := 0, resetTime := 1000 }
    (by decide +kernel)).mpr
      (show NewHonest _ from .inr (.inr (by decide +kernel)))⟩

/-- The tokens an answer reports, and the reset time it names. -/
def remainingAndReset (out : Except String RateLimitResp × Shard) : Option (ℤ × ℤ) :=
  out.1.toOption.map (fun resp => (resp.remaining, resp.resetTime))

/-- **Reset times that are too early.** At three tokens per second the truncated rate is a
    millisecond short of the refill; and a refusal that drains five of ten tokens names the moment
    at which the five would have come back. -/
theorem resetTime_early :
    remainingAndReset
        (leakyBucket .amd64 0 (.ofItems []) (.sample 3 3 1000 0 0 0) { isOwner := true }) =
      some (0, 999) ∧
    remainingAndReset (leakyBucket .amd64 999000000
        (leakyBucket .amd64 0 (.ofItems []) (.sample 3 3 1000 0 0 0) { isOwner := true }).2
        (.sample 0 3 1000 0 999 0) { isOwner := true }) = some (2, 1332) ∧
    remainingAndReset (leakyBucket .amd64 0
        (leakyBucket .amd64 0 (.ofItems []) (.sample 5 10 1000 0 0 0) { isOwner := true }).2
        { RateLimitReq.sample 6 10 1000 0 0 0 with behavior := .drainOverLimit }
        { isOwner := true }) = some (0, 500) ∧
    remainingAndReset (leakyBucket .amd64 500000000
        (leakyBucket .amd64 0
          (leakyBucket .amd64 0 (.ofItems []) (.sample 5 10 1000 0 0 0) { isOwner := true }).2
          { RateLimitReq.sample 6 10 1000 0 0 0 with behavior := .drainOverLimit }
          { isOwner := true }).2
        (.sample 0 10 1000 0 500 0) { isOwner := true }) = some (5, 1000) := by
  decide +kernel

end Gubernator
