/-
  HITS TAKEN ONE AFTER ANOTHER from a leaky bucket at one clock.

  A request that neither waits nor refunds and drains what it cannot have, as the owner's peers
  send them, first brings the bucket up to date and then takes its hits (`spend`).  Spending is
  additive but for one balance: exactly `1e-9` short of the hits is granted, and leaves a debt of
  `1e-9` that the next request times by another clock.

  A bucket that is up to date stays so, in credit (`Ready`) and in debt (`Indebted`): the second
  request finds nothing to bring up to date.

  Together they are what merging hits needs: two requests of `h` and `h'` hits leave what one
  request of `h + h'` hits leaves.  The first of the two does the crediting, the second only spends,
  and `spend_spend` adds the two up.
-/
import Gubernator.Leaky.Query

namespace Gubernator

open ExactFloat

/-! ## Spending

A function of the balance alone.  Queries leave it, hits that it covers are taken off and snapped,
and hits that it does not cover drain it; a debt cannot be drained. -/

/-- What is left of the balance `y` after a request for `h` hits. -/
def spend (y : ℚ) (h : ℤ) : ℚ :=
  if h = 0 then y else if (h : ℚ) ≤ y + epsilon then snap (y - h) else min y 0

/-- A query leaves the balance. -/
theorem spend_zero (y : ℚ) : spend y 0 = y := if_pos rfl

/-- A debt is neither paid nor enlarged. -/
theorem spend_of_debt {y : ℚ} (hy : y ≤ -epsilon) {h : ℤ} (hh : 0 ≤ h) : spend y h = y := by
  have hε := epsilon_pos
  unfold spend
  split
  · rfl
  · rename_i h0
    have hpos : (1 : ℚ) ≤ h := by exact_mod_cast (by omega : 1 ≤ h)
    rw [if_neg (by linarith), min_eq_left (by linarith)]

section Credit
variable {y : ℚ} {h : ℤ}

/-- What a request leaves of credit is credit. -/
theorem spend_nonneg (hy : 0 ≤ y) (hedge : (h : ℚ) ≠ y + epsilon) :
    0 ≤ spend y h := by
  unfold spend
  split
  · exact hy
  split
  · rename_i hle
    rw [snap_nonneg]
    have := lt_of_le_of_ne hle hedge
    linarith
  · rw [min_eq_right hy]

/-- And what it leaves is snapped, as what it found was. -/
theorem snap_spend (hy : snap y = y) (h0 : 0 ≤ y) : snap (spend y h) = spend y h := by
  unfold spend
  split
  · exact hy
  split
  · exact snap_snap _
  · rw [min_eq_right h0]
    exact snap_int 0

/-- Hits never add to a balance. -/
theorem spend_le (hy : 0 ≤ y) (hh : 0 ≤ h) : spend y h ≤ y := by
  have hh' : (0 : ℚ) ≤ h := by exact_mod_cast hh
  unfold spend
  split
  · exact le_rfl
  split
  · rcases snap_cases (y - h) with ⟨-, -, hs⟩ | ⟨-, hs⟩
    · rw [hs]
      exact hy
    · rw [hs]
      linarith
  · exact min_le_left _ _

/-- **Spending is additive.** -/
theorem spend_spend {h' : ℤ} (hy : 0 ≤ y) (hh : 0 ≤ h) (hh' : 0 ≤ h')
    (hedge : (h : ℚ) ≠ y + epsilon) : spend (spend y h) h' = spend y (h + h') := by
  have hε := epsilon_pos
  -- either request may be a query
  by_cases h0 : h = 0
  · rw [h0, spend_zero, zero_add]
  by_cases h0' : h' = 0
  · rw [h0', spend_zero, add_zero]
  have h1 : (1 : ℚ) ≤ h' := by exact_mod_cast (by omega : 1 ≤ h')
  have hsmall : 2 * epsilon < 1 := by norm_num [epsilon]
  -- nothing is left for the second request once the balance is zero
  have hempty : spend 0 h' = 0 := by
    rw [spend, if_neg h0', if_neg (by linarith), min_self]
  have hsum : h + h' ≠ 0 := by omega
  by_cases hle : (h : ℚ) ≤ y + epsilon
  · have hfirst : spend y h = snap (y - h) := by rw [spend, if_neg h0, if_pos hle]
    rcases snap_cases (y - h) with ⟨hlow, hhigh, hs⟩ | ⟨hfar, hs⟩
    · -- the first request takes all there is
      rw [hfirst, hs, hempty, spend, if_neg hsum, if_neg (by push_cast; linarith),
        min_eq_right hy]
    · have hleft : epsilon ≤ y - h := by
        rcases hfar with hneg | hpos
        · exact absurd (le_antisymm hle (by linarith)) hedge
        · exact hpos
      rw [hfirst, hs, spend, spend, if_neg h0', if_neg hsum]
      -- enough is left for the second, or it drains the rest
      by_cases hle' : (h' : ℚ) ≤ y - h + epsilon
      · rw [if_pos hle', if_pos (by push_cast; linarith)]
        congr 1
        push_cast
        ring
      · rw [if_neg hle', if_neg (by push_cast; linarith), min_eq_right (by linarith),
          min_eq_right hy]
  · -- drained by the first, and by both at once
    have hfirst : spend y h = 0 := by rw [spend, if_neg h0, if_neg hle, min_eq_right hy]
    rw [hfirst, hempty, spend, if_neg hsum, if_neg (by push_cast; linarith), min_eq_right hy]

/-- No whole number of hits is `1e-9` more than a whole balance. -/
theorem int_ne_add_epsilon (n m : ℤ) : (n : ℚ) ≠ m + epsilon := by
  have hε := epsilon_pos
  have hsmall : epsilon < 1 := by norm_num [epsilon]
  intro heq
  have h1 : (m : ℚ) < n := by linarith
  have h2 : (n : ℚ) < m + 1 := by linarith
  have h3 : m < n := by exact_mod_cast h1
  have h4 : n < m + 1 := by exact_mod_cast h2
  omega

/-- At the edge, `1e-9` tokens are owed. -/
theorem spend_at_edge (hy : 0 ≤ y) (hedge : (h : ℚ) = y + epsilon) : spend y h = -epsilon := by
  have hε := epsilon_pos
  have h0 : h ≠ 0 := by
    rintro rfl
    push_cast at hedge
    linarith
  have hdiff : y - h = -epsilon := by
    rw [hedge]
    ring
  rw [spend, if_neg h0, if_pos hedge.le, hdiff, snap_of_le le_rfl]

/-- The edge of what a request leaves was the edge before it. -/
theorem edge_of_spend {n : ℤ} (hy : 0 ≤ y) (hedge : (n : ℚ) = spend y h + epsilon) :
    ((h + n : ℤ) : ℚ) = y + epsilon := by
  have hzero : (n : ℚ) ≠ 0 + epsilon := by
    simpa using int_ne_add_epsilon n 0
  unfold spend at hedge
  split at hedge
  · rename_i h0
    rw [h0, zero_add]
    exact hedge
  split at hedge
  · -- a snapped balance is zero, and no whole number is `1e-9`
    rcases snap_cases (y - h) with ⟨-, -, hs⟩ | ⟨-, hs⟩
    · rw [hs] at hedge
      exact absurd hedge hzero
    · rw [hs] at hedge
      push_cast
      linarith
  · rw [min_eq_right hy] at hedge
    exact absurd hedge hzero

end Credit

/-- A new bucket is a full one less the hits. -/
theorem newBalance_eq_spend {r : RateLimitReq} (hB : 0 ≤ r.burst) (hh : 0 ≤ r.hits) :
    ((newBalance r : ℤ) : ℚ) = spend r.burst r.hits := by
  have hε := epsilon_pos
  have hB' : (0 : ℚ) ≤ r.burst := by exact_mod_cast hB
  unfold newBalance spend
  by_cases h0 : r.hits = 0
  · rw [if_pos h0, h0, if_neg (by omega), sub_zero, min_self]
  rw [if_neg h0]
  -- a new bucket refuses more than its burst, and is drained
  by_cases hlt : r.burst < r.hits
  · have hle : (r.burst : ℚ) + 1 ≤ r.hits := by exact_mod_cast hlt
    have hsmall : epsilon < 1 := by norm_num [epsilon]
    rw [if_pos hlt, if_neg (by linarith), min_eq_right hB', Int.cast_zero]
  · have hle : (r.hits : ℚ) ≤ r.burst := by exact_mod_cast not_lt.mp hlt
    rw [if_neg hlt, if_pos (by linarith), min_eq_right (by omega), ← Int.cast_sub, snap_int]

/-! ## One request

`Spends` are requests such as the owner receives from its peers.  Each is one run of
`leakyBucketItem`: terms, credit, charge. -/

/-- A request the owner takes hits for at one go: it does not wait, it drains what it cannot
    have, and it has terms. -/
structure Spends (host : Host) (now : ℤ) (r : RateLimitReq) (d : ℤ) : Prop where
  noWait : ¬ 0 < r.maxWait
  hits : 0 ≤ r.hits
  drain : hasBehavior r.behavior .drainOverLimit = true
  terms : ∃ rate, requestTerms host now r = .ok (rate, d)

section Request
variable {host : Host} {now : ℤ} {r : RateLimitReq} {d : ℤ} {b : LeakyBucketItem}
  {tm : LeakyTerms}

/-- On any item it has terms, with its own duration. -/
theorem Spends.leakyTerms (hr : Spends host now r d) (b : LeakyBucketItem) :
    ∃ tm, leakyTerms host now r b = .ok tm ∧ tm.duration = d := by
  obtain ⟨rate, hterms⟩ := hr.terms
  simp only [Gubernator.leakyTerms, hterms]
  exact ⟨_, rfl, rfl⟩

/-- It is timed by the owner's clock on a debt, and by itself otherwise. -/
theorem Spends.createdAt (hr : Spends host now r d)
    (htm : Gubernator.leakyTerms host now r b = .ok tm) :
    tm.createdAt = if b.remaining < 0 then epochMillis now else r.createdAt := by
  rw [(leakyTerms_ok htm).2.1]
  simp only [hr.noWait, false_or]

/-- **What taking the hits does** once the balance, a rational `y`, is up to date. -/
theorem charge_spend (tm : LeakyTerms) (hr : Spends host now r d) {y : ℚ}
    (hy : b.remaining = .fin y) (hburst : y ≤ b.burst) (x : ℤ) (reqState : RateLimitReqState)
    (rate : ExactFloat) :
    (charge host x b r reqState tm rate).b = { b with remaining := .fin (spend y r.hits) } ∧
      x ≤ (charge host x b r reqState tm rate).expireAt ∧
      (tm.wasInDebt = false → (charge host x b r reqState tm rate).expireAt = x) := by
  unfold charge spend
  dsimp only
  split
  · exact ⟨by rw [← hy], le_rfl, fun _ => rfl⟩
  rename_i h0
  have hpos : 0 < r.hits := lt_of_le_of_ne hr.hits (Ne.symm h0)
  have hpos' : (0 : ℚ) < r.hits := by exact_mod_cast hpos
  rw [if_neg hr.noWait, if_neg (fun h => absurd h.1 (by omega)), hy]
  split
  · -- too few tokens: refused, and drained
    rename_i hshort
    have hshort' : ¬ (r.hits : ℚ) ≤ y + epsilon := fun hle =>
      absurd ((le_wholeTokens hpos).mpr hle) (not_le.mpr hshort)
    rw [if_pos hr.drain, if_neg hshort']
    refine ⟨?_, le_rfl, fun _ => rfl⟩
    rw [zero_eq_fin, min_fin]
  · -- enough: taken off, where the cut at the burst is idle
    rename_i henough
    rw [if_pos ((le_wholeTokens hpos).mp (not_lt.mp henough))]
    refine ⟨?_, le_ite_extendDebtExpiry .., fun hdebt => ?_⟩
    · simp only [ofInt_eq, fin_sub_fin, min_fin, snapToZero_fin]
      rw [min_eq_right (by linarith)]
    · simp [hdebt]

/-- **A request on a found item**: the credited bucket less the hits.  Unless the key was in debt,
    hits renew the item from the request's time. -/
theorem leakyBucketItem_spend (hr : Spends host now r d)
    (htm : Gubernator.leakyTerms host now r b = .ok tm) (hd : tm.duration = d) {y : ℚ}
    (hy : (credited r tm b).remaining = .fin y) (x : ℤ) (reqState : RateLimitReqState) :
    ∃ out, leakyBucketItem host now r reqState b x = .ok out ∧
      out.b = { credited r tm b with remaining := .fin (spend y r.hits) } ∧
      (tm.wasInDebt = true → x ≤ out.expireAt) ∧
      (tm.wasInDebt = false → out.expireAt = if r.hits = 0 then x else tm.createdAt + d) := by
  have hchanged := (leakyTerms_ok htm).2.2.2.2.2.2.2.1
  have hburst : y ≤ (credited r tm b).burst := by
    rw [credited_burst r tm b hchanged]
    exact credited_le_burst r tm b hchanged hy
  set rate := chargeRate tm (credited r tm b) with hrate
  obtain ⟨hb, hx, hsame⟩ := charge_spend tm hr hy hburst (touchedExpiry r tm x) reqState rate
  obtain ⟨-, hdb, hdx⟩ := deferredExpiry_fields host tm rate
    (charge host (touchedExpiry r tm x) (credited r tm b) r reqState tm rate)
  -- the outcome, its bucket, and its expiry with and without a debt
  refine ⟨deferredExpiry host tm rate
    (charge host (touchedExpiry r tm x) (credited r tm b) r reqState tm rate), ?_, ?_, ?_, ?_⟩
  · simp only [leakyBucketItem, htm, hrate]
  · rw [hdb, hb]
  · intro hdebt
    refine le_trans ?_ (hx.trans hdx)
    simp [touchedExpiry, hdebt]
  · intro hdebt
    rw [deferredExpiry, if_neg (by simp [hdebt]), hsame hdebt, touchedExpiry, ← hd]
    by_cases h0 : r.hits = 0 <;> simp [h0, hdebt]

/-- The balance charged has been snapped. -/
theorem credited_snapped (htm : Gubernator.leakyTerms host now r b = .ok tm) {y : ℚ}
    (hy : (credited r tm b).remaining = .fin y) : snap y = y := by
  rw [credited_remaining r tm b (leakyTerms_ok htm).2.2.2.2.2.2.2.1] at hy
  -- the last thing crediting does is to snap; an infinite balance is no rational
  cases hz : ExactFloat.min (.ofInt tm.burst)
      (refill r tm (shiftBurst tm (rescaleDebt tm (creditLeak tm b)))).remaining with
  | fin z =>
    rw [hz, snapToZero_fin] at hy
    rw [← ExactFloat.fin.inj hy, snap_snap]
  | negZero =>
    rw [hz, show snapToZero .negZero = .fin 0 by decide +kernel] at hy
    rw [← ExactFloat.fin.inj hy]
    exact snap_int 0
  | inf s => rw [hz] at hy; cases hy
  | nan => rw [hz] at hy; cases hy

end Request

/-! ## A bucket in credit and up to date

`c` is the time of the requests to come: none of them has anything to credit. -/

/-- `y` tokens of credit, credited up to `c` and capped at the burst `B`. -/
structure Ready (B c : ℤ) (b : LeakyBucketItem) (y : ℚ) : Prop where
  balance : b.remaining = .fin y
  credit : 0 ≤ y
  snapped : snap y = y
  le_burst : y ≤ B
  burst : b.burst = B
  updated : c ≤ b.updatedAt

section Ready
variable {host : Host} {now : ℤ} {r : RateLimitReq} {d B c : ℤ} {b b' : LeakyBucketItem}
  {tm : LeakyTerms} {q y : ℚ}

/-- Taking hits leaves it up to date. -/
theorem Ready.spend (h : Ready B c b y) {n : ℤ} (hn : 0 ≤ n) (hedge : (n : ℚ) ≠ y + epsilon) :
    Ready B c { b with remaining := .fin (spend y n) } (spend y n) where
  balance := rfl
  credit := spend_nonneg h.credit hedge
  snapped := snap_spend h.snapped h.credit
  le_burst := (spend_le h.credit hn).trans h.le_burst
  burst := h.burst
  updated := h.updated

/-- It holds no debt. -/
theorem Ready.not_neg (h : Ready B c b y) : ¬ b.remaining < 0 := by
  rw [h.balance, fin_lt_zero]
  exact not_lt.mpr h.credit

/-- A bucket in credit does not read as debt, whatever has leaked. -/
theorem not_debtAt (hq : b.remaining = .fin q) (hcredit : 0 ≤ q) (t : ℤ) : debtAt b t = false := by
  have hε := epsilon_pos
  unfold debtAt
  dsimp only
  cases hrate : unusableRate (rateOf b.limit b.duration) with
  | true =>
    rw [if_pos rfl, hq, snapToZero_fin, decide_eq_false_iff_not, fin_lt_zero, snap_lt_zero]
    linarith
  | false =>
    obtain ⟨ρ, hρ, hfin⟩ := usable_iff.mp hrate
    rw [if_neg (by decide), hq, hfin, creditedLeak_fin b t hρ, fin_add_fin, snapToZero_fin,
      decide_eq_false_iff_not, fin_lt_zero, snap_lt_zero]
    have := le_balanceAt b.updatedAt q hρ t
    unfold balanceAt at this
    linarith

/-- A key in credit takes the burst of the request. -/
theorem burst_of_credit (htm : leakyTerms host now r b = .ok tm) (hq : b.remaining = .fin q)
    (hcredit : 0 ≤ q) : tm.burst = r.burst := by
  rw [(leakyTerms_ok htm).2.2.2.2.2.2.1, not_debtAt hq hcredit]
  simp

/-- **The next request finds nothing to bring up to date.** -/
theorem Ready.credited (h : Ready r.burst r.createdAt b y) (hr : Spends host now r d)
    (htm : leakyTerms host now r b = .ok tm)
    (hreset : hasBehavior r.behavior .resetRemaining = false) :
    (Gubernator.credited r tm b).remaining = .fin y ∧ tm.wasInDebt = false ∧
      tm.createdAt = r.createdAt ∧
      Ready r.burst r.createdAt (Gubernator.credited r tm b) y := by
  obtain ⟨-, -, -, -, hrescale, -, -, hchanged, hdebt⟩ := leakyTerms_ok htm
  have hcredit : ¬ b.remaining < 0 := by
    rw [h.balance, fin_lt_zero]
    exact not_lt.mpr h.credit
  have htime : tm.createdAt = r.createdAt := by rw [hr.createdAt htm, if_neg hcredit]
  have hburst := burst_of_credit htm h.balance h.credit
  have hrem : (Gubernator.credited r tm b).remaining = .fin y := by
    -- each of the steps of `credited` is idle
    have hleak : creditLeak tm b = b := by
      rw [creditLeak, if_neg (by rw [htime]; exact not_lt.mpr h.updated)]
    have hscale : rescaleDebt tm b = b := by
      rw [rescaleDebt, hrescale]
      simp [hcredit]
    have hshift : shiftBurst tm b = b := by
      rw [shiftBurst, hchanged, hburst, h.burst]
      simp
    rw [credited_remaining r tm b hchanged, hleak, hscale, hshift, refill, hreset]
    simp only [Bool.false_eq_true, if_false]
    rw [h.balance, hburst, ofInt_eq, min_fin, min_eq_right h.le_burst, snapToZero_fin, h.snapped]
  refine ⟨hrem, ?_, htime, hrem, h.credit, h.snapped, h.le_burst, ?_, ?_⟩
  · rw [hdebt]
    simp [hcredit]
  · rw [credited_burst r tm b hchanged, hburst]
  · rw [credited_updatedAt, htime]
    exact le_max_right _ _

/-- The first request brings a bucket to credit. -/
theorem ready_of_credited (hr : Spends host now r d) (htm : leakyTerms host now r b = .ok tm)
    (hq : b.remaining = .fin q) (hy : (credited r tm b).remaining = .fin y) (hcredit : 0 ≤ y)
    (hdebt : q < 0 → r.createdAt ≤ max b.updatedAt (epochMillis now) ∧
      (credited r tm b).burst = r.burst) :
    Ready r.burst r.createdAt (credited r tm b) y := by
  have hchanged := (leakyTerms_ok htm).2.2.2.2.2.2.2.1
  have htime := hr.createdAt htm
  have hle := credited_le_burst r tm b hchanged hy
  rw [hq] at htime
  -- the item was in debt and is not any more, or it was in credit
  rcases lt_or_ge q 0 with hneg | hpos
  · rw [if_pos (fin_lt_zero.mpr hneg)] at htime
    obtain ⟨hc, hB⟩ := hdebt hneg
    refine ⟨hy, hcredit, credited_snapped htm hy, ?_, hB, ?_⟩
    · rwa [← hB, credited_burst r tm b hchanged]
    · rwa [credited_updatedAt, htime]
  · rw [if_neg (by rw [fin_lt_zero]; exact not_lt.mpr hpos)] at htime
    have hburst := burst_of_credit htm hq hpos
    refine ⟨hy, hcredit, credited_snapped htm hy, by rwa [← hburst], ?_, ?_⟩
    · rw [credited_burst r tm b hchanged, hburst]
    · rw [credited_updatedAt, htime]
      exact le_max_right _ _

/-- A reset fills the bucket, whatever was in it. -/
theorem ready_of_reset (hr : Spends host now r d) (htm : leakyTerms host now r b = .ok tm)
    (hreset : hasBehavior r.behavior .resetRemaining = true) (hB : 0 ≤ r.burst)
    (htimed : b.remaining < 0 → r.createdAt ≤ max b.updatedAt (epochMillis now)) :
    tm.wasInDebt = false ∧ Ready r.burst r.createdAt (credited r tm b) r.burst := by
  obtain ⟨-, -, -, -, -, -, hburst, hchanged, hdebt⟩ := leakyTerms_ok htm
  have hburst' : tm.burst = r.burst := by
    rw [hburst, hreset]
    exact if_neg (fun h => by
      rcases h.2 with hneg | ⟨-, hno⟩
      · omega
      · exact hno rfl)
  refine ⟨by rw [hdebt, hreset]; simp, ?_, by exact_mod_cast hB, snap_int _, le_rfl, ?_, ?_⟩
  · rw [credited_remaining r tm b hchanged, refill, hreset, hburst']
    simp only [if_true]
    rw [ofInt_eq, min_fin, min_self, snapToZero_fin, snap_int]
  · rw [credited_burst r tm b hchanged, hburst']
  · rw [credited_updatedAt, hr.createdAt htm]
    split
    · rename_i hneg
      exact htimed hneg
    · exact le_max_right _ _

end Ready

/-! ## A bucket in debt

A debt is timed by the owner's clock, so here the bucket has to be up to date at the clock and not
at the request's time.  Its terms stay for one of the reasons that `config` lists. -/

/-- A debt of `-y` tokens, credited up to the clock `t`, under terms that a request of `r`'s kind
    leaves alone. -/
structure Indebted (t : ℤ) (r : RateLimitReq) (b : LeakyBucketItem) (y : ℚ) : Prop where
  balance : b.remaining = .fin y
  debt : y ≤ -epsilon
  le_burst : y ≤ b.burst
  burst : b.burst = r.burst ∨ r.burst ≤ 0
  updated : t ≤ b.updatedAt
  config : hasBehavior r.behavior .durationIsGregorian = true ∨ requestUsable r = false ∨
    (b.limit = r.limit ∧ b.duration = r.duration)

section Indebted
variable {host : Host} {now : ℤ} {r : RateLimitReq} {d : ℤ} {b : LeakyBucketItem}
  {tm : LeakyTerms} {q y : ℚ}

/-- What a debt asks of a request is in four of its fields. -/
theorem Indebted.congr {t : ℤ} {r' : RateLimitReq} (h : Indebted t r b y)
    (hburst : r.burst = r'.burst) (hlimit : r.limit = r'.limit)
    (hduration : r.duration = r'.duration)
    (hcalendar : hasBehavior r.behavior .durationIsGregorian =
      hasBehavior r'.behavior .durationIsGregorian) : Indebted t r' b y := by
  have husable : requestUsable r = requestUsable r' := by
    simp only [requestUsable, hlimit, hduration]
  refine ⟨h.balance, h.debt, h.le_burst, ?_, h.updated, ?_⟩
  · rw [← hburst]
    exact h.burst
  · rw [← hcalendar, ← husable, ← hlimit, ← hduration]
    exact h.config

/-- **A bucket in credit turns into a debt** of `1e-9` tokens by a request for exactly that much
    more than it holds. -/
theorem Ready.spend_edge {t c n : ℤ} (h : Ready r.burst c b y) (hedge : (n : ℚ) = y + epsilon)
    (htimed : t ≤ b.updatedAt)
    (hconfig : hasBehavior r.behavior .durationIsGregorian = true ∨ requestUsable r = false ∨
      (b.limit = r.limit ∧ b.duration = r.duration)) :
    Indebted t r { b with remaining := .fin (Gubernator.spend y n) } (Gubernator.spend y n) where
  balance := rfl
  debt := (spend_at_edge h.credit hedge).le
  le_burst := by
    have hε := epsilon_pos
    have hcap := h.credit.trans h.le_burst
    rw [spend_at_edge h.credit hedge, h.burst]
    linarith
  burst := .inl h.burst
  updated := htimed
  config := hconfig

/-- The terms after crediting are the request's, or kept for a reason that lasts. -/
theorem credited_terms (htm : leakyTerms host now r b = .ok tm) :
    hasBehavior r.behavior .durationIsGregorian = true ∨ requestUsable r = false ∨
      ((credited r tm b).limit = r.limit ∧ (credited r tm b).duration = r.duration) := by
  rcases credited_config r tm b with ⟨-, hlimit, hduration, -⟩ | ⟨hkeep, -⟩
  · exact .inr (.inr ⟨hlimit, hduration⟩)
  · rw [(leakyTerms_ok htm).2.2.2.1] at hkeep
    simp only [Bool.and_eq_true, Bool.or_eq_true, Bool.not_eq_true'] at hkeep
    rcases hkeep.1.1 with hgreg | husable
    · exact .inl hgreg
    · exact .inr (.inl husable)

/-- The burst is the request's unless that brings none. -/
theorem burst_terms (htm : leakyTerms host now r b = .ok tm) :
    tm.burst = r.burst ∨ r.burst ≤ 0 := by
  rw [(leakyTerms_ok htm).2.2.2.2.2.2.1]
  split
  · rename_i h
    rcases h.2 with hneg | ⟨hzero, -⟩
    · exact .inr hneg.le
    · exact .inr hzero.le
  · exact .inl rfl

/-- The first request leaves a debt. -/
theorem indebted_of_credited (hr : Spends host now r d) (htm : leakyTerms host now r b = .ok tm)
    (hq : b.remaining = .fin q) (hy : (credited r tm b).remaining = .fin y) (hneg : y < 0)
    (hcredit : 0 ≤ q → epochMillis now ≤ max b.updatedAt r.createdAt) :
    Indebted (epochMillis now) r (credited r tm b) y := by
  have hchanged := (leakyTerms_ok htm).2.2.2.2.2.2.2.1
  have hsnap := credited_snapped htm hy
  refine ⟨hy, ?_, ?_, ?_, ?_, credited_terms htm⟩
  · rw [← snap_lt_zero, hsnap]
    exact hneg
  · rw [credited_burst r tm b hchanged]
    exact credited_le_burst r tm b hchanged hy
  · rw [credited_burst r tm b hchanged]
    exact burst_terms htm
  · rw [credited_updatedAt, hr.createdAt htm, hq]
    split
    · exact le_max_right _ _
    · rename_i hpos
      rw [fin_lt_zero, not_lt] at hpos
      exact hcredit hpos

/-- **The next request finds the same debt.** -/
theorem Indebted.credited (h : Indebted (epochMillis now) r b y) (hr : Spends host now r d)
    (htm : leakyTerms host now r b = .ok tm)
    (hreset : hasBehavior r.behavior .resetRemaining = false) :
    (Gubernator.credited r tm b).remaining = .fin y ∧ tm.wasInDebt = true ∧
      Indebted (epochMillis now) r (Gubernator.credited r tm b) y := by
  have hε := epsilon_pos
  obtain ⟨-, -, -, -, hrescale, hconfig, hburst, hchanged, hdebt⟩ := leakyTerms_ok htm
  have hneg : b.remaining < 0 := by
    rw [h.balance, fin_lt_zero]
    linarith [h.debt]
  have htime : tm.createdAt = epochMillis now := by rw [hr.createdAt htm, if_pos hneg]
  have hsnap : snap y = y := snap_of_le h.debt
  -- nothing has leaked since, so it still reads as debt
  have howed : debtAt b tm.createdAt = true := by
    have hleak : creditedLeak b tm.createdAt (rateOf b.limit b.duration) = 0 := by
      rw [creditedLeak, if_pos (by rw [htime]; exact h.updated)]
    have hnegative : snapToZero (ExactFloat.fin y) < 0 := by
      rw [snapToZero_fin, fin_lt_zero, hsnap]
      linarith [h.debt]
    unfold debtAt
    dsimp only
    rw [hleak, h.balance, zero_eq_fin, fin_add_fin, add_zero, ite_self]
    exact decide_eq_true hnegative
  -- a debt keeps its burst, or is brought the same
  have hburst' : tm.burst = b.burst := by
    rw [hburst, howed]
    split
    · rfl
    · rename_i hkeep
      rcases h.burst with hB | hB
      · exact hB.symm
      · exact absurd ⟨rfl, by
          rcases lt_or_eq_of_le hB with h1 | h1
          · exact .inl h1
          · exact .inr ⟨h1, by simp [hreset]⟩⟩ hkeep
  -- nothing is restated under terms that stay
  have hnoscale : tm.rescale = false := by
    rw [hrescale, hconfig]
    rcases h.config with hg | hu | ⟨hl, hd⟩
    · simp [hg]
    · simp [hu]
    · simp [hl, hd]
  have hrem : (Gubernator.credited r tm b).remaining = .fin y := by
    have hleak : creditLeak tm b = b := by
      rw [creditLeak, if_neg (by rw [htime]; exact not_lt.mpr h.updated)]
    have hshift : shiftBurst tm b = b := by
      rw [shiftBurst, hchanged, hburst']
      simp
    rw [credited_remaining r tm b hchanged, hleak, rescaleDebt, hnoscale]
    simp only [Bool.false_eq_true, false_and, if_false]
    rw [hshift, refill, hreset]
    simp only [Bool.false_eq_true, if_false]
    rw [h.balance, hburst', ofInt_eq, min_fin, min_eq_right h.le_burst, snapToZero_fin, hsnap]
  refine ⟨hrem, ?_, hrem, h.debt, ?_, ?_, ?_, credited_terms htm⟩
  · rw [hdebt, hreset]
    simp [hneg]
  · rw [credited_burst r tm b hchanged, hburst']
    exact h.le_burst
  · rw [credited_burst r tm b hchanged, hburst']
    exact h.burst
  · rw [credited_updatedAt]
    exact h.updated.trans (le_max_left _ _)

end Indebted

end Gubernator
