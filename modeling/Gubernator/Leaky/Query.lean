/-
  A QUERY: a leaky bucket request without hits, on an item it finds.

  It charges nothing, but it is not a mere read — it credits the leak up to its own time, and a
  reset refills.  The balance as a function of time (`LeakyBucketItem.balance`) is a capped line
  of `Lib/CappedLine.lean`, except at the two rates of zero, where any time at all leaks an
  infinite amount.
-/
import Gubernator.Leaky.Debt
import Gubernator.Lib.CappedLine

namespace Gubernator

open ExactFloat CappedLine

/-! ## The balance as a function of time

With floating-point numbers for rates, since a rate may be infinite, NaN or zero. -/

/-- The balance with its leak credited up to `x`, in milliseconds. -/
def LeakyBucketItem.leaked (b : LeakyBucketItem) (rate : ExactFloat) (x : ℤ) : ExactFloat :=
  b.remaining + creditedLeak b x rate

/-- The same, capped at the burst. -/
def LeakyBucketItem.balance (b : LeakyBucketItem) (rate : ExactFloat) (x : ℤ) : ExactFloat :=
  ExactFloat.min (.ofInt b.burst) (b.leaked rate x)

/-- The tokens a millisecond leaks in at a rate other than zero. -/
def slope : ExactFloat → ℚ
  | .fin ρ => 1 / ρ
  | _ => 0

section Balance
variable {b : LeakyBucketItem} {q : ℚ} {rate : ExactFloat}

/-- Before the last update nothing leaks. -/
theorem leaked_of_le (hq : b.remaining = .fin q) {x : ℤ} (hx : x ≤ b.updatedAt) :
    b.leaked rate x = .fin q := by
  rw [LeakyBucketItem.leaked, creditedLeak, if_pos hx, hq, zero_eq_fin, fin_add_fin, add_zero]

/-- **Away from the two zeros, the leak is a line.** -/
theorem leaked_line (hq : b.remaining = .fin q) (hrate : ∀ s, rate ≠ zero s) (x : ℤ) :
    b.leaked rate x = .fin (line b.updatedAt q (slope rate) x) := by
  rcases le_or_gt x b.updatedAt with hx | hx
  · rw [leaked_of_le hq hx, line_of_le hx]
  have hpos : (0 : ℚ) < ((x - b.updatedAt : ℤ) : ℚ) := by
    have : 0 < x - b.updatedAt := by omega
    exact_mod_cast this
  rw [line_of_ge hx.le, LeakyBucketItem.leaked, hq]
  cases rate with
  | fin ρ =>
    have hρ : ρ ≠ 0 := fun h => hrate false (by rw [h]; rfl)
    have hleak : ExactFloat.fin ((x - b.updatedAt : ℤ) : ℚ) / .fin ρ =
        .fin (((x - b.updatedAt : ℤ) : ℚ) / ρ) := by
      rw [fin_div_fin hρ, if_neg (fun h => (ne_of_gt hpos) h.1)]
    rw [creditedLeak_eq hx hleak]
    show ExactFloat.fin (q + ((x - b.updatedAt : ℤ) : ℚ) / ρ) = _
    rw [slope, Int.cast_sub]
    congr 1
    ring
  | negZero => exact absurd rfl (hrate true)
  -- an infinite rate never leaks a token, and NaN is taken for no leak
  | inf s =>
    rw [creditedLeak_eq hx (fin_div_inf _ s), isNaN_zero]
    simp [slope]
  | nan =>
    rw [creditedLeak_eq hx (div_nan _)]
    show ExactFloat.fin (q + 0) = _
    simp [slope]

/-- At a rate of zero the first millisecond leaks in an infinite amount, of the zero's sign. -/
theorem leaked_zero (hq : b.remaining = .fin q) (s : Bool) {x : ℤ} (hx : b.updatedAt < x) :
    b.leaked (zero s) x = .inf s := by
  have hpos : (0 : ℚ) < ((x - b.updatedAt : ℤ) : ℚ) := by
    have : 0 < x - b.updatedAt := by omega
    exact_mod_cast this
  rw [LeakyBucketItem.leaked, creditedLeak_eq hx (fin_div_zero hpos s), hq]
  rfl

end Balance

/-! ## Balances that nobody can tell apart

The algorithm itself takes balances this close to zero for zero. -/

/-- Equal up to `1e-9` tokens. -/
def Near (x y : ExactFloat) : Prop := x ≤ y + .fin epsilon ∧ y ≤ x + .fin epsilon

instance (x y : ExactFloat) : Decidable (Near x y) := inferInstanceAs (Decidable (_ ∧ _))

/-- For numbers, `Near` is a distance. -/
theorem near_fin {x y : ℚ} : Near (.fin x) (.fin y) ↔ |x - y| ≤ epsilon := by
  simp only [Near, fin_add_fin, fin_le_fin]
  rw [abs_le]
  constructor
  · rintro ⟨h1, h2⟩
    exact ⟨by linarith, by linarith⟩
  · rintro ⟨h1, h2⟩
    exact ⟨by linarith, by linarith⟩

/-- A number is near itself. -/
theorem near_refl (x : ℚ) : Near (.fin x) (.fin x) := by
  rw [near_fin, sub_self, abs_zero]
  exact epsilon_pos.le

/-- A debt without bound is near itself. -/
theorem near_negInf : Near (.inf true) (.inf true) := ⟨rfl, rfl⟩

/-! ## The query on a found item

What is left of the call when there is nothing to charge. -/

section Query
variable {host : Host} {now : ℤ} {r : RateLimitReq} {b : LeakyBucketItem} {tm : LeakyTerms}

/-- A query answers with the status of the credited bucket, and stores that bucket. -/
theorem leakyBucketItem_query (hhits : r.hits = 0) (htm : leakyTerms host now r b = .ok tm)
    (reqState : RateLimitReqState) (x : ℤ) :
    leakyBucketItem host now r reqState b x =
      .ok (deferredExpiry host tm (chargeRate tm (credited r tm b))
        ⟨leakyStatus host (credited r tm b) tm.createdAt (chargeRate tm (credited r tm b)),
          credited r tm b, x⟩) := by
  simp [leakyBucketItem, htm, charge, touchedExpiry, hhits]

/-- The item has the limit, duration and burst the request asks for. -/
structure SameTerms (r : RateLimitReq) (b : LeakyBucketItem) : Prop where
  limit : b.limit = r.limit
  duration : b.duration = r.duration
  burst : b.burst = r.burst

/-- Nothing is found to have changed. -/
theorem SameTerms.unchanged (h : SameTerms r b) (htm : leakyTerms host now r b = .ok tm) :
    tm.burst = b.burst ∧ tm.burstChanged = false ∧ tm.configChanged = false ∧
      tm.rescale = false := by
  obtain ⟨-, -, -, -, hrescale, hconfig, hburst, hchanged, -⟩ := leakyTerms_ok htm
  have hB : tm.burst = b.burst := by
    rw [hburst]
    split
    · rfl
    · exact h.burst.symm
  have hC : tm.configChanged = false := by
    rw [hconfig]
    simp [h.limit, h.duration]
  refine ⟨hB, ?_, hC, ?_⟩
  · rw [hchanged, hB]
    simp
  · rw [hrescale, hC]
    simp

/-- The balance after a query that changes no terms: refilled, or credited to the request's time;
    either way capped at the burst. -/
theorem SameTerms.credited (h : SameTerms r b) (htm : leakyTerms host now r b = .ok tm) {q : ℚ}
    (hq : b.remaining = .fin q) :
    (credited r tm b).remaining = snapToZero
      (if hasBehavior r.behavior .resetRemaining then .ofInt b.burst
        else b.balance tm.creditRate tm.createdAt) := by
  obtain ⟨hburst, hchanged, -, hrescale⟩ := h.unchanged htm
  -- the source credits only a leak from the past, which makes no difference
  have hleak : (creditLeak tm b).remaining = b.leaked tm.creditRate tm.createdAt := by
    unfold creditLeak
    split
    · rfl
    · rename_i hle
      rw [leaked_of_le hq (not_lt.mp hle), hq]
  rw [credited_remaining r tm b (leakyTerms_ok htm).2.2.2.2.2.2.2.1, hburst]
  simp only [refill, shiftBurst, rescaleDebt, hchanged, hrescale, Bool.false_eq_true, false_and,
    if_false]
  split
  · rw [hburst, ofInt_eq, min_fin, min_self]
  · rw [hleak]
    rfl

/-- Limit, duration and burst stay as they are. -/
theorem SameTerms.kept (h : SameTerms r b) (htm : leakyTerms host now r b = .ok tm) :
    (Gubernator.credited r tm b).burst = b.burst ∧ (Gubernator.credited r tm b).limit = b.limit ∧
      (Gubernator.credited r tm b).duration = b.duration := by
  obtain ⟨-, hchanged, hconfig, -⟩ := h.unchanged htm
  exact credited_unchanged htm (by simp [hchanged, hconfig])

/-- The balance `q` of `u` when a request at `t` has brought it up to date: leaked at `ρ`
    milliseconds per token, cut off at the burst, snapped, or refilled by a reset. -/
def refreshed (burst : ℤ) (ρ : ℚ) (reset : Bool) (u : ℤ) (q : ℚ) (t : ℤ) : ℚ :=
  if reset then burst else snap (min burst (balanceAt u q ρ t))

/-- **The item brought up to date** under terms that stay as they are, at a rational rate. -/
theorem SameTerms.upToDate (h : SameTerms r b) (htm : leakyTerms host now r b = .ok tm)
    (hl : 0 < r.limit) (hd : 0 < r.duration)
    (hgreg : hasBehavior r.behavior .durationIsGregorian = false) {q : ℚ}
    (hq : b.remaining = .fin q) :
    Gubernator.credited r tm b = { b with
      remaining := .fin (refreshed b.burst (r.duration / r.limit)
        (hasBehavior r.behavior .resetRemaining) b.updatedAt q tm.createdAt)
      updatedAt := max b.updatedAt tm.createdAt } := by
  obtain ⟨-, hrate, hkeep, -, -, -⟩ := usable_terms htm hl hd hgreg
  obtain ⟨-, -, -, hrescale⟩ := h.unchanged htm
  obtain ⟨hburst, hlimit, hduration⟩ := h.kept htm
  have hρ : (0 : ℚ) < r.duration / r.limit := div_pos (by exact_mod_cast hd) (by exact_mod_cast hl)
  have hremaining := h.credited htm hq
  have hcredit : tm.creditRate = .fin (r.duration / r.limit) := by
    simp [LeakyTerms.creditRate, LeakyTerms.rate, hrescale, hkeep, hrate]
  have htime := credited_updatedAt r tm b
  -- one field after the other
  have hfields : ∀ c : LeakyBucketItem, c.limit = b.limit → c.duration = b.duration →
      c.burst = b.burst →
      c = { b with remaining := c.remaining, updatedAt := c.updatedAt } := by
    intro c h1 h2 h3
    rw [← h1, ← h2, ← h3]
  rw [hfields _ hlimit hduration hburst, hremaining, htime]
  unfold refreshed
  split
  · -- a reset refills to the burst, a whole number
    rw [ofInt_eq, snapToZero_fin, snap_int]
  · rw [LeakyBucketItem.balance, LeakyBucketItem.leaked, hcredit, creditedLeak_fin b _ hρ, hq,
      fin_add_fin, ofInt_eq, min_fin, snapToZero_fin]
    rfl

/-- **A query that changes no terms** leaves the expiry alone. -/
theorem SameTerms.query (h : SameTerms r b) (htm : leakyTerms host now r b = .ok tm)
    (hhits : r.hits = 0) (reqState : RateLimitReqState) (x : ℤ) :
    leakyBucketItem host now r reqState b x =
      .ok ⟨leakyStatus host (Gubernator.credited r tm b) tm.createdAt
        (chargeRate tm (Gubernator.credited r tm b)), Gubernator.credited r tm b, x⟩ := by
  obtain ⟨-, hchanged, hconfig, -⟩ := h.unchanged htm
  rw [leakyBucketItem_query hhits htm, deferredExpiry, if_neg (by simp [hchanged, hconfig])]

end Query

end Gubernator
