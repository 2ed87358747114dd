/-
  SLOTS: the times bookings on one key are granted for, in processing order.

  A booking stands for its slot as long as the item owes the debt that gave it (`Honoured.owed`);
  once the debt has cleared, the slot has passed, and every later booking waits at least one
  millisecond more (`Honoured.past`).  A change of limit or duration can end a debt early, by
  restating it as less than `1e-9` tokens.  That is harmless while the balance is current, since
  so small a debt clears within the rate's rounding; it is NOT while `updatedAt` lies ahead of the
  clock, because a client once stamped a request with a time to come.  Then the slot is forgotten.

  The proof follows each slot through the run.  `Honoured` is the invariant of one slot,
  `Honoured.step` says that a request keeps it and books nothing before the slot, and
  `booking_honoured` that a new slot starts out honoured.  The run then has the pairwise order by
  `Machine.history_rule`, whose history is the answers so far. Rounding shows up twice.  A wait is
  rounded up to whole milliseconds, which keeps slots in order; a debt of less than `1e-9` tokens
  counts as paid, which can put a later slot up to `1e-9` rates earlier.  Hence the tolerance `R *
  1e-9` in the result, with `R` a bound for the rates of the run.
-/
import Gubernator.Instance
import Gubernator.Leaky.Debt

namespace Gubernator

open ExactFloat

/-! ## Runs

A slot is the time of the call plus the wait it was told; the times are the owner's, not the
client's. -/

/-- The slot an answer books. -/
def slotOf : Incoming × Except String RateLimitResp → Option ℤ
  | (i, .ok resp) =>
    if resp.status = .scheduled then some (epochMillis i.now + resp.retryAfter) else none
  | (_, .error _) => none

/-- The rate a request that passes validation is charged at on the item it finds. -/
def chargedRate (host : Host) (now : ℤ) (s : Shard) (r : RateLimitReq) : Option ExactFloat :=
  match validateMaxWait r, s.find (epochMillis now) r with
  | "", some (_, .leaky b) =>
    match leakyTerms host now r.withBurst b with
    | .ok tm => some (chargeRate tm (credited r.withBurst tm b))
    | .error _ => none
  | _, _ => none

/-- A rate that is not rational has nothing to be compared with. -/
def rateAtMost (R : ℚ) : Option ExactFloat → Bool
  | some (.fin ρ) => decide (ρ ≤ R)
  | _ => true

/-- The runs slots are about: leaky requests on one key, the clock never going back, no reset, no
    effective burst negative, no rate the NEGATIVE ZERO (its leak is no rational), and `R` no less
    than any rate used. -/
@[mk_iff] structure SlotRun (conf : Config) (host : Host) (key : String) (R : ℚ) (o : Owner)
    (i : Incoming) : Prop where
  clock_le : o.clock ≤ i.now
  sameKey : i.req.hashKey = key
  leaky : i.req.algorithm = .leakyBucket
  noReset : hasBehavior i.req.behavior .resetRemaining = false
  burst_nonneg : 0 ≤ i.req.withBurst.burst
  rational : i.req.limit < 0 → i.req.duration = 0 →
    hasBehavior i.req.behavior .durationIsGregorian = true
  rate_le : rateAtMost R (chargedRate host i.now o.shard i.req) = true

instance (conf : Config) (host : Host) (key : String) (R : ℚ) (o : Owner) (i : Incoming) :
    Decidable (SlotRun conf host key R o i) :=
  decidable_of_iff _ (slotRun_iff conf host key R o i).symm

/-- The request restates a debt as less than `1e-9` tokens while the item's clock is ahead of the
    owner's. -/
def rescaledAhead (o : Owner) (i : Incoming) : Bool :=
  match o.shard.find (epochMillis i.now) i.req with
  | some (_, .leaky b) =>
    decide (epochMillis i.now < b.updatedAt ∧
      Debt b b.remaining.val (rateOf b.limit b.duration).val ∧
      RescaledAway i.req b b.remaining.val (rateOf b.limit b.duration).val)
  | _ => false

/-! ## What a slot stands on

The invariants.  The second alternative of `hslot` is the rule, the first is for the answer that
found a wait of less than a millisecond and was told one. -/

/-- What holds of every copy of the key's item. -/
structure SlotItem (key : String) (item : CacheItem) : Prop where
  key_eq : item.key = key
  valid : item.invalidAt = 0
  balance : ∃ b q, item.value = some (.leaky b) ∧ 0 ≤ b.burst ∧ b.remaining = .fin q

/-- A slot granted before is behind the clock, but for the rounding of rates up to `R`, or the
    item owes a debt that clears no earlier and that it outlives. -/
inductive Honoured (key : String) (R : ℚ) (slot : ℤ) (o : Owner) : Prop
  | past (h : (slot : ℚ) ≤ epochMillis o.clock + 1 + R * epsilon)
  | owed (item : CacheItem) (b : LeakyBucketItem) (q ρ : ℚ)
      (hpeek : o.shard.cache.peek key = some item) (hv : item.value = some (.leaky b))
      (hvalid : item.invalidAt = 0) (hd : Debt b q ρ) (hq : q ≤ -epsilon) (hburst : 0 ≤ b.burst)
      (hR : ρ ≤ R)
      (hslot : slot ≤ epochMillis o.clock + 1 ∨ slot ≤ ⌈clearsAt b.updatedAt q ρ - waitEpsilon⌉)
      (hfull : clearsAt b.updatedAt q ρ + b.burst * ρ ≤ item.expireAt)

/-- A debt that clears by `t`, but for the rounding of its rate, stands for slots behind `t`. -/
theorem slot_past {slot t₀ t : ℤ} {C ρ R : ℚ} (ht : t₀ ≤ t) (hρ : 0 < ρ) (hR : ρ ≤ R)
    (hC : C ≤ t + epsilon * ρ) (hslot : slot ≤ t₀ + 1 ∨ slot ≤ ⌈C - waitEpsilon⌉) :
    (slot : ℚ) ≤ t + 1 + R * epsilon := by
  have hε := epsilon_pos
  have hRε : epsilon * ρ ≤ R * epsilon := by
    rw [mul_comm]
    exact mul_le_mul_of_nonneg_right hR hε.le
  have h0 : 0 < epsilon * ρ := mul_pos hε hρ
  -- the slot was at most a millisecond off when granted, or is the debt's moment rounded up
  rcases hslot with h | h
  · have h1 : (slot : ℚ) ≤ ((t + 1 : ℤ) : ℚ) := by exact_mod_cast h.trans (by omega)
    push_cast at h1
    linarith
  · have h1 : (slot : ℚ) ≤ (⌈C - waitEpsilon⌉ : ℤ) := by exact_mod_cast h
    have h2 := Int.ceil_lt_add_one (C - waitEpsilon)
    have h3 : (0 : ℚ) < waitEpsilon := by norm_num [waitEpsilon]
    linarith

/-- The wait to a moment, counted from the clock, is the moment rounded up. -/
theorem ceil_sub_clock (C : ℚ) (t : ℤ) :
    ⌈C - t - waitEpsilon⌉ = ⌈C - waitEpsilon⌉ - t := by
  rw [show C - t - waitEpsilon = C - waitEpsilon - t by ring, Int.ceil_sub_intCast]

/-! ## A booking -/

/-- A call answers `SCHEDULED` only on an item it found. -/
theorem leakyBucket_scheduled {host : Host} {now : ℤ} {s : Shard} {r : RateLimitReq}
    {reqState : RateLimitReqState} {resp : RateLimitResp}
    (hr : (leakyBucket host now s r reqState).1 = .ok resp) (hs : resp.status = .scheduled) :
    ∃ item b, s.find (epochMillis now) r = some (item, .leaky b) := by
  cases leakyBucket_call host now s r reqState with
  | failed e _ hr' => rw [hr] at hr'; cases hr'
  | worked item b out hfind => exact ⟨item, b, by rw [← find_withBurst]; exact hfind⟩
  | neverFits resp' _ _ _ _ hr' hstatus =>
    obtain rfl := Except.ok.inj (hr.symm.trans hr')
    rw [hstatus] at hs
    cases hs
  | created resp' _ _ _ _ _ _ _ hr' hstatus =>
    obtain rfl := Except.ok.inj (hr.symm.trans hr')
    rw [hs] at hstatus
    split at hstatus <;> cases hstatus

/-! ## Balances stay rational

A debt has to be a number that can be compared.  A balance becomes infinite when the rate is zero,
and the burst caps that; it could only become MINUS infinity through a rate of `-0`, which
`SlotRun.rational` excludes. -/

section Rational
variable {host : Host} {now : ℤ} {r : RateLimitReq} {b : LeakyBucketItem} {tm : LeakyTerms} {q : ℚ}

/-- The leak is credited at the request's rate, or at a stored one that is usable. -/
theorem creditRate_ne_negZero (htm : leakyTerms host now r b = .ok tm)
    (hrate : tm.requestRate ≠ .negZero) : tm.creditRate ≠ .negZero := by
  obtain ⟨-, -, hstored, hkeep, hresc, -⟩ := leakyTerms_ok htm
  have husable : unusableRate (rateOf b.limit b.duration) = false → tm.storedRate ≠ .negZero := by
    intro hu hzero
    obtain ⟨ρ, -, hρ⟩ := usable_iff.mp hu
    rw [hstored, hρ] at hzero
    cases hzero
  unfold LeakyTerms.creditRate LeakyTerms.rate
  split
  · rename_i h
    rw [hresc] at h
    exact husable (by simpa using (Bool.and_eq_true_iff.mp h).2)
  split
  · rename_i h
    rw [hkeep] at h
    exact husable (by simpa using (Bool.and_eq_true_iff.mp h).2)
  · exact hrate

/-- The rate `-0` takes a negative limit and a duration of zero; a calendar duration is positive. -/
theorem requestRate_ne_negZero (htm : leakyTerms host now r b = .ok tm)
    (h : r.limit < 0 → r.duration = 0 →
      hasBehavior r.behavior .durationIsGregorian = true) : tm.requestRate ≠ .negZero := by
  obtain ⟨d, hrate, hlength⟩ := requestTerms_rateOf (leakyTerms_ok htm).1
  rw [hrate, rateOf]
  refine fin_div_fin_ne_negZero (fun hl hd => ?_)
  have hl' : r.limit < 0 := by exact_mod_cast hl
  have hd' : d = 0 := by exact_mod_cast hd
  rcases hlength with ⟨-, hpos⟩ | ⟨hgreg, rfl⟩
  · omega
  · rw [h hl' hd'] at hgreg
    cases hgreg

/-- A rational balance stays rational through the leak and the rescaling, or leaks without
    bound. -/
theorem rescaled_rational (htm : leakyTerms host now r b = .ok tm) (hq : b.remaining = .fin q)
    (hrate : tm.requestRate ≠ .negZero) :
    (∃ y, (rescaleDebt tm (creditLeak tm b)).remaining = .fin y) ∨
      (rescaleDebt tm (creditLeak tm b)).remaining = .inf false := by
  have hleak : (∃ x, (creditLeak tm b).remaining = .fin x) ∨
      (creditLeak tm b).remaining = .inf false := by
    unfold creditLeak
    split
    swap
    · exact .inl ⟨q, hq⟩
    dsimp only
    rw [hq]
    -- the leak is a number, or a positive time divided by a zero rate
    rcases leaked_cases q b tm.createdAt tm.creditRate with h | ⟨s, hs, hdiv, hlt⟩
    · exact .inl h
    · have hpos : (0 : ℚ) < ((tm.createdAt - b.updatedAt : ℤ) : ℚ) := by
        exact_mod_cast (by omega)
      cases s with
      | false => exact .inr hs
      | true => exact absurd hdiv (fin_div_ne_negInf hpos (creditRate_ne_negZero htm hrate))
  unfold rescaleDebt
  split
  swap
  · exact hleak
  rename_i hresc
  rcases hleak with ⟨x, hx⟩ | hinf
  · obtain ⟨p, hp, hratio⟩ := rescale_ratio htm hresc.1
    exact .inl ⟨x * p, by rw [hx, hratio, fin_mul_fin hp]⟩
  · -- only debts are rescaled, and plus infinity is none
    rw [hinf] at hresc
    exact absurd hresc.2 (by decide +kernel)

/-- **The balance a request is charged on is rational.** -/
theorem credited_rational (htm : leakyTerms host now r b = .ok tm) (hq : b.remaining = .fin q)
    (hrate : tm.requestRate ≠ .negZero) : ∃ y, (credited r tm b).remaining = .fin y := by
  rw [credited_remaining r tm b (leakyTerms_ok htm).2.2.2.2.2.2.2.1, ofInt_eq]
  have hrefilled :
      (∃ y, (refill r tm (shiftBurst tm (rescaleDebt tm (creditLeak tm b)))).remaining =
      .fin y) ∨
      (refill r tm (shiftBurst tm (rescaleDebt tm (creditLeak tm b)))).remaining = .inf false := by
    rcases rescaled_rational htm hq hrate with ⟨y, hy⟩ | hinf
    · exact .inl (refilled_fin r tm _ hy)
    · exact refilled_inf r tm _ hinf
  rcases hrefilled with ⟨y, hy⟩ | hinf
  · exact ⟨_, by rw [hy, min_fin, snapToZero_fin]⟩
  · exact ⟨_, by rw [hinf, min_fin_posInf, snapToZero_fin]⟩

/-- What a call leaves of a rational balance is rational. -/
theorem item_rational {reqState : RateLimitReqState} {x : ℤ} {out : LeakyOutcome} {y : ℚ}
    (hout : leakyBucketItem host now r reqState b x = .ok out)
    (htm : leakyTerms host now r b = .ok tm) (hy : (credited r tm b).remaining = .fin y)
    (hyB : y ≤ (credited r tm b).burst) (hvalid : 0 < r.maxWait → 0 ≤ r.hits) :
    ∃ z, out.b.remaining = .fin z := by
  cases leakyBucketItem_charged hout htm hy hyB hvalid with
  | kept hob => exact ⟨y, by rw [hob, hy]⟩
  | drained hob => exact ⟨_, by rw [hob]⟩
  | admitted _ _ hob => exact ⟨_, by rw [hob]⟩
  | refunded _ _ hob => exact ⟨_, by rw [hob]⟩
  | booked _ _ _ _ _ _ _ hob => exact ⟨_, by rw [hob]⟩

end Rational

section Step
variable {conf : Config} {host : Host} {key : String} {R : ℚ} {o : Owner} {i : Incoming}

/-! ## A request of the run

What one request does to a slot.  A slot whose debt is still owed moves with the debt:  every
request that finds the item leaves one that clears no earlier.  A slot whose debt is gone is behind
the clock. -/

/-- What a validated request may combine with `max_wait`. -/
theorem withBurst_valid {r : RateLimitReq} (h : validateMaxWait r = "") :
    0 < r.withBurst.maxWait → 0 ≤ r.withBurst.hits ∧
      hasBehavior r.withBurst.behavior .durationIsGregorian = false := by
  intro hw
  have := validateMaxWait_scheduled h (by simpa using hw)
  exact ⟨by simpa using this.2.2.2.2.2, by simpa using this.2.2.1⟩

/-- The rate a request is charged at is at most `R`. -/
theorem SlotRun.charged_le (hi : SlotRun conf host key R o i) (hvalid : validateMaxWait i.req = "")
    {item : CacheItem} {b : LeakyBucketItem} {tm : LeakyTerms} {ρ : ℚ}
    (hfind : o.shard.find (epochMillis i.now) i.req = some (item, .leaky b))
    (htm : leakyTerms host i.now i.req.withBurst b = .ok tm)
    (hρ : chargeRate tm (credited i.req.withBurst tm b) = .fin ρ) : ρ ≤ R := by
  have := hi.rate_le
  simpa [chargedRate, hvalid, hfind, htm, hρ, rateAtMost] using this

/-- A request in the run charges a rational balance of at most the burst. -/
theorem SlotRun.credited_fin (hi : SlotRun conf host key R o i) {item : CacheItem}
    {b : LeakyBucketItem} {tm : LeakyTerms} (hitem : SlotItem i.req.hashKey item)
    (hfind : o.shard.find (epochMillis i.now) i.req = some (item, .leaky b))
    (htm : leakyTerms host i.now i.req.withBurst b = .ok tm) :
    ∃ y, (credited i.req.withBurst tm b).remaining = .fin y ∧
      y ≤ (credited i.req.withBurst tm b).burst ∧ 0 ≤ (credited i.req.withBurst tm b).burst := by
  obtain ⟨b₁, q, hb₁, hburst, hq⟩ := hitem.balance
  obtain rfl : b₁ = b := Bucket.leaky.inj
    (Option.some.inj (hb₁.symm.trans (Shard.find_key hfind).2.1))
  have hchanged := (leakyTerms_ok htm).2.2.2.2.2.2.2.1
  have htmburst : 0 ≤ tm.burst := terms_burst_nonneg htm hi.burst_nonneg hburst
  obtain ⟨y, hy⟩ := credited_rational htm hq
    (requestRate_ne_negZero htm (by simpa using hi.rational))
  rw [credited_burst _ _ _ hchanged]
  exact ⟨y, hy, credited_le_burst _ _ _ hchanged hy, htmburst⟩

/-- **A new booking is honoured** by the item it leaves, and lies at least a millisecond ahead. -/
theorem booking_honoured (hi : SlotRun conf host key R o i)
    (hitems : o.shard.Holds key (SlotItem key)) {slot : ℤ}
    (hslot : slotOf (i, (o.serve conf host i).1) = some slot) :
    Honoured key R slot (o.serve conf host i).2 ∧ epochMillis i.now + 1 ≤ slot := by
  cases hr : (o.serve conf host i).1 with
  | error e => simp [hr, slotOf] at hslot
  | ok resp =>
    rw [hr] at hslot
    simp only [slotOf, Option.ite_none_right_eq_some, Option.some.injEq] at hslot
    obtain ⟨hs, rfl⟩ := hslot
    rcases serve_leaky conf host o i hi.leaky with ⟨-, msg, hr'⟩ | ⟨hvalid, hshard, hresult⟩
    · obtain rfl := Except.ok.inj (hr.symm.trans hr')
      cases hs
    -- a valid request was scheduled, on an item it found and left in debt
    have hrun := (hresult resp).mp hr
    obtain ⟨item, b, hfind⟩ := leakyBucket_scheduled hrun hs
    obtain ⟨out, hout, rfl, hpeek⟩ := leakyBucket_found hfind hrun
    obtain ⟨tm, htm, -⟩ := leakyBucketItem_ok hout
    have hsame := hi.sameKey
    rw [← hsame] at hitems
    have hinvalid := (hitems.find hfind).valid
    obtain ⟨y, hq, hqB, hburst⟩ := hi.credited_fin (hitems.find hfind) hfind htm
    obtain ⟨ρ, hrate, hd, howed, hB, hwait, -, hfull⟩ :=
      item_booked hout htm hq hqB (withBurst_valid hvalid) hs
    refine ⟨.owed { item with value := some (.leaky out.b), expireAt := out.expireAt } out.b _ ρ ?_
      rfl hinvalid hd howed (by rw [hB]; exact hburst) (hi.charged_le hvalid hfind htm hrate) ?_
      hfull, by omega⟩
    · rw [hshard, ← hsame]
      exact hpeek
    · show epochMillis i.now + out.resp.retryAfter ≤ epochMillis i.now + 1 ∨ _
      rw [hwait, ceil_sub_clock]
      omega

/-- A debt found paid, or rescaled away on a current balance, has cleared but for rounding. -/
theorem SlotRun.cleared (hi : SlotRun conf host key R o i) (hahead : rescaledAhead o i = false)
    (hvalid : validateMaxWait i.req = "") {item : CacheItem} {b : LeakyBucketItem}
    {tm : LeakyTerms} {q ρ : ℚ} (hd : Debt b q ρ) (hq : q ≤ -epsilon) (hR : ρ ≤ R)
    (hfind : o.shard.find (epochMillis i.now) i.req = some (item, .leaky b))
    (htm : leakyTerms host i.now i.req.withBurst b = .ok tm)
    (h : -epsilon < balanceAt b.updatedAt q ρ (epochMillis i.now) ∨
      RescaledAway i.req b (balanceAt b.updatedAt q ρ (epochMillis i.now)) ρ) :
    ∃ ρ', 0 < ρ' ∧ ρ' ≤ R ∧ clearsAt b.updatedAt q ρ ≤ epochMillis i.now + epsilon * ρ' := by
  set t := epochMillis i.now with ht
  set q₁ := balanceAt b.updatedAt q ρ t with hq₁
  have hε := epsilon_pos
  -- the item's clock is not ahead: a debt of `1e-9` or more is not paid before it starts to leak
  have hcurrent : b.updatedAt ≤ t := by
    by_contra hlt
    have hq₁q : q₁ = q := by
      rw [hq₁, balanceAt, max_eq_left (not_le.mp hlt).le, sub_self, zero_div, add_zero]
    rw [hq₁q] at h
    rcases h with hpaid | haway
    · linarith
    · have := hahead
      simp only [rescaledAhead, ← ht, hfind, decide_eq_false_iff_not] at this
      rw [hd.balance, hd.rate] at this
      exact this ⟨not_le.mp hlt, hd, haway⟩
  have hC : clearsAt b.updatedAt q ρ = t - q₁ * ρ := by
    rw [clearsAt, ← balanceAt_clears b.updatedAt q hd.rate_pos t, max_eq_right hcurrent]
  -- paid: at its own rate, less than `1e-9` tokens are missing
  by_cases hpaid : -epsilon < q₁
  · refine ⟨ρ, hd.rate_pos, hR, ?_⟩
    have := mul_le_mul_of_nonneg_right hpaid.le hd.rate_pos.le
    rw [hC]
    linarith
  · -- rescaled away: less than `1e-9` tokens are missing at the request's rate, which is then
    -- charged
    obtain ⟨hgreg, hl, hdur, hconfig, hsmall⟩ := h.resolve_left hpaid
    have hρr : (0 : ℚ) < i.req.duration / i.req.limit :=
      div_pos (by exact_mod_cast hdur) (by exact_mod_cast hl)
    have husable : requestUsable i.req.withBurst = true :=
      requestUsable_iff.mpr ⟨by simpa using hl, by simpa using hdur⟩
    have hkeep : tm.keepStored = false := by
      rw [hd.keepStored htm, husable, withBurst_behavior, hgreg]
      rfl
    have hrate : chargeRate tm (credited i.req.withBurst tm b) =
        .fin (i.req.duration / i.req.limit) := by
      rcases credited_config i.req.withBurst tm b with ⟨-, -, -, hcharge⟩ | ⟨hk, -⟩
      · have hterms := (leakyTerms_ok htm).1
        rw [requestTerms_plain (by simpa using hgreg), withBurst_limit, withBurst_duration,
          rateOf_pos _ hl] at hterms
        rw [hcharge, ← (Prod.mk.inj (Except.ok.inj hterms)).1]
      · rw [hkeep] at hk
        cases hk
    refine ⟨_, hρr, hi.charged_le hvalid hfind htm hrate, ?_⟩
    have := (abs_lt.mp hsmall).1
    rw [mul_div_assoc', lt_div_iff₀ hρr] at this
    rw [hC]
    linarith

/-- **Step.**  A slot stays honoured, and no answer books one before it, but for rounding. -/
theorem Honoured.step {slot : ℤ} (h : Honoured key R slot o) (hi : SlotRun conf host key R o i)
    (hitems : o.shard.Holds key (SlotItem key)) (hahead : rescaledAhead o i = false) :
    Honoured key R slot (o.serve conf host i).2 ∧
      ∀ next, slotOf (i, (o.serve conf host i).1) = some next →
        (slot : ℚ) - R * epsilon ≤ next := by
  have hclock : epochMillis o.clock ≤ epochMillis i.now := epochMillis_mono hi.clock_le
  have hclock' : (epochMillis o.clock : ℚ) ≤ epochMillis i.now := by exact_mod_cast hclock
  -- a slot behind the clock: every booking waits at least a millisecond
  have hdone : (slot : ℚ) ≤ epochMillis i.now + 1 + R * epsilon →
      Honoured key R slot (o.serve conf host i).2 ∧ ∀ next,
        slotOf (i, (o.serve conf host i).1) = some next → (slot : ℚ) - R * epsilon ≤ next := by
    intro hpast
    refine ⟨.past hpast, fun next hnext => ?_⟩
    have hge : ((epochMillis i.now + 1 : ℤ) : ℚ) ≤ next := by
      exact_mod_cast (booking_honoured hi hitems hnext).2
    push_cast at hge
    linarith
  cases h with
  | past h => exact hdone (by linarith)
  | owed item b q ρ hpeek hv hinvalid hd hq hburst hR hslot hfull =>
    have hburst' : (0 : ℚ) ≤ b.burst := by exact_mod_cast hburst
    have hRε : 0 ≤ R * epsilon := mul_nonneg (hd.rate_pos.le.trans hR) epsilon_pos.le
    have hslot' : slot ≤ epochMillis i.now + 1 ∨
        slot ≤ ⌈clearsAt b.updatedAt q ρ - waitEpsilon⌉ := hslot.imp_left (fun h => by omega)
    have hkeep : (o.serve conf host i).2.shard.cache.peek key = some item →
        Honoured key R slot (o.serve conf host i).2 := fun hp =>
      .owed item b q ρ hp hv hinvalid hd hq hburst hR hslot' hfull
    -- a request that fails validation touches no item
    rcases serve_leaky conf host o i hi.leaky with ⟨hs, msg, hr⟩ | ⟨hvalid, hs, hresult⟩
    · refine ⟨hkeep (by rw [hs, hpeek]), fun next hnext => ?_⟩
      rw [hr] at hnext
      simp [slotOf] at hnext
    rw [← hi.sameKey] at hpeek
    by_cases hx : item.isExpired (epochMillis i.now) = true
    · -- the item outlived its debt, so its expiry is behind the debt
      have hexpired : item.expireAt < epochMillis i.now := by
        simpa [CacheItem.isExpired, hinvalid] using hx
      have hexpired' : (item.expireAt : ℚ) < epochMillis i.now := by exact_mod_cast hexpired
      refine hdone (slot_past le_rfl hd.rate_pos hR ?_ hslot')
      have := mul_nonneg hburst' hd.rate_pos.le
      have := mul_pos epsilon_pos hd.rate_pos
      linarith
    have hfind := Shard.find_of_fresh (r := i.req) hpeek (by simpa using hx) hv
    -- the item is found; a request that fails now leaves it as it was
    cases hr : (leakyBucket host i.now o.shard i.req conf.ownerState).1 with
    | error e =>
      refine ⟨hkeep ?_, fun next hnext => ?_⟩
      · rw [hs, leakyBucket_found_error hfind hr, ← hi.sameKey]
        exact Shard.peek_lookup (Shard.find_key hfind).1 (Shard.find_key hfind).2.2
      · cases hr' : (o.serve conf host i).1 with
        | error e' => simp [hr', slotOf] at hnext
        | ok resp =>
          rw [(hresult resp).mp hr'] at hr
          cases hr
    | ok resp =>
      have hserve := (hresult resp).mpr hr
      obtain ⟨out, hout, rfl, hpeek'⟩ := leakyBucket_found hfind hr
      obtain ⟨tm, htm, -⟩ := leakyBucketItem_ok hout
      -- is there still a debt of `1e-9` tokens or more?
      by_cases hgone : -epsilon < balanceAt b.updatedAt q ρ (epochMillis i.now) ∨
          RescaledAway i.req b (balanceAt b.updatedAt q ρ (epochMillis i.now)) ρ
      · obtain ⟨ρ', hρ', hR', hC⟩ := hi.cleared hahead hvalid hd hq hR hfind htm hgone
        exact hdone (slot_past le_rfl hρ' hR' hC hslot')
      rw [not_or, not_lt] at hgone
      obtain ⟨tm₁, q', ρ', htm₁, hrate, howing⟩ := hd.item_owed hburst hout
        (fun h => (withBurst_valid hvalid h).1) (by simpa using hi.noReset) hgone.1
        (by simpa [RescaledAway] using hgone.2)
      obtain rfl := Except.ok.inj (htm.symm.trans htm₁)
      -- the clearing moment has not come nearer
      have hlater : clearsAt b.updatedAt q ρ ≤ clearsAt out.b.updatedAt q' ρ' := by
        rcases howing.moment with ⟨-, hC⟩ | ⟨-, hhits, hC, -⟩
        · exact hC.ge
        · have : (0 : ℚ) ≤ i.req.withBurst.hits := by exact_mod_cast hhits.le
          rw [hC]
          linarith [mul_nonneg this howing.debt.rate_pos.le]
      have hslot'' : slot ≤ epochMillis i.now + 1 ∨
          slot ≤ ⌈clearsAt out.b.updatedAt q' ρ' - waitEpsilon⌉ :=
        hslot'.imp_right (fun h => h.trans (Int.ceil_le_ceil (by linarith)))
      refine ⟨.owed { item with value := some (.leaky out.b), expireAt := out.expireAt } out.b q' ρ'
        ?_ rfl hinvalid howing.debt howing.owed howing.burst_nonneg
        (hi.charged_le hvalid hfind htm hrate) hslot'' (howing.outlived hfull),
          fun next hnext => ?_⟩
      · rw [hs, ← hi.sameKey]
        exact hpeek'
      · rw [hserve] at hnext
        simp only [slotOf, Option.ite_none_right_eq_some, Option.some.injEq] at hnext
        obtain ⟨hsched, rfl⟩ := hnext
        rcases howing.moment with ⟨hne, -⟩ | ⟨-, -, -, hw, -⟩
        · exact absurd hsched hne
        · -- a booking now is for the moment the debt it leaves clears
          have hle : slot ≤ epochMillis i.now + out.resp.retryAfter := by
            rw [hw, ceil_sub_clock]
            omega
          have : (slot : ℚ) ≤ ((epochMillis i.now + out.resp.retryAfter : ℤ) : ℚ) := by
            exact_mod_cast hle
          linarith

/-- Every copy of the item keeps a rational balance and a burst that is not negative. -/
theorem serve_slotItem (hi : SlotRun conf host key R o i)
    (h : o.shard.Holds key (SlotItem key)) :
    (o.serve conf host i).2.shard.Holds key (SlotItem key) := by
  rcases serve_leaky conf host o i hi.leaky with ⟨hs, -⟩ | ⟨hvalid, hs, -⟩
  · rw [hs]
    exact h
  have hsame := hi.sameKey
  rw [hs]
  rw [← hsame] at h ⊢
  refine leakyBucket_holds h (fun item hP => hP.key_eq) (fun item hP => hP) ?_ ?_
  · intro item b out hitem hfind hout hr
    obtain ⟨tm, htm, hdeferred⟩ := leakyBucketItem_ok hout
    obtain ⟨y, hy, hyB, hburst⟩ := hi.credited_fin hitem hfind htm
    obtain ⟨z, hz⟩ := item_rational hout htm hy hyB (fun hw => (withBurst_valid hvalid hw).1)
    refine ⟨hitem.key_eq, hitem.valid, out.b, z, rfl, ?_, hz⟩
    rw [hdeferred, (deferredExpiry_fields ..).2.1, charge_b]
    exact hburst
  · -- a new item starts with the whole tokens of its burst, or none
    intro createdAt duration _ _
    exact ⟨withBurst_hashKey i.req, rfl, _, _, rfl, hi.burst_nonneg, rfl⟩

end Step

/-! ## The run

The order, for every run, and the run that breaks it. -/

/-- **Booked slots follow processing order** in a run that never rescales a debt away while the
    item's clock is ahead. -/
theorem slots_in_order (conf : Config) (host : Host) (key : String) (R : ℚ) (o : Owner)
    (run : List Incoming) (hc : o.shard.cache.peek key = none) (hs : o.shard.stored key = none)
    (hrun : Machine.Guarded (Owner.serve conf host)
      (fun o i => SlotRun conf host key R o i ∧ rescaledAhead o i = false) o run) :
    ((Machine.events (Owner.serve conf host) o run).filterMap slotOf).Pairwise
      (fun first next : ℤ => (first : ℚ) - R * (1 / 10 ^ 9) ≤ next) := by
  have hε : (1 / 10 ^ 9 : ℚ) = epsilon := by norm_num [epsilon]
  rw [hε]
  refine (Machine.history_rule (P := fun h o => o.shard.Holds key (SlotItem key) ∧
    (h.filterMap slotOf).Pairwise (fun first next : ℤ => (first : ℚ) - R * epsilon ≤ next) ∧
    ∀ slot ∈ h.filterMap slotOf, Honoured key R slot o) ?_ hrun
    ⟨Shard.holds_of_absent hc hs, List.Pairwise.nil, by simp⟩).2.1
  rintro h o i ⟨hi, hahead⟩ ⟨hitems, hpair, hhonoured⟩
  refine ⟨serve_slotItem hi hitems, ?_, ?_⟩
  · rw [List.filterMap_append, List.pairwise_append]
    refine ⟨hpair, ?_, fun slot hslot next hnext => ?_⟩
    · cases hnext : slotOf (i, (o.serve conf host i).1) <;> simp [hnext]
    · exact ((hhonoured slot hslot).step hi hitems hahead).2 next (by simpa using hnext)
  · intro slot hslot
    rw [List.filterMap_append, List.mem_append] at hslot
    rcases hslot with hold | hnew
    · exact ((hhonoured slot hold).step hi hitems hahead).1
    · exact (booking_honoured hi hitems (by simpa using hnew)).1

/-- A booking on a key a client stamped 100 s ahead; the duration raised for one query, so that the
    debt of a token at a thousand a millisecond is `5e-10` tokens, and put back; a second
    booking. -/
def forgottenSlotRun : List Incoming :=
  [⟨1000000000000, .sample 1 1000 1 1 1100000 0⟩,
    ⟨1000000000000, .sample 1 1000 1 1 1000000 1000000⟩,
    ⟨1000000000000, .sample 0 1 2000000 1 1000000 0⟩, ⟨1000000000000, .sample 1 1 1 1 1000000 0⟩,
    ⟨1000002000000, .sample 1 1 1000 1 1000002 0⟩,
    ⟨1000002000000, .sample 1 1 1000 1 1000002 1000000⟩]

/-- The second booking gets a slot 98.999 s before the first one's. -/
theorem slot_forgotten :
    Machine.Guarded (Owner.serve ⟨300000000000⟩ .amd64)
      (SlotRun ⟨300000000000⟩ .amd64 "requests_account:1" 2000000) ⟨0, .ofItems []⟩
      forgottenSlotRun ∧
    (Machine.events (Owner.serve ⟨300000000000⟩ .amd64) ⟨0, .ofItems []⟩
      forgottenSlotRun).filterMap slotOf = [1100001, 1001002] ∧
    ¬ ((Machine.events (Owner.serve ⟨300000000000⟩ .amd64) ⟨0, .ofItems []⟩
      forgottenSlotRun).filterMap slotOf).Pairwise
        (fun first next : ℤ => (first : ℚ) - 2000000 * (1 / 10 ^ 9) ≤ next) :=
  ⟨by decide +kernel, by decide +kernel, by decide +kernel⟩

/-- Two bookings in a row, one second apart. -/
def queuedRun : List Incoming :=
  [⟨5000000000, .sample 1 1 1000 1 5000 0⟩, ⟨5000000000, .sample 1 1 1000 1 5000 3000⟩,
    ⟨5500000000, .sample 1 1 1000 1 5500 3000⟩]

/-- The run that books twice, with slots a second apart. -/
theorem slots_in_order_queuedRun :
    (Machine.events (Owner.serve ⟨300000000000⟩ .amd64) ⟨0, .ofItems []⟩ queuedRun).filterMap
      slotOf = [6000, 7000] ∧
    ((Machine.events (Owner.serve ⟨300000000000⟩ .amd64) ⟨0, .ofItems []⟩ queuedRun).filterMap
      slotOf).Pairwise (fun first next : ℤ => (first : ℚ) - 1000 * (1 / 10 ^ 9) ≤ next) :=
  ⟨by decide +kernel,
    slots_in_order ⟨300000000000⟩ .amd64 "requests_account:1" 1000
      ⟨0, .ofItems []⟩ queuedRun rfl rfl
      (by decide +kernel)⟩

end Gubernator
