/-
  OPTING IN to `max_wait`.

  A request for hits is decided in two places: the plain branch of `leakyBucket`, and
  `scheduleHits` for one that may wait.  Both work on the same credited bucket, because a request
  stamped with the owner's clock is timed the same either way.  So:

  1. whoever has enough is let in by either, with the same answer and the same bucket — the clamp
     to the burst that only the plain branch has, and the cut at zero that only `scheduleHits` has,
     are both idle there;
  2. whoever has to wait is told a wait that does not depend on how long it would wait;
  3. that wait is the LEAST: the bucket holds the hits when it is over (up to the `1e-6` ms that
     are taken off before rounding up) and a millisecond earlier it does not.

  The first two are read off `charge`: on a balance that is short, the answer of `scheduleHits`
  depends on `max_wait` only through the comparison with the wait itself.  The third is about the
  line the balance follows, which `wait_bounds` states without a bucket.
-/
import Gubernator.Charges
import Gubernator.Leaky.Slots

namespace Gubernator

open ExactFloat

/-! ## The same request with another wait

Everything that is compared below is one request `r` under several values of `max_wait`: `r.waiting
0` is the plain request and `r.waiting m` the one that may wait. -/

/-- The request with `max_wait` set to `m`. -/
def RateLimitReq.waiting (r : RateLimitReq) (m : ℤ) : RateLimitReq := { r with maxWait := m }

/-- The status of an answer, if there is one. -/
def statusOf : Except String RateLimitResp → Option Status
  | .ok resp => some resp.status
  | .error _ => none

/-- The default burst is filled in whatever the wait is. -/
theorem withBurst_waiting (r : RateLimitReq) (m : ℤ) :
    (r.waiting m).withBurst = r.withBurst.waiting m := by
  by_cases h : r.burst = 0
  · have h' : (r.waiting m).burst = 0 := h
    rw [RateLimitReq.withBurst, RateLimitReq.withBurst, if_pos h, if_pos h']
    rfl
  · have h' : (r.waiting m).burst ≠ 0 := h
    rw [RateLimitReq.withBurst, RateLimitReq.withBurst, if_neg h, if_neg h']

/-- A request stamped with the owner's clock is timed by it, whether it waits or not. -/
theorem leakyTerms_waiting (host : Host) {now : ℤ} {r : RateLimitReq} (b : LeakyBucketItem)
    (hcreated : r.createdAt = epochMillis now) (m : ℤ) :
    leakyTerms host now (r.waiting m) b = leakyTerms host now r b := by
  -- both clocks the terms may be taken at are the owner's
  have htime : ∀ wait : ℤ, (if 0 < wait ∨ b.remaining < 0 then epochMillis now
      else (r.waiting m).createdAt) = epochMillis now := by
    intro wait
    show (if _ then _ else r.createdAt) = _
    rw [hcreated, ite_self]
  have htime' : (if 0 < r.maxWait ∨ b.remaining < 0 then epochMillis now else r.createdAt) =
      epochMillis now := by
    rw [hcreated, ite_self]
  unfold leakyTerms
  dsimp only
  rw [htime, htime']
  rfl

section Charge
variable {host : Host} {x : ℤ} {b : LeakyBucketItem} {r : RateLimitReq}
  {reqState : RateLimitReqState} {tm : LeakyTerms} {rate : ExactFloat} {m m' : ℤ}

/-- Hits that may wait are decided by `scheduleHits`. -/
theorem charge_waiting (hhits : 0 < r.hits) (hm : 0 < m) :
    charge host x b (r.waiting m) reqState tm rate =
      scheduleHits host x b (r.waiting m) reqState (leakyStatus host b tm.createdAt rate)
        tm.createdAt tm.duration rate tm.wasInDebt := by
  have hne : (r.waiting m).hits ≠ 0 := hhits.ne'
  have hwait : 0 < (r.waiting m).maxWait := hm
  unfold charge
  rw [if_neg hne, if_pos hwait]

/-- **Enough tokens**: waiting or not, the hits are let in alike. -/
theorem charge_of_enough (x : ℤ) (reqState : RateLimitReqState) (tm : LeakyTerms) {y : ℚ}
    (hy : b.remaining = .fin y) (hburst : y ≤ b.burst)
    (hhits : 0 < r.hits) (hrate : unusableRate rate = false) (hm : 0 < m)
    (henough : r.hits ≤ wholeTokens host b.remaining) :
    charge host x b (r.waiting m) reqState tm rate =
        charge host x b (r.waiting 0) reqState tm rate ∧
      (charge host x b (r.waiting 0) reqState tm rate).resp.status = .underLimit := by
  have hpos : (0 : ℚ) < r.hits := by exact_mod_cast hhits
  have hcovers : (r.hits : ℚ) ≤ y + epsilon := (le_wholeTokens hhits).mp (hy ▸ henough)
  -- the balance is at most the burst, so neither the refusal nor the clamp is reached
  have hfits : r.hits ≤ b.burst := by
    have hε : epsilon < 1 := by norm_num [epsilon]
    have : (r.hits : ℚ) < ((b.burst + 1 : ℤ) : ℚ) := by push_cast; linarith
    exact Int.lt_add_one_iff.mp (by exact_mod_cast this)
  have hclamp : ExactFloat.min (.ofInt b.burst) (b.remaining - .ofInt r.hits) =
      b.remaining - .ofInt r.hits := by
    rw [hy, ofInt_eq, ofInt_eq, fin_sub_fin, min_fin, min_eq_right (by linarith)]
  -- nothing is below zero after an admission, so the cut at zero is idle
  have hleft : spendableTokens host (snapToZero (b.remaining - .ofInt r.hits)) =
      wholeTokens host (snapToZero (b.remaining - .ofInt r.hits)) := by
    refine max_eq_right ?_
    rw [← hclamp]
    exact admitted_remaining_nonneg host (.inl ⟨y, hy, hburst⟩) hhits.ne'
      (fun h => absurd h.1 (by omega)) henough
  -- the two outcomes, written out: they differ in `spendableTokens` alone
  have hsched : charge host x b (r.waiting m) reqState tm rate =
      ⟨{ leakyStatus host b tm.createdAt rate with
          remaining := spendableTokens host (snapToZero (b.remaining - .ofInt r.hits))
          resetTime := tm.createdAt + ((leakyStatus host b tm.createdAt rate).limit -
            spendableTokens host (snapToZero (b.remaining - .ofInt r.hits))) * host.int64 rate },
        { b with remaining := snapToZero (b.remaining - .ofInt r.hits) },
        if tm.wasInDebt then extendDebtExpiry host x
          { b with remaining := snapToZero (b.remaining - .ofInt r.hits) } tm.createdAt tm.duration
          rate else x⟩ := by
    have hnever : ¬ (b.burst < (r.waiting m).hits ∨ unusableRate rate = true) := by
      rintro (h | h)
      · exact absurd h (not_lt.mpr hfits)
      · rw [hrate] at h
        cases h
    have henough' : (r.waiting m).hits ≤ wholeTokens host b.remaining := henough
    rw [charge_waiting hhits hm]
    unfold scheduleHits
    rw [if_neg hnever, if_pos henough']
    rfl
  have hplain : charge host x b (r.waiting 0) reqState tm rate =
      ⟨{ leakyStatus host b tm.createdAt rate with
          remaining := wholeTokens host (snapToZero (b.remaining - .ofInt r.hits))
          resetTime := tm.createdAt + ((leakyStatus host b tm.createdAt rate).limit -
            wholeTokens host (snapToZero (b.remaining - .ofInt r.hits))) * host.int64 rate },
        { b with remaining := snapToZero (b.remaining - .ofInt r.hits) },
        if tm.wasInDebt then extendDebtExpiry host x
          { b with remaining := snapToZero (b.remaining - .ofInt r.hits) } tm.createdAt tm.duration
          rate else x⟩ := by
    unfold charge
    simp only [RateLimitReq.waiting, lt_self_iff_false, if_false, hclamp]
    rw [if_neg (by omega), if_neg (by omega), if_neg (by omega)]
  rw [hsched, hplain, hleft]
  exact ⟨rfl, rfl⟩

/-- **Too few tokens**: neither is let in now. -/
theorem charge_of_short (hhits : 0 < r.hits) (hm : 0 < m)
    (hshort : wholeTokens host b.remaining < r.hits) :
    (charge host x b (r.waiting 0) reqState tm rate).resp.status ≠ .underLimit ∧
      (charge host x b (r.waiting m) reqState tm rate).resp.status ≠ .underLimit := by
  constructor
  · -- without a wait: refused, drained or not
    have hne : (r.waiting 0).hits ≠ 0 := hhits.ne'
    have hwait : ¬ 0 < (r.waiting 0).maxWait := lt_irrefl 0
    have hrefund : ¬ ((r.waiting 0).hits < 0 ∧ b.remaining < 0) := fun h => absurd h.1 hhits.not_gt
    have hshort' : wholeTokens host b.remaining < (r.waiting 0).hits := hshort
    unfold charge
    dsimp only
    rw [if_neg hne, if_neg hwait, if_neg hrefund, if_pos hshort']
    split <;> simp
  · -- with one: never fits, too long, or booked
    rw [charge_waiting hhits hm]
    unfold scheduleHits
    split
    · simp
    split
    · rename_i henough
      exact absurd henough (not_le.mpr hshort)
    dsimp only
    split <;> simp

/-- A request that is booked is booked alike if it would have waited longer. -/
theorem charge_of_scheduled (hhits : 0 < r.hits) (hm : 0 < m) (hmm' : m ≤ m')
    (hstatus : (charge host x b (r.waiting m) reqState tm rate).resp.status = .scheduled) :
    charge host x b (r.waiting m') reqState tm rate =
      charge host x b (r.waiting m) reqState tm rate := by
  rw [charge_waiting hhits hm] at hstatus ⊢
  rw [charge_waiting hhits (lt_of_lt_of_le hm hmm')]
  unfold scheduleHits at hstatus ⊢
  dsimp only at hstatus ⊢
  -- the ways of `scheduleHits` that do not book are excluded by the status
  split at hstatus
  · cases hstatus
  rename_i hfits
  split at hstatus
  · cases hstatus
  rename_i hshort
  split at hstatus
  · cases hstatus
  rename_i hwait
  -- the wait is within the longer patience, too
  have hwait' : ¬ min (r.waiting m').maxWait reqState.ceiling <
      waitFor host b (r.waiting m').hits tm.createdAt rate := by
    change ¬ min m reqState.ceiling < waitFor host b r.hits tm.createdAt rate at hwait
    show ¬ min m' reqState.ceiling < waitFor host b r.hits tm.createdAt rate
    omega
  rw [if_neg hfits, if_neg hshort, if_neg hwait]
  exact (if_neg hfits).trans ((if_neg hshort).trans (if_neg hwait'))

end Charge

/-! ## A call

`Punctual` collects what makes the two requests comparable.  Without the owner's stamp they would
not be: a plain request is timed by its own `created_at`, one that may wait by the owner's clock. -/

/-- A request for hits of a usable config, stamped with the owner's clock. -/
structure Punctual (now : ℤ) (r : RateLimitReq) : Prop where
  hits : 0 < r.hits
  limit : 0 < r.limit
  duration : 0 < r.duration
  created : r.createdAt = epochMillis now
  noGregorian : hasBehavior r.behavior .durationIsGregorian = false

/-- It is about nothing that the default burst changes. -/
theorem Punctual.withBurst {now : ℤ} {r : RateLimitReq} (h : Punctual now r) :
    Punctual now r.withBurst where
  hits := by simpa using h.hits
  limit := by simpa using h.limit
  duration := by simpa using h.duration
  created := by simpa using h.created
  noGregorian := by simpa using h.noGregorian

section Call
variable {host : Host} {now : ℤ} {s : Shard} {r : RateLimitReq} {reqState : RateLimitReqState}
  {b : LeakyBucketItem} {x m m' : ℤ} {q : ℚ}

/-- What a request with any wait makes of a found item. -/
theorem leakyBucketItem_waiting (hr : Punctual now r) {tm : LeakyTerms}
    (htm : leakyTerms host now r b = .ok tm) (m : ℤ) :
    leakyBucketItem host now (r.waiting m) reqState b x =
      .ok (deferredExpiry host tm (chargeRate tm (credited r tm b))
        (charge host (touchedExpiry r tm x) (credited r tm b) (r.waiting m) reqState tm
          (chargeRate tm (credited r tm b)))) := by
  unfold leakyBucketItem
  rw [leakyTerms_waiting host b hr.created, htm]
  rfl

/-- The terms of a usable request, and the rational balance it is charged on. -/
theorem Punctual.charged (host : Host) (hr : Punctual now r) (hq : b.remaining = .fin q) :
    ∃ tm y, leakyTerms host now r b = .ok tm ∧ tm.createdAt = epochMillis now ∧
      (credited r tm b).remaining = .fin y ∧ y ≤ (credited r tm b).burst ∧
      chargeRate tm (credited r tm b) = .fin (r.duration / r.limit) ∧
      (0 : ℚ) < r.duration / r.limit := by
  obtain ⟨tm, htm⟩ : ∃ tm, leakyTerms host now r b = .ok tm := by
    simp only [leakyTerms, requestTerms_plain hr.noGregorian]
    exact ⟨_, rfl⟩
  obtain ⟨-, hrate, -, -, -, hcharge⟩ := usable_terms htm hr.limit hr.duration hr.noGregorian
  obtain ⟨-, htime, -, -, -, -, -, hchanged, -⟩ := leakyTerms_ok htm
  obtain ⟨y, hy⟩ := credited_rational htm hq (by rw [hrate]; simp)
  refine ⟨tm, y, htm, ?_, hy, ?_, hcharge, ?_⟩
  · rw [htime, hr.created, ite_self]
  · rw [credited_burst r tm b hchanged]
    exact credited_le_burst r tm b hchanged hy
  · exact div_pos (by exact_mod_cast hr.duration) (by exact_mod_cast hr.limit)

/-- The two ways a request can go, with and without a wait. -/
def SameIfUnder (waiting plain : Except String RateLimitResp × Shard) : Prop :=
  (waiting = plain ∧ statusOf plain.1 = some .underLimit) ∨
    (statusOf plain.1 ≠ some .underLimit ∧ statusOf waiting.1 ≠ some .underLimit)

/-- On a key without an item: a request larger than the burst is refused either way, any other
    creates the same bucket. -/
theorem leakyBucketNewItem_waiting (hr : Punctual now r) (hm : 0 < m) :
    SameIfUnder (leakyBucketNewItem host now s (r.waiting m) reqState)
      (leakyBucketNewItem host now s (r.waiting 0) reqState) := by
  unfold leakyBucketNewItem
  simp only [RateLimitReq.waiting, hr.noGregorian, hr.created, ite_self, Bool.false_eq_true,
    if_false, hm, lt_self_iff_false, false_and, true_and]
  by_cases hlarge : r.burst < r.hits
  · -- refused by the one for ever and by the other for now
    right
    simp [hlarge, statusOf]
  · left
    simp only [hlarge, if_false, decide_false, Bool.false_eq_true, statusOf, and_true]
    rfl

/-- On an item found: both are let in and leave the same, or neither is let in. -/
theorem leakyBucketItem_underLimit (host : Host) (reqState : RateLimitReqState) (x : ℤ)
    (hr : Punctual now r) (hq : b.remaining = .fin q) (hm : 0 < m) :
    ∃ out out', leakyBucketItem host now (r.waiting 0) reqState b x = .ok out ∧
      leakyBucketItem host now (r.waiting m) reqState b x = .ok out' ∧
      (out' = out ∧ out.resp.status = .underLimit ∨
        out.resp.status ≠ .underLimit ∧ out'.resp.status ≠ .underLimit) := by
  obtain ⟨tm, y, htm, -, hy, hburst, hrate, hρ⟩ := hr.charged host hq
  refine ⟨_, _, leakyBucketItem_waiting hr htm 0, leakyBucketItem_waiting hr htm m, ?_⟩
  rw [(deferredExpiry_fields _ _ _ _).1, (deferredExpiry_fields _ _ _ _).1]
  -- the same whole tokens decide with a wait and without
  rcases le_or_gt r.hits (wholeTokens host (credited r tm b).remaining) with henough | hshort
  · obtain ⟨heq, hstatus⟩ := charge_of_enough (touchedExpiry r tm x) reqState tm hy hburst
      hr.hits (hrate ▸ unusableRate_fin hρ) hm henough
    exact .inl ⟨by rw [heq], hstatus⟩
  · exact .inr (charge_of_short hr.hits hm hshort)

/-- What is booked on an item found is booked alike under a longer wait. -/
theorem leakyBucketItem_scheduled (hr : Punctual now r) (hq : b.remaining = .fin q) (hm : 0 < m)
    (hmm' : m ≤ m') {out : LeakyOutcome}
    (hout : leakyBucketItem host now (r.waiting m) reqState b x = .ok out)
    (hstatus : out.resp.status = .scheduled) :
    leakyBucketItem host now (r.waiting m') reqState b x = .ok out := by
  obtain ⟨tm, -, htm, -⟩ := hr.charged host hq
  rw [leakyBucketItem_waiting hr htm] at hout ⊢
  obtain rfl := Except.ok.inj hout
  rw [(deferredExpiry_fields _ _ _ _).1] at hstatus
  rw [charge_of_scheduled hr.hits hm hmm' hstatus]

/-- What a call finds does not depend on the wait. -/
theorem leakyBucketBurst_waiting (host : Host) (now : ℤ) (s : Shard) (r : RateLimitReq)
    (reqState : RateLimitReqState) (m : ℤ) :
    leakyBucketBurst host now s (r.waiting m) reqState =
      match s.find (epochMillis now) r with
      | none => leakyBucketNewItem host now (s.lookup (epochMillis now) r).2 (r.waiting m) reqState
      | some (_, .token _) => leakyBucketNewItem host now
          ((s.lookup (epochMillis now) r).2.remove r.hashKey) (r.waiting m) reqState
      | some (item, .leaky b) =>
        match leakyBucketItem host now (r.waiting m) reqState b item.expireAt with
        | .error e => (.error e, (s.lookup (epochMillis now) r).2)
        | .ok out =>
          (.ok out.resp, (s.lookup (epochMillis now) r).2.update reqState.isOwner
            { item with value := some (.leaky out.b), expireAt := out.expireAt }) := rfl

/-- The three things a call can find, put together. -/
theorem leakyBucketBurst_underLimit (host : Host) (reqState : RateLimitReqState)
    (hr : Punctual now r) (hm : 0 < m)
    (hstate : ∀ item b, s.find (epochMillis now) r = some (item, .leaky b) →
      ∃ q, b.remaining = .fin q) :
    SameIfUnder (leakyBucketBurst host now s (r.waiting m) reqState)
      (leakyBucketBurst host now s (r.waiting 0) reqState) := by
  rw [leakyBucketBurst_waiting, leakyBucketBurst_waiting]
  -- nothing, a token bucket, which is removed, or a leaky bucket
  rcases hfind : s.find (epochMillis now) r with _ | ⟨item, t | b⟩
  · exact leakyBucketNewItem_waiting hr hm
  · exact leakyBucketNewItem_waiting hr hm
  · obtain ⟨q, hq⟩ := hstate item b hfind
    obtain ⟨out, out', hout, hout', hcases⟩ := leakyBucketItem_underLimit host reqState
      item.expireAt hr hq hm
    simp only [hout, hout']
    rcases hcases with ⟨rfl, hstatus⟩ | ⟨hplain, hwaiting⟩
    · exact .inl ⟨rfl, congrArg some hstatus⟩
    · exact .inr ⟨fun h => hplain (Option.some.inj h), fun h => hwaiting (Option.some.inj h)⟩

/-- What a call books it books alike under a longer wait. -/
theorem leakyBucketBurst_scheduled (hr : Punctual now r) (hm : 0 < m) (hmm' : m ≤ m')
    (hstate : ∀ item b, s.find (epochMillis now) r = some (item, .leaky b) →
      ∃ q, b.remaining = .fin q)
    (hstatus : statusOf (leakyBucketBurst host now s (r.waiting m) reqState).1 =
      some .scheduled) :
    leakyBucketBurst host now s (r.waiting m') reqState =
      leakyBucketBurst host now s (r.waiting m) reqState := by
  -- a new item never books: a full bucket has the hits or will never have them
  have hnew : ∀ s', statusOf (leakyBucketNewItem host now s' (r.waiting m) reqState).1 ≠
      some .scheduled := by
    intro s' hsched
    have htable := leakyBucketNewItem_call host now (s := .ofItems []) (r.waiting m) reqState s'
      (fun item b => by
        show (Shard.ofItems []).find _ _ ≠ _
        simp [Shard.find, Shard.lookup, Shard.ofItems, Cache.getItem, Cache.peek])
    cases htable with
    | failed e _ hres => simp [hres, statusOf] at hsched
    | worked item b out hfind =>
      simp [Shard.find, Shard.lookup, Shard.ofItems, Cache.getItem, Cache.peek] at hfind
    | neverFits resp _ _ _ _ hres hst => simp [hres, statusOf, hst] at hsched
    | created resp _ _ _ _ _ _ _ hres hst =>
      rw [hres, statusOf, hst] at hsched
      split at hsched <;> cases hsched
  rw [leakyBucketBurst_waiting] at hstatus ⊢
  rw [leakyBucketBurst_waiting]
  rcases hfind : s.find (epochMillis now) r with _ | ⟨item, t | b⟩
  · rw [hfind] at hstatus
    exact absurd hstatus (hnew _)
  · rw [hfind] at hstatus
    exact absurd hstatus (hnew _)
  · obtain ⟨q, hq⟩ := hstate item b hfind
    simp only [hfind] at hstatus
    cases hout : leakyBucketItem host now (r.waiting m) reqState b item.expireAt with
    | error e => simp [hout, statusOf] at hstatus
    | ok out =>
      simp only [hout] at hstatus
      simp only [hout, leakyBucketItem_scheduled hr hq hm hmm' hout (Option.some.inj hstatus)]

end Call

/-! ## Opting in costs nothing

Up to the surface: validation lets both requests through, and the answer of `getLocalRateLimit` is
that of the algorithm. -/

/-- A leaky bucket request that passes validation is answered by its algorithm. -/
theorem getLocalRateLimit_status (conf : Config) (host : Host) (now : ℤ) (s : Shard)
    {r : RateLimitReq} (reqState : RateLimitReqState) (hvalid : validateMaxWait r = "")
    (halg : r.algorithm = .leakyBucket) :
    statusOf (getLocalRateLimit conf host now s r reqState).result =
      statusOf (leakyBucket host now s r
        { reqState with waitCeiling := conf.scheduleMaxWait }).1 := by
  simp only [getLocalRateLimit, handleGetRateLimit, hvalid, halg, ne_eq, not_true_eq_false,
    if_false]
  rcases leakyBucket host now s r { reqState with waitCeiling := conf.scheduleMaxWait } with
    ⟨result, s'⟩
  cases result <;> rfl

/-- Two such requests that the algorithm treats alike are treated alike. -/
theorem getLocalRateLimit_congr {conf : Config} {host : Host} {now : ℤ} {s : Shard}
    {r r' : RateLimitReq} {reqState : RateLimitReqState} (hvalid : validateMaxWait r = "")
    (hvalid' : validateMaxWait r' = "") (halg : r.algorithm = .leakyBucket)
    (halg' : r'.algorithm = .leakyBucket) (hglobal : hasBehavior r.behavior .global = false)
    (hglobal' : hasBehavior r'.behavior .global = false)
    (h : leakyBucket host now s r { reqState with waitCeiling := conf.scheduleMaxWait } =
      leakyBucket host now s r' { reqState with waitCeiling := conf.scheduleMaxWait }) :
    getLocalRateLimit conf host now s r reqState =
      getLocalRateLimit conf host now s r' reqState := by
  simp only [getLocalRateLimit, handleGetRateLimit, hvalid, hvalid', halg, halg', hglobal, hglobal',
    h, ne_eq, not_true_eq_false, if_false, Bool.false_eq_true]

/-- **Opting in costs nothing and is monotone.**  Whoever is let in without waiting is let in alike
    if it would have waited, and the other way round; whoever is booked is booked alike if it would
    have waited longer.  "Alike" is the answer, the cache and the Store. -/
theorem maxWait_costs_nothing (conf : Config) (host : Host) (now : ℤ) (s : Shard)
    (r : RateLimitReq) (reqState : RateLimitReqState) (hr : Punctual now r)
    (hvalid : ∀ m, 0 < m → validateMaxWait (r.waiting m) = "")
    (hstate : ∀ item b, s.find (epochMillis now) r = some (item, .leaky b) →
      ∃ q, b.remaining = .fin q) :
    (∀ m, 0 < m →
      (statusOf (getLocalRateLimit conf host now s (r.waiting 0) reqState).result =
          some .underLimit ↔
        statusOf (getLocalRateLimit conf host now s (r.waiting m) reqState).result =
          some .underLimit) ∧
      (statusOf (getLocalRateLimit conf host now s (r.waiting 0) reqState).result =
          some .underLimit →
        getLocalRateLimit conf host now s (r.waiting m) reqState =
          getLocalRateLimit conf host now s (r.waiting 0) reqState)) ∧
    (∀ m m', 0 < m → m ≤ m' →
      statusOf (getLocalRateLimit conf host now s (r.waiting m) reqState).result =
          some .scheduled →
        getLocalRateLimit conf host now s (r.waiting m') reqState =
          getLocalRateLimit conf host now s (r.waiting m) reqState) := by
  obtain ⟨halg, hglobal, -⟩ := validateMaxWait_scheduled (hvalid 1 one_pos) one_pos
  have hvalid₀ : validateMaxWait (r.waiting 0) = "" := by
    simp [validateMaxWait, RateLimitReq.waiting]
  have hstate' : ∀ item b, s.find (epochMillis now) r.withBurst = some (item, .leaky b) →
      ∃ q, b.remaining = .fin q := by
    intro item b hfind
    rw [find_withBurst] at hfind
    exact hstate item b hfind
  -- letting in, then booking
  refine ⟨fun m hm => ?_, fun m m' hm hmm' hstatus => ?_⟩
  · have hsame := leakyBucketBurst_underLimit host
      { reqState with waitCeiling := conf.scheduleMaxWait } hr.withBurst hm hstate'
    rw [getLocalRateLimit_status conf host now s reqState hvalid₀ halg,
      getLocalRateLimit_status conf host now s reqState (hvalid m hm) halg]
    simp only [leakyBucket, withBurst_waiting]
    rcases hsame with ⟨heq, hunder⟩ | ⟨hplain, hwaiting⟩
    · refine ⟨iff_of_true hunder (heq ▸ hunder), fun _ => ?_⟩
      refine getLocalRateLimit_congr (hvalid m hm) hvalid₀ halg halg hglobal hglobal ?_
      simpa only [leakyBucket, withBurst_waiting] using heq
    · exact ⟨iff_of_false hplain hwaiting, fun h => absurd h hplain⟩
  · have hm' : 0 < m' := lt_of_lt_of_le hm hmm'
    rw [getLocalRateLimit_status conf host now s reqState (hvalid m hm) halg, leakyBucket,
      withBurst_waiting] at hstatus
    refine getLocalRateLimit_congr (hvalid m' hm') (hvalid m hm) halg halg hglobal hglobal ?_
    simpa only [leakyBucket, withBurst_waiting] using
      leakyBucketBurst_scheduled hr.withBurst hm hmm' hstate' hstatus

/-- Two hits behind a debt of one token: refused without a wait, booked with one. -/
theorem maxWait_costs_nothing_debt :
    statusOf (getLocalRateLimit ⟨1000000000⟩ Host.amd64 5000000 indebtedShard
        ((RateLimitReq.sample 2 10 1000 0 5 0).waiting 300) { isOwner := true }).result =
      some .scheduled ∧
    getLocalRateLimit ⟨1000000000⟩ Host.amd64 5000000 indebtedShard
        ((RateLimitReq.sample 2 10 1000 0 5 0).waiting 900) { isOwner := true } =
      getLocalRateLimit ⟨1000000000⟩ Host.amd64 5000000 indebtedShard
        ((RateLimitReq.sample 2 10 1000 0 5 0).waiting 300) { isOwner := true } := by
  have hscheduled : statusOf (getLocalRateLimit ⟨1000000000⟩ Host.amd64 5000000 indebtedShard
      ((RateLimitReq.sample 2 10 1000 0 5 0).waiting 300) { isOwner := true }).result =
      some .scheduled := by decide +kernel
  refine ⟨hscheduled, (maxWait_costs_nothing ⟨1000000000⟩ Host.amd64 5000000 indebtedShard
    (.sample 2 10 1000 0 5 0) { isOwner := true } ⟨by decide, by decide, by decide, by decide,
      by decide⟩ ?_ ?_).2 300 900 (by decide) (by decide) hscheduled⟩
  · intro m hm
    have hne : m ≠ 0 := by omega
    have hneg : ¬ m < 0 := by omega
    simp [validateMaxWait, RateLimitReq.waiting, RateLimitReq.sample, hne, hneg, hasBehavior]
  · intro item b hfind
    have hfound := indebtedShard_find
    rw [show indebtedShard.find (epochMillis 5000000) (.sample 2 10 1000 0 5 300) =
      indebtedShard.find (epochMillis 5000000) (.sample 2 10 1000 0 5 0) from rfl, hfind] at hfound
    simp only [Option.some.injEq, Prod.mk.injEq, Bucket.leaky.injEq] at hfound
    exact ⟨-1, by rw [hfound.2]⟩

/-! ## The wait is the least

`waitFor` computes the time at which an untouched bucket will hold the hits.  That it suffices is
one inequality; that a millisecond less does not is the other, and needs the wait to come from the
rounding and not from the floor of one millisecond. -/

/-- **The wait in time**: rounded up to a millisecond, `1e-6` taken off before, and at least one. -/
theorem wait_bounds {t u w hits : ℤ} {y ρ : ℚ} (hρ : 0 < ρ) (hu : t ≤ u)
    (hw : w = max 1 ⌈((max u t : ℤ) - t : ℚ) + (hits - y) * ρ - waitEpsilon⌉) :
    hits - waitEpsilon / ρ ≤ CappedLine.line u y (1 / ρ) (t + w) ∧
      (1 < w → y < hits → CappedLine.line u y (1 / ρ) (t + w - 1) < hits) := by
  have hδ : (0 : ℚ) < waitEpsilon := by norm_num [waitEpsilon]
  rw [max_eq_left hu] at hw
  set W : ℚ := ((u : ℤ) - t : ℚ) + (hits - y) * ρ - waitEpsilon with hW
  constructor
  · -- `w` is at least `W`, so the line has had the time it needs
    have hle : W ≤ w := by
      rw [hw]
      exact (Int.le_ceil W).trans (by exact_mod_cast le_max_right _ _)
    have hlate : ((hits - y) * ρ - waitEpsilon : ℚ) ≤ (max u (t + w) : ℤ) - u := by
      have : ((t + w : ℤ) : ℚ) ≤ (max u (t + w) : ℤ) := by exact_mod_cast le_max_right _ _
      push_cast at this ⊢
      linarith
    have hgain := mul_le_mul_of_nonneg_left hlate (one_div_pos.mpr hρ).le
    have hexpand : 1 / ρ * ((hits - y) * ρ - waitEpsilon) = (hits - y) - waitEpsilon / ρ := by
      field_simp
    rw [hexpand] at hgain
    unfold CappedLine.line
    linarith
  · intro hlong hshort
    -- a wait above one is the rounding of `W`, which it exceeds by less than one
    have hlt : ((w - 1 : ℤ) : ℚ) < W := by
      have hceil : w = ⌈W⌉ := by omega
      rw [hceil]
      push_cast
      linarith [Int.ceil_lt_add_one W]
    rcases le_or_gt u (t + w - 1) with hle | hgt
    · rw [CappedLine.line_of_ge hle]
      have hearly : ((t + w - 1 : ℤ) : ℚ) - u < (hits - y) * ρ := by
        push_cast at hlt ⊢
        linarith
      have hgain := mul_lt_mul_of_pos_left hearly (one_div_pos.mpr hρ)
      have hexpand : 1 / ρ * ((hits - y) * ρ) = hits - y := by
        field_simp
      rw [hexpand] at hgain
      linarith
    · rw [CappedLine.line_of_le hgt.le]
      exact hshort

/-- What a refusal or a booking says about the credited bucket. -/
theorem charge_waits {host : Host} {x : ℤ} {b : LeakyBucketItem} {r : RateLimitReq}
    {reqState : RateLimitReqState} {tm : LeakyTerms} {rate : ExactFloat} (hhits : 0 < r.hits)
    (hwait : 0 < r.maxWait)
    (hstatus : (charge host x b r reqState tm rate).resp.status = .overLimit ∨
      (charge host x b r reqState tm rate).resp.status = .scheduled) :
    r.hits ≤ b.burst ∧ wholeTokens host b.remaining < r.hits ∧
      (charge host x b r reqState tm rate).resp.retryAfter =
        waitFor host b r.hits tm.createdAt rate := by
  have hcharge : charge host x b r reqState tm rate = scheduleHits host x b r reqState
      (leakyStatus host b tm.createdAt rate) tm.createdAt tm.duration rate tm.wasInDebt := by
    unfold charge
    rw [if_neg hhits.ne', if_pos hwait]
  rw [hcharge] at hstatus ⊢
  unfold scheduleHits at hstatus ⊢
  dsimp only at hstatus ⊢
  -- a request that never fits is not refused as over the limit, and one with enough is let in
  split at hstatus
  · simp at hstatus
  rename_i hfits
  split at hstatus
  · simp [leakyStatus] at hstatus
  rename_i hshort
  rw [if_neg hfits, if_neg hshort]
  refine ⟨not_lt.mp (fun h => hfits (.inl h)), not_le.mp hshort, ?_⟩
  split <;> rfl

/-- **The least wait** for hits on a bucket of the rate `ρ`: untouched until `t + w` it holds the
    hits, up to what leaks in within `1e-6` ms, and a millisecond earlier it does not. -/
def LeastWait (hits : ℤ) (ρ : ℚ) (t w : ℤ) (b : LeakyBucketItem) : Prop :=
  .fin (hits - waitEpsilon / ρ) ≤ b.balance (.fin ρ) (t + w) ∧
    (1 < w → b.leaked (.fin ρ) (t + w - 1) < .fin hits)

/-- What `waitFor` computes on a bucket that is short of the hits is the least wait. -/
theorem leastWait_waitFor (host : Host) {b : LeakyBucketItem} {hits t : ℤ} {y ρ : ℚ}
    (hy : b.remaining = .fin y) (hρ : 0 < ρ) (hhits : 0 < hits) (hfits : hits ≤ b.burst)
    (hshort : wholeTokens host b.remaining < hits) (hu : t ≤ b.updatedAt) :
    LeastWait hits ρ t (waitFor host b hits t (.fin ρ)) b := by
  -- too few whole tokens is too few tokens
  have hlacks : y < hits := by
    rw [hy] at hshort
    have := epsilon_pos
    have := not_le.mp (fun h => absurd ((le_wholeTokens hhits).mpr h) (not_le.mpr hshort))
    linarith
  -- before the cut at the burst the balance is a line
  have hline : ∀ z, b.leaked (.fin ρ) z = .fin (CappedLine.line b.updatedAt y (1 / ρ) z) := by
    intro z
    refine leaked_line hy (fun sign hzero => ?_) z
    cases sign <;> simp [zero, hρ.ne'] at hzero
  obtain ⟨hreach, hleast⟩ := wait_bounds hρ hu (waitFor_fin host hy hρ hits t)
  refine ⟨?_, fun hlong => ?_⟩
  · -- the cut at the burst does not matter: the hits fit
    rw [LeakyBucketItem.balance, hline, ofInt_eq, min_fin, fin_le_fin]
    refine le_min ?_ hreach
    have hfits' : (hits : ℚ) ≤ b.burst := by exact_mod_cast hfits
    have : 0 < waitEpsilon / ρ := div_pos (by norm_num [waitEpsilon]) hρ
    linarith
  · rw [hline, fin_lt_fin]
    exact hleast hlong hlacks

/-- A request on a found item that is refused or booked is told the least wait, on the item that its
    query would leave. -/
theorem leakyBucketItem_least {host : Host} {now : ℤ} {r : RateLimitReq}
    {reqState : RateLimitReqState} {b : LeakyBucketItem} {x : ℤ} {q : ℚ} {out : LeakyOutcome}
    (hout : leakyBucketItem host now r reqState b x = .ok out) (hq : b.remaining = .fin q)
    (hgreg : hasBehavior r.behavior .durationIsGregorian = false) (hwait : 0 < r.maxWait)
    (hhits : 0 < r.hits) (hlimit : 0 < r.limit) (hduration : 0 < r.duration)
    (hstatus : out.resp.status = .overLimit ∨ out.resp.status = .scheduled) :
    ∃ out₀, leakyBucketItem host now r.query reqState b x = .ok out₀ ∧
      LeastWait r.hits (r.duration / r.limit) (epochMillis now) out.resp.retryAfter out₀.b := by
  obtain ⟨tm, htm, rfl⟩ := leakyBucketItem_ok hout
  refine ⟨_, leakyBucketItem_query (r := r.query) rfl htm reqState x, ?_⟩
  rw [(deferredExpiry_fields _ _ _ _).1] at hstatus ⊢
  rw [(deferredExpiry_fields _ _ _ _).2.1, credited_query]
  -- the terms are the request's, timed by the owner's clock
  obtain ⟨-, hrequest, -, -, -, hrate⟩ := usable_terms htm hlimit hduration hgreg
  obtain ⟨-, htime, -⟩ := leakyTerms_ok htm
  rw [if_pos (.inl hwait)] at htime
  obtain ⟨y, hy⟩ := credited_rational htm hq (by rw [hrequest]; simp)
  obtain ⟨hfits, hshort, hafter⟩ := charge_waits hhits hwait hstatus
  rw [hafter, hrate, htime]
  refine leastWait_waitFor host hy ?_ hhits hfits hshort ?_
  · exact div_pos (by exact_mod_cast hduration) (by exact_mod_cast hlimit)
  · rw [credited_updatedAt, htime]
    exact le_max_right _ _

/-- **`retry_after` is the least sufficient wait**, for a request that is refused or booked, on the
    bucket that its query would leave. -/
theorem retryAfter_least (host : Host) (now : ℤ) (s : Shard) (r : RateLimitReq)
    (reqState : RateLimitReqState) {item : CacheItem} {b : LeakyBucketItem} {q : ℚ}
    (hfind : s.find (epochMillis now) r = some (item, .leaky b)) (hq : b.remaining = .fin q)
    (hvalid : validateMaxWait r = "") (hwait : 0 < r.maxWait) (hhits : 0 < r.hits)
    (hlimit : 0 < r.limit) (hduration : 0 < r.duration) (resp : RateLimitResp)
    (hok : (leakyBucket host now s r reqState).1 = .ok resp)
    (hstatus : resp.status = .overLimit ∨ resp.status = .scheduled) :
    ∃ b', (leakyBucket host now s r.query reqState).2.bucket r.hashKey = some (.leaky b') ∧
      LeastWait r.hits (r.duration / r.limit) (epochMillis now) resp.retryAfter b' := by
  have hgreg := (validateMaxWait_scheduled hvalid hwait).2.2.1
  obtain ⟨out, hout, rfl, -⟩ := leakyBucket_found hfind hok
  obtain ⟨out₀, hout₀, hleast⟩ := leakyBucketItem_least hout hq (by simpa using hgreg)
    (by simpa using hwait) (by simpa using hhits) (by simpa using hlimit)
    (by simpa using hduration) hstatus
  rw [← withBurst_query] at hout₀
  obtain ⟨-, hpeek⟩ := leakyBucket_of_item (r := r.query) hfind hout₀
  rw [withBurst_hits, withBurst_duration, withBurst_limit] at hleast
  exact ⟨_, bucket_of_peek hpeek rfl, hleast⟩

/-- Two hits behind a debt of one token wait for three tokens. -/
theorem retryAfter_least_debt :
    ∃ b', (leakyBucket Host.amd64 5000000 indebtedShard
        (RateLimitReq.sample 2 10 1000 0 5 300).query
        { isOwner := true, waitCeiling := 1000000000 }).2.bucket "requests_account:1" =
          some (.leaky b') ∧
      LeastWait 2 ((1000 : ℤ) / (10 : ℤ)) 5 300 b' :=
  retryAfter_least Host.amd64 5000000 indebtedShard (.sample 2 10 1000 0 5 300)
    { isOwner := true, waitCeiling := 1000000000 } indebtedShard_find rfl (by decide) (by decide)
    (by decide) (by decide) (by decide)
    { status := .scheduled, limit := 10, remaining := 0, resetTime := 1305, retryAfter := 300 }
    (by decide +kernel) (.inr rfl)

end Gubernator
