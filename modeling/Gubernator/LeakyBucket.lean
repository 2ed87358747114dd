/-
  The leaky bucket with scheduled admission (`algorithms.go`, `leakyBucket`, `scheduleHits`,
  `leakyBucketNewItem` and their helpers).

  A bucket holds a fractional balance of at most `burst` tokens that refills at one token per
  `duration / limit` milliseconds.  A request with `max_wait` may be BOOKED: it is admitted at a
  later slot, and the balance goes below zero — the key is in debt.

  The call is cut where the source's own comments cut it: the terms settled before the item is
  touched (`leakyTerms`), the balance brought up to date (`credited`), the hits charged
  (`charge`), the expiry extended.  One clock reading `now` (nanoseconds) serves a whole call;
  metrics and log lines are left out.

  A float is exact here (`Lib/ExactFloat`): sums and quotients are not rounded, while infinities,
  NaN and the two zeros are kept, because limits and durations of zero or less reach them.  The
  tolerances of the source, which are there for rounding, stay where it has them.
-/
import Gubernator.Cache

namespace Gubernator

open Calendar

/-! ## What the machine decides -/

/-- The time zone `clock.Now()` reports, and what the processor makes of `int64(f)` where `f` is
    infinite or NaN: Go leaves that conversion to the implementation. -/
structure Host where
  location : Location
  int64OfNonFinite : ExactFloat → ℤ

/-- An amd64 server in UTC. -/
def Host.amd64 : Host := ⟨Calendar.utc, fun _ => -9223372036854775808⟩

/-- `int64(f)`: truncation, where `f` is a number. -/
def Host.int64 (host : Host) (f : ExactFloat) : ℤ := f.trunc.getD (host.int64OfNonFinite f)

/-- `math.MaxInt64`. -/
def maxInt64 : ℤ := 9223372036854775807
/-- `math.MinInt64`. -/
def minInt64 : ℤ := -9223372036854775808

/-- `int64` is unbounded here, so only an infinity is out of its range and saturates. -/
def millis (host : Host) (f : ExactFloat) : ℤ :=
  match f with
  | .inf false => maxInt64
  | .inf true => minInt64
  | f => host.int64 f

/-! ## Helpers on balances and rates

The functions of the source under their names. -/

/-- `1e-9`, the float error a balance may carry. -/
def epsilon : ℚ := 1 / 1000000000

/-- `1e-6`, the float error a wait in milliseconds may carry. -/
def waitEpsilon : ℚ := 1 / 1000000

/-- A balance within the float error of zero is zero. -/
def snapToZero (balance : ExactFloat) : ExactFloat :=
  if balance.abs < .fin epsilon then 0 else balance

/-- The whole tokens of a balance, of which a float error must not take one away. -/
def wholeTokens (host : Host) (balance : ExactFloat) : ℤ := host.int64 (balance + .fin epsilon)

/-- Those of them that are there to be spent: none in debt. -/
def spendableTokens (host : Host) (balance : ExactFloat) : ℤ := max 0 (wholeTokens host balance)

/-- A rate of zero or less, infinite or NaN. It is stated as `!(0 < rate)` so that NaN is one of
    them. -/
def unusableRate (rate : ExactFloat) : Bool := !decide (0 < rate) || rate.isInf

/-- `float64(b.Duration) / float64(b.Limit)`, in milliseconds per token. -/
def rateOf (limit duration : ℤ) : ExactFloat := .ofInt duration / .ofInt limit

/-- The tokens that leaked in since the last update. A rate of NaN leaks none. -/
def creditedLeak (b : LeakyBucketItem) (now : ℤ) (rate : ExactFloat) : ExactFloat :=
  if now ≤ b.updatedAt then 0
  else
    let leak := .ofInt (now - b.updatedAt) / rate
    if leak.isNaN then 0 else leak

/-- Whether the item is still in debt at `now`, once its leak is credited at its own rate. -/
def debtAt (b : LeakyBucketItem) (now : ℤ) : Bool :=
  let rate := rateOf b.limit b.duration
  let balance :=
    if unusableRate rate then b.remaining else b.remaining + creditedLeak b now rate
  decide (snapToZero balance < 0)

/-- When the balance is back at the burst, rounded up to a millisecond. -/
def fullAt (host : Host) (b : LeakyBucketItem) (rate : ExactFloat) : ℤ :=
  millis host (.ceil (.ofInt b.updatedAt + (.ofInt b.burst - b.remaining) * rate))

/-- The expiry `extendDebtExpiry` gives an item that now expires at `expireAt`. -/
def extendDebtExpiry (host : Host) (expireAt : ℤ) (b : LeakyBucketItem) (now duration : ℤ)
    (rate : ExactFloat) : ℤ :=
  max expireAt (max (now + duration) (fullAt host b rate))

/-! ## The terms of a request

Which rate and which burst apply, decided on the item as it was found. -/

/-- `if r.Burst == 0 { r.Burst = r.Limit }` -/
def RateLimitReq.withBurst (r : RateLimitReq) : RateLimitReq :=
  if r.burst = 0 then { r with burst := r.limit } else r

/-- What `leakyBucket` settles on a found item before it changes anything. -/
structure LeakyTerms where
  createdAt : ℤ
  duration : ℤ
  requestRate : ExactFloat
  storedRate : ExactFloat
  /-- the debt stays as it is booked, at the stored rate -/
  keepStored : Bool
  /-- the debt is to be restated at the request's rate -/
  rescale : Bool
  configChanged : Bool
  burst : ℤ
  burstChanged : Bool
  /-- before the leak is credited, so the debt may be paid by now -/
  wasInDebt : Bool
  deriving Repr

namespace LeakyTerms

/-- The rate that applies while the item is brought up to date. -/
def rate (tm : LeakyTerms) : ExactFloat := if tm.keepStored then tm.storedRate else tm.requestRate

/-- The rate at which its leak is credited: a debt that is to be rescaled leaks at its own. -/
def creditRate (tm : LeakyTerms) : ExactFloat := if tm.rescale then tm.storedRate else tm.rate

end LeakyTerms

/-- The rate and the duration of a request: of the whole calendar interval, and until its end,
    when the duration is Gregorian. -/
def requestTerms (host : Host) (now : ℤ) (r : RateLimitReq) : Except String (ExactFloat × ℤ) :=
  if hasBehavior r.behavior .durationIsGregorian then
    match gregorianDuration host.location now r.duration with
    | .error e => .error e
    | .ok d =>
      match gregorianExpiration host.location now r.duration with
      | .error e => .error e
      | .ok expire => .ok (rateOf r.limit d, expire - epochMillis now)
  else .ok (rateOf r.limit r.duration, r.duration)

/-- A request's own limit and duration give a rate that a debt can be booked at. -/
def requestUsable (r : RateLimitReq) : Bool :=
  decide (0 < r.limit) && decide (0 < r.duration) && !unusableRate (rateOf r.limit r.duration)

/-- The terms. Everything is settled before an invalid interval is noticed, and nothing written. -/
def leakyTerms (host : Host) (now : ℤ) (r : RateLimitReq) (b : LeakyBucketItem) :
    Except String LeakyTerms :=
  -- a key in debt and a `max_wait` request are timed by the owner's clock
  let createdAt := if 0 < r.maxWait ∨ b.remaining < 0 then epochMillis now else r.createdAt
  let gregorian := hasBehavior r.behavior .durationIsGregorian
  let reset := hasBehavior r.behavior .resetRemaining
  let storedRate := rateOf b.limit b.duration
  let storedUsable := !unusableRate storedRate
  let inDebt := decide (b.remaining < 0)
  let configChanged := b.limit != r.limit || b.duration != r.duration
  let keepStored := (gregorian || !requestUsable r) && inDebt && storedUsable
  let rescale := !gregorian && requestUsable r && inDebt && configChanged && storedUsable
  -- a burst of zero or less does not replace that of a key in debt; a reset may set it to zero
  let burst :=
    if debtAt b createdAt ∧ (r.burst < 0 ∨ r.burst = 0 ∧ ¬ reset) then b.burst else r.burst
  match requestTerms host now r with
  | .error e => .error e
  | .ok (requestRate, duration) =>
    .ok { createdAt, duration, requestRate, storedRate, keepStored, rescale, configChanged, burst
          burstChanged := b.burst != burst
          wasInDebt := inDebt && !reset }

/-! ## The balance brought up to date

Six assignments of the source, each a function, in its order. -/

/-- The leak, up to the request's time. -/
def creditLeak (tm : LeakyTerms) (b : LeakyBucketItem) : LeakyBucketItem :=
  if b.updatedAt < tm.createdAt then
    { b with remaining := b.remaining + creditedLeak b tm.createdAt tm.creditRate
             updatedAt := tm.createdAt }
  else b

/-- A debt still owed is restated at the new rate, so that it clears at the same moment. -/
def rescaleDebt (tm : LeakyTerms) (b : LeakyBucketItem) : LeakyBucketItem :=
  if tm.rescale ∧ snapToZero b.remaining < 0 then
    { b with remaining := b.remaining * (tm.storedRate / tm.rate) }
  else b

/-- A changed burst moves the balance by the difference, unless it is a debt. -/
def shiftBurst (tm : LeakyTerms) (b : LeakyBucketItem) : LeakyBucketItem :=
  if tm.burstChanged then
    { b with
      remaining :=
        if 0 ≤ snapToZero b.remaining then
          ExactFloat.max 0 (b.remaining + .ofInt (tm.burst - b.burst))
        else b.remaining
      burst := tm.burst }
  else b

/-- RESET_REMAINING fills to the burst that applies. -/
def refill (r : RateLimitReq) (tm : LeakyTerms) (b : LeakyBucketItem) : LeakyBucketItem :=
  if hasBehavior r.behavior .resetRemaining then { b with remaining := .ofInt tm.burst } else b

/-- Credit does not lift the balance above the burst. -/
def clampToBurst (b : LeakyBucketItem) : LeakyBucketItem :=
  { b with remaining := snapToZero (ExactFloat.min (.ofInt b.burst) b.remaining) }

/-- Whether the request's limit and duration become the item's. -/
def adopts (tm : LeakyTerms) (b : LeakyBucketItem) : Bool :=
  !tm.keepStored || decide (0 ≤ b.remaining)

/-- The request's limit and duration become the item's, unless the debt is still booked at the
    stored ones. -/
def adoptConfig (r : RateLimitReq) (tm : LeakyTerms) (b : LeakyBucketItem) : LeakyBucketItem :=
  if adopts tm b then { b with limit := r.limit, duration := r.duration } else b

/-- The item when the hits are about to be charged. -/
def credited (r : RateLimitReq) (tm : LeakyTerms) (b : LeakyBucketItem) : LeakyBucketItem :=
  adoptConfig r tm (clampToBurst (refill r tm (shiftBurst tm (rescaleDebt tm (creditLeak tm b)))))

/-- The rate the hits are charged at. -/
def chargeRate (tm : LeakyTerms) (b : LeakyBucketItem) : ExactFloat :=
  if adopts tm b then tm.requestRate else tm.rate

/-! ## The hits charged

With `max_wait` by `scheduleHits`, without it right here. -/

/-- The answer, and what the item holds afterwards. -/
structure LeakyOutcome where
  resp : RateLimitResp
  b : LeakyBucketItem
  expireAt : ℤ
  deriving Repr

/-- The response before the hits are looked at. -/
def leakyStatus (host : Host) (b : LeakyBucketItem) (createdAt : ℤ) (rate : ExactFloat) :
    RateLimitResp :=
  { limit := b.limit
    remaining := spendableTokens host b.remaining
    status := .underLimit
    resetTime :=
      if b.remaining < 0 then fullAt host b rate
      else createdAt + (b.limit - wholeTokens host b.remaining) * host.int64 rate }

/-- How long the hits of a `max_wait` request have to wait, in milliseconds. -/
def waitFor (host : Host) (b : LeakyBucketItem) (hits now : ℤ) (rate : ExactFloat) : ℤ :=
  max 1 (millis host (.ceil
    (.ofInt (max b.updatedAt now - now) + (.ofInt hits - b.remaining) * rate - .fin waitEpsilon)))

/-- `scheduleHits`. -/
def scheduleHits (host : Host) (expireAt : ℤ) (b : LeakyBucketItem) (r : RateLimitReq)
    (reqState : RateLimitReqState) (rl : RateLimitResp) (now duration : ℤ) (rate : ExactFloat)
    (wasInDebt : Bool) : LeakyOutcome :=
  if b.burst < r.hits ∨ unusableRate rate then ⟨{ rl with status := .neverFits }, b, expireAt⟩
  -- there are tokens enough now
  else if r.hits ≤ wholeTokens host b.remaining then
    let b' := { b with remaining := snapToZero (b.remaining - .ofInt r.hits) }
    let remaining := spendableTokens host b'.remaining
    ⟨{ rl with remaining := remaining
               resetTime := now + (rl.limit - remaining) * host.int64 rate }, b',
      if wasInDebt then extendDebtExpiry host expireAt b' now duration rate else expireAt⟩
  else
    let wait := waitFor host b r.hits now rate
    -- too long a wait for the client, or for the server
    if min r.maxWait reqState.ceiling < wait then
      ⟨{ rl with status := .overLimit, retryAfter := wait }, b, expireAt⟩
    else
      -- booked: the balance goes below zero, unsnapped
      let b' := { b with remaining := b.remaining - .ofInt r.hits }
      ⟨{ rl with status := .scheduled, retryAfter := wait, remaining := 0
                 resetTime := fullAt host b' rate }, b',
        extendDebtExpiry host expireAt b' now duration rate⟩

/-- The rest of `leakyBucket` on a found item, from the query on. -/
def charge (host : Host) (expireAt : ℤ) (b : LeakyBucketItem) (r : RateLimitReq)
    (reqState : RateLimitReqState) (tm : LeakyTerms) (rate : ExactFloat) : LeakyOutcome :=
  let rl := leakyStatus host b tm.createdAt rate
  if r.hits = 0 then ⟨rl, b, expireAt⟩
  else if 0 < r.maxWait then
    scheduleHits host expireAt b r reqState rl tm.createdAt tm.duration rate tm.wasInDebt
  else if r.hits < 0 ∧ b.remaining < 0 then
    -- a refund never pays off booked debt
    ⟨rl, b, extendDebtExpiry host expireAt b tm.createdAt tm.duration rate⟩
  else if wholeTokens host b.remaining < r.hits then
    -- refused; draining never raises a debt to zero
    if hasBehavior r.behavior .drainOverLimit then
      ⟨{ rl with status := .overLimit, remaining := 0 },
        { b with remaining := ExactFloat.min b.remaining 0 }, expireAt⟩
    else ⟨{ rl with status := .overLimit }, b, expireAt⟩
  else
    let b' := { b with
      remaining := snapToZero (ExactFloat.min (.ofInt b.burst) (b.remaining - .ofInt r.hits)) }
    let remaining := wholeTokens host b'.remaining
    ⟨{ rl with remaining := remaining
               resetTime := tm.createdAt + (rl.limit - remaining) * host.int64 rate }, b',
      if tm.wasInDebt then extendDebtExpiry host expireAt b' tm.createdAt tm.duration rate
      else expireAt⟩

/-! ## The found item

The pieces put together, with the expiry they leave. -/

/-- The expiry when the hits are about to be charged. -/
def touchedExpiry (r : RateLimitReq) (tm : LeakyTerms) (expireAt : ℤ) : ℤ :=
  if r.hits ≠ 0 ∧ ¬ tm.wasInDebt then tm.createdAt + tm.duration else expireAt

/-- The deferred extension: a key that was in debt and changed burst, limit or duration stays
    cached until its balance is back at the new burst. -/
def deferredExpiry (host : Host) (tm : LeakyTerms) (rate : ExactFloat) (out : LeakyOutcome) :
    LeakyOutcome :=
  if tm.wasInDebt ∧ (tm.burstChanged ∨ tm.configChanged) ∧ ¬ unusableRate rate then
    { out with expireAt := extendDebtExpiry host out.expireAt out.b tm.createdAt tm.duration rate }
  else out

/-- A request on a found leaky bucket. -/
def leakyBucketItem (host : Host) (now : ℤ) (r : RateLimitReq) (reqState : RateLimitReqState)
    (b : LeakyBucketItem) (expireAt : ℤ) : Except String LeakyOutcome :=
  match leakyTerms host now r b with
  | .error e => .error e
  | .ok tm =>
    let b' := credited r tm b
    let rate := chargeRate tm b'
    .ok (deferredExpiry host tm rate
      (charge host (touchedExpiry r tm expireAt) b' r reqState tm rate))

/-! ## The new item

Created full, less the hits of the request.  Nothing is booked on it: hits that a full bucket cannot
give are refused, or never fit. -/

/-- `leakyBucketNewItem`. -/
def leakyBucketNewItem (host : Host) (now : ℤ) (s : Shard) (r : RateLimitReq)
    (reqState : RateLimitReqState) : Except String RateLimitResp × Shard :=
  let createdAt := if 0 < r.maxWait then epochMillis now else r.createdAt
  let rate := host.int64 (rateOf r.limit r.duration)
  let duration : Except String ℤ :=
    if hasBehavior r.behavior .durationIsGregorian then
      match gregorianExpiration host.location now r.duration with
      | .error e => .error e
      | .ok expire => .ok (expire - epochMillis now)
    else .ok r.duration
  match duration with
  | .error e => (.error e, s)
  | .ok duration =>
    if 0 < r.maxWait ∧ r.burst < r.hits then
      -- no bucket is created, so the key stays full for the next caller
      (.ok { status := .neverFits, limit := r.limit, remaining := r.burst
             resetTime := createdAt + (r.limit - r.burst) * rate }, s)
    else
      let refused : Bool := decide (r.burst < r.hits)
      -- a refund does not lift it above the burst
      let remaining := if refused then 0 else min r.burst (r.burst - r.hits)
      (.ok { status := if refused then .overLimit else .underLimit, limit := r.limit
             remaining := remaining
             resetTime := createdAt + (r.limit - remaining) * rate },
        s.create reqState.isOwner
          { algorithm := r.algorithm, key := r.hashKey, expireAt := createdAt + duration
            value := some (.leaky
              { limit := r.limit, duration := duration, remaining := .ofInt remaining
                updatedAt := createdAt, burst := r.burst }) })

/-! ## The algorithm

The lookup, the two branches, and the write back. -/

/-- `leakyBucket` on a request whose burst has its default. -/
def leakyBucketBurst (host : Host) (now : ℤ) (s : Shard) (r : RateLimitReq)
    (reqState : RateLimitReqState) : Except String RateLimitResp × Shard :=
  let s₁ := (s.lookup (epochMillis now) r).2
  match s.find (epochMillis now) r with
  | none => leakyBucketNewItem host now s₁ r reqState
  -- the client switched algorithms
  | some (_, .token _) => leakyBucketNewItem host now (s₁.remove r.hashKey) r reqState
  | some (item, .leaky b) =>
    match leakyBucketItem host now r reqState b item.expireAt with
    | .error e => (.error e, s₁)
    | .ok out =>
      (.ok out.resp, s₁.update reqState.isOwner
        { item with value := some (.leaky out.b), expireAt := out.expireAt })

/-- `leakyBucket`. The default burst is written into the request first. -/
def leakyBucket (host : Host) (now : ℤ) (s : Shard) (r : RateLimitReq)
    (reqState : RateLimitReqState) : Except String RateLimitResp × Shard :=
  leakyBucketBurst host now s r.withBurst reqState

end Gubernator
