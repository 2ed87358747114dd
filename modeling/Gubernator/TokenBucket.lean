/-
  The token bucket (`algorithms.go`, `tokenBucket` and `tokenBucketNewItem`).

  A bucket holds `remaining` tokens of a `limit` until the item expires; a request takes its hits
  or is refused.  One clock reading `now` (nanoseconds) serves a whole call.  The source mutates
  the cached item in place, so the functions below return what the item holds when they stop —
  also when they stop with an error.  Metrics and log lines are left out.

  The order of the source is kept, because it shows: an error after the limit was adopted leaves it
  adopted, and a query on an empty bucket answers the status that the last decision left.
-/
import Gubernator.Cache

namespace Gubernator

open Calendar

/-! ## The found item

Limit, duration and hits, in three steps. -/

/-- A changed limit moves the balance by the difference, not below zero. -/
def TokenBucketItem.setLimit (t : TokenBucketItem) (limit : ℤ) : TokenBucketItem :=
  if t.limit ≠ limit then
    { t with remaining := max 0 (t.remaining + (limit - t.limit)), limit := limit }
  else t

/-- What a token bucket request makes of a found item: the answer and the item's new contents. -/
structure TokenOutcome where
  result : Except String RateLimitResp
  bucket : TokenBucketItem
  expireAt : ℤ

/-- When the item would end under the request's duration. -/
def newExpire (loc : Location) (now : ℤ) (r : RateLimitReq) (t : TokenBucketItem) :
    Except String ℤ :=
  if hasBehavior r.behavior .durationIsGregorian then gregorianExpiration loc now r.duration
  else .ok (t.createdAt + r.duration)

/-- A changed duration moves the expiry; an item that has ended under it is renewed. -/
def setDuration (loc : Location) (now : ℤ) (r : RateLimitReq) (t : TokenBucketItem)
    (expireAt : ℤ) : Except String (TokenBucketItem × ℤ) :=
  if t.duration ≠ r.duration then
    match newExpire loc now r t with
    | .error e => .error e
    | .ok expire =>
      if expire ≤ r.createdAt then
        .ok ({ t with createdAt := r.createdAt, remaining := t.limit, duration := r.duration },
          r.createdAt + r.duration)
      else .ok ({ t with duration := r.duration }, expire)
  else .ok (t, expireAt)

/-- The decision, on an item whose limit and duration are the request's. -/
def takeHits (r : RateLimitReq) (t : TokenBucketItem) (expireAt : ℤ) :
    RateLimitResp × TokenBucketItem :=
  let rl : RateLimitResp :=
    { status := .underLimit, limit := r.limit, remaining := t.remaining, resetTime := expireAt }
  if r.hits = 0 then
    -- a status query
    if t.remaining = 0 then ({ rl with status := t.status }, t)
    else (rl, { t with status := .underLimit })
  -- already over the limit: the one branch that stores `OVER_LIMIT`
  else if t.remaining = 0 ∧ 0 < r.hits then
    ({ rl with status := .overLimit }, { t with status := .overLimit })
  else if t.remaining = r.hits then
    ({ rl with remaining := 0 }, { t with status := .underLimit, remaining := 0 })
  else if t.remaining < r.hits then
    -- more hits than tokens: none are charged, unless the client asked for the rest to be drained
    if hasBehavior r.behavior .drainOverLimit then
      ({ rl with status := .overLimit, remaining := 0 },
        { t with status := .underLimit, remaining := 0 })
    else ({ rl with status := .overLimit }, { t with status := .underLimit })
  else
    ({ rl with remaining := t.remaining - r.hits },
      { t with status := .underLimit, remaining := t.remaining - r.hits })

/-- A request on a found token bucket.  The limit is adopted first, so an invalid Gregorian
    duration leaves it adopted. -/
def tokenBucketItem (loc : Location) (now : ℤ) (r : RateLimitReq) (t : TokenBucketItem)
    (expireAt : ℤ) : TokenOutcome :=
  let t₁ := t.setLimit r.limit
  match setDuration loc now r t₁ expireAt with
  | .error e => ⟨.error e, t₁, expireAt⟩
  | .ok (t₂, expireAt₂) =>
    let (rl, t₃) := takeHits r t₂ expireAt₂
    ⟨.ok rl, t₃, expireAt₂⟩

/-! ## The new item

Created full, less the hits of the request that creates it. -/

/-- `tokenBucketNewItem`: nothing is created if the interval is invalid. -/
def tokenBucketNewItem (loc : Location) (now : ℤ) (s : Shard) (r : RateLimitReq)
    (reqState : RateLimitReqState) : Except String RateLimitResp × Shard :=
  let expire : Except String ℤ :=
    if hasBehavior r.behavior .durationIsGregorian then gregorianExpiration loc now r.duration
    else .ok (r.createdAt + r.duration)
  match expire with
  | .error e => (.error e, s)
  | .ok expireAt =>
    -- a client may ask for more than the limit: refused, and nothing is charged
    let refused : Bool := decide (r.limit < r.hits)
    let remaining := if refused then r.limit else r.limit - r.hits
    let t : TokenBucketItem :=
      { limit := r.limit, duration := r.duration, remaining := remaining,
        createdAt := r.createdAt }
    (.ok { status := if refused then .overLimit else .underLimit, limit := r.limit,
           remaining := remaining, resetTime := expireAt },
      s.create reqState.isOwner
        { algorithm := .tokenBucket, key := r.hashKey, value := some (.token t),
          expireAt := expireAt })

/-! ## The algorithm

The lookup, the three branches on what it finds, and the write back. -/

/-- `tokenBucket`. A reset removes the item, and does not make another. -/
def tokenBucket (loc : Location) (now : ℤ) (s : Shard) (r : RateLimitReq)
    (reqState : RateLimitReqState) : Except String RateLimitResp × Shard :=
  let s₁ := (s.lookup (epochMillis now) r).2
  match s.find (epochMillis now) r with
  | none => tokenBucketNewItem loc now s₁ r reqState
  | some (item, v) =>
    if hasBehavior r.behavior .resetRemaining then
      (.ok { status := .underLimit, limit := r.limit, remaining := r.limit, resetTime := 0 },
        s₁.remove r.hashKey)
    else match v with
      -- the client switched algorithms
      | .leaky _ => tokenBucketNewItem loc now (s₁.remove r.hashKey) r reqState
      | .token t =>
        let out := tokenBucketItem loc now r t item.expireAt
        let item' := { item with value := some (.token out.bucket), expireAt := out.expireAt }
        match out.result with
        -- the mutation is made already, but no `OnChange`
        | .error e => (.error e, { s₁ with cache := s₁.cache.write item' })
        | .ok rl => (.ok rl, s₁.update reqState.isOwner item')

/-! ## What the pieces do

Lemmas for the modules on windows, queries and failures, which do not unfold the functions. -/

/-- The limit is adopted. -/
@[simp] theorem setLimit_limit (t : TokenBucketItem) (limit : ℤ) :
    (t.setLimit limit).limit = limit := by
  unfold TokenBucketItem.setLimit
  split
  · rfl
  · rename_i h
    exact not_not.mp h

/-- The same limit changes nothing. -/
@[simp] theorem setLimit_self (t : TokenBucketItem) : t.setLimit t.limit = t :=
  if_neg (not_not.mpr rfl)

/-- **Every way a decision can go** on a request for hits, none of them negative: the answer's
    status, with what it does to the balance. -/
theorem takeHits_cases (r : RateLimitReq) (t : TokenBucketItem) (expireAt : ℤ)
    (hhits : 0 ≤ r.hits) (hrem : 0 ≤ t.remaining) :
    (r.hits = 0 ∧ (takeHits r t expireAt).2.remaining = t.remaining) ∨
    (t.remaining < r.hits ∧ (takeHits r t expireAt).1.status = .overLimit ∧
      0 ≤ (takeHits r t expireAt).2.remaining ∧
      (takeHits r t expireAt).2.remaining ≤ t.remaining) ∨
    (0 < r.hits ∧ (takeHits r t expireAt).1.status = .underLimit ∧ r.hits ≤ t.remaining ∧
      (takeHits r t expireAt).2.remaining = t.remaining - r.hits) := by
  unfold takeHits
  by_cases h0 : r.hits = 0
  · left
    rw [if_pos h0]
    split <;> exact ⟨h0, rfl⟩
  · right
    have hpos : 0 < r.hits := lt_of_le_of_ne hhits (Ne.symm h0)
    rw [if_neg h0]
    split
    · rename_i hempty
      exact .inl ⟨by omega, rfl, hrem, le_rfl⟩
    · split
      · rename_i heq
        exact .inr ⟨hpos, rfl, heq.ge, by simp [heq]⟩
      · split
        · rename_i hshort
          left
          split
          · exact ⟨hshort, rfl, le_rfl, hrem⟩
          · exact ⟨hshort, rfl, hrem, le_rfl⟩
        · rename_i hlt
          exact .inr ⟨hpos, rfl, not_lt.mp hlt, rfl⟩

/-- The answer carries the request's limit and no error; a query reports the balance it leaves. -/
theorem takeHits_resp (r : RateLimitReq) (t : TokenBucketItem) (expireAt : ℤ) :
    (takeHits r t expireAt).1.limit = r.limit ∧ (takeHits r t expireAt).1.error = "" ∧
      (r.hits = 0 → (takeHits r t expireAt).1.remaining = (takeHits r t expireAt).2.remaining) := by
  unfold takeHits
  refine ⟨?_, ?_, fun h => ?_⟩
  · repeat' split
    all_goals rfl
  · repeat' split
    all_goals rfl
  · rw [if_pos h]
    split <;> rfl

/-- A decision does not touch the duration. -/
@[simp] theorem takeHits_duration (r : RateLimitReq) (t : TokenBucketItem) (expireAt : ℤ) :
    (takeHits r t expireAt).2.duration = t.duration := by
  unfold takeHits
  repeat' split
  all_goals rfl

/-- A decision does not touch the limit. -/
@[simp] theorem takeHits_limit (r : RateLimitReq) (t : TokenBucketItem) (expireAt : ℤ) :
    (takeHits r t expireAt).2.limit = t.limit := by
  unfold takeHits
  repeat' split
  all_goals rfl

/-- A request on a found item that does not fail is the decision on the item with its limit and
    duration adopted. -/
theorem tokenBucketItem_of_setDuration {loc : Location} {now : ℤ} {r : RateLimitReq}
    {t t₂ : TokenBucketItem} {x x₂ : ℤ}
    (h : setDuration loc now r (t.setLimit r.limit) x = .ok (t₂, x₂)) :
    tokenBucketItem loc now r t x = ⟨.ok (takeHits r t₂ x₂).1, (takeHits r t₂ x₂).2, x₂⟩ := by
  simp only [tokenBucketItem, h]

/-- A request that is answered got past its duration. -/
theorem tokenBucketItem_ok {loc : Location} {now : ℤ} {r : RateLimitReq} {t : TokenBucketItem}
    {x : ℤ} {resp : RateLimitResp} (hok : (tokenBucketItem loc now r t x).result = .ok resp) :
    ∃ t₂ x₂, setDuration loc now r (t.setLimit r.limit) x = .ok (t₂, x₂) ∧
      resp = (takeHits r t₂ x₂).1 := by
  cases hset : setDuration loc now r (t.setLimit r.limit) x with
  | error e => simp [tokenBucketItem, hset] at hok
  | ok p =>
    obtain ⟨t₂, x₂⟩ := p
    rw [tokenBucketItem_of_setDuration hset] at hok
    exact ⟨t₂, x₂, rfl, (Except.ok.inj hok).symm⟩

/-- A request that changes neither limit nor duration goes straight to the decision. -/
theorem tokenBucketItem_same (loc : Location) (now : ℤ) {r : RateLimitReq} {t : TokenBucketItem}
    (hlimit : t.limit = r.limit) (hduration : t.duration = r.duration) (expireAt : ℤ) :
    tokenBucketItem loc now r t expireAt =
      ⟨.ok (takeHits r t expireAt).1, (takeHits r t expireAt).2, expireAt⟩ := by
  rw [tokenBucketItem, ← hlimit, setLimit_self, setDuration, if_neg (not_not.mpr hduration)]

/-- A call that finds a token bucket, and does not reset it, leaves in the cache what
    `tokenBucketItem` makes of it, whether it fails or not. -/
theorem tokenBucket_found (loc : Location) {now : ℤ} {s : Shard} {r : RateLimitReq}
    (reqState : RateLimitReqState) {item : CacheItem} {t : TokenBucketItem}
    (hfind : s.find (epochMillis now) r = some (item, .token t))
    (hreset : hasBehavior r.behavior .resetRemaining = false) :
    (tokenBucket loc now s r reqState).1 = (tokenBucketItem loc now r t item.expireAt).result ∧
    (tokenBucket loc now s r reqState).2.cache.peek r.hashKey =
      some { item with
        value := some (.token (tokenBucketItem loc now r t item.expireAt).bucket)
        expireAt := (tokenBucketItem loc now r t item.expireAt).expireAt } := by
  set item' : CacheItem := { item with
    value := some (.token (tokenBucketItem loc now r t item.expireAt).bucket)
    expireAt := (tokenBucketItem loc now r t item.expireAt).expireAt } with hitem'
  have hpeek := Shard.peek_update_found hfind (show item'.key = item.key from rfl)
  unfold tokenBucket
  simp only [hfind, hreset, Bool.false_eq_true, if_false]
  cases hres : (tokenBucketItem loc now r t item.expireAt).result with
  | error e => exact ⟨rfl, hpeek reqState.isOwner⟩
  | ok resp => exact ⟨rfl, hpeek reqState.isOwner⟩

end Gubernator
