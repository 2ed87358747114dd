/-
  THE BUCKETS ON MACHINE INTEGERS (`algorithms.go`, `tokenBucket`, `tokenBucketNewItem`,
  `leakyBucket`, `leakyBucketNewItem`): `int64` wraps here, as it does in Go.

  The functions are those of the model on unbounded integers, under the same names, with every
  addition and subtraction that computes a remaining or an `ExpireAt` made by the machine and noted.
  The `*_computes` lemmas say when all that a function notes is exact, and that it then does what
  its model does; so what is proved of the model holds of the machine wherever these conditions do.

  Where a leaky bucket is found its balance is a float, and the sums of `int64` go into the expiry
  and the reset time alone.  Without debt and without `max_wait` neither is read again in the call,
  so they are wrapped at its end: to wrap each sum and product on the way would give the same.

  The notes are kept by the monad `Traced`: a computation is a value together with the exact
  results of the sums on the way to it.  `Computes m P x` says that none of them was wrapped exactly
  if `P` holds, and that the value is then `x`.  Its rules (`bind`, `map`, `ite_pos`, `ite_neg`)
  follow the code, so each `*_computes` lemma is a walk along its function, and `omega` compares the
  conditions that come out with the ones stated.
-/
import Gubernator.Lib.Int64
import Gubernator.Instance
import Gubernator.Leaky.Entry

namespace Gubernator

open Calendar MachineInt MachineInt.Traced

/-! ## The functions

Each is the function of the same name in the model, with `add` and `sub` in place of `+` and `-`.
Comparisons, `max` and copies do not leave `int64` and stay as they are. -/

namespace Wrapped

/-- A changed limit moves the balance by the difference, not below zero. -/
def setLimit (t : TokenBucketItem) (limit : ℤ) : Traced TokenBucketItem :=
  if t.limit ≠ limit then do
    let diff ← sub limit t.limit
    let remaining ← add t.remaining diff
    pure { t with remaining := max 0 remaining, limit := limit }
  else pure t

/-- A changed duration moves the expiry; an item that has ended under it is renewed. -/
def setDuration (loc : Location) (now : ℤ) (r : RateLimitReq) (t : TokenBucketItem)
    (expireAt : ℤ) : Traced (Except String (TokenBucketItem × ℤ)) :=
  if t.duration ≠ r.duration then do
    let sum ← add t.createdAt r.duration
    let newExpire : Except String ℤ :=
      if hasBehavior r.behavior .durationIsGregorian then gregorianExpiration loc now r.duration
      else .ok sum
    match newExpire with
    | .error e => pure (.error e)
    | .ok expire =>
      if expire ≤ r.createdAt then do
        let renewed ← add r.createdAt r.duration
        pure (.ok ({ t with createdAt := r.createdAt, remaining := t.limit,
                            duration := r.duration }, renewed))
      else pure (.ok ({ t with duration := r.duration }, expire))
  else pure (.ok (t, expireAt))

/-- The decision: only hits of which some are left, or a refund, are subtracted. -/
def takeHits (r : RateLimitReq) (t : TokenBucketItem) (expireAt : ℤ) :
    Traced (RateLimitResp × TokenBucketItem) :=
  if r.hits ≠ 0 ∧ r.hits < t.remaining then do
    let remaining ← sub t.remaining r.hits
    pure ({ status := .underLimit, limit := r.limit, remaining := remaining
            resetTime := expireAt },
      { t with status := .underLimit, remaining := remaining })
  else pure (Gubernator.takeHits r t expireAt)

/-- A found token bucket: new limit, new duration, hits. -/
def tokenBucketItem (loc : Location) (now : ℤ) (r : RateLimitReq) (t : TokenBucketItem)
    (expireAt : ℤ) : Traced TokenOutcome := do
  let t₁ ← setLimit t r.limit
  let changed ← setDuration loc now r t₁ expireAt
  match changed with
  | .error e => pure ⟨.error e, t₁, expireAt⟩
  | .ok (t₂, expireAt₂) =>
    let taken ← takeHits r t₂ expireAt₂
    pure ⟨.ok taken.1, taken.2, expireAt₂⟩

/-- A new one; the balance is computed before it is known whether the hits are refused. -/
def tokenBucketNewItem (loc : Location) (now : ℤ) (s : Shard) (r : RateLimitReq)
    (reqState : RateLimitReqState) : Traced (Except String RateLimitResp × Shard) := do
  let sum ← add r.createdAt r.duration
  let left ← sub r.limit r.hits
  let expire : Except String ℤ :=
    if hasBehavior r.behavior .durationIsGregorian then gregorianExpiration loc now r.duration
    else .ok sum
  match expire with
  | .error e => pure (.error e, s)
  | .ok expireAt =>
    let refused : Bool := decide (r.limit < r.hits)
    let remaining := if refused then r.limit else left
    let t : TokenBucketItem :=
      { limit := r.limit, duration := r.duration, remaining := remaining,
        createdAt := r.createdAt }
    pure (.ok { status := if refused then .overLimit else .underLimit, limit := r.limit,
                remaining := remaining, resetTime := expireAt },
      s.create reqState.isOwner
        { algorithm := .tokenBucket, key := r.hashKey, value := some (.token t),
          expireAt := expireAt })

/-- The token bucket algorithm: nothing found, a reset, the other algorithm's item, an item. -/
def tokenBucket (loc : Location) (now : ℤ) (s : Shard) (r : RateLimitReq)
    (reqState : RateLimitReqState) : Traced (Except String RateLimitResp × Shard) :=
  let s₁ := (s.lookup (epochMillis now) r).2
  match s.find (epochMillis now) r with
  | none => tokenBucketNewItem loc now s₁ r reqState
  | some (item, v) =>
    if hasBehavior r.behavior .resetRemaining then
      pure (.ok { status := .underLimit, limit := r.limit, remaining := r.limit, resetTime := 0 },
        s₁.remove r.hashKey)
    else match v with
      | .leaky _ => tokenBucketNewItem loc now (s₁.remove r.hashKey) r reqState
      | .token t => do
        let out ← tokenBucketItem loc now r t item.expireAt
        let item' := { item with value := some (.token out.bucket), expireAt := out.expireAt }
        match out.result with
        | .error e => pure (.error e, { s₁ with cache := s₁.cache.write item' })
        | .ok rl => pure (.ok rl, s₁.update reqState.isOwner item')

/-- The reset time is a sum too; nothing is asked of it. -/
def wrapReset (resp : RateLimitResp) : RateLimitResp :=
  { resp with resetTime := wrap resp.resetTime }

/-- A new leaky bucket: the balance and the expiry are noted. -/
def leakyBucketNewItem (host : Host) (now : ℤ) (s : Shard) (r : RateLimitReq)
    (reqState : RateLimitReqState) : Traced (Except String RateLimitResp × Shard) :=
  let createdAt := if 0 < r.maxWait then epochMillis now else r.createdAt
  let rate := host.int64 (rateOf r.limit r.duration)
  let duration : Except String ℤ :=
    if hasBehavior r.behavior .durationIsGregorian then
      match gregorianExpiration host.location now r.duration with
      | .error e => .error e
      | .ok expire => .ok (expire - epochMillis now)
    else .ok r.duration
  match duration with
  | .error e => pure (.error e, s)
  | .ok duration =>
    if 0 < r.maxWait ∧ r.burst < r.hits then
      pure (.ok (wrapReset { status := .neverFits, limit := r.limit, remaining := r.burst
                             resetTime := createdAt + (r.limit - r.burst) * rate }), s)
    else do
      let left ← sub r.burst r.hits
      let expireAt ← add createdAt duration
      let refused : Bool := decide (r.burst < r.hits)
      let remaining := if refused then 0 else min r.burst left
      pure (.ok (wrapReset { status := if refused then .overLimit else .underLimit
                             limit := r.limit, remaining := remaining
                             resetTime := createdAt + (r.limit - remaining) * rate }),
        s.create reqState.isOwner
          { algorithm := r.algorithm, key := r.hashKey, expireAt := expireAt
            value := some (.leaky
              { limit := r.limit, duration := duration, remaining := .ofInt remaining
                updatedAt := createdAt, burst := r.burst }) })

/-- `leakyBucket` on a request whose burst has its default. -/
def leakyBucketBurst (host : Host) (now : ℤ) (s : Shard) (r : RateLimitReq)
    (reqState : RateLimitReqState) : Traced (Except String RateLimitResp × Shard) :=
  let s₁ := (s.lookup (epochMillis now) r).2
  match s.find (epochMillis now) r with
  | none => leakyBucketNewItem host now s₁ r reqState
  | some (_, .token _) => leakyBucketNewItem host now (s₁.remove r.hashKey) r reqState
  | some (item, .leaky b) =>
    match leakyBucketItem host now r reqState b item.expireAt with
    | .error e => pure (.error e, s₁)
    | .ok out =>
      pure (.ok (wrapReset out.resp), s₁.update reqState.isOwner
        { item with value := some (.leaky out.b), expireAt := wrap out.expireAt })

/-- The leaky bucket algorithm. -/
def leakyBucket (host : Host) (now : ℤ) (s : Shard) (r : RateLimitReq)
    (reqState : RateLimitReqState) : Traced (Except String RateLimitResp × Shard) :=
  leakyBucketBurst host now s r.withBurst reqState

/-- The worker's choice of algorithm. -/
def handleGetRateLimit (conf : Config) (host : Host) (s : Shard) (a : Arrival) :
    Traced (Except String RateLimitResp × Shard) :=
  match a.req.algorithm with
  | .tokenBucket => do
    let out ← tokenBucket host.location a.now s a.req a.reqState
    pure (wrapError "Error in tokenBucket" out.1, out.2)
  | .leakyBucket => do
    let out ← leakyBucket host a.now s a.req
      { a.reqState with waitCeiling := conf.scheduleMaxWait }
    pure (wrapError "Error in leakyBucket" out.1, out.2)
  | .unknown code => pure (.error s!"Invalid rate limit algorithm '{code}'", s)

/-- One request of a run. -/
def step (conf : Config) (host : Host) (s : Shard) (a : Arrival) :
    Except String RateLimitResp × Shard :=
  (handleGetRateLimit conf host s a).value

/-! ## When they are exact

For the requests in `Plain` the conditions are all of one kind: a result must not pass `2^63 - 1`.
The differences in the code cannot fall below `-2^63`, since what is subtracted from is not
negative. -/

/-- An `int64` that is not negative. -/
def Natural (x : ℤ) : Prop := 0 ≤ x ∧ x ≤ maxInt64

/-- Decidable, so that inputs can be checked. -/
instance decidableNatural (x : ℤ) : Decidable (Natural x) :=
  inferInstanceAs (Decidable (0 ≤ x ∧ x ≤ maxInt64))

/-- For `omega`, which does not unfold it. -/
theorem maxInt64_eq : maxInt64 = 2 ^ 63 - 1 := rfl

/-- Likewise. -/
theorem minInt64_eq : minInt64 = -2 ^ 63 := rfl

/-- What the fields of a token bucket are: an `int64` each, none negative. -/
structure TokenNatural (t : TokenBucketItem) : Prop where
  limit : Natural t.limit
  duration : Natural t.duration
  remaining : Natural t.remaining
  createdAt : Natural t.createdAt

/-- **The requests**: no Gregorian duration, no `max_wait`, and each field an `int64` that is not
    negative, except that the hits may be. -/
structure Plain (r : RateLimitReq) : Prop where
  gregorian : hasBehavior r.behavior .durationIsGregorian = false
  maxWait : r.maxWait = 0
  limit : Natural r.limit
  burst : Natural r.burst
  duration : Natural r.duration
  createdAt : Natural r.createdAt
  hits_ge : minInt64 ≤ r.hits
  hits_le : r.hits ≤ maxInt64

/-- The default burst is the limit, which is in range. -/
theorem Plain.withBurst {r : RateLimitReq} (h : Plain r) : Plain r.withBurst where
  gregorian := by simpa using h.gregorian
  maxWait := by simpa using h.maxWait
  limit := by simpa using h.limit
  burst := by
    unfold RateLimitReq.withBurst
    split
    · exact h.limit
    · exact h.burst
  duration := by simpa using h.duration
  createdAt := by simpa using h.createdAt
  hits_ge := by simpa using h.hits_ge
  hits_le := by simpa using h.hits_le

section Computes
variable {loc : Location} {host : Host} {now : ℤ} {s : Shard} {r : RateLimitReq}
  {reqState : RateLimitReqState} {t : TokenBucketItem} {x : ℤ}

/-- A new limit: the difference of two limits is exact, so only the balance plus the difference can
    pass. -/
theorem setLimit_computes (ht : TokenNatural t) (hr : Plain r) :
    Computes (setLimit t r.limit)
      (t.limit ≠ r.limit → t.remaining + (r.limit - t.limit) ≤ maxInt64)
      (t.setLimit r.limit) := by
  have hlimit := ht.limit
  have hremaining := ht.remaining
  have hrequest := hr.limit
  have hmax := maxInt64_eq
  unfold Natural at hlimit hremaining hrequest
  unfold setLimit TokenBucketItem.setLimit
  by_cases hne : t.limit ≠ r.limit
  · rw [if_pos hne, if_pos hne]
    refine Computes.congr (Computes.bind (computes_sub _ _) (fun _ =>
      Computes.map _ (computes_add _ _))) ?_
    omega
  · rw [if_neg hne, if_neg hne]
    exact (computes_pure t).congr (iff_of_true trivial (fun h => absurd h hne))

/-- The item ends under the request's duration before the request came. -/
def Renewed (r : RateLimitReq) (t : TokenBucketItem) : Prop :=
  t.duration ≠ r.duration ∧ t.createdAt + r.duration ≤ r.createdAt

instance decidableRenewed (r : RateLimitReq) (t : TokenBucketItem) : Decidable (Renewed r t) :=
  inferInstanceAs (Decidable (_ ∧ _))

/-- A new duration: its end is computed in any case, and the end counted from the request if the
    item is renewed. -/
theorem setDuration_computes (loc : Location) (now : ℤ) (ht : Natural t.createdAt) (hr : Plain r)
    (x : ℤ) :
    Computes (setDuration loc now r t x)
      ((t.duration ≠ r.duration → t.createdAt + r.duration ≤ maxInt64) ∧
        (Renewed r t → r.createdAt + r.duration ≤ maxInt64))
      (Gubernator.setDuration loc now r t x) := by
  have hduration := hr.duration
  have hcreated := hr.createdAt
  have hmax := maxInt64_eq
  unfold Natural at ht hduration hcreated
  unfold setDuration Gubernator.setDuration newExpire
  simp only [hr.gregorian, Bool.false_eq_true, if_false]
  by_cases hne : t.duration ≠ r.duration
  · rw [if_pos hne, if_pos hne]
    by_cases hends : t.createdAt + r.duration ≤ r.createdAt
    · -- the item has ended under the new duration
      have hrenewed : Renewed r t := ⟨hne, hends⟩
      rw [if_pos hends]
      refine Computes.congr (Computes.bind (computes_add _ _) (fun _ =>
        Computes.ite_pos hends (Computes.map _ (computes_add _ _)))) ?_
      simp only [hne, hrenewed, ne_eq, not_false_eq_true, true_implies]
      omega
    · -- it goes on
      have hrenewed : ¬ Renewed r t := fun h => hends h.2
      rw [if_neg hends]
      refine Computes.congr (Computes.bind (computes_add _ _) (fun _ =>
        Computes.ite_neg hends (computes_pure _))) ?_
      simp only [hne, hrenewed, ne_eq, not_false_eq_true, true_implies, and_true, false_implies]
      omega
  · rw [if_neg hne, if_neg hne]
    have hrenewed : ¬ Renewed r t := fun h => hne h.1
    refine (computes_pure _).congr (iff_of_true trivial ⟨fun h => absurd h hne, ?_⟩)
    intro h
    exact absurd h hrenewed

/-- Hits are subtracted exactly unless they are a refund that does not fit. -/
theorem takeHits_computes (ht : Natural t.remaining) (hr : Plain r) :
    Computes (takeHits r t x) (t.remaining - r.hits ≤ maxInt64) (Gubernator.takeHits r t x) := by
  have hlow := hr.hits_ge
  have hhigh := hr.hits_le
  have hmax := maxInt64_eq
  have hmin := minInt64_eq
  unfold Natural at ht
  unfold takeHits
  by_cases htake : r.hits ≠ 0 ∧ r.hits < t.remaining
  · -- the one branch of the decision that subtracts
    obtain ⟨hne, hlt⟩ := htake
    have hmodel : Gubernator.takeHits r t x =
        ({ status := .underLimit, limit := r.limit, remaining := t.remaining - r.hits,
           resetTime := x },
          { t with status := .underLimit, remaining := t.remaining - r.hits }) := by
      unfold Gubernator.takeHits
      rw [if_neg hne, if_neg (by omega), if_neg (by omega), if_neg (by omega)]
    rw [if_pos ⟨hne, hlt⟩, hmodel]
    refine Computes.congr (Computes.map _ (computes_sub _ _)) ?_
    omega
  · rw [if_neg htake]
    exact (computes_pure _).congr (iff_of_true trivial (by omega))

/-- **A request on a token bucket fits**: the new limit's balance does, and the new duration's
    expiry; and so do the tokens there are with the refund, which are the limit's in a renewed
    item. -/
def TokenFits (r : RateLimitReq) (t : TokenBucketItem) : Prop :=
  (t.limit ≠ r.limit → t.remaining + (r.limit - t.limit) ≤ maxInt64) ∧
  ((t.duration ≠ r.duration → t.createdAt + r.duration ≤ maxInt64) ∧
    (Renewed r t → r.createdAt + r.duration ≤ maxInt64)) ∧
  (if Renewed r t then r.limit else max 0 (t.remaining + (r.limit - t.limit))) - r.hits ≤ maxInt64

instance decidableTokenFits (r : RateLimitReq) (t : TokenBucketItem) : Decidable (TokenFits r t) :=
  inferInstanceAs (Decidable (_ ∧ _ ∧ _))

/-- The balance under the request's limit. -/
theorem setLimit_eq (ht : TokenNatural t) :
    t.setLimit r.limit =
      { t with remaining := max 0 (t.remaining + (r.limit - t.limit)), limit := r.limit } := by
  have hremaining := ht.remaining
  unfold Natural at hremaining
  unfold TokenBucketItem.setLimit
  split
  · rfl
  · rename_i heq
    have hlimit : t.limit = r.limit := not_not.mp heq
    have hbalance : max 0 (t.remaining + (r.limit - t.limit)) = t.remaining := by omega
    rw [hbalance, ← hlimit]

/-- The item on which the decision is made. -/
theorem setDuration_plain (loc : Location) (now : ℤ) (hr : Plain r) (t : TokenBucketItem) (x : ℤ) :
    ∃ t₂ x₂, Gubernator.setDuration loc now r t x = .ok (t₂, x₂) ∧ t₂.limit = t.limit ∧
      t₂.duration = r.duration ∧ (t₂.createdAt = t.createdAt ∨ t₂.createdAt = r.createdAt) ∧
      t₂.remaining = if Renewed r t then t.limit else t.remaining := by
  unfold Gubernator.setDuration newExpire
  simp only [hr.gregorian, Bool.false_eq_true, if_false]
  by_cases hne : t.duration ≠ r.duration
  · rw [if_pos hne]
    by_cases hends : t.createdAt + r.duration ≤ r.createdAt
    · rw [if_pos hends, if_pos ⟨hne, hends⟩]
      exact ⟨_, _, rfl, rfl, rfl, .inr rfl, rfl⟩
    · have hrenewed : ¬ Renewed r t := fun h => hends h.2
      rw [if_neg hends, if_neg hrenewed]
      exact ⟨_, _, rfl, rfl, rfl, .inl rfl, rfl⟩
  · have hrenewed : ¬ Renewed r t := fun h => hne h.1
    rw [if_neg hne, if_neg hrenewed]
    exact ⟨_, _, rfl, rfl, not_not.mp hne, .inl rfl, rfl⟩

/-- The bucket is in range after the decision, and the answer reports nothing negative. -/
theorem takeHits_natural (ht : TokenNatural t) (hfits : t.remaining - r.hits ≤ maxInt64) :
    TokenNatural (Gubernator.takeHits r t x).2 ∧ 0 ≤ (Gubernator.takeHits r t x).1.remaining := by
  have hmax := maxInt64_eq
  obtain ⟨hlimit, hduration, hremaining, hcreated⟩ := ht
  unfold Natural at hremaining
  have hzero : Natural 0 := by decide
  unfold Gubernator.takeHits
  repeat' split
  all_goals first
    | exact ⟨⟨hlimit, hduration, hremaining, hcreated⟩, hremaining.1⟩
    | exact ⟨⟨hlimit, hduration, hzero, hcreated⟩, le_rfl⟩
    | exact ⟨⟨hlimit, hduration, ⟨by dsimp only; omega, hfits⟩, hcreated⟩, by dsimp only; omega⟩

/-- The item on which the decision is made is in range, if the new limit's balance is. -/
theorem decided_natural (ht : TokenNatural t) (hr : Plain r)
    (hlimit : t.limit ≠ r.limit → t.remaining + (r.limit - t.limit) ≤ maxInt64)
    {t₂ : TokenBucketItem} {x₂ : ℤ}
    (hset : Gubernator.setDuration loc now r (t.setLimit r.limit) x = .ok (t₂, x₂)) :
    TokenNatural t₂ := by
  obtain ⟨t₃, x₃, hset', hlimit₂, hduration₂, hcreated₂, hremaining₂⟩ :=
    setDuration_plain loc now hr (t.setLimit r.limit) x
  obtain ⟨rfl, rfl⟩ := Prod.mk.inj (Except.ok.inj (hset'.symm.trans hset))
  have hrequest := hr.limit
  have hremaining := ht.remaining
  rw [setLimit_eq ht] at hlimit₂ hcreated₂ hremaining₂
  refine ⟨hlimit₂ ▸ hrequest, hduration₂ ▸ hr.duration, ?_, ?_⟩
  · -- the balance: the new limit of a renewed item, the moved one otherwise
    rw [hremaining₂]
    split
    · exact hrequest
    · unfold Natural at hremaining ⊢
      dsimp only
      omega
  · rcases hcreated₂ with h | h
    · exact h ▸ ht.createdAt
    · exact h ▸ hr.createdAt

/-- **A found token bucket**: exact precisely if the request fits, and then in range again. -/
theorem tokenBucketItem_computes (loc : Location) (now : ℤ) (ht : TokenNatural t) (hr : Plain r)
    (x : ℤ) :
    Computes (tokenBucketItem loc now r t x) (TokenFits r t)
      (Gubernator.tokenBucketItem loc now r t x) ∧
    (TokenFits r t → TokenNatural (Gubernator.tokenBucketItem loc now r t x).bucket ∧
      ∃ rl, (Gubernator.tokenBucketItem loc now r t x).result = .ok rl ∧ 0 ≤ rl.remaining) := by
  obtain ⟨t₂, x₂, hset, -, -, -, hremaining⟩ :=
    setDuration_plain loc now hr (t.setLimit r.limit) x
  have hdecided := fun hlimit => decided_natural ht hr hlimit hset
  have hduration : Computes (setDuration loc now r (t.setLimit r.limit) x)
      ((t.duration ≠ r.duration → t.createdAt + r.duration ≤ maxInt64) ∧
        (Renewed r t → r.createdAt + r.duration ≤ maxInt64)) (.ok (t₂, x₂)) := by
    have hcreated : Natural (t.setLimit r.limit).createdAt := setLimit_eq ht ▸ ht.createdAt
    have h := setDuration_computes loc now hcreated hr x
    rw [hset] at h
    refine h.congr ?_
    rw [setLimit_eq ht]
    rfl
  rw [setLimit_eq ht] at hremaining
  have hbalance : t₂.remaining =
      if Renewed r t then r.limit else max 0 (t.remaining + (r.limit - t.limit)) := hremaining
  rw [tokenBucketItem_of_setDuration hset]
  unfold TokenFits
  rw [← hbalance]
  refine ⟨?_, fun hfits => ?_⟩
  · exact Computes.bind (setLimit_computes ht hr) (fun hlimit => Computes.bind hduration (fun _ =>
      Computes.map _ (takeHits_computes (hdecided hlimit).remaining hr)))
  · obtain ⟨hnatural, hresp⟩ := takeHits_natural (hdecided hfits.1) hfits.2.2
    exact ⟨hnatural, _, rfl, hresp⟩

/-- **A request for a new bucket fits**: the end of its duration does, and the tokens it starts with
    together with a refund. -/
def NewFits (r : RateLimitReq) (tokens : ℤ) : Prop :=
  r.createdAt + r.duration ≤ maxInt64 ∧ tokens - r.hits ≤ maxInt64

instance decidableNewFits (r : RateLimitReq) (tokens : ℤ) : Decidable (NewFits r tokens) :=
  inferInstanceAs (Decidable (_ ∧ _))

/-- **A new token bucket** is exact precisely if the request fits. -/
theorem tokenBucketNewItem_computes (loc : Location) (now : ℤ) (s : Shard) (hr : Plain r)
    (reqState : RateLimitReqState) :
    Computes (tokenBucketNewItem loc now s r reqState) (NewFits r r.limit)
      (Gubernator.tokenBucketNewItem loc now s r reqState) := by
  have hlimit := hr.limit
  have hduration := hr.duration
  have hcreated := hr.createdAt
  have hhits := hr.hits_le
  have hmax := maxInt64_eq
  unfold Natural at hlimit hduration hcreated
  simp only [tokenBucketNewItem, Gubernator.tokenBucketNewItem, hr.gregorian, Bool.false_eq_true,
    if_false]
  refine Computes.congr (Computes.bind (computes_add _ _) (fun _ =>
    Computes.map _ (computes_sub _ _))) ?_
  unfold NewFits
  omega

/-- **A new leaky bucket**, the reset time apart, which is wrapped and not noted. -/
theorem leakyBucketNewItem_computes (host : Host) (now : ℤ) (s : Shard) (hr : Plain r)
    (reqState : RateLimitReqState) :
    Computes (leakyBucketNewItem host now s r reqState) (NewFits r r.burst)
      ((Gubernator.leakyBucketNewItem host now s r reqState).1.map wrapReset,
        (Gubernator.leakyBucketNewItem host now s r reqState).2) := by
  have hburst := hr.burst
  have hduration := hr.duration
  have hcreated := hr.createdAt
  have hhits := hr.hits_le
  have hmax := maxInt64_eq
  unfold Natural at hburst hduration hcreated
  simp only [leakyBucketNewItem, Gubernator.leakyBucketNewItem, hr.gregorian, hr.maxWait,
    Bool.false_eq_true, if_false, lt_irrefl, false_and]
  refine Computes.congr (Computes.bind (computes_sub _ _) (fun _ =>
    Computes.map _ (computes_add _ _))) ?_
  unfold NewFits
  omega

end Computes

end Wrapped

end Gubernator
