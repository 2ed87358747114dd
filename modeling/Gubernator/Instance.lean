/-
  A peer's own answer to a request (`gubernator.go`, `validateMaxWait` and `getLocalRateLimit`;
  `workers.go`, `handleGetRateLimit`).

  The worker pool hands a request to the one worker that owns its key, which picks the
  algorithm; the channel and the event stream between them are left out.  Error texts are
  wrapped as `errors.Wrap` does.

  `Owner` is the peer as a machine (`Lib/Machine`): its clock, its cache and Store, and the requests
  it answers one after another, with `IsOwner` set.
-/
import Gubernator.Lib.Machine
import Gubernator.TokenBucket
import Gubernator.LeakyBucket

namespace Gubernator

/-! ## The functions

From the request to the algorithm, and back with the answer. -/

/-- `Behaviors.ScheduleMaxWait` is a `time.Duration`, in nanoseconds. -/
structure Config where
  scheduleMaxWait : ℤ
  deriving DecidableEq, Repr

/-- The configured ceiling in milliseconds. -/
def Config.ceiling (conf : Config) : ℤ := conf.scheduleMaxWait.tdiv 1000000

/-- The complaint about a request's `max_wait`, empty when there is none. -/
def validateMaxWait (r : RateLimitReq) : String :=
  if r.maxWait < 0 then "field 'max_wait' cannot be negative"
  else if r.maxWait = 0 then ""
  else if r.algorithm ≠ .leakyBucket then "max_wait is only supported by LEAKY_BUCKET"
  else if hasBehavior r.behavior .global then "max_wait cannot be combined with GLOBAL"
  else if hasBehavior r.behavior .durationIsGregorian then
    "max_wait cannot be combined with DURATION_IS_GREGORIAN"
  else if hasBehavior r.behavior .drainOverLimit then
    "max_wait cannot be combined with DRAIN_OVER_LIMIT"
  else if hasBehavior r.behavior .resetRemaining then
    "max_wait cannot be combined with RESET_REMAINING"
  else if r.hits < 0 then "max_wait cannot be combined with negative hits"
  else ""

/-- `errors.Wrap` -/
def wrapError {α : Type} (msg : String) : Except String α → Except String α
  | .error e => .error (msg ++ ": " ++ e)
  | .ok a => .ok a

/-- `handleGetRateLimit`: the worker picks the algorithm, and tells the leaky bucket the ceiling. -/
def handleGetRateLimit (conf : Config) (host : Host) (now : ℤ) (s : Shard) (r : RateLimitReq)
    (reqState : RateLimitReqState) : Except String RateLimitResp × Shard :=
  match r.algorithm with
  | .tokenBucket =>
    let (result, s') := tokenBucket host.location now s r reqState
    (wrapError "Error in tokenBucket" result, s')
  | .leakyBucket =>
    let (result, s') :=
      leakyBucket host now s r { reqState with waitCeiling := conf.scheduleMaxWait }
    (wrapError "Error in leakyBucket" result, s')
  | .unknown code => (.error s!"Invalid rate limit algorithm '{code}'", s)

/-- The answer, the worker's cache and Store afterwards, and the requests handed to
    `QueueUpdate` for broadcasting. -/
structure LocalOutcome where
  result : Except String RateLimitResp
  shard : Shard
  updates : List RateLimitReq

/-- The request object after the algorithm ran: the leaky bucket fills in the burst. -/
def RateLimitReq.afterwards (r : RateLimitReq) : RateLimitReq :=
  if r.algorithm = .leakyBucket then r.withBurst else r

/-- `getLocalRateLimit`. -/
def getLocalRateLimit (conf : Config) (host : Host) (now : ℤ) (s : Shard) (r : RateLimitReq)
    (reqState : RateLimitReqState) : LocalOutcome :=
  let msg := validateMaxWait r
  -- an older peer may forward a request it did not validate
  if msg ≠ "" then ⟨.ok { error := msg }, s, []⟩
  else
    match handleGetRateLimit conf host now s r reqState with
    | (.error e, s') => ⟨.error ("during workerPool.GetRateLimit: " ++ e), s', []⟩
    | (.ok resp, s') =>
      ⟨.ok resp, s', if hasBehavior r.behavior .global then [r.afterwards] else []⟩

/-! ## What a validated request looks like

And what becomes of it: the layers over an algorithm change its errors and nothing else. -/

/-- A `max_wait` request that passes is a leaky bucket request with no flag but batching ones
    and no refund. -/
theorem validateMaxWait_scheduled {r : RateLimitReq} (h : validateMaxWait r = "")
    (hw : 0 < r.maxWait) :
    r.algorithm = .leakyBucket ∧ hasBehavior r.behavior .global = false ∧
      hasBehavior r.behavior .durationIsGregorian = false ∧
      hasBehavior r.behavior .drainOverLimit = false ∧
      hasBehavior r.behavior .resetRemaining = false ∧ 0 ≤ r.hits := by
  -- every check but the one passed ends in a complaint, which is not empty
  rw [validateMaxWait, if_neg (by omega), if_neg (by omega)] at h
  split at h
  · exact absurd h (by decide)
  rename_i halg
  split at h
  · exact absurd h (by decide)
  rename_i hglobal
  split at h
  · exact absurd h (by decide)
  rename_i hgregorian
  split at h
  · exact absurd h (by decide)
  rename_i hdrain
  split at h
  · exact absurd h (by decide)
  rename_i hreset
  split at h
  · exact absurd h (by decide)
  rename_i hhits
  exact ⟨not_not.mp halg, Bool.eq_false_iff.mpr hglobal, Bool.eq_false_iff.mpr hgregorian,
    Bool.eq_false_iff.mpr hdrain, Bool.eq_false_iff.mpr hreset, not_lt.mp hhits⟩

/-- The wrapped error is the only difference between a worker's answer and its algorithm's. -/
theorem handleGetRateLimit_token (conf : Config) (host : Host) (now : ℤ) (s : Shard)
    {r : RateLimitReq} (reqState : RateLimitReqState) (halg : r.algorithm = .tokenBucket) :
    (handleGetRateLimit conf host now s r reqState).2 =
        (tokenBucket host.location now s r reqState).2 ∧
      ∀ resp, (handleGetRateLimit conf host now s r reqState).1 = .ok resp ↔
        (tokenBucket host.location now s r reqState).1 = .ok resp := by
  simp only [handleGetRateLimit, halg, true_and]
  intro resp
  cases (tokenBucket host.location now s r reqState).1 <;> simp [wrapError]

/-- Likewise for a leaky bucket, under the configured ceiling. -/
theorem handleGetRateLimit_leaky (conf : Config) (host : Host) (now : ℤ) (s : Shard)
    {r : RateLimitReq} (reqState : RateLimitReqState) (halg : r.algorithm = .leakyBucket) :
    (handleGetRateLimit conf host now s r reqState).2 =
        (leakyBucket host now s r { reqState with waitCeiling := conf.scheduleMaxWait }).2 ∧
      ∀ resp, (handleGetRateLimit conf host now s r reqState).1 = .ok resp ↔
        (leakyBucket host now s r { reqState with waitCeiling := conf.scheduleMaxWait }).1 =
          .ok resp := by
  simp only [handleGetRateLimit, halg, true_and]
  intro resp
  cases (leakyBucket host now s r { reqState with waitCeiling := conf.scheduleMaxWait }).1 <;>
    simp [wrapError]

/-- A request that passes validation goes to its algorithm. -/
theorem getLocalRateLimit_valid (conf : Config) (host : Host) (now : ℤ) (s : Shard)
    {r : RateLimitReq} (reqState : RateLimitReqState) (hvalid : validateMaxWait r = "") :
    (getLocalRateLimit conf host now s r reqState).shard =
        (handleGetRateLimit conf host now s r reqState).2 ∧
      ∀ resp, (getLocalRateLimit conf host now s r reqState).result = .ok resp ↔
        (handleGetRateLimit conf host now s r reqState).1 = .ok resp := by
  simp only [getLocalRateLimit, hvalid, ne_eq, not_true_eq_false, if_false]
  rcases handleGetRateLimit conf host now s r reqState with ⟨result, s'⟩
  cases result <;> simp

/-- One that does not is answered with the complaint. -/
theorem getLocalRateLimit_invalid (conf : Config) (host : Host) (now : ℤ) (s : Shard)
    {r : RateLimitReq} (reqState : RateLimitReqState) (hvalid : validateMaxWait r ≠ "") :
    (getLocalRateLimit conf host now s r reqState).result = .ok { error := validateMaxWait r } := by
  simp only [getLocalRateLimit, ne_eq, hvalid, not_false_eq_true, if_true]

/-- A request the owner serves either is turned away by validation, and nothing happens, or runs
    its algorithm. -/
theorem getLocalRateLimit_leaky (conf : Config) (host : Host) (now : ℤ) (s : Shard)
    (r : RateLimitReq) (reqState : RateLimitReqState) (halg : r.algorithm = .leakyBucket) :
    let out := getLocalRateLimit conf host now s r reqState
    let run := leakyBucket host now s r { reqState with waitCeiling := conf.scheduleMaxWait }
    (out.shard = s ∧ ∃ msg, out.result = .ok { error := msg }) ∨
    (validateMaxWait r = "" ∧ out.shard = run.2 ∧
      ((∃ e e', run.1 = .error e ∧ out.result = .error e') ∨
        ∃ resp, run.1 = .ok resp ∧ out.result = .ok resp)) := by
  intro out run
  by_cases hmsg : validateMaxWait r = ""
  · right
    refine ⟨hmsg, ?_⟩
    simp only [out, getLocalRateLimit, handleGetRateLimit, halg, hmsg, ne_eq, not_true_eq_false,
      if_false]
    rcases hrun : run with ⟨result, s'⟩
    simp only [run] at hrun
    cases result with
    | error e => simp [hrun, wrapError]
    | ok resp => simp [hrun, wrapError]
  · left
    simp only [out, getLocalRateLimit, ne_eq, hmsg, not_false_eq_true, if_true]
    exact ⟨trivial, _, rfl⟩

/-! ## The owner as a machine

One request is one step; a run is what `Lib/Machine` makes of a list of them. -/

/-- A peer's clock (nanoseconds, of the last request) with its cache and Store. -/
structure Owner where
  clock : ℤ
  shard : Shard

/-- A request handed to an algorithm at `now`. -/
structure Arrival where
  now : ℤ
  req : RateLimitReq
  reqState : RateLimitReqState
  deriving DecidableEq, Repr

/-- A request the owner answers at `now`. -/
structure Incoming where
  now : ℤ
  req : RateLimitReq
  deriving DecidableEq, Repr

/-- `getLocalRateLimit` on the owner. -/
def Owner.serve (conf : Config) (host : Host) (o : Owner) (i : Incoming) :
    Except String RateLimitResp × Owner :=
  let out := getLocalRateLimit conf host i.now o.shard i.req { isOwner := true }
  (out.result, ⟨i.now, out.shard⟩)

/-- The state `leakyBucket` sees at the owner. -/
def Config.ownerState (conf : Config) : RateLimitReqState :=
  { isOwner := true, waitCeiling := conf.scheduleMaxWait }

/-- The ceiling it sees is the configured one. -/
@[simp] theorem ownerState_ceiling (conf : Config) : conf.ownerState.ceiling = conf.ceiling := rfl

/-- A leaky request the owner answers is turned away by validation, and nothing happens, or is
    one call of `leakyBucket`. -/
theorem serve_leaky (conf : Config) (host : Host) (o : Owner) (i : Incoming)
    (halg : i.req.algorithm = .leakyBucket) :
    ((o.serve conf host i).2.shard = o.shard ∧
      ∃ msg, (o.serve conf host i).1 = .ok { error := msg }) ∨
    (validateMaxWait i.req = "" ∧
      (o.serve conf host i).2.shard =
        (leakyBucket host i.now o.shard i.req conf.ownerState).2 ∧
      ∀ resp, (o.serve conf host i).1 = .ok resp ↔
        (leakyBucket host i.now o.shard i.req conf.ownerState).1 = .ok resp) := by
  rcases getLocalRateLimit_leaky conf host i.now o.shard i.req { isOwner := true } halg with
    ⟨hs, msg, hr⟩ | ⟨hvalid, hs, ⟨e, e', hrun, hr⟩ | ⟨resp, hrun, hr⟩⟩
  · exact .inl ⟨hs, msg, hr⟩
  · refine .inr ⟨hvalid, hs, fun resp => ?_⟩
    show (getLocalRateLimit conf host i.now o.shard i.req { isOwner := true }).result = _ ↔
      (leakyBucket host i.now o.shard i.req
        { isOwner := true, waitCeiling := conf.scheduleMaxWait }).1 = _
    rw [hr, hrun]
    simp
  · refine .inr ⟨hvalid, hs, fun resp => ?_⟩
    show (getLocalRateLimit conf host i.now o.shard i.req { isOwner := true }).result = _ ↔
      (leakyBucket host i.now o.shard i.req
        { isOwner := true, waitCeiling := conf.scheduleMaxWait }).1 = _
    rw [hr, hrun]

end Gubernator
