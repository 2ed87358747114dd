/-
  The data model: requests, responses and bucket items (`gubernator.proto`, `store.go`,
  `cache.go`), behaviour flags (`gubernator.go`).

  `int64` is read as an unbounded integer and `float64` as an exact float.  A request's
  `metadata` map and a response's `metadata` map are left out: no modelled function reads them.
  `created_at` is an optional field that every entry point fills in when it is absent or `0`, so
  it is an integer here, with `0` for "absent".

  Where a sum that wraps is part of what is claimed, it wraps in the model: the merged hits of
  GLOBAL (`aggregateHit`) and the buckets on machine integers (`Wrapped`).
-/
import Gubernator.Lib.ExactFloat

namespace Gubernator

/-! ## Behaviour flags

Only the flags that a modelled function sets or tests are named. -/

/-- A set of flags, as the `int32` it is on the wire. -/
abbrev Behavior := BitVec 32

namespace Behavior

def noBatching : Behavior := 1
def global : Behavior := 2
def durationIsGregorian : Behavior := 4
def resetRemaining : Behavior := 8
def drainOverLimit : Behavior := 32

end Behavior

/-- `HasBehavior`: some bit of the flag is set. -/
def hasBehavior (b flag : Behavior) : Bool := b &&& flag != 0

/-- `SetBehavior`. Clearing goes by a mask, `b ^ flag`, which also sets a bit that was not set; the
    `and` takes it out again. -/
def setBehavior (b flag : Behavior) (set : Bool) : Behavior :=
  if set then b ||| flag else b &&& (b ^^^ flag)

/-! ## Requests and responses

The messages of `gubernator.proto`, with the defaults of its fields. -/

/-- `unknown` stands for the codes the enum does not name; a peer can still receive them. -/
inductive Algorithm where
  | tokenBucket
  | leakyBucket
  | unknown (code : ℤ)
  deriving DecidableEq, Repr

/-- `neverFits` and `scheduled` are answers to requests with `max_wait` only. -/
inductive Status where
  | underLimit
  | overLimit
  | neverFits
  | scheduled
  deriving DecidableEq, Repr

/-- A request. `duration` is in milliseconds, or the code of a calendar interval. -/
structure RateLimitReq where
  name : String
  uniqueKey : String
  hits : ℤ
  limit : ℤ
  duration : ℤ
  algorithm : Algorithm
  behavior : Behavior
  burst : ℤ
  createdAt : ℤ
  maxWait : ℤ
  deriving DecidableEq, Repr

/-- `HashKey`. Two pairs of names can have one key: nothing keeps `_` out of a name. -/
def RateLimitReq.hashKey (r : RateLimitReq) : String := r.name ++ "_" ++ r.uniqueKey

/-- A leaky-bucket request on the key `requests_account:1`, for runs on fixed inputs. -/
def RateLimitReq.sample (hits limit duration burst createdAt maxWait : ℤ) : RateLimitReq where
  name := "requests"
  uniqueKey := "account:1"
  hits := hits
  limit := limit
  duration := duration
  algorithm := .leakyBucket
  behavior := 0
  burst := burst
  createdAt := createdAt
  maxWait := maxWait

/-- A response. `resetTime` is a time, `retryAfter` a length of time, both in milliseconds. -/
structure RateLimitResp where
  status : Status := .underLimit
  limit : ℤ := 0
  remaining : ℤ := 0
  resetTime : ℤ := 0
  error : String := ""
  retryAfter : ℤ := 0
  deriving DecidableEq, Repr

/-- `waitCeiling` is a `time.Duration`, in nanoseconds. -/
structure RateLimitReqState where
  isOwner : Bool
  waitCeiling : ℤ := 0
  deriving DecidableEq, Repr

/-- `Duration.Milliseconds` of the wait ceiling. -/
def RateLimitReqState.ceiling (st : RateLimitReqState) : ℤ := st.waitCeiling.tdiv 1000000

/-! ## Bucket items

What cache and Store keep of a bucket. -/

/-- A leaky bucket. The balance is a float, since it leaks in between two whole tokens. -/
structure LeakyBucketItem where
  limit : ℤ
  duration : ℤ
  remaining : ExactFloat
  updatedAt : ℤ
  burst : ℤ
  deriving DecidableEq, Repr

/-- A token bucket, with the status of its last decision. -/
structure TokenBucketItem where
  status : Status := .underLimit
  limit : ℤ
  duration : ℤ
  remaining : ℤ
  createdAt : ℤ
  deriving DecidableEq, Repr

/-- What a cache item's `Value` can hold (`none` for the nil the algorithms guard against). -/
inductive Bucket where
  | token (t : TokenBucketItem)
  | leaky (b : LeakyBucketItem)
  deriving DecidableEq, Repr

/-- An entry of the cache. `invalidAt` is zero unless a Store has set it. -/
structure CacheItem where
  algorithm : Algorithm
  key : String
  value : Option Bucket
  expireAt : ℤ
  invalidAt : ℤ := 0
  deriving DecidableEq, Repr

/-! ## Flags after `setBehavior`

A flag that is set or cleared reads so, and the others read as before. -/

/-- A flag that is cleared is not set. -/
theorem hasBehavior_clear_self (b flag : Behavior) :
    hasBehavior (setBehavior b flag false) flag = false := by
  have hand : (b &&& (b ^^^ flag)) &&& flag = 0#32 := by
    ext i hi
    simp only [BitVec.getElem_and, BitVec.getElem_xor, BitVec.getElem_zero]
    cases b[i] <;> cases flag[i] <;> rfl
  simp [hasBehavior, setBehavior, hand]

/-- A flag that is set is set. -/
theorem hasBehavior_set_self (b : Behavior) {flag : Behavior} (h : flag ≠ 0) :
    hasBehavior (setBehavior b flag true) flag = true := by
  have hand : (b ||| flag) &&& flag = flag := by
    ext i hi
    simp only [BitVec.getElem_and, BitVec.getElem_or]
    cases b[i] <;> cases flag[i] <;> rfl
  simp only [hasBehavior, setBehavior, if_true, hand, bne_iff_ne]
  exact h

/-- Setting or clearing one flag leaves a flag that shares no bit with it alone. -/
theorem hasBehavior_set_of_disjoint {b flag other : Behavior} (h : flag &&& other = 0)
    (set : Bool) : hasBehavior (setBehavior b flag set) other = hasBehavior b other := by
  -- bit by bit, no bit is in both flags
  have hbit : ∀ i (hi : i < 32), (flag[i] && other[i]) = false := by
    intro i hi
    have := congrArg (fun v : BitVec 32 => v[i]) h
    simpa using this
  have hand : setBehavior b flag set &&& other = b &&& other := by
    ext i hi
    have hf := hbit i hi
    cases set
    · simp only [setBehavior, Bool.false_eq_true, if_false, BitVec.getElem_and, BitVec.getElem_xor]
      revert hf
      cases b[i] <;> cases flag[i] <;> cases other[i] <;> decide
    · simp only [setBehavior, if_true, BitVec.getElem_and, BitVec.getElem_or]
      revert hf
      cases b[i] <;> cases flag[i] <;> cases other[i] <;> decide
  simp [hasBehavior, hand]

end Gubernator
