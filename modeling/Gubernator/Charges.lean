/-
  WHAT A REQUEST TAKES from the bucket it finds.

  A query — the same request without its hits — brings the bucket up to date and takes nothing.
  So the tokens a request takes are the difference of two runs on one state: the request's and its
  query's.  Both algorithms adjust limit, duration, burst and expiry BEFORE they look at the hits
  (`setLimit`, `setDuration`; `leakyTerms`, `credited`), which is why the two runs meet in the same
  bucket, and the rest is one decision on it (`takeHits`; `charge`).

  The second half is about DRAIN_OVER_LIMIT, which makes a refusal take what there is.

  That a query is the right thing to compare with is a fact about the code, not a convention:
  `ChargedIfGranted.terms` says that request and query leave the same limit, duration, burst and
  time stamp, so the balances are comparable.
-/
import Gubernator.KeyView
import Gubernator.Leaky.Query
import Gubernator.Leaky.Table

namespace Gubernator

open ExactFloat

/-! ## The two runs

A leaky balance can be minus infinity, at a rate of `-0`; the comparison is by `Near`, which covers
it. -/

/-- The same request without its hits. -/
def RateLimitReq.query (r : RateLimitReq) : RateLimitReq := { r with hits := 0 }

/-- The bucket cached under a key. -/
def Shard.bucket (s : Shard) (key : String) : Option Bucket :=
  (s.cache.peek key).bind CacheItem.value

/-- The tokens a bucket holds. -/
def Bucket.balance : Bucket → ExactFloat
  | .token t => .ofInt t.remaining
  | .leaky b => b.remaining

/-- What a bucket holds beside its tokens and its last decision: limit, duration, burst and time
    stamp. -/
def Bucket.terms : Bucket → Bucket
  | .token t => .token { t with remaining := 0, status := .underLimit }
  | .leaky b => .leaky { b with remaining := 0 }

/-- The algorithm a bucket is of. -/
def Bucket.algorithm : Bucket → Algorithm
  | .token _ => .tokenBucket
  | .leaky _ => .leakyBucket

/-- **Charged exactly when granted**: `queried` is the bucket the query leaves, `left` the one the
    request leaves. -/
structure ChargedIfGranted (r : RateLimitReq) (status : Status) (queried left : Bucket) :
    Prop where
  /-- the terms are the query's -/
  terms : left.terms = queried.terms
  /-- hits let in or booked are taken off, up to `1e-9` tokens -/
  granted : status = .underLimit ∨ status = .scheduled →
    Near left.balance (queried.balance - .ofInt r.hits)
  /-- and exactly, but where a leaky bucket snaps what is left -/
  exactly : status = .scheduled ∨ status = .underLimit ∧ r.algorithm = .tokenBucket →
    left.balance = queried.balance - .ofInt r.hits
  /-- refused hits are not taken -/
  refused : status = .overLimit ∨ status = .neverFits → left.balance = queried.balance

/-- A valid request has a valid query. -/
theorem validateMaxWait_query {r : RateLimitReq} (h : validateMaxWait r = "") :
    validateMaxWait r.query = "" := by
  by_cases hwait : 0 < r.maxWait
  · obtain ⟨halg, hglobal, hgreg, hdrain, hreset, -⟩ := validateMaxWait_scheduled h hwait
    simp only [validateMaxWait, RateLimitReq.query, halg, hglobal, hgreg, hdrain, hreset]
    rw [if_neg (by omega)]
    simp
  · unfold validateMaxWait at h ⊢
    split at h
    · exact absurd h (by decide)
    · rename_i hneg
      have hzero : r.query.maxWait = 0 := by
        show r.maxWait = 0
        omega
      rw [if_neg (by omega), if_pos hzero]

/-! ## The token bucket

A token bucket takes the hits exactly or not at all, so for it the comparison has no tolerance. -/

/-- The decision on a bucket brought up to date. -/
theorem takeHits_charged {r : RateLimitReq} (hhits : 0 < r.hits)
    (hdrain : hasBehavior r.behavior .drainOverLimit = false) (t : TokenBucketItem)
    (expireAt : ℤ) :
    ChargedIfGranted r (takeHits r t expireAt).1.status (.token (takeHits r.query t expireAt).2)
      (.token (takeHits r t expireAt).2) := by
  -- the query may set the stored status, which is not one of the terms
  have hquery : (takeHits r.query t expireAt).2.remaining = t.remaining ∧
      (Bucket.token (takeHits r.query t expireAt).2).terms = (Bucket.token t).terms := by
    simp only [takeHits, RateLimitReq.query, if_true]
    split <;> exact ⟨rfl, rfl⟩
  have hterms : (Bucket.token (takeHits r t expireAt).2).terms = (Bucket.token t).terms := by
    unfold takeHits
    repeat' split
    all_goals rfl
  -- the balance is decided by the status alone
  have hbalance : ((takeHits r t expireAt).1.status = .underLimit ∧
        (takeHits r t expireAt).2.remaining = t.remaining - r.hits) ∨
      ((takeHits r t expireAt).1.status = .overLimit ∧
        (takeHits r t expireAt).2.remaining = t.remaining) := by
    unfold takeHits
    rw [if_neg (by omega)]
    split
    · exact .inr ⟨rfl, rfl⟩
    split
    · rename_i heq
      exact .inl ⟨rfl, by simp [heq]⟩
    split
    · rw [hdrain]
      exact .inr ⟨rfl, rfl⟩
    · exact .inl ⟨rfl, rfl⟩
  have hexact : (takeHits r t expireAt).1.status = .underLimit →
      (Bucket.token (takeHits r t expireAt).2).balance =
        (Bucket.token (takeHits r.query t expireAt).2).balance - .ofInt r.hits := by
    intro hstatus
    rcases hbalance with ⟨-, hrem⟩ | ⟨hover, -⟩
    · simp only [Bucket.balance, hrem, hquery.1, ofInt_eq, fin_sub_fin, Int.cast_sub]
    · simp [hover] at hstatus
  have hnot : (takeHits r t expireAt).1.status ≠ .scheduled := by
    rcases hbalance with ⟨h, -⟩ | ⟨h, -⟩ <;> simp [h]
  -- the four fields
  refine ⟨hterms.trans hquery.2.symm, fun h => ?_, fun h => ?_, fun h => ?_⟩
  · rw [hexact (h.resolve_right hnot)]
    simp only [Bucket.balance, ofInt_eq, fin_sub_fin]
    exact near_refl _
  · rcases h with h | ⟨h, -⟩
    · exact absurd h hnot
    · exact hexact h
  · rcases hbalance with ⟨hunder, -⟩ | ⟨-, hrem⟩
    · simp [hunder] at h
    · simp only [Bucket.balance, hrem, hquery.1]

/-- Limit and duration are adopted before the hits are looked at. -/
theorem tokenBucketItem_charged {loc : Calendar.Location} {now : ℤ} {r : RateLimitReq}
    {t : TokenBucketItem} {x : ℤ} (hhits : 0 < r.hits)
    (hdrain : hasBehavior r.behavior .drainOverLimit = false) {resp : RateLimitResp}
    (hok : (tokenBucketItem loc now r t x).result = .ok resp) :
    ChargedIfGranted r resp.status (.token (tokenBucketItem loc now r.query t x).bucket)
      (.token (tokenBucketItem loc now r t x).bucket) := by
  obtain ⟨t₂, x₂, hset, rfl⟩ := tokenBucketItem_ok hok
  have hquery : setDuration loc now r.query (t.setLimit r.query.limit) x = .ok (t₂, x₂) := hset
  rw [tokenBucketItem_of_setDuration hset, tokenBucketItem_of_setDuration hquery]
  exact takeHits_charged hhits hdrain t₂ x₂

/-! ## The leaky bucket

A leaky bucket may snap what is left to zero, so what is taken is the hits up to `1e-9`.  A booking
is not snapped. -/

/-- The credited balance does not depend on the hits. -/
theorem credited_query (r : RateLimitReq) (tm : LeakyTerms) (b : LeakyBucketItem) :
    credited r.query tm b = credited r tm b := rfl

/-- The default burst is filled in whatever the hits are. -/
theorem withBurst_query (r : RateLimitReq) : r.query.withBurst = r.withBurst.query := by
  by_cases h : r.burst = 0
  · have hquery : r.query.burst = 0 := h
    rw [RateLimitReq.withBurst, RateLimitReq.withBurst, if_pos h, if_pos hquery]
    rfl
  · have hquery : r.query.burst ≠ 0 := h
    rw [RateLimitReq.withBurst, RateLimitReq.withBurst, if_neg h, if_neg hquery]

/-- What `scheduleHits` takes. -/
theorem scheduleHits_takes (host : Host) (x : ℤ) (b : LeakyBucketItem) (r : RateLimitReq)
    (reqState : RateLimitReqState) {rl : RateLimitResp} (hrl : rl.status = .underLimit)
    (now duration : ℤ) (rate : ExactFloat) (wasInDebt : Bool) :
    let out := scheduleHits host x b r reqState rl now duration rate wasInDebt
    (out.resp.status = .underLimit ∧
        out.b.remaining = snapToZero (b.remaining - .ofInt r.hits)) ∨
      (out.resp.status = .scheduled ∧ out.b.remaining = b.remaining - .ofInt r.hits) ∨
      ((out.resp.status = .overLimit ∨ out.resp.status = .neverFits) ∧
        out.b.remaining = b.remaining) := by
  unfold scheduleHits
  dsimp only
  split
  · exact .inr (.inr ⟨.inr rfl, rfl⟩)
  split
  · exact .inl ⟨hrl, rfl⟩
  split
  · exact .inr (.inr ⟨.inl rfl, rfl⟩)
  · exact .inr (.inl ⟨rfl, rfl⟩)

/-- What a request for hits takes from a credited bucket. -/
theorem charge_takes (host : Host) (x : ℤ) {b : LeakyBucketItem} {r : RateLimitReq}
    (reqState : RateLimitReqState) (tm : LeakyTerms) (rate : ExactFloat)
    (hb : (∃ y : ℚ, b.remaining = .fin y ∧ y ≤ b.burst) ∨ b.remaining = .inf true)
    (hhits : 0 < r.hits) (hdrain : hasBehavior r.behavior .drainOverLimit = false) :
    let out := charge host x b r reqState tm rate
    (out.resp.status = .underLimit ∧
        out.b.remaining = snapToZero (b.remaining - .ofInt r.hits)) ∨
      (out.resp.status = .scheduled ∧ out.b.remaining = b.remaining - .ofInt r.hits) ∨
      ((out.resp.status = .overLimit ∨ out.resp.status = .neverFits) ∧
        out.b.remaining = b.remaining) := by
  -- hits only lower a balance that is at most the burst, so the cut is idle
  have hmin : ExactFloat.min (.ofInt b.burst) (b.remaining - .ofInt r.hits) =
      b.remaining - .ofInt r.hits := by
    rcases hb with ⟨y, hy, hburst⟩ | hinf
    · have hpos : (0 : ℚ) < r.hits := by exact_mod_cast hhits
      rw [hy, ofInt_eq, ofInt_eq, fin_sub_fin, min_fin, min_eq_right (by linarith)]
    · rw [hinf, ofInt_eq, ofInt_eq, inf_sub_fin, min_fin_negInf]
  unfold charge
  dsimp only
  rw [if_neg (by omega)]
  split
  · -- a request that may wait
    exact scheduleHits_takes host x b r reqState rfl _ _ rate _
  rw [if_neg (by omega)]
  split
  · -- refused, and not drained
    rw [hdrain]
    exact .inr (.inr ⟨.inl rfl, rfl⟩)
  · left
    rw [hmin]
    exact ⟨rfl, rfl⟩

/-- Snapping a balance moves it by less than `1e-9`. -/
theorem near_snapToZero {b : LeakyBucketItem} {hits : ℤ}
    (hb : (∃ y : ℚ, b.remaining = .fin y ∧ y ≤ b.burst) ∨ b.remaining = .inf true) :
    Near (snapToZero (b.remaining - .ofInt hits)) (b.remaining - .ofInt hits) := by
  rcases hb with ⟨y, hy, -⟩ | hinf
  · rw [hy, ofInt_eq, fin_sub_fin, snapToZero_fin, near_fin]
    exact (abs_snap_sub_lt _).le
  · rw [hinf, ofInt_eq, inf_sub_fin, show snapToZero (.inf true) = .inf true by decide +kernel]
    exact near_negInf

/-- **One request on a found leaky bucket**, against its query. -/
theorem leakyBucketItem_chargedIfGranted {host : Host} {now : ℤ} {r : RateLimitReq}
    {reqState : RateLimitReqState} {b : LeakyBucketItem} {x : ℤ} {q : ℚ}
    (hq : b.remaining = .fin q) (halg : r.algorithm = .leakyBucket) (hhits : 0 < r.hits)
    (hdrain : hasBehavior r.behavior .drainOverLimit = false) {out : LeakyOutcome}
    (hout : leakyBucketItem host now r reqState b x = .ok out) :
    ∃ out₀, leakyBucketItem host now r.query reqState b x = .ok out₀ ∧
      ChargedIfGranted r out.resp.status (.leaky out₀.b) (.leaky out.b) := by
  obtain ⟨tm, htm, rfl⟩ := leakyBucketItem_ok hout
  have hquery := leakyBucketItem_query (r := r.query) rfl htm reqState x
  rw [credited_query] at hquery
  refine ⟨_, hquery, ?_⟩
  rw [(deferredExpiry_fields _ _ _ _).1, (deferredExpiry_fields _ _ _ _).2.1,
    (deferredExpiry_fields _ _ _ _).2.1]
  -- a rational balance is credited to one, or leaks away without end
  have hb : (∃ y : ℚ, (credited r tm b).remaining = .fin y ∧ y ≤ (credited r tm b).burst) ∨
      (credited r tm b).remaining = .inf true := credited_shape htm hq
  set c := credited r tm b
  set out := charge host (touchedExpiry r tm x) c r reqState tm (chargeRate tm c) with hcharge
  have hterms : out.b = { c with remaining := out.b.remaining } := charge_b ..
  have htakes := charge_takes host (touchedExpiry r tm x) reqState tm (chargeRate tm c) hb hhits
    hdrain
  rw [← hcharge] at htakes
  refine ⟨?_, fun h => ?_, fun h => ?_, fun h => ?_⟩
  · rw [hterms]
    rfl
  · rcases htakes with ⟨-, hrem⟩ | ⟨-, hrem⟩ | ⟨hs, -⟩
    · simp only [Bucket.balance, hrem]
      exact near_snapToZero hb
    · simp only [Bucket.balance, hrem]
      rcases hb with ⟨y, hy, -⟩ | hinf
      · rw [hy, ofInt_eq, fin_sub_fin]
        exact near_refl _
      · rw [hinf, ofInt_eq, inf_sub_fin]
        exact near_negInf
    · rcases h with h | h <;> rcases hs with hs | hs <;> simp [hs] at h
  · rcases htakes with ⟨hs, -⟩ | ⟨-, hrem⟩ | ⟨hs, -⟩
    · simp [hs, halg] at h
    · exact hrem
    · rcases hs with hs | hs <;> simp [hs] at h
  · rcases htakes with ⟨hs, -⟩ | ⟨hs, -⟩ | ⟨-, hrem⟩
    · simp [hs] at h
    · simp [hs] at h
    · exact hrem

/-! ## Charged exactly when granted

Up to `getLocalRateLimit`: validation passes both runs, and the worker hands both to the algorithm
of the item. -/

/-- Hits and algorithm are not touched by the default burst. -/
theorem ChargedIfGranted.withBurst {r : RateLimitReq} {status : Status} {queried left : Bucket}
    (h : ChargedIfGranted r.withBurst status queried left) :
    ChargedIfGranted r status queried left := by
  obtain ⟨hterms, hgranted, hexactly, hrefused⟩ := h
  rw [withBurst_algorithm] at hexactly
  rw [withBurst_hits] at hgranted hexactly
  exact ⟨hterms, hgranted, hexactly, hrefused⟩

/-- The bucket of a cached item. -/
theorem bucket_of_peek {s : Shard} {key : String} {item : CacheItem} {v : Bucket}
    (hpeek : s.cache.peek key = some item) (hvalue : item.value = some v) :
    s.bucket key = some v := by
  rw [Shard.bucket, hpeek]
  exact hvalue

/-- **A request is charged exactly when it is granted.**  Whatever it changes of the terms, the
    bucket it leaves is its query's with the hits taken off if it was let in or booked, and with
    nothing taken off if it was refused. -/
theorem charged_iff_granted (conf : Config) (host : Host) (now : ℤ) (s : Shard)
    (r : RateLimitReq) (reqState : RateLimitReqState) {item : CacheItem} {v : Bucket}
    (hfind : s.find (epochMillis now) r = some (item, v)) (halg : v.algorithm = r.algorithm)
    (hrational : ∀ b, v = .leaky b → ∃ q, b.remaining = .fin q) (hhits : 0 < r.hits)
    (hdrain : hasBehavior r.behavior .drainOverLimit = false)
    (hreset : hasBehavior r.behavior .resetRemaining = false) (hvalid : validateMaxWait r = "")
    (resp : RateLimitResp)
    (hok : (getLocalRateLimit conf host now s r reqState).result = .ok resp) :
    ∃ queried left,
      (getLocalRateLimit conf host now s r.query reqState).shard.bucket r.hashKey = some queried ∧
      (getLocalRateLimit conf host now s r reqState).shard.bucket r.hashKey = some left ∧
      ChargedIfGranted r resp.status queried left := by
  obtain ⟨hshard, hresult⟩ := getLocalRateLimit_valid conf host now s reqState hvalid
  obtain ⟨hshard₀, -⟩ := getLocalRateLimit_valid conf host now s reqState
    (validateMaxWait_query hvalid)
  rw [hresult] at hok
  rw [hshard, hshard₀]
  -- the query finds what the request finds
  have hfind₀ : s.find (epochMillis now) r.query = some (item, v) := hfind
  cases v with
  | token t =>
    obtain ⟨hs, hr⟩ := handleGetRateLimit_token conf host now s reqState halg.symm
    obtain ⟨hs₀, -⟩ := handleGetRateLimit_token (r := r.query) conf host now s reqState halg.symm
    obtain ⟨hres, hpeek⟩ := tokenBucket_found host.location reqState hfind hreset
    obtain ⟨-, hpeek₀⟩ := tokenBucket_found host.location reqState hfind₀ hreset
    rw [hr, hres] at hok
    rw [hs, hs₀]
    exact ⟨_, _, bucket_of_peek hpeek₀ rfl, bucket_of_peek hpeek rfl,
      tokenBucketItem_charged hhits hdrain hok⟩
  | leaky b =>
    obtain ⟨q, hq⟩ := hrational b rfl
    obtain ⟨hs, hr⟩ := handleGetRateLimit_leaky conf host now s reqState halg.symm
    obtain ⟨hs₀, -⟩ := handleGetRateLimit_leaky (r := r.query) conf host now s reqState halg.symm
    rw [hr] at hok
    rw [hs, hs₀]
    obtain ⟨out, hout, rfl, hpeek⟩ := leakyBucket_found hfind hok
    obtain ⟨out₀, hout₀, hcharged⟩ := leakyBucketItem_chargedIfGranted hq
      (r := r.withBurst) ((withBurst_algorithm r).trans halg.symm) (by simpa using hhits)
      (by simpa using hdrain) hout
    rw [← withBurst_query] at hout₀
    obtain ⟨-, hpeek₀⟩ := leakyBucket_of_item hfind₀ hout₀
    refine ⟨_, _, bucket_of_peek hpeek₀ rfl, bucket_of_peek hpeek rfl, hcharged.withBurst⟩

/-- Two hits booked behind a debt of one token. -/
theorem charged_iff_granted_debt :
    ∃ queried left,
      (getLocalRateLimit ⟨1000000000⟩ Host.amd64 5000000 indebtedShard
        (RateLimitReq.sample 2 10 1000 0 5 300).query { isOwner := true }).shard.bucket
          "requests_account:1" = some queried ∧
      (getLocalRateLimit ⟨1000000000⟩ Host.amd64 5000000 indebtedShard (.sample 2 10 1000 0 5 300)
        { isOwner := true }).shard.bucket "requests_account:1" = some left ∧
      ChargedIfGranted (.sample 2 10 1000 0 5 300) .scheduled queried left :=
  charged_iff_granted ⟨1000000000⟩ Host.amd64 5000000 indebtedShard (.sample 2 10 1000 0 5 300)
    { isOwner := true } indebtedShard_find rfl
    (by
      intro b hb
      exact ⟨-1, by rw [← Bucket.leaky.inj hb]⟩)
    (by decide) (by decide) (by decide) (by decide)
    { status := .scheduled, limit := 10, remaining := 0, resetTime := 1305, retryAfter := 300 }
    (by decide +kernel)

/-! ## A refusal that drains

The exception is `tokenBucketNewItem`: it has no branch for the flag, where `leakyBucketNewItem`
empties the bucket of every refused request, flagged or not. -/

/-- The answer says that nothing is left, and nothing is. -/
def Drained (resp : RateLimitResp) (left : Option Bucket) : Prop :=
  resp.remaining = 0 ∧ ∃ v, left = some v ∧ v.balance ≤ 0

/-- For a token bucket, in integers. -/
theorem drained_token {resp : RateLimitResp} {t : TokenBucketItem} :
    Drained resp (some (.token t)) ↔ resp.remaining = 0 ∧ t.remaining ≤ 0 := by
  simp only [Drained, Option.some.injEq, exists_eq_left', Bucket.balance, ofInt_eq, zero_eq_fin,
    fin_le_fin]
  norm_cast

/-- A found token bucket is drained, or was empty already. -/
theorem takeHits_drains {r : RateLimitReq} (hhits : 0 < r.hits)
    (hdrain : hasBehavior r.behavior .drainOverLimit = true) (t : TokenBucketItem) (x : ℤ)
    (hover : (takeHits r t x).1.status = .overLimit) :
    Drained (takeHits r t x).1 (some (.token (takeHits r t x).2)) := by
  rw [drained_token]
  unfold takeHits at hover ⊢
  rw [if_neg (by omega)] at hover ⊢
  split at hover
  · -- empty already, and refused as such
    rename_i hempty
    rw [if_pos hempty]
    exact ⟨hempty.1, hempty.1.le⟩
  rename_i hsome
  rw [if_neg hsome]
  split at hover
  · cases hover
  rename_i hne
  rw [if_neg hne]
  split at hover
  · -- short of the hits: this is the branch that looks at the flag
    rename_i hshort
    rw [if_pos hshort, if_pos hdrain]
    exact ⟨rfl, le_rfl⟩
  · cases hover

/-- A token bucket that is created takes the hits or none. -/
theorem tokenBucketNewItem_left {loc : Calendar.Location} {now : ℤ} {s : Shard} {r : RateLimitReq}
    {reqState : RateLimitReqState} {resp : RateLimitResp}
    (hok : (tokenBucketNewItem loc now s r reqState).1 = .ok resp) :
    resp.status = (if r.limit < r.hits then .overLimit else .underLimit) ∧
      resp.remaining = (newTokenBucket r).remaining ∧
      (tokenBucketNewItem loc now s r reqState).2.bucket r.hashKey =
        some (.token (newTokenBucket r)) := by
  unfold tokenBucketNewItem at hok ⊢
  dsimp only at hok ⊢
  -- creation fails only on a Gregorian duration that is none
  split at hok
  · cases hok
  obtain rfl := Except.ok.inj hok
  refine ⟨by simp only [decide_eq_true_eq], by simp only [decide_eq_true_eq, newTokenBucket],
    bucket_of_peek (Cache.peek_add_self _ _) ?_⟩
  simp only [decide_eq_true_eq, newTokenBucket]

/-- **Creation does not drain**: a first request for more than the limit is refused and leaves a
    full bucket. -/
theorem tokenBucketNewItem_drained_iff {loc : Calendar.Location} {now : ℤ} {s : Shard}
    {r : RateLimitReq} {reqState : RateLimitReqState} {resp : RateLimitResp}
    (hok : (tokenBucketNewItem loc now s r reqState).1 = .ok resp)
    (hover : resp.status = .overLimit) :
    Drained resp ((tokenBucketNewItem loc now s r reqState).2.bucket r.hashKey) ↔ r.limit = 0 := by
  obtain ⟨hstatus, hremaining, hbucket⟩ := tokenBucketNewItem_left hok
  have hrefused : r.limit < r.hits := by
    by_contra hle
    rw [if_neg hle, hover] at hstatus
    cases hstatus
  have hfull : (newTokenBucket r).remaining = r.limit := if_pos hrefused
  rw [hbucket, drained_token, hremaining, hfull]
  omega

/-- A found leaky bucket is drained, or was empty already. -/
theorem charge_drains {host : Host} {x : ℤ} {b : LeakyBucketItem} {r : RateLimitReq}
    {reqState : RateLimitReqState} {tm : LeakyTerms} {rate : ExactFloat}
    (hb : (∃ y : ℚ, b.remaining = .fin y ∧ y ≤ b.burst) ∨ b.remaining = .inf true)
    (hhits : 0 < r.hits) (hwait : ¬ 0 < r.maxWait)
    (hdrain : hasBehavior r.behavior .drainOverLimit = true)
    (hover : (charge host x b r reqState tm rate).resp.status = .overLimit) :
    Drained (charge host x b r reqState tm rate).resp
      (some (.leaky (charge host x b r reqState tm rate).b)) := by
  unfold charge at hover ⊢
  dsimp only at hover ⊢
  rw [if_neg (by omega), if_neg hwait, if_neg (by omega)] at hover ⊢
  split at hover
  · rename_i hshort
    rw [if_pos hshort, if_pos hdrain]
    refine ⟨rfl, _, rfl, ?_⟩
    show ExactFloat.min b.remaining 0 ≤ 0
    -- a debt is left as it is, and is not positive either
    rcases hb with ⟨y, hy, -⟩ | hinf
    · rw [hy, zero_eq_fin, min_fin, fin_le_fin]
      exact min_le_right _ _
    · rw [hinf]
      decide +kernel
  · cases hover

/-- A leaky bucket that is created by a refused request is empty. -/
theorem leakyBucketNewItem_drains {host : Host} {now : ℤ} {s : Shard} {r : RateLimitReq}
    {reqState : RateLimitReqState} {resp : RateLimitResp}
    (hok : (leakyBucketNewItem host now s r reqState).1 = .ok resp)
    (hover : resp.status = .overLimit) :
    Drained resp ((leakyBucketNewItem host now s r reqState).2.bucket r.hashKey) := by
  unfold leakyBucketNewItem at hok ⊢
  dsimp only at hok ⊢
  split at hok
  · cases hok
  -- a request that never fits creates nothing, and is not over the limit
  split at hok
  · obtain rfl := Except.ok.inj hok
    cases hover
  rename_i hfits
  obtain rfl := Except.ok.inj hok
  have hrefused : r.burst < r.hits := by
    by_contra hle
    simp [hle] at hover
  rw [if_neg hfits]
  simp only [hrefused, decide_true, if_true]
  refine ⟨rfl, _, bucket_of_peek (Cache.peek_add_self _ _) rfl, ?_⟩
  show ExactFloat.ofInt 0 ≤ 0
  decide +kernel

/-- A token bucket request: everything but creation drains. -/
theorem tokenBucket_drained_iff {loc : Calendar.Location} {now : ℤ} {s : Shard} {r : RateLimitReq}
    {reqState : RateLimitReqState} (hhits : 0 < r.hits)
    (hdrain : hasBehavior r.behavior .drainOverLimit = true)
    (hreset : hasBehavior r.behavior .resetRemaining = false) {resp : RateLimitResp}
    (hok : (tokenBucket loc now s r reqState).1 = .ok resp) (hover : resp.status = .overLimit) :
    Drained resp ((tokenBucket loc now s r reqState).2.bucket r.hashKey) ↔
      r.limit = 0 ∨ ∃ item t, s.find (epochMillis now) r = some (item, .token t) := by
  -- nothing found, a token bucket, a leaky bucket in its place
  rcases hfind : s.find (epochMillis now) r with _ | ⟨item, t | b⟩
  · simp only [tokenBucket, hfind] at hok ⊢
    rw [tokenBucketNewItem_drained_iff hok hover]
    simp
  · obtain ⟨hres, hpeek⟩ := tokenBucket_found loc reqState hfind hreset
    rw [hres] at hok
    obtain ⟨t₂, x₂, hset, rfl⟩ := tokenBucketItem_ok hok
    rw [tokenBucketItem_of_setDuration hset] at hpeek
    rw [bucket_of_peek hpeek rfl]
    exact iff_of_true (takeHits_drains hhits hdrain t₂ x₂ hover) (.inr ⟨item, t, rfl⟩)
  · simp only [tokenBucket, hfind, hreset, Bool.false_eq_true, if_false] at hok ⊢
    rw [tokenBucketNewItem_drained_iff hok hover]
    simp

/-- A leaky bucket request always drains. -/
theorem leakyBucket_drains {host : Host} {now : ℤ} {s : Shard} {r : RateLimitReq}
    {reqState : RateLimitReqState} (hhits : 0 < r.hits) (hwait : ¬ 0 < r.maxWait)
    (hdrain : hasBehavior r.behavior .drainOverLimit = true)
    (hstate : ∀ item b, s.find (epochMillis now) r = some (item, .leaky b) →
      ∃ q, b.remaining = .fin q) {resp : RateLimitResp}
    (hok : (leakyBucket host now s r reqState).1 = .ok resp) (hover : resp.status = .overLimit) :
    Drained resp ((leakyBucket host now s r reqState).2.bucket r.hashKey) := by
  -- nothing found, or a token bucket that is removed: a leaky bucket is created
  have hcreated : ∀ s', (leakyBucketNewItem host now s' r.withBurst reqState).1 = .ok resp →
      Drained resp
        ((leakyBucketNewItem host now s' r.withBurst reqState).2.bucket r.hashKey) := by
    intro s' hnew
    have := leakyBucketNewItem_drains hnew hover
    rwa [withBurst_hashKey] at this
  rcases hfind : s.find (epochMillis now) r with _ | ⟨item, t | b⟩
  · simp only [leakyBucket, leakyBucketBurst, find_withBurst, lookup_withBurst, hfind] at hok ⊢
    exact hcreated _ hok
  · simp only [leakyBucket, leakyBucketBurst, find_withBurst, lookup_withBurst, withBurst_hashKey,
      hfind] at hok ⊢
    exact hcreated _ hok
  · obtain ⟨q, hq⟩ := hstate item b hfind
    obtain ⟨out, hout, rfl, hpeek⟩ := leakyBucket_found hfind hok
    obtain ⟨tm, htm, rfl⟩ := leakyBucketItem_ok hout
    rw [bucket_of_peek hpeek rfl]
    rw [(deferredExpiry_fields _ _ _ _).1] at hover ⊢
    rw [(deferredExpiry_fields _ _ _ _).2.1]
    exact charge_drains (credited_shape htm hq) (by simpa using hhits) (by simpa using hwait)
      (by simpa using hdrain) hover

/-- **When a refusal with DRAIN_OVER_LIMIT drains**: always, except where it creates a token
    bucket of a positive limit. -/
theorem drain_over_limit_iff (conf : Config) (host : Host) (now : ℤ) (s : Shard)
    (r : RateLimitReq) (reqState : RateLimitReqState)
    (hstate : ∀ item b, s.find (epochMillis now) r = some (item, .leaky b) →
      ∃ q, b.remaining = .fin q) (hhits : 0 < r.hits)
    (hdrain : hasBehavior r.behavior .drainOverLimit = true)
    (hreset : hasBehavior r.behavior .resetRemaining = false) (resp : RateLimitResp)
    (hok : (getLocalRateLimit conf host now s r reqState).result = .ok resp)
    (hover : resp.status = .overLimit) :
    Drained resp ((getLocalRateLimit conf host now s r reqState).shard.bucket r.hashKey) ↔
      (r.algorithm = .tokenBucket →
        r.limit = 0 ∨ ∃ item t, s.find (epochMillis now) r = some (item, .token t)) := by
  -- an invalid request is answered with an error text, and not as over the limit
  have hvalid : validateMaxWait r = "" := by
    by_contra hinvalid
    rw [getLocalRateLimit_invalid conf host now s reqState hinvalid] at hok
    obtain rfl := Except.ok.inj hok
    cases hover
  -- validation turns away DRAIN_OVER_LIMIT with a wait
  have hwait : ¬ 0 < r.maxWait := by
    intro hpos
    have := (validateMaxWait_scheduled hvalid hpos).2.2.2.1
    rw [hdrain] at this
    cases this
  obtain ⟨hshard, hresult⟩ := getLocalRateLimit_valid conf host now s reqState hvalid
  rw [hresult] at hok
  rw [hshard]
  cases halg : r.algorithm with
  | tokenBucket =>
    obtain ⟨hs, hr⟩ := handleGetRateLimit_token conf host now s reqState halg
    rw [hr] at hok
    rw [hs, tokenBucket_drained_iff hhits hdrain hreset hok hover]
    simp
  | leakyBucket =>
    obtain ⟨hs, hr⟩ := handleGetRateLimit_leaky conf host now s reqState halg
    rw [hr] at hok
    rw [hs]
    exact iff_of_true (leakyBucket_drains hhits hwait hdrain hstate hok hover) (fun h => by cases h)
  | unknown code => simp [handleGetRateLimit, halg] at hok

/-- Twelve hits on a bucket of ten, with DRAIN_OVER_LIMIT. -/
def drainingRequest (algorithm : Algorithm) : RateLimitReq :=
  { RateLimitReq.sample 12 10 1000 0 5 0 with
    algorithm := algorithm, behavior := .drainOverLimit }

/-- A leaky bucket with five of its ten tokens left. -/
def halfFull : LeakyBucketItem :=
  { limit := 10, duration := 1000, remaining := .fin 5, updatedAt := 5, burst := 10 }

/-- Its place in the cache. -/
def halfFullItem : CacheItem :=
  { algorithm := .leakyBucket, key := "requests_account:1", expireAt := 1005
    value := some (.leaky halfFull) }

/-- The flag drains the five tokens of a leaky bucket, which a refusal without it leaves. -/
theorem drain_over_limit_leaky :
    Drained { status := .overLimit, limit := 10, remaining := 0, resetTime := 505 }
        ((getLocalRateLimit ⟨0⟩ Host.amd64 5000000 (.ofItems [halfFullItem])
          (drainingRequest .leakyBucket) { isOwner := true }).shard.bucket "requests_account:1") ∧
      (getLocalRateLimit ⟨0⟩ Host.amd64 5000000 (.ofItems [halfFullItem])
          { drainingRequest .leakyBucket with behavior := 0 }
          { isOwner := true }).shard.bucket "requests_account:1" =
        some (.leaky halfFull) := by
  refine ⟨(drain_over_limit_iff ⟨0⟩ Host.amd64 5000000 (.ofItems [halfFullItem])
    (drainingRequest .leakyBucket) { isOwner := true } ?_ (by decide) (by decide) (by decide)
    { status := .overLimit, limit := 10, remaining := 0, resetTime := 505 } (by decide +kernel)
    rfl).mpr (fun h => by cases h), by decide +kernel⟩
  intro item b hfind
  have hfound : (Shard.ofItems [halfFullItem]).find (epochMillis 5000000)
      (drainingRequest .leakyBucket) = some (halfFullItem, .leaky halfFull) := by decide +kernel
  rw [hfound] at hfind
  obtain ⟨-, hb⟩ := Prod.mk.inj (Option.some.inj hfind)
  obtain rfl := Bucket.leaky.inj hb
  exact ⟨5, rfl⟩

/-- A key without an item: the token bucket that is made for it is left full. -/
theorem drain_over_limit_token_full :
    (getLocalRateLimit ⟨0⟩ Host.amd64 5000000 (.ofItems []) (drainingRequest .tokenBucket)
        { isOwner := true }).result =
      .ok { status := .overLimit, limit := 10, remaining := 10, resetTime := 1005 } ∧
    (getLocalRateLimit ⟨0⟩ Host.amd64 5000000 (.ofItems []) (drainingRequest .tokenBucket)
        { isOwner := true }).shard.bucket "requests_account:1" =
      some (.token { limit := 10, duration := 1000, remaining := 10, createdAt := 5 }) ∧
    ¬ Drained { status := .overLimit, limit := 10, remaining := 10, resetTime := 1005 }
      ((getLocalRateLimit ⟨0⟩ Host.amd64 5000000 (.ofItems []) (drainingRequest .tokenBucket)
        { isOwner := true }).shard.bucket "requests_account:1") := by
  refine ⟨by decide +kernel, by decide +kernel, ?_⟩
  rintro ⟨hremaining, -⟩
  exact absurd hremaining (by decide)

end Gubernator
