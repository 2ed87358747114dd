/-
  ONE PEER'S COPY of a GLOBAL token bucket, and what a request does to it.

  The requests of one key agree on limit and duration, ask for no reset and follow no calendar.
  Then every handler, whichever way the request reached it, takes the hits from the `Remaining` of
  the peer's cached item or refuses them (`Served`); a peer without an item starts from the limit.

  This is the bottom of the refinement: the abstract replica only knows of a balance, hits and a
  grant (`Replica.Take`), and `Served` says that a call of the model is such a step.  The layers of
  the code are peeled off one by one, from `takeHits` through `tokenBucket`, the worker and
  `getLocalRateLimit` up to `GetRateLimits`; each of them only passes the statement on.
-/
import Gubernator.Global
import Gubernator.Lib.Replica

namespace Gubernator

open Calendar Replica

/-! ## Requests and copies of one bucket

A peer's cache may hold an item of the key or not; an item that has expired is not looked at, which
is what `held` excludes. -/

/-- A plain token bucket request on the key, with the one limit and duration; the limit is an
    `int64`. -/
@[mk_iff] structure TokenReq (key : String) (limit duration : ℤ) (r : RateLimitReq) : Prop where
  sameKey : r.hashKey = key
  token : r.algorithm = .tokenBucket
  sameLimit : r.limit = limit
  limit_lt : limit < 2 ^ 63
  sameDuration : r.duration = duration
  hits_nonneg : 0 ≤ r.hits
  noReset : hasBehavior r.behavior .resetRemaining = false
  noGregorian : hasBehavior r.behavior .durationIsGregorian = false
  noWait : r.maxWait = 0

instance (key : String) (limit duration : ℤ) (r : RateLimitReq) :
    Decidable (TokenReq key limit duration r) :=
  decidable_of_iff _ (tokenReq_iff key limit duration r).symm

/-- The balance a peer has cached for the key. -/
def Shard.remaining (s : Shard) (key : String) : Option ℤ :=
  match (s.cache.peek key).bind CacheItem.value with
  | some (.token t) => some t.remaining
  | _ => none

/-- The peer's item of the key, if any, is not expired at `now`, in milliseconds. -/
def Shard.held (s : Shard) (key : String) (now : ℤ) : Bool :=
  (s.cache.peek key).all (fun item => !item.isExpired now)

/-- The peer has no item of the key, or a token bucket of the one limit and duration. -/
inductive Copy (key : String) (limit duration : ℤ) (s : Shard) : Prop
  | absent (cached : s.cache.peek key = none) (stored : s.stored key = none)
  | present (item : CacheItem) (t : TokenBucketItem) (cached : s.cache.peek key = some item)
      (value : item.value = some (.token t)) (sameLimit : t.limit = limit)
      (sameDuration : t.duration = duration) (nonneg : 0 ≤ t.remaining)

section Take
variable {key : String} {limit duration now : ℤ} {s : Shard} {r : RateLimitReq}

/-- The balance of a cached token bucket. -/
theorem remaining_of_peek {item : CacheItem} {t : TokenBucketItem}
    (hc : s.cache.peek key = some item) (hv : item.value = some (.token t)) :
    s.remaining key = some t.remaining := by
  simp [Shard.remaining, hc, hv]

/-- And of none. -/
theorem remaining_of_absent (hc : s.cache.peek key = none) : s.remaining key = none := by
  simp [Shard.remaining, hc]

/-- What a request does to a peer's copy: it takes its hits, or is refused. -/
structure Served (key : String) (limit duration : ℤ) (s : Shard) (hits : ℤ)
    (resp : RateLimitResp) (s' : Shard) (x : ℤ) : Prop where
  copy : Copy key limit duration s'
  remaining : s'.remaining key = some x
  take : Take ((s.remaining key).getD limit) hits x
    (if resp.status = .underLimit then hits else 0)
  noError : resp.error = ""
  limit_eq : resp.limit = limit
  query : hits = 0 → resp.remaining = x

/-- Taking hits from a cached copy. -/
theorem served_of_takeHits (hr : TokenReq key limit duration r) {t : TokenBucketItem}
    {item : CacheItem} (hc : s.cache.peek key = some item) (hv : item.value = some (.token t))
    (hlimit : t.limit = limit) (hduration : t.duration = duration) (hnonneg : 0 ≤ t.remaining)
    {x : ℤ} {s' : Shard} {item' : CacheItem} (hc' : s'.cache.peek key = some item')
    (hv' : item'.value = some (.token (takeHits r t x).2)) :
    Served key limit duration s r.hits (takeHits r t x).1 s' (takeHits r t x).2.remaining := by
  obtain ⟨hrespLimit, herror, hquery⟩ := takeHits_resp r t x
  have htake : 0 ≤ (takeHits r t x).2.remaining ∧ Take t.remaining r.hits
      (takeHits r t x).2.remaining
      (if (takeHits r t x).1.status = .underLimit then r.hits else 0) := by
    -- a query, a refusal, a grant
    rcases takeHits_cases r t x hr.hits_nonneg hnonneg with
      ⟨hzero, hrem⟩ | ⟨hshort, hstatus, hrem0, hle⟩ | ⟨-, hstatus, hle, hrem⟩
    · have := Take.granted (h := r.hits) (y := t.remaining) (by omega)
      rw [hrem]
      rw [hzero] at this ⊢
      simpa [hnonneg] using this
    · rw [hstatus, if_neg (by decide)]
      exact ⟨hrem0, .refused hshort hrem0 hle⟩
    · rw [hstatus, if_pos rfl, hrem]
      exact ⟨by omega, .granted hle⟩
  constructor
  · exact .present item' _ hc' hv' (by rw [takeHits_limit, hlimit])
      (by rw [takeHits_duration, hduration]) htake.1
  · exact remaining_of_peek hc' hv'
  · rw [remaining_of_peek hc hv]
    exact htake.2
  · exact herror
  · rw [hrespLimit, hr.sameLimit]
  · exact hquery

/-- The first request on a key starts from the limit. -/
theorem tokenBucketNewItem_served (loc : Location) (reqState : RateLimitReqState) {s₁ : Shard}
    (hr : TokenReq key limit duration r) (hs : s.remaining key = none) (hlimit : 0 ≤ limit) :
    ∃ resp x, (tokenBucketNewItem loc now s₁ r reqState).1 = .ok resp ∧
      Served key limit duration s r.hits resp (tokenBucketNewItem loc now s₁ r reqState).2 x := by
  obtain ⟨rfl, -, hl, -, hd, hh, -, hgreg, -⟩ := hr
  simp only [tokenBucketNewItem, hgreg, Bool.false_eq_true, if_false]
  refine ⟨_, if r.limit < r.hits then r.limit else r.limit - r.hits, rfl, ?_⟩
  set x := if r.limit < r.hits then r.limit else r.limit - r.hits with hx
  have hx0 : 0 ≤ x := by
    rw [hx]
    split <;> omega
  simp only [decide_eq_true_eq, ← hx]
  -- the entry just added
  have hpeek := Cache.peek_add_self s₁.cache
    { algorithm := .tokenBucket, key := r.hashKey, expireAt := r.createdAt + r.duration
      value := some (.token { limit := r.limit, duration := r.duration, remaining := x
                              createdAt := r.createdAt }) }
  constructor
  · exact .present _ _ hpeek rfl hl hd hx0
  · exact remaining_of_peek (t := { limit := r.limit, duration := r.duration, remaining := x
                                    createdAt := r.createdAt }) hpeek rfl
  · rw [hs, Option.getD_none, ← hl, hx]
    -- more hits than the limit are refused and leave the bucket full
    by_cases hover : r.limit < r.hits
    · simp only [hover, if_true]
      exact .refused hover (by omega) le_rfl
    · simp only [hover, if_false, if_true]
      exact .granted (not_lt.mp hover)
  · rfl
  · exact hl
  · intro _
    rfl

/-- **One request on one copy.** -/
theorem tokenBucket_served (loc : Location) (reqState : RateLimitReqState)
    (hr : TokenReq key limit duration r) (hs : Copy key limit duration s)
    (hheld : s.held key (epochMillis now) = true) (hlimit : 0 ≤ limit) :
    ∃ resp x, (tokenBucket loc now s r reqState).1 = .ok resp ∧
      Served key limit duration s r.hits resp (tokenBucket loc now s r reqState).2 x := by
  have hk := hr.sameKey
  cases hs with
  | present item t hc hv hl hd hnonneg =>
    -- the item is found, with the request's own terms
    have hfresh : item.isExpired (epochMillis now) = false := by
      simpa [Shard.held, hc] using hheld
    have hfind := Shard.find_of_fresh (r := r) (by rw [hk]; exact hc) hfresh hv
    obtain ⟨hres, hpeek⟩ := tokenBucket_found loc reqState hfind hr.noReset
    rw [tokenBucketItem_same loc now (hl.trans hr.sameLimit.symm)
      (hd.trans hr.sameDuration.symm)] at hres hpeek
    rw [hk] at hpeek
    exact ⟨_, _, hres, served_of_takeHits hr hc hv hl hd hnonneg hpeek rfl⟩
  | absent hc hst =>
    have hlook : (s.lookup (epochMillis now) r).1 = none :=
      Shard.lookup_of_absent (by rw [hk]; exact hc) (by rw [hk]; exact hst)
    have hfind : s.find (epochMillis now) r = none := by simp [Shard.find, hlook]
    simp only [tokenBucket, hfind]
    exact tokenBucketNewItem_served loc reqState hr (remaining_of_absent hc) hlimit

/-- A worker serves the request as the bucket does, whatever wraps it. -/
theorem handleGetRateLimit_served (conf : Config) (host : Host) (reqState : RateLimitReqState)
    (hr : TokenReq key limit duration r) (hs : Copy key limit duration s)
    (hheld : s.held key (epochMillis now) = true) (hlimit : 0 ≤ limit) :
    ∃ resp x, (handleGetRateLimit conf host now s r reqState).1 = .ok resp ∧
      Served key limit duration s r.hits resp
        (handleGetRateLimit conf host now s r reqState).2 x := by
  obtain ⟨resp, x, hok, hserved⟩ := tokenBucket_served host.location reqState hr hs hheld hlimit
  refine ⟨resp, x, ?_, ?_⟩
  · simp [handleGetRateLimit, hr.token, hok, wrapError]
  · simpa [handleGetRateLimit, hr.token] using hserved

/-- And through `getLocalRateLimit`, which queues an update if the request is GLOBAL. -/
theorem getLocalRateLimit_served (conf : Config) (host : Host) (reqState : RateLimitReqState)
    (hr : TokenReq key limit duration r) (hs : Copy key limit duration s)
    (hheld : s.held key (epochMillis now) = true) (hlimit : 0 ≤ limit) :
    ∃ resp x, (getLocalRateLimit conf host now s r reqState).result = .ok resp ∧
      (getLocalRateLimit conf host now s r reqState).updates =
        (if hasBehavior r.behavior .global then [r] else []) ∧
      Served key limit duration s r.hits resp (getLocalRateLimit conf host now s r reqState).shard
        x := by
  obtain ⟨resp, x, hok, hserved⟩ := handleGetRateLimit_served conf host reqState hr hs hheld hlimit
  rcases hrun : handleGetRateLimit conf host now s r reqState with ⟨result, s'⟩
  rw [hrun] at hok hserved
  obtain rfl : result = .ok resp := hok
  have hvalid : validateMaxWait r = "" := by simp [validateMaxWait, hr.noWait]
  have hafter : r.afterwards = r := by simp [RateLimitReq.afterwards, hr.token]
  have hout : getLocalRateLimit conf host now s r reqState =
      ⟨.ok resp, s', if hasBehavior r.behavior .global then [r] else []⟩ := by
    simp [getLocalRateLimit, hvalid, hrun, hafter]
  rw [hout]
  exact ⟨resp, x, rfl, rfl, hserved⟩

end Take

/-! ## Requests on their way

A request is stamped, marked or merged on its way to the owner.  None of this changes what makes it
a request on the bucket. -/

/-- A GLOBAL request that carries hits. -/
structure Queued (key : String) (limit duration : ℤ) (r : RateLimitReq) : Prop
    extends TokenReq key limit duration r where
  global : hasBehavior r.behavior .global = true
  hits_pos : 0 < r.hits

section Requests
variable {key : String} {limit duration : ℤ} {r : RateLimitReq}

/-- Stamping leaves the hits. -/
theorem stamped_hits (r : RateLimitReq) (now : ℤ) : (r.stamped now).hits = r.hits := by
  unfold RateLimitReq.stamped
  split <;> rfl

/-- And the flags. -/
theorem stamped_behavior (r : RateLimitReq) (now : ℤ) :
    (r.stamped now).behavior = r.behavior := by
  unfold RateLimitReq.stamped
  split <;> rfl

/-- A plain request stays one when it is stamped. -/
theorem TokenReq.stamped (hr : TokenReq key limit duration r) (now : ℤ) :
    TokenReq key limit duration (r.stamped now) := by
  unfold RateLimitReq.stamped
  split
  · exact ⟨hr.sameKey, hr.token, hr.sameLimit, hr.limit_lt, hr.sameDuration, hr.hits_nonneg,
      hr.noReset, hr.noGregorian, hr.noWait⟩
  · exact hr

/-- Flags that touch neither resets nor the calendar leave a request plain. -/
theorem TokenReq.setBehavior (hr : TokenReq key limit duration r) {flag : Behavior}
    (hreset : flag &&& .resetRemaining = 0) (hgreg : flag &&& .durationIsGregorian = 0)
    (set : Bool) :
    TokenReq key limit duration { r with behavior := setBehavior r.behavior flag set } :=
  ⟨hr.sameKey, hr.token, hr.sameLimit, hr.limit_lt, hr.sameDuration, hr.hits_nonneg,
    by rw [hasBehavior_set_of_disjoint hreset, hr.noReset],
    by rw [hasBehavior_set_of_disjoint hgreg, hr.noGregorian], hr.noWait⟩

/-- The request that a peer answers from its own cache: batching off, GLOBAL cleared. -/
theorem TokenReq.asLocal (hr : TokenReq key limit duration r) :
    TokenReq key limit duration r.asLocal :=
  (hr.setBehavior (by decide) (by decide) true).setBehavior (by decide) (by decide) false

/-- A request received from a peer is counted and broadcast like one from a client. -/
theorem Queued.received (hr : Queued key limit duration r) (now : ℤ) :
    Queued key limit duration (r.received now) ∧ (r.received now).hits = r.hits := by
  unfold RateLimitReq.received
  rw [if_pos hr.global]
  refine ⟨⟨(hr.toTokenReq.setBehavior (by decide) (by decide) true).stamped now, ?_, ?_⟩, ?_⟩
  · rw [stamped_behavior, hasBehavior_set_of_disjoint (by decide)]
    exact hr.global
  · rw [stamped_hits]
    exact hr.hits_pos
  · rw [stamped_hits]

/-- The sum of two requests' hits is an `int64`, so merging them adds them up. -/
theorem aggregateHit_hits {h : RateLimitReq} (hh : 0 ≤ h.hits) (hr : 0 ≤ r.hits)
    (hrange : h.hits + r.hits < 2 ^ 63) :
    (aggregateHit (some h) r).hits = h.hits + r.hits :=
  MachineInt.wrap_eq_self_iff.mpr ⟨by omega, hrange⟩

/-- Merged hits are a queued request again, if their sum is in range. -/
theorem Queued.aggregateHit {entry : Option RateLimitReq} (hr : Queued key limit duration r)
    (he : ∀ h ∈ entry, Queued key limit duration h)
    (hrange : ∀ h ∈ entry, h.hits + r.hits < 2 ^ 63) :
    Queued key limit duration (aggregateHit entry r) := by
  cases entry with
  | none => exact hr
  | some h =>
    have hh := he h rfl
    have hpos : 0 < h.hits + r.hits := add_pos hh.hits_pos hr.hits_pos
    rw [← aggregateHit_hits hh.hits_nonneg hr.hits_nonneg (hrange h rfl)] at hpos
    -- the flags of the first are kept: a reset would have been merged in, and nobody asks for one
    have hkept : hasBehavior (Gubernator.aggregateHit (some h) r).behavior =
        hasBehavior h.behavior := by
      simp only [Gubernator.aggregateHit, hr.noReset, Bool.false_eq_true, if_false]
    refine ⟨⟨hh.sameKey, hh.token, hh.sameLimit, hh.limit_lt, hh.sameDuration, hpos.le, ?_, ?_,
      hh.noWait⟩, ?_, hpos⟩
    · rw [hkept, hh.noReset]
    · rw [hkept, hh.noGregorian]
    · rw [hkept, hh.global]

/-- What `QueueHit` and `QueueUpdate` pass on of a GLOBAL request. -/
theorem TokenReq.mem_queueable (hr : TokenReq key limit duration r)
    (hglobal : hasBehavior r.behavior .global = true) {r' : RateLimitReq}
    (h : r' ∈ queueable [r]) : Queued key limit duration r' := by
  simp only [queueable, List.mem_filter, List.mem_singleton, bne_iff_ne] at h
  obtain ⟨rfl, hne⟩ := h
  exact ⟨hr, hglobal, lt_of_le_of_ne hr.hits_nonneg (Ne.symm hne)⟩

/-- **A client's request**: the peer's copy takes the hits; the owner queues an update, any other
    peer the hits themselves. -/
theorem getRateLimit_served (conf : Config) (host : Host) (isOwner : Bool) {now : ℤ} {s : Shard}
    (hr : TokenReq key limit duration r) (hglobal : hasBehavior r.behavior .global = true)
    (hname : r.name ≠ "") (hkey : r.uniqueKey ≠ "") (hs : Copy key limit duration s)
    (hheld : s.held key (epochMillis now) = true) (hlimit : 0 ≤ limit) :
    let out := getRateLimit conf host now isOwner s r
    (∃ x, Served key limit duration s r.hits out.resp out.shard x) ∧
      out.hits = (if isOwner then [] else queueable [r.stamped now]) ∧
      out.updates = (if isOwner then queueable [r.stamped now] else []) := by
  intro out
  have hr' := hr.stamped now
  have hvalid : validateMaxWait (r.stamped now) = "" := by simp [validateMaxWait, hr'.noWait]
  have hglobal' : hasBehavior (r.stamped now).behavior .global = true := by
    rw [stamped_behavior, hglobal]
  -- the owner answers and queues an update; any other peer answers from its copy and queues the
  -- hits
  cases isOwner with
  | true =>
    obtain ⟨resp, x, hok, hupdates, hserved⟩ :=
      getLocalRateLimit_served conf host { isOwner := true } hr' hs hheld hlimit
    rw [hglobal', if_pos rfl] at hupdates
    rw [stamped_hits] at hserved
    have hout : out = ⟨resp, (getLocalRateLimit conf host now s (r.stamped now)
        { isOwner := true }).shard, [], queueable [r.stamped now]⟩ := by
      simp [out, getRateLimit, hname, hkey, hvalid, hok, hupdates]
    rw [hout]
    exact ⟨⟨x, hserved⟩, rfl, rfl⟩
  | false =>
    obtain ⟨resp, x, hok, hupdates, hserved⟩ :=
      getLocalRateLimit_served conf host { isOwner := false } hr'.asLocal hs hheld hlimit
    have hcleared : hasBehavior (r.stamped now).asLocal.behavior .global = false :=
      hasBehavior_clear_self _ _
    rw [hcleared, if_neg Bool.false_ne_true] at hupdates
    have hhits : (r.stamped now).asLocal.hits = r.hits := stamped_hits r now
    rw [hhits] at hserved
    have hout : out = ⟨resp, (getLocalRateLimit conf host now s (r.stamped now).asLocal
        { isOwner := false }).shard, queueable [r.stamped now], []⟩ := by
      simp [out, getRateLimit, getGlobalRateLimit, hname, hkey, hvalid, hok, hupdates, queueable]
    rw [hout]
    exact ⟨⟨x, hserved⟩, rfl, rfl⟩

end Requests

end Gubernator
