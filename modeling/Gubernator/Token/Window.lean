/-
  The token bucket's WINDOW: from the request that creates or renews the item to the last one
  before it is created, renewed, reset or dropped again.

  Inside a window the hits admitted and the tokens remaining account for the limit
  (`Accounted`).  A changed limit moves the tokens by the difference, so the account holds under
  the new limit too — unless the difference is more than the tokens there are.  Then the code
  stops at zero, and what it could not take back is admitted again when the limit rises.

  The steps: what a decision does to the account (`Accounted.takeHits`), what a request does to the
  item of a window (`tokenBucketItem_accounted`) or to a new or renewed one, which opens an account,
  and then the whole window by the history rule for runs (`window_limit`).
-/
import Gubernator.Instance

namespace Gubernator

open Calendar

/-! ## Runs

The bucket function alone, one call after another, and the words for what happens in a run: windows
opened, requests inside one, limits that take back too much. -/

/-- A token-bucket call on the owner's shard, as one step of a run. -/
def serveToken (loc : Location) (o : Owner) (a : Arrival) : Except String RateLimitResp × Owner :=
  ((tokenBucket loc a.now o.shard a.req a.reqState).1,
    ⟨a.now, (tokenBucket loc a.now o.shard a.req a.reqState).2⟩)

/-- The duration changes and the item has ended under the new one. -/
def renews (loc : Location) (now : ℤ) (r : RateLimitReq) (t : TokenBucketItem) : Bool :=
  t.duration != r.duration &&
    match newExpire loc now r t with
    | .ok expire => decide (expire ≤ r.createdAt)
    | .error _ => false

/-- The request creates the item, or renews it. -/
def opensWindow (loc : Location) (now : ℤ) (s : Shard) (r : RateLimitReq) : Bool :=
  match s.find (epochMillis now) r with
  | none => true
  | some (_, .leaky _) => !hasBehavior r.behavior .resetRemaining
  | some (_, .token t) => !hasBehavior r.behavior .resetRemaining && renews loc now r t

/-- The token bucket the key holds in the cache, not expired. -/
def currentToken (now : ℤ) (s : Shard) (key : String) : Option TokenBucketItem :=
  match s.cache.peek key with
  | some item =>
    if item.isExpired now then none
    else match item.value with
      | some (.token t) => some t
      | _ => none
  | none => none

/-- A request inside the window: the item is there, and is neither reset nor renewed. -/
@[mk_iff] structure InWindow (loc : Location) (key : String) (o : Owner) (a : Arrival) : Prop where
  sameKey : a.req.hashKey = key
  hits_nonneg : 0 ≤ a.req.hits
  limit_nonneg : 0 ≤ a.req.limit
  noReset : hasBehavior a.req.behavior .resetRemaining = false
  current : (currentToken (epochMillis a.now) o.shard key).any
    (fun t => !renews loc a.now a.req t) = true

instance (loc : Location) (key : String) (o : Owner) (a : Arrival) :
    Decidable (InWindow loc key o a) :=
  decidable_of_iff _ (inWindow_iff loc key o a).symm

/-- The request's limit takes back no more tokens than there are. -/
def takesBack (key : String) (o : Owner) (a : Arrival) : Bool :=
  (currentToken (epochMillis a.now) o.shard key).all
    (fun t => decide (0 ≤ t.remaining + (a.req.limit - t.limit)))

/-- The hits of an answer `UNDER_LIMIT`. -/
def admittedBy (r : RateLimitReq) : Except String RateLimitResp → ℤ
  | .ok resp => if resp.status = .underLimit then r.hits else 0
  | .error _ => 0

/-- The hits admitted along a run. -/
def totalAdmitted (events : List (Arrival × Except String RateLimitResp)) : ℤ :=
  (events.map (fun e => admittedBy e.1.req e.2)).sum

/-! ## The account

An inequality, not an equation: hits that are refused may drain the bucket under `DRAIN_OVER_LIMIT`,
and those tokens are gone. -/

/-- The hits admitted and the tokens left are within the limit. -/
structure Accounted (admitted : ℤ) (t : TokenBucketItem) : Prop where
  remaining_nonneg : 0 ≤ t.remaining
  within : admitted + t.remaining ≤ t.limit

/-- A changed limit keeps the account, if it does not take back more tokens than there are. -/
theorem Accounted.setLimit {admitted : ℤ} {t : TokenBucketItem} (h : Accounted admitted t)
    {limit : ℤ} (hback : 0 ≤ t.remaining + (limit - t.limit)) :
    Accounted admitted (t.setLimit limit) := by
  obtain ⟨h0, hw⟩ := h
  unfold TokenBucketItem.setLimit
  split
  · exact ⟨le_max_left _ _, by simp only [max_eq_right hback]; omega⟩
  · exact ⟨h0, hw⟩

/-- A decision moves the hits it admits from the tokens left to those admitted. -/
theorem Accounted.takeHits {admitted : ℤ} {t : TokenBucketItem} (h : Accounted admitted t)
    {r : RateLimitReq} (hhits : 0 ≤ r.hits) (expireAt : ℤ) :
    Accounted
      (admitted + if (takeHits r t expireAt).1.status = .underLimit then r.hits else 0)
      (takeHits r t expireAt).2 := by
  obtain ⟨h0, hw⟩ := h
  rcases takeHits_cases r t expireAt hhits h0 with
    ⟨hzero, hrem⟩ | ⟨-, hstatus, hrem0, hle⟩ | ⟨-, hstatus, hle, hrem⟩
  · -- a query moves nothing
    refine ⟨by omega, ?_⟩
    rw [takeHits_limit, hzero, ite_self]
    omega
  · -- refused: the tokens stay, or are drained
    rw [hstatus]
    refine ⟨hrem0, ?_⟩
    rw [takeHits_limit, if_neg (by decide)]
    omega
  · -- admitted
    refine ⟨by omega, ?_⟩
    rw [takeHits_limit, if_pos hstatus]
    omega

/-! ## A request on the item

Limit and duration come before the decision, in the order of the source. -/

section Item
variable {loc : Location} {now : ℤ} {r : RateLimitReq} {t : TokenBucketItem} {x : ℤ}

/-- Without a renewal, a changed duration moves nothing but the expiry. -/
theorem setDuration_kept {t' : TokenBucketItem} {x' : ℤ}
    (h : setDuration loc now r t x = .ok (t', x')) (hkept : renews loc now r t = false) :
    t' = { t with duration := r.duration } := by
  unfold setDuration at h
  split at h
  · rename_i hne
    cases hx : newExpire loc now r t with
    | error e => simp [hx] at h
    | ok expire =>
      -- the branch that renews is the one `renews` describes
      have hlt : ¬ expire ≤ r.createdAt := by simpa [renews, hne, hx] using hkept
      simp only [hx, if_neg hlt, Except.ok.injEq, Prod.mk.injEq] at h
      exact h.1.symm
  · rename_i heq
    simp only [Except.ok.injEq, Prod.mk.injEq] at h
    rw [← h.1, ← not_not.mp heq]

/-- A renewal fills the bucket. -/
theorem setDuration_renewed (h : renews loc now r t = true) :
    setDuration loc now r t x = .ok
      ({ t with createdAt := r.createdAt, remaining := t.limit, duration := r.duration },
        r.createdAt + r.duration) := by
  unfold renews at h
  cases hx : newExpire loc now r t with
  | error e => simp [hx] at h
  | ok expire =>
    simp only [hx, Bool.and_eq_true, bne_iff_ne, decide_eq_true_eq] at h
    simp only [setDuration, h.1, ne_eq, not_false_eq_true, if_true, hx, h.2]

/-- Whether a request renews the item does not depend on the limit, which is set first. -/
@[simp] theorem renews_setLimit (limit : ℤ) :
    renews loc now r (t.setLimit limit) = renews loc now r t := by
  unfold TokenBucketItem.setLimit
  split <;> rfl

/-- A request keeps the account of a bucket that it does not renew, if its limit takes back no
    more than there is. -/
theorem tokenBucketItem_accounted {admitted : ℤ} (h : Accounted admitted t)
    (hhits : 0 ≤ r.hits) (hkept : renews loc now r t = false)
    (hback : 0 ≤ t.remaining + (r.limit - t.limit)) :
    Accounted (admitted + admittedBy r (tokenBucketItem loc now r t x).result)
        (tokenBucketItem loc now r t x).bucket ∧
      (tokenBucketItem loc now r t x).bucket.limit = r.limit := by
  have hset := h.setLimit hback
  unfold tokenBucketItem
  dsimp only
  cases hd : setDuration loc now r (t.setLimit r.limit) x with
  -- the limit is written even if the duration then fails
  | error e => exact ⟨by simpa [admittedBy] using hset, setLimit_limit t r.limit⟩
  | ok p =>
    obtain ⟨t', x'⟩ := p
    obtain rfl := setDuration_kept hd (by simpa using hkept)
    refine ⟨?_, by simp⟩
    exact Accounted.takeHits (t := { t.setLimit r.limit with duration := r.duration })
      ⟨hset.1, hset.2⟩ hhits x'

/-- A renewal opens a new account. -/
theorem tokenBucketItem_renewed (hhits : 0 ≤ r.hits) (hlimit : 0 ≤ r.limit)
    (hrenew : renews loc now r t = true) :
    Accounted (admittedBy r (tokenBucketItem loc now r t x).result)
        (tokenBucketItem loc now r t x).bucket ∧
      (tokenBucketItem loc now r t x).bucket.limit = r.limit := by
  unfold tokenBucketItem
  dsimp only
  rw [setDuration_renewed (by simpa using hrenew)]
  refine ⟨?_, by simp⟩
  have hnew : Accounted 0 { t.setLimit r.limit with
      createdAt := r.createdAt, remaining := (t.setLimit r.limit).limit, duration := r.duration } :=
    ⟨by simpa using hlimit, by simp⟩
  simpa [admittedBy] using hnew.takeHits hhits (r.createdAt + r.duration)

end Item

/-! ## A call

From the item to the cached entry of the key, and from one call to a window. -/

section Call
variable {loc : Location} {now : ℤ} {s : Shard} {r : RateLimitReq} {reqState : RateLimitReqState}

/-- A new item opens an account. -/
theorem tokenBucketNewItem_accounted {resp : RateLimitResp}
    (hok : (tokenBucketNewItem loc now s r reqState).1 = .ok resp) (hlimit : 0 ≤ r.limit) :
    ∃ item t, (tokenBucketNewItem loc now s r reqState).2.cache.peek r.hashKey = some item ∧
      item.value = some (.token t) ∧ Accounted (admittedBy r (.ok resp)) t ∧ t.limit = r.limit := by
  unfold tokenBucketNewItem at hok ⊢
  dsimp only at hok ⊢
  split at hok
  · cases hok
  obtain rfl := Except.ok.inj hok
  refine ⟨_, _, Cache.peek_add_self _ _, rfl, ⟨?_, ?_⟩, rfl⟩
  · simp only [decide_eq_true_eq]
    split <;> omega
  · simp only [decide_eq_true_eq, admittedBy]
    split <;> simp

end Call

/-- The key's cached item is a token bucket whose account holds, under the last limit. -/
def AccountedAt (key : String) (admitted limit : ℤ) (o : Owner) : Prop :=
  ∃ item t, o.shard.cache.peek key = some item ∧ item.value = some (.token t) ∧
    Accounted admitted t ∧ t.limit = limit

section Window
variable {loc : Location} {key : String} {o : Owner} {a : Arrival}

/-- **The first request** of a window opens an account. -/
theorem open_accounted {resp : RateLimitResp}
    (hopen : opensWindow loc a.now o.shard a.req = true)
    (hok : (serveToken loc o a).1 = .ok resp) (hkey : a.req.hashKey = key)
    (hhits : 0 ≤ a.req.hits) (hlimit : 0 ≤ a.req.limit) :
    AccountedAt key (admittedBy a.req (.ok resp)) a.req.limit (serveToken loc o a).2 := by
  subst hkey
  unfold serveToken at hok ⊢
  unfold opensWindow at hopen
  unfold AccountedAt
  dsimp only at hok ⊢
  rcases hfind : o.shard.find (epochMillis a.now) a.req with _ | ⟨item, t | b⟩
  · simp only [tokenBucket, hfind] at hok ⊢
    exact tokenBucketNewItem_accounted hok hlimit
  · -- renewed
    simp only [hfind, Bool.and_eq_true, Bool.not_eq_true'] at hopen
    obtain ⟨hr, hpeek⟩ := tokenBucket_found loc a.reqState hfind hopen.1
    rw [hok] at hr
    obtain ⟨hacc, hlim⟩ :=
      tokenBucketItem_renewed (x := item.expireAt) hhits hlimit hopen.2
    rw [← hr] at hacc
    exact ⟨_, _, hpeek, rfl, hacc, hlim⟩
  · -- a leaky bucket in its place is dropped
    simp only [hfind, Bool.not_eq_true'] at hopen
    simp only [tokenBucket, hfind, hopen, Bool.false_eq_true, if_false] at hok ⊢
    exact tokenBucketNewItem_accounted hok hlimit

/-- **Step.**  A request inside the window keeps the account, under its own limit. -/
theorem window_accounted {admitted limit : ℤ} (h : AccountedAt key admitted limit o)
    (ha : InWindow loc key o a) (hback : takesBack key o a = true) :
    AccountedAt key (admitted + admittedBy a.req (serveToken loc o a).1) a.req.limit
      (serveToken loc o a).2 := by
  obtain ⟨item, t, hpeek, hv, hacc, hlim⟩ := h
  obtain ⟨hk, hhits, hlimit, hreset, hcurrent⟩ := ha
  subst hk
  -- the current bucket is the one accounted for
  have hfresh : item.isExpired (epochMillis a.now) = false := by
    by_contra hx
    simp [currentToken, hpeek, Bool.not_eq_false _ ▸ hx] at hcurrent
  have hct : currentToken (epochMillis a.now) o.shard a.req.hashKey = some t := by
    simp [currentToken, hpeek, hfresh, hv]
  have hkept : renews loc a.now a.req t = false := by simpa [hct] using hcurrent
  have hback' : 0 ≤ t.remaining + (a.req.limit - t.limit) := by
    simpa [takesBack, hct] using hback
  have hfind := Shard.find_of_fresh hpeek hfresh hv
  obtain ⟨hr, hpeek'⟩ := tokenBucket_found loc a.reqState hfind hreset
  obtain ⟨hacc', hlim'⟩ :=
    tokenBucketItem_accounted (x := item.expireAt) hacc hhits hkept hback'
  rw [← hr] at hacc'
  exact ⟨_, _, hpeek', rfl, hacc', hlim'⟩

/-- **The window limit**, in a window where no limit takes back more tokens than there are: the
    hits admitted are at most a limit that a request carried. -/
theorem window_limit (loc : Location) (key : String) (o : Owner) (first : Arrival)
    (rest : List Arrival) (resp : RateLimitResp)
    (hopen : opensWindow loc first.now o.shard first.req = true)
    (hok : (serveToken loc o first).1 = .ok resp) (hkey : first.req.hashKey = key)
    (hhits : 0 ≤ first.req.hits) (hlimit : 0 ≤ first.req.limit)
    (hrest : Machine.Guarded (serveToken loc)
      (fun o a => InWindow loc key o a ∧ takesBack key o a = true)
      (serveToken loc o first).2 rest) :
    ∃ a ∈ first :: rest,
      totalAdmitted (Machine.events (serveToken loc) o (first :: rest)) ≤ a.req.limit := by
  -- the account, with the limit of the last request so far
  have hrun := Machine.history_rule
    (P := fun h o => ∃ last ∈ first :: (h.map Prod.fst),
      AccountedAt key (admittedBy first.req (.ok resp) + totalAdmitted h) last.req.limit o)
    (by
      rintro h o a ⟨ha, hback⟩ ⟨last, -, hacc⟩
      refine ⟨a, by simp, ?_⟩
      have := window_accounted hacc ha hback
      simpa [totalAdmitted, add_assoc] using this)
    hrest ⟨first, by simp,
      by simpa [totalAdmitted] using open_accounted hopen hok hkey hhits hlimit⟩
  obtain ⟨last, hlast, item, t, -, -, hacc, hlim⟩ := hrun
  refine ⟨last, ?_, ?_⟩
  · rw [Machine.map_fst_events] at hlast
    exact hlast
  · -- the first request's hits and those of the rest
    have htotal : totalAdmitted (Machine.events (serveToken loc) o (first :: rest)) =
        admittedBy first.req (.ok resp) +
          totalAdmitted (Machine.events (serveToken loc) (serveToken loc o first).2 rest) := by
      rw [← hok]
      rfl
    rw [htotal, ← hlim]
    linarith [hacc.remaining_nonneg, hacc.within]

end Window

/-- A token-bucket request that lasts a minute, on the owner. -/
def tokenArrival (now hits limit : ℤ) : Arrival :=
  ⟨now * 1000000, { RateLimitReq.sample hits limit 60000 0 now 0 with algorithm := .tokenBucket },
    ⟨true, 0⟩⟩

/-- Ten hits of ten; the limit cut to 1 and put back to 10, which leaves nine tokens; nine hits. -/
theorem window_limit_exceeded :
    opensWindow utc 1000000000 (.ofItems []) (tokenArrival 1000 10 10).req = true ∧
    Machine.Guarded (serveToken utc) (InWindow utc "requests_account:1")
      (serveToken utc ⟨0, .ofItems []⟩ (tokenArrival 1000 10 10)).2
      [tokenArrival 1001 0 1, tokenArrival 1002 0 10, tokenArrival 1003 9 10] ∧
    totalAdmitted (Machine.events (serveToken utc) ⟨0, .ofItems []⟩
      [tokenArrival 1000 10 10, tokenArrival 1001 0 1, tokenArrival 1002 0 10,
        tokenArrival 1003 9 10]) = 19 ∧
    ∀ a ∈ [tokenArrival 1000 10 10, tokenArrival 1001 0 1, tokenArrival 1002 0 10,
      tokenArrival 1003 9 10], a.req.limit < 19 :=
  ⟨by decide +kernel, by decide +kernel, by decide +kernel, by decide +kernel⟩

/-- Six hits of ten; the limit cut to 8 leaves two tokens, which are taken; the last hit is refused.
    -/
theorem window_limit_cut :
    ∃ a ∈ [tokenArrival 1000 6 10, tokenArrival 1001 2 8, tokenArrival 1002 1 8],
      totalAdmitted (Machine.events (serveToken utc) ⟨0, .ofItems []⟩
        [tokenArrival 1000 6 10, tokenArrival 1001 2 8, tokenArrival 1002 1 8]) ≤ a.req.limit :=
  window_limit utc "requests_account:1" ⟨0, .ofItems []⟩ (tokenArrival 1000 6 10)
    [tokenArrival 1001 2 8, tokenArrival 1002 1 8]
    { limit := 10, remaining := 4, resetTime := 61000 } (by decide +kernel) (by decide +kernel) rfl
    (by decide) (by decide) (by decide +kernel)

end Gubernator
