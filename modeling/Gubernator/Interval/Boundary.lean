/-
  A GREGORIAN BUCKET EXPIRES AT THE CALENDAR BOUNDARY, with three exceptions.

  Four paths write the expiry of a bucket with a Gregorian duration.  A new token bucket gets
  `GregorianExpiration`.  A found one keeps what it has — and what it has is still right, because
  intervals tile the calendar: an expiry not yet passed is the end of the interval we are in
  (`gregorianExpiration_later`).  The other two go wrong:

  1. the leaky bucket adds the time LEFT, seen from the owner's clock, to `created_at`;

  2. a token bucket whose interval changes is "renewed" when the new interval ends no later than
     `created_at`, and the renewal adds the interval's CODE as if it were milliseconds.

  The third exception is a leaky balance below zero, which keeps its expiry.  The invariant of a run
  is `Dated`: the one item of the key, cached and stored, ends with the interval it was last asked
  for.
-/
import Gubernator.KeyView
import Gubernator.Interval.Tiling

namespace Gubernator

open Calendar

/-! ## An expiry not yet passed is this interval's

Two instants on the same side of a boundary are in one cell of the calendar (`Interval/Tiling`). -/

/-- **The end of an interval is its end until it has passed.** -/
theorem gregorianExpiration_later {loc : Location} {o : ℤ} (hsteady : ∀ s, loc.offset s = o)
    {d now now' e : ℤ} (h0 : 0 ≤ now) (hle : now ≤ now')
    (he : gregorianExpiration loc now d = .ok e) (hopen : epochMillis now' ≤ e) :
    gregorianExpiration loc now' d = .ok e := by
  have hd : ValidGregorian d := (gregorianExpiration_ok_iff loc now d).mp ⟨e, he⟩
  rw [gregorianExpiration_last hsteady hd h0] at he
  obtain rfl := Except.ok.inj he
  have hmillis : epochMillis now' = now' / millisecond :=
    Int.tdiv_eq_ediv_of_nonneg (h0.trans hle)
  have hstart := (cellOf_cell o hd now).1
  -- the later instant is between the same two boundaries
  have hsame : cellOf o d now' = cellOf o d now := by
    refine (cellOf_eq_iff o hd now' _).mpr ⟨hstart.trans hle, ?_⟩
    rw [hmillis] at hopen
    simp only [millisecond] at hopen ⊢
    omega
  rw [gregorianExpiration_last hsteady hd (h0.trans hle), hsame]

/-! ## The one item of a key

Cache and Store can disagree about a key, and a request may find either; here they do not. -/

/-- The key's item, cached and, if there is a Store, stored; the Store is faithful. -/
structure Written (s : Shard) (key : String) (item : CacheItem) : Prop where
  cached : s.cache.peek key = some item
  stored : ∀ i, s.stored key = some i → i = item
  faithful : ∀ st, s.store = some st → st.Faithful

namespace Written

variable {s : Shard} {key : String} {item : CacheItem} {now : ℤ} {r : RateLimitReq}

/-- The one item is all that cache and Store hold of the key. -/
theorem holds (h : Written s key item) : s.Holds key (fun i => i = item) :=
  ⟨fun _ hi => Option.some.inj (hi.symm.trans h.cached), h.stored⟩

/-- What is found is the item, and it has not run out. -/
theorem find (h : Written s key item) (hr : r.hashKey = key) {i : CacheItem} {v : Bucket}
    (hfind : s.find now r = some (i, v)) :
    i = item ∧ item.value = some v ∧ now ≤ item.expireAt := by
  subst hr
  obtain rfl := h.holds.find hfind
  have hseen := seen_find h.faithful now r
  rw [hfind] at hseen
  exact ⟨rfl, (Shard.find_key hfind).2.1, le_expireAt (hseen.live rfl)⟩

/-- A change of the data that the Store has leaves how it serves them. -/
theorem faithful_map {f : Store → Store} (hf : ∀ st, (f st).serves = st.serves)
    (h : ∀ st, s.store = some st → st.Faithful) (st : Store)
    (hst : s.store.map f = some st) : st.Faithful := by
  obtain ⟨st₀, hst₀, rfl⟩ := Option.map_eq_some_iff.mp hst
  intro i t
  rw [hf]
  exact h st₀ hst₀ i t

/-- A new item is written to both. -/
theorem create (hfaithful : ∀ st, s.store = some st → st.Faithful) (hkey : item.key = key) :
    Written (s.create true item) key item := by
  have hholds := Shard.holds_create_owner (P := fun i => i = item) s hkey rfl
  refine ⟨?_, hholds.stored, faithful_map (fun _ => rfl) hfaithful⟩
  subst hkey
  exact Cache.peek_add_self s.cache item

/-- An item that was found is written to both. -/
theorem update (hfaithful : ∀ st, s.store = some st → st.Faithful) {old : CacheItem} {v : Bucket}
    (hfind : s.find now r = some (old, v)) (hkey : item.key = old.key) :
    Written ((s.lookup now r).2.update true item) r.hashKey item := by
  have hpeek := Shard.peek_update_found hfind hkey true
  obtain ⟨hitem, -, hk⟩ := Shard.find_key hfind
  have hholds := Shard.holds_update_owner (P := fun i => i = item) (hkey.trans hk)
    (Shard.peek_lookup hitem hk) rfl
  refine ⟨hpeek, hholds.stored, faithful_map (fun _ => rfl) ?_⟩
  rw [lookup_store]
  exact hfaithful

end Written

/-! ## The expiry each path writes

One lemma for a leaky call, new or found, and two for a token call. -/

/-- The item ends with the interval `d`, asked for at `now`; a token bucket knows the interval. -/
structure EndsWith (loc : Location) (now d : ℤ) (item : CacheItem) : Prop where
  expiry : gregorianExpiration loc now d = .ok item.expireAt
  interval : ∀ t, item.value = some (.token t) → t.duration = d

section Paths
variable {host : Host} {now : ℤ} {s : Shard} {r : RateLimitReq}

/-- The Gregorian terms of a request: how long the interval still lasts. -/
theorem requestTerms_gregorian (hg : hasBehavior r.behavior .durationIsGregorian = true)
    {rate : ExactFloat} {d : ℤ} (h : requestTerms host now r = .ok (rate, d)) :
    ∃ e, gregorianExpiration host.location now r.duration = .ok e ∧ d = e - epochMillis now := by
  simp only [requestTerms, hg, if_true] at h
  cases hlen : gregorianDuration host.location now r.duration with
  | error e => simp [hlen] at h
  | ok len =>
    cases hend : gregorianExpiration host.location now r.duration with
    | error e => simp [hlen, hend] at h
    | ok e =>
      simp only [hlen, hend, Except.ok.injEq, Prod.mk.injEq] at h
      exact ⟨e, rfl, h.2.symm⟩

/-- A plain request for hits on a balance that is no debt sets the expiry and nothing moves it. -/
theorem leakyBucketItem_expireAt {reqState : RateLimitReqState} {b : LeakyBucketItem} {x : ℤ}
    {out : LeakyOutcome} (hout : leakyBucketItem host now r reqState b x = .ok out)
    (hhits : 0 < r.hits) (hplain : r.maxWait = 0) (hnodebt : ¬ b.remaining < 0) :
    ∃ tm, leakyTerms host now r b = .ok tm ∧ out.expireAt = r.createdAt + tm.duration := by
  obtain ⟨tm, htm, rfl⟩ := leakyBucketItem_ok hout
  -- it is not in debt, so the expiry is not deferred
  have hdebt : tm.wasInDebt = false := by
    rw [(leakyTerms_ok htm).2.2.2.2.2.2.2.2, decide_eq_false hnodebt, Bool.false_and]
  have hcreated : tm.createdAt = r.createdAt := by
    rw [(leakyTerms_ok htm).2.1, if_neg]
    rintro (hwait | hneg)
    · omega
    · exact hnodebt hneg
  refine ⟨tm, htm, ?_⟩
  rw [deferredExpiry, if_neg (by simp [hdebt])]
  have htouched : touchedExpiry r tm x = r.createdAt + tm.duration := by
    rw [touchedExpiry, if_pos ⟨hhits.ne', by simp [hdebt]⟩, hcreated]
  rw [htouched, charge, if_neg hhits.ne', if_neg (by omega), if_neg (by omega), hdebt]
  split
  · split <;> rfl
  · rfl

/-- **A leaky request** whose `created_at` is the clock. -/
theorem leakyBucket_endsWith (hfaithful : ∀ st, s.store = some st → st.Faithful)
    {reqState : RateLimitReqState} (howner : reqState.isOwner = true) {resp : RateLimitResp}
    (hok : (leakyBucket host now s r reqState).1 = .ok resp)
    (hg : hasBehavior r.behavior .durationIsGregorian = true) (hhits : 0 < r.hits)
    (hplain : r.maxWait = 0) (hclock : r.createdAt = epochMillis now)
    (hnodebt : ∀ item b, s.find (epochMillis now) r = some (item, .leaky b) → ¬ b.remaining < 0) :
    ∃ item, Written (leakyBucket host now s r reqState).2 r.hashKey item ∧
      EndsWith host.location now r.duration item := by
  have hcall := leakyBucket_call host now s r reqState
  rw [hok] at hcall
  cases hcall with
  | failed e _ hr _ => cases hr
  | neverFits _ _ _ wait _ _ _ _ =>
    rw [withBurst_maxWait] at wait
    omega
  -- found: `created_at` and what is left of the interval, from the same clock, are its end
  | worked item b out hfind hbase hout _ hs =>
    rw [find_withBurst] at hfind
    rw [lookup_withBurst] at hbase
    obtain ⟨tm, htm, hx⟩ := leakyBucketItem_expireAt hout (by simpa using hhits)
      (by simpa using hplain) (hnodebt item b hfind)
    obtain ⟨e, he, hd⟩ := requestTerms_gregorian (by simpa using hg) (leakyTerms_ok htm).1
    rw [withBurst_duration] at he
    rw [withBurst_createdAt] at hx
    rw [hs, hbase, howner]
    refine ⟨_, Written.update hfaithful hfind rfl, ?_, by simp⟩
    rw [he, hx, hd, hclock]
    simp
  -- new, or in the place of a token bucket
  | created _ _ _ hfind hterms _ _ _ _ _ _ =>
    obtain ⟨⟨rate, d⟩, hterms⟩ := hterms
    rw [requestTerms_withBurst] at hterms
    obtain ⟨e, he, hd⟩ := requestTerms_gregorian hg hterms
    have hmiss : ∀ item b, s.find (epochMillis now) r ≠ some (item, .leaky b) := by
      rw [← find_withBurst]
      exact hfind
    rw [leakyBucket_missing hmiss, leakyBucketNewItem_creates host _ _
      ((requestTerms_withBurst r host now).trans hterms) (by simp [hplain])]
    simp only [withBurst_maxWait, hplain, lt_irrefl, if_false, howner, withBurst_createdAt]
    refine ⟨_, Written.create (leakyBase_faithful hfaithful) (withBurst_hashKey r), ?_, ?_⟩
    · rw [he, hclock, newLeakyItem, hd, add_sub_cancel]
    · simp [newLeakyItem]

/-! ### The token bucket

An interval that stays the same keeps the expiry; one that changes gets the end of the new interval,
unless the bucket is renewed. -/

/-- The renewal of a found token bucket: the new interval ends no later than `created_at`. -/
def renewed (loc : Location) (now : ℤ) (s : Shard) (r : RateLimitReq) : Bool :=
  match s.find (epochMillis now) r, gregorianExpiration loc now r.duration with
  | some (_, .token t), .ok expire => t.duration != r.duration && decide (expire ≤ r.createdAt)
  | _, _ => false

/-- The expiry a found token bucket gets. -/
theorem setDuration_endsWith {loc : Location} {o : ℤ} (hsteady : ∀ s, loc.offset s = o)
    {t t' : TokenBucketItem} {x x' last : ℤ} (h0 : 0 ≤ last) (hle : last ≤ now)
    (hx : gregorianExpiration loc last t.duration = .ok x) (hopen : epochMillis now ≤ x)
    (hg : hasBehavior r.behavior .durationIsGregorian = true)
    (hkept : ∀ e, gregorianExpiration loc now r.duration = .ok e → t.duration ≠ r.duration →
      r.createdAt < e)
    (hset : setDuration loc now r t x = .ok (t', x')) :
    gregorianExpiration loc now r.duration = .ok x' ∧ t'.duration = r.duration := by
  unfold setDuration at hset
  split at hset
  · -- the new interval's end, which is after `created_at`
    rename_i hchanged
    simp only [newExpire, hg, if_true] at hset
    cases he : gregorianExpiration loc now r.duration with
    | error e => simp [he] at hset
    | ok e =>
      simp only [he] at hset
      rw [if_neg (not_le.mpr (hkept e he hchanged))] at hset
      obtain ⟨rfl, rfl⟩ := Prod.mk.inj (Except.ok.inj hset)
      exact ⟨rfl, rfl⟩
  · -- the expiry it has, which is still the end of the interval
    rename_i hsame
    obtain ⟨rfl, rfl⟩ := Prod.mk.inj (Except.ok.inj hset)
    have hd := not_not.mp hsame
    exact ⟨hd ▸ gregorianExpiration_later hsteady h0 hle hx hopen, hd⟩

/-- Setting the limit leaves the duration. -/
theorem setLimit_duration (t : TokenBucketItem) (limit : ℤ) :
    (t.setLimit limit).duration = t.duration := by
  unfold TokenBucketItem.setLimit
  split <;> rfl

/-- A token bucket request that makes a new item. -/
theorem tokenBucketNewItem_endsWith {loc : Location} {base : Shard}
    (hfaithful : ∀ st, base.store = some st → st.Faithful) {reqState : RateLimitReqState}
    (howner : reqState.isOwner = true) (hg : hasBehavior r.behavior .durationIsGregorian = true)
    {resp : RateLimitResp} (hok : (tokenBucketNewItem loc now base r reqState).1 = .ok resp) :
    ∃ item, Written (tokenBucketNewItem loc now base r reqState).2 r.hashKey item ∧
      EndsWith loc now r.duration item := by
  unfold tokenBucketNewItem at hok ⊢
  simp only [hg, if_true] at hok ⊢
  cases he : gregorianExpiration loc now r.duration with
  | error e => simp [he] at hok
  | ok e =>
    simp only [howner]
    refine ⟨_, Written.create hfaithful rfl, he, ?_⟩
    intro t ht
    obtain rfl := Bucket.token.inj (Option.some.inj ht)
    rfl

/-- **A token request** that renews nothing, on a key whose item ends with the interval it was last
    asked for. -/
theorem tokenBucket_endsWith {loc : Location} {o : ℤ} (hsteady : ∀ s, loc.offset s = o)
    {last : ℤ} (h0 : 0 ≤ last) (hle : last ≤ now)
    (hfaithful : ∀ st, s.store = some st → st.Faithful)
    (hdated : ∀ item t, s.find (epochMillis now) r = some (item, .token t) →
      epochMillis now ≤ item.expireAt ∧
        gregorianExpiration loc last t.duration = .ok item.expireAt)
    {reqState : RateLimitReqState} (howner : reqState.isOwner = true)
    (hg : hasBehavior r.behavior .durationIsGregorian = true)
    (hreset : hasBehavior r.behavior .resetRemaining = false)
    (hrenewed : renewed loc now s r = false) {resp : RateLimitResp}
    (hok : (tokenBucket loc now s r reqState).1 = .ok resp) :
    ∃ item, Written (tokenBucket loc now s r reqState).2 r.hashKey item ∧
      EndsWith loc now r.duration item := by
  have hlookup : ∀ st, (s.lookup (epochMillis now) r).2.store = some st → st.Faithful := by
    rw [lookup_store]
    exact hfaithful
  unfold tokenBucket at hok ⊢
  rcases hfind : s.find (epochMillis now) r with _ | ⟨item, t | b⟩
  · simp only [hfind] at hok ⊢
    exact tokenBucketNewItem_endsWith hlookup howner hg hok
  · simp only [hfind, hreset, Bool.false_eq_true, if_false] at hok ⊢
    obtain ⟨hopen, hx⟩ := hdated item t hfind
    cases hset : setDuration loc now r (t.setLimit r.limit) item.expireAt with
    | error e => simp [tokenBucketItem, hset] at hok
    | ok p =>
      obtain ⟨t₂, x₂⟩ := p
      simp only [tokenBucketItem_of_setDuration hset, howner]
      obtain ⟨he, hd⟩ := setDuration_endsWith hsteady h0 hle (by rwa [setLimit_duration]) hopen hg
        (fun e he hchanged => by
          rw [setLimit_duration] at hchanged
          simpa [renewed, hfind, he, hchanged] using hrenewed) hset
      refine ⟨_, Written.update hfaithful hfind rfl, he, ?_⟩
      intro t' ht'
      obtain rfl := Bucket.token.inj (Option.some.inj ht')
      rw [takeHits_duration, hd]
  · -- a leaky bucket is dropped from cache and Store first
    simp only [hfind, hreset, Bool.false_eq_true, if_false] at hok ⊢
    exact tokenBucketNewItem_endsWith (Written.faithful_map (f := fun st => st.remove r.hashKey)
      (fun _ => rfl) hlookup) howner hg hok

end Paths

/-! ## Runs

All requests are Gregorian, on one key; interval and algorithm may change from one to the next. -/

/-- Gregorian requests on one key: plain ones for hits, answered by the owner, whose clock never
    goes back. -/
@[mk_iff] structure GregorianRun (conf : Config) (host : Host) (key : String) (o : Owner)
    (i : Incoming) : Prop where
  clock_le : o.clock ≤ i.now
  sameKey : i.req.hashKey = key
  gregorian : hasBehavior i.req.behavior .durationIsGregorian = true
  noReset : hasBehavior i.req.behavior .resetRemaining = false
  plain : i.req.maxWait = 0
  hits_pos : 0 < i.req.hits
  limit_nonneg : 0 ≤ i.req.limit
  burst_nonneg : 0 ≤ i.req.burst
  answered : (o.serve conf host i).1.isOk = true

instance (conf : Config) (host : Host) (key : String) (o : Owner) (i : Incoming) :
    Decidable (GregorianRun conf host key o i) :=
  decidable_of_iff _ (gregorianRun_iff conf host key o i).symm

/-- A leaky balance below zero is found. -/
def owing (s : Shard) (now : ℤ) (r : RateLimitReq) : Bool :=
  match s.find now r with
  | some (_, .leaky b) => decide (b.remaining < 0)
  | _ => false

/-- **What keeps the expiry on the boundary**: a leaky request made at the owner's clock, on a
    balance that is no debt; a token request that renews nothing.  Before 1970 a truncated division
    rounds the other way. -/
@[mk_iff] structure OnBoundary (host : Host) (o : Owner) (i : Incoming) : Prop where
  since1970 : 0 ≤ i.now
  leaky : i.req.algorithm = .leakyBucket →
    i.req.createdAt = epochMillis i.now ∧ owing o.shard (epochMillis i.now) i.req = false
  token : i.req.algorithm = .tokenBucket →
    renewed host.location i.now o.shard i.req = false

instance (host : Host) (o : Owner) (i : Incoming) : Decidable (OnBoundary host o i) :=
  decidable_of_iff _ (onBoundary_iff host o i).symm

/-- The invariant of a run: no item, or one that ends with the interval last asked for. -/
structure Dated (loc : Location) (key : String) (o : Owner) : Prop where
  faithful : ∀ st, o.shard.store = some st → st.Faithful
  item : (o.shard.cache.peek key = none ∧ o.shard.stored key = none) ∨
    0 ≤ o.clock ∧ ∃ item d, Written o.shard key item ∧ EndsWith loc o.clock d item

/-- What an answered request of a run is: a call of its algorithm. -/
theorem serve_answered {conf : Config} {host : Host} {o : Owner} {i : Incoming}
    (hplain : i.req.maxWait = 0) (hok : (o.serve conf host i).1.isOk = true) :
    (i.req.algorithm = .tokenBucket ∧
      (o.serve conf host i).2.shard =
        (tokenBucket host.location i.now o.shard i.req { isOwner := true }).2 ∧
      ∃ resp, (tokenBucket host.location i.now o.shard i.req { isOwner := true }).1 = .ok resp) ∨
    (i.req.algorithm = .leakyBucket ∧
      (o.serve conf host i).2.shard = (leakyBucket host i.now o.shard i.req conf.ownerState).2 ∧
      ∃ resp, (leakyBucket host i.now o.shard i.req conf.ownerState).1 = .ok resp) := by
  have hvalid : validateMaxWait i.req = "" := by
    rw [validateMaxWait, if_neg (by omega), if_pos hplain]
  obtain ⟨hshard, hresp⟩ := getLocalRateLimit_valid conf host i.now o.shard
    { isOwner := true } hvalid
  obtain ⟨resp, hresp'⟩ : ∃ resp, (o.serve conf host i).1 = .ok resp := by
    cases h : (o.serve conf host i).1 with
    | error e => simp [h, Except.isOk, Except.toBool] at hok
    | ok resp => exact ⟨resp, rfl⟩
  have hhandled := (hresp resp).mp hresp'
  cases halg : i.req.algorithm with
  | tokenBucket =>
    obtain ⟨hs, hr⟩ := handleGetRateLimit_token conf host i.now o.shard { isOwner := true } halg
    exact .inl ⟨rfl, hshard.trans hs, resp, (hr resp).mp hhandled⟩
  | leakyBucket =>
    obtain ⟨hs, hr⟩ := handleGetRateLimit_leaky conf host i.now o.shard { isOwner := true } halg
    exact .inr ⟨rfl, hshard.trans hs, resp, (hr resp).mp hhandled⟩
  | unknown code => simp [handleGetRateLimit, halg] at hhandled

/-- **Step.**  An answered request leaves the key's item ending with the interval it asked for. -/
theorem Dated.serve {conf : Config} {host : Host} {offset : ℤ}
    (hsteady : ∀ s, host.location.offset s = offset) {key : String} {o : Owner} {i : Incoming}
    (h : Dated host.location key o) (hi : GregorianRun conf host key o i)
    (hon : OnBoundary host o i) :
    ∃ item, Written (o.serve conf host i).2.shard key item ∧
      EndsWith host.location i.now i.req.duration item := by
  obtain ⟨hclock, rfl, hg, hreset, hplain, hhits, -, -, hok⟩ := hi
  rcases serve_answered hplain hok with ⟨halg, hs, resp, hresp⟩ | ⟨halg, hs, resp, hresp⟩
  · -- a token call, on no item or on the one written by the request before
    rw [hs]
    rcases h.item with ⟨hpeek, hstored⟩ | ⟨h0, item, d, hwritten, hends⟩
    · refine tokenBucket_endsWith hsteady hon.since1970 le_rfl h.faithful ?_ rfl hg hreset
        (hon.token halg) hresp
      intro item t hfind
      rw [Shard.find, Shard.lookup_of_absent hpeek hstored, Option.bind_none] at hfind
      cases hfind
    · refine tokenBucket_endsWith hsteady h0 hclock h.faithful ?_ rfl hg hreset
        (hon.token halg) hresp
      intro i' t hfind
      obtain ⟨rfl, hv, hopen⟩ := hwritten.find rfl hfind
      refine ⟨hopen, ?_⟩
      rw [hends.interval t hv]
      exact hends.expiry
  · rw [hs]
    obtain ⟨hcreated, hnodebt⟩ := hon.leaky halg
    refine leakyBucket_endsWith h.faithful rfl hresp hg hhits hplain hcreated ?_
    intro item b hfind
    simpa [owing, hfind] using hnodebt

/-- **Step**, as the invariant of a run needs it. -/
theorem Dated.next {conf : Config} {host : Host} {offset : ℤ}
    (hsteady : ∀ s, host.location.offset s = offset) {key : String} {o : Owner} {i : Incoming}
    (h : Dated host.location key o) (hi : GregorianRun conf host key o i)
    (hon : OnBoundary host o i) : Dated host.location key (o.serve conf host i).2 := by
  obtain ⟨item, hwritten, hends⟩ := h.serve hsteady hi hon
  exact ⟨hwritten.faithful, .inr ⟨hon.since1970, item, _, hwritten, hends⟩⟩

/-- **A Gregorian bucket expires at the calendar boundary**: in every run on a new key whose
    requests meet the condition, in a zone that never shifts, each request leaves an item that ends
    with the interval the request asked for. -/
theorem gregorian_expires_at_boundary (conf : Config) (host : Host) {offset : ℤ}
    (hsteady : ∀ s, host.location.offset s = offset) (key : String) (o : Owner)
    (hpeek : o.shard.cache.peek key = none) (hstored : o.shard.stored key = none)
    (hfaithful : ∀ st, o.shard.store = some st → st.Faithful) (run : List Incoming) (i : Incoming)
    (hrun : Machine.Guarded (Owner.serve conf host)
      (fun o i => GregorianRun conf host key o i ∧ OnBoundary host o i) o (run ++ [i])) :
    ∃ item, (Machine.exec (Owner.serve conf host) o (run ++ [i])).shard.cache.peek key = some item ∧
      gregorianExpiration host.location i.now i.req.duration = .ok item.expireAt := by
  obtain ⟨hbefore, ⟨hi, hon⟩, -⟩ := Machine.guarded_append.mp hrun
  have hdated : Dated host.location key (Machine.exec (Owner.serve conf host) o run) :=
    Machine.invariant_rule (P := Dated host.location key)
      (fun _ _ hstep h => h.next hsteady hstep.1 hstep.2) hbefore ⟨hfaithful, .inl ⟨hpeek, hstored⟩⟩
  obtain ⟨item, hwritten, hends⟩ := hdated.serve hsteady hi hon
  rw [Machine.exec_append]
  exact ⟨item, hwritten.cached, hends.expiry⟩

/-- A Gregorian request on the key `requests_account:1`, for runs on fixed inputs. -/
def gregorianRequest (algorithm : Algorithm) (interval createdAt now : ℤ) : Incoming :=
  ⟨now, { RateLimitReq.sample 1 10 interval 10 createdAt 0 with
    algorithm := algorithm, behavior := .durationIsGregorian }⟩

/-- A token bucket by the minute, then by the day, then a leaky bucket by the hour, at a quarter
    past ten on 2026-11-15. -/
def minuteDayHour : List Incoming :=
  [gregorianRequest .tokenBucket 0 1794737700000 1794737700000000000,
    gregorianRequest .tokenBucket 2 1794737701000 1794737705000000000]

/-- The last of the three ends with its hour. -/
theorem gregorian_expires_at_boundary_minuteDayHour :
    ∃ item, (Machine.exec (Owner.serve ⟨0⟩ .amd64) ⟨0, .ofItems []⟩ (minuteDayHour ++
        [gregorianRequest .leakyBucket 1 1794737710000 1794737710000000000])).shard.cache.peek
          "requests_account:1" = some item ∧
      gregorianExpiration utc 1794737710000000000 1 = .ok item.expireAt :=
  gregorian_expires_at_boundary ⟨0⟩ .amd64 utc_steady "requests_account:1" ⟨0, .ofItems []⟩
    (by rfl) (by rfl) (by simp [Shard.ofItems]) minuteDayHour
    (gregorianRequest .leakyBucket 1 1794737710000 1794737710000000000) (by decide +kernel)

/-- **Past the boundary, and short of it.**  A leaky request made five seconds ahead of the owner's
    clock leaves an item that outlives its minute by five seconds.  A token bucket that goes from
    days to minutes, with `created_at` two minutes ahead, is renewed until `created_at` itself. -/
theorem gregorian_misses_boundary :
    (∃ item, (Machine.exec (Owner.serve ⟨0⟩ .amd64) ⟨0, .ofItems []⟩
        [gregorianRequest .leakyBucket 0 1794737705000 1794737700000000000]).shard.cache.peek
          "requests_account:1" = some item ∧
      gregorianExpiration utc 1794737700000000000 0 = .ok 1794737759999 ∧
      item.expireAt = 1794737764999) ∧
    ∃ item, (Machine.exec (Owner.serve ⟨0⟩ .amd64) ⟨0, .ofItems []⟩
        [gregorianRequest .tokenBucket 2 1794737700000 1794737700000000000,
          gregorianRequest .tokenBucket 0 1794737820000 1794737700000000000]).shard.cache.peek
          "requests_account:1" = some item ∧
      gregorianExpiration utc 1794737700000000000 0 = .ok 1794737759999 ∧
      item.expireAt = 1794737820000 := by
  refine ⟨⟨⟨.leakyBucket, "requests_account:1",
    some (.leaky ⟨10, 59999, .fin 9, 1794737705000, 10⟩),
      1794737764999, 0⟩, by decide +kernel, by decide +kernel, rfl⟩,
    ⟨.tokenBucket, "requests_account:1", some (.token ⟨.underLimit, 10, 0, 9, 1794737820000⟩),
      1794737820000, 0⟩, by decide +kernel, by decide +kernel, rfl⟩

end Gubernator
