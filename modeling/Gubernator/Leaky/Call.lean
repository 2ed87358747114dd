/-
  One call of `leakyBucket`, as its effect on the key.

  `LeakyCall` lists the ways a call can go — it fails, it works on the item it found, it refuses
  a request that can never fit, it creates an item — with the cache and the Store that result.
  `leakyBucket_holds` is the step rule for what every copy of the key's item satisfies.

  The proofs about `leakyBucket` all go through here, so that none of them has to unfold it.

    * FOUND. What a request does to the item it found is `charge`, on the balance brought up to date
      (`credited`); `Charged` of `Leaky/Balance` lists its results, and the deferred extension of
      the expiry changes none of them but the expiry (`Charged.later`).
    * CALL. `leakyBucket_call` puts the lookup, the removal of a token bucket, the work on the item
      and the creation together.  A theorem about calls is a case split on `LeakyCall`.
    * KEY. `Shard.Holds` speaks of the item wherever there is a copy, since a call may find it in
      the Store after the cache has lost it.  A peer that is not the owner does not tell the Store,
      and its copy there is the old one; that is why the rule has two predicates.
-/
import Gubernator.Leaky.Balance

namespace Gubernator

open ExactFloat

/-! ## The default burst changes nothing else

`leakyBucket` starts by filling in a burst of zero.  The lemmas let a proof forget it. -/

section WithBurst
variable (r : RateLimitReq)

/-- Only the burst is another. -/
theorem withBurst_eq : r.withBurst = { r with burst := r.withBurst.burst } := by
  unfold RateLimitReq.withBurst
  split <;> rfl

-- so each of the other fields that a call reads is the same
@[simp] theorem withBurst_hits : r.withBurst.hits = r.hits := by rw [withBurst_eq]
@[simp] theorem withBurst_limit : r.withBurst.limit = r.limit := by rw [withBurst_eq]
@[simp] theorem withBurst_duration : r.withBurst.duration = r.duration := by rw [withBurst_eq]
@[simp] theorem withBurst_algorithm : r.withBurst.algorithm = r.algorithm := by rw [withBurst_eq]
@[simp] theorem withBurst_behavior : r.withBurst.behavior = r.behavior := by rw [withBurst_eq]
@[simp] theorem withBurst_createdAt : r.withBurst.createdAt = r.createdAt := by rw [withBurst_eq]
@[simp] theorem withBurst_maxWait : r.withBurst.maxWait = r.maxWait := by rw [withBurst_eq]
@[simp] theorem withBurst_hashKey : r.withBurst.hashKey = r.hashKey := by
  rw [withBurst_eq]
  rfl

/-- The default burst does not matter to the lookup, which goes by the key. -/
@[simp] theorem lookup_withBurst (s : Shard) (now : ℤ) :
    s.lookup now r.withBurst = s.lookup now r := by
  simp only [Shard.lookup, Store.get, withBurst_hashKey]

/-- The default burst does not matter to what is found. -/
@[simp] theorem find_withBurst (s : Shard) (now : ℤ) : s.find now r.withBurst = s.find now r := by
  have hsane : Shard.sane r.withBurst = Shard.sane r := by
    funext item
    simp only [Shard.sane, withBurst_hashKey]
  simp only [Shard.find, lookup_withBurst, hsane]

/-- Rate and duration do not depend on the burst. -/
@[simp] theorem requestTerms_withBurst (host : Host) (now : ℤ) :
    requestTerms host now r.withBurst = requestTerms host now r := by
  simp only [requestTerms, withBurst_behavior, withBurst_limit, withBurst_duration]

end WithBurst

/-! ## The found item -/

/-- The terms a request on a found item was worked on with, and its outcome but for the expiry,
    which the deferred extension can still lengthen. -/
theorem leakyBucketItem_ok {host : Host} {now : ℤ} {r : RateLimitReq}
    {reqState : RateLimitReqState} {b : LeakyBucketItem} {x : ℤ} {out : LeakyOutcome}
    (h : leakyBucketItem host now r reqState b x = .ok out) :
    ∃ tm, leakyTerms host now r b = .ok tm ∧ out = deferredExpiry host tm
      (chargeRate tm (credited r tm b)) (charge host (touchedExpiry r tm x) (credited r tm b) r
        reqState tm (chargeRate tm (credited r tm b))) := by
  unfold leakyBucketItem at h
  cases htm : leakyTerms host now r b with
  | error e => simp [htm] at h
  | ok tm =>
    simp only [htm] at h
    exact ⟨tm, rfl, (Except.ok.inj h).symm⟩

/-- The deferred extension leaves the answer and the bucket, and the expiry no earlier. -/
theorem deferredExpiry_fields (host : Host) (tm : LeakyTerms) (rate : ExactFloat)
    (c : LeakyOutcome) : (deferredExpiry host tm rate c).resp = c.resp ∧
      (deferredExpiry host tm rate c).b = c.b ∧
      c.expireAt ≤ (deferredExpiry host tm rate c).expireAt := by
  unfold deferredExpiry
  split
  · exact ⟨rfl, rfl, le_extendDebtExpiry ..⟩
  · exact ⟨rfl, rfl, le_rfl⟩

/-- A key that was in debt and changed its config expires no earlier than it is full. -/
theorem deferredExpiry_full {host : Host} {tm : LeakyTerms} {rate : ExactFloat}
    (c : LeakyOutcome) (hdebt : tm.wasInDebt = true)
    (hchanged : tm.burstChanged = true ∨ tm.configChanged = true)
    (husable : unusableRate rate = false) :
    fullAt host c.b rate ≤ (deferredExpiry host tm rate c).expireAt := by
  rw [deferredExpiry, if_pos ⟨hdebt, hchanged, by simp [husable]⟩]
  exact fullAt_le_extendDebtExpiry ..

/-- A later expiry is as good. -/
theorem Charged.later {host : Host} {x : ℤ} {b : LeakyBucketItem} {q : ℚ} {r : RateLimitReq}
    {reqState : RateLimitReqState} {now : ℤ} {rate : ExactFloat} {c out : LeakyOutcome}
    (h : Charged host x b q r reqState now rate c) (hresp : out.resp = c.resp) (hb : out.b = c.b)
    (hx : c.expireAt ≤ out.expireAt) : Charged host x b q r reqState now rate out := by
  cases h with
  | kept h1 h2 h3 h4 => exact .kept (hb.trans h1) (hresp ▸ h2) (hresp ▸ h3) (h4.trans hx)
  | drained h1 h2 h3 => exact .drained (hb.trans h1) (hresp ▸ h2) (h3.trans hx)
  | admitted h1 h2 h3 h4 h5 =>
    exact .admitted h1 h2 (hb.trans h3) (hresp ▸ h4) (h5.trans hx)
  | refunded h1 h2 h3 h4 h5 =>
    exact .refunded h1 h2 (hb.trans h3) (hresp ▸ h4) (h5.trans hx)
  | booked ρ h1 h2 h3 h4 h5 h6 h7 h8 h9 h10 h11 h12 =>
    exact .booked ρ h1 h2 h3 h4 h5 h6 (hb.trans h7) (hresp ▸ h8) (hresp ▸ h9) (hresp ▸ h10)
      (h11.trans hx) (hb ▸ h12.trans hx)

/-- **A request on a found item** does to the credited balance what `Charged` lists. -/
theorem leakyBucketItem_charged {host : Host} {now : ℤ} {r : RateLimitReq}
    {reqState : RateLimitReqState} {b : LeakyBucketItem} {x : ℤ} {out : LeakyOutcome}
    {tm : LeakyTerms} {q : ℚ} (hout : leakyBucketItem host now r reqState b x = .ok out)
    (htm : leakyTerms host now r b = .ok tm) (hq : (credited r tm b).remaining = .fin q)
    (hqB : q ≤ (credited r tm b).burst) (hvalid : 0 < r.maxWait → 0 ≤ r.hits) :
    Charged host (touchedExpiry r tm x) (credited r tm b) q r reqState tm.createdAt
      (chargeRate tm (credited r tm b)) out := by
  obtain ⟨tm₁, htm₁, rfl⟩ := leakyBucketItem_ok hout
  obtain rfl := Except.ok.inj (htm.symm.trans htm₁)
  -- `charge` decides; the extension comes after
  obtain ⟨hresp, hb, hx⟩ := deferredExpiry_fields host tm (chargeRate tm (credited r tm b))
    (charge host (touchedExpiry r tm x) (credited r tm b) r reqState tm
      (chargeRate tm (credited r tm b)))
  exact (charge_charged host _ hq hqB reqState tm _ hvalid).later hresp hb hx

/-! ## The call -/

/-- The tokens a new bucket starts with. -/
def newBalance (r : RateLimitReq) : ℤ :=
  if r.burst < r.hits then 0 else min r.burst (r.burst - r.hits)

/-- The bucket of a request that creates one. -/
def newLeakyBucket (r : RateLimitReq) (createdAt duration : ℤ) : LeakyBucketItem :=
  { limit := r.limit, duration := duration, remaining := .ofInt (newBalance r)
    updatedAt := createdAt, burst := r.burst }

/-- And its item, which ends with the duration. -/
def newLeakyItem (r : RateLimitReq) (createdAt duration : ℤ) : CacheItem :=
  { algorithm := r.algorithm, key := r.hashKey, expireAt := createdAt + duration
    value := some (.leaky (newLeakyBucket r createdAt duration)) }

/-- **Every way a call can go.**  `r` has its default burst; `base` is the shard once the key has
    been looked up and an item of the other algorithm removed. -/
inductive LeakyCall (host : Host) (now : ℤ) (s : Shard) (r : RateLimitReq)
    (reqState : RateLimitReqState) (base : Shard) (result : Except String RateLimitResp)
    (s' : Shard) : Prop
  | failed (e : String) (hterms : ∀ terms, requestTerms host now r ≠ .ok terms)
      (hr : result = .error e) (hs : s' = base)
  | worked (item : CacheItem) (b : LeakyBucketItem) (out : LeakyOutcome)
      (hfind : s.find (epochMillis now) r = some (item, .leaky b))
      (hbase : base = (s.lookup (epochMillis now) r).2)
      (hout : leakyBucketItem host now r reqState b item.expireAt = .ok out)
      (hr : result = .ok out.resp)
      (hs : s' = base.update reqState.isOwner
        { item with value := some (.leaky out.b), expireAt := out.expireAt })
  | neverFits (resp : RateLimitResp)
      (hfind : ∀ item b, s.find (epochMillis now) r ≠ some (item, .leaky b))
      (hterms : ∃ terms, requestTerms host now r = .ok terms)
      (wait : 0 < r.maxWait) (large : r.burst < r.hits) (hr : result = .ok resp)
      (hstatus : resp.status = .neverFits) (hs : s' = base)
  | created (resp : RateLimitResp) (createdAt duration : ℤ)
      (hfind : ∀ item b, s.find (epochMillis now) r ≠ some (item, .leaky b))
      (hterms : ∃ terms, requestTerms host now r = .ok terms)
      (fits : 0 < r.maxWait → r.hits ≤ r.burst)
      (hcreated : createdAt = if 0 < r.maxWait then epochMillis now else r.createdAt)
      (hduration : hasBehavior r.behavior .durationIsGregorian = false → duration = r.duration)
      (hr : result = .ok resp)
      (hstatus : resp.status = if r.burst < r.hits then .overLimit else .underLimit)
      (hs : s' = base.create reqState.isOwner (newLeakyItem r createdAt duration))

/-- A request has terms unless its Gregorian duration is none. -/
theorem requestTerms_ok_iff (host : Host) (now : ℤ) (r : RateLimitReq) :
    (∃ terms, requestTerms host now r = .ok terms) ↔
      (hasBehavior r.behavior .durationIsGregorian = true → ValidGregorian r.duration) := by
  unfold requestTerms
  by_cases hg : hasBehavior r.behavior .durationIsGregorian = true
  · simp only [hg, if_true, forall_const]
    by_cases hv : ValidGregorian r.duration
    · obtain ⟨d, hd⟩ := (gregorianDuration_ok_iff host.location now r.duration).mpr hv
      obtain ⟨e, he⟩ := (gregorianExpiration_ok_iff host.location now r.duration).mpr hv
      simp [hd, he, hv]
    · have hd : ∀ d, gregorianDuration host.location now r.duration ≠ .ok d := fun d h =>
        hv ((gregorianDuration_ok_iff _ _ _).mp ⟨d, h⟩)
      cases h : gregorianDuration host.location now r.duration with
      | error e => simp [hv]
      | ok d => exact absurd h (hd d)
  · simp [hg]

/-- **A request that finds no leaky bucket**: the calendar has no such interval, the hits never fit,
    or an item is made. -/
theorem leakyBucketNewItem_call (host : Host) (now : ℤ) {s : Shard} (r : RateLimitReq)
    (reqState : RateLimitReqState) (base : Shard)
    (hfind : ∀ item b, s.find (epochMillis now) r ≠ some (item, .leaky b)) :
    LeakyCall host now s r reqState base (leakyBucketNewItem host now base r reqState).1
      (leakyBucketNewItem host now base r reqState).2 := by
  unfold leakyBucketNewItem
  dsimp only
  split
  · -- the calendar's error is the only one
    rename_i e herr
    refine .failed e (fun terms hterms => ?_) rfl rfl
    have hvalid := (requestTerms_ok_iff host now r).mp ⟨terms, hterms⟩
    split at herr
    · rename_i hg
      obtain ⟨x, hx⟩ := (gregorianExpiration_ok_iff host.location now r.duration).mpr (hvalid hg)
      rw [hx] at herr
      cases herr
    · cases herr
  rename_i duration hdur
  -- no error, so the request has terms
  have hterms : ∃ terms, requestTerms host now r = .ok terms := by
    refine (requestTerms_ok_iff host now r).mpr (fun hg => ?_)
    rw [if_pos hg] at hdur
    refine (gregorianExpiration_ok_iff host.location now r.duration).mp ?_
    cases hx : gregorianExpiration host.location now r.duration with
    | error e => rw [hx] at hdur; cases hdur
    | ok x => exact ⟨x, rfl⟩
  split
  · rename_i hnever
    exact .neverFits _ hfind hterms hnever.1 hnever.2 rfl rfl rfl
  · rename_i hfits
    refine .created _ _ duration hfind hterms (fun hw => ?_) rfl (fun hg => ?_) rfl ?_ ?_
    · by_contra hlt
      exact hfits ⟨hw, not_le.mp hlt⟩
    · rw [hg] at hdur
      exact (Except.ok.inj hdur).symm
    · simp only [decide_eq_true_eq]
    · simp only [newLeakyItem, newLeakyBucket, newBalance, decide_eq_true_eq]

/-- The shard a call goes on with after the lookup. -/
def leakyBase (now : ℤ) (s : Shard) (r : RateLimitReq) : Shard :=
  match s.find (epochMillis now) r with
  | some (_, .token _) => (s.lookup (epochMillis now) r).2.remove r.hashKey
  | _ => (s.lookup (epochMillis now) r).2

/-- **Every call of `leakyBucket` is one of these.** -/
theorem leakyBucket_call (host : Host) (now : ℤ) (s : Shard) (r : RateLimitReq)
    (reqState : RateLimitReqState) :
    LeakyCall host now s r.withBurst reqState (leakyBase now s r)
      (leakyBucket host now s r reqState).1 (leakyBucket host now s r reqState).2 := by
  unfold leakyBucket leakyBucketBurst leakyBase
  simp only [lookup_withBurst, find_withBurst, withBurst_hashKey]
  -- nothing found, a token bucket found, a leaky bucket found
  rcases hfind : s.find (epochMillis now) r with _ | ⟨item, t | b⟩
  · refine leakyBucketNewItem_call host now r.withBurst reqState _ (fun item b => ?_)
    rw [find_withBurst, hfind]
    simp
  · refine leakyBucketNewItem_call host now r.withBurst reqState _ (fun item b => ?_)
    rw [find_withBurst, hfind]
    simp
  · dsimp only
    cases hout : leakyBucketItem host now r.withBurst reqState b item.expireAt with
    | error e =>
      refine .failed e (fun terms hterms => ?_) rfl rfl
      simp [leakyBucketItem, leakyTerms, hterms] at hout
    | ok out =>
      refine .worked item b out ?_ ?_ hout rfl rfl
      · rw [find_withBurst, hfind]
      · rw [lookup_withBurst]

/-- A request that finds no leaky bucket goes on as for a new key. -/
theorem leakyBucket_missing {host : Host} {now : ℤ} {s : Shard} {r : RateLimitReq}
    {reqState : RateLimitReqState}
    (hmiss : ∀ item b, s.find (epochMillis now) r ≠ some (item, .leaky b)) :
    leakyBucket host now s r reqState =
      leakyBucketNewItem host now (leakyBase now s r) r.withBurst reqState := by
  unfold leakyBucket leakyBucketBurst leakyBase
  rw [find_withBurst, lookup_withBurst, withBurst_hashKey]
  rcases hfind : s.find (epochMillis now) r with _ | ⟨item, t | b⟩
  · rfl
  · rfl
  · exact absurd hfind (hmiss item b)

/-- **What a request that creates an item answers and creates.** -/
theorem leakyBucketNewItem_creates (host : Host) {now : ℤ} (base : Shard) {r : RateLimitReq}
    (reqState : RateLimitReqState) {rate : ExactFloat} {d : ℤ}
    (hterms : requestTerms host now r = .ok (rate, d))
    (hfits : ¬ (0 < r.maxWait ∧ r.burst < r.hits)) :
    leakyBucketNewItem host now base r reqState =
      let createdAt := if 0 < r.maxWait then epochMillis now else r.createdAt
      (.ok { status := if r.burst < r.hits then .overLimit else .underLimit, limit := r.limit
             remaining := newBalance r
             resetTime := createdAt +
               (r.limit - newBalance r) * host.int64 (rateOf r.limit r.duration) },
        base.create reqState.isOwner (newLeakyItem r createdAt d)) := by
  -- both read the length off the calendar, or take the request's
  unfold requestTerms at hterms
  unfold leakyBucketNewItem
  by_cases hg : hasBehavior r.behavior .durationIsGregorian = true
  · cases hlen : gregorianDuration host.location now r.duration with
    | error e => simp [hg, hlen] at hterms
    | ok len =>
      cases hend : gregorianExpiration host.location now r.duration with
      | error e => simp [hg, hlen, hend] at hterms
      | ok expire =>
        simp only [hg, if_true, hlen, hend, Except.ok.injEq, Prod.mk.injEq] at hterms ⊢
        obtain ⟨-, rfl⟩ := hterms
        simp only [hfits, if_false, decide_eq_true_eq, newLeakyItem, newLeakyBucket, newBalance]
  · simp only [hg, Bool.false_eq_true, if_false, Except.ok.injEq, Prod.mk.injEq] at hterms ⊢
    obtain ⟨-, rfl⟩ := hterms
    simp only [hfits, if_false, decide_eq_true_eq, newLeakyItem, newLeakyBucket, newBalance]

/-- A call that finds a leaky item and does not fail leaves that item in the cache, with the
    contents `leakyBucketItem` gives it. -/
theorem leakyBucket_found {host : Host} {now : ℤ} {s : Shard} {r : RateLimitReq}
    {reqState : RateLimitReqState} {item : CacheItem} {b : LeakyBucketItem} {resp : RateLimitResp}
    (hfind : s.find (epochMillis now) r = some (item, .leaky b))
    (hok : (leakyBucket host now s r reqState).1 = .ok resp) :
    ∃ out, leakyBucketItem host now r.withBurst reqState b item.expireAt = .ok out ∧
      resp = out.resp ∧ (leakyBucket host now s r reqState).2.cache.peek r.hashKey =
        some { item with value := some (.leaky out.b), expireAt := out.expireAt } := by
  unfold leakyBucket leakyBucketBurst at hok ⊢
  simp only [lookup_withBurst, find_withBurst, hfind] at hok ⊢
  cases hout : leakyBucketItem host now r.withBurst reqState b item.expireAt with
  | error e => simp [hout] at hok
  | ok out =>
    simp only [hout] at hok ⊢
    refine ⟨out, rfl, (Except.ok.inj hok).symm, Shard.peek_update_found hfind ?_ _⟩
    rfl

/-- The same, from the outcome on the item. -/
theorem leakyBucket_of_item {host : Host} {now : ℤ} {s : Shard} {r : RateLimitReq}
    {reqState : RateLimitReqState} {item : CacheItem} {b : LeakyBucketItem} {out : LeakyOutcome}
    (hfind : s.find (epochMillis now) r = some (item, .leaky b))
    (hout : leakyBucketItem host now r.withBurst reqState b item.expireAt = .ok out) :
    (leakyBucket host now s r reqState).1 = .ok out.resp ∧
      (leakyBucket host now s r reqState).2.cache.peek r.hashKey =
        some { item with value := some (.leaky out.b), expireAt := out.expireAt } := by
  have hok : (leakyBucket host now s r reqState).1 = .ok out.resp := by
    simp only [leakyBucket, leakyBucketBurst, find_withBurst, hfind, hout]
  refine ⟨hok, ?_⟩
  obtain ⟨out', hout', -, hpeek⟩ := leakyBucket_found hfind hok
  obtain rfl := Except.ok.inj (hout.symm.trans hout')
  exact hpeek

/-- A call that finds a leaky item and fails leaves it as the lookup found it. -/
theorem leakyBucket_found_error {host : Host} {now : ℤ} {s : Shard} {r : RateLimitReq}
    {reqState : RateLimitReqState} {item : CacheItem} {b : LeakyBucketItem} {e : String}
    (hfind : s.find (epochMillis now) r = some (item, .leaky b))
    (herr : (leakyBucket host now s r reqState).1 = .error e) :
    (leakyBucket host now s r reqState).2 = (s.lookup (epochMillis now) r).2 := by
  unfold leakyBucket leakyBucketBurst at herr ⊢
  simp only [lookup_withBurst, find_withBurst, hfind] at herr ⊢
  split at herr
  · rfl
  · cases herr

/-! ## What every copy of the key's item satisfies -/

/-- `P` holds of the key's item wherever there is one, in the cache and in the Store. -/
structure Shard.Holds (s : Shard) (key : String) (P : CacheItem → Prop) : Prop where
  cached : ∀ item, s.cache.peek key = some item → P item
  stored : ∀ item, s.stored key = some item → P item

namespace Shard

variable {s : Shard} {key : String} {P Q : CacheItem → Prop}

/-- A weaker property. -/
theorem Holds.mono (h : s.Holds key P) (himp : ∀ item, P item → Q item) : s.Holds key Q :=
  ⟨fun item hi => himp item (h.cached item hi), fun item hi => himp item (h.stored item hi)⟩

/-- Nothing is said of a key that is nowhere. -/
theorem holds_of_absent (hc : s.cache.peek key = none) (hs : s.stored key = none) :
    s.Holds key P :=
  ⟨fun item hi => by simp [hc] at hi, fun item hi => by simp [hs] at hi⟩

/-- The item looked up is the cache's or the Store's. -/
theorem Holds.lookup {now : ℤ} {r : RateLimitReq} (h : s.Holds r.hashKey P) {item : CacheItem}
    (hitem : (s.lookup now r).1 = some item) : P item := by
  have hp := Cache.peek_getItem s.cache r.hashKey now
  unfold Shard.lookup at hitem
  rcases hg : s.cache.getItem r.hashKey now with ⟨hit, c⟩
  cases hit with
  | some i =>
    simp only [hg] at hitem
    obtain rfl := Option.some.inj hitem
    -- found in the cache
    refine h.cached i ?_
    unfold Cache.getItem at hg
    cases hpeek : s.cache.peek r.hashKey with
    | none => simp [hpeek] at hg
    | some entry =>
      simp only [hpeek] at hg
      split at hg
      · simp at hg
      · simp only [Prod.mk.injEq, Option.some.injEq] at hg
        rw [← hg.1]
  | none =>
    simp only [hg] at hitem
    cases hs : s.store.bind (fun st => st.get r now) with
    | none => simp [hs] at hitem
    | some i =>
      simp only [hs] at hitem
      obtain rfl := Option.some.inj hitem
      -- fetched from the Store
      obtain ⟨st, hst, hget⟩ := Option.bind_eq_some_iff.mp hs
      refine h.stored i ?_
      rw [Shard.stored, hst]
      exact (Option.filter_eq_some_iff.mp hget).1

/-- What an algorithm finds is what is looked up. -/
theorem Holds.find {now : ℤ} {r : RateLimitReq} (h : s.Holds r.hashKey P) {item : CacheItem}
    {v : Bucket} (hfind : s.find now r = some (item, v)) : P item := h.lookup (find_key hfind).1

/-- The lookup may move the item, drop it or fetch it, and adds nothing new. -/
theorem Holds.afterLookup {now : ℤ} {r : RateLimitReq} (h : s.Holds r.hashKey P)
    (hkey : ∀ item, P item → item.key = r.hashKey) : (s.lookup now r).2.Holds r.hashKey P := by
  refine ⟨fun item hi => ?_, fun item hi => h.stored item (by simpa using hi)⟩
  cases hl : (s.lookup now r).1 with
  | none =>
    rw [peek_lookup_none hl] at hi
    cases hi
  | some found =>
    have hP : P found := h.lookup hl
    rw [peek_lookup hl (hkey found hP)] at hi
    obtain rfl := Option.some.inj hi
    exact hP

/-- After a removal there is no copy. -/
theorem holds_remove (s : Shard) (key : String) : (s.remove key).Holds key P := by
  refine holds_of_absent (by simp [Shard.remove]) ?_
  cases h : s.store <;> simp [Shard.remove, Shard.stored, h]

/-- After a change the Store has the new item, if it was told, or the one it had. -/
theorem stored_change (s : Shard) (c : Cache) (isOwner : Bool) (item : CacheItem) (i : CacheItem)
    (hi : Shard.stored { cache := c
                         store := s.store.map (fun st => if isOwner then st.onChange item else st) }
      item.key = some i) : i = item ∨ s.stored item.key = some i := by
  cases h : s.store with
  | none => simp [Shard.stored, h] at hi
  | some st =>
    cases isOwner with
    | true => simp [Shard.stored, h] at hi; exact .inl hi.symm
    | false => simp [Shard.stored, h] at hi; exact .inr (by simpa [Shard.stored, h] using hi)

/-- A new item is the only one in the cache. -/
theorem Holds.create (h : s.Holds key P) {item : CacheItem} (hk : item.key = key)
    (isOwner : Bool) (hP : P item) : (s.create isOwner item).Holds key P := by
  subst hk
  refine ⟨fun i hi => ?_, fun i hi => ?_⟩
  · rw [Shard.create, Cache.peek_add_self] at hi
    rw [← Option.some.inj hi]
    exact hP
  · rcases stored_change s _ isOwner item i hi with rfl | h'
    · exact hP
    · exact h.stored i h'

/-- An item written in place of the one that was there. -/
theorem Holds.update (h : s.Holds key P) {item old : CacheItem} (hk : item.key = key)
    (hold : s.cache.peek key = some old) (isOwner : Bool) (hP : P item) :
    (s.update isOwner item).Holds key P := by
  subst hk
  refine ⟨fun i hi => ?_, fun i hi => ?_⟩
  · rw [Shard.update, Cache.peek_write_self hold] at hi
    rw [← Option.some.inj hi]
    exact hP
  · rcases stored_change s _ isOwner item i hi with rfl | h'
    · exact hP
    · exact h.stored i h'

/-- What the owner writes replaces every copy. -/
theorem stored_owner {s : Shard} {c : Cache} {item i : CacheItem}
    (hi : Shard.stored { cache := c
                         store := s.store.map (fun st => if true then st.onChange item else st) }
      item.key = some i) : i = item := by
  cases h : s.store with
  | none => simp [Shard.stored, h] at hi
  | some st =>
    simp [Shard.stored, h] at hi
    exact hi.symm

/-- The owner tells the Store, so nothing need be known of the copies before. -/
theorem holds_create_owner (s : Shard) {item : CacheItem} (hk : item.key = key) (hP : P item) :
    (s.create true item).Holds key P := by
  subst hk
  refine ⟨fun i hi => ?_, fun i hi => ?_⟩
  · rw [Shard.create, Cache.peek_add_self] at hi
    rw [← Option.some.inj hi]
    exact hP
  · rw [stored_owner hi]
    exact hP

/-- The same for an item written. -/
theorem holds_update_owner {item old : CacheItem} (hk : item.key = key)
    (hold : s.cache.peek key = some old) (hP : P item) : (s.update true item).Holds key P := by
  subst hk
  refine ⟨fun i hi => ?_, fun i hi => ?_⟩
  · rw [Shard.update, Cache.peek_write_self hold] at hi
    rw [← Option.some.inj hi]
    exact hP
  · rw [stored_owner hi]
    exact hP

end Shard

/-- **Step rule.**  What holds of every copy of the key's item, is kept by the work on a found
    item and holds of a new one, holds after the call. -/
theorem leakyBucket_holds {host : Host} {now : ℤ} {s : Shard} {r : RateLimitReq}
    {reqState : RateLimitReqState} {P Q : CacheItem → Prop} (h : s.Holds r.hashKey P)
    (hkey : ∀ item, P item → item.key = r.hashKey) (hPQ : ∀ item, P item → Q item)
    (hworked : ∀ item b out, P item → s.find (epochMillis now) r = some (item, .leaky b) →
      leakyBucketItem host now r.withBurst reqState b item.expireAt = .ok out →
      (leakyBucket host now s r reqState).1 = .ok out.resp →
      Q { item with value := some (.leaky out.b), expireAt := out.expireAt })
    (hcreated : ∀ createdAt duration,
      createdAt = (if 0 < r.maxWait then epochMillis now else r.createdAt) →
      (hasBehavior r.behavior .durationIsGregorian = false → duration = r.duration) →
      Q (newLeakyItem r.withBurst createdAt duration)) :
    (leakyBucket host now s r reqState).2.Holds r.hashKey Q := by
  have hbase : (leakyBase now s r).Holds r.hashKey P := by
    unfold leakyBase
    split
    · exact Shard.holds_remove _ _
    · exact h.afterLookup hkey
  -- a call that fails or refuses leaves what the lookup left
  cases leakyBucket_call host now s r reqState with
  | failed e _ hr hs => rw [hs]; exact hbase.mono hPQ
  | neverFits resp hfind _ wait large hr hstatus hs => rw [hs]; exact hbase.mono hPQ
  | created resp createdAt duration hfind _ fits hc hd hr hstatus hs =>
    rw [hs]
    simp only [withBurst_maxWait, withBurst_createdAt, withBurst_behavior,
      withBurst_duration] at hc hd
    exact (hbase.mono hPQ).create (withBurst_hashKey r) _ (hcreated createdAt duration hc hd)
  | worked item b out hfind hb hout hr hs =>
    rw [find_withBurst] at hfind
    rw [lookup_withBurst] at hb
    obtain ⟨hitem, -, hk⟩ := Shard.find_key hfind
    rw [hs]
    refine (hbase.mono hPQ).update ?_ (hb ▸ Shard.peek_lookup hitem hk) _ ?_
    · exact hk
    · exact hworked item b out (h.find hfind) hfind hout hr

end Gubernator
