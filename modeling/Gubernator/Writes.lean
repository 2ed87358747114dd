/-
  WHAT A CALL WRITES.

  Both algorithms look the key up and decide, from the item they find and from nothing else of the
  cache and the Store, what they answer and what they write: nothing, a removal, a new item, an
  item changed in place.  A `Verdict` is that decision; `getLocalRateLimit_verdict` says that
  every request has one, and which writes a verdict can contain.

  What two caches that find the same item have in common, and what a request leaves alone, are
  then questions about the four kinds of write.
-/
import Gubernator.Leaky.Call
import Gubernator.Instance

namespace Gubernator

open Calendar

/-! ## Writes

A removal concerns the key of the call; the other three carry the item they write.  `create` adds to
the cache and can evict, the other two find their item there and change it in place. -/

/-- The four kinds of write. -/
inductive Write where
  /-- from the cache and from the Store -/
  | remove
  | create (item : CacheItem)
  /-- a found item changed, and the Store told -/
  | update (item : CacheItem)
  /-- a found item changed by a call that then failed, and the Store not told -/
  | mutate (item : CacheItem)

namespace Write

/-- What a write does to cache and Store. The Store is told of every removal, and of an item by the
    owner alone. -/
def apply (isOwner : Bool) (key : String) (s : Shard) : Write → Shard
  | remove => s.remove key
  | create item => s.create isOwner item
  | update item => s.update isOwner item
  | mutate item => { s with cache := s.cache.write item }

/-- The item written. -/
def item : Write → Option CacheItem
  | remove => none
  | create item => some item
  | update item => some item
  | mutate item => some item

end Write

/-- What a call answers, whether it looks the key up, and what it writes then. -/
structure Verdict where
  result : Except String RateLimitResp
  looksUp : Bool
  writes : List Write

/-- The shard after the call. -/
def Verdict.shard (v : Verdict) (isOwner : Bool) (now : ℤ) (s : Shard) (r : RateLimitReq) : Shard :=
  v.writes.foldl (Write.apply isOwner r.hashKey) (if v.looksUp then (s.lookup now r).2 else s)

/-- **Which writes a verdict contains**: of items of the key alone, each with a bucket and with
    the `InvalidAt` of the item found; and a call that answers tells the Store of every change. -/
structure Verdict.Sound (key : String) (found : Option (CacheItem × Bucket)) (v : Verdict) :
    Prop where
  /-- nothing is written under another key, and nothing without a bucket -/
  own : ∀ w ∈ v.writes, ∀ item, w.item = some item → item.key = key ∧ item.value ≠ none
  /-- no call sets `InvalidAt` -/
  invalidAt : ∀ w ∈ v.writes, ∀ item, w.item = some item →
    item.invalidAt = 0 ∨ ∃ i b, found = some (i, b) ∧ item.invalidAt = i.invalidAt
  /-- only a call that fails changes an item behind the Store's back -/
  told : ∀ resp, v.result = .ok resp → ∀ w ∈ v.writes, ∀ item, w ≠ .mutate item

section Sound
variable {key : String} {found : Option (CacheItem × Bucket)}

/-- A call that writes nothing. -/
theorem sound_nil (result : Except String RateLimitResp) (looksUp : Bool) :
    Verdict.Sound key found ⟨result, looksUp, []⟩ :=
  ⟨by simp, by simp, by simp⟩

/-- A removal before the other writes. -/
theorem Verdict.Sound.cons_remove {v : Verdict} (h : v.Sound key found) :
    Verdict.Sound key found ⟨v.result, v.looksUp, .remove :: v.writes⟩ := by
  constructor
  · intro w hw item hitem
    rcases List.mem_cons.mp hw with rfl | hw
    · cases hitem
    · exact h.own w hw item hitem
  · intro w hw item hitem
    rcases List.mem_cons.mp hw with rfl | hw
    · cases hitem
    · exact h.invalidAt w hw item hitem
  · intro resp hresp w hw item
    rcases List.mem_cons.mp hw with rfl | hw
    · simp
    · exact h.told resp hresp w hw item

/-- A new item. -/
theorem sound_create {item : CacheItem} (hkey : item.key = key) (hvalue : item.value ≠ none)
    (hinvalid : item.invalidAt = 0) (result : Except String RateLimitResp) :
    Verdict.Sound key found ⟨result, true, [.create item]⟩ := by
  constructor
  · rintro w hw i hi
    obtain rfl := List.mem_singleton.mp hw
    obtain rfl := Option.some.inj hi
    exact ⟨hkey, hvalue⟩
  · rintro w hw i hi
    obtain rfl := List.mem_singleton.mp hw
    obtain rfl := Option.some.inj hi
    exact .inl hinvalid
  · rintro resp - w hw i
    obtain rfl := List.mem_singleton.mp hw
    simp

/-- The item found, with other contents. -/
theorem sound_change {old : CacheItem} {b b' : Bucket} {x : ℤ} (hkey : old.key = key)
    {w : Write} (hw : w.item = some { old with value := some b', expireAt := x })
    {result : Except String RateLimitResp} (htold : ∀ resp, result = .ok resp →
      w = .update { old with value := some b', expireAt := x }) :
    Verdict.Sound key (some (old, b)) ⟨result, true, [w]⟩ := by
  constructor
  · rintro w' hw' i hi
    obtain rfl := List.mem_singleton.mp hw'
    rw [hw] at hi
    obtain rfl := Option.some.inj hi
    exact ⟨hkey, by simp⟩
  · rintro w' hw' i hi
    obtain rfl := List.mem_singleton.mp hw'
    rw [hw] at hi
    obtain rfl := Option.some.inj hi
    exact .inr ⟨old, b, rfl, rfl⟩
  · rintro resp hresp w' hw' i
    obtain rfl := List.mem_singleton.mp hw'
    rw [htold resp hresp]
    simp

end Sound

/-! ## The verdict of a token bucket

The verdict is given before the shard: one `v` for all shards in which the call finds `found`. -/

/-- A new token bucket: one item created, or an invalid Gregorian interval. -/
theorem tokenBucketNewItem_verdict (loc : Location) (now : ℤ) (r : RateLimitReq)
    (reqState : RateLimitReqState) (found : Option (CacheItem × Bucket)) :
    ∃ v : Verdict, v.Sound r.hashKey found ∧ v.looksUp = true ∧ ∀ s,
      tokenBucketNewItem loc now s r reqState =
        (v.result, v.writes.foldl (Write.apply reqState.isOwner r.hashKey) s) := by
  unfold tokenBucketNewItem
  cases (if hasBehavior r.behavior .durationIsGregorian then gregorianExpiration loc now r.duration
    else .ok (r.createdAt + r.duration)) with
  | error e => exact ⟨⟨.error e, true, []⟩, sound_nil _ _, rfl, fun s => rfl⟩
  | ok expireAt =>
    refine ⟨⟨_, true, [.create _]⟩, ?_, rfl, fun s => rfl⟩
    apply sound_create
    · rfl
    · simp
    · rfl

/-- A call that finds `found` decides by it. -/
theorem tokenBucket_verdict (loc : Location) (now : ℤ) (r : RateLimitReq)
    (reqState : RateLimitReqState) (found : Option (CacheItem × Bucket))
    (hfound : ∀ item b, found = some (item, b) → item.key = r.hashKey) :
    ∃ v : Verdict, v.Sound r.hashKey found ∧ ∀ s, s.find (epochMillis now) r = found →
      tokenBucket loc now s r reqState =
        (v.result, v.shard reqState.isOwner (epochMillis now) s r) := by
  obtain ⟨v, hsound, hlooks, hnew⟩ := tokenBucketNewItem_verdict loc now r reqState found
  rcases found with _ | ⟨item, b⟩
  · refine ⟨v, hsound, fun s hs => ?_⟩
    simp only [tokenBucket, hs, hnew, Verdict.shard, hlooks, if_true]
  -- a reset removes whatever is found, of either algorithm
  by_cases hreset : hasBehavior r.behavior .resetRemaining = true
  · refine ⟨⟨.ok { status := .underLimit, limit := r.limit, remaining := r.limit, resetTime := 0 },
      true, [.remove]⟩, (sound_nil _ true).cons_remove, fun s hs => ?_⟩
    simp only [tokenBucket, hs, hreset, if_true, Verdict.shard]
    rfl
  cases b with
  | leaky b =>
    refine ⟨⟨v.result, true, .remove :: v.writes⟩, ?_, fun s hs => ?_⟩
    · rw [← hlooks]
      exact hsound.cons_remove
    · simp only [tokenBucket, hs, hreset, Bool.false_eq_true, if_false, hnew, Verdict.shard,
        if_true]
      rfl
  | token t =>
    -- the new limit is set before the duration can fail, so an error leaves a changed item
    cases hout : (tokenBucketItem loc now r t item.expireAt).result with
    | error e =>
      refine ⟨⟨.error e, true, [.mutate { item with
          value := some (.token (tokenBucketItem loc now r t item.expireAt).bucket)
          expireAt := (tokenBucketItem loc now r t item.expireAt).expireAt }]⟩,
        sound_change (hfound item _ rfl) rfl (by simp), fun s hs => ?_⟩
      simp only [tokenBucket, hs, hreset, Bool.false_eq_true, if_false, hout, Verdict.shard,
        if_true]
      rfl
    | ok resp =>
      refine ⟨⟨.ok resp, true, [.update { item with
          value := some (.token (tokenBucketItem loc now r t item.expireAt).bucket)
          expireAt := (tokenBucketItem loc now r t item.expireAt).expireAt }]⟩,
        sound_change (hfound item _ rfl) rfl (fun _ _ => rfl), fun s hs => ?_⟩
      simp only [tokenBucket, hs, hreset, Bool.false_eq_true, if_false, hout, Verdict.shard,
        if_true]
      rfl

/-! ## The verdict of a leaky bucket -/

/-- A new leaky bucket once its duration is known: `NEVER_FITS` creates nothing. -/
theorem leakyBucketNewItem_verdict_ok {host : Host} {now : ℤ} {r : RateLimitReq}
    {reqState : RateLimitReqState} (found : Option (CacheItem × Bucket))
    (never created : RateLimitResp) (item : CacheItem) (hkey : item.key = r.hashKey)
    (hvalue : item.value ≠ none)
    (hinvalid : item.invalidAt = 0)
    (hcall : ∀ s, leakyBucketNewItem host now s r reqState =
      if 0 < r.maxWait ∧ r.burst < r.hits then (.ok never, s)
      else (.ok created, s.create reqState.isOwner item)) :
    ∃ v : Verdict, v.Sound r.hashKey found ∧ v.looksUp = true ∧ ∀ s,
      leakyBucketNewItem host now s r reqState =
        (v.result, v.writes.foldl (Write.apply reqState.isOwner r.hashKey) s) := by
  by_cases hnever : 0 < r.maxWait ∧ r.burst < r.hits
  · refine ⟨⟨.ok never, true, []⟩, sound_nil _ _, rfl, fun s => ?_⟩
    rw [hcall, if_pos hnever]
    rfl
  · refine ⟨⟨.ok created, true, [.create item]⟩, sound_create hkey hvalue hinvalid _, rfl,
      fun s => ?_⟩
    rw [hcall, if_neg hnever]
    rfl

/-- A new leaky bucket: nothing, one item created, or an invalid interval. -/
theorem leakyBucketNewItem_verdict (host : Host) (now : ℤ) (r : RateLimitReq)
    (reqState : RateLimitReqState) (found : Option (CacheItem × Bucket)) :
    ∃ v : Verdict, v.Sound r.hashKey found ∧ v.looksUp = true ∧ ∀ s,
      leakyBucketNewItem host now s r reqState =
        (v.result, v.writes.foldl (Write.apply reqState.isOwner r.hashKey) s) := by
  by_cases hg : hasBehavior r.behavior .durationIsGregorian = true
  · cases hx : gregorianExpiration host.location now r.duration with
    | error e =>
      refine ⟨⟨.error e, true, []⟩, sound_nil _ _, rfl, fun s => ?_⟩
      simp only [leakyBucketNewItem, hg, if_true, hx]
      rfl
    | ok expire =>
      refine leakyBucketNewItem_verdict_ok found ?never ?created ?item ?_ ?_ ?_ (fun s => ?call)
      case call =>
        simp only [leakyBucketNewItem, hg, if_true, hx]
        rfl
      · rfl
      · simp
      · rfl
  · refine leakyBucketNewItem_verdict_ok found ?plainNever ?plainCreated ?plainItem ?_ ?_ ?_
      (fun s => ?plainCall)
    case plainCall =>
      simp only [leakyBucketNewItem, hg, Bool.false_eq_true, if_false]
      rfl
    · rfl
    · simp
    · rfl

/-- The leaky bucket: it has no case of its own for a reset, and an error leaves the item as it was.
    -/
theorem leakyBucket_verdict (host : Host) (now : ℤ) (r : RateLimitReq)
    (reqState : RateLimitReqState) (found : Option (CacheItem × Bucket))
    (hfound : ∀ item b, found = some (item, b) → item.key = r.hashKey) :
    ∃ v : Verdict, v.Sound r.hashKey found ∧ ∀ s, s.find (epochMillis now) r = found →
      leakyBucket host now s r reqState =
        (v.result, v.shard reqState.isOwner (epochMillis now) s r) := by
  obtain ⟨v, hsound, hlooks, hnew⟩ :=
    leakyBucketNewItem_verdict host now r.withBurst reqState found
  rw [withBurst_hashKey] at hsound hnew
  -- nothing, the other algorithm's item, one of its own
  rcases found with _ | ⟨item, t | b⟩
  · refine ⟨v, hsound, fun s hs => ?_⟩
    simp only [leakyBucket, leakyBucketBurst, find_withBurst, lookup_withBurst, hs, hnew,
      Verdict.shard, hlooks, if_true]
  · refine ⟨⟨v.result, true, .remove :: v.writes⟩, ?_, fun s hs => ?_⟩
    · rw [← hlooks]
      exact hsound.cons_remove
    · simp only [leakyBucket, leakyBucketBurst, find_withBurst, lookup_withBurst, hs, hnew,
        Verdict.shard, if_true, withBurst_hashKey]
      rfl
  · cases hout : leakyBucketItem host now r.withBurst reqState b item.expireAt with
    | error e =>
      refine ⟨⟨.error e, true, []⟩, sound_nil _ _, fun s hs => ?_⟩
      simp only [leakyBucket, leakyBucketBurst, find_withBurst, lookup_withBurst, hs, hout,
        Verdict.shard, if_true]
      rfl
    | ok out =>
      refine ⟨⟨.ok out.resp, true, [.update { item with
          value := some (.leaky out.b), expireAt := out.expireAt }]⟩,
        sound_change (hfound item _ rfl) rfl (fun _ _ => rfl), fun s hs => ?_⟩
      simp only [leakyBucket, leakyBucketBurst, find_withBurst, lookup_withBurst, hs, hout,
        Verdict.shard, if_true]
      rfl

/-! ## The verdict of a request

The layers above the algorithms change the answer, not the writes: an error gets a message in front,
and a request that fails validation is not even looked up. -/

/-- What a worker makes of it; an unknown algorithm is an error without a lookup. -/
theorem handleGetRateLimit_verdict (conf : Config) (host : Host) (now : ℤ) (r : RateLimitReq)
    (reqState : RateLimitReqState) (found : Option (CacheItem × Bucket))
    (hfound : ∀ item b, found = some (item, b) → item.key = r.hashKey) :
    ∃ v : Verdict, v.Sound r.hashKey found ∧ ∀ s, s.find (epochMillis now) r = found →
      handleGetRateLimit conf host now s r reqState =
        (v.result, v.shard reqState.isOwner (epochMillis now) s r) := by
  -- wrapping an error turns no answer into an error, and no error into an answer
  have hwrap : ∀ (v : Verdict) (msg : String), v.Sound r.hashKey found →
      Verdict.Sound r.hashKey found ⟨wrapError msg v.result, v.looksUp, v.writes⟩ := by
    intro v msg h
    refine ⟨h.own, h.invalidAt, fun resp hresp => ?_⟩
    cases hv : v.result with
    | error e => simp [hv, wrapError] at hresp
    | ok resp' => exact h.told resp' hv
  cases halg : r.algorithm with
  | tokenBucket =>
    obtain ⟨v, hsound, hcall⟩ := tokenBucket_verdict host.location now r reqState found hfound
    refine ⟨⟨_, v.looksUp, v.writes⟩, hwrap v "Error in tokenBucket" hsound, fun s hs => ?_⟩
    simp only [handleGetRateLimit, halg, hcall s hs]
    rfl
  | leakyBucket =>
    obtain ⟨v, hsound, hcall⟩ := leakyBucket_verdict host now r
      { reqState with waitCeiling := conf.scheduleMaxWait } found hfound
    refine ⟨⟨_, v.looksUp, v.writes⟩, hwrap v "Error in leakyBucket" hsound, fun s hs => ?_⟩
    simp only [handleGetRateLimit, halg, hcall s hs]
    rfl
  | unknown code =>
    refine ⟨⟨?answer, false, []⟩, sound_nil _ _, fun s hs => ?call⟩
    case call =>
      simp only [handleGetRateLimit, halg]
      rfl

/-- **Every request has a verdict**, decided by what it finds. -/
theorem getLocalRateLimit_verdict (conf : Config) (host : Host) (now : ℤ) (r : RateLimitReq)
    (reqState : RateLimitReqState) (found : Option (CacheItem × Bucket))
    (hfound : ∀ item b, found = some (item, b) → item.key = r.hashKey) :
    ∃ v : Verdict, v.Sound r.hashKey found ∧ ∀ s, s.find (epochMillis now) r = found →
      (getLocalRateLimit conf host now s r reqState).result = v.result ∧
      (getLocalRateLimit conf host now s r reqState).shard =
        v.shard reqState.isOwner (epochMillis now) s r := by
  by_cases hmsg : validateMaxWait r = ""
  swap
  · refine ⟨⟨.ok { error := validateMaxWait r }, false, []⟩, sound_nil _ _, fun s hs => ?_⟩
    simp only [getLocalRateLimit, ne_eq, hmsg, not_false_eq_true, if_true]
    exact ⟨trivial, rfl⟩
  obtain ⟨v, hsound, hcall⟩ := handleGetRateLimit_verdict conf host now r reqState found hfound
  cases hv : v.result with
  | error e =>
    refine ⟨⟨.error ("during workerPool.GetRateLimit: " ++ e), v.looksUp, v.writes⟩,
      ⟨hsound.own, hsound.invalidAt, by simp⟩, fun s hs => ?_⟩
    have := hcall s hs
    simp only [getLocalRateLimit, hmsg, ne_eq, not_true_eq_false, if_false, this, hv]
    exact ⟨trivial, rfl⟩
  | ok resp =>
    refine ⟨v, hsound, fun s hs => ?_⟩
    have := hcall s hs
    simp only [getLocalRateLimit, hmsg, ne_eq, not_true_eq_false, if_false, this, hv]
    exact ⟨trivial, trivial⟩

end Gubernator
