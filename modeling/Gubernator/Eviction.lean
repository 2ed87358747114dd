/-
  EVICTION IS INVISIBLE behind a faithful Store.

  The Store keeps the snapshot of the last `OnChange` of a key until `Remove`, and serves it until
  its `ExpireAt` has passed.  If every change of a bucket reaches it, the cache is only a copy:
  what a request finds is what the Store would serve, cached or not (`InStep.find`), so a key
  dropped from the cache between two requests leaves all later answers as they were.

  The write-through is the `told` of a verdict.  A call that fails can change a cached bucket
  without telling the Store (`Write.mutate`), which is why runs with errors are left out.

  The invariant is one of the Store, `InStep`.  A request is looked at through its verdict
  (`Writes`): it is a function of what is found, and its writes go to cache and Store.  So two
  owners whose Stores agree on the key give the same answers, whatever their caches hold
  (`serve_inStep`), and eviction only makes caches differ.
-/
import Gubernator.Writes
import Gubernator.Instance

namespace Gubernator

/-! ## Cache and Store in step

The Store of the model is an interface: what it serves is a parameter.  Here it serves what the
cache would, until `ExpireAt`. -/

/-- A snapshot is served until its `ExpireAt` has passed. -/
def Store.Faithful (st : Store) : Prop :=
  ∀ item now, st.serves item now = decide (now ≤ item.expireAt)

/-- **Cache and Store agree on the key**: the Store is faithful and holds a proper item of the key
    or none, and what is cached is what it holds. -/
structure InStep (key : String) (s : Shard) : Prop where
  faithful : ∃ st, s.store = some st ∧ st.Faithful
  proper : ∀ item, s.stored key = some item →
    item.key = key ∧ item.value ≠ none ∧ item.invalidAt = 0
  cached : ∀ item, s.cache.peek key = some item → s.stored key = some item

/-- What a request for the key finds if it asks the Store alone. -/
def Shard.storedBucket (s : Shard) (key : String) (now : ℤ) : Option (CacheItem × Bucket) :=
  (s.stored key).bind (fun item =>
    if now ≤ item.expireAt then item.value.map (fun b => (item, b)) else none)

/-- A new key: nothing cached and nothing stored. -/
theorem inStep_of_absent {key : String} {s : Shard} {st : Store} (hst : s.store = some st)
    (hfaithful : st.Faithful) (hcache : s.cache.peek key = none) (hstored : s.stored key = none) :
    InStep key s := by
  refine ⟨⟨st, hst, hfaithful⟩, ?_, ?_⟩
  · intro item hitem
    rw [hstored] at hitem
    cases hitem
  · intro item hitem
    rw [hcache] at hitem
    cases hitem

section Steps
variable {key : String} {s s' : Shard} {r : RateLimitReq} {now : ℤ}

/-- The Store gives what it holds, until that has expired. -/
theorem InStep.get (h : InStep key s) (hr : r.hashKey = key) :
    s.store.bind (fun st => st.get r now) =
      (s.stored key).filter (fun item => decide (now ≤ item.expireAt)) := by
  obtain ⟨st, hst, hfaithful⟩ := h.faithful
  subst hr
  simp only [Shard.stored, hst, Option.bind_some, Store.get]
  exact congrArg (fun p => Option.filter p (st.items r.hashKey))
    (funext (fun item => hfaithful item now))

/-- **What a request finds is what the Store holds.** -/
theorem InStep.find (h : InStep key s) (hr : r.hashKey = key) :
    s.find now r = s.storedBucket key now := by
  -- what the Store has is of the key and has a bucket, so the sanity checks pass it
  have hsane : ∀ item, s.stored key = some item → Shard.sane r item =
      item.value.map (fun b => (item, b)) := by
    intro item hitem
    obtain ⟨hk, -, -⟩ := h.proper item hitem
    unfold Shard.sane
    cases item.value with
    | none => rfl
    | some v => exact if_pos (hk.trans hr.symm)
  -- a miss in the cache: the Store is asked
  have hmiss : (s.cache.getItem r.hashKey now).1 = none →
      s.find now r = s.storedBucket key now := by
    intro hnone
    unfold Shard.find Shard.lookup Shard.storedBucket
    rcases hg : s.cache.getItem r.hashKey now with ⟨hit, c⟩
    rw [hg] at hnone
    obtain rfl : hit = none := hnone
    simp only [h.get hr]
    cases hst : s.stored key with
    | none => rfl
    | some item =>
      rw [Option.filter_some, Option.bind_some]
      by_cases hlive : now ≤ item.expireAt
      · simp only [hlive, decide_true, if_true, Option.bind_some]
        exact hsane item hst
      · simp only [hlive, decide_false, Bool.false_eq_true, if_false, Option.bind_none]
  -- cached or not, and if cached then expired or not
  cases hc : s.cache.peek key with
  | none => exact hmiss (Cache.getItem_of_none (by rw [hr]; exact hc))
  | some item =>
    have hst := h.cached item hc
    have hexpired : item.isExpired now = decide (item.expireAt < now) := by
      simp [CacheItem.isExpired, (h.proper item hst).2.2]
    rw [← hr] at hc
    by_cases hlive : now ≤ item.expireAt
    · have hfresh : item.isExpired now = false := by rw [hexpired]; simpa using hlive
      rw [Shard.find, Shard.lookup_of_fresh hc hfresh, Option.bind_some, hsane item hst]
      simp [Shard.storedBucket, hst, hlive]
    · exact hmiss (Cache.getItem_of_expired hc (by rw [hexpired]; simpa using hlive))

/-- What is found is of the key, and was never invalidated. -/
theorem storedBucket_key (h : InStep key s) {item : CacheItem} {b : Bucket}
    (hfound : s.storedBucket key now = some (item, b)) :
    item.key = key ∧ item.invalidAt = 0 := by
  obtain ⟨i, hi, hif⟩ := Option.bind_eq_some_iff.mp hfound
  split at hif
  · obtain ⟨b', -, heq⟩ := Option.map_eq_some_iff.mp hif
    obtain ⟨rfl, -⟩ := Prod.mk.inj heq
    exact ⟨(h.proper i hi).1, (h.proper i hi).2.2⟩
  · cases hif

/-- A lookup copies from the Store into the cache, or drops what has expired. -/
theorem InStep.lookup (h : InStep key s) (hr : r.hashKey = key) :
    InStep key (s.lookup now r).2 := by
  subst hr
  have hstore : (s.lookup now r).2.store = s.store := by
    unfold Shard.lookup
    repeat' split
    all_goals rfl
  have hholds : s.Holds r.hashKey (fun item => s.stored r.hashKey = some item) :=
    ⟨h.cached, fun item hi => hi⟩
  refine ⟨by rw [hstore]; exact h.faithful, ?_, ?_⟩
  · intro item hitem
    rw [Shard.stored_lookup] at hitem
    exact h.proper item hitem
  · intro item hitem
    rw [Shard.stored_lookup]
    exact (hholds.afterLookup (fun i hi => (h.proper i hi).1)).cached item hitem

/-- Dropping the key from the cache. -/
theorem InStep.evict (h : InStep key s) : InStep key { s with cache := s.cache.remove key } := by
  refine ⟨h.faithful, h.proper, ?_⟩
  intro item hitem
  rw [Cache.peek_remove] at hitem
  cases hitem

/-! ## Writes that reach the Store

The owner's writes go to both.  After `create` and `update` both hold the item, after `remove`
neither does; what the Store holds then is determined by the write alone. -/

/-- An item the owner writes to both. -/
structure Proper (key : String) (item : CacheItem) : Prop where
  key_eq : item.key = key
  value : item.value ≠ none
  invalidAt : item.invalidAt = 0

/-- After a change the Store was told of, both hold the new item. -/
theorem InStep.change {item : CacheItem} (h : InStep key s) (hitem : Proper key item) {c : Cache}
    (hc : ∀ i, c.peek key = some i → i = item) :
    InStep key ⟨c, s.store.map (fun st => st.onChange item)⟩ ∧
      Shard.stored ⟨c, s.store.map (fun st => st.onChange item)⟩ key = some item := by
  obtain ⟨st, hst, hfaithful⟩ := h.faithful
  have hstored : Shard.stored ⟨c, s.store.map (fun st => st.onChange item)⟩ key = some item := by
    simp only [Shard.stored, hst, Option.map_some, Option.bind_some]
    rw [← hitem.key_eq]
    exact Store.items_onChange_self st item
  refine ⟨⟨⟨st.onChange item, by rw [hst]; rfl, hfaithful⟩, ?_, ?_⟩, hstored⟩
  · intro i hi
    rw [hstored] at hi
    obtain rfl := Option.some.inj hi
    exact ⟨hitem.key_eq, hitem.value, hitem.invalidAt⟩
  · intro i hi
    rw [hstored, hc i hi]

/-- One write of an owner that tells the Store: cache and Store stay in step, and what the Store
    holds afterwards does not depend on the cache. -/
theorem InStep.write (h : InStep key s) (h' : InStep key s') {w : Write}
    (hw : ∀ item, w.item = some item → Proper key item) (htold : ∀ item, w ≠ .mutate item) :
    InStep key (w.apply true key s) ∧
      (w.apply true key s).stored key = (w.apply true key s').stored key := by
  cases w with
  | remove =>
    have hnone : ∀ t : Shard, InStep key t → InStep key (t.remove key) ∧
        (t.remove key).stored key = none := by
      intro t ht
      obtain ⟨st, hst, hfaithful⟩ := ht.faithful
      have hstored : (t.remove key).stored key = none := by
        simp [Shard.remove, Shard.stored, hst]
      have hstore : (t.remove key).store = some (st.remove key) := by
        simp [Shard.remove, hst]
      exact ⟨inStep_of_absent hstore hfaithful (by simp [Shard.remove]) hstored, hstored⟩
    exact ⟨(hnone s h).1, (hnone s h).2.trans (hnone s' h').2.symm⟩
  | create item =>
    have hitem := hw item rfl
    -- an eviction by the `Add` is of another key: this one has just been added
    have hadd : ∀ (c : Cache) (i : CacheItem), (c.add item).peek key = some i → i = item := by
      intro c i hi
      rw [← hitem.key_eq, Cache.peek_add_self] at hi
      exact (Option.some.inj hi).symm
    have h₁ := h.change hitem (hadd s.cache)
    exact ⟨h₁.1, h₁.2.trans (h'.change hitem (hadd s'.cache)).2.symm⟩
  | update item =>
    have hitem := hw item rfl
    -- if the key is cached it is with the item; if it is not, a write does not make it so
    have hwrite : ∀ (c : Cache) (i : CacheItem), (c.write item).peek key = some i → i = item := by
      intro c i hi
      have hmem := List.mem_of_find?_eq_some hi
      obtain ⟨j, -, rfl⟩ := List.mem_map.mp hmem
      have hk := Cache.peek_key hi
      split at hk
      · rename_i hj
        rw [if_pos hj]
      · rename_i hj
        rw [hitem.key_eq, hk] at hj
        simp at hj
    have h₁ := h.change hitem (hwrite s.cache)
    exact ⟨h₁.1, h₁.2.trans (h'.change hitem (hwrite s'.cache)).2.symm⟩
  | mutate item => exact absurd rfl (htold item)

/-- All writes of a verdict, one after another. -/
theorem InStep.writes {ws : List Write}
    (hw : ∀ w ∈ ws, ∀ item, w.item = some item → Proper key item)
    (htold : ∀ w ∈ ws, ∀ item, w ≠ .mutate item) (h : InStep key s) (h' : InStep key s')
    (hsame : s.stored key = s'.stored key) :
    InStep key (ws.foldl (Write.apply true key) s) ∧
      InStep key (ws.foldl (Write.apply true key) s') ∧
      (ws.foldl (Write.apply true key) s).stored key =
        (ws.foldl (Write.apply true key) s').stored key := by
  induction ws generalizing s s' with
  | nil => exact ⟨h, h', hsame⟩
  | cons w ws ih =>
    have hwp := hw w List.mem_cons_self
    have hwt := htold w List.mem_cons_self
    obtain ⟨h₁, hsame₁⟩ := h.write h' hwp hwt
    obtain ⟨h₁', -⟩ := h'.write h hwp hwt
    exact ih (fun w' hw' => hw w' (List.mem_cons_of_mem _ hw'))
      (fun w' hw' => htold w' (List.mem_cons_of_mem _ hw')) h₁ h₁' hsame₁

end Steps

/-! ## Runs

A run with evictions in it, against the run of its requests alone. -/

/-- What can happen to the key: a request, or its eviction from the cache. -/
inductive CacheEvent where
  | request (i : Incoming)
  | evict

/-- A request is served, and an eviction answers nothing. -/
def Owner.serveOrEvict (conf : Config) (host : Host) (key : String) (o : Owner) :
    CacheEvent → Option (Except String RateLimitResp) × Owner
  | .request i => (some (o.serve conf host i).1, (o.serve conf host i).2)
  | .evict => (none, { o with shard := { o.shard with cache := o.shard.cache.remove key } })

/-- The requests of a run. -/
def requestsOf (es : List CacheEvent) : List Incoming :=
  es.filterMap (fun e => match e with
    | .request i => some i
    | .evict => none)

/-- Two owners whose Stores hold the same for the key answer alike, and go on so. -/
theorem serve_inStep (conf : Config) (host : Host) {key : String} {o o' : Owner} {i : Incoming}
    (hkey : i.req.hashKey = key) (h : InStep key o.shard) (h' : InStep key o'.shard)
    (hsame : o.shard.stored key = o'.shard.stored key) :
    (o.serve conf host i).1 = (o'.serve conf host i).1 ∧
      (∀ resp, (o'.serve conf host i).1 = .ok resp →
        InStep key (o.serve conf host i).2.shard ∧ InStep key (o'.serve conf host i).2.shard ∧
        (o.serve conf host i).2.shard.stored key = (o'.serve conf host i).2.shard.stored key) := by
  set found := o.shard.storedBucket key (epochMillis i.now) with hfound
  have hbucket : found = o'.shard.storedBucket key (epochMillis i.now) := by
    rw [hfound, Shard.storedBucket, Shard.storedBucket, hsame]
  obtain ⟨v, hsound, hcall⟩ := getLocalRateLimit_verdict conf host i.now i.req { isOwner := true }
    found (fun item b hb => (storedBucket_key h hb).1.trans hkey.symm)
  rw [hkey] at hsound
  obtain ⟨hres, hshard⟩ := hcall o.shard (h.find hkey)
  obtain ⟨hres', hshard'⟩ := hcall o'.shard ((h'.find hkey).trans hbucket.symm)
  refine ⟨hres.trans hres'.symm, fun resp hresp => ?_⟩
  have hok : v.result = .ok resp := hres'.symm.trans hresp
  -- the items it writes are proper: of the key, with a value, and not invalidated
  have hproper : ∀ w ∈ v.writes, ∀ item, w.item = some item → Proper key item := by
    intro w hw item hitem
    obtain ⟨hk, hv⟩ := hsound.own w hw item hitem
    refine ⟨hk, hv, ?_⟩
    rcases hsound.invalidAt w hw item hitem with h0 | ⟨j, b, hj, heq⟩
    · exact h0
    · exact heq.trans (storedBucket_key h hj).2
  -- the lookup that the verdict may begin with leaves the Store as it is
  have hstart : ∀ t : Shard, InStep key t →
      InStep key (if v.looksUp then (t.lookup (epochMillis i.now) i.req).2 else t) ∧
        (if v.looksUp then (t.lookup (epochMillis i.now) i.req).2 else t).stored key =
          t.stored key := by
    intro t ht
    split
    · exact ⟨ht.lookup hkey, Shard.stored_lookup ..⟩
    · exact ⟨ht, rfl⟩
  have hwrites := InStep.writes hproper (hsound.told resp hok) (hstart _ h).1 (hstart _ h').1
    ((hstart _ h).2.trans (hsame.trans (hstart _ h').2.symm))
  show InStep key (getLocalRateLimit conf host i.now o.shard i.req { isOwner := true }).shard ∧
    InStep key (getLocalRateLimit conf host i.now o'.shard i.req { isOwner := true }).shard ∧
    (getLocalRateLimit conf host i.now o.shard i.req { isOwner := true }).shard.stored key =
      (getLocalRateLimit conf host i.now o'.shard i.req { isOwner := true }).shard.stored key
  rw [hshard, hshard', Verdict.shard, Verdict.shard, hkey]
  exact hwrites

/-- **Eviction is invisible**: in a run on one key in which no request fails, dropping the key from
    the cache between requests, at any points, leaves every answer as it is. -/
theorem eviction_invisible (conf : Config) (host : Host) (key : String) (o : Owner)
    (hstep : InStep key o.shard) (es : List CacheEvent)
    (hkey : ∀ i ∈ requestsOf es, i.req.hashKey = key)
    (hok : ∀ e ∈ Machine.events (Owner.serve conf host) o (requestsOf es), e.2.isOk = true) :
    (Machine.events (Owner.serveOrEvict conf host key) o es).filterMap Prod.snd =
      (Machine.events (Owner.serve conf host) o (requestsOf es)).map Prod.snd := by
  -- the two owners drift apart in their caches, and stay together in their Stores
  suffices h : ∀ es (o o' : Owner), InStep key o.shard → InStep key o'.shard →
      o.shard.stored key = o'.shard.stored key →
      (∀ i ∈ requestsOf es, i.req.hashKey = key) →
      (∀ e ∈ Machine.events (Owner.serve conf host) o' (requestsOf es), e.2.isOk = true) →
      (Machine.events (Owner.serveOrEvict conf host key) o es).filterMap Prod.snd =
        (Machine.events (Owner.serve conf host) o' (requestsOf es)).map Prod.snd by
    exact h es o o hstep hstep rfl hkey hok
  intro es
  induction es with
  | nil =>
    intro o o' _ _ _ _ _
    rfl
  | cons e es ih =>
    intro o o' h h' hsame hkey hok
    cases e with
    | evict => exact ih _ o' h.evict h' hsame hkey hok
    | request i =>
      have hki : i.req.hashKey = key := hkey i List.mem_cons_self
      obtain ⟨hanswer, hnext⟩ := serve_inStep conf host hki h h' hsame
      have hanswered : (o'.serve conf host i).1.isOk = true :=
        hok (i, (o'.serve conf host i).1) List.mem_cons_self
      obtain ⟨resp, hresp⟩ : ∃ resp, (o'.serve conf host i).1 = .ok resp := by
        cases hres : (o'.serve conf host i).1 with
        | error e => simp [hres, Except.isOk, Except.toBool] at hanswered
        | ok resp => exact ⟨resp, rfl⟩
      obtain ⟨h₁, h₁', hsame₁⟩ := hnext resp hresp
      have hrest := ih _ _ h₁ h₁' hsame₁ (fun j hj => hkey j (List.mem_cons_of_mem _ hj))
        (fun e he => hok e (List.mem_cons_of_mem _ he))
      show (o.serve conf host i).1 :: _ = (o'.serve conf host i).1 :: _
      rw [hanswer]
      exact congrArg (List.cons _) hrest

/-- An empty Store that serves a snapshot until its `ExpireAt`. -/
def Store.empty : Store where
  items := fun _ => none
  serves := fun item now => decide (now ≤ item.expireAt)

/-- A leaky bucket in debt, evicted before a second booking; then a token bucket in its place,
    evicted as well. -/
def evictedRun : List CacheEvent :=
  [.request ⟨5000000000, .sample 1 1 1000 1 5000 0⟩,
    .request ⟨5000000000, .sample 1 1 1000 1 5000 3000⟩, .evict,
    .request ⟨5500000000, .sample 1 1 1000 1 5500 3000⟩,
    .request ⟨5600000000, { RateLimitReq.sample 2 5 1000 0 5600 0 with algorithm := .tokenBucket }⟩,
    .evict,
    .request ⟨5700000000, { RateLimitReq.sample 2 5 1000 0 5700 0 with algorithm := .tokenBucket }⟩]

/-- What is left is 0, 0, 0, 3 and 1, with the evictions and without. -/
theorem eviction_invisible_evictedRun :
    ((Machine.events (Owner.serve ⟨300000000000⟩ .amd64) ⟨0, ⟨⟨0, []⟩, some .empty⟩⟩
      (requestsOf evictedRun)).filterMap (fun e => e.2.toOption)).map RateLimitResp.remaining =
        [0, 0, 0, 3, 1] ∧
    (Machine.events (Owner.serveOrEvict ⟨300000000000⟩ .amd64 "requests_account:1")
      ⟨0, ⟨⟨0, []⟩, some .empty⟩⟩ evictedRun).filterMap Prod.snd =
    (Machine.events (Owner.serve ⟨300000000000⟩ .amd64) ⟨0, ⟨⟨0, []⟩, some .empty⟩⟩
      (requestsOf evictedRun)).map Prod.snd :=
  ⟨by decide +kernel,
    eviction_invisible ⟨300000000000⟩ .amd64 "requests_account:1" ⟨0, ⟨⟨0, []⟩, some .empty⟩⟩
      (inStep_of_absent rfl (fun _ _ => rfl) rfl rfl) evictedRun (by decide +kernel)
      (by decide +kernel)⟩

end Gubernator
