/-
  ONE BUCKET PER KEY: however many peers and workers there are, clients see a ledger.

  A client may ask any peer.  `GetRateLimits` there looks the owner of the key up in the ring, and
  answers from its own pool or forwards the request; the owner's `GetPeerRateLimits` answers it from
  its pool.  A pool has workers, each with a cache.  All that is machinery: the LEDGER below has one
  entry per key and nothing else, and the answers are the ledger's.

  What stands between the two, and what discharges it:
    * peers, workers   the entry of a key is in ONE cache, that of its worker at its owner, and a
                       request is decided by the entry of its key there (`SameView`);
    * other keys       a request leaves their entries alone, but for the least recently used of a
                       full cache, which an `Add` evicts (`Spares`): the ledger may FORGET;
    * forwarding       the owner gets the request stamped already, and with `max_wait` flagged
                       `NO_BATCHING`, which no algorithm reads (`getLocalRateLimit_forwarded`);
    * restarts         a peer comes back with a pool of any shape, and with some of its entries;
                       with all of them if it was saved and loaded (`WorkerPool/Reshard`).

  No Store is configured, the ring does not change, the requests are not GLOBAL, and calls of other
  peers succeed.  Requests come one after another: what the workers of a pool do to concurrent calls
  is `WorkerPool/Dispatch`.  The peer asked stamps a request by its clock, and the owner's clock is
  the one it is handled at.  The text of an error tells whether it was forwarded.

  The proof has three stages.  A request is decided by the entry of its key and changes no other,
  but for an eviction (`Sharded.served`).  A request put to any peer is one request at the owner's
  pool (`step_valid`).  So one event of the cluster is one event of a ledger that may forget
  (`Refines.step`), and runs follow by `Machine.simulation_rule`.
-/
import Gubernator.WorkerPool.Contents
import Gubernator.GetPeerRateLimits
import Gubernator.KeyView
import Gubernator.Leaky.Creation

namespace Gubernator

/-! ## The entry of a key decides

Two shards that have the same entry for a key give the same answer to a request for it, and have the
same entry for it afterwards.  The proof goes through the verdict of the request: it is computed
from what `find` gives, and its writes are all of the request's key. -/

/-- A write changes the entry if there is one, and does not make one. -/
theorem Cache.peek_write (c : Cache) (item : CacheItem) :
    (c.write item).peek item.key = (c.peek item.key).map (fun _ => item) := by
  cases hpeek : c.peek item.key with
  | some old => exact Cache.peek_write_self hpeek
  | none =>
    have hsame : c.write item = c := by
      have hitems : c.items.map (fun i => if i.key == item.key then item else i) = c.items := by
        refine (List.map_congr_left (fun i hi => ?_)).trans (List.map_id' _)
        have hne := List.find?_eq_none.mp hpeek i hi
        rw [if_neg hne]
      unfold Cache.write
      rw [hitems]
    rw [hsame]
    exact hpeek

/-- **The same for a key**: no Store, and the same entry. -/
structure Shard.SameView (key : String) (s t : Shard) : Prop where
  store : s.store = none
  store' : t.store = none
  peek : s.cache.peek key = t.cache.peek key

namespace Shard.SameView

variable {key : String} {s t : Shard} {now : ℤ} {r : RateLimitReq}

/-- Without a Store a lookup is `GetItem`. -/
theorem lookup_eq (hstore : s.store = none) (now : ℤ) (r : RateLimitReq) :
    s.lookup now r =
      ((s.cache.getItem r.hashKey now).1,
        { s with cache := (s.cache.getItem r.hashKey now).2 }) := by
  rw [lookup_eq_recache, hstore]
  cases (s.cache.getItem r.hashKey now).1 <;> rfl

/-- The lookup finds the same, and leaves the same. -/
theorem lookup (h : s.SameView r.hashKey t) (now : ℤ) :
    (s.lookup now r).1 = (t.lookup now r).1 ∧
      (s.lookup now r).2.SameView r.hashKey (t.lookup now r).2 := by
  have hgot : (s.cache.getItem r.hashKey now).1 = (t.cache.getItem r.hashKey now).1 := by
    rw [getItem_eq_filter, getItem_eq_filter, h.peek]
  rw [lookup_eq h.store, lookup_eq h.store']
  refine ⟨hgot, h.store, h.store', ?_⟩
  rw [Cache.peek_getItem, Cache.peek_getItem]
  exact hgot

/-- And so does the bucket found. -/
theorem find (h : s.SameView r.hashKey t) (now : ℤ) : s.find now r = t.find now r := by
  rw [Shard.find, Shard.find, (h.lookup now).1]

/-- A write of an item of the key. -/
theorem apply (h : s.SameView key t) (isOwner : Bool) {w : Write}
    (hw : ∀ item, w.item = some item → item.key = key) :
    (w.apply isOwner key s).SameView key (w.apply isOwner key t) := by
  have hnone : ∀ f : Store → Store, s.store.map f = none ∧ t.store.map f = none := by
    intro f
    rw [h.store, h.store']
    exact ⟨rfl, rfl⟩
  cases w with
  | remove =>
    refine ⟨(hnone _).1, (hnone _).2, ?_⟩
    exact (Cache.peek_remove _ _).trans (Cache.peek_remove _ _).symm
  | create item =>
    obtain rfl := hw item rfl
    refine ⟨(hnone _).1, (hnone _).2, ?_⟩
    exact (Cache.peek_add_self _ _).trans (Cache.peek_add_self _ _).symm
  | update item =>
    obtain rfl := hw item rfl
    refine ⟨(hnone _).1, (hnone _).2, ?_⟩
    show (s.cache.write item).peek item.key = (t.cache.write item).peek item.key
    rw [Cache.peek_write, Cache.peek_write, h.peek]
  | mutate item =>
    obtain rfl := hw item rfl
    refine ⟨h.store, h.store', ?_⟩
    show (s.cache.write item).peek item.key = (t.cache.write item).peek item.key
    rw [Cache.peek_write, Cache.peek_write, h.peek]

/-- Several writes, one after another. -/
theorem writes {ws : List Write} {isOwner : Bool}
    (hw : ∀ w ∈ ws, ∀ item, w.item = some item → item.key = key) (h : s.SameView key t) :
    (ws.foldl (Write.apply isOwner key) s).SameView key (ws.foldl (Write.apply isOwner key) t) := by
  induction ws generalizing s t with
  | nil => exact h
  | cons w ws ih =>
    exact ih (fun w' hw' => hw w' (List.mem_cons_of_mem _ hw'))
      (h.apply isOwner (hw w List.mem_cons_self))

/-- **A request is decided by the entry of its key**, and so is the entry it leaves. -/
theorem getLocalRateLimit (h : s.SameView r.hashKey t) (conf : Config) (host : Host) (now : ℤ)
    (reqState : RateLimitReqState) :
    (getLocalRateLimit conf host now s r reqState).result =
        (Gubernator.getLocalRateLimit conf host now t r reqState).result ∧
      (Gubernator.getLocalRateLimit conf host now s r reqState).shard.SameView r.hashKey
        (Gubernator.getLocalRateLimit conf host now t r reqState).shard := by
  obtain ⟨v, hsound, hcall⟩ := getLocalRateLimit_verdict conf host now r reqState
    (s.find (epochMillis now) r) (fun item b hb => (Shard.find_key hb).2.2)
  obtain ⟨hresult, hshard⟩ := hcall s rfl
  obtain ⟨hresult', hshard'⟩ := hcall t (h.find (epochMillis now)).symm
  rw [hresult, hresult', hshard, hshard']
  refine ⟨rfl, ?_⟩
  unfold Verdict.shard
  refine writes (fun w hw item hitem => (hsound.own w hw item hitem).1) ?_
  cases v.looksUp with
  | true => exact (h.lookup (epochMillis now)).2
  | false => exact h

end Shard.SameView

/-! ## What the other keys lose

The other side: what a request for one key does to the cache beyond that key.  The items of the
other keys are looked at as a list, most recently used first; a request drops nothing from it but
possibly its last. -/

/-- **What a step costs the other keys** of a cache: nothing, or, when they fill it, the least
    recently used of them. -/
structure Spares (k : String) (f : Shard → Shard) : Prop where
  store : ∀ {s}, s.store = none → (f s).store = none
  size : ∀ {s}, s.store = none → (f s).cache.cacheSize = s.cache.cacheSize
  others : ∀ {s}, s.store = none → (s.others k).length ≤ s.cache.cacheSize →
    (f s).others k = s.others k ∨
    ((s.others k).length = s.cache.cacheSize ∧ s.others k ≠ [] ∧
      (f s).others k = (s.others k).dropLast)

namespace Spares

variable {k : String} {f g : Shard → Shard}

/-- Nothing is lost by doing nothing. -/
theorem id (k : String) : Spares k (fun s => s) := ⟨fun h => h, fun _ => rfl, fun _ _ => .inl rfl⟩

/-- A second step finds room: at most one item goes. -/
theorem comp (hg : Spares k g) (hf : Spares k f) : Spares k (fun s => g (f s)) where
  store h := hg.store (hf.store h)
  size h := (hg.size (hf.store h)).trans (hf.size h)
  others := by
    intro s hs hfits
    have hsize := hf.size hs
    rcases hf.others hs hfits with hkept | ⟨hfull, hne, hlost⟩
    · have hsecond := hg.others (hf.store hs) (by rw [hkept, hsize]; exact hfits)
      rw [hkept, hsize] at hsecond
      exact hsecond
    · have hpos := List.length_pos_of_ne_nil hne
      have hroom : ((f s).others k).length < (f s).cache.cacheSize := by
        rw [hlost, hsize, List.length_dropLast]
        omega
      rcases hg.others (hf.store hs) hroom.le with hkept | ⟨hagain, -, -⟩
      · exact .inr ⟨hfull, hne, hkept.trans hlost⟩
      · omega

/-- A write of the key. Only a `create` can evict, and only if the key is new. -/
theorem write (isOwner : Bool) {w : Write} (hw : ∀ item, w.item = some item → item.key = k) :
    Spares k (fun s => w.apply isOwner k s) := by
  have hkeyed : ∀ {s : Shard}, s.store = none → s.Keyed := by
    intro s hs st hst
    rw [hs] at hst
    cases hst
  refine ⟨fun {s} hs => ?_, fun hs => (local_write isOwner hw).size (hkeyed hs), ?_⟩
  · cases w <;> simp [Write.apply, Shard.remove, Shard.create, Shard.update, hs]
  · intro s hs hfits
    cases w with
    | remove => exact .inl (congrArg Cache.items (Cache.remove_remove s.cache k))
    | update item =>
      obtain rfl := hw item rfl
      exact .inl (congrArg Cache.items (Cache.write_remove_self s.cache item))
    | mutate item =>
      obtain rfl := hw item rfl
      exact .inl (congrArg Cache.items (Cache.write_remove_self s.cache item))
    | create item =>
      obtain rfl := hw item rfl
      by_cases hevicts : s.cache.AddEvicts item
      · obtain ⟨hlost, hne⟩ := Cache.add_remove_evicts hevicts
        obtain ⟨hnew, -, hfull⟩ := hevicts
        refine .inr ⟨le_antisymm hfits ?_, hne, hlost⟩
        -- the key is new, so all the items are of other keys
        rw [Shard.others, Cache.remove_of_peek_none hnew]
        exact Nat.lt_succ_iff.mp hfull
      · exact .inl (congrArg Cache.items (Cache.add_remove_self hevicts))

/-- Several writes still drop at most one item. -/
theorem writes (isOwner : Bool) {ws : List Write}
    (hw : ∀ w ∈ ws, ∀ item, w.item = some item → item.key = k) :
    Spares k (fun s => ws.foldl (Write.apply isOwner k) s) := by
  induction ws with
  | nil => exact Spares.id k
  | cons w ws ih =>
    have hrest := ih (fun w' hw' => hw w' (List.mem_cons_of_mem _ hw'))
    exact hrest.comp (write isOwner (hw w List.mem_cons_self))

/-- A lookup of the key touches no other, not even the order of the rest. -/
theorem lookup (now : ℤ) (r : RateLimitReq) : Spares r.hashKey (fun s => (s.lookup now r).2) := by
  refine ⟨fun {s} hs => ?_, fun {s} hs => ?_, fun {s} hs _ => .inl ?_⟩
  · rw [Shard.SameView.lookup_eq hs]
    exact hs
  · rw [Shard.SameView.lookup_eq hs]
    exact Cache.getItem_cacheSize s.cache r.hashKey now
  · rw [Shard.SameView.lookup_eq hs]
    exact congrArg Cache.items (Cache.getItem_remove_self s.cache r.hashKey now)

/-- **A request costs the other keys at most the least recently used one of a full cache.** -/
theorem getLocalRateLimit (conf : Config) (host : Host) (now : ℤ) (r : RateLimitReq)
    (reqState : RateLimitReqState) {s : Shard} (hs : s.store = none)
    (hfits : (s.others r.hashKey).length ≤ s.cache.cacheSize) :
    let after := (Gubernator.getLocalRateLimit conf host now s r reqState).shard
    after.store = none ∧ after.cache.cacheSize = s.cache.cacheSize ∧
      (after.others r.hashKey = s.others r.hashKey ∨
        ((s.others r.hashKey).length = s.cache.cacheSize ∧ s.others r.hashKey ≠ [] ∧
          after.others r.hashKey = (s.others r.hashKey).dropLast)) := by
  obtain ⟨v, hsound, hcall⟩ := getLocalRateLimit_verdict conf host now r reqState
    (s.find (epochMillis now) r) (fun item b hb => (Shard.find_key hb).2.2)
  have hwrites := writes reqState.isOwner (fun w hw item hi => (hsound.own w hw item hi).1)
  have hspares : Spares r.hashKey (fun t => v.shard reqState.isOwner (epochMillis now) t r) := by
    unfold Verdict.shard
    cases v.looksUp with
    | true => exact hwrites.comp (lookup (epochMillis now) r)
    | false => exact hwrites
  rw [(hcall s rfl).2]
  exact ⟨hspares.store hs, hspares.size hs, hspares.others hs hfits⟩

end Spares

/-! ## A forwarded request

Between the peer that is asked and the owner a request with `max_wait` gains the flag `NO_BATCHING`.
It must not change the answer, so the flags that the algorithms read are compared. -/

/-- The flags `leakyBucket` reads. -/
structure SameFlags (b b' : Behavior) : Prop where
  gregorian : hasBehavior b' .durationIsGregorian = hasBehavior b .durationIsGregorian
  reset : hasBehavior b' .resetRemaining = hasBehavior b .resetRemaining
  drain : hasBehavior b' .drainOverLimit = hasBehavior b .drainOverLimit

/-- The leaky bucket reads no other flag. -/
theorem leakyBucket_behavior (host : Host) (now : ℤ) {s : Shard} (hs : s.store = none)
    (r : RateLimitReq) {b : Behavior} (h : SameFlags r.behavior b)
    (reqState : RateLimitReqState) :
    leakyBucket host now s { r with behavior := b } reqState =
      leakyBucket host now s r reqState := by
  have hburst : RateLimitReq.withBurst { r with behavior := b } =
      { r.withBurst with behavior := b } := by
    unfold RateLimitReq.withBurst
    dsimp only
    split <;> rfl
  have hsame : r.withBurst.behavior = r.behavior := by
    unfold RateLimitReq.withBurst
    split <;> rfl
  unfold leakyBucket
  rw [hburst]
  rw [← hsame] at h
  -- from here it is about a request whose burst is set
  generalize r.withBurst = q at h ⊢
  have hfind : s.find (epochMillis now) { q with behavior := b } = s.find (epochMillis now) q :=
    find_congr rfl s _
  have hlookup : s.lookup (epochMillis now) { q with behavior := b } =
      s.lookup (epochMillis now) q := by
    rw [Shard.SameView.lookup_eq hs, Shard.SameView.lookup_eq hs]
    rfl
  have hnew : ∀ t : Shard, leakyBucketNewItem host now t { q with behavior := b } reqState =
      leakyBucketNewItem host now t q reqState := by
    intro t
    unfold leakyBucketNewItem
    simp only [h.gregorian]
    rfl
  have hitem : ∀ x e, leakyBucketItem host now { q with behavior := b } reqState x e =
      leakyBucketItem host now q reqState x e := by
    intro x e
    unfold leakyBucketItem leakyTerms requestTerms credited adoptConfig refill charge
    simp only [h.gregorian, h.reset, h.drain]
    rfl
  unfold leakyBucketBurst
  rw [hfind, hlookup]
  simp only [hnew, hitem]
  rfl

/-- **A forwarded request is the request**: with `max_wait` it is a leaky one, and the flag it gets
    is not among those. -/
theorem getLocalRateLimit_forwarded (conf : Config) (host : Host) (now : ℤ) {s : Shard}
    (hs : s.store = none) {r : RateLimitReq} (hvalid : validateMaxWait r = "")
    (reqState : RateLimitReqState) :
    getLocalRateLimit conf host now s r.forwarded reqState =
      getLocalRateLimit conf host now s r reqState := by
  unfold RateLimitReq.forwarded
  split
  swap
  · rfl
  rename_i hwait
  -- a valid request that waits is a leaky one, so the token bucket is not concerned
  obtain ⟨halg, hglobal, -, -, -, -⟩ := validateMaxWait_scheduled hvalid hwait
  have hflag : ∀ flag : Behavior, Behavior.noBatching &&& flag = 0 →
      hasBehavior (setBehavior r.behavior .noBatching true) flag = hasBehavior r.behavior flag :=
    fun flag hflag => hasBehavior_set_of_disjoint hflag true
  have hvalid' : validateMaxWait { r with behavior := setBehavior r.behavior .noBatching true } =
      "" := by
    rw [← hvalid]
    unfold validateMaxWait
    simp only [hflag .global (by decide), hflag .durationIsGregorian (by decide),
      hflag .drainOverLimit (by decide), hflag .resetRemaining (by decide)]
  have hleaky := leakyBucket_behavior host now hs r
    ⟨hflag .durationIsGregorian (by decide), hflag .resetRemaining (by decide),
      hflag .drainOverLimit (by decide)⟩ { reqState with waitCeiling := conf.scheduleMaxWait }
  have hhandle : handleGetRateLimit conf host now s
      { r with behavior := setBehavior r.behavior .noBatching true } reqState =
        handleGetRateLimit conf host now s r reqState := by
    unfold handleGetRateLimit
    simp only [hleaky]
    simp only [halg]
  simp only [getLocalRateLimit, hhandle, hvalid, hvalid', hflag .global (by decide), hglobal]
  rfl

/-! ## The pool of a peer

From one shard to the pool of workers: an entry lives in the cache of its key's worker, so what is
true of that shard is true of the pool's entries. -/

namespace WorkerPool

/-- The cache of the worker of a key.  Past the workers the process would panic. -/
def shardOf (p : WorkerPool) (key : String) : Shard :=
  ⟨(p.workers[p.getWorker key]?).getD ⟨0, []⟩, p.store⟩

/-- The entry of a key. -/
def entry (p : WorkerPool) (key : String) : Option CacheItem := (p.shardOf key).cache.peek key

/-- **A pool in order**: no Store, a worker for every key, and in every worker's cache at most one
    entry for each of its own keys, and no more entries than it has room for. -/
structure Sharded (p : WorkerPool) : Prop where
  store : p.store = none
  range : ∀ key, p.getWorker key < p.workers.length
  caches : ∀ i (c : Cache), p.workers[i]? = some c →
    0 < c.cacheSize ∧ c.Kept c.cacheSize (fun key => p.getWorker key = i)

/-- A new pool, whose number of workers divides the number of hashes. -/
theorem sharded_new (hasher : String → Fin (2 ^ 63)) {n : ℕ} (hn : 1 ≤ n) (hint : n < 2 ^ 63)
    (hdvd : n ∣ 2 ^ 63) (cacheSize : ℕ) : (new hasher n cacheSize none).Sharded := by
  have hkeyed : (new hasher n cacheSize none).Keyed := fun st hst => by cases hst
  have hkept := kept_new hasher n cacheSize hkeyed
  refine ⟨rfl, fun key => ?_, fun i c hc => ?_⟩
  · rw [(getWorker_in_range_iff hasher hn hint cacheSize none).1, Nat.dvd_iff_mod_eq_zero.mp hdvd]
    exact (hasher key).isLt
  · have hcache := hkept.workers i c hc
    have hsize := hcache.size_eq
    rw [hsize]
    exact ⟨workerCacheSize_pos n cacheSize, hcache⟩

/-- It has no entries. -/
theorem entry_new (hasher : String → Fin (2 ^ 63)) (n cacheSize : ℕ) (key : String) :
    (new hasher n cacheSize none).entry key = none := by
  have hempty : ∀ c : Cache, (new hasher n cacheSize none).workers[
      (new hasher n cacheSize none).getWorker key]? = some c → c.items = [] := by
    intro c hc
    rw [List.eq_of_mem_replicate (List.mem_of_getElem? hc)]
    rfl
  unfold entry shardOf
  cases hc : (new hasher n cacheSize none).workers[
      (new hasher n cacheSize none).getWorker key]? with
  | none => rfl
  | some c => simp [Cache.peek, hempty c hc]

namespace Sharded

variable {p : WorkerPool} {key : String}

/-- The shard of a key. -/
theorem shardOf (h : p.Sharded) (key : String) :
    (p.shardOf key).store = none ∧ 0 < (p.shardOf key).cache.cacheSize ∧
      (p.shardOf key).cache.Kept (p.shardOf key).cache.cacheSize
        (fun k => p.getWorker k = p.getWorker key) := by
  have hget := List.getElem?_eq_getElem (h.range key)
  have hcache : (p.shardOf key).cache = p.workers.get ⟨_, h.range key⟩ := by
    simp [WorkerPool.shardOf, hget]
  rw [hcache]
  exact ⟨h.store, h.caches _ _ hget⟩

/-- The entries after the shard of a key is replaced. -/
theorem entry_setShard (h : p.Sharded) (s : Shard) (k : String) :
    (p.setShard key s).entry k =
      if p.getWorker k = p.getWorker key then s.cache.peek k else p.entry k := by
  have hworker : (p.setShard key s).getWorker k = p.getWorker k := rfl
  unfold WorkerPool.entry WorkerPool.shardOf
  rw [hworker]
  by_cases hsame : p.getWorker k = p.getWorker key
  · rw [if_pos hsame, WorkerPool.setShard, hsame, List.getElem?_set_self (h.range key)]
    rfl
  · rw [if_neg hsame, WorkerPool.setShard, List.getElem?_set_ne (Ne.symm hsame)]

/-- A shard in order may take the place of the one that was there. -/
theorem setShard (h : p.Sharded) {s : Shard} (hstore : s.store = none)
    (hsize : 0 < s.cache.cacheSize)
    (hs : s.cache.Kept s.cache.cacheSize (fun k => p.getWorker k = p.getWorker key)) :
    (p.setShard key s).Sharded := by
  refine ⟨hstore, fun k => ?_, fun i c hc => ?_⟩
  · rw [WorkerPool.setShard, List.length_set]
    exact h.range k
  · simp only [WorkerPool.setShard, List.getElem?_set] at hc
    split at hc
    · rename_i hi
      rw [if_pos (h.range key)] at hc
      obtain rfl := Option.some.inj hc
      subst hi
      exact ⟨hsize, hs⟩
    · exact h.caches i c hc

end Sharded

/-- **The least recently used other entry** of the full cache that a key is in. -/
def Oldest (p : WorkerPool) (key : String) (oldest : CacheItem) : Prop :=
  ((p.shardOf key).others key).length = (p.shardOf key).cache.cacheSize ∧
    ((p.shardOf key).others key).getLast? = some oldest

/-- The pool after a request. -/
def served (conf : Config) (host : Host) (now : ℤ) (p : WorkerPool) (r : RateLimitReq) :
    WorkerPool :=
  p.setShard r.hashKey
    (getLocalRateLimit conf host now (p.shardOf r.hashKey) r { isOwner := true }).shard

/-- All entries but the last. -/
theorem find_dropLast {items : List CacheItem} (hne : items ≠ [])
    (hnodup : (items.map CacheItem.key).Nodup) (k : String) :
    items.dropLast.find? (fun i => i.key == k) =
      if k = (items.getLast hne).key then none else items.find? (fun i => i.key == k) := by
  have hsplit := List.dropLast_append_getLast hne
  rw [← hsplit, List.map_append, List.map_singleton, List.nodup_append] at hnodup
  split
  · rename_i hk
    subst hk
    refine List.find?_eq_none.mpr (fun i hi heq => ?_)
    exact hnodup.2.2 i.key (List.mem_map_of_mem hi) _ (List.mem_singleton_self _)
      (by simpa using heq)
  · rename_i hk
    conv_rhs => rw [← hsplit, List.find?_append]
    have hlast : [items.getLast hne].find? (fun i => i.key == k) = none := by
      simp [Ne.symm hk]
    rw [hlast, Option.or_none]

/-- **A request and the entries of a pool**: it changes the entry of its key, as it would if there
    was nothing else, and of the others it may drop the least recently used. -/
theorem Sharded.served (conf : Config) (host : Host) (now : ℤ) {p : WorkerPool} (h : p.Sharded)
    (r : RateLimitReq) :
    let alone := getLocalRateLimit conf host now (.ofItems (p.entry r.hashKey).toList) r
      { isOwner := true }
    (p.served conf host now r).Sharded ∧
      (getLocalRateLimit conf host now (p.shardOf r.hashKey) r { isOwner := true }).result =
        alone.result ∧
      (p.served conf host now r).entry r.hashKey = alone.shard.cache.peek r.hashKey ∧
      ((∀ k, k ≠ r.hashKey → (p.served conf host now r).entry k = p.entry k) ∨
        ∃ oldest, p.Oldest r.hashKey oldest ∧ ∀ k, k ≠ r.hashKey →
          (p.served conf host now r).entry k = if k = oldest.key then none else p.entry k) := by
  intro alone
  set s := p.shardOf r.hashKey with hshard
  obtain ⟨hstore, hsize, hkept⟩ := h.shardOf r.hashKey
  rw [← hshard] at hstore hsize hkept
  have hothers : (s.others r.hashKey).Sublist s.cache.items := List.filter_sublist
  obtain ⟨hstore', hsize', hlost⟩ := Spares.getLocalRateLimit conf host now r { isOwner := true }
    hstore (hothers.length_le.trans hkept.bounded)
  -- the worker's shard, and a shard with the key's entry alone, are the same for the key
  have hview : s.SameView r.hashKey (.ofItems (p.entry r.hashKey).toList) := by
    refine ⟨hstore, rfl, ?_⟩
    show p.entry r.hashKey = _
    cases hentry : p.entry r.hashKey with
    | none => rfl
    | some item =>
      have hkey : item.key = r.hashKey := Cache.peek_key hentry
      simp [Shard.ofItems, Cache.peek, hkey]
  obtain ⟨hresult, hview'⟩ := hview.getLocalRateLimit conf host now { isOwner := true }
  set s' := (getLocalRateLimit conf host now s r { isOwner := true }).shard with hs'
  -- the cache stays in order; a request that fails validation does not touch it
  have hkept' : s'.cache.Kept s'.cache.cacheSize
      (fun k => p.getWorker k = p.getWorker r.hashKey) := by
    rw [hsize']
    by_cases hvalid : validateMaxWait r = ""
    · rw [hs', (getLocalRateLimit_valid conf host now s { isOwner := true } hvalid).1]
      have hkeyed : s.Keyed := fun st hst => by simp only [hstore, reduceCtorEq] at hst
      refine handleGetRateLimit_kept hsize conf host now _ ?_ hkeyed hkept
      rfl
    · have hsame : s' = s := by
        rw [hs']
        simp only [getLocalRateLimit, ne_eq, hvalid, not_false_eq_true, if_true]
      rw [hsame]
      exact hkept
  have hentry : ∀ k, (p.served conf host now r).entry k =
      if p.getWorker k = p.getWorker r.hashKey then s'.cache.peek k else p.entry k :=
    fun k => h.entry_setShard s' k
  -- of another key, the cache and what it has besides the request's key say the same
  have hpeek : ∀ (c : Cache) (k : String), k ≠ r.hashKey → c.peek k = (c.remove r.hashKey).peek k :=
    fun c k hk => (Cache.peek_remove_ne c hk).symm
  have hbefore : ∀ k, p.getWorker k = p.getWorker r.hashKey → p.entry k = s.cache.peek k := by
    intro k hk
    rw [hshard, WorkerPool.entry, WorkerPool.shardOf, WorkerPool.shardOf, hk]
  refine ⟨h.setShard hstore' (hsize' ▸ hsize) hkept', hresult, ?_, ?_⟩
  · rw [hentry, if_pos rfl]
    exact hview'.peek
  rcases hlost with hsame | ⟨hfull, hne, hdrop⟩
  · -- nothing is lost
    refine .inl (fun k hk => ?_)
    rw [hentry]
    split
    · rename_i hworker
      rw [hbefore k hworker, hpeek _ k hk, hpeek s.cache k hk]
      show (List.find? _ (s'.others r.hashKey)) = List.find? _ (s.others r.hashKey)
      rw [hsame]
    · rfl
  · -- the last of the others is, and nothing else
    set oldest := (s.others r.hashKey).getLast hne with holdest
    have hmem : oldest ∈ s.cache.items := hothers.subset (List.getLast_mem hne)
    refine .inr ⟨oldest, ⟨hfull, List.getLast?_eq_getLast_of_ne_nil hne⟩, fun k hk => ?_⟩
    rw [hentry]
    split
    · rename_i hworker
      rw [hbefore k hworker, hpeek _ k hk, hpeek s.cache k hk]
      show List.find? _ (s'.others r.hashKey) =
        if _ then none else List.find? _ (s.others r.hashKey)
      rw [hdrop]
      exact find_dropLast hne (hkept.nodup.sublist (hothers.map _)) k
    · rename_i hworker
      -- the oldest entry is of a key of this worker
      rw [if_neg]
      rintro rfl
      exact hworker (hkept.own oldest hmem)

end WorkerPool

/-! ## The deployment

The cluster: for every peer a pool, and for every event what the functions of the source do in
surroundings made of the pools.  The peers talk to each other without failures here. -/

/-- Who owns a key, by the ring, and where the peers are. -/
structure Members (ι : Type) where
  owner : String → ι
  address : ι → String

/-- A client asks a peer, at the peer's time `called`, and the request is handled at the owner's
    time `handled`; or a peer is started again, with what its Loader gives it. -/
inductive DeploymentEvent (ι : Type) where
  | request (peer : ι) (called handled : ℤ) (req : RateLimitReq)
  | restart (peer : ι) (pool : WorkerPool)

namespace Members

section Step
variable {ι : Type} [DecidableEq ι]

/-- What a request meets at a peer; the owner turns an error into a response. -/
def surroundings (m : Members ι) (conf : Config) (host : Host) (pools : ι → WorkerPool) (peer : ι)
    (handled : ℤ) (key : String) : Surroundings where
  ctxErr := none
  ctxErrAfter _ := none
  getPeer _ := .ok { grpcAddress := m.address (m.owner key), isOwner := m.owner key = peer }
  getLocalRateLimit r reqState :=
    (getLocalRateLimit conf host handled ((pools peer).shardOf r.hashKey) r reqState).result
  getPeerRateLimit _ _ r :=
    .ok (peerResponse (getPeerRateLimit conf host handled
      ((pools (m.owner r.hashKey)).shardOf r.hashKey) r).result)

/-- What a request does to the pools. -/
def apply (m : Members ι) (conf : Config) (host : Host) (peer : ι) (handled : ℤ)
    (pools : ι → WorkerPool) : Effect → ι → WorkerPool
  | .bucket r =>
    let out := getLocalRateLimit conf host handled ((pools peer).shardOf r.hashKey) r
      { isOwner := m.owner r.hashKey = peer }
    Function.update pools peer ((pools peer).setShard r.hashKey out.shard)
  | .forward _ r =>
    let owner := m.owner r.hashKey
    let out := getPeerRateLimit conf host handled ((pools owner).shardOf r.hashKey) r
    Function.update pools owner ((pools owner).setShard r.hashKey out.shard)
  | .queueHit _ => pools

/-- An event: a request goes through `GetRateLimits` at the peer asked, with all its effects; a
    restart replaces a pool. -/
def step (m : Members ι) (conf : Config) (host : Host) (pools : ι → WorkerPool) :
    DeploymentEvent ι → Option Answer × (ι → WorkerPool)
  | .request peer called handled req =>
    let w := m.surroundings conf host pools peer handled req.hashKey
    match (getRateLimitsItem false called w req).finish w with
    | none => (none, pools)
    | some h => (some h.answer, h.effects.foldl (m.apply conf host peer handled) pools)
  | .restart peer pool => (none, Function.update pools peer pool)

end Step

/-- **The runs followed**: no GLOBAL requests, no clock at the first millisecond of 1970, whose
    requests count as unstamped, and a peer that is started again has some of its entries. -/
def Admissible {ι : Type} (pools : ι → WorkerPool) : DeploymentEvent ι → Prop
  | .request _ called _ req => hasBehavior req.behavior .global = false ∧ epochMillis called ≠ 0
  | .restart peer pool => pool.Sharded ∧
      ∀ key, pool.entry key = (pools peer).entry key ∨ pool.entry key = none

end Members

/-! ## The ledger

The specification.  It knows no peers and no workers, and the answers it gives are those of the
algorithm on the entry of the key alone. -/

/-- One entry per key. -/
abbrev Ledger := String → Option CacheItem

/-- What is said of an event: a complaint about the request, or what its algorithm gives. -/
inductive LedgerAnswer where
  | restarted
  | refused (complaint : String)
  | answered (result : Except String RateLimitResp)

namespace Ledger

/-- A request changes the entry of its key. -/
def serve {ι : Type} (conf : Config) (host : Host) (f : Ledger) :
    DeploymentEvent ι → LedgerAnswer × Ledger
  | .restart _ _ => (.restarted, f)
  | .request _ called handled req =>
    if req.uniqueKey = "" then (.refused "field 'unique_key' cannot be empty", f)
    else if req.name = "" then (.refused "field 'namespace' cannot be empty", f)
    else
      let r := req.stamped called
      if validateMaxWait r ≠ "" then (.refused (validateMaxWait r), f)
      else
        let out := getLocalRateLimit conf host handled (.ofItems (f r.hashKey).toList) r
          { isOwner := true }
        (.answered out.result, Function.update f r.hashKey (out.shard.cache.peek r.hashKey))

open Classical in
/-- Some keys forgotten. -/
noncomputable def forget (f : Ledger) (lost : Set String) : Ledger :=
  fun key => if key ∈ lost then none else f key

/-- A key that is lost is gone from the ledger. -/
theorem forget_of_mem {lost : Set String} {key : String} (h : key ∈ lost) (f : Ledger) :
    f.forget lost key = none := if_pos h

/-- A key that is not lost keeps its entry. -/
theorem forget_of_notMem {lost : Set String} {key : String} (h : key ∉ lost) (f : Ledger) :
    f.forget lost key = f key := if_neg h

/-- Nothing forgotten. -/
@[simp] theorem forget_empty (f : Ledger) : f.forget ∅ = f :=
  funext (fun _ => forget_of_notMem id f)

/-- **The ledger that may forget.** -/
noncomputable def step {ι : Type} (conf : Config) (host : Host) (f : Ledger) :
    DeploymentEvent ι × Set String → LedgerAnswer × Ledger
  | (e, lost) => ((f.serve conf host e).1, (f.serve conf host e).2.forget lost)

end Ledger

namespace Members

variable {ι : Type} [DecidableEq ι]

/-- The entries of all keys, each where its owner has it. -/
def ledger (m : Members ι) (pools : ι → WorkerPool) : Ledger :=
  fun key => (pools (m.owner key)).entry key

/-- **What may be forgotten**: for a request the least recently used other entry of a full cache,
    that of the key's worker at the key's owner; with a restart, the entries that the peer does not
    have again. -/
def MayForget (m : Members ι) (pools : ι → WorkerPool) :
    DeploymentEvent ι → DeploymentEvent ι × Set String → Prop
  | .request peer called handled req, (e, lost) => e = .request peer called handled req ∧
      (lost = ∅ ∨ ∃ oldest, lost = {oldest.key} ∧
        (pools (m.owner req.hashKey)).Oldest req.hashKey oldest)
  | .restart peer pool, (e, lost) => e = .restart peer pool ∧
      lost = {key | m.owner key = peer ∧ (pools peer).entry key ≠ none ∧ pool.entry key = none}

/-- **How a peer puts the ledger's answer**: the one that forwards names the owner. -/
def phrase (m : Members ι) : DeploymentEvent ι → LedgerAnswer → Option Answer
  | .restart _ _, _ => none
  | .request _ _ _ _, .restarted => none
  | .request _ _ _ _, .refused complaint => some (.ofError complaint)
  | .request peer _ _ req, .answered result =>
    let key := req.hashKey
    let owner := m.owner key
    if owner = peer then
      match result with
      | .ok resp => some { resp }
      | .error e => some (.ofError s!"Error while apply rate limit for '{key}': {e}")
    else some { resp := peerResponse result, owner := some (m.address owner) }

/-! ## One step

The refinement relation says that the pools are in order and that their entries are the ledger's. -/

section Step
variable {m : Members ι} {conf : Config} {host : Host} {pools : ι → WorkerPool} {peer : ι}
  {called handled : ℤ} {req : RateLimitReq}

/-- Stamping a request does not change its key. -/
theorem stamped_hashKey (r : RateLimitReq) (now : ℤ) : (r.stamped now).hashKey = r.hashKey := by
  unfold RateLimitReq.stamped
  split <;> rfl

/-- Forwarding a request does not change its key. -/
theorem forwarded_hashKey (r : RateLimitReq) : r.forwarded.hashKey = r.hashKey := by
  unfold RateLimitReq.forwarded
  split <;> rfl

/-- A stamped request has a time, which the owner will not replace. -/
theorem stamped_createdAt (r : RateLimitReq) {now : ℤ} (hnow : epochMillis now ≠ 0) :
    (r.stamped now).createdAt ≠ 0 := by
  unfold RateLimitReq.stamped
  split
  · exact hnow
  · assumption

/-- Stamping does not change the flags. -/
theorem stamped_behavior (r : RateLimitReq) (now : ℤ) :
    (r.stamped now).behavior = r.behavior := by
  unfold RateLimitReq.stamped
  split <;> rfl

/-- The owner gets a forwarded request as it left. -/
theorem received_forwarded {r : RateLimitReq} (hglobal : hasBehavior r.behavior .global = false)
    (hcreated : r.createdAt ≠ 0) (now : ℤ) : r.forwarded.received now = r.forwarded := by
  have hsame : r.forwarded.createdAt = r.createdAt := by
    unfold RateLimitReq.forwarded
    split <;> rfl
  have hflag : hasBehavior r.forwarded.behavior .global = false := by
    unfold RateLimitReq.forwarded
    split
    · rw [hasBehavior_set_of_disjoint (by decide), hglobal]
    · exact hglobal
  rw [RateLimitReq.received, if_neg (by simp [hflag]), RateLimitReq.stamped,
    if_neg (by rwa [hsame])]

/-- The owner does with a forwarded request what it does with the request. -/
theorem getPeerRateLimit_forwarded (conf : Config) (host : Host) (now : ℤ) {s : Shard}
    (hs : s.store = none) {r : RateLimitReq} (hvalid : validateMaxWait r = "")
    (hglobal : hasBehavior r.behavior .global = false) (hcreated : r.createdAt ≠ 0) :
    getPeerRateLimit conf host now s r.forwarded =
      getLocalRateLimit conf host now s r { isOwner := true } := by
  rw [getPeerRateLimit, received_forwarded hglobal hcreated,
    getLocalRateLimit_forwarded conf host now hs hvalid]

/-- **A request at a peer is one request at the owner's pool**, wherever it came in. -/
theorem step_valid (hpools : ∀ i, (pools i).Sharded) (hunique : req.uniqueKey ≠ "")
    (hname : req.name ≠ "") (hvalid : validateMaxWait (req.stamped called) = "")
    (hglobal : hasBehavior req.behavior .global = false) (hcalled : epochMillis called ≠ 0) :
    m.step conf host pools (.request peer called handled req) =
      (m.phrase (.request peer called handled req) (.answered (getLocalRateLimit conf host handled
          ((pools (m.owner req.hashKey)).shardOf req.hashKey) (req.stamped called)
          { isOwner := true }).result),
        Function.update pools (m.owner req.hashKey)
          ((pools (m.owner req.hashKey)).served conf host handled (req.stamped called))) := by
  set r := req.stamped called with hr
  have hkey : r.hashKey = req.hashKey := stamped_hashKey req called
  have hbehavior : hasBehavior r.behavior .global = false := by rwa [hr, stamped_behavior]
  by_cases hhere : m.owner req.hashKey = peer
  · -- this peer is the owner
    subst hhere
    simp only [step, getRateLimitsItem, hunique, hname, if_false, surroundings, ← hr, hvalid, ne_eq,
      not_true_eq_false, Bool.false_eq_true, decide_true, if_true, hkey, phrase, WorkerPool.served]
    cases (getLocalRateLimit conf host handled
        ((pools (m.owner req.hashKey)).shardOf req.hashKey) r { isOwner := true }).result with
    | error e => simp [Item.finish, apply, hkey]
    | ok resp => simp [Item.finish, apply, hkey]
  · -- the request is forwarded, and the first attempt succeeds
    obtain ⟨hstore, -, -⟩ := (hpools (m.owner req.hashKey)).shardOf req.hashKey
    have howner : ∀ s : Shard, s.store = none → getPeerRateLimit conf host handled s r.forwarded =
        getLocalRateLimit conf host handled s r { isOwner := true } :=
      fun s hs => getPeerRateLimit_forwarded conf host handled hs hvalid hbehavior
        (stamped_createdAt req hcalled)
    set w := m.surroundings conf host pools peer handled req.hashKey with hw
    set info : PeerInfo :=
      { grpcAddress := m.address (m.owner req.hashKey), isOwner := false } with hinfo
    have hitem : getRateLimitsItem false called w req = .launched info r := by
      simp only [getRateLimitsItem, hunique, hname, if_false, hw, surroundings, ← hr, hvalid, ne_eq,
        not_true_eq_false, Bool.false_eq_true, hhere, decide_false, hbehavior, hinfo]
    have hkey' : r.forwarded.hashKey = req.hashKey := (forwarded_hashKey r).trans hkey
    set resp := peerResponse (getLocalRateLimit conf host handled
      ((pools (m.owner req.hashKey)).shardOf req.hashKey) r { isOwner := true }).result with hresp
    have hpeer : w.getPeerRateLimit 0 info r.forwarded = .ok resp := by
      simp only [hw, surroundings, hkey', howner _ hstore, hresp]
    have hrequest : asyncRequest w info r =
        some ⟨{ resp, owner := some (m.address (m.owner req.hashKey)) },
          [.forward info r.forwarded]⟩ := by
      refine Loop.run_inr ?_
      simp [asyncRound, hpeer]
      rfl
    simp [step, ← hw, hitem, Item.finish, hrequest, phrase, hhere, apply, hkey', howner _ hstore,
      WorkerPool.served, hkey, hresp]

/-- **What the ledger does with a request**: it fails a check, and nothing changes, or passes
    all. -/
theorem serve_cases (conf : Config) (host : Host) (peer : ι) (called handled : ℤ)
    (req : RateLimitReq) :
    (∃ complaint, complaint ≠ "" ∧ ∀ (m : Members ι) (pools : ι → WorkerPool) (f : Ledger),
      f.serve conf host (.request peer called handled req) = (.refused complaint, f) ∧
      m.step conf host pools (.request peer called handled req) =
        (some (.ofError complaint), pools)) ∨
    (req.uniqueKey ≠ "" ∧ req.name ≠ "" ∧ validateMaxWait (req.stamped called) = "" ∧
      ∀ f : Ledger,
        let out := getLocalRateLimit conf host handled (.ofItems (f req.hashKey).toList)
          (req.stamped called) { isOwner := true }
        f.serve conf host (.request peer called handled req) = (.answered out.result,
          Function.update f req.hashKey (out.shard.cache.peek req.hashKey))) := by
  by_cases hunique : req.uniqueKey = ""
  · refine .inl ⟨"field 'unique_key' cannot be empty", by decide, fun m pools f => ⟨?_, ?_⟩⟩
    · simp only [Ledger.serve, hunique, if_true]
    · simp [step, getRateLimitsItem, hunique, Item.finish]
  by_cases hname : req.name = ""
  · refine .inl ⟨"field 'namespace' cannot be empty", by decide, fun m pools f => ⟨?_, ?_⟩⟩
    · simp only [Ledger.serve, hunique, hname, if_true, if_false]
    · simp [step, getRateLimitsItem, hunique, hname, Item.finish]
  by_cases hvalid : validateMaxWait (req.stamped called) = ""
  · refine .inr ⟨hunique, hname, hvalid, fun f => ?_⟩
    simp only [Ledger.serve, hunique, hname, hvalid, ne_eq, not_true_eq_false, if_false,
      stamped_hashKey]
  · refine .inl ⟨validateMaxWait (req.stamped called), hvalid, fun m pools f => ⟨?_, ?_⟩⟩
    · simp only [Ledger.serve, hunique, hname, hvalid, ne_eq, not_false_eq_true, if_true, if_false]
    · simp [step, getRateLimitsItem, hunique, hname, hvalid, Item.finish, surroundings]

/-- The pools in order, and their entries in the ledger. -/
structure Refines (m : Members ι) (pools : ι → WorkerPool) (f : Ledger) : Prop where
  sharded : ∀ i, (pools i).Sharded
  ledger : ∀ key, (pools (m.owner key)).entry key = f key

/-- What the ledger has to do for an event: answer it, forget what may be forgotten, and have the
    entries then. -/
def Followed (m : Members ι) (conf : Config) (host : Host) (pools : ι → WorkerPool) (f : Ledger)
    (e : DeploymentEvent ι) : Prop :=
  ∃ j, m.MayForget pools e j ∧ (m.step conf host pools e).1 = m.phrase e (f.step conf host j).1 ∧
    m.Refines (m.step conf host pools e).2 (f.step conf host j).2

/-- **Step**: a request. -/
theorem Refines.request {f : Ledger} (h : m.Refines pools f)
    (hglobal : hasBehavior req.behavior .global = false) (hcalled : epochMillis called ≠ 0) :
    m.Followed conf host pools f (.request peer called handled req) := by
  rcases serve_cases conf host peer called handled req with
    ⟨complaint, -, hrefused⟩ | ⟨hunique, hname, hvalid, hserve⟩
  · -- refused: nothing changes on either side
    obtain ⟨hserve, hstep⟩ := hrefused m pools f
    refine ⟨(_, ∅), ⟨rfl, .inl rfl⟩, ?_, ?_⟩
    · rw [hstep, Ledger.step, hserve]
      rfl
    · rw [hstep, Ledger.step, hserve]
      exact ⟨h.sharded, fun key => by rw [Ledger.forget_empty, h.ledger key]⟩
  have hkey := stamped_hashKey req called
  set owner := m.owner req.hashKey with howner
  obtain ⟨hsharded, hresult, hself, hothers⟩ :=
    (h.sharded owner).served conf host handled (req.stamped called)
  rw [hkey, h.ledger] at hresult hself
  rw [hkey] at hothers
  have hstep : m.step conf host pools (.request peer called handled req) = _ :=
    step_valid h.sharded hunique hname hvalid hglobal hcalled
  rw [← howner, hresult] at hstep
  -- the owner's pool is the one that changes
  have hsharded' : ∀ i, (Function.update pools owner
      ((pools owner).served conf host handled (req.stamped called)) i).Sharded := by
    intro i
    by_cases hi : i = owner
    · rw [hi, Function.update_self]
      exact hsharded
    · rw [Function.update_of_ne hi]
      exact h.sharded i
  -- whatever is lost, if it is the owner's and not the request's key, the ledger can forget it
  have hafter : ∀ lost : Set String, req.hashKey ∉ lost → (∀ k ∈ lost, m.owner k = owner) →
      (∀ k, k ≠ req.hashKey → m.owner k = owner →
        ((pools owner).served conf host handled (req.stamped called)).entry k =
          Ledger.forget (pools owner).entry lost k) →
      m.Refines (m.step conf host pools (.request peer called handled req)).2
        (f.step conf host (.request peer called handled req, lost)).2 := by
    intro lost hnot hown hentries
    rw [hstep, Ledger.step, hserve]
    refine ⟨hsharded', fun k => ?_⟩
    dsimp only
    by_cases hk : k = req.hashKey
    · rw [hk, ← howner, Function.update_self, Ledger.forget_of_notMem hnot, Function.update_self]
      exact hself
    by_cases hhere : m.owner k = owner
    · rw [hhere, Function.update_self, hentries k hk hhere]
      by_cases hlost : k ∈ lost
      · rw [Ledger.forget_of_mem hlost, Ledger.forget_of_mem hlost]
      · rw [Ledger.forget_of_notMem hlost, Ledger.forget_of_notMem hlost, Function.update_of_ne hk,
          ← h.ledger k, hhere]
    · rw [Function.update_of_ne hhere, Ledger.forget_of_notMem (fun hlost => hhere (hown k hlost)),
        Function.update_of_ne hk]
      exact h.ledger k
  have hanswer : ∀ lost, (m.step conf host pools (.request peer called handled req)).1 =
      m.phrase (.request peer called handled req)
        (f.step conf host (.request peer called handled req, lost)).1 := by
    intro lost
    rw [hstep, Ledger.step, hserve]
  -- nothing is evicted, or the oldest entry of the worker is
  rcases hothers with hkept | ⟨oldest, holdest, hlost⟩
  · refine ⟨(_, ∅), ⟨rfl, .inl rfl⟩, hanswer ∅, hafter ∅ id (fun k hk => hk.elim)
      (fun k hk _ => ?_)⟩
    rw [hkept k hk, Ledger.forget_empty]
  · have hother : oldest.key ≠ req.hashKey := by
      have hmem := List.mem_filter.mp (List.mem_of_getLast? holdest.2)
      simpa using hmem.2
    by_cases hhere : m.owner oldest.key = owner
    · refine ⟨(_, {oldest.key}), ⟨rfl, .inr ⟨oldest, rfl, holdest⟩⟩, hanswer _,
        hafter _ (fun hk => hother hk.symm) (fun k hk => hk ▸ hhere) (fun k hk _ => ?_)⟩
      rw [hlost k hk]
      by_cases hk' : k = oldest.key
      · rw [if_pos hk', Ledger.forget_of_mem (Set.mem_singleton_iff.mpr hk')]
      · rw [if_neg hk', Ledger.forget_of_notMem (fun hmem => hk' (Set.mem_singleton_iff.mp hmem))]
    · -- an entry of a key that another peer owns now: the ledger does not have it from here
      refine ⟨(_, ∅), ⟨rfl, .inl rfl⟩, hanswer ∅,
        hafter ∅ id (fun k hk => hk.elim) (fun k hk hown => ?_)⟩
      have hne : k ≠ oldest.key := by
        rintro rfl
        exact hhere hown
      rw [hlost k hk, if_neg hne, Ledger.forget_empty]

/-- **Step**: a restart. -/
theorem Refines.restart {f : Ledger} (h : m.Refines pools f) {pool : WorkerPool}
    (hpool : pool.Sharded)
    (hentries : ∀ key, pool.entry key = (pools peer).entry key ∨ pool.entry key = none) :
    m.Followed conf host pools f (.restart peer pool) := by
  refine ⟨(_, _), ⟨rfl, rfl⟩, rfl, fun i => ?_, fun key => ?_⟩
  · show (Function.update pools peer pool i).Sharded
    by_cases hi : i = peer
    · rw [hi, Function.update_self]
      exact hpool
    · rw [Function.update_of_ne hi]
      exact h.sharded i
  set gone : Set String :=
    {key | m.owner key = peer ∧ (pools peer).entry key ≠ none ∧ pool.entry key = none}
  show (Function.update pools peer pool (m.owner key)).entry key = Ledger.forget f gone key
  by_cases howner : m.owner key = peer
  · have hbefore := h.ledger key
    rw [howner] at hbefore ⊢
    rw [Function.update_self]
    -- the entry was there and is not any more, or it is the same, or there was none
    by_cases hlost : (pools peer).entry key ≠ none ∧ pool.entry key = none
    · have hmem : key ∈ gone := ⟨howner, hlost⟩
      rw [hlost.2, Ledger.forget_of_mem hmem]
    · rw [Ledger.forget_of_notMem (fun hmem => hlost hmem.2), ← hbefore]
      rcases hentries key with hsame | hgone
      · exact hsame
      · rw [hgone]
        by_contra hne
        exact hlost ⟨Ne.symm hne, hgone⟩
  · rw [Function.update_of_ne howner, Ledger.forget_of_notMem (fun hlost => howner hlost.1)]
    exact h.ledger key

/-- **Step**: any event. -/
theorem Refines.step {f : Ledger} (h : m.Refines pools f) {e : DeploymentEvent ι}
    (hok : Admissible pools e) : m.Followed conf host pools f e := by
  cases e with
  | request peer called handled req => exact h.request hok.1 hok.2
  | restart peer pool => exact h.restart hok.1 hok.2

omit [DecidableEq ι] in
/-- The pools as they are. -/
theorem refines_ledger (m : Members ι) (hpools : ∀ i, (pools i).Sharded) :
    m.Refines pools (m.ledger pools) :=
  ⟨hpools, fun _ => rfl⟩

end Step

/-! ## Whole runs

What the ledger is told besides the events, the sets of keys it forgets, is chosen step by step as
the caches evict; `Machine.Chosen` records that each choice was allowed in the state it was made in.
-/

/-- **The cluster is a ledger.**  Clients ask any peers in any order, and peers are started again
    with all or some of their entries, on pools of any number of workers.  The answers are those of
    one ledger with an entry per key, put the way the peer asked puts them; and all that the ledger
    forgets is, with a request, the least recently used other entry of a full cache, and with a
    restart the entries that were not loaded. -/
theorem deployment_refines_ledger (m : Members ι) (conf : Config) (host : Host)
    (pools : ι → WorkerPool) (hpools : ∀ i, (pools i).Sharded) (es : List (DeploymentEvent ι))
    (hes : Machine.Guarded (m.step conf host) Admissible pools es) :
    ∃ js, Machine.Chosen (m.step conf host) m.MayForget pools es js ∧
      (Machine.events (m.step conf host) pools es).map Prod.snd =
        List.zipWith m.phrase es
          ((Machine.events (Ledger.step conf host) (m.ledger pools) js).map Prod.snd) ∧
      m.ledger (Machine.exec (m.step conf host) pools es) =
        Machine.exec (Ledger.step conf host) (m.ledger pools) js := by
  obtain ⟨js, hchosen, hanswers, hend⟩ := Machine.simulation_rule (R := m.Refines) m.phrase
    (fun s f e hok h => h.step hok) hes (m.refines_ledger hpools)
  exact ⟨js, hchosen, hanswers, funext hend.ledger⟩

/-- Two peers, of two workers and of one, and the second owns the key. -/
def twoPeers : Members Bool := ⟨fun _ => true, fun i => if i then "b:1051" else "a:1051"⟩

/-- All keys hash to the first worker. -/
def twoPools : Bool → WorkerPool
  | false => .new (fun _ => ⟨0, Nat.two_pow_pos 63⟩) 2 10 none
  | true => .new (fun _ => ⟨0, Nat.two_pow_pos 63⟩) 1 10 none

/-- Both are asked, and the second comes back empty, with four workers. -/
def askedAndRestarted : List (DeploymentEvent Bool) :=
  [.request false 5000000 5000000 (.sample 1 10 60000 0 0 0),
    .request true 6000000 6000000 (.sample 1 10 60000 0 0 0),
    .restart true (.new (fun _ => ⟨0, Nat.two_pow_pos 63⟩) 4 10 none)]

/-- A request forwarded, one handled where it came in, and a restart that loses the entry. -/
theorem deployment_refines_ledger_twoPeers :
    ∃ js, Machine.Chosen (twoPeers.step ⟨300000000000⟩ .amd64) twoPeers.MayForget twoPools
        askedAndRestarted js ∧
      (Machine.events (twoPeers.step ⟨300000000000⟩ .amd64) twoPools askedAndRestarted).map
          Prod.snd =
        List.zipWith twoPeers.phrase askedAndRestarted ((Machine.events
          (Ledger.step ⟨300000000000⟩ .amd64) (twoPeers.ledger twoPools) js).map Prod.snd) ∧
      twoPeers.ledger (Machine.exec (twoPeers.step ⟨300000000000⟩ .amd64) twoPools
          askedAndRestarted) =
        Machine.exec (Ledger.step ⟨300000000000⟩ .amd64) (twoPeers.ledger twoPools) js := by
  refine deployment_refines_ledger twoPeers ⟨300000000000⟩ .amd64 twoPools (fun i => ?_)
    askedAndRestarted ⟨⟨by decide, by decide⟩, ⟨by decide, by decide⟩,
      ⟨?_, fun key => .inr ?_⟩, trivial⟩
  · cases i with
    | false => exact WorkerPool.sharded_new _ (by decide) (by decide) (by decide) 10
    | true => exact WorkerPool.sharded_new _ (by decide) (by decide) (by decide) 10
  · exact WorkerPool.sharded_new _ (by decide) (by decide) (by decide) 10
  · exact WorkerPool.entry_new _ 4 10 key

end Members

end Gubernator
