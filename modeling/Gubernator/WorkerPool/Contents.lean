/-
  WHAT THE WORKERS' CACHES CAN HOLD.

  Whatever a pool has been asked since it was created, the cache of a worker holds at most as many
  items as it was made for, no two of them under one key, and only items of keys that are the
  worker's own.  The last needs that the Store serves, for a key, an item of that key.

  A request writes items of its own key (`Verdict.Sound`) and so does `AddCacheItem`, which
  `UpdatePeerGlobals` calls with the key of the item; `GetCacheItem` may drop an expired one.  A
  `Load` adds items one by one, each to the worker of its key, like a run of `AddCacheItem`.

  The invariant is proved for one cache and its operations (`Cache.Kept`), then for a worker that
  handles a request (`handleGetRateLimit_kept`), then for the pool, whose operations touch the cache
  of one worker each (`Kept.step`), and so for every run (`kept_exec`).
-/
import Gubernator.Isolation

namespace Gubernator

/-! ## A cache

Every operation that adds an item takes out what there is of its key, and makes room. -/

/-- **A cache in order**: of its size, without duplicates, and of keys that are its own. -/
structure Cache.Kept (size : ℕ) (own : String → Prop) (c : Cache) : Prop where
  size_eq : c.cacheSize = size
  nodup : (c.items.map CacheItem.key).Nodup
  bounded : c.items.length ≤ size
  own : ∀ item ∈ c.items, own item.key

namespace Cache.Kept

variable {size : ℕ} {own : String → Prop} {c : Cache}

/-- Some of the items. -/
theorem sublist (h : c.Kept size own) {items : List CacheItem} (hsub : items.Sublist c.items) :
    Cache.Kept size own { c with items } where
  size_eq := h.size_eq
  nodup := h.nodup.sublist (hsub.map _)
  bounded := hsub.length_le.trans h.bounded
  own := fun item hitem => h.own item (hsub.subset hitem)

/-- Without one of its keys. -/
theorem remove (h : c.Kept size own) (key : String) : (c.remove key).Kept size own :=
  h.sublist List.filter_sublist

/-- An item in front of a cache that has none of its key, and room. -/
theorem cons (h : c.Kept size own) {item : CacheItem} (hown : own item.key)
    (hnew : c.peek item.key = none) (hroom : c.items.length < size) :
    Cache.Kept size own { c with items := item :: c.items } := by
  refine ⟨h.size_eq, ?_, hroom, ?_⟩
  · rw [List.map_cons, List.nodup_cons]
    refine ⟨fun hmem => ?_, h.nodup⟩
    obtain ⟨i, hi, hkey⟩ := List.mem_map.mp hmem
    have hne := List.find?_eq_none.mp hnew i hi
    exact hne (by simpa using hkey)
  · intro i hi
    rcases List.mem_cons.mp hi with rfl | hi
    · exact hown
    · exact h.own i hi

/-- An item that was there leaves room for another. -/
theorem room (h : c.Kept size own) {key : String} {item : CacheItem}
    (hpeek : c.peek key = some item) :
    (c.remove key).items.length < size := by
  have hmem : item ∈ c.items := List.mem_of_find?_eq_some hpeek
  have hless : (c.remove key).items.length < c.items.length := by
    refine List.length_filter_lt_length_iff_exists.mpr ⟨item, hmem, ?_⟩
    simp [Cache.peek_key hpeek]
  exact hless.trans_le h.bounded

/-- An item found goes to the front, an expired one goes. -/
theorem getItem (h : c.Kept size own) (key : String) (now : ℤ) :
    (c.getItem key now).2.Kept size own := by
  unfold Cache.getItem
  cases hpeek : c.peek key with
  | none => exact h
  | some entry =>
    dsimp only
    split
    · exact h.remove key
    · -- taken out and put in front again
      have hkey := Cache.peek_key hpeek
      refine (h.remove key).cons (h.own entry (List.mem_of_find?_eq_some hpeek)) ?_ (h.room hpeek)
      rw [hkey]
      exact Cache.peek_remove c key

/-- A known key takes the place of its old item; a new one may push out the oldest. -/
theorem add (hsize : 0 < size) (h : c.Kept size own) {item : CacheItem} (hown : own item.key) :
    (c.add item).Kept size own := by
  have hsame := h.size_eq
  have hbounded := h.bounded
  unfold Cache.add
  cases hpeek : c.peek item.key with
  | some old =>
    exact (h.remove item.key).cons hown (Cache.peek_remove c item.key) (h.room hpeek)
  -- a new key
  | none =>
    dsimp only
    by_cases hfull : c.cacheSize ≠ 0 ∧ c.cacheSize < (item :: c.items).length
    · -- the oldest makes room
      rw [if_pos hfull]
      simp only [List.length_cons] at hfull
      have hne : c.items ≠ [] := by
        rw [← List.length_pos_iff]
        omega
      rw [List.dropLast_cons_of_ne_nil hne]
      refine (h.sublist (List.dropLast_sublist c.items)).cons hown ?_ ?_
      · refine List.find?_eq_none.mpr (fun i hi => ?_)
        exact List.find?_eq_none.mp hpeek i (List.mem_of_mem_dropLast hi)
      · simp only [List.length_dropLast]
        omega
    · rw [if_neg hfull]
      refine h.cons hown hpeek ?_
      simp only [List.length_cons] at hfull
      omega

/-- A change in place leaves keys and order. -/
theorem write (h : c.Kept size own) (item : CacheItem) : (c.write item).Kept size own := by
  have hkey : ∀ i : CacheItem, (if i.key == item.key then item else i).key = i.key := by
    intro i
    split
    · rename_i heq
      exact (eq_of_beq heq).symm
    · rfl
  refine ⟨h.size_eq, ?_, ?_, ?_⟩
  · simpa only [Cache.write, List.map_map, Function.comp_def, hkey] using h.nodup
  · simpa [Cache.write] using h.bounded
  · intro i hi
    obtain ⟨j, hj, rfl⟩ := List.mem_map.mp hi
    rw [hkey]
    exact h.own j hj

end Cache.Kept

/-! ## A worker's cache and the Store

A request may bring an item from the Store into the cache, and then writes items of its key. -/

/-- A request for a key of the worker keeps its cache in order, and the Store. -/
theorem handleGetRateLimit_kept {size : ℕ} (hsize : 0 < size) {own : String → Prop} (conf : Config)
    (host : Host) (now : ℤ) {r : RateLimitReq} (reqState : RateLimitReqState)
    (hown : own r.hashKey) {s : Shard} (hkeyed : s.Keyed) (h : s.cache.Kept size own) :
    (handleGetRateLimit conf host now s r reqState).2.cache.Kept size own := by
  obtain ⟨v, hsound, hcall⟩ := handleGetRateLimit_verdict conf host now r reqState
    (s.find (epochMillis now) r) (fun item b hb => (Shard.find_key hb).2.2)
  rw [hcall s rfl]
  have hlookup : (s.lookup (epochMillis now) r).2.cache.Kept size own := by
    have hget := h.getItem r.hashKey (epochMillis now)
    unfold Shard.lookup
    rcases hg : s.cache.getItem r.hashKey (epochMillis now) with ⟨hit, c⟩
    rw [hg] at hget
    cases hit with
    | some item => exact hget
    | none =>
      dsimp only
      split
      · -- an item the Store serves is of the key asked for
        rename_i item hserved
        obtain ⟨st, hst, hitem⟩ := Option.bind_eq_some_iff.mp hserved
        have hkey := hkeyed st hst r.hashKey item (Option.filter_eq_some_iff.mp hitem).1
        exact hget.add hsize (hkey ▸ hown)
      · exact hget
  -- each write is of an item of the key
  have hwrites : ∀ (ws : List Write) (t : Shard), (∀ w ∈ ws, ∀ item, w.item = some item →
      item.key = r.hashKey) → t.cache.Kept size own →
      (ws.foldl (Write.apply reqState.isOwner r.hashKey) t).cache.Kept size own := by
    intro ws
    induction ws with
    | nil => exact fun t _ ht => ht
    | cons w ws ih =>
      intro t hw ht
      refine ih _ (fun w' hw' => hw w' (List.mem_cons_of_mem _ hw')) ?_
      have hitem := hw w List.mem_cons_self
      cases w with
      | remove => exact ht.remove r.hashKey
      | create item => exact ht.add hsize ((hitem item rfl) ▸ hown)
      | update item => exact ht.write item
      | mutate item => exact ht.write item
  refine hwrites v.writes _ (fun w hw item hi => (hsound.own w hw item hi).1) ?_
  split
  · exact hlookup
  · exact h

/-! ## The pool

The pool is an `Option`: asked about a key past its workers it panics, and stays `none`. -/

namespace WorkerPool

/-- `AddCacheItem`, with the key of the item. -/
def addCacheItem : Option WorkerPool → CacheItem → Option WorkerPool
  | none, _ => none
  | some p, item => (p.shard item.key).map (fun s =>
      p.setShard item.key { s with cache := s.cache.add item })

/-- `GetCacheItem`: an expired item is dropped on the way. -/
def getCacheItem : Option WorkerPool → String → ℤ → Option WorkerPool
  | none, _, _ => none
  | some p, key, now => (p.shard key).map (fun s =>
      p.setShard key { s with cache := (s.cache.getItem key now).2 })

/-- What a pool is asked. -/
inductive Op where
  | getRateLimit (a : Arrival)
  | addCacheItem (item : CacheItem)
  | getCacheItem (key : String) (now : ℤ)

/-- What it is then; the answers do not matter here. -/
def step (conf : Config) (host : Host) (p : Option WorkerPool) : Op → Unit × Option WorkerPool
  | .getRateLimit a => ((), (getRateLimit conf host p a).2)
  | .addCacheItem item => ((), addCacheItem p item)
  | .getCacheItem key now => ((), getCacheItem p key now)

/-- **A pool in order**: every worker's cache is, and holds the keys that `getWorker` gives it. -/
structure Kept (hasher : String → Fin (2 ^ 63)) (n size : ℕ) (p : WorkerPool) : Prop where
  hasher_eq : p.hasher = hasher
  step_eq : p.hashRingStep = 2 ^ 63 / n
  length : p.workers.length = n
  keyed : p.Keyed
  workers : ∀ i (c : Cache), p.workers[i]? = some c →
    c.Kept size (fun key => (hasher key).val / (2 ^ 63 / n) = i)

variable {hasher : String → Fin (2 ^ 63)} {n size : ℕ} {p : WorkerPool}

/-- The worker of a key, by the range that its hash is in. -/
theorem Kept.getWorker (h : p.Kept hasher n size) (key : String) :
    p.getWorker key = (hasher key).val / (2 ^ 63 / n) := by
  rw [WorkerPool.getWorker, h.hasher_eq, h.step_eq]

/-- The shard of a key, and what may take its place. -/
theorem Kept.shard (h : p.Kept hasher n size) {key : String} {s : Shard}
    (hs : p.shard key = some s) :
    s.Keyed ∧ s.cache.Kept size (fun k => (hasher k).val / (2 ^ 63 / n) = p.getWorker key) := by
  obtain ⟨c, hc, rfl⟩ := Option.map_eq_some_iff.mp hs
  exact ⟨h.keyed, h.workers _ c hc⟩

/-- A shard in order may take the place of the one that was there. -/
theorem Kept.setShard (h : p.Kept hasher n size) {key : String} {s : Shard} (hkeyed : s.Keyed)
    (hs : s.cache.Kept size (fun k => (hasher k).val / (2 ^ 63 / n) = p.getWorker key)) :
    (p.setShard key s).Kept hasher n size := by
  refine ⟨h.hasher_eq, h.step_eq, ?_, hkeyed, ?_⟩
  · rw [WorkerPool.setShard, List.length_set]
    exact h.length
  · -- the worker of the key has the new cache, the others their own
    intro i c hc
    simp only [WorkerPool.setShard, List.getElem?_set] at hc
    split at hc
    · rename_i hi
      split at hc
      · obtain rfl := Option.some.inj hc
        exact hi ▸ hs
      · cases hc
    · exact h.workers i c hc

/-- **Step.** -/
theorem Kept.step (hsize : 0 < size) (conf : Config) (host : Host) (h : p.Kept hasher n size)
    (op : Op) {p' : WorkerPool} (hp' : (step conf host (some p) op).2 = some p') :
    p'.Kept hasher n size := by
  cases op with
  | getRateLimit a =>
    simp only [WorkerPool.step, getRateLimit] at hp'
    cases hs : p.shard a.req.hashKey with
    | none => simp [hs] at hp'
    | some s =>
      simp only [hs, Option.some.injEq] at hp'
      obtain ⟨hkeyed, hcache⟩ := h.shard hs
      rw [← hp']
      refine h.setShard
        ((local_handleGetRateLimit conf host a.now a.req a.reqState).keyed hkeyed) ?_
      exact handleGetRateLimit_kept hsize conf host a.now a.reqState (h.getWorker _).symm hkeyed
        hcache
  | addCacheItem item =>
    obtain ⟨s, hs, rfl⟩ := Option.map_eq_some_iff.mp hp'
    obtain ⟨hkeyed, hcache⟩ := h.shard hs
    exact h.setShard hkeyed (hcache.add hsize (h.getWorker _).symm)
  | getCacheItem key now =>
    obtain ⟨s, hs, rfl⟩ := Option.map_eq_some_iff.mp hp'
    obtain ⟨hkeyed, hcache⟩ := h.shard hs
    exact h.setShard hkeyed (hcache.getItem key now)

/-- The size of a worker's cache. -/
def workerCacheSize (n cacheSize : ℕ) : ℕ :=
  (LRUCache.new ((if cacheSize = 0 then 50000 else cacheSize) / n)).toCache.cacheSize

/-- A cache size of zero stands for the default, so a worker's cache has room. -/
theorem workerCacheSize_pos (n cacheSize : ℕ) : 0 < workerCacheSize n cacheSize := by
  have hnew : ∀ maxSize, 0 < (LRUCache.new maxSize).toCache.cacheSize := by
    intro maxSize
    show 0 < (if maxSize = 0 then 50000 else maxSize)
    split <;> omega
  exact hnew _

/-- A new pool. -/
theorem kept_new (hasher : String → Fin (2 ^ 63)) (n cacheSize : ℕ) {store : Option Store}
    (hkeyed : (new hasher n cacheSize store).Keyed) :
    (new hasher n cacheSize store).Kept hasher n (workerCacheSize n cacheSize) := by
  refine ⟨rfl, rfl, List.length_replicate, hkeyed, ?_⟩
  intro i c hc
  have hnew : c = (LRUCache.new ((if cacheSize = 0 then 50000 else cacheSize) / n)).toCache :=
    List.eq_of_mem_replicate (List.mem_of_getElem? hc)
  subst hnew
  exact ⟨rfl, List.nodup_nil, Nat.zero_le _, fun item hitem => (by cases hitem)⟩

/-- **Run.**  A pool that has not panicked is in order, whatever it was asked. -/
theorem kept_exec (conf : Config) (host : Host) (hasher : String → Fin (2 ^ 63)) (n cacheSize : ℕ)
    {store : Option Store} (hkeyed : (new hasher n cacheSize store).Keyed) (ops : List Op)
    (hp : Machine.exec (step conf host) (some (new hasher n cacheSize store)) ops = some p) :
    p.Kept hasher n (workerCacheSize n cacheSize) := by
  have hall := Machine.invariant_rule
    (P := fun q : Option WorkerPool =>
      ∀ p, q = some p → p.Kept hasher n (workerCacheSize n cacheSize))
    (fun q op _ hq p' hp' => ?_) (Machine.guarded_true (step conf host) _ ops)
    (fun p' hp' => ?_) p hp
  · exact hall
  · cases q with
    | none => cases op <;> cases hp'
    | some q => exact (hq q rfl).step (workerCacheSize_pos n cacheSize) conf host op hp'
  · obtain rfl := Option.some.inj hp'
    exact kept_new hasher n cacheSize hkeyed

end WorkerPool

end Gubernator
