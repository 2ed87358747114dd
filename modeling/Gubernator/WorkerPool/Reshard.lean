/-
  ANOTHER NUMBER OF WORKERS: what was saved by one pool, loaded into a different one.

  An instance can be started again with another number of workers, another cache size and, with
  another build, another hash.  Its Loader gives back what the old workers sent to `Store`, in any
  order, and `Load` hands every item to its NEW worker.

  The items of all the old workers have different keys, since a worker has only keys of its own
  (`Sharded.nodup_items`).  So they are a finite map, which the old workers cut up in one way and
  the new ones in another (`Sharded.entry_iff`, of the old pool and of the new), and if every new
  worker has room for its part, no entry is lost or changed.
-/
import Gubernator.Deployment
import Gubernator.WorkerPool.SaveLoad

namespace Gubernator

open WorkerPool Interleaving

/-- An entry of a cache without duplicates. -/
theorem Cache.peek_iff {c : Cache} (hnodup : (c.items.map CacheItem.key).Nodup) {key : String}
    {item : CacheItem} : c.peek key = some item ↔ item ∈ c.items ∧ item.key = key := by
  constructor
  · intro hpeek
    exact ⟨List.mem_of_find?_eq_some hpeek, Cache.peek_key hpeek⟩
  · rintro ⟨hmem, rfl⟩
    cases hpeek : c.peek item.key with
    | none => exact absurd (by simp) (List.find?_eq_none.mp hpeek item hmem)
    | some found =>
      have hfound : found ∈ c.items := List.mem_of_find?_eq_some hpeek
      rw [List.inj_on_of_nodup_map hnodup hfound hmem (Cache.peek_key hpeek)]

namespace WorkerPool

/-- All items of a pool. -/
def items (p : WorkerPool) : List CacheItem := p.workers.flatMap Cache.items

namespace Sharded

variable {p : WorkerPool}

/-- **The entry of a key is the one item of the key**, in whichever worker. -/
theorem entry_iff (h : p.Sharded) {key : String} {item : CacheItem} :
    p.entry key = some item ↔ item ∈ p.items ∧ item.key = key := by
  have hget := List.getElem?_eq_getElem (h.range key)
  have hcache : (p.shardOf key).cache = p.workers.get ⟨_, h.range key⟩ := by
    simp [WorkerPool.shardOf, hget]
  rw [WorkerPool.entry, Cache.peek_iff (h.shardOf key).2.2.nodup, hcache, WorkerPool.items,
    List.mem_flatMap]
  constructor
  · rintro ⟨hmem, hkey⟩
    exact ⟨⟨_, List.get_mem _ _, hmem⟩, hkey⟩
  · rintro ⟨⟨c, hc, hmem⟩, rfl⟩
    -- the worker that has it is the worker of its key
    obtain ⟨i, hi⟩ := List.getElem?_of_mem hc
    have hown := (h.caches i c hi).2.own item hmem
    rw [← hown, hget] at hi
    obtain rfl := Option.some.inj hi
    exact ⟨hmem, rfl⟩

/-- No two items of a pool have one key. -/
theorem nodup_items (h : p.Sharded) : (p.items.map CacheItem.key).Nodup := by
  unfold WorkerPool.items
  rw [List.map_flatMap, List.nodup_flatMap]
  refine ⟨fun c hc => ?_, ?_⟩
  · obtain ⟨i, hi⟩ := List.getElem?_of_mem hc
    exact (h.caches i c hi).2.nodup
  · rw [List.pairwise_iff_getElem]
    intro i j hi hj hij key hkeyI hkeyJ
    -- a key in two workers would belong to both
    obtain ⟨a, ha, rfl⟩ := List.mem_map.mp hkeyI
    obtain ⟨b, hb, hkey⟩ := List.mem_map.mp hkeyJ
    have hownI := (h.caches i _ (List.getElem?_eq_getElem hi)).2.own a ha
    have hownJ := (h.caches j _ (List.getElem?_eq_getElem hj)).2.own b hb
    rw [hkey, hownI] at hownJ
    omega

end Sharded

/-- The pool when `Load` has returned. -/
def loaded (p : WorkerPool) (l : Loading) : WorkerPool :=
  { p with workers := l.workers.map LoadWorker.cache }

end WorkerPool

/-- **Room**: every worker of the new pool can hold the items that are its own there. -/
def Room (fresh : WorkerPool) (size : ℕ) (items : List CacheItem) : Prop :=
  ∀ i, (items.filter (fun item => fresh.getWorker item.key = i)).length ≤ size

/-- **The pool reloaded**: `Load` is back, and the new pool has every entry of the old. -/
structure Reloaded (p fresh : WorkerPool) (l : Loading) : Prop where
  returned : l.stage = .returned
  sharded : (fresh.loaded l).Sharded
  entries : ∀ key, (fresh.loaded l).entry key = p.entry key

/-- To the cluster it is a restart that forgets nothing. -/
theorem Reloaded.admissible {ι : Type} {pools : ι → WorkerPool} {peer : ι} {fresh : WorkerPool}
    {l : Loading} (h : Reloaded (pools peer) fresh l) :
    Members.Admissible pools (.restart peer (fresh.loaded l)) :=
  ⟨h.sharded, fun key => .inl (h.entries key)⟩

/-- When `Load` has put every item at its new worker. -/
theorem reloaded {p fresh : WorkerPool} {size : ℕ} {l : Loading} (hp : p.Sharded)
    (hfresh : fresh.Sharded) (hsize : 0 < size) (hroom : Room fresh size p.items)
    (hreturned : l.stage = .returned) (hlength : l.workers.length = fresh.workers.length)
    (hcaches : ∀ (i : ℕ) (w : LoadWorker), l.workers[i]? = some w → w.cache.cacheSize = size ∧
      w.cache.items.Perm (p.items.filter (fun item => fresh.getWorker item.key = i))) :
    Reloaded p fresh l := by
  have hsharded : (fresh.loaded l).Sharded := by
    refine ⟨hfresh.store, fun key => ?_, fun i c hc => ?_⟩
    · show fresh.getWorker key < (l.workers.map LoadWorker.cache).length
      rw [List.length_map, hlength]
      exact hfresh.range key
    · obtain ⟨w, hw, rfl⟩ : ∃ w, l.workers[i]? = some w ∧ w.cache = c := by
        rw [WorkerPool.loaded, List.getElem?_map, Option.map_eq_some_iff] at hc
        exact hc
      obtain ⟨hwsize, hperm⟩ := hcaches i w hw
      rw [hwsize]
      refine ⟨hsize, hwsize, ?_, hperm.length_eq ▸ hroom i, fun item hitem => ?_⟩
      · exact (hperm.map _).nodup_iff.mpr (hp.nodup_items.sublist (List.filter_sublist.map _))
      · exact of_decide_eq_true (List.mem_filter.mp (hperm.mem_iff.mp hitem)).2
  refine ⟨hreturned, hsharded, fun key => Option.ext (fun item => ?_)⟩
  rw [hsharded.entry_iff, hp.entry_iff]
  -- an item is at a new worker exactly if it was at an old one
  refine and_congr_left (fun hkey => ?_)
  rw [WorkerPool.items, List.mem_flatMap]
  constructor
  · rintro ⟨c, hc, hmem⟩
    obtain ⟨w, hw, rfl⟩ := List.mem_map.mp hc
    obtain ⟨i, hi⟩ := List.getElem?_of_mem hw
    exact (List.mem_filter.mp ((hcaches i w hi).2.mem_iff.mp hmem)).1
  · intro hmem
    have hlt : fresh.getWorker item.key < l.workers.length := hlength ▸ hfresh.range item.key
    have hw := List.getElem?_eq_getElem hlt
    refine ⟨_, List.mem_map_of_mem (List.getElem_mem hlt), ?_⟩
    exact (hcaches _ _ hw).2.mem_iff.mpr (List.mem_filter.mpr ⟨hmem, by simp⟩)

/-- **Every run of `Load` on another pool ends**, with all the entries. -/
theorem load_reshards {p : WorkerPool} (hp : p.Sharded) {hasher : String → Fin (2 ^ 63)}
    {n cacheSize : ℕ} (hfresh : (new hasher n cacheSize none).Sharded)
    (hroom : Room (new hasher n cacheSize none) (workerCacheSize n cacheSize) p.items)
    {order : List CacheItem} (horder : order.Perm p.items) :
    Inevitable (LoadStep (new hasher n cacheSize none).getWorker)
      (Reloaded p (new hasher n cacheSize none))
      (Loading.start (new hasher n cacheSize none) order) := by
  set fresh := new hasher n cacheSize none with hnew
  set own : ℕ → List CacheItem :=
    fun i => p.items.filter (fun item => fresh.getWorker item.key = i) with hown
  have hlength : fresh.workers.length = n := List.length_replicate
  have hnodup : ∀ i, ((own i).map CacheItem.key).Nodup :=
    fun i => hp.nodup_items.sublist (List.filter_sublist.map _)
  have hempty : ∀ cache ∈ fresh.workers,
      cache.items = [] ∧ cache.cacheSize = workerCacheSize n cacheSize := by
    intro cache hcache
    rw [List.eq_of_mem_replicate hcache]
    exact ⟨rfl, rfl⟩
  refine inevitable_rule
    (P := Loading.Sound fresh.getWorker own n (workerCacheSize n cacheSize)) Loading.rank
    (fun s t h hstep => h.step hnodup hroom hstep) (fun s h => ?_)
    (Loading.sound_start hlength hempty (fun i _ => horder.filter _))
  refine (h.goes_on (fun key => hlength ▸ hfresh.range key)).imp_left (fun hreturned => ?_)
  refine reloaded hp hfresh (workerCacheSize_pos n cacheSize) hroom hreturned
    (h.length.trans hlength.symm) (fun i w hw => ⟨h.size_eq i w hw, ?_⟩)
  exact (h.restored hreturned hw).2

/-- **Resharding.**  A pool in order is saved, and loaded into a new one with another number of
    workers, another cache size or another hash, each of whose workers has room for what will be its
    own.  In every interleaving `Store` ends, and whatever order the Loader gives the items back in,
    `Load` ends in every interleaving too; the new pool is in order, and every key has the entry it
    had. -/
theorem reshard_round_trip (p : WorkerPool) (hp : p.Sharded) (hasher : String → Fin (2 ^ 63))
    (n cacheSize : ℕ) (hn : 1 ≤ n) (hint : n < 2 ^ 63) (hdvd : n ∣ 2 ^ 63)
    (hroom : Room (new hasher n cacheSize none) (workerCacheSize n cacheSize) p.items) :
    Inevitable StoreStep
      (fun s => s.returned = true ∧ ∀ order, order.Perm s.saved →
        Inevitable (LoadStep (new hasher n cacheSize none).getWorker)
          (Reloaded p (new hasher n cacheSize none))
          (Loading.start (new hasher n cacheSize none) order))
      (Storing.start p) := by
  refine (store_saves p).imp (fun s hs => ⟨hs.1, fun order horder => ?_⟩)
  exact load_reshards hp (sharded_new hasher hn hint hdvd cacheSize) hroom (horder.trans hs.2)

/-- A pool of two workers, after a hit on an account of each. -/
def twoAccounts : WorkerPool :=
  (twoWorkers.served ⟨300000000000⟩ .amd64 5000 (accountHits 5000 "a" 2).req).served ⟨300000000000⟩
    .amd64 5000 (accountHits 5000 "cc" 1).req

theorem reshard_round_trip_twoAccounts :
    twoAccounts.workers.map (fun c => c.items.map CacheItem.key) =
      [["requests_a"], ["requests_cc"]] ∧
      Inevitable StoreStep
        (fun s => s.returned = true ∧ ∀ order, order.Perm s.saved →
          Inevitable (LoadStep (new (fun _ => 0) 4 40 none).getWorker)
            (Reloaded twoAccounts (new (fun _ => 0) 4 40 none))
            (Loading.start (new (fun _ => 0) 4 40 none) order))
        (Storing.start twoAccounts) := by
  have hsharded : twoAccounts.Sharded :=
    (((sharded_new _ (by decide) (by decide) (by decide) 10).served _ _ _ _).1.served _ _ _ _).1
  refine ⟨by decide +kernel, reshard_round_trip twoAccounts hsharded (fun _ => 0) 4 40 (by decide)
    (by decide) (by decide) (fun i => (List.length_filter_le _ _).trans ?_)⟩
  decide +kernel

end Gubernator
