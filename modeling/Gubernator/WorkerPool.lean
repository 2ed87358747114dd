/-
  The worker pool (`workers.go`): the keys of an instance are spread over workers by a 63-bit hash,
  and each worker handles the requests of its keys one after another, on a cache of its own.  The
  Store is shared.

  The channels and the goroutine of each worker are one step here: a request is handed to its
  worker and answered.  A key whose index is past the workers makes the process panic; it answers
  nothing from then on (`none`).
-/
import Gubernator.LruCache
import Gubernator.Instance

namespace Gubernator

/-- `hasher` is `ComputeHash63`: the hash function, a library's, is any function. -/
structure WorkerPool where
  hasher : String → Fin (2 ^ 63)
  hashRingStep : ℕ
  workers : List Cache
  store : Option Store

namespace WorkerPool

/-- `NewWorkerPool`: the cache size is shared out, with the defaults of `Config` and of
    `NewLRUCache` for a size of zero. -/
def new (hasher : String → Fin (2 ^ 63)) (workers cacheSize : ℕ) (store : Option Store) :
    WorkerPool :=
  let cacheSize := if cacheSize = 0 then 50000 else cacheSize
  { hasher
    hashRingStep := 2 ^ 63 / workers
    workers := List.replicate workers (LRUCache.new (cacheSize / workers)).toCache
    store }

/-- The index of the worker of a key. -/
def getWorker (p : WorkerPool) (key : String) : ℕ := (p.hasher key).val / p.hashRingStep

/-- The cache and the Store a request for the key works on. -/
def shard (p : WorkerPool) (key : String) : Option Shard :=
  (p.workers[p.getWorker key]?).map (fun cache => ⟨cache, p.store⟩)

/-- The worker of the key and the Store afterwards. -/
def setShard (p : WorkerPool) (key : String) (s : Shard) : WorkerPool :=
  { p with workers := p.workers.set (p.getWorker key) s.cache, store := s.store }

/-- One request; `none` for a pool that has panicked. -/
def getRateLimit (conf : Config) (host : Host) :
    Option WorkerPool → Arrival → Option (Except String RateLimitResp) × Option WorkerPool
  | none, _ => (none, none)
  | some p, a =>
    match p.shard a.req.hashKey with
    | none => (none, none)
    | some s =>
      let (result, s') := handleGetRateLimit conf host a.now s a.req a.reqState
      (some result, some (p.setShard a.req.hashKey s'))

/-! ## The index of a key's worker -/

/-- The step is a truncated quotient: the workers' ranges cover all but the last `2^63 % n`
    hashes. -/
theorem ranges_cover (n : ℕ) : n * (2 ^ 63 / n) = 2 ^ 63 - 2 ^ 63 % n := by
  have := Nat.div_add_mod (2 ^ 63) n
  omega

theorem step_pos {n : ℕ} (hn : 1 ≤ n) (hint : n < 2 ^ 63) : 0 < 2 ^ 63 / n :=
  Nat.div_pos hint.le hn

/-- **When the index is in range**: for the keys whose hash is not among the last `2^63 % n`, and
    so for every key exactly if the number of workers, an `int`, divides `2^63`. -/
theorem getWorker_in_range_iff (hasher : String → Fin (2 ^ 63)) {n : ℕ} (hn : 1 ≤ n)
    (hint : n < 2 ^ 63) (cacheSize : ℕ) (store : Option Store) :
    (∀ key, (new hasher n cacheSize store).getWorker key <
        (new hasher n cacheSize store).workers.length ↔
      (hasher key).val < 2 ^ 63 - 2 ^ 63 % n) ∧
    ((∀ h : Fin (2 ^ 63), h.val / (new hasher n cacheSize store).hashRingStep < n) ↔
      n ∣ 2 ^ 63) := by
  have hindex : ∀ h : ℕ, h / (2 ^ 63 / n) < n ↔ h < 2 ^ 63 - 2 ^ 63 % n := by
    intro h
    rw [Nat.div_lt_iff_lt_mul (step_pos hn hint), ranges_cover]
  refine ⟨fun key => ?_, ?_⟩
  · show (hasher key).val / (2 ^ 63 / n) < (List.replicate n _).length ↔ _
    rw [List.length_replicate, hindex]
  show (∀ h : Fin (2 ^ 63), h.val / (2 ^ 63 / n) < n) ↔ _
  rw [Nat.dvd_iff_mod_eq_zero]
  constructor
  · -- the very last hash has to be covered
    intro hall
    have hlast := (hindex _).mp (hall ⟨2 ^ 63 - 1, by omega⟩)
    simp only at hlast
    omega
  · intro hzero h
    rw [hindex, hzero]
    exact h.isLt

/-- The tests' 32 workers, the last hash. -/
theorem getWorker_in_range_32 :
    (new (fun _ => ⟨2 ^ 63 - 1, by decide⟩) 32 0 none).getWorker "requests_account:1" <
      (new (fun _ => ⟨2 ^ 63 - 1, by decide⟩) 32 0 none).workers.length :=
  ((getWorker_in_range_iff _ (by decide) (by decide) 0 none).1 _).mpr (by decide)

/-- **Three workers, and the last hash indexes a fourth.** -/
theorem getWorker_past_workers :
    (new (fun _ => ⟨2 ^ 63 - 1, by decide⟩) 3 0 none).getWorker "requests_account:1" = 3 ∧
      (new (fun _ => ⟨2 ^ 63 - 1, by decide⟩) 3 0 none).workers.length = 3 ∧
      (new (fun _ => ⟨2 ^ 63 - 1, by decide⟩) 3 0 none).shard "requests_account:1" = none := by
  decide

end WorkerPool

end Gubernator
