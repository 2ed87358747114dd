/-
  SAVE AND LOAD (`workers.go`, `Store`, `handleStore`, `Load`, `handleLoad`; `lrucache.go`, `Each`):
  what a pool saves at its end another loads at its start, whole.

  `Store` asks every worker for its items.  A worker ranges over its map, in any order, and puts one
  item after another on the channel `out`, which all workers share and the Loader's `Save` reads;
  when all have answered, `out` is closed.  `Load` takes one item after another from the Loader,
  looks up the item's worker, opens a channel to it at the first item that is the worker's, and
  sends the item over it; the worker adds it to its cache.  At the end every channel is closed, and
  the worker's answer awaited.

  Both are step relations of the goroutines involved, so a run is any interleaving.  The proofs have
  the same parts: what is conserved (the items saved, under way and yet to be read are those of the
  caches; of each worker's own, the items cached, under way and to come are those saved), what is
  always possible, and a number that every step lowers.

  Contexts are not cancelled, and the Loader keeps what it is given to save.

  The two `goes_on` lemmas are where a deadlock would show.  A worker that cannot send has `Save` to
  read from the full channel; a `Load` that cannot send has a worker that is adding the item before.
-/
import Mathlib.Data.List.Find
import Gubernator.Lib.Interleaving
import Gubernator.WorkerPool.Contents

namespace Gubernator

open Interleaving
open WorkerPool (new workerCacheSize)

/-! ## `Store`

A worker passes its items on one at a time: `Each` hands an item over an unbuffered channel to the
loop of `handleStore`, and the loop puts it on `out`.  That item is the one held. -/

/-- A worker during `Store`. -/
inductive SaveStage where
  /-- has not taken the request -/
  | idle (cache : Cache)
  /-- in `handleStore`, with the items `Each` has yet to pass on and the one it has passed on -/
  | iterating (rest : List CacheItem) (held : Option CacheItem)
  /-- has answered, and the goroutine that asked it has called `wg.Done` -/
  | done

/-- `Store` under way: the workers, the buffer of `out`, and what `Save` has read from it. -/
structure Storing where
  workers : List SaveStage
  /-- the items in the buffer -/
  out : List CacheItem := []
  /-- `out` is closed -/
  closed : Bool := false
  saved : List CacheItem := []
  /-- `Save` is back, and `Store` with it -/
  returned : Bool := false

/-- The capacity of `out`. -/
def outCapacity : ℕ := 500

/-- **One step** of a worker, of `Store`, or of the Loader's `Save`. -/
inductive StoreStep : Storing → Storing → Prop
  -- Go ranges over a map in no fixed order
  | start {s : Storing} {i : ℕ} {cache : Cache} {order : List CacheItem} :
      s.workers[i]? = some (.idle cache) → order.Perm cache.items →
      StoreStep s { s with workers := s.workers.set i (.iterating order none) }
  | fetch {s : Storing} {i : ℕ} {item : CacheItem} {rest : List CacheItem} :
      s.workers[i]? = some (.iterating (item :: rest) none) →
      StoreStep s { s with workers := s.workers.set i (.iterating rest (some item)) }
  -- a full `out` blocks the worker
  | send {s : Storing} {i : ℕ} {item : CacheItem} {rest : List CacheItem} :
      s.workers[i]? = some (.iterating rest (some item)) → s.out.length < outCapacity →
      StoreStep s { s with
        workers := s.workers.set i (.iterating rest none), out := s.out ++ [item] }
  | respond {s : Storing} {i : ℕ} : s.workers[i]? = some (.iterating [] none) →
      StoreStep s { s with workers := s.workers.set i .done }
  /-- `wg.Wait` has returned -/
  | close {s : Storing} : (∀ w ∈ s.workers, w = .done) → s.closed = false →
      StoreStep s { s with closed := true }
  /-- `Save` reads an item -/
  | read {s : Storing} {item : CacheItem} {rest : List CacheItem} : s.out = item :: rest →
      s.returned = false → StoreStep s { s with out := rest, saved := s.saved ++ [item] }
  /-- `Save` finds `out` closed -/
  | finish {s : Storing} : s.out = [] → s.closed = true → s.returned = false →
      StoreStep s { s with returned := true }

/-- `Store` is called. -/
def Storing.start (p : WorkerPool) : Storing := { workers := p.workers.map .idle }

namespace SaveStage

/-- What a worker has yet to put on `out`. -/
def pending : SaveStage → List CacheItem
  | idle cache => cache.items
  | iterating rest held => held.toList ++ rest
  | done => []

/-- The steps a worker has yet to take, and that its items have. -/
def rank : SaveStage → ℕ
  | idle cache => 3 * cache.items.length + 2
  | iterating rest held => 3 * rest.length + 2 * held.toList.length + 1
  | done => 0

end SaveStage

namespace Storing

/-- **What `Store` keeps**: every item is saved, on `out` or with its worker, exactly once. -/
structure Sound (items : List CacheItem) (s : Storing) : Prop where
  conserved : (s.saved ++ s.out ++ s.workers.flatMap SaveStage.pending).Perm items
  closed : s.closed = true → ∀ w ∈ s.workers, w = .done
  returned : s.returned = true → s.out = [] ∧ s.closed = true

/-- The steps left. -/
def rank (s : Storing) : ℕ :=
  (s.workers.map SaveStage.rank).sum + s.out.length + (if s.closed then 0 else 1) +
    (if s.returned then 0 else 1)

variable {items : List CacheItem} {s t : Storing}

/-- A worker that moves has not answered, so `out` is open. -/
theorem Sound.not_closed (h : s.Sound items) {i : ℕ} {w : SaveStage} (hw : s.workers[i]? = some w)
    (hne : w ≠ .done) : s.closed = false ∧ s.returned = false := by
  have hopen : s.closed = false := by
    by_contra hclosed
    exact hne (h.closed (by simpa using hclosed) w (List.mem_of_getElem? hw))
  refine ⟨hopen, ?_⟩
  -- `Save` returns after `out` is closed
  by_contra hreturned
  rw [(h.returned (by simpa using hreturned)).2] at hopen
  cases hopen

/-- A worker moves on, and puts `given` on `out`. -/
theorem Sound.move (h : s.Sound items) {i : ℕ} {w : SaveStage} (hw : s.workers[i]? = some w)
    (hne : w ≠ .done) (w' : SaveStage) (given : List CacheItem)
    (hgive : w.pending.Perm (given ++ w'.pending)) (hlower : w'.rank + given.length < w.rank) :
    Sound items { s with workers := s.workers.set i w', out := s.out ++ given } ∧
      rank { s with workers := s.workers.set i w', out := s.out ++ given } < s.rank := by
  obtain ⟨hopen, hrunning⟩ := h.not_closed hw hne
  refine ⟨⟨?_, fun hclosed => ?_, fun hreturned => ?_⟩, ?_⟩
  · -- what the worker gives away is on `out` now
    have hmove := flatMap_move hw (f := SaveStage.pending) hgive
    refine List.Perm.trans ?_ h.conserved
    simp only [List.append_assoc]
    exact (hmove.symm.append_left s.out).append_left s.saved
  · exact absurd (hopen.symm.trans hclosed) (by decide)
  · exact absurd (hrunning.symm.trans hreturned) (by decide)
  · have hsum := sum_move hw SaveStage.rank w'
    simp only [rank, List.length_append]
    omega

/-- **Step.** Every step of `Store` keeps the invariant and lowers the number of steps left. -/
theorem Sound.step (h : s.Sound items) (hstep : StoreStep s t) :
    t.Sound items ∧ t.rank < s.rank := by
  cases hstep with
  | start hw horder =>
    have hmove := h.move hw (by simp) (.iterating _ none) [] horder.symm
      (by simp [SaveStage.rank, horder.length_eq])
    rwa [List.append_nil] at hmove
  -- the item moves from those to come to the one held
  | fetch hw =>
    have hmove := h.move hw (by simp) (.iterating _ (some _)) [] (.refl _)
      (by simp [SaveStage.rank, Nat.mul_add])
    rwa [List.append_nil] at hmove
  | send hw hroom =>
    exact h.move hw (by simp) (.iterating _ none) [_] (.refl _) (by simp [SaveStage.rank])
  | respond hw =>
    have hmove := h.move hw (by simp) .done [] (.refl _) (by simp [SaveStage.rank])
    rwa [List.append_nil] at hmove
  | close hdone hopen =>
    refine ⟨⟨h.conserved, fun _ => hdone, fun hreturned => ?_⟩, ?_⟩
    · exact ⟨(h.returned hreturned).1, rfl⟩
    · simp only [rank, hopen, if_true, Bool.false_eq_true, if_false]
      omega
  -- the item moves from `out` to the saved ones
  | read hout hrunning =>
    rename_i item rest
    refine ⟨⟨?_, h.closed, fun hreturned => ?_⟩, ?_⟩
    · have hconserved := h.conserved
      rw [hout] at hconserved
      simpa using hconserved
    · exact absurd (hrunning.symm.trans hreturned) (by decide)
    · simp only [rank, hout, List.length_cons]
      omega
  | finish hout hclosed hrunning =>
    refine ⟨⟨h.conserved, h.closed, fun _ => ⟨hout, hclosed⟩⟩, ?_⟩
    simp only [rank, hrunning, if_true, Bool.false_eq_true, if_false]
    omega

/-- **Nobody waits for ever**: unless `Store` has returned, with everything saved, there is a
    step. -/
theorem Sound.goes_on (h : s.Sound items) :
    (s.returned = true ∧ s.saved.Perm items) ∨ ∃ t, StoreStep s t := by
  by_cases hreturned : s.returned = true
  · left
    obtain ⟨hout, hclosed⟩ := h.returned hreturned
    refine ⟨hreturned, ?_⟩
    -- all items are saved, since none is on `out` and none with a worker
    have hnone : s.workers.flatMap SaveStage.pending = [] := by
      refine List.flatMap_eq_nil_iff.mpr (fun w hw => ?_)
      rw [h.closed hclosed w hw]
      rfl
    have hconserved := h.conserved
    rw [hout, hnone, List.append_nil, List.append_nil] at hconserved
    exact hconserved
  · right
    have hrunning : s.returned = false := by simpa using hreturned
    by_cases hall : ∀ w ∈ s.workers, w = .done
    · -- the workers are done: `out` is closed, emptied, and found closed
      cases hclosed : s.closed with
      | false => exact ⟨_, .close hall hclosed⟩
      | true =>
        cases hout : s.out with
        | nil => exact ⟨_, .finish hout hclosed hrunning⟩
        | cons item rest => exact ⟨_, .read hout hrunning⟩
    · -- one of the workers is not; if it cannot send, `Save` can read
      simp only [not_forall] at hall
      obtain ⟨w, hw, hne⟩ := hall
      obtain ⟨i, hi⟩ := List.mem_iff_getElem?.mp hw
      cases w with
      | idle cache => exact ⟨_, .start hi (.refl _)⟩
      | iterating rest held =>
        cases held with
        | none =>
          cases rest with
          | nil => exact ⟨_, .respond hi⟩
          | cons item rest => exact ⟨_, .fetch hi⟩
        | some item =>
          by_cases hroom : s.out.length < outCapacity
          · exact ⟨_, .send hi hroom⟩
          · cases hout : s.out with
            | nil =>
              rw [hout] at hroom
              exact absurd (by decide) hroom
            | cons item' rest' => exact ⟨_, .read hout hrunning⟩
      | done => exact absurd rfl hne

/-- At the start all items are with their workers. -/
theorem sound_start (p : WorkerPool) :
    (Storing.start p).Sound (p.workers.flatMap Cache.items) := by
  refine ⟨?_, fun hclosed => (by cases hclosed), fun hreturned => (by cases hreturned)⟩
  show (([] : List CacheItem) ++ [] ++
    (p.workers.map SaveStage.idle).flatMap SaveStage.pending).Perm _
  rw [List.flatMap_map]
  exact .refl _

end Storing

/-- **Every run of `Store` ends**, with every cached item saved once. -/
theorem store_saves (p : WorkerPool) :
    Inevitable StoreStep
      (fun s => s.returned = true ∧ s.saved.Perm (p.workers.flatMap Cache.items))
      (Storing.start p) :=
  inevitable_rule (P := Storing.Sound (p.workers.flatMap Cache.items)) Storing.rank
    (fun _ _ h hstep => h.step hstep) (fun _ h => h.goes_on) (Storing.sound_start p)

/-! ## `Load`

`Load` is one goroutine that talks to one worker at a time.  A worker adds an item while `Load`
already receives the next, so the two overlap by one item. -/

/-- A worker during `Load`. -/
inductive HandleLoad where
  | idle
  /-- in `handleLoad`, at its `select` -/
  | loading
  | adding (item : CacheItem)

/-- A worker and its cache. -/
structure LoadWorker where
  cache : Cache
  stage : HandleLoad := .idle

/-- `Load` itself. -/
inductive LoadStage where
  | receiving
  /-- at the send of a load request to the worker of the item, its first -/
  | opening (item : CacheItem)
  /-- at the send on the worker's load channel -/
  | sending (item : CacheItem)
  /-- the load channels yet to be closed -/
  | closing (rest : List ℕ)
  /-- has closed a channel, and awaits the worker's answer -/
  | waiting (i : ℕ) (rest : List ℕ)
  | returned

/-- `Load` under way; `opened` are the workers in `loadChMap`. -/
structure Loading where
  /-- what the Loader has yet to give -/
  incoming : List CacheItem
  stage : LoadStage := .receiving
  opened : List ℕ := []
  workers : List LoadWorker

/-- The load channels have no buffer: a send is also the receipt. -/
inductive LoadStep (getWorker : String → ℕ) : Loading → Loading → Prop
  -- the item's worker has no load channel yet, or has one already
  | first {s : Loading} {item : CacheItem} {rest : List CacheItem} : s.stage = .receiving →
      s.incoming = item :: rest → getWorker item.key ∉ s.opened →
      LoadStep getWorker s { s with incoming := rest, stage := .opening item }
  | next {s : Loading} {item : CacheItem} {rest : List CacheItem} : s.stage = .receiving →
      s.incoming = item :: rest → getWorker item.key ∈ s.opened →
      LoadStep getWorker s { s with incoming := rest, stage := .sending item }
  | open {s : Loading} {item : CacheItem} {w : LoadWorker} : s.stage = .opening item →
      s.workers[getWorker item.key]? = some w → w.stage = .idle →
      LoadStep getWorker s { s with
        stage := .sending item
        opened := s.opened ++ [getWorker item.key]
        workers := s.workers.set (getWorker item.key) { w with stage := .loading } }
  | send {s : Loading} {item : CacheItem} {w : LoadWorker} : s.stage = .sending item →
      s.workers[getWorker item.key]? = some w → w.stage = .loading →
      LoadStep getWorker s { s with
        stage := .receiving
        workers := s.workers.set (getWorker item.key) { w with stage := .adding item } }
  | add {s : Loading} {i : ℕ} {item : CacheItem} {w : LoadWorker} : s.workers[i]? = some w →
      w.stage = .adding item →
      LoadStep getWorker s { s with workers := s.workers.set i ⟨w.cache.add item, .loading⟩ }
  /-- the Loader's channel is closed; the map is read in any order -/
  | eof {s : Loading} {order : List ℕ} : s.stage = .receiving → s.incoming = [] →
      order.Perm s.opened → LoadStep getWorker s { s with stage := .closing order }
  -- one channel after another: closed, and the worker's answer awaited
  | close {s : Loading} {i : ℕ} {rest : List ℕ} : s.stage = .closing (i :: rest) →
      LoadStep getWorker s { s with stage := .waiting i rest }
  | respond {s : Loading} {i : ℕ} {rest : List ℕ} {w : LoadWorker} : s.stage = .waiting i rest →
      s.workers[i]? = some w → w.stage = .loading →
      LoadStep getWorker s { s with
        stage := .closing rest, workers := s.workers.set i { w with stage := .idle } }
  | finish {s : Loading} : s.stage = .closing [] →
      LoadStep getWorker s { s with stage := .returned }

/-- `Load` is called on a pool, with a Loader that has these items. -/
def Loading.start (p : WorkerPool) (items : List CacheItem) : Loading where
  incoming := items
  workers := p.workers.map (fun cache => { cache })

/-- The item a worker holds. -/
def HandleLoad.held : HandleLoad → List CacheItem
  | adding item => [item]
  | _ => []

/-- The steps a worker takes before it is at its `select` again. -/
def HandleLoad.rank : HandleLoad → ℕ
  | adding _ => 2
  | _ => 0

/-- The item `Load` holds. -/
def LoadStage.held : LoadStage → List CacheItem
  | opening item => [item]
  | sending item => [item]
  | _ => []

namespace Loading

/-- The workers in `handleLoad`. -/
def active (s : Loading) : List ℕ :=
  match s.stage with
  | .closing rest => rest
  | .waiting i rest => i :: rest
  | .returned => []
  | _ => s.opened

/-- The items still to be handed to a worker, of those that are its own. -/
def toCome (getWorker : String → ℕ) (s : Loading) (i : ℕ) : List CacheItem :=
  (s.stage.held ++ s.incoming).filter (fun item => getWorker item.key = i)

/-- What the stage of `Load` says. -/
def StageOk (getWorker : String → ℕ) (s : Loading) : Prop :=
  match s.stage with
  | .receiving => True
  | .opening item => getWorker item.key ∉ s.opened
  | .sending item => getWorker item.key ∈ s.opened
  | _ => s.incoming = []

/-- **What `Load` keeps**: of each worker's own items, those cached, being added and to come are the
    ones it should have; and the workers in `handleLoad` are those with an open channel. -/
structure Sound (getWorker : String → ℕ) (own : ℕ → List CacheItem) (n size : ℕ) (s : Loading) :
    Prop where
  length : s.workers.length = n
  /-- cached, being added, and to come -/
  conserved : ∀ (i : ℕ) (w : LoadWorker), s.workers[i]? = some w →
    (w.cache.items ++ w.stage.held ++ s.toCome getWorker i).Perm (own i)
  size_eq : ∀ (i : ℕ) (w : LoadWorker), s.workers[i]? = some w → w.cache.cacheSize = size
  idle : ∀ (i : ℕ) (w : LoadWorker), s.workers[i]? = some w → (w.stage = .idle ↔ i ∉ s.active)
  nodup : s.active.Nodup
  inRange : ∀ i ∈ s.active, i < n
  stage : s.StageOk getWorker

/-- The steps left. -/
def rank (s : Loading) : ℕ :=
  7 * s.incoming.length +
    (match s.stage with
      | .receiving => 2 * s.opened.length + 2
      | .opening _ => 2 * s.opened.length + 8
      | .sending _ => 2 * s.opened.length + 5
      | .closing rest => 2 * rest.length + 1
      | .waiting _ rest => 2 * rest.length + 2
      | .returned => 0) +
    (s.workers.map (fun w => w.stage.rank)).sum

section Steps
variable {getWorker : String → ℕ} {own : ℕ → List CacheItem} {n size : ℕ} {s t : Loading}

/-- A worker of the list with one replaced. -/
theorem get_set {l : List LoadWorker} {i j : ℕ} {w w' x : LoadWorker} (hi : l[i]? = some w)
    (hj : (l.set i w')[j]? = some x) : (j = i ∧ x = w') ∨ (j ≠ i ∧ l[j]? = some x) := by
  rw [List.getElem?_set] at hj
  -- the one replaced, or another
  by_cases hij : i = j
  · have hlt := (List.getElem?_eq_some_iff.mp hi).1
    subst hij
    rw [if_pos rfl, if_pos hlt] at hj
    exact .inl ⟨rfl, (Option.some.inj hj).symm⟩
  · rw [if_neg hij] at hj
    exact .inr ⟨Ne.symm hij, hj⟩

/-- What a worker's move does to the steps left. -/
theorem rank_set {l : List LoadWorker} {i a b : ℕ} {w : LoadWorker} (hw : l[i]? = some w)
    (w' : LoadWorker) (hbefore : w.stage.rank = a) (hafter : w'.stage.rank = b) :
    ((l.set i w').map (fun w => w.stage.rank)).sum + a =
      (l.map (fun w => w.stage.rank)).sum + b := by
  have hsum := sum_move hw (fun w => w.stage.rank) w'
  rw [← hbefore, ← hafter]
  exact hsum

/-- A worker moves: what it should have it still will, and it is in `handleLoad` if it has to be. -/
theorem Sound.move (h : s.Sound getWorker own n size) {i : ℕ} {w w' : LoadWorker}
    (hw : s.workers[i]? = some w) (hset : t.workers = s.workers.set i w')
    (hsize : w'.cache.cacheSize = w.cache.cacheSize)
    (hown : (w'.cache.items ++ w'.stage.held ++ t.toCome getWorker i).Perm
      (w.cache.items ++ w.stage.held ++ s.toCome getWorker i))
    (hothers : ∀ j, j ≠ i → t.toCome getWorker j = s.toCome getWorker j)
    (hidle : w'.stage = .idle ↔ i ∉ t.active)
    (hactive : ∀ j, j ≠ i → (j ∈ t.active ↔ j ∈ s.active)) (hnodup : t.active.Nodup)
    (hstage : t.StageOk getWorker) : t.Sound getWorker own n size := by
  have hlt : i < s.workers.length := (List.getElem?_eq_some_iff.mp hw).1
  -- the worker that moves, or another, which is as it was
  have hcases : ∀ (j : ℕ) (x : LoadWorker), t.workers[j]? = some x →
      (j = i ∧ x = w') ∨ (j ≠ i ∧ s.workers[j]? = some x) := by
    intro j x hx
    rw [hset] at hx
    exact get_set hw hx
  refine ⟨?_, ?_, ?_, ?_, hnodup, ?_, hstage⟩
  · rw [hset, List.length_set]
    exact h.length
  · intro j x hx
    rcases hcases j x hx with ⟨rfl, rfl⟩ | ⟨hne, hx⟩
    · exact hown.trans (h.conserved _ w hw)
    · rw [hothers j hne]
      exact h.conserved j x hx
  · intro j x hx
    rcases hcases j x hx with ⟨rfl, rfl⟩ | ⟨hne, hx⟩
    · rw [hsize]
      exact h.size_eq _ w hw
    · exact h.size_eq j x hx
  · intro j x hx
    rcases hcases j x hx with ⟨rfl, rfl⟩ | ⟨hne, hx⟩
    · exact hidle
    · rw [hactive j hne]
      exact h.idle j x hx
  · intro j hj
    by_cases hij : j = i
    · rw [hij, ← h.length]
      exact hlt
    · exact h.inRange j ((hactive j hij).mp hj)

/-- `Load` alone moves. -/
theorem Sound.main (h : s.Sound getWorker own n size) (hsame : t.workers = s.workers)
    (htoCome : ∀ i, t.toCome getWorker i = s.toCome getWorker i)
    (hactive : t.active.Perm s.active) (hstage : t.StageOk getWorker) :
    t.Sound getWorker own n size := by
  -- each field is read off the workers, what is to come or `active`, and these are the same
  refine ⟨hsame ▸ h.length, ?_, hsame ▸ h.size_eq, ?_, hactive.nodup_iff.mpr h.nodup, ?_, hstage⟩
  · intro i w hw
    rw [htoCome]
    exact h.conserved i w (hsame ▸ hw)
  · intro i w hw
    rw [hactive.mem_iff]
    exact h.idle i w (hsame ▸ hw)
  · intro i hi
    exact h.inRange i (hactive.mem_iff.mp hi)

/-- An item that is added to a cache which does not have its key, and has room. -/
theorem add_new {c : Cache} {item : CacheItem} (hnew : item.key ∉ c.items.map CacheItem.key)
    (hroom : c.items.length < c.cacheSize) : c.add item = { c with items := item :: c.items } := by
  have hpeek : c.peek item.key = none := by
    refine List.find?_eq_none.mpr (fun i hi heq => hnew ?_)
    exact List.mem_map.mpr ⟨i, hi, by simpa using heq⟩
  unfold Cache.add
  rw [hpeek]
  dsimp only
  rw [if_neg]
  simp only [List.length_cons]
  omega

/-- **Step.** An item is added to a cache that has no item of its key, since the worker's own items
    have different keys, and that has room, since they fit. -/
theorem Sound.step (hnodup : ∀ i, ((own i).map CacheItem.key).Nodup)
    (hfits : ∀ i, (own i).length ≤ size) (h : s.Sound getWorker own n size)
    (hstep : LoadStep getWorker s t) : t.Sound getWorker own n size ∧ t.rank < s.rank := by
  have hactive := h.nodup
  have hok := h.stage
  cases hstep with
  -- the item moves from the incoming ones to the one `Load` holds
  | first hstage hin hnew =>
    refine ⟨h.main rfl (fun i => ?_) ?_ hnew, ?_⟩
    · simp [toCome, hstage, hin, LoadStage.held]
    · simp [active, hstage]
    · simp only [rank, hstage, hin, List.length_cons]
      omega
  | next hstage hin hknown =>
    refine ⟨h.main rfl (fun i => ?_) ?_ hknown, ?_⟩
    · simp [toCome, hstage, hin, LoadStage.held]
    · simp [active, hstage]
    · simp only [rank, hstage, hin, List.length_cons]
      omega
  | «open» hstage hw hidle =>
    rename_i item w
    simp only [StageOk, hstage] at hok
    simp only [active, hstage] at hactive
    refine ⟨h.move hw rfl rfl ?_ ?_ ?_ ?_ ?_ ?_, ?_⟩
    · simp [toCome, hstage, hidle, LoadStage.held, HandleLoad.held]
    · intro j hne
      simp [toCome, hstage, LoadStage.held]
    · simp [active]
    · intro j hne
      simp [active, hstage, hne]
    · simp only [active]
      rw [List.nodup_append]
      refine ⟨hactive, List.nodup_singleton _, ?_⟩
      intro a ha b hb heq
      rw [List.mem_singleton.mp hb] at heq
      exact hok (heq ▸ ha)
    · simp [StageOk]
    · have hsum := rank_set hw { w with stage := .loading } (by rw [hidle]; rfl : w.stage.rank = 0)
        (rfl : _ = 0)
      simp only [rank, hstage, List.length_append, List.length_cons, List.length_nil]
      omega
  -- from `Load` to the worker
  | send hstage hw hloading =>
    rename_i item w
    refine ⟨h.move hw rfl rfl ?_ ?_ ?_ ?_ ?_ trivial, ?_⟩
    · simp [toCome, hstage, hloading, LoadStage.held, HandleLoad.held]
    · intro j hne
      simp [toCome, hstage, LoadStage.held, Ne.symm hne]
    · simp only [StageOk, hstage] at hok
      simp [active, hok]
    · intro j hne
      simp [active, hstage]
    · simpa [active, hstage] using hactive
    · have hsum := rank_set hw { w with stage := .adding item }
        (by rw [hloading]; rfl : w.stage.rank = 0)
        (rfl : _ = 2)
      simp only [rank, hstage]
      omega
  | add hw hadding =>
    rename_i i item w
    have hcons := h.conserved i w hw
    rw [hadding] at hcons
    -- the item is one of the worker's own, all of which have different keys, and fit
    have hkeys := (hcons.map CacheItem.key).nodup_iff.mpr (hnodup i)
    have hlength := hcons.length_eq
    have hfit := hfits i
    simp only [HandleLoad.held, List.map_append, List.map_cons, List.map_nil] at hkeys
    simp only [HandleLoad.held, List.length_append, List.length_cons, List.length_nil] at hlength
    have hnew : item.key ∉ w.cache.items.map CacheItem.key := by
      intro hmem
      have hfirst := (List.nodup_append.mp hkeys).1
      exact (List.nodup_append.mp hfirst).2.2 _ hmem _ (List.mem_singleton_self _) rfl
    have hadd := add_new hnew (by rw [h.size_eq i w hw]; omega)
    refine ⟨h.move hw rfl ?_ ?_ ?_ ?_ ?_ ?_ ?_, ?_⟩
    · rw [hadd]
    · rw [hadd, hadding]
      simp only [HandleLoad.held, List.append_nil]
      exact (List.perm_append_singleton item w.cache.items).symm.append_right _
    · intro j hne
      rfl
    · have hbusy : ¬ i ∉ s.active := by
        rw [← h.idle i w hw, hadding]
        simp
      simpa [active] using hbusy
    · intro j hne
      rfl
    · exact hactive
    · exact hok
    · have hsum := rank_set hw ⟨w.cache.add item, .loading⟩
        (by rw [hadding]; rfl : w.stage.rank = 2)
        (rfl : _ = 0)
      simp only [rank]
      omega
  -- from here `active` is what is left to close
  | eof hstage hin horder =>
    refine ⟨h.main rfl (fun i => ?_) ?_ hin, ?_⟩
    · simp [toCome, hstage, LoadStage.held]
    · simpa [active, hstage] using horder
    · simp only [rank, hstage, horder.length_eq]
      omega
  | close hstage =>
    simp only [StageOk, hstage] at hok
    refine ⟨h.main rfl (fun i => ?_) ?_ hok, ?_⟩
    · simp [toCome, hstage, LoadStage.held]
    · simp [active, hstage]
    · simp only [rank, hstage, List.length_cons]
      omega
  | respond hstage hw hloading =>
    rename_i i rest w
    simp only [StageOk, hstage] at hok
    simp only [active, hstage, List.nodup_cons] at hactive
    refine ⟨h.move hw rfl rfl ?_ ?_ ?_ ?_ hactive.2 hok, ?_⟩
    · simp [toCome, hstage, hloading, LoadStage.held, HandleLoad.held]
    · intro j hne
      simp [toCome, hstage, LoadStage.held]
    · simpa [active] using hactive.1
    · intro j hne
      simp [active, hstage, hne]
    · have hsum := rank_set hw { w with stage := .idle } (by rw [hloading]; rfl : w.stage.rank = 0)
        (rfl : _ = 0)
      simp only [rank, hstage]
      omega
  | finish hstage =>
    simp only [StageOk, hstage] at hok
    refine ⟨h.main rfl (fun i => ?_) ?_ hok, ?_⟩
    · simp [toCome, hstage, LoadStage.held]
    · simp [active, hstage]
    · simp only [rank, hstage]
      omega

/-- A worker in `handleLoad` is at its `select`, or is about to add an item. -/
theorem Sound.worker (h : s.Sound getWorker own n size) {i : ℕ} (hi : i ∈ s.active) :
    ∃ w, s.workers[i]? = some w ∧ (w.stage = .loading ∨ ∃ item, w.stage = .adding item) := by
  have hlt : i < s.workers.length := by
    rw [h.length]
    exact h.inRange i hi
  have hw := List.getElem?_eq_getElem hlt
  refine ⟨_, hw, ?_⟩
  -- not idle, because its channel is open
  have hidle := h.idle i _ hw
  cases hstage : s.workers[i].stage with
  | idle => exact absurd hi (hidle.mp hstage)
  | loading => exact .inl rfl
  | adding item => exact .inr ⟨item, rfl⟩

/-- **Nobody waits for ever**: unless `Load` has returned there is a step. -/
theorem Sound.goes_on (hrange : ∀ key, getWorker key < n) (h : s.Sound getWorker own n size) :
    s.stage = .returned ∨ ∃ t, LoadStep getWorker s t := by
  have hok := h.stage
  cases hstage : s.stage with
  | receiving =>
    right
    cases hin : s.incoming with
    | nil => exact ⟨_, .eof hstage hin (.refl _)⟩
    | cons item rest =>
      by_cases hknown : getWorker item.key ∈ s.opened
      · exact ⟨_, .next hstage hin hknown⟩
      · exact ⟨_, .first hstage hin hknown⟩
  | opening item =>
    right
    have hlt : getWorker item.key < s.workers.length := by
      rw [h.length]
      exact hrange _
    have hw := List.getElem?_eq_getElem hlt
    have hnew : getWorker item.key ∉ s.active := by
      simpa only [StageOk, active, hstage] using hok
    exact ⟨_, .open hstage hw ((h.idle _ _ hw).mpr hnew)⟩
  | sending item =>
    right
    have hopen : getWorker item.key ∈ s.active := by
      simpa only [StageOk, active, hstage] using hok
    -- the worker is ready to receive, or first adds the item it has
    obtain ⟨w, hw, hloading | ⟨item', hadding⟩⟩ := h.worker hopen
    · exact ⟨_, .send hstage hw hloading⟩
    · exact ⟨_, .add hw hadding⟩
  | closing rest =>
    right
    cases rest with
    | nil => exact ⟨_, .finish hstage⟩
    | cons i rest => exact ⟨_, .close hstage⟩
  | waiting i rest =>
    right
    have hopen : i ∈ s.active := by simp [active, hstage]
    obtain ⟨w, hw, hloading | ⟨item', hadding⟩⟩ := h.worker hopen
    · exact ⟨_, .respond hstage hw hloading⟩
    · exact ⟨_, .add hw hadding⟩
  | returned => exact .inl rfl

/-- When `Load` has returned, every worker has its own items and is idle. -/
theorem Sound.restored (h : s.Sound getWorker own n size) (hreturned : s.stage = .returned)
    {i : ℕ} {w : LoadWorker} (hw : s.workers[i]? = some w) :
    w.stage = .idle ∧ w.cache.items.Perm (own i) := by
  have hin : s.incoming = [] := by
    have hok := h.stage
    simpa only [StageOk, hreturned] using hok
  have hidle : w.stage = .idle := (h.idle i w hw).mpr (by simp [active, hreturned])
  have hcons := h.conserved i w hw
  simp only [hidle, HandleLoad.held, toCome, hreturned, LoadStage.held, hin, List.append_nil,
    List.filter_nil] at hcons
  exact ⟨hidle, hcons⟩

/-- `Load` starts with the items as they come, and with empty caches. -/
theorem sound_start {p : WorkerPool} {items : List CacheItem} (hlength : p.workers.length = n)
    (hempty : ∀ cache ∈ p.workers, cache.items = [] ∧ cache.cacheSize = size)
    (hown : ∀ i < n, (items.filter (fun item => getWorker item.key = i)).Perm (own i)) :
    (Loading.start p items).Sound getWorker own n size := by
  -- every worker is idle with an empty cache
  have hworker : ∀ (i : ℕ) (w : LoadWorker), (Loading.start p items).workers[i]? = some w →
      i < n ∧ w.cache.items = [] ∧ w.cache.cacheSize = size ∧ w.stage = .idle := by
    intro i w hw
    rw [Loading.start, List.getElem?_map, Option.map_eq_some_iff] at hw
    obtain ⟨cache, hcache, rfl⟩ := hw
    obtain ⟨hitems, hsize⟩ := hempty cache (List.mem_of_getElem? hcache)
    exact ⟨hlength ▸ (List.getElem?_eq_some_iff.mp hcache).1, hitems, hsize, rfl⟩
  refine ⟨?_, ?_, ?_, ?_, List.nodup_nil, ?_, trivial⟩
  · simp [Loading.start, hlength]
  · intro i w hw
    obtain ⟨hlt, hitems, -, hstage⟩ := hworker i w hw
    rw [hitems, hstage]
    exact hown i hlt
  · intro i w hw
    exact (hworker i w hw).2.2.1
  · intro i w hw
    obtain ⟨-, -, -, hstage⟩ := hworker i w hw
    simp [hstage, active, Loading.start]
  · intro i hi
    cases hi

end Steps

end Loading

/-! ## There and back

The two together.  A pool that has served requests holds, in each worker, different keys of its own,
no more than fit; so a fresh pool of the same shape takes all of them back, each where it was. -/

/-- A cache answers for a key whatever order its items are in. -/
theorem Cache.peek_perm {c d : Cache} (hperm : c.items.Perm d.items)
    (hnodup : (d.items.map CacheItem.key).Nodup) (key : String) : c.peek key = d.peek key := by
  refine List.find?_eq_find?_of_perm hperm ?_
  rintro x ⟨hx, hxkey⟩ y ⟨hy, hykey⟩
  have hxk : x.key = key := by simpa using hxkey
  have hyk : y.key = key := by simpa using hykey
  exact List.inj_on_of_nodup_map hnodup (hperm.mem_iff.mp hx) (hperm.mem_iff.mp hy)
    (hxk.trans hyk.symm)

/-- **The caches of a pool restored**: `Load` is back, and every worker is at its requests again
    with the items it had, which are of the keys `getWorker` gives it. -/
structure Restored (p : WorkerPool) (getWorker : String → ℕ) (l : Loading) : Prop where
  returned : l.stage = .returned
  length : l.workers.length = p.workers.length
  caches : ∀ (i : ℕ) (before : Cache) (w : LoadWorker), p.workers[i]? = some before →
    l.workers[i]? = some w →
    w.stage = .idle ∧ w.cache.cacheSize = before.cacheSize ∧ w.cache.items.Perm before.items ∧
      (∀ key, w.cache.peek key = before.peek key) ∧
      ∀ item ∈ w.cache.items, getWorker item.key = i

/-- **Every run of `Load` ends**, with the caches as they were. -/
theorem load_restores {hasher : String → Fin (2 ^ 63)} {n cacheSize : ℕ} {p : WorkerPool}
    (hp : p.Kept hasher n (workerCacheSize n cacheSize)) {store : Option Store}
    (hrange : ∀ key, (new hasher n cacheSize store).getWorker key < n) {order : List CacheItem}
    (horder : order.Perm (p.workers.flatMap Cache.items)) :
    Inevitable (LoadStep (new hasher n cacheSize store).getWorker)
      (Restored p (new hasher n cacheSize store).getWorker)
      (Loading.start (new hasher n cacheSize store) order) := by
  set fresh := new hasher n cacheSize store with hfresh
  -- a worker's own items are those of the worker of the same index
  set own : ℕ → List CacheItem := fun i => ((p.workers[i]?).map Cache.items).getD [] with hown
  have hownAt : ∀ (i : ℕ) (c : Cache), p.workers[i]? = some c → own i = c.items := by
    intro i c hc
    simp [hown, hc]
  have hsome : ∀ i < n, ∃ c, p.workers[i]? = some c := by
    intro i hi
    rw [← hp.length] at hi
    exact ⟨_, List.getElem?_eq_getElem hi⟩
  have hnodup : ∀ i, ((own i).map CacheItem.key).Nodup := by
    intro i
    cases hc : p.workers[i]? with
    | none => simp [hown, hc]
    | some c =>
      rw [hownAt i c hc]
      exact (hp.workers i c hc).nodup
  have hfits : ∀ i, (own i).length ≤ workerCacheSize n cacheSize := by
    intro i
    cases hc : p.workers[i]? with
    | none => simp [hown, hc]
    | some c =>
      rw [hownAt i c hc]
      exact (hp.workers i c hc).bounded
  -- of all the items saved, those of worker `i`'s keys are those worker `i` had
  have hparts : ∀ i < n, (order.filter (fun item => fresh.getWorker item.key = i)).Perm
      (own i) := by
    intro i hi
    obtain ⟨c, hc⟩ := hsome i hi
    have hindex := filter_flatMap Cache.items (fun item => fresh.getWorker item.key) 0 i
      (fun j d hd item hitem => by
        rw [Nat.zero_add]
        exact (hp.workers j d hd).own item hitem) hc
    rw [Nat.zero_add] at hindex
    rw [hownAt i c hc, ← hindex]
    exact horder.filter _
  -- the fresh pool has empty caches of the same size
  have hempty : ∀ cache ∈ fresh.workers,
      cache.items = [] ∧ cache.cacheSize = workerCacheSize n cacheSize := by
    intro cache hcache
    rw [List.eq_of_mem_replicate hcache]
    exact ⟨rfl, rfl⟩
  refine inevitable_rule
    (P := Loading.Sound fresh.getWorker own n (workerCacheSize n cacheSize)) Loading.rank
    (fun s t h hstep => h.step hnodup hfits hstep) (fun s h => ?_)
    (Loading.sound_start List.length_replicate hempty hparts)
  -- when it is over, each worker's items are the own ones, in some order
  refine (h.goes_on hrange).imp_left
    (fun hreturned => ⟨hreturned, h.length.trans hp.length.symm, ?_⟩)
  intro i before w hbefore hw
  obtain ⟨hidle, hperm⟩ := h.restored hreturned hw
  have hkept := hp.workers i before hbefore
  rw [hownAt i before hbefore] at hperm
  refine ⟨hidle, (h.size_eq i w hw).trans hkept.size_eq.symm, hperm,
    Cache.peek_perm hperm hkept.nodup, ?_⟩
  intro item hitem
  exact hkept.own item (hperm.mem_iff.mp hitem)

/-- **Save and load round trip.** Whatever requests a pool has served, `Store` comes to its end in
    every interleaving, with each cached item saved once; and `Load`, on a fresh pool of as many
    workers and the same cache size, comes to its end in every interleaving with the caches as they
    were.  The Loader may give the saved items back in any order. -/
theorem save_load_round_trip (conf : Config) (host : Host) (hasher : String → Fin (2 ^ 63))
    (n cacheSize : ℕ) (store store' : Option Store)
    (hrange : ∀ key, (new hasher n cacheSize store).getWorker key < n)
    (hkeyed : (new hasher n cacheSize store).Keyed) (ops : List WorkerPool.Op) (p : WorkerPool)
    (hp : Machine.exec (WorkerPool.step conf host) (some (new hasher n cacheSize store)) ops =
      some p) :
    Inevitable StoreStep
      (fun s => s.returned = true ∧ s.saved.Perm (p.workers.flatMap Cache.items) ∧
        ∀ order, order.Perm s.saved →
          Inevitable (LoadStep (new hasher n cacheSize store').getWorker)
            (Restored p (new hasher n cacheSize store').getWorker)
            (Loading.start (new hasher n cacheSize store') order))
      (Storing.start p) := by
  have hkept := WorkerPool.kept_exec conf host hasher n cacheSize hkeyed ops hp
  refine (store_saves p).imp (fun s hs => ⟨hs.1, hs.2, fun order horder => ?_⟩)
  exact load_restores hkept hrange (horder.trans hs.2)

/-- Three keys on two workers. -/
theorem save_load_round_trip_threeAccounts :
    ∃ p, Machine.exec (WorkerPool.step ⟨300000000000⟩ .amd64) (some twoWorkers)
        (threeAccounts.map .getRateLimit) = some p ∧
      p.workers.map (fun c => c.items.map CacheItem.key) =
        [["requests_a", "requests_b"], ["requests_cc"]] ∧
      Inevitable StoreStep
        (fun s => s.returned = true ∧ s.saved.Perm (p.workers.flatMap Cache.items) ∧
          ∀ order, order.Perm s.saved →
            Inevitable (LoadStep twoWorkers.getWorker) (Restored p twoWorkers.getWorker)
              (Loading.start twoWorkers order))
        (Storing.start p) := by
  have hrun : (Machine.exec (WorkerPool.step ⟨300000000000⟩ .amd64) (some twoWorkers)
      (threeAccounts.map .getRateLimit)).map
        (fun p => p.workers.map (fun c => c.items.map CacheItem.key)) =
      some [["requests_a", "requests_b"], ["requests_cc"]] := by decide +kernel
  obtain ⟨p, hp, hkeys⟩ := Option.map_eq_some_iff.mp hrun
  have hrange : ∀ key, twoWorkers.getWorker key < 2 :=
    fun key => Nat.div_lt_of_lt_mul (twoWorkers.hasher key).isLt
  exact ⟨p, hp, hkeys,
    save_load_round_trip ⟨300000000000⟩ .amd64 twoWorkers.hasher 2 10 none none hrange
      (by intro st hst; cases hst) _ p hp⟩

end Gubernator
