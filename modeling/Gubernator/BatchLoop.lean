/-
  The one-shot ticker and the loops that batch by it (`interval.go`, `Interval`; `global.go`,
  `runAsyncHits`, `runBroadcasts`, `sendHits`; `peer_client.go`, `runBatch`).

  An `Interval` is a goroutine with two channels of capacity one: a value in `in` makes it sleep and
  then put a value on `C`.  A loop collects items from a queue, sends what it has when there is
  enough of it or when `C` ticks, calls `Next` when it holds its first item, and calls `Stop` when
  it has to stop.  The three loops differ in what they collect into, in the test for enough, in who
  sends and in what becomes of the rest: `BatchLoop` holds these, and the step is shared.

  Every step is one thing one of the two goroutines does, so a run is any interleaving.  A step that
  cannot be taken changes nothing: a send on a full channel waits.  An item may arrive, and the stop
  signal be taken, whenever the loop is in its `select`; how long a sleep or a send lasts is how
  many steps of the others come before its end.  `syncutil.WaitGroup.Stop` closes `done` and waits
  until the callback of `Until` has returned false.  Metrics and log lines are left out.
-/
import Gubernator.Global
import Gubernator.Lib.Machine

namespace Gubernator

/-! ## The ticker -/

/-- Where the timer goroutine is. -/
inductive TimerStage where
  /-- in the `select` on `in` and `done` -/
  | selecting
  | sleeping
  /-- at the send on `C` -/
  | sending
  | returned
  deriving DecidableEq, Repr

/-- `Interval`: whether there is a value in `in` and in `C`, and whether `Stop` has closed
    `done`. -/
structure Interval where
  inCh : Bool := false
  C : Bool := false
  timer : TimerStage := .selecting
  done : Bool := false
  deriving DecidableEq, Repr

inductive TimerEvent where
  /-- the `select` takes the value of `in` -/
  | start
  /-- the sleep is over -/
  | elapse
  | send
  /-- the `select` takes `done` -/
  | quit
  deriving DecidableEq, Repr

namespace Interval

/-- A send on `in` that does not wait for room. -/
def next (i : Interval) : Interval := { i with inCh := true }

/-- A step of the timer goroutine. -/
def step (i : Interval) : TimerEvent → Interval
  | .start =>
    if i.timer = .selecting ∧ i.inCh = true then { i with timer := .sleeping, inCh := false } else i
  | .elapse => if i.timer = .sleeping then { i with timer := .sending } else i
  | .send =>
    if i.timer = .sending ∧ i.C = false then { i with timer := .selecting, C := true } else i
  | .quit => if i.timer = .selecting ∧ i.done = true then { i with timer := .returned } else i

end Interval

/-! ## The loops -/

/-- What tells the loops apart.  An item is one more entry or goes into one that is there. -/
structure BatchLoop (α : Type) where
  /-- an item into the local queue or map -/
  collect : List α → α → List α
  /-- enough to send, by the number of entries -/
  reached : ℕ → Bool
  /-- a batch is sent by the loop itself, and not by a goroutine of its own -/
  waits : Bool
  /-- when the loop has to stop, it first sends what it has -/
  sendsRest : Bool
  length_collect : ∀ items item, (collect items item).length = items.length + 1 ∨
    (collect items item).length = items.length ∧ items ≠ []

/-- Where a loop is. -/
inductive LoopStage where
  | selecting
  /-- sends a batch -/
  | sending
  /-- sends the rest, and stops then -/
  | closing
  /-- inside `Interval.Stop` -/
  | stopping
  | returned
  deriving DecidableEq, Repr

/-- A loop under way; `sent` are the batches it has sent or is sending, oldest first. -/
structure LoopState (α : Type) where
  interval : Interval := {}
  stage : LoopStage := .selecting
  collected : List α := []
  sent : List (List α) := []
  deriving DecidableEq, Repr

inductive LoopEvent (α : Type) where
  /-- the `select` takes an item from the queue -/
  | receive (item : α)
  /-- the `select` takes the value of `C` -/
  | tick
  /-- a send of the loop itself is over -/
  | finish
  /-- the `select` takes `done`, or finds the queue closed -/
  | stop
  /-- `Interval.Stop` returns -/
  | stopped
  | timer (e : TimerEvent)
  deriving DecidableEq, Repr

namespace BatchLoop

variable {α : Type} (loop : BatchLoop α)

/-- What is collected is sent: by the loop, or by a goroutine while the loop goes on without it. -/
def flush (s : LoopState α) : LoopState α :=
  if loop.waits then { s with stage := .sending, sent := s.sent ++ [s.collected] }
  else { s with collected := [], sent := s.sent ++ [s.collected] }

/-- An item arrives. -/
def receive (s : LoopState α) (item : α) : LoopState α :=
  if s.stage = .selecting then
    let collected := loop.collect s.collected item
    if loop.reached collected.length then loop.flush { s with collected }
    -- the first item since the last send
    else if collected.length = 1 then { s with collected, interval := s.interval.next }
    else { s with collected }
  else s

def tick (s : LoopState α) : LoopState α :=
  if s.stage = .selecting ∧ s.interval.C = true then
    let s₁ := { s with interval := { s.interval with C := false } }
    if s.collected.length ≠ 0 then loop.flush s₁ else s₁
  else s

/-- `Interval.Stop`: the signal, and then the wait. -/
def stopInterval (s : LoopState α) : LoopState α :=
  { s with stage := .stopping, interval := { s.interval with done := true } }

def finish (s : LoopState α) : LoopState α :=
  match s.stage with
  | .sending => { s with stage := .selecting, collected := [] }
  | .closing => stopInterval s
  | _ => s

def stop (s : LoopState α) : LoopState α :=
  if s.stage = .selecting then
    if loop.sendsRest = true ∧ 0 < s.collected.length then
      { s with stage := .closing, sent := s.sent ++ [s.collected] }
    else stopInterval s
  else s

def stopped (s : LoopState α) : LoopState α :=
  if s.stage = .stopping ∧ s.interval.timer = .returned then { s with stage := .returned } else s

/-- **One step.**  There is nothing to answer. -/
def step (s : LoopState α) : LoopEvent α → Unit × LoopState α
  | .receive item => ((), loop.receive s item)
  | .tick => ((), loop.tick s)
  | .finish => ((), finish s)
  | .stop => ((), loop.stop s)
  | .stopped => ((), stopped s)
  | .timer e => ((), { s with interval := s.interval.step e })

/-- The state a run of a new loop ends in. -/
def after (run : List (LoopEvent α)) : LoopState α := Machine.exec loop.step {} run

end BatchLoop

/-! ## The three of them -/

/-- A map keyed by `HashKey`: a request into the entry of its key, or as a new one. -/
def upsert (merge : RateLimitReq → RateLimitReq → RateLimitReq) (entries : List RateLimitReq)
    (r : RateLimitReq) : List RateLimitReq :=
  if entries.any (fun h => h.hashKey == r.hashKey) then
    entries.map (fun h => if h.hashKey = r.hashKey then merge h r else h)
  else entries ++ [r]

theorem length_upsert (merge : RateLimitReq → RateLimitReq → RateLimitReq)
    (entries : List RateLimitReq) (r : RateLimitReq) :
    (upsert merge entries r).length = entries.length + 1 ∨
      (upsert merge entries r).length = entries.length ∧ entries ≠ [] := by
  unfold upsert
  split
  · rename_i hany
    refine .inr ⟨List.length_map _, ?_⟩
    rintro rfl
    cases hany
  · exact .inl (by simp)

/-- Hits on one key are added up. -/
def runAsyncHits (globalBatchLimit : ℤ) : BatchLoop RateLimitReq where
  collect := upsert (fun h r => aggregateHit (some h) r)
  reached n := n == globalBatchLimit
  waits := true
  sendsRest := false
  length_collect := length_upsert _

/-- The last update of a key counts. -/
def runBroadcasts (globalBatchLimit : ℤ) : BatchLoop RateLimitReq where
  collect := upsert (fun _ update => update)
  reached n := decide (globalBatchLimit ≤ n)
  waits := true
  sendsRest := false
  length_collect := length_upsert _

/-- A queue, in which every request has a place of its own. -/
def runBatch (α : Type) (batchLimit : ℤ) : BatchLoop α where
  collect queue r := queue ++ [r]
  reached n := decide (batchLimit ≤ n)
  waits := false
  sendsRest := true
  length_collect queue r := .inl (by simp)

/-- A request is assigned to its owner.  A key without an owner is left out. -/
def assignHit (getPeer : String → Except String String)
    (peerRequests : List (String × List RateLimitReq)) (r : RateLimitReq) :
    List (String × List RateLimitReq) :=
  match getPeer r.hashKey with
  | .error _ => peerRequests
  | .ok address =>
    if peerRequests.any (fun p => p.1 == address) then
      peerRequests.map (fun p => if p.1 = address then (p.1, p.2 ++ [r]) else p)
    else peerRequests ++ [(address, [r])]

/-- The calls `sendHits` makes: the hits by the address of their owner. -/
def sendHits (getPeer : String → Except String String) (hits : List RateLimitReq) :
    List (String × List RateLimitReq) :=
  hits.foldl (assignHit getPeer) []

end Gubernator
