/-
  Forwarding to a peer in batches (`peer_client.go`, `getPeerRateLimitsBatch`,
  `getPeerRateLimitSingle`, `awaitResponse`, `runBatch`, `sendBatch`, `Shutdown`).

  A client of one peer is shared by any number of callers.  Each makes a request with a response
  channel of its own, of capacity one, counts itself in `wg`, and puts the request into the queue
  channel or starts a `sendBatch` for it alone.  `runBatch` collects what comes out of the channel
  and starts a `sendBatch` for it when the batch is full, when the timer ticks and when the channel
  is closed.  `sendBatch` leaves out the requests whose callers have gone, makes ONE call for the
  rest, and puts a value on the response channel of each.

  Every `step` is one thing one of these goroutines does, so a run is any interleaving.  A step that
  cannot be taken changes nothing: a send on a full channel waits, `wgMutex.Lock` waits while
  `Shutdown` holds the mutex.  Taking the mutex to count oneself, and returning with the deferred
  `wg.Done`, are one step each.  A request is named by the index of its caller.  Metrics, traces,
  recorded errors and the other users of `wg` are left out; the timer may tick at any time.
-/
import Gubernator.Lib.Machine
import Gubernator.Types

namespace Gubernator

/-! ## Callers -/

/-- What goes over a response channel. -/
abbrev Response := Except String RateLimitResp

/-- `getPeerRateLimitsBatch` or `getPeerRateLimitSingle`. -/
inductive SendMode where
  | batch
  | single
  deriving DecidableEq, Repr

inductive CallerStage where
  | arrived
  /-- counted in `wg` -/
  | counted
  /-- has seen `queueClosed` unset -/
  | admitted
  /-- has seen its context alive -/
  | sending
  /-- in `awaitResponse` -/
  | waiting
  | returned
  deriving DecidableEq, Repr

/-- A caller with its request's context and response channel. -/
structure Caller where
  mode : SendMode
  stage : CallerStage := .arrived
  ctxErr : Option String := none
  resp : Option Response := none
  deriving DecidableEq

/-- Between `wg.Add` and `wg.Done`. -/
def Caller.inside (c : Caller) : Bool := c.stage != .arrived && c.stage != .returned

/-- The request is out of the caller's hands. -/
def Caller.handedOver (c : Caller) : Prop := c.stage = .waiting ∨ c.stage = .returned

/-! ## The client -/

/-- How far `Shutdown` has come. -/
inductive ShutdownStage where
  | running
  /-- `isShutdown` is set -/
  | asked
  /-- holds `wgMutex` and is in `wg.Wait` -/
  | locked
  /-- has set `queueClosed`, and still holds `wgMutex` -/
  | flagged
  /-- has closed the queue and let go of `wgMutex` -/
  | closed
  deriving DecidableEq, Repr

/-- What decides whether a caller may send. -/
structure Door where
  wg : ℕ := 0
  shutdown : ShutdownStage := .running
  queueClosed : Bool := false
  /-- the queue channel is closed -/
  closed : Bool := false
  /-- somebody has sent on the closed channel -/
  panicked : Bool := false
  deriving DecidableEq, Repr

/-- `wgMutex` is held by `Shutdown`. -/
def Door.held (d : Door) : Bool := d.shutdown == .locked || d.shutdown == .flagged

/-- A `sendBatch`: over its queue, with the live requests so far; its call in flight; the values
    it has yet to send. -/
inductive Batch where
  | examining (queue live : List ℕ)
  | calling (live : List ℕ)
  | answering (rest : List (ℕ × Response))
  deriving DecidableEq

/-- What a call to the peer comes to. -/
abbrev Outcome := Except String (List RateLimitResp)

/-- Where the requests are.  `collected` is the local queue of `runBatch`, `none` once it has
    returned.  The last four record what has happened: which requests were accepted, which values
    sent, which calls made and what was replied. -/
structure Pipe where
  queue : List ℕ := []
  collected : Option (List ℕ) := some []
  batches : List Batch := []
  accepted : List ℕ := []
  sent : List (ℕ × Response) := []
  calls : List (List ℕ) := []
  replies : List (List ℕ × Outcome) := []
  deriving DecidableEq

structure PeerClient where
  callers : List Caller := []
  door : Door := {}
  pipe : Pipe := {}
  deriving DecidableEq

/-- What can happen: to the caller at an index, to `runBatch`, to the `sendBatch` at an index, to
    `Shutdown`. -/
inductive ClientEvent where
  | arrive (mode : SendMode)
  | endContext (i : ℕ) (err : String)
  | enter (i : ℕ)
  | checkClosed (i : ℕ)
  | checkContext (i : ℕ)
  | send (i : ℕ)
  | abandon (i : ℕ)
  | receive (i : ℕ)
  | giveUp (i : ℕ)
  | take
  | tick
  | examine (b : ℕ)
  | call (b : ℕ)
  | reply (b : ℕ) (outcome : Outcome)
  | answer (b : ℕ)
  | shutdown
  | lock
  | flag
  | close
  deriving DecidableEq

/-! ## What the goroutines do -/

/-- The capacity of the queue channel. -/
def queueCapacity : ℕ := 1000

namespace PeerClient

/-- The caller takes a step. -/
def setCaller (s : PeerClient) (i : ℕ) (c : Caller) : PeerClient :=
  { s with callers := s.callers.set i c }

/-- The caller returns, and its deferred `wg.Done` runs. -/
def leave (s : PeerClient) (i : ℕ) (c : Caller) (result : Response) :
    Option (ℕ × Response) × PeerClient :=
  (some (i, result),
    { s with callers := s.callers.set i { c with stage := .returned }
             door := { s.door with wg := s.door.wg - 1 } })

/-- `wgMutex.Lock`, `wg.Add(1)`, `wgMutex.Unlock` -/
def enter (s : PeerClient) (i : ℕ) (c : Caller) : Option (ℕ × Response) × PeerClient :=
  if c.stage = .arrived ∧ s.door.held = false then
    (none, { s.setCaller i { c with stage := .counted } with
      door := { s.door with wg := s.door.wg + 1 } })
  else (none, s)

def checkClosed (s : PeerClient) (i : ℕ) (c : Caller) : Option (ℕ × Response) × PeerClient :=
  if c.stage = .counted then
    if s.door.queueClosed then
      s.leave i c
        (.error "rpc error: code = Canceled desc = grpc: the client connection is closing")
    else (none, s.setCaller i { c with stage := .admitted })
  else (none, s)

def checkContext (s : PeerClient) (i : ℕ) (c : Caller) : Option (ℕ × Response) × PeerClient :=
  if c.stage = .admitted then
    match c.ctxErr with
    | some e =>
      let text := match c.mode with
        | .batch => "Context error while enqueuing request"
        | .single => "Context error before sending request"
      s.leave i c (.error (text ++ ": " ++ e))
    | none => (none, s.setCaller i { c with stage := .sending })
  else (none, s)

/-- The request goes into the queue channel, if there is room, or to a `sendBatch` of its own. -/
def send (s : PeerClient) (i : ℕ) (c : Caller) : Option (ℕ × Response) × PeerClient :=
  if c.stage = .sending then
    match c.mode with
    | .batch =>
      if s.door.closed then (none, { s with door := { s.door with panicked := true } })
      else if s.pipe.queue.length < queueCapacity then
        (none, { s.setCaller i { c with stage := .waiting } with
          pipe := { s.pipe with
            queue := s.pipe.queue ++ [i], accepted := s.pipe.accepted ++ [i] } })
      else (none, s)
    | .single =>
      (none, { s.setCaller i { c with stage := .waiting } with
        pipe := { s.pipe with
          batches := s.pipe.batches ++ [.examining [i] []], accepted := s.pipe.accepted ++ [i] } })
  else (none, s)

/-- The other branch of the `select` around the send: the context has ended. -/
def abandon (s : PeerClient) (i : ℕ) (c : Caller) : Option (ℕ × Response) × PeerClient :=
  match c.stage, c.mode, c.ctxErr with
  | .sending, .batch, some e =>
    s.leave i c (.error ("Context error while enqueuing request: " ++ e))
  | _, _, _ => (none, s)

/-- `awaitResponse` reads the response channel. -/
def receive (s : PeerClient) (i : ℕ) (c : Caller) : Option (ℕ × Response) × PeerClient :=
  match c.stage, c.resp with
  | .waiting, some (.error e) => s.leave i { c with resp := none } (.error ("Request error: " ++ e))
  | .waiting, some (.ok rl) => s.leave i { c with resp := none } (.ok rl)
  | _, _ => (none, s)

/-- `awaitResponse` sees the context end. -/
def giveUp (s : PeerClient) (i : ℕ) (c : Caller) : Option (ℕ × Response) × PeerClient :=
  match c.stage, c.ctxErr with
  | .waiting, some e =>
    s.leave i c (.error ("Context error while waiting for response: " ++ e))
  | _, _ => (none, s)

end PeerClient

namespace Pipe

/-- `runBatch` receives from the queue channel.  Closed and empty, it sends the rest and returns. -/
def take (batchLimit : ℕ) (closed : Bool) (p : Pipe) : Pipe :=
  match p.collected, p.queue with
  | none, _ => p
  | some collected, r :: rest =>
    let collected := collected ++ [r]
    if batchLimit ≤ collected.length then
      { p with queue := rest, collected := some []
               batches := p.batches ++ [.examining collected []] }
    else { p with queue := rest, collected := some collected }
  | some collected, [] =>
    if closed then
      { p with
        collected := none
        batches := if collected = [] then p.batches else p.batches ++ [.examining collected []] }
    else p

/-- The timer of `runBatch` ticks. -/
def tick (p : Pipe) : Pipe :=
  match p.collected with
  | none => p
  | some [] => p
  | some collected =>
    { p with collected := some [], batches := p.batches ++ [.examining collected []] }

/-- The requests of a batch, once its call has come back, with the values they get. -/
def answersOf (live : List ℕ) : Outcome → List (ℕ × Response)
  | .error e => live.map (fun r => (r, .error ("Error in client.GetPeerRateLimits: " ++ e)))
  | .ok rateLimits =>
    if rateLimits.length ≠ live.length then
      live.map (fun r => (r, .error "server responded with incorrect rate limit list size"))
    else live.zip (rateLimits.map .ok)

end Pipe

namespace PeerClient

/-- A value is put on the response channel of a request, if there is room. -/
def respond (s : PeerClient) (r : ℕ) (v : Response) (b : ℕ) (next : Batch) : PeerClient :=
  match s.callers[r]? with
  | some c =>
    if c.resp = none then
      { s.setCaller r { c with resp := some v } with
        pipe := { s.pipe with
          batches := s.pipe.batches.set b next, sent := s.pipe.sent ++ [(r, v)] } }
    else s
  | none => s

/-- `sendBatch` looks at the next request of its queue. -/
def examine (s : PeerClient) (b : ℕ) : PeerClient :=
  match s.pipe.batches[b]? with
  | some (.examining (r :: rest) live) =>
    match (s.callers[r]?).bind Caller.ctxErr with
    | some e => s.respond r (.error ("Context error before sending batch: " ++ e)) b
        (.examining rest live)
    | none => { s with pipe := { s.pipe with
        batches := s.pipe.batches.set b (.examining rest (live ++ [r])) } }
  | _ => s

/-- The call to the peer, if a request is left to make it for. -/
def call (s : PeerClient) (b : ℕ) : PeerClient :=
  match s.pipe.batches[b]? with
  | some (.examining [] []) =>
    { s with pipe := { s.pipe with batches := s.pipe.batches.set b (.answering []) } }
  | some (.examining [] live) =>
    { s with pipe := { s.pipe with
        batches := s.pipe.batches.set b (.calling live), calls := s.pipe.calls ++ [live] } }
  | _ => s

/-- The call comes back. -/
def reply (s : PeerClient) (b : ℕ) (outcome : Outcome) : PeerClient :=
  match s.pipe.batches[b]? with
  | some (.calling live) =>
    { s with pipe := { s.pipe with
        batches := s.pipe.batches.set b (.answering (Pipe.answersOf live outcome))
        replies := s.pipe.replies ++ [(live, outcome)] } }
  | _ => s

/-- `sendBatch` sends its next value. -/
def answer (s : PeerClient) (b : ℕ) : PeerClient :=
  match s.pipe.batches[b]? with
  | some (.answering ((r, v) :: rest)) => s.respond r v b (.answering rest)
  | _ => s

/-- The steps of `Shutdown`. -/
def shutdown (s : PeerClient) : PeerClient :=
  if s.door.shutdown = .running then { s with door := { s.door with shutdown := .asked } } else s

def lock (s : PeerClient) : PeerClient :=
  if s.door.shutdown = .asked then { s with door := { s.door with shutdown := .locked } } else s

def flag (s : PeerClient) : PeerClient :=
  if s.door.shutdown = .locked ∧ s.door.wg = 0 then
    { s with door := { s.door with shutdown := .flagged, queueClosed := true } }
  else s

def close (s : PeerClient) : PeerClient :=
  if s.door.shutdown = .flagged then
    { s with door := { s.door with shutdown := .closed, closed := true } }
  else s

/-- The caller at an index does something. -/
def atCaller (s : PeerClient) (i : ℕ)
    (f : PeerClient → ℕ → Caller → Option (ℕ × Response) × PeerClient) :
    Option (ℕ × Response) × PeerClient :=
  match s.callers[i]? with
  | some c => f s i c
  | none => (none, s)

/-- **One step**, with what a caller that returns is given. -/
def step (batchLimit : ℕ) (s : PeerClient) : ClientEvent → Option (ℕ × Response) × PeerClient
  | .arrive mode => (none, { s with callers := s.callers ++ [{ mode }] })
  | .endContext i err =>
    s.atCaller i (fun s i c => (none, s.setCaller i { c with ctxErr := c.ctxErr.or (some err) }))
  | .enter i => s.atCaller i enter
  | .checkClosed i => s.atCaller i checkClosed
  | .checkContext i => s.atCaller i checkContext
  | .send i => s.atCaller i send
  | .abandon i => s.atCaller i abandon
  | .receive i => s.atCaller i receive
  | .giveUp i => s.atCaller i giveUp
  | .take => (none, { s with pipe := s.pipe.take batchLimit s.door.closed })
  | .tick => (none, { s with pipe := s.pipe.tick })
  | .examine b => (none, s.examine b)
  | .call b => (none, s.call b)
  | .reply b outcome => (none, s.reply b outcome)
  | .answer b => (none, s.answer b)
  | .shutdown => (none, s.shutdown)
  | .lock => (none, s.lock)
  | .flag => (none, s.flag)
  | .close => (none, s.close)

end PeerClient

end Gubernator
