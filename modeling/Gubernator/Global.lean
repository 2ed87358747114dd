/-
  GLOBAL rate limits (`global.go`; `gubernator.go`, `GetRateLimits`, `getGlobalRateLimit`,
  `UpdatePeerGlobals`, `GetPeerRateLimits`), for one key in a cluster whose ring does not change.

  A peer that does not own the key answers from its own cache and queues the hits.  Its
  `runAsyncHits` loop aggregates what is queued and sends it to the owner; the owner counts it and
  queues an update; the owner's `runBroadcasts` loop reads the bucket and sends its status to all
  other peers, which overwrite their cached item with it.

  The cluster is a state of all peers and a `step` for each thing one of them can do.  The two
  maps are keyed by `HashKey`, so for one key each holds at most one request.  They are sent when
  a timer fires or when enough keys are in them; the other keys are not followed, so a send may
  come at any time.  A handler that has its answer and has yet to put it on a channel is a state of
  its own (`answered`, `counted`): the channel may be full.  A `GetPeerRateLimits` call handles
  its requests concurrently, so they arrive one by one, in any order; `UpdatePeerGlobals` calls
  to one peer arrive in the order sent.  Lost calls, `ForceGlobal` and metadata are left out.
-/
import Gubernator.Instance
import Gubernator.Lib.Int64

namespace Gubernator

/-! ## Handlers -/

/-- `QueueHit` and `QueueUpdate` pass on a request only if it carries hits. -/
def queueable (rs : List RateLimitReq) : List RateLimitReq := rs.filter (fun r => r.hits != 0)

/-- The default of `created_at`. -/
def RateLimitReq.stamped (r : RateLimitReq) (now : ℤ) : RateLimitReq :=
  if r.createdAt = 0 then { r with createdAt := epochMillis now } else r

/-- The answer to a client, the peer's shard afterwards, and what is handed to `QueueHit` and
    `QueueUpdate`. -/
structure ClientOutcome where
  resp : RateLimitResp
  shard : Shard
  hits : List RateLimitReq
  updates : List RateLimitReq

/-- The request a peer that does not own the key puts to its own cache. -/
def RateLimitReq.asLocal (r : RateLimitReq) : RateLimitReq :=
  { r with behavior := setBehavior (setBehavior r.behavior .noBatching true) .global false }

/-- The answer comes from the local cache; the hits go to the owner later. -/
def getGlobalRateLimit (conf : Config) (host : Host) (now : ℤ) (s : Shard) (r : RateLimitReq) :
    LocalOutcome × List RateLimitReq :=
  let out := getLocalRateLimit conf host now s r.asLocal { isOwner := false }
  match out.result with
  | .error e => ({ out with result := .error ("during in getLocalRateLimit: " ++ e) }, [])
  | .ok _ => (out, queueable [r])

/-- One item of `GetRateLimits`, at a peer that owns the key or under GLOBAL. -/
def getRateLimit (conf : Config) (host : Host) (now : ℤ) (isOwner : Bool) (s : Shard)
    (req : RateLimitReq) : ClientOutcome :=
  if req.uniqueKey = "" then ⟨{ error := "field 'unique_key' cannot be empty" }, s, [], []⟩
  else if req.name = "" then ⟨{ error := "field 'namespace' cannot be empty" }, s, [], []⟩
  else
    let r := req.stamped now
    let msg := validateMaxWait r
    if msg ≠ "" then ⟨{ error := msg }, s, [], []⟩
    else if isOwner then
      let out := getLocalRateLimit conf host now s r { isOwner := true }
      match out.result with
      | .error e =>
        ⟨{ error := s!"Error while apply rate limit for '{r.hashKey}': {e}" }, out.shard, [], []⟩
      | .ok resp => ⟨resp, out.shard, [], queueable out.updates⟩
    else
      let (out, hits) := getGlobalRateLimit conf host now s r
      match out.result with
      | .error e => ⟨{ error := "Error in getGlobalRateLimit: " ++ e }, out.shard, [], []⟩
      | .ok resp => ⟨resp, out.shard, hits, queueable out.updates⟩

/-- A request another peer sent: GLOBAL hits were accumulated, so what is left is drained. -/
def RateLimitReq.received (r : RateLimitReq) (now : ℤ) : RateLimitReq :=
  let r₁ := if hasBehavior r.behavior .global then
    { r with behavior := setBehavior r.behavior .drainOverLimit true } else r
  r₁.stamped now

/-- One request of `GetPeerRateLimits`; the sender of accumulated hits drops the answer. -/
def getPeerRateLimit (conf : Config) (host : Host) (now : ℤ) (s : Shard) (r : RateLimitReq) :
    LocalOutcome :=
  getLocalRateLimit conf host now s (r.received now) { isOwner := true }

/-- `runAsyncHits`: a queued request into the entry of its key.  `Hits` is an `int64`, and the `+=`
    wraps: a client may ask for any number of hits, and is refused only after they were queued. -/
def aggregateHit (entry : Option RateLimitReq) (r : RateLimitReq) : RateLimitReq :=
  match entry with
  | none => r
  | some h =>
    { h with
      behavior := if hasBehavior r.behavior .resetRemaining then
        setBehavior h.behavior .resetRemaining true else h.behavior
      hits := MachineInt.wrap (h.hits + r.hits) }

structure UpdatePeerGlobal where
  key : String
  algorithm : Algorithm
  duration : ℤ
  status : RateLimitResp
  createdAt : ℤ
  deriving DecidableEq, Repr

/-- What `broadcastPeers` says of a key: the status of a query. -/
def broadcastStatus (conf : Config) (host : Host) (now : ℤ) (s : Shard) (update : RateLimitReq) :
    Option UpdatePeerGlobal × Shard :=
  match handleGetRateLimit conf host now s { update with hits := 0 } { isOwner := false } with
  | (.error _, s') => (none, s')
  | (.ok status, s') =>
    (some { key := update.hashKey, algorithm := update.algorithm, duration := update.duration,
            status, createdAt := update.createdAt }, s')

/-- The item `UpdatePeerGlobals` makes of a broadcast status, at `now` in milliseconds. -/
def UpdatePeerGlobal.item (g : UpdatePeerGlobal) (now : ℤ) : CacheItem where
  algorithm := g.algorithm
  key := g.key
  expireAt := g.status.resetTime
  value :=
    match g.algorithm with
    | .leakyBucket =>
      some (.leaky { limit := g.status.limit, duration := g.duration,
                     remaining := .ofInt g.status.remaining, updatedAt := now,
                     burst := g.status.limit })
    | .tokenBucket =>
      some (.token { status := g.status.status, limit := g.status.limit, duration := g.duration,
                     remaining := g.status.remaining, createdAt := now })
    | .unknown _ => none

def updatePeerGlobals (now : ℤ) (s : Shard) (g : UpdatePeerGlobal) : Shard :=
  { s with cache := s.cache.add (g.item (epochMillis now)) }

/-! ## The cluster -/

/-- A peer.  `sending` are the requests of its `GetPeerRateLimits` calls that have not arrived,
    `inbox` the `UpdatePeerGlobals` calls to it that have not. -/
structure Peer where
  shard : Shard
  answered : List RateLimitReq := []
  hitsQueue : List RateLimitReq := []
  hits : Option RateLimitReq := none
  sending : List RateLimitReq := []
  counted : List RateLimitReq := []
  broadcastQueue : List RateLimitReq := []
  updates : Option RateLimitReq := none
  inbox : List UpdatePeerGlobal := []

namespace Peer

/-- A client's request, answered by this peer. -/
def client (conf : Config) (host : Host) (now : ℤ) (isOwner : Bool) (r : RateLimitReq) (p : Peer) :
    RateLimitResp × Peer :=
  let out := getRateLimit conf host now isOwner p.shard r
  (out.resp, { p with shard := out.shard, answered := p.answered ++ out.hits,
                      counted := p.counted ++ out.updates })

/-- The `i`-th of the answered requests gets room on the channel. -/
def queueHit (i : ℕ) (p : Peer) : Peer :=
  match p.answered[i]? with
  | some r => { p with answered := p.answered.eraseIdx i, hitsQueue := p.hitsQueue ++ [r] }
  | none => p

def collectHit (p : Peer) : Peer :=
  match p.hitsQueue with
  | r :: rest => { p with hitsQueue := rest, hits := some (aggregateHit p.hits r) }
  | [] => p

def sendHits (p : Peer) : Peer :=
  { p with hits := none, sending := p.sending ++ p.hits.toList }

/-- Hits from another peer, counted by this one. -/
def receiveHits (conf : Config) (host : Host) (now : ℤ) (r : RateLimitReq) (p : Peer) : Peer :=
  let out := getPeerRateLimit conf host now p.shard r
  { p with shard := out.shard, counted := p.counted ++ queueable out.updates }

/-- The `i`-th of the counted requests gets room on the channel. -/
def queueUpdate (i : ℕ) (p : Peer) : Peer :=
  match p.counted[i]? with
  | some r => { p with counted := p.counted.eraseIdx i, broadcastQueue := p.broadcastQueue ++ [r] }
  | none => p

def collectUpdate (p : Peer) : Peer :=
  match p.broadcastQueue with
  | r :: rest => { p with broadcastQueue := rest, updates := some r }
  | [] => p

/-- The map of updates is turned into one message. -/
def broadcastPeers (conf : Config) (host : Host) (now : ℤ) (p : Peer) :
    Option UpdatePeerGlobal × Peer :=
  match p.updates with
  | some update =>
    let (g, s') := broadcastStatus conf host now p.shard update
    (g, { p with shard := s', updates := none })
  | none => (none, p)

def receiveUpdate (now : ℤ) (p : Peer) : Peer :=
  match p.inbox with
  | g :: rest => { p with shard := updatePeerGlobals now p.shard g, inbox := rest }
  | [] => p

end Peer

abbrev Cluster (ι : Type) := ι → Peer

/-- Everything that can happen in a cluster, each at one peer's clock. -/
inductive Action (ι : Type) where
  | client (p : ι) (now : ℤ) (req : RateLimitReq)
  | queueHit (p : ι) (i : ℕ)
  | collectHit (p : ι)
  | sendHits (p : ι)
  | deliverHits (p : ι) (i : ℕ) (now : ℤ)
  | queueUpdate (i : ℕ)
  | collectUpdate
  | broadcast (now : ℤ)
  | deliverUpdate (p : ι) (now : ℤ)

section Step
variable {ι : Type} [DecidableEq ι]

def Cluster.set (c : Cluster ι) (p : ι) (peer : Peer) : Cluster ι := Function.update c p peer

/-- A step, with the answer if it is a client's request.  What cannot happen changes nothing. -/
def Cluster.step (conf : Config) (host : Host) (owner : ι) (c : Cluster ι) :
    Action ι → Option RateLimitResp × Cluster ι
  | .client p now r =>
    let (resp, peer) := (c p).client conf host now (p = owner) r
    (some resp, c.set p peer)
  | .queueHit p i => (none, c.set p ((c p).queueHit i))
  | .collectHit p => (none, c.set p (c p).collectHit)
  | .sendHits p => (none, c.set p (c p).sendHits)
  | .deliverHits p i now =>
    match (c p).sending[i]? with
    | some r =>
      let c₁ := c.set p { c p with sending := (c p).sending.eraseIdx i }
      (none, c₁.set owner ((c₁ owner).receiveHits conf host now r))
    | none => (none, c)
  | .queueUpdate i => (none, c.set owner ((c owner).queueUpdate i))
  | .collectUpdate => (none, c.set owner (c owner).collectUpdate)
  | .broadcast now =>
    match (c owner).broadcastPeers conf host now with
    | (some g, peer) =>
      (none, fun p => if p = owner then peer else { c p with inbox := (c p).inbox ++ [g] })
    | (none, peer) => (none, c.set owner peer)
  | .deliverUpdate p now => (none, c.set p ((c p).receiveUpdate now))

end Step

end Gubernator
