/-
  A cluster on AN UNRELIABLE NETWORK (`gubernator.go`, `asyncRequest`).

  A request for a key of another peer is forwarded in a loop of its own, and the loops of many
  requests run at once.  An attempt may

  * not reach the owner,
  * reach it and be charged there, while the answer is lost: the caller sees an error, and if it
    is a time-out it tries again, and the owner charges again,
  * or be answered.

  The rounds of all loops are taken in any order, with the times and the errors the network and
  the clocks give, and peers are started again in between.

  `step_does` says all that such an event can do: it touches nothing, it loses entries with a
  restart, or it is ONE request put to the pool of its owner (`Charges`), whose answer the caller
  gets, or not.  An error never looks like an answer.

  `NetworkSound` is what the step needs of the state and keeps: the pools stay sharded, and a
  request under way was accepted and is for a key of another peer, so that a round of its loop
  always forwards and never falls back on the local bucket.  The peers do not change while the
  network runs, as in `Deployment`.
-/
import Gubernator.Deployment

namespace Gubernator

/-! ## The network

A round of `asyncRequest` is the function of the source, run in surroundings that say what the
network made of the attempt.  The model adds the bookkeeping around it:  which requests are under
way, what arrives, and whose clock it is handled by. -/

/-- What becomes of an attempt: the owner's time if it gets there, what the caller gets for an
    error, and its `ctx.Err()` then. -/
structure Delivery where
  time : ℤ
  reached : Bool
  /-- `none` for an answer. -/
  failure : Option ForwardError
  ctxErr : Option String

/-- A request in its loop. -/
structure PendingCall (ι : Type) where
  /-- The peer the client asked. -/
  peer : ι
  req : RateLimitReq
  state : AsyncState

/-- The pools, when each peer has last handled a request, and the requests under way. -/
structure Network (ι : Type) where
  pools : ι → WorkerPool
  clock : ι → ℤ
  calls : List (PendingCall ι)

/-- A client asks a peer; a request under way makes a round of its loop; a peer is started again. -/
inductive NetworkEvent (ι : Type) where
  | ask (peer : ι) (called handled : ℤ) (req : RateLimitReq)
  | attempt (call : ℕ) (delivery : Delivery)
  | restart (peer : ι) (pool : WorkerPool)

/-- What a client is told, and the time of the peer that answered. -/
structure Report where
  req : RateLimitReq
  time : ℤ
  answer : Answer

namespace Members

variable {ι : Type} [DecidableEq ι]

/-- What a round meets. -/
def attemptSurroundings (m : Members ι) (conf : Config) (host : Host) (pools : ι → WorkerPool)
    (c : PendingCall ι) (d : Delivery) : Surroundings :=
  let w := m.surroundings conf host pools c.peer d.time c.req.hashKey
  { w with
    ctxErrAfter := fun _ => d.ctxErr
    getPeerRateLimit := fun n info r =>
      match d.failure with
      | some e => .error e
      | none => w.getPeerRateLimit n info r }

/-- What a round does to the pools: a request that does not arrive does nothing. -/
def deliver (m : Members ι) (conf : Config) (host : Host) (peer : ι) (d : Delivery)
    (pools : ι → WorkerPool) (effect : Effect) : ι → WorkerPool :=
  if effect.isForward && !d.reached then pools else m.apply conf host peer d.time pools effect

/-- The request an event puts to its owner, and the owner's time. -/
def handling (m : Members ι) (net : Network ι) : NetworkEvent ι → Option (ℤ × RateLimitReq)
  | .ask peer called handled req =>
    if m.owner req.hashKey = peer then some (handled, req.stamped called) else none
  | .attempt call d =>
    match net.calls[call]? with
    | some c => if d.reached then some (d.time, c.req) else none
    | none => none
  | .restart _ _ => none

/-- The clocks after an event. -/
def clockAfter (m : Members ι) (net : Network ι) (e : NetworkEvent ι) : ι → ℤ :=
  match m.handling net e with
  | some (t, r) => Function.update net.clock (m.owner r.hashKey) t
  | none => net.clock

/-- **The step.** A peer asked answers at once or starts a loop; a round ends its loop or leaves it
    for another; a restart replaces a pool. The effects of a round are those it adds to the ones the
    loop had. -/
def networkStep (m : Members ι) (conf : Config) (host : Host) (net : Network ι)
    (e : NetworkEvent ι) : Option Report × Network ι :=
  let clock := m.clockAfter net e
  match e with
  | .ask peer called handled req =>
    let w := m.surroundings conf host net.pools peer handled req.hashKey
    match getRateLimitsItem false called w req with
    | .handled h => (some ⟨req, handled, h.answer⟩,
        { net with pools := h.effects.foldl (m.apply conf host peer handled) net.pools, clock })
    | .launched info r =>
      (none, { net with calls := net.calls ++ [⟨peer, r, ⟨0, info, "", []⟩⟩], clock })
  | .attempt call d =>
    match net.calls[call]? with
    | none => (none, { net with clock })
    | some c =>
      match asyncRound (m.attemptSurroundings conf host net.pools c d) c.req c.state with
      | .inl s =>
        -- a failed attempt: the loop goes on, but what reached the owner was charged
        let new := s.effects.drop c.state.effects.length
        (none,
          { pools := new.foldl (m.deliver conf host c.peer d) net.pools
            calls := net.calls.set call { c with state := s }, clock })
      | .inr h =>
        let new := h.effects.drop c.state.effects.length
        (some ⟨c.req, d.time, h.answer⟩,
          { pools := new.foldl (m.deliver conf host c.peer d) net.pools
            calls := net.calls.eraseIdx call, clock })
  | .restart peer pool => (none, { net with pools := Function.update net.pools peer pool, clock })

/-- **The runs followed**: as in a deployment without failures; clocks do not go back, and what is
    answered has arrived. -/
def Possible (m : Members ι) (net : Network ι) (e : NetworkEvent ι) : Prop :=
  (match e with
    | .ask _ called _ req => hasBehavior req.behavior .global = false ∧ epochMillis called ≠ 0
    | .attempt _ d => d.failure = none → d.reached = true
    | .restart peer pool => pool.Sharded ∧
        ∀ key, pool.entry key = (net.pools peer).entry key ∨ pool.entry key = none) ∧
  ∀ t r, m.handling net e = some (t, r) → net.clock (m.owner r.hashKey) ≤ t

/-! ## A round

One call of `asyncRound`, for any surroundings.  There are four outcomes, and in three of them the
request has been forwarded. -/

section Round
variable {w : Surroundings} {r : RateLimitReq} {s : AsyncState}

/-- **What a round can come to** while the owner is another peer.  An error has a text. -/
inductive Round (w : Surroundings) (r : RateLimitReq) (s : AsyncState) :
    AsyncState ⊕ Handled → Prop
  | gaveUp (text : String) (htext : text ≠ "") : Round w r s (.inr ⟨.ofError text, s.effects⟩)
  | answered (resp : RateLimitResp)
      (hresp : w.getPeerRateLimit s.attempts s.peer r.forwarded = .ok resp) :
      Round w r s (.inr ⟨{ resp, owner := some s.peer.grpcAddress },
        s.effects ++ [.forward s.peer r.forwarded]⟩)
  | failed (e : ForwardError) (text : String) (htext : text ≠ "")
      (herror : w.getPeerRateLimit s.attempts s.peer r.forwarded = .error e) :
      Round w r s (.inr ⟨.ofError text, s.effects ++ [.forward s.peer r.forwarded]⟩)
  | again (e : ForwardError) (s' : AsyncState) (n : ℕ)
      (herror : w.getPeerRateLimit s.attempts s.peer r.forwarded = .error e)
      (heffects : s'.effects = s.effects ++ [.forward s.peer r.forwarded])
      (hpeer : w.getPeer n = .ok s'.peer) : Round w r s (.inl s')

/-- A round follows one of the four. -/
theorem round_of_other (howner : s.peer.isOwner = false) : Round w r s (asyncRound w r s) := by
  unfold asyncRound
  dsimp only
  -- too many attempts
  split
  · exact .gaveUp _ (by simp [toString])
  rw [if_neg (by simp [howner])]
  -- the attempt; a local answer is out of the question, the owner being another peer
  cases hresp : w.getPeerRateLimit s.attempts s.peer r.forwarded with
  | ok resp => exact .answered resp hresp
  | error e =>
    dsimp only
    split
    · exact .failed e _ (by simp [toString]) hresp
    split
    · cases w.ctxErrAfter s.attempts with
      | some ctxErr => exact .failed e _ (by simp [toString]) hresp
      -- the error is one to try again after: the peer is picked anew
      | none =>
        dsimp only
        cases hpeer : w.getPeer (s.attempts + 1) with
        | error peerErr => exact .failed e _ (by simp [toString]) hresp
        | ok newPeer => exact .again e _ _ hresp rfl hpeer
    · exact .failed e _ (by simp [toString]) hresp

end Round

/-! ## What an event does

The three constructors of `Does` are what a proof about runs distinguishes.  That a lost answer is
charged all the same is the case of `charges` with a silent report. -/

/-- A request that its owner will accept: it is valid, not GLOBAL, and stamped. -/
structure Accepted (r : RateLimitReq) : Prop where
  valid : validateMaxWait r = ""
  notGlobal : hasBehavior r.behavior .global = false
  stamped : r.createdAt ≠ 0

/-- A request under way is for a key of another peer. -/
structure PendingCall.Ok (m : Members ι) (c : PendingCall ι) : Prop where
  accepted : Accepted c.req
  other : m.owner c.req.hashKey ≠ c.peer
  /-- As the loop has it: what `GetPeer` said last. -/
  notOwner : c.state.peer.isOwner = false

/-- What every step needs of the network, and keeps. -/
structure NetworkSound (m : Members ι) (net : Network ι) : Prop where
  sharded : ∀ i, (net.pools i).Sharded
  calls : ∀ c ∈ net.calls, PendingCall.Ok m c

/-- A client is told nothing, or an error. -/
def Silent : Option Report → Prop
  | none => True
  | some report => report.answer.resp.error ≠ ""

/-- **A request is put to the pool of its owner**, and the client gets the answer, or not. -/
structure Charges (m : Members ι) (conf : Config) (host : Host) (net : Network ι)
    (e : NetworkEvent ι) (t : ℤ) (r : RateLimitReq) : Prop where
  accepted : Accepted r
  handled : m.handling net e = some (t, r)
  pools : (m.networkStep conf host net e).2.pools =
    Function.update net.pools (m.owner r.hashKey)
      ((net.pools (m.owner r.hashKey)).served conf host t r)
  report : Silent (m.networkStep conf host net e).1 ∨
    ∃ report, (m.networkStep conf host net e).1 = some report ∧ report.time = t ∧
      report.req.hashKey = r.hashKey ∧ report.req.hits = r.hits ∧
      ∀ resp, (getLocalRateLimit conf host t
        ((net.pools (m.owner r.hashKey)).shardOf r.hashKey) r { isOwner := true }).result =
          .ok resp → report.answer.resp = resp

/-- **All that an event can do.** -/
inductive Does (m : Members ι) (conf : Config) (host : Host) (net : Network ι)
    (e : NetworkEvent ι) : Prop
  | nothing (hpools : (m.networkStep conf host net e).2.pools = net.pools)
      (hsilent : Silent (m.networkStep conf host net e).1)
  | restarts (peer : ι) (pool : WorkerPool) (hpool : pool.Sharded)
      (hentries : ∀ key, pool.entry key = (net.pools peer).entry key ∨ pool.entry key = none)
      (hpools : (m.networkStep conf host net e).2.pools = Function.update net.pools peer pool)
      (hsilent : Silent (m.networkStep conf host net e).1)
  | charges (t : ℤ) (r : RateLimitReq) (h : Charges m conf host net e t r)

section Does
variable {m : Members ι} {conf : Config} {host : Host} {net : Network ι}

/-- **What a peer does with a request**: it complains, answers it itself, or starts a loop. -/
theorem item_cases (m : Members ι) (conf : Config) (host : Host) (pools : ι → WorkerPool) (peer : ι)
    (handled : ℤ) {called : ℤ} {req : RateLimitReq}
    (hglobal : hasBehavior req.behavior .global = false) (hcalled : epochMillis called ≠ 0) :
    let r := req.stamped called
    let item := getRateLimitsItem false called
      (m.surroundings conf host pools peer handled req.hashKey) req
    (∃ complaint, complaint ≠ "" ∧ item = .handled ⟨.ofError complaint, []⟩) ∨
    Accepted r ∧ m.owner r.hashKey = peer ∧
      (∃ answer, item = .handled ⟨answer, [.bucket r]⟩ ∧
        ∀ resp, (getLocalRateLimit conf host handled ((pools peer).shardOf r.hashKey) r
          { isOwner := true }).result = .ok resp → answer.resp = resp) ∨
    Accepted r ∧ m.owner r.hashKey ≠ peer ∧
      ∃ info, info.isOwner = false ∧ item = .launched info r := by
  intro r item
  have hkey : r.hashKey = req.hashKey := stamped_hashKey req called
  have hbehavior : hasBehavior r.behavior .global = false := by
    rwa [show r.behavior = req.behavior from stamped_behavior req called]
  -- the checks of the source, in its order
  by_cases hunique : req.uniqueKey = ""
  · exact .inl ⟨"field 'unique_key' cannot be empty", by decide, by
      simp [item, getRateLimitsItem, hunique]⟩
  by_cases hname : req.name = ""
  · exact .inl ⟨"field 'namespace' cannot be empty", by decide, by
      simp [item, getRateLimitsItem, hunique, hname]⟩
  by_cases hvalid : validateMaxWait r = ""
  swap
  · exact .inl ⟨validateMaxWait r, hvalid, by
      simp only [item, getRateLimitsItem, hunique, hname, surroundings, if_false,
        Bool.false_eq_true, ne_eq, r, hvalid, not_false_eq_true, if_true]⟩
  -- all passed: from here the owner of the key decides
  have haccepted : Accepted r := ⟨hvalid, hbehavior, stamped_createdAt req hcalled⟩
  refine .inr ?_
  by_cases hhere : m.owner r.hashKey = peer
  · rw [hkey] at hhere
    refine .inl ⟨haccepted, hkey ▸ hhere, ?_⟩
    cases hresult : (getLocalRateLimit conf host handled ((pools peer).shardOf r.hashKey) r
        { isOwner := true }).result with
    -- a bucket that fails was still asked, and its error becomes the answer's
    | error e =>
      have hitem : item = .handled ⟨.ofError
          ("Error while apply rate limit for '" ++ req.hashKey ++ "': " ++ e), [.bucket r]⟩ := by
        simp only [item, getRateLimitsItem, hunique, hname, surroundings, if_false,
          Bool.false_eq_true, ne_eq, not_true_eq_false, hvalid, hhere, decide_true, if_true, r,
          hresult]
        rfl
      exact ⟨_, hitem, fun resp hresp => by cases hresp⟩
    | ok resp =>
      have hitem : item = .handled ⟨{ resp }, [.bucket r]⟩ := by
        simp only [item, getRateLimitsItem, hunique, hname, surroundings, if_false,
          Bool.false_eq_true, ne_eq, not_true_eq_false, hvalid, hhere, decide_true, if_true, r,
          hresult]
      exact ⟨_, hitem, fun resp' hresp => Except.ok.inj hresp⟩
  · rw [hkey] at hhere
    refine .inr ⟨haccepted, hkey ▸ hhere,
      { grpcAddress := m.address (m.owner req.hashKey), isOwner := false }, rfl, ?_⟩
    simp only [item, getRateLimitsItem, hunique, hname, surroundings, if_false,
      Bool.false_eq_true, ne_eq, not_true_eq_false, hvalid, hhere, decide_false, r, hbehavior]

/-- The pools stay sharded when a request is put to one of them. -/
theorem sharded_served {pools : ι → WorkerPool} (hpools : ∀ i, (pools i).Sharded) (conf : Config)
    (host : Host) (owner : ι) (t : ℤ) (r : RateLimitReq) (i : ι) :
    (Function.update pools owner ((pools owner).served conf host t r) i).Sharded := by
  by_cases hi : i = owner
  · rw [hi, Function.update_self]
    exact ((hpools owner).served conf host t r).1
  · rw [Function.update_of_ne hi]
    exact hpools i

/-- The step of a request that is answered at once. -/
theorem step_handled {peer : ι} {called handled : ℤ} {req : RateLimitReq} {h : Handled}
    (hitem : getRateLimitsItem false called
      (m.surroundings conf host net.pools peer handled req.hashKey) req = .handled h) :
    m.networkStep conf host net (.ask peer called handled req) = (some ⟨req, handled, h.answer⟩,
      { net with
        pools := h.effects.foldl (m.apply conf host peer handled) net.pools
        clock := m.clockAfter net (.ask peer called handled req) }) := by
  simp only [networkStep, hitem]

/-- The step of a request that starts a loop. -/
theorem step_launched {peer : ι} {called handled : ℤ} {req r : RateLimitReq} {info : PeerInfo}
    (hitem : getRateLimitsItem false called
      (m.surroundings conf host net.pools peer handled req.hashKey) req = .launched info r) :
    m.networkStep conf host net (.ask peer called handled req) = (none,
      { net with
        calls := net.calls ++ [⟨peer, r, ⟨0, info, "", []⟩⟩]
        clock := m.clockAfter net (.ask peer called handled req) }) := by
  simp only [networkStep, hitem]

/-- **A client asks a peer.** -/
theorem does_ask (hnet : NetworkSound m net) {peer : ι} {called handled : ℤ} {req : RateLimitReq}
    (hok : m.Possible net (.ask peer called handled req)) :
    Does m conf host net (.ask peer called handled req) ∧
      NetworkSound m (m.networkStep conf host net (.ask peer called handled req)).2 := by
  have hkey := stamped_hashKey req called
  rcases item_cases m conf host net.pools peer handled hok.1.1 hok.1.2 with
    ⟨complaint, hcomplaint, hitem⟩ | ⟨haccepted, howner, answer, hitem, hanswer⟩ |
      ⟨haccepted, howner, info, hinfo, hitem⟩
  · -- a complaint: no bucket is asked
    have hstep := step_handled hitem
    refine ⟨.nothing (by rw [hstep]; rfl) (by rw [hstep]; exact hcomplaint), ?_⟩
    rw [hstep]
    exact ⟨hnet.sharded, hnet.calls⟩
  · -- the peer is the owner
    have hstep := step_handled hitem
    have hpools : (m.networkStep conf host net (.ask peer called handled req)).2.pools =
        Function.update net.pools (m.owner (req.stamped called).hashKey)
          ((net.pools (m.owner (req.stamped called).hashKey)).served conf host handled
            (req.stamped called)) := by
      rw [hstep, howner]
      simp only [List.foldl_cons, List.foldl_nil, apply, howner, decide_true, WorkerPool.served]
    refine ⟨.charges handled (req.stamped called) ⟨haccepted, ?_, hpools, .inr ?_⟩, ?_, ?_⟩
    · rw [hkey] at howner
      exact if_pos howner
    · refine ⟨_, by rw [hstep], rfl, hkey.symm, ?_, ?_⟩
      · unfold RateLimitReq.stamped
        split <;> rfl
      · rw [howner]
        exact hanswer
    · rw [hpools]
      exact sharded_served hnet.sharded conf host _ handled _
    · rw [hstep]
      exact hnet.calls
  · -- another peer's key: nothing is charged before the first round
    have hstep := step_launched hitem
    refine ⟨.nothing (by rw [hstep]) (by rw [hstep]; exact trivial), ?_, ?_⟩
    · rw [hstep]
      exact hnet.sharded
    · rw [hstep]
      intro c hc
      rcases List.mem_append.mp hc with hc | hc
      · exact hnet.calls c hc
      · rw [List.mem_singleton.mp hc]
        exact ⟨haccepted, howner, hinfo⟩

/-- What a round does to the pools, if the request arrives. -/
theorem deliver_forward (conf : Config) (host : Host) {c : PendingCall ι} (hc : PendingCall.Ok m c)
    (hpools : ∀ i, (net.pools i).Sharded) (d : Delivery) (info : PeerInfo) :
    m.deliver conf host c.peer d net.pools (.forward info c.req.forwarded) =
      if d.reached then Function.update net.pools (m.owner c.req.hashKey)
        ((net.pools (m.owner c.req.hashKey)).served conf host d.time c.req)
      else net.pools := by
  obtain ⟨hstore, -, -⟩ := (hpools (m.owner c.req.hashKey)).shardOf c.req.hashKey
  cases hreached : d.reached with
  | false => simp [deliver, Effect.isForward, hreached]
  | true =>
    simp only [deliver, Effect.isForward, hreached, Bool.not_true, Bool.and_false,
      Bool.false_eq_true, if_false, if_true, apply, forwarded_hashKey, WorkerPool.served,
      getPeerRateLimit_forwarded conf host d.time hstore hc.accepted.valid hc.accepted.notGlobal
        hc.accepted.stamped]

/-- The step of a round after which the loop goes on. -/
theorem step_again {call : ℕ} {d : Delivery} {c : PendingCall ι} {s : AsyncState}
    (hc : net.calls[call]? = some c)
    (hround : asyncRound (m.attemptSurroundings conf host net.pools c d) c.req c.state = .inl s) :
    m.networkStep conf host net (.attempt call d) = (none,
      { pools := (s.effects.drop c.state.effects.length).foldl (m.deliver conf host c.peer d)
          net.pools
        calls := net.calls.set call { c with state := s }
        clock := m.clockAfter net (.attempt call d) }) := by
  simp only [networkStep, hc, hround]

/-- The step of a round that ends the loop. -/
theorem step_done {call : ℕ} {d : Delivery} {c : PendingCall ι} {h : Handled}
    (hc : net.calls[call]? = some c)
    (hround : asyncRound (m.attemptSurroundings conf host net.pools c d) c.req c.state = .inr h) :
    m.networkStep conf host net (.attempt call d) = (some ⟨c.req, d.time, h.answer⟩,
      { pools := (h.effects.drop c.state.effects.length).foldl (m.deliver conf host c.peer d)
          net.pools
        calls := net.calls.eraseIdx call
        clock := m.clockAfter net (.attempt call d) }) := by
  simp only [networkStep, hc, hround]

/-- An attempt that is answered has not failed, and the answer is the owner's. -/
theorem attempt_ok {pools : ι → WorkerPool} {c : PendingCall ι} {d : Delivery} {n : ℕ}
    {info : PeerInfo} {r : RateLimitReq} {resp : RateLimitResp}
    (h : (m.attemptSurroundings conf host pools c d).getPeerRateLimit n info r = .ok resp) :
    d.failure = none ∧ resp = peerResponse (getPeerRateLimit conf host d.time
      ((pools (m.owner r.hashKey)).shardOf r.hashKey) r).result := by
  unfold attemptSurroundings surroundings at h
  dsimp only at h
  cases hfailure : d.failure with
  | some e =>
    rw [hfailure] at h
    cases h
  | none =>
    rw [hfailure] at h
    exact ⟨rfl, (Except.ok.inj h).symm⟩

/-- A round whose request was forwarded, and the caller has no answer. -/
theorem does_forward {call : ℕ} {d : Delivery} {c : PendingCall ι} (hnet : NetworkSound m net)
    (hc : net.calls[call]? = some c) (hok : PendingCall.Ok m c) (info : PeerInfo)
    (hpools : (m.networkStep conf host net (.attempt call d)).2.pools =
      m.deliver conf host c.peer d net.pools (.forward info c.req.forwarded))
    (hsilent : Silent (m.networkStep conf host net (.attempt call d)).1) :
    Does m conf host net (.attempt call d) := by
  rw [deliver_forward conf host hok hnet.sharded] at hpools
  cases hreached : d.reached with
  | false =>
    rw [hreached] at hpools
    exact .nothing hpools hsilent
  | true =>
    rw [hreached] at hpools
    exact .charges d.time c.req ⟨hok.accepted, by simp [handling, hc, hreached], hpools,
      .inl hsilent⟩

/-- **A round of a request under way.** -/
theorem does_attempt (hnet : NetworkSound m net) {call : ℕ} {d : Delivery}
    (hpossible : m.Possible net (.attempt call d)) :
    Does m conf host net (.attempt call d) ∧
      NetworkSound m (m.networkStep conf host net (.attempt call d)).2 := by
  cases hc : net.calls[call]? with
  | none =>
    have hstep : m.networkStep conf host net (.attempt call d) =
        (none, { net with clock := m.clockAfter net (.attempt call d) }) := by
      simp only [networkStep, hc]
    refine ⟨.nothing (by rw [hstep]) (by rw [hstep]; exact trivial), ?_⟩
    rw [hstep]
    exact ⟨hnet.sharded, hnet.calls⟩
  | some c =>
    have hok := hnet.calls c (List.mem_of_getElem? hc)
    -- whatever the round comes to, the request is for the owner's bucket and no other
    have hforward := deliver_forward conf host hok hnet.sharded d c.state.peer
    have hsharded : ∀ i, (m.deliver conf host c.peer d net.pools
        (.forward c.state.peer c.req.forwarded) i).Sharded := by
      intro i
      rw [hforward]
      split
      · exact sharded_served hnet.sharded conf host _ d.time _ i
      · exact hnet.sharded i
    have herased : ∀ c' ∈ net.calls.eraseIdx call, PendingCall.Ok m c' :=
      fun c' hc' => hnet.calls c' (List.mem_of_mem_eraseIdx hc')
    generalize hw : m.attemptSurroundings conf host net.pools c d = w at *
    have hround := round_of_other (w := w) (r := c.req) hok.notOwner
    generalize hout : asyncRound w c.req c.state = out at hround
    cases hround with
    -- nothing was forwarded in this round
    | gaveUp text htext =>
      have hstep := step_done hc (hw ▸ hout)
      refine ⟨.nothing (by rw [hstep]; simp) (by rw [hstep]; exact htext), ?_⟩
      rw [hstep]
      exact ⟨by simpa using hnet.sharded, herased⟩
    | answered resp hresp =>
      have hstep := step_done hc (hw ▸ hout)
      obtain ⟨hfailure, hanswer⟩ := attempt_ok (hw ▸ hresp)
      -- an answer has come from somewhere: the request had arrived
      have hreached : d.reached = true := hpossible.1 hfailure
      rw [hreached, if_pos rfl] at hforward
      have hhandling : m.handling net (.attempt call d) = some (d.time, c.req) := by
        simp [handling, hc, hreached]
      refine ⟨.charges d.time c.req ⟨hok.accepted, hhandling, ?_, .inr ?_⟩, ?_⟩
      · rw [hstep, ← hforward]
        simp
      · refine ⟨_, by rw [hstep], rfl, rfl, rfl, fun resp' hresult => ?_⟩
        obtain ⟨hstore, -, -⟩ := (hnet.sharded (m.owner c.req.hashKey)).shardOf c.req.hashKey
        rw [forwarded_hashKey, getPeerRateLimit_forwarded conf host d.time hstore
          hok.accepted.valid hok.accepted.notGlobal hok.accepted.stamped, hresult] at hanswer
        exact hanswer
      · rw [hstep]
        exact ⟨by simpa using hsharded, herased⟩
    -- the two failures differ in what becomes of the loop, not in what is charged
    | failed e text htext herror =>
      have hstep := step_done hc (hw ▸ hout)
      refine ⟨does_forward hnet hc hok c.state.peer (by rw [hstep]; simp)
        (by rw [hstep]; exact htext), ?_⟩
      rw [hstep]
      exact ⟨by simpa using hsharded, herased⟩
    | again e s' n herror heffects hpeer =>
      have hstep := step_again hc (hw ▸ hout)
      refine ⟨does_forward hnet hc hok c.state.peer (by rw [hstep]; simp [heffects])
        (by rw [hstep]; exact trivial), ?_⟩
      rw [hstep]
      refine ⟨by simpa [heffects] using hsharded, ?_⟩
      intro c' hc'
      rcases List.mem_or_eq_of_mem_set hc' with hc' | rfl
      · exact hnet.calls c' hc'
      · -- the peer picked anew is the key's owner, so again not this one
        refine ⟨hok.accepted, hok.other, ?_⟩
        rw [← hw] at hpeer
        obtain hpeer : _ = s'.peer := Except.ok.inj hpeer
        rw [← hpeer]
        exact decide_eq_false hok.other

/-- **Step.**  All that an event can do, and the network stays sound. -/
theorem step_does (conf : Config) (host : Host) (hnet : NetworkSound m net) {e : NetworkEvent ι}
    (hpossible : m.Possible net e) :
    Does m conf host net e ∧ NetworkSound m (m.networkStep conf host net e).2 := by
  cases e with
  | ask peer called handled req => exact does_ask hnet hpossible
  | attempt call d => exact does_attempt hnet hpossible
  | restart peer pool =>
    refine ⟨.restarts peer pool hpossible.1.1 hpossible.1.2 rfl trivial, fun i => ?_, hnet.calls⟩
    show (Function.update net.pools peer pool i).Sharded
    by_cases hi : i = peer
    · rw [hi, Function.update_self]
      exact hpossible.1.1
    · rw [Function.update_of_ne hi]
      exact hnet.sharded i

end Does

end Members

end Gubernator
