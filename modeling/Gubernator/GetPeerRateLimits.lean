/-
  A call from another peer (`gubernator.go`, `GetPeerRateLimits`, and `getLocalRateLimit` in it).

  The requests are handled by goroutines, at most `Workers` at a time (`syncutil.FanOut`), whose
  responses go over a channel to a goroutine that stores each at the index it carries.  This is a
  scatter and gather (`Lib/Gather`) over the worker pool at work (`WorkerPool/Dispatch`), which
  other calls use meanwhile.  A handler

    1. fills in what the request lacks, and answers an unacceptable `max_wait` with a complaint;
    2. calls `GetRateLimit` of the pool, and comes back with the reply, or with the error of its
       context: before a worker took the command, or after, when the command is applied for nothing;
    3. hands a GLOBAL request with hits to the broadcast loop, waiting for room on its channel
       whatever happens to the context;
    4. tells the event channel, if there is one, unless the context ends first;
    5. sends the response.

  The two channels have receivers that keep taking what is sent to them.  A channel without buffer
  is one of room for one: the receiver's hand.  The pool is not closed while the call is under way:
  a daemon stops its gRPC server before.

  `getPeerRateLimits_answers`: the call comes back in every interleaving, and the response at an
  index is what the request's own command got in the one place where it was applied, or says that
  the context ended.

  The assertions of a handler (`HandlerStage.Holds`) name its own call on the pool and facts of the
  pool's history, which only grows (`PoolGrows`).  So nobody else can undo them, and the library's
  rule applies: a handler is verified alone (`verifiedHandler`), and all of them together follow.
-/
import Gubernator.Lib.Gather
import Gubernator.GetRateLimits
import Gubernator.WorkerPool.Dispatch

namespace Gubernator

open Interleaving Gather

/-! ## Handlers

The code of one goroutine, step by step, and what it shares with the rest of the instance. -/

/-- An error becomes the response of its request. -/
def peerResponse : Except String RateLimitResp → RateLimitResp
  | .ok rl => rl
  | .error e => { error := "Error in getLocalRateLimit: " ++ e }

/-- What `getLocalRateLimit` makes of what the pool gives back: an error is the algorithm's, or that
    of the context. -/
def poolResult : Except String (Except String RateLimitResp) → Except String RateLimitResp
  | .ok (.ok rl) => .ok rl
  | .ok (.error e) => .error ("during workerPool.GetRateLimit: " ++ e)
  | .error e => .error ("during workerPool.GetRateLimit: " ++ e)

/-- What is handed to the broadcast loop: `QueueUpdate` of a GLOBAL request. -/
def RateLimitReq.updates (r : RateLimitReq) : List RateLimitReq :=
  queueable (if hasBehavior r.behavior .global then [r.afterwards] else [])

/-- The instance: how many handlers at a time, and the room on the channels of the broadcasts and of
    the events, which need not be set. -/
structure PeerConf where
  conf : Config
  host : Host
  workers : ℕ
  globalBatchLimit : ℕ
  eventChannel : Option ℕ

/-- Where the handler of a request is. -/
inductive HandlerStage where
  | entering
  /-- inside `GetRateLimit` of the pool: which call it is, of which request -/
  | calling (c : ℕ) (r : RateLimitReq)
  /-- at `QueueUpdate` -/
  | queueing (c : ℕ) (r : RateLimitReq) (rl : RateLimitResp)
  /-- at the event channel -/
  | announcing (c : ℕ) (r : RateLimitReq) (rl : RateLimitResp)
  /-- at the send of the response -/
  | answered (rl : RateLimitResp)

/-- What the handlers share with each other and with everybody else.  `others` is how often other
    calls still use it; `calls` says which call on the pool was made for which request. -/
structure PeerShared where
  pool : Dispatching
  broadcastQueue : List RateLimitReq := []
  events : List (RateLimitReq × RateLimitResp) := []
  others : ℕ
  calls : List (ℕ × ℕ) := []

/-- A call is made on the pool. -/
def Dispatching.withCall (s : Dispatching) (command : Command) : Dispatching :=
  { s with
    calls := s.calls ++ [{ command }]
    history := s.history ++ [.called s.calls.length command] }

/-- **One step of the handler of a request.** -/
inductive HandlerStep (pc : PeerConf) (requests : List RateLimitReq) (i : ℕ) :
    PeerShared → HandlerStage → PeerShared → HandlerStage → Prop
  /-- an unacceptable `max_wait` -/
  | refuse {s : PeerShared} {req : RateLimitReq} (now : ℤ) : requests[i]? = some req →
      validateMaxWait (req.received now) ≠ "" →
      HandlerStep pc requests i s .entering s
        (.answered { error := validateMaxWait (req.received now) })
  /-- the command is offered to the worker of its key -/
  | call {s : PeerShared} {req : RateLimitReq} (now : ℤ) : requests[i]? = some req →
      validateMaxWait (req.received now) = "" →
      s.pool.pool.getWorker (req.received now).hashKey < s.pool.stages.length →
      HandlerStep pc requests i s .entering
        { s with
          pool := s.pool.withCall (.getRateLimit (req.received now) { isOwner := true })
          calls := s.calls ++ [(i, s.pool.calls.length)] }
        (.calling s.pool.calls.length (req.received now))
  /-- the algorithm failed, or the context ended -/
  | fail {s : PeerShared} {c : ℕ} {r : RateLimitReq} {e : String}
      (result : Except String (Except String RateLimitResp)) :
      .returned c (result.map Reply.rateLimit) ∈ s.pool.history → poolResult result = .error e →
      HandlerStep pc requests i s (.calling c r) s (.answered (peerResponse (.error e)))
  /-- the worker's reply -/
  | reply {s : PeerShared} {c : ℕ} {r : RateLimitReq} {rl : RateLimitResp} :
      .returned c (.ok (.rateLimit (.ok rl))) ∈ s.pool.history →
      HandlerStep pc requests i s (.calling c r) s (.queueing c r rl)
  | noUpdate {s : PeerShared} {c : ℕ} {r : RateLimitReq} {rl : RateLimitResp} : r.updates = [] →
      HandlerStep pc requests i s (.queueing c r rl) s (.announcing c r rl)
  /-- room on the channel is waited for, whatever becomes of the context -/
  | queue {s : PeerShared} {c : ℕ} {r update : RateLimitReq} {rl : RateLimitResp} :
      r.updates = [update] → s.broadcastQueue.length < pc.globalBatchLimit →
      HandlerStep pc requests i s (.queueing c r rl)
        { s with broadcastQueue := s.broadcastQueue ++ [update] } (.announcing c r rl)
  | noChannel {s : PeerShared} {c : ℕ} {r : RateLimitReq} {rl : RateLimitResp} :
      pc.eventChannel = none →
      HandlerStep pc requests i s (.announcing c r rl) s (.answered rl)
  | announce {s : PeerShared} {c room : ℕ} {r : RateLimitReq} {rl : RateLimitResp} :
      pc.eventChannel = some room → s.events.length < room →
      HandlerStep pc requests i s (.announcing c r rl)
        { s with events := s.events ++ [(r.afterwards, rl)] } (.answered rl)
  /-- the context ends first -/
  | unheard {s : PeerShared} {c : ℕ} {r : RateLimitReq} {rl : RateLimitResp} {call : PoolCall}
      {err : String} : s.pool.calls[c]? = some call → call.ctxErr = some err →
      HandlerStep pc requests i s (.announcing c r rl) s (.answered rl)

/-- **One step of everybody else**: the workers and the contexts, the receivers of the two channels,
    and other calls, which make their own use of all of it. -/
inductive PeerEnv (pc : PeerConf) : PeerShared → PeerShared → Prop
  /-- a worker, a caller or a context moves, and the pool stays open -/
  | pool {s : PeerShared} {t : Dispatching} : Moves pc.conf pc.host s.pool t →
      t.done = s.pool.done → PeerEnv pc s { s with pool := t }
  /-- the broadcast loop takes an update -/
  | broadcast {s : PeerShared} {r : RateLimitReq} {rest : List RateLimitReq} :
      s.broadcastQueue = r :: rest → PeerEnv pc s { s with broadcastQueue := rest }
  /-- the receiver of the events takes one -/
  | hear {s : PeerShared} {e : RateLimitReq × RateLimitResp}
      {rest : List (RateLimitReq × RateLimitResp)} : s.events = e :: rest →
      PeerEnv pc s { s with events := rest }
  | otherCall {s : PeerShared} {k : ℕ} (command : Command) : s.others = k + 1 →
      s.pool.pool.getWorker command.key < s.pool.stages.length →
      PeerEnv pc s { s with pool := s.pool.withCall command, others := k }
  | otherUpdate {s : PeerShared} {k : ℕ} (r : RateLimitReq) : s.others = k + 1 →
      s.broadcastQueue.length < pc.globalBatchLimit →
      PeerEnv pc s { s with broadcastQueue := s.broadcastQueue ++ [r], others := k }
  | otherEvent {s : PeerShared} {k room : ℕ} (e : RateLimitReq × RateLimitResp) :
      s.others = k + 1 → pc.eventChannel = some room → s.events.length < room →
      PeerEnv pc s { s with events := s.events ++ [e], others := k }

/-- What the goroutine of a request runs. -/
def peerHandler (pc : PeerConf) (requests : List RateLimitReq) :
    Program PeerShared HandlerStage RateLimitResp where
  begin := .entering
  step := HandlerStep pc requests
  result
    | .answered rl => some rl
    | _ => none

/-- The start of a call. -/
def getPeerRateLimits (shared : PeerShared) (requests : List RateLimitReq) :
    Except String (Gathering PeerShared HandlerStage RateLimitResp) :=
  if ClientCall.maxBatchSize < requests.length then
    .error "'PeerRequest.rate_limits' list too large; max size is '1000'"
  else .ok (start HandlerStage RateLimitResp requests.length shared)

/-! ## What a step of the pool leaves

Calls keep their command and, once it has ended, the error of their context; what has happened has
happened; and a call that returned an error returned that of its context. -/

/-- **What every step of the pool leaves.** -/
structure PoolGrows (s t : Dispatching) : Prop where
  calls : ∀ (c : ℕ) (call : PoolCall), s.calls[c]? = some call → ∃ call',
    t.calls[c]? = some call' ∧ call'.command = call.command ∧
      ∀ err, call.ctxErr = some err → call'.ctxErr = some err
  history : ∃ news, t.history = s.history ++ news ∧ ∀ (c : ℕ) (err : String),
    .returned c (.error err) ∈ news → ∃ call, t.calls[c]? = some call ∧ call.ctxErr = some err
  stages : t.stages.length = s.stages.length

section Grows
variable {conf : Config} {host : Host} {s t : Dispatching}

/-- A call is replaced by one with its command, whose context has ended if it had before. -/
theorem calls_set {i : ℕ} {c c' : PoolCall} (hc : s.calls[i]? = some c)
    (hcommand : c'.command = c.command)
    (hctx : ∀ err, c.ctxErr = some err → c'.ctxErr = some err) (k : ℕ) (call : PoolCall)
    (hcall : s.calls[k]? = some call) : ∃ call', (s.calls.set i c')[k]? = some call' ∧
      call'.command = call.command ∧ ∀ err, call.ctxErr = some err → call'.ctxErr = some err := by
  by_cases hki : k = i
  · subst hki
    obtain rfl := Option.some.inj (hc.symm.trans hcall)
    exact ⟨c', List.getElem?_set_self (List.getElem?_eq_some_iff.mp hc).1, hcommand, hctx⟩
  · exact ⟨call, by rw [List.getElem?_set_ne (Ne.symm hki)]; exact hcall, rfl, fun _ h => h⟩

/-- Calls that are not touched are as they were. -/
theorem calls_same (s : Dispatching) (k : ℕ) (call : PoolCall) (hcall : s.calls[k]? = some call) :
    ∃ call', s.calls[k]? = some call' ∧ call'.command = call.command ∧
      ∀ err, call.ctxErr = some err → call'.ctxErr = some err :=
  ⟨call, hcall, rfl, fun _ h => h⟩

/-- A new call leaves the others, and returns nothing. -/
theorem poolGrows_withCall (s : Dispatching) (command : Command) :
    PoolGrows s (s.withCall command) := by
  refine ⟨fun c call hcall => ?_, ⟨_, rfl, fun c err h => ?_⟩, rfl⟩
  · have hlt := (List.getElem?_eq_some_iff.mp hcall).1
    exact ⟨call, by rw [Dispatching.withCall, List.getElem?_append_left hlt]; exact hcall, rfl,
      fun _ h => h⟩
  · cases List.mem_singleton.mp h

/-- A call returns the error of its context. -/
theorem returned_error {i : ℕ} {c c' : PoolCall} {err : String} (hc : s.calls[i]? = some c)
    (hctx : c'.ctxErr = some err) (k : ℕ) (e : String)
    (h : Happening.returned k (.error e) ∈ [Happening.returned i (.error err)]) :
    ∃ call, (s.calls.set i c')[k]? = some call ∧ call.ctxErr = some e := by
  obtain ⟨rfl, he⟩ := Happening.returned.inj (List.mem_singleton.mp h)
  obtain rfl := Except.error.inj he
  exact ⟨c', List.getElem?_set_self (List.getElem?_eq_some_iff.mp hc).1, hctx⟩

/-- **Step.** -/
theorem DispatchStep.grows (hstep : DispatchStep conf host s t) : PoolGrows s t := by
  -- most happenings return no error, and some steps add none
  have hnone : ∀ e : Happening, (∀ c err, e ≠ .returned c (.error err)) → ∀ (calls : List PoolCall)
      (c : ℕ) (err : String), Happening.returned c (.error err) ∈ [e] →
        ∃ call, calls[c]? = some call ∧ call.ctxErr = some err := by
    intro e he calls c err h
    exact absurd (List.mem_singleton.mp h).symm (he c err)
  have hempty : ∀ (calls : List PoolCall) (c : ℕ) (err : String),
      Happening.returned c (.error err) ∈ [] →
        ∃ call, calls[c]? = some call ∧ call.ctxErr = some err := by
    intro calls c err h
    cases h
  cases hstep with
  | call command hrange => exact poolGrows_withCall s command
  | @endContext i c err hc hctx =>
    exact ⟨calls_set hc rfl (fun e he => by rw [hctx] at he; cases he),
      ⟨[], (List.append_nil _).symm, hempty _⟩, rfl⟩
  | @take i c hc hstage hw =>
    exact ⟨calls_set hc rfl (fun _ h => h), ⟨_, rfl, hnone _ (by simp) _⟩, List.length_set⟩
  | @abandon i c err hc hstage hctx =>
    exact ⟨calls_set hc rfl (fun _ h => h), ⟨_, rfl, returned_error hc hctx⟩, rfl⟩
  | handle now hw hc hcache =>
    exact ⟨calls_same s, ⟨_, rfl, hnone _ (by simp) _⟩, List.length_set⟩
  | @reply w i c reply hw hc hbuffered hnone' =>
    exact ⟨calls_set hc rfl (fun _ h => h), ⟨[], (List.append_nil _).symm, hempty _⟩,
      List.length_set⟩
  | @meet w i c reply hw hc hbuffered hstage =>
    exact ⟨calls_set hc rfl (fun _ h => h), ⟨_, rfl, hnone _ (by simp) _⟩, List.length_set⟩
  | drop hw hc hctx =>
    exact ⟨calls_same s, ⟨[], (List.append_nil _).symm, hempty _⟩, List.length_set⟩
  | @receive i c reply hc hstage hresp =>
    exact ⟨calls_set hc rfl (fun _ h => h), ⟨_, rfl, hnone _ (by simp) _⟩, rfl⟩
  | @giveUp i c err hc hstage hctx =>
    exact ⟨calls_set hc rfl (fun _ h => h), ⟨_, rfl, returned_error hc hctx⟩, rfl⟩
  | close hopen => exact ⟨calls_same s, ⟨[], (List.append_nil _).symm, hempty _⟩, rfl⟩
  | stop hdone hw =>
    exact ⟨calls_same s, ⟨[], (List.append_nil _).symm, hempty _⟩, List.length_set⟩

/-- A step that is not the pool's leaves all of it. -/
theorem PoolGrows.refl (s : Dispatching) : PoolGrows s s :=
  ⟨calls_same s, ⟨[], (List.append_nil _).symm, fun _ _ h => (by cases h)⟩, rfl⟩

/-- What has happened has happened. -/
theorem PoolGrows.mem_history (h : PoolGrows s t) {e : Happening} (he : e ∈ s.history) :
    e ∈ t.history := by
  obtain ⟨news, hnews, -⟩ := h.history
  rw [hnews]
  exact List.mem_append_left _ he

/-- No call is forgotten. -/
theorem PoolGrows.length_le (h : PoolGrows s t) : s.calls.length ≤ t.calls.length := by
  by_contra hlt
  have hlast := List.getElem?_eq_getElem (not_le.mp hlt)
  obtain ⟨call', hcall', -⟩ := h.calls _ _ hlast
  exact lt_irrefl _ (List.getElem?_eq_some_iff.mp hcall').1

/-- Whoever came back with an error was told so by the context. -/
def Told (s : Dispatching) : Prop :=
  ∀ (c : ℕ) (err : String), .returned c (.error err) ∈ s.history →
    ∃ call, s.calls[c]? = some call ∧ call.ctxErr = some err

/-- It stays so: an old error is still its context's, and a new one is. -/
theorem PoolGrows.told (h : PoolGrows s t) (hs : Told s) : Told t := by
  intro c err hreturned
  obtain ⟨news, hnews, htold⟩ := h.history
  rw [hnews] at hreturned
  rcases List.mem_append.mp hreturned with hold | hnew
  · obtain ⟨call, hcall, hctx⟩ := hs c err hold
    obtain ⟨call', hcall', -, hsame⟩ := h.calls c call hcall
    exact ⟨call', hcall', hsame err hctx⟩
  · exact htold c err hnew

/-- **Run.** -/
theorem told_run {p : WorkerPool}
    (hrun : Relation.ReflTransGen (DispatchStep conf host) (Dispatching.start p) s) : Told s := by
  induction hrun with
  | refl => exact fun c err h => (by cases h)
  | tail _ hstep ih => exact hstep.grows.told ih

end Grows

/-! ## What a handler knows

The assertions of a handler only speak of its own call on the pool and of what has happened, so they
are stable under everything anybody else does. -/

/-- The call on the pool was made for the request. -/
structure Called (requests : List RateLimitReq) (i c : ℕ) (r : RateLimitReq) (s : PeerShared) :
    Prop where
  mine : (i, c) ∈ s.calls
  request : ∃ req now, requests[i]? = some req ∧ r = req.received now
  command : ∃ call, s.pool.calls[c]? = some call ∧
    call.command = .getRateLimit r { isOwner := true }

/-- How a request has come to its response. -/
inductive Answered (requests : List RateLimitReq) (i : ℕ) (s : PeerShared) (rl : RateLimitResp) :
    Prop
  | refused (req : RateLimitReq) (now : ℤ) (hreq : requests[i]? = some req)
      (hinvalid : validateMaxWait (req.received now) ≠ "")
      (hrl : rl = { error := validateMaxWait (req.received now) })
      (hnone : ∀ c, (i, c) ∉ s.calls)
  | returned (c : ℕ) (r : RateLimitReq) (result : Except String (Except String RateLimitResp))
      (hcalled : Called requests i c r s)
      (hresult : .returned c (result.map Reply.rateLimit) ∈ s.pool.history)
      (hrl : rl = peerResponse (poolResult result))

/-- **What holds of a handler**, by where it is. -/
def HandlerStage.Holds (requests : List RateLimitReq) (i : ℕ) (s : PeerShared) :
    HandlerStage → Prop
  | entering => ∀ c, (i, c) ∉ s.calls
  | calling c r => Called requests i c r s
  | queueing c r rl => Called requests i c r s ∧
      .returned c (.ok (.rateLimit (.ok rl))) ∈ s.pool.history
  | announcing c r rl => Called requests i c r s ∧
      .returned c (.ok (.rateLimit (.ok rl))) ∈ s.pool.history
  | answered rl => Answered requests i s rl

/-- **What holds of what is shared**: the pool is one that some run has brought there, and open;
    every key has a worker; no request has two calls and no call two requests. -/
structure PeerInv (pc : PeerConf) (p : WorkerPool) (requests : List RateLimitReq) (s : PeerShared) :
    Prop where
  sound : s.pool.Sound pc.conf pc.host p
  running : s.pool.done = false
  range : ∀ req ∈ requests, s.pool.pool.getWorker req.hashKey < s.pool.stages.length
  oneCall : (s.calls.map Prod.fst).Nodup
  oneRequest : (s.calls.map Prod.snd).Nodup
  made : ∀ x ∈ s.calls, x.2 < s.pool.calls.length
  told : Told s.pool

section Handler
variable {pc : PeerConf} {p : WorkerPool} {requests : List RateLimitReq} {i : ℕ}
  {s s' : PeerShared} {j j' : HandlerStage}

/-- A call made for a request stays one. -/
theorem Called.grows {c : ℕ} {r : RateLimitReq} (h : Called requests i c r s)
    (hpool : PoolGrows s.pool s'.pool) (hcalls : ∀ x ∈ s.calls, x ∈ s'.calls) :
    Called requests i c r s' := by
  obtain ⟨call, hcall, hcommand⟩ := h.command
  obtain ⟨call', hcall', hsame, -⟩ := hpool.calls c call hcall
  exact ⟨hcalls _ h.mine, h.request, call', hcall', hsame.trans hcommand⟩

/-- **Stability**: the pool goes on, and calls are made for other requests. -/
theorem HandlerStage.Holds.grows (h : j.Holds requests i s) (hpool : PoolGrows s.pool s'.pool)
    (hcalls : ∀ x ∈ s.calls, x ∈ s'.calls) (hmine : ∀ c, (i, c) ∈ s'.calls → (i, c) ∈ s.calls) :
    j.Holds requests i s' := by
  cases j with
  | entering => exact fun c hc => h c (hmine c hc)
  | calling c r => exact Called.grows h hpool hcalls
  | queueing c r rl => exact ⟨h.1.grows hpool hcalls, hpool.mem_history h.2⟩
  | announcing c r rl => exact ⟨h.1.grows hpool hcalls, hpool.mem_history h.2⟩
  | answered rl =>
    cases h with
    | refused req now hreq hinvalid hrl hnone =>
      exact .refused req now hreq hinvalid hrl (fun c hc => hnone c (hmine c hc))
    | returned c r result hcalled hresult hrl =>
      exact .returned c r result (hcalled.grows hpool hcalls) (hpool.mem_history hresult) hrl

/-- The pool takes a step of its own, or is called. -/
theorem PeerInv.pool_grows (h : PeerInv pc p requests s) {t : Dispatching}
    (hstep : DispatchStep pc.conf pc.host s.pool t) (hdone : t.done = s.pool.done) (others : ℕ) :
    PeerInv pc p requests { s with pool := t, others } := by
  have hgrows := hstep.grows
  have hsound := h.sound.step hstep
  refine ⟨hsound, hdone.trans h.running, fun req hreq => ?_, h.oneCall, h.oneRequest,
    fun x hx => (h.made x hx).trans_le hgrows.length_le, hgrows.told h.told⟩
  show t.pool.getWorker req.hashKey < t.stages.length
  rw [hsound.getWorker, hgrows.stages, ← h.sound.getWorker]
  exact h.range req hreq

/-- What a request lacks is not its key. -/
theorem received_hashKey (r : RateLimitReq) (now : ℤ) : (r.received now).hashKey = r.hashKey := by
  unfold RateLimitReq.received RateLimitReq.stamped
  dsimp only
  split <;> split <;> rfl

/-- A handler makes its call on the pool. -/
theorem PeerInv.call (h : PeerInv pc p requests s) {req : RateLimitReq} (now : ℤ)
    (hrange : s.pool.pool.getWorker (req.received now).hashKey < s.pool.stages.length)
    (hfree : ∀ c, (i, c) ∉ s.calls) :
    PeerInv pc p requests { s with
      pool := s.pool.withCall (.getRateLimit (req.received now) { isOwner := true })
      calls := s.calls ++ [(i, s.pool.calls.length)] } := by
  have hstep : DispatchStep pc.conf pc.host s.pool
      (s.pool.withCall (.getRateLimit (req.received now) { isOwner := true })) := .call _ hrange
  have hpool := h.pool_grows hstep rfl s.others
  refine ⟨hpool.sound, hpool.running, hpool.range, ?_, ?_, fun x hx => ?_, hpool.told⟩
  · -- this request had no call
    rw [List.map_append, List.map_singleton, List.nodup_append]
    refine ⟨h.oneCall, List.nodup_singleton _, fun a ha b hb hab => ?_⟩
    obtain ⟨⟨k, c⟩, hx, rfl⟩ := List.mem_map.mp ha
    rw [List.mem_singleton.mp hb] at hab
    obtain rfl : k = i := hab
    exact hfree c hx
  · -- the number of the new call is above those of all calls made
    rw [List.map_append, List.map_singleton, List.nodup_append]
    refine ⟨h.oneRequest, List.nodup_singleton _, fun a ha b hb hab => ?_⟩
    obtain ⟨x, hx, rfl⟩ := List.mem_map.mp ha
    rw [List.mem_singleton.mp hb] at hab
    have := h.made x hx
    omega
  · rcases List.mem_append.mp hx with hx | hx
    · exact hpool.made x hx
    · rw [List.mem_singleton.mp hx]
      show s.pool.calls.length < (s.pool.calls ++ [_]).length
      simp

/-! ## The rank

A call on the pool costs six steps at most, an update and an event one each, and whoever causes them
pays for them. -/

/-- The steps the environment can take. A use by another call costs seven at most: itself, and the
    six of a call on the pool. -/
def PeerShared.load (s : PeerShared) : ℕ :=
  7 * s.others + s.pool.rank + s.broadcastQueue.length + s.events.length

/-- What a handler has before it: its own steps, and those it leaves to the environment. -/
def HandlerStage.weight : HandlerStage → ℕ
  | entering => 12
  | calling _ _ => 5
  | queueing _ _ _ => 4
  | announcing _ _ _ => 2
  | answered _ => 0

/-- A call on the pool is six more steps for it. -/
theorem rank_withCall (s : Dispatching) (command : Command) :
    (s.withCall command).rank = s.rank + 6 := by
  have hcalls : ((s.withCall command).calls.map PoolCall.rank).sum =
      (s.calls.map PoolCall.rank).sum + 6 := by
    rw [Dispatching.withCall, List.map_append, List.sum_append]
    rfl
  have hdone : (s.withCall command).done = s.done := rfl
  have hstages : (s.withCall command).stages = s.stages := rfl
  rw [Dispatching.rank, Dispatching.rank, hcalls, hdone, hstages]
  omega

/-! ## The handler verified

The obligations of `Gather.Verified`, one theorem each. -/

/-- What is not a call on the pool leaves the pool and the calls, and with them the invariant. -/
theorem PeerInv.off_pool (h : PeerInv pc p requests s) (hpool : s'.pool = s.pool)
    (hcalls : s'.calls = s.calls) : PeerInv pc p requests s' := by
  refine ⟨hpool ▸ h.sound, hpool ▸ h.running, hpool ▸ h.range, hcalls ▸ h.oneCall,
    hcalls ▸ h.oneRequest, ?_, hpool ▸ h.told⟩
  rw [hpool, hcalls]
  exact h.made

/-- It leaves what is known of a handler, too. -/
theorem HandlerStage.Holds.off_pool {k : ℕ} {l : HandlerStage} (hl : l.Holds requests k s)
    (hpool : s'.pool = s.pool) (hcalls : s'.calls = s.calls) : l.Holds requests k s' := by
  refine hl.grows ?_ ?_ ?_
  · rw [hpool]
    exact .refl _
  · rw [hcalls]
    exact fun _ hx => hx
  · rw [hcalls]
    exact fun _ hx => hx

/-- **A step of a handler.** -/
theorem handlerStep_ok (h : PeerInv pc p requests s) (hj : j.Holds requests i s)
    (hstep : HandlerStep pc requests i s j s' j') :
    PeerInv pc p requests s' ∧ j'.Holds requests i s' ∧
      (∀ k, k ≠ i → ∀ l : HandlerStage, l.Holds requests k s → l.Holds requests k s') ∧
      j'.weight + s'.load < j.weight + s.load := by
  cases hstep with
  | refuse now hreq hinvalid =>
    exact ⟨h, .refused _ now hreq hinvalid rfl hj, fun _ _ _ hl => hl,
      by simp [HandlerStage.weight]⟩
  -- the only step that touches the pool; the others' calls are not of this request
  | @call req now hreq hvalid hrange =>
    have hgrows := poolGrows_withCall s.pool (.getRateLimit (req.received now) { isOwner := true })
    refine ⟨h.call now hrange hj, ⟨by simp, ⟨req, now, hreq, rfl⟩,
        ⟨{ command := .getRateLimit (req.received now) { isOwner := true } }, ?_, rfl⟩⟩,
      fun k hk l hl => hl.grows hgrows (fun x hx => List.mem_append_left _ hx) ?_, ?_⟩
    · exact List.getElem?_concat_length
    · intro c hc
      rcases List.mem_append.mp hc with hc | hc
      · exact hc
      · exact absurd (Prod.mk.inj (List.mem_singleton.mp hc)).1 hk
    · simp only [HandlerStage.weight, PeerShared.load, rank_withCall]
      omega
  | @fail c r e result hresult herror =>
    exact ⟨h, .returned c r result hj hresult (by rw [herror]), fun _ _ _ hl => hl,
      by simp [HandlerStage.weight]⟩
  | reply hresult =>
    exact ⟨h, ⟨hj, hresult⟩, fun _ _ _ hl => hl, by simp [HandlerStage.weight]⟩
  | noUpdate hnone => exact ⟨h, hj, fun _ _ _ hl => hl, by simp [HandlerStage.weight]⟩
  | @queue c r update rl hupdate hroom =>
    have hj : HandlerStage.Holds requests i s (.announcing c r rl) := hj
    refine ⟨h.off_pool rfl rfl, hj.off_pool rfl rfl, fun _ _ _ hl => hl.off_pool rfl rfl, ?_⟩
    simp only [HandlerStage.weight, PeerShared.load, List.length_append, List.length_singleton]
    omega
  | @noChannel c r rl hnone =>
    exact ⟨h, .returned c r (.ok (.ok rl)) hj.1 hj.2 rfl, fun _ _ _ hl => hl,
      by simp [HandlerStage.weight]⟩
  | @announce c room r rl hchannel hroom =>
    have hj : HandlerStage.Holds requests i s (.answered rl) :=
      .returned c r (.ok (.ok rl)) hj.1 hj.2 rfl
    refine ⟨h.off_pool rfl rfl, hj.off_pool rfl rfl, fun _ _ _ hl => hl.off_pool rfl rfl, ?_⟩
    simp only [HandlerStage.weight, PeerShared.load, List.length_append, List.length_singleton]
    omega
  | @unheard c r rl call err hcall hctx =>
    exact ⟨h, .returned c r (.ok (.ok rl)) hj.1 hj.2 rfl, fun _ _ _ hl => hl,
      by simp [HandlerStage.weight]⟩

/-- **A step of everybody else.** -/
theorem peerEnv_ok (h : PeerInv pc p requests s) (henv : PeerEnv pc s s') :
    PeerInv pc p requests s' ∧
      (∀ k (l : HandlerStage), l.Holds requests k s → l.Holds requests k s') ∧
      s'.load < s.load := by
  cases henv with
  -- the pool's own rank goes down
  | @pool t hmove hdone =>
    have hlower := Dispatching.rank_lt hmove
    refine ⟨h.pool_grows hmove.1 hdone s.others,
      fun k l hl => hl.grows hmove.1.grows (fun _ hx => hx) (fun _ hx => hx), ?_⟩
    simp only [PeerShared.load]
    omega
  | broadcast hqueue =>
    refine ⟨h.off_pool rfl rfl, fun _ _ hl => hl.off_pool rfl rfl, ?_⟩
    simp only [PeerShared.load, hqueue, List.length_cons]
    omega
  | hear hevents =>
    refine ⟨h.off_pool rfl rfl, fun _ _ hl => hl.off_pool rfl rfl, ?_⟩
    simp only [PeerShared.load, hevents, List.length_cons]
    omega
  -- one use less is seven less, and the call costs six
  | @otherCall k command hothers hrange =>
    refine ⟨h.pool_grows (t := s.pool.withCall command) (.call command hrange) rfl k,
      fun k l hl => hl.grows (poolGrows_withCall s.pool command) (fun _ hx => hx)
        (fun _ hx => hx), ?_⟩
    simp only [PeerShared.load, rank_withCall, hothers]
    omega
  | otherUpdate r hothers hroom =>
    refine ⟨h.off_pool rfl rfl, fun _ _ hl => hl.off_pool rfl rfl, ?_⟩
    simp only [PeerShared.load, hothers, List.length_append, List.length_singleton]
    omega
  | otherEvent e hothers hchannel hroom =>
    refine ⟨h.off_pool rfl rfl, fun _ _ hl => hl.off_pool rfl rfl, ?_⟩
    simp only [PeerShared.load, hothers, List.length_append, List.length_singleton]
    omega

/-- Only the command of a call is applied for it. -/
theorem CallHistory.command_of_applied {c : ℕ} {command command' : Command} {now : ℤ}
    {past : List Happening} (h : CallHistory c command past)
    (hmem : .applied c now command' ∈ past) : command' = command := by
  cases h <;> simp_all

/-- **The reply to a `GetRateLimit`** is one. -/
theorem PeerInv.replied (h : PeerInv pc p requests s) {c : ℕ} {r : RateLimitReq}
    (hcalled : Called requests i c r s) {reply : Reply}
    (hreturned : .returned c (.ok reply) ∈ s.pool.history) :
    ∃ result, reply = .rateLimit result := by
  obtain ⟨call, hcall, hcommand⟩ := hcalled.command
  obtain ⟨before, now, command, after, hhistory, hreply⟩ := h.sound.replied c reply hreturned
  obtain ⟨ws, -, hprogress⟩ := h.sound.calls c call hcall
  -- the reply is that of a command applied for this call, which is its own
  have happlied : .applied c now command ∈ own c s.pool.history := by
    rw [hhistory]
    exact List.mem_filter.mpr ⟨by simp, by simp [Happening.call]⟩
  obtain rfl := hprogress.callHistory.command_of_applied happlied
  rw [hcommand, WorkerPool.handleCommand] at hreply
  split at hreply
  · cases hreply
  · exact ⟨_, (Option.some.inj hreply).symm⟩

/-- **A handler that waits for the pool** can go on, or the pool can: while it is open, a call that
    no worker and no context can move has returned. -/
theorem calling_goes_on (h : PeerInv pc p requests s) {c : ℕ} {r : RateLimitReq}
    (hcalled : Called requests i c r s) :
    (∃ s' j', HandlerStep pc requests i s (.calling c r) s' j') ∨ ∃ s', PeerEnv pc s s' := by
  -- either the pool can move, or all of its calls have come to an end
  rcases h.sound.goes_on with hquiet | ⟨t, hmove, hdone⟩
  · left
    obtain ⟨call, hcall, -⟩ := hcalled.command
    have hreturned : call.stage = .returned := by
      rcases hquiet.calls c call hcall with hstage | ⟨-, -, hclosed, -⟩
      · exact hstage
      · rw [h.running] at hclosed
        cases hclosed
    obtain ⟨ws, -, hprogress⟩ := h.sound.calls c call hcall
    obtain ⟨result, hresult⟩ := hprogress.result_of_returned hreturned
    have hresult := (List.mem_filter.mp hresult).1
    cases result with
    | error err =>
      exact ⟨_, _, .fail (.error err) hresult rfl⟩
    | ok reply =>
      obtain ⟨result, rfl⟩ := h.replied hcalled hresult
      cases result with
      | error e => exact ⟨_, _, .fail (.ok (.error e)) hresult rfl⟩
      | ok rl => exact ⟨_, _, .reply hresult⟩
  · exact .inr ⟨_, .pool hmove hdone⟩

/-- One update at most is handed on. -/
theorem updates_cases (r : RateLimitReq) : r.updates = [] ∨ ∃ update, r.updates = [update] := by
  unfold RateLimitReq.updates queueable
  split
  · rw [List.filter_singleton]
    cases r.afterwards.hits != 0 with
    | false => exact .inl rfl
    | true => exact .inr ⟨_, rfl⟩
  · exact .inl rfl

/-- **No handler waits for ever.** -/
theorem handler_goes_on (hbatch : 1 ≤ pc.globalBatchLimit)
    (hevents : ∀ room, pc.eventChannel = some room → 1 ≤ room) (h : PeerInv pc p requests s)
    (hi : i < requests.length) (hj : j.Holds requests i s)
    (hresult : (peerHandler pc requests).result j = none) :
    (∃ s' j', HandlerStep pc requests i s j s' j') ∨ ∃ s', PeerEnv pc s s' := by
  cases j with
  | entering =>
    left
    have hreq := List.getElem?_eq_getElem hi
    by_cases hvalid : validateMaxWait (requests[i].received 0) = ""
    · refine ⟨_, _, .call 0 hreq hvalid ?_⟩
      rw [received_hashKey]
      exact h.range _ (List.getElem_mem hi)
    · exact ⟨_, _, .refuse 0 hreq hvalid⟩
  | calling c r => exact calling_goes_on h hj
  | queueing c r rl =>
    rcases updates_cases r with hnone | ⟨update, hupdate⟩
    · exact .inl ⟨_, _, .noUpdate hnone⟩
    · -- there is room, or the broadcast loop can make some
      cases hqueue : s.broadcastQueue with
      | nil => exact .inl ⟨_, _, .queue hupdate (by rw [hqueue]; exact hbatch)⟩
      | cons r' rest => exact .inr ⟨_, .broadcast hqueue⟩
  | announcing c r rl =>
    cases hchannel : pc.eventChannel with
    | none => exact .inl ⟨_, _, .noChannel hchannel⟩
    -- likewise for the events
    | some room =>
      cases hqueue : s.events with
      | nil => exact .inl ⟨_, _, .announce hchannel (by rw [hqueue]; exact hevents room hchannel)⟩
      | cons e rest => exact .inr ⟨_, .hear hqueue⟩
  | answered rl => cases hresult

end Handler

/-- **The handler, verified.** -/
def verifiedHandler (pc : PeerConf) (p : WorkerPool) (requests : List RateLimitReq)
    (hbatch : 1 ≤ pc.globalBatchLimit)
    (hevents : ∀ room, pc.eventChannel = some room → 1 ≤ room) :
    Verified (peerHandler pc requests) (PeerEnv pc) requests.length where
  inv := PeerInv pc p requests
  holds := fun i s j => j.Holds requests i s
  load := PeerShared.load
  weight := HandlerStage.weight
  step := fun h _ hj hstep => by
    obtain ⟨hinv, hown, hothers, hlower⟩ := handlerStep_ok h hj hstep
    exact ⟨hinv, hown, fun k _ hk l hl => hothers k hk l hl, hlower⟩
  environment := fun h henv => by
    obtain ⟨hinv, hothers, hlower⟩ := peerEnv_ok h henv
    exact ⟨hinv, fun k _ l hl => hothers k l hl, hlower⟩
  goes_on := fun h hi hj hresult => handler_goes_on hbatch hevents h hi hj hresult

/-! ## The call

What the library gives, in terms of requests and responses. -/

/-- **How a request was answered.**  Its command was applied once and the response is what it got
    there; or the context ended, and the command was applied once at most; or it was turned away
    without a call. -/
inductive RequestAnswered (pc : PeerConf) (p : WorkerPool) (s : PeerShared) (i : ℕ)
    (req : RateLimitReq) (rl : RateLimitResp) : Prop
  | applied (c : ℕ) (now : ℤ) (result : Except String RateLimitResp) (hmine : (i, c) ∈ s.calls)
      (hhistory : CallHistory c (.getRateLimit (req.received now) { isOwner := true })
        (own c s.pool.history))
      (hanswers : Answers pc.conf pc.host p s.pool.history c (.rateLimit result))
      (hrl : rl = peerResponse (poolResult (.ok result)))
  | contextEnded (c : ℕ) (now : ℤ) (err : String) (hmine : (i, c) ∈ s.calls)
      (hhistory : CallHistory c (.getRateLimit (req.received now) { isOwner := true })
        (own c s.pool.history))
      (hctx : ∃ call, s.pool.calls[c]? = some call ∧ call.ctxErr = some err)
      (hrl : rl = peerResponse (poolResult (.error err)))
  | refused (now : ℤ) (hinvalid : validateMaxWait (req.received now) ≠ "")
      (hrl : rl = { error := validateMaxWait (req.received now) })
      (hnone : ∀ c, (i, c) ∉ s.calls)

/-- **The call is back**, with a response for every request at its index, each from a call of its
    own on the pool. -/
structure PeerAnswered (pc : PeerConf) (p : WorkerPool) (requests : List RateLimitReq)
    (t : Gathering PeerShared HandlerStage RateLimitResp) : Prop where
  returned : t.caller = .returned
  length : t.stored.length = requests.length
  oneCall : (t.shared.calls.map Prod.fst).Nodup
  oneRequest : (t.shared.calls.map Prod.snd).Nodup
  answers : ∀ i req, requests[i]? = some req → ∃ rl, t.stored[i]? = some (some rl) ∧
    RequestAnswered pc p t.shared i req rl

section Call
variable {pc : PeerConf} {p : WorkerPool} {requests : List RateLimitReq}

/-- What a handler knows at its end is how its request was answered. -/
theorem Answered.requestAnswered {s : PeerShared} {i : ℕ} {req : RateLimitReq} {rl : RateLimitResp}
    (h : Answered requests i s rl) (hinv : PeerInv pc p requests s)
    (hreq : requests[i]? = some req) : RequestAnswered pc p s i req rl := by
  cases h with
  | refused req' now hreq' hinvalid hrl hnone =>
    obtain rfl := Option.some.inj (hreq.symm.trans hreq')
    exact .refused now hinvalid hrl hnone
  | returned c r result hcalled hresult hrl =>
    obtain ⟨req', now, hreq', rfl⟩ := hcalled.request
    obtain rfl := Option.some.inj (hreq.symm.trans hreq')
    obtain ⟨call, hcall, hcommand⟩ := hcalled.command
    obtain ⟨ws, -, hprogress⟩ := hinv.sound.calls c call hcall
    have hhistory := hprogress.callHistory
    rw [hcommand] at hhistory
    cases result with
    | error err => exact .contextEnded c now err hcalled.mine hhistory (hinv.told c err hresult) hrl
    | ok result =>
      exact .applied c now result hcalled.mine hhistory (hinv.sound.replied c _ hresult) hrl

/-- A call that has gathered its results is back. -/
theorem peerAnswered_of_gathered {hbatch : 1 ≤ pc.globalBatchLimit}
    {hevents : ∀ room, pc.eventChannel = some room → 1 ≤ room}
    {t : Gathering PeerShared HandlerStage RateLimitResp}
    (h : Gathered (verifiedHandler pc p requests hbatch hevents) t) :
    PeerAnswered pc p requests t := by
  have hinv : PeerInv pc p requests t.shared := h.inv
  refine ⟨h.returned, h.length, hinv.oneCall, hinv.oneRequest, fun i req hreq => ?_⟩
  obtain ⟨rl, j, hstored, hresult, hholds⟩ := h.stored i (List.getElem?_eq_some_iff.mp hreq).1
  refine ⟨rl, hstored, ?_⟩
  cases j with
  | answered rl' =>
    obtain rfl := Option.some.inj hresult
    exact Answered.requestAnswered hholds hinv hreq
  | _ => cases hresult

end Call

/-- Two handlers at a time, room for one broadcast, and an event channel without buffer. -/
def twoHandlers : PeerConf := ⟨⟨300000000000⟩, .amd64, 2, 1, some 1⟩

/-- A pool of one worker, which other calls use three times. -/
def quietShared : PeerShared where
  pool := Dispatching.start (.new (fun _ => ⟨0, by decide⟩) 1 10 none)
  others := 3

/-- Two requests of one key. -/
def twoRequests : List RateLimitReq := [.sample 1 10 60000 0 5000 0, .sample 2 10 60000 0 5000 0]

end Gubernator
