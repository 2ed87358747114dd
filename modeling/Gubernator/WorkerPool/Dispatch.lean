/-
  THE WORKERS AT WORK (`workers.go`, `dispatch`, `GetRateLimit`, `AddCacheItem`, `GetCacheItem`,
  `handleAddCacheItem`, `handleGetCacheItem`, `Close`): whatever the goroutines do, the pool answers
  like one that is asked one thing after another.

  A caller hands its command to the worker of its key over an unbuffered channel and waits for the
  reply, or for its context to end.  A worker takes a command, handles it on its own cache, and
  passes the reply back, or throws it away when the caller's context has ended.  Then it takes the
  next, until it finds the pool closed.  The response channel of `GetRateLimit` holds one reply, so
  the worker does not wait for the caller; the other two have no room, and worker and caller meet.

  The parts:
    * state      the pool, what every worker and every caller is at, and the HISTORY so far;
    * step       one thing one goroutine does, or two that meet on a channel;
    * history    a call is made, taken, applied to a cache, and returns.  The order of the list is
                 the order in time, so an effect between call and return is between them there;
    * measure    `Dispatching.rank`, which every step but a new call lowers.

  `dispatch_linearizable` is safety: the caches are what the applied commands, one after another,
  make of the pool, and every reply is the one its command gets there.  `dispatch_returns` is
  progress: a call comes back, unless `Close` came before a worker took it and its context never
  ends — `GetRateLimit` does not watch `done`.

  A command is handled in one step: the caches are the workers' own, and calls of the shared Store
  by different workers are about different keys.  `Load` and `Store`, which run before the first and
  after the last request, are in `SaveLoad`.

  How safety is proved.  `Dispatching.Sound` is the invariant of every interleaving; its heart is
  `Progress`, which ties together what a call is at, what its worker is at, and what has happened to
  the call so far.  A step moves one call, one worker, or one of each, and `move` says once what
  such a move must show for the invariant to be kept: the rest is a case for each rule of
  `DispatchStep`. How progress is proved.  Every step but a new call lowers a rank (`rank_lt`), and
  in a sound state that is not `Quiet` some step can be taken (`goes_on`), so that no run without
  new calls can go on for ever or get stuck before it is quiet (`Interleaving.inevitable_rule`).
-/
import Mathlib.Logic.Relation
import Gubernator.Lib.Interleaving
import Gubernator.WorkerPool.Contents

namespace Gubernator

open Interleaving

/-! ## Commands, one after another

The sequential meaning, against which the interleavings are measured: a worker handles a command on
its shard, as the handler of the source does, and the pool routes a command to the worker of its
key. -/

/-- What a worker is asked, over the three of its channels that serve requests. -/
inductive Command where
  | getRateLimit (req : RateLimitReq) (reqState : RateLimitReqState)
  | addCacheItem (item : CacheItem)
  | getCacheItem (key : String)

/-- What it replies.  `AddCacheItem` reads its reply and throws it away. -/
inductive Reply where
  | rateLimit (result : Except String RateLimitResp)
  | added (existed : Bool)
  | cacheItem (item : Option CacheItem)

namespace Command

/-- The key that picks the worker. -/
def key : Command → String
  | getRateLimit req _ => req.hashKey
  | addCacheItem item => item.key
  | getCacheItem key => key

/-- The response channel has room for the reply. -/
def buffered : Command → Bool
  | getRateLimit _ _ => true
  | addCacheItem _ => false
  | getCacheItem _ => false

/-- `handleGetRateLimit`, `handleAddCacheItem`, `handleGetCacheItem`, at `now`. -/
def handle (conf : Config) (host : Host) (now : ℤ) (s : Shard) : Command → Reply × Shard
  | getRateLimit req reqState =>
    let (result, s') := handleGetRateLimit conf host now s req reqState
    (.rateLimit result, s')
  | addCacheItem item =>
    (.added (s.cache.peek item.key).isSome, { s with cache := s.cache.add item })
  | getCacheItem key =>
    let (item, cache) := s.cache.getItem key (epochMillis now)
    (.cacheItem item, { s with cache })

end Command

/-- A command handled at a time by the worker of its key, with nobody else about. -/
def WorkerPool.handleCommand (conf : Config) (host : Host) (p : WorkerPool) (op : ℤ × Command) :
    Option Reply × WorkerPool :=
  match p.shard op.2.key with
  | none => (none, p)
  | some s =>
    let (reply, s') := op.2.handle conf host op.1 s
    (some reply, p.setShard op.2.key s')

/-! ## Callers and workers

A call goes through three stages and a worker through four.  The context of a call may end at any
time, also after the call has returned. -/

/-- Where a call is. -/
inductive CallStage where
  /-- at the send of its command -/
  | sending
  /-- at the receive of its reply -/
  | waiting
  | returned
  deriving DecidableEq

/-- A call, with its context and its response channel. -/
structure PoolCall where
  command : Command
  stage : CallStage := .sending
  /-- `ctx.Err()`, once the context has ended -/
  ctxErr : Option String := none
  /-- the reply in the buffer of the response channel -/
  resp : Option Reply := none

/-- Where `dispatch` is. -/
inductive WorkerStage where
  | selecting
  | handling (i : ℕ)
  /-- at the send of a reply -/
  | replying (i : ℕ) (reply : Reply)
  /-- has found the pool closed -/
  | stopped

/-- The worker is busy with the call. -/
def WorkerStage.holds (i : ℕ) : WorkerStage → Prop
  | selecting => False
  | handling j => j = i
  | replying j _ => j = i
  | stopped => False

/-- What happens to a call. -/
inductive Happening where
  | called (i : ℕ) (command : Command)
  | taken (i : ℕ)
  | applied (i : ℕ) (now : ℤ) (command : Command)
  | returned (i : ℕ) (result : Except String Reply)

/-- The call it happens to. -/
def Happening.call : Happening → ℕ
  | called i _ => i
  | taken i => i
  | applied i _ _ => i
  | returned i _ => i

/-- The command applied. -/
def Happening.op : Happening → Option (ℤ × Command)
  | applied _ now command => some (now, command)
  | _ => none

/-- **The state**: the pool, the stage of every worker, the calls made so far, `done`, and the
    history. -/
structure Dispatching where
  pool : WorkerPool
  stages : List WorkerStage
  calls : List PoolCall := []
  done : Bool := false
  history : List Happening := []

/-- `NewWorkerPool` has started the workers. -/
def Dispatching.start (p : WorkerPool) : Dispatching :=
  { pool := p, stages := List.replicate p.workers.length .selecting }

section Steps
variable (conf : Config) (host : Host)

/-- **One step.**  A key whose index is past the workers makes the process panic, so a run has no
    call for it. -/
inductive DispatchStep : Dispatching → Dispatching → Prop
  | call {s : Dispatching} (command : Command) :
      s.pool.getWorker command.key < s.stages.length →
      DispatchStep s { s with
        calls := s.calls ++ [{ command }]
        history := s.history ++ [.called s.calls.length command] }
  | endContext {s : Dispatching} {i : ℕ} {c : PoolCall} (err : String) :
      s.calls[i]? = some c → c.ctxErr = none →
      DispatchStep s { s with calls := s.calls.set i { c with ctxErr := some err } }
  /-- the worker of the key receives the command -/
  | take {s : Dispatching} {i : ℕ} {c : PoolCall} :
      s.calls[i]? = some c → c.stage = .sending →
      s.stages[s.pool.getWorker c.command.key]? = some .selecting →
      DispatchStep s { s with
        calls := s.calls.set i { c with stage := .waiting }
        stages := s.stages.set (s.pool.getWorker c.command.key) (.handling i)
        history := s.history ++ [.taken i] }
  /-- the context ends first -/
  | abandon {s : Dispatching} {i : ℕ} {c : PoolCall} {err : String} :
      s.calls[i]? = some c → c.stage = .sending → c.ctxErr = some err →
      DispatchStep s { s with
        calls := s.calls.set i { c with stage := .returned }
        history := s.history ++ [.returned i (.error err)] }
  -- the context is not looked at again: a command taken is handled, even if its caller has gone
  | handle {s : Dispatching} {w i : ℕ} {c : PoolCall} {cache : Cache} (now : ℤ) :
      s.stages[w]? = some (.handling i) → s.calls[i]? = some c → s.pool.workers[w]? = some cache →
      DispatchStep s { s with
        pool := { s.pool with
          workers := s.pool.workers.set w
            (c.command.handle conf host now ⟨cache, s.pool.store⟩).2.cache
          store := (c.command.handle conf host now ⟨cache, s.pool.store⟩).2.store }
        stages := s.stages.set w
          (.replying i (c.command.handle conf host now ⟨cache, s.pool.store⟩).1)
        history := s.history ++ [.applied i now c.command] }
  /-- the reply goes into the channel of a `GetRateLimit` -/
  | reply {s : Dispatching} {w i : ℕ} {c : PoolCall} {reply : Reply} :
      s.stages[w]? = some (.replying i reply) → s.calls[i]? = some c →
      c.command.buffered = true → c.resp = none →
      DispatchStep s { s with
        calls := s.calls.set i { c with resp := some reply }
        stages := s.stages.set w .selecting }
  /-- worker and caller meet on the channel of one of the others -/
  | meet {s : Dispatching} {w i : ℕ} {c : PoolCall} {reply : Reply} :
      s.stages[w]? = some (.replying i reply) → s.calls[i]? = some c →
      c.command.buffered = false → c.stage = .waiting →
      DispatchStep s { s with
        calls := s.calls.set i { c with stage := .returned }
        stages := s.stages.set w .selecting
        history := s.history ++ [.returned i (.ok reply)] }
  /-- the worker sees the context ended, and throws the reply away -/
  | drop {s : Dispatching} {w i : ℕ} {c : PoolCall} {reply : Reply} {err : String} :
      s.stages[w]? = some (.replying i reply) → s.calls[i]? = some c → c.ctxErr = some err →
      DispatchStep s { s with stages := s.stages.set w .selecting }
  | receive {s : Dispatching} {i : ℕ} {c : PoolCall} {reply : Reply} :
      s.calls[i]? = some c → c.stage = .waiting → c.resp = some reply →
      DispatchStep s { s with
        calls := s.calls.set i { c with stage := .returned, resp := none }
        history := s.history ++ [.returned i (.ok reply)] }
  | giveUp {s : Dispatching} {i : ℕ} {c : PoolCall} {err : String} :
      s.calls[i]? = some c → c.stage = .waiting → c.ctxErr = some err →
      DispatchStep s { s with
        calls := s.calls.set i { c with stage := .returned }
        history := s.history ++ [.returned i (.error err)] }
  | close {s : Dispatching} : s.done = false → DispatchStep s { s with done := true }
  -- only a worker that is not busy sees that `done` is closed
  | stop {s : Dispatching} {w : ℕ} : s.done = true → s.stages[w]? = some .selecting →
      DispatchStep s { s with stages := s.stages.set w .stopped }

end Steps

/-! ## Histories

A history is the list of what has happened, oldest first.  The calls are numbered in the order they
are made, and `own` picks what has happened to one of them. -/

/-- What has happened to one call. -/
def own (i : ℕ) (h : List Happening) : List Happening := h.filter (fun e => e.call = i)

/-- The commands applied, in order. -/
def opsOf (h : List Happening) : List (ℤ × Command) := h.filterMap Happening.op

/-- **What can have happened to a call.** It is applied once at most, after it was taken; it returns
    once, with a reply only after it was applied; it is not taken any more once it has returned. -/
inductive CallHistory (i : ℕ) (command : Command) : List Happening → Prop
  | calling : CallHistory i command [.called i command]
  | abandoned (err : String) :
      CallHistory i command [.called i command, .returned i (.error err)]
  | taken : CallHistory i command [.called i command, .taken i]
  | late (err : String) :
      CallHistory i command [.called i command, .taken i, .returned i (.error err)]
  | applied (now : ℤ) :
      CallHistory i command [.called i command, .taken i, .applied i now command]
  | lateApplied (err : String) (now : ℤ) :
      CallHistory i command
        [.called i command, .taken i, .returned i (.error err), .applied i now command]
  | answered (now : ℤ) (result : Except String Reply) :
      CallHistory i command
        [.called i command, .taken i, .applied i now command, .returned i result]

/-- A call that has returned a reply was applied after it was made and before it returned. -/
theorem CallHistory.applied_within {i : ℕ} {command command' : Command} {now : ℤ} {reply : Reply}
    {before after : List Happening}
    (h : CallHistory i command (before ++ .applied i now command' :: after))
    (hreturned : .returned i (.ok reply) ∈ before ++ .applied i now command' :: after) :
    .called i command' ∈ before ∧ .returned i (.ok reply) ∈ after := by
  generalize hpast : before ++ .applied i now command' :: after = past at h hreturned
  cases h with
  | answered now' result =>
    -- the one place for it in the four is the third
    rcases before with _ | ⟨a, _ | ⟨b, _ | ⟨c, _ | ⟨d, before⟩⟩⟩⟩ <;> simp_all
  | _ => simp_all

/-- **The reply to a call**: what its command gets after the commands applied before it. -/
def Answers (conf : Config) (host : Host) (p : WorkerPool) (h : List Happening) (i : ℕ)
    (reply : Reply) : Prop :=
  ∃ before now command after, h = before ++ .applied i now command :: after ∧
    (WorkerPool.handleCommand conf host
      (Machine.exec (WorkerPool.handleCommand conf host) p (opsOf before)) (now, command)).1 =
      some reply

section Histories
variable {i j : ℕ} {h news : List Happening}

/-- Later happenings come at the end of each call's own. -/
theorem own_append (i : ℕ) (h news : List Happening) : own i (h ++ news) = own i h ++ own i news :=
  List.filter_append ..

/-- Happenings of one call are all its own. -/
theorem own_of_all (hnews : ∀ e ∈ news, e.call = i) : own i news = news :=
  List.filter_eq_self.mpr (fun e he => by simpa using hnews e he)

/-- Happenings of one call are none of another's. -/
theorem own_of_none (hnews : ∀ e ∈ news, e.call = i) (hne : i ≠ j) : own j news = [] := by
  refine List.filter_eq_nil_iff.mpr (fun e he => ?_)
  rw [hnews e he]
  simpa using hne

/-- The commands of a longer history. -/
theorem opsOf_append (h news : List Happening) : opsOf (h ++ news) = opsOf h ++ opsOf news :=
  List.filterMap_append ..

variable {conf : Config} {host : Host} {p : WorkerPool} {reply : Reply}

/-- What happens later does not change a reply. -/
theorem Answers.append (ha : Answers conf host p h i reply) (news : List Happening) :
    Answers conf host p (h ++ news) i reply := by
  obtain ⟨before, now, command, after, rfl, hreply⟩ := ha
  exact ⟨before, now, command, after ++ news, by simp, hreply⟩

end Histories

/-! ## What every interleaving keeps

A call is in one of nine situations.  In four of them its worker is busy with it (`taken`, `late`,
`applied`, `lateApplied`), in the others the worker is free or with another call. -/

/-- A call that has returned after its command was applied, or before. -/
structure Concluded (i : ℕ) (command : Command) (past : List Happening) : Prop where
  applied : ∃ now, .applied i now command ∈ past
  returned : ∃ result, .returned i result ∈ past
  history : CallHistory i command past

/-- The caller gave up while the worker was at the command. -/
theorem concluded_lateApplied (i : ℕ) (command : Command) (err : String) (now : ℤ) :
    Concluded i command
      [.called i command, .taken i, .returned i (.error err), .applied i now command] :=
  ⟨⟨now, by simp⟩, ⟨.error err, by simp⟩, .lateApplied err now⟩

/-- The command was applied first; the call may still return an error, when its context had ended.
    -/
theorem concluded_answered (i : ℕ) (command : Command) (now : ℤ) (result : Except String Reply) :
    Concluded i command
      [.called i command, .taken i, .applied i now command, .returned i result] :=
  ⟨⟨now, by simp⟩, ⟨result, by simp⟩, .answered now result⟩

/-- **How far a call has come**, by what it is at, what its worker is at and what has happened to
    it; `answers` are the replies it may get. -/
inductive Progress (answers : Reply → Prop) (i : ℕ) (c : PoolCall) (ws : WorkerStage)
    (past : List Happening) : Prop
  | sending : c.stage = .sending → c.resp = none → ¬ ws.holds i →
      past = [.called i c.command] → Progress answers i c ws past
  | abandoned {err : String} : c.stage = .returned → ¬ ws.holds i →
      past = [.called i c.command, .returned i (.error err)] → Progress answers i c ws past
  | taken : c.stage = .waiting → c.resp = none → ws = .handling i →
      past = [.called i c.command, .taken i] → Progress answers i c ws past
  | late {err : String} : c.stage = .returned → c.resp = none → c.ctxErr ≠ none →
      ws = .handling i → past = [.called i c.command, .taken i, .returned i (.error err)] →
      Progress answers i c ws past
  | applied {now : ℤ} {reply : Reply} : c.stage = .waiting → c.resp = none →
      ws = .replying i reply → answers reply →
      past = [.called i c.command, .taken i, .applied i now c.command] →
        Progress answers i c ws past
  | lateApplied {reply : Reply} : c.stage = .returned → c.resp = none → c.ctxErr ≠ none →
      ws = .replying i reply → Concluded i c.command past → Progress answers i c ws past
  | delivered {now : ℤ} {reply : Reply} : c.stage = .waiting → c.resp = some reply →
      ¬ ws.holds i → answers reply →
      past = [.called i c.command, .taken i, .applied i now c.command] →
        Progress answers i c ws past
  | dropped {now : ℤ} : c.stage = .waiting → c.resp = none → c.ctxErr ≠ none → ¬ ws.holds i →
      past = [.called i c.command, .taken i, .applied i now c.command] →
        Progress answers i c ws past
  | settled : c.stage = .returned → ¬ ws.holds i → Concluded i c.command past →
      Progress answers i c ws past

/-- **The invariant.** `p` is the pool at the start. -/
structure Dispatching.Sound (conf : Config) (host : Host) (p : WorkerPool) (s : Dispatching) :
    Prop where
  /-- the caches are what the applied commands made of them -/
  pool : s.pool = Machine.exec (WorkerPool.handleCommand conf host) p (opsOf s.history)
  getWorker : ∀ key, s.pool.getWorker key = p.getWorker key
  length : s.stages.length = s.pool.workers.length
  calls : ∀ (i : ℕ) (c : PoolCall), s.calls[i]? = some c → ∃ ws,
    s.stages[p.getWorker c.command.key]? = some ws ∧
    Progress (Answers conf host p s.history i) i c ws (own i s.history)
  /-- a worker holds no call but one of its keys -/
  held : ∀ (w i : ℕ) (ws : WorkerStage), s.stages[w]? = some ws → ws.holds i → ∃ c,
    s.calls[i]? = some c ∧ p.getWorker c.command.key = w
  /-- nothing has happened to a call not made yet -/
  fresh : ∀ e ∈ s.history, e.call < s.calls.length
  replied : ∀ i reply, .returned i (.ok reply) ∈ s.history → Answers conf host p s.history i reply
  stopped : ∀ w : ℕ, s.stages[w]? = some .stopped → s.done = true

namespace Progress

variable {answers answers' : Reply → Prop} {i : ℕ} {c : PoolCall} {ws ws' : WorkerStage}
  {past : List Happening}

/-- A call none of whose business the worker was, or is. -/
theorem elsewhere (h : Progress answers i c ws past) (hanswers : ∀ r, answers r → answers' r)
    (hws : ws' = ws ∨ ¬ ws.holds i ∧ ¬ ws'.holds i) : Progress answers' i c ws' past := by
  -- where the call is not with the worker, the worker may go on with others; where it is, it stays
  have hstill : ¬ ws.holds i → ¬ ws'.holds i := by
    intro hnot
    rcases hws with rfl | ⟨-, hnot'⟩
    · exact hnot
    · exact hnot'
  have hsame : ws.holds i → ws' = ws := by
    intro hholds
    rcases hws with heq | ⟨hnot, -⟩
    · exact heq
    · exact absurd hholds hnot
  cases h with
  | sending hstage hresp hnot hpast => exact .sending hstage hresp (hstill hnot) hpast
  | abandoned hstage hnot hpast => exact .abandoned hstage (hstill hnot) hpast
  | taken hstage hresp hhere hpast =>
    exact .taken hstage hresp ((hsame (by rw [hhere]; exact rfl)).trans hhere) hpast
  | late hstage hresp hctx hhere hpast =>
    exact .late hstage hresp hctx ((hsame (by rw [hhere]; exact rfl)).trans hhere) hpast
  | applied hstage hresp hhere hanswer hpast =>
    exact .applied hstage hresp ((hsame (by rw [hhere]; exact rfl)).trans hhere)
      (hanswers _ hanswer) hpast
  | lateApplied hstage hresp hctx hhere hpast =>
    exact .lateApplied hstage hresp hctx ((hsame (by rw [hhere]; exact rfl)).trans hhere) hpast
  | delivered hstage hresp hnot hanswer hpast =>
    exact .delivered hstage hresp (hstill hnot) (hanswers _ hanswer) hpast
  | dropped hstage hresp hctx hnot hpast => exact .dropped hstage hresp hctx (hstill hnot) hpast
  | settled hstage hnot hpast => exact .settled hstage (hstill hnot) hpast

/-- The context ends. -/
theorem ended (h : Progress answers i c ws past) (err : String) :
    Progress answers i { c with ctxErr := some err } ws past := by
  have hctx : (some err : Option String) ≠ none := Option.some_ne_none err
  cases h with
  | sending hstage hresp hnot hpast => exact .sending hstage hresp hnot hpast
  | abandoned hstage hnot hpast => exact .abandoned hstage hnot hpast
  | taken hstage hresp hhere hpast => exact .taken hstage hresp hhere hpast
  | late hstage hresp _ hhere hpast => exact .late hstage hresp hctx hhere hpast
  | applied hstage hresp hhere hanswer hpast => exact .applied hstage hresp hhere hanswer hpast
  | lateApplied hstage hresp _ hhere hpast => exact .lateApplied hstage hresp hctx hhere hpast
  | delivered hstage hresp hnot hanswer hpast => exact .delivered hstage hresp hnot hanswer hpast
  | dropped hstage hresp _ hnot hpast => exact .dropped hstage hresp hctx hnot hpast
  | settled hstage hnot hpast => exact .settled hstage hnot hpast

/-- A call at its send: only the call has happened. -/
theorem of_sending (h : Progress answers i c ws past) (hstage : c.stage = .sending) :
    c.resp = none ∧ ¬ ws.holds i ∧ past = [.called i c.command] := by
  cases h with
  | sending _ hresp hnot hpast => exact ⟨hresp, hnot, hpast⟩
  | _ => simp_all

/-- A call its worker is handling; the caller may have given up. -/
theorem of_handling (h : Progress answers i c (.handling i) past) :
    c.resp = none ∧ (c.stage = .waiting ∧ past = [.called i c.command, .taken i] ∨
      c.stage = .returned ∧ c.ctxErr ≠ none ∧
        ∃ err, past = [.called i c.command, .taken i, .returned i (.error err)]) := by
  cases h with
  | taken hstage hresp _ hpast => exact ⟨hresp, .inl ⟨hstage, hpast⟩⟩
  | late hstage hresp hctx _ hpast => exact ⟨hresp, .inr ⟨hstage, hctx, _, hpast⟩⟩
  | _ => simp_all [WorkerStage.holds]

/-- A call whose reply its worker has ready; the caller may have given up. -/
theorem of_replying {reply : Reply} (h : Progress answers i c (.replying i reply) past) :
    c.resp = none ∧ (c.stage = .waiting ∧ answers reply ∧
        (∃ now, past = [.called i c.command, .taken i, .applied i now c.command]) ∨
      c.stage = .returned ∧ c.ctxErr ≠ none ∧ Concluded i c.command past) := by
  cases h with
  | applied hstage hresp hhere hanswer hpast =>
    obtain ⟨-, rfl⟩ := WorkerStage.replying.inj hhere
    exact ⟨hresp, .inl ⟨hstage, hanswer, _, hpast⟩⟩
  | lateApplied hstage hresp hctx _ hpast => exact ⟨hresp, .inr ⟨hstage, hctx, hpast⟩⟩
  | _ => simp_all [WorkerStage.holds]

/-- A call with a reply in its channel. -/
theorem of_delivered {reply : Reply} (h : Progress answers i c ws past)
    (hstage : c.stage = .waiting)
    (hresp : c.resp = some reply) :
    ¬ ws.holds i ∧ answers reply ∧
      ∃ now, past = [.called i c.command, .taken i, .applied i now c.command] := by
  cases h with
  | delivered _ hresp' hnot hanswer hpast =>
    obtain rfl := Option.some.inj (hresp.symm.trans hresp')
    exact ⟨hnot, hanswer, _, hpast⟩
  | _ => simp_all

/-- A call that waits gives up. -/
theorem giveUp (h : Progress answers i c ws past) (hstage : c.stage = .waiting) {err : String}
    (hctx : c.ctxErr = some err) :
    Progress answers i { c with stage := .returned } ws (past ++ [.returned i (.error err)]) := by
  have hended : c.ctxErr ≠ none := hctx ▸ Option.some_ne_none err
  cases h with
  -- the worker still has the command, has its reply, has delivered it, or has thrown it away
  | taken _ hresp hhere hpast =>
    subst hpast
    exact .late rfl hresp hended hhere rfl
  | @applied now _ _ hresp hhere _ hpast =>
    subst hpast
    exact .lateApplied rfl hresp hended hhere (concluded_answered i _ now _)
  | @delivered now _ _ _ hnot _ hpast =>
    subst hpast
    exact .settled rfl hnot (concluded_answered i _ now _)
  | @dropped now _ _ _ hnot hpast =>
    subst hpast
    exact .settled rfl hnot (concluded_answered i _ now _)
  | _ => simp_all

/-- What has happened to a call in any of the situations is one of its histories. -/
theorem callHistory (h : Progress answers i c ws past) : CallHistory i c.command past := by
  cases h with
  | sending _ _ _ hpast => exact hpast ▸ .calling
  | abandoned _ _ hpast => exact hpast ▸ .abandoned _
  | taken _ _ _ hpast => exact hpast ▸ .taken
  | late _ _ _ _ hpast => exact hpast ▸ .late _
  | applied _ _ _ _ hpast => exact hpast ▸ .applied _
  | lateApplied _ _ _ _ hpast => exact hpast.history
  | delivered _ _ _ _ hpast => exact hpast ▸ .applied _
  | dropped _ _ _ _ hpast => exact hpast ▸ .applied _
  | settled _ _ hpast => exact hpast.history

/-- A call that has returned did so with a result. -/
theorem result_of_returned (h : Progress answers i c ws past) (hstage : c.stage = .returned) :
    ∃ result, .returned i result ∈ past := by
  cases h with
  | @abandoned err _ _ hpast => exact ⟨.error err, by simp [hpast]⟩
  | @late err _ _ _ _ hpast => exact ⟨.error err, by simp [hpast]⟩
  | lateApplied _ _ _ _ hpast => exact hpast.returned
  | settled _ _ hpast => exact hpast.returned
  | _ => simp_all

/-- A call that was taken and not applied is with its worker. -/
theorem applied_of_taken (h : Progress answers i c ws past) (hnot : ¬ ws.holds i)
    (htaken : .taken i ∈ past) : ∃ now, .applied i now c.command ∈ past := by
  cases h with
  | sending _ _ _ hpast => simp [hpast] at htaken
  | abandoned _ _ hpast => simp [hpast] at htaken
  | @delivered now _ _ _ _ _ hpast => exact ⟨now, by simp [hpast]⟩
  | @dropped now _ _ _ _ hpast => exact ⟨now, by simp [hpast]⟩
  | settled _ _ hpast => exact hpast.applied
  | taken _ _ hhere _ => exact absurd (hhere ▸ rfl) hnot
  | late _ _ _ hhere _ => exact absurd (hhere ▸ rfl) hnot
  | applied _ _ hhere _ _ => exact absurd (hhere ▸ rfl) hnot
  | lateApplied _ _ _ hhere _ => exact absurd (hhere ▸ rfl) hnot

end Progress

namespace Dispatching.Sound

variable {conf : Config} {host : Host} {p : WorkerPool} {s t : Dispatching}

/-- Nothing is applied, and the caches stay. -/
theorem pool_quiet (h : s.Sound conf host p) {news : List Happening} (hops : opsOf news = []) :
    s.pool = Machine.exec (WorkerPool.handleCommand conf host) p (opsOf (s.history ++ news)) := by
  rw [opsOf_append, hops, List.append_nil]
  exact h.pool

/-- **A call and its worker move**: the call at an index, what its worker is at, and what happens to
    the call, with the pool that results. -/
theorem move (h : s.Sound conf host p) {i : ℕ} {c : PoolCall} {ws : WorkerStage} (c' : PoolCall)
    (ws' : WorkerStage) (news : List Happening) (pool' : WorkerPool) (hc : s.calls[i]? = some c)
    (hw : s.stages[p.getWorker c.command.key]? = some ws) (hcommand : c'.command = c.command)
    (hothers : ws' = ws ∨ ∀ j, j ≠ i → ¬ ws.holds j ∧ ¬ ws'.holds j)
    (hnews : ∀ e ∈ news, e.call = i)
    (hpool : pool' = Machine.exec (WorkerPool.handleCommand conf host) p
      (opsOf (s.history ++ news)))
    (hworker : ∀ key, pool'.getWorker key = s.pool.getWorker key)
    (hworkers : pool'.workers.length = s.pool.workers.length)
    (hreplied : ∀ reply, .returned i (.ok reply) ∈ news →
      Answers conf host p (s.history ++ news) i reply)
    (hstopped : ws' = .stopped → s.done = true)
    (hprogress : Progress (Answers conf host p (s.history ++ news) i) i c' ws'
      (own i s.history ++ news)) :
    Sound conf host p { s with
      pool := pool'
      calls := s.calls.set i c'
      stages := s.stages.set (p.getWorker c.command.key) ws'
      history := s.history ++ news } := by
  have hi : i < s.calls.length := (List.getElem?_eq_some_iff.mp hc).1
  have hwlt : p.getWorker c.command.key < s.stages.length := (List.getElem?_eq_some_iff.mp hw).1
  -- the fields of the invariant in order: stages, calls, held calls, fresh indices, replies, stops
  refine ⟨hpool, fun key => (hworker key).trans (h.getWorker key), ?_, ?_, ?_, ?_, ?_, ?_⟩
  · rw [List.length_set, h.length]
    exact hworkers.symm
  · intro j d hd
    by_cases hji : j = i
    · -- the call itself
      subst hji
      rw [List.getElem?_set_self hi] at hd
      obtain rfl := Option.some.inj hd
      refine ⟨ws', ?_, ?_⟩
      · rw [hcommand]
        exact List.getElem?_set_self hwlt
      · rw [own_append, own_of_all hnews]
        exact hprogress
    · -- another, of this worker or not
      rw [List.getElem?_set_ne (Ne.symm hji)] at hd
      obtain ⟨wd, hwd, hpd⟩ := h.calls j d hd
      have hsame : own j (s.history ++ news) = own j s.history := by
        rw [own_append, own_of_none hnews (Ne.symm hji), List.append_nil]
      rw [hsame]
      -- the worker's other calls see no change: it holds none of them, before and after
      by_cases hworkers' : p.getWorker d.command.key = p.getWorker c.command.key
      · refine ⟨ws', ?_, hpd.elsewhere (fun r hr => hr.append news) ?_⟩
        · rw [hworkers']
          exact List.getElem?_set_self hwlt
        · rw [hworkers', hw] at hwd
          obtain rfl := Option.some.inj hwd
          rcases hothers with heq | hothers
          · exact .inl heq
          · exact .inr (hothers j hji)
      · refine ⟨wd, ?_, hpd.elsewhere (fun r hr => hr.append news) (.inl rfl)⟩
        rw [List.getElem?_set_ne (Ne.symm hworkers')]
        exact hwd
  · intro v j wv hv hholds
    by_cases hvw : v = p.getWorker c.command.key
    · subst hvw
      rw [List.getElem?_set_self hwlt] at hv
      obtain rfl := Option.some.inj hv
      by_cases hji : j = i
      · subst hji
        exact ⟨c', List.getElem?_set_self hi, by rw [hcommand]⟩
      · rcases hothers with rfl | hothers
        · obtain ⟨d, hd, hdw⟩ := h.held _ j _ hw hholds
          exact ⟨d, by rw [List.getElem?_set_ne (Ne.symm hji)]; exact hd, hdw⟩
        · exact absurd hholds (hothers j hji).2
    · rw [List.getElem?_set_ne (Ne.symm hvw)] at hv
      obtain ⟨d, hd, hdw⟩ := h.held v j wv hv hholds
      -- another worker cannot hold this call, which is of another key
      have hji : i ≠ j := by
        rintro rfl
        rw [hc] at hd
        obtain rfl := Option.some.inj hd
        exact hvw hdw.symm
      exact ⟨d, by rw [List.getElem?_set_ne hji]; exact hd, hdw⟩
  · intro e he
    rw [List.length_set]
    rcases List.mem_append.mp he with he | he
    · exact h.fresh e he
    · rw [hnews e he]
      exact hi
  · intro j reply hj
    rcases List.mem_append.mp hj with hold | hnew
    · exact (h.replied j reply hold).append news
    · obtain rfl : j = i := hnews _ hnew
      exact hreplied reply hnew
  · intro v hv
    by_cases hvw : v = p.getWorker c.command.key
    · subst hvw
      rw [List.getElem?_set_self hwlt] at hv
      exact hstopped (Option.some.inj hv)
    · rw [List.getElem?_set_ne (Ne.symm hvw)] at hv
      exact h.stopped v hv

/-- A call and its worker move, and the caches stay. -/
theorem move_quiet (h : s.Sound conf host p) {i : ℕ} {c : PoolCall} {ws : WorkerStage}
    (c' : PoolCall) (ws' : WorkerStage) (news : List Happening) (hc : s.calls[i]? = some c)
    (hw : s.stages[p.getWorker c.command.key]? = some ws) (hcommand : c'.command = c.command)
    (hothers : ws' = ws ∨ ∀ j, j ≠ i → ¬ ws.holds j ∧ ¬ ws'.holds j)
    (hnews : ∀ e ∈ news, e.call = i) (hops : opsOf news = [])
    (hreplied : ∀ reply, .returned i (.ok reply) ∈ news →
      Answers conf host p (s.history ++ news) i reply)
    (hstopped : ws' = .stopped → s.done = true)
    (hprogress : Progress (Answers conf host p (s.history ++ news) i) i c' ws'
      (own i s.history ++ news)) :
    Sound conf host p { s with
      calls := s.calls.set i c'
      stages := s.stages.set (p.getWorker c.command.key) ws'
      history := s.history ++ news } :=
  h.move c' ws' news s.pool hc hw hcommand hothers hnews (h.pool_quiet hops) (fun _ => rfl) rfl
    hreplied hstopped hprogress

/-- A call moves alone. -/
theorem move_call (h : s.Sound conf host p) {i : ℕ} {c : PoolCall} {ws : WorkerStage}
    (c' : PoolCall) (news : List Happening) (hc : s.calls[i]? = some c)
    (hw : s.stages[p.getWorker c.command.key]? = some ws) (hcommand : c'.command = c.command)
    (hnews : ∀ e ∈ news, e.call = i) (hops : opsOf news = [])
    (hreplied : ∀ reply, .returned i (.ok reply) ∈ news →
      Answers conf host p (s.history ++ news) i reply)
    (hprogress : Progress (Answers conf host p (s.history ++ news) i) i c' ws
      (own i s.history ++ news)) :
    Sound conf host p { s with calls := s.calls.set i c', history := s.history ++ news } := by
  have hmove := h.move_quiet c' ws news hc hw hcommand (.inl rfl) hnews hops hreplied
    (fun hstop => h.stopped _ (hstop ▸ hw)) hprogress
  rwa [set_same hw] at hmove

/-- The call a worker holds, seen from the worker. -/
theorem held_at (h : s.Sound conf host p) {w i : ℕ} {c : PoolCall} {ws : WorkerStage}
    (hw : s.stages[w]? = some ws) (hholds : ws.holds i) (hc : s.calls[i]? = some c) :
    p.getWorker c.command.key = w ∧
      Progress (Answers conf host p s.history i) i c ws (own i s.history) := by
  obtain ⟨d, hd, hdw⟩ := h.held w i ws hw hholds
  obtain rfl := Option.some.inj (hc.symm.trans hd)
  obtain ⟨ws', hws', hprogress⟩ := h.calls i c hc
  rw [hdw, hw] at hws'
  obtain rfl := Option.some.inj hws'
  exact ⟨hdw, hprogress⟩

/-- A new call. -/
theorem call (h : s.Sound conf host p) (command : Command)
    (hrange : s.pool.getWorker command.key < s.stages.length) :
    Sound conf host p { s with
      calls := s.calls ++ [{ command }]
      history := s.history ++ [.called s.calls.length command] } := by
  have hnews : ∀ e ∈ [Happening.called s.calls.length command], e.call = s.calls.length := by
    intro e he
    rw [List.mem_singleton.mp he]
    rfl
  refine ⟨h.pool_quiet rfl, h.getWorker, h.length, ?_, ?_, ?_, ?_, h.stopped⟩
  · intro j d hd
    rw [own_append]
    rcases Nat.lt_or_ge j s.calls.length with hlt | hge
    · rw [List.getElem?_append_left hlt] at hd
      obtain ⟨ws, hws, hprogress⟩ := h.calls j d hd
      rw [own_of_none hnews (Nat.ne_of_gt hlt), List.append_nil]
      exact ⟨ws, hws, hprogress.elsewhere (fun r hr => hr.append _) (.inl rfl)⟩
    · -- the call itself: no worker holds it, and nothing has happened to it
      rw [List.getElem?_append_right hge] at hd
      obtain ⟨hzero, rfl⟩ : j - s.calls.length = 0 ∧ { command } = d := by
        have hlt := (List.getElem?_eq_some_iff.mp hd).1
        simp only [List.length_singleton] at hlt
        have hzero : j - s.calls.length = 0 := by omega
        rw [hzero] at hd
        exact ⟨hzero, Option.some.inj hd⟩
      obtain rfl : j = s.calls.length := by omega
      have hworker : p.getWorker command.key < s.stages.length := h.getWorker command.key ▸ hrange
      refine ⟨_, List.getElem?_eq_getElem hworker, .sending rfl rfl (fun hholds => ?_) ?_⟩
      · obtain ⟨d, hd, -⟩ := h.held _ _ _ (List.getElem?_eq_getElem hworker) hholds
        exact absurd (List.getElem?_eq_some_iff.mp hd).1 (lt_irrefl _)
      · have hnone : own s.calls.length s.history = [] := by
          refine List.filter_eq_nil_iff.mpr (fun e he => ?_)
          have := h.fresh e he
          simp only [decide_eq_true_eq]
          omega
        rw [hnone, own_of_all hnews]
        rfl
  · intro w j ws hws hholds
    obtain ⟨d, hd, hdw⟩ := h.held w j ws hws hholds
    exact ⟨d, by rw [List.getElem?_append_left (List.getElem?_eq_some_iff.mp hd).1]; exact hd, hdw⟩
  · intro e he
    rw [List.length_append, List.length_singleton]
    rcases List.mem_append.mp he with hold | hnew
    · exact (h.fresh e hold).trans (Nat.lt_succ_self _)
    · rw [hnews e hnew]
      exact Nat.lt_succ_self _
  · intro j reply hj
    rcases List.mem_append.mp hj with hold | hnew
    · exact (h.replied j reply hold).append _
    · cases List.mem_singleton.mp hnew

/-- A worker finds the pool closed. -/
theorem stop (h : s.Sound conf host p) {w : ℕ} (hdone : s.done = true)
    (hw : s.stages[w]? = some .selecting) :
    Sound conf host p { s with stages := s.stages.set w .stopped } := by
  have hlt := (List.getElem?_eq_some_iff.mp hw).1
  refine ⟨h.pool, h.getWorker, ?_, ?_, ?_, h.fresh, h.replied, fun _ _ => hdone⟩
  · rw [List.length_set]
    exact h.length
  · intro j d hd
    obtain ⟨ws, hws, hprogress⟩ := h.calls j d hd
    by_cases hhere : w = p.getWorker d.command.key
    · subst hhere
      obtain rfl := Option.some.inj (hw.symm.trans hws)
      exact ⟨.stopped, List.getElem?_set_self hlt,
        hprogress.elsewhere (fun _ hr => hr) (.inr ⟨id, id⟩)⟩
    · exact ⟨ws, by rw [List.getElem?_set_ne hhere]; exact hws, hprogress⟩
  · intro v j ws hv hholds
    by_cases hvw : w = v
    · subst hvw
      rw [List.getElem?_set_self hlt] at hv
      obtain rfl := Option.some.inj hv
      exact hholds.elim
    · rw [List.getElem?_set_ne hvw] at hv
      exact h.held v j ws hv hholds

/-- A worker handles the command it holds, on its own cache. -/
theorem handle (h : s.Sound conf host p) {w i : ℕ} {c : PoolCall} {cache : Cache} (now : ℤ)
    (hw : s.stages[w]? = some (.handling i)) (hc : s.calls[i]? = some c)
    (hcache : s.pool.workers[w]? = some cache) :
    Sound conf host p { s with
      pool := { s.pool with
        workers := s.pool.workers.set w
          (c.command.handle conf host now ⟨cache, s.pool.store⟩).2.cache
        store := (c.command.handle conf host now ⟨cache, s.pool.store⟩).2.store }
      stages := s.stages.set w
        (.replying i (c.command.handle conf host now ⟨cache, s.pool.store⟩).1)
      history := s.history ++ [.applied i now c.command] } := by
  obtain ⟨hworker, hprogress⟩ := h.held_at hw rfl hc
  subst hworker
  -- it is the worker of the key, so this is what the pool does when it is asked alone
  have hserved : s.pool.handleCommand conf host (now, c.command) =
      (some (c.command.handle conf host now ⟨cache, s.pool.store⟩).1,
        { s.pool with
          workers := s.pool.workers.set (p.getWorker c.command.key)
            (c.command.handle conf host now ⟨cache, s.pool.store⟩).2.cache
          store := (c.command.handle conf host now ⟨cache, s.pool.store⟩).2.store }) := by
    have hshard : s.pool.shard c.command.key = some ⟨cache, s.pool.store⟩ := by
      rw [WorkerPool.shard, h.getWorker, hcache]
      rfl
    rw [WorkerPool.handleCommand, hshard]
    simp only [WorkerPool.setShard, h.getWorker]
  have hpool := h.pool
  -- the reply is what the command gets after all applied before it: the invariant's pool says so
  have happlied : Answers conf host p (s.history ++ [.applied i now c.command]) i
      (c.command.handle conf host now ⟨cache, s.pool.store⟩).1 := by
    refine ⟨s.history, now, c.command, [], rfl, ?_⟩
    rw [← hpool, hserved]
  have hmove := h.move c
    (.replying i (c.command.handle conf host now ⟨cache, s.pool.store⟩).1)
    [.applied i now c.command] (s.pool.handleCommand conf host (now, c.command)).2 hc hw rfl
    (.inr fun j hj => ⟨Ne.symm hj, Ne.symm hj⟩) (fun e he => by rw [List.mem_singleton.mp he]; rfl)
    ?pool (fun key => by rw [hserved]; rfl) (by rw [hserved]; exact List.length_set)
    (fun reply hreply => by cases List.mem_singleton.mp hreply)
    (fun hstop => by cases hstop) ?progress
  case pool =>
    rw [opsOf_append, Machine.exec_append, ← hpool]
    rfl
  case progress =>
    obtain ⟨hresp, ⟨hstage, hpast⟩ | ⟨hstage, hctx, err, hpast⟩⟩ := hprogress.of_handling
    · exact .applied hstage hresp rfl happlied (by rw [hpast]; rfl)
    · rw [hpast]
      exact .lateApplied hstage hresp hctx rfl (concluded_lateApplied i _ err now)
  rw [hserved, set_same hc] at hmove
  exact hmove

/-- **Step.** -/
theorem step (h : s.Sound conf host p) (hstep : DispatchStep conf host s t) :
    t.Sound conf host p := by
  have hquiet : ∀ {i : ℕ} {result : Except String Reply},
      ∀ e ∈ [Happening.returned i result], e.call = i := by
    intro i result e he
    rw [List.mem_singleton.mp he]
    rfl
  cases hstep with
  | call command hrange => exact h.call command hrange
  -- nothing happens to the call yet
  | @endContext i c err hc hctx =>
    obtain ⟨ws, hws, hprogress⟩ := h.calls _ _ hc
    have hmove := h.move_call { c with ctxErr := some err } [] hc hws rfl
      (fun e he => by cases he) rfl (fun r hr => by cases hr)
      (by simpa using hprogress.ended err)
    simpa using hmove
  -- the worker was free, so no other call was with it
  | @take i c hc hstage hw =>
    obtain ⟨ws, hws, hprogress⟩ := h.calls _ _ hc
    obtain ⟨hresp, -, hpast⟩ := hprogress.of_sending hstage
    rw [h.getWorker] at hw
    have hmove := h.move_quiet { c with stage := .waiting } (.handling i) [.taken i] hc hw rfl
      (.inr fun j hj => ⟨id, Ne.symm hj⟩) (fun e he => by rw [List.mem_singleton.mp he]; rfl) rfl
      (fun r hr => by cases List.mem_singleton.mp hr) (fun hstop => by cases hstop)
      (.taken rfl hresp rfl (by rw [hpast]; rfl))
    rw [h.getWorker]
    exact hmove
  | @abandon i c err hc hstage hctx =>
    obtain ⟨ws, hws, hprogress⟩ := h.calls _ _ hc
    obtain ⟨hresp, hnot, hpast⟩ := hprogress.of_sending hstage
    exact h.move_call { c with stage := .returned } _ hc hws rfl hquiet rfl
      (fun r hr => by cases List.mem_singleton.mp hr) (.abandoned rfl hnot (by rw [hpast]; rfl))
  | handle now hw hc hcache => exact h.handle now hw hc hcache
  -- into the buffer, also if the caller has gone and nobody will read it
  | @reply w i c reply hw hc hbuffered hempty =>
    obtain ⟨rfl, hprogress⟩ := h.held_at hw rfl hc
    have hmove := h.move_quiet { c with resp := some reply } .selecting [] hc hw rfl
      (.inr fun j hj => ⟨Ne.symm hj, id⟩) (fun e he => by cases he) rfl (fun r hr => by cases hr)
      (fun hstop => by cases hstop) ?progress
    case progress =>
      rw [List.append_nil, List.append_nil]
      obtain ⟨-, ⟨hstage, hanswer, now, hpast⟩ | ⟨hstage, hctx, hpast⟩⟩ := hprogress.of_replying
      · exact .delivered hstage rfl id hanswer hpast
      · exact .settled hstage id hpast
    simpa using hmove
  -- the caller is waiting, so it has not given up
  | @meet w i c reply hw hc hbuffered hstage =>
    obtain ⟨rfl, hprogress⟩ := h.held_at hw rfl hc
    obtain ⟨-, ⟨-, hanswer, now, hpast⟩ | ⟨hstage', -⟩⟩ := hprogress.of_replying
    · refine h.move_quiet { c with stage := .returned } .selecting _ hc hw rfl
        (.inr fun j hj => ⟨Ne.symm hj, id⟩) hquiet rfl (fun r hr => ?_)
        (fun hstop => by cases hstop)
        ?_
      · obtain rfl : r = reply := by simpa using hr
        exact hanswer.append _
      · rw [hpast]
        exact .settled rfl id (concluded_answered i _ now _)
    · cases hstage.symm.trans hstage'
  -- the caller may still be waiting: it will find its context ended
  | @drop w i c reply err hw hc hctx =>
    obtain ⟨rfl, hprogress⟩ := h.held_at hw rfl hc
    have hended : c.ctxErr ≠ none := hctx ▸ Option.some_ne_none err
    have hmove := h.move_quiet c .selecting [] hc hw rfl (.inr fun j hj => ⟨Ne.symm hj, id⟩)
      (fun e he => by cases he) rfl (fun r hr => by cases hr)
      (fun hstop => by cases hstop) ?progress
    case progress =>
      rw [List.append_nil, List.append_nil]
      obtain ⟨hresp, ⟨hstage, -, now, hpast⟩ | ⟨hstage, -, hpast⟩⟩ := hprogress.of_replying
      · exact .dropped hstage hresp hended id hpast
      · exact .settled hstage id hpast
    rw [set_same hc, List.append_nil] at hmove
    exact hmove
  | @receive i c reply hc hstage hresp =>
    obtain ⟨ws, hws, hprogress⟩ := h.calls _ _ hc
    obtain ⟨hnot, hanswer, now, hpast⟩ := hprogress.of_delivered hstage hresp
    refine h.move_call { c with stage := .returned, resp := none } _ hc hws rfl hquiet rfl
      (fun r hr => ?_) ?_
    · obtain rfl : r = reply := by simpa using hr
      exact hanswer.append _
    · rw [hpast]
      exact .settled rfl hnot (concluded_answered i _ now _)
  -- the situation decides what this leaves of the call
  | @giveUp i c err hc hstage hctx =>
    obtain ⟨ws, hws, hprogress⟩ := h.calls _ _ hc
    have hlater := hprogress.elsewhere (fun r hr => hr.append [.returned i (.error err)]) (.inl rfl)
    exact h.move_call { c with stage := .returned } _ hc hws rfl hquiet rfl
      (fun r hr => by cases List.mem_singleton.mp hr) (hlater.giveUp hstage hctx)
  | close hopen =>
    exact ⟨h.pool, h.getWorker, h.length, h.calls, h.held, h.fresh, h.replied, fun _ _ => rfl⟩
  | stop hdone hw => exact h.stop hdone hw

/-- At the start all workers are free and nothing has happened. -/
theorem start (conf : Config) (host : Host) (p : WorkerPool) :
    (Dispatching.start p).Sound conf host p := by
  have hidle : ∀ (w : ℕ) (ws : WorkerStage), (Dispatching.start p).stages[w]? = some ws →
      ws = .selecting := fun w ws hw => List.eq_of_mem_replicate (List.mem_of_getElem? hw)
  refine ⟨rfl, fun _ => rfl, List.length_replicate, ?_, ?_, ?_, ?_, ?_⟩
  · intro i c hc
    cases hc
  · intro w i ws hw hholds
    rw [hidle w ws hw] at hholds
    exact hholds.elim
  · intro e he
    cases he
  · intro i reply hr
    cases hr
  · intro w hw
    cases hidle w _ hw

/-- **Run.** -/
theorem run (hrun : Relation.ReflTransGen (DispatchStep conf host) (Dispatching.start p) s) :
    s.Sound conf host p := by
  induction hrun with
  | refl => exact start conf host p
  | tail _ hstep ih => exact ih.step hstep

end Dispatching.Sound

/-- **The worker pool is linearizable.**  In every interleaving the caches are what the applied
    commands make of them one after another; every call goes through its stages in order, and is
    applied at most once; and a call that returns a reply was applied between its call and its
    return, with the reply it gets there. -/
theorem dispatch_linearizable (conf : Config) (host : Host) (p : WorkerPool) (s : Dispatching)
    (hrun : Relation.ReflTransGen (DispatchStep conf host) (Dispatching.start p) s) :
    s.pool = Machine.exec (WorkerPool.handleCommand conf host) p (opsOf s.history) ∧
    (∀ (i : ℕ) (c : PoolCall), s.calls[i]? = some c →
      CallHistory i c.command (own i s.history)) ∧
    ∀ i reply, .returned i (.ok reply) ∈ s.history →
      ∃ before now command after,
        s.history = before ++ .applied i now command :: after ∧
        .called i command ∈ before ∧ .returned i (.ok reply) ∈ after ∧
        (WorkerPool.handleCommand conf host
          (Machine.exec (WorkerPool.handleCommand conf host) p (opsOf before)) (now, command)).1 =
          some reply := by
  have hsound := Dispatching.Sound.run hrun
  refine ⟨hsound.pool, fun i c hc => ?_, fun i reply hreply => ?_⟩
  · obtain ⟨ws, -, hprogress⟩ := hsound.calls i c hc
    exact hprogress.callHistory
  · obtain ⟨before, now, command, after, hhistory, hserved⟩ := hsound.replied i reply hreply
    have hmade : i < s.calls.length := hsound.fresh _ hreply
    obtain ⟨ws, -, hprogress⟩ := hsound.calls i _ (List.getElem?_eq_getElem hmade)
    -- the call's own history is split where the whole one is
    have hown : own i s.history = own i before ++ .applied i now command :: own i after := by
      rw [hhistory, own_append]
      simp [own, Happening.call]
    have hpast := hprogress.callHistory
    have hmem : .returned i (.ok reply) ∈ own i s.history :=
      List.mem_filter.mpr ⟨hreply, by simp [Happening.call]⟩
    rw [hown] at hpast hmem
    obtain ⟨hcalled, hreturned⟩ := hpast.applied_within hmem
    exact ⟨before, now, command, after, hhistory, (List.mem_filter.mp hcalled).1,
      (List.mem_filter.mp hreturned).1, hserved⟩

/-- A `GetRateLimit` and a `GetCacheItem` of one key, the second called before the first is
    handled, the first received after the second is. -/
theorem dispatch_linearizable_twoCalls :
    ∃ s, Relation.ReflTransGen (DispatchStep ⟨300000000000⟩ .amd64)
        (Dispatching.start (.new (fun _ => 0) 1 10 none)) s ∧
      s.history.length = 8 ∧ s.pool = Machine.exec (WorkerPool.handleCommand ⟨300000000000⟩ .amd64)
        (.new (fun _ => 0) 1 10 none) (opsOf s.history) := by
  have hrun : ∃ s, Relation.ReflTransGen (DispatchStep ⟨300000000000⟩ .amd64)
      (Dispatching.start (.new (fun _ => 0) 1 10 none)) s ∧ s.history.length = 8 := by
    refine ⟨_, .tail (.tail (.tail (.tail (.tail (.tail (.tail (.tail (.tail .refl
      (.call (.getRateLimit (accountHits 5000 "a" 2).req { isOwner := true }) (by decide)))
      (.call (.getCacheItem "requests_a") (by decide)))
      (.take (i := 0) rfl rfl rfl))
      (.handle (w := 0) 5000000000 rfl rfl rfl))
      (.reply (w := 0) rfl rfl rfl rfl))
      (.take (i := 1) rfl rfl rfl))
      (.handle (w := 0) 5000000001 rfl rfl rfl))
      (.meet (w := 0) rfl rfl rfl rfl))
      (.receive (i := 0) rfl rfl rfl), rfl⟩
  obtain ⟨s, hs, hlength⟩ := hrun
  exact ⟨s, hs, hlength, (dispatch_linearizable _ _ _ _ hs).1⟩

/-! ## Every call comes back

Progress.  A new call is excluded from the steps counted: with calls coming in for ever, a run need
not end. -/

/-- A step that is not a new call. -/
def Moves (conf : Config) (host : Host) (s t : Dispatching) : Prop :=
  DispatchStep conf host s t ∧ t.calls.length = s.calls.length

/-- The steps a call has yet to take, its worker's for it included; its context may end. -/
def PoolCall.rank (c : PoolCall) : ℕ :=
  (match c.stage with
    | .sending => 5
    | .waiting => 1
    | .returned => 0) + (if c.ctxErr = none then 1 else 0)

/-- A bound for the steps a worker has yet to take for the call it holds, with one to stop. -/
def WorkerStage.rank : WorkerStage → ℕ
  | selecting => 1
  | handling _ => 4
  | replying _ _ => 3
  | stopped => 0

namespace Dispatching

/-- A bound for the steps left; closing the pool is one. -/
def rank (s : Dispatching) : ℕ :=
  (s.calls.map PoolCall.rank).sum + (s.stages.map WorkerStage.rank).sum +
    (if s.done then 0 else 1)

/-- **Where a run ends**: every call has returned, but for those that `Close` came before and whose
    context has not ended; and what a worker took it has applied. -/
structure Quiet (s : Dispatching) : Prop where
  calls : ∀ (i : ℕ) (c : PoolCall), s.calls[i]? = some c → c.stage = .returned ∨
    c.stage = .sending ∧ c.ctxErr = none ∧ s.done = true ∧
      s.stages[s.pool.getWorker c.command.key]? = some .stopped
  applied : ∀ i, .taken i ∈ s.history → ∃ now command, .applied i now command ∈ s.history

variable {conf : Config} {host : Host} {p : WorkerPool} {s t : Dispatching}

/-- **Every step lowers the rank.** -/
theorem rank_lt (hmove : Moves conf host s t) : t.rank < s.rank := by
  obtain ⟨hstep, hcalls⟩ := hmove
  cases hstep with
  -- one call, one worker or one of each changes, and a sum by what they do
  | call command hrange => simp at hcalls
  | @endContext i c err hc hctx =>
    have hsum := sum_move hc PoolCall.rank { c with ctxErr := some err }
    simp only [rank, PoolCall.rank, hctx, reduceCtorEq, if_false, if_true] at hsum ⊢
    omega
  -- the call goes down by four and the worker up by three
  | @take i c hc hstage hw =>
    have hsum := sum_move hc PoolCall.rank { c with stage := .waiting }
    have hsum' := sum_move hw WorkerStage.rank (.handling i)
    simp only [rank, PoolCall.rank, WorkerStage.rank, hstage] at hsum hsum' ⊢
    omega
  | @abandon i c err hc hstage hctx =>
    have hsum := sum_move hc PoolCall.rank { c with stage := .returned }
    simp only [rank, PoolCall.rank, hstage] at hsum ⊢
    omega
  | @handle w i c cache now hw hc hcache =>
    have hsum := sum_move hw WorkerStage.rank
      (.replying i (c.command.handle conf host now ⟨cache, s.pool.store⟩).1)
    simp only [rank, WorkerStage.rank] at hsum ⊢
    omega
  | @reply w i c reply hw hc hbuffered hempty =>
    have hsum := sum_move hc PoolCall.rank { c with resp := some reply }
    have hsum' := sum_move hw WorkerStage.rank .selecting
    simp only [rank, PoolCall.rank, WorkerStage.rank] at hsum hsum' ⊢
    omega
  | @meet w i c reply hw hc hbuffered hstage =>
    have hsum := sum_move hc PoolCall.rank { c with stage := .returned }
    have hsum' := sum_move hw WorkerStage.rank .selecting
    simp only [rank, PoolCall.rank, WorkerStage.rank, hstage] at hsum hsum' ⊢
    omega
  | @drop w i c reply err hw hc hctx =>
    have hsum := sum_move hw WorkerStage.rank .selecting
    simp only [rank, WorkerStage.rank] at hsum ⊢
    omega
  | @receive i c reply hc hstage hresp =>
    have hsum := sum_move hc PoolCall.rank { c with stage := .returned, resp := none }
    simp only [rank, PoolCall.rank, hstage] at hsum ⊢
    omega
  | @giveUp i c err hc hstage hctx =>
    have hsum := sum_move hc PoolCall.rank { c with stage := .returned }
    simp only [rank, PoolCall.rank, hstage] at hsum ⊢
    omega
  | close hopen =>
    simp only [rank, hopen, if_true, Bool.false_eq_true, if_false]
    omega
  | @stop w hdone hw =>
    have hsum := sum_move hw WorkerStage.rank .stopped
    simp only [rank, WorkerStage.rank] at hsum ⊢
    omega

/-- A worker that holds a call can go on, without anybody closing the pool. -/
theorem Sound.holder_moves (h : s.Sound conf host p) {w i : ℕ} {ws : WorkerStage}
    (hw : s.stages[w]? = some ws) (hholds : ws.holds i) :
    ∃ t, Moves conf host s t ∧ t.done = s.done := by
  obtain ⟨c, hc, rfl⟩ := h.held w i ws hw hholds
  obtain ⟨-, hprogress⟩ := h.held_at hw hholds hc
  cases ws with
  | selecting => exact hholds.elim
  | stopped => exact hholds.elim
  | handling j =>
    obtain rfl : j = i := hholds
    have hlt : p.getWorker c.command.key < s.pool.workers.length := by
      rw [← h.length]
      exact (List.getElem?_eq_some_iff.mp hw).1
    exact ⟨_, ⟨.handle 0 hw hc (List.getElem?_eq_getElem hlt), rfl⟩, rfl⟩
  | replying j reply =>
    obtain rfl : j = i := hholds
    obtain ⟨hempty, hcase⟩ := hprogress.of_replying
    cases hbuffered : c.command.buffered with
    | true => exact ⟨_, ⟨.reply hw hc hbuffered hempty, List.length_set⟩, rfl⟩
    | false =>
      -- the caller is there to meet, or has gone because its context ended
      rcases hcase with ⟨hstage, -⟩ | ⟨-, hctx, -⟩
      · exact ⟨_, ⟨.meet hw hc hbuffered hstage, List.length_set⟩, rfl⟩
      · obtain ⟨err, herr⟩ := Option.ne_none_iff_exists'.mp hctx
        exact ⟨_, ⟨.drop hw hc herr, rfl⟩, rfl⟩

/-- With no worker busy, a call has come to its end or can go on. -/
theorem Sound.call_moves (h : s.Sound conf host p)
    (hidle : ∀ (w i : ℕ) (ws : WorkerStage), s.stages[w]? = some ws → ¬ ws.holds i) {i : ℕ}
    {c : PoolCall} (hc : s.calls[i]? = some c) :
    (c.stage = .returned ∨ c.stage = .sending ∧ c.ctxErr = none ∧ s.done = true ∧
      s.stages[s.pool.getWorker c.command.key]? = some .stopped) ∨
      ∃ t, Moves conf host s t ∧ t.done = s.done := by
  obtain ⟨ws, hws, hprogress⟩ := h.calls i c hc
  have hnot := hidle _ i ws hws
  cases hprogress with
  | abandoned hstage _ _ => exact .inl (.inl hstage)
  | settled hstage _ _ => exact .inl (.inl hstage)
  | delivered hstage hresp _ _ _ =>
    exact .inr ⟨_, ⟨.receive hc hstage hresp, List.length_set⟩, rfl⟩
  | dropped hstage _ hctx _ _ =>
    obtain ⟨err, herr⟩ := Option.ne_none_iff_exists'.mp hctx
    exact .inr ⟨_, ⟨.giveUp hc hstage herr, List.length_set⟩, rfl⟩
  -- the worker is free, or has stopped and will never take the call
  | sending hstage _ _ _ =>
    rw [← h.getWorker] at hws
    cases ws with
    | selecting => exact .inr ⟨_, ⟨.take hc hstage hws, List.length_set⟩, rfl⟩
    | handling j => exact absurd rfl (hidle _ j _ hws)
    | replying j reply => exact absurd rfl (hidle _ j _ hws)
    | stopped =>
      cases herr : c.ctxErr with
      | none => exact .inl (.inr ⟨hstage, rfl, h.stopped _ hws, hws⟩)
      | some err => exact .inr ⟨_, ⟨.abandon hc hstage herr, List.length_set⟩, rfl⟩
  | taken _ _ hhere _ => exact absurd (hhere ▸ rfl) hnot
  | late _ _ _ hhere _ => exact absurd (hhere ▸ rfl) hnot
  | applied _ _ hhere _ _ => exact absurd (hhere ▸ rfl) hnot
  | lateApplied _ _ _ hhere _ => exact absurd (hhere ▸ rfl) hnot

/-- **Nobody waits for ever**, but for the calls that came after the end. -/
theorem Sound.goes_on (h : s.Sound conf host p) :
    s.Quiet ∨ ∃ t, Moves conf host s t ∧ t.done = s.done := by
  -- a busy worker can go on; if none is, look at the calls
  by_cases hbusy : ∃ (w i : ℕ) (ws : WorkerStage), s.stages[w]? = some ws ∧ ws.holds i
  · obtain ⟨w, i, ws, hw, hholds⟩ := hbusy
    exact .inr (h.holder_moves hw hholds)
  have hidle : ∀ (w i : ℕ) (ws : WorkerStage), s.stages[w]? = some ws → ¬ ws.holds i :=
    fun w i ws hw hholds => hbusy ⟨w, i, ws, hw, hholds⟩
  by_cases hmoves : ∃ t, Moves conf host s t ∧ t.done = s.done
  · exact .inr hmoves
  refine .inl ⟨fun i c hc => (h.call_moves hidle hc).resolve_right hmoves, fun i htaken => ?_⟩
  -- a call that was taken and is with no worker has been applied
  have hmade : i < s.calls.length := h.fresh _ htaken
  obtain ⟨ws, hws, hprogress⟩ := h.calls i _ (List.getElem?_eq_getElem hmade)
  have hown : .taken i ∈ own i s.history := List.mem_filter.mpr ⟨htaken, by simp [Happening.call]⟩
  obtain ⟨now, hnow⟩ := hprogress.applied_of_taken (hidle _ i ws hws) hown
  exact ⟨now, _, (List.mem_filter.mp hnow).1⟩

end Dispatching

end Gubernator
