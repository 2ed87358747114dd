/-
  BATCHES BETWEEN PEERS are small enough to be accepted, if the configured limits are.

  `GetPeerRateLimits` refuses a call of more than `maxBatchSize` requests as a whole.  Two loops
  make such calls.  Their local queue or map grows by at most one entry at a time, and is sent as
  soon as it holds as many as the limit says; a batch so holds at most that many, whether the test
  is `≥` or `=`.  What happens to a batch then only divides it:  `sendBatch` leaves out the callers
  that have gone, `sendHits` groups the hits by owner.

  `SetDefaults` refuses a `BatchLimit` above `maxBatchSize`.  It does not look at
  `GlobalBatchLimit`, so the hits of a peer with a larger one can all be lost.

  The proof goes the same way for both loops: an invariant bounds what is collected while the loop
  waits (strictly, so that one more still fits), what it has sent, and what is left of a batch under
  way; each event keeps it, and a run does by induction. That the bound is exact takes one run: as
  many keys as the limit, all with the same owner, are sent in a single call of that size
  (`runAsyncHits_oneOwner`).
-/
import Gubernator.Batching
import Gubernator.BatchLoop
import Gubernator.GetRateLimits

namespace Gubernator

open ClientCall (maxBatchSize)

/-! ## The configuration and the receiver

The numbers on both sides: what a peer sends is bounded by its own configuration, what it accepts by
a constant.  Only one of the two limits is compared with that constant. -/

/-- `BehaviorConfig`; a `time.Duration` is in nanoseconds. -/
structure BehaviorConfig where
  batchTimeout : ℤ := 0
  batchWait : ℤ := 0
  batchLimit : ℤ := 0
  disableBatching : Bool := false
  globalSyncWait : ℤ := 0
  globalTimeout : ℤ := 0
  globalBatchLimit : ℤ := 0
  forceGlobal : Bool := false
  globalPeerRequestsConcurrency : ℤ := 0
  scheduleMaxWait : ℤ := 0
  deriving DecidableEq, Repr

/-- `setter.SetDefault`: a zero value is none. -/
def setDefault (value default : ℤ) : ℤ := if value = 0 then default else value

/-- What `SetDefaults` makes of the `Behaviors`. -/
def BehaviorConfig.setDefaults (b : BehaviorConfig) : Except String BehaviorConfig :=
  let b₁ := { b with
    batchTimeout := setDefault b.batchTimeout 500000000
    batchLimit := setDefault b.batchLimit maxBatchSize
    batchWait := setDefault b.batchWait 500000
    globalTimeout := setDefault b.globalTimeout 500000000
    globalBatchLimit := setDefault b.globalBatchLimit maxBatchSize
    globalSyncWait := setDefault b.globalSyncWait 100000000
    globalPeerRequestsConcurrency := setDefault b.globalPeerRequestsConcurrency 100 }
  if b₁.scheduleMaxWait < 0 then .error "Behaviors.ScheduleMaxWait cannot be negative"
  else if (maxBatchSize : ℤ) < b₁.batchLimit then .error "Behaviors.BatchLimit cannot exceed '1000'"
  else .ok { b₁ with scheduleMaxWait := setDefault b₁.scheduleMaxWait 300000000000 }

/-- What is accepted: the limits as they are or by default, the batch limit within bounds. -/
theorem BehaviorConfig.setDefaults_ok {b b' : BehaviorConfig} (h : b.setDefaults = .ok b') :
    b'.batchLimit ≤ maxBatchSize ∧
      b'.globalBatchLimit = setDefault b.globalBatchLimit maxBatchSize := by
  unfold BehaviorConfig.setDefaults at h
  dsimp only at h
  -- the two refusals, first of a negative wait and then of the batch limit
  split at h
  · cases h
  · split at h
    · cases h
    · rename_i hlimit
      obtain rfl := Except.ok.inj h
      exact ⟨not_lt.mp hlimit, rfl⟩

/-- The first check of `GetPeerRateLimits`. -/
def getPeerRateLimitsError {β : Type} (requests : List β) : Option String :=
  if maxBatchSize < requests.length then
    some "'PeerRequest.rate_limits' list too large; max size is '1000'"
  else none

/-! ## `runBatch` and `sendBatch`

The client of one peer.  A request passes from the queue to the collected ones, from there into a
`sendBatch` of its own, which examines them one by one and then makes its call with the live ones.
-/

/-- The requests a `sendBatch` may yet make its call for. -/
def Batch.size : Batch → ℕ
  | .examining queue live => queue.length + live.length
  | .calling live => live.length
  | .answering _ => 0

/-- **Batches of at most `n` requests**, and calls. -/
structure Pipe.Sized (n : ℕ) (p : Pipe) : Prop where
  /-- Strictly fewer: there is room for the next request. -/
  collected : ∀ c, p.collected = some c → c.length < n
  batches : ∀ b ∈ p.batches, b.size ≤ n
  calls : ∀ c ∈ p.calls, c.length ≤ n

namespace Pipe.Sized

variable {n : ℕ} {p : Pipe}

/-- A new `sendBatch`. -/
theorem start (h : p.Sized n) {queue : List ℕ} (hqueue : queue.length ≤ n) :
    ∀ b ∈ p.batches ++ [.examining queue []], b.size ≤ n := by
  intro b hb
  rcases List.mem_append.mp hb with hb | hb
  · exact h.batches b hb
  · obtain rfl := List.mem_singleton.mp hb
    simpa [Batch.size] using hqueue

/-- A `sendBatch` that goes on with no more requests. -/
theorem goOn (h : p.Sized n) {i : ℕ} {b b' : Batch} (hb : p.batches[i]? = some b)
    (hsize : b'.size ≤ b.size) : ∀ x ∈ p.batches.set i b', x.size ≤ n := by
  intro x hx
  rcases List.mem_or_eq_of_mem_set hx with hx | rfl
  · exact h.batches x hx
  · exact hsize.trans (h.batches b (List.mem_of_getElem? hb))

/-- The loop takes a request from the queue, and starts a `sendBatch` if that makes `n`; at the end
    of a closed queue it starts one for what is left. -/
theorem take (hn : 0 < n) (h : p.Sized n) (closed : Bool) : (p.take n closed).Sized n := by
  unfold Pipe.take
  split
  · exact h
  · rename_i collected r rest hcollected hqueue
    -- fewer than `n` were collected, so with this one there are at most `n`
    have hlength : (collected ++ [r]).length ≤ n := by
      have := h.collected _ hcollected
      simpa using this
    dsimp only
    split
    · refine ⟨?_, h.start hlength, h.calls⟩
      intro c hc
      obtain rfl := Option.some.inj hc
      exact hn
    · rename_i hroom
      refine ⟨?_, h.batches, h.calls⟩
      intro c hc
      obtain rfl := Option.some.inj hc
      exact not_le.mp hroom
  · rename_i collected hcollected hqueue
    split
    · refine ⟨fun c hc => (by cases hc), ?_, h.calls⟩
      dsimp only
      split
      · exact h.batches
      · exact h.start (h.collected _ hcollected).le
    · exact h

/-- The timer starts a `sendBatch` for what is collected. -/
theorem tick (hn : 0 < n) (h : p.Sized n) : p.tick.Sized n := by
  unfold Pipe.tick
  split
  · exact h
  · exact h
  · rename_i collected hcollected
    refine ⟨?_, h.start (h.collected _ hcollected).le, h.calls⟩
    intro c hc
    obtain rfl := Option.some.inj hc
    exact hn

end Pipe.Sized

section Client
variable {n : ℕ} {s : PeerClient}

/-- A caller's step that leaves the requests where they are. -/
theorem sized_atCaller (h : s.pipe.Sized n) {i : ℕ}
    {f : PeerClient → ℕ → Caller → Option (ℕ × Response) × PeerClient}
    (hf : ∀ c, OwnStep s i c (f s i c).2) : (s.atCaller i f).2.pipe.Sized n := by
  unfold PeerClient.atCaller
  split
  · rename_i c _
    rw [(hf c).1]
    exact h
  · exact h

/-- A caller without batching makes a batch of one itself; the others join the queue. -/
theorem sized_send (hn : 0 < n) (h : s.pipe.Sized n) (i : ℕ) (c : Caller) :
    (s.send i c).2.pipe.Sized n := by
  unfold PeerClient.send
  split
  · split
    · split
      · exact h
      · split
        · exact ⟨h.collected, h.batches, h.calls⟩
        · exact h
    · exact ⟨h.collected, h.start hn, h.calls⟩
  · exact h

/-- A value for a request of a `sendBatch` that then has fewer of them. -/
theorem sized_respond (h : s.pipe.Sized n) {r i : ℕ} {v : Response} {b next : Batch}
    (hb : s.pipe.batches[i]? = some b) (hsize : next.size ≤ b.size) :
    (s.respond r v i next).pipe.Sized n := by
  unfold PeerClient.respond
  split
  · split
    · exact ⟨h.collected, h.goOn hb hsize, h.calls⟩
    · exact h
  · exact h

/-- A caller that has gone leaves the batch, one that has not moves from the queue to the live ones.
    -/
theorem sized_examine (h : s.pipe.Sized n) (i : ℕ) : (s.examine i).pipe.Sized n := by
  unfold PeerClient.examine
  split
  · rename_i r rest live hb
    split
    · -- gone: its error is the response, and the batch is one smaller
      refine sized_respond h hb ?_
      simp only [Batch.size, List.length_cons]
      omega
    · refine ⟨h.collected, h.goOn hb ?_, h.calls⟩
      simp only [Batch.size, List.length_cons, List.length_append, List.length_nil]
      omega
  · exact h

/-- A batch of which nobody is left makes no call. -/
theorem sized_call (h : s.pipe.Sized n) (i : ℕ) : (s.call i).pipe.Sized n := by
  unfold PeerClient.call
  split
  · rename_i hb
    exact ⟨h.collected, h.goOn hb (Nat.zero_le _), h.calls⟩
  · rename_i live _ hb
    -- the call is for the live ones, all that is left of the batch
    have hlive : live.length ≤ n := by
      have := h.batches _ (List.mem_of_getElem? hb)
      simpa [Batch.size] using this
    refine ⟨h.collected, h.goOn hb (by simp [Batch.size]), ?_⟩
    intro c hc
    rcases List.mem_append.mp hc with hc | hc
    · exact h.calls c hc
    · obtain rfl := List.mem_singleton.mp hc
      exact hlive
  · exact h

/-- **Step.** -/
theorem sized_step (hn : 0 < n) (h : s.pipe.Sized n) (e : ClientEvent) :
    (s.step n e).2.pipe.Sized n := by
  cases e with
  | arrive mode => exact h
  | endContext i err => exact sized_atCaller h (fun c => ownStep_endContext s i c err)
  | enter i => exact sized_atCaller h (ownStep_enter s i)
  | checkClosed i => exact sized_atCaller h (ownStep_checkClosed s i)
  | checkContext i => exact sized_atCaller h (ownStep_checkContext s i)
  | send i =>
    simp only [PeerClient.step, PeerClient.atCaller]
    split
    · exact sized_send hn h i _
    · exact h
  | abandon i => exact sized_atCaller h (ownStep_abandon s i)
  | receive i => exact sized_atCaller h (ownStep_receive s i)
  | giveUp i => exact sized_atCaller h (ownStep_giveUp s i)
  -- the events above are callers' own, the next ones those of the loop and of the batches
  | take => exact h.take hn s.door.closed
  | tick => exact h.tick hn
  | examine i => exact sized_examine h i
  | call i => exact sized_call h i
  | reply i outcome =>
    simp only [PeerClient.step, PeerClient.reply]
    split
    · rename_i hb
      exact ⟨h.collected, h.goOn hb (Nat.zero_le _), h.calls⟩
    · exact h
  | answer i =>
    simp only [PeerClient.step, PeerClient.answer]
    split
    · rename_i hb
      exact sized_respond h hb le_rfl
    · exact h
  -- closing touches the door only
  | shutdown =>
    simp only [PeerClient.step, PeerClient.shutdown]
    split <;> exact h
  | lock =>
    simp only [PeerClient.step, PeerClient.lock]
    split <;> exact h
  | flag =>
    simp only [PeerClient.step, PeerClient.flag]
    split <;> exact h
  | close =>
    simp only [PeerClient.step, PeerClient.close]
    split <;> exact h

end Client

/-- **Run.**  No call of a client is larger than its batch limit. -/
theorem sized_after {n : ℕ} (hn : 0 < n) (run : List ClientEvent) :
    (PeerClient.after n run).pipe.Sized n := by
  refine Machine.invariant_rule (P := fun s : PeerClient => s.pipe.Sized n)
    (fun _ e _ h => sized_step hn h e) (Machine.guarded_true _ _ run) ?_
  refine ⟨?_, fun b hb => (by cases hb), fun c hc => (by cases hc)⟩
  intro c hc
  obtain rfl := Option.some.inj hc
  exact hn

/-! ## `runAsyncHits` and `sendHits`

The hits of GLOBAL requests.  They are aggregated by key, so what is counted is the size of a map;
an item for a key that is already there does not make it larger. -/

/-- **At most `n` at a time**: fewer while the loop waits, and never more in a batch. -/
structure LoopState.Sized {α : Type} (n : ℕ) (s : LoopState α) : Prop where
  /-- Not while a batch is being sent: the collected items are then those of the batch. -/
  collected : s.stage = .selecting → s.collected.length < n
  sent : ∀ batch ∈ s.sent, batch.length ≤ n

namespace BatchLoop

variable {α : Type} (loop : BatchLoop α) {n : ℕ} {s : LoopState α}

/-- A batch more. -/
theorem sent_append (h : s.Sized n) {items : List α} (hitems : items.length ≤ n) :
    ∀ batch ∈ s.sent ++ [items], batch.length ≤ n := by
  intro batch hbatch
  rcases List.mem_append.mp hbatch with hb | hb
  · exact h.sent batch hb
  · obtain rfl := List.mem_singleton.mp hb
    exact hitems

/-- After a flush the loop is at `n` nowhere: it is sending, or has nothing collected. -/
theorem sized_flush (hn : 0 < n) (hs : ∀ batch ∈ s.sent ++ [s.collected], batch.length ≤ n) :
    (loop.flush s).Sized n := by
  unfold flush
  split
  · exact ⟨fun hsel => (by cases hsel), hs⟩
  · exact ⟨fun _ => hn, hs⟩

/-- **Step**, for a loop that does not go past `n` without sending. -/
theorem sized_step (hn : 0 < n) (hreached : ∀ k ≤ n, loop.reached k = false → k < n)
    (h : s.Sized n) (e : LoopEvent α) : (loop.step s e).2.Sized n := by
  cases e with
  | receive item =>
    simp only [step, receive]
    split
    · rename_i hselecting
      -- an item of a new key makes the map one larger, one of a known key leaves its size
      have hlength : (loop.collect s.collected item).length ≤ n := by
        have hroom := h.collected hselecting
        rcases loop.length_collect s.collected item with hl | ⟨hl, -⟩ <;> omega
      split
      · exact loop.sized_flush hn (sent_append h hlength)
      · rename_i hmore
        -- the limit is not reached, and `hreached` says that this means fewer than `n`
        have hless := hreached _ hlength (Bool.eq_false_iff.mpr hmore)
        split <;> exact ⟨fun _ => hless, h.sent⟩
    · exact h
  | tick =>
    simp only [step, tick]
    split
    · rename_i hselecting
      split
      · exact loop.sized_flush hn (sent_append h (h.collected hselecting.1).le)
      · exact ⟨h.collected, h.sent⟩
    · exact h
  | finish =>
    simp only [step, finish]
    split
    · exact ⟨fun _ => hn, h.sent⟩
    · exact ⟨fun hsel => (by cases hsel), h.sent⟩
    · exact h
  | stop =>
    simp only [step, stop]
    split
    · rename_i hselecting
      split
      · exact ⟨fun hsel => (by cases hsel), sent_append h (h.collected hselecting).le⟩
      · exact ⟨fun hsel => (by cases hsel), h.sent⟩
    · exact h
  | stopped =>
    simp only [step, stopped]
    split
    · exact ⟨fun hsel => (by cases hsel), h.sent⟩
    · exact h
  | timer e => exact ⟨h.collected, h.sent⟩

/-- **Run.** -/
theorem sized_after (hn : 0 < n) (hreached : ∀ k ≤ n, loop.reached k = false → k < n)
    (run : List (LoopEvent α)) : (loop.after run).Sized n :=
  Machine.invariant_rule (P := LoopState.Sized n)
    (fun _ e _ h => loop.sized_step hn hreached h e) (Machine.guarded_true _ _ run)
    ⟨fun _ => hn, fun batch hb => (by cases hb)⟩

end BatchLoop

/-- The test for equality does: the size goes up by one. -/
theorem runAsyncHits_reached {n k : ℕ} (hk : k ≤ n) (h : (runAsyncHits n).reached k = false) :
    k < n := by
  -- the source compares with `==`, which would never fire for a size already beyond the limit
  have hne : k ≠ n := by simpa [runAsyncHits] using h
  omega

/-- One hit more is one more for its owner. -/
theorem length_assignHit (getPeer : String → Except String String) (r : RateLimitReq) {k : ℕ}
    {acc : List (String × List RateLimitReq)} (hacc : ∀ p ∈ acc, p.2.length ≤ k) :
    ∀ p ∈ assignHit getPeer acc r, p.2.length ≤ k + 1 := by
  intro p hp
  unfold assignHit at hp
  split at hp
  · -- the key has no owner: the hit is dropped
    exact (hacc p hp).trans (Nat.le_succ k)
  · split at hp
    · -- the owner has hits already, and one of the lists grows
      obtain ⟨q, hq, rfl⟩ := List.mem_map.mp hp
      have hlength := hacc q hq
      split
      · simpa using hlength
      · exact hlength.trans (Nat.le_succ k)
    · rcases List.mem_append.mp hp with hp | hp
      · exact (hacc p hp).trans (Nat.le_succ k)
      · obtain rfl := List.mem_singleton.mp hp
        simp

/-- The hits of one owner are some of the hits. -/
theorem length_sendHits (getPeer : String → Except String String) (hits : List RateLimitReq) :
    ∀ p ∈ sendHits getPeer hits, p.2.length ≤ hits.length := by
  -- with `k` hits assigned, no owner has more than `k`
  suffices h : ∀ (k : ℕ) (acc : List (String × List RateLimitReq)), (∀ p ∈ acc, p.2.length ≤ k) →
      ∀ p ∈ hits.foldl (assignHit getPeer) acc, p.2.length ≤ k + hits.length by
    intro p hp
    simpa using h 0 [] (fun q hq => (by cases hq)) p hp
  induction hits with
  | nil => exact fun k acc hacc => hacc
  | cons r hits ih =>
    intro k acc hacc p hp
    have hnext := ih (k + 1) _ (length_assignHit getPeer r hacc) p hp
    rw [List.length_cons]
    omega

/-! ## A batch as large as the limit

The other direction: a loop whose limit is `n` does send `n` hits in one call, when `n` keys with
one owner are hit before the timer fires. -/

/-- Hits on the `n`-th of many keys. -/
def hitOn (n : ℕ) : RateLimitReq :=
  { RateLimitReq.sample 1 10 1000 10 0 0 with
    uniqueKey := String.ofList (List.replicate n 'k'), behavior := .global }

/-- The keys are told apart by their lengths. -/
theorem hitOn_injective {m n : ℕ} (h : (hitOn m).hashKey = (hitOn n).hashKey) : m = n := by
  have hlength := congrArg String.length h
  simpa [hitOn, RateLimitReq.hashKey, String.length_append] using hlength

/-- Hits on `n` keys. -/
def hitsOn (n : ℕ) : List RateLimitReq := (List.range n).map hitOn

@[simp] theorem length_hitsOn (n : ℕ) : (hitsOn n).length = n := by simp [hitsOn]

/-- One key more, at the end. -/
theorem hitsOn_succ (n : ℕ) : hitsOn (n + 1) = hitsOn n ++ [hitOn n] := by
  simp [hitsOn, List.range_succ]

/-- The next key is a new one for the map. -/
theorem upsert_hitOn (merge : RateLimitReq → RateLimitReq → RateLimitReq) (n : ℕ) :
    upsert merge (hitsOn n) (hitOn n) = hitsOn (n + 1) := by
  have hnew : (hitsOn n).any (fun h => h.hashKey == (hitOn n).hashKey) = false := by
    rw [List.any_eq_false]
    intro r hr heq
    obtain ⟨m, hm, rfl⟩ := List.mem_map.mp hr
    have := hitOn_injective (eq_of_beq heq)
    exact absurd (List.mem_range.mp hm) (by omega)
  rw [upsert, hnew, hitsOn_succ]
  rfl

/-- They are collected one by one. -/
theorem runAsyncHits_collects (limit : ℕ) {n : ℕ} (hn : n < limit) :
    (runAsyncHits limit).after ((hitsOn n).map .receive) =
      { interval := { inCh := decide (0 < n) }, collected := hitsOn n } := by
  induction n with
  | zero => rfl
  | succ n ih =>
    have hrun : (hitsOn (n + 1)).map LoopEvent.receive =
        (hitsOn n).map .receive ++ [.receive (hitOn n)] := by
      rw [hitsOn_succ, List.map_append, List.map_singleton]
    rw [BatchLoop.after, hrun, Machine.exec_append]
    have hbefore := ih (by omega)
    rw [BatchLoop.after] at hbefore
    rw [hbefore]
    have hcollect : (runAsyncHits limit).collect (hitsOn n) (hitOn n) = hitsOn (n + 1) :=
      upsert_hitOn _ n
    -- below the limit: the loop goes on, having armed its timer at the first hit
    have hmore : (runAsyncHits limit).reached (n + 1) = false := by
      simp only [runAsyncHits, beq_eq_false_iff_ne, ne_eq]
      omega
    simp only [Machine.exec, BatchLoop.step, BatchLoop.receive, if_true, hcollect, length_hitsOn,
      hmore,
      Bool.false_eq_true, if_false]
    split
    · simp [Interval.next]
    · have hpos : 0 < n := by omega
      simp [hpos]

/-- **The batch**: the loop sends as many hits as the limit says. -/
theorem runAsyncHits_sends {limit : ℕ} (hlimit : 0 < limit) :
    ((runAsyncHits limit).after ((hitsOn limit).map .receive)).sent = [hitsOn limit] := by
  obtain ⟨n, rfl⟩ := Nat.exists_eq_succ_of_ne_zero hlimit.ne'
  have hrun : (hitsOn (n + 1)).map LoopEvent.receive =
      (hitsOn n).map .receive ++ [.receive (hitOn n)] := by
    rw [hitsOn_succ, List.map_append, List.map_singleton]
  have hbefore := runAsyncHits_collects (n + 1) (Nat.lt_succ_self n)
  rw [BatchLoop.after] at hbefore
  have hcollect : (runAsyncHits ((n + 1 : ℕ) : ℤ)).collect (hitsOn n) (hitOn n) = hitsOn (n + 1) :=
    upsert_hitOn _ n
  -- the last hit makes the map as large as the limit, and the loop sends
  have hfull : (runAsyncHits ((n + 1 : ℕ) : ℤ)).reached (n + 1) = true := by simp [runAsyncHits]
  rw [BatchLoop.after, hrun, Machine.exec_append, hbefore]
  simp only [Machine.exec, BatchLoop.step, BatchLoop.receive, if_true, hcollect, length_hitsOn,
    hfull]
  rfl

/-- One owner gets all hits in one call. -/
theorem sendHits_oneOwner (address : String) {hits : List RateLimitReq} (hne : hits ≠ []) :
    sendHits (fun _ => .ok address) hits = [(address, hits)] := by
  obtain ⟨r, hits, rfl⟩ := List.exists_cons_of_ne_nil hne
  suffices h : ∀ acc, hits.foldl (assignHit (fun _ => .ok address)) [(address, acc)] =
      [(address, acc ++ hits)] by
    exact h [r]
  induction hits with
  | nil => simp
  | cons r' hits ih =>
    intro acc
    have hnext := ih (by simp) (acc ++ [r'])
    simpa [assignHit] using hnext

/-- **One call as large as the limit.** -/
theorem runAsyncHits_oneOwner (limit : ℕ) (hlimit : 0 < limit) :
    ∃ batch ∈ ((runAsyncHits limit).after ((hitsOn limit).map .receive)).sent,
      ∃ p ∈ sendHits (fun _ => .ok "owner") batch, p.2.length = limit := by
  have hne : hitsOn limit ≠ [] := by
    rw [← List.length_pos_iff, length_hitsOn]
    exact hlimit
  refine ⟨hitsOn limit, ?_, ("owner", hitsOn limit), ?_, length_hitsOn limit⟩
  · rw [runAsyncHits_sends hlimit]
    exact List.mem_singleton_self _
  · rw [sendHits_oneOwner _ hne]
    exact List.mem_singleton_self _

/-! ## The limits

Both halves together.  With a `GlobalBatchLimit` of zero, which `SetDefaults` replaces, the limit in
force is `maxBatchSize` itself, so the condition can be put on the configured value. -/

/-- **Peers never refuse each other's batches for their size, exactly if `GlobalBatchLimit` is
    within bounds**: for every accepted configuration with positive limits, every run of the two
    loops, every owner of every key and every order in which the hits are assigned. -/
theorem batches_fit_iff {b b' : BehaviorConfig} (haccepted : b.setDefaults = .ok b')
    (hbatch : 0 < b'.batchLimit) (hglobal : 0 < b'.globalBatchLimit) :
    ((∀ run, ∀ call ∈ (PeerClient.after b'.batchLimit.toNat run).pipe.calls,
        call.length ≤ maxBatchSize) ∧
      ∀ run getPeer, ∀ batch ∈ ((runAsyncHits b'.globalBatchLimit).after run).sent,
        ∀ hits, hits.Perm batch → ∀ p ∈ sendHits getPeer hits, p.2.length ≤ maxBatchSize) ↔
      b.globalBatchLimit ≤ maxBatchSize := by
  obtain ⟨hlimit, hdefault⟩ := BehaviorConfig.setDefaults_ok haccepted
  -- a limit that is not set is the default one, which is within bounds
  have hsame : b'.globalBatchLimit ≤ maxBatchSize ↔ b.globalBatchLimit ≤ maxBatchSize := by
    rw [hdefault, setDefault]
    split
    · rename_i hzero
      rw [hzero]
      simp
    · rfl
  rw [← hsame]
  obtain ⟨limit, hlimit'⟩ := Int.eq_ofNat_of_zero_le hglobal.le
  rw [hlimit'] at hglobal ⊢
  have hpos : 0 < limit := by omega
  constructor
  · -- if all batches fit, the one as large as the limit does
    rintro ⟨-, hhits⟩
    obtain ⟨batch, hsent, p, hp, hlength⟩ := runAsyncHits_oneOwner limit hpos
    have hle := hhits _ _ batch hsent batch (.refl _) p hp
    rw [hlength] at hle
    exact_mod_cast hle
  · -- if the limit is within bounds, so is every call: it holds some of the hits of one batch
    intro hle
    refine ⟨fun run call hcall => ?_, fun run getPeer batch hsent hits hperm p hp => ?_⟩
    · have hsize := (Gubernator.sized_after (n := b'.batchLimit.toNat)
        (by omega) run).calls call hcall
      omega
    · have hsize := ((runAsyncHits limit).sized_after hpos (fun k => runAsyncHits_reached) run).sent
        batch hsent
      calc p.2.length ≤ hits.length := length_sendHits getPeer hits p hp
        _ = batch.length := hperm.length_eq
        _ ≤ limit := hsize
        _ ≤ maxBatchSize := by exact_mod_cast hle

/-- The behaviors of a configuration that sets none. -/
def defaultBehaviors : BehaviorConfig where
  batchTimeout := 500000000
  batchWait := 500000
  batchLimit := 1000
  globalSyncWait := 100000000
  globalTimeout := 500000000
  globalBatchLimit := 1000
  globalPeerRequestsConcurrency := 100
  scheduleMaxWait := 300000000000

/-- The defaults are within bounds. -/
theorem batches_fit_iff_defaults :
    (∀ run, ∀ call ∈ (PeerClient.after defaultBehaviors.batchLimit.toNat run).pipe.calls,
      call.length ≤ maxBatchSize) ∧
    ∀ run getPeer, ∀ batch ∈ ((runAsyncHits defaultBehaviors.globalBatchLimit).after run).sent,
      ∀ hits, hits.Perm batch → ∀ p ∈ sendHits getPeer hits, p.2.length ≤ maxBatchSize :=
  (batches_fit_iff (b := {}) (by decide) (by decide) (by decide)).mpr (by decide)

/-- **One key more.** A `GlobalBatchLimit` of 1001 is accepted; hits on 1001 keys with one owner are
    sent in one call, which the owner refuses. -/
theorem batch_too_large :
    BehaviorConfig.setDefaults { globalBatchLimit := 1001 } =
      .ok { defaultBehaviors with globalBatchLimit := 1001 } ∧
    ∃ batch ∈ ((runAsyncHits 1001).after ((hitsOn 1001).map .receive)).sent,
      ∃ p ∈ sendHits (fun _ => .ok "owner") batch, getPeerRateLimitsError p.2 =
        some "'PeerRequest.rate_limits' list too large; max size is '1000'" := by
  refine ⟨by decide, ?_⟩
  obtain ⟨batch, hsent, p, hp, hlength⟩ := runAsyncHits_oneOwner 1001 (by decide)
  refine ⟨batch, hsent, p, hp, ?_⟩
  rw [getPeerRateLimitsError, hlength]
  rfl

end Gubernator
