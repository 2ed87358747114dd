/-
  A GLOBAL token bucket is a REPLICATED COUNTER: every step of the cluster is a step of
  `Lib/Replica`, as long as the requests agree on limit and duration and no cached item expires.

  A peer's copy of the counter is the `Remaining` of its cached item; what it owes is the hits it
  has answered and the owner has not counted, in its queue, its map or its calls in flight; the
  owner has something to publish while a request it counted waits to be broadcast.

  The proof follows the code from the inside out.

  1. QUEUES. A request on its way to the owner moves through four places: the handler that has
     answered it, the channel, the map of `runAsyncHits`, a call in flight.  Each move is one of the
     loops' steps and keeps the sum of the hits (`Forwards`), which is what the replica owes; a
     request the owner has counted moves likewise towards the next broadcast (`Announces`).

  2. HANDLERS. A client's request, hits from another peer, a broadcast and its receipt each serve
     one request on one cache, and `Served` of `Global/Bucket` says what that does to the
     `Remaining`.

  3. CLUSTER. `Cluster.view` forgets all but the four numbers of a replicated counter;
     `step_refines` has one case per action, each of them a lemma `refines_*`.

  The one step that is NOT a step of the counter is a sum of hits that wraps: `runAsyncHits` adds
  `int64`s, and `mergeWraps` marks the runs in which that happens.
-/
import Gubernator.Global.Bucket

namespace Gubernator

open Replica Function

/-! ## A peer's queues

Between the answer to a client and the call to the owner a request is in one of four places, and
between being counted and being broadcast in one of three.  A step of a loop moves it from one place
to the next. -/

namespace Peer

/-- The requests this peer answered and the owner has not counted. -/
def unsent (p : Peer) : List RateLimitReq :=
  p.answered ++ (p.hitsQueue ++ (p.hits.toList ++ p.sending))

/-- The requests this peer counted and has not broadcast. -/
def news (p : Peer) : List RateLimitReq := p.counted ++ (p.broadcastQueue ++ p.updates.toList)

/-- The next queued request would take the sum of its key past what an `int64` holds. -/
def mergeWraps (p : Peer) : Bool :=
  match p.hitsQueue, p.hits with
  | r :: _, some h => decide (2 ^ 63 ≤ h.hits + r.hits)
  | _, _ => false

end Peer

/-- What requests ask for, together. -/
def hitsOf (rs : List RateLimitReq) : ℤ := (rs.map RateLimitReq.hits).sum

/-- No request, no hits. -/
@[simp] theorem hitsOf_nil : hitsOf [] = 0 := rfl

/-- The first request's hits, and the others'. -/
@[simp] theorem hitsOf_cons (r : RateLimitReq) (rs : List RateLimitReq) :
    hitsOf (r :: rs) = r.hits + hitsOf rs := rfl

/-- Two lists are counted one after the other. -/
@[simp] theorem hitsOf_append (rs ss : List RateLimitReq) :
    hitsOf (rs ++ ss) = hitsOf rs + hitsOf ss := by
  simp [hitsOf]

/-- The order in which they wait does not matter. -/
theorem hitsOf_perm {rs ss : List RateLimitReq} (h : rs.Perm ss) : hitsOf rs = hitsOf ss :=
  (h.map _).sum_eq

/-- A request taken out of a list, and the rest of it. -/
theorem cons_eraseIdx_perm {rs : List RateLimitReq} {i : ℕ} {r : RateLimitReq}
    (h : rs[i]? = some r) : (r :: rs.eraseIdx i).Perm rs := by
  obtain ⟨hi, rfl⟩ := List.getElem?_eq_some_iff.mp h
  exact List.getElem_cons_eraseIdx_perm hi

/-- A broadcast status of the one bucket. -/
structure StatusOk (key : String) (limit duration : ℤ) (g : UpdatePeerGlobal) : Prop where
  sameKey : g.key = key
  token : g.algorithm = .tokenBucket
  sameDuration : g.duration = duration
  sameLimit : g.status.limit = limit
  nonneg : 0 ≤ g.status.remaining

/-- **A peer in order**: its item is a copy of the counter, what it has queued are requests for it,
    and what it has received are states of it. -/
structure PeerOk (key : String) (limit duration : ℤ) (p : Peer) : Prop where
  copy : Copy key limit duration p.shard
  unsent : ∀ r ∈ p.unsent, Queued key limit duration r
  news : ∀ r ∈ p.news, Queued key limit duration r
  inbox : ∀ g ∈ p.inbox, StatusOk key limit duration g

/-- The peer moves requests on their way to the owner, and does nothing else. -/
structure Forwards (p p' : Peer) : Prop where
  shard : p'.shard = p.shard
  news : p'.news = p.news
  inbox : p'.inbox = p.inbox
  /-- what the peer owes, wherever it stands -/
  hits : hitsOf p'.unsent = hitsOf p.unsent

/-- The peer moves requests on their way to a broadcast, and does nothing else. -/
structure Announces (p p' : Peer) : Prop where
  shard : p'.shard = p.shard
  unsent : p'.unsent = p.unsent
  inbox : p'.inbox = p.inbox
  /-- what there was to publish is not forgotten -/
  news : p.news ≠ [] → p'.news ≠ []

section Queues
variable {key : String} {limit duration : ℤ} {p : Peer}

/-- `QueueHit`: from the handler onto the channel. -/
theorem PeerOk.queueHit (h : PeerOk key limit duration p) (i : ℕ) :
    PeerOk key limit duration (p.queueHit i) ∧ Forwards p (p.queueHit i) := by
  unfold Peer.queueHit
  cases hr : p.answered[i]? with
  | none => exact ⟨h, rfl, rfl, rfl, rfl⟩
  | some r =>
    -- the queue is the same as a multiset
    have hperm : (p.answered.eraseIdx i ++ ((p.hitsQueue ++ [r]) ++
      (p.hits.toList ++ p.sending))).Perm
        p.unsent := by
      rw [List.append_assoc p.hitsQueue, ← List.append_assoc]
      refine List.perm_middle.trans ?_
      rw [Peer.unsent, List.append_assoc, ← List.cons_append]
      exact (cons_eraseIdx_perm hr).append_right _
    exact ⟨⟨h.copy, fun r' hr' => h.unsent r' (hperm.mem_iff.mp hr'), h.news, h.inbox⟩,
      rfl, rfl, rfl, hitsOf_perm hperm⟩

/-- The next queued request joins the entry of its key.  The peer owes as much as before, because
    the sum of the two is exact. -/
theorem PeerOk.collectHit (h : PeerOk key limit duration p) (hmerge : p.mergeWraps = false) :
    PeerOk key limit duration p.collectHit ∧ Forwards p p.collectHit := by
  unfold Peer.collectHit
  cases hq : p.hitsQueue with
  | nil => exact ⟨h, rfl, rfl, rfl, rfl⟩
  | cons r rest =>
    have hmem : ∀ r' ∈ p.unsent, Queued key limit duration r' := h.unsent
    simp only [Peer.unsent, hq] at hmem
    have hr : Queued key limit duration r := hmem r (by simp)
    have hentry : ∀ e ∈ p.hits, Queued key limit duration e := fun e he => hmem e (by
      simp [Option.mem_def.mp he])
    -- the one place where a sum may leave the range of `int64`
    have hrange : ∀ e ∈ p.hits, e.hits + r.hits < 2 ^ 63 := by
      intro e he
      simpa [Peer.mergeWraps, hq, Option.mem_def.mp he] using hmerge
    refine ⟨⟨h.copy, fun r' hr' => ?_, h.news, h.inbox⟩, rfl, rfl, rfl, ?_⟩
    · -- every place keeps its requests but the map, whose entry is the merged one
      simp only [Peer.unsent, Option.toList_some, List.mem_append, List.mem_singleton] at hr'
      rcases hr' with ha | ha | rfl | ha
      · exact hmem r' (by simp [ha])
      · exact hmem r' (by simp [ha])
      · exact hr.aggregateHit hentry hrange
      · exact hmem r' (by simp [ha])
    · -- what is owed moves from the channel into the map: a new entry, or a greater one
      cases he : p.hits with
      | none =>
        simp only [Peer.unsent, hq, he, aggregateHit, hitsOf_append, hitsOf_cons, hitsOf_nil,
          Option.toList_some, Option.toList_none]
        ring
      | some e =>
        have hsum : (aggregateHit (some e) r).hits = e.hits + r.hits :=
          aggregateHit_hits (hentry e he).hits_nonneg hr.hits_nonneg (hrange e he)
        simp only [Peer.unsent, hq, he, hitsOf_append, hitsOf_cons, hitsOf_nil, hsum,
          Option.toList_some]
        ring

/-- `sendHits`: the map goes out as calls, and is empty again. -/
theorem PeerOk.sendHits (h : PeerOk key limit duration p) :
    PeerOk key limit duration p.sendHits ∧ Forwards p p.sendHits := by
  have hperm : p.sendHits.unsent.Perm p.unsent := by
    simp only [Peer.unsent, Peer.sendHits, Option.toList_none, List.nil_append]
    exact (List.perm_append_comm.append_left _).append_left _
  exact ⟨⟨h.copy, fun r' hr' => h.unsent r' (hperm.mem_iff.mp hr'), h.news, h.inbox⟩,
    rfl, rfl, rfl, hitsOf_perm hperm⟩

/-- `QueueUpdate`: from the handler onto the channel of the broadcasts. -/
theorem PeerOk.queueUpdate (h : PeerOk key limit duration p) (i : ℕ) :
    PeerOk key limit duration (p.queueUpdate i) ∧ Announces p (p.queueUpdate i) := by
  unfold Peer.queueUpdate
  cases hr : p.counted[i]? with
  | none => exact ⟨h, rfl, rfl, rfl, id⟩
  | some r =>
    have hperm : (p.counted.eraseIdx i ++ ((p.broadcastQueue ++ [r]) ++ p.updates.toList)).Perm
        p.news := by
      rw [List.append_assoc p.broadcastQueue, ← List.append_assoc]
      refine List.perm_middle.trans ?_
      rw [Peer.news, List.append_assoc, ← List.cons_append]
      exact (cons_eraseIdx_perm hr).append_right _
    -- the same multiset is empty if the other is
    refine ⟨⟨h.copy, h.unsent, fun r' hr' => h.news r' (hperm.mem_iff.mp hr'), h.inbox⟩,
      rfl, rfl, rfl, fun hne hnil => hne ?_⟩
    exact List.Perm.eq_nil (hperm.symm.trans (List.Perm.of_eq hnil))

/-- `runBroadcasts` keeps the LAST request of a key, where `runAsyncHits` adds them up: nothing is
    lost, since a broadcast reads the state from the cache. -/
theorem PeerOk.collectUpdate (h : PeerOk key limit duration p) :
    PeerOk key limit duration p.collectUpdate ∧ Announces p p.collectUpdate := by
  unfold Peer.collectUpdate
  cases hq : p.broadcastQueue with
  | nil => exact ⟨h, rfl, rfl, rfl, id⟩
  | cons r rest =>
    refine ⟨⟨h.copy, h.unsent, fun r' hr' => h.news r' ?_, h.inbox⟩, rfl, rfl, rfl, ?_⟩
    · simp only [Peer.news, hq, Option.toList_some, List.mem_append, List.mem_cons]
        at hr' ⊢
      tauto
    · intro _
      simp [Peer.news]

end Queues

/-! ## A peer's handlers

Each handler is told by what it does to the three things that make up the view: the copy, what is
owed, and what is yet to be published. -/

section Handlers
variable (conf : Config) (host : Host) {key : String} {limit duration now : ℤ} {p : Peer}
  {r : RateLimitReq}

/-- A request of the run, at a peer whose item has not expired. -/
@[mk_iff] structure ClientReq (key : String) (limit duration now : ℤ) (p : Peer)
    (r : RateLimitReq) : Prop extends TokenReq key limit duration r where
  global : hasBehavior r.behavior .global = true
  named : r.name ≠ "" ∧ r.uniqueKey ≠ ""
  held : p.shard.held key (epochMillis now) = true

/-- What holds of a list holds of it with more of the kind put in. -/
theorem forall_mem_insert {P : RateLimitReq → Prop} {as rs bs : List RateLimitReq}
    (h : ∀ r ∈ as ++ bs, P r) (hrs : ∀ r ∈ rs, P r) : ∀ r ∈ as ++ rs ++ bs, P r := by
  intro r hr
  simp only [List.mem_append, or_assoc] at h hr
  rcases hr with hr | hr | hr
  · exact h r (.inl hr)
  · exact hrs r hr
  · exact h r (.inr hr)

/-- A request without hits is not queued, and nothing is owed for it. -/
theorem hitsOf_queueable (r : RateLimitReq) : hitsOf (queueable [r]) = r.hits := by
  by_cases h : r.hits = 0 <;> simp [queueable, h]

/-- A request for hits is queued. -/
theorem queueable_ne_nil {r : RateLimitReq} (h : r.hits ≠ 0) : queueable [r] ≠ [] := by
  simp [queueable, h]

/-- What a client's request puts on a queue is fit to be there. -/
theorem ClientReq.mem_queueable (hr : ClientReq key limit duration now p r) {r' : RateLimitReq}
    (h : r' ∈ queueable [r.stamped now]) : Queued key limit duration r' :=
  (hr.toTokenReq.stamped now).mem_queueable (by rw [stamped_behavior]; exact hr.global) h

/-- **A client asks the owner**: its copy is charged, it owes nobody, and there is something to
    publish if there were hits. -/
theorem PeerOk.client_owner (h : PeerOk key limit duration p)
    (hr : ClientReq key limit duration now p r) (hlimit : 0 ≤ limit) :
    let out := p.client conf host now true r
    PeerOk key limit duration out.2 ∧
      (∃ x, Served key limit duration p.shard r.hits out.1 out.2.shard x) ∧
      out.2.unsent = p.unsent ∧ out.2.inbox = p.inbox ∧
      (p.news ≠ [] ∨ r.hits ≠ 0 → out.2.news ≠ []) := by
  obtain ⟨⟨x, hserved⟩, hhits, hupdates⟩ := getRateLimit_served conf host true hr.toTokenReq
    hr.global hr.named.1 hr.named.2 h.copy hr.held hlimit
  intro out
  have hnews : out.2.news = p.counted ++ queueable [r.stamped now] ++
      (p.broadcastQueue ++ p.updates.toList) := by
    simp [out, Peer.client, Peer.news, hupdates]
  have hunsent : out.2.unsent = p.unsent := by simp [out, Peer.client, Peer.unsent, hhits]
  refine ⟨⟨hserved.copy, by rw [hunsent]; exact h.unsent, fun r' hr' => ?_, h.inbox⟩,
    ⟨x, hserved⟩, hunsent, rfl, fun hne => ?_⟩
  · rw [hnews] at hr'
    exact forall_mem_insert h.news (fun _ hnew => hr.mem_queueable hnew) r' hr'
  · -- there was something to publish before, or the hits have just been put there
    rw [hnews]
    rcases hne with hne | hne
    · intro hnil
      simp only [List.append_eq_nil_iff] at hnil
      exact hne (by simp [Peer.news, hnil])
    · have := queueable_ne_nil (r := r.stamped now) (by rw [stamped_hits]; exact hne)
      simp [this]

/-- **A client asks another peer**: its copy is charged, and it owes the owner the hits, WHETHER OR
    NOT it admitted them. -/
theorem PeerOk.client_replica (h : PeerOk key limit duration p)
    (hr : ClientReq key limit duration now p r) (hlimit : 0 ≤ limit) :
    let out := p.client conf host now false r
    PeerOk key limit duration out.2 ∧
      (∃ x, Served key limit duration p.shard r.hits out.1 out.2.shard x) ∧
      hitsOf out.2.unsent = hitsOf p.unsent + r.hits ∧ out.2.inbox = p.inbox ∧
      out.2.news = p.news := by
  obtain ⟨⟨x, hserved⟩, hhits, hupdates⟩ := getRateLimit_served conf host false hr.toTokenReq
    hr.global hr.named.1 hr.named.2 h.copy hr.held hlimit
  intro out
  have hnews : out.2.news = p.news := by simp [out, Peer.client, Peer.news, hupdates]
  have hunsent : out.2.unsent = p.answered ++ queueable [r.stamped now] ++
      (p.hitsQueue ++ (p.hits.toList ++ p.sending)) := by
    simp [out, Peer.client, Peer.unsent, hhits]
  -- the request is queued before the answer is looked at, so refused hits are owed too
  refine ⟨⟨hserved.copy, fun r' hr' => ?_, by rw [hnews]; exact h.news, h.inbox⟩,
    ⟨x, hserved⟩, ?_, rfl, hnews⟩
  · rw [hunsent] at hr'
    exact forall_mem_insert h.unsent (fun _ hnew => hr.mem_queueable hnew) r' hr'
  · rw [hunsent]
    simp only [Peer.unsent, hitsOf_append, hitsOf_queueable, stamped_hits]
    ring

/-- Accumulated hits are counted and announced. -/
theorem PeerOk.receiveHits (h : PeerOk key limit duration p) (hr : Queued key limit duration r)
    (hheld : p.shard.held key (epochMillis now) = true) (hlimit : 0 ≤ limit) :
    PeerOk key limit duration (p.receiveHits conf host now r) ∧
      (∃ resp x, Served key limit duration p.shard r.hits resp
        (p.receiveHits conf host now r).shard x) ∧
      (p.receiveHits conf host now r).unsent = p.unsent ∧
      (p.receiveHits conf host now r).inbox = p.inbox ∧
      (p.receiveHits conf host now r).news ≠ [] := by
  obtain ⟨hrec, hhits⟩ := hr.received now
  obtain ⟨resp, x, -, hupdates, hserved⟩ := getLocalRateLimit_served conf host
    { isOwner := true } hrec.toTokenReq h.copy hheld hlimit
  -- the owner counts the hits as those of a GLOBAL request, so an update is queued
  rw [hrec.global, if_pos rfl] at hupdates
  rw [hhits] at hserved
  have hnews : (p.receiveHits conf host now r).news = p.counted ++ queueable [r.received now] ++
      (p.broadcastQueue ++ p.updates.toList) := by
    simp [Peer.receiveHits, getPeerRateLimit, Peer.news, hupdates]
  refine ⟨⟨hserved.copy, h.unsent, fun r' hr' => ?_, h.inbox⟩, ⟨resp, x, hserved⟩, rfl, rfl, ?_⟩
  · rw [hnews] at hr'
    exact forall_mem_insert h.news
      (fun _ hnew => hrec.toTokenReq.mem_queueable hrec.global hnew) r' hr'
  · have := queueable_ne_nil (r := r.received now) hrec.hits_pos.ne'
    rw [hnews]
    simp [this]

/-- A broadcast says what the owner's item holds, and leaves it. -/
theorem PeerOk.broadcastPeers (h : PeerOk key limit duration p)
    (hheld : p.shard.held key (epochMillis now) = true) (hlimit : 0 ≤ limit) :
    let out := p.broadcastPeers conf host now
    PeerOk key limit duration out.2 ∧ out.2.unsent = p.unsent ∧ out.2.inbox = p.inbox ∧
      (out = (none, p) ∨ ∃ g, out.1 = some g ∧ StatusOk key limit duration g ∧
        out.2.shard.remaining key = some g.status.remaining ∧
        g.status.remaining = (p.shard.remaining key).getD limit) := by
  intro out
  cases hu : p.updates with
  | none =>
    have hout : out = (none, p) := by simp [out, Peer.broadcastPeers, hu]
    rw [hout]
    exact ⟨h, rfl, rfl, .inl rfl⟩
  | some update =>
    have hq : Queued key limit duration update := h.news update (by simp [Peer.news, hu])
    -- `broadcastPeers` asks its own cache with zero hits
    have hzero : TokenReq key limit duration { update with hits := 0 } :=
      ⟨hq.sameKey, hq.token, hq.sameLimit, hq.limit_lt, hq.sameDuration, le_rfl, hq.noReset,
        hq.noGregorian, hq.noWait⟩
    obtain ⟨resp, x, hok, hserved⟩ := handleGetRateLimit_served conf host { isOwner := false }
      hzero h.copy hheld hlimit
    rcases hrun : handleGetRateLimit conf host now p.shard { update with hits := 0 }
      { isOwner := false } with ⟨result, s'⟩
    rw [hrun] at hok hserved
    obtain rfl : result = .ok resp := hok
    -- so the answer is the balance, and the balance stays
    have hx : resp.remaining = x := hserved.query rfl
    have hsame : x = (p.shard.remaining key).getD limit := hserved.take.eq_of_zero
    have hx0 : 0 ≤ x := (hserved.take.bounds le_rfl).1
    have hout : out = (some { key := update.hashKey, algorithm := update.algorithm
                              duration := update.duration, status := resp
                              createdAt := update.createdAt },
        { p with shard := s', updates := none }) := by
      simp only [out, Peer.broadcastPeers, hu, broadcastStatus, hrun]
    rw [hout]
    refine ⟨⟨hserved.copy, h.unsent, fun r' hr' => h.news r' ?_, h.inbox⟩, rfl, rfl,
      .inr ⟨_, rfl, ⟨hq.sameKey, hq.token, hq.sameDuration, hserved.limit_eq, ?_⟩, ?_, ?_⟩⟩
    · simp only [Peer.news, Option.toList_none, List.append_nil, List.mem_append] at hr' ⊢
      tauto
    · rw [hx]
      exact hx0
    · rw [hx]
      exact hserved.remaining
    · rw [hx]
      exact hsame

/-- A status received is the peer's copy afterwards. -/
theorem PeerOk.receiveUpdate (h : PeerOk key limit duration p) {g : UpdatePeerGlobal}
    {rest : List UpdatePeerGlobal} (hin : p.inbox = g :: rest) (now : ℤ) :
    PeerOk key limit duration (p.receiveUpdate now) ∧
      (p.receiveUpdate now).shard.remaining key = some g.status.remaining ∧
      (p.receiveUpdate now).inbox = rest ∧ (p.receiveUpdate now).unsent = p.unsent ∧
      (p.receiveUpdate now).news = p.news := by
  have hg : StatusOk key limit duration g := h.inbox g (by rw [hin]; exact List.mem_cons_self)
  have hout : p.receiveUpdate now =
      { p with shard := updatePeerGlobals now p.shard g, inbox := rest } := by
    simp [Peer.receiveUpdate, hin]
  -- the item is replaced as a whole, whatever the peer had
  set t : TokenBucketItem :=
    { status := g.status.status, limit := g.status.limit, duration := g.duration
      remaining := g.status.remaining, createdAt := epochMillis now } with ht
  have hvalue : (g.item (epochMillis now)).value = some (.token t) := by
    simp [UpdatePeerGlobal.item, hg.token, ht]
  have hpeek : (updatePeerGlobals now p.shard g).cache.peek key =
      some (g.item (epochMillis now)) := by
    rw [← hg.sameKey]
    exact Cache.peek_add_self _ (g.item (epochMillis now))
  rw [hout]
  refine ⟨⟨.present _ t hpeek hvalue hg.sameLimit hg.sameDuration hg.nonneg, h.unsent, h.news,
    fun g' hg' => h.inbox g' ?_⟩, remaining_of_peek hpeek hvalue, rfl, rfl, rfl⟩
  rw [hin]
  exact List.mem_cons_of_mem g hg'

end Handlers

/-! ## The cluster

Four functions of the peers make up the view, and a step changes one peer, or two where hits arrive.
`set_field` carries a change of a peer over to the function, and `set_field_same` says that there is
none. -/

section Cluster
variable {ι : Type} [DecidableEq ι]

/-- **The replicated counter in a cluster.** -/
def Cluster.view (key : String) (owner : ι) (c : Cluster ι) : Replica.State ι where
  copy p := (c p).shard.remaining key
  owed p := hitsOf (c p).unsent
  inbox p := (c p).inbox.map (fun g => g.status.remaining)
  dirty := (c owner).news ≠ []

/-- **The cluster in order.** The owner sends itself no broadcast. -/
structure ClusterOk (key : String) (limit duration : ℤ) (owner : ι) (c : Cluster ι) : Prop where
  peers : ∀ p, PeerOk key limit duration (c p)
  inbox_owner : (c owner).inbox = []

/-- The runs GLOBAL is about: client requests of the one bucket, and no cached item of it that
    has expired when a request or a broadcast reads it. -/
def Permitted (key : String) (limit duration : ℤ) (owner : ι) (c : Cluster ι) :
    Action ι → Prop
  | .client p now r => ClientReq key limit duration now (c p) r
  | .deliverHits _ _ now => (c owner).shard.held key (epochMillis now) = true
  | .broadcast now => (c owner).shard.held key (epochMillis now) = true
  | _ => True

instance (key : String) (limit duration now : ℤ) (p : Peer) (r : RateLimitReq) :
    Decidable (ClientReq key limit duration now p r) :=
  decidable_of_iff _ (clientReq_iff key limit duration now p r).symm

instance (key : String) (limit duration : ℤ) (owner : ι) (c : Cluster ι) (a : Action ι) :
    Decidable (Permitted key limit duration owner c a) :=
  match a with
  | .client p now r => inferInstanceAs (Decidable (ClientReq key limit duration now (c p) r))
  | .deliverHits _ _ now =>
    inferInstanceAs (Decidable ((c owner).shard.held key (epochMillis now) = true))
  | .broadcast now =>
    inferInstanceAs (Decidable ((c owner).shard.held key (epochMillis now) = true))
  | .queueHit _ _ | .collectHit _ | .sendHits _ | .queueUpdate _ | .collectUpdate
  | .deliverUpdate _ _ => inferInstanceAs (Decidable True)

/-- The step merges hits past what an `int64` holds. -/
def mergeWraps (c : Cluster ι) : Action ι → Bool
  | .collectHit p => (c p).mergeWraps
  | _ => false

/-- The hits of an answer `UNDER_LIMIT`. -/
def admitted (r : RateLimitReq) (resp : RateLimitResp) : ℤ :=
  if resp.status = .underLimit ∧ resp.error = "" then r.hits else 0

/-- What a step shows of the counter. -/
def Cluster.label (c : Cluster ι) (a : Action ι) (answer : Option RateLimitResp) : Label ι :=
  match a, answer with
  | .client p _ r, some resp => .answered p r.hits (admitted r resp)
  | .deliverUpdate p _, _ =>
    match (c p).inbox with
    | g :: _ => .heard p g.status.remaining
    | [] => .silent
  | _, _ => .silent

variable {conf : Config} {host : Host} {key : String} {limit duration : ℤ} {owner : ι}
  {c : Cluster ι}

/-- What is read off the peers after one of them has changed. -/
theorem set_field {β : Type} (f : Peer → β) (c : Cluster ι) (p : ι) (peer : Peer) :
    (fun q => f (c.set p peer q)) = update (fun q => f (c q)) p (f peer) :=
  comp_update f c p peer

/-- Nothing changes if that peer reads the same. -/
theorem set_field_same {β : Type} (f : Peer → β) (c : Cluster ι) {p : ι} {peer : Peer}
    (h : f peer = f (c p)) : (fun q => f (c.set p peer q)) = fun q => f (c q) := by
  rw [set_field, h]
  exact update_eq_self p _

/-- A step of one peer keeps the cluster in order, if the peer stays so. -/
theorem ClusterOk.set (hc : ClusterOk key limit duration owner c) {p : ι} {peer : Peer}
    (hpeer : PeerOk key limit duration peer) (hin : p = owner → peer.inbox = []) :
    ClusterOk key limit duration owner (c.set p peer) := by
  constructor
  · intro q
    unfold Cluster.set
    by_cases hqp : q = p
    · rw [hqp, update_self]
      exact hpeer
    · rw [update_of_ne hqp]
      exact hc.peers q
  · unfold Cluster.set
    by_cases hqp : owner = p
    · rw [hqp, update_self]
      exact hin hqp.symm
    · rw [update_of_ne hqp]
      exact hc.inbox_owner

/-- The owner keeps its news through a step of a peer that keeps its own. -/
theorem dirty_set {p : ι} {peer : Peer} (h : (c p).news ≠ [] → peer.news ≠ [])
    (hd : (c.view key owner).dirty) : ((c.set p peer).view key owner).dirty := by
  show (c.set p peer owner).news ≠ []
  unfold Cluster.set
  by_cases hop : owner = p
  · subst hop
    rw [update_self]
    exact h hd
  · rw [update_of_ne hop]
    exact hd

/-- **Requests on their way** change nothing in the view: the counter's silent step. -/
theorem refines_forwards (hc : ClusterOk key limit duration owner c) {p : ι} {peer : Peer}
    (hpeer : PeerOk key limit duration peer) (hf : Forwards (c p) peer) :
    ClusterOk key limit duration owner (c.set p peer) ∧
      Step owner limit (c.view key owner) ((c.set p peer).view key owner) .silent := by
  refine ⟨hc.set hpeer (fun hp => ?_), .idle ?_ ?_ ?_ (dirty_set (by rw [hf.news]; exact id))⟩
  · rw [hf.inbox, hp, hc.inbox_owner]
  · exact set_field_same (fun q => q.shard.remaining key) c (by rw [hf.shard])
  · exact set_field_same (fun q => hitsOf q.unsent) c hf.hits
  · exact set_field_same (fun q => q.inbox.map (fun g => g.status.remaining)) c (by rw [hf.inbox])

/-- Requests on their way to a broadcast change nothing in the view either. -/
theorem refines_announces (hc : ClusterOk key limit duration owner c) {p : ι} {peer : Peer}
    (hpeer : PeerOk key limit duration peer) (ha : Announces (c p) peer) :
    ClusterOk key limit duration owner (c.set p peer) ∧
      Step owner limit (c.view key owner) ((c.set p peer).view key owner) .silent := by
  refine ⟨hc.set hpeer (fun hp => ?_), .idle ?_ ?_ ?_ (dirty_set ha.news)⟩
  · rw [ha.inbox, hp, hc.inbox_owner]
  · exact set_field_same (fun q => q.shard.remaining key) c (by rw [ha.shard])
  · exact set_field_same (fun q => hitsOf q.unsent) c (by rw [ha.unsent])
  · exact set_field_same (fun q => q.inbox.map (fun g => g.status.remaining)) c (by rw [ha.inbox])

/-- A request that is served is answered without error, so the status decides what it admits. -/
theorem Served.admitted_eq {s s' : Shard} {r : RateLimitReq} {resp : RateLimitResp} {x : ℤ}
    (h : Served key limit duration s r.hits resp s' x) :
    admitted r resp = if resp.status = .underLimit then r.hits else 0 := by
  simp [admitted, h.noError]

/-- **A client's request** is the counter's answer, at the owner or at a replica. -/
theorem refines_client (hc : ClusterOk key limit duration owner c) (hlimit : 0 ≤ limit) {p : ι}
    {now : ℤ} {r : RateLimitReq} (hr : ClientReq key limit duration now (c p) r) :
    ClusterOk key limit duration owner
        (c.set p ((c p).client conf host now (p = owner) r).2) ∧
      Step owner limit (c.view key owner)
        ((c.set p ((c p).client conf host now (p = owner) r).2).view key owner)
        (.answered p r.hits (admitted r ((c p).client conf host now (p = owner) r).1)) := by
  -- the two branches of `GetRateLimits`: the owner takes from the counter itself
  by_cases hp : p = owner
  · subst hp
    rw [decide_eq_true rfl]
    obtain ⟨hpeer, ⟨x, hserved⟩, hunsent, hinbox, hnews⟩ :=
      (hc.peers p).client_owner conf host hr hlimit
    refine ⟨hc.set hpeer (fun _ => hinbox.trans hc.inbox_owner), ?_⟩
    rw [hserved.admitted_eq]
    refine .atOwner r.hits x _ hr.hits_nonneg hserved.take ?_ ?_ ?_ ?_
    · rw [← hserved.remaining]
      exact set_field (fun q => q.shard.remaining key) c p _
    · exact set_field_same (fun q => hitsOf q.unsent) c (by rw [hunsent])
    · exact set_field_same (fun q => q.inbox.map (fun g => g.status.remaining)) c (by rw [hinbox])
    · intro hd
      show (c.set p _ p).news ≠ []
      rw [Cluster.set, update_self]
      exact hnews hd
  · rw [decide_eq_false hp]
    obtain ⟨hpeer, ⟨x, hserved⟩, hhits, hinbox, hnews⟩ :=
      (hc.peers p).client_replica conf host hr hlimit
    refine ⟨hc.set hpeer (fun h => absurd h hp), ?_⟩
    rw [hserved.admitted_eq]
    refine .atReplica p r.hits x _ hp hr.hits_nonneg hserved.take ?_ ?_ ?_ ?_
    · rw [← hserved.remaining]
      exact set_field (fun q => q.shard.remaining key) c p _
    · -- the replica owes the hits of the request on top of what it owed
      rw [show (c.view key owner).owed p + r.hits =
        hitsOf ((c p).client conf host now false r).2.unsent
        from hhits.symm]
      exact set_field (fun q => hitsOf q.unsent) c p _
    · exact set_field_same (fun q => q.inbox.map (fun g => g.status.remaining)) c (by rw [hinbox])
    · exact dirty_set (by rw [hnews]; exact id)

/-- Hits arrive: taken off the sender's calls, counted by the owner. -/
theorem refines_deliverHits (hc : ClusterOk key limit duration owner c) (hlimit : 0 ≤ limit) {p : ι}
    {i : ℕ} {now : ℤ} {r : RateLimitReq} (hr : (c p).sending[i]? = some r)
    (hheld : (c owner).shard.held key (epochMillis now) = true) :
    let c₁ := c.set p { c p with sending := (c p).sending.eraseIdx i }
    ClusterOk key limit duration owner (c₁.set owner ((c₁ owner).receiveHits conf host now r)) ∧
      Step owner limit (c.view key owner)
        ((c₁.set owner ((c₁ owner).receiveHits conf host now r)).view key owner) .silent := by
  intro c₁
  set peer : Peer := { c p with sending := (c p).sending.eraseIdx i } with hpeer
  -- the call in flight, and what the sender owes without it
  have hperm : (r :: peer.unsent).Perm (c p).unsent := by
    simp only [hpeer, Peer.unsent, ← List.append_assoc]
    exact List.perm_middle.symm.trans ((cons_eraseIdx_perm hr).append_left _)
  have hmem : ∀ r' ∈ r :: peer.unsent, Queued key limit duration r' := fun r' hr' =>
    (hc.peers p).unsent r' (hperm.mem_iff.mp hr')
  have hq : Queued key limit duration r := hmem r List.mem_cons_self
  have hok : PeerOk key limit duration peer :=
    ⟨(hc.peers p).copy, fun r' hr' => hmem r' (List.mem_cons_of_mem r hr'), (hc.peers p).news,
      (hc.peers p).inbox⟩
  have hc₁ : ClusterOk key limit duration owner c₁ :=
    hc.set hok (fun hp => by rw [← hc.inbox_owner, ← hp])
  -- taking the request off leaves every peer's shard and inbox
  have hshard : ∀ q, (c₁ q).shard = (c q).shard := congrFun (set_field_same Peer.shard c rfl)
  have hinbox : ∀ q, (c₁ q).inbox = (c q).inbox := congrFun (set_field_same Peer.inbox c rfl)
  obtain ⟨hrecv, ⟨resp, x, hserved⟩, hunsent, hinbox', hnews⟩ :=
    (hc₁.peers owner).receiveHits conf host hq (by rw [hshard]; exact hheld) hlimit
  refine ⟨hc₁.set hrecv (fun _ => hinbox'.trans hc₁.inbox_owner), ?_⟩
  have htake := hserved.take
  rw [hshard] at htake
  refine .reported p r.hits x _ hq.hits_pos ?_ htake ?_ ?_ ?_ ?_
  · -- the request is part of what the peer owes
    show r.hits ≤ hitsOf (c p).unsent
    rw [← hitsOf_perm hperm, hitsOf_cons, le_add_iff_nonneg_right]
    refine List.sum_nonneg (fun h hh => ?_)
    obtain ⟨r', hr', rfl⟩ := List.mem_map.mp hh
    exact (hok.unsent r' hr').hits_nonneg
  · -- the owner's copy is charged
    rw [← hserved.remaining]
    refine (set_field (fun q => q.shard.remaining key) c₁ owner _).trans ?_
    congr 1
    funext q
    rw [hshard]
    rfl
  · -- the sender owes that much less
    have howed : (c.view key owner).owed p + -r.hits = hitsOf peer.unsent := by
      show hitsOf (c p).unsent + -r.hits = _
      rw [← hitsOf_perm hperm, hitsOf_cons]
      ring
    rw [howed]
    exact (set_field_same (fun q => hitsOf q.unsent) c₁ (by rw [hunsent])).trans
      (set_field (fun q => hitsOf q.unsent) c p peer)
  · refine (set_field_same (fun q => q.inbox.map (fun g => g.status.remaining)) c₁
      (by rw [hinbox'])).trans ?_
    funext q
    rw [hinbox]
    rfl
  · -- and there is something to publish
    show (c₁.set owner _ owner).news ≠ []
    rw [Cluster.set, update_self]
    exact hnews

/-- **A broadcast** publishes the counter: every other peer has the owner's `Remaining` in its
    inbox, and the owner has nothing left to publish. -/
theorem refines_broadcast (hc : ClusterOk key limit duration owner c) (hlimit : 0 ≤ limit)
    {now : ℤ} (hheld : (c owner).shard.held key (epochMillis now) = true) :
    ClusterOk key limit duration owner (c.step conf host owner (.broadcast now)).2 ∧
      Step owner limit (c.view key owner)
        ((c.step conf host owner (.broadcast now)).2.view key owner) .silent := by
  obtain ⟨hpeer, hunsent, hinbox, hout⟩ :=
    (hc.peers owner).broadcastPeers conf host hheld hlimit
  rcases hb : (c owner).broadcastPeers conf host now with ⟨msg, peer⟩
  simp only [hb] at hpeer hunsent hinbox hout
  rcases hout with hnone | ⟨g, rfl, hg, hremaining, hcount⟩
  · -- nothing was collected, and nothing happens
    obtain ⟨rfl, rfl⟩ := Prod.mk.inj hnone
    have hstep : (c.step conf host owner (.broadcast now)).2 = c := by
      simp only [Cluster.step, hb]
      exact update_eq_self owner c
    rw [hstep]
    exact ⟨hc, .idle rfl rfl rfl id⟩
  · have hstep : (c.step conf host owner (.broadcast now)).2 = fun p =>
        if p = owner then peer else { c p with inbox := (c p).inbox ++ [g] } := by
      simp only [Cluster.step, hb]
    rw [hstep]
    -- the owner writes its own balance back, and the others have it in their inboxes
    refine ⟨⟨fun p => ?_, ?_⟩, .published ?_ ?_ ?_⟩
    · by_cases hp : p = owner
      · rw [if_pos hp]
        exact hpeer
      · rw [if_neg hp]
        refine ⟨(hc.peers p).copy, (hc.peers p).unsent, (hc.peers p).news, fun g' hg' => ?_⟩
        rcases List.mem_append.mp hg' with hold | hnew
        · exact (hc.peers p).inbox g' hold
        · rw [List.mem_singleton.mp hnew]
          exact hg
    · rw [if_pos rfl, hinbox, hc.inbox_owner]
    · funext p
      show (if p = owner then peer else _).shard.remaining key = _
      by_cases hp : p = owner
      · rw [if_pos hp, hp, update_self, hremaining, hcount]
        rfl
      · rw [if_neg hp, update_of_ne hp]
        rfl
    · funext p
      show hitsOf (if p = owner then peer else _).unsent = _
      by_cases hp : p = owner
      · rw [if_pos hp, hunsent, hp]
        rfl
      · rw [if_neg hp]
        rfl
    · intro p
      show ((if p = owner then peer else _).inbox).map _ = _
      by_cases hp : p = owner
      · rw [if_pos hp, if_pos hp, hinbox, hp]
        rfl
      · rw [if_neg hp, if_neg hp, List.map_append, List.map_singleton, hcount]
        rfl

/-- **A broadcast arrives**: the first of the inbox becomes the peer's copy, whatever that was. -/
theorem refines_deliverUpdate (hc : ClusterOk key limit duration owner c) {p : ι} {now : ℤ}
    {g : UpdatePeerGlobal} {rest : List UpdatePeerGlobal} (hin : (c p).inbox = g :: rest) :
    ClusterOk key limit duration owner (c.set p ((c p).receiveUpdate now)) ∧
      Step owner limit (c.view key owner) ((c.set p ((c p).receiveUpdate now)).view key owner)
        (.heard p g.status.remaining) := by
  -- the owner's inbox is empty
  have hp : p ≠ owner := by
    rintro rfl
    rw [hc.inbox_owner] at hin
    cases hin
  obtain ⟨hpeer, hremaining, hrest, hunsent, hnews⟩ := (hc.peers p).receiveUpdate hin now
  refine ⟨hc.set hpeer (fun h => absurd h hp), .applied p _ (rest.map (fun g => g.status.remaining))
    hp ?_ ?_ ?_ ?_ (dirty_set (by rw [hnews]; exact id))⟩
  · show (c p).inbox.map _ = _
    rw [hin, List.map_cons]
  · rw [← hremaining]
    exact set_field (fun q => q.shard.remaining key) c p _
  · exact set_field_same (fun q => hitsOf q.unsent) c (by rw [hunsent])
  · refine (set_field (fun q => q.inbox.map (fun g => g.status.remaining)) c p _).trans ?_
    rw [hrest]
    rfl

/-- **Every step of the cluster is a step of the counter**, as long as no sum of hits wraps. -/
theorem step_refines (conf : Config) (host : Host) (hc : ClusterOk key limit duration owner c)
    (hlimit : 0 ≤ limit) {a : Action ι} (ha : Permitted key limit duration owner c a)
    (hmerge : mergeWraps c a = false) :
    ClusterOk key limit duration owner (c.step conf host owner a).2 ∧
      Step owner limit (c.view key owner) ((c.step conf host owner a).2.view key owner)
        (c.label a (c.step conf host owner a).1) := by
  cases a with
  | client p now r => exact refines_client hc hlimit ha
  | queueHit p i =>
    exact refines_forwards hc ((hc.peers p).queueHit i).1 ((hc.peers p).queueHit i).2
  | collectHit p =>
    exact refines_forwards hc ((hc.peers p).collectHit hmerge).1 ((hc.peers p).collectHit hmerge).2
  | sendHits p => exact refines_forwards hc (hc.peers p).sendHits.1 (hc.peers p).sendHits.2
  -- a call that is not there is delivered by doing nothing
  | deliverHits p i now =>
    cases hr : (c p).sending[i]? with
    | none =>
      simp only [Cluster.step, hr]
      exact ⟨hc, .idle rfl rfl rfl id⟩
    | some r =>
      simp only [Cluster.step, hr]
      exact refines_deliverHits hc hlimit hr ha
  | queueUpdate i =>
    exact refines_announces hc ((hc.peers owner).queueUpdate i).1 ((hc.peers owner).queueUpdate i).2
  | collectUpdate =>
    exact refines_announces hc (hc.peers owner).collectUpdate.1 (hc.peers owner).collectUpdate.2
  | broadcast now => exact refines_broadcast hc hlimit ha
  | deliverUpdate p now =>
    cases hin : (c p).inbox with
    | nil =>
      -- an empty inbox
      have hsame : (c p).receiveUpdate now = c p := by simp [Peer.receiveUpdate, hin]
      have hstep : (c.step conf host owner (.deliverUpdate p now)).2 = c := by
        simp only [Cluster.step, hsame]
        exact update_eq_self p c
      simp only [Cluster.label, hin, hstep]
      exact ⟨hc, .idle rfl rfl rfl id⟩
    | cons g rest =>
      simp only [Cluster.label, hin]
      exact refines_deliverUpdate hc hin

end Cluster

end Gubernator
