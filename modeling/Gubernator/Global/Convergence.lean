/-
  What the replicated counter gives for GLOBAL: the peers AGREE once everything has arrived, and
  how far they can admit too much together until then.

  A broadcast carries what the owner has counted, not what a peer has admitted and still queues.
  So it can raise a peer's copy, and the peer then admits the same tokens again; the bound of one
  limit per peer holds as long as it does not.

  Both results are the library's, for the view of the cluster as a replicated counter
  (`step_refines`).  What has to be shown here is that the view starts in order, that the labels say
  what clients sent and were granted, and that no sum of queued hits leaves `int64`: for agreement
  this follows, because the hits altogether are within the limit; for the bound it is a condition on
  the run.
-/
import Gubernator.Global.Refinement
import Gubernator.Lib.Machine

namespace Gubernator

open Replica

/-! ## Runs of a cluster

What is counted along a run, and the two ways in which a step can break the bound. -/

/-- Nothing of the peer's is queued, in a map or in flight. -/
@[mk_iff] structure Peer.Idle (p : Peer) : Prop where
  answered : p.answered = []
  hitsQueue : p.hitsQueue = []
  hits : p.hits = none
  sending : p.sending = []
  counted : p.counted = []
  broadcastQueue : p.broadcastQueue = []
  updates : p.updates = none
  inbox : p.inbox = []

instance (p : Peer) : Decidable p.Idle := decidable_of_iff _ (Peer.idle_iff p).symm

/-- A peer that has not heard of the key. -/
@[mk_iff] structure Peer.Fresh (key : String) (p : Peer) : Prop where
  idle : p.Idle
  cached : p.shard.cache.peek key = none
  stored : p.shard.stored key = none

instance (key : String) (p : Peer) : Decidable (p.Fresh key) :=
  decidable_of_iff _ (Peer.fresh_iff key p).symm

/-- The hits a client sends. -/
def Action.hits {ι : Type} : Action ι → ℤ
  | .client _ _ r => r.hits
  | _ => 0

/-- The hits clients sent along a run. -/
def sentHits {ι : Type} (run : List (Action ι)) : ℤ := (run.map Action.hits).sum

/-- The hits it is answered `UNDER_LIMIT`. -/
def Action.admitted {ι : Type} : Action ι × Option RateLimitResp → ℤ
  | (.client _ _ r, some resp) => Gubernator.admitted r resp
  | _ => 0

/-- The hits answered `UNDER_LIMIT` along a run, by all peers together. -/
def admittedHits {ι : Type} (events : List (Action ι × Option RateLimitResp)) : ℤ :=
  (events.map Action.admitted).sum

/-- The step delivers a status that raises what the peer has cached. -/
def raisesCopy {ι : Type} (key : String) (c : Cluster ι) : Action ι → Bool
  | .deliverUpdate p _ =>
    match (c p).inbox, (c p).shard.remaining key with
    | g :: _, some x => decide (x < g.status.remaining)
    | _, _ => false
  | _ => false

section Run
variable {ι : Type} {conf : Config} {host : Host} {key : String} {limit duration : ℤ} {owner : ι}
  {c : Cluster ι} {a : Action ι}

/-- An idle peer owes nothing. -/
theorem Peer.Idle.unsent_eq {p : Peer} (h : p.Idle) : p.unsent = [] := by
  simp [Peer.unsent, h.answered, h.hitsQueue, h.hits, h.sending]

/-- An idle peer has nothing to broadcast. -/
theorem Peer.Idle.news_eq {p : Peer} (h : p.Idle) : p.news = [] := by
  simp [Peer.news, h.counted, h.broadcastQueue, h.updates]

/-- Peers that have not heard of the key are in order. -/
theorem fresh_clusterOk (hfresh : ∀ p, (c p).Fresh key) :
    ClusterOk key limit duration owner c := by
  constructor
  · intro p
    obtain ⟨hidle, hc, hs⟩ := hfresh p
    refine ⟨.absent hc hs, ?_, ?_, ?_⟩
    · simp [hidle.unsent_eq]
    · simp [hidle.news_eq]
    · simp [hidle.inbox]
  · exact (hfresh owner).idle.inbox

/-- A peer that owes an `int64` of hits merges them exactly: the two that it adds are part of what
    it owes. -/
theorem mergeWraps_of_owed (hc : ClusterOk key limit duration owner c)
    (hrange : ∀ p r, r ∈ (c p).unsent → hitsOf (c p).unsent < 2 ^ 63) (a : Action ι) :
    mergeWraps c a = false := by
  cases a with
  | collectHit p =>
    show (c p).mergeWraps = false
    unfold Peer.mergeWraps
    split
    · rename_i r rest e hq he
      -- the request taken from the queue, the sum it is added to, and the rest
      have hunsent : (c p).unsent = (c p).answered ++ (r :: rest ++ (e :: (c p).sending)) := by
        simp [Peer.unsent, hq, he]
      have hlt := hrange p r (by simp [hunsent])
      have hrest : ∀ rs : List RateLimitReq, (∀ r' ∈ rs, r' ∈ (c p).unsent) → 0 ≤ hitsOf rs := by
        intro rs hrs
        refine List.sum_nonneg (fun n hn => ?_)
        obtain ⟨r', hr', rfl⟩ := List.mem_map.mp hn
        exact ((hc.peers p).unsent r' (hrs r' hr')).hits_nonneg
      have h1 := hrest (c p).answered (fun r' hr' => by simp [hunsent, hr'])
      have h2 := hrest rest (fun r' hr' => by simp [hunsent, hr'])
      have h3 := hrest (c p).sending (fun r' hr' => by simp [hunsent, hr'])
      rw [hunsent] at hlt
      simp only [hitsOf_append, hitsOf_cons] at hlt
      simp only [decide_eq_false_iff_not]
      omega
    · rfl
  | _ => rfl

/-- Clients ask for no negative hits. -/
theorem Permitted.hits_nonneg (ha : Permitted key limit duration owner c a) : 0 ≤ a.hits := by
  cases a with
  | client p now r => exact (ClientReq.toTokenReq ha).hits_nonneg
  | _ => exact le_rfl

/-- A status heard by a peer with a copy is at most the copy, unless it raises it. -/
theorem heard_label {answer : Option RateLimitResp} {p : ι} {m : ℤ}
    (hlabel : c.label a answer = .heard p m) (ha : raisesCopy key c a = false) :
    ∀ x, (c p).shard.remaining key = some x → m ≤ x := by
  intro x hx
  cases a with
  | deliverUpdate q now =>
    cases hin : (c q).inbox with
    | nil => simp [Cluster.label, hin] at hlabel
    | cons g rest =>
      simp only [Cluster.label, hin, Label.heard.injEq] at hlabel
      obtain ⟨rfl, rfl⟩ := hlabel
      simpa [raisesCopy, hin, hx] using ha
  | client q now r => cases answer <;> simp [Cluster.label] at hlabel
  | _ => simp [Cluster.label] at hlabel

variable [DecidableEq ι]

/-- What the library counts as asked are the hits sent. -/
theorem asked_label (a : Action ι) :
    asked (c.label a (c.step conf host owner a).1) = a.hits := by
  cases a with
  | client p now r => rfl
  | deliverUpdate p now =>
    cases h : (c p).inbox <;> simp [Cluster.label, Action.hits, asked, h]
  | deliverHits p i now => rfl
  | queueHit p i => rfl
  | collectHit p => rfl
  | sendHits p => rfl
  | queueUpdate i => rfl
  | collectUpdate => rfl
  | broadcast now => rfl

/-- What the library counts as granted are the hits admitted. -/
theorem granted_label (a : Action ι) :
    granted (c.label a (c.step conf host owner a).1) =
      Action.admitted (a, (c.step conf host owner a).1) := by
  cases a with
  | client p now r => rfl
  | deliverUpdate p now =>
    cases h : (c p).inbox <;> simp [Cluster.label, Action.admitted, granted, h]
  | deliverHits p i now => rfl
  | queueHit p i => rfl
  | collectHit p => rfl
  | sendHits p => rfl
  | queueUpdate i => rfl
  | collectUpdate => rfl
  | broadcast now => rfl

end Run

/-! ## Agreement

The copies agree on the limit less all hits sent, provided that these are within the limit. -/

/-- **GLOBAL converges**: once nothing is queued or in flight, the owner's `Remaining` is the limit
    less all hits sent, and every other peer has cached the same. -/
theorem global_convergence {ι : Type} [DecidableEq ι] [Fintype ι] (conf : Config) (host : Host)
    (key : String) (limit duration : ℤ) (owner : ι) (c : Cluster ι) (run : List (Action ι))
    (hfresh : ∀ p, (c p).Fresh key)
    (hrun : Machine.Guarded (Cluster.step conf host owner)
      (Permitted key limit duration owner) c run)
    (htotal : sentHits run ≤ limit) (hsome : 0 < sentHits run)
    (hidle : ∀ p, (Machine.exec (Cluster.step conf host owner) c run p).Idle) :
    (Machine.exec (Cluster.step conf host owner) c run owner).shard.remaining key =
        some (limit - sentHits run) ∧
      ∀ p, p ≠ owner →
        (Machine.exec (Cluster.step conf host owner) c run p).shard.remaining key =
          (Machine.exec (Cluster.step conf host owner) c run owner).shard.remaining key := by
  have hlimit : 0 ≤ limit := by omega
  have hinv := Machine.history_rule
    (P := fun h c => sentHits (h.map Prod.fst) ≤ limit →
      ClusterOk key limit duration owner c ∧
        Converging owner limit (sentHits (h.map Prod.fst)) (c.view key owner))
    (by
      intro h c a ha hP hle
      have hsent : sentHits ((h ++ [(a, (c.step conf host owner a).1)]).map Prod.fst) =
          sentHits (h.map Prod.fst) + a.hits := by
        simp [sentHits]
      rw [hsent] at hle ⊢
      -- the invariant before the step: the hits sent by then are within the limit as well
      obtain ⟨hc, hconv⟩ := hP (by have := ha.hits_nonneg; omega)
      -- no peer owes more than the limit, which is an `int64`
      have hmerge : mergeWraps c a = false := by
        refine mergeWraps_of_owed hc (fun p r hr => ?_) a
        have howed : hitsOf (c p).unsent ≤ sentHits (h.map Prod.fst) := hconv.owed_le p
        have := ((hc.peers p).unsent r hr).limit_lt
        have := ha.hits_nonneg
        omega
      obtain ⟨hc', hstep⟩ := step_refines conf host hc hlimit ha hmerge
      have hnext := hconv.step hstep (by rw [asked_label]; exact hle)
      rw [asked_label] at hnext
      exact ⟨hc', hnext⟩)
    hrun (fun _ => ⟨fresh_clusterOk hfresh, ?_⟩)
  · -- at the end nothing is owed, to be heard or to be published
    rw [Machine.map_fst_events] at hinv
    have hagreed := (hinv htotal).2.agreed hsome (fun hd => hd (hidle owner).news_eq)
      (fun p => by
        show hitsOf _ = 0
        rw [(hidle p).unsent_eq]
        rfl)
      (fun p => by
        show List.map _ _ = []
        rw [(hidle p).inbox]
        rfl)
    exact ⟨hagreed owner, fun p _ => (hagreed p).trans (hagreed owner).symm⟩
  · -- at the start all copies are absent, and count as full
    have hcopy : ∀ p, (c.view key owner).copy p = none := fun p =>
      remaining_of_absent (hfresh p).cached
    have howed : ∀ p, (c.view key owner).owed p = 0 := fun p => by
      show hitsOf _ = 0
      rw [(hfresh p).idle.unsent_eq]
      rfl
    refine ⟨fun p => (howed p).ge, ?_, ?_, fun p _ => .inr (.inr (.inl ?_))⟩
    · simp [State.count, hcopy]
    · simp [State.count, hcopy, howed, sentHits]
    · simp [State.count, hcopy]

/-- A GLOBAL token-bucket request that lasts a minute, created at 1 s. -/
def globalReq (hits limit : ℤ) : RateLimitReq :=
  { RateLimitReq.sample hits limit 60000 0 1000 0 with
    algorithm := .tokenBucket, behavior := .global }

/-- Two peers that have not heard of any key. -/
def twoPeers : Cluster (Fin 2) := fun _ => { shard := .ofItems [] }

/-- Peer 1 admits three hits and then one; they reach peer 0, which owns the key, together, and its
    count comes back. -/
def syncRun : List (Action (Fin 2)) :=
  [.client 1 1000000000 (globalReq 3 10), .queueHit 1 0, .collectHit 1,
    .client 1 1000000000 (globalReq 1 10), .queueHit 1 0, .collectHit 1, .sendHits 1,
    .deliverHits 1 0 1000000000, .queueUpdate 0, .collectUpdate, .broadcast 1000000000,
    .deliverUpdate 1 1000000000]

/-- Both have six left of ten. -/
theorem global_convergence_syncRun :
    (Machine.exec (Cluster.step ⟨300000000000⟩ .amd64 0) twoPeers syncRun 0).shard.remaining
        "requests_account:1" = some (10 - sentHits syncRun) ∧
      ∀ p, p ≠ 0 →
        (Machine.exec (Cluster.step ⟨300000000000⟩ .amd64 0) twoPeers syncRun p).shard.remaining
            "requests_account:1" =
          (Machine.exec (Cluster.step ⟨300000000000⟩ .amd64 0) twoPeers syncRun 0).shard.remaining
            "requests_account:1" :=
  global_convergence ⟨300000000000⟩ .amd64 "requests_account:1" 10 60000 0 twoPeers syncRun
    (by decide +kernel) (by decide +kernel) (by decide +kernel) (by decide +kernel)
    (by decide +kernel)

/-! ## What the peers admit together

The bound, and the two ways around it. -/

/-- **The peers together admit at most the limit each**, in a run in which no broadcast raises what
    the peer it reaches has cached, and no sum of queued hits wraps. -/
theorem admitted_le_peers_mul_limit {ι : Type} [DecidableEq ι] [Fintype ι] (conf : Config)
    (host : Host) (key : String) (limit duration : ℤ) (hlimit : 0 ≤ limit) (owner : ι)
    (c : Cluster ι) (run : List (Action ι)) (hfresh : ∀ p, (c p).Fresh key)
    (hrun : Machine.Guarded (Cluster.step conf host owner)
      (fun c a => Permitted key limit duration owner c a ∧ raisesCopy key c a = false ∧
        mergeWraps c a = false) c run) :
    admittedHits (Machine.events (Cluster.step conf host owner) c run) ≤
      Fintype.card ι * limit := by
  have hinv := Machine.history_rule
    (P := fun h c => ClusterOk key limit duration owner c ∧ ∃ given : ι → ℤ,
      Granting limit given (c.view key owner) ∧ ∑ p, given p = admittedHits h)
    (by
      rintro h c a ⟨ha, hraise, hmerge⟩ ⟨hc, given, hgrant, hsum⟩
      obtain ⟨hc', hstep⟩ := step_refines conf host hc hlimit ha hmerge
      refine ⟨hc', _, hgrant.step hstep (fun p m hl => heard_label hl hraise), ?_⟩
      rw [Finset.sum_add_distrib, hsum, sum_grantedAt, granted_label]
      simp [admittedHits])
    hrun ⟨fresh_clusterOk hfresh, fun _ => 0, ?_, by simp [admittedHits]⟩
  · obtain ⟨-, given, hgrant, hsum⟩ := hinv
    rw [← hsum]
    exact hgrant.sum_le
  · -- at the start nobody has granted anything
    have hcopy : ∀ p, (c.view key owner).copy p = none := fun p =>
      remaining_of_absent (hfresh p).cached
    have hinbox : ∀ p, (c.view key owner).inbox p = [] := fun p => by
      show List.map _ _ = []
      rw [(hfresh p).idle.inbox]
      rfl
    exact ⟨fun p => le_rfl, fun p => by simpa [State.count, hcopy] using hlimit,
      fun p => by simp [State.count, hcopy], fun p m hm => by simp [hinbox] at hm⟩

/-- The owner refuses two hits and broadcasts that it still has its one token. -/
def refusedBroadcast : List (Action (Fin 2)) :=
  [.client 0 1000000000 (globalReq 2 1), .queueUpdate 0, .collectUpdate, .broadcast 1000000000,
    .deliverUpdate 1 1000000000]

/-- Peer 1 admits a hit, which waits in its map for the next send. -/
def unsentHit : List (Action (Fin 2)) :=
  [.client 1 1000000000 (globalReq 1 1), .queueHit 1 0, .collectHit 1]

/-- Peer 1 admits the one token there is, hears from the owner that it is there, and admits it
    again. -/
def overAdmittingRun : List (Action (Fin 2)) :=
  unsentHit ++ refusedBroadcast ++ unsentHit ++ refusedBroadcast ++ unsentHit

/-- Peer 1 refuses a request for `2 ^ 62` hits and queues it all the same. -/
def refusedHits : List (Action (Fin 2)) :=
  [.client 1 1000000000 (globalReq (2 ^ 62) 10), .queueHit 1 0, .collectHit 1]

/-- Three of them are merged to `-2 ^ 62`, which the owner takes off a new bucket.  Nothing is
    broadcast before it admits a hundred hits. -/
def wrappingRun : List (Action (Fin 2)) :=
  refusedHits ++ refusedHits ++ refusedHits ++
    [.sendHits 1, .deliverHits 1 0 1000000000, .client 0 1000000000 (globalReq 100 10)]

/-- Two peers with a limit of one admit three hits, by a broadcast that raises a copy; with a limit
    of ten they admit a hundred, by a sum that wraps. -/
theorem over_admission :
    (Machine.Guarded (Cluster.step ⟨300000000000⟩ .amd64 0)
      (Permitted "requests_account:1" 1 60000 0) twoPeers overAdmittingRun ∧
    (∀ p, (twoPeers p).Fresh "requests_account:1") ∧
    admittedHits (Machine.events (Cluster.step ⟨300000000000⟩ .amd64 0) twoPeers
      overAdmittingRun) = 3 ∧
    ¬ admittedHits (Machine.events (Cluster.step ⟨300000000000⟩ .amd64 0) twoPeers
      overAdmittingRun) ≤ (Fintype.card (Fin 2) : ℤ) * 1) ∧
    Machine.Guarded (Cluster.step ⟨300000000000⟩ .amd64 0)
      (Permitted "requests_account:1" 10 60000 0) twoPeers wrappingRun ∧
    admittedHits (Machine.events (Cluster.step ⟨300000000000⟩ .amd64 0) twoPeers wrappingRun) =
      100 ∧
    ¬ admittedHits (Machine.events (Cluster.step ⟨300000000000⟩ .amd64 0) twoPeers wrappingRun) ≤
      (Fintype.card (Fin 2) : ℤ) * 10 :=
  ⟨⟨by decide +kernel, by decide +kernel, by decide +kernel, by decide +kernel⟩, by decide +kernel,
    by decide +kernel, by decide +kernel⟩

/-- The run above is one in which nothing is raised and nothing wraps. -/
theorem admitted_le_peers_mul_limit_syncRun :
    admittedHits (Machine.events (Cluster.step ⟨300000000000⟩ .amd64 0) twoPeers syncRun) ≤
      (Fintype.card (Fin 2) : ℤ) * 10 :=
  admitted_le_peers_mul_limit ⟨300000000000⟩ .amd64 "requests_account:1" 10 60000 (by decide) 0
    twoPeers syncRun (by decide +kernel) (by decide +kernel)

end Gubernator
