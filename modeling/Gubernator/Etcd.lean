/-
  THE PEERS IN ETCD (`etcd.go`, `watchPeers`, `collectPeers`, `watch`, `callOnUpdate`,
  `unMarshallValue`).

  Every instance registers itself under a key of its own.  `watch` keeps up with the others: it
  lists all keys, remembers the REVISION the listing was made at, watches from that revision, and
  lists everything again whenever the watch has something to say.  Nothing is read from the events
  themselves, so what matters is that no change goes by without a listing after it.

      a change before a listing     is in the listing;
      a change after it             has a higher revision than the listing, so the watch, which
                                    starts AT that revision, still has it to deliver.

  Three things go wrong on the way.  A watch that breaks, or does not start, is started anew with a
  new listing.  A listing that fails while a watch is on is NOT made again: `watch` drops the error,
  and the peers stay as they were until the next change (`stale`).  A watch that the server cancels
  counts as a shutdown, and nothing is ever listed again (`stopped`).

  The server is its revision, the keys under the prefix in order, and the revisions those changed
  at; other keys change the revision too.  What others do, and what goes wrong, happens a number of
  times that is any number.
-/
import Gubernator.Lib.Interleaving
import Gubernator.GetRateLimits
import Mathlib.Data.List.AList
import Mathlib.Logic.Relation

namespace Gubernator

open Interleaving

/-! ## Values -/

/-- `json.Unmarshal` of a value into a `PeerInfo`, and the value as a string. -/
structure EtcdValues (Bytes : Type) where
  json : Bytes → Except String PeerInfo
  string : Bytes → String

section Values
variable {Bytes : Type} (val : EtcdValues Bytes)

/-- An older instance registers its bare address. -/
def unMarshallValue (v : Bytes) : PeerInfo :=
  match val.json v with
  | .ok p => p
  | .error _ => { grpcAddress := val.string v, isOwner := false }

/-- The map `collectPeers` makes of a listing; a later key takes the place of an earlier one that
    has the same address. -/
def collectPeers (kvs : List (String × Bytes)) : AList (fun _ : String => PeerInfo) :=
  kvs.foldl (fun peers kv =>
    peers.insert (unMarshallValue val kv.2).grpcAddress (unMarshallValue val kv.2)) ∅

/-- The peer as it is passed on. -/
def markOwner (advertise : String) (p : PeerInfo) : PeerInfo :=
  if p.grpcAddress = advertise then { p with isOwner := true } else p

/-- **A listing passed on**, in one of the orders a map can be read in. -/
def CallOnUpdate (advertise : String) (kvs : List (String × Bytes)) (peers : List PeerInfo) :
    Prop :=
  peers.Perm ((collectPeers val kvs).entries.map (fun p => markOwner advertise p.2))

/-- **Registered**: every instance has its own key, the prefix and its address. -/
structure Registered (keyPrefix : String) (kvs : List (String × Bytes)) : Prop where
  keys : ∀ kv ∈ kvs, kv.1 = keyPrefix ++ (unMarshallValue val kv.2).grpcAddress
  nodup : (kvs.map Prod.fst).Nodup

variable {val}

/-- The map has the registered peers, each once. -/
theorem collectPeers_registered {keyPrefix : String} {kvs : List (String × Bytes)}
    (h : Registered val keyPrefix kvs) :
    ((collectPeers val kvs).entries.map (fun p => p.2)).Perm
      (kvs.map (fun kv => unMarshallValue val kv.2)) := by
  have haddresses : (kvs.map (fun kv => (unMarshallValue val kv.2).grpcAddress)).Nodup := by
    have hkeys : kvs.map Prod.fst =
        (kvs.map (fun kv => (unMarshallValue val kv.2).grpcAddress)).map (keyPrefix ++ ·) := by
      rw [List.map_map]
      exact List.map_congr_left h.keys
    exact List.Nodup.of_map _ (hkeys ▸ h.nodup)
  -- from any map that has none of the addresses
  suffices hall : ∀ (kvs : List (String × Bytes)) (m : AList (fun _ : String => PeerInfo)),
      (kvs.map (fun kv => (unMarshallValue val kv.2).grpcAddress)).Nodup →
      (∀ kv ∈ kvs, (unMarshallValue val kv.2).grpcAddress ∉ m) →
      ((kvs.foldl (fun peers kv =>
        peers.insert (unMarshallValue val kv.2).grpcAddress (unMarshallValue val kv.2))
          m).entries.map (fun p => p.2)).Perm
        (m.entries.map (fun p => p.2) ++ kvs.map (fun kv => unMarshallValue val kv.2)) by
    exact hall kvs ∅ haddresses (fun kv _ => AList.notMem_empty _)
  intro kvs
  induction kvs with
  | nil =>
    intro m _ _
    simp
  | cons kv kvs ih =>
    intro m hnodup hnew
    rw [List.map_cons, List.nodup_cons] at hnodup
    have hhead := hnew kv List.mem_cons_self
    refine (ih _ hnodup.2 (fun kv' hkv' => ?_)).trans ?_
    · rw [AList.mem_insert]
      rintro (heq | hold)
      · exact hnodup.1 (heq ▸ List.mem_map_of_mem hkv')
      · exact hnew kv' (List.mem_cons_of_mem _ hkv') hold
    · rw [AList.entries_insert_of_notMem hhead, List.map_cons, List.map_cons]
      exact List.perm_middle.symm

end Values

/-! ## The watch

Server and instance take their steps in any order.  How often the keys change, and how often a call
fails, is given at the start and counted down, so that a run comes to an end and can be judged
there. -/

/-- Where `watch` is; a watch has the revision it goes on from. -/
inductive WatchStage where
  /-- in `watchPeers`, at the listing -/
  | collecting
  /-- at the start of the watch -/
  | opening (next : ℕ)
  /-- at `range e.watchChan` -/
  | watching (next : ℕ)
  /-- has a response, and is at the listing for it -/
  | handling (next : ℕ)
  | backingOff
  | stopped

/-- The revision the watch goes on from, if there is a watch. -/
def WatchStage.next : WatchStage → Option ℕ
  | opening next => some next
  | watching next => some next
  | handling next => some next
  | _ => none

/-- The server and the instance that watches it.  `changed` are the revisions that the keys under
    the prefix changed at; `seen` is the revision of the last listing, and `stale` is set from a
    listing that failed to the next that did not.  `changes` and `faults` are still to come. -/
structure EtcdWatch (Bytes : Type) where
  kvs : List (String × Bytes)
  revision : ℕ
  changed : List ℕ
  changes : ℕ
  faults : ℕ
  stage : WatchStage := .collecting
  peers : List PeerInfo := []
  seen : ℕ := 0
  stale : Bool := true

section Watch
variable {Bytes : Type} (val : EtcdValues Bytes) (advertise keyPrefix : String)

/-- **One step** of etcd, or of the instance that watches it. -/
inductive WatchStep : EtcdWatch Bytes → EtcdWatch Bytes → Prop
  /-- an instance registers, or its key is deleted -/
  | change {s : EtcdWatch Bytes} {k : ℕ} {kvs : List (String × Bytes)} : s.changes = k + 1 →
      Registered val keyPrefix kvs →
      WatchStep s { s with
        kvs, changes := k, revision := s.revision + 1, changed := s.changed ++ [s.revision + 1] }
  /-- a key elsewhere changes -/
  | elsewhere {s : EtcdWatch Bytes} {k : ℕ} : s.changes = k + 1 →
      WatchStep s { s with changes := k, revision := s.revision + 1 }
  | collect {s : EtcdWatch Bytes} {peers : List PeerInfo} : s.stage = .collecting →
      CallOnUpdate val advertise s.kvs peers →
      WatchStep s { s with
        peers, seen := s.revision, stale := false, stage := .opening s.revision }
  | collectFails {s : EtcdWatch Bytes} {k : ℕ} : s.stage = .collecting → s.faults = k + 1 →
      WatchStep s { s with faults := k, stage := .backingOff }
  | opened {s : EtcdWatch Bytes} {next : ℕ} : s.stage = .opening next →
      WatchStep s { s with stage := .watching next }
  /-- timed out while waiting for `watcher.Watch()` -/
  | openFails {s : EtcdWatch Bytes} {next k : ℕ} : s.stage = .opening next → s.faults = k + 1 →
      WatchStep s { s with faults := k, stage := .backingOff }
  /-- a response with some of the events; its last is at `last` -/
  | respond {s : EtcdWatch Bytes} {next last : ℕ} : s.stage = .watching next →
      last ∈ s.changed → next ≤ last → WatchStep s { s with stage := .handling (last + 1) }
  | handle {s : EtcdWatch Bytes} {next : ℕ} {peers : List PeerInfo} : s.stage = .handling next →
      CallOnUpdate val advertise s.kvs peers →
      WatchStep s { s with peers, seen := s.revision, stale := false, stage := .watching next }
  /-- `_ = e.collectPeers(&rev)` -/
  | handleFails {s : EtcdWatch Bytes} {next k : ℕ} : s.stage = .handling next → s.faults = k + 1 →
      WatchStep s { s with faults := k, stale := true, stage := .watching next }
  /-- a response with an error, or the channel is closed -/
  | breaks {s : EtcdWatch Bytes} {next k : ℕ} : s.stage = .watching next → s.faults = k + 1 →
      WatchStep s { s with faults := k, stage := .collecting }
  /-- `response.Canceled`, or a shutdown -/
  | cancel {s : EtcdWatch Bytes} {next k : ℕ} : s.stage = .watching next → s.faults = k + 1 →
      WatchStep s { s with faults := k, stage := .stopped }
  | again {s : EtcdWatch Bytes} : s.stage = .backingOff →
      WatchStep s { s with stage := .collecting }

/-- An instance that starts up, with a server in any state. -/
def EtcdWatch.start (kvs : List (String × Bytes)) (revision : ℕ) (changed : List ℕ)
    (changes faults : ℕ) : EtcdWatch Bytes :=
  { kvs, revision, changed, changes, faults }

namespace EtcdWatch

/-- The events the watch has to deliver. -/
def pending (s : EtcdWatch Bytes) (next : ℕ) : List ℕ := s.changed.filter (fun e => next ≤ e)

/-- **What `watch` keeps**: the peers are those listed at `seen`, and what has changed since is
    still to be delivered, unless a listing failed. -/
structure Sound (s : EtcdWatch Bytes) : Prop where
  registered : Registered val keyPrefix s.kvs
  nodup : s.changed.Nodup
  past : ∀ e ∈ s.changed, e ≤ s.revision
  seen_le : s.seen ≤ s.revision
  next_le : ∀ next, s.stage.next = some next → next ≤ s.revision + 1
  listed : s.stale = false → (∀ e ∈ s.changed, e ≤ s.seen) →
    CallOnUpdate val advertise s.kvs s.peers
  opening : ∀ next, s.stage = .opening next → s.stale = false ∧ next = s.seen
  watching : ∀ next, s.stage = .watching next → s.stale = false →
    ∀ e ∈ s.changed, s.seen < e → next ≤ e

/-- The steps left: a listing has at most one event at its own revision to be told of again. -/
def rank (s : EtcdWatch Bytes) : ℕ :=
  4 * s.changes + 12 * s.faults +
    match s.stage with
    | .collecting => 10
    | .opening next => 5 + 3 * (s.pending next).length
    | .watching next => 3 * (s.pending next).length
    | .handling next => 2 + 3 * (s.pending next).length
    | .backingOff => 11
    | .stopped => 0

/-- **At rest**: stopped for good, or watching with nothing to deliver and no change to come; and
    then the peers are the registered ones, unless the last listing failed. -/
def Settled (s : EtcdWatch Bytes) : Prop :=
  s.stage = .stopped ∨
  (s.changes = 0 ∧ (∃ next, s.stage = .watching next ∧ s.pending next = []) ∧
    (s.stale = true ∨
      s.peers.Perm (s.kvs.map (fun kv => markOwner advertise (unMarshallValue val kv.2)))))

end EtcdWatch

end Watch

namespace EtcdWatch

section Steps
variable {Bytes : Type} {val : EtcdValues Bytes} {advertise keyPrefix : String}
  {s t : EtcdWatch Bytes}

/-- A listing at the present revision. -/
theorem Sound.collected (h : Sound val advertise keyPrefix s) {peers : List PeerInfo}
    (hpeers : CallOnUpdate val advertise s.kvs peers) {stage : WatchStage}
    (hnext : ∀ next, stage.next = some next → next ≤ s.revision + 1)
    (hopening : ∀ next, stage = .opening next → next = s.revision) :
    Sound val advertise keyPrefix { s with
      peers, seen := s.revision, stale := false, stage } where
  registered := h.registered
  nodup := h.nodup
  past := h.past
  seen_le := le_refl _
  next_le := hnext
  listed := fun _ _ => hpeers
  opening next hstage := ⟨rfl, hopening next hstage⟩
  watching _ _ _ e he hlt := absurd (h.past e he) (not_le.mpr hlt)

/-- Another stage, which is not that of a watch, or whose watch has to deliver what it has to. -/
theorem Sound.goTo (h : Sound val advertise keyPrefix s) {stage : WatchStage} (faults : ℕ)
    {stale : Bool} (hstale : stale = false → s.stale = false)
    (hnext : ∀ next, stage.next = some next → next ≤ s.revision + 1)
    (hopening : ∀ next, stage ≠ .opening next)
    (hwatching : ∀ next, stage = .watching next → stale = false →
      ∀ e ∈ s.changed, s.seen < e → next ≤ e) :
    Sound val advertise keyPrefix { s with faults, stale, stage } where
  registered := h.registered
  nodup := h.nodup
  past := h.past
  seen_le := h.seen_le
  next_le := hnext
  listed hfalse := h.listed (hstale hfalse)
  opening next hstage := absurd hstage (hopening next)
  watching := hwatching

/-- A change under the prefix. -/
theorem Sound.change (h : Sound val advertise keyPrefix s) {kvs : List (String × Bytes)}
    (hkvs : Registered val keyPrefix kvs) (k : ℕ) :
    Sound val advertise keyPrefix { s with
      kvs, changes := k, revision := s.revision + 1
      changed := s.changed ++ [s.revision + 1] } := by
  have hseen := h.seen_le
  refine ⟨hkvs, ?_, ?_, hseen.trans (Nat.le_succ _), ?_, ?_, h.opening, ?_⟩
  · rw [List.nodup_append]
    refine ⟨h.nodup, List.nodup_singleton _, fun a ha b hb => ?_⟩
    rw [List.mem_singleton.mp hb]
    exact (Nat.lt_succ_of_le (h.past a ha)).ne
  · intro e he
    rcases List.mem_append.mp he with he | he
    · exact (h.past e he).trans (Nat.le_succ _)
    · exact (List.mem_singleton.mp he).le
  · intro next hnext
    exact (h.next_le next hnext).trans (Nat.le_succ _)
  · -- the listing is out of date
    intro _ hall
    have hle : s.revision + 1 ≤ s.seen :=
      hall (s.revision + 1) (List.mem_append_right _ (List.mem_singleton_self _))
    omega
  · intro next hnext hstale e he hlt
    rcases List.mem_append.mp he with he | he
    · exact h.watching next hnext hstale e he hlt
    · rw [List.mem_singleton.mp he]
      refine h.next_le next ?_
      rw [show s.stage = .watching next from hnext]
      rfl

/-- A change adds at most one event that the watch has yet to see. -/
theorem length_pending_change (s : EtcdWatch Bytes) (kvs : List (String × Bytes)) (k next : ℕ) :
    (pending { s with kvs, changes := k, revision := s.revision + 1,
                      changed := s.changed ++ [s.revision + 1] } next).length ≤
      (s.pending next).length + 1 := by
  simp only [pending, List.filter_append, List.length_append]
  have hone := List.length_filter_le (fun e => decide (next ≤ e)) [s.revision + 1]
  rw [List.length_singleton] at hone
  omega

/-- From the present revision at most one event is delivered. -/
theorem Sound.length_pending_revision (h : Sound val advertise keyPrefix s) :
    (s.pending s.revision).length ≤ 1 := by
  have hall : ∀ e ∈ s.pending s.revision, e = s.revision := by
    intro e he
    obtain ⟨hmem, hle⟩ := List.mem_filter.mp he
    exact le_antisymm (h.past e hmem) (of_decide_eq_true hle)
  have hnodup : (s.pending s.revision).Nodup := h.nodup.filter _
  rw [List.eq_replicate_of_mem hall] at hnodup
  exact List.nodup_replicate.mp hnodup

/-- A response delivers an event at least. -/
theorem length_pending_respond {next last : ℕ} (hlast : last ∈ s.changed) (hle : next ≤ last) :
    (s.pending (last + 1)).length < (s.pending next).length := by
  have hsub : (s.pending (last + 1)).length ≤
      ((s.pending next).filter (fun e => last < e)).length := by
    rw [pending, pending, List.filter_filter]
    refine (List.Sublist.length_le ?_)
    refine List.monotone_filter_right _ (fun e he => ?_)
    simp only [decide_eq_true_eq, Bool.and_eq_true] at he ⊢
    omega
  have hless : ((s.pending next).filter (fun e => last < e)).length < (s.pending next).length := by
    refine List.length_filter_lt_length_iff_exists.mpr ⟨last, ?_, by simp⟩
    exact List.mem_filter.mpr ⟨hlast, by simpa using hle⟩
  omega

/-- **Step.** -/
theorem Sound.step (h : Sound val advertise keyPrefix s)
    (hstep : WatchStep val advertise keyPrefix s t) :
    Sound val advertise keyPrefix t ∧ t.rank < s.rank := by
  cases hstep with
  | @change k kvs hk hkvs =>
    refine ⟨h.change hkvs k, ?_⟩
    have hpending := fun next => length_pending_change s kvs k next
    cases hstage : s.stage with
    | opening next =>
      have := hpending next
      simp only [rank, hstage, hk] at this ⊢
      omega
    | watching next =>
      have := hpending next
      simp only [rank, hstage, hk] at this ⊢
      omega
    | handling next =>
      have := hpending next
      simp only [rank, hstage, hk] at this ⊢
      omega
    | _ =>
      simp only [rank, hstage, hk]
      omega
  | elsewhere hk =>
    refine ⟨⟨h.registered, h.nodup, fun e he => (h.past e he).trans (Nat.le_succ _),
      h.seen_le.trans (Nat.le_succ _),
      fun next hnext => (h.next_le next hnext).trans (Nat.le_succ _),
      h.listed, h.opening, h.watching⟩, ?_⟩
    simp only [rank, hk, pending]
    omega
  | collect hstage hpeers =>
    refine ⟨h.collected hpeers (fun next hnext => ?_) (fun next hnext => ?_), ?_⟩
    · obtain rfl := Option.some.inj hnext
      exact Nat.le_succ _
    · exact (WatchStage.opening.inj hnext).symm
    · have hone := h.length_pending_revision
      simp only [rank, hstage]
      simp only [pending] at hone ⊢
      omega
  | @collectFails k hstage hk =>
    refine ⟨h.goTo k id (fun next hnext => by cases hnext) (fun next hnext => by cases hnext)
      (fun next hnext => by cases hnext), ?_⟩
    simp only [rank, hstage, hk]
    omega
  | @opened next hstage =>
    obtain ⟨hstale, rfl⟩ := h.opening next hstage
    refine ⟨h.goTo s.faults id (fun next hnext => ?_) (fun next hnext => by cases hnext)
      (fun next hnext _ e he hlt => ?_), ?_⟩
    · exact h.next_le next (by rw [hstage]; exact hnext)
    · obtain rfl := WatchStage.watching.inj hnext
      exact hlt.le
    · simp only [rank, hstage, pending]
      omega
  | @openFails next k hstage hk =>
    refine ⟨h.goTo k id (fun next hnext => by cases hnext) (fun next hnext => by cases hnext)
      (fun next hnext => by cases hnext), ?_⟩
    simp only [rank, hstage, hk]
    omega
  | @respond next last hstage hlast hle =>
    refine ⟨h.goTo s.faults id (fun next hnext => ?_) (fun next hnext => by cases hnext)
      (fun next hnext => by cases hnext), ?_⟩
    · obtain rfl := Option.some.inj hnext
      exact Nat.succ_le_succ (h.past last hlast)
    · have hless := length_pending_respond hlast hle
      simp only [rank, hstage]
      simp only [pending] at hless ⊢
      omega
  | @handle next peers hstage hpeers =>
    refine ⟨h.collected hpeers (fun next hnext => ?_) (fun next hnext => by cases hnext), ?_⟩
    · exact h.next_le next (by rw [hstage]; exact hnext)
    · simp only [rank, hstage, pending]
      omega
  | @handleFails next k hstage hk =>
    refine ⟨h.goTo k (fun hfalse => by cases hfalse) (fun next hnext => ?_)
      (fun next hnext => by cases hnext) (fun next _ hfalse => by cases hfalse), ?_⟩
    · exact h.next_le next (by rw [hstage]; exact hnext)
    · simp only [rank, hstage, hk, pending]
      omega
  | @breaks next k hstage hk =>
    refine ⟨h.goTo k id (fun next hnext => by cases hnext) (fun next hnext => by cases hnext)
      (fun next hnext => by cases hnext), ?_⟩
    simp only [rank, hstage, hk]
    omega
  | @cancel next k hstage hk =>
    refine ⟨h.goTo k id (fun next hnext => by cases hnext) (fun next hnext => by cases hnext)
      (fun next hnext => by cases hnext), ?_⟩
    simp only [rank, hstage, hk]
    omega
  | again hstage =>
    refine ⟨h.goTo s.faults id (fun next hnext => by cases hnext) (fun next hnext => by cases hnext)
      (fun next hnext => by cases hnext), ?_⟩
    simp only [rank, hstage]
    omega

/-- A listing, in the order of the map. -/
theorem callOnUpdate_entries (val : EtcdValues Bytes) (advertise : String)
    (kvs : List (String × Bytes)) :
    CallOnUpdate val advertise kvs
      ((collectPeers val kvs).entries.map (fun p => markOwner advertise p.2)) :=
  List.Perm.refl _

/-- The peers of a listing of registered instances. -/
theorem callOnUpdate_registered {kvs : List (String × Bytes)} {peers : List PeerInfo}
    (h : CallOnUpdate val advertise kvs peers) (hkvs : Registered val keyPrefix kvs) :
    peers.Perm (kvs.map (fun kv => markOwner advertise (unMarshallValue val kv.2))) := by
  have hmap := (collectPeers_registered hkvs).map (markOwner advertise)
  rw [List.map_map, List.map_map] at hmap
  exact h.trans hmap

/-- **`watch` goes on until it is at rest.** -/
theorem Sound.goes_on (h : Sound val advertise keyPrefix s) :
    s.Settled val advertise ∨ ∃ t, WatchStep val advertise keyPrefix s t := by
  cases hstage : s.stage with
  | collecting => exact .inr ⟨_, .collect hstage (callOnUpdate_entries val advertise s.kvs)⟩
  | opening next => exact .inr ⟨_, .opened hstage⟩
  | handling next => exact .inr ⟨_, .handle hstage (callOnUpdate_entries val advertise s.kvs)⟩
  | backingOff => exact .inr ⟨_, .again hstage⟩
  | stopped => exact .inl (.inl hstage)
  | watching next =>
    cases hpending : s.pending next with
    | cons e rest =>
      have he : e ∈ s.pending next := hpending ▸ List.mem_cons_self
      obtain ⟨hmem, hle⟩ := List.mem_filter.mp he
      exact .inr ⟨_, .respond hstage hmem (of_decide_eq_true hle)⟩
    | nil =>
      cases hchanges : s.changes with
      | succ k => exact .inr ⟨_, .elsewhere hchanges⟩
      | zero =>
        refine .inl (.inr ⟨hchanges, ⟨next, hstage, hpending⟩, ?_⟩)
        cases hstale : s.stale with
        | true => exact .inl rfl
        | false =>
          -- a change since the listing would be pending
          refine .inr (callOnUpdate_registered (h.listed hstale (fun e he => ?_)) h.registered)
          by_contra hlt
          have hlate := h.watching next hstage hstale e he (not_le.mp hlt)
          have hin : e ∈ s.pending next := List.mem_filter.mpr ⟨he, by simpa using hlate⟩
          rw [hpending] at hin
          cases hin

/-- A pool that has not collected yet is sound, whatever etcd holds. -/
theorem sound_start {kvs : List (String × Bytes)} {revision : ℕ} {changed : List ℕ}
    (hkvs : Registered val keyPrefix kvs) (hnodup : changed.Nodup)
    (hpast : ∀ e ∈ changed, e ≤ revision) (changes faults : ℕ) :
    Sound val advertise keyPrefix (start kvs revision changed changes faults) where
  registered := hkvs
  nodup := hnodup
  past := hpast
  seen_le := Nat.zero_le _
  next_le next hnext := by cases hnext
  listed hstale := by cases hstale
  opening next hnext := by cases hnext
  watching next hnext := by cases hnext

/-- Whatever happens after it has stopped. -/
theorem stopped_stays (hstop : s.stage = .stopped)
    (hreach : Relation.ReflTransGen (WatchStep val advertise keyPrefix) s t) :
    t.stage = .stopped ∧ t.peers = s.peers := by
  induction hreach with
  | refl => exact ⟨hstop, rfl⟩
  | tail _ hstep ih =>
    obtain ⟨hstage, hpeers⟩ := ih
    cases hstep with
    | change _ _ => exact ⟨hstage, hpeers⟩
    | elsewhere _ => exact ⟨hstage, hpeers⟩
    | _ => simp_all

end Steps

/-- Values that are peers, as they are. -/
def plainValues : EtcdValues PeerInfo := ⟨.ok, PeerInfo.grpcAddress⟩

end EtcdWatch

end Gubernator
