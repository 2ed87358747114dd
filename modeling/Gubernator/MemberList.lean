/-
  THE PEERS OF A MEMBER LIST (`memberlist.go`, `addPeer`, `NotifyJoin`, `NotifyLeave`,
  `NotifyUpdate`, `callOnUpdate`, `unmarshallPeer`).

  The handler of the member list's events keeps a map from the address of a node to the peer its
  metadata describes, and passes the whole map on after every change.  Metadata is the JSON of a
  `PeerInfo`, or the gob encoding of the deprecated `memberListMetadata`.

  What the map is FOR is said by `standing`: of a node that is in the list, the last metadata that
  could be decoded since it came in.  Two things keep the map from being that:

  * `NotifyUpdate` logs that it could not decode the metadata, and stores what it has all the same;
  * `unmarshallPeer` decodes a gob encoding into the wrong variable, and then reads the one it left
    empty: the peer it describes is always port 0 of the node, in no data center.

  Where neither comes up the map is exact, after every event of every run (`member_list_exact`).

  `encoding/json`, `encoding/gob` and the bytes they read are parameters (`Decoders`).  A node is
  named by the address `getIP` gives it.
-/
import Gubernator.Lib.Machine
import Gubernator.GetRateLimits
import Mathlib.Data.List.AList
import Mathlib.Data.List.Forall2

namespace Gubernator

/-! ## Metadata -/

/-- Deprecated. -/
structure MemberListMetadata where
  dataCenter : String := ""
  advertiseAddress : String := ""
  gubernatorPort : ℤ := 0
  deriving DecidableEq, Repr

/-- `net.JoinHostPort`, which puts an address with a colon in brackets. -/
def makeAddress (ip : String) (port : ℤ) : String :=
  if ':' ∈ ip.toList then "[" ++ ip ++ "]:" ++ toString port else ip ++ ":" ++ toString port

/-- The peer that deprecated metadata describes. -/
def MemberListMetadata.peer (metadata : MemberListMetadata) (ip : String) : PeerInfo :=
  { grpcAddress := if metadata.advertiseAddress = "" then makeAddress ip metadata.gubernatorPort
      else metadata.advertiseAddress
    dataCenter := metadata.dataCenter
    isOwner := false }

/-- **The decoders.**  Each leaves something in the variable it decodes into, and may report an
    error.  `metadata` is the `memberListMetadata` that bytes are the gob encoding of; bytes that
    JSON rejects are such an encoding, or gob rejects them too. -/
structure Decoders (Bytes : Type) where
  json : Bytes → PeerInfo × Option String
  gob : Bytes → PeerInfo → PeerInfo × Option String
  metadata : Bytes → Option MemberListMetadata
  gob_accepts : ∀ b peer, (json b).2 ≠ none → ((gob b peer).2 = none ↔ (metadata b).isSome = true)

section Handler
variable {Bytes : Type} (dec : Decoders Bytes)

/-- `unmarshallPeer`: the peer, and the error if there is one. -/
def unmarshallPeer (b : Bytes) (ip : String) : PeerInfo × Option String :=
  match dec.json b with
  | (peer, none) => (peer, none)
  | (peer, some _) =>
    match dec.gob b peer with
    | (peer, some err) => (peer, some ("error decoding peer: " ++ err))
    -- the decoder was given `&peer`; `metadata` has its zero value
    | (_, none) => (MemberListMetadata.peer {} ip, none)

/-! ## The handler -/

/-- `conf.Advertise` and the map of peers. -/
structure MemberListEventHandler where
  advertise : PeerInfo
  peers : AList (fun _ : String => PeerInfo) := ∅

/-- The events of the member list, and the call that adds the local node. -/
inductive MemberEvent (Bytes : Type) where
  | addPeer (ip : String) (b : Bytes)
  | notifyJoin (ip : String) (b : Bytes)
  | notifyUpdate (ip : String) (b : Bytes)
  | notifyLeave (ip : String)
  deriving DecidableEq

namespace MemberListEventHandler

/-- The list passed to `OnUpdate`, in one of the orders a map can be read in. -/
def callOnUpdate (e : MemberListEventHandler) : List PeerInfo :=
  e.peers.entries.map (fun p =>
    if p.2.grpcAddress = e.advertise.grpcAddress then { p.2 with isOwner := true } else p.2)

/-- A change of the map, passed on. -/
def publish (e : MemberListEventHandler) (peers : AList (fun _ : String => PeerInfo)) :
    Option (List PeerInfo) × MemberListEventHandler :=
  (some (callOnUpdate { e with peers }), { e with peers })

/-- **One event**, with the list that is passed on, if one is. -/
def step (e : MemberListEventHandler) :
    MemberEvent Bytes → Option (List PeerInfo) × MemberListEventHandler
  | .addPeer ip b =>
    match unmarshallPeer dec b ip with
    | (_, some _) => (none, e)
    | (peer, none) => e.publish (e.peers.insert ip peer)
  | .notifyJoin ip b =>
    match unmarshallPeer dec b ip with
    | (_, some _) => (none, e)
    | (peer, none) => e.publish (e.peers.insert ip { peer with isOwner := false })
  | .notifyUpdate ip b =>
    -- an error is logged, and that is all
    e.publish (e.peers.insert ip { (unmarshallPeer dec b ip).1 with isOwner := false })
  | .notifyLeave ip => e.publish (e.peers.erase ip)

end MemberListEventHandler

/-! ## What the list should be -/

/-- The peer that metadata describes, if it can be decoded. -/
def Decoders.decoded (b : Bytes) (ip : String) : Option PeerInfo :=
  match dec.json b with
  | (peer, none) => some peer
  | (_, some _) => (dec.metadata b).map (fun m => m.peer ip)

/-- A node's last decoded metadata; `asIs` if `addPeer` wrote it. -/
structure Standing where
  peer : PeerInfo
  asIs : Bool
  deriving DecidableEq, Repr

/-- An event about a node in the list: new metadata counts if it can be decoded. -/
def Standing.renew (ip : String) (asIs : Bool) (b : Bytes) (old : Option Standing) :
    Option Standing :=
  ((dec.decoded b ip).map (fun peer => ⟨peer, asIs⟩)).or old

/-- What an event says of a node. -/
def Standing.next (ip : String) (old : Option Standing) : MemberEvent Bytes → Option Standing
  | .addPeer ip' b => if ip' = ip then Standing.renew dec ip true b old else old
  | .notifyJoin ip' b => if ip' = ip then Standing.renew dec ip false b old else old
  | .notifyUpdate ip' b => if ip' = ip then Standing.renew dec ip false b old else old
  | .notifyLeave ip' => if ip' = ip then none else old

/-- **What a node stands for** after some events: nothing if it is not in the list, or if no
    metadata of it could be decoded since it came in. -/
def standing (ip : String) (events : List (MemberEvent Bytes)) : Option Standing :=
  events.foldl (Standing.next dec ip) none

/-- An entry shows what its node stands for, up to `IsOwner`: set on the advertised address, and
    clear on any other if a notification wrote the entry. -/
structure Standing.Shown (advertise : PeerInfo) (st : Standing) (entry : PeerInfo) : Prop where
  same : { entry with isOwner := false } = { st.peer with isOwner := false }
  owner : entry.grpcAddress = advertise.grpcAddress → entry.isOwner = true
  other : entry.grpcAddress ≠ advertise.grpcAddress → st.asIs = false → entry.isOwner = false

/-- **An exact list**: one entry for each node that stands for something, and no other. -/
def ExactList (advertise : PeerInfo) (events : List (MemberEvent Bytes)) (list : List PeerInfo) :
    Prop :=
  ∃ ips : List String, ips.Nodup ∧ (∀ ip, ip ∈ ips ↔ (standing dec ip events).isSome = true) ∧
    List.Forall₂ (fun ip entry => ∃ st, standing dec ip events = some st ∧ st.Shown advertise entry)
      ips list

/-- The order of the list does not matter. -/
theorem ExactList.perm {advertise : PeerInfo} {events : List (MemberEvent Bytes)}
    {list list' : List PeerInfo} (h : ExactList dec advertise events list)
    (hperm : list.Perm list') : ExactList dec advertise events list' := by
  obtain ⟨ips, hnodup, hmem, hall⟩ := h
  have hcomp : Relation.Comp (List.Forall₂ (fun ip entry =>
      ∃ st, standing dec ip events = some st ∧ st.Shown advertise entry)) List.Perm ips list' :=
    ⟨list, hall, hperm⟩
  rw [List.forall₂_comp_perm_eq_perm_comp_forall₂] at hcomp
  obtain ⟨ips', hips, hall'⟩ := hcomp
  exact ⟨ips', hips.nodup_iff.mp hnodup, fun ip => hips.mem_iff.symm.trans (hmem ip), hall'⟩

/-! ## The handler keeps it -/

/-- What the handler stores for a node. -/
def Standing.stored (st : Standing) : PeerInfo :=
  if st.asIs then st.peer else { st.peer with isOwner := false }

/-- The node of an event, and the metadata it comes with. -/
def MemberEvent.news : MemberEvent Bytes → Option (String × Bytes)
  | .addPeer ip b => some (ip, b)
  | .notifyJoin ip b => some (ip, b)
  | .notifyUpdate ip b => some (ip, b)
  | .notifyLeave _ => none

/-- **The condition on an event.**  Metadata that JSON rejects and gob accepts describes the peer
    that empty metadata would, and `NotifyUpdate` comes with metadata that can be decoded. -/
structure MemberEvent.Sound (e : MemberEvent Bytes) : Prop where
  gob : ∀ ip b m, e.news = some (ip, b) → (dec.json b).2 ≠ none → dec.metadata b = some m →
    m.peer ip = MemberListMetadata.peer {} ip
  update : ∀ ip b, e = .notifyUpdate ip b → dec.decoded b ip ≠ none

/-- The metadata of the event can be decoded by neither decoder. -/
def MemberEvent.Undecodable (e : MemberEvent Bytes) : Prop :=
  ∃ ip b, e.news = some (ip, b) ∧ dec.decoded b ip = none

variable {dec}

/-- `unmarshallPeer` on metadata that cannot be decoded. -/
theorem unmarshallPeer_none {b : Bytes} {ip : String} (h : dec.decoded b ip = none) :
    (unmarshallPeer dec b ip).2 ≠ none := by
  unfold Decoders.decoded at h
  unfold unmarshallPeer
  split at h
  · cases h
  · rename_i peer err hjson
    have hgob := dec.gob_accepts b peer (by rw [hjson]; simp)
    split
    · simp
    · rename_i hok
      rw [hok] at hgob
      have hsome := hgob.mp rfl
      rw [Option.map_eq_none_iff] at h
      rw [h] at hsome
      cases hsome

/-- `unmarshallPeer` on metadata that can be, gob metadata of no other peer than the empty one. -/
theorem unmarshallPeer_some {b : Bytes} {ip : String} {peer : PeerInfo}
    (h : dec.decoded b ip = some peer)
    (hgob : ∀ m, (dec.json b).2 ≠ none → dec.metadata b = some m →
      m.peer ip = MemberListMetadata.peer {} ip) :
    unmarshallPeer dec b ip = (peer, none) := by
  unfold Decoders.decoded at h
  unfold unmarshallPeer
  split at h
  · rw [Option.some.inj h]
  · rename_i half err hjson
    have hrejected : (dec.json b).2 ≠ none := by rw [hjson]; simp
    obtain ⟨m, hm, rfl⟩ := Option.map_eq_some_iff.mp h
    have haccepts := (dec.gob_accepts b half hrejected).mpr (by rw [hm]; rfl)
    split
    · rename_i hfail
      rw [hfail] at haccepts
      cases haccepts
    · rw [hgob m hrejected hm]

/-- **The map is exact**: under each address what its node stands for. -/
def Mirrors (dec : Decoders Bytes) (events : List (MemberEvent Bytes))
    (e : MemberListEventHandler) : Prop :=
  ∀ ip, e.peers.lookup ip = (standing dec ip events).map Standing.stored

/-- The standing after one event more. -/
theorem standing_append (ip : String) (events : List (MemberEvent Bytes)) (ev : MemberEvent Bytes) :
    standing dec ip (events ++ [ev]) = Standing.next dec ip (standing dec ip events) ev := by
  simp [standing, List.foldl_append]

section Keep
variable {events : List (MemberEvent Bytes)} {e : MemberListEventHandler} {ev : MemberEvent Bytes}
  {ip : String} {b : Bytes}

/-- Metadata of a node that can be decoded is stored. -/
theorem Mirrors.insert (h : Mirrors dec events e) (asIs : Bool) {peer : PeerInfo}
    (hnext : ∀ ip' old, Standing.next dec ip' old ev =
      if ip = ip' then Standing.renew dec ip' asIs b old else old)
    (hd : dec.decoded b ip = some peer) :
    Mirrors dec (events ++ [ev])
      { e with peers := e.peers.insert ip (Standing.stored ⟨peer, asIs⟩) } := by
  intro ip'
  rw [standing_append, hnext]
  by_cases hip : ip = ip'
  · subst hip
    rw [if_pos rfl, AList.lookup_insert, Standing.renew, hd]
    rfl
  · rw [if_neg hip, AList.lookup_insert_ne (Ne.symm hip)]
    exact h ip'

/-- Metadata that cannot be decoded is ignored. -/
theorem Mirrors.ignore (h : Mirrors dec events e) (asIs : Bool)
    (hnext : ∀ ip' old, Standing.next dec ip' old ev =
      if ip = ip' then Standing.renew dec ip' asIs b old else old)
    (hd : dec.decoded b ip = none) : Mirrors dec (events ++ [ev]) e := by
  intro ip'
  rw [standing_append, hnext]
  by_cases hip : ip = ip'
  · subst hip
    rw [if_pos rfl, Standing.renew, hd]
    exact h ip
  · rw [if_neg hip]
    exact h ip'

theorem Mirrors.erase (h : Mirrors dec events e) (ip : String) :
    Mirrors dec (events ++ [.notifyLeave ip]) { e with peers := e.peers.erase ip } := by
  intro ip'
  rw [standing_append, Standing.next]
  by_cases hip : ip = ip'
  · subst hip
    rw [if_pos rfl, AList.lookup_erase]
    rfl
  · rw [if_neg hip, AList.lookup_erase_ne (Ne.symm hip)]
    exact h ip'

/-- **Step.**  An event that meets the condition keeps the map exact.  With metadata that cannot be
    decoded it does nothing; else it passes the map on. -/
theorem Mirrors.step {events : List (MemberEvent Bytes)} {e : MemberListEventHandler}
    (h : Mirrors dec events e) {ev : MemberEvent Bytes} (hsound : ev.Sound dec) :
    Mirrors dec (events ++ [ev]) (e.step dec ev).2 ∧ (e.step dec ev).2.advertise = e.advertise ∧
      (ev.Undecodable dec ∧ e.step dec ev = (none, e) ∨
        ¬ ev.Undecodable dec ∧ (e.step dec ev).1 = some (e.step dec ev).2.callOnUpdate) := by
  -- metadata of the event is either decoded as it should be, or not at all
  have hcases : ∀ ip b, ev.news = some (ip, b) →
      (∃ peer, dec.decoded b ip = some peer ∧ unmarshallPeer dec b ip = (peer, none) ∧
        ¬ ev.Undecodable dec) ∨
      (∃ half err, dec.decoded b ip = none ∧ unmarshallPeer dec b ip = (half, some err) ∧
        ev.Undecodable dec) := by
    intro ip b hnews
    cases hd : dec.decoded b ip with
    | some peer =>
      refine .inl ⟨peer, rfl, unmarshallPeer_some hd (fun m => hsound.gob ip b m hnews), ?_⟩
      rintro ⟨ip', b', hnews', hnone⟩
      obtain ⟨rfl, rfl⟩ := Prod.mk.inj (Option.some.inj (hnews.symm.trans hnews'))
      rw [hd] at hnone
      cases hnone
    | none =>
      have herr := unmarshallPeer_none hd
      rcases hu : unmarshallPeer dec b ip with ⟨half, _ | err⟩
      · rw [hu] at herr
        exact absurd rfl herr
      · exact .inr ⟨half, err, rfl, rfl, ip, b, hnews, hd⟩
  cases ev with
  | addPeer ip b =>
    rcases hcases ip b rfl with ⟨peer, hd, hu, hgood⟩ | ⟨half, err, hd, hu, hbad⟩
    · simp only [MemberListEventHandler.step, hu]
      exact ⟨h.insert true (fun _ _ => rfl) hd, rfl, .inr ⟨hgood, rfl⟩⟩
    · simp only [MemberListEventHandler.step, hu]
      exact ⟨h.ignore true (fun _ _ => rfl) hd, trivial, .inl ⟨hbad, trivial⟩⟩
  | notifyJoin ip b =>
    rcases hcases ip b rfl with ⟨peer, hd, hu, hgood⟩ | ⟨half, err, hd, hu, hbad⟩
    · simp only [MemberListEventHandler.step, hu]
      exact ⟨h.insert false (fun _ _ => rfl) hd, rfl, .inr ⟨hgood, rfl⟩⟩
    · simp only [MemberListEventHandler.step, hu]
      exact ⟨h.ignore false (fun _ _ => rfl) hd, trivial, .inl ⟨hbad, trivial⟩⟩
  | notifyUpdate ip b =>
    rcases hcases ip b rfl with ⟨peer, hd, hu, hgood⟩ | ⟨half, err, hd, hu, hbad⟩
    · simp only [MemberListEventHandler.step, hu]
      exact ⟨h.insert false (fun _ _ => rfl) hd, rfl, .inr ⟨hgood, rfl⟩⟩
    · exact absurd hd (hsound.update ip b rfl)
  | notifyLeave ip =>
    refine ⟨h.erase ip, rfl, .inr ⟨?_, rfl⟩⟩
    rintro ⟨ip', b, hnews, -⟩
    cases hnews

end Keep

/-! ## The published list -/

/-- The list last passed on; before the first there is none. -/
def published (events : List (MemberEvent Bytes × Option (List PeerInfo))) : List PeerInfo :=
  (events.filterMap Prod.snd).getLastD []

theorem published_append (events : List (MemberEvent Bytes × Option (List PeerInfo)))
    (ev : MemberEvent Bytes) (answer : Option (List PeerInfo)) :
    published (events ++ [(ev, answer)]) = answer.getD (published events) := by
  cases answer <;> simp [published]

/-- The entry of what is stored for a node shows what the node stands for. -/
theorem Standing.shown (advertise : PeerInfo) (st : Standing) :
    st.Shown advertise (if st.stored.grpcAddress = advertise.grpcAddress then
      { st.stored with isOwner := true } else st.stored) := by
  have haddress : st.stored.grpcAddress = st.peer.grpcAddress := by
    unfold Standing.stored
    split <;> rfl
  have hsame : { st.stored with isOwner := false } = { st.peer with isOwner := false } := by
    unfold Standing.stored
    split <;> rfl
  split
  · rename_i howner
    exact ⟨hsame, fun _ => rfl, fun hother => absurd howner hother⟩
  · rename_i hother
    refine ⟨hsame, fun howner => absurd howner hother, fun _ hasIs => ?_⟩
    rw [Standing.stored, hasIs]
    rfl

/-- An exact map shows as an exact list. -/
theorem Mirrors.exactList {events : List (MemberEvent Bytes)} {e : MemberListEventHandler}
    (h : Mirrors dec events e) : ExactList dec e.advertise events e.callOnUpdate := by
  refine ⟨e.peers.keys, e.peers.keys_nodup, fun ip => ?_, ?_⟩
  · rw [← AList.mem_keys, ← AList.lookup_isSome, h ip, Option.isSome_map]
  · unfold MemberListEventHandler.callOnUpdate AList.keys List.keys
    rw [List.forall₂_map_left_iff, List.forall₂_map_right_iff, List.forall₂_same]
    intro p hp
    have hlookup : e.peers.lookup p.1 = some p.2 := AList.mem_lookup_iff.mpr hp
    rw [h p.1] at hlookup
    obtain ⟨st, hst, hstored⟩ := Option.map_eq_some_iff.mp hlookup
    rw [← hstored]
    exact ⟨st, hst, st.shown e.advertise⟩

/-- The invariant of a run: the map is exact, and the list last passed on shows it. -/
structure Published (dec : Decoders Bytes) (advertise : PeerInfo)
    (events : List (MemberEvent Bytes × Option (List PeerInfo))) (e : MemberListEventHandler) :
    Prop where
  mirrors : Mirrors dec (events.map Prod.fst) e
  advertise_eq : e.advertise = advertise
  list_eq : published events = e.callOnUpdate

theorem Published.step {advertise : PeerInfo}
    {events : List (MemberEvent Bytes × Option (List PeerInfo))} {e : MemberListEventHandler}
    (h : Published dec advertise events e) {ev : MemberEvent Bytes} (hsound : ev.Sound dec) :
    Published dec advertise (events ++ [(ev, (e.step dec ev).1)]) (e.step dec ev).2 := by
  obtain ⟨hnext, hadvertise, hanswer⟩ := h.mirrors.step hsound
  refine ⟨?_, hadvertise.trans h.advertise_eq, ?_⟩
  · rw [List.map_append]
    exact hnext
  · rw [published_append]
    rcases hanswer with ⟨-, hnone⟩ | ⟨-, hsome⟩
    · rw [hnone]
      exact h.list_eq
    · rw [hsome]
      rfl

theorem published_run (advertise : PeerInfo) {run : List (MemberEvent Bytes)}
    (hrun : ∀ x ∈ run, MemberEvent.Sound dec x) :
    Published dec advertise
      (Machine.events (MemberListEventHandler.step dec) { advertise } run)
      (Machine.exec (MemberListEventHandler.step dec) { advertise } run) := by
  have hguarded : Machine.Guarded (MemberListEventHandler.step dec)
      (fun _ ev => MemberEvent.Sound dec ev) { advertise } run :=
    Machine.guarded_of_forall hrun _
  exact Machine.history_rule (P := Published dec advertise)
    (fun _ _ _ hsound h => h.step hsound) hguarded ⟨fun ip => rfl, rfl, rfl⟩

/-- **The list is exact after every event**, in every run whose events meet the condition, whatever
    order the map is read in; and an event whose metadata cannot be decoded leaves the list as it
    was. -/
theorem member_list_exact (dec : Decoders Bytes) (advertise : PeerInfo)
    (run : List (MemberEvent Bytes)) (ev : MemberEvent Bytes)
    (hrun : ∀ x ∈ run ++ [ev], MemberEvent.Sound dec x) :
    let before := Machine.events (MemberListEventHandler.step dec) { advertise } run
    let after := Machine.events (MemberListEventHandler.step dec) { advertise } (run ++ [ev])
    (∀ list, (published after).Perm list → ExactList dec advertise (run ++ [ev]) list) ∧
      (ev.Undecodable dec → published after = published before) := by
  constructor
  · intro list hperm
    have h := published_run advertise hrun
    have hexact := h.mirrors.exactList
    rw [h.advertise_eq, ← h.list_eq, Machine.map_fst_events] at hexact
    exact hexact.perm dec hperm
  · intro hbad
    have hfirst : ∀ x ∈ run, MemberEvent.Sound dec x := fun x hx =>
      hrun x (List.mem_append_left _ hx)
    have h := published_run advertise hfirst
    obtain ⟨-, -, hanswer⟩ := h.mirrors.step (hrun ev (by simp))
    rw [Machine.events_append]
    simp only [Machine.events]
    rw [published_append]
    rcases hanswer with ⟨-, hnone⟩ | ⟨hgood, -⟩
    · rw [hnone]
      rfl
    · exact absurd hbad hgood

end Handler

/-- Metadata of each of the three kinds, for runs on fixed inputs. -/
inductive NodeMeta where
  | json (peer : PeerInfo)
  | gob (metadata : MemberListMetadata)
  | neither
  deriving DecidableEq, Repr

/-- Decoders that tell them apart.  gob finds the one field the two types share. -/
def NodeMeta.decoders : Decoders NodeMeta where
  json
    | .json peer => (peer, none)
    | _ => ({ grpcAddress := "", isOwner := false }, some "invalid character")
  gob
    | .gob m, peer => ({ peer with dataCenter := m.dataCenter }, none)
    | _, peer => (peer, some "unexpected EOF")
  metadata
    | .gob m => some m
    | _ => none
  gob_accepts b peer := by cases b <;> simp

/-- The local node joins without metadata and is added with it; another joins and leaves. -/
def joinAndLeave : List (MemberEvent NodeMeta) :=
  [.notifyJoin "10.0.0.1" .neither,
    .addPeer "10.0.0.1" (.json { grpcAddress := "10.0.0.1:81", isOwner := false }),
    .notifyJoin "10.0.0.2" (.json { grpcAddress := "10.0.0.2:81", isOwner := true })]

theorem member_list_exact_joinAndLeave :
    ExactList NodeMeta.decoders { grpcAddress := "10.0.0.1:81", isOwner := false }
      (joinAndLeave ++ [.notifyLeave "10.0.0.2"])
      [{ grpcAddress := "10.0.0.1:81", isOwner := true }] := by
  refine (member_list_exact NodeMeta.decoders _ joinAndLeave (.notifyLeave "10.0.0.2") ?_).1 _
    (by decide +kernel)
  intro x hx
  refine ⟨fun ip b m hnews hjson hm => ?_, fun ip b hupdate => ?_⟩
  · -- none of the metadata is gob
    simp only [joinAndLeave, List.cons_append, List.nil_append, List.mem_cons, List.not_mem_nil,
      or_false] at hx
    rcases hx with rfl | rfl | rfl | rfl <;> cases hnews <;> cases hm
  · -- and there is no update
    subst hupdate
    simp [joinAndLeave] at hx

/-- **A bogus peer.** After an update whose metadata cannot be decoded the list holds a peer without
    an address in place of the one that was there.  And gob metadata is never read: the peer that
    advertises `10.0.0.2:81` is listed under port 0. -/
theorem member_list_bogus :
    let advertise : PeerInfo := { grpcAddress := "10.0.0.1:81", isOwner := false }
    let peer : PeerInfo := { grpcAddress := "10.0.0.2:81", isOwner := false }
    let list (run : List (MemberEvent NodeMeta)) :=
      published (Machine.events (MemberListEventHandler.step NodeMeta.decoders) { advertise } run)
    list [.notifyJoin "10.0.0.2" (.json peer)] = [peer] ∧
    list [.notifyJoin "10.0.0.2" (.json peer), .notifyUpdate "10.0.0.2" .neither] =
      [{ grpcAddress := "", isOwner := false }] ∧
    list [.notifyJoin "10.0.0.2" (.gob { advertiseAddress := "10.0.0.2:81" })] =
      [{ grpcAddress := "10.0.0.2:0", isOwner := false }] := by
  decide +kernel

end Gubernator
