/-
  The ring that picks the owner of a key (`replicated_hash.go`).

  Every peer has `replicas` points on a ring of 64-bit hashes; a key belongs to the peer of the
  first point at or after the key's hash.  `Add` appends the points of a peer and sorts the whole
  slice again; `Get` searches it.  Go's `sort` package, the hash function and the hexadecimal MD5
  of an address are parameters: nothing is assumed of the last two.

  A ring is known by the peers it was built of (`IsRing`).  What `Get` answers is then a fact about
  the set of their points alone (`get_successor`), so every peer of a cluster gives a key the same
  owner, in whatever order it heard of the others.

  `Lib/Ring` has the geometry: successors on a circle, and what happens to them when points are
  added.  Here it is shown that the slice and its binary search compute the successor, and what
  follows for owners.
-/
import Mathlib.Data.List.Induction
import Gubernator.Lib.Ring

namespace Gubernator

/-! ## The picker

The functions of the source.  Sorting is a parameter, since Go's `sort.Slice` is not stable: which
of two points with the same hash comes first is not determined. -/

/-- `peerInfo`: one point of the ring. -/
structure PeerPoint (PeerClient : Type) where
  hash : UInt64
  peer : PeerClient
  deriving DecidableEq, Repr

/-- `peers` is the map by address, as a list of its entries. -/
structure ReplicatedConsistentHash (PeerClient : Type) where
  hashFunc : String → UInt64
  peerKeys : List (PeerPoint PeerClient)
  peers : List (String × PeerClient)
  replicas : ℕ

namespace ReplicatedConsistentHash

variable {PeerClient : Type}

/-- An empty ring. -/
def new (hashFunc : String → UInt64) (replicas : ℕ) : ReplicatedConsistentHash PeerClient where
  hashFunc := hashFunc
  peerKeys := []
  peers := []
  replicas := replicas

/-- The number of peers, by address. -/
def size (ch : ReplicatedConsistentHash PeerClient) : ℕ := ch.peers.length

/-- The points of a peer: the hashes of the MD5 of its address behind each number. -/
def points (hashFunc : String → UInt64) (md5hex : String → String)
    (address : PeerClient → String) (replicas : ℕ) (peer : PeerClient) :
    List (PeerPoint PeerClient) :=
  (List.range replicas).map (fun i => ⟨hashFunc (toString i ++ md5hex (address peer)), peer⟩)

/-- `Add`. A peer under a known address replaces the old one in the map; its points are added to
    those of the old one. -/
def add (sort : SortPackage) (md5hex : String → String) (address : PeerClient → String)
    (ch : ReplicatedConsistentHash PeerClient) (peer : PeerClient) :
    ReplicatedConsistentHash PeerClient :=
  { ch with
    peers := (address peer, peer) :: ch.peers.filter (fun p => p.1 != address peer)
    peerKeys := sort.slice (fun a b => decide (a.hash < b.hash))
      (ch.peerKeys ++ points ch.hashFunc md5hex address ch.replicas peer) }

/-- `Get`. -/
def get (sort : SortPackage) (ch : ReplicatedConsistentHash PeerClient) (key : String) :
    Except String PeerClient :=
  if ch.size = 0 then .error "unable to pick a peer; pool is empty"
  else
    let hash := ch.hashFunc key
    let idx := sort.search ch.peerKeys.length
      (fun i => ch.peerKeys[i]?.any (fun p => decide (hash ≤ p.hash)))
    -- past the last point the ring starts again
    let idx := if idx = ch.peerKeys.length then 0 else idx
    match ch.peerKeys[idx]? with
    | some p => .ok p.peer
    | none => .error "runtime error: index out of range"

end ReplicatedConsistentHash

open ReplicatedConsistentHash

/-! ## A ring and the peers it was built of

The invariant, and the successor. -/

section Ring
variable {PeerClient : Type} {md5hex : String → String} {address : PeerClient → String}
  {hashFunc : String → UInt64} {replicas : ℕ}

/-- All points of some peers. -/
def allPoints (hashFunc : String → UInt64) (md5hex : String → String)
    (address : PeerClient → String) (replicas : ℕ) (ps : List PeerClient) :
    List (PeerPoint PeerClient) :=
  ps.flatMap (points hashFunc md5hex address replicas)

/-- The place of a point on the ring. -/
def PeerPoint.place (p : PeerPoint PeerClient) : ℕ := p.hash.toNat

/-- The peers added to a fresh ring, one after another. -/
def ringOf (sort : SortPackage) (md5hex : String → String) (address : PeerClient → String)
    (hashFunc : String → UInt64) (replicas : ℕ) (ps : List PeerClient) :
    ReplicatedConsistentHash PeerClient :=
  ps.foldl (add sort md5hex address) (new hashFunc replicas)

/-- **No two points of different peers collide.** -/
def CollisionFree (hashFunc : String → UInt64) (md5hex : String → String)
    (address : PeerClient → String) (replicas : ℕ) (ps : List PeerClient) : Prop :=
  ∀ x ∈ allPoints hashFunc md5hex address replicas ps,
    ∀ y ∈ allPoints hashFunc md5hex address replicas ps,
      x.hash = y.hash → address x.peer = address y.peer

instance (ps : List PeerClient) :
    Decidable (CollisionFree hashFunc md5hex address replicas ps) :=
  inferInstanceAs (Decidable (∀ x ∈ allPoints hashFunc md5hex address replicas ps,
    ∀ y ∈ allPoints hashFunc md5hex address replicas ps,
      x.hash = y.hash → address x.peer = address y.peer))

/-- What `Add` keeps of a ring: it holds the points of the peers `ps`, sorted by hash. -/
structure IsRing (md5hex : String → String) (address : PeerClient → String)
    (hashFunc : String → UInt64) (replicas : ℕ) (ps : List PeerClient)
    (ch : ReplicatedConsistentHash PeerClient) : Prop where
  hashFunc_eq : ch.hashFunc = hashFunc
  replicas_eq : ch.replicas = replicas
  points_perm : ch.peerKeys.Perm (allPoints hashFunc md5hex address replicas ps)
  sorted : ch.peerKeys.Pairwise (fun a b => a.place ≤ b.place)
  size_eq_zero : ch.size = 0 ↔ ps = []

/-- A new ring is one of no peers. -/
theorem isRing_new : IsRing md5hex address hashFunc replicas []
    (new hashFunc replicas : ReplicatedConsistentHash PeerClient) :=
  ⟨rfl, rfl, List.Perm.refl _, List.Pairwise.nil, by simp [size, new]⟩

/-- Hashes can be sorted by. -/
theorem strictWeakOrder_hash :
    StrictWeakOrder (fun a b : PeerPoint PeerClient => decide (a.hash < b.hash)) := by
  constructor
  · intro a
    simp
  · intro a b c hab hbc
    simp only [decide_eq_true_eq, UInt64.lt_iff_toNat_lt] at *
    omega
  · intro a b c hac
    simp only [decide_eq_true_eq, UInt64.lt_iff_toNat_lt] at *
    omega

/-- `Add` makes it a ring of one more. -/
theorem IsRing.add {ps : List PeerClient} {ch : ReplicatedConsistentHash PeerClient}
    (h : IsRing md5hex address hashFunc replicas ps ch) (sort : SortPackage) (peer : PeerClient) :
    IsRing md5hex address hashFunc replicas (ps ++ [peer]) (ch.add sort md5hex address peer) := by
  constructor
  · exact h.hashFunc_eq
  · exact h.replicas_eq
  · rw [ReplicatedConsistentHash.add, h.hashFunc_eq, h.replicas_eq]
    refine (sort.slice_perm _ _).trans ?_
    rw [allPoints, List.flatMap_append, List.flatMap_singleton]
    exact h.points_perm.append_right _
  · -- the points were sorted anew
    refine (sort.slice_sorted _ _ strictWeakOrder_hash).imp ?_
    intro a b hba
    simpa [PeerPoint.place, UInt64.lt_iff_toNat_lt] using hba
  · simp [ReplicatedConsistentHash.add, size]

/-- Every way of building a ring leaves the points of its peers, sorted. -/
theorem isRing_ringOf (sort : SortPackage) (md5hex : String → String)
    (address : PeerClient → String) (hashFunc : String → UInt64) (replicas : ℕ)
    (ps : List PeerClient) :
    IsRing md5hex address hashFunc replicas ps
      (ringOf sort md5hex address hashFunc replicas ps) := by
  -- the peers already added are generalized
  suffices h : ∀ (qs ps : List PeerClient) (ch : ReplicatedConsistentHash PeerClient),
      IsRing md5hex address hashFunc replicas ps ch →
      IsRing md5hex address hashFunc replicas (ps ++ qs)
        (qs.foldl (ReplicatedConsistentHash.add sort md5hex address) ch) by
    exact h ps [] _ isRing_new
  intro qs
  induction qs with
  | nil =>
    intro ps ch h
    simpa using h
  | cons q qs ih =>
    intro ps ch h
    have := ih (ps ++ [q]) _ (h.add sort q)
    simpa using this

/-- The last peer is added to the ring of the others. -/
theorem ringOf_append (sort : SortPackage) (md5hex : String → String)
    (address : PeerClient → String) (hashFunc : String → UInt64) (replicas : ℕ)
    (ps : List PeerClient) (p : PeerClient) :
    ringOf sort md5hex address hashFunc replicas (ps ++ [p]) =
      (ringOf sort md5hex address hashFunc replicas ps).add sort md5hex address p := by
  simp [ringOf]

/-- **The map by address** holds, of the peers added under an address, the last one. -/
theorem mem_peers_ringOf (sort : SortPackage) (md5hex : String → String)
    (address : PeerClient → String) (hashFunc : String → UInt64) (replicas : ℕ)
    (ps : List PeerClient) (a : String) (c : PeerClient) :
    (a, c) ∈ (ringOf sort md5hex address hashFunc replicas ps).peers ↔
      ps.reverse.find? (fun p => address p == a) = some c := by
  induction ps using List.reverseRecOn with
  | nil => simp [ringOf, new]
  | append_singleton ps p ih =>
    rw [ringOf_append, ReplicatedConsistentHash.add, List.mem_cons, List.mem_filter, ih,
      List.reverse_append, List.reverse_singleton, List.singleton_append, List.find?_cons]
    by_cases ha : address p = a
    · subst ha
      simp [eq_comm]
    · have hne : (address p == a) = false := by simpa using ha
      simp [hne, Ne.symm ha]

/-- A point is one of its peer's, and its peer one of those added. -/
theorem mem_allPoints {ps : List PeerClient} {x : PeerPoint PeerClient} :
    x ∈ allPoints hashFunc md5hex address replicas ps ↔
      x.peer ∈ ps ∧ ∃ i < replicas, x.hash = hashFunc (toString i ++ md5hex (address x.peer)) := by
  simp only [allPoints, points, List.mem_flatMap, List.mem_map, List.mem_range]
  constructor
  · rintro ⟨p, hp, i, hi, rfl⟩
    exact ⟨hp, i, hi, rfl⟩
  · rintro ⟨hp, i, hi, hhash⟩
    exact ⟨x.peer, hp, i, hi, by rw [← hhash]⟩

/-- With one replica or more, a ring of some peer has a point. -/
theorem allPoints_ne_nil {ps : List PeerClient} (hps : ps ≠ []) (hr : 1 ≤ replicas) :
    allPoints hashFunc md5hex address replicas ps ≠ [] := by
  obtain ⟨p, rest, rfl⟩ := List.exists_cons_of_ne_nil hps
  apply List.ne_nil_of_mem (a := ⟨hashFunc (toString 0 ++ md5hex (address p)), p⟩)
  exact mem_allPoints.mpr ⟨List.mem_cons_self, 0, hr, rfl⟩

/-- **`Get` answers with the peer of the key's successor** on the ring. -/
theorem IsRing.get_successor {ps : List PeerClient} {ch : ReplicatedConsistentHash PeerClient}
    (h : IsRing md5hex address hashFunc replicas ps ch) (sort : SortPackage) (hps : ps ≠ [])
    (hr : 1 ≤ replicas) (key : String) :
    ∃ x, ch.get sort key = .ok x.peer ∧
      Ring.Successor PeerPoint.place (allPoints hashFunc md5hex address replicas ps)
        (hashFunc key).toNat x := by
  have hne : ch.peerKeys ≠ [] := by
    intro hnil
    have hperm := h.points_perm
    rw [hnil] at hperm
    exact allPoints_ne_nil hps hr hperm.nil_eq.symm
  set f : ℕ → Bool := fun i => ch.peerKeys[i]?.any (fun p => decide (hashFunc key ≤ p.hash)) with hf
  -- the predicate that the search evaluates, on places
  have hfi : ∀ i (hi : i < ch.peerKeys.length),
      f i = decide ((hashFunc key).toNat ≤ ch.peerKeys[i].place) := by
    intro i hi
    simp only [hf, List.getElem?_eq_getElem hi, Option.any_some, UInt64.le_iff_toNat_le]
    rfl
  -- the ring is sorted, so a point at or after the hash is followed by such points only
  have hmono : ∀ i j, i ≤ j → j < ch.peerKeys.length → f i = true → f j = true := by
    intro i j hij hj hi
    rw [hfi i (by omega), decide_eq_true_eq] at hi
    rw [hfi j hj, decide_eq_true_eq]
    rcases Nat.lt_or_eq_of_le hij with hlt | rfl
    · exact hi.trans (List.pairwise_iff_getElem.mp h.sorted i j (by omega) hj hlt)
    · exact hi
  -- the search finds the first such point, or the length of the slice
  obtain ⟨hle, hlow, hhigh⟩ := sort.search_spec ch.peerKeys.length f hmono
  obtain ⟨x, hx, hsucc⟩ := Ring.successor_at h.sorted hne hle
    (h := (hashFunc key).toNat)
    (by
      intro i x hi hx
      obtain ⟨hi', rfl⟩ := List.getElem?_eq_some_iff.mp hx
      have := hlow i hi
      rw [hfi i hi', decide_eq_false_iff_not, not_le] at this
      exact this)
    (by
      intro x hx
      obtain ⟨hi', rfl⟩ := List.getElem?_eq_some_iff.mp hx
      have := hhigh hi'
      rwa [hfi _ hi', decide_eq_true_eq] at this)
  refine ⟨x, ?_, hsucc.of_subset ?_ ?_⟩
  · have hsize : ch.size ≠ 0 := fun h0 => hps (h.size_eq_zero.mp h0)
    simp only [ReplicatedConsistentHash.get, if_neg hsize, h.hashFunc_eq, ← hf, hx]
  · intro y hy
    exact h.points_perm.mem_iff.mpr hy
  · exact h.points_perm.mem_iff.mp hsucc.mem

/-- On a ring without collisions two successors of a key are points of one peer. -/
theorem successor_peer_unique {ps : List PeerClient} (hdistinct : (ps.map address).Nodup)
    (hfree : CollisionFree hashFunc md5hex address replicas ps) {k : ℕ}
    {x y : PeerPoint PeerClient}
    (hx : Ring.Successor PeerPoint.place (allPoints hashFunc md5hex address replicas ps) k x)
    (hy : Ring.Successor PeerPoint.place (allPoints hashFunc md5hex address replicas ps) k y) :
    x.peer = y.peer := by
  have haddress : address x.peer = address y.peer :=
    hfree x hx.mem y hy.mem (UInt64.toNat_inj.mp (hx.pos_eq hy))
  exact List.inj_on_of_nodup_map hdistinct (mem_allPoints.mp hx.mem).1
    (mem_allPoints.mp hy.mem).1 haddress

end Ring

/-! ## The owner of a key

Two consequences for a cluster: it agrees on owners, and a new peer moves no key between old ones.
Both need that no two peers' points collide. -/

section Owner
variable {PeerClient : Type}

/-- **Every peer picks the same owner**: whatever the order in which the peers were added, and
    however the library sorts equal hashes, `Get` answers with the peer of the first point at or
    after the key's hash, or of the least point when there is none. -/
theorem get_order_irrelevant (sort sort' : SortPackage) (md5hex : String → String)
    (address : PeerClient → String) (hashFunc : String → UInt64) (replicas : ℕ)
    (hr : 1 ≤ replicas) (ps qs : List PeerClient) (hperm : ps.Perm qs)
    (hdistinct : (ps.map address).Nodup)
    (hfree : CollisionFree hashFunc md5hex address replicas ps) (key : String) :
    (ringOf sort md5hex address hashFunc replicas ps).get sort key =
        (ringOf sort' md5hex address hashFunc replicas qs).get sort' key ∧
      (ps ≠ [] → ∃ x, (ringOf sort md5hex address hashFunc replicas ps).get sort key =
          .ok x.peer ∧
        Ring.Successor PeerPoint.place (allPoints hashFunc md5hex address replicas ps)
          (hashFunc key).toNat x) := by
  have hring := isRing_ringOf sort md5hex address hashFunc replicas ps
  have hring' := isRing_ringOf sort' md5hex address hashFunc replicas qs
  by_cases hps : ps = []
  · subst hps
    obtain rfl := List.nil_perm.mp hperm
    exact ⟨rfl, fun h => absurd rfl h⟩
  have hqs : qs ≠ [] := fun h => hps (by rw [h] at hperm; exact hperm.eq_nil)
  obtain ⟨x, hx, hsx⟩ := hring.get_successor sort hps hr key
  obtain ⟨y, hy, hsy⟩ := hring'.get_successor sort' hqs hr key
  -- the two rings have the same points, so a successor on one is a successor on the other
  have hpoints : (allPoints hashFunc md5hex address replicas ps).Perm
      (allPoints hashFunc md5hex address replicas qs) := hperm.flatMap_right _
  have hsy' := hsy.of_subset (fun z hz => hpoints.mem_iff.mp hz) (hpoints.mem_iff.mpr hsy.mem)
  refine ⟨?_, fun _ => ⟨x, hx, hsx⟩⟩
  rw [hx, hy, successor_peer_unique hdistinct hfree hsx hsy']

/-- **A new peer takes keys only for itself**: after `Add` of a peer every key belongs to the new
    peer or to the one it belonged to before. -/
theorem get_add_new_or_same (sort : SortPackage) (md5hex : String → String)
    (address : PeerClient → String) (hashFunc : String → UInt64) (replicas : ℕ)
    (hr : 1 ≤ replicas) (ps : List PeerClient) (hps : ps ≠ []) (p : PeerClient)
    (hdistinct : ((ps ++ [p]).map address).Nodup)
    (hfree : CollisionFree hashFunc md5hex address replicas (ps ++ [p])) (key : String) :
    ∃ q, (ringOf sort md5hex address hashFunc replicas ps).get sort key = .ok q ∧
      (((ringOf sort md5hex address hashFunc replicas ps).add sort md5hex address p).get sort
          key = .ok p ∨
        ((ringOf sort md5hex address hashFunc replicas ps).add sort md5hex address p).get sort
          key = .ok q) := by
  have hring := isRing_ringOf sort md5hex address hashFunc replicas ps
  obtain ⟨x, hx, hsx⟩ := hring.get_successor sort hps hr key
  obtain ⟨y, hy, hsy⟩ := (hring.add sort p).get_successor sort (by simp) hr key
  refine ⟨x.peer, hx, ?_⟩
  rw [hy]
  obtain ⟨hpeer, i, hi, hhash⟩ := mem_allPoints.mp hsy.mem
  rcases List.mem_append.mp hpeer with hold | hnew
  · -- the successor among all points is an old one, so it was the successor before
    right
    have hsub : ∀ z ∈ allPoints hashFunc md5hex address replicas ps,
        z ∈ allPoints hashFunc md5hex address replicas (ps ++ [p]) := by
      intro z hz
      obtain ⟨hz₁, hz₂⟩ := mem_allPoints.mp hz
      exact mem_allPoints.mpr ⟨List.mem_append_left _ hz₁, hz₂⟩
    have hsy' := hsy.of_subset hsub (mem_allPoints.mpr ⟨hold, i, hi, hhash⟩)
    rw [List.map_append] at hdistinct
    rw [successor_peer_unique hdistinct.of_append_left
      (fun z hz w hw => hfree z (hsub z hz) w (hsub w hw)) hsy' hsx]
  · left
    rw [List.mem_singleton.mp hnew]

/-- A hash that shows the ring in small cases: how long a text is. -/
def lengthHash (s : String) : UInt64 := UInt64.ofNat s.length

/-- Two peers, heard of in either order; one point each, at 3 and at 5. -/
theorem get_order_irrelevant_twoPeers :
    (ringOf .reference id id lengthHash 1 ["n1", "n-22"]).get .reference "abcd" = .ok "n-22" ∧
    (ringOf .reference id id lengthHash 1 ["n1", "n-22"]).get .reference "abcd" =
      (ringOf .reference id id lengthHash 1 ["n-22", "n1"]).get .reference "abcd" :=
  ⟨by decide +kernel, (get_order_irrelevant .reference .reference id id lengthHash 1 le_rfl
    ["n1", "n-22"] ["n-22", "n1"] (by decide) (by decide) (by decide +kernel) "abcd").1⟩

/-- A third peer with its point at 4 takes the key. -/
theorem get_add_new_or_same_threePeers :
    ∃ q, (ringOf .reference id id lengthHash 1 ["n1", "n-22"]).get .reference "abcd" = .ok q ∧
      (((ringOf .reference id id lengthHash 1 ["n1", "n-22"]).add .reference id id
          "n-3").get .reference "abcd" = .ok "n-3" ∨
        ((ringOf .reference id id lengthHash 1 ["n1", "n-22"]).add .reference id id
          "n-3").get .reference "abcd" = .ok q) :=
  get_add_new_or_same .reference id id lengthHash 1 le_rfl ["n1", "n-22"] (by decide) "n-3"
    (by decide) (by decide +kernel) "abcd"

end Owner

end Gubernator
