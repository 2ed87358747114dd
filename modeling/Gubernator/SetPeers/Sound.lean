/-
  EVERY INSTANCE IS SOUND, whatever lists it has been given.

  The loop of `SetPeers` gives every entry a client (`Placed`): one that is kept, or one made for
  it.  So the pickers it leaves are those of the clients in the order of the list (`Sound`), the
  installed clients are the last ones at their places, and none of them has been shut down.

  The argument in three parts.

  1. LOOP. `addEntries` folds over the list, with the pickers as they were before the call to look
     clients up in, and new ones to put them in.  `Placed` forgets the pickers and remembers only
     which client each entry got; `addEntries_placed` says that this is all there is to it, and
     `Placed.facts` what is true of the result by induction on the list.

  2. PICKERS. A picker is a function of the list of clients added to it (`pickerOf`), so the pickers
     after a call are known from `Placed` alone (`after_localPicker`, `after_regions`).

  3. SHUTDOWN. The clients to shut down are those of the old pickers whose ADDRESS the new ones do
     not know.  An installed client is found under its own address, so none of them is installed.

  An instance may have had calls that failed half-way; they leave the pickers as they were, and the
  clients made on the way are created, not installed.
-/
import Gubernator.SetPeers.Pickers

namespace Gubernator

open ReplicatedConsistentHash

/-! ## What the loop does

The loop reads the pickers of before the call and writes new ones, so what it does to an entry does
not depend on the entries before it, except for the numbers of the clients it makes. -/

section Loop
variable {lib : HashLib} {range : MapRange} {s : PeerState}

/-- The entries of a list with the clients they are given: `created` are the clients made before,
    `created'` those made afterwards. -/
inductive Placed (s : PeerState) (range : MapRange) :
    ℕ → List Client → List (PeerInfo × Client) → List Client → Prop
  | nil (i : ℕ) (created : List Client) : Placed s range i created [] created
  | kept {i : ℕ} {created created' : List Client} {e : PeerInfo} {c : Client}
      {rest : List (PeerInfo × Client)} (hfound : s.existing (range.visit i) e = some c)
      (tail : Placed s range (i + 1) created rest created') :
      Placed s range i created ((e, c) :: rest) created'
  | made {i : ℕ} {created created' : List Client} {e : PeerInfo}
      {rest : List (PeerInfo × Client)} (hfound : s.existing (range.visit i) e = none)
      (tail : Placed s range (i + 1) (created ++ [⟨created.length, e⟩]) rest created') :
      Placed s range i created ((e, ⟨created.length, e⟩) :: rest) created'

/-- The clients of the entries of a data center. -/
def homeOf (d : String) (placed : List (PeerInfo × Client)) : List Client :=
  (placed.filter (fun x => x.1.dataCenter == d)).map Prod.snd

/-- The clients of the entries of all other data centers. -/
def awayOf (d : String) (placed : List (PeerInfo × Client)) : List Client :=
  (placed.filter (fun x => x.1.dataCenter != d)).map Prod.snd

/-- The pickers with the placed clients added. -/
def NewPickers.place (lib : HashLib) (d : String) (acc : NewPickers)
    (placed : List (PeerInfo × Client)) (created : List Client) : NewPickers where
  localPicker := (homeOf d placed).foldl (Picker.addPeer lib) acc.localPicker
  regionPicker := (awayOf d placed).foldl (RegionPicker.addPeer lib) acc.regionPicker
  created := created

/-- One entry after another. -/
theorem place_cons (d : String) (acc : NewPickers) (e : PeerInfo) (c : Client)
    (rest : List (PeerInfo × Client)) (created : List Client) :
    acc.place lib d ((e, c) :: rest) created = (acc.addFor lib d e c).place lib d rest created := by
  unfold NewPickers.place NewPickers.addFor homeOf awayOf
  by_cases hd : e.dataCenter = d
  · simp [hd]
  · simp [hd]

/-- Putting a client into a picker makes none. -/
theorem addFor_created (d : String) (acc : NewPickers) (e : PeerInfo) (c : Client) :
    (acc.addFor lib d e c).created = acc.created := by
  unfold NewPickers.addFor
  split <;> rfl

/-- The clients made so far do not matter to the pickers. -/
theorem place_created (d : String) (acc : NewPickers) (created : List Client)
    (placed : List (PeerInfo × Client)) (created' : List Client) :
    { acc with created := created }.place lib d placed created' = acc.place lib d placed created' :=
  rfl

/-- **The loop**: every entry is given a client, until one cannot be made. -/
theorem addEntries_placed (lib : HashLib) (dial : PeerInfo → Bool) (range : MapRange)
    (s : PeerState) (peerInfo : List PeerInfo) (i : ℕ) (acc : NewPickers) :
    (∃ placed created', placed.map Prod.fst = peerInfo ∧
      Placed s range i acc.created placed created' ∧
      s.addEntries lib dial range i peerInfo acc =
        .ok (acc.place lib s.dataCenter placed created')) ∨
    (∃ placed created', Placed s range i acc.created placed created' ∧
      s.addEntries lib dial range i peerInfo acc = .error created' ∧
      ∃ e ∈ peerInfo, dial e = false ∧ ∃ j, s.existing (range.visit j) e = none) := by
  induction peerInfo generalizing i acc with
  | nil => exact .inl ⟨[], acc.created, rfl, .nil i _, rfl⟩
  | cons e rest ih =>
    cases hfound : s.existing (range.visit i) e with
    -- a client with the address is known: it is added to the new pickers as it is
    | some c =>
      have hstep : s.addEntry lib dial (range.visit i) acc e =
          .ok (acc.addFor lib s.dataCenter e c) := by
        simp only [PeerState.addEntry, hfound]
      rw [PeerState.addEntries, hstep]
      dsimp only
      rcases ih (i + 1) (acc.addFor lib s.dataCenter e c) with
        ⟨placed, created', hmap, hplaced, hrun⟩ | ⟨placed, created', hplaced, hrun, e', he', hdial⟩
      · rw [addFor_created] at hplaced
        rw [← place_cons] at hrun
        exact .inl ⟨_, created', by rw [List.map_cons, hmap], .kept hfound hplaced, hrun⟩
      · rw [addFor_created] at hplaced
        exact .inr ⟨_, created', .kept hfound hplaced, hrun, e', List.mem_cons_of_mem _ he', hdial⟩
    | none =>
      cases hdial : dial e with
      -- none is known and none can be made: the loop stops
      | false =>
        have hstep : s.addEntry lib dial (range.visit i) acc e = .error acc.created := by
          simp [PeerState.addEntry, hfound, hdial]
        rw [PeerState.addEntries, hstep]
        exact .inr ⟨[], acc.created, .nil i _, rfl, e, List.mem_cons_self, hdial, i, hfound⟩
      -- one is made, with the next number
      | true =>
        have hstep : s.addEntry lib dial (range.visit i) acc e =
            .ok ({ acc with
              created := acc.created ++ [(⟨acc.created.length, e⟩ : Client)] }.addFor lib
                s.dataCenter e ⟨acc.created.length, e⟩) := by
          simp [PeerState.addEntry, hfound, hdial]
        rw [PeerState.addEntries, hstep]
        dsimp only
        rcases ih (i + 1)
            ({ acc with created := acc.created ++ [(⟨acc.created.length, e⟩ : Client)] }.addFor
              lib s.dataCenter e ⟨acc.created.length, e⟩) with
          ⟨placed, created', hmap, hplaced, hrun⟩ | ⟨placed, created', hplaced, hrun, e', he', hno⟩
        · rw [addFor_created] at hplaced
          rw [← place_cons, place_created] at hrun
          exact .inl ⟨_, created', by rw [List.map_cons, hmap], .made hfound hplaced, hrun⟩
        · rw [addFor_created] at hplaced
          exact .inr ⟨_, created', .made hfound hplaced, hrun, e', List.mem_cons_of_mem _ he', hno⟩

/-! ### Which clients are kept

`Keeps` says it without an order of the regions; the loop finds a client of an address in another
data center in the first region that has one. -/

/-- A client found under an address is in the map of the picker. -/
theorem mem_peers_of_getByPeerInfo {ch : Picker} {info : PeerInfo} {c : Client}
    (h : ch.getByPeerInfo info = some c) : (info.grpcAddress, c) ∈ ch.peers := by
  obtain ⟨l₁, l₂, hsplit, -⟩ := List.lookup_eq_some_iff.mp h
  rw [hsplit]
  simp

/-- If none is found, none is there. -/
theorem not_mem_peers_of_getByPeerInfo {ch : Picker} {info : PeerInfo}
    (h : ch.getByPeerInfo info = none) (c : Client) : (info.grpcAddress, c) ∉ ch.peers := by
  intro hmem
  have := List.lookup_eq_none_iff.mp h _ hmem
  simp at this

/-- **The client found for an entry is one that is kept**: from the local picker for an entry of the
    own data center, from any region's for another. -/
theorem keeps_of_existing {i : ℕ} {e : PeerInfo} {c : Client}
    (h : s.existing (range.visit i) e = some c) : s.Keeps e c := by
  unfold PeerState.existing at h
  unfold PeerState.Keeps
  split
  · -- the order of the visit does not matter to what is a member
    rename_i haway
    rw [if_pos haway] at h
    obtain ⟨region, hregion, hget⟩ := List.exists_of_findSome?_eq_some h
    exact ⟨region, (range.perm i _).mem_iff.mp hregion, mem_peers_of_getByPeerInfo hget⟩
  · rename_i hhome
    rw [if_neg hhome] at h
    exact mem_peers_of_getByPeerInfo h

/-- If none is found, there was none to keep, in whatever order the regions are visited. -/
theorem not_keeps_of_existing {i : ℕ} {e : PeerInfo}
    (h : s.existing (range.visit i) e = none) (c : Client) : ¬ s.Keeps e c := by
  unfold PeerState.existing at h
  unfold PeerState.Keeps
  split
  · rename_i haway
    rw [if_pos haway] at h
    rintro ⟨region, hregion, hmem⟩
    have hnone := List.findSome?_eq_none_iff.mp h region ((range.perm i _).mem_iff.mpr hregion)
    exact not_mem_peers_of_getByPeerInfo hnone c hmem
  · rename_i hhome
    rw [if_neg hhome] at h
    exact not_mem_peers_of_getByPeerInfo h c

/-- What holds of the clients the entries are given. -/
structure PlacedFacts (s : PeerState) (created : List Client) (placed : List (PeerInfo × Client))
    (created' : List Client) : Prop where
  /-- kept, or made for the entry -/
  origin : ∀ x ∈ placed, s.Keeps x.1 x.2 ∨
    (∀ c, ¬ s.Keeps x.1 c) ∧ x.2.info = x.1 ∧ x.2 ∈ created' ∧ created.length ≤ x.2.id
  grows : ∀ c ∈ created, c ∈ created'
  length : created.length ≤ created'.length
  new : ∀ c ∈ created', c ∈ created ∨ ∃ x ∈ placed, x.2 = c
  ids : (∀ c ∈ created, c.id < created.length) → ∀ c ∈ created', c.id < created'.length
  /-- clients made later have greater numbers -/
  order : placed.Pairwise (fun x y => (∀ c, ¬ s.Keeps x.1 c) → (∀ c, ¬ s.Keeps y.1 c) →
    x.2.id < y.2.id)

/-- **What the loop leaves**, by induction on it: every entry has a client that was kept, or one
    that was made for it, has its `Info` and was not there before. -/
theorem Placed.facts {i : ℕ} {created created' : List Client} {placed : List (PeerInfo × Client)}
    (h : Placed s range i created placed created') : PlacedFacts s created placed created' := by
  -- along the list: an entry keeps a client, or has one made for it
  induction h with
  | nil i created =>
    exact ⟨by simp, fun _ hc => hc, le_rfl, fun _ hc => .inl hc, fun h => h, .nil⟩
  -- nothing is made for this entry
  | @kept i created created' e c rest hfound tail ih =>
    have hkeeps := keeps_of_existing hfound
    refine ⟨?_, ih.grows, ih.length, ?_, ih.ids, ?_⟩
    · intro x hx
      rcases List.mem_cons.mp hx with rfl | hx
      · exact .inl hkeeps
      · exact ih.origin x hx
    · intro c' hc'
      rcases ih.new c' hc' with hc' | ⟨x, hx, hxc⟩
      · exact .inl hc'
      · exact .inr ⟨x, List.mem_cons_of_mem _ hx, hxc⟩
    · exact List.pairwise_cons.mpr ⟨fun y _ hno _ => absurd hkeeps (hno c), ih.order⟩
  -- its number is the count of the clients so far, so those made after it have greater ones
  | @made i created created' e rest hfound tail ih =>
    have hno := not_keeps_of_existing hfound
    have hlen : created.length + 1 ≤ created'.length := by
      have := ih.length
      rwa [List.length_append, List.length_singleton] at this
    refine ⟨?_, fun c hc => ih.grows c (List.mem_append_left _ hc), by omega, ?_, ?_, ?_⟩
    · intro x hx
      rcases List.mem_cons.mp hx with rfl | hx
      · exact .inr ⟨hno, rfl, ih.grows _ (by simp), le_rfl⟩
      · refine (ih.origin x hx).imp_right (fun hmade => ⟨hmade.1, hmade.2.1, hmade.2.2.1, ?_⟩)
        have := hmade.2.2.2
        rw [List.length_append, List.length_singleton] at this
        omega
    · intro c' hc'
      rcases ih.new c' hc' with hc' | ⟨x, hx, hxc⟩
      · rcases List.mem_append.mp hc' with hc' | hc'
        · exact .inl hc'
        · exact .inr ⟨_, List.mem_cons_self, (List.mem_singleton.mp hc').symm⟩
      · exact .inr ⟨x, List.mem_cons_of_mem _ hx, hxc⟩
    · intro hids
      refine ih.ids ?_
      intro c hc
      rw [List.length_append, List.length_singleton]
      rcases List.mem_append.mp hc with hc | hc
      · have := hids c hc
        omega
      · rw [List.mem_singleton.mp hc]
        exact Nat.lt_succ_self _
    · refine List.pairwise_cons.mpr ⟨fun y hy _ hynot => ?_, ih.order⟩
      rcases ih.origin y hy with hkeeps | hmade
      · exact absurd hkeeps (hynot _)
      · have := hmade.2.2.2
        rw [List.length_append, List.length_singleton] at this
        exact this

end Loop

/-! ## Every instance

`Sound` says what the pickers are in terms of a list of clients, the ones the last successful call
gave its entries.  Which clients are installed is then a question about that list. -/

/-- **What every call leaves**: the pickers of some clients `cs`, in the order they were added. -/
structure Sound (lib : HashLib) (hashFunc regionHash : String → UInt64)
    (replicas regionReplicas : ℕ) (s : PeerState) (cs : List Client) : Prop where
  localPicker : s.localPicker = pickerOf lib hashFunc replicas
    (cs.filter (fun c => c.info.dataCenter == s.dataCenter))
  hash : s.regionPicker.hash = ReplicatedConsistentHash.new regionHash regionReplicas
  regions : ∀ d p, (d, p) ∈ s.regionPicker.regions ↔
    d ≠ s.dataCenter ∧ (∃ c ∈ cs, c.info.dataCenter = d) ∧
      p = pickerOf lib regionHash regionReplicas (cs.filter (fun c => c.info.dataCenter == d))
  made : ∀ c ∈ cs, c ∈ s.created
  ids : ∀ c ∈ s.created, c.id < s.created.length
  shut : ∀ c ∈ s.shutdown, c ∈ s.created
  running : ∀ c, s.Installed c → c ∉ s.shutdown

section Sound
variable {lib : HashLib} {hashFunc regionHash : String → UInt64} {replicas regionReplicas : ℕ}
  {s : PeerState} {cs : List Client}

/-- The local picker has the last client at each place of the own data center. -/
theorem Sound.mem_local (h : Sound lib hashFunc regionHash replicas regionReplicas s cs)
    {c : Client} : c ∈ s.localPicker.clients ↔
      c.info.dataCenter = s.dataCenter ∧ lastAt cs c.place = some c := by
  rw [h.localPicker, mem_clients_pickerOf]

/-- A region's picker has the last at each place of its own. -/
theorem Sound.mem_region (h : Sound lib hashFunc regionHash replicas regionReplicas s cs)
    {c : Client} {region : String × Picker} (hregion : region ∈ s.regionPicker.regions) :
    c ∈ region.2.clients ↔ c.info.dataCenter = region.1 ∧ lastAt cs c.place = some c := by
  obtain ⟨d, p⟩ := region
  obtain ⟨-, -, rfl⟩ := (h.regions d p).mp hregion
  exact mem_clients_pickerOf

/-- The picker of a client's data center, for another than the instance's. -/
theorem Sound.region_of (h : Sound lib hashFunc regionHash replicas regionReplicas s cs)
    {c : Client} (hlast : lastAt cs c.place = some c) (haway : c.info.dataCenter ≠ s.dataCenter) :
    ∃ region ∈ s.regionPicker.regions, region.1 = c.info.dataCenter ∧ c ∈ region.2.clients := by
  have hregion := (h.regions c.info.dataCenter _).mpr ⟨haway, ⟨c, (lastAt_mem hlast).1, rfl⟩, rfl⟩
  exact ⟨_, hregion, rfl, (h.mem_region hregion).mpr ⟨rfl, hlast⟩⟩

/-- **The installed clients** are the last ones at their places. -/
theorem Sound.installed_iff (h : Sound lib hashFunc regionHash replicas regionReplicas s cs)
    {c : Client} : s.Installed c ↔ lastAt cs c.place = some c := by
  unfold PeerState.Installed
  constructor
  · -- installed is: in the local picker, or in that of a region
    rintro (hc | ⟨region, hregion, hc⟩)
    · exact (h.mem_local.mp hc).2
    · exact ((h.mem_region hregion).mp hc).2
  · intro hlast
    by_cases hhome : c.info.dataCenter = s.dataCenter
    · exact .inl (h.mem_local.mpr ⟨hhome, hlast⟩)
    · obtain ⟨region, hregion, -, hc⟩ := h.region_of hlast hhome
      exact .inr ⟨region, hregion, hc⟩

/-- **No two installed clients have one place.** -/
theorem Sound.unique (h : Sound lib hashFunc regionHash replicas regionReplicas s cs)
    {c c' : Client} (hc : s.Installed c) (hc' : s.Installed c') (hplace : c.place = c'.place) :
    c = c' := by
  rw [h.installed_iff] at hc hc'
  rw [hplace, hc'] at hc
  exact (Option.some.inj hc).symm

/-- An entry keeps the installed clients of its address, from its side of the pickers. -/
theorem Sound.keeps_iff (h : Sound lib hashFunc regionHash replicas regionReplicas s cs)
    {e : PeerInfo} {c : Client} : s.Keeps e c ↔ s.Installed c ∧ c.address = e.grpcAddress ∧
      (c.info.dataCenter = s.dataCenter ↔ e.dataCenter = s.dataCenter) := by
  unfold PeerState.Keeps
  rw [h.installed_iff]
  by_cases hhome : e.dataCenter = s.dataCenter
  · -- an entry of the own data center looks into the local picker
    rw [if_neg (not_not.mpr hhome), h.localPicker, mem_peers_pickerOf]
    constructor
    · intro hlast
      obtain ⟨hd, ha⟩ := Prod.mk.inj (lastAt_mem hlast).2
      refine ⟨?_, ha, ⟨fun _ => hhome, fun _ => hd⟩⟩
      rw [(lastAt_mem hlast).2]
      exact hlast
    · rintro ⟨hlast, ha, hd⟩
      rwa [Client.place, hd.mpr hhome, ha] at hlast
  · -- any other into the pickers of the regions, and takes a client of any of them
    rw [if_pos hhome]
    constructor
    · rintro ⟨⟨d, p⟩, hregion, hmem⟩
      obtain ⟨hd, -, rfl⟩ := (h.regions d p).mp hregion
      have hlast := mem_peers_pickerOf.mp hmem
      obtain ⟨hd', ha⟩ := Prod.mk.inj (lastAt_mem hlast).2
      refine ⟨?_, ha, ⟨fun hh => absurd (hd'.symm.trans hh) hd, fun hh => absurd hh hhome⟩⟩
      rw [(lastAt_mem hlast).2]
      exact hlast
    · rintro ⟨hlast, ha, hd⟩
      have haway : c.info.dataCenter ≠ s.dataCenter := fun hh => hhome (hd.mp hh)
      refine ⟨_, (h.regions c.info.dataCenter _).mpr
        ⟨haway, ⟨c, (lastAt_mem hlast).1, rfl⟩, rfl⟩, ?_⟩
      rw [mem_peers_pickerOf, ← ha]
      exact hlast

/-- An instance before its first list has no clients. -/
theorem sound_init (lib : HashLib) (d : String) (hashFunc regionHash : String → UInt64)
    (replicas regionReplicas : ℕ) :
    Sound lib hashFunc regionHash replicas regionReplicas
      (PeerState.init d hashFunc regionHash replicas regionReplicas) [] := by
  refine ⟨rfl, rfl, by simp [PeerState.init], by simp, by simp [PeerState.init],
    by simp [PeerState.init], ?_⟩
  intro c _ hc
  simp [PeerState.init] at hc

/-! ### One call

The state after a call that goes through is written down as a function of `placed`, and each field
of `Sound` is proved of it. -/

/-- The state after a call that gave the entries the clients `placed`. -/
def PeerState.after (lib : HashLib) (visit : List (String × Picker) → List (String × Picker))
    (s : PeerState) (placed : List (PeerInfo × Client)) (created : List Client) : PeerState :=
  let new := NewPickers.place lib s.dataCenter
    ⟨s.localPicker.renew, s.regionPicker.renew, s.created⟩
    placed created
  { s with
    localPicker := new.localPicker
    regionPicker := new.regionPicker
    created := created
    shutdown := s.shutdown ++ s.shutdownPeers visit new }

variable {placed : List (PeerInfo × Client)} {created : List Client}

/-- A client an entry is given has its address and belongs on its side. -/
theorem PlacedFacts.place_eq (h : Sound lib hashFunc regionHash replicas regionReplicas s cs)
    (hp : PlacedFacts s s.created placed created) {x : PeerInfo × Client} (hx : x ∈ placed) :
    x.2.address = x.1.grpcAddress ∧
      (x.2.info.dataCenter = s.dataCenter ↔ x.1.dataCenter = s.dataCenter) := by
  rcases hp.origin x hx with hkeeps | ⟨-, hinfo, -⟩
  · exact (h.keeps_iff.mp hkeeps).2
  · rw [Client.address, hinfo]
    exact ⟨rfl, Iff.rfl⟩

/-- An entry and its client name the same data center as far as home and away go, so to choose
    entries by `side`, home or away, is to choose their clients by it. -/
theorem PlacedFacts.side_eq (h : Sound lib hashFunc regionHash replicas regionReplicas s cs)
    (hp : PlacedFacts s s.created placed created) (side : Bool → Bool) :
    (placed.filter (fun x => side (x.1.dataCenter == s.dataCenter))).map Prod.snd =
      (placed.map Prod.snd).filter (fun c => side (c.info.dataCenter == s.dataCenter)) := by
  rw [List.filter_map]
  congr 1
  refine List.filter_congr (fun x hx => ?_)
  have hiff : (x.1.dataCenter == s.dataCenter) = (x.2.info.dataCenter == s.dataCenter) := by
    rw [Bool.eq_iff_iff]
    simp [(hp.place_eq h hx).2]
  rw [hiff]
  rfl

/-- The clients of the home entries are the clients that are at home. -/
theorem PlacedFacts.homeOf_eq (h : Sound lib hashFunc regionHash replicas regionReplicas s cs)
    (hp : PlacedFacts s s.created placed created) :
    homeOf s.dataCenter placed =
      (placed.map Prod.snd).filter (fun c => c.info.dataCenter == s.dataCenter) :=
  hp.side_eq h id

/-- And the others are away. -/
theorem PlacedFacts.awayOf_eq (h : Sound lib hashFunc regionHash replicas regionReplicas s cs)
    (hp : PlacedFacts s s.created placed created) :
    awayOf s.dataCenter placed =
      (placed.map Prod.snd).filter (fun c => c.info.dataCenter != s.dataCenter) :=
  hp.side_eq h not

/-- **The new local picker** is that of the home clients in the order of the list. -/
theorem after_localPicker (h : Sound lib hashFunc regionHash replicas regionReplicas s cs)
    (hp : PlacedFacts s s.created placed created)
    (visit : List (String × Picker) → List (String × Picker)) :
    (s.after lib visit placed created).localPicker = pickerOf lib hashFunc replicas
      ((placed.map Prod.snd).filter (fun c => c.info.dataCenter == s.dataCenter)) := by
  have hring := isRing_ringOf lib.sort lib.md5hex Client.address hashFunc replicas
    (cs.filter (fun c => c.info.dataCenter == s.dataCenter))
  -- a new picker keeps the hash function and the number of replicas, and nothing else
  have hrenew : s.localPicker.renew = ReplicatedConsistentHash.new hashFunc replicas := by
    rw [Picker.renew, h.localPicker, pickerOf, hring.hashFunc_eq, hring.replicas_eq]
  show (homeOf s.dataCenter placed).foldl (Picker.addPeer lib) s.localPicker.renew = _
  rw [hrenew, hp.homeOf_eq h]
  rfl

/-- A data center that is not home is among the others. -/
theorem filter_away {cs : List Client} {d home : String} (hd : d ≠ home) :
    (cs.filter (fun c => c.info.dataCenter != home)).filter (fun c => c.info.dataCenter == d) =
      cs.filter (fun c => c.info.dataCenter == d) := by
  rw [List.filter_filter]
  refine List.filter_congr (fun c _ => ?_)
  by_cases hc : c.info.dataCenter = d
  · simp [hc, hd]
  · simp [hc]

/-- **The new region pickers**: one for each other data center that a client is in, made of its
    clients. -/
theorem after_regions (h : Sound lib hashFunc regionHash replicas regionReplicas s cs)
    (hp : PlacedFacts s s.created placed created)
    (visit : List (String × Picker) → List (String × Picker)) :
    (s.after lib visit placed created).regionPicker.hash =
        ReplicatedConsistentHash.new regionHash regionReplicas ∧
    ∀ d p, (d, p) ∈ (s.after lib visit placed created).regionPicker.regions ↔
      d ≠ s.dataCenter ∧ (∃ c ∈ placed.map Prod.snd, c.info.dataCenter = d) ∧
        p = pickerOf lib regionHash regionReplicas
          ((placed.map Prod.snd).filter (fun c => c.info.dataCenter == d)) := by
  have hhash : s.regionPicker.hash.renew =
      ReplicatedConsistentHash.new regionHash regionReplicas := by rw [h.hash]; rfl
  obtain ⟨hkept, hregions⟩ := mem_regions hhash (awayOf s.dataCenter placed)
  refine ⟨hkept.trans hhash, fun d p => (hregions d p).trans ?_⟩
  rw [hp.awayOf_eq h]
  constructor
  · rintro ⟨⟨c, hc, rfl⟩, rfl⟩
    obtain ⟨hc, haway⟩ := List.mem_filter.mp hc
    have haway : c.info.dataCenter ≠ s.dataCenter := by simpa using haway
    exact ⟨haway, ⟨c, hc, rfl⟩, by rw [filter_away haway]⟩
  · rintro ⟨hd, ⟨c, hc, rfl⟩, rfl⟩
    exact ⟨⟨c, List.mem_filter.mpr ⟨hc, by simpa using hd⟩, rfl⟩, by rw [filter_away hd]⟩

/-- A client an entry is given is known to the new pickers by its address. -/
theorem after_known (h : Sound lib hashFunc regionHash replicas regionReplicas s cs)
    (hp : PlacedFacts s s.created placed created) (range : MapRange) (i : ℕ) {c : Client}
    (hc : c ∈ placed.map Prod.snd) :
    (c.info.dataCenter = s.dataCenter →
      ((s.after lib (range.visit i) placed created).localPicker.getByPeerInfo c.info).isSome) ∧
    (c.info.dataCenter ≠ s.dataCenter →
      ((s.after lib (range.visit i) placed created).regionPicker.getByPeerInfo (range.visit i)
        c.info).isSome) := by
  -- perhaps not as this client: a later one of the same place may have replaced it
  obtain ⟨c', hlast⟩ := lastAt_of_mem hc
  constructor
  · intro hhome
    rw [after_localPicker h hp, getByPeerInfo_pickerOf, ← hhome]
    exact Option.isSome_of_eq_some hlast
  · intro haway
    have hregion := ((after_regions h hp (range.visit i)).2 c.info.dataCenter _).mpr
      ⟨haway, ⟨c, hc, rfl⟩, rfl⟩
    rw [RegionPicker.getByPeerInfo, List.findSome?_isSome_iff]
    refine ⟨_, (range.perm i _).mem_iff.mpr hregion, ?_⟩
    rw [getByPeerInfo_pickerOf]
    exact Option.isSome_of_eq_some hlast

/-- **Who is shut down**: the old clients whose address the new picker of their kind does not know.
    -/
theorem mem_shutdownPeers {visit : List (String × Picker) → List (String × Picker)}
    {new : NewPickers} {c : Client} :
    c ∈ s.shutdownPeers visit new ↔
      (c ∈ s.localPicker.clients ∧ new.localPicker.getByPeerInfo c.info = none) ∨
      ((∃ region ∈ s.regionPicker.regions, c ∈ region.2.clients) ∧
        new.regionPicker.getByPeerInfo visit c.info = none) := by
  simp only [PeerState.shutdownPeers, List.mem_append, List.mem_filter, List.mem_flatMap,
    Option.isNone_iff_eq_none]
  constructor
  · rintro (hc | ⟨region, hregion, hc, hnone⟩)
    · exact .inl hc
    · exact .inr ⟨⟨region, hregion, hc⟩, hnone⟩
  · rintro (hc | ⟨⟨region, hregion, hc⟩, hnone⟩)
    · exact .inl hc
    · exact .inr ⟨region, hregion, hc, hnone⟩

/-- Only clients installed before are shut down, and none that an entry is given. -/
theorem Sound.not_shut (h : Sound lib hashFunc regionHash replicas regionReplicas s cs)
    (hp : PlacedFacts s s.created placed created) (range : MapRange) (i : ℕ) {c : Client}
    (hshut : c ∈ s.shutdownPeers (range.visit i)
      (NewPickers.place lib s.dataCenter ⟨s.localPicker.renew, s.regionPicker.renew, s.created⟩
        placed created)) :
    s.Installed c ∧ c ∉ placed.map Prod.snd := by
  rcases mem_shutdownPeers.mp hshut with ⟨hc, hnone⟩ | ⟨⟨region, hregion, hc⟩, hnone⟩
  · -- it would be known to the new local picker
    refine ⟨.inl hc, fun hmem => ?_⟩
    have hknown := (after_known h hp range i hmem).1 (h.mem_local.mp hc).1
    rw [Option.isSome_iff_ne_none] at hknown
    exact hknown hnone
  · refine ⟨.inr ⟨region, hregion, hc⟩, fun hmem => ?_⟩
    -- it would be known to that of its region
    have haway : c.info.dataCenter ≠ s.dataCenter := by
      obtain ⟨d, p⟩ := region
      rw [((h.mem_region hregion).mp hc).1]
      exact ((h.regions d p).mp hregion).1
    have hknown := (after_known h hp range i hmem).2 haway
    rw [Option.isSome_iff_ne_none] at hknown
    exact hknown hnone

/-- **A call that makes all its clients leaves a sound state.** -/
theorem Sound.after (h : Sound lib hashFunc regionHash replicas regionReplicas s cs)
    (hp : PlacedFacts s s.created placed created) (range : MapRange) (i : ℕ) :
    Sound lib hashFunc regionHash replicas regionReplicas
      (s.after lib (range.visit i) placed created) (placed.map Prod.snd) := by
  -- a client that is kept was made by an earlier call
  have hmade : ∀ c ∈ placed.map Prod.snd, c ∈ created := by
    intro c hc
    obtain ⟨x, hx, rfl⟩ := List.mem_map.mp hc
    rcases hp.origin x hx with hkeeps | ⟨-, -, hnew, -⟩
    · have hinstalled := (h.keeps_iff.mp hkeeps).1
      exact hp.grows _ (h.made _ (lastAt_mem (h.installed_iff.mp hinstalled)).1)
    · exact hnew
  have hbefore : ∀ c, s.Installed c → c ∈ s.created := fun c hc =>
    h.made c (lastAt_mem (h.installed_iff.mp hc)).1
  -- without its shutdowns the state is sound, and that says what is installed
  have hsound : Sound lib hashFunc regionHash replicas regionReplicas
      { s.after lib (range.visit i) placed created with shutdown := [] } (placed.map Prod.snd) :=
    ⟨after_localPicker h hp (range.visit i), (after_regions h hp (range.visit i)).1,
      (after_regions h hp (range.visit i)).2, hmade, hp.ids h.ids, by simp, by simp⟩
  refine ⟨hsound.localPicker, hsound.hash, hsound.regions, hmade, hp.ids h.ids, ?_, ?_⟩
  · intro c hc
    rcases List.mem_append.mp hc with hc | hc
    · exact hp.grows c (h.shut c hc)
    · exact hp.grows c (hbefore c (h.not_shut hp range i hc).1)
  · intro c hc hshut
    have hc : c ∈ placed.map Prod.snd := (lastAt_mem (hsound.installed_iff.mp hc)).1
    rcases List.mem_append.mp hshut with hold | hnew
    · -- shut down by an earlier call: neither kept nor just made
      obtain ⟨x, hx, rfl⟩ := List.mem_map.mp hc
      rcases hp.origin x hx with hkeeps | ⟨-, -, -, hid⟩
      · exact h.running _ (h.keeps_iff.mp hkeeps).1 hold
      · have := h.ids _ (h.shut _ hold)
        omega
    · exact (h.not_shut hp range i hnew).2 hc

/-- The two ways a call can end. -/
theorem setPeers_cases (lib : HashLib) (dial : PeerInfo → Bool) (range : MapRange) (s : PeerState)
    (peerInfo : List PeerInfo) :
    (∃ placed created, placed.map Prod.fst = peerInfo ∧ PlacedFacts s s.created placed created ∧
      Placed s range 0 s.created placed created ∧
      s.setPeers lib dial range peerInfo =
        s.after lib (range.visit peerInfo.length) placed created) ∨
    (∃ placed created, PlacedFacts s s.created placed created ∧
      s.setPeers lib dial range peerInfo = { s with created := created } ∧
      ∃ e ∈ peerInfo, dial e = false ∧ ∀ c, ¬ s.Keeps e c) := by
  rcases addEntries_placed lib dial range s peerInfo 0
      ⟨s.localPicker.renew, s.regionPicker.renew, s.created⟩ with
    ⟨placed, created, hmap, hplaced, hrun⟩ | ⟨placed, created, hplaced, hrun, e, he, hdial, j, hno⟩
  · refine .inl ⟨placed, created, hmap, hplaced.facts, hplaced, ?_⟩
    rw [PeerState.setPeers, hrun]
    rfl
  · refine .inr ⟨placed, created, hplaced.facts, ?_, e, he, hdial, not_keeps_of_existing hno⟩
    rw [PeerState.setPeers, hrun]

/-- **Every call leaves a sound state.** -/
theorem Sound.setPeers (h : Sound lib hashFunc regionHash replicas regionReplicas s cs)
    (dial : PeerInfo → Bool) (range : MapRange) (peerInfo : List PeerInfo) :
    ∃ cs', Sound lib hashFunc regionHash replicas regionReplicas
      (s.setPeers lib dial range peerInfo) cs' := by
  rcases setPeers_cases lib dial range s peerInfo with
    ⟨placed, created, -, hp, -, hrun⟩ | ⟨placed, created, hp, hrun, -⟩
  · rw [hrun]
    exact ⟨_, h.after hp range _⟩
  · -- a call that fails leaves the pickers, and has made some clients
    rw [hrun]
    exact ⟨cs, h.localPicker, h.hash, h.regions, fun c hc => hp.grows c (h.made c hc),
      hp.ids h.ids, fun c hc => hp.grows c (h.shut c hc), h.running⟩

/-- **Every instance is sound**, whatever lists it has been given. -/
theorem sound_run (lib : HashLib) (d : String) (hashFunc regionHash : String → UInt64)
    (replicas regionReplicas : ℕ) (calls : List SetPeersCall) :
    ∃ cs, Sound lib hashFunc regionHash replicas regionReplicas
      ((PeerState.init d hashFunc regionHash replicas regionReplicas).run lib calls) cs := by
  induction calls using List.reverseRecOn with
  | nil => exact ⟨[], sound_init lib d hashFunc regionHash replicas regionReplicas⟩
  | append_singleton calls call ih =>
    obtain ⟨cs, h⟩ := ih
    rw [PeerState.run, List.foldl_append]
    exact h.setPeers call.dial call.range call.peerInfo

end Sound

end Gubernator
