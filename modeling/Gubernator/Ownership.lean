/-
  ONE OWNER FOR EVERY KEY (`daemon.go`, `SetPeers`; `gubernator.go`, `SetPeers`, `GetPeer`).

  Every daemon gets its lists of peers from its own discovery: at its own times, in its own order,
  and some of them it fails to install.  It marks the entry with its own address and hands the list
  to its instance, which KEEPS clients of earlier lists, with the mark they were made with.

  Still, once the daemons of a data center have installed lists with the same addresses, `GetPeer`
  answers the same address for a key everywhere, and only the daemon with that address finds itself
  the owner: every key has exactly one bucket that is charged.  That is the table `owner` which the
  deployment takes for granted.

  1. the mark: every client ever made is the owner's iff it has the daemon's address
     (`Marked.setPeers`, over a run `marked_run`),
  2. the ring: its points are those of the ADDRESSES of the list (`GivesOut`), and the successor
     of a place depends on the places only (`Ring.Successor.place_eq`).

  Lists that fail to install are among the earlier ones; only of the last is it asked that all its
  peers can be dialled.
-/
import Gubernator.SetPeers.Sound

namespace Gubernator

open ReplicatedConsistentHash

/-! ## The daemon

The layer between discovery and the instance: all it adds is the mark. -/

/-- A daemon: its own address, and its instance. -/
structure Daemon where
  advertiseAddress : String
  v1Server : PeerState

/-- `GetPeer`: whom the instance takes for the owner of a key. -/
def PeerState.getPeer (lib : HashLib) (s : PeerState) (key : String) : Except String PeerInfo :=
  match s.localPicker.get lib.sort key with
  | .error e => .error s!"Error in conf.LocalPicker.Get: {e}"
  | .ok c => .ok c.info

namespace Daemon

/-- An entry of a list, marked if it is the daemon itself. -/
def mark (advertiseAddress : String) (p : PeerInfo) : PeerInfo :=
  if advertiseAddress = p.grpcAddress then { p with isOwner := true } else p

/-- `Daemon.SetPeers`. -/
def setPeers (lib : HashLib) (d : Daemon) (call : SetPeersCall) : Daemon :=
  { d with
    v1Server := d.v1Server.setPeers lib call.dial call.range
      (call.peerInfo.map (mark d.advertiseAddress)) }

/-- Any number of lists. -/
def run (lib : HashLib) (d : Daemon) (calls : List SetPeersCall) : Daemon :=
  calls.foldl (setPeers lib) d

/-- The mark leaves the address. -/
@[simp]
theorem mark_address (a : String) (p : PeerInfo) : (mark a p).grpcAddress = p.grpcAddress := by
  unfold mark
  split <;> rfl

/-- The mark leaves the data center. -/
@[simp]
theorem mark_dataCenter (a : String) (p : PeerInfo) : (mark a p).dataCenter = p.dataCenter := by
  unfold mark
  split <;> rfl

/-- If nobody else came with a mark, nobody else has one. -/
theorem mark_isOwner {a : String} {p : PeerInfo} (h : p.isOwner = true → p.grpcAddress = a) :
    (mark a p).isOwner = true ↔ p.grpcAddress = a := by
  unfold mark
  split
  · exact ⟨fun _ => Eq.symm ‹_›, fun _ => rfl⟩
  · exact ⟨h, fun ha => absurd ha.symm ‹_›⟩

/-- What a daemon does with a list, its instance does with the marked list. -/
def marked (a : String) (call : SetPeersCall) : SetPeersCall :=
  { call with peerInfo := call.peerInfo.map (mark a) }

/-- A daemon's run is its instance's, on the marked lists. -/
theorem run_eq (lib : HashLib) (d : Daemon) (calls : List SetPeersCall) :
    d.run lib calls =
      { d with v1Server := d.v1Server.run lib (calls.map (marked d.advertiseAddress)) } := by
  induction calls generalizing d with
  | nil => rfl
  | cons call calls ih =>
    show (d.setPeers lib call).run lib calls = _
    rw [ih]
    rfl

end Daemon

/-! ## The mark

A client is made with the mark its entry had, and keeps it.  It is right as long as every list marks
the daemon itself and nobody else. -/

/-- The clients made so far, when the loop ends or when it gives up. -/
def madeBy : Except (List Client) NewPickers → List Client
  | .error created => created
  | .ok new => new.created

section Mark
variable (lib : HashLib) (dial : PeerInfo → Bool) (range : MapRange) {s : PeerState} {a : String}

/-- One entry makes one client at most, for itself. -/
theorem addEntry_made (s : PeerState) (visit : List (String × Picker) → List (String × Picker))
    (acc : NewPickers) (info : PeerInfo) :
    ∀ c ∈ madeBy (s.addEntry lib dial visit acc info), c ∈ acc.created ∨ c.info = info := by
  intro c hc
  unfold PeerState.addEntry at hc
  split at hc
  · rw [madeBy, addFor_created] at hc
    exact .inl hc
  split at hc
  · simp only [madeBy, addFor_created, List.mem_append, List.mem_singleton] at hc
    rcases hc with hold | rfl
    · exact .inl hold
    · exact .inr rfl
  · exact .inl hc

/-- **Every client the loop makes is made for an entry of the list**, also if it gives up. -/
theorem addEntries_made (s : PeerState) (peerInfo : List PeerInfo) (i : ℕ) (acc : NewPickers) :
    ∀ c ∈ madeBy (s.addEntries lib dial range i peerInfo acc),
      c ∈ acc.created ∨ c.info ∈ peerInfo := by
  induction peerInfo generalizing i acc with
  | nil => exact fun c hc => .inl hc
  | cons info rest ih =>
    have hone := addEntry_made lib dial s (range.visit i) acc info
    have hhead : ∀ {c : Client}, c.info = info → c.info ∈ info :: rest := by
      rintro c rfl
      exact List.mem_cons_self
    intro c hc
    rw [PeerState.addEntries] at hc
    cases hentry : s.addEntry lib dial (range.visit i) acc info with
    | error created =>
      rw [hentry] at hc hone
      exact (hone c hc).imp_right hhead
    | ok acc' =>
      rw [hentry] at hc hone
      rcases ih (i + 1) acc' c hc with hacc | hrest
      · exact (hone c hacc).imp_right hhead
      · exact .inr (List.mem_cons_of_mem _ hrest)

/-- Every client that a list makes, installed or not, is made for one of its entries. -/
theorem setPeers_made (s : PeerState) (peerInfo : List PeerInfo) :
    ∀ c ∈ (s.setPeers lib dial range peerInfo).created, c ∈ s.created ∨ c.info ∈ peerInfo := by
  have hmade := addEntries_made lib dial range s peerInfo 0
    ⟨s.localPicker.renew, s.regionPicker.renew, s.created⟩
  unfold PeerState.setPeers
  split
  all_goals
    rename_i hrun
    rw [hrun] at hmade
    exact hmade

/-- **Every client is marked rightly**: it is the owner's if and only if it has the address `a`. -/
def Marked (a : String) (s : PeerState) : Prop :=
  ∀ c ∈ s.created, c.info.isOwner = true ↔ c.address = a

/-- Discovery itself marks nobody but the daemon with the address `a`. -/
def SetPeersCall.MarksOnly (a : String) (call : SetPeersCall) : Prop :=
  ∀ e ∈ call.peerInfo, e.isOwner = true → e.grpcAddress = a

/-- A list that marks nobody else keeps the clients marked rightly. -/
theorem Marked.setPeers (h : Marked a s) {call : SetPeersCall} (hcall : call.MarksOnly a) :
    Marked a (s.setPeers lib call.dial call.range (call.peerInfo.map (Daemon.mark a))) := by
  intro c hc
  rcases setPeers_made lib _ _ s _ c hc with hold | hnew
  · exact h c hold
  · obtain ⟨e, he, hinfo⟩ := List.mem_map.mp hnew
    rw [Client.address, ← hinfo, Daemon.mark_address]
    exact Daemon.mark_isOwner (hcall e he)

/-- Any number of such lists keeps the clients marked rightly. -/
theorem marked_run (h : Marked a s) (calls : List SetPeersCall)
    (hcalls : ∀ call ∈ calls, call.MarksOnly a) :
    Marked a (s.run lib (calls.map (Daemon.marked a))) := by
  induction calls generalizing s with
  | nil => exact h
  | cons call calls ih =>
    exact ih (h.setPeers lib (hcalls call List.mem_cons_self))
      (fun c hc => hcalls c (List.mem_cons_of_mem _ hc))

end Mark

/-! ## The ring

What `GetPeer` gives out after an installed list, in terms of addresses. -/

/-- No list moves an instance to another data center. -/
theorem run_dataCenter (lib : HashLib) (s : PeerState) (calls : List SetPeersCall) :
    (s.run lib calls).dataCenter = s.dataCenter := by
  induction calls generalizing s with
  | nil => rfl
  | cons call calls ih =>
    refine (ih _).trans ?_
    show (s.setPeers lib call.dial call.range call.peerInfo).dataCenter = s.dataCenter
    unfold PeerState.setPeers
    split <;> rfl

/-- **`GetPeer` gives out the peers with the addresses `A`**: the one of the key's successor among
    their points, with the mark of the daemon's own address `a`. -/
def GivesOut (lib : HashLib) (hashFunc : String → UInt64) (replicas : ℕ) (A : Set String)
    (a : String) (s : PeerState) : Prop :=
  ∃ ls : List Client, (∀ b, b ∈ A ↔ ∃ c ∈ ls, c.address = b) ∧ ∀ key, ∃ x,
    s.getPeer lib key = .ok x.peer.info ∧ (x.peer.info.isOwner = true ↔ x.peer.address = a) ∧
    Ring.Successor PeerPoint.place
      (allPoints hashFunc lib.md5hex Client.address replicas ls) (hashFunc key).toNat x

section Ring
variable {lib : HashLib} {hashFunc regionHash : String → UInt64} {replicas regionReplicas : ℕ}
  {s : PeerState} {a : String} {A : Set String}

/-- The mark changes neither address nor data center. -/
theorem exists_mark_iff {peerInfo : List PeerInfo} {d b : String} :
    (∃ e ∈ peerInfo, e.dataCenter = d ∧ e.grpcAddress = b) ↔
      ∃ e ∈ peerInfo.map (Daemon.mark a), e.dataCenter = d ∧ e.grpcAddress = b := by
  simp only [List.mem_map, exists_exists_and_eq_and, Daemon.mark_address, Daemon.mark_dataCenter]

/-- A list that is installed decides what `GetPeer` gives out, whatever was kept. -/
theorem givesOut_setPeers {cs : List Client}
    (h : Sound lib hashFunc regionHash replicas regionReplicas s cs) (hmarked : Marked a s)
    {call : SetPeersCall} (hcall : call.MarksOnly a) (hr : 1 ≤ replicas) (hne : A.Nonempty)
    (hA : ∀ b, b ∈ A ↔ ∃ e ∈ call.peerInfo, e.dataCenter = s.dataCenter ∧ e.grpcAddress = b)
    (hdial : ∀ e ∈ call.peerInfo, call.dial (Daemon.mark a e) = true) :
    GivesOut lib hashFunc replicas A a
      (s.setPeers lib call.dial call.range (call.peerInfo.map (Daemon.mark a))) := by
  have hmarked' := hmarked.setPeers lib hcall
  rcases setPeers_cases lib call.dial call.range s (call.peerInfo.map (Daemon.mark a)) with
    ⟨placed, created, hmap, hp, -, hrun⟩ | ⟨-, -, -, -, e, he, hno, -⟩
  · -- installed
    rw [hrun] at hmarked' ⊢
    set ls := (placed.map Prod.snd).filter (fun c => c.info.dataCenter == s.dataCenter) with hls
    have hpicker := after_localPicker h hp
      (call.range.visit (call.peerInfo.map (Daemon.mark a)).length)
    have hmade := (h.after hp call.range (call.peerInfo.map (Daemon.mark a)).length).made
    -- the addresses on the ring are those of the home entries
    have haddresses : ∀ b, b ∈ A ↔ ∃ c ∈ ls, c.address = b := by
      intro b
      rw [hA, exists_mark_iff, ← hmap, hls]
      constructor
      · rintro ⟨e, he, hhome, rfl⟩
        obtain ⟨x, hx, rfl⟩ := List.mem_map.mp he
        obtain ⟨haddress, hiff⟩ := hp.place_eq h hx
        have hc : x.2 ∈ placed.map Prod.snd := List.mem_map_of_mem hx
        exact ⟨x.2, List.mem_filter.mpr ⟨hc, by simpa using hiff.mpr hhome⟩, haddress⟩
      · rintro ⟨c, hc, rfl⟩
        obtain ⟨hc, hhome⟩ := List.mem_filter.mp hc
        obtain ⟨x, hx, rfl⟩ := List.mem_map.mp hc
        obtain ⟨haddress, hiff⟩ := hp.place_eq h hx
        exact ⟨x.1, List.mem_map_of_mem hx, hiff.mp (by simpa using hhome), haddress.symm⟩
    obtain ⟨b, hb⟩ := hne
    have hlsne : ls ≠ [] := by
      obtain ⟨c, hc, -⟩ := (haddresses b).mp hb
      exact List.ne_nil_of_mem hc
    refine ⟨ls, haddresses, fun key => ?_⟩
    obtain ⟨x, hget, hsucc⟩ := (isRing_ringOf lib.sort lib.md5hex Client.address hashFunc replicas
      ls).get_successor lib.sort hlsne hr key
    refine ⟨x, ?_, hmarked' _ ?_, hsucc⟩
    · rw [PeerState.getPeer, hpicker, ← hls, pickerOf, hget]
    · exact hmade _ (List.mem_filter.mp (mem_allPoints.mp hsucc.mem).1).1
  · -- given up, which needs a peer that cannot be dialled
    obtain ⟨e₀, he₀, rfl⟩ := List.mem_map.mp he
    rw [hdial e₀ he₀] at hno
    cases hno

/-- The places of a ring are those of its addresses. -/
theorem exists_point {md5hex : String → String} {ls ls' : List Client}
    (hsame : ∀ c ∈ ls, ∃ c' ∈ ls', c'.address = c.address) :
    ∀ x ∈ allPoints hashFunc md5hex Client.address replicas ls,
      ∃ y ∈ allPoints hashFunc md5hex Client.address replicas ls', y.place = x.place := by
  intro x hx
  obtain ⟨hpeer, i, hi, hhash⟩ := mem_allPoints.mp hx
  obtain ⟨c', hc', haddress⟩ := hsame x.peer hpeer
  refine ⟨⟨x.hash, c'⟩, mem_allPoints.mpr ⟨hc', i, hi, ?_⟩, rfl⟩
  rw [hhash, haddress]

/-- **Two instances with the same addresses give out the same one**, on a ring without
    collisions. -/
theorem GivesOut.address_eq {s' : PeerState} {a' : String}
    (h : GivesOut lib hashFunc replicas A a s) (h' : GivesOut lib hashFunc replicas A a' s')
    (hfree : ∀ b ∈ A, ∀ b' ∈ A, ∀ i < replicas, ∀ j < replicas,
      hashFunc (toString i ++ lib.md5hex b) = hashFunc (toString j ++ lib.md5hex b') → b = b')
    {key : String} {info info' : PeerInfo} (hget : s.getPeer lib key = .ok info)
    (hget' : s'.getPeer lib key = .ok info') : info.grpcAddress = info'.grpcAddress := by
  obtain ⟨ls, hls, hfind⟩ := h
  obtain ⟨ls', hls', hfind'⟩ := h'
  obtain ⟨x, hx, -, hsucc⟩ := hfind key
  obtain ⟨y, hy, -, hsucc'⟩ := hfind' key
  obtain rfl : x.peer.info = info := Except.ok.inj (hx.symm.trans hget)
  obtain rfl : y.peer.info = info' := Except.ok.inj (hy.symm.trans hget')
  -- the successors are at one place, and a place has one address
  have hplace : x.place = y.place := hsucc.place_eq hsucc'
    (exists_point (fun c hc => (hls' _).mp ((hls _).mpr ⟨c, hc, rfl⟩)))
    (exists_point (fun c hc => (hls _).mp ((hls' _).mpr ⟨c, hc, rfl⟩)))
  obtain ⟨hxmem, i, hi, hxhash⟩ := mem_allPoints.mp hsucc.mem
  obtain ⟨hymem, j, hj, hyhash⟩ := mem_allPoints.mp hsucc'.mem
  refine hfree _ ((hls _).mpr ⟨_, hxmem, rfl⟩) _ ((hls' _).mpr ⟨_, hymem, rfl⟩) i hi j hj ?_
  exact hxhash.symm.trans ((UInt64.toNat_inj.mp hplace).trans hyhash)

/-- What is given out has an address of the list and the daemon's mark. -/
theorem GivesOut.getPeer (h : GivesOut lib hashFunc replicas A a s) (key : String) :
    ∃ info, s.getPeer lib key = .ok info ∧ info.grpcAddress ∈ A ∧
      (info.isOwner = true ↔ info.grpcAddress = a) := by
  obtain ⟨ls, hls, hfind⟩ := h
  obtain ⟨x, hx, hmark, hsucc⟩ := hfind key
  exact ⟨_, hx, (hls _).mpr ⟨_, (mem_allPoints.mp hsucc.mem).1, rfl⟩, hmark⟩

end Ring

/-! ## The cluster

Each daemon's run by itself, and then all of them compared. -/

/-- A daemon before its first list. -/
def Daemon.init (advertiseAddress dataCenter : String) (hashFunc regionHash : String → UInt64)
    (replicas regionReplicas : ℕ) : Daemon where
  advertiseAddress := advertiseAddress
  v1Server := .init dataCenter hashFunc regionHash replicas regionReplicas

/-- **The daemons of a data center agree on one owner for every key.**  Daemon `i` has the address
    `address i`; it has been given any lists before, and then one it installs, whose entries of the
    data center are the daemons.  Then there is a table of owners: every daemon is told the owner's
    address for a key, and finds itself the owner if and only if it is. -/
theorem daemons_agree_on_owner (lib : HashLib) (dataCenter : String)
    (hashFunc regionHash : String → UInt64) (replicas regionReplicas : ℕ) (hr : 1 ≤ replicas)
    {ι : Type} [Nonempty ι] (address : ι → String) (hinj : Function.Injective address)
    (hfree : ∀ i j, ∀ k < replicas, ∀ l < replicas,
      hashFunc (toString k ++ lib.md5hex (address i)) =
        hashFunc (toString l ++ lib.md5hex (address j)) → i = j)
    (earlier : ι → List SetPeersCall) (last : ι → SetPeersCall)
    (hmarks : ∀ i, ∀ call ∈ earlier i ++ [last i], call.MarksOnly (address i))
    (hlist : ∀ i b, (∃ e ∈ (last i).peerInfo, e.dataCenter = dataCenter ∧ e.grpcAddress = b) ↔
      ∃ j, address j = b)
    (hdial : ∀ i, ∀ e ∈ (last i).peerInfo, (last i).dial (Daemon.mark (address i) e) = true) :
    ∃ owner : String → ι, ∀ i key, ∃ info,
      ((Daemon.init (address i) dataCenter hashFunc regionHash replicas regionReplicas).run lib
        (earlier i ++ [last i])).v1Server.getPeer lib key = .ok info ∧
      info.grpcAddress = address (owner key) ∧ (info.isOwner = true ↔ owner key = i) := by
  set server : ι → PeerState := fun i =>
    ((Daemon.init (address i) dataCenter hashFunc regionHash replicas regionReplicas).run lib
      (earlier i ++ [last i])).v1Server with hserver
  have hgives : ∀ i, GivesOut lib hashFunc replicas (Set.range address) (address i) (server i) := by
    intro i
    obtain ⟨cs, hsound⟩ := sound_run lib dataCenter hashFunc regionHash replicas regionReplicas
      ((earlier i).map (Daemon.marked (address i)))
    -- all clients of the earlier lists are marked rightly
    have hmarked : Marked (address i)
        ((PeerState.init dataCenter hashFunc regionHash replicas regionReplicas).run lib
          ((earlier i).map (Daemon.marked (address i)))) := by
      refine marked_run lib (fun c hc => ?_) _ (fun call hc => hmarks i call ?_)
      · cases hc
      · exact List.mem_append_left _ hc
    have hone := givesOut_setPeers hsound hmarked (hmarks i (last i) (by simp)) hr
      (Set.range_nonempty address) (fun b => ?_) (hdial i)
    · simp only [hserver, Daemon.run_eq, List.map_append, PeerState.run, List.foldl_append]
      exact hone
    · rw [run_dataCenter]
      exact (hlist i b).symm
  have hgets := fun i key => (hgives i).getPeer key
  have hfree' : ∀ b ∈ Set.range address, ∀ b' ∈ Set.range address, ∀ k < replicas,
      ∀ l < replicas, hashFunc (toString k ++ lib.md5hex b) =
        hashFunc (toString l ++ lib.md5hex b') → b = b' := by
    rintro - ⟨i, rfl⟩ - ⟨j, rfl⟩ k hk l hl hhash
    rw [hfree i j k hk l hl hhash]
  -- the table is read off the answers of one daemon
  obtain ⟨i₀⟩ := ‹Nonempty ι›
  choose info₀ hget₀ hrange₀ _ using hgets i₀
  choose owner howner using hrange₀
  refine ⟨owner, fun i key => ?_⟩
  obtain ⟨info, hget, -, hmark⟩ := hgets i key
  have haddress : info.grpcAddress = address (owner key) :=
    ((hgives i).address_eq (hgives i₀) hfree' hget (hget₀ key)).trans (howner key).symm
  refine ⟨info, hget, haddress, hmark.trans ?_⟩
  rw [haddress]
  exact ⟨fun h => hinj h, fun h => congrArg address h⟩

/-- Two daemons, and the entries of a list, unmarked. -/
def twoAddresses (i : Bool) : String := if i then "n-22" else "n1"

/-- An entry, as discovery gives it. -/
def entryAt (dataCenter address : String) : PeerInfo :=
  { dataCenter := dataCenter, grpcAddress := address, isOwner := false }

/-- A list whose peers can all be dialled. -/
def callOf (peerInfo : List PeerInfo) : SetPeersCall :=
  ⟨fun _ => true, ⟨fun _ l => l, fun _ l => List.Perm.refl l⟩, peerInfo⟩

/-- One daemon has known the other before; they are given the two in different orders, and one of
    them a peer of another data center besides. -/
theorem daemons_agree_on_owner_twoAddresses :
    ∃ owner : String → Bool, ∀ i key, ∃ info,
      ((Daemon.init (twoAddresses i) "a" lengthHash lengthHash 1 1).run ⟨.reference, id⟩
        ((if i then [callOf [entryAt "a" "n1"]] else []) ++
          [callOf (if i then [entryAt "a" "n-22", entryAt "a" "n1"]
            else [entryAt "a" "n1", entryAt "b" "n3", entryAt "a" "n-22"])])).v1Server.getPeer
          ⟨.reference, id⟩ key = .ok info ∧
      info.grpcAddress = twoAddresses (owner key) ∧ (info.isOwner = true ↔ owner key = i) := by
  refine daemons_agree_on_owner ⟨.reference, id⟩ "a" lengthHash lengthHash 1 1 le_rfl twoAddresses
    (by decide) ?_ (fun i => if i then [callOf [entryAt "a" "n1"]] else [])
    (fun i => callOf (if i then [entryAt "a" "n-22", entryAt "a" "n1"]
      else [entryAt "a" "n1", entryAt "b" "n3", entryAt "a" "n-22"])) ?_ ?_ (fun _ _ _ => rfl)
  · decide +kernel
  · -- no entry comes with a mark
    intro i call hcall e he
    have hplain : e.isOwner = false := by
      revert e call i
      simp [callOf, entryAt]
    rw [hplain]
    rintro ⟨⟩
  · intro i b
    cases i <;> simp [callOf, entryAt, twoAddresses, or_comm]

end Gubernator
