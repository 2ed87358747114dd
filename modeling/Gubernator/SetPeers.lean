/-
  A new list of peers (`gubernator.go`, `SetPeers`; `region_picker.go`).

  The instance keeps a picker for the peers of its own data center and one picker for each other
  data center.  `SetPeers` builds both anew from a list: a client already in the old picker under
  the entry's address is kept AS IT IS, for any other entry a client is made.  Then the pickers are
  swapped, and the old clients whose address the new picker does not know are shut down.

  The list is installed exactly (`Installs`) if and only if (`Installable`)

  * the clients that are kept still have the `Info` of an entry of the list,
  * no address of another data center was known in two of them, where the order in which Go ranges
    over a map decides which client is kept, and
  * no address that is new is repeated for one data center: both clients go on the ring, the map
    keeps the second, and nobody shuts down the first.
-/
import Gubernator.ReplicatedHash
import Gubernator.GetRateLimits

namespace Gubernator

open ReplicatedConsistentHash

/-! ## Clients and pickers -/

/-- A `*PeerClient`: which call of `NewPeerClient` made it, and its `Info()`. -/
structure Client where
  id : ℕ
  info : PeerInfo
  deriving DecidableEq, Repr

def Client.address (c : Client) : String := c.info.grpcAddress

/-- What the libraries do: Go's `sort`, the MD5 of an address in hexadecimal. -/
structure HashLib where
  sort : SortPackage
  md5hex : String → String

abbrev Picker := ReplicatedConsistentHash Client

namespace Picker

/-- `New()`: an empty picker of the same kind. -/
def renew (ch : Picker) : Picker := ReplicatedConsistentHash.new ch.hashFunc ch.replicas

/-- `Peers()` -/
def clients (ch : Picker) : List Client := ch.peers.map Prod.snd

def getByPeerInfo (ch : Picker) (info : PeerInfo) : Option Client :=
  ch.peers.lookup info.grpcAddress

def addPeer (lib : HashLib) (ch : Picker) (peer : Client) : Picker :=
  ch.add lib.sort lib.md5hex Client.address peer

end Picker

/-- `regions` is the map by data center, as a list of its entries; the embedded picker is only
    asked for new ones. -/
structure RegionPicker where
  hash : Picker
  regions : List (String × Picker)

/-- How Go ranges over a map of pickers: in any order, each time another. -/
structure MapRange where
  visit : ℕ → List (String × Picker) → List (String × Picker)
  perm : ∀ i l, (visit i l).Perm l

namespace RegionPicker

def renew (rp : RegionPicker) : RegionPicker where
  hash := rp.hash.renew
  regions := []

/-- The first client of the address that the range comes to. -/
def getByPeerInfo (visit : List (String × Picker) → List (String × Picker)) (rp : RegionPicker)
    (info : PeerInfo) : Option Client :=
  (visit rp.regions).findSome? (fun region => region.2.getByPeerInfo info)

def addPeer (lib : HashLib) (rp : RegionPicker) (peer : Client) : RegionPicker :=
  match rp.regions.lookup peer.info.dataCenter with
  | some picker =>
    { rp with regions := rp.regions.map (fun region =>
        if region.1 = peer.info.dataCenter then (region.1, picker.addPeer lib peer)
        else region) }
  | none =>
    { rp with regions :=
        (peer.info.dataCenter, rp.hash.renew.addPeer lib peer) :: rp.regions }

end RegionPicker

/-! ## `SetPeers` -/

/-- The instance's pickers, with every client made and every client passed to `Shutdown` so far. -/
structure PeerState where
  dataCenter : String
  localPicker : Picker
  regionPicker : RegionPicker
  created : List Client := []
  shutdown : List Client := []

/-- The pickers under construction. -/
structure NewPickers where
  localPicker : Picker
  regionPicker : RegionPicker
  created : List Client

/-- A client for an entry goes to the picker of the entry's data center. -/
def NewPickers.addFor (lib : HashLib) (dataCenter : String) (acc : NewPickers) (info : PeerInfo)
    (peer : Client) : NewPickers :=
  if info.dataCenter ≠ dataCenter then
    { acc with regionPicker := acc.regionPicker.addPeer lib peer }
  else { acc with localPicker := acc.localPicker.addPeer lib peer }

namespace PeerState

/-- The existing client for an entry, from the picker that entries of its data center go to. -/
def existing (s : PeerState) (visit : List (String × Picker) → List (String × Picker))
    (info : PeerInfo) : Option Client :=
  if info.dataCenter ≠ s.dataCenter then s.regionPicker.getByPeerInfo visit info
  else s.localPicker.getByPeerInfo info

/-- One entry of the list.  `dial` says which calls of `NewPeerClient` succeed; when one fails,
    only the clients made until then are left. -/
def addEntry (lib : HashLib) (dial : PeerInfo → Bool) (s : PeerState)
    (visit : List (String × Picker) → List (String × Picker)) (acc : NewPickers)
    (info : PeerInfo) : Except (List Client) NewPickers :=
  match s.existing visit info with
  | some peer => .ok (acc.addFor lib s.dataCenter info peer)
  | none =>
    if dial info then
      let peer : Client := ⟨acc.created.length, info⟩
      .ok ({ acc with created := acc.created ++ [peer] }.addFor lib s.dataCenter info peer)
    else .error acc.created

def addEntries (lib : HashLib) (dial : PeerInfo → Bool) (range : MapRange) (s : PeerState) :
    ℕ → List PeerInfo → NewPickers → Except (List Client) NewPickers
  | _, [], acc => .ok acc
  | i, info :: rest, acc =>
    match s.addEntry lib dial (range.visit i) acc info with
    | .error created => .error created
    | .ok acc' => addEntries lib dial range s (i + 1) rest acc'

/-- The old clients that the new pickers do not know by address. -/
def shutdownPeers (s : PeerState) (visit : List (String × Picker) → List (String × Picker))
    (new : NewPickers) : List Client :=
  s.localPicker.clients.filter (fun c => (new.localPicker.getByPeerInfo c.info).isNone) ++
  s.regionPicker.regions.flatMap (fun region => region.2.clients.filter
    (fun c => (new.regionPicker.getByPeerInfo visit c.info).isNone))

def setPeers (lib : HashLib) (dial : PeerInfo → Bool) (range : MapRange) (s : PeerState)
    (peerInfo : List PeerInfo) : PeerState :=
  match s.addEntries lib dial range 0 peerInfo
      ⟨s.localPicker.renew, s.regionPicker.renew, s.created⟩ with
  | .error created => { s with created := created }
  | .ok new =>
    { s with
      localPicker := new.localPicker
      regionPicker := new.regionPicker
      created := new.created
      shutdown := s.shutdown ++ s.shutdownPeers (range.visit peerInfo.length) new }

/-- An instance before its first list; each picker has its hash function and number of
    replicas. -/
def init (dataCenter : String) (hashFunc regionHash : String → UInt64)
    (replicas regionReplicas : ℕ) : PeerState where
  dataCenter := dataCenter
  localPicker := ReplicatedConsistentHash.new hashFunc replicas
  regionPicker := ⟨ReplicatedConsistentHash.new regionHash regionReplicas, []⟩

/-- The clients of the pickers. -/
def Installed (s : PeerState) (c : Client) : Prop :=
  c ∈ s.localPicker.clients ∨ ∃ region ∈ s.regionPicker.regions, c ∈ region.2.clients

end PeerState

/-- One call of `SetPeers`. -/
structure SetPeersCall where
  dial : PeerInfo → Bool
  range : MapRange
  peerInfo : List PeerInfo

/-- Any number of calls. -/
def PeerState.run (lib : HashLib) (s : PeerState) (calls : List SetPeersCall) : PeerState :=
  calls.foldl (fun s call => s.setPeers lib call.dial call.range call.peerInfo) s

/-! ## What is wanted, and when it holds -/

/-- **`s'` has exactly the list installed** that was given in `s`. -/
structure Installs (lib : HashLib) (s : PeerState) (peerInfo : List PeerInfo) (s' : PeerState) :
    Prop where
  /-- an installed client has the `Info` of an entry -/
  info : ∀ c, s'.Installed c → c.info ∈ peerInfo
  /-- every address of the list has a client -/
  all : ∀ e ∈ peerInfo, ∃ c, s'.Installed c ∧ c.address = e.grpcAddress
  /-- the ring gives out nobody else -/
  ring : ∀ key c, s'.localPicker.get lib.sort key = .ok c → c ∈ s'.localPicker.clients
  /-- every client is in the picker of its data center -/
  home : ∀ c ∈ s'.localPicker.clients, c.info.dataCenter = s.dataCenter
  region : ∀ r ∈ s'.regionPicker.regions, r.1 ≠ s.dataCenter ∧
    ∀ c ∈ r.2.clients, c.info.dataCenter = r.1
  /-- a client that is not installed any more, or never was, has been shut down -/
  closed : ∀ c, s.Installed c ∨ (c ∈ s'.created ∧ c ∉ s.created) → ¬ s'.Installed c →
    c ∈ s'.shutdown
  /-- and no other has -/
  running : ∀ c, s'.Installed c → c ∉ s'.shutdown

/-- A client that an entry of the list may be given, one that is kept. -/
def PeerState.Keeps (s : PeerState) (e : PeerInfo) (c : Client) : Prop :=
  if e.dataCenter ≠ s.dataCenter then
    ∃ region ∈ s.regionPicker.regions, (e.grpcAddress, c) ∈ region.2.peers
  else (e.grpcAddress, c) ∈ s.localPicker.peers

/-- **The lists that `SetPeers` installs exactly.** -/
structure Installable (s : PeerState) (peerInfo : List PeerInfo) : Prop where
  /-- a client that is kept has the `Info` of an entry -/
  kept : ∀ e ∈ peerInfo, ∀ c, s.Keeps e c → c.info ∈ peerInfo
  /-- and there is only one that can be -/
  one : ∀ e ∈ peerInfo, ∀ c c', s.Keeps e c → s.Keeps e c' → c = c'
  /-- an address is repeated for a data center only if its client is kept -/
  fresh : peerInfo.Pairwise (fun e e' => e.grpcAddress = e'.grpcAddress →
    e.dataCenter = e'.dataCenter → ∃ c, s.Keeps e c)

end Gubernator
