/-
  THE PICKERS OF SOME CLIENTS, added one after another.

  A place in the pickers is a data center and an address.  The maps hold, for each place, the last
  client that was added there (`lastAt`), in the picker of its data center; the rings hold them
  all.

  `SetPeers` builds its new pickers by adding one client after another to empty ones.  So what they
  hold is a function of the list of clients added, and this module computes it: `pickerOf` for one
  picker, `mem_regions` for the picker of every data center.  Adding a client whose address is
  already there REPLACES it in the map, which is why the last one counts; the ring keeps the points
  of both.
-/
import Gubernator.SetPeers

namespace Gubernator

open ReplicatedConsistentHash

/-! ## The last client at a place

`lastAt` is the specification the pickers are compared with: it says nothing of rings and maps. -/

/-- A place in the pickers: a data center and an address. -/
def Client.place (c : Client) : String × String := (c.info.dataCenter, c.address)

/-- Of clients added one after another, the last at a place. -/
def lastAt (cs : List Client) (x : String × String) : Option Client :=
  cs.reverse.find? (fun c => c.place == x)

section LastAt
variable {cs : List Client} {x : String × String} {c : Client}

/-- It is one of the clients, and at that place. -/
theorem lastAt_mem (h : lastAt cs x = some c) : c ∈ cs ∧ c.place = x := by
  have hmem := List.mem_of_find?_eq_some h
  have hplace := List.find?_some h
  exact ⟨List.mem_reverse.mp hmem, by simpa using hplace⟩

/-- Every place somebody was added at has a last client. -/
theorem lastAt_of_mem (hc : c ∈ cs) : ∃ c', lastAt cs c.place = some c' := by
  rw [← Option.isSome_iff_exists, lastAt, List.find?_isSome]
  exact ⟨c, List.mem_reverse.mpr hc, by simp⟩

/-- A client that shares its place with nobody is the last there. -/
theorem lastAt_of_unique (hc : c ∈ cs) (hunique : ∀ c' ∈ cs, c'.place = c.place → c' = c) :
    lastAt cs c.place = some c := by
  obtain ⟨c', hc'⟩ := lastAt_of_mem hc
  obtain ⟨hmem, hplace⟩ := lastAt_mem hc'
  rw [hc', hunique c' hmem hplace]

/-- Numbers that grow along the list: the last at a place has the greatest. -/
theorem lastAt_id {P : Client → Prop}
    (hids : cs.Pairwise (fun c c' => P c → P c' → c.id < c'.id)) (h : lastAt cs x = some c)
    (hc : P c) {c' : Client} (hmem : c' ∈ cs) (hplace : c'.place = x) (hc' : P c') :
    c'.id ≤ c.id := by
  obtain ⟨-, as, bs, hsplit, hnone⟩ := List.find?_eq_some_iff_append.mp h
  -- the list, split at the last client of the place: nobody after it is there
  have hcs : cs = bs.reverse ++ c :: as.reverse := by
    rw [← List.reverse_reverse cs, hsplit]
    simp
  rw [hcs] at hids hmem
  rcases List.mem_append.mp hmem with hbefore | hafter
  · exact (List.pairwise_append.mp hids).2.2 c' hbefore c List.mem_cons_self hc' hc |>.le
  · rcases List.mem_cons.mp hafter with rfl | hlate
    · exact le_rfl
    · have := hnone c' (List.mem_reverse.mp hlate)
      simp [hplace] at this

end LastAt

/-! ## The pickers built of some clients

A data center's picker is built of the clients of that data center alone, in the order in which they
come. -/

section Pickers
variable (lib : HashLib) (hashFunc : String → UInt64) (replicas : ℕ)

/-- The picker that results from adding the clients to an empty one. -/
def pickerOf (cs : List Client) : Picker :=
  ringOf lib.sort lib.md5hex Client.address hashFunc replicas cs

/-- One more client is one more `addPeer`. -/
theorem pickerOf_append (cs : List Client) (c : Client) :
    pickerOf lib hashFunc replicas (cs ++ [c]) =
      (pickerOf lib hashFunc replicas cs).addPeer lib c := ringOf_append _ _ _ _ _ _ _

variable {lib hashFunc replicas}

/-- Restricted to one data center, places are addresses. -/
theorem find_address (cs : List Client) (d a : String) :
    (cs.filter (fun c => c.info.dataCenter == d)).reverse.find? (fun c => c.address == a) =
      lastAt cs (d, a) := by
  rw [lastAt, ← List.filter_reverse, List.find?_filter]
  congr 1
  funext c
  rw [Bool.eq_iff_iff]
  simp [Client.place]

/-- The map of a data center's picker, by address. -/
theorem mem_peers_pickerOf {cs : List Client} {a d : String} {c : Client} :
    (a, c) ∈ (pickerOf lib hashFunc replicas
        (cs.filter (fun c => c.info.dataCenter == d))).peers ↔ lastAt cs (d, a) = some c := by
  rw [pickerOf, mem_peers_ringOf, find_address]

/-- A client is in its data center's picker exactly if nobody replaced it there. -/
theorem mem_clients_pickerOf {cs : List Client} {d : String} {c : Client} :
    c ∈ (pickerOf lib hashFunc replicas
        (cs.filter (fun c => c.info.dataCenter == d))).clients ↔
      c.info.dataCenter = d ∧ lastAt cs c.place = some c := by
  unfold Picker.clients
  constructor
  · intro h
    obtain ⟨⟨a, c'⟩, hmem, rfl⟩ := List.mem_map.mp h
    have hlast := mem_peers_pickerOf.mp hmem
    -- the map's key is the client's own address, so its place is the one it was looked up at
    have hplace := (lastAt_mem hlast).2
    refine ⟨(Prod.mk.inj hplace).1, ?_⟩
    rw [hplace]
    exact hlast
  · rintro ⟨rfl, hlast⟩
    exact List.mem_map.mpr ⟨(c.address, c), mem_peers_pickerOf.mpr hlast, rfl⟩

/-- A key with one value is looked up as that value. -/
theorem lookup_eq_some_of_mem {ps : List (String × Client)} {a : String} {c : Client}
    (hmem : (a, c) ∈ ps) (hunique : ∀ c', (a, c') ∈ ps → c' = c) : ps.lookup a = some c := by
  cases h : ps.lookup a with
  | none =>
    have := List.lookup_eq_none_iff.mp h _ hmem
    simp at this
  | some c' =>
    obtain ⟨l₁, l₂, hsplit, -⟩ := List.lookup_eq_some_iff.mp h
    rw [hunique c' (by rw [hsplit]; simp)]

/-- Looking a peer up in a data center's picker finds the last client at its address. -/
theorem getByPeerInfo_pickerOf {cs : List Client} {d : String} {info : PeerInfo} :
    (pickerOf lib hashFunc replicas
        (cs.filter (fun c => c.info.dataCenter == d))).getByPeerInfo info =
      lastAt cs (d, info.grpcAddress) := by
  unfold Picker.getByPeerInfo
  cases h : lastAt cs (d, info.grpcAddress) with
  | none =>
    rw [List.lookup_eq_none_iff]
    rintro ⟨a, c⟩ hmem
    by_contra hne
    have ha : info.grpcAddress = a := by simpa using hne
    subst ha
    rw [mem_peers_pickerOf, h] at hmem
    cases hmem
  | some c =>
    refine lookup_eq_some_of_mem (mem_peers_pickerOf.mpr h) ?_
    intro c' hc'
    rw [mem_peers_pickerOf, h] at hc'
    exact (Option.some.inj hc').symm

/-- The regions after some clients were added: one picker for each of their data centers. -/
theorem mem_regions {hash : Picker} (hhash : hash = ReplicatedConsistentHash.new hashFunc replicas)
    (cs : List Client) :
    (cs.foldl (RegionPicker.addPeer lib) ⟨hash, []⟩).hash = hash ∧
    ∀ d p, (d, p) ∈ (cs.foldl (RegionPicker.addPeer lib) ⟨hash, []⟩).regions ↔
      (∃ c ∈ cs, c.info.dataCenter = d) ∧
        p = pickerOf lib hashFunc replicas (cs.filter (fun c => c.info.dataCenter == d)) := by
  -- clients are added at the end, so the induction takes the last one off
  induction cs using List.reverseRecOn with
  | nil => simp
  | append_singleton cs c ih =>
    obtain ⟨ihhash, ih⟩ := ih
    rw [List.foldl_append, List.foldl_cons, List.foldl_nil]
    generalize cs.foldl (RegionPicker.addPeer lib) ⟨hash, []⟩ = rp at ih ihhash
    -- what the region of the new client becomes
    have hpicker : (pickerOf lib hashFunc replicas
          (cs.filter (fun x => x.info.dataCenter == c.info.dataCenter))).addPeer lib c =
        pickerOf lib hashFunc replicas
          ((cs ++ [c]).filter (fun x => x.info.dataCenter == c.info.dataCenter)) := by
      rw [List.filter_append, List.filter_singleton, beq_self_eq_true, cond_true, pickerOf_append]
    -- and the others stay as they are
    have hother : ∀ d, d ≠ c.info.dataCenter →
        (cs ++ [c]).filter (fun x => x.info.dataCenter == d) =
          cs.filter (fun x => x.info.dataCenter == d) := by
      intro d hd
      simp [List.filter_append, Ne.symm hd]
    unfold RegionPicker.addPeer
    split
    · rename_i picker hlookup
      -- the region exists: the client is added to its picker
      obtain ⟨l₁, l₂, hsplit, -⟩ := List.lookup_eq_some_iff.mp hlookup
      obtain ⟨hex, rfl⟩ := (ih c.info.dataCenter picker).mp (by rw [hsplit]; simp)
      refine ⟨ihhash, fun d p => ?_⟩
      rw [hpicker, List.mem_map]
      constructor
      · rintro ⟨⟨d', p'⟩, hmem, heq⟩
        dsimp only at heq
        split at heq
        · rename_i hd
          obtain ⟨rfl, rfl⟩ := Prod.mk.inj heq
          exact ⟨⟨c, by simp, hd.symm⟩, by rw [hd]⟩
        · rename_i hd
          obtain ⟨rfl, rfl⟩ := Prod.mk.inj heq
          obtain ⟨⟨c', hc', hdc⟩, hp⟩ := (ih d' p').mp hmem
          exact ⟨⟨c', by simp [hc'], hdc⟩, by rw [hother d' hd, hp]⟩
      · rintro ⟨⟨c', hc', hdc⟩, rfl⟩
        by_cases hd : d = c.info.dataCenter
        · subst hd
          exact ⟨_, (ih _ _).mpr ⟨hex, rfl⟩, if_pos rfl⟩
        · refine ⟨(d, pickerOf lib hashFunc replicas
            (cs.filter (fun x => x.info.dataCenter == d))), (ih _ _).mpr ⟨?_, rfl⟩, ?_⟩
          · rcases List.mem_append.mp hc' with hc' | hc'
            · exact ⟨c', hc', hdc⟩
            · rw [List.mem_singleton.mp hc'] at hdc
              exact absurd hdc.symm hd
          · rw [if_neg hd, hother d hd]
    · rename_i hlookup
      -- nobody of that data center so far
      have hnone : ∀ x ∈ cs, x.info.dataCenter ≠ c.info.dataCenter := by
        intro x hx hdc
        have := List.lookup_eq_none_iff.mp hlookup _
          ((ih c.info.dataCenter _).mpr ⟨⟨x, hx, hdc⟩, rfl⟩)
        simp at this
      have hempty : cs.filter (fun x => x.info.dataCenter == c.info.dataCenter) = [] := by
        rw [List.filter_eq_nil_iff]
        intro x hx
        simpa using hnone x hx
      -- the region is new: it starts from an empty picker of the same hash
      have hfirst : rp.hash.renew.addPeer lib c = pickerOf lib hashFunc replicas
          ((cs ++ [c]).filter (fun x => x.info.dataCenter == c.info.dataCenter)) := by
        rw [← hpicker, hempty, ihhash, hhash]
        rfl
      refine ⟨ihhash, fun d p => ?_⟩
      rw [hfirst, List.mem_cons, ih, Prod.mk.injEq]
      constructor
      · rintro (⟨rfl, rfl⟩ | ⟨⟨c', hc', rfl⟩, rfl⟩)
        · exact ⟨⟨c, by simp, rfl⟩, rfl⟩
        · exact ⟨⟨c', by simp [hc'], rfl⟩, by rw [hother _ (hnone c' hc')]⟩
      · rintro ⟨⟨c', hc', hdc⟩, rfl⟩
        by_cases hd : d = c.info.dataCenter
        · exact .inl ⟨hd, by rw [hd]⟩
        · refine .inr ⟨?_, by rw [hother d hd]⟩
          rcases List.mem_append.mp hc' with hc' | hc'
          · exact ⟨c', hc', hdc⟩
          · rw [List.mem_singleton.mp hc'] at hdc
            exact absurd hdc.symm hd

end Pickers

end Gubernator
