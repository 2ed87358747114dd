/-
  WHICH LISTS ARE INSTALLED.

  If the list is installable no two clients meet at a place, so all clients given to its entries
  are installed and every old client that was not kept is unknown by its address.  Conversely each
  of the three conditions has a call that breaks it: a range over the regions that comes to the
  wrong client first, or the first of two clients made for one place.

  `SetPeers` looks every entry of its list up in the OLD pickers, keeps the client it finds there
  and makes one otherwise; then it shuts down the old clients whose address the NEW pickers do not
  know.  Both lookups go by address alone: the first finds a client with an outdated `Info`, the
  second mistakes one client for another with its address.  Lookups in other data centers range over
  a Go map and take the first that answers, so which one they find depends on the order of the
  range.
-/
import Gubernator.SetPeers.Sound

namespace Gubernator

open ReplicatedConsistentHash

section Sound
variable {lib : HashLib} {hashFunc regionHash : String → UInt64} {replicas regionReplicas : ℕ}
  {s : PeerState} {cs : List Client} {placed : List (PeerInfo × Client)} {created : List Client}

/-! ## Installable lists are installed

Every entry has been given a client; `placed` pairs them up.  The argument is that the clients given
out stand at different places, so that each of them is the last at its place. -/

/-- Whoever the ring gives out was added to it. -/
theorem get_mem_pickerOf {ls : List Client} {key : String} {c : Client}
    (h : (pickerOf lib hashFunc replicas ls).get lib.sort key = .ok c) : c ∈ ls := by
  have hring := isRing_ringOf lib.sort lib.md5hex Client.address hashFunc replicas ls
  unfold ReplicatedConsistentHash.get at h
  split at h
  · cases h
  · dsimp only at h
    split at h
    · rename_i p hp
      obtain rfl := Except.ok.inj h
      have hmem : p ∈ (ringOf lib.sort lib.md5hex Client.address hashFunc replicas ls).peerKeys :=
        List.mem_of_getElem? hp
      -- the points of the ring are those of the clients added, and no others
      exact (mem_allPoints.mp (hring.points_perm.mem_iff.mp hmem)).1
    · cases h

/-- In an installable list no two clients meet at one place. -/
theorem Installable.unique_place {peerInfo : List PeerInfo} (hlist : Installable s peerInfo)
    (h : Sound lib hashFunc regionHash replicas regionReplicas s cs)
    (hp : PlacedFacts s s.created placed created) (hmap : placed.map Prod.fst = peerInfo)
    {c c' : Client} (hc : c ∈ placed.map Prod.snd) (hc' : c' ∈ placed.map Prod.snd)
    (hplace : c'.place = c.place) : c' = c := by
  obtain ⟨x, hx, rfl⟩ := List.mem_map.mp hc
  obtain ⟨y, hy, rfl⟩ := List.mem_map.mp hc'
  -- a kept client would have been kept for the entry that another was made for
  have hcross : ∀ x ∈ placed, ∀ y ∈ placed, x.2.place = y.2.place → s.Keeps x.1 x.2 →
      (∀ c, ¬ s.Keeps y.1 c) → y.2.info = y.1 → False := by
    intro x _ y _ hplace hkeeps hno hinfo
    obtain ⟨hd, ha⟩ := Prod.mk.inj hplace
    refine hno x.2 (h.keeps_iff.mpr ⟨(h.keeps_iff.mp hkeeps).1, ?_, ?_⟩)
    · rw [ha, Client.address, hinfo]
    · rw [hd, hinfo]
  -- nor are two made for one place: the list would repeat an address that nobody is kept for
  have hmade : ∀ x ∈ placed, ∀ y ∈ placed, (∀ c, ¬ s.Keeps x.1 c) → (∀ c, ¬ s.Keeps y.1 c) →
      x.1.grpcAddress = y.1.grpcAddress → x.1.dataCenter = y.1.dataCenter → x = y := by
    have hfresh := hlist.fresh
    rw [← hmap, List.pairwise_map] at hfresh
    let R : PeerInfo × Client → PeerInfo × Client → Prop := fun x y =>
      (∀ c, ¬ s.Keeps x.1 c) → (∀ c, ¬ s.Keeps y.1 c) →
        x.1.grpcAddress = y.1.grpcAddress → x.1.dataCenter = y.1.dataCenter → x = y
    have hlater : placed.Pairwise R := hfresh.imp (fun {x y} hxy hx _ ha hd => by
      obtain ⟨c, hc⟩ := hxy ha hd
      exact absurd hc (hx c))
    have hearlier : placed.Pairwise (flip R) := hfresh.imp (fun {x y} hxy _ hx ha hd => by
      obtain ⟨c, hc⟩ := hxy ha.symm hd.symm
      exact absurd hc (hx c))
    exact fun x hx y hy =>
      List.Pairwise.forall_of_forall_of_flip (fun _ _ _ _ _ _ => rfl) hlater hearlier hx hy
  -- each of the two is kept or made
  rcases hp.origin x hx with hxkept | ⟨hxno, hxinfo, -⟩ <;>
    rcases hp.origin y hy with hykept | ⟨hyno, hyinfo, -⟩
  · exact h.unique (h.keeps_iff.mp hykept).1 (h.keeps_iff.mp hxkept).1 hplace
  · exact (hcross x hx y hy hplace.symm hxkept hyno hyinfo).elim
  · exact (hcross y hy x hx hplace hykept hxno hxinfo).elim
  · obtain ⟨hd, ha⟩ := Prod.mk.inj hplace
    rw [Client.address, Client.address, hxinfo, hyinfo] at ha
    rw [hxinfo, hyinfo] at hd
    rw [hmade x hx y hy hxno hyno ha.symm hd.symm]

/-- A client that was installed and is given to no entry is shut down: the new pickers have nobody
    of its address on its side. -/
theorem Installable.gone_shutdown {peerInfo : List PeerInfo} (hlist : Installable s peerInfo)
    (h : Sound lib hashFunc regionHash replicas regionReplicas s cs)
    (hp : PlacedFacts s s.created placed created) (hmap : placed.map Prod.fst = peerInfo)
    (range : MapRange) (i : ℕ) {c : Client} (hbefore : s.Installed c)
    (hgone : c ∉ placed.map Prod.snd) :
    c ∈ (s.after lib (range.visit i) placed created).shutdown := by
  have hsound := h.after hp range i
  -- an entry of the client's address would have been given the client itself
  have hother : ∀ x ∈ placed, x.2.address = c.address →
      ¬ (x.2.info.dataCenter = s.dataCenter ↔ c.info.dataCenter = s.dataCenter) := by
    intro x hx ha hside
    have hplace := hp.place_eq h hx
    have hkeeps : s.Keeps x.1 c :=
      h.keeps_iff.mpr ⟨hbefore, ha.symm.trans hplace.1, hside.symm.trans hplace.2⟩
    rcases hp.origin x hx with hxkept | ⟨hno, -⟩
    · have := hlist.one _ (hmap ▸ List.mem_map_of_mem hx) _ _ hxkept hkeeps
      exact hgone (this ▸ List.mem_map_of_mem hx)
    · exact hno c hkeeps
  refine List.mem_append_right _ (mem_shutdownPeers.mpr ?_)
  have hlast := h.installed_iff.mp hbefore
  by_cases hhome : c.info.dataCenter = s.dataCenter
  · refine .inl ⟨h.mem_local.mpr ⟨hhome, hlast⟩, ?_⟩
    show (s.after lib (range.visit i) placed created).localPicker.getByPeerInfo c.info = none
    rw [after_localPicker h hp, getByPeerInfo_pickerOf, Option.eq_none_iff_forall_ne_some]
    intro c' hc'
    obtain ⟨hmem, hplace⟩ := lastAt_mem hc'
    obtain ⟨x, hx, rfl⟩ := List.mem_map.mp hmem
    obtain ⟨hd, ha⟩ := Prod.mk.inj hplace
    exact hother x hx ha ⟨fun _ => hhome, fun _ => hd⟩
  · -- a client of another data center is asked for in all regions, and no region has it
    obtain ⟨region, hregion, -, hc⟩ := h.region_of hlast hhome
    refine .inr ⟨⟨region, hregion, hc⟩, ?_⟩
    rw [RegionPicker.getByPeerInfo, List.findSome?_eq_none_iff]
    rintro ⟨d, p⟩ hr
    obtain ⟨hd, -, rfl⟩ := (hsound.regions d p).mp ((range.perm i _).mem_iff.mp hr)
    rw [getByPeerInfo_pickerOf, Option.eq_none_iff_forall_ne_some]
    intro c' hc'
    obtain ⟨hmem, hplace⟩ := lastAt_mem hc'
    obtain ⟨x, hx, rfl⟩ := List.mem_map.mp hmem
    obtain ⟨hd', ha⟩ := Prod.mk.inj hplace
    exact hother x hx ha ⟨fun hh => absurd (hd'.symm.trans hh) hd, fun hh => absurd hh hhome⟩

/-- **An installable list is installed**, by whatever order of the map. -/
theorem Installable.installs {peerInfo : List PeerInfo} (hlist : Installable s peerInfo)
    (h : Sound lib hashFunc regionHash replicas regionReplicas s cs)
    (hp : PlacedFacts s s.created placed created) (hmap : placed.map Prod.fst = peerInfo)
    (range : MapRange) (i : ℕ) :
    Installs lib s peerInfo (s.after lib (range.visit i) placed created) := by
  have hsound := h.after hp range i
  -- all that are given out are installed, none having been replaced
  have hinstalled : ∀ c, (s.after lib (range.visit i) placed created).Installed c ↔
      c ∈ placed.map Prod.snd := fun c => hsound.installed_iff.trans
    ⟨fun hlast => (lastAt_mem hlast).1, fun hc => lastAt_of_unique hc
      (fun c' hc' hplace => hlist.unique_place h hp hmap hc hc' hplace)⟩
  have hentry : ∀ x ∈ placed, x.1 ∈ peerInfo := fun x hx => hmap ▸ List.mem_map_of_mem hx
  -- `Installs`, field by field
  refine ⟨?_, ?_, ?_, ?_, ?_, ?_, hsound.running⟩
  · intro c hc
    obtain ⟨x, hx, rfl⟩ := List.mem_map.mp ((hinstalled c).mp hc)
    rcases hp.origin x hx with hkeeps | ⟨-, hinfo, -⟩
    · exact hlist.kept _ (hentry x hx) _ hkeeps
    · rw [hinfo]
      exact hentry x hx
  · intro e he
    rw [← hmap] at he
    obtain ⟨x, hx, rfl⟩ := List.mem_map.mp he
    exact ⟨x.2, (hinstalled _).mpr (List.mem_map_of_mem hx), (hp.place_eq h hx).1⟩
  · intro key c hget
    rw [after_localPicker h hp] at hget
    obtain ⟨hc, hhome⟩ := List.mem_filter.mp (get_mem_pickerOf hget)
    exact hsound.mem_local.mpr
      ⟨beq_iff_eq.mp hhome, hsound.installed_iff.mp ((hinstalled c).mpr hc)⟩
  · intro c hc
    exact (hsound.mem_local.mp hc).1
  · rintro ⟨d, p⟩ hregion
    exact ⟨((hsound.regions d p).mp hregion).1, fun c hc => ((hsound.mem_region hregion).mp hc).1⟩
  · intro c hbefore hgone
    rw [hinstalled] at hgone
    rcases hbefore with hbefore | ⟨hcreated, hnew⟩
    · exact hlist.gone_shutdown h hp hmap range i hbefore hgone
    · rcases hp.new c hcreated with hold | ⟨x, hx, rfl⟩
      · exact absurd hold hnew
      · exact absurd (List.mem_map_of_mem hx) hgone

/-! ## Only installable lists are

`MapRange.front d` is the range that comes to the data center `d` first.  With it, the lookup of an
entry can be made to find any of the clients it could keep. -/

/-- A range that comes to one data center first. -/
def MapRange.front (d : String) : MapRange where
  visit _ l := l.filter (fun region => region.1 == d) ++ l.filter (fun region => !(region.1 == d))
  perm _ l := List.filter_append_perm _ l

/-- An entry that can keep a client finds it, if the range comes to its data center first. -/
theorem Sound.existing_front (h : Sound lib hashFunc regionHash replicas regionReplicas s cs)
    {e : PeerInfo} {c : Client} (hkeeps : s.Keeps e c) (i : ℕ) :
    s.existing ((MapRange.front c.info.dataCenter).visit i) e = some c := by
  obtain ⟨hinstalled, ha, hside⟩ := h.keeps_iff.mp hkeeps
  have hlast := h.installed_iff.mp hinstalled
  unfold PeerState.existing
  split
  · rename_i haway
    have haway : c.info.dataCenter ≠ s.dataCenter := fun hh => haway (hside.mp hh)
    obtain ⟨region, hregion, hd, -⟩ := h.region_of hlast haway
    -- the first region asked is the client's, and answers with it
    have hfirst : ∀ r ∈ s.regionPicker.regions.filter
        (fun region => region.1 == c.info.dataCenter), r.2.getByPeerInfo e = some c := by
      rintro ⟨d, p⟩ hmem
      obtain ⟨hr, hbeq⟩ := List.mem_filter.mp hmem
      have hd : d = c.info.dataCenter := beq_iff_eq.mp hbeq
      obtain ⟨-, -, rfl⟩ := (h.regions d p).mp hr
      rw [getByPeerInfo_pickerOf, ← ha]
      subst hd
      exact hlast
    show ((s.regionPicker.regions.filter
      (fun region => region.1 == c.info.dataCenter)) ++ _).findSome?
      (fun region => region.2.getByPeerInfo e) = some c
    cases hl : s.regionPicker.regions.filter (fun region => region.1 == c.info.dataCenter) with
    | nil =>
      have hmem : region ∈ s.regionPicker.regions.filter
          (fun region => region.1 == c.info.dataCenter) :=
        List.mem_filter.mpr ⟨hregion, by simpa using hd⟩
      rw [hl] at hmem
      cases hmem
    | cons r rest =>
      have hr := hfirst r (by rw [hl]; exact List.mem_cons_self)
      rw [List.cons_append, List.findSome?_cons, hr]
  · rename_i hhome
    have hhome := not_not.mp hhome
    rw [h.localPicker, getByPeerInfo_pickerOf, ← ha, ← hside.mpr hhome]
    exact hlast

/-- Every entry was given what its lookup found, or its lookup found nobody. -/
theorem Placed.existing {range : MapRange} {i : ℕ} {created created' : List Client}
    {placed : List (PeerInfo × Client)} (h : Placed s range i created placed created') :
    ∀ x ∈ placed, ∃ j, s.existing (range.visit j) x.1 = some x.2 ∨
      s.existing (range.visit j) x.1 = none := by
  induction h with
  | nil => simp
  | kept hfound _ ih =>
    intro x hx
    rcases List.mem_cons.mp hx with rfl | hx
    · exact ⟨_, .inl hfound⟩
    · exact ih x hx
  | made hfound _ ih =>
    intro x hx
    rcases List.mem_cons.mp hx with rfl | hx
    · exact ⟨_, .inr hfound⟩
    · exact ih x hx

/-- With that range every entry that can keep the client does. -/
theorem Sound.front_keeps (h : Sound lib hashFunc regionHash replicas regionReplicas s cs)
    {c : Client} {i : ℕ}
    (hplaced : Placed s (MapRange.front c.info.dataCenter) i s.created placed created)
    {x : PeerInfo × Client} (hx : x ∈ placed) (hkeeps : s.Keeps x.1 c) : x.2 = c := by
  obtain ⟨j, hj⟩ := hplaced.existing x hx
  rw [h.existing_front hkeeps j] at hj
  rcases hj with hj | hj
  · exact (Option.some.inj hj).symm
  · cases hj

/-- The client is then installed. -/
theorem Sound.front_installed (h : Sound lib hashFunc regionHash replicas regionReplicas s cs)
    {c : Client} {i j : ℕ}
    (hplaced : Placed s (MapRange.front c.info.dataCenter) i s.created placed created)
    {x : PeerInfo × Client} (hx : x ∈ placed) (hkeeps : s.Keeps x.1 c) :
    (s.after lib ((MapRange.front c.info.dataCenter).visit j) placed created).Installed c := by
  have hp := hplaced.facts
  have hc : c ∈ placed.map Prod.snd :=
    h.front_keeps hplaced hx hkeeps ▸ List.mem_map_of_mem hx
  refine (h.after hp _ j).installed_iff.mpr (lastAt_of_unique hc ?_)
  -- whoever comes later to the place is the same client, kept once more
  intro c' hc' hplace
  obtain ⟨y, hy, rfl⟩ := List.mem_map.mp hc'
  obtain ⟨hd, ha⟩ := Prod.mk.inj hplace
  obtain ⟨hya, hyside⟩ := hp.place_eq h hy
  refine h.front_keeps hplaced hy (h.keeps_iff.mpr ⟨(h.keeps_iff.mp hkeeps).1, ?_, ?_⟩)
  · exact ha.symm.trans hya
  · rw [← hd]
    exact hyside

/-- Of two clients an entry could keep, the other one is dropped, and not shut down, because its
    address is known. -/
theorem Sound.front_drops (h : Sound lib hashFunc regionHash replicas regionReplicas s cs)
    {c c' : Client} {i j : ℕ}
    (hplaced : Placed s (MapRange.front c.info.dataCenter) i s.created placed created)
    {x : PeerInfo × Client} (hx : x ∈ placed) (hkeeps : s.Keeps x.1 c) (hkeeps' : s.Keeps x.1 c')
    (hne : c ≠ c') :
    ¬ (s.after lib ((MapRange.front c.info.dataCenter).visit j) placed created).Installed c' ∧
    c' ∉ (s.after lib ((MapRange.front c.info.dataCenter).visit j) placed created).shutdown := by
  have hp := hplaced.facts
  obtain ⟨hinstalled, ha, hside⟩ := h.keeps_iff.mp hkeeps
  obtain ⟨hinstalled', ha', hside'⟩ := h.keeps_iff.mp hkeeps'
  constructor
  · -- installed it would have been given to an entry that finds the other
    intro hc'
    obtain ⟨y, hy, rfl⟩ :=
      List.mem_map.mp (lastAt_mem ((h.after hp _ j).installed_iff.mp hc')).1
    obtain ⟨hya, hyside⟩ := hp.place_eq h hy
    refine hne (h.front_keeps hplaced hy (h.keeps_iff.mpr ⟨hinstalled, ?_, ?_⟩)).symm
    · rw [ha, ← ha', hya]
    · exact hside.trans (hside'.symm.trans hyside)
  intro hshut
  rcases List.mem_append.mp hshut with hold | hnew
  · exact h.running c' hinstalled' hold
  -- the client that was kept has the address
  have hc := h.front_keeps hplaced hx hkeeps
  have hknown := after_known h hp (.front c.info.dataCenter) j (List.mem_map_of_mem hx)
  rw [hc] at hknown
  -- the pickers go by address, and the two clients share one
  have hinfo : ∀ ch : Picker, ch.getByPeerInfo c.info = ch.getByPeerInfo c'.info := by
    intro ch
    have haddress : c.info.grpcAddress = c'.info.grpcAddress := ha.trans ha'.symm
    rw [Picker.getByPeerInfo, Picker.getByPeerInfo, haddress]
  rcases mem_shutdownPeers.mp hnew with ⟨hc', hnone⟩ | ⟨⟨⟨d, p⟩, hregion, hc'⟩, hnone⟩
  · have hsome := hknown.1 (hside.mpr (hside'.mp (h.mem_local.mp hc').1))
    rw [hinfo, Option.isSome_iff_ne_none] at hsome
    exact hsome hnone
  · have haway' : c'.info.dataCenter ≠ s.dataCenter := by
      rw [((h.mem_region hregion).mp hc').1]
      exact ((h.regions d p).mp hregion).1
    have hsome := hknown.2 (fun hhome => haway' (hside'.mpr (hside.mp hhome)))
    rw [RegionPicker.getByPeerInfo] at hsome
    simp only [hinfo] at hsome
    rw [Option.isSome_iff_ne_none] at hsome
    exact hsome hnone

/-- An address made twice for a data center leaves a client that nobody shuts down. -/
theorem repeated_leaks (h : Sound lib hashFunc regionHash replicas regionReplicas s cs)
    (hp : PlacedFacts s s.created placed created) (range : MapRange) (i : ℕ)
    {x y : PeerInfo × Client} (hx : x ∈ placed) (hy : y ∈ placed) (hlt : x.2.id < y.2.id)
    (hxno : ∀ c, ¬ s.Keeps x.1 c) (hyno : ∀ c, ¬ s.Keeps y.1 c)
    (ha : x.1.grpcAddress = y.1.grpcAddress) (hd : x.1.dataCenter = y.1.dataCenter) :
    (x.2 ∈ created ∧ x.2 ∉ s.created) ∧
    ¬ (s.after lib (range.visit i) placed created).Installed x.2 ∧
    x.2 ∉ (s.after lib (range.visit i) placed created).shutdown := by
  -- a client made for an entry has its `Info` and a number that is new
  have hmade : ∀ z ∈ placed, (∀ c, ¬ s.Keeps z.1 c) →
      z.2.info = z.1 ∧ z.2 ∈ created ∧ s.created.length ≤ z.2.id := by
    intro z hz hno
    rcases hp.origin z hz with hkeeps | hmade
    · exact absurd hkeeps (hno _)
    · exact hmade.2
  obtain ⟨hxinfo, hxcreated, hxid⟩ := hmade x hx hxno
  obtain ⟨hyinfo, -, -⟩ := hmade y hy hyno
  have hxnew : x.2 ∉ s.created := fun hold => by
    have := h.ids _ hold
    omega
  refine ⟨⟨hxcreated, hxnew⟩, ?_, ?_⟩
  · intro hinstalled
    have hlast := (h.after hp range i).installed_iff.mp hinstalled
    -- clients made in one call are numbered in the order of the list
    have hids : (placed.map Prod.snd).Pairwise (fun c c' =>
        s.created.length ≤ c.id → s.created.length ≤ c'.id → c.id < c'.id) := by
      rw [List.pairwise_map]
      refine hp.order.imp_of_mem (fun {z w} hz hw hzw hzid hwid => hzw ?_ ?_)
      · intro c hkeeps
        rcases hp.origin z hz with hz' | hz'
        · have := h.ids _ (h.made _ (lastAt_mem (h.installed_iff.mp (h.keeps_iff.mp hz').1)).1)
          omega
        · exact hz'.1 c hkeeps
      · intro c hkeeps
        rcases hp.origin w hw with hw' | hw'
        · have := h.ids _ (h.made _ (lastAt_mem (h.installed_iff.mp (h.keeps_iff.mp hw').1)).1)
          omega
        · exact hw'.1 c hkeeps
    have hplace : y.2.place = x.2.place := by
      rw [Client.place, Client.place, Client.address, Client.address, hxinfo, hyinfo, ha, hd]
    have := lastAt_id hids hlast hxid (List.mem_map_of_mem hy) hplace (by omega)
    omega
  · intro hshut
    rcases List.mem_append.mp hshut with hold | hnew
    · exact hxnew (h.shut _ hold)
    · exact (h.not_shut hp range i hnew).2 (List.mem_map_of_mem hx)

end Sound

/-- **`SetPeers` installs exactly the list it is given, if and only if the list is installable.**
    For an instance that has been given any lists before, whatever order Go ranges over its maps in,
    and a call in which no client fails to be made. -/
theorem setPeers_installs_iff (lib : HashLib) (d : String) (hashFunc regionHash : String → UInt64)
    (replicas regionReplicas : ℕ) (calls : List SetPeersCall) {s : PeerState}
    (hs : s = (PeerState.init d hashFunc regionHash replicas regionReplicas).run lib calls)
    (peerInfo : List PeerInfo) (dial : PeerInfo → Bool)
    (hdial : ∀ e ∈ peerInfo, (∀ c, ¬ s.Keeps e c) → dial e = true) :
    (∀ range, Installs lib s peerInfo (s.setPeers lib dial range peerInfo)) ↔
      Installable s peerInfo := by
  obtain ⟨cs, h⟩ := sound_run lib d hashFunc regionHash replicas regionReplicas calls
  rw [← hs] at h
  -- no client fails to be made, so the call runs to its end
  have hmade : ∀ range, ∃ placed created, placed.map Prod.fst = peerInfo ∧
      PlacedFacts s s.created placed created ∧ Placed s range 0 s.created placed created ∧
      s.setPeers lib dial range peerInfo =
        s.after lib (range.visit peerInfo.length) placed created := by
    intro range
    rcases setPeers_cases lib dial range s peerInfo with hok | ⟨_, _, -, -, e, he, hno, hkeeps⟩
    · exact hok
    · rw [hdial e he hkeeps] at hno
      cases hno
  constructor
  · intro hall
    constructor
    · -- an outdated `Info`: let the range come to that client first
      intro e he c hkeeps
      obtain ⟨placed, created, hmap, hp, hplaced, hrun⟩ := hmade (.front c.info.dataCenter)
      rw [← hmap] at he
      obtain ⟨x, hx, rfl⟩ := List.mem_map.mp he
      have hinstalls := hall (.front c.info.dataCenter)
      rw [hrun] at hinstalls
      exact hinstalls.info c (h.front_installed hplaced hx hkeeps)
    · -- two clients to keep: the one that comes second is lost, but not shut down
      intro e he c c' hkeeps hkeeps'
      obtain ⟨placed, created, hmap, hp, hplaced, hrun⟩ := hmade (.front c.info.dataCenter)
      rw [← hmap] at he
      obtain ⟨x, hx, rfl⟩ := List.mem_map.mp he
      have hinstalls := hall (.front c.info.dataCenter)
      rw [hrun] at hinstalls
      by_contra hne
      obtain ⟨hgone, hopen⟩ := h.front_drops hplaced hx hkeeps hkeeps' hne
      exact hopen (hinstalls.closed c' (.inl (h.keeps_iff.mp hkeeps').1) hgone)
    · obtain ⟨placed, created, hmap, hp, hplaced, hrun⟩ := hmade (.front d)
      have hinstalls := hall (.front d)
      rw [hrun] at hinstalls
      rw [← hmap, List.pairwise_map]
      -- an address made twice: the first of the two is lost
      refine hp.order.imp_of_mem (fun {x y} hx hy hxy ha hd => ?_)
      by_contra hno
      have hxno : ∀ c, ¬ s.Keeps x.1 c := fun c hc => hno ⟨c, hc⟩
      have hyno : ∀ c, ¬ s.Keeps y.1 c := by
        intro c hc
        obtain ⟨hinstalled, hca, hside⟩ := h.keeps_iff.mp hc
        refine hxno c (h.keeps_iff.mpr ⟨hinstalled, hca.trans ha.symm, ?_⟩)
        rw [hd]
        exact hside
      obtain ⟨hnew, hgone, hopen⟩ := repeated_leaks h hp (.front d) peerInfo.length hx hy
        (hxy hxno hyno) hxno hyno ha hd
      exact hopen (hinstalls.closed _ (.inr hnew) hgone)
  · intro hlist range
    obtain ⟨placed, created, hmap, hp, -, hrun⟩ := hmade range
    rw [hrun]
    exact hlist.installs h hp hmap range _

/-! ## Lists given one after another

The condition is decided by looking through the old pickers: `known` are the clients that an entry
may be given. -/

/-- The clients that the old pickers have under the address of an entry. -/
def PeerState.known (s : PeerState) (e : PeerInfo) : List Client :=
  ((if e.dataCenter ≠ s.dataCenter then
    s.regionPicker.regions.flatMap (fun region => region.2.peers)
    else s.localPicker.peers).filter (fun peer => peer.1 = e.grpcAddress)).map Prod.snd

/-- They are the clients the entry could keep. -/
theorem mem_known {s : PeerState} {e : PeerInfo} {c : Client} : c ∈ s.known e ↔ s.Keeps e c := by
  unfold PeerState.known PeerState.Keeps
  split <;> simp

/-- The condition, in terms of finite lists. -/
theorem installable_iff {s : PeerState} {peerInfo : List PeerInfo} :
    Installable s peerInfo ↔
      (∀ e ∈ peerInfo, ∀ c ∈ s.known e, c.info ∈ peerInfo) ∧
      (∀ e ∈ peerInfo, ∀ c ∈ s.known e, ∀ c' ∈ s.known e, c = c') ∧
      peerInfo.Pairwise (fun e e' => e.grpcAddress = e'.grpcAddress →
        e.dataCenter = e'.dataCenter → s.known e ≠ []) := by
  -- there is a client to keep iff the list of the known ones is not empty
  have hsome : ∀ e, s.known e ≠ [] ↔ ∃ c, s.Keeps e c := by
    intro e
    simp only [← mem_known]
    refine ⟨List.exists_mem_of_ne_nil _, ?_⟩
    rintro ⟨c, hc⟩
    exact List.ne_nil_of_mem hc
  simp only [mem_known, hsome]
  constructor
  · intro h
    exact ⟨h.kept, fun e he c hc c' hc' => h.one e he c c' hc hc', h.fresh⟩
  · rintro ⟨hkept, hone, hfresh⟩
    exact ⟨hkept, fun e he c c' hc hc' => hone e he c hc c' hc', hfresh⟩

instance (s : PeerState) (peerInfo : List PeerInfo) : Decidable (Installable s peerInfo) :=
  decidable_of_iff _ installable_iff.symm

/-- The sort is the reference one, and the digest of an address is the address. -/
def plainLib : HashLib := ⟨.reference, id⟩

/-- An instance of the data center "a", with one point for each peer on its rings. -/
def newInstance : PeerState := .init "a" lengthHash lengthHash 1 1

/-- An instance, given lists one after another. -/
def givenLists (lists : List (List PeerInfo)) : PeerState :=
  newInstance.run plainLib (lists.map (fun l => ⟨fun _ => true, .front "a", l⟩))

/-- A peer, by its address and its data center. -/
def peerIn (address dataCenter : String) : PeerInfo :=
  { dataCenter := dataCenter, grpcAddress := address, isOwner := false }

/-- Two peers of the own data center, one of "b" and one of "c". -/
def earlierList : List PeerInfo :=
  [peerIn "a1" "a", peerIn "a22" "a", peerIn "b333" "b", peerIn "c4444" "c"]

/-- One of the own peers and the one of "b" stay, the other two are gone; each of the two data
    centers has a new peer, and the one that stays at home is named twice. -/
def laterList : List PeerInfo :=
  [peerIn "a1" "a", peerIn "b333" "b", peerIn "a55555" "a", peerIn "b666666" "b", peerIn "a1" "a"]

/-- **A second list.**  Clients are kept in both pickers, made in both, and the two that are not
    named any more are shut down. -/
theorem setPeers_installs_later :
    Installs plainLib (givenLists [earlierList]) laterList
        ((givenLists [earlierList]).setPeers plainLib (fun _ => true) (.front "a") laterList) ∧
      (givenLists [earlierList, laterList]).localPicker.clients =
        [⟨0, peerIn "a1" "a"⟩, ⟨4, peerIn "a55555" "a"⟩] ∧
      (givenLists [earlierList, laterList]).regionPicker.regions.map
        (fun region => (region.1, region.2.clients)) =
          [("b", [⟨5, peerIn "b666666" "b"⟩, ⟨2, peerIn "b333" "b"⟩])] ∧
      (givenLists [earlierList, laterList]).shutdown =
        [⟨1, peerIn "a22" "a"⟩, ⟨3, peerIn "c4444" "c"⟩] :=
  ⟨(setPeers_installs_iff plainLib "a" lengthHash lengthHash 1 1
      [⟨fun _ => true, .front "a", earlierList⟩] rfl laterList (fun _ => true)
      (fun _ _ _ => rfl)).mpr (by decide +kernel) (.front "a"),
    by decide +kernel, by decide +kernel, by decide +kernel⟩

/-- A peer of one address, by its data center and whether it is this instance. -/
def peerAt (dataCenter : String) (isOwner : Bool) : PeerInfo :=
  { dataCenter := dataCenter, grpcAddress := "n1", isOwner := isOwner }

/-- **Three lists that are not installed.**  A peer that has become this instance is still known
    as another; one that has moved to the data center "c" is still in the picker of "b"; and of a
    new peer named twice the ring gives out the first client, which the picker does not list and
    nobody has shut down. -/
theorem setPeers_misinstalls :
    (givenLists [[peerAt "a" false], [peerAt "a" true]]).localPicker.clients =
        [⟨0, peerAt "a" false⟩] ∧
    (givenLists [[peerAt "b" false], [peerAt "c" false]]).regionPicker.regions.map
        (fun region => (region.1, region.2.clients)) = [("b", [⟨0, peerAt "b" false⟩])] ∧
    ((givenLists [[peerAt "a" false, peerAt "a" false]]).localPicker.get plainLib.sort "k" =
        .ok ⟨0, peerAt "a" false⟩ ∧
      (givenLists [[peerAt "a" false, peerAt "a" false]]).localPicker.clients =
        [⟨1, peerAt "a" false⟩] ∧
      (givenLists [[peerAt "a" false, peerAt "a" false]]).shutdown = []) := by
  refine ⟨?_, ?_, ?_, ?_, ?_⟩ <;> decide +kernel

end Gubernator