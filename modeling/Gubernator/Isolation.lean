/-
  RATE LIMITS DO NOT INTERFERE, as long as their hash keys differ.

  The argument is an unwinding: a run and the run without the requests of one key go side by side,
  and their pools differ in the items of that key alone (`WorkerPool.Without`).  A request of the
  key touches nothing else; a request of another key finds the same item in both, so it gets the
  same verdict and makes the same writes.

  What a request does to its worker is a lookup and a few writes, each `Local` to the request's
  key.  The one thing that reaches other keys is the eviction of the oldest item.

  `HashKey` joins name and unique key with an underscore, and both may hold underscores: two
  identities can have one hash key, and they share a bucket then (`identities_share_bucket`).

  The rule itself is general and has nothing of this repository in it (`Machine.purge_rule`); what
  is shown here are its two premises, `Purged.hidden` for a request of the key and `Purged.visible`
  for any other.
-/
import Gubernator.Writes
import Gubernator.WorkerPool

namespace Gubernator

/-! ## One key left out

`remove key` is the projection that leaves a key out.  The lemmas say how it commutes with the
operations of the cache and of the Store: on the same key it absorbs them, on another key it passes
through them. -/

namespace Cache

variable {c : Cache} {k key : String}

/-- Keys are left out in any order. -/
theorem remove_comm (c : Cache) (k key : String) :
    (c.remove k).remove key = (c.remove key).remove k := by
  simp only [remove, List.filter_filter, Bool.and_comm]

/-- And once is enough. -/
@[simp] theorem remove_remove (c : Cache) (k : String) : (c.remove k).remove k = c.remove k := by
  simp [remove, List.filter_filter]

/-- Another key is found as before. -/
theorem peek_remove_ne (c : Cache) (h : k ≠ key) : (c.remove key).peek k = c.peek k := by
  unfold peek remove
  rw [List.find?_filter]
  refine List.find?_congr (fun i _ => ?_)
  by_cases hi : i.key = k
  · simp [hi, h]
  · simp [hi]

/-- A key that is not there is left out already. -/
theorem remove_of_peek_none (h : c.peek k = none) : c.remove k = c := by
  have hitems : c.items.filter (fun i => i.key != k) = c.items := by
    refine List.filter_eq_self.mpr (fun i hi => ?_)
    have := List.find?_eq_none.mp h i hi
    simpa using this
  unfold remove
  rw [hitems]

/-- The items with a new first one. -/
theorem remove_cons_self {item : CacheItem} (n : ℕ) (items : List CacheItem) (h : item.key = k) :
    (Cache.mk n (item :: items)).remove k = (Cache.mk n items).remove k := by
  simp [remove, h]

/-- A first one of another key stays. -/
theorem remove_cons_ne {item : CacheItem} (n : ℕ) (items : List CacheItem) (h : item.key ≠ key) :
    (Cache.mk n (item :: items)).remove key =
      ⟨n, item :: ((Cache.mk n items).remove key).items⟩ := by
  simp [remove, h]

/-! What an operation on the key `k` does to the other keys: nothing, unless it evicts. -/

/-- `GetItem` moves or drops the item of its key, and nothing else. -/
theorem getItem_remove_self (c : Cache) (k : String) (now : ℤ) :
    (c.getItem k now).2.remove k = c.remove k := by
  unfold getItem
  cases hp : c.peek k with
  | none => rfl
  | some entry =>
    simp only
    split
    · exact remove_remove c k
    · exact (remove_cons_self _ _ (peek_key hp)).trans (remove_remove c k)

/-- It does the same whether another key is there or not. -/
theorem getItem_remove_ne (c : Cache) (h : k ≠ key) (now : ℤ) :
    (c.remove key).getItem k now = ((c.getItem k now).1, (c.getItem k now).2.remove key) := by
  unfold getItem
  rw [peek_remove_ne c h]
  cases hp : c.peek k with
  | none => rfl
  | some entry =>
    have hk : entry.key ≠ key := by rwa [peek_key hp]
    simp only
    split
    · exact congrArg (Prod.mk none) (remove_comm c key k)
    · refine congrArg (Prod.mk (some entry)) ?_
      rw [remove_cons_ne _ _ hk]
      exact congrArg (fun d => Cache.mk c.cacheSize (entry :: Cache.items d)) (remove_comm c key k)

/-- An `Add` of the item evicts: a new key, and no room for it. -/
def AddEvicts (c : Cache) (item : CacheItem) : Prop :=
  c.peek item.key = none ∧ c.cacheSize ≠ 0 ∧ c.cacheSize < (item :: c.items).length

/-- An `Add` that does not evict touches its own key alone. -/
theorem add_remove_self {item : CacheItem} (h : ¬ c.AddEvicts item) :
    (c.add item).remove item.key = c.remove item.key := by
  unfold add
  cases hp : c.peek item.key with
  | some old => exact (remove_cons_self _ _ rfl).trans (remove_remove c item.key)
  | none =>
    simp only
    rw [if_neg (fun hfull => h ⟨hp, hfull⟩)]
    exact remove_cons_self _ _ rfl

/-- An `Add` that evicts loses the last of the other items. -/
theorem add_remove_evicts {item : CacheItem} (h : c.AddEvicts item) :
    ((c.add item).remove item.key).items = (c.remove item.key).items.dropLast ∧
      (c.remove item.key).items ≠ [] := by
  obtain ⟨hp, hfull⟩ := h
  have hall : c.remove item.key = c := remove_of_peek_none hp
  unfold add
  simp only [hp]
  rw [if_pos hfull, hall]
  -- the cache is bounded and full, so it holds at least one item
  cases hitems : c.items with
  | nil =>
    rw [hitems] at hfull
    simp only [List.length_cons, List.length_nil] at hfull
    omega
  | cons i is =>
    refine ⟨?_, List.cons_ne_nil i is⟩
    rw [List.dropLast_cons_of_ne_nil (List.cons_ne_nil i is), remove_cons_self _ _ rfl]
    refine List.filter_eq_self.mpr (fun j hj => ?_)
    have hj' : j ∈ c.items := by
      rw [hitems]
      exact List.mem_of_mem_dropLast hj
    have := List.find?_eq_none.mp hp j hj'
    simpa using this

/-- With one key less there is room all the more. -/
theorem add_remove_ne {item : CacheItem} (h : item.key ≠ key) (hroom : ¬ c.AddEvicts item) :
    (c.remove key).add item = (c.add item).remove key := by
  unfold add
  rw [peek_remove_ne c h]
  cases hp : c.peek item.key with
  | some old =>
    simp only
    rw [remove_cons_ne _ _ h]
    exact congrArg (fun d => Cache.mk c.cacheSize (item :: Cache.items d)) (remove_comm c key _)
  | none =>
    have hfew : (c.remove key).items.length ≤ c.items.length := List.length_filter_le _ _
    have hfits : ¬ (c.cacheSize ≠ 0 ∧ c.cacheSize < (item :: c.items).length) :=
      fun hfull => hroom ⟨hp, hfull⟩
    have hfits' : ¬ ((c.remove key).cacheSize ≠ 0 ∧
        (c.remove key).cacheSize < (item :: (c.remove key).items).length) := by
      rintro ⟨hbound, hfull⟩
      refine hfits ⟨hbound, lt_of_lt_of_le hfull ?_⟩
      simpa using hfew
    simp only
    rw [if_neg hfits, if_neg hfits', remove_cons_ne _ _ h]
    rfl

/-- A value written in place leaves the other keys alone. -/
theorem write_remove (c : Cache) (item : CacheItem) (key : String) :
    (c.remove key).write item = (c.write item).remove key := by
  unfold write remove
  rw [List.filter_map]
  refine congrArg (fun is => Cache.mk c.cacheSize (List.map _ is)) ?_
  refine List.filter_congr (fun i _ => ?_)
  by_cases hi : i.key = item.key
  · simp [hi]
  · simp [hi]

/-- And is gone with its key. -/
theorem write_remove_self (c : Cache) (item : CacheItem) :
    (c.write item).remove item.key = c.remove item.key := by
  rw [← write_remove]
  refine congrArg (Cache.mk c.cacheSize) (List.map_congr_left (fun i hi => ?_) |>.trans
    (List.map_id _))
  have hne : i.key ≠ item.key := by simpa using (List.mem_filter.mp hi).2
  simp [hne]

end Cache

namespace Store

variable {k key : String}

/-- The same laws for the Store, which is a function of the key. -/
theorem remove_comm (st : Store) (k key : String) :
    (st.remove k).remove key = (st.remove key).remove k := by
  refine congrArg (fun items => Store.mk items st.serves) (funext (fun j => ?_))
  simp only [remove]
  split <;> split <;> rfl

/-- Once is enough. -/
@[simp] theorem remove_remove (st : Store) (k : String) : (st.remove k).remove k = st.remove k := by
  refine congrArg (fun items => Store.mk items st.serves) (funext (fun j => ?_))
  simp only [remove]
  split <;> rfl

/-- Removing the key of a change undoes the change. -/
@[simp] theorem onChange_remove_self (st : Store) (item : CacheItem) :
    (st.onChange item).remove item.key = st.remove item.key := by
  refine congrArg (fun items => Store.mk items st.serves) (funext (fun j => ?_))
  simp only [onChange]
  split <;> rfl

/-- A change of one key and the removal of another can be swapped. -/
theorem onChange_remove_ne (st : Store) {item : CacheItem} (h : item.key ≠ key) :
    (st.onChange item).remove key = (st.remove key).onChange item := by
  refine congrArg (fun items => Store.mk items st.serves) (funext (fun j => ?_))
  simp only [onChange, remove]
  by_cases hj : j = item.key
  · simp [hj, h]
  · simp [hj]

/-- `Get` looks at no key but the one it is asked for. -/
theorem get_remove_ne (st : Store) {r : RateLimitReq} (h : r.hashKey ≠ key) (now : ℤ) :
    (st.remove key).get r now = st.get r now := by
  simp [get, remove, h]

end Store

/-- A Store holds items under their own keys. -/
def Shard.Keyed (s : Shard) : Prop :=
  ∀ st, s.store = some st → ∀ k item, st.items k = some item → item.key = k

/-- **The second shard is the first without the key**: its cache has no item of it, and the Stores
    may differ in what they hold for it. -/
structure Shard.Without (key : String) (s s' : Shard) : Prop where
  cache : s'.cache = s.cache.remove key
  store : s'.store.map (fun st => st.remove key) = s.store.map (fun st => st.remove key)

/-- The Stores of the two serve the same to a request of another key. -/
theorem Shard.Without.get {key : String} {s s' : Shard} (h : s.Without key s') {r : RateLimitReq}
    (hne : r.hashKey ≠ key) (now : ℤ) :
    s'.store.bind (fun st => st.get r now) = s.store.bind (fun st => st.get r now) := by
  have hoff : ∀ o : Option Store, o.bind (fun st => st.get r now) =
      (o.map (fun st => st.remove key)).bind (fun st => st.get r now) := by
    intro o
    cases o with
    | none => rfl
    | some st => exact (Store.get_remove_ne st hne now).symm
  rw [hoff, h.store, ← hoff]

/-! ## Steps local to a key

`Local k f` is closed under composition, so that a request, which is a lookup and some writes, is
local because each of these is.  The last field has the loss of nothing as a premise: an eviction in
the smaller cache may hit another item than in the larger one. -/

/-- The items of the other keys. -/
def Shard.others (k : String) (s : Shard) : List CacheItem := (s.cache.remove k).items

/-- **A step local to the key `k`**: of the other keys it can only lose items, by eviction; if it
    loses none, it leaves them and their Store entries alone, and it does the same when a further
    key is left out. -/
structure Local (k : String) (f : Shard → Shard) : Prop where
  keyed : ∀ {s}, s.Keyed → (f s).Keyed
  loses : ∀ {s}, s.Keyed → ((f s).others k).Sublist (s.others k)
  size : ∀ {s}, s.Keyed → (f s).cache.cacheSize = s.cache.cacheSize
  store : ∀ {s}, s.Keyed →
    (f s).store.map (fun st => st.remove k) = s.store.map (fun st => st.remove k)
  without : ∀ {s s' key}, s.Keyed → (f s).others k = s.others k → k ≠ key → s.Without key s' →
    (f s).Without key (f s')

namespace Local

variable {k : String} {f g : Shard → Shard}

/-- Doing nothing is local. -/
theorem id (k : String) : Local k (fun s => s) where
  keyed h := h
  loses _ := List.Sublist.refl _
  size _ := rfl
  store _ := rfl
  without _ _ _ h := h

/-- One local step after another is local. -/
theorem comp (hg : Local k g) (hf : Local k f) : Local k (fun s => g (f s)) where
  keyed h := hg.keyed (hf.keyed h)
  loses h := (hg.loses (hf.keyed h)).trans (hf.loses h)
  size h := (hg.size (hf.keyed h)).trans (hf.size h)
  store h := (hg.store (hf.keyed h)).trans (hf.store h)
  without := by
    intro s s' key hs hkept hne h
    -- what one of the two steps loses stays lost
    have hfirst : (f s).others k = s.others k := by
      refine (hf.loses hs).eq_of_length (le_antisymm (hf.loses hs).length_le ?_)
      rw [← hkept]
      exact (hg.loses (hf.keyed hs)).length_le
    exact hg.without (hf.keyed hs) (hkept.trans hfirst.symm) hne (hf.without hs hfirst hne h)

/-- A step that loses nothing, seen from a shard without its key. -/
theorem hidden (hf : Local k f) {s s' : Shard} (hs : s.Keyed) (hkept : (f s).others k = s.others k)
    (h : s.Without k s') : (f s).Without k s' where
  cache := by
    rw [h.cache]
    exact (congrArg₂ Cache.mk (hf.size hs) hkept).symm
  store := h.store.trans (hf.store hs).symm

/-- A step that chooses among local ones is local, if leaving out another key does not change its
    choice. -/
theorem of_choice {F : Shard → Shard}
    (h : ∀ s, s.Keyed → ∃ f, Local k f ∧ F s = f s ∧
      ∀ key s', k ≠ key → s.Without key s' → F s' = f s') : Local k F where
  keyed := by
    intro s hs
    obtain ⟨f, hf, heq, -⟩ := h s hs
    rw [heq]
    exact hf.keyed hs
  loses := by
    intro s hs
    obtain ⟨f, hf, heq, -⟩ := h s hs
    rw [heq]
    exact hf.loses hs
  size := by
    intro s hs
    obtain ⟨f, hf, heq, -⟩ := h s hs
    rw [heq]
    exact hf.size hs
  store := by
    intro s hs
    obtain ⟨f, hf, heq, -⟩ := h s hs
    rw [heq]
    exact hf.store hs
  without := by
    intro s s' key hs hkept hne hw
    obtain ⟨f, hf, heq, hother⟩ := h s hs
    rw [heq] at hkept
    rw [heq, hother key s' hne hw]
    exact hf.without hs hkept hne hw

/-- A step of the cache alone. -/
theorem ofCache {g : Cache → Cache} (hsize : ∀ c, (g c).cacheSize = c.cacheSize)
    (hloses : ∀ c, ((g c).remove k).items.Sublist (c.remove k).items)
    (hother : ∀ c key, k ≠ key → ((g c).remove k).items = (c.remove k).items →
      g (c.remove key) = (g c).remove key) :
    Local k (fun s => { s with cache := g s.cache }) where
  keyed h := h
  loses _ := hloses _
  size _ := hsize _
  store _ := rfl
  without := by
    intro s s' key _ hkept hne h
    refine ⟨?_, h.store⟩
    show g s'.cache = (g s.cache).remove key
    rw [h.cache]
    exact hother s.cache key hne hkept

/-- A step of the Store alone. -/
theorem ofStore {g : Store → Store}
    (hkeyed : ∀ st : Store, (∀ j item, st.items j = some item → item.key = j) →
      ∀ j item, (g st).items j = some item → item.key = j)
    (hself : ∀ st, (g st).remove k = st.remove k)
    (hother : ∀ st key, k ≠ key → (g st).remove key = g (st.remove key)) :
    Local k (fun s => { s with store := s.store.map g }) where
  keyed := by
    intro s hs st hst
    obtain ⟨st₀, hst₀, rfl⟩ := Option.map_eq_some_iff.mp hst
    exact hkeyed st₀ (hs st₀ hst₀)
  loses _ := List.Sublist.refl _
  size _ := rfl
  store _ := by
    simp only [Option.map_map, Function.comp_def, hself]
  without := by
    intro s s' key _ _ hne h
    refine ⟨h.cache, ?_⟩
    have hcomm : ∀ o : Option Store, (o.map g).map (fun st => st.remove key) =
        (o.map (fun st => st.remove key)).map g := by
      intro o
      simp only [Option.map_map, Function.comp_def, hother _ key hne]
    show (s'.store.map g).map _ = (s.store.map g).map _
    rw [hcomm, hcomm, h.store]

end Local

/-! The steps a request is made of. -/

section Steps
variable {k : String}

/-- `GetItem`. -/
theorem local_getItem (k : String) (now : ℤ) :
    Local k (fun s => { s with cache := (s.cache.getItem k now).2 }) := by
  refine Local.ofCache (fun c => Cache.getItem_cacheSize c k now) (fun c => ?_) ?_
  · rw [Cache.getItem_remove_self]
  · intro c key hne _
    rw [Cache.getItem_remove_ne c hne]

/-- `Add`: the one step that can lose an item of another key. -/
theorem local_add {item : CacheItem} (hk : item.key = k) :
    Local k (fun s => { s with cache := s.cache.add item }) := by
  subst hk
  refine Local.ofCache (fun c => Cache.add_cacheSize c item) (fun c => ?_) ?_
  · by_cases h : c.AddEvicts item
    · rw [(Cache.add_remove_evicts h).1]
      exact List.dropLast_sublist _
    · rw [Cache.add_remove_self h]
  · intro c key hne hkept
    -- nothing was lost, so nothing was evicted
    refine Cache.add_remove_ne hne (fun hevicts => ?_)
    obtain ⟨hlost, hpos⟩ := Cache.add_remove_evicts hevicts
    have hlen := congrArg List.length (hlost.symm.trans hkept)
    have := List.length_pos_of_ne_nil hpos
    rw [List.length_dropLast] at hlen
    omega

/-- A value changed in place. -/
theorem local_mutate {item : CacheItem} (hk : item.key = k) :
    Local k (fun s => { s with cache := s.cache.write item }) := by
  subst hk
  refine Local.ofCache (g := fun c => c.write item) (fun c => rfl) (fun c => ?_) ?_
  · rw [Cache.write_remove_self]
  · intro c key _ _
    exact Cache.write_remove c item key

/-- The Store told of a change; one that is not the owner's tells nothing. -/
theorem local_onChange {item : CacheItem} (hk : item.key = k) (isOwner : Bool) :
    Local k (fun s => { s with
      store := s.store.map (fun st => if isOwner then st.onChange item else st) }) := by
  subst hk
  refine Local.ofStore (fun st hst j i hi => ?_) (fun st => ?_) ?_
  · split at hi
    · simp only [Store.onChange] at hi
      split at hi
      · rename_i hj
        obtain rfl := Option.some.inj hi
        exact hj.symm
      · exact hst j i hi
    · exact hst j i hi
  · split
    · exact Store.onChange_remove_self st item
    · rfl
  · intro st key hne
    split
    · exact Store.onChange_remove_ne st hne
    · rfl

/-- A removal, from the cache and from the Store. -/
theorem local_remove (k : String) : Local k (fun s => s.remove k) := by
  have hcache : Local k (fun s => { s with cache := s.cache.remove k }) := by
    refine Local.ofCache (g := fun c => c.remove k) (fun c => rfl) (fun c => ?_) ?_
    · rw [Cache.remove_remove]
    · intro c key _ _
      exact Cache.remove_comm c key k
  have hstore : Local k (fun s => { s with store := s.store.map (fun st => st.remove k) }) := by
    refine Local.ofStore (fun st hst j i hi => ?_) (fun st => ?_) ?_
    · simp only [Store.remove] at hi
      split at hi
      · cases hi
      · exact hst j i hi
    · exact Store.remove_remove st k
    · intro st key _
      exact Store.remove_comm st k key
  exact hstore.comp hcache

/-- Each of the four kinds of write is local, if the item it carries is of the key. -/
theorem local_write (isOwner : Bool) {w : Write}
    (hw : ∀ item, w.item = some item → item.key = k) :
    Local k (fun s => w.apply isOwner k s) := by
  cases w with
  | remove => exact local_remove k
  | create item => exact (local_onChange (hw item rfl) isOwner).comp (local_add (hw item rfl))
  | update item => exact (local_onChange (hw item rfl) isOwner).comp (local_mutate (hw item rfl))
  | mutate item => exact local_mutate (hw item rfl)

/-- A sequence of such writes is local. -/
theorem local_writes (isOwner : Bool) {ws : List Write}
    (hw : ∀ w ∈ ws, ∀ item, w.item = some item → item.key = k) :
    Local k (fun s => ws.foldl (Write.apply isOwner k) s) := by
  induction ws with
  | nil => exact Local.id k
  | cons w ws ih =>
    have hrest := ih (fun w' hw' => hw w' (List.mem_cons_of_mem _ hw'))
    exact hrest.comp (local_write isOwner (hw w List.mem_cons_self))

/-- What a lookup does to the cache, by what cache and Store gave. -/
def recache : Option CacheItem → Option CacheItem → Cache → Cache
  | none, some item, c => c.add item
  | _, _, c => c

/-- A lookup asks the cache, then the Store, and caches what that serves. -/
theorem lookup_eq_recache (s : Shard) (now : ℤ) (r : RateLimitReq) :
    s.lookup now r =
      ((s.cache.getItem r.hashKey now).1.or (s.store.bind (fun st => st.get r now)),
        { s with
          cache := recache (s.cache.getItem r.hashKey now).1
            (s.store.bind (fun st => st.get r now)) (s.cache.getItem r.hashKey now).2 }) := by
  unfold Shard.lookup
  rcases s.cache.getItem r.hashKey now with ⟨_ | item, c⟩
  · cases s.store.bind (fun st => st.get r now) with
    | none => rfl
    | some item => rfl
  · rfl

/-- Another key left out, a request finds the same. -/
theorem find_without {key : String} {s s' : Shard} {now : ℤ} {r : RateLimitReq}
    (hne : r.hashKey ≠ key) (h : s.Without key s') : s'.find now r = s.find now r := by
  unfold Shard.find
  rw [lookup_eq_recache s', lookup_eq_recache s, h.cache, Cache.getItem_remove_ne s.cache hne,
    h.get hne]

/-- **The lookup is local**: which step it takes is decided by what cache and Store hold for the
    key. -/
theorem local_lookup (now : ℤ) (r : RateLimitReq) :
    Local r.hashKey (fun s => (s.lookup now r).2) := by
  refine Local.of_choice (fun s hs => ?_)
  refine ⟨fun t => { t with
    cache := recache (s.cache.getItem r.hashKey now).1 (s.store.bind (fun st => st.get r now))
      (t.cache.getItem r.hashKey now).2 }, ?_, ?_, ?_⟩
  · have hget := local_getItem r.hashKey now
    cases hhit : (s.cache.getItem r.hashKey now).1 with
    | some item => exact hget
    | none =>
      cases hserved : s.store.bind (fun st => st.get r now) with
      | none => exact hget
      | some item =>
        -- the Store serves an item of the key that was asked for
        obtain ⟨st, hst, hitem⟩ := Option.bind_eq_some_iff.mp hserved
        have hk : item.key = r.hashKey :=
          hs st hst r.hashKey item (Option.eq_some_of_filter_eq_some hitem)
        exact (local_add hk).comp hget
  · rw [lookup_eq_recache]
  · intro key s' hne h
    simp only [lookup_eq_recache, h.get hne, h.cache, Cache.getItem_remove_ne s.cache hne]

/-- **A request is local to its hash key.** -/
theorem local_handleGetRateLimit (conf : Config) (host : Host) (now : ℤ) (r : RateLimitReq)
    (reqState : RateLimitReqState) :
    Local r.hashKey (fun s => (handleGetRateLimit conf host now s r reqState).2) := by
  refine Local.of_choice (fun s _ => ?_)
  obtain ⟨v, hsound, hcall⟩ := handleGetRateLimit_verdict conf host now r reqState
    (s.find (epochMillis now) r) (fun item b hb => (Shard.find_key hb).2.2)
  refine ⟨fun t => v.shard reqState.isOwner (epochMillis now) t r, ?_, ?_, ?_⟩
  · have hwrites := local_writes reqState.isOwner
      (fun w hw item hitem => (hsound.own w hw item hitem).1)
    unfold Verdict.shard
    split
    · exact hwrites.comp (local_lookup _ r)
    · exact hwrites
  · rw [hcall s rfl]
  · intro key s' hne h
    rw [hcall s' (find_without hne h)]

/-- Another key left out, a request gets the same answer. -/
theorem handleGetRateLimit_without (conf : Config) (host : Host) (now : ℤ) {r : RateLimitReq}
    (reqState : RateLimitReqState) {key : String} {s s' : Shard} (hne : r.hashKey ≠ key)
    (h : s.Without key s') :
    (handleGetRateLimit conf host now s' r reqState).1 =
      (handleGetRateLimit conf host now s r reqState).1 := by
  obtain ⟨v, -, hcall⟩ := handleGetRateLimit_verdict conf host now r reqState
    (s.find (epochMillis now) r) (fun item b hb => (Shard.find_key hb).2.2)
  rw [hcall s rfl, hcall s' (find_without hne h)]

end Steps

/-! ## The pool

A pool is one cache for each worker and one Store for all; a request reaches the cache of its key's
worker.  Leaving a key out means leaving it out of every worker, though only one is asked for it. -/

namespace WorkerPool

/-- **The second pool is the first without the key.** -/
structure Without (key : String) (p p' : WorkerPool) : Prop where
  hasher : p'.hasher = p.hasher
  hashRingStep : p'.hashRingStep = p.hashRingStep
  workers : p'.workers = p.workers.map (fun c => c.remove key)
  store : p'.store.map (fun st => st.remove key) = p.store.map (fun st => st.remove key)

section Pool
variable {key k : String} {p p' : WorkerPool} {s : Shard}

/-- Both pools send a key to the same worker. -/
theorem Without.getWorker (h : p.Without key p') (k : String) : p'.getWorker k = p.getWorker k := by
  unfold WorkerPool.getWorker
  rw [h.hasher, h.hashRingStep]

/-- If there is none for it, then in both. -/
theorem Without.shard_none (h : p.Without key p') (hs : p.shard k = none) : p'.shard k = none := by
  simp only [shard, Option.map_eq_none_iff] at hs ⊢
  rw [h.getWorker, h.workers, List.getElem?_map, hs]
  rfl

/-- Otherwise the two shards differ in the key alone. -/
theorem Without.shard_some (h : p.Without key p') (hs : p.shard k = some s) :
    ∃ s', p'.shard k = some s' ∧ s.Without key s' := by
  obtain ⟨c, hc, rfl⟩ := Option.map_eq_some_iff.mp hs
  refine ⟨⟨c.remove key, p'.store⟩, ?_, rfl, h.store⟩
  unfold shard
  rw [h.getWorker, h.workers, List.getElem?_map, hc]
  rfl

/-- A request of another key, on both pools. -/
theorem Without.setShard (h : p.Without key p') {t t' : Shard} (ht : t.Without key t') :
    (p.setShard k t).Without key (p'.setShard k t') where
  hasher := h.hasher
  hashRingStep := h.hashRingStep
  workers := by
    show p'.workers.set (p'.getWorker k) t'.cache = _
    rw [h.getWorker, h.workers, ht.cache, ← List.map_set]
    rfl
  store := ht.store

/-- A request of the key itself, on the first pool alone. -/
theorem Without.setShard_hidden (h : p.Without key p') {t s' : Shard} (hs : p'.shard k = some s')
    (ht : t.Without key s') : (p.setShard k t).Without key p' where
  hasher := h.hasher
  hashRingStep := h.hashRingStep
  workers := by
    obtain ⟨c, hc, rfl⟩ := Option.map_eq_some_iff.mp hs
    obtain ⟨hlt, hget⟩ := List.getElem?_eq_some_iff.mp hc
    show p'.workers = (p.workers.set (p.getWorker k) t.cache).map _
    rw [List.map_set, ← ht.cache, ← h.workers, ← h.getWorker, ← hget, List.set_getElem_self]
  store := by
    obtain ⟨c, -, rfl⟩ := Option.map_eq_some_iff.mp hs
    exact ht.store

end Pool

/-- A Store holds items under their own keys. -/
def Keyed (p : WorkerPool) : Prop :=
  ∀ st, p.store = some st → ∀ k item, st.items k = some item → item.key = k

/-- **An eviction**: the worker has fewer items of other keys after the request than before. -/
def evicts (conf : Config) (host : Host) (p : Option WorkerPool) (a : Arrival) : Bool :=
  match p.bind (fun p => p.shard a.req.hashKey) with
  | none => false
  | some s =>
    let s' := (handleGetRateLimit conf host a.now s a.req a.reqState).2
    decide ((s'.others a.req.hashKey).length < (s.others a.req.hashKey).length)

/-- The two runs side by side: both pools have panicked, or neither has, and the second is the
    first without the key, whose worker exists. -/
inductive Purged (key : String) : Option WorkerPool → Option WorkerPool → Prop
  | down : Purged key none none
  | up {p p' : WorkerPool} : p.Without key p' → p.Keyed → p.getWorker key < p.workers.length →
      Purged key (some p) (some p')

section Steps
variable {conf : Config} {host : Host} {key : String} {p : WorkerPool} {a : Arrival}

/-- A key that hashes beyond the workers takes the pool down. -/
theorem getRateLimit_none (hs : p.shard a.req.hashKey = none) :
    getRateLimit conf host (some p) a = (none, none) := by
  simp only [getRateLimit, hs]

/-- Any other is handled by its worker. -/
theorem getRateLimit_some {s : Shard} (hs : p.shard a.req.hashKey = some s) :
    getRateLimit conf host (some p) a =
      (some (handleGetRateLimit conf host a.now s a.req a.reqState).1,
        some (p.setShard a.req.hashKey
          (handleGetRateLimit conf host a.now s a.req a.reqState).2)) := by
  simp only [getRateLimit, hs]

/-- Each worker shares the Store of the pool. -/
theorem shard_keyed {s : Shard} {k : String} (h : p.Keyed) (hs : p.shard k = some s) :
    s.Keyed := by
  obtain ⟨c, -, rfl⟩ := Option.map_eq_some_iff.mp hs
  exact h

/-- Nothing evicted, the other keys of the worker are as they were. -/
theorem others_of_not_evicts {s : Shard} (hkeyed : s.Keyed) (hs : p.shard a.req.hashKey = some s)
    (h : ¬ evicts conf host (some p) a = true) :
    (handleGetRateLimit conf host a.now s a.req a.reqState).2.others a.req.hashKey =
      s.others a.req.hashKey := by
  simp only [evicts, Option.bind_some, hs, decide_eq_true_eq, not_lt] at h
  exact ((local_handleGetRateLimit conf host a.now a.req a.reqState).loses hkeyed).eq_of_length_le h

/-- A request changes neither the number of workers nor the way keys are spread. -/
theorem setShard_inRange (s : Shard) (k : String) (h : p.getWorker key < p.workers.length) :
    (p.setShard k s).getWorker key < (p.setShard k s).workers.length := by
  simpa [setShard, getWorker] using h

/-- A request of the key. -/
theorem Purged.hidden {s s' : Option WorkerPool} (hk : a.req.hashKey = key)
    (hquiet : ¬ evicts conf host s a = true) (h : Purged key s s') :
    Purged key (getRateLimit conf host s a).2 s' := by
  subst hk
  cases h with
  | down => exact .down
  | @up p p' hw hkeyed hrange =>
    obtain ⟨s, hs⟩ : ∃ s, p.shard a.req.hashKey = some s :=
      ⟨_, by rw [shard, List.getElem?_eq_getElem hrange]; rfl⟩
    obtain ⟨s', hs', hws⟩ := hw.shard_some hs
    have hlocal := local_handleGetRateLimit conf host a.now a.req a.reqState
    have hskeyed := shard_keyed hkeyed hs
    have hkept := others_of_not_evicts hskeyed hs hquiet
    rw [getRateLimit_some hs]
    exact .up (hw.setShard_hidden hs' (hlocal.hidden hskeyed hkept hws)) (hlocal.keyed hskeyed)
      (setShard_inRange _ _ hrange)

/-- A request of another key. -/
theorem Purged.visible {s s' : Option WorkerPool} (hk : a.req.hashKey ≠ key)
    (hquiet : ¬ evicts conf host s a = true) (h : Purged key s s') :
    (getRateLimit conf host s' a).1 = (getRateLimit conf host s a).1 ∧
      Purged key (getRateLimit conf host s a).2 (getRateLimit conf host s' a).2 := by
  cases h with
  | down => exact ⟨rfl, .down⟩
  | @up p p' hw hkeyed hrange =>
    cases hs : p.shard a.req.hashKey with
    | none =>
      rw [getRateLimit_none hs, getRateLimit_none (hw.shard_none hs)]
      exact ⟨rfl, .down⟩
    | some s =>
      obtain ⟨s', hs', hws⟩ := hw.shard_some hs
      have hlocal := local_handleGetRateLimit conf host a.now a.req a.reqState
      have hskeyed := shard_keyed hkeyed hs
      have hkept := others_of_not_evicts hskeyed hs hquiet
      rw [getRateLimit_some hs, getRateLimit_some hs']
      refine ⟨congrArg some (handleGetRateLimit_without conf host a.now a.reqState hk hws), ?_⟩
      exact .up (hw.setShard (hlocal.without hskeyed hkept hk hws)) (hlocal.keyed hskeyed)
        (setShard_inRange _ _ hrange)

end Steps

end WorkerPool

/-! ## Identities

A client names a rate limit by two strings.  The code only ever looks at the one it joins them to.
-/

/-- The two-part identity of a rate limit. -/
structure Identity where
  name : String
  uniqueKey : String
  deriving DecidableEq, Repr

/-- What the client named. -/
def RateLimitReq.identity (r : RateLimitReq) : Identity := ⟨r.name, r.uniqueKey⟩

/-- What the code makes of it (`HashKey`). -/
def Identity.hashKey (i : Identity) : String := i.name ++ "_" ++ i.uniqueKey

/-- The answers to the requests of an identity. -/
def answersTo {O : Type*} (i : Identity) (events : List (Arrival × O)) : List O :=
  (events.filter (fun e => e.1.req.identity = i)).map Prod.snd

/-- **Rate limits do not interfere.**  In a run without evictions the requests of one identity get
    the answers they get without the requests of a second one, if no request of another identity
    has the hash key of the second, and a worker exists for that key. -/
theorem second_identity_invisible (conf : Config) (host : Host) (p : WorkerPool)
    (first second : Identity) (hdistinct : first ≠ second) (hkeyed : p.Keyed)
    (hfresh : ∀ c ∈ p.workers, c.peek second.hashKey = none) (run : List Arrival)
    (hquiet : Machine.Guarded (WorkerPool.getRateLimit conf host)
      (fun s a => ¬ WorkerPool.evicts conf host s a = true) (some p) run)
    (hrange : p.getWorker second.hashKey < p.workers.length)
    (hkeys : ∀ a ∈ run, a.req.hashKey = second.hashKey → a.req.identity = second) :
    answersTo first (Machine.events (WorkerPool.getRateLimit conf host) (some p) run) =
      answersTo first (Machine.events (WorkerPool.getRateLimit conf host) (some p)
        (run.filter (fun a => ¬ a.req.identity = second))) := by
  -- hiding the identity is hiding the hash key
  have hsame : ∀ a ∈ run, (a.req.identity = second ↔ a.req.hashKey = second.hashKey) := by
    intro a ha
    refine ⟨fun hid => ?_, hkeys a ha⟩
    rw [← hid]
    rfl
  -- the pool has nothing of the key at first, so it is itself without the key
  have hstart : WorkerPool.Purged second.hashKey (some p) (some p) := by
    refine .up ⟨rfl, rfl, ?_, rfl⟩ hkeyed hrange
    have hnone : ∀ c ∈ p.workers, c.remove second.hashKey = c :=
      fun c hc => Cache.remove_of_peek_none (hfresh c hc)
    rw [List.map_congr_left hnone, List.map_id']
  -- the run, purged of the key, has the same events but for those of the key
  have hpurge := Machine.purge_rule (fun a : Arrival => a.req.hashKey = second.hashKey)
    (fun s t a hk hq h => h.hidden hk hq) (fun s t a hk hq _ h => h.visible hk hq) hquiet
    (Machine.guarded_true _ _ _) hstart
  have hrun : run.filter (fun a => ¬ a.req.identity = second) =
      run.filter (fun a => ¬ a.req.hashKey = second.hashKey) :=
    List.filter_congr (fun a ha => by simp only [hsame a ha])
  rw [hrun, ← hpurge, answersTo, answersTo, List.filter_filter]
  refine congrArg (List.map Prod.snd) (List.filter_congr (fun e he => ?_))
  have hfst : (Machine.events (WorkerPool.getRateLimit conf host) (some p) run).map Prod.fst =
      run := Machine.map_fst_events _ _
  have hmem : e.1 ∈ run := by
    rw [← hfst]
    exact List.mem_map_of_mem he
  -- the first identity's events are not among those purged
  by_cases hid : e.1.req.identity = first
  · have hother : ¬ e.1.req.hashKey = second.hashKey := by
      rw [← hsame e.1 hmem, hid]
      exact hdistinct
    simp [hid, hother]
  · simp [hid]

/-- A request of an account at `now` milliseconds. -/
def accountHits (now : ℤ) (account : String) (hits : ℤ) : Arrival where
  now := now * 1000000
  req := { RateLimitReq.sample hits 2 60000 0 now 0 with uniqueKey := account }
  reqState := { isOwner := true }

/-- Two accounts on one worker, and a third on another. -/
def threeAccounts : List Arrival :=
  [accountHits 5000 "a" 2, accountHits 5000 "b" 2, accountHits 5000 "cc" 1, accountHits 5001 "b" 1,
    accountHits 5002 "a" 1]

/-- A pool of two workers, the keys spread by their length. -/
def twoWorkers : WorkerPool := .new (fun key => Fin.ofNat _ (key.length % 2 * 2 ^ 62)) 2 10 none

/-- Without the requests of account "a", account "b" is answered the same: granted, then refused. -/
theorem second_identity_invisible_threeAccounts :
    (answersTo ⟨"requests", "b"⟩ (Machine.events (WorkerPool.getRateLimit ⟨300000000000⟩ .amd64)
      (some twoWorkers) threeAccounts)).map
        (Option.map (fun answer => answer.toOption.map RateLimitResp.status)) =
      [some (some .underLimit), some (some .overLimit)] ∧
    answersTo ⟨"requests", "b"⟩ (Machine.events (WorkerPool.getRateLimit ⟨300000000000⟩ .amd64)
      (some twoWorkers) threeAccounts) =
    answersTo ⟨"requests", "b"⟩ (Machine.events (WorkerPool.getRateLimit ⟨300000000000⟩ .amd64)
      (some twoWorkers) (threeAccounts.filter (fun a => ¬ a.req.identity = ⟨"requests", "a"⟩))) :=
  ⟨by decide +kernel,
    second_identity_invisible ⟨300000000000⟩ .amd64 twoWorkers ⟨"requests", "b"⟩ ⟨"requests", "a"⟩
      (by decide) (by intro st hst; cases hst) (by decide +kernel) threeAccounts (by decide +kernel)
      (by decide +kernel) (by decide +kernel)⟩

/-- Two identities with one hash key. -/
def underscored : List Arrival :=
  [⟨5000000000, { RateLimitReq.sample 1 1 60000 0 5000 0 with
      name := "a", uniqueKey := "b_c", algorithm := .tokenBucket }, { isOwner := true }⟩,
    ⟨5000000000, { RateLimitReq.sample 1 1 60000 0 5000 0 with
      name := "a_b", uniqueKey := "c", algorithm := .tokenBucket }, { isOwner := true }⟩]

/-- **They share a bucket**: the first is refused the one token the second took. -/
theorem identities_share_bucket :
    Machine.Guarded (WorkerPool.getRateLimit ⟨300000000000⟩ .amd64)
      (fun s a => ¬ WorkerPool.evicts ⟨300000000000⟩ .amd64 s a = true)
      (some (.new (fun _ => 0) 1 10 none)) underscored ∧
    (answersTo ⟨"a_b", "c"⟩ (Machine.events (WorkerPool.getRateLimit ⟨300000000000⟩ .amd64)
      (some (.new (fun _ => 0) 1 10 none)) underscored)).map
        (Option.map (fun answer => answer.toOption.map RateLimitResp.status)) =
      [some (some .overLimit)] ∧
    (answersTo ⟨"a_b", "c"⟩ (Machine.events (WorkerPool.getRateLimit ⟨300000000000⟩ .amd64)
      (some (.new (fun _ => 0) 1 10 none))
      (underscored.filter (fun a => ¬ a.req.identity = ⟨"a", "b_c"⟩)))).map
        (Option.map (fun answer => answer.toOption.map RateLimitResp.status)) =
      [some (some .underLimit)] := by
  refine ⟨by decide +kernel, by decide +kernel, by decide +kernel⟩

end Gubernator
