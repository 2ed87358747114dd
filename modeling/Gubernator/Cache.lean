/-
  The cache and the Store a bucket algorithm works on (`cache.go`, `lrucache.go`, `store.go`).

  `Cache` is the LRU map itself: the items, most recently used first, and a capacity.  The hash
  map and the doubly linked list that implement it in `LRUCache` are one list here.  `GetItem`
  drops an expired item when it meets it; `Add` of a new key at capacity drops the oldest item.

  In Go the item `GetItem` returns is a pointer into the cache, and the algorithms mutate it in
  place; `write` is that mutation, made explicit.

  `Store` keeps, per key, the snapshot of the last `OnChange` until a `Remove`, like the
  `MockStore` of `store.go`.  Whether it still serves a snapshot at a given time is up to the
  implementation (`serves`): the interface leaves expiry to it.
-/
import Gubernator.Types
import Gubernator.Interval

namespace Gubernator

/-! ## The cache

`GetItem` and `Add` move the item to the front; `write` does not. -/

/-- `CacheItem.IsExpired` at clock `now` (epoch milliseconds). -/
def CacheItem.isExpired (item : CacheItem) (now : ℤ) : Bool :=
  (item.invalidAt != 0 && decide (item.invalidAt < now)) || decide (item.expireAt < now)

/-- The items, most recently used first; a size of zero is no bound. -/
structure Cache where
  cacheSize : ℕ
  items : List CacheItem
  deriving DecidableEq, Repr

namespace Cache

/-- `c.cache[key]`: the entry, expired or not. -/
def peek (c : Cache) (key : String) : Option CacheItem := c.items.find? (fun i => i.key == key)

/-- `Remove`. -/
def remove (c : Cache) (key : String) : Cache :=
  { c with items := c.items.filter (fun i => i.key != key) }

/-- `GetItem`. -/
def getItem (c : Cache) (key : String) (now : ℤ) : Option CacheItem × Cache :=
  match c.peek key with
  | some entry =>
    if entry.isExpired now then (none, c.remove key)
    else (some entry, { c with items := entry :: (c.remove key).items })
  | none => (none, c)

/-- `Add`: a known key gets the new item in place of the old. -/
def add (c : Cache) (item : CacheItem) : Cache :=
  match c.peek item.key with
  | some _ => { c with items := item :: (c.remove item.key).items }
  | none =>
    -- a full cache drops its oldest item
    if c.cacheSize ≠ 0 ∧ c.cacheSize < (item :: c.items).length then
      { c with items := (item :: c.items).dropLast }
    else { c with items := item :: c.items }

/-- The entry of `item.key` takes the contents of `item`, where it stands. -/
def write (c : Cache) (item : CacheItem) : Cache :=
  { c with items := c.items.map (fun i => if i.key == item.key then item else i) }

/-- An entry is under its own key. -/
theorem peek_key {c : Cache} {key : String} {item : CacheItem} (h : c.peek key = some item) :
    item.key = key := by
  have := List.find?_some h
  simpa using this

/-- A key that is removed is gone. -/
@[simp] theorem peek_remove (c : Cache) (key : String) : (c.remove key).peek key = none := by
  simp only [peek, remove, List.find?_eq_none, List.mem_filter]
  rintro item ⟨-, hne⟩ heq
  simp at hne heq
  exact hne heq

/-- What `GetItem` gives is what stays in the cache under the key. -/
theorem peek_getItem (c : Cache) (key : String) (now : ℤ) :
    (c.getItem key now).2.peek key = (c.getItem key now).1 := by
  unfold getItem
  cases h : c.peek key with
  | none => exact h
  | some entry =>
    by_cases hx : entry.isExpired now = true
    · simp only [hx, if_true]
      exact peek_remove c key
    · simp only [hx]
      simp [peek, peek_key h]

/-- An entry that has not expired is given. -/
theorem getItem_of_fresh {c : Cache} {key : String} {now : ℤ} {item : CacheItem}
    (h : c.peek key = some item) (hx : item.isExpired now = false) :
    (c.getItem key now).1 = some item := by
  simp [getItem, h, hx]

/-- No entry gives none. -/
theorem getItem_of_none {c : Cache} {key : String} {now : ℤ} (h : c.peek key = none) :
    (c.getItem key now).1 = none := by
  simp [getItem, h]

/-- An entry that has expired is not given. -/
theorem getItem_of_expired {c : Cache} {key : String} {now : ℤ} {item : CacheItem}
    (h : c.peek key = some item) (hx : item.isExpired now = true) :
    (c.getItem key now).1 = none := by
  simp [getItem, h, hx]

/-- An item that is added is there, also if another had to go. -/
@[simp] theorem peek_add_self (c : Cache) (item : CacheItem) :
    (c.add item).peek item.key = some item := by
  unfold add
  split
  · simp [peek]
  · split
    · rename_i hfull
      -- the oldest item is not the one just added: the capacity is at least one
      cases hitems : c.items with
      | nil =>
        simp only [hitems, List.length_cons, List.length_nil] at hfull
        omega
      | cons i is => simp [peek, List.dropLast]
    · simp [peek]

/-- An item that is written where there is one is there. -/
theorem peek_write_self {c : Cache} {item old : CacheItem} (h : c.peek item.key = some old) :
    (c.write item).peek item.key = some item := by
  obtain ⟨cacheSize, items⟩ := c
  simp only [peek, write] at h ⊢
  induction items with
  | nil => simp at h
  | cons i is ih =>
    by_cases hi : i.key = item.key
    · simp [hi]
    · rw [List.map_cons, List.find?_cons_of_neg (by simp [hi])]
      rw [List.find?_cons_of_neg (by simpa using hi)] at h
      exact ih h

end Cache

/-! ## The Store

What is kept of a Store are its answers, since the interface is the user's to implement. -/

/-- A Store, and when it still serves a snapshot. -/
structure Store where
  items : String → Option CacheItem
  serves : CacheItem → ℤ → Bool

namespace Store

/-- `Get`. -/
def get (st : Store) (r : RateLimitReq) (now : ℤ) : Option CacheItem :=
  (st.items r.hashKey).filter (fun item => st.serves item now)

/-- `OnChange`. -/
def onChange (st : Store) (item : CacheItem) : Store :=
  { st with items := fun key => if key = item.key then some item else st.items key }

/-- `Remove` of the Store. -/
def remove (st : Store) (key : String) : Store :=
  { st with items := fun k => if k = key then none else st.items k }

/-- A snapshot that is taken is there. -/
@[simp] theorem items_onChange_self (st : Store) (item : CacheItem) :
    (st.onChange item).items item.key = some item := by
  simp [onChange]

/-- A snapshot that is removed is gone. -/
@[simp] theorem items_remove_self (st : Store) (key : String) :
    (st.remove key).items key = none := by
  simp [remove]

end Store

/-! ## What an algorithm runs on

Lookups and writes, as both algorithms make them. -/

/-- A worker's cache and the Store, if one is configured. -/
structure Shard where
  cache : Cache
  store : Option Store

namespace Shard

/-- No Store, and a cache without bound that holds `items`. -/
def ofItems (items : List CacheItem) : Shard :=
  { cache := { cacheSize := 0, items }, store := none }

/-- Cache, then Store; an item the Store serves is cached. -/
def lookup (s : Shard) (now : ℤ) (r : RateLimitReq) : Option CacheItem × Shard :=
  match s.cache.getItem r.hashKey now with
  | (some item, c) => (some item, { s with cache := c })
  | (none, c) =>
    match s.store.bind (fun st => st.get r now) with
    | some item => (some item, { s with cache := c.add item })
    | none => (none, { s with cache := c })

/-- The sanity checks: an item without a value, or under another key, counts as not found. -/
def sane (r : RateLimitReq) (item : CacheItem) : Option (CacheItem × Bucket) :=
  match item.value with
  | some v => if item.key = r.hashKey then some (item, v) else none
  | none => none

/-- The item a request finds, with its bucket. -/
def find (s : Shard) (now : ℤ) (r : RateLimitReq) : Option (CacheItem × Bucket) :=
  (s.lookup now r).1.bind (sane r)

/-- The key is removed from cache and Store. -/
def remove (s : Shard) (key : String) : Shard :=
  { cache := s.cache.remove key, store := s.store.map (fun st => st.remove key) }

/-- `c.Add` of a new item, then `OnChange` on the owner. -/
def create (s : Shard) (isOwner : Bool) (item : CacheItem) : Shard :=
  { cache := s.cache.add item
    store := s.store.map (fun st => if isOwner then st.onChange item else st) }

/-- The mutation of a found item, then `OnChange` on the owner. -/
def update (s : Shard) (isOwner : Bool) (item : CacheItem) : Shard :=
  { cache := s.cache.write item
    store := s.store.map (fun st => if isOwner then st.onChange item else st) }

/-- The item the Store holds for a key, served or not. -/
def stored (s : Shard) (key : String) : Option CacheItem := s.store.bind (fun st => st.items key)

/-- What passes the checks is the item, with its value, under the request's key. -/
theorem sane_key {r : RateLimitReq} {item item' : CacheItem} {v : Bucket}
    (h : sane r item = some (item', v)) :
    item' = item ∧ item.value = some v ∧ item.key = r.hashKey := by
  unfold sane at h
  split at h
  · rename_i v' hv
    split at h
    · rename_i hk
      obtain ⟨rfl, rfl⟩ := Prod.mk.inj (Option.some.inj h)
      exact ⟨rfl, hv, hk⟩
    · cases h
  · cases h

/-- What is found was looked up, and passes the checks. -/
theorem find_key {s : Shard} {now : ℤ} {r : RateLimitReq} {item : CacheItem} {v : Bucket}
    (h : s.find now r = some (item, v)) :
    (s.lookup now r).1 = some item ∧ item.value = some v ∧ item.key = r.hashKey := by
  obtain ⟨item', hitem, hs⟩ := Option.bind_eq_some_iff.mp h
  obtain ⟨rfl, hv, hk⟩ := sane_key hs
  exact ⟨hitem, hv, hk⟩

/-- An item found, in the cache or in the Store, is the cache's entry of the key afterwards. -/
theorem peek_lookup {s : Shard} {now : ℤ} {r : RateLimitReq} {item : CacheItem}
    (h : (s.lookup now r).1 = some item) (hk : item.key = r.hashKey) :
    (s.lookup now r).2.cache.peek r.hashKey = some item := by
  have hp := Cache.peek_getItem s.cache r.hashKey now
  unfold lookup at h ⊢
  rcases hg : s.cache.getItem r.hashKey now with ⟨hit, c⟩
  rw [hg] at hp
  cases hit with
  -- in the cache
  | some i =>
    simp only [hg] at h ⊢
    obtain rfl := Option.some.inj h
    exact hp
  | none =>
    simp only [hg] at h ⊢
    cases hs : s.store.bind (fun st => st.get r now) with
    | none => simp [hs] at h
    -- in the Store, and cached now
    | some i =>
      simp only [hs] at h ⊢
      obtain rfl := Option.some.inj h
      rw [← hk]
      exact Cache.peek_add_self c i

/-- Nothing in the cache and nothing in the Store leaves nothing in the cache. -/
theorem peek_lookup_none {s : Shard} {now : ℤ} {r : RateLimitReq}
    (h : (s.lookup now r).1 = none) : (s.lookup now r).2.cache.peek r.hashKey = none := by
  have hp := Cache.peek_getItem s.cache r.hashKey now
  unfold lookup at h ⊢
  rcases hg : s.cache.getItem r.hashKey now with ⟨hit, c⟩
  rw [hg] at hp
  cases hit with
  | some i => simp [hg] at h
  | none =>
    simp only [hg] at h ⊢
    cases hs : s.store.bind (fun st => st.get r now) with
    | none => simpa [hs] using hp
    | some i => simp [hs] at h

/-- An unexpired entry of the cache is what a lookup gives. -/
theorem lookup_of_fresh {s : Shard} {now : ℤ} {r : RateLimitReq} {item : CacheItem}
    (h : s.cache.peek r.hashKey = some item) (hx : item.isExpired now = false) :
    (s.lookup now r).1 = some item := by
  have hg := Cache.getItem_of_fresh h hx
  unfold lookup
  rcases hc : s.cache.getItem r.hashKey now with ⟨hit, c⟩
  rw [hc] at hg
  obtain rfl : hit = some item := hg
  rfl

/-- An unexpired entry of the cache is what a request finds. -/
theorem find_of_fresh {s : Shard} {now : ℤ} {r : RateLimitReq} {item : CacheItem} {v : Bucket}
    (h : s.cache.peek r.hashKey = some item) (hx : item.isExpired now = false)
    (hv : item.value = some v) : s.find now r = some (item, v) := by
  rw [find, lookup_of_fresh h hx]
  simp [sane, hv, Cache.peek_key h]

/-- A key not cached, of which the Store serves nothing, is not found. -/
theorem lookup_of_unserved {s : Shard} {now : ℤ} {r : RateLimitReq}
    (hc : s.cache.peek r.hashKey = none) (hget : s.store.bind (fun st => st.get r now) = none) :
    (s.lookup now r).1 = none := by
  have hg := @Cache.getItem_of_none _ _ now hc
  unfold lookup
  rcases h : s.cache.getItem r.hashKey now with ⟨hit, c⟩
  rw [h] at hg
  obtain rfl : hit = none := hg
  simp [hget]

/-- A key neither cached nor stored is not found. -/
theorem lookup_of_absent {s : Shard} {now : ℤ} {r : RateLimitReq}
    (hc : s.cache.peek r.hashKey = none) (hs : s.stored r.hashKey = none) :
    (s.lookup now r).1 = none := by
  refine lookup_of_unserved hc ?_
  cases hst : s.store with
  | none => rfl
  | some st =>
    have hnone : st.items r.hashKey = none := by simpa [stored, hst] using hs
    simp [Store.get, hnone]

/-- The item found, with its new contents, is the cache's entry of the key after an update. -/
theorem peek_update_found {s : Shard} {now : ℤ} {r : RateLimitReq} {item : CacheItem}
    {v : Bucket} (hfind : s.find now r = some (item, v)) {item' : CacheItem}
    (hkey : item'.key = item.key) (isOwner : Bool) :
    ((s.lookup now r).2.update isOwner item').cache.peek r.hashKey = some item' := by
  obtain ⟨hitem, -, hk⟩ := find_key hfind
  have hpeek := peek_lookup hitem hk
  rw [← hk, ← hkey] at hpeek ⊢
  exact Cache.peek_write_self hpeek

/-- A lookup does not change what is stored. -/
@[simp] theorem stored_lookup (s : Shard) (now : ℤ) (r : RateLimitReq) (key : String) :
    (s.lookup now r).2.stored key = s.stored key := by
  unfold lookup stored
  split
  · rfl
  · split <;> rfl

end Shard

end Gubernator
