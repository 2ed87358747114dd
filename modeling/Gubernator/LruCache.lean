/-
  The LRU cache as it is built (`lrucache.go`): a hash map from keys to the elements of a doubly
  linked list, and a stored length beside them.

  The bucket algorithms are modelled over `Cache`, one list of items.  Here that list is shown to
  be what `LRUCache` holds, and to be an LRU map with expiry in the sense of `Lru`:

      LRUCache  --items-->  Cache  --Listed-->  Lru.State

  Map and list stay linked under every operation (`Linked`), every operation of `LRUCache` is the
  operation of `Cache` on the items (`items_*`), and every operation of `Cache` is a step of the
  LRU map (`Cache.*_step`).  Metrics are left out; the clock is an input of `GetItem`.

  The two arrows are of different kinds.  The first is an equality: `items` of a linked cache IS the
  list of `Cache`, before and after every operation, and the answers are the same.  It is where the
  pointers are dealt with, and once it is there nobody looks at an element again.  The second is a
  simulation: the abstract map knows entries and an order of last use, and has no list to cut the
  last item off; what `Add` drops there is the entry that nobody has used for longest.
-/
import Mathlib.Data.List.AList
import Gubernator.Lib.LinkedList
import Gubernator.Lib.Lru
import Gubernator.Lib.Machine
import Gubernator.Cache

namespace Gubernator

/-! ## The cache

The operations as the Go code has them, on a map and a list that know nothing of each other. -/

/-- `cache` maps a key to the element of the list that holds its item, by the element's number. -/
structure LRUCache where
  cache : AList (fun _ : String => ℕ)
  ll : LinkedList CacheItem
  cacheSize : ℕ
  cacheLen : ℤ

namespace LRUCache

/-- A size of zero asks for the default. -/
def new (maxSize : ℕ) : LRUCache where
  cache := ∅
  ll := .empty
  cacheSize := if maxSize = 0 then 50000 else maxSize
  cacheLen := 0

/-- An element that is not in the list has no value to take the key from, and nothing happens. -/
def removeElement (c : LRUCache) (e : ℕ) : LRUCache :=
  match c.ll.value e with
  | some kv =>
    { c with
      ll := c.ll.remove e
      cache := c.cache.erase kv.key
      cacheLen := (c.ll.remove e).len }
  | none => c

/-- The back of the list. -/
def removeOldest (c : LRUCache) : LRUCache :=
  match c.ll.back with
  | some ele => c.removeElement ele
  | none => c

/-- An item of a known key takes the place of the old one, in front. A new one is pushed to the
    front, and if the list has become longer than the size, its back goes. -/
def add (c : LRUCache) (item : CacheItem) : Bool × LRUCache :=
  match c.cache.lookup item.key with
  | some ee => (true, { c with ll := (c.ll.moveToFront ee).setValue ee item })
  | none =>
    let (ele, ll) := c.ll.pushFront item
    -- the element is in the list and in the map before the length is looked at
    let c₁ := { c with ll := ll, cache := c.cache.insert item.key ele }
    let c₂ := if c₁.cacheSize ≠ 0 ∧ c₁.cacheSize < c₁.ll.len then c₁.removeOldest else c₁
    (false, { c₂ with cacheLen := c₂.ll.len })

/-- An expired item is removed when it is looked up, and only then. -/
def getItem (c : LRUCache) (key : String) (now : ℤ) : Option CacheItem × LRUCache :=
  match c.cache.lookup key with
  | some ele =>
    match c.ll.value ele with
    | some entry =>
      if entry.isExpired now then (none, c.removeElement ele)
      else (some entry, { c with ll := c.ll.moveToFront ele })
    | none => (none, c)
  | none => (none, c)

/-- `Remove`. -/
def remove (c : LRUCache) (key : String) : LRUCache :=
  match c.cache.lookup key with
  | some ele => c.removeElement ele
  | none => c

/-- `Size`, by the counter that is kept beside the list. -/
def size (c : LRUCache) : ℤ := c.cacheLen

/-- The item is changed where it is, and stays where it is in the order. -/
def updateExpiration (c : LRUCache) (key : String) (expireAt : ℤ) : Bool × LRUCache :=
  match c.cache.lookup key with
  | some ele =>
    match c.ll.value ele with
    | some entry => (true, { c with ll := c.ll.setValue ele { entry with expireAt := expireAt } })
    | none => (false, c)
  | none => (false, c)

/-- The items, most recently used first. -/
def items (c : LRUCache) : List CacheItem := c.ll.values

/-- The list the bucket algorithms see. -/
def toCache (c : LRUCache) : Cache := ⟨c.cacheSize, c.items⟩

end LRUCache

/-- `UpdateExpiration` on the list of items. -/
def Cache.updateExpiration (c : Cache) (key : String) (expireAt : ℤ) : Cache :=
  match c.peek key with
  | some entry => c.write { entry with expireAt := expireAt }
  | none => c

/-! ## Map and list

The code keeps one fact in two places: that a key is cached, in the map and in the list.  `Linked`
says that they agree, and from it follows that what the map finds is what a search of the list
would. -/

/-- **Map and list are linked**: no key is twice in the list, a key of the map points to the
    element that holds its item, every item is pointed to, and the stored length is right. -/
structure LRUCache.Linked (c : LRUCache) : Prop where
  nodup : (c.items.map CacheItem.key).Nodup
  pointer : ∀ k e, c.cache.lookup k = some e ↔ ∃ item, c.ll.value e = some item ∧ item.key = k
  len : c.size = c.items.length

namespace LRUCache

variable {c : LRUCache}

/-- Both are empty. -/
theorem linked_new (n : ℕ) : (new n).Linked := by
  refine ⟨List.nodup_nil, ?_, rfl⟩
  intro k e
  constructor
  · intro h
    cases h
  · rintro ⟨item, hitem, -⟩
    exact absurd (LinkedList.value_eq_some.mp hitem) List.not_mem_nil

/-- What the map finds is the item of the key. -/
theorem Linked.lookup_some (h : c.Linked) {k : String} {e : ℕ} (hk : c.cache.lookup k = some e) :
    ∃ item, c.ll.value e = some item ∧ item.key = k ∧ c.toCache.peek k = some item := by
  obtain ⟨item, hitem, rfl⟩ := (h.pointer k e).mp hk
  refine ⟨item, hitem, rfl, ?_⟩
  have hmem : item ∈ c.items := LinkedList.mem_values.mpr ⟨e, hitem⟩
  cases hp : c.toCache.peek item.key with
  | none =>
    have := List.find?_eq_none.mp hp item hmem
    simp at this
  | some found =>
    rw [List.inj_on_of_nodup_map h.nodup (List.mem_of_find?_eq_some hp) hmem (Cache.peek_key hp)]

/-- What the map does not find is not in the list. -/
theorem Linked.lookup_none (h : c.Linked) {k : String} (hk : c.cache.lookup k = none) :
    c.toCache.peek k = none := by
  refine List.find?_eq_none.mpr (fun item hmem hkey => ?_)
  obtain ⟨e, he⟩ := LinkedList.mem_values.mp hmem
  have := (h.pointer k e).mpr ⟨item, he, by simpa using hkey⟩
  rw [hk] at this
  cases this

/-- Map and list hold the same keys. -/
theorem Linked.keys_perm (h : c.Linked) : c.cache.keys.Perm (c.items.map CacheItem.key) := by
  refine (List.perm_ext_iff_of_nodup c.cache.keys_nodup h.nodup).mpr (fun k => ?_)
  rw [← AList.mem_keys, ← AList.lookup_isSome, Option.isSome_iff_exists, List.mem_map]
  constructor
  · rintro ⟨e, he⟩
    obtain ⟨item, hitem, hkey⟩ := (h.pointer k e).mp he
    exact ⟨item, LinkedList.mem_values.mpr ⟨e, hitem⟩, hkey⟩
  · rintro ⟨item, hmem, hkey⟩
    obtain ⟨e, he⟩ := LinkedList.mem_values.mp hmem
    exact ⟨e, (h.pointer k e).mpr ⟨item, he, hkey⟩⟩

/-- Two elements with items of one key are one element. -/
theorem Linked.element_unique (h : c.Linked) {e e' : ℕ} {item item' : CacheItem}
    (he : c.ll.value e = some item) (he' : c.ll.value e' = some item')
    (hkey : item'.key = item.key) : e' = e := by
  have h₁ := (h.pointer item.key e).mpr ⟨item, he, rfl⟩
  have h₂ := (h.pointer item.key e').mpr ⟨item', he', hkey⟩
  exact Option.some.inj (h₂.symm.trans h₁)

/-- `Cache.remove` in the form in which the library states it. -/
theorem remove_items (c : Cache) (key : String) :
    (c.remove key).items = c.items.filter (fun i => decide (i.key ≠ key)) := by
  refine List.filter_congr (fun i _ => ?_)
  rw [Bool.eq_iff_iff]
  simp

/-- **Taking out an element** takes the item of its key out of the list, and the key out of the map.
    -/
theorem items_removeElement (h : c.Linked) {e : ℕ} {item : CacheItem}
    (he : c.ll.value e = some item) :
    (c.removeElement e).toCache = c.toCache.remove item.key ∧ (c.removeElement e).Linked := by
  have hvalues := LinkedList.values_remove h.nodup he
  have hremove : c.removeElement e = { c with
      ll := c.ll.remove e, cache := c.cache.erase item.key
      cacheLen := (c.ll.remove e).len } := by
    simp only [removeElement, he]
  rw [hremove]
  constructor
  · simp only [toCache, items, hvalues]
    exact congrArg (Cache.mk c.cacheSize) (remove_items c.toCache item.key).symm
  · constructor
    · show ((c.ll.remove e).values.map CacheItem.key).Nodup
      rw [hvalues]
      exact (List.filter_sublist.map _).nodup h.nodup
    · intro k e'
      show (c.cache.erase item.key).lookup k = some e' ↔
        ∃ i, (c.ll.remove e).value e' = some i ∧ i.key = k
      simp only [LinkedList.value_remove]
      -- the key that goes, and the others
      by_cases hk : k = item.key
      · subst hk
        rw [AList.lookup_erase]
        constructor
        · intro hnone
          cases hnone
        · rintro ⟨i, ⟨hne, hi⟩, hkey⟩
          -- no other element has an item of that key
          exact absurd (h.element_unique he hi hkey) hne
      · rw [AList.lookup_erase_ne hk, h.pointer]
        constructor
        · rintro ⟨i, hi, hkey⟩
          refine ⟨i, ⟨fun heq => ?_, hi⟩, hkey⟩
          subst heq
          rw [he] at hi
          obtain rfl := Option.some.inj hi
          exact hk hkey.symm
        · rintro ⟨i, ⟨-, hi⟩, hkey⟩
          exact ⟨i, hi, hkey⟩
    · show ((c.ll.remove e).len : ℤ) = (c.ll.remove e).values.length
      rw [LinkedList.len_eq]

/-- Elements moved, and items changed for others of their key: the links stay. -/
theorem Linked.relist (h : c.Linked) {ll : LinkedList CacheItem}
    (hperm : (ll.values.map CacheItem.key).Perm (c.items.map CacheItem.key))
    (hvalue : ∀ k e, (∃ item, ll.value e = some item ∧ item.key = k) ↔
      ∃ item, c.ll.value e = some item ∧ item.key = k) : { c with ll := ll }.Linked := by
  constructor
  · exact hperm.nodup_iff.mpr h.nodup
  · intro k e
    exact (h.pointer k e).trans (hvalue k e).symm
  · have hlen := hperm.length_eq
    simp only [List.length_map] at hlen
    show c.size = (ll.values.length : ℤ)
    rw [h.len, hlen]

/-- An item changed for one of its key keeps the keys of all elements. -/
theorem value_setValue_key {ll : LinkedList CacheItem} {e : ℕ} {old item : CacheItem}
    (he : ll.value e = some old) (hkey : item.key = old.key) (k : String) (e' : ℕ) :
    (∃ i, (ll.setValue e item).value e' = some i ∧ i.key = k) ↔
      ∃ i, ll.value e' = some i ∧ i.key = k := by
  simp only [LinkedList.value_setValue he]
  constructor
  · rintro ⟨i, ⟨rfl, rfl⟩ | ⟨-, hi⟩, rfl⟩
    · exact ⟨old, he, hkey.symm⟩
    · exact ⟨i, hi, rfl⟩
  · rintro ⟨i, hi, rfl⟩
    by_cases heq : e' = e
    · subst heq
      rw [he] at hi
      obtain rfl := Option.some.inj hi
      exact ⟨item, .inl ⟨rfl, rfl⟩, hkey⟩
    · exact ⟨i, .inr ⟨heq, hi⟩, rfl⟩

/-- **To the front**: the items are permuted, so the links stay. -/
theorem items_moveToFront (h : c.Linked) {e : ℕ} {item : CacheItem}
    (he : c.ll.value e = some item) :
    { c with ll := c.ll.moveToFront e }.items = item :: (c.toCache.remove item.key).items ∧
      { c with ll := c.ll.moveToFront e }.Linked := by
  constructor
  · rw [remove_items]
    exact LinkedList.values_moveToFront h.nodup he
  · refine h.relist ((LinkedList.perm_moveToFront he).map _) (fun k e' => ?_)
    simp only [LinkedList.value_moveToFront he]

/-! ## Every operation, on the items

One theorem per operation: same answer, same items, still linked. -/

/-- `GetItem`: nothing found, found and expired, or found and moved to the front. -/
theorem items_getItem (h : c.Linked) (key : String) (now : ℤ) :
    (c.getItem key now).1 = (c.toCache.getItem key now).1 ∧
      (c.getItem key now).2.toCache = (c.toCache.getItem key now).2 ∧
      (c.getItem key now).2.Linked := by
  unfold getItem Cache.getItem
  cases hk : c.cache.lookup key with
  | none =>
    simp only [h.lookup_none hk]
    exact ⟨trivial, trivial, h⟩
  | some e =>
    obtain ⟨item, hitem, rfl, hpeek⟩ := h.lookup_some hk
    simp only [hitem, hpeek]
    by_cases hx : item.isExpired now = true
    · simp only [hx, if_true]
      exact ⟨trivial, items_removeElement h hitem⟩
    · simp only [hx]
      obtain ⟨hitems, hlinked⟩ := items_moveToFront h hitem
      exact ⟨rfl, congrArg (Cache.mk c.cacheSize) hitems, hlinked⟩

/-- `Remove`; a key that is not cached is nowhere in the list. -/
theorem items_remove (h : c.Linked) (key : String) :
    (c.remove key).toCache = c.toCache.remove key ∧ (c.remove key).Linked := by
  unfold remove
  cases hk : c.cache.lookup key with
  | none =>
    refine ⟨congrArg (Cache.mk c.cacheSize) ?_, h⟩
    show c.items = (c.toCache.remove key).items
    rw [remove_items]
    refine (List.filter_eq_self.mpr (fun i hi => ?_)).symm
    have := List.find?_eq_none.mp (h.lookup_none hk) i hi
    simpa using this
  | some e =>
    obtain ⟨item, hitem, rfl, -⟩ := h.lookup_some hk
    exact items_removeElement h hitem

/-- `UpdateExpiration` writes the item of the key, and no other. -/
theorem items_updateExpiration (h : c.Linked) (key : String) (expireAt : ℤ) :
    (c.updateExpiration key expireAt).1 = (c.toCache.peek key).isSome ∧
      (c.updateExpiration key expireAt).2.toCache = c.toCache.updateExpiration key expireAt ∧
      (c.updateExpiration key expireAt).2.Linked := by
  unfold updateExpiration Cache.updateExpiration
  cases hk : c.cache.lookup key with
  | none =>
    simp only [h.lookup_none hk]
    exact ⟨rfl, trivial, h⟩
  | some e =>
    obtain ⟨item, hitem, rfl, hpeek⟩ := h.lookup_some hk
    simp only [hitem, hpeek]
    have hkey : ({ item with expireAt := expireAt } : CacheItem).key = item.key := rfl
    refine ⟨rfl, congrArg (Cache.mk c.cacheSize) ?_, h.relist ?_ (fun k e' => ?_)⟩
    · refine (LinkedList.values_setValue h.nodup hitem _).trans ?_
      refine List.map_congr_left (fun i _ => ?_)
      simp only [beq_iff_eq]
    · rw [LinkedList.map_setValue h.nodup hitem hkey]
      exact List.Perm.refl _
    · exact value_setValue_key hitem hkey k e'

/-- Taking out the oldest item drops the last of the list, and writes the stored length again. -/
theorem items_removeOldest (h : c.Linked) {init : List CacheItem} {last : CacheItem}
    (hlast : c.items = init ++ [last]) (n : ℤ) :
    { c with cacheLen := n }.removeOldest.toCache = ⟨c.cacheSize, init⟩ ∧
      { c with cacheLen := n }.removeOldest.Linked := by
  obtain ⟨e, hback, hvalue⟩ := LinkedList.back_eq hlast
  have hsame : { c with cacheLen := n }.removeOldest = c.removeElement e := by
    simp only [removeOldest, removeElement, hback, hvalue]
  rw [hsame]
  obtain ⟨hcache, hlinked⟩ := items_removeElement h hvalue
  refine ⟨hcache.trans (congrArg (Cache.mk c.cacheSize) ?_), hlinked⟩
  have hnodup := h.nodup
  rw [hlast] at hnodup
  show (c.toCache.remove last.key).items = init
  rw [remove_items, show c.toCache.items = init ++ [last] from hlast]
  exact Lru.filter_last hnodup

/-- A new key in front of the list, before its length is looked at. -/
theorem linked_pushFront (h : c.Linked) {item : CacheItem}
    (hk : c.cache.lookup item.key = none) :
    Linked { c with
      ll := (c.ll.pushFront item).2
      cache := c.cache.insert item.key (c.ll.pushFront item).1
      cacheLen := (c.ll.pushFront item).2.len } := by
  -- a new element is none of those in the list
  have hfresh : ∀ i, c.ll.value c.ll.fresh ≠ some i := by
    intro i hi
    have := c.ll.lt_fresh _ (LinkedList.value_eq_some.mp hi)
    exact lt_irrefl _ this
  constructor
  · -- the key was not in the map, so it is not in the list
    show (item.key :: c.items.map CacheItem.key).Nodup
    refine List.nodup_cons.mpr ⟨fun hmem => ?_, h.nodup⟩
    obtain ⟨i, hi, hkey⟩ := List.mem_map.mp hmem
    have := List.find?_eq_none.mp (h.lookup_none hk) i hi
    simp [hkey] at this
  · intro k e
    show (c.cache.insert item.key c.ll.fresh).lookup k = some e ↔
      ∃ i, (c.ll.pushFront item).2.value e = some i ∧ i.key = k
    simp only [LinkedList.value_pushFront]
    by_cases hkey : k = item.key
    · subst hkey
      rw [AList.lookup_insert]
      constructor
      · intro he
        exact ⟨item, .inl ⟨(Option.some.inj he).symm, rfl⟩, rfl⟩
      · rintro ⟨i, ⟨rfl, rfl⟩ | hi, hik⟩
        · rfl
        · have := (h.pointer item.key e).mpr ⟨i, hi, hik⟩
          rw [hk] at this
          cases this
    · rw [AList.lookup_insert_ne hkey, h.pointer]
      constructor
      · rintro ⟨i, hi, hik⟩
        exact ⟨i, .inr hi, hik⟩
      · rintro ⟨i, ⟨rfl, rfl⟩ | hi, hik⟩
        · exact absurd hik.symm hkey
        · exact ⟨i, hi, hik⟩
  · show (((c.ll.pushFront item).2.len : ℕ) : ℤ) = (c.ll.pushFront item).2.values.length
    rw [LinkedList.len_eq]

/-- **`Add`**, which is the longest: the item is replaced, or pushed and perhaps paid for with the
    oldest. -/
theorem items_add (h : c.Linked) (item : CacheItem) :
    (c.add item).1 = (c.toCache.peek item.key).isSome ∧
      (c.add item).2.toCache = c.toCache.add item ∧ (c.add item).2.Linked := by
  unfold add Cache.add
  cases hk : c.cache.lookup item.key with
  | some e =>
    -- a known key: its element goes to the front and gets the new item
    obtain ⟨old, hold, hkey, hpeek⟩ := h.lookup_some hk
    simp only [hpeek]
    obtain ⟨hitems, hlinked⟩ := items_moveToFront h hold
    have hmoved : (c.ll.moveToFront e).value e = some old :=
      (LinkedList.value_moveToFront hold).mpr hold
    refine ⟨rfl, congrArg (Cache.mk c.cacheSize) ?_, ?_⟩
    · refine (LinkedList.values_setValue hlinked.nodup hmoved item).trans ?_
      have hvalues : (c.ll.moveToFront e).values = old :: (c.toCache.remove old.key).items := hitems
      rw [hvalues, List.map_cons, if_pos rfl, ← hkey]
      refine congrArg (List.cons item) ((List.map_congr_left (fun i hi => ?_)).trans
        (List.map_id _))
      -- no other item has the key
      have hne : i.key ≠ old.key := by simpa [Cache.remove] using (List.mem_filter.mp hi).2
      exact if_neg hne
    · refine hlinked.relist ?_ (fun k e' => value_setValue_key hmoved hkey.symm k e')
      rw [LinkedList.map_setValue hlinked.nodup hmoved hkey.symm]
      exact List.Perm.refl _
  | none =>
    simp only [h.lookup_none hk]
    -- a new key; `Cache.add` compares the length of the same list
    have hlinked := linked_pushFront h hk
    have hlen : (c.ll.pushFront item).2.len = (item :: c.toCache.items).length :=
      LinkedList.len_eq _
    by_cases hfull : c.toCache.cacheSize ≠ 0 ∧
      c.toCache.cacheSize < (item :: c.toCache.items).length
    swap
    · rw [if_neg hfull, if_neg (show ¬ (c.cacheSize ≠ 0 ∧
        c.cacheSize < (c.ll.pushFront item).2.len) by rwa [hlen])]
      exact ⟨rfl, rfl, hlinked⟩
    · -- the list is longer than the capacity: its last item goes
      rw [if_pos hfull, if_pos (show c.cacheSize ≠ 0 ∧
        c.cacheSize < (c.ll.pushFront item).2.len by rwa [hlen])]
      have hlast : item :: c.items =
          (item :: c.items).dropLast ++ [(item :: c.items).getLast (List.cons_ne_nil _ _)] :=
        (List.dropLast_append_getLast _).symm
      obtain ⟨hcache, hlinked'⟩ := items_removeOldest hlinked hlast c.cacheLen
      refine ⟨rfl, hcache, hlinked'.nodup, hlinked'.pointer, ?_⟩
      exact congrArg Nat.cast (LinkedList.len_eq _)

end LRUCache

/-! ## The list of items as an LRU map

The list has the items in the order of their last use.  So to put an item in front and filter the
rest is to use its key now, and to drop the last is to drop the oldest. -/

namespace Cache

variable {c : Cache} {a : Lru.State String CacheItem}

/-- An item that `GetItem` drops. -/
def Expired (item : CacheItem) (now : ℤ) : Prop := item.isExpired now = true

/-- A search of the list finds the entry of the map. -/
theorem peek_listed (h : Lru.Listed CacheItem.key c.items a) (key : String) :
    c.peek key = a.entry key := by
  cases hp : c.peek key with
  | some item =>
    exact ((h.entry key item).mpr ⟨List.mem_of_find?_eq_some hp, peek_key hp⟩).symm
  | none =>
    cases he : a.entry key with
    | none => rfl
    | some item =>
      obtain ⟨hmem, hkey⟩ := (h.entry key item).mp he
      have := List.find?_eq_none.mp hp item hmem
      simp [hkey] at this

/-- What is found is a key of the map. -/
theorem mem_keys_of_peek (h : Lru.Listed CacheItem.key c.items a) {key : String} {item : CacheItem}
    (hp : c.peek key = some item) : key ∈ a.keys := by
  show a.entry key ≠ none
  rw [← peek_listed h, hp]
  simp

/-- What is not found is no key of the map. -/
theorem not_mem_keys_of_peek (h : Lru.Listed CacheItem.key c.items a) {key : String}
    (hp : c.peek key = none) : key ∉ a.keys := by
  intro hmem
  exact hmem ((peek_listed h key).symm.trans hp)

/-- No operation changes the size asked for. -/
@[simp] theorem add_cacheSize (c : Cache) (item : CacheItem) :
    (c.add item).cacheSize = c.cacheSize := by
  unfold add
  repeat' split
  all_goals rfl

/-- `GetItem` leaves the capacity. -/
@[simp] theorem getItem_cacheSize (c : Cache) (key : String) (now : ℤ) :
    (c.getItem key now).2.cacheSize = c.cacheSize := by
  unfold getItem
  repeat' split
  all_goals rfl

/-- `UpdateExpiration` leaves the capacity. -/
@[simp] theorem updateExpiration_cacheSize (c : Cache) (key : String) (expireAt : ℤ) :
    (c.updateExpiration key expireAt).cacheSize = c.cacheSize := by
  unfold updateExpiration
  split <;> rfl

/-- A key that is not cached is not filtered out. -/
theorem filter_of_peek_none {items : List CacheItem} {key : String}
    (hsub : ∀ i ∈ items, i ∈ c.items) (hp : c.peek key = none) :
    items.filter (fun i => decide (i.key ≠ key)) = items := by
  refine List.filter_eq_self.mpr (fun i hi => ?_)
  have := List.find?_eq_none.mp hp i (hsub i hi)
  simpa using this

/-- **`Add` is a step of the LRU map**: a key replaced, a key inserted where there was room, or a
    key inserted for the oldest. A cache within its size stays so. -/
theorem add_step (h : Lru.Listed CacheItem.key c.items a) (hcap : 1 ≤ c.cacheSize)
    (hbound : c.items.length ≤ c.cacheSize) (item : CacheItem) :
    ∃ a', Lru.Step Expired c.cacheSize a (.add item.key item)
        (.existed (c.peek item.key).isSome) a' ∧
      Lru.Listed CacheItem.key (c.add item).items a' ∧
      (c.add item).items.length ≤ c.cacheSize := by
  unfold add
  cases hp : c.peek item.key with
  | some old =>
    -- replaced: as many entries as before
    have hheld := mem_keys_of_peek h hp
    have hput := h.put item
    rw [← LRUCache.remove_items] at hput
    refine ⟨_, .replaced hheld, hput, ?_⟩
    rw [← hput.size, Lru.size_put_of_mem hheld, h.size]
    exact hbound
  | none =>
    have habsent := not_mem_keys_of_peek h hp
    by_cases hfull : c.cacheSize ≠ 0 ∧ c.cacheSize < (item :: c.items).length
    swap
    · -- there was room for one more
      have hroom : c.items.length < c.cacheSize := by
        by_contra hge
        exact hfull ⟨by omega, by simp only [List.length_cons]; omega⟩
      have hput := h.put item
      rw [filter_of_peek_none (fun i hi => hi) hp] at hput
      refine ⟨_, .inserted habsent (by rwa [h.size]), ?_, ?_⟩
      · simpa only [if_neg hfull] using hput
      · simp only [if_neg hfull]
        exact hroom
    · -- the cache was exactly full, since it was within its size
      have heq : c.items.length = c.cacheSize := by
        have := hfull.2
        simp only [List.length_cons] at this
        omega
      -- the items are not empty, and the last of them is the oldest
      have hne : c.items ≠ [] := List.ne_nil_of_length_pos (by omega)
      obtain ⟨init, last, hlast⟩ : ∃ init last, c.items = init ++ [last] :=
        ⟨_, _, (List.dropLast_append_getLast hne).symm⟩
      have hold := h
      rw [hlast] at hold
      have herase := hold.erase last.key
      rw [Lru.filter_last hold.nodup] at herase
      have hput := herase.put item
      rw [filter_of_peek_none (fun i hi => by rw [hlast]; exact List.mem_append_left _ hi) hp]
        at hput
      refine ⟨_, .evicted habsent (h.size.trans heq) hold.oldest, ?_, ?_⟩
      · have hdrop : (item :: c.items).dropLast = item :: init := by
          rw [hlast, List.dropLast_cons_of_ne_nil (by simp), List.dropLast_concat]
        simp only [if_pos hfull, hdrop]
        exact hput
      · simp only [if_pos hfull]
        rw [List.length_dropLast]
        exact hbound

/-- **`GetItem` is a step of the LRU map**: a miss, an entry found expired and erased, or a hit. -/
theorem getItem_step (h : Lru.Listed CacheItem.key c.items a) (n : ℕ) (key : String) (now : ℤ) :
    ∃ a', Lru.Step Expired n a (.get key now) (.found (c.getItem key now).1) a' ∧
      Lru.Listed CacheItem.key (c.getItem key now).2.items a' ∧
      (c.getItem key now).2.items.length ≤ c.items.length := by
  unfold getItem
  cases hp : c.peek key with
  | none => exact ⟨a, .missed (not_mem_keys_of_peek h hp), h, le_rfl⟩
  | some item =>
    have hkey := peek_key hp
    have hentry : a.entry key = some item := by rw [← peek_listed h, hp]
    dsimp only
    by_cases hx : item.isExpired now = true
    · rw [if_pos hx]
      have herase := h.erase key
      rw [← LRUCache.remove_items] at herase
      exact ⟨_, .expired hentry hx, herase, List.length_filter_le _ _⟩
    · rw [if_neg hx]
      have hput := h.put item
      rw [← LRUCache.remove_items, hkey] at hput
      refine ⟨_, .hit hentry hx, hput, ?_⟩
      rw [← hput.size, Lru.size_put_of_mem (mem_keys_of_peek h hp), h.size]

/-- **`Remove`** erases an entry, if there is one. -/
theorem remove_step (h : Lru.Listed CacheItem.key c.items a) (n : ℕ) (key : String) :
    ∃ a', Lru.Step Expired n a (.remove key : Lru.Op String CacheItem ℤ) .done a' ∧
      Lru.Listed CacheItem.key (c.remove key).items a' ∧
      (c.remove key).items.length ≤ c.items.length := by
  have herase := h.erase key
  rw [← LRUCache.remove_items] at herase
  exact ⟨_, .removed, herase, List.length_filter_le _ _⟩

/-- **`UpdateExpiration`** modifies an entry in its place. -/
theorem updateExpiration_step (h : Lru.Listed CacheItem.key c.items a) (n : ℕ) (key : String)
    (expireAt : ℤ) :
    ∃ a', Lru.Step Expired n a
        (.update key (fun i => { i with expireAt := expireAt }) : Lru.Op String CacheItem ℤ)
        (.existed (c.peek key).isSome) a' ∧
      Lru.Listed CacheItem.key (c.updateExpiration key expireAt).items a' ∧
      (c.updateExpiration key expireAt).items.length ≤ c.items.length := by
  unfold updateExpiration
  cases hp : c.peek key with
  | none => exact ⟨a, .ignored (not_mem_keys_of_peek h hp), h, le_rfl⟩
  | some item =>
    obtain rfl := peek_key hp
    have hmodify := h.modify item.key (f := fun i => { i with expireAt := expireAt })
      (fun _ => rfl)
    refine ⟨_, .updated (mem_keys_of_peek h hp), ?_, by simp [write]⟩
    have hwrite : (c.write { item with expireAt := expireAt }).items =
        c.items.map (fun i => if i.key = item.key then { i with expireAt := expireAt } else i) := by
      refine List.map_congr_left (fun i hi => ?_)
      simp only [beq_iff_eq]
      by_cases hkey : i.key = item.key
      · -- the one item of the key
        rw [if_pos hkey, if_pos hkey, List.inj_on_of_nodup_map h.nodup hi
          (List.mem_of_find?_eq_some hp) hkey]
      · rw [if_neg hkey, if_neg hkey]
    dsimp only
    rw [hwrite]
    exact hmodify

end Cache

/-! ## Runs

The induction is over the operations, with the abstract map as the state that is carried along. -/

/-- The operations of the `Cache` interface that touch an item. -/
inductive CacheOp where
  | add (item : CacheItem)
  | getItem (key : String) (now : ℤ)
  | remove (key : String)
  | updateExpiration (key : String) (expireAt : ℤ)

/-- An operation with what it answers. -/
def LRUCache.step (c : LRUCache) : CacheOp → Lru.Answer CacheItem × LRUCache
  | .add item => (.existed (c.add item).1, (c.add item).2)
  | .getItem key now => (.found (c.getItem key now).1, (c.getItem key now).2)
  | .remove key => (.done, c.remove key)
  | .updateExpiration key expireAt =>
    (.existed (c.updateExpiration key expireAt).1, (c.updateExpiration key expireAt).2)

/-- What an operation asks of an LRU map. -/
def CacheOp.op : CacheOp → Lru.Op String CacheItem ℤ
  | .add item => .add item.key item
  | .getItem key now => .get key now
  | .remove key => .remove key
  | .updateExpiration key expireAt => .update key (fun i => { i with expireAt := expireAt })

/-- The cache holds the LRU map `a`, of at most `n` entries. -/
structure LRUCache.Holds (n : ℕ) (c : LRUCache) (a : Lru.State String CacheItem) : Prop where
  linked : c.Linked
  capacity : c.cacheSize = n
  bound : c.items.length ≤ n
  listed : Lru.Listed CacheItem.key c.items a

/-- A new cache holds the empty map. -/
theorem LRUCache.holds_new {n : ℕ} (hn : 1 ≤ n) : (LRUCache.new n).Holds n Lru.empty :=
  ⟨linked_new n, if_neg (by omega), Nat.zero_le n, Lru.listed_empty⟩

/-- **Every operation is a step of the LRU map.** -/
theorem LRUCache.Holds.step {n : ℕ} (hn : 1 ≤ n) {c : LRUCache} {a : Lru.State String CacheItem}
    (h : c.Holds n a) (o : CacheOp) :
    ∃ a', Lru.Step Cache.Expired n a o.op (c.step o).1 a' ∧ (c.step o).2.Holds n a' := by
  have hbound : c.toCache.items.length ≤ n := h.bound
  cases o with
  | add item =>
    -- in each case: what the operation does to the items, and which step of the map that is
    obtain ⟨hanswer, hcache, hlinked⟩ := items_add h.linked item
    obtain ⟨a', hstep, hlisted, hlen⟩ := Cache.add_step (c := c.toCache) h.listed
      (show 1 ≤ c.cacheSize by rw [h.capacity]; exact hn)
      (show c.items.length ≤ c.cacheSize by rw [h.capacity]; exact h.bound) item
    have hsize : (c.add item).2.cacheSize = c.cacheSize := by
      have := congrArg Cache.cacheSize hcache
      rw [Cache.add_cacheSize] at this
      exact this
    rw [← hcache] at hlisted hlen
    refine ⟨a', ?_, hlinked, hsize.trans h.capacity, ?_, hlisted⟩
    · rw [show (c.step (.add item)).1 = .existed (c.add item).1 from rfl, hanswer, ← h.capacity]
      exact hstep
    · exact hlen.trans_eq h.capacity
  | getItem key now =>
    obtain ⟨hanswer, hcache, hlinked⟩ := items_getItem h.linked key now
    obtain ⟨a', hstep, hlisted, hlen⟩ := Cache.getItem_step (c := c.toCache) h.listed n key now
    have hsize : (c.getItem key now).2.cacheSize = c.cacheSize := by
      have := congrArg Cache.cacheSize hcache
      rw [Cache.getItem_cacheSize] at this
      exact this
    rw [← hcache] at hlisted hlen
    refine ⟨a', ?_, hlinked, hsize.trans h.capacity, hlen.trans hbound, hlisted⟩
    rw [show (c.step (.getItem key now)).1 = .found (c.getItem key now).1 from rfl, hanswer]
    exact hstep
  | remove key =>
    obtain ⟨hcache, hlinked⟩ := items_remove h.linked key
    obtain ⟨a', hstep, hlisted, hlen⟩ := Cache.remove_step (c := c.toCache) h.listed n key
    have hsize : (c.remove key).cacheSize = c.cacheSize := congrArg Cache.cacheSize hcache
    rw [← hcache] at hlisted hlen
    exact ⟨a', hstep, hlinked, hsize.trans h.capacity, hlen.trans hbound, hlisted⟩
  | updateExpiration key expireAt =>
    obtain ⟨hanswer, hcache, hlinked⟩ := items_updateExpiration h.linked key expireAt
    obtain ⟨a', hstep, hlisted, hlen⟩ :=
      Cache.updateExpiration_step (c := c.toCache) h.listed n key expireAt
    have hsize : (c.updateExpiration key expireAt).2.cacheSize = c.cacheSize := by
      have := congrArg Cache.cacheSize hcache
      rw [Cache.updateExpiration_cacheSize] at this
      exact this
    rw [← hcache] at hlisted hlen
    refine ⟨a', ?_, hlinked, hsize.trans h.capacity, hlen.trans hbound, hlisted⟩
    rw [show (c.step (.updateExpiration key expireAt)).1 =
      .existed (c.updateExpiration key expireAt).1 from rfl, hanswer]
    exact hstep

/-- **The LRU cache is an LRU map with expiry.**  After every run on a fresh cache of capacity
    `n`: map and list hold the same keys, each once, and each entry of the map points to the
    element of its own key; their number is at most `n` and is `Size()`; and the answers and the
    items, most recently used first, are those of a run of the LRU map. -/
theorem lruCache_refines_lru (n : ℕ) (hn : 1 ≤ n) (ops : List CacheOp) :
    let c := Machine.exec LRUCache.step (LRUCache.new n) ops
    c.cache.keys.Perm (c.items.map CacheItem.key) ∧ (c.items.map CacheItem.key).Nodup ∧
    (∀ key e, c.cache.lookup key = some e → ∃ item, c.ll.value e = some item ∧ item.key = key) ∧
    c.items.length ≤ n ∧ c.size = c.items.length ∧
    ∃ a, Lru.Run Cache.Expired n
        ((Machine.events LRUCache.step (LRUCache.new n) ops).map (fun e => (e.1.op, e.2))) a ∧
      Lru.Listed CacheItem.key c.items a := by
  intro c
  have hstep : ∀ (h : List (CacheOp × Lru.Answer CacheItem)) (c : LRUCache) (o : CacheOp), True →
      (∃ a, Lru.Run Cache.Expired n (h.map (fun e => (e.1.op, e.2))) a ∧ c.Holds n a) →
      ∃ a, Lru.Run Cache.Expired n ((h ++ [(o, (c.step o).1)]).map (fun e => (e.1.op, e.2))) a ∧
        (c.step o).2.Holds n a := by
    rintro h c o - ⟨a, hrun, hholds⟩
    obtain ⟨a', hlast, hholds'⟩ := hholds.step hn o
    refine ⟨a', ?_, hholds'⟩
    rw [List.map_append]
    exact hrun.step hlast
  obtain ⟨a, hrun, hholds⟩ := Machine.history_rule hstep
    (Machine.guarded_true LRUCache.step (LRUCache.new n) ops)
    ⟨Lru.empty, .start, LRUCache.holds_new hn⟩
  exact ⟨hholds.linked.keys_perm, hholds.linked.nodup,
    fun key e => (hholds.linked.pointer key e).mp,
    hholds.bound, hholds.linked.len, a, hrun, hholds.listed⟩

/-- A cache of two: the third key drops the one that was not used since, and the last operation
    finds the other expired. -/
def evictingRun : List CacheOp :=
  [.add ⟨.tokenBucket, "a", none, 100, 0⟩, .add ⟨.tokenBucket, "b", none, 100, 0⟩,
    .getItem "a" 50, .add ⟨.tokenBucket, "c", none, 100, 0⟩, .updateExpiration "a" 60,
    .getItem "b" 70, .getItem "a" 70]

/-- After the run only the third key is left, and `Size()` says so. -/
theorem lruCache_refines_lru_evictingRun :
    (Machine.exec LRUCache.step (LRUCache.new 2) evictingRun).items.map CacheItem.key = ["c"] ∧
    (Machine.exec LRUCache.step (LRUCache.new 2) evictingRun).size =
      (Machine.exec LRUCache.step (LRUCache.new 2) evictingRun).items.length :=
  ⟨by decide +kernel, (lruCache_refines_lru 2 (by decide) evictingRun).2.2.2.2.1⟩

end Gubernator
