/-
  ONE KEY, as the next request at the owner will find it.

  The owner tells its Store of every change, and the Store serves a snapshot until its `ExpireAt`
  has passed.  So what a request leaves behind is found by the next one at the same clock exactly
  if it has not run out (`CacheItem.live`), and a request turns what was found into what will be
  found, whatever else the cache holds: an item is created, worked on, or removed.

  Two places can answer for a key.  Both let an item go when its `ExpireAt` has passed; `InvalidAt`
  is looked at by the cache alone, and a faithful Store goes on serving what it has invalidated.
  `live` is the disjunction of the two, and `Seen` the statement about a key that all writes of the
  owner keep up:

  1. a write is seen (`Seen.written`), because the cache has it and the Store has been told;
  2. so are the three writes a bucket function makes (`create`, `update`, `remove`);
  3. so is what each bucket function makes of a key, found or not.

  Time enters only through `live`: what was written at one time is looked for at any other.
-/
import Gubernator.Eviction

namespace Gubernator

open Calendar

/-! ## What is found of an item just written -/

/-- Found at `now`, in milliseconds: in the cache, or served by the Store, if there is one. -/
def CacheItem.live (stored : Bool) (now : ℤ) (item : CacheItem) : Bool :=
  !item.isExpired now || (stored && decide (now ≤ item.expireAt))

/-- What will be found of an item. -/
def CacheItem.seen (stored : Bool) (now : ℤ) (item : CacheItem) (v : Bucket) :
    Option (CacheItem × Bucket) :=
  if item.live stored now then some (item, v) else none

/-- **The key at `now`**: whether there is a Store, which is then faithful, and what a request
    finds. -/
structure Seen (s : Shard) (stored : Bool) (now : ℤ) (key : String)
    (found : Option (CacheItem × Bucket)) : Prop where
  store : s.store.isSome = stored
  faithful : ∀ st, s.store = some st → st.Faithful
  find : ∀ r : RateLimitReq, r.hashKey = key → s.find now r = found

/-- A request finds what any other request for the key would. -/
theorem find_congr {r r' : RateLimitReq} (h : r.hashKey = r'.hashKey) (s : Shard) (now : ℤ) :
    s.find now r = s.find now r' := by
  have hsane : Shard.sane r = Shard.sane r' := by
    funext item
    simp only [Shard.sane, h]
  simp only [Shard.find, Shard.lookup, Store.get, h, hsane]

section Writes
variable {s : Shard} {stored : Bool} {now : ℤ} {key : String}
  {found : Option (CacheItem × Bucket)} {item : CacheItem} {v : Bucket}

/-- An item that is found goes on being found until its expiry, wherever that is moved. -/
theorem live_of_live (h : item.live stored now = true) (x : ℤ) (value : Option Bucket) :
    CacheItem.live stored now { item with value := value, expireAt := x } = decide (now ≤ x) := by
  simp only [CacheItem.live, CacheItem.isExpired, Bool.or_eq_true, Bool.not_eq_true',
    Bool.or_eq_false_iff, Bool.and_eq_true, decide_eq_true_eq] at h ⊢
  by_cases hx : now ≤ x
  · rcases h with ⟨hinvalid, -⟩ | ⟨hstored, -⟩
    · simp [hinvalid, hx]
    · simp [hstored, hx]
  · simp [hx, not_le.mp hx]

/-- Seen after its value and expiry were rewritten: exactly until the new expiry. -/
theorem seen_of_live (h : item.live stored now = true) (x : ℤ) (value : Option Bucket) :
    CacheItem.seen stored now { item with value := value, expireAt := x } v =
      if now ≤ x then some ({ item with value := value, expireAt := x }, v) else none := by
  rw [CacheItem.seen, live_of_live h]
  by_cases hx : now ≤ x <;> simp [hx]

/-- Nothing is found past its expiry, in the cache or in the Store. -/
theorem le_expireAt (h : item.live stored now = true) : now ≤ item.expireAt := by
  simp only [CacheItem.live, CacheItem.isExpired, Bool.or_eq_true, Bool.not_eq_true',
    Bool.or_eq_false_iff, Bool.and_eq_true, decide_eq_true_eq, decide_eq_false_iff_not] at h
  rcases h with ⟨-, hexpire⟩ | ⟨-, hexpire⟩
  · omega
  · exact hexpire

/-- A new item, which nobody has invalidated. -/
theorem seen_of_valid (h : item.invalidAt = 0) :
    item.seen stored now v = if now ≤ item.expireAt then some (item, v) else none := by
  unfold CacheItem.seen CacheItem.live CacheItem.isExpired
  by_cases hx : now ≤ item.expireAt
  · simp [h, hx]
  · simp [h, hx, not_le.mp hx]

/-- What is found is live. -/
theorem Seen.live (h : Seen s stored now key (some (item, v))) {r : RateLimitReq}
    (hr : r.hashKey = key) : item.live stored now = true := by
  have hlookup := (Shard.find_key (h.find r hr)).1
  unfold Shard.lookup at hlookup
  rcases hg : s.cache.getItem r.hashKey now with ⟨hit, c⟩
  cases hit with
  | some entry =>
    -- the cache gives out nothing expired
    simp only [hg, Option.some.injEq] at hlookup
    subst hlookup
    have hfresh : entry.isExpired now = false := by
      unfold Cache.getItem at hg
      cases hp : s.cache.peek r.hashKey with
      | none => simp [hp] at hg
      | some e =>
        simp only [hp] at hg
        split at hg
        · simp at hg
        · rename_i hx
          obtain rfl := Option.some.inj (Prod.mk.inj hg).1
          simpa using hx
    simp [CacheItem.live, hfresh]
  | none =>
    simp only [hg] at hlookup
    have hstore := h.store
    -- a miss in the cache: what was found came from the Store
    cases hst : s.store with
    | none => simp [hst] at hlookup
    | some st =>
      simp only [hst, Option.bind_some, Store.get] at hlookup
      split at hlookup
      · rename_i i hget
        obtain rfl := Option.some.inj hlookup
        have hserved := (Option.filter_eq_some_iff.mp hget).2
        rw [h.faithful st hst] at hserved
        rw [hst] at hstore
        simp only [CacheItem.live, ← hstore, Option.isSome_some, hserved, Bool.and_self,
          Bool.or_true]
      · cases hlookup

/-- An item in the cache that the Store, if there is one, has been told of. -/
theorem Seen.written (h : Seen s stored now key found) {c : Cache}
    (hpeek : c.peek key = some item) (hkey : item.key = key) (hv : item.value = some v) :
    Seen ⟨c, s.store.map (fun st => st.onChange item)⟩ stored now key
      (item.seen stored now v) := by
  refine ⟨by simp [h.store], fun st hst => ?_, fun r hr => ?_⟩
  · obtain ⟨st₀, hst₀, rfl⟩ := Option.map_eq_some_iff.mp hst
    exact h.faithful st₀ hst₀
  subst hr
  have hsane : Shard.sane r item = some (item, v) := by
    simp [Shard.sane, hv, hkey]
  unfold CacheItem.seen CacheItem.live
  cases hx : item.isExpired now with
  | false =>
    -- the cache answers, and the Store is not asked
    rw [Shard.find, Shard.lookup_of_fresh hpeek hx, Option.bind_some, hsane]
    simp
  | true =>
    -- the cache drops it, and the Store is asked
    have hmiss := Cache.getItem_of_expired hpeek hx
    unfold Shard.find Shard.lookup
    rcases hg : c.getItem r.hashKey now with ⟨hit, c'⟩
    rw [hg] at hmiss
    obtain rfl : hit = none := hmiss
    have hstore := h.store
    subst hstore
    cases hst : s.store with
    | none => simp
    | some st =>
      have hserves : (st.onChange item).serves item now = decide (now ≤ item.expireAt) :=
        h.faithful st hst item now
      have hitem : (st.onChange item).items r.hashKey = some item := by
        rw [← hkey]
        exact Store.items_onChange_self st item
      have hget : (st.onChange item).get r now =
          if decide (now ≤ item.expireAt) then some item else none := by
        rw [Store.get, hitem, Option.filter_some, hserves]
      simp only [Option.map_some, Option.bind_some, hget]
      by_cases hlive : now ≤ item.expireAt
      · simp [hlive, hsane]
      · simp [hlive]

/-- Whatever a shard with a faithful Store holds, it holds something. -/
theorem seen_find (hfaithful : ∀ st, s.store = some st → st.Faithful) (t : ℤ) (r : RateLimitReq) :
    Seen s s.store.isSome t r.hashKey (s.find t r) :=
  ⟨rfl, hfaithful, fun _ hr' => find_congr hr' s t⟩

/-- An item that is found was found before. -/
theorem live_anti {t t' : ℤ} (htt : t ≤ t') (h : item.live stored t' = true) :
    item.live stored t = true := by
  have hexpired : item.isExpired t = true → item.isExpired t' = true := by
    simp only [CacheItem.isExpired, Bool.or_eq_true, Bool.and_eq_true, decide_eq_true_eq]
    rintro (⟨hset, hlt⟩ | hlt)
    · exact .inl ⟨hset, by omega⟩
    · exact .inr (by omega)
  simp only [CacheItem.live, Bool.or_eq_true, Bool.not_eq_true', Bool.and_eq_true,
    decide_eq_true_eq] at h ⊢
  rcases h with hfresh | ⟨hstored, hle⟩
  · left
    by_contra hn
    rw [hexpired (by simpa using hn)] at hfresh
    cases hfresh
  · exact .inr ⟨hstored, htt.trans hle⟩

/-- Looking a key up may drop it from the cache, but does not write to the Store. -/
theorem lookup_store (s : Shard) (now : ℤ) (r : RateLimitReq) :
    (s.lookup now r).2.store = s.store := by
  unfold Shard.lookup
  repeat' split
  all_goals rfl

/-- A created item is seen. -/
theorem Seen.create (h : Seen s stored now key found) {r : RateLimitReq} (hkey : item.key = key)
    (hv : item.value = some v) :
    Seen ((s.lookup now r).2.create true item) stored now key (item.seen stored now v) := by
  have hpeek := Cache.peek_add_self (s.lookup now r).2.cache item
  rw [hkey] at hpeek
  have hwritten := h.written hpeek hkey hv
  rw [← lookup_store s now r] at hwritten
  exact hwritten

/-- An item that replaces the one found is seen in its place. -/
theorem Seen.update (h : Seen s stored now key found) {r : RateLimitReq} (hr : r.hashKey = key)
    {old : CacheItem} {w : Bucket} (hfound : found = some (old, w)) (hkey : item.key = old.key)
    (hv : item.value = some v) :
    Seen ((s.lookup now r).2.update true item) stored now key (item.seen stored now v) := by
  have hfind := (h.find r hr).trans hfound
  have hpeek := Shard.peek_update_found hfind hkey true
  rw [hr] at hpeek
  have hwritten := h.written hpeek (hkey.trans ((Shard.find_key hfind).2.2.trans hr)) hv
  rw [← lookup_store s now r] at hwritten
  exact hwritten

/-- **What the owner has written at one time is what is found at any other**, until it runs out. -/
theorem seen_update (hfaithful : ∀ st, s.store = some st → st.Faithful) {r : RateLimitReq}
    {old : CacheItem} {w : Bucket} (hfind : s.find now r = some (old, w))
    (hkey : item.key = old.key) (hv : item.value = some v) (t : ℤ) :
    Seen ((s.lookup now r).2.update true item) s.store.isSome t r.hashKey
      (item.seen s.store.isSome t v) := by
  have hpeek := Shard.peek_update_found hfind hkey true
  have hwritten := (seen_find hfaithful t r).written hpeek
    (hkey.trans (Shard.find_key hfind).2.2) hv
  rw [← lookup_store s now r] at hwritten ⊢
  exact hwritten

/-- The same of a created item, at any time. -/
theorem seen_create (hfaithful : ∀ st, s.store = some st → st.Faithful) {r : RateLimitReq}
    (hkey : item.key = r.hashKey) (hv : item.value = some v) (t : ℤ) :
    Seen (s.create true item) s.store.isSome t r.hashKey (item.seen s.store.isSome t v) := by
  have hpeek := Cache.peek_add_self s.cache item
  rw [hkey] at hpeek
  exact (seen_find hfaithful t r).written hpeek hkey hv

/-- A key that is not found, in the cache or in the Store, is not found later. -/
theorem find_none_later (hfaithful : ∀ st, s.store = some st → st.Faithful) {r r' : RateLimitReq}
    (hkey : r'.hashKey = r.hashKey) {t : ℤ} (ht : now ≤ t) (hmiss : (s.lookup now r).1 = none) :
    (s.lookup now r).2.find t r' = none := by
  have hpeek := Shard.peek_lookup_none hmiss
  have hget : s.store.bind (fun st => st.get r now) = none := by
    unfold Shard.lookup at hmiss
    split at hmiss
    · cases hmiss
    · split at hmiss
      · cases hmiss
      · assumption
  -- a faithful Store that does not serve an item now will not serve it later
  have hlater : (s.lookup now r).2.store.bind (fun st => st.get r t) = none := by
    rw [lookup_store]
    cases hst : s.store with
    | none => rfl
    | some st =>
      simp only [hst, Option.bind_some, Store.get, Option.filter_eq_none_iff] at hget ⊢
      intro item hitem
      have hold := hget item hitem
      rw [hfaithful st hst] at hold ⊢
      simp only [decide_eq_true_eq, not_le] at hold ⊢
      omega
  rw [find_congr hkey, Shard.find, Shard.lookup_of_unserved hpeek hlater, Option.bind_none]

/-- After a removal nothing is found: the cache has dropped the key and the Store was told. -/
theorem Seen.remove (h : Seen s stored now key found) {r : RateLimitReq} (hr : r.hashKey = key) :
    Seen ((s.lookup now r).2.remove key) stored now key none := by
  have hstore := lookup_store s now r
  refine ⟨by simp [Shard.remove, hstore, h.store], fun st hst => ?_, fun r' hr' => ?_⟩
  · obtain ⟨st₀, hst₀, rfl⟩ := Option.map_eq_some_iff.mp hst
    exact h.faithful st₀ (hstore ▸ hst₀)
  · subst hr'
    have habsent : ((s.lookup now r).2.remove r'.hashKey).stored r'.hashKey = none := by
      cases hst : s.store with
      | none => simp [Shard.stored, Shard.remove, hstore, hst]
      | some st => simp [Shard.stored, Shard.remove, hstore, hst]
    rw [Shard.find, Shard.lookup_of_absent (by simp [Shard.remove]) habsent, Option.bind_none]

end Writes

/-- The shard that `leakyBucket` goes on with after its lookup has a faithful Store, too. -/
theorem leakyBase_faithful {now : ℤ} {s : Shard} {r : RateLimitReq}
    (hfaithful : ∀ st, s.store = some st → st.Faithful) :
    ∀ st, (leakyBase now s r).store = some st → st.Faithful := by
  intro st hst
  unfold leakyBase at hst
  split at hst
  · obtain ⟨st₀, hst₀, rfl⟩ := Option.map_eq_some_iff.mp hst
    rw [lookup_store] at hst₀
    exact hfaithful st₀ hst₀
  · rw [lookup_store] at hst
    exact hfaithful st hst

/-! ## What a request makes of the key

Each theorem names the item that a bucket function writes, and says that it is what the next request
for the key sees. -/

section Requests
variable {s : Shard} {stored : Bool} {now : ℤ} {r : RateLimitReq} {key : String}
  {found : Option (CacheItem × Bucket)}

/-- The expiry of a new token bucket. -/
def tokenExpiry (loc : Location) (now : ℤ) (r : RateLimitReq) : Except String ℤ :=
  if hasBehavior r.behavior .durationIsGregorian then gregorianExpiration loc now r.duration
  else .ok (r.createdAt + r.duration)

/-- The bucket a request creates: too many hits are refused, not drained. -/
def newTokenBucket (r : RateLimitReq) : TokenBucketItem :=
  { limit := r.limit, duration := r.duration
    remaining := if r.limit < r.hits then r.limit else r.limit - r.hits
    createdAt := r.createdAt }

/-- The item it goes into. -/
def newTokenItem (r : RateLimitReq) (expireAt : ℤ) : CacheItem :=
  { algorithm := .tokenBucket, key := r.hashKey, value := some (.token (newTokenBucket r))
    expireAt := expireAt }

/-- A token request that finds nothing creates its bucket. -/
theorem Seen.token_new (h : Seen s stored (epochMillis now) key none) (hr : r.hashKey = key)
    {loc : Location} {x : ℤ} (hx : tokenExpiry loc now r = .ok x) :
    Seen (tokenBucket loc now s r { isOwner := true }).2 stored (epochMillis now) key
      ((newTokenItem r x).seen stored (epochMillis now) (.token (newTokenBucket r))) := by
  have hcall : (tokenBucket loc now s r { isOwner := true }).2 =
      (s.lookup (epochMillis now) r).2.create true (newTokenItem r x) := by
    unfold tokenExpiry at hx
    simp only [tokenBucket, h.find r hr, tokenBucketNewItem, hx, newTokenItem, newTokenBucket,
      decide_eq_true_eq]
  rw [hcall]
  exact h.create hr rfl

/-- A reset removes what is found. -/
theorem Seen.token_reset {item : CacheItem} {v : Bucket}
    (h : Seen s stored (epochMillis now) key (some (item, v))) (hr : r.hashKey = key)
    (hreset : hasBehavior r.behavior .resetRemaining = true) (loc : Location) :
    Seen (tokenBucket loc now s r { isOwner := true }).2 stored (epochMillis now) key none := by
  have hcall : (tokenBucket loc now s r { isOwner := true }).2 =
      (s.lookup (epochMillis now) r).2.remove key := by
    simp only [tokenBucket, h.find r hr, hreset, if_true, hr]
  rw [hcall]
  exact h.remove hr

/-- One that finds a token bucket takes its hits of it, under the limit and duration it brings. -/
theorem Seen.token_work {item : CacheItem} {t t₂ : TokenBucketItem} {x : ℤ}
    (h : Seen s stored (epochMillis now) key (some (item, .token t))) (hr : r.hashKey = key)
    (hreset : hasBehavior r.behavior .resetRemaining = false) {loc : Location}
    (hset : setDuration loc now r (t.setLimit r.limit) item.expireAt = .ok (t₂, x)) :
    Seen (tokenBucket loc now s r { isOwner := true }).2 stored (epochMillis now) key
      (CacheItem.seen stored (epochMillis now)
        { item with value := some (.token (takeHits r t₂ x).2), expireAt := x }
        (.token (takeHits r t₂ x).2)) := by
  have hcall : (tokenBucket loc now s r { isOwner := true }).2 =
      (s.lookup (epochMillis now) r).2.update true
        { item with value := some (.token (takeHits r t₂ x).2), expireAt := x } := by
    simp only [tokenBucket, h.find r hr, hreset, Bool.false_eq_true, if_false, tokenBucketItem,
      hset]
  rw [hcall]
  exact h.update hr rfl rfl rfl

/-- A leaky request that may not wait and finds nothing creates its bucket. -/
theorem Seen.leaky_new (h : Seen s stored (epochMillis now) key none) (hr : r.hashKey = key)
    {host : Host} {rate : ExactFloat} {d : ℤ} (hterms : requestTerms host now r = .ok (rate, d))
    (hwait : ¬ 0 < r.maxWait) (ceiling : ℤ) :
    Seen (leakyBucket host now s r { isOwner := true, waitCeiling := ceiling }).2 stored
      (epochMillis now) key
      ((newLeakyItem r.withBurst r.createdAt d).seen stored (epochMillis now)
        (.leaky (newLeakyBucket r.withBurst r.createdAt d))) := by
  have hcall : (leakyBucket host now s r { isOwner := true, waitCeiling := ceiling }).2 =
      (s.lookup (epochMillis now) r).2.create true (newLeakyItem r.withBurst r.createdAt d) := by
    simp only [leakyBucket, leakyBucketBurst, find_withBurst, lookup_withBurst, h.find r hr]
    rw [leakyBucketNewItem_creates host _ _ (by rwa [requestTerms_withBurst])
      (by simp [hwait])]
    simp only [withBurst_maxWait, withBurst_createdAt, hwait, if_false]
  rw [hcall]
  exact h.create (by simp [newLeakyItem, hr]) rfl

/-- One that finds a leaky bucket leaves what `leakyBucketItem` makes of it. -/
theorem Seen.leaky_work {item : CacheItem} {b : LeakyBucketItem} {out : LeakyOutcome}
    (h : Seen s stored (epochMillis now) key (some (item, .leaky b))) (hr : r.hashKey = key)
    {host : Host} {ceiling : ℤ} (hout : leakyBucketItem host now r.withBurst
      { isOwner := true, waitCeiling := ceiling } b item.expireAt = .ok out) :
    Seen (leakyBucket host now s r { isOwner := true, waitCeiling := ceiling }).2 stored
      (epochMillis now) key
      (CacheItem.seen stored (epochMillis now)
        { item with value := some (.leaky out.b), expireAt := out.expireAt } (.leaky out.b)) := by
  have hcall : (leakyBucket host now s r { isOwner := true, waitCeiling := ceiling }).2 =
      (s.lookup (epochMillis now) r).2.update true
        { item with value := some (.leaky out.b), expireAt := out.expireAt } := by
    simp only [leakyBucket, leakyBucketBurst, find_withBurst, lookup_withBurst, h.find r hr, hout]
  rw [hcall]
  exact h.update hr rfl rfl rfl

end Requests

end Gubernator
