/-
  CREATING A LEAKY BUCKET EQUALS CHARGING A FULL ONE — but for the reset time of a Gregorian one.

  `leakyBucketNewItem` repeats the computations of the existing-bucket path: rate, duration,
  balance, reset time, expiry.  The two copies are compared in three parts.

  1. The ITEMS.  Both leave the same balance, burst, `UpdatedAt` and `ExpireAt`.  A Gregorian item
     differs in its stored duration: a new one keeps the time left, a charged one the interval's
     code.

  2. LATER ANSWERS. The stored duration is only ever read for a balance below zero, and a request on
     any other item stores its own.  So two keys whose items differ in it alone (`Twin`) answer
     alike for ever (`SameKey.run`).

  3. The RESPONSES.  They agree in all but the reset time; and there the new item divides the
     interval's CODE by the limit, where the existing one divides its length.

  The run lemma of the second part does not unfold a call.  What a call writes is a list of writes
  that depends on what was found alone, so two owners that find the same write the same; and where
  they find twins of different durations, `leakyBucketItem_duration` says that they compute the
  same.
-/
import Gubernator.KeyView
import Gubernator.Leaky.Solvency

namespace Gubernator

open ExactFloat

/-! ## Items that differ in a duration nobody reads

A new Gregorian item stores the milliseconds left in its interval.  The first charge of it stores
the code of the interval (`0` for minutes up to `5` for years) instead, as every charge does. -/

/-- **The same item, but for the stored duration** of a leaky balance that is no debt. -/
inductive Twin : CacheItem → CacheItem → Prop
  | same (item : CacheItem) : Twin item item
  | duration (item : CacheItem) (b : LeakyBucketItem) (d : ℤ) (hv : item.value = some (.leaky b))
      (hcredit : ∃ q : ℚ, b.remaining = .fin q ∧ 0 ≤ q) :
      Twin item { item with value := some (.leaky { b with duration := d }) }

namespace Twin

variable {item item' : CacheItem}

/-- Twins are of one key. -/
theorem key_eq (h : Twin item item') : item'.key = item.key := by
  cases h <;> rfl

/-- Twins end at one time. -/
theorem expireAt_eq (h : Twin item item') : item'.expireAt = item.expireAt := by
  cases h <;> rfl

/-- Twins have expired at the same times. -/
theorem isExpired_eq (h : Twin item item') (now : ℤ) :
    item'.isExpired now = item.isExpired now := by
  cases h <;> rfl

end Twin

section Item
variable {host : Host} {now : ℤ} {r : RateLimitReq} {b : LeakyBucketItem} {q : ℚ}

/-- A balance that is no debt is none at any rate that leaks into the bucket. -/
theorem debtAt_credit (hq : b.remaining = .fin q) (h0 : 0 ≤ q) (t : ℤ) : debtAt b t = false := by
  have hε := epsilon_pos
  unfold debtAt
  -- at an unusable rate nothing leaks; at a usable one the leak only adds
  by_cases hu : unusableRate (rateOf b.limit b.duration) = true
  · simp only [hu, if_true, hq, snapToZero_fin, fin_lt_zero, decide_eq_false_iff_not, not_lt]
    exact snap_nonneg.mpr (by linarith)
  · obtain ⟨ρ, hρ, hrate⟩ := usable_iff.mp (Bool.eq_false_iff.mpr hu)
    simp only [hrate, unusableRate_fin hρ, Bool.false_eq_true, if_false, hq,
      creditedLeak_fin b t hρ, fin_add_fin, snapToZero_fin, fin_lt_zero, decide_eq_false_iff_not,
      not_lt]
    refine snap_nonneg.mpr ?_
    have := le_balanceAt b.updatedAt q hρ t
    unfold balanceAt at this
    linarith

/-- The terms of a request on a balance that is no debt: the stored duration shows in the rate it
    would be booked at, and in whether the config has changed. -/
theorem leakyTerms_credit (hq : b.remaining = .fin q) (h0 : 0 ≤ q) :
    leakyTerms host now r b =
      match requestTerms host now r with
      | .error e => .error e
      | .ok (requestRate, duration) => .ok
        { createdAt := if 0 < r.maxWait then epochMillis now else r.createdAt, duration, requestRate
          storedRate := rateOf b.limit b.duration, keepStored := false, rescale := false
          configChanged := b.limit != r.limit || b.duration != r.duration
          burst := r.burst, burstChanged := b.burst != r.burst, wasInDebt := false } := by
  have hnot : ¬ b.remaining < 0 := by
    rw [hq, fin_lt_zero]
    exact not_lt.mpr h0
  unfold leakyTerms
  -- every decision about the stored config asks for a negative balance first
  cases requestTerms host now r with
  | error e => rfl
  | ok p =>
    simp only [hnot, or_false, decide_false, Bool.and_false, Bool.false_and, debtAt_credit hq h0,
      Bool.false_eq_true, false_and, if_false]

/-- A request that keeps no stored rate makes the same of two items that differ in their
    duration. -/
theorem credited_duration (tm : LeakyTerms) (hkeep : tm.keepStored = false)
    (hrescale : tm.rescale = false) (σ : ExactFloat) (changed : Bool) (d : ℤ) :
    credited r { tm with storedRate := σ, configChanged := changed } { b with duration := d } =
      credited r tm b := by
  -- the leak goes at the request's rate, the stored one is not asked for
  have hleak : creditLeak { tm with storedRate := σ, configChanged := changed }
      { b with duration := d } = { creditLeak tm b with duration := d } := by
    simp only [creditLeak, LeakyTerms.creditRate, LeakyTerms.rate, hrescale, hkeep,
      Bool.false_eq_true, if_false]
    split <;> rfl
  have hshift : ∀ c : LeakyBucketItem,
      shiftBurst { tm with storedRate := σ, configChanged := changed } { c with duration := d } =
        { shiftBurst tm c with duration := d } := by
    intro c
    unfold shiftBurst
    split <;> rfl
  have hrefill : ∀ c : LeakyBucketItem,
      refill r { tm with storedRate := σ, configChanged := changed } { c with duration := d } =
        { refill r tm c with duration := d } := by
    intro c
    unfold refill
    split <;> rfl
  have hnoRescale : ∀ (tm' : LeakyTerms), tm'.rescale = false → ∀ c, rescaleDebt tm' c = c := by
    intro tm' h c
    simp [rescaleDebt, h]
  unfold credited
  rw [hleak, hnoRescale tm hrescale,
    hnoRescale { tm with storedRate := σ, configChanged := changed } hrescale, hshift, hrefill]
  simp only [adoptConfig, adopts, hkeep, Bool.not_false, Bool.true_or, if_true, clampToBurst]

/-- **Nothing reads the stored duration** of a balance that is no debt. -/
theorem leakyBucketItem_duration (hq : b.remaining = .fin q) (h0 : 0 ≤ q) (d x : ℤ)
    (reqState : RateLimitReqState) :
    leakyBucketItem host now r reqState { b with duration := d } x =
      leakyBucketItem host now r reqState b x := by
  have hq' : ({ b with duration := d } : LeakyBucketItem).remaining = .fin q := hq
  unfold leakyBucketItem
  rw [leakyTerms_credit hq' h0, leakyTerms_credit hq h0]
  cases requestTerms host now r with
  | error e => rfl
  | ok p =>
    obtain ⟨rate, length⟩ := p
    dsimp only
    -- the config is adopted, so from here on the two items are one
    have hsame := @credited_duration r b
      { createdAt := if 0 < r.maxWait then epochMillis now else r.createdAt, duration := length
        requestRate := rate, storedRate := rateOf b.limit b.duration, keepStored := false
        rescale := false, configChanged := b.limit != r.limit || b.duration != r.duration
        burst := r.burst, burstChanged := b.burst != r.burst, wasInDebt := false } rfl rfl
      (rateOf b.limit d) (b.limit != r.limit || d != r.duration) d
    dsimp only at hsame
    rw [hsame]
    simp only [deferredExpiry, Bool.false_eq_true, false_and, if_false]
    rfl

end Item

/-! ## Keys whose items are twins

A run of requests for the key is followed at two owners at once.  `SameKey` is kept by the lookup,
by each write of the owner, and so by every call: the decision is a function of what is found
(`Verdict`), and on twins the one function that gets to see the duration, `leakyBucketItem`, does
not read it. -/

/-- **Two shards that answer alike for a key**: their items, cached and stored, are twins, and
    their Stores, if there are any, are faithful. -/
structure SameKey (key : String) (s s' : Shard) : Prop where
  /-- both have an item in the cache, and the two are twins, or neither has one -/
  cached : Option.Rel Twin (s.cache.peek key) (s'.cache.peek key)
  stored : Option.Rel Twin (s.stored key) (s'.stored key)
  /-- the Store holds the item under its own key -/
  proper : ∀ item, s.stored key = some item → item.key = key
  store : s.store.isSome = s'.store.isSome
  faithful : ∀ st, s.store = some st → st.Faithful
  faithful' : ∀ st, s'.store = some st → st.Faithful

/-- An entry is handed out until it has expired. -/
theorem getItem_eq_filter (c : Cache) (key : String) (now : ℤ) :
    (c.getItem key now).1 = (c.peek key).filter (fun item => !item.isExpired now) := by
  unfold Cache.getItem
  cases c.peek key with
  | none => rfl
  | some item =>
    rw [Option.filter_some]
    by_cases hx : item.isExpired now = true
    · simp [hx]
    · simp [hx]

/-- Twins pass the same filters, if these do not look at what differs. -/
theorem rel_filter {x y : Option CacheItem} (h : Option.Rel Twin x y) {p : CacheItem → Bool}
    (hp : ∀ i i', Twin i i' → p i' = p i) : Option.Rel Twin (x.filter p) (y.filter p) := by
  cases h with
  | none => exact .none
  | some htwin =>
    rename_i i i'
    rw [Option.filter_some, Option.filter_some, hp i i' htwin]
    split
    · exact .some htwin
    · exact .none

namespace SameKey

variable {key : String} {s s' : Shard} {r : RateLimitReq} {now : ℤ}

/-- A faithful Store serves what it holds until its `ExpireAt`. -/
theorem get_eq_filter (hfaithful : ∀ st, s.store = some st → st.Faithful) :
    s.store.bind (fun st => st.get r now) =
      (s.stored r.hashKey).filter (fun item => decide (now ≤ item.expireAt)) := by
  unfold Shard.stored
  -- no Store serves nothing, and has nothing stored
  cases hst : s.store with
  | none => rfl
  | some st =>
    simp only [Option.bind_some, Store.get]
    exact congrArg (fun p => Option.filter p (st.items r.hashKey))
      (funext (fun item => hfaithful st hst item now))

/-- Both lookups find the same or twins, and leave it so. -/
theorem lookup (h : SameKey r.hashKey s s') :
    Option.Rel Twin (s.lookup now r).1 (s'.lookup now r).1 ∧
      SameKey r.hashKey (s.lookup now r).2 (s'.lookup now r).2 := by
  have hhit : Option.Rel Twin (s.cache.getItem r.hashKey now).1
      (s'.cache.getItem r.hashKey now).1 := by
    rw [getItem_eq_filter, getItem_eq_filter]
    exact rel_filter h.cached (fun i i' ht => by rw [ht.isExpired_eq])
  have hserved : Option.Rel Twin (s.store.bind (fun st => st.get r now))
      (s'.store.bind (fun st => st.get r now)) := by
    rw [get_eq_filter h.faithful, get_eq_filter h.faithful']
    exact rel_filter h.stored (fun i i' ht => by rw [ht.expireAt_eq])
  -- what is served has the key of the request, so the caches know it by that key
  have hkey : ∀ item, s.store.bind (fun st => st.get r now) = some item → item.key = r.hashKey := by
    intro item hitem
    rw [get_eq_filter h.faithful] at hitem
    exact h.proper item (Option.filter_eq_some_iff.mp hitem).1
  have hpeek := Cache.peek_getItem s.cache r.hashKey now
  have hpeek' := Cache.peek_getItem s'.cache r.hashKey now
  unfold Shard.lookup
  rcases hg : s.cache.getItem r.hashKey now with ⟨hit, c⟩
  rcases hg' : s'.cache.getItem r.hashKey now with ⟨hit', c'⟩
  rw [hg] at hhit hpeek
  rw [hg'] at hhit hpeek'
  dsimp only at hhit hpeek hpeek'
  -- a hit in both caches, or in neither
  cases hhit with
  | some htwin =>
    refine ⟨.some htwin, ?_, h.stored, h.proper, h.store, h.faithful, h.faithful'⟩
    show Option.Rel Twin (c.peek r.hashKey) (c'.peek r.hashKey)
    rw [hpeek, hpeek']
    exact .some htwin
  | none =>
    -- in neither: both Stores are asked, and what they serve is added to the caches
    generalize hget : s.store.bind (fun st => st.get r now) = served at hserved hkey ⊢
    generalize hget' : s'.store.bind (fun st => st.get r now) = served' at hserved ⊢
    cases hserved with
    | none =>
      refine ⟨.none, ?_, h.stored, h.proper, h.store, h.faithful, h.faithful'⟩
      show Option.Rel Twin (c.peek r.hashKey) (c'.peek r.hashKey)
      rw [hpeek, hpeek']
      exact .none
    | some htwin =>
      rename_i i i'
      have hki : i.key = r.hashKey := hkey i rfl
      refine ⟨.some htwin, ?_, h.stored, h.proper, h.store, h.faithful, h.faithful'⟩
      show Option.Rel Twin ((c.add i).peek r.hashKey) ((c'.add i').peek r.hashKey)
      rw [← hki, Cache.peek_add_self, ← htwin.key_eq, Cache.peek_add_self]
      exact .some htwin

/-- **Twins that the owners have just written**, and told their Stores of. -/
theorem written {item item' : CacheItem} (htwin : Twin item item') (hkey : item.key = key)
    {c c' : Cache} {store store' : Option Store}
    (hc : Option.Rel Twin (c.peek key) (c'.peek key)) (hsome : store.isSome = store'.isSome)
    (hfaithful : ∀ st, store = some st → st.Faithful)
    (hfaithful' : ∀ st, store' = some st → st.Faithful) :
    SameKey key ⟨c, store.map (fun st => st.onChange item)⟩
      ⟨c', store'.map (fun st => st.onChange item')⟩ := by
  have hstored : ∀ (c : Cache) (store : Option Store) (i : CacheItem), i.key = key →
      Shard.stored ⟨c, store.map (fun st => st.onChange i)⟩ key = store.map (fun _ => i) := by
    intro c store i hi
    subst hi
    cases store <;> simp [Shard.stored]
  refine ⟨hc, ?_, ?_, ?_, ?_, ?_⟩
  · rw [hstored _ _ _ hkey, hstored _ _ _ (htwin.key_eq.trans hkey)]
    cases store <;> cases store' <;> simp at hsome
    · exact .none
    · exact .some htwin
  · intro i hi
    rw [hstored _ _ _ hkey] at hi
    obtain ⟨-, -, rfl⟩ := Option.map_eq_some_iff.mp hi
    exact hkey
  · simpa using hsome
  · intro st hst
    obtain ⟨st₀, hst₀, rfl⟩ := Option.map_eq_some_iff.mp hst
    exact hfaithful st₀ hst₀
  · intro st hst
    obtain ⟨st₀, hst₀, rfl⟩ := Option.map_eq_some_iff.mp hst
    exact hfaithful' st₀ hst₀

/-- A value written in place is there if the key was. -/
theorem peek_write (c : Cache) (item : CacheItem) :
    (c.write item).peek item.key = (c.peek item.key).map (fun _ => item) := by
  cases h : c.peek item.key with
  | some old => exact Cache.peek_write_self h
  | none =>
    have hnone : ∀ i ∈ c.items, i.key ≠ item.key := by
      intro i hi
      simpa using (List.find?_eq_none.mp h) i hi
    refine List.find?_eq_none.mpr (fun j hj => ?_)
    obtain ⟨i, hi, rfl⟩ := List.mem_map.mp hj
    rw [if_neg (by simpa using hnone i hi)]
    simpa using hnone i hi

/-- One item, written in place to both. -/
theorem rel_write {item : CacheItem} (hkey : item.key = key) (h : SameKey key s s') :
    Option.Rel Twin ((s.cache.write item).peek key) ((s'.cache.write item).peek key) := by
  subst hkey
  rw [peek_write, peek_write]
  have hc := h.cached
  cases h₁ : s.cache.peek item.key <;> cases h₂ : s'.cache.peek item.key <;>
    rw [h₁, h₂] at hc <;> cases hc
  · exact .none
  · exact .some (.same item)

/-- **One write of the owner**, to both. -/
theorem write (h : SameKey key s s') {w : Write}
    (hw : ∀ item, w.item = some item → item.key = key) :
    SameKey key (w.apply true key s) (w.apply true key s') := by
  cases w with
  -- nothing is left of the key, in the caches and in the Stores
  | remove =>
    have hstored : ∀ t : Shard, (t.remove key).stored key = none := by
      intro t
      cases hst : t.store <;> simp [Shard.remove, Shard.stored, hst]
    refine ⟨?_, ?_, ?_, ?_, ?_, ?_⟩
    · simp only [Write.apply, Shard.remove, Cache.peek_remove]
      exact .none
    · simp only [Write.apply, hstored]
      exact .none
    · intro item hitem
      simp only [Write.apply, hstored] at hitem
      cases hitem
    · simpa [Write.apply, Shard.remove] using h.store
    · intro st hst
      obtain ⟨st₀, hst₀, rfl⟩ := Option.map_eq_some_iff.mp hst
      exact h.faithful st₀ hst₀
    · intro st hst
      obtain ⟨st₀, hst₀, rfl⟩ := Option.map_eq_some_iff.mp hst
      exact h.faithful' st₀ hst₀
  | create item =>
    have hkey := hw item rfl
    refine written (.same item) hkey ?_ h.store h.faithful h.faithful'
    rw [← hkey, Cache.peek_add_self, Cache.peek_add_self]
    exact .some (.same item)
  | update item =>
    have hkey := hw item rfl
    exact written (.same item) hkey (h.rel_write hkey) h.store h.faithful h.faithful'
  -- the item is written in place, and the Stores are not told
  | mutate item =>
    have hkey := hw item rfl
    exact ⟨h.rel_write hkey, h.stored, h.proper, h.store, h.faithful, h.faithful'⟩

/-- All the writes of a call. -/
theorem writes {ws : List Write} (hw : ∀ w ∈ ws, ∀ item, w.item = some item → item.key = key)
    (h : SameKey key s s') :
    SameKey key (ws.foldl (Write.apply true key) s) (ws.foldl (Write.apply true key) s') := by
  induction ws generalizing s s' with
  | nil => exact h
  | cons w ws ih =>
    exact ih (fun w' hw' => hw w' (List.mem_cons_of_mem _ hw'))
      (h.write (hw w List.mem_cons_self))

/-- What two requests find: the same, or twins that differ in a duration. -/
theorem find (h : SameKey r.hashKey s s') :
    s.find now r = s'.find now r ∨ ∃ item b d q, b.remaining = .fin q ∧ 0 ≤ q ∧
      s.find now r = some (item, .leaky b) ∧ s'.find now r =
        some ({ item with value := some (.leaky { b with duration := d }) },
          .leaky { b with duration := d }) := by
  have hrel : Option.Rel Twin (s.lookup now r).1 (s'.lookup now r).1 := h.lookup.1
  unfold Shard.find
  cases hl : (s.lookup now r).1 <;> cases hl' : (s'.lookup now r).1 <;> rw [hl, hl'] at hrel <;>
    cases hrel
  · exact .inl rfl
  · rename_i item item' htwin
    cases htwin with
    | same => exact .inl rfl
    | duration b d hv hcredit =>
      obtain ⟨q, hq, h0⟩ := hcredit
      -- twins have one key, so both are taken for the request's or neither is
      by_cases hk : item.key = r.hashKey
      · exact .inr ⟨item, b, d, q, hq, h0, by simp [Shard.sane, hv, hk], by simp [Shard.sane, hk]⟩
      · exact .inl (by simp [Shard.sane, hv, hk])

/-- A call that finds twins. -/
theorem handle (conf : Config) (host : Host) (h : SameKey r.hashKey s s')
    {item : CacheItem} {b : LeakyBucketItem} {d : ℤ} {q : ℚ} (hq : b.remaining = .fin q)
    (h0 : 0 ≤ q) (hfind : s.find (epochMillis now) r = some (item, .leaky b))
    (hfind' : s'.find (epochMillis now) r =
      some ({ item with value := some (.leaky { b with duration := d }) },
        .leaky { b with duration := d })) :
    (handleGetRateLimit conf host now s r { isOwner := true }).1 =
        (handleGetRateLimit conf host now s' r { isOwner := true }).1 ∧
      SameKey r.hashKey (handleGetRateLimit conf host now s r { isOwner := true }).2
        (handleGetRateLimit conf host now s' r { isOwner := true }).2 := by
  have hlookup : SameKey r.hashKey (s.lookup (epochMillis now) r).2
      (s'.lookup (epochMillis now) r).2 := h.lookup.2
  -- the shards as they are after the lookup, and with the item removed
  have hremoved : SameKey r.hashKey ((s.lookup (epochMillis now) r).2.remove r.hashKey)
      ((s'.lookup (epochMillis now) r).2.remove r.hashKey) :=
    hlookup.write (w := .remove) (fun i hi => by cases hi)
  have hk : item.key = r.hashKey := (Shard.find_key hfind).2.2
  -- a token request removes the leaky item first; a leaky one works on it
  cases halg : r.algorithm with
  | unknown code => exact ⟨by simp only [handleGetRateLimit, halg],
      by simpa only [handleGetRateLimit, halg] using h⟩
  | tokenBucket =>
    simp only [handleGetRateLimit, halg, tokenBucket, hfind, hfind']
    by_cases hreset : hasBehavior r.behavior .resetRemaining = true
    · simp only [hreset, if_true]
      exact ⟨trivial, hremoved⟩
    · simp only [hreset, Bool.false_eq_true, if_false]
      obtain ⟨v, hsound, -, hnew⟩ :=
        tokenBucketNewItem_verdict host.location now r { isOwner := true } none
      simp only [hnew]
      exact ⟨trivial, hremoved.writes (fun w hw i hi => (hsound.own w hw i hi).1)⟩
  | leakyBucket =>
    simp only [handleGetRateLimit, halg, leakyBucket, leakyBucketBurst, find_withBurst,
      lookup_withBurst, hfind, hfind', leakyBucketItem_duration hq h0]
    cases leakyBucketItem host now r.withBurst
      { isOwner := true, waitCeiling := conf.scheduleMaxWait } b item.expireAt with
    | error e => exact ⟨rfl, hlookup⟩
    | ok out =>
      refine ⟨rfl, hlookup.write (w := .update _) (fun i hi => ?_)⟩
      obtain rfl := Option.some.inj hi
      exact hk

/-- **Step.**  Two owners whose items are twins answer alike, and their items stay twins. -/
theorem serve (conf : Config) (host : Host) {o o' : Owner} {i : Incoming}
    (h : SameKey i.req.hashKey o.shard o'.shard) :
    (o.serve conf host i).1 = (o'.serve conf host i).1 ∧
      SameKey i.req.hashKey (o.serve conf host i).2.shard (o'.serve conf host i).2.shard := by
  have hfound := @find _ _ i.req (epochMillis i.now) h
  rcases hfound with hsame | ⟨item, b, d, q, hq, h0, hfind, hfind'⟩
  · -- the same is found, so the same is decided
    obtain ⟨v, hsound, hcall⟩ := getLocalRateLimit_verdict conf host i.now i.req { isOwner := true }
      (o.shard.find (epochMillis i.now) i.req) (fun item b hf => (Shard.find_key hf).2.2)
    obtain ⟨hres, hshard⟩ := hcall o.shard rfl
    obtain ⟨hres', hshard'⟩ := hcall o'.shard hsame.symm
    refine ⟨hres.trans hres'.symm, ?_⟩
    show SameKey i.req.hashKey
      (getLocalRateLimit conf host i.now o.shard i.req { isOwner := true }).shard
      (getLocalRateLimit conf host i.now o'.shard i.req { isOwner := true }).shard
    rw [hshard, hshard', Verdict.shard, Verdict.shard]
    refine writes (fun w hw item hi => (hsound.own w hw item hi).1) ?_
    split
    · exact h.lookup.2
    · exact h
  · obtain ⟨hresult, hshard⟩ := handle conf host h hq h0 hfind hfind'
    -- twins are found: validation does not look at them, and the algorithms answer alike
    simp only [Owner.serve, getLocalRateLimit]
    by_cases hmsg : validateMaxWait i.req = ""
    · simp only [hmsg, ne_eq, not_true_eq_false, if_false]
      rcases hrun : handleGetRateLimit conf host i.now o.shard i.req { isOwner := true } with ⟨x, t⟩
      rcases hrun' : handleGetRateLimit conf host i.now o'.shard i.req { isOwner := true } with
        ⟨x', t'⟩
      rw [hrun, hrun'] at hresult hshard
      dsimp only at hresult hshard
      subst hresult
      cases x <;> exact ⟨rfl, hshard⟩
    · simp only [ne_eq, hmsg, not_false_eq_true, if_true]
      exact ⟨trivial, h⟩

/-- **Run.**  They answer alike for ever. -/
theorem run (conf : Config) (host : Host) {o o' : Owner} (h : SameKey key o.shard o'.shard)
    {later : List Incoming} (hkey : ∀ i ∈ later, i.req.hashKey = key) :
    (Machine.events (Owner.serve conf host) o later).map Prod.snd =
      (Machine.events (Owner.serve conf host) o' later).map Prod.snd := by
  -- one request at a time; the answers are compared before the owners
  induction later generalizing o o' with
  | nil => rfl
  | cons i later ih =>
    have hi : i.req.hashKey = key := hkey i List.mem_cons_self
    obtain ⟨hanswer, hnext⟩ := serve conf host (hi ▸ h)
    have hrest := ih (hi ▸ hnext) (fun j hj => hkey j (List.mem_cons_of_mem _ hj))
    simp only [Machine.events, List.map_cons, hanswer, hrest]

end SameKey

/-! ## Charging a full bucket

The request is put to a full bucket that is up to date: nothing leaks, nothing is cut off, and the
hits come off the burst. -/

/-- The requests compared: a valid leaky request for hits, or for a refund, that fits the burst,
    made at the owner's clock. -/
@[mk_iff] structure Creates (r : RateLimitReq) (now : ℤ) : Prop where
  leaky : r.algorithm = .leakyBucket
  valid : validateMaxWait r = ""
  limit_pos : 0 < r.limit
  burst_nonneg : 0 ≤ r.burst
  hits_ne : r.hits ≠ 0
  fits : r.hits ≤ r.withBurst.burst
  noReset : hasBehavior r.behavior .resetRemaining = false
  calendar : hasBehavior r.behavior .durationIsGregorian = true → ValidGregorian r.duration
  plain : hasBehavior r.behavior .durationIsGregorian = false → 0 < r.duration
  clock : r.createdAt = epochMillis now

instance (r : RateLimitReq) (now : ℤ) : Decidable (Creates r now) :=
  decidable_of_iff _ (creates_iff r now).symm

/-- A full bucket of the request's config, brought up to date at the clock, whatever duration it
    has stored. -/
def fullBucket (r : RateLimitReq) (now d : ℤ) : LeakyBucketItem :=
  { limit := r.limit, duration := d, remaining := .ofInt r.withBurst.burst
    updatedAt := epochMillis now, burst := r.withBurst.burst }

section Charge
variable {host : Host} {now : ℤ} {r : RateLimitReq}

/-- The burst is positive: the request's, or the limit for none. -/
theorem withBurst_burst_pos (hl : 0 < r.limit) (hb : 0 ≤ r.burst) : 0 < r.withBurst.burst := by
  unfold RateLimitReq.withBurst
  split
  · exact hl
  · omega

/-- What is left when hits that fit are taken from a full bucket. -/
theorem newBalance_fits (h : Creates r now) :
    newBalance r.withBurst = min r.withBurst.burst (r.withBurst.burst - r.hits) ∧
      0 ≤ newBalance r.withBurst := by
  have hpos := withBurst_burst_pos h.limit_pos h.burst_nonneg
  have hfits := h.fits
  rw [newBalance, withBurst_hits, if_neg (not_lt.mpr hfits)]
  omega

/-- A `max_wait` request asks for hits, by a rate of its own. -/
theorem Creates.scheduled (h : Creates r now) (hwait : 0 < r.maxWait) :
    0 < r.hits ∧ hasBehavior r.behavior .durationIsGregorian = false ∧ 0 < r.duration := by
  obtain ⟨-, -, hg, -, -, hhits⟩ := validateMaxWait_scheduled h.valid hwait
  exact ⟨lt_of_le_of_ne hhits (Ne.symm h.hits_ne), hg, h.plain hg⟩

/-- **The charge of a full bucket**: the hits come off, and the item ends when a new one would. -/
theorem leakyBucketItem_full (h : Creates r now) {rate : ExactFloat} {length : ℤ}
    (hterms : requestTerms host now r = .ok (rate, length)) (d x : ℤ)
    (reqState : RateLimitReqState) :
    leakyBucketItem host now r.withBurst reqState (fullBucket r now d) x = .ok
      { resp := { status := .underLimit, limit := r.limit, remaining := newBalance r.withBurst
                  resetTime := epochMillis now +
                    (r.limit - newBalance r.withBurst) * host.int64 rate }
        b := { fullBucket r now r.duration with remaining := .fin (newBalance r.withBurst) }
        expireAt := epochMillis now + length } := by
  have hpos := withBurst_burst_pos h.limit_pos h.burst_nonneg
  obtain ⟨hnew, hnew0⟩ := newBalance_fits h
  have hfits := h.fits
  have hq : (fullBucket r now d).remaining = .fin r.withBurst.burst := rfl
  have hq0 : (0 : ℚ) ≤ r.withBurst.burst := by exact_mod_cast hpos.le
  have hcreated : (if 0 < r.maxWait then epochMillis now else r.createdAt) = epochMillis now := by
    rw [h.clock, ite_self]
  unfold leakyBucketItem
  rw [leakyTerms_credit hq hq0, requestTerms_withBurst, hterms]
  simp only [withBurst_maxWait, withBurst_createdAt, hcreated]
  -- nothing has leaked, no burst has changed, and the clamp keeps a full bucket full
  have hcredited : ∀ tm : LeakyTerms, tm.createdAt = epochMillis now → tm.keepStored = false →
      tm.rescale = false → tm.burstChanged = false →
      credited r.withBurst tm (fullBucket r now d) = fullBucket r now r.duration := by
    intro tm ht hk hr hb
    have hsnap : snapToZero (.fin r.withBurst.burst) = .fin r.withBurst.burst := by
      rw [snapToZero_fin, snap_int]
    simp only [credited, creditLeak, ht, fullBucket, lt_irrefl, if_false, rescaleDebt, hr,
      Bool.false_eq_true, false_and, shiftBurst, hb, refill, withBurst_behavior, h.noReset,
      clampToBurst, ofInt_eq, min_fin, min_self, hsnap, adoptConfig, adopts, hk, Bool.not_false,
      Bool.true_or, if_true, withBurst_limit, withBurst_duration]
  rw [hcredited _ rfl rfl rfl (by simp [fullBucket])]
  have hwhole : wholeTokens host (fullBucket r now r.duration).remaining = r.withBurst.burst :=
    wholeTokens_int host hpos.le
  have hleft : ∀ n : ℤ, 0 ≤ n → wholeTokens host (.fin n) = n := fun n => wholeTokens_int host
  -- hits on a balance that is no debt renew the item from the request's time
  have htouched : ∀ tm : LeakyTerms, tm.wasInDebt = false → tm.createdAt = epochMillis now →
      tm.duration = length → touchedExpiry r.withBurst tm x = epochMillis now + length := by
    intro tm hw ht hd
    simp [touchedExpiry, hw, ht, hd, h.hits_ne]
  rw [htouched _ rfl rfl rfl]
  simp only [deferredExpiry, Bool.false_eq_true, false_and, if_false, chargeRate, adopts,
    Bool.not_false, Bool.true_or, if_true, charge, withBurst_hits, withBurst_maxWait, h.hits_ne,
    withBurst_behavior]
  have hnotDebt : ¬ (fullBucket r now r.duration).remaining < 0 := by
    show ¬ (ExactFloat.fin r.withBurst.burst) < 0
    rw [fin_lt_zero]
    exact not_lt.mpr hq0
  -- through `scheduleHits`, or past it
  by_cases hwait : 0 < r.maxWait
  · obtain ⟨hhits, hg, hd⟩ := h.scheduled hwait
    -- a `max_wait` request is never Gregorian, so its rate is its own duration over its limit
    have husable : unusableRate rate = false := by
      rw [requestTerms_plain hg, rateOf_pos _ h.limit_pos] at hterms
      rw [← (Prod.mk.inj (Except.ok.inj hterms)).1]
      exact unusableRate_fin (div_pos (by exact_mod_cast hd) (by exact_mod_cast h.limit_pos))
    have hbalance : snapToZero ((fullBucket r now r.duration).remaining - .ofInt r.hits) =
        .fin (newBalance r.withBurst) := by
      show snapToZero (ExactFloat.fin r.withBurst.burst - .fin r.hits) = _
      rw [fin_sub_fin, snapToZero_fin, hnew, min_eq_right (by omega)]
      have hint : (r.withBurst.burst : ℚ) - r.hits = ((r.withBurst.burst - r.hits : ℤ) : ℚ) := by
        push_cast
        ring
      rw [hint, snap_int]
    have hroom : ¬ ((fullBucket r now r.duration).burst < r.hits ∨ unusableRate rate = true) := by
      rw [husable]
      simpa [fullBucket] using hfits
    simp only [hwait, if_true, scheduleHits, withBurst_hits, hroom, if_false, hwhole, hfits,
      hbalance, spendableTokens, hleft _ hnew0, max_eq_right hnew0, Bool.false_eq_true]
    rfl
  · have hbalance : snapToZero (ExactFloat.min (.ofInt (fullBucket r now r.duration).burst)
        ((fullBucket r now r.duration).remaining - .ofInt r.hits)) =
        .fin (newBalance r.withBurst) := by
      show snapToZero (ExactFloat.min (.fin r.withBurst.burst)
        (ExactFloat.fin r.withBurst.burst - .fin r.hits)) = _
      have hint : min (r.withBurst.burst : ℚ) (r.withBurst.burst - r.hits) =
          ((newBalance r.withBurst : ℤ) : ℚ) := by
        rw [hnew]
        push_cast
        ring_nf
      rw [fin_sub_fin, min_fin, snapToZero_fin, hint, snap_int]
    simp only [hwait, if_false, hnotDebt, and_false, hwhole, not_lt.mpr hfits, hbalance,
      hleft _ hnew0]
    rfl

end Charge

/-! ## The two calls compared

The reset time is where the two copies of the computation differ.  `leakyBucketNewItem` divides
`r.Duration` by the limit, which for a Gregorian request is the code of its interval; the other path
divides the length of the interval. -/

/-- **The same call**: the same response, items with the same balance, burst, `UpdatedAt` and
    `ExpireAt`, and the same answers to all later requests. -/
structure SameCall (conf : Config) (host : Host) (o o' : Owner) (i : Incoming) : Prop where
  response : (o.serve conf host i).1 = (o'.serve conf host i).1
  item : ∃ item b item' b',
    (o.serve conf host i).2.shard.cache.peek i.req.hashKey = some item ∧
    (o'.serve conf host i).2.shard.cache.peek i.req.hashKey = some item' ∧
    item.value = some (.leaky b) ∧ item'.value = some (.leaky b') ∧
    b'.remaining = b.remaining ∧ b'.burst = b.burst ∧ b'.updatedAt = b.updatedAt ∧
    item'.expireAt = item.expireAt
  later : ∀ later : List Incoming, (∀ j ∈ later, j.req.hashKey = i.req.hashKey) →
    (Machine.events (Owner.serve conf host) (o.serve conf host i).2 later).map Prod.snd =
      (Machine.events (Owner.serve conf host) (o'.serve conf host i).2 later).map Prod.snd

/-- **When the reset times agree**: the duration is not Gregorian; or the balance left is the limit,
    so nothing is missing; or the limit is so large that a token takes less than a millisecond. -/
def ResetAgrees (host : Host) (now : ℤ) (r : RateLimitReq) : Prop :=
  hasBehavior r.behavior .durationIsGregorian = false ∨
    min r.withBurst.burst (r.withBurst.burst - r.hits) = r.limit ∨
    ∃ length, gregorianDuration host.location now r.duration = .ok length ∧ length < r.limit

section Compared
variable {conf : Config} {host : Host} {o o' : Owner} {i : Incoming}

/-- A valid leaky request is one call of `leakyBucket`. -/
theorem serve_creates (h : Creates i.req i.now) (conf : Config) (host : Host) (o : Owner)
    {resp : RateLimitResp} {s : Shard}
    (hcall : leakyBucket host i.now o.shard i.req conf.ownerState = (.ok resp, s)) :
    (o.serve conf host i).1 = .ok resp ∧ (o.serve conf host i).2.shard = s := by
  obtain ⟨hshard, hresp⟩ := getLocalRateLimit_valid conf host i.now o.shard
    { isOwner := true } h.valid
  obtain ⟨hs, hr⟩ := handleGetRateLimit_leaky conf host i.now o.shard { isOwner := true } h.leaky
  have hcall' : leakyBucket host i.now o.shard i.req
      { isOwner := true, waitCeiling := conf.scheduleMaxWait } = (.ok resp, s) := hcall
  refine ⟨(hresp resp).mpr ((hr resp).mpr ?_), (hshard.trans hs).trans ?_⟩
  · rw [hcall']
  · rw [hcall']

/-- The truncated rates agree only where both are zero. -/
theorem rates_agree_iff {limit d length : ℤ} (hl : 0 < limit) (hd : ValidGregorian d)
    (hlength : 1000 ≤ length) : d / limit = length / limit ↔ length < limit := by
  obtain ⟨h0, h5⟩ := hd
  constructor
  · intro heq
    by_contra hge
    -- the code is at most five, so beyond a limit of five its quotient is zero
    rcases le_or_gt limit 5 with hsmall | hlarge
    · have h200 : 200 ≤ length / limit := (Int.le_ediv_iff_mul_le hl).mpr (by omega)
      have hle : d / limit ≤ d := Int.ediv_le_self _ h0
      omega
    · have hzero : d / limit = 0 := Int.ediv_eq_zero_of_lt h0 (by omega)
      have hone : 1 ≤ length / limit := (Int.le_ediv_iff_mul_le hl).mpr (by omega)
      omega
  · intro hlt
    rw [Int.ediv_eq_zero_of_lt h0 (by omega), Int.ediv_eq_zero_of_lt (by omega) hlt]

/-- The reset times agree exactly on the inputs of `ResetAgrees`. -/
theorem resetTimes_agree_iff (h : Creates i.req i.now) {rate : ExactFloat} {length : ℤ}
    (hterms : requestTerms host i.now i.req = .ok (rate, length)) :
    epochMillis i.now + (i.req.limit - newBalance i.req.withBurst) *
          host.int64 (rateOf i.req.limit i.req.duration) =
        epochMillis i.now + (i.req.limit - newBalance i.req.withBurst) * host.int64 rate ↔
      ResetAgrees host i.now i.req := by
  unfold ResetAgrees
  cases hg : hasBehavior i.req.behavior .durationIsGregorian with
  | false =>
    rw [requestTerms_plain hg] at hterms
    rw [(Prod.mk.inj (Except.ok.inj hterms)).1]
    simp
  | true =>
    have hd := h.calendar hg
    simp only [requestTerms, hg, if_true] at hterms
    cases hlen : gregorianDuration host.location i.now i.req.duration with
    | error e => simp [hlen] at hterms
    | ok len =>
      cases hend : gregorianExpiration host.location i.now i.req.duration with
      | error e => simp [hlen, hend] at hterms
      | ok e =>
        simp only [hlen, hend, Except.ok.injEq, Prod.mk.injEq] at hterms
        have hge := gregorianDuration_ge hlen
        rw [← hterms.1, int64_rateOf host h.limit_pos hd.1,
          int64_rateOf host h.limit_pos (by omega), add_right_inj, mul_eq_mul_left_iff,
          rates_agree_iff h.limit_pos hd hge, (newBalance_fits h).1]
        simp only [Bool.true_eq_false, false_or, Except.ok.injEq, exists_eq_left']
        -- equal products: nothing is missing, or the truncated rates are equal
        constructor
        · rintro (hlt | hzero)
          · exact .inr hlt
          · exact .inl (by omega)
        · rintro (heq | hlt)
          · exact .inr (by omega)
          · exact .inl hlt

/-- What the call leaves behind on a full bucket: the item a new key gets, but for the stored
    duration. -/
def chargedFull (r : RateLimitReq) (now length : ℤ) : CacheItem :=
  { newLeakyItem r.withBurst (epochMillis now) length with
    value := some (.leaky
      { newLeakyBucket r.withBurst (epochMillis now) length with duration := r.duration }) }

/-- The call on a key without an item. -/
theorem leakyBucket_creates {now : ℤ} {s : Shard} {r : RateLimitReq} {reqState : RateLimitReqState}
    (h : Creates r now) (hmiss : s.find (epochMillis now) r = none) {rate : ExactFloat} {length : ℤ}
    (hterms : requestTerms host now r = .ok (rate, length)) :
    leakyBucket host now s r reqState =
      (.ok { limit := r.limit, remaining := newBalance r.withBurst
             resetTime := epochMillis now + (r.limit - newBalance r.withBurst) *
               host.int64 (rateOf r.limit r.duration) },
        (s.lookup (epochMillis now) r).2.create reqState.isOwner
          (newLeakyItem r.withBurst (epochMillis now) length)) := by
  have hfits : ¬ (0 < r.withBurst.maxWait ∧ r.withBurst.burst < r.withBurst.hits) := by
    rintro ⟨-, hover⟩
    rw [withBurst_hits] at hover
    exact not_le.mpr hover h.fits
  have hbase : leakyBase now s r = (s.lookup (epochMillis now) r).2 := by
    simp only [leakyBase, hmiss]
  rw [leakyBucket_missing (by simp [hmiss]), hbase,
    leakyBucketNewItem_creates host _ reqState
      ((requestTerms_withBurst r host now).trans hterms) hfits]
  simp only [withBurst_maxWait, withBurst_createdAt, h.clock, ite_self, withBurst_hits,
    not_lt.mpr h.fits, if_false, withBurst_limit, withBurst_duration]

/-- The call on a key whose bucket is full. -/
theorem leakyBucket_charges {now : ℤ} {s : Shard} {r : RateLimitReq} {reqState : RateLimitReqState}
    (h : Creates r now) {item : CacheItem} {d : ℤ}
    (hfull : s.find (epochMillis now) r = some (item, .leaky (fullBucket r now d)))
    (halgorithm : item.algorithm = .leakyBucket) (hvalid : item.invalidAt = 0)
    {rate : ExactFloat} {length : ℤ} (hterms : requestTerms host now r = .ok (rate, length)) :
    leakyBucket host now s r reqState =
      (.ok { limit := r.limit, remaining := newBalance r.withBurst
             resetTime := epochMillis now +
               (r.limit - newBalance r.withBurst) * host.int64 rate },
        (s.lookup (epochMillis now) r).2.update reqState.isOwner (chargedFull r now length)) := by
  have hkey : item.key = r.hashKey := (Shard.find_key hfull).2.2
  -- the fields that the charge does not write are those a new item would have
  have hitem : ({ item with
      value := some (.leaky { fullBucket r now r.duration with
        remaining := .fin (newBalance r.withBurst) })
      expireAt := epochMillis now + length } : CacheItem) = chargedFull r now length := by
    obtain ⟨algorithm, key, value, expireAt, invalidAt⟩ := item
    dsimp only at halgorithm hvalid hkey
    subst halgorithm hvalid hkey
    simp only [chargedFull, newLeakyItem, newLeakyBucket, fullBucket, withBurst_hashKey,
      withBurst_limit, withBurst_algorithm, h.leaky, ofInt_eq]
  simp only [leakyBucket, leakyBucketBurst, find_withBurst, lookup_withBurst, hfull,
    leakyBucketItem_full h hterms, hitem]

/-- **Creating a leaky bucket equals charging a full one, exactly if the reset times agree**: a
    request on a key without an item and on one whose item is full, at owners with no Store or
    with faithful ones. -/
theorem creation_is_charge_iff (h : Creates i.req i.now)
    (hmiss : o.shard.find (epochMillis i.now) i.req = none) {item : CacheItem} {d : ℤ}
    (hfull : o'.shard.find (epochMillis i.now) i.req =
      some (item, .leaky (fullBucket i.req i.now d)))
    (halgorithm : item.algorithm = .leakyBucket) (hvalid : item.invalidAt = 0)
    (hstore : o.shard.store.isSome = o'.shard.store.isSome)
    (hfaithful : ∀ st, o.shard.store = some st → st.Faithful)
    (hfaithful' : ∀ st, o'.shard.store = some st → st.Faithful) :
    SameCall conf host o o' i ↔ ResetAgrees host i.now i.req := by
  obtain ⟨⟨rate, length⟩, hterms⟩ := (requestTerms_ok_iff host i.now i.req).mpr h.calendar
  obtain ⟨hr, hs⟩ := serve_creates h conf host o (leakyBucket_creates h hmiss hterms)
  obtain ⟨hr', hs'⟩ := serve_creates h conf host o'
    (leakyBucket_charges h hfull halgorithm hvalid hterms)
  have hkey : (newLeakyItem i.req.withBurst (epochMillis i.now) length).key = i.req.hashKey :=
    withBurst_hashKey i.req
  -- what each owner holds after the call
  have hpeek : (o.serve conf host i).2.shard.cache.peek i.req.hashKey =
      some (newLeakyItem i.req.withBurst (epochMillis i.now) length) := by
    rw [hs, ← hkey]
    exact Cache.peek_add_self _ _
  have hpeek' : (o'.serve conf host i).2.shard.cache.peek i.req.hashKey =
      some (chargedFull i.req i.now length) := by
    have hown : (chargedFull i.req i.now length).key = item.key :=
      hkey.trans (Shard.find_key hfull).2.2.symm
    rw [hs']
    exact Shard.peek_update_found hfull hown _
  -- the two items are twins, so nobody tells them apart later
  have htwin : Twin (newLeakyItem i.req.withBurst (epochMillis i.now) length)
      (chargedFull i.req i.now length) :=
    .duration _ _ i.req.duration rfl
      ⟨newBalance i.req.withBurst, rfl, by exact_mod_cast (newBalance_fits h).2⟩
  have hsame : SameKey i.req.hashKey (o.serve conf host i).2.shard
      (o'.serve conf host i).2.shard := by
    have hrel : Option.Rel Twin ((o.serve conf host i).2.shard.cache.peek i.req.hashKey)
        ((o'.serve conf host i).2.shard.cache.peek i.req.hashKey) := by
      rw [hpeek, hpeek']
      exact .some htwin
    rw [hs, hs'] at hrel ⊢
    exact SameKey.written htwin hkey hrel (by rw [lookup_store, lookup_store, hstore])
      (by rwa [lookup_store]) (by rwa [lookup_store])
  rw [← resetTimes_agree_iff h hterms]
  constructor
  · -- the response tells the reset times apart; everything else agrees without them
    intro hcall
    have hresp := hcall.response
    rw [hr, hr'] at hresp
    exact congrArg RateLimitResp.resetTime (Except.ok.inj hresp)
  · -- equal reset times make the responses equal
    intro hreset
    refine ⟨?_, ?_, fun later hlater => hsame.run conf host hlater⟩
    · rw [hr, hr', hreset]
    · exact ⟨_, _, _, _, hpeek, hpeek', rfl, rfl, rfl, rfl, rfl, rfl⟩

end Compared

/-- One hit on the key `requests_account:1`, by the minute, at a quarter past ten on 2026-11-15. -/
def minuteHit (limit : ℤ) : Incoming :=
  ⟨1794737700000000000, { RateLimitReq.sample 1 limit 0 0 1794737700000 0 with
    behavior := .durationIsGregorian }⟩

/-- An owner whose cache holds the full bucket of that request. -/
def fullOwner (limit : ℤ) : Owner :=
  ⟨0, .ofItems [⟨.leakyBucket, "requests_account:1",
    some (.leaky (fullBucket (minuteHit limit).req 1794737700000000000 0)), 1794737759999, 0⟩]⟩

/-- A hundred thousand a minute: a token takes less than a millisecond. -/
theorem creation_is_charge_iff_fastMinute :
    SameCall ⟨0⟩ .amd64 ⟨0, .ofItems []⟩ (fullOwner 100000) (minuteHit 100000) :=
  (creation_is_charge_iff (d := 0) (by decide +kernel) (by decide +kernel) (by rfl) rfl rfl (by rfl)
    (by simp [Shard.ofItems]) (by simp [fullOwner, Shard.ofItems])).mpr
    (.inr (.inr ⟨60000, by decide +kernel, by decide⟩))

/-- **Ten a minute**: the new key says that it is full again at once, the full bucket that it takes
    the six seconds of a token. -/
theorem creation_differs_from_charge :
    Creates (minuteHit 10).req (minuteHit 10).now ∧
    ((Owner.mk 0 (.ofItems [])).serve ⟨0⟩ .amd64 (minuteHit 10)).1 =
      .ok { limit := 10, remaining := 9, resetTime := 1794737700000 } ∧
    ((fullOwner 10).serve ⟨0⟩ .amd64 (minuteHit 10)).1 =
      .ok { limit := 10, remaining := 9, resetTime := 1794737706000 } := by
  decide +kernel

end Gubernator
