/-
  A WINDOW OF REQUESTS on a token bucket.

  The requests of one window have the same terms, so only the first of them has any adopting to do;
  after it they take the sum of their hits, drained at zero (`TokenLive.run`).  Before that stands
  what the first request finds: nothing, a bucket it adopts, or a bucket it resets.

  Three things can keep the sum from being what the requests take one by one, and each is a
  hypothesis of a lemma here: a new bucket is not drained by the request that makes it; a bucket may
  end with the duration it adopts, so that the next request makes a new one (`hkept`); and a reset
  throws away what was taken before it.
-/
import Gubernator.Global.Aggregation

namespace Gubernator

open ExactFloat

/-! ## Token buckets

A token bucket does not leak, so all that happens to it within a window is that hits are taken. With
draining, taking them one by one is taking their sum. -/

/-- What is left of `y` tokens after a request for `h` hits that drains. -/
def drained (y h : ℤ) : ℤ := if h = 0 then y else max (y - h) 0

/-- **Draining adds up**, which is why the order of the requests does not matter. -/
theorem drained_drained {y h h' : ℤ} (hh : 0 ≤ h) (hh' : 0 ≤ h') :
    drained (drained y h) h' = drained y (h + h') := by
  unfold drained
  by_cases h0 : h = 0
  · rw [if_pos h0, h0, zero_add]
  · -- hits are not negative, so the sum of the two is a request for hits as well
    have hsum : h + h' ≠ 0 := by omega
    rw [if_neg h0, if_neg hsum]
    split <;> omega

/-- A decision takes the hits or drains. -/
theorem takeHits_drained {r : RateLimitReq} (hdrain : hasBehavior r.behavior .drainOverLimit = true)
    (t : TokenBucketItem) (x : ℤ) :
    (takeHits r t x).2.remaining = drained t.remaining r.hits := by
  unfold takeHits drained
  rw [hdrain]
  by_cases h0 : r.hits = 0
  · rw [if_pos h0, if_pos h0]
    split <;> rfl
  rw [if_neg h0, if_neg h0]
  split
  · -- nothing left
    rename_i hempty
    show t.remaining = _
    omega
  split
  · -- exactly what is left
    rename_i heq
    show (0 : ℤ) = _
    omega
  split
  · -- more than is left, which is drained
    rename_i hshort
    show (0 : ℤ) = _
    omega
  · show t.remaining - r.hits = _
    omega

section Token
variable (conf : Config) {host : Host} {now : ℤ} {s : Shard} {stored : Bool}
  {r₀ p : RateLimitReq} {ps : List RateLimitReq}

/-- The owner serves a request of the window with the algorithm itself. -/
theorem serve_tokenBucket (hp : Sent r₀ p) (halg : r₀.algorithm = .tokenBucket) :
    serve conf host now s p = (tokenBucket host.location now s p { isOwner := true }).2 := by
  simp only [serve, getLocalRateLimit, hp.validated, handleGetRateLimit, hp.algorithm, halg, ne_eq,
    not_true_eq_false, if_false]
  split <;> rename_i h <;> exact (Prod.mk.inj h).2.symm

/-- A new item would end at the same time for all of them. -/
theorem Sent.tokenExpiry (hp : Sent r₀ p) (loc : Calendar.Location) (now : ℤ) :
    tokenExpiry loc now p = tokenExpiry loc now r₀ := by
  simp only [Gubernator.tokenExpiry, hp.calendar, hp.duration, hp.createdAt]

/-! ## A key without an item

The first request makes an item; one whose expiry has passed already is never found, and then the
next request makes another. -/

/-- The item a first request leaves, found if its expiry is still ahead. -/
theorem token_first (hp : Sent r₀ p) (halg : r₀.algorithm = .tokenBucket) {x : ℤ}
    (hx : tokenExpiry host.location now r₀ = .ok x)
    (h : Seen s stored (epochMillis now) r₀.hashKey none) :
    Seen (serve conf host now s p) stored (epochMillis now) r₀.hashKey
      (if epochMillis now ≤ x then some (newTokenItem p x, .token (newTokenBucket p))
      else none) := by
  rw [serve_tokenBucket conf hp halg]
  have hnew := h.token_new hp.key ((hp.tokenExpiry _ _).trans hx)
  rw [seen_of_valid rfl] at hnew
  exact hnew

/-- A key whose items are born dead stays without one. -/
theorem token_stillborn (halg : r₀.algorithm = .tokenBucket) {x : ℤ}
    (hx : tokenExpiry host.location now r₀ = .ok x) (hdead : x < epochMillis now)
    (hps : ∀ p ∈ ps, Sent r₀ p) (h : Seen s stored (epochMillis now) r₀.hashKey none) :
    Seen (ps.foldl (serve conf host now) s) stored (epochMillis now) r₀.hashKey none := by
  induction ps generalizing s with
  | nil => exact h
  | cons p ps ih =>
    obtain ⟨hp, hps'⟩ := List.forall_mem_cons.mp hps
    have hstep := token_first conf hp halg hx h
    rw [if_neg (not_le.mpr hdead)] at hstep
    exact ih hps' hstep

/-! ## A bucket that needs no adopting

After the first request the bucket has the window's limit and duration.  From there on a request
changes the balance and nothing else. -/

/-- A live bucket of the window's limit and duration. -/
structure TokenLive (r₀ : RateLimitReq) (stored : Bool) (now : ℤ) (item : CacheItem)
    (t : TokenBucketItem) : Prop where
  live : item.live stored now = true
  limit : t.limit = r₀.limit
  duration : t.duration = r₀.duration

/-- **One request on a live bucket.** -/
theorem TokenLive.step {item : CacheItem} {t : TokenBucketItem}
    (ht : TokenLive r₀ stored (epochMillis now) item t) (hp : Sent r₀ p)
    (halg : r₀.algorithm = .tokenBucket) (hreset : p.resets = false)
    (h : Seen s stored (epochMillis now) r₀.hashKey (some (item, .token t))) :
    ∃ item' t', Seen (serve conf host now s p) stored (epochMillis now) r₀.hashKey
        (some (item', .token t')) ∧
      TokenLive r₀ stored (epochMillis now) item' t' ∧
      t'.remaining = drained t.remaining p.hits := by
  -- the bucket has the request's limit and duration already: nothing to adopt
  have hset : setDuration host.location now p (t.setLimit p.limit) item.expireAt =
      .ok (t, item.expireAt) := by
    rw [hp.limit, ← ht.limit, setLimit_self, setDuration, if_neg]
    rw [not_not, hp.duration]
    exact ht.duration
  have hlive : CacheItem.live stored (epochMillis now)
      { item with value := some (.token (takeHits p t item.expireAt).2) } = true := ht.live
  have hwork := h.token_work hp.key hreset hset
  rw [CacheItem.seen, if_pos hlive] at hwork
  refine ⟨_, _, ?_, ⟨hlive, ?_, ?_⟩, takeHits_drained hp.drain t item.expireAt⟩
  · rw [serve_tokenBucket conf hp halg]
    exact hwork
  · rw [takeHits_limit, ht.limit]
  · rw [takeHits_duration, ht.duration]

/-- **Many requests on a live bucket** take the sum of their hits. -/
theorem TokenLive.run {item : CacheItem} {t : TokenBucketItem}
    (ht : TokenLive r₀ stored (epochMillis now) item t) (halg : r₀.algorithm = .tokenBucket)
    (hps : ∀ p ∈ ps, Sent r₀ p) (hreset : ∀ p ∈ ps, p.resets = false)
    (h : Seen s stored (epochMillis now) r₀.hashKey (some (item, .token t))) :
    ∃ item' t', Seen (ps.foldl (serve conf host now) s) stored (epochMillis now) r₀.hashKey
        (some (item', .token t')) ∧
      TokenLive r₀ stored (epochMillis now) item' t' ∧
      t'.remaining = drained t.remaining (hitsOf ps) := by
  induction ps generalizing s item t with
  | nil => exact ⟨item, t, h, ht, by simp [drained]⟩
  | cons p ps ih =>
    obtain ⟨hp, hps'⟩ := List.forall_mem_cons.mp hps
    obtain ⟨hpreset, hreset'⟩ := List.forall_mem_cons.mp hreset
    -- one request keeps the bucket live, and the rest drain what it leaves
    obtain ⟨item₁, t₁, h₁, ht₁, hrem₁⟩ := ht.step conf hp halg hpreset h
    obtain ⟨item₂, t₂, h₂, ht₂, hrem₂⟩ := ih ht₁ hps' hreset' h₁
    refine ⟨item₂, t₂, h₂, ht₂, ?_⟩
    rw [hrem₂, hrem₁, hitsOf_cons, drained_drained hp.hits (hitsOf_nonneg hps')]

/-- A key without an item counts as full. -/
theorem full_token (halg : r₀.algorithm = .tokenBucket) :
    balanceFound r₀ none = .ofInt r₀.limit := by
  simp [balanceFound, halg]

/-- **A window on a key without an item**, no reset after its first request. -/
theorem token_new_leaves (halg : r₀.algorithm = .tokenBucket) {x : ℤ}
    (hx : tokenExpiry host.location now r₀ = .ok x) (hp : Sent r₀ p) (hps : ∀ p' ∈ ps, Sent r₀ p')
    (hreset : ∀ p' ∈ ps, p'.resets = false)
    (h : Seen s stored (epochMillis now) r₀.hashKey none) :
    Leaves ((p :: ps).foldl (serve conf host now) s) stored now r₀
      (if epochMillis now ≤ x then .ofInt (drained (newTokenBucket p).remaining (hitsOf ps))
        else .ofInt r₀.limit) := by
  have hfirst := token_first conf hp halg hx h
  rw [List.foldl_cons]
  by_cases hlive : epochMillis now ≤ x
  · -- the first request is not drained; the others are
    rw [if_pos hlive] at hfirst ⊢
    have ht : TokenLive r₀ stored (epochMillis now) (newTokenItem p x) (newTokenBucket p) :=
      ⟨hfirst.live rfl, hp.limit, hp.duration⟩
    obtain ⟨item', t', h', -, hrem⟩ := ht.run conf halg hps hreset hfirst
    exact ⟨_, h', by rw [balanceFound, hrem]⟩
  · -- born dead, as are the items of all the others
    rw [if_neg hlive] at hfirst ⊢
    exact ⟨none, token_stillborn conf halg hx (not_le.mp hlive) hps hfirst, full_token halg⟩

/-! ## A bucket found

The first request adopts its limit and duration (`setLimit`, `setDuration`), which may end the item.
-/

/-- All adopt the same duration. -/
theorem Sent.setDuration (hp : Sent r₀ p) (loc : Calendar.Location) (now : ℤ) (t : TokenBucketItem)
    (x : ℤ) : setDuration loc now p t x = setDuration loc now r₀ t x := by
  simp only [Gubernator.setDuration, newExpire, hp.duration, hp.calendar, hp.createdAt]

/-- Adopting it changes the duration, not the limit. -/
theorem setDuration_fields {loc : Calendar.Location} {r : RateLimitReq} {t t₂ : TokenBucketItem}
    {x x₂ : ℤ} (h : setDuration loc now r t x = .ok (t₂, x₂)) :
    t₂.limit = t.limit ∧ t₂.duration = r.duration := by
  unfold Gubernator.setDuration at h
  split at h
  · cases hn : newExpire loc now r t with
    | error e => simp [hn] at h
    | ok expire =>
      simp only [hn] at h
      split at h <;> obtain ⟨rfl, rfl⟩ := Prod.mk.inj (Except.ok.inj h) <;> exact ⟨rfl, rfl⟩
  · -- the duration is the request's already
    rename_i hsame
    obtain ⟨rfl, rfl⟩ := Prod.mk.inj (Except.ok.inj h)
    exact ⟨rfl, not_not.mp hsame⟩

/-- The first request gives a found bucket the window's limit and duration. -/
theorem token_adopts {item : CacheItem} {t t₂ : TokenBucketItem} {x₂ : ℤ}
    (halg : r₀.algorithm = .tokenBucket) (hp : Sent r₀ p) (hreset : p.resets = false)
    (hset : setDuration host.location now r₀ (t.setLimit r₀.limit) item.expireAt = .ok (t₂, x₂))
    (h : Seen s stored (epochMillis now) r₀.hashKey (some (item, .token t))) :
    if epochMillis now ≤ x₂ then
      ∃ item' t', Seen (serve conf host now s p) stored (epochMillis now) r₀.hashKey
          (some (item', .token t')) ∧
        TokenLive r₀ stored (epochMillis now) item' t' ∧
        t'.remaining = drained t₂.remaining p.hits
    else Seen (serve conf host now s p) stored (epochMillis now) r₀.hashKey none := by
  have hset' : Gubernator.setDuration host.location now p (t.setLimit p.limit) item.expireAt =
      .ok (t₂, x₂) := by rw [hp.setDuration, hp.limit, hset]
  have hwork := h.token_work hp.key hreset hset'
  have hlive := h.live rfl
  rw [seen_of_live hlive, ← serve_tokenBucket conf hp halg] at hwork
  split
  · rename_i hx
    rw [if_pos hx] at hwork
    obtain ⟨hlimit, hduration⟩ := setDuration_fields hset
    refine ⟨_, _, hwork, ⟨hwork.live rfl, ?_, ?_⟩, takeHits_drained hp.drain t₂ x₂⟩
    · rw [takeHits_limit, hlimit, setLimit_limit]
    · rw [takeHits_duration, hduration]
  · -- it ends with the duration it has adopted
    rename_i hx
    rw [if_neg hx] at hwork
    exact hwork

/-- **A window on a found bucket** without resets.  Its expiry is moved before the clock only if
    that of a new item would be, too. -/
theorem token_found_run {item : CacheItem} {t t₂ : TokenBucketItem} {x x₂ : ℤ}
    (halg : r₀.algorithm = .tokenBucket) (hx : tokenExpiry host.location now r₀ = .ok x)
    (hset : setDuration host.location now r₀ (t.setLimit r₀.limit) item.expireAt = .ok (t₂, x₂))
    (hkept : epochMillis now ≤ x₂ ∨ x < epochMillis now) (hp : Sent r₀ p)
    (hps : ∀ p' ∈ ps, Sent r₀ p') (hreset : ∀ p' ∈ p :: ps, p'.resets = false)
    (h : Seen s stored (epochMillis now) r₀.hashKey (some (item, .token t))) :
    if epochMillis now ≤ x₂ then
      ∃ item' t', Seen ((p :: ps).foldl (serve conf host now) s) stored (epochMillis now)
          r₀.hashKey (some (item', .token t')) ∧
        t'.remaining = drained t₂.remaining (hitsOf (p :: ps))
    else Seen ((p :: ps).foldl (serve conf host now) s) stored (epochMillis now) r₀.hashKey
      none := by
  obtain ⟨hpreset, hreset'⟩ := List.forall_mem_cons.mp hreset
  have hfirst := token_adopts conf halg hp hpreset hset h
  rw [List.foldl_cons]
  split
  · rename_i hlive
    rw [if_pos hlive] at hfirst
    obtain ⟨item₁, t₁, h₁, ht₁, hrem₁⟩ := hfirst
    obtain ⟨item', t', h', -, hrem⟩ := ht₁.run conf halg hps hreset' h₁
    refine ⟨item', t', h', ?_⟩
    rw [hrem, hrem₁, hitsOf_cons, drained_drained hp.hits (hitsOf_nonneg hps)]
  · -- the next request finds nothing, and by `hkept` makes nothing that lasts
    rename_i hdead
    rw [if_neg hdead] at hfirst
    exact token_stillborn conf halg hx (hkept.resolve_left hdead) hps hfirst

/-- **A window on a found bucket**, without resets: the sum of the hits is taken from what it has
    after adopting the limit, unless it ends with the new duration. -/
theorem token_found_leaves {item : CacheItem} {t t₂ : TokenBucketItem} {x x₂ : ℤ}
    (halg : r₀.algorithm = .tokenBucket) (hx : tokenExpiry host.location now r₀ = .ok x)
    (hset : setDuration host.location now r₀ (t.setLimit r₀.limit) item.expireAt = .ok (t₂, x₂))
    (hkept : epochMillis now ≤ x₂ ∨ x < epochMillis now) (hp : Sent r₀ p)
    (hps : ∀ p' ∈ ps, Sent r₀ p') (hreset : ∀ p' ∈ p :: ps, p'.resets = false)
    (h : Seen s stored (epochMillis now) r₀.hashKey (some (item, .token t))) :
    Leaves ((p :: ps).foldl (serve conf host now) s) stored now r₀
      (if epochMillis now ≤ x₂ then .ofInt (drained t₂.remaining (hitsOf (p :: ps)))
        else .ofInt r₀.limit) := by
  have hrun := token_found_run conf halg hx hset hkept hp hps hreset h
  split at hrun
  · rename_i hlive
    obtain ⟨item', t', h', hrem⟩ := hrun
    rw [if_pos hlive]
    exact ⟨_, h', by rw [balanceFound, hrem]⟩
  · rename_i hdead
    rw [if_neg hdead]
    exact ⟨none, hrun, full_token halg⟩

/-! ## A bucket that is reset

A reset removes the item, and the requests after it find none. -/

/-- Requests without hits leave a key without an item full. -/
theorem token_queries_leave (halg : r₀.algorithm = .tokenBucket) {x : ℤ}
    (hx : tokenExpiry host.location now r₀ = .ok x) (hps : ∀ p ∈ ps, Sent r₀ p)
    (hqueries : ∀ p ∈ ps, p.hits = 0 ∧ p.resets = false)
    (h : Seen s stored (epochMillis now) r₀.hashKey none) :
    Leaves (ps.foldl (serve conf host now) s) stored now r₀ (.ofInt r₀.limit) := by
  cases ps with
  | nil => exact ⟨none, h, full_token halg⟩
  | cons p ps =>
    obtain ⟨hp, hps'⟩ := List.forall_mem_cons.mp hps
    obtain ⟨⟨h0, -⟩, hqueries'⟩ := List.forall_mem_cons.mp hqueries
    have hleaves := token_new_leaves conf halg hx hp hps' (fun p' hp' => (hqueries' p' hp').2) h
    have hnone : hitsOf ps = 0 := by
      refine List.sum_eq_zero ?_
      intro n hn
      obtain ⟨p', hp', rfl⟩ := List.mem_map.mp hn
      exact (hqueries' p' hp').1
    -- a query makes a full bucket, and the queries after it take nothing
    have hfull : drained (newTokenBucket p).remaining (hitsOf ps) = r₀.limit := by
      rw [hnone, drained, if_pos rfl, newTokenBucket, h0, hp.limit]
      simp
    rwa [hfull, ite_self] at hleaves

/-- **A window whose last request with hits resets** a found bucket leaves the key full. -/
theorem token_reset_leaves {item : CacheItem} {t t₂ : TokenBucketItem} {x x₂ : ℤ}
    {zs : List RateLimitReq} (halg : r₀.algorithm = .tokenBucket)
    (hx : tokenExpiry host.location now r₀ = .ok x)
    (hset : setDuration host.location now r₀ (t.setLimit r₀.limit) item.expireAt = .ok (t₂, x₂))
    (hkept : epochMillis now ≤ x₂ ∨ x < epochMillis now) (hps : ∀ p' ∈ ps, Sent r₀ p')
    (hreset : ∀ p' ∈ ps, p'.resets = false) (hp : Sent r₀ p) (hp' : p.resets = true)
    (hzs : ∀ z ∈ zs, Sent r₀ z) (hqueries : ∀ z ∈ zs, z.hits = 0 ∧ z.resets = false)
    (h : Seen s stored (epochMillis now) r₀.hashKey (some (item, .token t))) :
    Leaves ((ps ++ p :: zs).foldl (serve conf host now) s) stored now r₀ (.ofInt r₀.limit) := by
  -- the reset finds a bucket and removes it, or finds none and makes one that is dead at once
  have hremoved : Seen ((ps ++ [p]).foldl (serve conf host now) s) stored (epochMillis now)
      r₀.hashKey none := by
    rw [List.foldl_append, List.foldl_cons, List.foldl_nil]
    cases ps with
    | nil =>
      rw [List.foldl_nil, serve_tokenBucket conf hp halg]
      exact h.token_reset hp.key hp' host.location
    | cons p₁ ps =>
      obtain ⟨hp₁, hps'⟩ := List.forall_mem_cons.mp hps
      have hrun := token_found_run conf halg hx hset hkept hp₁ hps' hreset h
      split at hrun
      · -- the requests before it have left a bucket, which the reset removes
        obtain ⟨item', t', h', -⟩ := hrun
        rw [serve_tokenBucket conf hp halg]
        exact h'.token_reset hp.key hp' host.location
      · rename_i hdead
        -- they have ended it, and the reset makes one that is dead at once
        have hnew := token_first conf hp halg hx hrun
        rwa [if_neg (not_le.mpr (hkept.resolve_left hdead))] at hnew
  have hsplit : ps ++ p :: zs = (ps ++ [p]) ++ zs := by simp
  rw [hsplit, List.foldl_append]
  exact token_queries_leave conf halg hx hzs hqueries hremoved

end Token

end Gubernator
