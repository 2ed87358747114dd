/-
  STATUS QUERIES ARE FREE: a run answers the same with or without them.

  A query credits the leak and writes the balance back, so it restarts the line the balance is on.
  What a later request sees does not depend on that as long as nothing is lost on the way, and
  three things can get lost:

  * a fraction of a token, when the balance is snapped to zero — not if all balances lie on a grid
    coarser than `1e-9` (`OnGrid`);
  * the difference between a key that has an item and one that has none — not if the item is full
    whenever it can be dropped (`Covered`) and a new bucket is what a full one would be;
  * nothing else: `Levelled` says that a shard shows the level `f` from some moment on, and a
    request turns equal levels into equal answers and equal levels.

  The comparison is of two owners, one that gets the queries and one that does not, kept at the SAME
  LEVEL: a function of time that says what a request at each later moment would be charged on.  A
  query leaves the level (`SameLevel.query`), and any other request is decided by it
  (`SameLevel.request`); `Machine.purge_rule` makes runs of the two.  The examples in `queries_cost`
  break one of the conditions each.
-/
import Gubernator.Leaky.Expiry
import Gubernator.Leaky.MaxWait

namespace Gubernator

open ExactFloat CappedLine

/-! ## Balances on a grid

A key leaks a whole number of grid steps in a millisecond, and hits are whole tokens, so a balance
that starts on the grid stays there.  The grid is no finer than `1e-9` unless the duration, in
lowest terms against the limit, exceeds `1e9` milliseconds, some eleven days. -/

/-- A multiple of one `n`-th of a token. -/
def OnGrid (n : ℤ) (q : ℚ) : Prop := ∃ z : ℤ, q * n = z

section Grid
variable {n : ℤ} {p q : ℚ}

/-- Whole tokens are on every grid. -/
theorem onGrid_int (n m : ℤ) : OnGrid n m := ⟨m * n, by push_cast; rfl⟩

/-- The grid is closed under sums. -/
theorem OnGrid.add (hp : OnGrid n p) (hq : OnGrid n q) : OnGrid n (p + q) := by
  obtain ⟨z, hz⟩ := hp
  obtain ⟨w, hw⟩ := hq
  exact ⟨z + w, by rw [add_mul, hz, hw]; push_cast; rfl⟩

/-- The grid is closed under taking whole tokens. -/
theorem OnGrid.sub_int (hp : OnGrid n p) (m : ℤ) : OnGrid n (p - m) := by
  obtain ⟨z, hz⟩ := hp
  exact ⟨z - m * n, by rw [sub_mul, hz]; push_cast; rfl⟩

/-- The grid is closed under the cap. -/
theorem OnGrid.min (hp : OnGrid n p) (hq : OnGrid n q) : OnGrid n (min p q) := by
  rcases le_total p q with h | h
  · rwa [min_eq_left h]
  · rwa [min_eq_right h]

/-- The grid is closed under the snap, which goes to zero or nowhere. -/
theorem OnGrid.snap (hq : OnGrid n q) : OnGrid n (Gubernator.snap q) := by
  rcases snap_cases q with ⟨-, -, h0⟩ | ⟨-, hsame⟩
  · rw [h0]
    exact_mod_cast onGrid_int n 0
  · rwa [hsame]

/-- The decision takes whole tokens. -/
theorem OnGrid.settle (hq : OnGrid n q) (burst : ℤ) (ρ : ℚ) (lag ceiling : ℤ) (r : RateLimitReq) :
    OnGrid n (settle burst ρ lag ceiling r q).2 := by
  unfold Gubernator.settle
  -- the branches of the decision: a query, the four outcomes of a request that waits, a refund to a
  -- debt, a refusal, an admission
  split
  · exact hq
  split
  · split
    · exact hq
    split
    · exact (hq.sub_int _).snap
    split
    · exact hq
    · exact hq.sub_int _
  split
  · exact hq
  split
  · dsimp only
    split
    · exact hq.min (by exact_mod_cast onGrid_int n 0)
    · exact hq
  · exact ((onGrid_int n burst).min (hq.sub_int _)).snap

/-- On a grid no finer than `1e-9` nothing is snapped. -/
theorem OnGrid.snap_eq (hq : OnGrid n q) (hn : 0 < n) (hfine : n ≤ 1000000000) :
    Gubernator.snap q = q := by
  obtain ⟨z, hz⟩ := hq
  have hn' : (0 : ℚ) < n := by exact_mod_cast hn
  have hfine' : (n : ℚ) ≤ 1000000000 := by exact_mod_cast hfine
  rcases snap_cases q with ⟨hlow, hhigh, h0⟩ | ⟨-, hsame⟩
  · -- less than one grid step from zero
    have hstep : epsilon * n ≤ 1 := by
      rw [epsilon]
      linarith
    have hz0 : z = 0 := by
      have h1 := mul_lt_mul_of_pos_right hhigh hn'
      have h2 := mul_lt_mul_of_pos_right hlow hn'
      rw [hz] at h1 h2
      have h3 : (z : ℚ) < 1 := by linarith
      have h4 : (-1 : ℚ) < z := by linarith
      have h5 : z < 1 := by exact_mod_cast h3
      have h6 : -1 < z := by exact_mod_cast h4
      omega
    rw [hz0, Int.cast_zero] at hz
    rw [h0, (mul_eq_zero.mp hz).resolve_right hn'.ne']
  · exact hsame

end Grid

/-- The grid of a key's balances: in lowest terms the rate is `gridOf` milliseconds for some
    whole number of tokens. -/
def gridOf (limit duration : ℤ) : ℤ := duration / Int.gcd duration limit

section GridOf
variable {limit duration : ℤ}

/-- A grid has steps. -/
theorem gridOf_pos (limit : ℤ) (hd : 0 < duration) : 0 < gridOf limit duration := by
  have hg : 0 < (Int.gcd duration limit : ℤ) := by
    exact_mod_cast Int.gcd_pos_of_ne_zero_left limit hd.ne'
  exact Int.ediv_pos_of_pos_of_dvd hd hg.le (Int.gcd_dvd_left ..)

/-- What leaks in over whole milliseconds is on the grid. -/
theorem onGrid_leak (limit : ℤ) (hd : 0 < duration) (t u : ℤ) :
    OnGrid (gridOf limit duration) (1 / (duration / limit : ℚ) * (t - u)) := by
  have hd' : (duration : ℚ) ≠ 0 := by exact_mod_cast hd.ne'
  have hg : (Int.gcd duration limit : ℤ) ≠ 0 := by
    have := Int.gcd_pos_of_ne_zero_left limit hd.ne'
    omega
  have hg' : ((Int.gcd duration limit : ℤ) : ℚ) ≠ 0 := by exact_mod_cast hg
  -- a millisecond brings `l'` steps, the numerator of the rate's inverse in lowest terms
  obtain ⟨l', hl'⟩ : (Int.gcd duration limit : ℤ) ∣ limit := Int.gcd_dvd_right ..
  refine ⟨l' * (t - u), ?_⟩
  have hgrid : ((gridOf limit duration : ℤ) : ℚ) = duration / (Int.gcd duration limit : ℤ) :=
    Int.cast_div (Int.gcd_dvd_left ..) hg'
  have hlimit : (limit : ℚ) = (Int.gcd duration limit : ℤ) * l' := by exact_mod_cast hl'
  rw [hgrid]
  rw [hlimit]
  push_cast
  field_simp

/-- Rates on such a grid are no slower than `1e9` milliseconds per token. -/
theorem slow_of_grid (hl : 0 < limit) (hd : 0 < duration)
    (hfine : gridOf limit duration ≤ 1000000000) : epsilon * (duration / limit) ≤ 1 := by
  have hg : (0 : ℤ) < Int.gcd duration limit := by
    exact_mod_cast Int.gcd_pos_of_ne_zero_left limit hd.ne'
  have hle : (Int.gcd duration limit : ℤ) ≤ limit := Int.le_of_dvd hl (Int.gcd_dvd_right ..)
  have heq : gridOf limit duration * Int.gcd duration limit = duration :=
    Int.ediv_mul_cancel (Int.gcd_dvd_left ..)
  have hslow : duration ≤ 1000000000 * limit := by
    calc duration = gridOf limit duration * Int.gcd duration limit := heq.symm
      _ ≤ 1000000000 * Int.gcd duration limit := by gcongr
      _ ≤ 1000000000 * limit := by gcongr
  exact leak_per_ms hl hslow

end GridOf

/-! ## What a shard shows

The level of a shard is what its item will show, or the burst if there is none.  It is a function
from moments to balances, capped at the burst, and `Levelled` asks only for its values from the
moment `c` on. -/

/-- The tokens a millisecond brings. -/
def leakOf (limit duration : ℤ) : ℚ := 1 / (duration / limit)

/-- An item of the key that shows the level `f` from `c` on, covered by its expiry. -/
structure LevelItem (key : String) (limit duration burst c : ℤ) (f : ℤ → ℚ) (item : CacheItem) :
    Prop where
  key_eq : item.key = key
  valid : item.invalidAt = 0
  held : ∃ b q, item.value = some (.leaky b) ∧ b.limit = limit ∧ b.duration = duration ∧
    b.burst = burst ∧ b.remaining = .fin q ∧ b.updatedAt ≤ c ∧ OnGrid (gridOf limit duration) q ∧
    Covered burst (duration / limit) b.updatedAt item.expireAt q ∧
    ∀ x, c ≤ x → level burst b.updatedAt q (leakOf limit duration) x = f x

/-- **The shard shows the level `f` from `c` on**: every copy of the item does, and a key that is
    not cached is full. -/
structure Levelled (key : String) (limit duration burst c : ℤ) (f : ℤ → ℚ) (s : Shard) : Prop where
  holds : s.Holds key (LevelItem key limit duration burst c f)
  full : s.cache.peek key = none → ∀ x, c ≤ x → f x = burst

section Levels
variable {key : String} {limit duration burst c c' : ℤ} {f g : ℤ → ℚ} {s : Shard}

/-- The level rises. -/
theorem leakOf_pos (hl : 0 < limit) (hd : 0 < duration) : 0 < leakOf limit duration :=
  one_div_pos.mpr (div_pos (by exact_mod_cast hd) (by exact_mod_cast hl))

/-- The balance of an item is on the line the library speaks of. -/
theorem balanceAt_eq_line (u : ℤ) (q : ℚ) (t : ℤ) :
    balanceAt u q (duration / limit) t = line u q (leakOf limit duration) t := by
  rw [balanceAt, line, leakOf]
  ring

/-- Later, and by a level that agrees from then on. -/
theorem LevelItem.congr {item : CacheItem} (h : LevelItem key limit duration burst c f item)
    (hc : c ≤ c') (hfg : ∀ x, c' ≤ x → f x = g x) :
      LevelItem key limit duration burst c' g item := by
  obtain ⟨hk, hv, b, q, hb, h1, h2, h3, hq, hu, hgrid, hcov, hlevel⟩ := h
  refine ⟨hk, hv, b, q, hb, h1, h2, h3, hq, hu.trans hc, hgrid, hcov, fun x hx => ?_⟩
  rw [hlevel x (hc.trans hx), hfg x hx]

/-- The same for the shard. -/
theorem Levelled.congr (h : Levelled key limit duration burst c f s) (hc : c ≤ c')
    (hfg : ∀ x, c' ≤ x → f x = g x) : Levelled key limit duration burst c' g s := by
  refine ⟨h.holds.mono (fun item hi => hi.congr hc hfg), fun hnone x hx => ?_⟩
  rw [← hfg x hx]
  exact h.full hnone x (hc.trans hx)

/-- A level that has reached the burst stays there. -/
theorem level_full {u : ℤ} {q k : ℚ} (hk : 0 ≤ k) {t x : ℤ} (hfull : (burst : ℚ) ≤ line u q k t)
    (htx : t ≤ x) : level burst u q k x = burst :=
  min_eq_left (hfull.trans (line_mono hk htx))

/-- A full bucket goes on showing the burst. -/
theorem level_burst {k : ℚ} (hk : 0 ≤ k) {t x : ℤ} (htx : t ≤ x) :
    level burst t burst k x = burst :=
  level_full hk (line_of_le le_rfl).ge htx

/-- **From any moment on, the level is the line from its value there.** -/
theorem Levelled.restart (h : Levelled key limit duration burst c f s) (hl : 0 < limit)
    (hd : 0 < duration) {t : ℤ} (hct : c ≤ t) {x : ℤ} (htx : t ≤ x) :
    level burst t (f t) (leakOf limit duration) x = f x := by
  have hk := (leakOf_pos hl hd).le
  cases hpeek : s.cache.peek key with
  -- not cached: full then, and full later
  | none =>
    rw [h.full hpeek t hct, h.full hpeek x (hct.trans htx)]
    exact level_burst hk htx
  | some item =>
    obtain ⟨-, -, b, q, -, -, -, -, -, hu, -, -, hlevel⟩ := h.holds.cached item hpeek
    rw [← hlevel t hct, ← hlevel x (hct.trans htx)]
    exact level_restart hk (hu.trans hct) htx

/-- **A request that finds no item finds the level at the burst.** -/
theorem Levelled.full_of_missing (h : Levelled key limit duration burst c f s) (hl : 0 < limit)
    (hd : 0 < duration) (hslow : epsilon * (duration / limit) ≤ 1) {r : RateLimitReq}
    (hr : r.hashKey = key) {t : ℤ} (hct : c ≤ t)
    (hmiss : ∀ item b, s.find t r ≠ some (item, .leaky b)) {x : ℤ} (htx : t ≤ x) :
    f x = burst := by
  subst hr
  cases hpeek : s.cache.peek r.hashKey with
  | none => exact h.full hpeek x (hct.trans htx)
  | some item =>
    obtain ⟨-, hvalid, b, q, hb, -, -, -, -, hu, -, hcov, hlevel⟩ := h.holds.cached item hpeek
    -- the item is there and was not found, so it has expired
    have hexpired : item.expireAt < t := by
      by_contra hfresh
      refine hmiss item b (Shard.find_of_fresh hpeek ?_ hb)
      simp [CacheItem.isExpired, hvalid, hfresh]
    have hρ : (0 : ℚ) < duration / limit := div_pos (by exact_mod_cast hd) (by exact_mod_cast hl)
    have hfull := hcov.full_of_expired hρ hslow hexpired (hu.trans hct)
    rw [balanceAt_eq_line] at hfull
    rw [← hlevel x (hct.trans htx)]
    exact level_full (leakOf_pos hl hd).le hfull htx

/-- What is found of the key is a leaky bucket. -/
theorem Levelled.find_ne_token (h : Levelled key limit duration burst c f s) {r : RateLimitReq}
    (hr : r.hashKey = key) {t : ℤ} {item : CacheItem} {v : TokenBucketItem} :
    s.find t r ≠ some (item, .token v) := by
  subst hr
  intro hfind
  obtain ⟨-, -, b, q, hb, -⟩ := h.holds.find hfind
  have hv := (Shard.find_key hfind).2.1
  rw [hb] at hv
  cases hv

/-- A request that finds no leaky bucket finds nothing. -/
theorem Levelled.find_none_of_missing (h : Levelled key limit duration burst c f s)
    {r : RateLimitReq} (hr : r.hashKey = key) {t : ℤ}
    (hmiss : ∀ item b, s.find t r ≠ some (item, .leaky b)) : s.find t r = none := by
  rcases hfind : s.find t r with _ | ⟨item, v | b⟩
  · rfl
  · exact absurd hfind (h.find_ne_token hr)
  · exact absurd hfind (hmiss item b)

end Levels

/-! ## A request

One request, on an item and on none.  In both cases the answer is the decision taken at the level,
and the level afterwards is the line that starts at what the decision leaves. -/

/-- A plain request for more than the burst that finds no item: it is refused, and leaves an empty
    bucket where a full one would have been left alone. -/
def refusedNew (o : Owner) (a : Arrival) : Bool :=
  decide (a.req.maxWait ≤ 0 ∧ a.req.withBurst.burst < a.req.hits) &&
    (o.shard.find (epochMillis a.now) a.req).isNone

/-- The owner's requests of a key under fixed terms, none of which meets a key with or without an
    item differently. -/
@[mk_iff] structure EvenHanded (key : String) (limit duration burst : ℤ) (o : Owner)
    (a : Arrival) : Prop where
  fixed : FixedTerms key limit duration burst o a
  owner : a.reqState.isOwner = true
  noDrain : drainsDebt o a = false
  noRefusal : refusedNew o a = false

instance (key : String) (limit duration burst : ℤ) (o : Owner) (a : Arrival) :
    Decidable (EvenHanded key limit duration burst o a) :=
  decidable_of_iff _ (evenHanded_iff key limit duration burst o a).symm

/-- What the hits are charged to when the level is `f`. -/
def chargedLevel (burst : ℤ) (f : ℤ → ℚ) (a : Arrival) : ℚ :=
  if hasBehavior a.req.behavior .resetRemaining then burst else f (epochMillis a.now)

/-- The decision on a request when the level is `f`. -/
def levelDecision (limit duration burst : ℤ) (f : ℤ → ℚ) (a : Arrival) : Status × ℚ :=
  settle burst (duration / limit) 0 a.reqState.ceiling a.req.withBurst (chargedLevel burst f a)

section Serve
variable {host : Host} {key : String} {limit duration burst c : ℤ} {f : ℤ → ℚ} {o : Owner}
  {a : Arrival}

/-- The answer and the new level are a function of the level. -/
def ServesLevel (host : Host) (key : String) (limit duration burst : ℤ) (f : ℤ → ℚ) (o : Owner)
    (a : Arrival) : Prop :=
  statusOf (serveLeaky host o a).1 = some (levelDecision limit duration burst f a).1 ∧
    Levelled key limit duration burst (epochMillis a.now)
      (level burst (epochMillis a.now) (levelDecision limit duration burst f a).2
        (leakOf limit duration)) (serveLeaky host o a).2.shard

/-- **On an item found.** -/
theorem Levelled.serve_found (h : Levelled key limit duration burst c f o.shard)
    (ha : EvenHanded key limit duration burst o a) (hc : c ≤ epochMillis a.now) (hl : 0 < limit)
    (hd : 0 < duration) (hB : 1 ≤ burst) (hBL : burst ≤ limit)
    (hfine : gridOf limit duration ≤ 1000000000) {item : CacheItem} {b : LeakyBucketItem}
    {out : LeakyOutcome} (hfind : o.shard.find (epochMillis a.now) a.req = some (item, .leaky b))
    (hout : leakyBucketItem host a.now a.req.withBurst a.reqState b item.expireAt = .ok out)
    (hr : (serveLeaky host o a).1 = .ok out.resp)
    (hs : (serveLeaky host o a).2.shard = (o.shard.lookup (epochMillis a.now) a.req).2.update
      a.reqState.isOwner { item with value := some (.leaky out.b), expireAt := out.expireAt }) :
    ServesLevel host key limit duration burst f o a := by
  have hsame := ha.fixed.sameKey
  have hρ : (0 : ℚ) < duration / limit := div_pos (by exact_mod_cast hd) (by exact_mod_cast hl)
  obtain ⟨hitem, hvalue, hk⟩ := Shard.find_key hfind
  rw [hsame] at hk
  obtain ⟨-, hv, b₁, q, hb₁, hlimit, hduration, hburst, hq, hu, hgrid, hcov, hlevel⟩ :
      LevelItem key limit duration burst c f item := by
    refine Shard.Holds.find (r := a.req) ?_ hfind
    rw [hsame]
    exact h.holds
  obtain rfl : b₁ = b := by
    rw [hb₁] at hvalue
    exact Bucket.leaky.inj (Option.some.inj hvalue)
  have hu' : b₁.updatedAt ≤ epochMillis a.now := hu.trans hc
  obtain ⟨y, hsettled⟩ := ha.fixed.settlement hl hd hlimit hduration hburst hq hout
  -- the balance charged is the level
  have hy : y = chargedLevel burst f a := by
    rw [hsettled.refreshed, refreshed, chargedLevel, withBurst_behavior, hburst, balanceAt_eq_line,
      ← hlevel _ hc]
    split
    · rfl
    · refine OnGrid.snap_eq (n := gridOf limit duration) ?_ (gridOf_pos limit hd) hfine
      refine (onGrid_int _ _).min ?_
      rw [line_of_ge hu']
      exact hgrid.add (onGrid_leak limit hd _ _)
  -- and it is on the grid, so what the decision leaves is as well
  have hygrid : OnGrid (gridOf limit duration) y := by
    rw [hy, chargedLevel]
    split
    · exact onGrid_int _ _
    · rw [← hlevel _ hc]
      refine (onGrid_int _ _).min ?_
      rw [line_of_ge hu']
      exact hgrid.add (onGrid_leak limit hd _ _)
  have hdrain : hasBehavior a.req.withBurst.behavior .drainOverLimit = true → 0 ≤ q := by
    intro hflag
    rw [withBurst_behavior] at hflag
    simpa [drainsDebt, hflag, hfind, hq] using ha.noDrain
  have hspan := burst_span hl hd hBL
  obtain ⟨q', hbucket, hcovered⟩ := hsettled.covered (hburst ▸ hcov) hρ
    (slow_of_grid hl hd hfine) (by omega) hu' (by simpa using ha.fixed.hits)
    (by simpa [hburst, ha.fixed.sameDuration] using hspan) hdrain
  have hdecision : settle b₁.burst (duration / limit)
      (max b₁.updatedAt (epochMillis a.now) - epochMillis a.now) a.reqState.ceiling
      a.req.withBurst y = levelDecision limit duration burst f a := by
    rw [levelDecision, max_eq_right hu', sub_self, hburst, hy]
  -- the item left holds what the decision leaves
  have hleft : q' = (levelDecision limit duration burst f a).2 := by
    have := hsettled.bucket
    rw [hbucket, hdecision] at this
    exact ExactFloat.fin.inj (congrArg LeakyBucketItem.remaining this)
  have hpeek := Shard.peek_lookup hitem (hk.trans hsame.symm)
  rw [hsame] at hpeek
  refine ⟨?_, ?_, ?_⟩
  · rw [hr]
    show some out.resp.status = _
    rw [hsettled.status, hdecision]
  · rw [hs, ha.owner]
    refine Shard.holds_update_owner hk hpeek ⟨hk, hv, out.b, q', rfl, ?_, ?_, ?_, ?_, ?_, ?_, ?_,
      ?_⟩
    · rw [hbucket]
      exact hlimit
    · rw [hbucket]
      exact hduration
    · rw [hbucket]
      exact hburst
    · rw [hbucket]
    · rw [hbucket]
    · rw [hleft, ← hdecision]
      exact hygrid.settle ..
    · rw [hbucket, ← hburst]
      exact hcovered
    · intro x _
      rw [hbucket, hleft]
  · -- the item is cached
    intro hnone
    have hwritten : ((o.shard.lookup (epochMillis a.now) a.req).2.update a.reqState.isOwner
        { item with value := some (.leaky out.b), expireAt := out.expireAt }).cache.peek
          a.req.hashKey = some _ := Shard.peek_update_found hfind (by rfl) _
    rw [hs, ← hsame, hwritten] at hnone
    cases hnone

/-- A full bucket grants what fits. -/
theorem settle_full (burst : ℤ) (ρ : ℚ) (lag ceiling : ℤ) {r : RateLimitReq} (hhits : 0 ≤ r.hits)
    (hfits : r.hits ≤ burst) :
    settle burst ρ lag ceiling r burst = (.underLimit, ((burst - r.hits : ℤ) : ℚ)) := by
  have hε := epsilon_pos
  have hfits' : (r.hits : ℚ) ≤ burst := by exact_mod_cast hfits
  have hhits' : (0 : ℚ) ≤ r.hits := by exact_mod_cast hhits
  have hsnap : snap ((burst : ℚ) - r.hits) = ((burst - r.hits : ℤ) : ℚ) := by
    rw [← Int.cast_sub]
    exact snap_int _
  unfold settle
  split
  · rename_i h0
    rw [h0, sub_zero]
  -- with a wait or without one, it fits
  split
  · rw [if_neg (by omega), if_pos (by linarith), hsnap]
  · rw [if_neg (by omega), if_neg (by linarith), min_eq_right (by linarith), hsnap]

/-- **On a key without an item**, whether one is created or the request can never fit. -/
theorem Levelled.serve_missing (h : Levelled key limit duration burst c f o.shard)
    (ha : EvenHanded key limit duration burst o a) (hc : c ≤ epochMillis a.now) (hl : 0 < limit)
    (hd : 0 < duration) (hB : 1 ≤ burst) (hBL : burst ≤ limit)
    (hslow : epsilon * (duration / limit) ≤ 1)
    (hmiss : ∀ item b, o.shard.find (epochMillis a.now) a.req ≠ some (item, .leaky b))
    (hcall : LeakyCall host a.now o.shard a.req.withBurst a.reqState
      (o.shard.lookup (epochMillis a.now) a.req).2 (serveLeaky host o a).1
      (serveLeaky host o a).2.shard) :
    ServesLevel host key limit duration burst f o a := by
  have hsame := ha.fixed.sameKey
  have hk := (leakOf_pos hl hd).le
  have hfull : ∀ x, epochMillis a.now ≤ x → f x = burst := fun x hx =>
    h.full_of_missing hl hd hslow hsame hc hmiss hx
  -- full, whether it is reset or not
  have hcharged : chargedLevel burst f a = burst := by
    rw [chargedLevel, hfull _ le_rfl, ite_self]
  have hhits : 0 ≤ a.req.withBurst.hits := by
    rw [withBurst_hits]
    exact ha.fixed.hits
  unfold ServesLevel levelDecision
  rw [hcharged]
  cases hcall with
  | failed e hterms =>
    refine absurd (requestTerms_plain ?_) (hterms _)
    rw [withBurst_behavior]
    exact ha.fixed.noGregorian
  | worked item b out hfind =>
    rw [find_withBurst] at hfind
    exact absurd hfind (hmiss item b)
  | neverFits resp _ _ wait large hr hstatus hs =>
    -- nothing is created, and the level stays at the burst
    rw [ha.fixed.sameBurst] at large
    have hsettle : settle burst (duration / limit) 0 a.reqState.ceiling a.req.withBurst burst =
        (.neverFits, (burst : ℚ)) := by
      unfold settle
      rw [if_neg (by omega), if_pos wait, if_pos large]
    rw [hsettle]
    refine ⟨by rw [hr]; exact congrArg some hstatus, ?_⟩
    have hlevel : ∀ x, epochMillis a.now ≤ x →
        f x = level burst (epochMillis a.now) burst (leakOf limit duration) x := by
      intro x hx
      rw [hfull x hx, level_burst hk hx]
    have hholds := h.holds
    rw [← hsame] at hholds
    have hbase : (o.shard.lookup (epochMillis a.now) a.req).2.Holds a.req.hashKey
        (LevelItem a.req.hashKey limit duration burst c f) :=
      hholds.afterLookup (fun item hi => hi.key_eq)
    rw [hsame] at hbase
    rw [hs]
    exact ⟨hbase.mono (fun item hi => hi.congr hc hlevel), fun _ x hx => level_burst hk hx⟩
  -- a bucket is created, and its first hits are taken from the full burst
  | created resp createdAt length _ _ fits hcreated hlength hr hstatus hs =>
    have hfits : a.req.withBurst.hits ≤ burst := by
      by_cases hwait : 0 < a.req.withBurst.maxWait
      · rw [← ha.fixed.sameBurst]
        exact fits hwait
      · -- this is where a refusal that empties the new bucket is excluded
        by_contra hlarge
        rw [withBurst_maxWait] at hwait
        rw [withBurst_hits, ← ha.fixed.sameBurst] at hlarge
        have hnone : o.shard.find (epochMillis a.now) a.req = none :=
          h.find_none_of_missing hsame hmiss
        have := ha.noRefusal
        simp [refusedNew, hnone, not_lt.mp hwait, not_le.mp hlarge] at this
    have hnew : newBalance a.req.withBurst = burst - a.req.withBurst.hits := by
      rw [newBalance, ha.fixed.sameBurst, if_neg (by omega), min_eq_right (by omega)]
    rw [settle_full burst _ 0 _ hhits hfits, ← hnew]
    rw [withBurst_maxWait, withBurst_createdAt, ha.fixed.created, ite_self] at hcreated
    have hlen : length = duration := by
      rw [hlength (by rw [withBurst_behavior]; exact ha.fixed.noGregorian), withBurst_duration,
        ha.fixed.sameDuration]
    subst hcreated hlen
    refine ⟨?_, ?_, ?_⟩
    · rw [hr]
      show some resp.status = _
      rw [hstatus, ha.fixed.sameBurst, if_neg (by omega)]
    · rw [hs, ha.owner]
      refine Shard.holds_create_owner _ ?_ ⟨?_, rfl, _, _, rfl, ?_, rfl, ha.fixed.sameBurst, rfl,
        le_rfl, onGrid_int _ _, newBalance_covered hl hd hB hBL ha.fixed.sameBurst _,
        fun x _ => rfl⟩
      · exact (withBurst_hashKey a.req).trans hsame
      · exact (withBurst_hashKey a.req).trans hsame
      · simp [newLeakyBucket, ha.fixed.sameLimit]
    · intro hnone
      have hkey : key = (newLeakyItem a.req.withBurst (epochMillis a.now) length).key :=
        ((withBurst_hashKey a.req).trans hsame).symm
      rw [hs, hkey, Shard.create, Cache.peek_add_self] at hnone
      cases hnone

/-- **Step.**  What a request answers, and the level it leaves, depend on the level alone. -/
theorem Levelled.serve (h : Levelled key limit duration burst c f o.shard) (host : Host)
    (ha : EvenHanded key limit duration burst o a) (hc : c ≤ epochMillis a.now) (hl : 0 < limit)
    (hd : 0 < duration) (hB : 1 ≤ burst) (hBL : burst ≤ limit)
    (hfine : gridOf limit duration ≤ 1000000000) :
    ServesLevel host key limit duration burst f o a := by
  have hcall := leakyBucket_call host a.now o.shard a.req a.reqState
  have hslow := slow_of_grid hl hd hfine
  rcases hfind : o.shard.find (epochMillis a.now) a.req with _ | ⟨item, t | b⟩
  · rw [leakyBase, hfind] at hcall
    exact h.serve_missing ha hc hl hd hB hBL hslow (by simp [hfind]) hcall
  · -- the key has no token bucket
    exact absurd hfind (h.find_ne_token ha.fixed.sameKey)
  · rw [leakyBase, hfind] at hcall
    cases hcall with
    | failed e hterms =>
      refine absurd (requestTerms_plain ?_) (hterms _)
      rw [withBurst_behavior]
      exact ha.fixed.noGregorian
    | worked item' b' out hfind' _ hout hr hs =>
      rw [find_withBurst, hfind] at hfind'
      obtain ⟨rfl, hbucket⟩ := Prod.mk.inj (Option.some.inj hfind')
      obtain rfl := Bucket.leaky.inj hbucket
      exact h.serve_found ha hc hl hd hB hBL hfine hfind hout hr hs
    | neverFits _ hmiss =>
      rw [find_withBurst, hfind] at hmiss
      exact absurd rfl (hmiss item b)
    | created _ _ _ hmiss =>
      rw [find_withBurst, hfind] at hmiss
      exact absurd rfl (hmiss item b)

end Serve

/-! ## Runs

Runs with and without their queries.  Both must be even-handed, since a query can be what makes the
difference between a key with and without an item. -/

/-- The owner of a key, as a client that only reads the status sees it. -/
def serveStatus (host : Host) (o : Owner) (a : Arrival) : Option Status × Owner :=
  (statusOf (serveLeaky host o a).1, (serveLeaky host o a).2)

/-- A status query: no hits, and no reset. -/
def Arrival.isQuery (a : Arrival) : Bool :=
  decide (a.req.hits = 0) && !hasBehavior a.req.behavior .resetRemaining

/-- Two owners that show one level from the first one's clock on. -/
def SameLevel (key : String) (limit duration burst : ℤ) (o o' : Owner) : Prop :=
  ∃ f, Levelled key limit duration burst (epochMillis o.clock) f o.shard ∧
    Levelled key limit duration burst (epochMillis o.clock) f o'.shard

section Run
variable {host : Host} {key : String} {limit duration burst : ℤ} {o o' : Owner} {a : Arrival}

/-- A query leaves the level as it was. -/
theorem SameLevel.query (h : SameLevel key limit duration burst o o')
    (ha : EvenHanded key limit duration burst o a) (hquery : a.isQuery = true) (hl : 0 < limit)
    (hd : 0 < duration) (hB : 1 ≤ burst) (hBL : burst ≤ limit)
    (hfine : gridOf limit duration ≤ 1000000000) :
    SameLevel key limit duration burst (serveStatus host o a).2 o' := by
  obtain ⟨f, hs, ht⟩ := h
  simp only [Arrival.isQuery, Bool.and_eq_true, decide_eq_true_eq, Bool.not_eq_true'] at hquery
  have hclock : epochMillis o.clock ≤ epochMillis a.now := epochMillis_mono ha.fixed.clock_le
  obtain ⟨-, hlevel⟩ := hs.serve host ha hclock hl hd hB hBL hfine
  refine ⟨f, hlevel.congr le_rfl (fun x hx => ?_), ht.congr hclock (fun x _ => rfl)⟩
  -- nothing is taken, so the line restarts where it was
  have hleft : (levelDecision limit duration burst f a).2 = f (epochMillis a.now) := by
    rw [levelDecision, settle, if_pos (by rw [withBurst_hits]; exact hquery.1), chargedLevel,
      hquery.2]
    rfl
  rw [hleft]
  exact hs.restart hl hd hclock hx

/-- Any other request is answered alike, and leaves one level again. -/
theorem SameLevel.request (h : SameLevel key limit duration burst o o')
    (ha : EvenHanded key limit duration burst o a) (ha' : EvenHanded key limit duration burst o' a)
    (hl : 0 < limit) (hd : 0 < duration) (hB : 1 ≤ burst) (hBL : burst ≤ limit)
    (hfine : gridOf limit duration ≤ 1000000000) :
    (serveStatus host o' a).1 = (serveStatus host o a).1 ∧
      SameLevel key limit duration burst (serveStatus host o a).2 (serveStatus host o' a).2 := by
  obtain ⟨f, hs, ht⟩ := h
  have hclock : epochMillis o.clock ≤ epochMillis a.now := epochMillis_mono ha.fixed.clock_le
  obtain ⟨hstatus, hlevel⟩ := hs.serve host ha hclock hl hd hB hBL hfine
  obtain ⟨hstatus', hlevel'⟩ := ht.serve host ha' hclock hl hd hB hBL hfine
  exact ⟨hstatus'.trans hstatus.symm, _, hlevel, hlevel'⟩

end Run

/-- **Status queries are free**: whatever queries a run contains, its other requests get the
    statuses they get without them. -/
theorem queries_are_free (host : Host) (key : String) (limit duration burst : ℤ) (hl : 0 < limit)
    (hd : 0 < duration) (hB : 0 < burst) (hBL : burst ≤ limit)
    (hfine : gridOf limit duration ≤ 1000000000) (o : Owner) (run : List Arrival)
    (hc : o.shard.cache.peek key = none) (hs : o.shard.stored key = none)
    (hrun : Machine.Guarded (serveStatus host) (EvenHanded key limit duration burst) o run)
    (hrest : Machine.Guarded (serveStatus host) (EvenHanded key limit duration burst) o
      (run.filter (fun a => ¬ a.isQuery))) :
    (Machine.events (serveStatus host) o run).filter (fun e => ¬ e.1.isQuery) =
      Machine.events (serveStatus host) o (run.filter (fun a => ¬ a.isQuery)) := by
  have hstart : Levelled key limit duration burst (epochMillis o.clock) (fun _ => burst) o.shard :=
    ⟨Shard.holds_of_absent hc hs, fun _ _ _ => rfl⟩
  have hquery : ∀ o o' a, a.isQuery = true → EvenHanded key limit duration burst o a →
      SameLevel key limit duration burst o o' →
      SameLevel key limit duration burst (serveStatus host o a).2 o' :=
    fun _ _ _ hquery ha h => h.query ha hquery hl hd hB hBL hfine
  have hrequest : ∀ o o' a, ¬ a.isQuery = true → EvenHanded key limit duration burst o a →
      EvenHanded key limit duration burst o' a → SameLevel key limit duration burst o o' →
      (serveStatus host o' a).1 = (serveStatus host o a).1 ∧
        SameLevel key limit duration burst (serveStatus host o a).2 (serveStatus host o' a).2 :=
    fun _ _ _ _ ha ha' h => h.request ha ha' hl hd hB hBL hfine
  exact Machine.purge_rule (fun a => a.isQuery = true) hquery hrequest hrun hrest
    ⟨_, hstart, hstart⟩

/-- Ten tokens taken, five booked, and the debt watched while it is paid off. -/
def watchedRun : List Arrival :=
  [tenPerSecond 0 10 10 0, tenPerSecond 0 5 10 900, tenPerSecond 333 0 10 0,
    tenPerSecond 501 0 10 60,
    tenPerSecond 600 1 10 0, tenPerSecond 600 2 10 100]

/-- The key is queried twice, in debt and just out of it. -/
theorem queries_are_free_watchedRun :
    ((Machine.events (serveStatus .amd64) ⟨0, .ofItems []⟩ watchedRun).filter
        (fun e => ¬ e.1.isQuery)).map Prod.snd =
      [some .underLimit, some .scheduled, some .underLimit, some .overLimit] ∧
    (Machine.events (serveStatus .amd64) ⟨0, .ofItems []⟩ watchedRun).filter
        (fun e => ¬ e.1.isQuery) =
      Machine.events (serveStatus .amd64) ⟨0, .ofItems []⟩
        (watchedRun.filter (fun a => ¬ a.isQuery)) :=
  ⟨by decide +kernel,
    queries_are_free .amd64 "requests_account:1" 10 1000 10 (by decide) (by decide) (by decide)
      (by decide) (by decide) ⟨0, .ofItems []⟩ watchedRun rfl rfl (by decide +kernel)
      (by decide +kernel)⟩

/-- A request at `ms` milliseconds, for a key of one token in 30 days. -/
def oncePerMonth (ms hits : ℤ) : Arrival :=
  ⟨ms * 1000000, .sample hits 1 2592000000 1 ms 0, ⟨true, 300000000000⟩⟩

/-- The statuses of a run's requests other than queries, with the queries and without them. -/
def statusesWithAndWithout (run : List Arrival) : List (Option Status) × List (Option Status) :=
  (((Machine.events (serveStatus .amd64) ⟨0, .ofItems []⟩ run).filter
      (fun e => ¬ e.1.isQuery)).map Prod.snd,
    (Machine.events (serveStatus .amd64) ⟨0, .ofItems []⟩
      (run.filter (fun a => ¬ a.isQuery))).map Prod.snd)

/-- **Queries that cost something.**  At one token in 30 days, four queries swallow a millisecond
    each, and the token is refused when it is due.  A query before a request for more than the burst
    saves the key from being emptied by it.  And where the burst is twice the limit, a query that
    sees a debt paid off makes the next hit shorten the item's life. -/
theorem queries_cost :
    statusesWithAndWithout [oncePerMonth 0 1, oncePerMonth 1 0, oncePerMonth 2 0, oncePerMonth 3 0,
        oncePerMonth 4 0, oncePerMonth 2592000000 1] =
      ([some .underLimit, some .overLimit], [some .underLimit, some .underLimit]) ∧
    statusesWithAndWithout [tenPerSecond 0 0 10 0, tenPerSecond 0 11 10 0, tenPerSecond 0 1 10 0] =
      ([some .overLimit, some .underLimit], [some .overLimit, some .overLimit]) ∧
    statusesWithAndWithout [tenPerSecond 0 20 20 0, tenPerSecond 0 5 20 900,
      tenPerSecond 600 0 20 0,
        tenPerSecond 600 1 20 0, tenPerSecond 1601 15 20 0] =
      ([some .underLimit, some .scheduled, some .underLimit, some .underLimit],
        [some .underLimit, some .scheduled, some .underLimit, some .overLimit]) := by
  decide +kernel

end Gubernator
