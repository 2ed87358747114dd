/-
  WHERE THE BUCKETS OVERFLOW.

  Two sums of a request's own numbers can leave the range of `int64`.  The end of a duration,
  `created_at + duration`, then lies in the past, and the bucket is gone at the next request.  A
  refund, `remaining - hits` with negative hits, then makes the balance negative: the token bucket
  has no upper bound for it, and the cap of a new leaky bucket, `min(burst, burst - hits)`, comes
  after the subtraction has wrapped.  A third sum, `remaining + (limit - t.Limit)`, needs a balance
  above the limit first, so refunds again.

  `Fits` asks that these sums stay in range, of the request and the item it finds.  It is the exact
  condition: a run is `Sound` at every step precisely if every step `Fits`.

  A found leaky bucket has a float for a balance and no such sum; its balance stays out of debt
  unless the hits exceed it by `1e-9` to the digit, which `wholeTokens` lets pass and `snapToZero`
  does not round away.

  How the equivalence is proved.  A request is computed by the machine with every sum noted
  (`Wrapped`), so `Sound` has two parts: the notes are exact, and the numbers that result are in
  order.  If the request fits, the computation is that of the unbounded model, and the parts are
  read off it.  If it does not, one of the noted sums is out of range, and the notes say so
  (`sound_iff_of_computes`).  Along a run a bucket in range stays so (`ItemInRange`), which is all
  the next request asks of it.
-/
import Gubernator.Wrapped

namespace Gubernator

open ExactFloat MachineInt MachineInt.Traced

namespace Wrapped

/-! ## A found leaky bucket

The difference of the bursts is one of two numbers that are not negative, so it is exact.  What is
left to show is that the float balance does not become negative:  for all requests but those that
ask for exactly `1e-9` more than there is. -/

/-- A balance that is no debt, and `int64`s that are not negative. -/
structure LeakyNatural (b : LeakyBucketItem) : Prop where
  balance : ∃ q : ℚ, b.remaining = .fin q ∧ 0 ≤ q
  burst : Natural b.burst
  updatedAt : Natural b.updatedAt

/-- The balance under the request's rate and burst, before it is cut at zero and at the burst. -/
def balanceFor (r : RateLimitReq) (b : LeakyBucketItem) : ExactFloat :=
  b.remaining + creditedLeak b r.createdAt (rateOf r.limit r.duration) +
    .ofInt (r.burst - b.burst)

/-- **A request on a leaky bucket fits**: it does not ask for `1e-9` more than there is. -/
def LeakyFits (r : RateLimitReq) (b : LeakyBucketItem) : Prop :=
  ¬ (hasBehavior r.behavior .resetRemaining = false ∧ 0 < r.hits ∧ r.hits ≤ r.burst ∧
    balanceFor r b + .fin epsilon = .ofInt r.hits)

/-- Decidable, so that a run can be checked. -/
instance decidableLeakyFits (r : RateLimitReq) (b : LeakyBucketItem) : Decidable (LeakyFits r b) :=
  inferInstanceAs (Decidable (¬ _))

section Leaky
variable {host : Host} {now : ℤ} {r : RateLimitReq} {reqState : RateLimitReqState}
  {b : LeakyBucketItem} {tm : LeakyTerms} {q : ℚ} {x : ℤ}

/-- The tolerance is less than a token. -/
theorem epsilon_lt_one : epsilon < 1 := by norm_num [epsilon]

/-- A whole number is not `1e-9` above another. -/
theorem add_epsilon_ne (m n : ℤ) : (m : ℚ) + epsilon ≠ n := by
  intro h
  have hε := epsilon_pos
  have hε' := epsilon_lt_one
  have hlt : (m : ℚ) < n := by linarith
  have hlt' : (n : ℚ) < (m + 1 : ℤ) := by
    push_cast
    linarith
  have h₁ : m < n := by exact_mod_cast hlt
  have h₂ : n < m + 1 := by exact_mod_cast hlt'
  omega

/-- What cutting at zero and at the burst, and snapping, does to `1e-9` less than a whole number. -/
theorem cut_eq_iff {B n : ℤ} (hn : 0 < n) (hnB : n ≤ B) (w : ℚ) :
    snap (min B (max 0 w)) + epsilon = n ↔ w + epsilon = n := by
  have hε := epsilon_pos
  have hε' := epsilon_lt_one
  have hone : (1 : ℚ) ≤ n := by exact_mod_cast hn
  have hle : (n : ℚ) ≤ B := by exact_mod_cast hnB
  constructor
  · -- where a cut takes effect the balance is whole, and no whole number is `1e-9` off another
    intro h
    rcases snap_cases (min B (max 0 w)) with ⟨-, -, hzero⟩ | ⟨-, hsame⟩
    · exact absurd (by rw [hzero] at h; simpa using h) (add_epsilon_ne 0 n)
    · rw [hsame] at h
      rcases le_total (B : ℚ) (max 0 w) with hB | hB
      · rw [min_eq_left hB] at h
        exact absurd h (add_epsilon_ne B n)
      · rw [min_eq_right hB] at h
        rcases le_total 0 w with h0 | h0
        · rwa [max_eq_right h0] at h
        · rw [max_eq_left h0] at h
          exact absurd (by simpa using h) (add_epsilon_ne 0 n)
  · -- such a balance is at least `1 - 1e-9` and below the burst, so no cut takes effect
    intro h
    rw [max_eq_right (by linarith), min_eq_right (by linarith)]
    have hε2 : epsilon < 1 / 2 := by norm_num [epsilon]
    rw [snap_of_ge (by linarith), h]

/-- The balance the hits are charged on. -/
theorem credited_plain (hr : Plain r) (hb : LeakyNatural b)
    (htm : leakyTerms host now r b = .ok tm) :
    ∃ z, (credited r tm b).remaining = .fin z ∧ 0 ≤ z ∧ z ≤ r.burst ∧
      ∀ n : ℤ, 0 < n → n ≤ r.burst → (z + epsilon = n ↔
        hasBehavior r.behavior .resetRemaining = false ∧
          balanceFor r b + .fin epsilon = .ofInt n) := by
  obtain ⟨q, hq, hq0⟩ := hb.balance
  have hε := epsilon_pos
  have hB : (0 : ℚ) ≤ r.burst := by exact_mod_cast hr.burst.1
  obtain ⟨hburst, hresc, hcredit, -, hcreated⟩ := terms_of_nonneg htm hq hq0
  obtain ⟨hterms, -, -, -, -, -, -, hchanged, -⟩ := leakyTerms_ok htm
  rw [requestTerms_plain hr.gregorian] at hterms
  -- a plain request is timed by its own clock and charged at its own rate
  have hrate : tm.requestRate = rateOf r.limit r.duration :=
    (Prod.mk.inj (Except.ok.inj hterms)).1.symm
  have htime : tm.createdAt = r.createdAt := by rw [hcreated, hr.maxWait, if_neg (lt_irrefl _)]
  have hremaining := credited_remaining r tm b hchanged
  cases hreset : hasBehavior r.behavior .resetRemaining with
  | true =>
    -- a full bucket
    rw [refill, if_pos hreset, hburst, ofInt_eq, min_fin, min_self, snapToZero_fin,
      snap_int] at hremaining
    exact ⟨r.burst, hremaining, hB, le_rfl, fun n _ _ =>
      iff_of_false (add_epsilon_ne _ _) (fun h => Bool.noConfusion h.1)⟩
  | false =>
    -- not a debt, so there is nothing to rescale
    have hleak : (rescaleDebt tm (creditLeak tm b)).remaining =
        b.remaining + creditedLeak b r.createdAt (rateOf r.limit r.duration) := by
      rw [rescaleDebt, if_neg (by simp [hresc]), creditLeak, hcredit, hrate, htime]
      split
      · rfl
      · rename_i hle
        rw [creditedLeak, if_pos (not_lt.mp hle), hq, zero_eq_fin, fin_add_fin, add_zero]
    have hfields : (rescaleDebt tm (creditLeak tm b)).burst = b.burst := by
      rw [(rescaleDebt_fields _ _).2.1, (creditLeak_fields _ _).2.1]
    rw [refill, hreset, hburst] at hremaining
    simp only [Bool.false_eq_true, if_false] at hremaining
    -- the leak is a number that is not negative, or infinite at a rate of zero
    rcases creditedLeak_nonneg b r.createdAt hr.limit.1 hr.duration.1 with ⟨l, hl, hfin⟩ | hinf
    · rw [hfin, hq, fin_add_fin] at hleak
      -- with the same burst the difference is zero, and the cut at zero has no effect
      have hshift : (shiftBurst tm (rescaleDebt tm (creditLeak tm b))).remaining =
          .fin (max 0 (q + l + (r.burst - b.burst : ℤ))) := by
        rw [shiftBurst, hfields, hchanged, hburst]
        by_cases hne : b.burst = r.burst
        · have hsum : q + l + ((r.burst - b.burst : ℤ) : ℚ) = q + l := by simp [hne]
          rw [if_neg (by simp [hne]), hleak, hsum, max_eq_right (by linarith)]
        · rw [if_pos (by simpa using hne)]
          dsimp only
          rw [hleak, snapToZero_fin, zero_eq_fin, if_pos, ofInt_eq, fin_add_fin, max_fin]
          exact fin_le_fin.mpr (snap_nonneg.mpr (by linarith))
      rw [hshift, ofInt_eq, min_fin, snapToZero_fin] at hremaining
      refine ⟨_, hremaining, ?_, ?_, fun n hn hnB => ?_⟩
      · exact snap_nonneg.mpr (lt_min (by linarith) (lt_max_of_lt_left (by linarith)))
      · exact snap_le hr.burst.1 (min_le_left _ _)
      · rw [cut_eq_iff hn hnB, balanceFor, hfin, hq, ofInt_eq, ofInt_eq, fin_add_fin, fin_add_fin,
          fin_add_fin, fin.injEq]
        simp
    · -- an infinite leak fills the bucket up to the burst, a whole number
      rw [hinf, hq, fin_add_inf] at hleak
      have hshift : (shiftBurst tm (rescaleDebt tm (creditLeak tm b))).remaining = .inf false := by
        rw [shiftBurst]
        split
        · rw [hleak]
          rfl
        · exact hleak
      rw [hshift, ofInt_eq, min_fin_posInf, snapToZero_fin, snap_int] at hremaining
      refine ⟨_, hremaining, hB, le_rfl, fun n _ _ => iff_of_false (add_epsilon_ne _ _) ?_⟩
      rintro ⟨-, h⟩
      rw [balanceFor, hinf, hq, fin_add_inf, ofInt_eq, ofInt_eq] at h
      cases h

/-- The charge answers with no negative balance; it leaves one if the hits exceed it by `1e-9`. -/
theorem charge_plain (host : Host) (x : ℤ) {z : ℚ} (hz : b.remaining = .fin z) (hz0 : 0 ≤ z)
    (hzB : z ≤ b.burst) (hwait : r.maxWait = 0) (reqState : RateLimitReqState) (tm : LeakyTerms)
    (rate : ExactFloat) :
    0 ≤ (charge host x b r reqState tm rate).resp.remaining ∧
      ∃ q', (charge host x b r reqState tm rate).b.remaining = .fin q' ∧
        (0 ≤ q' ↔ ¬ (0 < r.hits ∧ z + epsilon = r.hits)) := by
  have hε := epsilon_pos
  have hspendable : 0 ≤ spendableTokens host b.remaining := le_max_left _ _
  -- a request at the edge is admitted, never refused
  have hshort : wholeTokens host b.remaining < r.hits → z + epsilon ≠ r.hits ∨ ¬ 0 < r.hits := by
    intro hlt
    by_cases hpos : 0 < r.hits
    · left
      intro heq
      rw [hz] at hlt
      exact absurd ((le_wholeTokens hpos).mpr heq.ge) (not_le.mpr hlt)
    · exact .inr hpos
  -- there is no debt to give back to, and no wait to book
  have hcredit : ¬ (r.hits < 0 ∧ b.remaining < 0) := by
    rintro ⟨-, hneg⟩
    rw [hz, fin_lt_zero] at hneg
    linarith
  unfold charge
  dsimp only
  rw [if_neg hcredit, if_neg (by omega : ¬ 0 < r.maxWait)]
  -- a query leaves the balance alone
  by_cases h0 : r.hits = 0
  · rw [if_pos h0]
    exact ⟨hspendable, z, hz, iff_of_true hz0 (fun h => by omega)⟩
  rw [if_neg h0]
  by_cases hlt : wholeTokens host b.remaining < r.hits
  · -- refused
    have hnot : ¬ (0 < r.hits ∧ z + epsilon = r.hits) := by
      rintro ⟨hpos, heq⟩
      exact (hshort hlt).elim (fun h => h heq) (fun h => h hpos)
    rw [if_pos hlt]
    split
    · refine ⟨le_rfl, min z 0, ?_, iff_of_true (le_min hz0 le_rfl) hnot⟩
      rw [hz, zero_eq_fin, min_fin]
    · exact ⟨hspendable, z, hz, iff_of_true hz0 hnot⟩
  · rw [if_neg hlt]
    have hafter : snapToZero (ExactFloat.min (.ofInt b.burst) (b.remaining - .ofInt r.hits)) =
        .fin (snap (min b.burst (z - r.hits))) := by
      rw [hz, ofInt_eq, ofInt_eq, fin_sub_fin, min_fin, snapToZero_fin]
    dsimp only
    rw [hafter]
    have hburst : (0 : ℚ) ≤ b.burst := hz0.trans hzB
    rcases lt_or_gt_of_ne h0 with hneg | hpos
    · -- a refund
      have hneg' : (r.hits : ℚ) < 0 := by exact_mod_cast hneg
      have hmin : 0 ≤ min (b.burst : ℚ) (z - r.hits) := le_min hburst (by linarith)
      have hsnap : 0 ≤ snap (min (b.burst : ℚ) (z - r.hits)) := snap_nonneg.mpr (by linarith)
      refine ⟨?_, _, rfl, iff_of_true hsnap (fun h => by omega)⟩
      rw [wholeTokens_of_nonneg host (by linarith)]
      exact Int.floor_nonneg.mpr (by linarith)
    · -- admitted: at most `1e-9` more than there is
      have hpos' : (0 : ℚ) < r.hits := by exact_mod_cast hpos
      rw [hz, not_lt, le_wholeTokens hpos] at hlt
      rw [min_eq_right (by linarith)]
      have hle : -epsilon ≤ snap (z - r.hits) := by
        rcases snap_cases (z - r.hits) with ⟨-, -, h⟩ | ⟨-, h⟩ <;> rw [h] <;> linarith
      refine ⟨?_, _, rfl, ?_⟩
      · rw [wholeTokens_of_nonneg host hle]
        exact Int.floor_nonneg.mpr (by linarith)
      · rw [snap_nonneg]
        constructor
        · rintro h ⟨-, heq⟩
          linarith
        · intro h
          have hne : z + epsilon ≠ r.hits := fun heq => h ⟨hpos, heq⟩
          have hlt' := lt_of_le_of_ne hlt (Ne.symm hne)
          linarith

/-- **A found leaky bucket**: the answer's balance is not negative, and the item's is not if the
    request fits. -/
theorem leakyBucketItem_plain (host : Host) (now : ℤ) (hr : Plain r)
    (reqState : RateLimitReqState) (hb : LeakyNatural b) (x : ℤ) :
    ∃ out, leakyBucketItem host now r reqState b x = .ok out ∧ 0 ≤ out.resp.remaining ∧
      Natural out.b.burst ∧ Natural out.b.updatedAt ∧
      ∃ q, out.b.remaining = .fin q ∧ (0 ≤ q ↔ LeakyFits r b) := by
  obtain ⟨tm, htm⟩ : ∃ tm, leakyTerms host now r b = .ok tm := by
    unfold leakyTerms
    rw [requestTerms_plain hr.gregorian]
    exact ⟨_, rfl⟩
  -- first the credit, then the charge on the balance it leaves
  obtain ⟨z, hz, hz0, hzB, hedge⟩ := credited_plain hr hb htm
  obtain ⟨q, hq, hq0⟩ := hb.balance
  obtain ⟨htmburst, -, -, -, hcreated⟩ := terms_of_nonneg htm hq hq0
  have hburst : (credited r tm b).burst = r.burst := by
    rw [credited_burst r tm b (leakyTerms_ok htm).2.2.2.2.2.2.2.1, htmburst]
  have htime : tm.createdAt = r.createdAt := by rw [hcreated, hr.maxWait, if_neg (lt_irrefl _)]
  set rate := chargeRate tm (credited r tm b) with hrate
  obtain ⟨hanswer, q', hq', hiff⟩ := charge_plain host (touchedExpiry r tm x) hz hz0
    (by rw [hburst]; exact hzB) hr.maxWait reqState tm rate
  have hcharged := charge_b host (touchedExpiry r tm x) (credited r tm b) r reqState tm rate
  obtain ⟨hresp, hitem, -⟩ := deferredExpiry_fields host tm rate
    (charge host (touchedExpiry r tm x) (credited r tm b) r reqState tm rate)
  refine ⟨deferredExpiry host tm rate
    (charge host (touchedExpiry r tm x) (credited r tm b) r reqState tm rate), ?_, ?_, ?_, ?_, q',
    ?_, ?_⟩
  · rw [leakyBucketItem, htm]
  · rw [hresp]
    exact hanswer
  · rw [hitem, hcharged]
    exact hburst ▸ hr.burst
  · rw [hitem, hcharged]
    show Natural (credited r tm b).updatedAt
    rw [credited_updatedAt, htime]
    rcases max_choice b.updatedAt r.createdAt with h | h
    · rw [h]
      exact hb.updatedAt
    · rw [h]
      exact hr.createdAt
  · rw [hitem]
    exact hq'
  · rw [hiff, LeakyFits, not_iff_not]
    constructor
    · -- `LeakyFits` bounds the hits by the burst; the charged balance is within it already
      rintro ⟨hpos, heq⟩
      have hle : r.hits ≤ r.burst := by
        have hlt : (r.hits : ℚ) < (r.burst + 1 : ℤ) := by
          have := epsilon_lt_one
          push_cast
          linarith
        have : r.hits < r.burst + 1 := by exact_mod_cast hlt
        omega
      obtain ⟨hreset, hsum⟩ := (hedge r.hits hpos hle).mp heq
      exact ⟨hreset, hpos, hle, hsum⟩
    · rintro ⟨hreset, hpos, hle, hsum⟩
      exact ⟨hpos, (hedge r.hits hpos hle).mpr ⟨hreset, hsum⟩⟩

end Leaky

/-! ## A request

The invariant of the key (`ItemInRange`), the condition (`Fits`), the conclusion (`Sound`), and the
equivalence of the two, case by case of what the request finds.  Each case is one instance of
`sound_iff_of_computes`, except for the found leaky bucket, which computes no noted sum and is sound
or not by its float balance. -/

/-- What every item of the key holds. -/
def InRange : Bucket → Prop
  | .token t => TokenNatural t
  | .leaky b => LeakyNatural b

/-- The item of the key, in the cache or the Store. -/
structure ItemInRange (key : String) (item : CacheItem) : Prop where
  key_eq : item.key = key
  bucket : ∀ v, item.value = some v → InRange v

/-- Its balance is not negative. -/
def NotNegative : Bucket → Prop
  | .token t => 0 ≤ t.remaining
  | .leaky b => ¬ b.remaining < 0

/-- A bucket in range has no negative balance. -/
theorem InRange.notNegative {v : Bucket} (h : InRange v) : NotNegative v := by
  cases v with
  | token t => exact h.remaining.1
  | leaky b =>
    obtain ⟨q, hq, hq0⟩ := h.balance
    show ¬ b.remaining < 0
    rw [hq, fin_lt_zero]
    exact not_lt.mpr hq0

/-- **A request fits**: it does for the bucket it finds, or for the one it creates.  A reset of a
    token bucket computes nothing. -/
def Fits (s : Shard) (a : Arrival) : Prop :=
  match a.req.algorithm, s.find (epochMillis a.now) a.req with
  | .tokenBucket, none => NewFits a.req a.req.limit
  | .tokenBucket, some (_, .leaky _) =>
    hasBehavior a.req.behavior .resetRemaining = true ∨ NewFits a.req a.req.limit
  | .tokenBucket, some (_, .token t) =>
    hasBehavior a.req.behavior .resetRemaining = true ∨ TokenFits a.req t
  | .leakyBucket, some (_, .leaky b) => LeakyFits a.req.withBurst b
  | .leakyBucket, _ => NewFits a.req a.req.withBurst.burst
  | .unknown _, _ => True

/-- Decidable: one sum for each branch of the code. -/
instance decidableFits (s : Shard) (a : Arrival) : Decidable (Fits s a) :=
  match halg : a.req.algorithm, hfind : s.find (epochMillis a.now) a.req with
  | .tokenBucket, none =>
    decidable_of_iff (NewFits a.req a.req.limit) (by simp only [Fits, halg, hfind])
  | .tokenBucket, some (_, .leaky _) =>
    decidable_of_iff (hasBehavior a.req.behavior .resetRemaining = true ∨ NewFits a.req a.req.limit)
      (by simp only [Fits, halg, hfind])
  | .tokenBucket, some (_, .token t) =>
    decidable_of_iff (hasBehavior a.req.behavior .resetRemaining = true ∨ TokenFits a.req t)
      (by simp only [Fits, halg, hfind])
  | .leakyBucket, some (_, .leaky b) =>
    decidable_of_iff (LeakyFits a.req.withBurst b) (by simp only [Fits, halg, hfind])
  | .leakyBucket, some (_, .token _) =>
    decidable_of_iff (NewFits a.req a.req.withBurst.burst) (by simp only [Fits, halg, hfind])
  | .leakyBucket, none =>
    decidable_of_iff (NewFits a.req a.req.withBurst.burst) (by simp only [Fits, halg, hfind])
  | .unknown _, _ => decidable_of_iff True (by simp only [Fits, halg])

/-- The request creates an item. -/
def CreatesItem (s : Shard) (a : Arrival) : Prop :=
  match a.req.algorithm, s.find (epochMillis a.now) a.req with
  | .tokenBucket, none => True
  | .tokenBucket, some (_, .leaky _) => hasBehavior a.req.behavior .resetRemaining = false
  | .tokenBucket, some (_, .token _) => False
  | .leakyBucket, some (_, .leaky _) => False
  | .leakyBucket, _ => True
  | .unknown _, _ => False

/-- **The arithmetic of a request is sound**: every sum it computes for a remaining or an `ExpireAt`
    is exact; no remaining is negative, in the answer, the cache or the Store; and an item it
    creates does not end before it was created. -/
structure Sound (conf : Config) (host : Host) (key : String) (s : Shard) (a : Arrival) : Prop where
  exact : (handleGetRateLimit conf host s a).Exact
  answered : ∀ resp, (step conf host s a).1 = .ok resp → 0 ≤ resp.remaining
  kept : (step conf host s a).2.Holds key (fun item => ∀ v, item.value = some v → NotNegative v)
  created : CreatesItem s a → ∀ item, (step conf host s a).2.cache.peek key = some item →
    a.req.createdAt ≤ item.expireAt

/-- What a call leaves when it fits. -/
structure Leaves (key : String) (createdAt : ℤ) (creates : Prop)
    (out : Except String RateLimitResp × Shard) : Prop where
  answered : ∀ resp, out.1 = .ok resp → 0 ≤ resp.remaining
  kept : out.2.Holds key (ItemInRange key)
  created : creates → ∀ item, out.2.cache.peek key = some item → createdAt ≤ item.expireAt

section Request
variable {conf : Config} {host : Host} {key : String} {s : Shard} {a : Arrival}

/-- Wrapping an error changes no answer. -/
theorem ok_of_wrapError {msg : String} {result : Except String RateLimitResp} {resp : RateLimitResp}
    (h : wrapError msg result = .ok resp) : result = .ok resp := by
  cases result with
  | error e => cases h
  | ok resp' => exact h

/-- A call that computes what its model does is sound precisely if it fits. -/
theorem sound_iff_of_computes {m : Traced (Except String RateLimitResp × Shard)} {msg : String}
    {C : Prop} {out : Except String RateLimitResp × Shard}
    (hcall : handleGetRateLimit conf host s a =
      m >>= fun out => pure (wrapError msg out.1, out.2))
    (hm : Computes m C out) (hfits : Fits s a ↔ C)
    (hleaves : C → Leaves key a.req.createdAt (CreatesItem s a) out) :
    (Sound conf host key s a ↔ Fits s a) ∧
      (Fits s a → (step conf host s a).2.Holds key (ItemInRange key)) := by
  have h := Computes.map (fun out => (wrapError msg out.1, out.2)) hm
  rw [← hcall] at h
  rw [hfits]
  -- if it does not fit a note is inexact; if it does, the step is that of the unbounded model
  refine ⟨⟨fun hsound => h.exact_iff.mp hsound.exact, fun hC => ?_⟩, fun hC => ?_⟩
  · obtain ⟨hanswered, hkept, hcreated⟩ := hleaves hC
    have hstep : step conf host s a = (wrapError msg out.1, out.2) := h.value_eq hC
    refine ⟨h.exact_iff.mpr hC, fun resp hresp => ?_, ?_, ?_⟩
    · rw [hstep] at hresp
      exact hanswered resp (ok_of_wrapError hresp)
    · rw [hstep]
      exact hkept.mono (fun item hitem v hv => (hitem.bucket v hv).notNegative)
    · rw [hstep]
      exact hcreated
  · have hstep : step conf host s a = (wrapError msg out.1, out.2) := h.value_eq hC
    rw [hstep]
    exact (hleaves hC).kept

variable {loc : Calendar.Location} {now : ℤ} {r : RateLimitReq} {reqState : RateLimitReqState}
  {creates : Prop}

/-- A call that creates an item in range leaves the key in range. -/
theorem leaves_create (h : s.Holds key (ItemInRange key)) {resp : RateLimitResp} {item : CacheItem}
    {createdAt : ℤ} (isOwner : Bool) (hresp : 0 ≤ resp.remaining) (hitem : ItemInRange key item)
    (hends : createdAt ≤ item.expireAt) :
    Leaves key createdAt creates (.ok resp, s.create isOwner item) where
  answered := fun resp' hresp' => by
    rw [← Except.ok.inj hresp']
    exact hresp
  kept := h.create hitem.key_eq isOwner hitem
  created := fun _ item' hitem' => by
    rw [Shard.create, ← hitem.key_eq, Cache.peek_add_self] at hitem'
    rw [← Option.some.inj hitem']
    exact hends

/-- A new token bucket is in range, and does not end before it was created. -/
theorem tokenBucketNewItem_leaves (hr : Plain r) (hfits : NewFits r r.limit)
    (h : s.Holds r.hashKey (ItemInRange r.hashKey)) :
    Leaves r.hashKey r.createdAt creates
      (Gubernator.tokenBucketNewItem loc now s r reqState) := by
  have hlimit := hr.limit
  have hduration := hr.duration
  unfold Natural at hlimit hduration
  obtain ⟨-, hleft⟩ := hfits
  -- a refused request leaves the whole limit, an admitted one the difference, which fits
  have hremaining :
      Natural (if decide (r.limit < r.hits) = true then r.limit else r.limit - r.hits) := by
    simp only [decide_eq_true_eq]
    split
    · exact hr.limit
    · exact ⟨by omega, hleft⟩
  simp only [Gubernator.tokenBucketNewItem, hr.gregorian, Bool.false_eq_true, if_false]
  refine leaves_create h _ hremaining.1 ⟨rfl, fun v hv => ?_⟩ (by dsimp only; omega)
  rw [← Option.some.inj hv]
  exact ⟨hr.limit, hr.duration, hremaining, hr.createdAt⟩

/-- A new leaky bucket is in range, and does not end before it was created. -/
theorem leakyBucketNewItem_leaves (host : Host) (now : ℤ) (reqState : RateLimitReqState)
    (creates : Prop) (hr : Plain r) (h : s.Holds r.hashKey (ItemInRange r.hashKey)) :
    Leaves r.hashKey r.createdAt creates
      ((Gubernator.leakyBucketNewItem host now s r reqState).1.map wrapReset,
        (Gubernator.leakyBucketNewItem host now s r reqState).2) := by
  have hburst := hr.burst
  have hduration := hr.duration
  unfold Natural at hburst hduration
  -- cut at zero and capped at the burst
  have hremaining :
      0 ≤ if decide (r.burst < r.hits) = true then 0 else min r.burst (r.burst - r.hits) := by
    simp only [decide_eq_true_eq]
    split <;> omega
  simp only [Gubernator.leakyBucketNewItem, hr.gregorian, hr.maxWait, Bool.false_eq_true, if_false,
    lt_irrefl, false_and]
  refine leaves_create h _ hremaining ⟨rfl, fun v hv => ?_⟩ (by dsimp only; omega)
  rw [← Option.some.inj hv]
  exact ⟨⟨_, rfl, by exact_mod_cast hremaining⟩, hr.burst, hr.createdAt⟩

/-- A found token bucket that is not reset is charged by noted sums, and left in range if they fit.
    -/
theorem tokenBucket_found_computes (loc : Calendar.Location) (hr : Plain r) {item : CacheItem}
    {t : TokenBucketItem} (hfind : s.find (epochMillis now) r = some (item, .token t))
    (hreset : hasBehavior r.behavior .resetRemaining = false)
    (h : s.Holds r.hashKey (ItemInRange r.hashKey)) (reqState : RateLimitReqState) :
    Computes (tokenBucket loc now s r reqState) (TokenFits r t)
      (Gubernator.tokenBucket loc now s r reqState) ∧
    (TokenFits r t → Leaves r.hashKey r.createdAt False
      (Gubernator.tokenBucket loc now s r reqState)) := by
  obtain ⟨hitem, hvalue, hkey⟩ := Shard.find_key hfind
  have ht : TokenNatural t := (h.find hfind).bucket _ hvalue
  obtain ⟨hcomputes, hnatural⟩ := tokenBucketItem_computes loc now ht hr item.expireAt
  refine ⟨?_, fun hfits => ?_⟩
  · simp only [tokenBucket, Gubernator.tokenBucket, hfind, hreset, Bool.false_eq_true, if_false]
    refine Computes.congr (Computes.bind (D := True) hcomputes (fun _ => ?_)) (and_iff_left trivial)
    cases (Gubernator.tokenBucketItem loc now r t item.expireAt).result with
    | error e => exact computes_pure _
    | ok rl => exact computes_pure _
  · -- in range, the answer is no error and the item is changed in place
    obtain ⟨hbucket, rl, hrl, hremaining⟩ := hnatural hfits
    simp only [Gubernator.tokenBucket, hfind, hreset, Bool.false_eq_true, if_false, hrl]
    refine ⟨?_, ?_, fun hcreates => hcreates.elim⟩
    · intro resp hresp
      rw [← Except.ok.inj hresp]
      exact hremaining
    · refine Shard.Holds.update (h.afterLookup (fun item hitem => hitem.key_eq)) ?_
        (Shard.peek_lookup hitem hkey) _ ⟨?_, fun v hv => ?_⟩
      · exact hkey
      · exact hkey
      · rw [← Option.some.inj hv]
        exact hbucket

/-- **A token bucket request** is sound iff it fits, and then leaves the key in range. -/
theorem token_sound_iff (conf : Config) (host : Host) (halg : a.req.algorithm = .tokenBucket)
    (hr : Plain a.req) (h : s.Holds a.req.hashKey (ItemInRange a.req.hashKey)) :
    (Sound conf host a.req.hashKey s a ↔ Fits s a) ∧
      (Fits s a → (step conf host s a).2.Holds a.req.hashKey (ItemInRange a.req.hashKey)) := by
  have hcall : handleGetRateLimit conf host s a =
      tokenBucket host.location a.now s a.req a.reqState >>=
        fun out => pure (wrapError "Error in tokenBucket" out.1, out.2) := by
    simp only [handleGetRateLimit, halg]
  have hlookup : (s.lookup (epochMillis a.now) a.req).2.Holds a.req.hashKey
      (ItemInRange a.req.hashKey) := h.afterLookup (fun item hitem => hitem.key_eq)
  -- the branches of `tokenBucket`: no item, a reset, the other algorithm's, its own
  cases hfind : s.find (epochMillis a.now) a.req with
  | none =>
    have hm : Computes (tokenBucket host.location a.now s a.req a.reqState)
        (NewFits a.req a.req.limit) (Gubernator.tokenBucketNewItem host.location a.now
          (s.lookup (epochMillis a.now) a.req).2 a.req a.reqState) := by
      simp only [tokenBucket, hfind]
      exact tokenBucketNewItem_computes _ _ _ hr _
    refine sound_iff_of_computes hcall hm ?_ (fun hfits => ?_)
    · simp only [Fits, halg, hfind]
    · exact tokenBucketNewItem_leaves hr hfits hlookup
  | some found =>
    obtain ⟨item, v⟩ := found
    cases hreset : hasBehavior a.req.behavior .resetRemaining with
    -- a reset removes the item, whichever algorithm's it is, and computes nothing
    | true =>
      have hm : Computes (tokenBucket host.location a.now s a.req a.reqState) True
          (.ok { status := .underLimit, limit := a.req.limit, remaining := a.req.limit,
                 resetTime := 0 },
            (s.lookup (epochMillis a.now) a.req).2.remove a.req.hashKey) := by
        simp only [tokenBucket, hfind, hreset, if_true]
        exact computes_pure _
      refine sound_iff_of_computes hcall hm ?_ (fun _ => ⟨?_, Shard.holds_remove _ _, ?_⟩)
      · cases v <;> simp only [Fits, halg, hfind, hreset, true_or]
      · intro resp hresp
        rw [← Except.ok.inj hresp]
        exact hr.limit.1
      · intro hcreates
        cases v <;> simp [CreatesItem, halg, hfind, hreset] at hcreates
    | false =>
      cases v with
      -- the other algorithm's item is removed, and a token bucket created
      | leaky b =>
        have hm : Computes (tokenBucket host.location a.now s a.req a.reqState)
            (NewFits a.req a.req.limit) (Gubernator.tokenBucketNewItem host.location a.now
              ((s.lookup (epochMillis a.now) a.req).2.remove a.req.hashKey) a.req a.reqState) := by
          simp only [tokenBucket, hfind, hreset, Bool.false_eq_true, if_false]
          exact tokenBucketNewItem_computes _ _ _ hr _
        refine sound_iff_of_computes hcall hm ?_ (fun hfits => ?_)
        · simp only [Fits, halg, hfind, hreset, Bool.false_eq_true, false_or]
        · exact tokenBucketNewItem_leaves hr hfits (Shard.holds_remove _ _)
      -- the item is charged
      | token t =>
        obtain ⟨hm, hleaves⟩ :=
          tokenBucket_found_computes host.location hr hfind hreset h a.reqState
        refine sound_iff_of_computes hcall hm ?_ (fun hfits => ?_)
        · simp only [Fits, halg, hfind, hreset, Bool.false_eq_true, false_or]
        · simpa only [CreatesItem, halg, hfind] using hleaves hfits

/-- **A request on a found leaky bucket** is sound iff it fits, and then leaves the key in range. -/
theorem leaky_found_sound_iff (conf : Config) (host : Host)
    (halg : a.req.algorithm = .leakyBucket) (hr : Plain a.req)
    (h : s.Holds a.req.hashKey (ItemInRange a.req.hashKey)) {item : CacheItem}
    {b : LeakyBucketItem} (hfind : s.find (epochMillis a.now) a.req = some (item, .leaky b)) :
    (Sound conf host a.req.hashKey s a ↔ Fits s a) ∧
      (Fits s a → (step conf host s a).2.Holds a.req.hashKey (ItemInRange a.req.hashKey)) := by
  set reqState : RateLimitReqState := { a.reqState with waitCeiling := conf.scheduleMaxWait }
    with hstate
  obtain ⟨hitem, hvalue, hkey⟩ := Shard.find_key hfind
  have hb : LeakyNatural b := (h.find hfind).bucket _ hvalue
  obtain ⟨out, hout, hanswer, hburst, hupdated, q, hq, hiff⟩ :=
    leakyBucketItem_plain host a.now hr.withBurst reqState hb item.expireAt
  set item' : CacheItem :=
    { item with value := some (.leaky out.b), expireAt := wrap out.expireAt } with hitem'
  -- the model computes in floats here, so there is nothing to note
  have hcall : handleGetRateLimit conf host s a = pure (.ok (wrapReset out.resp),
      (s.lookup (epochMillis a.now) a.req).2.update reqState.isOwner item') := by
    simp only [handleGetRateLimit, halg, leakyBucket, leakyBucketBurst, find_withBurst,
      lookup_withBurst, hfind, ← hstate, hout, hitem']
    rfl
  have hstep : step conf host s a = (.ok (wrapReset out.resp),
      (s.lookup (epochMillis a.now) a.req).2.update reqState.isOwner item') := by
    rw [step, hcall]
    rfl
  -- the request fits iff the float that is left is not negative
  have hfits : Fits s a ↔ 0 ≤ q := by
    rw [hiff]
    simp only [Fits, halg, hfind]
  have hkey' : item'.key = item.key := rfl
  have hkept : Fits s a →
      (step conf host s a).2.Holds a.req.hashKey (ItemInRange a.req.hashKey) := by
    intro hf
    rw [hstep]
    refine Shard.Holds.update (h.afterLookup (fun item hitem => hitem.key_eq)) (hkey'.trans hkey)
      (Shard.peek_lookup hitem hkey) _ ⟨hkey'.trans hkey, fun v hv => ?_⟩
    rw [← Option.some.inj hv]
    exact ⟨⟨q, hq, hfits.mp hf⟩, hburst, hupdated⟩
  refine ⟨⟨fun hsound => ?_, fun hf => ⟨?_, ?_, ?_, ?_⟩⟩, hkept⟩
  · -- the balance left is in the cache
    have hcached := hsound.kept.cached item'
    rw [hstep] at hcached
    have hnot : ¬ out.b.remaining < 0 :=
      hcached (Shard.peek_update_found hfind hkey' _) (.leaky out.b) rfl
    rw [hq, fin_lt_zero, not_lt] at hnot
    exact hfits.mpr hnot
  · rw [hcall]
    exact (computes_pure _).exact_iff.mpr trivial
  · intro resp hresp
    rw [hstep] at hresp
    rw [← Except.ok.inj hresp]
    exact hanswer
  · exact (hkept hf).mono (fun item hitem v hv => (hitem.bucket v hv).notNegative)
  · -- a found bucket is not created
    intro hcreates
    simp only [CreatesItem, halg, hfind] at hcreates

/-- **A leaky bucket request** is sound iff it fits, and then leaves the key in range. -/
theorem leaky_sound_iff (conf : Config) (host : Host) (halg : a.req.algorithm = .leakyBucket)
    (hr : Plain a.req) (h : s.Holds a.req.hashKey (ItemInRange a.req.hashKey)) :
    (Sound conf host a.req.hashKey s a ↔ Fits s a) ∧
      (Fits s a → (step conf host s a).2.Holds a.req.hashKey (ItemInRange a.req.hashKey)) := by
  set reqState : RateLimitReqState := { a.reqState with waitCeiling := conf.scheduleMaxWait }
    with hstate
  have hcall : handleGetRateLimit conf host s a =
      leakyBucket host a.now s a.req reqState >>=
        fun out => pure (wrapError "Error in leakyBucket" out.1, out.2) := by
    simp only [handleGetRateLimit, halg, hstate]
  have hr' := hr.withBurst
  have hlookup : (s.lookup (epochMillis a.now) a.req).2.Holds a.req.hashKey
      (ItemInRange a.req.hashKey) := h.afterLookup (fun item hitem => hitem.key_eq)
  -- a bucket is created, in the shard as the lookup left it or with the other algorithm's removed
  have hnew : ∀ base : Shard, base.Holds a.req.hashKey (ItemInRange a.req.hashKey) →
      leakyBucket host a.now s a.req reqState =
        leakyBucketNewItem host a.now base a.req.withBurst reqState →
      (Fits s a ↔ NewFits a.req a.req.withBurst.burst) →
      (Sound conf host a.req.hashKey s a ↔ Fits s a) ∧
        (Fits s a → (step conf host s a).2.Holds a.req.hashKey (ItemInRange a.req.hashKey)) := by
    intro base hbase hleaky hfits
    have hm := leakyBucketNewItem_computes host a.now base hr' reqState
    rw [← hleaky] at hm
    refine sound_iff_of_computes hcall hm ?_ (fun _ => ?_)
    · rw [hfits]
      simp only [NewFits, withBurst_createdAt, withBurst_duration, withBurst_hits]
    · have hleaves := leakyBucketNewItem_leaves host a.now reqState (CreatesItem s a) hr'
        (by simpa using hbase)
      simpa using hleaves
  cases hfind : s.find (epochMillis a.now) a.req with
  | none =>
    refine hnew _ hlookup ?_ ?_
    · simp only [leakyBucket, leakyBucketBurst, find_withBurst, lookup_withBurst, hfind]
    · simp only [Fits, halg, hfind]
  | some found =>
    obtain ⟨item, v⟩ := found
    cases v with
    | token t =>
      refine hnew _ (Shard.holds_remove (s.lookup (epochMillis a.now) a.req).2 _) ?_ ?_
      · simp only [leakyBucket, leakyBucketBurst, find_withBurst, lookup_withBurst, hfind,
          withBurst_hashKey]
      · simp only [Fits, halg, hfind]
    | leaky b => exact leaky_found_sound_iff conf host halg hr h hfind

end Request

/-! ## A run

The invariant is carried by `Machine.guarded_congr`:  two conditions that agree at every state the
invariant allows, and keep it there, hold along the same runs. -/

/-- **Every run.**  On a key whose items hold `int64`s that are not negative, as a key without items
    does, the arithmetic of every request of a run is sound precisely if every request fits. -/
theorem arithmetic_sound_iff (conf : Config) (host : Host) (key : String) (s : Shard)
    (hstart : s.Holds key (ItemInRange key)) (run : List Arrival)
    (hrun : ∀ a ∈ run, Plain a.req ∧ a.req.hashKey = key ∧
      (a.req.algorithm = .tokenBucket ∨ a.req.algorithm = .leakyBucket)) :
    Machine.Guarded (step conf host) (Sound conf host key) s run ↔
      Machine.Guarded (step conf host) Fits s run := by
  refine Machine.guarded_congr (P := fun s => s.Holds key (ItemInRange key)) (fun s a ha hs => ?_)
    hrun hstart
  obtain ⟨hr, rfl, halg⟩ := ha
  rcases halg with halg | halg
  · exact token_sound_iff conf host halg hr hs
  · exact leaky_sound_iff conf host halg hr hs

/-- A request at five seconds. -/
def request (algorithm : Algorithm) (hits limit duration : ℤ) : Arrival where
  now := 5000000000
  req := { RateLimitReq.sample hits limit duration 0 5000 0 with algorithm }
  reqState := { isOwner := true }

/-- A request within `int64`, without flags and waits. -/
theorem request_plain {hits limit duration : ℤ} (algorithm : Algorithm)
    (hhits : minInt64 ≤ hits ∧ hits ≤ maxInt64) (hlimit : Natural limit)
    (hduration : Natural duration) : Plain (request algorithm hits limit duration).req where
  gregorian := (by decide : hasBehavior 0 .durationIsGregorian = false)
  maxWait := rfl
  limit := hlimit
  burst := (by decide : Natural 0)
  duration := hduration
  createdAt := (by decide : Natural 5000)
  hits_ge := hhits.1
  hits_le := hhits.2

/-- Hits, a refund, a new limit, a new duration, and the other algorithm. -/
def manyKinds : List Arrival :=
  [request .tokenBucket 3 10 60000, request .tokenBucket (-5) 10 60000,
    request .tokenBucket 0 20 60000, request .tokenBucket 1 20 1000, request .leakyBucket 7 20 1000]

/-- A creation, a refund, a changed limit, a changed duration and the other algorithm, all in range.
    -/
theorem arithmetic_sound_iff_manyKinds :
    Machine.Guarded (step ⟨300000000000⟩ .amd64)
      (Sound ⟨300000000000⟩ .amd64 "requests_account:1") (Shard.ofItems []) manyKinds := by
  refine (arithmetic_sound_iff ⟨300000000000⟩ .amd64 "requests_account:1" (Shard.ofItems [])
    (Shard.holds_of_absent rfl rfl) manyKinds ?_).mpr (by decide +kernel)
  intro a ha
  fin_cases ha
  · exact ⟨request_plain _ (by decide) (by decide) (by decide), by decide +kernel, .inl rfl⟩
  · exact ⟨request_plain _ (by decide) (by decide) (by decide), by decide +kernel, .inl rfl⟩
  · exact ⟨request_plain _ (by decide) (by decide) (by decide), by decide +kernel, .inl rfl⟩
  · exact ⟨request_plain _ (by decide) (by decide) (by decide), by decide +kernel, .inl rfl⟩
  · exact ⟨request_plain _ (by decide) (by decide) (by decide), by decide +kernel, .inr rfl⟩

/-- **The sums that wrap.** A duration of `2^63 - 1` ends a token bucket long before it was created;
    a refund of `2^63` makes the balance of a new bucket negative, a token bucket's and a leaky
    one's. -/
theorem arithmetic_wraps :
    (Plain (request .tokenBucket 1 10 maxInt64).req ∧
      ((step ⟨300000000000⟩ .amd64 (Shard.ofItems [])
        (request .tokenBucket 1 10 maxInt64)).2.cache.peek "requests_account:1").map
          CacheItem.expireAt = some (-9223372036854770809) ∧
      ¬ Sound ⟨300000000000⟩ .amd64 "requests_account:1" (Shard.ofItems [])
        (request .tokenBucket 1 10 maxInt64)) ∧
    (Plain (request .tokenBucket minInt64 10 60000).req ∧
      (step ⟨300000000000⟩ .amd64 (Shard.ofItems []) (request .tokenBucket minInt64 10 60000)).1 =
        .ok { limit := 10, remaining := -9223372036854775798, resetTime := 65000 } ∧
      ¬ Sound ⟨300000000000⟩ .amd64 "requests_account:1" (Shard.ofItems [])
        (request .tokenBucket minInt64 10 60000)) ∧
    Plain (request .leakyBucket minInt64 10 60000).req ∧
      (step ⟨300000000000⟩ .amd64 (Shard.ofItems []) (request .leakyBucket minInt64 10 60000)).1 =
        .ok { limit := 10, remaining := -9223372036854775798, resetTime := 5000 } ∧
      ¬ Sound ⟨300000000000⟩ .amd64 "requests_account:1" (Shard.ofItems [])
        (request .leakyBucket minInt64 10 60000) := by
  refine ⟨⟨request_plain _ (by decide) (by decide) (by decide), by decide +kernel, ?_⟩,
    ⟨request_plain _ (by decide) (by decide) (by decide), by decide +kernel, ?_⟩,
    request_plain _ (by decide) (by decide) (by decide), by decide +kernel, ?_⟩
  · exact fun h => absurd h.exact (by decide +kernel)
  · exact fun h => absurd h.exact (by decide +kernel)
  · exact fun h => absurd h.exact (by decide +kernel)

end Wrapped

end Gubernator
