/-
  THE STATUS READ OF `broadcastPeers`, and what it does to the owner's bucket.

  Before the owner tells the other peers about a key it asks its own worker for the key's status.
  The question is the request that was queued last, cloned, with only its hits cleared: its flags
  and its time stamp are put to the live bucket once more.

  * A token bucket survives unless the request carries RESET_REMAINING, which removes it.
  * A leaky bucket keeps its limit, burst, duration and expiry.  Its balance is restarted at the
    request's time, refilled if it carries RESET_REMAINING; `Harmless` says when nobody can tell.

  So the question is which balances a later reader can tell from each other.  Readers see the
  balance as it is at their time, cut at the burst (`balance`), and two readings are `Near` if they
  differ by at most `1e-9` tokens.  The read replaces the line the balance follows by one that
  starts at the read's time stamp, and there are four kinds of lines:

  1. rising: a usable rate, or one at which nothing leaks (`Restarted.rising`);
  2. falling: a negative limit or duration (`Restarted.falling`);
  3. full at once: the rate `0`, of a duration of zero (`Restarted.atOnce`);
  4. gone at once: the rate `-0` (`Restarted.gone`).
-/
import Gubernator.Global
import Gubernator.Leaky.Query

namespace Gubernator

open ExactFloat CappedLine

/-! ## What `QueueUpdate` can have queued

The queue only holds what a call of `getLocalRateLimit` put there after it had succeeded.  That the
call succeeded is what the read can rely on: the request is valid, and has been through the
algorithm once. -/

/-- Some call of `getLocalRateLimit`, at whatever time and on whatever cache, handed the request
    to `QueueUpdate`, which kept it. -/
def QueuedUpdate (conf : Config) (host : Host) (update : RateLimitReq) : Prop :=
  ∃ now s r reqState,
    update ∈ queueable (getLocalRateLimit conf host now s r reqState).updates

/-- A leaky bucket call that returns no error has terms. -/
theorem leakyBucket_terms {host : Host} {now : ℤ} {s : Shard} {r : RateLimitReq}
    {reqState : RateLimitReqState} {resp : RateLimitResp}
    (h : (leakyBucket host now s r reqState).1 = .ok resp) :
    ∃ terms, requestTerms host now r = .ok terms := by
  rw [← requestTerms_withBurst]
  rcases leakyBucket_call host now s r reqState with
    ⟨e, -, hr, -⟩ | ⟨item, b, out, -, -, hout, -, -⟩ | ⟨-, -, hterms, -⟩ | ⟨-, -, -, -, hterms, -⟩
  · rw [hr] at h
    cases h
  · obtain ⟨tm, htm, -⟩ := leakyBucketItem_ok hout
    exact ⟨_, (leakyTerms_ok htm).1⟩
  · exact hterms
  · exact hterms

/-- A queued leaky bucket request does not wait, has its burst filled in, and names a valid
    interval if it follows the calendar. -/
theorem QueuedUpdate.leaky {conf : Config} {host : Host} {update : RateLimitReq}
    (h : QueuedUpdate conf host update) (halg : update.algorithm = .leakyBucket) :
    ¬ 0 < update.maxWait ∧ update.withBurst = update ∧
      ∀ now, ∃ terms, requestTerms host now update = .ok terms := by
  obtain ⟨now, s, r, reqState, hmem⟩ := h
  have hmem := (List.mem_filter.mp hmem).1
  unfold getLocalRateLimit at hmem
  dsimp only at hmem
  split at hmem
  · cases hmem
  rename_i hvalid
  split at hmem
  · cases hmem
  rename_i resp s' hrun
  split at hmem
  swap
  · cases hmem
  rename_i hglobal
  obtain rfl := List.mem_singleton.mp hmem
  -- the algorithm is not touched on the way
  have hr : r.algorithm = .leakyBucket := by
    by_contra hne
    rw [RateLimitReq.afterwards, if_neg hne] at halg
    exact hne halg
  rw [RateLimitReq.afterwards, if_pos hr]
  -- validation forbids to wait and be global; filling in the burst twice is filling it in once;
  -- whether there are terms does not depend on the time
  refine ⟨fun hwait => ?_, ?_, fun now' => ?_⟩
  · rw [withBurst_maxWait] at hwait
    have := (validateMaxWait_scheduled (not_not.mp hvalid) hwait).2.1
    rw [hglobal] at this
    cases this
  · by_cases hburst : r.burst = 0
    · by_cases hlimit : r.limit = 0 <;> simp [RateLimitReq.withBurst, hburst, hlimit]
    · simp [RateLimitReq.withBurst, hburst]
  · rw [requestTerms_withBurst, requestTerms_ok_iff, ← requestTerms_ok_iff host now]
    simp only [handleGetRateLimit, hr, Prod.mk.injEq] at hrun
    cases hres : (leakyBucket host now s r
        { reqState with waitCeiling := conf.scheduleMaxWait }).1 with
    | error e =>
      rw [hres] at hrun
      cases hrun.1
    | ok resp => exact leakyBucket_terms hres

/-! ## Balances that nobody can tell apart -/

/-- **When the read leaves a leaky bucket as it was.**  The request is timed `c`, the clock says
    `t`, both in milliseconds.

    At a rate that lets tokens leak in, what the read stores must not exceed the balance at `t`.
    The other two branches are buckets of a negative limit or duration: at a negative rate tokens
    leak out, at the rate `-0` they are gone at once. -/
def Harmless (reset : Bool) (b : LeakyBucketItem) (rate : ExactFloat) (c t : ℤ) : Prop :=
  if rate = .negZero then
    if reset then
      if b.updatedAt < c then c < t
      else t ≤ b.updatedAt → .ofInt b.burst ≤ b.remaining + .fin epsilon
    else b.updatedAt < c → b.updatedAt < t
  else if slope rate < 0 then
    if reset then Near (.ofInt b.burst) (b.leaked rate c)
    else b.leaked rate c ≤ .ofInt b.burst + .fin epsilon ∧
      b.balance rate t ≤ snapToZero (b.balance rate c) + .fin epsilon
  else (if reset then .ofInt b.burst else b.balance rate c) ≤ b.balance rate t + .fin epsilon

section Restart
variable {b b' : LeakyBucketItem} {q : ℚ} {rate : ExactFloat} {reset : Bool} {c t : ℤ}

/-- `b'` is `b` after a read timed `c`. -/
structure Restarted (reset : Bool) (b : LeakyBucketItem) (rate : ExactFloat) (c : ℤ)
    (b' : LeakyBucketItem) : Prop where
  burst : b'.burst = b.burst
  updatedAt : b'.updatedAt = max b.updatedAt c
  remaining : b'.remaining =
    snapToZero (if reset then .ofInt b.burst else b.balance rate c)

/-- At a rate that is not zero, readings follow a line of that slope, cut at the burst. -/
theorem balance_line (hq : b.remaining = .fin q) (hrate : ∀ s, rate ≠ zero s) (x : ℤ) :
    b.balance rate x = .fin (level b.burst b.updatedAt q (slope rate) x) := by
  rw [LeakyBucketItem.balance, leaked_line hq hrate, ofInt_eq, min_fin]
  rfl

/-- Before its own time an item's balance is what it stores, whatever the rate. -/
theorem balance_of_le (hq : b.remaining = .fin q) {x : ℤ} (hx : x ≤ b.updatedAt) :
    b.balance rate x = .fin (min b.burst q) := by
  rw [LeakyBucketItem.balance, leaked_of_le hq hx, ofInt_eq, min_fin]

/-- **Snapping hides nothing from the earliest reader.**  `f` is what readers saw before. -/
theorem snap_le_reading_iff {f : ℤ → ℚ} {m : ℤ} (hf : Monotone f) (hm : f m = f c)
    (hcap : ∀ x, f x ≤ b.burst) (hlow : ∀ x, min (b.burst : ℚ) q ≤ f x)
    (hdebt : q < 0 → c = t) :
    (t < m → snap (f c) ≤ f t + epsilon) ↔ f c ≤ f t + epsilon := by
  -- a balance near zero that was none before the read is credit, and a burst is whole
  have hsmall : -epsilon < f c → f c < epsilon → -epsilon ≤ f t ∧ (0 ≤ f t ∨ f c = f t) := by
    intro h1 h2
    rcases lt_or_ge q 0 with hneg | hpos
    · have h := hdebt hneg
      rw [h] at h1 ⊢
      exact ⟨h1.le, .inr rfl⟩
    · have hburst : (0 : ℚ) ≤ b.burst := by
        exact_mod_cast nonneg_of_neg_epsilon_lt (lt_of_lt_of_le h1 (hcap c))
      have h0 : 0 ≤ f t := (le_min hburst hpos).trans (hlow t)
      exact ⟨by linarith [epsilon_pos], .inl h0⟩
  constructor
  · intro h
    rcases lt_or_ge t m with htm | hmt
    · have h := h htm
      rcases snap_cases (f c) with ⟨h1, h2, hs⟩ | ⟨-, hs⟩
      · rcases (hsmall h1 h2).2 with h0 | heq
        · linarith
        · linarith [epsilon_pos]
      · rwa [hs] at h
    · have := hf hmt
      linarith [epsilon_pos]
  · intro h _
    rcases snap_cases (f c) with ⟨h1, h2, hs⟩ | ⟨-, hs⟩
    · rw [hs]
      linarith [(hsmall h1 h2).1]
    · rwa [hs]

/-- The readings a restart gives where nothing leaks at once. -/
theorem Restarted.within (h : Restarted reset b rate c b') (hq : b.remaining = .fin q)
    (hrate : ∀ s, rate ≠ zero s) :
    (∀ x, t ≤ x → Near (b'.balance rate x) (b.balance rate x)) ↔
      Within epsilon t
        (level b.burst (max b.updatedAt c)
          (if reset then (b.burst : ℚ) else snap (level b.burst b.updatedAt q (slope rate) c))
          (slope rate))
        (level b.burst b.updatedAt q (slope rate)) := by
  -- what the read stored, as a rational
  have hq' : b'.remaining = .fin
      (if reset then (b.burst : ℚ) else snap (level b.burst b.updatedAt q (slope rate) c)) := by
    rw [h.remaining]
    cases reset
    · rw [if_neg (by decide), if_neg (by decide), balance_line hq hrate, snapToZero_fin]
    · rw [if_pos rfl, if_pos rfl, ofInt_eq, snapToZero_fin, snap_int]
  refine forall_congr' (fun x => imp_congr_right (fun _ => ?_))
  rw [balance_line hq hrate, balance_line hq' hrate, near_fin, h.burst, h.updatedAt]

/-- A rising line: the reading at the read's time must not exceed the one at the clock. -/
theorem Restarted.rising (h : Restarted reset b rate c b') (hq : b.remaining = .fin q)
    (hrate : ∀ s, rate ≠ zero s) (hk : 0 ≤ slope rate) (hdebt : q < 0 → c = t) :
    (∀ x, t ≤ x → Near (b'.balance rate x) (b.balance rate x)) ↔
      (if reset then .ofInt b.burst else b.balance rate c) ≤
        b.balance rate t + .fin epsilon := by
  rw [h.within hq hrate, balance_line hq hrate t]
  cases reset
  · rw [if_neg (by decide), if_neg (by decide), balance_line hq hrate, fin_add_fin, fin_le_fin]
    have hmono : Monotone (level b.burst b.updatedAt q (slope rate)) :=
      fun x y hxy => level_mono _ _ _ hk hxy
    have hlow : ∀ x, min (b.burst : ℚ) q ≤ level b.burst b.updatedAt q (slope rate) x := by
      intro x
      refine min_le_min le_rfl ?_
      have := line_mono (u := b.updatedAt) (q := q) hk (min_le_right b.updatedAt x)
      rwa [line_of_le (min_le_left _ _)] at this
    -- the code stores the snapped balance, and the condition is about the balance itself
    rw [← snap_le_reading_iff hmono level_max (level_le _ _ _ _) hlow hdebt]
    refine restart_rising hk (le_max_left _ _) (snap_le_int (level_le _ _ _ _ _)) ?_
    rw [level_max]
    exact (abs_snap_sub_lt _).le
  · rw [if_pos rfl, if_pos rfl, ofInt_eq, fin_add_fin, fin_le_fin]
    exact refill_rising hk

/-- A falling line: without a reset the burst must not have cut anything off at `c`, nor may the
    clock read more than was stored; with one, the line must have been at the burst. -/
theorem Restarted.falling (h : Restarted reset b rate c b') (hq : b.remaining = .fin q)
    (hrate : ∀ s, rate ≠ zero s) (hk : slope rate < 0) :
    (∀ x, t ≤ x → Near (b'.balance rate x) (b.balance rate x)) ↔
      if reset then Near (.ofInt b.burst) (b.leaked rate c)
      else b.leaked rate c ≤ .ofInt b.burst + .fin epsilon ∧
        b.balance rate t ≤ snapToZero (b.balance rate c) + .fin epsilon := by
  have hε := epsilon_pos
  rw [h.within hq hrate, leaked_line hq hrate, balance_line hq hrate, balance_line hq hrate]
  cases reset
  · rw [if_neg (by decide), if_neg (by decide), snapToZero_fin, ofInt_eq, fin_add_fin,
      fin_add_fin, fin_le_fin, fin_le_fin,
      restart_falling hk (le_max_left _ _) (snap_le_int (level_le _ _ _ _ _)), line_max]
    -- being near the line is being below the burst: the rest is the snap, which is near
    refine and_congr_left (fun _ => ?_)
    set y := line b.updatedAt q (slope rate) c with hy
    have hlevel : level b.burst b.updatedAt q (slope rate) c = min (b.burst : ℚ) y := rfl
    rw [hlevel]
    constructor
    · intro hv
      have := neg_le_of_abs_le hv
      have := snap_le_int (min_le_left (b.burst : ℚ) y)
      linarith
    · intro hle
      rcases le_total y b.burst with hyb | hby
      · rw [min_eq_right hyb]
        exact (abs_snap_sub_lt y).le
      · rw [min_eq_left hby, snap_int, abs_le]
        exact ⟨by linarith, by linarith⟩
  · rw [if_pos rfl, if_pos rfl, ofInt_eq, near_fin,
      restart_falling hk (le_max_left _ _) le_rfl, line_max]
    refine and_iff_left ?_
    linarith [level_le b.burst b.updatedAt q (slope rate) t]

/-! ### The two rates of zero

They have no line: one millisecond after the item's time the balance is full, or minus infinity. -/

/-- Once any time has passed, the balance is the burst, or gone. -/
theorem balance_zero (hq : b.remaining = .fin q) (s : Bool) {x : ℤ} (hx : b.updatedAt < x) :
    b.balance (zero s) x = if s then .inf true else .fin b.burst := by
  rw [LeakyBucketItem.balance, leaked_zero hq s hx, ofInt_eq]
  cases s
  · exact min_fin_posInf _
  · exact min_fin_negInf _

/-- What readers see of a bucket that fills at once. -/
def fillsAtOnce (b : LeakyBucketItem) (q : ℚ) (x : ℤ) : ℚ :=
  if x ≤ b.updatedAt then min b.burst q else b.burst

/-- Readings of a rational balance at the rate `0`. -/
theorem balance_fillsAtOnce (hq : b.remaining = .fin q) (x : ℤ) :
    b.balance (zero false) x = .fin (fillsAtOnce b q x) := by
  unfold fillsAtOnce
  split
  · rename_i hx
    exact balance_of_le hq hx
  · rename_i hx
    rw [balance_zero hq false (not_le.mp hx)]
    rfl

/-- They rise. -/
theorem fillsAtOnce_mono : Monotone (fillsAtOnce b q) := by
  intro x y hxy
  unfold fillsAtOnce
  split
  · split
    · exact le_rfl
    · exact min_le_left _ _
  · rename_i hx
    rw [if_neg (by omega)]

/-- And lie between the stored balance and the burst. -/
theorem fillsAtOnce_bounds (x : ℤ) :
    min (b.burst : ℚ) q ≤ fillsAtOnce b q x ∧ fillsAtOnce b q x ≤ b.burst := by
  unfold fillsAtOnce
  split
  · exact ⟨le_rfl, min_le_left _ _⟩
  · exact ⟨min_le_left _ _, le_rfl⟩

/-- At the rate `0` the condition is that of a rising line. -/
theorem Restarted.atOnce (h : Restarted reset b (zero false) c b') (hq : b.remaining = .fin q)
    (hdebt : q < 0 → c = t) :
    (∀ x, t ≤ x → Near (b'.balance (zero false) x) (b.balance (zero false) x)) ↔
      (if reset then .ofInt b.burst else b.balance (zero false) c) ≤
        b.balance (zero false) t + .fin epsilon := by
  have hε := epsilon_pos
  rw [balance_fillsAtOnce hq t]
  cases reset
  · -- without a reset the read stores what it saw
    have hq' : b'.remaining = .fin (snap (fillsAtOnce b q c)) := by
      rw [h.remaining, if_neg (by decide), balance_fillsAtOnce hq, snapToZero_fin]
    have hm : fillsAtOnce b q (max b.updatedAt c) = fillsAtOnce b q c := by
      simp [fillsAtOnce]
    have hv : snap (fillsAtOnce b q c) ≤ b.burst := snap_le_int (fillsAtOnce_bounds c).2
    have hclose := (abs_snap_sub_lt (fillsAtOnce b q c)).le
    rw [if_neg (by decide), balance_fillsAtOnce hq c, fin_add_fin, fin_le_fin,
      ← snap_le_reading_iff fillsAtOnce_mono hm (fun x => (fillsAtOnce_bounds x).2)
        (fun x => (fillsAtOnce_bounds x).1) hdebt]
    have hearly : ∀ x, x ≤ max b.updatedAt c →
        fillsAtOnce b' (snap (fillsAtOnce b q c)) x = snap (fillsAtOnce b q c) := by
      intro x hx
      rw [fillsAtOnce, h.updatedAt, if_pos hx, h.burst, min_eq_right hv]
    refine Iff.trans (forall_congr' (fun x => imp_congr_right (fun _ => ?_)))
      (within_rising (g := fillsAtOnce b' (snap (fillsAtOnce b q c))) fillsAtOnce_mono
        (fun x hmx => ?_) (fun x hxm => hearly x hxm.le) (by rwa [hm]))
    · rw [balance_fillsAtOnce hq, balance_fillsAtOnce hq', near_fin]
    · rcases eq_or_lt_of_le hmx with rfl | hlt
      · rwa [hearly _ le_rfl, hm]
      · -- both are full by now
        have hu := lt_of_le_of_lt (le_max_left b.updatedAt c) hlt
        rw [fillsAtOnce, h.updatedAt, if_neg (not_le.mpr hlt), fillsAtOnce,
          if_neg (not_le.mpr hu), h.burst, sub_self, abs_zero]
        exact hε.le
  · -- with one it stores the burst
    have hq' : b'.remaining = .fin b.burst := by
      rw [h.remaining, if_pos rfl, ofInt_eq, snapToZero_fin, snap_int]
    rw [if_pos rfl, ofInt_eq, fin_add_fin, fin_le_fin]
    refine Iff.trans (forall_congr' (fun x => imp_congr_right (fun _ => ?_)))
      (within_full fillsAtOnce_mono (fun x => (fillsAtOnce_bounds x).2))
    rw [balance_fillsAtOnce hq, balance_fillsAtOnce hq', near_fin]
    simp [fillsAtOnce, h.burst]

/-- No number of tokens is near to none at all. -/
theorem not_near_negInf (x : ℚ) : ¬ Near (.fin x) (.inf true) ∧ ¬ Near (.inf true) (.fin x) :=
  ⟨fun h => absurd h.1 Bool.false_ne_true, fun h => absurd h.2 Bool.false_ne_true⟩

/-- A balance that is gone stays gone. -/
theorem balance_negInf (hrem : b.remaining = .inf true) (x : ℤ) :
    b.balance .negZero x = .inf true := by
  have hleak : b.leaked .negZero x = .inf true := by
    rw [LeakyBucketItem.leaked, hrem]
    rcases le_or_gt x b.updatedAt with hx | hx
    · rw [creditedLeak, if_pos hx]
      rfl
    · have hpos : (0 : ℚ) < ((x - b.updatedAt : ℤ) : ℚ) := by
        have : 0 < x - b.updatedAt := by omega
        exact_mod_cast this
      have hdiv : ExactFloat.fin ((x - b.updatedAt : ℤ) : ℚ) / .negZero = .inf true :=
        fin_div_zero hpos true
      rw [creditedLeak_eq hx hdiv]
      rfl
  rw [LeakyBucketItem.balance, hleak, ofInt_eq, min_fin_negInf]

/-- At the rate `-0` a balance is gone as soon as time has passed: the read must not make it go
    earlier, or last longer. -/
theorem Restarted.gone (h : Restarted reset b .negZero c b') (hq : b.remaining = .fin q) :
    (∀ x, t ≤ x → Near (b'.balance .negZero x) (b.balance .negZero x)) ↔
      if reset then
        if b.updatedAt < c then c < t
        else t ≤ b.updatedAt → .ofInt b.burst ≤ b.remaining + .fin epsilon
      else b.updatedAt < c → b.updatedAt < t := by
  have hε := epsilon_pos
  have hgone : ∀ x, b.updatedAt < x → b.balance .negZero x = .inf true := fun x hx =>
    balance_zero hq true hx
  cases reset
  · rw [if_neg (by decide)]
    have hrem := h.remaining
    rw [if_neg (by decide)] at hrem
    rcases lt_or_ge b.updatedAt c with hc | hc
    · -- the read itself finds the balance gone
      rw [hgone c hc] at hrem
      have hafter : ∀ x, b'.balance .negZero x = .inf true := balance_negInf hrem
      constructor
      · intro hnear _
        by_contra ht
        have := hnear t le_rfl
        rw [hafter, balance_of_le hq (not_lt.mp ht)] at this
        exact (not_near_negInf _).2 this
      · intro ht x htx
        rw [hafter, hgone x (by have := ht hc; omega)]
        exact near_negInf
    · rw [balance_of_le hq hc, snapToZero_fin] at hrem
      refine iff_of_true (fun x htx => ?_) (fun hlt => absurd hlt (not_lt.mpr hc))
      have hu : b'.updatedAt = b.updatedAt := by rw [h.updatedAt, max_eq_left hc]
      rcases le_or_gt x b.updatedAt with hx | hx
      · rw [balance_of_le hrem (by rw [hu]; exact hx), balance_of_le hq hx, near_fin, h.burst,
          min_eq_right (snap_le_int (min_le_left _ _))]
        exact (abs_snap_sub_lt _).le
      · rw [hgone x hx, show b'.balance .negZero x = .inf true from
          balance_zero hrem true (by rw [hu]; exact hx)]
        exact near_negInf
  · rw [if_pos rfl]
    have hrem : b'.remaining = .fin b.burst := by
      rw [h.remaining, if_pos rfl, ofInt_eq, snapToZero_fin, snap_int]
    have hfull : ∀ x, x ≤ max b.updatedAt c → b'.balance .negZero x = .fin b.burst := by
      intro x hx
      rw [balance_of_le hrem (by rw [h.updatedAt]; exact hx), h.burst, min_self]
    have hafter : ∀ x, max b.updatedAt c < x → b'.balance .negZero x = .inf true := by
      intro x hx
      exact balance_zero hrem true (by rw [h.updatedAt]; exact hx)
    split
    · -- the refill is seen until `c`, where it should have been gone
      rename_i hc
      rw [max_eq_right hc.le] at hfull hafter
      constructor
      · intro hnear
        by_contra ht
        have := hnear c (not_lt.mp ht)
        rw [hfull c le_rfl, hgone c hc] at this
        exact (not_near_negInf _).1 this
      · intro ht x htx
        rw [hafter x (by omega), hgone x (by omega)]
        exact near_negInf
    · rename_i hc
      rw [max_eq_left (not_lt.mp hc)] at hfull hafter
      constructor
      · intro hnear ht
        have := (hnear t le_rfl).1
        rw [hfull t ht, balance_of_le hq ht, fin_add_fin, fin_le_fin] at this
        rw [hq, ofInt_eq, fin_add_fin, fin_le_fin]
        linarith [min_le_right (b.burst : ℚ) q]
      · intro ht x htx
        rcases le_or_gt x b.updatedAt with hx | hx
        · have hlow := ht (htx.trans hx)
          rw [hq, ofInt_eq, fin_add_fin, fin_le_fin] at hlow
          rw [hfull x hx, balance_of_le hq hx, near_fin, abs_of_nonneg
            (by linarith [min_le_left (b.burst : ℚ) q])]
          have : (b.burst : ℚ) - epsilon ≤ min (b.burst : ℚ) q :=
            le_min (by linarith) (by linarith)
          linarith
        · rw [hafter x hx, hgone x hx]
          exact near_negInf

/-- **The whole condition.** -/
theorem Restarted.harmless_iff (h : Restarted reset b rate c b') (hq : b.remaining = .fin q)
    (hdebt : q < 0 → c = t) :
    (∀ x, t ≤ x → Near (b'.balance rate x) (b.balance rate x)) ↔ Harmless reset b rate c t := by
  unfold Harmless
  -- the four kinds of lines, in the order in which `Harmless` asks for them
  by_cases hneg : rate = .negZero
  · rw [if_pos hneg]
    subst hneg
    exact h.gone hq
  rw [if_neg hneg]
  by_cases hzero : rate = zero false
  · subst hzero
    rw [if_neg (by simp [slope, zero])]
    exact h.atOnce hq hdebt
  have hrate : ∀ s, rate ≠ zero s := by
    intro s
    cases s
    · exact hzero
    · exact hneg
  split
  · rename_i hk
    exact h.falling hq hrate hk
  · rename_i hk
    exact h.rising hq hrate (not_lt.mp hk) hdebt

end Restart

/-! ## The read

`broadcastStatus` is the request on the owner's own worker, with the hits cleared, and made as by a
peer that is not the owner. -/

/-- The queued request is of the bucket's algorithm, and asks for the terms the bucket has. -/
inductive Matches (r : RateLimitReq) : Bucket → Prop
  | token (t : TokenBucketItem) (halg : r.algorithm = .tokenBucket) (hlimit : t.limit = r.limit)
      (hduration : t.duration = r.duration) : Matches r (.token t)
  | leaky (b : LeakyBucketItem) (q : ℚ) (halg : r.algorithm = .leakyBucket)
      (hterms : SameTerms r b) (hq : b.remaining = .fin q) : Matches r (.leaky b)

/-- The rate a request at `now` credits a bucket's leak at. -/
def creditRate (host : Host) (now : ℤ) (r : RateLimitReq) (b : LeakyBucketItem) : ExactFloat :=
  match leakyTerms host now r b with
  | .ok tm => tm.creditRate
  | .error _ => rateOf b.limit b.duration

/-- The time a request that does not wait is credited at: a key in debt goes by the owner's
    clock. -/
def creditTime (now : ℤ) (r : RateLimitReq) (b : LeakyBucketItem) : ℤ :=
  if b.remaining < 0 then epochMillis now else r.createdAt

/-- **The same bucket**, to anybody who looks at `t` milliseconds or later; a leaky balance is
    credited at `rate`. -/
inductive SameBucket (rate : LeakyBucketItem → ExactFloat) (t : ℤ) (before after : CacheItem) : Prop
  | token (x y : TokenBucketItem) (hbefore : before.value = some (.token x))
      (hafter : after.value = some (.token y)) (remaining : y.remaining = x.remaining)
      (limit : y.limit = x.limit) (duration : y.duration = x.duration)
      (createdAt : y.createdAt = x.createdAt) (expireAt : after.expireAt = before.expireAt)
  | leaky (x y : LeakyBucketItem) (hbefore : before.value = some (.leaky x))
      (hafter : after.value = some (.leaky y)) (limit : y.limit = x.limit)
      (burst : y.burst = x.burst) (duration : y.duration = x.duration)
      (expireAt : after.expireAt = before.expireAt)
      (balance : ∀ t', t ≤ t' → Near (y.balance (rate x) t') (x.balance (rate x) t'))

/-- When the read of `update` at `now` leaves a bucket the same. -/
def ReadOnly (host : Host) (now : ℤ) (update : RateLimitReq) : Bucket → Prop
  | .token _ => hasBehavior update.behavior .resetRemaining = false
  | .leaky b => Harmless (hasBehavior update.behavior .resetRemaining) b
      (creditRate host now update b) (creditTime now update b) (epochMillis now)

section Read
variable {conf : Config} {host : Host} {now : ℤ} {s : Shard} {update : RateLimitReq}
  {item : CacheItem}

/-- The read of a token bucket. -/
theorem broadcastStatus_token (halg : update.algorithm = .tokenBucket) :
    (broadcastStatus conf host now s update).2 =
      (tokenBucket host.location now s { update with hits := 0 } { isOwner := false }).2 := by
  simp only [broadcastStatus, handleGetRateLimit, halg]
  split <;> rename_i h <;> exact (Prod.mk.inj h).2.symm

/-- The read of a leaky bucket. -/
theorem broadcastStatus_leaky (halg : update.algorithm = .leakyBucket) :
    (broadcastStatus conf host now s update).2 =
      (leakyBucket host now s { update with hits := 0 }
        { isOwner := false, waitCeiling := conf.scheduleMaxWait }).2 := by
  simp only [broadcastStatus, handleGetRateLimit, halg]
  split <;> rename_i h <;> exact (Prod.mk.inj h).2.symm

/-- A reset removes a token bucket, whatever is asked of it. -/
theorem tokenBucket_reset (loc : Calendar.Location) {r : RateLimitReq} {v : Bucket}
    (reqState : RateLimitReqState) (hfind : s.find (epochMillis now) r = some (item, v))
    (hreset : hasBehavior r.behavior .resetRemaining = true) :
    (tokenBucket loc now s r reqState).2.cache.peek r.hashKey = none := by
  simp only [tokenBucket, hfind, hreset, if_true]
  exact Cache.peek_remove _ _

/-- **Reading a token bucket** changes at most its status, unless it is a reset. -/
theorem read_token {t : TokenBucketItem} (hfind : s.find (epochMillis now) update =
      some (item, .token t)) (halg : update.algorithm = .tokenBucket)
    (hlimit : t.limit = update.limit) (hduration : t.duration = update.duration)
    (rate : LeakyBucketItem → ExactFloat) :
    (∃ after, (broadcastStatus conf host now s update).2.cache.peek update.hashKey = some after ∧
        SameBucket rate (epochMillis now) item after) ↔
      hasBehavior update.behavior .resetRemaining = false := by
  have hquery : s.find (epochMillis now) { update with hits := 0 } = some (item, .token t) := hfind
  have hvalue := (Shard.find_key hfind).2.1
  rw [broadcastStatus_token halg]
  constructor
  · rintro ⟨after, hpeek, -⟩
    by_contra hreset
    have hnone := tokenBucket_reset host.location { isOwner := false } hquery
      (by simpa using hreset)
    exact absurd (hnone.symm.trans hpeek) (by simp)
  · intro hreset
    obtain ⟨-, hpeek⟩ := tokenBucket_found host.location { isOwner := false } hquery hreset
    rw [tokenBucketItem_same _ _ (r := { update with hits := 0 }) hlimit hduration] at hpeek
    refine ⟨_, hpeek, .token t _ hvalue rfl ?_ (takeHits_limit _ _ _) (takeHits_duration _ _ _) ?_
      rfl⟩
    · simp only [takeHits, if_true]
      split <;> rfl
    · simp only [takeHits, if_true]
      split <;> rfl

/-- What the read stores of a leaky bucket whose terms it does not change. -/
theorem read_restarted {b : LeakyBucketItem} {q : ℚ} {tm : LeakyTerms} {r : RateLimitReq}
    (hterms : SameTerms r b) (hq : b.remaining = .fin q) (hwait : ¬ 0 < r.maxWait)
    (htm : leakyTerms host now r b = .ok tm) :
    Restarted (hasBehavior r.behavior .resetRemaining) b (creditRate host now r b)
      (creditTime now r b) (credited r tm b) := by
  have hrate : creditRate host now r b = tm.creditRate := by
    rw [creditRate, htm]
  have htime : tm.createdAt = creditTime now r b := by
    rw [(leakyTerms_ok htm).2.1, creditTime]
    simp only [hwait, false_or]
  refine ⟨(hterms.kept htm).1, ?_, ?_⟩
  · rw [credited_updatedAt, htime]
  · rw [hterms.credited htm hq, hrate, htime]

/-- **Reading a leaky bucket** restarts it. -/
theorem read_leaky {b : LeakyBucketItem} {q : ℚ} (hfind : s.find (epochMillis now) update =
      some (item, .leaky b)) (hqueued : QueuedUpdate conf host update)
    (halg : update.algorithm = .leakyBucket) (hterms : SameTerms update b)
    (hq : b.remaining = .fin q) :
    (∃ after, (broadcastStatus conf host now s update).2.cache.peek update.hashKey = some after ∧
        SameBucket (creditRate host now update) (epochMillis now) item after) ↔
      Harmless (hasBehavior update.behavior .resetRemaining) b (creditRate host now update b)
        (creditTime now update b) (epochMillis now) := by
  obtain ⟨hwait, hburst, hvalid⟩ := hqueued.leaky halg
  obtain ⟨terms, hrequest⟩ := hvalid now
  set r : RateLimitReq := { update with hits := 0 } with hr
  have hquery : s.find (epochMillis now) r = some (item, .leaky b) := hfind
  -- the request went through `leakyBucket` before, so its burst is set
  have hrburst : r.withBurst = r := by
    rw [RateLimitReq.withBurst] at hburst ⊢
    split at hburst
    · rename_i h0
      rw [if_pos h0, hr, ← (RateLimitReq.mk.inj hburst).2.2.2.2.2.2.2.1]
    · rename_i h0
      rw [if_neg h0]
  obtain ⟨tm, htm⟩ : ∃ tm, leakyTerms host now r b = .ok tm := by
    have : requestTerms host now r = .ok terms := hrequest
    simp only [leakyTerms, this]
    exact ⟨_, rfl⟩
  have hterms' : SameTerms r b := ⟨hterms.limit, hterms.duration, hterms.burst⟩
  have hread : Restarted (hasBehavior update.behavior .resetRemaining) b
      (creditRate host now update b) (creditTime now update b) (credited r tm b) :=
    read_restarted (r := r) hterms' hq hwait htm
  have hdebt : q < 0 → creditTime now update b = epochMillis now := by
    intro hneg
    rw [creditTime, hq, if_pos (fin_lt_zero.mpr hneg)]
  have hvalue := (Shard.find_key hfind).2.1
  obtain ⟨hkburst, hklimit, hkduration⟩ := hterms'.kept htm
  obtain ⟨-, hpeek⟩ := leakyBucket_of_item hquery (by
    rw [hrburst]
    exact hterms'.query htm rfl { isOwner := false, waitCeiling := conf.scheduleMaxWait } _)
  rw [broadcastStatus_leaky halg, ← hread.harmless_iff hq hdebt]
  constructor
  · rintro ⟨after, hafter, hsame⟩
    obtain rfl := Option.some.inj (hpeek.symm.trans hafter)
    rcases hsame with ⟨x, y, hx, -⟩ | ⟨x, y, hx, hy, -, -, -, -, hbalance⟩
    · rw [hvalue] at hx
      cases hx
    · obtain rfl := Bucket.leaky.inj (Option.some.inj (hvalue.symm.trans hx))
      obtain rfl := Bucket.leaky.inj (Option.some.inj hy)
      exact hbalance
  · intro hbalance
    exact ⟨_, hpeek, .leaky b _ hvalue rfl hklimit hkburst hkduration rfl hbalance⟩

end Read

/-- **When broadcasting is read-only for the owner.**  On a bucket whose terms the queued request
    shares, the status read at `now` leaves the same bucket exactly when `ReadOnly` holds. -/
theorem broadcast_readOnly_iff {conf : Config} {host : Host} {now : ℤ} {s : Shard}
    {update : RateLimitReq} {item : CacheItem} {v : Bucket}
    (hfind : s.find (epochMillis now) update = some (item, v))
    (hqueued : QueuedUpdate conf host update) (hmatch : Matches update v) :
    (∃ after, (broadcastStatus conf host now s update).2.cache.peek update.hashKey = some after ∧
        SameBucket (creditRate host now update) (epochMillis now) item after) ↔
      ReadOnly host now update v := by
  cases hmatch with
  | token t halg hlimit hduration => exact read_token hfind halg hlimit hduration _
  | leaky b q halg hterms hq => exact read_leaky hfind hqueued halg hterms hq

/-! ## One token a second

Two runs of the code: an ordinary hit, and one that resets. -/

/-- One hit on a bucket of ten tokens, one a second, made one second after the epoch. -/
def globalHit (behavior : Behavior) : RateLimitReq :=
  { RateLimitReq.sample 1 10 10000 10 1000 0 with behavior := .global ||| behavior }

/-- What a hit leaves of ten tokens. -/
def nineLeft : LeakyBucketItem :=
  { limit := 10, duration := 10000, remaining := .fin 9, updatedAt := 1000, burst := 10 }

/-- The item the hit leaves behind on a key without one. -/
def hitItem : CacheItem :=
  { algorithm := .leakyBucket, key := "requests_account:1", expireAt := 11000
    value := some (.leaky nineLeft) }

/-- The bucket has the terms of the request, whatever other flags that has. -/
theorem globalHit_matches (behavior : Behavior) :
    Matches (globalHit behavior) (.leaky nineLeft) :=
  .leaky _ 9 rfl ⟨rfl, rfl, rfl⟩ rfl

/-- Half a second after an ordinary hit the read goes unnoticed. -/
theorem broadcast_readOnly_ordinaryHit :
    ∃ after, (broadcastStatus ⟨300000000000⟩ .amd64 1500000000 (.ofItems [hitItem])
        (globalHit 0)).2.cache.peek "requests_account:1" = some after ∧
      SameBucket (creditRate .amd64 1500000000 (globalHit 0)) 1500 hitItem after :=
  (broadcast_readOnly_iff (by decide +kernel)
    ⟨1000000000, .ofItems [], globalHit 0, { isOwner := true }, by decide +kernel⟩
    (globalHit_matches 0)).mpr (by unfold ReadOnly Harmless; decide +kernel)

/-- **A hit that resets is given back.**  The request left nine of ten tokens; the read that
    broadcasts this fills the bucket up. -/
theorem broadcast_returns_hit :
    QueuedUpdate ⟨300000000000⟩ .amd64 (globalHit .resetRemaining) ∧
    (getLocalRateLimit ⟨300000000000⟩ .amd64 1000000000 (.ofItems [])
      (globalHit .resetRemaining) { isOwner := true }).shard.cache.items = [hitItem] ∧
    (Shard.ofItems [hitItem]).find 1000 (globalHit .resetRemaining) =
      some (hitItem, .leaky nineLeft) ∧
    Matches (globalHit .resetRemaining) (.leaky nineLeft) ∧
    ((broadcastStatus ⟨300000000000⟩ .amd64 1000000000 (.ofItems [hitItem])
        (globalHit .resetRemaining)).2.cache.peek "requests_account:1").map CacheItem.value =
      some (some (.leaky { nineLeft with remaining := .fin 10 })) ∧
    ¬ ∃ after, (broadcastStatus ⟨300000000000⟩ .amd64 1000000000 (.ofItems [hitItem])
        (globalHit .resetRemaining)).2.cache.peek "requests_account:1" = some after ∧
      SameBucket (creditRate .amd64 1000000000 (globalHit .resetRemaining)) 1000 hitItem after := by
  have hqueued : QueuedUpdate ⟨300000000000⟩ .amd64 (globalHit .resetRemaining) :=
    ⟨1000000000, .ofItems [], globalHit .resetRemaining, { isOwner := true }, by decide +kernel⟩
  have hfind : (Shard.ofItems [hitItem]).find (epochMillis 1000000000)
      (globalHit .resetRemaining) = some (hitItem, .leaky nineLeft) := by decide +kernel
  refine ⟨hqueued, by decide +kernel, hfind, globalHit_matches _, by decide +kernel, ?_⟩
  intro h
  have hread := (read_leaky hfind hqueued rfl ⟨rfl, rfl, rfl⟩ rfl).mp h
  unfold Harmless at hread
  revert hread
  decide +kernel

end Gubernator
