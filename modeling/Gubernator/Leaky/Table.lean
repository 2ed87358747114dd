/-
  THE ANSWERS of a leaky bucket.

  A client acts on `status` and `retry_after` alone: it goes on unless the status says that it must
  not, and waits as long as it is told.  So every branch of the three functions that answer — the
  new bucket, the found bucket, `scheduleHits` — has to keep to one table, whatever the config.

  The one number that is not bounded where it is computed is the `remaining` of a plain request
  that is let in; it is not negative because the balance covers the hits up to the float error
  that `wholeTokens` adds back.

  The proof makes one lemma for each kind of answer (let in, refused, never fits, waits), so that a
  branch of the code only has to say which kind its answer is of.
-/
import Gubernator.Leaky.Call

namespace Gubernator

open ExactFloat

/-! ## The table

The entries for a request with `max_wait` exclude each other: a wait is told exactly to the
scheduled and the refused, and its length tells which of the two. -/

/-- **What an answer may say** to a request, with a ceiling on scheduled waits. -/
structure ResponseTable (r : RateLimitReq) (ceiling : ℤ) (resp : RateLimitResp) : Prop where
  /-- without `max_wait`: let in or refused, and nothing to wait for -/
  plain : r.maxWait = 0 →
    (resp.status = .underLimit ∨ resp.status = .overLimit) ∧ resp.retryAfter = 0
  /-- with `max_wait`: a wait exactly for the scheduled and the refused -/
  waits : 0 < r.maxWait →
    (1 ≤ resp.retryAfter ↔ resp.status = .scheduled ∨ resp.status = .overLimit)
  others : 0 < r.maxWait → ¬ (resp.status = .scheduled ∨ resp.status = .overLimit) →
    resp.retryAfter = 0
  /-- the scheduled fit in, the refused do not -/
  scheduled : 0 < r.maxWait → resp.status = .scheduled → resp.retryAfter ≤ min r.maxWait ceiling
  refused : 0 < r.maxWait → resp.status = .overLimit → min r.maxWait ceiling < resp.retryAfter
  query : r.hits = 0 → resp.status = .underLimit ∧ resp.retryAfter = 0
  remaining : 0 ≤ resp.remaining

/-- An answer that lets the request in now. -/
theorem table_underLimit {r : RateLimitReq} {ceiling : ℤ} {resp : RateLimitResp}
    (hstatus : resp.status = .underLimit) (hretry : resp.retryAfter = 0)
    (hremaining : 0 ≤ resp.remaining) : ResponseTable r ceiling resp where
  plain _ := ⟨.inl hstatus, hretry⟩
  waits _ := by simp [hstatus, hretry]
  others _ _ := hretry
  scheduled _ h := by simp [hstatus] at h
  refused _ h := by simp [hstatus] at h
  query _ := ⟨hstatus, hretry⟩
  remaining := hremaining

/-- A refusal of a plain request. -/
theorem table_overLimit {r : RateLimitReq} {ceiling : ℤ} {resp : RateLimitResp}
    (hwait : ¬ 0 < r.maxWait) (hhits : r.hits ≠ 0) (hstatus : resp.status = .overLimit)
    (hretry : resp.retryAfter = 0) (hremaining : 0 ≤ resp.remaining) :
    ResponseTable r ceiling resp where
  plain _ := ⟨.inr hstatus, hretry⟩
  waits h := absurd h hwait
  others h := absurd h hwait
  scheduled h := absurd h hwait
  refused h := absurd h hwait
  query h := absurd h hhits
  remaining := hremaining

/-- A request that no wait helps. -/
theorem table_neverFits {r : RateLimitReq} {ceiling : ℤ} {resp : RateLimitResp}
    (hwait : 0 < r.maxWait) (hhits : r.hits ≠ 0) (hstatus : resp.status = .neverFits)
    (hretry : resp.retryAfter = 0) (hremaining : 0 ≤ resp.remaining) :
    ResponseTable r ceiling resp where
  plain h := absurd hwait (by omega)
  waits _ := by simp [hstatus, hretry]
  others _ _ := hretry
  scheduled _ h := by simp [hstatus] at h
  refused _ h := by simp [hstatus] at h
  query h := absurd h hhits
  remaining := hremaining

/-- A request that is scheduled, or refused because the wait is too long. -/
theorem table_waits {r : RateLimitReq} {ceiling : ℤ} {resp : RateLimitResp}
    (hwait : 0 < r.maxWait) (hhits : r.hits ≠ 0) (hone : 1 ≤ resp.retryAfter)
    (hstatus : resp.status = .scheduled ∧ resp.retryAfter ≤ min r.maxWait ceiling ∨
      resp.status = .overLimit ∧ min r.maxWait ceiling < resp.retryAfter)
    (hremaining : 0 ≤ resp.remaining) : ResponseTable r ceiling resp where
  plain h := absurd hwait (by omega)
  waits _ := ⟨fun _ => hstatus.imp And.left And.left, fun _ => hone⟩
  others _ h := absurd (hstatus.imp And.left And.left) h
  scheduled _ h := by
    rcases hstatus with ⟨-, hle⟩ | ⟨hover, -⟩
    · exact hle
    · simp [hover] at h
  refused _ h := by
    rcases hstatus with ⟨hsched, -⟩ | ⟨-, hlt⟩
    · simp [hsched] at h
    · exact hlt
  query h := absurd h hhits
  remaining := hremaining

/-! ## What is left of a balance

The `remaining` of an answer is a floor of the balance, with `1e-9` added back; it is not negative
if the balance is at least `-1e-9`. -/

/-- Down to `-1e-9` a balance counts as no debt. -/
theorem wholeTokens_nonneg (host : Host) {z : ℚ} (hz : -epsilon ≤ z) :
    0 ≤ wholeTokens host (.fin z) := by
  rw [wholeTokens_of_nonneg host hz]
  exact Int.floor_nonneg.mpr (by linarith)

/-- The snap does not make a balance smaller than `-1e-9`. -/
theorem neg_epsilon_le_snap {z : ℚ} (hz : -epsilon ≤ z) : -epsilon ≤ snap z := by
  have := epsilon_pos
  rcases snap_cases z with ⟨-, -, h⟩ | ⟨-, h⟩ <;> rw [h] <;> linarith

/-- The leak and the rescaling leave a rational balance rational, or make it infinite. -/
theorem rescaled_cases {host : Host} {now : ℤ} {r : RateLimitReq} {b : LeakyBucketItem}
    {tm : LeakyTerms} (htm : leakyTerms host now r b = .ok tm) {q : ℚ}
    (hq : b.remaining = .fin q) :
    (∃ y, (rescaleDebt tm (creditLeak tm b)).remaining = .fin y) ∨
      ∃ s, (rescaleDebt tm (creditLeak tm b)).remaining = .inf s := by
  have hleak : (∃ x, (creditLeak tm b).remaining = .fin x) ∨
      ∃ s, (creditLeak tm b).remaining = .inf s := by
    unfold creditLeak
    split
    · dsimp only
      rw [hq]
      rcases leaked_cases q b tm.createdAt tm.creditRate with h | ⟨s, h, -⟩
      · exact .inl h
      · exact .inr ⟨s, h⟩
    · exact .inl ⟨q, hq⟩
  unfold rescaleDebt
  split
  swap
  · exact hleak
  -- a debt is rescaled by the ratio of two positive rates
  rename_i hresc
  obtain ⟨p, hp, hratio⟩ := rescale_ratio htm hresc.1
  dsimp only
  rw [hratio]
  rcases hleak with ⟨x, hx⟩ | ⟨s, hs⟩
  · exact .inl ⟨x * p, by rw [hx, fin_mul_fin hp]⟩
  · exact .inr ⟨s, by rw [hs, inf_mul_fin hp]⟩

/-- **The balance a request is charged on** is a rational, or has leaked away without a bound. -/
theorem credited_cases {host : Host} {now : ℤ} {r : RateLimitReq} {b : LeakyBucketItem}
    {tm : LeakyTerms} (htm : leakyTerms host now r b = .ok tm) {q : ℚ}
    (hq : b.remaining = .fin q) :
    (∃ y, (credited r tm b).remaining = .fin y) ∨ (credited r tm b).remaining = .inf true := by
  rw [credited_remaining r tm b (leakyTerms_ok htm).2.2.2.2.2.2.2.1, ofInt_eq]
  have hrefilled : (∃ z, (refill r tm (shiftBurst tm (rescaleDebt tm
      (creditLeak tm b)))).remaining = .fin z) ∨
      ∃ s, (refill r tm (shiftBurst tm (rescaleDebt tm (creditLeak tm b)))).remaining = .inf s := by
    rcases rescaled_cases htm hq with ⟨y, hy⟩ | ⟨s, hs⟩
    · exact .inl (refilled_fin r tm _ hy)
    · rcases refilled_inf r tm _ hs with h | h
      · exact .inl h
      · exact .inr ⟨s, h⟩
  rcases hrefilled with ⟨z, hz⟩ | ⟨s, hs⟩
  · exact .inl ⟨_, by rw [hz, min_fin, snapToZero_fin]⟩
  · cases s with
    | false => exact .inl ⟨_, by rw [hs, min_fin_posInf, snapToZero_fin]⟩
    -- minus infinity survives the cap at the burst
    | true =>
      right
      rw [hs, min_fin_negInf]
      decide +kernel

/-- The same, with its bound. -/
theorem credited_shape {host : Host} {now : ℤ} {r : RateLimitReq} {b : LeakyBucketItem}
    {tm : LeakyTerms} (htm : leakyTerms host now r b = .ok tm) {q : ℚ}
    (hq : b.remaining = .fin q) :
    (∃ y : ℚ, (credited r tm b).remaining = .fin y ∧ y ≤ (credited r tm b).burst) ∨
      (credited r tm b).remaining = .inf true := by
  have hchanged := (leakyTerms_ok htm).2.2.2.2.2.2.2.1
  rcases credited_cases htm hq with ⟨y, hy⟩ | hinf
  · refine .inl ⟨y, hy, ?_⟩
    rw [credited_burst _ _ _ hchanged]
    exact credited_le_burst _ _ _ hchanged hy
  · exact .inr hinf

/-! ## The three functions that answer

Each is followed along its branches, in the order of the source. -/

/-- A request for hits on a balance, by `scheduleHits`. -/
theorem scheduleHits_table (host : Host) (x : ℤ) (b : LeakyBucketItem) {r : RateLimitReq}
    (reqState : RateLimitReqState) {rl : RateLimitResp} (hstatus : rl.status = .underLimit)
    (hretry : rl.retryAfter = 0) (hremaining : 0 ≤ rl.remaining) (now duration : ℤ)
    (rate : ExactFloat) (wasInDebt : Bool) (hwait : 0 < r.maxWait) (hhits : r.hits ≠ 0) :
    ResponseTable r reqState.ceiling
      (scheduleHits host x b r reqState rl now duration rate wasInDebt).resp := by
  unfold scheduleHits
  -- more than the burst
  split
  · exact table_neverFits hwait hhits rfl hretry hremaining
  -- covered by the balance
  split
  · exact table_underLimit hstatus hretry (le_max_left _ _)
  dsimp only
  -- from here on there is a wait, of at least a millisecond
  have hone : 1 ≤ waitFor host b r.hits now rate := le_max_left _ _
  split
  · rename_i hlong
    exact table_waits hwait hhits hone (.inr ⟨rfl, hlong⟩) hremaining
  · rename_i hshort
    exact table_waits hwait hhits hone (.inl ⟨rfl, not_lt.mp hshort⟩) le_rfl

/-- What is left when a plain request is let in. -/
theorem admitted_remaining_nonneg (host : Host) {b : LeakyBucketItem} {hits : ℤ}
    (hb : (∃ y : ℚ, b.remaining = .fin y ∧ y ≤ b.burst) ∨ b.remaining = .inf true)
    (hhits : hits ≠ 0) (hrefund : ¬ (hits < 0 ∧ b.remaining < 0))
    (henough : hits ≤ wholeTokens host b.remaining) :
    0 ≤ wholeTokens host
      (snapToZero (ExactFloat.min (.ofInt b.burst) (b.remaining - .ofInt hits))) := by
  have hε := epsilon_pos
  rcases hb with ⟨y, hy, hburst⟩ | hinf
  · rw [hy] at hrefund henough
    rw [hy, ofInt_eq, ofInt_eq, fin_sub_fin, min_fin, snapToZero_fin]
    refine wholeTokens_nonneg host (neg_epsilon_le_snap (le_min ?_ ?_))
    · -- the cap: the burst is at least the balance, which covers the hits or is no debt
      rcases lt_or_gt_of_ne hhits with hneg | hpos
      · have : 0 ≤ y := by
          by_contra hlt
          exact hrefund ⟨hneg, fin_lt_zero.mpr (not_le.mp hlt)⟩
        linarith
      · have hle := (le_wholeTokens hpos).mp henough
        have : (0 : ℚ) < hits := by exact_mod_cast hpos
        linarith
    · rcases lt_or_gt_of_ne hhits with hneg | hpos
      · have hneg' : (hits : ℚ) < 0 := by exact_mod_cast hneg
        have : 0 ≤ y := by
          by_contra hlt
          exact hrefund ⟨hneg, fin_lt_zero.mpr (not_le.mp hlt)⟩
        linarith
      · linarith [(le_wholeTokens hpos).mp henough]
  · -- the balance stays infinite, and is the whole number that covered the hits
    rw [hinf] at hrefund henough
    rw [hinf, ofInt_eq, ofInt_eq, inf_sub_fin, min_fin_negInf,
      show snapToZero (.inf true) = .inf true by decide +kernel]
    rcases lt_or_gt_of_ne hhits with hneg | hpos
    · exact absurd ⟨hneg, rfl⟩ hrefund
    · omega

/-- A request on a credited balance. -/
theorem charge_table (host : Host) (x : ℤ) {b : LeakyBucketItem} {r : RateLimitReq}
    (reqState : RateLimitReqState) (tm : LeakyTerms) (rate : ExactFloat)
    (hb : (∃ y : ℚ, b.remaining = .fin y ∧ y ≤ b.burst) ∨ b.remaining = .inf true) :
    ResponseTable r reqState.ceiling (charge host x b r reqState tm rate).resp := by
  have hstatus : 0 ≤ (leakyStatus host b tm.createdAt rate).remaining := le_max_left _ _
  unfold charge
  dsimp only
  split
  · -- a query
    exact table_underLimit rfl rfl hstatus
  rename_i hhits
  split
  · rename_i hpos
    exact scheduleHits_table host x b reqState rfl rfl hstatus _ _ rate _ hpos hhits
  rename_i hplain
  split
  · -- a refund to a key in debt
    exact table_underLimit rfl rfl hstatus
  rename_i hrefund
  split
  · split
    · exact table_overLimit hplain hhits rfl rfl le_rfl
    · exact table_overLimit hplain hhits rfl rfl hstatus
  · rename_i henough
    exact table_underLimit rfl rfl
      (admitted_remaining_nonneg host hb hhits hrefund (not_lt.mp henough))

/-- A request that finds no bucket. -/
theorem leakyBucketNewItem_table {host : Host} {now : ℤ} {s : Shard} {r : RateLimitReq}
    {reqState : RateLimitReqState} (hburst : 0 ≤ r.burst) {resp : RateLimitResp}
    (hok : (leakyBucketNewItem host now s r reqState).1 = .ok resp) :
    ResponseTable r reqState.ceiling resp := by
  unfold leakyBucketNewItem at hok
  dsimp only at hok
  split at hok
  · cases hok
  split at hok
  · rename_i hnever
    obtain rfl := Except.ok.inj hok
    exact table_neverFits hnever.1 (by omega) rfl rfl hburst
  rename_i hfits
  obtain rfl := Except.ok.inj hok
  -- without `max_wait`, more than the burst is refused
  by_cases hrefused : r.burst < r.hits
  · refine table_overLimit (fun hw => hfits ⟨hw, hrefused⟩) (by omega) ?_ rfl ?_
    · simp [hrefused]
    · simp [hrefused]
  · refine table_underLimit ?_ rfl ?_
    · simp [hrefused]
    · simp only [hrefused, decide_false, Bool.false_eq_true, if_false]
      exact le_min hburst (by omega)

/-- A table for the request with its default burst is one for the request. -/
theorem ResponseTable.withBurst {r : RateLimitReq} {ceiling : ℤ} {resp : RateLimitResp}
    (h : ResponseTable r.withBurst ceiling resp) : ResponseTable r ceiling resp where
  plain := by simpa using h.plain
  waits := by simpa using h.waits
  others := by simpa using h.others
  scheduled := by simpa using h.scheduled
  refused := by simpa using h.refused
  query := by simpa using h.query
  remaining := h.remaining

/-- **Every answer is in the table**: whatever the state of the key, the clock, the ceiling and the
    config, a request that is accepted and returns no error. -/
theorem leakyBucket_response_table (host : Host) (now : ℤ) (s : Shard) (r : RateLimitReq)
    (reqState : RateLimitReqState) (hburst : 0 ≤ r.withBurst.burst)
    (hstate : ∀ item b, s.find (epochMillis now) r = some (item, .leaky b) →
      ∃ q, b.remaining = .fin q)
    {resp : RateLimitResp} (hok : (leakyBucket host now s r reqState).1 = .ok resp) :
    ResponseTable r reqState.ceiling resp := by
  refine ResponseTable.withBurst ?_
  unfold leakyBucket leakyBucketBurst at hok
  simp only [find_withBurst, lookup_withBurst, withBurst_hashKey] at hok
  -- nothing found, the other algorithm's bucket, which is replaced, or a leaky bucket
  rcases hfind : s.find (epochMillis now) r with _ | ⟨item, t | b⟩
  · rw [hfind] at hok
    exact leakyBucketNewItem_table hburst hok
  · rw [hfind] at hok
    exact leakyBucketNewItem_table hburst hok
  · obtain ⟨q, hq⟩ := hstate item b hfind
    simp only [hfind] at hok
    cases hout : leakyBucketItem host now r.withBurst reqState b item.expireAt with
    | error e => simp [hout] at hok
    | ok out =>
      simp only [hout] at hok
      obtain rfl := Except.ok.inj hok
      obtain ⟨tm, htm, rfl⟩ := leakyBucketItem_ok hout
      rw [(deferredExpiry_fields _ _ _ _).1]
      exact charge_table host _ reqState tm _ (credited_shape htm hq)

/-- A bucket in debt, for runs on fixed inputs. -/
def indebtedShard : Shard := .ofItems
  [{ algorithm := .leakyBucket, key := "requests_account:1", expireAt := 2000
     value := some (.leaky ⟨10, 1000, .fin (-1), 5, 10⟩) }]

/-- The item is found. -/
theorem indebtedShard_find :
    indebtedShard.find (epochMillis 5000000) (.sample 2 10 1000 0 5 300) =
      some ({ algorithm := .leakyBucket, key := "requests_account:1", expireAt := 2000
              value := some (.leaky ⟨10, 1000, .fin (-1), 5, 10⟩) },
        .leaky ⟨10, 1000, .fin (-1), 5, 10⟩) := by
  decide +kernel

/-- A request that waits its turn behind a debt. -/
theorem leakyBucket_response_table_debt :
    ResponseTable (.sample 2 10 1000 0 5 300) 1000
      { status := .scheduled, limit := 10, remaining := 0, resetTime := 1305, retryAfter := 300 } :=
  leakyBucket_response_table Host.amd64 5000000 indebtedShard (.sample 2 10 1000 0 5 300)
    { isOwner := true, waitCeiling := 1000000000 } (by decide +kernel)
    (by
      intro item b hfind
      rw [indebtedShard_find] at hfind
      simp only [Option.some.injEq, Prod.mk.injEq, Bucket.leaky.injEq] at hfind
      exact ⟨-1, by rw [← hfind.2]⟩)
    (by decide +kernel)

end Gubernator
