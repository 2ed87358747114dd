/-
  SOLVENCY: what holds of a leaky key's debt in every state its owner reaches.

  The debt clears within the wait ceiling, and the item stays cached until its balance is back at
  burst.  Both are carried by one invariant (`Solvent`) of every copy of the key's item, in the
  cache and in the Store.  A request on the item either finds a debt still owed, and
  `Debt.item_owed` says what becomes of it, or it reaches the charge with a balance between zero
  and the burst (`Settled`), and only a booking can make that negative.

  Why the runs are restricted as they are (`LeakyRun`): a negative limit or duration lets a balance
  in credit leak AWAY, into a debt that nobody booked; and hits that find exactly `1e-9` tokens too
  few are admitted and leave `-1e-9`, a debt without a booking.  Both are stated as exclusions, not
  assumed away in the model.
-/
import Gubernator.Instance
import Gubernator.Leaky.Debt

namespace Gubernator

open ExactFloat

/-! ## Balances that are settled when the hits are charged

There are four ways to get there: credit that leaks, a leak without end (a duration of zero), a
reset, and a debt that is paid or rescaled away by the time of the request. -/

/-- The item reaches the charge with a balance between zero and a burst that is not negative. -/
def Settled (r : RateLimitReq) (tm : LeakyTerms) (b : LeakyBucketItem) : Prop :=
  0 ≤ (credited r tm b).burst ∧
    ∃ q, (credited r tm b).remaining = .fin q ∧ 0 ≤ q ∧ q ≤ (credited r tm b).burst

section Settled
variable {host : Host} {now : ℤ} {r : RateLimitReq} {tm : LeakyTerms} {b : LeakyBucketItem}

/-- A balance above `-1e-9` after rescaling. -/
theorem settled_of_credit {q : ℚ} (htm : leakyTerms host now r b = .ok tm)
    (hburst : 0 ≤ tm.burst) (hreset : hasBehavior r.behavior .resetRemaining = false)
    (hq : (rescaleDebt tm (creditLeak tm b)).remaining = .fin q) (hcredit : -epsilon < q) :
    Settled r tm b := by
  have hchanged := (leakyTerms_ok htm).2.2.2.2.2.2.2.1
  unfold Settled
  rw [credited_burst r tm b hchanged]
  exact ⟨hburst, credited_of_credit hchanged hreset hburst hq hcredit⟩

/-- A balance that has filled up at once: the clamp makes it the burst. -/
theorem settled_of_inf (htm : leakyTerms host now r b = .ok tm) (hburst : 0 ≤ tm.burst)
    (hreset : hasBehavior r.behavior .resetRemaining = false)
    (hq : (rescaleDebt tm (creditLeak tm b)).remaining = .inf false) : Settled r tm b := by
  have hchanged := (leakyTerms_ok htm).2.2.2.2.2.2.2.1
  have hburst' : (0 : ℚ) ≤ tm.burst := by exact_mod_cast hburst
  have hshift : (shiftBurst tm (rescaleDebt tm (creditLeak tm b))).remaining = .inf false := by
    unfold shiftBurst
    split
    · rw [hq]
      rfl
    · exact hq
  unfold Settled
  rw [credited_burst r tm b hchanged, credited_remaining r tm b hchanged, refill, hreset]
  simp only [Bool.false_eq_true, if_false, hshift, ofInt_eq, min_fin_posInf, snapToZero_fin]
  exact ⟨hburst, _, rfl, snap_nonneg.mpr (by have := epsilon_pos; linarith), snap_le hburst le_rfl⟩

/-- A reset. -/
theorem settled_of_reset (htm : leakyTerms host now r b = .ok tm) (hburst : 0 ≤ tm.burst)
    (hreset : hasBehavior r.behavior .resetRemaining = true) : Settled r tm b := by
  have hchanged := (leakyTerms_ok htm).2.2.2.2.2.2.2.1
  have hburst' : (0 : ℚ) ≤ tm.burst := by exact_mod_cast hburst
  unfold Settled
  rw [credited_burst r tm b hchanged, credited_remaining r tm b hchanged, refill, if_pos hreset]
  simp only [ofInt_eq, min_fin, min_self, snapToZero_fin]
  exact ⟨hburst, _, rfl, snap_nonneg.mpr (by have := epsilon_pos; linarith), snap_le hburst le_rfl⟩

/-- A debt that the request finds paid, or rescales away, is settled. -/
theorem Debt.settled {q ρ : ℚ} (hd : Debt b q ρ) (htm : leakyTerms host now r b = .ok tm)
    (hburst : 0 ≤ tm.burst) (hreset : hasBehavior r.behavior .resetRemaining = false)
    (h : -epsilon < balanceAt b.updatedAt q ρ (epochMillis now) ∨
      RescaledAway r b (balanceAt b.updatedAt q ρ (epochMillis now)) ρ) : Settled r tm b := by
  set q₁ := balanceAt b.updatedAt q ρ (epochMillis now) with hq₁
  have hleak := hd.leaked htm
  rw [← hq₁] at hleak
  by_cases hpaid : -epsilon < q₁
  · -- paid: nothing is rescaled, since the balance does not read as debt
    refine settled_of_credit htm hburst hreset (q := q₁) ?_ hpaid
    rw [rescaleDebt, if_neg, hleak]
    rintro ⟨-, hneg⟩
    rw [hleak, snapToZero_fin, fin_lt_zero, snap_lt_zero] at hneg
    linarith
  · obtain ⟨hgreg, hl, hdur, hconfig, hsmall⟩ := h.resolve_left hpaid
    have husable : requestUsable r = true := requestUsable_iff.mpr ⟨hl, hdur⟩
    have hρr : (0 : ℚ) < r.duration / r.limit :=
      div_pos (by exact_mod_cast hdur) (by exact_mod_cast hl)
    have hterms := (leakyTerms_ok htm).1
    rw [requestTerms_plain hgreg, rateOf_pos _ hl] at hterms
    have hrate : tm.rate = .fin (r.duration / r.limit) := by
      rw [LeakyTerms.rate, hd.keepStored htm, hgreg, husable]
      exact (Prod.mk.inj (Except.ok.inj hterms)).1.symm
    -- rescaled away: what is left of it is below `1e-9`
    have hresc : tm.rescale = true := by
      rw [hd.rescale htm, hgreg, husable, (leakyTerms_ok htm).2.2.2.2.2.1]
      simpa using hconfig
    refine settled_of_credit htm hburst hreset (q := q₁ * (ρ / (r.duration / r.limit))) ?_
      (by linarith [(abs_lt.mp hsmall).1])
    have howed : snapToZero (creditLeak tm b).remaining < 0 := by
      rw [hleak, snapToZero_fin, fin_lt_zero, snap_lt_zero]
      exact not_lt.mp hpaid
    rw [rescaleDebt, if_pos ⟨hresc, howed⟩]
    simp only [hleak, hrate, hd.storedRate htm, fin_div_fin_of_pos hρr,
      fin_mul_fin (div_pos hd.rate_pos hρr)]

/-- A limit and a duration that are not negative never leak a balance away. -/
theorem creditedLeak_nonneg (b : LeakyBucketItem) (t : ℤ) {limit duration : ℤ} (hl : 0 ≤ limit)
    (hd : 0 ≤ duration) :
    (∃ l : ℚ, 0 ≤ l ∧ creditedLeak b t (rateOf limit duration) = .fin l) ∨
      creditedLeak b t (rateOf limit duration) = .inf false := by
  rcases lt_or_ge b.updatedAt t with hlt | hle
  swap
  · exact .inl ⟨0, le_rfl, by rw [creditedLeak, if_pos hle]; rfl⟩
  have hpos : (0 : ℚ) < ((t - b.updatedAt : ℤ) : ℚ) := by exact_mod_cast (by omega)
  -- the four cases of a limit and a duration being zero or not
  rcases eq_or_lt_of_le hl with rfl | hl'
  · rcases eq_or_lt_of_le hd with rfl | hd'
    · -- `0 / 0`: nothing leaks
      have hnan : rateOf 0 0 = .nan := by decide +kernel
      rw [hnan, creditedLeak_eq hlt (div_nan _)]
      exact .inl ⟨0, le_rfl, rfl⟩
    · have hinf : rateOf 0 duration = .inf false := by
        have : (0 : ℚ) < duration := by exact_mod_cast hd'
        simpa [rateOf] using fin_div_zero_of_pos this
      rw [hinf, creditedLeak_eq hlt (fin_div_inf _ _), decide_eq_false (not_lt.mpr hpos.le)]
      exact .inl ⟨0, le_rfl, rfl⟩
  · rw [rateOf_pos _ hl']
    rcases eq_or_lt_of_le hd with rfl | hd'
    · rw [Int.cast_zero, zero_div, creditedLeak_eq hlt (fin_div_zero_of_pos hpos)]
      exact .inr rfl
    · have hρ : (0 : ℚ) < duration / limit :=
        div_pos (by exact_mod_cast hd') (by exact_mod_cast hl')
      rw [creditedLeak_eq hlt (fin_div_fin_of_pos hρ)]
      exact .inl ⟨_, div_nonneg hpos.le hρ.le, rfl⟩

/-- A balance that is no debt is settled under a config that is not negative. -/
theorem settled_of_nonneg {q : ℚ} (htm : leakyTerms host now r b = .ok tm)
    (hburst : 0 ≤ tm.burst) (hreset : hasBehavior r.behavior .resetRemaining = false)
    (hq : b.remaining = .fin q) (hq0 : 0 ≤ q) (hl : 0 ≤ r.limit) (hd : 0 ≤ r.duration) :
    Settled r tm b := by
  obtain ⟨hterms, -, -, hkeep, hresc, -, -, -, -⟩ := leakyTerms_ok htm
  have hnot : decide (b.remaining < 0) = false := by
    rw [hq, decide_eq_false_iff_not, fin_lt_zero]
    exact not_lt.mpr hq0
  have hkeep' : tm.keepStored = false := by rw [hkeep, hnot]; simp
  have hresc' : tm.rescale = false := by rw [hresc, hnot]; simp
  obtain ⟨d, hrate, hlength⟩ := requestTerms_rateOf hterms
  have hd0 : 0 ≤ d := by
    rcases hlength with ⟨-, hpos⟩ | ⟨-, rfl⟩
    · exact hpos.le
    · exact hd
  -- in credit, the leak goes at the request's own rate
  have hcredit : tm.creditRate = rateOf r.limit d := by
    simp [LeakyTerms.creditRate, LeakyTerms.rate, hresc', hkeep', hrate]
  have hrescale : ∀ c, rescaleDebt tm c = c := fun c => by simp [rescaleDebt, hresc']
  have hε := epsilon_pos
  by_cases hlt : b.updatedAt < tm.createdAt
  · have hleak : (creditLeak tm b).remaining =
        .fin q + creditedLeak b tm.createdAt (rateOf r.limit d) := by
      rw [creditLeak, if_pos hlt, hcredit, hq]
    rcases creditedLeak_nonneg b tm.createdAt hl hd0 with ⟨l, hl0, hl'⟩ | hinf
    · rw [hl', fin_add_fin] at hleak
      exact settled_of_credit htm hburst hreset (by rw [hrescale, hleak]) (by linarith)
    · rw [hinf, fin_add_inf] at hleak
      exact settled_of_inf htm hburst hreset (by rw [hrescale, hleak])
  · have hleak : (creditLeak tm b).remaining = .fin q := by rw [creditLeak, if_neg hlt, hq]
    exact settled_of_credit htm hburst hreset (by rw [hrescale, hleak]) (by linarith)

end Settled

/-! ## The invariant of an item

`Solvent ceiling t b x` is about a moment `t` and gets weaker with time, which is what a clock that
only moves forward needs. -/

/-- The balance is rational; a debt clears within the ceiling, seen from `t`, and is back at
    burst no later than `x`, when the item expires. -/
structure Solvent (ceiling t : ℤ) (b : LeakyBucketItem) (x : ℤ) : Prop where
  burst_nonneg : 0 ≤ b.burst
  balance : ∃ q, b.remaining = .fin q ∧ (q < 0 → ∃ ρ, Debt b q ρ ∧
    clearsAt b.updatedAt q ρ ≤ t + ceiling + waitEpsilon ∧
    clearsAt b.updatedAt q ρ + b.burst * ρ ≤ x)

/-- Later it is still solvent. -/
theorem Solvent.mono {ceiling t t' : ℤ} {b : LeakyBucketItem} {x : ℤ}
    (h : Solvent ceiling t b x) (htt : t ≤ t') : Solvent ceiling t' b x := by
  obtain ⟨q, hq, hdebt⟩ := h.balance
  refine ⟨h.burst_nonneg, q, hq, fun hneg => ?_⟩
  obtain ⟨ρ, hd, hceil, hfull⟩ := hdebt hneg
  have : (t : ℚ) ≤ t' := by exact_mod_cast htt
  exact ⟨ρ, hd, by linarith, hfull⟩

/-- Without a debt there is nothing to show. -/
theorem solvent_of_nonneg {ceiling t : ℤ} {b : LeakyBucketItem} {x : ℤ} {q : ℚ}
    (hburst : 0 ≤ b.burst) (hq : b.remaining = .fin q) (hq0 : 0 ≤ q) : Solvent ceiling t b x :=
  ⟨hburst, q, hq, fun hneg => absurd hneg (not_lt.mpr hq0)⟩

section Item
variable {host : Host} {now : ℤ} {r : RateLimitReq} {reqState : RateLimitReqState}
  {b : LeakyBucketItem} {x : ℤ} {out : LeakyOutcome}

/-- A wait within the ceiling is a debt that clears within it. -/
theorem clearsAt_le_of_wait {C : ℚ} {t wait ceiling : ℤ}
    (hw : wait = max 1 ⌈C - t - waitEpsilon⌉) (hle : wait ≤ ceiling) :
    C ≤ t + ceiling + waitEpsilon := by
  have h1 : C - t - waitEpsilon ≤ wait := by
    rw [hw]
    exact (Int.le_ceil _).trans (by exact_mod_cast le_max_right _ _)
  have h2 : (wait : ℚ) ≤ ceiling := by exact_mod_cast hle
  linarith

/-- From a settled balance only a booking makes a debt, and it is solvent. -/
theorem Settled.solvent (hout : leakyBucketItem host now r reqState b x = .ok out)
    (hsettled : ∀ tm, leakyTerms host now r b = .ok tm → Settled r tm b)
    (hvalid : 0 < r.maxWait →
      0 ≤ r.hits ∧ hasBehavior r.behavior .durationIsGregorian = false)
    (hshort : ¬ (out.resp.status = .underLimit ∧ 0 < r.hits ∧
      out.b.remaining = .fin (-epsilon))) :
    Solvent reqState.ceiling (epochMillis now) out.b out.expireAt := by
  obtain ⟨tm, htm, -⟩ := leakyBucketItem_ok hout
  obtain ⟨hburst, q, hq, hq0, hqB⟩ := hsettled tm htm
  have hburst' : (0 : ℚ) ≤ (credited r tm b).burst := by exact_mod_cast hburst
  cases leakyBucketItem_charged hout htm hq hqB (fun h => (hvalid h).1) with
  | kept hcb _ _ _ => exact solvent_of_nonneg (by rw [hcb]; exact hburst) (by rw [hcb, hq]) hq0
  | drained hcb _ _ =>
    exact solvent_of_nonneg (by rw [hcb]; exact hburst) (by rw [hcb]) (le_min hq0 le_rfl)
  | refunded hits _ hcb _ _ =>
    have hhits : (r.hits : ℚ) < 0 := by exact_mod_cast hits
    refine solvent_of_nonneg (by rw [hcb]; exact hburst) (by rw [hcb]) (snap_nonneg.mpr ?_)
    exact lt_min (by linarith [epsilon_pos]) (by linarith [epsilon_pos])
  | admitted hits enough hcb hs _ =>
    refine solvent_of_nonneg (by rw [hcb]; exact hburst) (by rw [hcb]) (snap_nonneg.mpr ?_)
    -- exactly `1e-9` tokens too few is the one admission that leaves the balance negative
    refine lt_of_le_of_ne (by linarith) (fun heq => hshort ⟨hs, hits, ?_⟩)
    rw [hcb, ← heq, snap_of_le le_rfl]
  | booked _ _ _ _ _ _ _ _ hs =>
    obtain ⟨ρ, -, hd, -, hB, hw, hle, hfull⟩ := item_booked hout htm hq hqB hvalid hs
    exact ⟨by rw [hB]; exact hburst, _, hd.balance, fun _ =>
      ⟨ρ, hd, clearsAt_le_of_wait hw hle, hfull⟩⟩

/-- **Step on an item.**  A request keeps the item solvent. -/
theorem Solvent.item {t : ℤ} (h : Solvent reqState.ceiling t b x) (ht : t ≤ epochMillis now)
    (hout : leakyBucketItem host now r reqState b x = .ok out) (hburst : 0 ≤ r.burst)
    (hconfig : b.remaining < 0 ∨ 0 ≤ r.limit ∧ 0 ≤ r.duration)
    (hvalid : 0 < r.maxWait →
      0 ≤ r.hits ∧ hasBehavior r.behavior .durationIsGregorian = false)
    (hshort : ¬ (out.resp.status = .underLimit ∧ 0 < r.hits ∧
      out.b.remaining = .fin (-epsilon))) :
    Solvent reqState.ceiling (epochMillis now) out.b out.expireAt := by
  have hsettle := fun hs => Settled.solvent hout hs hvalid hshort
  have hburst' : ∀ tm, leakyTerms host now r b = .ok tm → 0 ≤ tm.burst :=
    fun tm htm => terms_burst_nonneg htm hburst h.burst_nonneg
  obtain ⟨q, hq, hdebt⟩ := h.balance
  -- a reset, no debt, a debt that is gone, a debt still owed
  by_cases hreset : hasBehavior r.behavior .resetRemaining = true
  · exact hsettle (fun tm htm => settled_of_reset htm (hburst' tm htm) hreset)
  have hreset' : hasBehavior r.behavior .resetRemaining = false := Bool.eq_false_iff.mpr hreset
  by_cases hneg : q < 0
  swap
  · have hcfg : 0 ≤ r.limit ∧ 0 ≤ r.duration := by
      refine hconfig.resolve_left ?_
      rw [hq, fin_lt_zero]
      exact hneg
    exact hsettle (fun tm htm => settled_of_nonneg htm (hburst' tm htm) hreset' hq
      (not_lt.mp hneg) hcfg.1 hcfg.2)
  obtain ⟨ρ, hd, hceil, hfull⟩ := hdebt hneg
  by_cases hgone : -epsilon < balanceAt b.updatedAt q ρ (epochMillis now) ∨
      RescaledAway r b (balanceAt b.updatedAt q ρ (epochMillis now)) ρ
  · exact hsettle (fun tm htm => hd.settled htm (hburst' tm htm) hreset' hgone)
  · rw [not_or, not_lt] at hgone
    obtain ⟨-, q', ρ', -, -, howing⟩ := hd.item_owed h.burst_nonneg hout
      (fun h => (hvalid h).1) hreset'
      hgone.1 hgone.2
    refine ⟨howing.burst_nonneg, q', howing.debt.balance, fun _ =>
      ⟨ρ', howing.debt, ?_, howing.outlived hfull⟩⟩
    -- the clearing moment has not moved, or it is the end of a wait within the ceiling
    rcases howing.moment with ⟨-, hC⟩ | ⟨-, -, -, hw, hle⟩
    · have : (t : ℚ) ≤ epochMillis now := by exact_mod_cast ht
      rw [hC]
      linarith
    · exact clearsAt_le_of_wait hw (hle.trans (min_le_right _ _))

end Item

/-- A new bucket owes nothing. -/
theorem newLeakyBucket_solvent {r : RateLimitReq} (hburst : 0 ≤ r.burst)
    (ceiling t createdAt duration x : ℤ) :
    Solvent ceiling t (newLeakyBucket r createdAt duration) x := by
  refine solvent_of_nonneg hburst rfl ?_
  have : 0 ≤ newBalance r := by
    unfold newBalance
    split <;> omega
  exact_mod_cast this

/-! ## Runs at the owner

The owner answers one request after another.  Its clock is the time of the last one. -/

/-- A limit and a duration of any sign while the balance found is negative, of no negative sign
    otherwise. -/
def configAllowed (s : Shard) (now : ℤ) (r : RateLimitReq) : Bool :=
  match s.find now r with
  | some (_, .leaky b) => decide (b.remaining < 0 ∨ 0 ≤ r.limit ∧ 0 ≤ r.duration)
  | _ => true

/-- Hits were admitted with exactly `1e-9` tokens too few, and the balance shows it. -/
def shortAdmission (r : RateLimitReq) (answer : Except String RateLimitResp) (s' : Shard) : Bool :=
  match answer, (s'.cache.peek r.hashKey).bind CacheItem.value with
  | .ok resp, some (.leaky b) =>
    decide (resp.status = .underLimit ∧ 0 < r.hits ∧ b.remaining = .fin (-epsilon))
  | _, _ => false

/-- The runs solvency is about: leaky requests on one key, the clock never going back, no
    effective burst negative, and none of the two exclusions above. -/
@[mk_iff] structure LeakyRun (conf : Config) (host : Host) (key : String) (o : Owner)
    (i : Incoming) : Prop where
  clock_le : o.clock ≤ i.now
  sameKey : i.req.hashKey = key
  leaky : i.req.algorithm = .leakyBucket
  burst_nonneg : 0 ≤ i.req.withBurst.burst
  config : configAllowed o.shard (epochMillis i.now) i.req = true
  notShort :
    shortAdmission i.req (o.serve conf host i).1 (o.serve conf host i).2.shard = false

instance (conf : Config) (host : Host) (key : String) (o : Owner) (i : Incoming) :
    Decidable (LeakyRun conf host key o i) :=
  decidable_of_iff _ (leakyRun_iff conf host key o i).symm

/-- What holds of every copy of the key's item. -/
structure SolventItem (key : String) (ceiling t : ℤ) (item : CacheItem) : Prop where
  key_eq : item.key = key
  valid : item.invalidAt = 0
  solvent : ∃ b, item.value = some (.leaky b) ∧ Solvent ceiling t b item.expireAt

/-- **Step.**  Every answer of the owner keeps every copy of the item solvent. -/
theorem serve_solvent {conf : Config} {host : Host} {key : String} {o : Owner} {i : Incoming}
    (hi : LeakyRun conf host key o i)
    (h : o.shard.Holds key (SolventItem key conf.ceiling (epochMillis o.clock))) :
    (o.serve conf host i).2.shard.Holds key
      (SolventItem key conf.ceiling (epochMillis (o.serve conf host i).2.clock)) := by
  have hclock : epochMillis o.clock ≤ epochMillis i.now := epochMillis_mono hi.clock_le
  have hmono : ∀ item, SolventItem key conf.ceiling (epochMillis o.clock) item →
      SolventItem key conf.ceiling (epochMillis i.now) item := by
    rintro item ⟨hk, hv, b, hb, hsolvent⟩
    exact ⟨hk, hv, b, hb, hsolvent.mono hclock⟩
  show (o.serve conf host i).2.shard.Holds key (SolventItem key conf.ceiling (epochMillis i.now))
  -- turned away by validation, which leaves the shard alone; or handed to `leakyBucket`
  rcases serve_leaky conf host o i hi.leaky with ⟨hs, -⟩ | ⟨hvalid, hs, hresult⟩
  · rw [hs]
    exact h.mono hmono
  have hshort := hi.notShort
  have hsame := hi.sameKey
  rw [hs] at hshort ⊢
  rw [← hsame] at h ⊢
  refine leakyBucket_holds h (fun item hP => hP.key_eq) (hsame ▸ hmono) ?_ ?_
  · -- a copy that is worked on
    rintro item b out ⟨hk, hv, b₁, hb₁, hsolvent⟩ hfind hout hr
    obtain rfl : b₁ = b := by
      have := (Shard.find_key hfind).2.1
      rw [hb₁] at this
      exact Bucket.leaky.inj (Option.some.inj this)
    refine ⟨hk, hv, out.b, rfl, ?_⟩
    obtain ⟨out₁, hout₁, hresp, hpeek⟩ := leakyBucket_found hfind hr
    obtain rfl := Except.ok.inj (hout.symm.trans hout₁)
    rw [← ownerState_ceiling] at hsolvent ⊢
    refine hsolvent.item hclock hout hi.burst_nonneg ?_ (fun hw => ?_) ?_
    · have := hi.config
      simpa [configAllowed, hfind] using this
    · have := validateMaxWait_scheduled hvalid (by simpa using hw)
      exact ⟨by simpa using this.2.2.2.2.2, by simpa using this.2.2.1⟩
    · have hok : (o.serve conf host i).1 = .ok out.resp := (hresult _).mpr hr
      rw [hok] at hshort
      simpa [shortAdmission, hpeek] using hshort
  · -- or created
    intro createdAt duration _ _
    exact ⟨withBurst_hashKey i.req, rfl, _, rfl, newLeakyBucket_solvent hi.burst_nonneg ..⟩

/-- **Run.**  Every copy of the item is solvent in every state the owner reaches. -/
theorem run_solvent {conf : Config} {host : Host} {key : String} {o : Owner}
    {run : List Incoming} (hc : o.shard.cache.peek key = none) (hs : o.shard.stored key = none)
    (hrun : Machine.Guarded (Owner.serve conf host) (LeakyRun conf host key) o run) :
    (Machine.exec (Owner.serve conf host) o run).shard.Holds key (SolventItem key conf.ceiling
      (epochMillis (Machine.exec (Owner.serve conf host) o run).clock)) :=
  Machine.invariant_rule
    (P := fun o => o.shard.Holds key (SolventItem key conf.ceiling (epochMillis o.clock)))
    (fun _ _ hi h => serve_solvent hi h) hrun (Shard.holds_of_absent hc hs)

/-- **Debt is bounded by the wait ceiling**: in every state reached, a negative balance has a
    usable stored rate and clears within the ceiling. -/
theorem debt_within_ceiling (conf : Config) (host : Host) (key : String) (o : Owner)
    (run : List Incoming) (hc : o.shard.cache.peek key = none) (hs : o.shard.stored key = none)
    (hrun : Machine.Guarded (Owner.serve conf host) (LeakyRun conf host key) o run)
    (item : CacheItem) (b : LeakyBucketItem)
    (hitem : (Machine.exec (Owner.serve conf host) o run).shard.cache.peek key = some item)
    (hb : item.value = some (.leaky b)) (hneg : b.remaining < 0) :
    ∃ q ρ : ℚ, b.remaining = .fin q ∧ rateOf b.limit b.duration = .fin ρ ∧ 0 < ρ ∧
      b.updatedAt + -q * ρ ≤
        epochMillis (Machine.exec (Owner.serve conf host) o run).clock + conf.ceiling
          + 1 / 10 ^ 6 := by
  obtain ⟨-, -, b₁, hb₁, hsolvent⟩ := (run_solvent hc hs hrun).cached item hitem
  obtain rfl := Bucket.leaky.inj (Option.some.inj (hb₁.symm.trans hb))
  obtain ⟨q, hq, hdebt⟩ := hsolvent.balance
  rw [hq, fin_lt_zero] at hneg
  obtain ⟨ρ, hd, hceil, -⟩ := hdebt hneg
  refine ⟨q, ρ, hq, hd.rate, hd.rate_pos, ?_⟩
  unfold clearsAt waitEpsilon at hceil
  norm_num at hceil ⊢
  linarith

/-- A token spent and another booked: the item owes one token at one a second. -/
def bookingRun : List Incoming :=
  [⟨5000000000, .sample 1 1 1000 1 5000 0⟩, ⟨5000000000, .sample 1 1 1000 1 5000 2000⟩]

/-- What it leaves: a balance of minus one. -/
def bookedBucket : LeakyBucketItem := ⟨1, 1000, .fin (-1), 5000, 1⟩

/-- It stays cached for the two seconds until the burst is back. -/
def bookedItem : CacheItem :=
  ⟨.leakyBucket, "requests_account:1", some (.leaky bookedBucket), 7000, 0⟩

/-- The booked token clears within the ceiling of five minutes. -/
theorem debt_within_ceiling_bookingRun :
    ∃ q ρ : ℚ, bookedBucket.remaining = .fin q ∧
      rateOf bookedBucket.limit bookedBucket.duration = .fin ρ ∧ 0 < ρ ∧
      bookedBucket.updatedAt + -q * ρ ≤
        epochMillis (Machine.exec (Owner.serve ⟨300000000000⟩ .amd64) ⟨0, .ofItems []⟩
          bookingRun).clock + (Config.ceiling ⟨300000000000⟩ : ℤ) + 1 / 10 ^ 6 :=
  debt_within_ceiling ⟨300000000000⟩ .amd64 "requests_account:1" ⟨0, .ofItems []⟩ bookingRun rfl rfl
    (by decide +kernel) bookedItem bookedBucket (by decide +kernel) rfl (by decide +kernel)

/-- **An item in debt outlives its debt**: in every state reached, an item with a negative
    balance expires no earlier than the balance is back at burst, and until then `GetItem`
    returns it. -/
theorem debt_outlived (conf : Config) (host : Host) (key : String) (o : Owner)
    (run : List Incoming) (hc : o.shard.cache.peek key = none) (hs : o.shard.stored key = none)
    (hrun : Machine.Guarded (Owner.serve conf host) (LeakyRun conf host key) o run)
    (item : CacheItem) (b : LeakyBucketItem)
    (hitem : (Machine.exec (Owner.serve conf host) o run).shard.cache.peek key = some item)
    (hb : item.value = some (.leaky b)) (hneg : b.remaining < 0) :
    ∃ q ρ : ℚ, b.remaining = .fin q ∧ rateOf b.limit b.duration = .fin ρ ∧
      b.updatedAt + (b.burst - q) * ρ ≤ item.expireAt ∧
      ∀ t : ℤ, t ≤ b.updatedAt + (b.burst - q) * ρ →
        ((Machine.exec (Owner.serve conf host) o run).shard.cache.getItem key t).1 =
          some item := by
  obtain ⟨-, hvalid, b₁, hb₁, hsolvent⟩ := (run_solvent hc hs hrun).cached item hitem
  obtain rfl := Bucket.leaky.inj (Option.some.inj (hb₁.symm.trans hb))
  obtain ⟨q, hq, hdebt⟩ := hsolvent.balance
  rw [hq, fin_lt_zero] at hneg
  obtain ⟨ρ, hd, -, hfull⟩ := hdebt hneg
  rw [clearsAt_add_burst] at hfull
  refine ⟨q, ρ, hq, hd.rate, hfull, fun t ht => Cache.getItem_of_fresh hitem ?_⟩
  -- nobody has invalidated the item, so it is fresh until it expires
  have hle : t ≤ item.expireAt := by exact_mod_cast ht.trans hfull
  simp [CacheItem.isExpired, hvalid, not_lt.mpr hle]

/-- The item of the booked token is found until its balance is back. -/
theorem debt_outlived_bookingRun :
    ∃ q ρ : ℚ, bookedBucket.remaining = .fin q ∧
      rateOf bookedBucket.limit bookedBucket.duration = .fin ρ ∧
      bookedBucket.updatedAt + (bookedBucket.burst - q) * ρ ≤ bookedItem.expireAt ∧
      ∀ t : ℤ, t ≤ bookedBucket.updatedAt + (bookedBucket.burst - q) * ρ →
        ((Machine.exec (Owner.serve ⟨300000000000⟩ .amd64) ⟨0, .ofItems []⟩
          bookingRun).shard.cache.getItem "requests_account:1" t).1 = some bookedItem :=
  debt_outlived ⟨300000000000⟩ .amd64 "requests_account:1" ⟨0, .ofItems []⟩ bookingRun rfl rfl
    (by decide +kernel) bookedItem bookedBucket (by decide +kernel) rfl (by decide +kernel)

end Gubernator
