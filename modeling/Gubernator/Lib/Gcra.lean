/-
  The generic cell rate algorithm, abstractly: how many hits a limiter can grant in a window.

  A limiter that refills one token per `rate` units of time up to `burst` tokens is summed up by
  ONE number, its theoretical arrival time `C`: the moment the tokens taken so far are paid back.
  A grant of `h` hits moves `C` by `h * rate`, lies no earlier than the moved `C` allows, and
  leaves at most `burst` tokens behind it.

  Real limiters round.  `Params` has room for three errors, and `Move` says where each may
  appear:

  * `slack`  — tokens a single request may lose track of;
  * `early`  — how much too early a granted time may be;
  * `late`   — how much too late, and so how much longer than needed the tokens stay free.

  `Within.step` shows that every move keeps the window bound
  `burst + (t - s + late + early) / rate + n * slack` after `n` requests.
-/
import Mathlib.Algebra.BigOperators.Group.List.Basic
import Mathlib.Algebra.Order.Field.Basic
import Mathlib.Data.Rat.Defs
import Mathlib.Tactic

namespace Gcra

/-! ## The limiter

`late` and `early` are times, `slack` is a number of tokens. -/

/-- A limiter and how it rounds. -/
structure Params where
  rate : ℚ
  burst : ℚ
  slack : ℚ
  early : ℚ
  late : ℚ
  rate_pos : 0 < rate
  slack_nonneg : 0 ≤ slack
  early_nonneg : 0 ≤ early
  late_nonneg : 0 ≤ late

/-- `hits` granted for the time `time`, which may lie ahead of the request. -/
structure Grant where
  time : ℚ
  hits : ℚ
  deriving DecidableEq

variable (p : Params)

/-- What one request may do to the theoretical arrival time; before the first hit there is none. -/
inductive Move : Option ℚ → Option Grant → Option ℚ → Prop
  /-- a request that finds no state and leaves none -/
  | ignore : Move none none none
  /-- a state begins, without a grant -/
  | start (C' : ℚ) : Move none none (some C')
  | first (g : Grant) (C' : ℚ) (hits : 0 ≤ g.hits) (fits : g.hits ≤ p.burst)
      (free : g.time + g.hits * p.rate ≤ C' + p.burst * p.rate + p.late) :
      Move none (some g) (some C')
  /-- nothing is granted; the arrival time may be lost track of by `slack` tokens -/
  | pass (C C' : ℚ) (kept : C ≤ C' + p.slack * p.rate) : Move (some C) none (some C')
  | grant (g : Grant) (C C' : ℚ) (hits : 0 ≤ g.hits) (fits : g.hits ≤ p.burst)
      (charged : C + g.hits * p.rate ≤ C' + p.slack * p.rate)
      (due : C + g.hits * p.rate ≤ g.time + p.early + p.slack * p.rate)
      (free : g.time + g.hits * p.rate ≤ C' + p.burst * p.rate + p.late) :
      Move (some C) (some g) (some C')

/-! ## The bound

A window is the times from `s` to `t`, both included. -/

/-- The grants whose time lies in the window. -/
def inWindow (s t : ℚ) (gs : List Grant) : List Grant :=
  gs.filter (fun g => decide (s ≤ g.time) && decide (g.time ≤ t))

/-- The hits granted for times in the window. -/
def windowHits (s t : ℚ) (gs : List Grant) : ℚ := ((inWindow s t gs).map Grant.hits).sum

/-- Grants in a row are in the window one by one. -/
theorem inWindow_append (s t : ℚ) (gs gs' : List Grant) :
    inWindow s t (gs ++ gs') = inWindow s t gs ++ inWindow s t gs' := List.filter_append ..

/-- Their hits add up. -/
theorem windowHits_append (s t : ℚ) (gs gs' : List Grant) :
    windowHits s t (gs ++ gs') = windowHits s t gs + windowHits s t gs' := by
  simp [windowHits, inWindow_append]

/-- **The window bound and what carries it**: once the window holds a grant, the hits it holds
    are accounted for by how far the theoretical arrival time has come since `s`. -/
structure Within (s t : ℚ) (n : ℕ) (gs : List Grant) (tat : Option ℚ) : Prop where
  spent : inWindow s t gs ≠ [] → ∃ C, tat = some C ∧
    windowHits s t gs * p.rate ≤ p.burst * p.rate + (C - s + p.late) + n * (p.slack * p.rate)
  bound : windowHits s t gs * p.rate ≤
    p.burst * p.rate + (t - s + p.late + p.early) + n * (p.slack * p.rate)

variable {p}

/-- Nothing is granted yet. -/
theorem Within.init {s t : ℚ} (hst : s ≤ t) (hburst : 0 ≤ p.burst) (tat : Option ℚ) :
    Within p s t 0 [] tat := by
  refine ⟨fun h => absurd rfl h, ?_⟩
  have := mul_nonneg hburst p.rate_pos.le
  simp only [windowHits, inWindow, List.filter_nil, List.map_nil, List.sum_nil, zero_mul,
    Nat.cast_zero, add_zero]
  linarith [p.late_nonneg, p.early_nonneg]

/-- A request without a grant in the window only has to keep the arrival time. -/
theorem Within.outside {s t : ℚ} {n : ℕ} {gs gs' : List Grant} {tat tat' : Option ℚ}
    (h : Within p s t n gs tat) (hout : inWindow s t gs' = [])
    (htat : ∀ C, tat = some C → ∃ C', tat' = some C' ∧ C ≤ C' + p.slack * p.rate) :
    Within p s t (n + 1) (gs ++ gs') tat' := by
  have hsame : inWindow s t (gs ++ gs') = inWindow s t gs := by
    rw [inWindow_append, hout, List.append_nil]
  have hsum : windowHits s t (gs ++ gs') = windowHits s t gs := by
    unfold windowHits
    rw [hsame]
  have hslack := mul_nonneg p.slack_nonneg p.rate_pos.le
  refine ⟨fun hne => ?_, ?_⟩
  · obtain ⟨C, hC, hspent⟩ := h.spent (hsame ▸ hne)
    obtain ⟨C', hC', hkept⟩ := htat C hC
    refine ⟨C', hC', ?_⟩
    rw [hsum]
    push_cast
    linarith
  · rw [hsum]
    push_cast
    linarith [h.bound]

/-- A grant in the window counts. -/
theorem inWindow_singleton {s t : ℚ} {g : Grant} (h : s ≤ g.time ∧ g.time ≤ t) :
    inWindow s t [g] = [g] := by
  simp [inWindow, h.1, h.2]

/-- A grant outside does not. -/
theorem inWindow_singleton_of_not {s t : ℚ} {g : Grant} (h : ¬ (s ≤ g.time ∧ g.time ≤ t)) :
    inWindow s t [g] = [] := by
  simp only [inWindow, List.filter_eq_nil_iff, List.mem_singleton, Bool.and_eq_true,
    decide_eq_true_eq]
  rintro g' rfl
  exact h

/-- The first grant of the window: nothing was spent in it before. -/
theorem Within.firstGrant {s t : ℚ} (n : ℕ) {gs : List Grant} {g : Grant}
    (hin : s ≤ g.time ∧ g.time ≤ t) (hnone : inWindow s t gs = []) {C' : ℚ}
    (fits : g.hits ≤ p.burst)
    (free : g.time + g.hits * p.rate ≤ C' + p.burst * p.rate + p.late) :
    Within p s t (n + 1) (gs ++ [g]) (some C') := by
  have hsum : windowHits s t (gs ++ [g]) = g.hits := by
    simp [windowHits, inWindow_append, hnone, inWindow_singleton hin]
  have hn : (0 : ℚ) ≤ ((n + 1 : ℕ) : ℚ) * (p.slack * p.rate) :=
    mul_nonneg (Nat.cast_nonneg _) (mul_nonneg p.slack_nonneg p.rate_pos.le)
  have hfits := mul_le_mul_of_nonneg_right fits p.rate_pos.le
  -- the tokens it leaves are at most the burst, and the hits are, too
  refine ⟨fun _ => ⟨C', rfl, ?_⟩, ?_⟩
  · rw [hsum]
    linarith [hin.1]
  · rw [hsum]
    linarith [hin.1, hin.2, p.late_nonneg, p.early_nonneg]

/-- **Step.**  Every move keeps the bound, one more request counted. -/
theorem Within.step {s t : ℚ} {n : ℕ} {gs : List Grant} {tat tat' : Option ℚ} {g : Option Grant}
    (h : Within p s t n gs tat) (hm : Move p tat g tat') :
    Within p s t (n + 1) (gs ++ g.toList) tat' := by
  cases hm with
  | ignore => exact h.outside rfl (fun C hC => by cases hC)
  | start C' => exact h.outside rfl (fun C hC => by cases hC)
  | pass C C' kept =>
    exact h.outside rfl (fun D hD => ⟨C', rfl, by obtain rfl := Option.some.inj hD; exact kept⟩)
  | first g C' hits fits free =>
    by_cases hin : s ≤ g.time ∧ g.time ≤ t
    · have hnone : inWindow s t gs = [] := by
        by_contra hne
        obtain ⟨C, hC, -⟩ := h.spent hne
        cases hC
      exact Within.firstGrant n hin hnone fits free
    · exact h.outside (inWindow_singleton_of_not hin) (fun C hC => by cases hC)
  -- by where the grant lies, and whether it is the first in the window
  | grant g C C' hits fits charged due free =>
    have hpaid := mul_nonneg hits p.rate_pos.le
    by_cases hin : s ≤ g.time ∧ g.time ≤ t
    · by_cases hnone : inWindow s t gs = []
      · exact Within.firstGrant n hin hnone fits free
      · -- a later grant of the window: `C` already accounts for the ones before it
        obtain ⟨D, hD, hspent⟩ := h.spent hnone
        obtain rfl := Option.some.inj hD
        have hsum : windowHits s t (gs ++ [g]) = windowHits s t gs + g.hits := by
          rw [windowHits_append]
          simp [windowHits, inWindow_singleton hin]
        refine ⟨fun _ => ⟨C', rfl, ?_⟩, ?_⟩
        · show windowHits s t (gs ++ [g]) * p.rate ≤ _
          rw [hsum, add_mul]
          push_cast
          linarith
        · show windowHits s t (gs ++ [g]) * p.rate ≤ _
          rw [hsum, add_mul]
          push_cast
          linarith [hin.2]
    · refine h.outside (inWindow_singleton_of_not hin) (fun D hD => ⟨C', rfl, ?_⟩)
      obtain rfl := Option.some.inj hD
      linarith

/-- The bound in tokens. -/
theorem Within.hits_le {s t : ℚ} {n : ℕ} {gs : List Grant} {tat : Option ℚ}
    (h : Within p s t n gs tat) :
    windowHits s t gs ≤ p.burst + (t - s + p.late + p.early) / p.rate + n * p.slack := by
  have hρ := p.rate_pos
  have hdiv : windowHits s t gs ≤
      (p.burst * p.rate + (t - s + p.late + p.early) + n * (p.slack * p.rate)) / p.rate :=
    (le_div_iff₀ hρ).mpr h.bound
  have hsplit : (p.burst * p.rate + (t - s + p.late + p.early) + n * (p.slack * p.rate)) / p.rate
      = p.burst + (t - s + p.late + p.early) / p.rate + n * p.slack := by
    field_simp
  rw [← hsplit]
  exact hdiv

end Gcra
