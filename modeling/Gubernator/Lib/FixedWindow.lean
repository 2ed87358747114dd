/-
  A FIXED-WINDOW limiter, abstractly: how much it can grant in ANY stretch of time.

  The limiter opens a window with the first request that finds none, grants at most `limit` in it,
  and opens the next one when a request comes after its end.  A window ends no earlier than
  `width` after it was opened.  It may also FORGET the window it has, and then starts afresh.

  A stretch of `T` time units need not be one window: it may catch the end of one and the whole of
  the next.  But the windows it catches after the first are opened inside it, `width` apart.  So it
  sees at most `1 + ⌈T / width⌉` of them, and one more for each time something was forgotten
  (`Run.grantedIn_le`).

  The invariant (`Spread`) splits what was granted in the stretch: `n` windows that are closed,
  one for each one forgotten, and the part `part` of the window that is open.

  Times and amounts are integers, and a window is closed at both ends: its last moment is `endsAt`,
  so a request one later opens the next.
-/
import Mathlib.Algebra.BigOperators.Group.List.Basic
import Mathlib.Tactic.Linarith
import Mathlib.Tactic.Ring

namespace FixedWindow

/-! ## The limiter

What is fixed is only what any such limiter keeps to; how long a window is beyond `width`, and how
much of the limit a request is granted, is left open. -/

/-- When the window was opened, its last moment, and what was granted in it. -/
structure Window where
  openedAt : ℤ
  endsAt : ℤ
  granted : ℤ

/-- The time of the last request, and the window that is open. -/
structure State where
  clock : ℤ
  window : Option Window

/-- A request at a time, with what it is granted, or the loss of the window. -/
inductive Event where
  | serve (time granted : ℤ)
  | forget

/-- What a request, or a loss, may do. -/
inductive Move (limit width : ℤ) : State → Event → State → Prop
  /-- there is no window, or it is over -/
  | opens {s : State} {time granted : ℤ} (endsAt : ℤ) (hclock : s.clock ≤ time)
      (hclosed : ∀ w, s.window = some w → w.endsAt < time) (hends : time + width ≤ endsAt + 1)
      (hnonneg : 0 ≤ granted) (hfits : granted ≤ limit) :
      Move limit width s (.serve time granted) ⟨time, some ⟨time, endsAt, granted⟩⟩
  /-- the window is still open -/
  | stays {s : State} {w : Window} {time granted : ℤ} (hclock : s.clock ≤ time)
      (hwindow : s.window = some w) (hopen : time ≤ w.endsAt) (hnonneg : 0 ≤ granted)
      (hfits : w.granted + granted ≤ limit) :
      Move limit width s (.serve time granted)
        ⟨time, some { w with granted := w.granted + granted }⟩
  | forgets (s : State) : Move limit width s .forget ⟨s.clock, none⟩

/-- A sequence of moves, with their events. -/
inductive Run (limit width : ℤ) : State → List Event → State → Prop
  | nil (s : State) : Run limit width s [] s
  | cons {s t u : State} {e : Event} {es : List Event} (head : Move limit width s e t)
      (tail : Run limit width t es u) : Run limit width s (e :: es) u

/-- What an event grants between two times. -/
def Event.grantedIn (start stop : ℤ) : Event → ℤ
  | .serve time granted => if start ≤ time ∧ time ≤ stop then granted else 0
  | .forget => 0

/-- What a run grants between two times, both included. -/
def grantedIn (start stop : ℤ) (es : List Event) : ℤ := (es.map (Event.grantedIn start stop)).sum

/-- Two runs in a row grant what both grant. -/
theorem grantedIn_append (start stop : ℤ) (es fs : List Event) :
    grantedIn start stop (es ++ fs) = grantedIn start stop es + grantedIn start stop fs := by
  simp [grantedIn]

/-- Two runs in a row are one. -/
theorem Run.append {limit width : ℤ} {s t u : State} {es fs : List Event}
    (h : Run limit width s es t) (h' : Run limit width t fs u) :
    Run limit width s (es ++ fs) u := by
  induction h with
  | nil s => exact h'
  | cons head _ ih => exact .cons head (ih h')

/-- A window is lost. -/
def Event.isForget : Event → Bool
  | .serve _ _ => false
  | .forget => true

/-! ## The bound

By induction on the run, with the invariant as an account of the windows seen so far. -/

section Bound
variable {limit width start T : ℤ}

/-- **How a total is spread over windows.**  Of the windows before the one that is open, `n` have
    ended, each `width` after the one before, and `forgotten` were forgotten. -/
structure Spread (limit width start T total : ℤ) (forgotten : ℕ) (s : State) (n : ℕ) (part : ℤ) :
    Prop where
  total_le : total ≤ (n + forgotten) * limit + part
  part_nonneg : 0 ≤ part
  few : (n : ℤ) ≤ 1 + (T + width - 1) / width
  /-- the first of them ended in the stretch or later, and the others were `width` long -/
  spaced : 1 ≤ n → start + 1 + (n - 1) * width ≤ s.clock
  closed : s.window = none → part = 0
  opened : ∀ w, s.window = some w → part ≤ w.granted ∧ w.granted ≤ limit ∧
    w.openedAt + width ≤ w.endsAt + 1 ∧ w.openedAt ≤ s.clock ∧
    (1 ≤ n → start + 1 + (n - 1) * width ≤ w.openedAt) ∧
    (0 < part → start ≤ w.endsAt ∧ w.openedAt ≤ start + T)

/-- While something of the stretch is in the open window, there is room for one more. -/
theorem Spread.room {total part : ℤ} {forgotten n : ℕ} {s : State}
    (h : Spread limit width start T total forgotten s n part) (hwidth : 1 ≤ width) (hT : 0 ≤ T)
    (hpart : 0 < part) : (n : ℤ) ≤ (T + width - 1) / width := by
  cases hw : s.window with
  | none => exact absurd (h.closed hw) hpart.ne'
  | some w =>
    obtain ⟨-, -, -, -, hspaced, hin⟩ := h.opened w hw
    have hlast := (hin hpart).2
    -- the open window was opened in the stretch, and the `n` before it are spaced
    rw [Int.le_ediv_iff_mul_le (by omega)]
    rcases Nat.eq_zero_or_pos n with rfl | hn
    · push_cast
      linarith
    · have := hspaced hn
      linarith

/-- What a request adds to a stretch: no more than it is granted, and nothing outside. -/
theorem grantedIn_serve (start stop time : ℤ) {granted : ℤ} (h : 0 ≤ granted) :
    0 ≤ Event.grantedIn start stop (.serve time granted) ∧
      Event.grantedIn start stop (.serve time granted) ≤ granted ∧
      (0 < Event.grantedIn start stop (.serve time granted) → start ≤ time ∧ time ≤ stop) := by
  by_cases hin : start ≤ time ∧ time ≤ stop
  · rw [Event.grantedIn, if_pos hin]
    exact ⟨h, le_rfl, fun _ => hin⟩
  · rw [Event.grantedIn, if_neg hin]
    exact ⟨le_rfl, h, fun h => absurd h (lt_irrefl 0)⟩

/-- **Step.**  Every move keeps the total spread. -/
theorem Spread.step {total part : ℤ} {forgotten n : ℕ} {s t : State} {e : Event}
    (h : Spread limit width start T total forgotten s n part) (hlimit : 0 ≤ limit)
    (hwidth : 1 ≤ width) (hT : 0 ≤ T) (hmove : Move limit width s e t) :
    ∃ n' part', Spread limit width start T (total + e.grantedIn start (start + T))
      (forgotten + if e.isForget then 1 else 0) t n' part' := by
  cases hmove with
  | @opens time granted endsAt hclock hclosed hends hnonneg hfits =>
    obtain ⟨hmore, hle, hwithin⟩ := grantedIn_serve start (start + T) time hnonneg
    set more := Event.grantedIn start (start + T) (.serve time granted)
    have hin : 0 < more → start ≤ endsAt ∧ time ≤ start + T := by
      intro hpos
      obtain ⟨hs, ht⟩ := hwithin hpos
      exact ⟨by omega, ht⟩
    simp only [Event.isForget, Bool.false_eq_true, if_false, add_zero]
    rcases h.part_nonneg.eq_or_lt with hzero | hpos
    · -- nothing of the stretch is in the window that closes: it is not counted
      refine ⟨n, more, ⟨?_, hmore, h.few, fun hn => (h.spaced hn).trans hclock, ?_, ?_⟩⟩
      · linarith [h.total_le]
      · rintro ⟨⟩
      · rintro _ ⟨⟩
        exact ⟨hle, hfits, hends, le_rfl, fun hn => (h.spaced hn).trans hclock, hin⟩
    · -- the window that closes is one more, and the new one is opened `width` after it
      cases hw : s.window with
      | none => exact absurd (h.closed hw) hpos.ne'
      | some w =>
        obtain ⟨hpart, hgranted, hlong, -, hspaced, hpast⟩ := h.opened w hw
        have hended := hclosed w hw
        have hstart := (hpast hpos).1
        -- its last moment was in the stretch or after it, and the next is opened later than that
        have hnext : start + 1 + n * width ≤ time := by
          rcases Nat.eq_zero_or_pos n with rfl | hn
          · push_cast
            omega
          · have := hspaced hn
            linarith
        refine ⟨n + 1, more, ⟨?_, hmore, ?_, fun _ => ?_, ?_, ?_⟩⟩
        · push_cast
          linarith [h.total_le]
        · push_cast
          linarith [h.room hwidth hT hpos]
        · push_cast
          rw [add_sub_cancel_right]
          exact hnext
        · rintro ⟨⟩
        · rintro _ ⟨⟩
          refine ⟨hle, hfits, hends, le_rfl, fun _ => ?_, hin⟩
          push_cast
          rw [add_sub_cancel_right]
          exact hnext
  | @stays w time granted hclock hwindow hopen hnonneg hfits =>
    obtain ⟨hpart, hgranted, hlong, hbefore, hspaced, hpast⟩ := h.opened w hwindow
    obtain ⟨hmore, hle, hwithin⟩ := grantedIn_serve start (start + T) time hnonneg
    set more := Event.grantedIn start (start + T) (.serve time granted)
    simp only [Event.isForget, Bool.false_eq_true, if_false, add_zero]
    -- nothing closes; the part grows by what is granted in the stretch
    refine ⟨n, part + more, ⟨?_, ?_, h.few, fun hn => (h.spaced hn).trans hclock, ?_, ?_⟩⟩
    · linarith [h.total_le]
    · linarith [h.part_nonneg]
    · rintro ⟨⟩
    · rintro _ ⟨⟩
      refine ⟨by linarith, hfits, hlong, hbefore.trans hclock, hspaced, fun hpos => ?_⟩
      rcases hmore.eq_or_lt with hzero | hnew
      · exact hpast (by omega)
      · obtain ⟨hs, ht⟩ := hwithin hnew
        exact ⟨hs.trans hopen, (hbefore.trans hclock).trans ht⟩
  | forgets =>
    -- what was in the window counts as one forgotten
    have hpart : part ≤ limit := by
      cases hw : s.window with
      | none => rw [h.closed hw]; exact hlimit
      | some w =>
        obtain ⟨hpart, hgranted, -⟩ := h.opened w hw
        exact hpart.trans hgranted
    refine ⟨n, 0, ⟨?_, le_rfl, h.few, h.spaced, fun _ => rfl, ?_⟩⟩
    · simp only [Event.grantedIn, Event.isForget, if_true]
      push_cast
      linarith [h.total_le]
    · rintro _ ⟨⟩

/-- **Run.** -/
theorem Spread.run {total part : ℤ} {forgotten n : ℕ} {s t : State} {es : List Event}
    (h : Spread limit width start T total forgotten s n part) (hlimit : 0 ≤ limit)
    (hwidth : 1 ≤ width) (hT : 0 ≤ T) (hrun : Run limit width s es t) :
    ∃ n' part', Spread limit width start T (total + grantedIn start (start + T) es)
      (forgotten + es.countP Event.isForget) t n' part' := by
  induction hrun generalizing total part forgotten n with
  | nil s => exact ⟨n, part, by simpa [grantedIn] using h⟩
  | @cons s t u e es head tail ih =>
    obtain ⟨n', part', hnext⟩ := h.step hlimit hwidth hT head
    obtain ⟨n'', part'', hend⟩ := ih hnext
    refine ⟨n'', part'', ?_⟩
    have htotal : total + grantedIn start (start + T) (e :: es) =
        total + e.grantedIn start (start + T) + grantedIn start (start + T) es := by
      simp only [grantedIn, List.map_cons, List.sum_cons, add_assoc]
    have hcount : forgotten + (e :: es).countP Event.isForget =
        forgotten + (if e.isForget then 1 else 0) + es.countP Event.isForget := by
      rw [List.countP_cons]
      omega
    rw [htotal, hcount]
    exact hend

/-- **What a limiter grants in a stretch of time**: the limit for each window the stretch can see,
    and for each one that was forgotten. -/
theorem Run.grantedIn_le {clock : ℤ} {t : State} {es : List Event}
    (hrun : Run limit width ⟨clock, none⟩ es t) (hlimit : 0 ≤ limit) (hwidth : 1 ≤ width)
    (hT : 0 ≤ T) (start : ℤ) :
    grantedIn start (start + T) es ≤
      (1 + (T + width - 1) / width + es.countP Event.isForget) * limit := by
  have hnonneg : 0 ≤ (T + width - 1) / width := Int.ediv_nonneg (by omega) (by omega)
  -- at first nothing is granted and no window seen
  have hnone : Spread limit width start T 0 0 ⟨clock, none⟩ 0 0 := by
    refine ⟨by simp, le_rfl, ?_, fun h => absurd h (by omega), fun _ => rfl, ?_⟩
    · push_cast
      omega
    · rintro _ ⟨⟩
  obtain ⟨n, part, h⟩ := hnone.run hlimit hwidth hT hrun
  rw [zero_add, zero_add] at h
  rcases h.part_nonneg.eq_or_lt with hzero | hpos
  · -- all windows of the stretch are closed
    calc grantedIn start (start + T) es
        ≤ (n + es.countP Event.isForget) * limit := by linarith [h.total_le]
      _ ≤ _ := mul_le_mul_of_nonneg_right (by linarith [h.few]) hlimit
  · -- one is open, and counts as a whole; there is room for it
    have hpart : part ≤ limit := by
      cases hw : t.window with
      | none => exact absurd (h.closed hw) hpos.ne'
      | some w =>
        obtain ⟨hpart, hgranted, -⟩ := h.opened w hw
        exact hpart.trans hgranted
    calc grantedIn start (start + T) es
        ≤ (n + es.countP Event.isForget) * limit + limit := by linarith [h.total_le]
      _ = (1 + n + es.countP Event.isForget) * limit := by ring
      _ ≤ _ := mul_le_mul_of_nonneg_right (by linarith [h.room hwidth hT hpos]) hlimit

end Bound

end FixedWindow
