/-
  A LEVEL THAT MOVES AT A CONSTANT SLOPE and is cut off at a cap.

  A reservoir holds `q` at time `u` and gains `k` per unit of time from then on; read at time `x`
  it shows `min cap (line u q k x)`.  Whoever writes the level back, as `v` at time `m`, RESTARTS
  the line there.  What a later reader sees is the same, up to a tolerance, under a condition on
  the two levels that depends on the sign of the slope:

  * rising: everything after `m` agrees as soon as `v` is right at `m`; only readers before `m`
    can see a difference, and the earliest of them sees the largest (`restart_rising`);
  * falling: the cap is left behind for good, so what was cut off at `m` shows later
    (`restart_falling`).

  In both cases the condition is an equivalence, so it also says when a reader can tell.
-/
import Mathlib

namespace CappedLine

/-! ## Lines and levels

Times are integers and levels rational, since clocks tick and levels do not. -/

/-- What has run in by `x`: nothing before `u`, then `k` per unit of time. -/
def line (u : ℤ) (q k : ℚ) (x : ℤ) : ℚ := q + k * ((max u x : ℤ) - u : ℚ)

/-- What a reader sees at `x`. -/
def level (cap : ℚ) (u : ℤ) (q k : ℚ) (x : ℤ) : ℚ := min cap (line u q k x)

/-! ## The line

The part before `u` is flat: reading it earlier than it was written changes nothing. -/

section Line
variable {u m x y : ℤ} {q q' k cap : ℚ}

/-- Before it starts, a line is where it starts. -/
theorem line_of_le (h : x ≤ u) : line u q k x = q := by
  simp [line, max_eq_left h]

/-- After it has started, it moves with its slope. -/
theorem line_of_ge (h : u ≤ x) : line u q k x = q + k * (x - u) := by
  simp [line, max_eq_right h]

/-- The time a line has run for, which is what orders its values. -/
theorem elapsed_mono (h : x ≤ y) : ((max u x : ℤ) - u : ℚ) ≤ (max u y : ℤ) - u := by
  have : max u x ≤ max u y := max_le_max le_rfl h
  have : ((max u x : ℤ) : ℚ) ≤ (max u y : ℤ) := by exact_mod_cast this
  linarith

/-- A rising line rises. -/
theorem line_mono (hk : 0 ≤ k) (h : x ≤ y) : line u q k x ≤ line u q k y := by
  have := mul_le_mul_of_nonneg_left (elapsed_mono (u := u) h) hk
  unfold line
  linarith

/-- A falling line falls. -/
theorem line_anti (hk : k ≤ 0) (h : x ≤ y) : line u q k y ≤ line u q k x := by
  have := mul_le_mul_of_nonpos_left (elapsed_mono (u := u) h) hk
  unfold line
  linarith

/-- Reading a line before it starts is reading it when it does. -/
theorem line_max : line u q k (max u x) = line u q k x := by
  simp [line]

/-- A line goes on from any of its points. -/
theorem line_restart (hum : u ≤ m) (hmx : m ≤ x) :
    line m (line u q k m) k x = line u q k x := by
  rw [line_of_ge hmx, line_of_ge hum, line_of_ge (hum.trans hmx)]
  ring

/-- Two lines of one slope keep their distance. -/
theorem line_sub : line u q k x - line u q' k x = q - q' := by
  unfold line
  ring

end Line

/-! ## The level

The cap is applied when the level is read; whoever writes it back writes what was read. -/

section Level
variable {u m x y : ℤ} {q q' k cap : ℚ}

/-- A level is at most the cap. -/
theorem level_le (cap : ℚ) (u : ℤ) (q k : ℚ) (x : ℤ) : level cap u q k x ≤ cap := min_le_left _ _

/-- A rising level rises. -/
theorem level_mono (cap : ℚ) (u : ℤ) (q : ℚ) (hk : 0 ≤ k) (h : x ≤ y) :
    level cap u q k x ≤ level cap u q k y :=
  min_le_min le_rfl (line_mono hk h)

/-- A falling level falls. -/
theorem level_anti (cap : ℚ) (u : ℤ) (q : ℚ) (hk : k ≤ 0) (h : x ≤ y) :
    level cap u q k y ≤ level cap u q k x :=
  min_le_min le_rfl (line_anti hk h)

/-- Reading a level before its line starts is reading it when it does. -/
theorem level_max : level cap u q k (max u x) = level cap u q k x := by
  unfold level
  rw [line_max]

/-- Before a line starts, its level is what it starts with. -/
theorem level_of_le (hq : q ≤ cap) (h : x ≤ u) : level cap u q k x = q := by
  rw [level, line_of_le h, min_eq_right hq]

/-- A rising level goes on from any of its points, cap or no cap. -/
theorem level_restart (hk : 0 ≤ k) (hum : u ≤ m) (hmx : m ≤ x) :
    level cap m (level cap u q k m) k x = level cap u q k x := by
  have hgain : 0 ≤ k * ((x : ℚ) - m) := mul_nonneg hk (by
    have : (m : ℚ) ≤ x := by exact_mod_cast hmx
    linarith)
  have hline : line u q k x = line u q k m + k * (x - m) := by
    rw [← line_restart hum hmx, line_of_ge hmx]
  unfold level
  rw [line_of_ge hmx, hline]
  rcases le_total cap (line u q k m) with hcap | hcap
  · -- full at `m`, and full ever after
    rw [min_eq_left hcap, min_eq_left (by linarith), min_eq_left (by linarith)]
  · rw [min_eq_right hcap]

/-- Cutting off brings two levels no further apart. -/
theorem abs_level_sub_le : |level cap u q k x - level cap u q' k x| ≤ |q - q'| := by
  have h := abs_min_sub_min_le_max cap (line u q k x) cap (line u q' k x)
  rw [sub_self, abs_zero, line_sub, max_eq_right (abs_nonneg _)] at h
  exact h

end Level

/-! ## Restarting at `m` with the level `v`

Which readers can tell that the level was written back, and as something else. -/

/-- From `t` on, two readings stay within `ε` of each other. -/
def Within (ε : ℚ) (t : ℤ) (f g : ℤ → ℚ) : Prop := ∀ x, t ≤ x → |f x - g x| ≤ ε

section Restart
variable {ε cap q k v : ℚ} {t u m : ℤ}

/-- **A rising reading replaced by one that agrees with it from `m` on** and shows `v` before:
    the earliest reader decides. -/
theorem within_rising {f g : ℤ → ℚ} (hf : Monotone f) (hlate : ∀ x, m ≤ x → |g x - f x| ≤ ε)
    (hearly : ∀ x, x < m → g x = v) (hv : |v - f m| ≤ ε) :
    Within ε t g f ↔ (t < m → v ≤ f t + ε) := by
  constructor
  · -- the earliest reader, if it comes before `m`
    intro h htm
    have := h t le_rfl
    rw [hearly t htm] at this
    have := le_of_abs_le this
    linarith
  · intro h x htx
    -- before `m` the level lies between the earliest one and that at `m`
    rcases lt_or_ge x m with hxm | hmx
    · rw [hearly x hxm, abs_le]
      have hlow := hf htx
      have hhigh := hf hxm.le
      have := h (lt_of_le_of_lt htx hxm)
      have := neg_le_of_abs_le hv
      exact ⟨by linarith, by linarith⟩
    · exact hlate x hmx

/-- A reader before `m` sees what was written there. -/
theorem level_early (hv : v ≤ cap) {x : ℤ} (h : x < m) : level cap m v k x = v :=
  level_of_le hv h.le

/-- **A rising level restarted at `m`** with what it was there, or nearly: only a reader before `m`
    can tell, if the level was lower then. -/
theorem restart_rising (hk : 0 ≤ k) (hum : u ≤ m) (hvcap : v ≤ cap)
    (hv : |v - level cap u q k m| ≤ ε) :
    Within ε t (level cap m v k) (level cap u q k) ↔ (t < m → v ≤ level cap u q k t + ε) := by
  refine within_rising (fun x y h => level_mono cap u q hk h) (fun x hmx => ?_)
    (fun x hxm => level_early hvcap hxm) hv
  rw [← level_restart hk hum hmx]
  exact abs_level_sub_le.trans hv

/-- A rising reading is at most its cap, and the earliest reader sees the least. -/
theorem within_full {f : ℤ → ℚ} (hf : Monotone f) (hcap : ∀ x, f x ≤ cap) :
    Within ε t (fun _ => cap) f ↔ cap ≤ f t + ε := by
  constructor
  · intro h
    have := le_of_abs_le (h t le_rfl)
    linarith
  · intro h x htx
    have htop := hcap x
    have hlow := hf htx
    rw [abs_of_nonneg (by linarith)]
    linarith

/-- Filled up at `m`, a rising level is at the cap at all times. -/
theorem refill_rising (hk : 0 ≤ k) :
    Within ε t (level cap m cap k) (level cap u q k) ↔ cap ≤ level cap u q k t + ε := by
  have hfull : level cap m cap k = fun _ => cap := by
    funext x
    refine le_antisymm (level_le cap m cap k x) (le_min le_rfl ?_)
    have := line_mono (u := m) (q := cap) hk (min_le_right m x)
    rwa [line_of_le (min_le_left m x)] at this
  rw [hfull]
  exact within_full (fun x y h => level_mono cap u q hk h) (level_le cap u q k)

/-- A falling line drops below any cap. -/
theorem exists_line_le (hk : k < 0) (c : ℚ) (n : ℤ) :
    ∃ x, n ≤ x ∧ u ≤ x ∧ line u q k x ≤ c := by
  refine ⟨max (max n u) (u + ⌈(c - q) / k⌉), ?_, ?_, ?_⟩
  · exact (le_max_left n u).trans (le_max_left _ _)
  · exact (le_max_right n u).trans (le_max_left _ _)
  · set x := max (max n u) (u + ⌈(c - q) / k⌉) with hx
    have hu : u ≤ x := (le_max_right n u).trans (le_max_left _ _)
    have hlong : (c - q) / k ≤ (x : ℚ) - u := by
      have h1 : u + ⌈(c - q) / k⌉ ≤ x := le_max_right _ _
      have h2 : ((u : ℚ) + (⌈(c - q) / k⌉ : ℤ)) ≤ x := by exact_mod_cast h1
      have := Int.le_ceil ((c - q) / k)
      linarith
    rw [line_of_ge hu]
    have := mul_le_mul_of_nonpos_left hlong hk.le
    rw [mul_div_cancel₀ _ hk.ne] at this
    linarith

/-- **A falling level restarted at `m`**: what the cap had cut off there shows in the end, and a
    reader before `m` sees the level too early. -/
theorem restart_falling (hk : k < 0) (hum : u ≤ m) (hvcap : v ≤ cap) :
    Within ε t (level cap m v k) (level cap u q k) ↔
      |v - line u q k m| ≤ ε ∧ level cap u q k t ≤ v + ε := by
  -- after `m` neither line is cut off from above by more than the other
  have hlate : ∀ x, m ≤ x → level cap m v k x = line m v k x := by
    intro x hmx
    refine min_eq_right (le_trans ?_ hvcap)
    have := line_anti (u := m) (q := v) hk.le hmx
    rwa [line_of_le le_rfl] at this
  -- after `m` the lines keep their distance
  have hgap : ∀ x, m ≤ x → line m v k x - line u q k x = v - line u q k m := by
    intro x hmx
    rw [← line_restart hum hmx, line_sub]
  constructor
  · intro h
    -- late enough, the old level is below the cap and shows the line
    have hv : |v - line u q k m| ≤ ε := by
      obtain ⟨x, hnx, hux, hle⟩ := exists_line_le (u := u) (q := q) hk cap (max t m)
      have hmx := (le_max_right t m).trans hnx
      have := h x ((le_max_left t m).trans hnx)
      rwa [hlate x hmx, level, min_eq_right hle, hgap x hmx] at this
    refine ⟨hv, ?_⟩
    rcases lt_or_ge t m with htm | hmt
    · have := neg_le_of_abs_le (h t le_rfl)
      rw [level_early hvcap htm] at this
      linarith
    · have hanti := level_anti cap u q hk.le hmt
      have hle : level cap u q k m ≤ line u q k m := min_le_right _ _
      have := neg_le_of_abs_le hv
      linarith
  · rintro ⟨hv, ht⟩ x htx
    have hlow := neg_le_of_abs_le hv
    have hhigh := le_of_abs_le hv
    rcases lt_or_ge x m with hxm | hmx
    · -- before `m`: the level has fallen since `t`, and is not below that at `m`
      rw [level_early hvcap hxm, abs_le]
      have htop := level_anti cap u q hk.le htx
      have hbottom := level_anti cap u q hk.le hxm.le
      have : v - ε ≤ level cap u q k m := le_min (by linarith [abs_nonneg (v - line u q k m)])
        (by linarith)
      exact ⟨by linarith, by linarith⟩
    · rw [hlate x hmx, abs_le]
      have hline := hgap x hmx
      have htop : level cap u q k x ≤ line u q k x := min_le_right _ _
      have hfall : line m v k x ≤ v := by
        have := line_anti (u := m) (q := v) hk.le hmx
        rwa [line_of_le le_rfl] at this
      have hbottom : line m v k x - ε ≤ level cap u q k x :=
        le_min (by linarith [abs_nonneg (v - line u q k m)]) (by linarith)
      exact ⟨by linarith, by linarith⟩

end Restart

end CappedLine
