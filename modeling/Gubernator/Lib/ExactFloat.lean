/-
  Floating point read EXACTLY: rationals with the special values of IEEE 754.

  A program whose `float64` arithmetic is to be judged without rounding still divides by zero,
  compares with NaN and meets infinities.  `ExactFloat` keeps all of that and drops only the
  rounding: a finite value is a rational, and beside the rationals there are

  * `negZero`  — the negative zero (`0 / -5`), which shows only as a divisor (`1 / -0 = -∞`);
  * `inf s`    — the two infinities, `s` the sign bit;
  * `nan`      — the result of `0 / 0`, `∞ - ∞` and `∞ / ∞`; every comparison with it is false.

  The operations are total and executable.  `fin_*` lemmas push them to the rationals; away from
  the special values a proof never unfolds an operation.
-/
import Mathlib

/-- A float64 without rounding: a rational, or one of the special values of IEEE 754. -/
inductive ExactFloat where
  | fin (q : ℚ)
  | negZero
  | inf (neg : Bool)
  | nan
  deriving DecidableEq, Repr

namespace ExactFloat

/-! ## Sign bit, value, and the two zeros

`negZero` is kept apart from `fin 0`, which is the positive zero; the two are equal in comparisons
and differ as divisors. -/

/-- The sign bit. -/
def isNeg : ExactFloat → Bool
  | fin q => decide (q < 0)
  | negZero => true
  | inf s => s
  | nan => false

/-- The rational a finite value stands for (`0` on the others). -/
def val : ExactFloat → ℚ
  | fin q => q
  | _ => 0

/-- The zero of the given sign. -/
def zero (neg : Bool) : ExactFloat := if neg then negZero else fin 0

instance : OfNat ExactFloat 0 := ⟨fin 0⟩

/-- Conversion of an integer. -/
def ofInt (n : ℤ) : ExactFloat := fin n

theorem zero_eq_fin : (0 : ExactFloat) = fin 0 := rfl

@[simp] theorem ofInt_eq (n : ℤ) : ofInt n = fin n := rfl

@[simp] theorem val_fin (q : ℚ) : (fin q).val = q := rfl

/-! ## Comparisons

Comparisons are decided by functions to `Bool`, so that a model can branch on them; `<` and `≤` are
their propositions.  Neither is a linear order: NaN compares with nothing. -/

/-- `x < y`: false as soon as one side is NaN; the two zeros are equal. -/
def ltB : ExactFloat → ExactFloat → Bool
  | nan, _ => false
  | _, nan => false
  | inf s, inf t => s && !t
  | inf s, _ => s
  | _, inf t => !t
  | x, y => decide (x.val < y.val)

/-- `x ≤ y`. -/
def leB : ExactFloat → ExactFloat → Bool
  | nan, _ => false
  | _, nan => false
  | inf s, inf t => s || !t
  | inf s, _ => s
  | _, inf t => !t
  | x, y => decide (x.val ≤ y.val)

instance : LT ExactFloat := ⟨fun x y => ltB x y = true⟩
instance : LE ExactFloat := ⟨fun x y => leB x y = true⟩
instance (x y : ExactFloat) : Decidable (x < y) := inferInstanceAs (Decidable (ltB x y = true))
instance (x y : ExactFloat) : Decidable (x ≤ y) := inferInstanceAs (Decidable (leB x y = true))

@[simp] theorem fin_lt_fin {a b : ℚ} : fin a < fin b ↔ a < b := by
  show decide (a < b) = true ↔ a < b
  exact decide_eq_true_iff

@[simp] theorem fin_le_fin {a b : ℚ} : fin a ≤ fin b ↔ a ≤ b := by
  show decide (a ≤ b) = true ↔ a ≤ b
  exact decide_eq_true_iff

@[simp] theorem fin_lt_zero {a : ℚ} : fin a < 0 ↔ a < 0 := fin_lt_fin

@[simp] theorem zero_lt_fin {a : ℚ} : 0 < fin a ↔ 0 < a := fin_lt_fin

@[simp] theorem zero_le_fin {a : ℚ} : 0 ≤ fin a ↔ 0 ≤ a := fin_le_fin

@[simp] theorem not_nan_lt (x : ExactFloat) : ¬ nan < x := Bool.false_ne_true

@[simp] theorem not_zero_lt_negZero : ¬ (0 : ExactFloat) < negZero := by decide +kernel

@[simp] theorem inf_lt_fin {s : Bool} {a : ℚ} : inf s < fin a ↔ s = true := Iff.rfl

@[simp] theorem inf_lt_zero {s : Bool} : inf s < 0 ↔ s = true := Iff.rfl

/-! ## Arithmetic

Each operation lists the special values first, as the standard does, and ends with the rationals.
The sign of a zero is computed where IEEE 754 does: in products and quotients it is that of the
signs, and a sum of two zeros is negative only if both are. -/

/-- The sign bit is flipped; `-0` is the opposite of `0`. -/
def neg : ExactFloat → ExactFloat
  | fin q => if q = 0 then negZero else fin (-q)
  | negZero => fin 0
  | inf s => inf !s
  | nan => nan

/-- The sum; infinities of opposite signs have none. -/
def add : ExactFloat → ExactFloat → ExactFloat
  | nan, _ => nan
  | _, nan => nan
  | inf s, inf t => if s = t then inf s else nan
  | inf s, _ => inf s
  | _, inf t => inf t
  | negZero, negZero => negZero
  | x, y => fin (x.val + y.val)

/-- The product; zero times infinity has none. -/
def mul : ExactFloat → ExactFloat → ExactFloat
  | nan, _ => nan
  | _, nan => nan
  | inf s, inf t => inf (s != t)
  | inf s, y => if y.val = 0 then nan else inf (s != y.isNeg)
  | x, inf t => if x.val = 0 then nan else inf (x.isNeg != t)
  | x, y => if x.val * y.val = 0 then zero (x.isNeg != y.isNeg) else fin (x.val * y.val)

/-- The quotient: over a zero it is infinite, and zero over zero or an infinity over one is NaN. -/
def div : ExactFloat → ExactFloat → ExactFloat
  | nan, _ => nan
  | _, nan => nan
  | inf _, inf _ => nan
  | inf s, y => inf (s != y.isNeg)
  | x, inf t => zero (x.isNeg != t)
  | x, y =>
    if y.val = 0 then
      if x.val = 0 then nan else inf (x.isNeg != y.isNeg)
    else if x.val = 0 then zero (x.isNeg != y.isNeg)
    else fin (x.val / y.val)

instance : Neg ExactFloat := ⟨neg⟩
instance : Add ExactFloat := ⟨add⟩
instance : Sub ExactFloat := ⟨fun x y => add x (neg y)⟩
instance : Mul ExactFloat := ⟨mul⟩
instance : Div ExactFloat := ⟨div⟩

@[simp] theorem fin_add_fin (a b : ℚ) : fin a + fin b = fin (a + b) := rfl

@[simp] theorem fin_sub_fin (a b : ℚ) : fin a - fin b = fin (a - b) := by
  show add (fin a) (neg (fin b)) = fin (a - b)
  by_cases hb : b = 0
  · subst hb
    simp [neg, add, val]
  · simp [neg, hb, add, val, sub_eq_add_neg]

/-- A positive right factor keeps the sign, so even a zero product needs no care. -/
theorem fin_mul_fin {a b : ℚ} (hb : 0 < b) : fin a * fin b = fin (a * b) := by
  show (if a * b = 0 then zero (decide (a < 0) != decide (b < 0)) else fin (a * b)) = fin (a * b)
  split
  · rename_i hab
    have ha : a = 0 := (mul_eq_zero.mp hab).resolve_right (ne_of_gt hb)
    subst ha
    simp [zero, not_lt.mpr hb.le]
  · rfl

/-- An infinity times a positive number is that infinity. -/
theorem inf_mul_fin {b : ℚ} (hb : 0 < b) (s : Bool) : inf s * fin b = inf s := by
  show (if b = 0 then nan else inf (s != decide (b < 0))) = inf s
  simp [hb.ne', not_lt.mpr hb.le]

/-- A quotient of rationals is the rational quotient, but for the zero over a negative number. -/
theorem fin_div_fin {a b : ℚ} (hb : b ≠ 0) :
    fin a / fin b = if a = 0 ∧ b < 0 then negZero else fin (a / b) := by
  show (if b = 0 then _ else if a = 0 then zero (decide (a < 0) != decide (b < 0))
    else fin (a / b)) = _
  rw [if_neg hb]
  by_cases ha : a = 0
  · subst ha
    by_cases hb0 : b < 0 <;> simp [zero, hb0]
  · simp [ha]

/-- Over a positive number there is no such exception. -/
theorem fin_div_fin_of_pos {a b : ℚ} (hb : 0 < b) : fin a / fin b = fin (a / b) := by
  rw [fin_div_fin (ne_of_gt hb), if_neg (fun h => absurd h.2 (not_lt.mpr hb.le))]

/-- A positive number over the positive zero. -/
theorem fin_div_zero_of_pos {a : ℚ} (ha : 0 < a) : fin a / fin 0 = inf false := by
  show div (fin a) (fin 0) = inf false
  simp [div, val, isNeg, ne_of_gt ha, ha.le]

/-- Over a zero, a positive number is infinite, of the zero's sign. -/
theorem fin_div_zero {a : ℚ} (ha : 0 < a) (s : Bool) : fin a / zero s = inf s := by
  show div (fin a) (zero s) = inf s
  cases s <;> simp [zero, div, val, isNeg, ne_of_gt ha, ha.le]

@[simp] theorem fin_add_zero (a : ℚ) (s : Bool) : fin a + zero s = fin a := by
  show add (fin a) (zero s) = fin a
  cases s <;> simp [zero, add, val]

/-- Over an infinity everything vanishes, with a sign. -/
theorem fin_div_inf (a : ℚ) (s : Bool) : fin a / inf s = zero (decide (a < 0) != s) := rfl

@[simp] theorem div_nan (a : ℚ) : fin a / nan = nan := rfl

/-- Only zero over a negative number is the negative zero. -/
theorem fin_div_fin_ne_negZero {a b : ℚ} (h : b < 0 → a ≠ 0) : fin a / fin b ≠ negZero := by
  by_cases hb : b = 0
  · subst hb
    show div (fin a) (fin 0) ≠ negZero
    by_cases ha : a = 0 <;> simp [div, val, ha]
  · rw [fin_div_fin hb, if_neg (fun hab => h hab.2 hab.1)]
    simp

/-- Only over the negative zero does a positive number go to `-∞`. -/
theorem fin_div_ne_negInf {a : ℚ} {x : ExactFloat} (ha : 0 < a) (hx : x ≠ negZero) :
    fin a / x ≠ inf true := by
  cases x with
  | fin b =>
    by_cases hb : b = 0
    · rw [hb, fin_div_zero_of_pos ha]
      simp
    · rw [fin_div_fin hb, if_neg (fun h => (ne_of_gt ha) h.1)]
      simp
  | negZero => exact absurd rfl hx
  | inf s => cases s <;> simp [fin_div_inf, zero, not_lt.mpr ha.le]
  | nan => simp

@[simp] theorem fin_add_inf (a : ℚ) (s : Bool) : fin a + inf s = inf s := rfl

/-- Nothing finite can be taken from an infinity. -/
theorem inf_sub_fin (s : Bool) (a : ℚ) : inf s - fin a = inf s := by
  show add (inf s) (neg (fin a)) = inf s
  by_cases ha : a = 0
  · simp [neg, ha, add]
  · simp [neg, ha, add]

/-! ## `math.Abs`, `math.Min`, `math.Max`, `math.Ceil`, truncation

The functions of a `math` package, with their special cases, and the integer conversion where it is
defined. -/

/-- NaN is found by equality here, as a value of the type. -/
def isNaN (x : ExactFloat) : Bool := x == nan

@[simp] theorem isNaN_zero (s : Bool) : (zero s).isNaN = false := by
  cases s <;> rfl

/-- Either infinity. -/
def isInf : ExactFloat → Bool
  | inf _ => true
  | _ => false

/-- Either zero. -/
def isZero : ExactFloat → Bool
  | fin q => q == 0
  | negZero => true
  | _ => false

/-- Without the sign. -/
def abs : ExactFloat → ExactFloat
  | fin q => fin |q|
  | negZero => fin 0
  | inf _ => inf false
  | nan => nan

/-- The smaller value; `-∞` wins over NaN, NaN over everything else, `-0` over `0`. -/
def min (x y : ExactFloat) : ExactFloat :=
  if x = inf true ∨ y = inf true then inf true
  else if x = nan ∨ y = nan then nan
  else if x.isZero ∧ y.isZero then (if x = negZero then x else y)
  else if x < y then x else y

/-- The larger value; `+∞` wins over NaN, NaN over everything else, `0` over `-0`. -/
def max (x y : ExactFloat) : ExactFloat :=
  if x = inf false ∨ y = inf false then inf false
  else if x = nan ∨ y = nan then nan
  else if x.isZero ∧ y.isZero then (if x = negZero then y else x)
  else if y < x then x else y

/-- The next whole number; just below zero it is the negative zero. -/
def ceil : ExactFloat → ExactFloat
  | fin q => if q < 0 ∧ ⌈q⌉ = 0 then negZero else fin ⌈q⌉
  | x => x

/-- Truncation toward zero; `none` where there is no integer to give. -/
def trunc : ExactFloat → Option ℤ
  | fin q => some (if 0 ≤ q then ⌊q⌋ else ⌈q⌉)
  | negZero => some 0
  | _ => none

@[simp] theorem isInf_fin (q : ℚ) : (fin q).isInf = false := rfl

@[simp] theorem abs_fin (q : ℚ) : (fin q).abs = fin |q| := rfl

@[simp] theorem min_fin (a b : ℚ) : (fin a).min (fin b) = fin (Min.min a b) := by
  simp only [min, reduceCtorEq, or_self, if_false, fin_lt_fin, isZero, beq_iff_eq]
  split
  · rename_i h
    rw [h.1, h.2, min_self]
  · split
    · rename_i h
      rw [min_eq_left h.le]
    · rename_i h
      rw [min_eq_right (not_lt.mp h)]

@[simp] theorem max_fin (a b : ℚ) : (fin a).max (fin b) = fin (Max.max a b) := by
  simp only [max, reduceCtorEq, or_self, if_false, fin_lt_fin, isZero, beq_iff_eq]
  split
  · rename_i h
    rw [h.1, h.2, max_self]
  · split
    · rename_i h
      rw [max_eq_left h.le]
    · rename_i h
      rw [max_eq_right (not_lt.mp h)]

@[simp] theorem min_fin_posInf (a : ℚ) : (fin a).min (inf false) = fin a := by
  have h : fin a < inf false := rfl
  simp [min, isZero, h]

@[simp] theorem min_fin_negInf (a : ℚ) : (fin a).min (inf true) = inf true := by
  simp [min]

/-- The negative zero is the lesser of it and a number that is not negative, the other zero
    included. -/
theorem min_fin_negZero {a : ℚ} (h : 0 ≤ a) : (fin a).min negZero = negZero := by
  have hlt : ¬ fin a < negZero := by
    show ¬ decide (a < 0) = true
    simpa using h
  simp only [min, reduceCtorEq, or_self, if_false, hlt]
  split <;> rfl

/-- A negative number is less than the negative zero. -/
theorem min_fin_negZero_of_neg {a : ℚ} (h : a < 0) : (fin a).min negZero = fin a := by
  have hlt : fin a < negZero := by
    show decide (a < 0) = true
    simpa using h
  simp [min, isZero, h.ne, hlt]

/-- Rounding up to a whole number and truncating is `⌈·⌉`, whichever zero comes out. -/
@[simp] theorem trunc_ceil_fin (q : ℚ) : (fin q).ceil.trunc = some ⌈q⌉ := by
  simp only [ceil]
  split
  · rename_i h
    rw [h.2]
    rfl
  · by_cases h0 : (0 : ℚ) ≤ (⌈q⌉ : ℤ)
    · simp [trunc, h0]
    · simp [trunc, h0]

end ExactFloat
