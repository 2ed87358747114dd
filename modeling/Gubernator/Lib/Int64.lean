/-
  MACHINE INTEGERS: `int64` arithmetic, which wraps, beside the integers it stands for.

  `wrap` keeps the lowest 64 bits.  A `Traced` computation goes on with the wrapped result of every
  addition and subtraction and notes the EXACT one; it is `Exact` if the wrap changed none of them.

  The judgement is `Computes m C x`: the computation is exact precisely if `C` holds, and its value
  is then `x`.  One rule per operation, and one for sequencing, in which the second part is judged
  at the value the first part has when it is exact: a computation on machine integers is compared
  with its model on the integers, and the condition is collected on the way.
-/
import Mathlib.Data.List.Basic
import Mathlib.Tactic.Ring

namespace MachineInt

/-- The `int64` of the lowest 64 bits. -/
def wrap (x : ℤ) : ℤ := (x + 2 ^ 63) % 2 ^ 64 - 2 ^ 63

theorem wrap_eq_self_iff {x : ℤ} : wrap x = x ↔ -2 ^ 63 ≤ x ∧ x < 2 ^ 63 := by
  unfold wrap
  omega

/-! ## Traced computations -/

/-- A value, with the exact results of the additions and subtractions on the way to it. -/
structure Traced (α : Type) where
  value : α
  results : List ℤ

namespace Traced

instance : Monad Traced where
  pure a := ⟨a, []⟩
  bind m f := ⟨(f m.value).value, m.results ++ (f m.value).results⟩

def add (x y : ℤ) : Traced ℤ := ⟨wrap (x + y), [x + y]⟩

def sub (x y : ℤ) : Traced ℤ := ⟨wrap (x - y), [x - y]⟩

variable {α β : Type} {m : Traced α} {f : α → Traced β} {C D : Prop} {x : α} {y : β}

/-- No result was changed by the wrap. -/
def Exact (m : Traced α) : Prop := ∀ result ∈ m.results, wrap result = result

instance decidableExact (m : Traced α) : Decidable m.Exact :=
  inferInstanceAs (Decidable (∀ result ∈ m.results, wrap result = result))

theorem exact_bind : (m >>= f).Exact ↔ m.Exact ∧ (f m.value).Exact := by
  show (∀ result ∈ m.results ++ (f m.value).results, wrap result = result) ↔ _
  simp only [List.mem_append, or_imp, forall_and]
  rfl

/-! ## What a computation computes -/

/-- **Exact precisely if `C`, and then the value is `x`.** -/
structure Computes (m : Traced α) (C : Prop) (x : α) : Prop where
  exact_iff : m.Exact ↔ C
  value_eq : C → m.value = x

theorem computes_pure (x : α) : Computes (pure x) True x where
  exact_iff := by simp [Exact, pure]
  value_eq := fun _ => rfl

theorem computes_add (x y : ℤ) : Computes (add x y) (-2 ^ 63 ≤ x + y ∧ x + y < 2 ^ 63) (x + y) where
  exact_iff := by simp only [Exact, add, List.forall_mem_singleton, wrap_eq_self_iff]
  value_eq := fun h => wrap_eq_self_iff.mpr h

theorem computes_sub (x y : ℤ) : Computes (sub x y) (-2 ^ 63 ≤ x - y ∧ x - y < 2 ^ 63) (x - y) where
  exact_iff := by simp only [Exact, sub, List.forall_mem_singleton, wrap_eq_self_iff]
  value_eq := fun h => wrap_eq_self_iff.mpr h

/-- **Sequencing.** -/
theorem Computes.bind (hm : Computes m C x) (hf : C → Computes (f x) D y) :
    Computes (m >>= f) (C ∧ D) y where
  exact_iff := by
    rw [exact_bind, hm.exact_iff]
    refine and_congr_right (fun hC => ?_)
    rw [hm.value_eq hC]
    exact (hf hC).exact_iff
  value_eq := by
    rintro ⟨hC, hD⟩
    show (f m.value).value = y
    rw [hm.value_eq hC]
    exact (hf hC).value_eq hD

/-- The last step only uses the value. -/
theorem Computes.map (g : α → β) (hm : Computes m C x) :
    Computes (m >>= fun a => pure (g a)) C (g x) where
  exact_iff := by
    rw [exact_bind, hm.exact_iff]
    exact and_iff_left ((computes_pure _).exact_iff.mpr trivial)
  value_eq := fun hC => congrArg g (hm.value_eq hC)

section Branch
variable {p : Prop} [Decidable p] {m' : Traced α}

theorem Computes.ite_pos (hp : p) (h : Computes m C x) : Computes (if p then m else m') C x := by
  rw [if_pos hp]
  exact h

theorem Computes.ite_neg (hp : ¬ p) (h : Computes m' C x) : Computes (if p then m else m') C x := by
  rw [if_neg hp]
  exact h

end Branch

/-- The condition may be put in other words. -/
theorem Computes.congr (h : Computes m C x) (hiff : C ↔ D) : Computes m D x where
  exact_iff := h.exact_iff.trans hiff
  value_eq := fun hD => h.value_eq (hiff.mpr hD)

end Traced

end MachineInt
