/-
  Goroutines that run interleaved: a list of stages, of which a step moves one.

  `Inevitable step Q` says that EVERY run of a step relation gets to a state with `Q`: it never gets
  stuck before and does not go on for ever.  The rule for it asks for an invariant, for a number
  that every step lowers, and for a step wherever `Q` is not reached yet; which step is then taken
  does not matter.

  A step that moves the goroutine at an index leaves the others alone.  Up to order the list is the
  one that moves and the others, so what is summed or collected over all of them changes by what
  changes for the one.
-/
import Mathlib.Tactic.Ring
import Mathlib.Data.List.Perm.Basic
import Mathlib.Algebra.BigOperators.Group.List.Basic

namespace Interleaving

/-! ## What every run reaches -/

/-- **Every run reaches `Q`**, whichever steps it takes. -/
inductive Inevitable {S : Type*} (step : S → S → Prop) (Q : S → Prop) : S → Prop
  | here {s : S} : Q s → Inevitable step Q s
  | later {s : S} : (∃ t, step s t) → (∀ t, step s t → Inevitable step Q t) → Inevitable step Q s

section Rule
variable {S : Type*} {step : S → S → Prop} {P Q : S → Prop}

/-- **The rule**: an invariant, a number that every step lowers, and a step to take. -/
theorem inevitable_rule (rank : S → ℕ)
    (hstep : ∀ s t, P s → step s t → P t ∧ rank t < rank s)
    (hgo : ∀ s, P s → Q s ∨ ∃ t, step s t) {s : S} (h : P s) : Inevitable step Q s := by
  -- by induction on the number, for all states at once
  suffices hall : ∀ n s, rank s < n → P s → Inevitable step Q s by
    exact hall (rank s + 1) s (Nat.lt_succ_self _) h
  intro n
  induction n with
  | zero => exact fun s hs => absurd hs (Nat.not_lt_zero _)
  | succ n ih =>
    intro s hs hP
    rcases hgo s hP with hQ | hnext
    · exact .here hQ
    · refine .later hnext (fun t ht => ?_)
      obtain ⟨hPt, hlower⟩ := hstep s t hP ht
      exact ih t (by omega) hPt

theorem Inevitable.imp {s : S} {R : S → Prop} (h : Inevitable step Q s) (himp : ∀ s, Q s → R s) :
    Inevitable step R s := by
  induction h with
  | here hQ => exact .here (himp _ hQ)
  | later hgo _ ih => exact .later hgo ih

end Rule

/-! ## Moving one of them -/

section Move
variable {α β : Type*} {l : List α} {i : ℕ} {x : α}

/-- The one at an index and the others. -/
theorem perm_move (hx : l[i]? = some x) :
    ∃ others, l.Perm (x :: others) ∧ ∀ y, (l.set i y).Perm (y :: others) := by
  obtain ⟨hlt, rfl⟩ := List.getElem?_eq_some_iff.mp hx
  exact ⟨l.eraseIdx i, (List.getElem_cons_eraseIdx_perm hlt).symm,
    fun y => List.set_perm_cons_eraseIdx hlt y⟩

/-- The one at an index stays as it is. -/
theorem set_same (hx : l[i]? = some x) : l.set i x = l := by
  obtain ⟨hlt, rfl⟩ := List.getElem?_eq_some_iff.mp hx
  exact List.set_getElem_self hlt

theorem sum_move (hx : l[i]? = some x) (f : α → ℕ) (y : α) :
    ((l.set i y).map f).sum + f x = (l.map f).sum + f y := by
  obtain ⟨others, hold, hnew⟩ := perm_move hx
  rw [((hnew y).map f).sum_eq, (hold.map f).sum_eq, List.map_cons, List.map_cons, List.sum_cons,
    List.sum_cons]
  omega

/-- What is collected over all of them, when the one gives part of its own away. -/
theorem flatMap_move (hx : l[i]? = some x) {f : α → List β} {y : α} {given : List β}
    (h : (f x).Perm (given ++ f y)) :
    (l.flatMap f).Perm (given ++ (l.set i y).flatMap f) := by
  obtain ⟨others, hold, hnew⟩ := perm_move hx
  have hfront : (l.flatMap f).Perm ((x :: others).flatMap f) := hold.flatMap_right f
  have hgive : ((x :: others).flatMap f).Perm (given ++ (y :: others).flatMap f) := by
    rw [List.flatMap_cons, List.flatMap_cons, ← List.append_assoc]
    exact h.append_right _
  have hback : ((y :: others).flatMap f).Perm ((l.set i y).flatMap f) :=
    (hnew y).symm.flatMap_right f
  exact hfront.trans (hgive.trans (hback.append_left given))

end Move

/-! ## Taking apart what was collected -/

section Collect
variable {α β : Type*}

/-- **What was collected from all of them is told apart again** by a number each thing carries: the
    index it was collected at. -/
theorem filter_flatMap (f : α → List β) (index : β → ℕ) {l : List α} {x : α} (k i : ℕ)
    (hown : ∀ (j : ℕ) (y : α), l[j]? = some y → ∀ b ∈ f y, index b = k + j)
    (hx : l[i]? = some x) : (l.flatMap f).filter (fun b => index b = k + i) = f x := by
  -- `k` is the index of the head, which rises as the list is taken apart
  induction l generalizing k i with
  | nil => cases hx
  | cons a l ih =>
    have hhead : ∀ b ∈ f a, index b = k := fun b hb => hown 0 a rfl b hb
    have htail : ∀ (j : ℕ) (y : α), l[j]? = some y → ∀ b ∈ f y, index b = k + 1 + j := by
      intro j y hy b hb
      have := hown (j + 1) y hy b hb
      omega
    rw [List.flatMap_cons, List.filter_append]
    cases i with
    | zero =>
      obtain rfl : a = x := Option.some.inj hx
      have hall : (f a).filter (fun b => index b = k + 0) = f a := by
        refine List.filter_eq_self.mpr (fun b hb => ?_)
        simpa using hhead b hb
      have hnone : (l.flatMap f).filter (fun b => index b = k + 0) = [] := by
        refine List.filter_eq_nil_iff.mpr (fun b hb => ?_)
        obtain ⟨y, hy, hby⟩ := List.mem_flatMap.mp hb
        obtain ⟨j, hj⟩ := List.mem_iff_getElem?.mp hy
        have := htail j y hj b hby
        simp only [decide_eq_true_eq]
        omega
      rw [hall, hnone, List.append_nil]
    | succ i =>
      have hnone : (f a).filter (fun b => index b = k + (i + 1)) = [] := by
        refine List.filter_eq_nil_iff.mpr (fun b hb => ?_)
        have := hhead b hb
        simp only [decide_eq_true_eq]
        omega
      have hi : k + (i + 1) = k + 1 + i := by omega
      rw [hnone, List.nil_append, hi]
      exact ih (k + 1) i htail hx

end Collect

end Interleaving
