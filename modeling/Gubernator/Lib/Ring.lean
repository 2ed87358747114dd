/-
  A RING OF POINTS, kept as a sorted list and searched by halving.

  Points have positions in a linear order.  Seen as a ring, the SUCCESSOR of a position is the
  first point at or after it; past the last point the ring starts again, so there it is the least
  point of all.  A consistent hash gives a key to the successor of its hash.

  * `SortPackage`   — what a program may rely on from a library that sorts and searches;
  * `Successor`     — the specification, which speaks of the points as a set: neither their order
                      in the list nor the algorithm that keeps it sorted can matter;
  * `successor_at`  — the index a lower-bound search returns, wrapped, is the successor.
-/
import Mathlib.Data.List.Sort

/-! ## A library that sorts and searches -/

/-- A comparison a list can be sorted by. -/
structure StrictWeakOrder {α : Type} (less : α → α → Bool) : Prop where
  irrefl : ∀ a, less a a = false
  trans : ∀ a b c, less a b = true → less b c = true → less a c = true
  cotrans : ∀ a b c, less a c = true → less a b = true ∨ less b c = true

/-- **A sorting library**: `slice` sorts, in any order among equals; `search n f` is the least
    `i < n` with `f i`, or `n` when there is none, for an `f` that once true stays true. -/
structure SortPackage where
  slice : {α : Type} → (α → α → Bool) → List α → List α
  search : ℕ → (ℕ → Bool) → ℕ
  slice_perm : ∀ {α : Type} (less : α → α → Bool) (xs : List α), (slice less xs).Perm xs
  slice_sorted : ∀ {α : Type} (less : α → α → Bool) (xs : List α), StrictWeakOrder less →
    (slice less xs).Pairwise (fun a b => less b a = false)
  search_spec : ∀ (n : ℕ) (f : ℕ → Bool),
    (∀ i j, i ≤ j → j < n → f i = true → f j = true) →
    search n f ≤ n ∧ (∀ i, i < search n f → f i = false) ∧
      (search n f < n → f (search n f) = true)

namespace SortPackage

/-- The halving loop on `[lo, hi)`; a `fuel` of `hi - lo` is enough. -/
def halve (f : ℕ → Bool) : ℕ → ℕ → ℕ → ℕ
  | 0, lo, _ => lo
  | fuel + 1, lo, hi =>
    if lo < hi then
      let mid := (lo + hi) / 2
      if f mid then halve f fuel lo mid else halve f fuel (mid + 1) hi
    else lo

/-- Below `lo` the predicate is false and from `hi` on it is true: the loop keeps that, and ends
    where the two meet. -/
theorem halve_spec {n : ℕ} {f : ℕ → Bool} (hmono : ∀ i j, i ≤ j → j < n → f i = true → f j = true) :
    ∀ fuel lo hi, hi - lo ≤ fuel → lo ≤ hi → hi ≤ n → (∀ i, i < lo → f i = false) →
      (hi < n → f hi = true) →
      halve f fuel lo hi ≤ n ∧ (∀ i, i < halve f fuel lo hi → f i = false) ∧
        (halve f fuel lo hi < n → f (halve f fuel lo hi) = true) := by
  intro fuel
  induction fuel with
  | zero =>
    intro lo hi hfuel hle hn hlow hhigh
    obtain rfl : lo = hi := by omega
    exact ⟨hn, hlow, hhigh⟩
  | succ fuel ih =>
    intro lo hi hfuel hle hn hlow hhigh
    unfold halve
    split
    swap
    · obtain rfl : lo = hi := by omega
      exact ⟨hn, hlow, hhigh⟩
    rename_i hlt
    dsimp only
    split
    · rename_i hmid
      exact ih lo _ (by omega) (by omega) (by omega) hlow (fun _ => hmid)
    · rename_i hmid
      refine ih _ hi (by omega) (by omega) hn ?_ hhigh
      intro i hi'
      -- were `f i` true, it would have stayed true up to the middle
      by_contra htrue
      rw [Bool.not_eq_false] at htrue
      exact hmid (hmono i _ (by omega) (by omega) htrue)

/-- Insertion sort and the halving loop. -/
def reference : SortPackage where
  slice less xs := xs.insertionSort (fun a b => less b a = false)
  search n f := halve f n 0 n
  slice_perm less xs := List.perm_insertionSort _ xs
  slice_sorted less xs h := by
    have htotal : Std.Total (fun a b => less b a = false) := by
      constructor
      intro a b
      by_contra hboth
      simp only [not_or, Bool.not_eq_false] at hboth
      have := h.trans a b a hboth.2 hboth.1
      rw [h.irrefl] at this
      cases this
    have htrans : IsTrans _ (fun a b => less b a = false) := by
      constructor
      intro a b c hab hbc
      by_contra hca
      rw [Bool.not_eq_false] at hca
      rcases h.cotrans c b a hca with hcb | hba
      · rw [hcb] at hbc; cases hbc
      · rw [hba] at hab; cases hab
    exact List.pairwise_insertionSort _ xs
  search_spec n f hmono :=
    halve_spec hmono n 0 n (by omega) (by omega) le_rfl (fun i hi => by omega) (fun h => by omega)

end SortPackage

/-! ## The successor of a position -/

namespace Ring

variable {α κ : Type*} [LinearOrder κ] (pos : α → κ)

/-- The first point at or after `h`, or the least of all when every point lies before it. -/
structure Successor (pts : List α) (h : κ) (x : α) : Prop where
  mem : x ∈ pts
  first : (h ≤ pos x ∧ ∀ y ∈ pts, h ≤ pos y → pos x ≤ pos y) ∨
    ((∀ y ∈ pts, pos y < h) ∧ ∀ y ∈ pts, pos x ≤ pos y)

variable {pos} {pts pts' : List α} {h : κ} {x y : α}

/-- Two successors of one position are at the same place. -/
theorem Successor.pos_eq (hx : Successor pos pts h x) (hy : Successor pos pts h y) :
    pos x = pos y := by
  rcases hx.first with ⟨hhx, hminx⟩ | ⟨hbefore, hminx⟩
  · rcases hy.first with ⟨hhy, hminy⟩ | ⟨hbefore, -⟩
    · exact le_antisymm (hminx y hy.mem hhy) (hminy x hx.mem hhx)
    · exact absurd hhx (not_le.mpr (hbefore x hx.mem))
  · rcases hy.first with ⟨hhy, -⟩ | ⟨-, hminy⟩
    · exact absurd hhy (not_le.mpr (hbefore y hy.mem))
    · exact le_antisymm (hminx y hy.mem) (hminy x hx.mem)

/-- **Two rings with the same places have their successors at the same place**, whatever stands
    there. -/
theorem Successor.place_eq {β : Type*} {pos' : β → κ} {qts : List β} {y : β}
    (hx : Successor pos pts h x) (hy : Successor pos' qts h y)
    (hto : ∀ a ∈ pts, ∃ b ∈ qts, pos' b = pos a) (hfrom : ∀ b ∈ qts, ∃ a ∈ pts, pos a = pos' b) :
    pos x = pos' y := by
  obtain ⟨b, hb, hbx⟩ := hto x hx.mem
  obtain ⟨a, ha, hay⟩ := hfrom y hy.mem
  rcases hx.first with ⟨hhx, hminx⟩ | ⟨hbefore, hminx⟩
  · rcases hy.first with ⟨hhy, hminy⟩ | ⟨hbefore, -⟩
    · refine le_antisymm ?_ ?_
      · rw [← hay]
        exact hminx a ha (hay ▸ hhy)
      · rw [← hbx]
        exact hminy b hb (hbx ▸ hhx)
    · -- the other ring has nothing at or after `h`, but the place of `x` is one of its places
      exact absurd (hbx ▸ hhx) (not_le.mpr (hbefore b hb))
  · rcases hy.first with ⟨hhy, -⟩ | ⟨-, hminy⟩
    · exact absurd (hay ▸ hhy) (not_le.mpr (hbefore a ha))
    · refine le_antisymm ?_ ?_
      · rw [← hay]
        exact hminx a ha
      · rw [← hbx]
        exact hminy b hb

/-- A successor that survives when points are taken away is still the successor. -/
theorem Successor.of_subset (hx : Successor pos pts' h x) (hsub : ∀ y ∈ pts, y ∈ pts')
    (hmem : x ∈ pts) : Successor pos pts h x := by
  refine ⟨hmem, ?_⟩
  rcases hx.first with ⟨hhx, hmin⟩ | ⟨hbefore, hmin⟩
  · exact .inl ⟨hhx, fun y hy => hmin y (hsub y hy)⟩
  · exact .inr ⟨fun y hy => hbefore y (hsub y hy), fun y hy => hmin y (hsub y hy)⟩

/-- **A lower-bound search finds the successor**, once its index is wrapped. -/
theorem successor_at (hsorted : pts.Pairwise (fun a b => pos a ≤ pos b)) (hne : pts ≠ [])
    {idx : ℕ} (hle : idx ≤ pts.length) (hlow : ∀ i x, i < idx → pts[i]? = some x → pos x < h)
    (hhigh : ∀ x, pts[idx]? = some x → h ≤ pos x) :
    ∃ x, pts[if idx = pts.length then 0 else idx]? = some x ∧ Successor pos pts h x := by
  have hlen : 0 < pts.length := List.length_pos_of_ne_nil hne
  have hmono : ∀ i j (hi : i < pts.length) (hj : j < pts.length), i ≤ j →
      pos pts[i] ≤ pos pts[j] := by
    intro i j hi hj hij
    rcases Nat.lt_or_eq_of_le hij with hlt | rfl
    · exact List.pairwise_iff_getElem.mp hsorted i j hi hj hlt
    · exact le_rfl
  by_cases hend : idx = pts.length
  · -- past the last point: the ring starts again
    rw [if_pos hend]
    refine ⟨pts[0], List.getElem?_eq_getElem hlen, List.getElem_mem hlen, .inr ⟨?_, ?_⟩⟩
    · intro y hy
      obtain ⟨i, hi, rfl⟩ := List.mem_iff_getElem.mp hy
      exact hlow i _ (by omega) (List.getElem?_eq_getElem hi)
    · intro y hy
      obtain ⟨i, hi, rfl⟩ := List.mem_iff_getElem.mp hy
      exact hmono 0 i hlen hi (Nat.zero_le i)
  · rw [if_neg hend]
    have hidx : idx < pts.length := by omega
    refine ⟨pts[idx], List.getElem?_eq_getElem hidx, List.getElem_mem hidx, .inl ⟨?_, ?_⟩⟩
    · exact hhigh _ (List.getElem?_eq_getElem hidx)
    · intro y hy hhy
      obtain ⟨i, hi, rfl⟩ := List.mem_iff_getElem.mp hy
      rcases Nat.lt_or_ge i idx with hlt | hge
      · exact absurd hhy (not_le.mpr (hlow i _ hlt (List.getElem?_eq_getElem hi)))
      · exact hmono idx i hidx hi hge

end Ring
