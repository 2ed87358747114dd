/-
  A doubly linked list, as a program sees one: elements have an identity, and a program that keeps
  a pointer to an element can move it, remove it or change its value in place.

  An element is a number that is never given out twice, with its value; the list is the elements
  front to back.  That the elements are distinct, and that a new one will be, are fields of the
  list, so no operation can lose them.

  The lemmas come in two groups.  The first says what each operation does to the ELEMENTS: which
  value each has afterwards.  The second says what it does to the VALUES in their order, for a list
  whose values are told apart by a key; there an element is the same as its key, and the operations
  are the list functions one would write.
-/
import Mathlib.Data.List.Nodup

/-- A list of elements, each a number and its value; `fresh` is the number the next one gets. -/
structure LinkedList (α : Type) where
  elements : List (ℕ × α)
  fresh : ℕ
  nodup : (elements.map Prod.fst).Nodup
  lt_fresh : ∀ e ∈ elements, e.1 < fresh

namespace LinkedList

variable {α : Type}

/-- No elements. -/
def empty : LinkedList α := ⟨[], 0, List.nodup_nil, by simp⟩

/-- The values, front to back. -/
def values (l : LinkedList α) : List α := l.elements.map Prod.snd

/-- The number of elements. -/
def len (l : LinkedList α) : ℕ := l.elements.length

/-- The value of an element that is in the list. -/
def value (l : LinkedList α) (e : ℕ) : Option α :=
  (l.elements.find? (fun p => p.1 == e)).map Prod.snd

/-- The last element. -/
def back (l : LinkedList α) : Option ℕ := l.elements.getLast?.map Prod.fst

/-- A new element in front of all others, given back with the list. -/
def pushFront (l : LinkedList α) (v : α) : ℕ × LinkedList α :=
  (l.fresh,
    { elements := (l.fresh, v) :: l.elements
      fresh := l.fresh + 1
      nodup := by
        refine List.nodup_cons.mpr ⟨fun hmem => ?_, l.nodup⟩
        obtain ⟨e, he, heq⟩ := List.mem_map.mp hmem
        have := l.lt_fresh e he
        omega
      lt_fresh := by
        intro e he
        rcases List.mem_cons.mp he with rfl | he
        · exact Nat.lt_succ_self _
        · exact Nat.lt_trans (l.lt_fresh e he) (Nat.lt_succ_self _) })

/-- Without the element; one that is not in the list changes nothing. -/
def remove (l : LinkedList α) (e : ℕ) : LinkedList α where
  elements := l.elements.filter (fun p => p.1 != e)
  fresh := l.fresh
  nodup := (List.filter_sublist.map Prod.fst).nodup l.nodup
  lt_fresh p hp := l.lt_fresh p (List.mem_of_mem_filter hp)

/-- The element goes to the front; one that is not in the list changes nothing. -/
def moveToFront (l : LinkedList α) (e : ℕ) : LinkedList α :=
  match h : l.elements.find? (fun p => p.1 == e) with
  | none => l
  | some p =>
    { elements := p :: (l.remove e).elements
      fresh := l.fresh
      nodup := by
        have hp : p.1 = e := by simpa using List.find?_some h
        refine List.nodup_cons.mpr ⟨fun hmem => ?_, (l.remove e).nodup⟩
        obtain ⟨q, hq, heq⟩ := List.mem_map.mp hmem
        have hne := (List.mem_filter.mp hq).2
        rw [heq, hp] at hne
        simp at hne
      lt_fresh := by
        intro q hq
        rcases List.mem_cons.mp hq with rfl | hq
        · exact l.lt_fresh q (List.mem_of_find?_eq_some h)
        · exact (l.remove e).lt_fresh q hq }

/-- The element takes another value, where it stands. -/
def setValue (l : LinkedList α) (e : ℕ) (v : α) : LinkedList α where
  elements := l.elements.map (fun p => if p.1 = e then (p.1, v) else p)
  fresh := l.fresh
  nodup := by
    have hfst : (l.elements.map (fun p => if p.1 = e then (p.1, v) else p)).map Prod.fst =
        l.elements.map Prod.fst := by
      rw [List.map_map]
      refine List.map_congr_left (fun p _ => ?_)
      simp only [Function.comp_apply]
      split <;> rfl
    rw [hfst]
    exact l.nodup
  lt_fresh := by
    intro q hq
    obtain ⟨p, hp, rfl⟩ := List.mem_map.mp hq
    have := l.lt_fresh p hp
    split <;> exact this

/-! ## Elements and their values

`value` looks an element up by its number.  What it finds determines the elements, since no number
occurs twice. -/

/-- An element's value is the one it stands with. -/
theorem value_eq_some {l : LinkedList α} {e : ℕ} {v : α} :
    l.value e = some v ↔ (e, v) ∈ l.elements := by
  unfold value
  constructor
  · intro h
    obtain ⟨p, hp, rfl⟩ := Option.map_eq_some_iff.mp h
    have he : p.1 = e := by simpa using List.find?_some hp
    rw [← he]
    exact List.mem_of_find?_eq_some hp
  · intro h
    cases hf : l.elements.find? (fun p => p.1 == e) with
    | none =>
      have := List.find?_eq_none.mp hf (e, v) h
      simp at this
    | some p =>
      have he : p.1 = e := by simpa using List.find?_some hf
      -- two elements with one number are one element
      have := List.inj_on_of_nodup_map l.nodup (List.mem_of_find?_eq_some hf) h he
      rw [this]
      rfl

/-- There are as many elements as values. -/
@[simp] theorem len_eq (l : LinkedList α) : l.len = l.values.length := by simp [len, values]

/-- Every value is that of an element. -/
theorem mem_values {l : LinkedList α} {v : α} : v ∈ l.values ↔ ∃ e, l.value e = some v := by
  simp only [values, List.mem_map, value_eq_some]
  constructor
  · rintro ⟨p, hp, rfl⟩
    exact ⟨p.1, hp⟩
  · rintro ⟨e, he⟩
    exact ⟨(e, v), he, rfl⟩

/-- Moving is removing and pushing, with the same number. -/
theorem elements_moveToFront {l : LinkedList α} {e : ℕ} {v : α} (h : l.value e = some v) :
    (l.moveToFront e).elements = (e, v) :: (l.remove e).elements := by
  obtain ⟨p, hp, rfl⟩ := Option.map_eq_some_iff.mp h
  have he : p.1 = e := by simpa using List.find?_some hp
  unfold moveToFront
  split
  · rename_i hnone
    rw [hnone] at hp
    cases hp
  · rename_i q hq
    rw [hq] at hp
    obtain rfl := Option.some.inj hp
    show q :: (l.remove e).elements = (e, q.2) :: (l.remove e).elements
    exact congrArg (fun p => p :: (l.remove e).elements) (Prod.ext he rfl)

/-- Removing takes away one element and leaves the others their values. -/
theorem value_remove {l : LinkedList α} {e e' : ℕ} {v : α} :
    (l.remove e).value e' = some v ↔ e' ≠ e ∧ l.value e' = some v := by
  rw [value_eq_some, value_eq_some, remove, List.mem_filter]
  simp [and_comm]

/-- Moving changes no value. -/
theorem value_moveToFront {l : LinkedList α} {e e' : ℕ} {v w : α} (h : l.value e = some v) :
    (l.moveToFront e).value e' = some w ↔ l.value e' = some w := by
  rw [value_eq_some, elements_moveToFront h, List.mem_cons, ← value_eq_some, value_remove]
  constructor
  · rintro (heq | ⟨-, hw⟩)
    · obtain ⟨rfl, rfl⟩ := Prod.mk.inj heq
      exact h
    · exact hw
  · intro hw
    by_cases he : e' = e
    · subst he
      rw [h] at hw
      exact .inl (by rw [Option.some.inj hw])
    · exact .inr ⟨he, hw⟩

/-- Setting a value changes that of one element. -/
theorem value_setValue {l : LinkedList α} {e e' : ℕ} {v w x : α} (h : l.value e = some v) :
    (l.setValue e w).value e' = some x ↔ (e' = e ∧ x = w) ∨ (e' ≠ e ∧ l.value e' = some x) := by
  rw [value_eq_some, setValue, List.mem_map]
  constructor
  · rintro ⟨p, hp, heq⟩
    split at heq
    · rename_i he
      obtain ⟨rfl, rfl⟩ := Prod.mk.inj heq
      exact .inl ⟨he, rfl⟩
    · rename_i he
      subst heq
      exact .inr ⟨he, value_eq_some.mpr hp⟩
  · rintro (⟨rfl, rfl⟩ | ⟨he, hx⟩)
    · exact ⟨(e', v), value_eq_some.mp h, if_pos rfl⟩
    · exact ⟨(e', x), value_eq_some.mp hx, if_neg he⟩

/-- Pushing adds one element. -/
theorem value_pushFront {l : LinkedList α} {e : ℕ} {v w : α} :
    (l.pushFront v).2.value e = some w ↔ (e = l.fresh ∧ w = v) ∨ l.value e = some w := by
  rw [value_eq_some, value_eq_some, pushFront, List.mem_cons, Prod.mk.injEq]

/-- Moving only reorders. -/
theorem perm_moveToFront {l : LinkedList α} {e : ℕ} {v : α} (h : l.value e = some v) :
    (l.moveToFront e).values.Perm l.values := by
  refine List.Perm.map _ ?_
  -- the two lists have the same elements, and none twice
  refine (List.perm_ext_iff_of_nodup (l.moveToFront e).nodup.of_map l.nodup.of_map).mpr ?_
  intro p
  exact value_eq_some.symm.trans ((value_moveToFront h).trans value_eq_some)

/-! ## Values told apart by a key

Where every element has its own key, removing an element is filtering its key out, and
setting its value is mapping over the values. -/

section Key
variable {β : Type} {f : α → β} {l : LinkedList α} {e : ℕ} {v : α}

/-- Where no two values have one key, the key of its value tells an element from the others. -/
theorem element_eq_iff (hf : (l.values.map f).Nodup) (h : l.value e = some v) {p : ℕ × α}
    (hp : p ∈ l.elements) : p.1 = e ↔ f p.2 = f v := by
  have hev := value_eq_some.mp h
  constructor
  · intro he
    rw [List.inj_on_of_nodup_map l.nodup hp hev he]
  · intro hkey
    rw [values, List.map_map] at hf
    rw [List.inj_on_of_nodup_map hf hp hev hkey]

variable [DecidableEq β]

/-- Removing an element filters its key out. -/
theorem values_remove (hf : (l.values.map f).Nodup) (h : l.value e = some v) :
    (l.remove e).values = l.values.filter (fun w => decide (f w ≠ f v)) := by
  rw [values, values, remove, List.filter_map]
  refine congrArg (List.map Prod.snd) (List.filter_congr (fun p hp => ?_))
  have := element_eq_iff hf h hp
  rw [Bool.eq_iff_iff]
  simp [this]

/-- Moving it puts its value in front of the others. -/
theorem values_moveToFront (hf : (l.values.map f).Nodup) (h : l.value e = some v) :
    (l.moveToFront e).values = v :: l.values.filter (fun w => decide (f w ≠ f v)) := by
  rw [← values_remove hf h, values, elements_moveToFront h]
  rfl

/-- Setting its value replaces the value of its key. -/
theorem values_setValue (hf : (l.values.map f).Nodup) (h : l.value e = some v) (w : α) :
    (l.setValue e w).values = l.values.map (fun x => if f x = f v then w else x) := by
  rw [values, values, setValue, List.map_map, List.map_map]
  refine List.map_congr_left (fun p hp => ?_)
  have := element_eq_iff hf h hp
  simp only [Function.comp_apply]
  by_cases he : p.1 = e
  · rw [if_pos he, if_pos (this.mp he)]
  · rw [if_neg he, if_neg (fun hkey => he (this.mpr hkey))]

/-- A value changed for one with its key. -/
theorem map_setValue (hf : (l.values.map f).Nodup) (h : l.value e = some v) {w : α}
    (hw : f w = f v) : (l.setValue e w).values.map f = l.values.map f := by
  rw [values_setValue hf h, List.map_map]
  refine List.map_congr_left (fun x _ => ?_)
  simp only [Function.comp_apply]
  split
  · rename_i hx
    rw [hw, hx]
  · rfl

end Key

/-- The element at the back has the last of the values. -/
theorem back_eq {l : LinkedList α} {init : List α} {last : α} (h : l.values = init ++ [last]) :
    ∃ e, l.back = some e ∧ l.value e = some last := by
  obtain ⟨es, ps, helems, -, hlast⟩ := List.map_eq_append_iff.mp h
  obtain ⟨p, hp, rfl⟩ := List.map_eq_singleton_iff.mp hlast
  subst hp
  refine ⟨p.1, ?_, value_eq_some.mpr ?_⟩
  · simp [back, helems]
  · rw [helems]
    simp

end LinkedList
