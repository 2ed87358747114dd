/-
  LRU MAPS WITH EXPIRY, and the list that implements one.

  A bounded map from keys to values that may expire.  The specification (`State`, `Step`) is a map
  with the TICK of each key's last use: adding a key and finding it are uses.  An entry leaves the
  map when it is removed, when it is found expired, or when a new key is added to a full map; then
  it is the least recently used entry that goes.

  `Listed` says that a list, most recent first, holds exactly such a map.  The lemmas under it are
  the list operations that implement the map's: to the front, drop the last, take out, change in
  place.

  The abstract map has no order of its own: recency is a number for each key, so that "least
  recently used" can be said without the list.  `Listed` is the abstraction relation, and each of
  its lemmas carries it through one operation; an implementation then simulates `Step` by naming the
  rule that applies.
-/
import Mathlib.Data.List.Nodup
import Mathlib.Data.Set.Card

namespace Lru

open Function

variable {K V T : Type*}

/-! ## The map -/

/-- What each key holds, the tick of its last use, and the next tick. -/
structure State (K V : Type*) where
  entry : K → Option V
  used : K → ℕ
  tick : ℕ

/-- Nothing held, nothing used. -/
def empty : State K V := ⟨fun _ => none, fun _ => 0, 0⟩

namespace State

/-- The keys that hold something. -/
def keys (s : State K V) : Set K := {k | s.entry k ≠ none}

/-- How many they are. -/
noncomputable def size (s : State K V) : ℕ := s.keys.ncard

/-- The key that was used before all others. -/
structure Oldest (s : State K V) (k : K) : Prop where
  held : k ∈ s.keys
  least : ∀ k' ∈ s.keys, s.used k ≤ s.used k'

variable [DecidableEq K]

/-- The key holds `v` and has just been used. -/
def put (s : State K V) (k : K) (v : V) : State K V :=
  ⟨update s.entry k (some v), update s.used k s.tick, s.tick + 1⟩

/-- The key holds nothing; that it was used stays on record. -/
def erase (s : State K V) (k : K) : State K V := { s with entry := update s.entry k none }

/-- What the key holds changes, which is no use of it. -/
def modify (s : State K V) (k : K) (f : V → V) : State K V :=
  { s with entry := update s.entry k ((s.entry k).map f) }

end State

/-- The operations. `update` changes a value in place. -/
inductive Op (K V T : Type*) where
  | add (k : K) (v : V)
  | get (k : K) (now : T)
  | remove (k : K)
  | update (k : K) (f : V → V)

/-- What they answer: whether the key was held, what was found, or nothing. -/
inductive Answer (V : Type*) where
  | existed (b : Bool)
  | found (v : Option V)
  | done
  deriving DecidableEq

/-- **What an LRU map does**, one rule for each way an operation can go. -/
inductive Step [DecidableEq K] (expired : V → T → Prop) (capacity : ℕ) (s : State K V) :
    Op K V T → Answer V → State K V → Prop
  | replaced {k : K} {v : V} (held : k ∈ s.keys) :
      Step expired capacity s (.add k v) (.existed true) (s.put k v)
  | inserted {k : K} {v : V} (absent : k ∉ s.keys) (room : s.size < capacity) :
      Step expired capacity s (.add k v) (.existed false) (s.put k v)
  -- the capacity counts before the new entry goes in, and exactly one entry makes room for it
  | evicted {k old : K} {v : V} (absent : k ∉ s.keys) (full : s.size = capacity)
      (oldest : s.Oldest old) :
      Step expired capacity s (.add k v) (.existed false) ((s.erase old).put k v)
  | hit {k : K} {v : V} {now : T} (held : s.entry k = some v) (live : ¬ expired v now) :
      Step expired capacity s (.get k now) (.found (some v)) (s.put k v)
  | expired {k : K} {v : V} {now : T} (held : s.entry k = some v) (dead : expired v now) :
      Step expired capacity s (.get k now) (.found none) (s.erase k)
  | missed {k : K} {now : T} (absent : k ∉ s.keys) :
      Step expired capacity s (.get k now) (.found none) s
  | removed {k : K} : Step expired capacity s (.remove k) .done (s.erase k)
  | updated {k : K} {f : V → V} (held : k ∈ s.keys) :
      Step expired capacity s (.update k f) (.existed true) (s.modify k f)
  -- an update of a key that is not held does not add it
  | ignored {k : K} {f : V → V} (absent : k ∉ s.keys) :
      Step expired capacity s (.update k f) (.existed false) s

/-- A run from the empty map: the operations with their answers, and the map at the end. -/
inductive Run [DecidableEq K] (expired : V → T → Prop) (capacity : ℕ) :
    List (Op K V T × Answer V) → State K V → Prop
  | start : Run expired capacity [] empty
  | step {h : List (Op K V T × Answer V)} {s s' : State K V} {op : Op K V T} {a : Answer V}
      (run : Run expired capacity h s) (last : Step expired capacity s op a s') :
      Run expired capacity (h ++ [(op, a)]) s'

/-! ## The list

The order of the list is the order of the ticks, newest first, and no two entries have the same
tick. -/

/-- The list holds the map's entries, each once, most recently used first. -/
structure Listed (key : V → K) (items : List V) (s : State K V) : Prop where
  nodup : (items.map key).Nodup
  entry : ∀ k v, s.entry k = some v ↔ v ∈ items ∧ key v = k
  recent : items.Pairwise (fun a b => s.used (key b) < s.used (key a))
  past : ∀ v ∈ items, s.used (key v) < s.tick

section Listed
variable {key : V → K} {items : List V} {s : State K V}

/-- The empty list is the empty map. -/
theorem listed_empty : Listed key [] (empty : State K V) :=
  ⟨List.nodup_nil, by simp [empty], List.Pairwise.nil, by simp⟩

/-- The keys of the map are those of the list. -/
theorem Listed.mem_keys (h : Listed key items s) {k : K} :
    k ∈ s.keys ↔ ∃ v ∈ items, key v = k := by
  show s.entry k ≠ none ↔ _
  rw [Option.ne_none_iff_exists']
  constructor
  · rintro ⟨v, hv⟩
    exact ⟨v, (h.entry k v).mp hv⟩
  · rintro ⟨v, hv⟩
    exact ⟨v, (h.entry k v).mpr hv⟩

/-- Each entry is in the list once, so lengths agree. -/
theorem Listed.size (h : Listed key items s) : s.size = items.length := by
  classical
  have hkeys : s.keys = ((items.map key).toFinset : Set K) := by
    ext k
    rw [h.mem_keys]
    simp
  rw [State.size, hkeys, Set.ncard_coe_finset, List.toFinset_card_of_nodup h.nodup,
    List.length_map]

/-- The last of the list is the oldest of the map. -/
theorem Listed.oldest {init : List V} {last : V} (h : Listed key (init ++ [last]) s) :
    s.Oldest (key last) := by
  constructor
  · exact h.mem_keys.mpr ⟨last, by simp, rfl⟩
  · intro k' hk'
    obtain ⟨v, hv, rfl⟩ := h.mem_keys.mp hk'
    rcases List.mem_append.mp hv with hv | hv
    · exact le_of_lt ((List.pairwise_append.mp h.recent).2.2 v hv last (by simp))
    · rw [List.mem_singleton.mp hv]

variable [DecidableEq K]

/-- Taken out by its key. -/
theorem Listed.erase (h : Listed key items s) (k : K) :
    Listed key (items.filter (fun v => decide (key v ≠ k))) (s.erase k) := by
  constructor
  · exact (List.filter_sublist.map key).nodup h.nodup
  · -- of the key itself nothing is left, of another key what was there
    intro k' v
    by_cases hk : k' = k
    · subst hk
      simp only [State.erase, update_self, List.mem_filter, decide_eq_true_eq]
      constructor
      · intro hnone
        cases hnone
      · rintro ⟨⟨-, hne⟩, heq⟩
        exact absurd heq hne
    · simp only [State.erase, update_of_ne hk, List.mem_filter, decide_eq_true_eq, h.entry]
      constructor
      · rintro ⟨hv, rfl⟩
        exact ⟨⟨hv, hk⟩, rfl⟩
      · rintro ⟨⟨hv, -⟩, heq⟩
        exact ⟨hv, heq⟩
  · exact h.recent.sublist List.filter_sublist
  · intro v hv
    exact h.past v (List.mem_of_mem_filter hv)

/-- To the front: the value is new, or the key is used again. -/
theorem Listed.put (h : Listed key items s) (v : V) :
    Listed key (v :: items.filter (fun w => decide (key w ≠ key v))) (s.put (key v) v) := by
  have hrest : ∀ w ∈ items.filter (fun w => decide (key w ≠ key v)),
      w ∈ items ∧ key w ≠ key v := by
    intro w hw
    simpa using List.mem_filter.mp hw
  have hused : ∀ w, key w ≠ key v → (s.put (key v) v).used (key w) = s.used (key w) := by
    intro w hw
    exact update_of_ne hw ..
  -- no key twice, the same entries, the newest first, and no tick to come
  constructor
  · rw [List.map_cons, List.nodup_cons]
    refine ⟨fun hmem => ?_, (h.erase (key v)).nodup⟩
    obtain ⟨w, hw, heq⟩ := List.mem_map.mp hmem
    exact (hrest w hw).2 heq
  · intro k w
    by_cases hk : k = key v
    · subst hk
      simp only [State.put, update_self, Option.some.injEq, List.mem_cons]
      constructor
      · rintro rfl
        exact ⟨.inl rfl, rfl⟩
      · rintro ⟨rfl | hw, heq⟩
        · rfl
        · exact absurd heq (hrest w hw).2
    · have herase := (h.erase (key v)).entry k w
      simp only [State.erase, update_of_ne hk] at herase
      simp only [State.put, update_of_ne hk, List.mem_cons, herase]
      constructor
      · rintro ⟨hw, heq⟩
        exact ⟨.inr hw, heq⟩
      · rintro ⟨rfl | hw, heq⟩
        · exact absurd heq.symm hk
        · exact ⟨hw, heq⟩
  · -- the tick of the new entry is later than all before it
    refine List.pairwise_cons.mpr ⟨fun w hw => ?_, ?_⟩
    · rw [hused w (hrest w hw).2]
      simp only [State.put, update_self]
      exact h.past w (hrest w hw).1
    · refine List.Pairwise.imp_of_mem ?_ (h.erase (key v)).recent
      intro a b ha hb hab
      rw [hused a (hrest a ha).2, hused b (hrest b hb).2]
      exact hab
  · intro w hw
    rcases List.mem_cons.mp hw with rfl | hw
    · simp [State.put]
    · rw [hused w (hrest w hw).2]
      exact Nat.lt_succ_of_lt (h.past w (hrest w hw).1)

/-- In place: the values of one key change and keep their key. -/
theorem Listed.modify (h : Listed key items s) (k : K) {f : V → V} (hf : ∀ v, key (f v) = key v) :
    Listed key (items.map (fun v => if key v = k then f v else v)) (s.modify k f) := by
  have hkey : ∀ v, key (if key v = k then f v else v) = key v := by
    intro v
    split
    · exact hf v
    · rfl
  -- the keys are where they were, and so is the order
  have hmap : (items.map (fun v => if key v = k then f v else v)).map key = items.map key := by
    rw [List.map_map]
    exact List.map_congr_left (fun v _ => hkey v)
  constructor
  · rw [hmap]
    exact h.nodup
  · intro k' w
    simp only [List.mem_map]
    by_cases hk : k' = k
    · subst hk
      simp only [State.modify, update_self, Option.map_eq_some_iff, h.entry]
      constructor
      · rintro ⟨v, ⟨hv, hvk⟩, rfl⟩
        exact ⟨⟨v, hv, if_pos hvk⟩, (hf v).trans hvk⟩
      · rintro ⟨⟨v, hv, rfl⟩, hwk⟩
        rw [hkey] at hwk
        exact ⟨v, ⟨hv, hwk⟩, (if_pos hwk).symm⟩
    · simp only [State.modify, update_of_ne hk, h.entry]
      constructor
      · rintro ⟨hw, rfl⟩
        exact ⟨⟨w, hw, if_neg hk⟩, rfl⟩
      · rintro ⟨⟨v, hv, rfl⟩, hwk⟩
        rw [hkey] at hwk
        rw [if_neg (fun heq => hk (hwk.symm.trans heq))]
        exact ⟨hv, hwk⟩
  · rw [List.pairwise_map]
    refine h.recent.imp ?_
    intro a b hab
    rw [hkey, hkey]
    exact hab
  · intro w hw
    obtain ⟨v, hv, rfl⟩ := List.mem_map.mp hw
    rw [hkey]
    exact h.past v hv

/-- Taking out the last of the list by its key drops it and nothing else. -/
theorem filter_last {init : List V} {last : V} (h : ((init ++ [last]).map key).Nodup) :
    (init ++ [last]).filter (fun v => decide (key v ≠ key last)) = init := by
  rw [List.filter_append, List.filter_eq_self.mpr, List.filter_eq_nil_iff.mpr, List.append_nil]
  · intro v hv
    rw [List.mem_singleton.mp hv]
    simp
  · intro v hv
    rw [List.map_append, List.nodup_append] at h
    simpa using h.2.2 (key v) (List.mem_map_of_mem hv) (key last) (by simp)

/-- Using a key that is held makes the map no larger. -/
theorem size_put_of_mem {k : K} (h : k ∈ s.keys) (v : V) : (s.put k v).size = s.size := by
  have hkeys : (s.put k v).keys = s.keys := by
    ext k'
    by_cases hk : k' = k
    · subst hk
      exact iff_of_true (by simp [State.keys, State.put]) h
    · simp [State.keys, State.put, update_of_ne hk]
  rw [State.size, State.size, hkeys]

end Listed

end Lru
