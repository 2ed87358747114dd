/-
  Machines that answer: a step takes a state and an input to an answer and a next state.

  A run is a list of inputs.  `exec` is the state it ends in, `events` the inputs with their
  answers, and `Guarded ok` says that every input met the condition `ok` in the state it found —
  the way to speak of "every run in which …".  Everything is executable, so a concrete run can be
  evaluated.

  The one induction is `history_rule`: what is kept by a step, about the events so far AND the
  state, holds after every guarded run.  A state reached along a run is the end of a shorter run,
  so a statement about `exec` of every run is a statement about every state reached.

  LOOPS THAT BREAK are the machines without inputs: a `for` without a condition, whose body goes on
  with a new state or breaks with a result.  `Loop.run body fuel` is the loop cut off after `fuel`
  rounds.  A measure that every round lowers gives the number of rounds after which the loop has
  ended (`run_ends`); what the rounds keep holds when it breaks (`run_rule`).
-/
import Mathlib.Data.List.Basic

namespace Machine

variable {S I O : Type*} (step : S → I → O × S)

/-- The state a run ends in. -/
def exec : S → List I → S
  | s, [] => s
  | s, i :: is => exec (step s i).2 is

/-- The inputs of a run with their answers, in order. -/
def events : S → List I → List (I × O)
  | _, [] => []
  | s, i :: is => (i, (step s i).1) :: events (step s i).2 is

/-- Every input of the run meets `ok` in the state it finds. -/
def Guarded (ok : S → I → Prop) : S → List I → Prop
  | _, [] => True
  | s, i :: is => ok s i ∧ Guarded ok (step s i).2 is

instance decidableGuarded {ok : S → I → Prop} [∀ s i, Decidable (ok s i)] :
    ∀ s is, Decidable (Guarded step ok s is)
  | _, [] => isTrue trivial
  | s, i :: is =>
    have : Decidable (Guarded step ok (step s i).2 is) := decidableGuarded (step s i).2 is
    inferInstanceAs (Decidable (ok s i ∧ Guarded step ok (step s i).2 is))

variable {step}

/-- One event for each input. -/
@[simp] theorem length_events (s : S) (is : List I) :
    (events step s is).length = is.length := by
  induction is generalizing s with
  | nil => rfl
  | cons i is ih => simp [events, ih]

/-- The events are those of the inputs. -/
@[simp] theorem map_fst_events (s : S) (is : List I) :
    (events step s is).map Prod.fst = is := by
  induction is generalizing s with
  | nil => rfl
  | cons i is ih => simp [events, ih]

/-- A run of two parts ends where the second ends. -/
theorem exec_append (s : S) (is js : List I) :
    exec step s (is ++ js) = exec step (exec step s is) js := by
  induction is generalizing s with
  | nil => rfl
  | cons i is ih => exact ih _

/-- A run of two parts has the events of both. -/
theorem events_append (s : S) (is js : List I) :
    events step s (is ++ js) = events step s is ++ events step (exec step s is) js := by
  induction is generalizing s with
  | nil => rfl
  | cons i is ih => exact congrArg _ (ih _)

/-- A run is guarded exactly if its first part is, and its second part from there. -/
theorem guarded_append {ok : S → I → Prop} {s : S} {is js : List I} :
    Guarded step ok s (is ++ js) ↔ Guarded step ok s is ∧ Guarded step ok (exec step s is) js := by
  induction is generalizing s with
  | nil => simp [Guarded, exec]
  | cons i is ih => exact (and_congr_right' ih).trans and_assoc.symm

/-- A run that is not guarded has a first input that breaks the condition. -/
theorem exists_of_not_guarded {ok : S → I → Prop} {s : S} {is : List I}
    (h : ¬ Guarded step ok s is) :
    ∃ before i after, is = before ++ i :: after ∧ ¬ ok (exec step s before) i := by
  induction is generalizing s with
  | nil => exact absurd trivial h
  | cons i is ih =>
    by_cases hi : ok s i
    · obtain ⟨before, j, after, rfl, hj⟩ := ih (fun hrest => h ⟨hi, hrest⟩)
      exact ⟨i :: before, j, after, rfl, hj⟩
    · exact ⟨[], i, is, rfl, hi⟩

/-- A condition on the inputs alone. -/
theorem guarded_of_forall {ok : I → Prop} {is : List I} (h : ∀ i ∈ is, ok i) (s : S) :
    Guarded step (fun _ i => ok i) s is := by
  induction is generalizing s with
  | nil => trivial
  | cons i is ih =>
    exact ⟨h i List.mem_cons_self, ih (fun j hj => h j (List.mem_cons_of_mem _ hj)) _⟩

/-- Without a condition every run is guarded. -/
theorem guarded_true (step : S → I → O × S) (s : S) (is : List I) :
    Guarded step (fun _ _ => True) s is :=
  guarded_of_forall (fun _ _ => trivial) s

/-- **Induction along a run**, over the events so far and the state they lead to. -/
theorem history_rule {ok : S → I → Prop} {P : List (I × O) → S → Prop}
    (hstep : ∀ h s i, ok s i → P h s → P (h ++ [(i, (step s i).1)]) (step s i).2)
    {s : S} {is : List I} (hok : Guarded step ok s is) (hinit : P [] s) :
    P (events step s is) (exec step s is) := by
  -- the history is generalized: the run goes on from any events that led to `s`
  suffices h : ∀ is h s, Guarded step ok s is → P h s →
      P (h ++ events step s is) (exec step s is) by
    simpa using h is [] s hok hinit
  intro is
  induction is with
  | nil =>
    intro h s _ hP
    simpa [events, exec] using hP
  | cons i is ih =>
    intro h s hok hP
    have := ih _ _ hok.2 (hstep h s i hok.1 hP)
    simpa [events, exec] using this

/-- An invariant of the state alone. -/
theorem invariant_rule {ok : S → I → Prop} {P : S → Prop}
    (hstep : ∀ s i, ok s i → P s → P (step s i).2) {s : S} {is : List I}
    (hok : Guarded step ok s is) (hinit : P s) : P (exec step s is) :=
  history_rule (P := fun _ s => P s) (fun _ s i hi hs => hstep s i hi hs) hok hinit

/-- Two conditions that say the same where an invariant holds, and keep it. -/
theorem guarded_congr {P : S → Prop} {dom : I → Prop} {ok ok' : S → I → Prop}
    (hstep : ∀ s i, dom i → P s → (ok s i ↔ ok' s i) ∧ (ok' s i → P (step s i).2)) {s : S}
    {is : List I} (hdom : ∀ i ∈ is, dom i) (hinit : P s) :
    Guarded step ok s is ↔ Guarded step ok' s is := by
  induction is generalizing s with
  | nil => exact Iff.rfl
  | cons i is ih =>
    obtain ⟨hiff, hkeeps⟩ := hstep s i (hdom i List.mem_cons_self) hinit
    have hrest : ∀ j ∈ is, dom j := fun j hj => hdom j (List.mem_cons_of_mem _ hj)
    exact (and_congr_left' hiff).trans (and_congr_right (fun hok => ih hrest (hkeeps hok)))

/-- Along a run, one choice per input, each allowed in the state its input finds. -/
def Chosen (step : S → I → O × S) {J : Type*} (allowed : S → I → J → Prop) :
    S → List I → List J → Prop
  | _, [], [] => True
  | s, i :: is, j :: js => allowed s i j ∧ Chosen step allowed (step s i).2 is js
  | _, _, _ => False

/-- **Simulation** by a second machine, whose input is chosen as one goes along: its answers tell
    the first one's, and a relation between the states is kept. -/
theorem simulation_rule {T J P : Type*} {step' : T → J → P × T} {ok : S → I → Prop}
    {allowed : S → I → J → Prop} {R : S → T → Prop} (phrase : I → P → O)
    (hstep : ∀ s t i, ok s i → R s t → ∃ j, allowed s i j ∧
      (step s i).1 = phrase i (step' t j).1 ∧ R (step s i).2 (step' t j).2)
    {s : S} {t : T} {is : List I} (hok : Guarded step ok s is) (h : R s t) :
    ∃ js, Chosen step allowed s is js ∧
      (events step s is).map Prod.snd = List.zipWith phrase is ((events step' t js).map Prod.snd) ∧
      R (exec step s is) (exec step' t js) := by
  induction is generalizing s t with
  | nil => exact ⟨[], trivial, rfl, h⟩
  | cons i is ih =>
    obtain ⟨j, hallowed, hanswer, hnext⟩ := hstep s t i hok.1 h
    obtain ⟨js, hchosen, hrest, hend⟩ := ih hok.2 hnext
    refine ⟨j :: js, ⟨hallowed, hchosen⟩, ?_, hend⟩
    simp only [events, List.map_cons, List.zipWith_cons_cons]
    rw [hanswer, hrest]

/-- **Unwinding**: a relation between two states that a hidden input keeps by moving the first
    alone, and any other input by moving both to one answer.  The run without its hidden inputs
    then has the events the run has without them.  Each of the two runs may have a condition. -/
theorem purge_rule {ok ok' : S → I → Prop} (hidden : I → Prop) [DecidablePred hidden]
    {R : S → S → Prop} (hhidden : ∀ s t i, hidden i → ok s i → R s t → R (step s i).2 t)
    (hvisible : ∀ s t i, ¬ hidden i → ok s i → ok' t i → R s t →
      (step t i).1 = (step s i).1 ∧ R (step s i).2 (step t i).2)
    {s t : S} {is : List I} (hok : Guarded step ok s is)
    (hok' : Guarded step ok' t (is.filter (fun i => ¬ hidden i))) (h : R s t) :
    (events step s is).filter (fun e => ¬ hidden e.1) =
      events step t (is.filter (fun i => ¬ hidden i)) := by
  induction is generalizing s t with
  | nil => rfl
  | cons i is ih =>
    by_cases hi : hidden i
    · rw [List.filter_cons_of_neg (by simp [hi])] at hok' ⊢
      have hrest := ih hok.2 hok' (hhidden s t i hi hok.1 h)
      simpa [events, hi] using hrest
    · rw [List.filter_cons_of_pos (by simp [hi])] at hok' ⊢
      obtain ⟨hanswer, hnext⟩ := hvisible s t i hi hok.1 hok'.1 h
      have hrest := ih hok.2 hok'.2 hnext
      simpa [events, hi, hanswer] using hrest

end Machine

namespace Loop

variable {S R : Type*} {body : S → S ⊕ R}

/-- At most `fuel` rounds of a loop whose body ends it with a result or goes on with a state. -/
def run (body : S → S ⊕ R) : ℕ → S → Option R
  | 0, _ => none
  | fuel + 1, s =>
    match body s with
    | .inl s' => run body fuel s'
    | .inr r => some r

/-- A round that goes on leaves the rest to the others. -/
theorem run_inl {fuel : ℕ} {s s' : S} (h : body s = .inl s') :
    run body (fuel + 1) s = run body fuel s' := by
  rw [run, h]

/-- A round that ends the loop gives its result. -/
theorem run_inr {fuel : ℕ} {s : S} {r : R} (h : body s = .inr r) :
    run body (fuel + 1) s = some r := by
  rw [run, h]

/-- **The loop ends**: every round lowers the measure. -/
theorem run_ends (rank : S → ℕ) (hbody : ∀ s s', body s = .inl s' → rank s' < rank s) {fuel : ℕ}
    {s : S} (hfuel : rank s < fuel) : ∃ r, run body fuel s = some r := by
  induction fuel generalizing s with
  | zero => omega
  | succ fuel ih =>
    cases h : body s with
    | inr r => exact ⟨r, run_inr h⟩
    | inl s' =>
      have hless := hbody s s' h
      rw [run_inl h]
      apply ih
      omega

/-- **What holds at a break**, from what every round keeps. -/
theorem run_rule {P : S → Prop} {Q : R → Prop} (hround : ∀ s s', P s → body s = .inl s' → P s')
    (hbreak : ∀ s r, P s → body s = .inr r → Q r) {fuel : ℕ} {s : S} {r : R}
    (hrun : run body fuel s = some r) (hs : P s) : Q r := by
  induction fuel generalizing s with
  | zero => cases hrun
  | succ fuel ih =>
    cases h : body s with
    | inr r' =>
      rw [run_inr h] at hrun
      obtain rfl := Option.some.inj hrun
      exact hbreak s r' hs h
    | inl s' =>
      rw [run_inl h] at hrun
      exact ih hrun (hround s s' hs h)

end Loop
