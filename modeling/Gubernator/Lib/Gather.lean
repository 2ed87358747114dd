/-
  SCATTER AND GATHER: jobs done by goroutines, at most so many at a time, whose results a collector
  stores at the index of the job.

      size      a semaphore: a slot is taken before a goroutine is started, and given back at the
                end;
      results   a channel without buffer, so a send is also the collector's receipt;
      the end   the caller takes ALL the slots, so that no goroutine is left, closes the channel,
                and waits for the collector to have come to the end of it.

  What a job does is a PROGRAM: a local state, and steps that change it together with something
  shared.  Others change what is shared, too (the environment), and the jobs run interleaved with
  each other and with them.

  A program is verified by itself, the way of rely and guarantee (`Verified`):

      inv, holds    what is true of the shared state, and of a job at its local state;
      step          a job keeps `inv` and its own assertion, and does not touch the assertion of
                    ANY OTHER job;
      environment   neither do others;
      load, weight  a number for the shared state and one for each local state; a step lowers the
                    sum, so a job may leave work to the environment but not make more of it;
      goes_on       a job without a result can take a step, or the environment can.

  `gathers` puts it together: every run ends, every job has given one result, that result is stored
  at its index, and the job's assertion still holds of it at the end.  The load-bearing part is
  stability.  A job that has given its result takes no more steps, so only the second half of `step`
  and `environment` carry its assertion through to the return of the call.
-/
import Mathlib.Data.List.Range
import Mathlib.Data.List.Nodup
import Mathlib.Logic.Relation
import Gubernator.Lib.Interleaving

namespace Gather

open Interleaving

variable {S J R : Type*}

/-! ## Programs

A step of a program is a relation, so that what a job reads of the shared state can be anything that
others left there. -/

/-- What a goroutine runs: where it starts, what it can do at an index, and the result it has come
    to, if any. -/
structure Program (S J R : Type*) where
  begin : J
  step : ℕ → S → J → S → J → Prop
  result : J → Option R

/-- **A program verified by itself**, among `n` jobs and an environment. -/
structure Verified (P : Program S J R) (env : S → S → Prop) (n : ℕ) where
  /-- what is always true of the shared state -/
  inv : S → Prop
  /-- what is true of the job at an index, in a shared and a local state -/
  holds : ℕ → S → J → Prop
  /-- the work the shared state holds for the environment -/
  load : S → ℕ
  /-- the work a local state has before it -/
  weight : J → ℕ
  step {i : ℕ} {s s' : S} {j j' : J} : inv s → i < n → holds i s j → P.step i s j s' j' →
    inv s' ∧ holds i s' j' ∧ (∀ k, k < n → k ≠ i → ∀ l, holds k s l → holds k s' l) ∧
      weight j' + load s' < weight j + load s
  environment {s s' : S} : inv s → env s s' →
    inv s' ∧ (∀ k, k < n → ∀ l, holds k s l → holds k s' l) ∧ load s' < load s
  goes_on {i : ℕ} {s : S} {j : J} : inv s → i < n → holds i s j → P.result j = none →
    (∃ s' j', P.step i s j s' j') ∨ ∃ s', env s s'

/-! ## A call under way

Three parties: the caller, the goroutines, and the collector.  Any of them can be the next to move,
so a call is a relation and not a function. -/

/-- A goroutine. -/
inductive Job (J : Type*) where
  | working (j : J)
  /-- about to give its slot back -/
  | finished

/-- The caller. -/
inductive Caller where
  | launching
  /-- has taken so many of the slots -/
  | acquiring (k : ℕ)
  | closed
  | returned

/-- The collector, which reads one result at a time. -/
inductive Collector (R : Type*) where
  | reading
  | storing (i : ℕ) (r : R)
  | finished

/-- A call under way.  `given` are the results sent so far. -/
structure Gathering (S J R : Type*) where
  shared : S
  /-- the index of the next job to launch -/
  next : ℕ := 0
  caller : Caller := .launching
  jobs : List (ℕ × Job J) := []
  collector : Collector R := .reading
  stored : List (Option R)
  given : List (ℕ × R) := []

/-- A call before its first job. -/
def start (J R : Type*) (n : ℕ) (shared : S) : Gathering S J R :=
  { shared, stored := List.replicate n none }

/-- **One step of a call**: by its caller, a goroutine, the collector or the environment. -/
inductive Step (P : Program S J R) (env : S → S → Prop) (n size : ℕ) :
    Gathering S J R → Gathering S J R → Prop
  /-- a slot is taken first, so there is none for a job when all are in use -/
  | launch {s : Gathering S J R} : s.caller = .launching → s.next < n → s.jobs.length < size →
      Step P env n size s
        { s with next := s.next + 1, jobs := s.jobs ++ [(s.next, .working P.begin)] }
  /-- no job is left to launch -/
  | launched {s : Gathering S J R} : s.caller = .launching → s.next = n →
      Step P env n size s { s with caller := .acquiring 0 }
  | work {s : Gathering S J R} {k i : ℕ} {j j' : J} {after : S} :
      s.jobs[k]? = some (i, .working j) → P.step i s.shared j after j' →
      Step P env n size s { s with shared := after, jobs := s.jobs.set k (i, .working j') }
  | environment {s : Gathering S J R} {after : S} : env s.shared after →
      Step P env n size s { s with shared := after }
  /-- without a buffer, a job can send only to a collector that is reading -/
  | send {s : Gathering S J R} {k i : ℕ} {j : J} {r : R} : s.jobs[k]? = some (i, .working j) →
      P.result j = some r → s.collector = .reading →
      Step P env n size s { s with
        jobs := s.jobs.set k (i, .finished)
        collector := .storing i r
        given := s.given ++ [(i, r)] }
  | store {s : Gathering S J R} {i : ℕ} {r : R} : s.collector = .storing i r →
      Step P env n size s { s with stored := s.stored.set i (some r), collector := .reading }
  | release {s : Gathering S J R} {k i : ℕ} : s.jobs[k]? = some (i, .finished) →
      Step P env n size s { s with jobs := s.jobs.eraseIdx k }
  /-- the caller takes one slot after another, as the goroutines give them back -/
  | acquire {s : Gathering S J R} {k : ℕ} : s.caller = .acquiring k → k + s.jobs.length < size →
      Step P env n size s { s with caller := .acquiring (k + 1) }
  | close {s : Gathering S J R} : s.caller = .acquiring size →
      Step P env n size s { s with caller := .closed }
  /-- the collector finds the channel closed -/
  | finish {s : Gathering S J R} : s.caller = .closed → s.collector = .reading →
      Step P env n size s { s with collector := .finished }
  | return {s : Gathering S J R} : s.caller = .closed → s.collector = .finished →
      Step P env n size s { s with caller := .returned }

/-! ## What a call keeps

Every job that was launched either works or has given its result, once; a result that was given is
with the collector or stored.  The slots of the caller and of the goroutines together are within the
semaphore, so when the caller has all of them no goroutine is left. -/

/-- The slots the caller holds. -/
def Caller.slots (size : ℕ) : Caller → ℕ
  | launching => 0
  | acquiring k => k
  | closed => size
  | returned => size

/-- The steps the caller has left. -/
def Caller.rank (size : ℕ) : Caller → ℕ
  | launching => size + 4
  | acquiring k => size - k + 3
  | closed => 2
  | returned => 0

/-- The steps the collector has left, with a result in its hands or without. -/
def Collector.rank : Collector R → ℕ
  | reading => 1
  | storing _ _ => 2
  | finished => 0

/-- The work a job has left: its program's, the sending, the collector's storing, and the release.
    -/
def Job.rank (weight : J → ℕ) : Job J → ℕ
  | working j => weight j + 3
  | finished => 1

/-- The jobs that have not given a result. -/
def atWork (jobs : List (ℕ × Job J)) : List ℕ :=
  jobs.filterMap (fun p => match p.2 with
    | .working _ => some p.1
    | .finished => none)

section Steps
variable {P : Program S J R} {env : S → S → Prop} {n size : ℕ} {V : Verified P env n}
  {s t : Gathering S J R}

/-- A bound on the steps left. A job not launched yet counts as one that begins, and the step that
    launches it. -/
def rank (V : Verified P env n) (size : ℕ) (s : Gathering S J R) : ℕ :=
  V.load s.shared + (V.weight P.begin + 4) * (n - s.next) +
    (s.jobs.map (fun p => p.2.rank V.weight)).sum + s.caller.rank size + s.collector.rank

/-- **The invariant.** -/
structure Sound (V : Verified P env n) (size : ℕ) (s : Gathering S J R) : Prop where
  next_le : s.next ≤ n
  all : s.caller ≠ .launching → s.next = n
  slots : s.jobs.length + s.caller.slots size ≤ size
  length : s.stored.length = n
  inv : V.inv s.shared
  /-- every job launched has given a result once, or will -/
  once : (s.given.map Prod.fst ++ atWork s.jobs).Perm (List.range s.next)
  working : ∀ i j, (i, Job.working j) ∈ s.jobs → V.holds i s.shared j
  unlaunched : ∀ i, s.next ≤ i → i < n → V.holds i s.shared P.begin
  gave : ∀ i r, (i, r) ∈ s.given → ∃ j, P.result j = some r ∧ V.holds i s.shared j
  /-- a result is with the collector, or stored -/
  kept : ∀ i r, (i, r) ∈ s.given ↔ s.collector = .storing i r ∨ s.stored[i]? = some (some r)
  ending : s.collector = .finished → s.caller = .closed ∨ s.caller = .returned
  ended : s.caller = .returned → s.collector = .finished

/-- The order of the jobs does not matter to who is at work. -/
theorem atWork_perm {jobs jobs' : List (ℕ × Job J)} (h : jobs.Perm jobs') :
    (atWork jobs).Perm (atWork jobs') := h.filterMap _

@[simp] theorem atWork_working (i : ℕ) (j : J) (jobs : List (ℕ × Job J)) :
    atWork ((i, .working j) :: jobs) = i :: atWork jobs := rfl

@[simp] theorem atWork_finished (i : ℕ) (jobs : List (ℕ × Job J)) :
    atWork ((i, .finished) :: jobs) = atWork jobs := rfl

/-- Results are given at indices of jobs. -/
theorem Sound.gave_lt (h : Sound V size s) {i : ℕ} {r : R} (hr : (i, r) ∈ s.given) : i < n := by
  have hmem : i ∈ List.range s.next :=
    h.once.mem_iff.mp (List.mem_append_left _ (List.mem_map_of_mem hr))
  exact (List.mem_range.mp hmem).trans_le h.next_le

/-- Jobs at work have indices of jobs. -/
theorem Sound.working_lt (h : Sound V size s) {i : ℕ} {j : J} (hj : (i, Job.working j) ∈ s.jobs) :
    i < n := by
  have hat : i ∈ atWork s.jobs := List.mem_filterMap.mpr ⟨_, hj, rfl⟩
  have hmem : i ∈ List.range s.next := h.once.mem_iff.mp (List.mem_append_right _ hat)
  exact (List.mem_range.mp hmem).trans_le h.next_le

/-- No job gives two results. -/
theorem Sound.unique (h : Sound V size s) {i : ℕ} {r r' : R} (hr : (i, r) ∈ s.given)
    (hr' : (i, r') ∈ s.given) : r = r' := by
  have hnodup : (s.given.map Prod.fst).Nodup :=
    (List.nodup_append.mp (h.once.nodup_iff.mpr List.nodup_range)).1
  exact (Prod.mk.inj (List.inj_on_of_nodup_map hnodup hr hr' rfl)).2

/-- The caller or the collector moves, and no result does. -/
theorem Sound.quiet (h : Sound V size s) {caller : Caller} {collector : Collector R}
    (hall : caller ≠ .launching → s.next = n) (hslots : s.jobs.length + caller.slots size ≤ size)
    (hway : ∀ i r, collector = .storing i r ↔ s.collector = .storing i r)
    (hending : collector = .finished → caller = .closed ∨ caller = .returned)
    (hended : caller = .returned → collector = .finished) :
    Sound V size { s with caller, collector } where
  next_le := h.next_le
  all := hall
  slots := hslots
  length := h.length
  inv := h.inv
  once := h.once
  working := h.working
  unlaunched := h.unlaunched
  gave := h.gave
  kept i r := by rw [h.kept i r, hway]
  ending := hending
  ended := hended

/-- A job takes a step of its program.  The other jobs, launched or not, working or finished, have
    another index, and their assertions are stable. -/
theorem Sound.works (h : Sound V size s) {k i : ℕ} {j j' : J} {after : S}
    (hj : s.jobs[k]? = some (i, .working j)) (hstep : P.step i s.shared j after j') :
    Sound V size { s with shared := after, jobs := s.jobs.set k (i, .working j') } ∧
      V.weight j' + V.load after < V.weight j + V.load s.shared := by
  have hmem := List.mem_of_getElem? hj
  obtain ⟨hinv, hown, hothers, hlower⟩ :=
    V.step h.inv (h.working_lt hmem) (h.working i j hmem) hstep
  obtain ⟨rest, hold, hnew⟩ := perm_move hj
  have hnew := hnew (i, .working j')
  have hbefore := atWork_perm hold
  have hafter := atWork_perm hnew
  rw [atWork_working] at hbefore hafter
  -- the indices of all jobs are distinct, so the others' are not `i`
  have hnodup : (s.given.map Prod.fst ++ i :: atWork rest).Nodup :=
    ((hbefore.append_left _).symm.trans h.once).nodup_iff.mpr List.nodup_range
  have hi : i ∈ List.range s.next :=
    h.once.mem_iff.mp (List.mem_append_right _ (hbefore.mem_iff.mpr List.mem_cons_self))
  refine ⟨⟨h.next_le, h.all, ?_, h.length, hinv, ?_, ?_, ?_, ?_, h.kept, h.ending, h.ended⟩, hlower⟩
  · rw [List.length_set]
    exact h.slots
  · exact ((hafter.trans hbefore.symm).append_left _).trans h.once
  · -- the jobs at work: this one, or one with another index
    intro i' l hl
    rcases List.mem_cons.mp (hnew.mem_iff.mp hl) with heq | hrest
    · obtain ⟨rfl, hworking⟩ := Prod.mk.inj heq
      obtain rfl := Job.working.inj hworking
      exact hown
    · have hold' : (i', Job.working l) ∈ s.jobs := hold.mem_iff.mpr (List.mem_cons_of_mem _ hrest)
      refine hothers i' (h.working_lt hold') ?_ l (h.working i' l hold')
      rintro rfl
      have hat : i' ∈ atWork rest := List.mem_filterMap.mpr ⟨_, hrest, rfl⟩
      exact (List.nodup_cons.mp (List.nodup_append.mp hnodup).2.1).1 hat
  · -- the jobs not launched, which come after it
    intro i' hle hlt
    refine hothers i' hlt ?_ _ (h.unlaunched i' hle hlt)
    rintro rfl
    exact absurd (List.mem_range.mp hi) (not_lt.mpr hle)
  · -- the jobs that have given a result
    intro i' r hr
    obtain ⟨l, hl, hholds⟩ := h.gave i' r hr
    refine ⟨l, hl, hothers i' (h.gave_lt hr) ?_ l hholds⟩
    rintro rfl
    exact (List.nodup_append.mp hnodup).2.2 i' (List.mem_map_of_mem hr) i' List.mem_cons_self rfl

/-- Others take a step. -/
theorem Sound.environment (h : Sound V size s) {after : S} (henv : env s.shared after) :
    Sound V size { s with shared := after } ∧ V.load after < V.load s.shared := by
  obtain ⟨hinv, hothers, hlower⟩ := V.environment h.inv henv
  refine ⟨⟨h.next_le, h.all, h.slots, h.length, hinv, h.once, ?_, ?_, ?_, h.kept, h.ending,
    h.ended⟩, hlower⟩
  · intro i j hj
    exact hothers i (h.working_lt hj) j (h.working i j hj)
  · intro i hle hlt
    exact hothers i hlt _ (h.unlaunched i hle hlt)
  · intro i r hr
    obtain ⟨j, hj, hholds⟩ := h.gave i r hr
    exact ⟨j, hj, hothers i (h.gave_lt hr) j hholds⟩

/-- A result is sent, and received by the collector. -/
theorem Sound.send (h : Sound V size s) {k i : ℕ} {j : J} {r : R}
    (hj : s.jobs[k]? = some (i, .working j)) (hr : P.result j = some r)
    (hreading : s.collector = .reading) :
    Sound V size { s with
      jobs := s.jobs.set k (i, .finished)
      collector := .storing i r
      given := s.given ++ [(i, r)] } := by
  have hmem := List.mem_of_getElem? hj
  obtain ⟨rest, hold, hnew⟩ := perm_move hj
  have hnew := hnew (i, .finished)
  have hbefore := atWork_perm hold
  have hafter := atWork_perm hnew
  rw [atWork_working] at hbefore
  rw [atWork_finished] at hafter
  refine ⟨h.next_le, h.all, ?_, h.length, h.inv, ?_, ?_, h.unlaunched, ?_, fun i' r' => ?_,
    fun hfin => (by cases hfin), fun hret => ?_⟩
  · rw [List.length_set]
    exact h.slots
  · -- the index moves from the jobs at work to the results given
    refine List.Perm.trans ?_ h.once
    rw [List.map_append, List.append_assoc]
    exact ((hafter.cons i).trans hbefore.symm).append_left _
  · intro i' l hl
    rcases List.mem_cons.mp (hnew.mem_iff.mp hl) with heq | hrest
    · cases (Prod.mk.inj heq).2
    · exact h.working i' l (hold.mem_iff.mpr (List.mem_cons_of_mem _ hrest))
  · intro i' r' hgiven
    rcases List.mem_append.mp hgiven with hgiven | hgiven
    · exact h.gave i' r' hgiven
    · obtain ⟨rfl, rfl⟩ := Prod.mk.inj (List.mem_singleton.mp hgiven)
      exact ⟨j, hr, h.working _ j hmem⟩
  · rw [List.mem_append, List.mem_singleton, h.kept, hreading, Prod.mk.injEq,
      Collector.storing.injEq, eq_comm (a := i'), eq_comm (a := r')]
    simp only [reduceCtorEq, false_or]
    exact or_comm
  · have := h.ended hret
    rw [hreading] at this
    cases this

/-- A result is stored.  No other is stored at its index, since the job gives one only. -/
theorem Sound.store (h : Sound V size s) {i : ℕ} {r : R}
    (hstoring : s.collector = .storing i r) :
    Sound V size { s with stored := s.stored.set i (some r), collector := .reading } := by
  have hgiven : (i, r) ∈ s.given := (h.kept i r).mpr (.inl hstoring)
  have hlt : i < s.stored.length := h.length ▸ h.gave_lt hgiven
  refine ⟨h.next_le, h.all, h.slots, ?_, h.inv, h.once, h.working, h.unlaunched, h.gave,
    fun i' r' => ?_, fun hfin => (by cases hfin), fun hret => ?_⟩
  · rw [List.length_set]
    exact h.length
  · rw [h.kept, hstoring]
    by_cases hi : i' = i
    · subst hi
      rw [List.getElem?_set_self hlt]
      -- what is stored there was given by the same job
      have hsame : s.stored[i']? = some (some r') → r = r' := fun hstored =>
        h.unique hgiven ((h.kept i' r').mpr (.inr hstored))
      simp only [reduceCtorEq, false_or, Collector.storing.injEq, true_and, Option.some.injEq]
      tauto
    · rw [List.getElem?_set_ne (Ne.symm hi)]
      simp [Ne.symm hi]
  · have := h.ended hret
    rw [hstoring] at this
    cases this

/-- A goroutine ends. -/
theorem Sound.release (h : Sound V size s) {k i : ℕ} (hk : s.jobs[k]? = some (i, .finished)) :
    Sound V size { s with jobs := s.jobs.eraseIdx k } ∧
      s.jobs.Perm ((i, .finished) :: s.jobs.eraseIdx k) := by
  obtain ⟨hlt, hget⟩ := List.getElem?_eq_some_iff.mp hk
  have hperm : s.jobs.Perm ((i, .finished) :: s.jobs.eraseIdx k) := by
    rw [← hget]
    exact (List.getElem_cons_eraseIdx_perm hlt).symm
  refine ⟨⟨h.next_le, h.all, ?_, h.length, h.inv, ?_, ?_, h.unlaunched, h.gave, h.kept, h.ending,
    h.ended⟩, hperm⟩
  · have hslots := h.slots
    have hlength := hperm.length_eq
    simp only [List.length_cons] at hlength
    show (s.jobs.eraseIdx k).length + s.caller.slots size ≤ size
    omega
  · have hsame := atWork_perm hperm
    rw [atWork_finished] at hsame
    exact (hsame.symm.append_left _).trans h.once
  · intro i' j hj
    exact h.working i' j (hperm.mem_iff.mpr (List.mem_cons_of_mem _ hj))

/-- A goroutine is started. -/
theorem Sound.launch (h : Sound V size s) (hlaunching : s.caller = .launching) (hnext : s.next < n)
    (hroom : s.jobs.length < size) :
    Sound V size { s with
      next := s.next + 1, jobs := s.jobs ++ [(s.next, .working P.begin)] } := by
  refine ⟨hnext, fun hne => absurd hlaunching hne, ?_, h.length, h.inv, ?_, ?_, ?_, h.gave, h.kept,
    h.ending, h.ended⟩
  · rw [hlaunching, List.length_append]
    exact hroom
  · have hadd : atWork (s.jobs ++ [(s.next, .working P.begin)]) = atWork s.jobs ++ [s.next] := by
      simp [atWork]
    rw [hadd, ← List.append_assoc, List.range_succ]
    exact h.once.append_right _
  · intro i j hj
    rcases List.mem_append.mp hj with hj | hj
    · exact h.working i j hj
    · obtain ⟨rfl, hworking⟩ := Prod.mk.inj (List.mem_singleton.mp hj)
      obtain rfl := Job.working.inj hworking
      exact h.unlaunched _ le_rfl hnext
  · -- the assertion of a job holds before it is launched, so it begins with it
    intro i hle hlt
    exact h.unlaunched i (Nat.le_of_succ_le hle) hlt

/-- **Step.**  Every step keeps the invariant and lowers the rank. -/
theorem Sound.step (h : Sound V size s) (hstep : Step P env n size s t) :
    Sound V size t ∧ rank V size t < rank V size s := by
  have hnext := h.next_le
  cases hstep with
  | launch hlaunching hlt hroom =>
    refine ⟨h.launch hlaunching hlt hroom, ?_⟩
    -- the place it had among the jobs not launched pays for it
    have hleft : n - s.next = n - (s.next + 1) + 1 := by omega
    simp only [rank, List.map_append, List.sum_append, List.map_cons, List.map_nil, List.sum_cons,
      List.sum_nil, Job.rank, hleft, Nat.mul_add, Nat.mul_one]
    omega
  | launched hlaunching hall =>
    refine ⟨h.quiet (fun _ => hall) ?_ (fun _ _ => Iff.rfl) (fun hfin => ?_)
      (fun hret => by cases hret), ?_⟩
    · have := h.slots
      rw [hlaunching] at this
      exact this
    · rcases h.ending hfin with hc | hc <;> (rw [hlaunching] at hc; cases hc)
    · simp only [rank, hlaunching, Caller.rank]
      omega
  | @work k i j j' after hj hwork =>
    obtain ⟨hsound, hlower⟩ := h.works hj hwork
    refine ⟨hsound, ?_⟩
    have hsum : ((s.jobs.set k (i, .working j')).map (fun p => p.2.rank V.weight)).sum +
          (V.weight j + 3) =
        (s.jobs.map (fun p => p.2.rank V.weight)).sum + (V.weight j' + 3) :=
      sum_move hj (fun p => p.2.rank V.weight) _
    simp only [rank]
    omega
  | environment henv =>
    obtain ⟨hsound, hlower⟩ := h.environment henv
    refine ⟨hsound, ?_⟩
    simp only [rank]
    omega
  | @send k i j r hj hr hreading =>
    refine ⟨h.send hj hr hreading, ?_⟩
    -- from `weight j + 3` to `1`, and one more for the collector
    have hsum : ((s.jobs.set k (i, .finished)).map (fun p => p.2.rank V.weight)).sum +
          (V.weight j + 3) =
        (s.jobs.map (fun p => p.2.rank V.weight)).sum + 1 :=
      sum_move hj (fun p => p.2.rank V.weight) _
    simp only [rank, hreading, Collector.rank]
    omega
  | store hstoring =>
    refine ⟨h.store hstoring, ?_⟩
    simp only [rank, hstoring, Collector.rank]
    omega
  | @release k i hk =>
    obtain ⟨hsound, hperm⟩ := h.release hk
    refine ⟨hsound, ?_⟩
    have hsum : (s.jobs.map (fun p => p.2.rank V.weight)).sum =
        1 + ((s.jobs.eraseIdx k).map (fun p => p.2.rank V.weight)).sum :=
      (hperm.map (fun p => p.2.rank V.weight)).sum_eq
    simp only [rank]
    omega
  | @acquire k hk hroom =>
    refine ⟨h.quiet (fun _ => h.all (by rw [hk]; simp)) ?_ (fun _ _ => Iff.rfl) (fun hfin => ?_)
      (fun hret => by cases hret), ?_⟩
    · simp only [Caller.slots]
      omega
    · rcases h.ending hfin with hc | hc <;> (rw [hk] at hc; cases hc)
    · simp only [rank, hk, Caller.rank]
      omega
  | close hfull =>
    refine ⟨h.quiet (fun _ => h.all (by rw [hfull]; simp)) ?_ (fun _ _ => Iff.rfl)
      (fun _ => .inl rfl) (fun hret => by cases hret), ?_⟩
    · have := h.slots
      rw [hfull] at this
      exact this
    · simp only [rank, hfull, Caller.rank]
      omega
  | finish hclosed hreading =>
    refine ⟨h.quiet h.all h.slots (fun i r => by simp [hreading]) (fun _ => .inl hclosed)
      (fun _ => rfl), ?_⟩
    simp only [rank, hreading, Collector.rank]
    omega
  | «return» hclosed hfinished =>
    refine ⟨h.quiet (fun _ => h.all (by rw [hclosed]; simp)) ?_ (fun _ _ => Iff.rfl)
      (fun _ => .inr rfl) (fun _ => hfinished), ?_⟩
    · have := h.slots
      rw [hclosed] at this
      exact this
    · simp only [rank, hclosed, Caller.rank]
      omega

/-! ## Every run ends

Progress, and the lower rank of each step: together they make the return of the call inevitable. -/

/-- While the channel is open the collector moves on. -/
theorem Sound.collector_goes_on (h : Sound V size s) (hopen : s.jobs ≠ []) :
    s.collector = .reading ∨ ∃ t, Step P env n size s t := by
  cases hcollector : s.collector with
  | reading => exact .inl rfl
  | storing i r => exact .inr ⟨_, .store hcollector⟩
  | finished =>
    -- the caller had all the slots
    have hslots := h.slots
    have hpos := List.length_pos_of_ne_nil hopen
    rcases h.ending hcollector with hc | hc <;> (simp only [hc, Caller.slots] at hslots; omega)

/-- **Nobody waits for ever.**  While there is a goroutine, the first of them can go on, or the
    collector, or the environment; without one, the caller can. -/
theorem Sound.goes_on (hsize : 1 ≤ size) (h : Sound V size s) :
    s.caller = .returned ∨ ∃ t, Step P env n size s t := by
  cases hjobs : s.jobs with
  | cons p rest =>
    right
    have hp : s.jobs[0]? = some p := by rw [hjobs]; rfl
    have hmem : p ∈ s.jobs := by rw [hjobs]; exact List.mem_cons_self
    have hne : s.jobs ≠ [] := by rw [hjobs]; exact List.cons_ne_nil p rest
    obtain ⟨i, job⟩ := p
    cases job with
    | working j =>
      cases hresult : P.result j with
      | none =>
        rcases V.goes_on h.inv (h.working_lt hmem) (h.working i j hmem) hresult with
          ⟨s', j', hstep⟩ | ⟨s', henv⟩
        · exact ⟨_, .work hp hstep⟩
        · exact ⟨_, .environment henv⟩
      | some r =>
        rcases h.collector_goes_on hne with hreading | hstep
        · exact ⟨_, .send hp hresult hreading⟩
        · exact hstep
    | finished => exact ⟨_, .release hp⟩
  -- no goroutine is left, so every slot is the caller's or free
  | nil =>
    have hslots := h.slots
    rw [hjobs, List.length_nil, Nat.zero_add] at hslots
    cases hcaller : s.caller with
    | launching =>
      right
      rcases Nat.lt_or_ge s.next n with hlt | hge
      · exact ⟨_, .launch hcaller hlt (by rw [hjobs]; exact hsize)⟩
      · exact ⟨_, .launched hcaller (le_antisymm h.next_le hge)⟩
    | acquiring k =>
      right
      rw [hcaller] at hslots
      rcases Nat.lt_or_ge k size with hlt | hge
      · exact ⟨_, .acquire hcaller (by rw [hjobs]; exact hlt)⟩
      · obtain rfl : k = size := le_antisymm hslots hge
        exact ⟨_, .close hcaller⟩
    | closed =>
      right
      cases hcollector : s.collector with
      | reading => exact ⟨_, .finish hcaller hcollector⟩
      | storing i r => exact ⟨_, .store hcollector⟩
      | finished => exact ⟨_, .return hcaller hcollector⟩
    | returned => exact .inl rfl

/-- A call starts sound, if the assertions hold of the beginning. -/
theorem sound_start (V : Verified P env n) (size : ℕ) {shared : S} (hinv : V.inv shared)
    (hbegin : ∀ i, i < n → V.holds i shared P.begin) : Sound V size (start J R n shared) := by
  refine ⟨Nat.zero_le n, fun hne => absurd rfl hne, Nat.zero_le size, List.length_replicate, hinv,
    List.Perm.refl _, fun i j hj => (by cases hj), fun i _ hlt => hbegin i hlt,
    fun i r hr => (by cases hr), fun i r => ?_, fun hfin => (by cases hfin),
    fun hret => (by cases hret)⟩
  refine ⟨fun hr => (by cases hr), ?_⟩
  rintro (hstoring | hstored)
  · cases hstoring
  · have := List.eq_of_mem_replicate (List.mem_of_getElem? hstored)
    cases this

/-- **The call is back**: at every index a result is stored, and the assertion of its job holds of
    a local state that gives it. -/
structure Gathered (V : Verified P env n) (s : Gathering S J R) : Prop where
  returned : s.caller = .returned
  length : s.stored.length = n
  inv : V.inv s.shared
  stored : ∀ i, i < n → ∃ r j, s.stored[i]? = some (some r) ∧ P.result j = some r ∧
    V.holds i s.shared j

/-- A call that has returned has gathered all results: no job is at work, and the collector has none
    in its hands. -/
theorem Sound.gathered (h : Sound V size s) (hreturned : s.caller = .returned) :
    Gathered V s := by
  have hslots := h.slots
  rw [hreturned] at hslots
  have hjobs : s.jobs = [] := by
    refine List.length_eq_zero_iff.mp ?_
    simp only [Caller.slots] at hslots
    omega
  have honce := h.once
  rw [hjobs, h.all (by rw [hreturned]; simp)] at honce
  simp only [atWork, List.filterMap_nil, List.append_nil] at honce
  refine ⟨hreturned, h.length, h.inv, fun i hi => ?_⟩
  -- every index is among those that gave a result
  obtain ⟨⟨i', r⟩, hgiven, rfl⟩ := List.mem_map.mp (honce.mem_iff.mpr (List.mem_range.mpr hi))
  obtain ⟨j, hj, hholds⟩ := h.gave i' r hgiven
  refine ⟨r, j, ?_, hj, hholds⟩
  rcases (h.kept i' r).mp hgiven with hstoring | hstored
  · rw [h.ended hreturned] at hstoring
    cases hstoring
  · exact hstored

/-- **Every run gathers.** -/
theorem Sound.gathers (hsize : 1 ≤ size) (h : Sound V size s) :
    Inevitable (Step P env n size) (Gathered V) s :=
  inevitable_rule (P := Sound V size) (rank V size) (fun _ _ h hstep => h.step hstep)
    (fun _ h => (h.goes_on hsize).imp_left h.gathered) h

/-- **Run.** -/
theorem Sound.run (h : Sound V size s) (hreach : Relation.ReflTransGen (Step P env n size) s t) :
    Sound V size t := by
  induction hreach with
  | refl => exact h
  | tail _ hstep ih => exact (ih.step hstep).1

/-- **Never more goroutines than slots.** -/
theorem Sound.jobs_le (h : Sound V size s) : s.jobs.length ≤ size :=
  (Nat.le_add_right _ _).trans h.slots

end Steps

end Gather
