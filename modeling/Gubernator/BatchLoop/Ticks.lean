/-
  THE TICKER AND ITS LOOP: no wake-up is lost, but a stop can hang.

  1. NO LOST WAKE-UP.  A loop that waits in its `select` with something collected has a tick coming:
     a start in `in`, a timer under way, or a tick in `C`.  The first item of a batch puts it there
     (`Next`), only the loop takes it out, and then it sends what it has.

  2. STOPPING.  The timer goroutine moves a start from `in` to itself and on to `C`, and only the
     loop takes anything out of `C`.  So the number of intervals under way (`underWay`) is all that
     matters once the loop has stopped reading: with at most one, the timer always finds room in
     `C`; with two, it may fill `C`, take the second start instead of `done`, and wait for room in
     `C` for ever, while the loop waits for the timer.

  `Next` is said to be ignored until the previous interval has completed.  It is ignored only until
  the timer has taken the previous start, which is how two come to be under way.

  What is proved of the second point is an equivalence.  A run is safe from the deadlock if each
  stop signal is taken with at most one interval under way; and from any stop that is taken with two
  there is a continuation, the same for all loops (`blocking`), into a state that no event leaves.
-/
import Gubernator.BatchLoop

namespace Gubernator

variable {α : Type}

/-! ## A flush is due

The invariant of the waiting loop.  It has to survive the events of the timer, which only pass the
tick on, and those of the loop, which takes a tick out of `C` only to flush. -/

/-- A tick is coming: a start is waiting, the timer sleeps or is about to send, or it has sent. -/
def Interval.Due (i : Interval) : Prop :=
  i.inCh = true ∨ i.timer = .sleeping ∨ i.timer = .sending ∨ i.C = true

/-- `Next` puts a start into `in`, or finds one there. -/
theorem Interval.due_next (i : Interval) : i.next.Due := .inl rfl

/-- The timer keeps a tick coming until it is there. -/
theorem Interval.Due.step {i : Interval} (h : i.Due) (e : TimerEvent) : (i.step e).Due := by
  cases e with
  | start =>
    simp only [Interval.step]
    split
    · exact .inr (.inl rfl)
    · exact h
  | elapse =>
    simp only [Interval.step]
    split
    · exact .inr (.inr (.inl rfl))
    · exact h
  | send =>
    simp only [Interval.step]
    split
    · exact .inr (.inr (.inr rfl))
    · exact h
  | quit =>
    simp only [Interval.step]
    split
    · -- the timer returns with a start or a tick left over
      rename_i hquit
      rcases h with hin | hsleep | hsend | hC
      · exact .inl hin
      · exact absurd (hquit.1.symm.trans hsleep) (by decide)
      · exact absurd (hquit.1.symm.trans hsend) (by decide)
      · exact .inr (.inr (.inr hC))
    · exact h

/-- **Nothing is stranded**: a loop that waits with something collected has a tick coming. -/
def Armed (s : LoopState α) : Prop :=
  s.stage = .selecting → s.collected ≠ [] → s.interval.Due

namespace BatchLoop

variable (loop : BatchLoop α) {s : LoopState α}

/-- After a flush the loop is busy, or has nothing. -/
theorem armed_flush (s : LoopState α) : Armed (loop.flush s) := by
  unfold flush
  split
  · intro hselecting
    cases hselecting
  · intro _ hne
    exact absurd rfl hne

/-- An item received is the first and arms the timer, makes the batch full, or joins others. -/
theorem armed_receive (h : Armed s) (item : α) : Armed (loop.receive s item) := by
  unfold receive
  split
  · rename_i hselecting
    dsimp only
    split
    · exact loop.armed_flush _
    · split
      · intro _ _
        exact s.interval.due_next
      · -- neither enough nor the first item, so something was there before
        rename_i hfirst
        intro _ _
        refine h hselecting ?_
        rintro hnil
        rcases loop.length_collect s.collected item with hlength | ⟨-, hne⟩
        · rw [hnil] at hlength hfirst
          exact hfirst hlength
        · exact hne hnil
  · exact h

/-- A tick flushes what there is. -/
theorem armed_tick (h : Armed s) : Armed (loop.tick s) := by
  unfold tick
  split
  · dsimp only
    split
    · exact loop.armed_flush _
    · rename_i hempty
      intro _ hne
      exact absurd (by simpa using hempty) hne
  · exact h

/-- A loop that has been told to stop does not select again. -/
theorem armed_stopInterval (s : LoopState α) : Armed (stopInterval s) := by
  intro hselecting
  cases hselecting

/-- **Step.** -/
theorem armed_step (h : Armed s) (e : LoopEvent α) : Armed (loop.step s e).2 := by
  cases e with
  | receive item => exact loop.armed_receive h item
  | tick => exact loop.armed_tick h
  | finish =>
    simp only [step, finish]
    split
    · intro _ hne
      exact absurd rfl hne
    · exact armed_stopInterval s
    · exact h
  | stop =>
    simp only [step, stop]
    split
    · split
      · intro hselecting
        cases hselecting
      · exact armed_stopInterval s
    · exact h
  | stopped =>
    simp only [step, stopped]
    split
    · intro hselecting
      cases hselecting
    · exact h
  | timer e =>
    intro hselecting hne
    exact (h hselecting hne).step e

/-- **No lost wake-up**: in every run of every loop, whatever its batch limit, a loop that waits in
    its `select` with something collected has a tick coming. -/
theorem flush_is_due (run : List (LoopEvent α)) (hselecting : (loop.after run).stage = .selecting)
    (hne : (loop.after run).collected ≠ []) : (loop.after run).interval.Due :=
  Machine.invariant_rule (P := Armed) (fun _ e _ h => loop.armed_step h e)
    (Machine.guarded_true loop.step {} run) (fun _ hempty => absurd rfl hempty) hselecting hne

/-- Two items arrive while a tick for a batch already sent is on its way. -/
theorem flush_is_due_staleTick :
    ((runBatch ℕ 2).after [.receive 1, .timer .start, .receive 2, .receive 3]).interval.Due :=
  (runBatch ℕ 2).flush_is_due [.receive 1, .timer .start, .receive 2, .receive 3] (by decide)
    (by decide)

end BatchLoop

/-! ## Stopping

`Interval.Stop` closes `done` and waits for the timer to return.  The timer looks at `done` only in
its `select`, not while it is sending to `C`. -/

/-- **Stuck for ever**: the loop waits inside `Interval.Stop` for a timer that waits for room in
    `C`, which nobody reads any more. -/
def LoopState.Deadlocked (s : LoopState α) : Prop :=
  s.stage = .stopping ∧ s.interval.timer = .sending ∧ s.interval.C = true

instance (s : LoopState α) : Decidable s.Deadlocked := by
  unfold LoopState.Deadlocked
  infer_instance

/-- The intervals under way: started and not yet ticked off. -/
def Interval.underWay (i : Interval) : ℕ :=
  i.inCh.toNat + (if i.timer = .sleeping ∨ i.timer = .sending then 1 else 0) + i.C.toNat

/-- The loop has taken the stop signal. -/
def LoopState.Stopping (s : LoopState α) : Prop :=
  s.stage = .closing ∨ s.stage = .stopping ∨ s.stage = .returned

/-- **The condition**: when the loop takes the stop signal, at most one interval is under way. -/
def QuietStop (s : LoopState α) (e : LoopEvent α) : Prop :=
  e = .stop → s.stage = .selecting → s.interval.underWay ≤ 1

instance [DecidableEq α] (s : LoopState α) (e : LoopEvent α) : Decidable (QuietStop s e) := by
  unfold QuietStop
  infer_instance

/-- The timer passes intervals on and starts none. -/
theorem Interval.underWay_step (i : Interval) (e : TimerEvent) :
    (i.step e).underWay ≤ i.underWay := by
  obtain ⟨inCh, C, timer, done⟩ := i
  cases e <;> cases inCh <;> cases C <;> cases timer <;> cases done <;> decide

/-- A timer that waits for room in a full `C` is a second interval under way. -/
theorem LoopState.Deadlocked.underWay {s : LoopState α} (h : s.Deadlocked) :
    2 ≤ s.interval.underWay := by
  obtain ⟨-, htimer, hC⟩ := h
  simp only [Interval.underWay, htimer, hC, or_true, if_true, Bool.toNat_true]
  omega

namespace BatchLoop

variable (loop : BatchLoop α) {s : LoopState α}

/-- What a step does to a loop that has taken the stop signal: nothing arrives any more. -/
theorem stopping_step (h : s.Stopping) (e : LoopEvent α) :
    (loop.step s e).2.Stopping ∧
      (loop.step s e).2.interval.underWay ≤ s.interval.underWay := by
  -- receiving, ticks and another stop are for a loop in its `select`
  have hnot : s.stage ≠ .selecting := by
    rcases h with hs | hs | hs <;> rw [hs] <;> decide
  cases e with
  | receive item =>
    rw [step, receive, if_neg hnot]
    exact ⟨h, le_rfl⟩
  | tick =>
    rw [step, tick, if_neg (fun hc => hnot hc.1)]
    exact ⟨h, le_rfl⟩
  | finish =>
    simp only [step, finish]
    split
    · rename_i hsending
      rcases h with hs | hs | hs <;> rw [hs] at hsending <;> cases hsending
    · exact ⟨.inr (.inl rfl), le_rfl⟩
    · exact ⟨h, le_rfl⟩
  | stop =>
    rw [step, stop, if_neg hnot]
    exact ⟨h, le_rfl⟩
  | stopped =>
    simp only [step, stopped]
    split
    · exact ⟨.inr (.inr rfl), le_rfl⟩
    · exact ⟨h, le_rfl⟩
  | timer e => exact ⟨h, s.interval.underWay_step e⟩

/-- The loop takes the stop signal only from its `select`, and nothing else changes then. -/
theorem stopping_of_step {e : LoopEvent α} (hbefore : ¬ s.Stopping)
    (hafter : (loop.step s e).2.Stopping) :
    e = .stop ∧ s.stage = .selecting ∧
      (loop.step s e).2.interval.underWay = s.interval.underWay := by
  -- a flush sends or goes on selecting, and never stops the loop
  have hflush : ∀ t : LoopState α, t.stage = .selecting → ¬ (loop.flush t).Stopping := by
    intro t ht hstopping
    unfold flush at hstopping
    split at hstopping
    · rcases hstopping with hs | hs | hs <;> cases hs
    · rcases hstopping with hs | hs | hs <;> rw [ht] at hs <;> cases hs
  cases e with
  | receive item =>
    simp only [step, receive] at hafter
    split at hafter
    · rename_i hselecting
      split at hafter
      · exact absurd hafter (hflush _ hselecting)
      · split at hafter <;> exact absurd hafter hbefore
    · exact absurd hafter hbefore
  | tick =>
    simp only [step, tick] at hafter
    split at hafter
    · rename_i hselecting
      split at hafter
      · exact absurd hafter (hflush _ hselecting.1)
      · exact absurd hafter hbefore
    · exact absurd hafter hbefore
  | finish =>
    simp only [step, finish] at hafter
    split at hafter
    · rcases hafter with hs | hs | hs <;> cases hs
    · rename_i hclosing
      exact absurd (.inl hclosing) hbefore
    · exact absurd hafter hbefore
  -- the one event that does it
  | stop =>
    simp only [step, stop] at hafter ⊢
    split at hafter
    · rename_i hselecting
      refine ⟨trivial, hselecting, ?_⟩
      simp only [hselecting, if_true]
      split <;> rfl
    · exact absurd hafter hbefore
  | stopped =>
    simp only [step, stopped] at hafter
    split at hafter
    · rename_i hstopping
      exact absurd (.inr (.inl hstopping.1)) hbefore
    · exact absurd hafter hbefore
  | timer e => exact absurd hafter hbefore

/-- **Step.**  At most one interval is under way when the loop has to stop. -/
theorem quiet_step {e : LoopEvent α} (hquiet : QuietStop s e)
    (h : s.Stopping → s.interval.underWay ≤ 1) :
    (loop.step s e).2.Stopping → (loop.step s e).2.interval.underWay ≤ 1 := by
  intro hafter
  -- on the way since before, or by this step
  by_cases hbefore : s.Stopping
  · exact ((loop.stopping_step hbefore e).2).trans (h hbefore)
  · obtain ⟨rfl, hselecting, hsame⟩ := loop.stopping_of_step hbefore hafter
    rw [hsame]
    exact hquiet rfl hselecting

/-! ### A stop that hangs -/

/-- The timer lives until `Interval.Stop` has been called. -/
def TimerAlive (s : LoopState α) : Prop :=
  s.stage = .stopping ∨ s.stage = .returned ∨ s.interval.done = false ∧ s.interval.timer ≠ .returned

/-- A flush does not touch the ticker. -/
theorem timerAlive_flush (h : s.interval.done = false ∧ s.interval.timer ≠ .returned) :
    TimerAlive (loop.flush s) := by
  unfold flush
  split <;> exact .inr (.inr h)

/-- No event ends the timer before `Interval.Stop`. -/
theorem timerAlive_step (h : TimerAlive s) (e : LoopEvent α) : TimerAlive (loop.step s e).2 := by
  have hselecting : s.stage = .selecting →
      s.interval.done = false ∧ s.interval.timer ≠ .returned := by
    intro hs
    rcases h with h | h | h
    · cases hs.symm.trans h
    · cases hs.symm.trans h
    · exact h
  cases e with
  | receive item =>
    simp only [step, receive]
    split
    · rename_i hs
      split
      · exact loop.timerAlive_flush (hselecting hs)
      · split <;> exact .inr (.inr (hselecting hs))
    · exact h
  | tick =>
    simp only [step, tick]
    split
    · rename_i hs
      split
      · exact loop.timerAlive_flush (hselecting hs.1)
      · exact .inr (.inr (hselecting hs.1))
    · exact h
  | finish =>
    simp only [step, finish]
    split
    · rename_i hs
      rcases h with h | h | h
      · cases hs.symm.trans h
      · cases hs.symm.trans h
      · exact .inr (.inr h)
    · exact .inl rfl
    · exact h
  | stop =>
    simp only [step, stop]
    split
    · rename_i hs
      split
      · exact .inr (.inr (hselecting hs))
      · exact .inl rfl
    · exact h
  | stopped =>
    simp only [step, stopped]
    split
    · exact .inr (.inl rfl)
    · exact h
  | timer e =>
    rcases h with h | h | ⟨hdone, htimer⟩
    · exact .inl h
    · exact .inr (.inl h)
    · refine .inr (.inr ?_)
      simp only [step]
      cases e <;> simp only [Interval.step] <;> split <;> simp_all

/-- With two intervals under way the timer fills `C` and comes back with the second. -/
theorem timer_blocks {i : Interval} (halive : i.timer ≠ .returned) (h : 2 ≤ i.underWay) :
    ((((i.step .elapse).step .send).step .start).step .elapse).timer = .sending ∧
      ((((i.step .elapse).step .send).step .start).step .elapse).C = true := by
  -- finitely many tickers, each of which is followed through the four steps
  obtain ⟨inCh, C, timer, done⟩ := i
  revert halive h
  cases inCh <;> cases C <;> cases timer <;> cases done <;> decide

/-- The steps from a stop with two intervals under way into the deadlock. -/
def blocking : List (LoopEvent α) :=
  [.stop, .finish, .timer .elapse, .timer .send, .timer .start, .timer .elapse]

/-- Those steps lead into the deadlock. -/
theorem blocking_deadlocks (hselecting : s.stage = .selecting)
    (halive : s.interval.timer ≠ .returned) (h : 2 ≤ s.interval.underWay) :
    (Machine.exec loop.step s blocking).Deadlocked := by
  -- the stop itself, with the rest sent
  have hstop : (finish (loop.stop s)).stage = .stopping ∧
      (finish (loop.stop s)).interval = { s.interval with done := true } := by
    simp only [stop, hselecting, if_true]
    split <;> exact ⟨rfl, rfl⟩
  obtain ⟨hstage, hinterval⟩ := hstop
  have hblocks := timer_blocks (i := { s.interval with done := true }) halive h
  simp only [blocking, Machine.exec, step]
  exact ⟨hstage, by simpa only [hinterval] using hblocks⟩

/-- **Nobody gets out of it.** -/
theorem deadlocked_step (h : s.Deadlocked) (e : LoopEvent α) : (loop.step s e).2.Deadlocked := by
  obtain ⟨hstage, htimer, hC⟩ := h
  cases e with
  | receive item => simpa [step, receive, hstage] using ⟨hstage, htimer, hC⟩
  | tick => simpa [step, tick, hstage] using ⟨hstage, htimer, hC⟩
  | finish => simpa [step, finish, hstage] using ⟨hstage, htimer, hC⟩
  | stop => simpa [step, stop, hstage] using ⟨hstage, htimer, hC⟩
  | stopped => simpa [step, stopped, htimer] using ⟨hstage, htimer, hC⟩
  | timer e =>
    cases e <;> simpa [step, Interval.step, htimer, hC] using ⟨hstage, htimer, hC⟩

/-- **Stopping the ticker**: in every run in which each stop signal is taken with at most one
    interval under way, no state is deadlocked.  And in every other run the loop, having taken a
    stop signal, can still come into a deadlock that lasts whatever happens then. -/
theorem stop_deadlocks_iff (run : List (LoopEvent α)) :
    (Machine.Guarded loop.step QuietStop {} run → ¬ (loop.after run).Deadlocked) ∧
    (¬ Machine.Guarded loop.step QuietStop {} run → ∃ before later, before ++ [.stop] <+: run ∧
      ∀ more, (loop.after (before ++ later ++ more)).Deadlocked) := by
  constructor
  · intro hguarded hdead
    have hquiet : (loop.after run).Stopping → (loop.after run).interval.underWay ≤ 1 :=
      Machine.invariant_rule (P := fun s => s.Stopping → s.interval.underWay ≤ 1)
        (fun _ _ hok h => loop.quiet_step hok h) hguarded
        (fun hs => by rcases hs with hs | hs | hs <;> cases hs)
    have htwo := hdead.underWay
    have hone := hquiet (.inr (.inl hdead.1))
    omega
  · -- the first event that is not quiet is a stop taken with two intervals under way
    intro hnot
    obtain ⟨before, e, rest, rfl, hloud⟩ := Machine.exists_of_not_guarded hnot
    have halive : TimerAlive (loop.after before) :=
      Machine.invariant_rule (P := TimerAlive) (fun _ e _ h => loop.timerAlive_step h e)
        (Machine.guarded_true loop.step {} before)
        (.inr (.inr ⟨rfl, by simp⟩))
    simp only [QuietStop, Classical.not_imp, not_le] at hloud
    obtain ⟨rfl, hselecting, htwo⟩ := hloud
    refine ⟨before, blocking, ⟨rest, by simp⟩, fun more => ?_⟩
    have htimer : (loop.after before).interval.timer ≠ .returned := by
      rcases halive with hs | hs | hs
      · exact absurd (hselecting.symm.trans hs) (by decide)
      · exact absurd (hselecting.symm.trans hs) (by decide)
      · exact hs.2
    have hdead := loop.blocking_deadlocks hselecting htimer htwo
    rw [after, Machine.exec_append, Machine.exec_append]
    exact Machine.invariant_rule (P := LoopState.Deadlocked)
      (fun _ e _ h => loop.deadlocked_step h e) (Machine.guarded_true loop.step _ more) hdead

/-- A stop while a timer sleeps. -/
theorem stop_deadlocks_iff_sleeping :
    ¬ ((runBatch ℕ 2).after [.receive 1, .timer .start, .stop, .finish, .timer .elapse,
      .timer .send]).Deadlocked :=
  ((runBatch ℕ 2).stop_deadlocks_iff _).1 (by decide)

/-- **Each loop can hang.** In the two loops with a map, each hit on its only key calls `Next`: the
    first hit starts an interval, the second leaves a start in `in` while the timer sleeps.  In
    `runBatch` a full batch is sent while the timer sleeps, and the next request leaves the
    start. -/
theorem stop_can_deadlock :
    let hit : RateLimitReq := { RateLimitReq.sample 1 10 1000 10 0 0 with behavior := .global }
    ((runAsyncHits 1000).after [.receive hit, .timer .start, .receive hit, .timer .elapse,
      .timer .send, .stop, .timer .start, .timer .elapse]).Deadlocked ∧
    ((runBroadcasts 1000).after [.receive hit, .timer .start, .receive hit, .timer .elapse,
      .timer .send, .stop, .timer .start, .timer .elapse]).Deadlocked ∧
    ((runBatch ℕ 2).after [.receive 1, .timer .start, .receive 2, .receive 3, .timer .elapse,
      .timer .send, .stop, .finish, .timer .start, .timer .elapse]).Deadlocked := by
  decide +kernel

end BatchLoop

end Gubernator
