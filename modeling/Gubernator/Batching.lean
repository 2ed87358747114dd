/-
  BATCHED FORWARDING loses, duplicates and swaps nothing.

  Two invariants carry the result, each kept by every step.

  `Flow` follows the requests: the accepted ones are, each once, those still pending somewhere (in
  the queue, with `runBatch`, in a `sendBatch`) and those whose response channel got a value.  So a
  request is never in two places, a value finds its channel empty, and no two calls share a request.

  `Gate` is about shutting down: `wg` counts the callers inside, and once `queueClosed` is set none
  of them is between its check and its answer.  `Shutdown` sets it with `wg` at zero and the mutex
  in hand, so nobody can come to send on the closed queue.

  How the proof is cut up.  `Change` lists what a step can do to callers and requests, with the code
  of the step forgotten; `change_step` finds the change of every event, and `Flow.change` shows that
  the invariant survives each of them.  Most are of one kind: `OwnStep`, in which a caller changes
  only itself.  A list of batches is treated up to its order (`at_batch`), so a step of any
  `sendBatch` is one of the first.  A third invariant, `Gone`, follows one request whose context has
  ended before any `sendBatch` found it alive: no call will have it.
-/
import Gubernator.PeerClient
import Mathlib.Data.List.Perm.Basic
import Mathlib.Data.List.Nodup
import Mathlib.Tactic.Set

namespace Gubernator

/-! ## Where the requests are

Requests are numbered by their callers.  The three lists of a batch say which requests are in it,
for which of them a call was made, and which values are ready to be sent. -/

namespace Batch

/-- The requests a `sendBatch` has yet to send a value to. -/
def pending : Batch → List ℕ
  | examining queue live => live ++ queue
  | calling live => live
  | answering rest => rest.map Prod.fst

/-- Those of them that a call was made for. -/
def called : Batch → List ℕ
  | examining _ _ => []
  | calling live => live
  | answering rest => rest.map Prod.fst

/-- The values it has yet to send. -/
def values : Batch → List (ℕ × Response)
  | answering rest => rest
  | _ => []

/-- A request in a call that has been made waits for its answer. -/
theorem pending_of_called {b : Batch} {r : ℕ} (h : r ∈ b.called) : r ∈ b.pending := by
  cases b with
  | examining queue live => cases h
  | calling live => exact h
  | answering rest => exact h

end Batch

namespace Pipe

/-- **Where a request can wait**: in the queue, with `runBatch`, in a batch. -/
def pending (p : Pipe) : List ℕ :=
  p.queue ++ p.collected.getD [] ++ p.batches.flatMap Batch.pending

/-- The requests that got a value. -/
def answered (p : Pipe) : List ℕ := p.sent.map Prod.fst

/-- `runBatch` makes no calls; `sendBatch` does. -/
@[simp] theorem take_calls (batchLimit : ℕ) (closed : Bool) (p : Pipe) :
    (p.take batchLimit closed).calls = p.calls := by
  unfold take
  split
  · rfl
  · dsimp only
    split <;> rfl
  · split <;> rfl

/-- A tick makes no call. -/
@[simp] theorem tick_calls (p : Pipe) : p.tick.calls = p.calls := by
  unfold tick
  split <;> rfl

/-- **The value belongs to the request**: it stands, in the answers to a call that was made, at the
    place where the request stands in the call. -/
def Entry (p : Pipe) (r : ℕ) (v : RateLimitResp) : Prop :=
  ∃ (requests : List ℕ) (answers : List RateLimitResp) (i : ℕ), requests ∈ p.calls ∧
    (requests, .ok answers) ∈ p.replies ∧ answers.length = requests.length ∧
    requests[i]? = some r ∧ answers[i]? = some v

/-- An answer that was in a reply stays in it. -/
theorem Entry.mono {p p' : Pipe} {r : ℕ} {v : RateLimitResp} (h : p.Entry r v)
    (hcalls : ∀ c ∈ p.calls, c ∈ p'.calls) (hreplies : ∀ e ∈ p.replies, e ∈ p'.replies) :
    p'.Entry r v := by
  obtain ⟨requests, answers, i, hc, hr, hrest⟩ := h
  exact ⟨requests, answers, i, hcalls _ hc, hreplies _ hr, hrest⟩

end Pipe

/-- A caller's step: the request stays handed over, no value comes in, the context stays ended. -/
structure Caller.Becomes (c c' : Caller) : Prop where
  handed : c.handedOver → c'.handedOver
  resp : c'.resp ≠ none → c.resp ≠ none
  ctxErr : c.ctxErr ≠ none → c'.ctxErr ≠ none

/-- **The flow of the requests.** -/
structure Flow (callers : List Caller) (p : Pipe) : Prop where
  /-- nothing lost, nothing twice -/
  conserved : (p.pending ++ p.answered).Perm p.accepted
  nodup : p.accepted.Nodup
  /-- a request is accepted from a caller that then waits for it, or no longer does -/
  handed : ∀ r ∈ p.accepted, ∃ c, callers[r]? = some c ∧ c.handedOver
  /-- only a value that was sent is in a response channel -/
  room : ∀ r c, callers[r]? = some c → c.resp ≠ none → r ∈ p.answered
  /-- no request is in two calls, or twice in one -/
  once : p.calls.flatten.Nodup
  /-- a request that was called for is in its batch still, or has its value -/
  called : ∀ r ∈ p.calls.flatten, r ∈ p.batches.flatMap Batch.called ∨ r ∈ p.answered
  made : ∀ live, .calling live ∈ p.batches → live ∈ p.calls
  /-- values to be sent, and values sent, are the peer's own answers -/
  pendingEntry : ∀ r v, (r, .ok v) ∈ p.batches.flatMap Batch.values → p.Entry r v
  sentEntry : ∀ r v, (r, .ok v) ∈ p.sent → p.Entry r v

namespace Flow

variable {callers : List Caller} {p : Pipe}

/-- A request is pending or answered, not both, and in one place. -/
theorem nodup_all (h : Flow callers p) : (p.pending ++ p.answered).Nodup :=
  h.conserved.nodup_iff.mpr h.nodup

/-- A pending request has got no value, so its response channel is empty. -/
theorem empty_of_pending (h : Flow callers p) {r : ℕ} (hr : r ∈ p.pending) {c : Caller}
    (hc : callers[r]? = some c) : c.resp = none := by
  by_contra hfull
  exact (List.nodup_append.mp h.nodup_all).2.2 r hr r (h.room r c hc hfull) rfl

/-! ### Callers

What callers do by themselves, without a request changing its place. -/

/-- **A caller does something of its own**: it keeps what the pipe knows of it, that it has handed
    over its request, and a response channel that has been filled. -/
theorem setCaller (h : Flow callers p) {i : ℕ} {c c' : Caller} (hc : callers[i]? = some c)
    (hbecomes : c.Becomes c') : Flow (callers.set i c') p where
  conserved := h.conserved
  nodup := h.nodup
  -- this caller keeps what it has handed over, and the others are not touched
  handed := by
    intro r hr
    obtain ⟨d, hd, hover⟩ := h.handed r hr
    by_cases hi : i = r
    · subst hi
      rw [hc] at hd
      obtain rfl := Option.some.inj hd
      refine ⟨c', ?_, hbecomes.handed hover⟩
      rw [List.getElem?_set_self (List.getElem?_eq_some_iff.mp hc).1]
    · exact ⟨d, by rw [List.getElem?_set_ne hi, hd], hover⟩
  room := by
    intro r d hd hfull
    by_cases hi : i = r
    · subst hi
      rw [List.getElem?_set_self (List.getElem?_eq_some_iff.mp hc).1] at hd
      obtain rfl := Option.some.inj hd
      exact h.room i c hc (hbecomes.resp hfull)
    · rw [List.getElem?_set_ne hi] at hd
      exact h.room r d hd hfull
  once := h.once
  called := h.called
  made := h.made
  pendingEntry := h.pendingEntry
  sentEntry := h.sentEntry

/-- A new caller has the next index, so it is in nobody's hands. -/
theorem arrive (h : Flow callers p) (mode : SendMode) :
    Flow (callers ++ [({ mode := mode } : Caller)]) p where
  conserved := h.conserved
  nodup := h.nodup
  handed := by
    intro r hr
    obtain ⟨c, hc, hover⟩ := h.handed r hr
    have hlt := (List.getElem?_eq_some_iff.mp hc).1
    exact ⟨c, by rw [List.getElem?_append_left hlt, hc], hover⟩
  -- the channel of the new caller is empty
  room := by
    intro r c hc hfull
    rw [List.getElem?_append] at hc
    split at hc
    · exact h.room r c hc hfull
    · obtain rfl := List.mem_singleton.mp (List.mem_of_getElem? hc)
      exact absurd rfl hfull
  once := h.once
  called := h.called
  made := h.made
  pendingEntry := h.pendingEntry
  sentEntry := h.sentEntry

/-! ### Requests that move

One rule for all the places: the pending requests are permuted, or some of them are answered. -/

/-- The requests move, and a new one may come in; no call is made and no value sent. -/
theorem move (h : Flow callers p) {callers' : List Caller} {p' : Pipe} {l : List ℕ}
    (hpending : p'.pending.Perm (p.pending ++ l))
    (haccepted : p'.accepted = p.accepted ++ l) (hnodup : p'.accepted.Nodup)
    (hhanded : ∀ r ∈ p'.accepted, ∃ c, callers'[r]? = some c ∧ c.handedOver)
    (hroom : ∀ r c, callers'[r]? = some c → c.resp ≠ none → r ∈ p.answered)
    (hsent : p'.sent = p.sent) (hcalls : p'.calls = p.calls) (hreplies : p'.replies = p.replies)
    (hcalled : p'.batches.flatMap Batch.called = p.batches.flatMap Batch.called)
    (hvalues : p'.batches.flatMap Batch.values = p.batches.flatMap Batch.values)
    (hcalling : ∀ live, .calling live ∈ p'.batches → .calling live ∈ p.batches) :
    Flow callers' p' := by
  have hanswered : p'.answered = p.answered := congrArg (List.map Prod.fst) hsent
  have hentry : ∀ {r v}, p.Entry r v → p'.Entry r v := by
    intro r v he
    exact he.mono (by rw [hcalls]; exact fun _ hc => hc) (by rw [hreplies]; exact fun _ hr => hr)
  refine ⟨?_, hnodup, hhanded, ?_, ?_, ?_, ?_, ?_, ?_⟩
  · rw [haccepted, hanswered]
    -- the new request is pending and accepted, so the balance of the two sides stays
    have hold := h.conserved
    refine List.perm_iff_count.mpr (fun a => ?_)
    have hcount := hpending.count_eq a
    have hcount' := hold.count_eq a
    simp only [List.count_append] at hcount hcount' ⊢
    omega
  · rw [hanswered]
    exact hroom
  · rw [hcalls]
    exact h.once
  · rw [hcalls, hcalled, hanswered]
    exact h.called
  · intro live hlive
    rw [hcalls]
    exact h.made live (hcalling live hlive)
  · intro r v hv
    rw [hvalues] at hv
    exact hentry (h.pendingEntry r v hv)
  · intro r v hv
    rw [hsent] at hv
    exact hentry (h.sentEntry r v hv)

/-- The order of the batches does not matter. -/
theorem perm (h : Flow callers p) {batches : List Batch} (hperm : batches.Perm p.batches) :
    Flow callers { p with batches := batches } := by
  -- only what speaks of the batches is affected, and it speaks of them as sets
  refine ⟨?_, h.nodup, h.handed, h.room, h.once, ?_, ?_, ?_, h.sentEntry⟩
  · refine List.Perm.trans ?_ h.conserved
    exact ((hperm.flatMap_right Batch.pending).append_left _).append_right _
  · intro r hr
    refine (h.called r hr).imp_left (fun hin => ?_)
    exact (hperm.flatMap_right Batch.called).mem_iff.mpr hin
  · intro live hlive
    exact h.made live (hperm.mem_iff.mp hlive)
  · intro r v hv
    exact h.pendingEntry r v ((hperm.flatMap_right Batch.values).mem_iff.mp hv)

/-! ### Steps of a `sendBatch`

A batch goes from `examining` to `calling` to `answering`; each step is shown for the first batch of
the list. -/

section AtBatch
variable {x y : Batch} {rest : List Batch}

/-- The batch at an index and the others. -/
theorem batch_at {batches : List Batch} {b : ℕ} (hx : batches[b]? = some x) :
    batches.Perm (x :: batches.eraseIdx b) ∧
      ∀ y, (batches.set b y).Perm (y :: batches.eraseIdx b) := by
  obtain ⟨hlt, rfl⟩ := List.getElem?_eq_some_iff.mp hx
  exact ⟨(List.getElem_cons_eraseIdx_perm hlt).symm, fun y => List.set_perm_cons_eraseIdx hlt y⟩

/-- **A step of one `sendBatch`** may be shown with that batch in front. -/
theorem at_batch {callers' : List Caller} {p' : Pipe} {b : ℕ} (h : Flow callers p)
    (hx : p.batches[b]? = some x) (hbatches : p'.batches = p.batches.set b y)
    (hstep : ∀ rest, Flow callers { p with batches := x :: rest } →
      Flow callers' { p' with batches := y :: rest }) : Flow callers' p' := by
  obtain ⟨hold, hnew⟩ := batch_at hx
  have hfront := hstep _ (h.perm hold.symm)
  have hback := hfront.perm (hnew y)
  rw [← hbatches] at hback
  exact hback

/-- A value is sent to a request of the batch. -/
theorem respond {r : ℕ} {v : Response} {c : Caller}
    (h : Flow callers { p with batches := x :: rest }) (hc : callers[r]? = some c)
    (hpending : x.pending.Perm (r :: y.pending)) (hcalled : ∀ a ∈ x.called, a = r ∨ a ∈ y.called)
    (hcalling : ∀ live, y ≠ .calling live) (hvalues : ∀ e ∈ y.values, e ∈ x.values)
    (hv : ∀ rl, v = .ok rl → (r, v) ∈ x.values) :
    Flow (callers.set r { c with resp := some v })
      { p with batches := y :: rest, sent := p.sent ++ [(r, v)] } := by
  have hlt := (List.getElem?_eq_some_iff.mp hc).1
  refine ⟨?_, h.nodup, ?_, ?_, h.once, ?_, ?_, ?_, ?_⟩
  · -- the request leaves the pending ones and joins the answered
    refine List.Perm.trans ?_ h.conserved
    refine List.perm_iff_count.mpr (fun a => ?_)
    have hcount := hpending.count_eq a
    simp only [Pipe.pending, Pipe.answered, List.flatMap_cons, List.map_append, List.map_cons,
      List.map_nil, List.count_append, List.count_cons, List.count_nil] at hcount ⊢
    omega
  · -- still handed over: sending a value does not move the caller
    intro a ha
    obtain ⟨d, hd, hover⟩ := h.handed a ha
    by_cases hr : r = a
    · subst hr
      rw [hc] at hd
      obtain rfl := Option.some.inj hd
      exact ⟨_, List.getElem?_set_self hlt, hover⟩
    · exact ⟨d, by rw [List.getElem?_set_ne hr, hd], hover⟩
  · intro a d hd hfull
    by_cases hr : r = a
    · subst hr
      -- this channel got its value in this very step
      simp [Pipe.answered]
    · rw [List.getElem?_set_ne hr] at hd
      have := h.room a d hd hfull
      simp only [Pipe.answered, List.map_append, List.mem_append] at this ⊢
      exact .inl this
  · intro a ha
    have hold := h.called a ha
    simp only [Pipe.answered, List.flatMap_cons, List.mem_append, List.map_append, List.map_cons,
      List.map_nil, List.mem_singleton] at hold ⊢
    -- of this batch, of another, or answered before
    rcases hold with (hin | hin) | hin
    · rcases hcalled a hin with rfl | hy
      · exact .inr (.inr rfl)
      · exact .inl (.inl hy)
    · exact .inl (.inr hin)
    · exact .inr (.inl hin)
  · -- no batch is at its call because of this
    intro live hlive
    rcases List.mem_cons.mp hlive with heq | hin
    · exact absurd heq.symm (hcalling live)
    · exact h.made live (List.mem_cons_of_mem _ hin)
  · intro a rl ha
    refine h.pendingEntry a rl ?_
    simp only [List.flatMap_cons, List.mem_append] at ha ⊢
    exact ha.imp_left (hvalues _)
  · intro a rl ha
    rcases List.mem_append.mp ha with hin | hin
    · exact h.sentEntry a rl hin
    · -- the value just sent was waiting in the batch, so it is an entry of a reply
      obtain ⟨rfl, rfl⟩ := Prod.mk.inj (List.mem_singleton.mp hin)
      refine h.pendingEntry a rl ?_
      simp only [List.flatMap_cons, List.mem_append]
      exact .inl (hv rl rfl)

/-- A call is made for the live requests of a batch. -/
theorem call {live : List ℕ} (h : Flow callers { p with batches := .examining [] live :: rest }) :
    Flow callers { p with batches := .calling live :: rest, calls := p.calls ++ [live] } := by
  have hentry : ∀ {r v}, p.Entry r v →
      Pipe.Entry { p with batches := .calling live :: rest, calls := p.calls ++ [live] } r v := by
    intro r v he
    exact he.mono (fun c hc => List.mem_append_left _ hc) (fun e he => he)
  refine ⟨?_, h.nodup, h.handed, h.room, ?_, ?_, ?_, ?_, ?_⟩
  · have hsame := h.conserved
    simp only [Pipe.pending, List.flatMap_cons, Batch.pending, List.append_nil] at hsame ⊢
    exact hsame
  · -- the live requests are pending, and those of earlier calls are elsewhere
    have hall := h.nodup_all
    have hold := h.called
    simp only [Pipe.pending, Pipe.answered, List.flatMap_cons, Batch.pending, Batch.called,
      List.append_nil, List.nil_append, List.append_assoc] at hall hold
    have htail := (List.nodup_append.mp (List.nodup_append.mp hall).2.1).2.1
    obtain ⟨hlive, -, hdisjoint⟩ := List.nodup_append.mp htail
    show (p.calls ++ [live]).flatten.Nodup
    rw [List.flatten_append, List.flatten_singleton]
    refine List.nodup_append.mpr ⟨h.once, hlive, ?_⟩
    intro a ha a' ha' heq
    subst heq
    refine hdisjoint a ha' a ?_ rfl
    rcases hold a ha with hin | hin
    · obtain ⟨b, hb, hab⟩ := List.mem_flatMap.mp hin
      exact List.mem_append_left _ (List.mem_flatMap.mpr ⟨b, hb, b.pending_of_called hab⟩)
    · exact List.mem_append_right _ hin
  · -- a request of an earlier call, or of this one
    intro a ha
    have ha' : a ∈ (p.calls ++ [live]).flatten := ha
    rw [List.flatten_append, List.flatten_singleton, List.mem_append] at ha'
    rcases ha' with hin | hin
    · refine (h.called a hin).imp_left (fun hb => ?_)
      simp only [List.flatMap_cons, Batch.called, List.nil_append, List.mem_append] at hb ⊢
      exact .inr hb
    · left
      simp only [List.flatMap_cons, Batch.called, List.mem_append]
      exact .inl hin
  · intro live' hlive'
    rcases List.mem_cons.mp hlive' with heq | hin
    · -- the call in flight is the one just recorded
      obtain rfl := Batch.calling.inj heq
      exact List.mem_append_right _ (List.mem_singleton_self _)
    · exact List.mem_append_left _ (h.made live' (List.mem_cons_of_mem _ hin))
  · intro r v hv
    exact hentry (h.pendingEntry r v hv)
  · intro r v hv
    exact hentry (h.sentEntry r v hv)

/-- Every live request gets a value. -/
theorem answersOf_fst (live : List ℕ) (outcome : Outcome) :
    (Pipe.answersOf live outcome).map Prod.fst = live := by
  unfold Pipe.answersOf
  cases outcome with
  | error e => simp [Function.comp_def]
  -- as many answers as requests, or an error for each of them
  | ok rateLimits =>
    simp only
    split
    · simp [Function.comp_def]
    · rename_i hlen
      apply List.map_fst_zip
      rw [List.length_map, not_not.mp hlen]

/-- A success is the answer at the request's own place. -/
theorem answersOf_ok {live : List ℕ} {outcome : Outcome} {r : ℕ} {rl : RateLimitResp}
    (h : (r, .ok rl) ∈ Pipe.answersOf live outcome) :
    ∃ (answers : List RateLimitResp) (i : ℕ), outcome = .ok answers ∧
      answers.length = live.length ∧ live[i]? = some r ∧ answers[i]? = some rl := by
  unfold Pipe.answersOf at h
  cases outcome with
  | error e => simp at h
  | ok rateLimits =>
    simp only at h
    split at h
    · simp at h
    · rename_i hlen
      obtain ⟨i, hi⟩ := List.mem_iff_getElem?.mp h
      obtain ⟨hr, hv⟩ := List.getElem?_zip_eq_some.mp hi
      rw [List.getElem?_map] at hv
      obtain ⟨a, ha, heq⟩ := Option.map_eq_some_iff.mp hv
      obtain rfl := Except.ok.inj heq
      exact ⟨rateLimits, i, rfl, not_not.mp hlen, hr, ha⟩

/-- The call comes back. -/
theorem reply {live : List ℕ} (outcome : Outcome)
    (h : Flow callers { p with batches := .calling live :: rest }) :
    Flow callers { p with
      batches := .answering (Pipe.answersOf live outcome) :: rest
      replies := p.replies ++ [(live, outcome)] } := by
  have hentry : ∀ {r v}, p.Entry r v → Pipe.Entry { p with
      batches := .answering (Pipe.answersOf live outcome) :: rest
      replies := p.replies ++ [(live, outcome)] } r v := by
    intro r v he
    exact he.mono (fun c hc => hc) (fun e he => List.mem_append_left _ he)
  have hmade : live ∈ p.calls := h.made live List.mem_cons_self
  refine ⟨?_, h.nodup, h.handed, h.room, h.once, ?_, ?_, ?_, ?_⟩
  · have hsame := h.conserved
    simp only [Pipe.pending, List.flatMap_cons, Batch.pending, answersOf_fst] at hsame ⊢
    exact hsame
  · intro a ha
    have hold := h.called a ha
    simp only [List.flatMap_cons, Batch.called, answersOf_fst] at hold ⊢
    exact hold
  · -- this batch is past its call
    intro live' hlive'
    rcases List.mem_cons.mp hlive' with heq | hin
    · cases heq
    · exact h.made live' (List.mem_cons_of_mem _ hin)
  · intro r v hv
    simp only [List.flatMap_cons, Batch.values, List.mem_append] at hv
    rcases hv with hin | hin
    · -- of this reply: request and answer are at the same index
      obtain ⟨answers, i, rfl, hlen, hr, hv⟩ := answersOf_ok hin
      exact ⟨live, answers, i, hmade, List.mem_append_right _ (List.mem_singleton_self _), hlen, hr,
        hv⟩
    · refine hentry (h.pendingEntry r v ?_)
      simp only [List.flatMap_cons, Batch.values, List.nil_append]
      exact hin
  · intro r v hv
    exact hentry (h.sentEntry r v hv)

end AtBatch

/-! ### Every step

The moves of the queue and of `runBatch`, and then each event of the client as one of the moves
above. -/

/-- The requests a caller hands over are new. -/
theorem accept (h : Flow callers p) {i : ℕ} {c : Caller} {p' : Pipe} (hc : callers[i]? = some c)
    (hstage : c.stage = .sending) (hpending : p'.pending.Perm (p.pending ++ [i]))
    (haccepted : p'.accepted = p.accepted ++ [i]) (hsent : p'.sent = p.sent)
    (hcalls : p'.calls = p.calls) (hreplies : p'.replies = p.replies)
    (hcalled : p'.batches.flatMap Batch.called = p.batches.flatMap Batch.called)
    (hvalues : p'.batches.flatMap Batch.values = p.batches.flatMap Batch.values)
    (hcalling : ∀ live, .calling live ∈ p'.batches → .calling live ∈ p.batches) :
    Flow (callers.set i { c with stage := .waiting }) p' := by
  have hlt := (List.getElem?_eq_some_iff.mp hc).1
  -- a caller about to send has not sent before: an accepted request has left that stage
  have hnew : i ∉ p.accepted := by
    intro hin
    obtain ⟨d, hd, hover⟩ := h.handed i hin
    rw [hc] at hd
    obtain rfl := Option.some.inj hd
    rcases hover with hw | hr
    · rw [hstage] at hw
      cases hw
    · rw [hstage] at hr
      cases hr
  have hbecomes : c.Becomes { c with stage := .waiting } :=
    ⟨fun _ => .inl rfl, fun hr => hr, fun he => he⟩
  have hset := h.setCaller hc hbecomes
  refine hset.move hpending haccepted ?_ ?_ hset.room hsent hcalls hreplies hcalled hvalues hcalling
  · rw [haccepted]
    refine List.nodup_append.mpr ⟨h.nodup, List.nodup_singleton i, ?_⟩
    intro a ha b hb heq
    rw [List.mem_singleton.mp hb] at heq
    exact hnew (heq ▸ ha)
  · -- the new request is its caller's, which waits for it now
    intro r hr
    rw [haccepted, List.mem_append] at hr
    rcases hr with hin | hin
    · exact hset.handed r hin
    · obtain rfl := List.mem_singleton.mp hin
      exact ⟨_, List.getElem?_set_self hlt, .inl rfl⟩

/-- The requests move from place to place. -/
theorem regroup (h : Flow callers p) {p' : Pipe} (hpending : p'.pending.Perm p.pending)
    (haccepted : p'.accepted = p.accepted) (hsent : p'.sent = p.sent)
    (hcalls : p'.calls = p.calls) (hreplies : p'.replies = p.replies)
    (hcalled : p'.batches.flatMap Batch.called = p.batches.flatMap Batch.called)
    (hvalues : p'.batches.flatMap Batch.values = p.batches.flatMap Batch.values)
    (hcalling : ∀ live, .calling live ∈ p'.batches → .calling live ∈ p.batches) :
    Flow callers p' := by
  refine h.move (l := []) ?_ ?_ ?_ ?_ h.room hsent hcalls hreplies hcalled hvalues hcalling
  · rw [List.append_nil]
    exact hpending
  · rw [haccepted, List.append_nil]
  · rw [haccepted]
    exact h.nodup
  · rw [haccepted]
    exact h.handed

/-- A new `sendBatch` has made no call. -/
theorem append_examining (batches : List Batch) (queue : List ℕ) :
    (batches ++ [Batch.examining queue []]).flatMap Batch.called = batches.flatMap Batch.called ∧
    (batches ++ [Batch.examining queue []]).flatMap Batch.values = batches.flatMap Batch.values ∧
    (batches ++ [Batch.examining queue []]).flatMap Batch.pending =
      batches.flatMap Batch.pending ++ queue ∧
    ∀ live, .calling live ∈ batches ++ [Batch.examining queue []] → .calling live ∈ batches := by
  refine ⟨by simp [Batch.called], by simp [Batch.values], by simp [Batch.pending], ?_⟩
  intro live hlive
  rcases List.mem_append.mp hlive with hin | hin
  · exact hin
  · cases List.mem_singleton.mp hin

/-- **`runBatch` takes a request** from the queue and adds it to what it has collected, and hands
    that over when it has as many as the limit, or when the queue is closed. -/
theorem take (h : Flow callers p) (batchLimit : ℕ) (closed : Bool) :
    Flow callers (p.take batchLimit closed) := by
  unfold Pipe.take
  split
  · exact h
  · rename_i collected r tail hcollected hqueue
    dsimp only
    -- a request was in the queue: with it the batch is full, or it is not
    obtain ⟨hcalled, hvalues, hbatch, hcalling⟩ := append_examining p.batches (collected ++ [r])
    split
    · -- full: it goes to a `sendBatch` of its own
      refine h.regroup ?_ rfl rfl rfl rfl hcalled hvalues hcalling
      refine List.perm_iff_count.mpr (fun a => ?_)
      simp only [Pipe.pending, hcollected, hqueue, hbatch, Option.getD_some, List.count_append,
        List.count_cons, List.count_nil]
      omega
    · refine h.regroup ?_ rfl rfl rfl rfl rfl rfl (fun _ hl => hl)
      refine List.perm_iff_count.mpr (fun a => ?_)
      simp only [Pipe.pending, hcollected, hqueue, Option.getD_some, List.count_append,
        List.count_cons, List.count_nil]
      omega
  · rename_i collected hcollected hqueue
    -- the queue is empty: if it is closed, what has been collected goes, unless there is nothing
    obtain ⟨hcalled, hvalues, hbatch, hcalling⟩ := append_examining p.batches collected
    split
    · by_cases hnone : collected = []
      · refine h.regroup ?_ rfl rfl rfl rfl (by rw [if_pos hnone]) (by rw [if_pos hnone])
          (by rw [if_pos hnone]; exact fun _ hl => hl)
        rw [if_pos hnone]
        simp [Pipe.pending, hcollected, hnone]
      · refine h.regroup ?_ rfl rfl rfl rfl (by rw [if_neg hnone]; exact hcalled)
          (by rw [if_neg hnone]; exact hvalues) (by rw [if_neg hnone]; exact hcalling)
        rw [if_neg hnone]
        refine List.perm_iff_count.mpr (fun a => ?_)
        simp only [Pipe.pending, hcollected, hqueue, hbatch, Option.getD_some, Option.getD_none,
          List.count_append, List.count_nil]
        omega
    · exact h

/-- The interval has passed: what has been collected is handed over. -/
theorem tick (h : Flow callers p) : Flow callers p.tick := by
  unfold Pipe.tick
  split
  · exact h
  · exact h
  · rename_i collected _ hcollected
    obtain ⟨hcalled, hvalues, hbatch, hcalling⟩ := append_examining p.batches collected
    refine h.regroup ?_ rfl rfl rfl rfl hcalled hvalues hcalling
    refine List.perm_iff_count.mpr (fun a => ?_)
    simp only [Pipe.pending, hcollected, hbatch, Option.getD_some, List.count_append,
      List.count_nil]
    omega

end Flow

/-! ### Steps of callers and of batches, in the client

`OwnStep` is a step in which a caller changes only itself.  All but the send of the request are. -/

/-- A step that concerns one caller alone. -/
def OwnStep (s : PeerClient) (i : ℕ) (c : Caller) (s' : PeerClient) : Prop :=
  s'.pipe = s.pipe ∧ (s'.callers = s.callers ∨ ∃ c', s'.callers = s.callers.set i c' ∧ c.Becomes c')

section OwnSteps
variable {s : PeerClient} {i : ℕ} {c : Caller}

/-- An event that does not apply changes nothing. -/
theorem ownStep_refl (s : PeerClient) (i : ℕ) (c : Caller) : OwnStep s i c s := ⟨rfl, .inl rfl⟩

/-- To a later stage, with the response read or not. -/
theorem becomes_stage {c : Caller} {stage : CallerStage} {resp : Option Response}
    (hstage : stage = .returned ∨ ¬ c.handedOver) (hresp : resp ≠ none → c.resp ≠ none) :
    c.Becomes { c with stage := stage, resp := resp } := by
  refine ⟨fun hover => ?_, hresp, fun he => he⟩
  rcases hstage with rfl | hnot
  · exact .inr rfl
  · exact absurd hover hnot

/-- A caller has handed over its request if it waits for the answer, or has returned. -/
theorem not_handedOver {c : Caller} {stage : CallerStage} (h : c.stage = stage)
    (hw : stage ≠ .waiting) (hr : stage ≠ .returned) : ¬ c.handedOver := by
  rintro (hin | hin)
  · exact hw (h.symm.trans hin)
  · exact hr (h.symm.trans hin)

/-- The caller returns; the deferred `wg.Done` is in the same step. -/
theorem ownStep_leave (s : PeerClient) (i : ℕ) (c : Caller) {resp : Option Response}
    (hresp : resp ≠ none → c.resp ≠ none) (result : Response) :
    OwnStep s i c (s.leave i { c with resp := resp } result).2 :=
  ⟨rfl, .inr ⟨_, rfl, becomes_stage (.inl rfl) hresp⟩⟩

/-- `wg.Add`, and the check of `queueClosed` is next. -/
theorem ownStep_enter (s : PeerClient) (i : ℕ) (c : Caller) : OwnStep s i c (s.enter i c).2 := by
  unfold PeerClient.enter
  split
  · rename_i h
    refine ⟨rfl, .inr ⟨_, rfl, becomes_stage (.inr ?_) (fun hr => hr)⟩⟩
    exact not_handedOver h.1 (by decide) (by decide)
  · exact ownStep_refl s i c

/-- A caller that finds the client closing returns its error. -/
theorem ownStep_checkClosed (s : PeerClient) (i : ℕ) (c : Caller) :
    OwnStep s i c (s.checkClosed i c).2 := by
  unfold PeerClient.checkClosed
  split
  · rename_i h
    split
    · exact ownStep_leave s i c (fun hr => hr) _
    · refine ⟨rfl, .inr ⟨_, rfl, becomes_stage (.inr ?_) (fun hr => hr)⟩⟩
      exact not_handedOver h (by decide) (by decide)
  · exact ownStep_refl s i c

/-- The check of the context: a caller whose context has ended leaves, another goes on. -/
theorem ownStep_checkContext (s : PeerClient) (i : ℕ) (c : Caller) :
    OwnStep s i c (s.checkContext i c).2 := by
  unfold PeerClient.checkContext
  split
  · rename_i h
    split
    · exact ownStep_leave s i c (fun hr => hr) _
    · refine ⟨rfl, .inr ⟨_, rfl, becomes_stage (.inr ?_) (fun hr => hr)⟩⟩
      exact not_handedOver h (by decide) (by decide)
  · exact ownStep_refl s i c

/-- The context ends while the caller waits to send. -/
theorem ownStep_abandon (s : PeerClient) (i : ℕ) (c : Caller) :
    OwnStep s i c (s.abandon i c).2 := by
  unfold PeerClient.abandon
  split
  · exact ownStep_leave s i c (fun hr => hr) _
  · exact ownStep_refl s i c

/-- The caller receives its value and returns it. -/
theorem ownStep_receive (s : PeerClient) (i : ℕ) (c : Caller) :
    OwnStep s i c (s.receive i c).2 := by
  unfold PeerClient.receive
  split
  · exact ownStep_leave s i c (fun hr => absurd rfl hr) _
  · exact ownStep_leave s i c (fun hr => absurd rfl hr) _
  · exact ownStep_refl s i c

/-- The context ends while the caller waits for the value, which may still come: nobody will read
    it. -/
theorem ownStep_giveUp (s : PeerClient) (i : ℕ) (c : Caller) :
    OwnStep s i c (s.giveUp i c).2 := by
  unfold PeerClient.giveUp
  split
  · exact ownStep_leave s i c (fun hr => hr) _
  · exact ownStep_refl s i c

/-- A context ends once, with one error. -/
theorem ownStep_endContext (s : PeerClient) (i : ℕ) (c : Caller) (err : String) :
    OwnStep s i c (s.setCaller i { c with ctxErr := c.ctxErr.or (some err) }) := by
  refine ⟨rfl, .inr ⟨_, rfl, fun hover => hover, fun hr => hr, fun _ => ?_⟩⟩
  cases c.ctxErr with
  | none => simp
  | some e => simp

end OwnSteps

/-- **What a step does**: something to the callers alone, a request accepted, requests regrouped,
    or a move of one `sendBatch`. -/
inductive Change (s s' : PeerClient) : Prop
  /-- a new caller -/
  | arrive (mode : SendMode) : s'.pipe = s.pipe →
      s'.callers = s.callers ++ [({ mode := mode } : Caller)] → Change s s'
  /-- a caller moves by itself -/
  | own (i : ℕ) (c : Caller) : s.callers[i]? = some c → OwnStep s i c s' → Change s s'
  /-- `Shutdown` moves, or nothing does -/
  | shut : s'.pipe = s.pipe → s'.callers = s.callers → Change s s'
  /-- a request is handed over, to the queue or to a `sendBatch` of its own -/
  | send (i : ℕ) (c : Caller) : s.callers[i]? = some c → c.stage = .sending →
      s'.callers = s.callers.set i { c with stage := .waiting } →
      (s'.pipe = { s.pipe with queue := s.pipe.queue ++ [i], accepted := s.pipe.accepted ++ [i] } ∨
        s'.pipe = { s.pipe with
          batches := s.pipe.batches ++ [.examining [i] []], accepted := s.pipe.accepted ++ [i] }) →
      Change s s'
  | take (batchLimit : ℕ) : s'.callers = s.callers →
      s'.pipe = s.pipe.take batchLimit s.door.closed → Change s s'
  | tick : s'.callers = s.callers → s'.pipe = s.pipe.tick → Change s s'
  /-- the next request of a batch is found alive -/
  | pass (b r : ℕ) (rest live : List ℕ) : s.pipe.batches[b]? = some (.examining (r :: rest) live) →
      (s.callers[r]?).bind Caller.ctxErr = none → s'.callers = s.callers →
      s'.pipe = { s.pipe with batches := s.pipe.batches.set b (.examining rest (live ++ [r])) } →
      Change s s'
  /-- its context has ended: it gets an error, and the batch goes on without it -/
  | skip (b r : ℕ) (rest live : List ℕ) (c : Caller) (e : String) :
      s.pipe.batches[b]? = some (.examining (r :: rest) live) → s.callers[r]? = some c →
      s'.callers = s.callers.set r { c with resp := some (.error e) } →
      s'.pipe = { s.pipe with
        batches := s.pipe.batches.set b (.examining rest live)
        sent := s.pipe.sent ++ [(r, .error e)] } → Change s s'
  /-- no request of the batch is alive, so no call is made -/
  | none (b : ℕ) : s.pipe.batches[b]? = some (.examining [] []) → s'.callers = s.callers →
      s'.pipe = { s.pipe with batches := s.pipe.batches.set b (.answering []) } → Change s s'
  /-- the call is made for the others -/
  | call (b : ℕ) (live : List ℕ) : s.pipe.batches[b]? = some (.examining [] live) →
      s'.callers = s.callers →
      s'.pipe = { s.pipe with
        batches := s.pipe.batches.set b (.calling live), calls := s.pipe.calls ++ [live] } →
      Change s s'
  /-- it comes back -/
  | reply (b : ℕ) (live : List ℕ) (outcome : Outcome) :
      s.pipe.batches[b]? = some (.calling live) → s'.callers = s.callers →
      s'.pipe = { s.pipe with
        batches := s.pipe.batches.set b (.answering (Pipe.answersOf live outcome))
        replies := s.pipe.replies ++ [(live, outcome)] } → Change s s'
  /-- one of its values is sent to the caller it belongs to -/
  | answer (b r : ℕ) (v : Response) (rest : List (ℕ × Response)) (c : Caller) :
      s.pipe.batches[b]? = some (.answering ((r, v) :: rest)) → s.callers[r]? = some c →
      s'.callers = s.callers.set r { c with resp := some v } →
      s'.pipe = { s.pipe with
        batches := s.pipe.batches.set b (.answering rest), sent := s.pipe.sent ++ [(r, v)] } →
      Change s s'

/-- No change at all is one of them. -/
theorem change_refl (s : PeerClient) : Change s s := .shut rfl rfl

/-- A step of a caller, from what its handler does. -/
theorem change_atCaller {s : PeerClient} {i : ℕ}
    {f : PeerClient → ℕ → Caller → Option (ℕ × Response) × PeerClient}
    (hf : ∀ c, s.callers[i]? = some c → Change s (f s i c).2) : Change s (s.atCaller i f).2 := by
  unfold PeerClient.atCaller
  cases hc : s.callers[i]? with
  | none => exact change_refl s
  | some c => exact hf c hc

/-- **The request is handed over**: onto the queue, or in a `sendBatch` of its own. -/
theorem change_send {s : PeerClient} {i : ℕ} {c : Caller} (hc : s.callers[i]? = some c) :
    Change s (s.send i c).2 := by
  unfold PeerClient.send
  split
  · rename_i hstage
    split
    · split
      · -- a send on the closed queue panics; the gate shows that it does not come to that
        exact .shut rfl rfl
      · split
        · exact .send i c hc hstage rfl (.inl rfl)
        · exact change_refl s
    · exact .send i c hc hstage rfl (.inr rfl)
  · exact change_refl s

/-- `sendBatch` looks at one request of its queue: alive, it joins the call; gone, it is answered
    with the error of its context at once. -/
theorem change_examine (s : PeerClient) (b : ℕ) : Change s (s.examine b) := by
  unfold PeerClient.examine
  split
  · rename_i r rest live hb
    split
    · rename_i e he
      -- the channel has room for one value; if it had one already the send would block
      unfold PeerClient.respond
      cases hc : s.callers[r]? with
      | none => exact change_refl s
      | some c =>
        simp only
        split
        · exact .skip b r rest live c _ hb hc rfl rfl
        · exact change_refl s
    · rename_i he
      exact .pass b r rest live hb he rfl rfl
  · exact change_refl s

/-- The call is made, with all that were found alive. -/
theorem change_call (s : PeerClient) (b : ℕ) : Change s (s.call b) := by
  unfold PeerClient.call
  split
  · rename_i hb
    exact .none b hb rfl rfl
  · rename_i live _ hb
    exact .call b live hb rfl rfl
  · exact change_refl s

/-- The reply, or the error, becomes the list of the values to send. -/
theorem change_reply (s : PeerClient) (b : ℕ) (outcome : Outcome) :
    Change s (s.reply b outcome) := by
  unfold PeerClient.reply
  split
  · rename_i live hb
    exact .reply b live outcome hb rfl rfl
  · exact change_refl s

/-- One value is sent, to its own caller. -/
theorem change_answer (s : PeerClient) (b : ℕ) : Change s (s.answer b) := by
  unfold PeerClient.answer
  split
  · rename_i r v rest hb
    unfold PeerClient.respond
    cases hc : s.callers[r]? with
    | none => exact change_refl s
    | some c =>
      simp only
      split
      · exact .answer b r v rest c hb hc rfl rfl
      · exact change_refl s
  · exact change_refl s

/-- **Every step is one of the changes.** -/
theorem change_step (batchLimit : ℕ) (s : PeerClient) (e : ClientEvent) :
    Change s (s.step batchLimit e).2 := by
  cases e with
  | arrive mode => exact .arrive mode rfl rfl
  | endContext i err =>
    exact change_atCaller (fun c hc => .own i c hc (ownStep_endContext s i c err))
  | enter i => exact change_atCaller (fun c hc => .own i c hc (ownStep_enter s i c))
  | checkClosed i => exact change_atCaller (fun c hc => .own i c hc (ownStep_checkClosed s i c))
  | checkContext i => exact change_atCaller (fun c hc => .own i c hc (ownStep_checkContext s i c))
  | send i => exact change_atCaller (fun c hc => change_send hc)
  | abandon i => exact change_atCaller (fun c hc => .own i c hc (ownStep_abandon s i c))
  | receive i => exact change_atCaller (fun c hc => .own i c hc (ownStep_receive s i c))
  | giveUp i => exact change_atCaller (fun c hc => .own i c hc (ownStep_giveUp s i c))
  | take => exact .take batchLimit rfl rfl
  | tick => exact .tick rfl rfl
  | examine b => exact change_examine s b
  | call b => exact change_call s b
  | reply b outcome => exact change_reply s b outcome
  | answer b => exact change_answer s b
  | shutdown =>
    refine .shut ?_ ?_ <;> simp only [PeerClient.step, PeerClient.shutdown] <;> split <;> rfl
  | lock => refine .shut ?_ ?_ <;> simp only [PeerClient.step, PeerClient.lock] <;> split <;> rfl
  | flag => refine .shut ?_ ?_ <;> simp only [PeerClient.step, PeerClient.flag] <;> split <;> rfl
  | close => refine .shut ?_ ?_ <;> simp only [PeerClient.step, PeerClient.close] <;> split <;> rfl

/-- **Every change keeps the flow.** -/
theorem Flow.change {s s' : PeerClient} (hchange : Change s s') (h : Flow s.callers s.pipe) :
    Flow s'.callers s'.pipe := by
  cases hchange with
  | arrive mode hp hcs =>
    rw [hp, hcs]
    exact h.arrive mode
  | own i c hc hown =>
    obtain ⟨hp, hcs | ⟨c', hcs, hbecomes⟩⟩ := hown
    · rw [hp, hcs]
      exact h
    · rw [hp, hcs]
      exact h.setCaller hc hbecomes
  | shut hp hcs =>
    rw [hp, hcs]
    exact h
  | send i c hc hstage hcs hp =>
    rw [hcs]
    rcases hp with hp | hp
    · rw [hp]
      -- onto the queue of `runBatch`
      refine h.accept hc hstage ?_ rfl rfl rfl rfl rfl rfl (fun _ hl => hl)
      refine List.perm_iff_count.mpr (fun a => ?_)
      simp only [Pipe.pending, List.count_append]
      omega
    · rw [hp]
      -- `NO_BATCHING`: in a `sendBatch` of its own
      obtain ⟨hcalled, hvalues, hbatch, hcalling⟩ := append_examining s.pipe.batches [i]
      refine h.accept hc hstage ?_ rfl rfl rfl rfl hcalled hvalues hcalling
      simp only [Pipe.pending, hbatch, List.append_assoc]
      exact List.Perm.refl _
  | take batchLimit hcs hp =>
    rw [hp, hcs]
    exact h.take batchLimit _
  | tick hcs hp =>
    rw [hp, hcs]
    exact h.tick
  | pass b r rest live hb _ hcs hp =>
    rw [hp, hcs]
    refine h.at_batch hb rfl (fun others hfront => hfront.regroup ?_ rfl rfl rfl rfl rfl rfl ?_)
    · -- from one list of the batch to the other
      simp [Pipe.pending, Batch.pending]
    · intro live' hl
      rcases List.mem_cons.mp hl with heq | hin
      · cases heq
      · exact List.mem_cons_of_mem _ hin
  -- the request goes from the batch to the answered ones, with an error
  | skip b r rest live c e hb hc hcs hp =>
    rw [hp, hcs]
    refine h.at_batch hb rfl (fun others hfront => hfront.respond hc ?_ ?_ ?_ ?_ ?_)
    · exact List.perm_middle
    · intro a ha
      cases ha
    · intro live' heq
      cases heq
    · intro x hx
      cases hx
    · intro rl heq
      cases heq
  | none b hb hcs hp =>
    rw [hp, hcs]
    refine h.at_batch hb rfl (fun others hfront => hfront.regroup ?_ rfl rfl rfl rfl rfl rfl ?_)
    · exact List.Perm.refl _
    · intro live' hl
      rcases List.mem_cons.mp hl with heq | hin
      · cases heq
      · exact List.mem_cons_of_mem _ hin
  | call b live hb hcs hp =>
    rw [hp, hcs]
    exact h.at_batch hb rfl (fun others hfront => hfront.call)
  | reply b live outcome hb hcs hp =>
    rw [hp, hcs]
    exact h.at_batch hb rfl (fun others hfront => hfront.reply outcome)
  -- likewise, with the first of the values to be sent
  | answer b r v rest c hb hc hcs hp =>
    rw [hp, hcs]
    refine h.at_batch hb rfl (fun others hfront => hfront.respond hc ?_ ?_ ?_ ?_ ?_)
    · exact List.Perm.refl _
    · intro a ha
      exact List.mem_cons.mp ha
    · intro live' heq
      cases heq
    · intro x hx
      exact List.mem_cons_of_mem _ hx
    · intro rl _
      exact List.mem_cons_self

/-! ## A context that has ended

`sendBatch` looks at the context of each request once, before the call. -/

/-- The request's context has ended, and no `sendBatch` has found it alive. -/
structure Gone (r : ℕ) (s : PeerClient) : Prop where
  ended : ∃ c, s.callers[r]? = some c ∧ c.ctxErr ≠ none
  unseen : ∀ queue live, .examining queue live ∈ s.pipe.batches → r ∉ live
  uncalled : r ∉ s.pipe.calls.flatten

/-- A caller's context stays ended. -/
theorem ended_set {callers : List Caller} {r i : ℕ} {c c' : Caller} (hc : callers[i]? = some c)
    (hkeep : c.ctxErr ≠ none → c'.ctxErr ≠ none)
    (h : ∃ d, callers[r]? = some d ∧ d.ctxErr ≠ none) :
    ∃ d, (callers.set i c')[r]? = some d ∧ d.ctxErr ≠ none := by
  obtain ⟨d, hd, hended⟩ := h
  by_cases hi : i = r
  · subst hi
    rw [hc] at hd
    obtain rfl := Option.some.inj hd
    exact ⟨c', List.getElem?_set_self (List.getElem?_eq_some_iff.mp hc).1, hkeep hended⟩
  · exact ⟨d, by rw [List.getElem?_set_ne hi, hd], hended⟩

/-- A batch replaced by one that has found no more requests alive. -/
theorem unseen_set {batches : List Batch} {r b : ℕ} {y : Batch}
    (h : ∀ queue live, .examining queue live ∈ batches → r ∉ live)
    (hy : ∀ queue live, y = .examining queue live → r ∉ live) :
    ∀ queue live, .examining queue live ∈ batches.set b y → r ∉ live := by
  intro queue live hin
  rcases List.mem_or_eq_of_mem_set hin with hold | heq
  · exact h queue live hold
  · exact hy queue live heq.symm

/-- A batch just handed over has found nobody alive yet. -/
theorem unseen_append {batches : List Batch} {r : ℕ} (queue : List ℕ)
    (h : ∀ queue live, .examining queue live ∈ batches → r ∉ live) :
    ∀ queue' live, .examining queue' live ∈ batches ++ [Batch.examining queue []] → r ∉ live := by
  intro queue' live hin
  rcases List.mem_append.mp hin with hold | hnew
  · exact h queue' live hold
  · obtain ⟨-, rfl⟩ := Batch.examining.inj (List.mem_singleton.mp hnew)
    exact List.not_mem_nil

/-- **Gone is gone.** -/
theorem Gone.change {r : ℕ} {s s' : PeerClient} (hchange : Change s s') (h : Gone r s) :
    Gone r s' := by
  cases hchange with
  | arrive mode hp hcs =>
    obtain ⟨c, hc, hended⟩ := h.ended
    refine ⟨⟨c, ?_, hended⟩, hp ▸ h.unseen, hp ▸ h.uncalled⟩
    rw [hcs, List.getElem?_append_left (List.getElem?_eq_some_iff.mp hc).1, hc]
  | own i c hc hown =>
    obtain ⟨hp, hcs | ⟨c', hcs, hbecomes⟩⟩ := hown
    · exact ⟨hcs ▸ h.ended, hp ▸ h.unseen, hp ▸ h.uncalled⟩
    · exact ⟨hcs ▸ ended_set hc hbecomes.ctxErr h.ended, hp ▸ h.unseen, hp ▸ h.uncalled⟩
  | shut hp hcs => exact ⟨hcs ▸ h.ended, hp ▸ h.unseen, hp ▸ h.uncalled⟩
  | send i c hc hstage hcs hp =>
    -- a caller whose context has ended may still win the race to send its request
    have hended : ∃ d, (s.callers.set i { c with stage := .waiting })[r]? = some d ∧
        d.ctxErr ≠ none := ended_set hc (fun he => he) h.ended
    rcases hp with hp | hp
    · exact ⟨hcs ▸ hended, hp ▸ h.unseen, hp ▸ h.uncalled⟩
    · exact ⟨hcs ▸ hended, hp ▸ unseen_append [i] h.unseen, hp ▸ h.uncalled⟩
  -- requests that are moved into a new batch have not been looked at
  | take batchLimit hcs hp =>
    refine ⟨hcs ▸ h.ended, hp ▸ ?_, hp ▸ ?_⟩
    · unfold Pipe.take
      split
      · exact h.unseen
      · dsimp only
        split
        · exact unseen_append _ h.unseen
        · exact h.unseen
      · split
        · dsimp only
          split
          · exact h.unseen
          · exact unseen_append _ h.unseen
        · exact h.unseen
    · rw [Pipe.take_calls]
      exact h.uncalled
  | tick hcs hp =>
    refine ⟨hcs ▸ h.ended, hp ▸ ?_, hp ▸ ?_⟩
    · unfold Pipe.tick
      split
      · exact h.unseen
      · exact h.unseen
      · exact unseen_append _ h.unseen
    · rw [Pipe.tick_calls]
      exact h.uncalled
  | pass b r' rest live hb hnone hcs hp =>
    refine ⟨hcs ▸ h.ended, hp ▸ unseen_set h.unseen ?_, hp ▸ h.uncalled⟩
    rintro queue live' heq
    obtain ⟨-, rfl⟩ := Batch.examining.inj heq
    have hold := h.unseen _ _ (List.mem_of_getElem? hb)
    intro hin
    rcases List.mem_append.mp hin with hin | hin
    · exact hold hin
    · -- the request found alive is another one
      obtain rfl := List.mem_singleton.mp hin
      obtain ⟨c, hc, hended⟩ := h.ended
      rw [hc] at hnone
      exact hended hnone
  | skip b r' rest live c e hb hc hcs hp =>
    refine ⟨hcs ▸ ended_set hc (fun he => he) h.ended, hp ▸ unseen_set h.unseen ?_,
      hp ▸ h.uncalled⟩
    rintro queue live' heq
    obtain ⟨-, rfl⟩ := Batch.examining.inj heq
    exact h.unseen _ _ (List.mem_of_getElem? hb)
  | none b hb hcs hp =>
    exact ⟨hcs ▸ h.ended, hp ▸ unseen_set h.unseen (by rintro _ _ heq; cases heq), hp ▸ h.uncalled⟩
  | call b live hb hcs hp =>
    refine ⟨hcs ▸ h.ended, hp ▸ unseen_set h.unseen (by rintro _ _ heq; cases heq), hp ▸ ?_⟩
    -- the call is made for those found alive, and this one was not
    show r ∉ (s.pipe.calls ++ [live]).flatten
    rw [List.flatten_append, List.flatten_singleton, List.mem_append, not_or]
    exact ⟨h.uncalled, h.unseen _ _ (List.mem_of_getElem? hb)⟩
  | reply b live outcome hb hcs hp =>
    exact ⟨hcs ▸ h.ended, hp ▸ unseen_set h.unseen (by rintro _ _ heq; cases heq), hp ▸ h.uncalled⟩
  | answer b r' v rest c hb hc hcs hp =>
    exact ⟨hcs ▸ ended_set hc (fun he => he) h.ended,
      hp ▸ unseen_set h.unseen (by rintro _ _ heq; cases heq), hp ▸ h.uncalled⟩

/-! ## Shutting down

`Shutdown` waits for `wg` with the mutex in hand, so between the wait and the close no caller can
come in; the gate invariant says which callers are inside at any moment. -/

/-- **The gate.**  `wg` counts the callers inside; once `queueClosed` is set, none of them is past
    its check. -/
structure Gate (callers : List Caller) (d : Door) : Prop where
  wg : d.wg = callers.countP Caller.inside
  /-- `queueClosed` says how far `Shutdown` is -/
  flagged : d.queueClosed = true ↔ d.shutdown = .flagged ∨ d.shutdown = .closed
  closed : d.closed = true → d.shutdown = .closed
  quiet : d.queueClosed = true → ∀ c ∈ callers,
    c.stage = .arrived ∨ c.stage = .counted ∨ c.stage = .returned
  /-- nobody has sent on the closed queue -/
  calm : d.panicked = false

namespace Gate

variable {callers : List Caller} {d : Door} {i : ℕ} {c c' : Caller}

/-- How the number of callers inside changes with one of them. -/
theorem countP_inside_set (hc : callers[i]? = some c) (c' : Caller) :
    (callers.set i c').countP Caller.inside + (if c.inside = true then 1 else 0) =
      callers.countP Caller.inside + (if c'.inside = true then 1 else 0) := by
  obtain ⟨hlt, rfl⟩ := List.getElem?_eq_some_iff.mp hc
  rw [List.countP_set hlt]
  have hpos : callers[i].inside = true → 0 < callers.countP Caller.inside :=
    fun hin => List.countP_pos_iff.mpr ⟨_, List.getElem_mem hlt, hin⟩
  split
  · rename_i hin
    have := hpos hin
    omega
  · omega

/-- A caller past its check has found `queueClosed` unset, and nobody sets it while it is inside. -/
theorem open_of_stage (h : Gate callers d) (hc : callers[i]? = some c)
    (hstage : c.stage = .admitted ∨ c.stage = .sending ∨ c.stage = .waiting) :
    d.queueClosed = false := by
  rw [← Bool.not_eq_true]
  intro hset
  have hquiet := h.quiet hset c (List.mem_of_getElem? hc)
  rcases hstage with hs | hs | hs
  all_goals
    rw [hs] at hquiet
    rcases hquiet with hq | hq | hq <;> cases hq

/-- What does not touch the stage does not touch the gate. -/
theorem setCaller (h : Gate callers d) (hc : callers[i]? = some c) (hstage : c'.stage = c.stage) :
    Gate (callers.set i c') d := by
  -- the same stage is counted the same
  have hinside : c'.inside = c.inside := by
    unfold Caller.inside
    rw [hstage]
  have hcount := countP_inside_set hc c'
  rw [hinside] at hcount
  refine ⟨?_, h.flagged, h.closed, ?_, h.calm⟩
  · have := h.wg
    omega
  · intro hset x hx
    rcases List.mem_or_eq_of_mem_set hx with hold | rfl
    · exact h.quiet hset x hold
    · rw [hstage]
      exact h.quiet hset c (List.mem_of_getElem? hc)

/-- A caller inside moves on, with the queue open. -/
theorem advance (h : Gate callers d) (hc : callers[i]? = some c) (hin : c.inside = true)
    (hin' : c'.inside = true) (hopen : d.queueClosed = false) : Gate (callers.set i c') d := by
  have hcount := countP_inside_set hc c'
  rw [if_pos hin, if_pos hin'] at hcount
  refine ⟨?_, h.flagged, h.closed, ?_, h.calm⟩
  · have := h.wg
    omega
  · intro hset
    rw [hopen] at hset
    cases hset

/-- A caller inside returns. -/
theorem leave (h : Gate callers d) (hc : callers[i]? = some c) (hin : c.inside = true)
    (hout : c'.stage = .returned) : Gate (callers.set i c') { d with wg := d.wg - 1 } := by
  have hcount := countP_inside_set hc c'
  -- one caller less inside, and one less in `wg`
  have hinside : c'.inside = false := by
    unfold Caller.inside
    rw [hout]
    rfl
  rw [if_pos hin, hinside, if_neg Bool.false_ne_true] at hcount
  refine ⟨?_, h.flagged, h.closed, ?_, h.calm⟩
  · have := h.wg
    show d.wg - 1 = (callers.set i c').countP Caller.inside
    omega
  · intro hset x hx
    rcases List.mem_or_eq_of_mem_set hx with hold | rfl
    · exact h.quiet hset x hold
    · exact .inr (.inr hout)

/-- **A caller comes in**: it is counted before it looks whether the client is closing. -/
theorem enter (h : Gate callers d) (hc : callers[i]? = some c) (hstage : c.stage = .arrived) :
    Gate (callers.set i { c with stage := .counted }) { d with wg := d.wg + 1 } := by
  have hcount := countP_inside_set hc { c with stage := .counted }
  -- one caller more inside, and one more in `wg`
  have hold : c.inside = false := by
    unfold Caller.inside
    rw [hstage]
    rfl
  have hnew : Caller.inside { c with stage := .counted } = true := rfl
  rw [hold, hnew, if_neg Bool.false_ne_true, if_pos rfl] at hcount
  refine ⟨?_, h.flagged, h.closed, ?_, h.calm⟩
  · have := h.wg
    show d.wg + 1 = _
    omega
  · intro hset x hx
    rcases List.mem_or_eq_of_mem_set hx with hin | rfl
    · exact h.quiet hset x hin
    · exact .inr (.inl rfl)

/-- A caller that has only arrived is not inside. -/
theorem arrive (h : Gate callers d) (mode : SendMode) :
    Gate (callers ++ [({ mode := mode } : Caller)]) d := by
  refine ⟨?_, h.flagged, h.closed, ?_, h.calm⟩
  · rw [List.countP_append, h.wg]
    rfl
  · intro hset c hc
    rcases List.mem_append.mp hc with hin | hin
    · exact h.quiet hset c hin
    · rw [List.mem_singleton.mp hin]
      exact .inl rfl

end Gate

/-- From the count to the return a caller is inside. -/
theorem inside_of_stage {c : Caller} {stage : CallerStage} (h : c.stage = stage)
    (ha : stage ≠ .arrived) (hr : stage ≠ .returned) : c.inside = true := by
  unfold Caller.inside
  rw [h]
  simp [ha, hr]

/-- A step of a caller, from what its handler does. -/
theorem gate_atCaller {s : PeerClient} {i : ℕ}
    {f : PeerClient → ℕ → Caller → Option (ℕ × Response) × PeerClient}
    (h : Gate s.callers s.door)
    (hf : ∀ c, s.callers[i]? = some c → Gate (f s i c).2.callers (f s i c).2.door) :
    Gate (s.atCaller i f).2.callers (s.atCaller i f).2.door := by
  unfold PeerClient.atCaller
  cases hc : s.callers[i]? with
  | none => exact h
  | some c => exact hf c hc

/-- A value in a response channel moves nobody. -/
theorem gate_respond {s : PeerClient} (h : Gate s.callers s.door) (r : ℕ) (v : Response) (b : ℕ)
    (next : Batch) : Gate (s.respond r v b next).callers (s.respond r v b next).door := by
  unfold PeerClient.respond
  cases hc : s.callers[r]? with
  | none => exact h
  | some c =>
    simp only
    split
    · exact h.setCaller hc rfl
    · exact h

/-- The steps of a caller. -/
theorem gate_caller {s : PeerClient} {i : ℕ} {c : Caller} (h : Gate s.callers s.door)
    (hc : s.callers[i]? = some c) :
    Gate (s.enter i c).2.callers (s.enter i c).2.door ∧
    Gate (s.checkClosed i c).2.callers (s.checkClosed i c).2.door ∧
    Gate (s.checkContext i c).2.callers (s.checkContext i c).2.door ∧
    Gate (s.send i c).2.callers (s.send i c).2.door ∧
    Gate (s.abandon i c).2.callers (s.abandon i c).2.door ∧
    Gate (s.receive i c).2.callers (s.receive i c).2.door ∧
    Gate (s.giveUp i c).2.callers (s.giveUp i c).2.door := by
  refine ⟨?_, ?_, ?_, ?_, ?_, ?_, ?_⟩
  · unfold PeerClient.enter
    split
    · rename_i hstage
      exact h.enter hc hstage.1
    · exact h
  · -- past the check only if `queueClosed` is not set
    unfold PeerClient.checkClosed
    split
    · rename_i hstage
      have hin := inside_of_stage hstage (by decide) (by decide)
      split
      · exact h.leave hc hin rfl
      · rename_i hopen
        exact h.advance hc hin rfl (Bool.eq_false_iff.mpr hopen)
    · exact h
  · unfold PeerClient.checkContext
    split
    · rename_i hstage
      have hin := inside_of_stage hstage (by decide) (by decide)
      split
      · exact h.leave hc hin rfl
      · exact h.advance hc hin rfl (h.open_of_stage hc (.inl hstage))
    · exact h
  · -- the queue can only be closed after `queueClosed` is set, and this caller is past its check
    unfold PeerClient.send
    split
    · rename_i hstage
      have hin := inside_of_stage hstage (by decide) (by decide)
      have hopen := h.open_of_stage hc (.inr (.inl hstage))
      split
      · split
        · -- the queue is closed only after `queueClosed` is set
          rename_i hclosed
          have hset := h.flagged.mpr (.inr (h.closed hclosed))
          rw [hopen] at hset
          cases hset
        · split
          · exact h.advance hc hin rfl hopen
          · exact h
      · exact h.advance hc hin rfl hopen
    · exact h
  · unfold PeerClient.abandon
    split
    · rename_i hstage _ _
      exact h.leave hc (inside_of_stage hstage (by decide) (by decide)) rfl
    · exact h
  · -- returning is possible at any time
    unfold PeerClient.receive
    split
    · rename_i hstage _
      exact h.leave hc (inside_of_stage hstage (by decide) (by decide)) rfl
    · rename_i hstage _
      exact h.leave hc (inside_of_stage hstage (by decide) (by decide)) rfl
    · exact h
  · unfold PeerClient.giveUp
    split
    · rename_i hstage _
      exact h.leave hc (inside_of_stage hstage (by decide) (by decide)) rfl
    · exact h

/-- The steps of `Shutdown`: `queueClosed` is set when nobody is inside. -/
theorem gate_flag {s : PeerClient} (h : Gate s.callers s.door) :
    Gate s.flag.callers s.flag.door := by
  unfold PeerClient.flag
  split
  · rename_i hlocked
    -- `wg` is zero, so by the count nobody is inside
    have hnone : ∀ c ∈ s.callers, ¬ c.inside = true := by
      apply List.countP_eq_zero.mp
      rw [← h.wg]
      exact hlocked.2
    refine ⟨h.wg, ⟨fun _ => .inl rfl, fun _ => rfl⟩, ?_, ?_, h.calm⟩
    · intro hclosed
      have := h.closed hclosed
      rw [hlocked.1] at this
      cases this
    · intro _ c hc
      have hout := hnone c hc
      unfold Caller.inside at hout
      cases hstage : c.stage with
      | arrived => exact .inl rfl
      | returned => exact .inr (.inr rfl)
      | counted => simp [hstage] at hout
      | admitted => simp [hstage] at hout
      | sending => simp [hstage] at hout
      | waiting => simp [hstage] at hout
  · exact h

/-- A step of `Shutdown` that leaves `queueClosed` as it is. -/
theorem Gate.advanceShutdown {callers : List Caller} {d : Door} (h : Gate callers d)
    {stage : ShutdownStage} {closed : Bool}
    (hflag : (stage = .flagged ∨ stage = .closed) ↔
      (d.shutdown = .flagged ∨ d.shutdown = .closed))
    (hclosed : closed = true → stage = .closed) :
    Gate callers { d with shutdown := stage, closed := closed } :=
  ⟨h.wg, h.flagged.trans hflag.symm, hclosed, h.quiet, h.calm⟩

/-- **Step.** One case per event, each one of the moves above. -/
theorem Gate.step {s : PeerClient} (batchLimit : ℕ) (e : ClientEvent) (h : Gate s.callers s.door) :
    Gate (s.step batchLimit e).2.callers (s.step batchLimit e).2.door := by
  cases e with
  | arrive mode => exact h.arrive mode
  | endContext i err => exact gate_atCaller h (fun c hc => h.setCaller hc rfl)
  | enter i => exact gate_atCaller h (fun c hc => (gate_caller h hc).1)
  | checkClosed i => exact gate_atCaller h (fun c hc => (gate_caller h hc).2.1)
  | checkContext i => exact gate_atCaller h (fun c hc => (gate_caller h hc).2.2.1)
  | send i => exact gate_atCaller h (fun c hc => (gate_caller h hc).2.2.2.1)
  | abandon i => exact gate_atCaller h (fun c hc => (gate_caller h hc).2.2.2.2.1)
  | receive i => exact gate_atCaller h (fun c hc => (gate_caller h hc).2.2.2.2.2.1)
  | giveUp i => exact gate_atCaller h (fun c hc => (gate_caller h hc).2.2.2.2.2.2)
  | take => exact h
  | tick => exact h
  | examine b =>
    show Gate (s.examine b).callers (s.examine b).door
    unfold PeerClient.examine
    split
    · split
      · exact gate_respond h _ _ _ _
      · exact h
    · exact h
  | call b =>
    show Gate (s.call b).callers (s.call b).door
    unfold PeerClient.call
    split <;> exact h
  | reply b outcome =>
    show Gate (s.reply b outcome).callers (s.reply b outcome).door
    unfold PeerClient.reply
    split <;> exact h
  | answer b =>
    show Gate (s.answer b).callers (s.answer b).door
    unfold PeerClient.answer
    split
    · exact gate_respond h _ _ _ _
    · exact h
  -- `Shutdown` starts and takes the mutex; `queueClosed` and the queue are not touched
  | shutdown =>
    show Gate s.shutdown.callers s.shutdown.door
    unfold PeerClient.shutdown
    split
    · rename_i hstage
      refine h.advanceShutdown (by rw [hstage]; simp) (fun hc => ?_)
      have := h.closed hc
      rw [hstage] at this
      cases this
    · exact h
  | lock =>
    show Gate s.lock.callers s.lock.door
    unfold PeerClient.lock
    split
    · rename_i hstage
      refine h.advanceShutdown (by rw [hstage]; simp) (fun hc => ?_)
      have := h.closed hc
      rw [hstage] at this
      cases this
    · exact h
  | flag => exact gate_flag h
  -- the queue is closed last
  | close =>
    show Gate s.close.callers s.close.door
    unfold PeerClient.close
    split
    · rename_i hstage
      exact h.advanceShutdown (by rw [hstage]; simp) (fun _ => rfl)
    · exact h

/-! ## Every interleaving

The invariants hold of a new client and are kept by every event, so they hold after any sequence of
events. -/

/-- A client before its first caller. -/
theorem flow_new : Flow [] {} := by
  refine ⟨?_, ?_, ?_, ?_, ?_, ?_, ?_, ?_, ?_⟩
  · exact List.Perm.refl _
  · exact List.nodup_nil
  · intro r hr
    cases hr
  · intro r c hc
    cases hc
  · exact List.nodup_nil
  · intro r hr
    cases hr
  · intro live hlive
    cases hlive
  · intro r v hv
    cases hv
  · intro r v hv
    cases hv

/-- Nobody is inside, and nothing is closed. -/
theorem gate_new : Gate [] {} := by
  refine ⟨rfl, by simp, ?_, ?_, rfl⟩
  · intro hc
    cases hc
  · intro _ c hc
    cases hc

/-- The state after a run from a new client. -/
def PeerClient.after (batchLimit : ℕ) (es : List ClientEvent) : PeerClient :=
  Machine.exec (PeerClient.step batchLimit) {} es

/-- **Run.** By `change_step` and `Flow.change`, over any events. -/
theorem flow_after (batchLimit : ℕ) (es : List ClientEvent) :
    Flow (PeerClient.after batchLimit es).callers (PeerClient.after batchLimit es).pipe :=
  Machine.invariant_rule (P := fun s : PeerClient => Flow s.callers s.pipe)
    (fun s e _ h => h.change (change_step batchLimit s e)) (Machine.guarded_true _ _ es) flow_new

/-- **Run.** By `Gate.step`. -/
theorem gate_after (batchLimit : ℕ) (es : List ClientEvent) :
    Gate (PeerClient.after batchLimit es).callers (PeerClient.after batchLimit es).door :=
  Machine.invariant_rule (P := fun s : PeerClient => Gate s.callers s.door)
    (fun _ e _ h => h.step batchLimit e) (Machine.guarded_true _ _ es) gate_new

/-- **Batched forwarding loses, duplicates and swaps nothing**, in any interleaving.  No request is
    in two calls.  The accepted requests are, each once, those still pending and those that got
    their value; the response channel of a pending one is empty, so the send of its value does not
    block.  A success is the answer at the request's own place in its call.  A request whose context
    has ended before a `sendBatch` found it alive is in no call, then or later.  Nobody sends on the
    closed queue. -/
theorem batching_faithful (batchLimit : ℕ) (es : List ClientEvent) :
    let s := PeerClient.after batchLimit es
    s.pipe.calls.flatten.Nodup ∧
    (s.pipe.accepted.Nodup ∧ (s.pipe.pending ++ s.pipe.answered).Perm s.pipe.accepted) ∧
    (∀ r ∈ s.pipe.pending, ∃ c, s.callers[r]? = some c ∧ c.resp = none) ∧
    (∀ r v, (r, .ok v) ∈ s.pipe.sent → s.pipe.Entry r v) ∧
    (∀ r, Gone r s → ∀ later, r ∉ (PeerClient.after batchLimit (es ++ later)).pipe.calls.flatten) ∧
    s.door.panicked = false := by
  intro s
  have hflow := flow_after batchLimit es
  refine ⟨hflow.once, ⟨hflow.nodup, hflow.conserved⟩, ?_, hflow.sentEntry, ?_,
    (gate_after batchLimit es).calm⟩
  · -- a pending request is an accepted one, so it has a caller; its channel is empty
    intro r hr
    have haccepted : r ∈ s.pipe.accepted :=
      hflow.conserved.mem_iff.mp (List.mem_append_left _ hr)
    obtain ⟨c, hc, -⟩ := hflow.handed r haccepted
    exact ⟨c, hc, hflow.empty_of_pending hr hc⟩
  · -- `Gone` is an invariant of what comes after
    intro r hgone later
    have hlater : Gone r (Machine.exec (PeerClient.step batchLimit) s later) :=
      Machine.invariant_rule (P := Gone r) (fun s e _ h => h.change (change_step batchLimit s e))
        (Machine.guarded_true _ _ later) hgone
    have hsplit : PeerClient.after batchLimit (es ++ later) =
        Machine.exec (PeerClient.step batchLimit) s later := Machine.exec_append _ _ _
    rw [hsplit]
    exact hlater.uncalled

/-- Two callers share a batch, and the first leaves before it is sent. -/
def sharedBatch : List ClientEvent :=
  [.arrive .batch, .arrive .batch, .enter 0, .enter 1, .checkClosed 0, .checkClosed 1,
    .checkContext 0, .checkContext 1, .send 0, .send 1, .take, .shutdown, .lock,
    .endContext 0 "context canceled", .take, .flag, .examine 0, .examine 0, .call 0,
    .reply 0 (.ok [{ remaining := 7 }]), .answer 0, .giveUp 0, .receive 1, .flag, .close, .take]

example : (PeerClient.after 2 sharedBatch).pipe.sent =
      [(0, .error "Context error before sending batch: context canceled"),
        (1, .ok { remaining := 7 })] ∧
    (PeerClient.after 2 sharedBatch).pipe.calls = [[1]] ∧
    (PeerClient.after 2 sharedBatch).door =
      { shutdown := .closed, queueClosed := true, closed := true } := by
  decide +kernel

end Gubernator
