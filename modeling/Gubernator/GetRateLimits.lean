/-
  A client's call (`gubernator.go`, `GetRateLimits` and `asyncRequest`).

  The call walks over its items.  An item is answered on the spot, or handed to a goroutine that
  forwards it to the owner, looks the owner up again when the forwarding failed on a context error,
  and may end up answering from the local bucket.  The goroutines' answers come in over a channel,
  in any order, and each is stored at the index it carries.

  What an item meets on its way is its `Surroundings`: the state of the caller's context, the peers
  the owner lookups give, what the bucket answers and what each forwarding attempt comes to.  They
  are arbitrary, so every sequence of failures and ring changes is covered; in particular whatever
  other requests do to a bucket in between.  With them the handling of an item is a function, of its
  answer and of its `Effect`s.

  Two things are shown of a call.  The responses do not depend on the order in which the goroutines
  answer (`responses_eq`), because each answer is stored at the index of its request and no two
  carry the same.  And an item is handed on a bounded number of times, once if it has `max_wait`
  (`asyncRequest_forwards`, `asyncRequest_maxWait`): a request that books a slot must not be made
  twice.
-/
import Gubernator.Lib.Machine
import Gubernator.Global

namespace Gubernator

/-! ## Items and what they meet

The data of the source, and the interface to the rest of the instance. -/

/-- What a picker knows of a peer. -/
structure PeerInfo where
  dataCenter : String := ""
  httpAddress : String := ""
  grpcAddress : String
  isOwner : Bool
  deriving DecidableEq, Repr

/-- An error of `GetPeerRateLimit`; `isContext` if it is `context.Canceled` or
    `context.DeadlineExceeded`. -/
structure ForwardError where
  text : String
  isContext : Bool
  deriving DecidableEq, Repr

/-- **What an item meets.** The functions of attempts are numbered by the failed attempts so far. -/
structure Surroundings where
  /-- `ctx.Err()` when the item is looked at -/
  ctxErr : Option String
  /-- `ctx.Err()` after a failed forwarding attempt -/
  ctxErrAfter : ℕ → Option String
  /-- `GetPeer`, at first and after a failed attempt -/
  getPeer : ℕ → Except String PeerInfo
  getLocalRateLimit : RateLimitReq → RateLimitReqState → Except String RateLimitResp
  /-- `GetPeerRateLimit`, by the number of failed attempts before -/
  getPeerRateLimit : ℕ → PeerInfo → RateLimitReq → Except ForwardError RateLimitResp

/-- A request handed on: to a bucket of this peer, to another peer, to the queue of GLOBAL hits. -/
inductive Effect where
  | bucket (r : RateLimitReq)
  | forward (peer : PeerInfo) (r : RateLimitReq)
  | queueHit (r : RateLimitReq)
  deriving DecidableEq, Repr

/-- Handed to another peer. -/
def Effect.isForward : Effect → Bool
  | forward _ _ => true
  | _ => false

/-- A response, with the owner it names in its metadata. -/
structure Answer where
  resp : RateLimitResp
  owner : Option String := none
  deriving DecidableEq, Repr

/-- A response that carries an error and nothing else. -/
def Answer.ofError (text : String) : Answer := { resp := { error := text } }

/-- An answer and what was done for it. -/
structure Handled where
  answer : Answer
  effects : List Effect
  deriving DecidableEq, Repr

/-! ## `asyncRequest`

The loop of the goroutine.  A round either decides (`.inr`) or leaves the variables for another
(`.inl`); the branches are those of the source, in its order. -/

/-- The variables of the loop. -/
structure AsyncState where
  attempts : ℕ
  peer : PeerInfo
  err : String
  effects : List Effect

/-- The request as it is forwarded: with `max_wait` it skips the batch queue. -/
def RateLimitReq.forwarded (r : RateLimitReq) : RateLimitReq :=
  if 0 < r.maxWait then { r with behavior := setBehavior r.behavior .noBatching true } else r

/-- One round of the loop. -/
def asyncRound (w : Surroundings) (r : RateLimitReq) (s : AsyncState) : AsyncState ⊕ Handled :=
  let key := r.hashKey
  let err := s.err
  if 5 < s.attempts then
    .inr ⟨.ofError
      s!"GetPeer() keeps returning peers that are not connected for '{key}': {err}", s.effects⟩
  -- attempting again, the owner might have changed to us
  else if s.attempts ≠ 0 ∧ s.peer.isOwner = true then
    let effects := s.effects ++ [.bucket r]
    match w.getLocalRateLimit r { isOwner := s.peer.isOwner } with
    | .error e => .inr ⟨.ofError s!"during getLocalRateLimit() for '{key}': {e}", effects⟩
    | .ok resp => .inr ⟨{ resp }, effects⟩
  else
    let effects := s.effects ++ [.forward s.peer r.forwarded]
    match w.getPeerRateLimit s.attempts s.peer r.forwarded with
    | .ok resp => .inr ⟨{ resp, owner := some s.peer.grpcAddress }, effects⟩
    | .error e =>
      let text := e.text
      -- a retry could book the same request twice
      if 0 < r.forwarded.maxWait then
        .inr ⟨.ofError s!"while fetching rate limit '{key}' from peer: {text}", effects⟩
      else if e.isContext then
        match w.ctxErrAfter s.attempts with
        | some ctxErr => .inr ⟨.ofError s!"caller gave up on rate limit '{key}': {ctxErr}", effects⟩
        | none =>
          match w.getPeer (s.attempts + 1) with
          | .error peerErr =>
            .inr ⟨.ofError s!"while finding peer that owns rate limit '{key}': {peerErr}", effects⟩
          | .ok newPeer =>
            .inl { attempts := s.attempts + 1, peer := newPeer, err := text, effects }
      else .inr ⟨.ofError s!"while fetching rate limit '{key}' from peer: {text}", effects⟩

/-- Seven rounds are enough (`asyncRequest_ends`). -/
def asyncRequest (w : Surroundings) (peer : PeerInfo) (r : RateLimitReq) : Option Handled :=
  Loop.run (asyncRound w r) 7 { attempts := 0, peer, err := "", effects := [] }

section AsyncRequest
variable {w : Surroundings} {r : RateLimitReq} {s s' : AsyncState} {h : Handled}

/-- **What a round that goes on has done**: one more forwarding attempt, of a request without
    `max_wait`. -/
theorem asyncRound_inl (hround : asyncRound w r s = .inl s') :
    s.attempts ≤ 5 ∧ ¬ 0 < r.maxWait ∧ s'.attempts = s.attempts + 1 ∧
      s'.effects = s.effects ++ [.forward s.peer r.forwarded] := by
  unfold asyncRound at hround
  dsimp only at hround
  -- of the nine ways through a round only one goes on: forwarded, no `max_wait`, a context error,
  -- and a peer found
  split at hround
  · cases hround
  rename_i hfew
  split at hround
  · split at hround <;> cases hround
  split at hround
  · cases hround
  split at hround
  · cases hround
  rename_i hwait
  split at hround
  swap
  · cases hround
  split at hround
  · cases hround
  split at hround
  · cases hround
  obtain rfl := Sum.inl.inj hround
  refine ⟨not_lt.mp hfew, ?_, rfl, rfl⟩
  unfold RateLimitReq.forwarded at hwait
  split at hwait
  · exact absurd ‹_› hwait
  · exact hwait

/-- What a round that breaks has done: nothing, an answer from the bucket when it is not the first,
    or one more attempt. -/
theorem asyncRound_inr (hround : asyncRound w r s = .inr h) :
    (5 < s.attempts ∧ h.effects = s.effects) ∨
    (s.attempts ≤ 5 ∧ s.attempts ≠ 0 ∧ h.effects = s.effects ++ [.bucket r]) ∨
    (s.attempts ≤ 5 ∧ h.effects = s.effects ++ [.forward s.peer r.forwarded]) := by
  unfold asyncRound at hround
  dsimp only at hround
  split at hround
  · rename_i hmany
    obtain rfl := Sum.inr.inj hround
    exact .inl ⟨hmany, rfl⟩
  rename_i hfew
  have hle := not_lt.mp hfew
  split at hround
  · rename_i howner
    refine .inr (.inl ⟨hle, howner.1, ?_⟩)
    split at hround <;> (obtain rfl := Sum.inr.inj hround; rfl)
  -- all the other ends come after an attempt
  refine .inr (.inr ⟨hle, ?_⟩)
  repeat' split at hround
  all_goals first | (obtain rfl := Sum.inr.inj hround; rfl) | cases hround

/-- **The loop ends**: every round that goes on uses up one of six attempts. -/
theorem asyncRequest_ends (w : Surroundings) (peer : PeerInfo) (r : RateLimitReq) :
    ∃ h, asyncRequest w peer r = some h := by
  apply Loop.run_ends (fun s => 6 - s.attempts)
  · intro s s' hround
    obtain ⟨hle, -, hnext, -⟩ := asyncRound_inl hround
    show 6 - s'.attempts < 6 - s.attempts
    omega
  · show 6 - 0 < 7
    omega

/-- **At most six attempts.** -/
theorem asyncRequest_forwards {peer : PeerInfo} (hrun : asyncRequest w peer r = some h) :
    (h.effects.countP Effect.isForward) ≤ 6 := by
  -- before every round, as many attempts as were counted
  refine Loop.run_rule
    (P := fun s => s.effects.countP Effect.isForward = s.attempts ∧ s.attempts ≤ 6)
    (Q := fun h => h.effects.countP Effect.isForward ≤ 6) ?_ ?_ hrun ⟨rfl, Nat.zero_le 6⟩
  · rintro s s' ⟨hcount, -⟩ hround
    obtain ⟨hle, -, hnext, heffects⟩ := asyncRound_inl hround
    have hone : [Effect.forward s.peer r.forwarded].countP Effect.isForward = 1 := rfl
    rw [heffects, List.countP_append, hone, hnext]
    omega
  · rintro s h ⟨hcount, hle⟩ hround
    have hone : [Effect.forward s.peer r.forwarded].countP Effect.isForward = 1 := rfl
    have hnone : [Effect.bucket r].countP Effect.isForward = 0 := rfl
    -- the round that ends the loop makes one more attempt at most, and none after six
    rcases asyncRound_inr hround with ⟨-, heffects⟩ | ⟨hfew, -, heffects⟩ | ⟨hfew, heffects⟩
    · rw [heffects]
      omega
    · rw [heffects, List.countP_append, hnone]
      omega
    · rw [heffects, List.countP_append, hone]
      omega

/-- **A request with `max_wait` is forwarded once**, and that is all. -/
theorem asyncRequest_maxWait {peer : PeerInfo} (hwait : 0 < r.maxWait)
    (hrun : asyncRequest w peer r = some h) : h.effects.length ≤ 1 := by
  refine Loop.run_rule (P := fun s => s.attempts = 0 ∧ s.effects = [])
    (Q := fun h => h.effects.length ≤ 1) ?_ ?_ hrun ⟨rfl, rfl⟩
  · rintro s s' - hround
    obtain ⟨-, hplain, -, -⟩ := asyncRound_inl hround
    exact absurd hwait hplain
  · rintro s h ⟨hzero, hnone⟩ hround
    rcases asyncRound_inr hround with ⟨hmany, -⟩ | ⟨-, hagain, -⟩ | ⟨-, heffects⟩
    · omega
    · exact absurd hzero hagain
    · rw [heffects, hnone]
      exact le_refl 1

end AsyncRequest

/-! ## `GetRateLimits`

The loop over the requests, with the errors it answers itself, and what the call returns. -/

/-- An item after the call has looked at it. -/
inductive Item where
  | handled (h : Handled)
  | launched (peer : PeerInfo) (r : RateLimitReq)

/-- **One item of the call.** The checks come before the owner is looked up, in the order of the
    source; a context that has ended is noticed after the first two. -/
def getRateLimitsItem (forceGlobal : Bool) (now : ℤ) (w : Surroundings) (req : RateLimitReq) :
    Item :=
  let key := req.hashKey
  if req.uniqueKey = "" then .handled ⟨.ofError "field 'unique_key' cannot be empty", []⟩
  else if req.name = "" then .handled ⟨.ofError "field 'namespace' cannot be empty", []⟩
  else
    let stamped := req.stamped now
    match w.ctxErr with
    | some e => .handled ⟨.ofError s!"Error while iterating request items: {e}", []⟩
    | none =>
      let r := if forceGlobal then
        { stamped with behavior := setBehavior stamped.behavior .global true } else stamped
      let msg := validateMaxWait r
      if msg ≠ "" then .handled ⟨.ofError msg, []⟩
      else
        match w.getPeer 0 with
        | .error e => .handled
            ⟨.ofError s!"Error in GetPeer, looking up peer that owns rate limit '{key}': {e}", []⟩
        | .ok peer =>
          if peer.isOwner then
            match w.getLocalRateLimit r { isOwner := true } with
            | .error e => .handled
                ⟨.ofError s!"Error while apply rate limit for '{key}': {e}", [.bucket r]⟩
            | .ok resp => .handled ⟨{ resp }, [.bucket r]⟩
          else if hasBehavior r.behavior .global then
            match w.getLocalRateLimit r.asLocal { isOwner := false } with
            | .error e => .handled
                ⟨{ Answer.ofError
                      s!"Error in getGlobalRateLimit: during in getLocalRateLimit: {e}" with
                   owner := some peer.grpcAddress }, [.bucket r.asLocal]⟩
            | .ok resp => .handled
                ⟨{ resp, owner := some peer.grpcAddress }, [.bucket r.asLocal, .queueHit r]⟩
          else .launched peer r

namespace Item

/-- The answer given on the spot. -/
def answer : Item → Option Answer
  | handled h => some h.answer
  | launched _ _ => none

/-- The goroutine started for the item. -/
def job : Item → Option (PeerInfo × RateLimitReq)
  | handled _ => none
  | launched peer r => some (peer, r)

/-- What the item comes to, on the spot or in its goroutine; `none` if that never ends. -/
def finish (w : Surroundings) : Item → Option Handled
  | handled h => some h
  | launched peer r => asyncRequest w peer r

end Item

/-- A call: the settings and the clock it meets, its requests, and what each of them meets. -/
structure ClientCall where
  forceGlobal : Bool
  now : ℤ
  requests : List RateLimitReq
  surroundings : ℕ → Surroundings

/-- What a goroutine sends over the channel. -/
structure AsyncResp where
  idx : ℕ
  resp : Answer
  deriving DecidableEq, Repr

namespace ClientCall

/-- The most requests a call may have. -/
def maxBatchSize : ℕ := 1000

/-- The item of a request. -/
def item (c : ClientCall) (i : ℕ) (req : RateLimitReq) : Item :=
  getRateLimitsItem c.forceGlobal c.now (c.surroundings i) req

/-- The items after the loop over the requests. -/
def items (c : ClientCall) : List Item := c.requests.mapIdx c.item

/-- What the goroutines send, each at the end of its loop; `none` for one that never ends. -/
def sent (c : ClientCall) : List (Option AsyncResp) :=
  c.items.zipIdx.filterMap (fun p => p.1.job.map (fun j =>
    (asyncRequest (c.surroundings p.2) j.1 j.2).map (fun h => ⟨p.2, h.answer⟩)))

/-- `resp.Responses[a.Idx] = a.Resp` -/
def store (responses : List (Option Answer)) (a : AsyncResp) : List (Option Answer) :=
  responses.set a.idx (some a.resp)

/-- **What the call can return.**  `wg.Wait` waits for every goroutine, so all have sent their
    answers, in some order; a response that nobody made is the nil pointer (`none`). -/
inductive Returns (c : ClientCall) : Except String (List (Option Answer)) → Prop
  | tooLarge : maxBatchSize < c.requests.length →
      Returns c (.error "Requests.RateLimits list too large; max size is '1000'")
  | responses (arrived : List AsyncResp) : c.requests.length ≤ maxBatchSize →
      (arrived.map some).Perm c.sent →
      Returns c (.ok (arrived.foldl store (c.items.map Item.answer)))

end ClientCall

/-! ## What an item does

What the item's code can lead to, and its agreement with the model of GLOBAL. -/

section Items
variable {forceGlobal : Bool} {now : ℤ} {w : Surroundings} {req : RateLimitReq}

/-- Stamping leaves `max_wait`. -/
theorem stamped_maxWait (r : RateLimitReq) (now : ℤ) : (r.stamped now).maxWait = r.maxWait := by
  unfold RateLimitReq.stamped
  split <;> rfl

/-- **An item handled on the spot** goes to a bucket at most, and to the queue of hits only if it
    is GLOBAL; an item launched keeps its `max_wait`. -/
theorem getRateLimitsItem_cases (forceGlobal : Bool) (now : ℤ) (w : Surroundings)
    (req : RateLimitReq) :
    (∃ h, getRateLimitsItem forceGlobal now w req = .handled h ∧ (h.effects = [] ∨
      (∃ r, h.effects = [.bucket r]) ∨
      ∃ r, hasBehavior r.behavior .global = true ∧ validateMaxWait r = "" ∧
        r.maxWait = req.maxWait ∧ h.effects = [.bucket r.asLocal, .queueHit r])) ∨
    ∃ peer r, getRateLimitsItem forceGlobal now w req = .launched peer r ∧
      r.maxWait = req.maxWait := by
  unfold getRateLimitsItem
  dsimp only
  split
  · exact .inl ⟨_, rfl, .inl rfl⟩
  split
  · exact .inl ⟨_, rfl, .inl rfl⟩
  split
  · exact .inl ⟨_, rfl, .inl rfl⟩
  -- from here it is the request with its stamp and, if forced, the GLOBAL flag
  set r := if forceGlobal = true then { req.stamped now with
    behavior := setBehavior (req.stamped now).behavior .global true } else req.stamped now with hr
  have hwait : r.maxWait = req.maxWait := by
    rw [hr]
    split <;> exact stamped_maxWait req now
  split
  · exact .inl ⟨_, rfl, .inl rfl⟩
  rename_i hvalid
  split
  · exact .inl ⟨_, rfl, .inl rfl⟩
  split
  · split
    · exact .inl ⟨_, rfl, .inr (.inl ⟨r, rfl⟩)⟩
    · exact .inl ⟨_, rfl, .inr (.inl ⟨r, rfl⟩)⟩
  split
  · rename_i hglobal
    split
    · exact .inl ⟨_, rfl, .inr (.inl ⟨r.asLocal, rfl⟩)⟩
    · exact .inl ⟨_, rfl, .inr (.inr ⟨r, hglobal, not_not.mp hvalid, hwait, rfl⟩)⟩
  · exact .inr ⟨_, r, rfl, hwait⟩

/-- **The item of a key this peer answers itself**, as owner or under GLOBAL, is the `getRateLimit`
    of the cluster model. -/
theorem getRateLimitsItem_local {conf : Config} {host : Host} {s : Shard} {peer : PeerInfo}
    (hctx : w.ctxErr = none) (hpeer : w.getPeer 0 = .ok peer)
    (hlocal : ∀ r reqState, w.getLocalRateLimit r reqState =
      (getLocalRateLimit conf host now s r reqState).result)
    (hhere : peer.isOwner = true ∨ hasBehavior req.behavior .global = true) :
    ∃ owner effects, getRateLimitsItem false now w req =
      .handled ⟨⟨(getRateLimit conf host now peer.isOwner s req).resp, owner⟩, effects⟩ := by
  have hstamp : (req.stamped now).behavior = req.behavior := by
    unfold RateLimitReq.stamped
    split <;> rfl
  have hkey : (req.stamped now).hashKey = req.hashKey := by
    unfold RateLimitReq.stamped
    split <;> rfl
  unfold getRateLimitsItem getRateLimit
  by_cases huser : req.uniqueKey = ""
  · simp only [huser, if_true]
    exact ⟨_, _, rfl⟩
  by_cases hname : req.name = ""
  · simp only [huser, hname, if_true, if_false]
    exact ⟨_, _, rfl⟩
  by_cases hvalid : validateMaxWait (req.stamped now) = ""
  swap
  · simp only [huser, hname, hctx, hvalid, Bool.false_eq_true, if_false, ne_eq, not_false_eq_true,
      if_true]
    exact ⟨_, _, rfl⟩
  simp only [huser, hname, hctx, hvalid, hpeer, hlocal, hkey, Bool.false_eq_true, if_false, ne_eq,
    not_true_eq_false]
  by_cases howner : peer.isOwner = true
  · simp only [howner, if_true]
    cases (getLocalRateLimit conf host now s (req.stamped now) { isOwner := true }).result with
    | error e => exact ⟨_, _, rfl⟩
    | ok resp => exact ⟨_, _, rfl⟩
  · have hglobal : hasBehavior (req.stamped now).behavior .global = true := by
      rw [hstamp]
      exact hhere.resolve_left howner
    simp only [howner, hglobal, getGlobalRateLimit, Bool.false_eq_true, if_true, if_false]
    cases hres : (getLocalRateLimit conf host now s (req.stamped now).asLocal
        { isOwner := false }).result with
    | error e => exact ⟨_, _, rfl⟩
    | ok resp =>
      simp only [hres]
      exact ⟨_, _, rfl⟩

/-- Every item comes to an answer. -/
theorem Item.finish_ends (w : Surroundings) (item : Item) : ∃ h, item.finish w = some h := by
  cases item with
  | handled h => exact ⟨h, rfl⟩
  | launched peer r => exact asyncRequest_ends w peer r

/-- An item is forwarded six times at most, on the spot not at all. -/
theorem finish_forwards {h : Handled}
    (hfinish : (getRateLimitsItem forceGlobal now w req).finish w = some h) :
    h.effects.countP Effect.isForward ≤ 6 := by
  rcases getRateLimitsItem_cases forceGlobal now w req with
    ⟨h', hitem, heffects⟩ | ⟨peer, r, hitem, -⟩
  · rw [hitem] at hfinish
    obtain rfl := Option.some.inj hfinish
    rcases heffects with heff | ⟨r, heff⟩ | ⟨r, -, -, -, heff⟩
    all_goals
      rw [heff]
      exact Nat.zero_le 6
  · rw [hitem] at hfinish
    exact asyncRequest_forwards hfinish

/-- An item with `max_wait` is handed on at most once. -/
theorem finish_maxWait {h : Handled} (hwait : 0 < req.maxWait)
    (hfinish : (getRateLimitsItem forceGlobal now w req).finish w = some h) :
    h.effects.length ≤ 1 := by
  rcases getRateLimitsItem_cases forceGlobal now w req with
    ⟨h', hitem, heffects⟩ | ⟨peer, r, hitem, hr⟩
  · rw [hitem] at hfinish
    obtain rfl := Option.some.inj hfinish
    rcases heffects with heff | ⟨r, heff⟩ | ⟨r, hglobal, hvalid, hr, -⟩
    · rw [heff]
      exact Nat.zero_le 1
    · rw [heff]
      exact le_refl 1
    · -- `max_wait` is not accepted together with GLOBAL
      obtain ⟨-, hplain, -⟩ := validateMaxWait_scheduled hvalid (hr ▸ hwait)
      rw [hglobal] at hplain
      cases hplain
  · rw [hitem] at hfinish
    exact asyncRequest_maxWait (hr ▸ hwait) hfinish

end Items

/-! ## Answers stored by index

The loop that reads the channel.  An index is written once, so the order in which the answers come
does not matter. -/

section Store
variable {arrived : List AsyncResp} {i : ℕ}

/-- Storing answers leaves the number of responses. -/
theorem foldl_store_length (arrived : List AsyncResp) (rs : List (Option Answer)) :
    (arrived.foldl ClientCall.store rs).length = rs.length := by
  induction arrived generalizing rs with
  | nil => rfl
  | cons a arrived ih => rw [List.foldl_cons, ih, ClientCall.store, List.length_set]

/-- An index no answer carries keeps its response. -/
theorem foldl_store_of_not_mem (rs : List (Option Answer))
    (h : i ∉ arrived.map AsyncResp.idx) : (arrived.foldl ClientCall.store rs)[i]? = rs[i]? := by
  induction arrived generalizing rs with
  | nil => rfl
  | cons a arrived ih =>
    simp only [List.map_cons, List.mem_cons, not_or] at h
    rw [List.foldl_cons, ih _ h.2, ClientCall.store, List.getElem?_set_ne (Ne.symm h.1)]

/-- An index carried by one answer gets it, whenever it arrives. -/
theorem foldl_store_of_mem {a : AsyncResp} (rs : List (Option Answer))
    (hnodup : (arrived.map AsyncResp.idx).Nodup) (ha : a ∈ arrived) (hlt : a.idx < rs.length) :
    (arrived.foldl ClientCall.store rs)[a.idx]? = some (some a.resp) := by
  induction arrived generalizing rs with
  | nil => cases ha
  | cons b arrived ih =>
    rw [List.map_cons, List.nodup_cons] at hnodup
    rw [List.foldl_cons]
    rcases List.mem_cons.mp ha with rfl | hrest
    · rw [foldl_store_of_not_mem _ hnodup.1, ClientCall.store, List.getElem?_set_self hlt]
    · apply ih _ hnodup.2 hrest
      rw [ClientCall.store, List.length_set]
      exact hlt

end Store

/-! ## The call

Everything together.  `f` is what each item comes to, which is known to exist by `finish_ends`. -/

namespace ClientCall

variable {c : ClientCall} {f : ℕ → Item → Handled}

/-- The answers the goroutines send, once it is known what each item comes to. -/
def answers (items : List Item) (f : ℕ → Item → Handled) : List AsyncResp :=
  items.zipIdx.filterMap (fun p => p.1.job.map (fun _ => ⟨p.2, (f p.2 p.1).answer⟩))

/-- What is sent are the answers, each at the end of its goroutine. -/
theorem sent_eq (hf : ∀ i item, item.finish (c.surroundings i) = some (f i item)) :
    c.sent = (answers c.items f).map some := by
  unfold sent answers
  rw [List.map_filterMap]
  refine List.filterMap_congr (fun p _ => ?_)
  obtain ⟨item, i⟩ := p
  cases item with
  | handled h => rfl
  | launched peer r =>
    have hrun : asyncRequest (c.surroundings i) peer r = some (f i (.launched peer r)) :=
      hf i (.launched peer r)
    simp only [Item.job, Option.map_some, hrun]

/-- An answer that is sent is that of a launched item, under its index. -/
theorem mem_answers {items : List Item} {a : AsyncResp} (ha : a ∈ answers items f) :
    ∃ item, items[a.idx]? = some item ∧ item.job ≠ none ∧ a.resp = (f a.idx item).answer := by
  obtain ⟨⟨item, i⟩, hp, hitem⟩ := List.mem_filterMap.mp ha
  obtain ⟨j, hj, rfl⟩ := Option.map_eq_some_iff.mp hitem
  exact ⟨item, List.mk_mem_zipIdx_iff_getElem?.mp hp, by simp [hj], rfl⟩

/-- No two answers carry one index. -/
theorem nodup_answers (items : List Item) (f : ℕ → Item → Handled) :
    ((answers items f).map AsyncResp.idx).Nodup := by
  -- the indices of the answers are some of the indices of the items, in order
  have hsub : ∀ ps : List (Item × ℕ),
      ((ps.filterMap (fun p => p.1.job.map (fun _ =>
        (⟨p.2, (f p.2 p.1).answer⟩ : AsyncResp)))).map AsyncResp.idx).Sublist
          (ps.map Prod.snd) := by
    intro ps
    induction ps with
    | nil => exact List.Sublist.refl _
    | cons p ps ih =>
      obtain ⟨item, i⟩ := p
      cases item with
      | handled h => exact ih.cons i
      | launched peer r => exact ih.cons_cons i
  refine (hsub items.zipIdx).nodup ?_
  rw [List.zipIdx_map_snd]
  exact List.nodup_range'

/-- **The responses, whatever the order of arrival.** -/
theorem responses_eq {items : List Item} {ws : ℕ → Surroundings}
    (hf : ∀ i item, item.finish (ws i) = some (f i item)) {arrived : List AsyncResp}
    (harrived : arrived.Perm (answers items f)) :
    arrived.foldl store (items.map Item.answer) =
      items.mapIdx (fun i item => some (f i item).answer) := by
  have hnodup : (arrived.map AsyncResp.idx).Nodup :=
    (harrived.map AsyncResp.idx).nodup_iff.mpr (nodup_answers items f)
  apply List.ext_getElem?
  intro i
  rw [List.getElem?_mapIdx]
  cases hitem : items[i]? with
  | none =>
    have hout : items.length ≤ i := List.getElem?_eq_none_iff.mp hitem
    have hlen := foldl_store_length arrived (items.map Item.answer)
    rw [List.length_map] at hlen
    rw [List.getElem?_eq_none (by omega)]
    rfl
  | some item =>
    have hlt : i < (items.map Item.answer).length := by
      rw [List.length_map]
      exact (List.getElem?_eq_some_iff.mp hitem).1
    cases item with
    | launched peer r =>
      -- its goroutine's answer is among those that arrived
      have hmem : (⟨i, (f i (.launched peer r)).answer⟩ : AsyncResp) ∈ arrived := by
        refine harrived.mem_iff.mpr (List.mem_filterMap.mpr ⟨(.launched peer r, i), ?_, rfl⟩)
        exact List.mk_mem_zipIdx_iff_getElem?.mpr hitem
      exact foldl_store_of_mem _ hnodup hmem hlt
    -- answered on the spot, and no answer that arrives has its index
    | handled h =>
      have hnone : i ∉ arrived.map AsyncResp.idx := by
        intro hi
        obtain ⟨a, ha, rfl⟩ := List.mem_map.mp hi
        obtain ⟨item, hitem', hjob, -⟩ := mem_answers (harrived.mem_iff.mp ha)
        rw [hitem] at hitem'
        obtain rfl := Option.some.inj hitem'
        exact hjob rfl
      have hh : h = f i (.handled h) := Option.some.inj (hf i (.handled h))
      rw [foldl_store_of_not_mem _ hnone, List.getElem?_map, hitem]
      show some (some h.answer) = some (some (f i (.handled h)).answer)
      rw [← hh]

/-- **Every item is answered once, and booked at most once.**  The call ends, with the same
    responses for every order of arrival: at the index of each request, what that request alone
    comes to with what it meets.  No item is forwarded more than six times; one with `max_wait` is
    handed on once at most. -/
theorem getRateLimits_answers_each (c : ClientCall) (hsize : c.requests.length ≤ maxBatchSize) :
    c.sent.length ≤ c.requests.length ∧
    ∃ handled : List Handled,
      c.requests.mapIdx (fun i req => (c.item i req).finish (c.surroundings i)) =
        handled.map some ∧
      (∀ result, c.Returns result ↔ result = .ok (handled.map (fun h => some h.answer))) ∧
      (∀ h ∈ handled, h.effects.countP Effect.isForward ≤ 6) ∧
      ∀ (i : ℕ) (req : RateLimitReq) (h : Handled), c.requests[i]? = some req →
        handled[i]? = some h → 0 < req.maxWait → h.effects.length ≤ 1 := by
  -- what every item comes to
  choose f hf using fun (i : ℕ) (item : Item) => Item.finish_ends (c.surroundings i) item
  have hmap : ∀ {α β γ : Type} (l : List α) (g : ℕ → α → β) (k : β → γ),
      (l.mapIdx g).map k = l.mapIdx (fun i a => k (g i a)) := by
    intro α β γ l g k
    apply List.ext_getElem?
    intro i
    simp [List.getElem?_mapIdx, Function.comp_def]
  have hitems : c.items.mapIdx f = c.requests.mapIdx (fun i req => f i (c.item i req)) := by
    rw [items, List.mapIdx_mapIdx]
    rfl
  refine ⟨?_, c.items.mapIdx f, ?_, ?_, ?_, ?_⟩
  · calc c.sent.length ≤ c.items.zipIdx.length := List.length_filterMap_le _ _
      _ = c.requests.length := by simp [items]
  · rw [hitems, hmap]
    exact congrArg (fun g => c.requests.mapIdx g) (funext (fun i => funext (fun req => hf i _)))
  · have hanswers : c.items.mapIdx (fun i item => some (f i item).answer) =
        (c.items.mapIdx f).map (fun h => some h.answer) := by
      rw [hmap]
    intro result
    constructor
    · -- whatever order the answers came in, and conversely, they can come in some order
      intro hreturns
      cases hreturns with
      | tooLarge hlarge => omega
      | responses arrived _ harrived =>
        rw [sent_eq hf] at harrived
        rw [responses_eq hf ((List.map_perm_map_iff (Option.some_injective _)).mp harrived),
          hanswers]
    · rintro rfl
      rw [← hanswers, ← responses_eq hf (List.Perm.refl _)]
      refine .responses _ hsize ?_
      rw [sent_eq hf]
  · intro h hh
    rw [hitems] at hh
    obtain ⟨i, hlt, rfl⟩ := List.mem_mapIdx.mp hh
    exact finish_forwards (hf i _)
  · intro i req h hreq hh hwait
    rw [hitems, List.getElem?_mapIdx, hreq] at hh
    obtain rfl := Option.some.inj hh
    exact finish_maxWait hwait (hf i _)

/-- Two forwarding attempts time out, and the key moves to this peer. -/
def movingKey : Surroundings where
  ctxErr := none
  ctxErrAfter _ := none
  getPeer n := .ok { grpcAddress := "10.0.0.2:1051", isOwner := decide (n = 2) }
  getLocalRateLimit r _ := .ok { limit := r.limit, remaining := r.limit - r.hits }
  getPeerRateLimit _ _ _ := .error ⟨"context deadline exceeded", true⟩

/-- A plain request and one with `max_wait`. -/
def movingCall : ClientCall where
  forceGlobal := false
  now := 5000000000
  requests := [.sample 1 10 60000 0 0 0, .sample 1 10 60000 0 0 3000]
  surroundings _ := movingKey

/-- The plain request is forwarded twice and then answered here, with nine left; the other is
    forwarded once and gets an error. -/
theorem getRateLimits_answers_each_movingCall :
    (movingCall.requests.mapIdx (fun i req => (movingCall.item i req).finish
      (movingCall.surroundings i))).map (Option.map (fun h => (h.answer.resp.remaining,
        h.effects.countP Effect.isForward, h.effects.length))) =
      [some (9, 2, 3), some (0, 1, 1)] ∧
    ∃ responses, movingCall.Returns (.ok responses) := by
  refine ⟨by decide +kernel, ?_⟩
  obtain ⟨-, handled, -, hreturns, -⟩ := getRateLimits_answers_each movingCall (by decide)
  exact ⟨_, (hreturns _).mpr rfl⟩

end ClientCall

end Gubernator
