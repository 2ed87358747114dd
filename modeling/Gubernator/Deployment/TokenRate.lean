/-
  THE RATE OF A WHOLE CLUSTER: how many hits its peers together can admit for one token bucket, in
  any stretch of time.

  A key has one limit and one duration; clients ask any peers, other keys come and go, requests and
  answers are lost and tried again, peers are started again.  Whatever happens, it comes to requests
  put to the owner's pool one after another (`Does`), and the key's entry there is a fixed window
  (`Lib/FixedWindow`):

  * the window is opened by the request that finds no entry, at the owner's time, and it ends with
    the entry, `duration` after the request's `created_at`.  That is a stamp of the peer the client
    asked, at most `late` milliseconds BEHIND the owner's clock when the request is handled;
  * in the window no more is admitted than the limit (`Accounted`);
  * an entry that is evicted or not loaded again is a window forgotten;
  * what a client is told was granted at the owner, at most once: an answer that is lost has used
    up tokens for nothing.

  So the cluster answers UNDER_LIMIT to at most `limit` hits for each of
  `1 + ⌈T / (duration + 1 - late)⌉` windows in `T` milliseconds, and to `limit` more for each time
  it loses the entry.  In one duration, with clocks that agree, that is TWICE the limit.

  The model adds `created_at` and duration without bound, the source in an `int64`.  A duration near
  `2 ^ 63` wraps there, and each request then finds the entry of the one before expired: the terms
  of a key keep the sum in range (`TokenTerms.inRange`).

  The layers.  A request at the bucket is a move of the window (`TokenTerms.serves`); an event of
  the network is a move, a window forgotten, or nothing to the key (`moved_step`); a run of the
  network is a run of the window (`run_moves`), and the bound is the library's for such runs
  (`Run.grantedIn_le`).
-/
import Gubernator.Deployment.Network
import Gubernator.Token.Window
import Gubernator.Lib.FixedWindow

namespace Gubernator

open FixedWindow

/-! ## The entry of a key is a window

The correspondence.  The item's `ExpireAt` is where the window ends, and what the window has granted
and what the bucket has left are within the limit together. -/

/-- The entry of a token bucket under the terms of its key, and the window it stands for. -/
structure EntryOf (key : String) (limit duration : ℤ) (w : FixedWindow.Window) (item : CacheItem)
    (t : TokenBucketItem) : Prop where
  sameKey : item.key = key
  value : item.value = some (.token t)
  accounted : Accounted w.granted t
  sameLimit : t.limit = limit
  sameDuration : t.duration = duration
  endsAt : item.expireAt = w.endsAt
  valid : item.invalidAt = 0

/-- No entry and no window, or an entry and its window. -/
def Stands (key : String) (limit duration : ℤ) (st : FixedWindow.State)
    (entry : Option CacheItem) : Prop :=
  (entry = none ∧ st.window = none) ∨
    ∃ item t w, entry = some item ∧ st.window = some w ∧ EntryOf key limit duration w item t

/-- The terms of a key's requests, as its owner gets them at `now`. -/
structure TokenTerms (limit duration late now : ℤ) (r : RateLimitReq) : Prop where
  algorithm : r.algorithm = .tokenBucket
  sameLimit : r.limit = limit
  sameDuration : r.duration = duration
  hits : 0 ≤ r.hits
  noReset : hasBehavior r.behavior .resetRemaining = false
  noGregorian : hasBehavior r.behavior .durationIsGregorian = false
  created : epochMillis now - late ≤ r.createdAt
  /-- the end of a window it opens is an `int64` -/
  inRange : r.createdAt + duration < 2 ^ 63

section Bucket
variable {limit duration late now : ℤ} {r : RateLimitReq} {loc : Calendar.Location} {s : Shard}
  {st : FixedWindow.State}

/-- **A request is a move of the window**: it is answered, and grants what the answer admits. -/
def Serves (key : String) (limit duration width now : ℤ) (st : FixedWindow.State)
    (r : RateLimitReq) (out : Except String RateLimitResp × Shard) : Prop :=
  ∃ resp st', out.1 = .ok resp ∧ resp.error = "" ∧
    Move limit width st (.serve (epochMillis now) (admittedBy r (.ok resp))) st' ∧
    Stands key limit duration st' (out.2.cache.peek key)

/-- What is admitted are hits of the request, or none. -/
theorem admittedBy_nonneg (hhits : 0 ≤ r.hits) (result : Except String RateLimitResp) :
    0 ≤ admittedBy r result := by
  unfold admittedBy
  split
  · split
    · exact hhits
    · exact le_rfl
  · exact le_rfl

/-- A request that finds no bucket opens a window. -/
theorem TokenTerms.opens (h : TokenTerms limit duration late now r) (hlimit : 0 ≤ limit)
    (hclock : st.clock ≤ epochMillis now)
    (hclosed : ∀ w, st.window = some w → w.endsAt < epochMillis now)
    (hfind : s.find (epochMillis now) r = none) (reqState : RateLimitReqState) :
    Serves r.hashKey limit duration (duration + 1 - late) now st r
      (tokenBucket loc now s r reqState) := by
  have hnew : tokenBucket loc now s r reqState =
      tokenBucketNewItem loc now (s.lookup (epochMillis now) r).2 r reqState := by
    simp only [tokenBucket, hfind]
  simp only [hnew, tokenBucketNewItem, h.noGregorian, Bool.false_eq_true, if_false]
  set resp : RateLimitResp :=
    { status := if decide (r.limit < r.hits) = true then .overLimit else .underLimit
      limit := r.limit
      remaining := if decide (r.limit < r.hits) = true then r.limit else r.limit - r.hits
      resetTime := r.createdAt + r.duration } with hresp
  -- a request for more than the limit is refused, and the new bucket stays full
  have hadmitted : admittedBy r (.ok resp) = if r.limit < r.hits then 0 else r.hits := by
    by_cases hover : r.limit < r.hits
    · simp [admittedBy, hresp, hover]
    · simp [admittedBy, hresp, hover]
  have hhits := h.hits
  have hlimit' := h.sameLimit
  have hcreated := h.created
  have hduration := h.sameDuration
  -- the window opens with the time of the owner and ends by that of the request
  refine ⟨resp, _, rfl, rfl, .opens (r.createdAt + r.duration) hclock hclosed (by omega)
    (admittedBy_nonneg hhits _) ?_, .inr ⟨_, _, _, Cache.peek_add_self _ _, rfl, rfl, rfl, ?_,
      hlimit', hduration, rfl, rfl⟩⟩
  · rw [hadmitted]
    split <;> omega
  · rw [hadmitted]
    refine ⟨?_, ?_⟩
    · simp only [decide_eq_true_eq]
      split <;> omega
    · simp only [decide_eq_true_eq]
      split <;> omega

/-- A request that finds the bucket takes from its window. -/
theorem TokenTerms.stays (h : TokenTerms limit duration late now r) {item : CacheItem}
    {t : TokenBucketItem} {w : FixedWindow.Window} (hclock : st.clock ≤ epochMillis now)
    (hwindow : st.window = some w) (hentry : EntryOf r.hashKey limit duration w item t)
    (hpeek : s.cache.peek r.hashKey = some item)
    (hopen : epochMillis now ≤ w.endsAt) (reqState : RateLimitReqState) :
    Serves r.hashKey limit duration (duration + 1 - late) now st r
      (tokenBucket loc now s r reqState) := by
  obtain ⟨hkey, hvalue, haccounted, hlimit, hduration, hends, hvalid⟩ := hentry
  have hfresh : item.isExpired (epochMillis now) = false := by
    simp [CacheItem.isExpired, hvalid, hends, hopen]
  have hfind := Shard.find_of_fresh hpeek hfresh hvalue
  obtain ⟨hresult, hpeek'⟩ := tokenBucket_found loc reqState hfind h.noReset
  rw [tokenBucketItem_same loc now (hlimit.trans h.sameLimit.symm)
    (hduration.trans h.sameDuration.symm)] at hresult hpeek'
  have hnext := haccounted.takeHits h.hits item.expireAt
  refine ⟨_, _, hresult, (takeHits_resp r t item.expireAt).2.1,
    .stays hclock hwindow hopen (admittedBy_nonneg h.hits _) ?_, .inr ⟨_, _, _, hpeek', rfl, hkey,
      rfl, hnext, ?_, ?_, hends, hvalid⟩⟩
  · -- all the window has granted, with what is left, is within the limit
    have hwithin := hnext.within
    rw [takeHits_limit, hlimit] at hwithin
    exact (le_add_of_nonneg_right hnext.remaining_nonneg).trans hwithin
  · rw [takeHits_limit, hlimit]
  · rw [takeHits_duration, hduration]

/-- Without a Store, what the cache does not give is not found. -/
theorem find_of_missed (hstore : s.store = none)
    (hmiss : (s.cache.getItem r.hashKey (epochMillis now)).1 = none) :
    s.find (epochMillis now) r = none := by
  unfold Shard.find Shard.lookup
  rcases hget : s.cache.getItem r.hashKey (epochMillis now) with ⟨hit, c⟩
  rw [hget] at hmiss
  obtain rfl : hit = none := hmiss
  simp [hstore]

/-- **Every request under the terms is a move of the window.** -/
theorem TokenTerms.serves (h : TokenTerms limit duration late now r) (hlimit : 0 ≤ limit)
    (hclock : st.clock ≤ epochMillis now) (hstore : s.store = none)
    (hstands : Stands r.hashKey limit duration st (s.cache.peek r.hashKey))
    (reqState : RateLimitReqState) :
    Serves r.hashKey limit duration (duration + 1 - late) now st r
      (tokenBucket loc now s r reqState) := by
  rcases hstands with ⟨hpeek, hwindow⟩ | ⟨item, t, w, hpeek, hwindow, hentry⟩
  · refine h.opens hlimit hclock (fun w hw => ?_) ?_ reqState
    · rw [hwindow] at hw
      cases hw
    · exact find_of_missed hstore (Cache.getItem_of_none hpeek)
  · by_cases hopen : epochMillis now ≤ w.endsAt
    · exact h.stays hclock hwindow hentry hpeek hopen reqState
    · -- the entry has expired, so the request finds none
      have hexpired : item.isExpired (epochMillis now) = true := by
        simp only [CacheItem.isExpired, hentry.endsAt, Bool.or_eq_true, decide_eq_true_eq]
        exact .inr (not_le.mp hopen)
      refine h.opens hlimit hclock (fun w' hw' => ?_) ?_ reqState
      · rw [hwindow] at hw'
        obtain rfl := Option.some.inj hw'
        exact not_le.mp hopen
      · exact find_of_missed hstore (Cache.getItem_of_expired hpeek hexpired)

end Bucket

/-! ## The cluster

From the bucket to the network.  Clients are told of hits by reports; what is counted of a report is
what an accepted answer admits, at the time the owner handled the request. -/

section Cluster
variable {ι : Type}

/-- The hits of a key that a client is told it may have, between two times of the owner. -/
def admittedIn (key : String) (start stop : ℤ) : Option Report → ℤ
  | some report =>
    if report.req.hashKey = key ∧
        (start ≤ epochMillis report.time ∧ epochMillis report.time ≤ stop) ∧
        report.answer.resp.error = "" ∧ report.answer.resp.status = .underLimit then
      report.req.hits
    else 0
  | none => 0

/-- Errors and silence admit nothing. -/
theorem admittedIn_silent {report : Option Report} (h : Members.Silent report) (key : String)
    (start stop : ℤ) : admittedIn key start stop report = 0 := by
  cases report with
  | none => rfl
  | some report => exact if_neg (fun hin => h hin.2.2.1)

variable [DecidableEq ι]

/-- The requests of a key keep to its terms, when their owner handles them. -/
def OnTerms (m : Members ι) (key : String) (limit duration late : ℤ) (net : Network ι)
    (e : NetworkEvent ι) : Prop :=
  ∀ t r, m.handling net e = some (t, r) → r.hashKey = key → TokenTerms limit duration late t r

/-- How often the cluster loses the entry it has of a key. -/
def Members.losses (m : Members ι) (conf : Config) (host : Host) (key : String) :
    Network ι → List (NetworkEvent ι) → ℕ
  | _, [] => 0
  | net, e :: es =>
    let net' := (m.networkStep conf host net e).2
    (if m.ledger net.pools key ≠ none ∧ m.ledger net'.pools key = none then 1 else 0) +
      m.losses conf host key net' es

variable {m : Members ι} {conf : Config} {host : Host} {pools : ι → WorkerPool} {key : String}
  {limit duration late : ℤ} {st : FixedWindow.State}

/-- The entry alone, as the ledger has it. -/
theorem Stands.peek {entry : Option CacheItem} (h : Stands key limit duration st entry) :
    (Shard.ofItems entry.toList).cache.peek key = entry := by
  rcases h with ⟨rfl, -⟩ | ⟨item, t, w, rfl, -, hentry⟩
  · rfl
  · simp [Shard.ofItems, Cache.peek, hentry.sameKey]

/-- **A request of the key, put to its owner's pool, is a move of the window.** -/
theorem served_moves (conf : Config) (host : Host) {t : ℤ} {r : RateLimitReq}
    (hpools : ∀ i, (pools i).Sharded) (hlimit : 0 ≤ limit) (hvalid : validateMaxWait r = "")
    (hterms : TokenTerms limit duration late t r) (hclock : st.clock ≤ epochMillis t)
    (hstands : Stands r.hashKey limit duration st (m.ledger pools r.hashKey)) :
    let owner := m.owner r.hashKey
    ∃ resp st',
      (getLocalRateLimit conf host t ((pools owner).shardOf r.hashKey) r
        { isOwner := true }).result = .ok resp ∧ resp.error = "" ∧
      Move limit (duration + 1 - late) st (.serve (epochMillis t) (admittedBy r (.ok resp))) st' ∧
      Stands r.hashKey limit duration st' (m.ledger
        (Function.update pools owner ((pools owner).served conf host t r)) r.hashKey) := by
  intro owner
  set s := Shard.ofItems ((pools owner).entry r.hashKey).toList with hs
  have hserves : Serves r.hashKey limit duration (duration + 1 - late) t st r
      (tokenBucket host.location t s r { isOwner := true }) := by
    refine hterms.serves hlimit hclock rfl ?_ _
    have hpeek : s.cache.peek r.hashKey = m.ledger pools r.hashKey := hstands.peek
    rwa [hpeek]
  obtain ⟨resp, st', hok, herror, hmove, hstands'⟩ := hserves
  -- what the pool answers is what the bucket alone does
  obtain ⟨hshard, hresult⟩ := getLocalRateLimit_valid conf host t s { isOwner := true } hvalid
  obtain ⟨hshard', hresult'⟩ := handleGetRateLimit_token conf host t s { isOwner := true }
    hterms.algorithm
  obtain ⟨-, hsame, hself, -⟩ := (hpools owner).served conf host t r
  rw [← hs, (hresult resp).mpr ((hresult' resp).mpr hok)] at hsame
  refine ⟨resp, st', hsame, herror, hmove, ?_⟩
  rw [Members.ledger, Function.update_self, hself, ← hs, hshard, hshard']
  exact hstands'

/-- A request of another key leaves the entry, or its pool has no room for it. -/
theorem served_keeps {t : ℤ} {r : RateLimitReq} (hpools : ∀ i, (pools i).Sharded)
    (hkey : r.hashKey ≠ key) :
    let pools' := Function.update pools (m.owner r.hashKey)
      ((pools (m.owner r.hashKey)).served conf host t r)
    m.ledger pools' key = m.ledger pools key ∨ m.ledger pools' key = none := by
  dsimp only
  have hothers := ((hpools (m.owner r.hashKey)).served conf host t r).2.2.2
  unfold Members.ledger
  -- the owner's pool may evict the entry, and the others are not touched
  by_cases howner : m.owner key = m.owner r.hashKey
  · rw [howner, Function.update_self]
    rcases hothers with hkept | ⟨oldest, -, hlost⟩
    · exact .inl (hkept key (Ne.symm hkey))
    · rw [hlost key (Ne.symm hkey)]
      split
      · exact .inr rfl
      · exact .inl rfl
  · rw [Function.update_of_ne howner]
    exact .inl rfl

/-! ## Whole runs

`Moved` is the step of the simulation.  A step may lose the entry and then has to be a `forget`, so
that the number of losses can be read off the moves. -/

variable {net : Network ι} {e : NetworkEvent ι}

/-- The clocks of the network are those the event gives. -/
theorem step_clock (m : Members ι) (conf : Config) (host : Host) (net : Network ι)
    (e : NetworkEvent ι) : (m.networkStep conf host net e).2.clock = m.clockAfter net e := by
  cases e with
  | ask peer called handled req =>
    simp only [Members.networkStep]
    split <;> rfl
  | attempt call d =>
    simp only [Members.networkStep]
    split
    · rfl
    · split <;> rfl
  | restart peer pool => rfl

/-- No clock goes back. -/
theorem clock_le_clockAfter (hpossible : m.Possible net e) (i : ι) :
    net.clock i ≤ m.clockAfter net e i := by
  unfold Members.clockAfter
  cases hhandling : m.handling net e with
  | none => exact le_rfl
  | some x =>
    obtain ⟨t, r⟩ := x
    dsimp only
    by_cases hi : i = m.owner r.hashKey
    · rw [hi, Function.update_self]
      exact hpossible.2 t r hhandling
    · rw [Function.update_of_ne hi]

/-- **An event is a run of moves of the key's window**, of none or one of them, that grants at
    least what a client is told. -/
def Moved (m : Members ι) (conf : Config) (host : Host) (key : String)
    (limit duration late : ℤ) (st : FixedWindow.State) (net : Network ι)
    (e : NetworkEvent ι) : Prop :=
  let net' := (m.networkStep conf host net e).2
  ∃ moves st', Run limit (duration + 1 - late) st moves st' ∧
    st'.clock ≤ epochMillis (net'.clock (m.owner key)) ∧
    Stands key limit duration st' (m.ledger net'.pools key) ∧
    (∀ start stop, admittedIn key start stop (m.networkStep conf host net e).1 ≤
      grantedIn start stop moves) ∧
    moves.countP FixedWindow.Event.isForget =
      if m.ledger net.pools key ≠ none ∧ m.ledger net'.pools key = none then 1 else 0

/-- An event that admits nothing and leaves the entry, or loses it. -/
theorem moved_of_kept (hclock : st.clock ≤ epochMillis (net.clock (m.owner key)))
    (hpossible : m.Possible net e)
    (hstands : Stands key limit duration st (m.ledger net.pools key))
    (hadmits : ∀ start stop, admittedIn key start stop (m.networkStep conf host net e).1 = 0)
    (hentry : m.ledger (m.networkStep conf host net e).2.pools key = m.ledger net.pools key ∨
      m.ledger (m.networkStep conf host net e).2.pools key = none) :
    Moved m conf host key limit duration late st net e := by
  have hclock' : st.clock ≤
      epochMillis ((m.networkStep conf host net e).2.clock (m.owner key)) := by
    rw [step_clock]
    exact hclock.trans (epochMillis_mono (clock_le_clockAfter hpossible _))
  -- lost, or as it was
  by_cases hlost : m.ledger net.pools key ≠ none ∧
      m.ledger (m.networkStep conf host net e).2.pools key = none
  · refine ⟨[.forget], _, .cons (.forgets st) (.nil _), hclock', .inl ⟨hlost.2, rfl⟩, ?_, ?_⟩
    · intro start stop
      rw [hadmits]
      rfl
    · rw [if_pos hlost]
      rfl
  · have hsame : m.ledger (m.networkStep conf host net e).2.pools key = m.ledger net.pools key := by
      rcases hentry with hsame | hnone
      · exact hsame
      · rw [hnone]
        by_contra hne
        exact hlost ⟨Ne.symm hne, hnone⟩
    refine ⟨[], st, .nil st, hclock', by rwa [hsame], ?_, ?_⟩
    · intro start stop
      rw [hadmits]
      rfl
    · rw [if_neg hlost]
      rfl

/-- A client is told of no more hits than the owner granted. -/
theorem admittedIn_le_granted {t : ℤ} {r : RateLimitReq} {resp : RateLimitResp}
    (h : Members.Charges m conf host net e t r) (hhits : 0 ≤ r.hits)
    (hresult : (getLocalRateLimit conf host t
      ((net.pools (m.owner r.hashKey)).shardOf r.hashKey) r { isOwner := true }).result = .ok resp)
    (start stop : ℤ) :
    admittedIn r.hashKey start stop (m.networkStep conf host net e).1 ≤
      FixedWindow.Event.grantedIn start stop
        (.serve (epochMillis t) (admittedBy r (.ok resp))) := by
  have hnonneg := (grantedIn_serve start stop (epochMillis t)
    (admittedBy_nonneg hhits (.ok resp))).1
  rcases h.report with hsilent | ⟨report, hreport, rfl, hkey, hsame, hresp⟩
  · -- the answer is lost, or it is an error: what the owner granted is used up for nothing
    rw [admittedIn_silent hsilent]
    exact hnonneg
  · rw [hreport, admittedIn]
    split
    · rename_i hin
      obtain ⟨-, hwithin, -, hstatus⟩ := hin
      rw [hresp resp hresult] at hstatus
      rw [FixedWindow.Event.grantedIn, if_pos hwithin, admittedBy, if_pos hstatus, hsame]
    · exact hnonneg

/-- A request of the key, handled by its owner. -/
theorem moved_of_charges {t : ℤ} {r : RateLimitReq} (hpools : ∀ i, (net.pools i).Sharded)
    (hlimit : 0 ≤ limit) (h : Members.Charges m conf host net e t r)
    (hpossible : m.Possible net e) (hterms : TokenTerms limit duration late t r)
    (hclock : st.clock ≤ epochMillis (net.clock (m.owner r.hashKey)))
    (hstands : Stands r.hashKey limit duration st (m.ledger net.pools r.hashKey)) :
    Moved m conf host r.hashKey limit duration late st net e := by
  have htime : net.clock (m.owner r.hashKey) ≤ t := hpossible.2 t r h.handled
  obtain ⟨resp, st', hresult, herror, hmove, hstands'⟩ :=
    served_moves conf host hpools hlimit h.accepted.valid hterms
      (hclock.trans (epochMillis_mono htime)) hstands
  rw [← h.pools] at hstands'
  refine ⟨[.serve (epochMillis t) (admittedBy r (.ok resp))], st', .cons hmove (.nil st'), ?_,
    hstands', ?_, ?_⟩
  · have hafter : (m.networkStep conf host net e).2.clock (m.owner r.hashKey) = t := by
      rw [step_clock, Members.clockAfter, h.handled]
      exact Function.update_self ..
    rw [hafter]
    cases hmove <;> exact le_rfl
  · intro start stop
    have hsingle : grantedIn start stop [.serve (epochMillis t) (admittedBy r (.ok resp))] =
        FixedWindow.Event.grantedIn start stop
          (.serve (epochMillis t) (admittedBy r (.ok resp))) := by
      simp [grantedIn]
    rw [hsingle]
    exact admittedIn_le_granted h hterms.hits hresult start stop
  · -- a request of the key leaves an entry, so nothing is lost
    have hsome : m.ledger (m.networkStep conf host net e).2.pools r.hashKey ≠ none := by
      intro hnone
      rcases hstands' with ⟨-, hwindow⟩ | ⟨item, b, w, hitem, -⟩
      · cases hmove <;> cases hwindow
      · rw [hnone] at hitem
        cases hitem
    rw [if_neg (fun hlost => hsome hlost.2)]
    rfl

/-- **Step.** -/
theorem moved_step (hnet : Members.NetworkSound m net) (hlimit : 0 ≤ limit)
    (hpossible : m.Possible net e) (hterms : OnTerms m key limit duration late net e)
    (hclock : st.clock ≤ epochMillis (net.clock (m.owner key)))
    (hstands : Stands key limit duration st (m.ledger net.pools key)) :
    Moved m conf host key limit duration late st net e := by
  cases (Members.step_does conf host hnet hpossible).1 with
  | nothing hpools hsilent =>
    exact moved_of_kept hclock hpossible hstands (admittedIn_silent hsilent key)
      (.inl (by rw [hpools]))
  | restarts peer pool hpool hentries hpools hsilent =>
    refine moved_of_kept hclock hpossible hstands (admittedIn_silent hsilent key) ?_
    rw [hpools]
    unfold Members.ledger
    by_cases howner : m.owner key = peer
    · rw [howner, Function.update_self]
      exact hentries key
    · rw [Function.update_of_ne howner]
      exact .inl rfl
  -- a request of this key, or of another that may push its entry out
  | charges t r h =>
    by_cases hkey : r.hashKey = key
    · subst hkey
      exact moved_of_charges hnet.sharded hlimit h hpossible (hterms t r h.handled rfl) hclock
        hstands
    · refine moved_of_kept hclock hpossible hstands (fun start stop => ?_) ?_
      · rcases h.report with hsilent | ⟨report, hreport, -, hsame, -⟩
        · exact admittedIn_silent hsilent key start stop
        · rw [hreport]
          exact if_neg (fun hin => hkey (hsame.symm.trans hin.1))
      · rw [h.pools]
        exact served_keeps hnet.sharded hkey

/-- **Run.**  A run of the network is a run of the key's window. -/
theorem run_moves (late : ℤ) (st : FixedWindow.State) (hlimit : 0 ≤ limit)
    (es : List (NetworkEvent ι)) (hnet : Members.NetworkSound m net)
    (hes : Machine.Guarded (m.networkStep conf host)
      (fun net e => m.Possible net e ∧ OnTerms m key limit duration late net e) net es)
    (hclock : st.clock ≤ epochMillis (net.clock (m.owner key)))
    (hstands : Stands key limit duration st (m.ledger net.pools key)) :
    ∃ moves st', Run limit (duration + 1 - late) st moves st' ∧
      (∀ start stop, ((Machine.events (m.networkStep conf host) net es).map
        (fun x => admittedIn key start stop x.2)).sum ≤ grantedIn start stop moves) ∧
      moves.countP FixedWindow.Event.isForget = m.losses conf host key net es := by
  induction es generalizing net st with
  | nil => exact ⟨[], st, .nil st, fun _ _ => le_rfl, rfl⟩
  -- by induction on the events; the first one's moves come before those of the rest
  | cons e es ih =>
    obtain ⟨⟨hpossible, hterms⟩, hrest⟩ := hes
    have hmoved : Moved m conf host key limit duration late st net e :=
      moved_step hnet hlimit hpossible hterms hclock hstands
    obtain ⟨first, st₁, hrun₁, hclock₁, hstands₁, hgranted₁, hcount₁⟩ := hmoved
    obtain ⟨moves, st', hrun, hgranted, hcount⟩ :=
      ih st₁ (Members.step_does conf host hnet hpossible).2 hrest hclock₁ hstands₁
    refine ⟨first ++ moves, st', hrun₁.append hrun, fun start stop => ?_, ?_⟩
    · rw [grantedIn_append]
      exact add_le_add (hgranted₁ start stop) (hgranted start stop)
    · rw [List.countP_append, hcount₁, hcount]
      rfl

/-- **What a cluster admits for a token bucket in `T` milliseconds.** The network starts with no
    request under way and without the key.  All requests for the key carry its limit and duration
    and hits that are not negative, and are handled at most `late` after their `created_at`, with no
    window's end out of the range of `int64`.  Then in every stretch from `start` to `start + T` the
    clients are admitted the limit for each of the windows that the stretch can see, and for each
    time the cluster loses the key's entry: whatever peers they ask, whatever is lost on the way and
    tried again. -/
theorem cluster_token_rate (m : Members ι) (conf : Config) (host : Host) (net : Network ι)
    (hpools : ∀ i, (net.pools i).Sharded) (hcalls : net.calls = []) (es : List (NetworkEvent ι))
    (key : String) (limit duration late : ℤ) (hlimit : 0 ≤ limit) (hlate : late ≤ duration)
    (hes : Machine.Guarded (m.networkStep conf host)
      (fun net e => m.Possible net e ∧ OnTerms m key limit duration late net e) net es)
    (hnew : m.ledger net.pools key = none) (start T : ℤ) (hT : 0 ≤ T) :
    ((Machine.events (m.networkStep conf host) net es).map
        (fun x => admittedIn key start (start + T) x.2)).sum ≤
      (1 + (T + duration - late) / (duration + 1 - late) + m.losses conf host key net es) *
        limit := by
  have hnet : Members.NetworkSound m net := by
    refine ⟨hpools, fun c hc => ?_⟩
    rw [hcalls] at hc
    cases hc
  obtain ⟨moves, st', hrun, hgranted, hcount⟩ := run_moves late
    ⟨epochMillis (net.clock (m.owner key)), none⟩ hlimit es hnet hes le_rfl (.inl ⟨hnew, rfl⟩)
  have hbound := hrun.grantedIn_le hlimit (by omega) hT start
  have hwidth : T + (duration + 1 - late) - 1 = T + duration - late := by ring
  rw [hcount, hwidth] at hbound
  exact (hgranted start (start + T)).trans hbound

end Cluster

/-! ## A lost answer

A run with a time-out in it.  The first ten hits are charged though nobody hears of it. -/

/-- Two peers, before the first request; the second owns the key. -/
def idleNetwork : Network Bool := ⟨Members.twoPools, fun _ => 0, []⟩

/-- Ten tokens a minute. -/
def minuteRequest (hits : ℤ) : RateLimitReq :=
  { RateLimitReq.sample hits 10 60000 0 0 0 with algorithm := .tokenBucket }

/-- Ten hits are charged, but the answer is lost; tried again, they are over the limit.  Ten more
    are admitted in the next window. -/
def lostAndTriedAgain : List (NetworkEvent Bool) :=
  [.ask false 1000000000 1000000000 (minuteRequest 10),
    .attempt 0 ⟨1000000000, true, some ⟨"context deadline exceeded", true⟩, none⟩,
    .attempt 0 ⟨1500000000, true, none, none⟩,
    .ask true 61001000000 61001000000 (minuteRequest 10)]

/-- These requests keep to the terms of ten tokens a minute, half a second late at most. -/
theorem tokenTerms_minuteRequest {called t hits : ℤ} (hhits : 0 ≤ hits)
    (hlate : epochMillis t - 500 ≤ ((minuteRequest hits).stamped called).createdAt)
    (hrange : ((minuteRequest hits).stamped called).createdAt + 60000 < 2 ^ 63) :
    TokenTerms 10 60000 500 t ((minuteRequest hits).stamped called) :=
  ⟨rfl, rfl, rfl, hhits, show hasBehavior 0 .resetRemaining = false by decide,
    show hasBehavior 0 .durationIsGregorian = false by decide, hlate, hrange⟩

/-- An event that puts one of these requests to the owner is possible and on the key's terms. -/
theorem handles_one (net : Network Bool) (e : NetworkEvent Bool) (t called hits : ℤ)
    (h : Members.twoPeers.handling net e = some (t, (minuteRequest hits).stamped called))
    (hclock : net.clock true ≤ t) (hhits : 0 ≤ hits)
    (hlate : epochMillis t - 500 ≤ ((minuteRequest hits).stamped called).createdAt)
    (hrange : ((minuteRequest hits).stamped called).createdAt + 60000 < 2 ^ 63) :
    (∀ t r, Members.twoPeers.handling net e = some (t, r) →
        net.clock (Members.twoPeers.owner r.hashKey) ≤ t) ∧
      OnTerms Members.twoPeers "requests_account:1" 10 60000 500 net e := by
  refine ⟨fun t' r' h' => ?_, fun t' r' h' _ => ?_⟩
  · rw [h] at h'
    obtain ⟨rfl, rfl⟩ := Prod.mk.inj (Option.some.inj h')
    exact hclock
  · rw [h] at h'
    obtain ⟨rfl, rfl⟩ := Prod.mk.inj (Option.some.inj h')
    exact tokenTerms_minuteRequest hhits hlate hrange

/-- The network after so many of the events. -/
def networkAfter (n : ℕ) : Network Bool :=
  Machine.exec (Members.twoPeers.networkStep ⟨300000000000⟩ .amd64) idleNetwork
    (lostAndTriedAgain.take n)

/-- The bound for a stretch that sees two windows. -/
theorem cluster_token_rate_lostAndTriedAgain :
    ((Machine.events (Members.twoPeers.networkStep ⟨300000000000⟩ .amd64) idleNetwork
        lostAndTriedAgain).map
          (fun x => admittedIn "requests_account:1" 1000 (1000 + 60001) x.2)).sum
      ≤ (1 + (60001 + 60000 - 500) / (60000 + 1 - 500) + Members.twoPeers.losses ⟨300000000000⟩
        .amd64 "requests_account:1" idleNetwork lostAndTriedAgain) * 10 := by
  have hnone : Members.twoPeers.handling idleNetwork
      (.ask false 1000000000 1000000000 (minuteRequest 10)) = none := by decide +kernel
  have hlost := handles_one (networkAfter 1)
    (.attempt 0 ⟨1000000000, true, some ⟨"context deadline exceeded", true⟩, none⟩)
    1000000000 1000000000 10 (by decide +kernel) (by decide +kernel) (by decide) (by decide +kernel)
    (by decide +kernel)
  have hagain := handles_one (networkAfter 2) (.attempt 0 ⟨1500000000, true, none, none⟩)
    1500000000 1000000000 10 (by decide +kernel) (by decide +kernel) (by decide) (by decide +kernel)
    (by decide +kernel)
  have hnext := handles_one (networkAfter 3)
    (.ask true 61001000000 61001000000 (minuteRequest 10))
    61001000000 61001000000 10 (by decide +kernel) (by decide +kernel) (by decide)
    (by decide +kernel) (by decide +kernel)
  refine cluster_token_rate Members.twoPeers ⟨300000000000⟩ .amd64 idleNetwork ?_ rfl
    lostAndTriedAgain "requests_account:1" 10 60000 500 (by decide) (by decide) ?_ ?_ 1000 60001
    (by decide)
  · intro i
    cases i with
    | false => exact WorkerPool.sharded_new _ (by decide) (by decide) (by decide) 10
    | true => exact WorkerPool.sharded_new _ (by decide) (by decide) (by decide) 10
  · refine ⟨⟨⟨⟨by decide, by decide⟩, fun t r h => ?_⟩, fun t r h => ?_⟩,
      ⟨⟨fun h => ?_, hlost.1⟩, hlost.2⟩, ⟨⟨fun _ => rfl, hagain.1⟩, hagain.2⟩,
      ⟨⟨⟨by decide, by decide⟩, hnext.1⟩, hnext.2⟩, trivial⟩
    · rw [hnone] at h
      cases h
    · rw [hnone] at h
      cases h
    · cases h
  · exact WorkerPool.entry_new _ 1 10 _

end Gubernator
