/-
  A COUNTER REPLICATED FROM ONE OWNER.

  Every site of a cluster has a copy of one counter, which starts at `limit`, and answers requests
  to take from it out of that copy.  What a replica is asked for it owes the owner, and reports
  later; the owner, once told, publishes its own count; a replica that hears of it overwrites its
  copy.  Reports arrive in any order, published counts in the order sent.

  Two questions.  Do the copies agree when everything has arrived?  Yes, as long as no more is
  asked for than the limit (`Converging`): a published count is the last a replica hears, unless
  the owner has news or the replica owes.  How much do the sites grant together?  At most the
  limit each (`Granting`), PROVIDED no published count raises a copy — a replica that has granted
  and not yet reported forgets that it did.

  The steps are given as a relation with what each leaves of the state, so that a system can refine
  it by naming, for each of its events, the step it is.  `idle` is for the events that are none of
  the counter's business; they may still make the owner dirty.
-/
import Mathlib.Algebra.Order.BigOperators.Group.Finset
import Mathlib.Data.Fintype.BigOperators

namespace Replica

open Function

/-- What is left after `h` is asked of `y`, and what is granted: all of it, or nothing. -/
inductive Take (y h : ℤ) : ℤ → ℤ → Prop
  | granted (enough : h ≤ y) : Take y h (y - h) h
  | refused {x : ℤ} (short : y < h) (nonneg : 0 ≤ x) (le : x ≤ y) : Take y h x 0

/-- What can be granted is. -/
theorem Take.eq_of_le {y h x a : ℤ} (t : Take y h x a) (hle : h ≤ y) : x = y - h := by
  cases t with
  | granted => rfl
  | refused short => omega

/-- Asking for nothing changes nothing. -/
theorem Take.eq_of_zero {y x a : ℤ} (t : Take y 0 x a) : x = y := by
  cases t with
  | granted => omega
  | refused short nonneg le => omega

/-- What is left and what is granted are not negative, and no more than there was. -/
theorem Take.bounds {y h x a : ℤ} (t : Take y h x a) (hh : 0 ≤ h) :
    0 ≤ x ∧ 0 ≤ a ∧ a + x ≤ y := by
  cases t with
  | granted => omega
  | refused short nonneg le => omega

variable {ι : Type*}

/-- Per site: its copy, what it owes the owner, the counts it has yet to hear; and whether the
    owner has something to publish. -/
structure State (ι : Type*) where
  copy : ι → Option ℤ
  owed : ι → ℤ
  /-- Oldest first. -/
  inbox : ι → List ℤ
  dirty : Prop

/-- A site without a copy counts from the limit. -/
def State.count (limit : ℤ) (s : State ι) (p : ι) : ℤ := (s.copy p).getD limit

/-- The count a site will have heard last. -/
def State.latest (s : State ι) (p : ι) : Option ℤ := (s.inbox p).getLast?.or (s.copy p)

/-- What an observer sees of a step: a request answered, with what it asked for and was granted, or
    a published count heard. -/
inductive Label (ι : Type*) where
  | answered (site : ι) (asked granted : ℤ)
  | heard (site : ι) (count : ℤ)
  | silent

section Step
variable [DecidableEq ι]

/-- **The steps.** A request answered by a replica, and by the owner; a report reaching the owner;
    the owner publishing; a replica hearing a count; and anything that touches no count. A report
    can cover a part of what is owed. -/
inductive Step (owner : ι) (limit : ℤ) (s s' : State ι) : Label ι → Prop
  | atReplica (p : ι) (h x a : ℤ) (replica : p ≠ owner) (nonneg : 0 ≤ h)
      (take : Take (s.count limit p) h x a) (copy : s'.copy = update s.copy p (some x))
      (owed : s'.owed = update s.owed p (s.owed p + h)) (inbox : s'.inbox = s.inbox)
      (dirty : s.dirty → s'.dirty) : Step owner limit s s' (.answered p h a)
  | atOwner (h x a : ℤ) (nonneg : 0 ≤ h) (take : Take (s.count limit owner) h x a)
      (copy : s'.copy = update s.copy owner (some x)) (owed : s'.owed = s.owed)
      (inbox : s'.inbox = s.inbox) (dirty : s.dirty ∨ h ≠ 0 → s'.dirty) :
      Step owner limit s s' (.answered owner h a)
  | reported (p : ι) (h x a : ℤ) (pos : 0 < h) (le : h ≤ s.owed p)
      (take : Take (s.count limit owner) h x a)
      (copy : s'.copy = update s.copy owner (some x))
      (owed : s'.owed = update s.owed p (s.owed p + -h)) (inbox : s'.inbox = s.inbox)
      (dirty : s'.dirty) : Step owner limit s s' .silent
  | published (copy : s'.copy = update s.copy owner (some (s.count limit owner)))
      (owed : s'.owed = s.owed)
      (inbox : ∀ p, s'.inbox p =
        if p = owner then s.inbox p else s.inbox p ++ [s.count limit owner]) :
      Step owner limit s s' .silent
  | applied (p : ι) (m : ℤ) (rest : List ℤ) (replica : p ≠ owner) (heard : s.inbox p = m :: rest)
      (copy : s'.copy = update s.copy p (some m)) (owed : s'.owed = s.owed)
      (inbox : s'.inbox = update s.inbox p rest) (dirty : s.dirty → s'.dirty) :
      Step owner limit s s' (.heard p m)
  | idle (copy : s'.copy = s.copy) (owed : s'.owed = s.owed) (inbox : s'.inbox = s.inbox)
      (dirty : s.dirty → s'.dirty) : Step owner limit s s' .silent

variable {owner p q : ι} {limit x : ℤ} {s s' : State ι}

/-! ## Counts

How the counts, what is heard last and the sums change with a step's equations. -/

/-- The count of the site that a step gives a copy. -/
theorem count_update (h : s'.copy = update s.copy p (some x)) : s'.count limit p = x := by
  simp [State.count, h]

/-- The other sites keep theirs. -/
theorem count_update_of_ne (h : s'.copy = update s.copy p (some x)) (hne : q ≠ p) :
    s'.count limit q = s.count limit q := by
  simp [State.count, h, update_of_ne hne]

/-- A change at one site keeps a function's values from becoming negative, if that one does not. -/
theorem nonneg_update {f : ι → ℤ} {d : ℤ} (h : ∀ q, 0 ≤ f q) (hp : 0 ≤ f p + d) (q : ι) :
    0 ≤ update f p (f p + d) q := by
  by_cases hqp : q = p
  · rwa [hqp, update_self]
  · rw [update_of_ne hqp]
    exact h q

/-- Hearing a count moves it from the inbox to the copy: what is heard last stays. -/
theorem latest_applied {m : ℤ} {rest : List ℤ} (heard : s.inbox p = m :: rest)
    (copy : s'.copy = update s.copy p (some m)) (inbox : s'.inbox = update s.inbox p rest) (q : ι) :
    s'.latest q = s.latest q := by
  rw [State.latest, State.latest, inbox, copy]
  by_cases hqp : q = p
  · rw [hqp, update_self, update_self, heard]
    cases rest <;> simp [List.getLast?_cons]
  · rw [update_of_ne hqp, update_of_ne hqp]

/-- A sum changes by what one site's value does. -/
theorem sum_update [Fintype ι] (f : ι → ℤ) (p : ι) (d : ℤ) :
    ∑ q, update f p (f p + d) q = ∑ q, f q + d := by
  have hrest := Finset.add_sum_erase Finset.univ f (Finset.mem_univ p)
  rw [Finset.sum_update_of_mem (Finset.mem_univ p), Finset.sdiff_singleton_eq_erase, ← hrest]
  exact add_right_comm _ _ _

end Step

/-! ## Agreement

The owner's count and what is owed to it add up to what is left of the limit, at all times.  Since
no more is asked for than the limit, the owner can grant every report, and that is why nothing is
lost on the way. -/

/-- What a step adds to the total asked for. -/
def asked : Label ι → ℤ
  | .answered _ h _ => h
  | _ => 0

/-- The owner has counted all that was asked for but what is still owed, and every replica will
    hear its count last, unless one of the two has news.  The owner's count only goes down, so no
    site ever owes more than was asked for (`Converging.owed_le`). -/
structure Converging [Fintype ι] (owner : ι) (limit total : ℤ) (s : State ι) : Prop where
  owed_nonneg : ∀ p, 0 ≤ s.owed p
  count_le : s.count limit owner ≤ limit
  conserved : s.count limit owner + total = limit + ∑ p, s.owed p
  /-- The third alternative is the start: nothing has been counted, so nothing need be heard. -/
  synced : ∀ p, p ≠ owner → s.dirty ∨ 0 < s.owed p ∨ s.count limit owner = limit ∨
    s.latest p = s.copy owner

/-- What a site owes was asked for. -/
theorem Converging.owed_le [Fintype ι] {owner : ι} {limit total : ℤ} {s : State ι}
    (h : Converging owner limit total s) (p : ι) : s.owed p ≤ total := by
  have hone := Finset.single_le_sum (fun q _ => h.owed_nonneg q) (Finset.mem_univ p)
  have := h.conserved
  have := h.count_le
  omega

section Agreement
variable [DecidableEq ι] [Fintype ι] {owner : ι} {limit total : ℤ} {s s' : State ι}

/-- A replica's own answer leaves it as it was, or owing. -/
theorem Converging.synced_atReplica (h : Converging owner limit total s) {p : ι} {k x a : ℤ}
    (hp : p ≠ owner) (hk : 0 ≤ k) (take : Take (s.count limit p) k x a)
    (copy : s'.copy = update s.copy p (some x))
    (owed : s'.owed = update s.owed p (s.owed p + k)) (inbox : s'.inbox = s.inbox)
    (dirty : s.dirty → s'.dirty) (q : ι) (hq : q ≠ owner) :
    s'.dirty ∨ 0 < s'.owed q ∨ s'.count limit owner = limit ∨ s'.latest q = s'.copy owner := by
  have howner : s'.copy owner = s.copy owner := by rw [copy, update_of_ne hp.symm]
  have hcount : s'.count limit owner = s.count limit owner := count_update_of_ne copy hp.symm
  rw [hcount, howner]
  by_cases hqp : q = p
  · -- the replica itself: it owes, or was only queried
    subst hqp
    rcases hk.lt_or_eq with hpos | rfl
    · right; left
      rw [owed, update_self]
      have := h.owed_nonneg q
      omega
    obtain rfl := take.eq_of_zero
    have howed : s'.owed q = s.owed q := by rw [owed, update_self, add_zero]
    rw [howed]
    rcases h.synced q hq with hd | ho | hl | hsync
    · exact .inl (dirty hd)
    · exact .inr (.inl ho)
    · exact .inr (.inr (.inl hl))
    · -- a first copy, with nothing to hear: the owner has none either
      cases hc : s.copy q with
      | none =>
        cases hin : (s.inbox q).getLast? with
        | none =>
          right; right; left
          have : s.copy owner = none := by rw [← hsync, State.latest, hin, hc]; rfl
          simp [State.count, this]
        | some m =>
          right; right; right
          rw [← hsync, State.latest, State.latest, inbox, hin]
          rfl
      -- a copy that was there is written back as it was
      | some y =>
        right; right; right
        have : s.count limit q = y := by simp [State.count, hc]
        rw [← hsync, State.latest, State.latest, inbox, copy, update_self, hc, this]
  · -- the other replicas see nothing of it
    have hlatest : s'.latest q = s.latest q := by
      rw [State.latest, State.latest, inbox, copy, update_of_ne hqp]
    rw [hlatest, owed, update_of_ne hqp]
    exact (h.synced q hq).imp_left dirty

/-- A query at the owner leaves its count, and what the replicas will have heard. -/
theorem Converging.synced_query (h : Converging owner limit total s)
    (copy : s'.copy = update s.copy owner (some (s.count limit owner)))
    (inbox : s'.inbox = s.inbox) (dirty : s.dirty → s'.dirty) (q : ι) (hq : q ≠ owner) :
    s'.dirty ∨ 0 < s.owed q ∨ s'.count limit owner = limit ∨ s'.latest q = s'.copy owner := by
  have hcount : s'.count limit owner = s.count limit owner := count_update copy
  have hlatest : s'.latest q = s.latest q := by
    rw [State.latest, State.latest, inbox, copy, update_of_ne hq]
  rw [hcount, hlatest]
  rcases h.synced q hq with hd | ho | hl | hsync
  · exact .inl (dirty hd)
  · exact .inr (.inl ho)
  · exact .inr (.inr (.inl hl))
  · cases hc : s.copy owner with
    -- the owner's first copy is the limit itself
    | none =>
      right; right; left
      simp [State.count, hc]
    | some y =>
      right; right; right
      rw [hsync, copy, update_self, hc]
      simp [State.count, hc]

omit [DecidableEq ι] in
/-- Nothing is asked for, and neither the owner's count nor what is owed moves. -/
theorem Converging.kept (h : Converging owner limit total s)
    (hcount : s'.count limit owner = s.count limit owner) (owed : s'.owed = s.owed)
    (hsynced : ∀ p, p ≠ owner → s'.dirty ∨ 0 < s'.owed p ∨ s'.count limit owner = limit ∨
      s'.latest p = s'.copy owner) : Converging owner limit total s' where
  owed_nonneg p := by rw [owed]; exact h.owed_nonneg p
  count_le := hcount.trans_le h.count_le
  conserved := by rw [hcount, owed]; exact h.conserved
  synced := hsynced

/-- **Step.** -/
theorem Converging.step {l : Label ι} (h : Converging owner limit total s)
    (hstep : Step owner limit s s' l) (htotal : total + asked l ≤ limit) :
    Converging owner limit (total + asked l) s' := by
  have hnonneg : ∀ q, 0 ≤ s.owed q := h.owed_nonneg
  have hsum : 0 ≤ ∑ q, s.owed q := Finset.sum_nonneg (fun q _ => hnonneg q)
  cases hstep with
  | atReplica p k x a replica nonneg take copy owed inbox dirty =>
    have hcount : s'.count limit owner = s.count limit owner :=
      count_update_of_ne copy replica.symm
    refine ⟨?_, hcount.trans_le h.count_le, ?_,
      h.synced_atReplica replica nonneg take copy owed inbox dirty⟩
    · rw [owed]
      exact nonneg_update hnonneg (add_nonneg (hnonneg p) nonneg)
    · have := h.conserved
      rw [hcount, owed, sum_update]
      simp only [asked]
      omega
  -- within the limit, so granted; unless it is a query, the owner has news
  | atOwner k x a nonneg take copy owed inbox dirty =>
    simp only [asked] at htotal ⊢
    have hle : k ≤ s.count limit owner := by
      have := h.conserved
      omega
    obtain rfl := take.eq_of_le hle
    have hcount := h.count_le
    refine ⟨fun q => by rw [owed]; exact hnonneg q, ?_, ?_, fun q hq => ?_⟩
    · rw [count_update copy]
      omega
    · have := h.conserved
      rw [count_update copy, owed]
      omega
    · by_cases hk : k = 0
      · rw [owed]
        exact h.synced_query (by rw [copy, hk, sub_zero]) inbox (fun hd => dirty (.inl hd)) q hq
      · exact .inl (dirty (.inr hk))
  | reported p k x a pos le take copy owed inbox dirty =>
    simp only [asked, add_zero] at htotal ⊢
    have hk : k ≤ s.count limit owner := by
      -- no more is owed than the owner has left
      have := h.conserved
      have := Finset.single_le_sum (fun q _ => hnonneg q) (Finset.mem_univ p)
      omega
    obtain rfl := take.eq_of_le hk
    have hcount := h.count_le
    refine ⟨?_, ?_, ?_, fun q _ => .inl dirty⟩
    · rw [owed]
      exact nonneg_update hnonneg (by omega)
    · rw [count_update copy]
      omega
    · have := h.conserved
      rw [count_update copy, owed, sum_update]
      omega
  -- every replica has the owner's count at the end of its inbox
  | published copy owed inbox =>
    simp only [asked, add_zero]
    refine h.kept (count_update copy) owed (fun q hq => ?_)
    right; right; right
    rw [State.latest, inbox, if_neg hq, copy, update_self]
    simp
  | applied p m rest replica heard copy owed inbox dirty =>
    simp only [asked, add_zero]
    have hcount : s'.count limit owner = s.count limit owner :=
      count_update_of_ne copy replica.symm
    refine h.kept hcount owed (fun q hq => ?_)
    rw [latest_applied heard copy inbox, hcount, owed, copy, update_of_ne replica.symm]
    exact (h.synced q hq).imp_left dirty
  | idle copy owed inbox dirty =>
    simp only [asked, add_zero]
    have hcount : s'.count limit owner = s.count limit owner := by
      rw [State.count, State.count, copy]
    refine h.kept hcount owed (fun q hq => ?_)
    rw [State.count, State.latest, copy, owed, inbox]
    exact (h.synced q hq).imp_left dirty

/-- **When everything has arrived, the copies agree**, on what was not asked for. -/
theorem Converging.agreed (h : Converging owner limit total s) (htotal : 0 < total)
    (hdirty : ¬ s.dirty) (howed : ∀ p, s.owed p = 0) (hinbox : ∀ p, s.inbox p = []) :
    ∀ p, s.copy p = some (limit - total) := by
  have hsum : ∑ p, s.owed p = 0 := Finset.sum_eq_zero (fun p _ => howed p)
  have hcount : s.count limit owner = limit - total := by
    have := h.conserved
    omega
  have howner : s.copy owner = some (limit - total) := by
    cases hc : s.copy owner with
    | none =>
      simp only [State.count, hc, Option.getD_none] at hcount
      omega
    | some y => simpa [State.count, hc] using hcount
  intro p
  by_cases hp : p = owner
  · rw [hp, howner]
  -- with nothing under way, only the last alternative is left
  rcases h.synced p hp with hd | ho | hl | hsync
  · exact absurd hd hdirty
  · rw [howed p] at ho
    exact absurd ho (lt_irrefl _)
  · omega
  · rw [← howner, ← hsync, State.latest, hinbox]
    rfl

end Agreement

/-! ## What is granted

No assumption on how much is asked for.  A site that overwrites its copy by a larger count could
grant again what it has granted already; `hraise` excludes it. -/

/-- What a step adds to what a site has granted. -/
def grantedAt [DecidableEq ι] (p : ι) : Label ι → ℤ
  | .answered q _ a => if q = p then a else 0
  | _ => 0

/-- What a step adds to what the sites have granted together. -/
def granted : Label ι → ℤ
  | .answered _ _ a => a
  | _ => 0

/-- What the sites have granted together is the sum over them. -/
theorem sum_grantedAt [DecidableEq ι] [Fintype ι] (l : Label ι) :
    ∑ p, grantedAt p l = granted l := by
  cases l with
  | answered q h a => simp [grantedAt, granted]
  | heard q m => simp [grantedAt, granted]
  | silent => simp [grantedAt, granted]

/-- What a site has granted and what it has left are within the limit. -/
structure Granting (limit : ℤ) (given : ι → ℤ) (s : State ι) : Prop where
  given_nonneg : ∀ p, 0 ≤ given p
  count_nonneg : ∀ p, 0 ≤ s.count limit p
  within : ∀ p, given p + s.count limit p ≤ limit
  /-- The counts to be heard are counts of the owner, so within bounds as well. -/
  inbox_mem : ∀ p, ∀ m ∈ s.inbox p, 0 ≤ m ∧ m ≤ limit

/-- No copy is above the limit. -/
theorem Granting.count_le {limit : ℤ} {given : ι → ℤ} {s : State ι}
    (h : Granting limit given s) (p : ι) : s.count limit p ≤ limit := by
  have := h.given_nonneg p
  have := h.within p
  omega

section Granting
variable [DecidableEq ι] {owner : ι} {limit : ℤ} {given : ι → ℤ} {s s' : State ι}

/-- One site's count goes down by what it grants, or further; the rest stays. -/
theorem Granting.take (h : Granting limit given s) {p : ι} {x a : ℤ} {given' : ι → ℤ}
    (hx : 0 ≤ x) (ha : 0 ≤ a) (hle : a + x ≤ s.count limit p)
    (copy : s'.copy = update s.copy p (some x))
    (hgiven : ∀ q, given' q = given q + if p = q then a else 0)
    (hinbox : ∀ q, ∀ m ∈ s'.inbox q, 0 ≤ m ∧ m ≤ limit) : Granting limit given' s' := by
  have hsite : ∀ q, 0 ≤ given' q ∧ 0 ≤ s'.count limit q ∧ given' q + s'.count limit q ≤ limit := by
    intro q
    have hq0 := h.given_nonneg q
    have hqw := h.within q
    rw [hgiven q]
    by_cases hpq : p = q
    · subst hpq
      rw [if_pos rfl, count_update copy]
      omega
    · rw [if_neg hpq, count_update_of_ne copy (Ne.symm hpq), add_zero]
      exact ⟨hq0, h.count_nonneg q, hqw⟩
  exact ⟨fun q => (hsite q).1, fun q => (hsite q).2.1, fun q => (hsite q).2.2, hinbox⟩

/-- **Step.** -/
theorem Granting.step {l : Label ι} (h : Granting limit given s)
    (hstep : Step owner limit s s' l)
    (hraise : ∀ p m, l = .heard p m → ∀ x, s.copy p = some x → m ≤ x) :
    Granting limit (fun p => given p + grantedAt p l) s' := by
  have hzero : ∀ p q, given q + 0 = given q + if p = q then (0 : ℤ) else 0 := by simp
  cases hstep with
  | atReplica p k x a replica nonneg take copy owed inbox dirty =>
    obtain ⟨hx, ha, hle⟩ := take.bounds nonneg
    exact h.take hx ha hle copy (fun q => rfl) (by rw [inbox]; exact h.inbox_mem)
  | atOwner k x a nonneg take copy owed inbox dirty =>
    obtain ⟨hx, ha, hle⟩ := take.bounds nonneg
    exact h.take hx ha hle copy (fun q => rfl) (by rw [inbox]; exact h.inbox_mem)
  -- the owner counts the report down, or refuses it; the granting was the replica's
  | reported p k x a pos le take copy owed inbox dirty =>
    obtain ⟨hx, ha, hle⟩ := take.bounds pos.le
    exact h.take hx le_rfl (by omega) copy (hzero owner) (by rw [inbox]; exact h.inbox_mem)
  | published copy owed inbox =>
    refine h.take (h.count_nonneg owner) le_rfl (by omega) copy (hzero owner) (fun q m hm => ?_)
    rw [inbox] at hm
    split at hm
    · exact h.inbox_mem q m hm
    · rcases List.mem_append.mp hm with hm | hm
      · exact h.inbox_mem q m hm
      · rw [List.mem_singleton.mp hm]
        exact ⟨h.count_nonneg owner, h.count_le owner⟩
  | applied p m rest replica heard copy owed inbox dirty =>
    have hm := h.inbox_mem p m (by rw [heard]; exact List.mem_cons_self)
    -- the count heard is no higher than the copy, or than the limit if there is none
    have hle : m ≤ s.count limit p := by
      cases hc : s.copy p with
      | some x => simpa [State.count, hc] using hraise p m rfl x hc
      | none => simpa [State.count, hc] using hm.2
    refine h.take hm.1 le_rfl (by omega) copy (hzero p) (fun q m' hm' => ?_)
    rw [inbox] at hm'
    by_cases hqp : q = p
    · subst hqp
      rw [update_self] at hm'
      exact h.inbox_mem q m' (by rw [heard]; exact List.mem_cons_of_mem m hm')
    · rw [update_of_ne hqp] at hm'
      exact h.inbox_mem q m' hm'
  | idle copy owed inbox dirty =>
    have hcount : ∀ q, s'.count limit q = s.count limit q := fun q => by
      rw [State.count, State.count, copy]
    simp only [grantedAt, add_zero]
    exact ⟨h.given_nonneg, fun q => by rw [hcount]; exact h.count_nonneg q,
      fun q => by rw [hcount]; exact h.within q, by rw [inbox]; exact h.inbox_mem⟩

end Granting

/-- **The sites together grant at most the limit each.** -/
theorem Granting.sum_le [Fintype ι] {limit : ℤ} {given : ι → ℤ} {s : State ι}
    (h : Granting limit given s) : ∑ p, given p ≤ Fintype.card ι * limit := by
  have hsite : ∀ p ∈ Finset.univ, given p ≤ limit := fun p _ => by
    have := h.count_nonneg p
    have := h.within p
    omega
  simpa using Finset.sum_le_card_nsmul Finset.univ given limit hsite

end Replica
