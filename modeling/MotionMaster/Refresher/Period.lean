import MotionMaster.Refresher.Exclusion

/-!
# The refresh period

After a poll that succeeded an entry is due again when its period is over, and its period is the
shortest it was acquired with. `acquire` shortens the period of an entry, but leaves the time it is
due at to the next poll.
-/

namespace MotionMaster.Refresher

/-- The entry is due again in the shortest period anybody asked for, counted from its last poll. If
that one failed, it is not due before that, or before the ceiling. -/
def Entry.OnTime (e : Entry) : Prop :=
  ∃ shortest, IsLeast { p | p ∈ e.requested } shortest ∧
    match e.lastPoll with
    | none => True
    | some ⟨readStart, true⟩ => e.nextDue = readStart + ms shortest
    | some ⟨readStart, false⟩ => readStart + ms (min shortest kMaxBackoff) ≤ e.nextDue

def PeriodsHonoured (s : State) : Prop :=
  ∀ (key : ℕ) (e : Entry), s.entries[key]? = some e → e.OnTime

/-- An object that has been polled with success since it is tracked is acquired only with a period
that is not shorter than its own. -/
def KeepsSchedule (s : State) : Action → Prop
  | .acquire o period =>
    ∀ e ∈ s.entries[makeKey o]?, e.lastPoll.any LastPoll.result = true →
      e.period ≤ max period kMinRefreshPeriod
  | _ => True

instance (s : State) : ∀ a, Decidable (KeepsSchedule s a)
  | .acquire o _ => inferInstanceAs (Decidable (∀ e ∈ s.entries[makeKey o]?, _ → _))
  | .tick _ | .release _ | .start | .stop | .take _ | .startRead _ _ | .endRead _ _ _ _
  | .finish _ _ _ _ _ | .exit _ => isTrue trivial

structure Entry.Paced (e : Entry) : Prop where
  floor : kMinRefreshPeriod ≤ e.period
  period : IsLeast { p | p ∈ e.requested } e.period
  backoff : e.backoff = 0 ∨ min e.period kMaxBackoff ≤ e.backoff
  succeeded : ∀ readStart, e.lastPoll = some ⟨readStart, true⟩ →
    e.nextDue = readStart + ms e.period
  failed : ∀ readStart, e.lastPoll = some ⟨readStart, false⟩ →
    readStart + ms (min e.period kMaxBackoff) ≤ e.nextDue

namespace Entry.Paced

variable {e : Entry}

theorem onTime (h : e.Paced) : e.OnTime := by
  refine ⟨e.period, h.period, ?_⟩
  split
  · trivial
  · rename_i readStart hl
    exact h.succeeded readStart hl
  · rename_i readStart hl
    exact h.failed readStart hl

theorem le_nextBackoff (h : e.Paced) :
    min e.period kMaxBackoff ≤ nextBackoff e.backoff e.period := by
  have hfloor := h.floor
  have hback := h.backoff
  unfold nextBackoff kMaxBackoff kMinRefreshPeriod at *
  dsimp only
  split_ifs <;> omega

theorem polled (h : e.Paced) (readStart : ℤ) (result : Bool) :
    (e.polled readStart result).Paced := by
  cases result with
  | true =>
    refine ⟨h.floor, h.period, Or.inl rfl, ?_, ?_⟩
    · rintro _ ⟨⟩
      rfl
    · rintro _ ⟨⟩
  | false =>
    have hle := h.le_nextBackoff
    refine ⟨h.floor, h.period, Or.inr hle, ?_, ?_⟩
    · rintro _ ⟨⟩
    · rintro _ ⟨⟩
      simp only [Entry.polled, ms, Bool.false_eq_true, if_false]
      omega

theorem pass (h : e.Paced) (job : Job) (now : ℤ) (key : ℕ) : (e.pass job now key).Paced := by
  unfold Entry.pass
  split_ifs
  · exact ⟨h.floor, h.period, h.backoff, h.succeeded, h.failed⟩
  · exact ⟨h.floor, h.period, h.backoff, h.succeeded, h.failed⟩
  · exact h

theorem fresh {o : Object} {period : ℤ} {serial : ℕ} (hfloor : kMinRefreshPeriod ≤ period)
    (he : Entry.acquired o period serial none = some e) : e.Paced := by
  cases he
  refine ⟨hfloor, ?_, Or.inl rfl, ?_, ?_⟩
  · simp
  · rintro _ ⟨⟩
  · rintro _ ⟨⟩

/-- A period that is not shorter leaves the entry on time. -/
theorem acquired (h : e.Paced) {o : Object} {period : ℤ} {serial : ℕ} {f : Entry}
    (hfloor : kMinRefreshPeriod ≤ period)
    (hle : e.lastPoll.any LastPoll.result = true → e.period ≤ period)
    (hf : Entry.acquired o period serial (some e) = some f) : f.Paced := by
  cases hf
  have hset : { p | p ∈ period :: e.requested } = insert period { p | p ∈ e.requested } := by
    ext p
    simp
  refine ⟨le_min h.floor hfloor, ?_, ?_, ?_, ?_⟩
  · have hleast := h.period.insert period
    rw [min_comm, ← hset] at hleast
    exact hleast
  · have hback := h.backoff
    dsimp only
    omega
  · intro readStart hl
    have hsame : min e.period period = e.period := min_eq_left (hle (by rw [hl]; rfl))
    rw [hsame]
    exact h.succeeded readStart hl
  · intro readStart hl
    have hdue := h.failed readStart hl
    unfold ms at hdue ⊢
    dsimp only
    omega

end Entry.Paced

variable {s : State} {count : ℕ} {clock : ℤ}

theorem paced_step {a : Action}
    (h : ∀ (key : ℕ) (e : Entry), s.entries[key]? = some e → e.Paced) (hc : KeepsSchedule s a)
    (key : ℕ) (e : Entry) (he : (next count s a).entries[key]? = some e) : e.Paced := by
  cases entry_step _ _ he with
  | same _ hs => exact h key e hs
  | @acquire o period _ hk hs =>
    subst hk
    cases hold : s.entries[makeKey o]? with
    | none =>
      rw [hold] at hs
      exact .fresh (le_max_right _ _) hs
    | some f =>
      rw [hold] at hs
      exact (h _ f hold).acquired (le_max_right _ _) (hc f hold) hs
  | release _ hs =>
    have hf := h key _ hs
    exact ⟨hf.floor, hf.period, hf.backoff, hf.succeeded, hf.failed⟩
  | take _ hs => exact (h key _ hs).pass _ _ _
  | finish _ hs => exact (h key _ hs).polled _ _

/-- As long as nobody asks for a shorter period of an object that has been read, each entry is due
when the shortest period is over. -/
theorem periodsHonoured_of_keepsSchedule
    (h : (system count clock).ReachableUnder KeepsSchedule s) : PeriodsHonoured s := by
  have hpaced := h.invariant
    (by
      intro key e he
      cases he)
    fun _ _ hs _ hc => paced_step hs hc
  intro key e he
  exact (hpaced key e he).onTime

/-- Two requesters of one object, the second of which asks for a longer period. -/
def relaxedRequest : List Action :=
  [.start, .acquire position 50] ++ pollBy 0 (position.job 0) 0 1000000 true ++
    [.acquire position 60000]

theorem relaxedRequest_periodsHonoured :
    PeriodsHonoured
      ((system kWorkerCount 0).run (system kWorkerCount 0).initial relaxedRequest) := by
  have hf : (system kWorkerCount 0).Follows KeepsSchedule (system kWorkerCount 0).initial
      relaxedRequest := by
    decide +kernel
  exact periodsHonoured_of_keepsSchedule ⟨_, hf, rfl⟩

/-- The second requester asks for 50 ms, and the object stays scheduled in a minute. -/
def tightenedRequest : List Action :=
  [.start, .acquire position 60000] ++ pollBy 0 (position.job 0) 0 1000000 true ++
    [.acquire position 50]

theorem tightenedRequest_not_periodsHonoured :
    ∃ s, (system kWorkerCount 0).Reachable s ∧ ¬ PeriodsHonoured s := by
  have hf : (system kWorkerCount 0).Follows (fun _ _ => True) (system kWorkerCount 0).initial
      tightenedRequest := by
    decide +kernel
  refine ⟨_, ⟨_, hf, rfl⟩, ?_⟩
  intro h
  obtain ⟨e, he, hreq, hlast, hdue⟩ : ∃ e, ((system kWorkerCount 0).run
      (system kWorkerCount 0).initial tightenedRequest).entries[makeKey position]? = some e ∧
      e.requested = [50, 60000] ∧ e.lastPoll = some ⟨0, true⟩ ∧ e.nextDue = 60000000000 :=
    ⟨_, rfl, by decide +kernel⟩
  obtain ⟨shortest, hleast, htime⟩ := h _ e he
  rw [hlast] at htime
  have hle : shortest ≤ 50 := hleast.2 (by simp [hreq])
  simp only [hdue, ms] at htime
  omega

end MotionMaster.Refresher
