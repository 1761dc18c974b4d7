import Mathlib.Tactic.Linarith
import Mathlib.Tactic.Ring
import MotionMaster.Lib.Interleaving

/-!
# The cycle timer

`CyclicTimer` sleeps to deadlines on a grid of one period. The deadline is a pair of seconds and
nanoseconds, advanced one period at a time; a deadline that is already past is passed over.
-/

namespace MotionMaster.GameLoop

/-- A period the configuration and the API accept, in microseconds. -/
structure Period where
  us : ℕ
  us_pos : 0 < us
  us_lt : us < 2 ^ 32
  deriving DecidableEq

structure Reading where
  sec : ℤ
  nsec : ℤ
  nsec_nonneg : 0 ≤ nsec
  nsec_lt : nsec < 1000000000
  deriving DecidableEq

def Reading.ns (now : Reading) : ℤ := now.sec * 1000000000 + now.nsec

structure CyclicTimer where
  period_ns : ℤ
  next_sec : ℤ
  next_nsec : ℤ
  period_pos : 0 < period_ns
  deriving DecidableEq

namespace CyclicTimer

def ns (t : CyclicTimer) : ℤ := t.next_sec * 1000000000 + t.next_nsec

/-- A timespec `clock_nanosleep` accepts. -/
def Valid (t : CyclicTimer) : Prop := 0 ≤ t.next_nsec ∧ t.next_nsec < 1000000000

/-- The constructor, and `setPeriod`, which anchors a new grid in the same way. -/
def anchored (period : Period) (now : Reading) : CyclicTimer where
  period_ns := period.us * 1000
  next_sec := now.sec
  next_nsec := now.nsec
  period_pos := by
    have := period.us_pos
    omega

def setPeriod (_ : CyclicTimer) (period : Period) (now : Reading) : CyclicTimer :=
  anchored period now

def advanceOnePeriod (t : CyclicTimer) : CyclicTimer :=
  let nsec := t.next_nsec + t.period_ns
  if 1000000000 ≤ nsec then
    { t with next_nsec := nsec - 1000000000, next_sec := t.next_sec + 1 }
  else { t with next_nsec := nsec }

def Behind (t : CyclicTimer) (now : Reading) : Prop :=
  t.next_sec < now.sec ∨ t.next_sec = now.sec ∧ t.next_nsec < now.nsec
  deriving Decidable

/-- The loop that passes over what is behind the clock. An advance without a carry brings the
nanoseconds closer to the next second, one with a carry the seconds closer to the clock. -/
def catchUp (t : CyclicTimer) (now : Reading) (skipped : ℕ) : CyclicTimer × ℕ :=
  if t.Behind now then catchUp t.advanceOnePeriod now (skipped + 1) else (t, skipped)
termination_by ((now.sec + 1 - t.next_sec).toNat, (1000000000 - t.next_nsec).toNat)
decreasing_by
  rename_i hbehind
  have hsec : t.next_sec ≤ now.sec := by
    rcases hbehind with h | h
    · omega
    · omega
  have hpos := t.period_pos
  by_cases hcarry : 1000000000 ≤ t.next_nsec + t.period_ns
  · apply Prod.Lex.left
    simp only [advanceOnePeriod, if_pos hcarry]
    omega
  · simp only [advanceOnePeriod, if_neg hcarry]
    apply Prod.Lex.right
    omega

/-- The deadline slept to is the one left in the timer. -/
def waitForNextCycle (t : CyclicTimer) (now : Reading) : CyclicTimer × ℕ :=
  catchUp t.advanceOnePeriod now 0

end CyclicTimer

/-! ## Runs -/

/-- The timer with the clock at its last reading, the instant its grid is anchored at and the
number of the grid point last slept to. -/
structure TimerState where
  timer : CyclicTimer
  clock : ℤ
  anchor : ℤ
  index : ℕ

inductive TimerAction where
  | setPeriod (period : Period) (now : Reading)
  | wait (now : Reading)
  deriving DecidableEq

def TimerAction.now : TimerAction → Reading
  | .setPeriod _ now => now
  | .wait now => now

def timerNext (s : TimerState) : TimerAction → TimerState
  | .setPeriod period now => ⟨s.timer.setPeriod period now, now.ns, now.ns, 0⟩
  | .wait now =>
    ⟨(s.timer.waitForNextCycle now).1, now.ns, s.anchor,
      s.index + 1 + (s.timer.waitForNextCycle now).2⟩

/-- A timer constructed at `now`; the clock never runs backwards. -/
def timerSystem (period : Period) (now : Reading) :
    Interleaving.System TimerState TimerAction where
  initial := ⟨.anchored period now, now.ns, now.ns, 0⟩
  Enabled s a := s.clock ≤ a.now.ns
  next := timerNext

/-- The next call, whatever the clock reads by then, sleeps to a later point of the grid that is not
before the reading, and returns how many points it passed over, all of them before the reading. -/
def SleepsOnGrid (s : TimerState) : Prop :=
  ∀ now : Reading, s.clock ≤ now.ns → ∃ k : ℕ, s.index < k ∧
    (s.timer.waitForNextCycle now).1.Valid ∧
    (s.timer.waitForNextCycle now).1.ns = s.anchor + k * s.timer.period_ns ∧
    now.ns ≤ (s.timer.waitForNextCycle now).1.ns ∧
    (s.timer.waitForNextCycle now).2 = k - s.index - 1 ∧
    ∀ j, s.index < j → j < k → s.anchor + j * s.timer.period_ns < now.ns

/-- The period is one the carry of a single second suffices for. -/
def Period.AtMostOneSecond (period : Period) : Prop := period.us ≤ 1000000
  deriving Decidable

def SetsAtMostOneSecond (_ : TimerState) : TimerAction → Prop
  | .setPeriod period _ => period.AtMostOneSecond
  | .wait _ => True

instance : ∀ s a, Decidable (SetsAtMostOneSecond s a)
  | _, .setPeriod period _ => inferInstanceAs (Decidable period.AtMostOneSecond)
  | _, .wait _ => isTrue trivial

/-! ## The deadline -/

namespace CyclicTimer

variable {t : CyclicTimer} {now : Reading} {skipped : ℕ}

@[simp] theorem period_ns_advanceOnePeriod (t : CyclicTimer) :
    t.advanceOnePeriod.period_ns = t.period_ns := by
  rw [advanceOnePeriod]
  split <;> rfl

/-- One advance moves the deadline by exactly one period, whatever its parts are. -/
theorem ns_advanceOnePeriod (t : CyclicTimer) : t.advanceOnePeriod.ns = t.ns + t.period_ns := by
  simp only [advanceOnePeriod, ns]
  split
  · dsimp only
    omega
  · dsimp only
    omega

/-- The single carry suffices up to a period of one second. -/
theorem valid_advanceOnePeriod (h : t.Valid) (hp : t.period_ns ≤ 1000000000) :
    t.advanceOnePeriod.Valid := by
  obtain ⟨hnonneg, hlt⟩ := h
  have hpos := t.period_pos
  simp only [advanceOnePeriod, Valid]
  split
  · dsimp only
    omega
  · dsimp only
    omega

theorem behind_iff (h : t.Valid) : t.Behind now ↔ t.ns < now.ns := by
  obtain ⟨hnonneg, hlt⟩ := h
  have hn := now.nsec_nonneg
  have hl := now.nsec_lt
  simp only [Behind, ns, Reading.ns]
  omega

/-- The loop stops at the first point of the grid that is not behind the clock. -/
theorem catchUp_spec (h : t.Valid) (hp : t.period_ns ≤ 1000000000) (now : Reading) (skipped : ℕ) :
    ∃ m : ℕ, (catchUp t now skipped).2 = skipped + m ∧ (catchUp t now skipped).1.Valid ∧
      (catchUp t now skipped).1.period_ns = t.period_ns ∧
      (catchUp t now skipped).1.ns = t.ns + m * t.period_ns ∧
      now.ns ≤ (catchUp t now skipped).1.ns ∧
      ∀ j : ℕ, j < m → t.ns + j * t.period_ns < now.ns := by
  induction t, skipped using catchUp.induct now with
  | case1 t skipped hbehind ih =>
    obtain ⟨m, hm, hvalid, hperiod, hns, hle, hpassed⟩ :=
      ih (valid_advanceOnePeriod h hp) (by rw [period_ns_advanceOnePeriod]; exact hp)
    rw [period_ns_advanceOnePeriod] at hperiod hns hpassed
    rw [ns_advanceOnePeriod] at hns hpassed
    rw [catchUp, if_pos hbehind]
    refine ⟨m + 1, by omega, hvalid, hperiod, ?_, hle, ?_⟩
    · rw [hns]
      push_cast
      ring
    · intro j hj
      cases j with
      | zero =>
        have := (behind_iff h).mp hbehind
        simpa using this
      | succ j =>
        have := hpassed j (by omega)
        push_cast at this ⊢
        linarith
  | case2 t skipped hnot =>
    rw [catchUp, if_neg hnot]
    refine ⟨0, rfl, h, rfl, by simp, ?_, by simp⟩
    exact Int.not_lt.mp fun hlt => hnot ((behind_iff h).mpr hlt)

/-- One call: a period for the cycle itself and one for each point passed over. -/
theorem waitForNextCycle_spec (h : t.Valid) (hp : t.period_ns ≤ 1000000000) (now : Reading) :
    (t.waitForNextCycle now).1.Valid ∧
      (t.waitForNextCycle now).1.period_ns = t.period_ns ∧
      (t.waitForNextCycle now).1.ns = t.ns + (1 + (t.waitForNextCycle now).2) * t.period_ns ∧
      now.ns ≤ (t.waitForNextCycle now).1.ns ∧
      ∀ j : ℕ, j < (t.waitForNextCycle now).2 → t.ns + (1 + j) * t.period_ns < now.ns := by
  obtain ⟨m, hm, hvalid, hperiod, hns, hle, hpassed⟩ :=
    catchUp_spec (valid_advanceOnePeriod h hp)
      (by rw [period_ns_advanceOnePeriod]; exact hp) now 0
  rw [period_ns_advanceOnePeriod] at hperiod hns hpassed
  rw [ns_advanceOnePeriod] at hns hpassed
  rw [Nat.zero_add] at hm
  rw [waitForNextCycle, hm, hns]
  refine ⟨hvalid, hperiod, by ring, hns ▸ hle, ?_⟩
  intro j hj
  have hj' := hpassed j hj
  linarith

end CyclicTimer

/-! ## Every call -/

variable {s : TimerState} {period : Period} {now : Reading}

/-- The deadline is the grid point slept to last. -/
structure OnGrid (s : TimerState) : Prop where
  valid : s.timer.Valid
  period_le : s.timer.period_ns ≤ 1000000000
  ns_eq : s.timer.ns = s.anchor + s.index * s.timer.period_ns

theorem onGrid_anchored (hp : period.AtMostOneSecond) (now : Reading) :
    OnGrid ⟨.anchored period now, now.ns, now.ns, 0⟩ := by
  refine ⟨⟨now.nsec_nonneg, now.nsec_lt⟩, ?_, ?_⟩
  · have hle : period.us ≤ 1000000 := hp
    simp only [CyclicTimer.anchored]
    omega
  · simp [CyclicTimer.anchored, CyclicTimer.ns, Reading.ns]

theorem OnGrid.wait (h : OnGrid s) (now : Reading) : OnGrid (timerNext s (.wait now)) := by
  obtain ⟨hvalid, hperiod, hns, -, -⟩ :=
    CyclicTimer.waitForNextCycle_spec h.valid h.period_le now
  refine ⟨hvalid, hperiod.trans_le h.period_le, ?_⟩
  simp only [timerNext, hns, hperiod, h.ns_eq]
  push_cast
  ring

theorem OnGrid.sleepsOnGrid (h : OnGrid s) : SleepsOnGrid s := by
  intro now _
  obtain ⟨hvalid, -, hns, hle, hpassed⟩ :=
    CyclicTimer.waitForNextCycle_spec h.valid h.period_le now
  refine ⟨s.index + 1 + (s.timer.waitForNextCycle now).2, by omega, hvalid, ?_, hle, by omega, ?_⟩
  · rw [hns, h.ns_eq]
    push_cast
    ring
  · intro j hj hlt
    obtain ⟨i, rfl⟩ := Nat.exists_eq_add_of_lt hj
    have hi := hpassed i (by omega)
    rw [h.ns_eq] at hi
    push_cast
    linarith

/-- As long as no period above one second is set, every call sleeps on the grid. -/
theorem sleepsOnGrid_of_atMostOneSecond (hp : period.AtMostOneSecond)
    (h : (timerSystem period now).ReachableUnder SetsAtMostOneSecond s) : SleepsOnGrid s := by
  have hgrid : OnGrid s := by
    apply h.invariant
    · exact onGrid_anchored hp now
    · intro s a hs _ hc
      cases a with
      | setPeriod period now => exact onGrid_anchored hc now
      | wait now => exact hs.wait now
  exact hgrid.sleepsOnGrid

def oneMillisecond : Period := ⟨1000, by decide, by decide⟩

def clockAt (ns : Fin 1000000000) : Reading := ⟨0, ns, by omega, by omega⟩

/-- A cycle of 1 ms, and a call 4 ms late. -/
theorem stalledCycle_sleepsOnGrid : SleepsOnGrid
    ((timerSystem oneMillisecond (clockAt 0)).run (timerSystem oneMillisecond (clockAt 0)).initial
      [.wait (clockAt 0), .wait (clockAt 5500000)]) := by
  have hp : oneMillisecond.AtMostOneSecond := by decide
  have hlate : (clockAt 0).ns ≤ (clockAt 5500000).ns := by decide
  have hfollows : (timerSystem oneMillisecond (clockAt 0)).Follows SetsAtMostOneSecond
      (timerSystem oneMillisecond (clockAt 0)).initial
      [.wait (clockAt 0), .wait (clockAt 5500000)] :=
    ⟨⟨Int.le_refl _, trivial⟩, ⟨hlate, trivial⟩, trivial⟩
  exact sleepsOnGrid_of_atMostOneSecond hp ⟨_, hfollows, rfl⟩

theorem CyclicTimer.waitForNextCycle_of_not_behind {t : CyclicTimer}
    (h : ¬ t.advanceOnePeriod.Behind now) : t.waitForNextCycle now = (t.advanceOnePeriod, 0) := by
  rw [waitForNextCycle, catchUp, if_neg h]

def oneAndAHalfSeconds : Period := ⟨1500000, by decide, by decide⟩

/-- With a period of 1.5 s the second deadline is 2 s and 1000000000 ns. -/
theorem longPeriod_not_sleepsOnGrid :
    ∃ s, (timerSystem oneAndAHalfSeconds (clockAt 0)).Reachable s ∧ ¬ SleepsOnGrid s := by
  refine ⟨_, ⟨[.wait (clockAt 0)], ⟨⟨Int.le_refl _, trivial⟩, trivial⟩, rfl⟩, ?_⟩
  intro h
  obtain ⟨k, -, hvalid, -⟩ := h (clockAt 0) (Int.le_refl _)
  have hfirst : (CyclicTimer.anchored oneAndAHalfSeconds (clockAt 0)).waitForNextCycle (clockAt 0) =
      (⟨1500000000, 1, 500000000, by decide⟩, 0) := by
    rw [CyclicTimer.waitForNextCycle_of_not_behind (by decide)]
    decide
  have hsecond :
      (⟨1500000000, 1, 500000000, by decide⟩ : CyclicTimer).waitForNextCycle (clockAt 0) =
        (⟨1500000000, 2, 1000000000, by decide⟩, 0) := by
    rw [CyclicTimer.waitForNextCycle_of_not_behind (by decide)]
    decide
  simp only [Interleaving.System.run, timerSystem, List.foldl_cons, List.foldl_nil, timerNext,
    hfirst, hsecond] at hvalid
  exact absurd hvalid.2 (by decide)

end MotionMaster.GameLoop
