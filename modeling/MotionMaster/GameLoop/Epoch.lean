import MotionMaster.GameLoop.CyclicTimer

/-!
# Period changes

The loop of `GameLoop::run` waits, applies a period another thread has stored, and counts the
cycle. Applying a period starts the counters afresh.
-/

namespace MotionMaster.GameLoop

structure CycleContext where
  elapsed : BitVec 64
  skipped : BitVec 64
  deriving DecidableEq

/-- The loop between its wait and the rest of its iteration. `epochSkips`, `iterations` and
`previous` record what happened since the period was last applied to the timer. -/
structure LoopState where
  period : Period
  currentPeriod : Period
  timer : CyclicTimer
  clock : ℤ
  woken : Option ℕ
  executedCycles : BitVec 64
  skippedCycles : BitVec 64
  ctx : Option CycleContext
  epochSkips : List ℕ
  iterations : ℕ
  previous : Option CycleContext

inductive LoopAction where
  | setPeriod (period : Period)
  | wait (now : Reading)
  | cycle (now : Reading)

namespace LoopState

/-- A stored period that is not the current one: the timer gets a new grid, the counters restart. -/
def apply (s : LoopState) (now : Reading) : LoopState :=
  if s.period ≠ s.currentPeriod then
    { s with
      currentPeriod := s.period
      timer := s.timer.setPeriod s.period now
      executedCycles := 0
      skippedCycles := 0
      ctx := none
      -- the wait of this iteration started before the period was applied
      epochSkips := []
      iterations := 0 }
  else s

/-- The cycle is counted, and its context is what the tasks get. -/
def count (s : LoopState) (skipped : ℕ) : LoopState :=
  let executed := s.executedCycles + 1
  let totalSkipped := s.skippedCycles + BitVec.ofNat 64 skipped
  { s with
    woken := none
    executedCycles := executed
    skippedCycles := totalSkipped
    ctx := some ⟨executed + totalSkipped, BitVec.ofNat 64 skipped⟩
    iterations := s.iterations + 1
    previous := s.ctx }

end LoopState

def loopNext (s : LoopState) : LoopAction → LoopState
  | .setPeriod period => { s with period }
  | .wait now =>
    { s with
      timer := (s.timer.waitForNextCycle now).1
      clock := now.ns
      woken := some (s.timer.waitForNextCycle now).2
      epochSkips := s.epochSkips ++ [(s.timer.waitForNextCycle now).2] }
  | .cycle now =>
    match s.woken with
    | none => s
    | some skipped => { (s.apply now).count skipped with clock := now.ns }

def loopEnabled (s : LoopState) : LoopAction → Prop
  | .setPeriod _ => True
  | .wait now => s.woken = none ∧ s.clock ≤ now.ns
  | .cycle now => s.woken ≠ none ∧ s.clock ≤ now.ns

/-- `run` from the construction of the timer on. -/
def loopSystem (period : Period) (now : Reading) : Interleaving.System LoopState LoopAction where
  initial :=
    { period, currentPeriod := period, timer := .anchored period now, clock := now.ns
      woken := none, executedCycles := 0, skippedCycles := 0, ctx := none
      epochSkips := [], iterations := 0, previous := none }
  Enabled := loopEnabled
  next := loopNext

/-- After an iteration the counters are those of the epoch, and the context moved on by the cycle
and what it skipped. -/
structure CleanEpoch (s : LoopState) : Prop where
  skipped : s.woken = none → s.skippedCycles = BitVec.ofNat 64 s.epochSkips.sum
  executed : s.executedCycles = BitVec.ofNat 64 s.iterations
  elapsed : ∀ c c', s.previous = some c → s.ctx = some c' → c'.elapsed = c.elapsed + 1 + c'.skipped

/-- A period is applied only in an iteration whose wait passed nothing over. -/
def AppliesUnskipped (s : LoopState) : LoopAction → Prop
  | .cycle _ => s.period ≠ s.currentPeriod → s.woken = some 0
  | _ => True

/-! ## Epochs -/

variable {s : LoopState} {period : Period} {now : Reading}

/-- The invariant of the loop, in the middle of an iteration too. -/
structure Counted (s : LoopState) : Prop where
  skipped : s.skippedCycles + BitVec.ofNat 64 (s.woken.getD 0) = BitVec.ofNat 64 s.epochSkips.sum
  executed : s.executedCycles = BitVec.ofNat 64 s.iterations
  ctx : ∀ c, s.ctx = some c → c.elapsed = s.executedCycles + s.skippedCycles
  elapsed : ∀ c c', s.previous = some c → s.ctx = some c' → c'.elapsed = c.elapsed + 1 + c'.skipped

theorem Counted.cleanEpoch (h : Counted s) : CleanEpoch s := by
  refine ⟨?_, h.executed, h.elapsed⟩
  intro hw
  have hs := h.skipped
  rw [hw] at hs
  simpa using hs

theorem counted_initial (period : Period) (now : Reading) :
    Counted (loopSystem period now).initial :=
  ⟨rfl, rfl, nofun, nofun⟩

theorem Counted.wait (h : Counted s) (hw : s.woken = none) (now : Reading) :
    Counted (loopNext s (.wait now)) := by
  refine ⟨?_, h.executed, h.ctx, h.elapsed⟩
  have hs := h.cleanEpoch.skipped hw
  simp only [loopNext, Option.getD_some, List.sum_append, List.sum_singleton, BitVec.ofNat_add, hs]

/-- A period applied after a wait that passed nothing over leaves the counters at zero. -/
theorem Counted.apply (h : Counted s) (now : Reading)
    (hc : s.period ≠ s.currentPeriod → s.woken = some 0) : Counted (s.apply now) := by
  rw [LoopState.apply]
  split
  · next hne => exact ⟨by simp [hc hne], rfl, nofun, nofun⟩
  · exact h

theorem Counted.count {skipped : ℕ} (h : Counted s) (hw : s.woken = some skipped) :
    Counted (s.count skipped) := by
  have hs := h.skipped
  rw [hw, Option.getD_some] at hs
  refine ⟨?_, ?_, ?_, ?_⟩
  · simpa [LoopState.count] using hs
  · simp only [LoopState.count, h.executed, BitVec.ofNat_add]
    rfl
  · intro c hc
    cases hc
    rfl
  · intro c c' hc hc'
    cases hc'
    rw [h.ctx c hc]
    dsimp only
    ac_rfl

theorem woken_apply (s : LoopState) (now : Reading) : (s.apply now).woken = s.woken := by
  rw [LoopState.apply]
  split <;> rfl

/-- As long as no wait before a period change passed anything over, every epoch starts clean. -/
theorem cleanEpoch_of_appliesUnskipped
    (h : (loopSystem period now).ReachableUnder AppliesUnskipped s) : CleanEpoch s := by
  have hcounted : Counted s := by
    apply h.invariant
    · exact counted_initial period now
    · intro s a hs he hc
      cases a with
      | setPeriod p => exact ⟨hs.skipped, hs.executed, hs.ctx, hs.elapsed⟩
      | wait now => exact hs.wait he.1 now
      | cycle now =>
        cases hw : s.woken with
        | none => exact absurd hw he.1
        | some skipped =>
          have hcycle := (hs.apply now hc).count ((woken_apply s now).trans hw)
          change Counted (loopNext s (.cycle now))
          simp only [loopNext, hw]
          exact ⟨hcycle.skipped, hcycle.executed, hcycle.ctx, hcycle.elapsed⟩
  exact hcounted.cleanEpoch

def twoMilliseconds : Period := ⟨2000, by decide, by decide⟩

/-- A period stored while the loop sleeps to a deadline it meets. -/
theorem changeInTime_cleanEpoch : CleanEpoch
    ((loopSystem oneMillisecond (clockAt 0)).run (loopSystem oneMillisecond (clockAt 0)).initial
      [.setPeriod twoMilliseconds, .wait (clockAt 0), .cycle (clockAt 1000000)]) := by
  have hwait : ((CyclicTimer.anchored oneMillisecond (clockAt 0)).waitForNextCycle
      (clockAt 0)).2 = 0 := by
    rw [CyclicTimer.waitForNextCycle_of_not_behind (by decide)]
  have hlate : (clockAt 0).ns ≤ (clockAt 1000000).ns := by decide
  have hfollows : (loopSystem oneMillisecond (clockAt 0)).Follows AppliesUnskipped
      (loopSystem oneMillisecond (clockAt 0)).initial
      [.setPeriod twoMilliseconds, .wait (clockAt 0), .cycle (clockAt 1000000)] :=
    ⟨⟨trivial, trivial⟩, ⟨⟨rfl, Int.le_refl _⟩, trivial⟩,
      ⟨⟨Option.some_ne_none _, hlate⟩, fun _ => congrArg some hwait⟩, trivial⟩
  exact cleanEpoch_of_appliesUnskipped ⟨_, hfollows, rfl⟩

/-- The deadline at 1 ms is missed by half a cycle, so the wait passes one point over. Then the
period is applied, and the new epoch starts with a skipped cycle. -/
theorem changeAfterStall_not_cleanEpoch :
    ∃ s, (loopSystem oneMillisecond (clockAt 0)).Reachable s ∧ ¬ CleanEpoch s := by
  have hwait : (CyclicTimer.anchored oneMillisecond (clockAt 0)).waitForNextCycle
      (clockAt 1500000) = (⟨1000000, 0, 2000000, by decide⟩, 1) := by
    rw [CyclicTimer.waitForNextCycle, CyclicTimer.catchUp, if_pos (by decide),
      CyclicTimer.catchUp, if_neg (by decide)]
    decide
  have hstart : (clockAt 0).ns ≤ (clockAt 1500000).ns := by decide
  have hlate : (clockAt 1500000).ns ≤ (clockAt 2000000).ns := by decide
  refine ⟨_, ⟨[.setPeriod twoMilliseconds, .wait (clockAt 1500000), .cycle (clockAt 2000000)],
    ⟨⟨trivial, trivial⟩, ⟨⟨rfl, hstart⟩, trivial⟩, ⟨⟨Option.some_ne_none _, hlate⟩, trivial⟩,
      trivial⟩, rfl⟩, ?_⟩
  intro h
  have hskipped := h.skipped rfl
  simp only [Interleaving.System.run, loopSystem, List.foldl_cons, List.foldl_nil, loopNext,
    hwait] at hskipped
  revert hskipped
  decide

end MotionMaster.GameLoop
