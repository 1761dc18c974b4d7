import MotionMaster.Procedure.Exclusion

/-!
# What a snapshot shows

The thread stores the error and the time before the status, and never stores again after it: a
reader that sees a terminal status finds the rest behind it.
-/

namespace MotionMaster.ProcedureManager

open Interleaving

variable {Progress : Type} {devices : ℕ → Bool} {s s' : State Progress} {a : Action Progress}
  {run run' : Run Progress} {r t u i : ℕ} {now : Int}

/-- The clock of a thread never reads 0 ms, which stands for no time. -/
def ClockRuns (_ : State Progress) : Action Progress → Prop
  | .advance _ now => now ≠ 0
  | _ => True

instance (s : State Progress) (a : Action Progress) : Decidable (ClockRuns s a) :=
  match a with
  | .advance _ now => inferInstanceAs (Decidable (now ≠ 0))
  | .rescan | .publish _ | .start _ _ _ | .snapshot _ _ | .cancel _ _ | .step _ _ | .report _ _
  | .finish _ _ => isTrue trivial

namespace Run

/-- The status of the run is the last its thread has stored. -/
def Published (run : Run Progress) : Prop :=
  run.thread = .published ∨ run.thread = .cleared ∨ run.thread = .released

/-- A run that failed shows the error its body returned. -/
def Explains (run : Run Progress) : Prop :=
  ∃ e, run.outcome = some (.error e) ∧ run.error = some e

/-- What the thread has stored so far. -/
def Sound (run : Run Progress) : Prop :=
  match run.thread with
  | .unstarted | .working => run.status = .kRunning
  | .returned result => run.status = .kRunning ∧ run.outcome = some result
  | .recorded (.ok _) => run.status = .kRunning
  | .recorded (.error _) => run.status = .kRunning ∧ run.Explains
  | .timed (.ok _) => run.status = .kRunning ∧ run.finishedAt ≠ 0
  | .timed (.error _) => run.status = .kRunning ∧ run.finishedAt ≠ 0 ∧ run.Explains
  | .decided status =>
    run.status = .kRunning ∧ run.finishedAt ≠ 0 ∧ (status = .kFailed → run.Explains)
  | .published | .cleared | .released =>
    run.finishedAt ≠ 0 ∧ (run.status = .kFailed → run.Explains)

/-- What a snapshot reads, and how far the thread has got, is as it was. -/
structure SameOutcome (run run' : Run Progress) : Prop where
  thread : run'.thread = run.thread
  status : run'.status = run.status
  finishedAt : run'.finishedAt = run.finishedAt
  error : run'.error = run.error
  outcome : run'.outcome = run.outcome

/-- The run is as it was to a reader, or its thread has gone on. -/
inductive Onward (run : Run Progress) : Run Progress → Prop
  | same {run' : Run Progress} (h : run.SameOutcome run') : Onward run run'
  | begin (hth : run.thread = .unstarted) :
      Onward run { run with thread := .working, threadRef := true }
  | finish (result : Except String Unit) (hw : run.thread = .working) :
      Onward run { run with thread := .returned result, outcome := some result }
  | advance (now : Int) (hn : now ≠ 0) : Onward run (run.advance now)

end Run

theorem sameOutcome_release (run : Run Progress) (h : Holder) :
    run.SameOutcome (run.release h) := by
  unfold Run.release
  split_ifs <;> cases h <;> exact ⟨rfl, rfl, rfl, rfl, rfl⟩

/-- A run after a step is one from before gone on, or a new one. -/
theorem runs_onward (hb : Begun s) (he : Enabled s a) (hc : ClockRuns s a)
    (hr : (next s a).runs[i]? = some run') :
    (∃ run, s.runs[i]? = some run ∧ run.Onward run') ∨
      i = s.runs.length ∧ run'.thread = .unstarted ∧ run'.status = .kRunning := by
  rcases runs_next he hr with ⟨t, now, rfl, hr'⟩ | ⟨-, run, hold, hm⟩
  · rcases stepped_stepCaller s t now with h | h
    · rw [h] at hr'
      exact .inl ⟨run', hr', .same ⟨rfl, rfl, rfl, rfl, rfl⟩⟩
    · rcases runs_stepped h hr' with ⟨run, hold, ht⟩ | ⟨key, steps, captured, -, hi, rfl⟩
      · refine .inl ⟨run, hold, ?_⟩
        cases ht with
        | same | stopped => exact .same ⟨rfl, rfl, rfl, rfl, rfl⟩
        | dropped | left => exact .same (sameOutcome_release _ _)
        | spawned hi => exact .begin (hb.unstarted t i run hi hold)
      · exact .inr ⟨hi, rfl, rfl⟩
  · refine .inl ⟨run, hold, ?_⟩
    cases hm with
    | same | report _ => exact .same ⟨rfl, rfl, rfl, rfl, rfl⟩
    | finish result hw => exact .finish result hw
    | advance now ha =>
      subst ha
      exact .advance now hc

/-! ### What the thread stores -/

theorem sound_same (h : run.SameOutcome run') (hs : run.Sound) : run'.Sound := by
  unfold Run.Sound Run.Explains at hs ⊢
  rw [h.thread, h.status, h.finishedAt, h.error, h.outcome]
  exact hs

theorem sound_advance (hn : now ≠ 0) (hs : run.Sound) : (run.advance now).Sound := by
  cases hth : run.thread with
  | unstarted | working | released =>
    simp only [Run.advance, hth]
    exact hs
  | returned result =>
    cases result with
    | ok _ =>
      simp only [Run.Sound, hth] at hs
      simp only [Run.advance, hth]
      exact hs.1
    | error e =>
      simp only [Run.Sound, hth] at hs
      simp only [Run.advance, hth]
      exact ⟨hs.1, e, hs.2, rfl⟩
  | recorded result =>
    cases result with
    | ok _ =>
      simp only [Run.Sound, hth] at hs
      simp only [Run.advance, hth]
      exact ⟨hs, hn⟩
    | error e =>
      simp only [Run.Sound, hth] at hs
      simp only [Run.advance, hth]
      exact ⟨hs.1, hn, hs.2⟩
  | timed result =>
    cases result with
    | ok _ =>
      simp only [Run.Sound, hth] at hs
      simp only [Run.advance, hth]
      exact ⟨hs.1, hs.2, fun h => by cases h⟩
    | error e =>
      simp only [Run.Sound, hth] at hs
      simp only [Run.advance, hth]
      exact ⟨hs.1, hs.2.1, fun _ => hs.2.2⟩
  | decided status =>
    simp only [Run.Sound, hth] at hs
    simp only [Run.advance, hth]
    exact hs.2
  | published =>
    simp only [Run.Sound, hth] at hs
    simp only [Run.advance, hth]
    exact hs
  | cleared =>
    have hsame := sameOutcome_release run .thread
    simp only [Run.Sound, hth] at hs
    simp only [Run.advance, hth, Run.Sound, Run.Explains, hsame.status, hsame.finishedAt,
      hsame.error, hsame.outcome]
    exact hs

theorem sound_onward (h : run.Onward run') (hs : run.Sound) : run'.Sound := by
  cases h with
  | same h => exact sound_same h hs
  | begin hth =>
    simp only [Run.Sound, hth] at hs
    exact hs
  | finish result hw =>
    simp only [Run.Sound, hw] at hs
    exact ⟨hs, rfl⟩
  | advance now hn => exact sound_advance hn hs

theorem published_onward (h : run.Onward run') (hp : run.Published) :
    run'.Published ∧ run'.status = run.status ∧ run'.finishedAt = run.finishedAt ∧
      run'.error = run.error := by
  cases h with
  | same h => exact ⟨by rwa [Run.Published, h.thread], h.status, h.finishedAt, h.error⟩
  | begin hth => simp [Run.Published, hth] at hp
  | finish result hw => simp [Run.Published, hw] at hp
  | advance now hn =>
    rcases hp with hth | hth | hth
    · simp only [Run.advance, hth]
      exact ⟨.inr (.inl rfl), trivial, trivial, trivial⟩
    · have hsame := sameOutcome_release run .thread
      simp only [Run.advance, hth]
      exact ⟨.inr (.inr rfl), hsame.status, hsame.finishedAt, hsame.error⟩
    · simp only [Run.advance, hth]
      exact ⟨.inr (.inr hth), trivial, trivial, trivial⟩

theorem published_of_terminal (hs : run.Sound) (ht : run.status.Terminal) : run.Published := by
  unfold Run.Published
  cases hth : run.thread with
  | published | cleared | released => simp
  | unstarted | working =>
    simp only [Run.Sound, hth] at hs
    rw [hs] at ht
    exact ht.elim
  | returned _ | decided _ =>
    simp only [Run.Sound, hth] at hs
    rw [hs.1] at ht
    exact ht.elim
  | recorded result =>
    cases result with
    | ok _ =>
      simp only [Run.Sound, hth] at hs
      rw [hs] at ht
      exact ht.elim
    | error e =>
      simp only [Run.Sound, hth] at hs
      rw [hs.1] at ht
      exact ht.elim
  | timed result =>
    cases result <;>
    · simp only [Run.Sound, hth] at hs
      rw [hs.1] at ht
      exact ht.elim

/-! ### What a reader sees -/

/-- The run and the status a snapshot in progress, or its answer, has read. -/
def Caller.subject : Caller Progress → Option (ℕ × ProcedureStatus)
  | .loaded r status | .timed r status _ | .explained r status _ _ => some (r, status)
  | .done (.snapshot (some (r, shown))) => some (r, shown.status)
  | _ => none

/-- What the caller has read is what the run has. -/
def Run.Backs (run : Run Progress) : Caller Progress → Prop
  | .loaded _ status => run.status = status
  | .timed _ status finishedAt => run.status = status ∧ run.finishedAt = finishedAt
  | .explained _ status finishedAt error =>
    run.status = status ∧ run.finishedAt = finishedAt ∧ run.error = error
  | .done (.snapshot (some (_, shown))) =>
    run.status = shown.status ∧ shown.error = run.error ∧
      shown.finishedAt = if run.finishedAt = 0 then none else some run.finishedAt
  | _ => True

/-- Every run is sound, and behind every terminal status read there is a run that has it. -/
structure Witnessed (s : State Progress) : Prop where
  sound : ∀ (r : ℕ) (run : Run Progress), s.runs[r]? = some run → run.Sound
  backed : ∀ (t r : ℕ) (status : ProcedureStatus), (s.callers t).subject = some (r, status) →
    status.Terminal → ∃ run, s.runs[r]? = some run ∧ run.Published ∧ run.Backs (s.callers t)

theorem witnessed_initial : Witnessed (State.initial devices : State Progress) where
  sound _ _ h := by cases h
  backed _ _ _ h := by cases h

theorem backs_onward (h : run.Onward run') (hp : run.Published) {c : Caller Progress}
    (hb : run.Backs c) : run'.Backs c := by
  obtain ⟨-, hstatus, hfinished, herror⟩ := published_onward h hp
  unfold Run.Backs at hb ⊢
  rw [hstatus, hfinished, herror]
  exact hb

theorem sound_step (h : Witnessed s) (hb : Begun s) (he : Enabled s a) (hc : ClockRuns s a)
    (hr : (next s a).runs[i]? = some run') : run'.Sound := by
  rcases runs_onward hb he hc hr with ⟨run, hold, ho⟩ | ⟨-, hth, hstatus⟩
  · exact sound_onward ho (h.sound i run hold)
  · simp only [Run.Sound, hth]
    exact hstatus

/-- A published run that backs a caller does so after the next step. -/
theorem backed_next (hb : Begun s) (he : Enabled s a) (hc : ClockRuns s a)
    (hr : s.runs[r]? = some run) (hp : run.Published) {c : Caller Progress} (hbk : run.Backs c) :
    ∃ run', (next s a).runs[r]? = some run' ∧ run'.Published ∧ run'.Backs c := by
  obtain ⟨run', hr', -⟩ := runs_persist he hr
  rcases runs_onward hb he hc hr' with ⟨old, hold, ho⟩ | ⟨hi, -, -⟩
  · obtain rfl := Option.some.inj (hr.symm.trans hold)
    exact ⟨run', hr', (published_onward ho hp).1, backs_onward ho hp hbk⟩
  · rw [hi, List.getElem?_eq_none (Nat.le_refl _)] at hr
    cases hr

theorem backed_stepped (h : Witnessed s) (hs : Stepped s t now s') {status : ProcedureStatus}
    (hsub : (s'.callers t).subject = some (r, status)) (ht : status.Terminal) :
    ∃ run, s.runs[r]? = some run ∧ run.Published ∧ run.Backs (s'.callers t) := by
  -- what was read before is of the same run
  have hsame {run : Run Progress} (hc : (s.callers t).subject = some (r, status))
      (hr : s.runs[r]? = some run) : run.Published ∧ run.Backs (s.callers t) := by
    obtain ⟨run₁, hr₁, hp, hb⟩ := h.backed t r status hc ht
    obtain rfl := Option.some.inj (hr.symm.trans hr₁)
    exact ⟨hp, hb⟩
  cases hs with
  | readStatus r₀ run hc hr =>
    rw [s.callers_setCaller, if_pos rfl] at hsub ⊢
    cases hsub
    exact ⟨run, hr, published_of_terminal (h.sound _ run hr) ht, rfl⟩
  | readFinishedAt r₀ run status₀ hc hr =>
    rw [s.callers_setCaller, if_pos rfl] at hsub ⊢
    cases hsub
    obtain ⟨hp, hb⟩ := hsame (by rw [hc]; rfl) hr
    rw [hc] at hb
    exact ⟨run, hr, hp, hb, rfl⟩
  | readError r₀ run status₀ finishedAt hc hr =>
    rw [s.callers_setCaller, if_pos rfl] at hsub ⊢
    cases hsub
    obtain ⟨hp, hb⟩ := hsame (by rw [hc]; rfl) hr
    rw [hc] at hb
    exact ⟨run, hr, hp, hb.1, hb.2, rfl⟩
  | report r₀ run status₀ finishedAt error hc hr =>
    rw [s.callers_answer, if_pos rfl] at hsub ⊢
    cases hsub
    obtain ⟨hp, hb⟩ := hsame (by rw [hc]; rfl) hr
    rw [hc] at hb
    obtain ⟨hstatus, rfl, rfl⟩ := hb
    exact ⟨run, hr, hp, hstatus, rfl, rfl⟩
  | nothing _ _ hc response hres =>
    rw [s.callers_answer, if_pos rfl] at hsub
    rcases hres with rfl | rfl <;> cases hsub
  | _ => simp [State.setCaller, State.answer, Caller.subject] at hsub

theorem backed_step (h : Witnessed s) (hb : Begun s) (he : Enabled s a) (hc : ClockRuns s a)
    {status : ProcedureStatus} (hsub : ((next s a).callers u).subject = some (r, status))
    (ht : status.Terminal) : ∃ run, (next s a).runs[r]? = some run ∧ run.Published ∧
      run.Backs ((next s a).callers u) := by
  rcases callers_next s a u with hu | hu | ⟨now, rfl, hs⟩
  · rw [hu] at hsub ⊢
    obtain ⟨run, hr, hp, hbk⟩ := h.backed u r status hsub ht
    exact backed_next hb he hc hr hp hbk
  · cases hcu : (next s a).callers u with
    | starting _ _ | waiting _ =>
      rw [hcu] at hsub
      cases hsub
    | _ =>
      rw [hcu] at hu
      exact hu.elim
  · obtain ⟨run, hr, hp, hbk⟩ := backed_stepped h hs hsub ht
    exact backed_next hb he hc hr hp hbk

theorem witnessed_step (h : Witnessed s) (hb : Begun s) (he : Enabled s a) (hc : ClockRuns s a) :
    Witnessed (next s a) where
  sound _ _ hr := sound_step h hb he hc hr
  backed _ _ _ hsub ht := backed_step h hb he hc hsub ht

theorem witnessed_reachable (h : (system devices).ReachableUnder ClockRuns s) : Witnessed s :=
  h.induct witnessed_initial fun _ _ hr hw he hc => witnessed_step hw (begun_reachable hr) he hc

/-- A snapshot with a terminal status has the time the run finished and, if it failed, the error its
body returned. -/
def Accounted (s : State Progress) (r : ℕ) (shown : ProcedureSnapshot Progress) : Prop :=
  ∃ run, s.runs[r]? = some run ∧ shown.finishedAt = some run.finishedAt ∧
    (shown.status = .kFailed → ∃ e, run.outcome = some (.error e) ∧ shown.error = some e)

theorem accounted_of_backed (hs : run.Sound) (hp : run.Published) (hr : s.runs[r]? = some run)
    {shown : ProcedureSnapshot Progress}
    (hb : run.Backs (.done (.snapshot (some (r, shown))))) : Accounted s r shown := by
  obtain ⟨hstatus, herror, hfinished⟩ := hb
  obtain ⟨hne, hfailed⟩ : run.finishedAt ≠ 0 ∧ (run.status = .kFailed → run.Explains) := by
    rcases hp with hth | hth | hth <;>
    · simp only [Run.Sound, hth] at hs
      exact hs
  refine ⟨run, hr, by rw [hfinished, if_neg hne], fun hf => ?_⟩
  obtain ⟨e, hout, he⟩ := hfailed (hstatus.trans hf)
  exact ⟨e, hout, herror.trans he⟩

/-- What callers are promised: one run to a device, refusal exactly while there is one, nothing of
the current generation touched before a run is inserted, and an outcome behind every terminal
status. -/
structure Promised (s : State Progress) : Prop where
  exclusive : Exclusive s
  decided : ∀ (t : ℕ) (now : Int) (key : Key) (steps : Progress) (captured : ℕ) (todo : List Key),
    s.callers t = .scanning key steps captured todo →
      Decided s key steps captured todo ((next s (.step t now)).callers t)
  retained : ∀ (t : ℕ) (now : Int), (s.callers t).Undecided → Retains s (next s (.step t now))
  accounted : ∀ (t r : ℕ) (shown : ProcedureSnapshot Progress),
    s.callers t = .done (.snapshot (some (r, shown))) → shown.status.Terminal → Accounted s r shown

theorem promised_of_clockRuns (devices : ℕ → Bool) (s : State Progress)
    (h : (system devices).ReachableUnder ClockRuns s) : Promised s where
  exclusive := (shown_reachable h).exclusive
  decided _ _ _ _ _ _ hc := decided_step (shown_reachable h) hc
  retained _ _ hu := retains_step (dated_reachable h) hu
  accounted t r shown hc ht := by
    have hw := witnessed_reachable h
    obtain ⟨run, hr, hp, hb⟩ := hw.backed t r shown.status (by rw [hc]; rfl) ht
    rw [hc] at hb
    exact accounted_of_backed (hw.sound r run hr) hp hr hb

/-! ### A run that fails, and a device that is gone -/

/-- The body fails, its thread returns, and a snapshot is taken. -/
def failThenSnapshot : List (Action Unit) :=
  startOffsetDetection 0 9 ++ .finish 0 (.error "no encoder") :: List.replicate 6 (.advance 0 5) ++
    .snapshot 1 (1, "offset-detection") :: List.replicate 8 (.step 1 7)

def failedState : State Unit :=
  (system onePosition).run (State.initial onePosition) failThenSnapshot

theorem failedState_reachable : (system onePosition).ReachableUnder ClockRuns failedState :=
  ⟨failThenSnapshot, by decide +kernel, rfl⟩

theorem failThenSnapshot_promised : Promised failedState ∧
    failedState.callers 1 = .done (.snapshot
      (some (0, ⟨.kFailed, 1, 1, some 5, (), some "no encoder"⟩))) :=
  ⟨promised_of_clockRuns onePosition failedState failedState_reachable, by decide +kernel⟩

/-- The device vanishes in a rescan while its run goes on, and another start asks for it. -/
def startAfterVanished : List (Action Unit) :=
  startOffsetDetection 0 9 ++
    [.rescan, .publish fun _ => false, .start 1 (1, "offset-detection") ()]

/-- The start is refused, but not as busy. -/
theorem startAfterVanished_not_kBusy :
    ∃ s : State Unit, (system onePosition).Reachable s ∧ Busy s 1 ∧
      s.callers 1 = .starting (1, "offset-detection") () ∧
      (next s (.step 1 3)).callers 1 =
        .done (.refused .kUnknownDevice "device 1 not found") := by
  refine ⟨(system onePosition).run (State.initial onePosition) startAfterVanished,
    ⟨startAfterVanished, by decide +kernel, rfl⟩, ⟨0, _, rfl, ?_, ?_⟩, ?_, ?_⟩ <;> decide +kernel

end MotionMaster.ProcedureManager
