import MotionMaster.Lib.Arena
import MotionMaster.Procedure.State

/-!
# Who drops a run last

A thread that releases the last reference to its own run joins itself. `runs_` gives up a run once
`running` is cleared, which is before the thread has released its reference.
-/

namespace MotionMaster.ProcedureManager

open Interleaving

variable {Progress : Type} {devices : ℕ → Bool} {s s' : State Progress} {a : Action Progress}
  {run run' : Run Progress} {r t u i : ℕ} {now : Int}

/-- No thread has dropped its own run. -/
def NeverSelfJoined (s : State Progress) : Prop := ∀ run ∈ s.runs, run.freedBy ≠ some .thread

def dropped (s : State Progress) : Action Progress → Option ℕ
  | .step t _ =>
    match s.callers t with
    | .sweeping _ generation (k :: _) => (s.find k).filter (s.collectable generation)
    | .inserting key _ _ => s.find key
    | _ => none
  | _ => none

/-- An entry is given up only after its thread has released its reference. -/
def DropsReleased (s : State Progress) (a : Action Progress) : Prop :=
  ∀ r ∈ dropped s a, ∀ run ∈ s.runs[r]?, run.thread = .released
  deriving Decidable

/-! ### What a step does to a run -/

/-- What the step of a caller does to a run there is. -/
inductive Touched (s : State Progress) (t i : ℕ) (now : Int) (run : Run Progress) :
    Run Progress → Prop
  | same : Touched s t i now run run
  | dropped (hd : dropped s (.step t now) = some i) : Touched s t i now run (run.release .map)
  | spawned (hc : s.callers t = .inserted i) :
      Touched s t i now run { run with thread := .working, threadRef := true }
  | left (hc : s.callers t = .spawned i) : Touched s t i now run (run.release .starter)
  | stopped (hc : s.callers t = .cancelling i) :
      Touched s t i now run { run with stopRequested := true }

def freshRun (s : State Progress) (key : Key) (steps : Progress) (captured : ℕ) (now : Int) :
    Run Progress :=
  { key, runCount := s.runCountOf key + 1, startedAt := now, topologyGeneration := captured
    steps, mapRef := true, starterRef := true, threadRef := false }

theorem runs_setRun_cases {f : Run Progress → Run Progress}
    (h : (s.setRun r f).runs[i]? = some run') :
    ∃ run, s.runs[i]? = some run ∧ (run' = run ∨ i = r ∧ run' = f run) := by
  rw [s.runs_setRun] at h
  split_ifs at h with hi
  · obtain ⟨run, hr, rfl⟩ := Option.map_eq_some_iff.mp h
    exact ⟨run, hr, .inr ⟨hi, rfl⟩⟩
  · exact ⟨run', h, .inl rfl⟩

theorem runs_insert_cases {k : Key} {new : Run Progress}
    (h : (s.insert k new).runs[i]? = some run') :
    (∃ run, s.runs[i]? = some run ∧
      (run' = run ∨ s.find k = some i ∧ run' = run.release .map)) ∨
      i = s.runs.length ∧ run' = new := by
  unfold State.insert at h
  cases hf : s.find k with
  | none =>
    simp only [hf] at h
    rcases Arena.getElem?_concat_cases h with h | h
    · exact .inl ⟨run', h, .inl rfl⟩
    · exact .inr h
  | some r =>
    simp only [hf] at h
    rcases Arena.getElem?_concat_cases h with h | ⟨hi, rfl⟩
    · obtain ⟨run, hr, heq | ⟨rfl, heq⟩⟩ := runs_setRun_cases (s := s) (r := r) h
      · exact .inl ⟨run, hr, .inl heq⟩
      · exact .inl ⟨run, hr, .inr ⟨rfl, heq⟩⟩
    · refine .inr ⟨?_, rfl⟩
      rw [hi]
      exact List.length_modify _ _ _

theorem runs_stepped (h : Stepped s t now s') (hr : s'.runs[i]? = some run') :
    (∃ run, s.runs[i]? = some run ∧ Touched s t i now run run') ∨
      ∃ key steps captured, s.callers t = .inserting key steps captured ∧ i = s.runs.length ∧
        run' = freshRun s key steps captured now := by
  cases h with
  | discard call generation k todo r hc hf hcol =>
    left
    obtain ⟨run, hold, rfl | ⟨rfl, rfl⟩⟩ := runs_setRun_cases (s := s) (r := r) hr
    · exact ⟨_, hold, .same⟩
    · exact ⟨_, hold, .dropped (by simp [dropped, hc, hf, hcol])⟩
  | insert key steps captured hc =>
    rcases runs_insert_cases hr with ⟨run, hold, rfl | ⟨hf, rfl⟩⟩ | ⟨hi, rfl⟩
    · exact .inl ⟨_, hold, .same⟩
    · exact .inl ⟨_, hold, .dropped (by simp [dropped, hc, hf])⟩
    · exact .inr ⟨key, steps, captured, hc, hi, rfl⟩
  | spawn r hc =>
    left
    obtain ⟨run, hold, rfl | ⟨rfl, rfl⟩⟩ := runs_setRun_cases (s := s) (r := r) hr
    · exact ⟨_, hold, .same⟩
    · exact ⟨_, hold, .spawned hc⟩
  | leave r hc =>
    left
    obtain ⟨run, hold, rfl | ⟨rfl, rfl⟩⟩ := runs_setRun_cases (s := s) (r := r) hr
    · exact ⟨_, hold, .same⟩
    · exact ⟨_, hold, .left hc⟩
  | stop r hc =>
    left
    obtain ⟨run, hold, rfl | ⟨rfl, rfl⟩⟩ := runs_setRun_cases (s := s) (r := r) hr
    · exact ⟨_, hold, .same⟩
    · exact ⟨_, hold, .stopped hc⟩
  | _ => exact .inl ⟨run', hr, .same⟩

/-- The action is a step of the run's own thread, or its body. -/
inductive Moved (a : Action Progress) (i : ℕ) (run : Run Progress) : Run Progress → Prop
  | same : Moved a i run run
  | report (steps : Progress) : Moved a i run { run with steps }
  | finish (result : Except String Unit) (hw : run.thread = .working) :
      Moved a i run { run with thread := .returned result, outcome := some result }
  | advance (now : Int) (ha : a = .advance i now) : Moved a i run (run.advance now)

/-- Every action but a caller's step leaves a run alone, or is taken by its thread. -/
theorem runs_next (he : Enabled s a) (hr : (next s a).runs[i]? = some run') :
    (∃ t now, a = .step t now ∧ (s.stepCaller t now).runs[i]? = some run') ∨
      (∀ t now, a ≠ .step t now) ∧ ∃ run, s.runs[i]? = some run ∧ Moved a i run run' := by
  cases a with
  | step t now => exact .inl ⟨t, now, rfl, hr⟩
  | report r steps =>
    refine .inr ⟨by simp, ?_⟩
    obtain ⟨run, hold, rfl | ⟨rfl, rfl⟩⟩ := runs_setRun_cases (s := s) (r := r) hr
    · exact ⟨_, hold, .same⟩
    · exact ⟨_, hold, .report steps⟩
  | finish r result =>
    refine .inr ⟨by simp, ?_⟩
    obtain ⟨run, hold, rfl | ⟨rfl, rfl⟩⟩ := runs_setRun_cases (s := s) (r := r) hr
    · exact ⟨_, hold, .same⟩
    · obtain ⟨run₁, hrun, hw⟩ := he
      obtain rfl := Option.some.inj (hold.symm.trans hrun)
      exact ⟨_, hold, .finish result hw⟩
  | advance r now =>
    refine .inr ⟨by simp, ?_⟩
    obtain ⟨run, hold, rfl | ⟨rfl, rfl⟩⟩ := runs_setRun_cases (s := s) (r := r) hr
    · exact ⟨_, hold, .same⟩
    · exact ⟨_, hold, .advance now rfl⟩
  | rescan | publish _ | start _ _ _ | snapshot _ _ | cancel _ _ =>
    exact .inr ⟨by simp, run', hr, .same⟩

/-! ### The mutex -/

def Caller.Locked : Caller Progress → Prop
  | .idle | .done _ | .starting .. | .resolved .. | .waiting _ => False
  | _ => True

def MutexHeld (s : State Progress) : Prop := ∀ t, (s.callers t).Locked → s.mutex = some t

theorem MutexHeld.setCaller (hm : MutexHeld s) {c : Caller Progress}
    (hc : c.Locked → s.mutex = some t) : MutexHeld (s.setCaller t c) := by
  intro u hu
  rw [s.callers_setCaller] at hu
  split_ifs at hu with hut
  · subst hut
    exact hc hu
  · exact hm u hu

theorem MutexHeld.setRun (hm : MutexHeld s) (r : ℕ) (f : Run Progress → Run Progress) :
    MutexHeld (s.setRun r f) := hm

theorem MutexHeld.answer (hm : MutexHeld s) (ht : s.mutex = some t)
    (response : Response Progress) : MutexHeld (s.answer t response) := by
  intro u hu
  rw [s.callers_answer] at hu
  split_ifs at hu with hut
  · exact hu.elim
  · have hmu := hm u hu
    rw [ht] at hmu
    exact absurd (Option.some.inj hmu).symm hut

theorem mutexHeld_stepped (h : Stepped s t now s') (hm : MutexHeld s)
    (hw : (s.callers t).Waits → s.mutex = none) : MutexHeld s' := by
  cases h with
  | unknown | resolve | stamp => exact hm.setCaller fun hl => hl.elim
  | lock call hc =>
    intro u hu
    by_cases hut : u = t
    · rw [hut]
    · have hmu := hm u (by simpa [State.setCaller, hut] using hu)
      rw [hw (by rw [hc]; trivial)] at hmu
      cases hmu
  | look _ hc | keep _ _ _ _ hc | scan _ _ _ _ hc | visit _ _ _ hc | target _ _ _ hc
  | pass _ _ _ _ _ hc | proceed _ _ _ hc | readStatus _ _ hc | readFinishedAt _ _ _ hc
  | readError _ _ _ _ hc =>
    exact hm.setCaller fun _ => hm t (by rw [hc]; trivial)
  | nothing _ _ hc | refuse _ _ _ _ _ hc | report _ _ _ _ _ hc =>
    exact hm.answer (hm t (by rw [hc]; trivial)) _
  | discard _ _ k _ r hc =>
    have hm' : MutexHeld (s.erase k r) := hm
    exact hm'.setCaller fun _ => hm t (by rw [hc]; trivial)
  | insert key steps captured hc =>
    have hm' : MutexHeld (s.insert key (freshRun s key steps captured now)) := by
      intro u hu
      rw [s.callers_insert] at hu
      rw [s.mutex_insert]
      exact hm u hu
    refine hm'.setCaller fun _ => ?_
    rw [s.mutex_insert]
    exact hm t (by rw [hc]; trivial)
  | spawn r hc =>
    exact (hm.setRun r _).setCaller fun _ => hm t (by rw [hc]; trivial)
  | leave r hc | stop r hc =>
    exact (hm.setRun r _).answer (hm t (by rw [hc]; trivial)) _

theorem mutexHeld_step (he : Enabled s a) (hm : MutexHeld s) : MutexHeld (next s a) := by
  cases a with
  | step t now =>
    rcases stepped_stepCaller s t now with h | h
    · rw [next, h]
      exact hm
    · exact mutexHeld_stepped h hm he.2
  | start t key steps => exact hm.setCaller fun hl => hl.elim
  | snapshot t key => exact hm.setCaller fun hl => hl.elim
  | cancel t key => exact hm.setCaller fun hl => hl.elim
  | rescan | publish _ | report _ _ | finish _ _ | advance _ _ => exact hm

/-! ### A run and its references -/

/-- Until the thread has released its reference, `runs_` holds one. -/
structure Run.Kept (run : Run Progress) : Prop where
  mapRef : run.thread ≠ .released → run.mapRef = true
  freedBy : run.freedBy ≠ some .thread

theorem kept_release_starter (h : run.Kept) : (run.release .starter).Kept := by
  unfold Run.release
  split_ifs
  · exact ⟨h.mapRef, h.freedBy⟩
  · exact ⟨h.mapRef, by simp⟩

theorem kept_release_map (h : run.Kept) (hr : run.thread = .released) :
    (run.release .map).Kept := by
  unfold Run.release
  split_ifs
  · exact ⟨fun hn => absurd hr hn, h.freedBy⟩
  · exact ⟨fun hn => absurd hr hn, by simp⟩

theorem kept_advance (h : run.Kept) (now : Int) : (run.advance now).Kept := by
  have hmap (hn : run.thread ≠ .released) : run.mapRef = true := h.mapRef hn
  cases hth : run.thread with
  | unstarted | working | released =>
    simp only [Run.advance, hth]
    exact h
  | returned result | timed result =>
    cases result <;>
    · simp only [Run.advance, hth]
      exact ⟨fun _ => hmap (by simp [hth]), h.freedBy⟩
  | recorded _ | decided _ | published =>
    simp only [Run.advance, hth]
    exact ⟨fun _ => hmap (by simp [hth]), h.freedBy⟩
  | cleared =>
    have hheld : (run.drop .thread).mapRef = true := hmap (by simp [hth])
    simp only [Run.advance, hth, Run.release, hheld, true_or, if_true]
    exact ⟨fun hn => absurd rfl hn, h.freedBy⟩

theorem kept_moved (h : run.Kept) (hm : Moved a i run run') : run'.Kept := by
  cases hm with
  | same => exact h
  | report steps => exact ⟨h.mapRef, h.freedBy⟩
  | finish result hw => exact ⟨fun _ => h.mapRef (by simp [hw]), h.freedBy⟩
  | advance now _ => exact kept_advance h now

/-- A run just inserted has not been started. -/
structure Begun (s : State Progress) : Prop where
  mutex : MutexHeld s
  unstarted : ∀ (t r : ℕ) (run : Run Progress), s.callers t = .inserted r → s.runs[r]? = some run →
    run.thread = .unstarted

/-- Besides, every run is held. -/
structure Alive (s : State Progress) : Prop extends Begun s where
  kept : ∀ (r : ℕ) (run : Run Progress), s.runs[r]? = some run → run.Kept

theorem begun_initial : Begun (State.initial devices : State Progress) where
  mutex _ h := h.elim
  unstarted _ _ _ h := by cases h

theorem alive_initial : Alive (State.initial devices : State Progress) :=
  ⟨begun_initial, fun _ _ h => by cases h⟩

theorem kept_touched (ha : Alive s) (hd : DropsReleased s (.step t now))
    (hr : s.runs[i]? = some run) (h : Touched s t i now run run') : run'.Kept := by
  have hk := ha.kept i run hr
  cases h with
  | same => exact hk
  | dropped hdrop => exact kept_release_map hk (hd i hdrop run hr)
  | spawned hc =>
    have hth := ha.unstarted t i run hc hr
    exact ⟨fun _ => hk.mapRef (by simp [hth]), hk.freedBy⟩
  | left hc => exact kept_release_starter hk
  | stopped hc => exact ⟨hk.mapRef, hk.freedBy⟩

theorem kept_step (ha : Alive s) (he : Enabled s a) (hd : DropsReleased s a)
    (hr : (next s a).runs[i]? = some run') : run'.Kept := by
  rcases runs_next he hr with ⟨t, now, rfl, hr'⟩ | ⟨hne, run, hold, hm⟩
  · rcases stepped_stepCaller s t now with h | h
    · rw [h] at hr'
      exact ha.kept i run' hr'
    · rcases runs_stepped h hr' with ⟨run, hold, ht⟩ | ⟨key, steps, captured, -, -, rfl⟩
      · exact kept_touched ha hd hold ht
      · exact ⟨fun _ => rfl, by simp [freshRun]⟩
  · exact kept_moved (ha.kept i run hold) hm

theorem thread_release (run : Run Progress) (h : Holder) : (run.release h).thread = run.thread := by
  unfold Run.release
  split_ifs <;> cases h <;> rfl

theorem thread_touched (h : Touched s t i now run run') (hn : s.callers t ≠ .inserted i) :
    run'.thread = run.thread := by
  cases h with
  | same | stopped => rfl
  | dropped | left => exact thread_release _ _
  | spawned hc => exact absurd hc hn

theorem thread_moved (h : Moved a i run run') (hu : run.thread = .unstarted) :
    run'.thread = .unstarted := by
  cases h with
  | same | report _ => exact hu
  | finish result hw => simp [hu] at hw
  | advance now _ => simp [Run.advance, hu]

/-- Only an insertion hands out a run. -/
theorem inserted_stepped (h : Stepped s t now s') (hc : s'.callers t = .inserted r) :
    r = s.runs.length := by
  cases h <;> simp_all [State.setCaller, State.answer]

theorem unstarted_step (ha : Begun s) (he : Enabled s a) (hc : (next s a).callers u = .inserted r)
    (hr : (next s a).runs[r]? = some run') : run'.thread = .unstarted := by
  rcases runs_next he hr with ⟨t, now, rfl, hr'⟩ | ⟨hne, run, hold, hm⟩
  · rcases stepped_stepCaller s t now with h | h
    · rw [next, h] at hc
      rw [h] at hr'
      exact ha.unstarted u r run' hc hr'
    · rcases runs_stepped h hr' with ⟨run, hold, ht⟩ | ⟨key, steps, captured, -, -, rfl⟩
      · by_cases hut : u = t
        · subst hut
          have hlen := inserted_stepped h hc
          rw [hlen, List.getElem?_eq_none (Nat.le_refl _)] at hold
          cases hold
        · have hcu : s.callers u = .inserted r := (callers_stepped_ne h hut).symm.trans hc
          have hne : s.callers t ≠ .inserted r := by
            intro hct
            have hu := ha.mutex u (by rw [hcu]; trivial)
            have ht := ha.mutex t (by rw [hct]; trivial)
            exact hut (Option.some.inj (hu.symm.trans ht))
          rw [thread_touched ht hne]
          exact ha.unstarted u r run hcu hold
      · rfl
  · refine thread_moved hm (ha.unstarted u r run ?_ hold)
    cases a with
    | step t now => exact absurd rfl (hne t now)
    | start t key steps | snapshot t key | cancel t key =>
      simp only [next, State.callers_setCaller] at hc
      split_ifs at hc
      exact hc
    | rescan | publish _ | report _ _ | finish _ _ | advance _ _ => exact hc

theorem begun_step (ha : Begun s) (he : Enabled s a) : Begun (next s a) where
  mutex := mutexHeld_step he ha.mutex
  unstarted _ _ _ hc hr := unstarted_step ha he hc hr

theorem begun_reachable {C : State Progress → Action Progress → Prop}
    (h : (system devices).ReachableUnder C s) : Begun s :=
  h.invariant begun_initial fun _ _ ha he _ => begun_step ha he

theorem alive_step (ha : Alive s) (he : Enabled s a) (hd : DropsReleased s a) :
    Alive (next s a) :=
  ⟨begun_step ha.toBegun he, fun _ _ hr => kept_step ha he hd hr⟩

theorem alive_reachable (h : (system devices).ReachableUnder DropsReleased s) : Alive s :=
  h.invariant alive_initial fun _ _ ha he hd => alive_step ha he hd

/-- If `runs_` gives up a run only after its thread has released it, no thread drops its own run. -/
theorem neverSelfJoined_of_dropsReleased (devices : ℕ → Bool) (s : State Progress)
    (h : (system devices).ReachableUnder DropsReleased s) : NeverSelfJoined s := by
  intro run hrun
  obtain ⟨r, hr⟩ := List.getElem?_of_mem hrun
  exact ((alive_reachable h).kept r run hr).freedBy

/-! ### Around the window -/

def onePosition : ℕ → Bool := fun position => position = 1

/-- A caller starts the procedure on the device at 1 and takes `n` steps. -/
def startOffsetDetection (t n : ℕ) : List (Action Unit) :=
  .start t (1, "offset-detection") () :: List.replicate n (.step t 1)

/-- The first run is started, works, and clears `running`. -/
def runToClear : List (Action Unit) :=
  startOffsetDetection 0 9 ++ .finish 0 (.ok ()) :: List.replicate 5 (.advance 0 5)

/-- The thread releases its reference, then the procedure is started again. -/
def releaseThenRestart : List (Action Unit) :=
  runToClear ++ .advance 0 6 :: startOffsetDetection 1 11

theorem releaseThenRestart_follows :
    (system onePosition).Follows DropsReleased (State.initial onePosition) releaseThenRestart := by
  decide +kernel

theorem releaseThenRestart_neverSelfJoined :
    NeverSelfJoined ((system onePosition).run (State.initial onePosition) releaseThenRestart) :=
  neverSelfJoined_of_dropsReleased onePosition _
    ⟨releaseThenRestart, releaseThenRestart_follows, rfl⟩

/-- The procedure is started again before the thread releases its reference. -/
def restartThenRelease : List (Action Unit) :=
  runToClear ++ startOffsetDetection 1 9 ++ [.advance 0 6]

/-- The thread destroys its own run, and joins itself. -/
theorem restartThenRelease_selfJoined :
    ∃ s, (system onePosition : System (State Unit) (Action Unit)).Reachable s ∧
      ¬ NeverSelfJoined s := by
  refine ⟨(system onePosition).run (State.initial onePosition) restartThenRelease,
    ⟨restartThenRelease, by decide +kernel, rfl⟩, fun h => ?_⟩
  have hfreed : ((system onePosition).run (State.initial onePosition) restartThenRelease).runs.map
      (·.freedBy) = [some .thread, none] := by decide +kernel
  have hmem : some Holder.thread ∈ ((system onePosition).run (State.initial onePosition)
      restartThenRelease).runs.map (·.freedBy) := by simp [hfreed]
  obtain ⟨run, hrun, hby⟩ := List.mem_map.mp hmem
  exact h run hrun hby

end MotionMaster.ProcedureManager
