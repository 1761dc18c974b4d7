import Mathlib.Data.List.Sort
import MotionMaster.Lib.Interleaving

/-!
# Procedure runs

`ProcedureManager` with any number of callers, the threads of the runs and the rescans of the bus,
access by access: the mutex orders the callers, the threads publish by atomic stores.
-/

namespace MotionMaster.ProcedureManager

open Interleaving

/-- Device position and procedure. -/
abbrev Key := ℕ × String

/-- The order of `std::map<Key, _>`. -/
def keyLe (x y : Key × ℕ) : Prop := x.1.1 < y.1.1 ∨ x.1.1 = y.1.1 ∧ x.1.2 ≤ y.1.2
  deriving Decidable

inductive ProcedureStatus where
  | kIdle | kRunning | kSucceeded | kFailed | kCancelled
  deriving DecidableEq, Repr

def ProcedureStatus.Terminal : ProcedureStatus → Prop
  | .kSucceeded | .kFailed | .kCancelled => True
  | .kIdle | .kRunning => False

/-- What `ProcedureManager` raises. -/
inductive Kind where
  | kBusy | kUnknownDevice
  deriving DecidableEq, Repr

/-- Who holds a reference to a run: `runs_`, the local of `startRun`, the function of its thread. -/
inductive Holder where
  | map | starter | thread
  deriving DecidableEq, Repr

inductive Thread where
  | unstarted
  | working
  | returned (result : Except String Unit)
  | recorded (result : Except String Unit)
  | timed (result : Except String Unit)
  | decided (status : ProcedureStatus)
  | published
  | cleared
  | released
  deriving DecidableEq

variable {Progress : Type}

/-- A run. `outcome` is what its body returned and `freedBy` who dropped it last. -/
structure Run (Progress : Type) where
  key : Key
  runCount : ℕ
  startedAt : Int
  topologyGeneration : ℕ
  status : ProcedureStatus := .kRunning
  finishedAt : Int := 0
  running : Bool := true
  error : Option String := none
  steps : Progress
  stopRequested : Bool := false
  thread : Thread := .unstarted
  outcome : Option (Except String Unit) := none
  mapRef : Bool
  starterRef : Bool
  threadRef : Bool
  freedBy : Option Holder := none

namespace Run

def drop (run : Run Progress) : Holder → Run Progress
  | .map => { run with mapRef := false }
  | .starter => { run with starterRef := false }
  | .thread => { run with threadRef := false }

/-- The last reference released destroys the run and joins its thread. -/
def release (run : Run Progress) (h : Holder) : Run Progress :=
  if (run.drop h).mapRef ∨ (run.drop h).starterRef ∨ (run.drop h).threadRef then run.drop h
  else { run.drop h with freedBy := some h }

/-- The next step of the thread, after its body has returned. -/
def advance (run : Run Progress) (now : Int) : Run Progress :=
  match run.thread with
  | .returned (.error e) => { run with error := some e, thread := .recorded (.error e) }
  | .returned (.ok ()) => { run with thread := .recorded (.ok ()) }
  | .recorded result => { run with finishedAt := now, thread := .timed result }
  | .timed (.ok ()) => { run with thread := .decided .kSucceeded }
  | .timed (.error _) =>
    { run with thread := .decided (if run.stopRequested then .kCancelled else .kFailed) }
  | .decided status => { run with status, thread := .published }
  | .published => { run with running := false, thread := .cleared }
  | .cleared => { run.release .thread with thread := .released }
  | .unstarted | .working | .released => run

end Run

structure ProcedureSnapshot (Progress : Type) where
  status : ProcedureStatus
  runCount : ℕ
  startedAt : Int
  finishedAt : Option Int
  steps : Progress
  error : Option String
  deriving DecidableEq

/-- What a call answers. A snapshot names the run it was taken of. -/
inductive Response (Progress : Type) where
  | started
  | refused (kind : Kind) (message : String)
  | snapshot (result : Option (ℕ × ProcedureSnapshot Progress))
  | cancelled (result : Bool)
  deriving DecidableEq

/-- A call that takes the mutex. A start has captured the generation before. -/
inductive Call (Progress : Type) where
  | start (key : Key) (steps : Progress) (topologyGeneration : ℕ)
  | snapshot (key : Key)
  | cancel (key : Key)
  deriving DecidableEq

inductive Caller (Progress : Type) where
  | idle
  | starting (key : Key) (steps : Progress)
  | resolved (key : Key) (steps : Progress)
  | waiting (call : Call Progress)
  | locked (call : Call Progress)
  | sweeping (call : Call Progress) (generation : ℕ) (todo : List Key)
  | scanning (key : Key) (steps : Progress) (topologyGeneration : ℕ) (todo : List Key)
  | inserting (key : Key) (steps : Progress) (topologyGeneration : ℕ)
  | inserted (r : ℕ)
  | spawned (r : ℕ)
  | reading (r : ℕ)
  | loaded (r : ℕ) (status : ProcedureStatus)
  | timed (r : ℕ) (status : ProcedureStatus) (finishedAt : Int)
  | explained (r : ℕ) (status : ProcedureStatus) (finishedAt : Int) (error : Option String)
  | cancelling (r : ℕ)
  | done (response : Response Progress)
  deriving DecidableEq

/-- `devices` are the positions that hold a device, `runs` all runs ever started. -/
structure State (Progress : Type) where
  generation : ℕ
  devices : ℕ → Bool
  runs : List (Run Progress)
  table : List (Key × ℕ)
  mutex : Option ℕ
  callers : ℕ → Caller Progress

inductive Action (Progress : Type) where
  /-- A rescan counts, and publishes the devices it found. -/
  | rescan
  | publish (devices : ℕ → Bool)
  | start (t : ℕ) (key : Key) (steps : Progress)
  | snapshot (t : ℕ) (key : Key)
  | cancel (t : ℕ) (key : Key)
  /-- The next step of a caller, with the time it reads. -/
  | step (t : ℕ) (now : Int)
  /-- The body of a run reports, returns, and its thread goes on. -/
  | report (r : ℕ) (steps : Progress)
  | finish (r : ℕ) (result : Except String Unit)
  | advance (r : ℕ) (now : Int)

namespace State

def initial (devices : ℕ → Bool) : State Progress := ⟨0, devices, [], [], none, fun _ => .idle⟩

def setCaller (s : State Progress) (t : ℕ) (c : Caller Progress) : State Progress :=
  { s with callers := Function.update s.callers t c }

def setRun (s : State Progress) (r : ℕ) (f : Run Progress → Run Progress) : State Progress :=
  { s with runs := s.runs.modify r f }

/-- `runs_.find`. -/
def find (s : State Progress) (k : Key) : Option ℕ :=
  (s.table.find? fun x => x.1 = k).map Prod.snd

def isRunning (s : State Progress) (r : ℕ) : Bool := s.runs[r]?.any (·.running)

/-- The entry belongs to a superseded device set, and its run has finished. -/
def collectable (s : State Progress) (generation r : ℕ) : Bool :=
  s.runs[r]?.any fun run => run.topologyGeneration != generation && !run.running

def answer (s : State Progress) (t : ℕ) (response : Response Progress) : State Progress :=
  { s.setCaller t (.done response) with mutex := none }

/-- `runs_.erase`. -/
def erase (s : State Progress) (k : Key) (r : ℕ) : State Progress :=
  { s.setRun r (·.release .map) with table := s.table.filter fun x => x.1 ≠ k }

def runCountOf (s : State Progress) (k : Key) : ℕ :=
  (((s.find k).bind fun r => s.runs[r]?).map (·.runCount)).getD 0

/-- `runs_[key] = run`: the entry's previous run loses the reference. -/
def insert (s : State Progress) (k : Key) (run : Run Progress) : State Progress :=
  let s' := match s.find k with
    | none => s
    | some r => s.erase k r
  { s' with
    runs := s'.runs ++ [run]
    table := s'.table.orderedInsert keyLe (k, s.runs.length) }

def snapshotOf (run : Run Progress) (status : ProcedureStatus) (finishedAt : Int)
    (error : Option String) : ProcedureSnapshot Progress where
  status
  runCount := run.runCount
  startedAt := run.startedAt
  finishedAt := if finishedAt = 0 then none else some finishedAt
  steps := run.steps
  error

def afterSweep (s : State Progress) (t : ℕ) : Call Progress → State Progress
  | .start key steps generation =>
    s.setCaller t (.scanning key steps generation (s.table.map Prod.fst))
  | .snapshot key =>
    match s.find key with
    | none => s.answer t (.snapshot none)
    | some r => s.setCaller t (.reading r)
  | .cancel key =>
    match s.find key with
    | none => s.answer t (.cancelled false)
    | some r =>
      if s.isRunning r then s.setCaller t (.cancelling r) else s.answer t (.cancelled false)

/-- One entry of `discardIfRescanned`. -/
def sweepOne (s : State Progress) (generation : ℕ) (k : Key) : State Progress :=
  match s.find k with
  | some r => if s.collectable generation r then s.erase k r else s
  | none => s

/-- The entry keeps the device busy. -/
def busyEntry (s : State Progress) (position : ℕ) (k : Key) : Bool :=
  k.1 = position && (s.find k).any s.isRunning

def stepCaller (s : State Progress) (t : ℕ) (now : Int) : State Progress :=
  match s.callers t with
  | .idle | .done _ => s
  | .starting key steps =>
    if s.devices key.1 then s.setCaller t (.resolved key steps)
    else s.setCaller t
      (.done (.refused .kUnknownDevice ("device " ++ toString key.1 ++ " not found")))
  | .resolved key steps => s.setCaller t (.waiting (.start key steps s.generation))
  | .waiting call => { s.setCaller t (.locked call) with mutex := some t }
  | .locked call => s.setCaller t (.sweeping call s.generation (s.table.map Prod.fst))
  | .sweeping call _ [] => s.afterSweep t call
  | .sweeping call generation (k :: todo) =>
    (s.sweepOne generation k).setCaller t (.sweeping call generation todo)
  | .scanning key steps generation [] => s.setCaller t (.inserting key steps generation)
  | .scanning key steps generation (k :: todo) =>
    if s.busyEntry key.1 k then
      s.answer t (.refused .kBusy
        ("device " ++ toString key.1 ++ " is busy running '" ++ k.2 ++ "'"))
    else s.setCaller t (.scanning key steps generation todo)
  | .inserting key steps generation =>
    (s.insert key
      { key, runCount := s.runCountOf key + 1, startedAt := now, topologyGeneration := generation
        steps, mapRef := true, starterRef := true, threadRef := false }).setCaller t
      (.inserted s.runs.length)
  | .inserted r =>
    (s.setRun r fun run => { run with thread := .working, threadRef := true }).setCaller t
      (.spawned r)
  | .spawned r => (s.setRun r (·.release .starter)).answer t .started
  | .reading r =>
    match s.runs[r]? with
    | none => s
    | some run => s.setCaller t (.loaded r run.status)
  | .loaded r status =>
    match s.runs[r]? with
    | none => s
    | some run => s.setCaller t (.timed r status run.finishedAt)
  | .timed r status finishedAt =>
    match s.runs[r]? with
    | none => s
    | some run => s.setCaller t (.explained r status finishedAt run.error)
  | .explained r status finishedAt error =>
    match s.runs[r]? with
    | none => s
    | some run => s.answer t (.snapshot (some (r, snapshotOf run status finishedAt error)))
  | .cancelling r => (s.setRun r ({ · with stopRequested := true })).answer t (.cancelled true)

end State

def Caller.AtRest : Caller Progress → Prop
  | .idle | .done _ => True
  | _ => False

instance (c : Caller Progress) : Decidable c.AtRest := by
  cases c <;> unfold Caller.AtRest <;> infer_instance

/-- A caller that has to wait for the mutex. -/
def Caller.Waits : Caller Progress → Prop
  | .waiting _ => True
  | _ => False

instance (c : Caller Progress) : Decidable c.Waits := by
  cases c <;> unfold Caller.Waits <;> infer_instance

/-- The body of a run is at work, or has returned. -/
def Thread.Working (th : Thread) : Prop := th = .working
  deriving Decidable

def Thread.Ending (th : Thread) : Prop := th ≠ .unstarted ∧ th ≠ .working ∧ th ≠ .released
  deriving Decidable

def Enabled (s : State Progress) : Action Progress → Prop
  | .rescan | .publish _ => True
  | .start t _ _ | .snapshot t _ | .cancel t _ => (s.callers t).AtRest
  | .step t _ => ¬ (s.callers t).AtRest ∧ ((s.callers t).Waits → s.mutex = none)
  | .report r _ | .finish r _ => ∃ run ∈ s.runs[r]?, run.thread.Working
  | .advance r _ => ∃ run ∈ s.runs[r]?, run.thread.Ending

instance (s : State Progress) (a : Action Progress) : Decidable (Enabled s a) := by
  cases a <;> unfold Enabled <;> infer_instance

def next (s : State Progress) : Action Progress → State Progress
  | .rescan => { s with generation := s.generation + 1 }
  | .publish devices => { s with devices }
  | .start t key steps => s.setCaller t (.starting key steps)
  | .snapshot t key => s.setCaller t (.waiting (.snapshot key))
  | .cancel t key => s.setCaller t (.waiting (.cancel key))
  | .step t now => s.stepCaller t now
  | .report r steps => s.setRun r ({ · with steps })
  | .finish r result => s.setRun r fun run =>
      { run with thread := .returned result, outcome := some result }
  | .advance r now => s.setRun r (·.advance now)

abbrev system (devices : ℕ → Bool) : System (State Progress) (Action Progress) :=
  ⟨.initial devices, Enabled, next⟩

/-! ### What an operation does -/

namespace State

variable (s : State Progress) (t u r generation : ℕ) (k : Key) (now : Int)

theorem callers_setCaller (c : Caller Progress) :
    (s.setCaller t c).callers u = if u = t then c else s.callers u := by
  simp [setCaller, Function.update_apply]

theorem callers_answer (response : Response Progress) :
    (s.answer t response).callers u = if u = t then .done response else s.callers u :=
  s.callers_setCaller t u _

theorem runs_setRun (f : Run Progress → Run Progress) (i : ℕ) :
    (s.setRun r f).runs[i]? = if i = r then s.runs[i]?.map f else s.runs[i]? := by
  simp only [setRun, List.getElem?_modify]
  by_cases h : i = r
  · subst h
    simp
  · simp [h, Ne.symm h]

@[simp] theorem callers_insert (run : Run Progress) : (s.insert k run).callers = s.callers := by
  unfold insert
  cases s.find k <;> rfl

@[simp] theorem mutex_insert (run : Run Progress) : (s.insert k run).mutex = s.mutex := by
  unfold insert
  cases s.find k <;> rfl

@[simp] theorem generation_insert (run : Run Progress) :
    (s.insert k run).generation = s.generation := by
  unfold insert
  cases s.find k <;> rfl

theorem busyEntry_iff {position : ℕ} : s.busyEntry position k = true ↔
    k.1 = position ∧ ∃ r run, s.find k = some r ∧ s.runs[r]? = some run ∧ run.running = true := by
  unfold busyEntry isRunning
  cases s.find k with
  | none => simp
  | some r => cases hr : s.runs[r]? <;> simp [hr]

theorem sweepOne_cases : s.sweepOne generation k = s ∨
    ∃ r, s.find k = some r ∧ s.collectable generation r = true ∧
      s.sweepOne generation k = s.erase k r := by
  unfold sweepOne
  cases hf : s.find k with
  | none => exact .inl rfl
  | some r =>
    by_cases hc : s.collectable generation r = true
    · exact .inr ⟨r, rfl, hc, by simp [hc]⟩
    · exact .inl (by simp [hc])

end State

/-- What the step of a caller does, place by place. -/
inductive Stepped (s : State Progress) (t : ℕ) (now : Int) : State Progress → Prop
  | unknown (key : Key) (steps : Progress) (hc : s.callers t = .starting key steps)
      (hd : s.devices key.1 = false) (message : String) :
      Stepped s t now (s.setCaller t (.done (.refused .kUnknownDevice message)))
  | resolve (key : Key) (steps : Progress) (hc : s.callers t = .starting key steps) :
      Stepped s t now (s.setCaller t (.resolved key steps))
  | stamp (key : Key) (steps : Progress) (hc : s.callers t = .resolved key steps) :
      Stepped s t now (s.setCaller t (.waiting (.start key steps s.generation)))
  | lock (call : Call Progress) (hc : s.callers t = .waiting call) :
      Stepped s t now { s.setCaller t (.locked call) with mutex := some t }
  | look (call : Call Progress) (hc : s.callers t = .locked call) :
      Stepped s t now (s.setCaller t (.sweeping call s.generation (s.table.map Prod.fst)))
  | keep (call : Call Progress) (generation : ℕ) (k : Key) (todo : List Key)
      (hc : s.callers t = .sweeping call generation (k :: todo)) :
      Stepped s t now (s.setCaller t (.sweeping call generation todo))
  | discard (call : Call Progress) (generation : ℕ) (k : Key) (todo : List Key) (r : ℕ)
      (hc : s.callers t = .sweeping call generation (k :: todo)) (hf : s.find k = some r)
      (hr : s.collectable generation r = true) :
      Stepped s t now ((s.erase k r).setCaller t (.sweeping call generation todo))
  | scan (key : Key) (steps : Progress) (captured generation : ℕ)
      (hc : s.callers t = .sweeping (.start key steps captured) generation []) :
      Stepped s t now (s.setCaller t (.scanning key steps captured (s.table.map Prod.fst)))
  | visit (key : Key) (generation r : ℕ)
      (hc : s.callers t = .sweeping (.snapshot key) generation []) (hf : s.find key = some r) :
      Stepped s t now (s.setCaller t (.reading r))
  | target (key : Key) (generation r : ℕ) (hc : s.callers t = .sweeping (.cancel key) generation [])
      (hf : s.find key = some r) (hr : s.isRunning r = true) :
      Stepped s t now (s.setCaller t (.cancelling r))
  | nothing (call : Call Progress) (generation : ℕ)
      (hc : s.callers t = .sweeping call generation []) (response : Response Progress)
      (hr : response = .snapshot none ∨ response = .cancelled false) :
      Stepped s t now (s.answer t response)
  | pass (key : Key) (steps : Progress) (captured : ℕ) (k : Key) (todo : List Key)
      (hc : s.callers t = .scanning key steps captured (k :: todo))
      (hb : s.busyEntry key.1 k = false) :
      Stepped s t now (s.setCaller t (.scanning key steps captured todo))
  | refuse (key : Key) (steps : Progress) (captured : ℕ) (k : Key) (todo : List Key)
      (hc : s.callers t = .scanning key steps captured (k :: todo))
      (hb : s.busyEntry key.1 k = true) (message : String) :
      Stepped s t now (s.answer t (.refused .kBusy message))
  | proceed (key : Key) (steps : Progress) (captured : ℕ)
      (hc : s.callers t = .scanning key steps captured []) :
      Stepped s t now (s.setCaller t (.inserting key steps captured))
  | insert (key : Key) (steps : Progress) (captured : ℕ)
      (hc : s.callers t = .inserting key steps captured) :
      Stepped s t now ((s.insert key
        { key, runCount := s.runCountOf key + 1, startedAt := now, topologyGeneration := captured
          steps, mapRef := true, starterRef := true, threadRef := false }).setCaller t
        (.inserted s.runs.length))
  | spawn (r : ℕ) (hc : s.callers t = .inserted r) :
      Stepped s t now ((s.setRun r fun run =>
        { run with thread := .working, threadRef := true }).setCaller t (.spawned r))
  | leave (r : ℕ) (hc : s.callers t = .spawned r) :
      Stepped s t now ((s.setRun r (·.release .starter)).answer t .started)
  | readStatus (r : ℕ) (run : Run Progress) (hc : s.callers t = .reading r)
      (hr : s.runs[r]? = some run) : Stepped s t now (s.setCaller t (.loaded r run.status))
  | readFinishedAt (r : ℕ) (run : Run Progress) (status : ProcedureStatus)
      (hc : s.callers t = .loaded r status) (hr : s.runs[r]? = some run) :
      Stepped s t now (s.setCaller t (.timed r status run.finishedAt))
  | readError (r : ℕ) (run : Run Progress) (status : ProcedureStatus) (finishedAt : Int)
      (hc : s.callers t = .timed r status finishedAt) (hr : s.runs[r]? = some run) :
      Stepped s t now (s.setCaller t (.explained r status finishedAt run.error))
  | report (r : ℕ) (run : Run Progress) (status : ProcedureStatus) (finishedAt : Int)
      (error : Option String) (hc : s.callers t = .explained r status finishedAt error)
      (hr : s.runs[r]? = some run) :
      Stepped s t now
        (s.answer t (.snapshot (some (r, State.snapshotOf run status finishedAt error))))
  | stop (r : ℕ) (hc : s.callers t = .cancelling r) :
      Stepped s t now ((s.setRun r ({ · with stopRequested := true })).answer t (.cancelled true))

section

variable {s : State Progress} {t : ℕ} {now : Int}

theorem stepped_sweeping {call : Call Progress} {generation : ℕ} {todo : List Key}
    (hc : s.callers t = .sweeping call generation todo) :
    Stepped s t now (s.stepCaller t now) := by
  cases todo with
  | nil =>
    simp only [State.stepCaller, hc]
    cases call with
    | start key steps captured => exact .scan key steps captured generation hc
    | snapshot key =>
      simp only [State.afterSweep]
      cases hf : s.find key with
      | none => exact .nothing _ generation hc _ (.inl rfl)
      | some r => exact .visit key generation r hc hf
    | cancel key =>
      simp only [State.afterSweep]
      cases hf : s.find key with
      | none => exact .nothing _ generation hc _ (.inr rfl)
      | some r =>
        dsimp only
        split
        · rename_i hr
          exact .target key generation r hc hf hr
        · exact .nothing _ generation hc _ (.inr rfl)
  | cons k todo =>
    simp only [State.stepCaller, hc]
    rcases s.sweepOne_cases generation k with h | ⟨r, hf, hr, h⟩
    · rw [h]
      exact .keep call generation k todo hc
    · rw [h]
      exact .discard call generation k todo r hc hf hr

theorem stepped_scanning {key : Key} {steps : Progress} {captured : ℕ} {todo : List Key}
    (hc : s.callers t = .scanning key steps captured todo) :
    Stepped s t now (s.stepCaller t now) := by
  cases todo with
  | nil =>
    simp only [State.stepCaller, hc]
    exact .proceed key steps captured hc
  | cons k todo =>
    simp only [State.stepCaller, hc]
    split
    · rename_i hb
      exact .refuse key steps captured k todo hc hb _
    · exact .pass key steps captured k todo hc (by simp_all)

theorem stepped_starting {key : Key} {steps : Progress} (hc : s.callers t = .starting key steps) :
    Stepped s t now (s.stepCaller t now) := by
  simp only [State.stepCaller, hc]
  split
  · exact .resolve key steps hc
  · exact .unknown key steps hc (by simp_all) _

end

theorem stepped_stepCaller (s : State Progress) (t : ℕ) (now : Int) :
    s.stepCaller t now = s ∨ Stepped s t now (s.stepCaller t now) := by
  cases hc : s.callers t with
  | starting key steps => exact .inr (stepped_starting hc)
  | sweeping call generation todo => exact .inr (stepped_sweeping hc)
  | scanning key steps captured todo => exact .inr (stepped_scanning hc)
  | idle | done _ => exact .inl (by simp only [State.stepCaller, hc])
  | resolved key steps =>
    simp only [State.stepCaller, hc]
    exact .inr (.stamp key steps hc)
  | waiting call =>
    simp only [State.stepCaller, hc]
    exact .inr (.lock call hc)
  | locked call =>
    simp only [State.stepCaller, hc]
    exact .inr (.look call hc)
  | inserting key steps captured =>
    simp only [State.stepCaller, hc]
    exact .inr (.insert key steps captured hc)
  | inserted r =>
    simp only [State.stepCaller, hc]
    exact .inr (.spawn r hc)
  | spawned r =>
    simp only [State.stepCaller, hc]
    exact .inr (.leave r hc)
  | cancelling r =>
    simp only [State.stepCaller, hc]
    exact .inr (.stop r hc)
  | reading r | loaded r status | timed r status finishedAt | explained r status finishedAt error =>
    cases hr : s.runs[r]? with
    | none => exact .inl (by simp only [State.stepCaller, hc, hr])
    | some run =>
      simp only [State.stepCaller, hc, hr]
      first
        | exact .inr (.readStatus r run hc hr)
        | exact .inr (.readFinishedAt r run _ hc hr)
        | exact .inr (.readError r run _ _ hc hr)
        | exact .inr (.report r run _ _ _ hc hr)

theorem callers_stepped_ne {s s' : State Progress} {t u : ℕ} {now : Int} (h : Stepped s t now s')
    (hu : u ≠ t) : s'.callers u = s.callers u := by
  cases h <;> simp [State.setCaller, State.answer, State.setRun, State.erase, hu]

end MotionMaster.ProcedureManager
