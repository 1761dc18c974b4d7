import Mathlib.Data.Int.Notation
import MotionMaster.Cia402.StateMachine
import MotionMaster.Lib.Script

/-!
# Putting a drive back

`DriveRestorer`, which a procedure arms with what it changes and which puts it back when the body is
left. A body is a script of accesses to the drive, each of which the bus can fail, before or after
it took effect.
-/

namespace MotionMaster.DriveRestorer

open Script

/-- What a procedure changes and the restorer knows how to put back. -/
inductive Field where
  | mode
  | brake
  | chirp
  | acceleration
  | deceleration
  | velocity
  deriving DecidableEq

def kNone : ℤ := 0

def kNotConfigured : ℤ := 0

structure Restorer where
  mode : Option ℤ
  resting : Cia402.State
  brake : Option ℤ
  disarmChirp : Bool
  profile : Option (ℤ × ℤ)
  targetVelocity : Option ℤ

/-- What the destructor writes to a field. -/
def Restorer.value (r : Restorer) : Field → Option ℤ
  | .mode => r.mode
  | .brake => r.brake
  | .chirp => if r.disarmChirp then some kNone else none
  | .acceleration => r.profile.map Prod.fst
  | .deceleration => r.profile.map Prod.snd
  | .velocity => r.targetVelocity

/-- Accesses and checks that neither change a field nor save one. -/
inductive Call where
  | createSomanetDrive
  | manufacturerSoftwareVersion
  | planIcMuCalibration
  | planIcMuNarrowRange
  | operationModeValueDisplay
  | brakeState
  | commutationOffsetMethod
  | confirmStillEnabled
  | runOsCommand
  | alState
  | polePairs
  | openLoopFieldProfile
  | setOpenLoopFieldParameter
  | setTargetTorque
  | setSystemIdentificationParameter
  | configureHrdStream
  | startHrdStream
  | readHrdRecording
  | checkPlantMeasurementAmplitudes
  | statusword
  | errorReport
  | positionActualValue
  | velocityDemandValue
  | setIgnoreBissStatusBits
  | setIcMuCalibrationMode
  | icMuRegister
  | icMuEngine
  | writeIcMuRestoreFile

/-- The accesses of a body and of the destructor. A write without a value writes one the body
computes, and a restore of the mode without a state returns to the state that was read. -/
inductive Op where
  | call (what : Call)
  | read (f : Field)
  | readState
  /-- Leaves if the state that was read is Operation Enabled. -/
  | refuseEnabled
  /-- To Switched On if the state that was read is Operation Enabled. -/
  | bringDown
  | write (f : Field) (value : Option ℤ)
  | restoreMode (resting : Option Cia402.State)
  | restoreBrake
  | disarmChirp
  | restoreProfile
  | restoreTargetVelocity
  | transitionToState (target : Cia402.State)
  | disable
  | quickStop

/-- `saved` and `savedState` are the variables of the body. Of what happened, `changed` tells which
fields the body has changed, `before` has what had been read of each when it was, and `restored`
what the destructor wrote, with the state the drive was in. -/
structure State where
  cia : Cia402.State
  value : Field → ℤ
  hasBrake : Bool
  saved : Field → Option ℤ
  savedState : Option Cia402.State
  restorer : Restorer
  restoring : Bool
  changed : Field → Bool
  before : Field → Option ℤ
  restored : List (Field × ℤ × Cia402.State)

/-- What an access meets: the state the drive has changed to, how the bus answers, the value a body
computes, and what a walk meets. -/
structure Answer where
  drift : Option Cia402.Drift
  reply : Cia402.Reply
  value : ℤ
  quickStopHolds : Bool
  poll : Cia402.Poll
  polls : List Cia402.Poll

namespace State

def start (cia : Cia402.State) (value : Field → ℤ) (hasBrake : Bool) : State :=
  ⟨cia, value, hasBrake, fun _ => none, none,
    ⟨none, .kSwitchOnDisabled, none, false, none, none⟩, false, fun _ => false, fun _ => none, []⟩

/-- A drive without the brake object is not written to. -/
def Issues (s : State) (f : Field) : Prop := f = .brake → s.hasBrake = true
  deriving Decidable

/-- A write that takes effect and is not one of the value that is there. -/
def Changes (s : State) (f : Field) (v : ℤ) (reply : Cia402.Reply) : Prop :=
  s.restoring = false ∧ reply.landed = true ∧ v ≠ s.value f
  deriving Decidable

def write (s : State) (f : Field) (v : ℤ) (reply : Cia402.Reply) : State :=
  { s with
    value := if reply.landed then Function.update s.value f v else s.value
    changed := if s.Changes f v reply then Function.update s.changed f true else s.changed
    before :=
      if s.Changes f v reply ∧ s.changed f = false then Function.update s.before f (s.saved f)
      else s.before
    restored := if s.restoring then s.restored ++ [(f, v, s.cia)] else s.restored }

def readValue (s : State) (f : Field) : ℤ := if s.Issues f then s.value f else kNotConfigured

def command (s : State) (command : Cia402.Command) (reply : Cia402.Reply) : State :=
  if reply.landed then { s with cia := Cia402.obey s.cia command } else s

def walk (s : State) (target : Cia402.State) (a : Answer) : Exit × State :=
  let result :=
    Cia402.transitionToState target false a.quickStopHolds s.cia a.poll a.polls
  (if result.1 then .done else .left, { s with cia := result.2 })

end State

def exitOf : Cia402.Reply → Exit
  | .ok => .done
  | .failed _ => .left

/-- An access once the drive has changed its state as it will. -/
def perform (s : State) (o : Op) (a : Answer) : Exit × State :=
  match o with
  | .call _ => (exitOf a.reply, s)
  | .read f =>
    if a.reply = .ok then
      (.done, { s with saved := Function.update s.saved f (some (s.readValue f)) })
    else (.left, s)
  | .readState => if a.reply = .ok then (.done, { s with savedState := some s.cia }) else (.left, s)
  | .refuseEnabled => (if s.savedState = some .kOperationEnabled then .left else .done, s)
  | .bringDown =>
    if s.savedState = some .kOperationEnabled then s.walk .kSwitchedOn a else (.done, s)
  | .write f value =>
    if s.Issues f then (exitOf a.reply, s.write f (value.getD a.value) a.reply) else (.done, s)
  | .restoreMode resting =>
    (.done, { s with restorer := { s.restorer with
      mode := some ((s.saved .mode).getD 0)
      resting := resting.getD (s.savedState.getD .kSwitchOnDisabled) } })
  | .restoreBrake =>
    (.done, { s with restorer := { s.restorer with
      brake := some ((s.saved .brake).getD kNotConfigured) } })
  | .disarmChirp => (.done, { s with restorer := { s.restorer with disarmChirp := true } })
  | .restoreProfile =>
    (.done, { s with restorer := { s.restorer with
      profile := some ((s.saved .acceleration).getD 0, (s.saved .deceleration).getD 0) } })
  | .restoreTargetVelocity =>
    (.done, { s with restorer := { s.restorer with
      targetVelocity := some ((s.saved .velocity).getD 0) } })
  | .transitionToState target => s.walk target a
  | .disable => (exitOf a.reply, s.command .kCmdDisableVoltage a.reply)
  | .quickStop => (exitOf a.reply, s.command .kCmdQuickStop a.reply)

def apply (s : State) (o : Op) (a : Answer) : Exit × State :=
  perform { s with cia := Cia402.drifted s.cia a.drift } o a

/-- An answer that fails nothing, with polls enough for a walk. -/
def Answer.served : Answer :=
  ⟨none, .ok, 0, false, ⟨none, true, .ok, true, true⟩,
    List.replicate 5 ⟨none, true, .ok, true, true⟩⟩

/-- A write whose failure is noted. -/
def putBack (f : Field) (value : ℤ) : Body Op := .attempt (.op (.write f (some value)))

/-- The chirp and the brake, which go back while the drive is still enabled. -/
def restoreBefore (r : Restorer) : List (Body Op) :=
  [if r.disarmChirp then putBack .chirp kNone else .skip,
    match r.brake with
    | some status => putBack .brake status
    | none => .skip]

/-- The drive is taken down. -/
def lower (r : Restorer) : Body Op :=
  match r.mode with
  | some _ =>
    .attempt (.op (if r.resting = .kSwitchOnDisabled then .disable
      else .transitionToState r.resting))
  | none => .skip

/-- The mode and then the setpoints. -/
def restoreAfter (r : Restorer) : List (Body Op) :=
  [match r.mode with
    | some mode =>
      .attempt (.seq (.op (.write .mode (some mode))) (.op (.call .operationModeValueDisplay)))
    | none => .skip,
    match r.targetVelocity with
    | some velocity => putBack .velocity velocity
    | none => .skip,
    match r.profile with
    | some profile => putBack .acceleration profile.1
    | none => .skip,
    match r.profile with
    | some profile => putBack .deceleration profile.2
    | none => .skip]

def restoreParts (r : Restorer) : List (Body Op) :=
  restoreBefore r ++ lower r :: restoreAfter r

def Leaves (C : State → Op → Answer → Prop) (body : Body Op) (s t : State) : Prop :=
  ∃ e u, Exec (stepOf apply C) body s e u ∧
    Exec (stepOf apply C) (.all (restoreParts u.restorer)) { u with restoring := true } .done t

/-- The state after the body and the destructor, when the choices select a run. -/
def runLeaves (C : State → Op → Answer → Prop) [∀ s o a, Decidable (C s o a)] (n : ℕ)
    (body : Body Op) (choices : List (Choice Answer)) (s : State) : Option State :=
  match run apply C n body choices s with
  | some (_, u, rest) =>
    match run apply C n (.all (restoreParts u.restorer)) rest { u with restoring := true } with
    | some (.done, t, _) => some t
    | _ => none
  | none => none

theorem leaves_of_runLeaves {C : State → Op → Answer → Prop} [∀ s o a, Decidable (C s o a)] {n : ℕ}
    {body : Body Op} {choices : List (Choice Answer)} {s t : State}
    (h : runLeaves C n body choices s = some t) : Leaves C body s t := by
  unfold runLeaves at h
  split at h
  · rename_i e u rest hbody
    split at h
    · rename_i hrestore
      cases h
      exact ⟨e, u, exec_of_run hbody, exec_of_run hrestore⟩
    · cases h
  · cases h

/-- A run the choices select and what can be said of the state it ends in. -/
theorem exists_leaves_of_runLeaves (C : State → Op → Answer → Prop)
    [∀ s o a, Decidable (C s o a)] (n : ℕ) (body : Body Op) (choices : List (Choice Answer))
    (s : State) (p : State → Bool) (h : (runLeaves C n body choices s).any p = true) :
    ∃ t, Leaves C body s t ∧ p t = true := by
  cases hr : runLeaves C n body choices s with
  | none =>
    rw [hr] at h
    cases h
  | some t =>
    rw [hr] at h
    exact ⟨t, leaves_of_runLeaves hr, h⟩

/-! ### What an access leaves alone -/

section Frame

variable (s : State) (o : Op) (a : Answer)

@[simp]
theorem perform_restoring : (perform s o a).2.restoring = s.restoring := by
  cases o <;> simp only [perform, State.walk, State.command, State.write] <;> split_ifs <;> rfl

def Op.arms : Op → Bool
  | .restoreMode _ | .restoreBrake | .disarmChirp | .restoreProfile | .restoreTargetVelocity => true
  | _ => false

theorem perform_restorer (h : o.arms = false) : (perform s o a).2.restorer = s.restorer := by
  cases o with
  | restoreMode | restoreBrake | disarmChirp | restoreProfile | restoreTargetVelocity => cases h
  | _ => simp only [perform, State.walk, State.command, State.write] <;> split_ifs <;> rfl

theorem perform_restored (h : s.restoring = false) : (perform s o a).2.restored = s.restored := by
  cases o <;> simp only [perform, State.walk, State.command, State.write, h] <;>
    split_ifs <;> first | rfl | contradiction

end Frame

end MotionMaster.DriveRestorer
