import MotionMaster.Restore.Restorer

/-!
# The bodies of the procedures

The procedures built on `DriveRestorer`, access by access. Branches on what was read and loops over
polls are left open, except where a body asks for the state of the drive.
-/

namespace MotionMaster.DriveRestorer

open Script

def kDiagnostics : ℤ := -2

def kOpenLoopField : ℤ := -3

def kProfileVelocity : ℤ := 3

def kCyclicSyncTorque : ℤ := 10

def kEngaged : ℤ := 1

def kDisengaged : ℤ := 2

def call (what : Call) : Body Op := .op (.call what)

/-- A branch that may not be taken. -/
def perhaps (x : Body Op) : Body Op := .either x .skip

def enable : Body Op := .op (.transitionToState .kOperationEnabled)

/-! ### Diagnostics -/

def prepareForDiagnostics : List (Body Op) :=
  [.op (.read .mode), .op (.write .mode (some kDiagnostics)),
    .op (.restoreMode (some .kSwitchOnDisabled)), enable]

/-- The common part of `releaseBrake` and `engageBrake`: a brake the firmware does not drive is not
written, and neither is one that is released already. -/
def driveBrake (status : ℤ) : Body Op :=
  .all [call .brakeState,
    perhaps (.all [.op (.write .brake (some status)), call .brakeState])]

def releaseBrake : Body Op := driveBrake kDisengaged

def engageBrake : Body Op := driveBrake kEngaged

def releaseBrakeForDiagnostics : List (Body Op) :=
  [.op (.read .brake), .op .restoreBrake, releaseBrake]

def compositeStep : Body Op :=
  .all [.stop, call .confirmStillEnabled, call .runOsCommand]

/-- Whether the brake is released depends on the command. -/
def runMeasurementProcedure (needsRelease : Bool) : List (Body Op) :=
  call .createSomanetDrive :: prepareForDiagnostics ++ .stop ::
    (if needsRelease then releaseBrakeForDiagnostics ++ [.stop] else []) ++ [call .runOsCommand]

/-- Left at the end if a phase is open. -/
def runOpenPhaseDetectionProcedure : List (Body Op) :=
  call .createSomanetDrive :: prepareForDiagnostics ++ [.stop, call .runOsCommand, perhaps .leave]

def runOffsetDetectionProcedure : List (Body Op) :=
  call .createSomanetDrive :: call .commutationOffsetMethod :: prepareForDiagnostics ++
    [.stop, call .confirmStillEnabled, call .runOsCommand, perhaps .leave, compositeStep,
      compositeStep] ++
    releaseBrakeForDiagnostics ++
    [compositeStep, compositeStep, .stop, .either releaseBrake engageBrake, compositeStep]

/-! ### Plant identification and open loop field control -/

/-- The brake is released here only if the firmware leaves it to the master. -/
def releaseBrakeIfManual : List (Body Op) :=
  [.op (.read .brake), call .brakeState,
    perhaps (.all [.op .restoreBrake, .op (.write .brake (some kDisengaged)), .stop,
      call .brakeState])]

/-- A disarm, then the five values. -/
def writeChirpSettings : List (Body Op) :=
  [.stop, .op (.write .chirp (some kNone))] ++
    (List.replicate 5 [.stop, call .setSystemIdentificationParameter]).flatten

def excitePlantAndRecord : List (Body Op) :=
  [call .configureHrdStream, .op (.read .mode), .op .readState, .op .bringDown,
    .op (.write .mode (some kCyclicSyncTorque)), .op (.restoreMode (some .kSwitchedOn)),
    call .setTargetTorque, enable, .stop] ++ releaseBrakeIfManual ++ [.stop] ++
    writeChirpSettings ++
    [.op .disarmChirp, .op (.write .chirp none), .stop, call .startHrdStream, .stop,
      call .confirmStillEnabled, call .readHrdRecording, call .checkPlantMeasurementAmplitudes]

def runOpenLoopFieldControlProcedure : List (Body Op) :=
  [call .createSomanetDrive, call .alState, call .polePairs, call .openLoopFieldProfile,
    .op (.read .mode), .op .readState, .op .bringDown,
    .op (.write .mode (some kOpenLoopField)), .op (.restoreMode (some .kSwitchedOn))] ++
    List.replicate 7 (call .setOpenLoopFieldParameter) ++ [.stop, enable] ++
    releaseBrakeIfManual ++
    [.loop (.all [.stop, call .statusword, perhaps (call .confirmStillEnabled),
      perhaps .leave])]

/-! ### iC-MU calibration -/

def setAcceleration : Body Op :=
  .all [.op (.write .acceleration none), .op (.write .deceleration none)]

def setTargetVelocity (value : Option ℤ) : Body Op := .op (.write .velocity value)

/-- Left when the run was cancelled, or when the drive faulted, reached a limit or left Operation
Enabled. -/
def checkMotion : Body Op :=
  .all [perhaps (.all [.attempt (.op .quickStop), .leave]), call .statusword,
    perhaps (.all [perhaps (.either (.attempt (call .errorReport)) (.attempt (.op .quickStop))),
      .leave])]

def waitForStandstill : Body Op :=
  .all [checkMotion, call .velocityDemandValue,
    .loop (.all [perhaps .leave, checkMotion, call .velocityDemandValue])]

def moveTo : Body Op :=
  .all [call .positionActualValue, setAcceleration, setTargetVelocity none,
    .loop (.all [checkMotion, call .positionActualValue,
      perhaps (.attempt (setTargetVelocity none)),
      perhaps (.all [.attempt (setTargetVelocity (some 0)), .leave])]),
    setTargetVelocity (some 0), waitForStandstill, setAcceleration]

/-- One move and one recording. -/
def recordMove : Body Op :=
  .all [call .configureHrdStream, setTargetVelocity none,
    .loop (.all [checkMotion, call .velocityDemandValue, perhaps (.attempt (call .startHrdStream)),
      perhaps (setTargetVelocity (some 0)),
      perhaps (.all [.attempt (setTargetVelocity (some 0)), .leave])]),
    perhaps .leave, call .readHrdRecording]

def leaveRawMode : Body Op :=
  .all [call .setIcMuCalibrationMode, perhaps (call .icMuRegister), perhaps (call .icMuRegister),
    call .setIcMuCalibrationMode]

/-- What the calibration reads before it arms the restore. -/
def readBefore : List (Body Op) :=
  [.op (.read .mode), .op (.read .acceleration), .op (.read .deceleration), .op (.read .velocity),
    .op .readState]

def armCalibration : List (Body Op) :=
  [.op (.restoreMode none), .op .restoreProfile, .op .restoreTargetVelocity]

def calibrateArmed : List (Body Op) :=
  [setTargetVelocity (some 0), setAcceleration, .op (.write .mode (some kProfileVelocity)), enable,
    perhaps moveTo, perhaps (.all [call .positionActualValue, call .planIcMuNarrowRange]),
    call .setIgnoreBissStatusBits, .loop (call .icMuRegister), perhaps (.loop (call .icMuRegister)),
    waitForStandstill, call .setIcMuCalibrationMode, call .icMuRegister, call .icMuRegister,
    call .setIcMuCalibrationMode, call .icMuEngine, .loop (call .icMuRegister), call .icMuEngine,
    .loop (call .icMuRegister), call .icMuEngine,
    .loop (.all [recordMove, call .icMuEngine, perhaps .leave, call .icMuEngine,
      .loop (call .icMuRegister)]),
    recordMove, call .icMuEngine, perhaps .leave]

/-- The save, and the way back that a cancelled run takes too. -/
def finishCalibration : List (Body Op) :=
  [perhaps (.attempt (.all [waitForStandstill, leaveRawMode, .loop (call .icMuRegister),
      call .positionActualValue, call .icMuRegister, .attempt (call .positionActualValue),
      perhaps (call .writeIcMuRestoreFile)])),
    perhaps (.all [perhaps (.attempt (setTargetVelocity (some 0))), .attempt leaveRawMode]),
    perhaps (.attempt (.loop (call .icMuRegister))),
    perhaps (.all [.attempt (call .positionActualValue), perhaps (.attempt moveTo)]),
    perhaps (.attempt (call .setIgnoreBissStatusBits))]

def planCalibration : List (Body Op) :=
  [call .createSomanetDrive, call .manufacturerSoftwareVersion, .op .readState, .op .refuseEnabled,
    call .planIcMuCalibration]

/-- A calibration that fails before it has armed the restore has set none of the flags the rest
looks at, so it ends the run. -/
def runIcMuCalibrationProcedure : List (Body Op) :=
  planCalibration ++ readBefore ++
    (armCalibration ++ ([.attempt (.all calibrateArmed)] ++ finishCalibration))

/-- The procedures built on the restorer. -/
inductive Procedure where
  | runMeasurementProcedure (needsRelease : Bool)
  | runOpenPhaseDetectionProcedure
  | runOffsetDetectionProcedure
  | excitePlantAndRecord
  | runOpenLoopFieldControlProcedure
  | runIcMuCalibrationProcedure

def Procedure.body : Procedure → Body Op
  | .runMeasurementProcedure needsRelease =>
    .all (DriveRestorer.runMeasurementProcedure needsRelease)
  | .runOpenPhaseDetectionProcedure => .all DriveRestorer.runOpenPhaseDetectionProcedure
  | .runOffsetDetectionProcedure => .all DriveRestorer.runOffsetDetectionProcedure
  | .excitePlantAndRecord => .all DriveRestorer.excitePlantAndRecord
  | .runOpenLoopFieldControlProcedure => .all DriveRestorer.runOpenLoopFieldControlProcedure
  | .runIcMuCalibrationProcedure => .all DriveRestorer.runIcMuCalibrationProcedure

end MotionMaster.DriveRestorer
