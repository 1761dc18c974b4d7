import MotionMaster.Device.Value
import MotionMaster.Lib.Interleaving

/-!
# OS commands

`SomanetDrive::runOsCommand` on the command channel of a drive, bus access by bus access. A command
that was started before may finish between any two of them.
-/

namespace MotionMaster.OsCommand

open Interleaving

abbrev Bytes := List (BitVec 8)

def kOsCommandSize : ℕ := 8

def kProgressMin : BitVec 8 := 100

def kProgressMax : BitVec 8 := 200

def kExecuting : BitVec 8 := 255

def kModeExecuteImmediately : BitVec 8 := 0

def kModeAbort : BitVec 8 := 3

def kErrorCodeIndex : ℕ := 2

def kDataIndex : ℕ := 2

def kDataIndexAfterErrorCode : ℕ := 3

/-! ### The channel -/

/-- Whose command it is: the one this call wrote, or one from before. -/
inductive Origin where
  | call
  | earlier
  deriving DecidableEq

inductive Work where
  | idle
  | executing (origin : Origin)
  /-- Done, and the response has not been read. -/
  | finished (origin : Origin) (response : Bytes)
  deriving DecidableEq

/-- `mode` is 0x1024. -/
structure Channel where
  mode : BitVec 8
  work : Work

/-- What the call can find. -/
inductive Earlier where
  | nothing
  | executing
  | unread (response : Bytes)

def Earlier.work : Earlier → Work
  | .nothing => .idle
  | .executing => .executing .earlier
  | .unread response => .finished .earlier response

def status (response : Bytes) : BitVec 8 := response.headD 0

/-- What 0x1023:03 shows while a command executes. -/
def InProgress (response : Bytes) : Prop :=
  response ≠ [] ∧ (status response = kExecuting ∨
    kProgressMin ≤ status response ∧ status response ≤ kProgressMax)
  deriving Decidable

namespace Channel

/-- A read of 0x1023:03, with whose response it drained. `shown` is what the drive shows when there
is none. -/
def read (c : Channel) (shown : Bytes) : Bytes × Option Origin × Channel :=
  match c.work with
  | .finished origin response => (response, some origin, { c with work := .idle })
  | .idle | .executing _ => (shown, none, c)

def refuses (c : Channel) : Bool :=
  match c.work with
  | .executing _ => true
  | .idle | .finished _ _ => false

def unread (c : Channel) : Bool :=
  match c.work with
  | .finished _ _ => true
  | .idle | .executing _ => false

def start (c : Channel) : Channel :=
  if c.mode = 0 ∧ c.work = .idle then { c with work := .executing .call } else c

def finish (c : Channel) (response : Bytes) : Channel :=
  match c.work with
  | .executing origin => { c with work := .finished origin response }
  | .idle | .finished _ _ => c

end Channel

/-! ### The call -/

inductive OsCommandStatus where
  | kCompleted
  | kCompletedWithData
  | kFailed
  | kFailedWithData
  deriving DecidableEq

structure OsCommandResponse where
  status : OsCommandStatus
  data : Bytes
  errorCode : Option (BitVec 8)
  fsBuffer : Bytes
  deriving DecidableEq

def OsCommandResponse.failed (r : OsCommandResponse) : Bool :=
  r.status = .kFailed ∨ r.status = .kFailedWithData

/-- Byte 0 is known to be at most 3. -/
def decodeResponse (response : Bytes) : OsCommandResponse :=
  if status response = 0 then ⟨.kCompleted, [], none, []⟩
  else if status response = 1 then ⟨.kCompletedWithData, response.drop kDataIndex, none, []⟩
  else if status response = 2 then ⟨.kFailed, [], none, []⟩
  else ⟨.kFailedWithData, response.drop kDataIndexAfterErrorCode,
    some (response.getD kErrorCodeIndex 0), []⟩

inductive FsBufferTransfer where
  | kNone
  | kWrite
  | kRead
  deriving DecidableEq

structure Request where
  command : Bytes
  timeout : ℕ
  abortTimeout : ℕ
  transfer : FsBufferTransfer

def Request.name (p : Request) : String := "OS command 0x" ++ hexDigits 2 (status p.command).toNat

/-- How a bus access ended. One that failed may have reached the drive. -/
inductive Reply where
  | ok
  | failed (landed : Bool) (error : String)
  deriving DecidableEq

def Reply.landed : Reply → Bool
  | .ok => true
  | .failed landed _ => landed

abbrev Result := Except String OsCommandResponse

/-- Where the call is. `fsBufferError` and `abortReason` are its variables. -/
inductive Call where
  | entering
  | draining
  | resetting
  | writing
  | refused (error : String)
  | transferring
  | polling (fsBufferError abortReason : Option String)
  | aborting (fsBufferError : Option String) (reason : String)
  | fetching (decoded : OsCommandResponse)
  | leaving (result : Result)
  | returned (result : Result)

/-- `armed` is whether the mode restorer is. Of what happened, `answer` has whose response the last
poll read, and `restored` how the write of the mode restorer ended. -/
structure State where
  channel : Channel
  call : Call
  armed : Bool
  answer : Option (Origin × Bytes)
  restored : Option Reply

inductive Action where
  /-- The command that executes ends. -/
  | finish (response : Bytes)
  | enter
  | drain (reply : Reply) (shown : Bytes)
  | reset (reply : Reply)
  | write (reply : Reply) (refusal : String)
  | pending (reply : Reply) (shown : Bytes)
  | transfer (error : Option String)
  | poll (reply : Reply) (shown : Bytes) (stopRequested expired : Bool)
  | abort (reply : Reply)
  | fetch (result : Except String Bytes)
  | restore (reply : Reply)

namespace State

/-- Out of the body, through the mode restorer. -/
def leave (s : State) (result : Result) : State :=
  { s with call := if s.armed then .leaving result else .returned result }

def setMode (s : State) (mode : BitVec 8) (reply : Reply) : State :=
  if reply.landed then { s with channel := { s.channel with mode := mode } } else s

/-- The channel after a read that may have been lost. -/
def readThrough (s : State) (reply : Reply) (shown : Bytes) : State :=
  if reply.landed then { s with channel := (s.channel.read shown).2.2 } else s

/-- The loop, once a whole response has been read. -/
def examine (p : Request) (s : State) (response : Bytes) (fsBufferError abortReason : Option String)
    (stopRequested expired : Bool) : State :=
  if status response ≤ 3 then
    match abortReason with
    | some reason => s.leave (.error reason)
    | none =>
      let decoded := decodeResponse response
      match fsBufferError, decoded.failed with
      | some error, false =>
        s.leave (.error ("the fs-buffer transfer failed although the drive completed " ++ p.name ++
          ": " ++ error))
      | _, failed =>
        if p.transfer = .kRead ∧ failed = false then { s with call := .fetching decoded }
        else s.leave (.ok decoded)
  else if ¬ (kProgressMin ≤ status response ∧ status response ≤ kProgressMax) ∧
      status response ≠ kExecuting then
    s.leave (.error ("unknown OS command status " ++ toString (status response).toNat))
  else
    match abortReason with
    | none =>
      if stopRequested then
        { s with call := .aborting fsBufferError (p.name ++ " cancelled") }
      else if expired then
        { s with
          call := .aborting fsBufferError
            (p.name ++ " timed out after " ++ toString p.timeout ++ " ms") }
      else s
    | some reason =>
      if expired then
        s.leave (.error (reason ++ "; the drive did not report the abort within " ++
          toString p.abortTimeout ++ " ms"))
      else s

def poll (p : Request) (s : State) (fsBufferError abortReason : Option String) (reply : Reply)
    (shown : Bytes) (stopRequested expired : Bool) : State :=
  match reply with
  | .failed _ error => (s.readThrough reply shown).leave (.error error)
  | .ok =>
    let response := (s.channel.read shown).1
    let t := { s with
      channel := (s.channel.read shown).2.2
      answer := (s.channel.read shown).2.1.map fun origin => (origin, response) }
    if response.length < kOsCommandSize then
      t.leave (.error ("an OS command response is " ++ toString kOsCommandSize ++ " bytes, got " ++
        toString response.length))
    else t.examine p response fsBufferError abortReason stopRequested expired

end State

/-- An fs-buffer write that fails without a message is not noticed. -/
def noted : Option String → Option String
  | some error => if error.isEmpty then none else some error
  | none => none

/-- An action is one access of the call, where the call is at it, or the end of a command. -/
def next (p : Request) (s : State) (a : Action) : State :=
  match a, s.call with
  | .finish response, _ => { s with channel := s.channel.finish response }
  | .enter, .entering =>
    if p.command.length ≠ kOsCommandSize then
      s.leave (.error ("an OS command is " ++ toString kOsCommandSize ++ " bytes, got " ++
        toString p.command.length))
    else { s with call := .draining }
  -- A failed drain is stepped over.
  | .drain reply shown, .draining => { s.readThrough reply shown with call := .resetting }
  | .reset reply, .resetting =>
    let t := s.setMode kModeExecuteImmediately reply
    match reply with
    | .ok => { t with call := .writing }
    | .failed _ error => t.leave (.error error)
  | .write reply refusal, .writing =>
    if s.channel.refuses = true then
      { s with call := .refused (match reply with | .ok => refusal | .failed _ error => error) }
    else
      let t := if reply.landed then { s with channel := s.channel.start } else s
      match reply with
      | .failed _ error => { t with call := .refused error }
      | .ok =>
        { t with call := if p.transfer = .kWrite then .transferring else .polling none none }
  | .pending reply shown, .refused error =>
    let occupied := reply = .ok ∧ (s.channel.read shown).1 ≠ [] ∧
      status (s.channel.read shown).1 = kExecuting
    (s.readThrough reply shown).leave (.error (if occupied then
      error ++ " — a command is still in progress on this drive (0x1023:03 reads 255), so the " ++
        "channel is occupied. If it does not clear, the firmware service that was handling it " ++
        "has stopped and only a power cycle recovers the OS command channel"
      else error))
  | .transfer error, .transferring => { s with call := .polling (noted error) none }
  | .poll reply shown stopRequested expired, .polling fsBufferError abortReason =>
    s.poll p fsBufferError abortReason reply shown stopRequested expired
  -- The restorer is armed before the write.
  | .abort reply, .aborting fsBufferError reason =>
    let t := { s with armed := true }.setMode kModeAbort reply
    match reply with
    | .ok => { t with call := .polling fsBufferError (some reason) }
    | .failed _ error => t.leave (.error (reason ++ "; the abort failed: " ++ error))
  | .fetch (.ok bytes), .fetching decoded => s.leave (.ok { decoded with fsBuffer := bytes })
  | .fetch (.error error), .fetching _ =>
    s.leave (.error ("the fs-buffer transfer failed although the drive completed " ++ p.name ++
      ": " ++ error))
  | .restore reply, .leaving result =>
    { s.setMode kModeExecuteImmediately reply with
      call := .returned result
      restored := some reply }
  | _, _ => s

/-- What the drive shows while a command executes, and what it ends with. -/
def Enabled (s : State) : Action → Prop
  | .finish response => s.channel.refuses = true ∧ response ≠ [] ∧ status response ≤ 3
  | .drain _ shown | .pending _ shown | .poll _ shown _ _ =>
    s.channel.refuses = true → InProgress shown
  | _ => True

instance (s : State) (a : Action) : Decidable (Enabled s a) := by
  cases a <;> unfold Enabled <;> infer_instance

abbrev system (p : Request) (mode : BitVec 8) (earlier : Earlier) : System State Action where
  initial := ⟨⟨mode, earlier.work⟩, .entering, false, none, none⟩
  Enabled := Enabled
  next := next p

end MotionMaster.OsCommand
