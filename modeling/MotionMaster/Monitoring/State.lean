import MotionMaster.DeviceManager.Step
import MotionMaster.Device.Value
import MotionMaster.ProcessImage.Bits

/-!
# The monitoring manager

Monitorings and the flushes that stream them, over the device manager they read. `mutex_` guards
the registrations. A flush works on a copy of one and holds no lock, so it interleaves with
everything else at each load it makes.
-/

namespace MotionMaster.Monitoring

open DeviceManager

/-- `MonitoredParameter`, which is also what the refresher keys its entries by. -/
structure Object where
  devicePosition : ℕ
  index : ℕ
  subindex : ℕ
  deriving DecidableEq, Repr

/-- The client's configuration. -/
structure Config where
  topic : String
  /-- In milliseconds. -/
  interval : ℕ
  parameters : List Object
  deriving DecidableEq, Repr

def isUrlSafeId (id : String) : Bool :=
  0 < id.length ∧ id.length ≤ 64 ∧ id.toList.all fun c =>
    c.isUpper || c.isLower || c.isDigit || c = '.' || c = '_' || c = '-'

def kNotificationTopic : String := "notifications"

/-- What `create` checks before it looks at the bus. -/
def validate (config : Config) : Except String Unit :=
  if ¬ isUrlSafeId config.topic then
    .error ("invalid topic: must match [A-Za-z0-9._-]" ++ "\x7b1,64\x7d")
  else if config.topic = kNotificationTopic then
    .error ("topic '" ++ kNotificationTopic ++ "' is reserved for server notifications")
  else if config.interval < 5 ∨ 2000 < config.interval then
    .error "interval must be between 5 ms and 2000 ms"
  else if config.parameters = [] then .error "parameters must not be empty"
  else .ok ()

inductive Source where
  | pdo | sdo
  deriving DecidableEq, Repr

/-- How to decode an object out of a recorded cycle. -/
structure PdoSampleSpec where
  isOutput : Bool
  bitOffset : ℕ
  bitLength : ℕ
  dataType : ℕ
  deriving DecidableEq, Repr

structure ParamPlan where
  object : Object
  source : Source
  pdoSpec : Option PdoSampleSpec
  deriving DecidableEq, Repr

/-- What a flush takes from a registration and commits back. `cursorBase` counts the cycles
recorded before the ring the cursor indexes, and `primedAt` those before the cursor was primed;
the code stores neither. -/
structure Progress where
  plans : List ParamPlan
  cursor : ℕ
  cursorPrimed : Bool
  imageGeneration : ℕ
  cursorBase : ℕ
  primedAt : ℕ
  deriving DecidableEq, Repr

structure Entry where
  config : Config
  epoch : ℕ
  progress : Progress
  deriving DecidableEq, Repr

/-- A flush's copy of a registration. `takenAt` counts the cycles recorded when it was made; the
code does not store it. -/
structure FlushState where
  topic : String
  epoch : ℕ
  interval : ℕ
  progress : Progress
  takenAt : ℕ
  deriving DecidableEq, Repr

/-- `takeDue` copies the registration. -/
def Entry.copy (e : Entry) (takenAt : ℕ) : FlushState :=
  ⟨e.config.topic, e.epoch, e.config.interval, e.progress, takenAt⟩

/-! ### Looking an object up -/

inductive Lookup where
  | loadSet
  | loadImage (set : DeviceSet)
  | loadType (set : DeviceSet) (loc : Location)
  deriving DecidableEq, Repr

/-- The dictionary entry of an object, in the set a caller has loaded. -/
def dataTypeOf (dm : DeviceManager.State) (set : DeviceSet) (o : Object) : Option ℕ :=
  dm.parameters ⟨set.address, o.devicePosition⟩ o.index o.subindex

/-- One load of `pdoSampleSpec`: where it leads, or what the call returns. -/
def Lookup.step (dm : DeviceManager.State) (o : Object) : Lookup → Lookup ⊕ Option PdoSampleSpec
  | .loadSet => .inl (.loadImage dm.currentSet)
  | .loadImage set =>
    match dm.image.bind fun image => image.layout.find o.devicePosition o.index o.subindex with
    | none => .inr none
    | some loc => if o.devicePosition ∈ set.devices then .inl (.loadType set loc) else .inr none
  | .loadType set loc =>
    .inr ((dataTypeOf dm set o).map fun dataType =>
      ⟨loc.isOutput, loc.bitOffset, loc.bitLength, dataType⟩)

/-- Where `classify` stands: after the image it asks the device's cache. -/
inductive Classify where
  | lookup (l : Lookup)
  | loadDevice
  | loadCached (set : DeviceSet)
  deriving DecidableEq, Repr

def Classify.step (dm : DeviceManager.State) (o : Object) :
    Classify → Classify ⊕ Option ParamPlan
  | .lookup l =>
    match l.step dm o with
    | .inl l => .inl (.lookup l)
    | .inr (some spec) => .inr (some ⟨o, .pdo, some spec⟩)
    | .inr none => .inl .loadDevice
  | .loadDevice => .inl (.loadCached dm.currentSet)
  | .loadCached set =>
    .inr (if o.devicePosition ∈ set.devices ∧ (dataTypeOf dm set o).isSome then
      some ⟨o, .sdo, none⟩ else none)

/-! ### Rows -/

structure Sample where
  timestampUs : ℕ
  values : List (Option DeviceParameterValue)
  deriving DecidableEq

structure Row where
  sample : Sample
  record : Recorded
  deriving DecidableEq

/-- The bytes of the direction the object is mapped in. -/
def region (isOutput : Bool) (record : Recorded) : List (BitVec 8) :=
  if isOutput then record.frame.outputs else record.frame.inputs

def decodeField (record : Recorded) (isOutput : Bool) (bitOffset bitLength dataType : ℕ) :
    Option DeviceParameterValue :=
  (decodeSdoBytes dataType (extractBits (region isOutput record) bitOffset bitLength
    ((bitLength + 7) / 8))).toOption

/-- The value one plan contributes to the row of a record, null for a device not exchanging. -/
def planValue (exchanging : ℕ → Bool) (sdoValue : Option DeviceParameterValue)
    (record : Recorded) (plan : ParamPlan) : Option DeviceParameterValue :=
  if exchanging plan.object.devicePosition then
    match plan.source with
    | .pdo => plan.pdoSpec.bind fun spec =>
      decodeField record spec.isOutput spec.bitOffset spec.bitLength spec.dataType
    | .sdo => sdoValue
  else none

/-- One row. `sdoValues` holds the refresher's values, one for each plan. -/
def sampleRow (exchanging : ℕ → Bool) (sdoValues : ℕ → Option DeviceParameterValue)
    (plans : List ParamPlan) (record : Recorded) : Row where
  sample :=
    { timestampUs := record.frame.timestampNs.toNat / 1000
      values := plans.mapIdx fun i plan => planValue exchanging (sdoValues i) record plan }
  record := record

/-! ### Threads -/

/-- A thread inside `create`, before it takes `mutex_`. -/
inductive Creator where
  | idle
  | classifying (config : Config) (plans : List ParamPlan) (o : Object) (todo : List Object)
      (retried : Bool) (stage : Classify)
  | unsourced (config : Config) (plans : List ParamPlan) (o : Object) (todo : List Object)
      (retried : Bool)
  | classified (config : Config) (plans : List ParamPlan)
  deriving DecidableEq, Repr

/-- Who holds `mutex_` for longer than one step: `create` while it acquires and `remove` while it
releases the references of the plans left to do. -/
inductive Mutex where
  | free
  | creating (config : Config) (acquired todo : List ParamPlan)
  | removing (topic : String) (todo : List ParamPlan)
  deriving DecidableEq, Repr

/-- A detached flush. `base` is the number of cycles recorded before the ring whose head it
loaded. `threw` is the `length_error` of a reservation for a negative span. -/
inductive Flight where
  | idle
  | taken (st : FlushState)
  | recapturing (st : FlushState) (generation : ℕ) (done : List ParamPlan) (plan : ParamPlan)
      (todo : List ParamPlan) (l : Lookup)
  | deciding (st : FlushState) (generation : ℕ) (done : List ParamPlan) (plan : ParamPlan)
      (todo : List ParamPlan) (spec : Option PdoSampleSpec)
  | captured (st : FlushState)
  | measured (st : FlushState) (head base : ℕ)
  | sampling (st : FlushState) (head base : ℕ)
  | reading (st : FlushState) (head base seq : ℕ) (exchanging : ℕ → Bool)
      (sdoValues : ℕ → Option DeviceParameterValue) (rows : List Row)
  | flushed (st : FlushState)
  | threw (st : FlushState)

/-- A batch handed to the publish callback. `epoch` and `plans` say which registration it came
from and what its values were decoded under. -/
structure Batch where
  topic : String
  epoch : ℕ
  plans : List ParamPlan
  exchanging : ℕ → Bool
  sdoValues : ℕ → Option DeviceParameterValue
  rows : List Row

/-- The resync warning. The cycles from `gapStart` up to `gapEnd` are the ones it accounts for. -/
structure Warning where
  topic : String
  epoch : ℕ
  cursor : ℕ
  oldest : ℕ
  head : ℕ
  gapStart : ℕ
  gapEnd : ℕ
  deriving DecidableEq, Repr

structure State where
  dm : DeviceManager.State
  entries : List Entry
  nextEpoch : ℕ
  /-- The refresher's counts. An object it does not poll counts 0. -/
  refCount : Object → ℕ
  /-- `keepFresh` calls not yet taken back. -/
  kept : List Object
  mutex : Mutex
  creators : ℕ → Creator
  flights : ℕ → Flight
  published : List Batch
  warnings : List Warning

def State.initial : State where
  dm := DeviceManager.State.initial
  entries := []
  nextEpoch := 1
  refCount := fun _ => 0
  kept := []
  mutex := .free
  creators := fun _ => .idle
  flights := fun _ => .idle
  published := []
  warnings := []

end MotionMaster.Monitoring
