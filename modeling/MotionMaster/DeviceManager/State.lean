import MotionMaster.ProcessImage
import MotionMaster.Recorder.Ring

/-!
# The device manager and its real-time thread

One total order of atomic steps over the state that `ProcessData` and `DeviceManager` share
between the real-time thread, the control-plane threads that run `Device::publishParameters`, and
the one operation `busOperationMutex_` admits at a time. Each label carries the locals its step
reads, so the effect of a step is a plain function of the state.
-/

namespace MotionMaster.DeviceManager

/-- A published `ProcessImage`: the address a raw pointer to it carries, and its contents. -/
structure Image where
  address : ℕ
  layout : ProcessImage
  deriving DecidableEq, Repr

/-- One generation of the bus. A set without a driver has no devices. -/
structure DeviceSet where
  address : ℕ
  driver : Option ℕ
  devices : List ℕ
  topologyGeneration : ℕ
  deriving DecidableEq, Repr

/-- The data type each enumerated object of a device declares. -/
abbrev Dictionary := ℕ → ℕ → Option ℕ

/-- A device is named by the set it lives in and its position on the bus. -/
structure DeviceRef where
  set : ℕ
  position : ℕ
  deriving DecidableEq, Repr

/-- A published slot. `image` is the layout the cycle ran under and `cycle` its place among all
recorded cycles; the code stores neither. -/
structure Recorded where
  seq : ℕ
  frame : Frame
  image : Image
  cycle : ℕ
  deriving DecidableEq

/-- The recorder at the granularity of its sequence words: a slot reads as `none` while its word
is invalid. `base` is the number of cycles recorded before this allocation. -/
structure Ring where
  storage : ℕ
  capacity : ℕ
  inputCap : ℕ
  outputCap : ℕ
  head : ℕ
  slots : ℕ → Option Recorded
  base : ℕ

namespace Ring

/-- Released storage: every write is a no-op and nothing reads back. -/
def clear (storage base : ℕ) : Ring := ⟨storage, 0, 0, 0, 0, fun _ => none, base⟩

/-- Fresh storage. The sequence restarts at 0; a zero depth leaves the ring unallocated. -/
def allocate (storage base inputCap outputCap capacityCycles : ℕ) : Ring :=
  if capacityCycles = 0 then clear storage base
  else ⟨storage, capacityCycles, inputCap, outputCap, 0, fun _ => none, base⟩

def oldestValidSeq (r : Ring) : ℕ := if r.capacity < r.head then r.head - r.capacity else 0

/-- The record a reader gets for `seq`, when its slot's word names it. -/
def readRecord (r : Ring) (seq : ℕ) : Option Recorded :=
  if r.capacity = 0 then none
  else (r.slots (seq % r.capacity)).filter fun rec => rec.seq = seq

/-- `write` up to its first store: the slot's word becomes invalid. -/
def invalidate (r : Ring) (slot : ℕ) : Ring := { r with slots := Function.update r.slots slot none }

/-- The payload copied and the slot's word stored. Each region is clamped to its capacity. -/
def publish (r : Ring) (slot seq : ℕ) (frame : Frame) (image : Image) (cycle : ℕ) : Ring :=
  { r with slots := Function.update r.slots slot (some
      ⟨seq, frame.clamp r.inputCap r.outputCap, image, cycle⟩) }

def advance (r : Ring) (seq : ℕ) : Ring := { r with head := seq + 1 }

end Ring

/-- Where `exchangeProcessData` stands, with the pointers it has loaded. -/
inductive Exchange where
  | raised
  | backOut
  | composing (image : Image)
  | exchanging (image : Image) (set : Option DeviceSet)
  | writing (image : Image) (set : Option DeviceSet) (seq slot : ℕ)
  | written (image : Image) (set : Option DeviceSet) (seq : ℕ)
  | decoding (image : Image) (set : Option DeviceSet)
  deriving DecidableEq, Repr

/-- The real-time thread: outside, inside the `CycleGuard` of the task list, or inside an exchange,
which a task makes under the guard and a direct caller without it. -/
inductive Rt where
  | idle
  | guardRaised
  | guardBackOut
  | task
  | exchange (guarded : Bool) (stage : Exchange)
  deriving DecidableEq, Repr

/-- A thread inside `Device::publishParameters`, with what its `pauseCycle` returned so far. -/
inductive Pauser where
  | idle
  | draining (device : DeviceRef) (previous : Option Image)
  | checking (device : DeviceRef) (previous : Option Image)
  | paused (device : DeviceRef) (previous : Option Image) (drained : Bool)
  | swapped (device : DeviceRef) (previous : Option Image) (drained : Bool)
  deriving DecidableEq, Repr

/-- The operations `busOperationMutex_` serialises. `teardown` is the `stopExchange` of a state
change that leaves no device exchanging. -/
inductive Op where
  | init (driver recorderCapacity : ℕ)
  | scan
  | reset
  | remap
  | teardown
  deriving DecidableEq, Repr

/-- Where the operation holding `busOperationMutex_` stands. `ok` is what `stopExchange`
returned. -/
inductive Bus where
  | idle
  | draining (op : Op)
  | checking (op : Op)
  | drained (op : Op) (ok : Bool)
  | stopped (op : Op) (ok : Bool)
  | cleared (op : Op) (ok : Bool)
  | publishing (op : Op) (ok : Bool) (set : DeviceSet)
  | handing (op : Op) (ok : Bool) (set : DeviceSet)
  | mapped (layout : ProcessImage)
  | allocated (layout : ProcessImage)
  | retained (image : Image)
  | stored (image : Image)
  deriving DecidableEq, Repr

/-- What the real-time thread has obtained since it entered its current cycle body. -/
structure Held where
  images : List Image
  sets : List DeviceSet
  storages : List ℕ
  deriving DecidableEq, Repr

def Held.none : Held := ⟨[], [], []⟩

structure State where
  image : Option Image
  generations : List Image
  inCycle : ℕ
  ring : Ring
  publishedSet : Option DeviceSet
  currentSet : DeviceSet
  abandoned : List (Image ⊕ DeviceSet)
  topologyGeneration : ℕ
  processImageGeneration : ℕ
  recorderCapacity : ℕ
  parameters : DeviceRef → Dictionary
  retiredMaps : DeviceRef → List Dictionary
  rt : Rt
  pausers : ℕ → Pauser
  bus : Bus
  /-- The next address the allocator hands out. -/
  fresh : ℕ
  held : Held
  /-- Cycles recorded so far. -/
  cycles : ℕ
  /-- The image of the last successful re-map with no scan, reset or teardown after it. -/
  lastMapped : Option Image

def State.initial : State where
  image := none
  generations := []
  inCycle := 0
  ring := Ring.clear 0 0
  publishedSet := none
  currentSet := ⟨1, none, [], 0⟩
  abandoned := []
  topologyGeneration := 0
  processImageGeneration := 0
  recorderCapacity := 0
  parameters := fun _ _ _ => none
  retiredMaps := fun _ => []
  rt := .idle
  pausers := fun _ => .idle
  bus := .idle
  fresh := 2
  held := Held.none
  cycles := 0
  lastMapped := none

end MotionMaster.DeviceManager
