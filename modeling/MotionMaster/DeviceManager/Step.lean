import MotionMaster.DeviceManager.State

/-! The atomic steps of the three kinds of thread. -/
namespace MotionMaster.DeviceManager

open Interleaving

/-- The real-time thread: `CycleGuard`, a task's `findDevice`, and `exchangeProcessData`. -/
inductive RtAction where
  | guardRaise
  | guardLoad
  | guardBackOut
  | guardLeave
  | findDevice
  | exchangeRaise (guarded : Bool)
  | exchangeLoad (guarded : Bool)
  | exchangeBackOut (guarded : Bool)
  | loadSet (guarded : Bool) (image : Image)
  | ringSkip (guarded : Bool) (image : Image) (set : Option DeviceSet)
  | ringInvalidate (guarded : Bool) (image : Image) (set : Option DeviceSet)
  | ringPublish (guarded : Bool) (image : Image) (set : Option DeviceSet) (seq slot : ℕ)
      (frame : Frame)
  | ringAdvance (guarded : Bool) (image : Image) (set : Option DeviceSet) (seq : ℕ)
  | exchangeLeave (guarded : Bool) (image : Image) (set : Option DeviceSet)
  deriving DecidableEq

/-- One control-plane thread inside `Device::publishParameters`. -/
inductive PauserAction where
  | pause (device : DeviceRef)
  | waitOver (device : DeviceRef) (previous : Option Image)
  | check (device : DeviceRef) (previous : Option Image)
  | swap (device : DeviceRef) (previous : Option Image) (drained : Bool) (parameters : Dictionary)
  | resume (device : DeviceRef) (previous : Option Image) (drained : Bool)

/-- The operation that holds `busOperationMutex_`. -/
inductive BusAction where
  | initFail (recorderCapacity : ℕ)
  | pause (op : Op)
  | waitOver (op : Op)
  | check (op : Op)
  | reclaim (op : Op) (ok : Bool)
  | initBuild (driver recorderCapacity : ℕ) (ok : Bool)
  | scanRefuse
  | scanClear
  | scanFail
  | scanBuild (slaves : ℕ)
  | resetClear (ok : Bool)
  | resetBuild (ok : Bool)
  | storeSet (op : Op) (ok : Bool) (set : DeviceSet)
  | handSet (op : Op) (ok : Bool) (set : DeviceSet)
  | remapRefuse
  | remapFail
  | remapMap (layout : ProcessImage)
  | remapAllocate (layout : ProcessImage)
  | remapRetain (layout : ProcessImage)
  | remapStore (image : Image)
  | remapBump (image : Image)
  | teardownDone (ok : Bool)
  deriving DecidableEq

inductive Action where
  | rt (a : RtAction)
  | pauser (t : ℕ) (a : PauserAction)
  | bus (a : BusAction)

def Rt.caller (guarded : Bool) : Rt := if guarded then .task else .idle

/-- What an operation checks before it unpublishes the image. A failed check returns an error and
changes nothing. -/
def Op.Admitted (s : State) : Op → Prop
  | .init _ _ => s.currentSet.driver = none
  | .scan => s.currentSet.driver ≠ none
  | .reset => True
  | .remap | .teardown => s.currentSet.driver ≠ none ∧ s.currentSet.devices ≠ []

/-- Whether the operation ends what the last re-map published. -/
def Op.Ends : Op → Prop
  | .scan | .reset | .teardown => True
  | .init _ _ | .remap => False

instance (s : State) (op : Op) : Decidable (op.Admitted s) := by
  cases op <;> unfold Op.Admitted <;> infer_instance

instance (op : Op) : Decidable op.Ends := by
  cases op <;> unfold Op.Ends <;> infer_instance

def RtAction.Enabled (s : State) : RtAction → Prop
  | .guardRaise => s.rt = .idle
  | .guardLoad => s.rt = .guardRaised
  | .guardBackOut => s.rt = .guardBackOut
  | .guardLeave => s.rt = .task
  | .findDevice => s.rt = .task
  | .exchangeRaise g => s.rt = Rt.caller g
  | .exchangeLoad g => s.rt = .exchange g .raised
  | .exchangeBackOut g => s.rt = .exchange g .backOut
  | .loadSet g image => s.rt = .exchange g (.composing image)
  | .ringSkip g image set => s.rt = .exchange g (.exchanging image set) ∧ s.ring.capacity = 0
  | .ringInvalidate g image set =>
    s.rt = .exchange g (.exchanging image set) ∧ s.ring.capacity ≠ 0
  | .ringPublish g image set seq slot _ => s.rt = .exchange g (.writing image set seq slot)
  | .ringAdvance g image set seq => s.rt = .exchange g (.written image set seq)
  | .exchangeLeave g image set => s.rt = .exchange g (.decoding image set)

/-- The wait of `pauseCycle` ends when the depth reads 0 or 200 ms have passed, so `waitOver` may
follow at any moment. The load after it decides `drained`. -/
def PauserAction.Enabled (s : State) (t : ℕ) : PauserAction → Prop
  | .pause _ => s.pausers t = .idle
  | .waitOver device previous => s.pausers t = .draining device previous
  | .check device previous => s.pausers t = .checking device previous
  | .swap device previous drained _ => s.pausers t = .paused device previous drained
  | .resume device previous drained => s.pausers t = .swapped device previous drained

def BusAction.Enabled (s : State) : BusAction → Prop
  | .initFail _ => s.bus = .idle ∧ s.currentSet.driver = none
  | .pause op => s.bus = .idle ∧ op.Admitted s
  | .waitOver op => s.bus = .draining op
  | .check op => s.bus = .checking op
  | .reclaim op ok => s.bus = .drained op ok
  | .initBuild driver capacity ok => s.bus = .stopped (.init driver capacity) ok
  | .scanRefuse => s.bus = .stopped .scan false
  | .scanClear => s.bus = .stopped .scan true
  | .scanFail => s.bus = .cleared .scan true
  | .scanBuild _ => s.bus = .cleared .scan true
  | .resetClear ok => s.bus = .stopped .reset ok
  | .resetBuild ok => s.bus = .cleared .reset ok
  | .storeSet op ok set => s.bus = .publishing op ok set
  | .handSet op ok set => s.bus = .handing op ok set
  | .remapRefuse => s.bus = .stopped .remap false
  | .remapFail => s.bus = .stopped .remap true
  | .remapMap _ => s.bus = .stopped .remap true
  | .remapAllocate layout => s.bus = .mapped layout
  | .remapRetain layout => s.bus = .allocated layout
  | .remapStore image => s.bus = .retained image
  | .remapBump image => s.bus = .stored image
  | .teardownDone ok => s.bus = .stopped .teardown ok

def Enabled (s : State) : Action → Prop
  | .rt a => a.Enabled s
  | .pauser t a => a.Enabled s t
  | .bus a => a.Enabled s

instance (s : State) (a : RtAction) : Decidable (a.Enabled s) := by
  cases a <;> unfold RtAction.Enabled <;> infer_instance

instance (s : State) (t : ℕ) (a : PauserAction) : Decidable (a.Enabled s t) := by
  cases a <;> unfold PauserAction.Enabled <;> infer_instance

instance (s : State) (a : BusAction) : Decidable (a.Enabled s) := by
  cases a <;> unfold BusAction.Enabled <;> infer_instance

instance (s : State) (a : Action) : Decidable (Enabled s a) := by
  cases a <;> unfold Enabled <;> infer_instance

/-- The set found at `publishedSet_`, now one the real-time thread holds. -/
def State.holdSet (s : State) : Held :=
  { s.held with sets := s.publishedSet.toList ++ s.held.sets }

/-- The image found at `image`, now one the real-time thread holds. -/
def State.holdImage (s : State) : Held :=
  { s.held with images := s.image.toList ++ s.held.images }

/-- Where the load of the image leads: back out on null. -/
def Exchange.load : Option Image → Exchange
  | none => .backOut
  | some image => .composing image

def RtAction.next (s : State) : RtAction → State
  | .guardRaise => { s with rt := .guardRaised, inCycle := s.inCycle + 1 }
  | .guardLoad => { s with rt := if s.image = none then .guardBackOut else .task }
  | .guardBackOut => { s with rt := .idle, inCycle := s.inCycle - 1 }
  | .guardLeave => { s with rt := .idle, inCycle := s.inCycle - 1, held := Held.none }
  | .findDevice => { s with held := s.holdSet }
  | .exchangeRaise g => { s with rt := .exchange g .raised, inCycle := s.inCycle + 1 }
  | .exchangeLoad g =>
    { s with rt := .exchange g (Exchange.load s.image), held := s.holdImage }
  | .exchangeBackOut g => { s with rt := Rt.caller g, inCycle := s.inCycle - 1 }
  | .loadSet g image =>
    { s with rt := .exchange g (.exchanging image s.publishedSet), held := s.holdSet }
  | .ringSkip g image set => { s with rt := .exchange g (.decoding image set) }
  | .ringInvalidate g image set =>
    { s with
      rt := .exchange g (.writing image set s.ring.head (s.ring.head % s.ring.capacity))
      ring := s.ring.invalidate (s.ring.head % s.ring.capacity)
      held := { s.held with storages := s.ring.storage :: s.held.storages } }
  | .ringPublish g image set seq slot frame =>
    { s with
      rt := .exchange g (.written image set seq)
      ring := s.ring.publish slot seq frame image s.cycles
      cycles := s.cycles + 1 }
  | .ringAdvance g image set seq =>
    { s with rt := .exchange g (.decoding image set), ring := s.ring.advance seq }
  | .exchangeLeave g _ _ =>
    { s with
      rt := Rt.caller g
      inCycle := s.inCycle - 1
      held := if g then s.held else Held.none }

def State.setPauser (s : State) (t : ℕ) (p : Pauser) : State :=
  { s with pausers := Function.update s.pausers t p }

/-- A failed drain keeps the replaced map alive: the real-time thread may be walking it. -/
def PauserAction.next (s : State) (t : ℕ) : PauserAction → State
  | .pause device => { s.setPauser t (.draining device s.image) with image := none }
  | .waitOver device previous => s.setPauser t (.checking device previous)
  | .check device previous => s.setPauser t (.paused device previous (s.inCycle = 0))
  | .swap device previous drained parameters =>
    { s.setPauser t (.swapped device previous drained) with
      parameters := Function.update s.parameters device parameters
      retiredMaps := if drained then s.retiredMaps else
        Function.update s.retiredMaps device (s.parameters device :: s.retiredMaps device) }
  | .resume _ previous _ => { s.setPauser t .idle with image := previous }

def Op.capacity (current : ℕ) : Op → ℕ
  | .init _ capacity => capacity
  | _ => current

def BusAction.next (s : State) : BusAction → State
  -- the driver did not open: only the configuration is retained
  | .initFail capacity => { s with recorderCapacity := capacity }
  | .pause op =>
    { s with
      image := none
      bus := .draining op
      recorderCapacity := op.capacity s.recorderCapacity
      lastMapped := if op.Ends then none else s.lastMapped }
  | .waitOver op => { s with bus := .checking op }
  | .check op => { s with bus := .drained op (s.inCycle = 0) }
  -- the backlog of an earlier failed drain goes with the first drain that succeeds
  | .reclaim op ok => { s with bus := .stopped op ok, abandoned := if ok then [] else s.abandoned }
  | .initBuild driver capacity ok =>
    { s with
      bus := .publishing (.init driver capacity) ok
        ⟨s.fresh, some driver, [], s.topologyGeneration⟩
      fresh := s.fresh + 1 }
  | .scanRefuse => { s with bus := .idle }
  | .scanClear =>
    { s with
      generations := []
      ring := Ring.clear s.fresh s.cycles
      fresh := s.fresh + 1
      bus := .cleared .scan true }
  | .scanFail => { s with bus := .idle }
  | .scanBuild slaves =>
    { s with
      topologyGeneration := s.topologyGeneration + 1
      bus := .publishing .scan true
        ⟨s.fresh, s.currentSet.driver, List.range' 1 slaves, s.topologyGeneration + 1⟩
      fresh := s.fresh + 1 }
  -- after a failed drain the images are held back and the ring keeps its storage
  | .resetClear ok =>
    { s with
      abandoned := if ok then s.abandoned else s.abandoned ++ s.generations.map .inl
      generations := []
      ring := if ok then Ring.clear s.fresh s.cycles else s.ring
      fresh := s.fresh + 1
      bus := .cleared .reset ok }
  | .resetBuild ok =>
    { s with
      abandoned := if ok then s.abandoned else s.abandoned ++ [.inr s.currentSet]
      topologyGeneration := s.topologyGeneration + 1
      bus := .publishing .reset ok ⟨s.fresh, none, [], s.topologyGeneration + 1⟩
      fresh := s.fresh + 1 }
  -- `publishDeviceSet`: the real-time view first, then the reference that drops the previous set
  | .storeSet op ok set => { s with publishedSet := some set, bus := .handing op ok set }
  | .handSet _ _ set => { s with currentSet := set, bus := .idle }
  | .remapRefuse => { s with bus := .idle }
  | .remapFail => { s with bus := .idle }
  | .remapMap layout => { s with bus := .mapped layout }
  | .remapAllocate layout =>
    { s with
      ring := Ring.allocate s.fresh s.cycles layout.inputBytes layout.outputBytes
        s.recorderCapacity
      fresh := s.fresh + 1
      bus := .allocated layout }
  | .remapRetain layout =>
    { s with
      generations := s.generations ++ [⟨s.fresh, layout⟩]
      bus := .retained ⟨s.fresh, layout⟩
      fresh := s.fresh + 1 }
  | .remapStore image =>
    { s with image := some image, lastMapped := some image, bus := .stored image }
  | .remapBump _ =>
    { s with processImageGeneration := s.processImageGeneration + 1, bus := .idle }
  | .teardownDone _ => { s with bus := .idle }

def next (s : State) : Action → State
  | .rt a => a.next s
  | .pauser t a => a.next s t
  | .bus a => a.next s

abbrev system : System State Action := ⟨State.initial, Enabled, next⟩

/-! ### Schedules -/

/-- `stopExchange` and the reclaim after it, with the outcome `ok` of the drain. -/
def stopExchange (op : Op) (ok : Bool) : List Action :=
  [.bus (.pause op), .bus (.waitOver op), .bus (.check op), .bus (.reclaim op ok)]

/-- A bus is opened and scanned, with nothing in flight. The two sets live at 2 and 4. -/
def bringUp : List Action :=
  stopExchange (.init 7 2) true ++
  [.bus (.initBuild 7 2 true), .bus (.storeSet (.init 7 2) true ⟨2, some 7, [], 0⟩),
    .bus (.handSet (.init 7 2) true ⟨2, some 7, [], 0⟩)] ++
  stopExchange .scan true ++
  [.bus .scanClear, .bus (.scanBuild 1), .bus (.storeSet .scan true ⟨4, some 7, [1], 1⟩),
    .bus (.handSet .scan true ⟨4, some 7, [1], 1⟩)]

/-- A whole re-map that publishes `layout` at `address`. -/
def remap (address : ℕ) (layout : ProcessImage) : List Action :=
  stopExchange .remap true ++
  [.bus (.remapMap layout), .bus (.remapAllocate layout), .bus (.remapRetain layout),
    .bus (.remapStore ⟨address, layout⟩), .bus (.remapBump ⟨address, layout⟩)]

def oneSetpoint : ProcessImage := ⟨[⟨1, 0x607A, 0, 32, 0, none⟩], [], 4, 0, 2⟩

def driveFrame : Frame := ⟨1000, 3, [], [1, 2, 3, 4, 5, 6, 7, 8], by decide, by decide⟩

/-- One whole exchange, recorded as `seq` in a ring of two records. -/
def recordCycle (image : Image) (seq : ℕ) : List Action :=
  [.exchangeRaise false, .exchangeLoad false, .loadSet false image,
    .ringInvalidate false image (some ⟨4, some 7, [1], 1⟩),
    .ringPublish false image (some ⟨4, some 7, [1], 1⟩) seq (seq % 2) driveFrame,
    .ringAdvance false image (some ⟨4, some 7, [1], 1⟩) seq,
    .exchangeLeave false image (some ⟨4, some 7, [1], 1⟩)].map .rt

/-! ### What each kind of thread leaves alone -/

section Frame

variable (s : State)

@[simp] theorem rt_image (a : RtAction) : (a.next s).image = s.image := by cases a <;> rfl
@[simp] theorem rt_generations (a : RtAction) : (a.next s).generations = s.generations := by
  cases a <;> rfl
@[simp] theorem rt_publishedSet (a : RtAction) : (a.next s).publishedSet = s.publishedSet := by
  cases a <;> rfl
@[simp] theorem rt_currentSet (a : RtAction) : (a.next s).currentSet = s.currentSet := by
  cases a <;> rfl
@[simp] theorem rt_abandoned (a : RtAction) : (a.next s).abandoned = s.abandoned := by
  cases a <;> rfl
@[simp] theorem rt_parameters (a : RtAction) : (a.next s).parameters = s.parameters := by
  cases a <;> rfl
@[simp] theorem rt_processImageGeneration (a : RtAction) :
    (a.next s).processImageGeneration = s.processImageGeneration := by cases a <;> rfl
@[simp] theorem rt_pausers (a : RtAction) : (a.next s).pausers = s.pausers := by cases a <;> rfl
@[simp] theorem rt_bus (a : RtAction) : (a.next s).bus = s.bus := by cases a <;> rfl
@[simp] theorem rt_lastMapped (a : RtAction) : (a.next s).lastMapped = s.lastMapped := by
  cases a <;> rfl

@[simp] theorem pauser_rt (t : ℕ) (a : PauserAction) : (a.next s t).rt = s.rt := by cases a <;> rfl
@[simp] theorem pauser_inCycle (t : ℕ) (a : PauserAction) : (a.next s t).inCycle = s.inCycle := by
  cases a <;> rfl
@[simp] theorem pauser_ring (t : ℕ) (a : PauserAction) : (a.next s t).ring = s.ring := by
  cases a <;> rfl
@[simp] theorem pauser_generations (t : ℕ) (a : PauserAction) :
    (a.next s t).generations = s.generations := by cases a <;> rfl
@[simp] theorem pauser_publishedSet (t : ℕ) (a : PauserAction) :
    (a.next s t).publishedSet = s.publishedSet := by cases a <;> rfl
@[simp] theorem pauser_currentSet (t : ℕ) (a : PauserAction) :
    (a.next s t).currentSet = s.currentSet := by cases a <;> rfl
@[simp] theorem pauser_bus (t : ℕ) (a : PauserAction) : (a.next s t).bus = s.bus := by
  cases a <;> rfl
@[simp] theorem pauser_processImageGeneration (t : ℕ) (a : PauserAction) :
    (a.next s t).processImageGeneration = s.processImageGeneration := by cases a <;> rfl
@[simp] theorem pauser_lastMapped (t : ℕ) (a : PauserAction) :
    (a.next s t).lastMapped = s.lastMapped := by cases a <;> rfl

@[simp] theorem bus_rt (a : BusAction) : (a.next s).rt = s.rt := by cases a <;> rfl
@[simp] theorem bus_inCycle (a : BusAction) : (a.next s).inCycle = s.inCycle := by cases a <;> rfl
@[simp] theorem bus_held (a : BusAction) : (a.next s).held = s.held := by cases a <;> rfl
@[simp] theorem bus_pausers (a : BusAction) : (a.next s).pausers = s.pausers := by cases a <;> rfl
@[simp] theorem bus_parameters (a : BusAction) : (a.next s).parameters = s.parameters := by
  cases a <;> rfl

/-- A thread inside `publishParameters` moves no other thread. -/
theorem pauser_other {t u : ℕ} (h : u ≠ t) (a : PauserAction) :
    (a.next s t).pausers u = s.pausers u := by
  cases a <;> simp [PauserAction.next, State.setPauser, h]

end Frame

end MotionMaster.DeviceManager
