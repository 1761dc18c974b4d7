import MotionMaster.DeviceManager.Publication
import MotionMaster.Lib.RefCount
import MotionMaster.Monitoring.State

/-! The atomic steps of `create`, `remove`, `keepFresh` and of a flush. -/
namespace MotionMaster.Monitoring

open Interleaving DeviceManager RefCount

inductive Action where
  | dm (a : DeviceManager.Action)
  /-- A thread enters `create` with a configuration that passes its checks. -/
  | create (t : ℕ) (config : Config)
  /-- The next load of its classification. -/
  | classify (t : ℕ)
  /-- The object cannot be sourced: its device is enumerated once, or `create` gives up. -/
  | enumerated (t : ℕ)
  | refuse (t : ℕ)
  /-- `create` takes `mutex_`. -/
  | lock (t : ℕ)
  /-- `remove` takes `mutex_`. -/
  | remove (topic : String)
  /-- The next step of the thread that holds `mutex_`. -/
  | mutex
  | keepFresh (o : Object)
  | stopKeepingFresh (o : Object)
  /-- `takeDue` hands a registration to a flush. -/
  | take (f : ℕ) (topic : String)
  /-- The next step of a flush. -/
  | flush (f : ℕ)
  /-- A flush reads which devices exchange and the refresher's values. -/
  | prepare (f : ℕ) (exchanging : ℕ → Bool) (sdoValues : ℕ → Option DeviceParameterValue)

/-- `processDataMutex_` is held exclusively while a re-map publishes. -/
def RecorderHeld : Bus → Prop
  | .allocated _ | .retained _ | .stored _ => True
  | _ => False

instance (b : Bus) : Decidable (RecorderHeld b) := by
  cases b <;> unfold RecorderHeld <;> infer_instance

/-! ### Creating and removing -/

def Creator.start (config : Config) (plans : List ParamPlan) : List Object → Creator
  | [] => .classified config plans
  | o :: todo => .classifying config plans o todo false (.lookup .loadSet)

def Creator.step (dm : DeviceManager.State) : Creator → Creator
  | .classifying config plans o todo retried stage =>
    match stage.step dm o with
    | .inl stage => .classifying config plans o todo retried stage
    | .inr (some plan) => Creator.start config (plans ++ [plan]) todo
    | .inr none => .unsourced config plans o todo retried
  | c => c

/-- Once the device has been enumerated the object is classified again. -/
def Creator.retry : Creator → Creator
  | .unsourced config plans o todo _ =>
    .classifying config plans o todo true (.lookup .loadSet)
  | c => c

def HasParameters (dm : DeviceManager.State) (position : ℕ) : Prop :=
  ∃ index subindex, dm.parameters ⟨dm.currentSet.address, position⟩ index subindex ≠ none

def State.setCreator (s : State) (t : ℕ) (c : Creator) : State :=
  { s with creators := Function.update s.creators t c }

def State.findEntry (s : State) (topic : String) : Option Entry :=
  s.entries.find? fun e => e.config.topic = topic

/-- A topic already taken is refused. -/
def State.lock (s : State) (t : ℕ) : State :=
  match s.creators t with
  | .classified config plans =>
    if (s.findEntry config.topic).isSome then s.setCreator t .idle
    else { s.setCreator t .idle with mutex := .creating config [] plans }
  | _ => s

/-- `remove` starts to release what the registration's committed plans hold. -/
def State.remove (s : State) (topic : String) : State :=
  match s.findEntry topic with
  | none => s
  | some e => { s with mutex := .removing topic e.progress.plans }

/-- The reference a plan holds is taken or given back, if it is one of the refresher's. -/
def ParamPlan.acquire (plan : ParamPlan) (c : Object → ℕ) : Object → ℕ :=
  if plan.source = .sdo then RefCount.acquire c plan.object else c

def ParamPlan.release (plan : ParamPlan) (c : Object → ℕ) : Object → ℕ :=
  if plan.source = .sdo then RefCount.release c plan.object else c

/-- The registration `create` inserts, stamped with the generation it loads. -/
def State.newEntry (s : State) (config : Config) (plans : List ParamPlan) : Entry :=
  ⟨config, s.nextEpoch, ⟨plans, 0, false, s.dm.processImageGeneration, 0, 0⟩⟩

def State.mutexStep (s : State) : State :=
  match s.mutex with
  | .free => s
  | .creating config acquired (plan :: todo) =>
    { s with
      refCount := plan.acquire s.refCount
      mutex := .creating config (acquired ++ [plan]) todo }
  | .creating config acquired [] =>
    { s with
      entries := s.entries ++ [s.newEntry config acquired]
      nextEpoch := s.nextEpoch + 1
      mutex := .free }
  | .removing topic (plan :: todo) =>
    { s with refCount := plan.release s.refCount, mutex := .removing topic todo }
  | .removing topic [] =>
    { s with
      entries := s.entries.filter fun e => e.config.topic ≠ topic
      mutex := .free }

/-! ### Flushing -/

/-- `recaptureIfRemapped` goes on with the plans left, and stamps the copy when none is. -/
def Flight.recapture (st : FlushState) (generation : ℕ) (done : List ParamPlan) :
    List ParamPlan → Flight
  | [] => .captured { st with
      progress := { st.progress with plans := done, imageGeneration := generation } }
  | plan :: todo => .recapturing st generation done plan todo .loadSet

def ParamPlan.resource (plan : ParamPlan) (spec : Option PdoSampleSpec) : ParamPlan :=
  { plan with source := if spec.isSome then .pdo else .sdo, pdoSpec := spec }

/-- A plan that leaves the image is polled from now on, and one that joins it no longer. -/
def ParamPlan.moveRef (plan : ParamPlan) (spec : Option PdoSampleSpec) (c : Object → ℕ) :
    Object → ℕ :=
  if (plan.resource spec).source = plan.source then c
  else (plan.resource spec).acquire (plan.release c)

def State.setFlight (s : State) (f : ℕ) (flight : Flight) : State :=
  { s with flights := Function.update s.flights f flight }

/-- The head is loaded: a fresh cursor starts there, and a cursor already there has nothing to
deliver. -/
def measure (ring : Ring) (st : FlushState) : Flight :=
  if st.progress.cursorPrimed = false then
    .flushed { st with progress := { st.progress with
      cursor := ring.head
      cursorPrimed := true
      cursorBase := ring.base
      primedAt := ring.base + ring.head } }
  else if ring.head = st.progress.cursor then .flushed st
  else .measured st ring.head ring.base

/-- A cursor outside the recorded span. -/
def OutsideSpan (ring : Ring) (p : Progress) (head : ℕ) : Prop :=
  p.cursor < ring.oldestValidSeq ∨ head < p.cursor
  deriving Decidable

/-- The oldest record is loaded and a cursor outside the span is moved there. -/
def resync (ring : Ring) (st : FlushState) (head : ℕ) : FlushState :=
  if OutsideSpan ring st.progress head then
    { st with progress := { st.progress with
      cursor := ring.oldestValidSeq
      cursorBase := ring.base } }
  else st

def resyncWarning (ring : Ring) (st : FlushState) (head : ℕ) : List Warning :=
  if OutsideSpan ring st.progress head then
    [⟨st.topic, st.epoch, st.progress.cursor, ring.oldestValidSeq, head,
      st.progress.cursorBase + st.progress.cursor, ring.base + ring.oldestValidSeq⟩]
  else []

/-- One record of the span. A record that is gone is passed over. -/
def readOne (ring : Ring) (plans : List ParamPlan) (seq : ℕ) (exchanging : ℕ → Bool)
    (sdoValues : ℕ → Option DeviceParameterValue) (rows : List Row) : List Row :=
  match ring.readRecord seq with
  | none => rows
  | some record => rows ++ [sampleRow exchanging sdoValues plans record]

def finish (st : FlushState) (head base : ℕ) : FlushState :=
  { st with progress := { st.progress with cursor := head, cursorBase := base } }

def Flight.step (dm : DeviceManager.State) : Flight → Flight
  | .taken st =>
    if dm.processImageGeneration = st.progress.imageGeneration then .captured st
    else Flight.recapture st dm.processImageGeneration [] st.progress.plans
  | .recapturing st generation done plan todo l =>
    match l.step dm plan.object with
    | .inl l => .recapturing st generation done plan todo l
    | .inr spec => .deciding st generation done plan todo spec
  | .deciding st generation done plan todo spec =>
    Flight.recapture st generation (done ++ [plan.resource spec]) todo
  | .captured st => measure dm.ring st
  | .measured st head base => .sampling (resync dm.ring st head) head base
  | .reading st head base seq exchanging sdoValues rows =>
    if seq = head then .flushed (finish st head base)
    else .reading st head base (seq + 1) exchanging sdoValues
      (readOne dm.ring st.progress.plans seq exchanging sdoValues rows)
  | .flushed _ => .idle
  | .idle => .idle
  | .sampling st head base => .sampling st head base
  | .threw st => .threw st

/-- Its acquire or release, when it has decided on a plan. -/
def Flight.count (c : Object → ℕ) : Flight → Object → ℕ
  | .deciding _ _ _ plan _ spec => plan.moveRef spec c
  | _ => c

def Flight.warns (ring : Ring) : Flight → List Warning
  | .measured st head _ => resyncWarning ring st head
  | _ => []

/-- The batch it hands to the publish callback at the end of a span with rows. -/
def Flight.publishes : Flight → List Batch
  | .reading st head _ seq exchanging sdoValues rows =>
    if seq = head ∧ rows ≠ [] then
      [⟨st.topic, st.epoch, st.progress.plans, exchanging, sdoValues, rows⟩]
    else []
  | _ => []

/-- The registration keeps what the flush reached, if it is still the same one. -/
def commitEntry (st : FlushState) (e : Entry) : Entry :=
  if e.config.topic = st.topic ∧ e.epoch = st.epoch then { e with progress := st.progress } else e

def Flight.commit (entries : List Entry) : Flight → List Entry
  | .flushed st => entries.map (commitEntry st)
  | _ => entries

def State.flush (s : State) (f : ℕ) : State :=
  { s with
    flights := Function.update s.flights f ((s.flights f).step s.dm)
    refCount := (s.flights f).count s.refCount
    entries := (s.flights f).commit s.entries
    published := s.published ++ (s.flights f).publishes
    warnings := s.warnings ++ (s.flights f).warns s.dm.ring }

/-- Room for the rows is reserved. A negative span is an enormous one. -/
def Flight.prepare (exchanging : ℕ → Bool) (sdoValues : ℕ → Option DeviceParameterValue) :
    Flight → Flight
  | .sampling st head base =>
    if head < st.progress.cursor then .threw st
    else .reading st head base st.progress.cursor exchanging sdoValues []
  | fl => fl

def State.take (s : State) (f : ℕ) (topic : String) : State :=
  match s.findEntry topic with
  | none => s
  | some e => s.setFlight f (.taken (e.copy (s.dm.ring.base + s.dm.ring.head)))

/-! ### The system -/

def Creator.Classifying : Creator → Prop
  | .classifying _ _ _ _ _ _ => True
  | _ => False

def Creator.Classified : Creator → Prop
  | .classified _ _ => True
  | _ => False

/-- A device that is there and was never enumerated is worth one more try. -/
def Creator.Retries (dm : DeviceManager.State) : Creator → Prop
  | .unsourced _ _ o _ retried =>
    retried = false ∧ o.devicePosition ∈ dm.currentSet.devices ∧ ¬ HasParameters dm o.devicePosition
  | _ => False

def Creator.Refused (dm : DeviceManager.State) : Creator → Prop
  | .unsourced config plans o todo retried =>
    ¬ (Creator.unsourced config plans o todo retried).Retries dm
  | _ => False

def Flight.Idle : Flight → Prop
  | .idle => True
  | _ => False

def Flight.Sampling : Flight → Prop
  | .sampling _ _ _ => True
  | _ => False

/-- What a flush waits for: the recorder's lock for each load from the ring, `mutex_` to commit. -/
def Flight.CanStep (s : State) : Flight → Prop
  | .idle | .sampling _ _ _ | .threw _ => False
  | .taken _ | .recapturing _ _ _ _ _ _ | .deciding _ _ _ _ _ _ => True
  | .captured _ | .measured _ _ _ => ¬ RecorderHeld s.dm.bus
  | .reading _ head _ seq _ _ _ => seq = head ∨ ¬ RecorderHeld s.dm.bus
  | .flushed _ => s.mutex = .free

def Enabled (s : State) : Action → Prop
  | .dm a => DeviceManager.Enabled s.dm a
  | .create t config => s.creators t = .idle ∧ validate config = .ok ()
  | .classify t => (s.creators t).Classifying
  | .enumerated t => (s.creators t).Retries s.dm
  | .refuse t => (s.creators t).Refused s.dm
  | .lock t => (s.creators t).Classified ∧ s.mutex = .free
  | .remove topic => s.mutex = .free ∧ (s.findEntry topic).isSome
  | .mutex => s.mutex ≠ .free
  | .keepFresh _ => True
  | .stopKeepingFresh o => o ∈ s.kept
  | .take f topic => s.mutex = .free ∧ (s.flights f).Idle ∧ (s.findEntry topic).isSome
  | .flush f => (s.flights f).CanStep s
  | .prepare f _ _ => (s.flights f).Sampling

def next (s : State) : Action → State
  | .dm a => { s with dm := DeviceManager.next s.dm a }
  | .create t config => s.setCreator t (Creator.start config [] config.parameters)
  | .classify t => s.setCreator t ((s.creators t).step s.dm)
  | .enumerated t => s.setCreator t (s.creators t).retry
  | .refuse t => s.setCreator t .idle
  | .lock t => s.lock t
  | .remove topic => s.remove topic
  | .mutex => s.mutexStep
  | .keepFresh o => { s with refCount := acquire s.refCount o, kept := o :: s.kept }
  | .stopKeepingFresh o => { s with refCount := release s.refCount o, kept := s.kept.erase o }
  | .take f topic => s.take f topic
  | .flush f => s.flush f
  | .prepare f exchanging sdoValues => s.setFlight f ((s.flights f).prepare exchanging sdoValues)

def system : System State Action := ⟨State.initial, Enabled, next⟩

instance (c : Creator) : Decidable c.Classifying := by
  cases c <;> unfold Creator.Classifying <;> infer_instance

instance (c : Creator) : Decidable c.Classified := by
  cases c <;> unfold Creator.Classified <;> infer_instance

instance (f : Flight) : Decidable f.Idle := by cases f <;> unfold Flight.Idle <;> infer_instance

instance (f : Flight) : Decidable f.Sampling := by
  cases f <;> unfold Flight.Sampling <;> infer_instance

instance (s : State) (f : Flight) : Decidable (f.CanStep s) := by
  cases f <;> unfold Flight.CanStep <;> infer_instance

/-- Only whether a device was ever enumerated is not decided by looking at one object. -/
noncomputable instance (s : State) : (a : Action) → Decidable (system.Enabled s a)
  | .dm a => inferInstanceAs (Decidable (DeviceManager.Enabled s.dm a))
  | .create _ _ => inferInstanceAs (Decidable (_ ∧ _))
  | .classify t => inferInstanceAs (Decidable (s.creators t).Classifying)
  | .enumerated _ | .refuse _ => Classical.propDecidable _
  | .lock _ => inferInstanceAs (Decidable (_ ∧ _))
  | .remove _ => inferInstanceAs (Decidable (_ ∧ _))
  | .mutex => inferInstanceAs (Decidable (s.mutex ≠ .free))
  | .keepFresh _ => inferInstanceAs (Decidable True)
  | .stopKeepingFresh o => inferInstanceAs (Decidable (o ∈ s.kept))
  | .take _ _ => inferInstanceAs (Decidable (_ ∧ _ ∧ _))
  | .flush f => inferInstanceAs (Decidable ((s.flights f).CanStep s))
  | .prepare f _ _ => inferInstanceAs (Decidable (s.flights f).Sampling)

/-- Nothing in flight on the control plane or in the monitoring manager. -/
structure AtRest (s : State) : Prop where
  dm : Quiescent s.dm
  mutex : s.mutex = .free
  creators : ∀ t, s.creators t = .idle
  flights : ∀ f, s.flights f = .idle

/-! ### Schedules -/

def targetPosition : Object := ⟨1, 0x607A, 0⟩

def targetPositionType : Dictionary := fun index subindex =>
  if index = 0x607A ∧ subindex = 0 then some 0x0004 else none

/-- The drive is enumerated before anything is mapped. -/
def enumerateDrive : List DeviceManager.Action :=
  [.pauser 0 (.pause ⟨4, 1⟩), .pauser 0 (.waitOver ⟨4, 1⟩ none), .pauser 0 (.check ⟨4, 1⟩ none),
    .pauser 0 (.swap ⟨4, 1⟩ none true targetPositionType), .pauser 0 (.resume ⟨4, 1⟩ none true)]

/-- A bus is brought up, its drive enumerated and its target position mapped. -/
def setUp : List Action := (bringUp ++ enumerateDrive ++ remap 6 oneSetpoint).map .dm

def position : Config := ⟨"position", 10, [targetPosition]⟩

/-- A monitoring of the target position is created from the image. -/
def createPosition : List Action :=
  [.create 0 position, .classify 0, .classify 0, .classify 0, .lock 0, .mutex, .mutex]

/-- The first flush of the monitoring primes its cursor. -/
def primePosition : List Action := [.take 0 "position", .flush 0, .flush 0, .flush 0]

/-- A flush of the monitoring, with as many steps before and after it prepares its rows. -/
def flushPosition (before after : ℕ) : List Action :=
  .take 0 "position" :: List.replicate before (.flush 0) ++
  .prepare 0 (fun _ => true) (fun _ => none) :: List.replicate after (.flush 0)

/-- The target position, further back in the image. -/
def movedSetpoint : ProcessImage := ⟨[⟨1, 0x607A, 0, 32, 32, none⟩], [], 8, 0, 2⟩

/-- The mapping after the object has been left out of it. -/
def nothingMapped : ProcessImage := ⟨[], [], 4, 0, 2⟩

def unmapPosition : List Action := (remap 8 nothingMapped).map .dm

end MotionMaster.Monitoring
