import MotionMaster.Lib.Interleaving
import MotionMaster.ProcessImage.Compose

/-!
# Setpoints

A write goes to the cell the device's current map names. The frame is composed from the cells the
image captured when it was built. The bus here takes whole operations one at a time: enumerations,
re-maps, writes, state changes and exchanges, in any order.
-/

namespace MotionMaster.Setpoint

open Interleaving Bytes Arena

/-- The AL state is the low nibble of the status, and bit 4 the error flag. -/
def alState (alStatus : BitVec 16) : ℕ := (alStatus &&& 0x000F).toNat

def alHasError (alStatus : BitVec 16) : Bool := alStatus &&& 0x0010 ≠ 0

def kPreOp : ℕ := 0x02

def kSafeOp : ℕ := 0x04

def kOp : ℕ := 0x08

def exchangesProcessData (alStatus : BitVec 16) : Bool :=
  ¬ alHasError alStatus ∧ (alState alStatus = kSafeOp ∨ alState alStatus = kOp)

def mailboxActive (alStatus : BitVec 16) : Bool :=
  alState alStatus = kPreOp ∨ alState alStatus = kSafeOp ∨ alState alStatus = kOp

structure State where
  count : ℕ
  devices : ℕ → Device
  alStatus : ℕ → BitVec 16
  image : Option ProcessImage

namespace State

variable (s : State)

def setDevice (slavePosition : ℕ) (d : Device) : State :=
  { s with devices := Function.update s.devices slavePosition d }

def exchanging (slavePosition : ℕ) : Bool := exchangesProcessData (s.alStatus slavePosition)

def isOutputMapped (slavePosition index subindex : ℕ) : Bool :=
  match s.image with
  | none => false
  | some image => (image.find slavePosition index subindex).any (·.isOutput)

/-- The gate of the output-mapped branch of a write. -/
def Stages (slavePosition index subindex : ℕ) : Prop :=
  s.exchanging slavePosition = true ∧ s.isOutputMapped slavePosition index subindex = true

def deviceList : List Device := (List.range' 1 s.count).map s.devices

/-- `Device::writeParameter` of the device at a position. -/
def writeParameter (fp : FloatingPoint) (slavePosition index subindex : ℕ)
    (download : List (BitVec 8) → Except String Unit) (v : DeviceParameterValue) :
    Device.WriteResult :=
  (s.devices slavePosition).writeParameter fp
    (s.exchanging slavePosition && s.isOutputMapped slavePosition index subindex)
    (mailboxActive (s.alStatus slavePosition)) download index subindex v

def mapped (outputs inputs : ℕ → List (BitVec 32)) : State :=
  { s with
    devices := fun p =>
      { s.devices p with flatPdoMapping := readFlatPdoMapping (outputs p) (inputs p) } }

/-- The image is built from the driver's layout. A failed build leaves nothing published. -/
def remap (outputs inputs : ℕ → List (BitVec 32)) (layout : PdoLayout) : State :=
  { s.mapped outputs inputs with
    image := (buildProcessImage layout (s.mapped outputs inputs).deviceList).toOption }

def frame : List (BitVec 8) :=
  match s.image with
  | none => []
  | some image => compose s.devices image

end State

inductive Action where
  | setAlStatus (slavePosition : ℕ) (alStatus : BitVec 16)
  | enumerate (slavePosition : ℕ) (definitions : List DeviceParameter)
  | remap (outputs inputs : ℕ → List (BitVec 32)) (layout : PdoLayout)
  | teardown
  | write (slavePosition index subindex : ℕ)
      (download : List (BitVec 8) → Except String Unit) (v : DeviceParameterValue)
  | exchange (inputs : List (BitVec 8))

def Enabled (s : State) : Action → Prop
  | .setAlStatus p _ | .enumerate p _ | .write p _ _ _ _ => 1 ≤ p ∧ p ≤ s.count
  | .remap _ _ layout => layout.Separates
  | .teardown => True
  | .exchange _ => s.image.isSome

instance (s : State) (a : Action) : Decidable (Enabled s a) := by
  cases a <;> unfold Enabled <;> infer_instance

def next (fp : FloatingPoint) (s : State) : Action → State
  | .setAlStatus p alStatus => { s with alStatus := Function.update s.alStatus p alStatus }
  | .enumerate p definitions => s.setDevice p ((s.devices p).publishParameters definitions)
  | .remap outputs inputs layout => s.remap outputs inputs layout
  | .teardown => { s with image := none }
  | .write p index subindex download v =>
    s.setDevice p (s.writeParameter fp p index subindex download v).device
  | .exchange inputs =>
    match s.image with
    | none => s
    | some image =>
      { s with devices := decodeInputsIntoCells s.exchanging inputs s.devices image }

/-- The bus after a scan that found one device per vendor. -/
def State.initial (vendorIds : List ℕ) : State where
  count := vendorIds.length
  devices := fun p => ⟨p, vendorIds.getD (p - 1) 0, [], fun _ => none, ⟨[], [], 0, 0⟩⟩
  alStatus := fun _ => 0x0002
  image := none

abbrev system (fp : FloatingPoint) (vendorIds : List ℕ) : System State Action :=
  ⟨State.initial vendorIds, Enabled, next fp⟩

/-! ### Staging a batch -/

structure OutputStageRequest where
  slavePosition : ℕ
  index : ℕ
  subindex : ℕ
  value : DeviceParameterValue

structure OutputStageResult where
  slavePosition : ℕ
  index : ℕ
  subindex : ℕ
  staged : Bool
  error : String

def notExchangingText : String :=
  "device not exchanging (not in SAFE-OP/OP) — value written but not cyclically sent"

def notOutputMappedText : String :=
  "object not output-mapped — value written via SDO, not cyclically sent"

/-- One item of `stageProcessDataOutputs`. -/
def stageOutput (fp : FloatingPoint) (download : List (BitVec 8) → Except String Unit) (s : State)
    (req : OutputStageRequest) : OutputStageResult × State :=
  let r := OutputStageResult.mk req.slavePosition req.index req.subindex
  if 1 ≤ req.slavePosition ∧ req.slavePosition ≤ s.count then
    let w := s.writeParameter fp req.slavePosition req.index req.subindex download req.value
    let s' := s.setDevice req.slavePosition w.device
    match w.result with
    | .error e => (r false e, s')
    | .ok _ =>
      if s.isOutputMapped req.slavePosition req.index req.subindex
          && s.exchanging req.slavePosition then (r true "", s')
      else if s.exchanging req.slavePosition then (r false notOutputMappedText, s')
      else (r false notExchangingText, s')
  else (r false ("device " ++ toString req.slavePosition ++ " not found"), s)

def stageProcessDataOutputs (fp : FloatingPoint)
    (download : List (BitVec 8) → Except String Unit) :
    State → List OutputStageRequest → List OutputStageResult × State
  | s, [] => ([], s)
  | s, req :: requests =>
    let r := stageOutput fp download s req
    let rest := stageProcessDataOutputs fp download r.2 requests
    (r.1 :: rest.1, rest.2)

/-- Reported as staged is exactly written through the output-mapped branch. -/
theorem staged_stageOutput (fp : FloatingPoint) (download : List (BitVec 8) → Except String Unit)
    {s : State} {req : OutputStageRequest}
    (hp : 1 ≤ req.slavePosition ∧ req.slavePosition ≤ s.count) :
    (stageOutput fp download s req).1.staged = true ↔
      (s.writeParameter fp req.slavePosition req.index req.subindex download req.value).staged =
        true := by
  rw [State.writeParameter, Device.staged_writeParameter, ← State.writeParameter, stageOutput,
    if_pos hp]
  dsimp only
  cases (s.writeParameter fp req.slavePosition req.index req.subindex download
      req.value).result with
  | error e => simp
  | ok u =>
    cases s.isOutputMapped req.slavePosition req.index req.subindex <;>
      cases s.exchanging req.slavePosition <;> simp

/-! ### What is claimed of a staged write -/

/-- In every field of the object the next frame has the low bits of the encoding. -/
def Carries (s : State) (slavePosition index subindex : ℕ) (bytes : List (BitVec 8)) : Prop :=
  ∀ image, s.image = some image → ∀ e ∈ image.outputs, e.Matches slavePosition index subindex →
    ∀ j < e.bitLength, bit s.frame (e.bitOffset + j) = bit bytes j

/-- Steps that do not write the object and keep the image: until the next exchange. -/
def Spares (slavePosition index subindex : ℕ) (_ : State) : Action → Prop
  | .setAlStatus _ _ => True
  | .enumerate p definitions => p = slavePosition →
    ∀ definition ∈ definitions, definition.key = (index, subindex) → ¬ definition.WasRead
  | .write p i k _ _ => (p, i, k) ≠ (slavePosition, index, subindex)
  | .remap _ _ _ | .teardown | .exchange _ => False

/-- Every value a write stages is sent, with nothing else written to the object in between. -/
def SentWhenStaged (fp : FloatingPoint) (vendorIds : List ℕ) (s : State)
    (slavePosition index subindex : ℕ) : Prop :=
  ∀ p v download bytes, (s.devices slavePosition).parameter index subindex = some p →
    p.encode fp v = .ok bytes →
    (s.writeParameter fp slavePosition index subindex download v).staged = true →
    ∀ actions, (system fp vendorIds).Follows (Spares slavePosition index subindex)
        (next fp s (.write slavePosition index subindex download v)) actions →
      Carries ((system fp vendorIds).run
        (next fp s (.write slavePosition index subindex download v)) actions)
        slavePosition index subindex bytes

/-- The image's pointer is to the cell the current map names, and that cell holds its value as a
scalar. -/
def Bound (s : State) (slavePosition index subindex : ℕ) : Prop :=
  ∀ image k c, s.image = some image →
    (s.devices slavePosition).findParameter index subindex = some k →
    (s.devices slavePosition).cells[k]? = some c →
    ∀ e ∈ image.outputs, e.Matches slavePosition index subindex → 0 < e.bitLength →
      e.parameter = some k ∧ IsScalarDataType c.dataType

/-! ### What every run keeps -/

variable {fp : FloatingPoint} {vendorIds : List ℕ} {s : State} {p : ℕ}

structure Kept (s : State) : Prop where
  position : ∀ p, (s.devices p).slavePosition = p
  keyed : ∀ p, (s.devices p).WellKeyed
  placed : ∀ image, s.image = some image → Placed image

theorem Kept.setDevice (h : Kept s) {d : Device} (hp : d.slavePosition = p) (hd : d.WellKeyed) :
    Kept (s.setDevice p d) := by
  refine ⟨fun q => ?_, fun q => ?_, h.placed⟩ <;> by_cases hq : q = p
  · subst hq
    simpa [State.setDevice] using hp
  · simpa [State.setDevice, hq] using h.position q
  · subst hq
    simpa [State.setDevice] using hd
  · simpa [State.setDevice, hq] using h.keyed q

theorem wellKeyed_setCell {d : Device} (h : d.WellKeyed) {k : ℕ} {c q : DeviceParameter}
    (hc : d.cells[k]? = some c) (hq : q.key = c.key) (state : SyncState) :
    (d.setCell k q state).WellKeyed :=
  h.extend (extends_set hc hq)

theorem kept_write (h : Kept s) (outputMapped mailbox : Bool)
    (download : List (BitVec 8) → Except String Unit) (index subindex : ℕ)
    (v : DeviceParameterValue) :
    Kept (s.setDevice p
      ((s.devices p).writeParameter fp outputMapped mailbox download index subindex v).device) := by
  rcases Device.writeParameter_cases fp (s.devices p) outputMapped mailbox download index subindex v
    with hd | ⟨k, c, bytes, state, -, -, hc, hd⟩ <;> rw [hd]
  · exact h.setDevice (h.position p) (h.keyed p)
  · refine h.setDevice (h.position p) (wellKeyed_setCell (h.keyed p) hc ?_ state)
    exact congrArg Prod.fst (c.schema_setRawValue bytes)

theorem nodup_deviceList (h : ∀ p, (s.devices p).slavePosition = p) :
    (s.deviceList.map (·.slavePosition)).Nodup := by
  have : (Device.slavePosition ∘ s.devices) = id := funext h
  simpa [State.deviceList, List.map_map, this] using List.nodup_range'

theorem kept_remap (h : Kept s) {outputs inputs : ℕ → List (BitVec 32)} {layout : PdoLayout}
    (hl : layout.Separates) : Kept (s.remap outputs inputs layout) := by
  refine ⟨h.position, h.keyed, fun image hi => ?_⟩
  simp only [State.remap, Except.toOption] at hi
  split at hi
  · rename_i built hb
    cases hi
    have hn : ((s.mapped outputs inputs).deviceList.map (·.slavePosition)).Nodup :=
      nodup_deviceList h.position
    refine (buildProcessImage_spec hl hn ?_ hb).1
    intro d hd
    obtain ⟨p, -, rfl⟩ := List.mem_map.mp hd
    exact ⟨_, _, rfl⟩
  · cases hi

variable {devices : ℕ → Device}

theorem kept_decodeOne (exchanging : ℕ → Bool) (inputs : List (BitVec 8))
    (e : ProcessImageEntry)
    (h : ∀ p, (devices p).slavePosition = p ∧ (devices p).WellKeyed) (p : ℕ) :
    (decodeOne exchanging inputs devices e p).slavePosition = p ∧
      (decodeOne exchanging inputs devices e p).WellKeyed := by
  unfold decodeOne
  cases e.parameter with
  | none => exact h p
  | some k =>
    by_cases hx : exchanging e.slavePosition = true
    · simp only [hx, if_true, storeBits]
      by_cases hp : p = e.slavePosition
      · subst hp
        rw [Function.update_self]
        exact ⟨(h _).1, (h _).2.extend (extends_modify _ _ fun _ => rfl)⟩
      · rw [Function.update_of_ne hp]
        exact h p
    · simp only [hx]
      exact h p

theorem kept_decode (exchanging : ℕ → Bool) (inputs : List (BitVec 8))
    (es : List ProcessImageEntry)
    (h : ∀ p, (devices p).slavePosition = p ∧ (devices p).WellKeyed) (p : ℕ) :
    (es.foldl (decodeOne exchanging inputs) devices p).slavePosition = p ∧
      (es.foldl (decodeOne exchanging inputs) devices p).WellKeyed := by
  induction es generalizing devices with
  | nil => exact h p
  | cons e es ih => exact ih fun q => kept_decodeOne exchanging inputs e h q

theorem kept_initial : Kept (State.initial vendorIds) :=
  ⟨fun _ => rfl, fun _ => keyed_empty, by rintro image ⟨⟩⟩

theorem kept_step {a : Action} (h : Kept s) (he : Enabled s a) : Kept (next fp s a) := by
  cases a with
  | setAlStatus p alStatus => exact ⟨h.position, h.keyed, h.placed⟩
  | enumerate p definitions =>
    exact h.setDevice (h.position p) (Device.wellKeyed_publishParameters (h.keyed p) definitions)
  | remap outputs inputs layout => exact kept_remap h he
  | teardown => exact ⟨h.position, h.keyed, by rintro image ⟨⟩⟩
  | write p index subindex download v => exact kept_write h _ _ _ _ _ _
  | exchange inputs =>
    simp only [next]
    split
    · exact h
    · rename_i image hi
      have hd := kept_decode s.exchanging inputs image.inputs fun p => ⟨h.position p, h.keyed p⟩
      exact ⟨fun p => (hd p).1, fun p => (hd p).2, h.placed⟩

theorem kept_reachable (h : (system fp vendorIds).Reachable s) : Kept s :=
  h.invariant kept_initial fun _ _ hk he _ => kept_step hk he

/-! ### The cell a staged value waits in -/

variable {index subindex k : ℕ} {image : ProcessImage} {c q : DeviceParameter}

theorem loadBits_setCell (hc : (devices p).cells[k]? = some c)
    (state : SyncState) (e : ProcessImageEntry) :
    loadBits (Function.update devices p ((devices p).setCell k q state)) e =
      if e.slavePosition = p ∧ e.parameter = some k then some q.bits else loadBits devices e := by
  have hk : k < (devices p).cells.length := (List.getElem?_eq_some_iff.mp hc).1
  unfold loadBits
  by_cases hp : e.slavePosition = p
  · subst hp
    cases he : e.parameter with
    | none => simp
    | some n =>
      by_cases hn : n = k
      · simp [Device.setCell, hn, hk]
      · simp [Device.setCell, hn, List.getElem?_set_ne (Ne.symm hn)]
  · simp [hp]

structure Waiting (p index subindex k : ℕ) (image : ProcessImage) (bits : BitVec 64) (s : State) :
    Prop where
  kept : Kept s
  image : s.image = some image
  cell : ∃ c, (s.devices p).cells[k]? = some c ∧ c.key = (index, subindex) ∧ c.bits = bits

variable {bits : BitVec 64}

theorem waiting_enumerate (h : Waiting p index subindex k image bits s) (r : ℕ)
    {definitions : List DeviceParameter}
    (hr : r = p → ∀ d ∈ definitions, d.key = (index, subindex) → ¬ d.WasRead) :
    Waiting p index subindex k image bits
      (s.setDevice r ((s.devices r).publishParameters definitions)) := by
  obtain ⟨hk, hi, c, hc, hkey, hb⟩ := h
  refine ⟨?_, hi, ?_⟩
  · exact hk.setDevice (hk.position r) (Device.wellKeyed_publishParameters (hk.keyed r) definitions)
  · by_cases hrp : r = p
    · subst hrp
      obtain ⟨c', hc', hs, hb'⟩ := Device.bits_publishParameters (hk.keyed r) hc
        fun d hd he => hr rfl d hd (he.trans hkey)
      have hkey' : c'.key = c.key := congrArg Prod.fst hs
      exact ⟨c', by simpa [State.setDevice] using hc', hkey'.trans hkey, hb'.trans hb⟩
    · exact ⟨c, by simpa [State.setDevice, Ne.symm hrp] using hc, hkey, hb⟩

theorem waiting_write (h : Waiting p index subindex k image bits s) {r i j : ℕ}
    (hne : (r, i, j) ≠ (p, index, subindex)) (outputMapped mailbox : Bool)
    (download : List (BitVec 8) → Except String Unit) (v : DeviceParameterValue) :
    Waiting p index subindex k image bits (s.setDevice r
      ((s.devices r).writeParameter fp outputMapped mailbox download i j v).device) := by
  refine ⟨kept_write h.kept _ _ _ _ _ _, h.image, ?_⟩
  obtain ⟨c, hc, hkey, hb⟩ := h.cell
  refine ⟨c, ?_, hkey, hb⟩
  by_cases hr : r = p
  · subst hr
    rcases Device.writeParameter_cases fp (s.devices r) outputMapped mailbox download i j v
      with hd | ⟨n, c', bytes, state, -, hn, hc', hd⟩ <;> rw [hd]
    · simpa [State.setDevice] using hc
    · -- another object has another cell
      have hnk : n ≠ k := by
        rintro rfl
        have he := (h.kept.keyed r).eq_key hn hc
        rw [hkey] at he
        exact hne (by rw [he])
      simpa [State.setDevice, Device.setCell, List.getElem?_set_ne hnk] using hc
  · simpa [State.setDevice, Ne.symm hr] using hc

theorem waiting_step {a : Action} (h : Waiting p index subindex k image bits s)
    (hs : Spares p index subindex s a) : Waiting p index subindex k image bits (next fp s a) := by
  cases a with
  | setAlStatus r alStatus =>
    exact ⟨⟨h.kept.position, h.kept.keyed, h.kept.placed⟩, h.image, h.cell⟩
  | enumerate r definitions => exact waiting_enumerate h r hs
  | write r i j download v => exact waiting_write h hs _ _ _ _
  | remap outputs inputs layout => exact hs.elim
  | teardown => exact hs.elim
  | exchange inputs => exact hs.elim

theorem waiting_follows {actions : List Action} (h : Waiting p index subindex k image bits s)
    (hf : (system fp vendorIds).Follows (Spares p index subindex) s actions) :
    Waiting p index subindex k image bits ((system fp vendorIds).run s actions) :=
  hf.invariant h fun _ _ hw _ hs => waiting_step hw hs

/-- A field bound to the waiting cell is sent with its value. -/
theorem Waiting.bit_frame (h : Waiting p index subindex k image bits s) {e : ProcessImageEntry}
    (he : e ∈ image.outputs) (hm : e.Matches p index subindex) (hp : e.parameter = some k) {j : ℕ}
    (hj : j < e.bitLength) : bit s.frame (e.bitOffset + j) = bit (unpackLeBits bits 8) j := by
  obtain ⟨c, hc, -, hb⟩ := h.cell
  have hl : loadBits s.devices e = some bits := by simp [loadBits, hp, hm.1, hc, hb]
  rw [State.frame, h.image, bit_compose (h.kept.placed image h.image) he hj, sentBit, hl]

theorem write_staged (hs : s.Stages p index subindex)
    (hk : (s.devices p).findParameter index subindex = some k)
    (hc : (s.devices p).cells[k]? = some c) (download : List (BitVec 8) → Except String Unit)
    {v : DeviceParameterValue} {bytes : List (BitVec 8)} (he : c.encode fp v = .ok bytes) :
    s.writeParameter fp p index subindex download v =
      ⟨.ok (), (s.devices p).setCell k (c.setRawValue bytes) .synced, true⟩ := by
  rw [State.writeParameter, hs.1, hs.2]
  exact Device.writeParameter_staged fp hk hc _ download he

theorem State.Stages.image_eq (hs : s.Stages p index subindex) : ∃ image, s.image = some image := by
  have hm := hs.2
  unfold State.isOutputMapped at hm
  cases hi : s.image with
  | none => simp [hi] at hm
  | some image => exact ⟨image, rfl⟩

theorem sentWhenStaged_of_bound (hr : Kept s) (hs : s.Stages p index subindex)
    (hb : Bound s p index subindex) : SentWhenStaged fp vendorIds s p index subindex := by
  intro c v download bytes hp he _ actions hf image hi e hem hmt j hj
  obtain ⟨k, hk, hc⟩ := Device.parameter_eq_some hp
  have hlen : k < (s.devices p).cells.length := (List.getElem?_eq_some_iff.mp hc).1
  obtain ⟨image₀, hi₀⟩ := hs.image_eq
  have hw : Waiting p index subindex k image₀ (c.setRawValue bytes).bits
      (next fp s (.write p index subindex download v)) := by
    refine ⟨kept_write hr _ _ _ _ _ _, hi₀, { c.setRawValue bytes with syncState := .synced }, ?_,
      ?_, rfl⟩
    · simp [next, write_staged hs hk hc download he, State.setDevice, Device.setCell, hlen]
    · have hkey : (c.setRawValue bytes).key = c.key :=
        congrArg Prod.fst (c.schema_setRawValue bytes)
      exact hkey.trans ((hr.keyed p).eq_key hk hc)
  have hw' := waiting_follows hw hf
  obtain rfl : image₀ = image := Option.some.inj (hw'.image.symm.trans hi)
  obtain ⟨hpar, hscalar⟩ := hb image₀ k c hi₀ hk hc e hem hmt (by omega)
  rw [hw'.bit_frame hem hmt hpar hj, DeviceParameter.bits_setRawValue hscalar]
  exact bit_unpack_pack bytes (DeviceParameter.length_encode_le fp hscalar he) j

theorem bound_of_sentWhenStaged (hr : Kept s) (hs : s.Stages p index subindex)
    (h : SentWhenStaged fp vendorIds s p index subindex) : Bound s p index subindex := by
  intro image k c hi hk hc e hem hmt hpos
  -- whatever first bit is asked for, the field sends it
  have hbit : ∀ b, ∃ bytes, sentBit (Function.update s.devices p
      ((s.devices p).setCell k (c.setRawValue bytes) .synced)) e 0 = b := by
    intro b
    obtain ⟨v, bytes, he, rfl⟩ := DeviceParameter.exists_encode_bit fp c b
    have hst := write_staged hs hk hc (fun _ => .ok ()) he
    have hp : (s.devices p).parameter index subindex = some c := by
      rw [Device.parameter, hk, Option.bind_some, hc]
    have hsent := h c v (fun _ => .ok ()) bytes hp he (by rw [hst]) [] trivial image hi e hem hmt 0
      hpos
    refine ⟨bytes, ?_⟩
    rw [← hsent, ← bit_compose (hr.placed image hi) hem hpos]
    simp [System.run, State.frame, next, State.setDevice, hst, hi]
  by_contra hn
  -- otherwise the field does not depend on the value written
  have hsame : ∀ bytes, sentBit (Function.update s.devices p
      ((s.devices p).setCell k (c.setRawValue bytes) .synced)) e 0 = sentBit s.devices e 0 := by
    intro bytes
    unfold sentBit
    rw [loadBits_setCell hc]
    split_ifs with hek
    · have hns : ¬ IsScalarDataType c.dataType := fun hsc => hn ⟨hek.2, hsc⟩
      have hl : loadBits s.devices e = some c.bits := by simp [loadBits, hek.1, hek.2, hc]
      rw [DeviceParameter.bits_setRawValue_of_not hns, hl]
    · rfl
  obtain ⟨bytes₀, h₀⟩ := hbit false
  obtain ⟨bytes₁, h₁⟩ := hbit true
  rw [hsame] at h₀ h₁
  rw [h₀] at h₁
  cases h₁

/-- A staged setpoint is sent exactly when the image points to the cell that was written and the
cell keeps its value where the composer looks. -/
theorem sentWhenStaged_iff_bound (h : (system fp vendorIds).Reachable s)
    (hs : s.Stages p index subindex) :
    SentWhenStaged fp vendorIds s p index subindex ↔ Bound s p index subindex :=
  ⟨bound_of_sentWhenStaged (kept_reachable h) hs, sentWhenStaged_of_bound (kept_reachable h) hs⟩

/-! ### One drive, mapped after its dictionary was read and before -/

def targetPosition : DeviceParameter :=
  ⟨0x607A, 0, 0x0004, 32, 0, [], .unknown, {}, .objectDictionary⟩

def remapTarget : Action :=
  .remap (fun _ => [0x607A0020]) (fun _ => []) ⟨4, 0, [⟨1, 0, 4, 0, 0⟩], 2⟩

def enumerateThenMap : List Action :=
  [.setAlStatus 1 0x0008, .enumerate 1 [targetPosition], remapTarget]

def mapThenEnumerate : List Action :=
  [.setAlStatus 1 0x0008, remapTarget, .enumerate 1 [targetPosition]]

def drive (actions : List Action) : State :=
  (system plainText [0x22D2]).run (State.initial [0x22D2]) actions

theorem enumerateThenMap_bound : Bound (drive enumerateThenMap) 1 0x607A 0 := by
  intro image k c hi hk hc e he _ _
  cases hi
  cases hk
  cases hc
  have hmem : e = ⟨1, 0x607A, 0, 32, 0, some 0⟩ := List.mem_singleton.mp he
  rw [hmem]
  exact ⟨rfl, .int32, rfl⟩

theorem enumerateThenMap_sent :
    (drive enumerateThenMap).Stages 1 0x607A 0 ∧
      SentWhenStaged plainText [0x22D2] (drive enumerateThenMap) 1 0x607A 0 := by
  have hs : (drive enumerateThenMap).Stages 1 0x607A 0 := ⟨by decide, by decide⟩
  have hr : (system plainText [0x22D2]).Reachable (drive enumerateThenMap) :=
    ⟨enumerateThenMap, by decide, rfl⟩
  exact ⟨hs, (sentWhenStaged_iff_bound hr hs).mpr enumerateThenMap_bound⟩

/-- The image was built before the dictionary was read: the write is staged and nothing is sent. -/
theorem mapThenEnumerate_not_sent :
    (system plainText [0x22D2]).Reachable (drive mapThenEnumerate) ∧
      (drive mapThenEnumerate).Stages 1 0x607A 0 ∧
      ¬ SentWhenStaged plainText [0x22D2] (drive mapThenEnumerate) 1 0x607A 0 := by
  refine ⟨⟨mapThenEnumerate, by decide, rfl⟩, ⟨by decide, by decide⟩, fun h => ?_⟩
  have hbit := h targetPosition (.number .int32 1) (fun _ => .ok ()) [1, 0, 0, 0] rfl rfl rfl []
    trivial _ rfl ⟨1, 0x607A, 0, 32, 0, none⟩ (List.mem_singleton.mpr rfl) (by decide) 0 (by decide)
  revert hbit
  decide

end MotionMaster.Setpoint
