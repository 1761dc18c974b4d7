import MotionMaster.Device.Value
import MotionMaster.Lib.Arena

/-!
# A device's parameters

The cells a device owns, the map from objects to cells that an enumeration replaces, and
`Device::writeParameter`.
-/

namespace MotionMaster

open Bytes Arena

variable (fp : FloatingPoint)

/-- Freshness of a value relative to the device. -/
inductive SyncState where
  | unknown | synced | pending | stale
  deriving DecidableEq, Repr

/-- Where a definition came from: the object dictionary of a CoE slave, or else the SII. -/
inductive ParameterOrigin where
  | objectDictionary | sii
  deriving DecidableEq

/-- What a definition says of its object beside the type, and an enumeration writes into the cell it
keeps. -/
structure Metadata where
  name : String := ""
  objectCode : ℕ := 0
  access : ℕ := 0
  unit : Option ℕ := none
  unitSymbol : String := ""
  defaultValue : Option DeviceParameterValue := none
  minValue : Option DeviceParameterValue := none
  maxValue : Option DeviceParameterValue := none
  description : String := ""
  options : List (Int × String) := []
  esiFile : String := ""
  deriving DecidableEq

/-- A cell. A scalar lives in `bits`, anything else in `rawValue`. -/
structure DeviceParameter where
  index : ℕ
  subindex : ℕ
  dataType : ℕ
  bitLength : ℕ
  bits : BitVec 64
  rawValue : List (BitVec 8)
  syncState : SyncState
  metadata : Metadata
  origin : ParameterOrigin := .objectDictionary
  deriving DecidableEq

namespace DeviceParameter

def key (p : DeviceParameter) : ℕ × ℕ := (p.index, p.subindex)

/-- What the real-time thread reads of a cell without a lock: it never changes. -/
def schema (p : DeviceParameter) : (ℕ × ℕ) × ℕ × ℕ := (p.key, p.dataType, p.bitLength)

def encode (p : DeviceParameter) (v : DeviceParameterValue) : Except String (List (BitVec 8)) :=
  coerce fp p.index p.subindex p.dataType v >>= encodeSdoBytes p.dataType

def setRawValue (p : DeviceParameter) (bytes : List (BitVec 8)) : DeviceParameter :=
  if IsScalarDataType p.dataType then { p with bits := packLeBits bytes }
  else { p with rawValue := bytes }

def setValue (p : DeviceParameter) (v : DeviceParameterValue) : Except String DeviceParameter :=
  (p.encode fp v).map p.setRawValue

def rawValueBytes (p : DeviceParameter) : List (BitVec 8) :=
  match alternative p.dataType with
  | .number t => unpackLeBits p.bits t.bytes
  | .string | .bytes => p.rawValue

/-- The value as a reader sees it, rebuilt from the stored bytes. -/
def currentValue (p : DeviceParameter) : DeviceParameterValue :=
  let stored := if IsScalarDataType p.dataType then unpackLeBits p.bits 8 else p.rawValue
  match decodeSdoBytes p.dataType stored with
  | .ok v => v
  | .error _ => defaultValueForDataType p.dataType

/-- A failed read keeps the value and marks it. -/
def markReadFailed (p : DeviceParameter) : DeviceParameter :=
  if p.syncState = .synced then { p with syncState := .stale } else p

def describe (p definition : DeviceParameter) : DeviceParameter :=
  { p with metadata := definition.metadata }

/-- What an enumeration does to the cell it reuses: a value is taken only when one was read. -/
def adopt (p definition : DeviceParameter) : DeviceParameter :=
  if definition.syncState = .stale then (p.describe definition).markReadFailed
  else if definition.syncState ≠ .unknown then
    { p.describe definition with
      bits := definition.bits
      rawValue := definition.rawValue
      syncState := definition.syncState }
  else p.describe definition

/-- A new cell has no earlier value to be stale. -/
def fresh (definition : DeviceParameter) : DeviceParameter :=
  if definition.syncState = .stale then { definition with syncState := .unknown } else definition

/-- The enumeration read a value for the object. -/
def WasRead (definition : DeviceParameter) : Prop :=
  definition.syncState ≠ .unknown ∧ definition.syncState ≠ .stale

@[simp] theorem schema_setRawValue (p : DeviceParameter) (bytes : List (BitVec 8)) :
    (p.setRawValue bytes).schema = p.schema := by
  unfold setRawValue
  split <;> rfl

@[simp] theorem dataType_setRawValue (p : DeviceParameter) (bytes : List (BitVec 8)) :
    (p.setRawValue bytes).dataType = p.dataType :=
  congrArg (fun x => x.2.1) (p.schema_setRawValue bytes)

@[simp] theorem schema_adopt (p definition : DeviceParameter) :
    (p.adopt definition).schema = p.schema := by
  unfold adopt markReadFailed describe
  split_ifs <;> rfl

@[simp] theorem key_fresh (definition : DeviceParameter) :
    definition.fresh.key = definition.key := by
  unfold fresh
  split <;> rfl

variable {p : DeviceParameter}

/-- A kept cell keeps its value unless the enumeration read one. -/
theorem value_adopt {definition : DeviceParameter} (h : ¬ definition.WasRead) :
    (p.adopt definition).bits = p.bits ∧ (p.adopt definition).rawValue = p.rawValue := by
  unfold adopt markReadFailed describe
  split_ifs with hs hp hu
  · exact ⟨rfl, rfl⟩
  · exact ⟨rfl, rfl⟩
  · exact absurd ⟨hu, hs⟩ h
  · exact ⟨rfl, rfl⟩

theorem metadata_adopt (p definition : DeviceParameter) :
    (p.adopt definition).metadata = definition.metadata := by
  unfold adopt markReadFailed describe
  split_ifs <;> rfl

theorem schema_fresh (definition : DeviceParameter) :
    definition.fresh.schema = definition.schema := by
  unfold fresh
  split <;> rfl

theorem metadata_fresh (definition : DeviceParameter) :
    definition.fresh.metadata = definition.metadata := by
  unfold fresh
  split <;> rfl

theorem bits_setRawValue (h : IsScalarDataType p.dataType)
    (bytes : List (BitVec 8)) : (p.setRawValue bytes).bits = packLeBits bytes := by
  rw [setRawValue, if_pos h]

theorem bits_setRawValue_of_not (h : ¬ IsScalarDataType p.dataType)
    (bytes : List (BitVec 8)) : (p.setRawValue bytes).bits = p.bits := by
  rw [setRawValue, if_neg h]

/-- Every data type takes two values that differ in their first bit. -/
theorem exists_encode_bit (p : DeviceParameter) (b : Bool) :
    ∃ v bytes, p.encode fp v = .ok bytes ∧ bit bytes 0 = b := by
  unfold DeviceParameter.encode coerce encodeSdoBytes
  cases alternative p.dataType with
  | number t =>
    refine ⟨.number t (if b then 1 else 0),
      Bytes.encode t.bytes (if b then 1 else 0 : BitVec t.width).toNat, ?_, ?_⟩
    · simp only [convertExactly_bit]
      simp [bind, Except.bind]
    · cases t <;> cases b <;> rfl
  | string => exact ⟨.string [if b then 1 else 0], _, rfl, by cases b <;> rfl⟩
  | bytes => exact ⟨.bytes [if b then 1 else 0], _, rfl, by cases b <;> rfl⟩

theorem length_encode_le {v : DeviceParameterValue} {bytes : List (BitVec 8)}
    (hs : IsScalarDataType p.dataType) (h : p.encode fp v = .ok bytes) : bytes.length ≤ 8 := by
  obtain ⟨t, ht⟩ := hs
  obtain ⟨w, -, hw⟩ := Except.bind_eq_ok h
  rw [length_encodeSdoBytes ht hw]
  exact t.bytes_le

theorem currentValue_of_not_scalar (hs : ¬ IsScalarDataType p.dataType) :
    decodeSdoBytes p.dataType p.rawValue = .ok p.currentValue := by
  obtain ⟨v, hv⟩ : ∃ v, decodeSdoBytes p.dataType p.rawValue = .ok v :=
    decodeSdoBytes_of_width fun t ht => absurd ⟨t, ht⟩ hs
  simp [currentValue, hs, hv]

theorem currentValue_of_scalar {t : Scalar}
    (ht : alternative p.dataType = .number t) :
    p.currentValue =
      .number t (BitVec.ofNat t.width (Bytes.decode (unpackLeBits p.bits t.bytes))) := by
  have hs : IsScalarDataType p.dataType := ⟨t, ht⟩
  have hl : t.bytes ≤ (unpackLeBits p.bits 8).length := by simpa using t.bytes_le
  simp [currentValue, hs, decodeSdoBytes_number ht hl, take_unpackLeBits _ t.bytes_le]

/-- The wire bytes of a cell decode to the value it shows. -/
theorem decodeSdoBytes_rawValueBytes (p : DeviceParameter) :
    decodeSdoBytes p.dataType p.rawValueBytes = .ok p.currentValue := by
  by_cases hs : IsScalarDataType p.dataType
  · obtain ⟨t, ht⟩ := hs
    rw [currentValue_of_scalar ht, decodeSdoBytes_number ht (by simp [rawValueBytes, ht])]
    simp [rawValueBytes, ht, take_unpackLeBits _ (le_refl _)]
  · have hr : p.rawValueBytes = p.rawValue := by
      unfold rawValueBytes
      cases ha : alternative p.dataType with
      | number t => exact absurd ⟨t, ha⟩ hs
      | string => rfl
      | bytes => rfl
    rw [hr]
    exact currentValue_of_not_scalar hs

/-- Bytes that decode are shown as the value they decode to. -/
theorem currentValue_setRawValue {bytes : List (BitVec 8)}
    {v : DeviceParameterValue} (h : decodeSdoBytes p.dataType bytes = .ok v) :
    (p.setRawValue bytes).currentValue = v := by
  have hk : (p.setRawValue bytes).dataType = p.dataType := p.dataType_setRawValue bytes
  by_cases hs : IsScalarDataType p.dataType
  · obtain ⟨t, ht⟩ := hs
    have hl := le_length_of_decodeSdoBytes ht h
    rw [currentValue_of_scalar (hk ▸ ht), bits_setRawValue ⟨t, ht⟩, unpack_pack bytes t.bytes_le hl]
    rw [decodeSdoBytes_number ht hl] at h
    exact Except.ok.inj h
  · have hd := currentValue_of_not_scalar (p := p.setRawValue bytes) (hk ▸ hs)
    have hr : (p.setRawValue bytes).rawValue = bytes := by rw [setRawValue, if_neg hs]
    rw [hk, hr, h] at hd
    exact (Except.ok.inj hd).symm

end DeviceParameter

/-- One entry of a device's PDO mapping. `bitOffset` is relative to the device's window. -/
structure PdoMappingEntry where
  index : ℕ
  subindex : ℕ
  bitLength : ℕ
  bitOffset : ℕ
  deriving DecidableEq, Repr

structure FlatPdoMapping where
  outputs : List PdoMappingEntry
  inputs : List PdoMappingEntry
  outputBits : ℕ
  inputBits : ℕ
  deriving DecidableEq, Repr

/-- Cells are never destroyed. `parameters` names the current ones. -/
structure Device where
  slavePosition : ℕ
  vendorId : ℕ
  cells : List DeviceParameter
  parameters : ℕ × ℕ → Option ℕ
  flatPdoMapping : FlatPdoMapping

namespace Device

/-- A device no enumeration has published to. -/
def unenumerated (slavePosition vendorId : ℕ) (mapping : FlatPdoMapping) : Device :=
  ⟨slavePosition, vendorId, [], fun _ => none, mapping⟩

def findParameter (d : Device) (index subindex : ℕ) : Option ℕ := d.parameters (index, subindex)

def parameter (d : Device) (index subindex : ℕ) : Option DeviceParameter :=
  (d.findParameter index subindex).bind fun k => d.cells[k]?

/-- A cell of the current map with the definition's type is kept. -/
def reusable (previous : ℕ × ℕ → Option ℕ) (cells : List DeviceParameter)
    (definition : DeviceParameter) : Option ℕ :=
  (previous definition.key).filter fun k => cells[k]?.any fun c =>
    c.dataType = definition.dataType ∧ c.bitLength = definition.bitLength

/-- One turn of the loop of `publishParameters`: the arena and the next map so far. -/
def publishOne (previous : ℕ × ℕ → Option ℕ)
    (built : List DeviceParameter × (ℕ × ℕ → Option ℕ)) (definition : DeviceParameter) :
    List DeviceParameter × (ℕ × ℕ → Option ℕ) :=
  match reusable previous built.1 definition with
  | some k =>
    (built.1.modify k (·.adopt definition), Function.update built.2 definition.key (some k))
  | none =>
    (built.1 ++ [definition.fresh],
      Function.update built.2 definition.key (some built.1.length))

/-- `emplace` keeps the first definition of each object. -/
def distinctKeys : List DeviceParameter → List DeviceParameter
  | [] => []
  | p :: ps => p :: (distinctKeys ps).filter (·.key ≠ p.key)

def publishAll (d : Device) (definitions : List DeviceParameter) :
    List DeviceParameter × (ℕ × ℕ → Option ℕ) :=
  (distinctKeys definitions).foldl (publishOne d.parameters) (d.cells, fun _ => none)

/-- `initializeParameters` with what it enumerated. -/
def publishParameters (d : Device) (definitions : List DeviceParameter) : Device :=
  { d with
    cells := (d.publishAll definitions).1
    parameters := (d.publishAll definitions).2 }

/-- What a write did, and what was left for the bus to do. -/
structure WriteResult where
  result : Except String Unit
  device : Device
  /-- The output-mapped branch: the value is in the cell the composer sends. -/
  staged : Bool

def notFoundText (d : Device) (index subindex : ℕ) : String :=
  "device " ++ toString d.slavePosition ++ ": " ++ parameterText index subindex ++ " not found"

def setCell (d : Device) (k : ℕ) (p : DeviceParameter) (state : SyncState) : Device :=
  { d with cells := d.cells.set k { p with syncState := state } }

/-- `outputMapped` is what the process data says of the object of an exchanging device, and
`download` the outcome of the SDO download, should there be one. -/
def writeParameter (d : Device) (outputMapped mailboxActive : Bool)
    (download : List (BitVec 8) → Except String Unit) (index subindex : ℕ)
    (v : DeviceParameterValue) : WriteResult :=
  match d.findParameter index subindex, d.parameter index subindex with
  | some k, some p =>
    match p.setValue fp v with
    | .error e => ⟨.error e, d, false⟩
    | .ok q =>
      if outputMapped then ⟨.ok (), d.setCell k q .synced, true⟩
      else if mailboxActive then
        match download q.rawValueBytes with
        | .ok _ => ⟨.ok (), d.setCell k q .synced, false⟩
        | .error e => ⟨.error e, d.setCell k q .pending, false⟩
      else ⟨.ok (), d.setCell k q .pending, false⟩
  | _, _ => ⟨.error (d.notFoundText index subindex), d, false⟩

/-! ### What an enumeration and a write leave alone -/

variable {d : Device} {previous : ℕ × ℕ → Option ℕ}
  {built : List DeviceParameter × (ℕ × ℕ → Option ℕ)} {definition : DeviceParameter}

variable {k : ℕ}

theorem reusable_eq_some {cells : List DeviceParameter}
    (h : reusable previous cells definition = some k) : previous definition.key = some k :=
  (Option.filter_eq_some_iff.mp h).1

theorem extends_publishOne (previous : ℕ × ℕ → Option ℕ)
    (built : List DeviceParameter × (ℕ × ℕ → Option ℕ)) (definition : DeviceParameter) :
    Extends DeviceParameter.schema built.1 (publishOne previous built definition).1 := by
  unfold publishOne
  split
  · exact extends_modify _ _ fun c => c.schema_adopt definition
  · exact extends_append _ _

theorem keyed_publishOne (hp : Keyed DeviceParameter.key built.1 previous)
    (hb : Keyed DeviceParameter.key built.1 built.2) :
    Keyed DeviceParameter.key (publishOne previous built definition).1
      (publishOne previous built definition).2 := by
  have he := (extends_publishOne previous built definition).comp Prod.fst
  have hk := hb.extend he
  have hq := hp.extend he
  unfold publishOne at hk hq ⊢
  split
  · rename_i k hr
    simp only [hr] at hk hq
    obtain ⟨c, hc, hkey⟩ := hq _ k (reusable_eq_some hr)
    simpa only [hkey] using hk.update hc
  · rename_i hr
    simp only [hr] at hk
    have hc : (built.1 ++ [definition.fresh])[built.1.length]? = some definition.fresh := by simp
    simpa only [DeviceParameter.key_fresh] using hk.update hc

variable {c : DeviceParameter}

/-- A cell keeps its value unless the enumeration read one for its object. -/
theorem bits_publishOne (hp : Keyed DeviceParameter.key built.1 previous)
    (hc : built.1[k]? = some c)
    (hr : definition.key = c.key → ¬ definition.WasRead) :
    ∃ c', (publishOne previous built definition).1[k]? = some c' ∧ c'.schema = c.schema ∧
      c'.bits = c.bits := by
  unfold publishOne
  split
  · rename_i n hn
    by_cases hnk : n = k
    · subst hnk
      have hkey := hp.eq_key (reusable_eq_some hn) hc
      refine ⟨c.adopt definition, by simp [hc], c.schema_adopt _, ?_⟩
      exact (DeviceParameter.value_adopt (hr hkey.symm)).1
    · exact ⟨c, by simp [hnk, hc], rfl, rfl⟩
  · have hk : k < built.1.length := (List.getElem?_eq_some_iff.mp hc).1
    exact ⟨c, by rw [List.getElem?_append_left hk, hc], rfl, rfl⟩

theorem publish_foldl (built : List DeviceParameter × (ℕ × ℕ → Option ℕ))
    (hp : Keyed DeviceParameter.key built.1 previous)
    (hb : Keyed DeviceParameter.key built.1 built.2) (definitions : List DeviceParameter) :
    Extends DeviceParameter.schema built.1 (definitions.foldl (publishOne previous) built).1 ∧
      Keyed DeviceParameter.key (definitions.foldl (publishOne previous) built).1
        (definitions.foldl (publishOne previous) built).2 := by
  induction definitions generalizing built with
  | nil => exact ⟨Extends.refl _, hb⟩
  | cons definition definitions ih =>
    have he := extends_publishOne previous built definition
    obtain ⟨hx, hk⟩ := ih _ (hp.extend (he.comp Prod.fst)) (keyed_publishOne hp hb)
    exact ⟨he.trans hx, hk⟩

theorem bits_foldl (built : List DeviceParameter × (ℕ × ℕ → Option ℕ))
    (hp : Keyed DeviceParameter.key built.1 previous)
    (hc : built.1[k]? = some c) {definitions : List DeviceParameter}
    (hr : ∀ definition ∈ definitions, definition.key = c.key → ¬ definition.WasRead) :
    ∃ c', (definitions.foldl (publishOne previous) built).1[k]? = some c' ∧
      c'.schema = c.schema ∧ c'.bits = c.bits := by
  induction definitions generalizing built c with
  | nil => exact ⟨c, hc, rfl, rfl⟩
  | cons definition definitions ih =>
    obtain ⟨c', hc', hs, hb⟩ := bits_publishOne hp hc (hr definition (by simp))
    have hkey : c'.key = c.key := congrArg Prod.fst hs
    have hp' := hp.extend ((extends_publishOne previous built definition).comp Prod.fst)
    obtain ⟨c'', hc'', hs', hb'⟩ := ih _ hp' hc' fun e he hk =>
      hr e (List.mem_cons_of_mem _ he) (hk.trans hkey)
    exact ⟨c'', hc'', hs'.trans hs, hb'.trans hb⟩

variable {p : DeviceParameter}

theorem mem_of_mem_distinctKeys {ps : List DeviceParameter}
    (h : p ∈ distinctKeys ps) : p ∈ ps := by
  induction ps with
  | nil => exact h
  | cons q ps ih =>
    rcases List.mem_cons.mp h with rfl | h
    · exact List.mem_cons_self
    · exact List.mem_cons_of_mem _ (ih (List.mem_filter.mp h).1)

/-- The current map names cells of the device by their object. -/
def WellKeyed (d : Device) : Prop := Keyed DeviceParameter.key d.cells d.parameters

theorem parameter_eq_some {index subindex : ℕ}
    (h : d.parameter index subindex = some p) :
    ∃ k, d.findParameter index subindex = some k ∧ d.cells[k]? = some p :=
  Option.bind_eq_some_iff.mp h

theorem parameter_of_cell {index subindex : ℕ}
    (hk : d.findParameter index subindex = some k) (hc : d.cells[k]? = some p) :
    d.parameter index subindex = some p :=
  Option.bind_eq_some_iff.mpr ⟨k, hk, hc⟩

theorem extends_publishParameters (h : d.WellKeyed) (definitions : List DeviceParameter) :
    Extends DeviceParameter.schema d.cells (d.publishParameters definitions).cells :=
  (publish_foldl (d.cells, fun _ => none) h keyed_empty _).1

theorem wellKeyed_publishParameters (h : d.WellKeyed) (definitions : List DeviceParameter) :
    (d.publishParameters definitions).WellKeyed :=
  (publish_foldl (d.cells, fun _ => none) h keyed_empty _).2

theorem bits_publishParameters (h : d.WellKeyed)
    (hc : d.cells[k]? = some c) {definitions : List DeviceParameter}
    (hr : ∀ definition ∈ definitions, definition.key = c.key → ¬ definition.WasRead) :
    ∃ c', (d.publishParameters definitions).cells[k]? = some c' ∧ c'.schema = c.schema ∧
      c'.bits = c.bits :=
  bits_foldl (d.cells, fun _ => none) h hc fun e he =>
    hr e (mem_of_mem_distinctKeys he)

/-- A write leaves the device as it was, or stores into the one cell the map names. -/
theorem writeParameter_cases (d : Device) (outputMapped mailboxActive : Bool)
    (download : List (BitVec 8) → Except String Unit) (index subindex : ℕ)
    (v : DeviceParameterValue) :
    (d.writeParameter fp outputMapped mailboxActive download index subindex v).device = d ∨
      ∃ k p bytes state, state ≠ SyncState.unknown ∧ d.findParameter index subindex = some k ∧
        d.cells[k]? = some p ∧
        (d.writeParameter fp outputMapped mailboxActive download index subindex v).device =
          d.setCell k (p.setRawValue bytes) state := by
  unfold writeParameter
  split
  · rename_i k p hk hp
    obtain ⟨n, hn, hc⟩ := parameter_eq_some hp
    rw [hk] at hn
    cases hn
    cases hv : p.setValue fp v with
    | error e => exact .inl rfl
    | ok q =>
      obtain ⟨bytes, hb, rfl⟩ : ∃ bytes, p.encode fp v = .ok bytes ∧ q = p.setRawValue bytes := by
        unfold DeviceParameter.setValue at hv
        cases he : p.encode fp v with
        | error e => simp [he, Except.map] at hv
        | ok bytes => exact ⟨bytes, rfl, by simpa [he, Except.map] using hv.symm⟩
      refine .inr ⟨k, p, bytes, ?_⟩
      dsimp only
      split_ifs
      · exact ⟨.synced, SyncState.noConfusion, hk, hc, rfl⟩
      · cases download (p.setRawValue bytes).rawValueBytes with
        | ok _ => exact ⟨.synced, SyncState.noConfusion, hk, hc, rfl⟩
        | error _ => exact ⟨.pending, SyncState.noConfusion, hk, hc, rfl⟩
      · exact ⟨.pending, SyncState.noConfusion, hk, hc, rfl⟩
  · exact .inl rfl

/-- The output-mapped branch is the one taken by a write that succeeds on an object so mapped. -/
theorem staged_writeParameter (d : Device) (outputMapped mailboxActive : Bool)
    (download : List (BitVec 8) → Except String Unit) (index subindex : ℕ)
    (v : DeviceParameterValue) :
    (d.writeParameter fp outputMapped mailboxActive download index subindex v).staged = true ↔
      outputMapped = true ∧
        (d.writeParameter fp outputMapped mailboxActive download index subindex v).result =
          .ok () := by
  unfold writeParameter
  split
  · split
    · simp
    · split_ifs with ho hm
      · simp [ho]
      · split <;> simp [ho]
      · simp [ho]
  · simp

theorem writeParameter_staged {index subindex : ℕ}
    (hk : d.findParameter index subindex = some k) (hc : d.cells[k]? = some p)
    (mailboxActive : Bool) (download : List (BitVec 8) → Except String Unit)
    {v : DeviceParameterValue} {bytes : List (BitVec 8)} (he : p.encode fp v = .ok bytes) :
    d.writeParameter fp true mailboxActive download index subindex v =
      ⟨.ok (), d.setCell k (p.setRawValue bytes) .synced, true⟩ := by
  simp [writeParameter, parameter, hk, hc, DeviceParameter.setValue, he, Except.map]

end Device

end MotionMaster
