import Mathlib.Data.List.Pairwise
import MotionMaster.Device.Parameters
import MotionMaster.ProcessImage

/-!
Building the image: the driver's windows, each device's PDO mapping, and the fields they give.
-/
namespace MotionMaster

def kMaxProcessImageBytes : ℕ := 32768

/-- One slave's windows, in bytes from the start of each image. -/
structure SlaveIo where
  slavePosition : ℕ
  outputOffset : ℕ
  outputBytes : ℕ
  inputOffset : ℕ
  inputBytes : ℕ
  deriving DecidableEq, Repr

structure PdoLayout where
  outputBytes : ℕ
  inputBytes : ℕ
  slaves : List SlaveIo
  expectedWkc : Int
  deriving DecidableEq, Repr

/-- The first window listed for a position. -/
def PdoLayout.window (layout : PdoLayout) (slavePosition : ℕ) : Option SlaveIo :=
  layout.slaves.find? fun io => io.slavePosition = slavePosition

def unpackMappingEntry (packed : BitVec 32) (bitOffset : ℕ) : PdoMappingEntry where
  index := (packed >>> 16).toNat
  subindex := ((packed >>> 8) &&& 0xFF).toNat
  bitLength := (packed &&& 0xFF).toNat
  bitOffset := bitOffset

/-- The entries of one direction in window order, from the running offset on. -/
def flatten : ℕ → List (BitVec 32) → List PdoMappingEntry
  | _, [] => []
  | totalBits, packed :: words =>
    unpackMappingEntry packed totalBits ::
      flatten (totalBits + (unpackMappingEntry packed totalBits).bitLength) words

def totalBits (entries : List PdoMappingEntry) : ℕ := (entries.map (·.bitLength)).sum

/-- `readFlatPdoMapping` for the mapping words the device reports. -/
def readFlatPdoMapping (outputs inputs : List (BitVec 32)) : FlatPdoMapping :=
  ⟨flatten 0 outputs, flatten 0 inputs, totalBits (flatten 0 outputs), totalBits (flatten 0 inputs)⟩

def kSynapticonVendorId : ℕ := 0x000022D2

def kSensodriveVendorId : ℕ := 0x0000063A

def IsSomanetDevice (vendorId : ℕ) : Prop :=
  vendorId = kSynapticonVendorId ∨ vendorId = kSensodriveVendorId

def kSomanetPaddingIndices : List ℕ := [0x2001, 0x2007]

/-- A gap in the PDO, which binds to no object. -/
def IsPadding (device : Device) (entry : PdoMappingEntry) : Prop :=
  entry.index = 0 ∨ IsSomanetDevice device.vendorId ∧ entry.index ∈ kSomanetPaddingIndices

instance (device : Device) (entry : PdoMappingEntry) : Decidable (IsPadding device entry) :=
  inferInstanceAs (Decidable (_ ∨ (_ ∨ _) ∧ _))

/-- The entry at its place in the image, with the cell the device's map names now. -/
def resolveEntry (device : Device) (windowOffsetBytes : ℕ) (e : PdoMappingEntry) :
    ProcessImageEntry where
  slavePosition := device.slavePosition
  index := e.index
  subindex := e.subindex
  bitLength := e.bitLength
  bitOffset := (windowOffsetBytes * 8 + e.bitOffset) % 2 ^ 32
  parameter := device.findParameter e.index e.subindex

def appendEntries (out : List ProcessImageEntry) (device : Device)
    (entries : List PdoMappingEntry) (mappedBits windowOffsetBytes windowBytes : ℕ)
    (direction : String) : Except String (List ProcessImageEntry) :=
  if windowBytes * 8 % 2 ^ 32 < mappedBits then
    .error ("device " ++ toString device.slavePosition ++ ": " ++ direction ++ " mapping is " ++
      toString mappedBits ++ " bits but the driver reserved only " ++ toString windowBytes ++
      " bytes")
  else
    .ok (out ++ (entries.filter fun e => ¬ IsPadding device e).map
      (resolveEntry device windowOffsetBytes))

def addDevice (layout : PdoLayout) (image : ProcessImage) (device : Device) :
    Except String ProcessImage :=
  let mappings := device.flatPdoMapping
  if mappings.outputs = [] ∧ mappings.inputs = [] then .ok image
  else
    match layout.window device.slavePosition with
    | none =>
      .error ("device " ++ toString device.slavePosition ++
        " has a PDO mapping but no process-image window in the driver layout")
    | some io => do
      let outputs ← appendEntries image.outputs device mappings.outputs mappings.outputBits
        io.outputOffset io.outputBytes "output"
      let inputs ← appendEntries image.inputs device mappings.inputs mappings.inputBits
        io.inputOffset io.inputBytes "input"
      .ok { image with outputs := outputs, inputs := inputs }

def buildProcessImage (layout : PdoLayout) (devices : List Device) :
    Except String ProcessImage :=
  let combinedBytes := layout.outputBytes + layout.inputBytes
  if kMaxProcessImageBytes < combinedBytes then
    .error ("process image too large: " ++ toString layout.outputBytes ++ " output + " ++
      toString layout.inputBytes ++ " input = " ++ toString combinedBytes ++
      " bytes exceeds the " ++ toString kMaxProcessImageBytes ++ "-byte capacity")
  else
    devices.foldlM (addDevice layout)
      ⟨[], [], layout.outputBytes, layout.inputBytes, layout.expectedWkc⟩

/-! ### The two directions -/

inductive Direction where
  | output | input
  deriving DecidableEq, Repr

/-- Bytes of one direction's image. -/
structure Window where
  offset : ℕ
  bytes : ℕ

def SlaveIo.window (io : SlaveIo) : Direction → Window
  | .output => ⟨io.outputOffset, io.outputBytes⟩
  | .input => ⟨io.inputOffset, io.inputBytes⟩

def FlatPdoMapping.entries (mapping : FlatPdoMapping) : Direction → List PdoMappingEntry
  | .output => mapping.outputs
  | .input => mapping.inputs

def FlatPdoMapping.bits (mapping : FlatPdoMapping) : Direction → ℕ
  | .output => mapping.outputBits
  | .input => mapping.inputBits

def ProcessImage.entries (image : ProcessImage) : Direction → List ProcessImageEntry
  | .output => image.outputs
  | .input => image.inputs

/-- The fields a device contributes to one direction. -/
def fieldsOf (layout : PdoLayout) (dir : Direction) (d : Device) : List ProcessImageEntry :=
  match layout.window d.slavePosition with
  | none => []
  | some io => ((d.flatPdoMapping.entries dir).filter fun e => ¬ IsPadding d e).map
    (resolveEntry d (io.window dir).offset)

/-- A mapping the loop accepted has a window and fits it. -/
def Fitting (layout : PdoLayout) (dir : Direction) (d : Device) : Prop :=
  d.flatPdoMapping.entries dir ≠ [] → ∃ io, layout.window d.slavePosition = some io ∧
    ¬ (io.window dir).bytes * 8 % 2 ^ 32 < d.flatPdoMapping.bits dir

/-! ### The fields of a built image -/

def ProcessImageEntry.Apart (a b : ProcessImageEntry) : Prop :=
  a.bitOffset + a.bitLength ≤ b.bitOffset ∨ b.bitOffset + b.bitLength ≤ a.bitOffset

def SlaveIo.Apart (a b : SlaveIo) : Prop :=
  a.outputOffset + a.outputBytes ≤ b.outputOffset ∨ b.outputOffset + b.outputBytes ≤ a.outputOffset
  deriving Decidable

instance : Std.Symm SlaveIo.Apart := ⟨fun _ _ h => h.symm⟩

/-- What the driver promises of its layout: output windows lie in the image and share no byte. -/
def PdoLayout.Separates (layout : PdoLayout) : Prop :=
  (∀ io ∈ layout.slaves, io.outputOffset + io.outputBytes ≤ layout.outputBytes) ∧
    layout.slaves.Pairwise SlaveIo.Apart
  deriving Decidable

/-- The output fields of an image share no bit and lie inside it. -/
structure Placed (image : ProcessImage) : Prop where
  apart : image.outputs.Pairwise ProcessImageEntry.Apart
  inside : ∀ e ∈ image.outputs, e.bitOffset + e.bitLength ≤ 8 * image.outputBytes
  bounded : image.outputBytes ≤ kMaxProcessImageBytes

def SlaveIo.Holds (io : SlaveIo) (e : ProcessImageEntry) : Prop :=
  8 * io.outputOffset ≤ e.bitOffset ∧
    e.bitOffset + e.bitLength ≤ 8 * (io.outputOffset + io.outputBytes)

/-- The entry was resolved from the device's own map. -/
def ResolvedFrom (d : Device) (e : ProcessImageEntry) : Prop :=
  e.slavePosition = d.slavePosition ∧ e.parameter = d.findParameter e.index e.subindex

variable {layout : PdoLayout} {image image' : ProcessImage} {d : Device} {io io' : SlaveIo}

variable {words : List (BitVec 32)} {e : PdoMappingEntry}

theorem mem_flatten {n : ℕ}
    (h : e ∈ flatten n words) :
    n ≤ e.bitOffset ∧ e.bitOffset + e.bitLength ≤ n + totalBits (flatten n words) := by
  induction words generalizing n with
  | nil => cases h
  | cons w words ih =>
    simp only [flatten, totalBits, List.map_cons, List.sum_cons] at h ih ⊢
    rcases List.mem_cons.mp h with rfl | h
    · have hn : (unpackMappingEntry w n).bitOffset = n := rfl
      omega
    · have hi := ih h
      omega

theorem pairwise_flatten (n : ℕ) (words : List (BitVec 32)) :
    (flatten n words).Pairwise fun a b => a.bitOffset + a.bitLength ≤ b.bitOffset := by
  induction words generalizing n with
  | nil => exact List.Pairwise.nil
  | cons w words ih =>
    refine List.pairwise_cons.mpr ⟨fun e he => ?_, ih _⟩
    have hn : (unpackMappingEntry w n).bitOffset = n := rfl
    have hi := (mem_flatten he).1
    omega

theorem bitOffset_resolveEntry {n : ℕ} (h : n * 8 + e.bitOffset < 2 ^ 32) :
    (resolveEntry d n e).bitOffset = n * 8 + e.bitOffset := Nat.mod_eq_of_lt h

/-- A window that fits the image takes a mapping that fits the window. -/
theorem window_bounds (hl : layout.Separates) (hb : layout.outputBytes ≤ kMaxProcessImageBytes)
    (hw : layout.window d.slavePosition = some io) {mappedBits : ℕ}
    (hm : ¬ io.outputBytes * 8 % 2 ^ 32 < mappedBits) :
    mappedBits ≤ 8 * io.outputBytes ∧ io.outputOffset + io.outputBytes ≤ 32768 := by
  have hi := hl.1 io (List.mem_of_find?_eq_some hw)
  unfold kMaxProcessImageBytes at hb
  omega

theorem holds_resolveEntry
    (he : e ∈ flatten 0 words) (hm : totalBits (flatten 0 words) ≤ 8 * io.outputBytes)
    (hi : io.outputOffset + io.outputBytes ≤ 32768) :
    io.Holds (resolveEntry d io.outputOffset e) := by
  have hf := (mem_flatten he).2
  have ho : (resolveEntry d io.outputOffset e).bitOffset = io.outputOffset * 8 + e.bitOffset :=
    bitOffset_resolveEntry (by omega)
  have hl : (resolveEntry d io.outputOffset e).bitLength = e.bitLength := rfl
  unfold SlaveIo.Holds
  omega

theorem pairwise_resolveEntry (p : PdoMappingEntry → Bool)
    (hm : totalBits (flatten 0 words) ≤ 8 * io.outputBytes)
    (hi : io.outputOffset + io.outputBytes ≤ 32768) :
    (((flatten 0 words).filter p).map (resolveEntry d io.outputOffset)).Pairwise
      ProcessImageEntry.Apart := by
  rw [List.pairwise_map]
  refine ((pairwise_flatten 0 words).sublist List.filter_sublist).imp_of_mem ?_
  intro a b ha hb hab
  have hfb := (mem_flatten (List.mem_filter.mp hb).1).2
  refine .inl ?_
  rw [bitOffset_resolveEntry (by omega), bitOffset_resolveEntry (by omega)]
  show io.outputOffset * 8 + a.bitOffset + a.bitLength ≤ _
  omega

/-- A window belongs to one slave. -/
theorem window_ne {p q : ℕ} (hpq : p ≠ q) (hp : layout.window p = some io)
    (hq : layout.window q = some io') : io ≠ io' := by
  rintro rfl
  have h1 := List.find?_some hp
  have h2 := List.find?_some hq
  simp only [decide_eq_true_eq] at h1 h2
  omega

/-- Fields in the windows of two slaves share no bit. -/
theorem apart_of_windows (hl : layout.Separates) {p q : ℕ} (hpq : p ≠ q)
    (hp : layout.window p = some io) (hq : layout.window q = some io') {a b : ProcessImageEntry}
    (ha : io.Holds a) (hb : io'.Holds b) : a.Apart b := by
  have hw := hl.2.forall (List.mem_of_find?_eq_some hp) (List.mem_of_find?_eq_some hq)
    (window_ne hpq hp hq)
  unfold SlaveIo.Apart at hw
  unfold SlaveIo.Holds at ha hb
  unfold ProcessImageEntry.Apart
  omega

/-- The loop over the devices, `done` of which it has placed. -/
structure Building (layout : PdoLayout) (done : List Device) (image : ProcessImage) : Prop where
  bytes : image.outputBytes = layout.outputBytes
  owned : ∀ e ∈ image.outputs, ∃ d ∈ done, ResolvedFrom d e ∧
    ∃ io, layout.window d.slavePosition = some io ∧ io.Holds e
  apart : image.outputs.Pairwise ProcessImageEntry.Apart

theorem appendEntries_eq_ok {out out' : List ProcessImageEntry} {entries : List PdoMappingEntry}
    {mappedBits offset bytes : ℕ} {direction : String}
    (h : appendEntries out d entries mappedBits offset bytes direction = .ok out') :
    ¬ bytes * 8 % 2 ^ 32 < mappedBits ∧
      out' = out ++ (entries.filter fun e => ¬ IsPadding d e).map (resolveEntry d offset) := by
  unfold appendEntries at h
  split at h
  · cases h
  · rename_i hb
    cases h
    exact ⟨hb, rfl⟩

/-- A device adds its fields to both directions, and each mapping fits its window. -/
theorem addDevice_eq_ok (h : addDevice layout image d = .ok image') (dir : Direction) :
    image'.entries dir = image.entries dir ++ fieldsOf layout dir d ∧ Fitting layout dir d := by
  simp only [addDevice] at h
  split at h
  · rename_i hempty
    cases h
    have hnil : d.flatPdoMapping.entries dir = [] := by
      cases dir <;> simp [FlatPdoMapping.entries, hempty]
    refine ⟨?_, fun hne => absurd hnil hne⟩
    unfold fieldsOf
    split <;> simp [hnil]
  · split at h
    · cases h
    · rename_i io hw
      obtain ⟨outputs, ho, h⟩ := Except.bind_eq_ok h
      obtain ⟨inputs, hi, h⟩ := Except.bind_eq_ok h
      cases h
      obtain ⟨hbo, heo⟩ := appendEntries_eq_ok ho
      obtain ⟨hbi, hei⟩ := appendEntries_eq_ok hi
      cases dir with
      | output => exact ⟨by simp [fieldsOf, hw, ProcessImage.entries, heo, FlatPdoMapping.entries,
          SlaveIo.window], fun _ => ⟨io, hw, hbo⟩⟩
      | input => exact ⟨by simp [fieldsOf, hw, ProcessImage.entries, hei, FlatPdoMapping.entries,
          SlaveIo.window], fun _ => ⟨io, hw, hbi⟩⟩

theorem addDevice_bytes (h : addDevice layout image d = .ok image') :
    image'.outputBytes = image.outputBytes ∧ image'.inputBytes = image.inputBytes := by
  simp only [addDevice] at h
  split at h
  · cases h
    exact ⟨rfl, rfl⟩
  · split at h
    · cases h
    · obtain ⟨outputs, -, h⟩ := Except.bind_eq_ok h
      obtain ⟨inputs, -, h⟩ := Except.bind_eq_ok h
      cases h
      exact ⟨rfl, rfl⟩

variable {devices : List Device}

theorem foldlM_addDevice (dir : Direction)
    (h : devices.foldlM (addDevice layout) image = .ok image') :
    image'.entries dir = image.entries dir ++ devices.flatMap (fieldsOf layout dir) ∧
      (∀ d ∈ devices, Fitting layout dir d) ∧
      image'.outputBytes = image.outputBytes ∧ image'.inputBytes = image.inputBytes := by
  induction devices generalizing image with
  | nil =>
    cases h
    simp
  | cons d devices ih =>
    obtain ⟨mid, hmid, h⟩ := Except.bind_eq_ok h
    obtain ⟨he, hfit⟩ := addDevice_eq_ok hmid dir
    obtain ⟨hbo, hbi⟩ := addDevice_bytes hmid
    obtain ⟨hes, hfits, hbos, hbis⟩ := ih h
    refine ⟨?_, List.forall_mem_cons.mpr ⟨hfit, hfits⟩, hbos.trans hbo, hbis.trans hbi⟩
    rw [hes, he, List.flatMap_cons, List.append_assoc]

/-- Fields of one device are apart, and so are those of two. -/
theorem pairwise_flatMap_fields {R : ProcessImageEntry → ProcessImageEntry → Prop} {dir : Direction}
    (hd : (devices.map (·.slavePosition)).Nodup)
    (hself : ∀ d ∈ devices, (fieldsOf layout dir d).Pairwise R)
    (hcross : ∀ d ∈ devices, ∀ d' ∈ devices, d.slavePosition ≠ d'.slavePosition →
      ∀ a ∈ fieldsOf layout dir d, ∀ b ∈ fieldsOf layout dir d', R a b) :
    (devices.flatMap (fieldsOf layout dir)).Pairwise R := by
  induction devices with
  | nil => exact .nil
  | cons d devices ih =>
    rw [List.map_cons, List.nodup_cons] at hd
    rw [List.flatMap_cons, List.pairwise_append]
    refine ⟨hself d List.mem_cons_self, ih hd.2 (fun e he => hself e (List.mem_cons_of_mem _ he))
      (fun e he f hf => hcross e (List.mem_cons_of_mem _ he) f (List.mem_cons_of_mem _ hf)), ?_⟩
    intro a ha b hb
    obtain ⟨e, he, hb⟩ := List.mem_flatMap.mp hb
    have hne : d.slavePosition ≠ e.slavePosition := fun heq =>
      hd.1 (heq ▸ List.mem_map_of_mem he)
    exact hcross d List.mem_cons_self e (List.mem_cons_of_mem _ he) hne a ha b hb

theorem mem_fieldsOf {dir : Direction} {e : ProcessImageEntry} (h : e ∈ fieldsOf layout dir d) :
    ∃ io m, layout.window d.slavePosition = some io ∧ m ∈ d.flatPdoMapping.entries dir ∧
      e = resolveEntry d (io.window dir).offset m := by
  unfold fieldsOf at h
  split at h
  · cases h
  · rename_i io hw
    obtain ⟨m, hm, rfl⟩ := List.mem_map.mp h
    exact ⟨io, m, hw, (List.mem_filter.mp hm).1, rfl⟩

theorem holds_fieldsOf (hl : layout.Separates) (hb : layout.outputBytes ≤ kMaxProcessImageBytes)
    (hf : ∃ outputs inputs, d.flatPdoMapping = readFlatPdoMapping outputs inputs)
    (hfit : Fitting layout .output d) (hw : layout.window d.slavePosition = some io) :
    (∀ e ∈ fieldsOf layout .output d, io.Holds e) ∧
      (fieldsOf layout .output d).Pairwise ProcessImageEntry.Apart := by
  obtain ⟨outputs, inputs, hf⟩ := hf
  have hentries : d.flatPdoMapping.entries .output = flatten 0 outputs := by rw [hf]; rfl
  by_cases hne : flatten 0 outputs = []
  · simp [fieldsOf, hw, hentries, hne]
  · obtain ⟨io', hw', hm⟩ := hfit (hentries ▸ hne)
    cases hw'.symm.trans hw
    rw [hf] at hm
    obtain ⟨hm, hin⟩ := window_bounds hl hb hw hm
    have hfields : fieldsOf layout .output d = ((flatten 0 outputs).filter fun e =>
        ¬ IsPadding d e).map (resolveEntry d io.outputOffset) := by
      simp only [fieldsOf, hw, hentries]
      rfl
    rw [hfields]
    refine ⟨fun e he => ?_, pairwise_resolveEntry _ hm hin⟩
    obtain ⟨m, hmem, rfl⟩ := List.mem_map.mp he
    exact holds_resolveEntry (List.mem_filter.mp hmem).1 hm hin

theorem building_foldlM (hl : layout.Separates)
    (hb : layout.outputBytes ≤ kMaxProcessImageBytes)
    (hd : (devices.map (·.slavePosition)).Nodup)
    (hf : ∀ d ∈ devices, ∃ outputs inputs, d.flatPdoMapping = readFlatPdoMapping outputs inputs)
    (h : devices.foldlM (addDevice layout)
      ⟨[], [], layout.outputBytes, layout.inputBytes, layout.expectedWkc⟩ = .ok image) :
    Building layout devices image := by
  obtain ⟨he, hfit, hbytes, -⟩ := foldlM_addDevice .output h
  have hout : image.outputs = devices.flatMap (fieldsOf layout .output) := he
  refine ⟨hbytes, ?_, ?_⟩
  · intro e hmem
    rw [hout] at hmem
    obtain ⟨d, hdm, hmem⟩ := List.mem_flatMap.mp hmem
    obtain ⟨io, m, hw, -, rfl⟩ := mem_fieldsOf hmem
    exact ⟨d, hdm, ⟨rfl, rfl⟩, io, hw, (holds_fieldsOf hl hb (hf d hdm) (hfit d hdm) hw).1 _ hmem⟩
  · rw [hout]
    refine pairwise_flatMap_fields hd (fun d hdm => ?_) ?_
    · cases hw : layout.window d.slavePosition with
      | none => simp [fieldsOf, hw]
      | some io => exact (holds_fieldsOf hl hb (hf d hdm) (hfit d hdm) hw).2
    · intro d hdm d' hdm' hne a ha b hbm
      obtain ⟨io, -, hw, -⟩ := mem_fieldsOf ha
      obtain ⟨io', -, hw', -⟩ := mem_fieldsOf hbm
      exact apart_of_windows hl hne hw hw'
        ((holds_fieldsOf hl hb (hf d hdm) (hfit d hdm) hw).1 a ha)
        ((holds_fieldsOf hl hb (hf d' hdm') (hfit d' hdm') hw').1 b hbm)

/-- A built image's output fields share no bit and lie inside it, and each was resolved from the
map its device had then. -/
theorem buildProcessImage_spec (hl : layout.Separates)
    (hd : (devices.map (·.slavePosition)).Nodup)
    (hf : ∀ d ∈ devices, ∃ outputs inputs, d.flatPdoMapping = readFlatPdoMapping outputs inputs)
    (h : buildProcessImage layout devices = .ok image) :
    Placed image ∧ ∀ e ∈ image.outputs, ∃ d ∈ devices, ResolvedFrom d e := by
  simp only [buildProcessImage] at h
  split at h
  · cases h
  · have hb : layout.outputBytes ≤ kMaxProcessImageBytes := by omega
    have hi := building_foldlM hl hb hd hf h
    refine ⟨⟨hi.apart, fun e he => ?_, hi.bytes ▸ hb⟩, fun e he => ?_⟩
    · obtain ⟨d, -, -, io, hw, hh⟩ := hi.owned e he
      have hin := hl.1 io (List.mem_of_find?_eq_some hw)
      have hbytes := hi.bytes
      unfold SlaveIo.Holds at hh
      omega
    · obtain ⟨d, hd, hr, -⟩ := hi.owned e he
      exact ⟨d, hd, hr⟩

end MotionMaster
