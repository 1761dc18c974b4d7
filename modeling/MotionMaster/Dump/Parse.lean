import MotionMaster.Lib.Codec

/-!
# Parsing a dump

The client's `parseMmpd`, and the file it gives to read rows from. A number read from the buffer is
exact: a buffer has fewer than `2 ^ 53` bytes, and a row count beyond that is clamped.
-/

namespace MotionMaster.Dump

open Bytes Codec

/-! ### Text -/

def utf8 (s : String) : List (BitVec 8) := s.toByteArray.data.toList.map UInt8.toBitVec

def fromUtf8? (bytes : List (BitVec 8)) : Option String :=
  String.fromUTF8? (bytes.map UInt8.ofBitVec).toByteArray

def bom : Char := Char.ofNat 0xFEFF

/-- A `TextDecoder` leaves out a byte order mark at the start. -/
def dropBom (s : String) : String :=
  match s.toList with
  | c :: rest => if c = bom then String.ofList rest else s
  | [] => s

theorem utf8_injective : Function.Injective utf8 := by
  intro s t h
  have hd : s.toByteArray.data.toList = t.toByteArray.data.toList :=
    List.map_injective_iff.mpr (fun a b hab => UInt8.toBitVec_inj.mp hab) h
  exact String.toByteArray_inj.mp (ByteArray.ext (Array.toList_inj.mp hd))

theorem fromUtf8?_utf8 (s : String) : fromUtf8? (utf8 s) = some s := by
  have hb : ((utf8 s).map UInt8.ofBitVec).toByteArray = s.toByteArray := by
    have hid : UInt8.ofBitVec ∘ UInt8.toBitVec = id := rfl
    apply ByteArray.ext
    rw [List.data_toByteArray, utf8, List.map_map, hid, List.map_id]
  rw [fromUtf8?, hb, String.fromUTF8?, dif_pos s.isValidUTF8]
  rfl

theorem dropBom_eq_iff (s : String) : dropBom s = s ↔ s.toList.head? ≠ some bom := by
  unfold dropBom
  cases hs : s.toList with
  | nil => simp
  | cons c rest =>
    by_cases hc : c = bom
    · have hne : String.ofList rest ≠ s := by
        intro h
        have hl : rest.length = s.toList.length := by rw [← h, String.toList_ofList]
        rw [hs, List.length_cons] at hl
        omega
      simp [hc, hne]
    · simp [hc]

/-! ### The file -/

structure MmpdPdoEntry where
  index : ℕ
  subindex : ℕ
  isOutput : Bool
  dataType : ℕ
  bitLength : ℕ
  bitOffset : ℕ
  name : String
  deriving DecidableEq

structure MmpdDevice where
  slavePosition : ℕ
  vendorId : ℕ
  productCode : ℕ
  revisionNumber : ℕ
  serialNumber : ℕ
  name : String
  entries : List MmpdPdoEntry
  deriving DecidableEq

structure MmpdHeader where
  formatVersion : ℕ
  flags : ℕ
  startSequence : ℕ
  rowCount : ℕ
  inputBytes : ℕ
  outputBytes : ℕ
  devices : List MmpdDevice
  deriving DecidableEq

structure MmpdRow where
  sequence : ℕ
  timestampNs : ℕ
  inputs : List (BitVec 8)
  outputs : List (BitVec 8)
  deriving DecidableEq

/-- The header is parsed, the rows stay in the buffer. -/
structure MmpdFile where
  header : MmpdHeader
  u8 : List (BitVec 8)
  rowsStart : ℕ
  deriving DecidableEq

namespace MmpdFile

def rowCount (f : MmpdFile) : ℕ := f.header.rowCount

def rowStride (f : MmpdFile) : ℕ := 16 + f.header.inputBytes + f.header.outputBytes

/-- The regions are views: they end with the buffer. -/
def rowAt (f : MmpdFile) (i : ℕ) : Except String MmpdRow := do
  let base := f.rowsStart + i * f.rowStride
  let inputsAt := base + 16
  let outputsAt := inputsAt + f.header.inputBytes
  let sequence ← getUint f.u8 8 base
  let timestampNs ← getUint f.u8 8 (base + 8)
  return { sequence, timestampNs
           inputs := (f.u8.drop inputsAt).take f.header.inputBytes
           outputs := (f.u8.drop outputsAt).take f.header.outputBytes }

end MmpdFile

def MAGIC : ℕ := 0x44504D4D

def SUPPORTED_FORMAT_VERSION : ℕ := 1

-- what `TextDecoder` makes of bytes that are no UTF-8
variable (malformed : List (BitVec 8) → String)

def textDecode (bytes : List (BitVec 8)) : String :=
  match fromUtf8? bytes with
  | some s => dropBom s
  | none => malformed bytes

namespace Cursor

def str : Reader String := do
  let len ← Reader.uint 2
  let bytes ← Reader.span len
  return textDecode malformed bytes

def entry : Reader MmpdPdoEntry := do
  let index ← Reader.uint 2
  let subindex ← Reader.uint 1
  let direction ← Reader.uint 1
  let dataType ← Reader.uint 2
  let bitLength ← Reader.uint 2
  let bitOffset ← Reader.uint 4
  let name ← str malformed
  return { index, subindex, isOutput := direction == 1, dataType, bitLength, bitOffset, name }

def device : Reader MmpdDevice := do
  let slavePosition ← Reader.uint 2
  let vendorId ← Reader.uint 4
  let productCode ← Reader.uint 4
  let revisionNumber ← Reader.uint 4
  let serialNumber ← Reader.uint 4
  let name ← str malformed
  let entryCount ← Reader.uint 4
  let entries ← Reader.times entryCount (entry malformed)
  return { slavePosition, vendorId, productCode, revisionNumber, serialNumber, name, entries }

end Cursor

/-- The header without its devices, and how many there are. -/
def parsePrefix (data : List (BitVec 8)) : Except String (MmpdHeader × ℕ) := do
  if data.length < 36 then .error "Not a .mmpd file (bad magic)"
  else
    let magic ← getUint data 4 0
    if magic ≠ MAGIC then .error "Not a .mmpd file (bad magic)"
    else
      let formatVersion ← getUint data 2 4
      if formatVersion ≠ SUPPORTED_FORMAT_VERSION then
        .error ("Unsupported .mmpd format version " ++ toString formatVersion ++ " (expected " ++
          toString SUPPORTED_FORMAT_VERSION ++ ")")
      else
        let flags ← getUint data 2 6
        let startSequence ← getUint data 8 8
        let rowCount ← getUint data 8 16
        let inputBytes ← getUint data 4 24
        let outputBytes ← getUint data 4 28
        let deviceCount ← getUint data 4 32
        return (⟨formatVersion, flags, startSequence, rowCount, inputBytes, outputBytes, []⟩,
          deviceCount)

/-- A row count the buffer does not hold is clamped to the rows present. -/
def clampRows (available rowCount : ℕ) : ℕ := if available < rowCount then available else rowCount

def parseMmpd (data : List (BitVec 8)) : Except String MmpdFile := do
  let (header, deviceCount) ← parsePrefix data
  let (devices, rowsStart) ← Reader.times deviceCount (Cursor.device malformed) data 36
  let rowStride := 16 + header.inputBytes + header.outputBytes
  let available := (data.length - rowsStart) / rowStride
  return ⟨{ header with devices, rowCount := clampRows available header.rowCount }, data, rowsStart⟩

/-! ### What is parsed -/

variable {malformed} {data : List (BitVec 8)} {offset offset' : ℕ}

theorem uint_lt {n v : ℕ} (h : Reader.uint n data offset = .ok (v, offset')) : v < 256 ^ n :=
  getUint_lt (Reader.uint_eq_ok h).1

structure MmpdPdoEntry.Sized (e : MmpdPdoEntry) : Prop where
  bitLength : e.bitLength < 2 ^ 16
  bitOffset : e.bitOffset < 2 ^ 32

theorem sized_entry {e : MmpdPdoEntry} (h : Cursor.entry malformed data offset = .ok (e, offset')) :
    e.Sized := by
  obtain ⟨index, _, -, h⟩ := Reader.bind_eq_ok h
  obtain ⟨subindex, _, -, h⟩ := Reader.bind_eq_ok h
  obtain ⟨direction, _, -, h⟩ := Reader.bind_eq_ok h
  obtain ⟨dataType, _, -, h⟩ := Reader.bind_eq_ok h
  obtain ⟨bitLength, _, hlength, h⟩ := Reader.bind_eq_ok h
  obtain ⟨bitOffset, _, hoffset, h⟩ := Reader.bind_eq_ok h
  obtain ⟨name, _, -, h⟩ := Reader.bind_eq_ok h
  cases h
  exact ⟨uint_lt hlength, uint_lt hoffset⟩

theorem entries_device {d : MmpdDevice}
    (h : Cursor.device malformed data offset = .ok (d, offset')) :
    d.entries.length < 2 ^ 32 ∧ ∀ e ∈ d.entries, e.Sized := by
  obtain ⟨slavePosition, _, -, h⟩ := Reader.bind_eq_ok h
  obtain ⟨vendorId, _, -, h⟩ := Reader.bind_eq_ok h
  obtain ⟨productCode, _, -, h⟩ := Reader.bind_eq_ok h
  obtain ⟨revisionNumber, _, -, h⟩ := Reader.bind_eq_ok h
  obtain ⟨serialNumber, _, -, h⟩ := Reader.bind_eq_ok h
  obtain ⟨name, _, -, h⟩ := Reader.bind_eq_ok h
  obtain ⟨entryCount, _, hcount, h⟩ := Reader.bind_eq_ok h
  obtain ⟨entries, _, hentries, h⟩ := Reader.bind_eq_ok h
  cases h
  obtain ⟨hlen, hmem⟩ := Reader.times_eq_ok hentries
  refine ⟨hlen ▸ uint_lt hcount, fun e he => ?_⟩
  obtain ⟨_, _, hread⟩ := hmem e he
  exact sized_entry hread

theorem parsePrefix_lt {header : MmpdHeader} {deviceCount : ℕ}
    (h : parsePrefix data = .ok (header, deviceCount)) : deviceCount < 2 ^ 32 := by
  unfold parsePrefix at h
  split_ifs at h
  obtain ⟨magic, -, h⟩ := Except.bind_eq_ok h
  split_ifs at h
  obtain ⟨formatVersion, -, h⟩ := Except.bind_eq_ok h
  split_ifs at h
  obtain ⟨flags, -, h⟩ := Except.bind_eq_ok h
  obtain ⟨startSequence, -, h⟩ := Except.bind_eq_ok h
  obtain ⟨rowCount, -, h⟩ := Except.bind_eq_ok h
  obtain ⟨inputBytes, -, h⟩ := Except.bind_eq_ok h
  obtain ⟨outputBytes, -, h⟩ := Except.bind_eq_ok h
  obtain ⟨count, hcount, h⟩ := Except.bind_eq_ok h
  cases h
  exact getUint_lt hcount

/-- A parsed file: its tables, and as many rows as its buffer holds. -/
structure MmpdFile.Parsed (f : MmpdFile) (data : List (BitVec 8)) : Prop where
  u8 : f.u8 = data
  devices : f.header.devices.length < 2 ^ 32
  entries : ∀ d ∈ f.header.devices, d.entries.length < 2 ^ 32 ∧ ∀ e ∈ d.entries, e.Sized
  rows : f.rowCount ≤ (data.length - f.rowsStart) / f.rowStride

theorem parsed_parseMmpd {f : MmpdFile} (h : parseMmpd malformed data = .ok f) : f.Parsed data := by
  obtain ⟨x, hx, h⟩ := Except.bind_eq_ok h
  obtain ⟨y, hy, h⟩ := Except.bind_eq_ok h
  cases h
  obtain ⟨hlen, hmem⟩ := Reader.times_eq_ok hy
  refine ⟨rfl, hlen ▸ parsePrefix_lt hx, fun d hd => ?_, ?_⟩
  · obtain ⟨_, _, hread⟩ := hmem d hd
    exact entries_device hread
  · unfold MmpdFile.rowCount MmpdFile.rowStride clampRows
    dsimp only
    split_ifs with hc
    · exact Nat.le_refl _
    · omega

end MotionMaster.Dump
