import Mathlib.Data.List.DropRight
import MotionMaster.Dump.RoundTrip

/-!
# Decoding an entry over all rows

`decodeSeries` reads a byte-aligned number straight from the buffer and extracts the bits of
everything else. The two agree on an entry that is mapped as wide as its type, inside its region.
-/

namespace MotionMaster.Dump

open Bytes Codec

/-- How the engine makes its numbers: the nearest one to an integer, and those of the two float
formats. -/
structure Js (Number : Type) where
  ofInt : Int → Number
  ofFloat32 : ℕ → Number
  ofFloat64 : ℕ → Number

inductive Value (Number : Type) where
  | number (x : Number)
  | bigint (i : Int)
  | string (s : String)
  | null

namespace DataType

@[match_pattern] abbrev BOOLEAN : ℕ := 0x0001
@[match_pattern] abbrev INTEGER8 : ℕ := 0x0002
@[match_pattern] abbrev INTEGER16 : ℕ := 0x0003
@[match_pattern] abbrev INTEGER32 : ℕ := 0x0004
@[match_pattern] abbrev UNSIGNED8 : ℕ := 0x0005
@[match_pattern] abbrev UNSIGNED16 : ℕ := 0x0006
@[match_pattern] abbrev UNSIGNED32 : ℕ := 0x0007
@[match_pattern] abbrev REAL32 : ℕ := 0x0008
@[match_pattern] abbrev VISIBLE_STRING : ℕ := 0x0009
@[match_pattern] abbrev UNICODE_STRING : ℕ := 0x000b
@[match_pattern] abbrev REAL64 : ℕ := 0x0011
@[match_pattern] abbrev INTEGER64 : ℕ := 0x0015
@[match_pattern] abbrev UNSIGNED64 : ℕ := 0x001b
@[match_pattern] abbrev BYTE : ℕ := 0x001e
@[match_pattern] abbrev WORD : ℕ := 0x001f
@[match_pattern] abbrev DWORD : ℕ := 0x0020
@[match_pattern] abbrev BITARR8 : ℕ := 0x002d
@[match_pattern] abbrev BITARR16 : ℕ := 0x002e
@[match_pattern] abbrev BITARR32 : ℕ := 0x002f

end DataType

/-- The `DataView` getter of a fixed-width type. -/
inductive ScalarReader where
  | uint (bytes : ℕ)
  | int (bytes : ℕ)
  | float32
  | float64
  | bigInt64
  | bigUint64
  deriving DecidableEq

namespace ScalarReader

def width : ScalarReader → ℕ
  | uint n | int n => n
  | float32 => 4
  | float64 | bigInt64 | bigUint64 => 8

variable {Number : Type} (js : Js Number)

def read (bytes : List (BitVec 8)) : ScalarReader → Value Number
  | uint _ => .number (js.ofInt (decode bytes))
  | int n => .number (js.ofInt (BitVec.ofNat (8 * n) (decode bytes)).toInt)
  | float32 => .number (js.ofFloat32 (decode bytes))
  | float64 => .number (js.ofFloat64 (decode bytes))
  | bigInt64 => .bigint (BitVec.ofNat 64 (decode bytes)).toInt
  | bigUint64 => .bigint (decode bytes)

def readStart (bytes : List (BitVec 8)) (r : ScalarReader) : Value Number :=
  if r.width ≤ bytes.length then r.read js (bytes.take r.width) else .null

end ScalarReader

open DataType in
def numericReader : ℕ → Option ScalarReader
  | BOOLEAN | UNSIGNED8 | BYTE | BITARR8 => some (.uint 1)
  | INTEGER8 => some (.int 1)
  | INTEGER16 => some (.int 2)
  | UNSIGNED16 | WORD | BITARR16 => some (.uint 2)
  | INTEGER32 => some (.int 4)
  | UNSIGNED32 | DWORD | BITARR32 => some (.uint 4)
  | REAL32 => some .float32
  | REAL64 => some .float64
  | INTEGER64 => some .bigInt64
  | UNSIGNED64 => some .bigUint64
  | _ => none

/-- The shifts of the engine work on 32-bit integers. -/
def toInt32 (n : ℕ) : Int := (BitVec.ofNat 32 n).toInt

/-- Outside the array there is `undefined`, which is stored and shifted as zero. -/
def byteAt (src : List (BitVec 8)) (i : Int) : BitVec 8 :=
  if i < 0 then 0 else src.getD i.toNat 0

def copyBytes (src : List (BitVec 8)) : Int → ℕ → List (BitVec 8)
  | _, 0 => []
  | byteOffset, n + 1 =>
    if byteOffset < src.length then byteAt src byteOffset :: copyBytes src (byteOffset + 1) n
    else List.replicate (n + 1) 0

def copyBits (src : List (BitVec 8)) (bitOffset : ℕ) : ℕ → ℕ → List (BitVec 8) → List (BitVec 8)
  | 0, _, out => out
  | todo + 1, i, out =>
    let srcBit := bitOffset + i
    let srcByte := toInt32 srcBit / 8
    if src.length ≤ srcByte then out
    else
      let bit := (byteAt src srcByte >>> (srcBit % 8)) &&& 1
      copyBits src bitOffset todo (i + 1) (out.modify (i / 8) (· ||| bit <<< (i % 8)))

def extractBits (src : List (BitVec 8)) (bitOffset bitLength : ℕ) : List (BitVec 8) :=
  if bitOffset % 8 = 0 ∧ bitLength % 8 = 0 then
    copyBytes src (toInt32 bitOffset / 8) ((bitLength + 7) / 8)
  else copyBits src bitOffset bitLength 0 (List.replicate ((bitLength + 7) / 8) 0)

section

variable {Number : Type} (js : Js Number) (malformed : List (BitVec 8) → String)

open DataType in
def decodeMmpdValue (dataType : ℕ) (bytes : List (BitVec 8)) : Value Number :=
  match dataType with
  | BOOLEAN | UNSIGNED8 | BYTE | BITARR8 => (ScalarReader.uint 1).readStart js bytes
  | INTEGER8 => (ScalarReader.int 1).readStart js bytes
  | INTEGER16 => (ScalarReader.int 2).readStart js bytes
  | UNSIGNED16 | WORD | BITARR16 => (ScalarReader.uint 2).readStart js bytes
  | INTEGER32 => (ScalarReader.int 4).readStart js bytes
  | UNSIGNED32 | DWORD | BITARR32 => (ScalarReader.uint 4).readStart js bytes
  | REAL32 => ScalarReader.float32.readStart js bytes
  | REAL64 => ScalarReader.float64.readStart js bytes
  | INTEGER64 => ScalarReader.bigInt64.readStart js bytes
  | UNSIGNED64 => ScalarReader.bigUint64.readStart js bytes
  | VISIBLE_STRING | UNICODE_STRING =>
    .string (textDecode malformed (bytes.rdropWhile fun b => b = 0x00 ∨ b = 0x20))
  | 0x0000 => .null
  | _ =>
    if bytes.length = 0 ∨ 4 < bytes.length then .null else .number (js.ofInt (decode bytes))

def plottable : Value Number → Option Number
  | .number x => some x
  | .bigint i => some (js.ofInt i)
  | .string _ | .null => none

def MmpdPdoEntry.byteAligned (e : MmpdPdoEntry) : Bool :=
  e.bitOffset % 8 = 0 ∧ e.bitLength % 8 = 0

namespace MmpdFile

/-- Where the entry's region starts in a row, and how many bytes it has. -/
def regionStart (f : MmpdFile) (e : MmpdPdoEntry) : ℕ :=
  if e.isOutput then 16 + f.header.inputBytes else 16

def regionBytes (f : MmpdFile) (e : MmpdPdoEntry) : ℕ :=
  if e.isOutput then f.header.outputBytes else f.header.inputBytes

def valueAt (f : MmpdFile) (e : MmpdPdoEntry) (i : ℕ) : Int :=
  f.rowsStart + i * f.rowStride + (f.regionStart e + toInt32 e.bitOffset / 8)

def fastValue (f : MmpdFile) (e : MmpdPdoEntry) (r : ScalarReader) (i : ℕ) :
    Except String (Option Number) :=
  if 0 ≤ f.valueAt e i ∧ f.valueAt e i + r.width ≤ f.u8.length then
    .ok (plottable js (r.read js ((f.u8.drop (f.valueAt e i).toNat).take r.width)))
  else .error "Offset is outside the bounds of the DataView"

/-- The bits extracted from the row's region, and decoded. -/
def slowValue (f : MmpdFile) (e : MmpdPdoEntry) (i : ℕ) : Except String (Option Number) := do
  let row ← f.rowAt i
  let bytes := extractBits (if e.isOutput then row.outputs else row.inputs) e.bitOffset e.bitLength
  return plottable js (decodeMmpdValue js malformed e.dataType bytes)

def decodeSeries (f : MmpdFile) (e : MmpdPdoEntry) : Except String (List (Option Number)) :=
  match numericReader e.dataType, e.byteAligned with
  | some r, true => (List.range f.rowCount).mapM (f.fastValue js e r)
  | _, _ => (List.range f.rowCount).mapM (f.slowValue js malformed e)

/-- Every row has the value of the slow path, and no row is read outside the entry's region. -/
structure Agrees (f : MmpdFile) (e : MmpdPdoEntry) : Prop where
  values : ∃ out, f.decodeSeries js malformed e = .ok out ∧ out.length = f.rowCount ∧
    ∀ i < f.rowCount, ∃ v, f.slowValue js malformed e i = .ok v ∧ out[i]? = some v
  inside : ∀ r, numericReader e.dataType = some r → e.byteAligned = true → ∀ i < f.rowCount,
    (f.rowsStart + i * f.rowStride + f.regionStart e : Int) ≤ f.valueAt e i ∧
      f.valueAt e i + r.width ≤ f.rowsStart + i * f.rowStride + f.regionStart e + f.regionBytes e

/-- A number read whole is mapped with all its bytes, inside the region and below the reach of a
32-bit shift. -/
def Fits (f : MmpdFile) (e : MmpdPdoEntry) : Prop :=
  0 < f.rowCount → ∀ r, numericReader e.dataType = some r → e.byteAligned = true →
    8 * r.width ≤ e.bitLength ∧ e.bitOffset < 2 ^ 31 ∧
      e.bitOffset + 8 * r.width ≤ 8 * f.regionBytes e

end MmpdFile

/-! ### The two paths -/

variable {js malformed} {f : MmpdFile} {e : MmpdPdoEntry} {r : ScalarReader}
  {data : List (BitVec 8)}

theorem decodeMmpdValue_of_numericReader {dataType : ℕ} (h : numericReader dataType = some r)
    (bytes : List (BitVec 8)) :
    decodeMmpdValue js malformed dataType bytes = r.readStart js bytes := by
  unfold numericReader at h
  split at h <;> cases h <;> rfl

theorem plottable_read (r : ScalarReader) (bytes : List (BitVec 8)) :
    ∃ x, plottable js (r.read js bytes) = some x := by
  cases r <;> exact ⟨_, rfl⟩

theorem length_copyBytes (src : List (BitVec 8)) (byteOffset : Int) (n : ℕ) :
    (copyBytes src byteOffset n).length = n := by
  induction n generalizing byteOffset with
  | zero => rfl
  | succ n ih =>
    unfold copyBytes
    split_ifs
    · rw [List.length_cons, ih]
    · exact List.length_replicate

theorem take_copyBytes (src : List (BitVec 8)) (at_ w n : ℕ) (hn : w ≤ n)
    (hs : at_ + w ≤ src.length) :
    (copyBytes src at_ n).take w = (src.drop at_).take w := by
  induction w generalizing at_ n with
  | zero => rfl
  | succ w ih =>
    obtain ⟨n, rfl⟩ : ∃ k, n = k + 1 := ⟨n - 1, by omega⟩
    have hlt : at_ < src.length := by omega
    have hbyte : byteAt src at_ = src[at_] := by simp [byteAt, hlt]
    rw [copyBytes, if_pos (by omega), List.take_succ_cons, List.drop_eq_getElem_cons hlt,
      List.take_succ_cons, hbyte]
    exact congrArg _ (ih (at_ + 1) n (by omega) (by omega))

theorem toInt32_of_lt {n : ℕ} (h : n < 2 ^ 31) : toInt32 n = n := by
  simp only [toInt32, BitVec.toInt_eq_toNat_cond, BitVec.toNat_ofNat]
  split <;> omega

theorem toInt32_neg {n : ℕ} (h : 2 ^ 31 ≤ n) (h' : n < 2 ^ 32) : toInt32 n < 0 := by
  simp only [toInt32, BitVec.toInt_eq_toNat_cond, BitVec.toNat_ofNat]
  split <;> omega

variable {i : ℕ}

theorem MmpdFile.Parsed.row_le (h : f.Parsed data) (hi : i < f.rowCount) :
    f.rowsStart + i * f.rowStride + f.rowStride ≤ f.u8.length := by
  have hpos : 0 < f.rowStride := by
    unfold rowStride
    omega
  have hrows := (Nat.le_div_iff_mul_le hpos).mp (h.rows)
  have hnext : (i + 1) * f.rowStride ≤ f.rowCount * f.rowStride := Nat.mul_le_mul_right _ hi
  rw [Nat.succ_mul] at hnext
  rw [h.u8]
  omega

def MmpdFile.region (f : MmpdFile) (e : MmpdPdoEntry) (i : ℕ) : List (BitVec 8) :=
  (f.u8.drop (f.rowsStart + i * f.rowStride + f.regionStart e)).take (f.regionBytes e)

theorem slowValue_eq (h : f.Parsed data) (hi : i < f.rowCount) (e : MmpdPdoEntry) :
    f.slowValue js malformed e i = .ok (plottable js (decodeMmpdValue js malformed e.dataType
      (extractBits (f.region e i) e.bitOffset e.bitLength))) := by
  have hrow : f.rowsStart + i * f.rowStride + 16 ≤ f.u8.length :=
    Nat.le_trans (Nat.add_le_add_left (by unfold MmpdFile.rowStride; omega) _) (h.row_le hi)
  obtain ⟨sequence, hseq⟩ : ∃ v, getUint f.u8 8 (f.rowsStart + i * f.rowStride) = .ok v :=
    exists_getUint (by omega)
  obtain ⟨timestampNs, htime⟩ : ∃ v, getUint f.u8 8 (f.rowsStart + i * f.rowStride + 8) = .ok v :=
    exists_getUint (by omega)
  unfold MmpdFile.slowValue MmpdFile.rowAt MmpdFile.region MmpdFile.regionStart MmpdFile.regionBytes
  simp only [hseq, htime, bind, Except.bind, pure, Except.pure]
  cases e.isOutput with
  | true => simp only [if_true, Nat.add_assoc]
  | false => rfl

theorem fastValue_eq (h : f.Parsed data) (hi : i < f.rowCount)
    (hr : numericReader e.dataType = some r) (ha : e.byteAligned = true)
    (hl : 8 * r.width ≤ e.bitLength) (ho : e.bitOffset < 2 ^ 31)
    (hin : e.bitOffset + 8 * r.width ≤ 8 * f.regionBytes e) :
    f.fastValue js e r i = f.slowValue js malformed e i := by
  obtain ⟨haligned, hlength⟩ : e.bitOffset % 8 = 0 ∧ e.bitLength % 8 = 0 := of_decide_eq_true ha
  have hat : f.valueAt e i =
      (f.rowsStart + i * f.rowStride + f.regionStart e + e.bitOffset / 8 : ℕ) := by
    unfold MmpdFile.valueAt
    rw [toInt32_of_lt ho]
    omega
  have hrow := h.row_le hi
  have hregion : f.regionStart e + f.regionBytes e ≤ f.rowStride := by
    unfold MmpdFile.regionStart MmpdFile.regionBytes MmpdFile.rowStride
    split_ifs <;> omega
  have hlen : (f.region e i).length = f.regionBytes e := by
    unfold MmpdFile.region
    rw [List.length_take, List.length_drop]
    omega
  have hbytes : (extractBits (f.region e i) e.bitOffset e.bitLength).take r.width =
      (f.u8.drop (f.valueAt e i).toNat).take r.width := by
    rw [extractBits, if_pos ⟨haligned, hlength⟩, toInt32_of_lt ho, hat]
    have hdiv : ((e.bitOffset : Int) / 8) = ((e.bitOffset / 8 : ℕ) : Int) := by omega
    rw [hdiv, take_copyBytes _ _ _ _ (by omega) (by omega), MmpdFile.region, Int.toNat_natCast,
      List.drop_take, List.drop_drop, List.take_take, Nat.min_eq_left (by omega)]
  rw [slowValue_eq h hi, decodeMmpdValue_of_numericReader hr, ScalarReader.readStart, if_pos,
    hbytes]
  · rw [MmpdFile.fastValue, if_pos (by omega)]
  · rw [extractBits, if_pos ⟨haligned, hlength⟩, length_copyBytes]
    omega

theorem decodeSeries_eq (h : f.Parsed data) (hf : f.Fits e) :
    f.decodeSeries js malformed e = (List.range f.rowCount).mapM (f.slowValue js malformed e) := by
  unfold MmpdFile.decodeSeries
  split
  · rename_i r hr ha
    have hsame :
        ∀ i ∈ List.range f.rowCount, f.fastValue js e r i = f.slowValue js malformed e i := by
      intro i hi
      have hlt := List.mem_range.mp hi
      obtain ⟨hl, ho, hin⟩ := hf (Nat.zero_lt_of_lt hlt) r hr ha
      exact fastValue_eq h hlt hr ha hl ho hin
    rw [Except.mapM_eq_ok fun i hi => (hsame i hi).trans (slowValue_eq h (List.mem_range.mp hi) e),
      Except.mapM_eq_ok fun i hi => slowValue_eq h (List.mem_range.mp hi) e]
  · rfl

theorem agrees_of_fits (h : f.Parsed data) (hf : f.Fits e) : f.Agrees js malformed e := by
  constructor
  · rw [decodeSeries_eq h hf,
      Except.mapM_eq_ok fun i hi => slowValue_eq h (List.mem_range.mp hi) e]
    refine ⟨_, rfl, by simp, fun i hi => ⟨_, slowValue_eq h hi e, ?_⟩⟩
    rw [List.getElem?_map, List.getElem?_range hi, Option.map_some]
  · intro r hr ha i hi
    obtain ⟨hl, ho, hin⟩ := hf (Nat.zero_lt_of_lt hi) r hr ha
    unfold MmpdFile.valueAt
    rw [toInt32_of_lt ho]
    omega

theorem fits_of_agrees (h : f.Parsed data) (hs : e.Sized) (hag : f.Agrees js malformed e) :
    f.Fits e := by
  intro hpos r hr ha
  obtain ⟨haligned, hlength⟩ : e.bitOffset % 8 = 0 ∧ e.bitLength % 8 = 0 := of_decide_eq_true ha
  obtain ⟨hle, hge⟩ := hag.inside r hr ha 0 hpos
  unfold MmpdFile.valueAt at hle hge
  have ho : e.bitOffset < 2 ^ 31 := by
    by_contra hlarge
    have hneg := toInt32_neg (Nat.le_of_not_lt hlarge) hs.bitOffset
    omega
  rw [toInt32_of_lt ho] at hge
  refine ⟨?_, ho, by omega⟩
  -- a narrower entry has too few bytes to decode, and the fast path has a number
  by_contra hnarrow
  obtain ⟨out, hout, -, hvalues⟩ := hag.values
  obtain ⟨v, hv, hv'⟩ := hvalues 0 hpos
  have hnull : v = none := by
    rw [slowValue_eq h hpos, decodeMmpdValue_of_numericReader hr, ScalarReader.readStart,
      if_neg] at hv
    · exact (Except.ok.inj hv).symm
    · rw [extractBits, if_pos ⟨haligned, hlength⟩, length_copyBytes]
      omega
  obtain ⟨n, hn⟩ : ∃ n, f.rowCount = n + 1 := ⟨f.rowCount - 1, by omega⟩
  have hfast :
      f.decodeSeries js malformed e = (List.range f.rowCount).mapM (f.fastValue js e r) := by
    simp only [MmpdFile.decodeSeries, hr, ha]
  rw [hfast, hn, List.range_succ_eq_map, List.mapM_cons] at hout
  obtain ⟨w, hw, hout⟩ := Except.bind_eq_ok hout
  obtain ⟨ws, -, hout⟩ := Except.bind_eq_ok hout
  cases hout
  obtain ⟨x, hx⟩ : ∃ x, plottable js (r.read js
      ((f.u8.drop (f.valueAt e 0).toNat).take r.width)) = some x := plottable_read r _
  unfold MmpdFile.fastValue at hw
  split_ifs at hw
  rw [hx] at hw
  cases hw
  rw [hnull] at hv'
  cases hv'

/-- The fast path decodes an entry as the slow path does, and inside its region, exactly if a number
is mapped with all its bytes and within the region. -/
theorem agrees_iff_fits (js : Js Number) (malformed : List (BitVec 8) → String)
    (data : List (BitVec 8)) (f : MmpdFile) (h : parseMmpd malformed data = .ok f) (d : MmpdDevice)
    (hd : d ∈ f.header.devices) (e : MmpdPdoEntry) (he : e ∈ d.entries) :
    f.Agrees js malformed e ↔ f.Fits e := by
  have hp := parsed_parseMmpd h
  have hs := (hp.entries d hd).2 e he
  exact ⟨fits_of_agrees hp hs, agrees_of_fits hp⟩

end

/-- A 32-bit position mapped with the given width, four bytes to a row. -/
def onePosition (bitLength : BitVec 16) : DumpHeader where
  inputBytes := 4
  outputBytes := 0
  devices := [⟨1, 0x22D2, 0x301, 1, 7, [], [⟨0x6064, 0, false, 4, bitLength, 0, []⟩]⟩]

def oneRow (bitLength : BitVec 16) : List (BitVec 8) :=
  dumpBytes (onePosition bitLength) 0 1 fun _ => some ⟨0, 5, [1, 2, 3, 4], []⟩

def positionEntry (bitLength : BitVec 16) : MmpdPdoEntry :=
  ⟨0x6064, 0, false, 4, bitLength.toNat, 0, ""⟩

def positionDevice (bitLength : BitVec 16) : MmpdDevice :=
  ⟨1, 0x22D2, 0x301, 1, 7, "", [positionEntry bitLength]⟩

def oneRowFile (bitLength : BitVec 16) : MmpdFile :=
  ⟨⟨1, 0, 0, 1, 4, 0, [positionDevice bitLength]⟩, oneRow bitLength, 74⟩

/-- Numbers as integers, a float as its bits. -/
def plainJs : Js Int := ⟨id, Int.ofNat, Int.ofNat⟩

theorem parsed_oneRow : parseMmpd (fun _ => "") (oneRow 32) = .ok (oneRowFile 32) ∧
    parseMmpd (fun _ => "") (oneRow 16) = .ok (oneRowFile 16) := by
  decide +kernel

theorem position_agrees : (oneRowFile 32).Agrees plainJs (fun _ => "") (positionEntry 32) := by
  refine (agrees_iff_fits plainJs (fun _ => "") (oneRow 32) _ parsed_oneRow.1 (positionDevice 32)
    List.mem_cons_self (positionEntry 32) List.mem_cons_self).mpr ?_
  intro _ r hr _
  cases hr
  decide

/-- Mapped with 16 bits, the fast path reads the two bytes behind it. -/
theorem narrowPosition_not_agrees : parseMmpd (fun _ => "") (oneRow 16) = .ok (oneRowFile 16) ∧
    ¬ (oneRowFile 16).Agrees plainJs (fun _ => "") (positionEntry 16) := by
  refine ⟨parsed_oneRow.2, fun h => ?_⟩
  have hp := parsed_parseMmpd parsed_oneRow.2
  have hf := fits_of_agrees hp ⟨by decide, by decide⟩ h
  have hwide : 8 * (ScalarReader.int 4).width ≤ 16 := (hf (by decide) _ rfl (by decide)).1
  exact absurd hwide (by decide)

end MotionMaster.Dump
