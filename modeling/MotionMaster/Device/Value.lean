import MotionMaster.Lib.Bits
import MotionMaster.Lib.Codec
import MotionMaster.Lib.Float

/-!
# Parameter values

The value of one object: the alternative its data type selects, its wire encoding, and the cell a
scalar is stored in.
-/

namespace MotionMaster

open Bytes BinaryFloat

/-- The arithmetic alternatives of `DeviceParameterValue`. -/
inductive Scalar where
  | int8 | int16 | int32 | int64
  | uint8 | uint16 | uint32 | uint64
  | float | double
  deriving DecidableEq, Repr

namespace Scalar

abbrev width : Scalar → ℕ
  | int8 | uint8 => 8
  | int16 | uint16 => 16
  | int32 | uint32 | float => 32
  | int64 | uint64 | double => 64

def bytes (t : Scalar) : ℕ := t.width / 8

theorem bytes_le (t : Scalar) : t.bytes ≤ 8 := by
  cases t <;> decide

def IsIntegral (t : Scalar) : Prop := t ≠ float ∧ t ≠ double
  deriving Decidable

def IsSigned : Scalar → Prop
  | int8 | int16 | int32 | int64 => True
  | _ => False

instance (t : Scalar) : Decidable t.IsSigned := by
  cases t <;> unfold IsSigned <;> infer_instance

def lowest (t : Scalar) : Int := if t.IsSigned then -(2 ^ (t.width - 1)) else 0

def highest (t : Scalar) : Int := if t.IsSigned then 2 ^ (t.width - 1) - 1 else 2 ^ t.width - 1

/-- The integer a pattern of an integral type stands for. -/
def toInt (t : Scalar) (bits : BitVec t.width) : Int :=
  if t.IsSigned then bits.toInt else bits.toNat

end Scalar

inductive DeviceParameterValue where
  | number (t : Scalar) (bits : BitVec t.width)
  | string (text : List (BitVec 8))
  | bytes (raw : List (BitVec 8))
  deriving DecidableEq

/-- Which alternative a value of a data type is held as. -/
inductive Alternative where
  | number (t : Scalar)
  | string
  | bytes
  deriving DecidableEq, Repr

/-- The scalar data types: code, alternative, name. -/
def scalarDataTypes : List (ℕ × Scalar × String) :=
  [(0x0001, .uint8, "BOOLEAN"), (0x0005, .uint8, "UNSIGNED8"), (0x001E, .uint8, "BYTE"),
    (0x0002, .int8, "INTEGER8"), (0x0003, .int16, "INTEGER16"), (0x0004, .int32, "INTEGER32"),
    (0x0006, .uint16, "UNSIGNED16"), (0x001F, .uint16, "WORD"),
    (0x0007, .uint32, "UNSIGNED32"), (0x0020, .uint32, "DWORD"),
    (0x0008, .float, "REAL32"), (0x0011, .double, "REAL64"),
    (0x0015, .int64, "INTEGER64"), (0x001B, .uint64, "UNSIGNED64")]

def kVisibleString : ℕ := 0x0009

def kUnicodeString : ℕ := 0x000B

/-- The alternative of `defaultValueForDataType`. Anything not in the table is raw bytes. -/
def alternative (dataType : ℕ) : Alternative :=
  match scalarDataTypes.lookup dataType with
  | some (t, _) => .number t
  | none => if dataType = kVisibleString ∨ dataType = kUnicodeString then .string else .bytes

def IsScalarDataType (dataType : ℕ) : Prop := ∃ t, alternative dataType = .number t

instance (dataType : ℕ) : Decidable (IsScalarDataType dataType) :=
  match h : alternative dataType with
  | .number t => isTrue ⟨t, h⟩
  | .string => isFalse (by rintro ⟨t, ht⟩; cases h.symm.trans ht)
  | .bytes => isFalse (by rintro ⟨t, ht⟩; cases h.symm.trans ht)

def objectDataTypeName (dataType : ℕ) : String :=
  match scalarDataTypes.lookup dataType with
  | some (_, name) => name
  | none => "UNKNOWN"

/-- What `std::format` prints for a double. -/
structure FloatingPoint where
  text : BitVec 64 → String

/-- For runs that print no double. -/
def plainText : FloatingPoint := ⟨fun _ => ""⟩

variable (fp : FloatingPoint)

/-- `static_cast<double>` of a number. -/
def asDouble : (t : Scalar) → BitVec t.width → BitVec 64
  | .float, bits => convert binary32 binary64 bits
  | .double, bits => bits
  | t, bits => ofInt binary64 (t.toInt bits)

def outsideText (x : String) (t : Scalar) : String :=
  x ++ " is outside [" ++ toString t.lowest ++ ", " ++ toString t.highest ++ "]"

/-- Converts a number without changing its value, or says why not. -/
def convertExactly (target t : Scalar) (bits : BitVec t.width) :
    Except String (BitVec target.width) :=
  if target.IsIntegral then
    if t.IsIntegral then
      if target.lowest ≤ t.toInt bits ∧ t.toInt bits ≤ target.highest then
        .ok (BitVec.ofInt target.width (t.toInt bits))
      else .error (outsideText (toString (t.toInt bits)) target)
    else
      match whole binary64 (asDouble t bits) with
      | none => .error (fp.text (asDouble t bits) ++ " is not a whole number")
      | some x =>
        if target.lowest ≤ x ∧ x ≤ target.highest then .ok (BitVec.ofInt target.width x)
        else .error (outsideText (fp.text (asDouble t bits)) target)
  else if target = .float then
    if Past binary32 binary64 (asDouble t bits) then
      .error (fp.text (asDouble t bits) ++ " is outside the range of a REAL32")
    else .ok ((convert binary64 binary32 (asDouble t bits)).setWidth target.width)
  else .ok ((asDouble t bits).setWidth target.width)

def hexDigits (width n : ℕ) : String :=
  let digits := (Nat.toDigits 16 n).map Char.toUpper
  String.ofList (List.replicate (width - digits.length) '0' ++ digits)

def parameterText (index subindex : ℕ) : String :=
  "parameter 0x" ++ hexDigits 4 index ++ ":" ++ hexDigits 2 subindex

/-- Serialises the alternative the data type expects. -/
def encodeSdoBytes (dataType : ℕ) (value : DeviceParameterValue) :
    Except String (List (BitVec 8)) :=
  match alternative dataType, value with
  | .number t, .number t' bits =>
    if t' = t then .ok (encode t.bytes bits.toNat)
    else .error ("encodeSdoBytes: data type 0x" ++ hexDigits 4 dataType ++ " expects a " ++
      toString t.bytes ++ "-byte scalar but the value holds a different alternative")
  | .number t, _ =>
    .error ("encodeSdoBytes: data type 0x" ++ hexDigits 4 dataType ++ " expects a " ++
      toString t.bytes ++ "-byte scalar but the value holds a different alternative")
  | .string, .string text => .ok text
  | .string, _ =>
    .error ("encodeSdoBytes: data type 0x" ++ hexDigits 4 dataType ++ " expects a string value")
  | .bytes, .bytes raw => .ok raw
  | .bytes, _ =>
    .error ("encodeSdoBytes: data type 0x" ++ hexDigits 4 dataType ++ " expects raw bytes")

/-- The text of a fixed-width field ends at the first NUL and loses its trailing spaces. -/
def visibleText (bytes : List (BitVec 8)) : List (BitVec 8) :=
  ((bytes.takeWhile (· ≠ 0x00)).reverse.dropWhile (· = 0x20)).reverse

/-- Builds the alternative the data type dictates from wire bytes. -/
def decodeSdoBytes (dataType : ℕ) (bytes : List (BitVec 8)) :
    Except String DeviceParameterValue :=
  match alternative dataType with
  | .number t =>
    if bytes.length < t.bytes then
      .error ("decodeSdoBytes: data type 0x" ++ hexDigits 4 dataType ++ " needs " ++
        toString t.bytes ++ " bytes, got " ++ toString bytes.length)
    else .ok (.number t (BitVec.ofNat t.width (decode (bytes.take t.bytes))))
  | .string => .ok (.string (if dataType = kVisibleString then visibleText bytes else bytes))
  | .bytes => .ok (.bytes bytes)

variable {dataType : ℕ} {t : Scalar} {bytes : List (BitVec 8)}

theorem decodeSdoBytes_number (ht : alternative dataType = .number t)
    (hl : t.bytes ≤ bytes.length) :
    decodeSdoBytes dataType bytes =
      .ok (.number t (BitVec.ofNat t.width (decode (bytes.take t.bytes)))) := by
  simp [decodeSdoBytes, ht, Nat.not_lt.mpr hl]

theorem le_length_of_decodeSdoBytes
    (ht : alternative dataType = .number t) {v : DeviceParameterValue}
    (h : decodeSdoBytes dataType bytes = .ok v) : t.bytes ≤ bytes.length := by
  by_contra hl
  simp [decodeSdoBytes, ht, Nat.not_le.mp hl] at h

theorem decodeSdoBytes_of_width
    (h : ∀ t, alternative dataType = .number t → t.bytes ≤ bytes.length) :
    ∃ v, decodeSdoBytes dataType bytes = .ok v := by
  cases ha : alternative dataType with
  | number t => exact ⟨_, decodeSdoBytes_number ha (h t ha)⟩
  | string => simp [decodeSdoBytes, ha]
  | bytes => simp [decodeSdoBytes, ha]

/-- The zero of the alternative a value of the data type is held as. -/
def defaultValueForDataType (dataType : ℕ) : DeviceParameterValue :=
  match alternative dataType with
  | .number t => .number t 0
  | .string => .string []
  | .bytes => .bytes []

/-- The incoming value as the alternative the declared data type dictates. -/
def coerce (index subindex dataType : ℕ) (v : DeviceParameterValue) :
    Except String DeviceParameterValue :=
  match alternative dataType, v with
  | .number target, .number t bits =>
    match convertExactly fp target t bits with
    | .ok converted => .ok (.number target converted)
    | .error e =>
      .error (parameterText index subindex ++ " is " ++ objectDataTypeName dataType ++ ": " ++ e)
  | .number _, _ =>
    .error (parameterText index subindex ++ " is numeric; cannot assign a non-numeric value")
  | .string, .string text => .ok (.string text)
  | .string, _ =>
    .error (parameterText index subindex ++ " is a string; cannot assign a non-string value")
  | .bytes, .bytes raw => .ok (.bytes raw)
  | .bytes, _ =>
    .error (parameterText index subindex ++ " is raw bytes; assign a std::vector<uint8_t>")

theorem convertExactly_bit (t : Scalar) (b : Bool) :
    convertExactly fp t t (if b then 1 else 0) = .ok (if b then 1 else 0) := by
  cases t with
  | float =>
    have hpast : ∀ b : Bool, ¬ Past binary32 binary64 (asDouble .float (if b then 1 else 0)) := by
      decide +kernel
    have hsame : ∀ b : Bool, convert binary64 binary32 (asDouble .float (if b then 1 else 0)) =
        if b then 1 else 0 := by
      decide +kernel
    rw [convertExactly, if_neg (by decide), if_pos rfl, if_neg (hpast b), hsame b]
    rfl
  | double => cases b <;> rfl
  | _ => cases b <;> rfl

theorem length_encodeSdoBytes (ht : alternative dataType = .number t)
    {w : DeviceParameterValue}
    (h : encodeSdoBytes dataType w = .ok bytes) : bytes.length = t.bytes := by
  unfold encodeSdoBytes at h
  rw [ht] at h
  cases w with
  | number t' bits =>
    dsimp only at h
    split at h
    · cases h
      simp
    · cases h
  | string text => cases h
  | bytes raw => cases h

def packLoop : ℕ → List (BitVec 8) → BitVec 64 → BitVec 64
  | _, [], out => out
  | i, b :: bytes, out => packLoop (i + 1) bytes (out ||| b.setWidth 64 <<< (8 * i))

/-- Packs up to eight wire bytes, zero-extended. -/
def packLeBits (bytes : List (BitVec 8)) : BitVec 64 := packLoop 0 (bytes.take 8) 0

def unpackLeBits (bits : BitVec 64) (size : ℕ) : List (BitVec 8) :=
  (List.range size).map fun i => if i < 8 then (bits >>> (8 * i)).setWidth 8 else 0

variable {j : ℕ}

theorem getLsbD_packLoop (i : ℕ) (bytes : List (BitVec 8)) (out : BitVec 64)
    (hj : j < 64) :
    (packLoop i bytes out).getLsbD j =
      (out.getLsbD j || (decide (8 * i ≤ j) && bit bytes (j - 8 * i))) := by
  induction bytes generalizing i out with
  | nil => simp [packLoop]
  | cons b bytes ih =>
    rw [packLoop, ih, bit_cons, BitVec.getLsbD_or, Bool.or_assoc]
    congr 1
    by_cases h1 : 8 * i ≤ j
    · by_cases h2 : j - 8 * i < 8
      · have h3 : ¬ 8 * (i + 1) ≤ j := by omega
        simp [h1, h2, h3, hj]
      · have h3 : 8 * (i + 1) ≤ j := by omega
        have h4 : j - 8 * (i + 1) = j - 8 * i - 8 := by omega
        have h5 : b.getLsbD (j - 8 * i) = false := BitVec.getLsbD_of_ge _ _ (by omega)
        simp [h1, h2, h3, h4, h5, hj]
    · have h3 : ¬ 8 * (i + 1) ≤ j := by omega
      simp [h1, h3, BitVec.getLsbD_shiftLeft]

theorem bit_take_eight (bytes : List (BitVec 8)) (hj : j < 64) :
    bit (bytes.take 8) j = bit bytes j := by
  have h : j / 8 < 8 := by omega
  simp [bit, h]

theorem getLsbD_packLeBits (bytes : List (BitVec 8)) (hj : j < 64) :
    (packLeBits bytes).getLsbD j = bit bytes j := by
  simp [packLeBits, getLsbD_packLoop 0 _ _ hj, bit_take_eight bytes hj]

theorem bit_unpackLeBits (bits : BitVec 64) (size j : ℕ) :
    bit (unpackLeBits bits size) j = (decide (j < 8 * size) && bits.getLsbD j) := by
  unfold bit unpackLeBits
  by_cases h : j < 8 * size
  · have hl : j / 8 < size := by omega
    have hd : 8 * (j / 8) + j % 8 = j := Nat.div_add_mod j 8
    have hm : j % 8 < 8 := Nat.mod_lt _ (by omega)
    by_cases h8 : j / 8 < 8
    · simp [h, hl, h8, hm, hd]
    · have hj : 64 ≤ j := by omega
      simp [h, hl, h8, BitVec.getLsbD_of_ge _ _ hj]
  · rw [List.getD_eq_default _ _ (by simp; omega)]
    simp [h]

@[simp] theorem length_unpackLeBits (bits : BitVec 64) (size : ℕ) :
    (unpackLeBits bits size).length = size := by
  simp [unpackLeBits]

theorem take_unpackLeBits (bits : BitVec 64) {n size : ℕ} (h : n ≤ size) :
    (unpackLeBits bits size).take n = unpackLeBits bits n := by
  rw [unpackLeBits, ← List.map_take, List.take_range, Nat.min_eq_left h, unpackLeBits]

/-- The bytes a scalar needs come out of the cell as they went in. -/
theorem unpack_pack (bytes : List (BitVec 8)) {n : ℕ} (hn : n ≤ 8) (hl : n ≤ bytes.length) :
    unpackLeBits (packLeBits bytes) n = bytes.take n := by
  refine ext_bit (by simp [hl]) fun i hi => ?_
  rw [length_unpackLeBits] at hi
  have hd : i / 8 < n := by omega
  rw [bit_unpackLeBits, getLsbD_packLeBits bytes (by omega), decide_eq_true hi, Bool.true_and]
  simp [bit, hd]

/-- A scalar's bytes come out of the cell as they went in. -/
theorem bit_unpack_pack (bytes : List (BitVec 8)) (hl : bytes.length ≤ 8) (j : ℕ) :
    bit (unpackLeBits (packLeBits bytes) 8) j = bit bytes j := by
  rw [bit_unpackLeBits]
  by_cases hj : j < 64
  · rw [getLsbD_packLeBits bytes hj, decide_eq_true hj, Bool.true_and]
  · rw [bit_of_le (by omega)]
    simp
    omega

end MotionMaster
