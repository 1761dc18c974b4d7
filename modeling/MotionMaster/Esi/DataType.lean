import Mathlib.Data.Nat.Digits.Defs
import MotionMaster.Esi.Schema

/-!
# Data types and units

The names of primitive types with their ETG.1020 codes, what a code and a width mean as a value, and
the symbols of packed ETG.1004 units.
-/

namespace MotionMaster.Esi

inductive ObjectCode where
  | var | array | record
  deriving DecidableEq

structure PrimitiveType where
  name : String
  code : BitVec 16
  bitSize : BitVec 16
  isSigned : Bool

def kPrimitiveTypes : List PrimitiveType :=
  [⟨"BOOL", 0x0001, 1, false⟩, ⟨"BOOLEAN", 0x0001, 1, false⟩,
    ⟨"SINT", 0x0002, 8, true⟩, ⟨"INT", 0x0003, 16, true⟩, ⟨"INT24", 0x0010, 24, true⟩,
    ⟨"DINT", 0x0004, 32, true⟩, ⟨"INT40", 0x0012, 40, true⟩, ⟨"INT48", 0x0013, 48, true⟩,
    ⟨"INT56", 0x0014, 56, true⟩, ⟨"LINT", 0x0015, 64, true⟩,
    ⟨"USINT", 0x0005, 8, false⟩, ⟨"UINT", 0x0006, 16, false⟩, ⟨"UINT24", 0x0016, 24, false⟩,
    ⟨"UDINT", 0x0007, 32, false⟩, ⟨"UINT40", 0x0018, 40, false⟩, ⟨"UINT48", 0x0019, 48, false⟩,
    ⟨"UINT56", 0x001A, 56, false⟩, ⟨"ULINT", 0x001B, 64, false⟩,
    ⟨"REAL", 0x0008, 32, false⟩, ⟨"LREAL", 0x0011, 64, false⟩,
    ⟨"BYTE", 0x001E, 8, false⟩, ⟨"WORD", 0x001F, 16, false⟩, ⟨"DWORD", 0x0020, 32, false⟩,
    ⟨"BITARR8", 0x002D, 8, false⟩, ⟨"BITARR16", 0x002E, 16, false⟩,
    ⟨"BITARR32", 0x002F, 32, false⟩,
    ⟨"BIT1", 0x0030, 1, false⟩, ⟨"BIT2", 0x0031, 2, false⟩, ⟨"BIT3", 0x0032, 3, false⟩,
    ⟨"BIT4", 0x0033, 4, false⟩, ⟨"BIT5", 0x0034, 5, false⟩, ⟨"BIT6", 0x0035, 6, false⟩,
    ⟨"BIT7", 0x0036, 7, false⟩, ⟨"BIT8", 0x0037, 8, false⟩, ⟨"BIT9", 0x0038, 9, false⟩,
    ⟨"BIT10", 0x0039, 10, false⟩, ⟨"BIT11", 0x003A, 11, false⟩, ⟨"BIT12", 0x003B, 12, false⟩,
    ⟨"BIT13", 0x003C, 13, false⟩, ⟨"BIT14", 0x003D, 14, false⟩, ⟨"BIT15", 0x003E, 15, false⟩,
    ⟨"BIT16", 0x003F, 16, false⟩,
    ⟨"GUID", 0x001D, 128, false⟩, ⟨"TIME_OF_DAY", 0x000C, 48, false⟩,
    ⟨"TIME_DIFFERENCE", 0x000D, 48, false⟩, ⟨"DOMAIN", 0x000F, 0, false⟩,
    ⟨"STRING", 0x0009, 0, false⟩, ⟨"OCTET_STRING", 0x000A, 0, false⟩,
    ⟨"UNICODE_STRING", 0x000B, 0, false⟩]

def findPrimitive (name : List Char) : Option PrimitiveType :=
  kPrimitiveTypes.find? (·.name.toList = name)

/-- `BASE(n)`, with a decimal count of 32 bits. -/
def splitParameterised (name : List Char) : Option (List Char × ℕ) :=
  let base := name.takeWhile (· ≠ '(')
  let digits := (name.drop (base.length + 1)).dropLast
  let elements := Nat.ofDigits 10 (digits.map fun c => c.toNat - '0'.toNat).reverse
  if name.length = base.length ∨ name.getLast? ≠ some ')' then none
  else if digits = [] ∨ digits.all Char.isDigit = false ∨ 2 ^ 32 ≤ elements then none
  else some (base, elements)

/-- What follows the last ` OF `. -/
def afterLastOf : List Char → Option (List Char)
  | [] => none
  | c :: rest =>
    match afterLastOf rest with
    | some element => some element
    | none =>
      if [' ', 'O', 'F', ' '].isPrefixOf (c :: rest) then some ((c :: rest).drop 4) else none

theorem afterLastOf_length {name element : List Char} (h : afterLastOf name = some element) :
    element.length < name.length := by
  induction name with
  | nil => cases h
  | cons c rest ih =>
    rw [afterLastOf] at h
    split at h
    · rename_i hrest
      cases h
      have := ih hrest
      rw [List.length_cons]
      omega
    · split_ifs at h
      cases h
      rw [List.length_drop, List.length_cons]
      omega

/-- The element of `ARRAY [a..b] OF T`, else empty. -/
def arrayElementTypeName (name : List Char) : List Char :=
  if ['A', 'R', 'R', 'A', 'Y'].isPrefixOf name then (afterLastOf name).getD [] else []

theorem arrayElementTypeName_length {name : List Char} (h : arrayElementTypeName name ≠ []) :
    (arrayElementTypeName name).length < name.length := by
  rw [arrayElementTypeName] at h ⊢
  split_ifs at h ⊢
  · cases hof : afterLastOf name with
    | none => simp [hof] at h
    | some element =>
      exact afterLastOf_length hof
  · exact absurd rfl h

def resolvePrimitive (name : List Char) : Option PrimitiveType :=
  if name = [] then none
  else
    match findPrimitive name with
    | some exact => some exact
    | none =>
      match splitParameterised name with
      | some (base, elements) =>
        match findPrimitive base with
        | some entry =>
          let bits := elements * if base = "UNICODE_STRING".toList then 16 else 8
          some { entry with bitSize := if bits ≤ 0xFFFF then BitVec.ofNat 16 bits else 0xFFFF }
        | none => none
      | none =>
        if arrayElementTypeName name ≠ [] then resolvePrimitive (arrayElementTypeName name)
        else none
termination_by name.length
decreasing_by exact arrayElementTypeName_length ‹_›

def resolvePrimitiveType (name : String) : Option PrimitiveType := resolvePrimitive name.toList

inductive ValueKind where
  | bool | int8 | int16 | int32 | int64 | uint8 | uint16 | uint32 | uint64 | real32 | real64
  | string | bytes
  deriving DecidableEq

/-- The width has to agree with the code, or the entry is bytes. -/
def resolveValueKind (dataType bitSize : BitVec 16) : ValueKind :=
  let agrees (declared : BitVec 16) (kind : ValueKind) : ValueKind :=
    if bitSize = 0 ∨ bitSize = declared then kind else .bytes
  match dataType.toNat with
  | 0x0001 => if bitSize = 0 ∨ bitSize = 1 ∨ bitSize = 8 then .bool else .bytes
  | 0x0002 => agrees 8 .int8
  | 0x0003 => agrees 16 .int16
  | 0x0004 => agrees 32 .int32
  | 0x0015 => agrees 64 .int64
  | 0x0005 | 0x001E | 0x002D => agrees 8 .uint8
  | 0x0006 | 0x001F | 0x002E => agrees 16 .uint16
  | 0x0007 | 0x0020 | 0x002F => agrees 32 .uint32
  | 0x001B => agrees 64 .uint64
  | 0x0008 => agrees 32 .real32
  | 0x0011 => agrees 64 .real64
  | 0x0009 | 0x000B => .string
  | code =>
    if 0x0030 ≤ code ∧ code ≤ 0x003F then if bitSize.toNat ≤ 8 then .uint8 else .uint16 else .bytes

/-! ### Units -/

def kPrefixes : List (BitVec 8 × String) :=
  [(0x01, "da"), (0x02, "h"), (0x03, "k"), (0x06, "M"), (0x09, "G"), (0x0C, "T"), (0x0F, "P"),
    (0x12, "E"), (0xEE, "a"), (0xF1, "f"), (0xF4, "p"), (0xF7, "n"), (0xFA, "μ"), (0xFD, "m"),
    (0xFE, "c"), (0xFF, "d")]

def kNotations : List (BitVec 8 × String) :=
  [(0x00, "1"), (0x01, "m"), (0x02, "kg"), (0x03, "s"), (0x04, "A"), (0x05, "K"), (0x06, "mol"),
    (0x07, "cd"), (0x10, "rad"), (0x11, "sr"), (0x20, "Hz"), (0x21, "N"), (0x22, "Pa"),
    (0x23, "J"), (0x24, "W"), (0x25, "C"), (0x26, "V"), (0x27, "F"), (0x28, "Ω"), (0x29, "S"),
    (0x2A, "Wb"), (0x2B, "T"), (0x2C, "H"), (0x2D, "°C"), (0x2E, "lm"), (0x2F, "lx"), (0x30, "Bq"),
    (0x31, "Gy"), (0x32, "Sv"), (0x33, "kat"), (0x40, "g*"), (0x41, "°"), (0x42, "'"),
    (0x43, "''"), (0x44, "l"), (0x45, "a"), (0x46, "ha"), (0x47, "min"), (0x48, "h"), (0x49, "d"),
    (0x4A, "a"), (0x4B, "g"), (0x4C, "t"), (0x4E, "bar"), (0x4F, "P"), (0x50, "St"), (0x51, "eV"),
    (0x52, "u"), (0x53, "AU"), (0x54, "pc"), (0x55, "m/s²"), (0x56, "Nm"), (0x57, "s²"),
    (0x58, "m²"), (0x59, "m³"), (0x5A, "Pa s"), (0x5B, "J/(kg K)"), (0x5C, "W/(m K)"),
    (0x5D, "J/(m K)"), (0x5E, "W/(m² sr)"), (0x5F, "kat/m³"), (0xA0, "s³"), (0xAC, "Step"),
    (0xB4, "Revolution"), (0xB5, "Inc"), (0xB6, "rpm")]

def builtinSymbol (table : List (BitVec 8 × String)) (notationIndex : BitVec 8) : String :=
  match table.find? (·.1 = notationIndex) with
  | some n => n.2
  | none => ""

/-- The symbol of one notation byte; the dictionary's own comes first. -/
def notationSymbol (units : List UnitType) (notationIndex : BitVec 8) : String :=
  match units.find? (·.notationIndex = notationIndex) with
  | some u => if u.symbol ≠ "" then u.symbol else builtinSymbol kNotations notationIndex
  | none => builtinSymbol kNotations notationIndex

def esiUnitSymbol (unit : BitVec 32) (units : List UnitType) : String :=
  let numeratorByte := unit.extractLsb' 16 8
  let denominatorByte := unit.extractLsb' 8 8
  let overridden := units.any fun u =>
    u.notationIndex = numeratorByte ∨ u.notationIndex = denominatorByte
  let dimensioned (notationIndex : BitVec 8) : String :=
    if notationSymbol units notationIndex = "1" then "" else notationSymbol units notationIndex
  let numerator := dimensioned numeratorByte
  let denominator := dimensioned denominatorByte
  if unit = 0 then ""
  else if overridden = false ∧ unit = 0x00B44700 then "rpm"
  else if numerator = "" ∧ denominator = "" then ""
  else builtinSymbol kPrefixes (unit.extractLsb' 24 8) ++ numerator ++
    if denominator ≠ "" then "/" ++ denominator else ""

example : esiUnitSymbol 0xF756B500 [] = "nNm/Inc" := by decide

end MotionMaster.Esi
