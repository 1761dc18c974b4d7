import MotionMaster.ConfigFile.Parse
import MotionMaster.Device.Parameters

/-!
# Reading the value of a row

`parseConfigFileValue`. A REAL32 is read in two ways: format 1 and newer scan sign, digits and
point, format 0 reads the two sides of the point as whole numbers and gives the second ten digits.
-/

namespace MotionMaster.Config

/-- The float arithmetic of the machine, and how a float is printed. -/
structure FloatArithmetic where
  /-- `static_cast<float>` of an integer. -/
  ofInt : Int → BitVec 32
  /-- `static_cast<float>(static_cast<double>(fraction) * 1e-10)`. -/
  tenDigits : Int → BitVec 32
  add : BitVec 32 → BitVec 32 → BitVec 32
  div : BitVec 32 → BitVec 32 → BitVec 32
  neg : BitVec 32 → BitVec 32
  /-- Within a relative 1e-6. -/
  close : BitVec 32 → BitVec 32 → Bool
  close_comm : ∀ a b, close a b = close b a
  text : BitVec 32 → Text
  textDouble : BitVec 64 → Text

/-- Whole numbers in 32 bits, for runs in which no rounding matters. -/
def plainArithmetic : FloatArithmetic where
  ofInt := BitVec.ofInt 32
  tenDigits := BitVec.ofInt 32
  add := (· + ·)
  div := (· / ·)
  neg := (- ·)
  close a b := a = b
  close_comm a b := by simp [eq_comm]
  text b := ascii (toString b.toNat)
  textDouble b := ascii (toString b.toNat)

def kFractionalDigits : ℕ := 10

/-- The loop of `parseReal`. The parts are 64-bit. -/
structure RealScan where
  integerPart : ℕ := 0
  decimalPart : ℕ := 0
  decimalDigits : ℕ := 0
  point : Bool := false
  digits : Bool := false
  deriving DecidableEq

def RealScan.addDigit (s : RealScan) (d : ℕ) : RealScan :=
  if ¬ s.point then
    { s with digits := true, integerPart := (s.integerPart * 10 + d) % 2 ^ 64 }
  else if s.decimalDigits < kFractionalDigits then
    { s with
      digits := true
      decimalPart := (s.decimalPart * 10 + d) % 2 ^ 64
      decimalDigits := s.decimalDigits + 1 }
  else { s with digits := true }

/-- The parts, or the character that is none of a number. -/
def scanReal : Text → RealScan → Except (BitVec 8) RealScan
  | [], s => .ok s
  | c :: text, s =>
    if c = byte '.' ∧ ¬ s.point then scanReal text { s with point := true }
    else
      match digitOf 10 c with
      | some d => scanReal text (s.addDigit d)
      | none => .error c

/-- A REAL32 value before it is rounded. -/
structure RealParts where
  negative : Bool
  integerPart : ℕ
  decimalPart : ℕ
  decimalDigits : ℕ
  deriving DecidableEq

def realParts (text : Text) : Except String RealParts :=
  let text := trimLeft text
  if text = [] then .error "the value is empty"
  else
    let negative : Bool := text.head? = some (byte '-')
    let body := if negative then text.tail else text
    match scanReal body {} with
    | .error c =>
      .error ("'" ++ display body ++ "' holds '" ++ display [c] ++
        "'; the drive reads a REAL32 value with any character other than a digit, a point or a " ++
        "leading minus as 0")
    | .ok s =>
      if ¬ s.digits then .error ("'" ++ display body ++ "' is not a number")
      else .ok ⟨negative, s.integerPart, s.decimalPart, s.decimalDigits⟩

/-- A REAL32 value of format 0 before it is rounded. -/
structure Format0Parts where
  whole : Int
  fraction : Int
  deriving DecidableEq

def format0Parts (text : Text) : Except String Format0Parts :=
  let text := trim text
  let whole := parseWhole .int64 10 (text.takeWhile (· ≠ byte '.'))
  let fraction :=
    if text.contains (byte '.') then parseWhole .int64 10 (text.dropWhile (· ≠ byte '.')).tail
    else some 0
  match whole, fraction with
  | some whole, some fraction => .ok ⟨whole, fraction⟩
  | _, _ => .error ("'" ++ display text ++ "' is not a number")

/-- `std::llabs`, as it wraps. -/
def llabs (n : Int) : Int := (BitVec.ofInt 64 n.natAbs).toInt

/-- The number of an integer object, before it is stored. -/
def integerPart (t : Scalar) (text : Text) : Except String Int :=
  let text := trim text
  let text := if text.head? = some (byte '+') then text.tail else text
  match parseWhole .int64 10 text with
  | none => .error ("'" ++ display text ++ "' is not a whole number")
  | some value =>
    if t.lowest ≤ value ∧ value ≤ t.highest then .ok value
    else .error (toString value ++ " is outside the range of the object's data type")

def parseInteger (t : Scalar) (text : Text) : Except String DeviceParameterValue :=
  (integerPart t text).map fun value => .number t (BitVec.ofInt t.width value)

def kBoolean : ℕ := 0x0001

def kReal32 : ℕ := 0x0008

/-- The other integer types a file may hold. -/
def integerTypes : List (ℕ × Scalar) :=
  [(0x0002, .int8), (0x0003, .int16), (0x0004, .int32), (0x0005, .uint8), (0x0006, .uint16),
    (0x0007, .uint32)]

section

variable (fa : FloatArithmetic)

def RealParts.round (parts : RealParts) : BitVec 32 :=
  let result := fa.add (fa.ofInt parts.integerPart)
    (fa.div (fa.ofInt parts.decimalPart) (fa.ofInt (10 ^ parts.decimalDigits : ℕ)))
  if parts.negative then fa.neg result else result

def Format0Parts.round (parts : Format0Parts) : BitVec 32 :=
  let result := fa.add (fa.ofInt (llabs parts.whole)) (fa.tenDigits parts.fraction)
  if parts.whole < 0 then fa.neg result else result

def parseReal (text : Text) : Except String DeviceParameterValue :=
  (realParts text).map fun parts => .number .float (parts.round fa)

def parseRealFormat0 (text : Text) : Except String DeviceParameterValue :=
  (format0Parts text).map fun parts => .number .float (parts.round fa)

def parseConfigFileValue (object : DeviceParameter) (value : Text) (format : Int) :
    Except String DeviceParameterValue :=
  if object.dataType = kBoolean then
    match integerPart .uint8 value with
    | .error e => .error e
    | .ok n =>
      if n > 1 then .error "a BOOLEAN value is 0 or 1" else .ok (.number .uint8 (BitVec.ofInt 8 n))
  else
    match integerTypes.lookup object.dataType with
    | some t => parseInteger t value
    | none =>
      if object.dataType = kReal32 then
        if format = 0 then parseRealFormat0 fa value else parseReal fa value
      else if object.dataType = kVisibleString then .ok (.string (trimLeft value))
      else
        .error ("the drive does not load data type 0x" ++ hexDigits 4 object.dataType ++
          " from a file")

end

/-- A later row at the same address wins, as it does on the drive. -/
def byAddress (rows : List ConfigFileRow) (address : Address) : Option ConfigFileRow :=
  (rows.filter fun row => row.address = address).getLast?

theorem mem_of_byAddress {row : ConfigFileRow} {rows : List ConfigFileRow} {address : Address}
    (h : byAddress rows address = some row) : row ∈ rows ∧ row.address = address := by
  have hmem := List.mem_of_getLast? h
  obtain ⟨hrow, haddress⟩ := List.mem_filter.mp hmem
  exact ⟨hrow, by simpa using haddress⟩

/-- What the drive reads at an address; refused is no value. -/
def effectiveValue (fa : FloatArithmetic) (file : ConfigFile) (address : Address)
    (object : DeviceParameter) : Option (Option DeviceParameterValue) :=
  (byAddress file.rows address).map fun row =>
    (parseConfigFileValue fa object row.value file.format).toOption

end MotionMaster.Config
