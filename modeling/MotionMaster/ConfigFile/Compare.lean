import Mathlib.Data.Finset.Sort
import MotionMaster.ConfigFile.Value

/-!
# Comparing two files

`compareConfiguration` reads the second value first and compares the first with it. If the drive
reads only one of the two, the call decides whether the value read or its text is compared.
-/

namespace MotionMaster.Config

/-- Whether two texts are the same number, as `strtod` reads them. -/
structure NumberComparison where
  same : Text → Text → Bool
  same_comm : ∀ a b, same a b = same b a

inductive ConfigRowOutcome where
  | loads | unknownObject | notLoadable
  deriving DecidableEq, Repr

def isWhitelistedCommunicationIndex (index : BitVec 16) : Bool :=
  (0x1600 ≤ index ∧ index ≤ 0x1603) ∨ (0x1A00 ≤ index ∧ index ≤ 0x1A03) ∨
    (0x1C10 ≤ index ∧ index ≤ 0x1C13)

def isLoadableDataType (dataType : ℕ) : Bool :=
  dataType = kBoolean ∨ (integerTypes.lookup dataType).isSome ∨ dataType = kReal32 ∨
    dataType = kVisibleString

def kBackupFlag : ℕ := 0x0100

def configRowOutcome (index : BitVec 16) (object : Option DeviceParameter) : ConfigRowOutcome :=
  match object with
  | none => .unknownObject
  | some object =>
    if index < 0x2000 ∧ ¬ isWhitelistedCommunicationIndex index then .notLoadable
    else if 0x2000 ≤ index ∧ object.metadata.access &&& kBackupFlag = 0 then .notLoadable
    else if ¬ isLoadableDataType object.dataType then .notLoadable
    else .loads

structure ConfigLiveObject where
  definition : DeviceParameter
  /-- Empty when the read failed. -/
  live : Option DeviceParameterValue

structure ConfigCompareRow where
  index : BitVec 16
  subindex : BitVec 8
  name : String
  first : Option Text
  second : Option Text
  live : Option DeviceParameterValue
  outcome : ConfigRowOutcome
  differsBetween : Bool
  differsFromLive : Bool
  deriving DecidableEq

/-- The order of the pairs in a `std::set`. -/
def precedes (a b : Address) : Prop :=
  a.1.toNat * 256 + a.2.toNat ≤ b.1.toNat * 256 + b.2.toNat
  deriving Decidable

instance : IsTrans Address precedes := ⟨fun _ _ _ h h' => Nat.le_trans h h'⟩

instance : Std.Total precedes := ⟨fun _ _ => Nat.le_total _ _⟩

instance : Std.Antisymm precedes := ⟨by
  rintro ⟨i, s⟩ ⟨i', s'⟩ h h'
  have hs := s.isLt
  have hs' := s'.isLt
  simp only [precedes] at h h'
  have hindex : i = i' := BitVec.eq_of_toNat_eq (by omega)
  have hsubindex : s = s' := BitVec.eq_of_toNat_eq (by omega)
  rw [hindex, hsubindex]⟩

def addresses (first second : List ConfigFileRow) : List Address :=
  ((first ++ second).map (·.address)).toFinset.sort precedes

section

variable (fa : FloatArithmetic) (nc : NumberComparison)

def sameValue (first second : Text) : Bool := first = second ∨ nc.same first second

def liveText : DeviceParameterValue → Text
  | .string text => text
  | .bytes _ => []
  | .number .float bits => fa.text bits
  | .number .double bits => fa.textDouble bits
  | .number t bits => ascii (toString (t.toInt bits))

def sameParsed : DeviceParameterValue → DeviceParameterValue → Bool
  | .number .float a, .number .float b => fa.close a b
  | parsed, live => parsed = live

def sameConfigValue (object : DeviceParameter) (value : Text) (format : Int)
    (live : DeviceParameterValue) : Bool :=
  match parseConfigFileValue fa object value format with
  | .error _ => sameValue nc (trim value) (liveText fa live)
  | .ok parsed => sameParsed fa parsed live

def sameFileValues (object : Option DeviceParameter) (a : Text) (formatA : Int) (b : Text)
    (formatB : Int) : Bool :=
  match object.map fun object => (object, parseConfigFileValue fa object b formatB) with
  | some (object, .ok parsed) => sameConfigValue fa nc object a formatA parsed
  | _ => sameValue nc (trim a) (trim b)

variable (objects : Address → Option ConfigLiveObject)

def compareRow (first : ConfigFile) (second : Option ConfigFile) (address : Address) :
    ConfigCompareRow :=
  let secondFormat := (second.map (·.format)).getD first.format
  let rowA := byAddress first.rows address
  let rowB := second.bind fun second => byAddress second.rows address
  let definition := (objects address).map (·.definition)
  let live := (objects address).bind (·.live)
  { index := address.1
    subindex := address.2
    name := (definition.map (·.metadata.name)).getD ""
    first := rowA.map (·.trimmedValue)
    second := rowB.map (·.trimmedValue)
    live := live
    outcome := configRowOutcome address.1 definition
    differsBetween :=
      match rowA, rowB with
      | some a, some b => !sameFileValues fa nc definition a.value first.format b.value secondFormat
      | _, _ => false
    differsFromLive :=
      match definition, live, rowA, rowB with
      | some object, some live, some a, _ =>
        !sameConfigValue fa nc object a.value first.format live
      | some object, some live, none, some b =>
        !sameConfigValue fa nc object b.value secondFormat live
      | _, _, _, _ => false }

def compareConfiguration (first : ConfigFile) (second : Option ConfigFile) :
    List ConfigCompareRow :=
  (addresses first.rows ((second.map (·.rows)).getD [])).map
    (compareRow fa nc objects first second)

/-! ### Swapping the files -/

def ConfigCompareRow.swapped (row : ConfigCompareRow) : ConfigCompareRow :=
  { row with first := row.second, second := row.first }

/-- The comparison with the drive goes by the first file, and is left out. -/
def ConfigCompareRow.betweenFiles (row : ConfigCompareRow) : ConfigCompareRow :=
  { row with differsFromLive := false }

def ComparesSymmetrically (first second : ConfigFile) : Prop :=
  (compareConfiguration fa nc objects second (some first)).map (·.betweenFiles) =
    (compareConfiguration fa nc objects first (some second)).map (·.swapped.betweenFiles)

/-- A text the drive reads is the text of the value it reads. -/
def Rendered (object : DeviceParameter) (text : Text) (format : Int) : Prop :=
  ∀ value, parseConfigFileValue fa object text format = .ok value → trim text = liveText fa value

/-- If the drive reads one of the two texts only, that one is rendered. -/
def RenderedIfAlone (object : DeviceParameter) (a : Text) (formatA : Int) (b : Text)
    (formatB : Int) : Prop :=
  (parseConfigFileValue fa object a formatA).isOk ≠
      (parseConfigFileValue fa object b formatB).isOk →
    Rendered fa object a formatA ∧ Rendered fa object b formatB

variable {fa nc objects}

theorem sameValue_comm (a b : Text) : sameValue nc a b = sameValue nc b a := by
  have h : (a = b ∨ nc.same a b = true) ↔ (b = a ∨ nc.same b a = true) := by
    rw [nc.same_comm a b, eq_comm]
  exact decide_eq_decide.mpr h

theorem sameParsed_comm (a b : DeviceParameterValue) : sameParsed fa a b = sameParsed fa b a := by
  have heq : decide (a = b) = decide (b = a) := by simp [eq_comm]
  unfold sameParsed
  split
  · exact fa.close_comm _ _
  · rename_i hleft
    split
    · rename_i x y
      exact absurd rfl (hleft y x rfl)
    · exact heq

variable {object : DeviceParameter} {a b : Text} {formatA formatB : Int}

theorem sameFileValues_ok {value : DeviceParameterValue}
    (h : parseConfigFileValue fa object b formatB = .ok value) :
    sameFileValues fa nc (some object) a formatA b formatB =
      sameConfigValue fa nc object a formatA value := by
  simp only [sameFileValues, Option.map_some, h]

theorem sameFileValues_error {e : String}
    (h : parseConfigFileValue fa object b formatB = .error e) :
    sameFileValues fa nc (some object) a formatA b formatB = sameValue nc (trim a) (trim b) := by
  simp only [sameFileValues, Option.map_some, h]

/-- Two values of an object are compared the same way round and back, if a text that is read beside
a refused one is rendered: the refused text is then compared with the same text both times. -/
theorem sameFileValues_comm (h : RenderedIfAlone fa object a formatA b formatB) :
    sameFileValues fa nc (some object) b formatB a formatA =
      sameFileValues fa nc (some object) a formatA b formatB := by
  cases ha : parseConfigFileValue fa object a formatA with
  | ok v =>
    cases hb : parseConfigFileValue fa object b formatB with
    | ok w =>
      rw [sameFileValues_ok ha, sameFileValues_ok hb]
      simp only [sameConfigValue, ha, hb, sameParsed_comm w v]
    | error e =>
      have hrendered := (h (by rw [ha, hb]; nofun)).1 v ha
      rw [sameFileValues_ok ha, sameFileValues_error hb]
      simp only [sameConfigValue, hb, ← hrendered, sameValue_comm (trim b)]
  | error e =>
    cases hb : parseConfigFileValue fa object b formatB with
    | ok w =>
      have hrendered := (h (by rw [ha, hb]; nofun)).2 w hb
      rw [sameFileValues_error ha, sameFileValues_ok hb]
      simp only [sameConfigValue, ha, ← hrendered, sameValue_comm (trim b)]
    | error e' =>
      rw [sameFileValues_error ha, sameFileValues_error hb, sameValue_comm]

theorem addresses_comm (first second : List ConfigFileRow) :
    addresses first second = addresses second first := by
  unfold addresses
  congr 1
  ext address
  simp [or_comm]

theorem mem_addresses_of_byAddress {first second : List ConfigFileRow} {address : Address}
    {row : ConfigFileRow} (h : byAddress first address = some row) :
    address ∈ addresses first second := by
  obtain ⟨hmem, haddress⟩ := mem_of_byAddress h
  rw [addresses, Finset.mem_sort, List.mem_toFinset, ← haddress]
  exact List.mem_map_of_mem (List.mem_append_left _ hmem)

variable {first second : ConfigFile}

/-- Swapped, a row has its columns swapped; only the mark between the files can change. -/
theorem betweenFiles_swapped_iff (address : Address) :
    (compareRow fa nc objects second (some first) address).betweenFiles =
        (compareRow fa nc objects first (some second) address).swapped.betweenFiles ↔
      (compareRow fa nc objects second (some first) address).differsBetween =
        (compareRow fa nc objects first (some second) address).differsBetween := by
  constructor
  · intro h
    have hmark := congrArg ConfigCompareRow.differsBetween h
    exact hmark
  · intro h
    simp only [compareRow, Option.map_some, Option.bind_some, Option.getD_some,
      ConfigCompareRow.betweenFiles, ConfigCompareRow.swapped] at h ⊢
    rw [h]

theorem differsBetween_comm (address : Address)
    (h : ∀ a ∈ byAddress first.rows address, ∀ b ∈ byAddress second.rows address,
      ∀ object ∈ objects address,
        RenderedIfAlone fa object.definition a.value first.format b.value second.format) :
    (compareRow fa nc objects second (some first) address).differsBetween =
      (compareRow fa nc objects first (some second) address).differsBetween := by
  simp only [compareRow, Option.map_some, Option.bind_some, Option.getD_some]
  cases ha : byAddress first.rows address with
  | none => cases byAddress second.rows address <;> rfl
  | some a =>
    cases hb : byAddress second.rows address with
    | none => rfl
    | some b =>
      cases hobject : objects address with
      | none => simp [sameFileValues, sameValue_comm (trim b.value) (trim a.value)]
      | some object => exact congrArg (!·) (sameFileValues_comm (h a ha b hb object hobject))

theorem symmetric_rows_iff : ComparesSymmetrically fa nc objects first second ↔
    ∀ address ∈ addresses first.rows second.rows,
      (compareRow fa nc objects second (some first) address).differsBetween =
        (compareRow fa nc objects first (some second) address).differsBetween := by
  simp only [ComparesSymmetrically, compareConfiguration, Option.map_some, Option.getD_some,
    addresses_comm second.rows first.rows, List.map_map, List.map_inj_left, Function.comp_apply,
    betweenFiles_swapped_iff]

end

/-- A sign, digits and a point as `strtod` reads them: the digits as one number, and how many of
them follow the point. -/
def strtod (text : Text) : Option (Int × ℕ) :=
  let negative : Bool := text.head? = some (byte '-')
  let body := if negative ∨ text.head? = some (byte '+') then text.tail else text
  let fraction := (body.dropWhile (· ≠ byte '.')).tail
  match (body.takeWhile (· ≠ byte '.') ++ fraction).mapM (digitOf 10) with
  | none | some [] => none
  | some digits =>
    let magnitude : Int := Nat.ofDigits 10 digits.reverse
    some (if negative then -magnitude else magnitude, fraction.length)

/-- The comparison of texts with so few digits that no double is rounded. -/
def shortNumbers : NumberComparison where
  same a b :=
    match strtod a, strtod b with
    | some x, some y => x.1 * 10 ^ y.2 = y.1 * 10 ^ x.2
    | _, _ => false
  same_comm a b := by
    cases strtod a <;> cases strtod b <;> simp [eq_comm]

def byteObject : ConfigLiveObject where
  definition :=
    { index := 0x2012, subindex := 1, dataType := 0x0002, bitLength := 8, bits := 0
      rawValue := [], syncState := .unknown, metadata := {} }
  live := none

def fileOf (value : String) : ConfigFile where
  lines := []
  rows := [⟨1, 0x2012, 1, ascii value⟩]

theorem byAddress_fileOf (value : String) :
    byAddress (fileOf value).rows (0x2012, 1) = some ⟨1, 0x2012, 1, ascii value⟩ := rfl

end MotionMaster.Config
