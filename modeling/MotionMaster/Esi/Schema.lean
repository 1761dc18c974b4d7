import Mathlib.Data.List.Basic

/-!
# Elements of an ESI file

A vendor's description of a device family, as `parseEsi` has read it: dictionaries of objects and
data types, in the device and in the modules its slots take. Only what `buildDeviceEntries` reads.
-/

namespace MotionMaster.Esi

abbrev Bytes := List (BitVec 8)

structure Text where
  value : String
  /-- 0 when the attribute is absent. -/
  lcId : BitVec 32
  deriving DecidableEq

structure Property where
  name : String
  value : String
  deriving DecidableEq

inductive AccessMode where
  | ro | rw | wo
  deriving DecidableEq

inductive StateRestriction where
  | none | preOp | preOpSafeOp | preOpOp | safeOp | safeOpOp | op
  deriving DecidableEq

inductive Category where
  | mandatory | optional | conditional
  deriving DecidableEq

inductive PdoMapping where
  | none | tx | rx | txRx
  deriving DecidableEq

inductive SafetyMapping where
  | none | safeIn | safeOut | safeInOut | safeParam
  deriving DecidableEq

inductive SdoAccess where
  | subIndexAccess | completeAccess
  deriving DecidableEq

structure Access where
  mode : AccessMode := .ro
  readRestrictions : StateRestriction := .none
  writeRestrictions : StateRestriction := .none
  deriving DecidableEq

/-- What both `<Flags>` blocks have. An absent flag is not its default. -/
structure Flags where
  access : Option Access
  category : Option Category
  pdoMapping : Option PdoMapping
  safetyMapping : Option SafetyMapping
  /-- The SoE attribute. -/
  soeAttribute : Option (BitVec 32)
  backup : Option (BitVec 32)
  setting : Option (BitVec 32)
  deriving DecidableEq

/-- `Object/Flags`. -/
structure ObjectFlags extends Flags where
  sdoAccess : Option SdoAccess
  deriving DecidableEq

/-- The values of an `<Info>`; an empty list is an absent element. -/
structure Info where
  minData : Bytes
  maxData : Bytes
  defaultData : Bytes
  minValue : Option (BitVec 64)
  maxValue : Option (BitVec 64)
  defaultValue : Option (BitVec 64)
  defaultString : Option Bytes
  displayName : Option String
  unit : Option (BitVec 32)
  deriving DecidableEq

/-- `Info/SubItem`, whose own sub-items are not read. -/
structure InfoSubItem where
  name : String
  info : Info
  deriving DecidableEq

structure EsiObject where
  index : BitVec 32
  dependOnSlot : Bool
  overwrittenByModule : Bool
  names : List Text
  type : String
  bitSize : BitVec 32
  info : Info
  /-- `Info/SubItem`. -/
  subItems : List InfoSubItem
  flags : Option ObjectFlags
  properties : List Property

/-- `DataType/SubItem`. -/
structure SubItem where
  subIdx : Option (BitVec 8)
  name : String
  type : String
  bitSize : BitVec 32
  bitOffs : BitVec 32
  defaultData : Bytes
  minValue : Option (BitVec 64)
  maxValue : Option (BitVec 64)
  defaultValue : Option (BitVec 64)
  flags : Option Flags
  properties : List Property
  deriving DecidableEq

structure EnumInfo where
  texts : List Text
  value : BitVec 64

structure EsiDataType where
  name : String
  baseType : Option String
  bitSize : BitVec 32
  /-- The elements of each dimension. -/
  arrayInfo : List (BitVec 64)
  subItems : List SubItem
  enumInfo : List EnumInfo
  properties : List Property

structure UnitType where
  notationIndex : BitVec 8
  symbol : String

structure EsiDictionary where
  unitTypes : List UnitType
  dataTypes : List EsiDataType
  objects : List EsiObject

structure EsiProfile where
  dictionary : Option EsiDictionary

structure Slot where
  moduleIdents : List (BitVec 32)
  slotPdoIncrement : Option (BitVec 32)
  slotIndexIncrement : Option (BitVec 32)

structure EsiSlots where
  slots : List Slot
  slotPdoIncrement : BitVec 32
  slotIndexIncrement : BitVec 32

structure MailboxCoe where
  completeAccess : Bool

structure EsiDevice where
  type : String
  coe : Option MailboxCoe
  profiles : List EsiProfile
  slots : EsiSlots

structure EsiModule where
  moduleIdent : BitVec 32
  coe : Option MailboxCoe
  profile : Option EsiProfile

structure EsiFile where
  modules : List EsiModule

/-- The text of the locale, else the unlocalised one, else the first. -/
def esiText (texts : List Text) (lcId : BitVec 32) : String :=
  match texts.find? (·.lcId = lcId), texts.find? (·.lcId = 0), texts with
  | some t, _, _ => t.value
  | none, some t, _ => t.value
  | none, none, t :: _ => t.value
  | none, none, [] => ""

def findEsiModule (file : EsiFile) (moduleIdent : BitVec 32) : Option EsiModule :=
  file.modules.find? (·.moduleIdent = moduleIdent)

end MotionMaster.Esi
