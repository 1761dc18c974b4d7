import Mathlib.Data.List.Nodup
import Mathlib.Data.List.Perm.Subperm
import MotionMaster.Device.Value
import MotionMaster.Esi.DataType

/-!
# Objects expanded to entries

`buildDeviceEntries` turns every object of a dictionary into one entry for each subindex. A record's
members are described twice: by the sub-items of its data type, which have the subindices, and by
those of its `<Info>`, which have the values.
-/

namespace MotionMaster.Esi

inductive SourceKind where
  | device | module
  deriving DecidableEq

structure EsiEntrySource where
  kind : SourceKind := .device
  moduleIdent : BitVec 32 := 0
  slot : ℤ := -1
  indexOffset : BitVec 32 := 0
  deriving DecidableEq

structure EsiEnumOption where
  label : String
  value : BitVec 64
  deriving DecidableEq

structure EsiEntry where
  index : BitVec 16
  subindex : BitVec 8
  rawIndex : BitVec 16
  objectName : String
  entryName : String
  displayName : String
  objectCode : ObjectCode
  numberOfEntries : BitVec 8
  dataTypeName : String
  dataType : BitVec 16
  valueKind : ValueKind
  isSigned : Bool
  bitSize : BitVec 16
  bitOffset : BitVec 16
  defaultData : Option Bytes
  minData : Option Bytes
  maxData : Option Bytes
  unit : Option (BitVec 32)
  unitSymbol : String
  access : Access
  category : Category
  pdoMapping : PdoMapping
  safetyMapping : SafetyMapping
  sdoAccess : SdoAccess
  backup : Bool
  setting : Bool
  soeAttribute : Option (BitVec 32)
  objAccess : BitVec 16
  properties : List Property
  description : String
  options : List EsiEnumOption
  source : EsiEntrySource

def EsiEntry.key (e : EsiEntry) : BitVec 32 := e.index.setWidth 32 <<< 8 ||| e.subindex.setWidth 32

inductive EsiCollisionPolicy where
  | lastWins | firstWins | error
  deriving DecidableEq

structure EsiEntryOptions where
  lcId : BitVec 32
  moduleIdents : List (BitVec 32)
  applySlotOffsets : Bool
  requireDependOnSlot : Bool
  collisionPolicy : EsiCollisionPolicy
  padShortValues : Bool
  sortByAddress : Bool
  maxWarnings : ℕ

/-- One dictionary to merge. -/
structure Source where
  dictionary : EsiDictionary
  origin : EsiEntrySource
  completeAccessDefault : Bool
  indexOffset : BitVec 32
  pdoIndexOffset : BitVec 32
  label : String

/-- What the JSON library reads in the text of an `options` property: the members of the object that
are integers, or nothing where the text is no object. -/
abbrev JsonReader := String → Option (List (String × BitVec 64))

/-! ### Types -/

/-- Of data types by one name the first counts. -/
def findType (source : Source) (name : String) : Option EsiDataType :=
  source.dictionary.dataTypes.find? (·.name = name)

def isArrayType (type : EsiDataType) : Bool :=
  match type.subItems with
  | [_, element] => element.type = type.name ++ "ARR"
  | _ => false

def classify : Option EsiDataType → ObjectCode
  | none => .var
  | some type =>
    if type.subItems.isEmpty then .var else if isArrayType type then .array else .record

/-- The hops of `resolveType` that are left. -/
def followBaseType (source : Source) : ℕ → String → Option PrimitiveType
  | 0, _ => none
  | hops + 1, current =>
    match resolvePrimitiveType current with
    | some primitive => some primitive
    | none =>
      match (findType source current).bind (·.baseType) with
      | none => none
      | some base => if base = current then none else followBaseType source hops base

def resolveType (source : Source) (name : String) : Option PrimitiveType :=
  followBaseType source 8 name

def typeBitSize (source : Source) (name : String) (primitive : Option PrimitiveType) : BitVec 16 :=
  match findType source name with
  | some type =>
    if 0 < type.bitSize.toInt then type.bitSize.setWidth 16
    else (primitive.map (·.bitSize)).getD 0
  | none => (primitive.map (·.bitSize)).getD 0

/-! ### Flags and values -/

/-- Once a sub-item has flags, those of the object do not count. -/
def adoptFlag {α : Type} (objectFlags : Option ObjectFlags) (subFlags : Option Flags)
    (member : Flags → Option α) (specDefault : α) : α :=
  match subFlags, objectFlags with
  | some flags, _ => (member flags).getD specDefault
  | none, some flags => (member flags.toFlags).getD specDefault
  | none, none => specDefault

def stateBits : StateRestriction → BitVec 16
  | .none => 0b111
  | .preOp => 0b001
  | .preOpSafeOp => 0b011
  | .preOpOp => 0b101
  | .safeOp => 0b010
  | .safeOpOp => 0b110
  | .op => 0b100

def makeObjAccess (access : Access) (pdoMapping : PdoMapping) (backup setting : Bool) :
    BitVec 16 :=
  (if access.mode = .ro ∨ access.mode = .rw then stateBits access.readRestrictions else 0) |||
  (if access.mode = .wo ∨ access.mode = .rw then stateBits access.writeRestrictions <<< 3
    else 0) |||
  (if pdoMapping = .rx ∨ pdoMapping = .txRx then 1 <<< 6 else 0) |||
  (if pdoMapping = .tx ∨ pdoMapping = .txRx then 1 <<< 7 else 0) |||
  (if backup then 1 <<< 8 else 0) ||| if setting then 1 <<< 9 else 0

def encodeScalar (value : BitVec 64) (bitSize : BitVec 16) : Bytes :=
  let bytes := if 0 < bitSize.toNat then (bitSize.toNat + 7) / 8 else 8
  (Bytes.encode 8 value.toNat).take bytes

/-- The bytes of a value at the declared width, with the warning where it has to be padded. -/
def normaliseData (data : Bytes) (bitSize : BitVec 16) (isSigned pad : Bool)
    (what where_ : String) : Option Bytes × List String :=
  let expected := (bitSize.toNat + 7) / 8
  if data = [] then (none, [])
  else if expected = 0 ∨ data.length = expected then (some data, [])
  else
    let warning := where_ ++ ": " ++ what ++ " is " ++ toString data.length ++
      " byte(s) but the declared width is " ++ toString bitSize.toNat ++ " bit(s)" ++
      if pad then "; padded" else "; left as written"
    if pad = false then (some data, [warning])
    else if expected < data.length then (some (data.take expected), [warning])
    else
      let negative := isSigned ∧ (data.getLast?.getD 0).msb = true
      (some (data ++ List.replicate (expected - data.length) (if negative then 0xFF else 0x00)),
        [warning])

structure EntryInput where
  subindex : BitVec 8
  entryName : String
  typeName : String
  bitSize : BitVec 16
  bitOffset : BitVec 16
  info : Option Info
  flagSource : Option SubItem

/-- The values of an entry, and its unit and display name. -/
structure Values where
  defaultData : Option Bytes := none
  minData : Option Bytes := none
  maxData : Option Bytes := none
  unit : Option (BitVec 32) := none
  displayName : String

def pick (pad : Bool) (bitSize : BitVec 16) (isSigned : Bool) (where_ : String) (data : Bytes)
    (scalar : Option (BitVec 64)) (what : String) : Option Bytes × List String :=
  if data ≠ [] then normaliseData data bitSize isSigned pad what where_
  else (scalar.map (encodeScalar · bitSize), [])

/-- Without an `<Info>` the data type's sub-item may still have a default and bounds. -/
def valuesOf (options : EsiEntryOptions) (input : EntryInput) (bitSize : BitVec 16)
    (isSigned : Bool) (where_ : String) : Values × List String :=
  match input.info, input.flagSource with
  | some info, _ =>
    let pick := pick options.padShortValues bitSize isSigned where_
    let default := pick info.defaultData info.defaultValue "<DefaultData>"
    let min := pick info.minData info.minValue "<MinData>"
    let max := pick info.maxData info.maxValue "<MaxData>"
    ({ defaultData := default.1 <|> info.defaultString, minData := min.1, maxData := max.1
       unit := info.unit, displayName := info.displayName.getD input.entryName },
      default.2 ++ min.2 ++ max.2)
  | none, some sub =>
    ({ defaultData :=
         if sub.defaultData ≠ [] then some sub.defaultData
         else sub.defaultValue.map (encodeScalar · bitSize)
       minData := sub.minValue.map (encodeScalar · bitSize)
       maxData := sub.maxValue.map (encodeScalar · bitSize)
       displayName := input.entryName }, [])
  | none, none => ({ displayName := input.entryName }, [])

/-- The enumerators of the data type, then those of an `options` property that are not among
them. -/
def readOptions (json : JsonReader) (type : Option EsiDataType) (properties : List Property)
    (lcId : BitVec 32) (where_ : String) : List EsiEnumOption × List String :=
  let options := match type with
    | some type => type.enumInfo.map fun e => ⟨esiText e.texts lcId, e.value⟩
    | none => []
  match (properties.find? (·.name = "options")).map (·.value) with
  | none | some "" => (options, [])
  | some text =>
    match json text with
    | none => (options, [where_ ++ ": 'options' property is not a JSON object; ignored"])
    | some members =>
      (members.foldl (fun options m =>
        if options.any (·.label = m.1) then options else options ++ [⟨m.1, m.2⟩]) options, [])

/-! ### One object -/

def isPdoAreaIndex (index : BitVec 32) : Bool :=
  (0x1600 ≤ index.toNat && index.toNat ≤ 0x17FF) || (0x1A00 ≤ index.toNat && index.toNat ≤ 0x1BFF)

/-- The effective index, the offset in it, and a warning where the offset is dropped. -/
def relocate (options : EsiEntryOptions) (source : Source) (object : EsiObject) :
    (BitVec 32 × BitVec 32) × List String :=
  let relocates :=
    options.applySlotOffsets && (!options.requireDependOnSlot || object.dependOnSlot)
  let offset :=
    if relocates then
      if isPdoAreaIndex object.index then source.pdoIndexOffset else source.indexOffset
    else 0
  if 0xFFFF < (object.index + offset).toNat then
    ((object.index, 0), [source.label ++ ": 0x" ++ hexDigits 4 object.index.toNat ++
      " + slot offset 0x" ++ hexDigits 1 offset.toNat ++
      " overflows the 16-bit index space; the offset is dropped"])
  else ((object.index + offset, offset), [])

def numberOfEntries (object : EsiObject) : BitVec 8 :=
  match object.subItems with
  | [] => 0
  | first :: rest =>
    match first.info.defaultData with
    | [] => BitVec.ofNat 8 rest.length
    | count :: _ => count

def varInput (object : EsiObject) (objectName : String) : EntryInput where
  subindex := 0
  entryName := objectName
  typeName := object.type
  bitSize := object.bitSize.setWidth 16
  bitOffset := 0
  info := some object.info
  flagSource := none

/-- The count at subindex 0, then the elements by their position. -/
def arrayInputs (source : Source) (object : EsiObject) (countSub elementSub : SubItem) :
    List EntryInput :=
  let arrayInfoType := findType source elementSub.type
  let elementTypeName := (arrayInfoType.bind (·.baseType)).getD elementSub.type
  let elementBits := typeBitSize source elementTypeName (resolveType source elementTypeName)
  let count :=
    if object.subItems.isEmpty then
      match arrayInfoType.bind (·.arrayInfo.head?) with
      | some elements => (elements + 1).toNat
      | none => 0
    else object.subItems.length
  (List.range count).map fun i =>
    let infoSub := object.subItems[i]?
    if i = 0 then
      { subindex := 0, entryName := (infoSub.map (·.name)).getD countSub.name
        typeName := "USINT", bitSize := 8, bitOffset := countSub.bitOffs.setWidth 16
        info := infoSub.map (·.info), flagSource := some countSub }
    else
      let digits := (Nat.toDigits 10 i)
      { subindex := BitVec.ofNat 8 i
        entryName := (infoSub.map (·.name)).getD
          ("SubIndex " ++ String.ofList (List.replicate (3 - digits.length) '0' ++ digits))
        typeName := elementTypeName, bitSize := elementBits
        bitOffset := (elementSub.bitOffs + BitVec.ofNat 32 (i - 1) *
          elementBits.setWidth 32).setWidth 16
        info := infoSub.map (·.info), flagSource := some elementSub }

/-- The member of the type that an input of a record is made for. -/
def memberInput (where_ : String) (i : ℕ) (infoSub : Option InfoSubItem) (typeSub : SubItem) :
    EntryInput × List String :=
  ({ subindex := typeSub.subIdx.getD (BitVec.ofNat 8 i), entryName := typeSub.name
     typeName := typeSub.type, bitSize := typeSub.bitSize.setWidth 16
     bitOffset := typeSub.bitOffs.setWidth 16, info := infoSub.map (·.info)
     flagSource := some typeSub },
    if typeSub.subIdx = none then [where_ ++ ": DataType SubItem '" ++ typeSub.name ++
      "' has no <SubIdx>; using position " ++ toString i] else [])

/-- One turn of the loop over a record: paired by name while there are `<Info>` sub-items, by
position where the name is unknown and after them. -/
def recordTurn (where_ : String) (type : EsiDataType) (object : EsiObject) (i : ℕ) :
    Option EntryInput × List String :=
  let skipped := (none, [where_ ++ ": sub-item " ++ toString i ++
    " has no DataType SubItem; skipped"])
  match object.subItems[i]? with
  | some infoSub =>
    match type.subItems.find? (·.name = infoSub.name) with
    | some typeSub =>
      let input := memberInput where_ i (some infoSub) typeSub
      (some input.1, input.2)
    | none =>
      match type.subItems[i]? with
      | some typeSub =>
        let input := memberInput where_ i (some infoSub) typeSub
        (some input.1, (where_ ++ ": no DataType SubItem named '" ++ infoSub.name ++
          "'; matched by position") :: input.2)
      | none => skipped
  | none =>
    match type.subItems[i]? with
    | some typeSub =>
      let input := memberInput where_ i none typeSub
      (some input.1, input.2)
    | none => skipped

def recordInputs (where_ : String) (type : EsiDataType) (object : EsiObject) :
    List EntryInput × List String :=
  let turns := (List.range (max object.subItems.length type.subItems.length)).map
    (recordTurn where_ type object)
  let mismatch :=
    if !object.subItems.isEmpty && object.subItems.length != type.subItems.length then
      [where_ ++ ": <Info> declares " ++ toString object.subItems.length ++
        " sub-item(s) but the DataType declares " ++ toString type.subItems.length ++
        "; expanding the union"]
    else []
  (turns.filterMap (·.1), mismatch ++ turns.flatMap (·.2))

def inputsOf (options : EsiEntryOptions) (source : Source) (where_ : String) (object : EsiObject) :
    List EntryInput × List String :=
  match findType source object.type with
  | none => ([varInput object (esiText object.names options.lcId)],
      [where_ ++ ": <Type> '" ++ object.type ++
        "' is not declared in this dictionary; emitted as a single untyped entry"])
  | some type =>
    match classify (some type), type.subItems with
    | .record, _ => recordInputs where_ type object
    | .array, countSub :: elementSub :: _ =>
      (arrayInputs source object countSub elementSub, [])
    | _, _ => ([varInput object (esiText object.names options.lcId)], [])

def entryOf (json : JsonReader) (options : EsiEntryOptions) (source : Source) (object : EsiObject)
    (place : BitVec 32 × BitVec 32) (input : EntryInput) : EsiEntry × List String :=
  let objectType := findType source object.type
  let objectCode := classify objectType
  let index := place.1.setWidth 16
  let primitive := resolveType source input.typeName
  let bitSize :=
    if 0 < input.bitSize.toNat then input.bitSize else typeBitSize source input.typeName primitive
  let dataType := (primitive.map (·.code)).getD 0
  let isSigned := (primitive.map (·.isSigned)).getD false
  let valueWhere := "0x" ++ hexDigits 4 index.toNat ++ ":" ++
    hexDigits 2 input.subindex.toNat ++ " [" ++ source.label ++ "]"
  let untyped :=
    if primitive.isNone then
      [valueWhere ++ ": type '" ++ input.typeName ++
        "' is not a known primitive; the ETG.1020 code is left unset"]
    else []
  let values := valuesOf options input bitSize isSigned valueWhere
  let subFlags := input.flagSource.bind (·.flags)
  let adopt {α : Type} (member : Flags → Option α) (specDefault : α) : α :=
    adoptFlag object.flags subFlags member specDefault
  let access := adopt (·.access) {}
  let pdoMapping := adopt (·.pdoMapping) .none
  let backup := adopt (·.backup) 0 ≠ 0
  let setting := adopt (·.setting) 0 ≠ 0
  let objectProperties := match objectCode, objectType with
    | .array, some type | .record, some type => type.properties
    | _, _ => object.properties
  -- A VAR's own properties are the object's, the same vector, and are not appended to it.
  let all := (if input.subindex = 0 then objectProperties else []) ++
    match input.flagSource with
    | some sub => sub.properties
    | none => []
  let properties := all.eraseP (·.name = "description")
  let enumerators :=
    readOptions json (findType source input.typeName) properties options.lcId valueWhere
  ({ index := index
     subindex := input.subindex
     rawIndex := object.index.setWidth 16
     objectName := esiText object.names options.lcId
     entryName := input.entryName
     displayName := values.1.displayName
     objectCode := objectCode
     numberOfEntries := if objectCode = .var then 0 else numberOfEntries object
     dataTypeName := input.typeName
     dataType := dataType
     valueKind := resolveValueKind dataType bitSize
     isSigned := isSigned
     bitSize := bitSize
     bitOffset := input.bitOffset
     defaultData := values.1.defaultData
     minData := values.1.minData
     maxData := values.1.maxData
     unit := values.1.unit
     unitSymbol := (values.1.unit.map (esiUnitSymbol · source.dictionary.unitTypes)).getD ""
     access := access
     category := adopt (·.category) .optional
     pdoMapping := pdoMapping
     safetyMapping := adopt (·.safetyMapping) .none
     sdoAccess := (object.flags.bind (·.sdoAccess)).getD
       (if source.completeAccessDefault then .completeAccess else .subIndexAccess)
     backup := backup
     setting := setting
     soeAttribute := match subFlags, object.flags with
       | some flags, _ => flags.soeAttribute
       | none, some flags => flags.soeAttribute
       | none, none => none
     objAccess := makeObjAccess access pdoMapping backup setting
     properties := properties
     description := ((all.find? (·.name = "description")).map (·.value)).getD ""
     options := enumerators.1
     source := { source.origin with indexOffset := place.2 } },
    untyped ++ values.2 ++ enumerators.2)

/-- The entries one object contributes before merging. -/
def expandObject (json : JsonReader) (options : EsiEntryOptions) (source : Source)
    (object : EsiObject) : List EsiEntry × List String :=
  let place := relocate options source object
  let where_ := "0x" ++ hexDigits 4 place.1.1.toNat ++ " [" ++ source.label ++ "]"
  let inputs := inputsOf options source where_ object
  let entries := inputs.1.map (entryOf json options source object place.1)
  (entries.map (·.1), place.2 ++ inputs.2 ++ entries.flatMap (·.2))

/-! ### Every member once -/

/-- The bytes a value of an `<Info>` stands for: those it gives, cut or extended to the width, or
its number at the width. -/
def declared (pad : Bool) (bitSize : BitVec 16) (isSigned : Bool) (data : Bytes)
    (scalar : Option (BitVec 64)) : Option Bytes :=
  let width := (bitSize.toNat + 7) / 8
  let fill := if isSigned = true ∧ (data.getLast?.getD 0).msb = true then 0xFF else 0x00
  if data = [] then
    scalar.map fun value => (Bytes.encode 8 value.toNat).take (if width = 0 then 8 else width)
  else if pad = true ∧ width ≠ 0 then some ((data ++ List.replicate width fill).take width)
  else some data

/-- The entry of a member of a record: at its subindex, with the unit, the default and the bounds of
the `<Info>` sub-item of its name. -/
structure Describes (options : EsiEntryOptions) (object : EsiObject) (s : SubItem)
    (e : EsiEntry) : Prop where
  subindex : s.subIdx = some e.subindex
  name : e.entryName = s.name
  width : 0 < (s.bitSize.setWidth 16).toNat → e.bitSize = s.bitSize.setWidth 16
  values : ∀ item ∈ object.subItems, item.name = s.name →
    let declared := declared options.padShortValues e.bitSize e.isSigned
    e.unit = item.info.unit ∧
    e.defaultData = (declared item.info.defaultData item.info.defaultValue <|>
      item.info.defaultString) ∧
    e.minData = declared item.info.minData item.info.minValue ∧
    e.maxData = declared item.info.maxData item.info.maxValue

/-- The object contributes one entry for each member of its type, in some order. -/
def ExpandsOnce (json : JsonReader) (options : EsiEntryOptions) (source : Source)
    (object : EsiObject) (type : EsiDataType) : Prop :=
  ∃ entries, (expandObject json options source object).1.Perm entries ∧
    List.Forall₂ (Describes options object) type.subItems entries

/-- A record whose members have names and subindices of their own, and whose `<Info>` names some of
them. -/
structure NamedRecord (source : Source) (object : EsiObject) (type : EsiDataType) : Prop where
  found : findType source object.type = some type
  record : classify (some type) = .record
  names_distinct : (type.subItems.map (·.name)).Nodup
  indexed : ∀ s ∈ type.subItems, s.subIdx ≠ none
  indices_distinct : (type.subItems.map (·.subIdx)).Nodup
  info_distinct : (object.subItems.map (·.name)).Nodup
  info_named : ∀ item ∈ object.subItems, item.name ∈ type.subItems.map (·.name)

/-- The `<Info>` names the first members, as many as it has sub-items. -/
def NamesFirst (object : EsiObject) (type : EsiDataType) : Prop :=
  ∀ item ∈ object.subItems, item.name ∈ (type.subItems.take object.subItems.length).map (·.name)

section Lists

variable {α β γ : Type*}

/-- Turns that take from the first list, and after its end from the second. -/
theorem filterMap_range (a : List α) (b : List β) (f : α → Option γ) (g : β → γ) :
    (List.range (max a.length b.length)).filterMap (fun i => a[i]?.elim (b[i]?.map g) f) =
      a.filterMap f ++ (b.drop a.length).map g := by
  induction a generalizing b with
  | nil =>
    induction b with
    | nil => rfl
    | cons y b ih =>
      have hlength : max ([] : List α).length (y :: b).length =
          max ([] : List α).length b.length + 1 := by simp
      rw [hlength, List.range_succ_eq_map, List.filterMap_cons, List.filterMap_map]
      simpa [Function.comp_def] using ih
  | cons x a ih =>
    have hlength : max (x :: a).length b.length = max a.length (b.drop 1).length + 1 := by
      rw [List.length_cons, List.length_drop]
      omega
    have hturn : ((fun i => (x :: a)[i]?.elim (b[i]?.map g) f) ∘ Nat.succ) =
        fun i => a[i]?.elim ((b.drop 1)[i]?.map g) f := by
      funext i
      simp
    have hrest := ih (b.drop 1)
    rw [hlength, List.range_succ_eq_map, List.filterMap_cons, List.filterMap_map, hturn, hrest]
    cases hx : f x <;> simp [hx]

theorem find?_of_nodup {κ : Type*} [DecidableEq κ] {key : α → κ} {l : List α}
    (h : (l.map key).Nodup) {x : α} (hx : x ∈ l) : l.find? (key · = key x) = some x := by
  induction l with
  | nil => cases hx
  | cons y l ih =>
    rw [List.map_cons, List.nodup_cons] at h
    rcases List.mem_cons.mp hx with rfl | hx
    · simp
    · have hne : key y ≠ key x := fun he => h.1 (he ▸ List.mem_map_of_mem hx)
      simp [hne, ih h.2 hx]

end Lists

variable {json : JsonReader} {options : EsiEntryOptions} {source : Source} {object : EsiObject}
  {type : EsiDataType} {where_ : String}

def member (item : Option InfoSubItem) (s : SubItem) : EntryInput := (memberInput "" 0 item s).1

variable {s : SubItem}

theorem memberInput_fst (hs : s.subIdx ≠ none) (i : ℕ) (item : Option InfoSubItem) :
    (memberInput where_ i item s).1 = member item s := by
  obtain ⟨subIdx, hsub⟩ := Option.ne_none_iff_exists'.mp hs
  simp [memberInput, member, hsub]

theorem take_append_replicate (data : Bytes) (width : ℕ) (fill : BitVec 8) :
    (data ++ List.replicate width fill).take width =
      if width < data.length then data.take width
      else data ++ List.replicate (width - data.length) fill := by
  split_ifs with hlt
  · exact List.take_append_of_le_length hlt.le
  · rw [List.take_append, List.take_of_length_le (Nat.not_lt.mp hlt), List.take_replicate,
      Nat.min_eq_left (Nat.sub_le _ _)]

theorem pick_fst (pad : Bool) (bitSize : BitVec 16) (isSigned : Bool) (data : Bytes)
    (scalar : Option (BitVec 64)) (what : String) :
    (pick pad bitSize isSigned where_ data scalar what).1 =
      declared pad bitSize isSigned data scalar := by
  unfold pick declared
  by_cases hdata : data = []
  · have hwidth : 0 < bitSize.toNat ↔ ¬ (bitSize.toNat + 7) / 8 = 0 := by omega
    simp only [hdata, ne_eq, not_true_eq_false, if_false, if_true, encodeScalar, hwidth, ite_not]
  · simp only [hdata, ne_eq, not_false_eq_true, if_true, if_false, normaliseData,
      take_append_replicate]
    generalize (bitSize.toNat + 7) / 8 = width
    by_cases hsame : width = 0 ∨ data.length = width
    · rcases hsame with rfl | rfl <;> simp
    · rw [if_neg hsame]
      rw [not_or] at hsame
      cases pad with
      | false => simp
      | true => simp only [Bool.true_eq_false, if_false, hsame.1, not_false_eq_true, and_true,
          if_true, apply_ite Prod.fst, apply_ite some]

/-- The sub-item of the type an `<Info>` sub-item is paired with. -/
def named (type : EsiDataType) (item : InfoSubItem) : Option SubItem :=
  type.subItems.find? (·.name = item.name)

variable {item : InfoSubItem}

theorem named_spec (h : named type item = some s) :
    s ∈ type.subItems ∧ s.name = item.name :=
  ⟨List.mem_of_find?_eq_some h, by simpa using List.find?_some h⟩

namespace NamedRecord

variable (h : NamedRecord source object type)

include h

theorem exists_named (hitem : item ∈ object.subItems) :
    ∃ s, named type item = some s := by
  obtain ⟨s, hs, hname⟩ := List.mem_map.mp (h.info_named item hitem)
  have hfound := find?_of_nodup h.names_distinct hs
  rw [hname] at hfound
  exact ⟨s, hfound⟩

theorem recordTurn_fst (i : ℕ) : (recordTurn where_ type object i).1 =
    object.subItems[i]?.elim (type.subItems[i]?.map (member none))
      (fun item => (named type item).map (member (some item))) := by
  rw [recordTurn]
  cases hitem : object.subItems[i]? with
  | some item =>
    obtain ⟨s, hs⟩ := h.exists_named (List.mem_of_getElem? hitem)
    have hfound : type.subItems.find? (·.name = item.name) = some s := hs
    simp only [hfound, hs, memberInput_fst (h.indexed s (named_spec hs).1), Option.map_some,
      Option.elim_some]
  | none =>
    cases hs : type.subItems[i]? with
    | some s =>
      simp only [memberInput_fst (h.indexed s (List.mem_of_getElem? hs)), Option.map_some,
        Option.elim_none]
    | none => rfl

/-- What the loop makes: a member for each `<Info>` sub-item, then those at the places after
them. -/
theorem recordInputs_fst : (recordInputs where_ type object).1 =
    object.subItems.filterMap (fun item => (named type item).map (member (some item))) ++
      (type.subItems.drop object.subItems.length).map (member none) := by
  rw [recordInputs, ← filterMap_range]
  simp only [List.filterMap_map, Function.comp_def, h.recordTurn_fst]

theorem expandObject_fst : (expandObject json options source object).1 =
    (object.subItems.filterMap (fun item => (named type item).map (member (some item))) ++
      (type.subItems.drop object.subItems.length).map (member none)).map fun input =>
        (entryOf json options source object (relocate options source object).1 input).1 := by
  simp only [expandObject, inputsOf, h.found, h.record, h.recordInputs_fst, List.map_map,
    Function.comp_def]

theorem map_named : (object.subItems.filterMap (named type)).map (·.name) =
    object.subItems.map (·.name) := by
  rw [List.map_filterMap, ← List.filterMap_eq_map]
  refine List.filterMap_congr fun item hitem => ?_
  obtain ⟨s, hs⟩ := h.exists_named hitem
  rw [hs]
  exact congrArg some (named_spec hs).2

theorem map_entryName : ((expandObject json options source object).1.map (·.entryName)) =
    object.subItems.map (·.name) ++
      (type.subItems.drop object.subItems.length).map (·.name) := by
  rw [h.expandObject_fst, ← h.map_named, List.map_map, List.map_append, List.map_filterMap,
    List.map_filterMap, List.map_map]
  congr 1
  refine List.filterMap_congr fun item _ => ?_
  rw [Option.map_map]
  rfl

/-- The entry that is made of a member where the pairing is by name. -/
def entryOfMember (json : JsonReader) (options : EsiEntryOptions) (source : Source)
    (object : EsiObject) (s : SubItem) : EsiEntry :=
  (entryOf json options source object (relocate options source object).1
    (member (object.subItems.find? (·.name = s.name)) s)).1

theorem describes_entryOfMember (hs : s ∈ type.subItems) :
    Describes options object s (entryOfMember json options source object s) := by
  obtain ⟨subIdx, hsub⟩ := Option.ne_none_iff_exists'.mp (h.indexed s hs)
  refine ⟨?_, rfl, fun hwidth => if_pos hwidth, fun item hitem hname => ?_⟩
  · simp only [entryOfMember, entryOf, member, memberInput, hsub, Option.getD_some]
  · have hfound := find?_of_nodup h.info_distinct hitem
    rw [hname] at hfound
    rw [entryOfMember, hfound]
    refine ⟨rfl, ?_, pick_fst _ _ _ _ _ _, pick_fst _ _ _ _ _ _⟩
    exact congrArg (· <|> item.info.defaultString) (pick_fst _ _ _ _ _ _)

/-- With each member once, no `<Info>` sub-item names one of the places after them. -/
theorem namesFirst (honce : ExpandsOnce json options source object type) :
    NamesFirst object type := by
  obtain ⟨entries, hperm, hdescribes⟩ := honce
  have hnames := hperm.map (·.entryName)
  have hsame : type.subItems.map (·.name) = entries.map (·.entryName) := by
    rw [← List.forall₂_eq_eq_eq, List.forall₂_map_left_iff, List.forall₂_map_right_iff]
    exact hdescribes.imp fun _ _ hd => hd.name.symm
  rw [h.map_entryName, ← hsame] at hnames
  have hnodup := hnames.nodup_iff.mpr h.names_distinct
  intro item hitem
  have hmem := h.info_named item hitem
  rw [← List.take_append_drop object.subItems.length type.subItems, List.map_append,
    List.mem_append] at hmem
  refine hmem.resolve_right fun hrest => ?_
  exact (List.nodup_append.mp hnodup).2.2 _ (List.mem_map_of_mem hitem) _ hrest rfl

/-- As many names as places, so the names are those of the places. -/
theorem names_perm_take (hfirst : NamesFirst object type) :
    (object.subItems.map (·.name)).Perm
      ((type.subItems.take object.subItems.length).map (·.name)) := by
  have hsub : object.subItems.map (·.name) ⊆
      (type.subItems.take object.subItems.length).map (·.name) := by
    intro name hname
    obtain ⟨item, hitem, rfl⟩ := List.mem_map.mp hname
    exact hfirst item hitem
  refine (List.subperm_of_subset h.info_distinct hsub).perm_of_length_le ?_
  rw [List.length_map, List.length_map, List.length_take]
  omega

theorem named_of_name (hs : s ∈ type.subItems)
    (hname : item.name = s.name) : named type item = some s := by
  rw [named, hname]
  exact find?_of_nodup h.names_distinct hs

theorem named_perm_take (hfirst : NamesFirst object type) :
    (object.subItems.filterMap (named type)).Perm
      (type.subItems.take object.subItems.length) := by
  have hnamed : (object.subItems.filterMap (named type)).Nodup := by
    apply List.Nodup.of_map (·.name)
    rw [h.map_named]
    exact h.info_distinct
  have htake : (type.subItems.take object.subItems.length).Nodup :=
    h.names_distinct.of_map.sublist (List.take_sublist _ _)
  refine (List.perm_ext_iff_of_nodup hnamed htake).mpr fun s => ?_
  constructor
  · intro hs
    obtain ⟨item, hitem, hfound⟩ := List.mem_filterMap.mp hs
    obtain ⟨s', hs', hname⟩ := List.mem_map.mp (hfirst item hitem)
    have hsame := h.named_of_name (List.mem_of_mem_take hs') hname.symm
    rw [hfound] at hsame
    rwa [Option.some.inj hsame]
  · intro hs
    have hname := (h.names_perm_take hfirst).mem_iff.mpr (List.mem_map_of_mem hs)
    obtain ⟨item, hitem, heq⟩ := List.mem_map.mp hname
    exact List.mem_filterMap.mpr ⟨item, hitem, h.named_of_name (List.mem_of_mem_take hs) heq⟩

/-- A place after the `<Info>` sub-items is named by none of them. -/
theorem find?_of_mem_drop (hfirst : NamesFirst object type)
    (hs : s ∈ type.subItems.drop object.subItems.length) :
    object.subItems.find? (·.name = s.name) = none := by
  rw [List.find?_eq_none]
  intro item hitem hname
  have hsplit := h.names_distinct
  rw [← List.take_append_drop object.subItems.length type.subItems, List.map_append] at hsplit
  exact (List.nodup_append.mp hsplit).2.2 _ (hfirst item hitem) _ (List.mem_map_of_mem hs)
    (by simpa using hname)

theorem expandsOnce (hfirst : NamesFirst object type) :
    ExpandsOnce json options source object type := by
  have hpaired :
      object.subItems.filterMap (fun item => (named type item).map (member (some item))) =
        (object.subItems.filterMap (named type)).map fun s =>
          member (object.subItems.find? (·.name = s.name)) s := by
    rw [List.map_filterMap]
    refine List.filterMap_congr fun item hitem => ?_
    obtain ⟨s, hs⟩ := h.exists_named hitem
    rw [hs, Option.map_some, Option.map_some, (named_spec hs).2,
      find?_of_nodup h.info_distinct hitem]
  have hrest : (type.subItems.drop object.subItems.length).map (member none) =
      (type.subItems.drop object.subItems.length).map fun s =>
        member (object.subItems.find? (·.name = s.name)) s :=
    List.map_congr_left fun s hs => by rw [h.find?_of_mem_drop hfirst hs]
  refine ⟨type.subItems.map (entryOfMember json options source object), ?_, ?_⟩
  swap
  · rw [List.forall₂_map_right_iff, List.forall₂_same]
    exact fun s hs => h.describes_entryOfMember hs
  rw [h.expandObject_fst, hpaired, hrest, ← List.map_append, List.map_map]
  have hperm := (h.named_perm_take hfirst).append_right
    (type.subItems.drop object.subItems.length)
  rw [List.take_append_drop] at hperm
  exact hperm.map _

end NamedRecord

/-- Each member of a record is expanded once exactly where the `<Info>` names the first of them. -/
theorem expandsOnce_iff_namesFirst (json : JsonReader) (options : EsiEntryOptions)
    {source : Source} {object : EsiObject} {type : EsiDataType}
    (h : NamedRecord source object type) :
    ExpandsOnce json options source object type ↔ NamesFirst object type :=
  ⟨h.namesFirst, h.expandsOnce⟩

/-! A record of two members, of which the `<Info>` names one. -/

def plainInfo : Info := ⟨[], [], [], none, none, none, none, none, none⟩

def twoMembers : EsiDataType where
  name := "DT2000"
  baseType := none
  bitSize := 24
  arrayInfo := []
  subItems := [⟨some 0, "SubIndex 000", "USINT", 8, 0, [], none, none, none, none, []⟩,
    ⟨some 1, "Gain", "UINT", 16, 16, [], none, none, none, none, []⟩]
  enumInfo := []
  properties := []

def describing (name : String) : EsiObject where
  index := 0x2000
  dependOnSlot := false
  overwrittenByModule := false
  names := []
  type := "DT2000"
  bitSize := 24
  info := plainInfo
  subItems := [⟨name, { plainInfo with defaultData := [0x01] }⟩]
  flags := none
  properties := []

def oneType : Source where
  dictionary := ⟨[], [twoMembers], []⟩
  origin := {}
  completeAccessDefault := false
  indexOffset := 0
  pdoIndexOffset := 0
  label := "device"

theorem describing_namedRecord {name : String} (h : name ∈ ["SubIndex 000", "Gain"]) :
    NamedRecord oneType (describing name) twoMembers where
  found := rfl
  record := by decide
  names_distinct := by decide
  indexed := by decide
  indices_distinct := by decide
  info_distinct := List.nodup_singleton name
  info_named := by
    intro item hitem
    cases List.mem_singleton.mp hitem
    exact h

def plainOptions : EsiEntryOptions := ⟨1033, [], true, true, .lastWins, true, true, 1000⟩

theorem countDescribed_expandsOnce :
    ExpandsOnce (fun _ => none) plainOptions oneType (describing "SubIndex 000") twoMembers := by
  have hfirst : NamesFirst (describing "SubIndex 000") twoMembers := by
    rw [NamesFirst]
    decide
  exact (expandsOnce_iff_namesFirst _ _ (describing_namedRecord (by decide))).mpr hfirst

theorem gainDescribed_not_expandsOnce :
    ¬ ExpandsOnce (fun _ => none) plainOptions oneType (describing "Gain") twoMembers := by
  intro h
  have hfirst := (describing_namedRecord (by decide)).namesFirst h
  rw [NamesFirst] at hfirst
  revert hfirst
  decide

end MotionMaster.Esi
