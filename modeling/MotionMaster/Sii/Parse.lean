import MotionMaster.Device.Value

/-!
# The slave information interface

`parseSii`, which decodes the category section of an EEPROM image, and `validateSiiImage`, which
guards a write of one.
-/

namespace MotionMaster.Sii

abbrev Bytes := List (BitVec 8)

def rdU8 (b : Bytes) (off : ℕ) : BitVec 8 := b.getD off 0

/-- A field that runs past the end reads as 0. -/
def rdU16 (b : Bytes) (off : ℕ) : BitVec 16 :=
  if b.length < off + 2 then 0
  else (b.getD off 0).setWidth 16 ||| (b.getD (off + 1) 0).setWidth 16 <<< 8

def rdI16 (b : Bytes) (off : ℕ) : Int := (rdU16 b off).toInt

def rdU32 (b : Bytes) (off : ℕ) : BitVec 32 :=
  if b.length < off + 4 then 0
  else (b.getD off 0).setWidth 32 ||| (b.getD (off + 1) 0).setWidth 32 <<< 8 |||
    (b.getD (off + 2) 0).setWidth 32 <<< 16 ||| (b.getD (off + 3) 0).setWidth 32 <<< 24

def kHeaderBytes : ℕ := 128

structure SiiInfo where
  pdiControl : BitVec 16
  pdiConfiguration : BitVec 16
  syncImpulseLen : BitVec 16
  pdiConfiguration2 : BitVec 16
  configuredStationAlias : BitVec 16
  checksum : BitVec 16
  vendorId : BitVec 32
  productCode : BitVec 32
  revisionNumber : BitVec 32
  serialNumber : BitVec 32
  bootstrapReceiveMailboxOffset : BitVec 16
  bootstrapReceiveMailboxSize : BitVec 16
  bootstrapSendMailboxOffset : BitVec 16
  bootstrapSendMailboxSize : BitVec 16
  standardReceiveMailboxOffset : BitVec 16
  standardReceiveMailboxSize : BitVec 16
  standardSendMailboxOffset : BitVec 16
  standardSendMailboxSize : BitVec 16
  mailboxProtocol : BitVec 16
  size : BitVec 16
  version : BitVec 16

def parseHeader (b : Bytes) : SiiInfo where
  pdiControl := rdU16 b 0
  pdiConfiguration := rdU16 b 2
  syncImpulseLen := rdU16 b 4
  pdiConfiguration2 := rdU16 b 6
  configuredStationAlias := rdU16 b 8
  checksum := rdU16 b 14
  vendorId := rdU32 b 16
  productCode := rdU32 b 20
  revisionNumber := rdU32 b 24
  serialNumber := rdU32 b 28
  bootstrapReceiveMailboxOffset := rdU16 b 40
  bootstrapReceiveMailboxSize := rdU16 b 42
  bootstrapSendMailboxOffset := rdU16 b 44
  bootstrapSendMailboxSize := rdU16 b 46
  standardReceiveMailboxOffset := rdU16 b 48
  standardReceiveMailboxSize := rdU16 b 50
  standardSendMailboxOffset := rdU16 b 52
  standardSendMailboxSize := rdU16 b 54
  mailboxProtocol := rdU16 b 56
  size := rdU16 b 124
  version := rdU16 b 126

/-- The strings from `cursor` on, at most `n` of them. -/
def stringLoop (p : Bytes) : ℕ → ℕ → List Bytes
  | 0, _ => []
  | n + 1, cursor =>
    if p.length ≤ cursor then []
    else
      let len := (p.getD cursor 0).toNat
      (p.drop (cursor + 1)).take len :: stringLoop p n (cursor + 1 + len)

def parseStrings (p : Bytes) : List Bytes :=
  if p = [] then [] else stringLoop p (p.getD 0 0).toNat 1

structure SiiCategoryGeneral where
  groupIdx : BitVec 8 := 0
  imgIdx : BitVec 8 := 0
  orderIdx : BitVec 8 := 0
  nameIdx : BitVec 8 := 0
  coeDetails : BitVec 8 := 0
  foeDetails : BitVec 8 := 0
  eoeDetails : BitVec 8 := 0
  soeChannels : BitVec 8 := 0
  ds402Channels : BitVec 8 := 0
  sysmanClass : BitVec 8 := 0
  flags : BitVec 8 := 0
  currentOnEBus : Int := 0
  physicalPort : BitVec 16 := 0
  physicalMemoryAddress : BitVec 16 := 0

def parseGeneral (p : Bytes) : SiiCategoryGeneral where
  groupIdx := rdU8 p 0
  imgIdx := rdU8 p 1
  orderIdx := rdU8 p 2
  nameIdx := rdU8 p 3
  coeDetails := rdU8 p 5
  foeDetails := rdU8 p 6
  eoeDetails := rdU8 p 7
  soeChannels := rdU8 p 8
  ds402Channels := rdU8 p 9
  sysmanClass := rdU8 p 10
  flags := rdU8 p 11
  currentOnEBus := rdI16 p 12
  physicalPort := rdU16 p 16
  physicalMemoryAddress := rdU16 p 18

def parseFmmu (p : Bytes) : List (BitVec 8) := (List.range p.length).map (rdU8 p)

structure SiiCategorySyncManagerElement where
  physicalStartAddress : BitVec 16
  length : BitVec 16
  controlRegister : BitVec 8
  statusRegister : BitVec 8
  enableSyncManager : BitVec 8
  syncManagerType : BitVec 8

/-- The elements of a category of `size`-byte records, as many as are whole. -/
def records {α : Type} (size : ℕ) (element : ℕ → α) (p : Bytes) : List α :=
  (List.range (p.length / size)).map fun k => element (k * size)

def parseSyncManagers (p : Bytes) : List SiiCategorySyncManagerElement :=
  records 8 (fun i => ⟨rdU16 p i, rdU16 p (i + 2), rdU8 p (i + 4), rdU8 p (i + 5), rdU8 p (i + 6),
    rdU8 p (i + 7)⟩) p

structure SiiCategoryPdoEntryElement where
  entryIndex : BitVec 16
  subindex : BitVec 8
  entryNameIdx : BitVec 8
  dataType : BitVec 8
  bitLen : BitVec 8
  flags : BitVec 16

structure SiiCategoryPdoElement where
  pdoIndex : BitVec 16
  nEntry : BitVec 8
  syncM : BitVec 8
  synchronization : BitVec 8
  nameIdx : BitVec 8
  flags : BitVec 16
  entries : List SiiCategoryPdoEntryElement

/-- The entries of one PDO, at most `n`, and the offset behind them. -/
def pdoEntries (p : Bytes) : ℕ → ℕ → List SiiCategoryPdoEntryElement × ℕ
  | 0, offset => ([], offset)
  | n + 1, offset =>
    if p.length < offset + 8 then ([], offset)
    else
      let rest := pdoEntries p n (offset + 8)
      (⟨rdU16 p offset, rdU8 p (offset + 2), rdU8 p (offset + 3), rdU8 p (offset + 4),
        rdU8 p (offset + 5), rdU16 p (offset + 6)⟩ :: rest.1, rest.2)

theorem le_pdoEntries (p : Bytes) (n offset : ℕ) : offset ≤ (pdoEntries p n offset).2 := by
  induction n generalizing offset with
  | zero => exact le_rfl
  | succ n ih =>
    unfold pdoEntries
    split
    · exact le_rfl
    · exact Nat.le_trans (Nat.le_add_right _ 8) (ih (offset + 8))

def pdoLoop (p : Bytes) (offset : ℕ) : List SiiCategoryPdoElement :=
  if offset + 8 ≤ p.length then
    let nEntry := rdU8 p (offset + 2)
    let read := pdoEntries p nEntry.toNat (offset + 8)
    ⟨rdU16 p offset, nEntry, rdU8 p (offset + 3), rdU8 p (offset + 4), rdU8 p (offset + 5),
      rdU16 p (offset + 6), read.1⟩ :: pdoLoop p read.2
  else []
  termination_by p.length - offset
  decreasing_by
    have := le_pdoEntries p (rdU8 p (offset + 2)).toNat (offset + 8)
    omega

def parsePdo (p : Bytes) : List SiiCategoryPdoElement := pdoLoop p 0

structure SiiCategoryDistributedClockElement where
  cycleTime0 : BitVec 32
  shiftTime0 : BitVec 32
  shiftTime1 : BitVec 32
  sync1CycleFactor : Int
  assignActivate : BitVec 16
  sync0CycleFactor : Int
  nameIdx : BitVec 8
  descIdx : BitVec 8

def parseDc (p : Bytes) : List SiiCategoryDistributedClockElement :=
  records 24 (fun i => ⟨rdU32 p i, rdU32 p (i + 4), rdU32 p (i + 8), rdI16 p (i + 12),
    rdU16 p (i + 14), rdI16 p (i + 16), rdU8 p (i + 18), rdU8 p (i + 19)⟩) p

inductive SiiCategoryType where
  | nop | deviceSpecific | strings | dataTypes | general | fmmu | syncM | fmmuX | syncUnit | txPdo
  | rxPdo | dc | timeouts | dictionary | hardware | vendorInformation | images | vendorSpecific
  | applicationSpecific | end_
  deriving DecidableEq

/-- The categories that are single values. -/
def fixedTypes : List (BitVec 16 × SiiCategoryType) :=
  [(0, .nop), (10, .strings), (20, .dataTypes), (30, .general), (40, .fmmu), (41, .syncM),
    (42, .fmmuX), (43, .syncUnit), (50, .txPdo), (51, .rxPdo), (60, .dc), (70, .timeouts),
    (80, .dictionary), (90, .hardware), (100, .vendorInformation), (110, .images), (0xFFFF, .end_)]

def resolveSiiCategoryType (value : BitVec 16) : Option SiiCategoryType :=
  if 1 ≤ value ∧ value ≤ 9 then some .deviceSpecific
  else if 0x0800 ≤ value ∧ value ≤ 0x1FFF then some .vendorSpecific
  else if 0x2000 ≤ value ∧ value ≤ 0x2FFF then some .applicationSpecific
  else if 0x3000 ≤ value ∧ value ≤ 0xFFFE then some .vendorSpecific
  else fixedTypes.lookup value

structure SiiCategorySection where
  strings : List Bytes := []
  general : SiiCategoryGeneral := {}
  fmmus : List (BitVec 8) := []
  syncManagers : List SiiCategorySyncManagerElement := []
  rxPdos : List SiiCategoryPdoElement := []
  txPdos : List SiiCategoryPdoElement := []
  distributedClocks : List SiiCategoryDistributedClockElement := []

def decodeCategory (category : SiiCategorySection) (type : Option SiiCategoryType)
    (payload : Bytes) : SiiCategorySection :=
  match type with
  | some .strings => { category with strings := parseStrings payload }
  | some .general => { category with general := parseGeneral payload }
  | some .fmmu => { category with fmmus := parseFmmu payload }
  | some .syncM => { category with syncManagers := parseSyncManagers payload }
  | some .rxPdo => { category with rxPdos := category.rxPdos ++ parsePdo payload }
  | some .txPdo => { category with txPdos := category.txPdos ++ parsePdo payload }
  | some .dc => { category with distributedClocks := parseDc payload }
  | _ => category

structure SlaveInformationInterface where
  info : SiiInfo
  category : SiiCategorySection

def kEndMarker : BitVec 16 := 0xFFFF

/-- The loop over the categories from `offset` on. A payload is clamped to what remains. -/
def parseLoop (categories : Bytes) (offset : ℕ) (category : SiiCategorySection) :
    SiiCategorySection :=
  if offset + 4 ≤ categories.length then
    let typeValue := rdU16 categories offset
    if typeValue = kEndMarker then category
    else
      let wordSize := rdU16 categories (offset + 2)
      let type := resolveSiiCategoryType typeValue
      let payloadStart := offset + 4
      let declared := wordSize.toNat * 2
      let available := categories.length - payloadStart
      let payload := (categories.drop payloadStart).take (min declared available)
      let category := decodeCategory category type payload
      if type = some .nop ∨ type = some .end_ then category
      else parseLoop categories (payloadStart + declared) category
  else category
  termination_by categories.length - offset

def parseSii (buffer : Bytes) : Except String SlaveInformationInterface :=
  if buffer.length < kHeaderBytes then
    .error ("SII image too small: " ++ toString buffer.length ++
      " bytes (need at least 128 for the fixed header)")
  else .ok ⟨parseHeader buffer, parseLoop (buffer.drop kHeaderBytes) 0 {}⟩

/-! ### The validator -/

def kChecksumOffset : ℕ := 14
def kCategoryStartWord : ℕ := 0x40
def kMinWords : ℕ := kCategoryStartWord + 1

/-- One bit of the CRC-8 with polynomial x⁸ + x² + x + 1. -/
def crcBit (crc : BitVec 8) : BitVec 8 := if crc.msb then crc <<< 1 ^^^ 0x07 else crc <<< 1

def crcByte (crc b : BitVec 8) : BitVec 8 := Nat.repeat crcBit 8 (crc ^^^ b)

def crc (bytes : Bytes) : BitVec 8 := bytes.foldl crcByte 0xFF

def wordAt (buffer : Bytes) (word : ℕ) : BitVec 16 :=
  (buffer.getD (word * 2) 0).setWidth 16 ||| (buffer.getD (word * 2 + 1) 0).setWidth 16 <<< 8

/-- A category as it stands in an image: its type, its size in words, and its payload. -/
structure Category where
  type : BitVec 16
  size : ℕ
  payload : Bytes
  deriving DecidableEq

/-- The walk over the chain from `word` on, with the categories it goes over. -/
def walkCategories (buffer : Bytes) (words word : ℕ) : Except String (List Category) :=
  if words ≤ word then
    .error "SII category chain runs past the end of the image without an end marker"
  else
    let type := wordAt buffer word
    if type = kEndMarker then .ok []
    else if words ≤ word + 1 then
      .error ("SII category at word 0x" ++ hexDigits 4 word ++
        " has no size word — the image ends mid-header")
    else
      let size := (wordAt buffer (word + 1)).toNat
      let next := word + 2 + size
      if next ≤ word ∨ words < next then
        .error ("SII category at word 0x" ++ hexDigits 4 word ++ " declares " ++ toString size ++
          " words, which runs past the " ++ toString words ++ "-word image")
      else (walkCategories buffer words next).map
        (⟨type, size, (buffer.drop ((word + 2) * 2)).take (size * 2)⟩ :: ·)
  termination_by words - word

def validateSiiImage (buffer : Bytes) : Except String Unit :=
  if buffer.length % 2 ≠ 0 then
    .error ("SII image has an odd length (" ++ toString buffer.length ++
      " bytes) — the EEPROM is addressed in 16-bit words")
  else
    let words := buffer.length / 2
    if words < kMinWords then
      .error ("SII image too small: " ++ toString words ++ " words (need at least " ++
        toString kMinWords ++ " for the fixed header and the first category)")
    else if crc (buffer.take kChecksumOffset) ≠ buffer.getD kChecksumOffset 0 then
      .error ("SII checksum mismatch: the image carries 0x" ++
        hexDigits 2 (buffer.getD kChecksumOffset 0).toNat ++ " but words 0-6 hash to 0x" ++
        hexDigits 2 (crc (buffer.take kChecksumOffset)).toNat)
    else (walkCategories buffer words kCategoryStartWord).map fun _ => ()

end MotionMaster.Sii
