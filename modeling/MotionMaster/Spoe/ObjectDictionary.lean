import Mathlib.Data.List.Sort
import MotionMaster.Lib.Blocks
import MotionMaster.Spoe.Frame

/-!
# Reading the object dictionary

`readObjectDictionary`: the bulk list, which may lose packets, and one description request for each
entry it left out.
-/

namespace MotionMaster.Spoe

open Bytes

def kReplyAck : BitVec 8 := 0x58

def kReplyBusy : BitVec 8 := 0x28

def kReplyError : BitVec 8 := 0x63

def kPacketLast : BitVec 8 := 0x40

def kMaxParameterListPackets : ℕ := 2000

def kParameterEntrySize : ℕ := 68

/-- `status & 0xFF` and `status >> 8`. -/
def statusLow (status : BitVec 16) : BitVec 8 := status.setWidth 8

def statusHigh (status : BitVec 16) : BitVec 8 := (status >>> 8).setWidth 8

structure OdEntry where
  index : BitVec 16
  subindex : BitVec 8
  objectCode : BitVec 16
  dataType : BitVec 16
  bitLength : BitVec 16
  access : BitVec 16
  name : List (BitVec 8)
  unit : Option (BitVec 32)
  defaultValue : Option (List (BitVec 8))
  minValue : Option (List (BitVec 8))
  maxValue : Option (List (BitVec 8))
  deriving DecidableEq

structure ParameterEntry where
  entry : OdEntry
  subindexCount : BitVec 32
  deriving DecidableEq

structure OdRead where
  entries : List OdEntry
  missingEntries : ℕ
  deriving DecidableEq

/-! ### Addresses -/

/-- The key of the map, compared as a `std::pair`. -/
structure Address where
  index : BitVec 16
  subindex : BitVec 8
  deriving DecidableEq

namespace Address

def compare (a b : Address) : Ordering :=
  (Ord.compare a.index.toNat b.index.toNat).then (Ord.compare a.subindex.toNat b.subindex.toNat)

/-- The index first, then the subindex. -/
def Before (a b : Address) : Prop :=
  a.index.toNat < b.index.toNat ∨ a.index = b.index ∧ a.subindex.toNat < b.subindex.toNat

variable {a b c : Address}

theorem Before.trans (hab : a.Before b) (hbc : b.Before c) : a.Before c := by
  rcases hab with hab | ⟨hi, hab⟩
  · rcases hbc with hbc | ⟨hi, -⟩
    · exact Or.inl (hab.trans hbc)
    · exact Or.inl (hi ▸ hab)
  · rcases hbc with hbc | ⟨hi', hbc⟩
    · exact Or.inl (hi ▸ hbc)
    · exact Or.inr ⟨hi.trans hi', hab.trans hbc⟩

theorem compare_eq_lt_iff : compare a b = .lt ↔ a.Before b := by
  simp only [compare, Ordering.then_eq_lt, Nat.compare_eq_lt, Nat.compare_eq_eq, Before,
    BitVec.toNat_inj]

theorem compare_eq_eq_iff : compare a b = .eq ↔ a = b := by
  rcases a with ⟨i, s⟩
  rcases b with ⟨j, t⟩
  simp only [compare, Ordering.then_eq_eq, Nat.compare_eq_eq, BitVec.toNat_inj, mk.injEq]

instance : Std.OrientedCmp compare where
  eq_swap := by
    intro a b
    simp only [compare, Ordering.swap_then, Nat.compare_swap]

theorem isLE_compare_iff : (compare a b).isLE ↔ a.Before b ∨ a = b := by
  rw [← compare_eq_lt_iff, ← compare_eq_eq_iff]
  cases compare a b <;> simp

instance : Std.TransCmp compare where
  isLE_trans := by
    intro a b c hab hbc
    rw [isLE_compare_iff] at *
    rcases hab with hab | rfl
    · rcases hbc with hbc | rfl
      · exact Or.inl (hab.trans hbc)
      · exact Or.inl hab
    · exact hbc

instance : Std.LawfulEqCmp compare where
  compare_self := compare_eq_eq_iff.mpr rfl
  eq_of_compare := compare_eq_eq_iff.mp

end Address

def OdEntry.address (e : OdEntry) : Address := ⟨e.index, e.subindex⟩

def ParameterEntry.address (e : ParameterEntry) : Address := e.entry.address

/-! ### Records -/

/-- `readU16` of the bytes at an offset, and `readU32`. -/
def u16At (bytes : List (BitVec 8)) (offset : ℕ) : BitVec 16 :=
  readU16 (bytes.getD offset 0) (bytes.getD (offset + 1) 0)

def u32At (bytes : List (BitVec 8)) (offset : ℕ) : BitVec 32 :=
  BitVec.ofNat 32 ((u16At bytes offset).toNat + 65536 * (u16At bytes (offset + 2)).toNat)

/-- One turn of the loop of `decodeParameterEntries`. A record whose index is zero is no entry. -/
def decodeEntry (raw : List (BitVec 8)) : Option ParameterEntry :=
  if u16At raw 0 = 0 then none
  else
    some ⟨⟨u16At raw 0, raw.getD 2 0, (raw.getD 6 0).setWidth 16, u16At raw 4, u16At raw 8,
      u16At raw 10, ((raw.drop 16).take 50).takeWhile (· ≠ 0), none, none, none, none⟩,
      u32At raw 12⟩

def decodeParameterEntries (bytes : List (BitVec 8)) : List ParameterEntry :=
  (Blocks.slices kParameterEntrySize bytes).filterMap decodeEntry

def isOpenObject (objectCode : BitVec 16) : Bool := objectCode = 0x08 || objectCode = 0x09

/-! ### The read -/

/-- What the requests of one read come back with. -/
structure DictionaryReplies where
  list : Except String Frame
  first : Except String Frame
  /-- To the requests for a middle packet, in order. -/
  middle : ℕ → Except String Frame
  paramDesc : Address → Except String Frame
  paramSubDesc : Address → Except String Frame

abbrev EntriesByAddress := Std.TreeMap Address ParameterEntry Address.compare

def listedIndexes (data : List (BitVec 8)) : List (BitVec 16) :=
  (Blocks.slices 2 data).map fun bytes => u16At bytes 0

/-- `insert_or_assign` of every entry of a packet. -/
def addPacket (entries : EntriesByAddress) (data : List (BitVec 8)) : EntriesByAddress :=
  (decodeParameterEntries data).foldl (fun m e => m.insert e.address e) entries

/-- The loop over the middle packets, `n` of them at most. -/
def readPackets (replies : DictionaryReplies) : ℕ → ℕ → EntriesByAddress → EntriesByAddress
  | 0, _, entries => entries
  | n + 1, packet, entries =>
    match replies.middle packet with
    | .error _ => entries
    | .ok reply =>
      if statusHigh reply.status = kPacketLast ∨ statusLow reply.status = kReplyError then
        addPacket entries reply.data
      else readPackets replies n (packet + 1) (addPacket entries reply.data)

def readBulk (replies : DictionaryReplies) : EntriesByAddress :=
  match replies.first with
  | .error _ => ∅
  | .ok first =>
    if statusLow first.status = kReplyAck then
      readPackets replies kMaxParameterListPackets 0 ∅
    else ∅

/-- The entries so far, and how many requests got no answer. -/
structure Filling where
  entries : EntriesByAddress
  missing : ℕ

/-- `describe`, with the reply to its request. -/
def describe (reply : Except String Frame) (address : Address) (s : Filling) :
    Option ParameterEntry × Filling :=
  match reply with
  | .error _ => (none, { s with missing := s.missing + 1 })
  | .ok reply => ((decodeParameterEntries reply.data).find? (·.address = address), s)

/-- The entry at an address, asked for when it is not there. -/
def obtainEntry (reply : Except String Frame) (address : Address) (s : Filling) :
    Option ParameterEntry × Filling :=
  match s.entries[address]? with
  | some e => (some e, s)
  | none =>
    match describe reply address s with
    | (some e, s) => (some e, { s with entries := s.entries.insertIfNew address e })
    | (none, s) => (none, s)

/-- The turn of the loop over the subindices of an object. -/
def fillSubindex (replies : DictionaryReplies) (index : BitVec 16) (s : Filling) (subindex : ℕ) :
    Filling :=
  (obtainEntry (replies.paramSubDesc ⟨index, BitVec.ofNat 8 subindex⟩)
    ⟨index, BitVec.ofNat 8 subindex⟩ s).2

/-- The turn of the loop over the objects. -/
def fillObject (replies : DictionaryReplies) (s : Filling) (index : BitVec 16) : Filling :=
  match obtainEntry (replies.paramDesc ⟨index, 0⟩) ⟨index, 0⟩ s with
  | (none, s) => s
  | (some object, s) =>
    if isOpenObject object.entry.objectCode then
      (List.range' 1 (min object.subindexCount.toNat 0xFF)).foldl (fillSubindex replies index) s
    else s

/-- `found` is the drive at the position. -/
def readObjectDictionary (slavePosition : ℕ) (found : Option DictionaryReplies) :
    Except String OdRead :=
  match found with
  | none => .error ("no SPoE device at position " ++ toString slavePosition)
  | some replies =>
    match replies.list with
    | .error e => .error e
    | .ok list =>
      let s := (listedIndexes list.data).foldl (fillObject replies) ⟨readBulk replies, 0⟩
      .ok ⟨s.entries.toList.map (·.2.entry), s.missing⟩

/-! ### The drive's side -/

/-- One entry of the drive's dictionary, as a record describes it. -/
structure Description where
  index : BitVec 16
  subindex : BitVec 8
  objectDataType : BitVec 8
  dataType : BitVec 16
  objectCode : BitVec 8
  bitLength : BitVec 16
  objectAccess : BitVec 16
  subindexCount : BitVec 32
  name : List (BitVec 8)
  name_length : name.length ≤ 50
  name_ne_zero : ∀ b ∈ name, b ≠ 0

namespace Description

def address (d : Description) : Address := ⟨d.index, d.subindex⟩

def parameterEntry (d : Description) : ParameterEntry :=
  ⟨⟨d.index, d.subindex, d.objectCode.setWidth 16, d.dataType, d.bitLength, d.objectAccess, d.name,
    none, none, none, none⟩, d.subindexCount⟩

def bytes (d : Description) : List (BitVec 8) :=
  encode 2 d.index.toNat ++ [d.subindex, d.objectDataType] ++ encode 2 d.dataType.toNat ++
    [d.objectCode, 0] ++ encode 2 d.bitLength.toNat ++ encode 2 d.objectAccess.toNat ++
    encode 4 d.subindexCount.toNat ++
    (d.name ++ List.replicate (50 - d.name.length) 0 ++ [0, 0])

theorem length_bytes (d : Description) : d.bytes.length = kParameterEntrySize := by
  have h := d.name_length
  simp only [bytes, List.length_append, length_encode, List.length_cons, List.length_nil,
    List.length_replicate, kParameterEntrySize]
  omega

theorem readU16_toNat (v : BitVec 16) :
    readU16 (BitVec.ofNat 8 v.toNat) (BitVec.ofNat 8 (v.toNat / 256)) = v := by
  rw [readU16_encode, BitVec.ofNat_toNat, BitVec.setWidth_eq]

theorem u32At_bytes (d : Description) : u32At d.bytes 12 = d.subindexCount := by
  have hlow : u16At d.bytes 12 = BitVec.ofNat 16 d.subindexCount.toNat := readU16_encode _
  have hhigh : u16At d.bytes 14 = BitVec.ofNat 16 (d.subindexCount.toNat / 256 / 256) :=
    readU16_encode _
  refine BitVec.eq_of_toNat_eq ?_
  simp only [u32At, hlow, hhigh, BitVec.toNat_ofNat]
  omega

theorem takeWhile_name (d : Description) :
    ((d.bytes.drop 16).take 50).takeWhile (· ≠ 0) = d.name := by
  have hdrop : d.bytes.drop 16 = d.name ++ List.replicate (50 - d.name.length) 0 ++ [0, 0] := rfl
  have hlength : (d.name ++ List.replicate (50 - d.name.length) (0 : BitVec 8)).length = 50 := by
    have h := d.name_length
    rw [List.length_append, List.length_replicate]
    omega
  rw [hdrop, List.take_left' hlength, List.takeWhile_append_of_pos]
  · cases 50 - d.name.length <;> simp [List.replicate_succ]
  · intro b hb
    simpa using d.name_ne_zero b hb

theorem decodeEntry_bytes (d : Description) (h : d.index ≠ 0) :
    decodeEntry d.bytes = some d.parameterEntry := by
  have hindex : u16At d.bytes 0 = d.index := readU16_toNat d.index
  have hdataType : u16At d.bytes 4 = d.dataType := readU16_toNat d.dataType
  have hbitLength : u16At d.bytes 8 = d.bitLength := readU16_toNat d.bitLength
  have haccess : u16At d.bytes 10 = d.objectAccess := readU16_toNat d.objectAccess
  rw [decodeEntry, hindex, if_neg h, hdataType, hbitLength, haccess, takeWhile_name, u32At_bytes]
  rfl

end Description

/-- The record of an address the drive has no entry at. -/
def clearedRecord : List (BitVec 8) := List.replicate kParameterEntrySize 0

theorem length_clearedRecord : clearedRecord.length = kParameterEntrySize :=
  List.length_replicate ..

theorem decodeEntry_clearedRecord : decodeEntry clearedRecord = none := by decide

structure Dictionary where
  descriptions : List Description
  distinct : (descriptions.map Description.address).Nodup

namespace Dictionary

def find? (dict : Dictionary) (address : Address) : Option Description :=
  dict.descriptions.find? (·.address = address)

/-- What a description request for an address is answered with. -/
def record (dict : Dictionary) (address : Address) : List (BitVec 8) :=
  match dict.find? address with
  | some d => d.bytes
  | none => clearedRecord

def records (dict : Dictionary) : List (List (BitVec 8)) :=
  clearedRecord :: dict.descriptions.map Description.bytes

def entryAt (dict : Dictionary) (address : Address) : Option ParameterEntry :=
  (dict.find? address).map Description.parameterEntry

/-- The premise of the read: every object is listed, and no entry lies beyond its object's count. -/
structure Listed (dict : Dictionary) (indexes : List (BitVec 16)) : Prop where
  listed : ∀ d ∈ dict.descriptions, d.index ∈ indexes
  counted : ∀ d ∈ dict.descriptions, ∃ o ∈ dict.descriptions,
    o.address = ⟨d.index, 0⟩ ∧ d.subindex.toNat ≤ o.subindexCount.toNat

/-- No object has the index of a cleared record, and only arrays and records have entries after
subindex 0. -/
structure Regular (dict : Dictionary) : Prop where
  index_ne_zero : ∀ d ∈ dict.descriptions, d.index ≠ 0
  isOpen : ∀ d ∈ dict.descriptions, d.subindex ≠ 0 → ∀ o ∈ dict.descriptions,
    o.address = ⟨d.index, 0⟩ → isOpenObject (o.objectCode.setWidth 16)

end Dictionary

/-- The drive answers from its dictionary: the bulk list in packets of whole records, and every
description request. -/
structure Answers (dict : Dictionary) (replies : DictionaryReplies) : Prop where
  list : ∃ frame, replies.list = .ok frame ∧ dict.Listed (listedIndexes frame.data)
  bulk : ∀ packet frame, replies.middle packet = .ok frame →
    Blocks.Tiled dict.records frame.data
  paramDesc : ∀ address, ∃ frame, replies.paramDesc address = .ok frame ∧
    frame.data = dict.record address
  paramSubDesc : ∀ address, ∃ frame, replies.paramSubDesc address = .ok frame ∧
    frame.data = dict.record address

/-- The same replies, but for middle packets that came back BUSY and empty. -/
structure Loses (base replies : DictionaryReplies) : Prop where
  list : replies.list = base.list
  first : replies.first = base.first
  middle : ∀ packet, replies.middle packet = base.middle packet ∨
    ∃ frame, replies.middle packet = .ok frame ∧ frame.data = [] ∧
      statusLow frame.status = kReplyBusy
  paramDesc : replies.paramDesc = base.paramDesc
  paramSubDesc : replies.paramSubDesc = base.paramSubDesc

/-- Exactly the dictionary, each address once and in order, and nothing missing. -/
structure OdRead.Exactly (od : OdRead) (dict : Dictionary) : Prop where
  mem_iff : ∀ e, e ∈ od.entries ↔ ∃ d ∈ dict.descriptions, d.parameterEntry.entry = e
  ordered : od.entries.Pairwise fun a b => a.address.Before b.address
  missing : od.missingEntries = 0

end MotionMaster.Spoe
