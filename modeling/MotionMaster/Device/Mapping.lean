import Mathlib.Data.List.Infix
import MotionMaster.ProcessImage.Build

/-!
# Reading the PDO mapping

`readFlatPdoMapping`: the assignment and mapping objects read over SDO, or the SII EEPROM of a slave
without a CoE mailbox. Either way the entries lie one after the other.
-/

namespace MotionMaster

open Bytes

/-- `core::fromBytes` of an `n`-byte integer. A short buffer reads as if zero-padded. -/
def fromBytes (n : ℕ) (bytes : List (BitVec 8)) : ℕ := decode (bytes.take n)

/-- One mapping object and its ordered entries. -/
structure PdoMappingObject where
  pdoIndex : ℕ
  entries : List PdoMappingEntry

/-- What the device answers while one assignment object is read: its subindices, and the entry
count and the entries of the mapping object each slot names. -/
structure AssignmentReplies where
  count : Except String (List (BitVec 8))
  assigned : ℕ → Except String (List (BitVec 8))
  entryCount : ℕ → Except String (List (BitVec 8))
  entry : ℕ → ℕ → Except String (List (BitVec 8))

/-- `index << 16 | subindex << 8 | bitLength`. -/
def packMappingEntry (index : BitVec 16) (subindex bitLength : BitVec 8) : BitVec 32 :=
  BitVec.ofNat 32 (index.toNat * 65536 + subindex.toNat * 256 + bitLength.toNat)

/-- The driver's text for the abort code 0x06020000. -/
def IsObjectDoesNotExistAbort (error : String) : Prop :=
  "0x06020000".toList <:+: error.toList
  deriving Decidable

def subindexText (index subindex : ℕ) : String :=
  "0x" ++ hexDigits 4 index ++ ":" ++ hexDigits 2 subindex

/-- The entries of one mapping object, `n` of them from subindex `e` on, and the offset after
them. -/
def readEntries (mappingIndex : ℕ) (entry : ℕ → Except String (List (BitVec 8))) :
    ℕ → ℕ → ℕ → Except String (List PdoMappingEntry × ℕ)
  | 0, _, totalBits => .ok ([], totalBits)
  | n + 1, e, totalBits =>
    match entry e with
    | .error msg =>
      .error (subindexText mappingIndex e ++ " (PDO mapping entry) read failed: " ++ msg)
    | .ok bytes => do
      let unpacked := unpackMappingEntry (BitVec.ofNat 32 (fromBytes 4 bytes)) totalBits
      let rest ← readEntries mappingIndex entry n (e + 1) (totalBits + unpacked.bitLength)
      .ok (unpacked :: rest.1, rest.2)

/-- The assigned objects, `n` slots from slot `i` on. An unused slot, and one whose object the
device does not implement, take no bits. -/
def readAssigned (assignmentIndex : ℕ) (replies : AssignmentReplies) :
    ℕ → ℕ → ℕ → Except String (List PdoMappingObject)
  | 0, _, _ => .ok []
  | n + 1, i, totalBits =>
    match replies.assigned i with
    | .error msg =>
      .error (subindexText assignmentIndex i ++ " (PDO assignment) read failed: " ++ msg)
    | .ok bytes =>
      let mappingIndex := fromBytes 2 bytes
      if mappingIndex = 0 then readAssigned assignmentIndex replies n (i + 1) totalBits
      else
        match replies.entryCount i with
        | .error msg =>
          if IsObjectDoesNotExistAbort msg then
            readAssigned assignmentIndex replies n (i + 1) totalBits
          else .error (subindexText mappingIndex 0 ++ " (PDO mapping) read failed: " ++ msg)
        | .ok countBytes => do
          let read ← readEntries mappingIndex (replies.entry i) (fromBytes 1 countBytes) 1 totalBits
          let rest ← readAssigned assignmentIndex replies n (i + 1) read.2
          .ok (⟨mappingIndex, read.1⟩ :: rest)

/-- No assignment object means no entries. -/
def readPdoAssignment (assignmentIndex : ℕ) (replies : AssignmentReplies) :
    Except String (List PdoMappingObject) :=
  match replies.count with
  | .error _ => .ok []
  | .ok bytes => readAssigned assignmentIndex replies (fromBytes 1 bytes) 1 0

structure SiiCategoryPdoEntryElement where
  entryIndex : BitVec 16
  subindex : BitVec 8
  /-- The text `entryNameIdx` names, empty when it names none. -/
  name : String
  dataType : BitVec 8
  bitLen : BitVec 8

structure SiiCategoryPdoElement where
  pdoIndex : BitVec 16
  entries : List SiiCategoryPdoEntryElement

/-- The entries of one direction. A PDO without an index is trailing padding of the category. -/
def flattenSii : ℕ → List SiiCategoryPdoEntryElement → List PdoMappingEntry
  | _, [] => []
  | totalBits, e :: entries =>
    ⟨e.entryIndex.toNat, e.subindex.toNat, e.bitLen.toNat, totalBits⟩ ::
      flattenSii (totalBits + e.bitLen.toNat) entries

def siiEntries (pdos : List SiiCategoryPdoElement) : List SiiCategoryPdoEntryElement :=
  (pdos.filter fun pdo => pdo.pdoIndex ≠ 0).flatMap (·.entries)

inductive MappingSource where
  /-- Without a CoE mailbox: the RxPDO and TxPDO categories of the SII. -/
  | sii (pdos : Except String (List SiiCategoryPdoElement × List SiiCategoryPdoElement))
  /-- The replies to the reads of 0x1C12 and 0x1C13. -/
  | coe (outputs inputs : AssignmentReplies)

def flatOf (outputs inputs : List PdoMappingEntry) : FlatPdoMapping :=
  ⟨outputs, inputs, totalBits outputs, totalBits inputs⟩

def MappingSource.read : MappingSource → Except String FlatPdoMapping
  | .sii pdos => pdos.map fun (rx, tx) =>
    flatOf (flattenSii 0 (siiEntries rx)) (flattenSii 0 (siiEntries tx))
  | .coe outputs inputs => do
    let out ← readPdoAssignment 0x1C12 outputs
    let inp ← readPdoAssignment 0x1C13 inputs
    .ok (flatOf (out.flatMap (·.entries)) (inp.flatMap (·.entries)))

/-! ### Entries lie one after the other -/

theorem flatten_append (n : ℕ) (ws vs : List (BitVec 32)) :
    flatten n (ws ++ vs) = flatten n ws ++ flatten (n + totalBits (flatten n ws)) vs := by
  induction ws generalizing n with
  | nil => simp [flatten, totalBits]
  | cons w ws ih => simp [flatten, ih, totalBits, Nat.add_assoc]

theorem readEntries_flatten {mappingIndex : ℕ} {entry : ℕ → Except String (List (BitVec 8))}
    {n e offset : ℕ} {read : List PdoMappingEntry × ℕ}
    (h : readEntries mappingIndex entry n e offset = .ok read) :
    ∃ words, read.1 = flatten offset words ∧ read.2 = offset + totalBits read.1 := by
  induction n generalizing e offset read with
  | zero =>
    cases h
    exact ⟨[], rfl, rfl⟩
  | succ n ih =>
    unfold readEntries at h
    split at h
    · cases h
    · rename_i bytes _
      obtain ⟨rest, hrest, h⟩ := Except.bind_eq_ok h
      cases h
      obtain ⟨words, hw, ho⟩ := ih hrest
      refine ⟨BitVec.ofNat 32 (fromBytes 4 bytes) :: words, ?_, ?_⟩
      · simp only [flatten, hw]
      · simp only [totalBits, List.map_cons, List.sum_cons] at ho ⊢
        omega

theorem readAssigned_flatten {assignmentIndex : ℕ} {replies : AssignmentReplies} {n i offset : ℕ}
    {objects : List PdoMappingObject}
    (h : readAssigned assignmentIndex replies n i offset = .ok objects) :
    ∃ words, objects.flatMap (·.entries) = flatten offset words := by
  induction n generalizing i offset objects with
  | zero =>
    cases h
    exact ⟨[], rfl⟩
  | succ n ih =>
    unfold readAssigned at h
    split at h
    · cases h
    · dsimp only at h
      split at h
      · exact ih h
      · split at h
        · split at h
          · exact ih h
          · cases h
        · obtain ⟨read, hread, h⟩ := Except.bind_eq_ok h
          obtain ⟨rest, hrest, h⟩ := Except.bind_eq_ok h
          cases h
          obtain ⟨words, hw, ho⟩ := readEntries_flatten hread
          obtain ⟨words', hw'⟩ := ih hrest
          refine ⟨words ++ words', ?_⟩
          rw [List.flatMap_cons, hw', flatten_append, ← hw, ho]

theorem readPdoAssignment_flatten {assignmentIndex : ℕ} {replies : AssignmentReplies}
    {objects : List PdoMappingObject}
    (h : readPdoAssignment assignmentIndex replies = .ok objects) :
    ∃ words, objects.flatMap (·.entries) = flatten 0 words := by
  unfold readPdoAssignment at h
  split at h
  · cases h
    exact ⟨[], rfl⟩
  · exact readAssigned_flatten h

theorem unpack_packMappingEntry (index : BitVec 16) (subindex bitLength : BitVec 8) (n : ℕ) :
    unpackMappingEntry (packMappingEntry index subindex bitLength) n =
      ⟨index.toNat, subindex.toNat, bitLength.toNat, n⟩ := by
  have hmask : ∀ x : ℕ, x &&& (0xFF : BitVec 32).toNat = x % 256 := fun x =>
    Nat.and_two_pow_sub_one_eq_mod x 8
  simp only [unpackMappingEntry, packMappingEntry, PdoMappingEntry.mk.injEq,
    BitVec.toNat_ushiftRight, BitVec.toNat_and, BitVec.toNat_ofNat, Nat.shiftRight_eq_div_pow,
    Nat.reducePow, hmask, and_true]
  omega

/-- A SII entry is what its mapping word would unpack to. -/
theorem flattenSii_flatten (n : ℕ) (entries : List SiiCategoryPdoEntryElement) :
    ∃ words, flattenSii n entries = flatten n words := by
  induction entries generalizing n with
  | nil => exact ⟨[], rfl⟩
  | cons e entries ih =>
    obtain ⟨words, hw⟩ := ih (n + e.bitLen.toNat)
    refine ⟨packMappingEntry e.entryIndex e.subindex e.bitLen :: words, ?_⟩
    rw [flattenSii, flatten, unpack_packMappingEntry, hw]

/-- Whatever the mapping was read from, it is the mapping of some words. -/
theorem MappingSource.read_flatten {source : MappingSource} {mapping : FlatPdoMapping}
    (h : source.read = .ok mapping) :
    ∃ outputs inputs, mapping = readFlatPdoMapping outputs inputs := by
  cases source with
  | sii pdos =>
    cases pdos with
    | error e => cases h
    | ok pdos =>
      obtain ⟨rx, tx⟩ := pdos
      cases h
      obtain ⟨outputs, ho⟩ := flattenSii_flatten 0 (siiEntries rx)
      obtain ⟨inputs, hi⟩ := flattenSii_flatten 0 (siiEntries tx)
      exact ⟨outputs, inputs, by simp only [readFlatPdoMapping, flatOf, ho, hi]⟩
  | coe out inp =>
    obtain ⟨os, hos, h⟩ := Except.bind_eq_ok h
    obtain ⟨is, his, h⟩ := Except.bind_eq_ok h
    cases h
    obtain ⟨outputs, ho⟩ := readPdoAssignment_flatten hos
    obtain ⟨inputs, hi⟩ := readPdoAssignment_flatten his
    exact ⟨outputs, inputs, by rw [readFlatPdoMapping, flatOf, ho, hi]⟩

end MotionMaster
