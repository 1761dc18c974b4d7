import Mathlib.Data.List.Range
import MotionMaster.Lib.Codec

/-!
# Writing a dump

`writeProcessDataDump` streams the process image and then a row for each record it can read, and
puts the number of rows in the prefix at the end.
-/

namespace MotionMaster.Dump

open Bytes Codec

/-- One PDO-mapped object. A name is its bytes. -/
structure DumpPdoEntry where
  index : BitVec 16
  subindex : BitVec 8
  isOutput : Bool
  dataType : BitVec 16
  bitLength : BitVec 16
  bitOffset : BitVec 32
  name : List (BitVec 8)
  deriving DecidableEq

structure DumpDevice where
  slavePosition : BitVec 16
  vendorId : BitVec 32
  productCode : BitVec 32
  revisionNumber : BitVec 32
  serialNumber : BitVec 32
  name : List (BitVec 8)
  entries : List DumpPdoEntry
  deriving DecidableEq

structure DumpHeader where
  inputBytes : BitVec 32
  outputBytes : BitVec 32
  devices : List DumpDevice
  deriving DecidableEq

/-- A record as the ring hands it out. -/
structure Record where
  seq : BitVec 64
  timestampNs : BitVec 64
  inputs : List (BitVec 8)
  outputs : List (BitVec 8)
  deriving DecidableEq

/-- What `read` answers for each sequence: it is asked once. -/
abbrev DumpRecordReader := ℕ → Option Record

def kDumpMagic : List (BitVec 8) := [0x4D, 0x4D, 0x50, 0x44]

def kDumpFormatVersion : ℕ := 1

def kDumpRowCountOffset : ℕ := 16

def putLE (width value : ℕ) : Stream → Option Stream := Stream.write (encode width value)

/-- The length is clamped to a `uint16_t`. -/
def putStr (s : List (BitVec 8)) (o : Stream) : Option Stream := do
  let n := min s.length 0xFFFF
  let o ← putLE 2 n o
  o.write (s.take n)

/-- The size is cast to a `uint32_t` before it is compared. -/
def putRegion (src : List (BitVec 8)) (cap : ℕ) (o : Stream) : Option Stream := do
  let n := min (src.length % 2 ^ 32) cap
  let o ← o.write (src.take n)
  (List.range' n (cap - n)).foldlM (fun o _ => o.write [0]) o

def putEntry (e : DumpPdoEntry) (o : Stream) : Option Stream := do
  let o ← putLE 2 e.index.toNat o
  let o ← putLE 1 e.subindex.toNat o
  let o ← putLE 1 (if e.isOutput then 1 else 0) o
  let o ← putLE 2 e.dataType.toNat o
  let o ← putLE 2 e.bitLength.toNat o
  let o ← putLE 4 e.bitOffset.toNat o
  putStr e.name o

def putDevice (d : DumpDevice) (o : Stream) : Option Stream := do
  let o ← putLE 2 d.slavePosition.toNat o
  let o ← putLE 4 d.vendorId.toNat o
  let o ← putLE 4 d.productCode.toNat o
  let o ← putLE 4 d.revisionNumber.toNat o
  let o ← putLE 4 d.serialNumber.toNat o
  let o ← putStr d.name o
  let o ← putLE 4 d.entries.length o
  d.entries.foldlM (fun o e => putEntry e o) o

def writeHeader (header : DumpHeader) (startSeq : BitVec 64) (o : Stream) : Option Stream := do
  let o ← o.write kDumpMagic
  let o ← putLE 2 kDumpFormatVersion o
  let o ← putLE 2 0 o
  let o ← putLE 8 startSeq.toNat o
  let o ← putLE 8 0 o
  let o ← putLE 4 header.inputBytes.toNat o
  let o ← putLE 4 header.outputBytes.toNat o
  let o ← putLE 4 header.devices.length o
  header.devices.foldlM (fun o d => putDevice d o) o

def putRow (header : DumpHeader) (rec : Record) (o : Stream) : Option Stream := do
  let o ← putLE 8 rec.seq.toNat o
  let o ← putLE 8 rec.timestampNs.toNat o
  let o ← putRegion rec.inputs header.inputBytes.toNat o
  putRegion rec.outputs header.outputBytes.toNat o

/-- One turn of the loop over the span: a record that cannot be read is skipped. -/
def writeRow (header : DumpHeader) (read : DumpRecordReader) (x : Stream × ℕ) (seq : ℕ) :
    Option (Stream × ℕ) :=
  match read seq with
  | none => some x
  | some rec => do
    let o ← putRow header rec x.1
    return (o, x.2 + 1)

def span (startSeq endSeq : BitVec 64) : List ℕ :=
  List.range' startSeq.toNat (endSeq.toNat - startSeq.toNat)

def writeAll (header : DumpHeader) (startSeq endSeq : BitVec 64) (read : DumpRecordReader)
    (out : Stream) : Option (Stream × ℕ) := do
  let out ← writeHeader header startSeq out
  let (out, written) ← (span startSeq endSeq).foldlM (writeRow header read) (out, 0)
  let out ← putLE 8 written (out.seek kDumpRowCountOffset)
  return (out.seekEnd, written)

/-- The number of rows, and the stream. -/
def writeProcessDataDump (out : Stream) (header : DumpHeader) (startSeq endSeq : BitVec 64)
    (read : DumpRecordReader) : Except String (Stream × ℕ) :=
  match writeAll header startSeq endSeq read out with
  | none => .error "failed to write process-data dump (stream error)"
  | some x => .ok x

/-! ### What is written -/

def strBytes (s : List (BitVec 8)) : List (BitVec 8) :=
  encode 2 (min s.length 0xFFFF) ++ s.take (min s.length 0xFFFF)

def regionBytes (src : List (BitVec 8)) (cap : ℕ) : List (BitVec 8) :=
  src.take (min (src.length % 2 ^ 32) cap) ++
    List.replicate (cap - min (src.length % 2 ^ 32) cap) 0

def entryBytes (e : DumpPdoEntry) : List (BitVec 8) :=
  encode 2 e.index.toNat ++ (encode 1 e.subindex.toNat ++
    (encode 1 (if e.isOutput then 1 else 0) ++ (encode 2 e.dataType.toNat ++
      (encode 2 e.bitLength.toNat ++ (encode 4 e.bitOffset.toNat ++ strBytes e.name)))))

def deviceBytes (d : DumpDevice) : List (BitVec 8) :=
  encode 2 d.slavePosition.toNat ++ (encode 4 d.vendorId.toNat ++
    (encode 4 d.productCode.toNat ++ (encode 4 d.revisionNumber.toNat ++
      (encode 4 d.serialNumber.toNat ++ (strBytes d.name ++
        (encode 4 d.entries.length ++ d.entries.flatMap entryBytes))))))

def prefixBytes (startSeq : BitVec 64) : List (BitVec 8) :=
  kDumpMagic ++ (encode 2 kDumpFormatVersion ++ (encode 2 0 ++ encode 8 startSeq.toNat))

/-- What stands behind the row count, up to the rows. -/
def tableBytes (header : DumpHeader) : List (BitVec 8) :=
  encode 4 header.inputBytes.toNat ++ (encode 4 header.outputBytes.toNat ++
    (encode 4 header.devices.length ++ header.devices.flatMap deviceBytes))

def headerBytes (header : DumpHeader) (startSeq : BitVec 64) (rowCount : ℕ) : List (BitVec 8) :=
  prefixBytes startSeq ++ (encode 8 rowCount ++ tableBytes header)

def rowBytes (header : DumpHeader) (rec : Record) : List (BitVec 8) :=
  encode 8 rec.seq.toNat ++ (encode 8 rec.timestampNs.toNat ++
    (regionBytes rec.inputs header.inputBytes.toNat ++
      regionBytes rec.outputs header.outputBytes.toNat))

def available (startSeq endSeq : BitVec 64) (read : DumpRecordReader) : List Record :=
  (span startSeq endSeq).filterMap read

def dumpBytes (header : DumpHeader) (startSeq endSeq : BitVec 64) (read : DumpRecordReader) :
    List (BitVec 8) :=
  headerBytes header startSeq (available startSeq endSeq read).length ++
    (available startSeq endSeq read).flatMap (rowBytes header)

theorem emits_putLE (width value : ℕ) : Emits (putLE width value) (encode width value) :=
  emits_write _

theorem emits_putStr (s : List (BitVec 8)) : Emits (putStr s) (strBytes s) :=
  (emits_putLE _ _).bind (emits_write _)

theorem flatMap_zero (l : List ℕ) :
    (l.flatMap fun _ => [(0 : BitVec 8)]) = List.replicate l.length 0 := by
  induction l with
  | nil => rfl
  | cons a l ih =>
    rw [List.flatMap_cons, ih, List.length_cons, List.replicate_succ, List.cons_append,
      List.nil_append]

theorem emits_putRegion (src : List (BitVec 8)) (cap : ℕ) :
    Emits (putRegion src cap) (regionBytes src cap) := by
  have hzeros := Emits.foldlM (fun _ : ℕ => emits_write [0])
    (List.range' (min (src.length % 2 ^ 32) cap) (cap - min (src.length % 2 ^ 32) cap))
  rw [flatMap_zero, List.length_range'] at hzeros
  exact (emits_write _).bind hzeros

theorem emits_putEntry (e : DumpPdoEntry) : Emits (putEntry e) (entryBytes e) :=
  (emits_putLE _ _).bind ((emits_putLE _ _).bind ((emits_putLE _ _).bind ((emits_putLE _ _).bind
    ((emits_putLE _ _).bind ((emits_putLE _ _).bind (emits_putStr _))))))

theorem emits_putDevice (d : DumpDevice) : Emits (putDevice d) (deviceBytes d) :=
  (emits_putLE _ _).bind ((emits_putLE _ _).bind ((emits_putLE _ _).bind ((emits_putLE _ _).bind
    ((emits_putLE _ _).bind ((emits_putStr _).bind ((emits_putLE _ _).bind
      (Emits.foldlM emits_putEntry _)))))))

theorem emits_putRow (header : DumpHeader) (rec : Record) :
    Emits (putRow header rec) (rowBytes header rec) :=
  (emits_putLE _ _).bind ((emits_putLE _ _).bind ((emits_putRegion _ _).bind (emits_putRegion _ _)))

theorem emits_writeHeader (header : DumpHeader) (startSeq : BitVec 64) :
    Emits (writeHeader header startSeq) (headerBytes header startSeq 0) := by
  have h := (emits_write kDumpMagic).bind ((emits_putLE 2 kDumpFormatVersion).bind
    ((emits_putLE 2 0).bind ((emits_putLE 8 startSeq.toNat).bind ((emits_putLE 8 0).bind
      ((emits_putLE 4 header.inputBytes.toNat).bind ((emits_putLE 4 header.outputBytes.toNat).bind
        ((emits_putLE 4 header.devices.length).bind
          (Emits.foldlM emits_putDevice header.devices))))))))
  exact h

/-- The loop writes a row for each record it can read, and counts it. -/
theorem foldlM_writeRow (header : DumpHeader) (read : DumpRecordReader) (seqs : List ℕ)
    {capacity : ℕ} {bs : List (BitVec 8)} (written : ℕ) (hb : bs.length ≤ capacity) :
    seqs.foldlM (writeRow header read) (.atEnd capacity bs, written) =
      if (bs ++ (seqs.filterMap read).flatMap (rowBytes header)).length ≤ capacity then
        some (.atEnd capacity (bs ++ (seqs.filterMap read).flatMap (rowBytes header)),
          written + (seqs.filterMap read).length)
      else none := by
  induction seqs generalizing bs written with
  | nil => simp [hb]
  | cons seq seqs ih =>
    rw [List.foldlM_cons]
    cases hr : read seq with
    | none =>
      simp only [writeRow, hr, Option.bind_eq_bind, Option.bind_some, List.filterMap_cons]
      exact ih written hb
    | some rec =>
      simp only [writeRow, hr, List.filterMap_cons, List.flatMap_cons, List.length_cons,
        emits_putRow header rec capacity bs hb]
      by_cases hrow : (bs ++ rowBytes header rec).length ≤ capacity
      · simp only [hrow, if_true, Option.bind_eq_bind, Option.bind_some, Option.pure_def]
        rw [ih (written + 1) hrow, List.append_assoc, Nat.add_assoc, Nat.add_comm 1]
      · rw [if_neg hrow, if_neg]
        · rfl
        · simp only [List.length_append] at hrow ⊢
          omega

theorem length_prefixBytes (startSeq : BitVec 64) :
    (prefixBytes startSeq).length = kDumpRowCountOffset := by
  simp [prefixBytes, kDumpMagic, kDumpRowCountOffset]

theorem length_dumpBytes (header : DumpHeader) (startSeq endSeq : BitVec 64)
    (read : DumpRecordReader) :
    (dumpBytes header startSeq endSeq read).length = (headerBytes header startSeq 0).length +
      ((available startSeq endSeq read).flatMap (rowBytes header)).length := by
  simp only [dumpBytes, headerBytes, List.length_append, length_encode]

theorem putLE_rowCount (capacity : ℕ) (header : DumpHeader) (startSeq : BitVec 64) (written : ℕ)
    (rows : List (BitVec 8)) (hc : (headerBytes header startSeq 0 ++ rows).length ≤ capacity) :
    (putLE 8 written ((Stream.atEnd capacity (headerBytes header startSeq 0 ++ rows)).seek
        kDumpRowCountOffset)).map Stream.seekEnd =
      some (.atEnd capacity (headerBytes header startSeq written ++ rows)) := by
  have hsplit (n : ℕ) : headerBytes header startSeq n ++ rows =
      prefixBytes startSeq ++ encode 8 n ++ (tableBytes header ++ rows) := by
    simp only [headerBytes, List.append_assoc]
  rw [hsplit 0] at hc ⊢
  rw [Stream.atEnd, Stream.seek, putLE, ← length_prefixBytes startSeq,
    write_over (by simp only [length_encode]) hc, Option.map_some, hsplit written]
  rfl

theorem writeAll_eq (capacity : ℕ) (header : DumpHeader) (startSeq endSeq : BitVec 64)
    (read : DumpRecordReader) :
    writeAll header startSeq endSeq read (.atEnd capacity []) =
      if (dumpBytes header startSeq endSeq read).length ≤ capacity then
        some (.atEnd capacity (dumpBytes header startSeq endSeq read),
          (available startSeq endSeq read).length)
      else none := by
  have hlen := length_dumpBytes header startSeq endSeq read
  unfold writeAll
  rw [emits_writeHeader header startSeq capacity [] (Nat.zero_le _), List.nil_append]
  by_cases hh : (headerBytes header startSeq 0).length ≤ capacity
  · simp only [hh, if_true, Option.bind_eq_bind, Option.bind_some]
    rw [foldlM_writeRow header read _ 0 hh, Nat.zero_add, ← available]
    rw [← List.length_append] at hlen
    by_cases hd : (dumpBytes header startSeq endSeq read).length ≤ capacity
    · rw [if_pos hd, if_pos (hlen ▸ hd)]
      have hput := putLE_rowCount capacity header startSeq (available startSeq endSeq read).length
        ((available startSeq endSeq read).flatMap (rowBytes header)) (hlen ▸ hd)
      obtain ⟨o, ho, hend⟩ := Option.map_eq_some_iff.mp hput
      simp only [Option.bind_some, ho, hend]
      rfl
    · rw [if_neg hd, if_neg (hlen ▸ hd)]
      rfl
  · rw [if_neg hh, if_neg (by omega)]
    rfl

/-- A dump is written exactly if it fits, with the count of its rows. -/
theorem writeProcessDataDump_eq (capacity : ℕ) (header : DumpHeader) (startSeq endSeq : BitVec 64)
    (read : DumpRecordReader) :
    writeProcessDataDump (.atEnd capacity []) header startSeq endSeq read =
      if (dumpBytes header startSeq endSeq read).length ≤ capacity then
        .ok (.atEnd capacity (dumpBytes header startSeq endSeq read),
          (available startSeq endSeq read).length)
      else .error "failed to write process-data dump (stream error)" := by
  rw [writeProcessDataDump, writeAll_eq]
  split_ifs with hd
  · rfl
  · rfl

end MotionMaster.Dump
