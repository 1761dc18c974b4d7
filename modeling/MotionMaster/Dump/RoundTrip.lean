import Mathlib.Data.List.GetD
import MotionMaster.Dump.Parse
import MotionMaster.Dump.Write

/-!
# A dump is read as it was written

The writer's tables and rows are parsed part by part. A name comes back unless it starts with a byte
order mark; tables and regions come back as far as a `uint32_t` counts them.
-/

namespace MotionMaster.Dump

open Bytes Codec

variable (malformed : List (BitVec 8) → String)

/-! ### The header -/

def DumpPdoEntry.parsed (e : DumpPdoEntry) : MmpdPdoEntry where
  index := e.index.toNat
  subindex := e.subindex.toNat
  isOutput := e.isOutput
  dataType := e.dataType.toNat
  bitLength := e.bitLength.toNat
  bitOffset := e.bitOffset.toNat
  name := textDecode malformed e.name

def DumpDevice.parsed (d : DumpDevice) : MmpdDevice where
  slavePosition := d.slavePosition.toNat
  vendorId := d.vendorId.toNat
  productCode := d.productCode.toNat
  revisionNumber := d.revisionNumber.toNat
  serialNumber := d.serialNumber.toNat
  name := textDecode malformed d.name
  entries := d.entries.map (·.parsed malformed)

def ValidName (name : List (BitVec 8)) : Prop := name.length < 65536 ∧ ∃ s, utf8 s = name

structure DumpDevice.Named (d : DumpDevice) : Prop where
  name : ValidName d.name
  entries : ∀ e ∈ d.entries, ValidName e.name

theorem reads_field {w : ℕ} (v : BitVec w) {n : ℕ} (h : w = 8 * n) :
    Reads (Reader.uint n) (encode n v.toNat) v.toNat := by
  subst h
  have hmod : v.toNat % 256 ^ n = v.toNat := by
    have hlt := v.isLt
    rw [Nat.pow_mul] at hlt
    exact Nat.mod_eq_of_lt hlt
  simpa only [hmod] using reads_uint n v.toNat

theorem reads_str {name : List (BitVec 8)} (h : name.length < 65536) :
    Reads (Cursor.str malformed) (strBytes name) (textDecode malformed name) := by
  have hmin : min name.length 0xFFFF = name.length := by omega
  have hlen : Reads (Reader.uint 2) (encode 2 name.length) name.length := by
    have hmod : name.length % 256 ^ 2 = name.length := Nat.mod_eq_of_lt (by omega)
    simpa only [hmod] using reads_uint 2 name.length
  rw [strBytes, hmin, List.take_length]
  exact hlen.bind ((reads_span name).bind_pure _)

theorem reads_direction (b : Bool) :
    Reads (Reader.uint 1) (encode 1 (if b then 1 else 0)) (if b then 1 else 0) := by
  cases b with
  | false => exact reads_uint 1 0
  | true => exact reads_uint 1 1

theorem reads_entry {e : DumpPdoEntry} (h : e.name.length < 65536) :
    Reads (Cursor.entry malformed) (entryBytes e) (e.parsed malformed) := by
  have hdir : ((if e.isOutput then 1 else 0 : ℕ) == 1) = e.isOutput := by cases e.isOutput <;> rfl
  have hname := (reads_str malformed h).bind_pure fun name =>
    ({ e.parsed malformed with name } : MmpdPdoEntry)
  refine (reads_field e.index rfl).bind ?_
  refine (reads_field e.subindex rfl).bind ?_
  refine (reads_direction e.isOutput).bind ?_
  refine (reads_field e.dataType rfl).bind ?_
  refine (reads_field e.bitLength rfl).bind ?_
  refine (reads_field e.bitOffset rfl).bind ?_
  rw [hdir]
  exact hname

theorem reads_count {n : ℕ} (h : n < 2 ^ 32) : Reads (Reader.uint 4) (encode 4 n) n := by
  have hmod : n % 256 ^ 4 = n := Nat.mod_eq_of_lt (by omega)
  simpa only [hmod] using reads_uint 4 n

theorem reads_device {d : DumpDevice} (hn : d.Named) (hl : d.entries.length < 2 ^ 32) :
    Reads (Cursor.device malformed) (deviceBytes d) (d.parsed malformed) := by
  have hentries := Reads.times fun e he => reads_entry malformed (hn.entries e he).1
  have hlast := hentries.bind_pure fun entries =>
    ({ d.parsed malformed with entries } : MmpdDevice)
  refine (reads_field d.slavePosition rfl).bind ?_
  refine (reads_field d.vendorId rfl).bind ?_
  refine (reads_field d.productCode rfl).bind ?_
  refine (reads_field d.revisionNumber rfl).bind ?_
  refine (reads_field d.serialNumber rfl).bind ?_
  refine (reads_str malformed hn.name.1).bind ?_
  exact (reads_count hl).bind hlast

variable {header : DumpHeader} {startSeq endSeq : BitVec 64} {read : DumpRecordReader}

theorem getUint_here (n v : ℕ) (after : List (BitVec 8)) :
    getUint (encode n v ++ after) n 0 = .ok (v % 256 ^ n) := getUint_encode [] after n v

theorem parsePrefix_headerBytes (n : ℕ) (rest : List (BitVec 8)) :
    parsePrefix (headerBytes header startSeq n ++ rest) =
      .ok (⟨1, 0, startSeq.toNat, n % 2 ^ 64, header.inputBytes.toNat, header.outputBytes.toNat,
        []⟩, header.devices.length % 2 ^ 32) := by
  have hmagic : kDumpMagic = encode 4 MAGIC := by decide
  have hstart : startSeq.toNat % 256 ^ 8 = startSeq.toNat := Nat.mod_eq_of_lt startSeq.isLt
  have hin : header.inputBytes.toNat % 256 ^ 4 = header.inputBytes.toNat :=
    Nat.mod_eq_of_lt header.inputBytes.isLt
  have hout : header.outputBytes.toNat % 256 ^ 4 = header.outputBytes.toNat :=
    Nat.mod_eq_of_lt header.outputBytes.isLt
  unfold parsePrefix
  simp only [headerBytes, prefixBytes, tableBytes, hmagic, List.append_assoc]
  simp (disch := simp) only [getUint_append, getUint_here, length_encode, Nat.reduceSub, hstart,
    hin, hout]
  rfl

def rowsAt (header : DumpHeader) (startSeq : BitVec 64) : ℕ :=
  (headerBytes header startSeq 0).length

def rowStride (header : DumpHeader) : ℕ := 16 + header.inputBytes.toNat + header.outputBytes.toNat

theorem length_headerBytes (n : ℕ) :
    (headerBytes header startSeq n).length = rowsAt header startSeq := by
  simp only [rowsAt, headerBytes, List.length_append, length_encode]

structure DumpHeader.Counted (header : DumpHeader) : Prop where
  devices : header.devices.length < 2 ^ 32
  entries : ∀ d ∈ header.devices, d.entries.length < 2 ^ 32

/-- What is parsed from a dump whose row region is cut. -/
def parsedFile (header : DumpHeader) (startSeq : BitVec 64) (n : ℕ) (rest : List (BitVec 8)) :
    MmpdFile where
  header :=
    { formatVersion := 1
      flags := 0
      startSequence := startSeq.toNat
      rowCount := clampRows (rest.length / rowStride header) (n % 2 ^ 64)
      inputBytes := header.inputBytes.toNat
      outputBytes := header.outputBytes.toNat
      devices := header.devices.map (·.parsed malformed) }
  u8 := headerBytes header startSeq n ++ rest
  rowsStart := rowsAt header startSeq

theorem parseMmpd_headerBytes (hn : ∀ d ∈ header.devices, d.Named) (hc : header.Counted) (n : ℕ)
    (rest : List (BitVec 8)) :
    parseMmpd malformed (headerBytes header startSeq n ++ rest) =
      .ok (parsedFile malformed header startSeq n rest) := by
  have hdevices : Reads (Reader.times header.devices.length (Cursor.device malformed))
      (header.devices.flatMap deviceBytes) (header.devices.map (·.parsed malformed)) :=
    Reads.times fun d hd => reads_device malformed (hn d hd) (hc.entries d hd)
  -- the devices follow the 36 bytes of the prefix
  have hsplit : headerBytes header startSeq n = prefixBytes startSeq ++ (encode 8 n ++
      (encode 4 header.inputBytes.toNat ++ (encode 4 header.outputBytes.toNat ++
        encode 4 header.devices.length))) ++ header.devices.flatMap deviceBytes := by
    simp only [headerBytes, tableBytes, List.append_assoc]
  have hread := hdevices (prefixBytes startSeq ++ (encode 8 n ++
      (encode 4 header.inputBytes.toNat ++ (encode 4 header.outputBytes.toNat ++
        encode 4 header.devices.length)))) rest
  have h36 : (prefixBytes startSeq ++ (encode 8 n ++ (encode 4 header.inputBytes.toNat ++
      (encode 4 header.outputBytes.toNat ++ encode 4 header.devices.length)))).length = 36 := by
    simp only [List.length_append, length_prefixBytes, length_encode, kDumpRowCountOffset]
  rw [← List.length_append, ← hsplit, length_headerBytes, h36, ← List.append_assoc, ← hsplit]
    at hread
  have hrest : (headerBytes header startSeq n ++ rest).length - rowsAt header startSeq =
      rest.length := by
    rw [List.length_append, length_headerBytes, Nat.add_sub_cancel_left]
  unfold parseMmpd
  rw [parsePrefix_headerBytes]
  simp only [bind, Except.bind, Nat.mod_eq_of_lt hc.devices, hread, hrest]
  rfl

/-! ### The rows -/

theorem length_regionBytes (src : List (BitVec 8)) (cap : ℕ) :
    (regionBytes src cap).length = cap := by
  simp only [regionBytes, List.length_append, List.length_take, List.length_replicate]
  omega

theorem length_rowBytes (r : Record) : (rowBytes header r).length = rowStride header := by
  simp only [rowBytes, List.length_append, length_encode, length_regionBytes, rowStride]
  omega

theorem length_rows (records : List Record) :
    (records.flatMap (rowBytes header)).length = records.length * rowStride header := by
  induction records with
  | nil => simp
  | cons r records ih =>
    rw [List.flatMap_cons, List.length_append, ih, length_rowBytes, List.length_cons,
      Nat.succ_mul, Nat.add_comm]

def Record.written (header : DumpHeader) (r : Record) : MmpdRow where
  sequence := r.seq.toNat
  timestampNs := r.timestampNs.toNat
  inputs := regionBytes r.inputs header.inputBytes.toNat
  outputs := regionBytes r.outputs header.outputBytes.toNat

variable {r : Record}

theorem rowAt_of_rowBytes {f : MmpdFile} {i : ℕ} {before after : List (BitVec 8)}
    (hin : f.header.inputBytes = header.inputBytes.toNat)
    (hout : f.header.outputBytes = header.outputBytes.toNat)
    (hb : before.length = f.rowsStart + i * f.rowStride)
    (hu : f.u8 = before ++ (rowBytes header r ++ after)) : f.rowAt i = .ok (r.written header) := by
  have hseq : r.seq.toNat % 256 ^ 8 = r.seq.toNat := Nat.mod_eq_of_lt r.seq.isLt
  have hts : r.timestampNs.toNat % 256 ^ 8 = r.timestampNs.toNat :=
    Nat.mod_eq_of_lt r.timestampNs.isLt
  have hinputs : (f.u8.drop (before.length + 16)).take header.inputBytes.toNat =
      regionBytes r.inputs header.inputBytes.toNat := by
    have hpre : f.u8 = (before ++ (encode 8 r.seq.toNat ++ encode 8 r.timestampNs.toNat)) ++
        (regionBytes r.inputs header.inputBytes.toNat ++
          (regionBytes r.outputs header.outputBytes.toNat ++ after)) := by
      rw [hu, rowBytes]
      simp only [List.append_assoc]
    rw [hpre, List.drop_left' (by simp), List.take_left' (length_regionBytes _ _)]
  have houtputs : (f.u8.drop (before.length + 16 + header.inputBytes.toNat)).take
      header.outputBytes.toNat = regionBytes r.outputs header.outputBytes.toNat := by
    have hpre : f.u8 = (before ++ (encode 8 r.seq.toNat ++ (encode 8 r.timestampNs.toNat ++
        regionBytes r.inputs header.inputBytes.toNat))) ++
          (regionBytes r.outputs header.outputBytes.toNat ++ after) := by
      rw [hu, rowBytes]
      simp only [List.append_assoc]
    rw [hpre, List.drop_left' (by simp [length_regionBytes]; omega),
      List.take_left' (length_regionBytes _ _)]
  have hsequence : getUint f.u8 8 before.length = .ok r.seq.toNat := by
    rw [hu, rowBytes, List.append_assoc, getUint_encode, hseq]
  have htimestamp : getUint f.u8 8 (before.length + 8) = .ok r.timestampNs.toNat := by
    rw [hu, rowBytes]
    simp (disch := simp) only [List.append_assoc, getUint_append, Nat.add_sub_cancel_left,
      length_encode, Nat.sub_self, getUint_here, hts]
  unfold MmpdFile.rowAt
  simp only [← hb, hin, hout, hsequence, htimestamp, hinputs, houtputs]
  rfl

theorem rows_split {records : List Record} {i k : ℕ} (hr : records[i]? = some r)
    (hk : (i + 1) * rowStride header ≤ k) :
    ∃ before after, (records.flatMap (rowBytes header)).take k =
      before ++ (rowBytes header r ++ after) ∧ before.length = i * rowStride header := by
  obtain ⟨hi, rfl⟩ := List.getElem?_eq_some_iff.mp hr
  have hsplit : records.flatMap (rowBytes header) =
      ((records.take i).flatMap (rowBytes header) ++ rowBytes header records[i]) ++
        (records.drop (i + 1)).flatMap (rowBytes header) := by
    conv_lhs => rw [← List.take_append_drop i records, List.drop_eq_getElem_cons hi]
    rw [List.flatMap_append, List.flatMap_cons, List.append_assoc]
  have hbefore : ((records.take i).flatMap (rowBytes header)).length = i * rowStride header := by
    rw [length_rows, List.length_take, Nat.min_eq_left hi.le]
  have hle :
      ((records.take i).flatMap (rowBytes header) ++ rowBytes header records[i]).length ≤ k := by
    rw [List.length_append, hbefore, length_rowBytes, ← Nat.succ_mul]
    exact hk
  refine ⟨_, ((records.drop (i + 1)).flatMap (rowBytes header)).take (k -
    ((records.take i).flatMap (rowBytes header) ++ rowBytes header records[i]).length), ?_, hbefore⟩
  rw [hsplit, List.take_append, List.take_of_length_le hle, List.append_assoc]

theorem rowAt_parsedFile {records : List Record} {n i k : ℕ}
    (hr : records[i]? = some r) (hk : (i + 1) * rowStride header ≤ k) :
    (parsedFile malformed header startSeq n ((records.flatMap (rowBytes header)).take k)).rowAt i =
      .ok (r.written header) := by
  obtain ⟨before, after, hsplit, hlen⟩ := rows_split hr hk
  have hbase : (headerBytes header startSeq n ++ before).length =
      rowsAt header startSeq + i * rowStride header := by
    rw [List.length_append, length_headerBytes, hlen]
  have hbytes : headerBytes header startSeq n ++ (records.flatMap (rowBytes header)).take k =
      (headerBytes header startSeq n ++ before) ++ (rowBytes header r ++ after) := by
    rw [hsplit, List.append_assoc]
  exact rowAt_of_rowBytes rfl rfl hbase hbytes

theorem length_available_lt (startSeq endSeq : BitVec 64) (read : DumpRecordReader) :
    (available startSeq endSeq read).length < 2 ^ 64 := by
  have hle : (available startSeq endSeq read).length ≤ (span startSeq endSeq).length :=
    List.length_filterMap_le _ _
  have hspan : (span startSeq endSeq).length = endSeq.toNat - startSeq.toNat := List.length_range'
  omega

/-! ### Both ways -/

/-- The same object on both sides. A name is the same if the text has its bytes. -/
structure DumpPdoEntry.Same (e : DumpPdoEntry) (e' : MmpdPdoEntry) : Prop where
  index : e'.index = e.index.toNat
  subindex : e'.subindex = e.subindex.toNat
  isOutput : e'.isOutput = e.isOutput
  dataType : e'.dataType = e.dataType.toNat
  bitLength : e'.bitLength = e.bitLength.toNat
  bitOffset : e'.bitOffset = e.bitOffset.toNat
  name : utf8 e'.name = e.name

structure DumpDevice.Same (d : DumpDevice) (d' : MmpdDevice) : Prop where
  slavePosition : d'.slavePosition = d.slavePosition.toNat
  vendorId : d'.vendorId = d.vendorId.toNat
  productCode : d'.productCode = d.productCode.toNat
  revisionNumber : d'.revisionNumber = d.revisionNumber.toNat
  serialNumber : d'.serialNumber = d.serialNumber.toNat
  name : utf8 d'.name = d.name
  entries : List.Forall₂ DumpPdoEntry.Same d.entries d'.entries

structure DumpHeader.Same (header : DumpHeader) (startSeq : BitVec 64) (header' : MmpdHeader) :
    Prop where
  formatVersion : header'.formatVersion = kDumpFormatVersion
  flags : header'.flags = 0
  startSequence : header'.startSequence = startSeq.toNat
  inputBytes : header'.inputBytes = header.inputBytes.toNat
  outputBytes : header'.outputBytes = header.outputBytes.toNat
  devices : List.Forall₂ DumpDevice.Same header.devices header'.devices

def fitted (src : List (BitVec 8)) (cap : ℕ) : List (BitVec 8) :=
  src.take cap ++ List.replicate (cap - src.length) 0

def Record.row (header : DumpHeader) (r : Record) : MmpdRow where
  sequence := r.seq.toNat
  timestampNs := r.timestampNs.toNat
  inputs := fitted r.inputs header.inputBytes.toNat
  outputs := fitted r.outputs header.outputBytes.toNat

/-- The file holds the header and the first `count` records. -/
structure Recovered (header : DumpHeader) (startSeq : BitVec 64) (records : List Record) (count : ℕ)
    (f : MmpdFile) : Prop where
  same : header.Same startSeq f.header
  rowCount : f.rowCount = count
  rows : ∀ (i : ℕ) (r : Record), i < count → records[i]? = some r → f.rowAt i = .ok (r.row header)

/-- Where there is room a dump is written, and the client recovers all of it, or the whole rows of
what a cut in the row region leaves. -/
def RoundTrips (header : DumpHeader) (startSeq endSeq : BitVec 64) (read : DumpRecordReader) :
    Prop :=
  ∃ dump,
    (∀ capacity, dump.length ≤ capacity →
      writeProcessDataDump (.atEnd capacity []) header startSeq endSeq read =
        .ok (.atEnd capacity dump, (available startSeq endSeq read).length)) ∧
    (∃ f, parseMmpd malformed dump = .ok f ∧ Recovered header startSeq
      (available startSeq endSeq read) (available startSeq endSeq read).length f) ∧
    ∀ m, rowsAt header startSeq ≤ m → m ≤ dump.length →
      ∃ f, parseMmpd malformed (dump.take m) = .ok f ∧ Recovered header startSeq
        (available startSeq endSeq read) ((m - rowsAt header startSeq) / rowStride header) f

def NoBom (name : List (BitVec 8)) : Prop := (fromUtf8? name).bind (·.toList.head?) ≠ some bom

/-- The bytes that a `uint32_t` size does not count are zero. -/
def Counts (src : List (BitVec 8)) (cap : ℕ) : Prop :=
  ∀ k < cap, src.length % 2 ^ 32 ≤ k → src.getD k 0 = 0

instance (src : List (BitVec 8)) (cap : ℕ) : Decidable (Counts src cap) :=
  inferInstanceAs (Decidable (∀ k < cap, _ → _))

structure Carried (header : DumpHeader) (records : List Record) : Prop where
  counted : header.Counted
  names : ∀ d ∈ header.devices, NoBom d.name ∧ ∀ e ∈ d.entries, NoBom e.name
  regions : ∀ r ∈ records,
    Counts r.inputs header.inputBytes.toNat ∧ Counts r.outputs header.outputBytes.toNat

theorem noBom_utf8 (s : String) : NoBom (utf8 s) ↔ s.toList.head? ≠ some bom := by
  rw [NoBom, fromUtf8?_utf8, Option.bind_some]

theorem utf8_textDecode {name : List (BitVec 8)} (h : ValidName name) :
    utf8 (textDecode malformed name) = name ↔ NoBom name := by
  obtain ⟨-, s, rfl⟩ := h
  rw [noBom_utf8, ← dropBom_eq_iff, textDecode, fromUtf8?_utf8]
  exact utf8_injective.eq_iff

theorem same_entry {e : DumpPdoEntry} (h : ValidName e.name) :
    e.Same (e.parsed malformed) ↔ NoBom e.name := by
  rw [← utf8_textDecode malformed h]
  exact ⟨fun hs => hs.name, fun hname => ⟨rfl, rfl, rfl, rfl, rfl, rfl, hname⟩⟩

theorem same_device {d : DumpDevice} (h : d.Named) :
    d.Same (d.parsed malformed) ↔ NoBom d.name ∧ ∀ e ∈ d.entries, NoBom e.name := by
  have hentries : List.Forall₂ DumpPdoEntry.Same d.entries (d.entries.map (·.parsed malformed)) ↔
      ∀ e ∈ d.entries, NoBom e.name := by
    rw [List.forall₂_map_right_iff, List.forall₂_same]
    exact forall₂_congr fun e he => same_entry malformed (h.entries e he)
  rw [← utf8_textDecode malformed h.name, ← hentries]
  exact ⟨fun hs => ⟨hs.name, hs.entries⟩,
    fun hs => ⟨rfl, rfl, rfl, rfl, rfl, hs.1, hs.2⟩⟩

theorem same_devices (h : ∀ d ∈ header.devices, d.Named) :
    List.Forall₂ DumpDevice.Same header.devices (header.devices.map (·.parsed malformed)) ↔
      ∀ d ∈ header.devices, NoBom d.name ∧ ∀ e ∈ d.entries, NoBom e.name := by
  rw [List.forall₂_map_right_iff, List.forall₂_same]
  exact forall₂_congr fun d hd => same_device malformed (h d hd)

theorem getD_pad (src : List (BitVec 8)) (n m k : ℕ) :
    (src.take n ++ List.replicate m 0).getD k 0 = if k < n then src.getD k 0 else 0 := by
  simp only [List.getD_eq_getElem?_getD, List.getElem?_append, List.getElem?_replicate,
    List.length_take, List.getElem?_take]
  by_cases hk : k < src.length
  · by_cases hn : k < n
    · simp [hk, hn]
    · simp only [show ¬ k < min n src.length by omega, if_false, hn]
      split <;> rfl
  · have hnone : src[k]? = none := List.getElem?_eq_none (by omega)
    simp only [show ¬ k < min n src.length by omega, if_false, hnone, Option.getD_none, ite_self]
    split <;> rfl

theorem length_fitted (src : List (BitVec 8)) (cap : ℕ) : (fitted src cap).length = cap := by
  simp only [fitted, List.length_append, List.length_take, List.length_replicate]
  omega

theorem regionBytes_eq_iff (src : List (BitVec 8)) (cap : ℕ) :
    regionBytes src cap = fitted src cap ↔ Counts src cap := by
  have hregion (k : ℕ) : (regionBytes src cap).getD k 0 =
      if k < min (src.length % 2 ^ 32) cap then src.getD k 0 else 0 := getD_pad _ _ _ _
  have hfitted (k : ℕ) : (fitted src cap).getD k 0 = if k < cap then src.getD k 0 else 0 :=
    getD_pad _ _ _ _
  constructor
  · intro h k hk hsize
    have hat := congrArg (·.getD k 0) h
    simp only [hregion, hfitted, hk, show ¬ k < min (src.length % 2 ^ 32) cap by omega, if_true,
      if_false] at hat
    exact hat.symm
  · intro h
    refine List.ext_getElem ((length_regionBytes _ _).trans (length_fitted _ _).symm) ?_
    intro k hk hk'
    have hcap : k < cap := by rwa [length_regionBytes] at hk
    rw [← List.getD_eq_getElem _ 0 hk, ← List.getD_eq_getElem _ 0 hk', hregion, hfitted,
      if_pos hcap]
    by_cases hsize : k < src.length % 2 ^ 32
    · rw [if_pos (by omega)]
    · rw [if_neg (by omega), h k hcap (by omega)]

theorem written_eq_iff (r : Record) : r.written header = r.row header ↔
    Counts r.inputs header.inputBytes.toNat ∧ Counts r.outputs header.outputBytes.toNat := by
  rw [← regionBytes_eq_iff, ← regionBytes_eq_iff]
  simp [Record.written, Record.row]

/-! ### The format carries a dump -/

variable {m : ℕ}

theorem take_dumpBytes (hm : rowsAt header startSeq ≤ m) :
    (dumpBytes header startSeq endSeq read).take m =
      headerBytes header startSeq (available startSeq endSeq read).length ++
        ((available startSeq endSeq read).flatMap (rowBytes header)).take
          (m - rowsAt header startSeq) := by
  rw [dumpBytes, List.take_append, length_headerBytes, List.take_of_length_le]
  rw [length_headerBytes]
  exact hm

theorem length_dump : (dumpBytes header startSeq endSeq read).length = rowsAt header startSeq +
    (available startSeq endSeq read).length * rowStride header := by
  rw [dumpBytes, List.length_append, length_headerBytes, length_rows]

theorem rowStride_pos (header : DumpHeader) : 0 < rowStride header := by
  unfold rowStride
  omega

theorem rowCount_parsedFile (hm : rowsAt header startSeq ≤ m)
    (hd : m ≤ (dumpBytes header startSeq endSeq read).length) :
    (parsedFile malformed header startSeq (available startSeq endSeq read).length
      (((available startSeq endSeq read).flatMap (rowBytes header)).take
        (m - rowsAt header startSeq))).rowCount =
      (m - rowsAt header startSeq) / rowStride header := by
  have hn := length_available_lt startSeq endSeq read
  have hk : m - rowsAt header startSeq ≤
      (available startSeq endSeq read).length * rowStride header := by
    rw [length_dump] at hd
    omega
  have hdiv : (m - rowsAt header startSeq) / rowStride header ≤
      (available startSeq endSeq read).length :=
    Nat.div_le_of_le_mul (by rwa [Nat.mul_comm] at hk)
  have hlen : (((available startSeq endSeq read).flatMap (rowBytes header)).take
      (m - rowsAt header startSeq)).length = m - rowsAt header startSeq := by
    rw [List.length_take, length_rows, Nat.min_eq_left hk]
  unfold MmpdFile.rowCount parsedFile clampRows
  dsimp only
  rw [hlen, Nat.mod_eq_of_lt hn]
  split_ifs with hlt
  · rfl
  · omega

theorem recovered_take (hn : ∀ d ∈ header.devices, d.Named)
    (hc : Carried header (available startSeq endSeq read))
    (hm : rowsAt header startSeq ≤ m) (hd : m ≤ (dumpBytes header startSeq endSeq read).length) :
    ∃ f, parseMmpd malformed ((dumpBytes header startSeq endSeq read).take m) = .ok f ∧
      Recovered header startSeq (available startSeq endSeq read)
        ((m - rowsAt header startSeq) / rowStride header) f := by
  rw [take_dumpBytes hm, parseMmpd_headerBytes malformed hn hc.counted]
  refine ⟨_, rfl, ⟨rfl, rfl, rfl, rfl, rfl, (same_devices malformed hn).mpr hc.names⟩,
    rowCount_parsedFile malformed hm hd, ?_⟩
  intro i r hi hr
  have hin : (i + 1) * rowStride header ≤ m - rowsAt header startSeq :=
    (Nat.le_div_iff_mul_le (rowStride_pos header)).mp hi
  rw [rowAt_parsedFile malformed hr hin,
    (written_eq_iff r).mpr (hc.regions r (List.mem_of_getElem? hr))]

theorem roundTrips_of_carried (hn : ∀ d ∈ header.devices, d.Named)
    (hc : Carried header (available startSeq endSeq read)) :
    RoundTrips malformed header startSeq endSeq read := by
  refine ⟨dumpBytes header startSeq endSeq read, fun capacity hroom => ?_, ?_, fun m hm hd => ?_⟩
  · rw [writeProcessDataDump_eq, if_pos hroom]
  · have hwhole := recovered_take malformed hn hc (length_dump ▸ Nat.le_add_right _ _)
      (Nat.le_refl _)
    rwa [List.take_length, length_dump, Nat.add_sub_cancel_left,
      Nat.mul_div_cancel _ (rowStride_pos header)] at hwhole
  · exact recovered_take malformed hn hc hm hd

theorem eq_dumpBytes {dump : List (BitVec 8)} (hw : ∀ capacity, dump.length ≤ capacity →
    writeProcessDataDump (.atEnd capacity []) header startSeq endSeq read =
      .ok (.atEnd capacity dump, (available startSeq endSeq read).length)) :
    dump = dumpBytes header startSeq endSeq read := by
  have h := hw (dump.length + (dumpBytes header startSeq endSeq read).length) (Nat.le_add_right _ _)
  rw [writeProcessDataDump_eq, if_pos (Nat.le_add_left _ _)] at h
  injection h with h
  exact (congrArg (fun x : Stream × ℕ => x.1.bytes) h).symm

theorem exists_of_forall₂ {α β : Type} {R : α → β → Prop} {xs : List α} {ys : List β} {x : α}
    (h : List.Forall₂ R xs ys) (hx : x ∈ xs) : ∃ y ∈ ys, R x y := by
  induction h with
  | nil => cases hx
  | cons hxy _ ih =>
    rcases List.mem_cons.mp hx with rfl | hx
    · exact ⟨_, List.mem_cons_self, hxy⟩
    · obtain ⟨y, hy, hr⟩ := ih hx
      exact ⟨y, List.mem_cons_of_mem _ hy, hr⟩

theorem carried_of_roundTrips (hn : ∀ d ∈ header.devices, d.Named)
    (h : RoundTrips malformed header startSeq endSeq read) :
    Carried header (available startSeq endSeq read) := by
  obtain ⟨dump, hw, ⟨f, hf, hr⟩, -⟩ := h
  obtain rfl := eq_dumpBytes hw
  have hp := parsed_parseMmpd hf
  have hc : header.Counted := by
    refine ⟨hr.same.devices.length_eq ▸ hp.devices, fun d hd => ?_⟩
    obtain ⟨d', hd', hs⟩ := exists_of_forall₂ hr.same.devices hd
    exact hs.entries.length_eq ▸ (hp.entries d' hd').1
  -- with countable tables the file is known
  rw [dumpBytes, parseMmpd_headerBytes malformed hn hc] at hf
  obtain rfl := Except.ok.inj hf
  refine ⟨hc, (same_devices malformed hn).mp hr.same.devices, fun r hmem => ?_⟩
  obtain ⟨i, hi⟩ := List.getElem?_of_mem hmem
  have hlt : i < (available startSeq endSeq read).length := (List.getElem?_eq_some_iff.mp hi).1
  have hrow : (parsedFile malformed header startSeq (available startSeq endSeq read).length
      (((available startSeq endSeq read).flatMap (rowBytes header)).take
        ((available startSeq endSeq read).flatMap (rowBytes header)).length)).rowAt i = _ :=
    rowAt_parsedFile malformed hi (length_rows _ ▸ Nat.mul_le_mul_right _ hlt)
  rw [List.take_length, hr.rows i r hlt hi] at hrow
  exact (written_eq_iff r).mp (Except.ok.inj hrow).symm

/-- A dump comes back exactly if the format carries it: no name starts with a byte order mark, and a
`uint32_t` counts every table and region. -/
theorem roundTrips_iff_carried (header : DumpHeader) (hn : ∀ d ∈ header.devices, d.Named)
    (startSeq endSeq : BitVec 64) (read : DumpRecordReader) :
    RoundTrips malformed header startSeq endSeq read ↔
      Carried header (available startSeq endSeq read) :=
  ⟨carried_of_roundTrips malformed hn, roundTrips_of_carried malformed hn⟩

def oneDrive (name : String) : DumpHeader where
  inputBytes := 2
  outputBytes := 1
  devices := [⟨1, 0x22D2, 0x301, 1, 7, utf8 name,
    [⟨0x6041, 0, false, 6, 16, 0, utf8 "Statusword"⟩]⟩]

/-- The middle record of three was overwritten; the others are shorter or longer than a row. -/
def gapped : DumpRecordReader := fun seq =>
  if seq = 1 then none else some ⟨BitVec.ofNat 64 seq, 5, [0x37], [1, 2, 3]⟩

theorem named_oneDrive {name : String} (h : (utf8 name).length < 65536) :
    ∀ d ∈ (oneDrive name).devices, d.Named := by
  intro d hd
  obtain rfl := List.mem_singleton.mp hd
  refine ⟨⟨h, name, rfl⟩, fun e he => ?_⟩
  obtain rfl := List.mem_singleton.mp he
  exact ⟨by decide, "Statusword", rfl⟩

theorem gapped_roundTrips : RoundTrips (fun _ => "") (oneDrive "Circulo") 0 3 gapped := by
  refine (roundTrips_iff_carried _ (oneDrive "Circulo") (named_oneDrive (by decide)) 0 3 gapped).mpr
    ⟨⟨by decide, by decide⟩, ?_, by decide⟩
  intro d hd
  obtain rfl := List.mem_singleton.mp hd
  refine ⟨?_, fun e he => ?_⟩
  · exact (noBom_utf8 _).mpr (by decide)
  · obtain rfl := List.mem_singleton.mp he
    exact (noBom_utf8 _).mpr (by decide)

/-- The client drops the byte order mark of a name. -/
theorem markedName_not_roundTrips :
    ¬ RoundTrips (fun _ => "") (oneDrive (String.ofList [bom, 'A'])) 0 0 gapped := by
  intro h
  have hc := carried_of_roundTrips _ (named_oneDrive (by decide)) h
  exact (noBom_utf8 _).mp (hc.names _ List.mem_cons_self).1 (by decide)

end MotionMaster.Dump
