import MotionMaster.Capture.EtherCatFrame

/-!
# Capture files

`PcapWriter` appends records to a pcap file, `parsePcap` reads one in either byte order. A file may
end anywhere: an interrupted capture leaves its last record cut short.
-/

namespace MotionMaster.Capture

def kMagicMicroseconds : BitVec 32 := 0xA1B2C3D4
def kMagicNanoseconds : BitVec 32 := 0xA1B23C4D
def kLinkTypeEthernet : BitVec 32 := 1
def kSnapLength : BitVec 32 := 65535
def kFileHeaderBytes : ℕ := 24
def kRecordHeaderBytes : ℕ := 16

structure Record where
  timestampNs : ℤ
  bytes : Bytes
  deriving DecidableEq

def putU32 (v : BitVec 32) : Bytes :=
  [v.setWidth 8, (v >>> 8).setWidth 8, (v >>> 16).setWidth 8, (v >>> 24).setWidth 8]

def putU16 (v : BitVec 16) : Bytes := [v.setWidth 8, (v >>> 8).setWidth 8]

def swapU32 (v : BitVec 32) : BitVec 32 :=
  (v &&& 0x000000FF) <<< 24 ||| (v &&& 0x0000FF00) <<< 8 ||| (v &&& 0x00FF0000) >>> 8 |||
    (v &&& 0xFF000000) >>> 24

def getU32 (bytes : Bytes) (off : ℕ) (swap : Bool) : Option (BitVec 32) := do
  let v := Words.join32 (← bytes[off]?) (← bytes[off + 1]?) (← bytes[off + 2]?) (← bytes[off + 3]?)
  return if swap then swapU32 v else v

/-! ## The writer -/

/-- A file on a medium with room for so many more bytes. -/
structure File where
  room : ℕ
  bytes : Bytes

/-- What fits is written, and how much that was is returned. -/
def File.fwrite (file : File) (bs : Bytes) : File × ℕ :=
  (⟨file.room - bs.length, file.bytes ++ bs.take file.room⟩, min bs.length file.room)

def fileHeader : Bytes :=
  putU32 kMagicNanoseconds ++ putU16 2 ++ putU16 4 ++ putU32 0 ++ putU32 0 ++ putU32 kSnapLength ++
    putU32 kLinkTypeEthernet

def recordHeader (timestampNs : ℤ) (bytes : Bytes) : Bytes :=
  putU32 (BitVec.ofInt 32 (timestampNs.tdiv 1000000000)) ++
    putU32 (BitVec.ofInt 32 (timestampNs.tmod 1000000000)) ++
    putU32 (BitVec.ofNat 32 bytes.length) ++ putU32 (BitVec.ofNat 32 bytes.length)

/-- The writer holds the open file, if any. -/
structure PcapWriter where
  file : Option File

namespace PcapWriter

def close (_ : PcapWriter) : PcapWriter := ⟨none⟩

/-- `created` is what `fopen` makes of the path. -/
def openFile (_ : PcapWriter) (path : String) (created : Option File) :
    Except String Unit × PcapWriter :=
  match created with
  | none => (.error ("cannot create " ++ path), ⟨none⟩)
  | some file =>
    let (file, n) := file.fwrite fileHeader
    if n ≠ fileHeader.length then
      (.error ("cannot write the header of " ++ path), close ⟨some file⟩)
    else (.ok (), ⟨some file⟩)

def write (w : PcapWriter) (timestampNs : ℤ) (bytes : Bytes) : Except String Unit × PcapWriter :=
  match w.file with
  | none => (.error "the pcap file is not open", w)
  | some file =>
    let header := recordHeader timestampNs bytes
    let (file, n) := file.fwrite header
    if n ≠ header.length then (.error "cannot write to the pcap file", ⟨some file⟩)
    else
      let (file, n) := file.fwrite bytes
      if n ≠ bytes.length then (.error "cannot write to the pcap file", ⟨some file⟩)
      else (.ok (), ⟨some file⟩)

end PcapWriter

/-! ## The reader -/

/-- The loop from `off` on. It has no result when a read misses or the turns do not suffice. -/
def readRecords (bytes : Bytes) (swap nanoseconds : Bool) : ℕ → ℕ → Option (List Record)
  | 0, _ => none
  | turns + 1, off =>
    if bytes.length < off + kRecordHeaderBytes then some []
    else do
      let seconds ← getU32 bytes off swap
      let fraction ← getU32 bytes (off + 4) swap
      let captured ← getU32 bytes (off + 8) swap
      let off := off + kRecordHeaderBytes
      -- a record cut short at the end of the file
      if bytes.length < off + captured.toNat then return []
      else
        let r : Record :=
          ⟨seconds.toNat * 1000000000 +
              if nanoseconds then fraction.toNat else fraction.toNat * 1000,
            (bytes.drop off).take captured.toNat⟩
        return r :: (← readRecords bytes swap nanoseconds turns (off + captured.toNat))

/-- Whether the words are swapped and whether the fraction of a second counts nanoseconds, or
nothing when the file does not start as a pcap file does. -/
def readMagic (bytes : Bytes) : Option (Option (Bool × Bool)) := do
  let magicAsIs ← getU32 bytes 0 false
  if magicAsIs == kMagicMicroseconds || magicAsIs == kMagicNanoseconds then
    return some (false, magicAsIs == kMagicNanoseconds)
  else
    let magicSwapped ← getU32 bytes 0 true
    if magicSwapped != kMagicMicroseconds && magicSwapped != kMagicNanoseconds then return none
    else return some (true, magicSwapped == kMagicNanoseconds)

def parsePcap (bytes : Bytes) : Option (Except String (List Record)) :=
  if bytes.length < kFileHeaderBytes then return .error "shorter than a pcap header"
  else do
    match ← readMagic bytes with
    | none => return .error "not a pcap file"
    | some (swap, nanoseconds) =>
      let linkType ← getU32 bytes 20 swap
      if linkType ≠ kLinkTypeEthernet then return .error "not an Ethernet capture"
      else return .ok (← readRecords bytes swap nanoseconds bytes.length kFileHeaderBytes)

/-! ## What is on the medium -/

/-- A frame the format can hold: its size and its seconds fit 32 bits. -/
structure Captured extends Record where
  size_lt : bytes.length < 2 ^ 32
  timestampNs_nonneg : 0 ≤ timestampNs
  timestampNs_lt : timestampNs < 2 ^ 32 * 1000000000

/-- The file after it was created on a medium with this room and the frames were written. -/
def written (path : String) (room : ℕ) (frames : List Captured) : PcapWriter :=
  frames.foldl (fun w r => (w.write r.timestampNs r.bytes).2)
    (PcapWriter.openFile ⟨none⟩ path (some ⟨room, []⟩)).2

/-- A 32-bit header field as it is put, or with its bytes the other way round. -/
def field (swapped : Bool) (v : BitVec 32) : Bytes :=
  if swapped then (putU32 v).reverse else putU32 v

def fileHeaderOf (swapped : Bool) : Bytes :=
  field swapped kMagicNanoseconds ++ putU16 2 ++ putU16 4 ++ field swapped 0 ++ field swapped 0 ++
    field swapped kSnapLength ++ field swapped kLinkTypeEthernet

def recordHeaderOf (swapped : Bool) (r : Captured) : Bytes :=
  field swapped (BitVec.ofInt 32 (r.timestampNs.tdiv 1000000000)) ++
    field swapped (BitVec.ofInt 32 (r.timestampNs.tmod 1000000000)) ++
    field swapped (BitVec.ofNat 32 r.bytes.length) ++
    field swapped (BitVec.ofNat 32 r.bytes.length)

def recordOf (swapped : Bool) (r : Captured) : Bytes := recordHeaderOf swapped r ++ r.bytes

/-- The whole file of these frames, with its 32-bit header fields swapped or not. -/
def fileOf (swapped : Bool) (frames : List Captured) : Bytes :=
  fileHeaderOf swapped ++ frames.flatMap (recordOf swapped)

/-- The frames kept are those whose records lie within the first `n` bytes of the records. -/
def WhollyPresent (n : ℕ) (frames kept : List Captured) : Prop :=
  ∃ rest, frames = kept ++ rest ∧ (kept.flatMap (recordOf false)).length ≤ n ∧
    ∀ r ∈ rest.head?, n < ((kept ++ [r]).flatMap (recordOf false)).length

/-- The records that are whole in the first `n` bytes of the records. -/
def whole : ℕ → List Captured → List Captured
  | _, [] => []
  | n, r :: frames =>
    if n < (recordOf false r).length then []
    else r :: whole (n - (recordOf false r).length) frames

/-! ## Fields -/

variable {bytes rest : Bytes} {off turns n : ℕ} {swapped : Bool}

theorem putU32_eq (v : BitVec 32) : putU32 v = Bytes.encode 4 v.toNat := by
  simp only [putU32, Bytes.encode, List.cons.injEq, and_true]
  refine ⟨?_, ?_, ?_, ?_⟩ <;> apply BitVec.eq_of_toNat_eq <;>
    simp only [BitVec.toNat_setWidth, BitVec.toNat_ofNat, BitVec.toNat_ushiftRight,
      Nat.shiftRight_eq_div_pow]
  all_goals omega

@[simp] theorem length_field (v : BitVec 32) : (field swapped v).length = 4 := by
  cases swapped <;> rfl

/-- The masks and shifts put the bytes of a word in reverse. -/
theorem swapU32_join32 (b₀ b₁ b₂ b₃ : BitVec 8) :
    swapU32 (Words.join32 b₀ b₁ b₂ b₃) = Words.join32 b₃ b₂ b₁ b₀ := by
  apply BitVec.eq_of_getLsbD_eq
  simp only [swapU32, Words.join32, BitVec.getLsbD_or, BitVec.getLsbD_and,
    BitVec.getLsbD_shiftLeft, BitVec.getLsbD_ushiftRight, BitVec.getLsbD_setWidth]
  -- each mask lets one byte through
  have h₀ : ∀ i < 32, (0x000000FF : BitVec 32).getLsbD i = decide (i < 8) := by decide
  have h₁ : ∀ i < 32, (0x0000FF00 : BitVec 32).getLsbD i = decide (8 ≤ i ∧ i < 16) := by decide
  have h₂ : ∀ i < 64, (0x00FF0000 : BitVec 32).getLsbD i = decide (16 ≤ i ∧ i < 24) := by decide
  have h₃ : ∀ i < 64, (0xFF000000 : BitVec 32).getLsbD i = decide (24 ≤ i ∧ i < 32) := by decide
  grind

theorem getU32_of_cons {b₀ b₁ b₂ b₃ : BitVec 8} (h : bytes.drop off = b₀ :: b₁ :: b₂ :: b₃ :: rest)
    (swap : Bool) : getU32 bytes off swap =
      some (if swap then Words.join32 b₃ b₂ b₁ b₀ else Words.join32 b₀ b₁ b₂ b₃) := by
  have hdrop : ∀ k, bytes.drop (off + k) = (b₀ :: b₁ :: b₂ :: b₃ :: rest).drop k := by
    intro k
    rw [← List.drop_drop, h]
  have h₀ : bytes[off]? = some b₀ := getElem?_of_drop h
  have h₁ : bytes[off + 1]? = some b₁ := getElem?_of_drop (hdrop 1)
  have h₂ : bytes[off + 2]? = some b₂ := getElem?_of_drop (hdrop 2)
  have h₃ : bytes[off + 3]? = some b₃ := getElem?_of_drop (hdrop 3)
  simp only [getU32, h₀, h₁, h₂, h₃, Option.bind_eq_bind, Option.bind_some, swapU32_join32]
  rfl

/-- A field is read in the byte order it was put in. -/
theorem getU32_field {v : BitVec 32} (h : bytes.drop off = field swapped v ++ rest) :
    getU32 bytes off swapped = some v := by
  have hv := Words.join32_encode v
  rw [field, putU32_eq] at h
  cases swapped with
  | false => rw [getU32_of_cons h false, if_neg Bool.false_ne_true, hv]
  | true => rw [getU32_of_cons h true, if_pos rfl, hv]

theorem drop_field {v : BitVec 32} (h : bytes.drop off = field swapped v ++ rest) :
    bytes.drop (off + 4) = rest := by
  rw [← List.drop_drop, h, List.drop_left' (length_field v)]

/-! ## Records -/

@[simp] theorem length_recordHeaderOf (r : Captured) :
    (recordHeaderOf swapped r).length = kRecordHeaderBytes := by
  simp only [recordHeaderOf, List.length_append, length_field, kRecordHeaderBytes]

@[simp] theorem length_recordOf (r : Captured) :
    (recordOf swapped r).length = kRecordHeaderBytes + r.bytes.length := by
  rw [recordOf, List.length_append, length_recordHeaderOf]

/-- Seconds and nanoseconds join to the timestamp they were split from. -/
theorem timestamp_joined (r : Captured) :
    ((BitVec.ofInt 32 (r.timestampNs.tdiv 1000000000)).toNat : ℤ) * 1000000000 +
      (BitVec.ofInt 32 (r.timestampNs.tmod 1000000000)).toNat = r.timestampNs := by
  have h₀ := r.timestampNs_nonneg
  have h₁ := r.timestampNs_lt
  rw [Int.tdiv_eq_ediv_of_nonneg h₀, Int.tmod_eq_emod_of_nonneg h₀, BitVec.toNat_ofInt,
    BitVec.toNat_ofInt]
  omega

theorem whollyPresent_whole (n : ℕ) (frames : List Captured) :
    WhollyPresent n frames (whole n frames) := by
  induction frames generalizing n with
  | nil => exact ⟨[], rfl, Nat.zero_le _, by simp⟩
  | cons r frames ih =>
    rw [whole]
    split
    · next hlt => exact ⟨r :: frames, rfl, Nat.zero_le _, by simpa using hlt⟩
    · obtain ⟨rest, hframes, hle, hnext⟩ := ih (n - (recordOf false r).length)
      refine ⟨rest, by rw [List.cons_append, ← hframes], ?_, ?_⟩
      · rw [List.flatMap_cons, List.length_append]
        omega
      · intro s hs
        have hs' := hnext s hs
        rw [List.cons_append, List.flatMap_cons, List.length_append]
        omega

/-- A record whose header is whole: the turn ends the loop or takes the bytes it announces. -/
theorem readRecords_header {r : Captured}
    (h : bytes.drop off = recordHeaderOf swapped r ++ rest) :
    readRecords bytes swapped true (turns + 1) off =
      if bytes.length < off + kRecordHeaderBytes + r.bytes.length then some []
      else (readRecords bytes swapped true turns (off + kRecordHeaderBytes + r.bytes.length)).map
        (⟨r.timestampNs, rest.take r.bytes.length⟩ :: ·) := by
  have hlen : ¬ bytes.length < off + kRecordHeaderBytes := by
    have hl := congrArg List.length h
    rw [List.length_drop, List.length_append, length_recordHeaderOf] at hl
    simp only [kRecordHeaderBytes] at hl ⊢
    omega
  have hcaptured : (BitVec.ofNat 32 r.bytes.length).toNat = r.bytes.length := by
    exact Nat.mod_eq_of_lt r.size_lt
  have hdata : (bytes.drop (off + kRecordHeaderBytes)).take r.bytes.length =
      rest.take r.bytes.length := by
    rw [← List.drop_drop, h, List.drop_left' (length_recordHeaderOf r)]
  -- each field starts where the one before it ends
  rw [recordHeaderOf, List.append_assoc, List.append_assoc, List.append_assoc] at h
  have h₁ := drop_field h
  have h₂ : bytes.drop (off + 8) = _ := drop_field h₁
  have ht := timestamp_joined r
  rw [readRecords, if_neg hlen]
  simp only [getU32_field h, getU32_field h₁, getU32_field h₂, Option.bind_eq_bind,
    Option.bind_some, hcaptured, hdata, if_true, ht]
  split
  · rfl
  · cases readRecords bytes swapped true turns (off + kRecordHeaderBytes + r.bytes.length) <;> rfl

/-- The loop on records cut after `n` bytes gives those that are whole. -/
theorem readRecords_take {frames : List Captured} (ho : off ≤ bytes.length)
    (h : bytes.drop off = (frames.flatMap (recordOf swapped)).take n)
    (ht : bytes.length < off + turns) :
    readRecords bytes swapped true turns off =
      some ((whole n frames).map Captured.toRecord) := by
  induction frames generalizing off turns n with
  | nil =>
    obtain ⟨turns, rfl⟩ := Nat.exists_eq_succ_of_ne_zero (show turns ≠ 0 by omega)
    have hlen := congrArg List.length h
    simp only [List.flatMap_nil, List.take_nil, List.length_drop, List.length_nil] at hlen
    rw [Nat.succ_eq_add_one, readRecords, if_pos]
    · rfl
    · simp only [kRecordHeaderBytes]
      omega
  | cons r frames ih =>
    obtain ⟨turns, rfl⟩ := Nat.exists_eq_succ_of_ne_zero (show turns ≠ 0 by omega)
    have hlen := congrArg List.length h
    rw [List.length_drop, List.length_take, List.flatMap_cons, List.length_append,
      length_recordOf] at hlen
    rw [whole, length_recordOf, Nat.succ_eq_add_one]
    by_cases hheader : n < kRecordHeaderBytes
    · rw [readRecords, if_pos (by omega), if_pos (by omega)]
      rfl
    have hfields : bytes.drop off = recordHeaderOf swapped r ++
        (r.bytes ++ frames.flatMap (recordOf swapped)).take (n - kRecordHeaderBytes) := by
      rw [h, List.flatMap_cons, recordOf, List.append_assoc, List.take_append,
        List.take_of_length_le (by rw [length_recordHeaderOf]; omega), length_recordHeaderOf]
    rw [readRecords_header hfields]
    by_cases hcut : n < kRecordHeaderBytes + r.bytes.length
    · rw [if_pos (by omega), if_pos hcut]
      rfl
    · have hdrop : bytes.drop (off + kRecordHeaderBytes + r.bytes.length) =
          (frames.flatMap (recordOf swapped)).take (n - (kRecordHeaderBytes + r.bytes.length)) := by
        rw [Nat.add_assoc, ← List.drop_drop, h, List.flatMap_cons, List.drop_take,
          List.drop_left' (length_recordOf r)]
      have htake : ((r.bytes ++ frames.flatMap (recordOf swapped)).take
          (n - kRecordHeaderBytes)).take r.bytes.length = r.bytes := by
        rw [List.take_take, Nat.min_eq_left (by omega), List.take_left]
      have hpos : 0 < kRecordHeaderBytes := by decide
      rw [if_neg (by omega), if_neg hcut, ih (by omega) hdrop (by omega), htake]
      rfl

/-! ## Files -/

theorem readMagic_fileHeader (swapped : Bool) (rest : Bytes) :
    readMagic (fileHeaderOf swapped ++ rest) = some (some (swapped, true)) := by
  cases swapped with
  | false =>
    rfl
  | true =>
    rfl

theorem linkType_fileHeader (swapped : Bool) (rest : Bytes) :
    getU32 (fileHeaderOf swapped ++ rest) 20 swapped = some kLinkTypeEthernet := by
  have hdrop : (fileHeaderOf swapped ++ rest).drop 20 =
      field swapped kLinkTypeEthernet ++ rest := by
    cases swapped <;> rfl
  exact getU32_field hdrop

/-- A file cut behind its header gives the records that are whole. -/
theorem parsePcap_take (swapped : Bool) (frames : List Captured) (n : ℕ) :
    parsePcap ((fileOf swapped frames).take (kFileHeaderBytes + n)) =
      some (.ok ((whole n frames).map Captured.toRecord)) := by
  have hheader : (fileHeaderOf swapped).length = kFileHeaderBytes := by cases swapped <;> rfl
  have hfile : (fileOf swapped frames).take (kFileHeaderBytes + n) =
      fileHeaderOf swapped ++ (frames.flatMap (recordOf swapped)).take n := by
    rw [fileOf, ← hheader, List.take_length_add_append]
  have hmagic := readMagic_fileHeader swapped ((frames.flatMap (recordOf swapped)).take n)
  have hlink := linkType_fileHeader swapped ((frames.flatMap (recordOf swapped)).take n)
  rw [← hfile] at hmagic hlink
  generalize (fileOf swapped frames).take (kFileHeaderBytes + n) = bytes at *
  have hlen : kFileHeaderBytes ≤ bytes.length := by
    rw [hfile, List.length_append, hheader]
    exact Nat.le_add_right _ _
  have hdrop : bytes.drop kFileHeaderBytes = (frames.flatMap (recordOf swapped)).take n := by
    rw [hfile, List.drop_left' hheader]
  have hpos : 0 < kFileHeaderBytes := by decide
  rw [parsePcap, if_neg (by omega)]
  simp only [hmagic, hlink, readRecords_take hlen hdrop (Nat.lt_add_of_pos_left hpos),
    Option.bind_eq_bind, Option.bind_some]
  rfl

/-! ## Writing -/

/-- What is on a medium with this room after so many bytes were written. -/
def File.cut (room : ℕ) (bytes : Bytes) : File := ⟨room - bytes.length, bytes.take room⟩

theorem File.fwrite_cut (room : ℕ) (bs : Bytes) : (File.cut room bytes).fwrite bs =
    (File.cut room (bytes ++ bs), min bs.length (room - bytes.length)) := by
  simp only [fwrite, cut, List.take_append, List.length_append, Nat.sub_sub]

/-- On a full medium nothing more is written. -/
theorem File.cut_append {room : ℕ} (h : room ≤ bytes.length) (bs : Bytes) :
    File.cut room (bytes ++ bs) = File.cut room bytes := by
  simp only [cut, List.take_append_of_le_length h, List.length_append]
  congr 1
  omega

theorem write_cut (room : ℕ) (r : Captured) :
    (PcapWriter.write ⟨some (File.cut room bytes)⟩ r.timestampNs r.bytes).2 =
      ⟨some (File.cut room (bytes ++ recordOf false r))⟩ := by
  have hheader : recordHeader r.timestampNs r.bytes = recordHeaderOf false r := rfl
  simp only [PcapWriter.write, hheader, File.fwrite_cut, recordOf, ← List.append_assoc]
  split
  · have hfull : room ≤ (bytes ++ recordHeaderOf false r).length := by
      rw [List.length_append]
      omega
    rw [File.cut_append hfull]
  · split <;> rfl

theorem openFile_cut (path : String) (room : ℕ) :
    (PcapWriter.openFile ⟨none⟩ path (some ⟨kFileHeaderBytes + room, []⟩)).2 =
      ⟨some (File.cut (kFileHeaderBytes + room) (fileHeaderOf false))⟩ := by
  have hempty : (⟨kFileHeaderBytes + room, []⟩ : File) = File.cut (kFileHeaderBytes + room) [] := by
    rw [File.cut, List.take_nil, List.length_nil, Nat.sub_zero]
  have hheader : fileHeader = fileHeaderOf false := rfl
  have hlen : (fileHeaderOf false).length = kFileHeaderBytes := rfl
  rw [PcapWriter.openFile, hempty]
  simp only [hheader, File.fwrite_cut, List.nil_append, List.length_nil, hlen]
  rw [if_neg (by omega)]

/-- After the writes the medium holds the file as far as it fits. -/
theorem written_eq (path : String) (room : ℕ) (frames : List Captured) :
    written path (kFileHeaderBytes + room) frames =
      ⟨some (File.cut (kFileHeaderBytes + room) (fileOf false frames))⟩ := by
  have hwrites : ∀ (bytes : Bytes), frames.foldl
      (fun w r => (PcapWriter.write w r.timestampNs r.bytes).2)
      ⟨some (File.cut (kFileHeaderBytes + room) bytes)⟩ =
      ⟨some (File.cut (kFileHeaderBytes + room) (bytes ++ frames.flatMap (recordOf false)))⟩ := by
    induction frames with
    | nil =>
      intro bytes
      rw [List.foldl_nil, List.flatMap_nil, List.append_nil]
    | cons r frames ih =>
      intro bytes
      rw [List.foldl_cons, write_cut, ih, List.flatMap_cons, List.append_assoc]
  rw [written, openFile_cut, hwrites, fileOf]

/-- However little of the file fits the medium and wherever it is cut behind its header, the
records still whole are read, and so they are with every 32-bit header field swapped. -/
theorem parsePcap_written (path : String) (room n : ℕ) (frames : List Captured) :
    ∃ file kept, written path (kFileHeaderBytes + room) frames = ⟨some file⟩ ∧
      WhollyPresent (min n room) frames kept ∧
      parsePcap (file.bytes.take (kFileHeaderBytes + n)) =
        some (.ok (kept.map Captured.toRecord)) ∧
      parsePcap ((fileOf true frames).take (kFileHeaderBytes + min n room)) =
        some (.ok (kept.map Captured.toRecord)) := by
  refine ⟨_, whole (min n room) frames, written_eq path room frames, whollyPresent_whole _ _, ?_,
    parsePcap_take true frames _⟩
  have hcut : (File.cut (kFileHeaderBytes + room) (fileOf false frames)).bytes.take
      (kFileHeaderBytes + n) = (fileOf false frames).take (kFileHeaderBytes + min n room) := by
    rw [File.cut, List.take_take, Nat.add_min_add_left]
  rw [hcut]
  exact parsePcap_take false frames _

end MotionMaster.Capture
