import Mathlib.Data.List.Sort
import MotionMaster.ConfigFile.Parse

/-!
# High resolution data recordings

`readHrdRecording` with the parser of the file list. The files of a recording are one stream of
bytes, cut at a fixed size. They are sorted by the number in their names, but nothing checks that
the numbers are 0, 1, 2 and so on, each once.
-/

namespace MotionMaster.Hrd

open List (Forall₂)
open Config (Text byte ascii digitOf parseWhole)

/-! ### The file list -/

structure DeviceFile where
  name : Text
  byteCount : Option ℕ
  deriving DecidableEq

def isBlank (c : BitVec 8) : Bool := c = byte ' ' || c = 0x09

def skipSpace (text : Text) : Text := text.dropWhile isBlank

def parseFileSizeSuffix (tail : Text) : Option ℕ :=
  let tail := skipSpace tail
  if (ascii "size:").isPrefixOf tail then
    let tail := skipSpace (tail.drop (ascii "size:").length)
    let digits := tail.takeWhile fun c => (digitOf 10 c).isSome
    match parseWhole .uint64 10 digits with
    | none => none
    | some size => if skipSpace (tail.drop digits.length) = [] then some size.toNat else none
  else none

/-- The loop over the commas of a line, of which `before` has been passed. -/
def splitSize : Text → Text → Option DeviceFile
  | _, [] => none
  | before, c :: rest =>
    if c = byte ',' then
      match parseFileSizeSuffix rest with
      | some size =>
        let name := before.rdropWhile isBlank
        some ⟨if name = [] then before else name, some size⟩
      | none => splitSize (before ++ [c]) rest
    else splitSize (before ++ [c]) rest

def parseLine (line : Text) : Option DeviceFile :=
  let line := if line.getLast? = some 0x0D then line.dropLast else line
  let line := (skipSpace line).rdropWhile isBlank
  if line = [] then none else some ((splitSize [] line).getD ⟨line, none⟩)

def parseDeviceFileList (text : Text) : List DeviceFile := (text.splitOn 0x0A).filterMap parseLine

/-- What FoE reads under a name. -/
abbrev ReadFile := Text → Except Text (List (BitVec 8))

def kFileListName : Text := ascii "fs-getlist"

def readFileList (readFile : ReadFile) : Except Text (List DeviceFile) :=
  match readFile kFileListName with
  | .error message =>
    .error (ascii "reading the device file list ('fs-getlist') failed: " ++ message)
  | .ok listing => .ok (parseDeviceFileList listing)

def hrdFileIndex (name : Text) : Option ℕ :=
  if (ascii "hr_data").isPrefixOf name ∧ (ascii ".bin").isSuffixOf name then
    (parseWhole .uint32 10
      ((name.drop 7).take (name.length - 7 - 4))).map Int.toNat
  else none

/-! ### Samples -/

inductive HrdData where
  | kEncoderRawData
  | kSystemIdentificationData
  deriving DecidableEq

def hrdSampleSize : HrdData → ℕ
  | .kEncoderRawData => 4
  | .kSystemIdentificationData => 6

structure HrdEncoderSample where
  raw : BitVec 32
  masterCount : BitVec 16
  noniusCount : BitVec 16
  deriving DecidableEq

structure HrdSystemIdentificationSample where
  velocityRpm : Rat
  torquePermil : Int
  deriving DecidableEq

inductive HrdSamples where
  | encoder (samples : List HrdEncoderSample)
  | systemIdentification (samples : List HrdSystemIdentificationSample)
  deriving DecidableEq

def HrdSamples.count : HrdSamples → ℕ
  | .encoder samples => samples.length
  | .systemIdentification samples => samples.length

def kHrdTrackMask : BitVec 32 := 0x3FFF

def kHrdNoniusShift : ℕ := 14

/-- The four bytes from a place on, the lowest first. -/
def word (bytes : List (BitVec 8)) (i : ℕ) : BitVec 32 :=
  (bytes.getD i 0).setWidth 32 ||| (bytes.getD (i + 1) 0).setWidth 32 <<< 8 |||
    (bytes.getD (i + 2) 0).setWidth 32 <<< 16 ||| (bytes.getD (i + 3) 0).setWidth 32 <<< 24

def encoderSample (bytes : List (BitVec 8)) (i : ℕ) : HrdEncoderSample where
  raw := word bytes i
  masterCount := (word bytes i &&& kHrdTrackMask).setWidth 16
  noniusCount := (word bytes i >>> kHrdNoniusShift &&& kHrdTrackMask).setWidth 16

/-- The velocity has 15 fractional bits. -/
def systemIdentificationSample (bytes : List (BitVec 8)) (i : ℕ) :
    HrdSystemIdentificationSample where
  velocityRpm := mkRat (word bytes i).toInt 0x8000
  torquePermil :=
    ((bytes.getD (i + 4) 0).setWidth 16 ||| (bytes.getD (i + 5) 0).setWidth 16 <<< 8).toInt

def decodeHrdSamples (bytes : List (BitVec 8)) (data : HrdData) : HrdSamples :=
  let sampleSize := hrdSampleSize data
  let places := (List.range (bytes.length / sampleSize)).map (· * sampleSize)
  match data with
  | .kEncoderRawData => .encoder (places.map (encoderSample bytes))
  | .kSystemIdentificationData =>
    .systemIdentification (places.map (systemIdentificationSample bytes))

/-! ### Recordings -/

structure HrdRecording where
  data : HrdData
  files : List DeviceFile
  byteCount : ℕ
  trailingBytes : ℕ
  samples : HrdSamples
  deriving DecidableEq

/-- `std::ranges::sort` by the index. It may put files of one index in either order. -/
structure Sorting where
  sort : List (ℕ × DeviceFile) → List (ℕ × DeviceFile)
  perm : ∀ l, (sort l).Perm l
  ordered : ∀ l, (sort l).Pairwise fun a b => a.1 ≤ b.1

def recorded (listing : List DeviceFile) : List (ℕ × DeviceFile) :=
  listing.filterMap fun file => (hrdFileIndex file.name).map fun index => (index, file)

def readChunk (readFile : ReadFile) (x : ℕ × DeviceFile) : Except Text (List (BitVec 8)) :=
  match readFile x.2.name with
  | .error message =>
    .error (ascii "reading '" ++ x.2.name ++ ascii "' of the recording failed: " ++ message)
  | .ok content => .ok content

def noRecordingText : Text :=
  ascii "the device holds no high resolution data recording (it lists no hr_data<n>.bin file) " ++
    [0xE2, 0x80, 0x94] ++ ascii " record one before reading it back"

def recording (data : HrdData) (files : List DeviceFile) (bytes : List (BitVec 8)) :
    HrdRecording where
  data := data
  files := files
  byteCount := bytes.length
  trailingBytes := bytes.length % hrdSampleSize data
  samples := decodeHrdSamples bytes data

def readHrdRecording (sorting : Sorting) (readFile : ReadFile) (data : HrdData) :
    Except Text HrdRecording :=
  match readFileList readFile with
  | .error reason => .error reason
  | .ok listing =>
    if recorded listing = [] then .error noRecordingText
    else
      match (sorting.sort (recorded listing)).mapM (readChunk readFile) with
      | .error reason => .error reason
      | .ok contents =>
        .ok (recording data ((sorting.sort (recorded listing)).map (·.2)) contents.flatten)

/-- The files are those of the listing that have an index, in the order of the indices from 0 on,
and the samples are those of their contents in that order. -/
structure Complete (readFile : ReadFile) (data : HrdData) (listing : List DeviceFile)
    (contents : List (List (BitVec 8))) (r : HrdRecording) : Prop where
  listed : readFileList readFile = .ok listing
  all : r.files.Perm (listing.filter fun file => (hrdFileIndex file.name).isSome)
  indices : r.files.map (fun file => hrdFileIndex file.name) =
    (List.range r.files.length).map some
  read : Forall₂ (fun file content => readFile file.name = .ok content) r.files contents
  bytes : r.byteCount = contents.flatten.length
  samples : r.samples = decodeHrdSamples contents.flatten data
  trailing : r.byteCount = r.samples.count * hrdSampleSize data + r.trailingBytes ∧
    r.trailingBytes < hrdSampleSize data

def CompleteWhenRead (sorting : Sorting) (readFile : ReadFile) (data : HrdData) : Prop :=
  ∀ r, readHrdRecording sorting readFile data = .ok r →
    ∃ listing contents, Complete readFile data listing contents r

/-- The listing has the indices from 0 on, each once. -/
def Gapless (listing : List DeviceFile) : Prop :=
  ((recorded listing).map (·.1)).Perm (List.range (recorded listing).length)

variable {sorting : Sorting} {readFile : ReadFile} {data : HrdData} {listing : List DeviceFile}
  {r : HrdRecording} {x : ℕ × DeviceFile}

theorem index_of_mem_recorded (h : x ∈ recorded listing) : hrdFileIndex x.2.name = some x.1 := by
  obtain ⟨file, -, hx⟩ := List.mem_filterMap.mp h
  obtain ⟨index, hindex, rfl⟩ := Option.map_eq_some_iff.mp hx
  exact hindex

theorem map_snd_recorded (listing : List DeviceFile) :
    (recorded listing).map (·.2) =
      listing.filter fun file => (hrdFileIndex file.name).isSome := by
  induction listing with
  | nil => rfl
  | cons file listing ih =>
    cases hindex : hrdFileIndex file.name with
    | none => simpa [recorded, hindex] using ih
    | some index => simpa [recorded, hindex] using ih

theorem map_fst_recorded (listing : List DeviceFile) :
    (recorded listing).map (·.1) = listing.filterMap fun file => hrdFileIndex file.name := by
  induction listing with
  | nil => rfl
  | cons file listing ih =>
    cases hindex : hrdFileIndex file.name with
    | none => simpa [recorded, hindex] using ih
    | some index => simpa [recorded, hindex] using ih

theorem readChunk_eq_ok {content : List (BitVec 8)} :
    readChunk readFile x = .ok content ↔ readFile x.2.name = .ok content := by
  unfold readChunk
  cases readFile x.2.name with
  | error message => simp
  | ok other => exact Iff.rfl

/-- Everything a recording that was read went through. -/
theorem readHrdRecording_eq_ok : readHrdRecording sorting readFile data = .ok r ↔
    ∃ listing contents, readFileList readFile = .ok listing ∧ recorded listing ≠ [] ∧
      Forall₂ (fun x content => readFile x.2.name = .ok content)
        (sorting.sort (recorded listing)) contents ∧
      r = recording data ((sorting.sort (recorded listing)).map (·.2)) contents.flatten := by
  unfold readHrdRecording
  constructor
  · intro h
    split at h
    · cases h
    · next listing hlisting =>
      split at h
      · cases h
      · next hsome =>
        split at h
        · cases h
        · next contents hcontents =>
          refine ⟨listing, contents, hlisting, hsome, ?_, (Except.ok.inj h).symm⟩
          exact (Except.mapM_eq_ok_iff.mp hcontents).imp fun _ _ => readChunk_eq_ok.mp
  · rintro ⟨listing, contents, hlisting, hsome, hread, rfl⟩
    have hcontents := Except.mapM_eq_ok_iff.mpr
      (hread.imp fun _ _ => readChunk_eq_ok.mpr)
    simp only [hlisting, if_neg hsome, hcontents]

theorem count_decodeHrdSamples (bytes : List (BitVec 8)) :
    (decodeHrdSamples bytes data).count = bytes.length / hrdSampleSize data := by
  cases data <;> simp [decodeHrdSamples, HrdSamples.count]

/-- Sorted, the indices of a listing without gaps are those from 0 on. -/
theorem indices_of_gapless (h : Gapless listing) :
    (sorting.sort (recorded listing)).map (·.1) = List.range (recorded listing).length := by
  have hperm : ((sorting.sort (recorded listing)).map (·.1)).Perm _ :=
    ((sorting.perm (recorded listing)).map _).trans h
  refine hperm.eq_of_pairwise (fun a b _ _ hab hba => Nat.le_antisymm hab hba) ?_
    List.pairwise_le_range
  exact List.pairwise_map.mpr (sorting.ordered _)

theorem complete_of_gapless {contents : List (List (BitVec 8))}
    (hlisting : readFileList readFile = .ok listing)
    (hread : Forall₂ (fun x content => readFile x.2.name = .ok content)
      (sorting.sort (recorded listing)) contents) (h : Gapless listing) :
    Complete readFile data listing contents
      (recording data ((sorting.sort (recorded listing)).map (·.2)) contents.flatten) := by
  have hperm := sorting.perm (recorded listing)
  have hindices : ((sorting.sort (recorded listing)).map (·.2)).map
      (fun file => hrdFileIndex file.name) =
        ((sorting.sort (recorded listing)).map (·.1)).map some := by
    rw [List.map_map, List.map_map]
    refine List.map_congr_left fun x hx => ?_
    exact index_of_mem_recorded (hperm.subset hx)
  refine ⟨hlisting, ?_, ?_, ?_, rfl, rfl, ?_, ?_⟩
  · rw [← map_snd_recorded]
    exact hperm.map _
  · have hlength : (sorting.sort (recorded listing)).length = (recorded listing).length :=
      hperm.length_eq
    show List.map _ (List.map _ _) = (List.range (List.map _ _).length).map some
    rw [hindices, indices_of_gapless h, List.length_map, hlength]
  · exact List.forall₂_map_left_iff.mpr hread
  · show _ = (decodeHrdSamples contents.flatten data).count * _ + _ % _
    rw [count_decodeHrdSamples]
    exact (Nat.div_add_mod' _ _).symm
  · exact Nat.mod_lt _ (by cases data <;> decide)

theorem gapless_of_complete {contents : List (List (BitVec 8))}
    (h : Complete readFile data listing contents r) : Gapless listing := by
  have hperm := h.all.filterMap fun file => hrdFileIndex file.name
  have hleft : r.files.filterMap (fun file => hrdFileIndex file.name) =
      List.range r.files.length := by
    calc r.files.filterMap (fun file => hrdFileIndex file.name)
        = (r.files.map fun file => hrdFileIndex file.name).filterMap id := by
          rw [List.filterMap_map]
          rfl
      _ = List.range r.files.length := by
          rw [h.indices, List.filterMap_map]
          exact List.filterMap_some
  have hright : (listing.filter fun file => (hrdFileIndex file.name).isSome).filterMap
      (fun file => hrdFileIndex file.name) = (recorded listing).map (·.1) := by
    rw [map_fst_recorded, List.filterMap_filter]
    refine List.filterMap_congr fun file _ => ?_
    cases hrdFileIndex file.name <;> rfl
  have hlength : r.files.length = (recorded listing).length := by
    rw [h.all.length_eq, ← map_snd_recorded, List.length_map]
  rw [hleft, hright, hlength] at hperm
  exact hperm.symm

theorem gapless_of_completeWhenRead (h : CompleteWhenRead sorting readFile data)
    (hlisting : readFileList readFile = .ok listing) (hsome : recorded listing ≠ [])
    (hread : ∀ x ∈ recorded listing, ∃ content, readFile x.2.name = .ok content) :
    Gapless listing := by
  have hall : ∀ x ∈ sorting.sort (recorded listing), ∃ content,
      readChunk readFile x = .ok content := by
    intro x hx
    obtain ⟨content, hcontent⟩ := hread x ((sorting.perm _).subset hx)
    exact ⟨content, readChunk_eq_ok.mpr hcontent⟩
  obtain ⟨contents, hcontents⟩ := Except.exists_mapM_eq_ok.mpr hall
  have hchunks := (Except.mapM_eq_ok_iff.mp hcontents).imp fun _ _ => readChunk_eq_ok.mp
  obtain ⟨listing', contents', hcomplete⟩ := h _
    (readHrdRecording_eq_ok.mpr ⟨listing, contents, hlisting, hsome, hchunks, rfl⟩)
  cases hlisting.symm.trans hcomplete.listed
  exact gapless_of_complete hcomplete

/-- A recording that is read is complete and in order exactly if the listing has no gap and no index
twice, or there is nothing to read or a file that cannot be read. -/
theorem completeWhenRead_iff (sorting : Sorting) (readFile : ReadFile) (data : HrdData) :
    CompleteWhenRead sorting readFile data ↔
      ∀ listing, readFileList readFile = .ok listing → recorded listing ≠ [] →
        (∀ x ∈ recorded listing, ∃ content, readFile x.2.name = .ok content) →
        Gapless listing := by
  constructor
  · intro h listing hlisting hsome hread
    exact gapless_of_completeWhenRead h hlisting hsome hread
  · intro h r hr
    obtain ⟨listing, contents, hlisting, hsome, hread, rfl⟩ := readHrdRecording_eq_ok.mp hr
    refine ⟨listing, contents, complete_of_gapless hlisting hread (h listing hlisting hsome ?_)⟩
    intro x hx
    have hchunks := Except.mapM_eq_ok_iff.mpr (hread.imp fun _ _ => readChunk_eq_ok.mpr)
    obtain ⟨content, hcontent⟩ := Except.exists_mapM_eq_ok.mp ⟨contents, hchunks⟩ x
      ((sorting.perm _).symm.subset hx)
    exact ⟨content, readChunk_eq_ok.mp hcontent⟩

/-- The sort that keeps the order of files of one index. -/
def stable : Sorting where
  sort l := l.mergeSort fun a b => a.1 ≤ b.1
  perm l := List.mergeSort_perm l _
  ordered l := by
    have hsorted : (l.mergeSort fun a b => decide (a.1 ≤ b.1)).Pairwise
        fun a b => decide (a.1 ≤ b.1) = true := by
      refine List.pairwise_mergeSort ?_ ?_ l
      · intro a b c
        simp only [decide_eq_true_eq]
        exact Nat.le_trans
      · intro a b
        simp only [Bool.or_eq_true, decide_eq_true_eq]
        exact Nat.le_total a.1 b.1
    exact hsorted.imp of_decide_eq_true

/-- A drive with the second file of a recording and not the first. -/
def firstMissing : ReadFile := fun name =>
  if name = kFileListName then .ok (ascii "hr_data1.bin, size: 4")
  else if name = ascii "hr_data1.bin" then .ok [1, 2, 3, 4]
  else .error (ascii "not found")

theorem firstMissing_not_complete :
    ¬ CompleteWhenRead stable firstMissing .kEncoderRawData := by
  intro h
  have hlisting : readFileList firstMissing = .ok [⟨ascii "hr_data1.bin", some 4⟩] := by
    decide +kernel
  have hrecorded : recorded [⟨ascii "hr_data1.bin", some 4⟩] =
      [(1, ⟨ascii "hr_data1.bin", some 4⟩)] := by decide +kernel
  have hgapless := gapless_of_completeWhenRead h hlisting
    (by rw [hrecorded]; exact List.cons_ne_nil _ _) ?_
  · exact absurd (hgapless.subset List.mem_cons_self) (by decide)
  · intro x hx
    rw [List.mem_singleton.mp hx]
    exact ⟨[1, 2, 3, 4], by decide +kernel⟩

end MotionMaster.Hrd
