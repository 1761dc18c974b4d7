import Mathlib.Algebra.Order.BigOperators.Group.List
import MotionMaster.Spoe.Assignment

/-!
# The windows of the drives

`configureProcessData` reserves each drive the bits `assignedBits` counts. `buildProcessImage` lays
the mapping the device read into that window, so the two readers have to agree.
-/

namespace MotionMaster.Spoe

open CountedLoop

inductive SpoeMode where
  | kMonitor
  | kControl
  deriving DecidableEq

/-- The `PdoMode` it asks for. -/
def SpoeMode.pdoMode : SpoeMode → BitVec 8
  | .kMonitor => 0x01
  | .kControl => 0x02

structure SpoeConfig where
  mode : SpoeMode
  watchdogMs : BitVec 32

def kProtocolVersion100 : BitVec 16 := 0x0100

/-- The requests that follow the count of the bits. The first protocol version has no watchdog to
set. -/
def enterMode (config : SpoeConfig) (drive : Drive) : Except String Unit := do
  let modeSet ← drive.pdoControl config.mode.pdoMode
  if modeSet.status ≠ 0 then
    .error ("SPoE " ++ drive.host ++ ": the drive refused PDO mode " ++
      toString config.mode.pdoMode.toNat)
  else if config.mode = .kControl ∧ drive.protocolVersion ≠ kProtocolVersion100 then
    let _ ← drive.watchdogTimeout (Bytes.encode 4 config.watchdogMs.toNat)
    .ok ()
  else .ok ()

/-- The next window, behind those reserved so far. -/
def reserve (layout : PdoLayout) (position outputBytes inputBytes : ℕ) : PdoLayout where
  outputBytes := layout.outputBytes + outputBytes
  inputBytes := layout.inputBytes + inputBytes
  slaves := layout.slaves ++
    [⟨position, layout.outputBytes, outputBytes, layout.inputBytes, inputBytes⟩]
  expectedWkc := layout.expectedWkc + (if 0 < outputBytes then 2 else 0) +
    (if 0 < inputBytes then 1 else 0)

def configureDrive (run : Runner Walk String) (config : SpoeConfig) (position : ℕ)
    (layout : PdoLayout) (drive : Drive) : Option (Except String PdoLayout) :=
  if drive.reachable then
    match drive.assignedBits run 0x1C12 with
    | none => none
    | some (_, .error e) => some (.error e)
    | some (_, .ok outputBits) =>
      match drive.assignedBits run 0x1C13 with
      | none => none
      | some (_, .error e) => some (.error e)
      | some (_, .ok inputBits) =>
        match enterMode config drive with
        | .error e => some (.error e)
        | .ok _ => some (.ok (reserve layout position ((outputBits + 7) / 8) ((inputBits + 7) / 8)))
  else some (.ok (reserve layout position 0 0))

def configureDrives (run : Runner Walk String) (config : SpoeConfig) :
    ℕ → PdoLayout → List Drive → Option (Except String PdoLayout)
  | _, layout, [] => some (.ok layout)
  | position, layout, drive :: drives =>
    match configureDrive run config (position + 1) layout drive with
    | some (.ok layout) => configureDrives run config (position + 1) layout drives
    | ended => ended

/-- The layout it sets, `none` when it does not return. -/
def configureProcessData (run : Runner Walk String) (config : SpoeConfig) (drives : List Drive) :
    Option (Except String PdoLayout) :=
  configureDrives run config 0 ⟨0, 0, [], 0⟩ drives

namespace Drive

def Assigns (drive : Drive) (fuel assignIndex bits : ℕ) : Prop :=
  ∃ reads, drive.assignedBits (counted 8 fuel) assignIndex = some (reads, .ok bits)

/-- The low byte of a mapping entry. -/
def entryBits (drive : Drive) (pdoIndex entry : ℕ) : ℕ :=
  match drive.readSdoFrom pdoIndex entry with
  | .ok (b :: _) => b.toNat
  | _ => 0

def objectBits (drive : Drive) (pdoIndex entryCount : ℕ) : ℕ :=
  ((List.range' 1 entryCount).map (drive.entryBits pdoIndex)).sum

def slotBits (drive : Drive) (assignIndex i : ℕ) : ℕ :=
  match drive.readSdoFrom assignIndex i with
  | .ok (low :: high :: _) =>
    match drive.readU8 (readU16 low high).toNat 0 with
    | .ok entryCount => drive.objectBits (readU16 low high).toNat entryCount.toNat
    | .error _ => 0
  | _ => 0

def mappedBits (drive : Drive) (assignIndex i : ℕ) : ℕ :=
  match drive.readSdoFrom assignIndex i with
  | .error _ => 0
  | .ok bytes =>
    if fromBytes 2 bytes = 0 then 0
    else
      match drive.readSdoFrom (fromBytes 2 bytes) 0 with
      | .error _ => 0
      | .ok countBytes => drive.objectBits (fromBytes 2 bytes) (fromBytes 1 countBytes)

variable {drive : Drive} {assignIndex i pdoIndex entry fuel bits : ℕ} {entryCount : BitVec 8}
  {s t : Walk}

/-! ### What the driver counts -/

theorem addEntry_bits (h : drive.addEntry pdoIndex entry s = some (t, none)) :
    t.bits = s.bits + drive.entryBits pdoIndex entry := by
  rcases hread : drive.readSdoFrom pdoIndex entry with e | _ | ⟨b, bs⟩
  · simp only [addEntry, hread] at h
    cases h
  · simp only [addEntry, hread] at h
    cases h
  · simp only [addEntry, hread] at h
    cases h
    simp only [entryBits, hread]

theorem slotBits_of_names (h : drive.Names assignIndex i pdoIndex entryCount) :
    drive.slotBits assignIndex i = drive.objectBits pdoIndex entryCount.toNat := by
  obtain ⟨⟨low, high, rest, hobject, rfl⟩, hcount⟩ := h
  simp only [slotBits, hobject, hcount]

/-- A slot the driver's loop gets through is answered, and its count is below the largest. -/
theorem addSlot_completed (h : drive.addSlot (counted 8 fuel) assignIndex i s = some (t, none)) :
    (∃ pdoIndex entryCount, drive.Slot assignIndex i pdoIndex entryCount ∧ entryCount ≠ 255) ∧
      t.bits = s.bits + drive.slotBits assignIndex i := by
  by_cases hn : ∃ pdoIndex entryCount, drive.Names assignIndex i pdoIndex entryCount
  · obtain ⟨p, c, hn⟩ := hn
    rw [addSlot_of_names hn] at h
    obtain ⟨hlt, honce⟩ := counted_completed c.isLt h
    refine ⟨⟨p, c, ⟨hn, entries_complete_iff.mp ⟨t, honce⟩⟩, ?_⟩, ?_⟩
    · rintro rfl
      exact absurd hlt (by decide)
    · rw [slotBits_of_names hn]
      have hadds := each_adds Walk.bits honce fun e s t => addEntry_bits
      exact hadds
  · obtain ⟨t, e, hl⟩ := addSlot_leaves (fun p c h => hn ⟨p, c, h⟩) s
    rw [hl] at h
    cases h

/-- What the driver's walk needs of an assignment object. -/
def Countable (drive : Drive) (assignIndex : ℕ) (pdoCount : BitVec 8) : Prop :=
  drive.readU8 assignIndex 0 = .ok pdoCount ∧ pdoCount ≠ 255 ∧
    ∀ i, 1 ≤ i → i ≤ pdoCount.toNat → ∃ pdoIndex entryCount,
      drive.Slot assignIndex i pdoIndex entryCount ∧ entryCount ≠ 255

theorem Assigns.countable (h : drive.Assigns fuel assignIndex bits) :
    ∃ pdoCount, drive.Countable assignIndex pdoCount ∧
      bits = ((List.range' 1 pdoCount.toNat).map (drive.slotBits assignIndex)).sum := by
  obtain ⟨reads, h⟩ := h
  rcases hcount : drive.readU8 assignIndex 0 with e | pdoCount
  · simp [assignedBits, hcount] at h
  have hne : pdoCount ≠ 255 := by
    rintro rfl
    exact assignedBits_not_ok hcount h
  simp only [assignedBits, hcount, Option.map_eq_some_iff] at h
  obtain ⟨⟨t, _ | e⟩, ht, heq⟩ := h
  · cases heq
    obtain ⟨-, honce⟩ := counted_completed pdoCount.isLt ht
    refine ⟨pdoCount, ⟨hcount, hne, fun i hi1 hi2 => ?_⟩, ?_⟩
    · obtain ⟨s, u, hu⟩ := each_completed (i := i) honce (by
        rw [List.mem_range'_1]
        omega)
      exact (addSlot_completed hu).1
    · have hadds := each_adds Walk.bits honce fun i s t h => (addSlot_completed h).2
      simpa using hadds
  · exact absurd (congrArg Prod.snd heq) (by simp [Walk.result])

variable {pdoCount : BitVec 8}

theorem Countable.not_overruns (h : drive.Countable assignIndex pdoCount) :
    ¬ drive.Overruns assignIndex := by
  obtain ⟨hcount, hne, hslots⟩ := h
  rintro ⟨c, hc, ⟨rfl, -⟩ | ⟨k, p, hk1, hk2, -, hs⟩⟩
  · rw [hcount] at hc
    cases hc
    exact hne rfl
  · rw [hcount] at hc
    cases hc
    obtain ⟨q, d, hq, hd⟩ := hslots k hk1 hk2
    exact hd (hq.unique hs.toNames).2

theorem Countable.assigns (h : drive.Countable assignIndex pdoCount) :
    drive.Assigns 256 assignIndex
      ((List.range' 1 pdoCount.toNat).map (drive.slotBits assignIndex)).sum := by
  have heq := assignedBits_counted h.not_overruns
  obtain ⟨t, ht⟩ : Completes (once (drive.addSlot once assignIndex) pdoCount.toNat
      ⟨[(assignIndex, 0)], 0⟩) :=
    slots_complete_iff.mpr fun i h1 h2 =>
      have ⟨p, c, hs, _⟩ := h.2.2 i h1 h2
      ⟨p, c, hs⟩
  have hassigns : drive.Assigns 256 assignIndex t.bits := by
    refine ⟨t.reads, heq.trans ?_⟩
    simp only [assignedBits, h.1, ht, Option.map_some, Walk.result]
  obtain ⟨c, hc, hbits⟩ := hassigns.countable
  have hpc : c = pdoCount := Except.ok.inj (hc.1.symm.trans h.1)
  rwa [hbits, hpc] at hassigns

/-! ### What the device maps -/

/-- An empty reply reads as zero, so it is a gap of no bits. -/
theorem bitLength_unpackMappingEntry (bytes : List (BitVec 8)) (totalBits : ℕ) :
    (unpackMappingEntry (BitVec.ofNat 32 (fromBytes 4 bytes)) totalBits).bitLength =
      (bytes.head?.getD 0).toNat := by
  have hmask : ∀ x : ℕ, x &&& (0xFF : BitVec 32).toNat = x % 256 := fun x =>
    Nat.and_two_pow_sub_one_eq_mod x 8
  have hlow : fromBytes 4 bytes % 2 ^ 32 % 256 = fromBytes 4 bytes % 256 := by omega
  simp only [unpackMappingEntry, BitVec.toNat_and, BitVec.toNat_ofNat, hmask, hlow]
  cases bytes with
  | nil => rfl
  | cons b bytes =>
    simp only [fromBytes, List.take_succ_cons, Bytes.decode, List.head?_cons, Option.getD_some]
    omega

theorem entryBits_of_ok {bytes : List (BitVec 8)}
    (h : drive.readSdoFrom pdoIndex entry = .ok bytes) :
    drive.entryBits pdoIndex entry = (bytes.head?.getD 0).toNat := by
  cases bytes <;> simp [entryBits, h]

variable {offset : ℕ}

theorem totalBits_readEntries {n e : ℕ} {read : List PdoMappingEntry × ℕ}
    (h : readEntries pdoIndex (drive.readSdoFrom pdoIndex) n e offset = .ok read) :
    totalBits read.1 = ((List.range' e n).map (drive.entryBits pdoIndex)).sum := by
  induction n generalizing e offset read with
  | zero =>
    cases h
    rfl
  | succ n ih =>
    rw [readEntries] at h
    rcases hread : drive.readSdoFrom pdoIndex e with msg | bytes
    · simp only [hread] at h
      cases h
    · simp only [hread] at h
      obtain ⟨rest, hrest, h⟩ := Except.bind_eq_ok h
      cases h
      have hbits := bitLength_unpackMappingEntry bytes offset
      simp only [totalBits, List.map_cons, List.sum_cons, List.range'_succ] at *
      rw [ih hrest, hbits, entryBits_of_ok hread]

theorem totalBits_readSlot {read : List PdoMappingObject × ℕ}
    (h : readSlot assignIndex (drive.replies assignIndex) i offset = .ok read) :
    totalBits (read.1.flatMap (·.entries)) = drive.mappedBits assignIndex i := by
  have hassigned : (drive.replies assignIndex).assigned i = drive.readSdoFrom assignIndex i := rfl
  rcases hread : drive.readSdoFrom assignIndex i with msg | bytes
  · simp only [readSlot, hassigned, hread] at h
    cases h
  by_cases hzero : fromBytes 2 bytes = 0
  · simp only [readSlot, hassigned, hread, if_pos hzero] at h
    cases h
    simp only [mappedBits, hread, if_pos hzero]
    rfl
  rcases hcount : drive.readSdoFrom (fromBytes 2 bytes) 0 with msg | countBytes
  · simp only [readSlot, hassigned, hread, if_neg hzero, replies_entryCount hread, hcount] at h
    split at h
    · cases h
      simp only [mappedBits, hread, if_neg hzero, hcount]
      rfl
    · cases h
  · simp only [readSlot, hassigned, hread, if_neg hzero, replies_entryCount hread, hcount,
      replies_entry hread] at h
    obtain ⟨entries, hentries, h⟩ := Except.bind_eq_ok h
    cases h
    simp only [mappedBits, hread, if_neg hzero, hcount, List.flatMap_singleton]
    exact totalBits_readEntries hentries

theorem totalBits_readAssigned {n : ℕ} {objects : List PdoMappingObject}
    (h : readAssigned assignIndex (drive.replies assignIndex) n i offset = .ok objects) :
    totalBits (objects.flatMap (·.entries)) =
      ((List.range' i n).map (drive.mappedBits assignIndex)).sum := by
  induction n generalizing i offset objects with
  | zero =>
    cases h
    rfl
  | succ n ih =>
    rw [readAssigned_succ] at h
    obtain ⟨read, hread, h⟩ := Except.bind_eq_ok h
    obtain ⟨rest, hrest, h⟩ := Except.bind_eq_ok h
    cases h
    have hslot := totalBits_readSlot hread
    have hslots := ih hrest
    simp only [totalBits, List.flatMap_append, List.map_append, List.sum_append, List.range'_succ,
      List.map_cons, List.sum_cons] at hslot hslots ⊢
    rw [hslot, hslots]

/-- The bits of one direction, as the device reads it. -/
def directionBits (drive : Drive) (assignIndex : ℕ) : ℕ :=
  match drive.readSdoFrom assignIndex 0 with
  | .error _ => 0
  | .ok bytes => ((List.range' 1 (fromBytes 1 bytes)).map (drive.mappedBits assignIndex)).sum

theorem totalBits_readPdoAssignment {objects : List PdoMappingObject}
    (h : readPdoAssignment assignIndex (drive.replies assignIndex) = .ok objects) :
    totalBits (objects.flatMap (·.entries)) = drive.directionBits assignIndex := by
  have hcount : (drive.replies assignIndex).count = drive.readSdoFrom assignIndex 0 := rfl
  rcases hread : drive.readSdoFrom assignIndex 0 with msg | bytes
  · simp only [readPdoAssignment, hcount, hread] at h
    cases h
    simp only [directionBits, hread]
    rfl
  · simp only [readPdoAssignment, hcount, hread] at h
    simp only [directionBits, hread]
    exact totalBits_readAssigned h

/-! ### Where they agree -/

/-- The driver can count the bits, and a slot that holds 0 has none for it either. -/
def Plain (drive : Drive) (assignIndex : ℕ) : Prop :=
  ∃ pdoCount, drive.readU8 assignIndex 0 = .ok pdoCount ∧ pdoCount ≠ 255 ∧
    ∀ i, 1 ≤ i → i ≤ pdoCount.toNat → ∃ pdoIndex entryCount,
      drive.Slot assignIndex i pdoIndex entryCount ∧ entryCount ≠ 255 ∧
        (pdoIndex = 0 → ∀ e, 1 ≤ e → e ≤ entryCount.toNat → drive.entryBits 0 e = 0)

theorem fromBytes_two (low high : BitVec 8) (rest : List (BitVec 8)) :
    fromBytes 2 (low :: high :: rest) = (readU16 low high).toNat := by
  simp only [fromBytes, List.take_succ_cons, List.take_zero, readU16, Bytes.decode,
    BitVec.toNat_ofNat]
  omega

theorem fromBytes_one (b : BitVec 8) (rest : List (BitVec 8)) :
    fromBytes 1 (b :: rest) = b.toNat := by
  simp [fromBytes, Bytes.decode]

/-- The device maps what the driver counts, unless the slot holds 0. -/
theorem mappedBits_of_names (h : drive.Names assignIndex i pdoIndex entryCount) :
    drive.mappedBits assignIndex i = if pdoIndex = 0 then 0 else drive.slotBits assignIndex i := by
  rw [slotBits_of_names h]
  obtain ⟨⟨low, high, rest, hobject, rfl⟩, hcount⟩ := h
  obtain ⟨bs, hbs⟩ := readU8_eq_ok_iff.mp hcount
  simp only [mappedBits, hobject, fromBytes_two, hbs, fromBytes_one]

theorem directionBits_of_count
    (h : drive.readU8 assignIndex 0 = .ok pdoCount) :
    drive.directionBits assignIndex =
      ((List.range' 1 pdoCount.toNat).map (drive.mappedBits assignIndex)).sum := by
  obtain ⟨bs, hbs⟩ := readU8_eq_ok_iff.mp h
  simp only [directionBits, hbs, fromBytes_one]

theorem objectBits_eq_zero_iff {n : ℕ} :
    drive.objectBits pdoIndex n = 0 ↔ ∀ e, 1 ≤ e → e ≤ n → drive.entryBits pdoIndex e = 0 := by
  rw [objectBits, List.sum_eq_zero_iff, List.forall_mem_map]
  simp only [List.mem_range'_1, and_imp, Nat.add_comm 1 n, Nat.lt_succ_iff]

theorem plain_of_assigns (h : drive.Assigns fuel assignIndex (drive.directionBits assignIndex)) :
    drive.Plain assignIndex := by
  obtain ⟨pdoCount, ⟨hcount, hne, hslots⟩, hbits⟩ := h.countable
  rw [directionBits_of_count hcount] at hbits
  have hle : ∀ j ∈ List.range' 1 pdoCount.toNat,
      drive.mappedBits assignIndex j ≤ drive.slotBits assignIndex j := by
    intro j hj
    obtain ⟨h1, h2⟩ := List.mem_range'_1.mp hj
    obtain ⟨p, c, hs, -⟩ := hslots j h1 (by omega)
    rw [mappedBits_of_names hs.toNames]
    split <;> omega
  refine ⟨pdoCount, hcount, hne, fun i h1 h2 => ?_⟩
  obtain ⟨p, c, hs, hc⟩ := hslots i h1 h2
  refine ⟨p, c, hs, hc, fun hp => ?_⟩
  subst hp
  rw [← objectBits_eq_zero_iff, ← slotBits_of_names hs.toNames]
  by_contra hpos
  -- The sums agree and no slot maps more than is counted, so none maps less.
  refine absurd hbits (Nat.ne_of_lt (List.sum_lt_sum _ _ hle ⟨i, ?_, ?_⟩))
  · exact List.mem_range'_1.mpr ⟨h1, by omega⟩
  · rw [mappedBits_of_names hs.toNames, if_pos rfl]
    omega

theorem Plain.assigns (h : drive.Plain assignIndex) :
    drive.Assigns 256 assignIndex (drive.directionBits assignIndex) := by
  obtain ⟨pdoCount, hcount, hne, hslots⟩ := h
  have hcountable : drive.Countable assignIndex pdoCount := by
    refine ⟨hcount, hne, fun i h1 h2 => ?_⟩
    obtain ⟨p, c, hs, hc, -⟩ := hslots i h1 h2
    exact ⟨p, c, hs, hc⟩
  have heq : drive.directionBits assignIndex =
      ((List.range' 1 pdoCount.toNat).map (drive.slotBits assignIndex)).sum := by
    rw [directionBits_of_count hcount]
    congr 1
    refine List.map_congr_left fun i hi => ?_
    obtain ⟨h1, h2⟩ := List.mem_range'_1.mp hi
    obtain ⟨p, c, hs, -, hzero⟩ := hslots i h1 (by omega)
    rw [mappedBits_of_names hs.toNames]
    split
    · rename_i hp
      subst hp
      rw [slotBits_of_names hs.toNames, objectBits_eq_zero_iff.mpr (hzero rfl)]
    · rfl
  rw [heq]
  exact hcountable.assigns

/-! ### The bits fit a window -/

theorem entryBits_le (drive : Drive) (pdoIndex e : ℕ) : drive.entryBits pdoIndex e ≤ 255 := by
  unfold entryBits
  split
  · omega
  · omega

theorem sum_map_range'_le {f : ℕ → ℕ} {n m : ℕ} (h : ∀ i, f i ≤ m) :
    ((List.range' 1 n).map f).sum ≤ n * m := by
  have hsum := List.sum_le_card_nsmul ((List.range' 1 n).map f) m (by
    intro x hx
    obtain ⟨i, -, rfl⟩ := List.mem_map.mp hx
    exact h i)
  simpa using hsum

theorem mappedBits_le (drive : Drive) (assignIndex i : ℕ) :
    drive.mappedBits assignIndex i ≤ 255 * 255 := by
  unfold mappedBits
  split
  · omega
  · split
    · omega
    · split
      · omega
      · rename_i bytes _ _ _ countBytes _
        have hlt := fromBytes_one_lt countBytes
        calc drive.objectBits _ (fromBytes 1 countBytes) ≤ fromBytes 1 countBytes * 255 :=
              sum_map_range'_le (drive.entryBits_le _)
          _ ≤ 255 * 255 := Nat.mul_le_mul_right 255 (by omega)

theorem directionBits_lt (drive : Drive) (assignIndex : ℕ) :
    drive.directionBits assignIndex + 7 < 2 ^ 32 := by
  unfold directionBits
  split
  · omega
  · rename_i bytes _
    have hlt := fromBytes_one_lt bytes
    have hsum : _ ≤ fromBytes 1 bytes * (255 * 255) :=
      sum_map_range'_le (drive.mappedBits_le assignIndex)
    omega

/-- `readFlatPdoMapping` of the drive's device, which has a CoE mailbox. -/
def readFlatPdoMapping (drive : Drive) : Except String FlatPdoMapping :=
  (MappingSource.coe (drive.replies 0x1C12) (drive.replies 0x1C13)).read

theorem bits_readFlatPdoMapping {flat : FlatPdoMapping} (h : drive.readFlatPdoMapping = .ok flat) :
    flat.outputBits = drive.directionBits 0x1C12 ∧ flat.inputBits = drive.directionBits 0x1C13 := by
  obtain ⟨outputs, hout, h⟩ := Except.bind_eq_ok h
  obtain ⟨inputs, hin, h⟩ := Except.bind_eq_ok h
  cases h
  exact ⟨totalBits_readPdoAssignment hout, totalBits_readPdoAssignment hin⟩

/-- The driver asks it, and it takes the mode and the watchdog. -/
structure Accepts (drive : Drive) (config : SpoeConfig) : Prop where
  reachable : drive.reachable = true
  mode : enterMode config drive = .ok ()

/-- `assignedBits` gives the numbers of the device's mapping. -/
structure Reserves (fuel : ℕ) (drive : Drive) (device : Device) : Prop where
  outputs : drive.Assigns fuel 0x1C12 device.flatPdoMapping.outputBits
  inputs : drive.Assigns fuel 0x1C13 device.flatPdoMapping.inputBits

end Drive

/-- The window of a mapping: its bits, rounded up to bytes. -/
structure Fitted (io : SlaveIo) (device : Device) : Prop where
  position : io.slavePosition = device.slavePosition
  outputs : io.outputBytes = (device.flatPdoMapping.outputBits + 7) / 8
  inputs : io.inputBytes = (device.flatPdoMapping.inputBits + 7) / 8

def imageBytes (devices : List Device) : ℕ :=
  (devices.map fun device => (device.flatPdoMapping.outputBits + 7) / 8 +
    (device.flatPdoMapping.inputBits + 7) / 8).sum

/-- The driver reserves every device the window of its mapping, and the image is built. -/
def ReadersAgree (config : SpoeConfig) (drives : List Drive) (devices : List Device) : Prop :=
  ∃ fuel layout, configureProcessData (counted 8 fuel) config drives = some (.ok layout) ∧
    List.Forall₂ (Drive.Reserves fuel) drives devices ∧
    (∀ device ∈ devices, ∃ io, layout.window device.slavePosition = some io ∧ Fitted io device) ∧
    ∃ image, buildProcessImage layout devices = .ok image

variable {config : SpoeConfig} {drives : List Drive} {devices : List Device} {fuel : ℕ}

variable {device : Device}

theorem configureDrive_ok {drive : Drive} (ha : drive.Accepts config)
    (hr : drive.Reserves fuel device) (position : ℕ) (layout : PdoLayout) :
    configureDrive (counted 8 fuel) config position layout drive =
      some (.ok (reserve layout position ((device.flatPdoMapping.outputBits + 7) / 8)
        ((device.flatPdoMapping.inputBits + 7) / 8))) := by
  obtain ⟨reads, hout⟩ := hr.outputs
  obtain ⟨reads', hin⟩ := hr.inputs
  simp only [configureDrive, ha.reachable, if_true, hout, hin, ha.mode]

theorem configureDrives_ok (hr : List.Forall₂ (Drive.Reserves fuel) drives devices)
    (ha : ∀ drive ∈ drives, drive.Accepts config) {position : ℕ}
    (hpos : devices.map (·.slavePosition) = List.range' (position + 1) devices.length)
    (layout : PdoLayout) :
    ∃ layout' ios, configureDrives (counted 8 fuel) config position layout drives =
        some (.ok layout') ∧ layout'.slaves = layout.slaves ++ ios ∧
      List.Forall₂ Fitted ios devices ∧
      layout'.outputBytes + layout'.inputBytes =
        layout.outputBytes + layout.inputBytes + imageBytes devices := by
  induction hr generalizing position layout with
  | nil => exact ⟨layout, [], rfl, by simp, .nil, rfl⟩
  | @cons drive device drives devices hd _ ih =>
    rw [List.map_cons, List.length_cons, List.range'_succ, List.cons.injEq] at hpos
    obtain ⟨hp, hpos⟩ := hpos
    have hdrive := configureDrive_ok (ha drive List.mem_cons_self) hd (position + 1) layout
    generalize hout : (device.flatPdoMapping.outputBits + 7) / 8 = outputBytes at hdrive
    generalize hin : (device.flatPdoMapping.inputBits + 7) / 8 = inputBytes at hdrive
    obtain ⟨layout', ios, hc, hs, hf, hb⟩ := ih (fun d hd => ha d (List.mem_cons_of_mem drive hd))
      hpos (reserve layout (position + 1) outputBytes inputBytes)
    let io : SlaveIo :=
      ⟨position + 1, layout.outputBytes, outputBytes, layout.inputBytes, inputBytes⟩
    refine ⟨layout', io :: ios, ?_, ?_, .cons ⟨hp.symm, hout.symm, hin.symm⟩ hf, ?_⟩
    · simp only [configureDrives, hdrive, hc]
    · rw [hs, reserve, List.append_assoc, List.singleton_append]
    · simp only [imageBytes, List.map_cons, List.sum_cons, hout, hin, reserve] at hb ⊢
      omega

theorem find?_fitted {ios : List SlaveIo} (h : List.Forall₂ Fitted ios devices)
    (hn : (devices.map (·.slavePosition)).Nodup) (hd : device ∈ devices) :
    ∃ io, ios.find? (fun io => io.slavePosition = device.slavePosition) = some io ∧
      Fitted io device := by
  induction h with
  | nil => cases hd
  | @cons io first ios devices hfirst _ ih =>
    rw [List.map_cons, List.nodup_cons] at hn
    rcases List.mem_cons.mp hd with rfl | hmem
    · exact ⟨io, by simp [hfirst.position], hfirst⟩
    · have hne : io.slavePosition ≠ device.slavePosition := by
        rw [hfirst.position]
        intro heq
        exact hn.1 (heq ▸ List.mem_map_of_mem hmem)
      obtain ⟨io', hio', hf⟩ := ih hn.2 hmem
      exact ⟨io', by simpa [hne] using hio', hf⟩

theorem addDevice_ok {layout : PdoLayout} {io : SlaveIo}
    (hw : layout.window device.slavePosition = some io) (hf : Fitted io device)
    (hout : device.flatPdoMapping.outputBits + 7 < 2 ^ 32)
    (hin : device.flatPdoMapping.inputBits + 7 < 2 ^ 32) (image : ProcessImage) :
    ∃ image', addDevice layout image device = .ok image' := by
  have hfit : ∀ bits, bits + 7 < 2 ^ 32 → ¬ (bits + 7) / 8 * 8 % 2 ^ 32 < bits := by
    omega
  by_cases hempty : device.flatPdoMapping.outputs = [] ∧ device.flatPdoMapping.inputs = []
  · exact ⟨image, by simp only [addDevice, if_pos hempty]⟩
  · simp only [addDevice, if_neg hempty, hw, appendEntries, hf.outputs, hf.inputs,
      if_neg (hfit _ hout), if_neg (hfit _ hin)]
    exact ⟨_, rfl⟩

theorem foldlM_addDevice_ok {layout : PdoLayout}
    (h : ∀ device ∈ devices, ∀ image, ∃ image', addDevice layout image device = .ok image')
    (image : ProcessImage) : ∃ image', devices.foldlM (addDevice layout) image = .ok image' := by
  induction devices generalizing image with
  | nil => exact ⟨image, rfl⟩
  | cons device devices ih =>
    obtain ⟨next, hnext⟩ := h device List.mem_cons_self image
    obtain ⟨last, hlast⟩ := ih (fun d hd => h d (List.mem_cons_of_mem device hd)) next
    exact ⟨last, by rw [List.foldlM_cons, hnext]; exact hlast⟩

def Mapped (drive : Drive) (device : Device) : Prop :=
  drive.readFlatPdoMapping = .ok device.flatPdoMapping
  deriving Decidable

theorem Mapped.plain {drive : Drive} (h : Mapped drive device)
    (hr : drive.Reserves fuel device) : drive.Plain 0x1C12 ∧ drive.Plain 0x1C13 := by
  obtain ⟨hout, hin⟩ := Drive.bits_readFlatPdoMapping h
  exact ⟨Drive.plain_of_assigns (hout ▸ hr.outputs), Drive.plain_of_assigns (hin ▸ hr.inputs)⟩

theorem Mapped.reserves {drive : Drive} (h : Mapped drive device)
    (hp : drive.Plain 0x1C12 ∧ drive.Plain 0x1C13) : drive.Reserves 256 device := by
  obtain ⟨hout, hin⟩ := Drive.bits_readFlatPdoMapping h
  exact ⟨hout ▸ hp.1.assigns, hin ▸ hp.2.assigns⟩

theorem plain_of_reserves (hread : List.Forall₂ Mapped drives devices)
    (hr : List.Forall₂ (Drive.Reserves fuel) drives devices) {drive : Drive}
    (hd : drive ∈ drives) : drive.Plain 0x1C12 ∧ drive.Plain 0x1C13 := by
  induction hread with
  | nil => cases hd
  | cons hm _ ih =>
    cases hr with
    | cons hfirst hrest =>
      rcases List.mem_cons.mp hd with rfl | hmem
      · exact hm.plain hfirst
      · exact ih hrest hmem

theorem reserves_of_plain (hread : List.Forall₂ Mapped drives devices)
    (h : ∀ drive ∈ drives, drive.Plain 0x1C12 ∧ drive.Plain 0x1C13) :
    List.Forall₂ (Drive.Reserves 256) drives devices := by
  induction hread with
  | nil => exact .nil
  | @cons drive _ _ _ hm _ ih =>
    exact .cons (hm.reserves (h drive List.mem_cons_self))
      (ih fun d hd => h d (List.mem_cons_of_mem drive hd))

theorem bits_lt_of_mapped (hread : List.Forall₂ Mapped drives devices)
    (hd : device ∈ devices) : device.flatPdoMapping.outputBits + 7 < 2 ^ 32 ∧
      device.flatPdoMapping.inputBits + 7 < 2 ^ 32 := by
  induction hread with
  | nil => cases hd
  | cons hm _ ih =>
    rcases List.mem_cons.mp hd with rfl | hmem
    · obtain ⟨hout, hin⟩ := Drive.bits_readFlatPdoMapping hm
      rw [hout, hin]
      exact ⟨Drive.directionBits_lt _ _, Drive.directionBits_lt _ _⟩
    · exact ih hmem

/-- The layout of drives that reserve their devices' numbers. -/
theorem configureProcessData_ok (hr : List.Forall₂ (Drive.Reserves fuel) drives devices)
    (ha : ∀ drive ∈ drives, drive.Accepts config)
    (hpos : devices.map (·.slavePosition) = List.range' 1 devices.length) :
    ∃ layout, configureProcessData (counted 8 fuel) config drives = some (.ok layout) ∧
      (∀ device ∈ devices, ∃ io, layout.window device.slavePosition = some io ∧ Fitted io device) ∧
      layout.outputBytes + layout.inputBytes = imageBytes devices := by
  obtain ⟨layout, ios, hc, hs, hf, hb⟩ := configureDrives_ok hr ha hpos ⟨0, 0, [], 0⟩
  refine ⟨layout, hc, fun device hd => ?_, by simpa using hb⟩
  have hn : (devices.map (·.slavePosition)).Nodup := hpos ▸ List.nodup_range'
  have hfind := find?_fitted hf hn hd
  rw [PdoLayout.window, hs]
  exact hfind

/-- Where the device has read every drive's mapping, the driver follows exactly on drives whose
objects it can count, as long as the image has room for them. -/
theorem readersAgree_iff_plain (config : SpoeConfig) {drives : List Drive} {devices : List Device}
    (hread : List.Forall₂ Mapped drives devices)
    (hpos : devices.map (·.slavePosition) = List.range' 1 devices.length)
    (ha : ∀ drive ∈ drives, drive.Accepts config) :
    ReadersAgree config drives devices ↔
      (∀ drive ∈ drives, drive.Plain 0x1C12 ∧ drive.Plain 0x1C13) ∧
        imageBytes devices ≤ kMaxProcessImageBytes := by
  constructor
  · rintro ⟨fuel, layout, hc, hr, -, image, himage⟩
    refine ⟨fun drive hd => plain_of_reserves hread hr hd, ?_⟩
    obtain ⟨layout', hc', -, hb⟩ := configureProcessData_ok hr ha hpos
    rw [hc] at hc'
    cases hc'
    rw [← hb]
    by_contra hbig
    simp only [buildProcessImage, if_pos (Nat.lt_of_not_le hbig)] at himage
    cases himage
  · rintro ⟨hplain, hfits⟩
    have hr := reserves_of_plain hread hplain
    obtain ⟨layout, hc, hwindows, hb⟩ := configureProcessData_ok hr ha hpos
    refine ⟨256, layout, hc, hr, hwindows, ?_⟩
    simp only [buildProcessImage, hb, if_neg (Nat.not_lt.mpr hfits)]
    refine foldlM_addDevice_ok (fun device hd image => ?_) _
    obtain ⟨io, hio, hf⟩ := hwindows device hd
    obtain ⟨hout, hin⟩ := bits_lt_of_mapped hread hd
    exact addDevice_ok hio hf hout hin image

/-! ### Two drives -/

def driveHolding (objects : List ((ℕ × ℕ) × List (BitVec 8))) : Drive where
  host := "192.168.0.10"
  reachable := true
  protocolVersion := 0x0102
  sdoRead index subindex :=
    match objects.lookup (index, subindex) with
    | some data => reply 0 data
    | none => reply 2 []
  pdoControl _ := reply 0 []
  watchdogTimeout _ := reply 0 []

/-- One RxPDO of 24 bits and one TxPDO of 48. -/
def pdoObjects : List ((ℕ × ℕ) × List (BitVec 8)) :=
  [((0x1C12, 0), [1]), ((0x1C12, 1), [0x00, 0x16]), ((0x1600, 0), [2]),
    ((0x1600, 1), [0x10, 0x00, 0x40, 0x60]), ((0x1600, 2), [0x08, 0x00, 0x60, 0x60]),
    ((0x1C13, 0), [1]), ((0x1C13, 1), [0x00, 0x1A]), ((0x1A00, 0), [2]),
    ((0x1A00, 1), [0x10, 0x00, 0x41, 0x60]), ((0x1A00, 2), [0x20, 0x00, 0x64, 0x60])]

def pdoDevice : Device := .unenumerated 1 kSynapticonVendorId
  ⟨[⟨0x6040, 0, 16, 0⟩, ⟨0x6060, 0, 8, 16⟩], [⟨0x6041, 0, 16, 0⟩, ⟨0x6064, 0, 32, 16⟩], 24, 48⟩

theorem pdoObjects_mapped : Mapped (driveHolding pdoObjects) pdoDevice := by
  decide +kernel

theorem plain_of_single {drive : Drive} {assignIndex pdoIndex : ℕ} {entryCount : BitVec 8}
    (hcount : drive.readU8 assignIndex 0 = .ok 1)
    (hs : drive.Slot assignIndex 1 pdoIndex entryCount) (hc : entryCount ≠ 255)
    (hp : pdoIndex ≠ 0) : drive.Plain assignIndex := by
  refine ⟨1, hcount, by decide, fun i h1 h2 => ?_⟩
  obtain rfl : i = 1 := Nat.le_antisymm h2 h1
  exact ⟨pdoIndex, entryCount, hs, hc, fun h => absurd h hp⟩

theorem filled_of_two {drive : Drive} {pdoIndex : ℕ} (h1 : drive.Filled pdoIndex 1)
    (h2 : drive.Filled pdoIndex 2) (e : ℕ) (he1 : 1 ≤ e) (he2 : e ≤ 2) :
    drive.Filled pdoIndex e := by
  rcases he1.eq_or_lt with rfl | he
  · exact h1
  · obtain rfl : e = 2 := Nat.le_antisymm he2 he
    exact h2

theorem pdoObjects_plain : (driveHolding pdoObjects).Plain 0x1C12 ∧
    (driveHolding pdoObjects).Plain 0x1C13 := by
  have hrx : (driveHolding pdoObjects).Slot 0x1C12 1 0x1600 2 :=
    ⟨⟨⟨0x00, 0x16, [], rfl, rfl⟩, rfl⟩, filled_of_two ⟨_, _, rfl⟩ ⟨_, _, rfl⟩⟩
  have htx : (driveHolding pdoObjects).Slot 0x1C13 1 0x1A00 2 :=
    ⟨⟨⟨0x00, 0x1A, [], rfl, rfl⟩, rfl⟩, filled_of_two ⟨_, _, rfl⟩ ⟨_, _, rfl⟩⟩
  exact ⟨plain_of_single rfl hrx (by decide) (by decide),
    plain_of_single rfl htx (by decide) (by decide)⟩

theorem pdoObjects_readersAgree :
    ReadersAgree ⟨.kMonitor, 75⟩ [driveHolding pdoObjects] [pdoDevice] :=
  (readersAgree_iff_plain ⟨.kMonitor, 75⟩ (.cons pdoObjects_mapped .nil) rfl
    (by
      intro drive hd
      obtain rfl := List.mem_singleton.mp hd
      exact ⟨rfl, rfl⟩)).mpr
    ⟨by
      intro drive hd
      obtain rfl := List.mem_singleton.mp hd
      exact pdoObjects_plain, by decide⟩

/-- The same drive with a second slot in 0x1C12 that is not used. -/
def unusedSlotObjects : List ((ℕ × ℕ) × List (BitVec 8)) :=
  ((0x1C12, 0), [2]) :: ((0x1C12, 2), [0x00, 0x00]) :: pdoObjects

/-- The device skips the slot. The driver asks the drive for object 0x0000. -/
theorem unusedSlot_not_readersAgree :
    Mapped (driveHolding unusedSlotObjects) pdoDevice ∧
      configureProcessData (counted 8 256) ⟨.kMonitor, 75⟩ [driveHolding unusedSlotObjects] =
        some (.error
          "SPoE 192.168.0.10: SDO read 0x0000:00 failed (status 2: object not found)") ∧
      ¬ ReadersAgree ⟨.kMonitor, 75⟩ [driveHolding unusedSlotObjects] [pdoDevice] := by
  have hm : Mapped (driveHolding unusedSlotObjects) pdoDevice := by decide +kernel
  refine ⟨hm, by decide +kernel, ?_⟩
  rintro ⟨fuel, layout, -, hr, -⟩
  obtain ⟨pdoCount, hcount, -, hslots⟩ :=
    (plain_of_reserves (.cons hm .nil) hr List.mem_cons_self).1
  cases hcount
  obtain ⟨p, c, hs, -⟩ := hslots 2 (by decide) le_rfl
  obtain ⟨⟨low, high, rest, hobject, rfl⟩, hnames⟩ := hs.toNames
  cases hobject
  cases hnames

end MotionMaster.Spoe
