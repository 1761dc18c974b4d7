import MotionMaster.Device.Mapping
import MotionMaster.Lib.CountedLoop
import MotionMaster.Spoe.Frame

/-!
# Two walks over the PDO assignment

The driver's `assignedBits` and the device's `readPdoAssignment` read the same objects of an SPoE
drive over SDO. The driver counts the subindices with a `uint8_t`, the device with an `unsigned`.
-/

namespace MotionMaster.Spoe

open CountedLoop

def kSdoNotAllowedInState : ℕ := 0xFFFF

def sdoStatusName (status : BitVec 16) : String :=
  match status.toNat with
  | 0 => "no error"
  | 1 => "generic error"
  | 2 => "object not found"
  | 3 => "read only"
  | 4 => "write only"
  | 5 => "wrong type"
  | 6 => "invalid list"
  | 7 => "insufficient buffer"
  | 8 => "value information unavailable"
  | 9 => "unknown or unsupported"
  | 10 => "local transfer failed"
  | 11 => "unsupported access"
  | 12 => "subindex 0 is not zero"
  | 13 => "subindex not found"
  | n => if n = kSdoNotAllowedInState then "not allowed in INIT or BOOT" else "unknown status"

/-- A drive as the driver meets it. `request` gives each function the reply, or its own error. -/
structure Drive where
  host : String
  /-- Its state is known and its connection open. -/
  reachable : Bool
  protocolVersion : BitVec 16
  /-- The reply to an SDO read of an index and a subindex. -/
  sdoRead : ℕ → ℕ → Except String Frame
  pdoControl : BitVec 8 → Except String Frame
  watchdogTimeout : List (BitVec 8) → Except String Frame

/-- The subindices read, and the bits added up. -/
structure Walk where
  reads : List (ℕ × ℕ)
  bits : ℕ

def Walk.read (s : Walk) (index subindex : ℕ) : Walk :=
  { s with reads := s.reads ++ [(index, subindex)] }

def Walk.result : Walk × Option String → List (ℕ × ℕ) × Except String ℕ
  | (s, none) => (s.reads, .ok s.bits)
  | (s, some e) => (s.reads, .error e)

namespace Drive

/-- Also `readSdo` of the driver and of the device, which pass it on. -/
def readSdoFrom (drive : Drive) (index subindex : ℕ) : Except String (List (BitVec 8)) :=
  match drive.sdoRead index subindex with
  | .error e => .error e
  | .ok reply =>
    if reply.status ≠ 0 then
      .error ("SPoE " ++ drive.host ++ ": SDO read " ++ subindexText index subindex ++
        " failed (status " ++ toString reply.status.toNat ++ ": " ++ sdoStatusName reply.status ++
        ")")
    else .ok reply.data

/-! ### The driver -/

def refusal (drive : Drive) (index subindex : ℕ) (what : String) : String :=
  "SPoE " ++ drive.host ++ ": " ++ subindexText index subindex ++ what

def readU8 (drive : Drive) (index subindex : ℕ) : Except String (BitVec 8) :=
  match drive.readSdoFrom index subindex with
  | .error e => .error e
  | .ok [] => .error (drive.refusal index subindex " is empty")
  | .ok (b :: _) => .ok b

/-- The turn of the inner loop of `assignedBits`. -/
def addEntry (drive : Drive) (pdoIndex entry : ℕ) (s : Walk) : Ended Walk String :=
  match drive.readSdoFrom pdoIndex entry with
  | .error e => some (s.read pdoIndex entry, some e)
  | .ok [] => some (s.read pdoIndex entry, some (drive.refusal pdoIndex entry " is empty"))
  | .ok (b :: _) => some ({ s.read pdoIndex entry with bits := s.bits + b.toNat }, none)

/-- The turn of its outer loop. -/
def addSlot (run : Runner Walk String) (drive : Drive) (assignIndex i : ℕ) (s : Walk) :
    Ended Walk String :=
  match drive.readSdoFrom assignIndex i with
  | .error e => some (s.read assignIndex i, some e)
  | .ok (low :: high :: _) =>
    let pdoIndex := (readU16 low high).toNat
    match drive.readU8 pdoIndex 0 with
    | .error e => some ((s.read assignIndex i).read pdoIndex 0, some e)
    | .ok entryCount =>
      run (drive.addEntry pdoIndex) entryCount.toNat ((s.read assignIndex i).read pdoIndex 0)
  | .ok _ => some (s.read assignIndex i, some (drive.refusal assignIndex i " is too short"))

/-- The reads it makes and what it returns, `none` when it does not return. Its loops are run by
`counted 8`. -/
def assignedBits (run : Runner Walk String) (drive : Drive) (assignIndex : ℕ) :
    Option (List (ℕ × ℕ) × Except String ℕ) :=
  match drive.readU8 assignIndex 0 with
  | .error e => some ([(assignIndex, 0)], .error e)
  | .ok pdoCount =>
    (run (drive.addSlot run assignIndex) pdoCount.toNat ⟨[(assignIndex, 0)], 0⟩).map Walk.result

end Drive

/-! ### The device -/

structure MappingWalk where
  reads : List (ℕ × ℕ)
  totalBits : ℕ
  /-- Of the object being read. -/
  entries : List PdoMappingEntry
  objects : List PdoMappingObject

def MappingWalk.read (s : MappingWalk) (index subindex : ℕ) : MappingWalk :=
  { s with reads := s.reads ++ [(index, subindex)] }

/-- The entry in the reply, at the running offset. -/
def MappingWalk.append (s : MappingWalk) (entryBytes : List (BitVec 8)) : MappingWalk :=
  let entry := unpackMappingEntry (BitVec.ofNat 32 (fromBytes 4 entryBytes)) s.totalBits
  { s with totalBits := s.totalBits + entry.bitLength, entries := s.entries ++ [entry] }

def MappingWalk.result :
    MappingWalk × Option String → List (ℕ × ℕ) × Except String (List PdoMappingObject)
  | (s, none) => (s.reads, .ok s.objects)
  | (s, some e) => (s.reads, .error e)

namespace Drive

/-- The turn of the inner loop of `readPdoAssignment`. -/
def mapEntry (drive : Drive) (mappingIndex e : ℕ) (s : MappingWalk) : Ended MappingWalk String :=
  match drive.readSdoFrom mappingIndex e with
  | .error msg =>
    some (s.read mappingIndex e,
      some (subindexText mappingIndex e ++ " (PDO mapping entry) read failed: " ++ msg))
  | .ok entryBytes => some ((s.read mappingIndex e).append entryBytes, none)

/-- The object with the entries just read. -/
def closeObject (mappingIndex : ℕ) : Ended MappingWalk String → Ended MappingWalk String
  | some (s, none) => some ({ s with objects := s.objects ++ [⟨mappingIndex, s.entries⟩] }, none)
  | ended => ended

/-- The turn of its outer loop. -/
def mapSlot (run : Runner MappingWalk String) (drive : Drive) (assignmentIndex i : ℕ)
    (s : MappingWalk) : Ended MappingWalk String :=
  match drive.readSdoFrom assignmentIndex i with
  | .error msg =>
    some (s.read assignmentIndex i,
      some (subindexText assignmentIndex i ++ " (PDO assignment) read failed: " ++ msg))
  | .ok bytes =>
    let mappingIndex := fromBytes 2 bytes
    if mappingIndex = 0 then some (s.read assignmentIndex i, none)
    else
      let s := (s.read assignmentIndex i).read mappingIndex 0
      match drive.readSdoFrom mappingIndex 0 with
      | .error msg =>
        if IsObjectDoesNotExistAbort msg then some (s, none)
        else some (s, some (subindexText mappingIndex 0 ++ " (PDO mapping) read failed: " ++ msg))
      | .ok countBytes =>
        closeObject mappingIndex
          (run (drive.mapEntry mappingIndex) (fromBytes 1 countBytes) { s with entries := [] })

/-- `readPdoAssignment` with the reads it makes. Its loops are run by `counted 32`. -/
def walkPdoAssignment (run : Runner MappingWalk String) (drive : Drive) (assignmentIndex : ℕ) :
    Option (List (ℕ × ℕ) × Except String (List PdoMappingObject)) :=
  match drive.readSdoFrom assignmentIndex 0 with
  | .error _ => some ([(assignmentIndex, 0)], .ok [])
  | .ok bytes =>
    (run (drive.mapSlot run assignmentIndex) (fromBytes 1 bytes)
      ⟨[(assignmentIndex, 0)], 0, [], []⟩).map MappingWalk.result

/-- The replies `readPdoAssignment` meets at this drive. -/
def replies (drive : Drive) (assignmentIndex : ℕ) : AssignmentReplies where
  count := drive.readSdoFrom assignmentIndex 0
  assigned := drive.readSdoFrom assignmentIndex
  entryCount i := do drive.readSdoFrom (fromBytes 2 (← drive.readSdoFrom assignmentIndex i)) 0
  entry i e := do drive.readSdoFrom (fromBytes 2 (← drive.readSdoFrom assignmentIndex i)) e

end Drive

/-- One slot of `readAssigned`: the object it adds, if any, and the offset after it. -/
def readSlot (assignmentIndex : ℕ) (replies : AssignmentReplies) (i totalBits : ℕ) :
    Except String (List PdoMappingObject × ℕ) :=
  match replies.assigned i with
  | .error msg =>
    .error (subindexText assignmentIndex i ++ " (PDO assignment) read failed: " ++ msg)
  | .ok bytes =>
    if fromBytes 2 bytes = 0 then .ok ([], totalBits)
    else
      match replies.entryCount i with
      | .error msg =>
        if IsObjectDoesNotExistAbort msg then .ok ([], totalBits)
        else .error (subindexText (fromBytes 2 bytes) 0 ++ " (PDO mapping) read failed: " ++ msg)
      | .ok countBytes => do
        let read ← readEntries (fromBytes 2 bytes) (replies.entry i) (fromBytes 1 countBytes) 1
          totalBits
        .ok ([⟨fromBytes 2 bytes, read.1⟩], read.2)

theorem readAssigned_succ (assignmentIndex : ℕ) (replies : AssignmentReplies) (n i totalBits : ℕ) :
    readAssigned assignmentIndex replies (n + 1) i totalBits = (do
      let read ← readSlot assignmentIndex replies i totalBits
      let rest ← readAssigned assignmentIndex replies n (i + 1) read.2
      .ok (read.1 ++ rest)) := by
  have hskip : ∀ objects : Except String (List PdoMappingObject),
      objects = objects >>= fun rest => .ok ([] ++ rest) := by
    intro objects
    cases objects <;> rfl
  rw [readAssigned, readSlot]
  rcases replies.assigned i with msg | bytes
  · rfl
  by_cases hzero : fromBytes 2 bytes = 0
  · simp only [if_pos hzero]
    exact hskip _
  simp only [if_neg hzero]
  rcases replies.entryCount i with msg | countBytes
  · by_cases habort : IsObjectDoesNotExistAbort msg
    · simp only [if_pos habort]
      exact hskip _
    · simp only [if_neg habort]
      rfl
  · dsimp only
    cases readEntries (fromBytes 2 bytes) (replies.entry i) (fromBytes 1 countBytes) 1 totalBits <;>
      rfl

namespace Drive

/-! ### What the drive holds -/

/-- The subindex is answered, and not with an empty value. -/
def Filled (drive : Drive) (index subindex : ℕ) : Prop :=
  ∃ b bs, drive.readSdoFrom index subindex = .ok (b :: bs)

/-- The slot names a mapping object that answers its entry count. -/
structure Names (drive : Drive) (assignIndex i pdoIndex : ℕ) (entryCount : BitVec 8) : Prop where
  object : ∃ low high rest, drive.readSdoFrom assignIndex i = .ok (low :: high :: rest) ∧
    (readU16 low high).toNat = pdoIndex
  count : drive.readU8 pdoIndex 0 = .ok entryCount

/-- The entries of the object are answered as well, up to the count. -/
structure Slot (drive : Drive) (assignIndex i pdoIndex : ℕ) (entryCount : BitVec 8) : Prop extends
    drive.Names assignIndex i pdoIndex entryCount where
  entries : ∀ e, 1 ≤ e → e ≤ entryCount.toNat → drive.Filled pdoIndex e

def Answered (drive : Drive) (assignIndex i : ℕ) : Prop :=
  ∃ pdoIndex entryCount, drive.Slot assignIndex i pdoIndex entryCount

variable {drive : Drive} {assignIndex i pdoIndex entry : ℕ} {entryCount : BitVec 8}
  {run : Runner Walk String} {s : Walk} {fuel : ℕ}

theorem readU8_eq_ok_iff {index subindex : ℕ} {b : BitVec 8} :
    drive.readU8 index subindex = .ok b ↔
      ∃ bs, drive.readSdoFrom index subindex = .ok (b :: bs) := by
  unfold readU8
  split <;> simp_all

theorem addEntry_ne_none : drive.addEntry pdoIndex entry s ≠ none := by
  unfold addEntry
  split <;> simp

theorem addEntry_completes_iff :
    Completes (drive.addEntry pdoIndex entry s) ↔ drive.Filled pdoIndex entry := by
  unfold addEntry Filled Completes
  split <;> simp_all

theorem entries_complete_iff {n : ℕ} :
    Completes (once (drive.addEntry pdoIndex) n s) ↔
      ∀ e, 1 ≤ e → e ≤ n → drive.Filled pdoIndex e :=
  once_completes_iff fun _ _ => addEntry_completes_iff

theorem addSlot_of_names (h : drive.Names assignIndex i pdoIndex entryCount) :
    drive.addSlot run assignIndex i s =
      run (drive.addEntry pdoIndex) entryCount.toNat ((s.read assignIndex i).read pdoIndex 0) := by
  obtain ⟨⟨low, high, rest, hobject, rfl⟩, hcount⟩ := h
  simp only [addSlot, hobject, hcount]

/-- A slot that names no such object leaves the walk, however its loops are run. -/
theorem addSlot_leaves (h : ∀ pdoIndex entryCount, ¬ drive.Names assignIndex i pdoIndex entryCount)
    (s : Walk) : ∃ t e, ∀ run, drive.addSlot run assignIndex i s = some (t, some e) := by
  unfold addSlot
  rcases hslot : drive.readSdoFrom assignIndex i with e | _ | ⟨low, _ | ⟨high, rest⟩⟩
  · exact ⟨_, _, fun _ => rfl⟩
  · exact ⟨_, _, fun _ => rfl⟩
  · exact ⟨_, _, fun _ => rfl⟩
  · rcases hcount : drive.readU8 (readU16 low high).toNat 0 with e | c
    · exact ⟨(s.read assignIndex i).read (readU16 low high).toNat 0, e, fun run => by
        simp only [hcount]⟩
    · exact absurd ⟨⟨low, high, rest, hslot, rfl⟩, hcount⟩ (h _ c)

theorem Names.unique {p q : ℕ} {c d : BitVec 8} (h : drive.Names assignIndex i p c)
    (h' : drive.Names assignIndex i q d) : p = q ∧ c = d := by
  obtain ⟨⟨low, high, rest, hobject, rfl⟩, hcount⟩ := h
  obtain ⟨⟨low', high', rest', hobject', rfl⟩, hcount'⟩ := h'
  rw [hobject] at hobject'
  cases hobject'
  rw [hcount] at hcount'
  cases hcount'
  exact ⟨rfl, rfl⟩

theorem answered_iff (h : drive.Names assignIndex i pdoIndex entryCount) :
    drive.Answered assignIndex i ↔
      ∀ e, 1 ≤ e → e ≤ entryCount.toNat → drive.Filled pdoIndex e := by
  refine ⟨fun ⟨p, c, hs⟩ => ?_, fun he => ⟨_, _, h, he⟩⟩
  obtain ⟨rfl, rfl⟩ := h.unique hs.toNames
  exact hs.entries

theorem addSlot_once_completes_iff :
    Completes (drive.addSlot once assignIndex i s) ↔ drive.Answered assignIndex i := by
  by_cases h : ∃ pdoIndex entryCount, drive.Names assignIndex i pdoIndex entryCount
  · obtain ⟨p, c, hn⟩ := h
    rw [addSlot_of_names hn, answered_iff hn]
    exact entries_complete_iff
  · obtain ⟨t, e, hl⟩ := addSlot_leaves (fun p c hn => h ⟨p, c, hn⟩) s
    rw [hl once]
    constructor
    · rintro ⟨u, hu⟩
      cases hu
    · rintro ⟨p, c, hs⟩
      exact absurd ⟨p, c, hs.toNames⟩ h

theorem slots_complete_iff {n : ℕ} :
    Completes (once (drive.addSlot once assignIndex) n s) ↔
      ∀ i, 1 ≤ i → i ≤ n → drive.Answered assignIndex i :=
  once_completes_iff fun _ _ => addSlot_once_completes_iff

/-- Every subindex of an answered slot's object is filled, its count among them. -/
theorem Slot.filled (h : drive.Slot assignIndex i pdoIndex entryCount) {e : ℕ}
    (he : e ≤ entryCount.toNat) : drive.Filled pdoIndex e := by
  rcases Nat.eq_zero_or_pos e with rfl | hpos
  · obtain ⟨bs, hbs⟩ := readU8_eq_ok_iff.mp h.count
    exact ⟨entryCount, bs, hbs⟩
  · exact h.entries e hpos he

/-! ### The wide counter -/

theorem fromBytes_one_lt (bytes : List (BitVec 8)) : fromBytes 1 bytes < 256 := by
  have h := Bytes.decode_lt (bytes.take 1)
  have hl : (bytes.take 1).length ≤ 1 := by simp
  calc fromBytes 1 bytes < 256 ^ (bytes.take 1).length := h
    _ ≤ 256 ^ 1 := Nat.pow_le_pow_right (by decide) hl

/-- An `unsigned` counter never reaches its largest value under a one-byte bound. -/
theorem walkPdoAssignment_counted (drive : Drive) (assignIndex : ℕ) :
    drive.walkPdoAssignment (counted 32 256) assignIndex =
      drive.walkPdoAssignment once assignIndex := by
  have hrun : ∀ (f : ℕ → MappingWalk → Ended MappingWalk String) bytes s,
      counted 32 256 f (fromBytes 1 bytes) s = once f (fromBytes 1 bytes) s := by
    intro f bytes s
    have hlt := fromBytes_one_lt bytes
    exact counted_eq_once (by omega) (Or.inl (by omega)) hlt
  have hslot : drive.mapSlot (counted 32 256) assignIndex = drive.mapSlot once assignIndex := by
    funext i s
    simp only [mapSlot, hrun]
  simp only [walkPdoAssignment, hslot, hrun]

theorem replies_entryCount {bytes : List (BitVec 8)}
    (h : drive.readSdoFrom assignIndex i = .ok bytes) :
    (drive.replies assignIndex).entryCount i = drive.readSdoFrom (fromBytes 2 bytes) 0 := by
  simp only [replies, h, bind, Except.bind]

theorem replies_entry {bytes : List (BitVec 8)} (h : drive.readSdoFrom assignIndex i = .ok bytes) :
    (drive.replies assignIndex).entry i = drive.readSdoFrom (fromBytes 2 bytes) := by
  simp only [replies, h, bind, Except.bind]

/-- A walk ends as the recursion over the replies does. -/
def Gives {α : Type} (post : α → MappingWalk → Prop) :
    Except String α → Ended MappingWalk String → Prop
  | .ok a, ended => ∃ t, ended = some (t, none) ∧ post a t
  | .error msg, ended => ∃ t, ended = some (t, some msg)

theorem Gives.map {α β : Type} {post : α → MappingWalk → Prop} {post' : β → MappingWalk → Prop}
    {x : Except String α} {ended : Ended MappingWalk String} (h : Gives post x ended) (g : α → β)
    (himp : ∀ a t, post a t → post' (g a) t) : Gives post' (do .ok (g (← x))) ended := by
  cases x with
  | error msg => exact h
  | ok a =>
    obtain ⟨t, ht, hp⟩ := h
    exact ⟨t, ht, himp a t hp⟩

theorem Gives.close {α β : Type} {post : α → MappingWalk → Prop} {post' : β → MappingWalk → Prop}
    {x : Except String α} {ended : Ended MappingWalk String} (h : Gives post x ended)
    (mappingIndex : ℕ) (g : α → β)
    (himp : ∀ a t, post a t →
      post' (g a) { t with objects := t.objects ++ [⟨mappingIndex, t.entries⟩] }) :
    Gives post' (do .ok (g (← x))) (closeObject mappingIndex ended) := by
  cases x with
  | error msg =>
    obtain ⟨t, rfl⟩ := h
    exact ⟨t, rfl⟩
  | ok a =>
    obtain ⟨t, rfl, hp⟩ := h
    exact ⟨_, rfl, himp a t hp⟩

theorem Gives.cons {α β : Type} {post : α → MappingWalk → Prop} {post' : β → MappingWalk → Prop}
    {x : Except String α} {k : α → Except String β} {f : ℕ → MappingWalk → Ended MappingWalk String}
    {is : List ℕ} {s : MappingWalk} (h : Gives post x (f i s))
    (hrest : ∀ a t, post a t → Gives post' (k a) (each f is t)) :
    Gives post' (x >>= k) (each f (i :: is) s) := by
  cases x with
  | error msg =>
    obtain ⟨t, ht⟩ := h
    exact ⟨t, by simp only [each, ht]⟩
  | ok a =>
    obtain ⟨t, ht, hp⟩ := h
    rw [each_cons_completes ht]
    exact hrest a t hp

theorem mapEntries_gives (drive : Drive) (mappingIndex n e : ℕ) (s : MappingWalk) :
    Gives (fun read t => t.totalBits = read.2 ∧ t.entries = s.entries ++ read.1 ∧
        t.objects = s.objects)
      (readEntries mappingIndex (drive.readSdoFrom mappingIndex) n e s.totalBits)
      (each (drive.mapEntry mappingIndex) (List.range' e n) s) := by
  induction n generalizing e s with
  | zero => exact ⟨s, rfl, rfl, by simp, rfl⟩
  | succ n ih =>
    rw [List.range'_succ, readEntries]
    rcases hread : drive.readSdoFrom mappingIndex e with msg | bytes
    · refine ⟨s.read mappingIndex e, ?_⟩
      simp only [each, mapEntry, hread]
    · have hturn : drive.mapEntry mappingIndex e s =
          some ((s.read mappingIndex e).append bytes, none) := by
        simp only [mapEntry, hread]
      rw [each_cons_completes hturn]
      refine (ih (e + 1) ((s.read mappingIndex e).append bytes)).map _ fun read t h => ?_
      obtain ⟨h1, h2, h3⟩ := h
      exact ⟨h1, by simpa [MappingWalk.append, MappingWalk.read] using h2, h3⟩

theorem mapSlot_gives (drive : Drive) (assignIndex i : ℕ) (s : MappingWalk) :
    Gives (fun read t => t.totalBits = read.2 ∧ t.objects = s.objects ++ read.1)
      (readSlot assignIndex (drive.replies assignIndex) i s.totalBits)
      (drive.mapSlot once assignIndex i s) := by
  have hassigned : (drive.replies assignIndex).assigned i = drive.readSdoFrom assignIndex i := rfl
  rcases hread : drive.readSdoFrom assignIndex i with msg | bytes
  · simp only [readSlot, hassigned, hread, mapSlot]
    exact ⟨_, rfl⟩
  have hentryCount := replies_entryCount hread
  have hentry := replies_entry hread
  by_cases hzero : fromBytes 2 bytes = 0
  · simp only [readSlot, hassigned, hread, mapSlot, if_pos hzero]
    exact ⟨_, rfl, rfl, by simp [MappingWalk.read]⟩
  rcases hcount : drive.readSdoFrom (fromBytes 2 bytes) 0 with msg | countBytes
  · simp only [readSlot, hassigned, hread, mapSlot, if_neg hzero, hentryCount, hcount]
    by_cases habort : IsObjectDoesNotExistAbort msg
    · simp only [if_pos habort]
      exact ⟨_, rfl, rfl, by simp [MappingWalk.read]⟩
    · simp only [if_neg habort]
      exact ⟨_, rfl⟩
  · have hentries := drive.mapEntries_gives (fromBytes 2 bytes) (fromBytes 1 countBytes) 1
      { (s.read assignIndex i).read (fromBytes 2 bytes) 0 with entries := [] }
    simp only [readSlot, hassigned, hread, mapSlot, if_neg hzero, hentryCount, hcount, hentry]
    refine hentries.close (fromBytes 2 bytes) _ fun read t h => ?_
    obtain ⟨h1, h2, h3⟩ := h
    exact ⟨h1, by simp [h2, h3, MappingWalk.read]⟩

theorem mapSlots_gives (drive : Drive) (assignIndex n i : ℕ) (s : MappingWalk) :
    Gives (fun objects t => t.objects = s.objects ++ objects)
      (readAssigned assignIndex (drive.replies assignIndex) n i s.totalBits)
      (each (drive.mapSlot once assignIndex) (List.range' i n) s) := by
  induction n generalizing i s with
  | zero => exact ⟨s, rfl, by simp⟩
  | succ n ih =>
    rw [List.range'_succ, readAssigned_succ]
    refine (drive.mapSlot_gives assignIndex i s).cons fun read t h => ?_
    obtain ⟨hbits, hobjects⟩ := h
    rw [← hbits]
    refine (ih (i + 1) t).map _ fun rest u hu => ?_
    rw [hu, hobjects, List.append_assoc]

theorem walkPdoAssignment_once (drive : Drive) (assignIndex : ℕ) :
    ∃ reads, drive.walkPdoAssignment once assignIndex =
      some (reads, readPdoAssignment assignIndex (drive.replies assignIndex)) := by
  rcases hread : drive.readSdoFrom assignIndex 0 with msg | bytes
  · exact ⟨[(assignIndex, 0)], by simp only [walkPdoAssignment, readPdoAssignment, replies, hread]⟩
  · have h := drive.mapSlots_gives assignIndex (fromBytes 1 bytes) 1
      ⟨[(assignIndex, 0)], 0, [], []⟩
    simp only [walkPdoAssignment, readPdoAssignment, replies, hread] at h ⊢
    rcases hr : readAssigned assignIndex _ (fromBytes 1 bytes) 1 0 with msg | objects
    · rw [hr] at h
      obtain ⟨t, ht⟩ := h
      exact ⟨t.reads, by rw [once, ht]; rfl⟩
    · rw [hr] at h
      obtain ⟨t, ht, hobjects⟩ := h
      exact ⟨t.reads, by rw [once, ht, Option.map_some, MappingWalk.result, hobjects]; rfl⟩

/-! ### The narrow counter -/

/-- A count of 255, with all the subindices it counts answered, is come to: at the assignment object
or at the mapping object of a slot. -/
def Overruns (drive : Drive) (assignIndex : ℕ) : Prop :=
  ∃ pdoCount, drive.readU8 assignIndex 0 = .ok pdoCount ∧
    (pdoCount = 255 ∧ (∀ i, 1 ≤ i → i ≤ 255 → drive.Answered assignIndex i) ∨
      ∃ k pdoIndex, 1 ≤ k ∧ k ≤ pdoCount.toNat ∧
        (∀ j, 1 ≤ j → j < k → drive.Answered assignIndex j) ∧
          drive.Slot assignIndex k pdoIndex 255)

/-- Both walks return, having come to each subindex from 1 to the count once. -/
structure WalksOnce (drive : Drive) (assignIndex : ℕ) : Prop where
  driver : ∃ fuel walked, drive.assignedBits (counted 8 fuel) assignIndex = some walked ∧
    drive.assignedBits once assignIndex = some walked
  device : ∃ fuel walked, drive.walkPdoAssignment (counted 32 fuel) assignIndex = some walked ∧
    drive.walkPdoAssignment once assignIndex = some walked

/-- A slot is walked alike unless its 255 entries are all there. -/
theorem addSlot_counted (h : ∀ pdoIndex, ¬ drive.Slot assignIndex i pdoIndex 255) :
    drive.addSlot (counted 8 256) assignIndex i s = drive.addSlot once assignIndex i s := by
  by_cases hn : ∃ pdoIndex entryCount, drive.Names assignIndex i pdoIndex entryCount
  · obtain ⟨p, c, hn⟩ := hn
    rw [addSlot_of_names hn, addSlot_of_names hn]
    have hlt := c.isLt
    refine counted_eq_once hlt ?_ hlt
    by_cases hc : c = 255
    · subst hc
      right
      refine leaves_of_not_completes (each_ne_none fun e _ s => addEntry_ne_none) fun hall => ?_
      exact h p ⟨hn, entries_complete_iff.mp hall⟩
    · have hne : c.toNat ≠ 255 := fun h => hc (BitVec.eq_of_toNat_eq h)
      omega
  · obtain ⟨t, e, hl⟩ := addSlot_leaves (fun p c h => hn ⟨p, c, h⟩) s
    rw [hl, hl]

theorem addSlot_once_ne_none : drive.addSlot once assignIndex i s ≠ none := by
  by_cases hn : ∃ pdoIndex entryCount, drive.Names assignIndex i pdoIndex entryCount
  · obtain ⟨p, c, hn⟩ := hn
    rw [addSlot_of_names hn]
    exact each_ne_none fun e _ s => addEntry_ne_none
  · obtain ⟨t, e, hl⟩ := addSlot_leaves (fun p c h => hn ⟨p, c, h⟩) s
    rw [hl]
    simp

/-- Without an overrun the counter is as good as a list of the subindices. -/
theorem assignedBits_counted (h : ¬ drive.Overruns assignIndex) :
    drive.assignedBits (counted 8 256) assignIndex = drive.assignedBits once assignIndex := by
  rcases hcount : drive.readU8 assignIndex 0 with e | pdoCount
  · simp only [assignedBits, hcount]
  simp only [assignedBits, hcount]
  congr 1
  have hlt := pdoCount.isLt
  have hslots : ∀ s, once (drive.addSlot (counted 8 256) assignIndex) pdoCount.toNat s =
      once (drive.addSlot once assignIndex) pdoCount.toNat s := by
    intro s
    -- A slot is come to only when those before it were answered.
    refine each_congr_range (fun j s => addSlot_once_completes_iff.mp) fun k hk1 hk2 hlow s => ?_
    refine addSlot_counted fun p hs => h ⟨pdoCount, hcount, Or.inr ?_⟩
    exact ⟨k, p, hk1, by omega, hlow, hs⟩
  rw [← hslots]
  refine counted_eq_once hlt ?_ hlt
  rw [hslots]
  by_cases hc : pdoCount = 255
  · subst hc
    right
    refine leaves_of_not_completes (each_ne_none fun i _ s => addSlot_once_ne_none) fun hall => ?_
    exact h ⟨255, hcount, Or.inl ⟨rfl, slots_complete_iff.mp hall⟩⟩
  · have hne : pdoCount.toNat ≠ 255 := fun h => hc (BitVec.eq_of_toNat_eq h)
    omega

theorem assignedBits_once_ne_none (drive : Drive) (assignIndex : ℕ) :
    drive.assignedBits once assignIndex ≠ none := by
  rcases hcount : drive.readU8 assignIndex 0 with e | pdoCount
  · simp [assignedBits, hcount]
  · simp only [assignedBits, hcount, ne_eq, Option.map_eq_none_iff]
    exact each_ne_none fun i _ s => addSlot_once_ne_none

theorem Slot.addSlot_none_or_completes (h : drive.Slot assignIndex i pdoIndex entryCount) :
    drive.addSlot (counted 8 fuel) assignIndex i s = none ∨
      Completes (drive.addSlot (counted 8 fuel) assignIndex i s) := by
  rw [addSlot_of_names h.toNames]
  exact loop_none_or_completes (fun e he s => addEntry_completes_iff.mpr (h.filled he)) 1

theorem Slot.addSlot_eq_none (h : drive.Slot assignIndex i pdoIndex 255) :
    drive.addSlot (counted 8 fuel) assignIndex i s = none := by
  rw [addSlot_of_names h.toNames]
  exact counted_eq_none (by decide) fun e he s => addEntry_completes_iff.mpr (h.filled he)

/-- A full count at the mapping object of a slot is never left. -/
theorem assignedBits_eq_none {pdoCount : BitVec 8} {k : ℕ}
    (hcount : drive.readU8 assignIndex 0 = .ok pdoCount) (hk1 : 1 ≤ k) (hk : k ≤ pdoCount.toNat)
    (hlow : ∀ j, 1 ≤ j → j < k → drive.Answered assignIndex j)
    (hs : drive.Slot assignIndex k pdoIndex 255) :
    drive.assignedBits (counted 8 fuel) assignIndex = none := by
  have hnone : counted 8 fuel (drive.addSlot (counted 8 fuel) assignIndex) pdoCount.toNat
      ⟨[(assignIndex, 0)], 0⟩ = none := by
    refine counted_eq_none_of_stuck hk1 hk pdoCount.isLt (fun j hj1 hj2 s => ?_) fun s => ?_
    · obtain ⟨q, c, hq⟩ := hlow j hj1 hj2
      exact hq.addSlot_none_or_completes
    · exact hs.addSlot_eq_none
  simp only [assignedBits, hcount, hnone, Option.map_none]

/-- A full count at the assignment object never lets the walk succeed: after the last slot it takes
subindex 0 for one. -/
theorem assignedBits_not_ok (hcount : drive.readU8 assignIndex 0 = .ok 255)
    {reads : List (ℕ × ℕ)} {bits : ℕ} :
    drive.assignedBits (counted 8 fuel) assignIndex ≠ some (reads, .ok bits) := by
  intro h
  simp only [assignedBits, hcount, Option.map_eq_some_iff] at h
  obtain ⟨⟨u, _ | e⟩, hu, heq⟩ := h
  · exact loop_not_completed (by decide) 1 ⟨u, hu⟩
  · exact absurd (congrArg Prod.snd heq) (by simp [Walk.result])

theorem Overruns.not_once (h : drive.Overruns assignIndex)
    {walked : List (ℕ × ℕ) × Except String ℕ}
    (hw : drive.assignedBits (counted 8 fuel) assignIndex = some walked) :
    drive.assignedBits once assignIndex ≠ some walked := by
  intro honce
  obtain ⟨pdoCount, hcount, ⟨rfl, hall⟩ | ⟨k, p, hk1, hk2, hlow, hs⟩⟩ := h
  · obtain ⟨t, ht⟩ : Completes (once (drive.addSlot once assignIndex) (255 : BitVec 8).toNat
        ⟨[(assignIndex, 0)], 0⟩) := slots_complete_iff.mpr hall
    have hok : drive.assignedBits once assignIndex = some (t.reads, .ok t.bits) := by
      simp only [assignedBits, hcount, ht, Option.map_some, Walk.result]
    rw [hok] at honce
    cases honce
    exact assignedBits_not_ok hcount hw
  · rw [assignedBits_eq_none hcount hk1 hk2 hlow hs] at hw
    cases hw

/-- Whatever the drive holds: the device's walk always returns, the driver's when it meets no full
count. -/
theorem walksOnce_iff_not_overruns (drive : Drive) (assignIndex : ℕ) :
    drive.WalksOnce assignIndex ↔ ¬ drive.Overruns assignIndex := by
  constructor
  · intro h hover
    obtain ⟨fuel, walked, hw, honce⟩ := h.driver
    exact hover.not_once hw honce
  · intro h
    obtain ⟨walked, hw⟩ := Option.ne_none_iff_exists'.mp
      (drive.assignedBits_once_ne_none assignIndex)
    obtain ⟨reads, hr⟩ := walkPdoAssignment_once drive assignIndex
    exact ⟨⟨256, walked, (assignedBits_counted h).trans hw, hw⟩,
      ⟨256, _, (walkPdoAssignment_counted drive assignIndex).trans hr, hr⟩⟩

end Drive

def reply (status : BitVec 16) (data : List (BitVec 8)) : Except String Frame :=
  .ok ⟨MessageType.kSdoRead.code, 1, status, data⟩

/-- One RxPDO, 0x1600, which reports 255 entries of 16 bits. -/
def fullDrive : Drive where
  host := "192.168.0.10"
  reachable := true
  protocolVersion := 0x0102
  sdoRead index subindex :=
    if index = 0x1C12 then if subindex = 0 then reply 0 [1] else reply 0 [0x00, 0x16]
    else if index = 0x1600 then
      if subindex = 0 then reply 0 [255] else reply 0 [0x10, 0x00, 0x40, 0x60]
    else reply 2 []
  pdoControl _ := reply 0 []
  watchdogTimeout _ := reply 0 []

theorem fullDrive_slot : fullDrive.Slot 0x1C12 1 0x1600 255 where
  object := ⟨0x00, 0x16, [], rfl, rfl⟩
  count := rfl
  entries e he _ := by
    have hne : e ≠ 0 := by omega
    exact ⟨0x10, [0x00, 0x40, 0x60], by
      simp [Drive.readSdoFrom, fullDrive, hne, reply]⟩

/-- The driver reads on for ever. -/
theorem fullDrive_not_walksOnce :
    (∀ fuel, fullDrive.assignedBits (counted 8 fuel) 0x1C12 = none) ∧
      ¬ fullDrive.WalksOnce 0x1C12 := by
  have hnone : ∀ fuel, fullDrive.assignedBits (counted 8 fuel) 0x1C12 = none := fun fuel =>
    Drive.assignedBits_eq_none rfl le_rfl le_rfl (fun j h1 h2 => by omega) fullDrive_slot
  refine ⟨hnone, fun h => ?_⟩
  obtain ⟨fuel, walked, hw, -⟩ := h.driver
  rw [hnone fuel] at hw
  cases hw

end MotionMaster.Spoe
