import Mathlib.Data.List.Count
import Mathlib.Data.List.Induction
import MotionMaster.Lib.Codec

/-!
# Opening a firmware package

An archive is what libzip lists and extracts of it, with its failures. `openFirmwarePackage` sorts
the entries by name into three slots that hold one file each and two lists. A second entry for one
of the three slots replaces the first, which is then nowhere in the package.
-/

namespace MotionMaster.Package

open List (Forall₂)

abbrev Text := List (BitVec 8)

def ascii (s : String) : Text := s.toList.map fun c => BitVec.ofNat 8 c.toNat

def tolower (c : BitVec 8) : BitVec 8 := if 0x41 ≤ c ∧ c ≤ 0x5A then c + 0x20 else c

def endsWithIgnoringCase (text suffix : Text) : Bool :=
  suffix.length ≤ text.length &&
    (text.drop (text.length - suffix.length)).map tolower = suffix.map tolower

inductive FirmwarePackageEntryKind where
  | kAppFirmware
  | kComFirmware
  | kSii
  | kExtraFile
  deriving DecidableEq

def classify (name : Text) : FirmwarePackageEntryKind :=
  if (ascii "app_").isPrefixOf name ∧ endsWithIgnoringCase name (ascii ".bin") then .kAppFirmware
  else if (ascii "com_").isPrefixOf name ∧ endsWithIgnoringCase name (ascii ".bin") then
    .kComFirmware
  else if endsWithIgnoringCase name (ascii ".sii") then .kSii
  else .kExtraFile

/-- What libzip may fail at, with its reason or with what `zip_fread` returns. -/
inductive Damage where
  | stat (reason : Text)
  | fopen (reason : Text)
  | fread (read : ℤ)
  deriving DecidableEq

structure ZipEntry where
  /-- A null pointer is no name. -/
  name : Option Text
  content : List (BitVec 8)
  damage : Option Damage := none

structure Zip where
  error : Option Text := none
  entries : List ZipEntry

structure FirmwarePackageEntry where
  name : Text
  kind : FirmwarePackageEntryKind
  size : ℕ

structure IndexedEntry where
  entry : FirmwarePackageEntry
  index : ℕ

structure FirmwarePackageFile where
  name : Text
  content : List (BitVec 8)
  deriving DecidableEq

structure FirmwarePackage where
  appBinary : Option FirmwarePackageFile := none
  comBinary : Option FirmwarePackageFile := none
  sii : Option FirmwarePackageFile := none
  extras : List FirmwarePackageFile := []
  skipped : List Text := []
  deriving DecidableEq

namespace ZipEntry

def fileName (z : ZipEntry) : Text := z.name.getD []

def passedBy (z : ZipEntry) : Bool :=
  z.fileName = [] || z.fileName.getLast? = some (BitVec.ofNat 8 '/'.toNat)

def entry (z : ZipEntry) : FirmwarePackageEntry :=
  ⟨z.fileName, classify z.fileName, z.content.length⟩

end ZipEntry

def listEntries : ℕ → List ZipEntry → Except Text (List IndexedEntry)
  | _, [] => .ok []
  | i, z :: zs =>
    match z.damage with
    | some (.stat reason) =>
      .error (ascii s!"could not read entry {i} of the firmware package: " ++ reason)
    | _ =>
      if z.passedBy then listEntries (i + 1) zs
      else (listEntries (i + 1) zs).map fun entries => ⟨z.entry, i⟩ :: entries

/-- The loop over the names, after the names in `seen`. -/
def checkExtraFiles (entries : List FirmwarePackageEntry) :
    List Text → List Text → Except Text Unit
  | _, [] => .ok ()
  | seen, name :: names =>
    if seen.contains name then
      .error (ascii "'extraFiles' names '" ++ name ++ ascii "' twice")
    else
      match entries.find? fun entry => entry.name = name with
      | none =>
        .error (ascii "'extraFiles' names '" ++ name ++
          ascii "', which the firmware package does not hold")
      | some entry =>
        if entry.kind ≠ .kExtraFile then
          .error (ascii "'extraFiles' names '" ++ name ++ ascii "', which is " ++
            ascii (if entry.kind = .kSii then "the SII" else "firmware") ++
            ascii " and is always written")
        else checkExtraFiles entries (seen ++ [name]) names

/-- An entry, opened by its index and read to its end. -/
def extract (zip : Zip) (x : IndexedEntry) : Except Text FirmwarePackageFile :=
  match zip.entries[x.index]? with
  | none => .error (ascii "could not open '" ++ x.entry.name ++ ascii "' in the firmware package: ")
  | some z =>
    match z.damage with
    | some (.fopen reason) =>
      .error (ascii "could not open '" ++ x.entry.name ++ ascii "' in the firmware package: " ++
        reason)
    | some (.fread read) =>
      if 0 < x.entry.size ∧ (read < 0 ∨ read ≠ x.entry.size) then
        .error (ascii "'" ++ x.entry.name ++ ascii "' in the firmware package is truncated: " ++
          ascii (toString (if read < 0 then 0 else read)) ++
          ascii s!" of {x.entry.size} bytes could be decompressed")
      else .ok ⟨x.entry.name, z.content⟩
    | _ => .ok ⟨x.entry.name, z.content⟩

def FirmwarePackage.store (p : FirmwarePackage) (kind : FirmwarePackageEntryKind)
    (extracted : FirmwarePackageFile) : FirmwarePackage :=
  match kind with
  | .kAppFirmware => { p with appBinary := some extracted }
  | .kComFirmware => { p with comBinary := some extracted }
  | .kSii => { p with sii := some extracted }
  | .kExtraFile => { p with extras := p.extras ++ [extracted] }

def leftOut (extraFiles : List Text) (name : Text) : Bool :=
  classify name = .kExtraFile && !extraFiles.contains name

def sortEntries (zip : Zip) (extraFiles : List Text) :
    FirmwarePackage → List IndexedEntry → Except Text FirmwarePackage
  | p, [] => .ok p
  | p, x :: xs =>
    if x.entry.kind = .kExtraFile ∧ extraFiles.contains x.entry.name = false then
      sortEntries zip extraFiles { p with skipped := p.skipped ++ [x.entry.name] } xs
    else
      match extract zip x with
      | .error reason => .error reason
      | .ok extracted => sortEntries zip extraFiles (p.store x.entry.kind extracted) xs

def noAppText : Text :=
  ascii "the firmware package holds no app_*.bin application firmware, " ++
    ascii "so it is not a SOMANET firmware package"

def openFirmwarePackage (zip : Zip) (extraFiles : List Text) : Except Text FirmwarePackage :=
  match zip.error with
  | some reason => .error (ascii "could not read the firmware package: " ++ reason)
  | none =>
    match listEntries 0 zip.entries with
    | .error reason => .error reason
    | .ok indexed =>
      match checkExtraFiles (indexed.map (·.entry)) [] extraFiles with
      | .error reason => .error reason
      | .ok _ =>
        if (indexed.map (·.entry)).any fun entry => entry.kind = .kAppFirmware then
          sortEntries zip extraFiles {} indexed
        else .error noAppText

/-! ### Accounts -/

inductive Slot where
  | appBinary
  | comBinary
  | sii
  | extras
  | skipped
  deriving DecidableEq

/-- An entry as the package has it; of a skipped one only the name. -/
structure Account where
  slot : Slot
  name : Text
  content : Option (List (BitVec 8))
  deriving DecidableEq

def FirmwarePackageFile.account (slot : Slot) (f : FirmwarePackageFile) : Account :=
  ⟨slot, f.name, some f.content⟩

def FirmwarePackage.holds (p : FirmwarePackage) : Slot → List Account
  | .appBinary => p.appBinary.toList.map (·.account .appBinary)
  | .comBinary => p.comBinary.toList.map (·.account .comBinary)
  | .sii => p.sii.toList.map (·.account .sii)
  | .extras => p.extras.map (·.account .extras)
  | .skipped => p.skipped.map fun name => ⟨.skipped, name, none⟩

def Slot.all : List Slot := [.appBinary, .comBinary, .sii, .extras, .skipped]

def FirmwarePackage.accounts (p : FirmwarePackage) : List Account := Slot.all.flatMap p.holds

def files (zip : Zip) : List ZipEntry :=
  zip.entries.filter fun z => z.fileName.getLast? ≠ some (BitVec.ofNat 8 '/'.toNat)

def Account.Of (z : ZipEntry) (a : Account) : Prop :=
  a.name = z.fileName ∧ (a.slot ≠ .skipped → a.content = some z.content)

/-- Each entry that is no directory is in the package once, and each name asked for is in the
extras. -/
def NoneLost (zip : Zip) (extraFiles : List Text) : Prop :=
  ∀ p, openFirmwarePackage zip extraFiles = .ok p →
    (∃ accounts, Forall₂ Account.Of (files zip) accounts ∧ accounts.Perm p.accounts) ∧
      ∀ name ∈ extraFiles, name ∈ p.extras.map (·.name)

/-! ### When a package opens -/

namespace ZipEntry

def statOk (z : ZipEntry) : Bool :=
  match z.damage with
  | some (.stat _) => false
  | _ => true

def readable (z : ZipEntry) : Bool :=
  match z.damage with
  | some (.fopen _) => false
  | some (.fread read) => z.content.length = 0 || read = z.content.length
  | _ => true

end ZipEntry

def listed (zs : List ZipEntry) : List ZipEntry := zs.filter fun z => !z.passedBy

/-- The archive is read, the request is accepted and there is an application binary. -/
structure Accepted (zip : Zip) (extraFiles : List Text) : Prop where
  opens : zip.error = none
  stats : ∀ z ∈ zip.entries, z.statOk = true
  asked : checkExtraFiles ((listed zip.entries).map (·.entry)) [] extraFiles = .ok ()
  app : ∃ z ∈ listed zip.entries, classify z.fileName = .kAppFirmware
  read : ∀ z ∈ listed zip.entries, leftOut extraFiles z.fileName = false → z.readable = true

/-- At most one entry is for each of the three slots, and every file has a name. -/
structure Single (zip : Zip) : Prop where
  named : ∀ z ∈ files zip, z.fileName ≠ []
  one : ∀ kind ≠ FirmwarePackageEntryKind.kExtraFile,
    ((files zip).filter fun z => classify z.fileName = kind).length ≤ 1

section Listing

variable {zip : Zip} {i : ℕ} {zs : List ZipEntry} {xs : List IndexedEntry} {x : IndexedEntry}
  {z : ZipEntry} {extraFiles : List Text}

/-- The index of a listed entry is that of the archive. -/
def Lists (zip : Zip) (x : IndexedEntry) (z : ZipEntry) : Prop :=
  zip.entries[x.index]? = some z ∧ x.entry = z.entry

theorem listEntries_cons (h : z.statOk = true) :
    listEntries i (z :: zs) =
      if z.passedBy then listEntries (i + 1) zs
      else (listEntries (i + 1) zs).map fun entries => ⟨z.entry, i⟩ :: entries := by
  rw [listEntries]
  split
  · next hdamage => simp [ZipEntry.statOk, hdamage] at h
  · rfl

theorem exists_listEntries (h : ∀ z ∈ zs, z.statOk = true) : ∃ xs, listEntries i zs = .ok xs := by
  induction zs generalizing i with
  | nil => exact ⟨[], rfl⟩
  | cons z zs ih =>
    obtain ⟨xs, hxs⟩ := ih (i := i + 1) fun y hy => h y (List.mem_cons_of_mem _ hy)
    rw [listEntries_cons (h z List.mem_cons_self), hxs]
    split
    · exact ⟨xs, rfl⟩
    · exact ⟨_, rfl⟩

theorem stats_of_listEntries (h : listEntries i zs = .ok xs) : ∀ z ∈ zs, z.statOk = true := by
  induction zs generalizing i xs with
  | nil => exact fun _ hy => absurd hy List.not_mem_nil
  | cons z zs ih =>
    have hz : z.statOk = true := by
      cases hz : z.statOk with
      | true => rfl
      | false =>
        unfold ZipEntry.statOk at hz
        split at hz
        · next hdamage =>
          simp only [listEntries, hdamage] at h
          cases h
        · cases hz
    rw [listEntries_cons hz] at h
    intro y hy
    rcases List.mem_cons.mp hy with rfl | hy
    · exact hz
    · split at h
      · exact ih h y hy
      · obtain ⟨rest, hrest, -⟩ := Except.map_eq_ok_iff.mp h
        exact ih hrest y hy

theorem lists_of_listEntries (hz : zip.entries.drop i = zs) (h : listEntries i zs = .ok xs) :
    Forall₂ (Lists zip) xs (listed zs) := by
  induction zs generalizing i xs with
  | nil =>
    cases h
    exact .nil
  | cons z zs ih =>
    have hdrop : zip.entries.drop (i + 1) = zs := by
      rw [← List.tail_drop, hz]
      rfl
    have hhead : zip.entries[i]? = some z := by
      rw [← List.head?_drop, hz]
      rfl
    rw [listEntries_cons (stats_of_listEntries h z List.mem_cons_self)] at h
    split at h
    · next hpassed =>
      rw [listed, List.filter_cons_of_neg (by simp [hpassed])]
      exact ih hdrop h
    · next hpassed =>
      obtain ⟨rest, hrest, rfl⟩ := Except.map_eq_ok_iff.mp h
      rw [listed, List.filter_cons_of_pos (by simpa using hpassed)]
      exact .cons ⟨hhead, rfl⟩ (ih hdrop hrest)

theorem map_entry (h : Forall₂ (Lists zip) xs zs) : xs.map (·.entry) = zs.map (·.entry) := by
  induction h with
  | nil => rfl
  | cons hx _ ih => rw [List.map_cons, List.map_cons, hx.2, ih]

theorem extract_eq_ok (h : Lists zip x z) {f : FirmwarePackageFile} :
    extract zip x = .ok f ↔ z.readable = true ∧ f = ⟨z.fileName, z.content⟩ := by
  have hname : x.entry.name = z.fileName := by rw [h.2]; rfl
  have hsize : x.entry.size = z.content.length := by rw [h.2]; rfl
  unfold extract ZipEntry.readable
  rw [h.1]
  dsimp only
  split
  · simp
  · next read _ =>
    rw [hname, hsize]
    split
    · simp only [reduceCtorEq, false_iff, Bool.or_eq_true, decide_eq_true_eq]
      omega
    · have hread : (decide (z.content.length = 0) || decide (read = z.content.length)) = true := by
        simp only [Bool.or_eq_true, decide_eq_true_eq]
        omega
      rw [hread, Except.ok.injEq, eq_comm, eq_self, true_and]
  · rw [hname, Except.ok.injEq, eq_comm, eq_self, true_and]

theorem mem_of_checkExtraFiles {entries : List FirmwarePackageEntry} {seen names : List Text}
    (h : checkExtraFiles entries seen names = .ok ()) {name : Text} (hname : name ∈ names) :
    ∃ entry ∈ entries, entry.name = name ∧ entry.kind = .kExtraFile := by
  induction names generalizing seen with
  | nil => exact absurd hname List.not_mem_nil
  | cons first names ih =>
    unfold checkExtraFiles at h
    split at h
    · cases h
    · split at h
      · cases h
      · next entry hfind =>
        split at h
        · cases h
        · next hkind =>
          rcases List.mem_cons.mp hname with rfl | hname
          · refine ⟨entry, List.mem_of_find?_eq_some hfind, ?_, not_not.mp hkind⟩
            simpa using List.find?_some hfind
          · exact ih h hname

end Listing

/-! ### What a package holds -/

def FirmwarePackageEntryKind.slot : FirmwarePackageEntryKind → Slot
  | .kAppFirmware => .appBinary
  | .kComFirmware => .comBinary
  | .kSii => .sii
  | .kExtraFile => .extras

def account (extraFiles : List Text) (z : ZipEntry) : Account :=
  if leftOut extraFiles z.fileName then ⟨.skipped, z.fileName, none⟩
  else ⟨(classify z.fileName).slot, z.fileName, some z.content⟩

def Slot.single : Slot → Bool
  | .appBinary | .comBinary | .sii => true
  | .extras | .skipped => false

namespace FirmwarePackage

def put (p : FirmwarePackage) (a : Account) : FirmwarePackage :=
  match a.slot with
  | .appBinary => { p with appBinary := some ⟨a.name, a.content.getD []⟩ }
  | .comBinary => { p with comBinary := some ⟨a.name, a.content.getD []⟩ }
  | .sii => { p with sii := some ⟨a.name, a.content.getD []⟩ }
  | .extras => { p with extras := p.extras ++ [⟨a.name, a.content.getD []⟩] }
  | .skipped => { p with skipped := p.skipped ++ [a.name] }

/-- One account changes its own slot only, and of a slot that holds one file all of it. -/
theorem holds_put (p : FirmwarePackage) (extraFiles : List Text) (z : ZipEntry) (k : Slot) :
    (p.put (account extraFiles z)).holds k =
      if (account extraFiles z).slot = k then
        (if k.single then [account extraFiles z] else p.holds k ++ [account extraFiles z])
      else p.holds k := by
  unfold account
  split
  · cases k <;> simp [put, holds, Slot.single]
  · cases classify z.fileName <;> cases k <;>
      simp [put, holds, Slot.single, FirmwarePackageEntryKind.slot, FirmwarePackageFile.account]

theorem holds_foldl (extraFiles : List Text) (zs : List ZipEntry) (k : Slot) :
    ((zs.map (account extraFiles)).foldl put {}).holds k =
      if k.single then ((zs.map (account extraFiles)).filter (·.slot = k)).getLast?.toList
      else (zs.map (account extraFiles)).filter (·.slot = k) := by
  induction zs using List.reverseRecOn with
  | nil => cases k <;> rfl
  | append_singleton zs z ih =>
    rw [List.map_append, List.map_singleton, List.foldl_append, List.foldl_cons, List.foldl_nil,
      holds_put, ih, List.filter_append]
    by_cases hslot : (account extraFiles z).slot = k
    · cases hk : k.single <;> simp [hslot]
    · simp [hslot]

end FirmwarePackage

/-- The accounts of what is listed, one after the other. -/
def accountsOf (zip : Zip) (extraFiles : List Text) : List Account :=
  (listed zip.entries).map (account extraFiles)

def sorted (zip : Zip) (extraFiles : List Text) : FirmwarePackage :=
  (accountsOf zip extraFiles).foldl .put {}

/-- Of the accounts for a slot that holds one file the last one is there. -/
theorem holds_sorted (zip : Zip) (extraFiles : List Text) (k : Slot) :
    (sorted zip extraFiles).holds k =
      if k.single then ((accountsOf zip extraFiles).filter (·.slot = k)).getLast?.toList
      else (accountsOf zip extraFiles).filter (·.slot = k) :=
  FirmwarePackage.holds_foldl _ _ _

theorem length_accountsOf (zip : Zip) (extraFiles : List Text) :
    (accountsOf zip extraFiles).length = (listed zip.entries).length :=
  List.length_map _

section Sorting

variable {zip : Zip} {zs : List ZipEntry} {xs : List IndexedEntry} {extraFiles : List Text}
  {p q : FirmwarePackage}

/-- The loop puts one account after the other, if it can read what it extracts. -/
theorem sortEntries_eq_ok (hx : Forall₂ (Lists zip) xs zs) :
    sortEntries zip extraFiles p xs = .ok q ↔
      (∀ z ∈ zs, leftOut extraFiles z.fileName = false → z.readable = true) ∧
        q = (zs.map (account extraFiles)).foldl .put p := by
  induction hx generalizing p with
  | nil =>
    rw [sortEntries, Except.ok.injEq, eq_comm]
    exact (and_iff_right fun _ hz => absurd hz List.not_mem_nil).symm
  | @cons x z xs zs hxz _ ih =>
    have hentry : x.entry = z.entry := hxz.2
    rw [List.forall_mem_cons, List.map_cons, List.foldl_cons, sortEntries]
    cases hleft : leftOut extraFiles z.fileName with
    | true =>
      have hskip : x.entry.kind = .kExtraFile ∧ extraFiles.contains x.entry.name = false := by
        rw [hentry]
        simpa [leftOut, ZipEntry.entry] using hleft
      have hput : p.put (account extraFiles z) =
          { p with skipped := p.skipped ++ [x.entry.name] } := by
        rw [account, if_pos hleft, hentry]
        rfl
      rw [if_pos hskip, ih, hput]
      simp
    | false =>
      have hkeep : ¬ (x.entry.kind = .kExtraFile ∧ extraFiles.contains x.entry.name = false) := by
        rw [hentry]
        simpa [leftOut, ZipEntry.entry] using hleft
      have hput : p.put (account extraFiles z) =
          p.store x.entry.kind ⟨z.fileName, z.content⟩ := by
        rw [account, if_neg (by simp [hleft]), hentry]
        show _ = p.store (classify z.fileName) _
        cases classify z.fileName <;> rfl
      rw [if_neg hkeep, hput]
      cases hextract : extract zip x with
      | ok f =>
        obtain ⟨hread, rfl⟩ := (extract_eq_ok hxz).mp hextract
        simp [ih, hread]
      | error reason =>
        have hread : z.readable ≠ true := by
          intro hread
          rw [(extract_eq_ok hxz).mpr ⟨hread, rfl⟩] at hextract
          cases hextract
        simp [hread]

theorem open_eq_ok : openFirmwarePackage zip extraFiles = .ok q ↔
    Accepted zip extraFiles ∧ q = sorted zip extraFiles := by
  constructor
  · intro h
    unfold openFirmwarePackage at h
    split at h
    · cases h
    · next hopens =>
      split at h
      · cases h
      · next indexed hindexed =>
        have hlists := lists_of_listEntries List.drop_zero hindexed
        rw [map_entry hlists] at h
        split at h
        · cases h
        · next hasked =>
          split at h
          · next happ =>
            obtain ⟨hread, rfl⟩ := (sortEntries_eq_ok hlists).mp h
            obtain ⟨entry, hentry, hkind⟩ := List.any_eq_true.mp happ
            obtain ⟨z, hz, rfl⟩ := List.mem_map.mp hentry
            exact ⟨⟨hopens, stats_of_listEntries hindexed, hasked,
              ⟨z, hz, of_decide_eq_true hkind⟩, hread⟩, rfl⟩
          · cases h
  · rintro ⟨haccepted, rfl⟩
    obtain ⟨indexed, hindexed⟩ := exists_listEntries (i := 0) haccepted.stats
    have hlists := lists_of_listEntries List.drop_zero hindexed
    have happ : ((listed zip.entries).map (·.entry)).any
        (fun entry => entry.kind = .kAppFirmware) = true := by
      obtain ⟨z, hz, hkind⟩ := haccepted.app
      exact List.any_eq_true.mpr ⟨_, List.mem_map_of_mem hz, decide_eq_true hkind⟩
    unfold openFirmwarePackage
    simp only [haccepted.opens, hindexed, map_entry hlists, haccepted.asked]
    rw [if_pos happ]
    exact (sortEntries_eq_ok hlists).mpr ⟨haccepted.read, rfl⟩

end Sorting

/-! ### Every entry once -/

section Counting

variable {zip : Zip} {extraFiles : List Text} {accounts : List Account}

theorem count_filter_slot (a : Account) (k : Slot) :
    (accounts.filter (·.slot = k)).count a = if a.slot = k then accounts.count a else 0 := by
  split
  · next h => exact List.count_filter (decide_eq_true h)
  · next h =>
    refine List.count_eq_zero.mpr fun hmem => h ?_
    exact of_decide_eq_true (List.mem_filter.mp hmem).2

theorem perm_slots (accounts : List Account) :
    (Slot.all.flatMap fun k => accounts.filter (·.slot = k)).Perm accounts := by
  refine List.perm_iff_count.mpr fun a => ?_
  simp only [Slot.all, List.flatMap_cons, List.flatMap_nil, List.count_append, count_filter_slot,
    List.count_nil]
  cases a.slot <;> simp

theorem filter_slot (extraFiles : List Text) (zs : List ZipEntry) {kind : FirmwarePackageEntryKind}
    (hkind : kind ≠ .kExtraFile) :
    ((zs.map (account extraFiles)).filter (·.slot = kind.slot)).length =
      (zs.filter fun z => classify z.fileName = kind).length := by
  rw [List.filter_map, List.length_map]
  congr 1
  refine List.filter_congr fun z _ => ?_
  have hslot : (account extraFiles z).slot = kind.slot ↔ classify z.fileName = kind := by
    unfold account
    split
    · next hleft =>
      have hextra : classify z.fileName = .kExtraFile := by
        simp only [leftOut, Bool.and_eq_true, decide_eq_true_eq] at hleft
        exact hleft.1
      cases kind <;> simp_all [FirmwarePackageEntryKind.slot]
    · cases classify z.fileName <;> cases kind <;> simp [FirmwarePackageEntryKind.slot]
  simp [hslot]

/-- The files that are listed are those with a name. -/
theorem listed_eq : listed zip.entries = (files zip).filter fun z => z.fileName ≠ [] := by
  unfold listed files
  simp [ZipEntry.passedBy]

theorem accounts_length (p : FirmwarePackage) : p.accounts.length =
    (p.holds .appBinary).length + (p.holds .comBinary).length + (p.holds .sii).length +
      (p.holds .extras).length + (p.holds .skipped).length := by
  simp only [FirmwarePackage.accounts, Slot.all, List.flatMap_cons, List.flatMap_nil,
    List.length_append, List.length_nil]
  omega

theorem toList_getLast? {α : Type} {xs : List α} (h : xs.length ≤ 1) : xs.getLast?.toList = xs := by
  match xs, h with
  | [], _ => rfl
  | [_], _ => rfl

theorem length_toList_getLast? {α : Type} (xs : List α) :
    xs.getLast?.toList.length = min 1 xs.length := by
  cases xs with
  | nil => rfl
  | cons x xs => simp [List.getLast?_cons]

theorem single_of_perm (h : Forall₂ Account.Of (files zip) accounts)
    (hperm : accounts.Perm (sorted zip extraFiles).accounts) : Single zip := by
  have hall := (perm_slots (accountsOf zip extraFiles)).length_eq
  have hsum := hperm.length_eq
  rw [← h.length_eq, accounts_length] at hsum
  simp only [holds_sorted, Slot.single, if_true, Bool.false_eq_true, if_false,
    length_toList_getLast?] at hsum
  simp only [Slot.all, List.flatMap_cons, List.flatMap_nil, List.length_append, List.length_nil,
    length_accountsOf] at hall
  have hle : (listed zip.entries).length ≤ (files zip).length := by
    rw [listed_eq]
    exact List.length_filter_le _ _
  have hsame : listed zip.entries = files zip := by
    rw [listed_eq]
    refine List.filter_eq_self.mpr (List.length_filter_eq_length_iff.mp ?_)
    rw [← listed_eq]
    omega
  constructor
  · intro z hz hnil
    rw [← hsame, listed_eq] at hz
    exact of_decide_eq_true (List.mem_filter.mp hz).2 hnil
  · intro kind hkind
    have hone : ∀ k, Slot.single k = true →
        ((accountsOf zip extraFiles).filter (·.slot = k)).length ≤ 1 := by
      intro k hk
      cases k with
      | extras => cases hk
      | skipped => cases hk
      | _ => omega
    rw [← hsame, ← filter_slot extraFiles _ hkind]
    refine hone kind.slot ?_
    cases kind with
    | kExtraFile => exact absurd rfl hkind
    | _ => rfl

theorem perm_of_single (h : Single zip) :
    ((files zip).map (account extraFiles)).Perm (sorted zip extraFiles).accounts := by
  have hsame : listed zip.entries = files zip := by
    rw [listed_eq]
    exact List.filter_eq_self.mpr fun z hz => decide_eq_true (h.named z hz)
  have hholds : ∀ k, (sorted zip extraFiles).holds k =
      (accountsOf zip extraFiles).filter (·.slot = k) := by
    intro k
    have hone : ∀ kind ≠ FirmwarePackageEntryKind.kExtraFile,
        ((accountsOf zip extraFiles).filter (·.slot = kind.slot)).getLast?.toList =
          (accountsOf zip extraFiles).filter (·.slot = kind.slot) := by
      intro kind hkind
      refine toList_getLast? ?_
      rw [accountsOf, filter_slot _ _ hkind, hsame]
      exact h.one kind hkind
    rw [holds_sorted]
    cases k with
    | appBinary => exact hone .kAppFirmware (by decide)
    | comBinary => exact hone .kComFirmware (by decide)
    | sii => exact hone .kSii (by decide)
    | extras => rfl
    | skipped => rfl
  rw [← hsame, FirmwarePackage.accounts, funext hholds]
  exact (perm_slots _).symm

theorem account_of (z : ZipEntry) : Account.Of z (account extraFiles z) := by
  unfold account
  split
  · exact ⟨rfl, fun h => absurd rfl h⟩
  · exact ⟨rfl, fun _ => rfl⟩

/-- A name that the request asks for is that of an entry, and the entry is extracted. -/
theorem mem_extras (h : Accepted zip extraFiles) {name : Text} (hname : name ∈ extraFiles) :
    name ∈ (sorted zip extraFiles).extras.map (·.name) := by
  obtain ⟨entry, hentry, rfl, hkind⟩ := mem_of_checkExtraFiles h.asked hname
  obtain ⟨z, hz, rfl⟩ := List.mem_map.mp hentry
  have hslot : account extraFiles z = ⟨.extras, z.fileName, some z.content⟩ := by
    have hin : leftOut extraFiles z.fileName = false := by
      have hcontains : extraFiles.contains z.fileName = true := List.contains_iff_mem.mpr hname
      rw [leftOut, hcontains]
      simp
    have hclass : classify z.fileName = .kExtraFile := hkind
    rw [account, hin, hclass]
    rfl
  have hmem : account extraFiles z ∈ (sorted zip extraFiles).holds .extras := by
    rw [holds_sorted]
    exact List.mem_filter.mpr ⟨List.mem_map_of_mem hz, by rw [hslot]; rfl⟩
  obtain ⟨f, hf, heq⟩ := List.mem_map.mp hmem
  refine List.mem_map.mpr ⟨f, hf, ?_⟩
  exact congrArg Account.name (heq.trans hslot)

/-- No entry is lost exactly if the package does not open or no two entries are for one of the slots
that hold one file and every file has a name. -/
theorem noneLost_iff (zip : Zip) (extraFiles : List Text) :
    NoneLost zip extraFiles ↔ (Accepted zip extraFiles → Single zip) := by
  constructor
  · intro h haccepted
    obtain ⟨⟨accounts, hof, hperm⟩, -⟩ := h _ (open_eq_ok.mpr ⟨haccepted, rfl⟩)
    exact single_of_perm hof hperm
  · intro h p hp
    obtain ⟨haccepted, rfl⟩ := open_eq_ok.mp hp
    refine ⟨⟨_, ?_, perm_of_single (h haccepted)⟩, fun name hname => mem_extras haccepted hname⟩
    exact List.forall₂_map_right_iff.mpr (List.forall₂_same.mpr fun z _ => account_of z)

/-- Of two application binaries the second one is kept. -/
def twoApps : Zip where
  entries := [⟨some (ascii "app_a.bin"), [1], none⟩, ⟨some (ascii "app_b.bin"), [2], none⟩]

theorem twoApps_not_noneLost : ¬ NoneLost twoApps [] := by
  intro h
  have hopen : openFirmwarePackage twoApps [] =
      .ok { appBinary := some ⟨ascii "app_b.bin", [2]⟩ } := by decide +kernel
  obtain ⟨⟨accounts, hof, hperm⟩, -⟩ := h _ hopen
  have htwo : (files twoApps).length = 2 := by decide +kernel
  have hone : accounts.length = 1 := hperm.length_eq
  rw [← hof.length_eq, htwo] at hone
  exact absurd hone (by decide)

end Counting

end MotionMaster.Package
