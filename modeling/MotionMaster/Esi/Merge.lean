import Mathlib.Data.List.Induction
import MotionMaster.Esi.Expand
import MotionMaster.Lib.Arena
import MotionMaster.Lib.Table

/-!
# Dictionaries merged to one table

`buildDeviceEntries` walks the device's dictionaries and those of the modules in its slots. An
address that is claimed again is decided at once, against the entry in place: by the policy, or by
the mark of a device object that a module may replace.
-/

namespace MotionMaster.Esi

/-! ### The sources -/

def slotSource (file : EsiFile) (device : EsiDevice) (options : EsiEntryOptions) (slotIndex : ℕ)
    (slot : Slot) (ident : BitVec 32) : Option Source × List String :=
  let deviceCompleteAccess := (device.coe.map (·.completeAccess)).getD false
  if !options.moduleIdents.isEmpty && !options.moduleIdents.contains ident then (none, [])
  else
    match findEsiModule file ident with
    | none => (none, ["slot " ++ toString slotIndex ++ ": no <Module> with ModuleIdent 0x" ++
        hexDigits 8 ident.toNat])
    | some module =>
      match module.profile.bind (·.dictionary) with
      | none => (none, ["slot " ++ toString slotIndex ++ ": module 0x" ++
          hexDigits 8 ident.toNat ++ " has no dictionary"])
      | some dictionary =>
        let indexIncrement := slot.slotIndexIncrement.getD device.slots.slotIndexIncrement
        let pdoIncrement := slot.slotPdoIncrement.getD device.slots.slotPdoIncrement
        let ordinal := BitVec.ofNat 32 slotIndex
        (some {
          dictionary := dictionary
          origin := { kind := .module, moduleIdent := ident, slot := slotIndex }
          completeAccessDefault :=
            (module.coe.map (·.completeAccess)).getD deviceCompleteAccess
          indexOffset := if options.applySlotOffsets then ordinal * indexIncrement else 0
          pdoIndexOffset := if options.applySlotOffsets then ordinal * pdoIncrement else 0
          label := "module 0x" ++ hexDigits 8 ident.toNat ++ " slot " ++ toString slotIndex }, [])

/-- The dictionaries to merge, the device's first, then the slots in order. -/
def collectSources (file : EsiFile) (device : EsiDevice) (options : EsiEntryOptions) :
    List Source × List String :=
  let own := device.profiles.filterMap fun profile => profile.dictionary.map fun dictionary =>
    { dictionary := dictionary, origin := {}
      completeAccessDefault := (device.coe.map (·.completeAccess)).getD false
      indexOffset := 0, pdoIndexOffset := 0, label := "device" : Source }
  let fitted := device.slots.slots.zipIdx.flatMap fun slot =>
    slot.1.moduleIdents.map (slotSource file device options slot.2 slot.1)
  (own ++ fitted.filterMap (·.1), fitted.flatMap (·.2))

def duplicateTypes (label : String) : List EsiDataType → List String → List String
  | [], _ => []
  | type :: types, seen =>
    if seen.contains type.name then
      (label ++ ": duplicate <DataType> name '" ++ type.name ++ "'; the first is kept") ::
        duplicateTypes label types seen
    else duplicateTypes label types (type.name :: seen)

/-! ### The merge -/

/-- Where an entry sits, and whether the object that produced it lets a module replace it. -/
structure Placed where
  position : ℕ
  overwritable : Bool

/-- The sources that claimed one address. -/
structure Claim where
  sources : List String := []
  moduleOverride : Bool := false

structure Merge where
  entries : List EsiEntry
  byKey : BitVec 32 → Option Placed
  claims : List (BitVec 32 × Claim)
  collided : Bool

def Merge.empty : Merge := ⟨[], fun _ => none, [], false⟩

/-- An entry with what the merge reads of the object and the source it comes from. -/
structure Claimant where
  label : String
  overwritable : Bool
  entry : EsiEntry

def Claimant.key (c : Claimant) : BitVec 32 := c.entry.key

def sourceLabel (source : EsiEntrySource) : String :=
  match source.kind with
  | .device => "the device dictionary"
  | .module => "module 0x" ++ hexDigits 8 source.moduleIdent.toNat ++ " slot " ++
      toString source.slot

/-- A module replaces what the device has marked for it. -/
def overrides (incumbent : EsiEntry) (overwritable : Bool) (entry : EsiEntry) : Bool :=
  incumbent.source.kind = .device && overwritable && entry.source.kind = .module

def mergeEntry (policy : EsiCollisionPolicy) (m : Merge) (c : Claimant) : Merge :=
  match m.byKey c.key with
  | none =>
    { m with
      entries := m.entries ++ [c.entry]
      byKey := Function.update m.byKey c.key (some ⟨m.entries.length, c.overwritable⟩) }
  | some placed =>
    match m.entries[placed.position]? with
    | none => m
    | some incumbent =>
      let moduleOverride := overrides incumbent placed.overwritable c.entry
      let claim := Table.get {} m.claims c.key
      let sources := if claim.sources.isEmpty then [sourceLabel incumbent.source] else claim.sources
      let m := { m with
        collided := true
        claims := Table.put m.claims c.key
          ⟨sources ++ [c.label], claim.moduleOverride || moduleOverride⟩ }
      if moduleOverride || policy = .lastWins then
        { m with
          entries := m.entries.set placed.position c.entry
          byKey := Function.update m.byKey c.key (some ⟨placed.position, c.overwritable⟩) }
      else m

def claimants (json : JsonReader) (options : EsiEntryOptions) (sources : List Source) :
    List Claimant :=
  sources.flatMap fun source => source.dictionary.objects.flatMap fun object =>
    (expandObject json options source object).1.map fun entry =>
      ⟨source.label, object.overwrittenByModule, entry⟩

def mergeAll (policy : EsiCollisionPolicy) (cs : List Claimant) : Merge :=
  cs.foldl (mergeEntry policy) .empty

/-! ### What is reported -/

structure CollisionGroup where
  count : ℕ := 0
  firstIndex : BitVec 16 := 0
  firstSubindex : BitVec 8 := 0
  moduleOverride : Bool := false

/-- Collisions by who claimed and who ended up owning. -/
def groupCollisions (m : Merge) : List ((String × String) × CollisionGroup) :=
  m.claims.foldl (fun groups claim =>
    match (m.byKey claim.1).bind (m.entries[·.position]?) with
    | none => groups
    | some winner =>
      let who := (", ".intercalate claim.2.sources, sourceLabel winner.source)
      let group := Table.get {} groups who
      let first := if group.count = 0 ∨ winner.key.toNat <
          (group.firstIndex.setWidth 32 <<< 8 ||| group.firstSubindex.setWidth 32).toNat
        then (winner.index, winner.subindex) else (group.firstIndex, group.firstSubindex)
      Table.put groups who
        ⟨group.count + 1, first.1, first.2, group.moduleOverride || claim.2.moduleOverride⟩) []

def collisionWarnings (m : Merge) : List String :=
  let groups := (groupCollisions m).mergeSort fun a b =>
    a.1.1 < b.1.1 ∨ a.1.1 = b.1.1 ∧ a.1.2 ≤ b.1.2
  groups.map fun (who, group) =>
    who.1 ++ " each declare the same " ++ toString group.count ++ " entr" ++
      (if group.count = 1 then "y" else "ies") ++ " (first 0x" ++
      hexDigits 4 group.firstIndex.toNat ++ ":" ++ hexDigits 2 group.firstSubindex.toNat ++ "); " ++
      who.2 ++ " wins" ++
      if group.moduleOverride then " (the device marked the object OverwrittenByModule)" else ""

/-- `WarningSink`: no more than the cap, and how many were left out. -/
def takeWarnings (cap : ℕ) (messages : List String) : List String :=
  messages.take cap ++
    if cap < messages.length then
      ["... " ++ toString (messages.length - cap) ++ " further warnings suppressed"]
    else []

structure EsiEntryTable where
  entries : List EsiEntry
  warnings : List String

def addressLe (a b : EsiEntry) : Bool :=
  if a.index ≠ b.index then a.index.toNat < b.index.toNat else a.subindex.toNat ≤ b.subindex.toNat

def buildDeviceEntries (json : JsonReader) (file : EsiFile) (device : EsiDevice)
    (options : EsiEntryOptions) : Except String EsiEntryTable :=
  let sources := collectSources file device options
  let m := mergeAll options.collisionPolicy (claimants json options sources.1)
  let warnings := sources.2 ++
    sources.1.flatMap (fun source => duplicateTypes source.label source.dictionary.dataTypes []) ++
    sources.1.flatMap (fun source => source.dictionary.objects.flatMap fun object =>
      (expandObject json options source object).2) ++ collisionWarnings m
  if sources.1.isEmpty then
    .error ("device '" ++ device.type ++ "' has no object dictionary: neither the device nor " ++
      "any slot-attached module declares one")
  else if m.collided && options.collisionPolicy = .error then
    .error ("device '" ++ device.type ++ "': its dictionaries declare the same (index, " ++
      "subindex) more than once and the collision policy is Error")
  else .ok ⟨if options.sortByAddress then m.entries.mergeSort addressLe else m.entries,
    takeWarnings options.maxWarnings warnings⟩

/-! ### Who should win -/

def Claimant.fromModule (c : Claimant) : Bool := c.entry.source.kind = .module

/-- Whether the device gives the address up to a module. -/
def Claimant.yields (c : Claimant) : Bool := c.entry.source.kind = .device && c.overwritable

def claimsOn (cs : List Claimant) (key : BitVec 32) : List Claimant := cs.filter (·.key = key)

/-- The claimant of one address whose entry is to be kept. -/
def winner (policy : EsiCollisionPolicy) (cs : List Claimant) : Option Claimant :=
  match policy, cs with
  | .lastWins, cs => cs.getLast?
  | _, [] => none
  | _, first :: rest =>
    if first.yields then rest.find? (·.fromModule) <|> some first else some first

/-- Two claimants of the address, the later of which is not a module that the earlier yields to. -/
def Unresolved (cs : List Claimant) (key : BitVec 32) : Prop :=
  ∃ a b, List.Sublist [a, b] (claimsOn cs key) ∧ ¬ (a.yields = true ∧ b.fromModule = true)

def EsiEntry.address (e : EsiEntry) : BitVec 16 × BitVec 8 := (e.index, e.subindex)

def addressLt (a b : EsiEntry) : Prop :=
  a.index.toNat < b.index.toNat ∨ a.index = b.index ∧ a.subindex.toNat < b.subindex.toNat

structure MergeLaw (json : JsonReader) (file : EsiFile) (device : EsiDevice)
    (options : EsiEntryOptions) : Prop where
  distinct : ∀ table, buildDeviceEntries json file device options = .ok table →
    (table.entries.map (·.address)).Nodup
  sorted : ∀ table, buildDeviceEntries json file device options = .ok table →
    options.sortByAddress = true → table.entries.Pairwise addressLt
  addresses : ∀ table, buildDeviceEntries json file device options = .ok table →
    ∀ address, address ∈ table.entries.map (·.address) ↔
      ∃ c ∈ claimants json options (collectSources file device options).1,
        c.entry.address = address
  winners : ∀ table, buildDeviceEntries json file device options = .ok table →
    ∀ e ∈ table.entries, ∃ c,
      winner options.collisionPolicy
        (claimsOn (claimants json options (collectSources file device options).1) e.key) = some c ∧
      c.entry = e
  fails : options.collisionPolicy = .error → (collectSources file device options).1 ≠ [] →
    ((∃ message, buildDeviceEntries json file device options = .error message) ↔
      ∃ key, Unresolved (claimants json options (collectSources file device options).1) key)

/-- Under the policy Error, collisions that are all resolved by a module are no collisions. -/
def NothingOverridden (json : JsonReader) (file : EsiFile) (device : EsiDevice)
    (options : EsiEntryOptions) : Prop :=
  options.collisionPolicy = .error →
    (∀ key, ¬ Unresolved (claimants json options (collectSources file device options).1) key) →
      ((claimants json options (collectSources file device options).1).map (·.key)).Nodup

variable {policy : EsiCollisionPolicy} {m : Merge} {c : Claimant} {cs : List Claimant}
  {key : BitVec 32}

theorem toNat_key (e : EsiEntry) : e.key.toNat = e.index.toNat * 256 + e.subindex.toNat := by
  have hsub : e.subindex.toNat < 2 ^ 8 := e.subindex.isLt
  rw [EsiEntry.key, BitVec.toNat_or, BitVec.toNat_shiftLeft, BitVec.toNat_setWidth,
    BitVec.toNat_setWidth, Nat.shiftLeft_eq, Nat.mod_eq_of_lt (by omega),
    Nat.mod_eq_of_lt (by omega), Nat.mod_eq_of_lt (by omega), ← Nat.shiftLeft_eq,
    ← Nat.shiftLeft_add_eq_or_of_lt hsub, Nat.shiftLeft_eq]

theorem key_inj {e e' : EsiEntry} : e.key = e'.key ↔ e.address = e'.address := by
  rw [EsiEntry.address, EsiEntry.address, Prod.mk.injEq, ← BitVec.toNat_inj, toNat_key, toNat_key,
    ← BitVec.toNat_inj, ← BitVec.toNat_inj]
  omega

/-! ### One entry -/

/-- What the merge holds for an address: the entry in place, and whether it may be replaced. -/
def Merge.view (m : Merge) (key : BitVec 32) : Option (EsiEntry × Bool) :=
  (m.byKey key).bind fun placed => m.entries[placed.position]?.map (·, placed.overwritable)

/-- Every entry in place is where its key says, and every key says where its entry is. -/
structure Merge.Indexed (m : Merge) : Prop where
  keyed : Arena.Keyed EsiEntry.key m.entries fun key => (m.byKey key).map (·.position)
  placed : ∀ (n : ℕ) (e : EsiEntry), m.entries[n]? = some e →
    (m.byKey e.key).map (·.position) = some n

/-- How a claimant changes what is held for its own address. -/
def take (policy : EsiCollisionPolicy) : Option (EsiEntry × Bool) → Claimant → EsiEntry × Bool
  | none, c => (c.entry, c.overwritable)
  | some (incumbent, overwritable), c =>
    if overrides incumbent overwritable c.entry || policy = .lastWins then
      (c.entry, c.overwritable)
    else (incumbent, overwritable)

theorem Merge.indexed_empty : Merge.empty.Indexed where
  keyed := Arena.keyed_empty
  placed := by
    intro n e h
    cases h

theorem Merge.Indexed.lookup (h : m.Indexed) {placed : Placed} (hp : m.byKey key = some placed) :
    ∃ incumbent, m.entries[placed.position]? = some incumbent ∧ incumbent.key = key :=
  h.keyed key placed.position (congrArg (Option.map (·.position)) hp)

/-- The address is new and the entry appended, or it is known, and then the entry in place stays or
is replaced where it is. -/
theorem mergeEntry_cases (policy : EsiCollisionPolicy) (h : m.Indexed) (c : Claimant) :
    (m.byKey c.key = none ∧ (mergeEntry policy m c).entries = m.entries ++ [c.entry] ∧
      (mergeEntry policy m c).byKey =
        Function.update m.byKey c.key (some ⟨m.entries.length, c.overwritable⟩) ∧
      (mergeEntry policy m c).collided = m.collided) ∨
    ∃ placed incumbent, m.byKey c.key = some placed ∧
      m.entries[placed.position]? = some incumbent ∧ incumbent.key = c.key ∧
      (mergeEntry policy m c).collided = true ∧
      (((overrides incumbent placed.overwritable c.entry || policy = .lastWins) = true ∧
        (mergeEntry policy m c).entries = m.entries.set placed.position c.entry ∧
        (mergeEntry policy m c).byKey =
          Function.update m.byKey c.key (some ⟨placed.position, c.overwritable⟩)) ∨
      ((overrides incumbent placed.overwritable c.entry || policy = .lastWins) = false ∧
        (mergeEntry policy m c).entries = m.entries ∧
        (mergeEntry policy m c).byKey = m.byKey)) := by
  cases hp : m.byKey c.key with
  | none =>
    left
    simp only [mergeEntry, hp]
    exact ⟨trivial, trivial, trivial, trivial⟩
  | some placed =>
    right
    obtain ⟨incumbent, hinc, hkey⟩ := h.lookup hp
    refine ⟨placed, incumbent, rfl, hinc, hkey, ?_⟩
    simp only [mergeEntry, hp, hinc]
    cases hrep : overrides incumbent placed.overwritable c.entry || policy = .lastWins with
    | true => exact ⟨rfl, .inl ⟨rfl, rfl, rfl⟩⟩
    | false => exact ⟨rfl, .inr ⟨rfl, rfl, rfl⟩⟩

theorem positions_update (byKey : BitVec 32 → Option Placed) (key : BitVec 32) (placed : Placed) :
    (fun k => (Function.update byKey key (some placed) k).map (·.position)) =
      Function.update (fun k => (byKey k).map (·.position)) key (some placed.position) := by
  funext k
  by_cases hk : k = key
  · simp [hk]
  · simp [hk]

theorem Merge.Indexed.appended {m' : Merge} (h : m.Indexed)
    (hnew : m.byKey c.key = none) (hentries : m'.entries = m.entries ++ [c.entry])
    (hbyKey : m'.byKey =
      Function.update m.byKey c.key (some ⟨m.entries.length, c.overwritable⟩)) : m'.Indexed := by
  constructor
  · rw [hentries, hbyKey, positions_update]
    exact (h.keyed.extend (Arena.extends_append _ _)).update (c := c.entry) (by simp)
  · intro n e he
    rw [hbyKey]
    rw [hentries, List.getElem?_append] at he
    split_ifs at he with hn
    · have hold := h.placed n e he
      have hne : e.key ≠ c.key := by
        intro heq
        rw [heq, hnew] at hold
        cases hold
      rwa [Function.update_of_ne hne]
    · obtain ⟨hn', rfl⟩ := List.getElem?_eq_some_iff.mp he
      have hlast : n = m.entries.length := by
        simp only [List.length_singleton] at hn'
        omega
      subst hlast
      simp [Claimant.key]

theorem Merge.Indexed.replaced {m' : Merge} {placed : Placed} {incumbent : EsiEntry}
    (h : m.Indexed) (hp : m.byKey c.key = some placed)
    (hinc : m.entries[placed.position]? = some incumbent) (hkey : incumbent.key = c.key)
    (hentries : m'.entries = m.entries.set placed.position c.entry)
    (hbyKey : m'.byKey =
      Function.update m.byKey c.key (some ⟨placed.position, c.overwritable⟩)) : m'.Indexed := by
  have hset : (m.entries.set placed.position c.entry)[placed.position]? = some c.entry := by
    rw [List.getElem?_set_self (List.getElem?_eq_some_iff.mp hinc).1]
  constructor
  · rw [hentries, hbyKey, positions_update]
    exact (h.keyed.extend (Arena.extends_set hinc hkey.symm)).update hset
  · intro n e he
    rw [hbyKey]
    rw [hentries] at he
    by_cases hn : placed.position = n
    · subst hn
      rw [hset] at he
      cases he
      simp [Claimant.key]
    · rw [List.getElem?_set_ne hn] at he
      have hold := h.placed n e he
      have hne : e.key ≠ c.key := by
        intro heq
        rw [heq, hp] at hold
        exact hn (Option.some.inj hold)
      rwa [Function.update_of_ne hne]

theorem mergeEntry_indexed (policy : EsiCollisionPolicy) (h : m.Indexed) (c : Claimant) :
    (mergeEntry policy m c).Indexed := by
  rcases mergeEntry_cases policy h c with ⟨hnew, hentries, hbyKey, -⟩ |
    ⟨placed, incumbent, hp, hinc, hkey, -, ⟨-, hentries, hbyKey⟩ | ⟨-, hentries, hbyKey⟩⟩
  · exact h.appended hnew hentries hbyKey
  · exact h.replaced hp hinc hkey hentries hbyKey
  · constructor
    · rw [hentries, hbyKey]
      exact h.keyed
    · rw [hentries, hbyKey]
      exact h.placed

/-- Only what is held for the claimant's own address changes. -/
theorem view_mergeEntry (policy : EsiCollisionPolicy) (h : m.Indexed) (c : Claimant)
    (key : BitVec 32) : (mergeEntry policy m c).view key =
      if key = c.key then some (take policy (m.view key) c) else m.view key := by
  rcases mergeEntry_cases policy h c with ⟨hnew, hentries, hbyKey, -⟩ |
    ⟨placed, incumbent, hp, hinc, hkey, -, ⟨hrep, hentries, hbyKey⟩ | ⟨hrep, hentries, hbyKey⟩⟩
  · rw [Merge.view, hentries, hbyKey]
    split_ifs with hk
    · subst hk
      simp [Merge.view, hnew, take]
    · rw [Function.update_of_ne hk, Merge.view]
      cases hother : m.byKey key with
      | none => rfl
      | some other =>
        obtain ⟨e, he, -⟩ := h.lookup hother
        have hlt := (List.getElem?_eq_some_iff.mp he).1
        simp [List.getElem?_append_left hlt]
  · rw [Merge.view, hentries, hbyKey]
    split_ifs with hk
    · subst hk
      have hlt := (List.getElem?_eq_some_iff.mp hinc).1
      simp only [Function.update_self, Option.bind_some, List.getElem?_set_self hlt,
        Option.map_some, Merge.view, hp, hinc, take, if_pos hrep]
    · rw [Function.update_of_ne hk, Merge.view]
      cases hother : m.byKey key with
      | none => rfl
      | some other =>
        obtain ⟨e, he, hekey⟩ := h.lookup hother
        have hne : placed.position ≠ other.position := by
          intro heq
          rw [← heq, hinc] at he
          cases he
          exact hk (hekey.symm.trans hkey)
        simp [List.getElem?_set_ne hne]
  · rw [Merge.view, hentries, hbyKey]
    split_ifs with hk
    · subst hk
      simp [Merge.view, hp, hinc, take, hrep]
    · rfl

theorem collided_mergeEntry (policy : EsiCollisionPolicy) (h : m.Indexed) (c : Claimant) :
    (mergeEntry policy m c).collided = (m.collided || (m.view c.key).isSome) := by
  rcases mergeEntry_cases policy h c with ⟨hp, -, -, hcol⟩ |
    ⟨placed, incumbent, hp, hinc, -, hcol, -⟩
  · simp [hcol, Merge.view, hp]
  · simp [hcol, Merge.view, hp, hinc]

/-! ### A whole run -/

theorem mergeAll_concat (policy : EsiCollisionPolicy) (cs : List Claimant) (c : Claimant) :
    mergeAll policy (cs ++ [c]) = mergeEntry policy (mergeAll policy cs) c := by
  rw [mergeAll, List.foldl_append]
  rfl

theorem mergeAll_indexed (policy : EsiCollisionPolicy) (cs : List Claimant) :
    (mergeAll policy cs).Indexed := by
  induction cs using List.reverseRecOn with
  | nil => exact Merge.indexed_empty
  | append_singleton cs c ih =>
    rw [mergeAll_concat]
    exact mergeEntry_indexed policy ih c

/-- What is held once these claimants of one address have come. -/
def held (policy : EsiCollisionPolicy) (cs : List Claimant) : Option (EsiEntry × Bool) :=
  cs.foldl (fun view c => some (take policy view c)) none

theorem held_concat (policy : EsiCollisionPolicy) (cs : List Claimant) (c : Claimant) :
    held policy (cs ++ [c]) = some (take policy (held policy cs) c) := by
  rw [held, List.foldl_append]
  rfl

theorem held_eq_none_iff (policy : EsiCollisionPolicy) (cs : List Claimant) :
    held policy cs = none ↔ cs = [] := by
  induction cs using List.reverseRecOn with
  | nil => simp [held]
  | append_singleton cs c _ => simp [held_concat]

theorem claimsOn_concat (cs : List Claimant) (c : Claimant) (key : BitVec 32) :
    claimsOn (cs ++ [c]) key = claimsOn cs key ++ if key = c.key then [c] else [] := by
  rw [claimsOn, List.filter_append]
  congr 1
  by_cases hk : key = c.key
  · simp [hk]
  · simp [hk, Ne.symm hk]

/-- The merge holds for an address what its claimants alone decide. -/
theorem view_mergeAll (policy : EsiCollisionPolicy) (cs : List Claimant) (key : BitVec 32) :
    (mergeAll policy cs).view key = held policy (claimsOn cs key) := by
  induction cs using List.reverseRecOn with
  | nil => rfl
  | append_singleton cs c ih =>
    rw [mergeAll_concat, view_mergeEntry policy (mergeAll_indexed policy cs), ih, claimsOn_concat]
    split_ifs with hk
    · rw [held_concat]
    · rw [List.append_nil]

theorem claimsOn_eq_nil_iff : claimsOn cs key = [] ↔ key ∉ cs.map (·.key) := by
  rw [claimsOn, List.filter_eq_nil_iff]
  simp

theorem collided_mergeAll (policy : EsiCollisionPolicy) (cs : List Claimant) :
    (mergeAll policy cs).collided = false ↔ (cs.map (·.key)).Nodup := by
  induction cs using List.reverseRecOn with
  | nil => simp [mergeAll, Merge.empty]
  | append_singleton cs c ih =>
    have hview : ((mergeAll policy cs).view c.key).isSome = false ↔ c.key ∉ cs.map (·.key) := by
      rw [view_mergeAll, Option.isSome_eq_false_iff, Option.isNone_iff_eq_none, held_eq_none_iff,
        claimsOn_eq_nil_iff]
    rw [mergeAll_concat, collided_mergeEntry policy (mergeAll_indexed policy cs),
      Bool.or_eq_false_iff, ih, hview, List.map_append, List.map_singleton, ← List.concat_eq_append,
      List.nodup_concat, and_comm]

/-! ### Who wins -/

section Kept

variable {e : EsiEntry} {o : Bool}

/-- Without the policy LastWins nothing replaces an entry that does not yield. -/
theorem foldl_take_of_keeps (hpolicy : policy ≠ .lastWins)
    (h : (e.source.kind = .device && o) = false) (rest : List Claimant) :
    rest.foldl (fun view c => some (take policy view c)) (some (e, o)) = some (e, o) := by
  induction rest with
  | nil => rfl
  | cons c rest ih =>
    have hkeeps : take policy (some (e, o)) c = (e, o) := by
      rw [take, overrides, h]
      simp [hpolicy]
    rw [List.foldl_cons, hkeeps]
    exact ih

/-- An entry that yields stays until the first module. -/
theorem foldl_take_of_yields (hpolicy : policy ≠ .lastWins)
    (h : (e.source.kind = .device && o) = true) (rest : List Claimant) :
    rest.foldl (fun view c => some (take policy view c)) (some (e, o)) =
      some ((rest.find? (·.fromModule)).elim (e, o) fun c => (c.entry, c.overwritable)) := by
  induction rest with
  | nil => rfl
  | cons c rest ih =>
    rw [List.foldl_cons]
    cases hc : c.fromModule with
    | true =>
      have htakes : take policy (some (e, o)) c = (c.entry, c.overwritable) := by
        rw [take, overrides, h]
        simp [show (c.entry.source.kind = .module) from of_decide_eq_true hc]
      have hkeeps : (c.entry.source.kind = .device && c.overwritable) = false := by
        simp [show (c.entry.source.kind = .module) from of_decide_eq_true hc]
      rw [htakes, foldl_take_of_keeps hpolicy hkeeps, List.find?_cons_of_pos hc]
      rfl
    | false =>
      have hkeeps : take policy (some (e, o)) c = (e, o) := by
        rw [take, overrides, h]
        simp [show (c.entry.source.kind ≠ .module) from of_decide_eq_false hc, hpolicy]
      rw [hkeeps, ih, List.find?_cons_of_neg (by simp [hc])]

end Kept

/-- The first claimant wins, or the module it yields to. -/
theorem held_cons (hpolicy : policy ≠ .lastWins) (first : Claimant) (rest : List Claimant) :
    (held policy (first :: rest)).map (·.1) =
      ((if first.yields then rest.find? (·.fromModule) <|> some first else some first).map
        (·.entry)) := by
  rw [held, List.foldl_cons, take]
  cases hyields : first.yields with
  | true =>
    rw [foldl_take_of_yields hpolicy hyields]
    cases rest.find? (·.fromModule) <;> rfl
  | false =>
    rw [foldl_take_of_keeps hpolicy hyields]
    rfl

/-- What the claimants decide one after the other is the winner among them. -/
theorem held_eq_winner (policy : EsiCollisionPolicy) (cs : List Claimant) :
    (held policy cs).map (·.1) = (winner policy cs).map (·.entry) := by
  cases policy with
  | lastWins =>
    induction cs using List.reverseRecOn with
    | nil => rfl
    | append_singleton cs c _ =>
      have hlast : take .lastWins (held .lastWins cs) c = (c.entry, c.overwritable) := by
        cases held .lastWins cs with
        | none => rfl
        | some incumbent => simp [take]
      rw [held_concat, hlast]
      simp [winner]
  | firstWins =>
    cases cs with
    | nil => rfl
    | cons first rest => exact held_cons (by decide) first rest
  | error =>
    cases cs with
    | nil => rfl
    | cons first rest => exact held_cons (by decide) first rest

/-! ### The table -/

theorem view_of_mem {e : EsiEntry} (h : m.Indexed) (he : e ∈ m.entries) :
    ∃ o, m.view e.key = some (e, o) := by
  obtain ⟨n, hn⟩ := List.mem_iff_getElem?.mp he
  cases hp : m.byKey e.key with
  | none =>
    have hplaced := h.placed n e hn
    rw [hp] at hplaced
    cases hplaced
  | some placed =>
    have hplaced := h.placed n e hn
    rw [hp, Option.map_some, Option.some.injEq] at hplaced
    exact ⟨placed.overwritable, by simp [Merge.view, hp, hplaced, hn]⟩

theorem mem_of_view {e : EsiEntry} {o : Bool} (h : m.Indexed) (hv : m.view key = some (e, o)) :
    e ∈ m.entries ∧ e.key = key := by
  rw [Merge.view, Option.bind_eq_some_iff] at hv
  obtain ⟨placed, hp, hv⟩ := hv
  obtain ⟨e', he', heq⟩ := Option.map_eq_some_iff.mp hv
  cases heq
  obtain ⟨incumbent, hinc, hkey⟩ := h.lookup hp
  rw [he'] at hinc
  cases hinc
  exact ⟨List.mem_of_getElem? he', hkey⟩

theorem Merge.Indexed.nodup (h : m.Indexed) : (m.entries.map (·.address)).Nodup := by
  rw [List.Nodup, List.pairwise_map, List.pairwise_iff_getElem]
  intro i j hi hj hij heq
  have hfirst := h.placed i m.entries[i] (List.getElem?_eq_getElem hi)
  have hsecond := h.placed j m.entries[j] (List.getElem?_eq_getElem hj)
  rw [key_inj.mpr heq, hsecond] at hfirst
  have := Option.some.inj hfirst
  omega

theorem mem_addresses_iff (policy : EsiCollisionPolicy) (cs : List Claimant)
    (address : BitVec 16 × BitVec 8) :
    address ∈ (mergeAll policy cs).entries.map (·.address) ↔
      ∃ c ∈ cs, c.entry.address = address := by
  have hindexed := mergeAll_indexed policy cs
  constructor
  · intro h
    obtain ⟨e, he, rfl⟩ := List.mem_map.mp h
    obtain ⟨o, hview⟩ := view_of_mem hindexed he
    have hclaims : claimsOn cs e.key ≠ [] := by
      intro hnil
      rw [view_mergeAll, (held_eq_none_iff policy _).mpr hnil] at hview
      cases hview
    rw [Ne, claimsOn_eq_nil_iff, not_not] at hclaims
    obtain ⟨c, hc, hkey⟩ := List.mem_map.mp hclaims
    exact ⟨c, hc, key_inj.mp hkey⟩
  · rintro ⟨c, hc, rfl⟩
    have hclaims : claimsOn cs c.key ≠ [] := by
      rw [Ne, claimsOn_eq_nil_iff, not_not]
      exact List.mem_map_of_mem hc
    obtain ⟨⟨e, o⟩, hheld⟩ := Option.ne_none_iff_exists'.mp fun hnone =>
      hclaims ((held_eq_none_iff policy _).mp hnone)
    rw [← view_mergeAll] at hheld
    obtain ⟨he, hkey⟩ := mem_of_view hindexed hheld
    exact List.mem_map.mpr ⟨e, he, key_inj.mp hkey⟩

theorem winner_of_mem (policy : EsiCollisionPolicy) (cs : List Claimant) {e : EsiEntry}
    (he : e ∈ (mergeAll policy cs).entries) :
    ∃ c, winner policy (claimsOn cs e.key) = some c ∧ c.entry = e := by
  obtain ⟨o, hview⟩ := view_of_mem (mergeAll_indexed policy cs) he
  rw [view_mergeAll] at hview
  have hwinner := held_eq_winner policy (claimsOn cs e.key)
  rw [hview, Option.map_some] at hwinner
  exact Option.map_eq_some_iff.mp hwinner.symm

/-! ### Sorting -/

theorem addressLe_iff {a b : EsiEntry} :
    addressLe a b = true ↔ a.key.toNat ≤ b.key.toNat := by
  rw [addressLe, toNat_key, toNat_key]
  split_ifs with h
  · rw [Ne, ← BitVec.toNat_inj] at h
    rw [decide_eq_true_iff]
    omega
  · rw [Ne, not_not, ← BitVec.toNat_inj] at h
    rw [decide_eq_true_iff]
    omega

theorem addressLt_of_le {a b : EsiEntry} (h : addressLe a b = true)
    (hne : a.address ≠ b.address) : addressLt a b := by
  rw [Ne, ← key_inj, ← BitVec.toNat_inj] at hne
  rw [addressLe_iff] at h
  rw [toNat_key, toNat_key] at h hne
  rw [addressLt, ← BitVec.toNat_inj]
  omega

theorem pairwise_mergeSort {entries : List EsiEntry} (h : (entries.map (·.address)).Nodup) :
    (entries.mergeSort addressLe).Pairwise addressLt := by
  have hsorted : (entries.mergeSort addressLe).Pairwise fun a b => addressLe a b = true := by
    apply List.pairwise_mergeSort
    · intro a b c hab hbc
      rw [addressLe_iff] at hab hbc ⊢
      omega
    · intro a b
      rw [Bool.or_eq_true, addressLe_iff, addressLe_iff]
      omega
  have hnodup : ((entries.mergeSort addressLe).map (·.address)).Nodup :=
    ((List.mergeSort_perm entries addressLe).map _).nodup_iff.mpr h
  rw [List.Nodup, List.pairwise_map] at hnodup
  exact (hsorted.and hnodup).imp fun h => addressLt_of_le h.1 h.2

/-! ### What is built -/

variable {json : JsonReader} {file : EsiFile} {device : EsiDevice} {options : EsiEntryOptions}
  {table : EsiEntryTable}

/-- A table that is built holds the merged entries, sorted where that is asked for. -/
theorem entries_of_build (h : buildDeviceEntries json file device options = .ok table) :
    table.entries.Perm (mergeAll options.collisionPolicy
        (claimants json options (collectSources file device options).1)).entries ∧
      (options.sortByAddress = true → table.entries = (mergeAll options.collisionPolicy
        (claimants json options (collectSources file device options).1)).entries.mergeSort
          addressLe) := by
  simp only [buildDeviceEntries] at h
  split_ifs at h with hsources hcollided hsort
  · cases h
    exact ⟨List.mergeSort_perm _ _, fun _ => rfl⟩
  · cases h
    exact ⟨.refl _, fun hs => absurd hs hsort⟩

/-- Under the policy Error a build with sources fails where an address is claimed twice. -/
theorem build_error_iff (hpolicy : options.collisionPolicy = .error)
    (hsources : (collectSources file device options).1 ≠ []) :
    (∃ message, buildDeviceEntries json file device options = .error message) ↔
      ¬ ((claimants json options (collectSources file device options).1).map (·.key)).Nodup := by
  have hsome : (collectSources file device options).1.isEmpty = false := by simpa using hsources
  rw [← collided_mergeAll options.collisionPolicy, Bool.not_eq_false]
  simp only [buildDeviceEntries, hsome, Bool.false_eq_true, if_false, hpolicy, decide_true,
    Bool.and_true]
  split_ifs with hcollided
  · simp [hcollided]
  · simp [hcollided]

theorem not_nodup_of_unresolved (h : Unresolved cs key) : ¬ (cs.map (·.key)).Nodup := by
  obtain ⟨a, b, hsub, -⟩ := h
  have ha : a.key = key := by simpa using (List.mem_filter.mp (hsub.mem (by simp))).2
  have hb : b.key = key := by simpa using (List.mem_filter.mp (hsub.mem (by simp))).2
  have htwice : List.Sublist [a.key, b.key] (cs.map (·.key)) :=
    List.Sublist.map Claimant.key (hsub.trans List.filter_sublist)
  intro hnodup
  have := hnodup.sublist htwice
  simp [ha, hb] at this

theorem MergeLaw.nothingOverridden (h : MergeLaw json file device options) :
    NothingOverridden json file device options := by
  intro hpolicy hresolved
  by_cases hsources : (collectSources file device options).1 = []
  · rw [hsources]
    exact List.nodup_nil
  · by_contra hdup
    obtain ⟨key, hunresolved⟩ :=
      (h.fails hpolicy hsources).mp ((build_error_iff hpolicy hsources).mpr hdup)
    exact hresolved key hunresolved

theorem NothingOverridden.mergeLaw (h : NothingOverridden json file device options) :
    MergeLaw json file device options where
  distinct table hbuild := by
    have hnodup := (mergeAll_indexed options.collisionPolicy
      (claimants json options (collectSources file device options).1)).nodup
    exact ((entries_of_build hbuild).1.map _).nodup_iff.mpr hnodup
  sorted table hbuild hsort := by
    rw [(entries_of_build hbuild).2 hsort]
    exact pairwise_mergeSort (mergeAll_indexed _ _).nodup
  addresses table hbuild address := by
    rw [((entries_of_build hbuild).1.map _).mem_iff]
    exact mem_addresses_iff _ _ address
  winners table hbuild e he :=
    winner_of_mem _ _ ((entries_of_build hbuild).1.mem_iff.mp he)
  fails hpolicy hsources := by
    rw [build_error_iff hpolicy hsources]
    constructor
    · intro hdup
      by_contra hnone
      exact hdup (h hpolicy fun key hkey => hnone ⟨key, hkey⟩)
    · rintro ⟨key, hkey⟩
      exact not_nodup_of_unresolved hkey

/-- The merge keeps what it promises exactly where the policy Error meets no collision that a module
resolves. -/
theorem mergeLaw_iff_nothingOverridden (json : JsonReader) (file : EsiFile) (device : EsiDevice)
    (options : EsiEntryOptions) :
    MergeLaw json file device options ↔ NothingOverridden json file device options :=
  ⟨MergeLaw.nothingOverridden, NothingOverridden.mergeLaw⟩

/-! A device gives one object up to the module in its slot. -/

def statusword (marked : Bool) : EsiObject where
  index := 0x6041
  dependOnSlot := false
  overwrittenByModule := marked
  names := []
  type := "UINT"
  bitSize := 16
  info := plainInfo
  subItems := []
  flags := none
  properties := []

def yieldingDevice : EsiDevice where
  type := "drive"
  coe := none
  profiles := [⟨some ⟨[], [], [statusword true]⟩⟩]
  slots := ⟨[⟨[1], none, none⟩], 0, 0⟩

def profileModule : EsiFile := ⟨[⟨1, none, some ⟨some ⟨[], [], [statusword false]⟩⟩⟩]⟩

/-- A pair that the mark resolves is all there is of a pair. -/
theorem not_unresolved_pair {a b : Claimant} (ha : a.yields = true) (hb : b.fromModule = true)
    (key : BitVec 32) : ¬ Unresolved [a, b] key := by
  rintro ⟨x, y, hsub, hnot⟩
  have hall : List.Sublist [x, y] [a, b] := hsub.trans List.filter_sublist
  cases hall.eq_of_length rfl
  exact hnot ⟨ha, hb⟩

theorem overridden_not_mergeLaw : ¬ MergeLaw (fun _ => none) profileModule yieldingDevice
    { plainOptions with collisionPolicy := .error } := by
  intro h
  obtain ⟨d, m, hpair, hyields, hmodule, hkey⟩ : ∃ d m, claimants (fun _ => none)
      { plainOptions with collisionPolicy := .error } (collectSources profileModule yieldingDevice
        { plainOptions with collisionPolicy := .error }).1 = [d, m] ∧
      d.yields = true ∧ m.fromModule = true ∧ d.key = m.key :=
    ⟨_, _, rfl, rfl, rfl, key_inj.mpr (by decide +kernel)⟩
  have hclaims := h.nothingOverridden rfl
  rw [hpair] at hclaims
  have hnodup := hclaims (not_unresolved_pair hyields hmodule)
  simp [hkey] at hnodup

end MotionMaster.Esi
