import MotionMaster.Esi.Merge

/-!
# Addresses of relocated objects

A module in slot `n` has its objects moved up by `n` increments. The offset and the sum are numbers
of 32 bits, and the test for the end of the index space sees what is left of them. The subindex of
an array's element is its position in 8 bits.
-/

namespace MotionMaster.Esi

/-- A source with the offsets of its slot as natural numbers. -/
structure PlacedSource where
  source : Source
  indexOffset : ℕ
  pdoIndexOffset : ℕ

def ownSources (device : EsiDevice) : List Source :=
  device.profiles.filterMap fun profile => profile.dictionary.map fun dictionary =>
    { dictionary := dictionary, origin := {}
      completeAccessDefault := (device.coe.map (·.completeAccess)).getD false
      indexOffset := 0, pdoIndexOffset := 0, label := "device" : Source }

def slotPlaced (file : EsiFile) (device : EsiDevice) (options : EsiEntryOptions) (ordinal : ℕ)
    (slot : Slot) (ident : BitVec 32) : Option PlacedSource :=
  (slotSource file device options ordinal slot ident).1.map fun source =>
    ⟨source, ordinal * (slot.slotIndexIncrement.getD device.slots.slotIndexIncrement).toNat,
      ordinal * (slot.slotPdoIncrement.getD device.slots.slotPdoIncrement).toNat⟩

def placedSources (file : EsiFile) (device : EsiDevice) (options : EsiEntryOptions) :
    List PlacedSource :=
  (ownSources device).map (⟨·, 0, 0⟩) ++
    device.slots.slots.zipIdx.flatMap fun slot =>
      slot.1.moduleIdents.filterMap (slotPlaced file device options slot.2 slot.1)

def PlacedSource.offset (p : PlacedSource) (object : EsiObject) : ℕ :=
  if isPdoAreaIndex object.index then p.pdoIndexOffset else p.indexOffset

def relocates (options : EsiEntryOptions) (object : EsiObject) : Bool :=
  options.applySlotOffsets && (!options.requireDependOnSlot || object.dependOnSlot)

/-- The elements of an array, with the count at subindex 0. One without them has no entry. -/
def elementCount (source : Source) (object : EsiObject) : Option ℕ :=
  match findType source object.type with
  | none => none
  | some type =>
    match classify (some type), type.subItems with
    | .array, _ :: elementSub :: _ =>
      some <| if object.subItems.isEmpty then
        match (findType source elementSub.type).bind (·.arrayInfo.head?) with
        | some elements => (elements + 1).toNat
        | none => 0
      else object.subItems.length
    | _, _ => none

variable (json : JsonReader) (options : EsiEntryOptions)

structure Addressed (p : PlacedSource) (object : EsiObject) : Prop where
  index : ∀ e ∈ (expandObject json options p.source object).1,
    e.index.toNat =
      if relocates options object ∧ object.index.toNat + p.offset object ≤ 0xFFFF then
        object.index.toNat + p.offset object
      else object.index.toNat
  warned : relocates options object → 0 < p.offset object →
    0xFFFF < object.index.toNat + p.offset object → (relocate options p.source object).2 ≠ []
  subindex : ∀ count, elementCount p.source object = some count →
    (expandObject json options p.source object).1.map (·.subindex.toNat) = List.range count

def AddressLaw (file : EsiFile) (device : EsiDevice) : Prop :=
  ∀ p ∈ placedSources file device options, ∀ object ∈ p.source.dictionary.objects,
    Addressed json options p object

/-- Nothing is lost in 32, 16 or 8 bits. -/
structure Fits (p : PlacedSource) (object : EsiObject) : Prop where
  sum : relocates options object → 0 < p.offset object →
    0xFFFF < object.index.toNat + p.offset object →
      0xFFFF < (object.index.toNat + p.offset object) % 0x100000000
  index : elementCount p.source object ≠ some 0 → object.index.toNat ≤ 0xFFFF
  count : ∀ count, elementCount p.source object = some count → count ≤ 256

variable {json options} {file : EsiFile} {device : EsiDevice} {p : PlacedSource}
  {object : EsiObject}

theorem map_source_placedSources (file : EsiFile) (device : EsiDevice)
    (options : EsiEntryOptions) :
    (placedSources file device options).map (·.source) =
      (collectSources file device options).1 := by
  have hfitted : ∀ slot : Slot × ℕ,
      (slot.1.moduleIdents.filterMap (slotPlaced file device options slot.2 slot.1)).map
          (·.source) =
        (slot.1.moduleIdents.map (slotSource file device options slot.2 slot.1)).filterMap
          (·.1) := by
    intro slot
    rw [List.map_filterMap, List.filterMap_map]
    refine List.filterMap_congr ?_
    intro ident _
    simp only [slotPlaced, Option.map_map, Function.comp_def, Option.map_id_fun', id]
  unfold placedSources collectSources
  dsimp only
  rw [List.map_append, List.map_map, List.map_flatMap, List.filterMap_flatMap]
  simp only [hfitted]
  congr 1
  exact List.map_id _

theorem offset_of_slotPlaced {ordinal : ℕ} {slot : Slot} {ident : BitVec 32}
    (h : slotPlaced file device options ordinal slot ident = some p)
    (happly : options.applySlotOffsets = true) :
    p.source.indexOffset = BitVec.ofNat 32 p.indexOffset ∧
      p.source.pdoIndexOffset = BitVec.ofNat 32 p.pdoIndexOffset := by
  obtain ⟨source, hsource, rfl⟩ := Option.map_eq_some_iff.mp h
  unfold slotSource at hsource
  split at hsource
  · cases hsource
  · split at hsource
    · cases hsource
    · split at hsource
      · cases hsource
      · cases hsource
        simp only [BitVec.ofNat_mul, BitVec.ofNat_toNat, BitVec.setWidth_eq, and_self]

/-- The offsets of a source are those of its slot in 32 bits. -/
theorem offset_of_placed (h : p ∈ placedSources file device options)
    (happly : options.applySlotOffsets = true) :
    p.source.indexOffset = BitVec.ofNat 32 p.indexOffset ∧
      p.source.pdoIndexOffset = BitVec.ofNat 32 p.pdoIndexOffset := by
  rcases List.mem_append.mp h with h | h
  · obtain ⟨source, hsource, rfl⟩ := List.mem_map.mp h
    obtain ⟨profile, -, hprofile⟩ := List.mem_filterMap.mp hsource
    obtain ⟨dictionary, -, rfl⟩ := Option.map_eq_some_iff.mp hprofile
    exact ⟨rfl, rfl⟩
  · obtain ⟨slot, -, hslot⟩ := List.mem_flatMap.mp h
    obtain ⟨ident, -, hident⟩ := List.mem_filterMap.mp hslot
    exact offset_of_slotPlaced hident happly

/-- An object that is not relocated keeps its index. -/
theorem relocate_of_fixed (h : relocates options object = false) (source : Source) :
    (relocate options source object).1.1 = object.index := by
  unfold relocates at h
  unfold relocate
  simp only [h, Bool.false_eq_true, if_false]
  split
  · rfl
  · exact BitVec.add_zero _

/-- The test of a relocated object sees the sum in 32 bits. -/
theorem relocate_of_moved (hp : p ∈ placedSources file device options)
    (h : relocates options object = true) :
    ((relocate options p.source object).1.1.toNat =
      if 0xFFFF < (object.index.toNat + p.offset object) % 0x100000000 then object.index.toNat
      else (object.index.toNat + p.offset object) % 0x100000000) ∧
    ((relocate options p.source object).2 ≠ [] ↔
      0xFFFF < (object.index.toNat + p.offset object) % 0x100000000) := by
  have happly : options.applySlotOffsets = true := by
    exact (Bool.and_eq_true _ _ ▸ h).1
  obtain ⟨hindex, hpdo⟩ := offset_of_placed hp happly
  have hoffset : (if isPdoAreaIndex object.index then p.source.pdoIndexOffset
      else p.source.indexOffset) = BitVec.ofNat 32 (p.offset object) := by
    unfold PlacedSource.offset
    split
    · exact hpdo
    · exact hindex
  have hsum : (object.index + BitVec.ofNat 32 (p.offset object)).toNat =
      (object.index.toNat + p.offset object) % 0x100000000 := by
    rw [BitVec.toNat_add, BitVec.toNat_ofNat, Nat.add_mod_mod]
  unfold relocates at h
  unfold relocate
  simp only [h, if_true, hoffset, hsum]
  split
  · exact ⟨rfl, iff_of_true (List.cons_ne_nil _ _) ‹_›⟩
  · exact ⟨hsum, iff_of_false (fun h => h rfl) ‹_›⟩

variable {source : Source}

theorem index_of_mem {e : EsiEntry}
    (h : e ∈ (expandObject json options source object).1) :
    e.index.toNat = (relocate options source object).1.1.toNat % 0x10000 := by
  unfold expandObject at h
  dsimp only at h
  rw [List.map_map] at h
  obtain ⟨input, -, rfl⟩ := List.mem_map.mp h
  exact BitVec.toNat_setWidth _ _

/-! ### Arrays -/

theorem subindex_arrayInputs (source : Source) (object : EsiObject)
    (countSub elementSub : SubItem) :
    (arrayInputs source object countSub elementSub).map (·.subindex.toNat) =
      (List.range (arrayInputs source object countSub elementSub).length).map (· % 256) := by
  unfold arrayInputs
  rw [List.map_map, List.length_map, List.length_range]
  refine List.map_congr_left ?_
  intro i _
  by_cases hi : i = 0
  · rw [Function.comp_apply, if_pos hi, hi]
    rfl
  · rw [Function.comp_apply, if_neg hi]
    exact BitVec.toNat_ofNat i 8

theorem elementCount_eq_some {count : ℕ}
    (h : elementCount source object = some count) :
    ∃ type countSub elementSub rest, findType source object.type = some type ∧
      classify (some type) = .array ∧ type.subItems = countSub :: elementSub :: rest ∧
      (arrayInputs source object countSub elementSub).length = count := by
  unfold elementCount at h
  cases htype : findType source object.type with
  | none =>
    rw [htype] at h
    cases h
  | some type =>
    rw [htype] at h
    dsimp only at h
    split at h
    · next countSub elementSub rest hclass hsub =>
      cases h
      refine ⟨type, countSub, elementSub, rest, rfl, hclass, hsub, ?_⟩
      exact (List.length_map _).trans List.length_range
    · cases h

theorem elementCount_of_array {type : EsiDataType} {countSub elementSub : SubItem}
    {rest : List SubItem} (htype : findType source object.type = some type)
    (hclass : classify (some type) = .array)
    (hsub : type.subItems = countSub :: elementSub :: rest) :
    elementCount source object = some (arrayInputs source object countSub elementSub).length := by
  unfold elementCount
  rw [htype]
  dsimp only
  rw [hclass, hsub]
  exact congrArg some ((List.length_map _).trans List.length_range).symm

theorem subindex_of_elementCount {count : ℕ}
    (h : elementCount source object = some count) :
    (expandObject json options source object).1.map (·.subindex.toNat) =
      (List.range count).map (· % 256) := by
  have hentries : ∀ inputs : List EntryInput,
      ((inputs.map (entryOf json options source object (relocate options source object).1)).map
        (·.1)).map (·.subindex.toNat) = inputs.map (·.subindex.toNat) := by
    intro inputs
    rw [List.map_map, List.map_map]
    rfl
  obtain ⟨type, countSub, elementSub, rest, htype, hclass, hsub, rfl⟩ := elementCount_eq_some h
  unfold expandObject inputsOf
  rw [hentries, htype]
  dsimp only
  rw [hclass, hsub]
  exact subindex_arrayInputs source object countSub elementSub

theorem recordInputs_ne_nil (where_ : String) {type : EsiDataType}
    (h : classify (some type) = .record) (object : EsiObject) :
    (recordInputs where_ type object).1 ≠ [] := by
  obtain ⟨first, rest, hsub⟩ : ∃ first rest, type.subItems = first :: rest := by
    cases hsub : type.subItems with
    | nil => simp [classify, hsub] at h
    | cons first rest => exact ⟨first, rest, rfl⟩
  have hturn : (recordTurn where_ type object 0).1 ≠ none := by
    unfold recordTurn
    repeat' split
    all_goals simp_all
  obtain ⟨input, hinput⟩ := Option.ne_none_iff_exists'.mp hturn
  refine List.ne_nil_of_mem (a := input) ?_
  refine List.mem_filterMap.mpr ⟨_, List.mem_map_of_mem ?_, hinput⟩
  rw [List.mem_range, hsub, List.length_cons]
  omega

theorem expandObject_eq_nil_iff :
    (expandObject json options source object).1 = [] ↔ elementCount source object = some 0 := by
  constructor
  · intro h
    have hinputs : ∀ where_, (inputsOf options source where_ object).1 = [] →
        elementCount source object = some 0 := by
      intro where_ hnil
      unfold inputsOf at hnil
      cases htype : findType source object.type with
      | none =>
        rw [htype] at hnil
        cases hnil
      | some type =>
        rw [htype] at hnil
        dsimp only at hnil
        split at hnil
        · next hclass => exact absurd hnil (recordInputs_ne_nil where_ hclass object)
        · next countSub elementSub rest hclass hsub =>
          rw [elementCount_of_array htype hclass hsub]
          exact congrArg (some ∘ List.length) hnil
        · cases hnil
    exact hinputs _ (List.map_eq_nil_iff.mp (List.map_eq_nil_iff.mp h))
  · intro h
    have hnone : (expandObject json options source object).1.map (·.subindex.toNat) = [] :=
      subindex_of_elementCount h
    exact List.map_eq_nil_iff.mp hnone

theorem map_mod_range_iff (count : ℕ) :
    (List.range count).map (· % 256) = List.range count ↔ count ≤ 256 := by
  constructor
  · intro h
    by_contra hcount
    have hat := congrArg (·[256]?) h
    simp [show 256 < count by omega] at hat
  · intro h
    conv_rhs => rw [← List.map_id (List.range count)]
    refine List.map_congr_left ?_
    intro i hi
    have hlt := List.mem_range.mp hi
    exact Nat.mod_eq_of_lt (by omega)

/-! ### The law -/

theorem Addressed.fits (hp : p ∈ placedSources file device options)
    (h : Addressed json options p object) : Fits options p object where
  sum hmoved hoffset hpast :=
    (relocate_of_moved hp hmoved).2.mp (h.warned hmoved hoffset hpast)
  index hsome := by
    obtain ⟨e, he⟩ := List.exists_mem_of_ne_nil _ (expandObject_eq_nil_iff.not.mpr hsome)
    have hindex := h.index e he
    split at hindex <;> omega
  count count hcount := by
    rw [← map_mod_range_iff, ← subindex_of_elementCount hcount]
    exact h.subindex count hcount

theorem Fits.addressed (hp : p ∈ placedSources file device options)
    (h : Fits options p object) : Addressed json options p object where
  index e he := by
    have hown := h.index (expandObject_eq_nil_iff.not.mp (List.ne_nil_of_mem he))
    rw [index_of_mem he]
    cases hmoved : relocates options object with
    | false =>
      rw [relocate_of_fixed hmoved, if_neg (by simp)]
      omega
    | true =>
      have hsum := h.sum hmoved
      rw [(relocate_of_moved hp hmoved).1]
      simp only [true_and]
      by_cases hpast : 0xFFFF < object.index.toNat + p.offset object
      · rw [if_pos (hsum (by omega) hpast), if_neg (by omega)]
        omega
      · rw [if_neg (by omega), if_pos (by omega)]
        omega
  warned hmoved hoffset hpast :=
    (relocate_of_moved hp hmoved).2.mpr (h.sum hmoved hoffset hpast)
  subindex count hcount := by
    rw [subindex_of_elementCount hcount, map_mod_range_iff]
    exact h.count count hcount

/-- Every object has the address of its slot exactly if no sum of an index past the index space
wraps below its end, every object with entries has an index of 16 bits, and no array has more than
256 elements. -/
theorem addressLaw_iff (json : JsonReader) (options : EsiEntryOptions) (file : EsiFile)
    (device : EsiDevice) :
    AddressLaw json options file device ↔
      ∀ p ∈ placedSources file device options, ∀ object ∈ p.source.dictionary.objects,
        Fits options p object := by
  refine forall₂_congr ?_
  intro p hp
  refine forall₂_congr ?_
  intro object _
  exact ⟨fun h => h.fits hp, fun h => h.addressed hp⟩

/-! The module in slot 1 of a device that writes a step down as an increment. -/

def steppingDevice (increment : BitVec 32) : EsiDevice where
  type := "drive"
  coe := none
  profiles := []
  slots := ⟨[⟨[], none, none⟩, ⟨[1], none, none⟩], 0, increment⟩

def everyObject : EsiEntryOptions :=
  { plainOptions with requireDependOnSlot := false }

theorem wrapped_increment_not_addressLaw :
    ¬ AddressLaw (fun _ => none) everyObject profileModule (steppingDevice 0xFFFFFFFF) := by
  intro h
  obtain ⟨p, hplaced, hobjects, hoffset, hquiet⟩ : ∃ p : PlacedSource,
      placedSources profileModule (steppingDevice 0xFFFFFFFF) everyObject = [p] ∧
        p.source.dictionary.objects = [statusword false] ∧
        p.offset (statusword false) = 0xFFFFFFFF ∧
        (relocate everyObject p.source (statusword false)).2 = [] :=
    ⟨_, rfl, rfl, by decide +kernel, by decide +kernel⟩
  have haddressed := h p (by rw [hplaced]; exact List.mem_singleton_self p) (statusword false)
    (by rw [hobjects]; exact List.mem_singleton_self _)
  refine haddressed.warned rfl ?_ ?_ hquiet
  · rw [hoffset]
    decide
  · rw [hoffset]
    decide

end MotionMaster.Esi
