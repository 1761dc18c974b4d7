import MotionMaster.Sii.Parse

/-!
# The parser and the validator

Both walk the category chain, the validator in words and the parser in bytes. In an image the
validator accepts the parser sees the same chain, up to its first NOP, where it stops.
-/

namespace MotionMaster.Sii

/-- The categories the loop of `parseSii` goes over, from `offset` on. -/
def parsedCategories (categories : Bytes) (offset : ℕ) : List Category :=
  if offset + 4 ≤ categories.length then
    let typeValue := rdU16 categories offset
    if typeValue = kEndMarker then []
    else
      let wordSize := rdU16 categories (offset + 2)
      let type := resolveSiiCategoryType typeValue
      let payloadStart := offset + 4
      let declared := wordSize.toNat * 2
      let available := categories.length - payloadStart
      let payload := (categories.drop payloadStart).take (min declared available)
      ⟨typeValue, wordSize.toNat, payload⟩ ::
        if type = some .nop ∨ type = some .end_ then []
        else parsedCategories categories (payloadStart + declared)
  else []
  termination_by categories.length - offset

def decodeChain (category : SiiCategorySection) (chain : List Category) : SiiCategorySection :=
  chain.foldl (fun category c => decodeCategory category (resolveSiiCategoryType c.type) c.payload)
    category

def upToNop : List Category → List Category
  | [] => []
  | c :: chain => if c.type = 0 then [c] else c :: upToNop chain

theorem parseLoop_eq (categories : Bytes) (offset : ℕ) (category : SiiCategorySection) :
    parseLoop categories offset category =
      decodeChain category (parsedCategories categories offset) := by
  fun_induction parseLoop categories offset category with
  | case1 offset category hroom typeValue hend =>
    rw [parsedCategories]
    simp only [hroom, if_true]
    rw [if_pos hend]
    rfl
  | case2 offset category hroom typeValue hend wordSize type payloadStart declared available payload
      decoded hstop =>
    rw [parsedCategories]
    simp only [hroom, if_true]
    rw [if_neg hend, if_pos hstop]
    rfl
  | case3 offset category hroom typeValue hend wordSize type payloadStart declared available payload
      decoded hgo ih =>
    rw [parsedCategories, ih]
    simp only [hroom, if_true]
    rw [if_neg hend, if_neg hgo]
    rfl
  | case4 offset category hroom =>
    rw [parsedCategories, if_neg hroom]
    rfl

/-! ### The two markers -/

variable {value : BitVec 16}

theorem mem_fixedTypes {type : SiiCategoryType}
    (h : fixedTypes.lookup value = some type) : (value, type) ∈ fixedTypes := by
  obtain ⟨before, after, heq, -⟩ := List.lookup_eq_some_iff.mp h
  rw [heq]
  simp

/-- A type is one of the ranges, or stands in the table. -/
theorem resolve_cases {type : SiiCategoryType}
    (h : resolveSiiCategoryType value = some type) :
    type ∈ [.deviceSpecific, .vendorSpecific, .applicationSpecific] ∨
      (value, type) ∈ fixedTypes := by
  unfold resolveSiiCategoryType at h
  split_ifs at h
  · exact .inl (by cases h; decide)
  · exact .inl (by cases h; decide)
  · exact .inl (by cases h; decide)
  · exact .inl (by cases h; decide)
  · exact .inr (mem_fixedTypes h)

theorem resolve_eq_nop :
    resolveSiiCategoryType value = some .nop ↔ value = 0 := by
  constructor
  · intro h
    rcases resolve_cases h with hrange | hfixed
    · exact absurd hrange (by decide)
    · simpa [fixedTypes] using hfixed
  · rintro rfl
    decide

theorem resolve_eq_end (h : resolveSiiCategoryType value = some .end_) :
    value = kEndMarker := by
  rcases resolve_cases h with hrange | hfixed
  · exact absurd hrange (by decide)
  · simpa [fixedTypes, kEndMarker] using hfixed

/-! ### One word of the image, seen from both sides -/

variable {buffer : Bytes}

theorem rdU16_drop {word : ℕ} (hw : kCategoryStartWord ≤ word)
    (hin : word * 2 + 2 ≤ buffer.length) :
    rdU16 (buffer.drop kHeaderBytes) ((word - kCategoryStartWord) * 2) = wordAt buffer word := by
  have hoff : kHeaderBytes + (word - kCategoryStartWord) * 2 = word * 2 := by
    unfold kHeaderBytes kCategoryStartWord at *
    omega
  have hlen : ¬ (buffer.drop kHeaderBytes).length < (word - kCategoryStartWord) * 2 + 2 := by
    rw [List.length_drop]
    omega
  rw [rdU16, if_neg hlen, wordAt]
  simp only [List.getD_eq_getElem?_getD, List.getElem?_drop, ← Nat.add_assoc, hoff]

/-- From the same word on, the parser goes over what the validator does, up to the first NOP. -/
theorem parsedCategories_eq {words word : ℕ} {chain : List Category}
    (hlen : buffer.length = words * 2) (hw : kCategoryStartWord ≤ word)
    (h : walkCategories buffer words word = .ok chain) :
    parsedCategories (buffer.drop kHeaderBytes) ((word - kCategoryStartWord) * 2) =
      upToNop chain := by
  fun_induction walkCategories buffer words word generalizing chain with
  | case1 word hpast => cases h
  | case2 word hin type =>
    -- the end marker, with or without a word behind it
    rename_i hend
    cases h
    rw [parsedCategories]
    split
    · rw [rdU16_drop hw (by omega), if_pos hend]
      rfl
    · rfl
  | case3 => cases h
  | case4 => cases h
  | case5 word hin type hend hsize size next hgood =>
    rename_i ih
    obtain ⟨rest, hrest, rfl⟩ := Except.map_eq_ok_iff.mp h
    have hroom : (word - kCategoryStartWord) * 2 + 4 ≤ (buffer.drop kHeaderBytes).length := by
      simp only [List.length_drop, kHeaderBytes, kCategoryStartWord] at *
      omega
    have hoff : (word - kCategoryStartWord) * 2 + 2 = (word + 1 - kCategoryStartWord) * 2 := by
      omega
    have hstart : kHeaderBytes + ((word - kCategoryStartWord) * 2 + 4) = (word + 2) * 2 := by
      simp only [kHeaderBytes, kCategoryStartWord] at *
      omega
    have hwhole : size * 2 ≤
        (buffer.drop kHeaderBytes).length - ((word - kCategoryStartWord) * 2 + 4) := by
      rw [List.length_drop, Nat.sub_sub, hstart]
      omega
    have hjump : (word - kCategoryStartWord) * 2 + 4 + size * 2 =
        (next - kCategoryStartWord) * 2 := by
      omega
    have htail := ih (by omega) hrest
    rw [parsedCategories, if_pos hroom]
    dsimp only
    rw [hoff, rdU16_drop hw (by omega), rdU16_drop (by omega) (by omega), if_neg hend,
      Nat.min_eq_left hwhole, List.drop_drop, hstart, hjump, htail, upToNop]
    by_cases hnop : type = 0
    · rw [if_pos (.inl (resolve_eq_nop.mpr hnop)), if_pos hnop]
    · rw [if_neg, if_neg hnop]
      rintro (hr | hr)
      · exact hnop (resolve_eq_nop.mp hr)
      · exact hend (resolve_eq_end hr)

/-- Every category of an accepted chain is there with all the words it declares. -/
theorem walkCategories_whole {words word : ℕ} {chain : List Category}
    (hlen : buffer.length = words * 2) (h : walkCategories buffer words word = .ok chain) :
    ∀ c ∈ chain, c.payload.length = c.size * 2 := by
  fun_induction walkCategories buffer words word generalizing chain with
  | case1 word hpast => cases h
  | case2 =>
    cases h
    simp
  | case3 => cases h
  | case4 => cases h
  | case5 word hin type hend hsize size next hgood =>
    rename_i ih
    obtain ⟨rest, hrest, rfl⟩ := Except.map_eq_ok_iff.mp h
    rw [List.forall_mem_cons]
    refine ⟨?_, ih hrest⟩
    show ((buffer.drop ((word + 2) * 2)).take (size * 2)).length = size * 2
    rw [List.length_take, List.length_drop]
    omega

theorem walk_of_validateSiiImage (h : validateSiiImage buffer = .ok ()) :
    buffer.length = buffer.length / 2 * 2 ∧ kHeaderBytes ≤ buffer.length ∧
      ∃ chain, walkCategories buffer (buffer.length / 2) kCategoryStartWord = .ok chain := by
  unfold validateSiiImage at h
  dsimp only at h
  split_ifs at h with hodd hshort
  obtain ⟨chain, hchain, -⟩ := Except.map_eq_ok_iff.mp h
  refine ⟨by omega, ?_, chain, hchain⟩
  simp only [kHeaderBytes, kMinWords, kCategoryStartWord] at *
  omega

/-- In an accepted image the parser decodes the chain of the validator up to its first NOP, each
category whole, and nothing behind it. -/
theorem parseSii_upToNop (buffer : Bytes) (h : validateSiiImage buffer = .ok ()) :
    ∃ chain, walkCategories buffer (buffer.length / 2) kCategoryStartWord = .ok chain ∧
      (∀ c ∈ chain, c.payload.length = c.size * 2) ∧
      parsedCategories (buffer.drop kHeaderBytes) 0 = upToNop chain ∧
      parseSii buffer = .ok ⟨parseHeader buffer, decodeChain {} (upToNop chain)⟩ := by
  obtain ⟨hlen, hheader, chain, hchain⟩ := walk_of_validateSiiImage h
  have hparsed := parsedCategories_eq hlen le_rfl hchain
  rw [Nat.sub_self, Nat.zero_mul] at hparsed
  refine ⟨chain, hchain, walkCategories_whole hlen hchain, hparsed, ?_⟩
  rw [parseSii, if_neg (Nat.not_lt.mpr hheader), parseLoop_eq, hparsed]

/-- An image with a header of zeros and the given category section. -/
def blankImage (categories : Bytes) : Bytes :=
  List.replicate 14 0 ++ [crc (List.replicate 14 0)] ++ List.replicate 113 0 ++ categories

/-- A GENERAL category of one word, and the end marker. -/
def generalOnly : Bytes := [0x1E, 0x00, 0x01, 0x00, 0x07, 0x00, 0xFF, 0xFF]

/-- The same behind a NOP category without a payload. -/
def generalAfterNop : Bytes := [0x00, 0x00, 0x00, 0x00] ++ generalOnly

/-- The same behind an FMMU category and a GENERAL category. -/
def aroundNop : Bytes :=
  [0x28, 0x00, 0x01, 0x00, 0x01, 0x02, 0x1E, 0x00, 0x01, 0x00, 0x05, 0x00] ++ generalAfterNop

def generalCategory : Category := ⟨30, 1, [0x07, 0x00]⟩

theorem aroundNop_parsed : parseSii (blankImage aroundNop) =
    .ok ⟨parseHeader (blankImage aroundNop),
      decodeChain {} [⟨40, 1, [0x01, 0x02]⟩, ⟨30, 1, [0x05, 0x00]⟩, ⟨0, 0, []⟩]⟩ := by
  obtain ⟨chain, hchain, -, -, hsii⟩ := parseSii_upToNop (blankImage aroundNop) (by decide +kernel)
  have hwalk : walkCategories (blankImage aroundNop) ((blankImage aroundNop).length / 2)
      kCategoryStartWord = .ok [⟨40, 1, [0x01, 0x02]⟩, ⟨30, 1, [0x05, 0x00]⟩, ⟨0, 0, []⟩,
        generalCategory] := by
    decide +kernel
  obtain rfl := Except.ok.inj (hchain.symm.trans hwalk)
  exact hsii

/-- The validator goes over the GENERAL category, the parser does not get to it. -/
theorem generalAfterNop_not_parsed : validateSiiImage (blankImage generalAfterNop) = .ok () ∧
    walkCategories (blankImage generalAfterNop) ((blankImage generalAfterNop).length / 2)
      kCategoryStartWord = .ok [⟨0, 0, []⟩, generalCategory] ∧
    parsedCategories ((blankImage generalAfterNop).drop kHeaderBytes) 0 = [⟨0, 0, []⟩] := by
  decide +kernel

end MotionMaster.Sii
