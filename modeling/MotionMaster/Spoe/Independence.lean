import MotionMaster.Spoe.ObjectDictionary

/-!
# Lost packets do not show

Whatever the bulk list delivers is of the dictionary, and every gap is asked for. So the map ends as
the dictionary, whichever packets were lost.
-/

namespace MotionMaster.Spoe

variable {dict : Dictionary} {base replies : DictionaryReplies} {a b : Address}
  {e : ParameterEntry} {d : Description} {m : EntriesByAddress} {s t u : Filling}

/-! ### The dictionary by address -/

namespace Dictionary

theorem find?_of_mem (hd : d ∈ dict.descriptions) : dict.find? d.address = some d := by
  have h := dict.distinct
  rw [find?]
  generalize dict.descriptions = ds at h hd
  induction ds with
  | nil => cases hd
  | cons first ds ih =>
    rw [List.map_cons, List.nodup_cons] at h
    rcases List.mem_cons.mp hd with rfl | hmem
    · simp
    · have hne : first.address ≠ d.address := fun heq => h.1 (heq ▸ List.mem_map_of_mem hmem)
      rw [List.find?_cons_of_neg (by simpa using hne)]
      exact ih h.2 hmem

theorem entryAt_of_mem (hd : d ∈ dict.descriptions) :
    dict.entryAt d.address = some d.parameterEntry := by
  rw [entryAt, find?_of_mem hd, Option.map_some]

theorem mem_of_entryAt (h : dict.entryAt a = some e) :
    ∃ d ∈ dict.descriptions, d.address = a ∧ d.parameterEntry = e := by
  obtain ⟨d, hd, rfl⟩ := Option.map_eq_some_iff.mp h
  exact ⟨d, List.mem_of_find?_eq_some hd, by simpa using List.find?_some hd, rfl⟩

theorem address_of_entryAt (h : dict.entryAt a = some e) : e.address = a := by
  obtain ⟨d, -, rfl, rfl⟩ := mem_of_entryAt h
  rfl

/-- A record decodes to what the dictionary has at the address. -/
theorem decode_record (hr : dict.Regular) (a : Address) :
    decodeParameterEntries (dict.record a) = (dict.entryAt a).toList := by
  rw [decodeParameterEntries, record, entryAt]
  rcases hfind : dict.find? a with _ | d
  · rw [Blocks.slices_self length_clearedRecord (by decide)]
    simp only [List.filterMap_cons, decodeEntry_clearedRecord, List.filterMap_nil, Option.map_none,
      Option.toList_none]
  · have hd : d ∈ dict.descriptions := List.mem_of_find?_eq_some hfind
    rw [Blocks.slices_self d.length_bytes (by decide)]
    simp only [List.filterMap_cons, d.decodeEntry_bytes (hr.index_ne_zero d hd), List.filterMap_nil,
      Option.map_some, Option.toList_some]

theorem length_records (dict : Dictionary) :
    ∀ block ∈ dict.records, block.length = kParameterEntrySize := by
  intro block hb
  rcases List.mem_cons.mp hb with rfl | hb
  · exact length_clearedRecord
  · obtain ⟨d, -, rfl⟩ := List.mem_map.mp hb
    exact d.length_bytes

theorem mem_of_decode (hr : dict.Regular) {data : List (BitVec 8)}
    (h : Blocks.Tiled dict.records data) (he : e ∈ decodeParameterEntries data) :
    dict.entryAt e.address = some e := by
  obtain ⟨block, hb, hdecode⟩ := List.mem_filterMap.mp he
  rcases List.mem_cons.mp (h.slices_mem dict.length_records (by decide) hb) with rfl | hmem
  · cases hdecode
  · obtain ⟨d, hd, rfl⟩ := List.mem_map.mp hmem
    rw [d.decodeEntry_bytes (hr.index_ne_zero d hd)] at hdecode
    cases hdecode
    exact entryAt_of_mem hd

end Dictionary

/-! ### The bulk list -/

/-- The map holds nothing but entries of the dictionary. -/
def Within (dict : Dictionary) (m : EntriesByAddress) : Prop :=
  ∀ a e, m[a]? = some e → dict.entryAt a = some e

theorem within_empty : Within dict ∅ := by
  intro a e h
  cases h

theorem Within.insert (hm : Within dict m) (he : dict.entryAt a = some e) :
    Within dict (m.insert a e) := by
  intro b f h
  rw [Std.TreeMap.getElem?_insert] at h
  split at h
  · rename_i heq
    cases h
    rwa [← Address.compare_eq_eq_iff.mp heq]
  · exact hm b f h

theorem Within.addPacket (hr : dict.Regular) (hm : Within dict m) {data : List (BitVec 8)}
    (h : Blocks.Tiled dict.records data) : Within dict (addPacket m data) := by
  have hall : ∀ e ∈ decodeParameterEntries data, dict.entryAt e.address = some e :=
    fun e he => Dictionary.mem_of_decode hr h he
  rw [Spoe.addPacket]
  generalize decodeParameterEntries data = es at hall
  induction es generalizing m with
  | nil => exact hm
  | cons e es ih =>
    exact ih (hm.insert (hall e List.mem_cons_self)) fun f hf => hall f (List.mem_cons_of_mem e hf)

theorem Within.readPackets (hr : dict.Regular) (ha : Answers dict replies) (hm : Within dict m)
    (n packet : ℕ) : Within dict (readPackets replies n packet m) := by
  induction n generalizing packet m with
  | zero => exact hm
  | succ n ih =>
    rcases hreply : replies.middle packet with msg | frame
    · simpa only [Spoe.readPackets, hreply] using hm
    · have hadd := hm.addPacket hr (ha.bulk packet frame hreply)
      simp only [Spoe.readPackets, hreply]
      split
      · exact hadd
      · exact ih hadd (packet + 1)

theorem within_readBulk (hr : dict.Regular) (ha : Answers dict replies) :
    Within dict (readBulk replies) := by
  unfold readBulk
  split
  · exact within_empty
  · split
    · exact within_empty.readPackets hr ha _ _
    · exact within_empty

theorem Loses.answers (h : Loses base replies) (ha : Answers dict base) : Answers dict replies where
  list := h.list ▸ ha.list
  bulk packet frame hreply := by
    rcases h.middle packet with heq | ⟨lost, hlost, hdata, -⟩
    · exact ha.bulk packet frame (heq ▸ hreply)
    · rw [hlost] at hreply
      cases hreply
      rw [hdata]
      exact Blocks.tiled_nil _
  paramDesc := h.paramDesc ▸ ha.paramDesc
  paramSubDesc := h.paramSubDesc ▸ ha.paramSubDesc

/-! ### The gaps -/

/-- The map says of the address what the dictionary does. -/
def Knows (dict : Dictionary) (m : EntriesByAddress) (a : Address) : Prop :=
  m[a]? = dict.entryAt a

/-- What every request of the filling keeps. -/
structure Fills (dict : Dictionary) (s t : Filling) : Prop where
  within : Within dict t.entries
  knows : ∀ a, Knows dict s.entries a → Knows dict t.entries a
  missing : t.missing = s.missing

theorem Fills.refl (h : Within dict s.entries) : Fills dict s s := ⟨h, fun _ => id, rfl⟩

theorem Fills.trans (hst : Fills dict s t) (htu : Fills dict t u) : Fills dict s u :=
  ⟨htu.within, fun a h => htu.knows a (hst.knows a h), htu.missing.trans hst.missing⟩

theorem getElem?_insertIfNew_of_none (h : m[a]? = none) :
    (m.insertIfNew a e)[b]? = if a = b then some e else m[b]? := by
  have hmem : a ∉ m := by
    rw [Std.TreeMap.mem_iff_isSome_getElem?, h]
    simp
  rw [Std.TreeMap.getElem?_insertIfNew]
  simp only [Address.compare_eq_eq_iff, hmem, not_false_eq_true, and_true]

theorem describe_ok (hr : dict.Regular) {frame : Frame} (hframe : frame.data = dict.record a) :
    describe (.ok frame) a s = (dict.entryAt a, s) := by
  simp only [describe, hframe, Dictionary.decode_record hr]
  rcases h : dict.entryAt a with _ | e
  · rfl
  · have ha := Dictionary.address_of_entryAt h
    simp [ha]

theorem obtainEntry_fills (hr : dict.Regular) (hw : Within dict s.entries)
    {reply : Except String Frame}
    (hreply : ∃ frame, reply = .ok frame ∧ frame.data = dict.record a) :
    (obtainEntry reply a s).1 = dict.entryAt a ∧ Fills dict s (obtainEntry reply a s).2 ∧
      Knows dict (obtainEntry reply a s).2.entries a := by
  obtain ⟨frame, rfl, hframe⟩ := hreply
  rcases hs : s.entries[a]? with _ | e
  · rcases hd : dict.entryAt a with _ | e
    · simp only [obtainEntry, hs, describe_ok hr hframe, hd]
      exact ⟨trivial, .refl hw, by rw [Knows, hs, hd]⟩
    · simp only [obtainEntry, hs, describe_ok hr hframe, hd]
      have hget := fun b => getElem?_insertIfNew_of_none (b := b) (e := e) hs
      refine ⟨trivial, ⟨fun b f hb => ?_, fun b hb => ?_, rfl⟩, ?_⟩
      · rw [hget] at hb
        split at hb
        · rename_i heq
          cases hb
          rwa [← heq]
        · exact hw b f hb
      · rw [Knows, hget]
        split
        · rename_i heq
          rw [← heq, hd]
        · exact hb
      · rw [Knows, hget, if_pos rfl, hd]
  · have he := hw a e hs
    simp only [obtainEntry, hs, he]
    exact ⟨trivial, .refl hw, by rw [Knows, hs, he]⟩

/-- The loop over the subindices settles those it counts. -/
theorem fillSubindices_fills (hr : dict.Regular) (ha : Answers dict replies)
    (hw : Within dict s.entries) (index : BitVec 16) (subindices : List ℕ) :
    Fills dict s (subindices.foldl (fillSubindex replies index) s) ∧
      ∀ i ∈ subindices, Knows dict (subindices.foldl (fillSubindex replies index) s).entries
        ⟨index, BitVec.ofNat 8 i⟩ := by
  induction subindices generalizing s with
  | nil => exact ⟨.refl hw, by simp⟩
  | cons i is ih =>
    obtain ⟨-, hfills, hknows⟩ := obtainEntry_fills hr hw
      (ha.paramSubDesc ⟨index, BitVec.ofNat 8 i⟩)
    obtain ⟨hrest, hall⟩ := ih hfills.within
    refine ⟨hfills.trans hrest, fun j hj => ?_⟩
    rcases List.mem_cons.mp hj with rfl | hj
    · exact hrest.knows _ hknows
    · exact hall j hj

/-- An entry after subindex 0 is among those the loop settles. -/
theorem knows_of_counted {index : BitVec 16} {n : ℕ}
    (hall : ∀ i ∈ List.range' 1 (min n 0xFF), Knows dict m ⟨index, BitVec.ofNat 8 i⟩)
    (hi : d.index = index) (hs : d.subindex ≠ 0) (hn : d.subindex.toNat ≤ n) :
    Knows dict m d.address := by
  have hpos : d.subindex.toNat ≠ 0 := fun h => hs (BitVec.eq_of_toNat_eq h)
  have hmem := hall d.subindex.toNat (by
    rw [List.mem_range'_1]
    omega)
  rw [BitVec.ofNat_toNat, BitVec.setWidth_eq] at hmem
  subst hi
  exact hmem

/-- An entry's object is in the dictionary, with a count that covers it. -/
theorem Dictionary.Listed.object {indexes : List (BitVec 16)} (h : dict.Listed indexes)
    (hd : d ∈ dict.descriptions) : ∃ o ∈ dict.descriptions, o.address = ⟨d.index, 0⟩ ∧
      dict.entryAt ⟨d.index, 0⟩ = some o.parameterEntry ∧
        d.subindex.toNat ≤ o.subindexCount.toNat := by
  obtain ⟨o, ho, haddress, hcount⟩ := h.counted d hd
  exact ⟨o, ho, haddress, haddress ▸ Dictionary.entryAt_of_mem ho, hcount⟩

/-- After its turn, every entry of the object is known. -/
theorem fillObject_fills (hr : dict.Regular) (ha : Answers dict replies)
    (hw : Within dict s.entries) (index : BitVec 16) :
    Fills dict s (fillObject replies s index) ∧
      ∀ d ∈ dict.descriptions, d.index = index →
        Knows dict (fillObject replies s index).entries d.address := by
  obtain ⟨hobject, hfills, hknows⟩ := obtainEntry_fills hr hw (ha.paramDesc ⟨index, 0⟩)
  obtain ⟨frame, -, hlisted⟩ := ha.list
  rw [fillObject]
  rcases hobtain : obtainEntry (replies.paramDesc ⟨index, 0⟩) ⟨index, 0⟩ s with ⟨object, t⟩
  rw [hobtain] at hobject hfills hknows
  cases object with
  | none =>
    refine ⟨hfills, ?_⟩
    rintro d hd rfl
    obtain ⟨o, -, -, h, -⟩ := hlisted.object hd
    rw [h] at hobject
    cases hobject
  | some object =>
    dsimp only
    split
    · obtain ⟨hrest, hall⟩ := fillSubindices_fills hr ha hfills.within index
        (List.range' 1 (min object.subindexCount.toNat 0xFF))
      refine ⟨hfills.trans hrest, ?_⟩
      rintro d hd rfl
      by_cases hs : d.subindex = 0
      · rw [Description.address, hs]
        exact hrest.knows _ hknows
      · obtain ⟨o, -, -, h, hcount⟩ := hlisted.object hd
        cases hobject.trans h
        exact knows_of_counted hall rfl hs hcount
    · rename_i hclosed
      refine ⟨hfills, ?_⟩
      rintro d hd rfl
      by_cases hs : d.subindex = 0
      · rw [Description.address, hs]
        exact hknows
      · obtain ⟨o, ho, haddress, h, -⟩ := hlisted.object hd
        cases hobject.trans h
        exact absurd (hr.isOpen d hd hs o ho haddress) hclosed

theorem fillObjects_fills (hr : dict.Regular) (ha : Answers dict replies)
    (hw : Within dict s.entries) (indexes : List (BitVec 16)) :
    Fills dict s (indexes.foldl (fillObject replies) s) ∧
      ∀ d ∈ dict.descriptions, d.index ∈ indexes →
        Knows dict (indexes.foldl (fillObject replies) s).entries d.address := by
  induction indexes generalizing s with
  | nil => exact ⟨.refl hw, by simp⟩
  | cons i is ih =>
    obtain ⟨hfills, hknows⟩ := fillObject_fills hr ha hw i
    obtain ⟨hrest, hall⟩ := ih hfills.within
    refine ⟨hfills.trans hrest, fun d hd hi => ?_⟩
    rcases List.mem_cons.mp hi with hi | hi
    · exact hrest.knows _ (hknows d hd hi)
    · exact hall d hd hi

theorem readObjectDictionary_eq (hr : dict.Regular) (ha : Answers dict replies) (position : ℕ) :
    ∃ m : EntriesByAddress, (∀ a, Knows dict m a) ∧
      readObjectDictionary position (some replies) = .ok ⟨m.toList.map (·.2.entry), 0⟩ := by
  obtain ⟨frame, hlist, hlisted⟩ := ha.list
  obtain ⟨hfills, hknows⟩ := fillObjects_fills (s := ⟨readBulk replies, 0⟩) hr ha
    (within_readBulk hr ha) (listedIndexes frame.data)
  simp only [readObjectDictionary, hlist]
  generalize (listedIndexes frame.data).foldl (fillObject replies) ⟨readBulk replies, 0⟩ = s at *
  refine ⟨s.entries, fun a => ?_, by rw [hfills.missing]⟩
  rcases hd : dict.entryAt a with _ | e
  · rcases hm : s.entries[a]? with _ | f
    · rw [Knows, hm, hd]
    · rw [hfills.within a f hm] at hd
      cases hd
  · obtain ⟨d, hmem, rfl, -⟩ := Dictionary.mem_of_entryAt hd
    exact hknows d hmem (hlisted.listed d hmem)

theorem exactly_of_knows (h : ∀ a, Knows dict m a) :
    OdRead.Exactly ⟨m.toList.map (·.2.entry), 0⟩ dict where
  mem_iff e := by
    simp only [List.mem_map, Prod.exists]
    constructor
    · rintro ⟨a, p, hmem, rfl⟩
      rw [Std.TreeMap.mem_toList_iff_getElem?_eq_some, h a] at hmem
      obtain ⟨d, hd, -, rfl⟩ := Dictionary.mem_of_entryAt hmem
      exact ⟨d, hd, rfl⟩
    · rintro ⟨d, hd, rfl⟩
      refine ⟨d.address, d.parameterEntry, ?_, rfl⟩
      rw [Std.TreeMap.mem_toList_iff_getElem?_eq_some, h d.address]
      exact Dictionary.entryAt_of_mem hd
  ordered := by
    rw [List.pairwise_map]
    have hsorted : m.toList.Pairwise fun x y => Address.compare x.1 y.1 = .lt :=
      Std.TreeMap.ordered_keys_toList
    refine hsorted.imp_of_mem fun {x y} hx hy hlt => ?_
    rw [Std.TreeMap.mem_toList_iff_getElem?_eq_some, h] at hx hy
    have hx : x.2.entry.address = x.1 := Dictionary.address_of_entryAt hx
    have hy : y.2.entry.address = y.1 := Dictionary.address_of_entryAt hy
    rw [hx, hy]
    exact Address.compare_eq_lt_iff.mp hlt
  missing := rfl

/-- However many packets are lost, and whichever they are. -/
theorem read_exactly_of_regular (hr : dict.Regular) (ha : Answers dict base)
    {first second : DictionaryReplies} (h₁ : Loses base first) (h₂ : Loses base second)
    (position : ℕ) :
    ∃ od, readObjectDictionary position (some first) = .ok od ∧
      readObjectDictionary position (some second) = .ok od ∧ od.Exactly dict := by
  obtain ⟨m₁, hm₁, hread₁⟩ := readObjectDictionary_eq hr (h₁.answers ha) position
  obtain ⟨m₂, hm₂, hread₂⟩ := readObjectDictionary_eq hr (h₂.answers ha) position
  have heq : m₁.toList = m₂.toList := by
    have hequiv : m₁.Equiv m₂ := Std.TreeMap.Equiv.of_forall_constGet?_eq fun a =>
      (hm₁ a).trans (hm₂ a).symm
    exact hequiv.toList_eq
  exact ⟨_, hread₁, heq ▸ hread₂, exactly_of_knows hm₁⟩

/-! ### Two dictionaries -/

/-- The replies of a drive that sends its dictionary in these packets. -/
def repliesIn (dict : Dictionary) (indexes : List (BitVec 16)) (packets : List (List Description)) :
    DictionaryReplies where
  list := .ok ⟨MessageType.kParamList.code, 1, 0, indexes.flatMap fun i => Bytes.encode 2 i.toNat⟩
  first := .ok ⟨MessageType.kParamFullDesc.code, 1, 0xC058, []⟩
  middle packet :=
    match packets[packet]? with
    | some ds => .ok ⟨MessageType.kParamFullDesc.code, 1,
        if packet + 1 = packets.length then 0x4058 else 0xC058, (ds.map (·.bytes)).flatten⟩
    | none => .error "timeout"
  paramDesc address := .ok ⟨MessageType.kParamDesc.code, 1, 0, dict.record address⟩
  paramSubDesc address := .ok ⟨MessageType.kParamSubDesc.code, 1, 0, dict.record address⟩

def DictionaryReplies.losing (replies : DictionaryReplies) (packet : ℕ) : DictionaryReplies :=
  { replies with
    middle := fun k => if k = packet then .ok ⟨MessageType.kParamFullDesc.code, 1, 0xC028, []⟩
      else replies.middle k }

theorem loses_self (replies : DictionaryReplies) : Loses replies replies :=
  ⟨rfl, rfl, fun _ => Or.inl rfl, rfl, rfl⟩

theorem loses_losing (replies : DictionaryReplies) (packet : ℕ) :
    Loses replies (replies.losing packet) := by
  refine ⟨rfl, rfl, fun k => ?_, rfl, rfl⟩
  by_cases h : k = packet
  · exact Or.inr ⟨_, if_pos h, rfl, by decide⟩
  · exact Or.inl (if_neg h)

theorem answers_repliesIn {indexes : List (BitVec 16)} {packets : List (List Description)}
    (hl : dict.Listed (listedIndexes (indexes.flatMap fun i => Bytes.encode 2 i.toNat)))
    (hp : ∀ ds ∈ packets, ∀ d ∈ ds, d ∈ dict.descriptions) :
    Answers dict (repliesIn dict indexes packets) where
  list := ⟨_, rfl, hl⟩
  bulk packet frame h := by
    simp only [repliesIn] at h
    split at h
    · rename_i ds hds
      cases h
      refine ⟨ds.map (·.bytes), fun block hb => ?_, rfl⟩
      obtain ⟨d, hd, rfl⟩ := List.mem_map.mp hb
      exact List.mem_cons_of_mem _ (List.mem_map_of_mem (hp ds (List.mem_of_getElem? hds) d hd))
    · cases h
  paramDesc address := ⟨_, rfl, rfl⟩
  paramSubDesc address := ⟨_, rfl, rfl⟩

def describes (index : BitVec 16) (subindex objectCode : BitVec 8) (subindexCount : BitVec 32) :
    Description :=
  ⟨index, subindex, 0, 0x0007, objectCode, 32, 0x07, subindexCount, [], by simp, by simp⟩

def oneObject (objectCode : BitVec 8) : Dictionary where
  descriptions := [describes 0x1018 0 objectCode 1, describes 0x1018 1 0x07 0]
  distinct := by simp [describes, Description.address]

def oneObjectReplies (objectCode : BitVec 8) : DictionaryReplies :=
  repliesIn (oneObject objectCode) [0x1018]
    [[describes 0x1018 0 objectCode 1], [describes 0x1018 1 0x07 0]]

theorem oneObject_answers (objectCode : BitVec 8) :
    Answers (oneObject objectCode) (oneObjectReplies objectCode) := by
  refine answers_repliesIn ⟨fun d hd => ?_, fun d hd => ?_⟩ ?_
  · have hlisted : listedIndexes ([(0x1018 : BitVec 16)].flatMap fun i =>
        Bytes.encode 2 i.toNat) = [0x1018] := by decide
    rw [hlisted]
    simp only [oneObject, List.mem_cons, List.not_mem_nil, or_false] at hd
    rcases hd with rfl | rfl <;> simp [describes]
  · refine ⟨describes 0x1018 0 objectCode 1, by simp [oneObject], ?_⟩
    simp only [oneObject, List.mem_cons, List.not_mem_nil, or_false] at hd
    rcases hd with rfl | rfl <;> simp [describes, Description.address]
  · simp [oneObject]

theorem record_regular : (oneObject 0x09).Regular := by
  refine ⟨fun d hd => ?_, fun d hd hs o ho haddress => ?_⟩
  · simp only [oneObject, List.mem_cons, List.not_mem_nil, or_false] at hd
    rcases hd with rfl | rfl <;> simp [describes]
  · simp only [oneObject, List.mem_cons, List.not_mem_nil, or_false] at ho
    rcases ho with rfl | rfl
    · decide
    · simp [describes, Description.address] at haddress

/-- A record whose entry's packet is lost. -/
theorem lostRecordEntry_read_exactly :
    ∃ od, readObjectDictionary 1 (some (oneObjectReplies 0x09)) = .ok od ∧
      readObjectDictionary 1 (some ((oneObjectReplies 0x09).losing 1)) = .ok od ∧
        od.Exactly (oneObject 0x09) :=
  read_exactly_of_regular record_regular (oneObject_answers 0x09) (loses_self _)
    (loses_losing _ 1) 1

/-- An entry after subindex 0 of a VAR is delivered by the bulk list, and not asked for when its
packet is lost. -/
theorem lostVarEntry_not_filled :
    Answers (oneObject 0x07) (oneObjectReplies 0x07) ∧
      Loses (oneObjectReplies 0x07) (oneObjectReplies 0x07) ∧
      Loses (oneObjectReplies 0x07) ((oneObjectReplies 0x07).losing 1) ∧
      readObjectDictionary 1 (some (oneObjectReplies 0x07)) =
        .ok ⟨(oneObject 0x07).descriptions.map (·.parameterEntry.entry), 0⟩ ∧
      readObjectDictionary 1 (some ((oneObjectReplies 0x07).losing 1)) =
        .ok ⟨[(describes 0x1018 0 0x07 1).parameterEntry.entry], 0⟩ :=
  ⟨oneObject_answers 0x07, loses_self _, loses_losing _ 1, by decide +kernel, by decide +kernel⟩

end MotionMaster.Spoe
