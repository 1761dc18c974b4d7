import MotionMaster.Device.Mapping
import MotionMaster.ProcessImage.Compose

/-!
# The layout of the process image

For every driver layout with separate windows and every mapping a device can report: the fields of
the built image stay in their windows and share no bit, so each output reads back and each input is
decoded as if it were alone.
-/

namespace MotionMaster

open Bytes

def PdoLayout.bytes (layout : PdoLayout) : Direction → ℕ
  | .output => layout.outputBytes
  | .input => layout.inputBytes

def Window.Covers (w : Window) (i : ℕ) : Prop :=
  8 * w.offset ≤ i ∧ i < 8 * (w.offset + w.bytes)

def SlaveIo.NoOverlap (dir : Direction) (a b : SlaveIo) : Prop :=
  ∀ i, (a.window dir).Covers i → ¬ (b.window dir).Covers i

instance (dir : Direction) : Std.Symm (SlaveIo.NoOverlap dir) :=
  ⟨fun _ _ h i hb ha => h i ha hb⟩

/-- The windows of a direction lie in its image and share no bit. -/
structure PdoLayout.Windowed (layout : PdoLayout) : Prop where
  inside : ∀ dir, ∀ io ∈ layout.slaves, ∀ i, (io.window dir).Covers i → i < 8 * layout.bytes dir
  apart : ∀ dir, layout.slaves.Pairwise (SlaveIo.NoOverlap dir)

variable {layout : PdoLayout} {image : ProcessImage} {devices : List Device} {d : Device}
  {io : SlaveIo} {dir : Direction} {e : ProcessImageEntry}

structure Arranged (layout : PdoLayout) (dir : Direction) (entries : List ProcessImageEntry) :
    Prop where
  /-- No entry reaches outside its device's window. -/
  windowed : ∀ e ∈ entries, ∃ io, layout.window e.slavePosition = some io ∧
    ∀ i, e.Covers i → (io.window dir).Covers i
  apart : entries.Pairwise ProcessImageEntry.NoOverlap
  addressable : ∀ e ∈ entries, e.bitOffset + e.bitLength ≤ 2 ^ 32

/-- A window with a byte in it ends before the capacity, so no offset in it wraps. -/
theorem Window.offset_le {w : Window} {bytes : ℕ} (hin : ∀ i, w.Covers i → i < 8 * bytes)
    (hb : bytes ≤ kMaxProcessImageBytes) (hpos : 0 < w.bytes) : w.offset + w.bytes ≤ 32768 := by
  have hlast := hin (8 * (w.offset + w.bytes) - 1) ⟨by omega, by omega⟩
  unfold kMaxProcessImageBytes at hb
  omega

/-- A field of a mapping that fits its window: its bits are where the running offset says. -/
theorem covers_resolveEntry {w : Window} {bytes : ℕ} (hin : ∀ i, w.Covers i → i < 8 * bytes)
    (hb : bytes ≤ kMaxProcessImageBytes) {words : List (BitVec 32)}
    (hm : totalBits (flatten 0 words) ≤ w.bytes * 8 % 2 ^ 32) {m : PdoMappingEntry}
    (hmem : m ∈ flatten 0 words) :
    (resolveEntry d w.offset m).bitOffset + m.bitLength ≤ 2 ^ 32 ∧
      ∀ i, (resolveEntry d w.offset m).Covers i →
        w.Covers i ∧ 8 * w.offset + m.bitOffset ≤ i ∧
          i < 8 * w.offset + m.bitOffset + m.bitLength := by
  have hf := (mem_flatten hmem).2
  by_cases hlen : m.bitLength = 0
  · have hmod : (resolveEntry d w.offset m).bitOffset < 2 ^ 32 := Nat.mod_lt _ (by omega)
    refine ⟨by omega, ?_⟩
    rintro i ⟨h1, h2⟩
    have hl : (resolveEntry d w.offset m).bitLength = m.bitLength := rfl
    omega
  · have hw := Window.offset_le hin hb (by omega)
    have ho : (resolveEntry d w.offset m).bitOffset = w.offset * 8 + m.bitOffset :=
      bitOffset_resolveEntry (by omega)
    refine ⟨by omega, ?_⟩
    rintro i ⟨h1, h2⟩
    have hl : (resolveEntry d w.offset m).bitLength = m.bitLength := rfl
    unfold Window.Covers
    omega

theorem entries_readFlatPdoMapping (outputs inputs : List (BitVec 32)) (dir : Direction) :
    ∃ words, (readFlatPdoMapping outputs inputs).entries dir = flatten 0 words ∧
      (readFlatPdoMapping outputs inputs).bits dir = totalBits (flatten 0 words) := by
  cases dir with
  | output => exact ⟨outputs, rfl, rfl⟩
  | input => exact ⟨inputs, rfl, rfl⟩

theorem fieldsOf_windowed (hl : layout.Windowed) (hb : layout.bytes dir ≤ kMaxProcessImageBytes)
    (hf : ∃ source : MappingSource, source.read = .ok d.flatPdoMapping)
    (hfit : Fitting layout dir d) (hw : layout.window d.slavePosition = some io) :
    (∀ e ∈ fieldsOf layout dir d, e.slavePosition = d.slavePosition ∧
        e.bitOffset + e.bitLength ≤ 2 ^ 32 ∧ ∀ i, e.Covers i → (io.window dir).Covers i) ∧
      (fieldsOf layout dir d).Pairwise ProcessImageEntry.NoOverlap := by
  obtain ⟨source, hsource⟩ := hf
  obtain ⟨outputs, inputs, hf⟩ := MappingSource.read_flatten hsource
  obtain ⟨words, hentries, hbits⟩ := entries_readFlatPdoMapping outputs inputs dir
  rw [← hf] at hentries hbits
  have hin := hl.inside dir io (List.mem_of_find?_eq_some hw)
  by_cases hne : flatten 0 words = []
  · simp [fieldsOf, hw, hentries, hne]
  · obtain ⟨io', hw', hm⟩ := hfit (hentries ▸ hne)
    cases hw'.symm.trans hw
    rw [hbits, Nat.not_lt] at hm
    simp only [fieldsOf, hw, hentries]
    constructor
    · intro e he
      obtain ⟨m, hmem, rfl⟩ := List.mem_map.mp he
      obtain ⟨haddr, hcov⟩ := covers_resolveEntry (d := d) hin hb hm (List.mem_filter.mp hmem).1
      exact ⟨rfl, haddr, fun i hi => (hcov i hi).1⟩
    · rw [List.pairwise_map]
      refine ((pairwise_flatten 0 words).sublist List.filter_sublist).imp_of_mem ?_
      intro a b ha hb' hab i hia hib
      have hca := (covers_resolveEntry hin hb hm (List.mem_filter.mp ha).1).2 i hia
      have hcb := (covers_resolveEntry hin hb hm (List.mem_filter.mp hb').1).2 i hib
      omega

/-- Fields in the windows of two slaves share no bit. -/
theorem noOverlap_of_windows (hl : layout.Windowed) {p q : ℕ} (hpq : p ≠ q) {io' : SlaveIo}
    (hp : layout.window p = some io) (hq : layout.window q = some io') {a b : ProcessImageEntry}
    (ha : ∀ i, a.Covers i → (io.window dir).Covers i)
    (hb : ∀ i, b.Covers i → (io'.window dir).Covers i) : a.NoOverlap b := by
  have hw := (hl.apart dir).forall (List.mem_of_find?_eq_some hp) (List.mem_of_find?_eq_some hq)
    (window_ne hpq hp hq)
  exact fun i hia hib => hw i (ha i hia) (hb i hib)

theorem arranged_buildProcessImage (hl : layout.Windowed)
    (hd : (devices.map (·.slavePosition)).Nodup)
    (hf : ∀ d ∈ devices, ∃ source : MappingSource, source.read = .ok d.flatPdoMapping)
    (h : buildProcessImage layout devices = .ok image) (dir : Direction) :
    Arranged layout dir (image.entries dir) ∧ image.outputBytes = layout.outputBytes ∧
      image.entries dir = devices.flatMap (fieldsOf layout dir) ∧
      ∀ d ∈ devices, Fitting layout dir d := by
  simp only [buildProcessImage] at h
  split at h
  · cases h
  · have hb : layout.bytes dir ≤ kMaxProcessImageBytes := by
      cases dir <;> simp only [PdoLayout.bytes] <;> omega
    obtain ⟨he, hfit, hbytes, -⟩ := foldlM_addDevice dir h
    have hentries : image.entries dir = devices.flatMap (fieldsOf layout dir) := by
      rw [he]
      cases dir <;> rfl
    have hfields : ∀ e ∈ image.entries dir, ∃ io, layout.window e.slavePosition = some io ∧
        e.bitOffset + e.bitLength ≤ 2 ^ 32 ∧ ∀ i, e.Covers i → (io.window dir).Covers i := by
      intro e hmem
      rw [hentries] at hmem
      obtain ⟨d, hdm, hmem⟩ := List.mem_flatMap.mp hmem
      obtain ⟨io, m, hw, -⟩ := mem_fieldsOf hmem
      obtain ⟨hpos, haddr, hcov⟩ :=
        (fieldsOf_windowed hl hb (hf d hdm) (hfit d hdm) hw).1 e hmem
      exact ⟨io, hpos ▸ hw, haddr, hcov⟩
    refine ⟨⟨fun e hmem => ?_, ?_, fun e hmem => ?_⟩, hbytes, hentries, hfit⟩
    · obtain ⟨io, hw, -, hcov⟩ := hfields e hmem
      exact ⟨io, hw, hcov⟩
    · rw [hentries]
      refine pairwise_flatMap_fields hd (fun d hdm => ?_) ?_
      · cases hw : layout.window d.slavePosition with
        | none => simp [fieldsOf, hw]
        | some io => exact (fieldsOf_windowed hl hb (hf d hdm) (hfit d hdm) hw).2
      · intro d hdm d' hdm' hne a ha b hbm
        obtain ⟨io, -, hw, -⟩ := mem_fieldsOf ha
        obtain ⟨io', -, hw', -⟩ := mem_fieldsOf hbm
        exact noOverlap_of_windows hl hne hw hw'
          ((fieldsOf_windowed hl hb (hf d hdm) (hfit d hdm) hw).1 a ha).2.2
          ((fieldsOf_windowed hl hb (hf d' hdm') (hfit d' hdm') hw').1 b hbm).2.2
    · obtain ⟨io, -, haddr, -⟩ := hfields e hmem
      exact haddr

/-! ### Outputs read back -/

variable {cells : ℕ → Device}

def lowBits (bits : BitVec 64) (bitLength : ℕ) : BitVec 64 := (bits.setWidth bitLength).setWidth 64

theorem extractBits_compose (ha : Arranged layout .output image.outputs)
    (hin : ∀ e ∈ image.outputs, ∀ i, e.Covers i → i < 8 * image.outputBytes)
    (he : e ∈ image.outputs) {bits : BitVec 64} (hbits : loadBits cells e = some bits)
    (hlen : e.bitLength ≤ 64) :
    packLeBits (extractBits (compose cells image) e.bitOffset e.bitLength 8) =
      lowBits bits e.bitLength := by
  refine BitVec.eq_of_getLsbD_eq fun j hj => ?_
  rw [getLsbD_packLeBits _ hj, bit_extractBits (ha.addressable e he)]
  have hlow : (lowBits bits e.bitLength).getLsbD j =
      (decide (j < e.bitLength) && bits.getLsbD j) := by
    simp [lowBits, hj]
  rw [hlow]
  by_cases hje : j < e.bitLength
  · have hfit : e.bitOffset + e.bitLength ≤ 8 * image.outputBytes := by
      have hlast := hin e he (e.bitOffset + e.bitLength - 1) ⟨by omega, by omega⟩
      omega
    have hsent : bit (compose cells image) (e.bitOffset + j) = sentBit cells e j :=
      bit_foldl_inside ha.apart ha.addressable (by simpa using hfit) he hje
        (bit_replicate_zero _ _)
    have hcell : sentBit cells e j = bits.getLsbD j := by
      simp [sentBit, hbits, bit_unpackLeBits, hj]
    rw [hsent, hcell]
    simp [hje, hj]
  · simp [hje]

/-- A bit no bound field covers goes out as zero. -/
theorem bit_compose_uncovered (ha : Arranged layout .output image.outputs) {i : ℕ}
    (hi : ∀ e ∈ image.outputs, (loadBits cells e).isSome → ¬ e.Covers i) :
    bit (compose cells image) i = false := by
  rw [compose, bit_foldl_outside ha.addressable hi, bit_replicate_zero]

/-! ### Inputs are decoded -/

variable {exchanging : ℕ → Bool} {inputs : List (BitVec 8)} {p k : ℕ}

/-- The entry stores into cell `k` of the device at `p`. -/
def ProcessImageEntry.Binds (e : ProcessImageEntry) (p k : ℕ) : Prop :=
  e.slavePosition = p ∧ e.parameter = some k

theorem cells_decodeOne_of_binds (hb : e.Binds p k) (hx : exchanging p = true) :
    (decodeOne exchanging inputs cells e p).cells[k]? = (cells p).cells[k]?.map fun c =>
      { c with bits := packLeBits (extractBits inputs e.bitOffset e.bitLength 8) } := by
  obtain ⟨rfl, hk⟩ := hb
  simp [decodeOne, hk, hx, storeBits]

theorem cells_decodeOne_of_not_binds (hb : e.Binds p k → exchanging p = false) :
    (decodeOne exchanging inputs cells e p).cells[k]? = (cells p).cells[k]? := by
  cases hn : e.parameter with
  | none => simp only [decodeOne, hn]
  | some n =>
    simp only [decodeOne, hn]
    split
    · rename_i hx
      unfold storeBits
      by_cases hp : p = e.slavePosition
      · subst hp
        have hnk : n ≠ k := by
          rintro rfl
          exact Bool.noConfusion (hx.symm.trans (hb ⟨rfl, hn⟩))
        simp [hnk]
      · rw [Function.update_of_ne hp]
    · rfl

theorem cells_foldl_of_not_binds {es : List ProcessImageEntry}
    (hb : ∀ e ∈ es, e.Binds p k → exchanging p = false) :
    (es.foldl (decodeOne exchanging inputs) cells p).cells[k]? = (cells p).cells[k]? := by
  induction es generalizing cells with
  | nil => rfl
  | cons e es ih =>
    obtain ⟨he, hes⟩ := List.forall_mem_cons.mp hb
    rw [List.foldl_cons, ih hes, cells_decodeOne_of_not_binds he]

/-- Decoding changes a cell in its bits only. -/
theorem cells_foldl_decodeOne (es : List ProcessImageEntry) {c : DeviceParameter}
    (hc : (cells p).cells[k]? = some c) :
    ∃ b, (es.foldl (decodeOne exchanging inputs) cells p).cells[k]? =
      some { c with bits := b } := by
  induction es generalizing cells c with
  | nil => exact ⟨c.bits, hc⟩
  | cons e es ih =>
    by_cases hb : e.Binds p k ∧ exchanging p = true
    · have hstep : (decodeOne exchanging inputs cells e p).cells[k]? = _ :=
        cells_decodeOne_of_binds hb.1 hb.2
      rw [hc, Option.map_some] at hstep
      obtain ⟨b, hb'⟩ := ih hstep
      exact ⟨b, hb'⟩
    · have hskip : e.Binds p k → exchanging p = false := fun hbind =>
        Bool.eq_false_iff.mpr fun hx => hb ⟨hbind, hx⟩
      exact ih (by rw [cells_decodeOne_of_not_binds hskip, hc])

/-- The last entry bound to a cell gives it the bits of its field, as many as the cell holds. -/
theorem decoded_last {pre post : List ProcessImageEntry}
    (hs : e.bitOffset + e.bitLength ≤ 2 ^ 32) (hb : e.Binds p k)
    (hlast : ∀ f ∈ post, ¬ f.Binds p k) (hx : exchanging p = true) {c : DeviceParameter}
    (hc : (cells p).cells[k]? = some c) :
    ∃ b, ((pre ++ e :: post).foldl (decodeOne exchanging inputs) cells p).cells[k]? =
        some { c with bits := b } ∧
      ∀ j < 64, b.getLsbD j = (decide (j < e.bitLength) && bit inputs (e.bitOffset + j)) := by
  obtain ⟨b, hpre⟩ : ∃ b, (pre.foldl (decodeOne exchanging inputs) cells p).cells[k]? =
      some { c with bits := b } := cells_foldl_decodeOne pre hc
  refine ⟨packLeBits (extractBits inputs e.bitOffset e.bitLength 8), ?_, fun j hj => ?_⟩
  · rw [List.foldl_append, List.foldl_cons,
      cells_foldl_of_not_binds fun f hf hbind => absurd hbind (hlast f hf),
      cells_decodeOne_of_binds hb hx, hpre]
    rfl
  · rw [getLsbD_packLeBits _ hj, bit_extractBits hs]
    have h64 : (j < e.bitLength ∧ j < 8 * 8) ↔ j < e.bitLength := by omega
    simp only [h64]

/-- What a built image does with the cells and with what the bus sends. -/
structure Faithful (layout : PdoLayout) (devices : List Device) (image : ProcessImage) : Prop where
  /-- Each mapped object that is no padding has its entry, at its place in its device's window. -/
  mapped : ∀ dir, ∀ d ∈ devices, ∀ m ∈ d.flatPdoMapping.entries dir, ¬ IsPadding d m →
    ∃ io, layout.window d.slavePosition = some io ∧
      resolveEntry d (io.window dir).offset m ∈ image.entries dir
  /-- Each bound output of at most 64 bits reads back. -/
  sent : ∀ (cells : ℕ → Device) (e : ProcessImageEntry) (bits : BitVec 64), e ∈ image.outputs →
    loadBits cells e = some bits → e.bitLength ≤ 64 →
    packLeBits (extractBits (compose cells image) e.bitOffset e.bitLength 8) =
      lowBits bits e.bitLength
  /-- Every bit no bound entry covers is zero. -/
  zero : ∀ (cells : ℕ → Device) (i : ℕ),
    (∀ e ∈ image.outputs, (loadBits cells e).isSome → ¬ e.Covers i) →
    bit (compose cells image) i = false
  /-- Each cell bound by an input of an exchanging device holds the bits of the last such entry. -/
  received : ∀ (exchanging : ℕ → Bool) (inputs : List (BitVec 8)) (cells : ℕ → Device)
    (pre post : List ProcessImageEntry) (e : ProcessImageEntry) (p k : ℕ) (c : DeviceParameter),
    image.inputs = pre ++ e :: post → e.Binds p k → (∀ f ∈ post, ¬ f.Binds p k) →
    exchanging p = true → (cells p).cells[k]? = some c →
    ∃ b, (decodeInputsIntoCells exchanging inputs cells image p).cells[k]? =
        some { c with bits := b } ∧
      ∀ j < 64, b.getLsbD j = (decide (j < e.bitLength) && bit inputs (e.bitOffset + j))
  /-- No other cell changes. -/
  untouched : ∀ (exchanging : ℕ → Bool) (inputs : List (BitVec 8)) (cells : ℕ → Device) (p k : ℕ),
    (∀ e ∈ image.inputs, e.Binds p k → exchanging p = false) →
    (decodeInputsIntoCells exchanging inputs cells image p).cells[k]? = (cells p).cells[k]?
  /-- No entry reaches outside its device's window. -/
  windowed : ∀ dir, ∀ e ∈ image.entries dir, ∃ io, layout.window e.slavePosition = some io ∧
    ∀ i, e.Covers i → (io.window dir).Covers i

theorem faithful_buildProcessImage (hl : layout.Windowed)
    (hd : (devices.map (·.slavePosition)).Nodup)
    (hf : ∀ d ∈ devices, ∃ source : MappingSource, source.read = .ok d.flatPdoMapping)
    (h : buildProcessImage layout devices = .ok image) : Faithful layout devices image := by
  obtain ⟨hout, hbytes, -⟩ := arranged_buildProcessImage hl hd hf h .output
  obtain ⟨hin, -⟩ := arranged_buildProcessImage hl hd hf h .input
  have hinside : ∀ e ∈ image.outputs, ∀ i, e.Covers i → i < 8 * image.outputBytes := by
    intro e he i hi
    obtain ⟨io, hw, hcov⟩ := hout.windowed e he
    rw [hbytes]
    exact hl.inside .output io (List.mem_of_find?_eq_some hw) i (hcov i hi)
  constructor
  · intro dir d hdm m hm hpad
    obtain ⟨-, -, hentries, hfit⟩ := arranged_buildProcessImage hl hd hf h dir
    obtain ⟨io, hw, -⟩ := hfit d hdm (List.ne_nil_of_mem hm)
    refine ⟨io, hw, hentries ▸ List.mem_flatMap.mpr ⟨d, hdm, ?_⟩⟩
    simp only [fieldsOf, hw]
    exact List.mem_map_of_mem (List.mem_filter.mpr ⟨hm, by simpa using hpad⟩)
  · intro cells e bits he hbits hlen
    exact extractBits_compose hout hinside he hbits hlen
  · intro cells i hi
    exact bit_compose_uncovered hout hi
  · intro exchanging inputs cells pre post e p k c himage hb hlast hx hc
    have he : e ∈ image.inputs := by simp [himage]
    unfold decodeInputsIntoCells
    rw [himage]
    exact decoded_last (hin.addressable e he) hb hlast hx hc
  · intro exchanging inputs cells p k hb
    exact cells_foldl_of_not_binds hb
  · intro dir
    cases dir with
    | output => exact hout.windowed
    | input => exact hin.windowed

/-- A device that reports one PDO with the given words, read into one cell. -/
def reporting (pdoIndex : ℕ) (words : List (BitVec 32)) : AssignmentReplies :=
  ⟨.ok [1], fun _ => .ok (encode 2 pdoIndex), fun _ => .ok (encode 1 words.length),
    fun _ e => .ok (encode 4 (words.getD (e - 1) 0).toNat)⟩

def positionDevice (position : ℕ) (inputs : List (BitVec 32)) : Device :=
  ⟨position, 0x22D2, [⟨0x6040, 0, 0x0006, 16, 0x0F, [], .unknown, {}, .objectDictionary⟩,
      ⟨0x6064, 0, 0x0004, 32, 0, [], .unknown, {}, .objectDictionary⟩],
    fun x => [((0x6040, 0), 0), ((0x6064, 0), 1)].lookup x,
    readFlatPdoMapping [0x60400010] inputs⟩

def positionLayout : PdoLayout := ⟨4, 16, [⟨1, 0, 2, 0, 8⟩, ⟨2, 2, 2, 8, 8⟩], 3⟩

theorem positionLayout_windowed : positionLayout.Windowed where
  inside dir io hio i hi := by
    rcases List.mem_pair.mp hio with rfl | rfl <;> cases dir <;>
      simp [Window.Covers, SlaveIo.window, positionLayout, PdoLayout.bytes] at hi ⊢ <;> omega
  apart dir := by
    refine List.pairwise_pair.mpr fun i ha hb => ?_
    cases dir <;> simp [Window.Covers, SlaveIo.window] at ha hb <;> omega

/-- Two drives, whose control words are sent and whose positions are decoded. -/
def positionDrives : List Device :=
  [positionDevice 1 [0x60640020], positionDevice 2 [0x60640020]]

def positionImage : ProcessImage :=
  ⟨[⟨1, 0x6040, 0, 16, 0, some 0⟩, ⟨2, 0x6040, 0, 16, 16, some 0⟩],
    [⟨1, 0x6064, 0, 32, 0, some 1⟩, ⟨2, 0x6064, 0, 32, 64, some 1⟩], 4, 16, 3⟩

theorem position_received :
    buildProcessImage positionLayout positionDrives = .ok positionImage ∧
      Faithful positionLayout positionDrives positionImage := by
  have hbuild : buildProcessImage positionLayout positionDrives = .ok positionImage := by
    decide +kernel
  refine ⟨hbuild, faithful_buildProcessImage positionLayout_windowed (by decide) ?_ hbuild⟩
  intro d hd
  obtain ⟨position, rfl⟩ : ∃ position, d = positionDevice position [0x60640020] := by
    rcases List.mem_pair.mp hd with rfl | rfl
    · exact ⟨1, rfl⟩
    · exact ⟨2, rfl⟩
  exact ⟨.coe (reporting 0x1600 [0x60400010]) (reporting 0x1A00 [0x60640020]), rfl⟩

/-- The position mapped twice: two fields, one cell. -/
def twiceMapped : ProcessImage :=
  ⟨[⟨1, 0x6040, 0, 16, 0, some 0⟩],
    [⟨1, 0x6064, 0, 32, 0, some 1⟩, ⟨1, 0x6064, 0, 32, 32, some 1⟩], 4, 16, 3⟩

/-- The cell ends up with the bits of the second field, not of the first. -/
theorem twiceMapped_first_lost :
    (∃ source : MappingSource,
        source.read = .ok (positionDevice 1 [0x60640020, 0x60640020]).flatPdoMapping) ∧
      positionLayout.Windowed ∧
      buildProcessImage positionLayout [positionDevice 1 [0x60640020, 0x60640020]] =
        .ok twiceMapped ∧
      ∃ e ∈ twiceMapped.inputs, e.Binds 1 1 ∧
        ((decodeInputsIntoCells (fun _ => true) [1, 2, 3, 4, 5, 6, 7, 8]
          (fun _ => positionDevice 1 [0x60640020, 0x60640020]) twiceMapped 1).cells[1]?.map
            (·.bits)) ≠
          some (packLeBits (extractBits [1, 2, 3, 4, 5, 6, 7, 8] e.bitOffset e.bitLength 8)) :=
  ⟨⟨.coe (reporting 0x1600 [0x60400010]) (reporting 0x1A00 [0x60640020, 0x60640020]), rfl⟩,
    positionLayout_windowed, by decide +kernel,
    ⟨1, 0x6064, 0, 32, 0, some 1⟩, by decide, ⟨rfl, rfl⟩, by decide +kernel⟩

end MotionMaster
