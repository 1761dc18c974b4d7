import Mathlib.Data.List.Forall2
import Mathlib.Order.Bounds.Basic

/-! The part of an ENI document that describes cyclic process data: where each device's data sits
in the image of its direction, and the logical write and read that exchange the two images. -/
namespace MotionMaster.Eni

/-- One FMMU as programmed on a slave's ESC. -/
structure FmmuConfig where
  index : BitVec 8 := 0
  logicalStart : BitVec 32 := 0
  length : BitVec 16 := 0
  logicalStartBit : BitVec 8 := 0
  logicalEndBit : BitVec 8 := 0
  physicalStart : BitVec 16 := 0
  physicalStartBit : BitVec 8 := 0
  type : BitVec 8 := 0
  active : BitVec 8 := 0
  deriving DecidableEq, Repr

inductive Direction
  | output
  | input
  deriving DecidableEq, Repr

def kFmmuRead : BitVec 8 := 0x01
def kFmmuWrite : BitVec 8 := 0x02
def kMacBytes : ℕ := 6

/-- The image an FMMU maps. Both loops pass over an inactive FMMU and one of neither type, and ask
for the write bit first. -/
def FmmuConfig.direction? (fmmu : FmmuConfig) : Option Direction :=
  if fmmu.active = 0 then none
  else if fmmu.type &&& kFmmuWrite ≠ 0 then some .output
  else if fmmu.type &&& kFmmuRead ≠ 0 then some .input
  else none

structure SlaveConfigInfo where
  fmmus : List FmmuConfig := []
  deriving DecidableEq, Repr

/-- The FMMUs of a device that are active in one direction, in the order they are reported. -/
def SlaveConfigInfo.active (info : SlaveConfigInfo) (d : Direction) : List FmmuConfig :=
  info.fmmus.filter (·.direction? = some d)

/-- `outputBase` and `outputFmmus`, or the same for the inputs. -/
structure Half where
  base : BitVec 32 := BitVec.allOnes 32
  fmmus : ℕ := 0

def Half.add (half : Half) (fmmu : FmmuConfig) : Half where
  base := if fmmu.logicalStart < half.base then fmmu.logicalStart else half.base
  fmmus := half.fmmus + 1

structure Halves where
  output : Half := {}
  input : Half := {}

def Halves.add (halves : Halves) (fmmu : FmmuConfig) : Halves :=
  match fmmu.direction? with
  | none => halves
  | some .output => { halves with output := halves.output.add fmmu }
  | some .input => { halves with input := halves.input.add fmmu }

def Halves.half (halves : Halves) : Direction → Half
  | .output => halves.output
  | .input => halves.input

/-- The first pass, over every FMMU of every device. -/
def findHalves (busConfig : List SlaveConfigInfo) : Halves :=
  busConfig.foldl (fun halves info => info.fmmus.foldl Halves.add halves) {}

structure EniProcessDataWindow where
  bitStart : BitVec 32
  bitLength : BitVec 32
  deriving DecidableEq, Repr

structure EniProcessData where
  send : Option EniProcessDataWindow := none
  recv : Option EniProcessDataWindow := none
  deriving DecidableEq, Repr

def EniProcessData.window (processData : EniProcessData) : Direction → Option EniProcessDataWindow
  | .output => processData.send
  | .input => processData.recv

def FmmuConfig.window (fmmu : FmmuConfig) (base : BitVec 32) : EniProcessDataWindow where
  bitStart := (fmmu.logicalStart - base) * 8 + fmmu.logicalStartBit.setWidth 32
  bitLength := fmmu.length.setWidth 32 * 8

def EniProcessData.add (halves : Halves) (processData : EniProcessData) (fmmu : FmmuConfig) :
    EniProcessData :=
  match fmmu.direction? with
  | none => processData
  | some .output => { processData with send := some (fmmu.window halves.output.base) }
  | some .input => { processData with recv := some (fmmu.window halves.input.base) }

def SlaveConfigInfo.processData (info : SlaveConfigInfo) (halves : Halves) : EniProcessData :=
  info.fmmus.foldl (EniProcessData.add halves) {}

inductive EniState
  | safeOp
  | op
  deriving DecidableEq, Repr

inductive EniCmd
  | lwr
  | lrd
  deriving DecidableEq, Repr

structure EniCyclicCmd where
  states : List EniState := [.safeOp, .op]
  comment : String
  cmd : EniCmd
  addr : BitVec 32
  dataLength : BitVec 32
  cnt : ℕ
  inputOffs : BitVec 32 := 0
  outputOffs : BitVec 32 := 0
  deriving DecidableEq, Repr

structure ProcessImageInfo where
  configured : Bool := false
  outputBytes : BitVec 32 := 0
  inputBytes : BitVec 32 := 0

def ProcessImageInfo.bytes (image : ProcessImageInfo) : Direction → BitVec 32
  | .output => image.outputBytes
  | .input => image.inputBytes

def writeCmd (image : ProcessImageInfo) (half : Half) : EniCyclicCmd where
  comment := "write the output image"
  cmd := .lwr
  addr := half.base
  dataLength := image.outputBytes
  cnt := half.fmmus

def readCmd (image : ProcessImageInfo) (half : Half) : EniCyclicCmd where
  comment := "read the input image"
  cmd := .lrd
  addr := half.base
  dataLength := image.inputBytes
  cnt := half.fmmus

def cyclicCmds (image : ProcessImageInfo) (halves : Halves) : List EniCyclicCmd :=
  (if image.outputBytes ≠ 0 ∧ halves.output.fmmus ≠ 0 then [writeCmd image halves.output]
    else []) ++
    if image.inputBytes ≠ 0 ∧ halves.input.fmmus ≠ 0 then [readCmd image halves.input] else []

/-- The network of a collection: one slave for each device of the bus, in order, and the commands
of the cyclic frame, which is left out when there are none. -/
structure EniNetwork where
  slaves : List EniProcessData
  cyclic : List EniCyclicCmd
  deriving DecidableEq, Repr

def collectEni (sourceMac : List (BitVec 8)) (image : ProcessImageInfo)
    (busConfig : List SlaveConfigInfo) : Except String EniNetwork :=
  if sourceMac.length ≠ kMacBytes then
    .error s!"the source MAC is {sourceMac.length} bytes, needs {kMacBytes}"
  else if image.configured = false then
    .error ("the bus has no published process image, so there is no mapping to describe — " ++
      "bring it to SAFE-OP or OP first")
  else if busConfig = [] then .error "the bus has no devices"
  else
    let halves := findHalves busConfig
    .ok ⟨busConfig.map (·.processData halves), cyclicCmds image halves⟩

theorem collectEni_eq_ok {sourceMac : List (BitVec 8)} {image : ProcessImageInfo}
    {busConfig : List SlaveConfigInfo} {network : EniNetwork}
    (h : collectEni sourceMac image busConfig = .ok network) :
    network.slaves = busConfig.map (·.processData (findHalves busConfig)) ∧
      network.cyclic = cyclicCmds image (findHalves busConfig) := by
  unfold collectEni at h
  split_ifs at h
  cases h
  exact ⟨rfl, rfl⟩

/-! ### What the two passes compute, one direction at a time -/

variable {bus : List SlaveConfigInfo} {info : SlaveConfigInfo} {d : Direction} {f g : FmmuConfig}

theorem mem_active : f ∈ info.active d ↔ f ∈ info.fmmus ∧ f.direction? = some d := by
  simp [SlaveConfigInfo.active]

theorem half_add (halves : Halves) (f : FmmuConfig) (d : Direction) :
    (halves.add f).half d =
      if f.direction? = some d then (halves.half d).add f else halves.half d := by
  unfold Halves.add
  split <;> rename_i hf <;> cases d <;> simp [hf, Halves.half]

theorem half_foldl_add (fmmus : List FmmuConfig) (halves : Halves) (d : Direction) :
    (fmmus.foldl Halves.add halves).half d =
      (fmmus.filter (·.direction? = some d)).foldl Half.add (halves.half d) := by
  induction fmmus generalizing halves with
  | nil => rfl
  | cons f fmmus ih =>
    rw [List.foldl_cons, ih, half_add]
    by_cases hf : f.direction? = some d <;> simp [hf]

/-- Every FMMU of the bus that is active in one direction. -/
def activeOf (bus : List SlaveConfigInfo) (d : Direction) : List FmmuConfig :=
  bus.flatMap (·.active d)

theorem half_findHalves (bus : List SlaveConfigInfo) (d : Direction) :
    (findHalves bus).half d = (activeOf bus d).foldl Half.add {} := by
  suffices h : ∀ halves : Halves,
      (bus.foldl (fun halves info => info.fmmus.foldl Halves.add halves) halves).half d =
        (activeOf bus d).foldl Half.add (halves.half d) by
    rw [findHalves, h]
    cases d <;> rfl
  intro halves
  induction bus generalizing halves with
  | nil => rfl
  | cons info bus ih =>
    rw [List.foldl_cons, ih, half_foldl_add]
    simp [activeOf, SlaveConfigInfo.active]

theorem fmmus_foldl_add (fmmus : List FmmuConfig) (half : Half) :
    (fmmus.foldl Half.add half).fmmus = half.fmmus + fmmus.length := by
  induction fmmus generalizing half with
  | nil => rfl
  | cons f fmmus ih =>
    rw [List.foldl_cons, ih, List.length_cons]
    simp only [Half.add]
    omega

theorem base_add (half : Half) (f : FmmuConfig) :
    (half.add f).base.toNat = min f.logicalStart.toNat half.base.toNat := by
  simp only [Half.add, BitVec.lt_def]
  split <;> omega

/-- The base is below every start it has seen, and is one of them or what it was before. -/
theorem base_foldl_add (fmmus : List FmmuConfig) (half : Half) :
    (fmmus.foldl Half.add half).base.toNat ≤ half.base.toNat ∧
      (∀ f ∈ fmmus, (fmmus.foldl Half.add half).base.toNat ≤ f.logicalStart.toNat) ∧
      ((fmmus.foldl Half.add half).base.toNat = half.base.toNat ∨
        ∃ f ∈ fmmus, (fmmus.foldl Half.add half).base.toNat = f.logicalStart.toNat) := by
  induction fmmus generalizing half with
  | nil => exact ⟨le_rfl, by simp, .inl rfl⟩
  | cons f fmmus ih =>
    obtain ⟨hle, hall, hone⟩ := ih (half.add f)
    rw [base_add] at hle hone
    rw [List.foldl_cons]
    refine ⟨by omega, ?_, ?_⟩
    · intro g hg
      rcases List.mem_cons.1 hg with rfl | hg
      · omega
      · exact hall g hg
    · rcases hone with hone | ⟨g, hg, hone⟩
      · rcases le_total f.logicalStart.toNat half.base.toNat with h | h
        · exact .inr ⟨f, by simp, by omega⟩
        · exact .inl (by omega)
      · exact .inr ⟨g, by simp [hg], hone⟩

/-- The logical addresses at which the active FMMUs of a direction start. -/
def starts (bus : List SlaveConfigInfo) (d : Direction) : Set ℕ :=
  {address | ∃ f ∈ activeOf bus d, f.logicalStart.toNat = address}

theorem isLeast_base (hf : f ∈ activeOf bus d) :
    IsLeast (starts bus d) ((findHalves bus).half d).base.toNat := by
  obtain ⟨-, hall, hone⟩ := base_foldl_add (activeOf bus d) {}
  rw [half_findHalves]
  refine ⟨?_, ?_⟩
  · rcases hone with hone | ⟨g, hg, hone⟩
    · have hle := hall f hf
      have hmax : ({} : Half).base.toNat = 0x100000000 - 1 := rfl
      exact ⟨f, hf, by have := f.logicalStart.isLt; omega⟩
    · exact ⟨g, hg, hone.symm⟩
  · rintro _ ⟨g, hg, rfl⟩
    exact hall g hg

theorem window_add (halves : Halves) (processData : EniProcessData) (f : FmmuConfig)
    (d : Direction) : (processData.add halves f).window d =
      if f.direction? = some d then some (f.window (halves.half d).base)
      else processData.window d := by
  unfold EniProcessData.add
  split <;> rename_i hf <;> cases d <;> simp [hf, EniProcessData.window, Halves.half]

/-- Each active FMMU of a direction overwrites the window of the one before, so that the last one
decides. -/
theorem window_processData (info : SlaveConfigInfo) (halves : Halves) (d : Direction) :
    (info.processData halves).window d =
      (info.active d).getLast?.map (·.window (halves.half d).base) := by
  suffices h : ∀ (fmmus : List FmmuConfig) (processData : EniProcessData),
      (fmmus.foldl (EniProcessData.add halves) processData).window d =
        ((fmmus.filter (·.direction? = some d)).getLast?.map
          (·.window (halves.half d).base)).or (processData.window d) by
    rw [SlaveConfigInfo.processData, h, SlaveConfigInfo.active]
    cases d <;> simp [EniProcessData.window]
  intro fmmus
  induction fmmus with
  | nil => simp
  | cons f fmmus ih =>
    intro processData
    rw [List.foldl_cons, ih, window_add]
    by_cases hf : f.direction? = some d
    · cases hlast : (fmmus.filter (·.direction? = some d)).getLast? <;>
        simp [hf, List.getLast?_cons, hlast]
    · simp [hf]

/-! ### Windows -/

/-- The first and the last logical bit an FMMU maps: from its start bit in its first byte to its
end bit in its last. -/
def FmmuConfig.firstBit (f : FmmuConfig) : ℕ :=
  8 * f.logicalStart.toNat + f.logicalStartBit.toNat

def FmmuConfig.lastBit (f : FmmuConfig) : ℕ :=
  8 * (f.logicalStart.toNat + f.length.toNat - 1) + f.logicalEndBit.toNat

def FmmuConfig.Maps (f : FmmuConfig) (bit : ℕ) : Prop :=
  f.firstBit ≤ bit ∧ bit ≤ f.lastBit
  deriving Decidable

structure FmmuConfig.Consistent (f : FmmuConfig) : Prop where
  startBit : f.logicalStartBit.toNat ≤ 7
  endBit : f.logicalEndBit.toNat ≤ 7
  bytes : 1 ≤ f.length.toNat
  ordered : f.firstBit ≤ f.lastBit

def Apart (f g : FmmuConfig) : Prop := ∀ bit, ¬(f.Maps bit ∧ g.Maps bit)

/-- A bus whose active FMMUs are consistent, those of one direction covering disjoint bits. -/
structure BusConfig where
  slaves : List SlaveConfigInfo
  consistent : ∀ d, ∀ info ∈ slaves, ∀ f ∈ info.active d, f.Consistent
  within : ∀ d, ∀ info ∈ slaves, (info.active d).Pairwise Apart
  across : ∀ d, slaves.Pairwise fun a b => ∀ f ∈ a.active d, ∀ g ∈ b.active d, Apart f g

def EniProcessDataWindow.Contains (w : EniProcessDataWindow) (bit : ℕ) : Prop :=
  w.bitStart.toNat ≤ bit ∧ bit < w.bitStart.toNat + w.bitLength.toNat

/-- Bit `bit` of the image that starts at byte `low` is one the device maps. -/
def SlaveConfigInfo.Maps (info : SlaveConfigInfo) (d : Direction) (low bit : ℕ) : Prop :=
  ∃ f ∈ info.active d, f.Maps (8 * low + bit)

/-- The windows are the bits the devices map, counted from the lowest address of the direction:
no window without an active FMMU, and otherwise a range of exactly the mapped bits. -/
structure WindowsExact (bus : List SlaveConfigInfo) (network : EniNetwork) : Prop where
  exact : ∀ d low, IsLeast (starts bus d) low →
    List.Forall₂ (fun (info : SlaveConfigInfo) (slave : EniProcessData) =>
      (slave.window d = none → info.active d = []) ∧
      ∀ w ∈ slave.window d, ∀ bit, w.Contains bit ↔ info.Maps d low bit) bus network.slaves
  separate : ∀ d, network.slaves.Pairwise fun a b =>
    ∀ v ∈ a.window d, ∀ w ∈ b.window d, ∀ bit, ¬(v.Contains bit ∧ w.Contains bit)
  -- in every image that reaches as far as the active FMMUs do
  inside : ∀ d low bytes, IsLeast (starts bus d) low →
    (∀ f ∈ activeOf bus d, f.logicalStart.toNat + f.length.toNat ≤ low + bytes) →
    ∀ slave ∈ network.slaves, ∀ w ∈ slave.window d, ∀ bit, w.Contains bit → bit < 8 * bytes

/-- No start of the direction lies so far below an FMMU that its bit offset leaves 32 bits. -/
def Near (bus : List SlaveConfigInfo) (d : Direction) (f : FmmuConfig) : Prop :=
  ∀ g ∈ activeOf bus d, f.firstBit < 8 * g.logicalStart.toNat + 0x100000000

/-- The device's FMMUs before the last one map exactly the bits by which the last one falls short
of its byte length: those left in its last byte, and as many as its start bit skipped. -/
def RestFollows (info : SlaveConfigInfo) (d : Direction) (f : FmmuConfig) : Prop :=
  ∀ bit, (∃ g ∈ (info.active d).dropLast, g.Maps bit) ↔
    f.lastBit < bit ∧ bit ≤ f.lastBit + (7 - f.logicalEndBit.toNat) + f.logicalStartBit.toNat

/-- The usual case: one FMMU in the direction, of whole bytes. -/
theorem restFollows_of_single (h : info.active d = [f]) (hstart : f.logicalStartBit = 0)
    (hend : f.logicalEndBit = 7) : RestFollows info d f := by
  intro bit
  simp [h, hstart, hend]

theorem window_contains {low : BitVec 32} (hlow : low.toNat ≤ f.logicalStart.toNat) (bit : ℕ) :
    (f.window low).Contains bit ↔
      (f.firstBit - 8 * low.toNat) % 0x100000000 ≤ bit ∧
        bit < (f.firstBit - 8 * low.toNat) % 0x100000000 + 8 * f.length.toNat := by
  have height : (8 : BitVec 32).toNat = 8 := rfl
  have hstart : (f.window low).bitStart.toNat = (f.firstBit - 8 * low.toNat) % 0x100000000 := by
    simp only [FmmuConfig.window, FmmuConfig.firstBit, BitVec.toNat_add, BitVec.toNat_mul,
      BitVec.toNat_sub, BitVec.toNat_setWidth, height]
    omega
  have hlength : (f.window low).bitLength.toNat = 8 * f.length.toNat := by
    simp only [FmmuConfig.window, BitVec.toNat_mul, BitVec.toNat_setWidth, height]
    omega
  rw [EniProcessDataWindow.Contains, hstart, hlength]

/-- The bits a device maps are those of its last FMMU and those of the ones before. -/
theorem maps_iff_of_getLast (h : f ∈ (info.active d).getLast?) (low bit : ℕ) :
    info.Maps d low bit ↔
      (∃ g ∈ (info.active d).dropLast, g.Maps (8 * low + bit)) ∨ f.Maps (8 * low + bit) := by
  have hsplit := List.dropLast_append_getLast? f h
  unfold SlaveConfigInfo.Maps
  rw [← hsplit]
  simp [or_and_right, exists_or]

theorem apart_of_getLast (hp : (info.active d).Pairwise Apart)
    (h : f ∈ (info.active d).getLast?) : ∀ g ∈ (info.active d).dropLast, Apart g f := by
  rw [← List.dropLast_append_getLast? f h, List.pairwise_append] at hp
  intro g hg
  exact hp.2.2 g hg f (by simp)

/-- One device: its window holds exactly the mapped bits if and only if the offset stays within 32
bits and the other FMMUs fill up the last one's bytes. -/
theorem window_exact_iff {low : BitVec 32} (hc : f.Consistent)
    (hp : (info.active d).Pairwise Apart) (h : f ∈ (info.active d).getLast?)
    (hlow : ∀ g ∈ info.active d, low.toNat ≤ g.logicalStart.toNat) :
    (∀ bit, (f.window low).Contains bit ↔ info.Maps d low.toNat bit) ↔
      f.firstBit < 8 * low.toNat + 0x100000000 ∧ RestFollows info d f := by
  have hf : low.toNat ≤ f.logicalStart.toNat := hlow f (List.mem_of_getLast? h)
  have hfirst : 8 * low.toNat ≤ f.firstBit := by unfold FmmuConfig.firstBit; omega
  have hwidth : f.lastBit + (7 - f.logicalEndBit.toNat) + f.logicalStartBit.toNat + 1 =
      f.firstBit + 8 * f.length.toNat := by
    have := hc.endBit
    have := hc.bytes
    unfold FmmuConfig.lastBit FmmuConfig.firstBit
    omega
  have hordered := hc.ordered
  have happart := apart_of_getLast hp h
  simp only [window_contains hf, maps_iff_of_getLast h]
  constructor
  · intro hexact
    have hnear : f.firstBit < 8 * low.toNat + 0x100000000 := by
      -- the first bit of the last FMMU is mapped, so the window has to reach it
      have := (hexact (f.firstBit - 8 * low.toNat)).2 (.inr ⟨by omega, by omega⟩)
      omega
    refine ⟨hnear, fun bit => ⟨?_, ?_⟩⟩
    · rintro ⟨g, hg, hbit⟩
      have hge : 8 * low.toNat ≤ bit := by
        have := hlow g (List.dropLast_subset _ hg)
        have := hbit.1
        unfold FmmuConfig.firstBit at this
        omega
      have hin := (hexact (bit - 8 * low.toNat)).2
        (.inl ⟨g, hg, by rwa [Nat.add_sub_cancel' hge]⟩)
      have hnot : ¬f.Maps bit := fun hbit' => happart g hg bit ⟨hbit, hbit'⟩
      unfold FmmuConfig.Maps at hnot
      omega
    · rintro ⟨hafter, hbefore⟩
      have hge : 8 * low.toNat ≤ bit := by omega
      rcases (hexact (bit - 8 * low.toNat)).1 (by omega) with ⟨g, hg, hbit⟩ | hbit
      · exact ⟨g, hg, by rwa [Nat.add_sub_cancel' hge] at hbit⟩
      · have := hbit.2
        omega
  · rintro ⟨hnear, hrest⟩ bit
    rw [hrest, FmmuConfig.Maps]
    omega

theorem mem_activeOf (hi : info ∈ bus) (hf : f ∈ info.active d) : f ∈ activeOf bus d :=
  List.mem_flatMap.2 ⟨info, hi, hf⟩

section Windows

variable {sourceMac : List (BitVec 8)} {image : ProcessImageInfo} {network : EniNetwork}

/-- Exact windows are as far apart as the FMMUs are and end where the image does. -/
theorem windowsExact_of_exact {bus : BusConfig}
    (h : collectEni sourceMac image bus.slaves = .ok network)
    (hexact : ∀ d, ∀ info ∈ bus.slaves, ∀ w ∈
      (info.processData (findHalves bus.slaves)).window d, ∀ bit,
        w.Contains bit ↔ info.Maps d ((findHalves bus.slaves).half d).base.toNat bit) :
    WindowsExact bus.slaves network := by
  obtain ⟨hslaves, -⟩ := collectEni_eq_ok h
  have hmem : ∀ {d info w},
      w ∈ (SlaveConfigInfo.processData info (findHalves bus.slaves)).window d →
      ∃ f, f ∈ info.active d := by
    intro d info w hw
    rw [window_processData] at hw
    obtain ⟨f, hf, -⟩ := Option.mem_map.1 hw
    exact ⟨f, List.mem_of_getLast? hf⟩
  have hbase : ∀ {d info w low}, info ∈ bus.slaves → IsLeast (starts bus.slaves d) low →
      w ∈ (SlaveConfigInfo.processData info (findHalves bus.slaves)).window d →
      ((findHalves bus.slaves).half d).base.toNat = low := by
    intro d info w low hi hlow hw
    obtain ⟨f, hf⟩ := hmem hw
    exact (isLeast_base (mem_activeOf hi hf)).unique hlow
  refine ⟨fun d low hlow => ?_, fun d => ?_,
    fun d low bytes hlow hbytes slave hs w hw bit hbit => ?_⟩
  · rw [hslaves, List.forall₂_map_right_iff, List.forall₂_same]
    refine fun info hi => ⟨fun hnone => ?_, fun w hw bit => ?_⟩
    · simpa [window_processData] using hnone
    · rw [← hbase hi hlow hw]
      exact hexact d info hi w hw bit
  · rw [hslaves, List.pairwise_map]
    refine (bus.across d).imp_of_mem fun {a b} ha hb hab v hv w hw bit hboth => ?_
    obtain ⟨f, hf, hfbit⟩ := (hexact d a ha v hv bit).1 hboth.1
    obtain ⟨g, hg, hgbit⟩ := (hexact d b hb w hw bit).1 hboth.2
    exact hab f hf g hg _ ⟨hfbit, hgbit⟩
  · rw [hslaves] at hs
    obtain ⟨info, hi, rfl⟩ := List.mem_map.1 hs
    obtain ⟨f, hf, hfbit⟩ := (hexact d info hi w hw bit).1 hbit
    rw [hbase hi hlow hw] at hfbit
    have hend := hbytes f (mem_activeOf hi hf)
    have hlast := hfbit.2
    have := (bus.consistent d info hi f hf).endBit
    have := (bus.consistent d info hi f hf).bytes
    unfold FmmuConfig.lastBit at hlast
    omega

/-- The windows are right exactly when the last active FMMU of each device and direction has a
byte length that the device's bits fill, and an offset that 32 bits hold. -/
theorem windowsExact_iff (bus : BusConfig)
    (h : collectEni sourceMac image bus.slaves = .ok network) :
    WindowsExact bus.slaves network ↔
      ∀ d, ∀ info ∈ bus.slaves, ∀ f ∈ (info.active d).getLast?,
        Near bus.slaves d f ∧ RestFollows info d f := by
  have hdevice : ∀ d, ∀ info ∈ bus.slaves, ∀ f ∈ (info.active d).getLast?,
      (∀ bit, (f.window ((findHalves bus.slaves).half d).base).Contains bit ↔
        info.Maps d ((findHalves bus.slaves).half d).base.toNat bit) ↔
      Near bus.slaves d f ∧ RestFollows info d f := by
    intro d info hi f hf
    have hactive := List.mem_of_getLast? hf
    have hleast := isLeast_base (mem_activeOf hi hactive)
    rw [window_exact_iff (bus.consistent d info hi f hactive) (bus.within d info hi) hf
      fun g hg => hleast.2 ⟨g, mem_activeOf hi hg, rfl⟩]
    refine and_congr_left fun _ => ⟨fun hnear g hg => ?_, fun hnear => ?_⟩
    · have := hleast.2 ⟨g, hg, rfl⟩
      omega
    · obtain ⟨g, hg, heq⟩ := hleast.1
      rw [← heq]
      exact hnear g hg
  obtain ⟨hslaves, -⟩ := collectEni_eq_ok h
  constructor
  · intro hw d info hi f hf
    rw [← hdevice d info hi f hf]
    have hexact := hw.exact d _ (isLeast_base (mem_activeOf hi (List.mem_of_getLast? hf)))
    rw [hslaves, List.forall₂_map_right_iff, List.forall₂_same] at hexact
    refine (hexact info hi).2 _ ?_
    rw [window_processData]
    exact Option.mem_map_of_mem _ hf
  · intro hcond
    refine windowsExact_of_exact h fun d info hi w hw => ?_
    rw [window_processData] at hw
    obtain ⟨f, hf, rfl⟩ := Option.mem_map.1 hw
    exact (hdevice d info hi f hf).2 (hcond d info hi f hf)

/-- A bus of FMMUs that share no bit. -/
def busOf (fmmus : List (List FmmuConfig))
    (hc : ∀ f ∈ fmmus.flatten, f.logicalStartBit.toNat ≤ 7 ∧ f.logicalEndBit.toNat ≤ 7 ∧
      1 ≤ f.length.toNat ∧ f.firstBit ≤ f.lastBit)
    (ha : fmmus.flatten.Pairwise fun f g => f.lastBit < g.firstBit ∨ g.lastBit < f.firstBit) :
    BusConfig :=
  have hapart : fmmus.flatten.Pairwise Apart := ha.imp fun h bit ⟨⟨_, _⟩, _, _⟩ => by omega
  { slaves := fmmus.map (⟨·⟩)
    consistent := by
      intro d info hi f hf
      obtain ⟨fs, hfs, rfl⟩ := List.mem_map.1 hi
      obtain ⟨hstart, hend, hbytes, hordered⟩ :=
        hc f (List.mem_flatten.2 ⟨fs, hfs, (mem_active.1 hf).1⟩)
      exact ⟨hstart, hend, hbytes, hordered⟩
    within := by
      intro d info hi
      obtain ⟨fs, hfs, rfl⟩ := List.mem_map.1 hi
      exact ((List.pairwise_flatten.1 hapart).1 fs hfs).sublist List.filter_sublist
    across := by
      refine fun d => List.pairwise_map.2 ((List.pairwise_flatten.1 hapart).2.imp ?_)
      exact fun h f hf g hg => h f (mem_active.1 hf).1 g (mem_active.1 hg).1 }

/-- Four bits of the first output byte, and a whole output byte. -/
def nibble (bit : BitVec 8) : FmmuConfig :=
  { length := 1, logicalStartBit := bit, logicalEndBit := bit + 3, type := kFmmuWrite, active := 1 }

def wholeByte (address : BitVec 32) : FmmuConfig :=
  { logicalStart := address, length := 1, logicalEndBit := 7, type := kFmmuWrite, active := 1 }

def inputByte (address : BitVec 32) : FmmuConfig := { wholeByte address with type := kFmmuRead }

def sharedByte : BusConfig := busOf [[nibble 0], [nibble 4]] (by decide) (by decide)

/-- Two devices with an output byte and an input byte each. -/
def wholeBytes : BusConfig :=
  busOf [[wholeByte 0, inputByte 2], [wholeByte 1, inputByte 3]] (by decide) (by decide)

/-- The first device of a shared byte gets all eight bits of it. -/
theorem sharedByte_not_windowsExact :
    ∃ network, collectEni (List.replicate 6 0) { configured := true, outputBytes := 1 }
        sharedByte.slaves = .ok network ∧
      ¬WindowsExact sharedByte.slaves network := by
  refine ⟨_, rfl, fun h => ?_⟩
  have hleast : IsLeast (starts sharedByte.slaves .output) 0 :=
    ⟨⟨nibble 0, by decide, rfl⟩, fun _ _ => Nat.zero_le _⟩
  have hexact := h.exact .output 0 hleast
  obtain ⟨g, hg, hbit⟩ := ((List.forall₂_cons.1 hexact).1.2 _ rfl 4).1 ⟨by decide, by decide⟩
  obtain rfl := List.mem_singleton.1 (mem_active.1 hg).1
  exact absurd hbit (by decide)

theorem wholeBytes_windowsExact :
    ∃ network, collectEni (List.replicate 6 0)
        { configured := true, outputBytes := 2, inputBytes := 2 } wholeBytes.slaves = .ok network ∧
      WindowsExact wholeBytes.slaves network := by
  have h : collectEni (List.replicate 6 0) { configured := true, outputBytes := 2, inputBytes := 2 }
      wholeBytes.slaves = .ok _ := rfl
  refine ⟨_, h, (windowsExact_iff wholeBytes h).2 fun d info hi f hf => ?_⟩
  have hnear : ∀ f ∈ activeOf wholeBytes.slaves d, f.firstBit < 0x100000000 := by
    cases d <;> decide
  refine ⟨fun g hg => ?_, ?_⟩
  · have := hnear f (mem_activeOf hi (List.mem_of_getLast? hf))
    omega
  · rcases List.mem_pair.1 hi with rfl | rfl <;> cases d <;> cases hf <;>
      exact restFollows_of_single rfl rfl rfl

end Windows

end MotionMaster.Eni
