import MotionMaster.ProcessImage.Bits
import MotionMaster.ProcessImage.Build

/-! One cycle's data: the output frame composed from the cells, and the inputs decoded into them. -/
namespace MotionMaster

open Bytes

/-- The scalar a pointer captured in the image reads, null for an object without a cell. -/
def loadBits (devices : ℕ → Device) (e : ProcessImageEntry) : Option (BitVec 64) :=
  e.parameter.bind fun k => (devices e.slavePosition).cells[k]?.map (·.bits)

def composeOne (devices : ℕ → Device) (outputs : List (BitVec 8)) (e : ProcessImageEntry) :
    List (BitVec 8) :=
  match loadBits devices e with
  | none => outputs
  | some bits => insertBits outputs e.bitOffset e.bitLength (unpackLeBits bits 8)

/-- The output frame. Gaps and objects without a cell go out as zero. -/
def compose (devices : ℕ → Device) (image : ProcessImage) : List (BitVec 8) :=
  image.outputs.foldl (composeOne devices) (List.replicate image.outputBytes 0)

def storeBits (devices : ℕ → Device) (slavePosition k : ℕ) (bits : BitVec 64) : ℕ → Device :=
  Function.update devices slavePosition
    { devices slavePosition with
      cells := (devices slavePosition).cells.modify k fun c => { c with bits := bits } }

/-- A device below SAFE-OP wrote nothing into the frame, so its cells are left alone. -/
def decodeOne (exchanging : ℕ → Bool) (inputs : List (BitVec 8)) (devices : ℕ → Device)
    (e : ProcessImageEntry) : ℕ → Device :=
  match e.parameter with
  | none => devices
  | some k =>
    if exchanging e.slavePosition then
      storeBits devices e.slavePosition k
        (packLeBits (extractBits inputs e.bitOffset e.bitLength 8))
    else devices

def decodeInputsIntoCells (exchanging : ℕ → Bool) (inputs : List (BitVec 8))
    (devices : ℕ → Device) (image : ProcessImage) : ℕ → Device :=
  image.inputs.foldl (decodeOne exchanging inputs) devices

/-! ### The composed frame, bit by bit -/

/-- What the cell behind an entry sends as bit `j` of its field. -/
def sentBit (devices : ℕ → Device) (e : ProcessImageEntry) (j : ℕ) : Bool :=
  match loadBits devices e with
  | none => false
  | some bits => bit (unpackLeBits bits 8) j

def ProcessImageEntry.Covers (e : ProcessImageEntry) (i : ℕ) : Prop :=
  e.bitOffset ≤ i ∧ i < e.bitOffset + e.bitLength

def ProcessImageEntry.NoOverlap (a b : ProcessImageEntry) : Prop := ∀ i, a.Covers i → ¬ b.Covers i

variable {devices : ℕ → Device} {e : ProcessImageEntry} {es : List ProcessImageEntry}
  {outputs : List (BitVec 8)} {i j : ℕ}

theorem ProcessImageEntry.Apart.noOverlap {a b : ProcessImageEntry} (h : a.Apart b) :
    a.NoOverlap b := by
  intro i ha hb
  unfold ProcessImageEntry.Apart ProcessImageEntry.Covers at *
  omega

@[simp] theorem length_composeOne (devices : ℕ → Device) (outputs : List (BitVec 8))
    (e : ProcessImageEntry) : (composeOne devices outputs e).length = outputs.length := by
  unfold composeOne
  split <;> simp

theorem bit_composeOne_outside (hs : e.bitOffset + e.bitLength ≤ 2 ^ 32)
    (hi : (loadBits devices e).isSome → ¬ e.Covers i) :
    bit (composeOne devices outputs e) i = bit outputs i := by
  unfold composeOne
  split
  · rfl
  · rename_i bits hbits
    rw [bit_insertBits hs, if_neg]
    rintro ⟨h1, h2, -⟩
    exact hi (by simp [hbits]) ⟨h1, h2⟩

theorem bit_composeOne_inside (hs : e.bitOffset + e.bitLength ≤ 2 ^ 32)
    (hl : e.bitOffset + e.bitLength ≤ 8 * outputs.length) (hj : j < e.bitLength)
    (hz : bit outputs (e.bitOffset + j) = false) :
    bit (composeOne devices outputs e) (e.bitOffset + j) = sentBit devices e j := by
  unfold composeOne sentBit
  split
  · exact hz
  · rw [bit_insertBits hs, if_pos (by omega), Nat.add_sub_cancel_left]

/-- Only an object with a cell behind it sends anything. -/
theorem bit_foldl_outside (hs : ∀ e ∈ es, e.bitOffset + e.bitLength ≤ 2 ^ 32)
    (hi : ∀ e ∈ es, (loadBits devices e).isSome → ¬ e.Covers i) :
    bit (es.foldl (composeOne devices) outputs) i = bit outputs i := by
  induction es generalizing outputs with
  | nil => rfl
  | cons a es ih =>
    rw [List.foldl_cons, ih (fun e he => hs e (by simp [he])) fun e he => hi e (by simp [he])]
    exact bit_composeOne_outside (hs a (by simp)) (hi a (by simp))

/-- Fields that share no bit do not disturb each other, in whatever order they are written. -/
theorem bit_foldl_inside (hp : es.Pairwise ProcessImageEntry.NoOverlap)
    (hs : ∀ e ∈ es, e.bitOffset + e.bitLength ≤ 2 ^ 32)
    (hl : e.bitOffset + e.bitLength ≤ 8 * outputs.length) (he : e ∈ es)
    (hj : j < e.bitLength) (hz : bit outputs (e.bitOffset + j) = false) :
    bit (es.foldl (composeOne devices) outputs) (e.bitOffset + j) = sentBit devices e j := by
  have hc : e.Covers (e.bitOffset + j) := by
    unfold ProcessImageEntry.Covers
    omega
  induction es generalizing outputs with
  | nil => cases he
  | cons a es ih =>
    rw [List.foldl_cons]
    obtain ⟨ha, hp⟩ := List.pairwise_cons.mp hp
    have hs' : ∀ e ∈ es, e.bitOffset + e.bitLength ≤ 2 ^ 32 := fun e he => hs e (by simp [he])
    rcases List.mem_cons.mp he with rfl | he
    · rw [bit_foldl_outside hs' fun b hb _ hcb => ha b hb _ hc hcb]
      exact bit_composeOne_inside (hs e (by simp)) hl hj hz
    · refine ih hp hs' ?_ he ?_
      · rwa [length_composeOne]
      · rw [bit_composeOne_outside (hs a (by simp)) fun _ hca => ha e he _ hca hc]
        exact hz

/-- Each output field carries exactly what the cell captured for it holds. -/
theorem bit_compose {image : ProcessImage} (hp : Placed image) (he : e ∈ image.outputs)
    (hj : j < e.bitLength) :
    bit (compose devices image) (e.bitOffset + j) = sentBit devices e j := by
  have hb := hp.bounded
  unfold kMaxProcessImageBytes at hb
  refine bit_foldl_inside (hp.apart.imp fun h => h.noOverlap) (fun e he => ?_) ?_ he hj
    (bit_replicate_zero _ _)
  · have := hp.inside e he
    omega
  · simpa using hp.inside e he

end MotionMaster
