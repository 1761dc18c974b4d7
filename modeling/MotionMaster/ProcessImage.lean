import Mathlib.Data.List.Basic
import Mathlib.Tactic.Ring

/-! The process image: where each mapped object sits, and how one is looked up. -/
namespace MotionMaster

/-- One mapped object. `bitOffset` is absolute within its direction's image. -/
structure ProcessImageEntry where
  slavePosition : ℕ
  index : ℕ
  subindex : ℕ
  bitLength : ℕ
  bitOffset : ℕ
  /-- The cell of the owning device's arena, null when the dictionary was not enumerated. -/
  parameter : Option ℕ
  deriving DecidableEq, Repr

/-- The whole bus's layout, resolved to absolute positions. -/
structure ProcessImage where
  outputs : List ProcessImageEntry
  inputs : List ProcessImageEntry
  outputBytes : ℕ
  inputBytes : ℕ
  expectedWkc : Int
  deriving DecidableEq, Repr

/-- Where a mapped object sits, and which direction it belongs to. -/
structure Location where
  bitOffset : ℕ
  bitLength : ℕ
  isOutput : Bool
  entryIndex : ℕ
  deriving DecidableEq, Repr

def ProcessImageEntry.Matches (e : ProcessImageEntry) (slavePosition index subindex : ℕ) : Prop :=
  e.slavePosition = slavePosition ∧ e.index = index ∧ e.subindex = subindex
  deriving Decidable

/-- The first entry of one direction that names the object. -/
def locate (entries : List ProcessImageEntry) (isOutput : Bool)
    (slavePosition index subindex : ℕ) : Option Location :=
  (entries.findIdx? fun e => e.Matches slavePosition index subindex).bind fun i =>
    entries[i]?.map fun e => ⟨e.bitOffset, e.bitLength, isOutput, i⟩

/-- Outputs are searched before inputs, so an object mapped both ways is found as an output. -/
def ProcessImage.find (image : ProcessImage) (slavePosition index subindex : ℕ) :
    Option Location :=
  (locate image.outputs true slavePosition index subindex).orElse fun _ =>
    locate image.inputs false slavePosition index subindex

end MotionMaster
