import MotionMaster.Lib.Bytes
import MotionMaster.Lib.Interleaving

/-!
# The recorder ring, access by access

One writer and any number of readers share the sequence words and the payload bytes. Every load
and store of either is a step of its own.
-/

namespace MotionMaster

/-- What one cycle hands the recorder. Both spans are sized by a `uint32_t` of the image. -/
structure Frame where
  timestampNs : BitVec 64
  wkc : BitVec 32
  inputs : List (BitVec 8)
  outputs : List (BitVec 8)
  inputs_lt : inputs.length < 2 ^ 32
  outputs_lt : outputs.length < 2 ^ 32
  deriving DecidableEq

/-- The part of a cycle that fits. -/
def Frame.clamp (f : Frame) (inputCap outputCap : ℕ) : Frame where
  timestampNs := f.timestampNs
  wkc := f.wkc
  inputs := f.inputs.take inputCap
  outputs := f.outputs.take outputCap
  inputs_lt := Nat.lt_of_le_of_lt (List.length_take_le' _ _) f.inputs_lt
  outputs_lt := Nat.lt_of_le_of_lt (List.length_take_le' _ _) f.outputs_lt

namespace ProcessDataRing

open Bytes Interleaving

/-- A slot's word before its first record and while a write is in progress. -/
def kInvalidSeq : ℕ := 2 ^ 64 - 1

def kHeaderBytes : ℕ := 20

/-- What `allocate` fixes. -/
structure Config where
  inputCap : ℕ
  outputCap : ℕ
  capacity : ℕ
  inputCap_lt : inputCap < 2 ^ 32
  outputCap_lt : outputCap < 2 ^ 32

/-- Two records less than a lap apart lie in different slots. -/
theorem slot_ne {q r capacity : ℕ} (hq : q < r) (hr : r < q + capacity) :
    q % capacity ≠ r % capacity := by
  intro h
  have hz := Nat.sub_mod_eq_zero_of_mod_eq h.symm
  rw [Nat.mod_eq_of_lt (by omega)] at hz
  omega

namespace Config

variable (c : Config)

def stride : ℕ := kHeaderBytes + c.inputCap + c.outputCap

/-- Where a byte of the record for `seq` lives in `buffer_`. -/
def address (seq offset : ℕ) : ℕ := seq % c.capacity * c.stride + offset

/-- The byte stores of `write`, one memcpy after the other. -/
def stores (f : Frame) : List (ℕ × BitVec 8) :=
  let ib := min (f.inputs.length % 2 ^ 32) c.inputCap
  let ob := min (f.outputs.length % 2 ^ 32) c.outputCap
  copy 0 (encode 8 f.timestampNs.toNat) ++ copy 8 (encode 4 f.wkc.toNat) ++
    copy 12 (encode 4 ib) ++ copy 16 (encode 4 ob) ++
    copy kHeaderBytes (f.inputs.take ib) ++
    copy (kHeaderBytes + c.inputCap) (f.outputs.take ob)

/-- The sizes a reader takes from the header, clamped so that its copies stay in bounds. -/
def ib (copied : List (BitVec 8)) : ℕ := min (decode ((copied.drop 12).take 4)) c.inputCap

def ob (copied : List (BitVec 8)) : ℕ := min (decode ((copied.drop 16).take 4)) c.outputCap

/-- The offset a reader loads next, having copied this much: the header, then the input region,
then the output region. -/
def loadAt (copied : List (BitVec 8)) : Option ℕ :=
  if copied.length < kHeaderBytes then some copied.length
  else if copied.length < kHeaderBytes + c.ib copied then some copied.length
  else if copied.length < kHeaderBytes + c.ib copied + c.ob copied then
    some (kHeaderBytes + c.inputCap + (copied.length - kHeaderBytes - c.ib copied))
  else none

def record (copied : List (BitVec 8)) : Frame where
  timestampNs := BitVec.ofNat 64 (decode (copied.take 8))
  wkc := BitVec.ofNat 32 (decode ((copied.drop 8).take 4))
  inputs := (copied.drop kHeaderBytes).take (c.ib copied)
  outputs := (copied.drop (kHeaderBytes + c.ib copied)).take (c.ob copied)
  inputs_lt := Nat.lt_of_le_of_lt (Nat.le_trans (List.length_take_le _ _) (Nat.min_le_right _ _))
    c.inputCap_lt
  outputs_lt := Nat.lt_of_le_of_lt (Nat.le_trans (List.length_take_le _ _) (Nat.min_le_right _ _))
    c.outputCap_lt

end Config

/-- `copying` holds the stores still to do. -/
inductive Writer where
  | idle
  | copying (seq : ℕ) (todo : List (ℕ × BitVec 8))
  | published (seq : ℕ)
  deriving DecidableEq

/-- A call of `readRecord`, with the bytes copied so far. `done seq none` is `false`. -/
inductive Reader where
  | idle
  | copying (seq : ℕ) (copied : List (BitVec 8))
  | done (seq : ℕ) (result : Option Frame)
  deriving DecidableEq

/-- Between the two checks. -/
def Reader.Busy : Reader → Prop
  | .copying _ _ => True
  | _ => False

instance (r : Reader) : Decidable r.Busy := by
  cases r <;> unfold Reader.Busy <;> infer_instance

/-- `history` pairs the arguments of every `write` with the sequence number it was given. -/
structure State where
  words : ℕ → ℕ
  buffer : ℕ → BitVec 8
  head : ℕ
  writer : Writer
  readers : ℕ → Reader
  history : List (ℕ × Frame)

def State.initial : State where
  words := fun _ => kInvalidSeq
  buffer := fun _ => 0
  head := 0
  writer := .idle
  readers := fun _ => .idle
  history := []

inductive Action where
  | write (f : Frame)
  | writer
  | read (reader seq : ℕ)
  | reader (reader : ℕ)

section

variable (c : Config)

/-- The check before the copy. -/
def Reader.start (words : ℕ → ℕ) (seq : ℕ) : Reader :=
  if c.capacity = 0 then .done seq none
  else if words (seq % c.capacity) ≠ seq then .done seq none
  else .copying seq []

/-- One load of the copy, or the check after it. -/
def Reader.step (words : ℕ → ℕ) (buffer : ℕ → BitVec 8) : Reader → Reader
  | .copying seq copied =>
    match c.loadAt copied with
    | some offset => .copying seq (copied ++ [buffer (c.address seq offset)])
    | none => .done seq (if words (seq % c.capacity) = seq then some (c.record copied) else none)
  | r => r

def Enabled (s : State) : Action → Prop
  | .write _ => s.writer = .idle
  | .writer => s.writer ≠ .idle
  | .read i seq => seq ≠ kInvalidSeq ∧ ¬ (s.readers i).Busy
  | .reader i => (s.readers i).Busy

instance (s : State) (a : Action) : Decidable (Enabled s a) := by
  cases a <;> unfold Enabled <;> infer_instance

/-- `head_` never wraps, so sequence numbers are plain numbers. -/
def next (s : State) : Action → State
  | .write f =>
    if c.capacity = 0 then s
    else
      { s with
        words := Function.update s.words (s.head % c.capacity) kInvalidSeq
        writer := .copying s.head (c.stores f)
        history := s.history ++ [(s.head, f)] }
  | .writer =>
    match s.writer with
    | .idle => s
    | .copying seq ((offset, b) :: todo) =>
      { s with
        buffer := Function.update s.buffer (c.address seq offset) b
        writer := .copying seq todo }
    | .copying seq [] =>
      { s with words := Function.update s.words (seq % c.capacity) seq, writer := .published seq }
    | .published seq => { s with head := seq + 1, writer := .idle }
  | .read i seq => { s with readers := Function.update s.readers i (Reader.start c s.words seq) }
  | .reader i =>
    { s with
      readers := Function.update s.readers i (Reader.step c s.words s.buffer (s.readers i)) }

abbrev system : System State Action := ⟨State.initial, Enabled, next c⟩

/-- A call of `readRecord` that nothing interrupts. -/
def readRecord (s : State) (seq : ℕ) : Reader :=
  (Reader.step c s.words s.buffer)^[c.stride + 1] (Reader.start c s.words seq)

end

end ProcessDataRing

end MotionMaster
