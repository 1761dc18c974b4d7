import MotionMaster.Lib.Bytes
import MotionMaster.Lib.Deframe

/-!
# SPoE frames

The layout of a frame, and `takeFrame`, which takes the first whole frame out of the bytes received.
-/

namespace MotionMaster.Spoe

open Bytes Deframe

def kHeaderSize : ℕ := 7

def kMaxDataSize : ℕ := 512

inductive MessageType where
  | kSdoRead
  | kSdoWrite
  | kPdoFrame
  | kPdoControl
  | kSdoBatchRead
  | kFirmwareUpdate
  | kFileRead
  | kFileWrite
  | kStateControl
  | kStateRead
  | kParamList
  | kParamDesc
  | kParamSubDesc
  | kParamFullDesc
  | kServerInfo
  | kDeviceLocate
  | kWatchdogTimeout
  deriving DecidableEq

def MessageType.code : MessageType → BitVec 8
  | .kSdoRead => 0x01
  | .kSdoWrite => 0x02
  | .kPdoFrame => 0x03
  | .kPdoControl => 0x04
  | .kSdoBatchRead => 0x06
  | .kFirmwareUpdate => 0x0B
  | .kFileRead => 0x0C
  | .kFileWrite => 0x0D
  | .kStateControl => 0x0E
  | .kStateRead => 0x0F
  | .kParamList => 0x10
  | .kParamDesc => 0x11
  | .kParamSubDesc => 0x12
  | .kParamFullDesc => 0x13
  | .kServerInfo => 0x20
  | .kDeviceLocate => 0x21
  | .kWatchdogTimeout => 0x22

structure Frame where
  type : BitVec 8
  sequenceId : BitVec 16
  status : BitVec 16
  data : List (BitVec 8)
  deriving DecidableEq

structure FrameHeader where
  type : BitVec 8
  sequenceId : BitVec 16
  status : BitVec 16
  dataLength : BitVec 16

/-- The header and the data, with the length as the sixteen bits the header has for it. -/
def Frame.bytes (frame : Frame) : List (BitVec 8) :=
  [frame.type] ++ encode 2 frame.sequenceId.toNat ++ encode 2 frame.status.toNat ++
    encode 2 frame.data.length ++ frame.data

def encodeFrame (frame : Frame) : Except String (List (BitVec 8)) :=
  if frame.data.length > kMaxDataSize then
    .error ("SPoE frame data of " ++ toString frame.data.length ++ " bytes exceeds the " ++
      toString kMaxDataSize ++ "-byte limit")
  else .ok frame.bytes

def readU16 (low high : BitVec 8) : BitVec 16 := BitVec.ofNat 16 (decode [low, high])

def decodeHeader : List (BitVec 8) → Option FrameHeader
  | type :: id₀ :: id₁ :: status₀ :: status₁ :: length₀ :: length₁ :: _ =>
    some ⟨type, readU16 id₀ id₁, readU16 status₀ status₁, readU16 length₀ length₁⟩
  | _ => none

/-- The first whole frame and the bytes that follow it. -/
def takeFrame (received : List (BitVec 8)) :
    Except String (Option (Frame × List (BitVec 8))) :=
  match decodeHeader received with
  | none => .ok none
  | some header =>
    if header.dataLength.toNat > kMaxDataSize then
      .error ("reply claims " ++ toString header.dataLength.toNat ++
        " data bytes, more than the " ++ toString kMaxDataSize ++ "-byte limit")
    else
      let size := kHeaderSize + header.dataLength.toNat
      if received.length < size then .ok none
      else
        .ok (some (⟨header.type, header.sequenceId, header.status,
          (received.take size).drop kHeaderSize⟩, received.drop size))

/-- A frame `encodeFrame` accepts. -/
def Frame.Fits (frame : Frame) : Prop := frame.data.length ≤ kMaxDataSize
  deriving Decidable

def Frame.header (frame : Frame) : FrameHeader :=
  ⟨frame.type, frame.sequenceId, frame.status, BitVec.ofNat 16 frame.data.length⟩

variable {frame : Frame}

@[simp] theorem Frame.length_bytes (frame : Frame) :
    frame.bytes.length = kHeaderSize + frame.data.length := by
  simp only [Frame.bytes, List.length_append, length_encode, List.length_singleton, kHeaderSize]

theorem readU16_encode (v : ℕ) :
    readU16 (BitVec.ofNat 8 v) (BitVec.ofNat 8 (v / 256)) = BitVec.ofNat 16 v := by
  have h : decode [BitVec.ofNat 8 v, BitVec.ofNat 8 (v / 256)] = v % 256 ^ 2 := decode_encode 2 v
  rw [readU16, h]
  exact BitVec.eq_of_toNat_eq (by simp)

theorem decodeHeader_bytes (frame : Frame) (rest : List (BitVec 8)) :
    decodeHeader (frame.bytes ++ rest) = some frame.header := by
  simp only [Frame.bytes, encode, List.cons_append, List.nil_append, decodeHeader,
    readU16_encode, Frame.header]
  rw [BitVec.ofNat_toNat, BitVec.ofNat_toNat, BitVec.setWidth_eq, BitVec.setWidth_eq]

theorem decodeHeader_eq_none {bytes : List (BitVec 8)} (h : bytes.length < kHeaderSize) :
    decodeHeader bytes = none := by
  unfold decodeHeader
  split
  · simp only [List.length_cons, kHeaderSize] at h
    omega
  · rfl

theorem Frame.Fits.dataLength_header (h : frame.Fits) :
    frame.header.dataLength.toNat = frame.data.length := by
  have hl : frame.data.length ≤ 512 := h
  rw [Frame.header, BitVec.toNat_ofNat]
  omega

theorem takeFrame_bytes (h : frame.Fits) (rest : List (BitVec 8)) :
    takeFrame (frame.bytes ++ rest) = .ok (some (frame, rest)) := by
  have hl := h.dataLength_header
  have hsize : kHeaderSize + frame.data.length = frame.bytes.length := frame.length_bytes.symm
  have hlimit : ¬ frame.data.length > kMaxDataSize := Nat.not_lt.mpr h
  have hwhole : ¬ (frame.bytes ++ rest).length < frame.bytes.length := by
    rw [List.length_append]
    omega
  have hdata : frame.bytes.drop kHeaderSize = frame.data := by
    simp [Frame.bytes, encode, kHeaderSize]
  simp only [takeFrame, decodeHeader_bytes, hl, hsize, if_neg hlimit, if_neg hwhole,
    List.take_left, List.drop_left, hdata]
  rfl

/-- A header that is there in full promises more than has arrived. -/
theorem takeFrame_part (h : frame.Fits) {bytes : List (BitVec 8)}
    (hp : bytes.IsPrefix frame.bytes) (hlt : bytes.length < frame.bytes.length) :
    takeFrame bytes = .ok none := by
  rcases Nat.lt_or_ge bytes.length kHeaderSize with hs | hs
  · simp only [takeFrame, decodeHeader_eq_none hs]
  · have hd : decodeHeader bytes = some frame.header := by
      obtain ⟨rest, hrest⟩ := hp
      have hf := decodeHeader_bytes frame []
      rw [List.append_nil, ← hrest] at hf
      match bytes, hs with
      | _ :: _ :: _ :: _ :: _ :: _ :: _ :: _, _ => exact hf
    have hlimit : ¬ frame.data.length > kMaxDataSize := Nat.not_lt.mpr h
    rw [Frame.length_bytes] at hlt
    simp only [takeFrame, hd, h.dataLength_header, if_neg hlimit, if_pos hlt]

theorem takeFrame_splits : Splits Frame.bytes takeFrame Frame.Fits where
  whole := fun _ h rest => takeFrame_bytes h rest
  part := fun _ h _ hp hlt => takeFrame_part h hp hlt
  empty := rfl

end MotionMaster.Spoe
