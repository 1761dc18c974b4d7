import MotionMaster.Dump.Series
import MotionMaster.ProcessImage.Bits

/-!
# Bit fields on both sides

What `insertBits` and `extractBits` do to every bit, and what the client's `extractBits` makes of
the same field. The client finds the byte of a bit with a 32-bit shift, which is negative from bit
2³¹ on.
-/

namespace MotionMaster

open Bytes

variable {bitOffset bitLength bitOffset' bitLength' : ℕ} {buffer value value' : List (BitVec 8)}

def Apart (bitOffset bitLength bitOffset' bitLength' : ℕ) : Prop :=
  ∀ j, ¬ ((bitOffset ≤ j ∧ j < bitOffset + bitLength) ∧
    bitOffset' ≤ j ∧ j < bitOffset' + bitLength')

theorem insertBits_comm (h : bitOffset + bitLength ≤ 2 ^ 32)
    (h' : bitOffset' + bitLength' ≤ 2 ^ 32) (ha : Apart bitOffset bitLength bitOffset' bitLength') :
    insertBits (insertBits buffer bitOffset bitLength value) bitOffset' bitLength' value' =
      insertBits (insertBits buffer bitOffset' bitLength' value') bitOffset bitLength value := by
  refine ext_bit (by simp) fun j _ => ?_
  have hj := ha j
  simp only [bit_insertBits h, bit_insertBits h', length_insertBits]
  by_cases hin : bitOffset ≤ j ∧ j < bitOffset + bitLength ∧ j / 8 < buffer.length
  · rw [if_neg (by tauto), if_pos hin, if_pos hin]
  · rw [if_neg hin, if_neg hin]

theorem bit_extractBits_insertBits (h : bitOffset + bitLength ≤ 2 ^ 32) (size i : ℕ) :
    bit (extractBits (insertBits buffer bitOffset bitLength value) bitOffset bitLength size) i =
      (decide (i < bitLength ∧ i < 8 * size ∧ bitOffset + i < 8 * buffer.length) &&
        bit value i) := by
  rw [bit_extractBits h, bit_insertBits h, Nat.add_sub_cancel_left]
  by_cases hi : i < bitLength
  · by_cases hb : bitOffset + i < 8 * buffer.length
    · rw [if_pos (by omega)]
      simp [hi, hb]
    · rw [if_neg (by omega), bit_of_le (by omega)]
      simp [hb]
  · simp [hi]

/-- On whole bytes the two loops of `insertBits` do the same. -/
theorem insertByteLoop_eq_insertBitLoop (h : bitOffset + bitLength ≤ 2 ^ 32)
    (ho : bitOffset % 8 = 0) (hl : bitLength % 8 = 0) :
    insertByteLoop (bitOffset / 8) value 0 (bitLength / 8) buffer =
      insertBitLoop bitOffset value 0 bitLength buffer := by
  refine ext_bit (by simp) fun j _ => ?_
  have hbytes := bit_insertBits h buffer value j
  rw [insertBits, if_pos ⟨ho, hl⟩] at hbytes
  rw [hbytes, bit_insertBitLoop _ _ (by omega), Nat.add_zero]

/-- On whole bytes the two loops of `extractBits` do the same. -/
theorem extractByteLoop_eq_extractBitLoop (h : bitOffset + bitLength ≤ 2 ^ 32)
    (ho : bitOffset % 8 = 0) (hl : bitLength % 8 = 0) (size : ℕ) :
    extractByteLoop buffer (bitOffset / 8) 0 (min size ((bitLength + 7) / 8))
        (List.replicate size 0) =
      extractBitLoop buffer bitOffset (min size ((bitLength + 7) / 8)) 0 bitLength
        (List.replicate size 0) := by
  refine ext_bit (by simp) fun j _ => ?_
  have hbytes := bit_extractBits h buffer size j
  rw [extractBits, if_pos ⟨ho, hl⟩] at hbytes
  rw [hbytes, bit_extractBitLoop (by omega) (by simp) fun j _ => bit_replicate_zero size j]
  by_cases hr : j < bitLength ∧ j < 8 * size
  · rw [if_pos (by omega), decide_eq_true hr, Bool.true_and]
  · rw [if_neg (by omega), decide_eq_false hr, Bool.false_and, bit_replicate_zero]

namespace Dump

variable {src out : List (BitVec 8)}

/-- The client does not get to bit `i` of the field. -/
def Unreached (bitOffset bitLength i : ℕ) : Prop :=
  if bitOffset % 8 = 0 ∧ bitLength % 8 = 0 then 2 ^ 31 ≤ bitOffset else 2 ^ 31 ≤ bitOffset + i
  deriving Decidable

variable {n : ℕ}

theorem toInt32_of_ge (h : 2 ^ 31 ≤ n) (h' : n < 2 ^ 32) : toInt32 n = n - 2 ^ 32 := by
  simp only [toInt32, BitVec.toInt_eq_toNat_cond, BitVec.toNat_ofNat]
  split <;> omega

theorem getD_copyBytes (src : List (BitVec 8)) (byteOffset : Int) {k : ℕ} (hk : k < n) :
    (copyBytes src byteOffset n).getD k 0 = byteAt src (byteOffset + k) := by
  induction n generalizing byteOffset k with
  | zero => omega
  | succ n ih =>
    unfold copyBytes
    split_ifs with hin
    · cases k with
      | zero => simp
      | succ k =>
        rw [List.getD_cons_succ, ih _ (by omega)]
        push_cast
        congr 1
        ring
    · -- behind the end of the source
      have hpast : src.length ≤ (byteOffset + k).toNat := by omega
      rw [byteAt, if_neg (by omega), List.getD_eq_default _ _ hpast]
      simp [List.getD_eq_getElem?_getD, hk]

theorem getLsbD_byteAt (src : List (BitVec 8)) (i : Int) (j : ℕ) :
    (byteAt src i).getLsbD j = (decide (0 ≤ i) && (src.getD i.toNat 0).getLsbD j) := by
  unfold byteAt
  by_cases hi : i < 0
  · simp [hi]
  · simp [hi, Int.not_lt.mp hi]

/-- The loop over bytes reads nothing once its offset is negative. -/
theorem bit_copyBytes (ho : bitOffset % 8 = 0) (h : bitOffset + bitLength ≤ 2 ^ 32)
    (ho' : bitOffset < 2 ^ 32) {j : ℕ} (hj : j < bitLength) :
    bit (copyBytes src (toInt32 bitOffset / 8) ((bitLength + 7) / 8)) j =
      (decide (bitOffset < 2 ^ 31) && bit src (bitOffset + j)) := by
  rw [bit, getD_copyBytes _ _ (by omega), getLsbD_byteAt]
  by_cases hlow : bitOffset < 2 ^ 31
  · have hat : toInt32 bitOffset / 8 + ((j / 8 : ℕ) : Int) = ((bitOffset + j) / 8 : ℕ) := by
      rw [toInt32_of_lt hlow]
      omega
    have hm : (bitOffset + j) % 8 = j % 8 := by omega
    rw [hat, Int.toNat_natCast, bit, hm, decide_eq_true hlow, decide_eq_true (by omega)]
  · have hat : toInt32 bitOffset / 8 + ((j / 8 : ℕ) : Int) < 0 := by
      rw [toInt32_of_ge (by omega) ho']
      omega
    rw [decide_eq_false hlow, decide_eq_false (Int.not_le.mpr hat), Bool.false_and, Bool.false_and]

theorem bit_modify (k : ℕ) (f : BitVec 8 → BitVec 8) (hk : k < out.length) (j : ℕ) :
    bit (out.modify k f) j =
      if j / 8 = k then (f (out.getD k 0)).getLsbD (j % 8) else bit out j := by
  have hset : out.modify k f = out.set k (f (out.getD k 0)) := by
    rw [List.modify_eq_set_getElem? , List.getElem?_eq_getElem hk]
    simp [hk]
  rw [hset, bit_set hk]

theorem getLsbD_bit_shiftLeft (x : BitVec 8) {k m : ℕ} (hn : n < 8) :
    (((x >>> k) &&& 1) <<< m).getLsbD n = (decide (n = m) && x.getLsbD k) := by
  rw [BitVec.getLsbD_shiftLeft, BitVec.getLsbD_and, BitVec.getLsbD_ushiftRight]
  by_cases hnm : n = m
  · subst hnm
    simp [hn]
  · by_cases hlt : n < m
    · simp [hlt, hnm]
    · have hpos : n - m ≠ 0 := by omega
      have hone : (1 : BitVec 8).getLsbD (n - m) = false := by
        simp [hpos]
      rw [hone]
      simp [hnm]

theorem getLsbD_byteAt_toInt32 (h : n < 2 ^ 32) :
    (byteAt src (toInt32 n / 8)).getLsbD (n % 8) = (decide (n < 2 ^ 31) && bit src n) := by
  rw [getLsbD_byteAt]
  by_cases hlow : n < 2 ^ 31
  · have hat : toInt32 n / 8 = ((n / 8 : ℕ) : Int) := by
      rw [toInt32_of_lt hlow]
      omega
    rw [hat, Int.toNat_natCast, decide_eq_true hlow, decide_eq_true (by omega), bit]
  · have hat : toInt32 n / 8 < 0 := by
      rw [toInt32_of_ge (by omega) h]
      omega
    rw [decide_eq_false hlow, decide_eq_false (Int.not_le.mpr hat), Bool.false_and, Bool.false_and]

/-- The loop over bits reads nothing from bit 2³¹ on. -/
theorem bit_copyBits {i todo : ℕ} (hs : bitOffset + i + todo ≤ 2 ^ 32)
    (hl : i + todo ≤ 8 * out.length) (hz : ∀ j, i ≤ j → bit out j = false) (j : ℕ) :
    bit (copyBits src bitOffset todo i out) j =
      if i ≤ j ∧ j < i + todo then (decide (bitOffset + j < 2 ^ 31) && bit src (bitOffset + j))
      else bit out j := by
  induction todo generalizing i out with
  | zero =>
    rw [if_neg (by omega)]
    rfl
  | succ todo ih =>
    simp only [copyBits]
    split
    · -- the source ends here: every later bit is past it
      rename_i hend
      have hlow : bitOffset + i < 2 ^ 31 := by
        by_contra hhigh
        have := toInt32_neg (Nat.le_of_not_lt hhigh) (by omega)
        omega
      rw [toInt32_of_lt hlow] at hend
      split
      · rw [hz j (by omega), bit_of_le (by omega), Bool.and_false]
      · rfl
    · have hset : ∀ j, bit (out.modify (i / 8)
          (· ||| ((byteAt src (toInt32 (bitOffset + i) / 8) >>> ((bitOffset + i) % 8)) &&& 1) <<<
            (i % 8))) j =
          if j = i then (decide (bitOffset + i < 2 ^ 31) && bit src (bitOffset + i))
          else bit out j := by
        intro j
        rw [bit_modify _ _ (by omega), BitVec.getLsbD_or, getLsbD_bit_shiftLeft _ (by omega),
          getLsbD_byteAt_toInt32 (by omega)]
        by_cases hji : j = i
        · subst hji
          rw [if_pos rfl, if_pos rfl, decide_eq_true rfl, Bool.true_and]
          have hi : (out.getD (j / 8) 0).getLsbD (j % 8) = false := hz j (le_refl j)
          rw [hi, Bool.false_or]
        · rw [if_neg hji]
          by_cases hbyte : j / 8 = i / 8
          · rw [if_pos hbyte, decide_eq_false (by omega), Bool.false_and, Bool.or_false, bit, hbyte]
          · rw [if_neg hbyte]
      rw [ih (by omega) (by rw [List.length_modify]; omega) fun k hk => by
        rw [hset, if_neg (by omega), hz k (by omega)], hset]
      by_cases hj : j = i
      · rw [if_neg (by omega), if_pos hj, if_pos (by omega), hj]
      · rw [if_neg hj]
        by_cases hr : i + 1 ≤ j ∧ j < i + 1 + todo
        · rw [if_pos hr, if_pos (by omega)]
        · rw [if_neg hr, if_neg (by omega)]

theorem length_copyBits (src : List (BitVec 8)) (bitOffset todo i : ℕ) (out : List (BitVec 8)) :
    (copyBits src bitOffset todo i out).length = out.length := by
  induction todo generalizing i out with
  | zero => rfl
  | succ todo ih =>
    simp only [copyBits]
    split
    · rfl
    · rw [ih, List.length_modify]

theorem length_extractBits (src : List (BitVec 8)) (bitOffset bitLength : ℕ) :
    (extractBits src bitOffset bitLength).length = (bitLength + 7) / 8 := by
  unfold extractBits
  split
  · rw [length_copyBytes]
  · rw [length_copyBits, List.length_replicate]

/-- The client's field has the bits it gets to, and zeros for the others. -/
theorem bit_extractBits (h : bitOffset + bitLength ≤ 2 ^ 32) (h' : bitOffset < 2 ^ 32) (j : ℕ) :
    bit (extractBits src bitOffset bitLength) j =
      (decide (j < bitLength ∧ ¬ Unreached bitOffset bitLength j) && bit src (bitOffset + j)) := by
  unfold extractBits
  split
  · rename_i ha
    by_cases hj : j < bitLength
    · rw [bit_copyBytes ha.1 h h' hj]
      simp [Unreached, ha, hj]
    · rw [bit_of_le (by rw [length_copyBytes]; omega)]
      simp [hj]
  · rename_i ha
    rw [bit_copyBits (by omega) (by simp; omega) fun j _ => bit_replicate_zero _ j]
    by_cases hj : j < bitLength
    · simp [Unreached, ha, hj]
    · rw [if_neg (by omega), bit_replicate_zero]
      simp [hj]

end Dump

/-- What the four functions promise for one field of one buffer. -/
structure FieldLaws (buffer value : List (BitVec 8)) (bitOffset bitLength : ℕ) : Prop where
  keepsSize : (insertBits buffer bitOffset bitLength value).length = buffer.length
  inserts : ∀ j, bit (insertBits buffer bitOffset bitLength value) j =
    if bitOffset ≤ j ∧ j < bitOffset + bitLength ∧ j < 8 * buffer.length then
      bit value (j - bitOffset)
    else bit buffer j
  extractsSize : ∀ size, (extractBits buffer bitOffset bitLength size).length = size
  extracts : ∀ size i, bit (extractBits buffer bitOffset bitLength size) i =
    (decide (i < bitLength ∧ i < 8 * size) && bit buffer (bitOffset + i))
  restores : ∀ size i,
    bit (extractBits (insertBits buffer bitOffset bitLength value) bitOffset bitLength size) i =
      (decide (i < bitLength ∧ i < 8 * size ∧ bitOffset + i < 8 * buffer.length) && bit value i)
  commutes : ∀ bitOffset' bitLength' value', bitOffset' + bitLength' < 2 ^ 32 →
    Apart bitOffset bitLength bitOffset' bitLength' →
    insertBits (insertBits buffer bitOffset bitLength value) bitOffset' bitLength' value' =
      insertBits (insertBits buffer bitOffset' bitLength' value') bitOffset bitLength value
  insertsBytes : bitOffset % 8 = 0 → bitLength % 8 = 0 →
    insertByteLoop (bitOffset / 8) value 0 (bitLength / 8) buffer =
      insertBitLoop bitOffset value 0 bitLength buffer
  extractsBytes : bitOffset % 8 = 0 → bitLength % 8 = 0 → ∀ size,
    extractByteLoop buffer (bitOffset / 8) 0 (min size ((bitLength + 7) / 8))
        (List.replicate size 0) =
      extractBitLoop buffer bitOffset (min size ((bitLength + 7) / 8)) 0 bitLength
        (List.replicate size 0)
  mirrored : Dump.extractBits buffer bitOffset bitLength =
    extractBits buffer bitOffset bitLength ((bitLength + 7) / 8)

/-- The client has the same bits exactly if those it does not get to are zero. -/
theorem mirrored_iff (h : bitOffset + bitLength < 2 ^ 32) :
    Dump.extractBits buffer bitOffset bitLength =
        extractBits buffer bitOffset bitLength ((bitLength + 7) / 8) ↔
      ∀ i < bitLength, Dump.Unreached bitOffset bitLength i →
        bit buffer (bitOffset + i) = false := by
  have hclient := @Dump.bit_extractBits _ _ buffer (Nat.le_of_lt h) (by omega)
  have hdriver := bit_extractBits (Nat.le_of_lt h) buffer ((bitLength + 7) / 8)
  constructor
  · intro heq i hi hu
    have hbit := hdriver i
    rw [← heq, hclient i, decide_eq_false (fun hc => hc.2 hu), Bool.false_and,
      decide_eq_true ⟨hi, by omega⟩, Bool.true_and] at hbit
    exact hbit.symm
  · intro hzero
    refine ext_bit (by rw [Dump.length_extractBits, length_extractBits]) fun i _ => ?_
    rw [hdriver i, hclient i]
    by_cases hi : i < bitLength
    · by_cases hu : Dump.Unreached bitOffset bitLength i
      · rw [hzero i hi hu, Bool.and_false, Bool.and_false]
      · rw [decide_eq_true (And.intro hi hu), decide_eq_true ⟨hi, by omega⟩]
    · rw [decide_eq_false (fun hc => hi hc.1), decide_eq_false (fun hc => hi hc.1)]

/-- Everything but the mirror image holds of every field. -/
theorem fieldLaws_of_mirrored (h : bitOffset + bitLength < 2 ^ 32)
    (hm : Dump.extractBits buffer bitOffset bitLength =
      extractBits buffer bitOffset bitLength ((bitLength + 7) / 8)) :
    FieldLaws buffer value bitOffset bitLength where
  keepsSize := length_insertBits _ _ _ _
  inserts j := by
    rw [bit_insertBits (Nat.le_of_lt h)]
    simp only [show j / 8 < buffer.length ↔ j < 8 * buffer.length by omega]
  extractsSize := length_extractBits _ _ _
  extracts := bit_extractBits (Nat.le_of_lt h) buffer
  restores := bit_extractBits_insertBits (Nat.le_of_lt h)
  commutes _ _ _ h' := insertBits_comm (Nat.le_of_lt h) (Nat.le_of_lt h')
  insertsBytes := insertByteLoop_eq_insertBitLoop (Nat.le_of_lt h)
  extractsBytes := extractByteLoop_eq_extractBitLoop (Nat.le_of_lt h)
  mirrored := hm

theorem fieldLaws_iff (buffer value : List (BitVec 8)) (bitOffset bitLength : ℕ)
    (h : bitOffset + bitLength < 2 ^ 32) : FieldLaws buffer value bitOffset bitLength ↔
      ∀ i < bitLength, Dump.Unreached bitOffset bitLength i →
        bit buffer (bitOffset + i) = false := by
  rw [← mirrored_iff h]
  exact ⟨FieldLaws.mirrored, fieldLaws_of_mirrored h⟩

/-- A field of twelve bits across two bytes. -/
theorem crossing_fieldLaws : FieldLaws [0x5A, 0xC3, 0x0F] [0xFF, 0x07] 6 12 :=
  (fieldLaws_iff _ _ 6 12 (by decide)).mpr (by decide)

theorem bit_replicate_append_one (n : ℕ) : bit (List.replicate n 0 ++ [1]) (8 * n) = true := by
  have hlen : (8 * n) / 8 = (List.replicate n (0 : BitVec 8)).length := by
    rw [List.length_replicate]
    omega
  rw [bit, hlen, List.getD_append_right _ _ _ _ le_rfl]
  simp

/-- 256 MiB of zeros, and a one behind them that only the driver reads. -/
theorem farByte_not_fieldLaws :
    ¬ FieldLaws (List.replicate (2 ^ 28) 0 ++ [1]) [] (8 * 2 ^ 28) 8 := by
  intro h
  have hzero := (mirrored_iff (by decide)).mp h.mirrored 0 (by decide) (by decide)
  rw [Nat.add_zero, bit_replicate_append_one] at hzero
  cases hzero

end MotionMaster
