import MotionMaster.Lib.Bits

/-! Bit fields of the process image: `insertBits`, `extractBits` and what each does to every bit. -/
namespace MotionMaster

open Bytes

/-- `(b & ~mask) | (v ? mask : 0)` for the mask of one bit. -/
def assignBit (b : BitVec 8) (k : ℕ) (v : Bool) : BitVec 8 :=
  (b &&& ~~~(1#8 <<< k)) ||| (if v then 1#8 <<< k else 0#8)

/-- The byte-aligned loop, `n` bytes from byte `i` of the value on. -/
def insertByteLoop (byteOffset : ℕ) (value : List (BitVec 8)) :
    ℕ → ℕ → List (BitVec 8) → List (BitVec 8)
  | _, 0, dst => dst
  | i, n + 1, dst =>
    let k := (byteOffset + i) % 2 ^ 32
    if k < dst.length then insertByteLoop byteOffset value (i + 1) n (dst.set k (value.getD i 0))
    else dst

/-- The bit loop, `n` bits from bit `i` of the value on. -/
def insertBitLoop (bitOffset : ℕ) (value : List (BitVec 8)) :
    ℕ → ℕ → List (BitVec 8) → List (BitVec 8)
  | _, 0, dst => dst
  | i, n + 1, dst =>
    let dstBit := (bitOffset + i) % 2 ^ 32
    if dst.length ≤ dstBit / 8 then dst
    else insertBitLoop bitOffset value (i + 1) n
      (dst.set (dstBit / 8) (assignBit (dst.getD (dstBit / 8) 0) (dstBit % 8) (bit value i)))

def insertBits (dst : List (BitVec 8)) (bitOffset bitLength : ℕ) (value : List (BitVec 8)) :
    List (BitVec 8) :=
  if bitOffset % 8 = 0 ∧ bitLength % 8 = 0 then
    insertByteLoop (bitOffset / 8) value 0 (bitLength / 8) dst
  else insertBitLoop bitOffset value 0 bitLength dst

def extractByteLoop (src : List (BitVec 8)) (byteOffset : ℕ) :
    ℕ → ℕ → List (BitVec 8) → List (BitVec 8)
  | _, 0, out => out
  | i, n + 1, out =>
    if byteOffset + i < src.length then
      extractByteLoop src byteOffset (i + 1) n (out.set i (src.getD (byteOffset + i) 0))
    else out

def extractBitLoop (src : List (BitVec 8)) (bitOffset valueBytes : ℕ) :
    ℕ → ℕ → List (BitVec 8) → List (BitVec 8)
  | _, 0, out => out
  | i, n + 1, out =>
    let srcBit := (bitOffset + i) % 2 ^ 32
    if src.length ≤ srcBit / 8 ∨ valueBytes ≤ i / 8 then out
    else extractBitLoop src bitOffset valueBytes (i + 1) n
      (out.set (i / 8) (out.getD (i / 8) 0 ||| (if bit src srcBit then 1#8 <<< (i % 8) else 0#8)))

/-- Into a buffer of `size` bytes, zeroed first. -/
def extractBits (src : List (BitVec 8)) (bitOffset bitLength size : ℕ) : List (BitVec 8) :=
  let valueBytes := min size ((bitLength + 7) / 8)
  if bitOffset % 8 = 0 ∧ bitLength % 8 = 0 then
    extractByteLoop src (bitOffset / 8) 0 valueBytes (List.replicate size 0)
  else extractBitLoop src bitOffset valueBytes 0 bitLength (List.replicate size 0)

theorem getLsbD_one_shiftLeft {j k : ℕ} (hj : j < 8) :
    (1#8 <<< k).getLsbD j = decide (j = k) := by
  simp only [BitVec.getLsbD_shiftLeft, hj, decide_true, Bool.true_and]
  by_cases hk : j < k
  · simp [hk]
    omega
  · simp only [hk, decide_false, Bool.not_false, Bool.true_and, BitVec.getLsbD_one]
    simp
    omega

theorem getLsbD_assignBit {b : BitVec 8} {j k : ℕ} {v : Bool} (hj : j < 8) :
    (assignBit b k v).getLsbD j = if j = k then v else b.getLsbD j := by
  have hm := getLsbD_one_shiftLeft (k := k) hj
  cases v <;> simp only [assignBit, Bool.false_eq_true, if_false, if_true, BitVec.getLsbD_or,
    BitVec.getLsbD_and, BitVec.getLsbD_not, BitVec.getLsbD_zero, hm] <;>
    by_cases hjk : j = k <;> simp [hj, hjk]

@[simp] theorem length_insertByteLoop (byteOffset : ℕ) (value : List (BitVec 8)) (i n : ℕ)
    (dst : List (BitVec 8)) : (insertByteLoop byteOffset value i n dst).length = dst.length := by
  induction n generalizing i dst with
  | zero => rfl
  | succ n ih =>
    simp only [insertByteLoop]
    split
    · simp [ih]
    · rfl

@[simp] theorem length_insertBitLoop (bitOffset : ℕ) (value : List (BitVec 8)) (i n : ℕ)
    (dst : List (BitVec 8)) : (insertBitLoop bitOffset value i n dst).length = dst.length := by
  induction n generalizing i dst with
  | zero => rfl
  | succ n ih =>
    simp only [insertBitLoop]
    split
    · rfl
    · simp [ih]

@[simp] theorem length_insertBits (dst : List (BitVec 8)) (bitOffset bitLength : ℕ)
    (value : List (BitVec 8)) : (insertBits dst bitOffset bitLength value).length = dst.length := by
  unfold insertBits
  split <;> simp

theorem bit_insertByteLoop {byteOffset i n : ℕ} (value : List (BitVec 8)) (dst : List (BitVec 8))
    (h : byteOffset + i + n ≤ 2 ^ 32) (j : ℕ) :
    bit (insertByteLoop byteOffset value i n dst) j =
      if byteOffset + i ≤ j / 8 ∧ j / 8 < byteOffset + i + n ∧ j / 8 < dst.length then
        bit value (j - 8 * byteOffset)
      else bit dst j := by
  induction n generalizing i dst with
  | zero =>
    rw [if_neg (by omega)]
    rfl
  | succ n ih =>
    have hm : (byteOffset + i) % 2 ^ 32 = byteOffset + i := Nat.mod_eq_of_lt (by omega)
    simp only [insertByteLoop, hm]
    split
    · rename_i hk
      rw [ih _ (by omega), List.length_set, bit_set hk]
      by_cases hj : j / 8 = byteOffset + i
      · have hv : bit value (j - 8 * byteOffset) = (value.getD i 0).getLsbD (j % 8) := by
          have hd : (j - 8 * byteOffset) / 8 = i := by omega
          have hr : (j - 8 * byteOffset) % 8 = j % 8 := by omega
          rw [bit, hd, hr]
        rw [if_neg (by omega), if_pos hj, if_pos (by omega), hv]
      · rw [if_neg hj]
        by_cases hr : byteOffset + (i + 1) ≤ j / 8 ∧ j / 8 < byteOffset + (i + 1) + n ∧
            j / 8 < dst.length
        · rw [if_pos hr, if_pos (by omega)]
        · rw [if_neg hr, if_neg (by omega)]
    · rw [if_neg (by omega)]

variable {bitOffset : ℕ}

theorem bit_insertBitLoop {i n : ℕ} (value : List (BitVec 8)) (dst : List (BitVec 8))
    (h : bitOffset + i + n ≤ 2 ^ 32) (j : ℕ) :
    bit (insertBitLoop bitOffset value i n dst) j =
      if bitOffset + i ≤ j ∧ j < bitOffset + i + n ∧ j / 8 < dst.length then
        bit value (j - bitOffset)
      else bit dst j := by
  induction n generalizing i dst with
  | zero =>
    rw [if_neg (by omega)]
    rfl
  | succ n ih =>
    have hm : (bitOffset + i) % 2 ^ 32 = bitOffset + i := Nat.mod_eq_of_lt (by omega)
    simp only [insertBitLoop, hm]
    split
    · rw [if_neg (by omega)]
    · rw [ih _ (by omega), List.length_set,
        bit_set_bit (by omega) _ (bit value i) fun _ => getLsbD_assignBit]
      by_cases hj : j = bitOffset + i
      · have hv : j - bitOffset = i := by omega
        rw [if_neg (by omega), if_pos hj, if_pos (by omega), hv]
      · rw [if_neg hj]
        by_cases hr : bitOffset + (i + 1) ≤ j ∧ j < bitOffset + (i + 1) + n ∧ j / 8 < dst.length
        · rw [if_pos hr, if_pos (by omega)]
        · rw [if_neg hr, if_neg (by omega)]

/-- Exactly the bits of the field change, and they are the value's. -/
theorem bit_insertBits {bitLength : ℕ} (h : bitOffset + bitLength ≤ 2 ^ 32)
    (dst value : List (BitVec 8)) (j : ℕ) :
    bit (insertBits dst bitOffset bitLength value) j =
      if bitOffset ≤ j ∧ j < bitOffset + bitLength ∧ j / 8 < dst.length then
        bit value (j - bitOffset)
      else bit dst j := by
  unfold insertBits
  split
  · have hb : 8 * (bitOffset / 8) = bitOffset := by omega
    rw [bit_insertByteLoop _ _ (by omega), hb]
    by_cases hr : bitOffset ≤ j ∧ j < bitOffset + bitLength ∧ j / 8 < dst.length
    · rw [if_pos hr, if_pos (by omega)]
    · rw [if_neg hr, if_neg (by omega)]
  · rw [bit_insertBitLoop _ _ (by omega), Nat.add_zero]

@[simp] theorem length_extractByteLoop (src : List (BitVec 8)) (byteOffset i n : ℕ)
    (out : List (BitVec 8)) : (extractByteLoop src byteOffset i n out).length = out.length := by
  induction n generalizing i out with
  | zero => rfl
  | succ n ih =>
    unfold extractByteLoop
    split
    · rw [ih, List.length_set]
    · rfl

@[simp] theorem length_extractBitLoop (src : List (BitVec 8)) (bitOffset valueBytes i n : ℕ)
    (out : List (BitVec 8)) :
    (extractBitLoop src bitOffset valueBytes i n out).length = out.length := by
  induction n generalizing i out with
  | zero => rfl
  | succ n ih =>
    unfold extractBitLoop
    dsimp only
    split
    · rfl
    · rw [ih, List.length_set]

@[simp] theorem length_extractBits (src : List (BitVec 8)) (bitOffset bitLength size : ℕ) :
    (extractBits src bitOffset bitLength size).length = size := by
  unfold extractBits
  split <;> simp

theorem bit_extractByteLoop {src out : List (BitVec 8)} {byteOffset i n : ℕ}
    (hn : i + n ≤ out.length) (hz : ∀ j, 8 * i ≤ j → bit out j = false) (j : ℕ) :
    bit (extractByteLoop src byteOffset i n out) j =
      if 8 * i ≤ j ∧ j < 8 * (i + n) then bit src (8 * byteOffset + j) else bit out j := by
  induction n generalizing i out with
  | zero =>
    rw [if_neg (by omega)]
    rfl
  | succ n ih =>
    unfold extractByteLoop
    split
    · have hset : ∀ j, bit (out.set i (src.getD (byteOffset + i) 0)) j =
          if j / 8 = i then bit src (8 * byteOffset + j) else bit out j := by
        intro j
        rw [bit_set (by omega)]
        split
        · have hd : (8 * byteOffset + j) / 8 = byteOffset + i := by omega
          have hm : (8 * byteOffset + j) % 8 = j % 8 := by omega
          rw [bit, hd, hm]
        · rfl
      rw [ih (by rw [List.length_set]; omega) fun j hj => by
        rw [hset, if_neg (by omega), hz j (by omega)], hset]
      by_cases hj : j / 8 = i
      · rw [if_neg (by omega), if_pos hj, if_pos (by omega)]
      · rw [if_neg hj]
        by_cases hr : 8 * (i + 1) ≤ j ∧ j < 8 * (i + 1 + n)
        · rw [if_pos hr, if_pos (by omega)]
        · rw [if_neg hr, if_neg (by omega)]
    · -- the source ends here, and so do its bits
      split
      · rw [hz j (by omega), bit_of_le (by omega)]
      · rfl

theorem bit_extractBitLoop {src out : List (BitVec 8)} {valueBytes i n : ℕ}
    (hs : bitOffset + i + n ≤ 2 ^ 32) (hv : valueBytes ≤ out.length)
    (hz : ∀ j, i ≤ j → bit out j = false) (j : ℕ) :
    bit (extractBitLoop src bitOffset valueBytes i n out) j =
      if i ≤ j ∧ j < i + n ∧ j < 8 * valueBytes then bit src (bitOffset + j) else bit out j := by
  induction n generalizing i out with
  | zero =>
    rw [if_neg (by omega)]
    rfl
  | succ n ih =>
    have hm : (bitOffset + i) % 2 ^ 32 = bitOffset + i := Nat.mod_eq_of_lt (by omega)
    simp only [extractBitLoop, hm]
    split
    · split
      · rw [hz j (by omega), bit_of_le (by omega)]
      · rfl
    · have hset : ∀ j, bit (out.set (i / 8) (out.getD (i / 8) 0 |||
          (if bit src (bitOffset + i) then 1#8 <<< (i % 8) else 0#8))) j =
          if j = i then bit src (bitOffset + i) else bit out j := by
        refine bit_set_bit (by omega) _ _ fun k hk => ?_
        have hi : (out.getD (i / 8) 0).getLsbD (i % 8) = false := hz i (le_refl i)
        rw [BitVec.getLsbD_or]
        by_cases hki : k = i % 8
        · subst hki
          rw [hi, if_pos rfl]
          cases bit src (bitOffset + i) <;> simp [getLsbD_one_shiftLeft hk]
        · cases bit src (bitOffset + i) <;> simp [getLsbD_one_shiftLeft hk, hki]
      rw [ih (by omega) (by rw [List.length_set]; exact hv) fun k hk => by
        rw [hset, if_neg (by omega), hz k (by omega)], hset]
      by_cases hj : j = i
      · rw [if_neg (by omega), if_pos hj, if_pos (by omega), hj]
      · rw [if_neg hj]
        by_cases hr : i + 1 ≤ j ∧ j < i + 1 + n ∧ j < 8 * valueBytes
        · rw [if_pos hr, if_pos (by omega)]
        · rw [if_neg hr, if_neg (by omega)]

/-- The bits of the field, as many as the buffer takes, and zeros above them. -/
theorem bit_extractBits {bitLength : ℕ} (h : bitOffset + bitLength ≤ 2 ^ 32)
    (src : List (BitVec 8)) (size j : ℕ) :
    bit (extractBits src bitOffset bitLength size) j =
      (decide (j < bitLength ∧ j < 8 * size) && bit src (bitOffset + j)) := by
  have hz : ∀ k j, k ≤ j → bit (List.replicate size (0 : BitVec 8)) j = false := fun _ j _ =>
    bit_replicate_zero size j
  have hif : ∀ c : Prop, [Decidable c] → (c ↔ j < bitLength ∧ j < 8 * size) →
      (if c then bit src (bitOffset + j) else bit (List.replicate size (0 : BitVec 8)) j) =
        (decide (j < bitLength ∧ j < 8 * size) && bit src (bitOffset + j)) := by
    intro c _ hc
    by_cases hr : c
    · rw [if_pos hr, decide_eq_true (hc.mp hr), Bool.true_and]
    · rw [if_neg hr, decide_eq_false (fun h => hr (hc.mpr h)), Bool.false_and, bit_replicate_zero]
  unfold extractBits
  split
  · have hb : 8 * (bitOffset / 8) = bitOffset := by omega
    rw [bit_extractByteLoop (by simp) (hz _), hb]
    exact hif _ (by omega)
  · rw [bit_extractBitLoop (by omega) (by simp) (hz _)]
    exact hif _ (by omega)

end MotionMaster
