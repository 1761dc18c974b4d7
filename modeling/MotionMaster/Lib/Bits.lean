import Mathlib.Data.List.GetD
import Mathlib.Tactic.Ring

/-! A byte string as a string of bits, least significant bit of the first byte first. -/
namespace Bytes

variable {bytes : List (BitVec 8)} {i j k : ℕ}

/-- Bits past the end read as 0. -/
def bit (bytes : List (BitVec 8)) (i : ℕ) : Bool := (bytes.getD (i / 8) 0).getLsbD (i % 8)

@[simp] theorem bit_nil (i : ℕ) : bit [] i = false := by simp [bit]

theorem bit_cons (b : BitVec 8) (bytes : List (BitVec 8)) (j : ℕ) :
    bit (b :: bytes) j = if j < 8 then b.getLsbD j else bit bytes (j - 8) := by
  unfold bit
  by_cases h : j < 8
  · have hd : j / 8 = 0 := by omega
    have hm : j % 8 = j := by omega
    simp [h, hd, hm]
  · have hd : j / 8 = (j - 8) / 8 + 1 := by omega
    have hm : j % 8 = (j - 8) % 8 := by omega
    simp [h, hd, hm]

theorem bit_of_le (h : 8 * bytes.length ≤ i) : bit bytes i = false := by
  have hl : bytes.length ≤ i / 8 := by omega
  rw [bit, List.getD_eq_default _ _ hl]
  simp

@[simp] theorem bit_replicate_zero (n i : ℕ) : bit (List.replicate n 0) i = false := by
  by_cases h : i / 8 < n
  · simp [bit]
  · exact bit_of_le (by simp; omega)

theorem bit_set (hk : k < bytes.length) (b : BitVec 8) (i : ℕ) :
    bit (bytes.set k b) i = if i / 8 = k then b.getLsbD (i % 8) else bit bytes i := by
  unfold bit
  by_cases h : i / 8 = k
  · subst h
    simp [List.getD_eq_getElem?_getD, hk]
  · simp [List.getD_eq_getElem?_getD, List.getElem?_set_ne (Ne.symm h), h]

theorem bit_set_bit (hi : i / 8 < bytes.length) (b : BitVec 8) (v : Bool)
    (hb : ∀ j < 8, b.getLsbD j = if j = i % 8 then v else (bytes.getD (i / 8) 0).getLsbD j)
    (j : ℕ) : bit (bytes.set (i / 8) b) j = if j = i then v else bit bytes j := by
  rw [bit_set hi]
  by_cases hj : j / 8 = i / 8
  · rw [if_pos hj, hb _ (Nat.mod_lt _ (by omega))]
    by_cases hji : j = i
    · simp [hji]
    · have hm : j % 8 ≠ i % 8 := by omega
      rw [if_neg hm, if_neg hji, bit, hj]
  · have hji : j ≠ i := by
      rintro rfl
      exact hj rfl
    rw [if_neg hj, if_neg hji]

/-- Byte strings of one length with the same bits are the same. -/
theorem ext_bit {as bs : List (BitVec 8)} (hl : as.length = bs.length)
    (h : ∀ i < 8 * as.length, bit as i = bit bs i) : as = bs := by
  refine List.ext_getElem hl fun k hk hk' => ?_
  refine BitVec.eq_of_getLsbD_eq fun j hj => ?_
  have hb := h (8 * k + j) (by omega)
  have hdiv : (8 * k + j) / 8 = k := by omega
  have hmod : (8 * k + j) % 8 = j := by omega
  rwa [bit, bit, hdiv, hmod, List.getD_eq_getElem _ _ hk, List.getD_eq_getElem _ _ hk'] at hb

end Bytes
