import MotionMaster.Lib.Bytes

/-!
# Words put together from bytes

A little-endian word is read by shifting each byte to its place and joining the results.
-/

namespace Words

open Bytes (encode decode length_encode decode_encode)

/-- A byte shifted above everything set so far adds its weight. -/
theorem toNat_or_byte {w i : ℕ} {x : BitVec w} (b : BitVec 8) (hx : x.toNat < 2 ^ i)
    (hi : i + 8 ≤ w) : (x ||| b.setWidth w <<< i).toNat = x.toNat + 2 ^ i * b.toNat := by
  have hb : b.toNat < 2 ^ 8 := b.isLt
  have hle : 2 ^ (i + 8) ≤ 2 ^ w := Nat.pow_le_pow_right (by omega) hi
  have hshift : 2 ^ i * b.toNat < 2 ^ w := by
    calc 2 ^ i * b.toNat < 2 ^ i * 2 ^ 8 := by
          exact Nat.mul_lt_mul_of_pos_left hb (Nat.two_pow_pos i)
      _ = 2 ^ (i + 8) := (Nat.pow_add 2 i 8).symm
      _ ≤ 2 ^ w := hle
  have hw : b.toNat < 2 ^ w := by
    have : 2 ^ 8 ≤ 2 ^ w := Nat.pow_le_pow_right (by omega) (by omega)
    omega
  rw [BitVec.toNat_or, BitVec.toNat_shiftLeft, BitVec.toNat_setWidth, Nat.mod_eq_of_lt hw,
    Nat.shiftLeft_eq, Nat.mul_comm b.toNat, Nat.mod_eq_of_lt hshift, Nat.or_comm,
    ← Nat.two_pow_add_eq_or_of_lt hx, Nat.add_comm]

/-- The 16-bit word of two bytes, the low one first. -/
def join16 (lo hi : BitVec 8) : BitVec 16 := lo.setWidth 16 ||| hi.setWidth 16 <<< 8

/-- The 32-bit word of four bytes, the lowest first. -/
def join32 (b₀ b₁ b₂ b₃ : BitVec 8) : BitVec 32 :=
  b₀.setWidth 32 ||| b₁.setWidth 32 <<< 8 ||| b₂.setWidth 32 <<< 16 ||| b₃.setWidth 32 <<< 24

theorem toNat_join16 (lo hi : BitVec 8) : (join16 lo hi).toNat = decode [lo, hi] := by
  have hlo : (lo.setWidth 16).toNat = lo.toNat := by
    rw [BitVec.toNat_setWidth]
    omega
  rw [join16, toNat_or_byte hi (by omega) (by omega), hlo]
  simp [decode]

theorem toNat_join32 (b₀ b₁ b₂ b₃ : BitVec 8) :
    (join32 b₀ b₁ b₂ b₃).toNat = decode [b₀, b₁, b₂, b₃] := by
  have h₀ : (b₀.setWidth 32).toNat = b₀.toNat := by
    rw [BitVec.toNat_setWidth]
    omega
  have h₁ := toNat_or_byte (w := 32) (i := 8) (x := b₀.setWidth 32) b₁ (by omega) (by omega)
  have h₂ := toNat_or_byte (i := 16) b₂ (by rw [h₁]; omega) (by omega)
  have h₃ := toNat_or_byte (i := 24) b₃ (by rw [h₂, h₁]; omega) (by omega)
  rw [join32, h₃, h₂, h₁, h₀]
  simp only [decode]
  omega

theorem encode_decode (bytes : List (BitVec 8)) : encode bytes.length (decode bytes) = bytes := by
  induction bytes with
  | nil => rfl
  | cons b bytes ih =>
    have hdiv : (b.toNat + 256 * decode bytes) / 256 = decode bytes := by omega
    rw [List.length_cons, decode, encode, hdiv, ih]
    congr 1
    apply BitVec.eq_of_toNat_eq
    rw [BitVec.toNat_ofNat]
    omega

theorem encode_join16 (lo hi : BitVec 8) : encode 2 (join16 lo hi).toNat = [lo, hi] := by
  rw [toNat_join16]
  exact encode_decode [lo, hi]

theorem join16_encode (x : BitVec 16) :
    join16 (BitVec.ofNat 8 x.toNat) (BitVec.ofNat 8 (x.toNat / 256)) = x := by
  apply BitVec.eq_of_toNat_eq
  have h := decode_encode 2 x.toNat
  rw [toNat_join16]
  exact h.trans (Nat.mod_eq_of_lt x.isLt)

theorem join32_encode (x : BitVec 32) :
    join32 (BitVec.ofNat 8 x.toNat) (BitVec.ofNat 8 (x.toNat / 256))
      (BitVec.ofNat 8 (x.toNat / 256 / 256)) (BitVec.ofNat 8 (x.toNat / 256 / 256 / 256)) = x := by
  apply BitVec.eq_of_toNat_eq
  have h := decode_encode 4 x.toNat
  rw [toNat_join32]
  exact h.trans (Nat.mod_eq_of_lt x.isLt)

end Words
