import Mathlib.Data.Nat.Log
import Mathlib.Tactic.Ring

/-!
# Binary floating-point patterns

The patterns of one sign, read as numbers, are in the order of the values they stand for. A pattern
of `p` fraction bits is split as `k * 2 ^ p + q`, where `q` is the significand with its leading one
and `k` the power of two it is scaled by, counted from the smallest positive number.
-/

namespace BinaryFloat

/-- A significand and its scale. Only the smallest scale has significands without a leading one. -/
structure Normal (p k q : ℕ) : Prop where
  short : q < 2 ^ (p + 1)
  leading : k = 0 ∨ 2 ^ p ≤ q

/-- The value of a finite pattern, in units of the smallest positive number. -/
def magnitude (p b : ℕ) : ℕ :=
  let k := b / 2 ^ p - 1
  (b - k * 2 ^ p) * 2 ^ k

/-- The pattern nearest to `x / 2 ^ s` units. A tie goes to the even pattern, and a significand
that becomes too long carries into the scale. -/
def nearest (p s x : ℕ) : ℕ :=
  let k := (x / 2 ^ s).log2 - p
  let q := x / 2 ^ (s + k)
  let r := 2 * (x % 2 ^ (s + k))
  k * 2 ^ p + q + if 2 ^ (s + k) < r ∨ (2 ^ (s + k) = r ∧ q % 2 = 1) then 1 else 0

variable {p s k q b c j : ℕ}

theorem exists_normal (p b : ℕ) : ∃ k q, b = k * 2 ^ p + q ∧ Normal p k q := by
  have hdiv := Nat.div_add_mod b (2 ^ p)
  rcases Nat.eq_zero_or_pos (b / 2 ^ p) with hz | hpos
  · rw [hz, Nat.mul_zero, Nat.zero_add] at hdiv
    exact ⟨0, b, by rw [Nat.zero_mul, Nat.zero_add], by rw [Nat.pow_succ]; omega, .inl rfl⟩
  · obtain ⟨k, hk⟩ := Nat.exists_eq_add_of_le' hpos
    refine ⟨k, 2 ^ p + b % 2 ^ p, ?_, by rw [Nat.pow_succ]; omega, .inr (Nat.le_add_right _ _)⟩
    rw [hk] at hdiv
    calc b = 2 ^ p * (k + 1) + b % 2 ^ p := hdiv.symm
      _ = k * 2 ^ p + (2 ^ p + b % 2 ^ p) := by ring

theorem magnitude_normal (h : Normal p k q) : magnitude p (k * 2 ^ p + q) = q * 2 ^ k := by
  have hk : (k * 2 ^ p + q) / 2 ^ p - 1 = k := by
    rw [Nat.mul_comm, Nat.mul_add_div (Nat.two_pow_pos p)]
    have hq : q / 2 ^ p < 2 := by
      rw [Nat.div_lt_iff_lt_mul (Nat.two_pow_pos p), Nat.mul_comm, ← Nat.pow_succ]
      exact h.short
    rcases h.leading with rfl | hle
    · omega
    · have := Nat.div_pos hle (Nat.two_pow_pos p)
      omega
  unfold magnitude
  dsimp only
  rw [hk, Nat.add_sub_cancel_left]

/-- The scale is what the leading bit of the value says. -/
theorem log2_normal (h : Normal p k q) : (q * 2 ^ k).log2 - p = k := by
  have hlt : q * 2 ^ k < 2 ^ (p + 1 + k) := by
    rw [Nat.pow_add]
    exact Nat.mul_lt_mul_of_pos_right h.short (Nat.two_pow_pos k)
  rcases Nat.eq_zero_or_pos (q * 2 ^ k) with hz | hpos
  · rcases h.leading with rfl | hle
    · rw [hz]
      simp
    · have := Nat.mul_pos ((Nat.two_pow_pos p).trans_le hle) (Nat.two_pow_pos k)
      omega
  · have hupper := (Nat.log2_lt hpos.ne').mpr hlt
    rcases h.leading with rfl | hle
    · omega
    · have hlower : p + k ≤ (q * 2 ^ k).log2 := by
        rw [Nat.le_log2 hpos.ne', Nat.pow_add]
        exact Nat.mul_le_mul_right _ hle
      omega

theorem nearest_normal (h : Normal p k q) : nearest p s (q * 2 ^ k * 2 ^ s) = k * 2 ^ p + q := by
  have hscale : (q * 2 ^ k * 2 ^ s / 2 ^ s).log2 - p = k := by
    rw [Nat.mul_div_cancel _ (Nat.two_pow_pos s), log2_normal h]
  have hx : q * 2 ^ k * 2 ^ s = q * 2 ^ (s + k) := by ring
  unfold nearest
  dsimp only
  rw [hscale, hx, Nat.mul_div_cancel _ (Nat.two_pow_pos _), Nat.mul_mod_left]
  have := Nat.two_pow_pos (s + k)
  rw [if_neg (by omega), Nat.add_zero]

/-- A number of at most `p + 1` significant bits is a value. -/
theorem exists_normal_of_short (hc : c < 2 ^ (p + 1)) : ∃ k q, c * 2 ^ j = q * 2 ^ k ∧
    Normal p k q := by
  induction j generalizing c with
  | zero => exact ⟨0, c, rfl, hc, .inl rfl⟩
  | succ j ih =>
    by_cases hlt : 2 * c < 2 ^ (p + 1)
    · obtain ⟨k, q, he, h⟩ := ih hlt
      exact ⟨k, q, by rw [← he]; ring, h⟩
    · refine ⟨j + 1, c, rfl, hc, .inr ?_⟩
      omega

/-- A number of at most `p + 1` significant bits is not rounded. -/
theorem magnitude_nearest (hc : c < 2 ^ (p + 1)) :
    magnitude p (nearest p s (c * 2 ^ j * 2 ^ s)) = c * 2 ^ j := by
  obtain ⟨k, q, he, h⟩ := exists_normal_of_short (j := j) hc
  rw [he, nearest_normal h, magnitude_normal h]

theorem nearest_le {x m : ℕ} (h : x / 2 ^ s < 2 ^ (p + 1 + m)) :
    nearest p s x ≤ (m + 2) * 2 ^ p := by
  have hk : (x / 2 ^ s).log2 - p ≤ m := by
    rcases Nat.eq_zero_or_pos (x / 2 ^ s) with hz | hpos
    · rw [hz]
      simp
    · have := (Nat.log2_lt hpos.ne').mpr h
      omega
  have hq : x / 2 ^ (s + ((x / 2 ^ s).log2 - p)) < 2 ^ p * 2 := by
    rw [Nat.pow_add, ← Nat.div_div_eq_div_mul, Nat.div_lt_iff_lt_mul (Nat.two_pow_pos _),
      ← Nat.pow_succ, ← Nat.pow_add]
    exact Nat.lt_log2_self.trans_le (Nat.pow_le_pow_right (by decide) (by omega))
  have hm := Nat.mul_le_mul_right (2 ^ p) hk
  unfold nearest
  dsimp only
  rw [Nat.add_mul]
  split <;> omega

/-- Whichever unit a value is counted in, its significant bits are as many. -/
theorem short_of_mul {n u : ℕ} (hq : q < 2 ^ (p + 1)) (h : q * 2 ^ k = n * 2 ^ u) :
    ∃ c j, n = c * 2 ^ j ∧ c < 2 ^ (p + 1) := by
  rcases Nat.le_total u k with hle | hle
  · obtain ⟨d, rfl⟩ := Nat.exists_eq_add_of_le hle
    refine ⟨q, d, Nat.eq_of_mul_eq_mul_right (Nat.two_pow_pos u) ?_, hq⟩
    rw [← h]
    ring
  · obtain ⟨d, rfl⟩ := Nat.exists_eq_add_of_le hle
    have he : q = n * 2 ^ d := Nat.eq_of_mul_eq_mul_right (Nat.two_pow_pos k) (by rw [h]; ring)
    exact ⟨n, 0, (Nat.mul_one n).symm, (Nat.le_mul_of_pos_right n (Nat.two_pow_pos d)).trans_lt
      (he ▸ hq)⟩

/-! ### Formats -/

structure Format where
  fraction : ℕ
  exponent : ℕ
  two_le : 2 ≤ exponent

namespace Format

variable (F G : Format)

/-- The smallest positive number is `2 ^ -unit`. -/
def unit : ℕ := 2 ^ (F.exponent - 1) - 2 + F.fraction

/-- The patterns below are the finite ones, and those above are not numbers. -/
def infinity : ℕ := (2 ^ F.exponent - 1) * 2 ^ F.fraction

/-- The pattern of a natural number. -/
def ofNat (n : ℕ) : ℕ := min (nearest F.fraction 0 (n * 2 ^ F.unit)) F.infinity

/-- The pattern of a value of another format. What is not a number stays so and becomes quiet. -/
def convert (b : ℕ) : ℕ :=
  if b < F.infinity then
    min (nearest G.fraction (F.unit - G.unit) (magnitude F.fraction b * 2 ^ (G.unit - F.unit)))
      G.infinity
  else if b = F.infinity then G.infinity
  else
    G.infinity + (2 ^ (G.fraction - 1) |||
      (b - F.infinity) * 2 ^ (G.fraction - F.fraction) / 2 ^ (F.fraction - G.fraction))

/-- The natural number a finite pattern without a fraction stands for. -/
def whole (b : ℕ) : Option ℕ :=
  if b < F.infinity ∧ 2 ^ F.unit ∣ magnitude F.fraction b then
    some (magnitude F.fraction b / 2 ^ F.unit)
  else none

/-- The bits of a number that is a value of the format wherever its leading bit stands. -/
def Short (n : ℕ) : Prop := ∃ c j, n = c * 2 ^ j ∧ c < 2 ^ (F.fraction + 1)

/-- Every finite value of `F` is one of `G`. -/
structure Within : Prop where
  fraction : F.fraction ≤ G.fraction
  unit : F.unit ≤ G.unit
  range : F.fraction + 2 ^ F.exponent + (G.unit - F.unit) < G.fraction + 2 ^ G.exponent

/-- Numbers of `w` bits are not past the largest finite one. -/
def Reaches (w : ℕ) : Prop := w + F.unit + 2 < F.fraction + 2 ^ F.exponent

variable {F G} {n w : ℕ}

theorem four_le (F : Format) : 4 ≤ 2 ^ F.exponent :=
  Nat.pow_le_pow_right (by decide : 0 < 2) F.two_le

theorem whole_eq_some_iff :
    F.whole b = some n ↔ b < F.infinity ∧ magnitude F.fraction b = n * 2 ^ F.unit := by
  unfold whole
  split_ifs with h
  · rw [Option.some_inj, Nat.div_eq_iff_eq_mul_left (Nat.two_pow_pos _) h.2]
    exact (and_iff_right h.1).symm
  · exact iff_of_false nofun fun hn => h ⟨hn.1, hn.2 ▸ Nat.dvd_mul_left _ _⟩

theorem magnitude_lt (h : b < F.infinity) :
    magnitude F.fraction b < 2 ^ (F.fraction + 1 + (2 ^ F.exponent - 3)) := by
  obtain ⟨k, q, rfl, hq⟩ := exists_normal F.fraction b
  have hk : k ≤ 2 ^ F.exponent - 3 := by
    rcases hq.leading with rfl | hle
    · exact Nat.zero_le _
    · have hlt : k + 1 < 2 ^ F.exponent - 1 := by
        refine Nat.lt_of_mul_lt_mul_right (Nat.lt_of_le_of_lt ?_ h)
        rw [Nat.add_mul, Nat.one_mul]
        exact Nat.add_le_add_left hle _
      omega
  rw [magnitude_normal hq, Nat.pow_add]
  exact Nat.mul_lt_mul_of_lt_of_le hq.short (Nat.pow_le_pow_right (by decide) hk)
    (Nat.two_pow_pos _)

theorem nearest_lt_infinity {x m : ℕ} (hx : x / 2 ^ s < 2 ^ m)
    (hm : m + 2 < F.fraction + 2 ^ F.exponent) : nearest F.fraction s x < F.infinity := by
  have h4 := F.four_le
  refine (nearest_le (m := m - (F.fraction + 1)) (hx.trans_le ?_)).trans_lt ?_
  · exact Nat.pow_le_pow_right (by decide) (by omega)
  · exact Nat.mul_lt_mul_of_pos_right (by omega) (Nat.two_pow_pos _)

theorem finite_of_convert (h : F.convert G b < G.infinity) : b < F.infinity := by
  by_contra hb
  rw [convert, if_neg hb] at h
  split_ifs at h <;> omega

theorem ofNat_le (F : Format) (n : ℕ) : F.ofNat n ≤ F.infinity := Nat.min_le_right _ _

theorem convert_le (h : b ≤ F.infinity) : F.convert G b ≤ G.infinity := by
  unfold convert
  split_ifs with hlt heq
  · exact Nat.min_le_right _ _
  · exact Nat.le_refl _
  · omega

/-- A finite value that the other format has stays as it is. -/
theorem magnitude_convert (h : F.Within G) (hb : b < F.infinity) :
    F.convert G b < G.infinity ∧
      magnitude G.fraction (F.convert G b) = magnitude F.fraction b * 2 ^ (G.unit - F.unit) := by
  have h4 := F.four_le
  have hlt : nearest G.fraction 0 (magnitude F.fraction b * 2 ^ (G.unit - F.unit)) <
      G.infinity := by
    refine nearest_lt_infinity (m := F.fraction + 1 + (2 ^ F.exponent - 3) + (G.unit - F.unit)) ?_
      (by have := h.range; omega)
    rw [Nat.pow_zero, Nat.div_one, Nat.pow_add, Nat.pow_add]
    exact Nat.mul_lt_mul_of_pos_right (Nat.pow_add 2 _ _ ▸ magnitude_lt hb) (Nat.two_pow_pos _)
  have hconvert : F.convert G b =
      nearest G.fraction 0 (magnitude F.fraction b * 2 ^ (G.unit - F.unit)) := by
    rw [convert, if_pos hb, Nat.sub_eq_zero_of_le h.unit, Nat.min_eq_left hlt.le]
  rw [hconvert]
  refine ⟨hlt, ?_⟩
  obtain ⟨k, q, rfl, hq⟩ := exists_normal F.fraction b
  have hexact := magnitude_nearest (s := 0) (j := k + (G.unit - F.unit))
    (hq.short.trans_le (Nat.pow_le_pow_right (by decide) (Nat.succ_le_succ h.fraction)))
  rwa [Nat.pow_zero, Nat.mul_one, Nat.pow_add, ← Nat.mul_assoc, ← magnitude_normal hq] at hexact

theorem nearest_ofNat_lt (h : F.Reaches w) (hn : n < 2 ^ w) :
    nearest F.fraction 0 (n * 2 ^ F.unit) < F.infinity := by
  refine nearest_lt_infinity (m := w + F.unit) ?_ (by unfold Reaches at h; omega)
  rw [Nat.pow_zero, Nat.div_one, Nat.pow_add]
  exact Nat.mul_lt_mul_of_pos_right hn (Nat.two_pow_pos _)

theorem ofNat_finite (h : F.Reaches w) (hn : n < 2 ^ w) : F.ofNat n < F.infinity :=
  (Nat.min_le_left _ _).trans_lt (nearest_ofNat_lt h hn)

theorem magnitude_ofNat (h : F.Reaches w) (hn : n < 2 ^ w) (hs : F.Short n) :
    magnitude F.fraction (F.ofNat n) = n * 2 ^ F.unit := by
  obtain ⟨c, j, rfl, hc⟩ := hs
  have hexact := magnitude_nearest (s := 0) (j := j + F.unit) hc
  rw [ofNat, Nat.min_eq_left (nearest_ofNat_lt h hn).le]
  rwa [Nat.pow_zero, Nat.mul_one, Nat.pow_add, ← Nat.mul_assoc] at hexact

/-- The natural numbers the format holds. -/
theorem whole_ofNat_iff (h : F.Reaches w) (hn : n < 2 ^ w) :
    F.whole (F.ofNat n) = some n ↔ F.Short n := by
  rw [whole_eq_some_iff]
  constructor
  · rintro ⟨-, hm⟩
    obtain ⟨k, q, he, hq⟩ := exists_normal F.fraction (F.ofNat n)
    rw [he, magnitude_normal hq] at hm
    exact short_of_mul hq.short hm
  · intro hs
    exact ⟨ofNat_finite h hn, magnitude_ofNat h hn hs⟩

/-- The natural numbers that survive the way through a wider format. -/
theorem whole_convert_iff (h : F.Within G) (hF : F.Reaches w) (hG : G.Reaches w)
    (hn : n < 2 ^ w) :
    G.whole (F.convert G (G.convert F (G.ofNat n))) = some n ↔ F.Short n := by
  have hu : G.unit = F.unit + (G.unit - F.unit) := by
    have := h.unit
    omega
  rw [whole_eq_some_iff]
  constructor
  · rintro ⟨hfinite, hm⟩
    rw [(magnitude_convert h (finite_of_convert hfinite)).2] at hm
    obtain ⟨k, q, he, hq⟩ := exists_normal F.fraction (G.convert F (G.ofNat n))
    rw [he, magnitude_normal hq, hu, Nat.pow_add, ← Nat.mul_assoc, Nat.add_sub_cancel_left] at hm
    exact short_of_mul hq.short (Nat.eq_of_mul_eq_mul_right (Nat.two_pow_pos _) hm)
  · intro hs
    obtain ⟨c, j, he, hc⟩ := hs
    have hwide : G.Short n :=
      ⟨c, j, he, hc.trans_le (Nat.pow_le_pow_right (by decide) (Nat.succ_le_succ h.fraction))⟩
    have hx : n * 2 ^ G.unit = n * 2 ^ F.unit * 2 ^ (G.unit - F.unit) := by
      rw [Nat.mul_assoc, ← Nat.pow_add, ← hu]
    have hlt : nearest F.fraction (G.unit - F.unit) (n * 2 ^ G.unit) < F.infinity := by
      refine nearest_lt_infinity (m := w + F.unit) ?_ (by unfold Reaches at hF; omega)
      rw [hx, Nat.mul_div_cancel _ (Nat.two_pow_pos _), Nat.pow_add]
      exact Nat.mul_lt_mul_of_pos_right hn (Nat.two_pow_pos _)
    have hconvert : G.convert F (G.ofNat n) =
        nearest F.fraction (G.unit - F.unit) (n * 2 ^ G.unit) := by
      rw [convert, if_pos (ofNat_finite hG hn), magnitude_ofNat hG hn hwide,
        Nat.sub_eq_zero_of_le h.unit, Nat.pow_zero, Nat.mul_one, Nat.min_eq_left hlt.le]
    obtain ⟨hfinite, hm⟩ := magnitude_convert h hlt
    rw [hconvert]
    refine ⟨hfinite, hm.trans ?_⟩
    rw [hx, he, Nat.mul_assoc c, ← Nat.pow_add, magnitude_nearest hc]

end Format

/-! ### Patterns with their sign -/

section Sign

variable (F G : Format)

/-- The bits of a pattern without its sign. -/
abbrev Format.size : ℕ := F.exponent + F.fraction

def convert (b : BitVec (F.size + 1)) : BitVec (G.size + 1) :=
  .cons b.msb (.ofNat _ (F.convert G (b.setWidth F.size).toNat))

def ofInt (n : Int) : BitVec (F.size + 1) := .cons (n < 0) (.ofNat _ (F.ofNat n.natAbs))

def signed (sign : Bool) (n : ℕ) : Int := if sign then -n else n

def whole (b : BitVec (F.size + 1)) : Option Int :=
  (F.whole (b.setWidth F.size).toNat).map (signed b.msb)

/-- A finite pattern of `G` beyond the largest finite number of `F`. Patterns without their sign are
in the order of the values. -/
def Past (b : BitVec (G.size + 1)) : Prop :=
  (b.setWidth G.size).toNat < G.infinity ∧
    F.convert G (F.infinity - 1) < (b.setWidth G.size).toNat
  deriving Decidable

end Sign

section

variable {F G : Format} {w : ℕ} {n : Int}

theorem Format.infinity_lt (F : Format) : F.infinity < 2 ^ F.size := by
  rw [Format.infinity, Nat.pow_add]
  exact Nat.mul_lt_mul_of_pos_right (Nat.sub_one_lt (Nat.two_pow_pos _).ne') (Nat.two_pow_pos _)

theorem toNat_finite (h : b ≤ F.infinity) : (BitVec.ofNat F.size b).toNat = b := by
  rw [BitVec.toNat_ofNat, Nat.mod_eq_of_lt (h.trans_lt F.infinity_lt)]

theorem map_signed_iff {m : Option ℕ} :
    m.map (signed (n < 0)) = some n ↔ m = some n.natAbs := by
  cases m with
  | none => simp
  | some m =>
    rw [Option.map_some, Option.some_inj, Option.some_inj, signed]
    simp only [decide_eq_true_eq]
    split_ifs <;> omega

theorem whole_ofInt_iff (h : F.Reaches w) (hn : n.natAbs < 2 ^ w) :
    whole F (ofInt F n) = some n ↔ F.Short n.natAbs := by
  rw [← Format.whole_ofNat_iff h hn, whole, ofInt, BitVec.setWidth_cons, BitVec.msb_cons,
    toNat_finite (F.ofNat_le _), map_signed_iff]

theorem whole_convert_iff (h : F.Within G) (hF : F.Reaches w) (hG : G.Reaches w)
    (hn : n.natAbs < 2 ^ w) :
    whole G (convert F G (convert G F (ofInt G n))) = some n ↔ F.Short n.natAbs := by
  have hle := G.ofNat_le n.natAbs
  rw [← Format.whole_convert_iff h hF hG hn, whole, convert, convert, ofInt]
  simp only [BitVec.setWidth_cons, BitVec.msb_cons]
  rw [toNat_finite hle, toNat_finite (Format.convert_le hle),
    toNat_finite (Format.convert_le (Format.convert_le hle)), map_signed_iff]

end

abbrev binary32 : Format := ⟨23, 8, by decide⟩

abbrev binary64 : Format := ⟨52, 11, by decide⟩

theorem binary32_within : binary32.Within binary64 := by
  constructor <;> decide

theorem binary32_reaches : binary32.Reaches 64 := by
  unfold Format.Reaches
  decide

theorem binary64_reaches : binary64.Reaches 64 := by
  unfold Format.Reaches
  decide

theorem not_past_ofInt {n : Int} (hn : n.natAbs < 2 ^ 64) :
    ¬ Past binary32 binary64 (ofInt binary64 n) := by
  have hle : binary64.ofNat n.natAbs ≤ (1085 + 2) * 2 ^ 52 := by
    refine (Nat.min_le_left _ _).trans (nearest_le ?_)
    rw [Nat.pow_zero, Nat.div_one]
    exact (Nat.mul_lt_mul_of_pos_right hn (Nat.two_pow_pos _)).trans_le (by decide +kernel)
  rintro ⟨-, hpast⟩
  rw [ofInt, BitVec.setWidth_cons, toNat_finite (Format.ofNat_le _ _)] at hpast
  exact absurd (hpast.trans_le hle) (by decide +kernel)

end BinaryFloat
