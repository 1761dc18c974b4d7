import MotionMaster.ConfigFile.Parse
import MotionMaster.Device.Codec

/-!
# Numbers of ESI and ENI files

`parseHexDec` and `childSigned` read a magnitude without a sign and then negate it or take it as a
number with a sign. Both steps wrap, so a text out of range can be read as a number of the range.
-/

namespace MotionMaster.Etg

open Config (Text byte ascii digitOf parseWhole)

/-! ### The readers -/

def isHex : Text → Bool
  | a :: b :: _ => (a = byte '0' || a = byte '#') && (b = byte 'x' || b = byte 'X')
  | _ => false

def parseHexOrDec (t : Scalar) (s : Text) : Option Int :=
  if isHex s then parseWhole t 16 (s.drop 2) else parseWhole t 10 s

/-- Negation in 64 bits, of the lowest number too, wraps. -/
def parseHexDec (t : Scalar) : Text → Option (BitVec t.width)
  | [] => none
  | c :: s =>
    if c = byte '-' then
      match parseHexOrDec .uint64 s with
      | none => none
      | some magnitude =>
        let negated := -BitVec.ofInt 64 magnitude
        if negated.toInt < t.lowest then none else some (BitVec.ofInt t.width negated.toInt)
    else
      match parseHexOrDec .uint64 (if c = byte '+' then s else c :: s) with
      | none => none
      | some value => if value > t.highest then none else some (BitVec.ofInt t.width value)

/-- The text of the child, if the node has it, gives a number or a warning. -/
def childSigned (child : Option Text) (name path : Text) : Option (BitVec 32) × List Text :=
  match child with
  | none => (none, [])
  | some text =>
    let negative := text.head? = some (byte '-')
    let digits := if negative ∨ text.head? = some (byte '+') then text.tail else text
    match parseHexOrDec .uint32 digits with
    | none =>
      (none, [path ++ ascii ": <" ++ name ++ ascii "> is not a number: '" ++ text ++ ascii "'"])
    | some magnitude =>
      let value := BitVec.ofInt 32 magnitude
      (some (if negative then -value else value), [])

/-! ### What a text denotes -/

/-- The number the digits denote, however many there are. -/
def number (base : ℕ) (digits : Text) : Option ℕ :=
  match digits.mapM (digitOf base) with
  | none | some [] => none
  | some ds => some (Nat.ofDigits base ds.reverse)

def magnitude (s : Text) : Option ℕ := if isHex s then number 16 (s.drop 2) else number 10 s

def Negative (s : Text) : Prop := s.head? = some (byte '-')
  deriving Decidable

def withoutSign (s : Text) : Text :=
  if Negative s ∨ s.head? = some (byte '+') then s.tail else s

def denoted (s : Text) : Option ℤ :=
  (magnitude (withoutSign s)).map fun m : ℕ => if Negative s then -(m : ℤ) else m

def exactly (t : Scalar) (s : Text) : Option ℤ :=
  (denoted s).filter fun n => t.lowest ≤ n ∧ n ≤ t.highest

structure Exact (s name path : Text) : Prop where
  hexDec : ∀ t : Scalar, t.IsIntegral → (parseHexDec t s).map t.toInt = exactly t s
  signed : (childSigned (some s) name path).1.map BitVec.toInt = exactly .int32 s

variable {t : Scalar} {s : Text} {m : ℕ}

/-- A number with a minus sign, past the lowest of 64 bits. -/
def HexDecWraps (s : Text) : Prop :=
  ∃ m ∈ magnitude (withoutSign s),
    Negative s ∧ 0x8000000000000000 < m ∧ m ≤ 0xFFFFFFFFFFFFFFFF

/-- A number of 32 bits without its sign, out of the range with the sign. -/
def SignedWraps (s : Text) : Prop :=
  ∃ m ∈ magnitude (withoutSign s),
    (if Negative s then 0x80000000 < m else 0x80000000 ≤ m) ∧ m ≤ 0xFFFFFFFF

theorem parseWhole_of_unsigned (ht : ¬ t.IsSigned) (base : ℕ) (digits : Text) :
    parseWhole t base digits = (number base digits).bind fun m : ℕ =>
      if (m : ℤ) ≤ t.highest then some (m : ℤ) else none := by
  have hlow : t.lowest = 0 := if_neg ht
  unfold parseWhole number
  simp only [ht, false_and, decide_false, Bool.false_eq_true, if_false, hlow]
  cases digits.mapM (digitOf base) with
  | none => rfl
  | some ds =>
    cases ds with
    | nil => rfl
    | cons d ds => simp only [Option.bind_some, Int.natCast_nonneg, true_and]

theorem parseHexOrDec_of_unsigned (ht : ¬ t.IsSigned) (s : Text) :
    parseHexOrDec t s = (magnitude s).bind fun m : ℕ =>
      if (m : ℤ) ≤ t.highest then some (m : ℤ) else none := by
  unfold parseHexOrDec magnitude
  split <;> exact parseWhole_of_unsigned ht _ _

theorem lowest_ge (t : Scalar) : -0x8000000000000000 ≤ t.lowest := by
  cases t <;> decide

theorem lowest_nonpos (t : Scalar) : t.lowest ≤ 0 := by
  cases t <;> decide

theorem highest_nonneg (t : Scalar) : 0 ≤ t.highest := by
  cases t <;> decide

theorem highest_le (t : Scalar) : t.highest ≤ 0xFFFFFFFFFFFFFFFF := by
  cases t <;> decide

theorem negated_toInt (h : m ≤ 0xFFFFFFFFFFFFFFFF) :
    (-BitVec.ofInt 64 (m : ℤ)).toInt =
      if m ≤ 0x8000000000000000 then -(m : ℤ) else 0x10000000000000000 - m := by
  rw [← BitVec.ofInt_neg, BitVec.toInt_ofInt]
  simp only [Int.bmod]
  split <;> split <;> omega

theorem exactly_of_magnitude (hm : magnitude (withoutSign s) = some m) {n : ℤ}
    (hn : n = if Negative s then -(m : ℤ) else m) :
    exactly t s = if t.lowest ≤ n ∧ n ≤ t.highest then some n else none := by
  have hdenoted : denoted s = some n := by
    rw [denoted, hm, hn]
    rfl
  rw [exactly, hdenoted, Option.filter_some]
  simp only [decide_eq_true_eq]

theorem parseHexDec_eq (t : Scalar) (s : Text) :
    parseHexDec t s = (parseHexOrDec .uint64 (withoutSign s)).bind fun v =>
      if Negative s then
        if (-BitVec.ofInt 64 v).toInt < t.lowest then none
        else some (BitVec.ofInt t.width (-BitVec.ofInt 64 v).toInt)
      else if v > t.highest then none
      else some (BitVec.ofInt t.width v) := by
  cases s with
  | nil => rfl
  | cons c s =>
    have hnegative : Negative (c :: s) ↔ c = byte '-' := by
      rw [Negative, List.head?_cons, Option.some.injEq]
    have hsign : withoutSign (c :: s) =
        if c = byte '-' then s else if c = byte '+' then s else c :: s := by
      simp only [withoutSign, hnegative, List.head?_cons, Option.some.injEq, List.tail_cons]
      split <;> split <;> simp_all
    rw [hsign]
    simp only [parseHexDec, hnegative]
    split
    · cases parseHexOrDec .uint64 s <;> rfl
    · cases parseHexOrDec .uint64 (if c = byte '+' then s else c :: s) <;> rfl

/-- The branch for a minus sign, from the magnitude on. -/
theorem negate_exact_iff (t : Scalar) (m : ℕ) (h : m ≤ 0xFFFFFFFFFFFFFFFF) :
    (if (-BitVec.ofInt 64 (m : ℤ)).toInt < t.lowest then none
      else some (BitVec.ofInt t.width (-BitVec.ofInt 64 (m : ℤ)).toInt)).map t.toInt =
        (if t.lowest ≤ -(m : ℤ) ∧ -(m : ℤ) ≤ t.highest then some (-(m : ℤ)) else none) ↔
      m ≤ 0x8000000000000000 := by
  have hlow := lowest_ge t
  have hnonpos := lowest_nonpos t
  have hnonneg := highest_nonneg t
  rw [negated_toInt h]
  by_cases hle : m ≤ 0x8000000000000000
  · rw [if_pos hle]
    refine iff_of_true ?_ hle
    by_cases hin : t.lowest ≤ -(m : ℤ)
    · rw [if_neg (by omega), if_pos (by omega), Option.map_some, toInt_ofInt (by omega)]
    · rw [if_pos (by omega), if_neg (by omega), Option.map_none]
  · rw [if_neg hle, if_neg (by omega), if_neg (by omega)]
    exact iff_of_false (by simp) hle

theorem parseHexDec_exact_iff (t : Scalar) (s : Text) :
    (parseHexDec t s).map t.toInt = exactly t s ↔ ¬ HexDecWraps s := by
  have hlow := lowest_ge t
  have hnonpos := lowest_nonpos t
  have hhigh := highest_le t
  have huint64 : Scalar.uint64.highest = 0xFFFFFFFFFFFFFFFF := by decide
  rw [parseHexDec_eq, parseHexOrDec_of_unsigned id, huint64]
  unfold HexDecWraps
  cases hm : magnitude (withoutSign s) with
  | none => simp [exactly, denoted, hm]
  | some m =>
    rw [exactly_of_magnitude hm rfl]
    simp only [Option.bind_some, Option.mem_def, Option.some.injEq, exists_eq_left']
    by_cases hnegative : Negative s
    · simp only [hnegative, if_true, true_and]
      by_cases h : (m : ℤ) ≤ 0xFFFFFFFFFFFFFFFF
      · rw [if_pos h, Option.bind_some, negate_exact_iff t m (by omega)]
        omega
      · rw [if_neg h, if_neg (by omega)]
        exact iff_of_true rfl (by omega)
    · simp only [hnegative, if_false, false_and, not_false_iff, iff_true]
      by_cases h : (m : ℤ) ≤ t.highest
      · rw [if_pos (by omega), Option.bind_some, if_neg (by omega), if_pos (by omega),
          Option.map_some, toInt_ofInt (by omega)]
      · rw [if_neg (show ¬ (t.lowest ≤ (m : ℤ) ∧ (m : ℤ) ≤ t.highest) by omega)]
        by_cases h64 : (m : ℤ) ≤ 0xFFFFFFFFFFFFFFFF
        · rw [if_pos h64, Option.bind_some, if_pos (by omega), Option.map_none]
        · rw [if_neg h64]
          rfl

theorem signed_exact_iff (negative : Prop) [Decidable negative] (m : ℕ) (h : m ≤ 0xFFFFFFFF) :
    (if negative then -BitVec.ofInt 32 (m : ℤ) else BitVec.ofInt 32 (m : ℤ)).toInt =
        (if negative then -(m : ℤ) else m) ↔
      ¬ (if negative then 0x80000000 < m else 0x80000000 ≤ m) := by
  by_cases hnegative : negative
  · simp only [hnegative, if_true]
    rw [← BitVec.ofInt_neg, BitVec.toInt_ofInt, Int.bmod]
    split <;> omega
  · simp only [hnegative, if_false]
    rw [BitVec.toInt_ofInt, Int.bmod]
    split <;> omega

theorem childSigned_exact_iff (s name path : Text) :
    (childSigned (some s) name path).1.map BitVec.toInt = exactly .int32 s ↔ ¬ SignedWraps s := by
  have hlow : Scalar.int32.lowest = -0x80000000 := by decide
  have hhigh : Scalar.int32.highest = 0x7FFFFFFF := by decide
  have huint32 : Scalar.uint32.highest = 0xFFFFFFFF := by decide
  have hvalue : (childSigned (some s) name path).1 =
      (parseHexOrDec .uint32 (withoutSign s)).map fun v =>
        if Negative s then -BitVec.ofInt 32 v else BitVec.ofInt 32 v := by
    show Prod.fst (match parseHexOrDec .uint32 (withoutSign s) with | none => _ | some v => _) = _
    cases parseHexOrDec .uint32 (withoutSign s) <;> rfl
  rw [hvalue, parseHexOrDec_of_unsigned id, huint32]
  unfold SignedWraps
  cases hm : magnitude (withoutSign s) with
  | none => simp [exactly, denoted, hm]
  | some m =>
    rw [exactly_of_magnitude hm rfl, hlow, hhigh]
    simp only [Option.bind_some, Option.mem_def, Option.some.injEq, exists_eq_left']
    by_cases h : (m : ℤ) ≤ 0xFFFFFFFF
    · have hsigned := signed_exact_iff (Negative s) m (by omega)
      rw [if_pos h, Option.map_some, Option.map_some]
      have hrange : (-0x80000000 ≤ (if Negative s then -(m : ℤ) else m) ∧
          (if Negative s then -(m : ℤ) else m) ≤ 0x7FFFFFFF) ↔
            ¬ (if Negative s then 0x80000000 < m else 0x80000000 ≤ m) := by
        split <;> omega
      by_cases hin : if Negative s then 0x80000000 < m else 0x80000000 ≤ m
      · rw [if_neg (mt hrange.mp (not_not_intro hin))]
        exact iff_of_false (by simp) (not_not_intro ⟨hin, by omega⟩)
      · rw [if_pos (hrange.mpr hin), hsigned.mpr hin]
        exact iff_of_true rfl fun hwraps => hin hwraps.1
    · rw [if_neg h, if_neg (by split <;> omega)]
      exact iff_of_true rfl (by omega)

/-- The readers are exact for a text if and only if neither of them wraps. -/
theorem readers_exact_iff (s name path : Text) :
    Exact s name path ↔ ¬ HexDecWraps s ∧ ¬ SignedWraps s := by
  constructor
  · rintro ⟨hhexDec, hsigned⟩
    exact ⟨(parseHexDec_exact_iff .int8 s).mp (hhexDec .int8 (by decide)),
      (childSigned_exact_iff s name path).mp hsigned⟩
  · rintro ⟨hhexDec, hsigned⟩
    refine ⟨?_, (childSigned_exact_iff s name path).mpr hsigned⟩
    intro t _
    exact (parseHexDec_exact_iff t s).mpr hhexDec

/-- It is read as 1. -/
theorem not_exact_of_wrapped_minus :
    ¬ Exact (ascii "-18446744073709551615") (ascii "CycleTime1") (ascii "Slave[1]/DC") := by
  intro h
  have hread : (parseHexDec .int8 (ascii "-18446744073709551615")).map Scalar.int8.toInt =
      some 1 := by decide +kernel
  have hexact : exactly .int8 (ascii "-18446744073709551615") = none := by decide +kernel
  have hsame := h.hexDec .int8 (by decide)
  rw [hread, hexact] at hsame
  cases hsame

/-- A shift time past the positive numbers of 32 bits comes out negative. -/
example : ((childSigned (some (ascii "4294967295")) (ascii "ShiftTime") []).1.map BitVec.toInt,
    exactly .int32 (ascii "4294967295")) = (some (-1), none) := by decide +kernel

end MotionMaster.Etg
