import Mathlib.Data.List.DropRight
import MotionMaster.Device.Parameters

/-!
# Setting a value and reading it back

`setValue` converts, encodes and stores, `currentValue` decodes what is stored. An integer goes
through a double on its way to a REAL32 or REAL64 and is rounded there, and a VISIBLE_STRING loses
its padding when it is decoded.
-/

namespace MotionMaster

open Bytes BinaryFloat

variable (fp : FloatingPoint)

namespace DeviceParameterValue

/-- The integer a value of an integer alternative holds. -/
def integer? : DeviceParameterValue → Option Int
  | .number t bits => if t.IsIntegral then some (t.toInt bits) else none
  | .string _ | .bytes _ => none

/-- The integer a number equals, whatever its alternative. -/
def whole : DeviceParameterValue → Option Int
  | .number t bits =>
    if t.IsIntegral then some (t.toInt bits) else BinaryFloat.whole binary64 (asDouble t bits)
  | .string _ | .bytes _ => none

/-- `w` is the number, the text or the bytes that `v` is. -/
def Denotes (v w : DeviceParameterValue) : Prop :=
  match v with
  | .number t bits => t.IsIntegral → w.whole = some (t.toInt bits)
  | .string text => w = .string text
  | .bytes raw => w = .bytes raw

end DeviceParameterValue

/-- The range of a declared type. The bounds of the two floating-point types are their largest
finite numbers. -/
def Takes (n : Int) : Alternative → Prop
  | .number .float => n.natAbs ≤ 2 ^ 128 - 2 ^ 104
  | .number .double => n.natAbs ≤ 2 ^ 1024 - 2 ^ 971
  | .number t => t.lowest ≤ n ∧ n ≤ t.highest
  | .string | .bytes => False

/-- An integer has no more significant bits than the type: it is exact in a REAL32 up to 24 bits and
in a REAL64 up to 53. -/
def ExactIn (n : Int) : Scalar → Prop
  | .float => ∃ c j, n.natAbs = c * 2 ^ j ∧ c < 2 ^ 24
  | .double => ∃ c j, n.natAbs = c * 2 ^ j ∧ c < 2 ^ 53
  | _ => True

namespace DeviceParameter

def afterSetValue (p : DeviceParameter) (v : DeviceParameterValue) : DeviceParameter :=
  match p.setValue fp v with
  | .ok p' => p'
  | .error _ => p

/-- What `setValue`, `currentValue`, `rawValueBytes` and the two codec functions promise. -/
structure CodecLaws (p : DeviceParameter) (v : DeviceParameterValue) : Prop where
  shown : ∀ p', p.setValue fp v = .ok p' → v.Denotes p'.currentValue
  wide : ∀ p' t, p.setValue fp v = .ok p' → alternative p.dataType = .number t →
    p'.rawValueBytes.length = t.bytes
  decoded : ∀ p', p.setValue fp v = .ok p' →
    decodeSdoBytes p.dataType p'.rawValueBytes = .ok p'.currentValue
  kept : ∀ e, p.setValue fp v = .error e → p.afterSetValue fp v = p
  refused : ∀ n, v.integer? = some n →
    ((∃ e, p.setValue fp v = .error e) ↔ ¬ Takes n (alternative p.dataType))
  inverse : ∀ bytes, encodeSdoBytes p.dataType v = .ok bytes →
    decodeSdoBytes p.dataType bytes = .ok v

/-- An integer the declared type takes is exact in it, and a VISIBLE_STRING holds no NUL and does
not end with a space. -/
def Survives (dataType : ℕ) : DeviceParameterValue → Prop
  | .number t bits => t.IsIntegral → ∀ target, alternative dataType = .number target →
    Takes (t.toInt bits) (.number target) → ExactIn (t.toInt bits) target
  | .string text => dataType = kVisibleString → 0x00 ∉ text ∧ text.getLast? ≠ some 0x20
  | .bytes _ => True

end DeviceParameter

/-! ### Decoding what was encoded -/

variable {text : List (BitVec 8)}

theorem visibleText_eq_iff :
    visibleText text = text ↔ 0x00 ∉ text ∧ text.getLast? ≠ some 0x20 := by
  have hvisible : visibleText text = (text.takeWhile (· ≠ 0x00)).rdropWhile (· = 0x20) := rfl
  have hfree : text.takeWhile (· ≠ 0x00) = text ↔ 0x00 ∉ text := by
    rw [List.takeWhile_eq_self_iff]
    constructor
    · intro h hz
      simpa using h _ hz
    · intro h x hx
      exact decide_eq_true fun he => h (he ▸ hx)
  have hlast : text.rdropWhile (· = 0x20) = text ↔ text.getLast? ≠ some 0x20 := by
    rw [List.rdropWhile_eq_self_iff]
    constructor
    · intro h hl
      have hne : text ≠ [] := by
        rintro rfl
        cases hl
      refine h hne ?_
      rw [List.getLast?_eq_some_getLast hne] at hl
      simpa using hl
    · intro h hne hl
      refine h ?_
      rw [List.getLast?_eq_some_getLast hne]
      simpa using hl
  constructor
  · intro h
    rw [hvisible] at h
    have htake : text.takeWhile (· ≠ 0x00) = text := by
      refine (List.takeWhile_prefix _).eq_of_length_le ?_
      have hle := (List.rdropWhile_prefix (· = 0x20) (text.takeWhile (· ≠ 0x00))).length_le
      rwa [h] at hle
    rw [htake] at h
    exact ⟨hfree.mp htake, hlast.mp h⟩
  · rintro ⟨hz, hl⟩
    rw [hvisible, hfree.mpr hz]
    exact hlast.mpr hl

def decodedAs (dataType : ℕ) : DeviceParameterValue → DeviceParameterValue
  | .string text => .string (if dataType = kVisibleString then visibleText text else text)
  | v => v

variable {dataType : ℕ}

theorem decodeSdoBytes_encodeSdoBytes {v : DeviceParameterValue}
    {bytes : List (BitVec 8)} (h : encodeSdoBytes dataType v = .ok bytes) :
    decodeSdoBytes dataType bytes = .ok (decodedAs dataType v) := by
  unfold encodeSdoBytes at h
  split at h
  · rename_i t t' bits ht
    split_ifs at h with heq
    subst heq
    cases h
    have hlt : bits.toNat < 256 ^ t'.bytes := by
      have hb := bits.isLt
      cases t' <;> exact hb
    rw [decodeSdoBytes_number ht (by simp), List.take_of_length_le (by simp), decode_encode,
      Nat.mod_eq_of_lt hlt, BitVec.ofNat_toNat, BitVec.setWidth_eq]
    rfl
  · cases h
  · rename_i text ht
    cases h
    rw [decodeSdoBytes, ht]
    rfl
  · cases h
  · rename_i raw ht
    cases h
    rw [decodeSdoBytes, ht]
    rfl
  · cases h

variable {n : Int}

theorem toInt_ofInt {t : Scalar} (h : t.lowest ≤ n ∧ n ≤ t.highest) :
    t.toInt (BitVec.ofInt t.width n) = n := by
  obtain ⟨hlow, hhigh⟩ := h
  unfold Scalar.lowest at hlow
  unfold Scalar.highest at hhigh
  obtain ⟨w, hw⟩ : ∃ w, t.width = w + 1 := ⟨t.width - 1, by cases t <;> rfl⟩
  by_cases hs : t.IsSigned
  · rw [if_pos hs, hw, Nat.add_sub_cancel] at hlow hhigh
    rw [Scalar.toInt, if_pos hs, BitVec.toInt_ofInt, hw]
    refine Int.bmod_eq_of_le ?_ ?_
    · push_cast
      omega
    · push_cast
      omega
  · rw [if_neg hs] at hlow hhigh
    rw [Scalar.toInt, if_neg hs, BitVec.toNat_ofInt]
    push_cast
    rw [Int.emod_eq_of_lt hlow (by omega), Int.toNat_of_nonneg hlow]

namespace DeviceParameter

variable {fp} {p p' : DeviceParameter} {v : DeviceParameterValue}

theorem setValue_eq_ok_iff : p.setValue fp v = .ok p' ↔
    ∃ w bytes, coerce fp p.index p.subindex p.dataType v = .ok w ∧
      encodeSdoBytes p.dataType w = .ok bytes ∧ p' = p.setRawValue bytes := by
  unfold setValue encode
  rw [Except.map_eq_ok_iff]
  constructor
  · rintro ⟨bytes, hb, rfl⟩
    obtain ⟨w, hw, hb⟩ := Except.bind_eq_ok hb
    exact ⟨w, bytes, hw, hb, rfl⟩
  · rintro ⟨w, bytes, hw, hb, rfl⟩
    exact ⟨bytes, by rw [hw]; exact hb, rfl⟩

/-- What a call that succeeds makes the parameter show. -/
theorem currentValue_of_setValue (h : p.setValue fp v = .ok p') :
    ∃ w, coerce fp p.index p.subindex p.dataType v = .ok w ∧
      p'.currentValue = decodedAs p.dataType w := by
  obtain ⟨w, bytes, hw, hb, rfl⟩ := setValue_eq_ok_iff.mp h
  exact ⟨w, hw, currentValue_setRawValue (decodeSdoBytes_encodeSdoBytes hb)⟩

theorem encodeSdoBytes_of_coerce {index subindex : ℕ} {w : DeviceParameterValue}
    (h : coerce fp index subindex dataType v = .ok w) :
    ∃ bytes, encodeSdoBytes dataType w = .ok bytes := by
  unfold coerce at h
  split at h
  · rename_i target t bits ht
    split at h
    · cases h
      simp only [encodeSdoBytes, ht]
      exact ⟨_, if_pos trivial⟩
    · cases h
  · cases h
  · rename_i text ht
    cases h
    simp only [encodeSdoBytes, ht]
    exact ⟨_, rfl⟩
  · cases h
  · rename_i raw ht
    cases h
    simp only [encodeSdoBytes, ht]
    exact ⟨_, rfl⟩
  · cases h

theorem exists_setValue_iff : (∃ p', p.setValue fp v = .ok p') ↔
    ∃ w, coerce fp p.index p.subindex p.dataType v = .ok w := by
  constructor
  · rintro ⟨p', h⟩
    obtain ⟨w, hw, -⟩ := currentValue_of_setValue h
    exact ⟨w, hw⟩
  · rintro ⟨w, hw⟩
    obtain ⟨bytes, hb⟩ := encodeSdoBytes_of_coerce hw
    exact ⟨_, setValue_eq_ok_iff.mpr ⟨w, bytes, hw, hb, rfl⟩⟩

end DeviceParameter

/-! ### Integers -/

theorem takes_iff {target : Scalar} (h : target.IsIntegral) :
    Takes n (.number target) ↔ target.lowest ≤ n ∧ n ≤ target.highest := by
  cases target with
  | float => exact absurd rfl h.1
  | double => exact absurd rfl h.2
  | _ => rfl

theorem exactIn_of_integral {target : Scalar} (h : target.IsIntegral) :
    ExactIn n target := by
  cases target with
  | float => exact absurd rfl h.1
  | double => exact absurd rfl h.2
  | _ => trivial

variable {fp} {target t : Scalar} {bits : BitVec t.width}

theorem asDouble_integer (ht : t.IsIntegral) : asDouble t bits = ofInt binary64 (t.toInt bits) := by
  cases t with
  | float => exact absurd rfl ht.1
  | double => exact absurd rfl ht.2
  | _ => rfl

theorem natAbs_toInt_lt (ht : t.IsIntegral) : (t.toInt bits).natAbs < 2 ^ 64 := by
  have hw : t.width ≤ 64 := by cases t <;> decide
  have hpow : 2 ^ t.width ≤ 2 ^ 64 := Nat.pow_le_pow_right (by decide) hw
  unfold Scalar.toInt
  split_ifs
  · rw [BitVec.toInt_eq_toNat_cond]
    split_ifs
    · omega
    · have hneg : (bits.toNat : Int) - (2 ^ t.width : ℕ) =
          -((2 ^ t.width - bits.toNat : ℕ) : Int) := by omega
      omega
  · omega

/-- An integer the declared type takes is converted, and stays itself if it is exact there. -/
theorem convertExactly_of_takes (fp : FloatingPoint) (ht : t.IsIntegral)
    (h : Takes (t.toInt bits) (.number target)) :
    ∃ converted, convertExactly fp target t bits = .ok converted ∧
      ((DeviceParameterValue.number target converted).whole = some (t.toInt bits) ↔
        ExactIn (t.toInt bits) target) := by
  by_cases hi : target.IsIntegral
  · have hrange := (takes_iff hi).mp h
    refine ⟨BitVec.ofInt _ (t.toInt bits), ?_, iff_of_true ?_ (exactIn_of_integral hi)⟩
    · rw [convertExactly, if_pos hi, if_pos ht, if_pos hrange]
    · rw [DeviceParameterValue.whole, if_pos hi, toInt_ofInt hrange]
  · rw [convertExactly, if_neg hi, asDouble_integer ht]
    cases target with
    | float =>
      have hlt : (t.toInt bits).natAbs < 2 ^ 64 := natAbs_toInt_lt ht
      refine ⟨convert binary64 binary32 (ofInt binary64 (t.toInt bits)), ?_, ?_⟩
      · rw [if_pos rfl, if_neg (not_past_ofInt hlt)]
        exact congrArg Except.ok (BitVec.setWidth_eq _)
      · exact whole_convert_iff binary32_within binary32_reaches binary64_reaches hlt
    | double =>
      refine ⟨ofInt binary64 (t.toInt bits), ?_, ?_⟩
      · exact congrArg Except.ok (BitVec.setWidth_eq _)
      · exact whole_ofInt_iff binary64_reaches (natAbs_toInt_lt ht)
    | _ => exact absurd (by decide) hi

theorem two_pow_le_sub {a b c : ℕ} (ha : a < c) (hb : b < c) : 2 ^ a ≤ 2 ^ c - 2 ^ b := by
  obtain ⟨c, rfl⟩ := Nat.exists_eq_add_of_lt ha
  have hle : 2 ^ a ≤ 2 ^ (a + c) := Nat.pow_le_pow_right (by decide) (by omega)
  have hle' : 2 ^ b ≤ 2 ^ (a + c) := Nat.pow_le_pow_right (by decide) (by omega)
  rw [Nat.pow_succ]
  omega

theorem convertExactly_of_not_takes (ht : t.IsIntegral)
    (h : ¬ Takes (t.toInt bits) (.number target)) :
    ∃ e, convertExactly fp target t bits = .error e := by
  by_cases hi : target.IsIntegral
  · refine ⟨outsideText (toString (t.toInt bits)) target, ?_⟩
    rw [convertExactly, if_pos hi, if_pos ht, if_neg fun hr => h ((takes_iff hi).mpr hr)]
  · have hlt : (t.toInt bits).natAbs < 2 ^ 64 := natAbs_toInt_lt ht
    cases target with
    | float => exact absurd (hlt.le.trans (two_pow_le_sub (by decide) (by decide))) h
    | double => exact absurd (hlt.le.trans (two_pow_le_sub (by decide) (by decide))) h
    | _ => exact absurd (by decide) hi

theorem coerce_of_takes {index subindex : ℕ}
    (ha : alternative dataType = .number target) (ht : t.IsIntegral)
    (h : Takes (t.toInt bits) (.number target)) :
    ∃ converted, coerce fp index subindex dataType (.number t bits) =
        .ok (.number target converted) ∧
      ((DeviceParameterValue.number target converted).whole = some (t.toInt bits) ↔
        ExactIn (t.toInt bits) target) := by
  obtain ⟨converted, hc, hexact⟩ := convertExactly_of_takes fp ht h
  refine ⟨converted, ?_, hexact⟩
  unfold coerce
  simp only [ha, hc]

theorem coerce_of_not_takes {index subindex : ℕ}
    (ha : alternative dataType = .number target) (ht : t.IsIntegral)
    (h : ¬ Takes (t.toInt bits) (.number target)) :
    ∃ e, coerce fp index subindex dataType (.number t bits) = .error e := by
  obtain ⟨e, he⟩ : ∃ e, convertExactly fp target t bits = .error e :=
    convertExactly_of_not_takes ht h
  unfold coerce
  simp only [ha, he]
  exact ⟨_, rfl⟩

namespace DeviceParameter

variable {p : DeviceParameter} {v : DeviceParameterValue}

/-- `setValue` refuses exactly the integers the declared type does not take. -/
theorem refused_iff (hv : v.integer? = some n) :
    (∃ e, p.setValue fp v = .error e) ↔ ¬ Takes n (alternative p.dataType) := by
  have hdual : (∃ e, p.setValue fp v = .error e) ↔
      ¬ ∃ w, coerce fp p.index p.subindex p.dataType v = .ok w := by
    rw [← exists_setValue_iff]
    cases p.setValue fp v <;> simp
  rw [hdual]
  cases v with
  | number t bits =>
    by_cases ht : t.IsIntegral
    · rw [DeviceParameterValue.integer?, if_pos ht] at hv
      obtain rfl := Option.some.inj hv
      cases ha : alternative p.dataType with
      | number target =>
        refine not_congr ?_
        by_cases htakes : Takes (t.toInt bits) (.number target)
        · obtain ⟨converted, hc, -⟩ := coerce_of_takes ha ht htakes
          exact iff_of_true ⟨_, hc⟩ htakes
        · obtain ⟨e, he⟩ := coerce_of_not_takes ha ht htakes
          rw [he]
          exact iff_of_false (by rintro ⟨w, ⟨⟩⟩) htakes
      | _ =>
        unfold coerce
        simp [ha, Takes]
    · rw [DeviceParameterValue.integer?, if_neg ht] at hv
      cases hv
  | string text => cases hv
  | bytes raw => cases hv

/-- The one value a call can make the parameter show. -/
theorem shown_iff_of_coerce {w : DeviceParameterValue}
    (h : coerce fp p.index p.subindex p.dataType v = .ok w) :
    (∀ p', p.setValue fp v = .ok p' → v.Denotes p'.currentValue) ↔
      v.Denotes (decodedAs p.dataType w) := by
  constructor
  · intro hall
    obtain ⟨p', hp'⟩ := exists_setValue_iff.mpr ⟨w, h⟩
    obtain ⟨w', hw', hcur⟩ := currentValue_of_setValue hp'
    obtain rfl : w = w' := Except.ok.inj (h.symm.trans hw')
    exact hcur ▸ hall p' hp'
  · intro hd p' hp'
    obtain ⟨w', hw', hcur⟩ := currentValue_of_setValue hp'
    obtain rfl : w = w' := Except.ok.inj (h.symm.trans hw')
    exact hcur ▸ hd

theorem shown_of_refused {e : String}
    (h : coerce fp p.index p.subindex p.dataType v = .error e) :
    ∀ p', p.setValue fp v = .ok p' → v.Denotes p'.currentValue := by
  intro p' hp'
  obtain ⟨w, hw, -⟩ := currentValue_of_setValue hp'
  rw [h] at hw
  cases hw

theorem shown_iff_of_number :
    (∀ p', p.setValue fp (.number t bits) = .ok p' →
      (DeviceParameterValue.number t bits).Denotes p'.currentValue) ↔
      Survives p.dataType (.number t bits) := by
  by_cases ht : t.IsIntegral
  · cases ha : alternative p.dataType with
    | number target =>
      by_cases htakes : Takes (t.toInt bits) (.number target)
      · obtain ⟨converted, hc, hexact⟩ := coerce_of_takes ha ht htakes
        rw [shown_iff_of_coerce hc]
        constructor
        · intro h _ target' ha' _
          obtain rfl := Alternative.number.inj (ha.symm.trans ha')
          exact hexact.mp (h ht)
        · intro h _
          exact hexact.mpr (h ht target ha htakes)
      · obtain ⟨e, he⟩ := coerce_of_not_takes ha ht htakes
        refine iff_of_true (shown_of_refused he) fun _ target' ha' htakes' => ?_
        obtain rfl := Alternative.number.inj (ha.symm.trans ha')
        exact absurd htakes' htakes
    | _ =>
      refine iff_of_true (shown_of_refused (by unfold coerce; rw [ha])) ?_
      intro _ target' ha'
      rw [ha] at ha'
      cases ha'
  · exact iff_of_true (fun _ _ hi => absurd hi ht) fun hi => absurd hi ht

theorem shown_iff_of_string :
    (∀ p', p.setValue fp (.string text) = .ok p' →
      (DeviceParameterValue.string text).Denotes p'.currentValue) ↔
      Survives p.dataType (.string text) := by
  cases ha : alternative p.dataType with
  | string =>
    rw [shown_iff_of_coerce (w := .string text) (by unfold coerce; rw [ha])]
    simp only [Survives, DeviceParameterValue.Denotes, decodedAs, ← visibleText_eq_iff,
      DeviceParameterValue.string.injEq]
    by_cases hvis : p.dataType = kVisibleString
    · simp [hvis]
    · simp [hvis]
  | _ =>
    refine iff_of_true (shown_of_refused (by unfold coerce; rw [ha])) ?_
    intro hvis
    rw [hvis] at ha
    cases ha

/-- What a call that succeeds shows is the value set, exactly if the value survives. -/
theorem shown_iff :
    (∀ p', p.setValue fp v = .ok p' → v.Denotes p'.currentValue) ↔ Survives p.dataType v := by
  cases v with
  | number t bits => exact shown_iff_of_number
  | string text => exact shown_iff_of_string
  | bytes raw =>
    refine iff_of_true ?_ trivial
    cases ha : alternative p.dataType with
    | bytes => exact (shown_iff_of_coerce (w := .bytes raw) (by unfold coerce; rw [ha])).mpr rfl
    | _ => exact shown_of_refused (by unfold coerce; rw [ha])

theorem length_rawValueBytes_of_setValue {p' : DeviceParameter}
    (h : p.setValue fp v = .ok p') (ha : alternative p.dataType = .number target) :
    p'.rawValueBytes.length = target.bytes := by
  obtain ⟨w, bytes, -, -, rfl⟩ := setValue_eq_ok_iff.mp h
  rw [← p.dataType_setRawValue bytes] at ha
  rw [rawValueBytes, ha]
  exact length_unpackLeBits _ _

theorem decodeSdoBytes_of_setValue {p' : DeviceParameter} (h : p.setValue fp v = .ok p') :
    decodeSdoBytes p.dataType p'.rawValueBytes = .ok p'.currentValue := by
  obtain ⟨w, bytes, -, -, rfl⟩ := setValue_eq_ok_iff.mp h
  rw [← p.dataType_setRawValue bytes]
  exact decodeSdoBytes_rawValueBytes _

/-- Encoding is undone by decoding for every value that survives. -/
theorem inverse_of_survives (h : Survives p.dataType v) {bytes : List (BitVec 8)}
    (hb : encodeSdoBytes p.dataType v = .ok bytes) : decodeSdoBytes p.dataType bytes = .ok v := by
  rw [decodeSdoBytes_encodeSdoBytes hb]
  cases v with
  | string text =>
    by_cases hvis : p.dataType = kVisibleString
    · rw [decodedAs, if_pos hvis, visibleText_eq_iff.mpr (h hvis)]
    · rw [decodedAs, if_neg hvis]
  | _ => rfl

/-- The codec keeps its laws exactly for the values that survive. -/
theorem codecLaws_iff_survives (fp : FloatingPoint) (p : DeviceParameter)
    (v : DeviceParameterValue) : p.CodecLaws fp v ↔ Survives p.dataType v := by
  constructor
  · intro h
    exact shown_iff.mp h.shown
  · intro h
    exact
      { shown := shown_iff.mpr h
        wide := fun _ _ hp' ha => length_rawValueBytes_of_setValue hp' ha
        decoded := fun _ hp' => decodeSdoBytes_of_setValue hp'
        kept := fun e he => by rw [afterSetValue, he]
        refused := fun n hn => refused_iff hn
        inverse := fun bytes hb => inverse_of_survives h hb }

theorem not_codecLaws_of_trailing_space
    (htype : p.dataType = kVisibleString) (hlast : text.getLast? = some 0x20) :
    ¬ p.CodecLaws fp (.string text) := by
  intro h
  exact (shown_iff_of_string.mp h.shown htype).2 hlast

def deviceName : DeviceParameter :=
  { index := 0x1008, subindex := 0, dataType := kVisibleString, bitLength := 16, bits := 0,
    rawValue := [], syncState := .unknown, metadata := { access := 0x3F } }

def controllerGain : DeviceParameter :=
  { index := 0x2012, subindex := 1, dataType := 0x0008, bitLength := 32, bits := 0,
    rawValue := [], syncState := .unknown, metadata := { access := 0x3F } }

theorem controllerGain_codecLaws :
    controllerGain.CodecLaws plainText (.number .int32 16777218) := by
  refine (codecLaws_iff_survives plainText controllerGain _).mpr fun _ target ht _ => ?_
  cases ht
  exact ⟨8388609, 1, by decide, by decide⟩

/-- The name `A` with a space behind it is shown without the space, and 16777217 as 16777216. -/
theorem paddedName_not_codecLaws :
    ¬ deviceName.CodecLaws plainText (.string [0x41, 0x20]) ∧
      ¬ controllerGain.CodecLaws plainText (.number .int32 16777217) := by
  refine ⟨not_codecLaws_of_trailing_space rfl rfl, fun h => ?_⟩
  have hn : (Scalar.int32.toInt 16777217).natAbs = 16777217 := by decide
  obtain ⟨c, j, he, hc⟩ := shown_iff_of_number.mp h.shown (by decide) .float rfl
    (hn.le.trans (by decide))
  cases j with
  | zero => omega
  | succ j =>
    rw [Nat.pow_succ, ← Nat.mul_assoc] at he
    omega

end DeviceParameter

end MotionMaster
