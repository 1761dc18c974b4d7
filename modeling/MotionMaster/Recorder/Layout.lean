import MotionMaster.Recorder.Ring

/-! The layout of one record: a reader's loads visit what the writer's stores laid down. -/
namespace MotionMaster.ProcessDataRing

open Bytes

namespace Config

variable {c : Config} {f : Frame} {copied : List (BitVec 8)}

def inputBytes (c : Config) (f : Frame) : ℕ := min f.inputs.length c.inputCap

def outputBytes (c : Config) (f : Frame) : ℕ := min f.outputs.length c.outputCap

/-- The bytes of a record, in the order they are stored and loaded. -/
def payload (c : Config) (f : Frame) : List (BitVec 8) := (c.stores f).map Prod.snd

theorem stores_eq (c : Config) (f : Frame) :
    c.stores f =
      copy 0 (encode 8 f.timestampNs.toNat) ++ copy 8 (encode 4 f.wkc.toNat) ++
        copy 12 (encode 4 (c.inputBytes f)) ++ copy 16 (encode 4 (c.outputBytes f)) ++
        copy kHeaderBytes (f.inputs.take (c.inputBytes f)) ++
        copy (kHeaderBytes + c.inputCap) (f.outputs.take (c.outputBytes f)) := by
  rw [stores, Nat.mod_eq_of_lt f.inputs_lt, Nat.mod_eq_of_lt f.outputs_lt]
  rfl

theorem payload_eq (c : Config) (f : Frame) :
    c.payload f =
      encode 8 f.timestampNs.toNat ++ encode 4 f.wkc.toNat ++ encode 4 (c.inputBytes f) ++
        encode 4 (c.outputBytes f) ++
        (f.inputs.take (c.inputBytes f) ++ f.outputs.take (c.outputBytes f)) := by
  simp [payload, stores_eq]

theorem offsets_stores (c : Config) (f : Frame) :
    (c.stores f).map Prod.fst =
      List.range' 0 (kHeaderBytes + c.inputBytes f) ++
        List.range' (kHeaderBytes + c.inputCap) (c.outputBytes f) := by
  have hi : (f.inputs.take (c.inputBytes f)).length = c.inputBytes f := by
    simp [inputBytes]
  have ho : (f.outputs.take (c.outputBytes f)).length = c.outputBytes f := by
    simp [outputBytes]
  have hh : List.range' 0 (kHeaderBytes + c.inputBytes f) =
      List.range' 0 8 ++ List.range' 8 4 ++ List.range' 12 4 ++ List.range' 16 4 ++
        List.range' kHeaderBytes (c.inputBytes f) := by
    rw [← List.range'_append_1]
    rfl
  rw [stores_eq, hh]
  simp [hi, ho]

theorem nodup_offsets (c : Config) (f : Frame) : ((c.stores f).map Prod.fst).Nodup := by
  have hi : c.inputBytes f ≤ c.inputCap := Nat.min_le_right _ _
  rw [offsets_stores, List.nodup_append]
  refine ⟨List.nodup_range', List.nodup_range', ?_⟩
  intro a ha b hb
  simp only [List.mem_range'_1] at ha hb
  omega

theorem offset_lt_stride {p : ℕ × BitVec 8} (hp : p ∈ c.stores f) : p.1 < c.stride := by
  have hi : c.inputBytes f ≤ c.inputCap := Nat.min_le_right _ _
  have ho : c.outputBytes f ≤ c.outputCap := Nat.min_le_right _ _
  have h := List.mem_map_of_mem (f := Prod.fst) hp
  rw [offsets_stores] at h
  simp only [List.mem_append, List.mem_range'_1] at h
  simp only [stride]
  omega

/-- A window of the header reads the same in any copy that covers it. -/
theorem window_eq (h : copied <+: c.payload f) {i n : ℕ} (hk : i + n ≤ copied.length) :
    (copied.drop i).take n = ((c.payload f).drop i).take n := by
  obtain ⟨rest, hr⟩ := h
  rw [← hr, List.drop_append_of_le_length (by omega),
    List.take_append_of_le_length (by simp; omega)]

theorem ib_payload (c : Config) (f : Frame) : c.ib (c.payload f) = c.inputBytes f := by
  have hw : ((c.payload f).drop 12).take 4 = encode 4 (c.inputBytes f) := by
    rw [payload_eq]
    rfl
  have hi : c.inputBytes f ≤ c.inputCap := Nat.min_le_right _ _
  have hc := c.inputCap_lt
  rw [ib, hw, decode_encode]
  omega

theorem ob_payload (c : Config) (f : Frame) : c.ob (c.payload f) = c.outputBytes f := by
  have hw : ((c.payload f).drop 16).take 4 = encode 4 (c.outputBytes f) := by
    rw [payload_eq]
    rfl
  have ho : c.outputBytes f ≤ c.outputCap := Nat.min_le_right _ _
  have hc := c.outputCap_lt
  rw [ob, hw, decode_encode]
  omega

/-- A reader that has copied a correct beginning loads the next byte from where it was stored. -/
theorem loadAt_eq (h : copied <+: c.payload f) :
    c.loadAt copied = ((c.stores f).map Prod.fst)[copied.length]? := by
  rw [offsets_stores, loadAt]
  by_cases hk : copied.length < kHeaderBytes
  · rw [if_pos hk, List.getElem?_append_left (by simp; omega),
      List.getElem?_range' (by omega)]
    simp
  · have hi : c.ib copied = c.inputBytes f := by
      rw [ib, window_eq h (by simp only [kHeaderBytes] at hk; omega), ← ib, ib_payload]
    have ho : c.ob copied = c.outputBytes f := by
      rw [ob, window_eq h (by simp only [kHeaderBytes] at hk; omega), ← ob, ob_payload]
    rw [if_neg hk, hi, ho]
    by_cases hk' : copied.length < kHeaderBytes + c.inputBytes f
    · rw [if_pos hk', List.getElem?_append_left (by simpa using hk'), List.getElem?_range' hk']
      simp
    · rw [if_neg hk', List.getElem?_append_right (by simp; omega), List.length_range']
      by_cases hk'' : copied.length < kHeaderBytes + c.inputBytes f + c.outputBytes f
      · rw [if_pos hk'', List.getElem?_range' (by omega)]
        simp
        omega
      · rw [if_neg hk'', List.getElem?_eq_none (by simp; omega)]

/-- A copy with nothing left to load is complete. -/
theorem eq_payload (h : copied <+: c.payload f) (hl : c.loadAt copied = none) :
    copied = c.payload f := by
  rw [loadAt_eq h, List.getElem?_eq_none_iff, List.length_map] at hl
  have hp : (c.payload f).length = (c.stores f).length := List.length_map _
  exact h.eq_of_length (Nat.le_antisymm h.length_le (hp ▸ hl))

theorem prefix_load (memory : ℕ → BitVec 8) {offset : ℕ} (h : copied <+: c.payload f)
    (hm : ∀ p ∈ c.stores f, memory p.1 = p.2) (hl : c.loadAt copied = some offset) :
    copied ++ [memory offset] <+: c.payload f := by
  rw [loadAt_eq h, List.getElem?_map, Option.map_eq_some_iff] at hl
  obtain ⟨p, hp, rfl⟩ := hl
  rw [hm p (List.mem_of_getElem? hp)]
  have hb : (c.payload f)[copied.length]? = some p.2 := by simp [payload, hp]
  have ht : (c.payload f).take (copied.length + 1) = copied ++ [p.2] := by
    rw [List.take_add_one, hb, ← List.prefix_iff_eq_take.mp h]
    rfl
  rw [← ht]
  exact List.take_prefix _ _

theorem record_payload (c : Config) (f : Frame) :
    c.record (c.payload f) = f.clamp c.inputCap c.outputCap := by
  have ht : (c.payload f).take 8 = encode 8 f.timestampNs.toNat := by
    rfl
  have hw : ((c.payload f).drop 8).take 4 = encode 4 f.wkc.toNat := by
    rfl
  have hr : (c.payload f).drop kHeaderBytes =
      f.inputs.take (c.inputBytes f) ++ f.outputs.take (c.outputBytes f) := by
    rw [payload_eq]
    rfl
  have hi : (f.inputs.take (c.inputBytes f)).length = c.inputBytes f := by simp [inputBytes]
  have ho : (c.payload f).drop (kHeaderBytes + c.inputBytes f) =
      f.outputs.take (c.outputBytes f) := by
    rw [← List.drop_drop, hr, List.drop_left' hi]
  have hib := c.ib_payload f
  have hob := c.ob_payload f
  generalize c.payload f = copied at *
  simp only [record, Frame.clamp, Frame.mk.injEq, hib, hob, ht, hw, hr, ho, decode_encode]
  refine ⟨?_, ?_, ?_, ?_⟩
  · exact BitVec.eq_of_toNat_eq (by simp; omega)
  · exact BitVec.eq_of_toNat_eq (by simp; omega)
  · rw [List.take_left' hi, inputBytes]
    exact List.take_eq_take_iff.mpr (by omega)
  · rw [List.take_take, outputBytes]
    exact List.take_eq_take_iff.mpr (by omega)

end Config

end MotionMaster.ProcessDataRing
