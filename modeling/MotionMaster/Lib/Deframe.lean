import Mathlib.Data.List.Basic

/-!
# Frames out of a stream

A reader that takes frames off the front of what has arrived of a stream. It needs to know of an
encoding only that a whole frame is recognised whatever follows it, and that a part of one is left.
-/

namespace Deframe

universe u v w

variable {α : Type u} {φ : Type v} {ε : Type w} {encode : φ → List α}
  {take : List α → Except ε (Option (φ × List α))} {Valid : φ → Prop}
  {received wire : List α} {frame : φ} {frames : List φ}

structure Splits (encode : φ → List α) (take : List α → Except ε (Option (φ × List α)))
    (Valid : φ → Prop) : Prop where
  whole : ∀ frame, Valid frame → ∀ rest, take (encode frame ++ rest) = .ok (some (frame, rest))
  part : ∀ frame, Valid frame → ∀ bytes, bytes.IsPrefix (encode frame) →
    bytes.length < (encode frame).length → take bytes = .ok none
  empty : take [] = .ok none

/-- What the reader finds when these frames are under way. -/
inductive Finds (encode : φ → List α) (received wire : List α) : List φ → Option (φ × List α) → Prop
  | nothing (hr : received = []) : Finds encode received wire [] none
  | part (frame : φ) (frames : List φ) (hl : received.length < (encode frame).length) :
      Finds encode received wire (frame :: frames) none
  | frame (frame : φ) (frames : List φ) (rest : List α)
      (hl : (encode frame).length ≤ received.length)
      (hrest : rest ++ wire = frames.flatMap encode) :
      Finds encode received wire (frame :: frames) (some (frame, rest))

/-- The reader finds the next frame as soon as all of it has arrived. -/
theorem Splits.finds (h : Splits encode take Valid) (hv : ∀ frame ∈ frames, Valid frame)
    (hs : received ++ wire = frames.flatMap encode) :
    ∃ found, take received = .ok found ∧ Finds encode received wire frames found := by
  cases frames with
  | nil =>
    have hr : received = [] := (List.append_eq_nil_iff.mp hs).1
    exact ⟨none, by rw [hr, h.empty], .nothing hr⟩
  | cons frame frames =>
    have hf : Valid frame := hv frame List.mem_cons_self
    rw [List.flatMap_cons] at hs
    have hr : received.IsPrefix (encode frame ++ frames.flatMap encode) :=
      hs ▸ List.prefix_append received wire
    have he : (encode frame).IsPrefix (encode frame ++ frames.flatMap encode) :=
      List.prefix_append _ _
    rcases Nat.lt_or_ge received.length (encode frame).length with hl | hl
    · have hpre := List.prefix_of_prefix_length_le hr he (Nat.le_of_lt hl)
      exact ⟨none, h.part frame hf received hpre hl, .part frame frames hl⟩
    · obtain ⟨rest, rfl⟩ := List.prefix_of_prefix_length_le he hr hl
      rw [List.append_assoc] at hs
      exact ⟨some (frame, rest), h.whole frame hf rest,
        .frame frame frames rest hl (List.append_cancel_left hs)⟩

end Deframe
