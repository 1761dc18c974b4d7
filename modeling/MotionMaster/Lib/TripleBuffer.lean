import Mathlib.Data.List.Basic

/-!
# The newest of three

A writer fills the back slot and swaps it with the middle one, a reader swaps the middle slot with
the front one when it is fresh. What the reader has in front is the newest value published when it
last swapped.
-/

namespace TripleBuffer

universe u

/-- The slots by their role, with the values published and taken so far. -/
structure Slots (α : Type u) where
  back : α
  middle : α
  front : α
  fresh : Bool
  published : List α
  taken : List α

variable {α : Type u} {s t : Slots α} {z : α}

inductive Step : Slots α → Slots α → Prop
  | same (s : Slots α) : Step s s
  | fill (s : Slots α) (x : α) : Step s { s with back := x }
  | publish (s : Slots α) : Step s { s with
      back := s.middle, middle := s.back, fresh := true, published := s.published ++ [s.back] }
  | take (s : Slots α) (hf : s.fresh = true) : Step s { s with
      middle := s.front, front := s.middle, fresh := false, taken := s.taken ++ [s.middle] }

/-- The value last published, or the one the slots began with. -/
def Slots.newest (s : Slots α) (z : α) : α := s.published.getLastD z

/-- The reader has taken values in the order they were published, and lacks at most the newest. -/
structure Latest (z : α) (s : Slots α) : Prop where
  front : s.front = s.taken.getLastD z
  fresh : s.fresh = true → ∃ older, s.published = older ++ [s.middle] ∧ s.taken.Sublist older
  stale : s.fresh = false → s.taken.Sublist s.published ∧ s.taken.getLastD z = s.newest z

theorem Latest.sublist (h : Latest z s) : s.taken.Sublist s.published := by
  cases hf : s.fresh with
  | false => exact (h.stale hf).1
  | true =>
    obtain ⟨older, ho, ht⟩ := h.fresh hf
    rw [ho]
    exact ht.trans (List.sublist_append_left _ _)

/-- When the middle slot is not fresh, the newest value is in front. -/
theorem Latest.front_newest (h : Latest z s) (hf : s.fresh = false) : s.front = s.newest z :=
  h.front.trans (h.stale hf).2

theorem Latest.middle_newest (h : Latest z s) (hf : s.fresh = true) : s.middle = s.newest z := by
  obtain ⟨older, ho, -⟩ := h.fresh hf
  rw [Slots.newest, ho, List.getLastD_concat]

theorem Latest.step (h : Latest z s) (hs : Step s t) : Latest z t := by
  cases hs with
  | same => exact h
  | fill x => exact ⟨h.front, h.fresh, h.stale⟩
  | publish => exact ⟨h.front, fun _ => ⟨s.published, rfl, h.sublist⟩, fun hf => by cases hf⟩
  | take hf =>
    obtain ⟨older, ho, ht⟩ := h.fresh hf
    refine ⟨List.getLastD_concat.symm, fun hf' => (by cases hf'), fun _ => ⟨?_, ?_⟩⟩
    · rw [ho]
      exact ht.append (List.Sublist.refl _)
    · dsimp only [Slots.newest]
      rw [ho, List.getLastD_concat, List.getLastD_concat]

end TripleBuffer
