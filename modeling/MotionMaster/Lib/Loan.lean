import Mathlib.Tactic.Common

/-!
# A value on loan

A register that holders empty and later refill with what they took. Nothing in it keeps two
holders apart, so what they end up with depends on how they overlap.
-/

namespace Loan

universe u v

/-- What the register holds, and what each holder took from it. -/
structure Register (ι : Type u) (α : Type v) where
  value : Option α
  taken : ι → Option α

namespace Register

variable {ι : Type u} {α : Type v} [DecidableEq ι] {r : Register ι α} {i : ι} {x : Option α}

def take (r : Register ι α) (i : ι) : Register ι α := ⟨none, Function.update r.taken i r.value⟩

def put (r : Register ι α) (i : ι) : Register ι α :=
  ⟨r.taken i, Function.update r.taken i none⟩

/-- What the register and its holders have between them: nothing, or one value in one place. -/
def Owns (r : Register ι α) : Option α → Prop
  | none => r = ⟨none, fun _ => none⟩
  | some x => r = ⟨some x, fun _ => none⟩ ∨
      ∃ i, r = ⟨none, Function.update (fun _ => none) i (some x)⟩

/-- Whatever is found anywhere is the value owned. -/
theorem Owns.of_taken (h : r.Owns x) {y : α} (hi : r.taken i = some y) : x = some y := by
  cases x with
  | none => simp [show r = _ from h] at hi
  | some x =>
    obtain rfl | ⟨j, rfl⟩ := h
    · simp at hi
    · by_cases hij : i = j <;> simp_all

theorem Owns.of_value (h : r.Owns x) {y : α} (hv : r.value = some y) : x = some y := by
  cases x with
  | none => simp [show r = _ from h] at hv
  | some x => obtain rfl | ⟨j, rfl⟩ := h <;> simp_all

theorem Owns.value_eq (h : r.Owns x) (hi : ∀ i, r.taken i = none) : r.value = x := by
  cases x with
  | none => rw [show r = _ from h]
  | some x =>
    obtain rfl | ⟨j, rfl⟩ := h
    · rfl
    · simpa using hi j

/-- Taking moves the value and loses nothing. -/
theorem Owns.take (h : r.Owns x) (hi : r.taken i = none) : (r.take i).Owns x := by
  cases x with
  | none =>
    obtain rfl : r = _ := h
    simp [Register.take, Owns]
  | some x =>
    obtain rfl | ⟨j, rfl⟩ := h
    · exact .inr ⟨i, rfl⟩
    · refine .inr ⟨j, ?_⟩
      simp only [Register.take]
      rw [Function.update_eq_self_iff.mpr hi.symm]

/-- Putting back keeps the value, provided an empty hand never overwrites it. -/
theorem Owns.put (h : r.Owns x) (hr : r.taken i = none → r.value = none) : (r.put i).Owns x := by
  cases hi : r.taken i with
  | none =>
    obtain ⟨v, f⟩ := r
    obtain rfl : v = none := hr hi
    have hf : f i = none := hi
    have hu : Function.update f i none = f := by rw [← hf, Function.update_eq_self]
    simpa [Register.put, hf, hu] using h
  | some y =>
    obtain rfl := h.of_taken hi
    obtain rfl | ⟨j, rfl⟩ := h
    · simp at hi
    · have hij : i = j := by by_contra hij; simp [hij] at hi
      exact .inl (by simp [Register.put, hij])

end Register

end Loan
