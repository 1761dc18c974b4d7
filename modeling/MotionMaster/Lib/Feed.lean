import Mathlib.Data.List.Range

/-!
# Feeds of consecutive numbers

What a reader of a numbered log has handed on by the time it has come to `next`: each number since
`first` at most once, in order, and those left out are accounted for.
-/

/-- The numbers from `first` up to `next` are delivered, in order, or skipped. -/
structure Feed (first next : ℕ) (delivered : List ℕ) (skipped : ℕ → Prop) : Prop where
  ordered : delivered.Pairwise (· < ·)
  below : ∀ c ∈ delivered, c < next
  accounted : ∀ c, first ≤ c → c < next → c ∈ delivered ∨ skipped c

namespace Feed

variable {first next : ℕ} {delivered : List ℕ} {skipped skipped' : ℕ → Prop}

/-- A reader that starts at the end of the log has nothing to hand on. -/
theorem start (n : ℕ) (skipped : ℕ → Prop) : Feed n n [] skipped :=
  ⟨List.Pairwise.nil, by simp, fun _ h1 h2 => absurd h1 (by omega)⟩

theorem mono (h : Feed first next delivered skipped) (hs : ∀ c, skipped c → skipped' c) :
    Feed first next delivered skipped' :=
  ⟨h.ordered, h.below, fun c h1 h2 => (h.accounted c h1 h2).imp_right (hs c)⟩

theorem skip (h : Feed first next delivered skipped) {next' : ℕ} (hn : next ≤ next')
    (hs : ∀ c, next ≤ c → c < next' → skipped c) : Feed first next' delivered skipped := by
  refine ⟨h.ordered, fun c hc => Nat.lt_of_lt_of_le (h.below c hc) hn, fun c h1 h2 => ?_⟩
  by_cases hc : c < next
  · exact h.accounted c h1 hc
  · exact .inr (hs c (by omega) h2)

theorem deliver (h : Feed first next delivered skipped) (n : ℕ) :
    Feed first (next + n) (delivered ++ List.range' next n) skipped := by
  refine ⟨?_, ?_, ?_⟩
  · refine List.pairwise_append.mpr ⟨h.ordered, List.pairwise_lt_range', fun c hc d hd => ?_⟩
    have := h.below c hc
    have := (List.mem_range'_1.mp hd).1
    omega
  · intro c hc
    rcases List.mem_append.mp hc with hc | hc
    · have := h.below c hc
      omega
    · exact (List.mem_range'_1.mp hc).2
  · intro c h1 h2
    by_cases hc : c < next
    · exact (h.accounted c h1 hc).imp_left (List.mem_append_left _)
    · exact .inl (List.mem_append_right _ (List.mem_range'_1.mpr ⟨by omega, h2⟩))

end Feed
