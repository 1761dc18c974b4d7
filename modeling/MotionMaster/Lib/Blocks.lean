import Mathlib.Data.List.Basic
import Mathlib.Tactic.Ring

/-!
# Blocks of one length

Sequences laid end to end out of blocks that all have the same length, and how to cut them again.
-/

namespace Blocks

universe u

variable {α : Type u} {blocks blocks' bs : List (List α)} {xs ys : List α} {n k : ℕ}

/-- The parts of length `n` at the offsets 0, `n`, `2 * n` and so on. -/
def slices (n : ℕ) (xs : List α) : List (List α) :=
  (List.range (xs.length / n)).map fun i => (xs.drop (i * n)).take n

/-- The sequence is some of the blocks, end to end. -/
def Tiled (blocks : List (List α)) (xs : List α) : Prop :=
  ∃ bs : List (List α), (∀ b ∈ bs, b ∈ blocks) ∧ xs = bs.flatten

theorem length_flatten (h : ∀ b ∈ bs, b.length = n) : bs.flatten.length = bs.length * n := by
  induction bs with
  | nil => simp
  | cons b bs ih =>
    have hb : b.length = n := h b List.mem_cons_self
    have hbs := ih fun x hx => h x (List.mem_cons_of_mem _ hx)
    rw [List.flatten_cons, List.length_append, hb, hbs, List.length_cons]
    ring

theorem drop_flatten (h : ∀ b ∈ bs, b.length = n) (k : ℕ) :
    bs.flatten.drop (k * n) = (bs.drop k).flatten := by
  induction k generalizing bs with
  | zero => simp
  | succ k ih =>
    cases bs with
    | nil => simp
    | cons b bs =>
      have hb : b.length = n := h b List.mem_cons_self
      rw [List.flatten_cons, Nat.succ_mul, Nat.add_comm, ← hb, ← List.drop_drop,
        List.drop_left, hb, List.drop_succ_cons]
      exact ih fun x hx => h x (List.mem_cons_of_mem _ hx)

theorem take_flatten (h : ∀ b ∈ bs, b.length = n) (k : ℕ) :
    bs.flatten.take (k * n) = (bs.take k).flatten := by
  induction k generalizing bs with
  | zero => simp
  | succ k ih =>
    cases bs with
    | nil => simp
    | cons b bs =>
      have hb : b.length = n := h b List.mem_cons_self
      rw [List.flatten_cons, Nat.succ_mul, Nat.add_comm, List.take_append,
        List.take_of_length_le (by omega), hb, Nat.add_sub_cancel_left, List.take_succ_cons,
        List.flatten_cons, ih fun x hx => h x (List.mem_cons_of_mem _ hx)]

theorem slices_self (h : xs.length = n) (hn : 0 < n) : slices n xs = [xs] := by
  subst h
  simp [slices, Nat.div_self hn]

theorem tiled_nil (blocks : List (List α)) : Tiled blocks [] := ⟨[], by simp, rfl⟩

theorem tiled_block {b : List α} (h : b ∈ blocks) : Tiled blocks b := ⟨[b], by simpa, by simp⟩

namespace Tiled

theorem mono (h : Tiled blocks xs) (hb : ∀ b ∈ blocks, b ∈ blocks') : Tiled blocks' xs := by
  obtain ⟨bs, hbs, rfl⟩ := h
  exact ⟨bs, fun b hm => hb b (hbs b hm), rfl⟩

theorem append (hx : Tiled blocks xs) (hy : Tiled blocks ys) : Tiled blocks (xs ++ ys) := by
  obtain ⟨bs, hbs, rfl⟩ := hx
  obtain ⟨cs, hcs, rfl⟩ := hy
  refine ⟨bs ++ cs, fun b hb => ?_, List.flatten_append.symm⟩
  rcases List.mem_append.mp hb with hb | hb
  · exact hbs b hb
  · exact hcs b hb

theorem dvd_length (h : Tiled blocks xs) (hl : ∀ b ∈ blocks, b.length = n) : n ∣ xs.length := by
  obtain ⟨bs, hbs, rfl⟩ := h
  rw [length_flatten fun b hb => hl b (hbs b hb)]
  exact Nat.dvd_mul_left n bs.length

theorem drop (h : Tiled blocks xs) (hl : ∀ b ∈ blocks, b.length = n) (hk : n ∣ k) :
    Tiled blocks (xs.drop k) := by
  obtain ⟨bs, hbs, rfl⟩ := h
  obtain ⟨m, rfl⟩ := hk
  rw [Nat.mul_comm, drop_flatten fun b hb => hl b (hbs b hb)]
  exact ⟨bs.drop m, fun b hb => hbs b (List.mem_of_mem_drop hb), rfl⟩

theorem take (h : Tiled blocks xs) (hl : ∀ b ∈ blocks, b.length = n) (hk : n ∣ k) :
    Tiled blocks (xs.take k) := by
  obtain ⟨bs, hbs, rfl⟩ := h
  obtain ⟨m, rfl⟩ := hk
  rw [Nat.mul_comm, take_flatten fun b hb => hl b (hbs b hb)]
  exact ⟨bs.take m, fun b hb => hbs b (List.mem_of_mem_take hb), rfl⟩

/-- Cut at multiples of its length, the sequence gives its blocks back. -/
theorem slices_mem (h : Tiled blocks xs) (hl : ∀ b ∈ blocks, b.length = n) (hn : 0 < n)
    {b : List α} (hb : b ∈ slices n xs) : b ∈ blocks := by
  obtain ⟨bs, hbs, rfl⟩ := h
  have hlen : ∀ b ∈ bs, b.length = n := fun b hb => hl b (hbs b hb)
  obtain ⟨i, hi, rfl⟩ := List.mem_map.mp hb
  rw [List.mem_range, length_flatten hlen, Nat.mul_div_cancel _ hn] at hi
  obtain ⟨c, cs, hc⟩ : ∃ c cs, bs.drop i = c :: cs :=
    List.exists_cons_of_ne_nil (by simp; omega)
  have hmem : c ∈ bs := List.mem_of_mem_drop (i := i) (by rw [hc]; exact List.mem_cons_self)
  rw [drop_flatten hlen, hc, List.flatten_cons, ← hlen c hmem, List.take_left]
  exact hbs c hmem

end Tiled

end Blocks
