import Mathlib.Data.List.Range
import Mathlib.Tactic.Ring

/-!
# Counted loops

`for (i = 1; i <= bound; ++i)` with an unsigned counter of `w` bits and a body that may leave the
loop. The counter wraps, so a bound that is its largest value never ends the loop.
-/

namespace CountedLoop

variable {σ ε : Type}

/-- How a turn, or a whole loop, ends: the state, and the error it left with. `none` is no end. -/
abbrev Ended (σ ε : Type) := Option (σ × Option ε)

def Completes (ended : Ended σ ε) : Prop := ∃ t, ended = some (t, none)

def Leaves (ended : Ended σ ε) : Prop := ∃ t e, ended = some (t, some e)

/-- A way to run a loop from 1 to a bound. -/
abbrev Runner (σ ε : Type) := (ℕ → σ → Ended σ ε) → ℕ → σ → Ended σ ε

/-- The body for each number in turn, until it leaves. -/
def each (body : ℕ → σ → Ended σ ε) : List ℕ → σ → Ended σ ε
  | [], s => some (s, none)
  | i :: is, s =>
    match body i s with
    | some (t, none) => each body is t
    | ended => ended

/-- The body exactly once for each number from 1 to the bound. -/
def once : Runner σ ε := fun body bound => each body (List.range' 1 bound)

/-- At most `fuel` tests of the guard, from the counter's value on. -/
def loop {w : ℕ} (body : ℕ → σ → Ended σ ε) (bound : ℕ) : ℕ → BitVec w → σ → Ended σ ε
  | 0, _, _ => none
  | fuel + 1, i, s =>
    if i.toNat ≤ bound then
      match body i.toNat s with
      | some (t, none) => loop body bound fuel (i + 1) t
      | ended => ended
    else some (s, none)

def counted (w fuel : ℕ) : Runner σ ε := fun body bound => loop body bound fuel (1 : BitVec w)

variable {f g : ℕ → σ → Ended σ ε} {s t : σ} {i n bound fuel w : ℕ} {is : List ℕ}

theorem leaves_of_not_completes {ended : Ended σ ε} (hne : ended ≠ none) (h : ¬ Completes ended) :
    Leaves ended := by
  rcases ended with _ | ⟨t, _ | e⟩
  · exact absurd rfl hne
  · exact absurd ⟨t, rfl⟩ h
  · exact ⟨t, e, rfl⟩

/-! ### Each number once -/

theorem each_cons : each f (i :: is) s = match f i s with
    | some (t, none) => each f is t
    | ended => ended := rfl

theorem each_cons_completes (h : f i s = some (t, none)) : each f (i :: is) s = each f is t := by
  rw [each_cons, h]

theorem each_cons_of_not_completes (h : ∀ t, f i s ≠ some (t, none)) :
    each f (i :: is) s = f i s := by
  rw [each_cons]
  rcases hf : f i s with _ | ⟨t, _ | e⟩
  · rfl
  · exact absurd hf (h t)
  · rfl

theorem each_ne_none (h : ∀ i ∈ is, ∀ s, f i s ≠ none) : each f is s ≠ none := by
  induction is generalizing s with
  | nil => exact Option.some_ne_none _
  | cons i is ih =>
    have hi := h i List.mem_cons_self s
    by_cases hc : Completes (f i s)
    · obtain ⟨t, ht⟩ := hc
      rw [each_cons_completes ht]
      exact ih fun j hj => h j (List.mem_cons_of_mem i hj)
    · rw [each_cons_of_not_completes fun t ht => hc ⟨t, ht⟩]
      exact hi

variable {P : ℕ → Prop}

/-- Where whether a turn completes is a matter of its number alone, so it is for the loop. -/
theorem each_completes_iff (h : ∀ i ∈ is, ∀ s, Completes (f i s) ↔ P i) :
    Completes (each f is s) ↔ ∀ i ∈ is, P i := by
  induction is generalizing s with
  | nil => exact iff_of_true ⟨s, rfl⟩ (by simp)
  | cons i is ih =>
    have hrest := fun s => ih (s := s) fun j hj => h j (List.mem_cons_of_mem i hj)
    by_cases hc : Completes (f i s)
    · have hP := (h i List.mem_cons_self s).mp hc
      obtain ⟨t, ht⟩ := hc
      rw [each_cons_completes ht, hrest t]
      simp [hP]
    · have hne : ∀ t, f i s ≠ some (t, none) := fun t ht => hc ⟨t, ht⟩
      have hP : ¬ P i := fun hp => hc ((h i List.mem_cons_self s).mpr hp)
      rw [each_cons_of_not_completes hne]
      simp [hc, hP]

theorem once_completes_iff (h : ∀ i s, Completes (f i s) ↔ P i) :
    Completes (once f bound s) ↔ ∀ i, 1 ≤ i → i ≤ bound → P i := by
  rw [once, each_completes_iff fun i _ => h i]
  simp only [List.mem_range'_1, and_imp, Nat.add_comm 1 bound, Nat.lt_succ_iff]

/-- What every completed turn adds, the completed loop adds up. -/
theorem each_adds (measure : σ → ℕ) {gain : ℕ → ℕ} (he : each f is s = some (t, none))
    (h : ∀ i s t, f i s = some (t, none) → measure t = measure s + gain i) :
    measure t = measure s + (is.map gain).sum := by
  induction is generalizing s with
  | nil =>
    cases he
    simp
  | cons i is ih =>
    rcases hf : f i s with _ | ⟨u, _ | e⟩
    · rw [each_cons_of_not_completes (by simp [hf]), hf] at he
      cases he
    · rw [each_cons_completes hf] at he
      have hu := ih he
      have hi := h i s u hf
      simp only [List.map_cons, List.sum_cons]
      omega
    · rw [each_cons_of_not_completes (by simp [hf]), hf] at he
      cases he

theorem each_completed (he : each f is s = some (t, none)) (hi : i ∈ is) :
    ∃ s t, f i s = some (t, none) := by
  induction is generalizing s with
  | nil => cases hi
  | cons j is ih =>
    by_cases hc : Completes (f j s)
    · obtain ⟨u, hu⟩ := hc
      rcases List.mem_cons.mp hi with rfl | hmem
      · exact ⟨s, u, hu⟩
      · rw [each_cons_completes hu] at he
        exact ih he hmem
    · rw [each_cons_of_not_completes fun t ht => hc ⟨t, ht⟩] at he
      exact absurd ⟨t, he⟩ hc

/-- Two bodies that agree on every number the loop comes to. -/
theorem each_congr_range (hP : ∀ j s, Completes (f j s) → P j)
    (h : ∀ k, i ≤ k → k < i + n → (∀ j, i ≤ j → j < k → P j) → ∀ s, g k s = f k s) :
    each g (List.range' i n) s = each f (List.range' i n) s := by
  induction n generalizing i s with
  | zero => rfl
  | succ n ih =>
    have hi : g i s = f i s := h i le_rfl (by omega) (fun j h1 h2 => by omega) s
    rw [List.range'_succ]
    by_cases hc : Completes (f i s)
    · obtain ⟨t, ht⟩ := hc
      rw [each_cons_completes ht, each_cons_completes (hi.trans ht)]
      refine ih fun k h1 h2 hall => h k (by omega) (by omega) fun j hj1 hj2 => ?_
      rcases Nat.eq_or_lt_of_le hj1 with rfl | hlt
      · exact hP i s ⟨t, ht⟩
      · exact hall j hlt hj2
    · have hne : ∀ t, f i s ≠ some (t, none) := fun t ht => hc ⟨t, ht⟩
      rw [each_cons_of_not_completes hne, each_cons_of_not_completes (hi ▸ hne), hi]

/-! ### The counter -/

theorem toNat_ofNat_of_le (hi : i ≤ bound) (hw : bound < 2 ^ w) : (BitVec.ofNat w i).toNat = i := by
  rw [BitVec.toNat_ofNat, Nat.mod_eq_of_lt (by omega)]

theorem loop_of_lt {i : BitVec w} (h : bound < i.toNat) :
    loop f bound (fuel + 1) i s = some (s, none) :=
  if_neg (Nat.not_le.mpr h)

theorem loop_of_le {i : BitVec w} (h : i.toNat ≤ bound) :
    loop f bound (fuel + 1) i s = match f i.toNat s with
      | some (t, none) => loop f bound fuel (i + 1) t
      | ended => ended :=
  if_pos h

theorem loop_completes_step (hi : i ≤ bound) (hw : bound < 2 ^ w) (h : f i s = some (t, none)) :
    loop f bound (fuel + 1) (BitVec.ofNat w i) s =
      loop f bound fuel (BitVec.ofNat w (i + 1)) t := by
  have hto := toNat_ofNat_of_le hi hw
  rw [loop_of_le (hto.trans_le hi), hto, h, BitVec.ofNat_add]
  rfl

theorem loop_leaves_step (hi : i ≤ bound) (hw : bound < 2 ^ w)
    (h : ∀ t, f i s ≠ some (t, none)) :
    loop f bound (fuel + 1) (BitVec.ofNat w i) s = f i s := by
  have hto := toNat_ofNat_of_le hi hw
  rw [loop_of_le (hto.trans_le hi), hto]
  rcases hf : f i s with _ | ⟨t, _ | e⟩
  · rfl
  · exact absurd hf (h t)
  · rfl

/-- A bound below the counter's largest value, or a turn that leaves before the counter wraps. -/
theorem loop_eq_each (hn : i + n = bound + 1) (hw : bound < 2 ^ w)
    (h : bound + 1 < 2 ^ w ∨ Leaves (each f (List.range' i n) s)) (hf : n < fuel) :
    loop f bound fuel (BitVec.ofNat w i) s = each f (List.range' i n) s := by
  induction n generalizing i s fuel with
  | zero =>
    obtain ⟨fuel, rfl⟩ := Nat.exists_eq_add_of_lt hf
    rcases h with h | ⟨t, e, h⟩
    · have hi : (BitVec.ofNat w i).toNat = i := toNat_ofNat_of_le hn.le h
      exact loop_of_lt (by omega)
    · cases h
  | succ n ih =>
    obtain ⟨fuel, rfl⟩ := Nat.exists_eq_add_of_lt hf
    rw [List.range'_succ] at h ⊢
    by_cases hc : Completes (f i s)
    · obtain ⟨t, ht⟩ := hc
      rw [each_cons_completes ht] at h ⊢
      rw [loop_completes_step (by omega) hw ht]
      exact ih (by omega) h (by omega)
    · have hne : ∀ t, f i s ≠ some (t, none) := fun t ht => hc ⟨t, ht⟩
      rw [each_cons_of_not_completes hne, loop_leaves_step (by omega) hw hne]

theorem counted_eq_once (hw : bound < 2 ^ w)
    (h : bound + 1 < 2 ^ w ∨ Leaves (once f bound s)) (hf : bound < fuel) :
    counted w fuel f bound s = once f bound s :=
  loop_eq_each (Nat.add_comm 1 bound) hw h hf

/-- With the counter's largest value as the bound the guard never fails. -/
theorem loop_not_completed (hw : 2 ^ w ≤ bound + 1) (i : BitVec w) :
    ¬ Completes (loop f bound fuel i s) := by
  induction fuel generalizing i s with
  | zero =>
    rintro ⟨t, ht⟩
    cases ht
  | succ fuel ih =>
    have hi : i.toNat ≤ bound := by
      omega
    rw [loop_of_le hi]
    split
    · exact ih (i + 1)
    · rename_i hne
      rintro ⟨t, ht⟩
      exact hne t ht

/-- Where no turn leaves the loop, it completes or runs on. -/
theorem loop_none_or_completes (h : ∀ j ≤ bound, ∀ s, Completes (f j s)) (i : BitVec w) :
    loop f bound fuel i s = none ∨ Completes (loop f bound fuel i s) := by
  induction fuel generalizing i s with
  | zero => exact Or.inl rfl
  | succ fuel ih =>
    rcases Nat.lt_or_ge bound i.toNat with hlt | hi
    · exact Or.inr ⟨s, loop_of_lt hlt⟩
    · obtain ⟨t, ht⟩ := h i.toNat hi s
      rw [loop_of_le hi, ht]
      exact ih (i + 1)

theorem counted_eq_none (hw : 2 ^ w ≤ bound + 1) (h : ∀ j ≤ bound, ∀ s, Completes (f j s)) :
    counted w fuel f bound s = none := by
  rcases loop_none_or_completes h (1 : BitVec w) with hnone | hc
  · exact hnone
  · exact absurd hc (loop_not_completed hw 1)

theorem loop_completed (hn : i + n = bound + 1) (hw : bound + 1 < 2 ^ w)
    (h : loop f bound fuel (BitVec.ofNat w i) s = some (t, none)) :
    each f (List.range' i n) s = some (t, none) := by
  induction fuel generalizing i n s with
  | zero => cases h
  | succ fuel ih =>
    cases n with
    | zero =>
      have hi : (BitVec.ofNat w i).toNat = i := toNat_ofNat_of_le hn.le hw
      rw [loop_of_lt (by omega)] at h
      exact h
    | succ n =>
      rw [List.range'_succ]
      by_cases hc : Completes (f i s)
      · obtain ⟨u, hu⟩ := hc
        rw [loop_completes_step (by omega) (by omega) hu] at h
        rw [each_cons_completes hu]
        exact ih (by omega) h
      · have hne : ∀ t, f i s ≠ some (t, none) := fun t ht => hc ⟨t, ht⟩
        rw [loop_leaves_step (by omega) (by omega) hne] at h
        exact absurd h (hne t)

/-- A loop that completes did each number once, and its bound is not the counter's largest. -/
theorem counted_completed (hw : bound < 2 ^ w)
    (h : counted w fuel f bound s = some (t, none)) :
    bound + 1 < 2 ^ w ∧ once f bound s = some (t, none) := by
  have hlt : bound + 1 < 2 ^ w := by
    by_contra hge
    exact loop_not_completed (by omega) 1 ⟨t, h⟩
  exact ⟨hlt, loop_completed (Nat.add_comm 1 bound) hlt h⟩

/-- A loop does not get past a turn that does not end. -/
theorem loop_eq_none_of_stuck (hn : i + n ≤ bound) (hw : bound < 2 ^ w)
    (hlow : ∀ j, i ≤ j → j < i + n → ∀ s, f j s = none ∨ Completes (f j s))
    (hstuck : ∀ s, f (i + n) s = none) : loop f bound fuel (BitVec.ofNat w i) s = none := by
  induction n generalizing i s fuel with
  | zero =>
    cases fuel with
    | zero => rfl
    | succ fuel =>
      have hi : f i s = none := hstuck s
      rw [loop_leaves_step (by omega) hw (by simp [hi]), hi]
  | succ n ih =>
    cases fuel with
    | zero => rfl
    | succ fuel =>
      rcases hlow i le_rfl (by omega) s with hi | ⟨t, ht⟩
      · rw [loop_leaves_step (by omega) hw (by simp [hi]), hi]
      · rw [loop_completes_step (by omega) hw ht]
        have heq : i + (n + 1) = i + 1 + n := by omega
        refine ih (by omega) (fun j h1 h2 => hlow j (by omega) (by omega)) ?_
        rwa [← heq]

theorem counted_eq_none_of_stuck {k : ℕ} (hk1 : 1 ≤ k) (hk : k ≤ bound) (hw : bound < 2 ^ w)
    (hlow : ∀ j, 1 ≤ j → j < k → ∀ s, f j s = none ∨ Completes (f j s))
    (hstuck : ∀ s, f k s = none) : counted w fuel f bound s = none := by
  have heq : 1 + (k - 1) = k := by omega
  refine loop_eq_none_of_stuck (i := 1) (n := k - 1) (heq.trans_le hk) hw ?_ ?_
  · exact fun j h1 h2 => hlow j h1 (heq ▸ h2)
  · rwa [heq]

end CountedLoop
