import Mathlib.Data.List.Basic
import Mathlib.Tactic.Ring

/-!
# Queues over a ring of slots

Two counters that only grow, one of what went in and one of what came out, index a ring of slots.
Each thing that comes out is the next one that went in: it is handed out, or dropped unseen.
-/

namespace RingQueue

universe u

/-- What became of a value that left the queue. -/
inductive Fate (α : Type u) where
  | popped (x : α)
  | dropped
  deriving DecidableEq

variable {α : Type u} {accepted : List α} {fates : List (Fate α)} {x : α} {n m k capacity w : ℕ}

def popped : List (Fate α) → List α
  | [] => []
  | .popped x :: fates => x :: popped fates
  | .dropped :: fates => popped fates

def dropCount : List (Fate α) → ℕ
  | [] => 0
  | .popped _ :: fates => dropCount fates
  | .dropped :: fates => dropCount fates + 1

/-- The values that went in and have left, without those that were dropped. -/
def survivors : List α → List (Fate α) → List α
  | x :: accepted, .popped _ :: fates => x :: survivors accepted fates
  | _ :: accepted, .dropped :: fates => survivors accepted fates
  | _, _ => []

/-- What left is the next that went in, and unchanged if it was handed out. -/
def InOrder (accepted : List α) (fates : List (Fate α)) : Prop :=
  fates.length ≤ accepted.length ∧
    ∀ (n : ℕ) (x : α), fates[n]? = some (.popped x) → accepted[n]? = some x

theorem length_fates (fates : List (Fate α)) :
    fates.length = (popped fates).length + dropCount fates := by
  induction fates with
  | nil => rfl
  | cons fate fates ih =>
    cases fate with
    | popped x =>
      simp only [List.length_cons, popped, dropCount]
      omega
    | dropped =>
      simp only [List.length_cons, popped, dropCount]
      omega

theorem popped_append (fates fates' : List (Fate α)) :
    popped (fates ++ fates') = popped fates ++ popped fates' := by
  induction fates with
  | nil => rfl
  | cons fate fates ih =>
    cases fate with
    | popped x => simp only [List.cons_append, popped, ih]
    | dropped => simp only [List.cons_append, popped, ih]

theorem survivors_append (h : accepted.length = fates.length) (accepted' : List α)
    (fates' : List (Fate α)) :
    survivors (accepted ++ accepted') (fates ++ fates') =
      survivors accepted fates ++ survivors accepted' fates' := by
  induction fates generalizing accepted with
  | nil =>
    obtain rfl := List.eq_nil_of_length_eq_zero h
    rfl
  | cons fate fates ih =>
    cases accepted with
    | nil => cases h
    | cons a accepted =>
      have htail := ih (Nat.succ.inj h)
      cases fate with
      | popped x => simp only [List.cons_append, survivors, htail]
      | dropped => simp only [List.cons_append, survivors, htail]

theorem InOrder.tail {fate : Fate α} (h : InOrder (x :: accepted) (fate :: fates)) :
    InOrder accepted fates := by
  refine ⟨Nat.le_of_succ_le_succ h.1, fun n y hn => ?_⟩
  exact h.2 (n + 1) y hn

theorem InOrder.popped_eq (h : InOrder accepted fates) :
    popped fates = survivors accepted fates := by
  induction fates generalizing accepted with
  | nil => cases accepted <;> rfl
  | cons fate fates ih =>
    cases accepted with
    | nil => exact absurd h.1 (by simp)
    | cons a accepted =>
      cases fate with
      | popped x =>
        have hx : a = x := by simpa using h.2 0 x rfl
        rw [popped, survivors, ih h.tail, hx]
      | dropped => rw [popped, survivors, ih h.tail]

theorem inOrder_nil : InOrder accepted [] := ⟨Nat.zero_le _, fun n x h => by simp at h⟩

theorem InOrder.push (h : InOrder accepted fates) (x : α) : InOrder (accepted ++ [x]) fates := by
  refine ⟨by simpa using Nat.le_succ_of_le h.1, fun n y hn => ?_⟩
  have hn' : n < fates.length := (List.getElem?_eq_some_iff.mp hn).1
  rw [List.getElem?_append_left (Nat.lt_of_lt_of_le hn' h.1)]
  exact h.2 n y hn

theorem InOrder.pop (h : InOrder accepted fates) (hx : accepted[fates.length]? = some x) :
    InOrder accepted (fates ++ [.popped x]) := by
  have hlt : fates.length < accepted.length := (List.getElem?_eq_some_iff.mp hx).1
  refine ⟨by simpa using Nat.succ_le_of_lt hlt, fun n y hn => ?_⟩
  by_cases hlast : n < fates.length
  · rw [List.getElem?_append_left hlast] at hn
    exact h.2 n y hn
  · have hn' : n = fates.length := by
      have := (List.getElem?_eq_some_iff.mp hn).1
      simp only [List.length_append, List.length_singleton] at this
      omega
    subst hn'
    rw [List.getElem?_concat_length] at hn
    cases hn
    exact hx

theorem InOrder.drop (h : InOrder accepted fates) (hk : fates.length + k ≤ accepted.length) :
    InOrder accepted (fates ++ List.replicate k .dropped) := by
  refine ⟨by simpa using hk, fun n y hn => ?_⟩
  by_cases hlast : n < fates.length
  · rw [List.getElem?_append_left hlast] at hn
    exact h.2 n y hn
  · rw [List.getElem?_append_right (Nat.le_of_not_lt hlast), List.getElem?_replicate] at hn
    split at hn <;> cases hn

/-! ### The slots and the counters -/

/-- Within one lap no two positions share a slot. -/
theorem mod_ne_mod (hlt : n < m) (hlap : m < n + capacity) : n % capacity ≠ m % capacity := by
  intro h
  have hdvd : capacity ∣ m - n := Nat.dvd_of_mod_eq_zero (Nat.sub_mod_eq_zero_of_mod_eq h.symm)
  have := Nat.le_of_dvd (by omega) hdvd
  omega

/-- A counter of `w` bits names the slot of its position before it wraps, and also after if the
capacity divides its range. -/
theorem ofNat_mod (h : capacity ∣ 2 ^ w ∨ n < 2 ^ w) :
    (BitVec.ofNat w n).toNat % capacity = n % capacity := by
  rw [BitVec.toNat_ofNat]
  rcases h with hdvd | hlt
  · exact Nat.mod_mod_of_dvd n hdvd
  · rw [Nat.mod_eq_of_lt hlt]

/-- The difference of two counters is how many positions lie between, wrapped or not. -/
theorem toNat_ofNat_sub (hle : n ≤ m) (hlt : m - n < 2 ^ w) :
    (BitVec.ofNat w m - BitVec.ofNat w n).toNat = m - n := by
  obtain ⟨d, rfl⟩ := Nat.exists_eq_add_of_le hle
  have hsum : BitVec.ofNat w (n + d) - BitVec.ofNat w n = BitVec.ofNat w d := by
    rw [BitVec.ofNat_add, BitVec.add_comm, BitVec.add_sub_cancel]
  rw [hsum, BitVec.toNat_ofNat, Nat.add_sub_cancel_left]
  exact Nat.mod_eq_of_lt (by omega)

end RingQueue
