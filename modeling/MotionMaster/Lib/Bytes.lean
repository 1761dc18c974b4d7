import Mathlib.Data.List.Basic
import Mathlib.Tactic.Ring

/-!
# Bytes in memory

Little-endian words, and a copy into memory as the byte stores it performs.
-/

namespace Bytes

universe u

/-- The low `n` bytes of a value, least significant first. -/
def encode : ℕ → ℕ → List (BitVec 8)
  | 0, _ => []
  | n + 1, v => BitVec.ofNat 8 v :: encode n (v / 256)

def decode : List (BitVec 8) → ℕ
  | [] => 0
  | b :: bytes => b.toNat + 256 * decode bytes

@[simp] theorem length_encode (n v : ℕ) : (encode n v).length = n := by
  induction n generalizing v with
  | zero => rfl
  | succ n ih => simp [encode, ih]

theorem decode_encode (n v : ℕ) : decode (encode n v) = v % 256 ^ n := by
  induction n generalizing v with
  | zero => simp [encode, decode, Nat.mod_one]
  | succ n ih =>
    have hb : (BitVec.ofNat 8 v).toNat = v % 256 := by simp
    rw [encode, decode, ih, hb, Nat.pow_succ', Nat.mod_mul]

theorem decode_lt (bytes : List (BitVec 8)) : decode bytes < 256 ^ bytes.length := by
  induction bytes with
  | nil => simp [decode]
  | cons b bytes ih =>
    rw [decode, List.length_cons, Nat.pow_succ']
    omega

/-- The stores a copy to `offset` performs, in order. -/
def copy {α : Type u} : ℕ → List α → List (ℕ × α)
  | _, [] => []
  | offset, b :: bytes => (offset, b) :: copy (offset + 1) bytes

variable {α : Type u}

@[simp] theorem map_fst_copy (offset : ℕ) (bytes : List α) :
    (copy offset bytes).map Prod.fst = List.range' offset bytes.length := by
  induction bytes generalizing offset with
  | nil => rfl
  | cons b bytes ih => simp [copy, ih, List.range'_succ]

@[simp] theorem map_snd_copy (offset : ℕ) (bytes : List α) :
    (copy offset bytes).map Prod.snd = bytes := by
  induction bytes generalizing offset with
  | nil => rfl
  | cons b bytes ih => simp [copy, ih]

/-- Stores performed so far hold, as long as each address is stored to once. -/
theorem holds_store {memory : ℕ → α} {done todo : List (ℕ × α)} {base offset : ℕ} {b : α}
    (hn : ((done ++ (offset, b) :: todo).map Prod.fst).Nodup)
    (hd : ∀ p ∈ done, memory (base + p.1) = p.2) :
    ∀ p ∈ done ++ [(offset, b)], Function.update memory (base + offset) b (base + p.1) = p.2 := by
  intro p hp
  rcases List.mem_append.mp hp with hp | hp
  · have hne : p.1 ≠ offset := by
      intro he
      rw [List.map_append, List.map_cons] at hn
      exact (List.nodup_append.mp hn).2.2 _ (List.mem_map_of_mem hp) _ (by simp) he
    rw [Function.update_of_ne (by omega)]
    exact hd p hp
  · simp_all

end Bytes
