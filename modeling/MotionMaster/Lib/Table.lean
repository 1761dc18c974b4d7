import Mathlib.Data.List.Basic

/-!
# Tables

Entries under keys, where a key without an entry stands for a default.
-/

namespace Table

universe u v

variable {κ : Type u} {α : Type v} [DecidableEq κ] {d v : α} {k l : κ} {t : List (κ × α)}

def get (d : α) : List (κ × α) → κ → α
  | [], _ => d
  | (l, v) :: t, k => if l = k then v else get d t k

/-- Replaces the entry of a key where it stands, or appends one. -/
def put : List (κ × α) → κ → α → List (κ × α)
  | [], k, v => [(k, v)]
  | (l, u) :: t, k, v => if l = k then (l, v) :: t else (l, u) :: put t k v

@[simp] theorem get_put_self (t : List (κ × α)) (k : κ) (v : α) : get d (put t k v) k = v := by
  induction t with
  | nil => simp [put, get]
  | cons e t ih =>
    by_cases he : e.1 = k
    · simp [put, get, he]
    · simp [put, get, he, ih]

theorem get_put_of_ne (h : l ≠ k) (t : List (κ × α)) (v : α) :
    get d (put t k v) l = get d t l := by
  induction t with
  | nil => simp [put, get, h.symm]
  | cons e t ih =>
    by_cases he : e.1 = k
    · have hl : e.1 ≠ l := fun hl => h (hl.symm.trans he)
      simp only [put, get, if_pos he, if_neg hl]
    · simp only [put, get, if_neg he, ih]

def total (w : κ → α → ℕ) : List (κ × α) → ℕ
  | [] => 0
  | e :: t => w e.1 e.2 + total w t

/-- An update exchanges the weight of one key, if the default weighs nothing. -/
theorem total_put (w : κ → α → ℕ) (hd : w k d = 0) (t : List (κ × α)) (v : α) :
    total w (put t k v) + w k (get d t k) = total w t + w k v := by
  induction t with
  | nil => simp [put, get, total, hd]
  | cons e t ih =>
    obtain ⟨l, u⟩ := e
    by_cases he : l = k
    · subst he
      simp only [put, get, if_true, total]
      omega
    · simp only [put, get, if_neg he, total] at ih ⊢
      omega

end Table
