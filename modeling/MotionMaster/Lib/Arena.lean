import Mathlib.Data.List.Basic

/-!
# Append-only arenas

Cells are named by their place and never removed. An index from keys to places can be replaced
while the names handed out before keep their meaning.
-/

namespace Arena

universe u v w

variable {α : Type u} {τ : Type v} {κ : Type w}

/-- Every cell is still there, and looks the same. -/
def Extends (view : α → τ) (before after : List α) : Prop :=
  ∀ (k : ℕ) (c : α), before[k]? = some c → ∃ c', after[k]? = some c' ∧ view c' = view c

variable {view : α → τ} {xs ys zs : List α}

theorem Extends.refl (xs : List α) : Extends view xs xs := fun _ c h => ⟨c, h, rfl⟩

theorem Extends.trans (hxy : Extends view xs ys) (hyz : Extends view ys zs) :
    Extends view xs zs := by
  intro k c h
  obtain ⟨c', h', hv⟩ := hxy k c h
  obtain ⟨c'', h'', hv'⟩ := hyz k c' h'
  exact ⟨c'', h'', hv'.trans hv⟩

theorem extends_append (xs ys : List α) : Extends view xs (xs ++ ys) := by
  intro k c h
  have hk : k < xs.length := (List.getElem?_eq_some_iff.mp h).1
  exact ⟨c, by rw [List.getElem?_append_left hk, h], rfl⟩

theorem extends_modify (xs : List α) (n : ℕ) {f : α → α} (hf : ∀ c, view (f c) = view c) :
    Extends view xs (xs.modify n f) := by
  intro k c h
  by_cases hn : n = k
  · exact ⟨f c, by simp [hn, h], hf c⟩
  · exact ⟨c, by simp [hn, h], rfl⟩

theorem extends_set {n : ℕ} {c c' : α} (hc : xs[n]? = some c) (hv : view c' = view c) :
    Extends view xs (xs.set n c') := by
  intro k d h
  have hk : k < xs.length := (List.getElem?_eq_some_iff.mp h).1
  by_cases hn : n = k
  · subst hn
    rw [hc] at h
    cases h
    exact ⟨c', by simp [hk], hv⟩
  · exact ⟨d, by rw [List.getElem?_set_ne hn, h], rfl⟩

theorem Extends.length_le (h : Extends view xs ys) : xs.length ≤ ys.length := by
  by_contra hlt
  have hk : ys.length < xs.length := Nat.lt_of_not_le hlt
  obtain ⟨c, hc, -⟩ := h ys.length xs[ys.length] (List.getElem?_eq_getElem hk)
  simp at hc

theorem Extends.comp {υ : Type*} (h : Extends view xs ys) (g : τ → υ) :
    Extends (g ∘ view) xs ys := by
  intro k c hc
  obtain ⟨c', hc', hv⟩ := h k c hc
  exact ⟨c', hc', congrArg g hv⟩

variable {k : ℕ}

/-- A cell after an append is an old one or the new one. -/
theorem getElem?_concat_cases {x y : α} (h : (xs ++ [x])[k]? = some y) :
    xs[k]? = some y ∨ k = xs.length ∧ y = x := by
  rcases Nat.lt_or_ge k xs.length with hk | hk
  · rw [List.getElem?_append_left hk] at h
    exact .inl h
  · obtain ⟨hlt, hy⟩ := List.getElem?_eq_some_iff.mp h
    rw [List.length_append, List.length_singleton] at hlt
    obtain rfl : k = xs.length := by omega
    exact .inr ⟨rfl, by simpa using hy.symm⟩

/-- The index names, for each key it knows, a cell of that key. -/
def Keyed (key : α → κ) (cells : List α) (index : κ → Option ℕ) : Prop :=
  ∀ x k, index x = some k → ∃ c, cells[k]? = some c ∧ key c = x

variable {key : α → κ} {index : κ → Option ℕ}

theorem keyed_empty : Keyed key xs fun _ => none := by
  intro x k h
  cases h

theorem Keyed.extend (h : Keyed key xs index) (he : Extends key xs ys) : Keyed key ys index := by
  intro x k hx
  obtain ⟨c, hc, rfl⟩ := h x k hx
  exact he k c hc

theorem Keyed.update [DecidableEq κ] (h : Keyed key xs index) {c : α}
    (hc : xs[k]? = some c) : Keyed key xs (Function.update index (key c) (some k)) := by
  intro x n hx
  by_cases he : x = key c
  · subst he
    rw [Function.update_self] at hx
    cases hx
    exact ⟨c, hc, rfl⟩
  · rw [Function.update_of_ne he] at hx
    exact h x n hx

/-- Two keys never share a cell. -/
theorem Keyed.eq_key (h : Keyed key xs index) {x : κ} {c : α} (hx : index x = some k)
    (hc : xs[k]? = some c) : key c = x := by
  obtain ⟨c', hc', hk⟩ := h x k hx
  rw [hc] at hc'
  cases hc'
  exact hk

end Arena
