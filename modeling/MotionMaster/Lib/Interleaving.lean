import Mathlib.Data.List.Basic

/-!
# Interleaved systems

A system takes one action at a time. A schedule is the list of the actions taken, so a run is
determined by its schedule, and a condition on a run is a condition on each action in the state
it is taken in.
-/

namespace Interleaving

universe u v

/-- A start state, the actions each state allows, and the effect of each action. -/
structure System (σ : Type u) (α : Type v) where
  initial : σ
  Enabled : σ → α → Prop
  next : σ → α → σ

namespace System

variable {σ : Type u} {α : Type v} (M : System σ α)

def run (s : σ) (actions : List α) : σ := actions.foldl M.next s

/-- Each action is enabled, and meets the condition, in the state it is taken in. -/
def Follows (C : σ → α → Prop) : σ → List α → Prop
  | _, [] => True
  | s, a :: actions => (M.Enabled s a ∧ C s a) ∧ Follows C (M.next s a) actions

instance decidableFollows (C : σ → α → Prop) [∀ s a, Decidable (M.Enabled s a)]
    [∀ s a, Decidable (C s a)] : ∀ s actions, Decidable (M.Follows C s actions)
  | _, [] => isTrue trivial
  | s, a :: actions =>
    have := decidableFollows C (M.next s a) actions
    inferInstanceAs (Decidable ((M.Enabled s a ∧ C s a) ∧ M.Follows C (M.next s a) actions))

/-- Some schedule whose every step meets the condition leads to the state. -/
def ReachableUnder (C : σ → α → Prop) (s : σ) : Prop :=
  ∃ actions, M.Follows C M.initial actions ∧ M.run M.initial actions = s

def Reachable (s : σ) : Prop := M.ReachableUnder (fun _ _ => True) s

variable {M} {C D : σ → α → Prop} {s t : σ} {a : α}

variable {xs : List α}

theorem follows_append {ys : List α} :
    M.Follows C s (xs ++ ys) ↔ M.Follows C s xs ∧ M.Follows C (M.run s xs) ys := by
  induction xs generalizing s with
  | nil => simp [Follows, run]
  | cons a xs ih => simp [Follows, run, ih, and_assoc]

theorem Follows.mono (hcd : ∀ s a, C s a → D s a) (h : M.Follows C s xs) :
    M.Follows D s xs := by
  induction xs generalizing s with
  | nil => trivial
  | cons a xs ih => exact ⟨⟨h.1.1, hcd _ _ h.1.2⟩, ih h.2⟩

/-- Each action meets the condition in the state it is taken in, enabled or not. -/
def Meets (M : System σ α) (C : σ → α → Prop) : σ → List α → Prop
  | _, [] => True
  | s, a :: actions => C s a ∧ Meets M C (M.next s a) actions

theorem follows_iff :
    M.Follows C s xs ↔ M.Follows (fun _ _ => True) s xs ∧ M.Meets C s xs := by
  induction xs generalizing s with
  | nil => simp [Follows, Meets]
  | cons a xs ih =>
    simp only [Follows, Meets, ih (s := M.next s a)]
    tauto

theorem meets_append {ys : List α} :
    M.Meets C s (xs ++ ys) ↔ M.Meets C s xs ∧ M.Meets C (M.run s xs) ys := by
  induction xs generalizing s with
  | nil => simp [Meets, run]
  | cons a xs ih => simp [Meets, run, ih, and_assoc]

/-- Actions that meet the condition anywhere. -/
theorem meets_of_forall (h : ∀ a ∈ xs, ∀ s, C s a) : M.Meets C s xs := by
  induction xs generalizing s with
  | nil => trivial
  | cons a xs ih =>
    exact ⟨h a List.mem_cons_self s, ih fun b hb => h b (List.mem_cons_of_mem _ hb)⟩

theorem reachableUnder_initial : M.ReachableUnder C M.initial := ⟨[], trivial, rfl⟩

theorem ReachableUnder.step (h : M.ReachableUnder C s) (he : M.Enabled s a) (hc : C s a) :
    M.ReachableUnder C (M.next s a) := by
  obtain ⟨xs, hx, rfl⟩ := h
  refine ⟨xs ++ [a], follows_append.mpr ⟨hx, ⟨he, hc⟩, trivial⟩, ?_⟩
  simp [run]

theorem ReachableUnder.append (h : M.ReachableUnder C s) (hx : M.Follows C s xs) :
    M.ReachableUnder C (M.run s xs) := by
  obtain ⟨ys, hy, rfl⟩ := h
  exact ⟨ys ++ xs, follows_append.mpr ⟨hy, hx⟩, by simp [run]⟩

theorem ReachableUnder.mono (hcd : ∀ s a, C s a → D s a) (h : M.ReachableUnder C s) :
    M.ReachableUnder D s := by
  obtain ⟨xs, hx, rfl⟩ := h
  exact ⟨xs, hx.mono hcd, rfl⟩

variable {I : σ → Prop}

/-- An invariant of every step a schedule may take holds along the whole schedule. -/
theorem Follows.invariant (h : M.Follows C s xs) (hs : I s)
    (hstep : ∀ s a, I s → M.Enabled s a → C s a → I (M.next s a)) : I (M.run s xs) := by
  induction xs generalizing s with
  | nil => exact hs
  | cons a xs ih => exact ih h.2 (hstep s a hs h.1.1 h.1.2)

/-- The induction every safety result uses: initial, preserved, hence reached. -/
theorem ReachableUnder.invariant (h : M.ReachableUnder C s) (hi : I M.initial)
    (hstep : ∀ s a, I s → M.Enabled s a → C s a → I (M.next s a)) : I s := by
  obtain ⟨xs, hx, rfl⟩ := h
  exact hx.invariant hi hstep

/-- The same induction, with what is already known of the states reached so far. -/
theorem ReachableUnder.induct (h : M.ReachableUnder C s) (hi : I M.initial)
    (hstep : ∀ s a, M.ReachableUnder C s → I s → M.Enabled s a → C s a → I (M.next s a)) :
    I s := by
  refine (h.invariant (I := fun s => M.ReachableUnder C s ∧ I s)
    ⟨reachableUnder_initial, hi⟩ ?_).2
  intro s a ⟨hr, hs⟩ he hc
  exact ⟨hr.step he hc, hstep s a hr hs he hc⟩

/-- What a run under one condition maintains may imply another condition of the same run. -/
theorem ReachableUnder.imp (h : M.ReachableUnder C s)
    (hcd : ∀ s a, M.ReachableUnder C s → C s a → D s a) : M.ReachableUnder D s :=
  h.induct reachableUnder_initial fun s a hr hd he hc => hd.step he (hcd s a hr hc)

end System

end Interleaving
