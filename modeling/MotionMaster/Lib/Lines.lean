import Mathlib.Data.List.DropRight

/-!
# Lines of a text

A text split behind each line end, so that the lines joined are the text. Any list of lines of which
only the last lacks its end is what its text splits into.
-/

namespace Lines

variable {α : Type*} (newline : α)

def Terminated (line : List α) : Prop := ∃ body, newline ∉ body ∧ line = body ++ [newline]

/-- Every line ends with the only newline in it, but for the last, which may have none. -/
inductive Ruled : List (List α) → Prop
  | nil : Ruled []
  | last {line : List α} : line ≠ [] → newline ∉ line → Ruled [line]
  | cons {line : List α} {rest : List (List α)} :
    Terminated newline line → Ruled rest → Ruled (line :: rest)

variable {newline} {text line : List α} {ls ms : List (List α)}

/-- Leaving lines out keeps the last line the last. -/
theorem Ruled.sublist (h : Ruled newline ls) (hs : ms.Sublist ls) : Ruled newline ms := by
  induction h generalizing ms with
  | nil =>
    rw [List.sublist_nil.mp hs]
    exact .nil
  | @last line hne hline =>
    rcases List.sublist_singleton.mp hs with rfl | rfl
    · exact .nil
    · exact .last hne hline
  | cons hline _ ih =>
    cases hs with
    | cons _ hs => exact ih hs
    | cons_cons _ hs => exact .cons hline (ih hs)

variable [DecidableEq α]

def lines (newline : α) : List α → List (List α)
  | [] => []
  | x :: xs =>
    if x = newline then [x] :: lines newline xs
    else
      match lines newline xs with
      | [] => [[x]]
      | line :: rest => (x :: line) :: rest

@[simp] theorem flatten_lines (text : List α) : (lines newline text).flatten = text := by
  induction text with
  | nil => rfl
  | cons x xs ih =>
    rw [lines]
    split_ifs
    · rw [List.flatten_cons, ih]
      rfl
    · cases h : lines newline xs with
      | nil =>
        rw [h] at ih
        rw [← ih]
        rfl
      | cons line rest =>
        rw [h] at ih
        rw [← ih]
        rfl

theorem lines_terminated (h : Terminated newline line) (rest : List α) :
    lines newline (line ++ rest) = line :: lines newline rest := by
  obtain ⟨body, hbody, rfl⟩ := h
  induction body with
  | nil => simp [lines]
  | cons x body ih =>
    obtain ⟨hx, hbody⟩ := not_or.mp (List.mem_cons.not.mp hbody)
    rw [List.cons_append, List.cons_append, lines, if_neg (Ne.symm hx), ih hbody]

theorem lines_unterminated (hne : line ≠ []) (h : newline ∉ line) :
    lines newline line = [line] := by
  induction line with
  | nil => exact absurd rfl hne
  | cons x line ih =>
    obtain ⟨hx, hline⟩ := not_or.mp (List.mem_cons.not.mp h)
    rw [lines, if_neg (Ne.symm hx)]
    cases line with
    | nil => rfl
    | cons y line => rw [ih (List.cons_ne_nil _ _) hline]

theorem ruled_lines (text : List α) : Ruled newline (lines newline text) := by
  induction text with
  | nil => exact .nil
  | cons x xs ih =>
    rw [lines]
    split_ifs with hx
    · exact .cons ⟨[], List.not_mem_nil, by rw [hx]; rfl⟩ ih
    · generalize lines newline xs = ls at ih ⊢
      cases ih with
      | nil => exact .last (List.cons_ne_nil _ _) (by simpa using Ne.symm hx)
      | last hne hline =>
        refine .last (List.cons_ne_nil _ _) ?_
        rw [List.mem_cons, not_or]
        exact ⟨Ne.symm hx, hline⟩
      | cons hline hrest =>
        obtain ⟨body, hbody, rfl⟩ := hline
        refine .cons ⟨x :: body, ?_, rfl⟩ hrest
        rw [List.mem_cons, not_or]
        exact ⟨Ne.symm hx, hbody⟩

theorem Ruled.lines_flatten (h : Ruled newline ls) : lines newline ls.flatten = ls := by
  induction h with
  | nil => rfl
  | last hne hline => simpa using lines_unterminated hne hline
  | cons hline _ ih => rw [List.flatten_cons, lines_terminated hline, ih]

end Lines
