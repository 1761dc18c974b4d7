import Mathlib.Tactic.Common

/-!
# Scripts that can be left early

Bodies that perform operations one after the other and return at the first one that fails, or where
they find that they have been cancelled. A script says which operations come in which order, and
leaves to its environment how each ends, which way a branch goes and how often a loop turns.
-/

namespace Script

universe u v

inductive Body (α : Type u) where
  | skip
  /-- The script is left if the operation fails. -/
  | op (a : α)
  /-- Whatever becomes of this part, the script goes on after it. -/
  | attempt (x : Body α)
  /-- The script is left here if it has been cancelled. -/
  | stop
  | leave
  | seq (x y : Body α)
  | either (x y : Body α)
  | loop (x : Body α)

/-- How a script ended. -/
inductive Exit where
  | done
  | left
  deriving DecidableEq

variable {α : Type u} {σ : Type v}

/-- The runs of a script, given the outcomes each operation can have. -/
inductive Exec (step : σ → α → Exit → σ → Prop) : Body α → σ → Exit → σ → Prop
  | skip (s : σ) : Exec step .skip s .done s
  | op {a : α} {s t : σ} {e : Exit} (h : step s a e t) : Exec step (.op a) s e t
  | attempt {x : Body α} {s t : σ} {e : Exit} (h : Exec step x s e t) :
      Exec step (.attempt x) s .done t
  | go (s : σ) : Exec step .stop s .done s
  | cancel (s : σ) : Exec step .stop s .left s
  | leave (s : σ) : Exec step .leave s .left s
  | seq {x y : Body α} {s t u : σ} {e : Exit} (h : Exec step x s .done t)
      (h' : Exec step y t e u) : Exec step (.seq x y) s e u
  | seqLeft {x y : Body α} {s t : σ} (h : Exec step x s .left t) :
      Exec step (.seq x y) s .left t
  | eitherFirst {x y : Body α} {s t : σ} {e : Exit} (h : Exec step x s e t) :
      Exec step (.either x y) s e t
  | eitherSecond {x y : Body α} {s t : σ} {e : Exit} (h : Exec step y s e t) :
      Exec step (.either x y) s e t
  | loopDone {x : Body α} (s : σ) : Exec step (.loop x) s .done s
  | loopNext {x : Body α} {s t u : σ} {e : Exit} (h : Exec step x s .done t)
      (h' : Exec step (.loop x) t e u) : Exec step (.loop x) s e u
  | loopLeft {x : Body α} {s t : σ} (h : Exec step x s .left t) :
      Exec step (.loop x) s .left t

/-- All operations of the script are of the given kind. -/
def Body.All (p : α → Prop) : Body α → Prop
  | .skip | .stop | .leave => True
  | .op a => p a
  | .attempt x | .loop x => x.All p
  | .seq x y | .either x y => x.All p ∧ y.All p

instance Body.decidableAll (p : α → Prop) [DecidablePred p] :
    ∀ x : Body α, Decidable (x.All p)
  | .skip | .stop | .leave => isTrue trivial
  | .op a => inferInstanceAs (Decidable (p a))
  | .attempt x | .loop x => decidableAll p x
  | .seq x y | .either x y =>
    have := decidableAll p x
    have := decidableAll p y
    inferInstanceAs (Decidable (x.All p ∧ y.All p))

def Body.all : List (Body α) → Body α
  | [] => .skip
  | x :: xs => .seq x (all xs)

variable {step : σ → α → Exit → σ → Prop} {p : α → Prop} {x y : Body α} {P Q R I : σ → Prop}
  {a : α}

theorem Body.All.of_forall (h : ∀ a, p a) : x.All p := by
  induction x with
  | skip | stop | leave => trivial
  | op a => exact h a
  | attempt _ ih | loop _ ih => exact ih
  | seq _ _ ihx ihy | either _ _ ihx ihy => exact ⟨ihx, ihy⟩

variable {e : Exit}

/-- What every operation of the script keeps holds when the script ends. -/
theorem Exec.invariant {s t : σ} (h : Exec step x s e t) (hx : x.All p)
    (hstep : ∀ s a e t, p a → I s → step s a e t → I t) (hs : I s) : I t := by
  induction h with
  | skip | go | cancel | leave | loopDone => exact hs
  | op h => exact hstep _ _ _ _ hx hs h
  | attempt _ ih => exact ih hx hs
  | seq _ _ ih ih' => exact ih' hx.2 (ih hx.1 hs)
  | seqLeft _ ih => exact ih hx.1 hs
  | eitherFirst _ ih => exact ih hx.1 hs
  | eitherSecond _ ih => exact ih hx.2 hs
  | loopNext _ _ ih ih' => exact ih' hx (ih hx hs)
  | loopLeft _ ih => exact ih hx hs

/-- From a state with `P` the script ends with `Q`, or is left with `R`. -/
def Triple (step : σ → α → Exit → σ → Prop) (P : σ → Prop) (x : Body α) (Q R : σ → Prop) :
    Prop :=
  ∀ s t, P s → (Exec step x s .done t → Q t) ∧ (Exec step x s .left t → R t)

theorem Triple.op (hq : ∀ s t, P s → step s a .done t → Q t)
    (hr : ∀ s t, P s → step s a .left t → R t) : Triple step P (.op a) Q R := by
  intro s t hs
  constructor
  · intro h
    cases h with
    | op h => exact hq s t hs h
  · intro h
    cases h with
    | op h => exact hr s t hs h

theorem Triple.seq (hx : Triple step P x I R) (hy : Triple step I y Q R) :
    Triple step P (.seq x y) Q R := by
  intro s t hs
  constructor
  · intro h
    cases h with
    | seq h h' => exact (hy _ _ ((hx _ _ hs).1 h)).1 h'
  · intro h
    cases h with
    | seq h h' => exact (hy _ _ ((hx _ _ hs).1 h)).2 h'
    | seqLeft h => exact (hx _ _ hs).2 h

theorem Triple.either (hx : Triple step P x Q R) (hy : Triple step P y Q R) :
    Triple step P (.either x y) Q R := by
  intro s t hs
  constructor
  · intro h
    cases h with
    | eitherFirst h => exact (hx _ _ hs).1 h
    | eitherSecond h => exact (hy _ _ hs).1 h
  · intro h
    cases h with
    | eitherFirst h => exact (hx _ _ hs).2 h
    | eitherSecond h => exact (hy _ _ hs).2 h

theorem Triple.attempt (hx : Triple step P x Q Q) : Triple step P (.attempt x) Q R := by
  intro s t hs
  constructor
  · intro h
    cases h with
    | @attempt _ _ _ e h =>
      cases e with
      | done => exact (hx _ _ hs).1 h
      | left => exact (hx _ _ hs).2 h
  · intro h
    cases h

theorem Triple.skip (h : ∀ s, P s → Q s) : Triple step P .skip Q R := by
  intro s t hs
  constructor
  · intro hx
    cases hx
    exact h s hs
  · intro hx
    cases hx

/-- A script in two halves is left in the first, or comes to the second. -/
theorem exec_append {xs ys : List (Body α)} {s t : σ}
    (h : Exec step (.all (xs ++ ys)) s e t) :
    (e = .left ∧ Exec step (.all xs) s .left t) ∨
      ∃ u, Exec step (.all xs) s .done u ∧ Exec step (.all ys) u e t := by
  induction xs generalizing s with
  | nil => exact Or.inr ⟨s, .skip s, h⟩
  | cons x xs ih =>
    cases h with
    | seq h h' =>
      rcases ih h' with ⟨rfl, hl⟩ | ⟨u, hu, hy⟩
      · exact Or.inl ⟨rfl, .seq h hl⟩
      · exact Or.inr ⟨u, .seq h hu, hy⟩
    | seqLeft h => exact Or.inl ⟨rfl, .seqLeft h⟩

theorem Triple.append {xs ys : List (Body α)} (hx : Triple step P (.all xs) I R)
    (hy : Triple step I (.all ys) Q R) : Triple step P (.all (xs ++ ys)) Q R := by
  intro s t hs
  constructor
  · intro h
    rcases exec_append h with ⟨hl, _⟩ | ⟨u, hu, h'⟩
    · cases hl
    · exact (hy u t ((hx s u hs).1 hu)).1 h'
  · intro h
    rcases exec_append h with ⟨_, h⟩ | ⟨u, hu, h'⟩
    · exact (hx s t hs).2 h
    · exact (hy u t ((hx s u hs).1 hu)).2 h'

/-- A part of which every operation keeps what is known. -/
theorem Triple.keep (hx : x.All p) (hstep : ∀ s a e t, p a → P s → step s a e t → P t) :
    Triple step P x P P :=
  fun _ _ hs => ⟨fun h => h.invariant hx hstep hs, fun h => h.invariant hx hstep hs⟩

theorem Triple.weaken {P' Q' R' : σ → Prop} (h : Triple step P x Q R) (hp : ∀ s, P' s → P s)
    (hq : ∀ s, Q s → Q' s) (hr : ∀ s, R s → R' s) : Triple step P' x Q' R' :=
  fun s t hs => ⟨fun hx => hq t ((h s t (hp s hs)).1 hx), fun hx => hr t ((h s t (hp s hs)).2 hx)⟩

section Parts

variable {r : σ → σ → Prop} {ys : List (Body α)} {s t : σ}

/-- What each part of a script does to the state, the whole does. -/
theorem exec_all (hrefl : ∀ s, r s s) (htrans : ∀ s t u, r s t → r t u → r s u)
    (hpart : ∀ y ∈ ys, ∀ s t, Exec step y s .done t → r s t)
    (h : Exec step (.all ys) s .done t) : r s t := by
  induction ys generalizing s with
  | nil =>
    cases h
    exact hrefl _
  | cons y ys ih =>
    cases h with
    | seq h h' =>
      exact htrans _ _ _ (hpart y List.mem_cons_self _ _ h)
        (ih (fun z hz => hpart z (List.mem_cons_of_mem _ hz)) h')

/-- Each part of a script that ends has its turn. -/
theorem exec_all_mem (hrefl : ∀ s, r s s) (htrans : ∀ s t u, r s t → r t u → r s u)
    (hpart : ∀ y ∈ ys, ∀ s t, Exec step y s .done t → r s t)
    (h : Exec step (.all ys) s .done t) (hx : x ∈ ys) :
    ∃ u w, r s u ∧ Exec step x u .done w ∧ r w t := by
  obtain ⟨before, after, rfl⟩ := List.append_of_mem hx
  rcases exec_append h with ⟨hl, _⟩ | ⟨u, hu, h'⟩
  · cases hl
  · cases h' with
    | @seq _ _ _ w _ _ hexec hafter =>
      have hbefore := exec_all hrefl htrans
        (fun y hy => hpart y (List.mem_append_left _ hy)) hu
      have hrest := exec_all hrefl htrans
        (fun y hy => hpart y (List.mem_append_right _ (List.mem_cons_of_mem _ hy))) hafter
      exact ⟨u, w, hbefore, hexec, hrest⟩

end Parts

/-! ### Following what is known through a script -/

/-- What an operation makes of what is known, or `none` if it is not allowed then, what is known
after one of two branches, and whether the script may be left. -/
structure Analysis (α : Type u) (κ : Type*) where
  after : κ → α → Option κ
  join : κ → κ → κ
  leaves : κ → Bool

variable {κ : Type*} [DecidableEq κ]

/-- A part that is repeated, or that may end early, has to leave alone what is known. -/
def Analysis.flow (A : Analysis α κ) (k : κ) : Body α → Option κ
  | .skip => some k
  | .op a => A.after k a
  | .attempt x | .loop x =>
    if A.leaves k = true ∧ x.All fun a => A.after k a = some k then some k else none
  | .stop | .leave => if A.leaves k then some k else none
  | .seq x y => (A.flow k x).bind fun l => A.flow l y
  | .either x y =>
    (A.flow k x).bind fun l => (A.flow k y).bind fun m =>
      if l = m then some l
      else if A.leaves l = true ∧ A.leaves m = true then some (A.join l m) else none

/-- What is known is so, and an operation that fails leaves it alone. The script is left only with
`R`. -/
structure Analysis.Sound (A : Analysis α κ) (step : σ → α → Exit → σ → Prop)
    (Fits : κ → σ → Prop) (R : σ → Prop) : Prop where
  op : ∀ k a l, A.after k a = some l →
    Triple step (Fits k) (.op a) (Fits l) fun t => A.leaves k = true ∧ Fits k t
  join : ∀ k l s, A.leaves k = true → A.leaves l = true → Fits k s ∨ Fits l s →
    Fits (A.join k l) s
  leaves : ∀ k s, A.leaves k = true → Fits k s → R s

omit [DecidableEq κ] in
theorem Analysis.Sound.steady {A : Analysis α κ} {Fits : κ → σ → Prop} (hA : A.Sound step Fits R)
    {k : κ} (s : σ) (a : α) (e : Exit) (t : σ) (ha : A.after k a = some k) (hs : Fits k s)
    (h : step s a e t) : Fits k t := by
  cases e with
  | done => exact (hA.op k a k ha s t hs).1 (.op h)
  | left => exact ((hA.op k a k ha s t hs).2 (.op h)).2

theorem Analysis.Sound.triple {A : Analysis α κ} {Fits : κ → σ → Prop} (hA : A.Sound step Fits R)
    {k l : κ} (h : A.flow k x = some l) : Triple step (Fits k) x (Fits l) R := by
  induction x generalizing k l with
  | skip =>
    cases h
    exact .skip fun _ hs => hs
  | op a =>
    exact (hA.op k a l h).weaken (fun _ hs => hs) (fun _ hs => hs) fun s hs =>
      hA.leaves k s hs.1 hs.2
  | attempt x =>
    simp only [flow, Option.ite_none_right_eq_some, Option.some.injEq] at h
    obtain ⟨⟨hleaves, hx⟩, rfl⟩ := h
    exact .attempt (.keep hx hA.steady)
  | stop =>
    simp only [flow, Option.ite_none_right_eq_some, Option.some.injEq] at h
    obtain ⟨hleaves, rfl⟩ := h
    intro s t hs
    constructor
    · rintro ⟨⟩
      exact hs
    · rintro ⟨⟩
      exact hA.leaves k s hleaves hs
  | leave =>
    simp only [flow, Option.ite_none_right_eq_some, Option.some.injEq] at h
    obtain ⟨hleaves, rfl⟩ := h
    intro s t hs
    constructor
    · rintro ⟨⟩
    · rintro ⟨⟩
      exact hA.leaves k s hleaves hs
  | seq x y ihx ihy =>
    simp only [flow, Option.bind_eq_some_iff] at h
    obtain ⟨m, hm, hl⟩ := h
    exact (ihx hm).seq (ihy hl)
  | either x y ihx ihy =>
    simp only [flow, Option.bind_eq_some_iff] at h
    obtain ⟨m, hm, n, hn, h⟩ := h
    split_ifs at h with heq hleaves
    · cases h
      subst heq
      exact .either (ihx hm) (ihy hn)
    · cases h
      have hfirst := (ihx hm).weaken (fun _ hs => hs)
        (fun s hs => hA.join m n s hleaves.1 hleaves.2 (Or.inl hs)) fun _ hs => hs
      have hsecond := (ihy hn).weaken (fun _ hs => hs)
        (fun s hs => hA.join m n s hleaves.1 hleaves.2 (Or.inr hs)) fun _ hs => hs
      exact .either hfirst hsecond
  | loop x =>
    simp only [flow, Option.ite_none_right_eq_some, Option.some.injEq] at h
    obtain ⟨⟨hleaves, hx⟩, rfl⟩ := h
    have hloop : (Body.loop x).All fun a => A.after k a = some k := hx
    exact (Triple.keep hloop hA.steady).weaken (fun _ hs => hs) (fun _ hs => hs) fun s hs =>
      hA.leaves k s hleaves hs

/-! ### Running a script -/

/-- What the environment decides: how an operation ends, or which way a script goes. -/
inductive Choice (β : Type u) where
  | answer (b : β)
  | yes
  | no

section Run

variable {β : Type u} (apply : σ → α → β → Exit × σ) (C : σ → α → β → Prop)

/-- The outcomes an operation can have when each answer meets the condition. -/
def stepOf (s : σ) (a : α) (e : Exit) (t : σ) : Prop := ∃ b, C s a b ∧ apply s a b = (e, t)

/-- The run the choices select, with those it did not need. -/
def run [∀ s a b, Decidable (C s a b)] :
    ℕ → Body α → List (Choice β) → σ → Option (Exit × σ × List (Choice β))
  | _ + 1, .skip, cs, s => some (.done, s, cs)
  | _ + 1, .op a, .answer b :: cs, s =>
    if C s a b then some ((apply s a b).1, (apply s a b).2, cs) else none
  | n + 1, .attempt x, cs, s => (run n x cs s).map fun r => (.done, r.2)
  | _ + 1, .stop, .yes :: cs, s => some (.left, s, cs)
  | _ + 1, .stop, .no :: cs, s => some (.done, s, cs)
  | _ + 1, .leave, cs, s => some (.left, s, cs)
  | n + 1, .seq x y, cs, s =>
    match run n x cs s with
    | some (.done, t, cs) => run n y cs t
    | r => r
  | n + 1, .either x _, .yes :: cs, s => run n x cs s
  | n + 1, .either _ y, .no :: cs, s => run n y cs s
  | n + 1, .loop x, .yes :: cs, s =>
    match run n x cs s with
    | some (.done, t, cs) => run n (.loop x) cs t
    | r => r
  | _ + 1, .loop _, .no :: cs, s => some (.done, s, cs)
  | _, _, _, _ => none

end Run

theorem exec_of_run {β : Type u} {apply : σ → α → β → Exit × σ} {C : σ → α → β → Prop}
    [∀ s a b, Decidable (C s a b)] {n : ℕ} {cs rest : List (Choice β)} {s t : σ}
    (h : run apply C n x cs s = some (e, t, rest)) :
    Exec (stepOf apply C) x s e t := by
  induction n generalizing x cs rest s t e with
  | zero => simp [run] at h
  | succ n ih =>
    cases x with
    | skip =>
      cases h
      exact .skip _
    | op a =>
      rcases cs with _ | ⟨b | _ | _, cs⟩
      · cases h
      · simp only [run, Option.ite_none_right_eq_some] at h
        obtain ⟨hc, h⟩ := h
        cases h
        exact .op ⟨b, hc, rfl⟩
      · cases h
      · cases h
    | attempt x =>
      simp only [run, Option.map_eq_some_iff] at h
      obtain ⟨⟨e, t, rest⟩, hx, h⟩ := h
      cases h
      exact .attempt (ih hx)
    | stop =>
      rcases cs with _ | ⟨b | _ | _, cs⟩ <;> cases h
      · exact .cancel _
      · exact .go _
    | leave =>
      cases h
      exact .leave _
    | seq x y =>
      simp only [run] at h
      split at h
      · rename_i hx
        exact .seq (ih hx) (ih h)
      · rename_i hdone
        cases e with
        | done => exact absurd h (hdone _ _)
        | left => exact .seqLeft (ih h)
    | either x y =>
      rcases cs with _ | ⟨b | _ | _, cs⟩
      · cases h
      · cases h
      · exact .eitherFirst (ih h)
      · exact .eitherSecond (ih h)
    | loop x =>
      rcases cs with _ | ⟨b | _ | _, cs⟩
      · cases h
      · cases h
      · simp only [run] at h
        split at h
        · rename_i hx
          exact .loopNext (ih hx) (ih h)
        · rename_i hdone
          cases e with
          | done => exact absurd h (hdone _ _)
          | left => exact .loopLeft (ih h)
      · cases h
        exact .loopDone _

end Script
