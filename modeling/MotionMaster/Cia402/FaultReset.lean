import Mathlib.Tactic.Linarith
import MotionMaster.Cia402.StateMachine
import MotionMaster.Lib.Interleaving

/-!
# The edge of a fault reset

A drive takes a fault reset from a rising edge of bit 7 of the controlword. With the controlword
mapped, `setControlword` stores a cell and every cycle sends what the cell holds, so a word that is
replaced before a cycle runs is never seen. `faultReset` looks at the cell to find out whether the
bit is low.
-/

namespace MotionMaster.Cia402

abbrev Word := BitVec 16

def kCommandMask : Word := 0x008F

def kCmdFaultReset : Word := 0x0080

/-- Bit 7 of a controlword. -/
def Word.isReset (word : Word) : Bool := word.getLsbD 7

/-- Where the caller is: before the write of `applyCommand`, before the write of `faultReset` that
lowers the bit, in its wait (and whether a cycle has run in it), or before the write that raises the
bit, with or without a wait before it. -/
inductive Caller where
  | idle
  | applying (next : Word)
  | clearing (current : Word)
  | settling (cycled : Bool)
  | raising (settled : Bool) (current : Word)
  deriving DecidableEq

/-- `last` is the last controlword sent. `window` are those sent from the last one before the call
of `faultReset` on. After a reset has been written they are `pending` until a cycle sends it, and
`checked` when it has. -/
structure Wire where
  cell : Word
  last : Word
  caller : Caller
  window : List Word
  pending : Option (List Word)
  checked : List (List Word)

inductive WireAction where
  | cycle
  | applyCommand (command : Word) (read : Bool)
  | faultReset (read : Bool)
  | write (reply : Reply)
  | wake (read : Bool)
  deriving DecidableEq

namespace Wire

/-- `setControlword`, which may fail before or after it stored the word. -/
def store (s : Wire) (word : Word) (reply : Reply) : Wire :=
  if reply.landed then { s with cell := word, pending := none } else s

def cycle (s : Wire) : Wire :=
  { s with
    last := s.cell
    window := s.window ++ [s.cell]
    pending := none
    checked := (s.pending.map (· ++ [s.cell])).toList ++ s.checked
    caller :=
      match s.caller with
      | .settling _ => .settling true
      | caller => caller }

/-- `applyCommand` up to its write. -/
def applyCommand (s : Wire) (command : Word) (read : Bool) : Wire :=
  if read then
    { s with
      caller := .applying ((s.cell &&& ~~~kCommandMask) ||| (command &&& kCommandMask)) }
  else s

/-- `faultReset` up to its first write. -/
def faultReset (s : Wire) (read : Bool) : Wire :=
  { s with
    window := [s.last]
    caller :=
      if read then
        if s.cell &&& kCmdFaultReset ≠ 0 then .clearing s.cell else .raising false s.cell
      else .idle }

def write (s : Wire) (reply : Reply) : Wire :=
  match s.caller with
  | .applying next => { s.store next reply with caller := .idle }
  | .clearing current =>
    { s.store (current &&& ~~~kCmdFaultReset) reply with
      caller := if reply = .ok then .settling false else .idle }
  | .raising _ current =>
    if reply = .ok then
      { s.store (current ||| kCmdFaultReset) reply with caller := .idle, pending := some s.window }
    else { s.store (current ||| kCmdFaultReset) reply with caller := .idle }
  | .idle | .settling _ => s

/-- The end of the wait of `faultReset`, which reads the controlword again. -/
def wake (s : Wire) (read : Bool) : Wire :=
  { s with caller := if read then .raising true s.cell else .idle }

end Wire

def wireNext (s : Wire) : WireAction → Wire
  | .cycle => s.cycle
  | .applyCommand command read => s.applyCommand command read
  | .faultReset read => s.faultReset read
  | .write reply => s.write reply
  | .wake read => s.wake read

/-- At least one cycle runs in the wait of `faultReset`. -/
def WireEnabled (s : Wire) : WireAction → Prop
  | .cycle => True
  | .applyCommand _ _ | .faultReset _ => s.caller = .idle
  | .write _ => s.caller ≠ .idle ∧ ∀ cycled, s.caller ≠ .settling cycled
  | .wake _ => s.caller = .settling true

instance (s : Wire) (a : WireAction) : Decidable (WireEnabled s a) := by
  cases a <;> unfold WireEnabled <;> infer_instance

/-- A drive with any controlword staged and any controlword sent last. -/
abbrev wireSystem (cell last : Word) : Interleaving.System Wire WireAction where
  initial := { cell, last, caller := .idle, window := [], pending := none, checked := [] }
  Enabled := WireEnabled
  next := wireNext

/-- Somewhere a word with bit 7 low comes before one with bit 7 high. -/
def HasEdge (words : List Word) : Prop :=
  ∃ low high, [low, high].Sublist words ∧ low.isReset = false ∧ high.isReset = true

/-- Every reset that was sent was sent as an edge. -/
def ResetsAsEdges (s : Wire) : Prop := ∀ words ∈ s.checked, HasEdge words

/-- `faultReset` is about to raise the bit without having lowered it. -/
def Caller.raisesAtOnce : Caller → Bool
  | .raising settled _ => !settled
  | .idle | .applying _ | .clearing _ | .settling _ => false

/-- A fault reset that found the bit low in the cell raises it when the last word sent has it low
too. -/
def RaisesFromLow (s : Wire) : WireAction → Prop
  | .write _ => s.caller.raisesAtOnce = true → s.last.isReset = false
  | .cycle | .applyCommand _ _ | .faultReset _ | .wake _ => True

instance (s : Wire) (a : WireAction) : Decidable (RaisesFromLow s a) := by
  cases a <;> unfold RaisesFromLow <;> infer_instance

/-! ### The invariant -/

theorem isReset_or (word : Word) : Word.isReset (word ||| kCmdFaultReset) = true := by
  simp [Word.isReset, kCmdFaultReset]

theorem isReset_and_not (word : Word) : Word.isReset (word &&& ~~~kCmdFaultReset) = false := by
  simp [Word.isReset, kCmdFaultReset]

def HasLow (words : List Word) : Prop := ∃ low ∈ words, Word.isReset low = false

theorem HasLow.append {words : List Word} (h : HasLow words) (more : List Word) :
    HasLow (words ++ more) := by
  obtain ⟨low, hmem, hlow⟩ := h
  exact ⟨low, List.mem_append_left _ hmem, hlow⟩

theorem HasLow.hasEdge {words : List Word} {high : Word} (h : HasLow words)
    (hhigh : high.isReset = true) : HasEdge (words ++ [high]) := by
  obtain ⟨low, hmem, hlow⟩ := h
  have hsub : [low].Sublist words := List.singleton_sublist.mpr hmem
  exact ⟨low, high, hsub.append (List.Sublist.refl [high]), hlow, hhigh⟩

def Caller.Known (s : Wire) : Caller → Prop
  | .settling cycled => s.cell.isReset = false ∧ (cycled = true → HasLow s.window)
  | .raising false _ => s.last ∈ s.window
  | .raising true _ => HasLow s.window
  | .idle | .applying _ | .clearing _ => True

structure Resetting (s : Wire) : Prop where
  caller : s.caller.Known s
  pending : ∀ words, s.pending = some words → s.cell.isReset = true ∧ HasLow words
  checked : ResetsAsEdges s

namespace Resetting

variable {s : Wire}

theorem cycle (h : Resetting s) : Resetting s.cycle := by
  refine ⟨?_, ?_, ?_⟩
  · have hcaller := h.caller
    unfold Wire.cycle
    cases hc : s.caller with
    | idle | applying | clearing => trivial
    | settling cycled =>
      rw [hc] at hcaller
      exact ⟨hcaller.1, fun _ => ⟨s.cell, by simp, hcaller.1⟩⟩
    | raising settled current =>
      rw [hc] at hcaller
      cases settled with
      | false => exact List.mem_append_right _ List.mem_cons_self
      | true => exact HasLow.append hcaller _
  · intro words hp
    cases hp
  · intro words hw
    rcases List.mem_append.mp hw with hw | hw
    · rw [Option.mem_toList, Option.map_eq_some_iff] at hw
      obtain ⟨before, hp, rfl⟩ := hw
      obtain ⟨hcell, hlow⟩ := h.pending before hp
      exact hlow.hasEdge hcell
    · exact h.checked words hw

theorem write (h : Resetting s) {reply : Reply} (hc : RaisesFromLow s (.write reply)) :
    Resetting (s.write reply) := by
  have hstore : ∀ word, ResetsAsEdges (s.store word reply) := by
    intro word
    unfold Wire.store
    split_ifs
    · exact h.checked
    · exact h.checked
  have hpending : ∀ word words, (s.store word reply).pending = some words →
      (s.store word reply).cell.isReset = true ∧ HasLow words := by
    intro word words
    unfold Wire.store
    split_ifs
    · rintro ⟨⟩
    · exact h.pending words
  have hcaller := h.caller
  unfold Wire.write
  cases hphase : s.caller with
  | idle | settling => exact h
  | applying next => exact ⟨trivial, hpending next, hstore next⟩
  | clearing current =>
    refine ⟨?_, hpending _, hstore _⟩
    cases reply with
    | ok => exact ⟨isReset_and_not current, fun hn => absurd hn (by decide)⟩
    | failed => trivial
  | raising settled current =>
    rw [hphase] at hcaller
    cases reply with
    | failed landed => exact ⟨trivial, hpending _, hstore _⟩
    | ok =>
      refine ⟨trivial, ?_, hstore (current ||| kCmdFaultReset)⟩
      rintro words ⟨⟩
      refine ⟨isReset_or current, ?_⟩
      cases settled with
      | true => exact hcaller
      | false => exact ⟨s.last, hcaller, hc (by rw [hphase]; rfl)⟩

end Resetting

theorem resetting_step {s : Wire} {a : WireAction} (h : Resetting s) (ha : WireEnabled s a)
    (hc : RaisesFromLow s a) : Resetting (wireNext s a) := by
  cases a with
  | cycle => exact h.cycle
  | applyCommand command read =>
    cases read with
    | false => exact h
    | true => exact ⟨trivial, h.pending, h.checked⟩
  | faultReset read =>
    refine ⟨?_, h.pending, h.checked⟩
    simp only [wireNext, Wire.faultReset]
    split_ifs
    · trivial
    · exact List.mem_cons_self
    · trivial
  | write reply => exact h.write hc
  | wake read =>
    refine ⟨?_, h.pending, h.checked⟩
    have hcaller := h.caller
    rw [ha] at hcaller
    cases read with
    | false => trivial
    | true => exact hcaller.2 rfl

/-- As long as `faultReset` finds in the cell what was sent, every reset that is sent is sent as an
edge. -/
theorem resetsAsEdges_of_raisesFromLow {s : Wire} {cell last : Word}
    (h : (wireSystem cell last).ReachableUnder RaisesFromLow s) : ResetsAsEdges s := by
  have hresetting : Resetting s := by
    refine h.invariant ⟨trivial, ?_, ?_⟩ fun _ _ hs ha hc => resetting_step hs ha hc
    · rintro words ⟨⟩
    · rintro words ⟨⟩
  exact hresetting.checked

/-- The controlword is parked with the bit high, as an abandoned reset leaves it. -/
def resetFromHigh : List WireAction :=
  [.faultReset true, .write .ok, .cycle, .wake true, .write .ok, .cycle]

theorem resetFromHigh_resetsAsEdges :
    ((wireSystem 0x0080 0x0080).run (wireSystem 0x0080 0x0080).initial resetFromHigh).checked =
        [[0x0080, 0x0000, 0x0080]] ∧
      ResetsAsEdges
        ((wireSystem 0x0080 0x0080).run (wireSystem 0x0080 0x0080).initial resetFromHigh) := by
  have hf : (wireSystem 0x0080 0x0080).Follows RaisesFromLow (wireSystem 0x0080 0x0080).initial
      resetFromHigh := by
    decide +kernel
  exact ⟨by decide +kernel, resetsAsEdges_of_raisesFromLow ⟨_, hf, rfl⟩⟩

/-- A command lowers the bit in the cell, and the reset raises it again before a cycle has run. -/
def resetBehindCommand : List WireAction :=
  [.applyCommand 0x0006 true, .write .ok, .faultReset true, .write .ok, .cycle]

theorem resetBehindCommand_not_resetsAsEdges :
    ∃ s, (wireSystem 0x0080 0x0080).Reachable s ∧ ¬ ResetsAsEdges s := by
  have hf : (wireSystem 0x0080 0x0080).Follows (fun _ _ => True)
      (wireSystem 0x0080 0x0080).initial resetBehindCommand := by
    decide +kernel
  refine ⟨_, ⟨_, hf, rfl⟩, ?_⟩
  intro h
  have hchecked : ((wireSystem 0x0080 0x0080).run (wireSystem 0x0080 0x0080).initial
      resetBehindCommand).checked = [[0x0080, 0x0086]] := by
    decide +kernel
  unfold ResetsAsEdges at h
  rw [hchecked] at h
  obtain ⟨low, high, hsub, hlow, -⟩ := h _ List.mem_cons_self
  have hmem := hsub.subset List.mem_cons_self
  simp only [List.mem_cons, List.not_mem_nil, or_false] at hmem
  rcases hmem with rfl | rfl
  · exact absurd hlow (by decide)
  · exact absurd hlow (by decide)

end MotionMaster.Cia402
