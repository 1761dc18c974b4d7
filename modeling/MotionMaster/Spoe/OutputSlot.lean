import MotionMaster.Lib.Bytes
import MotionMaster.Lib.Interleaving
import MotionMaster.Lib.TripleBuffer

/-!
# The output slot

`SpoeOutputSlot` with its writer, which copies byte by byte, and its reader, which tests `middle_`
in one access and exchanges it in another.
-/

namespace MotionMaster.SpoeOutputSlot

open Interleaving

abbrev Frame := List (BitVec 8)

def kFresh : ℕ := 0x04
def kIndexMask : ℕ := 0x03

/-- What a `read` returned, and whether it exchanged. -/
structure Read where
  exchanged : Bool
  frame : Frame
  deriving DecidableEq

/-- `writer` is the frame being written and how much of it is copied, `loaded` is set while the
reader is between its test and its exchange. -/
structure State where
  buffers : ℕ → Frame
  writeIndex : ℕ
  readIndex : ℕ
  middle : ℕ
  writer : Option (Frame × ℕ)
  loaded : Bool
  published : List Frame
  reads : List Read

inductive Action where
  | write (frame : Frame)
  | copy
  | publish
  | load
  | exchange
  deriving DecidableEq

def reset (frameBytes : ℕ) : State :=
  ⟨fun _ => List.replicate frameBytes 0, 0, 1, 2, none, false, [], []⟩

def State.middleIndex (s : State) : ℕ := s.middle &&& kIndexMask

def State.fresh (s : State) : Bool := s.middle &&& kFresh != 0

def State.extent (s : State) (frame : Frame) : ℕ :=
  min frame.length (s.buffers s.writeIndex).length

def Enabled (s : State) : Action → Prop
  | .write _ => s.writer = none
  | .copy => ∃ w ∈ s.writer, w.2 < s.extent w.1
  | .publish => ∃ w ∈ s.writer, s.extent w.1 ≤ w.2
  | .load => s.loaded = false
  | .exchange => s.loaded = true

instance (s : State) (a : Action) : Decidable (Enabled s a) := by
  cases a <;> unfold Enabled <;> infer_instance

def next (s : State) : Action → State
  | .write frame => { s with writer := some (frame, 0) }
  | .copy =>
    match s.writer with
    | none => s
    | some (frame, n) => { s with
        buffers := Function.update s.buffers s.writeIndex
          ((s.buffers s.writeIndex).set n (frame.getD n 0))
        writer := some (frame, n + 1) }
  | .publish =>
    match s.writer with
    | none => s
    | some (frame, _) => { s with
        middle := s.writeIndex ||| kFresh
        writeIndex := s.middle &&& kIndexMask
        writer := none
        published := s.published ++ [frame] }
  | .load =>
    if s.fresh then { s with loaded := true }
    else { s with reads := s.reads ++ [⟨false, s.buffers s.readIndex⟩] }
  | .exchange => { s with
      middle := s.readIndex
      readIndex := s.middle &&& kIndexMask
      loaded := false
      reads := s.reads ++ [⟨true, s.buffers (s.middle &&& kIndexMask)⟩] }

abbrev system (frameBytes : ℕ) : System State Action := ⟨reset frameBytes, Enabled, next⟩

/-- Every frame written has the size of the slot. -/
def FullSize (frameBytes : ℕ) (_ : State) : Action → Prop
  | .write frame => frame.length = frameBytes
  | _ => True

instance (frameBytes : ℕ) (s : State) (a : Action) : Decidable (FullSize frameBytes s a) := by
  cases a <;> unfold FullSize <;> infer_instance

variable {s : State} {a : Action} {frameBytes i j k : ℕ}

/-! ### The indexes -/

/-- The indexes are 0, 1 and 2 in some order. -/
def Permuted (s : State) : Prop := [s.writeIndex, s.readIndex, s.middleIndex].Perm [0, 1, 2]

theorem and_kIndexMask (h : i < 3) : i &&& kIndexMask = i := by
  revert i
  decide

theorem and_kFresh (h : i < 3) : (i &&& kFresh != 0) = false := by
  revert i
  decide

theorem or_kFresh_and_kIndexMask (h : i < 3) : (i ||| kFresh) &&& kIndexMask = i := by
  revert i
  decide

theorem or_kFresh_and_kFresh (h : i < 3) : ((i ||| kFresh) &&& kFresh != 0) = true := by
  revert i
  decide

theorem lt_of_perm (h : [i, j, k].Perm [0, 1, 2]) {x : ℕ} (hx : x ∈ [i, j, k]) : x < 3 := by
  have hmem := h.subset hx
  simp at hmem
  omega

theorem ne_of_perm (h : [i, j, k].Perm [0, 1, 2]) : i ≠ j ∧ i ≠ k ∧ j ≠ k := by
  have hn : [i, j, k].Nodup := h.nodup_iff.mpr (by decide)
  simp at hn
  tauto

theorem permuted_reset : Permuted (reset frameBytes) := by
  simp [Permuted, State.middleIndex, reset, kIndexMask]

theorem permuted_step (h : Permuted s) : Permuted (next s a) := by
  have hw : s.writeIndex < 3 := lt_of_perm h (by simp)
  have hr : s.readIndex < 3 := lt_of_perm h (by simp)
  cases a with
  | write frame => exact h
  | copy =>
    simp only [next]
    split <;> exact h
  | publish =>
    simp only [next]
    split
    · exact h
    · unfold Permuted State.middleIndex
      rw [or_kFresh_and_kIndexMask hw]
      exact (List.reverse_perm [s.writeIndex, s.readIndex, s.middleIndex]).trans h
  | load =>
    simp only [next]
    split <;> exact h
  | exchange =>
    unfold Permuted State.middleIndex next
    rw [and_kIndexMask hr]
    exact ((List.Perm.swap _ _ _).cons _).trans h

/-! ### The buffers -/

/-- The buffers have the size of a frame, and the writer's begins with what it has copied. -/
structure Laid (frameBytes : ℕ) (s : State) : Prop where
  permuted : Permuted s
  sized : ∀ i, (s.buffers i).length = frameBytes
  copied : ∀ frame n, s.writer = some (frame, n) → frame.length = frameBytes ∧
    (s.buffers s.writeIndex).take n = frame.take n
  loaded : s.loaded = true → s.fresh = true

theorem laid_reset : Laid frameBytes (reset frameBytes) where
  permuted := permuted_reset
  sized _ := List.length_replicate
  copied _ _ h := by cases h
  loaded h := by cases h

variable {n : ℕ}

theorem take_set_succ {α : Type} {xs ys : List α} {d : α} (h : xs.take n = ys.take n)
    (hx : n < xs.length) (hy : n < ys.length) :
    (xs.set n (ys.getD n d)).take (n + 1) = ys.take (n + 1) := by
  rw [List.take_add_one, List.take_add_one, List.take_set_of_le le_rfl, h,
    List.getElem?_set_self hx, List.getD_eq_getElem?_getD, List.getElem?_eq_getElem hy]
  rfl

variable {frame : Frame}

theorem laid_write (h : Laid frameBytes s) (hf : frame.length = frameBytes) :
    Laid frameBytes (next s (.write frame)) where
  permuted := h.permuted
  sized := h.sized
  copied frame' n hw := by
    cases hw
    exact ⟨hf, by simp⟩
  loaded := h.loaded

theorem laid_copy (h : Laid frameBytes s) (he : Enabled s .copy) :
    Laid frameBytes (next s .copy) := by
  obtain ⟨⟨frame, n⟩, hw, hn⟩ := he
  have hw : s.writer = some (frame, n) := hw
  obtain ⟨hframe, htake⟩ := h.copied frame n hw
  have hlt : n < frameBytes := by
    simpa only [State.extent, hframe, h.sized, min_self] using hn
  have hp : Permuted (next s .copy) := permuted_step h.permuted
  simp only [next, hw] at hp ⊢
  refine ⟨hp, fun i => ?_, fun frame' m hw' => ?_, h.loaded⟩
  · by_cases hi : i = s.writeIndex
    · subst hi
      simp [h.sized]
    · simp [hi, h.sized]
  · cases hw'
    refine ⟨hframe, ?_⟩
    dsimp only
    rw [Function.update_self]
    exact take_set_succ htake (by rw [h.sized]; exact hlt) (by rw [hframe]; exact hlt)

/-- A frame published has been copied whole. -/
theorem frame_of_publish (h : Laid frameBytes s) (he : Enabled s .publish)
    (hw : s.writer = some (frame, n)) : s.buffers s.writeIndex = frame := by
  obtain ⟨hframe, htake⟩ := h.copied frame n hw
  obtain ⟨w, hw', hn⟩ := he
  obtain rfl := Option.some.inj (hw.symm.trans hw')
  have hle : frameBytes ≤ n := by
    simpa only [State.extent, hframe, h.sized, min_self] using hn
  rwa [List.take_of_length_le (by rw [h.sized]; exact hle),
    List.take_of_length_le (by rw [hframe]; exact hle)] at htake

theorem laid_publish (h : Laid frameBytes s) : Laid frameBytes (next s .publish) := by
  have hp : Permuted (next s .publish) := permuted_step h.permuted
  cases hw : s.writer with
  | none =>
    simp only [next, hw]
    exact h
  | some w =>
    simp only [next, hw] at hp ⊢
    refine ⟨hp, h.sized, fun _ _ hw' => (by cases hw'), fun _ => ?_⟩
    exact or_kFresh_and_kFresh (lt_of_perm h.permuted (by simp))

theorem laid_step (h : Laid frameBytes s) (he : Enabled s a) (hc : FullSize frameBytes s a) :
    Laid frameBytes (next s a) := by
  cases a with
  | write frame => exact laid_write h hc
  | copy => exact laid_copy h he
  | publish => exact laid_publish h
  | load =>
    simp only [next]
    split
    · rename_i hf
      exact ⟨h.permuted, h.sized, h.copied, fun _ => hf⟩
    · exact ⟨h.permuted, h.sized, h.copied, h.loaded⟩
  | exchange =>
    exact ⟨permuted_step h.permuted, h.sized, h.copied, fun hl => by cases hl⟩

/-! ### The slots by their role -/

def State.taken (s : State) : List Frame := (s.reads.filter (·.exchanged)).map (·.frame)

def State.view (s : State) : TripleBuffer.Slots Frame where
  back := s.buffers s.writeIndex
  middle := s.buffers s.middleIndex
  front := s.buffers s.readIndex
  fresh := s.fresh
  published := s.published
  taken := s.taken

theorem view_copy (h : Laid frameBytes s)
    (hw : s.writer = some (frame, n)) : (next s .copy).view =
      { s.view with back := (s.buffers s.writeIndex).set n (frame.getD n 0) } := by
  obtain ⟨hwr, hwm, -⟩ := ne_of_perm h.permuted
  have hmiddle : s.middle &&& kIndexMask ≠ s.writeIndex := hwm.symm
  simp [next, hw, State.view, State.middleIndex, State.fresh, State.taken, hwr.symm, hmiddle]

theorem view_publish (h : Laid frameBytes s) (he : Enabled s .publish)
    (hw : s.writer = some (frame, n)) : (next s .publish).view =
      { s.view with
        back := s.view.middle, middle := s.view.back, fresh := true
        published := s.view.published ++ [s.view.back] } := by
  have hlt : s.writeIndex < 3 := lt_of_perm h.permuted (by simp)
  simp [next, hw, State.view, State.middleIndex, State.fresh, State.taken,
    or_kFresh_and_kIndexMask hlt, or_kFresh_and_kFresh hlt, frame_of_publish h he hw]

theorem view_exchange (h : Laid frameBytes s) : (next s .exchange).view =
    { s.view with
      middle := s.view.front, front := s.view.middle, fresh := false
      taken := s.view.taken ++ [s.view.middle] } := by
  have hlt : s.readIndex < 3 := lt_of_perm h.permuted (by simp)
  simp [next, State.view, State.middleIndex, State.fresh, State.taken, and_kIndexMask hlt,
    and_kFresh hlt]

theorem view_step (h : Laid frameBytes s) (he : Enabled s a) :
    TripleBuffer.Step s.view (next s a).view := by
  cases a with
  | write frame => exact .same _
  | copy =>
    obtain ⟨w, hw, -⟩ := he
    rw [view_copy h hw]
    exact .fill _ _
  | publish =>
    obtain ⟨w, hw, -⟩ := id he
    rw [view_publish h he hw]
    exact .publish _
  | load =>
    have hview : (next s .load).view = s.view := by
      simp only [next]
      split <;> simp [State.view, State.middleIndex, State.fresh, State.taken]
    rw [hview]
    exact .same _
  | exchange =>
    rw [view_exchange h]
    exact .take _ (h.loaded he)

/-! ### What is read -/

/-- The frame last read, or the one the slot was cleared to. -/
def State.lastRead (s : State) (frameBytes : ℕ) : Frame :=
  (s.reads.map (·.frame)).getLastD (List.replicate frameBytes 0)

/-- The frame last published, or the one the slot was cleared to. -/
def State.newest (s : State) (frameBytes : ℕ) : Frame :=
  s.published.getLastD (List.replicate frameBytes 0)

/-- The buffers are laid out, play their roles, and the reader holds what it last read. -/
structure Kept (frameBytes : ℕ) (s : State) : Prop where
  laid : Laid frameBytes s
  latest : TripleBuffer.Latest (List.replicate frameBytes 0) s.view
  held : s.buffers s.readIndex = s.lastRead frameBytes

theorem kept_reset : Kept frameBytes (reset frameBytes) where
  laid := laid_reset
  latest := by
    have hf : (reset frameBytes).view.fresh = false := by
      simp [State.view, State.fresh, reset, kFresh]
    exact ⟨rfl, fun h => absurd (hf.symm.trans h) (by decide), fun _ => ⟨List.Sublist.refl _, rfl⟩⟩
  held := rfl

/-- No step writes the buffer the reader holds. -/
theorem buffers_readIndex (h : Permuted s) :
    (next s a).buffers s.readIndex = s.buffers s.readIndex := by
  have hwr := (ne_of_perm h).1
  cases a with
  | write frame | exchange => rfl
  | copy =>
    simp only [next]
    split
    · rfl
    · exact Function.update_of_ne hwr.symm _ _
  | publish | load =>
    simp only [next]
    split <;> rfl

/-- A step that reads nothing leaves the reader's index, one that reads shows what is there now. -/
theorem reads_next (s : State) (a : Action) :
    ((next s a).reads = s.reads ∧ (next s a).readIndex = s.readIndex) ∨
      (next s a).buffers = s.buffers ∧
        ∃ b, (next s a).reads = s.reads ++ [⟨b, s.buffers (next s a).readIndex⟩] := by
  cases a with
  | write frame => exact .inl ⟨rfl, rfl⟩
  | copy | publish =>
    simp only [next]
    split <;> exact .inl ⟨rfl, rfl⟩
  | load =>
    simp only [next]
    split
    · exact .inl ⟨rfl, rfl⟩
    · exact .inr ⟨rfl, false, rfl⟩
  | exchange => exact .inr ⟨rfl, true, rfl⟩

theorem held_step (h : Kept frameBytes s) :
    (next s a).buffers (next s a).readIndex = (next s a).lastRead frameBytes := by
  rcases reads_next s a with ⟨hreads, hindex⟩ | ⟨hbuffers, b, hreads⟩
  · rw [hindex, buffers_readIndex h.laid.permuted, State.lastRead, hreads]
    exact h.held
  · rw [hbuffers, State.lastRead, hreads, List.map_append, List.map_singleton,
      List.getLastD_concat]

theorem kept_step (h : Kept frameBytes s) (he : Enabled s a) (hc : FullSize frameBytes s a) :
    Kept frameBytes (next s a) where
  laid := laid_step h.laid he hc
  latest := h.latest.step (view_step h.laid he)
  held := held_step h

theorem kept_reachable (h : (system frameBytes).ReachableUnder (FullSize frameBytes) s) :
    Kept frameBytes s :=
  h.invariant kept_reset fun _ _ hk he hc => kept_step hk he hc

/-- What a `read` that ends with the step returns: the newest frame published, and when it did not
exchange also the one returned before. -/
theorem newest_of_read (h : Kept frameBytes s) (he : Enabled s a) {x : Read}
    (hx : (next s a).reads = s.reads ++ [x]) : x.frame = s.newest frameBytes ∧
      (x.exchanged = false → x.frame = s.lastRead frameBytes) := by
  have hnone (hr : (next s a).reads = s.reads) : False := by
    rw [hr] at hx
    simpa using congrArg List.length hx
  cases a with
  | write frame => exact (hnone rfl).elim
  | copy | publish =>
    exfalso
    apply hnone
    simp only [next]
    split <;> rfl
  | load =>
    cases hf : s.fresh with
    | true =>
      exfalso
      apply hnone
      simp [next, hf]
    | false =>
      obtain rfl : x = ⟨false, s.buffers s.readIndex⟩ := by
        simpa [next, hf, eq_comm] using hx
      exact ⟨h.latest.front_newest hf, fun _ => h.held⟩
  | exchange =>
    obtain rfl : x = ⟨true, s.buffers s.middleIndex⟩ := by
      simpa [next, State.middleIndex, eq_comm] using hx
    exact ⟨h.latest.middle_newest (h.laid.loaded he), fun hb => by cases hb⟩

/-- What the slot is for. -/
structure Delivers (frameBytes : ℕ) (s : State) : Prop where
  permuted : Permuted s
  untouched : ∀ a, Enabled s a → (next s a).buffers s.readIndex = s.buffers s.readIndex
  newest : ∀ a x, Enabled s a → (next s a).reads = s.reads ++ [x] →
    x.frame = s.newest frameBytes ∧ (x.exchanged = false → x.frame = s.lastRead frameBytes)
  subsequence : s.taken.Sublist s.published

/-- With frames of full size, every `read` returns the newest frame whole, in the order of the
writes. -/
theorem delivers_of_fullSize (frameBytes : ℕ) (s : State)
    (h : (system frameBytes).ReachableUnder (FullSize frameBytes) s) : Delivers frameBytes s where
  permuted := (kept_reachable h).laid.permuted
  untouched _ _ := buffers_readIndex (kept_reachable h).laid.permuted
  newest _ _ he hx := newest_of_read (kept_reachable h) he hx
  subsequence := (kept_reachable h).latest.sublist

/-- Two frames are written around the reader's test, before it exchanges. -/
def writesInsideRead : List Action :=
  [.write [1, 1], .copy, .copy, .publish, .load, .write [2, 2], .copy, .copy, .publish, .exchange,
    .load]

theorem writesInsideRead_delivers :
    Delivers 2 ((system 2).run (reset 2) writesInsideRead) ∧
      ((system 2).run (reset 2) writesInsideRead).reads = [⟨true, [2, 2]⟩, ⟨false, [2, 2]⟩] :=
  ⟨delivers_of_fullSize 2 _ ⟨writesInsideRead, by decide +kernel, rfl⟩, by decide +kernel⟩

end MotionMaster.SpoeOutputSlot
