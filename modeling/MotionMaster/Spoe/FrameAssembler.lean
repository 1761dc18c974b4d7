import MotionMaster.Lib.Blocks
import MotionMaster.Lib.Interleaving

/-!
# Input frames out of replies

A drive that answers with what it has queued, and `runExchange`, which cuts the replies that reach
it into frames. A reply can be lost after the drive has given its bytes up, and the drive can empty
its queue. `SpoeFrameAssembler` infers from the length of a reply alone where a frame begins.
-/

namespace MotionMaster.SpoeInput

open Interleaving Blocks

abbrev Frame := List (BitVec 8)

def kInputPopLimit : ℕ := 500

/-- `partialBytes` begins a frame whose rest has not arrived. -/
structure SpoeFrameAssembler where
  frameBytes : ℕ
  partialBytes : List (BitVec 8)
  framingLosses : ℕ

namespace SpoeFrameAssembler

def reset (frameBytes : ℕ) : SpoeFrameAssembler := ⟨frameBytes, [], 0⟩

/-- How many bytes are stale after a reply has been joined. -/
def stale (m : SpoeFrameAssembler) (reply : List (BitVec 8)) : ℕ :=
  if reply.length < kInputPopLimit then (m.partialBytes ++ reply).length % m.frameBytes else 0

def add (m : SpoeFrameAssembler) (reply : List (BitVec 8)) :
    List (BitVec 8) × SpoeFrameAssembler :=
  if m.frameBytes = 0 then ([], m)
  else
    let joined := (m.partialBytes ++ reply).drop (m.stale reply)
    let whole := joined.length - joined.length % m.frameBytes
    (joined.take whole, { m with
      partialBytes := joined.drop whole
      framingLosses := if m.stale reply ≠ 0 then m.framingLosses + 1 else m.framingLosses })

end SpoeFrameAssembler

structure Reply where
  status : ℕ
  data : List (BitVec 8)

/-- `queue` are the bytes the drive holds and `pushed` what `runExchange` has handed on. Of what
happened, `queued` has the frames the drive queued, and `intact` tells that no byte is missing
between what the assembler keeps and what the drive holds. -/
structure State where
  queue : List (BitVec 8)
  assembler : SpoeFrameAssembler
  pushed : List Frame
  queued : List Frame
  intact : Bool

inductive Action where
  | enqueue (frame : Frame)
  | discard
  /-- The drive answers with inputs, and the reply arrives or is lost. -/
  | deliver
  | lose
  /-- The drive answers with another status. -/
  | refuse (status : ℕ)

namespace State

def initial (frameBytes : ℕ) : State := ⟨[], .reset frameBytes, [], [], true⟩

/-- One round of `runExchange`, with what its request returned. -/
def runExchange (s : State) : Option Reply → State
  | none => s
  | some reply =>
    if reply.status = 0 then
      { s with
        assembler := (s.assembler.add reply.data).2
        pushed := s.pushed ++ slices s.assembler.frameBytes (s.assembler.add reply.data).1 }
    else s

/-- The first bytes of the queue are gone for good. -/
def vanish (s : State) (n : ℕ) : State :=
  { s with
    queue := s.queue.drop n
    intact := s.intact && (s.queue.take n).isEmpty ||
      s.assembler.partialBytes.isEmpty &&
        (s.queue.drop n).length % s.assembler.frameBytes == 0 }

def reply (s : State) : List (BitVec 8) := s.queue.take kInputPopLimit

end State

def Enabled (frameBytes : ℕ) (_ : State) : Action → Prop
  | .enqueue frame => frame.length = frameBytes
  | .refuse status => status ≠ 0
  | .discard | .deliver | .lose => True

instance (frameBytes : ℕ) (s : State) (a : Action) : Decidable (Enabled frameBytes s a) := by
  cases a <;> unfold Enabled <;> infer_instance

def next (s : State) : Action → State
  | .enqueue frame => { s with queue := s.queue ++ frame, queued := s.queued ++ [frame] }
  | .discard => s.vanish s.queue.length
  | .deliver =>
    { s with
      queue := s.queue.drop kInputPopLimit
      intact := s.intact || decide (s.reply.length < kInputPopLimit) }.runExchange
        (some ⟨0, s.reply⟩)
  | .lose => (s.vanish kInputPopLimit).runExchange none
  | .refuse status => s.runExchange (some ⟨status, []⟩)

abbrev system (frameBytes : ℕ) : System State Action :=
  ⟨.initial frameBytes, Enabled frameBytes, next⟩

/-- Every frame handed on is one the drive queued. -/
def Framed (s : State) : Prop := ∀ frame ∈ s.pushed, frame ∈ s.queued
  deriving Decidable

/-- How many bytes of the next reply come before a place where the assembler can find the framing
again: a short reply ends with a frame, a full one tells nothing. -/
def State.stray (s : State) : ℕ :=
  if s.reply.length < kInputPopLimit then s.reply.length % s.assembler.frameBytes
  else s.reply.length

/-- A reply that arrives after bytes went missing does not fill a frame with what is kept and what
is astray. -/
def Resyncs (s : State) : Action → Prop
  | .deliver => s.intact = true ∨
      s.assembler.partialBytes.length + s.stray < s.assembler.frameBytes
  | _ => True

instance (s : State) (a : Action) : Decidable (Resyncs s a) := by
  cases a <;> unfold Resyncs <;> infer_instance

variable {s : State} {a : Action} {frameBytes n : ℕ}

/-! ### What the assembler does -/

namespace SpoeFrameAssembler

variable {m : SpoeFrameAssembler} {reply : List (BitVec 8)}

/-- A short reply leaves nothing kept. -/
theorem add_short (hm : 0 < m.frameBytes) (hr : reply.length < kInputPopLimit) :
    (m.add reply).1 = (m.partialBytes ++ reply).drop
        ((m.partialBytes ++ reply).length % m.frameBytes) ∧
      (m.add reply).2.partialBytes = [] := by
  have hdvd : ((m.partialBytes ++ reply).drop
      ((m.partialBytes ++ reply).length % m.frameBytes)).length % m.frameBytes = 0 := by
    rw [List.length_drop]
    exact Nat.sub_mod_eq_zero_of_mod_eq (Nat.mod_mod _ _).symm
  simp only [add, Nat.ne_of_gt hm, if_false, stale, hr, if_true, hdvd, Nat.sub_zero,
    List.take_length, List.drop_length, and_self]

/-- A full reply is joined to what is kept, and cut where a frame ends. -/
theorem add_full (hm : 0 < m.frameBytes) (hr : ¬ reply.length < kInputPopLimit) :
    (m.add reply).1 = (m.partialBytes ++ reply).take ((m.partialBytes ++ reply).length -
        (m.partialBytes ++ reply).length % m.frameBytes) ∧
      (m.add reply).2.partialBytes = (m.partialBytes ++ reply).drop
        ((m.partialBytes ++ reply).length - (m.partialBytes ++ reply).length % m.frameBytes) := by
  simp only [add, Nat.ne_of_gt hm, if_false, stale, hr, List.drop_zero, and_self]

theorem frameBytes_add : (m.add reply).2.frameBytes = m.frameBytes := by
  unfold add
  split_ifs <;> rfl

end SpoeFrameAssembler

/-! ### The framing -/

/-- Past the frame it has cut, the drive holds whole frames. While nothing is missing, they begin in
what the assembler keeps. -/
structure Framing (frameBytes : ℕ) (s : State) : Prop where
  size : s.assembler.frameBytes = frameBytes
  length : ∀ frame ∈ s.queued, frame.length = frameBytes
  behind : Tiled s.queued (s.queue.drop (s.queue.length % frameBytes))
  joined : s.intact = true → Tiled s.queued (s.assembler.partialBytes ++ s.queue)
  framed : Framed s

theorem framing_initial : Framing frameBytes (.initial frameBytes) where
  size := rfl
  length _ h := by cases h
  behind := by simpa [State.initial] using tiled_nil _
  joined _ := tiled_nil _
  framed _ h := by cases h

theorem framing_enqueue (h : Framing frameBytes s) {frame : Frame}
    (hf : frame.length = frameBytes) : Framing frameBytes (next s (.enqueue frame)) := by
  have hmono : ∀ b ∈ s.queued, b ∈ s.queued ++ [frame] := fun b hb => List.mem_append_left _ hb
  have hnew : Tiled (s.queued ++ [frame]) frame := tiled_block (by simp)
  refine ⟨h.size, fun b hb => ?_, ?_, fun hi => ?_, fun b hb => hmono b (h.framed b hb)⟩
  · rcases List.mem_append.mp hb with hb | hb
    · exact h.length b hb
    · rw [List.mem_singleton.mp hb, hf]
  · change Tiled (s.queued ++ [frame])
      ((s.queue ++ frame).drop ((s.queue ++ frame).length % frameBytes))
    rw [List.length_append, hf, Nat.add_mod_right,
      List.drop_append_of_le_length (Nat.mod_le _ _)]
    exact (h.behind.mono hmono).append hnew
  · change Tiled (s.queued ++ [frame]) (s.assembler.partialBytes ++ (s.queue ++ frame))
    rw [← List.append_assoc]
    exact ((h.joined hi).mono hmono).append hnew

/-- What is left of the queue has whole frames behind the one cut. -/
theorem behind_drop (h : Framing frameBytes s) (n : ℕ) :
    Tiled s.queued ((s.queue.drop n).drop ((s.queue.drop n).length % frameBytes)) := by
  rcases Nat.lt_or_ge s.queue.length n with hn | hn
  · rw [List.drop_of_length_le (by omega : s.queue.length ≤ n)]
    simpa using tiled_nil _
  · -- the cut before and the cut now differ by whole frames
    have hmod : (n + (s.queue.length - n) % frameBytes) % frameBytes
        = s.queue.length % frameBytes := by
      rw [Nat.add_mod_mod, Nat.add_sub_cancel' hn]
    have hle : s.queue.length % frameBytes ≤ n + (s.queue.length - n) % frameBytes := by
      rw [← hmod]
      exact Nat.mod_le _ _
    have hdvd : frameBytes ∣
        n + (s.queue.length - n) % frameBytes - s.queue.length % frameBytes :=
      Nat.dvd_of_mod_eq_zero (Nat.sub_mod_eq_zero_of_mod_eq (by rw [hmod, Nat.mod_mod]))
    have hd := h.behind.drop h.length hdvd
    rwa [List.drop_drop, Nat.add_sub_cancel' hle, ← List.drop_drop, ← List.length_drop] at hd

theorem framing_vanish (h : Framing frameBytes s) (n : ℕ) : Framing frameBytes (s.vanish n) := by
  refine ⟨h.size, h.length, behind_drop h n, fun hi => ?_, h.framed⟩
  change Tiled s.queued (s.assembler.partialBytes ++ s.queue.drop n)
  rcases Bool.or_eq_true_iff.mp hi with hi | hi
  · obtain ⟨hintact, hnone⟩ := Bool.and_eq_true_iff.mp hi
    have htake : s.queue.take n = [] := List.isEmpty_iff.mp hnone
    have hsame : s.queue.drop n = s.queue := by
      have hsplit := List.take_append_drop n s.queue
      rwa [htake, List.nil_append] at hsplit
    rw [hsame]
    exact h.joined hintact
  · obtain ⟨hkept, halign⟩ := Bool.and_eq_true_iff.mp hi
    have hmod : (s.queue.drop n).length % frameBytes = 0 := by
      rw [← h.size]
      exact eq_of_beq halign
    have hb := behind_drop h n
    rw [hmod, List.drop_zero] at hb
    rwa [List.isEmpty_iff.mp hkept, List.nil_append]

/-- A reply below the limit is all the drive holds. -/
theorem reply_short (h : s.reply.length < kInputPopLimit) :
    s.reply = s.queue ∧ s.queue.drop kInputPopLimit = [] := by
  have hle : s.queue.length ≤ kInputPopLimit := by
    rw [State.reply, List.length_take] at h
    omega
  exact ⟨List.take_of_length_le hle, List.drop_of_length_le hle⟩

/-- The frames a reply completes are queued ones, and nothing is missing afterwards if nothing was
or the reply was short. -/
structure Joins (s : State) : Prop where
  emitted : Tiled s.queued (s.assembler.add s.reply).1
  joined : s.intact = true ∨ s.reply.length < kInputPopLimit →
    Tiled s.queued ((s.assembler.add s.reply).2.partialBytes ++ s.queue.drop kInputPopLimit)

theorem joins_short (h : Framing frameBytes s) (hpos : 0 < frameBytes)
    (hr : s.reply.length < kInputPopLimit) (hc : Resyncs s .deliver) : Joins s := by
  obtain ⟨hreply, hrest⟩ := reply_short hr
  obtain ⟨hfst, hkept⟩ := s.assembler.add_short (by rw [h.size]; exact hpos) hr
  refine ⟨?_, fun _ => ?_⟩
  · rw [hfst, h.size, hreply]
    rcases hc with hi | hlt
    · -- nothing is missing: the joined bytes are whole frames already
      have hj := h.joined hi
      rw [Nat.mod_eq_zero_of_dvd (hj.dvd_length h.length), List.drop_zero]
      exact hj
    · -- what is dropped is the kept part and the rest of a cut frame
      rw [State.stray, if_pos hr, h.size, hreply] at hlt
      have hmod : (s.assembler.partialBytes ++ s.queue).length % frameBytes
          = s.assembler.partialBytes.length + s.queue.length % frameBytes := by
        rw [List.length_append, ← Nat.add_mod_mod, Nat.mod_eq_of_lt hlt]
      rw [hmod, List.drop_append, Nat.add_sub_cancel_left,
        List.drop_of_length_le (Nat.le_add_right _ _), List.nil_append]
      exact h.behind
  · rw [hkept, hrest]
    exact tiled_nil _

theorem joins_full (h : Framing frameBytes s) (hpos : 0 < frameBytes)
    (hr : ¬ s.reply.length < kInputPopLimit) (hc : Resyncs s .deliver) : Joins s := by
  obtain ⟨hfst, hkept⟩ := s.assembler.add_full (by rw [h.size]; exact hpos) hr
  rw [h.size] at hfst hkept
  have hdvd (x : ℕ) : frameBytes ∣ x - x % frameBytes := Nat.dvd_sub_mod x
  have hsplit : s.assembler.partialBytes ++ s.queue =
      (s.assembler.partialBytes ++ s.reply) ++ s.queue.drop kInputPopLimit := by
    rw [List.append_assoc, State.reply, List.take_append_drop]
  by_cases hi : s.intact = true
  · have hj := h.joined hi
    rw [hsplit] at hj
    refine ⟨?_, fun _ => ?_⟩
    · rw [hfst]
      have ht := hj.take h.length (hdvd (s.assembler.partialBytes ++ s.reply).length)
      rwa [List.take_append_of_le_length (Nat.sub_le _ _)] at ht
    · rw [hkept]
      have hd := hj.drop h.length (hdvd (s.assembler.partialBytes ++ s.reply).length)
      rwa [List.drop_append_of_le_length (Nat.sub_le _ _)] at hd
  · -- too few bytes for a frame, whatever they are
    have hlt := hc.resolve_left hi
    rw [State.stray, if_neg hr, h.size, ← List.length_append] at hlt
    refine ⟨?_, fun hor => ?_⟩
    · rw [hfst, Nat.mod_eq_of_lt hlt, Nat.sub_self, List.take_zero]
      exact tiled_nil _
    · rcases hor with hi' | hr'
      · exact absurd hi' hi
      · exact absurd hr' hr

theorem framing_deliver (h : Framing frameBytes s) (hpos : 0 < frameBytes)
    (hc : Resyncs s .deliver) : Framing frameBytes (next s .deliver) := by
  have hj : Joins s := by
    by_cases hr : s.reply.length < kInputPopLimit
    · exact joins_short h hpos hr hc
    · exact joins_full h hpos hr hc
  refine ⟨SpoeFrameAssembler.frameBytes_add.trans h.size, h.length,
    behind_drop h kInputPopLimit, fun hi => hj.joined ?_, fun frame hf => ?_⟩
  · rcases Bool.or_eq_true_iff.mp hi with hi | hr
    · exact .inl hi
    · exact .inr (of_decide_eq_true hr)
  · rcases List.mem_append.mp hf with hf | hf
    · exact h.framed frame hf
    · have hsize : s.assembler.frameBytes = frameBytes := h.size
      rw [hsize] at hf
      exact hj.emitted.slices_mem h.length hpos hf

theorem framing_step (h : Framing frameBytes s) (hpos : 0 < frameBytes)
    (he : Enabled frameBytes s a) (hc : Resyncs s a) : Framing frameBytes (next s a) := by
  cases a with
  | enqueue frame => exact framing_enqueue h he
  | discard => exact framing_vanish h s.queue.length
  | deliver => exact framing_deliver h hpos hc
  | lose => exact framing_vanish h kInputPopLimit
  | refuse status =>
    have hsame : next s (.refuse status) = s := if_neg he
    rwa [hsame]

/-- Without inputs there are no frames. -/
theorem unframed_step (h : s.assembler.frameBytes = 0 ∧ s.pushed = []) :
    (next s a).assembler.frameBytes = 0 ∧ (next s a).pushed = [] := by
  obtain ⟨hsize, hpushed⟩ := h
  cases a with
  | enqueue frame | discard | lose => exact ⟨hsize, hpushed⟩
  | deliver =>
    have hadd : s.assembler.add s.reply = ([], s.assembler) := if_pos hsize
    simp [next, State.runExchange, hadd, hsize, hpushed, slices]
  | refuse status =>
    simp only [next, State.runExchange]
    split
    · have hadd : s.assembler.add [] = ([], s.assembler) := if_pos hsize
      simp [hadd, hsize, hpushed, slices]
    · exact ⟨hsize, hpushed⟩

/-- If every reply that arrives after bytes went missing lets the assembler find the framing again,
every frame handed on is one the drive queued. -/
theorem framed_of_resyncs (frameBytes : ℕ) (s : State)
    (h : (system frameBytes).ReachableUnder Resyncs s) : Framed s := by
  rcases Nat.eq_zero_or_pos frameBytes with rfl | hpos
  · have hnone : s.assembler.frameBytes = 0 ∧ s.pushed = [] :=
      h.invariant (I := fun s => s.assembler.frameBytes = 0 ∧ s.pushed = []) ⟨rfl, rfl⟩
        fun _ _ hs _ _ => unframed_step hs
    rw [Framed, hnone.2]
    exact fun _ hf => by cases hf
  · have hframing : Framing frameBytes s :=
      h.invariant framing_initial fun _ _ hs he hc => framing_step hs hpos he hc
    exact hframing.framed

/-! ### A frame cut at the limit -/

def frameOf (i : ℕ) : Frame := List.replicate 24 (BitVec.ofNat 8 i)

/-- 21 frames are 504 bytes. The reply ends four bytes before the last of them does. -/
def cutLast : List Action := (List.range 21).map (fun i => .enqueue (frameOf i)) ++ [.deliver]

/-- The drive empties its queue, and the next reply is one frame. -/
def discardThenShort : List Action := cutLast ++ [.discard, .enqueue (frameOf 99), .deliver]

theorem discardThenShort_framed :
    Framed ((system 24).run (.initial 24) discardThenShort) ∧
      ((system 24).run (.initial 24) discardThenShort).pushed =
        (List.range 20).map frameOf ++ [frameOf 99] :=
  ⟨framed_of_resyncs 24 _ ⟨discardThenShort, by decide +kernel, rfl⟩, by decide +kernel⟩

/-- The next reply is full and gets lost, the one after it is the rest of a frame. -/
def loseInsideFrame : List Action :=
  cutLast ++ (List.range 21).map (fun i => .enqueue (frameOf (21 + i))) ++ [.lose, .deliver]

/-- The short reply makes up a frame of two halves. -/
theorem loseInsideFrame_not_framed : ∃ s, (system 24).Reachable s ∧ ¬ Framed s :=
  ⟨(system 24).run (.initial 24) loseInsideFrame, ⟨loseInsideFrame, by decide +kernel, rfl⟩,
    by decide +kernel⟩

end MotionMaster.SpoeInput
