import MotionMaster.DeviceManager.State
import MotionMaster.Recorder.Protocol

/-! The recorder the device manager sees, slot by slot, is what the shared bytes show. -/
namespace MotionMaster.DeviceManager

open ProcessDataRing

variable {c : Config} {b : ProcessDataRing.State} {r : Ring} {q : ℕ}

/-- A slot is empty while its word is invalid, and else holds the record its word names. -/
structure Represents (c : Config) (b : ProcessDataRing.State) (r : Ring) : Prop where
  capacity : r.capacity = c.capacity
  inputCap : r.inputCap = c.inputCap
  outputCap : r.outputCap = c.outputCap
  head : r.head = b.head
  empty : ∀ slot, b.words slot = kInvalidSeq → r.slots slot = none
  full : ∀ slot, b.words slot ≠ kInvalidSeq → ∃ rec g, r.slots slot = some rec ∧
    rec.seq = b.words slot ∧ (rec.seq, g) ∈ b.history ∧ rec.frame = g.clamp c.inputCap c.outputCap

theorem represents_allocate (hc : c.capacity ≠ 0) (storage base : ℕ) :
    Represents c ProcessDataRing.State.initial
      (Ring.allocate storage base c.inputCap c.outputCap c.capacity) := by
  rw [Ring.allocate, if_neg hc]
  exact ⟨rfl, rfl, rfl, rfl, fun _ _ => rfl, fun _ h => absurd rfl h⟩

/-- The first store of `write`. -/
theorem represents_write {f : Frame} (hr : Represents c b r) (hc : c.capacity ≠ 0) :
    Represents c (ProcessDataRing.next c b (.write f)) (r.invalidate (r.head % r.capacity)) := by
  rw [ProcessDataRing.next, if_neg hc, hr.head, hr.capacity]
  refine ⟨hr.capacity, hr.inputCap, hr.outputCap, hr.head, ?_, ?_⟩
  · intro slot h
    by_cases hs : slot = b.head % c.capacity
    · simp [Ring.invalidate, hs]
    · simp only [Ring.invalidate, Function.update_of_ne hs] at h ⊢
      exact hr.empty slot h
  · intro slot h
    by_cases hs : slot = b.head % c.capacity
    · simp [hs] at h
    · simp only [Ring.invalidate, Function.update_of_ne hs] at h ⊢
      obtain ⟨rec, g, h1, h2, h3, h4⟩ := hr.full slot h
      exact ⟨rec, g, h1, h2, List.mem_append_left _ h3, h4⟩

/-- The copies in between change nothing a reader can tell. -/
theorem represents_store {p : ℕ × BitVec 8} {todo : List (ℕ × BitVec 8)} (hr : Represents c b r)
    (hw : b.writer = .copying q (p :: todo)) :
    Represents c (ProcessDataRing.next c b .writer) r := by
  have hn : ProcessDataRing.next c b .writer = { b with
      buffer := Function.update b.buffer (c.address q p.1) p.2
      writer := .copying q todo } := by simp [ProcessDataRing.next, hw]
  rw [hn]
  exact ⟨hr.capacity, hr.inputCap, hr.outputCap, hr.head, hr.empty, hr.full⟩

/-- The store of the word publishes the record. -/
theorem represents_publish {f : Frame} (hr : Represents c b r) (hw : b.writer = .copying q [])
    (hf : (q, f) ∈ b.history) (hq : q ≠ kInvalidSeq) (image : Image) (cycle : ℕ) :
    Represents c (ProcessDataRing.next c b .writer)
      (r.publish (q % r.capacity) q f image cycle) := by
  have hn : ProcessDataRing.next c b .writer = { b with
      words := Function.update b.words (q % c.capacity) q
      writer := .published q } := by simp [ProcessDataRing.next, hw]
  rw [hn, hr.capacity]
  refine ⟨hr.capacity, hr.inputCap, hr.outputCap, hr.head, ?_, ?_⟩
  · intro slot h
    by_cases hs : slot = q % c.capacity
    · simp [hs, hq] at h
    · simp only [Ring.publish, Function.update_of_ne hs] at h ⊢
      exact hr.empty slot h
  · intro slot h
    by_cases hs : slot = q % c.capacity
    · refine ⟨⟨q, f.clamp r.inputCap r.outputCap, image, cycle⟩, f, ?_, ?_, hf, ?_⟩
      · simp [Ring.publish, hs]
      · simp [hs]
      · rw [hr.inputCap, hr.outputCap]
    · simp only [Ring.publish, Function.update_of_ne hs] at h ⊢
      exact hr.full slot h

theorem represents_advance (hr : Represents c b r) (hw : b.writer = .published q) :
    Represents c (ProcessDataRing.next c b .writer) (r.advance q) := by
  have hn : ProcessDataRing.next c b .writer = { b with head := q + 1, writer := .idle } := by
    simp [ProcessDataRing.next, hw]
  rw [hn]
  exact ⟨hr.capacity, hr.inputCap, hr.outputCap, rfl, hr.empty, hr.full⟩

/-- A slot whose word does not name the record has nothing for its reader. -/
theorem readRecord_eq_none (hr : Represents c b r) (hq : b.words (q % c.capacity) ≠ q) :
    r.readRecord q = none := by
  rw [Ring.readRecord, hr.capacity]
  split_ifs
  · rfl
  · by_cases hw : b.words (q % c.capacity) = kInvalidSeq
    · rw [hr.empty _ hw]
      rfl
    · obtain ⟨rec, g, h1, h2, -, -⟩ := hr.full _ hw
      rw [h1, Option.filter_some, if_neg]
      simpa [h2] using hq

theorem readRecord_eq_some (hr : Represents c b r) (hc : c.capacity ≠ 0) (hq : q ≠ kInvalidSeq)
    (hw : b.words (q % c.capacity) = q) : ∃ rec g, r.readRecord q = some rec ∧
      (q, g) ∈ b.history ∧ rec.frame = g.clamp c.inputCap c.outputCap := by
  obtain ⟨rec, g, h1, h2, h3, h4⟩ := hr.full (q % c.capacity) (by rwa [hw])
  rw [hw] at h2
  refine ⟨rec, g, ?_, h2 ▸ h3, h4⟩
  rw [Ring.readRecord, hr.capacity, if_neg hc, h1, Option.filter_some, if_pos]
  simpa using h2

/-- A read of the bytes returns what the slots hold at the moment of its last check. -/
theorem reader_eq_readRecord {i : ℕ} {copied : List (BitVec 8)} (hs : Stored c b)
    (hrd : Reading c b) (hr : Represents c b r) (h : b.readers i = .copying q copied)
    (hl : c.loadAt copied = none) :
    (ProcessDataRing.next c b (.reader i)).readers i =
      .done q ((r.readRecord q).map Recorded.frame) := by
  simp only [ProcessDataRing.next, Function.update_self, h, Reader.step, hl, Reader.done.injEq,
    true_and]
  split_ifs with hw
  · obtain ⟨hq, -⟩ := hrd.copying i q copied h
    have hn := (hs.named (q % c.capacity) (by rwa [hw])).1
    have hc : c.capacity ≠ 0 := by
      have h1 := hn.begun
      have h2 := hn.kept
      omega
    obtain ⟨g, hg, he⟩ := record_of_word hs hrd h hl hw
    obtain ⟨rec, g', hrec, hg', hf⟩ := readRecord_eq_some hr hc hq hw
    rw [hrec, he, hs.single q g g' hg hg', Option.map_some, hf]
  · rw [readRecord_eq_none hr hw]
    rfl

/-- What a cycle does to the ring, slot by slot. -/
inductive Records : Ring → Ring → Prop
  | invalidate (r : Ring) : Records r (r.invalidate (r.head % r.capacity))
  | publish (r : Ring) (q : ℕ) (f : Frame) (image : Image) (cycle : ℕ) :
    Records r (r.publish (q % r.capacity) q f image cycle)
  | advance (r : Ring) (q : ℕ) : Records r (r.advance q)

/-- What cycles make of a freshly allocated ring. -/
def Filled (c : Config) (r : Ring) : Prop :=
  Relation.ReflTransGen Records (Ring.allocate 0 0 c.inputCap c.outputCap c.capacity) r

/-- A call of `readRecord` answers at one of its two checks, with what the slots hold then. -/
structure Atomic (c : Config) (b : ProcessDataRing.State) (r : Ring) : Prop where
  first : ∀ q, Reader.start c b.words q = .done q none → r.readRecord q = none
  last : ∀ i q copied, b.readers i = .copying q copied → c.loadAt copied = none →
    (ProcessDataRing.next c b (.reader i)).readers i =
      .done q ((r.readRecord q).map Recorded.frame)

theorem represents_step {a : ProcessDataRing.Action} (image : Image) (hs : Stored c b)
    (hr : Represents c b r) (hc : c.capacity ≠ 0) (he : ProcessDataRing.Enabled b a)
    (hb : (ProcessDataRing.next c b a).begun ≤ kInvalidSeq) :
    ∃ t, Relation.ReflTransGen Records r t ∧ Represents c (ProcessDataRing.next c b a) t := by
  cases a with
  | write f => exact ⟨_, .single (.invalidate r), represents_write hr hc⟩
  | writer =>
    cases hw : b.writer with
    | idle => exact absurd hw he
    | copying q todo =>
      cases todo with
      | nil =>
        obtain ⟨f, -, hf, -⟩ := hs.copying q [] hw
        have hq : q + 1 ≤ kInvalidSeq := by simpa [ProcessDataRing.next, hw, State.begun] using hb
        exact ⟨_, .single (.publish r q f image 0),
          represents_publish hr hw hf (Nat.ne_of_lt hq) image 0⟩
      | cons p todo => exact ⟨r, .refl, represents_store hr hw⟩
    | published q => exact ⟨_, .single (.advance r q), represents_advance hr hw⟩
  | read i seq =>
    exact ⟨r, .refl, hr.capacity, hr.inputCap, hr.outputCap, hr.head, hr.empty, hr.full⟩
  | reader i =>
    exact ⟨r, .refl, hr.capacity, hr.inputCap, hr.outputCap, hr.head, hr.empty, hr.full⟩

/-- Writes are not taken back. -/
theorem begun_le_next {a : ProcessDataRing.Action} (he : ProcessDataRing.Enabled b a) :
    b.begun ≤ (ProcessDataRing.next c b a).begun := by
  cases a with
  | write f =>
    by_cases hc : c.capacity = 0
    · simp [ProcessDataRing.next, hc]
    · rw [begun_write hc, begun_idle he]
      exact Nat.le_succ _
  | writer =>
    cases hw : b.writer with
    | idle => exact absurd hw he
    | copying q todo => cases todo <;> simp [ProcessDataRing.next, hw, State.begun]
    | published q => simp [ProcessDataRing.next, hw, State.begun]
  | read | reader => exact Nat.le_refl _

theorem exists_represents (image : Image) (hc : c.capacity ≠ 0)
    (h : (ProcessDataRing.system c).Reachable b) :
    b.begun ≤ kInvalidSeq → ∃ r, Filled c r ∧ Represents c b r := by
  refine h.induct (I := fun b => b.begun ≤ kInvalidSeq → ∃ r, Filled c r ∧ Represents c b r)
    (fun _ => ⟨_, .refl, represents_allocate hc 0 0⟩) ?_
  intro b a hreach ih he _ hb
  obtain ⟨r, hrun, hr⟩ := ih ((begun_le_next he).trans hb)
  obtain ⟨t, hstep, ht⟩ := represents_step image (reading_reachable hreach).1 hr hc he hb
  exact ⟨t, hrun.trans hstep, ht⟩

/-- Until the sequence numbers run out, the recorder is at every moment a ring of whole records, and
every read is one look at it. -/
theorem atomic_of_reachable (image : Image) (hc : c.capacity ≠ 0)
    (h : (ProcessDataRing.system c).Reachable b) (hb : b.begun ≤ kInvalidSeq) :
    ∃ r, Filled c r ∧ Represents c b r ∧ Atomic c b r := by
  obtain ⟨hs, hrd⟩ := reading_reachable h
  obtain ⟨r, hrun, hr⟩ := exists_represents image hc h hb
  refine ⟨r, hrun, hr, ?_, fun i q copied hi hl => reader_eq_readRecord hs hrd hr hi hl⟩
  intro q hq
  apply readRecord_eq_none hr
  intro hw
  simp [Reader.start, hc, hw] at hq

theorem recordThenRead_atomic :
    let b := (ProcessDataRing.system smallestRing).run ProcessDataRing.State.initial recordThenRead
    ∃ r, Filled smallestRing r ∧ Represents smallestRing b r ∧ Atomic smallestRing b r := by
  have hf : (ProcessDataRing.system smallestRing).Follows (fun _ _ => True)
      ProcessDataRing.State.initial recordThenRead := by decide +kernel
  exact atomic_of_reachable ⟨0, [], [], 0, 0, 0⟩ (by decide) ⟨_, hf, rfl⟩ (by decide +kernel)

end MotionMaster.DeviceManager
