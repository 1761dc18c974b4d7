import MotionMaster.Recorder.Layout

/-! The sequence protocol: a copy that passes both checks is one whole record. -/
namespace MotionMaster.ProcessDataRing

open Bytes Interleaving

variable {c : Config} {s t : State} {q r : ℕ} {f : Frame}

/-- The write in progress, until it stores its word. -/
def Writer.pending : Writer → Option ℕ
  | .copying seq _ => some seq
  | _ => none

/-- The number of writes begun, which is the sequence number of the next. -/
def State.begun (s : State) : ℕ :=
  match s.writer with
  | .idle => s.head
  | .copying seq _ | .published seq => seq + 1

/-- The write that was given `q` is complete, and no later one has claimed its slot. -/
structure Present (c : Config) (s : State) (q : ℕ) : Prop where
  begun : q < s.begun
  kept : s.begun ≤ q + c.capacity
  complete : s.writer.pending ≠ some q

structure Stored (c : Config) (s : State) : Prop where
  allocated : s.writer ≠ .idle → c.capacity ≠ 0
  written : ∀ q < s.begun, ∃ f, (q, f) ∈ s.history
  logged : ∀ q f, (q, f) ∈ s.history → q < s.begun
  single : ∀ q f g, (q, f) ∈ s.history → (q, g) ∈ s.history → f = g
  word : ∀ q, Present c s q → s.words (q % c.capacity) = q
  payload : ∀ q f, Present c s q → (q, f) ∈ s.history →
    ∀ p ∈ c.stores f, s.buffer (c.address q p.1) = p.2
  named : ∀ slot, s.words slot ≠ kInvalidSeq →
    Present c s (s.words slot) ∧ s.words slot % c.capacity = slot
  copying : ∀ q todo, s.writer = .copying q todo → ∃ f done, (q, f) ∈ s.history ∧
    done ++ todo = c.stores f ∧ ∀ p ∈ done, s.buffer (c.address q p.1) = p.2

theorem address_ne {o o' : ℕ} (h : q % c.capacity ≠ r % c.capacity) (ho : o < c.stride)
    (ho' : o' < c.stride) : c.address q o ≠ c.address r o' := by
  simp only [Config.address]
  rcases Nat.lt_or_gt_of_ne h with h | h
  · have hm := Nat.mul_le_mul_right c.stride (Nat.succ_le_of_lt h)
    rw [Nat.succ_mul] at hm
    omega
  · have hm := Nat.mul_le_mul_right c.stride (Nat.succ_le_of_lt h)
    rw [Nat.succ_mul] at hm
    omega

theorem stored_initial : Stored c State.initial where
  allocated h := absurd rfl h
  written q h := absurd h (Nat.not_lt_zero q)
  logged := nofun
  single := nofun
  word q h := absurd h.begun (Nat.not_lt_zero q)
  payload q _ h := absurd h.begun (Nat.not_lt_zero q)
  named _ h := absurd rfl h
  copying := nofun

/-! ### The writer claims a slot -/

theorem next_write (hc : c.capacity ≠ 0) : next c s (.write f) = { s with
    words := Function.update s.words (s.head % c.capacity) kInvalidSeq
    writer := .copying s.head (c.stores f)
    history := s.history ++ [(s.head, f)] } := if_neg hc

theorem begun_idle (hw : s.writer = .idle) : s.begun = s.head := by simp [State.begun, hw]

theorem begun_write (hc : c.capacity ≠ 0) : (next c s (.write f)).begun = s.head + 1 := by
  rw [next_write hc]
  rfl

theorem mem_history_write (hc : c.capacity ≠ 0) {g : Frame} :
    (q, g) ∈ (next c s (.write f)).history ↔ (q, g) ∈ s.history ∨ q = s.head ∧ g = f := by
  simp [next_write hc]

/-- What is still there after a slot was claimed was there before, in another slot. -/
theorem present_write (hw : s.writer = .idle) (hc : c.capacity ≠ 0)
    (h : Present c (next c s (.write f)) q) :
    Present c s q ∧ q < s.head ∧ s.head < q + c.capacity := by
  have hb := begun_idle hw
  have hbegun := h.begun
  have hkept := h.kept
  rw [begun_write hc] at hbegun hkept
  have hne : s.head ≠ q := by
    intro he
    apply h.complete
    rw [next_write hc, ← he]
    rfl
  exact ⟨⟨by omega, by omega, by simp [hw, Writer.pending]⟩, by omega, by omega⟩

/-- A slot that names a record after the claim is not the one claimed. -/
theorem named_write (hs : Stored c s) (hw : s.writer = .idle) (hc : c.capacity ≠ 0) {slot : ℕ}
    (h : (next c s (.write f)).words slot ≠ kInvalidSeq) :
    Present c (next c s (.write f)) ((next c s (.write f)).words slot) ∧
      (next c s (.write f)).words slot % c.capacity = slot := by
  have hb := begun_idle hw
  have hwords : (next c s (.write f)).words =
      Function.update s.words (s.head % c.capacity) kInvalidSeq := by rw [next_write hc]
  have hne : slot ≠ s.head % c.capacity := by
    rintro rfl
    rw [hwords, Function.update_self] at h
    exact h rfl
  rw [hwords, Function.update_of_ne hne] at h ⊢
  obtain ⟨hq, hslot⟩ := hs.named slot h
  have hbegun := hq.begun
  have hkept := hq.kept
  refine ⟨⟨?_, ?_, ?_⟩, hslot⟩
  · rw [begun_write hc]
    omega
  · rw [begun_write hc]
    by_contra hlap
    -- exactly one lap behind, so the slot would be the one just claimed
    have he : s.head = s.words slot + c.capacity := by omega
    rw [he, Nat.add_mod_right, hslot] at hne
    exact hne rfl
  · rw [next_write hc]
    intro he
    have := Option.some.inj he
    omega

theorem stored_write (hs : Stored c s) (hw : s.writer = .idle) (hc : c.capacity ≠ 0) :
    Stored c (next c s (.write f)) where
  allocated _ := hc
  written q hq := by
    have hb := begun_idle hw
    rw [begun_write hc] at hq
    by_cases h : q = s.head
    · exact ⟨f, (mem_history_write hc).mpr (.inr ⟨h, rfl⟩)⟩
    · obtain ⟨g, hg⟩ := hs.written q (by omega)
      exact ⟨g, (mem_history_write hc).mpr (.inl hg)⟩
  logged q g hg := by
    have hb := begun_idle hw
    rw [begun_write hc]
    rcases (mem_history_write hc).mp hg with hg | ⟨rfl, -⟩
    · have := hs.logged q g hg
      omega
    · exact Nat.lt_succ_self _
  single q g g' hg hg' := by
    have hb := begun_idle hw
    rcases (mem_history_write hc).mp hg with hold | ⟨hq, hgf⟩
    · rcases (mem_history_write hc).mp hg' with hold' | ⟨hq', -⟩
      · exact hs.single q g g' hold hold'
      · have := hs.logged q g hold
        omega
    · rcases (mem_history_write hc).mp hg' with hold' | ⟨-, hgf'⟩
      · have := hs.logged q g' hold'
        omega
      · rw [hgf, hgf']
  word q h := by
    obtain ⟨hold, hlt, hlap⟩ := present_write hw hc h
    rw [next_write hc]
    exact (Function.update_of_ne (slot_ne hlt hlap) _ _).trans (hs.word q hold)
  payload q g h hg p hp := by
    obtain ⟨hold, hlt, -⟩ := present_write hw hc h
    rcases (mem_history_write hc).mp hg with hg | ⟨rfl, -⟩
    · rw [next_write hc]
      exact hs.payload q g hold hg p hp
    · exact absurd hlt (Nat.lt_irrefl _)
  named slot h := named_write hs hw hc h
  copying q todo h := by
    rw [next_write hc] at h
    cases h
    exact ⟨f, [], (mem_history_write hc).mpr (.inr ⟨rfl, rfl⟩), rfl, nofun⟩

theorem Present.of_eq (hp : Present c s q) (hb : t.begun = s.begun)
    (hn : t.writer.pending = s.writer.pending) : Present c t q :=
  ⟨hb ▸ hp.begun, hb ▸ hp.kept, hn ▸ hp.complete⟩

/-- While a record is being copied, every record present is in another slot. -/
theorem Present.slot_ne_pending (hp : Present c s r) {todo : List (ℕ × BitVec 8)}
    (hw : s.writer = .copying q todo) : r % c.capacity ≠ q % c.capacity := by
  have h1 := hp.begun
  have h2 := hp.kept
  have h3 : q ≠ r := fun he => hp.complete (by rw [hw, he]; rfl)
  simp only [State.begun, hw] at h1 h2
  exact slot_ne (by omega) (by omega)

theorem stored_store {o : ℕ} {b : BitVec 8} {todo : List (ℕ × BitVec 8)} (hs : Stored c s)
    (hw : s.writer = .copying q ((o, b) :: todo)) :
    Stored c { s with
      buffer := Function.update s.buffer (c.address q o) b
      writer := .copying q todo } := by
  set t : State := { s with
    buffer := Function.update s.buffer (c.address q o) b
    writer := .copying q todo }
  have hb : t.begun = s.begun := by simp [State.begun, hw, t]
  have hn : t.writer.pending = s.writer.pending := by rw [hw]; rfl
  obtain ⟨g, done, hg, hd, hm⟩ := hs.copying q _ hw
  refine ⟨fun _ => hs.allocated (by simp [hw]), by simpa [hb] using hs.written,
    by simpa [hb] using hs.logged, hs.single, ?_, ?_, ?_, ?_⟩
  · intro r hr
    exact hs.word r (hr.of_eq hb.symm hn.symm)
  · intro r f hr hf p hp
    have hr := hr.of_eq hb.symm hn.symm
    have ho : o < c.stride :=
      Config.offset_lt_stride (f := g) (p := (o, b)) (by rw [← hd]; simp)
    show Function.update s.buffer _ _ _ = _
    rw [Function.update_of_ne
      (address_ne (hr.slot_ne_pending hw) (Config.offset_lt_stride hp) ho)]
    exact hs.payload r f hr hf p hp
  · intro slot h
    obtain ⟨hp, hsl⟩ := hs.named slot h
    exact ⟨hp.of_eq hb hn, hsl⟩
  · intro q' todo' h
    cases h
    refine ⟨g, done ++ [(o, b)], hg, by simpa using hd, ?_⟩
    have hnd := c.nodup_offsets g
    rw [← hd] at hnd
    exact holds_store hnd hm

theorem stored_publish (hs : Stored c s) (hw : s.writer = .copying q []) :
    Stored c { s with
      words := Function.update s.words (q % c.capacity) q
      writer := .published q } := by
  set t : State := { s with
    words := Function.update s.words (q % c.capacity) q
    writer := .published q }
  have hb : t.begun = s.begun := by simp [State.begun, hw, t]
  have hc := hs.allocated (by simp [hw])
  have hp : ∀ r, r ≠ q → Present c t r → Present c s r := by
    intro r hrq h
    exact ⟨hb ▸ h.begun, hb ▸ h.kept, by simpa [hw, Writer.pending] using hrq.symm⟩
  obtain ⟨g, done, hg, hd, hm⟩ := hs.copying q _ hw
  rw [List.append_nil] at hd
  subst hd
  refine ⟨fun _ => hc, by simpa [hb] using hs.written, by simpa [hb] using hs.logged, hs.single,
    ?_, ?_, ?_, nofun⟩
  · intro r hr
    show Function.update s.words _ _ _ = r
    by_cases hrq : r = q
    · simp [hrq]
    · have hr := hp r hrq hr
      rw [Function.update_of_ne (hr.slot_ne_pending hw)]
      exact hs.word r hr
  · intro r f hr hf
    by_cases hrq : r = q
    · subst hrq
      rw [hs.single r f g hf hg]
      exact hm
    · exact hs.payload r f (hp r hrq hr) hf
  · intro slot h
    by_cases hsl : slot = q % c.capacity
    · have hu : t.words slot = q := by simp [t, hsl]
      rw [hu]
      refine ⟨⟨?_, ?_, nofun⟩, hsl.symm⟩ <;> simp only [State.begun, t] <;> omega
    · have hu : t.words slot = s.words slot := Function.update_of_ne hsl _ _
      rw [hu] at h ⊢
      obtain ⟨hp, hq⟩ := hs.named slot h
      exact ⟨⟨hb ▸ hp.begun, hb ▸ hp.kept, nofun⟩, hq⟩

theorem stored_advance (hs : Stored c s) (hw : s.writer = .published q) :
    Stored c { s with head := q + 1, writer := .idle } := by
  set t : State := { s with head := q + 1, writer := .idle }
  have hb : t.begun = s.begun := by simp [State.begun, hw, t]
  have hn : t.writer.pending = s.writer.pending := by rw [hw]; rfl
  refine ⟨fun h => absurd rfl h, by simpa [hb] using hs.written, by simpa [hb] using hs.logged,
    hs.single, ?_, ?_, ?_, nofun⟩
  · exact fun r hr => hs.word r (hr.of_eq hb.symm hn.symm)
  · exact fun r f hr hf => hs.payload r f (hr.of_eq hb.symm hn.symm) hf
  · intro slot h
    obtain ⟨hp, hsl⟩ := hs.named slot h
    exact ⟨hp.of_eq hb hn, hsl⟩

theorem stored_readers (hs : Stored c s) (readers : ℕ → Reader) :
    Stored c { s with readers := readers } where
  allocated := hs.allocated
  written := hs.written
  logged := hs.logged
  single := hs.single
  word q h := hs.word q (h.of_eq rfl rfl)
  payload q f h := hs.payload q f (h.of_eq rfl rfl)
  named slot h := ⟨(hs.named slot h).1.of_eq rfl rfl, (hs.named slot h).2⟩
  copying := hs.copying

theorem stored_step {a : Action} (hs : Stored c s) (he : Enabled s a) : Stored c (next c s a) := by
  cases a with
  | write f =>
    by_cases hc : c.capacity = 0
    · simpa [next, hc] using hs
    · exact stored_write hs he hc
  | writer =>
    cases hw : s.writer with
    | idle => exact absurd hw he
    | copying q todo =>
      cases todo with
      | nil => simpa [next, hw] using stored_publish hs hw
      | cons p todo => simpa [next, hw] using stored_store hs hw
    | published q => simpa [next, hw] using stored_advance hs hw
  | read i seq => exact stored_readers hs _
  | reader i => exact stored_readers hs _

/-! ### Readers -/

/-- What a call has copied is a beginning of its record for as long as the record is present, and
what it returned is the whole of it. -/
structure Reading (c : Config) (s : State) : Prop where
  copying : ∀ i q copied, s.readers i = .copying q copied →
    q ≠ kInvalidSeq ∧ q < s.begun ∧ s.writer.pending ≠ some q ∧
      ∀ f, (q, f) ∈ s.history → s.begun ≤ q + c.capacity → copied <+: c.payload f
  returned : ∀ i q f, s.readers i = .done q (some f) →
    ∃ g, (q, g) ∈ s.history ∧ f = g.clamp c.inputCap c.outputCap

theorem reading_initial : Reading c State.initial := ⟨nofun, nofun⟩

/-- The writer only moves on, so it costs a reader at most its record. -/
theorem Reading.mono (hr : Reading c s) (hrd : t.readers = s.readers)
    (hb : s.begun ≤ t.begun)
    (hh : ∀ q f, (q, f) ∈ t.history → q < s.begun → (q, f) ∈ s.history)
    (hh' : s.history ⊆ t.history)
    (hp : ∀ q < s.begun, s.writer.pending ≠ some q → t.writer.pending ≠ some q) :
    Reading c t := by
  constructor <;> rw [hrd]
  · intro i q copied h
    obtain ⟨h1, h2, h3, h4⟩ := hr.copying i q copied h
    refine ⟨h1, by omega, hp q h2 h3, ?_⟩
    intro f hf hk
    exact h4 f (hh q f hf h2) (by omega)
  · intro i q f h
    obtain ⟨g, hg, hc⟩ := hr.returned i q f h
    exact ⟨g, hh' hg, hc⟩

theorem reading_write (hr : Reading c s) (hw : s.writer = .idle) (hc : c.capacity ≠ 0) :
    Reading c (next c s (.write f)) := by
  have hb := begun_idle hw
  rw [next, if_neg hc]
  refine hr.mono rfl (by simp [State.begun, hw]) ?_ (by simp) ?_
  · intro q g hg hq
    rcases List.mem_append.mp hg with hg | hg
    · exact hg
    · simp only [List.mem_singleton, Prod.mk.injEq] at hg
      omega
  · intro q hq _ he
    have := Option.some.inj he
    omega

/-- Inside a write, only memory and the write's own progress change. -/
theorem writer_frame (hw : s.writer ≠ .idle) :
    (next c s .writer).begun = s.begun ∧ (next c s .writer).history = s.history ∧
      (next c s .writer).readers = s.readers ∧
      ∀ r, s.writer.pending ≠ some r → (next c s .writer).writer.pending ≠ some r := by
  cases h : s.writer with
  | idle => exact absurd h hw
  | copying q todo => cases todo <;> simp [next, State.begun, h, Writer.pending]
  | published q => simp [next, State.begun, h, Writer.pending]

theorem reading_writer (hr : Reading c s) (hw : s.writer ≠ .idle) :
    Reading c (next c s .writer) := by
  obtain ⟨hb, hh, hrd, hp⟩ := writer_frame (c := c) hw
  refine hr.mono hrd (Nat.le_of_eq hb.symm) ?_ ?_ fun r _ => hp r
  · intro q f hf _
    rwa [hh] at hf
  · rw [hh]
    exact List.Subset.refl _

variable {copied : List (BitVec 8)} {seq : ℕ}

theorem start_copying (hs : Stored c s)
    (hq : seq ≠ kInvalidSeq) (h : Reader.start c s.words seq = .copying q copied) :
    q = seq ∧ copied = [] ∧ Present c s q := by
  unfold Reader.start at h
  split_ifs at h with hc hw
  cases h
  have hn := (hs.named (q % c.capacity) (by rwa [not_ne_iff.mp hw])).1
  exact ⟨rfl, rfl, by rwa [not_ne_iff.mp hw] at hn⟩

variable {words : ℕ → ℕ}

theorem start_ne_some : Reader.start c words seq ≠ .done q (some f) := by
  unfold Reader.start
  split_ifs <;> simp

variable {rd : Reader}

/-- One reader moves. The others keep what they have. -/
theorem Reading.update (hr : Reading c s) {i : ℕ}
    (hcopying : ∀ q copied, rd = .copying q copied →
      q ≠ kInvalidSeq ∧ q < s.begun ∧ s.writer.pending ≠ some q ∧
        ∀ f, (q, f) ∈ s.history → s.begun ≤ q + c.capacity → copied <+: c.payload f)
    (hreturned : ∀ q f, rd = .done q (some f) →
      ∃ g, (q, g) ∈ s.history ∧ f = g.clamp c.inputCap c.outputCap) :
    Reading c { s with readers := Function.update s.readers i rd } := by
  constructor
  · intro j q copied h
    by_cases hj : j = i
    · subst hj
      exact hcopying q copied (Function.update_self j rd s.readers ▸ h)
    · exact hr.copying j q copied (Function.update_of_ne hj rd s.readers ▸ h)
  · intro j q f h
    by_cases hj : j = i
    · subst hj
      exact hreturned q f (Function.update_self j rd s.readers ▸ h)
    · exact hr.returned j q f (Function.update_of_ne hj rd s.readers ▸ h)

theorem reading_read (hs : Stored c s) (hr : Reading c s) {i : ℕ} (hq : seq ≠ kInvalidSeq) :
    Reading c (next c s (.read i seq)) := by
  apply hr.update
  · intro q copied h
    obtain ⟨rfl, rfl, hp⟩ := start_copying hs hq h
    exact ⟨hq, hp.begun, hp.complete, fun _ _ _ => List.nil_prefix⟩
  · intro q f h
    exact absurd h start_ne_some

theorem step_copying {buffer : ℕ → BitVec 8}
    (h : Reader.step c words buffer rd = .copying q copied) :
    ∃ before offset, rd = .copying q before ∧ c.loadAt before = some offset ∧
      copied = before ++ [buffer (c.address q offset)] := by
  cases rd with
  | copying q' before =>
    cases hl : c.loadAt before with
    | none => simp [Reader.step, hl] at h
    | some offset =>
      simp only [Reader.step, hl, Reader.copying.injEq] at h
      obtain ⟨rfl, rfl⟩ := h
      exact ⟨before, offset, rfl, hl, rfl⟩
  | _ => simp [Reader.step] at h

theorem step_done {buffer : ℕ → BitVec 8}
    (h : Reader.step c words buffer rd = .done q (some f)) :
    rd = .done q (some f) ∨ ∃ copied, rd = .copying q copied ∧ c.loadAt copied = none ∧
      words (q % c.capacity) = q ∧ f = c.record copied := by
  cases rd with
  | copying q' copied =>
    cases hl : c.loadAt copied with
    | none =>
      simp only [Reader.step, hl, Reader.done.injEq] at h
      obtain ⟨rfl, h⟩ := h
      split_ifs at h with hw
      exact .inr ⟨copied, rfl, hl, hw, (Option.some.inj h).symm⟩
    | some offset => simp [Reader.step, hl] at h
  | _ => exact .inl h

/-- A copy that still finds its word has the whole record. -/
theorem record_of_word (hs : Stored c s) (hr : Reading c s) {i : ℕ}
    (h : s.readers i = .copying q copied) (hl : c.loadAt copied = none)
    (hw : s.words (q % c.capacity) = q) :
    ∃ g, (q, g) ∈ s.history ∧ c.record copied = g.clamp c.inputCap c.outputCap := by
  obtain ⟨hq, hb, -, hp⟩ := hr.copying i q copied h
  obtain ⟨g, hg⟩ := hs.written q hb
  have hn := (hs.named (q % c.capacity) (by rwa [hw])).1
  rw [hw] at hn
  rw [Config.eq_payload (hp g hg hn.kept) hl]
  exact ⟨g, hg, c.record_payload g⟩

theorem reading_reader (hs : Stored c s) (hr : Reading c s) (i : ℕ) :
    Reading c (next c s (.reader i)) := by
  apply hr.update
  · intro q copied h
    obtain ⟨before, offset, hrd, hl, rfl⟩ := step_copying h
    obtain ⟨h1, h2, h3, h4⟩ := hr.copying i q before hrd
    refine ⟨h1, h2, h3, fun f hf hk => ?_⟩
    exact Config.prefix_load (fun o => s.buffer (c.address q o)) (h4 f hf hk)
      (hs.payload q f ⟨h2, hk, h3⟩ hf) hl
  · intro q f h
    obtain hrd | ⟨copied, hrd, hl, hw, rfl⟩ := step_done h
    · exact hr.returned i q f hrd
    · exact record_of_word hs hr hrd hl hw

theorem reading_step {a : Action} (h : Stored c s ∧ Reading c s) (he : Enabled s a) :
    Stored c (next c s a) ∧ Reading c (next c s a) := by
  refine ⟨stored_step h.1 he, ?_⟩
  cases a with
  | write f =>
    by_cases hc : c.capacity = 0
    · simpa [next, hc] using h.2
    · exact reading_write h.2 he hc
  | writer => exact reading_writer h.2 he
  | read i seq => exact reading_read h.1 h.2 he.1
  | reader i => exact reading_reader h.1 h.2 i

theorem reading_reachable (h : (system c).Reachable s) : Stored c s ∧ Reading c s :=
  h.invariant ⟨stored_initial, reading_initial⟩ fun _ _ h he _ => reading_step h he

/-! ### A call that nothing interrupts -/

theorem loadAt_lt_stride {offset : ℕ}
    (h : c.loadAt copied = some offset) : copied.length < c.stride := by
  have hi : c.ib copied ≤ c.inputCap := Nat.min_le_right _ _
  have ho : c.ob copied ≤ c.outputCap := Nat.min_le_right _ _
  unfold Config.loadAt at h
  unfold Config.stride
  split_ifs at h <;> omega

theorem iterate_done (words : ℕ → ℕ) (buffer : ℕ → BitVec 8) (n : ℕ) (result : Option Frame) :
    (Reader.step c words buffer)^[n] (.done q result) = .done q result :=
  Function.iterate_fixed rfl n

/-- The copy ends, whatever the header says, because its sizes are clamped. -/
theorem iterate_copying (words : ℕ → ℕ) (buffer : ℕ → BitVec 8) (n : ℕ)
    (copied : List (BitVec 8)) (hn : c.stride < copied.length + n)
    (hl : copied.length ≤ c.stride) :
    ∃ result, (Reader.step c words buffer)^[n] (.copying q copied) = .done q result ∧
      (result.isSome ↔ words (q % c.capacity) = q) := by
  induction n generalizing copied with
  | zero => omega
  | succ n ih =>
    rw [Function.iterate_succ_apply]
    cases h : c.loadAt copied with
    | some offset =>
      have hlt := loadAt_lt_stride h
      simp only [Reader.step, h]
      exact ih _ (by simp; omega) (by simp; omega)
    | none =>
      simp only [Reader.step, h, iterate_done]
      split_ifs with hw <;> simp [hw]

theorem readRecord_done (s : State) (seq : ℕ) :
    ∃ result, readRecord c s seq = .done seq result ∧
      (result.isSome ↔ c.capacity ≠ 0 ∧ s.words (seq % c.capacity) = seq) := by
  unfold readRecord Reader.start
  split_ifs with hc hw
  · exact ⟨none, iterate_done _ _ _ _, by simp [hc]⟩
  · exact ⟨none, iterate_done _ _ _ _, by simp [hw]⟩
  · obtain ⟨result, hr, hs⟩ := iterate_copying (c := c) (q := seq) s.words s.buffer (c.stride + 1)
      [] (by simp) (by simp)
    exact ⟨result, hr, by simp [hs, hc]⟩

/-- With no write in progress the words name exactly the last `capacity` records. -/
theorem word_iff_of_idle (hs : Stored c s) (hw : s.writer = .idle)
    (hq : seq ≠ kInvalidSeq) :
    c.capacity ≠ 0 ∧ s.words (seq % c.capacity) = seq ↔
      s.head - c.capacity ≤ seq ∧ seq < s.head := by
  have hb := begun_idle hw
  constructor
  · rintro ⟨-, h⟩
    have hp := (hs.named (seq % c.capacity) (by rwa [h])).1
    have h1 := hp.begun
    have h2 := hp.kept
    omega
  · rintro ⟨h1, h2⟩
    refine ⟨by omega, hs.word seq ⟨by omega, by omega, ?_⟩⟩
    simp [hw, Writer.pending]

/-- A successful read is one whole record, and at rest exactly the last `capacity` records can be
read. -/
theorem readRecord_protocol (h : (system c).Reachable s) :
    (∀ i seq f, s.readers i = .done seq (some f) →
      ∃ g, (seq, g) ∈ s.history ∧ (∀ g', (seq, g') ∈ s.history → g' = g) ∧
        f = g.clamp c.inputCap c.outputCap) ∧
    (s.writer = .idle → ∀ seq, seq ≠ kInvalidSeq →
      ∃ result, readRecord c s seq = .done seq result ∧
        (result.isSome ↔ s.head - c.capacity ≤ seq ∧ seq < s.head)) := by
  obtain ⟨hs, hr⟩ := reading_reachable h
  constructor
  · intro i seq f hd
    obtain ⟨g, hg, hf⟩ := hr.returned i seq f hd
    exact ⟨g, hg, fun g' hg' => hs.single seq g' g hg' hg, hf⟩
  · intro hw seq hq
    obtain ⟨result, hd, hi⟩ := readRecord_done (c := c) s seq
    exact ⟨result, hd, hi.trans (word_iff_of_idle hs hw hq)⟩

/-- One byte each way and a single slot. -/
def smallestRing : Config := ⟨1, 1, 1, by decide, by decide⟩

def sampleFrame : Frame := ⟨5, 3, [7], [9], by decide, by decide⟩

/-- One cycle is recorded, then read back. -/
def recordThenRead : List Action :=
  .write sampleFrame :: List.replicate 24 .writer ++ .read 0 0 :: List.replicate 23 (.reader 0)

theorem recordThenRead_whole :
    ((system smallestRing).run State.initial recordThenRead).readers 0 =
        .done 0 (some sampleFrame) ∧
      ∃ g, (0, g) ∈ ((system smallestRing).run State.initial recordThenRead).history ∧
        (∀ g', (0, g') ∈ ((system smallestRing).run State.initial recordThenRead).history →
          g' = g) ∧
        sampleFrame = g.clamp 1 1 := by
  have hd : ((system smallestRing).run State.initial recordThenRead).readers 0 =
      .done 0 (some sampleFrame) := by decide +kernel
  have hf : (system smallestRing).Follows (fun _ _ => True) State.initial recordThenRead := by
    decide +kernel
  exact ⟨hd, (readRecord_protocol ⟨_, hf, rfl⟩).1 0 0 sampleFrame hd⟩

end MotionMaster.ProcessDataRing
