import MotionMaster.Lib.Feed
import MotionMaster.Monitoring.Sources

/-! The stream of one monitoring: which recorded cycles its flushes deliver, and in which order. -/
namespace MotionMaster.Monitoring

open Interleaving DeviceManager

/-- The cycles handed to the clients of one registration. -/
def delivered (s : State) (epoch : ℕ) : List ℕ :=
  (s.published.filter fun b => b.epoch = epoch).flatMap fun b => b.rows.map (·.record.cycle)

/-- The cycle is in the span the recorder offers. -/
def Present (ring : Ring) (cycle : ℕ) : Prop :=
  ∃ seq rec, ring.oldestValidSeq ≤ seq ∧ seq < ring.head ∧ ring.readRecord seq = some rec ∧
    rec.cycle = cycle

def Logged (s : State) (epoch cycle : ℕ) : Prop :=
  ∃ w ∈ s.warnings, w.epoch = epoch ∧ w.gapStart ≤ cycle ∧ cycle < w.gapEnd

/-- Rows come in recording order and none twice. By the end of a flush every cycle recorded since
the cursor was primed and before the flush was taken has been delivered, or is gone and the gap
logged. -/
structure Lossless (s : State) : Prop where
  ordered : ∀ epoch, (delivered s epoch).Pairwise (· < ·)
  complete : ∀ f st, s.flights f = .flushed st → st.progress.cursorPrimed = true →
    ∀ c, st.progress.primedAt ≤ c → c < st.takenAt →
      c ∈ delivered s st.epoch ∨ ¬ Present s.dm.ring c ∧ Logged s st.epoch c

/-- The head is loaded and the records up to it still to be read. -/
def Flight.Reads : Flight → Prop
  | .measured _ _ _ | .sampling _ _ _ | .reading _ _ _ _ _ _ _ => True
  | _ => False

/-- The next record to read, and the end of the span. -/
def Flight.unread : Flight → Option (ℕ × ℕ)
  | .sampling st head _ => some (st.progress.cursor, head)
  | .reading _ head _ seq _ _ _ => some (seq, head)
  | _ => none

/-- The head is loaded from the ring the cursor belongs to, or from one that shows it does not.
The oldest record is loaded before the ring has lapped that head, and it is not being overwritten
when it is the first to read. -/
def Flight.LoadsInTime (dm : DeviceManager.State) : Flight → Prop
  | .captured st => st.progress.cursorPrimed = true → dm.ring.base = st.progress.cursorBase ∨
    dm.ring.head < st.progress.cursor ∨ st.progress.cursor < dm.ring.oldestValidSeq
  | .measured st head _ => dm.ring.oldestValidSeq ≤ head ∧
    (dm.rt.MidWrite → dm.ring.head < dm.ring.capacity ∨
      dm.ring.oldestValidSeq < st.progress.cursor ∧ st.progress.cursor ≤ head)
  | _ => True

instance (dm : DeviceManager.State) : (fl : Flight) → Decidable (fl.LoadsInTime dm)
  | .captured _ => instDecidableForall
  | .measured _ _ _ => @instDecidableAnd _ _ _ instDecidableForall
  | .idle | .taken _ | .recapturing _ _ _ _ _ _ | .deciding _ _ _ _ _ _ => instDecidableTrue
  | .sampling _ _ _ | .reading _ _ _ _ _ _ _ | .flushed _ | .threw _ => instDecidableTrue

def OneAtATime (s : State) : Action → Prop
  | .take _ topic => ∀ e, s.findEntry topic = some e →
    ∀ f st, (s.flights f).copy = some st → st.epoch ≠ e.epoch
  | _ => True

/-- One flush at a time, and none raced: neither a new ring nor a new record takes what it is
about to read. -/
def Unraced (s : State) : Action → Prop
  | .dm d => StartsAlone s.dm d ∧ (Replaces d → ∀ f, ¬ (s.flights f).Reads) ∧
    ∀ g image set, d = .rt (.ringInvalidate g image set) → ∀ f seq head,
      (s.flights f).unread = some (seq, head) → seq < head →
      s.dm.ring.head < seq + s.dm.ring.capacity
  | .take f topic => OneAtATime s (.take f topic)
  | .flush f => (s.flights f).LoadsInTime s.dm
  | _ => True

instance (s : State) (f : ℕ) : Decidable (Unraced s (.flush f)) :=
  inferInstanceAs (Decidable ((s.flights f).LoadsInTime s.dm))

variable {s : State}

/-! ### Where a stream stands -/

def Skipped (s : State) (epoch cycle : ℕ) : Prop :=
  cycle < s.dm.ring.base + s.dm.ring.oldestValidSeq ∧ Logged s epoch cycle

/-- The cursor is in the ring or all behind it, and accounts for every cycle it has passed. -/
structure Position (ring : Ring) (delivered : List ℕ) (skipped : ℕ → Prop) (p : Progress) :
    Prop where
  unprimed : p.cursorPrimed = false → delivered = []
  bound : p.cursorPrimed = true → p.cursorBase = ring.base ∧ p.cursor ≤ ring.head ∨
    p.cursorBase + p.cursor ≤ ring.base
  feed : p.cursorPrimed = true → Feed p.primedAt (p.cursorBase + p.cursor) delivered skipped

/-- What a flush about to read `seq` can count on. -/
structure Span (dm : DeviceManager.State) (st : FlushState) (head base seq : ℕ) : Prop where
  primed : st.progress.cursorPrimed = true
  base_eq : base = dm.ring.base
  head_le : head ≤ dm.ring.head
  taken : st.takenAt ≤ base + head
  cursorBase : st.progress.cursorBase = base
  cursor_le : st.progress.cursor ≤ seq
  seq_le : seq ≤ head
  readable : seq < head → Readable dm seq

/-- The stages that know more than where the stream stands. -/
def Flight.Streams (dm : DeviceManager.State) : Flight → Prop
  | .measured st head base => st.progress.cursorPrimed = true ∧ base = dm.ring.base ∧
    head ≤ dm.ring.head ∧ st.takenAt ≤ base + head ∧
    (st.progress.cursorBase = base → st.progress.cursor ≤ head) ∧
    (st.progress.cursorBase = base ∨ head < st.progress.cursor ∨
      st.progress.cursor < dm.ring.oldestValidSeq)
  | .sampling st head base => Span dm st head base st.progress.cursor
  | .reading st head base seq _ _ rows => Span dm st head base seq ∧
    rows.map (·.record.cycle) =
      List.range' (base + st.progress.cursor) (seq - st.progress.cursor)
  | .flushed st => st.takenAt ≤ st.progress.cursorBase + st.progress.cursor
  | .threw _ => False
  | _ => True

structure Streaming (s : State) : Prop where
  sole : ∀ f g st st', (s.flights f).copy = some st → (s.flights g).copy = some st' →
    st.epoch = st'.epoch → f = g
  flight : ∀ f st, (s.flights f).copy = some st →
    Position s.dm.ring (delivered s st.epoch) (Skipped s st.epoch) st.progress ∧
      st.takenAt ≤ s.dm.ring.base + s.dm.ring.head
  stage : ∀ f, (s.flights f).Streams s.dm
  entry : ∀ e ∈ s.entries, (∀ f st, (s.flights f).copy = some st → st.epoch ≠ e.epoch) →
    Position s.dm.ring (delivered s e.epoch) (Skipped s e.epoch) e.progress
  fresh : ∀ b ∈ s.published, b.epoch < s.nextEpoch
  ordered : ∀ epoch, (delivered s epoch).Pairwise (· < ·)

variable {ring : Ring}

theorem Position.mono {ring' : Ring} {ds : List ℕ} {skipped skipped' : ℕ → Prop}
    {p : Progress} (h : Position ring ds skipped p) (hg : ring.Grows ring')
    (hs : ∀ c, skipped c → skipped' c) : Position ring' ds skipped' p := by
  refine ⟨h.unprimed, fun hp => ?_, fun hp => (h.feed hp).mono hs⟩
  rcases hg.head with ⟨hb, hh⟩ | hb <;> rcases h.bound hp with ⟨h1, h2⟩ | h1
  · exact .inl ⟨by omega, by omega⟩
  · exact .inr (by omega)
  · exact .inr (by omega)
  · exact .inr (by omega)

/-- The fields of the copy the stream does not depend on may change. -/
theorem Position.congr {ds : List ℕ} {skipped : ℕ → Prop} {p p' : Progress}
    (h : Position ring ds skipped p) (hc : p'.cursor = p.cursor)
    (hp : p'.cursorPrimed = p.cursorPrimed) (hb : p'.cursorBase = p.cursorBase)
    (ha : p'.primedAt = p.primedAt) : Position ring ds skipped p' := by
  refine ⟨?_, ?_, ?_⟩ <;> simp only [hc, hp, hb, ha]
  · exact h.unprimed
  · exact h.bound
  · exact h.feed

/-! ### The device manager's steps -/

variable {dm : DeviceManager.State} {d : DeviceManager.Action} {st : FlushState} {head : ℕ}

theorem Span.next
    {base seq : ℕ} (h : Span dm st head base seq) (hr : Recording dm)
    (he : DeviceManager.Enabled dm d) (hn : ¬ Replaces d)
    (hi : ∀ g image set, d = .rt (.ringInvalidate g image set) → seq < head →
      dm.ring.head < seq + dm.ring.capacity) : Span (DeviceManager.next dm d) st head base seq := by
  obtain ⟨hb, -⟩ := ring_next (s := dm) hn
  have hh : dm.ring.head ≤ (DeviceManager.next dm d).ring.head := by
    rcases head_next hr he hn with hh | ⟨hh, -⟩ <;> omega
  exact ⟨h.primed, h.base_eq.trans hb.symm, Nat.le_trans h.head_le hh, h.taken, h.cursorBase,
    h.cursor_le, h.seq_le, fun hlt =>
      (h.readable hlt).next hr he hn fun g image set hd => hi g image set hd hlt⟩

variable {fl : Flight}

theorem streams_dm
    (h : fl.Streams dm) (hr : Recording dm) (he : DeviceManager.Enabled dm d)
    (hrep : Replaces d → ¬ fl.Reads)
    (hi : ∀ g image set, d = .rt (.ringInvalidate g image set) → ∀ seq head,
      fl.unread = some (seq, head) → seq < head → dm.ring.head < seq + dm.ring.capacity) :
    fl.Streams (DeviceManager.next dm d) := by
  have hn : fl.Reads → ¬ Replaces d := fun h hd => hrep hd h
  cases fl with
  | measured st head base =>
    obtain ⟨h1, h2, h3, h4, h5, h6⟩ := h
    obtain ⟨hb, -⟩ := ring_next (s := dm) (hn trivial)
    have hg := grows_next hr he
    have hold := hg.oldest
    have hh : dm.ring.head ≤ (DeviceManager.next dm d).ring.head := by
      rcases head_next hr he (hn trivial) with hh | ⟨hh, -⟩ <;> omega
    exact ⟨h1, by omega, by omega, h4, h5, h6.imp_right (Or.imp_right fun h => by omega)⟩
  | sampling st head base =>
    exact Span.next h hr he (hn trivial) fun g image set hd => hi g image set hd _ _ rfl
  | reading st head base seq exchanging sdoValues rows =>
    exact ⟨h.1.next hr he (hn trivial) fun g image set hd => hi g image set hd _ _ rfl, h.2⟩
  | _ => exact h

theorem streaming_dm (h : Streaming s) (hr : Recording s.dm)
    (he : DeviceManager.Enabled s.dm d) (hc : Unraced s (.dm d)) :
    Streaming (next s (.dm d)) := by
  obtain ⟨-, hrep, hi⟩ := hc
  have hg := grows_next hr he
  have hskip : ∀ epoch c, Skipped s epoch c → Skipped (next s (.dm d)) epoch c :=
    fun epoch c hc => ⟨Nat.lt_of_lt_of_le hc.1 hg.oldest, hc.2⟩
  refine ⟨h.sole, fun f st hst => ?_, fun f => ?_, fun e he hno => ?_, h.fresh, h.ordered⟩
  · obtain ⟨hp, ht⟩ := h.flight f st hst
    refine ⟨hp.mono hg (hskip _), ?_⟩
    have hgrow : s.dm.ring.base + s.dm.ring.head ≤
        (DeviceManager.next s.dm d).ring.base + (DeviceManager.next s.dm d).ring.head := by
      rcases hg.head with ⟨hb, hh⟩ | hb <;> omega
    exact Nat.le_trans ht hgrow
  · exact streams_dm (h.stage f) hr he (fun hd => hrep hd f)
      fun g image set hd seq head => hi g image set hd f seq head
  · exact (h.entry e he hno).mono hg (hskip _)

/-! ### A flush -/

variable {t : State} {batches : List Batch}

theorem delivered_append
    (h : t.published = s.published ++ batches) (epoch : ℕ) : delivered t epoch =
      delivered s epoch ++ (batches.filter fun b => b.epoch = epoch).flatMap fun b =>
        b.rows.map (·.record.cycle) := by
  simp [delivered, h]

theorem delivered_other {epoch epoch' : ℕ}
    (h : t.published = s.published ++ batches) (hb : ∀ b ∈ batches, b.epoch = epoch)
    (hne : epoch' ≠ epoch) : delivered t epoch' = delivered s epoch' := by
  have hnil : (batches.filter fun b => b.epoch = epoch') = [] := by
    refine List.filter_eq_nil_iff.mpr fun b hb' => ?_
    simpa [hb b hb'] using hne.symm
  rw [delivered_append h, hnil]
  simp

variable {f : ℕ}

/-- After a flight has moved, a copy is that flight's or was there before. -/
theorem copy_update {flights : ℕ → Flight} {g : ℕ} {st' : FlushState}
    (hst : fl.copy = some st) (hg : (Function.update flights f fl g).copy = some st') :
    g = f ∧ st' = st ∨ g ≠ f ∧ (flights g).copy = some st' := by
  by_cases hgf : g = f
  · rw [hgf, Function.update_self, hst] at hg
    exact .inl ⟨hgf, (Option.some.inj hg).symm⟩
  · rw [Function.update_of_ne hgf] at hg
    exact .inr ⟨hgf, hg⟩

/-- A flush moves on with its copy. What it publishes and logs is its own registration's. -/
theorem Streaming.move {st' : FlushState}
    {warnings : List Warning} (h : Streaming s) (hw : WellFormed s)
    (hst : (s.flights f).copy = some st) (hst' : fl.copy = some st') (hep : st'.epoch = st.epoch)
    (hdm : t.dm = s.dm) (hfl : t.flights = Function.update s.flights f fl)
    (hen : t.entries = s.entries) (hne : t.nextEpoch = s.nextEpoch)
    (hpub : t.published = s.published ++ batches) (hb : ∀ b ∈ batches, b.epoch = st.epoch)
    (hwarn : t.warnings = s.warnings ++ warnings)
    (hpos : Position t.dm.ring (delivered t st.epoch) (Skipped t st.epoch) st'.progress)
    (htaken : st'.takenAt ≤ s.dm.ring.base + s.dm.ring.head) (hstage : fl.Streams s.dm)
    (hord : (delivered t st.epoch).Pairwise (· < ·)) : Streaming t := by
  have hcopy : ∀ g st'', (t.flights g).copy = some st'' → g = f ∧ st'' = st' ∨
      g ≠ f ∧ (s.flights g).copy = some st'' := by
    intro g st'' hg
    rw [hfl] at hg
    exact copy_update hst' hg
  have hskip : ∀ epoch c, Skipped s epoch c → Skipped t epoch c := by
    rintro epoch c ⟨hc, w, hmem, hrest⟩
    exact ⟨by rwa [hdm], w, by rw [hwarn]; exact List.mem_append_left _ hmem, hrest⟩
  have hkeep : ∀ epoch p, epoch ≠ st.epoch →
      Position s.dm.ring (delivered s epoch) (Skipped s epoch) p →
      Position t.dm.ring (delivered t epoch) (Skipped t epoch) p := by
    intro epoch p hne hp
    rw [delivered_other hpub hb hne, hdm]
    exact hp.mono (Ring.Grows.refl _) (hskip epoch)
  refine ⟨?_, ?_, ?_, ?_, ?_, ?_⟩
  · intro g g' u u' hg hg' heq
    rcases hcopy g u hg with ⟨rfl, rfl⟩ | ⟨-, hg⟩ <;>
      rcases hcopy g' u' hg' with ⟨rfl, rfl⟩ | ⟨-, hg'⟩
    · rfl
    · exact h.sole _ _ st u' hst hg' (hep.symm.trans heq)
    · exact h.sole _ _ u st hg hst (heq.trans hep)
    · exact h.sole _ _ u u' hg hg' heq
  · intro g u hg
    rw [hdm]
    rcases hcopy g u hg with ⟨rfl, rfl⟩ | ⟨hgf, hg⟩
    · rw [hep, ← hdm]
      exact ⟨hpos, hdm ▸ htaken⟩
    · have hne : u.epoch ≠ st.epoch := fun heq => hgf (h.sole _ _ u st hg hst heq)
      obtain ⟨hp, ht⟩ := h.flight g u hg
      exact ⟨hdm ▸ hkeep u.epoch _ hne hp, ht⟩
  · intro g
    rw [hdm, hfl]
    by_cases hgf : g = f
    · rwa [hgf, Function.update_self]
    · rw [Function.update_of_ne hgf]
      exact h.stage g
  · intro e he hno
    have hne : e.epoch ≠ st.epoch := by
      have := hno f st' (by rw [hfl, Function.update_self, hst'])
      rwa [hep, ne_comm] at this
    refine hkeep e.epoch _ hne (h.entry e (hen ▸ he) fun g u hg => ?_)
    by_cases hgf : g = f
    · subst hgf
      rw [hst] at hg
      cases hg
      exact hne.symm
    · exact hno g u (by rw [hfl, Function.update_of_ne hgf, hg])
  · intro b hmem
    rw [hpub] at hmem
    rw [hne]
    rcases List.mem_append.mp hmem with hmem | hmem
    · exact h.fresh b hmem
    · rw [hb b hmem]
      exact hw.flight f st hst
  · intro epoch
    by_cases heq : epoch = st.epoch
    · rwa [heq]
    · rw [delivered_other hpub hb heq]
      exact h.ordered epoch

/-- The parts of a copy that place it in the stream. -/
structure SameStream (st st' : FlushState) : Prop where
  epoch : st'.epoch = st.epoch
  takenAt : st'.takenAt = st.takenAt
  cursor : st'.progress.cursor = st.progress.cursor
  primed : st'.progress.cursorPrimed = st.progress.cursorPrimed
  base : st'.progress.cursorBase = st.progress.cursorBase
  primedAt : st'.progress.primedAt = st.progress.primedAt

/-- A step that neither publishes nor logs, and leaves the stream where it is. -/
theorem streaming_quiet {st' : FlushState} (h : Streaming s) (hw : WellFormed s)
    (hst : (s.flights f).copy = some st) (hst' : ((s.flights f).step s.dm).copy = some st')
    (hsame : SameStream st st') (hpub : (s.flights f).publishes = [])
    (hwarn : (s.flights f).warns s.dm.ring = [])
    (hcommit : (s.flights f).commit s.entries = s.entries)
    (hstage : ((s.flights f).step s.dm).Streams s.dm) : Streaming (s.flush f) := by
  obtain ⟨hp, ht⟩ := h.flight f st hst
  have hd : delivered (s.flush f) st.epoch = delivered s st.epoch := by
    simp [delivered, State.flush, hpub]
  have hs : Skipped (s.flush f) st.epoch = Skipped s st.epoch := by
    funext c
    simp [Skipped, Logged, State.flush, hwarn]
  refine h.move hw hst hst' hsame.epoch rfl rfl hcommit rfl rfl (by simp [hpub]) rfl ?_
    (by rw [hsame.takenAt]; exact ht) hstage (by rw [hd]; exact h.ordered _)
  rw [hd, hs]
  exact hp.congr hsame.cursor hsame.primed hsame.base hsame.primedAt

theorem SameStream.refl (st : FlushState) : SameStream st st := ⟨rfl, rfl, rfl, rfl, rfl, rfl⟩

/-- `recaptureIfRemapped` is still at work. -/
def Flight.Captures : Flight → Prop
  | .taken _ | .recapturing _ _ _ _ _ _ | .deciding _ _ _ _ _ _ => True
  | _ => False

theorem stream_recapture (st : FlushState) (generation : ℕ) (done todo : List ParamPlan)
    (dm : DeviceManager.State) :
    ∃ st', (Flight.recapture st generation done todo).copy = some st' ∧ SameStream st st' ∧
      (Flight.recapture st generation done todo).Streams dm := by
  cases todo with
  | nil => exact ⟨_, rfl, ⟨rfl, rfl, rfl, rfl, rfl, rfl⟩, trivial⟩
  | cons plan todo => exact ⟨_, rfl, ⟨rfl, rfl, rfl, rfl, rfl, rfl⟩, trivial⟩

theorem stream_capture (h : fl.Captures) (dm : DeviceManager.State) :
    ∃ st st', fl.copy = some st ∧ (fl.step dm).copy = some st' ∧ SameStream st st' ∧
      (fl.step dm).Streams dm := by
  cases fl with
  | taken st =>
    simp only [Flight.step]
    split
    · exact ⟨st, st, rfl, rfl, .refl st, trivial⟩
    · obtain ⟨st', hst'⟩ :=
        stream_recapture st dm.processImageGeneration [] st.progress.plans dm
      exact ⟨st, st', rfl, hst'⟩
  | recapturing st generation done plan todo l =>
    simp only [Flight.step]
    split <;> exact ⟨_, _, rfl, rfl, ⟨rfl, rfl, rfl, rfl, rfl, rfl⟩, trivial⟩
  | deciding st generation done plan todo spec =>
    obtain ⟨st', hst', hsame, hstage⟩ :=
      stream_recapture st generation (done ++ [plan.resource spec]) todo dm
    exact ⟨_, st', rfl, hst', ⟨hsame.1, hsame.2, hsame.3, hsame.4, hsame.5, hsame.6⟩, hstage⟩
  | _ => exact h.elim

theorem streaming_capture (h : Streaming s) (hw : WellFormed s)
    (hfl : (s.flights f).Captures) : Streaming (s.flush f) := by
  obtain ⟨st, st', hst, hst', hsame, hstage⟩ := stream_capture hfl s.dm
  refine streaming_quiet h hw hst hst' hsame ?_ ?_ ?_ hstage <;>
    cases heq : s.flights f <;> first | rfl | simp [heq, Flight.Captures] at hfl

theorem streaming_head (h : Streaming s) (hw : WellFormed s)
    (hfl : s.flights f = .captured st) (hc : (Flight.captured st).LoadsInTime s.dm) :
    Streaming (s.flush f) := by
  have hst : (s.flights f).copy = some st := by rw [hfl]; rfl
  obtain ⟨hp, ht⟩ := h.flight f st hst
  have hpub : (s.flights f).publishes = [] := by rw [hfl]; rfl
  have hwarn : (s.flights f).warns s.dm.ring = [] := by rw [hfl]; rfl
  have hcommit : (s.flights f).commit s.entries = s.entries := by rw [hfl]; rfl
  have hstep : (s.flights f).step s.dm = measure s.dm.ring st := by rw [hfl]; rfl
  by_cases hprimed : st.progress.cursorPrimed = true
  · have hold := s.dm.ring.oldestValidSeq_le
    have hcond := hc hprimed
    rw [measure, if_neg (by simp [hprimed])] at hstep
    by_cases hhead : s.dm.ring.head = st.progress.cursor
    · rw [if_pos hhead] at hstep
      refine streaming_quiet h hw hst (by rw [hstep]; rfl) (.refl st) hpub hwarn hcommit ?_
      rw [hstep]
      show st.takenAt ≤ st.progress.cursorBase + st.progress.cursor
      omega
    · rw [if_neg hhead] at hstep
      refine streaming_quiet h hw hst (by rw [hstep]; rfl) (.refl st) hpub hwarn hcommit ?_
      rw [hstep]
      refine ⟨hprimed, rfl, Nat.le_refl _, ht, fun hb => ?_, hcond.imp_left Eq.symm⟩
      rcases hp.bound hprimed with ⟨-, hle⟩ | hle <;> omega
  · have hfalse : st.progress.cursorPrimed = false := by simpa using hprimed
    have hnil := hp.unprimed hfalse
    rw [measure, if_pos hfalse] at hstep
    have hd : delivered (s.flush f) st.epoch = [] := by
      rw [← hnil]
      simp [delivered, State.flush, hpub]
    have hst' := congrArg Flight.copy hstep
    refine h.move hw hst hst' rfl rfl rfl hcommit rfl rfl (by simp [hpub]) rfl ?_ ht
      (by rw [hstep]; exact ht) (by rw [hd]; exact .nil)
    rw [hd]
    exact ⟨fun _ => rfl, fun _ => .inl ⟨rfl, Nat.le_refl _⟩, fun _ => Feed.start _ _⟩

theorem head_le_oldest (ring : Ring) : ring.head ≤ ring.oldestValidSeq + ring.capacity := by
  unfold Ring.oldestValidSeq
  split <;> omega

theorem resyncWarning_of_outside
    (h : OutsideSpan ring st.progress head) : ∃ w, resyncWarning ring st head = [w] ∧
      w.epoch = st.epoch ∧ w.gapStart = st.progress.cursorBase + st.progress.cursor ∧
      w.gapEnd = ring.base + ring.oldestValidSeq := by
  rw [resyncWarning, if_pos h]
  exact ⟨_, rfl, rfl, rfl, rfl⟩

/-- The oldest record is loaded. A cursor outside the span is moved there, and the gap logged. -/
theorem streaming_oldest {base : ℕ} (h : Streaming s)
    (hw : WellFormed s) (hfl : s.flights f = .measured st head base)
    (hc : (Flight.measured st head base).LoadsInTime s.dm) : Streaming (s.flush f) := by
  have hst : (s.flights f).copy = some st := by rw [hfl]; rfl
  obtain ⟨hp, ht⟩ := h.flight f st hst
  obtain ⟨hprimed, hbase, hhead, htaken, hsame, hcursor⟩ : (Flight.measured st head base).Streams
    s.dm := hfl ▸ h.stage f
  obtain ⟨hlap, hmid⟩ := hc
  have hpub : (s.flights f).publishes = [] := by rw [hfl]; rfl
  have hcommit : (s.flights f).commit s.entries = s.entries := by rw [hfl]; rfl
  have hstep : (s.flights f).step s.dm = .sampling (resync s.dm.ring st head) head base := by
    rw [hfl]
    rfl
  have hspan := head_le_oldest s.dm.ring
  by_cases hout : OutsideSpan s.dm.ring st.progress head
  · rw [resync, if_pos hout] at hstep
    have hle : st.progress.cursorBase + st.progress.cursor ≤
        s.dm.ring.base + s.dm.ring.oldestValidSeq := by
      rcases hp.bound hprimed with ⟨hb, -⟩ | hle
      · rcases hout with hout | hout <;> omega
      · omega
    have hd : delivered (s.flush f) st.epoch = delivered s st.epoch := by
      simp [delivered, State.flush, hpub]
    obtain ⟨w, hlog, hepoch, hstart, hend⟩ := resyncWarning_of_outside hout
    have hwarn : (s.flush f).warnings = s.warnings ++ [w] := by
      simp [State.flush, hfl, Flight.warns, hlog]
    have hst' := congrArg Flight.copy hstep
    refine h.move hw hst hst' rfl rfl rfl hcommit rfl rfl (by simp [hpub]) hwarn ?_ ht ?_
      (by rw [hd]; exact h.ordered _)
    · rw [hd]
      refine ⟨fun hf => by simp [hprimed] at hf, fun _ => .inl ⟨rfl, s.dm.ring.oldestValidSeq_le⟩,
        fun _ => ?_⟩
      refine ((hp.feed hprimed).mono ?_).skip hle fun c h1 h2 =>
        ⟨h2, w, ?_, hepoch, hstart ▸ h1, hend ▸ h2⟩
      · rintro c ⟨hc, w, hmem, hrest⟩
        exact ⟨hc, w, by rw [hwarn]; exact List.mem_append_left _ hmem, hrest⟩
      · rw [hwarn]
        exact List.mem_append_right _ List.mem_cons_self
    · rw [hstep]
      refine ⟨hprimed, hbase, hhead, htaken, hbase.symm, Nat.le_refl _, hlap, fun _ => ?_⟩
      refine ⟨hspan, fun hm => ?_⟩
      rcases hmid hm with hcap | hin
      · omega
      · rcases hout with hout | hout <;> omega
  · have hwarn : (s.flights f).warns s.dm.ring = [] := by
      simp [hfl, Flight.warns, resyncWarning, hout]
    rw [resync, if_neg hout] at hstep
    simp only [OutsideSpan] at hout
    refine streaming_quiet h hw hst (by rw [hstep]; rfl) (.refl st) hpub hwarn hcommit ?_
    rw [hstep]
    refine ⟨hprimed, hbase, hhead, htaken, by omega, Nat.le_refl _, by omega, fun _ => ?_⟩
    exact ⟨by omega, fun hm => by rcases hmid hm with hcap | hin <;> omega⟩

theorem streaming_record {base seq : ℕ} {exchanging : ℕ → Bool}
    {sdoValues : ℕ → Option DeviceParameterValue} {rows : List Row} (h : Streaming s)
    (hw : WellFormed s) (hr : Recording s.dm)
    (hfl : s.flights f = .reading st head base seq exchanging sdoValues rows)
    (hne : seq ≠ head) : Streaming (s.flush f) := by
  have hst : (s.flights f).copy = some st := by rw [hfl]; rfl
  obtain ⟨hspan, hrows⟩ : (Flight.reading st head base seq exchanging sdoValues rows).Streams
    s.dm := hfl ▸ h.stage f
  have hlt : seq < head := Nat.lt_of_le_of_ne hspan.seq_le hne
  obtain ⟨rec, hrec, hcycle⟩ := (hspan.readable hlt).readRecord hr
    (Nat.lt_of_lt_of_le hlt hspan.head_le)
  have hstep : (s.flights f).step s.dm = .reading st head base (seq + 1) exchanging sdoValues
      (rows ++ [sampleRow exchanging sdoValues st.progress.plans rec]) := by
    simp [hfl, Flight.step, hne, readOne, hrec]
  refine streaming_quiet h hw hst (by rw [hstep]; rfl) (.refl st) (by simp [hfl, Flight.publishes,
    hne]) (by rw [hfl]; rfl) (by rw [hfl]; rfl) ?_
  rw [hstep]
  have hcur := hspan.cursor_le
  refine ⟨⟨hspan.primed, hspan.base_eq, hspan.head_le, hspan.taken, hspan.cursorBase, by omega,
    hlt, fun _ => ?_⟩, ?_⟩
  · obtain ⟨h1, h2⟩ := hspan.readable hlt
    exact ⟨by omega, fun hm => by have := h2 hm; omega⟩
  · have hb := hspan.base_eq
    rw [List.map_append, hrows, Nat.succ_sub hcur, List.range'_concat]
    simp only [sampleRow, List.map_cons, List.map_nil, hcycle]
    congr 2
    omega

/-- The whole span has been read: its rows are published and the cursor moves to its end. -/
theorem streaming_publish {base : ℕ} {exchanging : ℕ → Bool}
    {sdoValues : ℕ → Option DeviceParameterValue} {rows : List Row} (h : Streaming s)
    (hw : WellFormed s) (hfl : s.flights f = .reading st head base head exchanging sdoValues rows) :
    Streaming (s.flush f) := by
  have hst : (s.flights f).copy = some st := by rw [hfl]; rfl
  obtain ⟨hp, ht⟩ := h.flight f st hst
  obtain ⟨hspan, hrows⟩ : (Flight.reading st head base head exchanging sdoValues rows).Streams
    s.dm := hfl ▸ h.stage f
  have hstep : (s.flights f).step s.dm = .flushed (finish st head base) := by
    simp [hfl, Flight.step]
  have hpub : ∀ b ∈ (s.flights f).publishes, b.epoch = st.epoch := by
    intro b hb
    simp only [hfl, Flight.publishes] at hb
    split at hb
    · rw [List.mem_singleton.mp hb]
    · cases hb
  have hd : delivered (s.flush f) st.epoch = delivered s st.epoch ++
      List.range' (base + st.progress.cursor) (head - st.progress.cursor) := by
    rw [delivered_append (t := s.flush f) rfl, ← hrows]
    simp only [hfl, Flight.publishes, true_and]
    split
    · simp
    · simp_all
  have hfeed := (hp.feed hspan.primed).deliver (head - st.progress.cursor)
  rw [hspan.cursorBase, ← hd] at hfeed
  have hs : Skipped (s.flush f) st.epoch = Skipped s st.epoch := by
    funext c
    simp [Skipped, Logged, State.flush, hfl, Flight.warns]
  have hcommit : (s.flights f).commit s.entries = s.entries := by rw [hfl]; rfl
  have hend : base + st.progress.cursor + (head - st.progress.cursor) = base + head := by
    have := hspan.cursor_le
    omega
  refine h.move hw hst (congrArg Flight.copy hstep) rfl rfl rfl hcommit rfl rfl hpub
    rfl ?_ ht (by rw [hstep]; exact hspan.taken) hfeed.ordered
  rw [hs]
  exact ⟨fun hf => absurd (hspan.primed.symm.trans hf) (by simp),
    fun _ => .inl ⟨hspan.base_eq, hspan.head_le⟩, fun _ => hend ▸ hfeed⟩

/-- The registration takes over where the flush has come to. -/
theorem streaming_commit (h : Streaming s) (hw : WellFormed s)
    (hfl : s.flights f = .flushed st) : Streaming (s.flush f) := by
  have hst : (s.flights f).copy = some st := by rw [hfl]; rfl
  have hd : delivered (s.flush f) = delivered s := by
    funext epoch
    simp [delivered, State.flush, hfl, Flight.publishes]
  have hs : Skipped (s.flush f) = Skipped s := by
    funext epoch c
    simp [Skipped, Logged, State.flush, hfl, Flight.warns]
  refine ⟨fun g g' u u' hg hg' => h.sole g g' u u' (copy_commit hfl hg).2 (copy_commit hfl hg').2,
    ?_, ?_, ?_, by simpa [State.flush, hfl, Flight.publishes] using h.fresh,
    by rw [hd]; exact h.ordered⟩
  · intro g u hg
    rw [hd, hs]
    exact h.flight g u (copy_commit hfl hg).2
  · intro g
    by_cases hgf : g = f
    · simp [State.flush, hgf, hfl, Flight.step, Flight.Streams]
    · simpa [State.flush, Function.update_of_ne hgf] using h.stage g
  · intro e' he' hno
    rw [entries_commit hfl] at he'
    obtain ⟨e, he, rfl⟩ := List.mem_map.mp he'
    rw [epoch_commitEntry] at hno ⊢
    rw [hd, hs]
    by_cases heq : e.epoch = st.epoch
    · rw [commitEntry, if_pos ⟨hw.copied f st hst e he heq, heq⟩, heq]
      exact (h.flight f st hst).1
    · rw [commitEntry, if_neg fun hc => heq hc.2]
      refine h.entry e he fun g u hg => ?_
      by_cases hgf : g = f
      · subst hgf
        rw [hst] at hg
        cases hg
        exact Ne.symm heq
      · exact hno g u (by simpa [State.flush, Function.update_of_ne hgf] using hg)

theorem streaming_flush (h : Streaming s) (hw : WellFormed s) (hr : Recording s.dm)
    (he : (s.flights f).CanStep s) (hc : (s.flights f).LoadsInTime s.dm) :
    Streaming (s.flush f) := by
  cases hfl : s.flights f with
  | idle | sampling | threw => simp [hfl, Flight.CanStep] at he
  | taken | recapturing | deciding => exact streaming_capture h hw (by rw [hfl]; trivial)
  | captured st => exact streaming_head h hw hfl (hfl ▸ hc)
  | measured st head base => exact streaming_oldest h hw hfl (hfl ▸ hc)
  | reading st head base seq exchanging sdoValues rows =>
    by_cases hne : seq = head
    · subst hne
      exact streaming_publish h hw hfl
    · exact streaming_record h hw hr hfl hne
  | flushed st => exact streaming_commit h hw hfl

theorem streaming_prepare (exchanging : ℕ → Bool)
    (sdoValues : ℕ → Option DeviceParameterValue) (h : Streaming s) (hw : WellFormed s)
    (he : (s.flights f).Sampling) :
    Streaming (s.setFlight f ((s.flights f).prepare exchanging sdoValues)) := by
  cases hfl : s.flights f with
  | sampling st head base =>
    have hst : (s.flights f).copy = some st := by rw [hfl]; rfl
    have hspan : Span s.dm st head base st.progress.cursor := by
      have := h.stage f
      rwa [hfl] at this
    obtain ⟨hp, ht⟩ := h.flight f st hst
    have hprep : (Flight.sampling st head base).prepare exchanging sdoValues =
        .reading st head base st.progress.cursor exchanging sdoValues [] :=
      if_neg (Nat.not_lt.mpr hspan.seq_le)
    rw [hprep]
    exact h.move hw hst rfl rfl rfl rfl rfl rfl (List.append_nil _).symm (by simp)
      (List.append_nil _).symm hp ht ⟨hspan, by simp⟩ (h.ordered _)
  | _ => simp [hfl, Flight.Sampling] at he

/-! ### Registrations -/

theorem streaming_take {topic : String} (h : Streaming s) (he : (s.flights f).Idle)
    (hc : Unraced s (.take f topic)) : Streaming (s.take f topic) := by
  unfold State.take
  cases hfe : s.findEntry topic with
  | none => exact h
  | some e =>
    obtain ⟨hmem, -⟩ := findEntry_eq_some hfe
    have hno := hc e hfe
    have hcopy : ∀ g u, ((s.setFlight f (.taken (e.copy (s.dm.ring.base +
        s.dm.ring.head)))).flights g).copy = some u → g = f ∧ u = e.copy (s.dm.ring.base +
        s.dm.ring.head) ∨ g ≠ f ∧ (s.flights g).copy = some u := fun g u hg => copy_update rfl hg
    refine ⟨?_, ?_, ?_, ?_, h.fresh, h.ordered⟩
    · intro g g' u u' hg hg' heq
      rcases hcopy g u hg with ⟨rfl, rfl⟩ | ⟨-, hu⟩ <;>
        rcases hcopy g' u' hg' with ⟨rfl, rfl⟩ | ⟨-, hu'⟩
      · rfl
      · exact absurd heq.symm (hno g' u' hu')
      · exact absurd heq (hno g u hu)
      · exact h.sole g g' u u' hu hu' heq
    · intro g u hg
      rcases hcopy g u hg with ⟨rfl, rfl⟩ | ⟨-, hg⟩
      · exact ⟨h.entry e hmem hno, Nat.le_refl _⟩
      · exact h.flight g u hg
    · intro g
      by_cases hgf : g = f
      · simp [State.setFlight, hgf, Flight.Streams]
      · simpa [State.setFlight, Function.update_of_ne hgf] using h.stage g
    · intro e' he' hno'
      refine h.entry e' he' fun g u hg => hno' g u ?_
      by_cases hgf : g = f
      · subst hgf
        cases hfl : s.flights g <;> simp_all [Flight.Idle, Flight.copy]
      · simpa [State.setFlight, Function.update_of_ne hgf] using hg

/-- A registration has delivered nothing before it is made. -/
theorem streaming_mutexStep (h : Streaming s) : Streaming s.mutexStep := by
  cases hm : s.mutex with
  | free => simpa [State.mutexStep, hm] using h
  | creating config acquired todo =>
    simp only [State.mutexStep, hm]
    cases todo with
    | nil =>
      refine ⟨h.sole, h.flight, h.stage, fun e he hno => ?_,
        fun b hb => Nat.lt_succ_of_lt (h.fresh b hb), h.ordered⟩
      rcases List.mem_append.mp he with he | he
      · exact h.entry e he hno
      · rw [List.mem_singleton.mp he]
        refine ⟨fun _ => ?_, by rintro ⟨⟩, by rintro ⟨⟩⟩
        refine List.flatMap_eq_nil_iff.mpr fun b hb => ?_
        obtain ⟨hb, hepoch⟩ := List.mem_filter.mp hb
        exact absurd (of_decide_eq_true hepoch) (Nat.ne_of_lt (h.fresh b hb))
    | cons plan todo => exact ⟨h.sole, h.flight, h.stage, h.entry, h.fresh, h.ordered⟩
  | removing topic todo =>
    simp only [State.mutexStep, hm]
    cases todo with
    | nil =>
      exact ⟨h.sole, h.flight, h.stage, fun e he => h.entry e (List.mem_of_mem_filter he), h.fresh,
        h.ordered⟩
    | cons plan todo => exact ⟨h.sole, h.flight, h.stage, h.entry, h.fresh, h.ordered⟩

theorem streaming_initial : Streaming State.initial := by
  constructor <;> simp [State.initial, Flight.copy, Flight.Streams, delivered]

theorem streaming_step {a : Action} (h : Streaming s) (hw : WellFormed s) (hr : Recording s.dm)
    (he : Enabled s a) (hc : Unraced s a) : Streaming (next s a) := by
  cases a with
  | dm d => exact streaming_dm h hr he hc
  | lock t =>
    simp only [next, State.lock]
    split
    · split <;> exact ⟨h.sole, h.flight, h.stage, h.entry, h.fresh, h.ordered⟩
    · exact h
  | remove topic =>
    simp only [next, State.remove]
    split
    · exact h
    · exact ⟨h.sole, h.flight, h.stage, h.entry, h.fresh, h.ordered⟩
  | mutex => exact streaming_mutexStep h
  | take f topic => exact streaming_take h he.2.1 hc
  | flush f => exact streaming_flush h hw hr he hc
  | prepare f exchanging sdoValues => exact streaming_prepare exchanging sdoValues h hw he
  | _ => exact ⟨h.sole, h.flight, h.stage, h.entry, h.fresh, h.ordered⟩

theorem streaming_reachable (h : system.ReachableUnder Unraced s) : Streaming s := by
  refine h.induct streaming_initial fun s a hreach hs he hc => ?_
  have hr := (recorder_reachable (dm_reachable (fun _ _ hc => hc.1) hreach)).recording
  exact streaming_step hs (wellFormed_reachable hreach) hr he hc

theorem not_present_of_lt {c : ℕ} (hr : Recording dm)
    (h : c < dm.ring.base + dm.ring.oldestValidSeq) : ¬ Present dm.ring c := by
  rintro ⟨seq, rec, hold, -, hread, rfl⟩
  unfold Ring.readRecord at hread
  split at hread
  · cases hread
  · obtain ⟨hslot, hseq⟩ := Option.filter_eq_some_iff.mp hread
    have hcycle := hr.record _ rec hslot
    have hseq : rec.seq = seq := by simpa using hseq
    omega

/-- As long as no flush is raced, the stream is complete and in order. -/
theorem lossless_of_unraced (h : system.ReachableUnder Unraced s) : Lossless s := by
  have hs := streaming_reachable h
  have hr := (recorder_reachable (dm_reachable (fun _ _ hc => hc.1) h)).recording
  refine ⟨hs.ordered, fun f st hfl hprimed c hfirst htaken => ?_⟩
  have hst : (s.flights f).copy = some st := by rw [hfl]; rfl
  have hend : st.takenAt ≤ st.progress.cursorBase + st.progress.cursor := by
    have := hs.stage f
    rwa [hfl] at this
  have hfeed := (hs.flight f st hst).1.feed hprimed
  refine (hfeed.accounted c hfirst (Nat.lt_of_lt_of_le htaken hend)).imp_right fun hskip => ?_
  exact ⟨not_present_of_lt hr hskip.1, hskip.2⟩

/-! ### Schedules -/

/-- With no flush past its head load only the device manager's own order matters. -/
theorem meets_unraced {ds : List DeviceManager.Action} (h : ∀ f, ¬ (s.flights f).Reads)
    (ho : DeviceManager.system.Meets StartsAlone s.dm ds) :
    system.Meets Unraced s (ds.map .dm) := by
  refine meets_dm (fun dm d hd => ⟨hd, fun _ => h, fun _ _ _ _ f seq head hun => ?_⟩) ho
  have hf := h f
  cases hfl : s.flights f <;> simp_all [Flight.unread, Flight.Reads]

/-- A cycle is recorded after the cursor is primed, and flushed. -/
def primeRecordFlush : List Action :=
  setUp ++ createPosition ++ primePosition ++ (recordCycle ⟨6, oneSetpoint⟩ 0).map .dm ++
  flushPosition 3 2

theorem primeRecordFlush_follows :
    system.Follows Unraced State.initial primeRecordFlush := by
  refine System.follows_iff.mpr ⟨by decide +kernel, ?_⟩
  rw [primeRecordFlush]
  iterate 4 rw [System.meets_append]
  refine ⟨⟨⟨⟨?_, ?_⟩, ?_⟩, ?_⟩, ?_⟩
  · exact meets_unraced (fun _ => id) setUp_startsAlone
  · exact System.meets_of_forall (by simp [createPosition, Unraced])
  · refine ⟨?_, trivial, ?_, trivial, trivial⟩
    · rintro e - (_ | f) st ⟨⟩
    · rintro ⟨⟩
  · refine meets_unraced ?_ ?_
    · rintro (_ | f) <;> exact id
    · repeat' first | exact trivial | constructor
  · refine ⟨?_, ?_, ?_, ?_, trivial, trivial, trivial, trivial⟩
    · rintro e - (_ | f) st ⟨⟩
    all_goals decide +kernel

/-- The cycle the flush has come to is delivered by the end of it. -/
theorem primeRecordFlush_lossless :
    delivered (system.run State.initial primeRecordFlush) 1 = [0] ∧
      Lossless (system.run State.initial primeRecordFlush) :=
  ⟨by decide +kernel, lossless_of_unraced ⟨_, primeRecordFlush_follows, rfl⟩⟩

/-- A re-map restarts the sequence, and the new head has passed the old cursor by the time of the
next flush: the first record of the new ring is taken for one already delivered. -/
def remapBehindCursor : List Action :=
  setUp ++ (recordCycle ⟨6, oneSetpoint⟩ 0).map .dm ++ createPosition ++ primePosition ++
  (remap 8 oneSetpoint ++ recordCycle ⟨8, oneSetpoint⟩ 0 ++ recordCycle ⟨8, oneSetpoint⟩ 1).map
    .dm ++
  flushPosition 7 2

theorem meets_oneAtATime (ds : List DeviceManager.Action) :
    system.Meets OneAtATime s (ds.map .dm) := by
  refine System.meets_of_forall fun a ha _ => ?_
  obtain ⟨d, -, rfl⟩ := List.mem_map.mp ha
  trivial

theorem remapBehindCursor_follows :
    system.Follows OneAtATime State.initial remapBehindCursor := by
  refine System.follows_iff.mpr ⟨by decide +kernel, ?_⟩
  rw [remapBehindCursor]
  iterate 5 rw [System.meets_append]
  refine ⟨⟨⟨⟨⟨?_, ?_⟩, ?_⟩, ?_⟩, ?_⟩, ?_⟩
  · exact meets_oneAtATime _
  · exact meets_oneAtATime _
  · exact System.meets_of_forall (by simp [createPosition, OneAtATime])
  · refine ⟨?_, trivial, trivial, trivial, trivial⟩
    rintro e - (_ | f) st ⟨⟩
  · exact meets_oneAtATime _
  · refine ⟨?_, System.meets_of_forall (by simp [OneAtATime])⟩
    rintro e - (_ | f) st ⟨⟩

theorem remapBehindCursor_not_lossless :
    system.ReachableUnder OneAtATime (system.run State.initial remapBehindCursor) ∧
      ¬ Lossless (system.run State.initial remapBehindCursor) := by
  refine ⟨⟨_, remapBehindCursor_follows, rfl⟩, fun h => ?_⟩
  rcases h.complete 0 _ rfl rfl 1 (by decide +kernel) (by decide +kernel) with hd | ⟨hp, -⟩
  · exact absurd hd (by decide +kernel)
  · exact hp ⟨0, _, by decide +kernel, by decide +kernel, rfl, rfl⟩

end MotionMaster.Monitoring
