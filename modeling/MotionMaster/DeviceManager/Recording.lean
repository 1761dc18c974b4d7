import MotionMaster.DeviceManager.Publication

/-! What the ring holds, as long as no operation starts over an image that is out on loan: one
record for each cycle, each written under the image in force. -/
namespace MotionMaster.DeviceManager

open Interleaving

/-- An operation starts only while no thread holds an image to put back. -/
def StartsAlone (s : State) : Action → Prop
  | .bus (.pause _) => ∀ t, (s.pausers t).previous = none
  | _ => True

variable {s : State}

/-! ### Nothing runs in a drained operation -/

/-- During an operation no image is found, and after a drain no cycle runs. -/
structure Found (s : State) : Prop where
  unpublished : s.bus.Pausing → s.image = none ∧ ∀ t, (s.pausers t).previous = none
  depth : s.inCycle = s.rt.depth
  drained : s.bus.Drained → ¬ s.rt.InBody

theorem found_initial : Found State.initial := by
  constructor <;> simp [State.initial, Pauser.previous, Bus.Pausing, Rt.depth, Bus.Drained]

theorem found_rt {a : RtAction} (h : Found s) (he : a.Enabled s) : Found (a.next s) := by
  refine ⟨by simpa using h.unpublished, depth_rt h.depth he, ?_⟩
  intro hd hb
  rw [rt_bus] at hd
  exact h.drained hd (inBody_rt he (h.unpublished hd.pausing).1 hb)

/-- A thread has what it took from the register, or what it had. -/
theorem previous_pauser {t u : ℕ} {a : PauserAction} (he : a.Enabled s t) {image : Image}
    (h : ((a.next s t).pausers u).previous = some image) :
    (s.pausers u).previous = some image ∨ s.image = some image := by
  by_cases hu : u = t
  · cases a <;> simp only [PauserAction.Enabled] at he <;>
      simp_all [PauserAction.next, State.setPauser, Pauser.previous]
  · rw [pauser_other s hu] at h
    exact .inl h

theorem image_pauser {t : ℕ} {a : PauserAction} (he : a.Enabled s t) {image : Image}
    (h : (a.next s t).image = some image) :
    s.image = some image ∨ (s.pausers t).previous = some image := by
  cases a <;> simp only [PauserAction.Enabled] at he <;>
    simp_all [PauserAction.next, State.setPauser, Pauser.previous]

theorem found_pauser {t : ℕ} {a : PauserAction} (h : Found s) (he : a.Enabled s t) :
    Found (a.next s t) := by
  refine ⟨fun hp => ?_, by simpa using h.depth, by simpa using h.drained⟩
  rw [pauser_bus] at hp
  obtain ⟨hi, hall⟩ := h.unpublished hp
  constructor
  · by_contra hne
    obtain ⟨image, hsome⟩ := Option.ne_none_iff_exists'.mp hne
    rcases image_pauser he hsome with h1 | h1
    · simp [hi] at h1
    · simp [hall t] at h1
  · intro u
    by_contra hne
    obtain ⟨image, hsome⟩ := Option.ne_none_iff_exists'.mp hne
    rcases previous_pauser he hsome with h1 | h1
    · simp [hall u] at h1
    · simp [hi] at h1

theorem found_bus {a : BusAction} (h : Found s) (he : a.Enabled s)
    (hc : StartsAlone s (.bus a)) : Found (a.next s) := by
  refine ⟨?_, by simpa using h.depth, ?_⟩
  · intro hp
    have hs := h.unpublished
    cases a <;> simp only [BusAction.Enabled] at he
    case initFail => exact hs hp
    case pause op => exact ⟨rfl, hc⟩
    all_goals
      first
        | exact hp.elim
        | exact hs (by simp [he, Bus.Pausing])
  · intro hd
    rw [bus_rt]
    rcases drained_bus he hd with hd | hz
    · exact h.drained hd
    · exact Rt.not_inBody_of_depth (h.depth ▸ hz)

variable {a : Action}

theorem found_step (h : Found s) (he : Enabled s a) (hc : StartsAlone s a) :
    Found (next s a) := by
  cases a with
  | rt a => exact found_rt h he
  | pauser t a => exact found_pauser h he
  | bus a => exact found_bus h he hc

/-! ### One record for each cycle -/

/-- Between the first store of a record and the advance of the head. -/
def Exchange.MidWrite : Exchange → Prop
  | .writing _ _ _ _ | .written _ _ _ => True
  | _ => False

def Rt.MidWrite : Rt → Prop
  | .exchange _ stage => stage.MidWrite
  | _ => False

instance (r : Rt) : Decidable r.MidWrite := by
  unfold Rt.MidWrite Exchange.MidWrite
  cases r with
  | exchange g stage => cases stage <;> infer_instance
  | _ => infer_instance

/-- A record whose word is stored while the head does not count it yet. -/
def Rt.pending : Rt → ℕ
  | .exchange _ (.written _ _ _) => 1
  | _ => 0

structure Recording (s : State) : Prop where
  cycles : s.cycles = s.ring.base + s.ring.head + s.rt.pending
  writing : ∀ g image set seq slot, s.rt = .exchange g (.writing image set seq slot) →
    s.ring.capacity ≠ 0 ∧ seq = s.ring.head ∧ slot = seq % s.ring.capacity
  written : ∀ g image set seq, s.rt = .exchange g (.written image set seq) →
    seq = s.ring.head ∧ ∃ rec, s.ring.slots (seq % s.ring.capacity) = some rec ∧ rec.seq = seq
  record : ∀ slot rec, s.ring.slots slot = some rec → rec.cycle = s.ring.base + rec.seq
  present : ∀ q, q < s.ring.head → s.ring.head ≤ q + s.ring.capacity →
    (s.rt.MidWrite → s.ring.head < q + s.ring.capacity) →
    ∃ rec, s.ring.slots (q % s.ring.capacity) = some rec ∧ rec.seq = q

variable {r : Rt}

theorem Rt.MidWrite.inBody (h : r.MidWrite) : r.InBody := by
  cases r with
  | exchange g stage =>
    cases stage <;> simp_all [Rt.MidWrite, Exchange.MidWrite, Rt.InBody, Exchange.Entered]
  | _ => simp [Rt.MidWrite] at h

theorem Rt.pending_eq_zero (h : ¬ r.MidWrite) : r.pending = 0 := by
  unfold Rt.pending
  split
  · exact absurd trivial h
  · rfl

theorem Rt.not_midWrite_caller (g : Bool) : ¬ (Rt.caller g).MidWrite := by cases g <;> exact id

theorem recording_initial : Recording State.initial := by
  constructor <;> simp [State.initial, Ring.clear, Rt.pending]

/-- A step that records nothing and leaves the ring alone. -/
theorem Recording.congr {t : State} (h : Recording s) (hr : t.ring = s.ring)
    (hc : t.cycles = s.cycles) (hrt : t.rt = s.rt ∨ ¬ s.rt.MidWrite ∧ ¬ t.rt.MidWrite) :
    Recording t := by
  rcases hrt with hrt | ⟨hs, ht⟩
  · refine ⟨?_, ?_, ?_, ?_, ?_⟩ <;> simp only [hr, hc, hrt]
    · exact h.cycles
    · exact h.writing
    · exact h.written
    · exact h.record
    · exact h.present
  · refine ⟨?_, ?_, ?_, by rw [hr]; exact h.record, ?_⟩
    · rw [hr, hc, h.cycles, Rt.pending_eq_zero hs, Rt.pending_eq_zero ht]
    · intro g image set seq slot hw
      exact absurd (by rw [hw]; trivial) ht
    · intro g image set seq hw
      exact absurd (by rw [hw]; trivial) ht
    · intro q hq hcap _
      rw [hr] at hq hcap ⊢
      exact h.present q hq hcap fun hm => absurd hm hs

/-- A record that a write in progress does not replace is in another slot. -/
theorem Recording.present_elsewhere (h : Recording s) {q : ℕ} (hq : q < s.ring.head)
    (hlt : s.ring.head < q + s.ring.capacity) :
    q % s.ring.capacity ≠ s.ring.head % s.ring.capacity ∧
      ∃ rec, s.ring.slots (q % s.ring.capacity) = some rec ∧ rec.seq = q :=
  ⟨ProcessDataRing.slot_ne hq hlt, h.present q hq hlt.le fun _ => hlt⟩

variable {g : Bool} {set : Option DeviceSet}

theorem recording_invalidate (h : Recording s) {image : Image}
    (he : (RtAction.ringInvalidate g image set).Enabled s) :
    Recording (RtAction.next s (.ringInvalidate g image set)) := by
  obtain ⟨hrt, hcap⟩ := he
  refine ⟨?_, ?_, ?_, ?_, ?_⟩
  · simpa [RtAction.next, Ring.invalidate, Rt.pending, hrt] using h.cycles
  · rintro g image set seq slot ⟨⟩
    exact ⟨hcap, rfl, rfl⟩
  · rintro g image set seq ⟨⟩
  · intro slot rec hr
    by_cases hs : slot = s.ring.head % s.ring.capacity
    · simp [RtAction.next, Ring.invalidate, hs] at hr
    · simp only [RtAction.next, Ring.invalidate, Function.update_of_ne hs] at hr
      exact h.record slot rec hr
  · intro q hq _ hmid
    obtain ⟨hne, rec, hrec, hseq⟩ := h.present_elsewhere hq (hmid trivial)
    refine ⟨rec, ?_, hseq⟩
    simpa [RtAction.next, Ring.invalidate, hne] using hrec

variable {seq slot : ℕ}

theorem recording_publish (h : Recording s) {image : Image}
    {frame : Frame}
    (he : (RtAction.ringPublish g image set seq slot frame).Enabled s) :
    Recording (RtAction.next s (.ringPublish g image set seq slot frame)) := by
  have hrt : s.rt = .exchange g (.writing image set seq slot) := he
  obtain ⟨hcap, rfl, rfl⟩ := h.writing g image set seq slot hrt
  have hcycles : s.cycles = s.ring.base + s.ring.head := by
    simpa [hrt, Rt.pending] using h.cycles
  refine ⟨?_, ?_, ?_, ?_, ?_⟩
  · simp only [RtAction.next, Ring.publish, Rt.pending]
    omega
  · rintro g image set seq slot ⟨⟩
  · rintro g image set seq ⟨⟩
    exact ⟨rfl, _, Function.update_self _ _ _, rfl⟩
  · intro slot rec hr
    by_cases hs : slot = s.ring.head % s.ring.capacity
    · simp only [RtAction.next, Ring.publish, hs, Function.update_self, Option.some.injEq] at hr
      subst hr
      exact hcycles
    · simp only [RtAction.next, Ring.publish, Function.update_of_ne hs] at hr
      exact h.record slot rec hr
  · intro q hq _ hmid
    obtain ⟨hne, rec, hrec, hseq⟩ := h.present_elsewhere hq (hmid trivial)
    refine ⟨rec, ?_, hseq⟩
    simpa [RtAction.next, Ring.publish, hne] using hrec

theorem recording_advance (h : Recording s) {image : Image}
    (he : (RtAction.ringAdvance g image set seq).Enabled s) :
    Recording (RtAction.next s (.ringAdvance g image set seq)) := by
  have hrt : s.rt = .exchange g (.written image set seq) := he
  obtain ⟨rfl, rec, hrec, hseq⟩ := h.written g image set seq hrt
  have hcycles : s.cycles = s.ring.base + s.ring.head + 1 := by
    simpa [hrt, Rt.pending] using h.cycles
  refine ⟨?_, ?_, ?_, h.record, ?_⟩
  · simp only [RtAction.next, Ring.advance, Rt.pending]
    omega
  · rintro g image set seq slot ⟨⟩
  · rintro g image set seq ⟨⟩
  · intro q hq hle _
    simp only [RtAction.next, Ring.advance] at hq hle ⊢
    rcases Nat.lt_succ_iff_lt_or_eq.mp hq with hq | rfl
    · exact h.present q hq (by omega) fun _ => by omega
    · exact ⟨rec, hrec, hseq⟩

theorem midWrite_rt {a : RtAction} (he : a.Enabled s) (h : (a.next s).rt.MidWrite) :
    s.rt.MidWrite ∨ ∃ g image set, a = .ringInvalidate g image set := by
  cases a with
  | ringInvalidate g image set => exact .inr ⟨g, image, set, rfl⟩
  | ringPublish g image set seq slot frame => exact .inl (by rw [show s.rt = _ from he]; trivial)
  | findDevice => exact .inl h
  | guardLoad =>
    simp only [RtAction.next] at h
    split at h <;> exact h.elim
  | exchangeLoad g =>
    simp only [RtAction.next] at h
    cases hi : s.image <;> rw [hi] at h <;> exact h.elim
  | exchangeBackOut g | exchangeLeave g _ _ => exact absurd h (Rt.not_midWrite_caller _)
  | _ => exact h.elim

theorem recording_rt {a : RtAction} (h : Recording s) (he : a.Enabled s) :
    Recording (a.next s) := by
  have hnot : ¬ s.rt.MidWrite → (∀ g image set, a ≠ .ringInvalidate g image set) →
      ¬ s.rt.MidWrite ∧ ¬ (a.next s).rt.MidWrite := by
    intro hs hi
    refine ⟨hs, fun hm => ?_⟩
    rcases midWrite_rt he hm with hm | ⟨g, image, set, rfl⟩
    · exact hs hm
    · exact hi g image set rfl
  cases a with
  | ringInvalidate g image set => exact recording_invalidate h he
  | ringPublish g image set seq slot frame => exact recording_publish h he
  | ringAdvance g image set seq => exact recording_advance h he
  | findDevice => exact h.congr rfl rfl (.inl rfl)
  | ringSkip g image set =>
    exact h.congr rfl rfl (.inr (hnot (by rw [he.1]; exact id) (by simp)))
  | _ =>
    refine h.congr rfl rfl (.inr (hnot ?_ (by simp)))
    rw [he]
    first | exact Rt.not_midWrite_caller _ | exact id

/-- The ring is replaced only after a drain, with no record half written. -/
theorem recording_bus {a : BusAction} (hf : Found s) (h : Recording s) (he : a.Enabled s) :
    Recording (a.next s) := by
  have hclear : ∀ t : State, s.bus.Drained → t.cycles = s.cycles → t.rt = s.rt →
      t.ring.base = s.cycles → t.ring.head = 0 → (∀ slot, t.ring.slots slot = none) →
      Recording t := by
    intro t hd hc hrt hb hh hs
    have hmid : ¬ s.rt.MidWrite := fun hm => hf.drained hd hm.inBody
    refine ⟨?_, ?_, ?_, by simp [hs], by simp [hh]⟩
    · rw [hc, hb, hh, hrt, Rt.pending_eq_zero hmid]
      rfl
    · intro g image set seq slot hw
      exact absurd (by rw [← hrt, hw]; trivial) hmid
    · intro g image set seq hw
      exact absurd (by rw [← hrt, hw]; trivial) hmid
  cases a <;> simp only [BusAction.Enabled] at he
  case scanClear =>
    exact hclear _ (by simp [he, Bus.Drained]) rfl rfl rfl rfl fun _ => rfl
  case resetClear ok =>
    cases ok with
    | false => exact h.congr rfl rfl (.inl rfl)
    | true => exact hclear _ (by simp [he, Bus.Drained]) rfl rfl rfl rfl fun _ => rfl
  case remapAllocate layout =>
    refine hclear _ (by simp [he, Bus.Drained]) rfl rfl ?_ ?_ ?_ <;>
      simp only [BusAction.next, Ring.allocate] <;> split <;> simp [Ring.clear]
  all_goals exact h.congr rfl rfl (.inl rfl)

/-! ### What a reader can count on -/

/-- The action puts a new ring in place of the old one. -/
def Replaces : Action → Prop
  | .bus .scanClear | .bus (.resetClear true) | .bus (.remapAllocate _) => True
  | _ => False

/-- Recorded cycles are only ever added at the head and dropped at the other end. -/
structure Ring.Grows (r r' : Ring) : Prop where
  oldest : r.base + r.oldestValidSeq ≤ r'.base + r'.oldestValidSeq
  head : r'.base = r.base ∧ r.head ≤ r'.head ∨ r.base + r.head ≤ r'.base

theorem Ring.oldestValidSeq_le (r : Ring) : r.oldestValidSeq ≤ r.head := by
  unfold Ring.oldestValidSeq
  split <;> omega

theorem Ring.Grows.refl (r : Ring) : r.Grows r := ⟨Nat.le_refl _, .inl ⟨rfl, Nat.le_refl _⟩⟩

/-- The ring stays where it is, and only its head moves. -/
theorem ring_next (hn : ¬ Replaces a) :
    (next s a).ring.base = s.ring.base ∧ (next s a).ring.capacity = s.ring.capacity := by
  cases a with
  | rt a => cases a <;> exact ⟨rfl, rfl⟩
  | pauser t a => simp [next]
  | bus a =>
    cases a with
    | scanClear => exact absurd trivial hn
    | remapAllocate layout => exact absurd trivial hn
    | resetClear ok =>
      cases ok
      · exact ⟨rfl, rfl⟩
      · exact absurd trivial hn
    | _ => exact ⟨rfl, rfl⟩

theorem head_next (h : Recording s) (he : Enabled s a) (hn : ¬ Replaces a) :
    (next s a).ring.head = s.ring.head ∨
      (next s a).ring.head = s.ring.head + 1 ∧ s.rt.MidWrite ∧ ¬ (next s a).rt.MidWrite := by
  cases a with
  | rt a =>
    cases a with
    | ringAdvance g image set seq =>
      have hrt : s.rt = .exchange g (.written image set seq) := he
      refine .inr ⟨?_, by rw [hrt]; trivial, id⟩
      rw [← (h.written g image set seq hrt).1]
      rfl
    | _ => exact .inl rfl
  | pauser t a => exact .inl (by simp [next])
  | bus a =>
    cases a with
    | scanClear => exact absurd trivial hn
    | remapAllocate layout => exact absurd trivial hn
    | resetClear ok =>
      cases ok
      · exact .inl rfl
      · exact absurd trivial hn
    | _ => exact .inl rfl

theorem grows_next (h : Recording s) (he : Enabled s a) :
    s.ring.Grows (next s a).ring := by
  by_cases hr : Replaces a
  · have hcycles : s.ring.base + s.ring.head ≤ s.cycles := by
      rw [h.cycles]
      omega
    have hold := s.ring.oldestValidSeq_le
    have hbase : (next s a).ring.base = s.cycles := by
      unfold Replaces at hr
      split at hr
      · rfl
      · rfl
      · simp only [next, BusAction.next, Ring.allocate]
        split <;> rfl
      · exact hr.elim
    exact ⟨by omega, .inr (by omega)⟩
  · obtain ⟨hb, hc⟩ := ring_next (s := s) hr
    have hhead : s.ring.head ≤ (next s a).ring.head := by
      rcases head_next h he hr with hh | ⟨hh, -⟩ <;> omega
    refine ⟨?_, .inl ⟨hb, hhead⟩⟩
    rw [hb, Ring.oldestValidSeq, Ring.oldestValidSeq, hc]
    split <;> split <;> omega

/-- The record for `seq` is in its slot, and not about to be overwritten. -/
def Readable (s : State) (seq : ℕ) : Prop :=
  s.ring.head ≤ seq + s.ring.capacity ∧ (s.rt.MidWrite → s.ring.head < seq + s.ring.capacity)

theorem Readable.readRecord (hr : Recording s) (h : Readable s seq)
    (hs : seq < s.ring.head) : ∃ rec, s.ring.readRecord seq = some rec ∧
      rec.cycle = s.ring.base + seq := by
  obtain ⟨rec, hrec, rfl⟩ := hr.present seq hs h.1 h.2
  have hcap : s.ring.capacity ≠ 0 := by
    have := h.1
    omega
  refine ⟨rec, ?_, hr.record _ rec hrec⟩
  rw [Ring.readRecord, if_neg hcap, hrec]
  simp

/-- Only the first store of the record that takes its slot ends that. -/
theorem Readable.next (hr : Recording s) (he : Enabled s a) (hn : ¬ Replaces a)
    (h : Readable s seq)
    (hi : ∀ g image set, a = .rt (.ringInvalidate g image set) →
      s.ring.head < seq + s.ring.capacity) : Readable (next s a) seq := by
  obtain ⟨-, hc⟩ := ring_next (s := s) hn
  rcases head_next hr he hn with hh | ⟨hh, hmid, hnot⟩
  · refine ⟨by rw [hh, hc]; exact h.1, fun hm => ?_⟩
    rw [hh, hc]
    cases a with
    | rt a =>
      rcases midWrite_rt he hm with hm | ⟨g, image, set, rfl⟩
      · exact h.2 hm
      · exact hi g image set rfl
    | pauser t a => exact h.2 (by simpa [DeviceManager.next] using hm)
    | bus a => exact h.2 (by simpa [DeviceManager.next] using hm)
  · refine ⟨?_, fun hm => absurd hm hnot⟩
    have := h.2 hmid
    omega

/-! ### Written under the image in force -/

def Exchange.image : Exchange → Option Image
  | .raised | .backOut => none
  | .composing image | .exchanging image _ | .writing image _ _ _ | .written image _ _
  | .decoding image _ => some image

def Rt.image : Rt → Option Image
  | .exchange _ stage => stage.image
  | _ => none

/-- The ring is new and its image not yet published. -/
def Bus.Fresh : Bus → Prop
  | .allocated _ | .retained _ => True
  | _ => False

/-- Wherever an image is found: cycles are or were recorded under it. -/
inductive Circulates (s : State) (image : Image) : Prop
  | published (h : s.image = some image)
  | loaned (t : ℕ) (h : (s.pausers t).previous = some image)
  | running (h : s.rt.image = some image)
  | recorded (slot : ℕ) (rec : Recorded) (h : s.ring.slots slot = some rec)
      (hi : rec.image = image)

/-- One image at a time, and none while its ring is new. -/
structure InForce (s : State) : Prop where
  sole : ∀ image image', Circulates s image → Circulates s image' → image = image'
  fresh : s.bus.Fresh → ∀ slot, s.ring.slots slot = none

theorem Rt.inBody_of_image {image : Image} (h : r.image = some image) : r.InBody := by
  cases r with
  | exchange g stage =>
    cases stage <;> simp_all [Rt.image, Exchange.image, Rt.InBody, Exchange.Entered]
  | _ => simp [Rt.image] at h

theorem Rt.image_caller (g : Bool) : (Rt.caller g).image = none := by cases g <;> rfl

theorem Bus.Fresh.drained {b : Bus} (h : b.Fresh) : b.Drained := by
  cases b <;> simp_all [Bus.Fresh, Bus.Drained]

theorem inForce_initial : InForce State.initial := by
  refine ⟨?_, by simp [State.initial, Bus.Fresh]⟩
  rintro image image' (h | ⟨t, h⟩ | h | ⟨slot, rec, h, -⟩) <;> cases h

theorem image_rt {a : RtAction} (he : a.Enabled s) {image : Image}
    (h : (a.next s).rt.image = some image) : s.rt.image = some image ∨ s.image = some image := by
  cases a <;> simp only [RtAction.Enabled] at he
  case guardLoad =>
    simp only [RtAction.next] at h
    split at h <;> cases h
  case exchangeLoad g =>
    simp only [RtAction.next] at h
    cases hi : s.image <;> rw [hi] at h
    · cases h
    · exact .inr h
  case exchangeBackOut g | exchangeLeave g _ _ =>
    simp only [RtAction.next, Rt.image_caller] at h
    cases h
  case findDevice => exact .inl h
  case ringSkip | ringInvalidate =>
    rw [he.1]
    exact .inl h
  case loadSet | ringPublish | ringAdvance =>
    rw [he]
    exact .inl h
  all_goals cases h

theorem slots_rt {a : RtAction} (he : a.Enabled s) {rec : Recorded}
    (h : (a.next s).ring.slots slot = some rec) :
    s.ring.slots slot = some rec ∨ s.rt.image = some rec.image := by
  cases a with
  | ringInvalidate g image set =>
    by_cases hs : slot = s.ring.head % s.ring.capacity
    · simp [RtAction.next, Ring.invalidate, hs] at h
    · simp only [RtAction.next, Ring.invalidate, Function.update_of_ne hs] at h
      exact .inl h
  | ringPublish g image set seq slot' frame =>
    have hrt : s.rt = .exchange g (.writing image set seq slot') := he
    by_cases hs : slot = slot'
    · simp only [RtAction.next, Ring.publish, hs, Function.update_self, Option.some.injEq] at h
      rw [hrt, ← h]
      exact .inr rfl
    · simp only [RtAction.next, Ring.publish, Function.update_of_ne hs] at h
      exact .inl h
  | _ => exact .inl h

theorem circulates_rt {a : RtAction} (he : a.Enabled s) {image : Image}
    (h : Circulates (a.next s) image) : Circulates s image := by
  cases h with
  | published h => exact .published (by rwa [rt_image] at h)
  | loaned t h => exact .loaned t (by rwa [rt_pausers] at h)
  | running h => exact (image_rt he h).elim .running .published
  | recorded slot rec h hi =>
    exact (slots_rt he h).elim (.recorded slot rec · hi) fun h => .running (hi ▸ h)

theorem circulates_pauser {t : ℕ} {a : PauserAction} (he : a.Enabled s t) {image : Image}
    (h : Circulates (a.next s t) image) : Circulates s image := by
  cases h with
  | published h => exact (image_pauser he h).elim .published (.loaned t)
  | loaned u h => exact (previous_pauser he h).elim (.loaned u) .published
  | running h => exact .running (by rwa [pauser_rt] at h)
  | recorded slot rec h hi => exact .recorded slot rec (by rwa [pauser_ring] at h) hi

theorem slots_bus {a : BusAction} {rec : Recorded}
    (h : (a.next s).ring.slots slot = some rec) : s.ring.slots slot = some rec := by
  cases a with
  | scanClear => cases h
  | resetClear ok =>
    cases ok with
    | false => exact h
    | true => cases h
  | remapAllocate layout =>
    simp only [BusAction.next, Ring.allocate] at h
    split at h <;> cases h
  | _ => exact h

theorem circulates_bus {a : BusAction} (hn : ∀ image, a ≠ .remapStore image) {image : Image}
    (h : Circulates (a.next s) image) : Circulates s image := by
  cases h with
  | published h =>
    refine .published ?_
    cases a with
    | pause op => cases h
    | remapStore image' => exact absurd rfl (hn image')
    | _ => exact h
  | loaned t h => exact .loaned t (by rwa [bus_pausers] at h)
  | running h => exact .running (by rwa [bus_rt] at h)
  | recorded slot rec h hi => exact .recorded slot rec (slots_bus h) hi

theorem circulates_next (he : Enabled s a)
    (hn : ∀ image, a ≠ .bus (.remapStore image)) {image : Image}
    (h : Circulates (next s a) image) : Circulates s image := by
  cases a with
  | rt a => exact circulates_rt he h
  | pauser t a => exact circulates_pauser he h
  | bus a => exact circulates_bus (fun image' ha => hn image' (by rw [ha])) h

/-- The operation has drained the real-time thread and emptied the ring by then. -/
theorem not_circulates (hf : Found s) (h : InForce s) (hb : s.bus.Fresh) {image : Image} :
    ¬ Circulates s image := by
  obtain ⟨hi, hp⟩ := hf.unpublished hb.drained.pausing
  rintro (hc | ⟨t, hc⟩ | hc | ⟨slot, rec, hc, -⟩)
  · simp [hi] at hc
  · simp [hp] at hc
  · exact hf.drained hb.drained (Rt.inBody_of_image hc)
  · simp [h.fresh hb] at hc

theorem fresh_next (hf : Found s) (h : InForce s) (he : Enabled s a)
    (hb : (next s a).bus.Fresh) (slot : ℕ) : (next s a).ring.slots slot = none := by
  by_contra hne
  obtain ⟨rec, hr⟩ := Option.ne_none_iff_exists'.mp hne
  cases a with
  | rt a =>
    simp only [next, rt_bus] at hb
    exact not_circulates hf h hb (circulates_rt he (.recorded slot rec hr rfl))
  | pauser t a =>
    simp only [next, pauser_bus, pauser_ring] at hb hr
    simp [h.fresh hb] at hr
  | bus a =>
    cases a with
    | remapAllocate layout =>
      simp only [next, BusAction.next, Ring.allocate] at hr
      split at hr <;> cases hr
    | remapRetain layout =>
      have hbus : s.bus = .allocated layout := he
      have hr : s.ring.slots slot = some rec := hr
      simp [h.fresh (by simp [hbus, Bus.Fresh])] at hr
    | initFail capacity =>
      have hbus : s.bus = .idle := he.1
      simp [next, BusAction.next, hbus, Bus.Fresh] at hb
    | _ => exact hb.elim

theorem inForce_step (hf : Found s) (h : InForce s) (he : Enabled s a) :
    InForce (next s a) := by
  refine ⟨fun i j hi hj => ?_, fresh_next hf h he⟩
  by_cases hn : ∃ image, a = .bus (.remapStore image)
  · obtain ⟨image, rfl⟩ := hn
    have hbus : s.bus = .retained image := he
    have hnone : ∀ {i}, Circulates (next s (.bus (.remapStore image))) i → image = i := by
      intro i hi
      have hno : ¬ Circulates s i := not_circulates hf h (by simp [hbus, Bus.Fresh])
      cases hi with
      | published h => exact Option.some.inj h
      | loaned t h => exact absurd (.loaned t h) hno
      | running h => exact absurd (.running h) hno
      | recorded slot rec h hi => exact absurd (.recorded slot rec h hi) hno
    exact (hnone hi).symm.trans (hnone hj)
  · have hn : ∀ image, a ≠ .bus (.remapStore image) := fun image ha => hn ⟨image, ha⟩
    exact h.sole i j (circulates_next he hn hi) (circulates_next he hn hj)

/-! ### Every run -/

/-- What every run keeps in which no operation starts over a loan. -/
structure Recorder (s : State) : Prop where
  found : Found s
  recording : Recording s
  inForce : InForce s

theorem recorder_initial : Recorder State.initial :=
  ⟨found_initial, recording_initial, inForce_initial⟩

theorem recorder_step (h : Recorder s) (he : Enabled s a) (hc : StartsAlone s a) :
    Recorder (next s a) := by
  refine ⟨found_step h.found he hc, ?_, inForce_step h.found h.inForce he⟩
  cases a with
  | rt a => exact recording_rt h.recording he
  | pauser t a =>
    refine h.recording.congr (pauser_ring s t a) ?_ (.inl (pauser_rt s t a))
    cases a <;> rfl
  | bus a => exact recording_bus h.found h.recording he

theorem recorder_reachable (h : system.ReachableUnder StartsAlone s) : Recorder s :=
  h.invariant recorder_initial fun _ _ => recorder_step

end MotionMaster.DeviceManager
