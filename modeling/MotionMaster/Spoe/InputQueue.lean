import MotionMaster.Lib.Bytes
import MotionMaster.Lib.Interleaving
import MotionMaster.Lib.RingQueue

/-!
# The input queue

`SpoeInputQueue` with its producer, the exchange thread, and its consumer, the RT thread. Each load
and store of an index and each byte of the storage is an access of its own.
-/

namespace MotionMaster.SpoeInputQueue

open Interleaving RingQueue

abbrev Frame := List (BitVec 8)

/-- What `reset` sets, for a `std::size_t` of `w` bits. -/
structure Layout (w : ℕ) where
  frameBytes : ℕ
  capacity : ℕ
  capacity_lt : capacity < 2 ^ w

/-- Where the storage holds the frame a counter points to. -/
def Layout.slot {w : ℕ} (q : Layout w) (counter : BitVec w) : ℕ :=
  counter.toNat % q.capacity * q.frameBytes

/-- Where the thread that pushes is: outside, with `head` loaded, or copying. -/
inductive Producer (w : ℕ) where
  | idle
  | entered (frame : Frame) (head : BitVec w)
  | copying (frame : Frame) (head : BitVec w) (todo : List (ℕ × BitVec 8))
  deriving DecidableEq

/-- Where the thread that pops and drops is. -/
inductive Consumer (w : ℕ) where
  | idle
  | popping (size : ℕ) (tail : BitVec w)
  | reading (tail : BitVec w) (todo : List ℕ) (frame : Frame)
  | dropping (keep : ℕ) (tail : BitVec w)
  | discarding (tail : BitVec w) (dropped : ℕ)
  deriving DecidableEq

/-- `accepted` are the frames `push` has returned true for, `fates` what became of those that
left. -/
structure State (w : ℕ) where
  storage : ℕ → BitVec 8
  head : BitVec w
  tail : BitVec w
  producer : Producer w
  consumer : Consumer w
  accepted : List Frame
  fates : List (Fate Frame)

inductive Action where
  | push (frame : Frame)
  | checkRoom
  | store
  | publish
  | pop (size : ℕ)
  | checkQueued
  | load
  | retire
  | dropOldest (keep : ℕ)
  | measure
  | discard

def reset (w : ℕ) : State w := ⟨fun _ => 0, 0, 0, .idle, .idle, [], []⟩

section

variable {w : ℕ} (q : Layout w)

def pushStep (s : State w) : Action → Option (State w)
  | .push frame =>
    match s.producer with
    | .idle => some { s with producer := .entered frame s.head }
    | _ => none
  | .checkRoom =>
    match s.producer with
    | .entered frame head =>
      if q.capacity = 0 ∨ q.capacity ≤ (head - s.tail).toNat then some { s with producer := .idle }
      else some { s with
        producer := .copying frame head (Bytes.copy (q.slot head) (frame.take q.frameBytes)) }
    | _ => none
  | .store =>
    match s.producer with
    | .copying frame head ((address, byte) :: todo) => some { s with
        storage := Function.update s.storage address byte
        producer := .copying frame head todo }
    | _ => none
  | .publish =>
    match s.producer with
    | .copying frame head [] => some { s with
        head := head + 1
        producer := .idle
        accepted := s.accepted ++ [frame] }
    | _ => none
  | _ => none

def popStep (s : State w) : Action → Option (State w)
  | .pop size =>
    match s.consumer with
    | .idle => some { s with consumer := .popping size s.tail }
    | _ => none
  | .checkQueued =>
    match s.consumer with
    | .popping size tail =>
      if tail = s.head then some { s with consumer := .idle }
      else some { s with
        consumer := .reading tail (List.range' (q.slot tail) (min size q.frameBytes)) [] }
    | _ => none
  | .load =>
    match s.consumer with
    | .reading tail (address :: todo) frame => some { s with
        consumer := .reading tail todo (frame ++ [s.storage address]) }
    | _ => none
  | .retire =>
    match s.consumer with
    | .reading tail [] frame => some { s with
        tail := tail + 1
        consumer := .idle
        fates := s.fates ++ [Fate.popped frame] }
    | _ => none
  | _ => none

def dropStep (s : State w) : Action → Option (State w)
  | .dropOldest keep =>
    match s.consumer with
    | .idle => some { s with consumer := .dropping keep s.tail }
    | _ => none
  | .measure =>
    match s.consumer with
    | .dropping keep tail =>
      let queued := (s.head - tail).toNat
      if queued ≤ keep then some { s with consumer := .idle }
      else some { s with consumer := .discarding tail (queued - keep) }
    | _ => none
  | .discard =>
    match s.consumer with
    | .discarding tail dropped => some { s with
        tail := tail + BitVec.ofNat w dropped
        consumer := .idle
        fates := s.fates ++ List.replicate dropped Fate.dropped }
    | _ => none
  | _ => none

/-- The step an action takes, if the thread it belongs to is there. -/
def step (s : State w) (a : Action) : Option (State w) :=
  pushStep q s a <|> popStep q s a <|> dropStep s a

abbrev system : System (State w) Action :=
  ⟨reset w, fun s a => (step q s a).isSome, fun s a => (step q s a).getD s⟩

/-- Every frame has the size the queue was reset to. -/
def FullSize (_ : State w) : Action → Prop
  | .push frame => frame.length = q.frameBytes
  | .pop size => size = q.frameBytes
  | _ => True

/-- The counters have not run through their range, or the capacity divides it. -/
def Unwrapped (s : State w) : Action → Prop
  | .push _ => q.capacity ∣ 2 ^ w ∨ s.accepted.length < 2 ^ w
  | _ => True

instance (s : State w) (a : Action) : Decidable (FullSize q s a) := by
  cases a <;> unfold FullSize <;> infer_instance

instance (s : State w) (a : Action) : Decidable (Unwrapped q s a) := by
  cases a <;> unfold Unwrapped <;> infer_instance

/-- What was popped is what was accepted, without what was dropped, and nothing is unaccounted
for. -/
structure Fifo (s : State w) : Prop where
  popped_eq : popped s.fates = survivors s.accepted s.fates
  bounded : (s.head - s.tail).toNat ≤ q.capacity
  counted : s.accepted.length =
    (popped s.fates).length + dropCount s.fates + (s.head - s.tail).toNat

/-- The frame the storage holds for a position. -/
def Layout.frameAt (storage : ℕ → BitVec 8) (n : ℕ) : Frame :=
  (List.range' (n % q.capacity * q.frameBytes) q.frameBytes).map storage

/-- The frame being pushed goes to the next position, and its slot is the one of that position. -/
structure Ready (s : State w) (frame : Frame) (head : BitVec w) : Prop where
  sized : frame.length = q.frameBytes
  current : head = s.head
  exact : q.capacity ∣ 2 ^ w ∨ s.accepted.length < 2 ^ w

/-- While the producer copies there is room, and what it has copied stands. -/
def Pushing (s : State w) : Producer w → Prop
  | .idle => True
  | .entered frame head => Ready q s frame head
  | .copying frame head todo => Ready q s frame head ∧
    s.accepted.length < s.fates.length + q.capacity ∧
    ∃ done, Bytes.copy (s.accepted.length % q.capacity * q.frameBytes) frame = done ++ todo ∧
      ∀ p ∈ done, s.storage p.1 = p.2

/-- What the consumer holds of the frame at the tail, or how many it is about to drop. -/
def Taking (s : State w) : Consumer w → Prop
  | .idle => True
  | .popping size tail => size = q.frameBytes ∧ tail = s.tail
  | .reading tail todo frame => tail = s.tail ∧ s.fates.length < s.accepted.length ∧
    ∃ done, List.range' (s.fates.length % q.capacity * q.frameBytes) q.frameBytes = done ++ todo ∧
      frame = done.map s.storage
  | .dropping _ tail => tail = s.tail
  | .discarding tail dropped => tail = s.tail ∧ s.fates.length + dropped ≤ s.accepted.length

/-- The counters count, and every position between them has its frame in its slot. -/
structure Laid (s : State w) : Prop where
  head : s.head = BitVec.ofNat w s.accepted.length
  tail : s.tail = BitVec.ofNat w s.fates.length
  inOrder : InOrder s.accepted s.fates
  bounded : s.accepted.length ≤ s.fates.length + q.capacity
  exact : q.capacity ∣ 2 ^ w ∨ s.accepted.length ≤ 2 ^ w
  stored : ∀ n, s.fates.length ≤ n → n < s.accepted.length →
    s.accepted[n]? = some (q.frameAt s.storage n)
  pushing : Pushing q s s.producer
  taking : Taking q s s.consumer

variable {q} {s t : State w} {a : Action}

theorem laid_reset : Laid q (reset w) where
  head := rfl
  tail := rfl
  inOrder := inOrder_nil
  bounded := Nat.zero_le _
  exact := .inr (Nat.zero_le _)
  stored n _ hn := by simp [reset] at hn
  pushing := trivial
  taking := trivial

/-- What is queued, as the counters show it. -/
theorem Laid.queued (h : Laid q s) :
    (s.head - s.tail).toNat = s.accepted.length - s.fates.length := by
  have hlt := q.capacity_lt
  have hb := h.bounded
  rw [h.head, h.tail]
  exact toNat_ofNat_sub h.inOrder.1 (by omega)

theorem Laid.slot_tail (h : Laid q s) (hlt : s.fates.length < s.accepted.length) :
    q.slot s.tail = s.fates.length % q.capacity * q.frameBytes := by
  have hexact : q.capacity ∣ 2 ^ w ∨ s.fates.length < 2 ^ w := by
    rcases h.exact with hd | hle
    · exact .inl hd
    · exact .inr (by omega)
  rw [Layout.slot, h.tail, ofNat_mod hexact]

variable {frame : Frame} {head : BitVec w}

theorem Laid.slot_head (h : Laid q s)
    (hr : Ready q s frame head) : q.slot head = s.accepted.length % q.capacity * q.frameBytes := by
  rw [Layout.slot, hr.current, h.head, ofNat_mod hr.exact]

/-! ### What a step of the other thread leaves -/

theorem Pushing.mono {p : Producer w} (h : Pushing q s p) (hh : t.head = s.head)
    (hs : t.storage = s.storage) (ha : t.accepted = s.accepted)
    (hf : s.fates.length ≤ t.fates.length) : Pushing q t p := by
  cases p with
  | idle => trivial
  | entered frame head => exact ⟨h.sized, by rw [hh]; exact h.current, by rw [ha]; exact h.exact⟩
  | copying frame head todo =>
    obtain ⟨hr, hroom, done, hdone, hstored⟩ := h
    refine ⟨⟨hr.sized, by rw [hh]; exact hr.current, by rw [ha]; exact hr.exact⟩, ?_, done, ?_, ?_⟩
    · rw [ha]
      omega
    · rw [ha]
      exact hdone
    · rw [hs]
      exact hstored

theorem Taking.mono {c : Consumer w} (h : Taking q s c) (ht : t.tail = s.tail)
    (hf : t.fates = s.fates) (ha : s.accepted.length ≤ t.accepted.length)
    (hs : s.fates.length < s.accepted.length →
      ∀ address ∈ List.range' (s.fates.length % q.capacity * q.frameBytes) q.frameBytes,
        t.storage address = s.storage address) : Taking q t c := by
  cases c with
  | idle => trivial
  | popping size tail => exact ⟨h.1, by rw [ht]; exact h.2⟩
  | reading tail todo frame =>
    obtain ⟨htail, hlt, done, hdone, hframe⟩ := h
    refine ⟨by rw [ht]; exact htail, by rw [hf]; omega, done, by rw [hf]; exact hdone, ?_⟩
    rw [hframe]
    refine List.map_congr_left fun address hm => (hs hlt address ?_).symm
    rw [hdone]
    exact List.mem_append_left _ hm
  | dropping keep tail =>
    rw [Taking, ht]
    exact h
  | discarding tail dropped =>
    refine ⟨by rw [ht]; exact h.1, ?_⟩
    rw [hf]
    exact Nat.le_trans h.2 ha

/-! ### The producer -/

theorem laid_push (h : Laid q s) (hf : frame.length = q.frameBytes)
    (hu : q.capacity ∣ 2 ^ w ∨ s.accepted.length < 2 ^ w) :
    Laid q { s with producer := .entered frame s.head } :=
  { h with pushing := ⟨hf, rfl, hu⟩ }

theorem laid_checkRoom (h : Laid q s)
    (hp : s.producer = .entered frame head) (hroom : (head - s.tail).toNat < q.capacity) :
    Laid q { s with
      producer := .copying frame head (Bytes.copy (q.slot head) (frame.take q.frameBytes)) } := by
  have hr : Ready q s frame head := by
    have := h.pushing
    rwa [hp] at this
  rw [hr.current, h.queued] at hroom
  refine { h with pushing := ⟨⟨hr.sized, hr.current, hr.exact⟩, ?_, [], ?_, by simp⟩ }
  · show s.accepted.length < s.fates.length + q.capacity
    omega
  · rw [h.slot_head hr, List.take_of_length_le (by rw [hr.sized])]
    rfl

theorem mul_add_ne {i j n k l : ℕ} (hij : i ≠ j) (hk : k < n) (hl : l < n) :
    i * n + k ≠ j * n + l := by
  intro h
  have hi : (i * n + k) / n = i := by
    rw [Nat.mul_comm, Nat.mul_add_div (by omega), Nat.div_eq_of_lt hk, Nat.add_zero]
  have hj : (j * n + l) / n = j := by
    rw [Nat.mul_comm, Nat.mul_add_div (by omega), Nat.div_eq_of_lt hl, Nat.add_zero]
  exact hij (by rw [← hi, ← hj, h])

variable {address : ℕ}

theorem update_of_slot_ne {storage : ℕ → BitVec 8} {n m : ℕ} {b : BitVec 8}
    (hne : n % q.capacity ≠ m % q.capacity)
    (ha : address ∈ List.range' (m % q.capacity * q.frameBytes) q.frameBytes) :
    ∀ other ∈ List.range' (n % q.capacity * q.frameBytes) q.frameBytes,
      Function.update storage address b other = storage other := by
  intro other ho
  obtain ⟨k, hk, rfl⟩ := List.mem_range'.mp ha
  obtain ⟨l, hl, rfl⟩ := List.mem_range'.mp ho
  rw [Nat.one_mul, Nat.one_mul]
  exact Function.update_of_ne (mul_add_ne hne hl hk) _ _

theorem laid_store (h : Laid q s) {byte : BitVec 8}
    {todo : List (ℕ × BitVec 8)} (hp : s.producer = .copying frame head ((address, byte) :: todo)) :
    Laid q { s with
      storage := Function.update s.storage address byte
      producer := .copying frame head todo } := by
  obtain ⟨hr, hroom, done, hdone, hstored⟩ : Pushing q s (.copying frame head _) := hp ▸ h.pushing
  have haddress : address ∈
      List.range' (s.accepted.length % q.capacity * q.frameBytes) q.frameBytes := by
    rw [← hr.sized, ← Bytes.map_fst_copy _ frame, hr.sized, hdone]
    simp
  -- the slot written to is none of those between the counters
  have hother : ∀ n, s.fates.length ≤ n → n < s.accepted.length →
      ∀ other ∈ List.range' (n % q.capacity * q.frameBytes) q.frameBytes,
        Function.update s.storage address byte other = s.storage other := fun n hle hlt =>
    update_of_slot_ne (mod_ne_mod hlt (by omega)) haddress
  refine { h with stored := fun n hle hlt => ?_, pushing := ?_, taking := ?_ }
  · rw [h.stored n hle hlt]
    exact congrArg some (List.map_congr_left fun other ho => (hother n hle hlt other ho).symm)
  · refine ⟨⟨hr.sized, hr.current, hr.exact⟩, hroom, done ++ [(address, byte)], ?_, ?_⟩
    · rw [hdone, List.append_assoc]
      rfl
    · have hn : ((done ++ (address, byte) :: todo).map Prod.fst).Nodup := by
        rw [← hdone, Bytes.map_fst_copy]
        exact List.nodup_range'
      have hheld : ∀ entry ∈ done, s.storage (0 + entry.1) = entry.2 := by simpa using hstored
      simpa using Bytes.holds_store hn hheld
  · exact h.taking.mono rfl rfl le_rfl fun hlt => hother _ le_rfl hlt

theorem laid_publish (h : Laid q s)
    (hp : s.producer = .copying frame head []) :
    Laid q { s with
      head := head + 1
      producer := .idle
      accepted := s.accepted ++ [frame] } := by
  obtain ⟨hr, hroom, done, hdone, hstored⟩ : Pushing q s (.copying frame head _) := hp ▸ h.pushing
  rw [List.append_nil] at hdone
  have hlen : (s.accepted ++ [frame]).length = s.accepted.length + 1 := by simp
  have hcopied : done.map (s.storage ∘ Prod.fst) = done.map Prod.snd :=
    List.map_congr_left fun p hm => hstored p hm
  have hframe : frame = q.frameAt s.storage s.accepted.length := by
    rw [Layout.frameAt, ← hr.sized, ← Bytes.map_fst_copy _ frame, List.map_map, hr.sized, hdone,
      hcopied, ← hdone, Bytes.map_snd_copy]
  refine ⟨?_, h.tail, h.inOrder.push frame, ?_, ?_, fun n hle hlt => ?_, trivial, ?_⟩
  · rw [hr.current, h.head, hlen, BitVec.ofNat_add]
    rfl
  · show (s.accepted ++ [frame]).length ≤ s.fates.length + q.capacity
    omega
  · rw [hlen]
    exact hr.exact
  · rcases Nat.lt_or_ge n s.accepted.length with hold | hnew
    · exact (List.getElem?_append_left hold).trans (h.stored n hle hold)
    · obtain rfl : n = s.accepted.length := by
        have : n < (s.accepted ++ [frame]).length := hlt
        omega
      rw [List.getElem?_concat_length]
      exact congrArg some hframe
  · exact h.taking.mono rfl rfl (by show _ ≤ (s.accepted ++ [frame]).length; omega) fun _ _ _ => rfl

/-! ### The consumer -/

variable {tail : BitVec w}

theorem laid_checkQueued (h : Laid q s) {size : ℕ}
    (hc : s.consumer = .popping size tail) (hne : tail ≠ s.head) :
    Laid q { s with
      consumer := .reading tail (List.range' (q.slot tail) (min size q.frameBytes)) [] } := by
  obtain ⟨hsize, htail⟩ : Taking q s (.popping size tail) := hc ▸ h.taking
  have hlt : s.fates.length < s.accepted.length := by
    rcases Nat.lt_or_eq_of_le h.inOrder.1 with hlt | heq
    · exact hlt
    · exact absurd (by rw [htail, h.tail, h.head, heq]) hne
  refine { h with
    pushing := h.pushing.mono rfl rfl rfl le_rfl
    taking := ⟨htail, hlt, [], ?_, rfl⟩ }
  rw [htail, h.slot_tail hlt, hsize, min_self]
  rfl

theorem laid_load (h : Laid q s) {todo : List ℕ}
    (hc : s.consumer = .reading tail (address :: todo) frame) :
    Laid q { s with consumer := .reading tail todo (frame ++ [s.storage address]) } := by
  obtain ⟨htail, hlt, done, hdone, hframe⟩ : Taking q s (.reading tail _ frame) := hc ▸ h.taking
  refine { h with
    pushing := h.pushing.mono rfl rfl rfl le_rfl
    taking := ⟨htail, hlt, done ++ [address], ?_, ?_⟩ }
  · rw [hdone, List.append_assoc]
    rfl
  · rw [hframe, List.map_append]
    rfl

theorem laid_retire (h : Laid q s)
    (hc : s.consumer = .reading tail [] frame) :
    Laid q { s with
      tail := tail + 1
      consumer := .idle
      fates := s.fates ++ [Fate.popped frame] } := by
  obtain ⟨htail, hlt, done, hdone, hframe⟩ : Taking q s (.reading tail _ frame) := hc ▸ h.taking
  rw [List.append_nil] at hdone
  have hlen : (s.fates ++ [Fate.popped frame]).length = s.fates.length + 1 := by simp
  have hnext : s.accepted[s.fates.length]? = some frame := by
    rw [h.stored _ le_rfl hlt, Layout.frameAt, hdone, hframe]
  refine ⟨h.head, ?_, h.inOrder.pop hnext, ?_, h.exact, fun n hle => ?_, ?_, trivial⟩
  · rw [htail, h.tail, hlen, BitVec.ofNat_add]
    rfl
  · have hb := h.bounded
    show s.accepted.length ≤ (s.fates ++ [Fate.popped frame]).length + q.capacity
    omega
  · have hle : (s.fates ++ [Fate.popped frame]).length ≤ n := hle
    exact h.stored n (by omega)
  · exact h.pushing.mono rfl rfl rfl (by show _ ≤ (s.fates ++ [Fate.popped frame]).length; omega)

theorem laid_measure (h : Laid q s) {keep : ℕ}
    (hc : s.consumer = .dropping keep tail) :
    Laid q { s with consumer := .discarding tail ((s.head - tail).toNat - keep) } := by
  have htail : Taking q s (.dropping keep tail) := hc ▸ h.taking
  have hle := h.inOrder.1
  refine { h with
    pushing := h.pushing.mono rfl rfl rfl le_rfl
    taking := ⟨htail, ?_⟩ }
  show s.fates.length + ((s.head - tail).toNat - keep) ≤ s.accepted.length
  rw [show tail = s.tail from htail, h.queued]
  omega

theorem laid_discard (h : Laid q s) {dropped : ℕ}
    (hc : s.consumer = .discarding tail dropped) :
    Laid q { s with
      tail := tail + BitVec.ofNat w dropped
      consumer := .idle
      fates := s.fates ++ List.replicate dropped Fate.dropped } := by
  obtain ⟨htail, hle⟩ : Taking q s (.discarding tail dropped) := hc ▸ h.taking
  have hlen : (s.fates ++ List.replicate dropped Fate.dropped).length =
      s.fates.length + dropped := by simp
  refine ⟨h.head, ?_, h.inOrder.drop hle, ?_, h.exact, fun n hn => ?_, ?_, trivial⟩
  · rw [htail, h.tail, hlen, BitVec.ofNat_add]
  · have hb := h.bounded
    show s.accepted.length ≤ (s.fates ++ List.replicate dropped Fate.dropped).length + q.capacity
    omega
  · have hn : (s.fates ++ List.replicate dropped Fate.dropped).length ≤ n := hn
    exact h.stored n (by omega)
  · exact h.pushing.mono rfl rfl rfl
      (by show _ ≤ (s.fates ++ List.replicate dropped Fate.dropped).length; omega)

/-! ### Every run -/

theorem laid_step (h : Laid q s) (hs : step q s a = some t) (hf : FullSize q s a)
    (hu : Unwrapped q s a) : Laid q t := by
  cases a <;> simp only [step, pushStep, popStep, dropStep] at hs
  case push frame =>
    split at hs
    · cases hs
      exact laid_push h hf hu
    · cases hs
  case checkRoom =>
    split at hs
    · rename_i frame head hp
      split at hs
      · cases hs
        exact { h with pushing := trivial }
      · cases hs
        exact laid_checkRoom h hp (by omega)
    · cases hs
  case store =>
    split at hs
    · rename_i hp
      cases hs
      exact laid_store h hp
    · cases hs
  case publish =>
    split at hs
    · rename_i hp
      cases hs
      exact laid_publish h hp
    · cases hs
  case pop size =>
    split at hs
    · cases hs
      exact { h with pushing := h.pushing.mono rfl rfl rfl le_rfl, taking := ⟨hf, rfl⟩ }
    · cases hs
  case checkQueued =>
    split at hs
    · rename_i hc
      split at hs
      · cases hs
        exact { h with pushing := h.pushing.mono rfl rfl rfl le_rfl, taking := trivial }
      · rename_i hne
        cases hs
        exact laid_checkQueued h hc hne
    · cases hs
  case load =>
    split at hs
    · rename_i hc
      cases hs
      exact laid_load h hc
    · cases hs
  case retire =>
    split at hs
    · rename_i hc
      cases hs
      exact laid_retire h hc
    · cases hs
  case dropOldest keep =>
    split at hs
    · cases hs
      exact { h with pushing := h.pushing.mono rfl rfl rfl le_rfl, taking := rfl }
    · cases hs
  case measure =>
    split at hs
    · rename_i hc
      split at hs
      · cases hs
        exact { h with pushing := h.pushing.mono rfl rfl rfl le_rfl, taking := trivial }
      · cases hs
        exact laid_measure h hc
    · cases hs
  case discard =>
    split at hs
    · rename_i hc
      cases hs
      exact laid_discard h hc
    · cases hs

theorem Laid.fifo (h : Laid q s) : Fifo q s where
  popped_eq := h.inOrder.popped_eq
  bounded := by
    have hb := h.bounded
    rw [h.queued]
    omega
  counted := by
    have hle := h.inOrder.1
    rw [h.queued, ← length_fates]
    omega

theorem step_checkRoom (hp : s.producer = .entered frame head)
    (hroom : ¬ (q.capacity = 0 ∨ q.capacity ≤ (head - s.tail).toNat)) :
    step q s .checkRoom = some { s with
      producer := .copying frame head (Bytes.copy (q.slot head) (frame.take q.frameBytes)) } := by
  simp only [step, pushStep, hp, if_neg hroom]
  rfl

theorem step_checkQueued {size : ℕ} (hc : s.consumer = .popping size tail)
    (hne : tail ≠ s.head) :
    step q s .checkQueued = some { s with
      consumer := .reading tail (List.range' (q.slot tail) (min size q.frameBytes)) [] } := by
  simp only [step, pushStep, popStep, hc, if_neg hne]
  rfl

theorem reachable_step {C : State w → Action → Prop} (h : (system q).ReachableUnder C s)
    (hs : step q s a = some t) (hC : C s a) : (system q).ReachableUnder C t := by
  have hnext := h.step (show (step q s a).isSome by rw [hs]; rfl) hC
  have ht : (system q).next s a = t := by
    show (step q s a).getD s = t
    rw [hs]
    rfl
  rwa [ht] at hnext

theorem laid_reachable
    (h : (system q).ReachableUnder (fun s a => FullSize q s a ∧ Unwrapped q s a) s) : Laid q s := by
  refine h.invariant laid_reset fun s a hs he hC => ?_
  obtain ⟨t, ht⟩ := Option.isSome_iff_exists.mp he
  show Laid q ((step q s a).getD s)
  rw [ht]
  exact laid_step hs ht hC.1 hC.2

theorem fifo_of_unwrapped
    (h : (system q).ReachableUnder (fun s a => FullSize q s a ∧ Unwrapped q s a) s) : Fifo q s :=
  (laid_reachable h).fifo

end

/-- A pop that finds the queue empty, a push inside the next one, and a drop. -/
def pushInsidePop : List Action :=
  [Action.push [1, 2], Action.checkRoom, Action.store, Action.pop 2, Action.store,
    Action.checkQueued, Action.publish, Action.push [3, 4], Action.checkRoom, Action.pop 2,
    Action.checkQueued, Action.load, Action.store, Action.load, Action.store, Action.retire,
    Action.publish, Action.dropOldest 0, Action.measure, Action.discard]

def pairQueue : Layout 64 := ⟨2, 3, by decide⟩

theorem pushInsidePop_fifo :
    Fifo pairQueue ((system pairQueue).run (reset 64) pushInsidePop) :=
  fifo_of_unwrapped ⟨pushInsidePop, by decide +kernel, rfl⟩

/-! ### A counter that wraps

60 does not divide the range of a 64-bit counter, so at the wrap the slots start again at 0 too
early, while the last 16 frames before it stand in the slots 0 to 15. -/

def kInputQueueLimit : ℕ := 30

/-- The queue of the driver, for a drive with one byte of inputs. -/
def driverQueue : Layout 64 := ⟨1, 2 * kInputQueueLimit, by decide⟩

def atRest (storage : ℕ → BitVec 8) (n m : ℕ) (accepted : List Frame) (fates : List (Fate Frame)) :
    State 64 :=
  ⟨storage, BitVec.ofNat 64 n, BitVec.ofNat 64 m, .idle, .idle, accepted, fates⟩

variable {storage : ℕ → BitVec 8} {n m : ℕ} {accepted : List Frame} {fates : List (Fate Frame)}

theorem push_reachable (b : BitVec 8)
    (h : (system driverQueue).ReachableUnder (FullSize driverQueue)
      (atRest storage n m accepted fates)) (hle : m ≤ n) (hroom : n - m < 60) :
    (system driverQueue).ReachableUnder (FullSize driverQueue)
      (atRest (Function.update storage (driverQueue.slot (BitVec.ofNat 64 n)) b) (n + 1) m
        (accepted ++ [[b]]) fates) := by
  have hq : (BitVec.ofNat 64 n - BitVec.ofNat 64 m).toNat = n - m := toNat_ofNat_sub hle (by omega)
  have hcheck : ¬ (driverQueue.capacity = 0 ∨
      driverQueue.capacity ≤ (BitVec.ofNat 64 n - BitVec.ofNat 64 m).toNat) := by
    rw [hq]
    show ¬ (60 = 0 ∨ 60 ≤ n - m)
    omega
  have hpush := reachable_step (a := .push [b]) h rfl rfl
  have hcopy := reachable_step hpush (step_checkRoom rfl hcheck) trivial
  have hstore := reachable_step (a := .store) hcopy rfl trivial
  have hdone := reachable_step (a := .publish) hstore rfl trivial
  rw [atRest, BitVec.ofNat_add]
  exact hdone

theorem pop_reachable
    (h : (system driverQueue).ReachableUnder (FullSize driverQueue)
      (atRest storage n m accepted fates)) (hlt : m < n) (hlap : n - m < 2 ^ 64) :
    (system driverQueue).ReachableUnder (FullSize driverQueue)
      (atRest storage n (m + 1) accepted
        (fates ++ [Fate.popped [storage (driverQueue.slot (BitVec.ofNat 64 m))]])) := by
  have hne : BitVec.ofNat 64 m ≠ BitVec.ofNat 64 n := by
    intro heq
    have hq := toNat_ofNat_sub (w := 64) (Nat.le_of_lt hlt) hlap
    rw [heq, BitVec.sub_self, BitVec.toNat_zero] at hq
    omega
  have hpop := reachable_step (a := .pop 1) h rfl rfl
  have hread := reachable_step hpop (step_checkQueued rfl hne) trivial
  have hload := reachable_step (a := .load) hread rfl trivial
  have hdone := reachable_step (a := .retire) hload rfl trivial
  rw [atRest, BitVec.ofNat_add]
  exact hdone

/-- The queue at `n`, after each frame was popped before the next was pushed. -/
theorem rounds_reachable (n : ℕ) : ∃ storage accepted fates,
    accepted.length = fates.length ∧ (system driverQueue).ReachableUnder (FullSize driverQueue)
      (atRest storage n n accepted fates) := by
  induction n with
  | zero => exact ⟨fun _ => 0, [], [], rfl, System.reachableUnder_initial⟩
  | succ n ih =>
    obtain ⟨storage, accepted, fates, hlen, h⟩ := ih
    have hpush := push_reachable 0 h le_rfl (by omega)
    have hpop := pop_reachable hpush (by omega) (by omega)
    exact ⟨_, _, _, by simp [hlen], hpop⟩

theorem pushes_reachable (bs : List (BitVec 8))
    (h : (system driverQueue).ReachableUnder (FullSize driverQueue)
      (atRest storage n m accepted fates)) (hle : m ≤ n) (hroom : n - m + bs.length ≤ 60) :
    ∃ storage', (system driverQueue).ReachableUnder (FullSize driverQueue)
      (atRest storage' (n + bs.length) m (accepted ++ bs.map fun b => [b]) fates) := by
  induction bs generalizing n storage accepted with
  | nil => exact ⟨storage, by simpa using h⟩
  | cons b bs ih =>
    rw [List.length_cons] at hroom
    obtain ⟨storage', h'⟩ := ih (push_reachable b h hle (by omega)) (by omega) (by omega)
    refine ⟨storage', ?_⟩
    rw [List.append_assoc, Nat.add_assoc, Nat.add_comm 1] at h'
    exact h'

/-- A frame pushed after the wrap is popped in the place of one pushed before it. -/
theorem not_fifo_atRest {frame other : Frame} (hlen : accepted.length = fates.length)
    (hne : frame ≠ other) (rest : List Frame) :
    ¬ Fifo driverQueue (atRest storage n m (accepted ++ frame :: rest)
      (fates ++ [Fate.popped other])) := by
  intro h
  have hp : popped (fates ++ [Fate.popped other]) =
    survivors (accepted ++ frame :: rest) (fates ++ [Fate.popped other]) := h.popped_eq
  rw [popped_append, survivors_append hlen] at hp
  have hlast := List.append_inj_right' hp (by simp [popped, survivors])
  simp only [popped, survivors, List.cons.injEq, and_true] at hlast
  exact hne hlast.symm

theorem wrap_not_fifo : ¬ ∀ s, (system driverQueue).ReachableUnder (FullSize driverQueue) s →
    Fifo driverQueue s := by
  intro hall
  obtain ⟨storage, accepted, fates, hlen, h⟩ := rounds_reachable (2 ^ 64 - 16)
  have hfirst := push_reachable 1 h le_rfl (by omega)
  obtain ⟨storage', hmiddle⟩ := pushes_reachable (List.replicate 15 0) hfirst (by omega) (by simp)
  have hlast := push_reachable 2 hmiddle (by omega) (by simp)
  have hpop := pop_reachable hlast (by simp) (by simp)
  have hslot : driverQueue.slot (BitVec.ofNat 64 (2 ^ 64 - 16)) =
      driverQueue.slot (BitVec.ofNat 64
        (2 ^ 64 - 16 + 1 + (List.replicate 15 (0 : BitVec 8)).length)) := by
    decide
  rw [hslot, Function.update_self, List.append_assoc, List.append_assoc,
    List.singleton_append] at hpop
  exact not_fifo_atRest hlen (by decide) _ (hall _ hpop)

end MotionMaster.SpoeInputQueue
