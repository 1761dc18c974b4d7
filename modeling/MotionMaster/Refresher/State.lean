import Mathlib.Data.List.MinMax
import Mathlib.Tactic.Linarith
import MotionMaster.Lib.Interleaving

/-!
# The parameter refresher

A pool of workers reads the tracked objects over SDO. The mutex of the refresher makes `acquire`,
`release`, `start`, `stop`, `takeDue` and the end of `poll` one step each. Between `takeDue` and the
end of `poll` a worker reads without the mutex, so everything else can happen there.

Times are nanoseconds of the steady clock, periods are milliseconds as in the source.
-/

namespace MotionMaster.Refresher

def kMinRefreshPeriod : ℤ := 10

def kWorkerCount : ℕ := 4

def kMaxBackoff : ℤ := 2000

/-- Milliseconds as a duration of the clock. -/
def ms (n : ℤ) : ℤ := n * 1000000

def nextBackoff (current period : ℤ) : ℤ :=
  let next := if current = 0 then period else current * 2
  min next kMaxBackoff

structure Object where
  devicePosition : BitVec 16
  index : BitVec 16
  subindex : BitVec 8
  deriving DecidableEq

def makeKey (o : Object) : ℕ :=
  o.devicePosition.toNat <<< 24 ||| o.index.toNat <<< 8 ||| o.subindex.toNat

structure LastPoll where
  readStart : ℤ
  result : Bool
  deriving DecidableEq

/-- An entry of `entries_`. The last four fields record its history: the periods it was acquired
with, its last poll, which entry it is, and the entries of its drive that were polled while it was
due and has not been polled since. -/
structure Entry where
  devicePosition : BitVec 16
  index : BitVec 16
  subindex : BitVec 8
  refCount : ℤ
  period : ℤ
  nextDue : ℤ
  backoff : ℤ
  requested : List ℤ
  lastPoll : Option LastPoll
  serial : ℕ
  passed : List ℕ
  deriving DecidableEq

structure Drive where
  busy : Bool
  openAt : ℤ
  deriving DecidableEq

/-- What `takeDue` hands out, with the entry it was made of. -/
structure Job where
  key : ℕ
  devicePosition : BitVec 16
  index : BitVec 16
  subindex : BitVec 8
  serial : ℕ
  deriving DecidableEq

/-- Where a worker is in `work` and in the `poll` it calls. -/
inductive Phase where
  | waiting
  | taken (job : Job)
  | reading (job : Job) (readStart : ℤ)
  | returning (job : Job) (readStart readEnd : ℤ) (result : Bool)
  deriving DecidableEq

def Phase.job : Phase → Option Job
  | .waiting => none
  | .taken job | .reading job _ | .returning job _ _ _ => some job

structure Poll where
  devicePosition : BitVec 16
  readStart : ℤ
  readEnd : ℤ
  deriving DecidableEq

def Poll.duration (p : Poll) : ℤ := p.readEnd - p.readStart

/-- `workers` are the threads of `workers_`. A thread that `stop` swapped out of it runs on until it
sees the request. `launched`, `created` and `polls` record what has happened. -/
structure State where
  clock : ℤ
  entries : Std.TreeMap ℕ Entry
  drives : BitVec 16 → Option Drive
  workers : List ℕ
  phase : ℕ → Option Phase
  stopRequested : ℕ → Bool
  launched : ℕ
  created : ℕ
  polls : List Poll

namespace Entry

/-- The entry of an object after `acquire` with a period that is not below the floor. -/
def acquired (o : Object) (period : ℤ) (serial : ℕ) : Option Entry → Option Entry
  | none =>
    some
      { devicePosition := o.devicePosition, index := o.index, subindex := o.subindex
        refCount := 1, period, nextDue := 0, backoff := 0
        requested := [period], lastPoll := none, serial, passed := [] }
  | some e =>
    some
      { e with
        refCount := e.refCount + 1
        period := min e.period period
        requested := period :: e.requested }

def released : Option Entry → Option Entry
  | none => none
  | some e => if e.refCount - 1 ≤ 0 then none else some { e with refCount := e.refCount - 1 }

def polled (readStart : ℤ) (result : Bool) (e : Entry) : Entry :=
  if result then
    { e with backoff := 0, nextDue := readStart + ms e.period, lastPoll := some ⟨readStart, true⟩ }
  else
    { e with
      backoff := nextBackoff e.backoff e.period
      nextDue := readStart + ms (nextBackoff e.backoff e.period)
      lastPoll := some ⟨readStart, false⟩ }

/-- The history of an entry when a job is taken: its own, or one that passes it. -/
def pass (job : Job) (now : ℤ) (key : ℕ) (e : Entry) : Entry :=
  if key = job.key then { e with passed := [] }
  else if e.devicePosition = job.devicePosition ∧ e.nextDue ≤ now then
    { e with passed := job.serial :: e.passed }
  else e

def job (key : ℕ) (e : Entry) : Job :=
  { key, devicePosition := e.devicePosition, index := e.index, subindex := e.subindex
    serial := e.serial }

end Entry

namespace State

/-- `drives_[position]`, which makes the drive if there is none. -/
def drive (s : State) (position : BitVec 16) : Drive := (s.drives position).getD ⟨false, 0⟩

def acquire (s : State) (o : Object) (period : ℤ) : State :=
  { s with
    entries := s.entries.alter (makeKey o)
      (Entry.acquired o (max period kMinRefreshPeriod) s.created)
    created := s.created + 1 }

def release (s : State) (o : Object) : State :=
  { s with entries := s.entries.alter (makeKey o) Entry.released }

/-- Threads that have not run before. -/
def launch (s : State) (count : ℕ) : State :=
  { s with
    workers := List.range' s.launched count
    phase := fun w =>
      if s.launched ≤ w ∧ w < s.launched + count then some .waiting else s.phase w
    launched := s.launched + count }

/-- `start` with a pool of the given size. -/
def start (s : State) (count : ℕ) : State := if s.workers ≠ [] then s else s.launch count

def stop (s : State) : State :=
  { s with
    stopRequested := fun w => s.stopRequested w || s.workers.contains w
    workers := [] }

/-- No worker reads the drive of the entry. -/
def isFree (s : State) (e : Entry) : Bool :=
  match s.drives e.devicePosition with
  | none => true
  | some drive => !drive.busy

def dueAt (s : State) (e : Entry) : ℤ :=
  match s.drives e.devicePosition with
  | none => e.nextDue
  | some drive => max e.nextDue drive.openAt

/-- The loop of `takeDue` goes through the entries in the order of their keys and keeps the first
of those that are due earliest. -/
def takeDue (s : State) (now : ℤ) : Option Job :=
  -- with the order named, as of the orders of ℤ not all can be computed with
  match @List.argmin _ ℤ Int.instLinearOrder.toPreorder Int.decLt (fun x => s.dueAt x.2)
    (s.entries.toList.filter fun x => s.isFree x.2) with
  | none => none
  | some (key, e) => if now < s.dueAt e then none else some (e.job key)

def setPhase (s : State) (w : ℕ) (phase : Option Phase) : State :=
  { s with phase := Function.update s.phase w phase }

def setDrive (s : State) (position : BitVec 16) (drive : Drive) : State :=
  { s with drives := Function.update s.drives position (some drive) }

/-- One turn of the loop of `work`, up to the call of `poll`. -/
def take (s : State) (w : ℕ) : State :=
  match s.takeDue s.clock with
  | none => s
  | some job =>
    { (s.setPhase w (some (.taken job))).setDrive job.devicePosition
        { s.drive job.devicePosition with busy := true } with
      entries := s.entries.map fun key e => e.pass job s.clock key }

/-- The end of `poll`. -/
def finish (s : State) (w : ℕ) (job : Job) (readStart readEnd : ℤ) (result : Bool) : State :=
  { (s.setPhase w (some .waiting)).setDrive job.devicePosition
      ⟨false, readEnd + (readEnd - readStart)⟩ with
    entries := s.entries.alter job.key (Option.map (Entry.polled readStart result))
    polls := ⟨job.devicePosition, readStart, readEnd⟩ :: s.polls }

end State

inductive Action where
  | tick (elapsed : ℕ)
  | acquire (o : Object) (period : ℤ)
  | release (o : Object)
  | start
  | stop
  | take (w : ℕ)
  | startRead (w : ℕ) (job : Job)
  | endRead (w : ℕ) (job : Job) (readStart : ℤ) (result : Bool)
  | finish (w : ℕ) (job : Job) (readStart readEnd : ℤ) (result : Bool)
  | exit (w : ℕ)
  deriving DecidableEq

def next (count : ℕ) (s : State) : Action → State
  | .tick elapsed => { s with clock := s.clock + elapsed }
  | .acquire o period => s.acquire o period
  | .release o => s.release o
  | .start => s.start count
  | .stop => s.stop
  | .take w => s.take w
  | .startRead w job => s.setPhase w (some (.reading job s.clock))
  | .endRead w job readStart result =>
    s.setPhase w (some (.returning job readStart s.clock result))
  | .finish w job readStart readEnd result => s.finish w job readStart readEnd result
  | .exit w => s.setPhase w none

def Enabled (s : State) : Action → Prop
  | .tick _ | .acquire _ _ | .release _ | .start | .stop => True
  | .take w => s.phase w = some .waiting ∧ s.stopRequested w = false
  | .startRead w job => s.phase w = some (.taken job)
  | .endRead w job readStart _ => s.phase w = some (.reading job readStart)
  | .finish w job readStart readEnd result =>
    s.phase w = some (.returning job readStart readEnd result)
  | .exit w => s.phase w = some .waiting ∧ s.stopRequested w = true

instance (s : State) (a : Action) : Decidable (Enabled s a) := by
  cases a <;> unfold Enabled <;> infer_instance

/-- A refresher as it is made, with a pool of the given size and the clock at any time. -/
abbrev system (count : ℕ) (clock : ℤ) : Interleaving.System State Action where
  initial :=
    { clock, entries := ∅, drives := fun _ => none, workers := [], phase := fun _ => none
      stopRequested := fun _ => false, launched := 0, created := 0, polls := [] }
  Enabled := Enabled
  next := next count

/-! ### What the functions do -/

namespace State

variable {s : State} {key : ℕ} {e : Entry} {job : Job} {now : ℤ}

theorem mem_entries : (key, e) ∈ s.entries.toList ↔ s.entries[key]? = some e :=
  Std.TreeMap.mem_toList_iff_getElem?_eq_some

/-- A drive nobody has read yet is open. -/
theorem isFree_iff : s.isFree e = true ↔ (s.drive e.devicePosition).busy = false := by
  cases hd : s.drives e.devicePosition <;> simp [isFree, drive, hd]

theorem nextDue_le_dueAt : e.nextDue ≤ s.dueAt e := by
  unfold dueAt
  split
  · exact le_rfl
  · exact le_max_left _ _

theorem openAt_le_dueAt {d : Drive} (hd : s.drives e.devicePosition = some d) :
    d.openAt ≤ s.dueAt e := by
  unfold dueAt
  rw [hd]
  exact le_max_right _ _

theorem drive_of_some {position : BitVec 16} {d : Drive} (hd : s.drives position = some d) :
    s.drive position = d := by
  rw [drive, hd]
  rfl

/-- In a list in strict order, what comes no later is no greater. -/
theorem le_of_idxOf_le {α : Type*} [DecidableEq α] {l : List α} {f : α → ℕ}
    (hl : l.Pairwise fun a b => f a < f b) {a b : α} (ha : a ∈ l) (hb : b ∈ l)
    (h : l.idxOf a ≤ l.idxOf b) : f a ≤ f b := by
  have hia := List.idxOf_lt_length_of_mem ha
  have hib := List.idxOf_lt_length_of_mem hb
  rcases h.lt_or_eq with hlt | heq
  · have hlt' := List.pairwise_iff_getElem.mp hl _ _ hia hib hlt
    rw [List.getElem_idxOf hia, List.getElem_idxOf hib] at hlt'
    exact hlt'.le
  · rw [(List.idxOf_inj ha).mp heq]

theorem entries_sorted : s.entries.toList.Pairwise fun a b => a.1 < b.1 :=
  Std.TreeMap.ordered_keys_toList.imp fun h => Nat.compare_eq_lt.mp h

/-- The entry a job is made of is due, on a free drive, and no entry on a free drive is due earlier.
One that comes before it in the map is due later. -/
theorem takeDue_spec (h : s.takeDue now = some job) :
    ∃ e, s.entries[job.key]? = some e ∧ job = e.job job.key ∧ s.isFree e = true ∧
      s.dueAt e ≤ now ∧
      ∀ key e', s.entries[key]? = some e' → s.isFree e' = true →
        s.dueAt e ≤ s.dueAt e' ∧ (key < job.key → s.dueAt e < s.dueAt e') := by
  unfold takeDue at h
  split at h
  · cases h
  rename_i key e hmin
  rw [Option.ite_none_left_eq_some] at h
  obtain ⟨hdue, h⟩ := h
  cases h
  obtain ⟨hmem, hleast, hfirst⟩ := List.argmin_eq_some_iff.mp hmin
  obtain ⟨he, hfree⟩ := List.mem_filter.mp hmem
  refine ⟨e, mem_entries.mp he, rfl, hfree, not_lt.mp hdue, ?_⟩
  intro key' e' he' hfree'
  have hmem' : (key', e') ∈ s.entries.toList.filter fun x => s.isFree x.2 :=
    List.mem_filter.mpr ⟨mem_entries.mpr he', hfree'⟩
  refine ⟨hleast _ hmem', fun hlt => ?_⟩
  by_contra hle
  have hidx := hfirst _ hmem' (not_lt.mp hle)
  exact absurd (le_of_idxOf_le (entries_sorted.filter _) hmem hmem' hidx) (not_le.mpr hlt)

theorem getElem?_alter (entries : Std.TreeMap ℕ Entry) (k : ℕ)
    (f : Option Entry → Option Entry) :
    (entries.alter k f)[key]? = if k = key then f entries[key]? else entries[key]? := by
  rw [Std.TreeMap.getElem?_alter]
  by_cases h : k = key
  · simp [h]
  · simp [h]

end State

/-- The action is about the entry under the key. A job that is taken goes into the history of every
entry. -/
def Action.Touches (s : State) (key : ℕ) : Action → Prop
  | .acquire o _ | .release o => makeKey o = key
  | .take _ => s.takeDue s.clock ≠ none
  | .finish _ job _ _ _ => job.key = key
  | .tick _ | .start | .stop | .startRead _ _ | .endRead _ _ _ _ | .exit _ => False

/-- What a step makes of the entry under a key: an entry that is there after the step was there
before it, unless it is acquired in the step. -/
inductive EntryStep (s : State) (key : ℕ) : Action → Entry → Prop
  | same {a : Action} {e : Entry} (ha : ¬ a.Touches s key) (h : s.entries[key]? = some e) :
      EntryStep s key a e
  | acquire {o : Object} {period : ℤ} {e : Entry} (hk : makeKey o = key)
      (h : Entry.acquired o (max period kMinRefreshPeriod) s.created s.entries[key]? = some e) :
      EntryStep s key (.acquire o period) e
  | release {o : Object} {e : Entry} (refCount : ℤ) (h : s.entries[key]? = some e) :
      EntryStep s key (.release o) { e with refCount }
  | take {w : ℕ} {job : Job} {e : Entry} (ht : s.takeDue s.clock = some job)
      (h : s.entries[key]? = some e) : EntryStep s key (.take w) (e.pass job s.clock key)
  | finish {w : ℕ} {job : Job} {readStart readEnd : ℤ} {result : Bool} {e : Entry}
      (hk : job.key = key) (h : s.entries[key]? = some e) :
      EntryStep s key (.finish w job readStart readEnd result) (e.polled readStart result)

theorem entry_step {s : State} (count : ℕ) {key : ℕ} (a : Action) {e : Entry}
    (h : (next count s a).entries[key]? = some e) : EntryStep s key a e := by
  cases a with
  | tick _ | stop | startRead _ _ | endRead _ _ _ _ | exit _ => exact .same id h
  | start =>
    simp only [next, State.start] at h
    split_ifs at h
    · exact .same id h
    · exact .same id h
  | acquire o period =>
    simp only [next, State.acquire, State.getElem?_alter] at h
    split_ifs at h with hk
    · exact .acquire hk h
    · exact .same hk h
  | release o =>
    simp only [next, State.release, State.getElem?_alter] at h
    split_ifs at h with hk
    · cases hf : s.entries[key]? with
      | none =>
        rw [hf] at h
        cases h
      | some f =>
        rw [hf, Entry.released, Option.ite_none_left_eq_some] at h
        obtain ⟨-, h⟩ := h
        cases h
        exact .release _ hf
    · exact .same hk h
  | take w =>
    simp only [next, State.take] at h
    split at h
    · rename_i ht
      exact .same (fun hn => hn ht) h
    · rename_i job ht
      rw [Std.TreeMap.getElem?_map, Option.map_eq_some_iff] at h
      obtain ⟨f, hf, rfl⟩ := h
      exact .take ht hf
  | finish w job readStart readEnd result =>
    simp only [next, State.finish, State.getElem?_alter] at h
    split_ifs at h with hk
    · rw [Option.map_eq_some_iff] at h
      obtain ⟨f, hf, rfl⟩ := h
      exact .finish hk hf
    · exact .same hk h

end MotionMaster.Refresher
