import Mathlib.Data.List.Nodup
import Mathlib.Data.List.Perm.Subperm
import MotionMaster.Device.Value
import MotionMaster.Lib.Interleaving

/-!
# Reading an object dictionary

`SoemFieldbusDriver::readObjectDictionary` as a machine that takes one step per transfer. A transfer
is an SDO Info request with its retries, and its answers are chosen by the slave. The subindex is an
8-bit counter. The check that ends it at 255 comes after an entry has been stored, and the paths
that store none go past it.
-/

namespace MotionMaster.Dictionary

open Interleaving

/-! ### Transfers -/

def kSdoInfoMaxRetries : ℕ := 10

/-- Microseconds. -/
def kProbeRefusalBudget : ℕ := 100000

def EC_NOFRAME : Int := -1

def EC_TIMEOUT : Int := -5

def kObjectCodeArray : BitVec 8 := 0x08

def kObjectCodeRecord : BitVec 8 := 0x09

/-- One request, and what the error list says if it failed. -/
structure Attempt where
  wkc : Int
  nonexistent : Bool := false
  reason : String := ""

structure SdoInfoResult where
  wkc : Int := 0
  attempts : ℕ := 0
  reason : String := ""
  doesNotExist : Bool := false

def SdoInfoResult.ok (r : SdoInfoResult) : Bool := 0 < r.wkc

def SdoInfoResult.attempt (r : SdoInfoResult) (a : Attempt) : SdoInfoResult :=
  if a.wkc ≤ 0 then
    { wkc := a.wkc
      attempts := r.attempts + 1
      reason := if r.reason = "" then a.reason else r.reason
      doesNotExist := a.nonexistent }
  else { r with wkc := a.wkc, attempts := r.attempts + 1 }

/-- The loop, with as many attempts left as the number says. -/
def retryLoop (answers : ℕ → Attempt) : ℕ → SdoInfoResult → SdoInfoResult
  | 0, r => r
  | left + 1, r =>
    let r := r.attempt (answers r.attempts)
    if r.ok || r.doesNotExist then r else retryLoop answers left r

def retrySdoInfo (answers : ℕ → Attempt) (maxRetries : ℕ) : SdoInfoResult :=
  retryLoop answers (maxRetries + 1) {}

def sdoInfoFailureDetail (r : SdoInfoResult) (elapsed : ℕ) : String :=
  s!" after {r.attempts} attempt(s) in {elapsed / 1000} ms (wkc {r.wkc}){r.reason}"

def listFailure (slavePosition : ℕ) (r : SdoInfoResult) (elapsed : ℕ) : String :=
  s!"readODlist slave {slavePosition} failed" ++ sdoInfoFailureDetail r elapsed

def descriptionFailure (slavePosition : ℕ) (index : BitVec 16) (r : SdoInfoResult) (elapsed : ℕ) :
    String :=
  s!"readODdescription slave {slavePosition} index 0x" ++ hexDigits 4 index.toNat ++ " failed" ++
    sdoInfoFailureDetail r elapsed

structure SdoInfoCounters where
  failed : ℕ := 0
  retries : ℕ := 0
  noReply : ℕ := 0
  noFrame : ℕ := 0
  zeroWkc : ℕ := 0
  probes : ℕ := 0
  absent : ℕ := 0

namespace SdoInfoCounters

def addProbe (c : SdoInfoCounters) (r : SdoInfoResult) : SdoInfoCounters :=
  { c with probes := c.probes + 1, retries := c.retries + (r.attempts - 1) }

def add (c : SdoInfoCounters) (r : SdoInfoResult) : SdoInfoCounters :=
  let c := { c with retries := c.retries + (r.attempts - 1) }
  if r.ok then c
  else if r.doesNotExist then { c with absent := c.absent + 1 }
  else
    { c with
      failed := c.failed + 1
      noReply := if r.wkc = EC_TIMEOUT then c.noReply + 1 else c.noReply
      noFrame := if r.wkc = EC_NOFRAME then c.noFrame + 1 else c.noFrame
      zeroWkc := if r.wkc = 0 then c.zeroWkc + 1 else c.zeroWkc }

end SdoInfoCounters

/-! ### The machine -/

/-- The row that an answer to Get Entry Description fills. -/
structure Descriptor where
  dataType : BitVec 16 := 0
  bitLength : BitVec 16 := 0
  access : BitVec 16 := 0
  name : String := ""

structure OdEntry where
  index : BitVec 16
  subindex : BitVec 8
  objectCode : BitVec 8
  dataType : BitVec 16
  bitLength : BitVec 16
  access : BitVec 16
  name : String

/-- What the slave answers to one transfer, whichever it is. -/
structure Reply where
  answers : ℕ → Attempt
  elapsed : ℕ := 0
  listed : List (BitVec 16) := []
  objectCode : BitVec 8 := 0
  maxSub : BitVec 8 := 0
  descriptor : Descriptor := {}

/-- What a transfer for a subindex comes to: an entry, an empty descriptor or an abort within the
reported size, no answer, or the end of the probes past that size. -/
inductive Outcome where
  | described
  | empty
  | absent
  | lost
  | ended
  deriving DecidableEq

inductive Phase where
  | listing
  | checking
  | describing
  | reading (objectCode maxSub sub : BitVec 8)
  | done
  | failed (message : String)
  deriving DecidableEq

/-- One transfer for a subindex of the object at a position of the list. -/
structure Asked where
  position : ℕ
  subindex : BitVec 8
  outcome : Outcome
  deriving DecidableEq

structure State where
  phase : Phase := .listing
  listed : List (BitVec 16) := []
  position : ℕ := 0
  /-- The object code and the highest subindex of each object described so far. -/
  described : List (BitVec 8 × BitVec 8) := []
  probeDeclaredSize : Bool := false
  /-- The entries, each with the position of its object. -/
  entries : List (ℕ × OdEntry) := []
  counters : SdoInfoCounters := {}
  requests : ℕ := 0
  log : List Asked := []

/-- The highest index from 0x2000 to 0x5FFF that is not listed, searched from `0x2000 + n` down. -/
def absentIndex (listed : List (BitVec 16)) : ℕ → Option (BitVec 16)
  | 0 => if listed.contains 0x2000 then none else some 0x2000
  | n + 1 =>
    if listed.contains (BitVec.ofNat 16 (0x2000 + (n + 1))) then absentIndex listed n
    else some (BitVec.ofNat 16 (0x2000 + (n + 1)))

def examine (probing : Bool) (result : SdoInfoResult) (descriptor : Descriptor) : Outcome :=
  if result.ok = false then
    if probing = false ∧ result.doesNotExist = true then .absent
    else if probing then .ended else .lost
  else if descriptor.bitLength = 0 then
    if probing then .ended else .empty
  else .described

namespace State

/-- The head of the loop over the objects. -/
def toObject (s : State) (i : ℕ) : State :=
  { s with position := i, phase := if i < s.listed.length then .describing else .done }

def toSubindex (s : State) (objectCode maxSub sub : BitVec 8) : State :=
  let hasSubindices := objectCode = kObjectCodeArray ∨ objectCode = kObjectCodeRecord
  if maxSub < sub ∧ ¬ (hasSubindices ∧ s.probeDeclaredSize = true) then s.toObject (s.position + 1)
  else { s with phase := .reading objectCode maxSub sub }

def record (s : State) (maxSub sub : BitVec 8) (result : SdoInfoResult) (o : Outcome) : State :=
  let counters :=
    if maxSub < sub then s.counters.addProbe result else s.counters.add result
  { s with
    requests := s.requests + result.attempts
    counters := if o = .empty then { counters with absent := counters.absent + 1 } else counters
    log := s.log ++ [⟨s.position, sub, o⟩] }

def store (s : State) (objectCode sub : BitVec 8) (d : Descriptor) : State :=
  { s with
    entries := s.entries ++ [(s.position, ⟨s.listed.getD s.position 0, sub, objectCode, d.dataType,
      d.bitLength, d.access, d.name⟩)] }

def read (s : State) (objectCode maxSub sub : BitVec 8) (r : Reply) : State :=
  let probing : Bool := maxSub < sub
  let result := retrySdoInfo r.answers (if probing then 0 else kSdoInfoMaxRetries)
  let o := examine probing result r.descriptor
  let s := s.record maxSub sub result o
  match o with
  | .absent | .lost | .empty => s.toSubindex objectCode maxSub (sub + 1)
  | .ended =>
    { s with
      probeDeclaredSize := if result.ok = false ∧ kProbeRefusalBudget < r.elapsed then false
        else s.probeDeclaredSize }.toObject (s.position + 1)
  | .described =>
    let s := s.store objectCode sub r.descriptor
    if sub = 255 then s.toObject (s.position + 1) else s.toSubindex objectCode maxSub (sub + 1)

end State

def next (slavePosition : ℕ) (s : State) (r : Reply) : State :=
  let result := retrySdoInfo r.answers kSdoInfoMaxRetries
  match s.phase with
  | .listing =>
    let s := { s with requests := s.requests + result.attempts }
    if result.ok then
      let s := { s with listed := r.listed }
      match absentIndex r.listed 0x3FFF with
      | some _ => { s with phase := .checking }
      | none => { s with probeDeclaredSize := false }.toObject 0
    else { s with phase := .failed (listFailure slavePosition result r.elapsed) }
  | .checking =>
    let answer := retrySdoInfo r.answers 0
    { s with
      requests := s.requests + answer.attempts
      probeDeclaredSize := !answer.ok && decide (r.elapsed ≤ kProbeRefusalBudget) }.toObject 0
  | .describing =>
    let s := { s with
      requests := s.requests + result.attempts, counters := s.counters.add result }
    if result.ok then
      { s with described := s.described ++ [(r.objectCode, r.maxSub)] }.toSubindex
        r.objectCode r.maxSub 0
    else
      { s with
        phase := .failed (descriptionFailure slavePosition (s.listed.getD s.position 0) result
          r.elapsed) }
  | .reading objectCode maxSub sub => s.read objectCode maxSub sub r
  | .done => s
  | .failed _ => s

structure OdRead where
  entries : List OdEntry
  missingEntries : ℕ

def State.result (s : State) : Option OdRead :=
  if s.phase = .done then some ⟨s.entries.map (·.2), s.counters.failed⟩ else none

def Enabled (s : State) (_ : Reply) : Prop :=
  match s.phase with
  | .done | .failed _ => False
  | _ => True

instance (s : State) (r : Reply) : Decidable (Enabled s r) := by
  unfold Enabled
  split <;> infer_instance

abbrev system (slavePosition : ℕ) : System State Reply := ⟨{}, Enabled, next slavePosition⟩

/-! ### What is promised -/

def Asked.pair (e : Asked) : ℕ × BitVec 8 := (e.position, e.subindex)

/-- The slave answered for the pair, or said that it does not have it. -/
def State.Settled (s : State) (q : ℕ × BitVec 8) : Prop :=
  ∃ e ∈ s.log, e.pair = q ∧ e.outcome ≠ .lost ∧ e.outcome ≠ .ended

instance (s : State) (q : ℕ × BitVec 8) : Decidable (s.Settled q) := List.decidableBEx _ _

/-- The pair is within the size that its object reports. -/
def State.within (s : State) (q : ℕ × BitVec 8) : Bool :=
  match s.described[q.1]? with
  | some d => q.2 ≤ d.2
  | none => false

def State.pairs (s : State) : List (ℕ × BitVec 8) :=
  ((List.range (256 * s.described.length)).map fun n => (n / 256, BitVec.ofNat 8 n)).filter s.within

structure Accounted (s : State) : Prop where
  finite : s.requests ≤ 11 * (3 + 257 * s.listed.length)
  once : (s.log.map Asked.pair).Nodup
  entries : (s.entries.map fun e => (e.1, e.2.subindex)).Nodup
  missing : ∀ read, s.result = some read →
    read.missingEntries = s.pairs.countP fun q => ¬ s.Settled q

/-- An object that reports 255 as its highest subindex describes an entry there. -/
def DescribesLast (s : State) (r : Reply) : Prop :=
  match s.phase with
  | .reading _ maxSub sub => maxSub = 255 → sub = 255 →
    (retrySdoInfo r.answers kSdoInfoMaxRetries).ok = true ∧ r.descriptor.bitLength ≠ 0
  | _ => True

instance (s : State) (r : Reply) : Decidable (DescribesLast s r) := by
  unfold DescribesLast
  split <;> infer_instance

/-! ### One transfer -/

theorem attempts_retryLoop (answers : ℕ → Attempt) (left : ℕ) (r : SdoInfoResult) :
    (retryLoop answers left r).attempts ≤ r.attempts + left := by
  induction left generalizing r with
  | zero => exact Nat.le_refl _
  | succ left ih =>
    have hone : (r.attempt (answers r.attempts)).attempts = r.attempts + 1 := by
      unfold SdoInfoResult.attempt
      split <;> rfl
    unfold retryLoop
    dsimp only
    split
    · omega
    · have hrest := ih (r.attempt (answers r.attempts))
      omega

theorem attempts_retrySdoInfo (answers : ℕ → Attempt) {maxRetries : ℕ}
    (h : maxRetries ≤ kSdoInfoMaxRetries) : (retrySdoInfo answers maxRetries).attempts ≤ 11 := by
  have hloop := attempts_retryLoop answers (maxRetries + 1) {}
  unfold kSdoInfoMaxRetries at h
  exact hloop.trans (by simp only; omega)

/-- The pairs in the order in which they are asked. -/
def Asked.key (e : Asked) : ℕ := 256 * e.position + e.subindex.toNat

/-- All pairs before the given key have been asked, if their object has them, and no others. -/
structure Counted (s : State) (n : ℕ) : Prop where
  bound : n ≤ 256 * s.described.length
  ordered : (s.log.map Asked.key).Pairwise (· < ·)
  below : ∀ e ∈ s.log, e.key < n
  sized : ∀ e ∈ s.log, ∃ d, s.described[e.position]? = some d ∧
    (e.outcome = .lost → e.subindex ≤ d.2) ∧ (e.outcome = .ended → d.2 < e.subindex)
  covered : ∀ p d k, s.described[p]? = some d → k ≤ d.2.toNat → 256 * p + k < n →
    ∃ e ∈ s.log, e.key = 256 * p + k
  failed : s.counters.failed = s.log.countP fun e => e.outcome = .lost
  entries : (s.entries.map fun e => (e.1, e.2.subindex)).Sublist (s.log.map Asked.pair)

section Counting

variable {s : State} {n j : ℕ} {objectCode maxSub sub : BitVec 8} {result : SdoInfoResult}
  {descriptor : Descriptor} {o : Outcome}

/-- Only the objects, the log, the entries and the failures are counted. -/
theorem Counted.congr {t : State} (h : Counted s n) (hdescribed : t.described = s.described)
    (hlog : t.log = s.log) (hentries : t.entries = s.entries)
    (hfailed : t.counters.failed = s.counters.failed) : Counted t n := by
  constructor
  · rw [hdescribed]
    exact h.bound
  · rw [hlog]
    exact h.ordered
  · rw [hlog]
    exact h.below
  · rw [hlog, hdescribed]
    exact h.sized
  · rw [hlog, hdescribed]
    exact h.covered
  · rw [hfailed, hlog]
    exact h.failed
  · rw [hentries, hlog]
    exact h.entries

theorem position_lt {d : BitVec 8 × BitVec 8} (h : s.described[s.position]? = some d) :
    s.position < s.described.length :=
  (List.getElem?_eq_some_iff.mp h).1

theorem examine_lost_iff (probing : Bool) (result : SdoInfoResult) (descriptor : Descriptor) :
    examine probing result descriptor = .lost ↔
      probing = false ∧ result.ok = false ∧ result.doesNotExist = false := by
  unfold examine
  cases probing <;> cases result.ok <;> cases result.doesNotExist <;> simp <;> split <;> simp

theorem examine_probing (result : SdoInfoResult) (descriptor : Descriptor) :
    examine true result descriptor = .ended ∨ examine true result descriptor = .described := by
  unfold examine
  cases result.ok
  · exact .inl (by simp)
  · by_cases hlength : descriptor.bitLength = 0
    · exact .inl (by rw [if_neg (by simp), if_pos hlength]; rfl)
    · exact .inr (by rw [if_neg (by simp), if_neg hlength])

theorem examine_ne_ended : examine false result descriptor ≠ .ended := by
  unfold examine
  cases result.ok <;> cases result.doesNotExist <;> simp <;> split <;> simp

theorem failed_add (c : SdoInfoCounters) : (c.add result).failed =
    c.failed + if result.ok = false ∧ result.doesNotExist = false then 1 else 0 := by
  unfold SdoInfoCounters.add
  cases result.ok <;> cases result.doesNotExist <;> simp

theorem failed_record (ho : o = examine (maxSub < sub) result descriptor) :
    (s.record maxSub sub result o).counters.failed =
      s.counters.failed + if o = .lost then 1 else 0 := by
  have hlost := examine_lost_iff (maxSub < sub) result descriptor
  rw [← ho, decide_eq_false_iff_not] at hlost
  have hempty : (s.record maxSub sub result o).counters.failed =
      (if maxSub < sub then s.counters.addProbe result else s.counters.add result).failed := by
    unfold State.record
    dsimp only
    split <;> rfl
  rw [hempty]
  by_cases hprobing : maxSub < sub
  · have hne : o ≠ .lost := fun h => (hlost.mp h).1 hprobing
    rw [if_pos hprobing, if_neg hne]
    rfl
  · rw [if_neg hprobing, failed_add]
    simp only [hlost, hprobing, not_false_eq_true, true_and]

theorem Counted.record (h : Counted s (256 * s.position + sub.toNat))
    (hd : s.described[s.position]? = some (objectCode, maxSub))
    (ho : o = examine (maxSub < sub) result descriptor) :
    Counted (s.record maxSub sub result o) (256 * s.position + sub.toNat + 1) := by
  have hlt := position_lt hd
  have hlog : (s.record maxSub sub result o).log = s.log ++ [⟨s.position, sub, o⟩] := rfl
  refine ⟨?_, ?_, ?_, ?_, ?_, ?_, ?_⟩
  · show _ ≤ 256 * s.described.length
    omega
  · rw [hlog, List.map_append, List.pairwise_append]
    refine ⟨h.ordered, List.pairwise_singleton _ _, ?_⟩
    intro a ha b hb
    obtain ⟨e, he, rfl⟩ := List.mem_map.mp ha
    rw [List.mem_singleton.mp hb]
    exact h.below e he
  · intro e he
    rcases List.mem_append.mp he with he | he
    · exact Nat.lt_succ_of_lt (h.below e he)
    · rw [List.mem_singleton.mp he]
      exact Nat.lt_succ_self _
  · intro e he
    rcases List.mem_append.mp he with he | he
    · exact h.sized e he
    · rw [List.mem_singleton.mp he]
      refine ⟨_, hd, ?_, ?_⟩
      · intro hlost
        have hprobing := ((examine_lost_iff _ _ _).mp (ho.symm.trans hlost)).1
        exact BitVec.not_lt.mp (of_decide_eq_false hprobing)
      · intro hended
        by_contra hprobing
        rw [decide_eq_false hprobing] at ho
        exact examine_ne_ended (ho.symm.trans hended)
  · intro p d k hp hk hkey
    by_cases hlast : 256 * p + k < 256 * s.position + sub.toNat
    · obtain ⟨e, he, hkey⟩ := h.covered p d k hp hk hlast
      exact ⟨e, List.mem_append_left _ he, hkey⟩
    · refine ⟨_, List.mem_append_right _ (List.mem_singleton_self _), ?_⟩
      unfold Asked.key
      dsimp only
      omega
  · rw [failed_record ho, hlog, List.countP_append, ← h.failed, List.countP_singleton]
    simp
  · rw [hlog, List.map_append]
    exact h.entries.trans (List.sublist_append_left _ _)

theorem Counted.store (h : Counted (s.record maxSub sub result .described) n)
    (hentries : (s.entries.map fun e => (e.1, e.2.subindex)).Sublist (s.log.map Asked.pair)) :
    Counted ((s.record maxSub sub result .described).store objectCode sub descriptor) n := by
  refine ⟨h.bound, h.ordered, h.below, h.sized, h.covered, h.failed, ?_⟩
  show List.Sublist (List.map _ (_ ++ [_])) (List.map _ (_ ++ [_]))
  rw [List.map_append, List.map_append]
  exact hentries.append (List.Sublist.refl _)

/-- A described object adds pairs, none of which has been asked. -/
theorem Counted.describe {t : State} (h : Counted s (256 * s.described.length))
    (hdescribed : t.described = s.described ++ [(objectCode, maxSub)]) (hlog : t.log = s.log)
    (hentries : t.entries = s.entries) (hfailed : t.counters.failed = s.counters.failed) :
    Counted t (256 * s.described.length) := by
  constructor
  · rw [hdescribed, List.length_append]
    omega
  · rw [hlog]
    exact h.ordered
  · rw [hlog]
    exact h.below
  · intro e he
    rw [hlog] at he
    obtain ⟨d, hd, hsized⟩ := h.sized e he
    have hlt := (List.getElem?_eq_some_iff.mp hd).1
    rw [hdescribed]
    exact ⟨d, (List.getElem?_append_left hlt).trans hd, hsized⟩
  · intro p d k hp hk hkey
    rw [hdescribed, List.getElem?_append_left (by omega)] at hp
    rw [hlog]
    exact h.covered p d k hp hk hkey
  · rw [hfailed, hlog]
    exact h.failed
  · rw [hentries, hlog]
    exact h.entries

/-- Past the highest subindex of the last object nothing is left to ask. -/
theorem Counted.leave (h : Counted s (256 * s.position + j))
    (hd : s.described[s.position]? = some (objectCode, maxSub)) (hj : maxSub.toNat < j)
    (hle : j ≤ 256) : Counted s (256 * (s.position + 1)) := by
  have hlt := position_lt hd
  refine ⟨by omega, h.ordered, ?_, h.sized, ?_, h.failed, h.entries⟩
  · intro e he
    have hbelow := h.below e he
    omega
  · intro p d k hp hk hkey
    refine h.covered p d k hp hk ?_
    by_cases hpos : p = s.position
    · subst hpos
      rw [hd] at hp
      rw [← Option.some.inj hp] at hk
      dsimp only at hk
      omega
    · omega

end Counting

/-! ### Every state -/

/-- The requests so far, for as many transfers before the first object as the number says. -/
def Frugal (s : State) (before : ℕ) : Prop :=
  s.requests ≤ 11 * (before + s.described.length + s.log.length)

def Enumerating (s : State) : Prop :=
  match s.phase with
  | .listing | .checking => s.described = [] ∧ s.log = [] ∧ s.entries = [] ∧
      s.counters.failed = 0 ∧ s.requests ≤ if s.phase = .checking then 11 else 0
  | .describing => Counted s (256 * s.position) ∧ s.described.length = s.position ∧
      s.position < s.listed.length ∧ Frugal s 2
  | .reading objectCode maxSub sub => Counted s (256 * s.position + sub.toNat) ∧
      s.described.length = s.position + 1 ∧
      s.described[s.position]? = some (objectCode, maxSub) ∧
      s.position < s.listed.length ∧ Frugal s 2
  | .done => Counted s (256 * s.described.length) ∧ s.described.length ≤ s.listed.length ∧
      Frugal s 2
  | .failed _ => (∃ t n, Counted t n ∧ t.described = s.described ∧ t.log = s.log ∧
      t.entries = s.entries) ∧ s.described.length ≤ s.listed.length ∧ Frugal s 3

section Steps

variable {s : State} {i j : ℕ} {objectCode maxSub sub : BitVec 8} {r : Reply}

theorem counted_nil (hlog : s.log = []) (hentries : s.entries = [])
    (hfailed : s.counters.failed = 0) : Counted s 0 := by
  refine ⟨Nat.zero_le _, ?_, ?_, ?_, ?_, ?_, ?_⟩
  · rw [hlog]
    exact List.Pairwise.nil
  · rw [hlog]
    exact fun _ he => absurd he List.not_mem_nil
  · rw [hlog]
    exact fun _ he => absurd he List.not_mem_nil
  · exact fun _ _ _ _ _ hlt => absurd hlt (Nat.not_lt_zero _)
  · rw [hfailed, hlog]
    rfl
  · rw [hentries]
    exact List.nil_sublist _

theorem enumerating_toObject (h : Counted s (256 * i)) (hlen : s.described.length = i)
    (hle : i ≤ s.listed.length) (hfrugal : Frugal s 2) : Enumerating (s.toObject i) := by
  have hcounted : Counted (s.toObject i) (256 * i) := h.congr rfl rfl rfl rfl
  unfold Enumerating
  by_cases hlt : i < s.listed.length
  · have hphase : (s.toObject i).phase = .describing := if_pos hlt
    rw [hphase]
    exact ⟨hcounted, hlen, hlt, hfrugal⟩
  · have hphase : (s.toObject i).phase = .done := if_neg hlt
    have hdone : (s.toObject i).described.length = i := hlen
    rw [hphase]
    rw [hdone]
    exact ⟨hcounted, hle, hfrugal⟩

theorem enumerating_begin (hdescribed : s.described = []) (hlog : s.log = [])
    (hentries : s.entries = []) (hfailed : s.counters.failed = 0) (hrequests : s.requests ≤ 22) :
    Enumerating (s.toObject 0) := by
  refine enumerating_toObject (counted_nil hlog hentries hfailed) ?_ (Nat.zero_le _) ?_
  · exact congrArg List.length hdescribed
  · unfold Frugal
    omega

/-- The last object is left when its highest subindex has been passed. -/
theorem enumerating_leave (h : Counted s (256 * s.position + j))
    (hd : s.described[s.position]? = some (objectCode, maxSub))
    (hlen : s.described.length = s.position + 1) (hlt : s.position < s.listed.length)
    (hfrugal : Frugal s 2) (hj : maxSub.toNat < j) (hle : j ≤ 256) :
    Enumerating (s.toObject (s.position + 1)) :=
  enumerating_toObject (h.leave hd hj hle) hlen hlt hfrugal

theorem enumerating_toSubindex (h : Counted s (256 * s.position + sub.toNat))
    (hd : s.described[s.position]? = some (objectCode, maxSub))
    (hlen : s.described.length = s.position + 1) (hlt : s.position < s.listed.length)
    (hfrugal : Frugal s 2) : Enumerating (s.toSubindex objectCode maxSub sub) := by
  unfold State.toSubindex
  dsimp only
  split
  · next hbreak =>
    exact enumerating_leave h hd hlen hlt hfrugal (BitVec.lt_def.mp hbreak.1)
      (Nat.le_of_lt sub.isLt)
  · exact ⟨h.congr rfl rfl rfl rfl, hlen, hd, hlt, hfrugal⟩

theorem toNat_add_one (h : sub ≠ 255) : (sub + 1).toNat = sub.toNat + 1 := by
  have hne : sub.toNat ≠ 255 := fun heq => h (BitVec.eq_of_toNat_eq heq)
  rw [BitVec.toNat_add, show (1 : BitVec 8).toNat = 1 from rfl]
  omega

/-- At subindex 255 the loop ends, unless the object reports 255 and stores no entry there. -/
theorem toNat_succ {o : Outcome} {result : SdoInfoResult} {descriptor : Descriptor}
    (ho : o = examine (maxSub < sub) result descriptor) (hne : o ≠ .ended) (hne' : o ≠ .described)
    (hlast : maxSub = 255 → sub = 255 → o = .described) :
    (sub + 1).toNat = sub.toNat + 1 := by
  have hsub : sub ≠ 255 := by
    rintro rfl
    by_cases hprobing : maxSub < 255
    · rw [decide_eq_true hprobing] at ho
      rcases examine_probing result descriptor with h | h
      · exact hne (ho.trans h)
      · exact hne' (ho.trans h)
    · refine hne' (hlast (BitVec.eq_of_toNat_eq ?_) rfl)
      have hle : 255 ≤ maxSub.toNat := BitVec.le_def.mp (BitVec.not_lt.mp hprobing)
      show maxSub.toNat = 255
      omega
  exact toNat_add_one hsub

theorem enumerating_read (h : Counted s (256 * s.position + sub.toNat))
    (hlen : s.described.length = s.position + 1)
    (hd : s.described[s.position]? = some (objectCode, maxSub))
    (hlt : s.position < s.listed.length) (hfrugal : Frugal s 2)
    (hc : maxSub = 255 → sub = 255 →
      (retrySdoInfo r.answers kSdoInfoMaxRetries).ok = true ∧ r.descriptor.bitLength ≠ 0) :
    Enumerating (s.read objectCode maxSub sub r) := by
  have hsub := sub.isLt
  have hattempts : (retrySdoInfo r.answers
      (if decide (maxSub < sub) then 0 else kSdoInfoMaxRetries)).attempts ≤ 11 := by
    refine attempts_retrySdoInfo _ ?_
    split
    · exact Nat.zero_le _
    · exact Nat.le_refl _
  have hlast : maxSub = 255 → sub = 255 → examine (maxSub < sub) (retrySdoInfo r.answers
      (if decide (maxSub < sub) then 0 else kSdoInfoMaxRetries)) r.descriptor = .described := by
    rintro rfl rfl
    obtain ⟨hok, hlength⟩ := hc rfl rfl
    unfold examine
    rw [if_neg (by simpa using hok), if_neg hlength]
  unfold State.read
  dsimp only
  generalize retrySdoInfo r.answers (if decide (maxSub < sub) then 0 else kSdoInfoMaxRetries) =
    result at hattempts hlast ⊢
  generalize ho : examine (maxSub < sub) result r.descriptor = o at hlast ⊢
  have hrecord := h.record hd ho.symm
  have hcount : Frugal (s.record maxSub sub result o) 2 := by
    unfold Frugal State.record at *
    simp only [List.length_append, List.length_singleton]
    omega
  -- the next turn of the loop, which the counter reaches without wrapping
  have hcontinue : o ≠ .ended → o ≠ .described →
      Enumerating ((s.record maxSub sub result o).toSubindex objectCode maxSub (sub + 1)) := by
    intro hne hne'
    have hnext := toNat_succ ho.symm hne hne' hlast
    refine enumerating_toSubindex ?_ hd hlen hlt hcount
    rw [hnext]
    exact hrecord
  cases o with
  | absent => exact hcontinue (by decide) (by decide)
  | lost => exact hcontinue (by decide) (by decide)
  | empty => exact hcontinue (by decide) (by decide)
  | ended =>
    obtain ⟨d, hd', -, hprobing⟩ := hrecord.sized ⟨s.position, sub, .ended⟩
      (List.mem_append_right _ (List.mem_singleton_self _))
    rw [show (s.record maxSub sub result .ended).described[s.position]? = _ from hd] at hd'
    obtain rfl := Option.some.inj hd'
    have hpast : maxSub.toNat < sub.toNat + 1 :=
      Nat.lt_succ_of_lt (BitVec.lt_def.mp (hprobing rfl))
    exact enumerating_leave (j := sub.toNat + 1) (hrecord.congr rfl rfl rfl rfl) hd hlen hlt hcount
      hpast hsub
  | described =>
    have hstore : Counted ((s.record maxSub sub result .described).store objectCode sub
        r.descriptor) (256 * s.position + sub.toNat + 1) := hrecord.store h.entries
    dsimp only
    split
    · next hend =>
      have hmax : maxSub.toNat < sub.toNat + 1 := by
        rw [hend]
        exact maxSub.isLt
      exact enumerating_leave (j := sub.toNat + 1) hstore hd hlen hlt hcount hmax hsub
    · next hend =>
      refine enumerating_toSubindex ?_ hd hlen hlt hcount
      rw [toNat_add_one hend]
      exact hstore

theorem enumerating_next {slavePosition : ℕ} (h : Enumerating s) (he : Enabled s r)
    (hc : DescribesLast s r) : Enumerating (next slavePosition s r) := by
  have hattempts := attempts_retrySdoInfo r.answers (Nat.le_refl kSdoInfoMaxRetries)
  have hone := attempts_retrySdoInfo r.answers (Nat.zero_le kSdoInfoMaxRetries)
  unfold Enumerating at h
  unfold next
  cases hphase : s.phase with
  | listing =>
    rw [hphase] at h
    obtain ⟨hdescribed, hlog, hentries, hfailed, hrequests⟩ := h
    rw [if_neg (by decide)] at hrequests
    dsimp only
    split
    · split
      · exact ⟨hdescribed, hlog, hentries, hfailed, by simp only [if_true]; omega⟩
      · refine enumerating_begin hdescribed hlog hentries hfailed ?_
        dsimp only
        omega
    · refine ⟨⟨s, 0, counted_nil hlog hentries hfailed, rfl, rfl, rfl⟩, ?_, ?_⟩
      · simp [hdescribed]
      · unfold Frugal
        dsimp only
        omega
  | checking =>
    rw [hphase] at h
    obtain ⟨hdescribed, hlog, hentries, hfailed, hrequests⟩ := h
    rw [if_pos rfl] at hrequests
    refine enumerating_begin hdescribed hlog hentries hfailed ?_
    dsimp only
    omega
  | describing =>
    rw [hphase] at h
    obtain ⟨hcounted, hlen, hlt, hfrugal⟩ := h
    unfold Frugal at hfrugal
    dsimp only
    split
    · next hok =>
      have hfailed : (s.counters.add (retrySdoInfo r.answers kSdoInfoMaxRetries)).failed =
          s.counters.failed := by
        rw [failed_add, hok]
        rfl
      rw [← hlen] at hcounted
      refine enumerating_toSubindex ?_ ?_ ?_ hlt ?_
      · rw [← hlen]
        exact hcounted.describe rfl rfl rfl hfailed
      · rw [← hlen]
        exact List.getElem?_concat_length
      · simp [hlen]
      · unfold Frugal
        simp only [List.length_append, List.length_singleton]
        omega
    · refine ⟨⟨s, _, hcounted, rfl, rfl, rfl⟩, ?_, ?_⟩
      · exact hlen.le.trans hlt.le
      · unfold Frugal
        dsimp only
        omega
  | reading objectCode maxSub sub =>
    rw [hphase] at h
    obtain ⟨hcounted, hlen, hd, hlt, hfrugal⟩ := h
    unfold DescribesLast at hc
    rw [hphase] at hc
    exact enumerating_read hcounted hlen hd hlt hfrugal hc
  | done =>
    unfold Enabled at he
    rw [hphase] at he
    exact he.elim
  | failed message =>
    unfold Enabled at he
    rw [hphase] at he
    exact he.elim

end Steps

/-! ### Every run -/

section Runs

variable {s : State} {n : ℕ}

theorem Asked.pair_eq_of_key {e f : Asked} (h : e.key = f.key) : e.pair = f.pair := by
  unfold Asked.key at h
  unfold Asked.pair
  have hposition : e.position = f.position := by omega
  have hsubindex : e.subindex.toNat = f.subindex.toNat := by omega
  rw [hposition, BitVec.eq_of_toNat_eq hsubindex]

theorem Counted.once (h : Counted s n) : (s.log.map Asked.pair).Nodup := by
  refine List.Nodup.of_map (fun q => 256 * q.1 + q.2.toNat) ?_
  rw [List.map_map]
  exact h.ordered.imp Nat.ne_of_lt

theorem Counted.length_log (h : Counted s n) : s.log.length ≤ n := by
  have hnodup : (s.log.map Asked.key).Nodup := h.ordered.imp Nat.ne_of_lt
  have hsub : s.log.map Asked.key ⊆ List.range n := by
    intro k hk
    obtain ⟨e, he, rfl⟩ := List.mem_map.mp hk
    exact List.mem_range.mpr (h.below e he)
  have hle := (List.subperm_of_subset hnodup hsub).length_le
  rwa [List.length_map, List.length_range] at hle

theorem nodup_pairs : s.pairs.Nodup := by
  refine List.Nodup.filter _ (List.Nodup.map ?_ List.nodup_range)
  intro a b hab
  have hdiv : a / 256 = b / 256 := (Prod.mk.inj hab).1
  have hmod : a % 256 = b % 256 := congrArg BitVec.toNat (Prod.mk.inj hab).2
  omega

theorem mem_pairs {q : ℕ × BitVec 8} : q ∈ s.pairs ↔ s.within q = true := by
  unfold State.pairs
  rw [List.mem_filter]
  refine and_iff_right_of_imp fun hwithin => ?_
  unfold State.within at hwithin
  split at hwithin
  · next d hd =>
    have hlt := (List.getElem?_eq_some_iff.mp hd).1
    refine List.mem_map.mpr ⟨256 * q.1 + q.2.toNat, List.mem_range.mpr (by omega), ?_⟩
    refine Prod.ext (by dsimp only; omega) (BitVec.eq_of_toNat_eq ?_)
    rw [BitVec.toNat_ofNat]
    omega
  · cases hwithin

/-- At the end the pairs that were lost are those within the sizes that nothing was said about. -/
theorem Counted.missing (h : Counted s (256 * s.described.length)) :
    s.counters.failed = s.pairs.countP fun q => ¬ s.Settled q := by
  have hperm : (s.pairs.filter fun q => ¬ s.Settled q).Perm
      ((s.log.filter fun e => e.outcome = .lost).map Asked.pair) := by
    refine (List.perm_ext_iff_of_nodup (nodup_pairs.filter _)
      (h.once.sublist (List.filter_sublist.map _))).mpr ?_
    intro q
    rw [List.mem_filter, mem_pairs, List.mem_map, decide_eq_true_eq]
    constructor
    · rintro ⟨hwithin, hopen⟩
      unfold State.within at hwithin
      split at hwithin
      · next d hd =>
        have hle : q.2 ≤ d.2 := of_decide_eq_true hwithin
        have hlt := (List.getElem?_eq_some_iff.mp hd).1
        obtain ⟨e, he, hkey⟩ := h.covered q.1 d q.2.toNat hd (BitVec.le_def.mp hle) (by omega)
        have hpair : e.pair = q := Asked.pair_eq_of_key (f := ⟨q.1, q.2, .lost⟩) hkey
        refine ⟨e, List.mem_filter.mpr ⟨he, decide_eq_true ?_⟩, hpair⟩
        by_contra hlost
        refine hopen ⟨e, he, hpair, hlost, fun hended => ?_⟩
        obtain ⟨d', hd', -, hpast⟩ := h.sized e he
        rw [show e.position = q.1 from congrArg Prod.fst hpair, hd] at hd'
        obtain rfl := Option.some.inj hd'
        have hlt' := hpast hended
        rw [show e.subindex = q.2 from congrArg Prod.snd hpair] at hlt'
        exact absurd hle (BitVec.not_le.mpr hlt')
      · cases hwithin
    · rintro ⟨e, he, rfl⟩
      obtain ⟨he, hlost⟩ := List.mem_filter.mp he
      rw [decide_eq_true_eq] at hlost
      obtain ⟨d, hd, hsized, -⟩ := h.sized e he
      constructor
      · unfold State.within
        rw [show s.described[e.pair.1]? = some d from hd]
        exact decide_eq_true (hsized hlost)
      · rintro ⟨f, hf, hpair, hne, -⟩
        have hsame := List.inj_on_of_nodup_map h.once hf he hpair
        exact hne (hsame ▸ hlost)
  rw [h.failed, List.countP_eq_length_filter, List.countP_eq_length_filter, hperm.length_eq,
    List.length_map]

theorem accounted_of_enumerating (h : Enumerating s) : Accounted s := by
  -- in every phase the log is that of a counted state
  have hcounted : (∃ t n, Counted t n ∧ t.described = s.described ∧ t.log = s.log ∧
      t.entries = s.entries) ∧ s.described.length ≤ s.listed.length ∧ Frugal s 3 := by
    unfold Enumerating at h
    cases hphase : s.phase with
    | listing =>
      rw [hphase] at h
      obtain ⟨hdescribed, hlog, hentries, hfailed, hrequests⟩ := h
      refine ⟨⟨s, 0, counted_nil hlog hentries hfailed, rfl, rfl, rfl⟩, by simp [hdescribed], ?_⟩
      rw [if_neg (by decide)] at hrequests
      unfold Frugal
      omega
    | checking =>
      rw [hphase] at h
      obtain ⟨hdescribed, hlog, hentries, hfailed, hrequests⟩ := h
      refine ⟨⟨s, 0, counted_nil hlog hentries hfailed, rfl, rfl, rfl⟩, by simp [hdescribed], ?_⟩
      rw [if_pos rfl] at hrequests
      unfold Frugal
      omega
    | describing =>
      rw [hphase] at h
      obtain ⟨hcounted, hlen, hlt, hfrugal⟩ := h
      refine ⟨⟨s, _, hcounted, rfl, rfl, rfl⟩, by omega, ?_⟩
      unfold Frugal at *
      omega
    | reading objectCode maxSub sub =>
      rw [hphase] at h
      obtain ⟨hcounted, hlen, -, hlt, hfrugal⟩ := h
      refine ⟨⟨s, _, hcounted, rfl, rfl, rfl⟩, by omega, ?_⟩
      unfold Frugal at *
      omega
    | done =>
      rw [hphase] at h
      obtain ⟨hcounted, hle, hfrugal⟩ := h
      refine ⟨⟨s, _, hcounted, rfl, rfl, rfl⟩, hle, ?_⟩
      unfold Frugal at *
      omega
    | failed message =>
      rw [hphase] at h
      exact h
  obtain ⟨⟨t, n, htn, hdescribed, hlog, hentries⟩, hle, hfrugal⟩ := hcounted
  have hlength := htn.length_log
  have hbound := htn.bound
  rw [hlog] at hlength
  rw [hdescribed] at hbound
  refine ⟨?_, hlog ▸ htn.once, ?_, ?_⟩
  · unfold Frugal at hfrugal
    omega
  · have hsub := htn.entries
    rw [hentries, hlog] at hsub
    exact (hlog ▸ htn.once).sublist hsub
  · intro read hread
    unfold State.result at hread
    split at hread
    · next hphase =>
      cases hread
      unfold Enumerating at h
      rw [hphase] at h
      exact h.1.missing
    · cases hread

/-- Every run in which no object that reports 255 fails to describe an entry there. -/
theorem accounted_of_describesLast {slavePosition : ℕ} {s : State}
    (h : (system slavePosition).ReachableUnder DescribesLast s) : Accounted s := by
  refine accounted_of_enumerating (h.invariant ?_ fun _ _ hs he hc => enumerating_next hs he hc)
  exact ⟨rfl, rfl, rfl, rfl, Nat.le_refl _⟩

end Runs

/-! ### Runs of one object -/

def answered : ℕ → Attempt := fun _ => { wkc := 1 }

/-- The list with one object, a refusal of a missing entry, and the description of the object. -/
def opening (objectCode maxSub : BitVec 8) : List Reply :=
  [{ answers := answered, listed := [0x6040] }, { answers := fun _ => { wkc := 0 } },
    { answers := answered, objectCode, maxSub }]

/-- A record that reports 255: subindex 254 is never answered, and 255 is described at the second
attempt. -/
def retried : List Reply :=
  opening 0x09 255 ++
    List.replicate 254 { answers := answered, descriptor := { bitLength := 8 } } ++
    [{ answers := fun _ => { wkc := EC_TIMEOUT } },
      { answers := fun n => { wkc := if n = 0 then EC_TIMEOUT else 1 }
        descriptor := { bitLength := 8 } }]

theorem retried_accounted :
    ((system 1).run (system 1).initial retried).result.map (·.missingEntries) = some 1 ∧
      ((system 1).run (system 1).initial retried).requests = 270 ∧
      Accounted ((system 1).run (system 1).initial retried) := by
  have hf : (system 1).Follows DescribesLast (system 1).initial retried := by
    decide +kernel
  exact ⟨by decide +kernel, by decide +kernel, accounted_of_describesLast ⟨_, hf, rfl⟩⟩

/-- A record that reports 255 and does not have subindex 255: its first subindex is asked again. -/
def wrapping : List Reply :=
  opening 0x09 255 ++
    List.replicate 255 { answers := answered, descriptor := { bitLength := 8 } } ++
    [{ answers := fun _ => { wkc := 0, nonexistent := true } },
      { answers := answered, descriptor := { bitLength := 8 } }]

theorem wrapping_not_accounted : ∃ s, (system 1).Reachable s ∧ ¬ Accounted s := by
  have hf : (system 1).Follows (fun _ _ => True) (system 1).initial wrapping := by
    decide +kernel
  refine ⟨_, ⟨_, hf, rfl⟩, ?_⟩
  intro h
  have htwice : (((system 1).run (system 1).initial wrapping).log.map Asked.pair).count (0, 0) =
      2 := by
    decide +kernel
  have hle := List.nodup_iff_count_le_one.mp h.once (0, 0)
  rw [htwice] at hle
  exact absurd hle (by decide)

end MotionMaster.Dictionary
