import Mathlib.Data.List.Induction
import MotionMaster.Capture.Pcap
import MotionMaster.Lib.Table

/-!
# Summary of a capture

`summarise` pairs the frames a capture saw leave with those it saw come back, and counts how late
they came.
-/

namespace MotionMaster.Capture

/-- The header of a frame's first datagram, as returns are matched by it. -/
structure MatchKey where
  index : BitVec 8
  command : BitVec 8
  adp : BitVec 16
  ado : BitVec 16
  length : BitVec 16
  deriving DecidableEq

def keyOf (d : Datagram) : MatchKey where
  index := d.index
  command := d.command
  adp := if isPositionCountedUp d.command then 0 else d.adp
  ado := d.ado
  length := d.length

def kResendWindowNs : ℤ := 500000000

structure KindSummary where
  sent : BitVec 32 := 0
  resent : BitVec 32 := 0
  returned : BitVec 32 := 0
  lost : BitVec 32 := 0
  over2Ms : BitVec 32 := 0
  over20Ms : BitVec 32 := 0
  over100Ms : BitVec 32 := 0
  latestUs : ℤ := 0

structure Summary where
  frames : BitVec 64 := 0
  notEtherCat : BitVec 64 := 0
  unmatchedReturns : BitVec 64 := 0
  firstNs : ℤ := 0
  lastNs : ℤ := 0
  control : KindSummary := {}
  cyclic : KindSummary := {}

def record (k : KindSummary) (lateNs : ℤ) : KindSummary :=
  let lateUs := lateNs.tdiv 1000
  { k with
    returned := k.returned + 1
    latestUs := if k.latestUs < lateUs then lateUs else k.latestUs
    over2Ms := if 2000 < lateUs then k.over2Ms + 1 else k.over2Ms
    over20Ms := if 20000 < lateUs then k.over20Ms + 1 else k.over20Ms
    over100Ms := if 100000 < lateUs then k.over100Ms + 1 else k.over100Ms }

namespace Summary

def kind (s : Summary) (logical : Bool) : KindSummary := if logical then s.cyclic else s.control

def onKind (s : Summary) (logical : Bool) (f : KindSummary → KindSummary) : Summary :=
  if logical then { s with cyclic := f s.cyclic } else { s with control := f s.control }

end Summary

/-- The unanswered sends under each key, oldest first. -/
abbrev Pending := List (MatchKey × List ℤ)

def Pending.sends (pending : Pending) (key : MatchKey) : List ℤ := Table.get [] pending key

/-- What one record is taken for, with the kind of its frame. -/
inductive Outcome where
  | notEtherCat
  | resent (logical : Bool) (key : MatchKey)
  | sent (logical : Bool) (key : MatchKey)
  | unmatched (logical : Bool) (key : MatchKey)
  | returned (logical : Bool) (key : MatchKey) (lateNs : ℤ)
  deriving DecidableEq

/-- A parsed frame has a first datagram. -/
def front (frame : EtherCatFrame) : Datagram := frame.datagrams.headD ⟨0, 0, 0, 0, 0, false, 0⟩

/-- The difference of two stamps in 64 bits. -/
def since (now before : ℤ) : ℤ := (now - before).bmod (2 ^ 64)

def outcome (pending : Pending) (r : Record) : Outcome :=
  match (parseEtherCatFrame r.bytes).join with
  | none => .notEtherCat
  | some frame =>
    let first := front frame
    let logical := isLogicalCommand first.command
    let key := keyOf first
    let sends := pending.sends key
    if frame.fromMaster then
      match sends.getLast? with
      | none => .sent logical key
      | some back =>
        if since r.timestampNs back < kResendWindowNs then .resent logical key
        else .sent logical key
    else
      match sends.head? with
      | none => .unmatched logical key
      | some front => .returned logical key (since r.timestampNs front)

structure Pass where
  summary : Summary
  pending : Pending

def count (s : Summary) : Outcome → Summary
  | .notEtherCat => { s with notEtherCat := s.notEtherCat + 1 }
  | .resent logical _ => s.onKind logical fun k => { k with resent := k.resent + 1 }
  | .sent logical _ => s.onKind logical fun k => { k with sent := k.sent + 1 }
  | .unmatched _ _ => { s with unmatchedReturns := s.unmatchedReturns + 1 }
  | .returned logical _ lateNs => s.onKind logical fun k => record k lateNs

def enqueue (pending : Pending) (r : Record) : Outcome → Pending
  | .sent _ key => Table.put pending key (pending.sends key ++ [r.timestampNs])
  | .returned _ key _ => Table.put pending key (pending.sends key).tail
  | _ => pending

def see (s : Summary) (r : Record) : Summary :=
  { s with
    frames := s.frames + 1
    firstNs := if s.frames + 1 = 1 then r.timestampNs else s.firstNs
    lastNs := r.timestampNs }

def step (p : Pass) (r : Record) : Pass :=
  let o := outcome p.pending r
  ⟨count (see p.summary r) o, enqueue p.pending r o⟩

def pass (records : List Record) : Pass := records.foldl step ⟨{}, []⟩

/-- What is still unanswered is lost, under the kind of its key. -/
def loseUnanswered (s : Summary) (e : MatchKey × List ℤ) : Summary :=
  s.onKind (isLogicalCommand e.1.command) fun k =>
    { k with lost := k.lost + BitVec.ofNat 32 e.2.length }

def summarise (records : List Record) : Summary :=
  (pass records).pending.foldl loseUnanswered (pass records).summary

/-! ## What is conserved -/

def outcomes (pending : Pending) : List Record → List (Record × Outcome)
  | [] => []
  | r :: records =>
    let o := outcome pending r
    (r, o) :: outcomes (enqueue pending r o) records

/-- The time of a send under the key that is not one sent again. -/
def Outcome.sendOf (key : MatchKey) : Record × Outcome → Option ℤ
  | (r, .sent _ k) => if k = key then some r.timestampNs else none
  | _ => none

def Outcome.isReturnOf (key : MatchKey) : Record × Outcome → Bool
  | (_, .returned _ k _) => k == key
  | _ => false

/-- The oldest send under the key that has no return yet: returns answer the sends in order. -/
def oldestUnanswered (key : MatchKey) (records : List Record) : Option ℤ :=
  ((outcomes [] records).filterMap (Outcome.sendOf key))[
    (outcomes [] records).countP (Outcome.isReturnOf key)]?

/-- How late a frame of the kind comes back, if a send under its key is unanswered. -/
def delay (logical : Bool) (earlier : List Record) (r : Record) : Option ℤ :=
  match (parseEtherCatFrame r.bytes).join with
  | none => none
  | some frame =>
    if frame.fromMaster = false ∧ isLogicalCommand (front frame).command = logical then
      (oldestUnanswered (keyOf (front frame)) earlier).map (r.timestampNs - ·)
    else none

/-- The delays of the returns of the kind among the records that follow. -/
def delays (logical : Bool) (earlier : List Record) : List Record → List ℤ
  | [] => []
  | r :: records => (delay logical earlier r).toList ++ delays logical (earlier ++ [r]) records

def later (us : ℤ) (delays : List ℤ) : ℕ := delays.countP fun lateNs => us < lateNs.tdiv 1000

namespace KindSummary

def paired (k : KindSummary) : ℕ := k.sent.toNat + k.resent.toNat + k.returned.toNat

/-- The counters of the returns are those of their delays. -/
structure Counts (k : KindSummary) (delays : List ℤ) : Prop where
  returned_eq : k.returned.toNat = delays.length
  over2Ms_eq : k.over2Ms.toNat = later 2000 delays
  over20Ms_eq : k.over20Ms.toNat = later 20000 delays
  over100Ms_eq : k.over100Ms.toNat = later 100000 delays
  latestUs_eq : k.latestUs = delays.foldl (fun us lateNs => max us (lateNs.tdiv 1000)) 0

structure Bands (k : KindSummary) : Prop where
  over100Ms_le : k.over100Ms.toNat ≤ k.over20Ms.toNat
  over20Ms_le : k.over20Ms.toNat ≤ k.over2Ms.toNat
  over2Ms_le : k.over2Ms.toNat ≤ k.returned.toNat

end KindSummary

structure Conserves (records : List Record) : Prop where
  frames_eq : (summarise records).frames.toNat = records.length
  total : (summarise records).frames.toNat = (summarise records).notEtherCat.toNat +
    (summarise records).unmatchedReturns.toNat + (summarise records).cyclic.paired +
      (summarise records).control.paired
  sent_eq : ∀ logical, ((summarise records).kind logical).sent.toNat =
    ((summarise records).kind logical).returned.toNat +
      ((summarise records).kind logical).lost.toNat
  bands : ∀ logical, ((summarise records).kind logical).Bands
  charged : ∀ logical, ((summarise records).kind logical).Counts (delays logical [] records)
  nonneg : records.Pairwise (fun r r' => r.timestampNs ≤ r'.timestampNs) →
    ∀ logical, ∀ lateNs ∈ delays logical [] records, 0 ≤ lateNs

/-! ## Outcomes -/

variable {p : Pass} {pending : Pending} {r : Record} {s : Summary} {k : KindSummary}
  {records : List Record} {n : ℕ} {late : List ℤ} {lates : Bool → List ℤ}

/-- A frame's kind is that of its key, and a return answers the head of its queue. -/
theorem outcome_cases (pending : Pending) (r : Record) :
    outcome pending r = .notEtherCat ∨ ∃ key,
      outcome pending r = .resent (isLogicalCommand key.command) key ∨
      outcome pending r = .sent (isLogicalCommand key.command) key ∨
      outcome pending r = .unmatched (isLogicalCommand key.command) key ∨
      ∃ t rest, pending.sends key = t :: rest ∧ outcome pending r =
        .returned (isLogicalCommand key.command) key (since r.timestampNs t) := by
  unfold outcome
  cases (parseEtherCatFrame r.bytes).join with
  | none => exact .inl rfl
  | some frame =>
    refine .inr ⟨keyOf (front frame), ?_⟩
    have hcommand : (keyOf (front frame)).command = (front frame).command := rfl
    simp only [hcommand]
    cases frame.fromMaster with
    | true =>
      cases (pending.sends (keyOf (front frame))).getLast? with
      | none => exact .inr (.inl rfl)
      | some back =>
        by_cases hback : since r.timestampNs back < kResendWindowNs
        · exact .inl (by simp [hback])
        · exact .inr (.inl (by simp [hback]))
    | false =>
      cases hsends : pending.sends (keyOf (front frame)) with
      | nil => exact .inr (.inr (.inl rfl))
      | cons t rest => exact .inr (.inr (.inr ⟨t, rest, rfl, rfl⟩))

/-! ## Counters -/

theorem toNat_succ {w : ℕ} {x : BitVec w} (h : x.toNat + 1 < 2 ^ w) :
    (x + 1).toNat = x.toNat + 1 := by
  have hone : (1 : BitVec w).toNat = 1 % 2 ^ w := BitVec.toNat_ofNat 1 w
  have hw : 1 % 2 ^ w = 1 := Nat.mod_eq_of_lt (by omega)
  rw [BitVec.toNat_add, hone, hw, Nat.mod_eq_of_lt h]

@[simp] theorem kind_onKind_self (s : Summary) (logical : Bool) (f : KindSummary → KindSummary) :
    (s.onKind logical f).kind logical = f (s.kind logical) := by
  cases logical <;> rfl

variable {logical : Bool}

theorem kind_onKind_of_ne {logical' : Bool} (h : logical' ≠ logical) (s : Summary)
    (f : KindSummary → KindSummary) : (s.onKind logical f).kind logical' = s.kind logical' := by
  cases logical <;> cases logical' <;> first | rfl | exact absurd rfl h

@[simp] theorem frames_onKind (s : Summary) (logical : Bool) (f : KindSummary → KindSummary) :
    (s.onKind logical f).frames = s.frames := by cases logical <;> rfl

@[simp] theorem notEtherCat_onKind (s : Summary) (logical : Bool)
    (f : KindSummary → KindSummary) : (s.onKind logical f).notEtherCat = s.notEtherCat := by
  cases logical <;> rfl

@[simp] theorem unmatchedReturns_onKind (s : Summary) (logical : Bool)
    (f : KindSummary → KindSummary) :
    (s.onKind logical f).unmatchedReturns = s.unmatchedReturns := by
  cases logical <;> rfl

theorem toNat_succ_if {w : ℕ} {x : BitVec w} (h : x.toNat + 1 < 2 ^ w) (c : Prop) [Decidable c] :
    (if c then x + 1 else x).toNat = x.toNat + if c then 1 else 0 := by
  split_ifs
  · exact toNat_succ h
  · rfl

theorem later_concat (us : ℤ) (delays : List ℤ) (lateNs : ℤ) :
    later us (delays ++ [lateNs]) = later us delays + if us < lateNs.tdiv 1000 then 1 else 0 := by
  simp [later, List.countP_append, List.countP_singleton]

theorem KindSummary.Counts.record (h : k.Counts late) (hlt : late.length + 1 < 2 ^ 32)
    (lateNs : ℤ) : (record k lateNs).Counts (late ++ [lateNs]) := by
  have hlater : ∀ us, later us late + 1 < 2 ^ 32 := fun us =>
    Nat.lt_of_le_of_lt (Nat.succ_le_succ List.countP_le_length) hlt
  refine ⟨?_, ?_, ?_, ?_, ?_⟩
  · rw [List.length_append, ← h.returned_eq]
    exact toNat_succ (h.returned_eq.symm ▸ hlt)
  · rw [later_concat, ← h.over2Ms_eq]
    exact toNat_succ_if (h.over2Ms_eq.symm ▸ hlater _) _
  · rw [later_concat, ← h.over20Ms_eq]
    exact toNat_succ_if (h.over20Ms_eq.symm ▸ hlater _) _
  · rw [later_concat, ← h.over100Ms_eq]
    exact toNat_succ_if (h.over100Ms_eq.symm ▸ hlater _) _
  · rw [List.foldl_append, ← h.latestUs_eq]
    exact (max_def_lt _ _).symm

theorem later_mono {us us' : ℤ} (h : us ≤ us') (delays : List ℤ) :
    later us' delays ≤ later us delays := by
  refine List.countP_mono_left fun lateNs _ hlate => ?_
  exact decide_eq_true (lt_of_le_of_lt h (of_decide_eq_true hlate))

theorem KindSummary.Counts.bands (h : k.Counts late) : k.Bands where
  over100Ms_le := by
    rw [h.over100Ms_eq, h.over20Ms_eq]
    exact later_mono (by decide) late
  over20Ms_le := by
    rw [h.over20Ms_eq, h.over2Ms_eq]
    exact later_mono (by decide) late
  over2Ms_le := by
    rw [h.over2Ms_eq, h.returned_eq]
    exact List.countP_le_length

def queued (logical : Bool) (pending : Pending) : ℕ :=
  Table.total
    (fun key sends => if isLogicalCommand key.command = logical then sends.length else 0) pending

theorem queued_put (logical : Bool) (pending : Pending) (key : MatchKey) (sends : List ℤ) :
    queued logical (Table.put pending key sends) +
        (if isLogicalCommand key.command = logical then (pending.sends key).length else 0) =
      queued logical pending +
        if isLogicalCommand key.command = logical then sends.length else 0 := by
  apply Table.total_put
  simp

/-- The counters of one kind with so many sends unanswered, and the others so late. -/
structure KindBalanced (k : KindSummary) (unanswered : ℕ) (late : List ℤ) : Prop where
  sent_eq : k.sent.toNat = k.returned.toNat + unanswered
  counts : k.Counts late
  lost_eq : k.lost = 0

theorem KindBalanced.sent (h : KindBalanced k n late) (hlt : k.paired + 1 < 2 ^ 32) :
    KindBalanced { k with sent := k.sent + 1 } (n + 1) late ∧
      { k with sent := k.sent + 1 }.paired = k.paired + 1 := by
  have hs := h.sent_eq
  simp only [KindSummary.paired] at hlt ⊢
  have hsucc : (k.sent + 1).toNat = k.sent.toNat + 1 := toNat_succ (by omega)
  refine ⟨⟨?_, { h.counts with }, h.lost_eq⟩, ?_⟩
  · dsimp only
    omega
  · omega

theorem KindBalanced.resent (h : KindBalanced k n late) (hlt : k.paired + 1 < 2 ^ 32) :
    KindBalanced { k with resent := k.resent + 1 } n late ∧
      { k with resent := k.resent + 1 }.paired = k.paired + 1 := by
  simp only [KindSummary.paired] at hlt ⊢
  have hsucc : (k.resent + 1).toNat = k.resent.toNat + 1 := toNat_succ (by omega)
  refine ⟨⟨h.sent_eq, { h.counts with }, h.lost_eq⟩, ?_⟩
  omega

/-- A return is below the limit, because its send was. -/
theorem KindBalanced.record (h : KindBalanced k (n + 1) late) (lateNs : ℤ) :
    KindBalanced (record k lateNs) n (late ++ [lateNs]) ∧
      (record k lateNs).paired = k.paired + 1 := by
  have hs := h.sent_eq
  have hlength := h.counts.returned_eq
  simp only [KindSummary.paired]
  have hsucc : (Capture.record k lateNs).returned.toNat = k.returned.toNat + 1 :=
    toNat_succ (by omega)
  refine ⟨⟨?_, h.counts.record (by omega) lateNs, h.lost_eq⟩, ?_⟩
  · exact hs.trans (by omega)
  · rw [hsucc]
    exact (Nat.add_assoc _ _ _).symm

/-- The delay one record adds to those of a kind. -/
def Outcome.charge (logical : Bool) : Outcome → List ℤ
  | .returned l _ lateNs => if l = logical then [lateNs] else []
  | _ => []

structure Balanced (s : Summary) (pending : Pending) (n : ℕ) (lates : Bool → List ℤ) : Prop where
  total : n = s.notEtherCat.toNat + s.unmatchedReturns.toNat + (s.kind true).paired +
    (s.kind false).paired
  kinds : ∀ logical, KindBalanced (s.kind logical) (queued logical pending) (lates logical)

theorem balanced_initial : Balanced {} [] 0 fun _ => [] := by
  refine ⟨rfl, ?_⟩
  intro logical
  cases logical <;> exact ⟨rfl, ⟨rfl, rfl, rfl, rfl, rfl⟩, rfl⟩

theorem Balanced.paired_le (h : Balanced s pending n lates) (logical : Bool) :
    (s.kind logical).paired ≤ n := by
  have ht := h.total
  cases logical <;> omega

/-- One more frame of a kind keeps the balance if it keeps that of its kind. -/
theorem Balanced.onKind {pending' : Pending} {f : KindSummary → KindSummary}
    {more : Bool → List ℤ} (h : Balanced s pending n lates)
    (hf : KindBalanced (f (s.kind logical)) (queued logical pending')
        (lates logical ++ more logical) ∧
      (f (s.kind logical)).paired = (s.kind logical).paired + 1)
    (hother : ∀ logical', logical' ≠ logical →
      queued logical' pending' = queued logical' pending ∧ more logical' = []) :
    Balanced (s.onKind logical f) pending' (n + 1) fun l => lates l ++ more l := by
  obtain ⟨hkind, hpaired⟩ := hf
  constructor
  · have ht := h.total
    rw [notEtherCat_onKind, unmatchedReturns_onKind]
    cases logical with
    | true =>
      rw [kind_onKind_self, kind_onKind_of_ne (by decide), hpaired]
      omega
    | false =>
      rw [kind_onKind_self, kind_onKind_of_ne (by decide), hpaired]
      omega
  · intro logical'
    by_cases hl : logical' = logical
    · subst hl
      rw [kind_onKind_self]
      exact hkind
    · rw [kind_onKind_of_ne hl, (hother logical' hl).1, (hother logical' hl).2, List.append_nil]
      exact h.kinds logical'

theorem Balanced.aside {s' : Summary} (h : Balanced s pending n lates)
    (hcount : s'.notEtherCat.toNat + s'.unmatchedReturns.toNat =
      s.notEtherCat.toNat + s.unmatchedReturns.toNat + 1)
    (hkind : ∀ logical, s'.kind logical = s.kind logical) :
    Balanced s' pending (n + 1) fun l => lates l ++ [] := by
  constructor
  · have ht := h.total
    rw [hkind true, hkind false]
    omega
  · intro logical
    rw [hkind logical, List.append_nil]
    exact h.kinds logical

theorem queued_put_self (pending : Pending) (key : MatchKey) (sends : List ℤ) :
    queued (isLogicalCommand key.command) (Table.put pending key sends) +
        (pending.sends key).length =
      queued (isLogicalCommand key.command) pending + sends.length := by
  have h := queued_put (isLogicalCommand key.command) pending key sends
  rw [if_pos rfl, if_pos rfl] at h
  exact h

variable {key : MatchKey}

theorem queued_put_of_ne
    (hl : logical ≠ isLogicalCommand key.command) (pending : Pending) (sends : List ℤ) :
    queued logical (Table.put pending key sends) = queued logical pending := by
  have h := queued_put logical pending key sends
  rw [if_neg hl.symm, if_neg hl.symm] at h
  exact h

/-- Each record is counted once, below the limit of the counters. -/
theorem Balanced.count (h : Balanced s pending n lates) (hn : n + 1 < 2 ^ 32) (r : Record) :
    Balanced (count s (outcome pending r)) (enqueue pending r (outcome pending r)) (n + 1)
      fun l => lates l ++ (outcome pending r).charge l := by
  have hlt : ∀ logical, (s.kind logical).paired + 1 < 2 ^ 32 := by
    intro logical
    have := h.paired_le logical
    omega
  have ht := h.total
  obtain ho | ⟨key, ho | ho | ho | ⟨t, rest, hsends, ho⟩⟩ := outcome_cases pending r
  all_goals rw [ho]
  · have hsucc : (s.notEtherCat + 1).toNat = s.notEtherCat.toNat + 1 := toNat_succ (by omega)
    apply h.aside
    · simp only [Capture.count, hsucc]
      omega
    · intro _
      rfl
  · simp only [Capture.count, enqueue, Outcome.charge]
    apply h.onKind
    · rw [List.append_nil]
      exact (h.kinds _).resent (hlt _)
    · exact fun _ _ => ⟨rfl, rfl⟩
  · have hq := queued_put_self pending key (pending.sends key ++ [r.timestampNs])
    rw [List.length_append, List.length_singleton] at hq
    have hlen : queued (isLogicalCommand key.command)
        (Table.put pending key (pending.sends key ++ [r.timestampNs])) =
        queued (isLogicalCommand key.command) pending + 1 := by omega
    simp only [Capture.count, enqueue, Outcome.charge]
    apply h.onKind
    · rw [hlen, List.append_nil]
      exact (h.kinds _).sent (hlt _)
    · exact fun _ hl => ⟨queued_put_of_ne hl _ _, rfl⟩
  · have hsucc : (s.unmatchedReturns + 1).toNat = s.unmatchedReturns.toNat + 1 :=
      toNat_succ (by omega)
    apply h.aside
    · simp only [Capture.count, hsucc]
      omega
    · intro _
      rfl
  · have hq := queued_put_self pending key (pending.sends key).tail
    rw [hsends, List.length_cons, List.tail_cons] at hq
    have hk := h.kinds (isLogicalCommand key.command)
    have hlen : queued (isLogicalCommand key.command) pending =
        queued (isLogicalCommand key.command) (Table.put pending key rest) + 1 := by omega
    rw [hlen] at hk
    simp only [Capture.count, enqueue, hsends, List.tail_cons]
    apply h.onKind
    · rw [Outcome.charge, if_pos rfl]
      exact hk.record _
    · exact fun _ hl => ⟨queued_put_of_ne hl _ _, if_neg hl.symm⟩

theorem pass_concat (records : List Record) (r : Record) :
    pass (records ++ [r]) = step (pass records) r := by
  rw [pass, List.foldl_append]
  rfl

theorem frames_count (s : Summary) (o : Outcome) : (count s o).frames = s.frames := by
  cases o <;> simp [count]

theorem frames_pass (records : List Record) :
    (pass records).summary.frames = BitVec.ofNat 64 records.length := by
  induction records using List.reverseRecOn with
  | nil => rfl
  | append_singleton records r ih =>
    rw [pass_concat, step, frames_count, List.length_append, BitVec.ofNat_add]
    simp only [see, ih]
    rfl

/-! ## The loss -/

theorem kind_loseUnanswered (pending : Pending) (s : Summary) (logical : Bool) :
    (pending.foldl loseUnanswered s).kind logical =
      { s.kind logical with
        lost := (s.kind logical).lost + BitVec.ofNat 32 (queued logical pending) } := by
  induction pending generalizing s with
  | nil => simp [queued, Table.total]
  | cons e pending ih =>
    rw [List.foldl_cons, ih]
    simp only [queued, Table.total, BitVec.ofNat_add]
    by_cases hl : logical = isLogicalCommand e.1.command
    · subst hl
      simp only [loseUnanswered, kind_onKind_self, if_true, BitVec.add_assoc]
    · simp only [loseUnanswered, kind_onKind_of_ne hl, if_neg (Ne.symm hl)]
      simp

theorem foldl_loseUnanswered (pending : Pending) (s : Summary) :
    (pending.foldl loseUnanswered s).frames = s.frames ∧
      (pending.foldl loseUnanswered s).notEtherCat = s.notEtherCat ∧
      (pending.foldl loseUnanswered s).unmatchedReturns = s.unmatchedReturns := by
  induction pending generalizing s with
  | nil => exact ⟨rfl, rfl, rfl⟩
  | cons e pending ih =>
    obtain ⟨hf, hn, hu⟩ := ih (loseUnanswered s e)
    rw [List.foldl_cons, hf, hn, hu]
    simp [loseUnanswered]

/-! ## The delays -/

/-- One record appends its send to the queue of its key or takes the head of it. -/
theorem sends_enqueue (pending : Pending) (r : Record) (key : MatchKey) :
    (enqueue pending r (outcome pending r)).sends key =
        (pending.sends key ++ (Outcome.sendOf key (r, outcome pending r)).toList).drop
          (if Outcome.isReturnOf key (r, outcome pending r) then 1 else 0) ∧
      (if Outcome.isReturnOf key (r, outcome pending r) then 1 else 0) ≤
        (pending.sends key).length := by
  obtain ho | ⟨k, ho | ho | ho | ⟨t, rest, hsends, ho⟩⟩ := outcome_cases pending r
  all_goals rw [ho]
  · simp [enqueue, Outcome.sendOf, Outcome.isReturnOf]
  · simp [enqueue, Outcome.sendOf, Outcome.isReturnOf]
  · by_cases hk : k = key
    · subst hk
      simp [enqueue, Pending.sends, Outcome.sendOf, Outcome.isReturnOf]
    · simp [enqueue, Pending.sends, Table.get_put_of_ne (Ne.symm hk), Outcome.sendOf,
        Outcome.isReturnOf, hk]
  · simp [enqueue, Outcome.sendOf, Outcome.isReturnOf]
  · by_cases hk : k = key
    · subst hk
      simp only [enqueue, hsends]
      simp [Pending.sends, Outcome.sendOf, Outcome.isReturnOf]
    · simp [enqueue, Pending.sends, Table.get_put_of_ne (Ne.symm hk), Outcome.sendOf,
        Outcome.isReturnOf, hk]

/-- A queue holds the sends under its key from the first unanswered one on. -/
theorem sends_foldl (p : Pass) (records : List Record) (key : MatchKey) :
    (records.foldl step p).pending.sends key =
      (p.pending.sends key ++ (outcomes p.pending records).filterMap (Outcome.sendOf key)).drop
        ((outcomes p.pending records).countP (Outcome.isReturnOf key)) := by
  induction records generalizing p with
  | nil => simp [outcomes]
  | cons r records ih =>
    obtain ⟨hsends, hle⟩ := sends_enqueue p.pending r key
    have hcons : ∀ es, List.filterMap (Outcome.sendOf key) ((r, outcome p.pending r) :: es) =
        (Outcome.sendOf key (r, outcome p.pending r)).toList ++
          es.filterMap (Outcome.sendOf key) := by
      intro es
      rw [List.filterMap_cons]
      cases Outcome.sendOf key (r, outcome p.pending r) <;> rfl
    rw [List.foldl_cons, ih]
    simp only [outcomes, step, hcons, List.countP_cons, hsends]
    rw [← List.drop_append_of_le_length (by rw [List.length_append]; omega), List.drop_drop,
      List.append_assoc, Nat.add_comm]

theorem oldestUnanswered_eq (records : List Record) (key : MatchKey) :
    oldestUnanswered key records = ((pass records).pending.sends key).head? := by
  rw [pass, sends_foldl, List.head?_drop]
  rfl

theorem map_fst_outcomes (pending : Pending) (records : List Record) :
    (outcomes pending records).map Prod.fst = records := by
  induction records generalizing pending with
  | nil => rfl
  | cons r records ih => rw [outcomes, List.map_cons, ih]

theorem timestampNs_of_sendOf {o : Outcome} {t : ℤ}
    (h : Outcome.sendOf key (r, o) = some t) : r.timestampNs = t := by
  cases o with
  | sent logical k =>
    simp only [Outcome.sendOf] at h
    split at h
    · exact Option.some.inj h
    · cases h
  | _ => cases h

/-- What is unanswered was sent by one of the records. -/
theorem mem_of_oldestUnanswered {t : ℤ}
    (h : oldestUnanswered key records = some t) : ∃ r ∈ records, r.timestampNs = t := by
  obtain ⟨⟨r, o⟩, he, hs⟩ := List.mem_filterMap.mp (List.mem_of_getElem? h)
  have hr : r ∈ (outcomes [] records).map Prod.fst := List.mem_map_of_mem he
  rw [map_fst_outcomes] at hr
  exact ⟨r, hr, timestampNs_of_sendOf hs⟩

/-- Stamps as a capture file has them, so that a difference of two fits into 64 bits. -/
def Stamped (records : List Record) : Prop :=
  ∀ r ∈ records, 0 ≤ r.timestampNs ∧ r.timestampNs < 2 ^ 63
  deriving Decidable

/-- A return is charged the time since the oldest unanswered send. -/
theorem charge_outcome (h : Stamped (records ++ [r])) (logical : Bool) :
    (outcome (pass records).pending r).charge logical = (delay logical records r).toList := by
  unfold outcome delay
  cases (parseEtherCatFrame r.bytes).join with
  | none => rfl
  | some frame =>
    dsimp only
    rw [oldestUnanswered_eq]
    cases frame.fromMaster with
    | true =>
      rw [if_pos rfl, if_neg nofun]
      split
      · rfl
      · split_ifs <;> rfl
    | false =>
      rw [if_neg nofun]
      cases hfirst : ((pass records).pending.sends (keyOf (front frame))).head? with
      | none => simp [Outcome.charge]
      | some t =>
        have holdest := (oldestUnanswered_eq records (keyOf (front frame))).trans hfirst
        obtain ⟨r', hr', rfl⟩ := mem_of_oldestUnanswered holdest
        have hr := h r (by simp)
        have hsent := h r' (List.mem_append_left _ hr')
        have hsince : since r.timestampNs r'.timestampNs = r.timestampNs - r'.timestampNs :=
          Int.bmod_eq_of_le (by omega) (by omega)
        simp only [Outcome.charge, hsince, Option.map_some, true_and]
        split_ifs <;> rfl

theorem delays_concat (logical : Bool) (earlier : List Record) :
    delays logical earlier (records ++ [r]) =
      delays logical earlier records ++ (delay logical (earlier ++ records) r).toList := by
  induction records generalizing earlier with
  | nil => simp [delays]
  | cons r' records ih => simp [delays, ih]

theorem balanced_pass (h : records.length < 2 ^ 32) (ht : Stamped records) :
    Balanced (pass records).summary (pass records).pending records.length
      fun l => delays l [] records := by
  induction records using List.reverseRecOn with
  | nil => exact balanced_initial
  | append_singleton records r ih =>
    rw [List.length_append, List.length_singleton] at h ⊢
    have hb := ih (by omega) fun r' hr' => ht r' (List.mem_append_left _ hr')
    -- what every record moves is not part of the balance
    have hsee : Balanced (see (pass records).summary r) (pass records).pending records.length
        fun l => delays l [] records := ⟨hb.total, hb.kinds⟩
    have hcount := hsee.count h r
    simp only [charge_outcome ht] at hcount
    rw [pass_concat]
    simp only [delays_concat, List.nil_append]
    exact hcount

theorem nonneg_delays {earlier : List Record} (logical : Bool)
    (h : (earlier ++ records).Pairwise fun r r' => r.timestampNs ≤ r'.timestampNs) :
    ∀ lateNs ∈ delays logical earlier records, 0 ≤ lateNs := by
  induction records generalizing earlier with
  | nil => simp [delays]
  | cons r records ih =>
    intro lateNs hlate
    rcases List.mem_append.mp hlate with hlate | hlate
    · unfold delay at hlate
      split at hlate
      · cases hlate
      · split_ifs at hlate
        · rw [Option.mem_toList, Option.map_eq_some_iff] at hlate
          obtain ⟨t, ht, rfl⟩ := hlate
          obtain ⟨r', hr', rfl⟩ := mem_of_oldestUnanswered ht
          have hle := (List.pairwise_append.mp h).2.2 r' hr' r List.mem_cons_self
          omega
        · cases hlate
    · exact ih (by simpa using h) lateNs hlate

/-! ## The summary -/

/-- What is still queued at the end is lost, and was sent. -/
theorem Balanced.sent_eq (h : Balanced s pending n lates) (logical : Bool) :
    (s.kind logical).sent.toNat = (s.kind logical).returned.toNat +
      ((s.kind logical).lost + BitVec.ofNat 32 (queued logical pending)).toNat := by
  have hk := h.kinds logical
  have hs := hk.sent_eq
  have hlost : ((s.kind logical).lost + BitVec.ofNat 32 (queued logical pending)).toNat =
      queued logical pending := by
    rw [hk.lost_eq, BitVec.toNat_add, BitVec.toNat_ofNat]
    change (0 + _) % _ = _
    omega
  exact hs.trans (congrArg _ hlost.symm)

theorem conserves_of_balanced (h : Balanced (pass records).summary (pass records).pending
    records.length fun l => delays l [] records) (hlt : records.length < 2 ^ 32) :
    Conserves records := by
  obtain ⟨hframes, hnot, hunmatched⟩ :=
    foldl_loseUnanswered (pass records).pending (pass records).summary
  have hkind := kind_loseUnanswered (pass records).pending (pass records).summary
  have hlength : (summarise records).frames.toNat = records.length := by
    rw [summarise, hframes, frames_pass, BitVec.toNat_ofNat]
    omega
  have hpaired : ∀ logical, ((summarise records).kind logical).paired =
      ((pass records).summary.kind logical).paired := by
    intro logical
    rw [summarise, hkind]
    rfl
  have hcounts : ∀ logical,
      ((summarise records).kind logical).Counts (delays logical [] records) := by
    intro logical
    rw [summarise, hkind]
    exact { (h.kinds logical).counts with }
  refine ⟨hlength, ?_, ?_, fun logical => (hcounts logical).bands, hcounts, ?_⟩
  · have ht := h.total
    rw [← hpaired true, ← hpaired false] at ht
    rw [hlength, summarise, hnot, hunmatched]
    exact ht
  · intro logical
    rw [summarise, hkind]
    exact h.sent_eq logical
  · intro hsorted logical
    exact nonneg_delays logical hsorted

/-- Below the limit of the counters every frame is counted once. -/
theorem conserves_of_fits (h : records.length < 2 ^ 32) (ht : Stamped records) :
    Conserves records :=
  conserves_of_balanced (balanced_pass h ht) h

/-- A process-data frame of the master with one byte of data, and the same frame come back. -/
def outbound : Bytes :=
  [0xFF, 0xFF, 0xFF, 0xFF, 0xFF, 0xFF, 0x01, 0x01, 0x01, 0x01, 0x01, 0x01, 0x88, 0xA4, 0x0D, 0x10,
    0x0C, 0x07, 0x00, 0x00, 0x01, 0x00, 0x01, 0x00, 0x00, 0x00, 0xEE, 0x00, 0x00]

def inbound : Bytes := outbound.set 6 0x03

/-- A frame that came back after 3 ms, behind one sent again. -/
theorem lateReturn_conserves :
    Conserves [⟨0, outbound⟩, ⟨2000000, outbound⟩, ⟨3000000, inbound⟩] ∧
      (summarise [⟨0, outbound⟩, ⟨2000000, outbound⟩, ⟨3000000, inbound⟩]).cyclic.over2Ms = 1 := by
  refine ⟨conserves_of_fits (by decide) (by decide), by decide⟩

/-- The frame over and over: the first copy is sent, all others are sent again. -/
theorem pass_replicate (n : ℕ) : pass (List.replicate (n + 1) ⟨0, outbound⟩) =
    ⟨{ frames := BitVec.ofNat 64 (n + 1),
       cyclic := { sent := 1, resent := BitVec.ofNat 32 n } },
      [(⟨0x07, 0x0C, 0, 1, 1⟩, [0])]⟩ := by
  induction n with
  | zero => rfl
  | succ n ih =>
    have ho : outcome [(⟨0x07, 0x0C, 0, 1, 1⟩, [0])] ⟨0, outbound⟩ =
        .resent true ⟨0x07, 0x0C, 0, 1, 1⟩ := by decide
    rw [List.replicate_succ', pass_concat, ih]
    simp only [step, ho, count, enqueue, see, ite_self, BitVec.ofNat_add]
    rfl

/-- After 2 ^ 32 copies more the count of frames sent again is back at 0. -/
theorem repeated_not_conserves :
    ¬ Conserves (List.replicate (2 ^ 32 + 1) ⟨0, outbound⟩) := by
  intro h
  have htotal := h.total
  rw [h.frames_eq, List.length_replicate, summarise, pass_replicate] at htotal
  revert htotal
  decide

end MotionMaster.Capture
