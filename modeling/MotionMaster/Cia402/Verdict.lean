import Mathlib.Data.List.Induction
import MotionMaster.Cia402.FaultReset

/-!
# Giving up on a fault

`transitionToState` as the master sees it: a statusword and the clock in each turn, whatever the
drive does. The walk issues one fault reset in its life, and calls a fault persistent when it finds
the drive in Fault and the grace time of that reset is over.
-/

namespace MotionMaster.Cia402

def decodeState (statusword : Word) : State :=
  if statusword &&& 0x4F = 0x40 then .kSwitchOnDisabled
  else if statusword &&& 0x6F = 0x21 then .kReadyToSwitchOn
  else if statusword &&& 0x6F = 0x23 then .kSwitchedOn
  else if statusword &&& 0x6F = 0x27 then .kOperationEnabled
  else if statusword &&& 0x6F = 0x07 then .kQuickStopActive
  else if statusword &&& 0x4F = 0x0F then .kFaultReactionActive
  else if statusword &&& 0x4F = 0x08 then .kFault
  else .kNotReadyToSwitchOn

def quickStopHolds (optionCode : ℤ) : Bool := 5 ≤ optionCode ∧ optionCode ≤ 8

/-- 200 ms in nanoseconds of the steady clock. -/
def kFaultResetGrace : ℤ := 200000000

/-- The arguments of a walk, the deadline they give and what the drive says of its quick stop. -/
structure Request where
  target : State
  allowQuickStopOverride : Bool
  quickStopOptionCode : Option ℤ
  deadline : ℤ

def Request.quickStopPassesThrough (r : Request) : Bool :=
  r.target = .kQuickStopActive ∧ quickStopHolds (r.quickStopOptionCode.getD 0) = false

/-- What one turn of the loop meets: the statusword, the clock when a fault is looked at, whether
the write succeeds, the clock after a fault reset, the error code of the drive, and the clock at the
end of the turn. -/
structure Look where
  statusword : Option Word
  checked : ℤ
  reply : Bool
  resetDone : ℤ
  errorCode : Option Word
  ended : ℤ

/-- Why a walk failed, and for a fault that persists when that was decided. -/
inductive Failure where
  | notCommandable
  | unreadable
  | unreachable (current : State)
  | stillInFault (errorCode : Option Word) (decided : ℤ)
  | resetFailed
  | commandFailed
  | timedOut (current : State) (stoppedServiceHint : Bool)
  deriving DecidableEq

inductive Event where
  | saw (state : State)
  | reset (done : ℤ)
  deriving DecidableEq

/-- `trace` is what the walk has seen and which resets it has issued, the last first. -/
structure Walk where
  faultResetAt : Option ℤ
  quickStopIssued : Bool
  firstStatusword : Option Word
  statuswordChanged : Bool
  commandIssued : Bool
  outcome : Option (Except Failure Unit)
  trace : List Event

namespace Walk

def start (r : Request) : Walk :=
  { faultResetAt := none, quickStopIssued := false, firstStatusword := none
    statuswordChanged := false, commandIssued := false, trace := []
    outcome :=
      if isCommandableState r.target = false then some (.error .notCommandable) else none }

def fail (w : Walk) (why : Failure) : Walk := { w with outcome := some (.error why) }

def arrive (w : Walk) : Walk := { w with outcome := some (.ok ()) }

def see (w : Walk) (statusword : Word) : Walk :=
  { w with
    firstStatusword := some (w.firstStatusword.getD statusword)
    statuswordChanged := w.statuswordChanged || w.firstStatusword.any (· ≠ statusword)
    trace := .saw (decodeState statusword) :: w.trace }

/-- The end of a turn. -/
def rest (w : Walk) (r : Request) (look : Look) (current : State) : Walk :=
  if r.deadline ≤ look.ended then
    w.fail (.timedOut current (w.commandIssued && !w.statuswordChanged))
  else w

/-- The drive is in Fault. -/
def fault (w : Walk) (r : Request) (look : Look) : Walk :=
  match w.faultResetAt with
  | some faultResetAt =>
    if kFaultResetGrace ≤ look.checked - faultResetAt then
      w.fail (.stillInFault look.errorCode look.checked)
    else w.rest r look .kFault
  | none =>
    if look.reply then
      { w with
        faultResetAt := some look.resetDone
        trace := .reset look.resetDone :: w.trace : Walk }.rest r look .kFault
    else { w with trace := .reset look.resetDone :: w.trace : Walk }.fail .resetFailed

/-- The table asks for a command. -/
def act (w : Walk) (r : Request) (look : Look) (current : State) (command : Command) : Walk :=
  if current = .kFault then w.fault r look
  else if look.reply then
    { w with
      commandIssued := true
      quickStopIssued := w.quickStopIssued || command = .kCmdQuickStop : Walk }.rest r look current
  else w.fail .commandFailed

/-- One turn of the loop. A walk that has ended stays as it is. -/
def turn (r : Request) (w : Walk) (look : Look) : Walk :=
  match w.outcome, look.statusword with
  | some _, _ => w
  | none, none => w.fail .unreadable
  | none, some statusword =>
    let current := decodeState statusword
    let w := w.see statusword
    if r.quickStopPassesThrough ∧ current = .kSwitchOnDisabled ∧ w.quickStopIssued then w.arrive
    else
      match nextFsaTransition current r.target r.allowQuickStopOverride with
      | .kArrived => w.arrive
      | .kUnreachable => w.fail (.unreachable current)
      | .kWait => w.rest r look current
      | .kCommand command => w.act r look current command

end Walk

def walk (r : Request) (looks : List Look) : Walk := looks.foldl (Walk.turn r) (Walk.start r)

/-! ### The verdict -/

def Event.inFault : Event → Bool
  | .saw .kFault | .saw .kFaultReactionActive | .reset _ => true
  | .saw _ => false

/-- What happened since the drive was last seen outside Fault. -/
def episode (trace : List Event) : List Event := trace.takeWhile Event.inFault

/-- The walk ended because of the fault the drive was in. -/
def Failure.gaveUp : Failure → Bool
  | .stillInFault _ _ | .resetFailed => true
  | .timedOut current _ => current = .kFault
  | .notCommandable | .unreadable | .unreachable _ | .commandFailed => false

structure VerdictRight (w : Walk) : Prop where
  /-- The drive was seen in Fault all the time since a reset whose grace time is over. -/
  persistent : ∀ code decided, w.outcome = some (.error (.stillInFault code decided)) →
    ∃ since done before, w.trace = since ++ .reset done :: before ∧
      (∀ e ∈ since, e.inFault = true) ∧ kFaultResetGrace ≤ decided - done
  /-- The fault the walk gives up on has had its own reset. -/
  ownReset : ∀ why, w.outcome = some (.error why) → why.gaveUp = true →
    ∃ done, .reset done ∈ episode w.trace

/-- The drive is in Fault again, the walk issued its reset in an earlier fault, and its grace time
or the time of the walk is over. -/
structure Refault (r : Request) (w : Walk) (look : Look) : Prop where
  walking : w.outcome = none
  faulted : look.statusword.map decodeState = some .kFault
  late : ∃ faultResetAt, w.faultResetAt = some faultResetAt ∧
    (kFaultResetGrace ≤ look.checked - faultResetAt ∨ r.deadline ≤ look.ended)
  earlier : ∀ done, .reset done ∉ episode w.trace

/-! ### One turn -/

variable {r : Request} {w : Walk} {look : Look} {statusword : Word} {current : State}

@[simp] theorem Walk.rest_trace : (w.rest r look current).trace = w.trace := by
  unfold Walk.rest
  split_ifs <;> rfl

@[simp] theorem Walk.rest_faultResetAt :
    (w.rest r look current).faultResetAt = w.faultResetAt := by
  unfold Walk.rest
  split_ifs <;> rfl

/-- A turn that leaves the outcome open ends with nothing, or with the timeout. -/
theorem Walk.rest_outcome (r : Request) (look : Look) (current : State) (hw : w.outcome = none) :
    (w.rest r look current).outcome =
      if r.deadline ≤ look.ended then
        some (.error (.timedOut current (w.commandIssued && !w.statuswordChanged)))
      else none := by
  unfold Walk.rest
  split_ifs
  · rfl
  · exact hw

theorem turn_of_fault (hw : w.outcome = none) (hr : isCommandableState r.target = true)
    (hs : look.statusword = some statusword) (hf : decodeState statusword = .kFault) :
    w.turn r look = (w.see statusword).fault r look := by
  have htarget : State.kFault ≠ r.target := by
    intro heq
    rw [← heq] at hr
    cases hr
  simp [Walk.turn, Walk.act, hw, hs, hf, nextFsaTransition, hr, htarget]

/-- Outside Fault a turn issues no reset and does not give up on a fault. -/
theorem turn_of_other (hw : w.outcome = none) (hs : look.statusword = some statusword)
    (hf : decodeState statusword ≠ .kFault) :
    (w.turn r look).trace = .saw (decodeState statusword) :: w.trace ∧
      (w.turn r look).faultResetAt = w.faultResetAt ∧
      ∀ why, (w.turn r look).outcome = some (.error why) → why.gaveUp = false := by
  have hopen : ∀ v : Walk, v.outcome = none → ∀ why,
      (v.rest r look (decodeState statusword)).outcome = some (.error why) →
      why.gaveUp = false := by
    intro v hv why hwhy
    rw [Walk.rest_outcome _ _ _ hv] at hwhy
    split_ifs at hwhy
    cases hwhy
    simpa [Failure.gaveUp] using hf
  simp only [Walk.turn, hw, hs]
  split_ifs
  · exact ⟨rfl, rfl, by rintro why ⟨⟩⟩
  · cases nextFsaTransition (decodeState statusword) r.target r.allowQuickStopOverride with
    | kArrived => exact ⟨rfl, rfl, by rintro why ⟨⟩⟩
    | kUnreachable => exact ⟨rfl, rfl, by rintro why ⟨⟩; rfl⟩
    | kWait => exact ⟨Walk.rest_trace, Walk.rest_faultResetAt, hopen _ hw⟩
    | kCommand command =>
      simp only [Walk.act, if_neg hf]
      split_ifs
      · exact ⟨Walk.rest_trace, Walk.rest_faultResetAt, hopen _ hw⟩
      · exact ⟨rfl, rfl, by rintro why ⟨⟩; rfl⟩

theorem verdictRight_of_not_gaveUp
    (h : ∀ why, w.outcome = some (.error why) → why.gaveUp = false) : VerdictRight w := by
  refine ⟨?_, ?_⟩
  · intro code decided hw
    cases h _ hw
  · intro why hw hgave
    rw [h why hw] at hgave
    cases hgave

/-- A reset of the fault the drive is in makes the verdict right. -/
theorem verdictRight_of_ownReset (done : ℤ) (h : .reset done ∈ episode w.trace)
    (hgrace : ∀ code decided, w.outcome = some (.error (.stillInFault code decided)) →
      kFaultResetGrace ≤ decided - done) : VerdictRight w := by
  refine ⟨?_, fun _ _ _ => ⟨done, h⟩⟩
  intro code decided hw
  obtain ⟨since, before, hsplit⟩ := List.append_of_mem h
  refine ⟨since, done, before ++ w.trace.dropWhile Event.inFault, ?_, ?_, hgrace code decided hw⟩
  · rw [← List.cons_append, ← List.append_assoc, ← hsplit]
    exact (List.takeWhile_append_dropWhile).symm
  · intro e he
    have hmem : e ∈ since ++ .reset done :: before := List.mem_append_left _ he
    rw [← hsplit] at hmem
    exact List.all_eq_true.mp List.all_takeWhile e hmem

theorem episode_fault (trace : List Event) :
    episode (.saw .kFault :: trace) = .saw .kFault :: episode trace := rfl

def Issued (w : Walk) : Prop := ∀ done, .reset done ∈ w.trace → w.faultResetAt = some done

theorem mem_of_mem_episode {trace : List Event} {e : Event} (h : e ∈ episode trace) : e ∈ trace :=
  (List.takeWhile_prefix _).subset h

/-- A walk that gives up on a fault after its one reset is right if that reset was for this
fault. -/
theorem verdictRight_iff_ownReset {v : Walk} {faultResetAt : ℤ} {why : Failure} (hi : Issued w)
    (hreset : w.faultResetAt = some faultResetAt) (htrace : v.trace = .saw .kFault :: w.trace)
    (hv : v.outcome = some (.error why)) (hwhy : why.gaveUp = true)
    (hgrace : ∀ code decided, why = .stillInFault code decided →
      kFaultResetGrace ≤ decided - faultResetAt) :
    VerdictRight v ↔ ∃ done, .reset done ∈ episode w.trace := by
  have hepisode : ∀ done, .reset done ∈ episode v.trace ↔ .reset done ∈ episode w.trace := by
    intro done
    rw [htrace, episode_fault, List.mem_cons, or_iff_right (by rintro ⟨⟩)]
  constructor
  · intro h
    obtain ⟨done, hdone⟩ := h.ownReset why hv hwhy
    exact ⟨done, (hepisode done).mp hdone⟩
  · rintro ⟨done, hdone⟩
    refine verdictRight_of_ownReset done ((hepisode done).mpr hdone) ?_
    intro code decided hcode
    have hdone' := hi done (mem_of_mem_episode hdone)
    rw [hreset] at hdone'
    cases hdone'
    rw [hv] at hcode
    cases hcode
    exact hgrace code decided rfl

/-- The first fault is reset, so no verdict on it is wrong. -/
theorem verdictRight_fault_of_none (hw : w.outcome = none) (hreset : w.faultResetAt = none) :
    VerdictRight ((w.see statusword).fault r look) := by
  have hreset' : (w.see statusword).faultResetAt = none := hreset
  unfold Walk.fault
  rw [hreset']
  split_ifs
  · refine verdictRight_of_ownReset look.resetDone ?_ ?_
    · rw [Walk.rest_trace]
      exact List.mem_cons_self
    · intro code decided hcode
      rw [Walk.rest_outcome _ _ _ (by exact hw)] at hcode
      split_ifs at hcode
      cases hcode
  · refine verdictRight_of_ownReset look.resetDone List.mem_cons_self ?_
    rintro code decided ⟨⟩

/-- Once the walk gives up, the fault is a new one unless the reset was for it. -/
theorem ownReset_iff_not_refault {faultResetAt : ℤ} (hw : w.outcome = none)
    (hfaulted : look.statusword.map decodeState = some .kFault)
    (hreset : w.faultResetAt = some faultResetAt)
    (hover : kFaultResetGrace ≤ look.checked - faultResetAt ∨ r.deadline ≤ look.ended) :
    (∃ done, .reset done ∈ episode w.trace) ↔ ¬ Refault r w look := by
  constructor
  · rintro ⟨done, hdone⟩ h
    exact h.earlier done hdone
  · intro h
    by_contra hnone
    exact h ⟨hw, hfaulted, ⟨faultResetAt, hreset, hover⟩, fun done hdone => hnone ⟨done, hdone⟩⟩

theorem verdictRight_fault_iff (hw : w.outcome = none) (hi : Issued w)
    (hs : look.statusword = some statusword) (hf : decodeState statusword = .kFault) :
    VerdictRight ((w.see statusword).fault r look) ↔ ¬ Refault r w look := by
  have hseen : (w.see statusword).trace = .saw .kFault :: w.trace := by
    rw [← hf]
    rfl
  have hfaulted : look.statusword.map decodeState = some .kFault := by
    rw [hs, Option.map_some, hf]
  cases hreset : w.faultResetAt with
  | none =>
    refine iff_of_true (verdictRight_fault_of_none hw hreset) ?_
    rintro ⟨-, -, ⟨faultResetAt, hsome, -⟩, -⟩
    rw [hreset] at hsome
    cases hsome
  | some faultResetAt =>
    have hreset' : (w.see statusword).faultResetAt = some faultResetAt := hreset
    unfold Walk.fault
    rw [hreset']
    dsimp only
    split_ifs with hgrace
    · rw [← ownReset_iff_not_refault hw hfaulted hreset (.inl hgrace)]
      refine verdictRight_iff_ownReset hi hreset hseen rfl rfl ?_
      rintro code decided ⟨⟩
      exact hgrace
    · by_cases hlate : r.deadline ≤ look.ended
      · rw [← ownReset_iff_not_refault hw hfaulted hreset (.inr hlate)]
        have hopen : (w.see statusword).outcome = none := hw
        have houtcome := Walk.rest_outcome r look .kFault hopen
        rw [if_pos hlate] at houtcome
        refine verdictRight_iff_ownReset hi hreset (Walk.rest_trace.trans hseen) houtcome rfl ?_
        rintro code decided ⟨⟩
      · refine iff_of_true (verdictRight_of_not_gaveUp ?_) ?_
        · intro why hwhy
          rw [Walk.rest_outcome _ _ _ (by exact hw), if_neg hlate] at hwhy
          cases hwhy
        · rintro ⟨-, -, ⟨_, hsome, hover⟩, -⟩
          rw [hreset] at hsome
          cases hsome
          rcases hover with hover | hover
          · exact hgrace hover
          · exact hlate hover

theorem verdictRight_turn_iff (hw : w.outcome = none) (hr : isCommandableState r.target = true)
    (hi : Issued w) : VerdictRight (w.turn r look) ↔ ¬ Refault r w look := by
  cases hs : look.statusword with
  | none =>
    refine iff_of_true (verdictRight_of_not_gaveUp ?_) ?_
    · simp only [Walk.turn, hw, hs]
      rintro why ⟨⟩
      rfl
    · intro h
      have hf := h.faulted
      rw [hs] at hf
      cases hf
  | some statusword =>
    by_cases hf : decodeState statusword = .kFault
    · rw [turn_of_fault hw hr hs hf]
      exact verdictRight_fault_iff hw hi hs hf
    · refine iff_of_true (verdictRight_of_not_gaveUp (turn_of_other hw hs hf).2.2) ?_
      intro h
      have hfault := h.faulted
      rw [hs] at hfault
      exact hf (Option.some.inj hfault)

/-! ### The whole walk -/

theorem issued_fault (hi : Issued w) (ht : ((w.see statusword).fault r look).outcome = none) :
    Issued ((w.see statusword).fault r look) := by
  have hseen : ∀ done, .reset done ∈ (w.see statusword).trace → w.faultResetAt = some done := by
    intro done hdone
    rcases List.mem_cons.mp hdone with heq | hdone
    · cases heq
    · exact hi done hdone
  have hsame : (w.see statusword).faultResetAt = w.faultResetAt := rfl
  unfold Walk.fault at ht ⊢
  cases hreset : w.faultResetAt with
  | none =>
    rw [hsame, hreset] at ht ⊢
    split_ifs at ht ⊢
    · intro done hdone
      rw [Walk.rest_trace] at hdone
      rw [Walk.rest_faultResetAt]
      rcases List.mem_cons.mp hdone with heq | hdone
      · cases heq
        rfl
      · have hnone := hseen done hdone
        rw [hreset] at hnone
        cases hnone
    · cases ht
  | some faultResetAt =>
    rw [hsame, hreset] at ht ⊢
    dsimp only at ht ⊢
    split_ifs at ht ⊢
    · cases ht
    · intro done hdone
      rw [Walk.rest_trace] at hdone
      rw [Walk.rest_faultResetAt, hsame]
      exact hseen done hdone

theorem issued_turn (hw : w.outcome = none) (hr : isCommandableState r.target = true)
    (hi : Issued w) (ht : (w.turn r look).outcome = none) : Issued (w.turn r look) := by
  cases hs : look.statusword with
  | none =>
    simp only [Walk.turn, hw, hs] at ht
    cases ht
  | some statusword =>
    by_cases hf : decodeState statusword = .kFault
    · rw [turn_of_fault hw hr hs hf] at ht ⊢
      exact issued_fault hi ht
    · obtain ⟨htrace, hreset, -⟩ := turn_of_other (r := r) hw hs hf
      intro done hdone
      rw [htrace, List.mem_cons, or_iff_right (by rintro ⟨⟩)] at hdone
      rw [hreset]
      exact hi done hdone

theorem turn_of_ended {result : Except Failure Unit} (hw : w.outcome = some result) :
    w.turn r look = w := by
  simp only [Walk.turn, hw]

theorem walk_append (r : Request) (looks : List Look) (look : Look) :
    walk r (looks ++ [look]) = (walk r looks).turn r look := by
  simp [walk]

/-- A walk that goes on is toward a state that can be asked for. -/
theorem issued_walk (looks : List Look) (h : (walk r looks).outcome = none) :
    isCommandableState r.target = true ∧ Issued (walk r looks) := by
  induction looks using List.reverseRecOn with
  | nil =>
    refine ⟨?_, ?_⟩
    · simpa [walk, Walk.start] using h
    · rintro done ⟨⟩
  | append_singleton looks look ih =>
    rw [walk_append] at h ⊢
    cases hw : (walk r looks).outcome with
    | none =>
      obtain ⟨hr, hi⟩ := ih hw
      exact ⟨hr, issued_turn hw hr hi h⟩
    | some result =>
      rw [turn_of_ended hw, hw] at h
      cases h

/-- A walk gives a wrong verdict only where it ends in a fault that is not the one it has reset. -/
theorem verdictRight_iff_not_refault (r : Request) (looks : List Look) :
    VerdictRight (walk r looks) ↔
      ∀ before look, before ++ [look] <+: looks → ¬ Refault r (walk r before) look := by
  induction looks using List.reverseRecOn with
  | nil =>
    refine iff_of_true (verdictRight_of_not_gaveUp ?_) ?_
    · intro why hwhy
      simp only [walk, List.foldl_nil, Walk.start] at hwhy
      split_ifs at hwhy
      cases hwhy
      rfl
    · intro before look hprefix
      simp at hprefix
  | append_singleton looks look ih =>
    have hsplit : (∀ before look', before ++ [look'] <+: looks ++ [look] →
        ¬ Refault r (walk r before) look') ↔
        (∀ before look', before ++ [look'] <+: looks → ¬ Refault r (walk r before) look') ∧
          ¬ Refault r (walk r looks) look := by
      constructor
      · intro h
        exact ⟨fun before look' hp => h before look' (hp.trans (List.prefix_append _ _)),
          h looks look (List.prefix_refl _)⟩
      · rintro ⟨hbefore, hlast⟩ before look' hp
        rcases List.prefix_concat_iff.mp hp with heq | hp
        · obtain ⟨rfl, hlook⟩ := List.append_inj' heq rfl
          rw [List.singleton_inj.mp hlook]
          exact hlast
        · exact hbefore before look' hp
    rw [hsplit, ← ih, walk_append]
    cases hw : (walk r looks).outcome with
    | none =>
      obtain ⟨hr, hi⟩ := issued_walk looks hw
      rw [verdictRight_turn_iff hw hr hi, and_iff_right]
      refine verdictRight_of_not_gaveUp ?_
      intro why hwhy
      rw [hw] at hwhy
      cases hwhy
    | some result =>
      rw [turn_of_ended hw, iff_self_and]
      intro _ h
      have hwalking := h.walking
      rw [hw] at hwalking
      cases hwalking

/-! ### The walk with the drive in it -/

/-- A turn sees what `walkTurn` says a poll meets. -/
structure Look.Matches (look : Look) (w : Walk) (state : State) (poll : Poll) : Prop where
  read : look.statusword.map decodeState =
    if poll.read then some (drifted state poll.drift) else none
  reply : look.reply = decide (poll.reply = .ok)
  grace : ∀ faultResetAt, w.faultResetAt = some faultResetAt →
    poll.graceOver = decide (kFaultResetGrace ≤ look.checked - faultResetAt)

/-- How a turn ends, next to how it ends with the drive in it. -/
def Walk.Ends (w : Walk) (r : Request) (look : Look) : Turn → Prop
  | .finished reached _ => w.outcome.map Except.isOk = some reached
  | .again resetIssued quickStopIssued _ =>
    w.faultResetAt.isSome = resetIssued ∧ w.quickStopIssued = quickStopIssued ∧
      (w.outcome = none ∨ r.deadline ≤ look.ended)

theorem Walk.rest_ends (r : Request) (look : Look) (current : State) (hw : w.outcome = none)
    (state : State) :
    (w.rest r look current).Ends r look
      (.again w.faultResetAt.isSome w.quickStopIssued state) := by
  unfold Walk.rest
  split_ifs with hlate
  · exact ⟨rfl, rfl, Or.inr hlate⟩
  · exact ⟨rfl, rfl, Or.inl hw⟩

variable {poll : Poll}

theorem walkTurn_of_fault {target state : State}
    {override passes resetIssued quickStopIssued : Bool}
    (hread : poll.read = true) (hf : drifted state poll.drift = .kFault)
    (hr : isCommandableState target = true) :
    walkTurn target override passes resetIssued quickStopIssued state poll =
      if resetIssued then
        if poll.graceOver then .finished false .kFault else .again true quickStopIssued .kFault
      else
        match poll.reply with
        | .ok => .again true quickStopIssued (if poll.cleared then .kSwitchOnDisabled else .kFault)
        | .failed landed =>
          .finished false (if landed ∧ poll.cleared then .kSwitchOnDisabled else .kFault) := by
  have htarget : State.kFault ≠ target := by
    rintro rfl
    cases hr
  cases resetIssued <;> cases hreply : poll.reply <;> cases hcleared : poll.cleared <;>
    simp [walkTurn, hread, hf, nextFsaTransition, hr, htarget, hreply, hcleared, obey]

theorem fault_ends (hw : w.outcome = none)
    (hreply : look.reply = decide (poll.reply = .ok))
    (hgrace : ∀ faultResetAt, w.faultResetAt = some faultResetAt →
      poll.graceOver = decide (kFaultResetGrace ≤ look.checked - faultResetAt)) :
    (w.fault r look).Ends r look
      (if w.faultResetAt.isSome then
        if poll.graceOver then .finished false .kFault else .again true w.quickStopIssued .kFault
      else
        match poll.reply with
        | .ok =>
          .again true w.quickStopIssued (if poll.cleared then .kSwitchOnDisabled else .kFault)
        | .failed landed =>
          .finished false (if landed ∧ poll.cleared then .kSwitchOnDisabled else .kFault)) := by
  unfold Walk.fault
  cases hreset : w.faultResetAt with
  | some faultResetAt =>
    simp only [Option.isSome_some, if_true, hgrace faultResetAt hreset, decide_eq_true_eq]
    split_ifs
    · rfl
    · have hends := Walk.rest_ends r look .kFault hw .kFault
      rw [hreset] at hends
      exact hends
  | none =>
    simp only [Option.isSome_none, Bool.false_eq_true, if_false, hreply, decide_eq_true_eq]
    cases poll.reply with
    | failed landed => rfl
    | ok =>
      exact Walk.rest_ends (w := { w with
        faultResetAt := some look.resetDone
        trace := .reset look.resetDone :: w.trace }) _ _ _ hw _

/-- The walk goes as `walkTurn` says, where the master sees the drive. -/
theorem turn_ends_walkTurn {state : State} (hw : w.outcome = none)
    (hr : isCommandableState r.target = true) (h : look.Matches w state poll) :
    (w.turn r look).Ends r look (walkTurn r.target r.allowQuickStopOverride
      r.quickStopPassesThrough w.faultResetAt.isSome w.quickStopIssued state poll) := by
  have hread := h.read
  cases hs : look.statusword with
  | none =>
    rw [hs] at hread
    have hfalse : poll.read = false := by
      by_contra htrue
      rw [if_pos (Bool.eq_true_of_not_eq_false htrue)] at hread
      cases hread
    simp only [walkTurn, hfalse, if_true, Walk.turn, hw, hs]
    rfl
  | some statusword =>
    rw [hs] at hread
    have htrue : poll.read = true := by
      by_contra hfalse
      rw [if_neg hfalse] at hread
      cases hread
    rw [if_pos htrue] at hread
    have hcurrent : drifted state poll.drift = decodeState statusword :=
      (Option.some.inj hread).symm
    by_cases hf : decodeState statusword = .kFault
    · rw [turn_of_fault hw hr hs hf, walkTurn_of_fault htrue (hcurrent.trans hf) hr]
      exact fault_ends (w := w.see statusword) hw h.reply h.grace
    have hquick : (w.see statusword).quickStopIssued = w.quickStopIssued := rfl
    simp only [walkTurn, htrue, Bool.true_eq_false, if_false, hcurrent, Walk.turn, hw, hs, hquick]
    split
    · rfl
    · cases nextFsaTransition (decodeState statusword) r.target r.allowQuickStopOverride with
      | kArrived => rfl
      | kUnreachable => rfl
      | kWait => exact Walk.rest_ends (w := w.see statusword) _ _ _ hw _
      | kCommand command =>
        simp only [Walk.act, hf, false_and, if_false, h.reply]
        cases poll.reply with
        | failed landed => rfl
        | ok =>
          simp only [decide_false, Bool.or_false]
          exact Walk.rest_ends (w := { w.see statusword with
            commandIssued := true
            quickStopIssued := w.quickStopIssued || command = .kCmdQuickStop }) _ _ _ hw _

def enabling : Request := ⟨.kOperationEnabled, false, none, 1000000000⟩

/-- A turn at the given time in which everything succeeds. -/
def lookAt (statusword : Word) (now : ℤ) : Look :=
  ⟨some statusword, now, true, now, none, now⟩

/-- The reset clears the first fault. The drive climbs, and faults again 300 ms later. -/
def faultsAgain : List Look :=
  [lookAt 0x0008 0, lookAt 0x0040 2000000, lookAt 0x0021 4000000, lookAt 0x0008 300000000]

theorem faultsAgain_not_verdictRight :
    (walk enabling faultsAgain).outcome = some (.error (.stillInFault none 300000000)) ∧
      ¬ VerdictRight (walk enabling faultsAgain) := by
  have htrace : (walk enabling faultsAgain).trace =
      [.saw .kFault, .saw .kReadyToSwitchOn, .saw .kSwitchOnDisabled, .reset 0, .saw .kFault] := by
    decide +kernel
  have houtcome : (walk enabling faultsAgain).outcome =
      some (.error (.stillInFault none 300000000)) := by
    rfl
  refine ⟨houtcome, ?_⟩
  intro h
  obtain ⟨done, hdone⟩ := h.ownReset _ houtcome rfl
  rw [htrace] at hdone
  rcases List.mem_cons.mp hdone with heq | hdone
  · cases heq
  · cases hdone

end MotionMaster.Cia402
