import Mathlib.Tactic.Common

/-!
# The CiA402 state machine

The states of a drive, what it does on a command, and `transitionToState`, which walks a drive to a
state by issuing one command at a time and looking again. A drive also changes its state on its
own, but enters Operation Enabled only when it is told to.
-/

namespace MotionMaster.Cia402

inductive State where
  | kNotReadyToSwitchOn
  | kSwitchOnDisabled
  | kReadyToSwitchOn
  | kSwitchedOn
  | kOperationEnabled
  | kQuickStopActive
  | kFaultReactionActive
  | kFault
  deriving DecidableEq

inductive Command where
  | kCmdShutdown
  | kCmdSwitchOn
  | kCmdEnableOperation
  | kCmdDisableVoltage
  | kCmdQuickStop
  | kCmdFaultReset
  deriving DecidableEq

def isCommandableState : State → Bool
  | .kSwitchOnDisabled | .kReadyToSwitchOn | .kSwitchedOn | .kOperationEnabled
  | .kQuickStopActive => true
  | .kNotReadyToSwitchOn | .kFaultReactionActive | .kFault => false

inductive FsaTransition where
  | kArrived
  | kCommand (command : Command)
  | kWait
  | kUnreachable

/-- One step of the walk toward a target. -/
def nextFsaTransition (source target : State) (allowQuickStopOverride : Bool) : FsaTransition :=
  if isCommandableState target = false then .kUnreachable
  else if source = target then .kArrived
  else
    match source with
    | .kNotReadyToSwitchOn | .kFaultReactionActive => .kWait
    | .kFault => .kCommand .kCmdFaultReset
    | .kSwitchOnDisabled => .kCommand .kCmdShutdown
    | .kReadyToSwitchOn =>
      if target = .kSwitchOnDisabled then .kCommand .kCmdDisableVoltage
      else .kCommand .kCmdSwitchOn
    | .kSwitchedOn =>
      if target = .kSwitchOnDisabled then .kCommand .kCmdDisableVoltage
      else if target = .kReadyToSwitchOn then .kCommand .kCmdShutdown
      else .kCommand .kCmdEnableOperation
    | .kOperationEnabled =>
      if target = .kSwitchOnDisabled then .kCommand .kCmdDisableVoltage
      else if target = .kReadyToSwitchOn then .kCommand .kCmdShutdown
      else if target = .kSwitchedOn then .kCommand .kCmdSwitchOn
      else .kCommand .kCmdQuickStop
    | .kQuickStopActive =>
      if target = .kOperationEnabled then
        if allowQuickStopOverride then .kCommand .kCmdEnableOperation else .kUnreachable
      else .kCommand .kCmdDisableVoltage

/-- What the drive does on a command. The firmware answers the combined command in Ready To Switch
On by moving one state. -/
def obey : State → Command → State
  | .kSwitchOnDisabled, .kCmdShutdown => .kReadyToSwitchOn
  | .kSwitchedOn, .kCmdShutdown => .kReadyToSwitchOn
  | .kOperationEnabled, .kCmdShutdown => .kReadyToSwitchOn
  | .kReadyToSwitchOn, .kCmdSwitchOn => .kSwitchedOn
  | .kOperationEnabled, .kCmdSwitchOn => .kSwitchedOn
  | .kReadyToSwitchOn, .kCmdEnableOperation => .kSwitchedOn
  | .kSwitchedOn, .kCmdEnableOperation => .kOperationEnabled
  | .kQuickStopActive, .kCmdEnableOperation => .kOperationEnabled
  | .kReadyToSwitchOn, .kCmdDisableVoltage => .kSwitchOnDisabled
  | .kSwitchedOn, .kCmdDisableVoltage => .kSwitchOnDisabled
  | .kOperationEnabled, .kCmdDisableVoltage => .kSwitchOnDisabled
  | .kQuickStopActive, .kCmdDisableVoltage => .kSwitchOnDisabled
  | .kReadyToSwitchOn, .kCmdQuickStop => .kSwitchOnDisabled
  | .kSwitchedOn, .kCmdQuickStop => .kSwitchOnDisabled
  | .kOperationEnabled, .kCmdQuickStop => .kQuickStopActive
  | .kFault, .kCmdFaultReset => .kSwitchOnDisabled
  | state, _ => state

/-- A state the drive enters on its own. -/
abbrev Drift := { state : State // state ≠ .kOperationEnabled }

def drifted (state : State) : Option Drift → State
  | none => state
  | some drift => drift.1

/-- How a write ended. One that failed may have reached the drive. -/
inductive Reply where
  | ok
  | failed (landed : Bool)
  deriving DecidableEq

def Reply.landed : Reply → Bool
  | .ok => true
  | .failed landed => landed

/-- What one turn of the loop meets: the state the drive has changed to, whether the statusword
could be read, how the command was answered, whether a fault reset clears the fault, and whether an
earlier one has had its time. -/
structure Poll where
  drift : Option Drift
  read : Bool
  reply : Reply
  cleared : Bool
  graceOver : Bool

/-- A turn of the loop ends the walk, or leaves it to the next turn. -/
inductive Turn where
  | finished (reached : Bool) (state : State)
  | again (resetIssued quickStopIssued : Bool) (state : State)

def Turn.state : Turn → State
  | .finished _ state | .again _ _ state => state

/-- One turn of the loop of `transitionToState`. -/
def walkTurn (target : State) (allowQuickStopOverride passesThrough resetIssued
    quickStopIssued : Bool) (state : State) (poll : Poll) : Turn :=
  let current := drifted state poll.drift
  if poll.read = false then .finished false current
  else if passesThrough ∧ current = .kSwitchOnDisabled ∧ quickStopIssued then
    .finished true current
  else
    match nextFsaTransition current target allowQuickStopOverride with
    | .kArrived => .finished true current
    | .kUnreachable => .finished false current
    | .kWait => .again resetIssued quickStopIssued current
    | .kCommand command =>
      if current = .kFault ∧ resetIssued then
        if poll.graceOver then .finished false current
        else .again resetIssued quickStopIssued current
      else
        -- The drive acts on a fault reset only once the cause of the fault is gone.
        let reached := if current = .kFault ∧ poll.cleared = false then current
          else obey current command
        match poll.reply with
        | .failed landed => .finished false (if landed then reached else current)
        | .ok => .again (resetIssued || current = .kFault)
            (quickStopIssued || command = .kCmdQuickStop) reached

/-- The loop of `transitionToState`, which times out after the last poll, with whether it got there
and the state the drive is in. -/
def walkLoop (target : State) (allowQuickStopOverride passesThrough : Bool)
    (resetIssued quickStopIssued : Bool) (state : State) (poll : Poll) :
    List Poll → Bool × State
  | [] =>
    match walkTurn target allowQuickStopOverride passesThrough resetIssued quickStopIssued state
      poll with
    | .finished reached state => (reached, state)
    | .again _ _ state => (false, state)
  | next :: polls =>
    match walkTurn target allowQuickStopOverride passesThrough resetIssued quickStopIssued state
      poll with
    | .finished reached state => (reached, state)
    | .again resetIssued quickStopIssued state =>
      walkLoop target allowQuickStopOverride passesThrough resetIssued quickStopIssued state next
        polls

/-- `quickStopHolds` is what the drive says of its quick stop. -/
def transitionToState (target : State) (allowQuickStopOverride quickStopHolds : Bool)
    (state : State) (poll : Poll) (polls : List Poll) : Bool × State :=
  if isCommandableState target = false then (false, state)
  else
    walkLoop target allowQuickStopOverride
      (target = .kQuickStopActive ∧ quickStopHolds = false) false false state poll polls

/-- A state below Operation Enabled that is not reached through it. -/
def State.Low (state : State) : Prop :=
  state = .kSwitchOnDisabled ∨ state = .kReadyToSwitchOn ∨ state = .kSwitchedOn
  deriving Decidable

/-- The accesses of a poll succeed. -/
def Poll.Answered (poll : Poll) : Prop := poll.read = true ∧ poll.reply = .ok
  deriving Decidable

variable {state target : State} {command : Command}

theorem obey_disableVoltage (state : State) :
    obey state .kCmdDisableVoltage ≠ .kOperationEnabled := by
  cases state <;> decide

/-- No command on the way down leads to Operation Enabled. -/
theorem obey_of_low (ht : target.Low) (override : Bool)
    (h : nextFsaTransition state target override = .kCommand command) :
    obey state command ≠ .kOperationEnabled := by
  rcases ht with rfl | rfl | rfl <;> cases state <;>
    simp_all [nextFsaTransition, isCommandableState] <;> subst command <;> decide

/-- In Operation Enabled a walk down has a command to issue. -/
theorem kCommand_of_low (ht : target.Low) (override : Bool) :
    ∃ command, nextFsaTransition .kOperationEnabled target override = .kCommand command := by
  rcases ht with rfl | rfl | rfl <;> exact ⟨_, rfl⟩

theorem walkTurn_of_low (ht : target.Low) (override passesThrough resetIssued
    quickStopIssued : Bool) (state : State) {poll : Poll} (hp : poll.Answered) :
    (walkTurn target override passesThrough resetIssued quickStopIssued state poll).state ≠
      .kOperationEnabled := by
  simp only [walkTurn, hp.1, hp.2, Bool.true_eq_false, if_false]
  generalize drifted state poll.drift = current
  by_cases he : current = .kOperationEnabled
  · obtain ⟨command, hc⟩ := kCommand_of_low ht override
    have hobey := obey_of_low ht override hc
    simp only [he, hc, reduceCtorEq, false_and, and_false, if_false, Turn.state]
    exact hobey
  · cases hc : nextFsaTransition current target override with
    | kArrived | kUnreachable | kWait => split_ifs <;> exact he
    | kCommand command =>
      have hobey := obey_of_low ht override hc
      split_ifs <;> first | exact he | exact hobey

/-- A walk down ends outside Operation Enabled, whether or not it gets there. -/
theorem walkLoop_of_low (ht : target.Low) (override passesThrough : Bool) (polls : List Poll)
    (resetIssued quickStopIssued : Bool) (state : State) {poll : Poll} (hp : poll.Answered)
    (hps : ∀ poll ∈ polls, poll.Answered) :
    (walkLoop target override passesThrough resetIssued quickStopIssued state poll polls).2 ≠
      .kOperationEnabled := by
  induction polls generalizing resetIssued quickStopIssued state poll with
  | nil =>
    have hturn := walkTurn_of_low ht override passesThrough resetIssued quickStopIssued state hp
    unfold walkLoop
    split <;> rename_i hw <;> rw [hw] at hturn <;> exact hturn
  | cons next polls ih =>
    have hturn := walkTurn_of_low ht override passesThrough resetIssued quickStopIssued state hp
    unfold walkLoop
    split
    · rename_i hw
      rw [hw] at hturn
      exact hturn
    · exact ih _ _ _ (hps next List.mem_cons_self) fun poll hpoll =>
        hps poll (List.mem_cons_of_mem _ hpoll)

theorem transitionToState_of_low (ht : target.Low) (override holds : Bool) (state : State)
    {poll : Poll} {polls : List Poll} (hp : poll.Answered) (hps : ∀ poll ∈ polls, poll.Answered) :
    (transitionToState target override holds state poll polls).2 ≠ .kOperationEnabled := by
  have hc : isCommandableState target = true := by rcases ht with rfl | rfl | rfl <;> rfl
  rw [transitionToState, if_neg (by rw [hc]; decide)]
  exact walkLoop_of_low ht _ _ _ _ _ _ hp hps

/-- A quick stop takes the drive out of Operation Enabled at once. -/
theorem walkLoop_quickStop (override passesThrough : Bool) (polls : List Poll)
    (resetIssued quickStopIssued : Bool) {poll : Poll}
    (hs : state = .kOperationEnabled ∨ state = .kQuickStopActive)
    (h : ∀ p ∈ poll :: polls, p.Answered ∧ p.drift = none) :
    (walkLoop .kQuickStopActive override passesThrough resetIssued quickStopIssued state poll
      polls).2 = .kQuickStopActive := by
  induction polls generalizing resetIssued quickStopIssued state poll with
  | nil =>
    obtain ⟨⟨hread, hreply⟩, hdrift⟩ := h poll List.mem_cons_self
    rcases hs with rfl | rfl <;>
      simp [walkLoop, walkTurn, hread, hreply, hdrift, drifted, nextFsaTransition,
        isCommandableState, obey]
  | cons next polls ih =>
    obtain ⟨⟨hread, hreply⟩, hdrift⟩ := h poll List.mem_cons_self
    have hrest := fun resetIssued quickStopIssued => ih resetIssued quickStopIssued (.inr rfl)
      fun p hp => h p (List.mem_cons_of_mem _ hp)
    rcases hs with rfl | rfl <;>
      simp [walkLoop, walkTurn, hread, hreply, hdrift, drifted, nextFsaTransition,
        isCommandableState, obey, hrest]

theorem transitionToState_quickStop (override holds : Bool) {poll : Poll}
    {polls : List Poll} (hs : state = .kOperationEnabled ∨ state = .kQuickStopActive)
    (h : ∀ p ∈ poll :: polls, p.Answered ∧ p.drift = none) :
    (transitionToState .kQuickStopActive override holds state poll polls).2 ≠
      .kOperationEnabled := by
  rw [transitionToState, if_neg (by decide), walkLoop_quickStop _ _ _ _ _ hs h]
  decide

/-! ### The walk gets there -/

/-- Everything works, and the drive does nothing on its own. -/
def Poll.Cooperative (poll : Poll) : Prop :=
  poll.Answered ∧ poll.drift = none ∧ poll.cleared = true

/-- The order in which a walk up passes the states. -/
def State.rung : State → ℕ
  | .kSwitchOnDisabled => 1
  | .kReadyToSwitchOn => 2
  | .kSwitchedOn => 3
  | .kOperationEnabled => 4
  | .kQuickStopActive => 5
  | .kNotReadyToSwitchOn | .kFaultReactionActive | .kFault => 0

/-- Commands it takes at most. The way down takes one, but a quick stop is left through Switch On
Disabled. -/
def commandsTo (target state : State) : ℕ :=
  if state.rung ≤ target.rung then target.rung - state.rung
  else if state = .kQuickStopActive then target.rung else 1

/-- There is a way to the target that does not wait for the drive, and a quick stop was the last
command of it. -/
def HasWay (target : State) (override resetIssued quickStopIssued : Bool) (state : State) : Prop :=
  state ≠ .kNotReadyToSwitchOn ∧ state ≠ .kFaultReactionActive ∧
    (state = .kFault → resetIssued = false) ∧
    (state = .kQuickStopActive → target = .kOperationEnabled → override = true) ∧
    (quickStopIssued = true → state = target)
  deriving Decidable

variable {override resetIssued quickStopIssued : Bool} {poll : Poll} {polls : List Poll}

theorem exists_command_of_hasWay (ht : isCommandableState target = true) (hne : state ≠ target)
    (h : HasWay target override resetIssued quickStopIssued state) :
    ∃ command, nextFsaTransition state target override = .kCommand command ∧
      commandsTo target (obey state command) < commandsTo target state ∧
      HasWay target override true (quickStopIssued || command = .kCmdQuickStop)
        (obey state command) := by
  obtain ⟨hready, hreaction, -, hover, hissued⟩ := h
  obtain rfl : quickStopIssued = false := by
    cases quickStopIssued with
    | false => rfl
    | true => exact absurd (hissued rfl) hne
  -- the state and the target decide about the command, but for a quick stop that is overridden
  cases state <;> cases target <;> first
    | exact absurd rfl hne
    | exact absurd rfl hready
    | exact absurd rfl hreaction
    | exact absurd ht (by decide)
    | exact ⟨_, rfl, by decide, by decide, by decide, nofun, nofun, by decide⟩
    | exact ⟨_, if_pos (hover rfl rfl), by decide, by decide, by decide, nofun, nofun, by decide⟩

/-- A turn ends the walk at the target, or leaves less of the way. -/
theorem walkTurn_of_hasWay (ht : isCommandableState target = true) (hp : poll.Cooperative)
    (h : HasWay target override resetIssued quickStopIssued state) (passes : Bool) :
    (state = target ∧ walkTurn target override passes resetIssued quickStopIssued state poll =
        .finished true target) ∨
      ∃ reset quickStop next, walkTurn target override passes resetIssued quickStopIssued state
          poll = .again reset quickStop next ∧
        commandsTo target next < commandsTo target state ∧
        HasWay target override reset quickStop next := by
  obtain ⟨⟨hread, hreply⟩, hdrift, hcleared⟩ := hp
  by_cases hne : state = target
  · simp [walkTurn, hread, hdrift, drifted, nextFsaTransition, ht, hne]
  · obtain ⟨command, hc, hlt, hway⟩ := exists_command_of_hasWay ht hne h
    have hfault : ¬ (state = .kFault ∧ resetIssued = true) := by
      rintro ⟨hs, hr⟩
      rw [h.2.2.1 hs] at hr
      cases hr
    have hpass : ¬ (passes = true ∧ state = .kSwitchOnDisabled ∧ quickStopIssued = true) :=
      fun hpass => hne (h.2.2.2.2 hpass.2.2)
    refine .inr ⟨resetIssued || state = .kFault, quickStopIssued || command = .kCmdQuickStop,
      obey state command, ?_, hlt, hway.1, hway.2.1, ?_, hway.2.2.2⟩
    · simp only [walkTurn, hread, hreply, hdrift, drifted, hcleared, hc, hpass, hfault,
        Bool.true_eq_false, if_false, and_false]
    · exact fun hs => absurd (hway.2.2.1 hs) (by decide)

theorem walkLoop_arrives (ht : isCommandableState target = true) (hp : poll.Cooperative)
    (hps : ∀ poll ∈ polls, poll.Cooperative)
    (h : HasWay target override resetIssued quickStopIssued state)
    (hl : commandsTo target state ≤ polls.length) (passes : Bool) :
    walkLoop target override passes resetIssued quickStopIssued state poll polls =
      (true, target) := by
  induction polls generalizing resetIssued quickStopIssued state poll with
  | nil =>
    obtain ⟨-, hturn⟩ | ⟨_, _, _, -, hlt, -⟩ := walkTurn_of_hasWay ht hp h passes
    · simp only [walkLoop, hturn]
    · exact absurd (Nat.lt_of_lt_of_le hlt hl) (Nat.not_lt_zero _)
  | cons next polls ih =>
    obtain ⟨-, hturn⟩ | ⟨_, _, _, hturn, hlt, hway⟩ := walkTurn_of_hasWay ht hp h passes
    · simp only [walkLoop, hturn]
    · rw [List.forall_mem_cons] at hps
      simp only [walkLoop, hturn]
      exact ih hps.1 hps.2 hway (Nat.le_of_lt_succ (Nat.lt_of_lt_of_le hlt hl))

theorem walkLoop_first (ht : isCommandableState target = true) (hp : poll.Cooperative)
    (h : HasWay target override resetIssued quickStopIssued state) (hne : state ≠ target)
    (passes : Bool) :
    commandsTo target
        (walkLoop target override passes resetIssued quickStopIssued state poll []).2 <
      commandsTo target state := by
  obtain ⟨htarget, -⟩ | ⟨_, _, _, hturn, hlt, -⟩ := walkTurn_of_hasWay ht hp h passes
  · exact absurd htarget hne
  · simpa only [walkLoop, hturn] using hlt

/-- One poll more leaves less of the way. -/
theorem walkLoop_concat (ht : isCommandableState target = true) (hp : poll.Cooperative)
    (hps : ∀ poll ∈ polls, poll.Cooperative) {last : Poll} (hlast : last.Cooperative)
    (h : HasWay target override resetIssued quickStopIssued state) {passes : Bool}
    (hne : (walkLoop target override passes resetIssued quickStopIssued state poll polls).2 ≠
      target) :
    commandsTo target (walkLoop target override passes resetIssued quickStopIssued state poll
        (polls ++ [last])).2 <
      commandsTo target
        (walkLoop target override passes resetIssued quickStopIssued state poll polls).2 := by
  induction polls generalizing resetIssued quickStopIssued state poll with
  | nil =>
    obtain ⟨-, hturn⟩ | ⟨_, _, _, hturn, -, hway⟩ := walkTurn_of_hasWay ht hp h passes <;>
      simp only [List.nil_append, walkLoop, hturn] at hne ⊢
    · exact absurd rfl hne
    · exact walkLoop_first ht hlast hway hne passes
  | cons next polls ih =>
    rw [List.forall_mem_cons] at hps
    obtain ⟨-, hturn⟩ | ⟨_, _, _, hturn, -, hway⟩ := walkTurn_of_hasWay ht hp h passes <;>
      simp only [List.cons_append, walkLoop, hturn] at hne ⊢
    · exact absurd rfl hne
    · exact ih hps.1 hps.2 hway hne

end MotionMaster.Cia402
