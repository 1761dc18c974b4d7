import MotionMaster.Device.Mapping
import MotionMaster.DeviceManager.Setpoint

/-!
# Changing the AL state of devices

`transitionToState` as one operation that holds the bus-operation lock. Bringing a device into an
exchange state re-maps the whole bus, for which every other device in OP is dropped to SAFE-OP and
climbed back afterwards.
-/

namespace MotionMaster.StateChange

open Setpoint (alState alHasError exchangesProcessData kPreOp kSafeOp kOp)

inductive EtherCatState where
  | init | preOp | boot | safeOp | op
  deriving DecidableEq, Repr

def EtherCatState.code : EtherCatState → ℕ
  | .init => 0x01
  | .preOp => kPreOp
  | .boot => 0x03
  | .safeOp => kSafeOp
  | .op => kOp

/-- `toString(EtherCatState)`. -/
def stateText (state : ℕ) : String :=
  if state = 0x01 then "INIT"
  else if state = kPreOp then "PRE-OP"
  else if state = 0x03 then "BOOT"
  else if state = kSafeOp then "SAFE-OP"
  else if state = kOp then "OP"
  else "UNKNOWN"

/-- Single-step climbs, any drop, and BOOT only from and to INIT. A state that is none of the five
permits nothing. -/
def kValidStateTransitions : List (ℕ × List EtherCatState) :=
  [(0x01, [.init, .preOp, .boot]),
    (kPreOp, [.preOp, .init, .safeOp]),
    (kSafeOp, [.safeOp, .preOp, .init, .op]),
    (kOp, [.op, .safeOp, .preOp, .init]),
    (0x03, [.boot, .init])]

def isValidStateTransition (currentState : ℕ) (targetState : EtherCatState) : Bool :=
  match kValidStateTransitions.lookup currentState with
  | some allowed => targetState ∈ allowed
  | none => false

inductive Reachability where
  | answering | addressLost | notAnswering
  deriving DecidableEq, Repr

structure SlaveStateRaw where
  alStatus : BitVec 16
  alStatusCode : BitVec 16
  reachability : Reachability

structure DeviceStateInfo where
  slavePosition : ℕ
  alStatus : BitVec 16
  alState : ℕ
  error : Bool
  alStatusCode : BitVec 16
  reachability : Reachability

def decodeState (slavePosition : ℕ) (raw : SlaveStateRaw) : DeviceStateInfo :=
  ⟨slavePosition, raw.alStatus, alState raw.alStatus, alHasError raw.alStatus, raw.alStatusCode,
    raw.reachability⟩

/-- What the bus does during one attempt to map it. -/
structure MapAttempt where
  configured : Except String Unit
  /-- What the mapping of the device at each position is read from. -/
  mapping : ℕ → MappingSource
  processDataLayout : PdoLayout

/-- What the driver and the real-time loop do during the call. `statesBefore` and `statesAfter` are
the two reads of the targets, in their order. -/
structure Answers where
  stateChangeRefusal : Option String
  statesBefore : Except String (ℕ → SlaveStateRaw)
  statesAfter : Except String (ℕ → SlaveStateRaw)
  drained : Bool
  attempt : ℕ → MapAttempt

/-- The cached states after a read of the targets, the first of them numbered `i`. -/
def refreshed (states : ℕ → SlaveStateRaw) :
    ℕ → List ℕ → (ℕ → BitVec 16) → ℕ → BitVec 16
  | _, [], cache => cache
  | i, pos :: targets, cache =>
    refreshed states (i + 1) targets <|
      if (states i).reachability = .answering then
        Function.update cache pos (states i).alStatus
      else cache

structure Bus where
  driver : Bool
  devices : List Device
  /-- The AL state each device is in. -/
  al : ℕ → ℕ
  /-- The AL status the driver has cached. -/
  slaveState : ℕ → BitVec 16
  image : Option ProcessImage

namespace Bus

variable (bus : Bus) (answers : Answers)

def processDataConfigured : Bool := bus.image.isSome

/-- No position means every device. -/
def resolveTargets (positions : List ℕ) : Except String (List ℕ) :=
  if positions = [] then .ok (bus.devices.map (·.slavePosition))
  else
    match positions.find? fun pos => pos ∉ bus.devices.map (·.slavePosition) with
    | some unknown => .error ("unknown device position " ++ toString unknown)
    | none => .ok positions

/-- A request of the driver, which takes effect. Devices that are not in the required state are
skipped. -/
def command (positions : List ℕ) (requiredState : Option ℕ) (targetState : ℕ) : Bus :=
  { bus with
    al := fun pos =>
      if pos ∈ positions ∧ (∀ required ∈ requiredState, bus.al pos = required) then targetState
      else bus.al pos }

/-- `readStates` refreshes the cache of each device that answers. -/
def refresh (states : ℕ → SlaveStateRaw) (targets : List ℕ) : Bus :=
  { bus with slaveState := refreshed states 0 targets bus.slaveState }

/-- The driver's map, every device's PDO mapping, and the image built from the two. -/
def mapOnce (attempt : MapAttempt) : Except String (List Device × ProcessImage) := do
  attempt.configured
  let devices ← bus.devices.mapM fun device => do
    let flat ← (attempt.mapping device.slavePosition).read
    pure { device with flatPdoMapping := flat }
  let image ← buildProcessImage attempt.processDataLayout devices
  pure (devices, image)

def kProcessDataMapAttempts : ℕ := 3

/-- The attempt `i`, and up to `n` more while they fail. The last failure is the one reported. -/
def mapAttempts (i : ℕ) : ℕ → Except String (List Device × ProcessImage)
  | 0 => bus.mapOnce (answers.attempt i)
  | n + 1 =>
    match bus.mapOnce (answers.attempt i) with
    | .ok image => .ok image
    | .error _ => mapAttempts (i + 1) n

/-- The exchange stops before anything else, whether or not the cycle leaves in time. -/
def remapProcessImage : Except String Unit × Bus :=
  if ¬ bus.driver then
    (.error "configureProcessData: no driver — call init() first", bus)
  else if bus.devices = [] then
    (.error "configureProcessData: no devices — call scan() first", bus)
  else if ¬ answers.drained then
    (.error ("the real-time loop did not leave its cycle within 200 ms, so the process image " ++
      "was not re-mapped — check GET /api/game-loop for a stalled loop or a cyclic task that " ++
      "overruns"), { bus with image := none })
  else
    match bus.mapAttempts answers 0 (kProcessDataMapAttempts - 1) with
    | .error e => (.error e, { bus with image := none })
    | .ok (devices, image) => (.ok (), { bus with devices := devices, image := some image })

def anyJoining (targets unreachable : List ℕ) : Bool :=
  targets.any fun pos =>
    pos ∈ bus.devices.map (·.slavePosition) ∧ ¬ exchangesProcessData (bus.slaveState pos) ∧
      pos ∉ unreachable

def opStayers (targets : List ℕ) : List ℕ :=
  (bus.devices.map (·.slavePosition)).filter fun pos =>
    pos ∉ targets ∧ alState (bus.slaveState pos) = kOp

/-- Drops the stayers, re-maps the bus and climbs them back. -/
def remapAround (stayers : List ℕ) : Except String Unit × Bus :=
  let dropped := if stayers = [] then bus else bus.command stayers none kSafeOp
  match dropped.remapProcessImage answers with
  | (.error e, bus) => (.error ("auto-configure process data failed: " ++ e), bus)
  | (.ok _, bus) => (.ok (), if stayers = [] then bus else bus.command stayers (some kSafeOp) kOp)

/-- Maps the bus around a request for an exchange state, or stops the exchange if no other device
stays in one. -/
def react (targets unreachable : List ℕ) (targetState : EtherCatState) : Except String Unit × Bus :=
  if targetState = .safeOp ∨ targetState = .op then
    if ¬ bus.processDataConfigured ∨ bus.anyJoining targets unreachable then
      bus.remapAround answers (bus.opStayers targets)
    else (.ok (), bus)
  else if bus.processDataConfigured then
    let anyStays := bus.devices.any fun d =>
      d.slavePosition ∉ targets ∧ exchangesProcessData (bus.slaveState d.slavePosition)
    if anyStays then (.ok (), bus) else (.ok (), { bus with image := none })
  else (.ok (), bus)

end Bus

/-- The targets that do not answer, or the first illegal transition. -/
def checkTransitions (targetState : EtherCatState) (states : ℕ → SlaveStateRaw) :
    ℕ → List ℕ → Except String (List ℕ)
  | _, [] => .ok []
  | i, pos :: targets =>
    if (states i).reachability ≠ .answering then do
      let unreachable ← checkTransitions targetState states (i + 1) targets
      .ok (pos :: unreachable)
    else if ¬ isValidStateTransition (alState (states i).alStatus) targetState then
      .error ("illegal AL transition for device " ++ toString pos ++ ": " ++
        stateText (alState (states i).alStatus) ++ " -> " ++ stateText targetState.code ++
        " (allowed: single-step climb INIT -> PRE-OP -> SAFE-OP -> OP, any drop, or BOOT only " ++
        "from/to INIT)")
    else checkTransitions targetState states (i + 1) targets

/-- The checks before anything is commanded: the targets, and those of them that do not answer. -/
def enter (answers : Answers) (positions : List ℕ) (targetState : EtherCatState) (bus : Bus) :
    Except String (List ℕ × List ℕ) × Bus :=
  if ¬ bus.driver then (.error "no driver — call init() first", bus)
  else if bus.devices = [] then (.error "no devices — call scan() first", bus)
  else
    match answers.stateChangeRefusal with
    | some refusal => (.error refusal, bus)
    | none =>
      match bus.resolveTargets positions with
      | .error e => (.error e, bus)
      | .ok targets =>
        match answers.statesBefore with
        | .error e => (.error e, bus)
        | .ok states =>
          ((checkTransitions targetState states 0 targets).map (targets, ·),
            bus.refresh states targets)

def transitionToState (answers : Answers) (positions : List ℕ) (targetState : EtherCatState)
    (bus : Bus) : Except String (List DeviceStateInfo) × Bus :=
  match enter answers positions targetState bus with
  | (.error e, bus) => (.error e, bus)
  | (.ok (targets, unreachable), bus) =>
    match bus.react answers targets unreachable targetState with
    | (.error e, bus) => (.error e, bus)
    | (.ok _, bus) =>
      let bus := bus.command targets none targetState.code
      match answers.statesAfter with
      | .error e => (.error e, bus)
      | .ok states =>
        (.ok (targets.mapIdx fun i pos => decodeState pos (states i)), bus.refresh states targets)

/-! ### Who is left alone -/

/-- A device of the bus that the call is not about. -/
structure Bystander (bus : Bus) (positions : List ℕ) (pos : ℕ) : Prop where
  device : pos ∈ bus.devices.map (·.slavePosition)
  selective : positions ≠ []
  untargeted : pos ∉ positions

def Kept (answers : Answers) (positions : List ℕ) (targetState : EtherCatState) (bus : Bus) :
    Prop :=
  ∀ pos, Bystander bus positions pos →
    (transitionToState answers positions targetState bus).2.al pos = bus.al pos

/-- An exchange state is asked for, and there is no image or a target that answers joins. -/
def Bus.MapsFor (bus : Bus) (targets unreachable : List ℕ) (targetState : EtherCatState) : Prop :=
  (targetState = .safeOp ∨ targetState = .op) ∧
    (bus.processDataConfigured = false ∨ bus.anyJoining targets unreachable = true)

def Remaps (answers : Answers) (positions : List ℕ) (targetState : EtherCatState) (bus : Bus) :
    Prop :=
  ∃ targets unreachable admitted,
    enter answers positions targetState bus = (.ok (targets, unreachable), admitted) ∧
      admitted.MapsFor targets unreachable targetState

/-- The cycle leaves in time and one of the attempts maps the bus. -/
def Mapped (answers : Answers) (bus : Bus) : Prop :=
  answers.drained = true ∧
    ∃ i < Bus.kProcessDataMapAttempts, ∃ mapped, bus.mapOnce (answers.attempt i) = .ok mapped

variable {answers : Answers} {positions targets unreachable : List ℕ}
  {targetState : EtherCatState} {bus admitted : Bus} {pos : ℕ}

theorem refreshed_of_notMem {states : ℕ → SlaveStateRaw} {i : ℕ} {cache : ℕ → BitVec 16}
    (h : pos ∉ targets) : refreshed states i targets cache pos = cache pos := by
  induction targets generalizing i cache with
  | nil => rfl
  | cons target targets ih =>
    have hne : pos ≠ target := fun he => h (he ▸ List.mem_cons_self)
    have hrest : pos ∉ targets := fun hm => h (List.mem_cons_of_mem _ hm)
    rw [refreshed, ih hrest]
    split_ifs
    · exact Function.update_of_ne hne _ _
    · rfl

namespace Bus

variable {requiredState : Option ℕ} {target : ℕ}

theorem al_command_of_notMem (h : pos ∉ positions) :
    (bus.command positions requiredState target).al pos = bus.al pos :=
  if_neg fun hmem => h hmem.1

theorem al_command_of_mem (h : pos ∈ positions)
    (hr : ∀ required ∈ requiredState, bus.al pos = required) :
    (bus.command positions requiredState target).al pos = target :=
  if_pos ⟨h, hr⟩

theorem exists_mapAttempts_iff {i n : ℕ} :
    (∃ mapped, bus.mapAttempts answers i n = .ok mapped) ↔
      ∃ k ≤ n, ∃ mapped, bus.mapOnce (answers.attempt (i + k)) = .ok mapped := by
  induction n generalizing i with
  | zero => simp [mapAttempts]
  | succ n ih =>
    cases h : bus.mapOnce (answers.attempt i) with
    | ok mapped =>
      refine iff_of_true ⟨mapped, by simp only [mapAttempts, h]⟩ ⟨0, Nat.zero_le _, mapped, h⟩
    | error e =>
      simp only [mapAttempts, h, ih]
      constructor
      · rintro ⟨k, hk, mapped, hm⟩
        exact ⟨k + 1, by omega, mapped, by rwa [← Nat.add_assoc, Nat.add_right_comm]⟩
      · rintro ⟨k, hk, mapped, hm⟩
        cases k with
        | zero =>
          rw [Nat.add_zero, h] at hm
          cases hm
        | succ k =>
          exact ⟨k, by omega, mapped, by rwa [Nat.add_right_comm, Nat.add_assoc]⟩

theorem al_remapProcessImage : (bus.remapProcessImage answers).2.al = bus.al := by
  unfold remapProcessImage
  split
  · rfl
  split
  · rfl
  split
  · rfl
  split <;> rfl

theorem remapProcessImage_eq_ok_iff (hdriver : bus.driver = true) (hdevices : bus.devices ≠ []) :
    (bus.remapProcessImage answers).1 = .ok () ↔ Mapped answers bus := by
  have hattempts : (∃ mapped, bus.mapAttempts answers 0 (kProcessDataMapAttempts - 1) =
      .ok mapped) ↔ ∃ i < kProcessDataMapAttempts, ∃ mapped,
        bus.mapOnce (answers.attempt i) = .ok mapped := by
    rw [exists_mapAttempts_iff]
    simp only [Nat.zero_add, kProcessDataMapAttempts, Nat.lt_succ_iff, Nat.add_one_sub_one]
  unfold remapProcessImage Mapped
  rw [← hattempts, if_neg (not_not.mpr hdriver), if_neg hdevices]
  cases answers.drained with
  | false => simp
  | true =>
    cases bus.mapAttempts answers 0 (kProcessDataMapAttempts - 1) with
    | error e => simp
    | ok mapped => simp

theorem mapped_congr {other : Bus} (h : other.devices = bus.devices) :
    Mapped answers other ↔ Mapped answers bus := by
  unfold Mapped mapOnce
  rw [h]

variable {stayers : List ℕ}

/-- Commanding no device is the same as not asking the driver. -/
theorem al_command_if :
    (if stayers = [] then bus else bus.command stayers requiredState target).al pos =
      (bus.command stayers requiredState target).al pos := by
  split_ifs with h
  · rw [al_command_of_notMem (h ▸ List.not_mem_nil)]
  · rfl

theorem mem_opStayers : pos ∈ bus.opStayers targets ↔
    pos ∈ bus.devices.map (·.slavePosition) ∧ pos ∉ targets ∧
      alState (bus.slaveState pos) = kOp := by
  simp [opStayers, List.mem_filter]

/-- A stayer is left in OP by a re-map that succeeds and in SAFE-OP by one that fails. -/
theorem al_remapAround_of_mem (hdriver : bus.driver = true)
    (hdevices : bus.devices ≠ []) (h : pos ∈ stayers) :
    (Mapped answers bus → (bus.remapAround answers stayers).2.al pos = kOp) ∧
    (¬ Mapped answers bus → (bus.remapAround answers stayers).2.al pos = kSafeOp) := by
  have hne : stayers ≠ [] := List.ne_nil_of_mem h
  have hmapped : ((bus.command stayers none kSafeOp).remapProcessImage answers).1 = .ok () ↔
      Mapped answers bus := remapProcessImage_eq_ok_iff hdriver hdevices
  have hal : ((bus.command stayers none kSafeOp).remapProcessImage answers).2.al pos = kSafeOp := by
    rw [al_remapProcessImage]
    exact al_command_of_mem h (by simp)
  rw [← hmapped]
  simp only [remapAround, if_neg hne]
  generalize (bus.command stayers none kSafeOp).remapProcessImage answers = result at hal ⊢
  obtain ⟨outcome, after⟩ := result
  cases outcome with
  | error e => exact ⟨nofun, fun _ => hal⟩
  | ok _ =>
    refine ⟨fun _ => ?_, fun hn => absurd rfl hn⟩
    exact al_command_of_mem h (by simpa using hal)

theorem al_remapAround_of_notMem (h : pos ∉ stayers) :
    (bus.remapAround answers stayers).2.al pos = bus.al pos := by
  have hal : ((if stayers = [] then bus else
      bus.command stayers none kSafeOp).remapProcessImage answers).2.al pos = bus.al pos := by
    rw [al_remapProcessImage, al_command_if, al_command_of_notMem h]
  simp only [remapAround]
  generalize (if stayers = [] then bus else
    bus.command stayers none kSafeOp).remapProcessImage answers = result at hal ⊢
  obtain ⟨outcome, after⟩ := result
  cases outcome with
  | error e => exact hal
  | ok _ => exact al_command_if.trans ((al_command_of_notMem h).trans hal)

theorem react_of_mapsFor (h : bus.MapsFor targets unreachable targetState) :
    bus.react answers targets unreachable targetState =
      bus.remapAround answers (bus.opStayers targets) := by
  have hcond : ¬ bus.processDataConfigured ∨ bus.anyJoining targets unreachable := by
    simpa using h.2
  rw [react, if_pos h.1, if_pos hcond]

theorem al_react_of_not_mapsFor (h : ¬ bus.MapsFor targets unreachable targetState) :
    (bus.react answers targets unreachable targetState).2.al = bus.al := by
  unfold react
  split
  · rename_i hstate
    rw [if_neg fun hcond => h ⟨hstate, by simpa using hcond⟩]
  · split
    · dsimp only
      split <;> rfl
    · rfl

end Bus

/-! ### The checks -/

theorem al_enter (answers : Answers) (positions : List ℕ) (targetState : EtherCatState)
    (bus : Bus) :
    (enter answers positions targetState bus).2.al = bus.al := by
  unfold enter
  split
  · rfl
  split
  · rfl
  split
  · rfl
  split
  · rfl
  split <;> rfl

structure Admitted (positions targets : List ℕ) (bus admitted : Bus) : Prop where
  driver : bus.driver = true
  devices : bus.devices ≠ []
  resolved : positions ≠ [] → targets = positions
  sameDriver : admitted.driver = bus.driver
  sameDevices : admitted.devices = bus.devices
  sameStates : ∀ pos ∉ targets, admitted.slaveState pos = bus.slaveState pos

theorem admitted_of_enter
    (h : enter answers positions targetState bus = (.ok (targets, unreachable), admitted)) :
    Admitted positions targets bus admitted := by
  unfold enter at h
  split at h
  · cases h
  rename_i hdriver
  split at h
  · cases h
  rename_i hdevices
  split at h
  · cases h
  split at h
  · cases h
  rename_i resolved hresolved
  split at h
  · cases h
  obtain ⟨hcheck, rfl⟩ := Prod.mk.inj h
  obtain ⟨checked, -, hpair⟩ := Except.map_eq_ok_iff.mp hcheck
  obtain ⟨rfl, -⟩ := Prod.mk.inj hpair
  refine ⟨not_not.mp hdriver, hdevices, fun hne => ?_, rfl, rfl, fun pos hp => ?_⟩
  · rw [Bus.resolveTargets, if_neg hne] at hresolved
    split at hresolved
    · cases hresolved
    · exact (Except.ok.inj hresolved).symm
  · exact refreshed_of_notMem hp

/-! ### The whole call -/

theorem al_transitionToState
    (h : enter answers positions targetState bus = (.ok (targets, unreachable), admitted))
    (hpos : pos ∉ targets) :
    (transitionToState answers positions targetState bus).2.al pos =
      (admitted.react answers targets unreachable targetState).2.al pos := by
  unfold transitionToState
  rw [h]
  simp only
  split
  · rename_i hreact
    rw [hreact]
  · rename_i hreact
    rw [hreact]
    split <;> exact Bus.al_command_of_notMem hpos

/-- A bystander is a stayer exactly if the cache shows it in OP. -/
theorem Admitted.stayer_iff (h : Admitted positions targets bus admitted)
    (hpos : Bystander bus positions pos) :
    pos ∈ admitted.opStayers targets ↔ alState (bus.slaveState pos) = kOp := by
  have hnot : pos ∉ targets := h.resolved hpos.selective ▸ hpos.untargeted
  rw [Bus.mem_opStayers, h.sameDevices, h.sameStates pos hnot]
  exact ⟨fun hm => hm.2.2, fun hop => ⟨hpos.device, hnot, hop⟩⟩

/-- What the re-map does to a bystander the cache shows in OP. -/
theorem Admitted.al_remapAround (h : Admitted positions targets bus admitted) (answers : Answers)
    (hpos : Bystander bus positions pos) (hop : alState (bus.slaveState pos) = kOp) :
    (Mapped answers bus →
      (admitted.remapAround answers (admitted.opStayers targets)).2.al pos = kOp) ∧
    (¬ Mapped answers bus →
      (admitted.remapAround answers (admitted.opStayers targets)).2.al pos = kSafeOp) := by
  rw [← Bus.mapped_congr h.sameDevices]
  exact Bus.al_remapAround_of_mem (h.sameDriver.trans h.driver) (h.sameDevices ▸ h.devices)
    ((h.stayer_iff hpos).mpr hop)

/-- Every bystander is kept exactly if a re-map finds each device the cache shows in OP in the state
it will leave it in: OP if it succeeds, SAFE-OP if it fails. -/
theorem kept_iff (answers : Answers) (positions : List ℕ) (targetState : EtherCatState)
    (bus : Bus) : Kept answers positions targetState bus ↔
      (Remaps answers positions targetState bus → ∀ pos, Bystander bus positions pos →
        alState (bus.slaveState pos) = kOp →
          (Mapped answers bus → bus.al pos = kOp) ∧
          (¬ Mapped answers bus → bus.al pos = kSafeOp)) := by
  constructor
  · rintro hkept ⟨targets, unreachable, admitted, henter, hmaps⟩ pos hpos hop
    have ha := admitted_of_enter henter
    have hnot : pos ∉ targets := ha.resolved hpos.selective ▸ hpos.untargeted
    have hal := (hkept pos hpos).symm.trans (al_transitionToState henter hnot)
    rw [Bus.react_of_mapsFor hmaps] at hal
    obtain ⟨hok, herror⟩ := ha.al_remapAround answers hpos hop
    exact ⟨fun hm => hal.trans (hok hm), fun hm => hal.trans (herror hm)⟩
  · intro h pos hpos
    have hsame := congrFun (al_enter answers positions targetState bus) pos
    rcases henter : enter answers positions targetState bus with ⟨outcome, admitted⟩
    rw [henter] at hsame
    cases outcome with
    | error e =>
      rw [transitionToState, henter]
      exact hsame
    | ok admission =>
      obtain ⟨targets, unreachable⟩ := admission
      have ha := admitted_of_enter henter
      have hnot : pos ∉ targets := ha.resolved hpos.selective ▸ hpos.untargeted
      rw [al_transitionToState henter hnot, ← hsame]
      by_cases hmaps : admitted.MapsFor targets unreachable targetState
      · rw [Bus.react_of_mapsFor hmaps]
        by_cases hop : alState (bus.slaveState pos) = kOp
        · obtain ⟨hok, herror⟩ := ha.al_remapAround answers hpos hop
          obtain ⟨hwas, hwas'⟩ := h ⟨targets, unreachable, admitted, henter, hmaps⟩ pos hpos hop
          by_cases hm : Mapped answers bus
          · exact (hok hm).trans ((hwas hm).symm.trans hsame.symm)
          · exact (herror hm).trans ((hwas' hm).symm.trans hsame.symm)
        · exact Bus.al_remapAround_of_notMem fun hs => hop ((ha.stayer_iff hpos).mp hs)
      · rw [Bus.al_react_of_not_mapsFor hmaps]

/-! ### A re-map that fails -/

def drive (slavePosition : ℕ) : Device :=
  Device.unenumerated slavePosition kSynapticonVendorId ⟨[], [], 0, 0⟩

def twoDrives : Bus where
  driver := true
  devices := [drive 1, drive 2]
  al pos := if pos = 1 then kOp else kPreOp
  slaveState pos := if pos = 1 then 0x08 else 0x02
  image := none

/-- The states are read, but the real-time loop does not leave its cycle. -/
def stalled : Answers where
  stateChangeRefusal := none
  statesBefore := .ok fun _ => ⟨0x02, 0, .answering⟩
  statesAfter := .ok fun _ => ⟨0x04, 0, .answering⟩
  drained := false
  attempt _ := ⟨.ok (), fun _ => .sii (.ok ([], [])), ⟨0, 0, [], 0⟩⟩

theorem stalled_al : (transitionToState stalled [2] .safeOp twoDrives).2.al 1 = kSafeOp := by
  decide +kernel

/-- The call for the second drive returns an error and the first drive stays in SAFE-OP. -/
theorem stalledRemap_not_kept : ¬ Kept stalled [2] .safeOp twoDrives := by
  intro hkept
  have hpos : Bystander twoDrives [2] 1 := ⟨by decide, by decide, by decide⟩
  exact absurd (stalled_al.symm.trans (hkept 1 hpos)) (by decide)

end MotionMaster.StateChange
