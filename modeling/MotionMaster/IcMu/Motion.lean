import Mathlib.Analysis.Real.Sqrt
import Mathlib.Tactic.Positivity

/-! The motion of a nonius calibration, with the doubles of the code read as real numbers: which
velocity, acceleration, recording time and start `planIcMuMotion` chooses, and when the move stays
between the software position limits while the recording covers the encoder ring. -/
namespace MotionMaster.IcMu

noncomputable section

inductive EncoderShaft
  | kMotor
  | kDriving
  deriving DecidableEq

/-- Recording times, in milliseconds. -/
def kIcMuStandardRecording : ℕ := 6000
def kIcMuLongestRecording : ℕ := 10000

def kIcMuRingOverlapDegrees : ℝ := 5
def kMotorAccelerationRpmPerSecond : ℝ := 1000
def kMaxSpeedShare : ℝ := 0.95
def kMinDrivingShaftVelocityRpm : ℝ := 10
def kMinRangeDegrees : ℝ := 20
def kLimitMarginDegrees : ℝ := 3
def kStartToleranceDegrees : ℝ := 1

def revolutions (degrees : ℝ) : ℝ := degrees / 360

structure IcMuMotionInput where
  gearRatio : ℝ
  maxMotorSpeedRpm : ℝ
  shaft : EncoderShaft
  ringVelocityRpm : ℝ
  lowVelocityRpm : ℝ
  positionRevolutions : ℝ
  limitRevolutions : Option (ℝ × ℝ)

structure IcMuMotionPlan where
  velocityRpm : ℝ
  accelerationRpmPerSecond : ℝ
  recording : ℕ := kIcMuStandardRecording
  startRevolutions : Option ℝ := none
  limitedRange : Bool := false
  warnings : List String := []

/-- Why there is no plan, with the numbers the message gives. -/
inductive Refusal
  | maximumSpeed (allowed needed : ℝ)
  | ringVelocity (velocity minimum : ℝ)
  | range (degrees minimum : ℝ)
  | widen (degrees : ℤ)

def seconds (recording : ℕ) : ℝ := recording / 1000

def icMuMoveRevolutions (velocity acceleration : ℝ) (constant : ℕ) : ℝ :=
  velocity * velocity / (60 * acceleration) + velocity * seconds constant / 60

def icMuVelocityForMove (travel acceleration : ℝ) (constant : ℕ) : ℝ :=
  let gained := acceleration * seconds constant
  (-gained + √(gained * gained + 240 * acceleration * travel)) / 2

def icMuRingTurnsPerRevolution (shaft : EncoderShaft) (gearRatio : ℝ) : ℝ :=
  if shaft = .kMotor then gearRatio else 1

def requiredTurns : ℝ := 1 + revolutions kIcMuRingOverlapDegrees

def kNarrowRangeWarning : String :=
  "The range between the software position limits is too narrow for the recommended " ++
    "calibration velocity. The calibration might not converge."

def kMaximumSpeedWarning : String :=
  "The maximum motor speed (0x6080) is too low for the recommended calibration velocity. " ++
    "A faster move can leave a larger nonius phase margin."

/-- One round of the loop of `planIcMuNarrowRange`. -/
def narrowPlan (travel acceleration turns lowVelocity : ℝ) (recording : ℕ) :
    Option IcMuMotionPlan :=
  let velocity := icMuVelocityForMove travel acceleration recording
  if requiredTurns / turns ≤ velocity * seconds recording / 60 then
    some {
      velocityRpm := velocity
      accelerationRpmPerSecond := acceleration
      recording := recording
      limitedRange := true
      warnings := if velocity * turns < lowVelocity then [kNarrowRangeWarning] else [] }
  else none

def planIcMuNarrowRange (travel acceleration turns lowVelocity : ℝ) :
    Except Refusal IcMuMotionPlan :=
  match [kIcMuStandardRecording, kIcMuLongestRecording].findSome?
      (narrowPlan travel acceleration turns lowVelocity) with
  | some plan => .ok plan
  | none =>
    let required := requiredTurns / turns
    let minimum := 60 * required / seconds kIcMuLongestRecording
    let needed := required + minimum * minimum / (60 * acceleration)
    .error (.widen ⌈(needed - travel) * 360⌉)

/-- The lambda `cap`. -/
def cap (maxVelocity : ℝ) (plan : IcMuMotionPlan) : IcMuMotionPlan :=
  if maxVelocity < plan.velocityRpm then
    { plan with velocityRpm := maxVelocity, warnings := plan.warnings ++ [kMaximumSpeedWarning] }
  else plan

def ringTurns (turns : ℝ) (plan : IcMuMotionPlan) (recording : ℕ) : ℝ :=
  plan.velocityRpm * turns * seconds recording / 60

/-- A slow ring gets the longer recording. -/
def lengthen (turns : ℝ) (plan : IcMuMotionPlan) : Except Refusal IcMuMotionPlan :=
  if ringTurns turns plan plan.recording < requiredTurns then
    if ringTurns turns plan kIcMuLongestRecording < requiredTurns then
      .error (.ringVelocity (plan.velocityRpm * turns)
        (60 * requiredTurns / seconds kIcMuLongestRecording))
    else .ok { plan with recording := kIcMuLongestRecording }
  else .ok plan

def margin : ℝ := revolutions kLimitMarginDegrees
def tolerance : ℝ := revolutions kStartToleranceDegrees

namespace IcMuMotionInput

variable (input : IcMuMotionInput)

def gear : ℝ := max input.gearRatio 1
def maxVelocity : ℝ := kMaxSpeedShare * input.maxMotorSpeedRpm / input.gear
def acceleration : ℝ := kMotorAccelerationRpmPerSecond / input.gear
def turns : ℝ := icMuRingTurnsPerRevolution input.shaft input.gear

end IcMuMotionInput

/-- The move does not fit: start near the lower limit and accelerate faster. The cap comes last. -/
def planNarrow (input : IcMuMotionInput) (lower upper : ℝ) (plan : IcMuMotionPlan) :
    Except Refusal IcMuMotionPlan :=
  let start := lower + margin
  match planIcMuNarrowRange (upper - margin - start) (plan.accelerationRpmPerSecond * 4)
      input.turns input.lowVelocityRpm with
  | .error refusal => .error refusal
  | .ok narrow =>
    .ok (cap input.maxVelocity { narrow with
      warnings := plan.warnings ++ narrow.warnings
      startRevolutions :=
        if tolerance < |input.positionRevolutions - start| then some start
        else narrow.startRevolutions })

/-- The part of `planIcMuMotion` that looks at the limits. -/
def placeMove (input : IcMuMotionInput) (plan : IcMuMotionPlan) : Except Refusal IcMuMotionPlan :=
  let travel := icMuMoveRevolutions plan.velocityRpm plan.accelerationRpmPerSecond plan.recording
  match input.limitRevolutions with
  | none => .ok plan
  | some (lower, upper) =>
    if input.positionRevolutions + travel ≤ upper then .ok plan
    else if upper - lower < revolutions kMinRangeDegrees then
      .error (.range ((upper - lower) * 360) kMinRangeDegrees)
    else if travel ≤ upper - lower then
      let start := upper - margin - travel
      .ok (if start + tolerance < input.positionRevolutions
        then { plan with startRevolutions := some start } else plan)
    else planNarrow input lower upper plan

def planIcMuMotion (input : IcMuMotionInput) : Except Refusal IcMuMotionPlan :=
  if input.shaft = .kDriving ∧ input.maxVelocity ≤ kMinDrivingShaftVelocityRpm then
    .error (.maximumSpeed input.maxVelocity kMinDrivingShaftVelocityRpm)
  else
    let plan := cap input.maxVelocity {
      velocityRpm := input.ringVelocityRpm / input.turns
      accelerationRpmPerSecond := input.acceleration }
    match lengthen input.turns plan with
    | .error refusal => .error refusal
    | .ok plan => placeMove input plan

/-! ### The law of a plan -/

/-- An input with positive speeds and gear ratio, and a position between the limits. -/
structure IcMuMotionInput.Valid (input : IcMuMotionInput) : Prop where
  gearRatio : 0 < input.gearRatio
  maxMotorSpeed : 0 < input.maxMotorSpeedRpm
  ringVelocity : 0 < input.ringVelocityRpm
  lowVelocity : 0 < input.lowVelocityRpm
  between : ∀ lower upper, input.limitRevolutions = some (lower, upper) →
    lower ≤ input.positionRevolutions ∧ input.positionRevolutions ≤ upper

/-- At this velocity of the driving shaft the recording covers one turn of the ring and the
overlap. -/
def Covers (turns velocity : ℝ) (recording : ℕ) : Prop :=
  requiredTurns ≤ velocity * turns * seconds recording / 60

namespace IcMuMotionPlan

variable (input : IcMuMotionInput) (plan : IcMuMotionPlan)

def start : ℝ := plan.startRevolutions.getD input.positionRevolutions

def travel : ℝ :=
  icMuMoveRevolutions plan.velocityRpm plan.accelerationRpmPerSecond plan.recording

/-- The move stays between the limits, no faster than allowed, and the recording covers the ring. -/
structure Kept : Prop where
  between : ∀ lower upper, input.limitRevolutions = some (lower, upper) →
    lower ≤ plan.start input ∧ plan.start input + plan.travel ≤ upper
  velocity : plan.velocityRpm ≤ input.maxVelocity
  covers : Covers input.turns plan.velocityRpm plan.recording

end IcMuMotionPlan

namespace IcMuMotionInput

variable (input : IcMuMotionInput)

def preferredVelocity : ℝ := min (input.ringVelocityRpm / input.turns) input.maxVelocity

def preferredRecording : ℕ :=
  if input.preferredVelocity * input.turns * seconds kIcMuStandardRecording / 60 < requiredTurns
  then kIcMuLongestRecording else kIcMuStandardRecording

def preferredTravel : ℝ :=
  icMuMoveRevolutions input.preferredVelocity input.acceleration input.preferredRecording

/-- Where the preferred move does not fit from the position: if it fits between the limits, it fits
with the margin; if not, and the standard recording covers the ring at the velocity that fills the
range, it also does at the maximum velocity. -/
def HasRoom : Prop :=
  ∀ lower upper, input.limitRevolutions = some (lower, upper) →
    upper < input.positionRevolutions + input.preferredTravel →
    (input.preferredTravel ≤ upper - lower → margin + input.preferredTravel ≤ upper - lower) ∧
    (upper - lower < input.preferredTravel →
      Covers input.turns (icMuVelocityForMove (upper - margin - (lower + margin))
        (input.acceleration * 4) kIcMuStandardRecording) kIcMuStandardRecording →
      Covers input.turns input.maxVelocity kIcMuStandardRecording)

end IcMuMotionInput

/-! ### Moves -/

theorem seconds_nonneg (recording : ℕ) : 0 ≤ seconds recording := by
  unfold seconds
  positivity

variable {travel acceleration : ℝ}

theorem icMuVelocityForMove_nonneg (ha : 0 < acceleration)
    (ht : 0 ≤ travel) (recording : ℕ) : 0 ≤ icMuVelocityForMove travel acceleration recording := by
  have hroot : acceleration * seconds recording ≤
      √(acceleration * seconds recording * (acceleration * seconds recording) +
        240 * acceleration * travel) := by
    apply Real.le_sqrt_of_sq_le
    have : 0 ≤ 240 * acceleration * travel := by positivity
    linarith [sq (acceleration * seconds recording)]
  simp only [icMuVelocityForMove]
  linarith

/-- The velocity for a move is the one at which the move has that length. -/
theorem icMuMoveRevolutions_velocityForMove (ha : 0 < acceleration)
    (ht : 0 ≤ travel) (recording : ℕ) :
    icMuMoveRevolutions (icMuVelocityForMove travel acceleration recording) acceleration
      recording = travel := by
  have hsq : √(acceleration * seconds recording * (acceleration * seconds recording) +
      240 * acceleration * travel) ^ 2 =
      acceleration * seconds recording * (acceleration * seconds recording) +
        240 * acceleration * travel := by
    apply Real.sq_sqrt
    have := mul_self_nonneg (acceleration * seconds recording)
    positivity
  simp only [icMuMoveRevolutions, icMuVelocityForMove]
  generalize √(acceleration * seconds recording * (acceleration * seconds recording) +
    240 * acceleration * travel) = root at hsq
  field_simp
  linarith [hsq]

theorem icMuMoveRevolutions_mono {v w : ℝ} (ha : 0 < acceleration) (hv : 0 ≤ v)
    (hvw : v ≤ w) (recording : ℕ) :
    icMuMoveRevolutions v acceleration recording ≤
      icMuMoveRevolutions w acceleration recording := by
  have hs := seconds_nonneg recording
  have hw : 0 ≤ w := hv.trans hvw
  unfold icMuMoveRevolutions
  gcongr

variable {turns : ℝ}

theorem covers_mono {v w : ℝ} {recording : ℕ} (ht : 0 ≤ turns) (hvw : v ≤ w)
    (h : Covers turns v recording) : Covers turns w recording := by
  have hs := seconds_nonneg recording
  refine h.trans ?_
  gcongr

theorem covers_longest {v : ℝ} (ht : 0 ≤ turns) (hv : 0 ≤ v)
    (h : Covers turns v kIcMuStandardRecording) : Covers turns v kIcMuLongestRecording := by
  have hs : seconds kIcMuStandardRecording ≤ seconds kIcMuLongestRecording := by
    norm_num [seconds, kIcMuStandardRecording, kIcMuLongestRecording]
  refine h.trans ?_
  gcongr

/-! ### What each part of the planner returns -/

section Cap

variable (maxVelocity : ℝ) (plan : IcMuMotionPlan)

theorem velocityRpm_cap :
    (cap maxVelocity plan).velocityRpm = min plan.velocityRpm maxVelocity := by
  unfold cap
  split_ifs with h
  · exact (min_eq_right h.le).symm
  · exact (min_eq_left (not_lt.1 h)).symm

@[simp] theorem accelerationRpmPerSecond_cap :
    (cap maxVelocity plan).accelerationRpmPerSecond = plan.accelerationRpmPerSecond := by
  unfold cap
  split_ifs <;> rfl

@[simp] theorem recording_cap : (cap maxVelocity plan).recording = plan.recording := by
  unfold cap
  split_ifs <;> rfl

@[simp] theorem startRevolutions_cap :
    (cap maxVelocity plan).startRevolutions = plan.startRevolutions := by
  unfold cap
  split_ifs <;> rfl

end Cap

/-- What the plan is before the limits are looked at. -/
structure Preferred (input : IcMuMotionInput) (plan : IcMuMotionPlan) : Prop where
  velocity : plan.velocityRpm = input.preferredVelocity
  acceleration : plan.accelerationRpmPerSecond = input.acceleration
  recording : plan.recording = input.preferredRecording
  start : plan.startRevolutions = none
  covers : Covers input.turns input.preferredVelocity input.preferredRecording

theorem Preferred.travel_eq {input : IcMuMotionInput} {plan : IcMuMotionPlan}
    (h : Preferred input plan) : plan.travel = input.preferredTravel := by
  rw [IcMuMotionPlan.travel, h.velocity, h.acceleration, h.recording]
  rfl

theorem preferred_of_lengthen {input : IcMuMotionInput} {plan : IcMuMotionPlan}
    (h : lengthen input.turns (cap input.maxVelocity {
      velocityRpm := input.ringVelocityRpm / input.turns
      accelerationRpmPerSecond := input.acceleration }) = .ok plan) : Preferred input plan := by
  simp only [lengthen, ringTurns, velocityRpm_cap, recording_cap] at h
  split_ifs at h with hshort hlong
  · cases h
    have hrec : input.preferredRecording = kIcMuLongestRecording := if_pos hshort
    refine ⟨rfl, by simp, hrec.symm, by simp, ?_⟩
    rw [hrec]
    exact not_lt.1 hlong
  · cases h
    have hrec : input.preferredRecording = kIcMuStandardRecording := if_neg hshort
    refine ⟨velocityRpm_cap _ _, by simp, by simp [hrec], by simp, ?_⟩
    rw [hrec]
    exact not_lt.1 hshort

/-- A narrow plan fills the travel; it takes the standard recording if that covers the ring. -/
structure Narrow (travel rate turns : ℝ) (plan : IcMuMotionPlan) : Prop where
  velocity : plan.velocityRpm = icMuVelocityForMove travel rate plan.recording
  acceleration : plan.accelerationRpmPerSecond = rate
  start : plan.startRevolutions = none
  covers : Covers turns plan.velocityRpm plan.recording
  recording : plan.recording = kIcMuStandardRecording ∨
    plan.recording = kIcMuLongestRecording ∧
      ¬Covers turns (icMuVelocityForMove travel rate kIcMuStandardRecording)
        kIcMuStandardRecording

theorem required_le_iff_covers {velocity : ℝ} (ht : 0 < turns) (recording : ℕ) :
    requiredTurns / turns ≤ velocity * seconds recording / 60 ↔
      Covers turns velocity recording := by
  rw [div_le_iff₀ ht, Covers]
  have : velocity * seconds recording / 60 * turns = velocity * turns * seconds recording / 60 := by
    ring
  rw [this]

theorem narrowPlan_cases {rate lowVelocity : ℝ} (ht : 0 < turns) (recording : ℕ) :
    (Covers turns (icMuVelocityForMove travel rate recording) recording ∧
      ∃ warnings, narrowPlan travel rate turns lowVelocity recording =
        some ⟨icMuVelocityForMove travel rate recording, rate, recording, none, true, warnings⟩) ∨
    (¬Covers turns (icMuVelocityForMove travel rate recording) recording ∧
      narrowPlan travel rate turns lowVelocity recording = none) := by
  by_cases h : Covers turns (icMuVelocityForMove travel rate recording) recording
  · exact .inl ⟨h, _, if_pos ((required_le_iff_covers ht _).2 h)⟩
  · exact .inr ⟨h, if_neg (mt (required_le_iff_covers ht _).1 h)⟩

theorem narrow_of_planIcMuNarrowRange {rate lowVelocity : ℝ} {plan : IcMuMotionPlan}
    (ht : 0 < turns) (h : planIcMuNarrowRange travel rate turns lowVelocity = .ok plan) :
    Narrow travel rate turns plan := by
  unfold planIcMuNarrowRange at h
  rw [List.findSome?_cons, List.findSome?_cons, List.findSome?_nil] at h
  rcases narrowPlan_cases ht kIcMuStandardRecording with ⟨hc, warnings, hplan⟩ | ⟨hnot, hplan⟩
  · rw [hplan] at h
    obtain rfl := Except.ok.inj h
    exact ⟨rfl, rfl, rfl, hc, .inl rfl⟩
  · rw [hplan] at h
    rcases narrowPlan_cases ht kIcMuLongestRecording with ⟨hc, warnings, hplan⟩ | ⟨-, hplan⟩
    · rw [hplan] at h
      obtain rfl := Except.ok.inj h
      exact ⟨rfl, rfl, rfl, hc, .inr ⟨rfl, hnot⟩⟩
    · rw [hplan] at h
      cases h

section Plan

variable {input : IcMuMotionInput} {plan base : IcMuMotionPlan}

theorem one_le_gear (input : IcMuMotionInput) : 1 ≤ input.gear := le_max_right _ _

theorem turns_pos (input : IcMuMotionInput) : 0 < input.turns := by
  have := one_le_gear input
  unfold IcMuMotionInput.turns icMuRingTurnsPerRevolution
  split_ifs <;> linarith

theorem acceleration_pos (input : IcMuMotionInput) : 0 < input.acceleration := by
  have := one_le_gear input
  unfold IcMuMotionInput.acceleration kMotorAccelerationRpmPerSecond
  positivity

theorem maxVelocity_pos (h : input.Valid) : 0 < input.maxVelocity := by
  have := one_le_gear input
  have := h.maxMotorSpeed
  unfold IcMuMotionInput.maxVelocity kMaxSpeedShare
  positivity

theorem limits_unique {lower upper lower' upper' : ℝ}
    (h : input.limitRevolutions = some (lower, upper))
    (h' : input.limitRevolutions = some (lower', upper')) : lower' = lower ∧ upper' = upper := by
  rw [h] at h'
  cases h'
  exact ⟨rfl, rfl⟩

theorem tolerance_lt_margin : tolerance < margin := by
  norm_num [tolerance, margin, revolutions, kStartToleranceDegrees, kLimitMarginDegrees]

/-- A move that fits from where the axis stands, or has no limits. -/
theorem kept_of_fits (hv : input.Valid) (hb : Preferred input base)
    (hfits : ∀ lower upper, input.limitRevolutions = some (lower, upper) →
      input.positionRevolutions + input.preferredTravel ≤ upper) :
    base.Kept input ↔ input.HasRoom := by
  refine ⟨fun _ lower upper hl hupper => absurd (hfits lower upper hl) (not_le.2 hupper),
    fun _ => ⟨fun lower upper hl => ?_, ?_, ?_⟩⟩
  · rw [IcMuMotionPlan.start, hb.start, hb.travel_eq]
    exact ⟨(hv.between lower upper hl).1, hfits lower upper hl⟩
  · rw [hb.velocity]
    exact min_le_right _ _
  · rw [hb.velocity, hb.recording]
    exact hb.covers

/-- A move that fits only from a lower start leaves the margin above it, not below. -/
theorem kept_of_shifted {lower upper : ℝ} (hb : Preferred input base)
    (hl : input.limitRevolutions = some (lower, upper))
    (hupper : upper < input.positionRevolutions + input.preferredTravel)
    (hrange : input.preferredTravel ≤ upper - lower) :
    ({ base with startRevolutions := some (upper - margin - input.preferredTravel) } :
      IcMuMotionPlan).Kept input ↔ input.HasRoom := by
  have hmargin : 0 < margin := by norm_num [margin, revolutions, kLimitMarginDegrees]
  constructor
  · intro hkept lower' upper' hl' _
    obtain ⟨rfl, rfl⟩ := limits_unique hl hl'
    have hlower : lower' ≤ upper' - margin - input.preferredTravel :=
      (hkept.between lower' upper' hl').1
    exact ⟨fun _ => by linarith, fun hnarrow => absurd hrange (not_le.2 hnarrow)⟩
  · intro hroom
    have hfits := (hroom lower upper hl hupper).1 hrange
    refine ⟨fun lower' upper' hl' => ?_, ?_, ?_⟩
    · obtain ⟨rfl, rfl⟩ := limits_unique hl hl'
      change lower' ≤ upper' - margin - input.preferredTravel ∧
        upper' - margin - input.preferredTravel + base.travel ≤ upper'
      rw [hb.travel_eq]
      constructor <;> linarith
    · exact hb.velocity.trans_le (min_le_right _ _)
    · rw [hb.velocity, hb.recording]
      exact hb.covers

theorem maxVelocity_covers_longest (hv : input.Valid) (hb : Preferred input base) :
    Covers input.turns input.maxVelocity kIcMuLongestRecording := by
  have hturns := (turns_pos input).le
  have hmax : Covers input.turns input.maxVelocity input.preferredRecording :=
    covers_mono hturns (min_le_right _ _) hb.covers
  unfold IcMuMotionInput.preferredRecording at hmax
  split_ifs at hmax
  · exact hmax
  · exact covers_longest hturns (maxVelocity_pos hv).le hmax

/-- The capped move is no longer than the one that fills the range. -/
theorem move_cap_le {narrow : IcMuMotionPlan} (hv : input.Valid) (htravel : 0 ≤ travel)
    (hn : Narrow travel (input.acceleration * 4) input.turns narrow) :
    icMuMoveRevolutions (min narrow.velocityRpm input.maxVelocity) (input.acceleration * 4)
      narrow.recording ≤ travel := by
  have hacc : 0 < input.acceleration * 4 := by linarith [acceleration_pos input]
  have hvelocity := icMuVelocityForMove_nonneg hacc htravel narrow.recording
  rw [← hn.velocity] at hvelocity
  have hfill := icMuMoveRevolutions_velocityForMove hacc htravel narrow.recording
  rw [← hn.velocity] at hfill
  refine le_of_le_of_eq ?_ hfill
  exact icMuMoveRevolutions_mono hacc (le_min hvelocity (maxVelocity_pos hv).le) (min_le_left _ _) _

/-- Capping the velocity keeps the coverage unless the standard recording was chosen for the faster
move. -/
theorem covers_cap_iff {lower upper : ℝ} {narrow : IcMuMotionPlan} (hv : input.Valid)
    (hb : Preferred input base) (hl : input.limitRevolutions = some (lower, upper))
    (hupper : upper < input.positionRevolutions + input.preferredTravel)
    (hrange : upper - lower < input.preferredTravel)
    (hn : Narrow (upper - margin - (lower + margin)) (input.acceleration * 4) input.turns narrow) :
    Covers input.turns (min narrow.velocityRpm input.maxVelocity) narrow.recording ↔
      input.HasRoom := by
  have hturns := (turns_pos input).le
  constructor
  · intro hcapped lower' upper' hl' _
    obtain ⟨rfl, rfl⟩ := limits_unique hl hl'
    refine ⟨fun hfits => absurd hfits (not_le.2 hrange), fun _ hstandard => ?_⟩
    rcases hn.recording with hrec | ⟨-, hnot⟩
    · rw [hrec] at hcapped
      exact covers_mono hturns (min_le_right _ _) hcapped
    · exact absurd hstandard hnot
  · intro hroom
    have hmax : Covers input.turns input.maxVelocity narrow.recording := by
      rcases hn.recording with hrec | ⟨hrec, -⟩
      · rw [hrec]
        apply (hroom lower upper hl hupper).2 hrange
        rw [← hrec, ← hn.velocity]
        exact hn.covers
      · rw [hrec]
        exact maxVelocity_covers_longest hv hb
    rcases min_choice narrow.velocityRpm input.maxVelocity with h | h <;> rw [h]
    · exact hn.covers
    · exact hmax

/-- A move in a narrow range stays between the limits; whether it still covers the ring depends on
the cap. -/
theorem kept_of_narrow {lower upper : ℝ} (hv : input.Valid) (hb : Preferred input base)
    (hl : input.limitRevolutions = some (lower, upper))
    (hupper : upper < input.positionRevolutions + input.preferredTravel)
    (hmin : revolutions kMinRangeDegrees ≤ upper - lower)
    (hrange : upper - lower < input.preferredTravel)
    (hplan : planNarrow input lower upper base = .ok plan) : plan.Kept input ↔ input.HasRoom := by
  have hdegrees : 0 < margin ∧ tolerance < margin ∧ 2 * margin < upper - lower := by
    refine ⟨?_, tolerance_lt_margin, lt_of_lt_of_le ?_ hmin⟩ <;>
      norm_num [margin, revolutions, kLimitMarginDegrees, kMinRangeDegrees]
  unfold planNarrow at hplan
  simp only at hplan
  split at hplan
  · cases hplan
  rename_i narrow hnarrow
  rw [hb.acceleration] at hnarrow
  have hn := narrow_of_planIcMuNarrowRange (turns_pos input) hnarrow
  obtain rfl := Except.ok.inj hplan
  have hmove := move_cap_le hv (by linarith) hn
  rw [← covers_cap_iff hv hb hl hupper hrange hn]
  refine ⟨fun hkept => by simpa [velocityRpm_cap] using hkept.covers, fun hcapped =>
    ⟨fun lower' upper' hl' => ?_, ?_, by simpa [velocityRpm_cap] using hcapped⟩⟩
  · obtain ⟨rfl, rfl⟩ := limits_unique hl hl'
    simp only [IcMuMotionPlan.travel, IcMuMotionPlan.start, velocityRpm_cap,
      accelerationRpmPerSecond_cap, recording_cap, startRevolutions_cap, hn.acceleration, hn.start]
    split_ifs with hfar
    · simp only [Option.getD_some]
      constructor <;> linarith
    · have hclose := abs_le.1 (not_lt.1 hfar)
      simp only [Option.getD_none]
      exact ⟨(hv.between lower' upper' hl').1, by linarith⟩
  · rw [velocityRpm_cap]
    exact min_le_right _ _

/-- A plan keeps the law exactly when the margin fits below the move too, and when capping a
narrow move to the maximum velocity does not take the ring's turn out of the recording. -/
theorem kept_iff_hasRoom (hv : input.Valid) (hplan : planIcMuMotion input = .ok plan) :
    plan.Kept input ↔ input.HasRoom := by
  unfold planIcMuMotion at hplan
  split_ifs at hplan
  simp only at hplan
  split at hplan
  · cases hplan
  rename_i base hbase
  have hb := preferred_of_lengthen hbase
  have htravel : icMuMoveRevolutions base.velocityRpm base.accelerationRpmPerSecond
      base.recording = input.preferredTravel := hb.travel_eq
  simp only [placeMove, htravel] at hplan
  split at hplan
  · next hnone =>
    obtain rfl := Except.ok.inj hplan
    exact kept_of_fits hv hb fun lower upper hl => by simp [hnone] at hl
  · next lower upper hl =>
    split_ifs at hplan with hfits hmin hrange hstart
    · obtain rfl := Except.ok.inj hplan
      refine kept_of_fits hv hb fun lower' upper' hl' => ?_
      obtain ⟨rfl, rfl⟩ := limits_unique hl hl'
      exact hfits
    · obtain rfl := Except.ok.inj hplan
      exact kept_of_shifted hb hl (not_le.1 hfits) hrange
    · -- the axis is past the upper limit's margin, so it is farther than the tolerance
      exact absurd (by linarith [tolerance_lt_margin, not_le.1 hfits]) hstart
    · exact kept_of_narrow hv hb hl (not_le.1 hfits) (not_lt.1 hmin) (not_le.1 hrange) hplan

end Plan

/-- A motor-shaft encoder without a gearbox, at a ring velocity of 90 rpm: the move takes 9.135
revolutions. -/
def bench (position lower upper : ℝ) : IcMuMotionInput where
  gearRatio := 1
  maxMotorSpeedRpm := 3000
  shaft := .kMotor
  ringVelocityRpm := 90
  lowVelocityRpm := 70
  positionRevolutions := position
  limitRevolutions := some (lower, upper)

section Bench

variable (position lower upper : ℝ)

theorem turns_bench : (bench position lower upper).turns = 1 := by
  simp [IcMuMotionInput.turns, IcMuMotionInput.gear, icMuRingTurnsPerRevolution, bench]

theorem maxVelocity_bench : (bench position lower upper).maxVelocity = 2850 := by
  norm_num [IcMuMotionInput.maxVelocity, IcMuMotionInput.gear, kMaxSpeedShare, bench]

theorem acceleration_bench : (bench position lower upper).acceleration = 1000 := by
  norm_num [IcMuMotionInput.acceleration, IcMuMotionInput.gear, kMotorAccelerationRpmPerSecond,
    bench]

theorem planIcMuMotion_bench : planIcMuMotion (bench position lower upper) =
    placeMove (bench position lower upper) ⟨90, 1000, kIcMuStandardRecording, none, false, []⟩ := by
  rw [planIcMuMotion, if_neg (by rintro ⟨h, -⟩; cases h)]
  norm_num [turns_bench, maxVelocity_bench, acceleration_bench, cap, lengthen,
    ringTurns, requiredTurns, revolutions, kIcMuRingOverlapDegrees, seconds,
    kIcMuStandardRecording,
    show (bench position lower upper).ringVelocityRpm = 90 from rfl]

theorem move_bench : icMuMoveRevolutions 90 1000 kIcMuStandardRecording = 9.135 := by
  norm_num [icMuMoveRevolutions, seconds, kIcMuStandardRecording]

end Bench

/-- Limits exactly as far apart as the move is long: the start is 3° below the lower limit. -/
theorem bench_not_kept : ∃ plan, planIcMuMotion (bench 1 0 9.135) = .ok plan ∧
    (bench 1 0 9.135).Valid ∧ ¬plan.Kept (bench 1 0 9.135) := by
  have hstart : (9.135 : ℝ) - margin - 9.135 + tolerance < 1 := by
    norm_num [margin, tolerance, revolutions, kLimitMarginDegrees, kStartToleranceDegrees]
  refine ⟨⟨90, 1000, kIcMuStandardRecording, some (9.135 - margin - 9.135), false, []⟩, ?_, ?_, ?_⟩
  · rw [planIcMuMotion_bench]
    simp only [placeMove, bench, move_bench]
    rw [if_neg (by norm_num), if_neg (by norm_num [revolutions, kMinRangeDegrees]),
      if_pos (by norm_num), if_pos hstart]
  · refine ⟨by norm_num [bench], by norm_num [bench], by norm_num [bench], by norm_num [bench], ?_⟩
    rintro lower upper h
    obtain ⟨rfl, rfl⟩ : 0 = lower ∧ 9.135 = upper := by simpa [bench] using h
    norm_num [bench]
  · intro hkept
    have hlower : (0 : ℝ) ≤ 9.135 - margin - 9.135 := (hkept.between 0 9.135 rfl).1
    norm_num [margin, revolutions, kLimitMarginDegrees] at hlower

/-- The move does not fit from the position, so it starts 9.135 revolutions and the margin below the
upper limit. -/
theorem bench_kept : ∃ plan, planIcMuMotion (bench 15 (-20) 20) = .ok plan ∧
    plan.startRevolutions = some (20 - margin - 9.135) ∧ (bench 15 (-20) 20).Valid ∧
    plan.Kept (bench 15 (-20) 20) := by
  have hplan : planIcMuMotion (bench 15 (-20) 20) =
      .ok ⟨90, 1000, kIcMuStandardRecording, some (20 - margin - 9.135), false, []⟩ := by
    rw [planIcMuMotion_bench]
    simp only [placeMove, bench, move_bench]
    rw [if_neg (by norm_num), if_neg (by norm_num [revolutions, kMinRangeDegrees]),
      if_pos (by norm_num), if_pos (by norm_num [margin, tolerance, revolutions,
        kLimitMarginDegrees, kStartToleranceDegrees])]
  have hvalid : (bench 15 (-20) 20).Valid := by
    refine ⟨by norm_num [bench], by norm_num [bench], by norm_num [bench], by norm_num [bench], ?_⟩
    rintro lower upper h
    obtain ⟨rfl, rfl⟩ : -20 = lower ∧ 20 = upper := by simpa [bench] using h
    norm_num [bench]
  have htravel : (bench 15 (-20) 20).preferredTravel = 9.135 := by
    have hv : (bench 15 (-20) 20).preferredVelocity = 90 := by
      rw [IcMuMotionInput.preferredVelocity, turns_bench, maxVelocity_bench]
      norm_num [bench]
    have hr : (bench 15 (-20) 20).preferredRecording = kIcMuStandardRecording := by
      norm_num [IcMuMotionInput.preferredRecording, hv, turns_bench, seconds, requiredTurns,
        revolutions, kIcMuRingOverlapDegrees, kIcMuStandardRecording]
    rw [IcMuMotionInput.preferredTravel, hv, hr, acceleration_bench, move_bench]
  refine ⟨_, hplan, rfl, hvalid, (kept_iff_hasRoom hvalid hplan).2 ?_⟩
  intro lower upper h hupper
  obtain ⟨rfl, rfl⟩ : -20 = lower ∧ 20 = upper := by simpa [bench] using h
  rw [htravel]
  norm_num [margin, revolutions, kLimitMarginDegrees]

end

end MotionMaster.IcMu
