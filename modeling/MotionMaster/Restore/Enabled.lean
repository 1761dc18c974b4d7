import MotionMaster.Restore.Procedures

/-!
# Nothing is put back into an enabled drive

The destructor takes the drive down before it writes the mode and the setpoints. That works when the
state it returns to is one below Operation Enabled, which every body but the calibration names
itself. The calibration returns to the state it found. A quick stop leads out of Operation Enabled
as well, and a state that cannot be asked for leaves the drive where it is.
-/

namespace MotionMaster.DriveRestorer

open Script

/-- The accesses of the restore succeed. -/
def BusAnswers (s : State) (_ : Op) (a : Answer) : Prop :=
  s.restoring = true → a.reply = .ok ∧ a.poll.Answered ∧ ∀ poll ∈ a.polls, poll.Answered
  deriving Decidable

/-- The way from one state to another ends outside Operation Enabled. -/
def LeadsOut (state target : Cia402.State) (a : Answer) : Prop :=
  target.Low ∨
  (target = .kQuickStopActive ∧ (state = .kOperationEnabled ∨ state = .kQuickStopActive) ∧
    ∀ poll ∈ a.poll :: a.polls, poll.drift = none) ∨
  (Cia402.isCommandableState target = false ∧ state ≠ .kOperationEnabled)
  deriving Decidable

/-- The state the destructor returns to is below Operation Enabled, or it is Quick Stop Active and
the drive goes there, or it cannot be asked for and the drive is not enabled. -/
def RestsLow (s : State) (o : Op) (a : Answer) : Prop :=
  match o with
  | .transitionToState target =>
    s.restoring = true → LeadsOut (Cia402.drifted s.cia a.drift) target a
  | _ => True

instance (s : State) (o : Op) (a : Answer) : Decidable (RestsLow s o a) := by
  unfold RestsLow
  split <;> infer_instance

/-- The objects a drive in Operation Enabled follows. -/
def Field.Followed (f : Field) : Prop :=
  f = .mode ∨ f = .velocity ∨ f = .acceleration ∨ f = .deceleration
  deriving Decidable

/-- No followed object was put back into an enabled drive. -/
def NotFollowed (s : State) : Prop :=
  ∀ entry ∈ s.restored, entry.1.Followed → entry.2.2 ≠ .kOperationEnabled
  deriving Decidable

/-! ### The bodies -/

/-- What the destructor finds: with the setpoints always the mode. -/
structure Ready (armed : Bool) (s : State) : Prop where
  restoring : s.restoring = false
  restored : s.restored = []
  profile : s.restorer.profile.isSome = true → s.restorer.mode.isSome = true
  targetVelocity : s.restorer.targetVelocity.isSome = true → s.restorer.mode.isSome = true
  mode : armed = true → s.restorer.mode.isSome = true

/-- Setpoints are armed only once the mode is. -/
def Op.ArmsInOrder (armed : Bool) : Op → Prop
  | .restoreProfile | .restoreTargetVelocity => armed = true
  | _ => True

instance (armed : Bool) : DecidablePred (Op.ArmsInOrder armed) := by
  intro o
  cases o <;> unfold Op.ArmsInOrder <;> infer_instance

def Enabling (s : State) (o : Op) (a : Answer) : Prop := BusAnswers s o a ∧ RestsLow s o a

variable {armed : Bool} {s t : State} {o : Op} {a : Answer} {e : Exit}

theorem ready_start (cia : Cia402.State) (value : Field → ℤ) (hasBrake : Bool) :
    Ready false (.start cia value hasBrake) :=
  ⟨rfl, rfl, nofun, nofun, nofun⟩

theorem ready_drift (h : Ready armed s) (cia : Cia402.State) : Ready armed { s with cia := cia } :=
  ⟨h.restoring, h.restored, h.profile, h.targetVelocity, h.mode⟩

theorem ready_perform (hs : Ready armed s) (ho : o.ArmsInOrder armed) :
    Ready armed (perform s o a).2 := by
  have hrestoring := (perform_restoring s o a).trans hs.restoring
  have hrestored := (perform_restored s o a hs.restoring).trans hs.restored
  by_cases harms : o.arms = false
  · have hr := perform_restorer s o a harms
    refine ⟨hrestoring, hrestored, ?_, ?_, ?_⟩ <;> rw [hr]
    exacts [hs.profile, hs.targetVelocity, hs.mode]
  cases o with
  | restoreMode resting =>
    exact ⟨hrestoring, hrestored, fun _ => rfl, fun _ => rfl, fun _ => rfl⟩
  | restoreBrake | disarmChirp =>
    exact ⟨hrestoring, hrestored, hs.profile, hs.targetVelocity, hs.mode⟩
  | restoreProfile =>
    exact ⟨hrestoring, hrestored, fun _ => hs.mode ho, hs.targetVelocity, hs.mode⟩
  | restoreTargetVelocity =>
    exact ⟨hrestoring, hrestored, hs.profile, fun _ => hs.mode ho, hs.mode⟩
  | _ => exact (harms rfl).elim

theorem ready_step (ho : o.ArmsInOrder armed) (hs : Ready armed s)
    (h : stepOf apply Enabling s o e t) : Ready armed t := by
  obtain ⟨a, -, h⟩ := h
  have ht : t = (apply s o a).2 := by rw [h]
  rw [ht]
  exact ready_perform (ready_drift hs _) ho

theorem ready_part {x : Body Op} (hx : x.All (Op.ArmsInOrder armed)) :
    Triple (stepOf apply Enabling) (Ready armed) x (Ready armed) (Ready armed) :=
  .keep hx fun _ _ _ _ => ready_step

theorem ready_restoreMode :
    Triple (stepOf apply Enabling) (Ready false) (.op (.restoreMode none)) (Ready true)
      (Ready false) := by
  have horder : Op.ArmsInOrder false (.restoreMode none) := trivial
  refine .op (fun s t hs h => ?_) fun s t hs h => ready_step horder hs h
  have hready := ready_step horder hs h
  obtain ⟨a, _, h⟩ := h
  cases h
  exact ⟨hready.restoring, hready.restored, hready.profile, hready.targetVelocity,
    fun _ => rfl⟩

theorem Ready.forget (h : Ready armed s) : Ready false s :=
  ⟨h.restoring, h.restored, h.profile, h.targetVelocity, nofun⟩

theorem ready_runIcMuCalibrationProcedure :
    Triple (stepOf apply Enabling) (Ready false) (.all runIcMuCalibrationProcedure) (Ready false)
      (Ready false) := by
  have hbefore : Triple (stepOf apply Enabling) (Ready false)
      (.all (planCalibration ++ readBefore)) (Ready false) (Ready false) :=
    ready_part (by decide)
  have hafter : Triple (stepOf apply Enabling) (Ready true)
      (.all ([.op .restoreProfile, .op .restoreTargetVelocity] ++
        ([.attempt (.all calibrateArmed)] ++ finishCalibration))) (Ready false) (Ready false) :=
    (ready_part (by decide)).weaken (fun _ h => h) (fun _ => Ready.forget) fun _ => Ready.forget
  exact hbefore.append (ready_restoreMode.seq hafter)

theorem ready_body (procedure : Procedure) :
    Triple (stepOf apply Enabling) (Ready false) procedure.body (Ready false) (Ready false) := by
  cases procedure with
  | runMeasurementProcedure needsRelease =>
    cases needsRelease <;> exact ready_part (by decide)
  | runOpenPhaseDetectionProcedure => exact ready_part (by decide)
  | runOffsetDetectionProcedure => exact ready_part (by decide)
  | excitePlantAndRecord => exact ready_part (by decide)
  | runOpenLoopFieldControlProcedure => exact ready_part (by decide)
  | runIcMuCalibrationProcedure => exact ready_runIcMuCalibrationProcedure

/-! ### The destructor -/

structure Quiet (s : State) : Prop where
  restoring : s.restoring = true
  notFollowed : NotFollowed s

structure Down (s : State) : Prop extends Quiet s where
  cia : s.cia ≠ .kOperationEnabled

/-- What is written before the drive is taken down. -/
def Op.WritesUnfollowed : Op → Prop
  | .write f _ => ¬ f.Followed
  | _ => False

def Op.Writes : Op → Prop
  | .write _ _ | .call _ => True
  | _ => False

theorem drifted_ne {state : Cia402.State} (h : state ≠ .kOperationEnabled)
    (drift : Option Cia402.Drift) : Cia402.drifted state drift ≠ .kOperationEnabled := by
  cases drift with
  | none => exact h
  | some drift => exact drift.2

theorem notFollowed_write {f : Field} {v : ℤ} {reply : Cia402.Reply} (hs : NotFollowed s)
    (h : f.Followed → s.cia ≠ .kOperationEnabled) : NotFollowed (s.write f v reply) := by
  intro entry hentry hf
  simp only [State.write] at hentry
  split_ifs at hentry
  · rcases List.mem_append.mp hentry with hold | hnew
    · exact hs entry hold hf
    · rw [List.mem_singleton] at hnew
      subst hnew
      exact h hf
  · exact hs entry hentry hf

theorem quiet_perform_write {f : Field} {v : Option ℤ} (hs : Quiet s)
    (h : f.Followed → s.cia ≠ .kOperationEnabled) : Quiet (perform s (.write f v) a).2 := by
  refine ⟨(perform_restoring s _ a).trans hs.restoring, ?_⟩
  simp only [perform]
  split_ifs
  · exact notFollowed_write hs.notFollowed h
  · exact hs.notFollowed

theorem quiet_step (ho : o.WritesUnfollowed) (hs : Quiet s)
    (h : stepOf apply Enabling s o e t) : Quiet t := by
  obtain ⟨a, _, h⟩ := h
  have ht : t = (apply s o a).2 := by rw [h]
  rw [ht]
  cases o with
  | write f v => exact quiet_perform_write ⟨hs.restoring, hs.notFollowed⟩ fun hf => (ho hf).elim
  | _ => exact ho.elim

theorem down_step (ho : o.Writes) (hs : Down s) (h : stepOf apply Enabling s o e t) : Down t := by
  obtain ⟨a, _, h⟩ := h
  have ht : t = (apply s o a).2 := by rw [h]
  have hcia := drifted_ne hs.cia a.drift
  rw [ht]
  cases o with
  | write f v =>
    refine ⟨quiet_perform_write ⟨hs.restoring, hs.notFollowed⟩ fun _ => hcia, ?_⟩
    simp only [apply, perform]
    split_ifs <;> exact hcia
  | call what => exact ⟨⟨hs.restoring, hs.notFollowed⟩, hcia⟩
  | _ => exact ho.elim

/-- The accesses that take the drive down do, whether or not they get where they were told to. -/
theorem down_of_lowered {resting : Cia402.State} (hs : Quiet s)
    (h : stepOf apply Enabling s
      (if resting = .kSwitchOnDisabled then .disable else .transitionToState resting) e t) :
    Down t := by
  obtain ⟨a, hC, h⟩ := h
  obtain ⟨⟨hreply, hpoll, hpolls⟩, hl⟩ := hC.imp (· hs.restoring) id
  split_ifs at h hl
  · simp only [apply, perform, State.command, hreply, Cia402.Reply.landed, if_true] at h
    cases h
    exact ⟨⟨hs.restoring, hs.notFollowed⟩, Cia402.obey_disableVoltage _⟩
  · cases h
    refine ⟨⟨hs.restoring, hs.notFollowed⟩, ?_⟩
    rcases hl hs.restoring with hlow | ⟨rfl, hstate, hdrift⟩ | ⟨hrefused, hstate⟩
    · exact Cia402.transitionToState_of_low hlow _ _ _ hpoll hpolls
    · exact Cia402.transitionToState_quickStop _ _ hstate fun p hp =>
        ⟨List.forall_mem_cons.mpr ⟨hpoll, hpolls⟩ p hp, hdrift p hp⟩
    · rw [Cia402.transitionToState, if_pos hrefused]
      exact hstate

theorem down_lower (resting : Cia402.State) :
    Triple (stepOf apply Enabling) Quiet
      (.attempt (.op (if resting = .kSwitchOnDisabled then .disable
        else .transitionToState resting))) Down Quiet :=
  .attempt (.op (fun _ _ => down_of_lowered) fun _ _ => down_of_lowered)

theorem quiet_restoreBefore (r : Restorer) :
    Triple (stepOf apply Enabling) Quiet (.all (restoreBefore r)) Quiet Quiet := by
  refine .keep (p := Op.WritesUnfollowed) ⟨?_, ?_, trivial⟩ fun _ _ _ _ => quiet_step
  · split_ifs
    · exact (by decide : ¬ Field.Followed .chirp)
    · trivial
  · split
    · exact (by decide : ¬ Field.Followed .brake)
    · trivial

theorem down_restoreAfter (r : Restorer) :
    Triple (stepOf apply Enabling) Down (.all (restoreAfter r)) Down Down := by
  refine .keep (p := Op.Writes) ⟨?_, ?_, ?_, ?_, trivial⟩ fun _ _ _ _ => down_step
  · split
    · exact ⟨trivial, trivial⟩
    · trivial
  all_goals split <;> trivial

/-- Without a mode nothing that is followed is put back. -/
theorem quiet_restoreAfter {r : Restorer} (hm : r.mode = none) (hv : r.targetVelocity = none)
    (hp : r.profile = none) :
    Triple (stepOf apply Enabling) Quiet (.all (lower r :: restoreAfter r)) Quiet Quiet := by
  simp only [lower, restoreAfter, hm, hv, hp]
  exact .keep (p := Op.WritesUnfollowed) ⟨trivial, trivial, trivial, trivial, trivial, trivial⟩
    fun _ _ _ _ => quiet_step

theorem quiet_restoreParts (hs : Ready false s) :
    Triple (stepOf apply Enabling) Quiet (.all (restoreParts s.restorer)) Quiet Quiet := by
  refine (quiet_restoreBefore _).append ?_
  cases hm : s.restorer.mode with
  | none =>
    have hv : s.restorer.targetVelocity = none := by
      by_contra hv
      have := hs.targetVelocity (Option.isSome_iff_ne_none.mpr hv)
      rw [hm] at this
      cases this
    have hp : s.restorer.profile = none := by
      by_contra hp
      have := hs.profile (Option.isSome_iff_ne_none.mpr hp)
      rw [hm] at this
      cases this
    exact quiet_restoreAfter hm hv hp
  | some mode =>
    have hlower : Triple (stepOf apply Enabling) Quiet (lower s.restorer) Down Quiet := by
      simp only [lower, hm]
      exact down_lower _
    have hafter := (down_restoreAfter s.restorer).weaken (fun _ h => h)
      (fun _ h => h.toQuiet) fun _ h => h.toQuiet
    exact hlower.seq hafter

/-- A run whose destructor leads the drive out of Operation Enabled puts nothing back into an
enabled drive. -/
theorem notFollowed_of_restsLow (procedure : Procedure) (cia : Cia402.State) (value : Field → ℤ)
    (hasBrake : Bool) (t : State)
    (h : Leaves (fun s o a => BusAnswers s o a ∧ RestsLow s o a) procedure.body
      (.start cia value hasBrake) t) : NotFollowed t := by
  obtain ⟨e, u, hbody, hrestore⟩ := h
  have hstart := ready_start cia value hasBrake
  have hu : Ready false u := by
    cases e with
    | done => exact (ready_body procedure _ _ hstart).1 hbody
    | left => exact (ready_body procedure _ _ hstart).2 hbody
  have hquiet : Quiet { u with restoring := true } := by
    refine ⟨rfl, ?_⟩
    intro entry hentry
    have hnil : entry ∈ u.restored := hentry
    rw [hu.restored] at hnil
    cases hnil
  exact ((quiet_restoreParts hu _ _ hquiet).1 hrestore).notFollowed

/-- A calibration enables the drive and fails at the first command to the encoder. -/
def refusedCalibration : List (Choice Answer) :=
  List.replicate 18 (Choice.answer Answer.served) ++
    [Choice.no, .no, .answer { Answer.served with reply := .failed false }, .no, .no, .no, .yes,
      .answer .served, .no, .no] ++ List.replicate 6 (Choice.answer Answer.served)

theorem refusedCalibration_notFollowed :
    ∃ t, Leaves (fun s o a => BusAnswers s o a ∧ RestsLow s o a)
      Procedure.runIcMuCalibrationProcedure.body (.start .kSwitchOnDisabled (fun _ => 7) false) t ∧
      t.restored.length = 4 ∧ NotFollowed t := by
  obtain ⟨t, ht, hp⟩ := exists_leaves_of_runLeaves
    (fun s o a => BusAnswers s o a ∧ RestsLow s o a) 40 Procedure.runIcMuCalibrationProcedure.body
    refusedCalibration (.start .kSwitchOnDisabled (fun _ => 7) false)
    (fun t => t.restored.length = 4) (by decide +kernel)
  exact ⟨t, ht, of_decide_eq_true hp, notFollowed_of_restsLow _ _ _ _ _ ht⟩

/-- From Fault the way back is refused, and the drive is still enabled when the mode is written. -/
theorem calibrationFromFault_followed :
    ∃ t, Leaves BusAnswers Procedure.runIcMuCalibrationProcedure.body
      (.start .kFault (fun _ => 7) false) t ∧ ¬ NotFollowed t := by
  obtain ⟨t, ht, hp⟩ := exists_leaves_of_runLeaves BusAnswers 40
    Procedure.runIcMuCalibrationProcedure.body refusedCalibration
    (.start .kFault (fun _ => 7) false) (fun t => ¬ NotFollowed t) (by decide +kernel)
  exact ⟨t, ht, of_decide_eq_true hp⟩

end MotionMaster.DriveRestorer
