import Mathlib.Data.Fintype.Pi
import MotionMaster.Restore.Procedures

/-!
# Every change is unwound

Each object is read, armed and only then written, in every body and up to every point where it can
be left. What is known of each object is followed through the bodies. The mode is the exception:
it is armed after it was written, so that a write that fails after it took effect is lost.
-/

namespace MotionMaster.DriveRestorer

open Script

instance : Fintype Field where
  elems := {.mode, .brake, .chirp, .acceleration, .deceleration, .velocity}
  complete f := by cases f <;> decide

/-- A write of the mode that the restorer does not hold yet did not take effect if it failed. -/
def FailsCleanly (s : State) (o : Op) (a : Answer) : Prop :=
  match o with
  | .write .mode _ =>
    s.restoring = false → s.restorer.mode = none → a.reply ≠ .failed true
  | _ => True

instance (s : State) (o : Op) (a : Answer) : Decidable (FailsCleanly s o a) := by
  unfold FailsCleanly
  split <;> infer_instance

/-- For each object the body changed the destructor wrote what had been read of it, and for the
chirp that none is armed. -/
def Unwound (s : State) : Prop :=
  ∀ f, s.changed f = true → ∃ v, (if f = .chirp then v = kNone else s.before f = some v) ∧
    ∃ cia, (f, v, cia) ∈ s.restored

/-! ### What is known of an object -/

/-- The value the destructor will write is the one that counts. -/
def Recoverable (s : State) (f : Field) : Prop :=
  s.changed f = true →
    ∃ v, s.restorer.value f = some v ∧ if f = .chirp then v = kNone else s.before f = some v

inductive Status where
  /-- Neither changed nor armed. -/
  | fresh
  /-- Fresh, and holding the value that arms no chirp. -/
  | quiet
  /-- Read besides. -/
  | saved
  /-- Read and written, but not armed. -/
  | loose
  | armed
  /-- Armed if it was changed. -/
  | any
  deriving DecidableEq

def Status.Holds (s : State) (f : Field) : Status → Prop
  | .fresh => s.restorer.value f = none ∧ s.changed f = false
  | .quiet => s.restorer.value f = none ∧ s.changed f = false ∧ s.value f = kNone
  | .saved => s.restorer.value f = none ∧ s.changed f = false ∧ (s.saved f).isSome = true
  | .loose => s.restorer.value f = none ∧ (s.saved f).isSome = true ∧
      (s.changed f = true → s.before f = s.saved f)
  | .armed => ∃ v, s.restorer.value f = some v ∧ (f ≠ .chirp → s.saved f = some v) ∧
      (s.changed f = true → f ≠ .chirp → s.before f = some v)
  | .any => Recoverable s f

structure Fits (k : Field → Status) (s : State) : Prop where
  restoring : s.restoring = false
  brake : s.changed .brake = true → s.hasBrake = true
  holds : ∀ f, (k f).Holds s f

/-- What the destructor needs. -/
structure Unwinds (s : State) : Prop where
  brake : s.changed .brake = true → s.hasBrake = true
  recoverable : ∀ f, Recoverable s f

/-- The rules a body keeps. Between the write of the mode and its restore nothing else happens. -/
def afterOp (k : Field → Status) : Op → Option (Field → Status)
  | .read f =>
    if (∀ g, k g ≠ .loose) ∧ (k f = .fresh ∨ k f = .saved) then
      some (Function.update k f .saved)
    else none
  | .write f v =>
    if (∀ g, k g ≠ .loose) ∧ (k f = .armed ∨ f = .chirp ∧ k f = .quiet ∧ v = some kNone) then
      some k
    else if (∀ g, k g ≠ .loose) ∧ f = .mode ∧ k f = .saved then some (Function.update k f .loose)
    else none
  | .restoreMode _ =>
    if (∀ g, g ≠ .mode → k g ≠ .loose) ∧ (k .mode = .saved ∨ k .mode = .loose) then
      some (Function.update k .mode .armed)
    else none
  | .restoreBrake =>
    if (∀ g, k g ≠ .loose) ∧ k .brake = .saved then some (Function.update k .brake .armed)
    else none
  | .disarmChirp =>
    if (∀ g, k g ≠ .loose) ∧ k .chirp = .quiet then some (Function.update k .chirp .armed)
    else none
  | .restoreProfile =>
    if (∀ g, k g ≠ .loose) ∧ k .acceleration = .saved ∧ k .deceleration = .saved then
      some (Function.update (Function.update k .acceleration .armed) .deceleration .armed)
    else none
  | .restoreTargetVelocity =>
    if (∀ g, k g ≠ .loose) ∧ k .velocity = .saved then
      some (Function.update k .velocity .armed)
    else none
  | .call _ | .readState | .refuseEnabled | .bringDown | .transitionToState _ | .disable
  | .quickStop => if ∀ g, k g ≠ .loose then some k else none

def unwinding : Analysis Op (Field → Status) where
  after := afterOp
  join k l f := if k f = l f then k f else .any
  leaves k := ∀ f, k f ≠ .loose

variable {k l : Field → Status} {s t : State} {o : Op} {a : Answer} {e : Exit} {f g : Field}

/-! ### What the accesses do to it -/

/-- Two states of which the same is known about an object. -/
structure SameAt (f : Field) (s t : State) : Prop where
  current : t.value f = s.value f
  value : t.restorer.value f = s.restorer.value f
  changed : t.changed f = s.changed f
  saved : t.saved f = s.saved f
  before : t.before f = s.before f

variable {status : Status}

theorem SameAt.holds (h : SameAt f s t) (hs : status.Holds s f) :
    status.Holds t f := by
  cases status <;>
    simpa only [Status.Holds, Recoverable, h.current, h.value, h.changed, h.saved,
      h.before] using hs

theorem Status.Holds.recoverable (h : status.Holds s f)
    (hl : status ≠ .loose) : Recoverable s f := by
  intro hc
  cases status with
  | fresh => exact absurd hc (by rw [h.2]; decide)
  | quiet | saved => exact absurd hc (by rw [h.2.1]; decide)
  | loose => exact (hl rfl).elim
  | armed =>
    obtain ⟨v, hv, -, hb⟩ := h
    refine ⟨v, hv, ?_⟩
    by_cases hf : f = .chirp
    · subst hf
      simp only [Restorer.value, Option.ite_none_right_eq_some, Option.some.injEq] at hv
      simpa using hv.2.symm
    · rw [if_neg hf]
      exact hb hc hf
  | any => exact h hc

/-- An object that is read, and armed with what was read. -/
theorem holds_armed (hstatus : status = .saved ∨ status = .loose)
    (h : status.Holds s f) {d : ℤ} (hv : t.restorer.value f = some ((s.saved f).getD d))
    (hc : t.changed f = s.changed f)
    (hs : t.saved f = s.saved f) (hb : t.before f = s.before f) : Status.armed.Holds t f := by
  have hsaved : (s.saved f).isSome = true := by
    rcases hstatus with rfl | rfl
    · exact h.2.2
    · exact h.2.1
  obtain ⟨v, hv'⟩ := Option.isSome_iff_exists.mp hsaved
  refine ⟨v, by rw [hv, hv']; rfl, fun _ => hs.trans hv', fun hchanged _ => ?_⟩
  rw [hb]
  rcases hstatus with rfl | rfl
  · rw [hc, h.2.1] at hchanged
    cases hchanged
  · exact (h.2.2 (hc ▸ hchanged)).trans hv'

theorem Fits.of_same (h : Fits k s) (hr : t.restoring = s.restoring) (hv : t.value = s.value)
    (hb : t.hasBrake = s.hasBrake) (hc : t.changed = s.changed) (hs : t.saved = s.saved)
    (hbefore : t.before = s.before) (hrest : t.restorer = s.restorer) : Fits k t :=
  ⟨hr.trans h.restoring, by rw [hc, hb]; exact h.brake, fun f =>
    SameAt.holds ⟨by rw [hv], by rw [hrest], by rw [hc], by rw [hs], by rw [hbefore]⟩ (h.holds f)⟩

theorem Fits.unwinds (h : Fits k s) (hl : ∀ f, k f ≠ .loose) : Unwinds s :=
  ⟨h.brake, fun f => (h.holds f).recoverable (hl f)⟩

theorem fits_drift (h : Fits k s) (cia : Cia402.State) : Fits k { s with cia := cia } :=
  h.of_same rfl rfl rfl rfl rfl rfl rfl

/-- An access that neither reads, writes nor arms an object. -/
def Op.touchesNothing : Op → Bool
  | .call _ | .readState | .refuseEnabled | .bringDown | .transitionToState _ | .disable
  | .quickStop => true
  | _ => false

theorem fits_perform_of_touchesNothing (h : Fits k s) (ho : o.touchesNothing = true) :
    Fits k (perform s o a).2 := by
  cases o with
  | read | write | restoreMode | restoreBrake | disarmChirp | restoreProfile
  | restoreTargetVelocity => cases ho
  | call | refuseEnabled | transitionToState => exact h.of_same rfl rfl rfl rfl rfl rfl rfl
  | readState | bringDown | disable | quickStop =>
    simp only [perform, State.walk, State.command]
    split_ifs <;> exact h.of_same rfl rfl rfl rfl rfl rfl rfl

theorem fits_perform_read (h : Fits k s) (hf : k f = .fresh ∨ k f = .saved) :
    ((perform s (.read f) a).1 = .done →
      Fits (Function.update k f .saved) (perform s (.read f) a).2) ∧
    ((perform s (.read f) a).1 = .left → Fits k (perform s (.read f) a).2) := by
  simp only [perform]
  split_ifs with hreply
  · refine ⟨fun _ => ⟨h.restoring, h.brake, fun g => ?_⟩, fun hleft => by cases hleft⟩
    by_cases hg : g = f
    · subst hg
      rw [Function.update_self]
      have hunarmed : s.restorer.value g = none ∧ s.changed g = false := by
        have hholds := h.holds g
        rcases hf with hf | hf <;> rw [hf] at hholds
        · exact hholds
        · exact ⟨hholds.1, hholds.2.1⟩
      refine ⟨hunarmed.1, hunarmed.2, ?_⟩
      simp
    · rw [Function.update_of_ne hg]
      have hsame : SameAt g s
          { s with saved := Function.update s.saved f (some (s.readValue f)) } :=
        ⟨rfl, rfl, rfl, Function.update_of_ne hg _ _, rfl⟩
      exact hsame.holds (h.holds g)
  · exact ⟨fun hdone => (by cases hdone), fun _ => h⟩

section Write

variable {v : ℤ} {reply : Cia402.Reply}

theorem sameAt_write (hg : g ≠ f) : SameAt g s (s.write f v reply) := by
  refine ⟨?_, rfl, ?_, rfl, ?_⟩ <;> simp only [State.write] <;> split_ifs <;>
    simp only [Function.update_of_ne hg]

theorem changed_write (h : (s.write f v reply).changed f = true) :
    s.changed f = true ∨ s.Changes f v reply := by
  by_cases hc : s.Changes f v reply
  · exact Or.inr hc
  · simp only [State.write, if_neg hc] at h
    exact Or.inl h

theorem before_write (h : (s.write f v reply).changed f = true) :
    (s.write f v reply).before f = if s.changed f then s.before f else s.saved f := by
  simp only [State.write]
  cases hc : s.changed f with
  | true => simp
  | false =>
    rcases changed_write h with hold | hchanges
    · rw [hc] at hold
      cases hold
    · simp [hchanges]

theorem fits_write_armed (h : Fits k s) (hf : k f = .armed) (hi : s.Issues f) :
    Fits k (s.write f v reply) := by
  obtain ⟨u, hu, hsaved, hbefore⟩ : Status.armed.Holds s f := hf ▸ h.holds f
  refine ⟨h.restoring, fun hc => ?_, fun g => ?_⟩
  · by_cases hb : f = .brake
    · exact hi hb
    · rw [(sameAt_write (Ne.symm hb)).changed] at hc
      exact h.brake hc
  · by_cases hg : g = f
    · subst hg
      rw [hf]
      refine ⟨u, hu, hsaved, fun hc hchirp => ?_⟩
      rw [before_write hc]
      split_ifs with hold
      · exact hbefore hold hchirp
      · exact hsaved hchirp
    · exact (sameAt_write hg).holds (h.holds g)

/-- A write of what is there is not a change. -/
theorem fits_write_same (h : Fits k s) (hv : v = s.value f) : Fits k (s.write f v reply) := by
  have hc : ¬ s.Changes f v reply := fun hc => hc.2.2 hv
  have hvalue : (s.write f v reply).value = s.value := by
    simp only [State.write]
    split_ifs
    · rw [hv, Function.update_eq_self]
    · rfl
  refine h.of_same rfl hvalue rfl ?_ rfl ?_ rfl
  · simp only [State.write, if_neg hc]
  · simp only [State.write, hc, false_and, if_false]

theorem fits_write_loose (h : Fits k s) (hf : k .mode = .saved) :
    Fits (Function.update k .mode .loose) (s.write .mode v reply) := by
  obtain ⟨hvalue, hchanged, hsaved⟩ : Status.saved.Holds s .mode := hf ▸ h.holds .mode
  refine ⟨h.restoring, fun hc => ?_, fun g => ?_⟩
  · rw [(sameAt_write (by decide)).changed] at hc
    exact h.brake hc
  · by_cases hg : g = .mode
    · subst hg
      refine ⟨hvalue, hsaved, fun hc => ?_⟩
      rw [before_write hc, hchanged]
      rfl
    · rw [Function.update_of_ne hg]
      exact (sameAt_write hg).holds (h.holds g)

/-- A write that did not take effect. -/
theorem fits_write_failed (h : Fits k s) (hr : reply.landed = false) :
    Fits k (s.write f v reply) := by
  have hc : ¬ s.Changes f v reply := fun hc => by
    have := hc.2.1
    rw [hr] at this
    cases this
  refine h.of_same rfl ?_ rfl ?_ rfl ?_ rfl <;> simp [State.write, hc, hr]

end Write

/-! ### Arming -/

variable {r : Restorer}

/-- The restorer is given another value. -/
theorem fits_arm (h : Fits k s)
    (hl : ∀ g, (k g = l g ∧ r.value g = s.restorer.value g) ∨
      (l g).Holds { s with restorer := r } g) :
    Fits l { s with restorer := r } := by
  refine ⟨h.restoring, h.brake, fun g => ?_⟩
  rcases hl g with ⟨hg, hr⟩ | hg
  · have hat : SameAt g s { s with restorer := r } := ⟨rfl, hr, rfl, rfl, rfl⟩
    exact hg ▸ hat.holds (h.holds g)
  · exact hg

theorem fits_arm_one (h : Fits k s)
    (hf : Status.armed.Holds { s with restorer := r } f)
    (hr : ∀ g, g ≠ f → r.value g = s.restorer.value g) :
    Fits (Function.update k f .armed) { s with restorer := r } := by
  refine fits_arm h fun g => ?_
  by_cases hg : g = f
  · subst hg
    rw [Function.update_self]
    exact Or.inr hf
  · exact Or.inl ⟨(Function.update_of_ne hg _ _).symm, hr g hg⟩

theorem fits_perform_restoreMode {resting : Option Cia402.State} (h : Fits k s)
    (hk : k .mode = .saved ∨ k .mode = .loose) :
    Fits (Function.update k .mode .armed) (perform s (.restoreMode resting) a).2 := by
  refine fits_arm_one h (holds_armed hk (h.holds .mode) rfl rfl rfl rfl) fun g hg => ?_
  cases g <;> first | rfl | contradiction

theorem fits_perform_restoreBrake (h : Fits k s) (hk : k .brake = .saved) :
    Fits (Function.update k .brake .armed) (perform s .restoreBrake a).2 := by
  refine fits_arm_one h (holds_armed (Or.inl hk) (h.holds .brake) rfl rfl rfl rfl)
    fun g hg => ?_
  cases g <;> first | rfl | contradiction

theorem fits_perform_disarmChirp (h : Fits k s) :
    Fits (Function.update k .chirp .armed) (perform s .disarmChirp a).2 := by
  refine fits_arm_one h ⟨kNone, rfl, fun hc => (hc rfl).elim, fun _ hc => (hc rfl).elim⟩
    fun g hg => ?_
  cases g <;> first | rfl | contradiction

theorem fits_perform_restoreProfile (h : Fits k s) (ha : k .acceleration = .saved)
    (hd : k .deceleration = .saved) :
    Fits (Function.update (Function.update k .acceleration .armed) .deceleration .armed)
      (perform s .restoreProfile a).2 := by
  refine fits_arm h fun g => ?_
  by_cases hg : g = .deceleration
  · subst hg
    exact Or.inr (holds_armed (Or.inl hd) (h.holds .deceleration) rfl rfl rfl rfl)
  · rw [Function.update_of_ne hg]
    by_cases hg' : g = .acceleration
    · subst hg'
      exact Or.inr (holds_armed (Or.inl ha) (h.holds .acceleration) rfl rfl rfl rfl)
    · refine Or.inl ⟨(Function.update_of_ne hg' _ _).symm, ?_⟩
      cases g <;> first | rfl | contradiction

theorem fits_perform_restoreTargetVelocity (h : Fits k s) (hk : k .velocity = .saved) :
    Fits (Function.update k .velocity .armed) (perform s .restoreTargetVelocity a).2 := by
  refine fits_arm_one h (holds_armed (Or.inl hk) (h.holds .velocity) rfl rfl rfl rfl)
    fun g hg => ?_
  cases g <;> first | rfl | contradiction

/-! ### The bodies -/

theorem fits_perform_write {v : Option ℤ} (h : Fits k s) (hk : afterOp k (.write f v) = some l)
    (hC : FailsCleanly s (.write f v) a) :
    ((perform s (.write f v) a).1 = .done → Fits l (perform s (.write f v) a).2) ∧
    ((perform s (.write f v) a).1 = .left →
      (∀ g, k g ≠ .loose) ∧ Fits k (perform s (.write f v) a).2) := by
  simp only [afterOp] at hk
  split_ifs at hk with hsafe hmode
  · cases hk
    have hfits : Fits k (perform s (.write f v) a).2 := by
      simp only [perform]
      split_ifs with hi
      · rcases hsafe.2 with harmed | ⟨rfl, hquiet, rfl⟩
        · exact fits_write_armed h harmed hi
        · have hholds : Status.quiet.Holds s .chirp := hquiet ▸ h.holds .chirp
          exact fits_write_same h hholds.2.2.symm
      · exact h
    exact ⟨fun _ => hfits, fun _ => ⟨hsafe.1, hfits⟩⟩
  · cases hk
    obtain ⟨hleaves, rfl, hsaved⟩ := hmode
    have hi : s.Issues .mode := fun hbrake => by cases hbrake
    have hmode : Status.saved.Holds s .mode := hsaved ▸ h.holds .mode
    have hunarmed : s.restorer.mode = none := hmode.1
    simp only [perform, if_pos hi]
    refine ⟨fun _ => fits_write_loose h hsaved, fun hleft => ⟨hleaves, ?_⟩⟩
    refine fits_write_failed h ?_
    have hclean := hC h.restoring hunarmed
    cases hreply : a.reply with
    | ok =>
      rw [hreply] at hleft
      cases hleft
    | failed landed =>
      cases landed with
      | false => rfl
      | true => exact (hclean hreply).elim

theorem fits_perform (h : Fits k s) (hk : afterOp k o = some l) (hC : FailsCleanly s o a) :
    ((perform s o a).1 = .done → Fits l (perform s o a).2) ∧
    ((perform s o a).1 = .left → (∀ g, k g ≠ .loose) ∧ Fits k (perform s o a).2) := by
  cases o with
  | write f v => exact fits_perform_write h hk hC
  | read f =>
    simp only [afterOp, Option.ite_none_right_eq_some, Option.some.injEq] at hk
    obtain ⟨⟨hleaves, hf⟩, rfl⟩ := hk
    obtain ⟨hdone, hleft⟩ := fits_perform_read (a := a) h hf
    exact ⟨hdone, fun he => ⟨hleaves, hleft he⟩⟩
  | restoreMode resting =>
    simp only [afterOp, Option.ite_none_right_eq_some, Option.some.injEq] at hk
    obtain ⟨⟨_, hmode⟩, rfl⟩ := hk
    exact ⟨fun _ => fits_perform_restoreMode h hmode, nofun⟩
  | restoreBrake =>
    simp only [afterOp, Option.ite_none_right_eq_some, Option.some.injEq] at hk
    obtain ⟨⟨_, hbrake⟩, rfl⟩ := hk
    exact ⟨fun _ => fits_perform_restoreBrake h hbrake, nofun⟩
  | disarmChirp =>
    simp only [afterOp, Option.ite_none_right_eq_some, Option.some.injEq] at hk
    obtain ⟨_, rfl⟩ := hk
    exact ⟨fun _ => fits_perform_disarmChirp h, nofun⟩
  | restoreProfile =>
    simp only [afterOp, Option.ite_none_right_eq_some, Option.some.injEq] at hk
    obtain ⟨⟨_, ha, hd⟩, rfl⟩ := hk
    exact ⟨fun _ => fits_perform_restoreProfile h ha hd, nofun⟩
  | restoreTargetVelocity =>
    simp only [afterOp, Option.ite_none_right_eq_some, Option.some.injEq] at hk
    obtain ⟨⟨_, hvelocity⟩, rfl⟩ := hk
    exact ⟨fun _ => fits_perform_restoreTargetVelocity h hvelocity, nofun⟩
  | call | readState | refuseEnabled | bringDown | transitionToState | disable | quickStop =>
    simp only [afterOp, Option.ite_none_right_eq_some, Option.some.injEq] at hk
    obtain ⟨hleaves, rfl⟩ := hk
    exact ⟨fun _ => fits_perform_of_touchesNothing h rfl,
      fun _ => ⟨hleaves, fits_perform_of_touchesNothing h rfl⟩⟩

theorem unwinding_sound : unwinding.Sound (stepOf apply FailsCleanly) Fits Unwinds where
  op k o l hk := by
    have hstep : ∀ s e t, Fits k s → stepOf apply FailsCleanly s o e t →
        (e = .done → Fits l t) ∧ (e = .left → (∀ g, k g ≠ .loose) ∧ Fits k t) := by
      intro s e t hs h
      obtain ⟨a, hC, h⟩ := h
      have hC' : FailsCleanly { s with cia := Cia402.drifted s.cia a.drift } o a := by
        cases o <;> exact hC
      obtain ⟨hdone, hleft⟩ := fits_perform (fits_drift hs _) hk hC'
      unfold apply at h
      rw [h] at hdone hleft
      exact ⟨hdone, hleft⟩
    exact .op (fun s t hs h => (hstep s _ t hs h).1 rfl) fun s t hs h =>
      ⟨decide_eq_true ((hstep s _ t hs h).2 rfl).1, ((hstep s _ t hs h).2 rfl).2⟩
  join k l s hk hl h := by
    have hk := of_decide_eq_true hk
    have hl := of_decide_eq_true hl
    have hjoin : ∀ m : Field → Status, Fits m s → (m = k ∨ m = l) →
        Fits (unwinding.join k l) s := by
      intro m hm hmem
      refine ⟨hm.restoring, hm.brake, fun f => ?_⟩
      simp only [unwinding]
      split_ifs with heq
      · rcases hmem with rfl | rfl
        · exact hm.holds f
        · exact heq ▸ hm.holds f
      · refine (hm.holds f).recoverable ?_
        rcases hmem with rfl | rfl
        · exact hk f
        · exact hl f
    rcases h with h | h
    · exact hjoin k h (Or.inl rfl)
    · exact hjoin l h (Or.inr rfl)
  leaves k s hk hs := hs.unwinds (of_decide_eq_true hk)

/-- One body writes the chirp before it arms it. -/
def Procedure.known : Procedure → Field → Status
  | .excitePlantAndRecord, .chirp => .quiet
  | _, _ => .fresh

theorem fits_start {procedure : Procedure} (cia : Cia402.State) {value : Field → ℤ}
    (hasBrake : Bool) (h : procedure = .excitePlantAndRecord → value .chirp = kNone) :
    Fits procedure.known (.start cia value hasBrake) := by
  refine ⟨rfl, nofun, fun f => ?_⟩
  cases procedure <;> cases f <;> first | exact ⟨rfl, rfl⟩ | exact ⟨rfl, rfl, h rfl⟩

/-- Every body keeps the rules, and does not end between a write and its restore. -/
theorem unwinding_body (procedure : Procedure) :
    (unwinding.flow procedure.known procedure.body).any unwinding.leaves = true := by
  cases procedure with
  | runMeasurementProcedure needsRelease => cases needsRelease <;> decide +kernel
  | _ => decide +kernel

theorem unwinds_body {procedure : Procedure} {cia : Cia402.State} {value : Field → ℤ}
    {hasBrake : Bool} (hv : procedure = .excitePlantAndRecord → value .chirp = kNone)
    (h : Exec (stepOf apply FailsCleanly) procedure.body (.start cia value hasBrake) e t) :
    Unwinds t := by
  have hbody := unwinding_body procedure
  cases hflow : unwinding.flow procedure.known procedure.body with
  | none =>
    rw [hflow] at hbody
    cases hbody
  | some l =>
    rw [hflow] at hbody
    have htriple := unwinding_sound.triple hflow _ t (fits_start cia hasBrake hv)
    cases e with
    | done => exact unwinding_sound.leaves l t hbody (htriple.1 h)
    | left => exact htriple.2 h

/-! ### The destructor -/

/-- What the destructor leaves alone. -/
structure Restores (s t : State) : Prop where
  restoring : s.restoring = true → t.restoring = true
  hasBrake : t.hasBrake = s.hasBrake
  changed : s.restoring = true → t.changed = s.changed
  before : s.restoring = true → t.before = s.before
  restored : ∀ entry ∈ s.restored, entry ∈ t.restored

theorem Restores.refl (s : State) : Restores s s :=
  ⟨id, rfl, fun _ => rfl, fun _ => rfl, fun _ h => h⟩

theorem Restores.trans {u : State} (h : Restores s t) (h' : Restores t u) : Restores s u :=
  ⟨fun hs => h'.restoring (h.restoring hs), h'.hasBrake.trans h.hasBrake,
    fun hs => (h'.changed (h.restoring hs)).trans (h.changed hs),
    fun hs => (h'.before (h.restoring hs)).trans (h.before hs),
    fun entry he => h'.restored entry (h.restored entry he)⟩

theorem restores_write (v : ℤ) (reply : Cia402.Reply) : Restores s (s.write f v reply) := by
  refine ⟨id, rfl, fun hs => ?_, fun hs => ?_, fun entry he => ?_⟩
  · simp [State.write, State.Changes, hs]
  · simp [State.write, State.Changes, hs]
  · simp only [State.write]
    split_ifs
    · exact List.mem_append_left _ he
    · exact he

theorem restores_perform (s : State) (o : Op) (a : Answer) : Restores s (perform s o a).2 := by
  cases o with
  | write f v =>
    simp only [perform]
    split_ifs
    · exact restores_write _ _
    · exact .refl s
  | call | refuseEnabled | transitionToState | restoreMode | restoreBrake | disarmChirp
  | restoreProfile | restoreTargetVelocity =>
    exact ⟨id, rfl, fun _ => rfl, fun _ => rfl, fun _ h => h⟩
  | read | readState | bringDown | disable | quickStop =>
    simp only [perform, State.walk, State.command]
    split_ifs <;> exact ⟨id, rfl, fun _ => rfl, fun _ => rfl, fun _ h => h⟩

section Destructor

variable {C : State → Op → Answer → Prop}

theorem restores_step (h : stepOf apply C s o e t) : Restores s t := by
  obtain ⟨a, -, h⟩ := h
  have hdrift : Restores s { s with cia := Cia402.drifted s.cia a.drift } :=
    ⟨id, rfl, fun _ => rfl, fun _ => rfl, fun _ h => h⟩
  have ht : t = (apply s o a).2 := by rw [h]
  rw [ht]
  exact hdrift.trans (restores_perform _ o a)

theorem restores_exec {x : Body Op} (h : Exec (stepOf apply C) x s e t) : Restores s t :=
  h.invariant (p := fun _ => True) (I := Restores s) (.of_forall fun _ => trivial)
    (fun _ _ _ _ _ hs hstep => hs.trans (restores_step hstep)) (.refl s)

theorem restored_write {v : ℤ} (hr : s.restoring = true) (hi : s.Issues f)
    (h : stepOf apply C s (.write f (some v)) e t) : ∃ cia, (f, v, cia) ∈ t.restored := by
  obtain ⟨a, -, h⟩ := h
  have hi' : ({ s with cia := Cia402.drifted s.cia a.drift } : State).Issues f := hi
  simp only [apply, perform, if_pos hi'] at h
  cases h
  simp [State.write, hr]

theorem restored_putBack {v : ℤ} (hr : s.restoring = true) (hi : s.Issues f)
    (h : Exec (stepOf apply C) (putBack f v) s e t) : ∃ cia, (f, v, cia) ∈ t.restored := by
  cases h with
  | attempt h =>
    cases h with
    | op h => exact restored_write hr hi h

/-- Each value the restorer holds has its part of the destructor. -/
theorem exists_restoreParts {v : ℤ} (h : r.value f = some v) :
    ∃ x ∈ restoreParts r, ∀ s t, s.restoring = true → s.Issues f →
      Exec (stepOf apply C) x s .done t → ∃ cia, (f, v, cia) ∈ t.restored := by
  cases f with
  | mode =>
    have hmode : r.mode = some v := h
    refine ⟨_, List.mem_append_right _ (List.mem_cons_of_mem _ List.mem_cons_self), ?_⟩
    intro s t hr hi hx
    simp only [hmode] at hx
    cases hx with
    | attempt hx =>
      cases hx with
      | seq hwrite hshown =>
        cases hwrite with
        | op hwrite =>
          obtain ⟨cia, hmem⟩ := restored_write hr hi hwrite
          exact ⟨cia, (restores_exec hshown).restored _ hmem⟩
      | seqLeft hwrite =>
        cases hwrite with
        | op hwrite => exact restored_write hr hi hwrite
  | brake =>
    have hbrake : r.brake = some v := h
    refine ⟨putBack .brake v, ?_, fun s t hr hi hx => restored_putBack hr hi hx⟩
    simp [restoreParts, restoreBefore, hbrake]
  | chirp =>
    simp only [Restorer.value, Option.ite_none_right_eq_some, Option.some.injEq] at h
    obtain ⟨hd, rfl⟩ := h
    refine ⟨putBack .chirp kNone, ?_, fun s t hr hi hx => restored_putBack hr hi hx⟩
    simp [restoreParts, restoreBefore, hd]
  | acceleration =>
    obtain ⟨profile, hp, rfl⟩ := Option.map_eq_some_iff.mp h
    refine ⟨putBack .acceleration profile.1, ?_, fun s t hr hi hx => restored_putBack hr hi hx⟩
    simp [restoreParts, restoreAfter, hp]
  | deceleration =>
    obtain ⟨profile, hp, rfl⟩ := Option.map_eq_some_iff.mp h
    refine ⟨putBack .deceleration profile.2, ?_, fun s t hr hi hx => restored_putBack hr hi hx⟩
    simp [restoreParts, restoreAfter, hp]
  | velocity =>
    have hvelocity : r.targetVelocity = some v := h
    refine ⟨putBack .velocity v, ?_, fun s t hr hi hx => restored_putBack hr hi hx⟩
    simp [restoreParts, restoreAfter, hvelocity]

theorem unwound_of_unwinds (hs : Unwinds s)
    (h : Exec (stepOf apply C) (.all (restoreParts s.restorer)) { s with restoring := true } .done
      t) : Unwound t := by
  have hall := restores_exec h
  intro f hf
  rw [hall.changed rfl] at hf
  obtain ⟨v, hv, hbefore⟩ := hs.recoverable f hf
  obtain ⟨x, hx, hwrites⟩ := exists_restoreParts (C := C) hv
  obtain ⟨u, w, hu, hexec, hw⟩ := exec_all_mem Restores.refl (fun _ _ _ => Restores.trans)
    (fun _ _ _ _ hy => restores_exec hy) h hx
  have hissues : u.Issues f := by
    rintro rfl
    exact hu.hasBrake.trans (hs.brake hf)
  obtain ⟨cia, hmem⟩ := hwrites u w (hu.restoring rfl) hissues hexec
  refine ⟨v, ?_, cia, hw.restored _ hmem⟩
  rw [hall.before rfl]
  exact hbefore

end Destructor

/-- A run in which the mode is not written by an access that then fails is unwound, that of
`excitePlantAndRecord` on a drive without an armed chirp. -/
theorem unwound_of_failsCleanly (procedure : Procedure) (cia : Cia402.State) (value : Field → ℤ)
    (hasBrake : Bool) (t : State)
    (hv : procedure = .excitePlantAndRecord → value .chirp = kNone)
    (h : Leaves FailsCleanly procedure.body (.start cia value hasBrake) t) : Unwound t := by
  obtain ⟨e, u, hbody, hrestore⟩ := h
  exact unwound_of_unwinds (unwinds_body hv hbody) hrestore

/-- A measurement that releases the brake and succeeds. -/
def measured : List (Choice Answer) :=
  List.replicate 5 (Choice.answer Answer.served) ++ [Choice.no] ++
    List.replicate 3 (Choice.answer Answer.served) ++ [Choice.yes] ++
    List.replicate 2 (Choice.answer Answer.served) ++ [Choice.no] ++
    List.replicate 5 (Choice.answer Answer.served)

theorem measured_unwound :
    ∃ t, Leaves FailsCleanly (Procedure.runMeasurementProcedure true).body
      (.start .kSwitchOnDisabled (fun _ => 3) true) t ∧
      (t.changed .mode = true ∧ t.changed .brake = true) ∧ Unwound t := by
  obtain ⟨t, ht, hp⟩ := exists_leaves_of_runLeaves FailsCleanly 40
    (Procedure.runMeasurementProcedure true).body measured
    (.start .kSwitchOnDisabled (fun _ => 3) true)
    (fun t => t.changed .mode = true ∧ t.changed .brake = true) (by decide +kernel)
  exact ⟨t, ht, of_decide_eq_true hp,
    unwound_of_failsCleanly (.runMeasurementProcedure true) _ _ _ _ nofun ht⟩

/-- The write of the mode takes effect and fails, and nothing puts the mode back. -/
theorem lostModeWrite_not_unwound :
    ∃ t, Leaves (fun _ _ _ => True) (Procedure.runMeasurementProcedure true).body
      (.start .kSwitchOnDisabled (fun _ => 0) true) t ∧ ¬ Unwound t := by
  obtain ⟨t, ht, hp⟩ := exists_leaves_of_runLeaves (fun _ _ _ => True) 40
    (Procedure.runMeasurementProcedure true).body
    [.answer .served, .answer .served, .answer { Answer.served with reply := .failed true }]
    (.start .kSwitchOnDisabled (fun _ => 0) true)
    (fun t => t.changed .mode = true ∧ t.restored = []) (by decide +kernel)
  obtain ⟨hchanged, hnil⟩ := of_decide_eq_true hp
  refine ⟨t, ht, fun hunwound => ?_⟩
  obtain ⟨v, -, cia, hmem⟩ := hunwound .mode hchanged
  rw [hnil] at hmem
  cases hmem

end MotionMaster.DriveRestorer
