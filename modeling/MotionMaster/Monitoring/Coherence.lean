import MotionMaster.Monitoring.Flush

/-! Source coherence: which image the plans describe once a flush has been over them. -/
namespace MotionMaster.Monitoring

open Interleaving DeviceManager

/-- The object's place in an image and the type its device declares, when it has both. -/
def specIn (dm : DeviceManager.State) (image : Option Image) (o : Object) :
    Option PdoSampleSpec :=
  (locate image o).bind fun loc =>
    if o.devicePosition ∈ dm.currentSet.devices then
      (dataTypeOf dm dm.currentSet o).map fun dataType =>
        ⟨loc.isOutput, loc.bitOffset, loc.bitLength, dataType⟩
    else none

/-- The plan samples its object the way the published image has it. -/
def Sourced (dm : DeviceManager.State) (plan : ParamPlan) : Prop :=
  (plan.source = .pdo ↔ (specIn dm dm.image plan.object).isSome) ∧
    (plan.source = .pdo → plan.pdoSpec = specIn dm dm.image plan.object)

/-- At rest one more flush of a registered monitoring runs to its end and leaves every plan of it
sourced as the published image has it. -/
def CoherentAtRest (s : State) : Prop :=
  AtRest s → ∀ f topic, (s.findEntry topic).isSome → (∃ t, Flushes s f topic t) ∧
    ∀ t, Flushes s f topic t → ∀ e ∈ t.entries, e.config.topic = topic →
      ∀ plan ∈ e.progress.plans, Sourced t.dm plan

/-- An operation other than a re-map comes while nothing is in use, a re-map ends while nothing
is being created, and an enumeration keeps the types of what is in use. -/
def KeepsPlans (s : State) : DeviceManager.Action → Prop
  | .bus (.pause op) => op = .remap ∨ Unused s
  | .bus (.handSet _ _ _) => Unused s
  | .bus (.remapBump _) => NoCreate s
  | .pauser _ (.swap device _ _ parameters) => ∀ plan, InUse s plan →
    device = ⟨s.dm.currentSet.address, plan.object.devicePosition⟩ →
    parameters plan.object.index plan.object.subindex =
      s.dm.parameters device plan.object.index plan.object.subindex
  | _ => True

/-- The image is looked at only while no enumeration has it. -/
def LooksAtRest (s : State) (a : Action) : Prop :=
  ∀ o set, Loads s o (.loadImage set) a → ∀ t, (s.dm.pausers t).previous = none

def Undisturbed (s : State) : Action → Prop
  | .dm d => Orderly s.dm d ∧ KeepsPlans s d
  | a => LooksAtRest s a

variable {s : State}

/-! ### A steady image -/

def Steady (dm : DeviceManager.State) : Prop := dm.bus = .idle ∨ dm.lastMapped = none

def Coherent (dm : DeviceManager.State) (plan : ParamPlan) : Prop :=
  plan = planFor plan.object (specIn dm dm.lastMapped plan.object)

def Seen (dm : DeviceManager.State) (o : Object) : Lookup → Prop
  | .loadSet => True
  | .loadImage set => set = dm.currentSet
  | .loadType set loc => set = dm.currentSet ∧ locate dm.lastMapped o = some loc ∧
    o.devicePosition ∈ set.devices

variable {dm : DeviceManager.State}

/-- While nobody has the image and none is being replaced, it is where it belongs. -/
theorem image_eq_lastMapped (hl : Loaned dm) (hs : Steady dm)
    (hp : ∀ t, (dm.pausers t).previous = none) : dm.image = dm.lastMapped := by
  by_cases hb : dm.bus.Pausing
  · have hn : dm.lastMapped = none := by
      rcases hs with hs | hs
      · simp [hs, Bus.Pausing] at hb
      · exact hs
    rw [hn]
    exact (hl.paused hb).value_eq hp
  · exact (hl.running hb).value_eq hp

variable {o : Object} {l : Lookup}

theorem seen_lookup {l' : Lookup} (h : Seen dm o l)
    (hi : ∀ set, l = .loadImage set → dm.image = dm.lastMapped) (hstep : l.step dm o = .inl l') :
    Seen dm o l' := by
  cases l with
  | loadSet =>
    cases hstep
    rfl
  | loadImage set =>
    have hset : set = dm.currentSet := h
    simp only [Lookup.step, hi set rfl] at hstep
    split at hstep
    · cases hstep
    · rename_i loc hloc
      split at hstep
      · rename_i hmem
        cases hstep
        exact ⟨hset, hloc, hmem⟩
      · cases hstep
  | loadType set loc => cases hstep

theorem coherent_lookup
    {spec : Option PdoSampleSpec} (h : Seen dm o l)
    (hi : ∀ set, l = .loadImage set → dm.image = dm.lastMapped)
    (hstep : l.step dm o = .inr spec) : Coherent dm (planFor o spec) := by
  have hspec : spec = specIn dm dm.lastMapped o := by
    cases l with
    | loadSet => cases hstep
    | loadImage set =>
      obtain rfl : set = dm.currentSet := h
      simp only [Lookup.step, hi _ rfl] at hstep
      split at hstep
      · rename_i hloc
        cases hstep
        have hloc : locate dm.lastMapped o = none := hloc
        simp [specIn, hloc]
      · split at hstep
        · cases hstep
        · rename_i hmem
          cases hstep
          simp [specIn, hmem]
    | loadType set loc =>
      obtain ⟨rfl, hloc, hmem⟩ := h
      cases hstep
      simp [specIn, hloc, hmem]
  rw [Coherent, hspec]
  rfl

/-! ### Steps of the device manager -/

theorem Coherent.congr {dm' : DeviceManager.State} {plan : ParamPlan} (h : Coherent dm plan)
    (hs : dm'.currentSet = dm.currentSet) (hl : dm'.lastMapped = dm.lastMapped)
    (hd : dataTypeOf dm' dm.currentSet plan.object = dataTypeOf dm dm.currentSet plan.object) :
    Coherent dm' plan := by
  rw [Coherent, specIn, hs, hl, hd]
  exact h

theorem Seen.congr {dm' : DeviceManager.State} (h : Seen dm o l)
    (hs : dm'.currentSet = dm.currentSet) (hl : dm'.lastMapped = dm.lastMapped) :
    Seen dm' o l := by
  cases l with
  | loadSet => trivial
  | loadImage set =>
    rw [Seen, hs]
    exact h
  | loadType set loc =>
    rw [Seen, hs, hl]
    exact h

theorem keep_of_same {d : DeviceManager.Action}
    (hsteady : Steady (DeviceManager.next s.dm d) → Steady s.dm)
    (hs : (DeviceManager.next s.dm d).currentSet = s.dm.currentSet)
    (hl : (DeviceManager.next s.dm d).lastMapped = s.dm.lastMapped)
    (hd : ∀ plan, InUse s plan →
      dataTypeOf (DeviceManager.next s.dm d) s.dm.currentSet plan.object =
        dataTypeOf s.dm s.dm.currentSet plan.object)
    (hst : Steady (DeviceManager.next s.dm d)) :
    Keeps Steady Coherent Seen s (DeviceManager.next s.dm d) :=
  ⟨hsteady hst, fun plan hp h => h.congr hs hl (hd plan hp), fun _ _ _ h => h.congr hs hl⟩

/-- An image stops being steady when a re-map is about to replace it. -/
theorem steady_bus {a : BusAction} (hm : Mapped dm)
    (he : a.Enabled dm) (ho : Orderly dm (.bus a)) (hne : ∀ image, a ≠ .remapBump image)
    (h : Steady (a.next dm)) : Steady dm := by
  have hop := hm.admitted
  have hh := hm.handed
  cases a <;> simp only [BusAction.Enabled] at he
  case initFail | pause => exact .inl he.1
  case remapBump image => exact absurd rfl (hne image)
  case handSet op ok set =>
    simp only [he, Bus.op, Bus.handover, Option.some.injEq, forall_eq'] at hop hh
    exact .inr (hop.2.resolve_left (hh op set rfl))
  case remapRefuse | remapFail => exact .inr ho
  case scanRefuse | scanFail | teardownDone =>
    simp only [he, Bus.op, Option.some.injEq, forall_eq'] at hop
    exact .inr (hop.2.resolve_left (by simp))
  case remapStore image => simp [Steady, BusAction.next] at h
  all_goals exact .inr (by simpa [Steady, BusAction.next] using h)

theorem keep_bus {a : BusAction} (hm : Mapped s.dm) (he : a.Enabled s.dm)
    (ho : Orderly s.dm (.bus a)) (hk : KeepsPlans s (.bus a))
    (hne : ∀ image, a ≠ .remapBump image) (hst : Steady (a.next s.dm)) :
    Keeps Steady Coherent Seen s (a.next s.dm) := by
  have hsteady := steady_bus hm he ho hne hst
  have hsame : (a.next s.dm).currentSet = s.dm.currentSet →
      (a.next s.dm).lastMapped = s.dm.lastMapped →
      Keeps Steady Coherent Seen s (a.next s.dm) := fun hs hl =>
    keep_of_same (d := .bus a) (fun _ => hsteady) hs hl
      (fun plan _ => by simp [dataTypeOf, DeviceManager.next]) hst
  cases a with
  | pause op =>
    rcases hk with rfl | hu
    · exact hsame rfl rfl
    · exact .of_unused hsteady hu
  | handSet op ok set => exact .of_unused hsteady hk
  | remapStore image => simp [Steady, BusAction.next] at hst
  | remapBump image => exact absurd rfl (hne image)
  | _ => exact hsame rfl rfl

theorem keep_pauser {t : ℕ} {a : PauserAction} (hk : KeepsPlans s (.pauser t a))
    (hst : Steady (a.next s.dm t)) : Keeps Steady Coherent Seen s (a.next s.dm t) := by
  refine keep_of_same (d := .pauser t a) (by simp [Steady, DeviceManager.next])
    (pauser_currentSet s.dm t a) (pauser_lastMapped s.dm t a) (fun plan hp => ?_) hst
  cases a with
  | swap device previous drained parameters =>
    simp only [dataTypeOf, DeviceManager.next, PauserAction.next]
    by_cases hd : ⟨s.dm.currentSet.address, plan.object.devicePosition⟩ = device
    · rw [hd, Function.update_self]
      exact hk plan hp hd.symm
    · rw [Function.update_of_ne hd]
  | _ => rfl

theorem keep_rt {a : RtAction} (hst : Steady (a.next s.dm)) :
    Keeps Steady Coherent Seen s (a.next s.dm) :=
  keep_of_same (d := .rt a) (by simp [Steady, DeviceManager.next]) (rt_currentSet s.dm a)
    (rt_lastMapped s.dm a) (fun plan _ => by simp [dataTypeOf, DeviceManager.next]) hst

theorem tracks_step {a : Action} (hm : Mapped s.dm) (hl : Loaned s.dm)
    (h : Tracks Steady Coherent Seen s) (he : Enabled s a) (hc : Undisturbed s a) :
    Tracks Steady Coherent Seen (next s a) := by
  by_cases ha : ∃ d, a = .dm d
  · obtain ⟨d, rfl⟩ := ha
    obtain ⟨ho, hk⟩ := hc
    refine h.dm ?_ fun hne hst => ?_
    · rintro image rfl
      exact hk
    · cases d with
      | rt a => exact keep_rt hst
      | pauser t a => exact keep_pauser hk hst
      | bus a => exact keep_bus hm he ho hk (fun image h => hne image (by rw [h])) hst
  · have hd : ∀ d, a ≠ .dm d := fun d h => ha ⟨d, h⟩
    have hlook : LooksAtRest s a := by
      cases a with
      | dm d => exact absurd rfl (hd d)
      | _ => exact hc
    have himage : ∀ {o l}, Steady s.dm → Loads s o l a → ∀ set, l = .loadImage set →
        s.dm.image = s.dm.lastMapped := by
      rintro o l hs hload set rfl
      exact image_eq_lastMapped hl hs (hlook o set hload)
    exact h.step hd (fun _ => trivial)
      (fun o l l' hs hseen hload hstep => seen_lookup hseen (himage hs hload) hstep)
      (fun o l spec hs hseen hload hstep => coherent_lookup hseen (himage hs hload) hstep)

theorem loaned_of_undisturbed (h : system.ReachableUnder Undisturbed s) :
    Mapped s.dm ∧ Loaned s.dm :=
  loaned_reachable (dm_reachable (fun _ _ hc => hc.1) h)

theorem tracks_reachable (h : system.ReachableUnder Undisturbed s) :
    Tracks Steady Coherent Seen s :=
  h.induct tracks_initial fun _ _ hr ht he hc =>
    tracks_step (loaned_of_undisturbed hr).1 (loaned_of_undisturbed hr).2 ht he hc

/-! ### A flush at rest -/

theorem sourced_of_coherent {plan : ParamPlan}
    (hi : dm.image = dm.lastMapped) (h : Coherent dm plan) : Sourced dm plan := by
  rw [Coherent] at h
  rw [Sourced, hi]
  generalize specIn dm dm.lastMapped plan.object = spec at h ⊢
  rw [h, planFor]
  cases spec <;> simp

/-- With nothing in flight on the control plane a flush looks at a resting image. -/
theorem undisturbed_of_flushes {f : ℕ} {steps : List Action}
    (hof : ∀ a ∈ steps, OfFlush f a) (hq : Quiescent s.dm)
    (hfo : system.Follows (fun _ _ => True) s steps) : system.Follows Undisturbed s steps := by
  induction steps generalizing s with
  | nil => trivial
  | cons a steps ih =>
    obtain ⟨⟨he, -⟩, hfo⟩ := hfo
    have hlook : LooksAtRest s a := fun _ _ _ t => by rw [hq.1 t]; rfl
    have ha := hof a List.mem_cons_self
    cases a with
    | flush g => exact ⟨⟨he, hlook⟩, ih (fun b hb => hof b (List.mem_cons_of_mem _ hb)) hq hfo⟩
    | prepare g exchanging sdoValues =>
      exact ⟨⟨he, hlook⟩, ih (fun b hb => hof b (List.mem_cons_of_mem _ hb)) hq hfo⟩
    | _ => exact ha.elim

theorem reachable_of_flushes {f : ℕ} {topic : String} {t : State}
    (h : system.ReachableUnder Undisturbed s) (hq : Quiescent s.dm) (hf : Flushes s f topic t) :
    system.ReachableUnder Undisturbed t := by
  obtain ⟨steps, hof, ⟨⟨he, -⟩, hfo⟩, rfl, -⟩ := hf
  have hdm : (next s (.take f topic)).dm = s.dm := dm_next (by simp)
  have htake : system.Follows Undisturbed s (.take f topic :: steps) :=
    ⟨⟨he, fun _ _ hload => hload.elim⟩,
      undisturbed_of_flushes (s := next s (.take f topic)) hof (by rwa [hdm]) hfo⟩
  exact h.append htake

/-- A flush over a monitoring at rest leaves it sourced as the image is. -/
theorem coherentAtRest_of_undisturbed (h : system.ReachableUnder Undisturbed s) :
    CoherentAtRest s := by
  intro hr f topic htopic
  refine ⟨flushes_of_atRest hr f htopic, fun t hf e he ht plan hp => ?_⟩
  obtain ⟨hdm, hstamp⟩ := stamped_of_flushes (wellFormed_reachable h) hf
  have ht' := reachable_of_flushes h hr.dm hf
  have hq : Quiescent t.dm := hdm ▸ hr.dm
  have hi : t.dm.image = t.dm.lastMapped :=
    image_eq_lastMapped (loaned_of_undisturbed ht').2 (.inl hq.2) fun u => by rw [hq.1 u]; rfl
  refine sourced_of_coherent hi ?_
  exact (tracks_reachable ht').plans (.inl hq.2) plan
    (.entry e he (by rw [hstamp e he ht, hdm]) hp)

/-! ### Schedules -/

theorem Bare.keepsPlans (h : Bare s) (d : DeviceManager.Action) : KeepsPlans s d := by
  unfold KeepsPlans
  split
  · exact .inr h.unused
  · exact h.unused
  · exact h.noCreate
  · exact fun plan hp => absurd hp (h.unused.1 plan)
  · trivial

/-- Before anything is monitored only the device manager's own order matters. -/
theorem setUp_undisturbed : system.Meets Undisturbed State.initial setUp := by
  refine meets_dm (D := Orderly) (fun dm d hd => ⟨hd, Bare.keepsPlans ?_ d⟩) ?_
  · exact ⟨rfl, rfl, fun _ => rfl, fun _ => rfl⟩
  · repeat' first | exact trivial | exact fun _ => rfl | (rintro (_ | t) <;> rfl) | constructor

/-- A monitoring is created and its object then moved by a re-map. -/
def createThenRemap : List Action :=
  setUp ++ createPosition ++ (remap 8 movedSetpoint).map .dm

theorem atRest_createThenRemap : AtRest (system.run State.initial createThenRemap) := by
  refine ⟨⟨?_, rfl⟩, rfl, ?_, ?_⟩ <;> rintro (_ | t) <;> rfl

theorem createThenRemap_follows :
    system.Follows Undisturbed State.initial createThenRemap := by
  refine System.follows_iff.mpr ⟨by decide +kernel, ?_⟩
  rw [createThenRemap, System.meets_append, System.meets_append]
  refine ⟨⟨setUp_undisturbed, ?_⟩, ?_⟩
  · repeat' first
      | exact trivial
      | exact fun _ _ h => h.elim
      | (rintro _ _ _ (_ | t) <;> rfl)
      | constructor
  · repeat' first
      | exact trivial
      | exact .inl rfl
      | (rintro (_ | t) <;> rfl)
      | rfl
      | constructor

/-- A registered monitoring whose object a re-map has moved is sampled where it is now. -/
theorem createThenRemap_coherent :
    AtRest (system.run State.initial createThenRemap) ∧
      ((system.run State.initial createThenRemap).findEntry "position").isSome ∧
      CoherentAtRest (system.run State.initial createThenRemap) :=
  ⟨atRest_createThenRemap, rfl, coherentAtRest_of_undisturbed ⟨_, createThenRemap_follows, rfl⟩⟩

/-- A create looks at the image while an enumeration has it: its object is polled from then on. -/
def createInsidePause : List Action :=
  setUp ++ [.dm (.pauser 0 (.pause ⟨4, 1⟩)), .create 0 position, .classify 0, .classify 0,
    .classify 0, .classify 0, .lock 0, .mutex, .mutex] ++
  [.pauser 0 (.waitOver ⟨4, 1⟩ (some ⟨6, oneSetpoint⟩)),
    .pauser 0 (.check ⟨4, 1⟩ (some ⟨6, oneSetpoint⟩)),
    .pauser 0 (.swap ⟨4, 1⟩ (some ⟨6, oneSetpoint⟩) true targetPositionType),
    .pauser 0 (.resume ⟨4, 1⟩ (some ⟨6, oneSetpoint⟩) true)].map .dm

theorem atRest_createInsidePause : AtRest (system.run State.initial createInsidePause) := by
  refine ⟨⟨?_, rfl⟩, rfl, ?_, ?_⟩ <;> rintro (_ | t) <;> rfl

theorem createInsidePause_not_coherentAtRest :
    system.Reachable (system.run State.initial createInsidePause) ∧
      ¬ CoherentAtRest (system.run State.initial createInsidePause) := by
  refine ⟨⟨createInsidePause, by decide +kernel, rfl⟩, fun h => ?_⟩
  have hf : Flushes (system.run State.initial createInsidePause) 0 "position" _ :=
    ⟨[.flush 0, .flush 0, .flush 0], by simp [OfFlush], by decide +kernel, rfl, rfl⟩
  have := (h atRest_createInsidePause 0 "position" rfl).2 _ hf _ List.mem_cons_self rfl _
    List.mem_cons_self
  exact absurd (this.1.mpr rfl) (by decide)

end MotionMaster.Monitoring
