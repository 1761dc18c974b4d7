import MotionMaster.DeviceManager.Recording
import MotionMaster.Monitoring.Registrations

/-! Where the plans in force come from: each is what some lookup of its object returned. -/
namespace MotionMaster.Monitoring

open Interleaving DeviceManager

variable {s : State}

variable {a : Action}

theorem dm_next (ha : ∀ d, a ≠ .dm d) : (next s a).dm = s.dm := by
  cases a with
  | dm d => exact absurd rfl (ha d)
  | lock t =>
    simp only [next, State.lock]
    split
    · split <;> rfl
    · rfl
  | remove topic =>
    simp only [next, State.remove]
    split <;> rfl
  | mutex =>
    simp only [next, State.mutexStep]
    split <;> rfl
  | take f topic =>
    simp only [next, State.take]
    split <;> rfl
  | _ => rfl

/-- Under the monitoring manager the device manager runs as it does on its own. -/
theorem dm_reachable {C : State → Action → Prop}
    {D : DeviceManager.State → DeviceManager.Action → Prop}
    (hcd : ∀ s a, C s (.dm a) → D s.dm a) (h : system.ReachableUnder C s) :
    DeviceManager.system.ReachableUnder D s.dm := by
  refine h.invariant (I := fun s => DeviceManager.system.ReachableUnder D s.dm)
    System.reachableUnder_initial ?_
  intro s a hs he hc
  by_cases ha : ∃ d, a = .dm d
  · obtain ⟨d, rfl⟩ := ha
    exact hs.step he (hcd s d hc)
  · have hdm : (system.next s a).dm = s.dm := dm_next fun d h => ha ⟨d, h⟩
    rwa [hdm]

/-- The same of a schedule of its own steps. -/
theorem meets_dm {C : State → Action → Prop}
    {D : DeviceManager.State → DeviceManager.Action → Prop} {ds : List DeviceManager.Action}
    (hdc : ∀ dm d, D dm d → C { s with dm := dm } (.dm d))
    (h : DeviceManager.system.Meets D s.dm ds) : system.Meets C s (ds.map .dm) := by
  induction ds generalizing s with
  | nil => trivial
  | cons d ds ih =>
    exact ⟨hdc s.dm d h.1, ih (s := { s with dm := DeviceManager.next s.dm d }) hdc h.2⟩

theorem setUp_startsAlone : DeviceManager.system.Meets StartsAlone DeviceManager.State.initial
    (bringUp ++ enumerateDrive ++ remap 6 oneSetpoint) := by
  repeat' first | exact trivial | (rintro (_ | t) <;> rfl) | constructor

def locate (image : Option Image) (o : Object) : Option Location :=
  image.bind fun image => image.layout.find o.devicePosition o.index o.subindex

/-- The plan for an object whose lookup returned `spec`. -/
def planFor (o : Object) (spec : Option PdoSampleSpec) : ParamPlan :=
  ⟨o, if spec.isSome then .pdo else .sdo, spec⟩

/-! ### The plans in force -/

def Flight.stamp : Flight → Option ℕ
  | .idle => none
  | .recapturing _ generation _ _ _ _ | .deciding _ generation _ _ _ _ => some generation
  | .taken st | .captured st | .flushed st | .threw st => some st.progress.imageGeneration
  | .measured st _ _ | .sampling st _ _ | .reading st _ _ _ _ _ _ =>
    some st.progress.imageGeneration

def Flight.plans : Flight → List ParamPlan
  | .idle => []
  | .recapturing _ _ done _ _ _ => done
  | .deciding _ _ done plan _ spec => done ++ [plan.resource spec]
  | .taken st | .captured st | .flushed st | .threw st => st.progress.plans
  | .measured st _ _ | .sampling st _ _ | .reading st _ _ _ _ _ _ => st.progress.plans

def Flight.lookup : Flight → Option (Object × Lookup)
  | .recapturing _ _ _ plan _ l => some (plan.object, l)
  | _ => none

/-- Past its lookup an object that is not in the image can only be polled. -/
def Creator.plans : Creator → List ParamPlan
  | .idle => []
  | .classifying _ plans _ _ _ (.lookup _) => plans
  | .classifying _ plans o _ _ .loadDevice | .classifying _ plans o _ _ (.loadCached _) =>
    plans ++ [planFor o none]
  | .unsourced _ plans _ _ _ | .classified _ plans => plans

def Creator.lookup : Creator → Option (Object × Lookup)
  | .classifying _ _ o _ _ (.lookup l) => some (o, l)
  | _ => none

def Mutex.plans : Mutex → List ParamPlan
  | .creating _ acquired todo => acquired ++ todo
  | _ => []

/-- A plan that is taken to be right for the current generation. -/
inductive InUse (s : State) (plan : ParamPlan) : Prop
  | entry (e : Entry) (he : e ∈ s.entries)
      (hs : e.progress.imageGeneration = s.dm.processImageGeneration)
      (hp : plan ∈ e.progress.plans)
  | mutex (hp : plan ∈ s.mutex.plans)
  | creator (t : ℕ) (hp : plan ∈ (s.creators t).plans)
  | flight (f : ℕ) (hs : (s.flights f).stamp = some s.dm.processImageGeneration)
      (hp : plan ∈ (s.flights f).plans)

/-- A lookup under way for the current generation. -/
inductive Looking (s : State) (o : Object) (l : Lookup) : Prop
  | creator (t : ℕ) (h : (s.creators t).lookup = some (o, l))
  | flight (f : ℕ) (hs : (s.flights f).stamp = some s.dm.processImageGeneration)
      (h : (s.flights f).lookup = some (o, l))

def Loads (s : State) (o : Object) (l : Lookup) : Action → Prop
  | .classify t => (s.creators t).lookup = some (o, l)
  | .flush f => (s.flights f).lookup = some (o, l)
  | _ => False

/-- The action ends a lookup of the object, and the plan is for what it returned. -/
def Returns (s : State) (plan : ParamPlan) (a : Action) : Prop :=
  ∃ l spec, Looking s plan.object l ∧ Loads s plan.object l a ∧
    l.step s.dm plan.object = .inr spec ∧ plan = planFor plan.object spec

def Proceeds (s : State) (o : Object) (l : Lookup) (a : Action) : Prop :=
  l = .loadSet ∨ ∃ l', Looking s o l' ∧ Loads s o l' a ∧ l'.step s.dm o = .inl l

/-! ### A create -/

theorem plans_start (config : Config) (plans : List ParamPlan) (todo : List Object) :
    (Creator.start config plans todo).plans = plans := by
  cases todo <;> rfl

variable {o : Object} {l : Lookup}

theorem lookup_start {config : Config} {plans : List ParamPlan} {todo : List Object}
    (h : (Creator.start config plans todo).lookup = some (o, l)) : l = .loadSet := by
  cases todo with
  | nil => cases h
  | cons o' todo =>
    simp only [Creator.start, Creator.lookup, Option.some.injEq, Prod.mk.injEq] at h
    exact h.2.symm

variable {c : Creator} {plan : ParamPlan}

theorem plans_creator_step (dm : DeviceManager.State)
    (h : plan ∈ (c.step dm).plans) : plan ∈ c.plans ∨ ∃ l spec,
      c.lookup = some (plan.object, l) ∧ l.step dm plan.object = .inr spec ∧
      plan = planFor plan.object spec := by
  cases c with
  | classifying config plans o todo retried stage =>
    cases stage with
    | lookup l =>
      cases hl : l.step dm o with
      | inl l' => exact .inl (by simpa [Creator.step, Classify.step, hl, Creator.plans] using h)
      | inr spec =>
        have hp : plan ∈ plans ++ [planFor o spec] := by
          cases spec with
          | none => simpa [Creator.step, Classify.step, hl, Creator.plans] using h
          | some spec =>
            simpa [Creator.step, Classify.step, hl, plans_start, planFor] using h
        rcases List.mem_append.mp hp with hp | hp
        · exact .inl hp
        · obtain rfl := List.mem_singleton.mp hp
          exact .inr ⟨l, spec, rfl, hl, rfl⟩
    | loadDevice => exact .inl h
    | loadCached set =>
      refine .inl ?_
      simp only [Creator.step, Classify.step] at h
      split_ifs at h
      · rwa [plans_start] at h
      · exact List.mem_append_left _ h
  | _ => exact .inl h

theorem lookup_creator_step (dm : DeviceManager.State)
    (h : (c.step dm).lookup = some (o, l)) : c.lookup = some (o, l) ∨ l = .loadSet ∨
      ∃ l', c.lookup = some (o, l') ∧ l'.step dm o = .inl l := by
  cases c with
  | classifying config plans o' todo retried stage =>
    cases stage with
    | lookup l' =>
      cases hl : l'.step dm o' with
      | inl l'' =>
        simp only [Creator.step, Classify.step, hl, Creator.lookup, Option.some.injEq,
          Prod.mk.injEq] at h
        obtain ⟨rfl, rfl⟩ := h
        exact .inr (.inr ⟨l', rfl, hl⟩)
      | inr spec =>
        cases spec with
        | none => simp [Creator.step, Classify.step, hl, Creator.lookup] at h
        | some spec =>
          simp only [Creator.step, Classify.step, hl] at h
          exact .inr (.inl (lookup_start h))
    | loadDevice => cases h
    | loadCached set =>
      simp only [Creator.step, Classify.step] at h
      split_ifs at h
      · exact .inr (.inl (lookup_start h))
      · cases h
  | _ => exact .inl h

/-! ### A flush -/

theorem stamp_recapture (st : FlushState) (generation : ℕ) (done todo : List ParamPlan) :
    (Flight.recapture st generation done todo).stamp = some generation ∧
      (Flight.recapture st generation done todo).plans = done := by
  cases todo <;> exact ⟨rfl, rfl⟩

theorem lookup_recapture {st : FlushState} {generation : ℕ} {done todo : List ParamPlan}
    (h : (Flight.recapture st generation done todo).lookup = some (o, l)) : l = .loadSet := by
  cases todo with
  | nil => cases h
  | cons plan todo =>
    simp only [Flight.recapture, Flight.lookup, Option.some.injEq, Prod.mk.injEq] at h
    exact h.2.symm

theorem stamp_measure (ring : Ring) (st : FlushState) :
    (measure ring st).stamp = some st.progress.imageGeneration ∧
      (measure ring st).plans = st.progress.plans ∧ (measure ring st).lookup = none := by
  unfold measure
  split_ifs <;> exact ⟨rfl, rfl, rfl⟩

theorem stamp_resync (ring : Ring) (st : FlushState) (head : ℕ) :
    (resync ring st head).progress.imageGeneration = st.progress.imageGeneration := by
  unfold resync
  split_ifs <;> rfl

/-- A flush stamps its plans when it has compared the generations, and once. -/
theorem stamp_step (dm : DeviceManager.State) (fl : Flight) :
    (fl.step dm).stamp = match fl with
      | .taken _ => some dm.processImageGeneration
      | .flushed _ => none
      | fl => fl.stamp := by
  cases fl with
  | taken st =>
    simp only [Flight.step]
    split
    · rename_i hg
      exact congrArg some hg.symm
    · exact (stamp_recapture _ _ _ _).1
  | recapturing st generation done plan todo l =>
    simp only [Flight.step]
    split <;> rfl
  | deciding st generation done plan todo spec => exact (stamp_recapture _ _ _ _).1
  | captured st => exact (stamp_measure _ _).1
  | measured st head base => exact congrArg some (stamp_resync _ _ _)
  | reading st head base seq exchanging sdoValues rows =>
    simp only [Flight.step]
    split <;> rfl
  | _ => rfl

variable {fl : Flight}

theorem plans_flight_step (dm : DeviceManager.State)
    (hs : (fl.step dm).stamp = some dm.processImageGeneration) (hp : plan ∈ (fl.step dm).plans) :
    fl.stamp = some dm.processImageGeneration ∧ (plan ∈ fl.plans ∨ ∃ l spec,
      fl.lookup = some (plan.object, l) ∧ l.step dm plan.object = .inr spec ∧
      plan = planFor plan.object spec) := by
  cases fl with
  | idle => cases hp
  | taken st =>
    simp only [Flight.step] at hs hp
    split at hs
    · rename_i hg
      rw [if_pos hg] at hp
      exact ⟨hs, .inl hp⟩
    · rename_i hg
      rw [if_neg hg, (stamp_recapture _ _ _ _).2] at hp
      cases hp
  | recapturing st generation done plan' todo l =>
    simp only [Flight.step] at hs hp
    cases hl : l.step dm plan'.object with
    | inl l' =>
      simp only [hl] at hs hp
      exact ⟨hs, .inl hp⟩
    | inr spec =>
      simp only [hl] at hs hp
      refine ⟨hs, ?_⟩
      rcases List.mem_append.mp hp with hp | hp
      · exact .inl hp
      · obtain rfl := List.mem_singleton.mp hp
        exact .inr ⟨l, spec, rfl, hl, rfl⟩
  | deciding st generation done plan' todo spec =>
    simp only [Flight.step, (stamp_recapture _ _ _ _).1, (stamp_recapture _ _ _ _).2] at hs hp
    exact ⟨hs, .inl hp⟩
  | captured st =>
    simp only [Flight.step, (stamp_measure _ _).1, (stamp_measure _ _).2.1] at hs hp
    exact ⟨hs, .inl hp⟩
  | measured st head base =>
    simp only [Flight.step, Flight.stamp, Flight.plans, stamp_resync,
      (resync_same dm.ring st head).2.2] at hs hp
    exact ⟨hs, .inl hp⟩
  | reading st head base seq exchanging sdoValues rows =>
    simp only [Flight.step] at hs hp
    split at hs
    · rename_i hg
      rw [if_pos hg] at hp
      exact ⟨hs, .inl hp⟩
    · rename_i hg
      rw [if_neg hg] at hp
      exact ⟨hs, .inl hp⟩
  | flushed st => cases hp
  | sampling st head base => exact ⟨hs, .inl hp⟩
  | threw st => exact ⟨hs, .inl hp⟩

theorem lookup_flight_step (dm : DeviceManager.State)
    (h : (fl.step dm).lookup = some (o, l)) : l = .loadSet ∨ ∃ l',
      fl.stamp = (fl.step dm).stamp ∧ fl.lookup = some (o, l') ∧ l'.step dm o = .inl l := by
  cases fl with
  | taken st =>
    simp only [Flight.step] at h
    split at h
    · cases h
    · exact .inl (lookup_recapture h)
  | recapturing st generation done plan todo l' =>
    cases hl : l'.step dm plan.object with
    | inl l'' =>
      simp only [Flight.step, hl, Flight.lookup, Option.some.injEq, Prod.mk.injEq] at h
      obtain ⟨rfl, rfl⟩ := h
      exact .inr ⟨l', by simp [Flight.step, hl, Flight.stamp], rfl, hl⟩
    | inr spec => simp [Flight.step, hl, Flight.lookup] at h
  | deciding st generation done plan todo spec => exact .inl (lookup_recapture h)
  | captured st =>
    simp only [Flight.step, (stamp_measure _ _).2.2] at h
    cases h
  | reading st head base seq exchanging sdoValues rows =>
    simp only [Flight.step] at h
    split at h <;> cases h
  | _ => cases h

theorem stamp_prepare (exchanging : ℕ → Bool) (sdoValues : ℕ → Option DeviceParameterValue)
    (fl : Flight) : (fl.prepare exchanging sdoValues).stamp = fl.stamp ∧
      (fl.prepare exchanging sdoValues).plans = fl.plans ∧
      (fl.prepare exchanging sdoValues).lookup = fl.lookup := by
  cases fl with
  | sampling st head base =>
    simp only [Flight.prepare]
    split <;> exact ⟨rfl, rfl, rfl⟩
  | _ => exact ⟨rfl, rfl, rfl⟩

/-! ### Every action of the monitoring manager -/

variable {t : ℕ}

/-- A creator, a flush, the mutex and the registrations move one at a time. -/
theorem InUse.of_creator
    (h : InUse (s.setCreator t c) plan) : InUse s plan ∨ plan ∈ c.plans := by
  cases h with
  | entry e he hs hp => exact .inl (.entry e he hs hp)
  | mutex hp => exact .inl (.mutex hp)
  | creator u hp =>
    by_cases hu : u = t
    · simp only [State.setCreator, hu, Function.update_self] at hp
      exact .inr hp
    · simp only [State.setCreator, Function.update_of_ne hu] at hp
      exact .inl (.creator u hp)
  | flight f hs hp => exact .inl (.flight f hs hp)

theorem Looking.of_creator
    (h : Looking (s.setCreator t c) o l) : Looking s o l ∨ c.lookup = some (o, l) := by
  cases h with
  | creator u h =>
    by_cases hu : u = t
    · simp only [State.setCreator, hu, Function.update_self] at h
      exact .inr h
    · simp only [State.setCreator, Function.update_of_ne hu] at h
      exact .inl (.creator u h)
  | flight f hs h => exact .inl (.flight f hs h)

variable {f : ℕ}

theorem InUse.of_flight
    (h : InUse (s.setFlight f fl) plan) :
    InUse s plan ∨ fl.stamp = some s.dm.processImageGeneration ∧ plan ∈ fl.plans := by
  cases h with
  | entry e he hs hp => exact .inl (.entry e he hs hp)
  | mutex hp => exact .inl (.mutex hp)
  | creator t hp => exact .inl (.creator t hp)
  | flight g hs hp =>
    by_cases hg : g = f
    · simp only [State.setFlight, hg, Function.update_self] at hs hp
      exact .inr ⟨hs, hp⟩
    · simp only [State.setFlight, Function.update_of_ne hg] at hs hp
      exact .inl (.flight g hs hp)

theorem Looking.of_flight
    (h : Looking (s.setFlight f fl) o l) : Looking s o l ∨
      fl.stamp = some s.dm.processImageGeneration ∧ fl.lookup = some (o, l) := by
  cases h with
  | creator t h => exact .inl (.creator t h)
  | flight g hs h =>
    by_cases hg : g = f
    · simp only [State.setFlight, hg, Function.update_self] at hs h
      exact .inr ⟨hs, h⟩
    · simp only [State.setFlight, Function.update_of_ne hg] at hs h
      exact .inl (.flight g hs h)

theorem inUse_lock (h : InUse (s.lock t) plan) : InUse s plan := by
  unfold State.lock at h
  cases hc : s.creators t with
  | classified config plans =>
    have hidle : InUse (s.setCreator t .idle) plan → InUse s plan := fun h =>
      h.of_creator.resolve_right (List.not_mem_nil)
    simp only [hc] at h
    split at h
    · exact hidle h
    · cases h with
      | entry e he hs hp => exact .entry e he hs hp
      | mutex hp => exact .creator t (by rw [hc]; exact hp)
      | creator u hp => exact hidle (.creator u hp)
      | flight f hs hp => exact .flight f hs hp
  | _ => simpa [hc] using h

theorem looking_lock (h : Looking (s.lock t) o l) :
    Looking s o l := by
  unfold State.lock at h
  cases hc : s.creators t with
  | classified config plans =>
    have hidle : Looking (s.setCreator t .idle) o l → Looking s o l := fun h =>
      h.of_creator.resolve_right (by simp [Creator.lookup])
    simp only [hc] at h
    split at h
    · exact hidle h
    · cases h with
      | creator u h => exact hidle (.creator u h)
      | flight f hs h => exact .flight f hs h
  | _ => simpa [hc] using h

theorem inUse_mutexStep (h : InUse s.mutexStep plan) : InUse s plan := by
  cases hm : s.mutex with
  | free => simpa [State.mutexStep, hm] using h
  | creating config acquired todo =>
    have hmutex : ∀ {p}, p ∈ acquired ++ todo → InUse s p := fun hp =>
      .mutex (by rw [hm]; exact hp)
    cases todo with
    | nil =>
      simp only [State.mutexStep, hm] at h
      cases h with
      | entry e he hs hp =>
        rcases List.mem_append.mp he with he | he
        · exact .entry e he hs hp
        · obtain rfl := List.mem_singleton.mp he
          exact hmutex (List.mem_append_left _ hp)
      | mutex hp => cases hp
      | creator t hp => exact .creator t hp
      | flight f hs hp => exact .flight f hs hp
    | cons plan' todo =>
      simp only [State.mutexStep, hm] at h
      cases h with
      | entry e he hs hp => exact .entry e he hs hp
      | mutex hp => exact hmutex (by simpa [Mutex.plans] using hp)
      | creator t hp => exact .creator t hp
      | flight f hs hp => exact .flight f hs hp
  | removing topic todo =>
    cases todo with
    | nil =>
      simp only [State.mutexStep, hm] at h
      cases h with
      | entry e he hs hp => exact .entry e (List.mem_of_mem_filter he) hs hp
      | mutex hp => cases hp
      | creator t hp => exact .creator t hp
      | flight f hs hp => exact .flight f hs hp
    | cons plan' todo =>
      simp only [State.mutexStep, hm] at h
      cases h with
      | entry e he hs hp => exact .entry e he hs hp
      | mutex hp => cases hp
      | creator t hp => exact .creator t hp
      | flight f hs hp => exact .flight f hs hp

theorem looking_mutexStep (h : Looking s.mutexStep o l) :
    Looking s o l := by
  unfold State.mutexStep at h
  split at h <;> cases h with
    | creator t h => exact .creator t h
    | flight f hs h => exact .flight f hs h

variable {topic : String}

theorem inUse_remove (h : InUse (s.remove topic) plan) :
    InUse s plan := by
  unfold State.remove at h
  split at h
  · exact h
  · cases h with
    | entry e he hs hp => exact .entry e he hs hp
    | mutex hp => cases hp
    | creator t hp => exact .creator t hp
    | flight f hs hp => exact .flight f hs hp

theorem looking_remove
    (h : Looking (s.remove topic) o l) : Looking s o l := by
  unfold State.remove at h
  split at h
  · exact h
  · cases h with
    | creator t h => exact .creator t h
    | flight f hs h => exact .flight f hs h

theorem inUse_take (h : InUse (s.take f topic) plan) :
    InUse s plan := by
  unfold State.take at h
  cases hfe : s.findEntry topic with
  | none => simpa [hfe] using h
  | some e =>
    simp only [hfe] at h
    rcases h.of_flight with h | ⟨hs, hp⟩
    · exact h
    · exact .entry e (findEntry_eq_some hfe).1 (Option.some.inj hs) hp

theorem looking_take
    (h : Looking (s.take f topic) o l) : Looking s o l := by
  unfold State.take at h
  split at h
  · exact h
  · exact h.of_flight.resolve_right fun h => by cases h.2

/-- A commit writes back what the flush has, under the stamp it has it from. -/
theorem inUse_flush (h : InUse (s.flush f) plan) :
    InUse s plan ∨ (s.flights f).stamp = some s.dm.processImageGeneration ∧ ∃ l spec,
      (s.flights f).lookup = some (plan.object, l) ∧ l.step s.dm plan.object = .inr spec ∧
      plan = planFor plan.object spec := by
  cases h with
  | entry e' he' hs hp =>
    cases hfl : s.flights f with
    | flushed st =>
      rw [entries_commit hfl] at he'
      obtain ⟨e, he, rfl⟩ := List.mem_map.mp he'
      unfold commitEntry at hs hp
      split at hs
      · rename_i hm
        rw [if_pos hm] at hp
        exact .inl (.flight f (by rw [hfl]; exact congrArg some hs) (by rw [hfl]; exact hp))
      · rename_i hm
        rw [if_neg hm] at hp
        exact .inl (.entry e he hs hp)
    | _ =>
      have he : e' ∈ s.entries := by simpa [State.flush, hfl, Flight.commit] using he'
      exact .inl (.entry e' he hs hp)
  | mutex hp => exact .inl (.mutex hp)
  | creator t hp => exact .inl (.creator t hp)
  | flight g hs hp =>
    have h : InUse (s.setFlight f ((s.flights f).step s.dm)) plan := .flight g hs hp
    rcases h.of_flight with h | ⟨hs, hp⟩
    · exact .inl h
    · obtain ⟨hs, hp | hret⟩ := plans_flight_step s.dm hs hp
      · exact .inl (.flight f hs hp)
      · exact .inr ⟨hs, hret⟩

theorem looking_flush (h : Looking (s.flush f) o l) :
    Looking s o l ∨ l = .loadSet ∨ (s.flights f).stamp = some s.dm.processImageGeneration ∧
      ∃ l', (s.flights f).lookup = some (o, l') ∧ l'.step s.dm o = .inl l := by
  have h : Looking (s.setFlight f ((s.flights f).step s.dm)) o l := by
    cases h with
    | creator t h => exact .creator t h
    | flight g hs h => exact .flight g hs h
  rcases h.of_flight with h | ⟨hs, h⟩
  · exact .inl h
  · rcases lookup_flight_step s.dm h with h | ⟨l', hs', hl, hstep⟩
    · exact .inr (.inl h)
    · exact .inr (.inr ⟨hs'.trans hs, l', hl, hstep⟩)

/-- A plan comes into use only as what a lookup of its object returned. -/
theorem inUse_step (ha : ∀ d, a ≠ .dm d)
    (h : InUse (next s a) plan) : InUse s plan ∨ Returns s plan a := by
  cases a with
  | dm d => exact absurd rfl (ha d)
  | create t config =>
    refine h.of_creator.imp_right fun hp => ?_
    rw [plans_start] at hp
    cases hp
  | classify t =>
    rcases h.of_creator with h | hp
    · exact .inl h
    · rcases plans_creator_step s.dm hp with hp | ⟨l, spec, hl, hstep, hplan⟩
      · exact .inl (.creator t hp)
      · exact .inr ⟨l, spec, .creator t hl, hl, hstep, hplan⟩
  | enumerated t =>
    rcases h.of_creator with h | hp
    · exact .inl h
    · refine .inl (.creator t ?_)
      cases hc : s.creators t <;> rw [hc] at hp <;> exact hp
  | refuse t => exact .inl (h.of_creator.resolve_right List.not_mem_nil)
  | lock t => exact .inl (inUse_lock h)
  | remove topic => exact .inl (inUse_remove h)
  | mutex => exact .inl (inUse_mutexStep h)
  | take f topic => exact .inl (inUse_take h)
  | flush f =>
    refine (inUse_flush h).imp_right fun ⟨hs, l, spec, hl, hstep, hplan⟩ => ?_
    exact ⟨l, spec, .flight f hs hl, hl, hstep, hplan⟩
  | prepare f exchanging sdoValues =>
    rcases h.of_flight with h | ⟨hs, hp⟩
    · exact .inl h
    · obtain ⟨h1, h2, -⟩ := stamp_prepare exchanging sdoValues (s.flights f)
      exact .inl (.flight f (h1 ▸ hs) (h2 ▸ hp))
  | keepFresh o | stopKeepingFresh o =>
    cases h with
    | entry e he hs hp => exact .inl (.entry e he hs hp)
    | mutex hp => exact .inl (.mutex hp)
    | creator t hp => exact .inl (.creator t hp)
    | flight f hs hp => exact .inl (.flight f hs hp)

theorem looking_step (ha : ∀ d, a ≠ .dm d)
    (h : Looking (next s a) o l) : Looking s o l ∨ Proceeds s o l a := by
  cases a with
  | dm d => exact absurd rfl (ha d)
  | create t config => exact h.of_creator.imp_right fun h => .inl (lookup_start h)
  | classify t =>
    rcases h.of_creator with h | h
    · exact .inl h
    · rcases lookup_creator_step s.dm h with h | h | ⟨l', hl, hstep⟩
      · exact .inl (.creator t h)
      · exact .inr (.inl h)
      · exact .inr (.inr ⟨l', .creator t hl, hl, hstep⟩)
  | enumerated t =>
    rcases h.of_creator with h | h
    · exact .inl h
    · cases hc : s.creators t with
      | unsourced config plans o' todo retried =>
        rw [hc] at h
        simp only [Creator.retry, Creator.lookup, Option.some.injEq, Prod.mk.injEq] at h
        exact .inr (.inl h.2.symm)
      | _ =>
        rw [hc] at h
        exact .inl (.creator t (by rw [hc]; exact h))
  | refuse t => exact .inl (h.of_creator.resolve_right (by simp [Creator.lookup]))
  | lock t => exact .inl (looking_lock h)
  | remove topic => exact .inl (looking_remove h)
  | mutex => exact .inl (looking_mutexStep h)
  | take f topic => exact .inl (looking_take h)
  | flush f =>
    refine (looking_flush h).imp_right fun h => ?_
    rcases h with h | ⟨hs, l', hl, hstep⟩
    · exact .inl h
    · exact .inr ⟨l', .flight f hs hl, hl, hstep⟩
  | prepare f exchanging sdoValues =>
    rcases h.of_flight with h | ⟨hs, hl⟩
    · exact .inl h
    · obtain ⟨h1, -, h3⟩ := stamp_prepare exchanging sdoValues (s.flights f)
      exact .inl (.flight f (h1 ▸ hs) (h3 ▸ hl))
  | keepFresh o | stopKeepingFresh o =>
    cases h with
    | creator t h => exact .inl (.creator t h)
    | flight f hs h => exact .inl (.flight f hs h)

end MotionMaster.Monitoring
