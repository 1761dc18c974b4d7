import MotionMaster.DeviceManager.Publication

/-! The driver behind the published set: whether an exchange that found an image finds one. -/
namespace MotionMaster.DeviceManager

open Interleaving

variable {s : State}

/-- No thread runs `publishParameters`. -/
def Unpaused (_ : State) : Action → Prop
  | .pauser _ _ => False
  | _ => True

theorem pausers_idle (h : system.ReachableUnder Unpaused s) : ∀ t, s.pausers t = .idle := by
  refine h.invariant (I := fun s => ∀ t, s.pausers t = .idle) (fun _ => rfl) ?_
  intro s a hs _ hc
  cases a with
  | rt a => simpa [system, next] using hs
  | pauser t a => exact hc.elim
  | bus a => simpa [system, next] using hs

theorem gate_of_unpaused (h : system.ReachableUnder Unpaused s) : Gate s := by
  refine gate_reachable (h.imp fun s a hs hc => ?_)
  cases a with
  | rt a => trivial
  | pauser t a => exact hc.elim
  | bus a =>
    cases a with
    | remapStore image =>
      intro u
      rw [pausers_idle hs u]
      exact id
    | _ => trivial

/-! ### The real-time view of the device set -/

/-- The set `publishDeviceSet` was last called with, from its first store on. -/
def State.newest (s : State) : DeviceSet :=
  match s.bus with
  | .handing _ _ set => set
  | _ => s.currentSet

def Driven : Option DeviceSet → Prop
  | none => False
  | some set => set.driver ≠ none

/-- `publishedSet_` names the newest set. It is null only before the first one. -/
structure View (s : State) : Prop where
  published : s.publishedSet = some s.newest ∨ s.publishedSet = none ∧ s.newest.driver = none
  handed : ∀ op set, s.bus.handover = some (op, set) → op ≠ .reset → set.driver ≠ none

theorem View.driven (hv : View s) (h : s.newest.driver ≠ none) : Driven s.publishedSet := by
  obtain hp | ⟨-, hn⟩ := hv.published
  · rw [hp]
    exact h
  · exact absurd hn h

theorem view_initial : View State.initial := ⟨.inr ⟨rfl, rfl⟩, nofun⟩

theorem view_bus {a : BusAction} (hm : Mapped s) (hv : View s) (he : a.Enabled s) :
    View (a.next s) := by
  have hop := hm.admitted
  obtain ⟨hp, hh⟩ := hv
  constructor
  · cases a <;> simp only [BusAction.Enabled] at he <;>
      simp_all [BusAction.next, State.newest]
  · cases a <;> simp only [BusAction.Enabled] at he <;>
      simp_all [BusAction.next, Op.Admitted]

theorem view_step {a : Action} (h : Mapped s ∧ View s) (he : Enabled s a) :
    Mapped (next s a) ∧ View (next s a) := by
  refine ⟨mapped_step h.1 he, ?_⟩
  cases a with
  | rt a =>
    exact ⟨by simpa [next, State.newest] using h.2.published, by simpa [next] using h.2.handed⟩
  | pauser t a =>
    exact ⟨by simpa [next, State.newest] using h.2.published, by simpa [next] using h.2.handed⟩
  | bus a => exact view_bus h.1 h.2 he

theorem view_reachable {C : State → Action → Prop} (h : system.ReachableUnder C s) :
    Mapped s ∧ View s :=
  h.invariant ⟨mapped_initial, view_initial⟩ fun _ _ h he _ => view_step h he

/-! ### What an exchange loads -/

/-- An exchange that has loaded an image, and then the set, got a set with a driver. -/
def DriverLive (s : State) : Prop :=
  ∀ g image set, s.rt = .exchange g (.exchanging image set) → Driven set

/-- No enumeration runs, and `reset` publishes its driverless set while no exchange stands between
its two loads. -/
def SparesLoads (s : State) : Action → Prop
  | .pauser _ _ => False
  | .bus (.storeSet .reset _ _) => ∀ g image, s.rt ≠ .exchange g (.composing image)
  | _ => True

structure Loads (s : State) : Prop where
  mapped : s.image ≠ none → s.currentSet.driver ≠ none
  composing : ∀ g image, s.rt = .exchange g (.composing image) → Driven s.publishedSet
  exchanging : DriverLive s

theorem loads_initial : Loads State.initial := ⟨nofun, nofun, nofun⟩

theorem newest_of_not_pausing (h : ¬ s.bus.Pausing) : s.newest = s.currentSet := by
  cases hb : s.bus <;> simp_all [State.newest, Bus.Pausing]

/-- An image can be loaded only while a driven set is published. -/
theorem driven_of_image (hg : Gate s) (hv : View s) (hl : Loads s) (hi : s.image ≠ none) :
    Driven s.publishedSet := by
  have hb : ¬ s.bus.Pausing := fun h => hi (hg.unpublished (.inr h))
  refine hv.driven ?_
  rw [newest_of_not_pausing hb]
  exact hl.mapped hi

theorem Rt.caller_ne_exchange (g g' : Bool) (stage : Exchange) :
    Rt.caller g ≠ .exchange g' stage := by
  cases g <;> simp [Rt.caller]

variable {a : RtAction}

/-- An exchange gets to its second load only by loading an image. -/
theorem composing_rt {g : Bool} {image : Image} (he : a.Enabled s)
    (h : (a.next s).rt = .exchange g (.composing image)) : s.image ≠ none := by
  intro hi
  cases a <;> simp only [RtAction.Enabled] at he <;>
    simp_all [RtAction.next, Exchange.load, Rt.caller_ne_exchange]

theorem exchanging_rt {g : Bool} {image : Image} {set : Option DeviceSet}
    (he : a.Enabled s) (h : (a.next s).rt = .exchange g (.exchanging image set)) :
    s.rt = .exchange g (.composing image) ∧ s.publishedSet = set := by
  cases a <;> simp only [RtAction.Enabled] at he <;>
    simp_all [RtAction.next, Rt.caller_ne_exchange]
  case guardLoad => split at h <;> cases h
  case exchangeLoad => cases hi : s.image <;> simp [hi, Exchange.load] at h

theorem loads_rt (hg : Gate s) (hv : View s) (hl : Loads s) (he : a.Enabled s) :
    Loads (a.next s) := by
  refine ⟨by simpa using hl.mapped, ?_, ?_⟩
  · intro g image h
    rw [rt_publishedSet]
    exact driven_of_image hg hv hl (composing_rt he h)
  · intro g image set h
    obtain ⟨hr, rfl⟩ := exchanging_rt he h
    exact hl.composing g image hr

theorem loads_bus {a : BusAction} (hm : Mapped s) (hg : Gate s) (hv : View s) (hl : Loads s)
    (he : a.Enabled s) (hc : SparesLoads s (.bus a)) : Loads (a.next s) := by
  have hi : s.bus.Pausing → s.image = none := fun h => hg.unpublished (.inr h)
  refine ⟨?_, ?_, by simpa [DriverLive] using hl.exchanging⟩
  · cases a with
    | remapStore image =>
      intro _
      exact (hm.admitted .remap (by rw [show s.bus = _ from he]; rfl)).1.1
    | handSet op ok set =>
      intro h
      exact absurd (hi (by rw [show s.bus = _ from he]; trivial)) h
    | pause op => exact fun h => absurd rfl h
    | _ => exact hl.mapped
  · intro g image h
    cases a with
    | storeSet op ok set =>
      refine hv.handed op set (by rw [show s.bus = _ from he]; rfl) ?_
      rintro rfl
      exact hc g image h
    | _ => exact hl.composing g image h

theorem unpaused_of_sparesLoads (h : system.ReachableUnder SparesLoads s) :
    system.ReachableUnder Unpaused s := by
  refine h.mono fun s a hc => ?_
  cases a with
  | pauser t a => exact hc
  | _ => trivial

theorem loads_reachable (h : system.ReachableUnder SparesLoads s) : Loads s := by
  refine h.induct loads_initial fun s a hr hl he hc => ?_
  have hg := gate_of_unpaused (unpaused_of_sparesLoads hr)
  obtain ⟨hm, hv⟩ := view_reachable hr
  cases a with
  | rt a => exact loads_rt hg hv hl he
  | pauser t a => exact hc.elim
  | bus a => exact loads_bus hm hg hv hl he hc

/-- A non-null image means a live set with a live driver. -/
theorem driverLive_of_sparesLoads (h : system.ReachableUnder SparesLoads s) : DriverLive s :=
  (loads_reachable h).exchanging

/-- An exchange loads its image and its set with no operation in between. -/
def plainExchange : List Action :=
  bringUp ++ remap 6 oneSetpoint ++
  [.rt (.exchangeRaise false), .rt (.exchangeLoad false), .rt (.loadSet false ⟨6, oneSetpoint⟩)]

theorem plainExchange_follows : system.Follows SparesLoads State.initial plainExchange := by
  repeat' first | exact trivial | decide | constructor

theorem plainExchange_driven :
    (system.run State.initial plainExchange).rt =
        .exchange false (.exchanging ⟨6, oneSetpoint⟩ (some ⟨4, some 7, [1], 1⟩)) ∧
      Driven (some ⟨4, some 7, [1], 1⟩) :=
  ⟨rfl, driverLive_of_sparesLoads ⟨_, plainExchange_follows, rfl⟩ false ⟨6, oneSetpoint⟩ _ rfl⟩

/-- In every interleaving the published set is the newest, and a mapped bus has a driver and retains
its image. -/
theorem retained_of_reachable (h : system.Reachable s) :
    (s.publishedSet = some s.newest ∨ s.publishedSet = none ∧ s.newest.driver = none) ∧
      ∀ image, (s.lastMapped = some image → s.currentSet.driver ≠ none) ∧
        (s.lastMapped = some image ∨ s.bus.publishes = some image → image ∈ s.generations) := by
  obtain ⟨hm, hv⟩ := view_reachable h
  refine ⟨hv.published, fun image => ⟨fun hi => hm.live ?_, ?_⟩⟩
  · simp [hi]
  · rintro (hi | hi)
    · exact hm.retained image hi
    · exact hm.published image hi

theorem plainExchange_retained :
    ⟨6, oneSetpoint⟩ ∈ (system.run State.initial plainExchange).generations :=
  ((retained_of_reachable ⟨_, plainExchange_follows.mono fun _ _ _ => trivial, rfl⟩).2 _).2
    (.inl rfl)

/-- The real-time thread is descheduled between its two loads for longer than a `reset` waits, and
finds the empty set. -/
def resetBetweenLoads : List Action :=
  bringUp ++ remap 6 oneSetpoint ++
  [.rt (.exchangeRaise false), .rt (.exchangeLoad false)] ++
  stopExchange .reset false ++
  [.bus (.resetClear false), .bus (.resetBuild false),
    .bus (.storeSet .reset false ⟨8, none, [], 2⟩), .rt (.loadSet false ⟨6, oneSetpoint⟩)]

theorem resetBetweenLoads_not_driverLive :
    system.Follows Unpaused State.initial resetBetweenLoads ∧
      ¬ DriverLive (system.run State.initial resetBetweenLoads) := by
  refine ⟨by repeat' first | exact trivial | decide | constructor, fun h => ?_⟩
  exact h false ⟨6, oneSetpoint⟩ _ rfl rfl

end MotionMaster.DeviceManager
