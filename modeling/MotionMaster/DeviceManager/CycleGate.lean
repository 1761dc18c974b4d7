import MotionMaster.DeviceManager.Step

/-! The cycle gate: no cycle body runs inside a drained pause, unless a pause is undone early. -/
namespace MotionMaster.DeviceManager

open Interleaving

variable {s : State}

/-- The depth `inCycle` shows while the thread stands there. -/
def Rt.depth : Rt → ℕ
  | .idle => 0
  | .guardRaised | .guardBackOut | .task => 1
  | .exchange g _ => if g then 2 else 1

/-- Past the load of a non-null image. -/
def Exchange.Entered : Exchange → Prop
  | .raised | .backOut => False
  | _ => True

/-- Inside a cycle body: the task list, or an exchange that found an image. -/
def Rt.InBody : Rt → Prop
  | .task => True
  | .exchange g stage => g = true ∨ stage.Entered
  | _ => False

/-- Between the exchange of the image for null and the store that puts one back. -/
def Pauser.Pausing : Pauser → Prop
  | .idle => False
  | _ => True

/-- Between a `pauseCycle` that returned `drained` and the thread's own `resumeCycle`. -/
def Pauser.Drained : Pauser → Prop
  | .paused _ _ drained | .swapped _ _ drained => drained = true
  | _ => False

def Bus.Pausing : Bus → Prop
  | .idle | .stored _ => False
  | _ => True

/-- A re-map's window ends when it publishes. Every other operation's ends with the operation. -/
def Bus.Drained : Bus → Prop
  | .drained _ ok | .stopped _ ok | .cleared _ ok | .publishing _ ok _ | .handing _ ok _ =>
    ok = true
  | .mapped _ | .allocated _ | .retained _ => True
  | _ => False

def Pausing (s : State) : Prop := (∃ t, (s.pausers t).Pausing) ∨ s.bus.Pausing

def Drained (s : State) : Prop := (∃ t, (s.pausers t).Drained) ∨ s.bus.Drained

def CycleExcluded (s : State) : Prop := Drained s → ¬ s.rt.InBody

/-- A non-null image is put back only while no other thread is pausing. -/
def RepublishesAlone (s : State) : Action → Prop
  | .pauser t (.resume _ previous _) =>
    previous = none ∨ (∀ u, u ≠ t → ¬ (s.pausers u).Pausing) ∧ ¬ s.bus.Pausing
  | .bus (.remapStore _) => ∀ u, ¬ (s.pausers u).Pausing
  | _ => True

/-- What carries the exclusion: the depth is the real-time thread's own, and a pausing thread
leaves nothing to load. -/
structure Gate (s : State) : Prop where
  depth : s.inCycle = s.rt.depth
  unpublished : Pausing s → s.image = none
  excluded : CycleExcluded s

theorem Pauser.Drained.pausing {p : Pauser} (h : p.Drained) : p.Pausing := by
  cases p <;> simp_all [Pauser.Drained, Pauser.Pausing]

theorem Bus.Drained.pausing {b : Bus} (h : b.Drained) : b.Pausing := by
  cases b <;> simp_all [Bus.Drained, Bus.Pausing]

theorem Drained.pausing (h : Drained s) : Pausing s :=
  h.imp (fun ⟨t, ht⟩ => ⟨t, ht.pausing⟩) Bus.Drained.pausing

theorem Rt.not_inBody_of_depth {r : Rt} (h : r.depth = 0) : ¬ r.InBody := by
  cases r with
  | exchange g stage => cases g <;> simp [Rt.depth] at h
  | _ => simp_all [Rt.depth, Rt.InBody]

theorem Rt.depth_exchange (g : Bool) (stage : Exchange) :
    (Rt.exchange g stage).depth = (Rt.caller g).depth + 1 := by
  cases g <;> rfl

variable {a : RtAction}

/-- The depth counter follows the thread, step by step. -/
theorem depth_rt (hd : s.inCycle = s.rt.depth) (he : a.Enabled s) :
    (a.next s).inCycle = (a.next s).rt.depth := by
  cases a <;> simp only [RtAction.Enabled] at he <;> simp only [he, hd, RtAction.next]
  case guardLoad => split <;> rfl
  case exchangeRaise | exchangeBackOut | exchangeLeave => simp [Rt.depth_exchange]
  all_goals simp [Rt.depth]

/-- A body is entered only through a published image. -/
theorem inBody_rt (he : a.Enabled s) (hi : s.image = none)
    (hb : (a.next s).rt.InBody) : s.rt.InBody := by
  cases a <;> simp only [RtAction.Enabled] at he <;>
    simp_all [RtAction.next, Rt.InBody, Exchange.load, Exchange.Entered, Rt.caller]
  all_goals split_ifs at * <;> simp_all

theorem gate_initial : Gate State.initial := by
  constructor <;> simp [State.initial, Rt.depth, CycleExcluded, Drained, Pausing, Pauser.Drained,
    Bus.Drained, Pauser.Pausing, Bus.Pausing]

theorem gate_rt (hg : Gate s) (he : a.Enabled s) : Gate (a.next s) := by
  have hp : Pausing (a.next s) ↔ Pausing s := by simp [Pausing]
  have hd : Drained (a.next s) ↔ Drained s := by simp [Drained]
  refine ⟨depth_rt hg.depth he, ?_, ?_⟩
  · rw [hp, rt_image]
    exact hg.unpublished
  · intro h hb
    have h := hd.mp h
    exact hg.excluded h (inBody_rt he (hg.unpublished h.pausing) hb)

/-- A pause becomes drained only at a check that reads depth 0. -/
theorem drained_pauser {t : ℕ} {a : PauserAction} (he : a.Enabled s t)
    (h : ((a.next s t).pausers t).Drained) : (s.pausers t).Drained ∨ s.inCycle = 0 := by
  cases a <;> simp only [PauserAction.Enabled] at he <;>
    simp_all [PauserAction.next, State.setPauser, Pauser.Drained]

theorem drained_bus {a : BusAction} (he : a.Enabled s) (h : (a.next s).bus.Drained) :
    s.bus.Drained ∨ s.inCycle = 0 := by
  cases a <;> simp only [BusAction.Enabled] at he <;>
    simp_all [BusAction.next, Bus.Drained]

theorem gate_pauser {t : ℕ} {a : PauserAction} (hg : Gate s) (he : a.Enabled s t)
    (hc : RepublishesAlone s (.pauser t a)) : Gate (a.next s t) := by
  refine ⟨by simpa using hg.depth, ?_, ?_⟩
  · intro h
    cases a with
    | pause => rfl
    | resume device previous drained =>
      obtain rfl | ⟨hu, hb⟩ := hc
      · rfl
      · obtain ⟨u, h⟩ | h := h
        · by_cases hut : u = t
          · simp [hut, PauserAction.next, State.setPauser, Pauser.Pausing] at h
          · exact absurd (by rwa [pauser_other s hut] at h) (hu u hut)
        · exact absurd (by simpa using h) hb
    | _ => exact hg.unpublished (.inl ⟨t, by simp_all [PauserAction.Enabled, Pauser.Pausing]⟩)
  · rintro (⟨u, h⟩ | h) <;> rw [pauser_rt]
    · by_cases hut : u = t
      · subst hut
        obtain h | h := drained_pauser he h
        · exact hg.excluded (.inl ⟨u, h⟩)
        · exact Rt.not_inBody_of_depth (hg.depth ▸ h)
      · exact hg.excluded (.inl ⟨u, by rwa [pauser_other s hut] at h⟩)
    · exact hg.excluded (.inr (by simpa using h))

theorem gate_bus {a : BusAction} (hg : Gate s) (he : a.Enabled s)
    (hc : RepublishesAlone s (.bus a)) : Gate (a.next s) := by
  refine ⟨by simpa using hg.depth, ?_, ?_⟩
  · rintro (⟨u, h⟩ | h)
    · rw [bus_pausers] at h
      have hi := hg.unpublished (.inl ⟨u, h⟩)
      cases a with
      | remapStore => exact absurd h (hc u)
      | _ => simp_all [BusAction.next]
    · have hp := fun h => hg.unpublished (.inr h)
      cases a <;> simp_all [BusAction.Enabled, BusAction.next, Bus.Pausing]
  · rintro (⟨u, h⟩ | h) <;> rw [bus_rt]
    · exact hg.excluded (.inl ⟨u, by simpa using h⟩)
    · obtain h | h := drained_bus he h
      · exact hg.excluded (.inr h)
      · exact Rt.not_inBody_of_depth (hg.depth ▸ h)

theorem gate_step {a : Action} (hg : Gate s) (he : Enabled s a) (hc : RepublishesAlone s a) :
    Gate (next s a) := by
  cases a with
  | rt a => exact gate_rt hg he
  | pauser t a => exact gate_pauser hg he hc
  | bus a => exact gate_bus hg he hc

theorem gate_reachable (h : system.ReachableUnder RepublishesAlone s) : Gate s :=
  h.invariant gate_initial fun _ _ => gate_step

/-- While a thread is inside a pause that drained, the real-time thread is in no cycle body. -/
theorem cycleExcluded_of_republishesAlone (h : system.ReachableUnder RepublishesAlone s) :
    CycleExcluded s :=
  (gate_reachable h).excluded

/-- One enumeration drains while the real-time thread knocks. -/
def singlePause : List Action :=
  bringUp ++ remap 6 oneSetpoint ++
  [.pauser 0 (.pause ⟨4, 1⟩), .pauser 0 (.waitOver ⟨4, 1⟩ (some ⟨6, oneSetpoint⟩)),
    .pauser 0 (.check ⟨4, 1⟩ (some ⟨6, oneSetpoint⟩)), .rt .guardRaise, .rt .guardLoad]

theorem singlePause_follows : system.Follows RepublishesAlone State.initial singlePause := by
  repeat' first | exact trivial | exact fun _ h => h | decide | constructor

theorem singlePause_excluded :
    Drained (system.run State.initial singlePause) ∧
      ¬ (system.run State.initial singlePause).rt.InBody :=
  ⟨.inl ⟨0, rfl⟩, cycleExcluded_of_republishesAlone ⟨_, singlePause_follows, rfl⟩ (.inl ⟨0, rfl⟩)⟩

/-- Two enumerations cross: the first puts its image back inside the second one's drained pause,
and a cycle starts. -/
def crossingPauses : List Action :=
  bringUp ++ remap 6 oneSetpoint ++
  [.pauser 0 (.pause ⟨4, 1⟩), .pauser 0 (.waitOver ⟨4, 1⟩ (some ⟨6, oneSetpoint⟩)),
    .pauser 0 (.check ⟨4, 1⟩ (some ⟨6, oneSetpoint⟩)),
    .pauser 0 (.swap ⟨4, 1⟩ (some ⟨6, oneSetpoint⟩) true fun _ _ => none),
    .pauser 1 (.pause ⟨4, 1⟩), .pauser 1 (.waitOver ⟨4, 1⟩ none),
    .pauser 1 (.check ⟨4, 1⟩ none),
    .pauser 0 (.resume ⟨4, 1⟩ (some ⟨6, oneSetpoint⟩) true),
    .rt .guardRaise, .rt .guardLoad]

theorem crossingPauses_not_cycleExcluded :
    system.Reachable (system.run State.initial crossingPauses) ∧
      ¬ CycleExcluded (system.run State.initial crossingPauses) := by
  refine ⟨⟨crossingPauses, by decide, rfl⟩, fun h => h (.inl ⟨1, rfl⟩) trivial⟩

end MotionMaster.DeviceManager
