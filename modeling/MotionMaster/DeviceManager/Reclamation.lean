import MotionMaster.DeviceManager.Driver

/-! Reclamation: what the real-time thread obtained in a cycle body outlives the body. -/
namespace MotionMaster.DeviceManager

open Interleaving

variable {s : State}

/-- Everything obtained in the current body still has an owner. `newest` is `currentSet_`, or the
argument `publishDeviceSet` is about to move there. -/
structure Owned (s : State) : Prop where
  images : ∀ image ∈ s.held.images, image ∈ s.generations ∨ .inl image ∈ s.abandoned
  sets : ∀ set ∈ s.held.sets, set = s.newest ∨ set = s.currentSet ∨ .inr set ∈ s.abandoned
  storages : ∀ storage ∈ s.held.storages, storage = s.ring.storage

/-- No enumeration runs, and `init` publishes its set while no cycle body runs. -/
def InitsOutside (s : State) : Action → Prop
  | .pauser _ _ => False
  | .bus (.storeSet (.init _ _) _ _) => ¬ s.rt.InBody
  | _ => True

structure Reclaim (s : State) : Prop where
  outside : ¬ s.rt.InBody → s.held = Held.none
  mapped : ∀ image, s.image = some image → image ∈ s.generations
  published : ∀ op ok set, s.bus = .publishing op ok set →
    (∃ driver capacity, op = .init driver capacity) ∨ ok = true ∨ .inr s.currentSet ∈ s.abandoned
  handed : ∀ op ok set, s.bus = .handing op ok set →
    ¬ s.rt.InBody ∨ .inr s.currentSet ∈ s.abandoned
  owned : Owned s

theorem owned_of_none (h : s.held = Held.none) : Owned s := by
  constructor <;> simp [h, Held.none]

/-- Owners may change as long as each object keeps one. -/
theorem Owned.move {t : State} (ho : Owned s) (hh : t.held = s.held)
    (hi : ∀ image, image ∈ s.generations ∨ .inl image ∈ s.abandoned →
      image ∈ t.generations ∨ .inl image ∈ t.abandoned)
    (hs : ∀ set, set = s.newest ∨ set = s.currentSet ∨ .inr set ∈ s.abandoned →
      set = t.newest ∨ set = t.currentSet ∨ .inr set ∈ t.abandoned)
    (hr : t.ring.storage = s.ring.storage) : Owned t := by
  refine ⟨?_, ?_, ?_⟩ <;> rw [hh]
  · exact fun image h => hi image (ho.images image h)
  · exact fun set h => hs set (ho.sets set h)
  · exact fun storage h => (ho.storages storage h).trans hr.symm

theorem reclaim_initial : Reclaim State.initial :=
  ⟨fun _ => rfl, nofun, nofun, nofun, owned_of_none rfl⟩

theorem outside_rt {a : RtAction} (hr : Reclaim s) (he : a.Enabled s)
    (h : ¬ (a.next s).rt.InBody) : (a.next s).held = Held.none := by
  have ho := hr.outside
  cases a <;> simp only [RtAction.Enabled] at he <;> simp only [he] at ho
  case guardRaise | guardLoad | guardBackOut => exact ho id
  case guardLeave => rfl
  case findDevice => exact absurd (by simp [RtAction.next, he, Rt.InBody]) h
  case exchangeRaise g =>
    cases g with
    | false => exact ho id
    | true => exact absurd (.inl rfl) h
  case exchangeLoad g =>
    cases g with
    | false =>
      cases hi : s.image with
      | none =>
        simpa [RtAction.next, State.holdImage, hi] using
          ho (by simp [Rt.InBody, Exchange.Entered])
      | some image =>
        exact absurd (.inr (by simp [hi, Exchange.load, Exchange.Entered])) h
    | true => exact absurd (.inl rfl) h
  case exchangeBackOut g =>
    cases g with
    | false => exact ho (by simp [Rt.InBody, Exchange.Entered])
    | true => exact absurd trivial h
  case exchangeLeave g image set =>
    cases g with
    | false => rfl
    | true => exact absurd trivial h
  all_goals exact absurd (.inr trivial) h

theorem newest_rt (a : RtAction) : (a.next s).newest = s.newest := by simp [State.newest]

theorem storage_rt (a : RtAction) : (a.next s).ring.storage = s.ring.storage := by
  cases a <;> rfl

/-- Each step obtains only what is published, or the ring as it stands. -/
theorem held_rt (a : RtAction) :
    (∀ image ∈ (a.next s).held.images, image ∈ s.held.images ∨ s.image = some image) ∧
    (∀ set ∈ (a.next s).held.sets, set ∈ s.held.sets ∨ s.publishedSet = some set) ∧
    (∀ storage ∈ (a.next s).held.storages,
      storage ∈ s.held.storages ∨ storage = s.ring.storage) := by
  simp [RtAction.next, State.holdImage, State.holdSet, Held.none]
  grind

theorem owned_rt {a : RtAction} (hv : View s) (hr : Reclaim s) : Owned (a.next s) := by
  obtain ⟨hi, hs, hg⟩ := hr.owned
  obtain ⟨hi', hs', hg'⟩ := held_rt (s := s) a
  constructor
  · intro image h
    rw [rt_generations, rt_abandoned]
    exact (hi' image h).elim (hi image) fun h => .inl (hr.mapped image h)
  · intro set h
    rw [newest_rt, rt_currentSet, rt_abandoned]
    obtain h | h := hs' set h
    · exact hs set h
    · obtain hp | ⟨hp, -⟩ := hv.published
      · exact .inl (Option.some.inj (h.symm.trans hp))
      · cases h.symm.trans hp
  · intro storage h
    rw [storage_rt]
    exact (hg' storage h).elim (hg storage) id

theorem reclaim_rt {a : RtAction} (hg : Gate s) (hv : View s) (hr : Reclaim s) (he : a.Enabled s) :
    Reclaim (a.next s) := by
  refine ⟨outside_rt hr he, by simpa using hr.mapped, by simpa using hr.published, ?_,
    owned_rt hv hr⟩
  intro op ok set h
  rw [rt_bus] at h
  rw [rt_currentSet, rt_abandoned]
  have hi : s.image = none := hg.unpublished (.inr (by rw [h]; trivial))
  exact (hr.handed op ok set h).imp_left fun hn hb => hn (inBody_rt he hi hb)

theorem held_of_drained (hg : Gate s) (hr : Reclaim s) (h : s.bus.Drained) :
    s.held = Held.none :=
  hr.outside (hg.excluded (.inr h))

variable {a : BusAction}

theorem mapped_image_bus (hm : Mapped s) (hg : Gate s) (hr : Reclaim s)
    (he : a.Enabled s) :
    ∀ image, (a.next s).image = some image → image ∈ (a.next s).generations := by
  intro image h
  have hi : s.bus.Pausing → s.image = none := fun h => hg.unpublished (.inr h)
  cases a <;> simp only [BusAction.Enabled] at he
  case pause => cases h
  case remapStore i =>
    obtain rfl : i = image := Option.some.inj h
    exact hm.published i (by rw [he]; rfl)
  case scanClear | resetClear => cases (hi (by rw [he]; trivial)).symm.trans h
  case remapRetain => exact List.mem_append_left _ (hr.mapped image h)
  all_goals exact hr.mapped image h

theorem handed_bus (hg : Gate s) (hr : Reclaim s) (he : a.Enabled s)
    (hc : InitsOutside s (.bus a)) : ∀ op ok set, (a.next s).bus = .handing op ok set →
      ¬ (a.next s).rt.InBody ∨ .inr (a.next s).currentSet ∈ (a.next s).abandoned := by
  intro op ok set h
  cases a <;> simp only [BusAction.Enabled] at he <;>
    simp only [BusAction.next, reduceCtorEq] at h
  case storeSet op' ok' set' =>
    obtain ⟨d, c, rfl⟩ | rfl | hb := hr.published op' ok' set' he
    · exact .inl hc
    · exact .inl (hg.excluded (.inr (by rw [he]; rfl)))
    · exact .inr hb
  case initFail => exact hr.handed op ok set h

theorem published_bus (hr : Reclaim s) (he : a.Enabled s) :
    ∀ op ok set, (a.next s).bus = .publishing op ok set →
      (∃ driver capacity, op = .init driver capacity) ∨ ok = true ∨
        .inr (a.next s).currentSet ∈ (a.next s).abandoned := by
  intro op ok set h
  cases a <;> simp only [BusAction.Enabled] at he <;>
    simp only [BusAction.next, reduceCtorEq, Bus.publishing.injEq] at h ⊢
  case initFail => exact hr.published op ok set h
  case initBuild d c _ => exact .inl ⟨d, c, h.1.symm⟩
  case scanBuild => exact .inr (.inl h.2.1.symm)
  case resetBuild b =>
    obtain ⟨-, rfl, -⟩ := h
    cases b <;> simp

theorem owned_bus (hg : Gate s) (hr : Reclaim s) (he : a.Enabled s) :
    Owned (a.next s) := by
  have hd := held_of_drained hg hr
  cases a <;> simp only [BusAction.Enabled] at he
  case scanClear | remapAllocate => exact owned_of_none (hd (by rw [he]; trivial))
  case reclaim op ok | resetClear ok | resetBuild ok =>
    cases ok
    · refine hr.owned.move rfl ?_ ?_ rfl <;> simp [BusAction.next, State.newest, he] <;> grind
    · exact owned_of_none (hd (by rw [he]; rfl))
  case handSet op ok set =>
    obtain hb | hb := hr.handed op ok set he
    · exact owned_of_none (hr.outside hb)
    · refine hr.owned.move rfl (fun _ => id) ?_ rfl
      simp [BusAction.next, State.newest, he]
      grind
  case remapRetain layout =>
    refine hr.owned.move rfl ?_ (fun _ => ?_) rfl
    · simp only [BusAction.next, List.mem_append]
      grind
    · simp [BusAction.next, State.newest, he]
  all_goals
    refine hr.owned.move rfl (fun _ => id) ?_ rfl
    simp [BusAction.next, State.newest, he]
    try grind

theorem reclaim_bus (hm : Mapped s) (hg : Gate s) (hr : Reclaim s)
    (he : a.Enabled s) (hc : InitsOutside s (.bus a)) : Reclaim (a.next s) :=
  ⟨by simpa using hr.outside, mapped_image_bus hm hg hr he, published_bus hr he,
    handed_bus hg hr he hc, owned_bus hg hr he⟩

theorem unpaused_of_initsOutside (h : system.ReachableUnder InitsOutside s) :
    system.ReachableUnder Unpaused s := by
  refine h.mono fun s a hc => ?_
  cases a with
  | pauser t a => exact hc
  | _ => trivial

theorem reclaim_reachable (h : system.ReachableUnder InitsOutside s) : Reclaim s := by
  refine h.induct reclaim_initial fun s a hs hr he hc => ?_
  have hg := gate_of_unpaused (unpaused_of_initsOutside hs)
  obtain ⟨hm, hv⟩ := view_reachable hs
  cases a with
  | rt a => exact reclaim_rt hg hv hr he
  | pauser t a => exact hc.elim
  | bus a => exact reclaim_bus hm hg hr he hc

/-- Nothing the real-time thread obtained in its current body has been released. -/
theorem owned_of_initsOutside (h : system.ReachableUnder InitsOutside s) : Owned s :=
  (reclaim_reachable h).owned

/-- `reset` gives up its drain and empties the bus around a stalled real-time thread. -/
def forcedReset : List Action :=
  stopExchange .reset false ++
  [.bus (.resetClear false), .bus (.resetBuild false),
    .bus (.storeSet .reset false ⟨8, none, [], 2⟩), .bus (.handSet .reset false ⟨8, none, [], 2⟩)]

/-- The stalled thread is inside an exchange and holds the old image and the old set. -/
def resetInsideExchange : List Action :=
  bringUp ++ remap 6 oneSetpoint ++
  [.rt (.exchangeRaise false), .rt (.exchangeLoad false), .rt (.loadSet false ⟨6, oneSetpoint⟩)] ++
  forcedReset

theorem resetInsideExchange_follows :
    system.Follows InitsOutside State.initial resetInsideExchange := by
  repeat' first | exact trivial | exact id | decide | constructor

theorem resetInsideExchange_owned :
    (system.run State.initial resetInsideExchange).held =
        ⟨[⟨6, oneSetpoint⟩], [⟨4, some 7, [1], 1⟩], []⟩ ∧
      Owned (system.run State.initial resetInsideExchange) :=
  ⟨rfl, owned_of_initsOutside ⟨_, resetInsideExchange_follows, rfl⟩⟩

/-- A task that outlives a forced `reset` resolves a device in the empty set, and the next `init`
frees that set under it. -/
def initInsideTask : List Action :=
  bringUp ++ remap 6 oneSetpoint ++ [.rt .guardRaise, .rt .guardLoad] ++ forcedReset ++
  [.rt .findDevice] ++ stopExchange (.init 7 2) false ++
  [.bus (.initBuild 7 2 false), .bus (.storeSet (.init 7 2) false ⟨9, some 7, [], 2⟩),
    .bus (.handSet (.init 7 2) false ⟨9, some 7, [], 2⟩)]

theorem initInsideTask_not_owned :
    system.Follows Unpaused State.initial initInsideTask ∧
      ¬ Owned (system.run State.initial initInsideTask) := by
  refine ⟨by repeat' first | exact trivial | decide | constructor, fun h => ?_⟩
  have ha : (system.run State.initial initInsideTask).abandoned =
      [.inl ⟨6, oneSetpoint⟩, .inr ⟨4, some 7, [1], 1⟩] := rfl
  obtain h | h | h := h.sets ⟨8, none, [], 2⟩ (by decide)
  · exact absurd h (by decide)
  · exact absurd h (by decide)
  · simp [ha] at h

end MotionMaster.DeviceManager
