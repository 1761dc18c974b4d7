import MotionMaster.DeviceManager.CycleGate
import MotionMaster.Lib.Loan

/-! The published image: which one it is once nothing is in flight, and who still owns it. -/
namespace MotionMaster.DeviceManager

open Interleaving

variable {s : State}

def Pauser.previous : Pauser → Option Image
  | .idle => none
  | .draining _ previous | .checking _ previous => previous
  | .paused _ previous _ | .swapped _ previous _ => previous

@[simp] def Bus.op : Bus → Option Op
  | .idle => none
  | .draining op | .checking op | .drained op _ | .stopped op _ | .cleared op _ => some op
  | .publishing op _ _ | .handing op _ _ => some op
  | .mapped _ | .allocated _ | .retained _ | .stored _ => some .remap

@[simp] def Bus.handover : Bus → Option (Op × DeviceSet)
  | .publishing op _ set | .handing op _ set => some (op, set)
  | _ => none

/-- The image a re-map has retained and is publishing. -/
@[simp] def Bus.publishes : Bus → Option Image
  | .retained image | .stored image => some image
  | _ => none

def Quiescent (s : State) : Prop := (∀ t, s.pausers t = .idle) ∧ s.bus = .idle

/-- A published image is retained, and at rest it is the one the last re-map published. -/
def PublicationKept (s : State) : Prop :=
  (∀ image, s.image = some image → image ∈ s.generations) ∧
    (Quiescent s → s.image = s.lastMapped)

/-- An operation starts while no thread holds an image to put back, an empty-handed thread
resumes onto nothing, and a re-map gives up only with nothing to lose. -/
def Orderly (s : State) : Action → Prop
  | .bus (.pause _) => ∀ t, (s.pausers t).previous = none
  | .pauser _ (.resume _ previous _) => previous = none → s.image = none
  | .bus .remapRefuse | .bus .remapFail => s.lastMapped = none
  | _ => True

/-! ### What the operations maintain in every run -/

structure Mapped (s : State) : Prop where
  admitted : ∀ op, s.bus.op = some op → op.Admitted s ∧ (op = .remap ∨ s.lastMapped = none)
  handed : ∀ op set, s.bus.handover = some (op, set) → op ≠ .remap
  live : s.lastMapped ≠ none → s.currentSet.driver ≠ none
  retained : ∀ image, s.lastMapped = some image → image ∈ s.generations
  published : ∀ image, s.bus.publishes = some image → image ∈ s.generations

theorem mapped_initial : Mapped State.initial := by
  constructor <;> simp [State.initial, Bus.op, Bus.handover, Bus.publishes]

theorem admitted_congr {t : State} (h : s.currentSet = t.currentSet) (op : Op) :
    op.Admitted s ↔ op.Admitted t := by
  cases op <;> simp [Op.Admitted, h]

/-- A step that publishes nothing: the operation goes on or ends, and the images stay. -/
theorem Mapped.move {t : State} (hm : Mapped s) (hs : t.currentSet = s.currentSet)
    (hl : t.lastMapped = s.lastMapped) (hg : t.generations = s.generations)
    (ho : t.bus.op = none ∨ t.bus.op = s.bus.op)
    (hh : ∀ op set, t.bus.handover = some (op, set) → op ≠ .remap)
    (hp : ∀ image, t.bus.publishes = some image → s.bus.publishes = some image) : Mapped t := by
  refine ⟨?_, hh, by simpa [hl, hs] using hm.live, by simpa [hl, hg] using hm.retained, ?_⟩
  · intro op h
    rw [admitted_congr hs, hl]
    obtain ho | ho := ho
    · cases ho.symm.trans h
    · exact hm.admitted op (ho ▸ h)
  · intro image h
    exact hg ▸ hm.published image (hp image h)

theorem mapped_rt {a : RtAction} (hm : Mapped s) : Mapped (a.next s) :=
  hm.move (by simp) (by simp) (by simp) (by simp) (by simpa using hm.handed) (by simp)

variable {a : PauserAction}

theorem mapped_pauser {t : ℕ} (hm : Mapped s) : Mapped (a.next s t) :=
  hm.move (by simp) (by simp) (by simp) (by simp) (by simpa using hm.handed) (by simp)

theorem mapped_pause {op : Op} (hm : Mapped s) (ha : op.Admitted s) :
    Mapped (BusAction.next s (.pause op)) := by
  have hl : op.Admitted s ∧ (op = .remap ∨ (BusAction.next s (.pause op)).lastMapped = none) := by
    refine ⟨ha, ?_⟩
    cases op with
    | remap => exact .inl rfl
    | init driver capacity =>
      exact .inr (by simpa [BusAction.next, Op.Ends] using fun h => hm.live h ha)
    | _ => exact .inr rfl
  refine ⟨by rintro op' ⟨⟩; exact hl, by simp [BusAction.next], ?_, ?_, by simp [BusAction.next]⟩
  · intro h
    refine hm.live fun hn => h ?_
    simp [BusAction.next, hn]
  · intro image h
    refine hm.retained image ?_
    simp only [BusAction.next] at h
    split_ifs at h with he
    exact h

theorem mapped_bus {a : BusAction} (hm : Mapped s) (he : a.Enabled s) : Mapped (a.next s) := by
  have hop := hm.admitted
  have hh := hm.handed
  have hp := hm.published
  cases a <;> simp only [BusAction.Enabled] at he
  case pause op => exact mapped_pause hm he.2
  case remapStore image =>
    simp only [he, Bus.op, Bus.publishes, Option.some.injEq, forall_eq'] at hop hp
    exact ⟨by rintro op ⟨⟩; exact ⟨hop.1, .inl rfl⟩, by simp [BusAction.next],
      fun _ => hop.1.1, by rintro image ⟨⟩; exact hp, by rintro image ⟨⟩; exact hp⟩
  case handSet op ok set =>
    simp only [he, Bus.op, Bus.handover, Option.some.injEq, forall_eq'] at hop hh
    have hl := hop.2.resolve_left (hh op set rfl)
    constructor <;> simp [BusAction.next, hl]
  case scanClear | resetClear ok =>
    simp only [he, Bus.op, Option.some.injEq, forall_eq'] at hop
    have hl := hop.2.resolve_left (by simp)
    exact ⟨by rintro op ⟨⟩; exact ⟨hop.1, .inr hl⟩, by simp [BusAction.next],
      by simp [BusAction.next, hl], by simp [BusAction.next, hl], by simp [BusAction.next]⟩
  case remapRetain layout =>
    simp only [he, Bus.op, Option.some.injEq, forall_eq'] at hop
    refine ⟨by rintro op ⟨⟩; exact ⟨hop.1, .inl rfl⟩, by simp [BusAction.next], hm.live, ?_, ?_⟩
    · exact fun image h => List.mem_append_left _ (hm.retained image h)
    · simp [BusAction.next]
  all_goals
    refine hm.move rfl rfl rfl ?_ ?_ ?_ <;> simp_all [BusAction.next]

theorem mapped_step {a : Action} (hm : Mapped s) (he : Enabled s a) : Mapped (next s a) := by
  cases a with
  | rt a => exact mapped_rt hm
  | pauser t a => exact mapped_pauser hm
  | bus a => exact mapped_bus hm he

/-! ### The image on loan -/

/-- `pauseCycle` takes the image out of the register and `resumeCycle` puts it back. -/
def State.loan (s : State) : Loan.Register ℕ Image := ⟨s.image, fun t => (s.pausers t).previous⟩

theorem loan_update {s' : State} {t : ℕ} {p : Pauser}
    (hp : s'.pausers = Function.update s.pausers t p) :
    s'.loan = ⟨s'.image, Function.update s.loan.taken t p.previous⟩ := by
  simp only [State.loan, hp, Loan.Register.mk.injEq, true_and]
  funext u
  by_cases h : u = t <;> simp [h]

theorem owns_same {s' : State} {t : ℕ} {p : Pauser} {x : Option Image} (h : s.loan.Owns x)
    (hi : s'.image = s.image) (hp : s'.pausers = Function.update s.pausers t p)
    (hv : p.previous = (s.pausers t).previous) : s'.loan.Owns x := by
  have hu : Function.update s.loan.taken t p.previous = s.loan.taken :=
    Function.update_eq_self_iff.mpr hv
  rw [loan_update hp, hu, hi]
  exact h

theorem owns_pauser {t : ℕ} {x : Option Image} (he : a.Enabled s t)
    (hc : Orderly s (.pauser t a)) (h : s.loan.Owns x) : (a.next s t).loan.Owns x := by
  have ht : s.loan.taken t = (s.pausers t).previous := rfl
  cases a <;> simp only [PauserAction.Enabled] at he
  case pause device =>
    rw [loan_update rfl]
    exact h.take (by rw [ht, he, Pauser.previous])
  case resume device previous drained =>
    rw [he, Pauser.previous] at ht
    have := h.put (i := t) fun hn => hc (ht.symm.trans hn)
    rw [Loan.Register.put, ht] at this
    rwa [loan_update rfl]
  all_goals
    refine owns_same h rfl rfl ?_
    rw [he]
    rfl

/-- Between operations everything on loan is the last re-map's image. During one there is
nothing to lend. -/
structure Loaned (s : State) : Prop where
  paused : s.bus.Pausing → s.loan.Owns none
  running : ¬ s.bus.Pausing → s.loan.Owns s.lastMapped

theorem loaned_initial : Loaned State.initial := ⟨fun _ => rfl, fun _ => rfl⟩

theorem loaned_rt {a : RtAction} (hl : Loaned s) : Loaned (a.next s) := by
  have hs : (a.next s).loan = s.loan := by simp [State.loan]
  exact ⟨by simpa [hs] using hl.paused, by simpa [hs] using hl.running⟩

theorem loaned_pauser {t : ℕ} (hl : Loaned s) (he : a.Enabled s t)
    (hc : Orderly s (.pauser t a)) : Loaned (a.next s t) := by
  constructor <;> intro h <;> simp only [pauser_bus, pauser_lastMapped] at h ⊢
  · exact owns_pauser he hc (hl.paused h)
  · exact owns_pauser he hc (hl.running h)

theorem loaned_bus {a : BusAction} (hm : Mapped s) (hl : Loaned s) (he : a.Enabled s)
    (hc : Orderly s (.bus a)) : Loaned (a.next s) := by
  have hop := hm.admitted
  have hh := hm.handed
  obtain ⟨hp, hr⟩ := hl
  cases a <;> simp only [BusAction.Enabled] at he
  case pause op =>
    refine ⟨fun _ => ?_, fun h => absurd trivial h⟩
    exact congrArg (Loan.Register.mk none) (funext hc)
  case remapStore image =>
    refine ⟨fun h => h.elim, fun _ => .inl ?_⟩
    have hn : s.loan.Owns none := hp (by simp [he, Bus.Pausing])
    exact congrArg (Loan.Register.mk (some image)) (congrArg Loan.Register.taken hn)
  case initFail => exact ⟨hp, hr⟩
  case remapBump image => exact ⟨fun h => h.elim, fun _ => hr (by simp [he, Bus.Pausing])⟩
  all_goals
    -- the operation goes on, or it ends with nothing mapped
    have hn : s.loan.Owns none := hp (by simp [he, Bus.Pausing])
    refine ⟨fun _ => hn, fun h => ?_⟩
    have hl : s.lastMapped = none := by
      simp_all [Orderly, BusAction.next, Bus.Pausing]
    show s.loan.Owns s.lastMapped
    rwa [hl]

theorem loaned_step {a : Action} (h : Mapped s ∧ Loaned s) (he : Enabled s a)
    (hc : Orderly s a) : Mapped (next s a) ∧ Loaned (next s a) := by
  refine ⟨mapped_step h.1 he, ?_⟩
  cases a with
  | rt a => exact loaned_rt h.2
  | pauser t a => exact loaned_pauser h.2 he hc
  | bus a => exact loaned_bus h.1 h.2 he hc

theorem loaned_reachable (h : system.ReachableUnder Orderly s) : Mapped s ∧ Loaned s :=
  h.invariant ⟨mapped_initial, loaned_initial⟩ fun _ _ => loaned_step

/-- No publication is lost or brought back. -/
theorem publicationKept_of_orderly (h : system.ReachableUnder Orderly s) : PublicationKept s := by
  obtain ⟨hm, hl⟩ := loaned_reachable h
  constructor
  · intro image hi
    by_cases hb : s.bus.Pausing
    · cases (hl.paused hb).of_value hi
    · exact hm.retained image ((hl.running hb).of_value hi)
  · rintro ⟨hp, hb⟩
    refine (hl.running (by simp [hb, Bus.Pausing])).value_eq fun t => ?_
    simp [State.loan, hp t, Pauser.previous]

/-- `publishParameters` on its own, from the pause to the resume. -/
def enumerate (t : ℕ) (device : DeviceRef) (previous : Option Image) : List Action :=
  [.pauser t (.pause device), .pauser t (.waitOver device previous),
    .pauser t (.check device previous), .pauser t (.swap device previous true fun _ _ => none),
    .pauser t (.resume device previous true)]

def mapThenEnumerate : List Action :=
  bringUp ++ remap 6 oneSetpoint ++ enumerate 0 ⟨4, 1⟩ (some ⟨6, oneSetpoint⟩)

theorem mapThenEnumerate_follows : system.Follows Orderly State.initial mapThenEnumerate := by
  repeat' first | exact trivial | exact fun _ => rfl | decide | constructor

theorem mapThenEnumerate_publicationKept :
    (system.run State.initial mapThenEnumerate).lastMapped = some ⟨6, oneSetpoint⟩ ∧
      PublicationKept (system.run State.initial mapThenEnumerate) :=
  ⟨rfl, publicationKept_of_orderly ⟨_, mapThenEnumerate_follows, rfl⟩⟩

/-- A scan runs inside a pause. The thread then puts back an image the scan has freed. -/
def scanInsidePause : List Action :=
  bringUp ++ remap 6 oneSetpoint ++
  [.pauser 0 (.pause ⟨4, 1⟩), .pauser 0 (.waitOver ⟨4, 1⟩ (some ⟨6, oneSetpoint⟩)),
    .pauser 0 (.check ⟨4, 1⟩ (some ⟨6, oneSetpoint⟩)),
    .pauser 0 (.swap ⟨4, 1⟩ (some ⟨6, oneSetpoint⟩) true fun _ _ => none)] ++
  stopExchange .scan true ++
  [.bus .scanClear, .bus (.scanBuild 1), .bus (.storeSet .scan true ⟨8, some 7, [1], 2⟩),
    .bus (.handSet .scan true ⟨8, some 7, [1], 2⟩),
    .pauser 0 (.resume ⟨4, 1⟩ (some ⟨6, oneSetpoint⟩) true)]

theorem scanInsidePause_not_publicationKept :
    system.Reachable (system.run State.initial scanInsidePause) ∧
      ¬ PublicationKept (system.run State.initial scanInsidePause) := by
  refine ⟨⟨scanInsidePause, by decide, rfl⟩, fun h => ?_⟩
  exact List.not_mem_nil (h.1 ⟨6, oneSetpoint⟩ rfl)

end MotionMaster.DeviceManager
