import MotionMaster.Eni.ProcessData

/-! The cyclic frame of an ENI document, against the working counter a bus returns for it. -/
namespace MotionMaster.Eni

variable {bus : List SlaveConfigInfo} {d : Direction} {f : FmmuConfig}

/-- The FMMU maps a byte of the range the command addresses. -/
def EniCyclicCmd.Reaches (c : EniCyclicCmd) (f : FmmuConfig) : Prop :=
  max f.logicalStart.toNat c.addr.toNat <
    min (f.logicalStart.toNat + f.length.toNat) (c.addr.toNat + c.dataLength.toNat)
  deriving Decidable

def EniCyclicCmd.Covers (c : EniCyclicCmd) (f : FmmuConfig) : Prop :=
  c.addr.toNat ≤ f.logicalStart.toNat ∧
    f.logicalStart.toNat + f.length.toNat ≤ c.addr.toNat + c.dataLength.toNat

def EniCmd.direction : EniCmd → Direction
  | .lwr => .output
  | .lrd => .input

/-- The working counter a conforming bus returns: each device that serves the command adds one,
however many of its FMMUs do. -/
def workingCounter (bus : List SlaveConfigInfo) (c : EniCyclicCmd) : ℕ :=
  bus.countP fun info => (info.active c.cmd.direction).any (c.Reaches ·)

def FrameExact (bus : List SlaveConfigInfo) (network : EniNetwork) : Prop :=
  ∀ c ∈ network.cyclic, c.cnt = workingCounter bus c ∧
    ∀ f ∈ activeOf bus c.cmd.direction, c.Reaches f → c.Covers f

def cyclicCmd (image : ProcessImageInfo) (halves : Halves) : Direction → EniCyclicCmd
  | .output => writeCmd image halves.output
  | .input => readCmd image halves.input

theorem mem_cyclicCmds {image : ProcessImageInfo} {halves : Halves} {c : EniCyclicCmd} :
    c ∈ cyclicCmds image halves ↔
      ∃ d, image.bytes d ≠ 0 ∧ (halves.half d).fmmus ≠ 0 ∧ c = cyclicCmd image halves d := by
  unfold cyclicCmds
  rw [List.mem_append]
  constructor
  · rintro (h | h) <;> split_ifs at h with hcond
    · exact ⟨.output, hcond.1, hcond.2, List.mem_singleton.1 h⟩
    · exact absurd h List.not_mem_nil
    · exact ⟨.input, hcond.1, hcond.2, List.mem_singleton.1 h⟩
    · exact absurd h List.not_mem_nil
  · rintro ⟨_ | _, hbytes, hfmmus, rfl⟩
    · rw [if_pos ⟨hbytes, hfmmus⟩]
      simp [cyclicCmd]
    · right
      rw [if_pos ⟨hbytes, hfmmus⟩]
      simp [cyclicCmd]

section CyclicCmd

variable (image : ProcessImageInfo) (halves : Halves) (d : Direction)

@[simp] theorem direction_cyclicCmd : (cyclicCmd image halves d).cmd.direction = d := by
  cases d <;> rfl

@[simp] theorem addr_cyclicCmd : (cyclicCmd image halves d).addr = (halves.half d).base := by
  cases d <;> rfl

@[simp] theorem dataLength_cyclicCmd :
    (cyclicCmd image halves d).dataLength = image.bytes d := by
  cases d <;> rfl

@[simp] theorem cnt_cyclicCmd : (cyclicCmd image halves d).cnt = (halves.half d).fmmus := by
  cases d <;> rfl

end CyclicCmd

/-- Counting the members of all lists counts the lists themselves exactly when each counted list
has one member and each other list none. -/
theorem length_flatMap_eq_countP_iff {α β : Type} (l : List α) (members : α → List β)
    (p : α → Bool) (hp : ∀ a ∈ l, p a = true → members a ≠ []) :
    (l.flatMap members).length = l.countP p ↔
      ∀ a ∈ l, (members a).length = if p a = true then 1 else 0 := by
  have hle : ∀ l : List α, (∀ a ∈ l, p a = true → members a ≠ []) →
      l.countP p ≤ (l.flatMap members).length := by
    intro l hp
    induction l with
    | nil => exact le_rfl
    | cons a l ih =>
      have htail := ih fun b hb => hp b (by simp [hb])
      have hhead := hp a (by simp)
      rw [← List.length_pos_iff] at hhead
      rw [List.countP_cons, List.flatMap_cons, List.length_append]
      split_ifs with ha
      · have := hhead ha
        omega
      · omega
  induction l with
  | nil => simp
  | cons a l ih =>
    have htail := hle l fun b hb => hp b (by simp [hb])
    have hhead := hp a (by simp)
    have hrest := ih fun b hb => hp b (by simp [hb])
    rw [← List.length_pos_iff] at hhead
    rw [List.forall_mem_cons, List.countP_cons, List.flatMap_cons, List.length_append]
    refine Iff.trans ?_ (and_congr_right' hrest)
    split_ifs with ha
    · have := hhead ha
      omega
    · omega

/-- A list whose length says whether a member has the property has at most one member, which has
it. -/
theorem length_eq_any_iff {α : Type} (l : List α) (p : α → Bool) :
    l.length = (if l.any p = true then 1 else 0) ↔ l.length ≤ 1 ∧ ∀ a ∈ l, p a = true := by
  match l with
  | [] => simp
  | [a] =>
    cases ha : p a <;> simp [ha]
  | _ :: _ :: _ =>
    refine iff_of_false ?_ ?_
    · split_ifs <;> simp
    · simp

/-- One command: it counts devices, and covers what it reaches, exactly when no device serves it
with two FMMUs and the image ends no earlier than any of them. -/
theorem cyclicCmd_exact_iff {image : ProcessImageInfo} (hf : f ∈ activeOf bus d) :
    ((cyclicCmd image (findHalves bus) d).cnt =
        workingCounter bus (cyclicCmd image (findHalves bus) d) ∧
      ∀ f ∈ activeOf bus d, (cyclicCmd image (findHalves bus) d).Reaches f →
        (cyclicCmd image (findHalves bus) d).Covers f) ↔
    (∀ info ∈ bus, (info.active d).length ≤ 1) ∧
      ∀ f ∈ activeOf bus d, 1 ≤ f.length.toNat ∧ ∀ g ∈ activeOf bus d,
        f.logicalStart.toNat + f.length.toNat ≤
          g.logicalStart.toNat + (image.bytes d).toNat := by
  have hleast := isLeast_base hf
  obtain ⟨low, hlow, hbase⟩ := hleast.1
  have hge : ∀ g ∈ activeOf bus d,
      ((findHalves bus).half d).base.toNat ≤ g.logicalStart.toNat :=
    fun g hg => hleast.2 ⟨g, hg, rfl⟩
  have hcnt : (cyclicCmd image (findHalves bus) d).cnt = (bus.flatMap (·.active d)).length := by
    rw [cnt_cyclicCmd, half_findHalves, fmmus_foldl_add]
    exact Nat.zero_add _
  rw [hcnt, workingCounter, direction_cyclicCmd, length_flatMap_eq_countP_iff]
  · simp only [length_eq_any_iff, decide_eq_true_eq, EniCyclicCmd.Reaches, EniCyclicCmd.Covers,
      addr_cyclicCmd, dataLength_cyclicCmd]
    constructor
    · rintro ⟨hone, hcover⟩
      refine ⟨fun info hi => (hone info hi).1, fun f hf => ?_⟩
      obtain ⟨info, hi, hfi⟩ := List.mem_flatMap.1 hf
      have hr := (hone info hi).2 f hfi
      have hc := (hcover f hf hr).2
      refine ⟨by omega, fun g hg => ?_⟩
      have := hge g hg
      omega
    · rintro ⟨hone, hcond⟩
      refine ⟨fun info hi => ⟨hone info hi, fun f hfi => ?_⟩, fun f hf _ => ⟨hge f hf, ?_⟩⟩
      · have hfa : f ∈ activeOf bus d := mem_activeOf hi hfi
        have hlen := (hcond f hfa).1
        have hend := (hcond f hfa).2 low hlow
        have hmin := hge f hfa
        omega
      · have := (hcond f hf).2 low hlow
        omega
  · intro info _ hany hnil
    rw [hnil] at hany
    exact absurd hany (by simp)

section Frame

variable {sourceMac : List (BitVec 8)} {image : ProcessImageInfo} {network : EniNetwork}

/-- The frame is right exactly when, in each direction that has an image, no device has two active
FMMUs, and the image reaches from the lowest to the end of the highest. -/
theorem frameExact_iff (h : collectEni sourceMac image bus = .ok network) :
    FrameExact bus network ↔ ∀ d, image.bytes d ≠ 0 →
      (∀ info ∈ bus, (info.active d).length ≤ 1) ∧
        ∀ f ∈ activeOf bus d, 1 ≤ f.length.toNat ∧ ∀ g ∈ activeOf bus d,
          f.logicalStart.toNat + f.length.toNat ≤
            g.logicalStart.toNat + (image.bytes d).toNat := by
  obtain ⟨-, hcyclic⟩ := collectEni_eq_ok h
  have hcount : ∀ d, ((findHalves bus).half d).fmmus = (activeOf bus d).length := by
    intro d
    rw [half_findHalves, fmmus_foldl_add]
    exact Nat.zero_add _
  simp only [FrameExact, hcyclic, mem_cyclicCmds, hcount]
  constructor
  · intro hexact d hbytes
    rcases hactive : activeOf bus d with _ | ⟨f, rest⟩
    · refine ⟨fun info hi => ?_, by simp⟩
      rw [List.flatMap_eq_nil_iff.1 hactive info hi]
      exact Nat.zero_le _
    · rw [← hactive, ← cyclicCmd_exact_iff (f := f) (by simp [hactive])]
      have := hexact _ ⟨d, hbytes, by simp [hactive], rfl⟩
      rwa [direction_cyclicCmd] at this
  · rintro hcond _ ⟨d, hbytes, hfmmus, rfl⟩
    obtain ⟨f, hf⟩ := List.exists_mem_of_length_pos (Nat.pos_of_ne_zero hfmmus)
    rw [direction_cyclicCmd]
    exact (cyclicCmd_exact_iff hf).2 (hcond d hbytes)

end Frame

/-- One device that maps its two output bytes with an FMMU each. -/
def twoFmmus : List SlaveConfigInfo := [⟨[wholeByte 0, wholeByte 1]⟩]

def twoByteImage : ProcessImageInfo := { configured := true, outputBytes := 2 }

theorem twoFmmus_not_frameExact :
    ∃ network, collectEni (List.replicate 6 0) twoByteImage twoFmmus = .ok network ∧
      ¬FrameExact twoFmmus network := by
  refine ⟨_, rfl, fun h => ?_⟩
  have := (h _ (List.mem_cons_self ..)).1
  exact absurd this (by decide)

theorem twoDevices_frameExact :
    ∃ network, collectEni (List.replicate 6 0) twoByteImage
        [⟨[wholeByte 0]⟩, ⟨[wholeByte 1]⟩] = .ok network ∧
      FrameExact [⟨[wholeByte 0]⟩, ⟨[wholeByte 1]⟩] network := by
  have h : collectEni (List.replicate 6 0) twoByteImage
      [⟨[wholeByte 0]⟩, ⟨[wholeByte 1]⟩] = .ok _ := rfl
  refine ⟨_, h, (frameExact_iff h).2 fun d hbytes => ?_⟩
  cases d with
  | input => exact absurd rfl hbytes
  | output => exact ⟨by decide, by decide⟩

end MotionMaster.Eni
