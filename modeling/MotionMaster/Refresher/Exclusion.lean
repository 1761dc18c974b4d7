import MotionMaster.Refresher.State

/-!
# One reader per drive

A drive is busy while one worker is between `takeDue` and the end of `poll` for it, and after a poll
it stays closed for as long as the poll took.
-/

namespace MotionMaster.Refresher

namespace State

def job (s : State) (w : ℕ) : Option Job := (s.phase w).bind Phase.job

/-- The worker is between `takeDue` and the end of `poll` for the drive. -/
def Polls (s : State) (w : ℕ) (position : BitVec 16) : Prop :=
  ∃ job, s.job w = some job ∧ job.devicePosition = position

end State

def Phase.readStart : Phase → Option ℤ
  | .waiting | .taken _ => none
  | .reading _ readStart | .returning _ readStart _ _ => some readStart

/-- The later poll starts when the earlier one has been over for as long as it took. -/
def Spaced (earlier : Poll) (position : BitVec 16) (readStart : ℤ) : Prop :=
  earlier.devicePosition = position → earlier.readEnd + earlier.duration ≤ readStart

/-- `polls` has the last poll first. -/
structure OneReader (s : State) : Prop where
  busy : ∀ position, (s.drive position).busy = true ↔ ∃! w, s.Polls w position
  alone : ∀ v w position, s.Polls v position → s.Polls w position → v = w
  spaced : s.polls.Pairwise fun later earlier =>
    Spaced earlier later.devicePosition later.readStart
  underWay : ∀ w job readStart, s.job w = some job →
    (s.phase w).bind Phase.readStart = some readStart →
    ∀ earlier ∈ s.polls, Spaced earlier job.devicePosition readStart

/-! ### The invariant -/

def Phase.Timed (polls : List Poll) (clock : ℤ) : Phase → Prop
  | .waiting => True
  | .taken job => ∀ p ∈ polls, Spaced p job.devicePosition clock
  | .reading job readStart =>
    (∀ p ∈ polls, Spaced p job.devicePosition readStart) ∧ readStart ≤ clock
  | .returning job readStart readEnd _ =>
    (∀ p ∈ polls, Spaced p job.devicePosition readStart) ∧ readStart ≤ readEnd ∧ readEnd ≤ clock

structure Exclusive (s : State) : Prop where
  unlaunched : ∀ w, s.launched ≤ w → s.phase w = none
  alone : ∀ v w position, s.Polls v position → s.Polls w position → v = w
  busy : ∀ position, (s.drive position).busy = true ↔ ∃ w, s.Polls w position
  timed : ∀ w phase, s.phase w = some phase → phase.Timed s.polls s.clock
  closed : ∀ p ∈ s.polls, ∃ drive, s.drives p.devicePosition = some drive ∧
    p.readEnd + p.duration ≤ drive.openAt
  spaced : s.polls.Pairwise fun later earlier =>
    Spaced earlier later.devicePosition later.readStart

section Updates

variable {s : State} {v w : ℕ} {p position : BitVec 16} {phase : Option Phase} {d : Drive}

@[simp] theorem State.phase_setPhase :
    (s.setPhase w phase).phase v = if v = w then phase else s.phase v :=
  Function.update_apply ..

theorem State.phase_finish {job : Job} {readStart readEnd : ℤ} {result : Bool} :
    (s.finish w job readStart readEnd result).phase v =
      if v = w then some .waiting else s.phase v :=
  State.phase_setPhase

@[simp] theorem State.drive_setDrive :
    (s.setDrive p d).drive position = if position = p then d else s.drive position := by
  by_cases h : position = p <;> simp [State.setDrive, State.drive, h]

variable {ph : Phase}

theorem State.polls_of_phase {job : Job} (h : s.phase w = some ph)
    (hj : ph.job = some job) : s.Polls w job.devicePosition :=
  ⟨job, by rw [State.job, h]; exact hj, rfl⟩

theorem State.not_polls_waiting (h : s.phase w = some .waiting) : ¬ s.Polls w p := by
  rintro ⟨job, hj, -⟩
  rw [State.job, h] at hj
  cases hj

theorem Spaced.mono {earlier : Poll} {readStart readStart' : ℤ}
    (h : Spaced earlier position readStart) (hle : readStart ≤ readStart') :
    Spaced earlier position readStart' :=
  fun hp => (h hp).trans hle

theorem Phase.Timed.later {polls : List Poll} {clock clock' : ℤ}
    (h : ph.Timed polls clock) (hc : clock ≤ clock') : ph.Timed polls clock' := by
  cases ph with
  | waiting => trivial
  | taken job => exact fun p hp => (h p hp).mono hc
  | reading job readStart => exact ⟨h.1, h.2.trans hc⟩
  | returning job readStart readEnd result => exact ⟨h.1, h.2.1, h.2.2.trans hc⟩

/-- A poll of another drive does not matter. -/
theorem Phase.Timed.cons {polls : List Poll} {clock : ℤ} {poll : Poll}
    (h : ph.Timed polls clock)
    (hne : ∀ job, ph.job = some job → poll.devicePosition ≠ job.devicePosition) :
    ph.Timed (poll :: polls) clock := by
  have hcons : ∀ job readStart, ph.job = some job →
      (∀ p ∈ polls, Spaced p job.devicePosition readStart) →
      ∀ p ∈ poll :: polls, Spaced p job.devicePosition readStart := by
    intro job readStart hj hpolls p hp
    rcases List.mem_cons.mp hp with rfl | hp
    · exact fun heq => absurd heq (hne job hj)
    · exact hpolls p hp
  cases ph with
  | waiting => trivial
  | taken job => exact hcons job _ rfl h
  | reading job readStart => exact ⟨hcons job _ rfl h.1, h.2⟩
  | returning job readStart readEnd result => exact ⟨hcons job _ rfl h.1, h.2⟩

end Updates

namespace Exclusive

variable {s : State} {w : ℕ} {job : Job} {readStart readEnd : ℤ} {result : Bool}

theorem initial (count : ℕ) (clock : ℤ) : Exclusive (system count clock).initial where
  unlaunched _ _ := rfl
  alone := by
    rintro v w position ⟨job, hj, -⟩
    cases hj
  busy := by
    intro position
    constructor
    · intro h
      cases h
    · rintro ⟨w, job, hj, -⟩
      cases hj
  timed := by
    intro w phase h
    cases h
  closed := by
    intro p hp
    cases hp
  spaced := List.Pairwise.nil

theorem tick (h : Exclusive s) (elapsed : ℕ) : Exclusive { s with clock := s.clock + elapsed } :=
  { h with
    timed := fun w phase hw => (h.timed w phase hw).later (by simp) }

/-- A step that leaves the drives alone, and what each worker has taken. -/
theorem keep {t : State} (h : Exclusive s) (hpolls : ∀ v p, t.Polls v p ↔ s.Polls v p)
    (hdrives : t.drives = s.drives) (hp : t.polls = s.polls)
    (hu : ∀ v, t.launched ≤ v → t.phase v = none)
    (ht : ∀ v phase, t.phase v = some phase → phase.Timed t.polls t.clock) : Exclusive t where
  unlaunched := hu
  alone v w p hv hw := h.alone v w p ((hpolls v p).mp hv) ((hpolls w p).mp hw)
  busy p := by
    rw [State.drive, hdrives, exists_congr fun w => hpolls w p]
    exact h.busy p
  timed := ht
  closed := by
    rw [hp, hdrives]
    exact h.closed
  spaced := by
    rw [hp]
    exact h.spaced

/-- The threads of a new pool have not taken anything. -/
theorem launch (h : Exclusive s) (count : ℕ) : Exclusive (s.launch count) := by
  have hphase : ∀ v, (s.launch count).phase v = if s.launched ≤ v ∧ v < s.launched + count then
      some .waiting else s.phase v := fun _ => rfl
  refine h.keep ?_ rfl rfl ?_ ?_
  · intro v p
    simp only [State.Polls, State.job, hphase]
    split_ifs with hv
    · simp [h.unlaunched v hv.1, Phase.job]
    · rfl
  · intro v hv
    have hlaunched : s.launched + count ≤ v := hv
    rw [hphase, if_neg (by omega)]
    exact h.unlaunched v (by omega)
  · intro v phase hv
    rw [hphase] at hv
    split_ifs at hv
    · cases hv
      trivial
    · exact h.timed v phase hv

theorem start (h : Exclusive s) (count : ℕ) : Exclusive (s.start count) := by
  unfold State.start
  split_ifs
  · exact h
  · exact h.launch count

theorem not_launched (h : Exclusive s) {phase : Phase} (hw : s.phase w = some phase) {v : ℕ}
    (hv : s.launched ≤ v) : v ≠ w := by
  rintro rfl
  rw [h.unlaunched v hv] at hw
  cases hw

/-- A worker goes on with what it has taken, or ends with nothing taken. -/
theorem setPhase (h : Exclusive s) {phase : Phase} {phase' : Option Phase}
    (hw : s.phase w = some phase) (hjob : phase'.bind Phase.job = phase.job)
    (ht : ∀ ph, phase' = some ph → ph.Timed s.polls s.clock) :
    Exclusive (s.setPhase w phase') := by
  refine h.keep ?_ rfl rfl ?_ ?_
  · intro v p
    simp only [State.Polls, State.job, State.phase_setPhase]
    split_ifs with hv
    · rw [hv, hw, hjob]
      rfl
    · rfl
  · intro v hv
    rw [State.phase_setPhase, if_neg (h.not_launched hw hv)]
    exact h.unlaunched v hv
  · intro v ph hv
    rw [State.phase_setPhase] at hv
    split_ifs at hv
    · exact ht ph hv
    · exact h.timed v ph hv

theorem entries (h : Exclusive s) (entries : Std.TreeMap ℕ Entry) :
    Exclusive { s with entries } :=
  { h with }

/-- The drive of the job was free, so nobody else polls it, and every poll of it is long over. -/
theorem take (h : Exclusive s) (hw : s.phase w = some .waiting) : Exclusive (s.take w) := by
  unfold State.take
  split
  · exact h
  rename_i job htake
  obtain ⟨e, he, hjob, hfree, hdue, -⟩ := State.takeDue_spec htake
  have hpos : job.devicePosition = e.devicePosition := by rw [hjob]; rfl
  have hnone : ∀ v, ¬ s.Polls v job.devicePosition := by
    intro v hv
    have hbusy := (h.busy job.devicePosition).mpr ⟨v, hv⟩
    rw [hpos, State.isFree_iff.mp hfree] at hbusy
    cases hbusy
  have hpolls : ∀ v p, ((s.setPhase w (some (.taken job))).setDrive job.devicePosition
      { s.drive job.devicePosition with busy := true }).Polls v p ↔
      (v = w ∧ p = job.devicePosition) ∨ s.Polls v p := by
    intro v p
    by_cases hv : v = w
    · subst hv
      have hnot := State.not_polls_waiting hw (p := p)
      simp only [hnot, or_false, true_and]
      simp [State.Polls, State.job, State.setDrive, Phase.job, eq_comm]
    · simp [State.Polls, State.job, State.setDrive, hv]
  apply Exclusive.entries
  constructor
  · intro v hv
    have hvw := h.not_launched hw hv
    simp [State.setDrive, hvw, h.unlaunched v hv]
  · intro v v' p hv hv'
    rw [hpolls] at hv hv'
    rcases hv with ⟨rfl, rfl⟩ | hv <;> rcases hv' with ⟨rfl, hp⟩ | hv'
    · rfl
    · exact absurd hv' (hnone v')
    · exact absurd (hp ▸ hv) (hnone v)
    · exact h.alone v v' p hv hv'
  · intro p
    simp only [hpolls, State.drive_setDrive]
    by_cases hp : p = job.devicePosition
    · simp [hp]
    · simp only [hp, if_false, and_false, false_or]
      exact h.busy p
  · intro v ph hv
    have hv' : (s.setPhase w (some (.taken job))).phase v = some ph := hv
    rw [State.phase_setPhase] at hv'
    split_ifs at hv'
    · cases hv'
      intro p hp hsame
      obtain ⟨d, hd, hclosed⟩ := h.closed p hp
      rw [hsame, hpos] at hd
      exact (hclosed.trans (State.openAt_le_dueAt hd)).trans hdue
    · exact h.timed v ph hv'
  · intro p hp
    obtain ⟨d, hd, hclosed⟩ := h.closed p hp
    by_cases hsame : p.devicePosition = job.devicePosition
    · rw [hsame] at hd ⊢
      refine ⟨_, Function.update_self .., ?_⟩
      rw [State.drive_of_some hd]
      exact hclosed
    · exact ⟨d, (Function.update_of_ne hsame ..).trans hd, hclosed⟩
  · exact h.spaced

/-- The end of a poll opens the drive after the time the poll took. -/
theorem finish (h : Exclusive s) (hw : s.phase w = some (.returning job readStart readEnd result)) :
    Exclusive (s.finish w job readStart readEnd result) := by
  obtain ⟨hspaced, hstart, hend⟩ := h.timed w _ hw
  have hmine := State.polls_of_phase hw rfl
  have hpolls : ∀ v p, (s.finish w job readStart readEnd result).Polls v p ↔
      v ≠ w ∧ s.Polls v p := by
    intro v p
    simp only [State.Polls, State.job, State.phase_finish]
    split_ifs with hv
    · simp [hv, Phase.job]
    · simp [hv]
  have hdrive : ∀ p, (s.finish w job readStart readEnd result).drive p =
      if p = job.devicePosition then ⟨false, readEnd + (readEnd - readStart)⟩ else s.drive p :=
    fun p => State.drive_setDrive (s := s.setPhase w (some .waiting))
  constructor
  · intro v hv
    rw [State.phase_finish, if_neg (h.not_launched hw hv)]
    exact h.unlaunched v hv
  · intro v v' p hv hv'
    exact h.alone v v' p ((hpolls v p).mp hv).2 ((hpolls v' p).mp hv').2
  · intro p
    simp only [hpolls, hdrive]
    by_cases hp : p = job.devicePosition
    · subst hp
      simp only [if_true, Bool.false_eq_true, false_iff]
      rintro ⟨v, hv, hpoll⟩
      exact hv (h.alone v w _ hpoll hmine)
    · rw [if_neg hp, h.busy p]
      refine exists_congr fun v => ⟨fun hpoll => ⟨?_, hpoll⟩, fun hpoll => hpoll.2⟩
      rintro rfl
      obtain ⟨job', hj', hp'⟩ := hpoll
      rw [State.job, hw] at hj'
      cases hj'
      exact hp hp'.symm
  · intro v ph hv
    rw [State.phase_finish] at hv
    split_ifs at hv with hvw
    · cases hv
      trivial
    · -- another worker polls another drive
      apply (h.timed v ph hv).cons
      intro job' hj' hsame
      have hother := State.polls_of_phase hv hj'
      rw [← hsame] at hother
      exact hvw (h.alone v w _ hother hmine)
  · intro p hp
    rcases List.mem_cons.mp hp with rfl | hp
    · exact ⟨_, Function.update_self .., le_rfl⟩
    · obtain ⟨d, hd, hclosed⟩ := h.closed p hp
      by_cases hsame : p.devicePosition = job.devicePosition
      · have hbefore := hspaced p hp hsame
        rw [hsame]
        refine ⟨_, Function.update_self .., ?_⟩
        dsimp only
        omega
      · exact ⟨d, (Function.update_of_ne hsame ..).trans hd, hclosed⟩
  · exact List.pairwise_cons.mpr ⟨hspaced, h.spaced⟩

end Exclusive

variable {s : State} {count : ℕ} {clock : ℤ}

theorem exclusive_step {a : Action} (h : Exclusive s) (ha : Enabled s a) :
    Exclusive (next count s a) := by
  cases a with
  | tick elapsed => exact h.tick elapsed
  | acquire o period => exact { h with }
  | release o => exact { h with }
  | start => exact h.start count
  | stop => exact { h with }
  | take w => exact h.take ha.1
  | startRead w job =>
    refine h.setPhase ha rfl ?_
    rintro _ ⟨⟩
    exact ⟨h.timed w _ ha, le_rfl⟩
  | endRead w job readStart result =>
    obtain ⟨hspaced, hstart⟩ := h.timed w _ ha
    refine h.setPhase ha rfl ?_
    rintro _ ⟨⟩
    exact ⟨hspaced, hstart, le_rfl⟩
  | finish w job readStart readEnd result => exact h.finish ha
  | exit w =>
    refine h.setPhase ha.1 rfl ?_
    rintro _ ⟨⟩

theorem exclusive_reachable (h : (system count clock).Reachable s) : Exclusive s :=
  h.invariant (Exclusive.initial count clock) fun _ _ hs ha _ => exclusive_step hs ha

theorem Exclusive.oneReader (h : Exclusive s) : OneReader s where
  busy position := by
    rw [h.busy position]
    constructor
    · rintro ⟨w, hw⟩
      exact ⟨w, hw, fun v hv => h.alone v w position hv hw⟩
    · rintro ⟨w, hw, -⟩
      exact ⟨w, hw⟩
  alone := h.alone
  spaced := h.spaced
  underWay := by
    intro w job readStart hjob hstart
    cases hphase : s.phase w with
    | none =>
      rw [hphase] at hstart
      cases hstart
    | some phase =>
      have htimed := h.timed w phase hphase
      rw [State.job, hphase] at hjob
      rw [hphase] at hstart
      cases phase with
      | waiting => cases hstart
      | taken job => cases hstart
      | reading job' readStart' =>
        cases hjob
        cases hstart
        exact htimed.1
      | returning job' readStart' readEnd result =>
        cases hjob
        cases hstart
        exact htimed.1

/-- In every state of every run each drive has at most one reader, is busy while it has one, and is
read at most half of the time. -/
theorem oneReader_of_reachable (h : (system count clock).Reachable s) : OneReader s :=
  (exclusive_reachable h).oneReader

/-- A poll that starts as soon as its job is taken. -/
def pollBy (w : ℕ) (job : Job) (readStart : ℤ) (took : ℕ) (result : Bool) : List Action :=
  [.take w, .startRead w job, .tick took, .endRead w job readStart result,
    .finish w job readStart (readStart + took) result]

def position : Object := ⟨1, 0x6064, 0⟩

def torque : Object := ⟨1, 0x6077, 0⟩

def Object.job (o : Object) (serial : ℕ) : Job :=
  ⟨makeKey o, o.devicePosition, o.index, o.subindex, serial⟩

/-- A second worker takes another object of a drive as soon as its gap is over. -/
def pollAfterGap : List Action :=
  [.start, .acquire position 100, .acquire torque 100] ++
    pollBy 0 (position.job 0) 0 3000000 true ++
    [.tick 3000000, .take 1, .startRead 1 (torque.job 1)]

theorem pollAfterGap_oneReader :
    (system kWorkerCount 0).Reachable
        ((system kWorkerCount 0).run (system kWorkerCount 0).initial pollAfterGap) ∧
      ((system kWorkerCount 0).run (system kWorkerCount 0).initial pollAfterGap).phase 1 =
        some (.reading (torque.job 1) 6000000) ∧
      OneReader ((system kWorkerCount 0).run (system kWorkerCount 0).initial pollAfterGap) := by
  have hf : (system kWorkerCount 0).Follows (fun _ _ => True) (system kWorkerCount 0).initial
      pollAfterGap := by
    decide +kernel
  exact ⟨⟨_, hf, rfl⟩, by decide +kernel, oneReader_of_reachable ⟨_, hf, rfl⟩⟩

end MotionMaster.Refresher
