import MotionMaster.Refresher.Exclusion

/-!
# Overtaking

Of the entries of a drive that are overdue when the drive opens, `takeDue` takes the first in the
map, whichever has been due for longest. On a drive whose reads take longer than the periods it
takes the same one each time. Where the first is also the oldest, no entry is passed twice by
another.
-/

namespace MotionMaster.Refresher

/-- No entry is passed twice by another before it is polled. An object that is released and acquired
again is another entry. -/
def Unstarved (s : State) : Prop :=
  ∀ (key : ℕ) (e : Entry), s.entries[key]? = some e → e.passed.Nodup

namespace State

/-- The entries of a drive that are due no later than the drive opens, in the order of the map. -/
def overdue (s : State) (position : BitVec 16) : List (ℕ × Entry) :=
  s.entries.toList.filter fun x =>
    x.2.devicePosition = position ∧ x.2.nextDue ≤ (s.drive position).openAt

/-- The first of the overdue entries has been due for longest. -/
def FirstIsOldest (s : State) (position : BitVec 16) : Prop :=
  ∀ x ∈ (s.overdue position).head?, ∀ y ∈ s.overdue position, x.2.nextDue ≤ y.2.nextDue
  deriving Decidable

end State

/-- A worker looks for a job while on each free drive the first of the overdue entries is the
oldest. -/
def ServesOldest (s : State) : Action → Prop
  | .take _ => ∀ x ∈ s.entries.toList, s.isFree x.2 = true → s.FirstIsOldest x.2.devicePosition
  | _ => True

instance (s : State) : ∀ a, Decidable (ServesOldest s a)
  | .take _ => inferInstanceAs (Decidable (∀ x ∈ s.entries.toList, _ → _))
  | .tick _ | .acquire _ _ | .release _ | .start | .stop | .startRead _ _ | .endRead _ _ _ _
  | .finish _ _ _ _ _ | .exit _ => isTrue trivial

/-! ### Keys -/

theorem makeKey_eq (o : Object) :
    makeKey o = o.devicePosition.toNat * 16777216 + (o.index.toNat * 256 + o.subindex.toNat) := by
  have hsub : o.subindex.toNat < 2 ^ 8 := o.subindex.isLt
  rw [makeKey, Nat.or_assoc, ← Nat.shiftLeft_add_eq_or_of_lt hsub,
    ← Nat.shiftLeft_add_eq_or_of_lt (by rw [Nat.shiftLeft_eq]; omega), Nat.shiftLeft_eq,
    Nat.shiftLeft_eq]

/-- Drives do not share keys. -/
theorem devicePosition_of_makeKey {o p : Object} (h : makeKey o = makeKey p) :
    o.devicePosition = p.devicePosition := by
  rw [makeKey_eq, makeKey_eq] at h
  apply BitVec.eq_of_toNat_eq
  omega

def drivesKey (key : ℕ) (position : BitVec 16) : Prop :=
  ∃ o : Object, makeKey o = key ∧ o.devicePosition = position

theorem drivesKey_unique {key : ℕ} {p q : BitVec 16} (hp : drivesKey key p) (hq : drivesKey key q) :
    p = q := by
  obtain ⟨o, ho, rfl⟩ := hp
  obtain ⟨o', ho', rfl⟩ := hq
  exact devicePosition_of_makeKey (ho.trans ho'.symm)

/-! ### The invariant -/

/-- The earliest time at which the read of a worker can have started. -/
def State.since (s : State) (w : ℕ) : ℤ := ((s.phase w).bind Phase.readStart).getD s.clock

/-- `key`, `e` is an entry and `key'`, `e'` one that has passed it. -/
structure Passed (s : State) (e : Entry) (key' : ℕ) (e' : Entry) : Prop where
  drive : e'.devicePosition = e.devicePosition
  /-- A poll of the other entry that is under way started when this one was due. -/
  started : ∀ w job, s.job w = some job → job.key = key' → e.nextDue ≤ s.since w
  /-- A poll that is over made the other entry due after this one. -/
  later : (∀ w job, s.job w = some job → job.key ≠ key') → e.nextDue < e'.nextDue

structure Passing (s : State) : Prop where
  keyed : ∀ (key : ℕ) (e : Entry), s.entries[key]? = some e → drivesKey key e.devicePosition
  jobs : ∀ w job, s.job w = some job → drivesKey job.key job.devicePosition
  serials : ∀ (key key' : ℕ) (e e' : Entry), s.entries[key]? = some e →
    s.entries[key']? = some e' → e.serial = e'.serial → key = key'
  created : ∀ (key : ℕ) (e : Entry), s.entries[key]? = some e →
    e.serial < s.created ∧ ∀ serial ∈ e.passed, serial < s.created
  paced : ∀ (key : ℕ) (e : Entry), s.entries[key]? = some e → 0 < e.period ∧ 0 ≤ e.backoff
  /-- Nothing passes an entry that is being polled. -/
  quiet : ∀ w job, s.job w = some job → ∀ e, s.entries[job.key]? = some e → e.passed = []
  nodup : ∀ (key : ℕ) (e : Entry), s.entries[key]? = some e → e.passed.Nodup
  passed : ∀ (key key' : ℕ) (e e' : Entry), s.entries[key]? = some e →
    s.entries[key']? = some e' → e'.serial ∈ e.passed → Passed s e key' e'

variable {s t : State} {count : ℕ} {clock : ℤ} {w : ℕ} {job : Job}

/-! ### Steps that take and finish nothing -/

/-- An entry after a step in which it is not polled and not passed. At most one entry, the one under
`key₀`, is new. -/
inductive Kept (s : State) (key₀ key : ℕ) (e : Entry) : Prop
  | old {e₀ : Entry} (h : s.entries[key]? = some e₀)
      (hposition : e.devicePosition = e₀.devicePosition)
      (hserial : e.serial = e₀.serial) (hdue : e.nextDue = e₀.nextDue)
      (hpassed : e.passed = e₀.passed)
  | new (hkey : key = key₀) (hposition : drivesKey key e.devicePosition)
      (hserial : e.serial = s.created) (hpassed : e.passed = [])

section Steady

variable {key₀ key key' : ℕ} {e e' : Entry}

/-- A new serial is not the one of an old entry. -/
theorem Passing.serials_kept (h : Passing s) (hkept : Kept s key₀ key e)
    (hkept' : Kept s key₀ key' e') (hsame : e.serial = e'.serial) : key = key' := by
  cases hkept with
  | old h₀ _ hs₀ =>
    cases hkept' with
    | old h₁ _ hs₁ => exact h.serials key key' _ _ h₀ h₁ (hs₀.symm.trans (hsame.trans hs₁))
    | new _ _ hs₁ =>
      have hlt := (h.created key _ h₀).1
      omega
  | new hk₀ _ hs₀ =>
    cases hkept' with
    | old h₁ _ hs₁ =>
      have hlt := (h.created key' _ h₁).1
      omega
    | new hk₁ => exact hk₀.trans hk₁.symm

/-- A new entry has not been passed and has passed nothing. -/
theorem Passing.passed_kept (h : Passing s) (hjob : ∀ w, t.job w = s.job w)
    (hsince : ∀ w, s.since w ≤ t.since w) (hkept : Kept s key₀ key e)
    (hkept' : Kept s key₀ key' e') (hmem : e'.serial ∈ e.passed) : Passed t e key' e' := by
  cases hkept with
  | new _ _ _ hp₀ =>
    rw [hp₀] at hmem
    cases hmem
  | old h₀ hpos₀ _ hd₀ hp₀ =>
    rw [hp₀] at hmem
    cases hkept' with
    | new _ _ hs₁ =>
      have hlt := (h.created key _ h₀).2 _ hmem
      omega
    | old h₁ hpos₁ hs₁ hd₁ =>
      rw [hs₁] at hmem
      have hpast := h.passed key key' _ _ h₀ h₁ hmem
      refine ⟨by rw [hpos₁, hpos₀, hpast.drive], ?_, ?_⟩
      · intro w job hw hk
        rw [hjob] at hw
        rw [hd₀]
        exact (hpast.started w job hw hk).trans (hsince w)
      · intro hnone
        rw [hd₀, hd₁]
        exact hpast.later fun w job hw => hnone w job (by rw [hjob]; exact hw)

theorem Passing.steady (h : Passing s) (hjob : ∀ w, t.job w = s.job w)
    (hsince : ∀ w, s.since w ≤ t.since w) (hcreated : s.created ≤ t.created) (key₀ : ℕ)
    (hkept : ∀ (key : ℕ) (e : Entry), t.entries[key]? = some e → Kept s key₀ key e)
    (hpaced : ∀ (key : ℕ) (e : Entry), t.entries[key]? = some e → 0 < e.period ∧ 0 ≤ e.backoff)
    (hnew : ∀ (key : ℕ) (e : Entry), t.entries[key]? = some e → e.serial = s.created →
      s.created < t.created) : Passing t := by
  constructor
  · intro key e he
    cases hkept key e he with
    | old h₀ hposition =>
      rw [hposition]
      exact h.keyed key _ h₀
    | new _ hposition => exact hposition
  · intro w job hw
    rw [hjob] at hw
    exact h.jobs w job hw
  · intro key key' e e' he he' hsame
    exact h.serials_kept (hkept key e he) (hkept key' e' he') hsame
  · intro key e he
    cases hkept key e he with
    | old h₀ _ hs₀ _ hp₀ =>
      obtain ⟨hlt, hall⟩ := h.created key _ h₀
      rw [hs₀, hp₀]
      exact ⟨by omega, fun serial hmem => (hall serial hmem).trans_le hcreated⟩
    | new _ _ hs₀ hp₀ =>
      rw [hp₀, hs₀]
      exact ⟨hnew key e he hs₀, by simp⟩
  · exact hpaced
  · intro w job hw e he
    rw [hjob] at hw
    cases hkept job.key e he with
    | old h₀ _ _ _ hp₀ => exact hp₀.trans (h.quiet w job hw _ h₀)
    | new _ _ _ hp₀ => exact hp₀
  · intro key e he
    cases hkept key e he with
    | old h₀ _ _ _ hp₀ =>
      rw [hp₀]
      exact h.nodup key _ h₀
    | new _ _ _ hp₀ =>
      rw [hp₀]
      exact List.nodup_nil
  · intro key key' e e' he he' hmem
    exact h.passed_kept hjob hsince (hkept key e he) (hkept key' e' he') hmem

end Steady

theorem job_setPhase {phase : Phase} {phase' : Option Phase} (hw : s.phase w = some phase)
    (hjob : phase'.bind Phase.job = phase.job) (v : ℕ) :
    (s.setPhase w phase').job v = s.job v := by
  by_cases hv : v = w
  · subst hv
    simp [State.job, hw, hjob]
  · simp [State.job, hv]

theorem since_setPhase {phase : Phase} {phase' : Option Phase} (hw : s.phase w = some phase)
    (hle : phase.readStart.getD s.clock ≤ (phase'.bind Phase.readStart).getD s.clock) (v : ℕ) :
    s.since v ≤ (s.setPhase w phase').since v := by
  by_cases hv : v = w
  · subst hv
    simpa [State.since, hw, State.setPhase] using hle
  · simp [State.since, hv, State.setPhase]

theorem Passing.initial (count : ℕ) (clock : ℤ) : Passing (system count clock).initial := by
  constructor
  · intro key e he
    cases he
  · intro w job hw
    cases hw
  · intro key key' e e' he
    cases he
  · intro key e he
    cases he
  · intro key e he
    cases he
  · intro w job hw
    cases hw
  · intro key e he
    cases he
  · intro key key' e e' he
    cases he

theorem Passing.untouched (h : Passing s) (hjob : ∀ w, t.job w = s.job w)
    (hsince : ∀ w, s.since w ≤ t.since w) (hentries : t.entries = s.entries)
    (hcreated : t.created = s.created) : Passing t := by
  refine h.steady hjob hsince hcreated.ge 0 ?_ ?_ ?_
  · intro key e he
    rw [hentries] at he
    exact .old he rfl rfl rfl rfl
  · rw [hentries]
    exact h.paced
  · intro key e he heq
    rw [hentries] at he
    have hlt := (h.created key e he).1
    omega

theorem Passing.acquire (h : Passing s) (o : Object) (period : ℤ) :
    Passing (s.acquire o period) := by
  have hfloor : 0 < max period kMinRefreshPeriod :=
    lt_of_lt_of_le (by decide) (le_max_right _ _)
  have hstep : ∀ (key : ℕ) (e : Entry), (s.acquire o period).entries[key]? = some e →
      Kept s (makeKey o) key e ∧ 0 < e.period ∧ 0 ≤ e.backoff := by
    intro key e he
    cases entry_step 0 (.acquire o period) he with
    | same _ hs => exact ⟨.old hs rfl rfl rfl rfl, h.paced key e hs⟩
    | acquire hk hs =>
      cases hold : s.entries[key]? with
      | none =>
        rw [hold] at hs
        cases hs
        exact ⟨.new hk.symm ⟨o, hk, rfl⟩ rfl rfl, hfloor, le_rfl⟩
      | some f =>
        rw [hold] at hs
        cases hs
        have hpaced := h.paced key f hold
        exact ⟨.old hold rfl rfl rfl rfl, lt_min hpaced.1 hfloor, hpaced.2⟩
  exact h.steady (fun _ => rfl) (fun _ => le_rfl) (Nat.le_succ _) _
    (fun key e he => (hstep key e he).1) (fun key e he => (hstep key e he).2)
    fun _ _ _ _ => Nat.lt_succ_self _

theorem Passing.release (h : Passing s) (o : Object) : Passing (s.release o) := by
  have hstep : ∀ (key : ℕ) (e : Entry), (s.release o).entries[key]? = some e →
      ∃ e₀, s.entries[key]? = some e₀ ∧ ∃ refCount, e = { e₀ with refCount } := by
    intro key e he
    cases entry_step 0 (.release o) he with
    | same _ hs => exact ⟨e, hs, e.refCount, rfl⟩
    | release refCount hs => exact ⟨_, hs, refCount, rfl⟩
  refine h.steady (fun _ => rfl) (fun _ => le_rfl) le_rfl 0 ?_ ?_ ?_
  · intro key e he
    obtain ⟨e₀, he₀, refCount, rfl⟩ := hstep key e he
    exact .old he₀ rfl rfl rfl rfl
  · intro key e he
    obtain ⟨e₀, he₀, refCount, rfl⟩ := hstep key e he
    exact h.paced key e₀ he₀
  · intro key e he heq
    obtain ⟨e₀, he₀, refCount, rfl⟩ := hstep key e he
    have hlt := (h.created key e₀ he₀).1
    dsimp only at heq
    omega

/-! ### The end of a poll -/

theorem lt_polled {e : Entry} (h : 0 < e.period ∧ 0 ≤ e.backoff) (readStart : ℤ) (result : Bool) :
    readStart < (e.polled readStart result).nextDue ∧
      0 < (e.polled readStart result).period ∧ 0 ≤ (e.polled readStart result).backoff := by
  have hback : 0 < nextBackoff e.backoff e.period := by
    unfold nextBackoff kMaxBackoff
    dsimp only
    split_ifs <;> omega
  cases result with
  | true =>
    simp only [Entry.polled, if_true, ms]
    omega
  | false =>
    simp only [Entry.polled, Bool.false_eq_true, if_false, ms]
    omega

section Finish

variable {readStart readEnd : ℤ} {result : Bool}

theorem job_finish (v : ℕ) : (s.finish w job readStart readEnd result).job v =
    if v = w then none else s.job v := by
  rw [State.job, State.phase_finish]
  split_ifs <;> rfl

theorem since_finish {v : ℕ} (hv : v ≠ w) :
    (s.finish w job readStart readEnd result).since v = s.since v := by
  rw [State.since, State.phase_finish, if_neg hv]
  rfl

theorem job_of_job_finish {v : ℕ} {job' : Job}
    (hv : (s.finish w job readStart readEnd result).job v = some job') :
    v ≠ w ∧ s.job v = some job' := by
  rw [job_finish] at hv
  split_ifs at hv with hvw
  exact ⟨hvw, hv⟩

/-- What the end of a poll of `polled` that began at `readStart` leaves of an entry. -/
structure Ended (polled : ℕ) (readStart : ℤ) (key : ℕ) (e₀ e : Entry) : Prop where
  position : e.devicePosition = e₀.devicePosition
  serial : e.serial = e₀.serial
  passed : e.passed = e₀.passed
  paced : 0 < e.period ∧ 0 ≤ e.backoff
  due : key ≠ polled → e.nextDue = e₀.nextDue
  later : key = polled → readStart < e.nextDue

theorem Passing.ended (h : Passing s) {key : ℕ} {e : Entry}
    (he : (s.finish w job readStart readEnd result).entries[key]? = some e) :
    ∃ e₀, s.entries[key]? = some e₀ ∧ Ended job.key readStart key e₀ e := by
  cases entry_step 0 (.finish w job readStart readEnd result) he with
  | same hk hs =>
    exact ⟨e, hs, rfl, rfl, rfl, h.paced key e hs, fun _ => rfl, fun heq => absurd heq.symm hk⟩
  | @finish _ _ _ _ _ e₀ hk hs =>
    have hlt := lt_polled (h.paced key e₀ hs) readStart result
    refine ⟨e₀, hs, ?_, ?_, ?_, hlt.2, fun hne => absurd hk.symm hne, fun _ => hlt.1⟩
    all_goals cases result <;> rfl

/-- What had passed an entry still has: the entry that was polled is due after the start of the
poll. -/
theorem Passing.passed_finish (h : Passing s)
    (hw : s.phase w = some (.returning job readStart readEnd result)) {key key' : ℕ}
    {e₀ e₁ e e' : Entry} (he₀ : s.entries[key]? = some e₀) (he₁ : s.entries[key']? = some e₁)
    (hend : Ended job.key readStart key e₀ e) (hend' : Ended job.key readStart key' e₁ e')
    (hmem : e₁.serial ∈ e₀.passed) :
    Passed (s.finish w job readStart readEnd result) e key' e' := by
  have hmine : s.job w = some job := by
    rw [State.job, hw]
    rfl
  have hpast := h.passed key key' e₀ e₁ he₀ he₁ hmem
  have hne : key ≠ job.key := by
    rintro rfl
    rw [h.quiet w job hmine e₀ he₀] at hmem
    cases hmem
  refine ⟨by rw [hend.position, hend'.position, hpast.drive], ?_, ?_⟩
  · intro v job' hv hk
    obtain ⟨hvw, hv'⟩ := job_of_job_finish hv
    rw [hend.due hne, since_finish hvw]
    exact hpast.started v job' hv' hk
  · intro hnone
    rw [hend.due hne]
    by_cases hk : key' = job.key
    · have hstart := hpast.started w job hmine hk.symm
      have hsince : s.since w = readStart := by simp [State.since, hw, Phase.readStart]
      have hlt := hend'.later hk
      omega
    · rw [hend'.due hk]
      apply hpast.later
      intro v job' hv hkv
      by_cases hvw : v = w
      · subst hvw
        rw [hmine] at hv
        cases hv
        exact hk hkv.symm
      · exact hnone v job' (by rw [job_finish, if_neg hvw]; exact hv) hkv

theorem Passing.finish (h : Passing s)
    (hw : s.phase w = some (.returning job readStart readEnd result)) :
    Passing (s.finish w job readStart readEnd result) := by
  constructor
  · intro key e he
    obtain ⟨e₀, he₀, hend⟩ := h.ended he
    rw [hend.position]
    exact h.keyed key e₀ he₀
  · intro v job' hv
    exact h.jobs v job' (job_of_job_finish hv).2
  · intro key key' e e' he he' hsame
    obtain ⟨e₀, he₀, hend⟩ := h.ended he
    obtain ⟨e₁, he₁, hend'⟩ := h.ended he'
    exact h.serials key key' e₀ e₁ he₀ he₁ (hend.serial.symm.trans (hsame.trans hend'.serial))
  · intro key e he
    obtain ⟨e₀, he₀, hend⟩ := h.ended he
    rw [hend.serial, hend.passed]
    exact h.created key e₀ he₀
  · intro key e he
    obtain ⟨e₀, -, hend⟩ := h.ended he
    exact hend.paced
  · intro v job' hv e he
    obtain ⟨e₀, he₀, hend⟩ := h.ended he
    exact hend.passed.trans (h.quiet v job' (job_of_job_finish hv).2 e₀ he₀)
  · intro key e he
    obtain ⟨e₀, he₀, hend⟩ := h.ended he
    rw [hend.passed]
    exact h.nodup key e₀ he₀
  · intro key key' e e' he he' hmem
    obtain ⟨e₀, he₀, hend⟩ := h.ended he
    obtain ⟨e₁, he₁, hend'⟩ := h.ended he'
    rw [hend.passed, hend'.serial] at hmem
    exact h.passed_finish hw he₀ he₁ hend hend' hmem

end Finish

/-! ### Taking a job -/

/-- Where the first of the overdue entries is the oldest, the entry that is taken has been due for
longest on its drive. -/
theorem oldest_taken {now : ℤ} (ht : s.takeDue now = some job)
    (hserves : ∀ x ∈ s.entries.toList, s.isFree x.2 = true → s.FirstIsOldest x.2.devicePosition)
    {key : ℕ} {e f : Entry} (he : s.entries[key]? = some e)
    (hposition : e.devicePosition = job.devicePosition) (hf : s.entries[job.key]? = some f) :
    f.nextDue ≤ e.nextDue := by
  obtain ⟨f', hf', hjob, hfree, -, hleast⟩ := State.takeDue_spec ht
  obtain rfl : f' = f := Option.some.inj (hf'.symm.trans hf)
  have hpos : job.devicePosition = f'.devicePosition := by rw [hjob]; rfl
  have hfree' : s.isFree e = true := by
    rw [State.isFree_iff, hposition, hpos]
    exact State.isFree_iff.mp hfree
  have hdue := (hleast key e he hfree').1
  by_contra hlt
  cases hd : s.drives f'.devicePosition with
  | none =>
    simp only [State.dueAt, hposition, hpos, hd] at hdue
    omega
  | some d =>
    have hdrive := State.drive_of_some hd
    simp only [State.dueAt, hposition, hpos, hd] at hdue
    -- both are overdue when the drive opens, so the first of the overdue entries is as old as each
    have hmem : ∀ k g, s.entries[k]? = some g → g.devicePosition = f'.devicePosition →
        g.nextDue ≤ d.openAt → (k, g) ∈ s.overdue f'.devicePosition := by
      intro k g hg hsame hle
      refine List.mem_filter.mpr ⟨State.mem_entries.mpr hg, ?_⟩
      simpa [hdrive] using ⟨hsame, hle⟩
    have hin := hmem job.key f' hf' rfl (by omega)
    have hin' := hmem key e he (hposition.trans hpos) (by omega)
    have hsorted : (s.overdue f'.devicePosition).Pairwise fun a b => a.1 < b.1 :=
      State.entries_sorted.filter _
    have hfirst := hserves _ (State.mem_entries.mpr hf') hfree
    cases hover : s.overdue f'.devicePosition with
    | nil =>
      rw [hover] at hin
      cases hin
    | cons x rest =>
      have hx : x ∈ s.overdue f'.devicePosition := by
        rw [hover]
        exact List.mem_cons_self
      have hold := hfirst x (by rw [hover]; rfl)
      rw [hover] at hin hsorted
      rcases List.mem_cons.mp hin with heq | hrest
      · have hle := hold _ hin'
        rw [← heq] at hle
        exact hlt hle
      · -- an overdue entry before the one that is taken would have been taken
        have hbefore := (List.pairwise_cons.mp hsorted).1 _ hrest
        obtain ⟨hx', hover'⟩ := List.mem_filter.mp hx
        simp only [hdrive, decide_eq_true_eq] at hover'
        have hxfree : s.isFree x.2 = true := by
          rw [State.isFree_iff, hover'.1]
          exact State.isFree_iff.mp hfree
        have hstrict := (hleast x.1 x.2 (State.mem_entries.mp hx') hxfree).2 hbefore
        simp only [State.dueAt, hover'.1, hd] at hstrict
        omega

theorem pass_spec (e : Entry) (job : Job) (now : ℤ) (key : ℕ) :
    (e.pass job now key).devicePosition = e.devicePosition ∧
      (e.pass job now key).serial = e.serial ∧ (e.pass job now key).nextDue = e.nextDue ∧
      (e.pass job now key).period = e.period ∧ (e.pass job now key).backoff = e.backoff := by
  unfold Entry.pass
  split_ifs <;> exact ⟨rfl, rfl, rfl, rfl, rfl⟩

theorem pass_passed (e : Entry) (job : Job) (now : ℤ) (key : ℕ) :
    (e.pass job now key).passed =
      if key = job.key then []
      else if e.devicePosition = job.devicePosition ∧ e.nextDue ≤ now then job.serial :: e.passed
      else e.passed := by
  unfold Entry.pass
  split_ifs <;> rfl

/-- A job that is taken is of a drive nobody polls. -/
theorem Exclusive.not_polled (hx : Exclusive s) {now : ℤ} (ht : s.takeDue now = some job)
    {v : ℕ} {job' : Job} (hv : s.job v = some job') :
    job'.devicePosition ≠ job.devicePosition := by
  obtain ⟨f, -, hjob, hfree, -⟩ := State.takeDue_spec ht
  have hpos : job.devicePosition = f.devicePosition := by rw [hjob]; rfl
  intro hsame
  have hbusy := (hx.busy job.devicePosition).mpr ⟨v, job', hv, hsame⟩
  rw [hpos, State.isFree_iff.mp hfree] at hbusy
  cases hbusy

/-- What a worker's look changes when it finds a job. -/
structure Takes (s : State) (w : ℕ) (job : Job) (f : Entry) : Prop where
  entry : s.entries[job.key]? = some f
  position : job.devicePosition = f.devicePosition
  serial : job.serial = f.serial
  due : f.nextDue ≤ s.clock
  /-- Nobody polled the entry, or anything else of its drive. -/
  apart : ∀ v job', s.job v = some job' →
    job'.devicePosition ≠ job.devicePosition ∧ job'.key ≠ job.key
  phase : ∀ v, (s.take w).phase v = if v = w then some (.taken job) else s.phase v
  clock : (s.take w).clock = s.clock
  created : (s.take w).created = s.created
  entries : ∀ (key : ℕ) (e : Entry), (s.take w).entries[key]? = some e →
    ∃ e₀, s.entries[key]? = some e₀ ∧ e = e₀.pass job s.clock key

theorem takes_of_takeDue (h : Passing s) (hx : Exclusive s) (w : ℕ)
    (ht : s.takeDue s.clock = some job) : ∃ f, Takes s w job f := by
  obtain ⟨f, hf, hjob, hfree, hdue, -⟩ := State.takeDue_spec ht
  have hposition : job.devicePosition = f.devicePosition := by rw [hjob]; rfl
  have hkey : drivesKey job.key job.devicePosition := hposition ▸ h.keyed job.key f hf
  have hserial : job.serial = f.serial := by rw [hjob]; rfl
  refine ⟨f, hf, hposition, hserial, State.nextDue_le_dueAt.trans hdue, ?_, ?_, ?_, ?_, ?_⟩
  · intro v job' hv
    have hother := hx.not_polled ht hv
    refine ⟨hother, fun hk => hother ?_⟩
    exact drivesKey_unique (hk ▸ h.jobs v job' hv) hkey
  · intro v
    rw [State.take, ht]
    exact State.phase_setPhase
  · rw [State.take, ht]
    rfl
  · rw [State.take, ht]
    rfl
  · intro key e he
    cases entry_step 0 (.take w) he with
    | same hk _ =>
      have htouches : s.takeDue s.clock ≠ none := by
        rw [ht]
        exact Option.some_ne_none _
      exact absurd htouches hk
    | take ht' hs =>
      rw [ht] at ht'
      cases ht'
      exact ⟨_, hs, rfl⟩

namespace Takes

variable {f e e' : Entry} {key key' : ℕ}

theorem job_cases (hT : Takes s w job f) {v : ℕ} {job' : Job}
    (hv : (s.take w).job v = some job') :
    v = w ∧ job' = job ∨ v ≠ w ∧ s.job v = some job' := by
  rw [State.job, hT.phase] at hv
  split_ifs at hv with hvw
  · cases hv
    exact .inl ⟨hvw, rfl⟩
  · exact .inr ⟨hvw, hv⟩

theorem since (hT : Takes s w job f) (v : ℕ) :
    (s.take w).since v = if v = w then s.clock else s.since v := by
  rw [State.since, hT.phase, hT.clock]
  split_ifs <;> rfl

/-- An entry the job has passed before is older than the job's. -/
theorem older (hT : Takes s w job f) (h : Passing s) (he : s.entries[key]? = some e)
    (hmem : job.serial ∈ e.passed) : e.nextDue < f.nextDue := by
  rw [hT.serial] at hmem
  exact (h.passed key job.key e f he hT.entry hmem).later fun v job' hv => (hT.apart v job' hv).2

/-- The job passes an entry of its drive that is due. -/
theorem passes (hT : Takes s w job f) (hposition : e.devicePosition = job.devicePosition)
    (hdue : e.nextDue ≤ s.clock) :
    Passed (s.take w) (e.pass job s.clock key) job.key (f.pass job s.clock job.key) := by
  obtain ⟨hpos, -, hsame, -⟩ := pass_spec e job s.clock key
  refine ⟨?_, ?_, ?_⟩
  · rw [hpos, (pass_spec f job s.clock job.key).1, hposition, hT.position]
  · intro v job' hv hk
    rcases hT.job_cases hv with ⟨rfl, -⟩ | ⟨-, hv'⟩
    · rw [hsame, hT.since, if_pos rfl]
      exact hdue
    · exact absurd hk (hT.apart v job' hv').2
  · intro hnone
    refine absurd rfl (hnone w job ?_)
    rw [State.job, hT.phase, if_pos rfl]
    rfl

/-- What had passed an entry still has. -/
theorem passed (hT : Takes s w job f) (h : Passing s) (hw : s.phase w = some .waiting)
    (he : s.entries[key]? = some e) (he' : s.entries[key']? = some e')
    (hmem : e'.serial ∈ e.passed) :
    Passed (s.take w) (e.pass job s.clock key) key' (e'.pass job s.clock key') := by
  obtain ⟨hpos, -, hdue, -⟩ := pass_spec e job s.clock key
  obtain ⟨hpos', -, hdue', -⟩ := pass_spec e' job s.clock key'
  have hpast := h.passed key key' e e' he he' hmem
  refine ⟨by rw [hpos, hpos', hpast.drive], ?_, ?_⟩
  · intro v job' hv hk
    rw [hdue, hT.since]
    rcases hT.job_cases hv with ⟨rfl, rfl⟩ | ⟨hvw, hv'⟩
    · subst hk
      obtain rfl : e' = f := Option.some.inj (he'.symm.trans hT.entry)
      have hlt := hT.older h he (hT.serial ▸ hmem)
      rw [if_pos rfl]
      exact hlt.le.trans hT.due
    · rw [if_neg hvw]
      exact hpast.started v job' hv' hk
  · intro hnone
    rw [hdue, hdue']
    apply hpast.later
    intro v job' hv
    have hvw : v ≠ w := by
      rintro rfl
      rw [State.job, hw] at hv
      cases hv
    exact hnone v job' (by rw [State.job, hT.phase, if_neg hvw]; exact hv)

end Takes

theorem Passing.take (h : Passing s) (hx : Exclusive s) (hw : s.phase w = some .waiting)
    (hserves : ServesOldest s (.take w)) : Passing (s.take w) := by
  cases ht : s.takeDue s.clock with
  | none =>
    rw [State.take, ht]
    exact h
  | some job =>
  obtain ⟨f, hT⟩ := takes_of_takeDue h hx w ht
  constructor
  · intro key e he
    obtain ⟨e₀, he₀, rfl⟩ := hT.entries key e he
    rw [(pass_spec e₀ job s.clock key).1]
    exact h.keyed key e₀ he₀
  · intro v job' hv
    rcases hT.job_cases hv with ⟨-, rfl⟩ | ⟨-, hv'⟩
    · exact hT.position ▸ h.keyed job'.key f hT.entry
    · exact h.jobs v job' hv'
  · intro key key' e e' he he' hsame
    obtain ⟨e₀, he₀, rfl⟩ := hT.entries key e he
    obtain ⟨e₁, he₁, rfl⟩ := hT.entries key' e' he'
    rw [(pass_spec e₀ job s.clock key).2.1, (pass_spec e₁ job s.clock key').2.1] at hsame
    exact h.serials key key' e₀ e₁ he₀ he₁ hsame
  · intro key e he
    obtain ⟨e₀, he₀, rfl⟩ := hT.entries key e he
    obtain ⟨hlt, hall⟩ := h.created key e₀ he₀
    rw [(pass_spec e₀ job s.clock key).2.1, pass_passed, hT.created]
    refine ⟨hlt, ?_⟩
    split_ifs
    · simp
    · intro serial hmem
      rcases List.mem_cons.mp hmem with rfl | hmem
      · rw [hT.serial]
        exact (h.created job.key f hT.entry).1
      · exact hall serial hmem
    · exact hall
  · intro key e he
    obtain ⟨e₀, he₀, rfl⟩ := hT.entries key e he
    obtain ⟨-, -, -, hperiod, hbackoff⟩ := pass_spec e₀ job s.clock key
    rw [hperiod, hbackoff]
    exact h.paced key e₀ he₀
  · intro v job' hv e he
    obtain ⟨e₀, he₀, rfl⟩ := hT.entries job'.key e he
    rw [pass_passed]
    rcases hT.job_cases hv with ⟨-, rfl⟩ | ⟨-, hv'⟩
    · rw [if_pos rfl]
    · obtain ⟨hdrive, hkey⟩ := hT.apart v job' hv'
      have hother : e₀.devicePosition ≠ job.devicePosition := by
        rw [drivesKey_unique (h.keyed _ e₀ he₀) (h.jobs v job' hv')]
        exact hdrive
      rw [if_neg hkey, if_neg fun hp => hother hp.1]
      exact h.quiet v job' hv' e₀ he₀
  · intro key e he
    obtain ⟨e₀, he₀, rfl⟩ := hT.entries key e he
    rw [pass_passed]
    split_ifs with hk hp
    · exact List.nodup_nil
    · refine List.nodup_cons.mpr ⟨?_, h.nodup key e₀ he₀⟩
      intro hmem
      have hlt := hT.older h he₀ hmem
      have hle := oldest_taken ht hserves he₀ hp.1 hT.entry
      omega
    · exact h.nodup key e₀ he₀
  · intro key key' e e' he he' hmem
    obtain ⟨e₀, he₀, rfl⟩ := hT.entries key e he
    obtain ⟨e₁, he₁, rfl⟩ := hT.entries key' e' he'
    rw [(pass_spec e₁ job s.clock key').2.1, pass_passed] at hmem
    split_ifs at hmem with hk hp
    · cases hmem
    · rcases List.mem_cons.mp hmem with hself | hmem
      · have hkey' : key' = job.key :=
          h.serials key' job.key e₁ f he₁ hT.entry (hself.trans hT.serial)
        subst hkey'
        obtain rfl : e₁ = f := Option.some.inj (he₁.symm.trans hT.entry)
        exact hT.passes hp.1 hp.2
      · exact hT.passed h hw he₀ he₁ hmem
    · exact hT.passed h hw he₀ he₁ hmem

/-! ### Runs -/

theorem passing_step {a : Action} (h : Passing s) (hx : Exclusive s) (ha : Enabled s a)
    (hc : ServesOldest s a) : Passing (next count s a) := by
  cases a with
  | tick elapsed =>
    refine h.untouched (fun _ => rfl) (fun v => ?_) rfl rfl
    cases hr : (s.phase v).bind Phase.readStart with
    | none => simp [State.since, next, hr]
    | some readStart => simp [State.since, next, hr]
  | acquire o period => exact h.acquire o period
  | release o => exact h.release o
  | start =>
    rw [next, State.start]
    split_ifs
    · exact h
    have hphase : ∀ v, (s.launch count).phase v = if s.launched ≤ v ∧ v < s.launched + count then
        some .waiting else s.phase v := fun _ => rfl
    refine h.untouched (fun v => ?_) (fun v => ?_) rfl rfl
    · simp only [State.job, hphase]
      split_ifs with hv
      · rw [hx.unlaunched v hv.1]
        rfl
      · rfl
    · simp only [State.since, hphase]
      split_ifs with hv
      · rw [hx.unlaunched v hv.1]
        rfl
      · rfl
  | stop => exact h.untouched (fun _ => rfl) (fun _ => le_rfl) rfl rfl
  | take w => exact h.take hx ha.1 hc
  | startRead w job =>
    exact h.untouched (job_setPhase ha rfl) (since_setPhase ha le_rfl) rfl rfl
  | endRead w job readStart result =>
    exact h.untouched (job_setPhase ha rfl) (since_setPhase ha le_rfl) rfl rfl
  | finish w job readStart readEnd result => exact h.finish ha
  | exit w => exact h.untouched (job_setPhase ha.1 rfl) (since_setPhase ha.1 le_rfl) rfl rfl

/-- As long as the workers find the oldest entry of a drive first, no entry is passed twice. -/
theorem unstarved_of_servesOldest (h : (system count clock).ReachableUnder ServesOldest s) :
    Unstarved s := by
  have hpassing := h.invariant (I := fun s => Exclusive s ∧ Passing s)
    ⟨Exclusive.initial count clock, Passing.initial count clock⟩
    fun _ _ hs ha hc => ⟨exclusive_step hs.1 ha, passing_step hs.2 hs.1 ha hc⟩
  exact hpassing.2.nodup

/-- Reads that are short against the period: the first object is due again after the second. -/
def quickDrive : List Action :=
  [.start, .acquire position 10, .acquire torque 10] ++ pollBy 0 (position.job 0) 0 1000000 true ++
    [.tick 1000000] ++ pollBy 1 (torque.job 1) 2000000 1000000 true

theorem quickDrive_unstarved :
    Unstarved ((system kWorkerCount 0).run (system kWorkerCount 0).initial quickDrive) := by
  have hf : (system kWorkerCount 0).Follows ServesOldest (system kWorkerCount 0).initial
      quickDrive := by
    decide +kernel
  exact unstarved_of_servesOldest ⟨_, hf, rfl⟩

/-- Reads of 20 ms and periods of 10 ms. Each time the drive opens both objects are overdue, and the
first in the map is read again. -/
def slowDrive : List Action :=
  [.start, .acquire position 10, .acquire torque 10] ++ pollBy 0 (position.job 0) 0 20000000 true ++
    [.tick 20000000] ++ pollBy 0 (position.job 0) 40000000 20000000 true

theorem slowDrive_not_unstarved :
    ∃ s, (system kWorkerCount 0).Reachable s ∧ ¬ Unstarved s := by
  have hf : (system kWorkerCount 0).Follows (fun _ _ => True) (system kWorkerCount 0).initial
      slowDrive := by
    decide +kernel
  refine ⟨_, ⟨_, hf, rfl⟩, ?_⟩
  intro h
  obtain ⟨e, he, hpassed⟩ : ∃ e, ((system kWorkerCount 0).run
      (system kWorkerCount 0).initial slowDrive).entries[makeKey torque]? = some e ∧
      e.passed = [0, 0] :=
    ⟨_, rfl, by decide +kernel⟩
  have hnodup := h _ e he
  rw [hpassed] at hnodup
  exact absurd hnodup (by decide)

end MotionMaster.Refresher
