import MotionMaster.Lib.Files
import MotionMaster.Lib.Interleaving

/-!
# Replacing the certificate and its key

`fetchAndSwapCert` downloads a pair, validates it and installs the key, then the certificate, each
written to a temporary file that is renamed. Any number of calls run at once. They share the names
of the temporary files, and nothing undoes the first rename if the second does not happen.
-/

namespace MotionMaster.CertUpdater

abbrev Bytes := List (BitVec 8)

inductive Kind where
  | key | cert
  deriving DecidableEq

/-- A file, and the temporary file beside it. -/
inductive Name where
  | live (k : Kind)
  | temp (k : Kind)
  deriving DecidableEq

structure Pair where
  certPem : Bytes
  keyPem : Bytes
  deriving DecidableEq

def Pair.text (pair : Pair) : Kind → Bytes
  | .key => pair.keyPem
  | .cert => pair.certPem

/-- Where a call stands. A call that writes has the inode it opened and the bytes it has written. -/
inductive Phase where
  | idle
  | fetching
  | opening (k : Kind) (pair : Pair)
  | writing (k : Kind) (pair : Pair) (inode written : ℕ)
  | replacing (k : Kind) (pair : Pair)
  | finished (ok : Bool)
  deriving DecidableEq

inductive Event where
  | start
  | download (pair : Pair)
  | openTemp
  | write (count : ℕ)
  /-- The destructor of the stream. What it fails to flush goes unnoticed. -/
  | close
  | rename
  /-- A download, an `open`, a `write` or a `rename` fails. -/
  | fail
  deriving DecidableEq

structure State where
  files : FileSystem Name (BitVec 8)
  calls : ℕ → Phase
  /-- The pairs that passed `validatePair`. -/
  validated : List Pair

def State.goto (s : State) (i : ℕ) (phase : Phase) : State :=
  { s with calls := Function.update s.calls i phase }

/-- What follows the rename of `writeAtomic`. -/
def installed (pair : Pair) : Kind → Phase
  | .key => .opening .cert pair
  | .cert => .finished true

def Enabled (s : State) (a : ℕ × Event) : Prop :=
  match s.calls a.1, a.2 with
  | .idle, .start => True
  | .fetching, .download _ | .fetching, .fail => True
  | .opening _ _, .openTemp | .opening _ _, .fail => True
  | .writing k pair _ written, .write count => written + count ≤ (pair.text k).length
  | .writing _ _ _ _, .close | .writing _ _ _ _, .fail => True
  | .replacing _ _, .rename | .replacing _ _, .fail => True
  | _, _ => False

variable (validatePair : Pair → Bool)

def next (s : State) (a : ℕ × Event) : State :=
  let i := a.1
  match s.calls i, a.2 with
  | .idle, .start => s.goto i .fetching
  | .fetching, .download pair =>
    if validatePair pair then
      { s.goto i (.opening .key pair) with validated := pair :: s.validated }
    else s.goto i (.finished false)
  | .opening k pair, .openTemp =>
    { s.goto i (.writing k pair (s.files.inodeFor (.temp k)) 0) with
      files := s.files.openTrunc (.temp k) }
  | .writing k pair inode written, .write count =>
    { s.goto i (.writing k pair inode (written + count)) with
      files := s.files.write inode written (((pair.text k).drop written).take count) }
  | .writing k pair _ _, .close => s.goto i (.replacing k pair)
  | .replacing k pair, .rename =>
    match s.files.entry (.temp k) with
    | none => s.goto i (.finished false)
    | some _ =>
      { s.goto i (installed pair k) with files := s.files.rename (.temp k) (.live k) }
  | .replacing k _, .fail =>
    { s.goto i (.finished false) with files := s.files.remove (.temp k) }
  | _, .fail => s.goto i (.finished false)
  | _, _ => s

def startFiles (start : Pair) : FileSystem Name (BitVec 8) where
  entry
    | .live .key => some 0
    | .live .cert => some 1
    | .temp _ => none
  content
    | 0 => start.keyPem
    | _ => start.certPem
  next := 2
  injective := by
    rintro ((_ | _) | _) ((_ | _) | _) i ha hb <;> cases ha <;> cases hb <;> rfl
  bounded := by
    rintro ((_ | _) | _) i ha <;> cases ha <;> decide

def system (start : Pair) : Interleaving.System State (ℕ × Event) where
  initial := ⟨startFiles start, fun _ => .idle, []⟩
  Enabled := Enabled
  next := next validatePair

/-! ### The law -/

def AtRest (s : State) : Prop := ∀ i, s.calls i = .idle ∨ ∃ ok, s.calls i = .finished ok

/-- The files hold a pair: the one of the start, or one that was validated, and if no call has
succeeded the one of the start. -/
def Settled (start : Pair) (s : State) : Prop :=
  ∃ pair, pair ∈ start :: s.validated ∧ (∀ k, s.files.read (.live k) = some (pair.text k)) ∧
    ((∀ i, s.calls i ≠ .finished true) → pair = start)

/-- The call has opened a temporary file of one of the two, or the key is in place. -/
def Phase.Installing : Phase → Prop
  | .opening .cert _ | .writing _ _ _ _ | .replacing _ _ => True
  | _ => False

/-- One call at a time installs, what it writes is all flushed, and once the key is in place nothing
fails. -/
def Careful (s : State) (a : ℕ × Event) : Prop :=
  match s.calls a.1, a.2 with
  | .opening .key _, .openTemp => ∀ j, ¬ (s.calls j).Installing
  | .writing k pair _ written, .close => written = (pair.text k).length
  | .opening .cert _, .fail | .writing .cert _ _ _, .fail | .replacing .cert _, .fail => False
  | _, _ => True

/-! ### What a careful run keeps -/

/-- The key is in place and the certificate is not yet. -/
def Phase.KeyPlaced : Phase → Prop
  | .opening .cert _ | .writing .cert _ _ _ | .replacing .cert _ => True
  | _ => False

/-- A call that is at the certificate has its key in place. -/
def KeyIn (s : State) (k : Kind) (pair : Pair) : Prop :=
  k = .cert → s.files.read (.live .key) = some pair.keyPem

def Sound (s : State) : Phase → Prop
  | .opening k pair => pair ∈ s.validated ∧ KeyIn s k pair
  | .writing k pair inode written =>
    pair ∈ s.validated ∧ KeyIn s k pair ∧ s.files.entry (.temp k) = some inode ∧
      s.files.read (.temp k) = some ((pair.text k).take written)
  | .replacing k pair =>
    pair ∈ s.validated ∧ KeyIn s k pair ∧ s.files.read (.temp k) = some (pair.text k)
  | _ => True

structure Inv (start : Pair) (s : State) : Prop where
  alone : ∀ i j, (s.calls i).Installing → (s.calls j).Installing → i = j
  sound : ∀ i, Sound s (s.calls i)
  settled : (∀ i, ¬ (s.calls i).KeyPlaced) → Settled start s

variable {validatePair} {start pair : Pair} {s : State} {i : ℕ} {k : Kind} {phase : Phase}
  {files : FileSystem Name (BitVec 8)} {validated : List Pair}

variable {t : State}

/-- A call that does not install only needs its pair to be a validated one. -/
theorem Sound.of_waiting (h : Sound s phase) (hwaiting : ¬ phase.Installing)
    (hvalidated : ∀ p ∈ s.validated, p ∈ t.validated) : Sound t phase := by
  rcases phase with _ | _ | ⟨_ | _, pair⟩ | _ | _ | _
  · trivial
  · trivial
  · refine ⟨hvalidated pair h.1, ?_⟩
    intro hk
    cases hk
  · exact absurd trivial hwaiting
  · exact absurd trivial hwaiting
  · exact absurd trivial hwaiting
  · trivial

theorem Sound.of_files (h : Sound s phase) (hfiles : t.files = s.files)
    (hvalidated : ∀ p ∈ s.validated, p ∈ t.validated) : Sound t phase := by
  cases phase with
  | idle => trivial
  | fetching => trivial
  | opening k pair =>
    obtain ⟨hpair, hkey⟩ := h
    exact ⟨hvalidated _ hpair, by rw [KeyIn, hfiles]; exact hkey⟩
  | writing k pair inode written =>
    obtain ⟨hpair, hkey, hrest⟩ := h
    exact ⟨hvalidated _ hpair, by rw [KeyIn, hfiles]; exact hkey, by rw [hfiles]; exact hrest⟩
  | replacing k pair =>
    obtain ⟨hpair, hkey, hrest⟩ := h
    exact ⟨hvalidated _ hpair, by rw [KeyIn, hfiles]; exact hkey, by rw [hfiles]; exact hrest⟩
  | finished ok => trivial

/-- The files stay settled under a step that leaves them as they are. -/
theorem Settled.goto (h : Settled start s) (hi : s.calls i ≠ .finished true)
    (hreads : ∀ k, files.read (.live k) = s.files.read (.live k))
    (hvalidated : ∀ p ∈ s.validated, p ∈ validated) :
    Settled start ⟨files, Function.update s.calls i phase, validated⟩ := by
  obtain ⟨pair, hpair, hread, hfirst⟩ := h
  refine ⟨pair, ?_, ?_, ?_⟩
  · rcases List.mem_cons.mp hpair with rfl | hpair
    · exact List.mem_cons_self
    · exact List.mem_cons_of_mem _ (hvalidated pair hpair)
  · intro k
    exact (hreads k).trans (hread k)
  · intro hnone
    apply hfirst
    intro j hj
    by_cases hji : j = i
    · subst hji
      exact hi hj
    · exact hnone j ((Function.update_of_ne hji _ _).trans hj)

/-- A step of one call: the others keep what they need, if the files change only while none of them
installs. -/
theorem Inv.goto (h : Inv start s) (hvalidated : ∀ p ∈ s.validated, p ∈ validated)
    (hfiles : files = s.files ∨ ∀ j, j ≠ i → ¬ (s.calls j).Installing)
    (halone : phase.Installing → ∀ j, j ≠ i → ¬ (s.calls j).Installing)
    (hsound : Sound ⟨files, Function.update s.calls i phase, validated⟩ phase)
    (hsettled : ¬ phase.KeyPlaced → (∀ j, j ≠ i → ¬ (s.calls j).KeyPlaced) →
      Settled start ⟨files, Function.update s.calls i phase, validated⟩) :
    Inv start ⟨files, Function.update s.calls i phase, validated⟩ where
  alone a b ha hb := by
    by_cases hai : a = i <;> by_cases hbi : b = i <;>
      simp only [hai, hbi, Function.update_self, Function.update_of_ne, ne_eq,
        not_false_eq_true] at ha hb ⊢
    · exact absurd hb (halone ha b hbi)
    · exact absurd ha (halone hb a hai)
    · exact h.alone a b ha hb
  sound j := by
    by_cases hji : j = i
    · subst hji
      simpa using hsound
    · simp only [Function.update_of_ne hji]
      rcases hfiles with hfiles | hwaiting
      · exact (h.sound j).of_files hfiles hvalidated
      · exact (h.sound j).of_waiting (hwaiting j hji) hvalidated
  settled hnone := by
    refine hsettled ?_ ?_
    · simpa using hnone i
    · intro j hji
      simpa [Function.update_of_ne hji] using hnone j

/-- While one call installs, no other does. -/
theorem Inv.waiting (h : Inv start s) (hi : (s.calls i).Installing) :
    ∀ j, j ≠ i → ¬ (s.calls j).Installing := by
  intro j hji hj
  exact hji (h.alone j i hj hi)

theorem Inv.settled_of_others (h : Inv start s) (hi : ¬ (s.calls i).KeyPlaced)
    (hothers : ∀ j, j ≠ i → ¬ (s.calls j).KeyPlaced) : Settled start s := by
  apply h.settled
  intro j
  by_cases hji : j = i
  · subst hji
    exact hi
  · exact hothers j hji

/-- A step that leaves the files alone and does not begin to install. -/
theorem Inv.pass (h : Inv start s) (hvalidated : ∀ p ∈ s.validated, p ∈ validated)
    (hi : s.calls i ≠ .finished true) (hkey : ¬ (s.calls i).KeyPlaced)
    (hphase : ¬ phase.Installing)
    (hsound : Sound ⟨s.files, Function.update s.calls i phase, validated⟩ phase) :
    Inv start ⟨s.files, Function.update s.calls i phase, validated⟩ := by
  refine h.goto hvalidated (.inl rfl) (fun hinstalling => absurd hinstalling hphase) hsound ?_
  intro _ hothers
  exact (h.settled_of_others hkey hothers).goto hi (fun _ => rfl) hvalidated

/-- A step that leaves the files in place, while no other call installs. -/
theorem Inv.keep (h : Inv start s) (hi : s.calls i ≠ .finished true)
    (halone : ∀ j, j ≠ i → ¬ (s.calls j).Installing)
    (hkey : (s.calls i).KeyPlaced → phase.KeyPlaced)
    (hreads : ∀ k, files.read (.live k) = s.files.read (.live k))
    (hsound : Sound ⟨files, Function.update s.calls i phase, s.validated⟩ phase) :
    Inv start ⟨files, Function.update s.calls i phase, s.validated⟩ := by
  refine h.goto (fun _ => id) (.inr halone) (fun _ => halone) hsound ?_
  intro hphase hothers
  exact (h.settled_of_others (fun hj => hphase (hkey hj)) hothers).goto hi hreads fun _ => id

theorem KeyIn.of_read (h : KeyIn s k pair)
    (hread : t.files.read (.live .key) = s.files.read (.live .key)) : KeyIn t k pair := by
  intro hk
  rw [hread]
  exact h hk

theorem Inv.openTemp (h : Inv start s) (hphase : s.calls i = .opening k pair)
    (hc : Careful s (i, .openTemp)) : Inv start (next validatePair s (i, .openTemp)) := by
  have hsound := h.sound i
  rw [hphase] at hsound
  obtain ⟨hpair, hkey⟩ := hsound
  have hreads : ∀ k', (s.files.openTrunc (.temp k)).read (.live k') = s.files.read (.live k') := by
    intro k'
    exact FileSystem.read_openTrunc_of_ne (by simp)
  have halone : ∀ j, j ≠ i → ¬ (s.calls j).Installing := by
    cases k with
    | key =>
      simp only [Careful, hphase] at hc
      intro j _
      exact hc j
    | cert => exact h.waiting (by rw [hphase]; trivial)
  simp only [next, hphase, State.goto]
  refine h.keep (by simp [hphase]) halone ?_ hreads
    ⟨hpair, hkey.of_read (hreads .key), ?_, FileSystem.read_openTrunc_self⟩
  · cases k <;> simp [hphase, Phase.KeyPlaced]
  · exact Function.update_self _ _ _

theorem Inv.write {inode written count : ℕ} (h : Inv start s)
    (hphase : s.calls i = .writing k pair inode written)
    (he : Enabled s (i, .write count)) : Inv start (next validatePair s (i, .write count)) := by
  have hsound := h.sound i
  rw [hphase] at hsound
  obtain ⟨hpair, hkey, hentry, hread⟩ := hsound
  simp only [Enabled, hphase] at he
  have hreads : ∀ k', (s.files.write inode written
      (((pair.text k).drop written).take count)).read (.live k') = s.files.read (.live k') := by
    intro k'
    exact FileSystem.read_write_of_ne hentry (by simp)
  simp only [next, hphase, State.goto]
  refine h.keep (by simp [hphase]) (h.waiting (by rw [hphase]; trivial)) ?_ hreads
    ⟨hpair, hkey.of_read (hreads .key), hentry, ?_⟩
  · cases k <;> simp [hphase, Phase.KeyPlaced]
  · rw [FileSystem.read_write_self hentry hread, FileSystem.overlay_take he]

theorem Inv.close {inode written : ℕ} (h : Inv start s)
    (hphase : s.calls i = .writing k pair inode written)
    (hc : Careful s (i, .close)) : Inv start (next validatePair s (i, .close)) := by
  have hsound := h.sound i
  rw [hphase] at hsound
  obtain ⟨hpair, hkey, -, hread⟩ := hsound
  simp only [Careful, hphase] at hc
  rw [hc, List.take_length] at hread
  simp only [next, hphase, State.goto]
  refine h.keep (by simp [hphase]) (h.waiting (by rw [hphase]; trivial)) ?_ (fun _ => rfl)
    ⟨hpair, hkey, hread⟩
  cases k <;> simp [hphase, Phase.KeyPlaced]

theorem Inv.rename (h : Inv start s) (hphase : s.calls i = .replacing k pair) :
    Inv start (next validatePair s (i, .rename)) := by
  have hsound := h.sound i
  rw [hphase] at hsound
  obtain ⟨hpair, hkey, hread⟩ := hsound
  have halone := h.waiting (i := i) (by rw [hphase]; trivial)
  obtain ⟨inode, hentry, -⟩ := Option.map_eq_some_iff.mp hread
  simp only [next, hphase, hentry, State.goto]
  have htarget : (s.files.rename (.temp k) (.live k)).read (.live k) = some (pair.text k) := by
    rw [FileSystem.read_rename_self, hread]
  cases k with
  | key =>
    refine h.goto (fun _ => id) (.inr halone) (fun _ => halone) ⟨hpair, fun _ => htarget⟩ ?_
    intro hphase'
    exact absurd trivial hphase'
  | cert =>
    refine h.goto (fun _ => id) (.inr halone) (fun _ => halone) trivial ?_
    intro _ _
    refine ⟨pair, List.mem_cons_of_mem _ hpair, ?_, ?_⟩
    · intro k
      cases k with
      | key =>
        exact hkey rfl
      | cert => exact htarget
    · intro hnone
      exact absurd (Function.update_self i _ s.calls) (hnone i)

/-- A call ends without having touched the files. -/
theorem Inv.giveUp (h : Inv start s) (hi : s.calls i ≠ .finished true)
    (hkey : ¬ (s.calls i).KeyPlaced) : Inv start (s.goto i (.finished false)) :=
  h.pass (fun _ => id) hi hkey id trivial

theorem Inv.fail (h : Inv start s) (he : Enabled s (i, .fail)) (hc : Careful s (i, .fail)) :
    Inv start (next validatePair s (i, .fail)) := by
  cases hphase : s.calls i with
  | idle => simp [Enabled, hphase] at he
  | fetching =>
    simp only [next, hphase]
    exact h.giveUp (by simp [hphase]) (by simp [hphase, Phase.KeyPlaced])
  | opening k pair =>
    cases k with
    | key =>
      simp only [next, hphase]
      exact h.giveUp (by simp [hphase]) (by simp [hphase, Phase.KeyPlaced])
    | cert => simp [Careful, hphase] at hc
  | writing k pair inode written =>
    cases k with
    | key =>
      simp only [next, hphase]
      exact h.giveUp (by simp [hphase]) (by simp [hphase, Phase.KeyPlaced])
    | cert => simp [Careful, hphase] at hc
  | replacing k pair =>
    cases k with
    | key =>
      simp only [next, hphase, State.goto]
      refine h.keep (by simp [hphase]) (h.waiting (by rw [hphase]; trivial)) ?_ ?_ trivial
      · simp [hphase, Phase.KeyPlaced]
      · intro k
        exact FileSystem.read_remove_of_ne (by simp)
    | cert => simp [Careful, hphase] at hc
  | finished ok => simp [Enabled, hphase] at he

theorem Inv.download (h : Inv start s) (hphase : s.calls i = .fetching) :
    Inv start (next validatePair s (i, .download pair)) := by
  have hi : s.calls i ≠ .finished true := by simp [hphase]
  have hkey : ¬ (s.calls i).KeyPlaced := by simp [hphase, Phase.KeyPlaced]
  simp only [next, hphase]
  split
  · refine h.pass (fun _ => List.mem_cons_of_mem _) hi hkey id ⟨List.mem_cons_self, ?_⟩
    intro hk
    cases hk
  · exact h.giveUp hi hkey

theorem Inv.step (h : Inv start s) {a : ℕ × Event} (he : Enabled s a) (hc : Careful s a) :
    Inv start (next validatePair s a) := by
  obtain ⟨i, event⟩ := a
  cases event with
  | fail => exact h.fail he hc
  | start =>
    cases hphase : s.calls i <;> simp only [Enabled, hphase] at he
    simp only [next, hphase]
    exact h.pass (fun _ => id) (by simp [hphase]) (by simp [hphase, Phase.KeyPlaced]) id trivial
  | download pair =>
    cases hphase : s.calls i <;> simp only [Enabled, hphase] at he
    exact h.download hphase
  | openTemp =>
    cases hphase : s.calls i <;> simp only [Enabled, hphase] at he
    exact h.openTemp hphase hc
  | write count =>
    cases hphase : s.calls i <;> first | exact h.write hphase he | simp [Enabled, hphase] at he
  | close =>
    cases hphase : s.calls i <;> simp only [Enabled, hphase] at he
    exact h.close hphase hc
  | rename =>
    cases hphase : s.calls i <;> simp only [Enabled, hphase] at he
    exact h.rename hphase

theorem Inv.initial (start : Pair) : Inv start (system validatePair start).initial where
  alone _ _ hi := absurd hi id
  sound _ := trivial
  settled _ := by
    refine ⟨start, List.mem_cons_self, ?_, fun _ => rfl⟩
    rintro (_ | _) <;> rfl

/-- In every careful run the files are those of one pair whenever no call is in flight. -/
theorem settled_of_careful (validatePair : Pair → Bool) (start : Pair) {s : State}
    (h : (system validatePair start).ReachableUnder Careful s) (hrest : AtRest s) :
    Settled start s := by
  have hinv : Inv start s := h.invariant (Inv.initial start) fun _ _ hs he hc => hs.step he hc
  apply hinv.settled
  intro i
  rcases hrest i with hi | ⟨ok, hi⟩ <;> simp [hi, Phase.KeyPlaced]

/-! A call that installs another pair or cannot open the file of its certificate, and a later one
that fails at its key. -/

def oldPair : Pair := ⟨[1], [2]⟩
def newPair : Pair := ⟨[3], [4]⟩

def keySteps : List (ℕ × Event) :=
  [(0, .start), (0, .download newPair), (0, .openTemp), (0, .write 1), (0, .close), (0, .rename)]

def certSteps : List (ℕ × Event) := [(0, .openTemp), (0, .write 1), (0, .close), (0, .rename)]

def laterSteps : List (ℕ × Event) :=
  [(1, .start), (1, .download ⟨[5], [6]⟩), (1, .openTemp), (1, .write 1), (1, .fail)]

def twoCalls : Interleaving.System State (ℕ × Event) := system (fun _ => true) oldPair

theorem next_calls_of_ne {a : ℕ × Event} (h : i ≠ a.1) :
    (next validatePair s a).calls i = s.calls i := by
  unfold next
  dsimp only
  split
  case h_2 => split <;> exact Function.update_of_ne h _ _
  case h_6 => split <;> exact Function.update_of_ne h _ _
  case h_9 => rfl
  all_goals exact Function.update_of_ne h _ _

theorem run_calls_of_ne {actions : List (ℕ × Event)} (h : ∀ a ∈ actions, i ≠ a.1) :
    ((system validatePair start).run s actions).calls i = s.calls i := by
  induction actions generalizing s with
  | nil => rfl
  | cons a actions ih =>
    have hrest := ih (s := next validatePair s a) fun b hb => h b (List.mem_cons_of_mem a hb)
    exact hrest.trans (next_calls_of_ne (h a List.mem_cons_self))

theorem others_idle {actions : List (ℕ × Event)} (hlow : ∀ a ∈ actions, a.1 < 2) (j : ℕ) :
    (twoCalls.run twoCalls.initial actions).calls (j + 2) = .idle := by
  refine run_calls_of_ne ?_
  intro a ha
  have := hlow a ha
  omega

theorem settled_after_swap :
    Settled oldPair (twoCalls.run twoCalls.initial (keySteps ++ certSteps ++ laterSteps)) ∧
      (twoCalls.run twoCalls.initial (keySteps ++ certSteps ++ laterSteps)).files.read
        (.live .key) = some newPair.keyPem := by
  have hwaits : ∀ n, ∀ j, ((twoCalls.run twoCalls.initial
      ((keySteps ++ certSteps ++ laterSteps).take n)).calls (j + 2)).Installing → False := by
    intro n j hj
    have hlow : ∀ a ∈ keySteps ++ certSteps ++ laterSteps, a.1 < 2 := by decide
    rw [others_idle fun a ha => hlow a (List.mem_of_mem_take ha)] at hj
    exact hj
  refine ⟨settled_of_careful (fun _ => true) oldPair ⟨_, ?_, rfl⟩ ?_, rfl⟩
  · refine ⟨⟨trivial, trivial⟩, ⟨trivial, trivial⟩, ⟨trivial, ?_⟩, ⟨Nat.le_refl 1, trivial⟩,
      ⟨trivial, rfl⟩, ⟨trivial, trivial⟩, ⟨trivial, trivial⟩, ⟨Nat.le_refl 1, trivial⟩,
      ⟨trivial, rfl⟩, ⟨trivial, trivial⟩, ⟨trivial, trivial⟩, ⟨trivial, trivial⟩, ⟨trivial, ?_⟩,
      ⟨Nat.le_refl 1, trivial⟩, ⟨trivial, trivial⟩, trivial⟩
    · rintro (_ | _ | j) hj
      · exact hj
      · exact hj
      · exact hwaits 2 j hj
    · rintro (_ | _ | j) hj
      · exact hj
      · exact hj
      · exact hwaits 12 j hj
  · rintro (_ | _ | j)
    · exact .inr ⟨true, rfl⟩
    · exact .inr ⟨false, rfl⟩
    · exact .inl (others_idle (by decide) j)

/-- The key is new, the certificate is old, and the only call has failed. -/
theorem mixed_pair_not_settled : ¬ ∀ (validatePair : Pair → Bool) (start : Pair) (s : State),
    (system validatePair start).Reachable s → AtRest s → Settled start s := by
  intro h
  have hreach : twoCalls.Reachable
      (twoCalls.run twoCalls.initial (keySteps ++ [(0, Event.fail)])) := by
    refine ⟨keySteps ++ [(0, Event.fail)], ?_, rfl⟩
    exact ⟨⟨trivial, trivial⟩, ⟨trivial, trivial⟩, ⟨trivial, trivial⟩, ⟨Nat.le_refl 1, trivial⟩,
      ⟨trivial, trivial⟩, ⟨trivial, trivial⟩, ⟨trivial, trivial⟩, trivial⟩
  have hrest : AtRest (twoCalls.run twoCalls.initial (keySteps ++ [(0, Event.fail)])) := by
    rintro (_ | _ | j)
    · exact .inr ⟨false, rfl⟩
    · exact .inl rfl
    · exact .inl (others_idle (by decide) j)
  obtain ⟨⟨certPem, keyPem⟩, hpair, hread, -⟩ := h (fun _ => true) oldPair _ hreach hrest
  have hkey : [4] = keyPem := Option.some.inj (hread .key)
  have hcert : [1] = certPem := Option.some.inj (hread .cert)
  subst hkey hcert
  revert hpair
  decide +kernel

end MotionMaster.CertUpdater
