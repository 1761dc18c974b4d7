import MotionMaster.Device.Read
import MotionMaster.Lib.Interleaving

/-!
# Concurrent calls on one parameter

`readParameter` and `writeParameter` of one object over SDO, on any number of threads. Each call
holds the lock for its first and last phase and the bus for the transfer between them.
-/

namespace MotionMaster.Calls

open Interleaving

variable (fp : FloatingPoint)

inductive Call where
  | idle
  | reading (declaredType : ℕ)
  | uploaded (declaredType : ℕ) (reply : Except String (List (BitVec 8)))
  | writing (bytes : List (BitVec 8))
  | downloaded (written : Except String Unit)

/-- `object` is what the device holds. -/
structure State where
  slavePosition : ℕ
  parameter : DeviceParameter
  object : List (BitVec 8)
  calls : ℕ → Call

inductive Action where
  | startRead (t : ℕ)
  | startWrite (t : ℕ) (v : DeviceParameterValue)
  | upload (t : ℕ) (failure : Option String)
  /-- A download whose reply is lost may have taken effect. -/
  | download (t : ℕ) (applied : Bool) (failure : Option String)
  | commit (t : ℕ)

def Action.thread : Action → ℕ
  | .startRead t | .startWrite t _ | .upload t _ | .download t _ _ | .commit t => t

def answer {α : Type} (failure : Option String) (x : α) : Except String α :=
  match failure with
  | none => .ok x
  | some e => .error e

namespace State

def setCall (s : State) (t : ℕ) (c : Call) : State :=
  { s with calls := Function.update s.calls t c }

theorem calls_setCall (s : State) (t u : ℕ) (c : Call) :
    (s.setCall t c).calls u = if u = t then c else s.calls u := by
  simp [setCall, Function.update_apply]

def start (slavePosition : ℕ) (p : DeviceParameter) (object : List (BitVec 8)) : State :=
  ⟨slavePosition, p, object, fun _ => .idle⟩

end State

def Enabled (s : State) (a : Action) : Prop :=
  match a, s.calls a.thread with
  | .startRead _, .idle | .startWrite _ _, .idle => True
  | .upload _ _, .reading _ => True
  | .download _ applied failure, .writing _ => applied = true ∨ failure.isSome = true
  | .commit _, .uploaded _ _ | .commit _, .downloaded _ => True
  | _, _ => False

instance (s : State) (a : Action) : Decidable (Enabled s a) := by
  unfold Enabled
  split <;> infer_instance

/-- The transfers are the only steps without the lock. -/
def next (s : State) : Action → State
  | .startRead t => s.setCall t (.reading s.parameter.dataType)
  | .startWrite t v =>
    match s.parameter.setValue fp v with
    | .error _ => s
    | .ok q => { s.setCall t (.writing q.rawValueBytes) with parameter := q }
  | .upload t failure =>
    match s.calls t with
    | .reading declaredType => s.setCall t (.uploaded declaredType (answer failure s.object))
    | _ => s
  | .download t applied failure =>
    match s.calls t with
    | .writing bytes =>
      { s.setCall t (.downloaded (answer failure ())) with
        object := if applied then bytes else s.object }
    | _ => s
  | .commit t =>
    match s.calls t with
    | .uploaded declaredType reply =>
      { s.setCall t .idle with
        parameter := (s.parameter.commitRead s.slavePosition declaredType reply).2 }
    | .downloaded written =>
      { s.setCall t .idle with parameter := s.parameter.commitWrite written }
    | _ => s

abbrev system (slavePosition : ℕ) (p : DeviceParameter) (object : List (BitVec 8)) :
    System State Action where
  initial := .start slavePosition p object
  Enabled := Enabled
  next := next fp

def Agree (p : DeviceParameter) (object : List (BitVec 8)) : Prop :=
  decodeSdoBytes p.dataType object = .ok p.currentValue

instance (p : DeviceParameter) (object : List (BitVec 8)) : Decidable (Agree p object) :=
  match h : decodeSdoBytes p.dataType object with
  | .ok v => decidable_of_iff (v = p.currentValue) (by simp [Agree, h])
  | .error _ => isFalse (by simp [Agree, h])

def Quiet (s : State) : Prop := ∀ t, s.calls t = .idle

def SyncedAgrees (s : State) : Prop :=
  Quiet s → s.parameter.syncState = .synced → Agree s.parameter s.object

/-! ### One call alone is the device's own -/

variable {d : Device} {index subindex k t : ℕ} {s : State}

theorem run_read (hk : d.findParameter index subindex = some k)
    (hc : d.cells[k]? = some s.parameter) (hs : d.slavePosition = s.slavePosition)
    (p : DeviceParameter) (object : List (BitVec 8)) (failure : Option String) :
    (d.readParameter none true (answer failure s.object) index subindex).2.cells[k]? =
      some ((system fp s.slavePosition p object).run s
        [.startRead t, .upload t failure, .commit t]).parameter := by
  have hl : k < d.cells.length := (List.getElem?_eq_some_iff.mp hc).1
  simp [Device.readParameter, Device.parameter_of_cell hk hc, hk, hs, hl, System.run, next,
    State.setCall]

variable {v : DeviceParameterValue}

theorem run_write (hk : d.findParameter index subindex = some k)
    (hc : d.cells[k]? = some s.parameter) (p : DeviceParameter) (object : List (BitVec 8))
    {q : DeviceParameter} (hv : s.parameter.setValue fp v = .ok q)
    (applied : Bool) (failure : Option String) :
    (d.writeParameter fp false true (fun _ => answer failure ()) index subindex
        v).device.cells[k]? =
      some ((system fp s.slavePosition p object).run s
        [.startWrite t v, .download t applied failure, .commit t]).parameter := by
  have hl : k < d.cells.length := (List.getElem?_eq_some_iff.mp hc).1
  cases failure <;>
    simp [Device.writeParameter, Device.parameter_of_cell hk hc, hk, hl, hv, System.run,
      next, State.setCall, Device.setCell, DeviceParameter.commitWrite, answer]

theorem calls_next_of_ne {a : Action} {u : ℕ} (h : u ≠ a.thread) :
    (next fp s a).calls u = s.calls u := by
  have hcall : ∀ c, (s.setCall a.thread c).calls u = s.calls u := by
    intro c
    rw [State.calls_setCall, if_neg h]
  cases a with
  | startRead t => exact hcall _
  | startWrite t v =>
    simp only [next]
    split
    · rfl
    · exact hcall _
  | upload t failure | download t applied failure =>
    simp only [next]
    split
    · exact hcall _
    · rfl
  | commit t =>
    simp only [next]
    split
    · exact hcall _
    · exact hcall _
    · rfl

theorem calls_run_of_ne (slavePosition : ℕ) (p : DeviceParameter) (object : List (BitVec 8))
    {actions : List Action} {u : ℕ} (h : ∀ a ∈ actions, u ≠ a.thread) :
    ((system fp slavePosition p object).run s actions).calls u = s.calls u := by
  induction actions generalizing s with
  | nil => rfl
  | cons a actions ih =>
    have hrest := ih (s := next fp s a) fun b hb => h b (List.mem_cons_of_mem _ hb)
    exact hrest.trans (calls_next_of_ne fp (h a List.mem_cons_self))

/-! ### Calls that keep out of each other's way -/

def Call.HasUpload : Call → Prop
  | .uploaded _ (.ok _) => True
  | _ => False

/-- A write the device has confirmed and the cell has not. -/
def Call.Acknowledged : Call → Prop
  | .downloaded (.ok _) => True
  | _ => False

def Call.Unsettled : Call → Prop
  | .writing _ | .downloaded (.error _) => True
  | _ => False

/-- A value is staged only while no other write waits to mark the cell. A download takes effect
only while no read waits to store what it uploaded, and with the value the cell still holds. -/
def Ordered (s : State) : Action → Prop
  | .startWrite _ _ => ∀ u, ¬ (s.calls u).Acknowledged
  | .download t applied _ => applied = true →
    (∀ u, ¬ (s.calls u).HasUpload) ∧ s.calls t = .writing s.parameter.rawValueBytes
  | _ => True

structure Tracked (s : State) : Prop where
  uploaded : ∀ t declaredType bytes,
    s.calls t = .uploaded declaredType (.ok bytes) → bytes = s.object
  acknowledged : ∀ t, (s.calls t).Acknowledged → Agree s.parameter s.object
  settled : (∀ t, ¬ (s.calls t).Unsettled) → s.parameter.syncState = .synced →
    Agree s.parameter s.object

variable {p : DeviceParameter} {object : List (BitVec 8)} {c : Call}

theorem agree_rawValueBytes (p : DeviceParameter) : Agree p p.rawValueBytes :=
  p.decodeSdoBytes_rawValueBytes

theorem agree_receive (h : decodeSdoBytes p.dataType object = .ok v) :
    Agree (p.receive object) object := by
  have hv : (p.receive object).currentValue = v := DeviceParameter.currentValue_setRawValue h
  have hd : (p.receive object).dataType = p.dataType := p.dataType_setRawValue object
  unfold Agree
  rw [hd, hv, h]

theorem agree_markReadFailed (h : Agree p object) : Agree p.markReadFailed object := by
  unfold DeviceParameter.markReadFailed
  split
  · exact h
  · exact h

theorem Tracked.setCall (h : Tracked s)
    (hu : ∀ declaredType bytes, c = .uploaded declaredType (.ok bytes) → bytes = s.object)
    (ha : c.Acknowledged → Agree s.parameter s.object)
    (hs : (s.calls t).Unsettled → c.Unsettled ∨ s.parameter.syncState ≠ .synced) :
    Tracked (s.setCall t c) := by
  constructor
  · intro u declaredType bytes hcu
    rw [State.calls_setCall] at hcu
    split at hcu
    · exact hu declaredType bytes hcu
    · exact h.uploaded u declaredType bytes hcu
  · intro u hcu
    rw [State.calls_setCall] at hcu
    split at hcu
    · exact ha hcu
    · exact h.acknowledged u hcu
  · intro hall hsync
    refine h.settled (fun u hun => ?_) hsync
    have hnot := hall u
    rw [State.calls_setCall] at hnot
    split at hnot
    · rename_i hut
      rcases hs (hut ▸ hun) with hc | hc
      · exact hnot hc
      · exact hc hsync
    · exact hnot hun

/-- The cell may be replaced by one that still agrees, or claims nothing. -/
theorem Tracked.setParameter (h : Tracked s) {q : DeviceParameter}
    (ha : Agree s.parameter s.object → Agree q s.object)
    (hs : q.syncState = .synced → s.parameter.syncState = .synced ∨ Agree q s.object) :
    Tracked { s with parameter := q } := by
  refine ⟨h.uploaded, fun u hu => ha (h.acknowledged u hu), fun hall hq => ?_⟩
  rcases hs hq with hold | hnew
  · exact ha (h.settled hall hold)
  · exact hnew

theorem tracked_startWrite (h : Tracked s)
    (ho : Ordered s (.startWrite t v)) : Tracked (next fp s (.startWrite t v)) := by
  cases hv : s.parameter.setValue fp v with
  | error e => simpa only [next, hv] using h
  | ok q =>
    simp only [next, hv]
    constructor
    · intro u declaredType bytes hu
      rw [State.calls_setCall] at hu
      split at hu
      · cases hu
      · exact h.uploaded u declaredType bytes hu
    · intro u hu
      rw [State.calls_setCall] at hu
      split at hu
      · exact hu.elim
      · exact absurd hu (ho u)
    · intro hall
      exact absurd (by simp [State.calls_setCall, Call.Unsettled]) (hall t)

theorem tracked_upload (h : Tracked s) (failure : Option String) :
    Tracked (next fp s (.upload t failure)) := by
  cases hc : s.calls t with
  | reading declaredType =>
    simp only [next, hc]
    refine h.setCall ?_ ?_ (by simp [hc, Call.Unsettled])
    · intro declaredType bytes hb
      cases failure with
      | none =>
        cases hb
        rfl
      | some e => cases hb
    · intro ha
      cases failure <;> exact ha.elim
  | _ => simpa only [next, hc] using h

/-- A download that takes effect with the value the cell holds makes the two agree. -/
theorem tracked_download (h : Tracked s) {applied : Bool} {failure : Option String}
    (he : Enabled s (.download t applied failure)) (ho : Ordered s (.download t applied failure)) :
    Tracked (next fp s (.download t applied failure)) := by
  cases hc : s.calls t with
  | writing bytes =>
    simp only [next, hc]
    cases applied with
    | false =>
      cases failure with
      | none => simp [Enabled, Action.thread, hc] at he
      | some e =>
        exact h.setCall (fun _ _ hb => by cases hb) (fun ha => ha.elim) fun _ => .inl trivial
    | true =>
      obtain ⟨hnone, hsent⟩ := ho rfl
      have hb : bytes = s.parameter.rawValueBytes := by
        rw [hc] at hsent
        exact Call.writing.inj hsent
      have hagree : Agree s.parameter bytes := hb ▸ agree_rawValueBytes s.parameter
      refine ⟨?_, fun _ _ => hagree, fun _ _ => hagree⟩
      intro u declaredType reply hu
      rw [State.calls_setCall] at hu
      split at hu
      · cases hu
      · exact absurd (by simp [hu, Call.HasUpload]) (hnone u)
  | _ => simpa only [next, hc] using h

theorem tracked_commit (h : Tracked s) : Tracked (next fp s (.commit t)) := by
  have hidle : ∀ {s : State}, Tracked s →
      ((s.calls t).Unsettled → s.parameter.syncState ≠ .synced) → Tracked (s.setCall t .idle) :=
    fun h hn => h.setCall (fun _ _ hb => by cases hb) (fun ha => ha.elim) fun hu => .inr (hn hu)
  cases hc : s.calls t with
  | uploaded declaredType reply =>
    simp only [next, hc]
    refine (hidle h (by simp [hc, Call.Unsettled])).setParameter ?_ ?_
    all_goals
      rcases s.parameter.commitRead_cases s.slavePosition declaredType reply with
        hsame | hfailed | ⟨bytes, v, rfl, hv, hread⟩
    · exact fun ha => hsame.symm ▸ ha
    · exact fun ha => hfailed.symm ▸ agree_markReadFailed ha
    · cases h.uploaded t _ _ hc
      exact fun _ => hread.symm ▸ agree_receive hv
    · exact fun hq => .inl (hsame ▸ hq)
    · exact fun hq => absurd (hfailed ▸ hq) DeviceParameter.syncState_markReadFailed_ne
    · cases h.uploaded t _ _ hc
      exact fun _ => .inr (hread.symm ▸ agree_receive hv)
  | downloaded written =>
    simp only [next, hc]
    cases written with
    | ok _ =>
      have hagree := h.acknowledged t (by simp [hc, Call.Acknowledged])
      exact (hidle h (by simp [hc, Call.Unsettled])).setParameter id fun _ => .inr hagree
    | error e =>
      have hpending : Tracked { s with parameter := s.parameter.commitWrite (.error e) } :=
        h.setParameter id fun hq => by cases hq
      exact hidle hpending fun _ hq => by cases hq
  | _ => simpa only [next, hc] using h

theorem tracked_step {a : Action} (h : Tracked s) (he : Enabled s a) (ho : Ordered s a) :
    Tracked (next fp s a) := by
  cases a with
  | startRead t =>
    refine h.setCall (fun _ _ hb => by cases hb) (fun ha => ha.elim) fun hu => ?_
    cases hc : s.calls t <;> simp_all [Enabled, Action.thread, Call.Unsettled]
  | startWrite t v => exact tracked_startWrite fp h ho
  | upload t failure => exact tracked_upload fp h failure
  | download t applied failure => exact tracked_download fp h he ho
  | commit t => exact tracked_commit fp h

/-- From a cell that starts out agreeing, in every run of ordered calls. -/
theorem syncedAgrees_of_ordered {slavePosition : ℕ}
    (h0 : p.syncState = .synced → Agree p object)
    (hr : (system fp slavePosition p object).ReachableUnder Ordered s) : SyncedAgrees s := by
  have hinit : Tracked (.start slavePosition p object) :=
    ⟨fun _ _ _ hc => (by cases hc), fun _ ha => ha.elim, fun _ => h0⟩
  have htracked : Tracked s :=
    hr.invariant hinit fun s a hs he ho => tracked_step fp hs he ho
  intro hquiet
  exact htracked.settled fun t hu => by simp [hquiet t, Call.Unsettled] at hu

def position : DeviceParameter := ⟨0x607A, 0, 0x0004, 32, 0, [], .unknown, {}, .objectDictionary⟩

abbrev drive : System State Action := system plainText 1 position [5, 0, 0, 0]

theorem drive_quiet {actions : List Action} (h : ∀ a ∈ actions, a.thread = 0 ∨ a.thread = 1)
    (h0 : (drive.run drive.initial actions).calls 0 = .idle)
    (h1 : (drive.run drive.initial actions).calls 1 = .idle) :
    Quiet (drive.run drive.initial actions) := by
  intro u
  by_cases hu0 : u = 0
  · exact hu0 ▸ h0
  by_cases hu1 : u = 1
  · exact hu1 ▸ h1
  · refine calls_run_of_ne plainText _ _ _ fun a ha => ?_
    rcases h a ha with ht | ht <;> rwa [ht]

def readAlone : List Action := [.startRead 0, .upload 0 none, .commit 0]

def writeAlone : List Action :=
  [.startWrite 1 (.number .int32 7), .download 1 true none, .commit 1]

/-- A read and then a write, each alone, leave the cell synced with the 7 just written. -/
theorem readThenWrite_agrees :
    Quiet (drive.run drive.initial (readAlone ++ writeAlone)) ∧
      Agree (drive.run drive.initial (readAlone ++ writeAlone)).parameter [7, 0, 0, 0] := by
  have hquiet : Quiet (drive.run drive.initial (readAlone ++ writeAlone)) :=
    drive_quiet (by decide) rfl rfl
  have hread : Quiet (drive.run drive.initial readAlone) := drive_quiet (by decide) rfl rfl
  refine ⟨hquiet, syncedAgrees_of_ordered plainText (p := position) (fun h => by cases h)
    ⟨readAlone ++ writeAlone, System.follows_iff.mpr ⟨by decide +kernel, ?_⟩, rfl⟩ hquiet rfl⟩
  refine System.meets_append.mpr ⟨⟨trivial, trivial, trivial, trivial⟩, ?_, ?_, trivial, trivial⟩
  · intro u hu
    exact (hread u ▸ hu).elim
  · refine fun _ => ⟨fun u hu => ?_, rfl⟩
    by_cases hu1 : u = 1
    · subst hu1
      exact hu
    · have hidle := (calls_next_of_ne plainText (a := .startWrite 1 (.number .int32 7)) hu1).trans
        (hread u)
      exact (hidle ▸ hu).elim

/-- The write completes while the read's reply is on its way back. -/
def writeInsideRead : List Action :=
  [.startRead 0, .upload 0 none] ++ writeAlone ++ [.commit 0]

theorem writeInsideRead_not_agrees :
    ∃ s, drive.Reachable s ∧ Quiet s ∧ s.parameter.syncState = .synced ∧
      ¬ Agree s.parameter s.object :=
  ⟨drive.run drive.initial writeInsideRead, ⟨writeInsideRead, by decide +kernel, rfl⟩,
    drive_quiet (by decide) rfl rfl, by decide +kernel, by decide +kernel⟩

end MotionMaster.Calls
