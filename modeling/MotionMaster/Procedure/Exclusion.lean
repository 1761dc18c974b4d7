import MotionMaster.Procedure.Lifetime

/-!
# One run to a device

A run that has `running` set is never given up, so the entries of `runs_` show every device that is
busy. A start decides while it holds the mutex, when only the threads still move.
-/

namespace MotionMaster.ProcedureManager

open Interleaving

variable {Progress : Type} {devices : ℕ → Bool} {s s' : State Progress} {a : Action Progress}
  {run run' : Run Progress} {r t u i : ℕ} {now : Int} {k : Key}

def Busy (s : State Progress) (position : ℕ) : Prop :=
  ∃ (r : ℕ) (run : Run Progress), s.runs[r]? = some run ∧ run.key.1 = position ∧ run.running = true

/-- At most one run to a position has `running` set. -/
def Exclusive (s : State Progress) : Prop :=
  ∀ (r r' : ℕ) (run run' : Run Progress), s.runs[r]? = some run → s.runs[r']? = some run' →
    run.key.1 = run'.key.1 → run.running = true → run'.running = true → r = r'

/-! ### The entries -/

theorem mem_of_find (h : s.find k = some r) : (k, r) ∈ s.table := by
  obtain ⟨x, hx, rfl⟩ := Option.map_eq_some_iff.mp h
  have hk : x.1 = k := by simpa using List.find?_some hx
  rw [← hk]
  exact List.mem_of_find?_eq_some hx

theorem find_of_mem (hn : (s.table.map Prod.fst).Nodup) (h : (k, r) ∈ s.table) :
    s.find k = some r := by
  obtain ⟨x, hx⟩ : ∃ x, s.table.find? (fun x => decide (x.1 = k)) = some x :=
    Option.isSome_iff_exists.mp (List.find?_isSome.mpr ⟨_, h, by simp⟩)
  have hk : x.1 = k := by simpa using List.find?_some hx
  have hxr : x = (k, r) := List.inj_on_of_nodup_map hn (List.mem_of_find?_eq_some hx) h hk
  rw [State.find, hx, hxr, Option.map_some]

/-- What of a run only its thread changes, and how. -/
structure Run.Older (run run' : Run Progress) : Prop where
  key : run'.key = run.key
  topologyGeneration : run'.topologyGeneration = run.topologyGeneration
  running : run'.running = true → run.running = true

theorem older_release (run : Run Progress) (h : Holder) : run.Older (run.release h) := by
  unfold Run.release
  split_ifs <;> cases h <;> exact ⟨rfl, rfl, id⟩

theorem older_touched (h : Touched s t i now run run') : run.Older run' := by
  cases h with
  | same | spawned | stopped => exact ⟨rfl, rfl, id⟩
  | dropped | left => exact older_release _ _

theorem older_moved (h : Moved a i run run') : run.Older run' := by
  cases h with
  | same | report | finish => exact ⟨rfl, rfl, id⟩
  | advance now _ =>
    cases hth : run.thread with
    | unstarted | working | released | recorded _ | decided _ =>
      simp only [Run.advance, hth]
      exact ⟨rfl, rfl, id⟩
    | returned result | timed result =>
      cases result <;>
      · simp only [Run.advance, hth]
        exact ⟨rfl, rfl, id⟩
    | published =>
      simp only [Run.advance, hth]
      exact ⟨rfl, rfl, fun h => absurd h (by simp)⟩
    | cleared =>
      have ho := older_release run .thread
      simp only [Run.advance, hth]
      exact ⟨ho.key, ho.topologyGeneration, ho.running⟩

/-- A run after a step is one from before, or the one a start has just made. -/
theorem runs_older (he : Enabled s a) (hr : (next s a).runs[i]? = some run') :
    (∃ run, s.runs[i]? = some run ∧ run.Older run') ∨
      ∃ t now key steps captured, a = .step t now ∧ s.callers t = .inserting key steps captured ∧
        i = s.runs.length ∧ run' = freshRun s key steps captured now := by
  rcases runs_next he hr with ⟨t, now, rfl, hr'⟩ | ⟨-, run, hold, hm⟩
  · rcases stepped_stepCaller s t now with h | h
    · rw [h] at hr'
      exact .inl ⟨run', hr', rfl, rfl, id⟩
    · rcases runs_stepped h hr' with ⟨run, hold, ht⟩ | ⟨key, steps, captured, hc, hi, rfl⟩
      · exact .inl ⟨run, hold, older_touched ht⟩
      · exact .inr ⟨t, now, key, steps, captured, rfl, hc, hi, rfl⟩
  · exact .inl ⟨run, hold, older_moved hm⟩

theorem length_stepped (h : Stepped s t now s') : s.runs.length ≤ s'.runs.length := by
  cases h with
  | insert key steps captured hc =>
    have hlen (x : State Progress) (k : Key) (new : Run Progress) :
        x.runs.length ≤ (x.insert k new).runs.length := by
      unfold State.insert
      cases x.find k <;> simp [State.erase, State.setRun]
    exact hlen s key _
  | _ => simp [State.setCaller, State.answer, State.setRun, State.erase]

theorem runs_persist (he : Enabled s a) (hr : s.runs[r]? = some run) :
    ∃ run', (next s a).runs[r]? = some run' ∧ run.Older run' := by
  have hlt : r < s.runs.length := (List.getElem?_eq_some_iff.mp hr).1
  have hle : s.runs.length ≤ (next s a).runs.length := by
    cases a with
    | step t now =>
      rcases stepped_stepCaller s t now with h | h
      · rw [next, h]
      · exact length_stepped h
    | _ => simp [next, State.setCaller, State.setRun]
  obtain ⟨run', hr'⟩ : ∃ run', (next s a).runs[r]? = some run' :=
    ⟨_, List.getElem?_eq_getElem (Nat.lt_of_lt_of_le hlt hle)⟩
  rcases runs_older he hr' with ⟨run₀, hold, ho⟩ | ⟨_, _, _, _, _, -, -, hi, -⟩
  · obtain rfl := Option.some.inj (hr.symm.trans hold)
    exact ⟨run', hr', ho⟩
  · omega

variable {new : Run Progress}

theorem mem_table_insert {x : Key × ℕ} :
    x ∈ (s.insert k new).table ↔ x = (k, s.runs.length) ∨ x ∈ s.table ∧ x.1 ≠ k := by
  unfold State.insert
  cases hf : s.find k with
  | none =>
    have hnone : x ∈ s.table → x.1 ≠ k := by
      intro hx hk
      have := List.find?_eq_none.mp (Option.map_eq_none_iff.mp hf) x hx
      simp [hk] at this
    simp only [List.mem_orderedInsert]
    tauto
  | some r => simp [List.mem_orderedInsert, State.erase]

theorem nodup_insert (hn : (s.table.map Prod.fst).Nodup) :
    ((s.insert k new).table.map Prod.fst).Nodup := by
  have hperm (l : List (Key × ℕ)) (n : ℕ) :
      ((l.orderedInsert keyLe (k, n)).map Prod.fst).Perm (k :: l.map Prod.fst) :=
    (List.perm_orderedInsert keyLe (k, n) l).map Prod.fst
  unfold State.insert
  cases hf : s.find k with
  | none =>
    refine (hperm _ _).nodup_iff.mpr (List.nodup_cons.mpr ⟨?_, hn⟩)
    intro hk
    obtain ⟨x, hx, hxk⟩ := List.mem_map.mp hk
    have := List.find?_eq_none.mp (Option.map_eq_none_iff.mp hf) x hx
    simp [hxk] at this
  | some r =>
    refine (hperm _ _).nodup_iff.mpr (List.nodup_cons.mpr ⟨?_, ?_⟩)
    · simp [State.erase]
    · exact hn.sublist (List.filter_sublist.map _)

/-- The entries show every run that has `running` set, and a start in progress has seen them. -/
structure Shown (s : State Progress) : Prop where
  mutex : MutexHeld s
  nodup : (s.table.map Prod.fst).Nodup
  keyed : ∀ x ∈ s.table, ∃ run, s.runs[x.2]? = some run ∧ run.key = x.1
  tabled : ∀ (r : ℕ) (run : Run Progress), s.runs[r]? = some run → run.running = true →
    (run.key, r) ∈ s.table
  exclusive : Exclusive s
  scanned : ∀ (t : ℕ) (key : Key) (steps : Progress) (captured : ℕ) (todo : List Key),
    s.callers t = .scanning key steps captured todo → ∀ (r : ℕ) (run : Run Progress),
      s.runs[r]? = some run → run.key.1 = key.1 → run.running = true → run.key ∈ todo
  clear : ∀ (t : ℕ) (key : Key) (steps : Progress) (captured : ℕ),
    s.callers t = .inserting key steps captured → ¬ Busy s key.1

theorem shown_initial : Shown (State.initial devices : State Progress) where
  mutex _ h := h.elim
  nodup := List.nodup_nil
  keyed _ h := by cases h
  tabled _ _ h := by cases h
  exclusive _ _ _ _ h := by cases h
  scanned _ _ _ _ _ h := by cases h
  clear _ _ _ _ h := by cases h

/-- The entries stay, lose one that is collectable, or get the one of a new run. -/
theorem table_next (s : State Progress) (a : Action Progress) : (next s a).table = s.table ∨
    (∃ t now call generation k todo r, a = .step t now ∧
      s.callers t = .sweeping call generation (k :: todo) ∧ s.find k = some r ∧
        s.collectable generation r = true ∧ (next s a).table = s.table.filter fun x => x.1 ≠ k) ∨
    ∃ t now key steps captured, a = .step t now ∧ s.callers t = .inserting key steps captured ∧
      (next s a).table = (s.insert key (freshRun s key steps captured now)).table := by
  cases a with
  | step t now =>
    rcases stepped_stepCaller s t now with h | h
    · exact .inl (by rw [next, h])
    · rw [next]
      generalize s.stepCaller t now = s' at h
      cases h with
      | discard call generation k todo r hc hf hr =>
        exact .inr (.inl ⟨t, now, call, generation, k, todo, r, rfl, hc, hf, hr, rfl⟩)
      | insert key steps captured hc =>
        exact .inr (.inr ⟨t, now, key, steps, captured, rfl, hc, rfl⟩)
      | _ => exact .inl rfl
  | _ => exact .inl rfl

variable {key : Key} {steps : Progress}

theorem next_inserting {captured : ℕ}
    (hc : s.callers t = .inserting key steps captured) :
    next s (.step t now) = (s.insert key (freshRun s key steps captured now)).setCaller t
      (.inserted s.runs.length) := by
  simp only [next, State.stepCaller, hc]
  rfl

theorem runs_insert_last :
    (s.insert k new).runs[s.runs.length]? = some new := by
  unfold State.insert
  cases s.find k <;> simp [State.erase, State.setRun]

theorem nodup_step (h : Shown s) : ((next s a).table.map Prod.fst).Nodup := by
  rcases table_next s a with ht | ⟨_, _, _, _, _, _, _, -, -, -, -, ht⟩ | ⟨_, _, _, _, _, -, -, ht⟩
  · rw [ht]
    exact h.nodup
  · rw [ht]
    exact h.nodup.sublist (List.filter_sublist.map _)
  · rw [ht]
    exact nodup_insert h.nodup

theorem keyed_step (h : Shown s) (he : Enabled s a) {x : Key × ℕ} (hx : x ∈ (next s a).table) :
    ∃ run, (next s a).runs[x.2]? = some run ∧ run.key = x.1 := by
  have hold (hx : x ∈ s.table) : ∃ run, (next s a).runs[x.2]? = some run ∧ run.key = x.1 := by
    obtain ⟨run, hr, hk⟩ := h.keyed x hx
    obtain ⟨run', hr', ho⟩ := runs_persist he hr
    exact ⟨run', hr', ho.key.trans hk⟩
  rcases table_next s a with ht | ⟨_, _, _, _, _, _, _, -, -, -, -, ht⟩ |
    ⟨t, now, key, steps, captured, rfl, hc, ht⟩
  · exact hold (ht ▸ hx)
  · rw [ht] at hx
    exact hold (List.mem_filter.mp hx).1
  · rw [ht, mem_table_insert] at hx
    rcases hx with rfl | ⟨hx, -⟩
    · rw [next_inserting hc]
      exact ⟨_, runs_insert_last, rfl⟩
    · exact hold hx

theorem not_running_of_collectable {generation : ℕ} (hc : s.collectable generation r = true)
    (hr : s.runs[r]? = some run) : run.running = false := by
  rw [State.collectable, hr] at hc
  simpa using (Bool.and_eq_true_iff.mp hc).2

theorem tabled_step (h : Shown s) (he : Enabled s a) (hr : (next s a).runs[r]? = some run')
    (hrun : run'.running = true) : (run'.key, r) ∈ (next s a).table := by
  rcases runs_older he hr with ⟨run, hold, ho⟩ | ⟨t, now, key, steps, captured, rfl, hc, hi, rfl⟩
  · have hrunning := ho.running hrun
    have hmem := h.tabled r run hold hrunning
    rw [ho.key]
    rcases table_next s a with ht | ⟨_, _, _, _, k, _, r₀, -, -, hf, hcol, ht⟩ |
      ⟨t, now, key, steps, captured, rfl, hc, ht⟩
    · rwa [ht]
    · rw [ht]
      refine List.mem_filter.mpr ⟨hmem, ?_⟩
      have hne : run.key ≠ k := by
        intro hk
        rw [← hk, find_of_mem h.nodup hmem] at hf
        obtain rfl := Option.some.inj hf
        rw [not_running_of_collectable hcol hold] at hrunning
        cases hrunning
      simpa using hne
    · rw [ht, mem_table_insert]
      refine .inr ⟨hmem, fun hk => ?_⟩
      exact h.clear t key steps captured hc ⟨r, run, hold, congrArg Prod.fst hk, hrunning⟩
  · rw [next_inserting hc, hi]
    change _ ∈ (s.insert key (freshRun s key steps captured now)).table
    rw [mem_table_insert]
    exact .inl rfl

theorem exclusive_step (h : Shown s) (he : Enabled s a) : Exclusive (next s a) := by
  -- a new run meets no other that has `running` set
  have hnew {t r : ℕ} {key : Key} {steps : Progress} {captured : ℕ} {run run' : Run Progress}
      (hc : s.callers t = .inserting key steps captured) (hr : s.runs[r]? = some run)
      (ho : run.Older run') (hk : run'.key.1 = key.1) (hrun : run'.running = true) : False :=
    h.clear t key steps captured hc ⟨r, run, hr, by rw [← ho.key, hk], ho.running hrun⟩
  intro r r' run₁ run₂ hr hr' hk hrun hrun'
  rcases runs_older he hr with ⟨old, hold, ho⟩ | ⟨t, now, key, steps, captured, rfl, hc, hi, rfl⟩
  · rcases runs_older he hr' with ⟨old', hold', ho'⟩ |
      ⟨t, now, key, steps, captured, rfl, hc, hi, rfl⟩
    · refine h.exclusive r r' old old' hold hold' ?_ (ho.running hrun) (ho'.running hrun')
      rw [← ho.key, ← ho'.key, hk]
    · exact (hnew hc hold ho hk hrun).elim
  · rcases runs_older he hr' with ⟨old', hold', ho'⟩ | ⟨_, _, _, _, _, -, -, hi', -⟩
    · exact (hnew hc hold' ho' hk.symm hrun').elim
    · rw [hi, hi']

/-- Two callers past the mutex are one. -/
theorem MutexHeld.eq (h : MutexHeld s) (ht : (s.callers t).Locked) (hu : (s.callers u).Locked) :
    t = u := Option.some.inj ((h t ht).symm.trans (h u hu))

def Caller.Entering : Caller Progress → Prop
  | .starting .. | .waiting _ => True
  | _ => False

/-- A caller the action does not step is where it was, or begins a call. -/
theorem callers_next (s : State Progress) (a : Action Progress) (u : ℕ) :
    (next s a).callers u = s.callers u ∨ ((next s a).callers u).Entering ∨
      ∃ now, a = .step u now ∧ Stepped s u now (next s a) := by
  cases a with
  | step t now =>
    rcases stepped_stepCaller s t now with h | h
    · exact .inl (by rw [next, h])
    · by_cases hut : u = t
      · subst hut
        exact .inr (.inr ⟨now, rfl, h⟩)
      · exact .inl (callers_stepped_ne h hut)
  | start t key steps | snapshot t key | cancel t key =>
    rw [next, s.callers_setCaller]
    split_ifs
    · exact .inr (.inl trivial)
    · exact .inl rfl
  | rescan | publish _ | report _ _ | finish _ _ | advance _ _ => exact .inl rfl

/-- Where a caller holds the mutex and has not just inserted a run, none has begun. -/
theorem older_of_locked (h : MutexHeld s) (he : Enabled s a) (hl : ((next s a).callers u).Locked)
    (hn : ∀ i, (next s a).callers u ≠ .inserted i) (hr : (next s a).runs[r]? = some run') :
    ∃ run, s.runs[r]? = some run ∧ run.Older run' := by
  rcases runs_older he hr with hold | ⟨t, now, key, steps, captured, rfl, hc, -, -⟩
  · exact hold
  · rw [next_inserting hc, State.callers_setCaller] at hl hn
    by_cases hut : u = t
    · exact absurd (if_pos hut) (hn _)
    · rw [if_neg hut, State.callers_insert] at hl
      exact absurd (h.eq hl (by rw [hc]; trivial)) hut

variable {todo : List Key}

theorem scanned_step (h : Shown s) (he : Enabled s a) {captured : ℕ}
    (hc : (next s a).callers u = .scanning key steps captured todo)
    (hr : (next s a).runs[r]? = some run') (hk : run'.key.1 = key.1) (hrun : run'.running = true) :
    run'.key ∈ todo := by
  obtain ⟨run, hold, ho⟩ := older_of_locked h.mutex he (by rw [hc]; trivial) (by simp [hc]) hr
  have hrunning := ho.running hrun
  rw [ho.key] at hk ⊢
  rcases callers_next s a u with hu | hu | ⟨now, rfl, hs⟩
  · exact h.scanned u key steps captured todo (hu ▸ hc) r run hold hk hrunning
  · rw [hc] at hu
    exact hu.elim
  · generalize next s (.step u now) = s' at hc hs
    cases hs with
    | scan key' steps' captured' generation hcu =>
      rw [s.callers_setCaller, if_pos rfl] at hc
      cases hc
      exact List.mem_map.mpr ⟨_, h.tabled r run hold hrunning, rfl⟩
    | pass key' steps' captured' k todo' hcu hb =>
      rw [s.callers_setCaller, if_pos rfl] at hc
      cases hc
      rcases List.mem_cons.mp (h.scanned u _ _ _ _ hcu r run hold hk hrunning) with rfl | hmem
      · -- the entry just passed is this run's, and would have been found busy
        have hf : s.find run.key = some r := find_of_mem h.nodup (h.tabled r run hold hrunning)
        rw [(s.busyEntry_iff run.key).mpr ⟨hk, r, run, hf, hold, hrunning⟩] at hb
        cases hb
      · exact hmem
    | _ => simp [State.setCaller, State.answer] at hc

theorem clear_step (h : Shown s) (he : Enabled s a) {captured : ℕ}
    (hc : (next s a).callers u = .inserting key steps captured) : ¬ Busy (next s a) key.1 := by
  rintro ⟨r, run', hr, hk, hrun⟩
  obtain ⟨run, hold, ho⟩ := older_of_locked h.mutex he (by rw [hc]; trivial) (by simp [hc]) hr
  have hrunning := ho.running hrun
  rw [ho.key] at hk
  rcases callers_next s a u with hu | hu | ⟨now, rfl, hs⟩
  · exact h.clear u key steps captured (hu ▸ hc) ⟨r, run, hold, hk, hrunning⟩
  · rw [hc] at hu
    exact hu.elim
  · generalize next s (.step u now) = s' at hc hs
    cases hs with
    | proceed key' steps' captured' hcu =>
      rw [s.callers_setCaller, if_pos rfl] at hc
      cases hc
      exact absurd (h.scanned u _ _ _ _ hcu r run hold hk hrunning) List.not_mem_nil
    | _ => simp [State.setCaller, State.answer] at hc

theorem shown_step (he : Enabled s a) (h : Shown s) : Shown (next s a) where
  mutex := mutexHeld_step he h.mutex
  nodup := nodup_step h
  keyed _ hx := keyed_step h he hx
  tabled _ _ hr hrun := tabled_step h he hr hrun
  exclusive := exclusive_step h he
  scanned _ _ _ _ _ hc _ _ hr hk hrun := scanned_step h he hc hr hk hrun
  clear _ _ _ _ hc := clear_step h he hc

theorem shown_reachable {C : State Progress → Action Progress → Prop}
    (h : (system devices).ReachableUnder C s) : Shown s :=
  h.invariant shown_initial fun _ _ hs he _ => shown_step he hs

/-- In every interleaving `runs_` has a run that has `running` set, whatever was scanned since. -/
theorem find_of_running (h : (system devices).Reachable s) {r : ℕ} {run : Run Progress}
    (hr : s.runs[r]? = some run) (hrun : run.running = true) : s.find run.key = some r :=
  have hs := shown_reachable h
  find_of_mem hs.nodup (hs.tabled r run hr hrun)

theorem startOffsetDetection_find :
    let actions := startOffsetDetection 0 9 ++ [.rescan]
    let s := (system onePosition).run (State.initial onePosition) actions
    ∃ run, s.runs[0]? = some run ∧ s.find run.key = some 0 :=
  ⟨_, rfl, find_of_running ⟨_, by decide +kernel, rfl⟩ rfl rfl⟩

/-! ### The decision -/

/-- A start past the sweep refuses while a run at the position has `running` set, goes on when none
has, or passes an entry. -/
inductive Decided (s : State Progress) (key : Key) (steps : Progress) (captured : ℕ) :
    List Key → Caller Progress → Prop
  | refused (todo : List Key) (r : ℕ) (run : Run Progress) (hr : s.runs[r]? = some run)
      (hk : run.key.1 = key.1) (hrun : run.running = true) :
      Decided s key steps captured todo (.done (.refused .kBusy
        ("device " ++ toString key.1 ++ " is busy running '" ++ run.key.2 ++ "'")))
  | admitted (hb : ¬ Busy s key.1) :
      Decided s key steps captured [] (.inserting key steps captured)
  | passed (k : Key) (todo : List Key) :
      Decided s key steps captured (k :: todo) (.scanning key steps captured todo)

theorem decided_step (h : Shown s) {captured : ℕ}
    (hc : s.callers t = .scanning key steps captured todo) :
    Decided s key steps captured todo ((next s (.step t now)).callers t) := by
  cases todo with
  | nil =>
    simp only [next, State.stepCaller, hc, State.callers_setCaller, if_true]
    refine .admitted ?_
    rintro ⟨r, run, hr, hk, hrun⟩
    exact absurd (h.scanned t key steps captured [] hc r run hr hk hrun) List.not_mem_nil
  | cons k todo =>
    simp only [next, State.stepCaller, hc]
    split_ifs with hb
    · obtain ⟨hk, r, run, hf, hr, hrun⟩ := (s.busyEntry_iff k).mp hb
      obtain rfl : run.key = k := by
        obtain ⟨run₁, hr₁, hk₁⟩ := h.keyed _ (mem_of_find hf)
        obtain rfl := Option.some.inj (hr.symm.trans hr₁)
        exact hk₁
      rw [State.callers_answer, if_pos rfl]
      exact .refused _ r run hr hk hrun
    · rw [State.callers_setCaller, if_pos rfl]
      exact .passed k todo

/-! ### The generations -/

def Call.captured : Call Progress → Option ℕ
  | .start _ _ generation => some generation
  | .snapshot _ | .cancel _ => none

def Caller.captured : Caller Progress → Option ℕ
  | .waiting call | .locked call | .sweeping call _ _ => call.captured
  | .scanning _ _ generation _ | .inserting _ _ generation => some generation
  | _ => none

/-- No generation is ahead of the bus, and none that a sweep finds is ahead of the sweep. -/
structure Dated (s : State Progress) : Prop where
  runs : ∀ (r : ℕ) (run : Run Progress), s.runs[r]? = some run →
    run.topologyGeneration ≤ s.generation
  captured : ∀ (t g : ℕ), (s.callers t).captured = some g → g ≤ s.generation
  swept : ∀ (t : ℕ) (call : Call Progress) (g : ℕ) (todo : List Key),
    s.callers t = .sweeping call g todo → g ≤ s.generation ∧ ∀ (r : ℕ) (run : Run Progress),
      s.runs[r]? = some run → run.topologyGeneration ≤ g

theorem dated_initial : Dated (State.initial devices : State Progress) where
  runs _ _ h := by cases h
  captured _ _ h := by cases h
  swept _ _ _ _ h := by cases h

theorem generation_next (s : State Progress) (a : Action Progress) :
    s.generation ≤ (next s a).generation := by
  cases a with
  | rescan => exact Nat.le_succ _
  | step t now =>
    rcases stepped_stepCaller s t now with h | h
    · rw [next, h]
    · rw [next]
      generalize s.stepCaller t now = s' at h
      cases h with
      | insert key steps captured hc =>
        exact (s.generation_insert key (freshRun s key steps captured now)).ge
      | _ => exact le_rfl
  | _ => exact le_rfl

variable {g : ℕ}

theorem captured_next (hg : ((next s a).callers u).captured = some g) :
    (s.callers u).captured = some g ∨ g = s.generation := by
  cases a with
  | step t now =>
    rcases stepped_stepCaller s t now with h | h
    · rw [next, h] at hg
      exact .inl hg
    · by_cases hut : u = t
      · subst hut
        rw [next] at hg
        generalize s.stepCaller u now = s' at h hg
        cases h with
        | stamp key steps hc =>
          rw [s.callers_setCaller, if_pos rfl] at hg
          exact .inr (Option.some.inj hg).symm
        | lock _ hc | look _ hc | keep _ _ _ _ hc | discard _ _ _ _ _ hc | scan _ _ _ _ hc
        | pass _ _ _ _ _ hc | proceed _ _ _ hc =>
          left
          simpa [hc, State.setCaller, Caller.captured, Call.captured] using hg
        | _ => simp [State.setCaller, State.answer, Caller.captured] at hg
      · rw [next, callers_stepped_ne h hut] at hg
        exact .inl hg
  | start t key steps | snapshot t key | cancel t key =>
    rw [next, s.callers_setCaller] at hg
    split_ifs at hg
    · cases hg
    · exact .inl hg
  | rescan | publish _ | report _ _ | finish _ _ | advance _ _ => exact .inl hg

variable {call : Call Progress}

/-- A sweep was under way, or begins with the generation of now. -/
theorem sweeping_next
    (hc : (next s a).callers u = .sweeping call g todo) :
    g = s.generation ∨ ∃ todo', s.callers u = .sweeping call g todo' := by
  rcases callers_next s a u with hu | hu | ⟨now, rfl, hs⟩
  · exact .inr ⟨todo, hu ▸ hc⟩
  · rw [hc] at hu
    exact hu.elim
  · generalize next s (.step u now) = s' at hc hs
    cases hs with
    | look _ hcu =>
      rw [s.callers_setCaller, if_pos rfl] at hc
      cases hc
      exact .inl rfl
    | keep _ _ _ _ hcu | discard _ _ _ _ _ hcu =>
      rw [State.callers_setCaller, if_pos rfl] at hc
      cases hc
      exact .inr ⟨_, hcu⟩
    | _ => simp [State.setCaller, State.answer] at hc

theorem swept_step (hm : MutexHeld s) (h : Dated s) (he : Enabled s a)
    (hc : (next s a).callers u = .sweeping call g todo) :
    g ≤ (next s a).generation ∧ ∀ (r : ℕ) (run : Run Progress), (next s a).runs[r]? = some run →
      run.topologyGeneration ≤ g := by
  obtain ⟨hg, hruns⟩ : g ≤ s.generation ∧ ∀ (r : ℕ) (run : Run Progress),
      s.runs[r]? = some run → run.topologyGeneration ≤ g := by
    rcases sweeping_next hc with rfl | ⟨todo', hcu⟩
    · exact ⟨le_rfl, h.runs⟩
    · exact h.swept u call g todo' hcu
  refine ⟨hg.trans (generation_next s a), fun r run hr => ?_⟩
  obtain ⟨old, hold, ho⟩ := older_of_locked hm he (by rw [hc]; trivial) (by simp [hc]) hr
  rw [ho.topologyGeneration]
  exact hruns r old hold

theorem dated_step (hm : MutexHeld s) (he : Enabled s a) (h : Dated s) : Dated (next s a) where
  runs r run hr := by
    refine le_trans ?_ (generation_next s a)
    rcases runs_older he hr with ⟨old, hold, ho⟩ | ⟨t, now, key, steps, captured, rfl, hc, -, rfl⟩
    · rw [ho.topologyGeneration]
      exact h.runs r old hold
    · exact h.captured t captured (by rw [hc]; rfl)
  captured t g hg := by
    refine le_trans ?_ (generation_next s a)
    rcases captured_next hg with hg | rfl
    · exact h.captured t g hg
    · exact le_rfl
  swept _ _ _ _ hc := swept_step hm h he hc

theorem dated_reachable {C : State Progress → Action Progress → Prop}
    (h : (system devices).ReachableUnder C s) : Dated s :=
  h.induct dated_initial fun _ _ hr hd he _ => dated_step (shown_reachable hr).mutex he hd

/-- A start that has neither refused nor inserted its run. -/
def Caller.Undecided : Caller Progress → Prop
  | .starting .. | .resolved .. | .scanning .. => True
  | .waiting call | .locked call | .sweeping call _ _ => call.captured.isSome
  | _ => False

/-- The entries of the current generation are still there, with their runs as they were. -/
def Retains (s s' : State Progress) : Prop :=
  ∀ (k : Key) (r : ℕ) (run : Run Progress), s.find k = some r → s.runs[r]? = some run →
    run.topologyGeneration = s.generation → s'.find k = some r ∧ s'.runs[r]? = some run

theorem find_erase {k₀ : Key} (hk : k ≠ k₀) : (s.erase k₀ r).find k = s.find k := by
  unfold State.erase State.find
  rw [List.find?_filter]
  congr 2
  funext x
  by_cases hx : x.1 = k
  · simp [hx, hk]
  · simp [hx]

/-- What a sweep discards is of an earlier generation. -/
theorem retains_discard (hd : Dated s) {k₀ : Key}
    (hc : s.callers t = .sweeping call g (k₀ :: todo)) (hf : s.find k₀ = some i)
    (hcol : s.collectable g i = true) : Retains s (s.erase k₀ i) := by
  intro k r run hk hr hgen
  have hri : r ≠ i := by
    rintro rfl
    rw [State.collectable, hr] at hcol
    have hne : run.topologyGeneration ≠ g := by
      simpa using (Bool.and_eq_true_iff.mp hcol).1
    have hle := (hd.swept t call g _ hc).2 r run hr
    have hg := (hd.swept t call g _ hc).1
    omega
  have hkk : k ≠ k₀ := by
    rintro rfl
    exact hri (Option.some.inj (hk.symm.trans hf))
  refine ⟨by rw [find_erase hkk, hk], ?_⟩
  change (s.setRun i _).runs[r]? = _
  rw [s.runs_setRun, if_neg hri, hr]

theorem retains_step (hd : Dated s) (hu : (s.callers t).Undecided) :
    Retains s (next s (.step t now)) := by
  rcases stepped_stepCaller s t now with h | h
  · rw [next, h]
    exact fun _ _ _ hk hr _ => ⟨hk, hr⟩
  · rw [next]
    generalize s.stepCaller t now = s' at h
    cases h with
    | discard call g k₀ todo i hc hf hcol => exact retains_discard hd hc hf hcol
    | insert _ _ _ hc | spawn _ hc | leave _ hc | stop _ hc =>
      rw [hc] at hu
      exact hu.elim
    | _ => exact fun _ _ _ hk hr _ => ⟨hk, hr⟩

end MotionMaster.ProcedureManager
