import MotionMaster.Monitoring.Sources

/-! What a stamp guarantees: plans looked up in a steady image stay good until the next one. -/
namespace MotionMaster.Monitoring

open DeviceManager

variable {s : State}

/-- Nothing is stamped ahead of the generation. -/
structure Stamped (s : State) : Prop where
  entry : ∀ e ∈ s.entries, e.progress.imageGeneration ≤ s.dm.processImageGeneration
  flight : ∀ f g, (s.flights f).stamp = some g → g ≤ s.dm.processImageGeneration

theorem Stamped.setFlight {f : ℕ} {fl : Flight} (h : Stamped s)
    (hf : ∀ g, fl.stamp = some g → g ≤ s.dm.processImageGeneration) :
    Stamped (s.setFlight f fl) := by
  refine ⟨h.entry, fun f' g hg => ?_⟩
  by_cases hff : f' = f
  · simp only [State.setFlight, hff, Function.update_self] at hg
    exact hf g hg
  · simp only [State.setFlight, Function.update_of_ne hff] at hg
    exact h.flight f' g hg

theorem stamped_flush (h : Stamped s) (f : ℕ) : Stamped (s.flush f) := by
  have hset : Stamped (s.setFlight f ((s.flights f).step s.dm)) := by
    refine h.setFlight fun g hg => ?_
    rw [stamp_step] at hg
    cases hfl : s.flights f <;> rw [hfl] at hg
    case taken st => exact Nat.le_of_eq (Option.some.inj hg).symm
    case flushed st => cases hg
    all_goals exact h.flight f g (by rw [hfl]; exact hg)
  refine ⟨fun e' he' => ?_, hset.flight⟩
  cases hfl : s.flights f with
  | flushed st =>
    rw [entries_commit hfl] at he'
    obtain ⟨e, he, rfl⟩ := List.mem_map.mp he'
    unfold commitEntry
    split
    · exact h.flight f _ (by rw [hfl]; rfl)
    · exact h.entry e he
  | _ =>
    have he : e' ∈ s.entries := by simpa [State.flush, hfl, Flight.commit] using he'
    exact h.entry e' he

theorem stamped_mutexStep (h : Stamped s) : Stamped s.mutexStep := by
  unfold State.mutexStep
  split
  · exact h
  · exact ⟨h.entry, h.flight⟩
  · refine ⟨fun e he => ?_, h.flight⟩
    rcases List.mem_append.mp he with he | he
    · exact h.entry e he
    · rw [List.mem_singleton.mp he]
      exact Nat.le_refl _
  · exact ⟨h.entry, h.flight⟩
  · exact ⟨fun e he => h.entry e (List.mem_of_mem_filter he), h.flight⟩

theorem stamped_step {a : Action} (ha : ∀ d, a ≠ .dm d) (h : Stamped s) : Stamped (next s a) := by
  cases a with
  | dm d => exact absurd rfl (ha d)
  | lock t =>
    simp only [next, State.lock]
    split
    · split <;> exact ⟨h.entry, h.flight⟩
    · exact h
  | remove topic =>
    simp only [next, State.remove]
    split
    · exact h
    · exact ⟨h.entry, h.flight⟩
  | mutex => exact stamped_mutexStep h
  | take f topic =>
    simp only [next, State.take]
    split
    · exact h
    · rename_i e hfe
      refine h.setFlight ?_
      rintro g ⟨⟩
      exact h.entry e (findEntry_eq_some hfe).1
  | flush f => exact stamped_flush h f
  | prepare f exchanging sdoValues =>
    refine h.setFlight fun g hg => ?_
    rw [(stamp_prepare exchanging sdoValues _).1] at hg
    exact h.flight f g hg
  | _ => exact ⟨h.entry, h.flight⟩

/-- Only the last step of a re-map counts a generation. -/
theorem generation_dm (dm : DeviceManager.State) (d : DeviceManager.Action) :
    (DeviceManager.next dm d).processImageGeneration = dm.processImageGeneration ∨
      (∃ image, d = .bus (.remapBump image)) ∧
        (DeviceManager.next dm d).processImageGeneration = dm.processImageGeneration + 1 := by
  cases d with
  | rt a => exact .inl (rt_processImageGeneration dm a)
  | pauser t a => exact .inl (pauser_processImageGeneration dm t a)
  | bus a =>
    cases a with
    | remapBump image => exact .inr ⟨⟨image, rfl⟩, rfl⟩
    | _ => exact .inl rfl

def Unused (s : State) : Prop := (∀ plan, ¬ InUse s plan) ∧ ∀ o l, ¬ Looking s o l

/-- No `create` is between its first lookup and its registration. -/
def NoCreate (s : State) : Prop := s.mutex.plans = [] ∧ ∀ t, s.creators t = .idle

structure Bare (s : State) : Prop where
  entries : s.entries = []
  mutex : s.mutex = .free
  creators : ∀ t, s.creators t = .idle
  flights : ∀ f, s.flights f = .idle

theorem Bare.unused (h : Bare s) : Unused s := by
  refine ⟨?_, ?_⟩
  · rintro plan (⟨e, hmem, -, -⟩ | hp | ⟨t, hp⟩ | ⟨f, hst, -⟩)
    · simp [h.entries] at hmem
    · simp [h.mutex, Mutex.plans] at hp
    · simp [h.creators, Creator.plans] at hp
    · simp [h.flights, Flight.stamp] at hst
  · rintro o l (⟨t, hl⟩ | ⟨f, hst, -⟩)
    · simp [h.creators, Creator.lookup] at hl
    · simp [h.flights, Flight.stamp] at hst

theorem Bare.noCreate (h : Bare s) : NoCreate s := ⟨by simp [h.mutex, Mutex.plans], h.creators⟩

section

variable {dm : DeviceManager.State}

theorem stamped_dm (h : Stamped s) (hg : s.dm.processImageGeneration ≤ dm.processImageGeneration) :
    Stamped { s with dm := dm } :=
  ⟨fun e he => Nat.le_trans (h.entry e he) hg, fun f g hf => Nat.le_trans (h.flight f g hf) hg⟩

theorem inUse_dm (hg : dm.processImageGeneration = s.dm.processImageGeneration) {plan : ParamPlan}
    (h : InUse { s with dm := dm } plan) : InUse s plan := by
  cases h with
  | entry e he hs hp => exact .entry e he (hs.trans hg) hp
  | mutex hp => exact .mutex hp
  | creator t hp => exact .creator t hp
  | flight f hs hp => exact .flight f (hs.trans (congrArg some hg)) hp

theorem looking_dm (hg : dm.processImageGeneration = s.dm.processImageGeneration) {o : Object}
    {l : Lookup} (h : Looking { s with dm := dm } o l) : Looking s o l := by
  cases h with
  | creator t h => exact .creator t h
  | flight f hs h => exact .flight f (hs.trans (congrArg some hg)) h

theorem not_inUse_of_bump (hs : Stamped s) (hn : NoCreate s)
    (hg : dm.processImageGeneration = s.dm.processImageGeneration + 1) {plan : ParamPlan} :
    ¬ InUse { s with dm := dm } plan := by
  rintro (⟨e, he, hst, -⟩ | hp | ⟨t, hp⟩ | ⟨f, hst, -⟩)
  · have := hs.entry e he
    simp only at hst
    omega
  · simp [hn.1] at hp
  · simp [hn.2, Creator.plans] at hp
  · have := hs.flight f _ hst
    simp only at this
    omega

theorem not_looking_of_bump (hs : Stamped s) (hn : NoCreate s)
    (hg : dm.processImageGeneration = s.dm.processImageGeneration + 1) {o : Object} {l : Lookup} :
    ¬ Looking { s with dm := dm } o l := by
  rintro (⟨t, h⟩ | ⟨f, hst, -⟩)
  · simp [hn.2, Creator.lookup] at h
  · have := hs.flight f _ hst
    simp only at this
    omega

end

/-! ### What the plans in use are known to be -/

section Tracking

variable (Steady : DeviceManager.State → Prop) (Good : DeviceManager.State → ParamPlan → Prop)
  (Seen : DeviceManager.State → Object → Lookup → Prop)

/-- While the image is steady every plan in use is good, and so is what a lookup has seen. -/
structure Tracks (s : State) : Prop where
  stamped : Stamped s
  plans : Steady s.dm → ∀ plan, InUse s plan → Good s.dm plan
  lookups : Steady s.dm → ∀ o l, Looking s o l → Seen s.dm o l

/-- What a step of the device manager has to leave alone for the plans in use. -/
structure Keeps (s : State) (dm : DeviceManager.State) : Prop where
  steady : Steady s.dm
  plans : ∀ plan, InUse s plan → Good s.dm plan → Good dm plan
  lookups : ∀ o l, Looking s o l → Seen s.dm o l → Seen dm o l

variable {Steady Good Seen}

theorem Keeps.of_unused {dm : DeviceManager.State} (hs : Steady s.dm) (hu : Unused s) :
    Keeps Steady Good Seen s dm :=
  ⟨hs, fun plan hp => absurd hp (hu.1 plan), fun o l hl => absurd hl (hu.2 o l)⟩

theorem tracks_initial : Tracks Steady Good Seen State.initial := by
  refine ⟨⟨by rintro e ⟨⟩, by rintro f g ⟨⟩⟩, ?_, ?_⟩
  · intro _ plan h
    cases h with
    | entry e he hs hp => cases he
    | mutex hp => cases hp
    | creator t hp => cases hp
    | flight f hs hp => cases hp
  · intro _ o l h
    cases h with
    | creator t h => cases h
    | flight f hs h => cases h

/-- A lookup that sees right yields good plans. -/
theorem Tracks.step {a : Action} (h : Tracks Steady Good Seen s) (ha : ∀ d, a ≠ .dm d)
    (hfirst : ∀ o, Seen s.dm o .loadSet)
    (hnext : ∀ o l l', Steady s.dm → Seen s.dm o l → Loads s o l a → l.step s.dm o = .inl l' →
      Seen s.dm o l')
    (hlast : ∀ o l spec, Steady s.dm → Seen s.dm o l → Loads s o l a →
      l.step s.dm o = .inr spec → Good s.dm (planFor o spec)) :
    Tracks Steady Good Seen (next s a) := by
  refine ⟨stamped_step ha h.stamped, ?_, ?_⟩ <;> rw [dm_next ha]
  · intro hs plan hp
    rcases inUse_step ha hp with hp | ⟨l, spec, hl, hload, hstep, hplan⟩
    · exact h.plans hs plan hp
    · rw [hplan]
      exact hlast plan.object l spec hs (h.lookups hs _ l hl) hload hstep
  · intro hs o l hl
    rcases looking_step ha hl with hl | rfl | ⟨l', hl', hload, hstep⟩
    · exact h.lookups hs o l hl
    · exact hfirst o
    · exact hnext o l' l hs (h.lookups hs o l' hl') hload hstep

/-- A step of the device manager keeps what is known, or counts a generation with no `create` in
flight, after which nothing is in use. -/
theorem Tracks.dm {d : DeviceManager.Action} (h : Tracks Steady Good Seen s)
    (hbump : ∀ image, d = .bus (.remapBump image) → NoCreate s)
    (hkeep : (∀ image, d ≠ .bus (.remapBump image)) → Steady (DeviceManager.next s.dm d) →
      Keeps Steady Good Seen s (DeviceManager.next s.dm d)) :
    Tracks Steady Good Seen (next s (.dm d)) := by
  rcases generation_dm s.dm d with hg | ⟨⟨image, rfl⟩, hg⟩
  · have hne : ∀ image, d ≠ .bus (.remapBump image) := by
      rintro image rfl
      simp [DeviceManager.next, BusAction.next] at hg
    refine ⟨stamped_dm h.stamped (by omega), fun hs plan hp => ?_, fun hs o l hl => ?_⟩
    · have hk := hkeep hne hs
      exact hk.plans plan (inUse_dm hg hp) (h.plans hk.steady plan (inUse_dm hg hp))
    · have hk := hkeep hne hs
      exact hk.lookups o l (looking_dm hg hl) (h.lookups hk.steady o l (looking_dm hg hl))
  · have hn := hbump image rfl
    exact ⟨stamped_dm h.stamped (by omega),
      fun _ _ hp => absurd hp (not_inUse_of_bump h.stamped hn hg),
      fun _ _ _ hl => absurd hl (not_looking_of_bump h.stamped hn hg)⟩

end Tracking

end MotionMaster.Monitoring
