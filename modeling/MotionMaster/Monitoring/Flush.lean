import MotionMaster.Monitoring.Tracking

/-! One flush on its own, from the moment it is taken to its commit. -/
namespace MotionMaster.Monitoring

open Interleaving DeviceManager

def OfFlush (f : ℕ) : Action → Prop
  | .flush g | .prepare g _ _ => g = f
  | _ => False

/-- A flush of `topic` that nothing else interrupts leads from `s` to `t`. -/
def Flushes (s : State) (f : ℕ) (topic : String) (t : State) : Prop :=
  ∃ steps, (∀ a ∈ steps, OfFlush f a) ∧
    system.Follows (fun _ _ => True) s (.take f topic :: steps) ∧
    system.run s (.take f topic :: steps) = t ∧ t.flights f = .idle

variable {s t : State} {f : ℕ} {topic : String}

/-! ### It ends -/

def Lookup.remaining : Lookup → ℕ
  | .loadSet => 3
  | .loadImage _ => 2
  | .loadType _ _ => 1

/-- A bound on the steps left, with the ring standing still. -/
def Flight.remaining (ring : Ring) : Flight → ℕ
  | .idle | .threw _ => 0
  | .flushed _ => 1
  | .reading _ head _ seq _ _ _ => 2 + (head - seq)
  | .sampling _ head _ => 3 + head
  | .measured _ head _ => 4 + head
  | .captured _ => 5 + ring.head
  | .deciding _ _ _ _ todo _ => 6 + ring.head + 5 * todo.length
  | .recapturing _ _ _ _ todo l => 6 + ring.head + 5 * todo.length + l.remaining
  | .taken st => 7 + ring.head + 5 * st.progress.plans.length

/-- Within the recorded span, so that no reservation fails. -/
def Flight.OnTrack (ring : Ring) : Flight → Prop
  | .threw _ => False
  | .measured _ head _ => head = ring.head
  | .sampling st head _ => st.progress.cursor ≤ head
  | .reading _ head _ seq _ _ _ => seq ≤ head
  | _ => True

theorem remaining_recapture (ring : Ring) (st : FlushState) (generation : ℕ)
    (done todo : List ParamPlan) :
    (Flight.recapture st generation done todo).remaining ring < 6 + ring.head + 5 * todo.length ∧
      (Flight.recapture st generation done todo).OnTrack ring := by
  cases todo with
  | nil => exact ⟨by simp [Flight.recapture, Flight.remaining], trivial⟩
  | cons plan todo =>
    refine ⟨?_, trivial⟩
    simp only [Flight.recapture, Flight.remaining, Lookup.remaining, List.length_cons]
    omega

theorem remaining_lookup {dm : DeviceManager.State} {o : Object} {l l' : Lookup}
    (h : l.step dm o = .inl l') : l'.remaining < l.remaining := by
  cases l with
  | loadSet =>
    cases h
    exact Nat.lt_succ_self 2
  | loadImage set =>
    simp only [Lookup.step] at h
    split at h
    · cases h
    · split at h
      · cases h
        exact Nat.lt_succ_self 1
      · cases h
  | loadType set loc => cases h

theorem remaining_step {dm : DeviceManager.State} {fl : Flight} (h : fl.OnTrack dm.ring)
    (hi : ¬ fl.Idle) (hs : ¬ fl.Sampling) :
    (fl.step dm).remaining dm.ring < fl.remaining dm.ring ∧ (fl.step dm).OnTrack dm.ring := by
  cases fl with
  | idle => exact absurd trivial hi
  | sampling st head base => exact absurd trivial hs
  | threw st => exact h.elim
  | taken st =>
    simp only [Flight.step]
    split
    · exact ⟨by simp only [Flight.remaining]; omega, trivial⟩
    · obtain ⟨hr, ho⟩ := remaining_recapture dm.ring st dm.processImageGeneration []
        st.progress.plans
      exact ⟨by simp only [Flight.remaining] at hr ⊢; omega, ho⟩
  | recapturing st generation done plan todo l =>
    simp only [Flight.step]
    split
    · rename_i l' hl
      exact ⟨Nat.add_lt_add_left (remaining_lookup hl) _, trivial⟩
    · refine ⟨?_, trivial⟩
      cases l <;> simp [Flight.remaining, Lookup.remaining]
  | deciding st generation done plan todo spec =>
    obtain ⟨hr, ho⟩ := remaining_recapture dm.ring st generation (done ++ [plan.resource spec]) todo
    exact ⟨hr, ho⟩
  | captured st =>
    simp only [Flight.step, measure]
    split_ifs
    · exact ⟨by simp only [Flight.remaining]; omega, trivial⟩
    · exact ⟨by simp only [Flight.remaining]; omega, trivial⟩
    · exact ⟨by simp only [Flight.remaining]; omega, rfl⟩
  | measured st head base =>
    refine ⟨by simp only [Flight.step, Flight.remaining]; omega, ?_⟩
    have hhead : head = dm.ring.head := h
    have hle := dm.ring.oldestValidSeq_le
    simp only [Flight.step, Flight.OnTrack, resync]
    split_ifs with ho
    · simpa [hhead] using hle
    · simp only [OutsideSpan] at ho
      omega
  | reading st head base seq exchanging sdoValues rows =>
    have hle : seq ≤ head := h
    simp only [Flight.step]
    split
    · exact ⟨by simp only [Flight.remaining]; omega, trivial⟩
    · exact ⟨by simp only [Flight.remaining]; omega, by simp only [Flight.OnTrack]; omega⟩
  | flushed st => exact ⟨by simp [Flight.step, Flight.remaining], trivial⟩

theorem canStep_of_onTrack {fl : Flight} {ring : Ring} (h : fl.OnTrack ring) (hi : ¬ fl.Idle)
    (hs : ¬ fl.Sampling) (hb : s.dm.bus = .idle) (hm : s.mutex = .free) : fl.CanStep s := by
  cases fl <;> simp_all [Flight.CanStep, Flight.Idle, Flight.Sampling, Flight.OnTrack, RecorderHeld]

theorem steps_to_idle (n : ℕ) (hb : s.dm.bus = .idle) (hm : s.mutex = .free)
    (ho : (s.flights f).OnTrack s.dm.ring) (hn : (s.flights f).remaining s.dm.ring ≤ n) :
    ∃ steps, (∀ a ∈ steps, OfFlush f a) ∧ system.Follows (fun _ _ => True) s steps ∧
      (system.run s steps).flights f = .idle := by
  induction n generalizing s with
  | zero =>
    refine ⟨[], by simp, trivial, ?_⟩
    cases hfl : s.flights f <;> rw [hfl] at hn ho <;> simp [Flight.remaining] at hn
    · exact hfl
    · exact ho.elim
  | succ n ih =>
    -- one more step, whichever it is, and the rest by induction
    have hcons : ∀ a, OfFlush f a → Enabled s a → (next s a).dm = s.dm →
        (next s a).mutex = s.mutex → ((next s a).flights f).OnTrack s.dm.ring →
        ((next s a).flights f).remaining s.dm.ring ≤ n →
        ∃ steps, (∀ a ∈ steps, OfFlush f a) ∧ system.Follows (fun _ _ => True) s steps ∧
          (system.run s steps).flights f = .idle := by
      intro a ha he hdm hmu hot hrem
      obtain ⟨steps, hof, hfo, hend⟩ := ih (s := next s a) (by rw [hdm, hb]) (by rw [hmu, hm])
        (by rwa [hdm]) (by rwa [hdm])
      refine ⟨a :: steps, ?_, ⟨⟨he, trivial⟩, hfo⟩, hend⟩
      simpa [ha] using hof
    by_cases hi : (s.flights f).Idle
    · refine ⟨[], by simp, trivial, ?_⟩
      cases hfl : s.flights f <;> rw [hfl] at hi <;> first | exact hi.elim | exact hfl
    by_cases hs : (s.flights f).Sampling
    · cases hfl : s.flights f with
      | sampling st head base =>
        rw [hfl] at ho hn
        have hle : ¬ head < st.progress.cursor := by simpa [Flight.OnTrack] using ho
        have hnext : (next s (.prepare f (fun _ => false) fun _ => none)).flights f =
            .reading st head base st.progress.cursor (fun _ => false) (fun _ => none) [] := by
          simp [next, State.setFlight, hfl, Flight.prepare, hle]
        refine hcons (.prepare f (fun _ => false) fun _ => none) rfl hs rfl rfl ?_ ?_
        · rw [hnext]
          exact ho
        · rw [hnext]
          simp only [Flight.remaining] at hn ⊢
          omega
      | _ => simp [hfl, Flight.Sampling] at hs
    · obtain ⟨hlt, hot⟩ := remaining_step ho hi hs
      have hnext : (next s (.flush f)).flights f = (s.flights f).step s.dm := by
        simp [next, State.flush]
      refine hcons (.flush f) rfl (canStep_of_onTrack ho hi hs hb hm) rfl rfl ?_ ?_
      · rwa [hnext]
      · rw [hnext]
        omega

/-- At rest a flush of any registered monitoring runs to its commit. -/
theorem flushes_of_atRest (h : AtRest s) (f : ℕ) (ht : (s.findEntry topic).isSome) :
    ∃ t, Flushes s f topic t := by
  obtain ⟨e, he⟩ := Option.isSome_iff_exists.mp ht
  have htake : s.take f topic =
      s.setFlight f (.taken (e.copy (s.dm.ring.base + s.dm.ring.head))) := by
    simp [State.take, he]
  obtain ⟨steps, hof, hfo, hend⟩ := steps_to_idle (s := s.take f topic) (f := f) _
    (by rw [htake]; exact h.dm.2) (by rw [htake]; exact h.mutex)
    (by rw [htake]; simp [State.setFlight, Flight.OnTrack]) (Nat.le_refl _)
  refine ⟨_, steps, hof, ⟨⟨⟨h.mutex, ?_, ht⟩, trivial⟩, hfo⟩, rfl, hend⟩
  rw [h.flights f]
  trivial

/-! ### It leaves the registration stamped -/

def Restamping (G f : ℕ) (topic : String) (u : State) : Prop :=
  (∃ st, (u.flights f).copy = some st ∧
      (∃ e ∈ u.entries, e.config.topic = topic ∧ e.epoch = st.epoch) ∧
      ((∃ st', u.flights f = .taken st') ∨ (u.flights f).stamp = some G)) ∨
    u.flights f = .idle ∧
      ∀ e ∈ u.entries, e.config.topic = topic → e.progress.imageGeneration = G

variable {G : ℕ}

theorem restamping_flush (hw : WellFormed s) (hg : s.dm.processImageGeneration = G)
    (he : (s.flights f).CanStep s) (h : Restamping G f topic s) :
    Restamping G f topic (s.flush f) := by
  rcases h with ⟨st, hst, ⟨e, hmem, ht, hep⟩, hstamp⟩ | ⟨hidle, -⟩
  · cases hfl : s.flights f with
    | flushed st' =>
      have hst' : st' = st := Option.some.inj (by rw [← hst, hfl]; rfl)
      subst hst'
      refine .inr ⟨by simp [State.flush, hfl, Flight.step], ?_⟩
      intro e' he' ht'
      rw [entries_commit hfl] at he'
      obtain ⟨e₀, he₀, rfl⟩ := List.mem_map.mp he'
      rw [config_commitEntry] at ht'
      obtain rfl := hw.eq_of_topic he₀ hmem (ht'.trans ht.symm)
      rw [commitEntry, if_pos ⟨hw.copied f st' hst e₀ hmem hep, hep⟩]
      rcases hstamp with ⟨st'', h⟩ | h
      · rw [hfl] at h
        cases h
      · rw [hfl] at h
        exact Option.some.inj h
    | _ =>
      have hnf : ∀ st, s.flights f ≠ .flushed st := by simp [hfl]
      obtain ⟨st', hc, -, hep'⟩ := copy_step s.dm hst hnf
      have hstep : (s.flush f).flights f = (s.flights f).step s.dm := by simp [State.flush]
      have hentries : (s.flush f).entries = s.entries := by simp [State.flush, hfl, Flight.commit]
      refine .inl ⟨st', by rw [hstep, hc], ⟨e, hentries ▸ hmem, ht, hep.trans hep'.symm⟩, .inr ?_⟩
      rw [hstep, stamp_step]
      rcases hstamp with ⟨st'', h⟩ | h
      · rw [h, hg]
      · rw [hfl] at h ⊢
        first | exact h | exact congrArg some hg
  · rw [hidle] at he
    exact he.elim

theorem restamping_prepare (exchanging : ℕ → Bool)
    (sdoValues : ℕ → Option DeviceParameterValue) (he : (s.flights f).Sampling)
    (h : Restamping G f topic s) :
    Restamping G f topic (next s (.prepare f exchanging sdoValues)) := by
  have hnext : (next s (.prepare f exchanging sdoValues)).flights f =
      (s.flights f).prepare exchanging sdoValues := by
    simp [next, State.setFlight]
  rcases h with ⟨st, hst, hentry, hstamp⟩ | ⟨hidle, -⟩
  · refine .inl ⟨st, by rw [hnext, copy_prepare, hst], hentry, .inr ?_⟩
    rw [hnext, (stamp_prepare exchanging sdoValues _).1]
    rcases hstamp with ⟨st', h⟩ | h
    · rw [h] at he
      exact he.elim
    · exact h
  · rw [hidle] at he
    exact he.elim

theorem restamping_run {steps : List Action} (hof : ∀ a ∈ steps, OfFlush f a)
    (hfo : system.Follows (fun _ _ => True) s steps) (hw : WellFormed s)
    (hg : s.dm.processImageGeneration = G) (h : Restamping G f topic s) :
    (system.run s steps).dm = s.dm ∧ Restamping G f topic (system.run s steps) := by
  induction steps generalizing s with
  | nil => exact ⟨rfl, h⟩
  | cons a steps ih =>
    obtain ⟨⟨he, -⟩, hfo⟩ := hfo
    have hof' : ∀ a ∈ steps, OfFlush f a := fun b hb => hof b (List.mem_cons_of_mem _ hb)
    have hw' : WellFormed (next s a) := wellFormed_step hw
    have ha := hof a List.mem_cons_self
    cases a with
    | flush g =>
      obtain rfl : g = f := ha
      exact ih hof' hfo hw' hg (restamping_flush hw hg he h)
    | prepare g exchanging sdoValues =>
      obtain rfl : g = f := ha
      exact ih hof' hfo hw' hg (restamping_prepare exchanging sdoValues he h)
    | _ => exact ha.elim

/-- After a flush of its own the registration is stamped with the current generation. -/
theorem stamped_of_flushes (hw : WellFormed s) (h : Flushes s f topic t) : t.dm = s.dm ∧
    ∀ e ∈ t.entries, e.config.topic = topic →
      e.progress.imageGeneration = s.dm.processImageGeneration := by
  obtain ⟨steps, hof, ⟨⟨⟨-, -, htopic⟩, -⟩, hfo⟩, rfl, hidle⟩ := h
  obtain ⟨e, hfe⟩ := Option.isSome_iff_exists.mp htopic
  obtain ⟨hmem, ht⟩ := findEntry_eq_some hfe
  have htake : next s (.take f topic) =
      s.setFlight f (.taken (e.copy (s.dm.ring.base + s.dm.ring.head))) := by
    simp [next, State.take, hfe]
  have hstart : Restamping s.dm.processImageGeneration f topic (next s (.take f topic)) := by
    rw [htake]
    refine .inl ⟨e.copy (s.dm.ring.base + s.dm.ring.head), ?_,
      ⟨e, hmem, ht, rfl⟩, .inl ⟨_, Function.update_self _ _ _⟩⟩
    simp [State.setFlight, Flight.copy]
  have hdm : (next s (.take f topic)).dm = s.dm := dm_next (by simp)
  obtain ⟨hd, hr⟩ := restamping_run (s := next s (.take f topic)) hof hfo (wellFormed_step hw)
    (by rw [hdm]) hstart
  refine ⟨hd.trans hdm, ?_⟩
  rcases hr with ⟨st, hst, -⟩ | ⟨-, h⟩
  · have hst : ((system.run s (.take f topic :: steps)).flights f).copy = some st := hst
    rw [hidle] at hst
    cases hst
  · exact h

end MotionMaster.Monitoring
