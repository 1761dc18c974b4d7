import Mathlib.Data.List.Nodup
import MotionMaster.Monitoring.Step

/-! What every run keeps of the registrations and of the flushes that copied them. -/
namespace MotionMaster.Monitoring

open Interleaving

/-- A flush's copy with the plans as they stand, those still to be re-captured included. -/
def Flight.copy : Flight → Option FlushState
  | .idle => none
  | .taken st | .captured st | .flushed st | .threw st => some st
  | .measured st _ _ | .sampling st _ _ | .reading st _ _ _ _ _ _ => some st
  | .recapturing st _ done plan todo _ | .deciding st _ done plan todo _ =>
    some { st with progress := { st.progress with plans := done ++ plan :: todo } }

/-- Registrations are told apart by topic and by epoch, and a copy stays one of its own. -/
structure WellFormed (s : State) : Prop where
  topics : (s.entries.map (·.config.topic)).Nodup
  epochs : (s.entries.map (·.epoch)).Nodup
  entry : ∀ e ∈ s.entries, e.epoch < s.nextEpoch
  flight : ∀ f st, (s.flights f).copy = some st → st.epoch < s.nextEpoch
  copied : ∀ f st, (s.flights f).copy = some st → ∀ e ∈ s.entries,
    e.epoch = st.epoch → e.config.topic = st.topic
  creating : ∀ config acquired todo, s.mutex = .creating config acquired todo →
    s.findEntry config.topic = none

variable {s : State} {st : FlushState}

theorem copy_recapture (st : FlushState) (generation : ℕ) (done todo : List ParamPlan) :
    ∃ st', (Flight.recapture st generation done todo).copy = some st' ∧ st'.topic = st.topic ∧
      st'.epoch = st.epoch ∧ st'.progress.plans = done ++ todo := by
  cases todo with
  | nil => exact ⟨_, rfl, rfl, rfl, (List.append_nil done).symm⟩
  | cons plan todo => exact ⟨_, rfl, rfl, rfl, rfl⟩

theorem copy_measure (ring : DeviceManager.Ring) (st : FlushState) :
    ∃ st', (measure ring st).copy = some st' ∧ st'.topic = st.topic ∧ st'.epoch = st.epoch ∧
      st'.progress.plans = st.progress.plans := by
  unfold measure
  split_ifs <;> exact ⟨_, rfl, rfl, rfl, rfl⟩

theorem resync_same (ring : DeviceManager.Ring) (st : FlushState) (head : ℕ) :
    (resync ring st head).topic = st.topic ∧ (resync ring st head).epoch = st.epoch ∧
      (resync ring st head).progress.plans = st.progress.plans := by
  unfold resync
  split_ifs <;> exact ⟨rfl, rfl, rfl⟩

/-- `fl'` goes on with a copy of the registration `fl` copied. -/
def Flight.Continues (fl fl' : Flight) : Prop :=
  ∀ st', fl'.copy = some st' → ∃ st, fl.copy = some st ∧ st'.topic = st.topic ∧
    st'.epoch = st.epoch

theorem Flight.Continues.refl (fl : Flight) : fl.Continues fl := fun st h => ⟨st, h, rfl, rfl⟩

variable {fl : Flight}

theorem continues_of_copy {fl' : Flight} {st' : FlushState} (h : fl.copy = some st)
    (h' : fl'.copy = some st') (ht : st'.topic = st.topic) (he : st'.epoch = st.epoch) :
    fl.Continues fl' := by
  intro st'' h''
  rw [h'] at h''
  cases h''
  exact ⟨st, h, ht, he⟩

/-- Until it commits a flush stays with the registration it copied. -/
theorem copy_step (dm : DeviceManager.State) (h : fl.copy = some st)
    (hf : ∀ st, fl ≠ .flushed st) : ∃ st', (fl.step dm).copy = some st' ∧ st'.topic = st.topic ∧
      st'.epoch = st.epoch := by
  cases fl with
  | idle => cases h
  | sampling | threw => exact ⟨st, h, rfl, rfl⟩
  | taken =>
    cases h
    simp only [Flight.step]
    split
    · exact ⟨st, rfl, rfl, rfl⟩
    · obtain ⟨st', hc, ht, he, -⟩ :=
        copy_recapture st dm.processImageGeneration [] st.progress.plans
      exact ⟨st', hc, ht, he⟩
  | recapturing st generation done plan todo l =>
    cases h
    simp only [Flight.step]
    split <;> exact ⟨_, rfl, rfl, rfl⟩
  | deciding st generation done plan todo spec =>
    cases h
    obtain ⟨st', hc, ht, he, -⟩ :=
      copy_recapture st generation (done ++ [plan.resource spec]) todo
    exact ⟨st', hc, ht, he⟩
  | captured =>
    cases h
    obtain ⟨st', hc, ht, he, -⟩ := copy_measure dm.ring st
    exact ⟨st', hc, ht, he⟩
  | measured st head base =>
    cases h
    obtain ⟨ht, he, -⟩ := resync_same dm.ring st head
    exact ⟨_, rfl, ht, he⟩
  | reading st head base seq exchanging sdoValues rows =>
    cases h
    simp only [Flight.step]
    split <;> exact ⟨_, rfl, rfl, rfl⟩
  | flushed st => exact absurd rfl (hf st)

theorem continues_step (dm : DeviceManager.State) (fl : Flight) : fl.Continues (fl.step dm) := by
  by_cases hf : ∃ st, fl = .flushed st
  · obtain ⟨st, rfl⟩ := hf
    rintro st' ⟨⟩
  · cases h : fl.copy with
    | none =>
      cases fl <;> first | exact Flight.Continues.refl _ | cases h
    | some st =>
      obtain ⟨st', h', ht, he⟩ := copy_step dm h fun st h => hf ⟨st, h⟩
      exact continues_of_copy h h' ht he

theorem copy_prepare (exchanging : ℕ → Bool) (sdoValues : ℕ → Option DeviceParameterValue)
    (fl : Flight) : (fl.prepare exchanging sdoValues).copy = fl.copy := by
  cases fl with
  | sampling st head base =>
    simp only [Flight.prepare]
    split <;> rfl
  | _ => rfl

theorem continues_prepare (exchanging : ℕ → Bool) (sdoValues : ℕ → Option DeviceParameterValue)
    (fl : Flight) : fl.Continues (fl.prepare exchanging sdoValues) := by
  intro st' h
  rw [copy_prepare] at h
  exact ⟨st', h, rfl, rfl⟩

/-! ### Every run keeps the registrations well formed -/

theorem findEntry_eq_none {topic : String} :
    s.findEntry topic = none ↔ ∀ e ∈ s.entries, e.config.topic ≠ topic := by
  simp [State.findEntry]

theorem findEntry_eq_some {topic : String} {e : Entry} (h : s.findEntry topic = some e) :
    e ∈ s.entries ∧ e.config.topic = topic :=
  ⟨List.mem_of_find?_eq_some h, by simpa using List.find?_some h⟩

theorem WellFormed.eq_of_epoch (h : WellFormed s) {e e' : Entry} (he : e ∈ s.entries)
    (he' : e' ∈ s.entries) (hep : e.epoch = e'.epoch) : e = e' :=
  List.inj_on_of_nodup_map h.epochs he he' hep

theorem WellFormed.eq_of_topic (h : WellFormed s) {e e' : Entry} (he : e ∈ s.entries)
    (he' : e' ∈ s.entries) (ht : e.config.topic = e'.config.topic) : e = e' :=
  List.inj_on_of_nodup_map h.topics he he' ht

theorem WellFormed.move {t : State} (h : WellFormed s) (he : t.entries = s.entries)
    (hn : t.nextEpoch = s.nextEpoch)
    (hm : ∀ config acquired todo, t.mutex = .creating config acquired todo →
      s.findEntry config.topic = none)
    (hf : ∀ f, (s.flights f).Continues (t.flights f)) : WellFormed t := by
  refine ⟨he ▸ h.topics, he ▸ h.epochs, by simpa [he, hn] using h.entry, ?_, ?_, ?_⟩
  · intro f st' hc
    obtain ⟨st, hst, -, hep⟩ := hf f st' hc
    have := h.flight f st hst
    omega
  · intro f st' hc e hmem heq
    obtain ⟨st, hst, ht, hep⟩ := hf f st' hc
    exact (h.copied f st hst e (he ▸ hmem) (heq.trans hep)).trans ht.symm
  · intro config acquired todo hmu
    rw [State.findEntry, he]
    exact hm config acquired todo hmu

variable {f : ℕ}

theorem continues_update (h : (s.flights f).Continues fl) (g : ℕ) :
    (s.flights g).Continues (Function.update s.flights f fl g) := by
  by_cases hg : g = f
  · subst hg
    rwa [Function.update_self]
  · rw [Function.update_of_ne hg]
    exact Flight.Continues.refl _

theorem config_commitEntry (st : FlushState) (e : Entry) :
    (commitEntry st e).config = e.config := by
  unfold commitEntry
  split <;> rfl

theorem epoch_commitEntry (st : FlushState) (e : Entry) : (commitEntry st e).epoch = e.epoch := by
  unfold commitEntry
  split <;> rfl

theorem entries_commit (hfl : s.flights f = .flushed st) :
    (s.flush f).entries = s.entries.map (commitEntry st) := by
  simp [State.flush, hfl, Flight.commit]

/-- A flush that has committed is gone, and the others are as they were. -/
theorem copy_commit {g : ℕ} {st' : FlushState} (hfl : s.flights f = .flushed st)
    (hg : ((s.flush f).flights g).copy = some st') : g ≠ f ∧ (s.flights g).copy = some st' := by
  by_cases hgf : g = f
  · subst hgf
    simp [State.flush, hfl, Flight.step, Flight.copy] at hg
  · exact ⟨hgf, by simpa [State.flush, hgf] using hg⟩

theorem wellFormed_commit (h : WellFormed s) (hfl : s.flights f = .flushed st) :
    WellFormed (s.flush f) := by
  refine ⟨?_, ?_, ?_, ?_, ?_, ?_⟩
  · simpa [entries_commit hfl, Function.comp_def, config_commitEntry] using h.topics
  · simpa [entries_commit hfl, Function.comp_def, epoch_commitEntry] using h.epochs
  · intro e' he'
    rw [entries_commit hfl] at he'
    obtain ⟨e, he, rfl⟩ := List.mem_map.mp he'
    rw [epoch_commitEntry]
    exact h.entry e he
  · exact fun g st' hg => h.flight g st' (copy_commit hfl hg).2
  · intro g st' hg e' he' hep
    rw [entries_commit hfl] at he'
    obtain ⟨e, he, rfl⟩ := List.mem_map.mp he'
    rw [epoch_commitEntry] at hep
    rw [config_commitEntry]
    exact h.copied g st' (copy_commit hfl hg).2 e he hep
  · intro config acquired todo hmu
    have hn := findEntry_eq_none.mp (h.creating config acquired todo hmu)
    refine findEntry_eq_none.mpr fun e' he' => ?_
    rw [entries_commit hfl] at he'
    obtain ⟨e, he, rfl⟩ := List.mem_map.mp he'
    rw [config_commitEntry]
    exact hn e he

theorem wellFormed_flush (h : WellFormed s) (f : ℕ) : WellFormed (s.flush f) := by
  cases hfl : s.flights f with
  | flushed st => exact wellFormed_commit h hfl
  | _ =>
    refine h.move ?_ rfl h.creating (continues_update (continues_step s.dm _))
    simp [State.flush, hfl, Flight.commit]

theorem wellFormed_take (h : WellFormed s) (f : ℕ) (topic : String) :
    WellFormed (s.take f topic) := by
  unfold State.take
  cases hfe : s.findEntry topic with
  | none => exact h
  | some e =>
    obtain ⟨he, -⟩ := findEntry_eq_some hfe
    have hcopy : ∀ g st, ((s.setFlight f (.taken (e.copy (s.dm.ring.base +
        s.dm.ring.head)))).flights g).copy = some st → (s.flights g).copy = some st ∨
        st = e.copy (s.dm.ring.base + s.dm.ring.head) := by
      intro g st hg
      by_cases hgf : g = f
      · subst hgf
        simp only [State.setFlight, Function.update_self, Flight.copy, Option.some.injEq] at hg
        exact .inr hg.symm
      · simp only [State.setFlight, Function.update_of_ne hgf] at hg
        exact .inl hg
    refine ⟨h.topics, h.epochs, h.entry, ?_, ?_, h.creating⟩
    · intro g st hg
      rcases hcopy g st hg with hg | rfl
      · exact h.flight g st hg
      · exact h.entry e he
    · intro g st hg e' he' hep
      rcases hcopy g st hg with hg | rfl
      · exact h.copied g st hg e' he' hep
      · rw [h.eq_of_epoch he' he hep]
        rfl

theorem wellFormed_register (h : WellFormed s) {config : Config} {acquired : List ParamPlan}
    (hm : s.mutex = .creating config acquired []) : WellFormed s.mutexStep := by
  have hn := findEntry_eq_none.mp (h.creating config acquired [] hm)
  simp only [State.mutexStep, hm]
  refine ⟨?_, ?_, ?_, ?_, ?_, ?_⟩
  · simp only [List.map_append, List.map_cons, List.map_nil, State.newEntry]
    refine List.nodup_append.mpr ⟨h.topics, List.nodup_singleton _, ?_⟩
    intro a ha b hb
    obtain ⟨e, he, rfl⟩ := List.mem_map.mp ha
    rw [List.mem_singleton.mp hb]
    exact hn e he
  · simp only [List.map_append, List.map_cons, List.map_nil, State.newEntry]
    refine List.nodup_append.mpr ⟨h.epochs, List.nodup_singleton _, ?_⟩
    intro a ha b hb
    obtain ⟨e, he, rfl⟩ := List.mem_map.mp ha
    rw [List.mem_singleton.mp hb]
    exact Nat.ne_of_lt (h.entry e he)
  · intro e he
    rcases List.mem_append.mp he with he | he
    · exact Nat.lt_succ_of_lt (h.entry e he)
    · rw [List.mem_singleton.mp he]
      exact Nat.lt_succ_self _
  · exact fun f st hc => Nat.lt_succ_of_lt (h.flight f st hc)
  · intro f st hc e he hep
    rcases List.mem_append.mp he with he | he
    · exact h.copied f st hc e he hep
    · -- no flush has copied the newest registration yet
      have := h.flight f st hc
      rw [List.mem_singleton.mp he] at hep
      simp only [State.newEntry] at hep
      omega
  · rintro config' acquired' todo ⟨⟩

theorem wellFormed_mutexStep (h : WellFormed s) : WellFormed s.mutexStep := by
  cases hm : s.mutex with
  | free => simpa [State.mutexStep, hm] using h
  | creating config acquired todo =>
    cases todo with
    | nil => exact wellFormed_register h hm
    | cons plan todo =>
      simp only [State.mutexStep, hm]
      refine h.move rfl rfl ?_ fun f => Flight.Continues.refl _
      rintro config' acquired' todo' ⟨⟩
      exact h.creating config acquired (plan :: todo) hm
  | removing topic todo =>
    cases todo with
    | nil =>
      simp only [State.mutexStep, hm]
      have hsub : (s.entries.filter fun e => e.config.topic ≠ topic).Sublist s.entries :=
        List.filter_sublist
      refine ⟨h.topics.sublist (hsub.map _), h.epochs.sublist (hsub.map _),
        fun e he => h.entry e (hsub.subset he), h.flight,
        fun f st hc e he => h.copied f st hc e (hsub.subset he), ?_⟩
      rintro config' acquired' todo' ⟨⟩
    | cons plan todo =>
      simp only [State.mutexStep, hm]
      refine h.move rfl rfl ?_ fun f => Flight.Continues.refl _
      rintro config' acquired' todo' ⟨⟩

theorem wellFormed_lock (h : WellFormed s) (t : ℕ) : WellFormed (s.lock t) := by
  unfold State.lock
  cases s.creators t with
  | classified config plans =>
    dsimp only
    split
    · exact h.move rfl rfl h.creating fun f => Flight.Continues.refl _
    · rename_i hn
      refine h.move rfl rfl ?_ fun f => Flight.Continues.refl _
      simpa using hn
  | _ => exact h

theorem wellFormed_remove (h : WellFormed s) (topic : String) : WellFormed (s.remove topic) := by
  unfold State.remove
  split
  · exact h
  · refine h.move rfl rfl ?_ fun f => Flight.Continues.refl _
    rintro config' acquired' todo' ⟨⟩

theorem wellFormed_initial : WellFormed State.initial := by
  constructor <;> simp [State.initial, Flight.copy]

theorem wellFormed_step {a : Action} (h : WellFormed s) : WellFormed (next s a) := by
  cases a with
  | lock t => exact wellFormed_lock h t
  | remove topic => exact wellFormed_remove h topic
  | mutex => exact wellFormed_mutexStep h
  | take f topic => exact wellFormed_take h f topic
  | flush f => exact wellFormed_flush h f
  | prepare f exchanging sdoValues =>
    exact h.move rfl rfl h.creating (continues_update (continues_prepare exchanging sdoValues _))
  | _ => exact h.move rfl rfl h.creating fun f => Flight.Continues.refl _

theorem wellFormed_reachable {C : State → Action → Prop} (h : system.ReachableUnder C s) :
    WellFormed s :=
  h.invariant wellFormed_initial fun _ _ hw _ _ => wellFormed_step hw

/-! ### A registration is never made again -/

/-- Every registration of `t` that is older than `s` is one of `s`. -/
def State.Before (s t : State) : Prop :=
  s.nextEpoch ≤ t.nextEpoch ∧ ∀ e' ∈ t.entries, e'.epoch < s.nextEpoch →
    ∃ e ∈ s.entries, e.epoch = e'.epoch ∧ e.config = e'.config

theorem before_of_same {t : State} (he : t.entries = s.entries)
    (hn : t.nextEpoch = s.nextEpoch) : s.Before t :=
  ⟨hn.ge, fun e' he' _ => ⟨e', he ▸ he', rfl, rfl⟩⟩

theorem before_mutexStep (s : State) : s.Before s.mutexStep := by
  unfold State.mutexStep
  split
  · exact before_of_same rfl rfl
  · exact before_of_same rfl rfl
  · refine ⟨Nat.le_succ _, fun e' he' hold => ?_⟩
    rcases List.mem_append.mp he' with he' | he'
    · exact ⟨e', he', rfl, rfl⟩
    · rw [List.mem_singleton.mp he'] at hold
      exact absurd hold (Nat.lt_irrefl _)
  · exact before_of_same rfl rfl
  · exact ⟨Nat.le_refl _, fun e' he' _ => ⟨e', List.mem_of_mem_filter he', rfl, rfl⟩⟩

theorem before_flush (s : State) (f : ℕ) : s.Before (s.flush f) := by
  cases hf : s.flights f with
  | flushed st =>
    refine ⟨Nat.le_refl _, fun e' he' _ => ?_⟩
    rw [entries_commit hf] at he'
    obtain ⟨e, he, rfl⟩ := List.mem_map.mp he'
    exact ⟨e, he, (epoch_commitEntry st e).symm, (config_commitEntry st e).symm⟩
  | _ => exact before_of_same (by simp [State.flush, hf, Flight.commit]) rfl

theorem before_next (s : State) (a : Action) : s.Before (next s a) := by
  cases a with
  | lock t =>
    simp only [next, State.lock]
    repeat' split
    all_goals exact before_of_same rfl rfl
  | remove topic | take f topic =>
    simp only [next, State.remove, State.take]
    split <;> exact before_of_same rfl rfl
  | mutex => exact before_mutexStep s
  | flush f => exact before_flush s f
  | _ => exact before_of_same rfl rfl

theorem before_run (s : State) (actions : List Action) : s.Before (system.run s actions) := by
  induction actions generalizing s with
  | nil => exact before_of_same rfl rfl
  | cons a actions ih =>
    obtain ⟨hn, hentries⟩ := before_next s a
    obtain ⟨hn', hentries'⟩ := ih (next s a)
    refine ⟨hn.trans hn', fun e'' he'' hold => ?_⟩
    obtain ⟨e', he', hep', hc'⟩ := hentries' e'' he'' (hold.trans_le hn)
    obtain ⟨e, he, hep, hc⟩ := hentries e' he' (hep' ▸ hold)
    exact ⟨e, he, hep.trans hep', hc.trans hc'⟩

/-- In every interleaving no topic and no epoch is registered twice, a commit leaves the
registrations of other epochs alone, and the registration with the epoch of a flush in flight, if
there is one later on, has been registered ever since: it is the one that was copied. -/
theorem registered_once (h : system.Reachable s) :
    (s.entries.map (·.config.topic)).Nodup ∧ (s.entries.map (·.epoch)).Nodup ∧
      (∀ f st, s.flights f = .flushed st → ∀ e ∈ s.entries, e.epoch ≠ st.epoch →
        e ∈ (next s (.flush f)).entries) ∧
      ∀ f st, (s.flights f).copy = some st → ∀ before after,
        ∀ e' ∈ (system.run s (before ++ after)).entries, e'.epoch = st.epoch →
          e'.config.topic = st.topic ∧ ∃ e ∈ (system.run s before).entries,
            e.epoch = st.epoch ∧ e.config = e'.config := by
  have hw := wellFormed_reachable h
  refine ⟨hw.topics, hw.epochs, fun f st hf e he hne => ?_,
    fun f st hf before after e' he' hep => ?_⟩
  · have hsame : commitEntry st e = e := if_neg fun hboth => hne hboth.2
    exact (entries_commit hf).symm ▸ List.mem_map.mpr ⟨e, he, hsame⟩
  · rw [System.run, List.foldl_append] at he'
    have hold := hw.flight f st hf
    obtain ⟨hn, hstart⟩ := before_run s before
    obtain ⟨e, he, hmid, hc⟩ := (before_run _ after).2 e' he' (hep ▸ hold.trans_le hn)
    rw [hep] at hmid
    obtain ⟨e₀, he₀, hfirst, hc₀⟩ := hstart e he (hmid ▸ hold)
    exact ⟨hc ▸ hc₀ ▸ hw.copied f st hf e₀ he₀ (hfirst.trans hmid), e, he, hmid, hc⟩

def removePosition : List Action := [.remove "position", .mutex, .mutex]

/-- The monitoring is removed and created again while a flush of it is in flight: the new one has
another epoch. -/
theorem replaced_not_flushed :
    let s := system.run system.initial (setUp ++ createPosition ++ [.take 0 "position"])
    ((s.flights 0).copy.map (·.epoch)).getD 0 ∉
      (system.run s (removePosition ++ createPosition)).entries.map (·.epoch) := by
  intro s hmem
  obtain ⟨e', he', hep⟩ := List.mem_map.mp hmem
  have h := registered_once (s := s) ⟨_, by decide +kernel, rfl⟩
  obtain ⟨-, e, he, -⟩ := h.2.2.2 0 _ rfl removePosition createPosition e' he' hep
  exact absurd (List.length_pos_of_mem he) (by decide +kernel)

end MotionMaster.Monitoring
