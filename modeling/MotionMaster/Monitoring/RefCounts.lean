import MotionMaster.Monitoring.Registrations

/-! The refresher's counts: who holds the references, and when each one is given back. -/
namespace MotionMaster.Monitoring

open Interleaving RefCount

def sdoObjects (plans : List ParamPlan) : List Object :=
  (plans.filter fun plan => plan.source = .sdo).map (·.object)

/-- At rest every reference is one of a registered plan or of a `keepFresh` call. -/
def CountsConserved (s : State) : Prop :=
  AtRest s → ∀ o, s.refCount o =
    (s.entries.flatMap fun e => sdoObjects e.progress.plans).count o + s.kept.count o

def sources (plans : List ParamPlan) : List (Object × Source) :=
  plans.map fun plan => (plan.object, plan.source)

/-- The registration a flush copied, and the sources of its plans as they stand in the copy. -/
def Flight.claim (fl : Flight) : Option (ℕ × List (Object × Source)) :=
  fl.copy.map fun st => (st.epoch, sources st.progress.plans)

/-- No flush in flight has moved a plan of the registration. -/
def Settled (s : State) (e : Entry) : Prop :=
  ∀ f r, (s.flights f).claim = some (e.epoch, r) → r = sources e.progress.plans

/-- About to move a plan between the image and the refresher. -/
def Flight.Moves : Flight → Prop
  | .deciding _ _ _ plan _ spec => (plan.resource spec).source ≠ plan.source
  | _ => False

def Sole (s : State) (f epoch : ℕ) : Prop :=
  ∀ g r, (s.flights g).claim = some (epoch, r) → g = f

def Stays (s : State) (e : Entry) : Prop := ∀ todo, s.mutex ≠ .removing e.config.topic todo

/-- A flush moves a plan only as the sole flush of a registration that stays, and a registration
is copied or removed only before a flush has moved a plan of it. -/
def MovesAlone (s : State) : Action → Prop
  | .flush f => (s.flights f).Moves → ∀ epoch r, (s.flights f).claim = some (epoch, r) →
    Sole s f epoch ∧ ∃ e ∈ s.entries, e.epoch = epoch ∧ Stays s e
  | .take _ topic | .remove topic => ∀ e, s.findEntry topic = some e → Settled s e
  | _ => True

/-! ### Who holds the references -/

/-- The caller of `keepFresh`, the `create` that holds `mutex_`, or a registration. -/
inductive Owner where
  | caller
  | create
  | registration (epoch : ℕ)
  deriving DecidableEq

def owners (s : State) : List Owner :=
  .caller :: .create :: s.entries.map fun e => .registration e.epoch

def Mutex.acquired : Mutex → List ParamPlan
  | .creating _ acquired _ => acquired
  | _ => []

/-- What a registration holds is what its plans say, or what those of its sole flush say. -/
def Accounted (s : State) (held : List Object) (e : Entry) : Prop :=
  Settled s e ∧ held.Perm (sdoObjects e.progress.plans) ∨
    ∃ f st, (s.flights f).copy = some st ∧ st.epoch = e.epoch ∧ Sole s f e.epoch ∧
      held.Perm (sdoObjects st.progress.plans)

structure Counted (s : State) (share : Owner → List Object) : Prop where
  balanced : Balanced s.refCount (owners s) share
  caller : (share .caller).Perm s.kept
  create : (share .create).Perm (sdoObjects s.mutex.acquired)
  removing : ∀ topic todo, s.mutex = .removing topic todo → ∃ e ∈ s.entries,
    e.config.topic = topic ∧ (share (.registration e.epoch)).Perm (sdoObjects todo)
  registered : ∀ e ∈ s.entries, Stays s e → Accounted s (share (.registration e.epoch)) e

variable {s t : State} {share : Owner → List Object} {e : Entry} {held : List Object}

theorem sdoObjects_congr {plans plans' : List ParamPlan} (h : sources plans = sources plans') :
    sdoObjects plans = sdoObjects plans' := by
  have hs : ∀ plans, sdoObjects plans =
      ((sources plans).filter fun r => r.2 = .sdo).map (·.1) := by
    simp [sdoObjects, sources, List.filter_map, Function.comp_def]
  rw [hs, hs, h]

theorem sdoObjects_append (plans plans' : List ParamPlan) :
    sdoObjects (plans ++ plans') = sdoObjects plans ++ sdoObjects plans' := by
  simp [sdoObjects]

theorem sdoObjects_singleton (plan : ParamPlan) :
    sdoObjects [plan] = if plan.source = .sdo then [plan.object] else [] := by
  cases h : plan.source <;> simp [sdoObjects, h]

theorem object_resource (plan : ParamPlan) (spec : Option PdoSampleSpec) :
    (plan.resource spec).object = plan.object := rfl

variable {fl : Flight} {st : FlushState}

theorem claim_of_copy (h : fl.copy = some st) :
    fl.claim = some (st.epoch, sources st.progress.plans) := by
  simp [Flight.claim, h]

theorem nodup_owners (h : WellFormed s) : (owners s).Nodup := by
  have hn : (s.entries.map fun e => Owner.registration e.epoch).Nodup := by
    have := h.epochs.map fun _ _ => Owner.registration.inj
    simpa [List.map_map, Function.comp_def] using this
  simpa [owners] using hn

theorem registration_mem_owners (he : e ∈ s.entries) : Owner.registration e.epoch ∈ owners s := by
  simp only [owners, List.mem_cons, List.mem_map]
  exact .inr (.inr ⟨e, he, rfl⟩)

/-- Once settled, a registration holds what its own plans say. -/
theorem Accounted.settle (h : Accounted s held e) (hs : Settled s e) :
    held.Perm (sdoObjects e.progress.plans) := by
  rcases h with ⟨-, h⟩ | ⟨f, st, hst, hep, -, h⟩
  · exact h
  · have := hs f (sources st.progress.plans) (by rw [claim_of_copy hst, hep])
    rwa [sdoObjects_congr this] at h

variable {f : ℕ}

/-- What any flush of it makes of the plans, as long as it is the only one. -/
theorem Accounted.sole (h : Accounted s held e)
    (hst : (s.flights f).copy = some st) (hep : st.epoch = e.epoch) (hf : Sole s f e.epoch) :
    held.Perm (sdoObjects st.progress.plans) := by
  rcases h with ⟨hs, h⟩ | ⟨g, st', hst', hep', -, h⟩
  · have := hs f (sources st.progress.plans) (by rw [claim_of_copy hst, hep])
    rwa [sdoObjects_congr this]
  · obtain rfl := hf g (sources st'.progress.plans) (by rw [claim_of_copy hst', hep'])
    rw [hst] at hst'
    cases hst'
    exact h

def SameClaims (s t : State) (epoch : ℕ) : Prop :=
  ∀ f r, (t.flights f).claim = some (epoch, r) ↔ (s.flights f).claim = some (epoch, r)

theorem Accounted.congr (h : Accounted s held e) (hc : SameClaims s t e.epoch) :
    Accounted t held e := by
  rcases h with ⟨hs, h⟩ | ⟨f, st, hst, hep, hf, h⟩
  · exact .inl ⟨fun f r hr => hs f r ((hc f r).mp hr), h⟩
  · have hcl : (t.flights f).claim = some (e.epoch, sources st.progress.plans) :=
      (hc f _).mpr (by rw [claim_of_copy hst, hep])
    obtain ⟨st', hst', hst''⟩ := Option.map_eq_some_iff.mp hcl
    simp only [Prod.mk.injEq] at hst''
    refine .inr ⟨f, st', hst', hst''.1, fun g r hr => hf g r ((hc g r).mp hr), ?_⟩
    rwa [sdoObjects_congr hst''.2]

theorem Counted.congr (h : Counted s share) (hr : t.refCount = s.refCount)
    (he : t.entries = s.entries) (hk : t.kept = s.kept) (hm : t.mutex = s.mutex)
    (hc : ∀ f, (t.flights f).claim = (s.flights f).claim) : Counted t share := by
  refine ⟨?_, hk ▸ h.caller, hm ▸ h.create, ?_, ?_⟩
  · rw [hr, owners, he]
    exact h.balanced
  · rw [he, hm]
    exact h.removing
  · intro e hmem hs
    rw [Stays, hm] at hs
    exact (h.registered e (he ▸ hmem) hs).congr fun f r => by rw [hc f]

/-! ### A flush -/

theorem claim_step (dm : DeviceManager.State) (hd : ¬ fl.Moves)
    (hf : ∀ st, fl ≠ .flushed st) : (fl.step dm).claim = fl.claim := by
  cases fl with
  | idle | sampling st head base | threw st => rfl
  | taken st =>
    simp only [Flight.step]
    split
    · rfl
    · obtain ⟨st', hc, -, he, hp⟩ :=
        copy_recapture st dm.processImageGeneration [] st.progress.plans
      rw [claim_of_copy hc, he, hp]
      rfl
  | recapturing st generation done plan todo l =>
    simp only [Flight.step]
    split <;> rfl
  | deciding st generation done plan todo spec =>
    obtain ⟨st', hc, -, he, hp⟩ :=
      copy_recapture st generation (done ++ [plan.resource spec]) todo
    have hs : (plan.resource spec).source = plan.source := not_not.mp hd
    simp only [Flight.step]
    rw [claim_of_copy hc, he, hp, claim_of_copy
      rfl]
    simpa [sources, ParamPlan.resource] using hs
  | captured st =>
    obtain ⟨st', hc, -, he, hp⟩ := copy_measure dm.ring st
    simp only [Flight.step]
    rw [claim_of_copy hc, he, hp]
    rfl
  | measured st head base =>
    obtain ⟨-, he, hp⟩ := resync_same dm.ring st head
    rw [claim_of_copy rfl, he, hp]
    rfl
  | reading st head base seq exchanging sdoValues rows =>
    simp only [Flight.step]
    split <;> rfl
  | flushed st => exact absurd rfl (hf st)

theorem claim_prepare (exchanging : ℕ → Bool) (sdoValues : ℕ → Option DeviceParameterValue)
    (fl : Flight) : (fl.prepare exchanging sdoValues).claim = fl.claim := by
  rw [Flight.claim, copy_prepare, Flight.claim]

theorem claim_update (h : fl.claim = (s.flights f).claim) (g : ℕ) :
    (Function.update s.flights f fl g).claim = (s.flights g).claim := by
  by_cases hg : g = f
  · subst hg
    rwa [Function.update_self]
  · rw [Function.update_of_ne hg]

variable {plan : ParamPlan} {todo : List ParamPlan}

/-- A plan that changes its source changes what is held by the one reference it moves. -/
theorem balanced_moveRef {owners : List Owner} {i : Owner} {c : Object → ℕ}
    (hb : Balanced c owners share) (hn : owners.Nodup) (hi : i ∈ owners)
    {spec : Option PdoSampleSpec} {done : List ParamPlan}
    (hm : (plan.resource spec).source ≠ plan.source)
    (hp : (share i).Perm (sdoObjects (done ++ plan :: todo))) :
    Balanced (plan.moveRef spec c) owners
      (Function.update share i (sdoObjects (done ++ plan.resource spec :: todo))) := by
  have hsplit : ∀ p : ParamPlan, sdoObjects (done ++ p :: todo) =
      sdoObjects done ++ sdoObjects [p] ++ sdoObjects todo := by
    intro p
    rw [← sdoObjects_append, ← sdoObjects_append, List.append_assoc, List.singleton_append]
  rw [hsplit, sdoObjects_singleton] at hp ⊢
  cases hs : plan.source with
  | pdo =>
    have hr : (plan.resource spec).source = .sdo := by
      cases h : (plan.resource spec).source <;> simp_all
    have hc : plan.moveRef spec c = acquire c plan.object := by
      simp [ParamPlan.moveRef, ParamPlan.acquire, ParamPlan.release, hs, hr, object_resource]
    rw [hc]
    refine hb.acquire hn hi (List.Perm.trans ?_ (hp.symm.cons plan.object))
    simp [hs, hr, object_resource]
  | sdo =>
    have hr : (plan.resource spec).source = .pdo := by
      cases h : (plan.resource spec).source <;> simp_all
    have hc : plan.moveRef spec c = release c plan.object := by
      simp [ParamPlan.moveRef, ParamPlan.acquire, ParamPlan.release, hs, hr]
    rw [hc]
    refine hb.release hn hi (hp.trans ?_)
    simp [hs, hr]

/-- The references change hands only between the counts and one registration's flush. -/
theorem counted_move (hw : WellFormed s) (h : Counted s share) {generation : ℕ}
    {done : List ParamPlan}
    {spec : Option PdoSampleSpec}
    (hfl : s.flights f = .deciding st generation done plan todo spec)
    (hm : (plan.resource spec).source ≠ plan.source) (hf : Sole s f st.epoch)
    (he : e ∈ s.entries) (hep : e.epoch = st.epoch) (hs : Stays s e) :
    ∃ share', Counted (s.flush f) share' := by
  have hst : (s.flights f).copy =
      some { st with progress := { st.progress with plans := done ++ plan :: todo } } := by
    rw [hfl]
    rfl
  have hheld := (h.registered e he hs).sole hst hep.symm (hep ▸ hf)
  obtain ⟨st', hst', -, hep', hplans⟩ :=
    copy_recapture st generation (done ++ [plan.resource spec]) todo
  have hfl' : (s.flush f).flights f =
      Flight.recapture st generation (done ++ [plan.resource spec]) todo := by
    simp [State.flush, hfl, Flight.step]
  have hother : ∀ g, g ≠ f → (s.flush f).flights g = s.flights g := by
    intro g hg
    simp [State.flush, hg]
  have hentries : (s.flush f).entries = s.entries := by simp [State.flush, hfl, Flight.commit]
  refine ⟨Function.update share (.registration e.epoch)
    (sdoObjects (done ++ plan.resource spec :: todo)), ?_, ?_, ?_, ?_, ?_⟩
  · have hc : (s.flush f).refCount = plan.moveRef spec s.refCount := by
      simp [State.flush, hfl, Flight.count]
    rw [hc, owners, hentries]
    exact balanced_moveRef h.balanced (nodup_owners hw) (registration_mem_owners he) hm hheld
  · exact h.caller
  · exact h.create
  · intro topic todo' hmu
    obtain ⟨e', he', ht, hp⟩ := h.removing topic todo' hmu
    have hne : e'.epoch ≠ e.epoch := by
      intro heq
      obtain rfl := hw.eq_of_epoch he' he heq
      exact hs todo' (ht ▸ hmu)
    refine ⟨e', hentries ▸ he', ht, ?_⟩
    rwa [Function.update_of_ne (by simpa using hne)]
  · intro e' he' hs'
    rw [hentries] at he'
    by_cases heq : e'.epoch = e.epoch
    · obtain rfl := hw.eq_of_epoch he' he heq
      refine .inr ⟨f, st', by rw [hfl', hst'], hep'.trans hep.symm, ?_, ?_⟩
      · intro g r hg
        by_contra hgf
        rw [hother g hgf, hep] at hg
        exact hgf (hf g r hg)
      · rw [Function.update_self, hplans]
        simp
    · rw [Function.update_of_ne (by simpa using heq)]
      refine (h.registered e' he' hs').congr fun g r => ?_
      by_cases hgf : g = f
      · subst hgf
        rw [hfl', claim_of_copy hst', claim_of_copy hst, hep']
        simp [Ne.symm heq, ← hep]
      · rw [hother g hgf]

/-- A commit writes back the plans the references already follow. -/
theorem counted_commit (hw : WellFormed s) (h : Counted s share)
    (hfl : s.flights f = .flushed st) (hm : s.mutex = .free) : Counted (s.flush f) share := by
  have hst : (s.flights f).copy = some st := by
    rw [hfl]
    rfl
  have hmu : (s.flush f).mutex = .free := hm
  have hclaim : ∀ {g ep r}, ((s.flush f).flights g).claim = some (ep, r) →
      g ≠ f ∧ (s.flights g).claim = some (ep, r) := by
    intro g ep r hg
    obtain ⟨st', hst', hr⟩ := Option.map_eq_some_iff.mp hg
    obtain ⟨hgf, hst'⟩ := copy_commit hfl hst'
    exact ⟨hgf, Option.map_eq_some_iff.mpr ⟨st', hst', hr⟩⟩
  refine ⟨?_, h.caller, h.create, ?_, ?_⟩
  · have hc : (s.flush f).refCount = s.refCount := by simp [State.flush, hfl, Flight.count]
    have ho : owners (s.flush f) = owners s := by
      simp [owners, entries_commit hfl, epoch_commitEntry]
    rw [hc, ho]
    exact h.balanced
  · intro topic todo hr
    rw [hmu] at hr
    cases hr
  · intro e' he' _
    rw [entries_commit hfl] at he'
    obtain ⟨e, he, rfl⟩ := List.mem_map.mp he'
    have hacc := h.registered e he (by simp [Stays, hm])
    unfold commitEntry
    by_cases hep : e.epoch = st.epoch
    · rw [if_pos ⟨hw.copied f st hst e he hep, hep⟩]
      have hown := claim_of_copy hst
      rw [← hep] at hown
      refine .inl ⟨?_, ?_⟩
      · intro g r hg
        obtain ⟨hgf, hg⟩ := hclaim hg
        rcases hacc with ⟨hs, -⟩ | ⟨f', st', -, -, hf, -⟩
        · exact (hs g r hg).trans (hs f _ hown).symm
        · exact absurd ((hf g r hg).trans (hf f _ hown).symm) hgf
      · rcases hacc with ⟨hs, hp⟩ | ⟨f', st', hst', -, hf, hp⟩
        · rwa [sdoObjects_congr (hs f _ hown)]
        · obtain rfl := hf f _ hown
          rw [hst] at hst'
          cases hst'
          exact hp
    · rw [if_neg fun hc => hep hc.2]
      refine hacc.congr fun g r => ⟨fun hg => (hclaim hg).2, fun hg => ?_⟩
      have hgf : g ≠ f := by
        rintro rfl
        rw [claim_of_copy hst] at hg
        simp only [Option.some.injEq, Prod.mk.injEq] at hg
        exact hep hg.1.symm
      simpa [State.flush, hgf] using hg

theorem counted_flush (hw : WellFormed s) (h : Counted s share)
    (he : (s.flights f).CanStep s) (hc : MovesAlone s (.flush f)) :
    ∃ share', Counted (s.flush f) share' := by
  by_cases hm : (s.flights f).Moves
  · have hc := hc hm
    cases hfl : s.flights f with
    | deciding st generation done plan todo spec =>
      rw [hfl] at hm hc
      obtain ⟨hf, e, he, hep, hs⟩ := hc st.epoch (sources (done ++ plan :: todo)) rfl
      exact counted_move hw h hfl hm hf he hep hs
    | _ => simp [hfl, Flight.Moves] at hm
  · by_cases hfl : ∃ st, s.flights f = .flushed st
    · obtain ⟨st, hfl⟩ := hfl
      rw [hfl] at he
      exact ⟨share, counted_commit hw h hfl he⟩
    · have hnf : ∀ st, s.flights f ≠ .flushed st := fun st h => hfl ⟨st, h⟩
      refine ⟨share, h.congr ?_ ?_ rfl rfl (claim_update (claim_step s.dm hm hnf))⟩
      · cases hfl : s.flights f with
        | deciding st generation done plan todo spec =>
          simp_all [State.flush, Flight.count, ParamPlan.moveRef, Flight.Moves]
        | _ => simp [State.flush, hfl, Flight.count]
      · cases hfl : s.flights f with
        | flushed st => exact absurd hfl (hnf st)
        | _ => simp [State.flush, hfl, Flight.commit]

variable {topic : String}

/-- A settled registration is copied: the copy starts out with its plans. -/
theorem counted_take (hw : WellFormed s) (h : Counted s share)
    (hm : s.mutex = .free) (hi : (s.flights f).Idle) (hc : MovesAlone s (.take f topic)) :
    Counted (s.take f topic) share := by
  unfold State.take
  cases hfe : s.findEntry topic with
  | none => exact h
  | some e =>
    obtain ⟨he, -⟩ := findEntry_eq_some hfe
    have hs := hc e hfe
    have hidle : (s.flights f).claim = none := by
      cases hfl : s.flights f <;> simp_all [Flight.Idle, Flight.claim, Flight.copy]
    refine ⟨h.balanced, h.caller, h.create, h.removing, ?_⟩
    intro e' he' hs'
    have hacc := h.registered e' he' (by simp [Stays, hm])
    by_cases heq : e'.epoch = e.epoch
    · obtain rfl := hw.eq_of_epoch he' he heq
      refine .inl ⟨?_, hacc.settle hs⟩
      intro g r hg
      by_cases hgf : g = f
      · subst hgf
        simp only [State.setFlight, Function.update_self, Flight.claim, Flight.copy, Entry.copy,
          Option.map_some, Option.some.injEq, Prod.mk.injEq, true_and] at hg
        exact hg.symm
      · simp only [State.setFlight, Function.update_of_ne hgf] at hg
        exact hs g r hg
    · refine hacc.congr fun g r => ?_
      by_cases hgf : g = f
      · subst hgf
        rw [hidle]
        simp [State.setFlight, Flight.claim, Flight.copy, Entry.copy, Ne.symm heq]
      · simp [State.setFlight, hgf]

/-! ### Creating and removing -/

theorem caller_mem_owners (s : State) : Owner.caller ∈ owners s := by simp [owners]

theorem create_mem_owners (s : State) : Owner.create ∈ owners s := by simp [owners]

theorem counted_keepFresh (hw : WellFormed s) (h : Counted s share) (o : Object) :
    Counted (next s (.keepFresh o)) (Function.update share .caller (o :: s.kept)) := by
  refine ⟨?_, by simp [next], by simpa [next] using h.create, by simpa [next] using h.removing, ?_⟩
  · exact h.balanced.acquire (nodup_owners hw) (caller_mem_owners s) (h.caller.symm.cons o)
  · intro e he hs
    exact (h.registered e he hs).congr fun _ _ => Iff.rfl

theorem counted_stopKeepingFresh (hw : WellFormed s) (h : Counted s share) {o : Object}
    (ho : o ∈ s.kept) :
    Counted (next s (.stopKeepingFresh o)) (Function.update share .caller (s.kept.erase o)) := by
  refine ⟨?_, by simp [next], by simpa [next] using h.create, by simpa [next] using h.removing, ?_⟩
  · exact h.balanced.release (nodup_owners hw) (caller_mem_owners s)
      (h.caller.trans (List.perm_cons_erase ho))
  · intro e he hs
    exact (h.registered e he hs).congr fun _ _ => Iff.rfl

theorem counted_lock (h : Counted s share) {t : ℕ} (hm : s.mutex = .free) :
    Counted (s.lock t) share := by
  unfold State.lock
  cases s.creators t with
  | classified config plans =>
    dsimp only
    split
    · exact h.congr rfl rfl rfl rfl fun _ => rfl
    · refine ⟨h.balanced, h.caller, ?_, ?_, ?_⟩
      · simpa [hm, Mutex.acquired] using h.create
      · rintro topic todo ⟨⟩
      · exact fun e he _ => h.registered e he (by simp [Stays, hm])
  | _ => exact h

theorem counted_remove (h : Counted s share)
    (hm : s.mutex = .free) (hc : MovesAlone s (.remove topic)) :
    Counted (s.remove topic) share := by
  unfold State.remove
  cases hfe : s.findEntry topic with
  | none => exact h
  | some e =>
    obtain ⟨he, ht⟩ := findEntry_eq_some hfe
    refine ⟨h.balanced, h.caller, ?_, ?_, ?_⟩
    · simpa [hm, Mutex.acquired] using h.create
    · rintro topic' todo ⟨⟩
      exact ⟨e, he, ht, (h.registered e he (by simp [Stays, hm])).settle (hc e hfe)⟩
    · exact fun e' he' _ => h.registered e' he' (by simp [Stays, hm])

theorem counted_acquire (hw : WellFormed s) (h : Counted s share) {config : Config}
    {acquired : List ParamPlan}
    (hm : s.mutex = .creating config acquired (plan :: todo)) :
    Counted s.mutexStep (Function.update share .create (sdoObjects (acquired ++ [plan]))) := by
  have hcreate : (share .create).Perm (sdoObjects acquired) := by
    simpa [hm, Mutex.acquired] using h.create
  simp only [State.mutexStep, hm]
  refine ⟨?_, by simpa using h.caller, by simp [Mutex.acquired], by rintro topic todo ⟨⟩, ?_⟩
  · rw [sdoObjects_append, sdoObjects_singleton, ParamPlan.acquire]
    split_ifs
    · refine h.balanced.acquire (nodup_owners hw) (create_mem_owners s) ?_
      exact (List.perm_append_singleton _ _).trans (hcreate.symm.cons _)
    · refine h.balanced.perm fun i _ => ?_
      by_cases hi : i = .create
      · simpa [hi] using hcreate.symm
      · rw [Function.update_of_ne hi]
  · intro e he _
    exact (h.registered e he (by simp [Stays, hm])).congr fun _ _ => Iff.rfl

/-- The new registration takes over what `create` acquired. -/
theorem counted_register (hw : WellFormed s) (h : Counted s share) {config : Config}
    {acquired : List ParamPlan} (hm : s.mutex = .creating config acquired []) :
    ∃ share', Counted s.mutexStep share' := by
  have hcreate : (share .create).Perm (sdoObjects acquired) := by
    simpa [hm, Mutex.acquired] using h.create
  have hnew : ∀ e ∈ s.entries, e.epoch ≠ s.nextEpoch := fun e he => Nat.ne_of_lt (hw.entry e he)
  have hj : Owner.registration s.nextEpoch ∉ owners s := by
    simpa [owners] using hnew
  simp only [State.mutexStep, hm]
  refine ⟨Function.update (Function.update share (.registration s.nextEpoch) (share .create))
    .create [], ?_, by simpa using h.caller, by simp [Mutex.acquired, sdoObjects],
    by rintro topic todo ⟨⟩, ?_⟩
  · have hb := h.balanced.handOver (nodup_owners hw) (create_mem_owners s) hj
    simpa [owners, State.newEntry] using hb
  · intro e he _
    rcases List.mem_append.mp he with he | he
    · have hacc := h.registered e he (by simp [Stays, hm])
      rw [Function.update_of_ne (by simp), Function.update_of_ne (by simpa using hnew e he)]
      exact hacc.congr fun _ _ => Iff.rfl
    · obtain rfl := List.mem_singleton.mp he
      refine .inl ⟨?_, by simpa [State.newEntry] using hcreate⟩
      intro g r hg
      -- no flush has copied the newest registration yet
      obtain ⟨st, hst, heq⟩ := Option.map_eq_some_iff.mp hg
      have := hw.flight g st hst
      simp only [State.newEntry, Prod.mk.injEq] at heq
      omega

theorem counted_release (hw : WellFormed s) (h : Counted s share)
    (hm : s.mutex = .removing topic (plan :: todo)) :
    ∃ share', Counted s.mutexStep share' := by
  obtain ⟨e, he, ht, hheld⟩ := h.removing topic (plan :: todo) hm
  rw [← List.singleton_append, sdoObjects_append, sdoObjects_singleton] at hheld
  simp only [State.mutexStep, hm]
  refine ⟨Function.update share (.registration e.epoch) (sdoObjects todo), ?_,
    by simpa using h.caller, by simpa [hm, Mutex.acquired] using h.create, ?_, ?_⟩
  · simp only [ParamPlan.release]
    split_ifs with hs
    · exact h.balanced.release (nodup_owners hw) (registration_mem_owners he)
        (by simpa [hs] using hheld)
    · refine h.balanced.perm fun i _ => ?_
      by_cases hi : i = .registration e.epoch
      · simpa [hi, hs] using hheld.symm
      · rw [Function.update_of_ne hi]
  · rintro topic' todo' ⟨⟩
    exact ⟨e, he, ht, by simp⟩
  · intro e' he' hs
    have hne : e'.epoch ≠ e.epoch := by
      intro heq
      obtain rfl := hw.eq_of_epoch he' he heq
      exact hs todo (by rw [ht])
    rw [Function.update_of_ne (by simpa using hne)]
    refine (h.registered e' he' fun todo' hr => ?_).congr fun _ _ => Iff.rfl
    rw [hm] at hr
    cases hr
    exact hs todo rfl

theorem counted_erase (hw : WellFormed s) (h : Counted s share)
    (hm : s.mutex = .removing topic []) : Counted s.mutexStep share := by
  simp only [State.mutexStep, hm]
  have hsub : (s.entries.filter fun e => e.config.topic ≠ topic).Sublist s.entries :=
    List.filter_sublist
  refine ⟨?_, h.caller, by simpa [hm, Mutex.acquired] using h.create,
    by rintro topic todo ⟨⟩, ?_⟩
  · refine h.balanced.sublist (nodup_owners hw) (((hsub.map _).cons_cons _).cons_cons _) ?_
    intro i hi hgone
    simp only [owners, List.mem_cons, List.mem_map] at hi hgone
    rcases hi with rfl | rfl | ⟨e, he, rfl⟩
    · simp at hgone
    · simp at hgone
    · have ht : e.config.topic = topic := by
        by_contra hne
        exact hgone (.inr (.inr ⟨e, by simp [he, hne], rfl⟩))
      obtain ⟨e', he', ht', hheld⟩ := h.removing topic [] hm
      rw [hw.eq_of_topic he he' (ht.trans ht'.symm)]
      simpa [sdoObjects] using hheld
  · intro e he _
    refine h.registered e (hsub.subset he) fun todo hr => ?_
    rw [hm] at hr
    cases hr
    simp at he

theorem counted_mutexStep (hw : WellFormed s) (h : Counted s share) :
    ∃ share', Counted s.mutexStep share' := by
  cases hm : s.mutex with
  | free => exact ⟨share, by simpa [State.mutexStep, hm] using h⟩
  | creating config acquired todo =>
    cases todo with
    | nil => exact counted_register hw h hm
    | cons plan todo => exact ⟨_, counted_acquire hw h hm⟩
  | removing topic todo =>
    cases todo with
    | nil => exact ⟨share, counted_erase hw h hm⟩
    | cons plan todo => exact counted_release hw h hm

theorem counted_initial : Counted State.initial fun _ => [] := by
  refine ⟨fun _ => rfl, List.Perm.refl _, List.Perm.refl _, ?_, ?_⟩
  · rintro topic todo ⟨⟩
  · rintro e ⟨⟩

theorem counted_step {a : Action} (hw : WellFormed s) (h : Counted s share)
    (he : Enabled s a) (hc : MovesAlone s a) : ∃ share', Counted (next s a) share' := by
  cases a with
  | lock t => exact ⟨share, counted_lock h he.2⟩
  | remove topic => exact ⟨share, counted_remove h he.1 hc⟩
  | mutex => exact counted_mutexStep hw h
  | keepFresh o => exact ⟨_, counted_keepFresh hw h o⟩
  | stopKeepingFresh o => exact ⟨_, counted_stopKeepingFresh hw h he⟩
  | take f topic => exact ⟨share, counted_take hw h he.1 he.2.1 hc⟩
  | flush f => exact counted_flush hw h he hc
  | prepare f exchanging sdoValues =>
    exact ⟨share, h.congr rfl rfl rfl rfl (claim_update (claim_prepare exchanging sdoValues _))⟩
  | _ => exact ⟨share, h.congr rfl rfl rfl rfl fun _ => rfl⟩

theorem counted_reachable (h : system.ReachableUnder MovesAlone s) :
    ∃ share, Counted s share :=
  h.induct (I := fun s => ∃ share, Counted s share) ⟨_, counted_initial⟩
    fun _ _ hr ⟨_, hs⟩ he hc => counted_step (wellFormed_reachable hr) hs he hc

/-- No reference is leaked and none is given back twice. -/
theorem countsConserved_of_movesAlone (h : system.ReachableUnder MovesAlone s) :
    CountsConserved s := by
  obtain ⟨share, hc⟩ := counted_reachable h
  intro hr o
  have hcreate : share .create = [] := by
    simpa [hr.mutex, Mutex.acquired, sdoObjects] using hc.create
  have hentries : (s.entries.flatMap fun e => share (.registration e.epoch)).Perm
      (s.entries.flatMap fun e => sdoObjects e.progress.plans) := by
    refine List.Perm.flatMap_left _ fun e he => ?_
    refine (hc.registered e he (by simp [Stays, hr.mutex])).settle fun f r hf => ?_
    rw [hr.flights f] at hf
    cases hf
  rw [hc.balanced o, owners, List.flatMap_cons, List.flatMap_cons, hcreate, List.nil_append,
    List.flatMap_map, List.count_append, hc.caller.count_eq, hentries.count_eq, Nat.add_comm]

def Action.Plain : Action → Bool
  | .flush _ | .take _ _ | .remove _ => false
  | _ => true

theorem movesAlone_of_plain {a : Action} (h : a.Plain = true) (s : State) : MovesAlone s a := by
  cases a <;> simp_all [Action.Plain, MovesAlone]

/-- A flush copies the monitoring and moves its plan to the refresher. -/
def moveToRefresher : List Action :=
  [.take 0 "position", .flush 0, .flush 0, .flush 0, .flush 0]

/-- It ends: the first flush only primes the cursor. -/
def endFlush : List Action := [.flush 0, .flush 0]

/-- A re-map leaves the object out, and the next flush commits what it made of the plan. -/
def moveThenCommit : List Action :=
  setUp ++ createPosition ++ unmapPosition ++ moveToRefresher ++ endFlush

theorem atRest_moveThenCommit : AtRest (system.run State.initial moveThenCommit) := by
  refine ⟨⟨?_, rfl⟩, rfl, ?_, ?_⟩ <;> rintro (_ | t) <;> rfl

theorem moveThenCommit_follows : system.Follows MovesAlone State.initial moveThenCommit := by
  refine System.follows_iff.mpr ⟨by decide +kernel, ?_⟩
  rw [moveThenCommit, System.meets_append, System.meets_append]
  refine ⟨⟨System.meets_of_forall fun a ha s => ?_, ?_, ?_, ?_, ?_, ?_, trivial⟩, ?_, ?_, trivial⟩
  · have hall : (setUp ++ createPosition ++ unmapPosition).all Action.Plain = true := rfl
    exact movesAlone_of_plain (List.all_eq_true.mp hall a ha) s
  · exact fun _ _ _ _ h => nomatch h
  rotate_left 3
  · -- the one plan that moves
    intro _ epoch r h
    obtain rfl : 1 = epoch := congrArg Prod.fst (Option.some.inj h)
    refine ⟨?_, _, List.mem_cons_self, rfl, fun _ h => nomatch h⟩
    rintro (_ | g) r h
    · rfl
    · cases h
  all_goals exact fun h => h.elim

theorem moveThenCommit_conserved :
    AtRest (system.run State.initial moveThenCommit) ∧
      (system.run State.initial moveThenCommit).refCount targetPosition = 1 ∧
      CountsConserved (system.run State.initial moveThenCommit) :=
  ⟨atRest_moveThenCommit, rfl, countsConserved_of_movesAlone ⟨_, moveThenCommit_follows, rfl⟩⟩

/-- `remove` comes while the flush is in flight: it releases by the plans the flush has replaced,
and the commit that would bring the new ones finds no registration. -/
def removeInsideFlush : List Action :=
  setUp ++ createPosition ++ unmapPosition ++ moveToRefresher ++
  [.remove "position", .mutex, .mutex] ++ endFlush

theorem atRest_removeInsideFlush : AtRest (system.run State.initial removeInsideFlush) := by
  refine ⟨⟨?_, rfl⟩, rfl, ?_, ?_⟩ <;> rintro (_ | t) <;> rfl

theorem removeInsideFlush_not_countsConserved :
    system.Reachable (system.run State.initial removeInsideFlush) ∧
      ¬ CountsConserved (system.run State.initial removeInsideFlush) := by
  refine ⟨⟨removeInsideFlush, by decide +kernel, rfl⟩, fun h => ?_⟩
  have := h atRest_removeInsideFlush targetPosition
  revert this
  decide +kernel

end MotionMaster.Monitoring
