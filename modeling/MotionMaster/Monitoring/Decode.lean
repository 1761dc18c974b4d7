import MotionMaster.Monitoring.Tracking

/-! The layout a row is decoded under is the one its record was written under. -/
namespace MotionMaster.Monitoring

open Interleaving DeviceManager

/-- In every row handed to the clients, what a mapped object of an exchanging device contributes is
decoded where the image of the recorded cycle has it. -/
def DecodedAsRecorded (s : State) : Prop :=
  ∀ b ∈ s.published, ∀ row ∈ b.rows, ∀ (i : ℕ) (plan : ParamPlan), b.plans[i]? = some plan →
    plan.source = .pdo → b.exchanging plan.object.devicePosition = true →
      ∃ (spec : PdoSampleSpec) (loc : Location), plan.pdoSpec = some spec ∧
        locate (some row.record.image) plan.object = some loc ∧ row.sample.values[i]? =
          some (decodeField row.record loc.isOutput loc.bitOffset loc.bitLength spec.dataType)

/-- Between the load of the generation and the read of the last record. -/
def Flight.Mid : Flight → Prop
  | .recapturing _ _ _ _ _ _ | .deciding _ _ _ _ _ _ | .captured _ => True
  | .measured _ _ _ | .sampling _ _ _ => True
  | .reading _ head _ seq _ _ _ => seq ≠ head
  | .idle | .taken _ | .flushed _ | .threw _ => False

/-- A re-map ends only between flushes, and while nothing is being created. -/
def Undivided (s : State) : Action → Prop
  | .dm d => StartsAlone s.dm d ∧
    ∀ image, d = .bus (.remapBump image) → NoCreate s ∧ ∀ f, ¬ (s.flights f).Mid
  | _ => True

variable {s : State}

/-! ### Plans and the image in circulation -/

/-- The plan takes its object from where the image has it, if it takes it from an image at all. -/
def ParamPlan.Fits (plan : ParamPlan) (image : Image) : Prop :=
  plan.source = .pdo → ∃ loc dataType, locate (some image) plan.object = some loc ∧
    plan.pdoSpec = some ⟨loc.isOutput, loc.bitOffset, loc.bitLength, dataType⟩

/-- Every image stored is counted by the generation. -/
def Announced (dm : DeviceManager.State) : Prop := ∀ image, dm.bus ≠ .stored image

def FitsAll (dm : DeviceManager.State) (plan : ParamPlan) : Prop :=
  ∀ image, Circulates dm image → plan.Fits image

/-- The place a lookup has found is the one in every image. -/
def Sighted (dm : DeviceManager.State) (o : Object) : Lookup → Prop
  | .loadType _ loc => ∀ image, Circulates dm image → locate (some image) o = some loc
  | _ => True

theorem fits_of_none (o : Object) (image : Image) : (planFor o none).Fits image := by
  rintro ⟨⟩

variable {dm : DeviceManager.State}

theorem sighted_lookup {o : Object} {l l' : Lookup} (hi : InForce dm)
    (hstep : l.step dm o = .inl l') : Sighted dm o l' := by
  cases l with
  | loadSet =>
    cases hstep
    trivial
  | loadImage set =>
    simp only [Lookup.step] at hstep
    split at hstep
    · cases hstep
    · rename_i loc hloc
      split at hstep
      · cases hstep
        obtain ⟨image, himage, hfind⟩ := Option.bind_eq_some_iff.mp hloc
        intro image' hc
        rw [hi.sole image' image hc (.published himage)]
        exact hfind
      · cases hstep
  | loadType set loc => cases hstep

theorem fits_lookup {o : Object} {l : Lookup}
    {spec : Option PdoSampleSpec} (h : Sighted dm o l) (hstep : l.step dm o = .inr spec) :
    FitsAll dm (planFor o spec) := by
  intro image hc
  cases l with
  | loadSet => cases hstep
  | loadImage set =>
    simp only [Lookup.step] at hstep
    split at hstep
    · cases hstep
      exact fits_of_none o image
    · split at hstep
      · cases hstep
      · cases hstep
        exact fits_of_none o image
  | loadType set loc =>
    cases hstep
    cases dataTypeOf dm set o with
    | none => exact fits_of_none o image
    | some dataType => exact fun _ => ⟨loc, dataType, h image hc, rfl⟩

variable {d : DeviceManager.Action}

theorem announced_next
    (he : DeviceManager.Enabled dm d) (hne : ∀ image, d ≠ .bus (.remapBump image))
    (h : Announced (DeviceManager.next dm d)) : Announced dm := by
  intro image hb
  cases d with
  | rt a => exact h image (by simpa [DeviceManager.next] using hb)
  | pauser t a => exact h image (by simpa [DeviceManager.next] using hb)
  | bus a =>
    cases a <;> simp only [DeviceManager.Enabled, BusAction.Enabled, hb] at he
    case remapBump image' => exact hne image' rfl
    all_goals simp at he

theorem keeps_dm (he : DeviceManager.Enabled s.dm d)
    (hne : ∀ image, d ≠ .bus (.remapBump image)) (ha : Announced (DeviceManager.next s.dm d)) :
    Keeps Announced FitsAll Sighted s (DeviceManager.next s.dm d) := by
  have hstore : ∀ image, d ≠ .bus (.remapStore image) := by
    rintro image rfl
    exact ha image rfl
  refine ⟨announced_next he hne ha, fun plan _ h image hc => h image (circulates_next he hstore hc),
    fun o l _ h => ?_⟩
  cases l with
  | loadType set loc => exact fun image hc => h image (circulates_next he hstore hc)
  | _ => trivial

theorem fitting_step {a : Action} (hi : InForce s.dm) (h : Tracks Announced FitsAll Sighted s)
    (he : Enabled s a) (hc : Undivided s a) : Tracks Announced FitsAll Sighted (next s a) := by
  by_cases ha : ∃ d, a = .dm d
  · obtain ⟨d, rfl⟩ := ha
    exact h.dm (fun image hd => (hc.2 image hd).1) (keeps_dm he)
  · exact h.step (fun d h => ha ⟨d, h⟩) (fun _ => trivial)
      (fun o l l' _ _ _ hstep => sighted_lookup hi hstep)
      (fun o l spec _ hs _ hstep => fits_lookup hs hstep)

/-! ### Rows -/

/-- The batch's rows are its plans decoded, under an image they fit. -/
def Batch.Decoded (b : Batch) : Prop :=
  ∀ row ∈ b.rows, row = sampleRow b.exchanging b.sdoValues b.plans row.record ∧
    ∀ plan ∈ b.plans, plan.Fits row.record.image

def Flight.batch : Flight → Option Batch
  | .reading st _ _ _ exchanging sdoValues rows =>
    some ⟨st.topic, st.epoch, st.progress.plans, exchanging, sdoValues, rows⟩
  | _ => none

structure Decoding (s : State) : Prop where
  current : ∀ f, (s.flights f).Mid → (s.flights f).stamp = some s.dm.processImageGeneration
  reading : ∀ f b, (s.flights f).batch = some b → b.Decoded
  published : ∀ b ∈ s.published, b.Decoded

variable {f : ℕ} {fl : Flight}

theorem Decoding.setFlight (h : Decoding s)
    (hm : fl.Mid → fl.stamp = some s.dm.processImageGeneration)
    (hb : ∀ b, fl.batch = some b → b.Decoded) : Decoding (s.setFlight f fl) := by
  refine ⟨fun g hg => ?_, fun g b hg => ?_, h.published⟩ <;> by_cases hgf : g = f
  · simp only [State.setFlight, hgf, Function.update_self] at hg ⊢
    exact hm hg
  · simp only [State.setFlight, Function.update_of_ne hgf] at hg ⊢
    exact h.current g hg
  · simp only [State.setFlight, hgf, Function.update_self] at hg
    exact hb b hg
  · simp only [State.setFlight, Function.update_of_ne hgf] at hg
    exact h.reading g b hg

/-- A flush is under way from the load of the generation on. -/
theorem mid_step (dm : DeviceManager.State) (h : (fl.step dm).Mid) :
    fl.Mid ∨ ∃ st, fl = .taken st := by
  cases fl with
  | taken st => exact .inr ⟨st, rfl⟩
  | reading st head base seq exchanging sdoValues rows =>
    refine .inl fun heq => ?_
    simp only [Flight.step, if_pos heq] at h
    exact h
  | idle | flushed | threw => exact h.elim
  | _ => exact .inl trivial

theorem current_flight_step (h : Decoding s) (hm : ((s.flights f).step s.dm).Mid) :
    ((s.flights f).step s.dm).stamp = some s.dm.processImageGeneration := by
  rw [stamp_step]
  rcases mid_step s.dm hm with hmid | ⟨st, hfl⟩
  · have hcur := h.current f hmid
    cases hfl : s.flights f with
    | taken st => rfl
    | flushed st =>
      rw [hfl] at hmid
      exact hmid.elim
    | _ =>
      rw [hfl] at hcur
      exact hcur
  · rw [hfl]

/-- The record a flush reads was written under an image its plans fit. -/
theorem decoded_readOne {head base seq : ℕ} {st : FlushState} {exchanging : ℕ → Bool}
    {sdoValues : ℕ → Option DeviceParameterValue} {rows : List Row} (h : Decoding s)
    (ht : Tracks Announced FitsAll Sighted s)
    (hfl : s.flights f = .reading st head base seq exchanging sdoValues rows) (hne : seq ≠ head)
    (ha : Announced s.dm) : Batch.Decoded ⟨st.topic, st.epoch, st.progress.plans, exchanging,
      sdoValues, readOne s.dm.ring st.progress.plans seq exchanging sdoValues rows⟩ := by
  have hrows := h.reading f _ (by rw [hfl]; rfl)
  unfold readOne
  split
  · exact hrows
  · rename_i record hread
    intro row hrow
    rcases List.mem_append.mp hrow with hrow | hrow
    · exact hrows row hrow
    · obtain rfl := List.mem_singleton.mp hrow
      refine ⟨rfl, fun plan hp => ht.plans ha plan (.flight f ?_ ?_) _ ?_⟩
      · exact h.current f (by rw [hfl]; exact hne)
      · rwa [hfl]
      · unfold Ring.readRecord at hread
        split at hread
        · cases hread
        · exact .recorded _ record (Option.filter_eq_some_iff.mp hread).1 rfl

theorem batch_step (h : Decoding s) (ht : Tracks Announced FitsAll Sighted s)
    (he : (s.flights f).CanStep s) {b : Batch}
    (hb : ((s.flights f).step s.dm).batch = some b) : b.Decoded := by
  cases hfl : s.flights f with
  | reading st head base seq exchanging sdoValues rows =>
    rw [hfl] at he hb
    by_cases hne : seq = head
    · simp only [Flight.step, if_pos hne] at hb
      cases hb
    · simp only [Flight.step, if_neg hne] at hb
      cases hb
      refine decoded_readOne h ht hfl hne fun image hstored => ?_
      have hfree : ¬ RecorderHeld s.dm.bus := he.resolve_left hne
      rw [hstored] at hfree
      exact hfree trivial
  | taken st =>
    simp only [hfl, Flight.step] at hb
    split at hb
    · cases hb
    · cases hp : st.progress.plans <;> rw [hp] at hb <;> cases hb
  | recapturing st generation done plan todo l =>
    simp only [hfl, Flight.step] at hb
    split at hb <;> cases hb
  | deciding st generation done plan todo spec =>
    rw [hfl] at hb
    cases todo <;> cases hb
  | captured st =>
    simp only [hfl, Flight.step, measure] at hb
    split_ifs at hb <;> cases hb
  | _ =>
    rw [hfl] at hb
    cases hb

theorem batch_of_publishes {b : Batch} (h : b ∈ fl.publishes) :
    fl.batch = some b := by
  cases fl with
  | reading st head base seq exchanging sdoValues rows =>
    simp only [Flight.publishes] at h
    split at h
    · rw [List.mem_singleton.mp h]
      rfl
    · cases h
  | _ => cases h

theorem decoding_flush (h : Decoding s) (ht : Tracks Announced FitsAll Sighted s)
    (he : (s.flights f).CanStep s) : Decoding (s.flush f) := by
  have hset := h.setFlight (f := f) (current_flight_step h) fun b => batch_step h ht he
  refine ⟨hset.current, hset.reading, fun b hb => ?_⟩
  rcases List.mem_append.mp hb with hb | hb
  · exact h.published b hb
  · exact h.reading f b (batch_of_publishes hb)

theorem decoding_prepare (exchanging : ℕ → Bool)
    (sdoValues : ℕ → Option DeviceParameterValue) (h : Decoding s) :
    Decoding (s.setFlight f ((s.flights f).prepare exchanging sdoValues)) := by
  have hcur := h.current f
  have hread := h.reading f
  cases hfl : s.flights f with
  | sampling st head base =>
    rw [hfl] at hcur
    simp only [Flight.prepare]
    split
    · exact h.setFlight (fun hm => hm.elim) (by rintro b ⟨⟩)
    · refine h.setFlight (fun _ => hcur trivial) ?_
      rintro b ⟨⟩ row ⟨⟩
  | _ =>
    rw [hfl] at hcur hread
    exact h.setFlight hcur hread

theorem decoding_dm (h : Decoding s) (hc : Undivided s (.dm d)) :
    Decoding (next s (.dm d)) := by
  refine ⟨fun f hm => ?_, h.reading, h.published⟩
  rcases generation_dm s.dm d with hg | ⟨⟨image, rfl⟩, -⟩
  · exact (h.current f hm).trans (congrArg some hg.symm)
  · exact absurd hm ((hc.2 image rfl).2 f)

theorem decoding_initial : Decoding State.initial := by
  constructor <;> simp [State.initial, Flight.Mid, Flight.batch]

theorem decoding_step {a : Action} (h : Decoding s) (ht : Tracks Announced FitsAll Sighted s)
    (he : Enabled s a) (hc : Undivided s a) : Decoding (next s a) := by
  cases a with
  | dm d => exact decoding_dm h hc
  | lock t =>
    simp only [next, State.lock]
    split
    · split <;> exact ⟨h.current, h.reading, h.published⟩
    · exact h
  | remove topic =>
    simp only [next, State.remove]
    split
    · exact h
    · exact ⟨h.current, h.reading, h.published⟩
  | mutex =>
    simp only [next, State.mutexStep]
    split <;> exact ⟨h.current, h.reading, h.published⟩
  | take f topic =>
    simp only [next, State.take]
    split
    · exact h
    · exact h.setFlight (fun hm => hm.elim) (by rintro b ⟨⟩)
  | flush f => exact decoding_flush h ht he
  | prepare f exchanging sdoValues => exact decoding_prepare exchanging sdoValues h
  | _ => exact ⟨h.current, h.reading, h.published⟩

theorem decoding_reachable (h : system.ReachableUnder Undivided s) : Decoding s := by
  suffices Tracks Announced FitsAll Sighted s ∧ Decoding s from this.2
  refine h.induct (I := fun s => Tracks Announced FitsAll Sighted s ∧ Decoding s)
    ⟨tracks_initial, decoding_initial⟩ fun s a hreach hs he hc => ?_
  have hi := (recorder_reachable (dm_reachable (fun _ _ hc => hc.1) hreach)).inForce
  exact ⟨fitting_step hi hs.1 he hc, decoding_step hs.2 hs.1 he hc⟩

/-- As long as re-maps end between flushes, every row is decoded as its cycle was recorded. -/
theorem decodedAsRecorded_of_undivided (h : system.ReachableUnder Undivided s) :
    DecodedAsRecorded s := by
  intro b hb row hrow i plan hplan hsource hex
  obtain ⟨hsample, hfits⟩ := (decoding_reachable h).published b hb row hrow
  obtain ⟨loc, dataType, hloc, hspec⟩ := hfits plan (List.mem_of_getElem? hplan) hsource
  refine ⟨_, loc, hspec, hloc, ?_⟩
  rw [hsample]
  simp [sampleRow, List.getElem?_mapIdx, hplan, planValue, hex, hsource, hspec]

/-! ### Schedules -/

/-- Between flushes only the device manager's own order matters. -/
theorem meets_undivided {ds : List DeviceManager.Action} (hn : NoCreate s)
    (hm : ∀ f, ¬ (s.flights f).Mid) (ho : DeviceManager.system.Meets StartsAlone s.dm ds) :
    system.Meets Undivided s (ds.map .dm) :=
  meets_dm (fun _ _ hd => ⟨hd, fun _ _ => ⟨hn, hm⟩⟩) ho

/-- Between flushes the drive is re-mapped, and the cycle recorded after it flushed. -/
def remapBetweenFlushes : List Action :=
  setUp ++ createPosition ++ primePosition ++
  (remap 8 movedSetpoint ++ recordCycle ⟨8, movedSetpoint⟩ 0).map .dm ++ flushPosition 7 2

theorem remapBetweenFlushes_follows :
    system.Follows Undivided State.initial remapBetweenFlushes := by
  refine System.follows_iff.mpr ⟨by decide +kernel, ?_⟩
  rw [remapBetweenFlushes]
  iterate 4 rw [System.meets_append]
  refine ⟨⟨⟨⟨?_, ?_⟩, ?_⟩, ?_⟩, ?_⟩
  · exact meets_undivided ⟨rfl, fun _ => rfl⟩ (fun _ => id) setUp_startsAlone
  · exact System.meets_of_forall (by simp [createPosition, Undivided])
  · exact System.meets_of_forall (by simp [primePosition, Undivided])
  · refine meets_undivided ⟨rfl, ?_⟩ ?_ ?_
    · rintro (_ | t) <;> rfl
    · rintro (_ | f) <;> exact id
    · repeat' first | exact trivial | (rintro (_ | t) <;> rfl) | constructor
  · exact System.meets_of_forall (by simp [flushPosition, Undivided])

/-- The value comes from where the new image has the object. -/
theorem remapBetweenFlushes_decoded :
    (system.run State.initial remapBetweenFlushes).published.flatMap
        (fun b => b.rows.map fun row => row.sample.values) =
      [[some (.number .int32 0x08070605)]] ∧
      DecodedAsRecorded (system.run State.initial remapBetweenFlushes) :=
  ⟨by decide +kernel, decodedAsRecorded_of_undivided ⟨_, remapBetweenFlushes_follows, rfl⟩⟩

/-- The same re-map ends after the flush has compared the generations: the record of the new image
is decoded where the old one had the object. -/
def remapInsideFlush : List Action :=
  setUp ++ createPosition ++ primePosition ++ [.take 0 "position", .flush 0] ++
  (remap 8 movedSetpoint ++ recordCycle ⟨8, movedSetpoint⟩ 0).map .dm ++
  [.flush 0, .flush 0, .prepare 0 (fun _ => true) (fun _ => none), .flush 0, .flush 0]

theorem remapInsideFlush_not_decoded :
    system.Reachable (system.run State.initial remapInsideFlush) ∧
      ¬ DecodedAsRecorded (system.run State.initial remapInsideFlush) := by
  refine ⟨⟨remapInsideFlush, by decide +kernel, rfl⟩, fun h => ?_⟩
  obtain ⟨spec, loc, hspec, hloc, hvalue⟩ := h _ List.mem_cons_self _ List.mem_cons_self 0 _ rfl
    rfl rfl
  cases hspec
  cases hloc
  exact absurd hvalue (by decide +kernel)

end MotionMaster.Monitoring
