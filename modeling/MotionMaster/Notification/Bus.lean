import MotionMaster.Lib.Interleaving

/-!
# The notification bus

One thread looks at the counters of its sources, each at its own cadence, and sends a message when a
counter is not what it was and the source has something to say. A counter may start again at zero,
so only inequality counts. Times are in milliseconds.
-/

namespace MotionMaster.NotificationBus

open Interleaving

/-- One look at a source: what its counter was read as, and whether `render` has data. -/
structure Look where
  time : ℕ
  revision : BitVec 64
  data : Bool

/-- What the bus keeps for a source, and its looks with those that sent a message, the last one
first. -/
structure Source where
  lastSeen : BitVec 64
  nextDue : ℕ
  looks : List Look
  sent : List Look

/-- The body of the loop over the sources. -/
def Source.poll (interval now : ℕ) (revision : BitVec 64) (data : Bool) (w : Source) : Source :=
  if now < w.nextDue then w
  else
    let look : Look := ⟨now, revision, data⟩
    let w := { w with nextDue := now + interval, looks := look :: w.looks }
    if revision = w.lastSeen then w
    else if data then { w with lastSeen := revision, sent := look :: w.sent }
    else w

/-- The times of the turns so far are kept, the last one first. -/
structure State where
  clock : ℕ
  turns : List ℕ
  sources : ℕ → Source

def nextDeadline (intervals : List ℕ) (s : State) : ℕ :=
  (((List.range intervals.length).map fun i => (s.sources i).nextDue).min?).getD (s.clock + 1000)

/-- A turn of the loop of `run` that was not stopped, with what the sources answer in it. It ends
when all of them have been looked at. -/
structure Turn where
  now : ℕ
  revision : ℕ → BitVec 64
  data : ℕ → Bool
  ended : ℕ

/-- `start` at a time at which the counters stand so, and then `run`. -/
def system (intervals : List ℕ) (revisions : ℕ → BitVec 64) (clock : ℕ) : System State Turn where
  initial := ⟨clock, [], fun i => ⟨revisions i, clock + intervals.getD i 0, [], []⟩⟩
  Enabled s t := s.clock ≤ t.now ∧ nextDeadline intervals s ≤ t.now ∧ t.now ≤ t.ended
  next s t := ⟨t.ended, t.now :: s.turns, fun i =>
    (s.sources i).poll (intervals.getD i 0) t.now (t.revision i) (t.data i)⟩

/-! ### What the looks say -/

/-- The counter at the newest look that had data. -/
def known (first : BitVec 64) : List Look → BitVec 64
  | [] => first
  | look :: older => if look.data then look.revision else known first older

/-- The looks that have something to tell: data, and a counter that is not the one known. -/
def news (first : BitVec 64) : List Look → List Look
  | [] => []
  | look :: older =>
    if look.data ∧ look.revision ≠ known first older then look :: news first older
    else news first older

theorem known_eq_newest (first : BitVec 64) (looks : List Look) :
    known first looks = ((news first looks).head?.map (·.revision)).getD first := by
  induction looks with
  | nil => rfl
  | cons look older ih =>
    unfold known news
    by_cases hd : look.data = true
    · by_cases hr : look.revision = known first older
      · simp only [hd, hr, ne_eq, not_true_eq_false, and_false, if_true, if_false]
        exact ih
      · simp [hd, hr]
    · simpa [hd] using ih

def Source.times (start : ℕ) (w : Source) : List ℕ := w.looks.map (·.time) ++ [start]

/-- What the listeners of a source can count on. Looks are an interval apart, and at every turn the
last one is less than an interval ago. Messages are sent at the looks that have news and at no
others, so the last message is of the newest look that had data: no change is lost, and none is told
twice. -/
structure Reports (start interval : ℕ) (first : BitVec 64) (turns : List ℕ) (w : Source) :
    Prop where
  apart : (w.times start).Pairwise fun later earlier => earlier + interval ≤ later
  looked : ∀ now ∈ turns, ∃ time ∈ w.times start, time ≤ now ∧ (now = time ∨ now < time + interval)
  sent : w.sent = news first w.looks
  newest : (w.sent.head?.map (·.revision)).getD first = known first w.looks

/-- The invariant of a source whose counter was `first` when the bus started. -/
structure Kept (start interval : ℕ) (first : BitVec 64) (turns : List ℕ) (clock : ℕ) (w : Source) :
    Prop extends Reports start interval first turns w where
  paced : ∀ time ∈ w.times start, time + interval ≤ w.nextDue
  due : ∃ time ∈ w.times start, time ≤ clock ∧ w.nextDue = time + interval
  seen : w.lastSeen = known first w.looks

variable {start interval clock now ended : ℕ} {first revision : BitVec 64} {data : Bool}
  {turns : List ℕ} {w : Source}

/-- Until the source is due nothing happens, and its last look is recent enough. -/
theorem Kept.pass (h : Kept start interval first turns clock w) (hc : clock ≤ now)
    (he : now ≤ ended) (hd : now < w.nextDue) :
    Kept start interval first (now :: turns) ended w := by
  obtain ⟨time, hmem, hle, hdue⟩ := h.due
  refine { h with looked := ?_, due := ⟨time, hmem, by omega, hdue⟩ }
  exact List.forall_mem_cons.mpr ⟨⟨time, hmem, by omega, by omega⟩, h.looked⟩

/-- A look at a source that is due, whatever it leads to. -/
theorem Kept.look (h : Kept start interval first turns clock w) (he : now ≤ ended)
    (hd : w.nextDue ≤ now) {w' : Source} (hdue : w'.nextDue = now + interval)
    (hlooks : w'.looks = ⟨now, revision, data⟩ :: w.looks)
    (hsent : w'.sent = news first w'.looks) (hseen : w'.lastSeen = known first w'.looks) :
    Kept start interval first (now :: turns) ended w' := by
  have htimes : w'.times start = now :: w.times start := by simp [Source.times, hlooks]
  have hbefore : ∀ time ∈ w.times start, time + interval ≤ now := fun time hmem =>
    Nat.le_trans (h.paced time hmem) hd
  refine ⟨⟨?_, ?_, hsent, ?_⟩, ?_, ?_, hseen⟩
  · rw [htimes]
    exact List.pairwise_cons.mpr ⟨hbefore, h.apart⟩
  · rw [htimes]
    refine List.forall_mem_cons.mpr ⟨⟨now, List.mem_cons_self, Nat.le_refl _, .inl rfl⟩, ?_⟩
    intro now' hmem
    obtain ⟨time, htime, hlast⟩ := h.looked now' hmem
    exact ⟨time, List.mem_cons_of_mem _ htime, hlast⟩
  · rw [hsent, known_eq_newest]
  · rw [htimes, hdue]
    refine List.forall_mem_cons.mpr ⟨Nat.le_refl _, fun time hmem => ?_⟩
    exact Nat.le_trans (hbefore time hmem) (Nat.le_add_right _ _)
  · exact ⟨now, htimes ▸ List.mem_cons_self, he, hdue⟩

theorem Kept.poll (h : Kept start interval first turns clock w) (hc : clock ≤ now)
    (he : now ≤ ended) :
    Kept start interval first (now :: turns) ended (w.poll interval now revision data) := by
  unfold Source.poll
  by_cases hd : now < w.nextDue
  · rw [if_pos hd]
    exact h.pass hc he hd
  · have hsent := h.sent
    have hseen := h.seen
    dsimp only
    split_ifs with hr hdata <;>
      refine h.look he (Nat.not_lt.mp hd) rfl rfl ?_ ?_ <;>
      simp_all [news, known]

/-- Every source of a running bus is reported, whatever values its counter takes. -/
theorem reports_of_reachable (intervals : List ℕ) (revisions : ℕ → BitVec 64) {s : State}
    (h : (system intervals revisions start).Reachable s) (i : ℕ) :
    Reports start (intervals.getD i 0) (revisions i) s.turns (s.sources i) := by
  have hkept : Kept start (intervals.getD i 0) (revisions i) s.turns s.clock (s.sources i) := by
    refine h.invariant (I := fun s =>
      Kept start (intervals.getD i 0) (revisions i) s.turns s.clock (s.sources i)) ?_ ?_
    · constructor <;> simp [system, Source.times, known]
      constructor <;> simp [Source.times, news, known]
    · intro s t hs ht _
      exact hs.poll ht.1 ht.2.2
  exact hkept.toReports

/-- The counter of the first source moves and starts again at zero; what it says at the second turn
is declined. The second source is looked at once. -/
def restart : List Turn :=
  [⟨20, fun _ => 7, fun _ => true, 25⟩, ⟨45, fun _ => 9, fun _ => false, 45⟩,
    ⟨70, fun _ => 0, fun _ => true, 71⟩]

theorem restart_reports :
    Reports 0 20 0 [70, 45, 20] ⟨0, 90, [⟨70, 0, true⟩, ⟨45, 9, false⟩, ⟨20, 7, true⟩],
      [⟨70, 0, true⟩, ⟨20, 7, true⟩]⟩ := by
  refine reports_of_reachable (s := (system [20, 60] (fun _ => 0) 0).run
    (system [20, 60] (fun _ => 0) 0).initial restart) [20, 60] (fun _ => 0) ⟨restart, ?_, rfl⟩ 0
  refine ⟨⟨⟨?_, ?_, ?_⟩, trivial⟩, ⟨⟨?_, ?_, ?_⟩, trivial⟩, ⟨⟨?_, ?_, ?_⟩, trivial⟩, trivial⟩ <;>
    decide

end MotionMaster.NotificationBus
