import MotionMaster.OsCommand.Channel

/-!
# Whose response a call returns

A call drains the channel, sets the mode and writes its command, in three accesses. A command from
before that ends between the first and the last leaves a response that makes the drive ignore the
write, and that the call then takes for its own.
-/

namespace MotionMaster.OsCommand

open Interleaving

/-- No response is unread when the command is written. -/
def NoneUnread (s : State) : Action → Prop
  | .write _ _ => s.channel.unread = false
  | _ => True

instance (s : State) (a : Action) : Decidable (NoneUnread s a) :=
  match a with
  | .write _ _ => inferInstanceAs (Decidable (s.channel.unread = false))
  | .finish _ | .enter | .drain _ _ | .reset _ | .pending _ _ | .transfer _ | .poll _ _ _ _
  | .abort _ | .fetch _ | .restore _ => isTrue trivial

/-- The response is the one the command of this call ended with. -/
def Delivered (s : State) (r : OsCommandResponse) : Prop :=
  ∃ response, s.answer = some (.call, response) ∧
    { r with fsBuffer := [] } = decodeResponse response

/-- On an exit after an abort was attempted the mode has been written, and is back if that write
succeeded. -/
def ModeRestored (s : State) : Prop :=
  ∀ result, s.call = .returned result → s.armed = true →
    ∃ reply, s.restored = some reply ∧ (reply = .ok → s.channel.mode = kModeExecuteImmediately)

/-- What the call promises when it has returned. -/
structure Attributed (s : State) : Prop where
  response : ∀ r, s.call = .returned (.ok r) → Delivered s r
  mode : ModeRestored s

/-- The command of this call executes, or has ended. -/
def Work.Mine : Work → Prop
  | .executing .call => True
  | .finished .call response => status response ≤ 3
  | _ => False

def SoundAt (s : State) : Call → Prop
  | .entering | .draining | .resetting | .refused _ => True
  | .writing => s.channel.mode = kModeExecuteImmediately
  | .transferring | .polling _ _ | .aborting _ _ => s.channel.work.Mine
  | .fetching r | .leaving (.ok r) | .returned (.ok r) => Delivered s r
  | .leaving (.error _) | .returned (.error _) => True

def Sound (s : State) : Prop := SoundAt s s.call

variable {p : Request} {s : State} {a : Action} {reply : Reply} {shown response : Bytes}

theorem decodeResponse_fsBuffer (response : Bytes) : (decodeResponse response).fsBuffer = [] := by
  unfold decodeResponse
  split_ifs <;> rfl

theorem delivered_decode (h : s.answer = some (.call, response)) :
    Delivered s (decodeResponse response) := by
  refine ⟨response, h, ?_⟩
  have hbuffer := decodeResponse_fsBuffer response
  cases hd : decodeResponse response
  rw [hd] at hbuffer
  cases hbuffer
  rfl

theorem sound_leave_error (s : State) (error : String) : Sound (s.leave (.error error)) := by
  unfold Sound State.leave
  cases s.armed <;> trivial

theorem sound_leave_ok {r : OsCommandResponse} (h : Delivered s r) :
    Sound (s.leave (.ok r)) := by
  unfold Sound State.leave
  cases s.armed <;> exact h

theorem mine_finish (h : s.channel.work.Mine) (hr : status response ≤ 3) :
    (s.channel.finish response).work.Mine := by
  unfold Channel.finish
  split
  · rename_i origin hw
    rw [hw] at h
    cases origin with
    | call => exact hr
    | earlier => exact h.elim
  · exact h
  · exact h

theorem finish_mode (c : Channel) (response : Bytes) : (c.finish response).mode = c.mode := by
  unfold Channel.finish
  split <;> rfl

theorem sound_finish (h : Sound s) (hr : status response ≤ 3) :
    Sound { s with channel := s.channel.finish response } := by
  cases hc : s.call with
  | entering | draining | resetting | refused => trivial
  | writing => exact (finish_mode _ _).trans (hc ▸ h : SoundAt s .writing)
  | transferring => exact mine_finish (hc ▸ h : SoundAt s .transferring) hr
  | polling e r => exact mine_finish (hc ▸ h : SoundAt s (.polling e r)) hr
  | aborting e r => exact mine_finish (hc ▸ h : SoundAt s (.aborting e r)) hr
  | fetching r => exact (hc ▸ h : SoundAt s (.fetching r))
  | leaving result =>
    cases result with
    | ok r => exact (hc ▸ h : SoundAt s (.leaving (.ok r)))
    | error => trivial
  | returned result =>
    cases result with
    | ok r => exact (hc ▸ h : SoundAt s (.returned (.ok r)))
    | error => trivial

/-- A command that is neither refused nor ignored is the one that executes. -/
theorem mine_start (hm : s.channel.mode = 0) (hr : s.channel.refuses = false)
    (hu : s.channel.unread = false) : s.channel.start.work.Mine := by
  have hidle : s.channel.work = .idle := by
    unfold Channel.refuses at hr
    unfold Channel.unread at hu
    cases hw : s.channel.work with
    | idle => rfl
    | executing => simp [hw] at hr
    | finished => simp [hw] at hu
  simp [Channel.start, hm, hidle, Work.Mine]

/-! ### The loop -/

theorem inProgress_not_terminal (h : InProgress shown) : ¬ status shown ≤ 3 := by
  intro hle
  rcases h.2 with he | ⟨hmin, -⟩
  · rw [he] at hle
    exact absurd hle (by decide)
  · exact absurd (BitVec.le_trans hmin hle) (by decide)

section Loop

variable {fsBufferError abortReason : Option String} {stopRequested expired : Bool}

/-- The response of this call ends the loop, and one of a command in progress does not. -/
theorem sound_examine (hcall : s.call = .polling fsBufferError abortReason)
    (h : status response ≤ 3 ∧ s.answer = some (.call, response) ∨
      ¬ status response ≤ 3 ∧ s.channel.work.Mine) :
    Sound (s.examine p response fsBufferError abortReason stopRequested expired) := by
  unfold State.examine
  rcases h with ⟨hterminal, hanswer⟩ | ⟨hterminal, hmine⟩
  · rw [if_pos hterminal]
    cases abortReason with
    | some reason => exact sound_leave_error s _
    | none =>
      have hdelivered := delivered_decode hanswer
      dsimp only
      split
      · exact sound_leave_error s _
      · split_ifs
        · exact hdelivered
        · exact sound_leave_ok hdelivered
  · have hsame : Sound s := by
      unfold Sound
      rw [hcall]
      exact hmine
    rw [if_neg hterminal]
    split
    · exact sound_leave_error s _
    · cases abortReason with
      | none =>
        dsimp only
        split_ifs
        · exact hmine
        · exact hmine
        · exact hsame
      | some reason =>
        dsimp only
        split_ifs
        · exact sound_leave_error s _
        · exact hsame

theorem sound_poll (hcall : s.call = .polling fsBufferError abortReason)
    (hmine : s.channel.work.Mine) (hshown : s.channel.refuses = true → InProgress shown) :
    Sound (s.poll p fsBufferError abortReason reply shown stopRequested expired) := by
  unfold State.poll
  cases reply with
  | failed landed error => exact sound_leave_error _ _
  | ok =>
    dsimp only
    split_ifs
    · exact sound_leave_error _ _
    · refine sound_examine hcall ?_
      cases hw : s.channel.work with
      | idle =>
        rw [hw] at hmine
        exact hmine.elim
      | executing origin =>
        have hprogress := hshown (by simp [Channel.refuses, hw])
        simp only [Channel.read, hw]
        exact Or.inr ⟨inProgress_not_terminal hprogress, hw ▸ hmine⟩
      | finished origin r =>
        rw [hw] at hmine
        simp only [Channel.read, hw]
        cases origin with
        | earlier => exact hmine.elim
        | call => exact Or.inl ⟨hmine, rfl⟩

end Loop

/-! ### Every step -/

theorem sound_next (hs : Sound s) (he : Enabled s a) (hC : NoneUnread s a) :
    Sound (next p s a) := by
  unfold next
  split
  · exact sound_finish hs he.2.2
  · split_ifs
    · exact sound_leave_error s _
    · trivial
  · trivial
  · rename_i reply _
    cases reply with
    | ok => exact rfl
    | failed landed error => exact sound_leave_error _ _
  · rename_i reply refusal hcall
    have hmode : SoundAt s .writing := hcall ▸ hs
    split
    · trivial
    · rename_i hrefuses
      cases reply with
      | failed landed error => trivial
      | ok =>
        have hmine := mine_start hmode (Bool.eq_false_iff.mpr hrefuses) hC
        by_cases ht : p.transfer = .kWrite
        · simp only [if_pos ht]
          exact hmine
        · simp only [if_neg ht]
          exact hmine
  · exact sound_leave_error _ _
  · rename_i hcall
    exact (hcall ▸ hs : SoundAt s .transferring)
  · rename_i fsBufferError abortReason hcall
    have hmine : SoundAt s (.polling fsBufferError abortReason) := hcall ▸ hs
    exact sound_poll hcall hmine he
  · rename_i reply fsBufferError reason hcall
    have hmine : SoundAt s (.aborting fsBufferError reason) := hcall ▸ hs
    cases reply with
    | ok => exact hmine
    | failed landed error => exact sound_leave_error _ _
  · rename_i bytes decoded hcall
    have hdelivered : SoundAt s (.fetching decoded) := hcall ▸ hs
    exact sound_leave_ok hdelivered
  · exact sound_leave_error s _
  · rename_i reply result hcall
    have hleaving : SoundAt s (.leaving result) := hcall ▸ hs
    cases result with
    | error => trivial
    | ok r =>
      obtain ⟨response, hanswer, hr⟩ := hleaving
      refine ⟨response, ?_, hr⟩
      unfold State.setMode
      split_ifs <;> exact hanswer
  · exact hs

theorem modeRestored_leave (s : State) (result : Result) : ModeRestored (s.leave result) := by
  intro r hcall harmed
  have hs : s.armed = true := harmed
  simp [State.leave, hs] at hcall

theorem modeRestored_of_running (h : ∀ result, s.call ≠ .returned result) : ModeRestored s :=
  fun result hcall => (h result hcall).elim

theorem modeRestored_examine {fsBufferError abortReason : Option String}
    {stopRequested expired : Bool} (hs : ModeRestored s) :
    ModeRestored (s.examine p response fsBufferError abortReason stopRequested expired) := by
  unfold State.examine
  dsimp only
  repeat' split
  all_goals first
    | exact hs
    | exact modeRestored_leave s _
    | exact modeRestored_of_running nofun

theorem modeRestored_next (hs : ModeRestored s) (a : Action) : ModeRestored (next p s a) := by
  unfold next
  split
  · intro result hcall harmed
    obtain ⟨reply, hr, hmode⟩ := hs result hcall harmed
    exact ⟨reply, hr, fun hok => (finish_mode _ _).trans (hmode hok)⟩
  · split_ifs
    · exact modeRestored_leave s _
    · exact modeRestored_of_running nofun
  · exact modeRestored_of_running nofun
  · rename_i reply _
    cases reply with
    | ok => exact modeRestored_of_running nofun
    | failed landed error => exact modeRestored_leave _ _
  · rename_i reply refusal _
    split
    · exact modeRestored_of_running nofun
    · cases reply with
      | failed landed error => exact modeRestored_of_running nofun
      | ok =>
        split_ifs <;> exact nofun
  · exact modeRestored_leave _ _
  · exact modeRestored_of_running nofun
  · rename_i reply shown _ _ _ _ hcall
    unfold State.poll
    cases reply with
    | failed landed error => exact modeRestored_leave _ _
    | ok =>
      dsimp only
      split_ifs
      · exact modeRestored_leave _ _
      · refine modeRestored_examine (modeRestored_of_running fun result hreturned => ?_)
        have hcall' : s.call = .returned result := hreturned
        rw [hcall] at hcall'
        cases hcall'
  · rename_i reply _ _ _
    cases reply with
    | ok => exact modeRestored_of_running nofun
    | failed landed error => exact modeRestored_leave _ _
  · exact modeRestored_leave s _
  · exact modeRestored_leave s _
  · rename_i reply result _
    intro _ _ _
    refine ⟨reply, rfl, ?_⟩
    rintro rfl
    rfl
  · exact hs

variable {mode : BitVec 8} {earlier : Earlier}

theorem sound_reachable (h : (system p mode earlier).ReachableUnder NoneUnread s) : Sound s :=
  h.invariant trivial fun _ _ hs he hC => sound_next hs he hC

/-- Every exit after an attempted abort restores the mode, in every run. -/
theorem modeRestored_reachable {C : State → Action → Prop}
    (h : (system p mode earlier).ReachableUnder C s) : ModeRestored s :=
  h.invariant (modeRestored_of_running nofun) fun _ a hs _ _ => modeRestored_next hs a

/-- A call whose command finds no unread response returns its own. -/
theorem attributed_of_noneUnread (p : Request) (mode : BitVec 8) (earlier : Earlier) (s : State)
    (h : (system p mode earlier).ReachableUnder NoneUnread s) : Attributed s := by
  refine ⟨fun r hcall => ?_, modeRestored_reachable h⟩
  have hsound := sound_reachable h
  unfold Sound at hsound
  rw [hcall] at hsound
  exact hsound

def readCommand : Request := ⟨[7, 0, 0, 0, 0, 0, 0, 0], 1000, 10000, .kNone⟩

/-- The response of an earlier command is drained, and the mode it left put right. -/
def drained : System State Action := system readCommand 3 (.unread [0, 0, 0, 0, 0, 0, 0, 0])

def drainedThenRun : List Action :=
  [.enter, .drain .ok [], .reset .ok, .write .ok "",
    .poll .ok [255, 0, 0, 0, 0, 0, 0, 0] false false, .finish [1, 0, 5, 0, 0, 0, 0, 0],
    .poll .ok [] false false]

theorem drainedThenRun_attributed :
    (drained.run drained.initial drainedThenRun).call =
      .returned (.ok ⟨.kCompletedWithData, [5, 0, 0, 0, 0, 0], none, []⟩) ∧
    Attributed (drained.run drained.initial drainedThenRun) := by
  have hfollows : drained.Follows NoneUnread drained.initial drainedThenRun := by
    unfold drained
    decide +kernel
  exact ⟨rfl, attributed_of_noneUnread _ _ _ _ ⟨_, hfollows, rfl⟩⟩

/-- The earlier command ends after the drain: the write is ignored and its response returned. -/
def endsAfterDrain : List Action :=
  [.enter, .drain .ok [255, 0, 0, 0, 0, 0, 0, 0], .finish [0, 0, 0, 0, 0, 0, 0, 0], .reset .ok,
    .write .ok "", .poll .ok [] false false]

theorem endsAfterDrain_not_attributed :
    ∃ s, (system readCommand 0 .executing).Reachable s ∧ ¬ Attributed s := by
  refine ⟨_, ⟨endsAfterDrain, by decide +kernel, rfl⟩, fun h => ?_⟩
  obtain ⟨response, hanswer, -⟩ := h.response ⟨.kCompleted, [], none, []⟩ rfl
  cases hanswer

end MotionMaster.OsCommand
