import Mathlib.Tactic.Ring
import MotionMaster.Lib.Interleaving

/-!
# The WebSocket connection of the client

`connect`, `close` and `handleDisconnect` of `WebSocketConnection`, with the calls that connect
lazily. Every event of a socket and every timer may come at any time the event loop allows. No state
listener is registered, so `setState` only stores the state.

Of the pending reconnect timers the object keeps the handle of the last one only. A call may open a
socket while a timer is pending; if that socket fails before the timer fires, a second timer is set
and `close` does not reach the first.
-/

namespace MotionMaster.WebSocketConnection

open Interleaving

inductive ReadyState where
  | connecting
  | opened
  | closed
  deriving DecidableEq

/-- What `new Impl` comes to: no implementation is there, it throws, or it makes a socket. -/
inductive Attempt where
  | unavailable
  | throws
  | makes
  deriving DecidableEq

structure Options where
  reconnectDelayMs : ℤ := 1000
  maxReconnectDelayMs : ℤ := 15000

/-! ### Sockets and timers -/

/-- The fields that decide about sockets and timers, with the sockets and timers there are. Both are
numbered in the order they are made. -/
structure Link where
  socket : Option ℕ := none
  state : ReadyState := .closed
  closedByUser : Bool := false
  reconnectAttempts : ℕ := 0
  reconnectTimer : Option ℕ := none
  constructed : ℕ := 0
  /-- The sockets whose handlers are set. -/
  attached : List ℕ := []
  scheduled : ℕ := 0
  /-- The timers that have neither fired nor been cleared, each with its delay. -/
  pending : List (ℕ × ℤ) := []
  /-- How many sockets and timers had been made when `close` returned, until a call asks for a
  connection again. -/
  closedAt : Option (ℕ × ℕ) := none

namespace Link

def connect (l : Link) (attempt : Attempt) : Link :=
  if l.socket.isSome ∨ l.state = .connecting then l
  else
    match attempt with
    | .unavailable => l
    | .throws => { l with closedByUser := false, state := .closed }
    | .makes =>
      { l with
        closedByUser := false
        state := .connecting
        socket := some l.constructed
        attached := l.attached ++ [l.constructed]
        constructed := l.constructed + 1 }

/-- The handlers of `this.socket` are cleared, and the socket is forgotten. -/
def detach (l : Link) : Link :=
  { l with attached := l.attached.filter fun i => some i ≠ l.socket, socket := none }

def clearTimeout (l : Link) (timer : ℕ) : Link :=
  { l with pending := l.pending.filter fun t => t.1 ≠ timer }

def close (l : Link) : Link :=
  let l := { l with closedByUser := true }
  let l := match l.reconnectTimer with
    | some timer => { l.clearTimeout timer with reconnectTimer := none }
    | none => l
  { l.detach with state := .closed, closedAt := some (l.constructed, l.scheduled) }

def delay (o : Options) (attempts : ℕ) : ℤ :=
  min (o.reconnectDelayMs * 2 ^ attempts) o.maxReconnectDelayMs

def schedule (o : Options) (l : Link) : Link :=
  { l with
    reconnectAttempts := l.reconnectAttempts + 1
    reconnectTimer := some l.scheduled
    pending := l.pending ++ [(l.scheduled, delay o l.reconnectAttempts)]
    scheduled := l.scheduled + 1 }

def handleDisconnect (o : Options) (l : Link) : Link :=
  let l := { l.detach with state := .closed }
  if l.closedByUser ∨ o.reconnectDelayMs ≤ 0 then l else l.schedule o

/-- The callback of a timer, which is no longer pending then. -/
def fire (l : Link) (timer : ℕ) (attempt : Attempt) : Link :=
  { l.clearTimeout timer with reconnectTimer := none }.connect attempt

def ask (l : Link) (attempt : Attempt) : Link := { l with closedAt := none }.connect attempt

end Link

/-! ### Listeners -/

inductive Frame where
  | subscribe (topic : String)
  | unsubscribe (topic : String)
  deriving DecidableEq

def NOTIFICATION_TOPIC : String := "notifications"

structure State where
  link : Link := {}
  topicListeners : List (String × List ℕ) := []
  notificationListeners : List ℕ := []
  progressListeners : List ℕ := []
  /-- The frames sent, each with the socket it was sent on. -/
  sent : List (ℕ × Frame) := []

/-- `Set.add`. -/
def add (listeners : List ℕ) (listener : ℕ) : List ℕ :=
  if listeners.contains listener then listeners else listeners ++ [listener]

namespace State

/-- `ready` says whether the `readyState` of the socket is that of an open one. -/
def send (s : State) (ready : Bool) (payload : Frame) : State :=
  match s.link.socket with
  | some socket => if ready then { s with sent := s.sent ++ [(socket, payload)] } else s
  | none => s

def connect (s : State) (attempt : Attempt) : State := { s with link := s.link.ask attempt }

def setListeners (s : State) (topic : String) (f : List ℕ → List ℕ) : State :=
  { s with
    topicListeners := s.topicListeners.map fun x => if x.1 = topic then (x.1, f x.2) else x }

def subscribe (s : State) (topic : String) (listener : ℕ) (ready : Bool) (attempt : Attempt) :
    State :=
  let s := match s.topicListeners.lookup topic with
    | some _ => s
    | none =>
      { s with topicListeners := s.topicListeners ++ [(topic, [])] }.send ready (.subscribe topic)
  (s.setListeners topic fun listeners => add listeners listener).connect attempt

/-- The function that `subscribe` returns. -/
def unsubscribe (s : State) (topic : String) (listener : ℕ) (ready : Bool) : State :=
  match s.topicListeners.lookup topic with
  | none => s
  | some current =>
    if current.erase listener = [] then
      { s with topicListeners := s.topicListeners.filter fun x => x.1 ≠ topic }.send ready
        (.unsubscribe topic)
    else s.setListeners topic fun listeners => listeners.erase listener

def onNotification (s : State) (listener : ℕ) (ready : Bool) (attempt : Attempt) : State :=
  let s := if s.notificationListeners = [] then s.send ready (.subscribe NOTIFICATION_TOPIC) else s
  { s with notificationListeners := add s.notificationListeners listener }.connect attempt

/-- The function that `onNotification` returns. -/
def offNotification (s : State) (listener : ℕ) (ready : Bool) : State :=
  let s := { s with notificationListeners := s.notificationListeners.erase listener }
  if s.notificationListeners = [] then s.send ready (.unsubscribe NOTIFICATION_TOPIC) else s

def onProgress (s : State) (listener : ℕ) (attempt : Attempt) : State :=
  { s with progressListeners := add s.progressListeners listener }.connect attempt

/-- The handler `onopen`, which subscribes to every topic that has listeners. -/
def onopen (s : State) (ready : Bool) : State :=
  let s : State := { s with link := { s.link with reconnectAttempts := 0, state := .opened } }
  let s : State := s.topicListeners.foldl (fun s x => s.send ready (.subscribe x.1)) s
  if s.notificationListeners ≠ [] then s.send ready (.subscribe NOTIFICATION_TOPIC) else s

end State

/-! ### Runs -/

inductive Action where
  | connect (attempt : Attempt)
  | close
  | subscribe (topic : String) (listener : ℕ) (ready : Bool) (attempt : Attempt)
  | unsubscribe (topic : String) (listener : ℕ) (ready : Bool)
  | onNotification (listener : ℕ) (ready : Bool) (attempt : Attempt)
  | offNotification (listener : ℕ) (ready : Bool)
  | onProgress (listener : ℕ) (attempt : Attempt)
  | offProgress (listener : ℕ)
  | socketOpened (socket : ℕ) (ready : Bool)
  | socketClosed (socket : ℕ)
  | socketError (socket : ℕ)
  | timer (timer : ℕ) (attempt : Attempt)

/-- A socket has events as soon as it is made, and a pending timer may fire. -/
def Enabled (s : State) : Action → Prop
  | .socketOpened socket _ | .socketClosed socket | .socketError socket =>
    socket < s.link.constructed
  | .timer timer _ => timer ∈ s.link.pending.map (·.1)
  | _ => True

instance (s : State) (a : Action) : Decidable (Enabled s a) := by
  cases a <;> unfold Enabled <;> infer_instance

def next (o : Options) (s : State) : Action → State
  | .connect attempt => s.connect attempt
  | .close => { s with link := s.link.close }
  | .subscribe topic listener ready attempt => s.subscribe topic listener ready attempt
  | .unsubscribe topic listener ready => s.unsubscribe topic listener ready
  | .onNotification listener ready attempt => s.onNotification listener ready attempt
  | .offNotification listener ready => s.offNotification listener ready
  | .onProgress listener attempt => s.onProgress listener attempt
  | .offProgress listener => { s with progressListeners := s.progressListeners.erase listener }
  | .socketOpened socket ready => if socket ∈ s.link.attached then s.onopen ready else s
  | .socketClosed socket | .socketError socket =>
    if socket ∈ s.link.attached then { s with link := s.link.handleDisconnect o } else s
  | .timer timer attempt => { s with link := s.link.fire timer attempt }

abbrev system (o : Options) : System State Action := ⟨{}, Enabled, next o⟩

/-- What `close` promises, and that no socket and no timer is left behind. -/
structure CloseIsFinal (l : Link) : Prop where
  final : ∀ sockets timers, l.closedAt = some (sockets, timers) →
    l.constructed = sockets ∧ l.scheduled = timers
  oneSocket : l.attached.length ≤ 1
  oneTimer : l.pending.length ≤ 1

/-- The attached socket fails only while no reconnect is pending. -/
def FailsUnscheduled (s : State) : Action → Prop
  | .socketClosed socket | .socketError socket => socket ∈ s.link.attached → s.link.pending = []
  | _ => True

instance (s : State) (a : Action) : Decidable (FailsUnscheduled s a) := by
  cases a <;> unfold FailsUnscheduled <;> infer_instance

/-! ### Every call keeps the handles -/

/-- The object has the handle of every socket and every timer, and after `close` there are none. -/
structure Handled (l : Link) : Prop where
  sockets : l.attached = l.socket.toList
  timers : l.pending.map (·.1) = l.reconnectTimer.toList
  closed : ∀ sockets timers, l.closedAt = some (sockets, timers) →
    l.constructed = sockets ∧ l.scheduled = timers ∧ l.socket = none ∧ l.pending = []

namespace Handled

variable {o : Options} {l : Link} {attempt : Attempt}

theorem closeIsFinal (h : Handled l) : CloseIsFinal l where
  final sockets timers hclosed := by
    obtain ⟨hsockets, htimers, -⟩ := h.closed sockets timers hclosed
    exact ⟨hsockets, htimers⟩
  oneSocket := by
    rw [h.sockets]
    cases l.socket <;> simp
  oneTimer := by
    rw [← List.length_map (·.1), h.timers]
    cases l.reconnectTimer <;> simp

theorem connect (h : Handled l) (hopen : l.closedAt = none) : Handled (l.connect attempt) := by
  unfold Link.connect
  split
  · exact h
  · next hidle =>
    rw [not_or, Option.not_isSome_iff_eq_none] at hidle
    cases attempt with
    | unavailable => exact h
    | throws => exact ⟨h.sockets, h.timers, h.closed⟩
    | makes =>
      refine ⟨?_, h.timers, ?_⟩
      · simp only [h.sockets, hidle.1]
        rfl
      · intro sockets timers hclosed
        exact absurd (hopen.symm.trans hclosed) (Option.some_ne_none _).symm

theorem ask (h : Handled l) : Handled (l.ask attempt) := by
  refine connect ⟨h.sockets, h.timers, ?_⟩ rfl
  intro sockets timers hclosed
  exact absurd hclosed.symm (Option.some_ne_none _)

theorem attached_detach (h : Handled l) : l.detach.attached = [] := by
  simp only [Link.detach, h.sockets]
  cases l.socket <;> simp

theorem close (h : Handled l) : Handled l.close := by
  have hdetach := h.attached_detach
  have htimers := h.timers
  unfold Link.close
  cases htimer : l.reconnectTimer with
  | none =>
    rw [htimer] at htimers
    refine ⟨hdetach, htimers, ?_⟩
    rintro sockets timers ⟨⟩
    exact ⟨rfl, rfl, rfl, List.map_eq_nil_iff.mp htimers⟩
  | some timer =>
    rw [htimer] at htimers
    have hnone : (l.clearTimeout timer).pending = [] := by
      refine List.filter_eq_nil_iff.mpr ?_
      intro t ht
      have hmem : t.1 ∈ l.pending.map (·.1) := List.mem_map_of_mem ht
      rw [htimers] at hmem
      simpa using hmem
    refine ⟨hdetach, congrArg (List.map (·.1)) hnone, ?_⟩
    rintro sockets timers ⟨⟩
    exact ⟨rfl, rfl, rfl, hnone⟩

/-- With no timer pending, the one that is set is the only one. -/
theorem handleDisconnect (h : Handled l) (hsome : l.socket ≠ none) (hnone : l.pending = []) :
    Handled (l.handleDisconnect o) := by
  have hopen : ∀ sockets timers, l.closedAt ≠ some (sockets, timers) :=
    fun sockets timers hclosed => hsome (h.closed sockets timers hclosed).2.2.1
  unfold Link.handleDisconnect
  dsimp only
  split
  · exact ⟨h.attached_detach, h.timers, fun sockets timers hclosed => absurd hclosed (hopen _ _)⟩
  · refine ⟨h.attached_detach, ?_, fun sockets timers hclosed => absurd hclosed (hopen _ _)⟩
    simp only [Link.schedule, Link.detach, hnone]
    rfl

/-- The timer that fires is the one whose handle is kept, so none is left and nothing is closed. -/
theorem fire (h : Handled l) {timer : ℕ} (hmem : timer ∈ l.pending.map (·.1)) :
    Handled (l.fire timer attempt) := by
  have hopen : l.closedAt = none := by
    cases hclosed : l.closedAt with
    | none => rfl
    | some counts =>
      rw [(h.closed counts.1 counts.2 hclosed).2.2.2] at hmem
      exact absurd hmem List.not_mem_nil
  have hlast : l.reconnectTimer = some timer := by
    rw [h.timers] at hmem
    exact Option.mem_toList.mp hmem
  refine connect ⟨h.sockets, ?_, ?_⟩ hopen
  · refine List.map_eq_nil_iff.mpr (List.filter_eq_nil_iff.mpr ?_)
    intro t ht
    have hin : t.1 ∈ l.pending.map (·.1) := List.mem_map_of_mem ht
    rw [h.timers, hlast] at hin
    simpa using hin
  · intro sockets timers hclosed
    exact absurd (hopen.symm.trans hclosed) (Option.some_ne_none _).symm

end Handled

/-! ### Frames leave the link alone -/

section Frames

variable (s : State) (ready : Bool)

@[simp] theorem link_send (payload : Frame) : (s.send ready payload).link = s.link := by
  unfold State.send
  split
  · split <;> rfl
  · rfl

theorem link_sendAll (topics : List (String × List ℕ)) :
    (topics.foldl (fun s x => s.send ready (.subscribe x.1)) s).link = s.link := by
  induction topics generalizing s with
  | nil => rfl
  | cons x topics ih => rw [List.foldl_cons, ih, link_send]

theorem link_subscribe (topic : String) (listener : ℕ) (attempt : Attempt) :
    (s.subscribe topic listener ready attempt).link = s.link.ask attempt := by
  unfold State.subscribe
  split <;> simp [State.connect, State.setListeners]

theorem link_unsubscribe (topic : String) (listener : ℕ) :
    (s.unsubscribe topic listener ready).link = s.link := by
  unfold State.unsubscribe
  split
  · rfl
  · split <;> simp [State.setListeners]

theorem link_onNotification (listener : ℕ) (attempt : Attempt) :
    (s.onNotification listener ready attempt).link = s.link.ask attempt := by
  unfold State.onNotification
  split <;> simp [State.connect]

theorem link_offNotification (listener : ℕ) :
    (s.offNotification listener ready).link = s.link := by
  unfold State.offNotification
  dsimp only
  split <;> simp

theorem link_onopen :
    (s.onopen ready).link = { s.link with reconnectAttempts := 0, state := .opened } := by
  unfold State.onopen
  dsimp only
  split <;> simp [link_sendAll]

end Frames

/-! ### Every run -/

theorem handled_failed {o : Options} {s : State} {socket : ℕ} (h : Handled s.link)
    (hc : socket ∈ s.link.attached → s.link.pending = []) :
    Handled (if socket ∈ s.link.attached then { s with link := s.link.handleDisconnect o }
      else s).link := by
  split
  · next hin =>
    refine h.handleDisconnect ?_ (hc hin)
    rw [h.sockets] at hin
    rw [Option.mem_toList.mp hin]
    exact Option.some_ne_none _
  · exact h

theorem handled_next {o : Options} {s : State} {a : Action} (h : Handled s.link)
    (he : Enabled s a) (hc : FailsUnscheduled s a) : Handled (next o s a).link := by
  cases a with
  | connect attempt => exact h.ask
  | close => exact h.close
  | subscribe topic listener ready attempt =>
    rw [next, link_subscribe]
    exact h.ask
  | unsubscribe topic listener ready =>
    rw [next, link_unsubscribe]
    exact h
  | onNotification listener ready attempt =>
    rw [next, link_onNotification]
    exact h.ask
  | offNotification listener ready =>
    rw [next, link_offNotification]
    exact h
  | onProgress listener attempt => exact h.ask
  | offProgress listener => exact h
  | socketOpened socket ready =>
    simp only [next]
    split
    · rw [link_onopen]
      exact ⟨h.sockets, h.timers, h.closed⟩
    · exact h
  | socketClosed socket => exact handled_failed h hc
  | socketError socket => exact handled_failed h hc
  | timer timer attempt => exact h.fire he

/-- `close` is final in every run in which the attached socket fails only while no reconnect is
pending. -/
theorem closeIsFinal_of_failsUnscheduled {o : Options} {s : State}
    (h : (system o).ReachableUnder FailsUnscheduled s) : CloseIsFinal s.link := by
  have hhandled : Handled s.link := by
    refine h.invariant (I := fun s => Handled s.link) ⟨rfl, rfl, ?_⟩ fun _ _ hs he hc =>
      handled_next hs he hc
    rintro sockets timers ⟨⟩
  exact hhandled.closeIsFinal

/-- A socket fails, the reconnect opens another one, and `close` comes while it is open. -/
def failedOnce : List Action :=
  [.connect .makes, .socketError 0, .timer 0 .makes, .socketOpened 1 true, .close]

theorem failedOnce_closeIsFinal :
    ((system {}).run (system {}).initial failedOnce).link.closedAt = some (2, 1) ∧
      CloseIsFinal ((system {}).run (system {}).initial failedOnce).link := by
  have hf : (system {}).Follows FailsUnscheduled (system {}).initial failedOnce := by
    decide +kernel
  exact ⟨by decide +kernel, closeIsFinal_of_failsUnscheduled ⟨_, hf, rfl⟩⟩

/-- A call opens a socket while a reconnect is pending, and that socket fails as well. After `close`
the first timer fires. -/
def failedTwice : List Action :=
  [.connect .makes, .socketError 0, .connect .makes, .socketError 1, .close, .timer 0 .makes]

theorem failedTwice_not_closeIsFinal :
    ∃ s, (system {}).Reachable s ∧ ¬ CloseIsFinal s.link := by
  have hf : (system {}).Follows (fun _ _ => True) (system {}).initial failedTwice := by
    decide +kernel
  refine ⟨_, ⟨_, hf, rfl⟩, ?_⟩
  intro h
  have hmade : ((system {}).run (system {}).initial failedTwice).link.closedAt = some (2, 2) ∧
      ((system {}).run (system {}).initial failedTwice).link.constructed = 3 := by
    decide +kernel
  exact absurd ((h.final 2 2 hmade.1).1.symm.trans hmade.2) (by decide)

end MotionMaster.WebSocketConnection
