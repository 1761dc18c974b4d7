import Mathlib.Data.List.Forall2
import MotionMaster.Lib.Arena
import MotionMaster.Lib.Interleaving
import MotionMaster.Spoe.Frame

/-!
# Requests and replies over one connection

`SpoeConnection` and the drive at the other end. The drive answers the requests that reached it in
whatever order and however often, sends what answers no request, and the bytes arrive in pieces. A
request that times out leaves what has arrived for the next one, so the reply it waited for may turn
up later.
-/

namespace MotionMaster.Spoe.SpoeConnection

open Interleaving Deframe

inductive Kind where
  | kTimeout
  | kClosed
  | kInvalidRequest
  deriving DecidableEq

structure ConnectionError where
  kind : Kind
  message : String

structure Request where
  type : MessageType
  sequenceId : BitVec 16
  timeout : ℕ
  deriving DecidableEq

/-- Where the holder of the mutex is in `request`. -/
inductive Phase where
  | idle
  | writing (n : ℕ) (request : Request)
  | taking (n : ℕ) (request : Request)
  | reading (n : ℕ) (request : Request)
  deriving DecidableEq

/-- A frame the drive sent, with the number of the request it answers, if it answers one. -/
structure Reply where
  answers : Option ℕ
  frame : Frame

/-- A frame `takeFrame` yielded to a request. -/
structure Taken where
  taker : ℕ
  frame : Frame
  returned : Bool

/-- `wire` are the bytes on their way from the drive. Of what happened, `requests` has the requests
that got a sequence id, numbered from zero, `transmitted` the numbers of those the drive may have
received, `sent` what the drive sent less what a close threw away, `taken` what `takeFrame` yielded
and `results` what `request` returned. -/
structure State where
  opened : Bool
  peer : String
  discarded : ℕ
  nextSequenceId : BitVec 16
  received : List (BitVec 8)
  phase : Phase
  wire : List (BitVec 8)
  requests : List Request
  transmitted : List ℕ
  sent : List Reply
  taken : List Taken
  results : List (ℕ × Except ConnectionError Frame)

inductive Action where
  | connect (peer : String)
  | connectFailed (peer : String)
  | close
  | request (type : MessageType) (status : BitVec 16) (data : List (BitVec 8)) (timeout : ℕ)
  | wrote
  | writeFailed (message : String)
  /-- The drive answers the request of this number. -/
  | reply (k : ℕ) (status : BitVec 16) (data : List (BitVec 8))
  /-- The drive sends a frame of any type and sequence id that answers no request. -/
  | stray (frame : Frame)
  | take
  | receive (bytes : ℕ)
  | readTimedOut
  | readFailed (message : String)

/-- The size of the chunk one read fills. -/
def kChunkSize : ℕ := 1024

def hexDigit (n : ℕ) : Char := if n < 10 then Char.ofNat (48 + n) else Char.ofNat (55 + n)

/-- Two upper case digits. -/
def hex (b : BitVec 8) : String := String.ofList [hexDigit (b.toNat / 16), hexDigit (b.toNat % 16)]

namespace State

def initial : State := ⟨false, "", 0, 1, [], .idle, [], [], [], [], [], []⟩

/-- What the drive sent and `takeFrame` did not yield is gone with the socket. -/
def closeLocked (s : State) : State :=
  { s with received := [], opened := false, wire := [], sent := s.sent.take s.taken.length }

def finish (s : State) (n : ℕ) (result : Except ConnectionError Frame) : State :=
  { s with phase := .idle, results := s.results ++ [(n, result)] }

def error (s : State) (kind : Kind) (message : String) : Except ConnectionError Frame :=
  .error ⟨kind, "SPoE " ++ s.peer ++ ": " ++ message⟩

def closedError (s : State) (n : ℕ) (message : String) : State :=
  s.closeLocked.finish n (s.error .kClosed message)

def request (s : State) (type : MessageType) (status : BitVec 16) (data : List (BitVec 8))
    (timeout : ℕ) : State :=
  if s.opened = false then s.finish s.requests.length (s.error .kClosed "not connected")
  else
    let request : Request := ⟨type, s.nextSequenceId, timeout⟩
    let numbered := { s with
      nextSequenceId := s.nextSequenceId + 1
      requests := s.requests ++ [request] }
    match encodeFrame ⟨type.code, s.nextSequenceId, status, data⟩ with
    | .error message => numbered.finish s.requests.length (s.error .kInvalidRequest message)
    | .ok _ =>
      { numbered with
        phase := .writing s.requests.length request
        transmitted := s.transmitted ++ [s.requests.length] }

def Matches (request : Request) (frame : Frame) : Prop :=
  frame.sequenceId = request.sequenceId ∧ frame.type = request.type.code
  deriving Decidable

/-- One turn of the loop of `request`, up to the read. -/
def take (s : State) (n : ℕ) (request : Request) : State :=
  match takeFrame s.received with
  | .error message => s.closedError n message
  | .ok none => { s with phase := .reading n request }
  | .ok (some (frame, rest)) =>
    if Matches request frame then
      State.finish { s with
        received := rest
        taken := s.taken ++ [⟨n, frame, true⟩] } n (.ok frame)
    else
      { s with
        received := rest
        taken := s.taken ++ [⟨n, frame, false⟩]
        discarded := s.discarded + 1 }

def send (s : State) (answers : Option ℕ) (frame : Frame) : State :=
  { s with wire := s.wire ++ frame.bytes, sent := s.sent ++ [⟨answers, frame⟩] }

end State

/-- A read ends with bytes, with an error, or at the deadline with neither. -/
def Enabled (s : State) : Action → Prop
  | .connect _ | .connectFailed _ | .close | .request .. => s.phase = .idle
  | .wrote | .writeFailed _ => ∃ n request, s.phase = .writing n request
  | .reply k _ data => s.opened = true ∧ k ∈ s.transmitted ∧ data.length ≤ kMaxDataSize
  | .stray frame => s.opened = true ∧ frame.Fits
  | .take => ∃ n request, s.phase = .taking n request
  | .receive bytes => (∃ n request, s.phase = .reading n request) ∧
      0 < bytes ∧ bytes ≤ kChunkSize ∧ bytes ≤ s.wire.length
  | .readTimedOut | .readFailed _ => ∃ n request, s.phase = .reading n request

instance (phase : Phase) : Decidable (∃ n request, phase = .writing n request) := by
  cases phase <;> first | exact isTrue ⟨_, _, rfl⟩ | exact isFalse (by simp)

instance (phase : Phase) : Decidable (∃ n request, phase = .taking n request) := by
  cases phase <;> first | exact isTrue ⟨_, _, rfl⟩ | exact isFalse (by simp)

instance (phase : Phase) : Decidable (∃ n request, phase = .reading n request) := by
  cases phase <;> first | exact isTrue ⟨_, _, rfl⟩ | exact isFalse (by simp)

instance (s : State) (a : Action) : Decidable (Enabled s a) := by
  cases a <;> unfold Enabled <;> infer_instance

def next (s : State) : Action → State
  | .connect peer => { s.closeLocked with peer := peer, opened := true }
  | .connectFailed peer => { s.closeLocked with peer := peer }
  | .close => s.closeLocked
  | .request type status data timeout => s.request type status data timeout
  | .wrote =>
    match s.phase with
    | .writing n request => { s with phase := .taking n request }
    | _ => s
  | .writeFailed message =>
    match s.phase with
    | .writing n _ => s.closedError n message
    | _ => s
  | .reply k status data =>
    -- A reply has the type and the sequence id of the request.
    match s.requests[k]? with
    | some request => s.send (some k) ⟨request.type.code, request.sequenceId, status, data⟩
    | none => s
  | .stray frame => s.send none frame
  | .take =>
    match s.phase with
    | .taking n request => s.take n request
    | _ => s
  | .receive bytes =>
    match s.phase with
    | .reading n request =>
      { s with
        received := s.received ++ s.wire.take bytes
        wire := s.wire.drop bytes
        phase := .taking n request }
    | _ => s
  | .readTimedOut =>
    match s.phase with
    | .reading n request =>
      s.finish n (s.error .kTimeout ("no reply to message type 0x" ++ hex request.type.code ++
        " within " ++ toString request.timeout ++ " ms"))
    | _ => s
  | .readFailed message =>
    match s.phase with
    | .reading n _ => s.closedError n message
    | _ => s

abbrev system : System State Action := ⟨.initial, Enabled, next⟩

def Phase.waiting : Phase → Option (ℕ × Request)
  | .idle => none
  | .writing n request | .taking n request | .reading n request => some (n, request)

/-- Fewer requests than there are sequence ids lie between the request a reply answers and request
`n`, which takes it up, and a frame that answers no request differs from that one in its type or its
sequence id. -/
def Reply.TimelyFor (reply : Reply) (n : ℕ) (request : Request) : Prop :=
  match reply.answers with
  | some k => n < k + 65536
  | none => ¬ (reply.frame.type = request.type.code ∧
      reply.frame.sequenceId = request.sequenceId)

instance (reply : Reply) (n : ℕ) (request : Request) : Decidable (reply.TimelyFor n request) := by
  unfold Reply.TimelyFor
  cases reply.answers <;> infer_instance

def Timely (s : State) : Action → Prop
  | .take =>
    match s.phase, s.sent[s.taken.length]? with
    | .taking n request, some reply =>
      reply.frame.bytes.length ≤ s.received.length → reply.TimelyFor n request
    | _, _ => True
  | _ => True

instance (s : State) (a : Action) : Decidable (Timely s a) := by
  cases a <;> unfold Timely <;> try infer_instance
  dsimp only
  split <;> infer_instance

/-- A frame is returned for the request it answers, and for no other. -/
def Serves (taken : Taken) (reply : Reply) : Prop :=
  taken.frame = reply.frame ∧ (taken.returned = true ↔ reply.answers = some taken.taker)

def returnedFrame : ℕ × Except ConnectionError Frame → Option (ℕ × Frame)
  | (n, .ok frame) => some (n, frame)
  | (_, .error _) => none

/-- What was taken are the first replies sent, and the bytes received and those on the wire are the
others. `takeFrame` finds the next one as soon as it is there in full. -/
structure Delivers (s : State) : Prop where
  framed : ∃ done pending, s.sent = done ++ pending ∧ List.Forall₂ Serves s.taken done ∧
    s.received ++ s.wire = (pending.map Reply.frame).flatMap Frame.bytes ∧
    ∃ found, takeFrame s.received = .ok found ∧
      Finds Frame.bytes s.received s.wire (pending.map Reply.frame) found
  counted : s.discarded = s.taken.countP fun t => !t.returned
  returned : s.results.filterMap returnedFrame =
    (s.taken.filter Taken.returned).map fun t => (t.taker, t.frame)

variable {s : State} {a : Action} {n : ℕ} {request : Request}

/-! ### The numbers of the requests -/

/-- A request in progress is the last one that got a sequence id. -/
structure Numbered (s : State) : Prop where
  nextId : s.nextSequenceId = BitVec.ofNat 16 (s.requests.length + 1)
  ids : ∀ k request, s.requests[k]? = some request →
    request.sequenceId = BitVec.ofNat 16 (k + 1)
  waiting : ∀ n request, s.phase.waiting = some (n, request) →
    s.requests[n]? = some request ∧ s.requests.length = n + 1
  answers : ∀ reply ∈ s.sent, reply.frame.Fits ∧ ∀ k, reply.answers = some k →
    ∃ request, s.requests[k]? = some request ∧ State.Matches request reply.frame

theorem numbered_initial : Numbered .initial where
  nextId := rfl
  ids _ _ h := by cases h
  waiting _ _ h := by cases h
  answers _ h := by cases h

/-- Only the phase and what was sent matter, and neither gains anything. -/
theorem Numbered.of_eq {t : State} (h : Numbered s) (hi : t.nextSequenceId = s.nextSequenceId)
    (hr : t.requests = s.requests) (hs : ∀ reply ∈ t.sent, reply ∈ s.sent)
    (hp : ∀ n request, t.phase.waiting = some (n, request) →
      s.phase.waiting = some (n, request)) : Numbered t where
  nextId := by rw [hi, hr, h.nextId]
  ids k request hk := h.ids k request (hr ▸ hk)
  waiting n request hw := by
    rw [hr]
    exact h.waiting n request (hp n request hw)
  answers reply hreply := by
    rw [hr]
    exact h.answers reply (hs reply hreply)

theorem Numbered.closed (h : Numbered s) : Numbered s.closeLocked :=
  h.of_eq rfl rfl (fun _ hr => List.mem_of_mem_take hr) fun _ _ hw => hw

theorem Numbered.finished (h : Numbered s) (n : ℕ) (result : Except ConnectionError Frame) :
    Numbered (s.finish n result) :=
  h.of_eq rfl rfl (fun _ hr => hr) fun _ _ hw => by cases hw

theorem Numbered.closedError (h : Numbered s) (n : ℕ) (message : String) :
    Numbered (s.closedError n message) :=
  h.of_eq rfl rfl (fun _ hr => List.mem_of_mem_take hr) fun _ _ hw => by cases hw

theorem numbered_numbering (h : Numbered s) (request : Request)
    (hr : request.sequenceId = s.nextSequenceId) :
    Numbered { s with
      nextSequenceId := s.nextSequenceId + 1
      requests := s.requests ++ [request]
      phase := .writing s.requests.length request } where
  nextId := by
    rw [List.length_append, List.length_singleton, BitVec.ofNat_add (_ + 1) 1, ← h.nextId]
    rfl
  ids k other hk := by
    rcases Arena.getElem?_concat_cases hk with hk | ⟨rfl, rfl⟩
    · exact h.ids k other hk
    · rw [hr, h.nextId]
  waiting n other hw := by
    cases hw
    exact ⟨List.getElem?_concat_length, by simp⟩
  answers reply hreply := by
    obtain ⟨hf, ha⟩ := h.answers reply hreply
    refine ⟨hf, fun k hk => ?_⟩
    obtain ⟨other, ho, hm⟩ := ha k hk
    obtain ⟨hlt, _⟩ := List.getElem?_eq_some_iff.mp ho
    exact ⟨other, (List.getElem?_append_left hlt).trans ho, hm⟩

theorem numbered_request (h : Numbered s) (type : MessageType) (status : BitVec 16)
    (data : List (BitVec 8)) (timeout : ℕ) : Numbered (s.request type status data timeout) := by
  have hn := numbered_numbering h ⟨type, s.nextSequenceId, timeout⟩ rfl
  unfold State.request
  split_ifs
  · exact h.finished _ _
  · split
    · exact hn.of_eq rfl rfl (fun _ hr => hr) fun _ _ hw => by cases hw
    · exact hn.of_eq rfl rfl (fun _ hr => hr) fun _ _ hw => hw

theorem numbered_send (h : Numbered s) {answers : Option ℕ} {frame : Frame} (hf : frame.Fits)
    (ha : ∀ k, answers = some k →
      ∃ request, s.requests[k]? = some request ∧ State.Matches request frame) :
    Numbered (s.send answers frame) where
  nextId := h.nextId
  ids := h.ids
  waiting := h.waiting
  answers reply hreply := by
    rcases List.mem_append.mp hreply with hreply | hreply
    · exact h.answers reply hreply
    · cases List.mem_singleton.mp hreply
      exact ⟨hf, ha⟩

theorem numbered_take (h : Numbered s) (hp : s.phase = .taking n request) :
    Numbered (s.take n request) := by
  unfold State.take
  split
  · exact h.closedError _ _
  · exact h.of_eq rfl rfl (fun _ hr => hr) fun _ _ hw => by rw [hp]; exact hw
  · split_ifs
    · exact h.of_eq rfl rfl (fun _ hr => hr) fun _ _ hw => by cases hw
    · exact h.of_eq rfl rfl (fun _ hr => hr) fun _ _ hw => hw

theorem numbered_step (h : Numbered s) (he : Enabled s a) : Numbered (next s a) := by
  cases a with
  | connect peer => exact h.closed.of_eq rfl rfl (fun _ hr => hr) fun _ _ hw => hw
  | connectFailed peer => exact h.closed.of_eq rfl rfl (fun _ hr => hr) fun _ _ hw => hw
  | close => exact h.closed
  | request type status data timeout => exact numbered_request h type status data timeout
  | wrote =>
    obtain ⟨n, request, hp⟩ := he
    simp only [next, hp]
    exact h.of_eq rfl rfl (fun _ hr => hr) fun _ _ hw => by rw [hp]; exact hw
  | writeFailed message =>
    obtain ⟨n, request, hp⟩ := he
    simp only [next, hp]
    exact h.closedError _ _
  | reply k status data =>
    simp only [next]
    split
    · rename_i request hk
      refine numbered_send h he.2.2 ?_
      rintro _ ⟨⟩
      exact ⟨request, hk, rfl, rfl⟩
    · exact h
  | stray frame => exact numbered_send h he.2 nofun
  | take =>
    obtain ⟨n, request, hp⟩ := he
    simp only [next, hp]
    exact numbered_take h hp
  | receive bytes =>
    obtain ⟨⟨n, request, hp⟩, _⟩ := he
    simp only [next, hp]
    exact h.of_eq rfl rfl (fun _ hr => hr) fun _ _ hw => by rw [hp]; exact hw
  | readTimedOut =>
    obtain ⟨n, request, hp⟩ := he
    simp only [next, hp]
    exact h.finished _ _
  | readFailed message =>
    obtain ⟨n, request, hp⟩ := he
    simp only [next, hp]
    exact h.closedError _ _

theorem numbered_reachable {C : State → Action → Prop} (h : system.ReachableUnder C s) :
    Numbered s :=
  h.invariant numbered_initial fun _ _ hs he _ => numbered_step hs he

/-- Sequence ids tell requests apart that are fewer than 65536 apart. -/
theorem Numbered.matches_iff (h : Numbered s) (hp : s.phase.waiting = some (n, request))
    {reply : Reply} (hr : reply ∈ s.sent) {k : ℕ} (hk : reply.answers = some k)
    (ht : n < k + 65536) : State.Matches request reply.frame ↔ k = n := by
  obtain ⟨hn, hlast⟩ := h.waiting n request hp
  obtain ⟨other, ho, hm⟩ := (h.answers reply hr).2 k hk
  constructor
  · intro hmatch
    obtain ⟨hlt, _⟩ := List.getElem?_eq_some_iff.mp ho
    have hid : BitVec.ofNat 16 (k + 1) = BitVec.ofNat 16 (n + 1) := by
      rw [← h.ids _ _ ho, ← h.ids _ _ hn, ← hm.1, hmatch.1]
    have hnat := congrArg BitVec.toNat hid
    rw [BitVec.toNat_ofNat, BitVec.toNat_ofNat] at hnat
    omega
  · intro heq
    rw [heq, hn] at ho
    cases ho
    exact hm

/-! ### The stream -/

/-- What was taken are the first replies sent, and the bytes under way are the others. -/
structure Framed (s : State) : Prop where
  stream : ∃ done pending, s.sent = done ++ pending ∧ List.Forall₂ Serves s.taken done ∧
    s.received ++ s.wire = (pending.map Reply.frame).flatMap Frame.bytes
  counted : s.discarded = s.taken.countP fun t => !t.returned
  returned : s.results.filterMap returnedFrame =
    (s.taken.filter Taken.returned).map fun t => (t.taker, t.frame)

theorem framed_initial : Framed .initial where
  stream := ⟨[], [], rfl, .nil, rfl⟩
  counted := rfl
  returned := rfl

theorem Framed.closed (h : Framed s) : Framed s.closeLocked where
  stream := by
    obtain ⟨done, pending, hs, hd, _⟩ := h.stream
    refine ⟨done, [], ?_, hd, rfl⟩
    change s.sent.take s.taken.length = done ++ []
    rw [hs, hd.length_eq, List.take_left, List.append_nil]
  counted := h.counted
  returned := h.returned

theorem Framed.failed (h : Framed s) (n : ℕ) (error : ConnectionError) :
    Framed (s.finish n (.error error)) where
  stream := h.stream
  counted := h.counted
  returned := by
    change (s.results ++ [(n, Except.error error)]).filterMap returnedFrame = _
    rw [List.filterMap_append, h.returned]
    exact List.append_nil _

theorem Framed.of_eq {t : State} (h : Framed s) (hs : t.sent = s.sent) (ht : t.taken = s.taken)
    (hb : t.received ++ t.wire = s.received ++ s.wire) (hd : t.discarded = s.discarded)
    (hr : t.results = s.results) : Framed t where
  stream := by
    rw [hs, ht, hb]
    exact h.stream
  counted := by rw [hd, ht, h.counted]
  returned := by rw [hr, ht, h.returned]

theorem framed_request (h : Framed s) (type : MessageType) (status : BitVec 16)
    (data : List (BitVec 8)) (timeout : ℕ) : Framed (s.request type status data timeout) := by
  unfold State.request
  split_ifs
  · exact h.failed _ _
  · split
    · exact (h.failed s.requests.length _).of_eq rfl rfl rfl rfl rfl
    · exact h.of_eq rfl rfl rfl rfl rfl

theorem framed_send (h : Framed s) (answers : Option ℕ) (frame : Frame) :
    Framed (s.send answers frame) where
  stream := by
    obtain ⟨done, pending, hs, hd, hb⟩ := h.stream
    refine ⟨done, pending ++ [⟨answers, frame⟩], ?_, hd, ?_⟩
    · change s.sent ++ [_] = _
      rw [hs, List.append_assoc]
    · change s.received ++ (s.wire ++ frame.bytes) = _
      rw [← List.append_assoc, hb, List.map_append, List.flatMap_append]
      simp
  counted := h.counted
  returned := h.returned

/-- `takeFrame` yields the next reply, which goes to the request it answers or is counted. -/
theorem framed_take (h : Framed s) (hn : Numbered s) (hp : s.phase = .taking n request)
    (ht : Timely s .take) : Framed (s.take n request) := by
  obtain ⟨done, pending, hs, hd, hb⟩ := h.stream
  have hv : ∀ frame ∈ pending.map Reply.frame, frame.Fits := by
    intro frame hf
    obtain ⟨reply, hr, rfl⟩ := List.mem_map.mp hf
    exact (hn.answers reply (hs ▸ List.mem_append_right _ hr)).1
  obtain ⟨found, htake, hfinds⟩ := takeFrame_splits.finds hv hb
  unfold State.take
  rw [htake]
  cases pending with
  | nil =>
    cases hfinds
    exact h.of_eq rfl rfl rfl rfl rfl
  | cons reply pending =>
    cases hfinds with
    | part _ _ _ => exact h.of_eq rfl rfl rfl rfl rfl
    | frame _ _ rest hl hrest =>
      have hnext : s.sent[s.taken.length]? = some reply := by
        rw [hs, hd.length_eq, List.getElem?_append_right (Nat.le_refl _)]
        simp
      have hiff : State.Matches request reply.frame ↔ reply.answers = some n := by
        simp only [Timely, hp, hnext] at ht
        have hlt := ht hl
        unfold Reply.TimelyFor at hlt
        cases hanswers : reply.answers with
        | some k =>
          rw [hanswers] at hlt
          rw [hn.matches_iff (by rw [hp]; rfl) (hs ▸ by simp) hanswers hlt, Option.some_inj]
        | none =>
          rw [hanswers] at hlt
          exact iff_of_false (fun hm => hlt ⟨hm.2, hm.1⟩) nofun
      have hstream : ∀ returned, (returned = true ↔ reply.answers = some n) →
          ∃ done pending, s.sent = done ++ pending ∧
            List.Forall₂ Serves (s.taken ++ [⟨n, reply.frame, returned⟩]) done ∧
            rest ++ s.wire = (pending.map Reply.frame).flatMap Frame.bytes := by
        intro returned hret
        refine ⟨done ++ [reply], pending, by simp [hs], ?_, hrest⟩
        exact List.rel_append hd (.cons ⟨rfl, hret⟩ .nil)
      dsimp only
      split_ifs with hm
      · refine ⟨hstream true (by simpa using hiff.mp hm), ?_, ?_⟩
        · simp [State.finish, h.counted]
        · simp [State.finish, h.returned, returnedFrame]
      · refine ⟨hstream false (by simpa using fun he => hm (hiff.mpr he)), ?_, ?_⟩
        · simp [h.counted]
        · simp [h.returned]

theorem framed_step (h : Framed s) (hn : Numbered s) (he : Enabled s a) (ht : Timely s a) :
    Framed (next s a) := by
  cases a with
  | connect peer => exact h.closed.of_eq rfl rfl rfl rfl rfl
  | connectFailed peer => exact h.closed.of_eq rfl rfl rfl rfl rfl
  | close => exact h.closed
  | request type status data timeout => exact framed_request h type status data timeout
  | wrote =>
    obtain ⟨n, request, hp⟩ := he
    simp only [next, hp]
    exact h.of_eq rfl rfl rfl rfl rfl
  | writeFailed message =>
    obtain ⟨n, request, hp⟩ := he
    simp only [next, hp]
    exact h.closed.failed _ _
  | reply k status data =>
    simp only [next]
    split
    · exact framed_send h _ _
    · exact h
  | stray frame => exact framed_send h _ _
  | take =>
    obtain ⟨n, request, hp⟩ := he
    simp only [next, hp]
    exact framed_take h hn hp ht
  | receive bytes =>
    obtain ⟨⟨n, request, hp⟩, _⟩ := he
    simp only [next, hp]
    refine h.of_eq rfl rfl ?_ rfl rfl
    rw [List.append_assoc, List.take_append_drop]
  | readTimedOut =>
    obtain ⟨n, request, hp⟩ := he
    simp only [next, hp]
    exact h.failed _ _
  | readFailed message =>
    obtain ⟨n, request, hp⟩ := he
    simp only [next, hp]
    exact h.closed.failed _ _

theorem framed_reachable (h : system.ReachableUnder Timely s) : Framed s :=
  h.induct framed_initial fun _ _ hr hs he ht => framed_step hs (numbered_reachable hr) he ht

/-- Whatever requests time out and however the bytes arrive, the replies come out whole and in
order, each to the request it answers. -/
theorem delivers_of_timely (h : system.ReachableUnder Timely s) : Delivers s := by
  have hn := numbered_reachable h
  have hf := framed_reachable h
  obtain ⟨done, pending, hs, hd, hb⟩ := hf.stream
  refine ⟨⟨done, pending, hs, hd, hb, takeFrame_splits.finds ?_ hb⟩, hf.counted, hf.returned⟩
  intro frame hframe
  obtain ⟨reply, hr, rfl⟩ := List.mem_map.mp hframe
  exact (hn.answers reply (hs ▸ List.mem_append_right _ hr)).1

/-- The first request times out, and its reply arrives in two pieces while the second waits, after a
frame with the sequence id but not the type of the second. -/
def lateReply : List Action :=
  [.connect "192.168.0.2:9000", .request .kSdoRead 0 [0x41, 0x60, 0x00] 100, .wrote, .take,
    .readTimedOut, .request .kSdoRead 0 [0x64, 0x60, 0x00] 100, .wrote, .stray ⟨0x22, 2, 0, []⟩,
    .reply 0 0 [0x37, 0x02], .take, .receive 12, .take, .take, .receive 4, .take,
    .reply 1 0 [0x10], .take, .receive 8, .take]

theorem lateReply_delivers :
    system.ReachableUnder Timely (system.run .initial lateReply) ∧
      (system.run .initial lateReply).discarded = 2 ∧
      (system.run .initial lateReply).results.filterMap returnedFrame =
        [(1, ⟨0x01, 2, 0, [0x10]⟩)] ∧
      Delivers (system.run .initial lateReply) := by
  have hf : system.Follows Timely .initial lateReply := by decide +kernel
  exact ⟨⟨_, hf, rfl⟩, by decide +kernel, by decide +kernel, delivers_of_timely ⟨_, hf, rfl⟩⟩

/-! ### A bound on the arrival is not enough -/

/-- The drive only replies, with fewer requests than sequence ids between a request and its
reply. -/
def ArrivesTimely (s : State) : Action → Prop
  | .reply k _ _ => s.requests.length ≤ k + 65536
  | .stray _ => False
  | _ => True

/-- The reply to a request that timed out is on the wire, and requests that are refused for their
data use up sequence ids. -/
structure Waiting (n : ℕ) (s : State) : Prop where
  reached : system.ReachableUnder ArrivesTimely s
  opened : s.opened = true
  phase : s.phase = .idle
  received : s.received = []
  wire : s.wire = [0x01, 0x01, 0x00, 0x00, 0x00, 0x00, 0x00]
  nextSequenceId : s.nextSequenceId = BitVec.ofNat 16 (n + 1)
  requests : s.requests.length = n
  sent : s.sent = [⟨some 0, ⟨0x01, 1, 0, []⟩⟩]
  taken : s.taken = []

theorem waiting_one : ∃ s, Waiting 1 s := by
  let actions : List Action := [.connect "192.168.0.2:9000", .request .kSdoRead 0 [] 100, .wrote,
    .take, .readTimedOut, .reply 0 0 []]
  refine ⟨system.run .initial actions, ⟨actions, ?_, rfl⟩, rfl, rfl, rfl, rfl, rfl, rfl, rfl, rfl⟩
  refine ⟨⟨rfl, trivial⟩, ⟨rfl, trivial⟩, ⟨⟨_, _, rfl⟩, trivial⟩, ⟨⟨_, _, rfl⟩, trivial⟩,
    ⟨⟨_, _, rfl⟩, trivial⟩, ⟨⟨rfl, ?_, ?_⟩, Nat.le_add_left 1 65535⟩, trivial⟩ <;> decide

theorem Waiting.refused (h : Waiting n s) : ∃ t, Waiting (n + 1) t := by
  let data : List (BitVec 8) := List.replicate (kMaxDataSize + 1) 0
  obtain ⟨message, hm⟩ : ∃ message, encodeFrame ⟨MessageType.kSdoRead.code, s.nextSequenceId, 0,
      data⟩ = .error message := ⟨_, if_pos (by simp [data])⟩
  have hnext : next s (.request .kSdoRead 0 data 100) = State.finish { s with
      nextSequenceId := s.nextSequenceId + 1
      requests := s.requests ++ [⟨.kSdoRead, s.nextSequenceId, 100⟩] } s.requests.length
      (s.error .kInvalidRequest message) := by
    simp only [next, State.request, h.opened, Bool.true_eq_false, if_false, hm]
  have he : system.Enabled s (.request .kSdoRead 0 data 100) := h.phase
  have hreached : system.ReachableUnder ArrivesTimely (next s (.request .kSdoRead 0 data 100)) :=
    h.reached.step he trivial
  rw [hnext] at hreached
  refine ⟨_, hreached, h.opened, rfl, h.received, h.wire, ?_, ?_, h.sent, h.taken⟩
  · rw [BitVec.ofNat_add (n + 1) 1, ← h.nextSequenceId]
    rfl
  · simp [State.finish, h.requests]

theorem exists_waiting (n : ℕ) : ∃ s, Waiting (n + 1) s := by
  induction n with
  | zero => exact waiting_one
  | succ n ih =>
    obtain ⟨s, h⟩ := ih
    exact h.refused

/-- The reply to request 0 arrives at once, and request 65536, of its type and sequence id, gets
it. -/
theorem arrivesTimely_not_delivers :
    ¬ ∀ s, system.ReachableUnder ArrivesTimely s → Delivers s := by
  intro hall
  obtain ⟨s, h⟩ := exists_waiting 65535
  obtain ⟨hreached, hopened, hphase, hreceived, hwire, hid, hlength, hsent, htaken⟩ := h
  obtain ⟨opened, peer, discarded, nextSequenceId, received, phase, wire, requests, transmitted,
    sent, taken, results⟩ := s
  dsimp only at hopened hphase hreceived hwire hid hlength hsent htaken
  subst hopened hphase hreceived hwire hid hsent htaken
  let actions : List Action := [.request .kSdoRead 0 [] 100, .wrote, .take, .receive 7, .take]
  have hlast := hall (system.run _ actions) (hreached.append ?_)
  · obtain ⟨done, pending, hs, hserves, -⟩ := hlast.framed
    cases hserves with
    | cons hserves hnil =>
      cases hnil
      cases hs
      have htaker : 0 = requests.length := Option.some.inj (hserves.2.mp rfl)
      omega
  · exact ⟨⟨rfl, trivial⟩, ⟨⟨_, _, rfl⟩, trivial⟩, ⟨⟨_, _, rfl⟩, trivial⟩,
      ⟨⟨⟨_, _, rfl⟩, by decide, by decide, Nat.le_refl 7⟩, trivial⟩, ⟨⟨_, _, rfl⟩, trivial⟩,
      trivial⟩

end MotionMaster.Spoe.SpoeConnection
