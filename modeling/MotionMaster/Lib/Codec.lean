import Mathlib.Data.List.Forall2
import MotionMaster.Lib.Bytes

/-!
# Writers and readers of a byte format

A writer appends to a seekable stream, a reader moves an offset through a buffer. What one emits
the other reads, part by part.
-/

theorem Except.bind_eq_ok {ε α β : Type} {x : Except ε α} {f : α → Except ε β} {b : β}
    (h : x >>= f = .ok b) : ∃ a, x = .ok a ∧ f a = .ok b := by
  cases x with
  | error e => cases h
  | ok a => exact ⟨a, rfl, h⟩

theorem Except.mapM_eq_ok {ε α β : Type} {f : α → Except ε β} {g : α → β} {xs : List α}
    (h : ∀ x ∈ xs, f x = .ok (g x)) : xs.mapM f = .ok (xs.map g) := by
  induction xs with
  | nil => rfl
  | cons x xs ih =>
    obtain ⟨hx, hxs⟩ := List.forall_mem_cons.mp h
    rw [List.mapM_cons, hx, ih hxs]
    rfl

theorem Except.mapM_eq_ok_iff {ε α β : Type} {f : α → Except ε β} {xs : List α} {ys : List β} :
    xs.mapM f = .ok ys ↔ List.Forall₂ (fun x y => f x = .ok y) xs ys := by
  induction xs generalizing ys with
  | nil =>
    constructor
    · rintro ⟨⟩
      exact .nil
    · rintro ⟨⟩
      rfl
  | cons x xs ih =>
    rw [List.mapM_cons]
    constructor
    · intro h
      obtain ⟨y, hy, h⟩ := Except.bind_eq_ok h
      obtain ⟨zs, hzs, h⟩ := Except.bind_eq_ok h
      cases h
      exact .cons hy (ih.mp hzs)
    · rintro (_ | ⟨hy, hys⟩)
      rw [hy, ih.mpr hys]
      rfl

/-- Every element is accepted. -/
theorem Except.exists_mapM_eq_ok {ε α β : Type} {f : α → Except ε β} {xs : List α} :
    (∃ ys, xs.mapM f = .ok ys) ↔ ∀ x ∈ xs, ∃ y, f x = .ok y := by
  simp only [Except.mapM_eq_ok_iff]
  induction xs with
  | nil => simp
  | cons x xs ih =>
    rw [List.forall_mem_cons, ← ih]
    constructor
    · rintro ⟨ys, _ | ⟨hy, hys⟩⟩
      exact ⟨⟨_, hy⟩, _, hys⟩
    · rintro ⟨⟨y, hy⟩, ys, hys⟩
      exact ⟨y :: ys, .cons hy hys⟩

theorem Except.map_eq_ok_iff {ε α β : Type} {f : α → β} {x : Except ε α} {b : β} :
    x.map f = .ok b ↔ ∃ a, x = .ok a ∧ f a = b := by
  cases x with
  | error e => simp [Except.map]
  | ok a => simp [Except.map]

namespace Codec

open Bytes (encode decode length_encode decode_encode decode_lt)

/-- A seekable output over a medium with room for `capacity` bytes. -/
structure Stream where
  capacity : ℕ
  bytes : List (BitVec 8)
  position : ℕ
  deriving DecidableEq

namespace Stream

/-- `bytes` written, and the position behind them. -/
def atEnd (capacity : ℕ) (bytes : List (BitVec 8)) : Stream := ⟨capacity, bytes, bytes.length⟩

/-- Overwrites from the position on, or fails: a stream that failed takes nothing more. -/
def write (bs : List (BitVec 8)) (o : Stream) : Option Stream :=
  if o.position + bs.length ≤ o.capacity then
    some ⟨o.capacity, o.bytes.take o.position ++ bs ++ o.bytes.drop (o.position + bs.length),
      o.position + bs.length⟩
  else none

def seek (position : ℕ) (o : Stream) : Stream := { o with position }

def seekEnd (o : Stream) : Stream := { o with position := o.bytes.length }

end Stream

/-- The writer appends `cs`, if there is room. -/
def Emits (f : Stream → Option Stream) (cs : List (BitVec 8)) : Prop :=
  ∀ capacity bs, bs.length ≤ capacity → f (.atEnd capacity bs) =
    if (bs ++ cs).length ≤ capacity then some (.atEnd capacity (bs ++ cs)) else none

variable {f g : Stream → Option Stream} {bs cs ds : List (BitVec 8)}

theorem emits_some : Emits some [] := by
  intro capacity bs hb
  simp [hb]

theorem emits_write (cs : List (BitVec 8)) : Emits (Stream.write cs) cs := by
  intro capacity bs _
  have hnone : bs.drop (bs.length + cs.length) = [] := List.drop_of_length_le (by omega)
  simp only [Stream.write, Stream.atEnd, List.take_length, hnone, List.append_nil,
    List.length_append]

theorem Emits.bind (hf : Emits f cs) (hg : Emits g ds) : Emits (fun o => f o >>= g) (cs ++ ds) := by
  intro capacity bs hb
  dsimp only
  rw [hf capacity bs hb]
  by_cases hc : (bs ++ cs).length ≤ capacity
  · rw [if_pos hc, Option.bind_eq_bind, Option.bind_some, hg capacity _ hc, List.append_assoc]
  · rw [if_neg hc, if_neg]
    · rfl
    · simp only [List.length_append] at hc ⊢
      omega

theorem Emits.foldlM {α : Type} {f : α → Stream → Option Stream} {enc : α → List (BitVec 8)}
    (h : ∀ x, Emits (f x) (enc x)) (xs : List α) :
    Emits (fun o => xs.foldlM (fun o x => f x o) o) (xs.flatMap enc) := by
  induction xs with
  | nil => exact emits_some
  | cons x xs ih => exact (h x).bind ih

theorem write_over {before old new after : List (BitVec 8)} {capacity : ℕ}
    (hl : old.length = new.length) (hc : (before ++ old ++ after).length ≤ capacity) :
    Stream.write new ⟨capacity, before ++ old ++ after, before.length⟩ =
      some ⟨capacity, before ++ new ++ after, before.length + new.length⟩ := by
  have hroom : before.length + new.length ≤ capacity := by
    simp only [List.length_append] at hc
    omega
  have hrest : (before ++ old ++ after).drop (before.length + new.length) = after := by
    rw [← hl, ← List.length_append, List.drop_left]
  have hkept : (before ++ old ++ after).take before.length = before := by
    rw [List.append_assoc, List.take_left]
  simp only [Stream.write, hroom, if_true, hkept, hrest]

/-! ### Readers -/

/-- `n` bytes from an offset, as an unsigned number. -/
def getUint (data : List (BitVec 8)) (n offset : ℕ) : Except String ℕ :=
  if offset + n ≤ data.length then .ok (decode ((data.drop offset).take n))
  else .error "Offset is outside the bounds of the DataView"

/-- Reads a buffer from an offset, and moves the offset. -/
abbrev Reader (α : Type) := ReaderT (List (BitVec 8)) (StateT ℕ (Except String)) α

namespace Reader

def uint (n : ℕ) : Reader ℕ := fun data offset => do
  let v ← getUint data n offset
  return (v, offset + n)

def span (n : ℕ) : Reader (List (BitVec 8)) := fun data offset =>
  .ok ((data.drop offset).take n, offset + n)

variable {α : Type}

def times : ℕ → Reader α → Reader (List α)
  | 0, _ => pure []
  | n + 1, p => do
    let a ← p
    let as ← times n p
    return a :: as

end Reader

/-- Wherever `bytes` stand, the reader reads them as `a`. -/
def Reads {α : Type} (p : Reader α) (bytes : List (BitVec 8)) (a : α) : Prop :=
  ∀ before after, p (before ++ (bytes ++ after)) before.length =
    .ok (a, before.length + bytes.length)

variable {α β : Type} {p : Reader α} {a : α} {b : β}

theorem getUint_encode (before after : List (BitVec 8)) (n v : ℕ) :
    getUint (before ++ (encode n v ++ after)) n before.length = .ok (v % 256 ^ n) := by
  have htake : (encode n v ++ after).take n = encode n v :=
    List.take_left' (length_encode n v)
  rw [getUint, if_pos (by simp), List.drop_left, htake, decode_encode]

variable {data : List (BitVec 8)} {offset : ℕ}

theorem exists_getUint {n : ℕ} (h : offset + n ≤ data.length) :
    ∃ v, getUint data n offset = .ok v := ⟨_, if_pos h⟩

theorem getUint_lt {n v : ℕ} (h : getUint data n offset = .ok v) :
    v < 256 ^ n := by
  unfold getUint at h
  split_ifs at h with hin
  cases h
  have hlen : ((data.drop offset).take n).length = n := by
    simp only [List.length_take, List.length_drop]
    omega
  have hlt := decode_lt ((data.drop offset).take n)
  rwa [hlen] at hlt

/-- A read behind what stands before. -/
theorem getUint_append {before : List (BitVec 8)} (h : before.length ≤ offset)
    (after : List (BitVec 8)) (n : ℕ) :
    getUint (before ++ after) n offset = getUint after n (offset - before.length) := by
  have hlen : offset + n ≤ (before ++ after).length ↔
      offset - before.length + n ≤ after.length := by
    simp only [List.length_append]
    omega
  have hdrop : (before ++ after).drop offset = after.drop (offset - before.length) := by
    rw [List.drop_append, List.drop_of_length_le h, List.nil_append]
  simp only [getUint, hlen, hdrop]

theorem reads_pure (a : α) : Reads (pure a) [] a := fun _ _ => rfl

theorem Reads.bind {q : α → Reader β} (hp : Reads p bs a) (hq : Reads (q a) cs b) :
    Reads (p >>= q) (bs ++ cs) b := by
  intro before after
  have hfirst := hp before (cs ++ after)
  have hsecond := hq (before ++ bs) after
  simp only [List.append_assoc, List.length_append] at hfirst hsecond ⊢
  change (p (before ++ (bs ++ (cs ++ after))) before.length >>= fun x => q x.1 _ x.2) = _
  rw [hfirst]
  exact hsecond.trans (by rw [Nat.add_assoc])

theorem Reads.bind_pure (hp : Reads p bs a) (q : α → β) :
    Reads (p >>= fun a => pure (q a)) bs (q a) := by
  have h := hp.bind (q := fun a => pure (q a)) (reads_pure (q a))
  rwa [List.append_nil] at h

theorem reads_uint (n v : ℕ) : Reads (Reader.uint n) (encode n v) (v % 256 ^ n) := by
  intro before after
  unfold Reader.uint
  rw [getUint_encode, length_encode]
  rfl

theorem reads_span (bs : List (BitVec 8)) : Reads (Reader.span bs.length) bs bs := by
  intro before after
  simp [Reader.span]

theorem Reads.times {enc : β → List (BitVec 8)} {value : β → α} {xs : List β}
    (h : ∀ x ∈ xs, Reads p (enc x) (value x)) :
    Reads (Reader.times xs.length p) (xs.flatMap enc) (xs.map value) := by
  induction xs with
  | nil => exact reads_pure []
  | cons x xs ih =>
    obtain ⟨hx, hxs⟩ := List.forall_mem_cons.mp h
    exact hx.bind ((ih hxs).bind_pure _)

theorem Reader.bind_eq_ok {q : α → Reader β} {offset' : ℕ}
    (h : (p >>= q) data offset = .ok (b, offset')) :
    ∃ a middle, p data offset = .ok (a, middle) ∧ q a data middle = .ok (b, offset') := by
  obtain ⟨x, hx, hq⟩ := Except.bind_eq_ok (f := fun x : α × ℕ => q x.1 data x.2) h
  exact ⟨x.1, x.2, hx, hq⟩

theorem Reader.uint_eq_ok {n v offset' : ℕ}
    (h : Reader.uint n data offset = .ok (v, offset')) :
    getUint data n offset = .ok v ∧ offset' = offset + n := by
  obtain ⟨w, hw, h⟩ := Except.bind_eq_ok (f := fun v => .ok (v, offset + n)) h
  cases h
  exact ⟨hw, rfl⟩

/-- Every element of what a loop has read is what one pass read. -/
theorem Reader.times_eq_ok {n offset' : ℕ} {as : List α}
    (h : Reader.times n p data offset = .ok (as, offset')) :
    as.length = n ∧ ∀ a ∈ as, ∃ before after, p data before = .ok (a, after) := by
  induction n generalizing offset as with
  | zero =>
    cases h
    exact ⟨rfl, by simp⟩
  | succ n ih =>
    obtain ⟨a, middle, ha, h⟩ := Reader.bind_eq_ok h
    obtain ⟨rest, last, hrest, h⟩ := Reader.bind_eq_ok h
    cases h
    obtain ⟨hlen, hmem⟩ := ih hrest
    refine ⟨by rw [List.length_cons, hlen], List.forall_mem_cons.mpr ⟨?_, hmem⟩⟩
    exact ⟨offset, middle, ha⟩

end Codec
