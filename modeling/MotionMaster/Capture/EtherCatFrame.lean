import MotionMaster.Lib.Words

/-!
# EtherCAT frames in a capture

`parseEtherCatFrame` walks the datagrams of one Ethernet frame. Each of its reads is modelled as
one that can miss: a walk that looked outside the bytes would have no result.
-/

namespace MotionMaster.Capture

abbrev Bytes := List (BitVec 8)

def kEthernetHeaderBytes : ℕ := 14
def kEtherCatHeaderBytes : ℕ := 2
def kDatagramHeaderBytes : ℕ := 10
def kWorkingCounterBytes : ℕ := 2
def kSourceMacLocalBit : BitVec 8 := 0x02
def kEtherCatEtherType : BitVec 16 := 0x88A4

/-- LRD, LWR and LRW. -/
def isLogicalCommand (command : BitVec 8) : Bool := 10 ≤ command.toNat && command.toNat ≤ 12

/-- APRD, APWR, APRW, BRD, BWR, BRW and ARMW. -/
def isPositionCountedUp (command : BitVec 8) : Bool :=
  [1, 2, 3, 7, 8, 9, 13].contains command.toNat

structure Datagram where
  command : BitVec 8
  index : BitVec 8
  adp : BitVec 16
  ado : BitVec 16
  length : BitVec 16
  more : Bool
  wkc : BitVec 16
  deriving DecidableEq

structure EtherCatFrame where
  fromMaster : Bool
  datagrams : List Datagram
  deriving DecidableEq

def readU16 (bytes : Bytes) (off : ℕ) : Option (BitVec 16) := do
  let lo ← bytes[off]?
  let hi ← bytes[off + 1]?
  return Words.join16 lo hi

/-- One turn of the loop: the datagram at `off` and the offset behind it, or nothing when it runs
past `stop`. -/
def readDatagram (bytes : Bytes) (stop off : ℕ) : Option (Option (Datagram × ℕ)) :=
  if stop < off + kDatagramHeaderBytes then return none
  else do
    let command ← bytes[off]?
    let index ← bytes[off + 1]?
    let adp ← readU16 bytes (off + 2)
    let ado ← readU16 bytes (off + 4)
    -- 11 bits of length; bit 15 says another datagram follows
    let lengthField ← readU16 bytes (off + 6)
    let length := lengthField &&& 0x07FF
    let more := lengthField &&& 0x8000 != 0
    let off := off + (kDatagramHeaderBytes + length.toNat)
    if stop < off + kWorkingCounterBytes then return none
    else
      let wkc ← readU16 bytes off
      return some (⟨command, index, adp, ado, length, more, wkc⟩, off + kWorkingCounterBytes)

/-- The loop from `off` on. It has no result when a read misses or the turns do not suffice. -/
def readDatagrams (bytes : Bytes) (stop : ℕ) : ℕ → ℕ → Option (Option (List Datagram))
  | 0, _ => none
  | turns + 1, off =>
    match readDatagram bytes stop off with
    | none => none
    | some none => some none
    | some (some (d, next)) =>
      if d.more then (readDatagrams bytes stop turns next).map (Option.map (d :: ·))
      else some (some [d])

def parseEtherCatFrame (bytes : Bytes) : Option (Option EtherCatFrame) :=
  if bytes.length < kEthernetHeaderBytes + kEtherCatHeaderBytes then return none
  else do
    -- the one field that is big-endian on the wire
    let etherType := Words.join16 (← bytes[13]?) (← bytes[12]?)
    if etherType ≠ kEtherCatEtherType then return none
    else
      let header ← readU16 bytes kEthernetHeaderBytes
      let length := (header &&& 0x07FF).toNat
      let type := header >>> 12
      if type ≠ 1 then return none
      else
        let off := kEthernetHeaderBytes + kEtherCatHeaderBytes
        let stop := off + length
        if bytes.length < stop then return none
        else
          let source ← bytes[6]?
          let fromMaster := source &&& kSourceMacLocalBit == 0
          (readDatagrams bytes stop bytes.length off).map
            (Option.map fun datagrams => ⟨fromMaster, datagrams⟩)

/-! ## What is on the wire -/

open Bytes (encode)

/-- A complete datagram. The data has the length its header declares. -/
structure WireDatagram where
  command : BitVec 8
  index : BitVec 8
  adp : BitVec 16
  ado : BitVec 16
  lengthField : BitVec 16
  interrupt : BitVec 16
  data : Bytes
  wkc : BitVec 16
  length_data : data.length = lengthField.toNat % 2 ^ 11

namespace WireDatagram

def header (d : WireDatagram) : Bytes :=
  d.command :: d.index :: (encode 2 d.adp.toNat ++ encode 2 d.ado.toNat ++
    encode 2 d.lengthField.toNat ++ encode 2 d.interrupt.toNat)

def bytes (d : WireDatagram) : Bytes := d.header ++ d.data ++ encode 2 d.wkc.toNat

def more (d : WireDatagram) : Bool := d.lengthField.getLsbD 15

def datagram (d : WireDatagram) : Datagram where
  command := d.command
  index := d.index
  adp := d.adp
  ado := d.ado
  length := BitVec.ofNat 16 d.data.length
  more := d.more
  wkc := d.wkc

end WireDatagram

/-- An Ethernet frame of EtherCAT commands: its payload starts with datagrams of which each but the
last says that another follows. -/
structure WireFrame where
  addresses : Bytes
  header : BitVec 16
  init : List WireDatagram
  last : WireDatagram
  unused : Bytes
  trailer : Bytes
  length_addresses : addresses.length = 12
  header_type : header.toNat / 2 ^ 12 = 1
  header_length : ((init ++ [last]).flatMap WireDatagram.bytes ++ unused).length =
    header.toNat % 2 ^ 11
  more_init : ∀ d ∈ init, d.more = true
  more_last : last.more = false

namespace WireFrame

def payload (w : WireFrame) : Bytes :=
  (w.init ++ [w.last]).flatMap WireDatagram.bytes ++ w.unused

def bytes (w : WireFrame) : Bytes :=
  w.addresses ++ [0x88, 0xA4] ++ encode 2 w.header.toNat ++ w.payload ++ w.trailer

def frame (w : WireFrame) : EtherCatFrame where
  fromMaster := !(w.addresses.getD 6 0).getLsbD 1
  datagrams := (w.init ++ [w.last]).map WireDatagram.datagram

end WireFrame

/-! ## Words -/

variable {bytes rest : Bytes} {off stop turns : ℕ} {d : WireDatagram} {ds : List Datagram}

theorem readU16_of_drop {lo hi : BitVec 8} (h : bytes.drop off = lo :: hi :: rest) :
    readU16 bytes off = some (Words.join16 lo hi) := by
  have hlo : bytes[off]? = some lo := by
    rw [← Nat.add_zero off, ← List.getElem?_drop, h, List.getElem?_cons_zero]
  have hhi : bytes[off + 1]? = some hi := by
    rw [← List.getElem?_drop, h, List.getElem?_cons_succ, List.getElem?_cons_zero]
  rw [readU16, hlo, hhi]
  rfl

/-- A masked length field is the 11-bit length. -/
theorem toNat_and_length (x : BitVec 16) : (x &&& 0x07FF).toNat = x.toNat % 2 ^ 11 := by
  exact Nat.and_two_pow_sub_one_eq_mod x.toNat 11

theorem and_more (x : BitVec 16) : (x &&& 0x8000 != 0) = x.getLsbD 15 := by
  have hpow : (0x8000 : BitVec 16) = BitVec.twoPow 16 15 := by decide
  rw [hpow, BitVec.and_twoPow]
  cases x.getLsbD 15 <;> decide

theorem and_localBit (b : BitVec 8) : (b &&& kSourceMacLocalBit == 0) = !b.getLsbD 1 := by
  have hpow : kSourceMacLocalBit = BitVec.twoPow 8 1 := by decide
  rw [hpow, BitVec.and_twoPow]
  cases b.getLsbD 1 <;> decide

/-! ## One datagram -/

theorem getElem?_of_drop {b : BitVec 8} (h : bytes.drop off = b :: rest) :
    bytes[off]? = some b := by
  rw [← Nat.add_zero off, ← List.getElem?_drop, h, List.getElem?_cons_zero]

/-- A header inside the payload is read without a miss. What is left is the working counter. -/
theorem readDatagram_of_drop {c i a₀ a₁ o₀ o₁ l₀ l₁ r₀ r₁ : BitVec 8}
    (h : bytes.drop off = [c, i, a₀, a₁, o₀, o₁, l₀, l₁, r₀, r₁] ++ rest)
    (hs : off + kDatagramHeaderBytes ≤ stop) :
    readDatagram bytes stop off =
      if stop < off + (kDatagramHeaderBytes + (Words.join16 l₀ l₁).toNat % 2 ^ 11) +
          kWorkingCounterBytes then some none
      else do
        let wkc ← readU16 bytes (off + (kDatagramHeaderBytes + (Words.join16 l₀ l₁).toNat % 2 ^ 11))
        return some (⟨c, i, Words.join16 a₀ a₁, Words.join16 o₀ o₁, Words.join16 l₀ l₁ &&& 0x07FF,
          (Words.join16 l₀ l₁).getLsbD 15, wkc⟩,
          off + (kDatagramHeaderBytes + (Words.join16 l₀ l₁).toNat % 2 ^ 11) +
            kWorkingCounterBytes) := by
  have hdrop : ∀ k, bytes.drop (off + k) =
      ([c, i, a₀, a₁, o₀, o₁, l₀, l₁, r₀, r₁] ++ rest).drop k := by
    intro k
    rw [← List.drop_drop, h]
  have hc : bytes[off]? = some c := getElem?_of_drop h
  have hi : bytes[off + 1]? = some i := getElem?_of_drop (hdrop 1)
  have ha := readU16_of_drop (hdrop 2)
  have ho := readU16_of_drop (hdrop 4)
  have hl := readU16_of_drop (hdrop 6)
  rw [readDatagram, if_neg (by omega)]
  simp only [hc, hi, ha, ho, hl, Option.bind_eq_bind, Option.bind_some, toNat_and_length, and_more]
  rfl

theorem WireDatagram.header_eq (d : WireDatagram) :
    ∃ a₀ a₁ o₀ o₁ l₀ l₁ r₀ r₁, d.header = [d.command, d.index, a₀, a₁, o₀, o₁, l₀, l₁, r₀, r₁] ∧
      Words.join16 a₀ a₁ = d.adp ∧ Words.join16 o₀ o₁ = d.ado ∧
      Words.join16 l₀ l₁ = d.lengthField := by
  refine ⟨_, _, _, _, _, _, _, _, rfl, ?_, ?_, ?_⟩
  · exact Words.join16_encode d.adp
  · exact Words.join16_encode d.ado
  · exact Words.join16_encode d.lengthField

@[simp] theorem WireDatagram.length_bytes (d : WireDatagram) :
    d.bytes.length = kDatagramHeaderBytes + d.lengthField.toNat % 2 ^ 11 +
      kWorkingCounterBytes := by
  simp only [bytes, header, List.length_append, List.length_cons, Bytes.length_encode,
    d.length_data, kDatagramHeaderBytes, kWorkingCounterBytes]

theorem WireDatagram.length_bytes_pos (d : WireDatagram) : 0 < d.bytes.length := by
  exact Nat.lt_of_lt_of_le (by decide) (Nat.le_add_left kWorkingCounterBytes _)

theorem length_le_length_flatMap (chain : List WireDatagram) :
    chain.length ≤ (chain.flatMap WireDatagram.bytes).length := by
  induction chain with
  | nil => exact Nat.zero_le _
  | cons d chain ih =>
    have hpos := d.length_bytes_pos
    rw [List.flatMap_cons, List.length_append, List.length_cons]
    omega

/-- A complete datagram inside the payload is read as it stands. -/
theorem readDatagram_bytes (h : bytes.drop off = d.bytes ++ rest)
    (hs : off + d.bytes.length ≤ stop) :
    readDatagram bytes stop off = some (some (d.datagram, off + d.bytes.length)) := by
  obtain ⟨a₀, a₁, o₀, o₁, l₀, l₁, r₀, r₁, hh, ha, ho, hl⟩ := d.header_eq
  rw [d.length_bytes] at hs
  have hcounter : bytes.drop (off + (kDatagramHeaderBytes + d.lengthField.toNat % 2 ^ 11)) =
      encode 2 d.wkc.toNat ++ rest := by
    have hlen : (d.header ++ d.data).length =
        kDatagramHeaderBytes + d.lengthField.toNat % 2 ^ 11 := by
      rw [List.length_append, hh, d.length_data]
      rfl
    rw [← List.drop_drop, h, WireDatagram.bytes, List.append_assoc, ← hlen, List.drop_left]
  have hw := readU16_of_drop hcounter
  rw [WireDatagram.bytes, hh, List.append_assoc, List.append_assoc] at h
  rw [readDatagram_of_drop h (by omega), hl, ha, ho, if_neg (by omega), hw, d.length_bytes]
  have hlength : d.lengthField &&& 0x07FF = BitVec.ofNat 16 d.data.length := by
    apply BitVec.eq_of_toNat_eq
    rw [toNat_and_length, d.length_data, BitVec.toNat_ofNat]
    omega
  simp only [Option.bind_eq_bind, Option.bind_some, Words.join16_encode d.wkc, hlength,
    WireDatagram.datagram, WireDatagram.more, Nat.add_assoc]
  rfl

theorem exists_header (h : kDatagramHeaderBytes ≤ bytes.length) :
    ∃ c i a₀ a₁ o₀ o₁ l₀ l₁ r₀ r₁ rest,
      bytes = [c, i, a₀, a₁, o₀, o₁, l₀, l₁, r₀, r₁] ++ rest := by
  match bytes, h with
  | c :: i :: a₀ :: a₁ :: o₀ :: o₁ :: l₀ :: l₁ :: r₀ :: r₁ :: rest, _ =>
    exact ⟨c, i, a₀, a₁, o₀, o₁, l₀, l₁, r₀, r₁, rest, rfl⟩

/-- Ten bytes are the header of a datagram if what follows holds its data and working counter. -/
theorem exists_datagram {c i a₀ a₁ o₀ o₁ l₀ l₁ r₀ r₁ : BitVec 8} {n : ℕ}
    (hn : (Words.join16 l₀ l₁).toNat % 2 ^ 11 = n) (hrest : n + 2 ≤ rest.length) :
    ∃ d tail, [c, i, a₀, a₁, o₀, o₁, l₀, l₁, r₀, r₁] ++ rest = WireDatagram.bytes d ++ tail ∧
      d.bytes.length = kDatagramHeaderBytes + n + kWorkingCounterBytes := by
  obtain ⟨w₀, w₁, tail, htail⟩ : ∃ w₀ w₁ tail, rest.drop n = w₀ :: w₁ :: tail := by
    have hlen : 2 ≤ (rest.drop n).length := by
      rw [List.length_drop]
      omega
    match rest.drop n, hlen with
    | w₀ :: w₁ :: tail, _ => exact ⟨w₀, w₁, tail, rfl⟩
  have hdata : (rest.take n).length = (Words.join16 l₀ l₁).toNat % 2 ^ 11 := by
    rw [List.length_take, hn]
    omega
  refine ⟨⟨c, i, Words.join16 a₀ a₁, Words.join16 o₀ o₁, Words.join16 l₀ l₁,
    Words.join16 r₀ r₁, rest.take n, Words.join16 w₀ w₁, hdata⟩, tail, ?_, ?_⟩
  · simp only [WireDatagram.bytes, WireDatagram.header, Words.encode_join16]
    have hcounter : [w₀, w₁] ++ tail = rest.drop n := htail.symm
    rw [List.append_assoc, List.append_assoc, hcounter, List.take_append_drop]
    rfl
  · rw [WireDatagram.length_bytes, hn]

/-- One turn never misses a read, and what it takes for a datagram is one. -/
theorem readDatagram_cases (hs : stop ≤ bytes.length) (off : ℕ) :
    readDatagram bytes stop off = some none ∨
      ∃ d rest, bytes.drop off = WireDatagram.bytes d ++ rest ∧ off + d.bytes.length ≤ stop := by
  by_cases hshort : stop < off + kDatagramHeaderBytes
  · left
    rw [readDatagram, if_pos hshort]
    rfl
  have hlen : kDatagramHeaderBytes ≤ (bytes.drop off).length := by
    rw [List.length_drop]
    omega
  obtain ⟨c, i, a₀, a₁, o₀, o₁, l₀, l₁, r₀, r₁, rest, h⟩ := exists_header hlen
  by_cases hover : stop < off + (kDatagramHeaderBytes + (Words.join16 l₀ l₁).toNat % 2 ^ 11) +
      kWorkingCounterBytes
  · left
    rw [readDatagram_of_drop h (by omega), if_pos hover]
  · right
    have hrest : (Words.join16 l₀ l₁).toNat % 2 ^ 11 + 2 ≤ rest.length := by
      have hsum := congrArg List.length h
      simp only [List.length_drop, List.length_append, List.length_cons, List.length_nil] at hsum
      simp only [kDatagramHeaderBytes, kWorkingCounterBytes] at hover
      omega
    obtain ⟨d, tail, hd, hlength⟩ := exists_datagram rfl hrest
    refine ⟨d, tail, h.trans hd, ?_⟩
    omega

/-! ## The loop -/

theorem readDatagrams_last (h : bytes.drop off = d.bytes ++ rest)
    (hs : off + d.bytes.length ≤ stop) (hm : d.more = false) :
    readDatagrams bytes stop (turns + 1) off = some (some [d.datagram]) := by
  have hmore : d.datagram.more = false := hm
  simp only [readDatagrams, readDatagram_bytes h hs, hmore]
  rfl

theorem readDatagrams_more (h : bytes.drop off = d.bytes ++ rest)
    (hs : off + d.bytes.length ≤ stop) (hm : d.more = true) :
    readDatagrams bytes stop (turns + 1) off =
      (readDatagrams bytes stop turns (off + d.bytes.length)).map
        (Option.map (d.datagram :: ·)) := by
  have hmore : d.datagram.more = true := hm
  simp only [readDatagrams, readDatagram_bytes h hs, hmore, if_true]

/-- A chain inside the payload is read to its end. -/
theorem readDatagrams_chain {init : List WireDatagram} {last : WireDatagram}
    (hinit : ∀ d ∈ init, d.more = true) (hlast : last.more = false)
    (h : bytes.drop off = (init ++ [last]).flatMap WireDatagram.bytes ++ rest)
    (hs : off + ((init ++ [last]).flatMap WireDatagram.bytes).length ≤ stop)
    (ht : init.length < turns) :
    readDatagrams bytes stop turns off =
      some (some ((init ++ [last]).map WireDatagram.datagram)) := by
  induction init generalizing off turns with
  | nil =>
    obtain ⟨turns, rfl⟩ := Nat.exists_eq_succ_of_ne_zero (Nat.ne_of_gt ht)
    simp only [List.nil_append, List.flatMap_singleton] at h hs
    exact readDatagrams_last h hs hlast
  | cons d init ih =>
    obtain ⟨turns, rfl⟩ := Nat.exists_eq_succ_of_ne_zero (Nat.ne_of_gt (Nat.zero_lt_of_lt ht))
    rw [List.cons_append, List.flatMap_cons, List.append_assoc] at h
    rw [List.cons_append, List.flatMap_cons, List.length_append] at hs
    have hdrop : bytes.drop (off + d.bytes.length) =
        (init ++ [last]).flatMap WireDatagram.bytes ++ rest := by
      rw [← List.drop_drop, h, List.drop_left]
    have hturns : init.length < turns := by
      rw [List.length_cons] at ht
      omega
    rw [Nat.succ_eq_add_one,
      readDatagrams_more h (by omega) (hinit d List.mem_cons_self),
      ih (fun e he => hinit e (List.mem_cons_of_mem d he)) hdrop (by omega) hturns]
    rfl

/-- The loop ends inside the payload without a miss, and what it returns is a chain it stood on. -/
theorem readDatagrams_cases (hs : stop ≤ bytes.length) (ho : off ≤ stop)
    (ht : stop < off + turns) :
    readDatagrams bytes stop turns off = some none ∨
      ∃ init last rest, (∀ d ∈ init, WireDatagram.more d = true) ∧ last.more = false ∧
        bytes.drop off = (init ++ [last]).flatMap WireDatagram.bytes ++ rest ∧
        off + ((init ++ [last]).flatMap WireDatagram.bytes).length ≤ stop := by
  induction turns generalizing off with
  | zero => omega
  | succ turns ih =>
    obtain hnone | ⟨d, rest, hd, hds⟩ := readDatagram_cases hs off
    · left
      simp only [readDatagrams, hnone]
    have hpos := d.length_bytes_pos
    cases hm : d.more with
    | false =>
      right
      exact ⟨[], d, rest, by simp, hm, by simpa using hd, by simpa using hds⟩
    | true =>
      rw [readDatagrams_more hd hds hm]
      have hdrop : bytes.drop (off + d.bytes.length) = rest := by
        rw [← List.drop_drop, hd, List.drop_left]
      obtain hnone | ⟨init, last, tail, hinit, hlast, hchain, hle⟩ :=
        ih hds (by omega)
      · left
        rw [hnone]
        rfl
      · right
        refine ⟨d :: init, last, tail, ?_, hlast, ?_, ?_⟩
        · intro e he
          rcases List.mem_cons.mp he with rfl | he
          · exact hm
          · exact hinit e he
        · rw [hd, ← hdrop, hchain, List.cons_append, List.flatMap_cons, List.append_assoc]
        · rw [List.cons_append, List.flatMap_cons, List.length_append]
          omega

/-! ## The frame -/

theorem ushiftRight_type (x : BitVec 16) : x >>> 12 = 1 ↔ x.toNat / 2 ^ 12 = 1 := by
  rw [← BitVec.toNat_inj, BitVec.toNat_ushiftRight, Nat.shiftRight_eq_div_pow]
  rfl

theorem join16_etherType (hi lo : BitVec 8) :
    Words.join16 lo hi = kEtherCatEtherType ↔ hi = 0x88 ∧ lo = 0xA4 := by
  constructor
  · intro h
    have hlist : [lo, hi] = encode 2 kEtherCatEtherType.toNat := by
      rw [← h, Words.encode_join16]
    cases hlist
    exact ⟨rfl, rfl⟩
  · rintro ⟨rfl, rfl⟩
    decide

/-- Behind the two headers, everything is decided by the loop. -/
theorem parseEtherCatFrame_of_drop {t₀ t₁ l₀ l₁ : BitVec 8}
    (h : bytes.drop 12 = t₀ :: t₁ :: l₀ :: l₁ :: rest) :
    parseEtherCatFrame bytes =
      if Words.join16 t₁ t₀ ≠ kEtherCatEtherType then some none
      else if Words.join16 l₀ l₁ >>> 12 ≠ 1 then some none
      else if bytes.length < 16 + (Words.join16 l₀ l₁).toNat % 2 ^ 11 then some none
      else (readDatagrams bytes (16 + (Words.join16 l₀ l₁).toNat % 2 ^ 11) bytes.length 16).map
        (Option.map (EtherCatFrame.mk (!(bytes.getD 6 0).getLsbD 1))) := by
  have hlen : ¬ bytes.length < kEthernetHeaderBytes + kEtherCatHeaderBytes := by
    have hl := congrArg List.length h
    simp only [List.length_drop, List.length_cons] at hl
    simp only [kEthernetHeaderBytes, kEtherCatHeaderBytes]
    omega
  have hdrop : ∀ k, bytes.drop (12 + k) = (t₀ :: t₁ :: l₀ :: l₁ :: rest).drop k := by
    intro k
    rw [← List.drop_drop, h]
  have ht₀ : bytes[12]? = some t₀ := getElem?_of_drop h
  have ht₁ : bytes[13]? = some t₁ := getElem?_of_drop (hdrop 1)
  have hl : readU16 bytes 14 = some (Words.join16 l₀ l₁) := readU16_of_drop (hdrop 2)
  have hsource : bytes[6]? = some (bytes.getD 6 0) := by
    simp only [kEthernetHeaderBytes, kEtherCatHeaderBytes] at hlen
    rw [List.getD_eq_getElem?_getD, List.getElem?_eq_getElem (by omega), Option.getD_some]
  rw [parseEtherCatFrame, if_neg hlen]
  simp only [ht₀, ht₁, hl, hsource, Option.bind_eq_bind, Option.bind_some, toNat_and_length,
    and_localBit, kEthernetHeaderBytes, kEtherCatHeaderBytes]
  rfl

theorem WireFrame.drop_addresses (w : WireFrame) (k : ℕ) : w.bytes.drop (12 + k) =
    (0x88 :: 0xA4 :: (encode 2 w.header.toNat ++ w.payload ++ w.trailer)).drop k := by
  rw [← List.drop_drop, ← w.length_addresses]
  simp only [bytes, List.append_assoc, List.drop_left]
  rfl

/-- A frame of EtherCAT commands is read as it stands. -/
theorem parseEtherCatFrame_bytes (w : WireFrame) :
    parseEtherCatFrame w.bytes = some (some w.frame) := by
  have hlen : w.bytes.length = 16 + w.header.toNat % 2 ^ 11 + w.trailer.length := by
    simp only [WireFrame.bytes, List.length_append, w.length_addresses, List.length_cons,
      List.length_nil, Bytes.length_encode, WireFrame.payload, ← w.header_length]
  have hheader := Words.join16_encode w.header
  have hsource : w.bytes.getD 6 0 = w.addresses.getD 6 0 := by
    have h6 : 6 < w.addresses.length := by
      rw [w.length_addresses]
      decide
    simp only [WireFrame.bytes, List.append_assoc, List.getD_eq_getElem?_getD,
      List.getElem?_append_left h6]
  have htype : w.header >>> 12 = 1 := (ushiftRight_type w.header).mpr w.header_type
  have hchain : readDatagrams w.bytes (16 + w.header.toNat % 2 ^ 11) w.bytes.length 16 =
      some (some ((w.init ++ [w.last]).map WireDatagram.datagram)) := by
    have hpayload := w.header_length
    rw [List.length_append] at hpayload
    have hdrop : w.bytes.drop 16 = (w.init ++ [w.last]).flatMap WireDatagram.bytes ++
        (w.unused ++ w.trailer) := by
      rw [w.drop_addresses 4, ← List.append_assoc]
      rfl
    apply readDatagrams_chain w.more_init w.more_last hdrop
    · omega
    · have hturns := length_le_length_flatMap (w.init ++ [w.last])
      rw [List.length_append, List.length_singleton] at hturns
      omega
  rw [parseEtherCatFrame_of_drop (w.drop_addresses 0), hheader, if_neg (by decide),
    if_neg (not_not.mpr htype), if_neg (by omega), hchain, hsource]
  rfl

/-- Bytes with matching headers whose payload starts with a chain are a frame. What the chain leaves
of the payload is unused, what the payload leaves of the bytes is the trailer. -/
theorem exists_wireFrame {l₀ l₁ : BitVec 8} {init : List WireDatagram} {last : WireDatagram}
    {tail : Bytes} (h : bytes.drop 12 = 0x88 :: 0xA4 :: l₀ :: l₁ :: rest)
    (htype : (Words.join16 l₀ l₁).toNat / 2 ^ 12 = 1)
    (hlong : 16 + (Words.join16 l₀ l₁).toNat % 2 ^ 11 ≤ bytes.length)
    (hinit : ∀ d ∈ init, d.more = true) (hlast : last.more = false)
    (hchain : bytes.drop 16 = (init ++ [last]).flatMap WireDatagram.bytes ++ tail)
    (hle : 16 + ((init ++ [last]).flatMap WireDatagram.bytes).length ≤
      16 + (Words.join16 l₀ l₁).toNat % 2 ^ 11) : ∃ w : WireFrame, w.bytes = bytes := by
  have hrest : rest = (init ++ [last]).flatMap WireDatagram.bytes ++ tail := by
    have h16 : bytes.drop (12 + 4) = rest := by
      rw [← List.drop_drop, h]
      rfl
    exact h16.symm.trans hchain
  generalize hn : (Words.join16 l₀ l₁).toNat % 2 ^ 11 -
    ((init ++ [last]).flatMap WireDatagram.bytes).length = n
  have hlen := congrArg List.length hchain
  rw [List.length_drop, List.length_append] at hlen
  refine ⟨⟨bytes.take 12, Words.join16 l₀ l₁, init, last, tail.take n, tail.drop n, ?_, htype, ?_,
    hinit, hlast⟩, ?_⟩
  · rw [List.length_take]
    omega
  · rw [List.length_append, List.length_take]
    omega
  · simp only [WireFrame.bytes, WireFrame.payload, Words.encode_join16, List.append_assoc,
      List.take_append_drop]
    rw [← hrest]
    exact (congrArg (bytes.take 12 ++ ·) h.symm).trans (List.take_append_drop 12 bytes)

/-- The walk never misses a read, and what it accepts is a frame of EtherCAT commands. -/
theorem parseEtherCatFrame_cases (bytes : Bytes) :
    parseEtherCatFrame bytes = some none ∨ ∃ w : WireFrame, w.bytes = bytes := by
  by_cases hshort : bytes.length < kEthernetHeaderBytes + kEtherCatHeaderBytes
  · left
    rw [parseEtherCatFrame, if_pos hshort]
    rfl
  simp only [kEthernetHeaderBytes, kEtherCatHeaderBytes] at hshort
  obtain ⟨t₀, t₁, l₀, l₁, rest, h⟩ :
      ∃ t₀ t₁ l₀ l₁ rest, bytes.drop 12 = t₀ :: t₁ :: l₀ :: l₁ :: rest := by
    have hlen : 4 ≤ (bytes.drop 12).length := by
      rw [List.length_drop]
      omega
    match bytes.drop 12, hlen with
    | t₀ :: t₁ :: l₀ :: l₁ :: rest, _ => exact ⟨t₀, t₁, l₀, l₁, rest, rfl⟩
  rw [parseEtherCatFrame_of_drop h]
  by_cases hether : Words.join16 t₁ t₀ = kEtherCatEtherType
  · by_cases htype : Words.join16 l₀ l₁ >>> 12 = 1
    · by_cases hlong : bytes.length < 16 + (Words.join16 l₀ l₁).toNat % 2 ^ 11
      · simp only [if_pos hlong, ite_self, true_or]
      rw [if_neg (not_not.mpr hether), if_neg (not_not.mpr htype), if_neg hlong]
      have hturns : 16 + (Words.join16 l₀ l₁).toNat % 2 ^ 11 < 16 + bytes.length := by omega
      obtain hnone | ⟨init, last, tail, hinit, hlast, hchain, hle⟩ :=
        readDatagrams_cases (Nat.not_lt.mp hlong) (Nat.le_add_right 16 _) hturns
      · left
        rw [hnone]
        rfl
      · right
        obtain ⟨rfl, rfl⟩ := (join16_etherType t₀ t₁).mp hether
        exact exists_wireFrame h ((ushiftRight_type _).mp htype) (Nat.not_lt.mp hlong) hinit hlast
          hchain hle
    · left
      rw [if_pos htype, ite_self]
  · left
    rw [if_pos hether]

/-- Nothing outside the bytes is read; a frame is returned exactly when the bytes are a frame of
EtherCAT commands, and it is that frame. -/
theorem parseEtherCatFrame_exact (bytes : Bytes) :
    ∃ result, parseEtherCatFrame bytes = some result ∧
      ∀ frame, result = some frame ↔ ∃ w : WireFrame, w.bytes = bytes ∧ w.frame = frame := by
  obtain hnone | ⟨w, rfl⟩ := parseEtherCatFrame_cases bytes
  · refine ⟨none, hnone, fun frame => ⟨nofun, ?_⟩⟩
    rintro ⟨w, rfl, -⟩
    rw [parseEtherCatFrame_bytes w] at hnone
    cases hnone
  · have hw := parseEtherCatFrame_bytes w
    refine ⟨some w.frame, hw, fun frame => ⟨?_, ?_⟩⟩
    · intro h
      exact ⟨w, rfl, Option.some.inj h⟩
    · rintro ⟨w', hbytes, rfl⟩
      rw [← hbytes, parseEtherCatFrame_bytes w'] at hw
      exact (Option.some.inj hw).symm

-- one LRW datagram with a byte of data, sent by the master, and two bytes of padding
example : parseEtherCatFrame (List.replicate 12 0xFD ++
    [0x88, 0xA4, 0x0D, 0x10, 0x0C, 0x07, 0x00, 0x00, 0x01, 0x00, 0x01, 0x00, 0x00, 0x00, 0xEE,
      0x03, 0x00, 0x00, 0x00]) =
    some (some ⟨true, [⟨0x0C, 0x07, 0, 1, 1, false, 3⟩]⟩) := by
  decide

end MotionMaster.Capture
