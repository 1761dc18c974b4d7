import Mathlib.Tactic.NormNum
import MotionMaster.Hrd.Recording

/-!
# The distance a recording covers

`icMuRecordedRingRevolutions` adds up the steps of the master count, each brought into half a period
around zero. A ring that moves at most half a period between two samples is followed exactly,
whatever the number of revolutions.
-/

namespace MotionMaster.IcMu

open Hrd (HrdEncoderSample HrdSamples decodeHrdSamples encoderSample word kHrdTrackMask)
open List (Forall₂ IsChain)

def kCountsPerPeriod : ℤ := 16384

def ringStep (previous current : HrdEncoderSample) : ℤ :=
  let step : ℤ := current.masterCount.toNat - previous.masterCount.toNat
  if step ≥ kCountsPerPeriod / 2 then step - kCountsPerPeriod
  else if step < -kCountsPerPeriod / 2 then step + kCountsPerPeriod
  else step

/-- The loop over the samples, from a sum on. -/
def accumulate (position : ℤ) : List HrdEncoderSample → ℤ
  | previous :: current :: rest =>
    accumulate (position + ringStep previous current) (current :: rest)
  | _ => position

def recordedPosition (samples : List HrdEncoderSample) : ℤ := accumulate 0 samples

def icMuRecordedRingRevolutions (samples : List HrdEncoderSample) (masterPolePairs : BitVec 8) :
    ℚ :=
  if samples = [] ∨ masterPolePairs = 0 then 0
  else |recordedPosition samples| / ((kCountsPerPeriod * masterPolePairs.toNat : ℤ) : ℚ)

/-- The sample is one of the ring at a position. -/
def At (position : ℤ) (sample : HrdEncoderSample) : Prop :=
  (sample.masterCount.toNat : ℤ) = position % kCountsPerPeriod
  deriving Decidable

/-- Two positions less than half a period apart, half a period down included. -/
def Near (p q : ℤ) : Prop := -8192 ≤ q - p ∧ q - p ≤ 8191
  deriving Decidable

variable {p q : ℤ} {a b : HrdEncoderSample} {samples : List HrdEncoderSample}

theorem ringStep_eq (ha : At p a) (hb : At q b) (h : Near p q) : ringStep a b = q - p := by
  unfold At kCountsPerPeriod at ha hb
  unfold Near at h
  -- The counts differ from the positions by multiples of the period, so the steps do too.
  unfold ringStep kCountsPerPeriod
  dsimp only
  split
  · omega
  · split <;> omega

theorem natAbs_ringStep_le (ha : a.masterCount.toNat < 16384) (hb : b.masterCount.toNat < 16384) :
    (ringStep a b).natAbs ≤ 8192 := by
  unfold ringStep kCountsPerPeriod
  dsimp only
  split
  · omega
  · split <;> omega

/-- The sum stays in 64 bits for every recording of fewer than `2 ^ 50` samples. -/
theorem natAbs_accumulate_le (position : ℤ) :
    ∀ samples : List HrdEncoderSample, (∀ s ∈ samples, s.masterCount.toNat < 16384) →
      (accumulate position samples).natAbs ≤ position.natAbs + 8192 * samples.length := by
  intro samples
  induction samples generalizing position with
  | nil =>
    simp [accumulate]
  | cons a rest ih =>
    intro h
    cases rest with
    | nil =>
      simp only [accumulate]
      omega
    | cons b rest =>
      have hstep := natAbs_ringStep_le (h a (by simp)) (h b (by simp))
      have hrest := ih (position + ringStep a b) (by
        intro s hs
        exact h s (List.mem_cons_of_mem a hs))
      have hsum := Int.natAbs_add_le position (ringStep a b)
      calc (accumulate (position + ringStep a b) (b :: rest)).natAbs
          ≤ (position + ringStep a b).natAbs + 8192 * (b :: rest).length := hrest
        _ ≤ position.natAbs + 8192 + 8192 * (b :: rest).length :=
          Nat.add_le_add_right (hsum.trans (Nat.add_le_add_left hstep _)) _
        _ = position.natAbs + 8192 * (a :: b :: rest).length := by
          rw [List.length_cons (a := a), Nat.mul_succ, Nat.add_assoc, Nat.add_comm 8192]

variable {rest : List ℤ}

theorem accumulate_eq (position : ℤ)
    (hsamples : Forall₂ At (p :: rest) samples) (hnear : IsChain Near (p :: rest)) :
    accumulate position samples =
      position + ((p :: rest).getLast (List.cons_ne_nil p rest) - p) := by
  induction rest generalizing p samples position with
  | nil =>
    obtain ⟨a, _, -, hnil, rfl⟩ := List.forall₂_cons_left_iff.mp hsamples
    cases hnil
    simp [accumulate]
  | cons q rest ih =>
    obtain ⟨a, _, ha, htail, rfl⟩ := List.forall₂_cons_left_iff.mp hsamples
    obtain ⟨b, others, hb, -, rfl⟩ := List.forall₂_cons_left_iff.mp htail
    obtain ⟨hpq, hrest⟩ := List.isChain_cons_cons.mp hnear
    have hstep := ringStep_eq ha hb hpq
    have hsum := ih (position + ringStep a b) htail hrest
    simp only [accumulate, List.getLast_cons_cons]
    omega

theorem recordedPosition_last (hsamples : Forall₂ At (p :: rest) samples)
    (hnear : IsChain Near (p :: rest)) :
    recordedPosition samples = (p :: rest).getLast (List.cons_ne_nil p rest) - p := by
  have h := accumulate_eq 0 hsamples hnear
  unfold recordedPosition
  omega

theorem icMuRecordedRingRevolutions_last {masterPolePairs : BitVec 8}
    (hsamples : Forall₂ At (p :: rest) samples) (hnear : IsChain Near (p :: rest))
    (hpairs : masterPolePairs ≠ 0) :
    icMuRecordedRingRevolutions samples masterPolePairs =
      |(p :: rest).getLast (List.cons_ne_nil p rest) - p| /
        ((kCountsPerPeriod * masterPolePairs.toNat : ℤ) : ℚ) := by
  have hsome : ¬ (samples = [] ∨ masterPolePairs = 0) := by
    rintro (rfl | hzero)
    · cases hsamples
    · exact hpairs hzero
  rw [icMuRecordedRingRevolutions, if_neg hsome, recordedPosition_last hsamples hnear]

/-- The positions of a ring that moves less than half a period between samples are followed from the
first to the last, and their distance is what is divided by the counts of a revolution. -/
theorem recordedPosition_eq {rest : List ℤ} (hsamples : Forall₂ At (p :: rest) samples)
    (hnear : IsChain Near (p :: rest)) :
    recordedPosition samples = (p :: rest).getLast (List.cons_ne_nil p rest) - p ∧
      ∀ masterPolePairs : BitVec 8, masterPolePairs ≠ 0 →
        icMuRecordedRingRevolutions samples masterPolePairs =
          |(p :: rest).getLast (List.cons_ne_nil p rest) - p| /
            ((kCountsPerPeriod * masterPolePairs.toNat : ℤ) : ℚ) := by
  refine ⟨recordedPosition_last hsamples hnear, ?_⟩
  intro masterPolePairs hpairs
  exact icMuRecordedRingRevolutions_last hsamples hnear hpairs

/-- Over the end of a period and back, with the longest step in each direction. -/
theorem recordedPosition_there_and_back :
    recordedPosition [⟨0, 16380, 0⟩, ⟨0, 6, 0⟩, ⟨0, 8197, 0⟩, ⟨0, 5, 0⟩] =
      [16380, 16390, 24581, 16389].getLast (List.cons_ne_nil _ _) - 16380 := by
  refine (recordedPosition_eq ?_ (by decide)).1
  exact .cons (by decide) (.cons (by decide) (.cons (by decide) (.cons (by decide) .nil)))

/-! ### Recordings of a drive -/

theorem masterCount_encoderSample (bytes : List (BitVec 8)) (i : ℕ) :
    (encoderSample bytes i).masterCount.toNat = (encoderSample bytes i).raw.toNat % 16384 := by
  have hmask : (word bytes i &&& kHrdTrackMask).toNat = (word bytes i).toNat % 16384 := by
    exact Nat.and_two_pow_sub_one_eq_mod _ 14
  show ((word bytes i &&& kHrdTrackMask).setWidth 16).toNat = (word bytes i).toNat % 16384
  rw [BitVec.toNat_setWidth, hmask]
  omega

variable {bytes : List (BitVec 8)}

theorem masterCount_of_decode
    (h : decodeHrdSamples bytes .kEncoderRawData = .encoder samples) :
    ∀ s ∈ samples, s.masterCount.toNat = s.raw.toNat % 16384 := by
  intro s hs
  cases h
  obtain ⟨i, -, rfl⟩ := List.mem_map.mp hs
  exact masterCount_encoderSample bytes i

/-- No recording that fits into memory overflows the 64 bits of the sum. -/
theorem natAbs_recordedPosition_lt
    (h : decodeHrdSamples bytes .kEncoderRawData = .encoder samples)
    (hlength : samples.length < 0x4000000000000) :
    (recordedPosition samples).natAbs < 0x8000000000000000 := by
  have hle := natAbs_accumulate_le 0 samples (by
    intro s hs
    rw [masterCount_of_decode h s hs]
    exact Nat.mod_lt _ (by decide))
  unfold recordedPosition
  omega

/-- What is returned for the recording of a ring that turns through the positions. -/
theorem icMuRecordedRingRevolutions_decode
    {masterPolePairs : BitVec 8}
    (h : decodeHrdSamples bytes .kEncoderRawData = .encoder samples)
    (hraw : Forall₂ (fun p (s : HrdEncoderSample) => (s.raw.toNat : ℤ) % 16384 = p % 16384)
      (p :: rest) samples)
    (hnear : IsChain Near (p :: rest)) (hpairs : masterPolePairs ≠ 0) :
    icMuRecordedRingRevolutions samples masterPolePairs =
      |(p :: rest).getLast (List.cons_ne_nil p rest) - p| /
        ((kCountsPerPeriod * masterPolePairs.toNat : ℤ) : ℚ) := by
  have hat : Forall₂ At (p :: rest) samples := by
    have hboth := (List.forall₂_and_left samples (p :: rest)).mpr
      ⟨masterCount_of_decode h, hraw.flip⟩
    refine List.Forall₂.flip (hboth.imp ?_)
    rintro s q ⟨hs, hq⟩
    show (s.masterCount.toNat : ℤ) = q % 16384
    rw [hs]
    exact hq
  exact icMuRecordedRingRevolutions_last hat hnear hpairs

end MotionMaster.IcMu
