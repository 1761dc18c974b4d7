import MotionMaster.Device.Parameters

/-!
# Reading one parameter

`Device::readParameter`: from the process image, from the cache, or by an SDO upload that is
committed against the cell as it is when the reply is back.
-/

namespace MotionMaster

namespace DeviceParameter

def receive (p : DeviceParameter) (bytes : List (BitVec 8)) : DeviceParameter :=
  { p.setRawValue bytes with syncState := .synced }

/-- A changed type means a different object, which is left alone. -/
def markReadFailedAs (p : DeviceParameter) (declaredType : ℕ) : DeviceParameter :=
  if p.dataType = declaredType then p.markReadFailed else p

def reenumeratedText (slavePosition : ℕ) (p : DeviceParameter) : String :=
  "device " ++ toString slavePosition ++ ": " ++ parameterText p.index p.subindex ++
    " was re-enumerated during the read — retry"

/-- What the reply to an upload does to the cell. `declaredType` is from before the upload. -/
def commitRead (slavePosition : ℕ) (p : DeviceParameter) (declaredType : ℕ)
    (reply : Except String (List (BitVec 8))) :
    Except String DeviceParameterValue × DeviceParameter :=
  match reply with
  | .error e => (.error e, p.markReadFailedAs declaredType)
  | .ok bytes =>
    match decodeSdoBytes declaredType bytes with
    | .error e => (.error e, p.markReadFailedAs declaredType)
    | .ok v =>
      if p.dataType = declaredType then (.ok v, p.receive bytes)
      else (.error (p.reenumeratedText slavePosition), p)

def commitWrite (p : DeviceParameter) (written : Except String Unit) : DeviceParameter :=
  match written with
  | .ok _ => { p with syncState := .synced }
  | .error _ => { p with syncState := .pending }

variable {p : DeviceParameter} {bytes : List (BitVec 8)}

theorem syncState_markReadFailed_ne : p.markReadFailed.syncState ≠ .synced := by
  unfold markReadFailed
  split
  · exact SyncState.noConfusion
  · assumption

/-- A failed read may mark the cell. A successful one replaces its value. -/
theorem commitRead_cases (slavePosition : ℕ) (p : DeviceParameter) (declaredType : ℕ)
    (reply : Except String (List (BitVec 8))) :
    (p.commitRead slavePosition declaredType reply).2 = p ∨
      (p.commitRead slavePosition declaredType reply).2 = p.markReadFailed ∨
      ∃ bytes v, reply = .ok bytes ∧ decodeSdoBytes p.dataType bytes = .ok v ∧
        (p.commitRead slavePosition declaredType reply).2 = p.receive bytes := by
  have hfailed : p.markReadFailedAs declaredType = p ∨
      p.markReadFailedAs declaredType = p.markReadFailed := by
    unfold markReadFailedAs
    split
    · exact .inr rfl
    · exact .inl rfl
  cases reply with
  | error e => exact hfailed.imp id .inl
  | ok bytes =>
    unfold commitRead
    cases hd : decodeSdoBytes declaredType bytes with
    | error e => simpa only [hd] using hfailed.imp id .inl
    | ok v =>
      by_cases ht : p.dataType = declaredType
      · subst ht
        exact .inr (.inr ⟨bytes, v, rfl, hd, by simp only [hd, if_true]⟩)
      · exact .inl (by simp only [hd, if_neg ht])

end DeviceParameter

namespace Device

/-- `pdo` is what `readPdo` has for the object while the device exchanges process data, and `reply`
the outcome of the SDO upload, should there be one. -/
def readParameter (d : Device) (pdo : Option (List (BitVec 8))) (mailboxActive : Bool)
    (reply : Except String (List (BitVec 8))) (index subindex : ℕ) :
    Except String DeviceParameterValue × Device :=
  match d.findParameter index subindex, d.parameter index subindex with
  | some k, some p =>
    match pdo with
    | some bytes =>
      match decodeSdoBytes p.dataType bytes with
      | .error e => (.error e, { d with cells := d.cells.set k p.markReadFailed })
      | .ok v => (.ok v, { d with cells := d.cells.set k (p.receive bytes) })
    | none =>
      if mailboxActive then
        let committed := p.commitRead d.slavePosition p.dataType reply
        (committed.1, { d with cells := d.cells.set k committed.2 })
      else (.ok p.currentValue, d)
  | _, _ => (.error (d.notFoundText index subindex), d)

end Device

end MotionMaster
