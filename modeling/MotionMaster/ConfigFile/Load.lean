import MotionMaster.Cia402.Verdict
import MotionMaster.ConfigFile.Compare
import MotionMaster.ConfigFile.Select
import MotionMaster.Device.Mapping

/-!
# Loading a file

`runConfigFileLoadProcedure` validates a file, writes it to the drive, alone or merged into the
drive's own, lets the drive load it, writes the loaded values of output-mapped objects into the
outputs and compares the drive with the file. Each of the last two goes through the loads row by
row, and the comparison counts every row of an address.
-/

namespace MotionMaster.Config

open Cia402 (State decodeState)

inductive ConfigFileLoadStrategy where
  | kMerge | kReplace
  deriving DecidableEq

structure ConfigFileLoadRequest where
  file : Text
  rows : List Address := []
  strategy : ConfigFileLoadStrategy

inductive LoadStep where
  | validate | readConfigFile | writeConfigFile | load | outputs | verify
  deriving DecidableEq

abbrev Memory := Address → DeviceParameterValue

/-- The device a run talks to, and what it answers. -/
structure LoadDevice where
  createSomanetDrive : Except String Unit
  statusword : Except String (BitVec 16)
  parameter : Address → Option DeviceParameter
  isOutputMapped : Address → Bool
  stopRequested : Bool
  readFile : Except String Text
  writeFile : Text → Except String Unit
  runRestoreDefaultParameters : Except String Unit
  writeParameter : Address → DeviceParameterValue → Except String Unit
  /-- Why an object cannot be read after the load. -/
  unreadable : Address → Option String
  /-- The values before the load. -/
  memory : Memory
  /-- Equality of two floats. -/
  floatEq : BitVec 32 → BitVec 32 → Bool

structure Load where
  address : Address
  value : DeviceParameterValue

structure Differing where
  address : Address
  file : DeviceParameterValue
  live : Except String DeviceParameterValue

structure LoadOutcome where
  loads : List Load
  unknownObject : List Address
  notLoadable : List Address
  written : List Address
  differing : List Differing
  memory : Memory

def configAddress (address : Address) : String := subindexText address.1.toNat address.2.toNat

def stateName : State → String
  | .kNotReadyToSwitchOn => "NotReadyToSwitchOn"
  | .kSwitchOnDisabled => "SwitchOnDisabled"
  | .kReadyToSwitchOn => "ReadyToSwitchOn"
  | .kSwitchedOn => "SwitchedOn"
  | .kOperationEnabled => "OperationEnabled"
  | .kQuickStopActive => "QuickStopActive"
  | .kFaultReactionActive => "FaultReactionActive"
  | .kFault => "Fault"

def isSafetyConfigIndex (index : BitVec 16) : Bool :=
  (0x2600 ≤ index ∧ index ≤ 0x26FF) ∨ (0x6600 ≤ index ∧ index ≤ 0x67EF)

/-- A list of findings, each closed by a semicolon, without the last one. -/
def listed (start : String) (findings : List String) : String :=
  start ++ (String.join (findings.map fun finding => finding ++ ";")).dropEnd 1

section

variable (fa : FloatArithmetic) (device : LoadDevice)

/-- `operator==` of two values. -/
def LoadDevice.equal : DeviceParameterValue → DeviceParameterValue → Bool
  | .number .float a, .number .float b => device.floatEq a b
  | a, b => a = b

/-- What the rows of a file are sorted into. -/
structure Sorted where
  loads : List Load := []
  unknownObject : List Address := []
  notLoadable : List Address := []
  valueErrors : List String := []

def Sorted.add (format : Int) (sorted : Sorted) (row : ConfigFileRow) : Sorted :=
  match device.parameter row.address with
  | none => { sorted with unknownObject := sorted.unknownObject ++ [row.address] }
  | some object =>
    if configRowOutcome row.index (some object) = .loads then
      match parseConfigFileValue fa object row.value format with
      | .ok value => { sorted with loads := sorted.loads ++ [⟨row.address, value⟩] }
      | .error e =>
        { sorted with valueErrors := sorted.valueErrors ++
            [" line " ++ toString row.line ++ ", " ++ configAddress row.address ++ ": " ++ e] }
    else { sorted with notLoadable := sorted.notLoadable ++ [row.address] }

def sortRows (file : ConfigFile) : Sorted :=
  file.rows.foldl (Sorted.add fa device file.format) {}

def selectRows (file : ConfigFile) (rows : List Address) : Except String ConfigFile :=
  if rows = [] then .ok file
  else
    match rows.find? fun address => !file.rows.any (·.address = address) with
    | some address => .error (configAddress address ++ " is not a row of the file")
    | none => .ok (selectConfigFileRows file rows)

def checkState : Except String Unit :=
  match device.statusword with
  | .error e => .error ("reading the statusword failed: " ++ e)
  | .ok statusword =>
    let state := decodeState statusword
    if state ≠ .kSwitchOnDisabled ∧ state ≠ .kFault then
      .error ("the drive is in " ++ stateName state ++ "; it loads a configuration only in " ++
        "Switch On Disabled or Fault, so disable it first")
    else .ok ()

def checkSafety (file : ConfigFile) : Except String Unit :=
  match device.parameter (0xF050, 0) with
  | none => .ok ()
  | some _ =>
    match file.rows.find? fun row => isSafetyConfigIndex row.index with
    | none => .ok ()
    | some row =>
      .error (configAddress row.address ++ " is a safety object, and this drive keeps its " ++
        "safety configuration on a safety module, which has its own load path")

/-- The first step: the file to load, and its rows sorted. -/
def validateLoad (request : ConfigFileLoadRequest) : Except String (ConfigFile × Sorted) := do
  device.createSomanetDrive
  let file := parseConfigFile request.file
  if file.problems ≠ [] then
    .error (listed "the file has lines the drive would ignore or read differently:"
      (file.problems.map fun p => " line " ++ toString p.line ++ ": " ++ p.message))
  else
    let file ← selectRows file request.rows
    if file.rows = [] then .error "the file has no row to load"
    else
      checkState device
      checkSafety device file
      let sorted := sortRows fa device file
      if sorted.valueErrors ≠ [] then
        .error (listed "the file has values that do not fit their objects:" sorted.valueErrors)
      else .ok (file, sorted)

def fileToWrite (strategy : ConfigFileLoadStrategy) (file : ConfigFile) :
    Except String ConfigFile :=
  match strategy with
  | .kReplace => .ok file
  | .kMerge =>
    match device.readFile with
    | .error e => .error ("reading the drive's config.csv failed: " ++ e)
    | .ok bytes => .ok (mergeConfigFiles (parseConfigFile bytes) file)

/-- A drive that loads the last row of an address, and keeps what it cannot read as it was. -/
def loadFile (text : Text) : Memory := fun address =>
  match device.parameter address with
  | none => device.memory address
  | some object =>
    ((effectiveValue fa (parseConfigFile text) address object).getD none).getD
      (device.memory address)

def writeOutputs : List Load → List Address → Memory → Except String (List Address × Memory)
  | [], written, memory => .ok (written, memory)
  | l :: loads, written, memory =>
    if device.isOutputMapped l.address then
      match device.writeParameter l.address l.value with
      | .error e =>
        .error ("writing the loaded value of " ++ configAddress l.address ++
          " into its output failed after " ++ toString written.length ++ " outputs: " ++ e)
      | .ok _ =>
        writeOutputs loads (written ++ [l.address]) (Function.update memory l.address l.value)
    else writeOutputs loads written memory

def differs (memory : Memory) (l : Load) : Option Differing :=
  match device.unreadable l.address with
  | some e => some ⟨l.address, l.value, .error e⟩
  | none =>
    if device.equal (memory l.address) l.value then none
    else some ⟨l.address, l.value, .ok (memory l.address)⟩

def failedIn {α : Type} (step : LoadStep) : Except String α → Except (LoadStep × String) α
  | .ok a => .ok a
  | .error e => .error (step, e)

/-- The first two steps: the rows sorted, and the text to write. -/
def planLoad (request : ConfigFileLoadRequest) : Except (LoadStep × String) (Sorted × Text) := do
  let (file, sorted) ← failedIn .validate (validateLoad fa device request)
  let toWrite ← failedIn .readConfigFile (fileToWrite device request.strategy file)
  .ok (sorted, writeConfigFile toWrite)

def runConfigFileLoadProcedure (request : ConfigFileLoadRequest) :
    Except (LoadStep × String) LoadOutcome := do
  let (sorted, text) ← planLoad fa device request
  failedIn .writeConfigFile
    (if device.stopRequested then .error "cancelled before the file was written" else .ok ())
  failedIn .writeConfigFile ((device.writeFile text).mapError ("writing config.csv failed: " ++ ·))
  failedIn .load device.runRestoreDefaultParameters
  let (written, memory) ←
    failedIn .outputs (writeOutputs device sorted.loads [] (loadFile fa device text))
  .ok {
    loads := sorted.loads
    unknownObject := sorted.unknownObject
    notLoadable := sorted.notLoadable
    written := written
    differing := sorted.loads.filterMap (differs device memory)
    memory := memory }

/-! ### What the verification should say -/

/-- The value the last row of an address denotes in the file of the request. -/
def denoted (request : ConfigFileLoadRequest) (address : Address) : Option DeviceParameterValue :=
  (device.parameter address).bind fun object =>
    (effectiveValue fa (parseConfigFile request.file) address object).getD none

/-- The drive's value is the one the last row denotes. -/
def Matches (request : ConfigFileLoadRequest) (memory : Memory) (address : Address) : Prop :=
  ∃ v, denoted fa device request address = some v ∧ device.equal (memory address) v = true

structure Verified (request : ConfigFileLoadRequest) (outcome : LoadOutcome) : Prop where
  outputs : ∀ l ∈ outcome.loads, device.isOutputMapped l.address = true →
    denoted fa device request l.address = some (outcome.memory l.address)
  differing : ∀ address, (∃ d ∈ outcome.differing, d.address = address) ↔
    (∃ l ∈ outcome.loads, l.address = address) ∧
      ¬Matches fa device request outcome.memory address

def lastLoad (loads : List Load) (address : Address) : Option DeviceParameterValue :=
  (loads.filter (·.address = address)).getLast?.map (·.value)

/-- What the drive ends with: an output the value of the last load, any other object what the drive
reads in the text. -/
def ended (loads : List Load) (text : Text) : Memory := fun address =>
  if device.isOutputMapped address then
    (lastLoad loads address).getD (loadFile fa device text address)
  else loadFile fa device text address

/-- What a row of the file of the request is read as. -/
def rowValue (request : ConfigFileLoadRequest) (row : ConfigFileRow) :
    Option DeviceParameterValue :=
  (device.parameter row.address).bind fun object =>
    (parseConfigFileValue fa object row.value (parseConfigFile request.file).format).toOption

/-- The rows of an address that is loaded all denote one value. -/
def RowsAgree (request : ConfigFileLoadRequest) : Prop :=
  ∀ row ∈ (parseConfigFile request.file).rows, (request.rows = [] ∨ row.address ∈ request.rows) →
    rowValue fa device request row = denoted fa device request row.address
  deriving Decidable

variable {fa device} {request : ConfigFileLoadRequest} {outcome : LoadOutcome}

theorem failedIn_eq_ok {α : Type} {step : LoadStep} {x : Except String α} {a : α} :
    failedIn step x = .ok a ↔ x = .ok a := by
  cases x <;> simp [failedIn]

variable {loads : List Load}

/-- A later load of an address overwrites an earlier one. -/
theorem writeOutputs_eq_ok {written written' : List Address}
    {memory memory' : Memory}
    (h : writeOutputs device loads written memory = .ok (written', memory')) (address : Address) :
    memory' address = if device.isOutputMapped address then
      (lastLoad loads address).getD (memory address) else memory address := by
  induction loads generalizing written memory with
  | nil =>
    cases h
    simp [lastLoad]
  | cons l loads ih =>
    unfold writeOutputs at h
    split_ifs at h with hmapped
    · split at h
      · cases h
      · rw [ih h]
        by_cases hl : l.address = address
        · subst hl
          cases hlast : (loads.filter (·.address = l.address)).getLast? <;>
            simp [hmapped, lastLoad, List.getLast?_cons, hlast]
        · have : Function.update memory l.address l.value address = memory address :=
            Function.update_of_ne (fun he => hl he.symm) _ _
          simp [lastLoad, hl, this]
    · rw [ih h]
      by_cases hl : l.address = address
      · subst hl
        simp [hmapped]
      · simp [lastLoad, hl]

theorem run_eq_ok (h : runConfigFileLoadProcedure fa device request = .ok outcome) :
    ∃ sorted text, planLoad fa device request = .ok (sorted, text) ∧
      outcome.loads = sorted.loads ∧ outcome.memory = ended fa device sorted.loads text ∧
      outcome.differing = sorted.loads.filterMap (differs device outcome.memory) := by
  obtain ⟨⟨sorted, text⟩, hplan, h⟩ := Except.bind_eq_ok h
  obtain ⟨_, -, h⟩ := Except.bind_eq_ok h
  obtain ⟨_, -, h⟩ := Except.bind_eq_ok h
  obtain ⟨_, -, h⟩ := Except.bind_eq_ok h
  obtain ⟨⟨written, memory⟩, houtputs, h⟩ := Except.bind_eq_ok h
  cases h
  refine ⟨sorted, text, hplan, rfl, funext fun address => ?_, rfl⟩
  exact writeOutputs_eq_ok (failedIn_eq_ok.1 houtputs) address

/-- Every row of an address that the drive does not hold is listed. -/
theorem exists_differing_iff (hread : ∀ address, device.unreadable address = none)
    {memory : Memory} {address : Address} :
    (∃ d ∈ loads.filterMap (differs device memory), d.address = address) ↔
      ∃ l ∈ loads, l.address = address ∧ device.equal (memory address) l.value = false := by
  simp only [List.mem_filterMap]
  constructor
  · rintro ⟨d, ⟨l, hl, hd⟩, rfl⟩
    simp only [differs, hread] at hd
    split_ifs at hd with hequal
    cases hd
    exact ⟨l, hl, rfl, by simpa using hequal⟩
  · rintro ⟨l, hl, rfl, hequal⟩
    exact ⟨⟨l.address, l.value, .ok (memory l.address)⟩, ⟨l, hl, by simp [differs, hread, hequal]⟩,
      rfl⟩

variable {l : Load}

theorem mem_of_lastLoad (hl : l ∈ loads) :
    ∃ row ∈ loads, row.address = l.address ∧ lastLoad loads l.address = some row.value := by
  have hne : loads.filter (·.address = l.address) ≠ [] :=
    List.ne_nil_of_mem (List.mem_filter.2 ⟨hl, by simp⟩)
  have hmem := List.mem_filter.1 (List.getLast_mem hne)
  refine ⟨_, hmem.1, of_decide_eq_true hmem.2, ?_⟩
  rw [lastLoad, List.getLast?_eq_getLast_of_ne_nil hne]
  rfl

variable {sorted : Sorted}

/-- What is loaded are values of rows. -/
theorem mem_loads_foldl {format : Int} {rows : List ConfigFileRow}
    (hl : l ∈ (rows.foldl (Sorted.add fa device format) sorted).loads) : l ∈ sorted.loads ∨
      ∃ row ∈ rows, l.address = row.address ∧ ∃ object,
        device.parameter row.address = some object ∧
        parseConfigFileValue fa object row.value format = .ok l.value := by
  induction rows generalizing sorted with
  | nil => exact .inl hl
  | cons row rows ih =>
    rcases ih hl with hl | ⟨row', hrow', hload⟩
    · unfold Sorted.add at hl
      split at hl
      · exact .inl hl
      · rename_i object hobject
        split_ifs at hl
        · split at hl
          · rename_i value hvalue
            rcases List.mem_append.mp hl with hl | hl
            · exact .inl hl
            · cases List.mem_singleton.mp hl
              exact .inr ⟨row, List.mem_cons_self, rfl, object, hobject, hvalue⟩
          · exact .inl hl
        · exact .inl hl
    · exact .inr ⟨row', List.mem_cons_of_mem _ hrow', hload⟩

theorem validateLoad_eq_ok {file : ConfigFile}
    (h : validateLoad fa device request = .ok (file, sorted)) :
    (parseConfigFile request.file).problems = [] ∧
      selectRows (parseConfigFile request.file) request.rows = .ok file ∧
      sorted = sortRows fa device file := by
  obtain ⟨_, -, h⟩ := Except.bind_eq_ok h
  dsimp only at h
  split_ifs at h with hproblems
  obtain ⟨selected, hselected, h⟩ := Except.bind_eq_ok h
  split_ifs at h
  all_goals
    obtain ⟨_, -, h⟩ := Except.bind_eq_ok h
    obtain ⟨_, -, h⟩ := Except.bind_eq_ok h
    cases h
  exact ⟨not_not.mp hproblems, hselected, rfl⟩

/-- A selected file has the format of the request and rows of it. -/
theorem mem_rows_of_selectRows {file : ConfigFile} {row : ConfigFileRow}
    (hproblems : (parseConfigFile request.file).problems = [])
    (h : selectRows (parseConfigFile request.file) request.rows = .ok file)
    (hrow : row ∈ file.rows) : file.format = (parseConfigFile request.file).format ∧
      ∃ row' ∈ (parseConfigFile request.file).rows, row'.content = row.content ∧
        (request.rows = [] ∨ row'.address ∈ request.rows) := by
  unfold selectRows at h
  split_ifs at h with hall
  · cases h
    exact ⟨rfl, row, hrow, rfl, .inl hall⟩
  · split at h
    · cases h
    · cases h
      obtain ⟨hformat, hrows⟩ := selectConfigFileRows_of_problems hproblems request.rows
      obtain ⟨row', hrow', hcontent⟩ :=
        List.mem_map.mp (hrows ▸ List.mem_map_of_mem (f := ConfigFileRow.content) hrow)
      obtain ⟨hmem, hkept⟩ := List.mem_filter.mp hrow'
      exact ⟨hformat, row', hmem, hcontent, .inr (of_decide_eq_true hkept)⟩

/-- Where the rows agree, what is loaded is what the last row of its address denotes. -/
theorem denoted_of_mem_loads (h : RowsAgree fa device request) {text : Text}
    (hplan : planLoad fa device request = .ok (sorted, text)) (hl : l ∈ sorted.loads) :
    denoted fa device request l.address = some l.value := by
  obtain ⟨⟨file, sorted'⟩, hvalid, hplan⟩ := Except.bind_eq_ok hplan
  obtain ⟨toWrite, -, hplan⟩ := Except.bind_eq_ok hplan
  cases hplan
  obtain ⟨hproblems, hselected, rfl⟩ := validateLoad_eq_ok (failedIn_eq_ok.1 hvalid)
  obtain ⟨⟨⟩⟩ | ⟨row, hrow, haddress, object, hobject, hvalue⟩ := mem_loads_foldl hl
  obtain ⟨hformat, row', hrow', hcontent, hkept⟩ :=
    mem_rows_of_selectRows hproblems hselected hrow
  obtain ⟨hindex, hsubindex, htext⟩ := by simpa [ConfigFileRow.content] using hcontent
  have hsame : row'.address = row.address := Prod.ext hindex hsubindex
  have hagree := h row' hrow' hkept
  rw [rowValue, hsame, hobject, htext, ← hformat, Option.bind_some, hvalue] at hagree
  rw [haddress, ← hagree]
  rfl

end

/-- A drive in Switch On Disabled with one object, a byte. -/
def byteDrive : LoadDevice where
  createSomanetDrive := .ok ()
  statusword := .ok 0x40
  parameter address :=
    if address = (0x2000, 0) then
      some { index := 0x2000, subindex := 0, dataType := 0x0005, bitLength := 8, bits := 0
             rawValue := [], syncState := .unknown, metadata := { access := 0x0100 } }
    else none
  isOutputMapped _ := false
  stopRequested := false
  readFile := .ok []
  writeFile _ := .ok ()
  runRestoreDefaultParameters := .ok ()
  writeParameter _ _ := .ok ()
  unreadable _ := none
  memory _ := .number .uint8 0
  floatEq a b := a = b

def repeatedRow : ConfigFileLoadRequest := ⟨ascii "0x2000, 0, 1\n0x2000, 0, 2\n", [], .kReplace⟩

/-- The object twice, written in two ways, and one that is not selected. -/
def sameTwice : ConfigFileLoadRequest :=
  ⟨ascii "0x2000, 0, 2\n0x2001, 0, 7\n0x2000, 0, +2\n", [(0x2000, 0)], .kMerge⟩

end MotionMaster.Config
