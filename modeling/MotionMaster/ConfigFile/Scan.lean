import MotionMaster.ConfigFile.Parse

/-!
# What the lines of a file say

The rows and the format of a file, read off its lines. A line is what it is wherever it stands, with
two exceptions: a META line counts only before the first row, and a byte order mark is taken off the
first line only.
-/

namespace MotionMaster.Config

open Lines

def Scanned.isRow : Scanned → Bool
  | .row .. => true
  | _ => false

/-- The rows among the lines, the first of them numbered `number`. -/
def rowsFrom : ℕ → List Scanned → List ConfigFileRow
  | _, [] => []
  | number, .row index subindex value :: rest =>
    ⟨number, index, subindex, value⟩ :: rowsFrom (number + 1) rest
  | number, _ :: rest => rowsFrom (number + 1) rest

/-- The last number a META,FORMAT line gives before the first row. -/
def formatFrom (format : Int) : List Scanned → Int
  | [] => format
  | .row .. :: _ => format
  | .declaration (some declared) :: rest => formatFrom declared rest
  | _ :: rest => formatFrom format rest

section

variable {number : ℕ} {scanned : List Scanned} {file : ConfigFile}

theorem addAll_lines : (addAll number scanned file).lines = file.lines := by
  induction scanned generalizing number file with
  | nil => rfl
  | cons s scanned ih =>
    refine ih.trans ?_
    cases s with
    | declaration format =>
      cases format <;> simp only [addScanned] <;> split <;> rfl
    | _ => rfl

theorem addAll_rows : (addAll number scanned file).rows = file.rows ++ rowsFrom number scanned := by
  induction scanned generalizing number file with
  | nil => simp [addAll, rowsFrom]
  | cons s scanned ih =>
    rw [addAll, ih]
    cases s with
    | declaration format =>
      cases format <;> simp only [addScanned] <;> split <;> rfl
    | row index subindex value => simp [addScanned, rowsFrom]
    | _ => rfl

theorem addAll_format_of_rows (h : file.rows ≠ []) :
    (addAll number scanned file).format = file.format := by
  induction scanned generalizing number file with
  | nil => rfl
  | cons s scanned ih =>
    cases s with
    | declaration format =>
      cases format <;> simp only [addAll, addScanned, if_pos h] <;> exact ih h
    | row index subindex value => exact ih (by simp [addScanned])
    | _ => exact ih h

theorem addAll_format (h : file.rows = []) :
    (addAll number scanned file).format = formatFrom file.format scanned := by
  induction scanned generalizing number file with
  | nil => rfl
  | cons s scanned ih =>
    cases s with
    | declaration format =>
      cases format <;> simp only [addAll, addScanned, h, ne_eq, not_true_eq_false, if_false]
      · exact ih rfl
      · exact ih rfl
    | row index subindex value =>
      change (addAll (number + 1) scanned (addScanned number _ file)).format = file.format
      exact addAll_format_of_rows (by simp [addScanned])
    | _ => exact ih h

end

variable {text : Text}

theorem parseConfigFile_lines : (parseConfigFile text).lines = lines kLineFeed text :=
  addAll_lines

theorem parseConfigFile_rows :
    (parseConfigFile text).rows = rowsFrom 1 (scan (lines kLineFeed text)) :=
  addAll_rows

theorem parseConfigFile_format :
    (parseConfigFile text).format = formatFrom 0 (scan (lines kLineFeed text)) :=
  addAll_format rfl

theorem rows_eq (text : Text) :
    (parseConfigFile text).rows = rowsFrom 1 (scan (parseConfigFile text).lines) := by
  rw [parseConfigFile_rows, parseConfigFile_lines]

theorem format_eq (text : Text) :
    (parseConfigFile text).format = formatFrom 0 (scan (parseConfigFile text).lines) := by
  rw [parseConfigFile_format, parseConfigFile_lines]

/-- A file written back is the file that was read. -/
theorem writeConfigFile_parseConfigFile (text : Text) :
    writeConfigFile (parseConfigFile text) = text := by
  rw [writeConfigFile, parseConfigFile_lines, flatten_lines]

theorem length_scan (ls : List Text) : (scan ls).length = ls.length := by
  cases ls with
  | nil => rfl
  | cons first rest => simp [scan]

theorem le_line_of_mem_rowsFrom {number : ℕ} {scanned : List Scanned} {row : ConfigFileRow}
    (h : row ∈ rowsFrom number scanned) : number ≤ row.line := by
  induction scanned generalizing number with
  | nil => cases h
  | cons s scanned ih =>
    cases s with
    | row index subindex value =>
      rcases List.mem_cons.mp h with rfl | h
      · exact le_rfl
      · exact Nat.le_of_succ_le (ih h)
    | _ => exact Nat.le_of_succ_le (ih h)

theorem rowsFrom_cons (number : ℕ) (s : Scanned) (scanned : List Scanned) :
    rowsFrom number (s :: scanned) = rowsFrom number [s] ++ rowsFrom (number + 1) scanned := by
  cases s <;> rfl

/-! ### Rows and formats of lines -/

abbrev Content := BitVec 16 × BitVec 8 × Text

def ConfigFileRow.content (row : ConfigFileRow) : Content := (row.index, row.subindex, row.value)

def Scanned.content? : Scanned → Option Content
  | .row index subindex value => some (index, subindex, value)
  | _ => none

def Scanned.declared? : Scanned → Option Int
  | .declaration format => format
  | _ => none

def lastDeclared (scanned : List Scanned) : Option Int := (scanned.filterMap (·.declared?)).getLast?

section

variable {scanned pre : List Scanned}

theorem rowsFrom_content (number : ℕ) :
    (rowsFrom number scanned).map (·.content) = scanned.filterMap (·.content?) := by
  induction scanned generalizing number with
  | nil => rfl
  | cons s scanned ih =>
    cases s with
    | row index subindex value =>
      rw [rowsFrom, List.map_cons, ih]
      rfl
    | _ => exact ih _

theorem formatFrom_append (h : ∀ s ∈ pre, s.isRow = false) (format : Int) :
    formatFrom format (pre ++ scanned) = formatFrom (formatFrom format pre) scanned := by
  induction pre generalizing format with
  | nil => rfl
  | cons s pre ih =>
    have hs := h s List.mem_cons_self
    have hpre : ∀ s ∈ pre, s.isRow = false := fun s hm => h s (List.mem_cons_of_mem _ hm)
    cases s with
    | row index subindex value => cases hs
    | declaration declared => cases declared <;> exact ih hpre _
    | _ => exact ih hpre _

/-- Only what stands before the first row counts, and of that the last. -/
theorem formatFrom_eq (format : Int) :
    formatFrom format scanned =
      (lastDeclared (scanned.takeWhile fun s => !s.isRow)).getD format := by
  induction scanned generalizing format with
  | nil => rfl
  | cons s scanned ih =>
    cases s with
    | row index subindex value => rfl
    | declaration declared =>
      cases declared with
      | none => exact ih format
      | some declared =>
        rw [formatFrom, ih]
        simp only [lastDeclared, List.takeWhile_cons, Scanned.isRow, Bool.not_false, if_true,
          List.filterMap_cons, Scanned.declared?, List.getLast?_cons]
        rfl
    | _ => exact ih format

theorem formatFrom_takeWhile (format : Int) :
    formatFrom format (scanned.takeWhile fun s => !s.isRow) = formatFrom format scanned := by
  rw [formatFrom_eq, formatFrom_eq, List.takeWhile_takeWhile]
  simp

end

/-! ### Byte order marks -/

section

variable {p : BitVec 8 → Bool} {x : BitVec 8} {front back : Text}

/-- Nothing is taken off the end beyond a character that stays. -/
theorem rdropWhile_append (h : p x = false) :
    (front ++ [x] ++ back).rdropWhile p = front ++ [x] ++ back.rdropWhile p := by
  induction back using List.reverseRecOn with
  | nil => simp [h]
  | append_singleton back y ih =>
    rw [← List.append_assoc, List.rdropWhile_concat, List.rdropWhile_concat]
    split_ifs
    · exact ih
    · simp

theorem splitFields_cons (h : x ≠ byte ',') (rest : Text) :
    ∃ field fields, splitFields rest = field :: fields ∧
      splitFields (x :: rest) = (x :: field) :: fields := by
  have hx : (x == byte ',') = false := beq_eq_false_iff_ne.mpr h
  obtain ⟨field, fields, hf⟩ :=
    List.exists_cons_of_ne_nil (List.splitOnP_ne_nil (· == byte ',') rest)
  refine ⟨field, fields, hf, ?_⟩
  rw [splitFields, List.splitOn, List.splitOnP_cons_eq_if_modifyHead, hx, hf]
  rfl

end

theorem trim_cons {x : BitVec 8} (h : isWhite x = false) (text : Text) :
    trim (x :: text) = x :: text.rdropWhile isWhite := by
  have hleft : trimLeft (x :: text) = [] ++ [x] ++ text := by
    simp [trimLeft, h]
  rw [trim, hleft, rdropWhile_append h]
  rfl

theorem parseIndex_mark (text : Text) : parseIndex (0xEF :: text) = none := by
  rw [parseIndex, trim_cons (by decide)]
  rfl

/-- A line whose first character is none of those that mean something else has fields. -/
theorem scanLine_eq_scanFields {line rest : Text} {c : BitVec 8}
    (hstrip : stripEnd line = c :: rest)
    (hc : isWhite c = false ∧ c ≠ byte '#' ∧ c ≠ byte 'M' ∧ c ≠ byte ',') :
    scanLine line = scanFields (splitFields (c :: rest.takeWhile (· ≠ byte '#'))) := by
  obtain ⟨hwhite, hhash, hm, hcomma⟩ := hc
  have htrim : trim (c :: rest) ≠ [] := by
    rw [trim_cons hwhite]
    exact List.cons_ne_nil _ _
  have hhead : (c :: rest).head? ≠ some (byte '#') := fun he => hhash (Option.some.inj he)
  have htake : (c :: rest).takeWhile (fun x => x ≠ byte '#') =
      c :: rest.takeWhile (fun x => x ≠ byte '#') :=
    List.takeWhile_cons_of_pos (by simpa using hhash)
  obtain ⟨field, fields, -, hfields⟩ :=
    splitFields_cons hcomma (rest.takeWhile (fun x => x ≠ byte '#'))
  have hmeta : (splitFields (c :: rest.takeWhile (fun x => x ≠ byte '#'))).head? ≠
      some (ascii "META") := by
    rw [hfields]
    intro he
    exact hm (List.cons.inj (Option.some.inj he)).1
  simp only [scanLine, hstrip, if_neg htrim, if_neg hhead, htake, if_neg hmeta]

/-- A line that starts with a byte order mark is nothing the drive reads, unless it is the first. -/
theorem scanLine_of_mark {line : Text} (h : kByteOrderMark <+: line) :
    ∃ message, scanLine line = .ignored message := by
  obtain ⟨tail, rfl⟩ := h
  have hstrip : stripEnd (kByteOrderMark ++ tail) = 0xEF :: 0xBB :: 0xBF :: stripEnd tail :=
    @rdropWhile_append _ 0xBF [0xEF, 0xBB] tail (by decide)
  rw [scanLine_eq_scanFields hstrip (by decide)]
  obtain ⟨field, fields, -, hfields⟩ := @splitFields_cons 0xEF (by decide)
    ((0xBB :: 0xBF :: stripEnd tail).takeWhile (· ≠ byte '#'))
  rw [hfields]
  rcases fields with _ | ⟨subindex, _ | ⟨value, _ | ⟨more, fields⟩⟩⟩
  · exact ⟨_, rfl⟩
  · exact ⟨_, rfl⟩
  · rw [scanFields, parseIndex_mark]
    exact ⟨_, rfl⟩
  · exact ⟨_, rfl⟩

end MotionMaster.Config
