import MotionMaster.ConfigFile.Scan

/-!
# Selecting rows

What is left of a file when rows are dropped. The lines stay what they were, but a META line may
come to stand before the first row, and a line with a byte order mark may become the first.
-/

namespace MotionMaster.Config

open Lines

def Scanned.dropped (keep : List Address) : Scanned → Bool
  | .row index subindex _ => !keep.contains (index, subindex)
  | _ => false

section

variable {text : Text} {ls : List Text} {keep : List Address}

/-- The lines that are not dropped, by what each line is. -/
def notDropped (keep : List Address) : List Text → List Scanned → List Text
  | line :: ls, s :: scanned =>
    if s.dropped keep then notDropped keep ls scanned else line :: notDropped keep ls scanned
  | _, _ => []

/-- The rows say of line `number` what the line says. -/
theorem any_rows_eq_dropped {number : ℕ} {before : List ConfigFileRow} {s : Scanned}
    {scanned : List Scanned} (hbefore : ∀ row ∈ before, row.line < number) :
    ((before ++ rowsFrom number (s :: scanned)).any fun row =>
      row.line = number ∧ row.address ∉ keep) = s.dropped keep := by
  have hno : ∀ rows : List ConfigFileRow, (∀ row ∈ rows, row.line ≠ number) →
      (rows.any fun row => row.line = number ∧ row.address ∉ keep) = false := by
    intro rows hrows
    rw [List.any_eq_false]
    intro row hr
    simp [hrows row hr]
  have hfirst := hno before fun row hr => (hbefore row hr).ne
  have hlast := hno (rowsFrom (number + 1) scanned) fun row hr he => by
    have := le_line_of_mem_rowsFrom hr
    omega
  rw [rowsFrom_cons, List.any_append, List.any_append, hfirst, hlast, Bool.false_or, Bool.or_false]
  cases s <;> simp [rowsFrom, Scanned.dropped, ConfigFileRow.address]

/-- The lines `selectConfigFileRows` keeps are those that are not dropped. `before` are the rows of
the lines that have been gone over. -/
theorem filterMap_kept {number : ℕ} {before : List ConfigFileRow} {scanned : List Scanned}
    (hlength : scanned.length = ls.length) (hbefore : ∀ row ∈ before, row.line < number) :
    ((ls.zipIdx number).filterMap fun (line, n) =>
      if (before ++ rowsFrom number scanned).any fun row => row.line = n ∧ row.address ∉ keep then
        none
      else some line) = notDropped keep ls scanned := by
  induction ls generalizing number before scanned with
  | nil =>
    cases scanned with
    | nil => rfl
    | cons s scanned => cases hlength
  | cons line ls ih =>
    cases scanned with
    | nil => cases hlength
    | cons s scanned =>
      have hrest := @ih (number + 1) (before ++ rowsFrom number [s]) scanned (Nat.succ.inj hlength)
        fun row hr => by
          rcases List.mem_append.mp hr with hr | hr
          · exact Nat.lt_succ_of_lt (hbefore row hr)
          · cases s with
            | row index subindex value =>
              rw [List.mem_singleton.mp hr]
              exact Nat.lt_succ_self _
            | _ => cases hr
      rw [List.append_assoc, ← rowsFrom_cons] at hrest
      rw [List.zipIdx_cons, List.filterMap_cons, notDropped]
      simp only [any_rows_eq_dropped hbefore, hrest]
      cases s.dropped keep <;> rfl

theorem keptLines_parseConfigFile : keptLines keep (parseConfigFile text) =
    notDropped keep (lines kLineFeed text) (scan (lines kLineFeed text)) := by
  unfold keptLines
  rw [parseConfigFile_rows, parseConfigFile_lines]
  exact @filterMap_kept _ keep 1 [] _ (length_scan _) (by simp)

theorem notDropped_sublist (keep : List Address) (ls : List Text) (scanned : List Scanned) :
    (notDropped keep ls scanned).Sublist ls := by
  induction ls generalizing scanned with
  | nil => exact List.Sublist.refl _
  | cons line ls ih =>
    cases scanned with
    | nil => exact List.nil_sublist _
    | cons s scanned =>
      rw [notDropped]
      split_ifs
      · exact (ih scanned).cons _
      · exact (ih scanned).cons_cons _

theorem notDropped_map (keep : List Address) (ls : List Text) :
    notDropped keep ls (ls.map scanLine) =
      ls.filter fun line => !(scanLine line).dropped keep := by
  induction ls with
  | nil => rfl
  | cons line ls ih =>
    rw [List.map_cons, notDropped, ih, List.filter_cons]
    cases (scanLine line).dropped keep <;> rfl

theorem selected_lines :
    (parseConfigFile (writeConfigFile
      (selectConfigFileRows (parseConfigFile text) keep))).lines =
        notDropped keep (lines kLineFeed text) (scan (lines kLineFeed text)) := by
  rw [selectConfigFileRows, writeConfigFile_parseConfigFile, parseConfigFile_lines,
    keptLines_parseConfigFile]
  exact ((ruled_lines text).sublist (notDropped_sublist _ _ _)).lines_flatten

/-- The rows kept are the rows of the lines that are not dropped. -/
theorem rowsFrom_kept {scanned : List Scanned} (number : ℕ) :
    (((rowsFrom number scanned).filter fun row => row.address ∈ keep).map (·.content)) =
      (scanned.filter fun s => !s.dropped keep).filterMap (·.content?) := by
  induction scanned generalizing number with
  | nil => rfl
  | cons s scanned ih =>
    cases s with
    | row index subindex value =>
      have haddress : ConfigFileRow.address ⟨number, index, subindex, value⟩ =
          (index, subindex) := rfl
      have hdropped : (Scanned.row index subindex value).dropped keep =
          !decide ((index, subindex) ∈ keep) := by rw [Scanned.dropped, List.contains_eq_mem]
      rw [rowsFrom, List.filter_cons, List.filter_cons, haddress, hdropped]
      by_cases h : (index, subindex) ∈ keep
      · simp only [h, decide_true, Bool.not_true, Bool.not_false, if_true, List.map_cons, ih]
        rfl
      · simp only [h, decide_false, Bool.not_false, Bool.not_true, Bool.false_eq_true, if_false, ih]
    | _ => exact ih _

end

/-! ### Dropping rows -/

/-- The rest of the file once the rows are dropped, read again. -/
def selected (keep : List Address) (text : Text) : ConfigFile :=
  parseConfigFile (writeConfigFile (selectConfigFileRows (parseConfigFile text) keep))

/-- Selecting rows changes nothing else. -/
structure SelectionLaws (keep : List Address) (text : Text) : Prop where
  written : writeConfigFile (parseConfigFile text) = text
  rows : (selected keep text).rows.map (·.content) =
    (((parseConfigFile text).rows.filter fun row => row.address ∈ keep).map (·.content))
  format : (selected keep text).format = (parseConfigFile text).format
  lines : (selected keep text).lines =
    notDropped keep (parseConfigFile text).lines (scan (parseConfigFile text).lines)

/-- The first line is dropped, and the next line that is not starts with a byte order mark and is a
row without it. -/
def Promotes (keep : List Address) (ls : List Text) : Prop :=
  ∃ first rest line others, ls = first :: rest ∧
    (scanLine (stripMark first)).dropped keep = true ∧
    notDropped keep ls (scan ls) = line :: others ∧ kByteOrderMark <+: line ∧
    (scanLine (stripMark line)).isRow = true

/-- What comes to stand before the first row and did not before. -/
def late (keep : List Address) (ls : List Text) : List Scanned :=
  let before := (scan ls).takeWhile fun s => !s.isRow
  ((scan (notDropped keep ls (scan ls))).drop before.length).takeWhile fun s => !s.isRow

section

variable {keep : List Address} {ls : List Text} {first : Text} {rest : List Text}

theorem scan_kept_of_first (h : (scanLine (stripMark first)).dropped keep = false) :
    scan (notDropped keep (first :: rest) (scan (first :: rest))) =
      (scan (first :: rest)).filter fun s => !s.dropped keep := by
  rw [scan, notDropped, h, if_neg (by decide), notDropped_map, scan, List.filter_cons, h,
    List.filter_map]
  rfl

theorem kept_of_first_dropped (h : (scanLine (stripMark first)).dropped keep = true) :
    notDropped keep (first :: rest) (scan (first :: rest)) =
      rest.filter fun line => !(scanLine line).dropped keep := by
  rw [scan, notDropped, if_pos h, notDropped_map]

theorem filter_scan_of_first_dropped (h : (scanLine (stripMark first)).dropped keep = true) :
    (scan (first :: rest)).filter (fun s => !s.dropped keep) =
      (notDropped keep (first :: rest) (scan (first :: rest))).map scanLine := by
  rw [kept_of_first_dropped h, scan, List.filter_cons, h, List.filter_map]
  rfl

theorem isRow_of_content {s : Scanned} : s.content?.isSome = s.isRow := by
  cases s <;> rfl

/-- Taking a mark off the first line adds a row exactly if the line is one without it. -/
theorem contents_scan_iff (line : Text) (others : List Text) :
    (scan (line :: others)).filterMap (·.content?) =
      ((line :: others).map scanLine).filterMap (·.content?) ↔
      ¬ (kByteOrderMark <+: line ∧ (scanLine (stripMark line)).isRow = true) := by
  rw [scan, List.map_cons]
  by_cases hmark : kByteOrderMark <+: line
  · obtain ⟨message, hline⟩ := scanLine_of_mark hmark
    have hignored : (Scanned.ignored message).content? = none := rfl
    rw [hline, ← isRow_of_content, List.filterMap_cons_none hignored]
    cases hcontent : (scanLine (stripMark line)).content? with
    | none =>
      rw [List.filterMap_cons_none hcontent]
      simp
    | some content =>
      rw [List.filterMap_cons_some hcontent]
      refine iff_of_false (fun he => ?_) (by simp [hmark])
      simpa using congrArg List.length he
  · rw [stripMark, if_neg hmark]
    exact iff_of_true rfl fun h => hmark h.1

/-- The rows are those kept unless a line becomes one. -/
theorem contents_kept_iff : (scan (notDropped keep ls (scan ls))).filterMap (·.content?) =
    ((scan ls).filter fun s => !s.dropped keep).filterMap (·.content?) ↔ ¬ Promotes keep ls := by
  cases ls with
  | nil => exact iff_of_true rfl (by rintro ⟨_, _, _, _, h, _⟩; cases h)
  | cons first rest =>
    cases hd : (scanLine (stripMark first)).dropped keep with
    | false =>
      refine iff_of_true (by rw [scan_kept_of_first hd]) ?_
      rintro ⟨_, _, _, _, h, hd', -⟩
      cases h
      rw [hd] at hd'
      cases hd'
    | true =>
      rw [filter_scan_of_first_dropped hd]
      cases hk : notDropped keep (first :: rest) (scan (first :: rest)) with
      | nil => exact iff_of_true rfl (by rintro ⟨_, _, _, _, -, -, h, -⟩; rw [hk] at h; cases h)
      | cons line others =>
        rw [contents_scan_iff]
        refine not_congr ⟨?_, ?_⟩
        · rintro ⟨hmark, hrow⟩
          exact ⟨first, rest, line, others, rfl, hd, hk, hmark, hrow⟩
        · rintro ⟨_, _, _, _, -, -, h, hmark, hrow⟩
          rw [hk] at h
          cases h
          exact ⟨hmark, hrow⟩

/-- What stood before the first row still stands there. -/
theorem scan_kept_eq (keep : List Address) (ls : List Text) : ∃ tail,
    scan (notDropped keep ls (scan ls)) = ((scan ls).takeWhile fun s => !s.isRow) ++ tail := by
  cases ls with
  | nil => exact ⟨[], rfl⟩
  | cons first rest =>
    cases hrow : (scanLine (stripMark first)).isRow with
    | true =>
      refine ⟨scan (notDropped keep (first :: rest) (scan (first :: rest))), ?_⟩
      have hnone : (scan (first :: rest)).takeWhile (fun s => !s.isRow) = [] := by
        rw [scan, List.takeWhile_cons_of_neg (by simp [hrow])]
      rw [hnone, List.nil_append]
    | false =>
      have hkept : (scanLine (stripMark first)).dropped keep = false := by
        cases h : scanLine (stripMark first) with
        | row index subindex value =>
          rw [h] at hrow
          cases hrow
        | _ => rfl
      rw [scan_kept_of_first hkept]
      generalize scan (first :: rest) = scanned
      refine ⟨(scanned.dropWhile fun s => !s.isRow).filter fun s => !s.dropped keep, ?_⟩
      nth_rewrite 1 [← scanned.takeWhile_append_dropWhile (p := fun s => !s.isRow)]
      rw [List.filter_append, List.filter_eq_self.mpr]
      intro s hs
      have hno : s.isRow = false := by simpa using List.mem_takeWhile_imp hs
      cases s with
      | row index subindex value => cases hno
      | _ => rfl

theorem formatFrom_kept (keep : List Address) (ls : List Text) :
    formatFrom 0 (scan (notDropped keep ls (scan ls))) =
      (lastDeclared (late keep ls)).getD (formatFrom 0 (scan ls)) := by
  obtain ⟨tail, htail⟩ := scan_kept_eq keep ls
  have hno : ∀ s ∈ (scan ls).takeWhile fun s => !s.isRow, s.isRow = false := fun s hs => by
    simpa using List.mem_takeWhile_imp hs
  rw [late, htail, formatFrom_append hno, formatFrom_takeWhile, List.drop_left, formatFrom_eq]

end

/-- Selecting rows changes nothing else exactly if no line becomes a row by it, and the last format
declared between the first row and the first row kept, if there is one, is that of the file. -/
theorem selectionLaws_iff (keep : List Address) (text : Text) : SelectionLaws keep text ↔
    ¬ Promotes keep (parseConfigFile text).lines ∧
      ∀ declared ∈ lastDeclared (late keep (parseConfigFile text).lines),
        declared = (parseConfigFile text).format := by
  have hlines : (selected keep text).lines =
      notDropped keep (parseConfigFile text).lines (scan (parseConfigFile text).lines) := by
    rw [selected, selected_lines, parseConfigFile_lines]
  have hpromotes := @contents_kept_iff keep (parseConfigFile text).lines
  have hlate := formatFrom_kept keep (parseConfigFile text).lines
  rw [← hlines] at hpromotes hlate
  have hrows : (selected keep text).rows.map (·.content) =
      ((parseConfigFile text).rows.filter fun row => row.address ∈ keep).map (·.content) ↔
        ¬ Promotes keep (parseConfigFile text).lines := by
    rw [← hpromotes, selected, rows_eq, rows_eq, rowsFrom_content, rowsFrom_kept]
  have hformat : (selected keep text).format = (parseConfigFile text).format ↔
      ∀ declared ∈ lastDeclared (late keep (parseConfigFile text).lines),
        declared = (parseConfigFile text).format := by
    rw [selected, format_eq, format_eq, ← selected, hlate]
    cases lastDeclared (late keep (parseConfigFile text).lines) <;> simp
  constructor
  · intro h
    exact ⟨hrows.mp h.rows, hformat.mp h.format⟩
  · rintro ⟨h, h'⟩
    exact ⟨writeConfigFile_parseConfigFile text, hrows.mpr h, hformat.mpr h', hlines⟩

/-! ### Files without problems -/

section

variable {keep : List Address} {ls : List Text} {number : ℕ} {scanned : List Scanned}
  {file : ConfigFile}

theorem problems_addScanned {s : Scanned} (h : (addScanned number s file).problems = []) :
    file.problems = [] ∧ (∀ message, s ≠ .ignored message) ∧
      (file.rows ≠ [] → s.declared? = none ∧ (addScanned number s file).rows ≠ []) := by
  cases s with
  | declaration format =>
    by_cases hrows : file.rows = []
    · cases format <;> simp_all [addScanned]
    · simp [addScanned, hrows] at h
  | _ => simp_all [addScanned, Scanned.declared?]

theorem clean_of_problems (h : (addAll number scanned file).problems = []) :
    file.problems = [] ∧ (∀ s ∈ scanned, ∀ message, s ≠ .ignored message) ∧
      (file.rows ≠ [] → ∀ s ∈ scanned, s.declared? = none) := by
  induction scanned generalizing number file with
  | nil => exact ⟨h, by simp, by simp⟩
  | cons s scanned ih =>
    obtain ⟨hproblems, hrest, hlate⟩ := ih h
    obtain ⟨hfile, hs, hdeclared⟩ := problems_addScanned hproblems
    refine ⟨hfile, List.forall_mem_cons.mpr ⟨hs, hrest⟩, fun hrows => ?_⟩
    exact List.forall_mem_cons.mpr ⟨(hdeclared hrows).1, hlate (hdeclared hrows).2⟩

theorem formatFrom_of_none (h : ∀ s ∈ scanned, s.declared? = none) (format : Int) :
    formatFrom format scanned = format := by
  rw [formatFrom_eq, lastDeclared, List.filterMap_eq_nil_iff.mpr]
  · rfl
  · exact fun s hs => h s (List.takeWhile_prefix _ |>.mem hs)

/-- No format is declared behind the first row, so dropping rows does not change it. -/
theorem formatFrom_filter (h : (addAll number scanned file).problems = []) (format : Int) :
    formatFrom format (scanned.filter fun s => !s.dropped keep) = formatFrom format scanned := by
  induction scanned generalizing number file format with
  | nil => rfl
  | cons s scanned ih =>
    rw [addAll] at h
    have hrest := ih h
    cases s with
    | row index subindex value =>
      have hnone := (clean_of_problems h).2.2 (by simp [addScanned])
      rw [List.filter_cons]
      split
      · rfl
      · exact formatFrom_of_none (fun s hs => hnone s (List.mem_of_mem_filter hs)) format
    | declaration declared => cases declared <;> exact hrest _
    | _ => exact hrest format

theorem scan_kept_of_clean (h : ∀ s ∈ scan ls, ∀ message, s ≠ .ignored message) :
    scan (notDropped keep ls (scan ls)) = (scan ls).filter fun s => !s.dropped keep := by
  cases ls with
  | nil => rfl
  | cons first rest =>
    cases hd : (scanLine (stripMark first)).dropped keep with
    | false => exact scan_kept_of_first hd
    | true =>
      rw [filter_scan_of_first_dropped hd, kept_of_first_dropped hd]
      cases hk : rest.filter fun line => !(scanLine line).dropped keep with
      | nil => rfl
      | cons line others =>
        have hmem : line ∈ rest := List.mem_of_mem_filter (hk ▸ List.mem_cons_self)
        have hmark : ¬ kByteOrderMark <+: line := fun hmark => by
          obtain ⟨message, hline⟩ := scanLine_of_mark hmark
          exact h _ (List.mem_cons_of_mem _ (List.mem_map_of_mem hmem)) message hline
        rw [scan, stripMark, if_neg hmark, List.map_cons]

/-- In a file without problems the rows kept are rows of the file, read in its format. -/
theorem selectConfigFileRows_of_problems {text : Text} (h : (parseConfigFile text).problems = [])
    (keep : List Address) :
    (selectConfigFileRows (parseConfigFile text) keep).format = (parseConfigFile text).format ∧
      (selectConfigFileRows (parseConfigFile text) keep).rows.map (·.content) =
        ((parseConfigFile text).rows.filter fun row => row.address ∈ keep).map (·.content) := by
  have hclean : ∀ s ∈ scan (lines kLineFeed text), ∀ message, s ≠ .ignored message :=
    (clean_of_problems h).2.1
  have hlines := @selected_lines text keep
  rw [selectConfigFileRows, writeConfigFile_parseConfigFile] at hlines
  rw [selectConfigFileRows, format_eq, rows_eq, hlines, scan_kept_of_clean hclean,
    parseConfigFile_format, parseConfigFile_rows, rowsFrom_content, rowsFrom_kept]
  exact ⟨formatFrom_filter h 0, rfl⟩

end

/-- A row, a format declared too late, and a row with a value that has a point. -/
def lateFormat : Text := ascii "0x2000, 0, 1\nMETA,FORMAT,1\n0x2001, 0, 0.5\n"

theorem lateFormat_formats : (parseConfigFile lateFormat).format = 0 ∧
    (selected [(0x2001, 0)] lateFormat).format = 1 := by
  decide +kernel

/-- Without the first row the declaration counts: 0.5 is read as half, not as 0.0000000005. -/
theorem lateFormat_not_selectionLaws : ¬ SelectionLaws [(0x2001, 0)] lateFormat := by
  intro h
  have hformat := h.format
  rw [lateFormat_formats.1, lateFormat_formats.2] at hformat
  cases hformat

end MotionMaster.Config
