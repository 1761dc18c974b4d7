import MotionMaster.Hrd.Recording

/-!
# File lists parse back

A line of the file list is a name, a comma and a size. The name may hold commas and texts that look
like sizes. The parser still finds the comma before the size: nothing after it holds a comma, and a
text with a comma in it is never read as a size.
-/

namespace MotionMaster.Hrd

open Config (Text byte ascii digitOf parseWhole)

/-! ### What a device writes -/

structure FileName where
  text : Text
  nonempty : text ≠ []
  noLineEnd : ∀ c ∈ text, c ≠ 0x0A ∧ c ≠ 0x0D
  first : isBlank (text.head nonempty) = false
  last : isBlank (text.getLast nonempty) = false

structure ListedFile where
  name : FileName
  size : BitVec 64

inductive Row where
  | blank (spaces : Text) (all : ∀ c ∈ spaces, isBlank c = true)
  | file (listed : ListedFile)

inductive Ending where
  | lf
  | crlf
  deriving DecidableEq

def decimal (n : ℕ) : Text := (Nat.toDigits 10 n).map byte

def sizeText (n : ℕ) : Text := ascii " size: " ++ decimal n

def ListedFile.text (file : ListedFile) : Text :=
  file.name.text ++ byte ',' :: sizeText file.size.toNat

def Row.text : Row → Text
  | .blank spaces _ => spaces
  | .file listed => listed.text

def Ending.before : Ending → Text
  | lf => []
  | crlf => [0x0D]

def render (rows : List (Row × Ending)) : Text :=
  rows.flatMap fun row => row.1.text ++ row.2.before ++ [0x0A]

def Row.listed : Row → Option DeviceFile
  | .blank _ _ => none
  | .file listed => some ⟨listed.name.text, some listed.size.toNat⟩

/-! ### Digits -/

variable {c : BitVec 8} {n : ℕ} {text rest : Text}

theorem digitOf_byte {c : Char} (h : c.isDigit = true) :
    digitOf 10 (byte c) = some (c.toNat - 0x30) := by
  simp only [Char.isDigit, ge_iff_le, Bool.and_eq_true, decide_eq_true_eq] at h
  have hlow : 0x30 ≤ c.toNat := h.1
  have hhigh : c.toNat ≤ 0x39 := h.2
  have hn : (byte c).toNat = c.toNat := by
    rw [byte, BitVec.toNat_ofNat]
    omega
  simp only [digitOf, hn, hlow, hhigh, and_self, if_true, Option.filter]
  rw [if_pos]
  simp only [decide_eq_true_eq]
  omega

theorem digitOf_of_mem_decimal (h : c ∈ decimal n) : (digitOf 10 c).isSome = true := by
  obtain ⟨d, hd, rfl⟩ := List.mem_map.mp h
  rw [digitOf_byte (Nat.isDigit_of_mem_toDigits (by decide) (by decide) hd)]
  rfl

theorem decimal_ne_nil (n : ℕ) : decimal n ≠ [] := by
  intro h
  exact Nat.toDigits_ne_nil (List.map_eq_nil_iff.mp h)

theorem mapM_digitOf_byte {chars : List Char} (h : ∀ c ∈ chars, c.isDigit = true) :
    (chars.map byte).mapM (digitOf 10) = some (chars.map fun c => c.toNat - 0x30) := by
  induction chars with
  | nil => rfl
  | cons c chars ih =>
    have htail := ih fun d hd => h d (List.mem_cons_of_mem c hd)
    rw [List.map_cons, List.mapM_cons, htail, digitOf_byte (h c List.mem_cons_self)]
    rfl

theorem parseWhole_decimal (h : n < 0x10000000000000000) :
    parseWhole .uint64 10 (decimal n) = some (n : Int) := by
  have hdigits : (decimal n).mapM (digitOf 10) = _ := mapM_digitOf_byte fun c hc =>
    Nat.isDigit_of_mem_toDigits (by decide) (by decide) hc
  have hvalue :
      Nat.ofDigits 10 ((Nat.toDigits 10 n).map fun c => c.toNat - 0x30).reverse = n := by
    rw [Nat.ofDigits_eq_foldr, List.foldr_reverse, List.foldl_map]
    calc _ = Nat.ofDigitChars 10 (Nat.toDigits 10 n) 0 := by
          rw [Nat.ofDigitChars_eq_foldl]
          simp only [Nat.add_comm (10 * _)]
          rfl
      _ = n := Nat.ofDigitChars_ten_toDigits
  have hsome : (Nat.toDigits 10 n).map (fun c => c.toNat - 0x30) ≠ [] := by
    intro hnil
    exact Nat.toDigits_ne_nil (List.map_eq_nil_iff.mp hnil)
  have hunsigned : ¬ Scalar.uint64.IsSigned := id
  simp only [parseWhole, hunsigned, false_and, decide_false, Bool.false_eq_true, if_false, hdigits]
  have hhigh : Scalar.uint64.highest = 0xFFFFFFFFFFFFFFFF := by decide
  have hlow : Scalar.uint64.lowest = 0 := by decide
  rw [hvalue, hhigh, hlow, if_pos (by omega)]

/-! ### Sizes -/

theorem isBlank_of_digit : ∀ c, (digitOf 10 c).isSome = true → isBlank c = false := by
  decide

theorem mem_skipSpace (hc : isBlank c = false) (h : c ∈ text) : c ∈ skipSpace text := by
  rw [← List.takeWhile_append_dropWhile (p := isBlank) (l := text), List.mem_append] at h
  rcases h with h | h
  · have hblank := List.mem_takeWhile_imp h
    rw [hc] at hblank
    cases hblank
  · exact h

/-- A text with a comma is not a size. -/
theorem parseFileSizeSuffix_of_comma (h : byte ',' ∈ text) : parseFileSizeSuffix text = none := by
  have hblank : isBlank (byte ',') = false := by decide
  have htail := mem_skipSpace hblank h
  unfold parseFileSizeSuffix
  dsimp only
  split
  · next hlabel =>
    obtain ⟨rest, hrest⟩ := List.isPrefixOf_iff_prefix.mp hlabel
    rw [← hrest, List.mem_append] at htail
    rw [← hrest, List.drop_left]
    have hcomma := mem_skipSpace hblank (htail.resolve_left (by decide))
    generalize skipSpace rest = size at hcomma
    split
    · rfl
    · rw [if_neg]
      intro hend
      obtain ⟨after, hafter⟩ := List.takeWhile_prefix (l := size) fun c => (digitOf 10 c).isSome
      have hdigits : byte ',' ∉ size.takeWhile fun c => (digitOf 10 c).isSome := by
        intro hmem
        exact absurd (List.mem_takeWhile_imp hmem) (by decide)
      generalize size.takeWhile (fun c => (digitOf 10 c).isSome) = digits at *
      subst hafter
      rw [List.drop_left] at hend
      have hmem := mem_skipSpace hblank ((List.mem_append.mp hcomma).resolve_left hdigits)
      rw [hend] at hmem
      cases hmem
  · rfl

theorem parseFileSizeSuffix_sizeText (h : n < 0x10000000000000000) :
    parseFileSizeSuffix (sizeText n) = some n := by
  have hskip : skipSpace (sizeText n) = ascii "size:" ++ (byte ' ' :: decimal n) := rfl
  have hdigits : skipSpace (byte ' ' :: decimal n) = decimal n := by
    show skipSpace (decimal n) = decimal n
    refine List.dropWhile_eq_self_iff.mpr ?_
    intro hl
    rw [isBlank_of_digit _ (digitOf_of_mem_decimal (List.getElem_mem hl))]
    decide
  have htake : (decimal n).takeWhile (fun c => (digitOf 10 c).isSome) = decimal n :=
    List.takeWhile_eq_self_iff.mpr fun _ => digitOf_of_mem_decimal
  have hlabel : (ascii "size:").isPrefixOf (ascii "size:" ++ (byte ' ' :: decimal n)) = true :=
    List.isPrefixOf_iff_prefix.mpr (List.prefix_append _ _)
  unfold parseFileSizeSuffix
  simp only [hskip, hlabel, if_true, List.drop_left, hdigits, htake, parseWhole_decimal h,
    List.drop_length]
  rfl

/-! ### Lines -/

theorem splitSize_append (before : Text) (n : ℕ) :
    splitSize before (text ++ byte ',' :: sizeText n) =
      splitSize (before ++ text) (byte ',' :: sizeText n) := by
  induction text generalizing before with
  | nil => rw [List.nil_append, List.append_nil]
  | cons c text ih =>
    have hrest := ih (before ++ [c])
    rw [List.append_assoc] at hrest
    rw [List.cons_append, splitSize, parseFileSizeSuffix_of_comma (by simp)]
    split <;> exact hrest

theorem splitSize_file (file : ListedFile) :
    splitSize [] file.text = some ⟨file.name.text, some file.size.toNat⟩ := by
  have hname : file.name.text.rdropWhile isBlank = file.name.text := by
    refine List.rdropWhile_eq_self_iff.mpr ?_
    intro _
    rw [file.name.last]
    decide
  rw [ListedFile.text, splitSize_append, List.nil_append, splitSize, if_pos rfl,
    parseFileSizeSuffix_sizeText file.size.isLt]
  simp only [hname, if_neg file.name.nonempty]

theorem ListedFile.getLast?_text (file : ListedFile) :
    ∃ c ∈ decimal file.size.toNat, file.text.getLast? = some c := by
  refine ⟨_, List.getLast_mem (decimal_ne_nil file.size.toNat), ?_⟩
  rw [ListedFile.text, sizeText, ← List.cons_append, ← List.append_assoc,
    List.getLast?_append_of_ne_nil _ (decimal_ne_nil _)]
  exact List.getLast?_eq_getLast_of_ne_nil _

theorem not_lineEnd_of_digit : ∀ c, (digitOf 10 c).isSome = true → c ≠ 0x0A ∧ c ≠ 0x0D := by
  decide

theorem not_lineEnd_of_blank : ∀ c, isBlank c = true → c ≠ 0x0A ∧ c ≠ 0x0D := by
  decide

theorem Row.not_lineEnd {row : Row} (h : c ∈ row.text) : c ≠ 0x0A ∧ c ≠ 0x0D := by
  cases row with
  | blank spaces all => exact not_lineEnd_of_blank c (all c h)
  | file listed =>
    have hlabel : ∀ c ∈ byte ',' :: ascii " size: ", c ≠ 0x0A ∧ c ≠ 0x0D := by decide
    rw [Row.text, ListedFile.text, sizeText, ← List.cons_append, List.mem_append,
      List.mem_append] at h
    rcases h with h | h | h
    · exact listed.name.noLineEnd c h
    · exact hlabel c h
    · exact not_lineEnd_of_digit c (digitOf_of_mem_decimal h)

theorem Ending.not_newline (ending : Ending) : ∀ c ∈ ending.before, c ≠ 0x0A := by
  cases ending <;> decide

theorem stripEnd_row (row : Row) (ending : Ending) :
    (if (row.text ++ ending.before).getLast? = some 0x0D then (row.text ++ ending.before).dropLast
      else row.text ++ ending.before) = row.text := by
  cases ending with
  | lf =>
    rw [Ending.before, List.append_nil, if_neg]
    intro h
    exact (Row.not_lineEnd (List.mem_of_getLast? h)).2 rfl
  | crlf =>
    rw [Ending.before, List.getLast?_concat, if_pos rfl, List.dropLast_concat]

theorem ListedFile.trim_text (file : ListedFile) :
    (skipSpace file.text).rdropWhile isBlank = file.text := by
  have hskip : skipSpace file.text = file.text := by
    refine List.dropWhile_eq_self_iff.mpr ?_
    intro hl
    have hhead : file.text[0] = file.name.text.head file.name.nonempty := by
      rw [List.head_eq_getElem]
      exact List.getElem_append_left (List.length_pos_iff.mpr file.name.nonempty)
    rw [hhead, file.name.first]
    decide
  rw [hskip]
  refine List.rdropWhile_eq_self_iff.mpr ?_
  intro hl
  obtain ⟨c, hc, hlast⟩ := file.getLast?_text
  rw [List.getLast?_eq_getLast_of_ne_nil hl] at hlast
  rw [Option.some.inj hlast, isBlank_of_digit c (digitOf_of_mem_decimal hc)]
  decide

theorem parseLine_row (row : Row) (ending : Ending) :
    parseLine (row.text ++ ending.before) = row.listed := by
  unfold parseLine
  simp only [stripEnd_row]
  cases row with
  | blank spaces all =>
    have hskip : skipSpace spaces = [] := List.dropWhile_eq_nil_iff.mpr all
    simp only [Row.text, hskip]
    rfl
  | file listed =>
    have hsome : listed.text ≠ [] := by
      rw [ListedFile.text]
      simp
    simp only [Row.text, listed.trim_text, if_neg hsome, splitSize_file]
    rfl

/-- A list of files parses back, with any line endings and blank lines. -/
theorem parseDeviceFileList_render (rows : List (Row × Ending)) :
    parseDeviceFileList (render rows) = rows.filterMap fun row => row.1.listed := by
  induction rows with
  | nil => rfl
  | cons row rows ih =>
    have hline : ∀ c ∈ row.1.text ++ row.2.before, (c == 0x0A) = false := by
      intro c hc
      rw [beq_eq_false_iff_ne]
      rcases List.mem_append.mp hc with hc | hc
      · exact (Row.not_lineEnd hc).1
      · exact row.2.not_newline c hc
    have hrender : render (row :: rows) =
        row.1.text ++ row.2.before ++ 0x0A :: render rows := by
      simp [render]
    rw [hrender, parseDeviceFileList, List.splitOn,
      List.splitOnP_append_cons_of_forall_mem hline _ (by decide), List.filterMap_cons,
      List.filterMap_cons, parseLine_row]
    have htail : ((render rows).splitOnP (· == 0x0A)).filterMap parseLine = _ := ih
    rw [htail]

end MotionMaster.Hrd
