import Mathlib.Data.List.DropRight
import MotionMaster.Lib.FsPath

/-!
# The paths of the user cache

`UserCache::resolve` is all that stands between a request and the rest of the file system. It splits
the path it is given, refuses components that could name something else than themselves, and checks
the path it has assembled against the root.
-/

namespace MotionMaster.UserCache

open FsPath

def ascii (text : String) : Name := text.toList.map fun c => BitVec.ofNat 8 c.toNat

def kWindowsDeviceNames : List Name :=
  ["CON", "PRN", "AUX", "NUL", "COM1", "COM2", "COM3", "COM4", "COM5", "COM6", "COM7", "COM8",
    "COM9", "LPT1", "LPT2", "LPT3", "LPT4", "LPT5", "LPT6", "LPT7", "LPT8", "LPT9"].map ascii

def isControlCharacter (c : BitVec 8) : Bool := c.toNat < 0x20 || c == 0x7F

/-- `std::toupper` in the C locale. -/
def toupper (c : BitVec 8) : BitVec 8 := if 0x61 ≤ c.toNat ∧ c.toNat ≤ 0x7A then c - 0x20 else c

def isWindowsDeviceName (component : Name) : Bool :=
  let stem := component.takeWhile (· ≠ 0x2E)
  kWindowsDeviceNames.any fun device => stem.map toupper == device.map toupper

def isSeparator (c : BitVec 8) : Bool := c == slash || c == 0x5C

/-- The checks `splitRelative` makes of one component. -/
def checkPart (part : Name) : Except String Unit :=
  if part = [] then
    .error "path has an empty component (leading, trailing or doubled separator)"
  else if part.any isControlCharacter then
    .error "path component contains a control character"
  else if part = dot ∨ part = dotdot then
    .error "path component \".\" or \"..\" is not allowed"
  else if part.getLast? = some 0x2E ∨ part.getLast? = some 0x20 then
    .error "path component may not end with '.' or a space"
  else if isWindowsDeviceName part then
    .error "path component is a reserved device name"
  else if 0x3A ∈ part then
    .error "path component may not contain ':'"
  else .ok ()

/-- The loop of `splitRelative`: what is left, the component begun, and those done. -/
def splitLoop : List (BitVec 8) → Name → List Name → Except String (List Name)
  | [], part, parts =>
    match checkPart part with
    | .error message => .error message
    | .ok _ => .ok (parts ++ [part])
  | c :: rest, part, parts =>
    if isSeparator c then
      match checkPart part with
      | .error message => .error message
      | .ok _ => splitLoop rest [] (parts ++ [part])
    else splitLoop rest (part ++ [c]) parts

def splitRelative (relPath : List (BitVec 8)) : Except String (List Name) :=
  if relPath = [] then .error "path is empty" else splitLoop relPath [] []

/-- Drops the separator a normal path may end with. -/
def normalizeRoot (root : PosixPath) : PosixPath :=
  let normal := root.lexicallyNormal
  if normal.hasFilename = false ∧ normal.hasParentPath = true then normal.parentPath else normal

/-- `resolve` of a cache that was constructed with the root. -/
def resolve (root : PosixPath) (relPath : List (BitVec 8)) : Except String PosixPath :=
  match splitRelative relPath with
  | .error message => .error message
  | .ok parts =>
    let root_ := normalizeRoot root
    let normalized :=
      (parts.foldl (fun p part => p.append (.ofBytes part)) root_).lexicallyNormal
    if root_.elements.isPrefixOf normalized.elements then .ok normalized
    else .error "path escapes the cache directory"

/-! ### What a path is meant to reach -/

def components (relPath : List (BitVec 8)) : List Name := relPath.splitOnP isSeparator

/-- A device name in either case, alone or with an extension. -/
def NamesDevice (c : Name) : Prop :=
  ∃ device ∈ kWindowsDeviceNames, c.map toupper = device ∨ device ++ [0x2E] <+: c.map toupper
  deriving Decidable

/-- A component that names a file or a directory in the directory before it. -/
structure Plain (c : Name) : Prop where
  nonempty : c ≠ []
  control : ∀ b ∈ c, isControlCharacter b = false
  notDot : c ≠ dot
  notDotdot : c ≠ dotdot
  last : c.getLast? ≠ some 0x2E ∧ c.getLast? ≠ some 0x20
  device : ¬ NamesDevice c
  drive : 0x3A ∉ c
  separator : ∀ b ∈ c, isSeparator b = false

/-- The name an operating system sees that ends it at NUL and strips dots and spaces after it. -/
def seen (c : Name) : Name :=
  (c.takeWhile (· ≠ 0)).rdropWhile fun b => b = 0x2E ∨ b = 0x20

/-- A letter, a digit, `_` or `-`. -/
def isWord (b : BitVec 8) : Bool :=
  (0x41 ≤ b.toNat && b.toNat ≤ 0x5A) || (0x61 ≤ b.toNat && b.toNat ≤ 0x7A) ||
    (0x30 ≤ b.toNat && b.toNat ≤ 0x39) || b == 0x5F || b == 0x2D

/-- What is resolved is the root followed by the components, each of them what it says. -/
def Confines (root : PosixPath) (relPath : List (BitVec 8)) : Prop :=
  ∀ path, resolve root relPath = .ok path →
    path.elements = (normalizeRoot root).elements ++ components relPath ∧
      components relPath ≠ [] ∧ ∀ c ∈ components relPath, Plain c ∧ seen c = c

/-- A path of ordinary names is resolved. -/
def Accepts (root : PosixPath) (relPath : List (BitVec 8)) : Prop :=
  (∀ c ∈ components relPath, c ≠ [] ∧ (∀ b ∈ c, isWord b = true) ∧ ¬ NamesDevice c) →
    ∃ path, resolve root relPath = .ok path

variable {c part : Name} {relPath rest : List (BitVec 8)} {parts result : List Name}
  {root : PosixPath}

/-! ### The components -/

theorem separator_free (relPath : List (BitVec 8)) :
    ∀ c ∈ components relPath, ∀ b ∈ c, isSeparator b = false := by
  induction relPath with
  | nil => simp [components]
  | cons x relPath ih =>
    intro c hc b hb
    rw [components, List.splitOnP_cons_eq_if_modifyHead] at hc
    split_ifs at hc with hx
    · rcases List.mem_cons.mp hc with rfl | hc
      · cases hb
      · exact ih c hc b hb
    · rw [components] at ih
      cases hs : relPath.splitOnP isSeparator with
      | nil => exact absurd hs (List.splitOnP_ne_nil _ _)
      | cons first others =>
        rw [hs, List.modifyHead_cons] at hc
        rw [hs] at ih
        rcases List.mem_cons.mp hc with rfl | hc
        · rcases List.mem_cons.mp hb with rfl | hb
          · simpa using hx
          · exact ih first List.mem_cons_self b hb
        · exact ih c (List.mem_cons_of_mem _ hc) b hb

theorem takeWhile_ne_eq_iff {x : BitVec 8} {u v : Name} (hv : x ∉ v) :
    u.takeWhile (· ≠ x) = v ↔ u = v ∨ v ++ [x] <+: u := by
  induction u generalizing v with
  | nil => cases v <;> simp
  | cons b u ih =>
    cases v with
    | nil => by_cases hb : b = x <;> simp [hb, Ne.symm]
    | cons d v =>
      rw [List.mem_cons, not_or] at hv
      by_cases hb : b = x
      · simp [hb, hv.1, Ne.symm hv.1]
      · rw [List.takeWhile_cons_of_pos (by simpa using hb), List.cons.injEq, List.cons.injEq,
          List.cons_append, List.cons_prefix_cons, ih hv.2, eq_comm (a := d), ← and_or_left]

theorem isWindowsDeviceName_iff : isWindowsDeviceName c = true ↔ NamesDevice c := by
  have hupper : ∀ device ∈ kWindowsDeviceNames, device.map toupper = device ∧ 0x2E ∉ device := by
    decide
  have hstem : (c.takeWhile (· ≠ 0x2E)).map toupper = (c.map toupper).takeWhile (· ≠ 0x2E) := by
    have hdot : ∀ b : BitVec 8, decide (toupper b ≠ 0x2E) = decide (b ≠ 0x2E) := by decide
    rw [List.takeWhile_map, Function.comp_def, funext hdot]
  unfold isWindowsDeviceName NamesDevice
  simp only [List.any_eq_true, beq_iff_eq]
  refine exists_congr fun device => and_congr_right fun hm => ?_
  rw [hstem, (hupper device hm).1, takeWhile_ne_eq_iff (hupper device hm).2]

theorem checkPart_eq_ok (hs : ∀ b ∈ c, isSeparator b = false) :
    checkPart c = .ok () ↔ Plain c := by
  constructor
  · intro h
    unfold checkPart at h
    split_ifs at h with h₁ h₂ h₃ h₄ h₅ h₆
    rw [not_or] at h₃ h₄
    refine ⟨h₁, ?_, h₃.1, h₃.2, h₄, isWindowsDeviceName_iff.not.mp h₅, h₆, hs⟩
    intro b hb
    by_contra hc
    exact h₂ (List.any_eq_true.mpr ⟨b, hb, by simpa using hc⟩)
  · intro h
    have hcontrol : ¬ c.any isControlCharacter = true := by
      intro hc
      obtain ⟨b, hb, hc⟩ := List.any_eq_true.mp hc
      rw [h.control b hb] at hc
      cases hc
    rw [checkPart, if_neg h.nonempty, if_neg hcontrol,
      if_neg (not_or.mpr ⟨h.notDot, h.notDotdot⟩), if_neg (not_or.mpr h.last),
      if_neg (isWindowsDeviceName_iff.not.mpr h.device), if_neg h.drive]

/-- The loop returns the components, if each passes. -/
theorem splitLoop_eq_ok (hp : ∀ b ∈ part, isSeparator b = false) :
    splitLoop rest part parts = .ok result ↔
      result = parts ++ components (part ++ rest) ∧
        ∀ c ∈ components (part ++ rest), checkPart c = .ok () := by
  induction rest generalizing part parts with
  | nil =>
    have hc : components (part ++ []) = [part] := by
      rw [List.append_nil, components, List.splitOnP_eq_singleton hp]
    rw [hc, splitLoop]
    cases hpart : checkPart part with
    | error message => simp [hpart]
    | ok _ => simp [hpart, eq_comm]
  | cons x rest ih =>
    rw [splitLoop]
    by_cases hx : isSeparator x = true
    · have hc : components (part ++ x :: rest) = part :: components rest := by
        rw [components, List.splitOnP_append_cons_of_forall_mem hp x hx, components]
      rw [hc, if_pos hx]
      cases hpart : checkPart part with
      | error message => simp [hpart]
      | ok _ => simp [hpart, ih (List.forall_mem_nil fun b => isSeparator b = false)]
    · have hp' : ∀ b ∈ part ++ [x], isSeparator b = false := by
        intro b hb
        rcases List.mem_append.mp hb with hb | hb
        · exact hp b hb
        · rw [List.mem_singleton.mp hb]
          simpa using hx
      rw [if_neg hx, ih hp', List.append_assoc]
      rfl

theorem splitRelative_eq_ok :
    splitRelative relPath = .ok result ↔
      result = components relPath ∧ ∀ c ∈ components relPath, Plain c := by
  have hplain : (∀ c ∈ components relPath, checkPart c = .ok ()) ↔
      ∀ c ∈ components relPath, Plain c :=
    forall₂_congr fun c hc => checkPart_eq_ok (separator_free relPath c hc)
  by_cases he : relPath = []
  · have hnot : ¬ ∀ c ∈ components relPath, Plain c := by
      intro h
      rw [he] at h
      exact (h [] (by simp [components])).nonempty rfl
    rw [splitRelative, if_pos he]
    simp [hnot]
  · rw [splitRelative, if_neg he, splitLoop_eq_ok (by simp), List.nil_append, List.nil_append,
      hplain]

theorem components_ne_nil (relPath : List (BitVec 8)) : components relPath ≠ [] :=
  List.splitOnP_ne_nil _ _

theorem components_eq_concat (relPath : List (BitVec 8)) :
    ∃ others last, components relPath = others ++ [last] :=
  (List.eq_nil_or_concat' _).resolve_left (components_ne_nil relPath)

theorem Plain.seen_eq (h : Plain c) : seen c = c := by
  have hnul : c.takeWhile (· ≠ 0) = c := by
    rw [List.takeWhile_eq_self_iff]
    intro b hb
    have hc := h.control b hb
    simp only [ne_eq, decide_eq_true_eq]
    rintro rfl
    simp [isControlCharacter] at hc
  rw [seen, hnul, List.rdropWhile_eq_self_iff]
  intro hne hl
  have hlast := h.last
  rw [List.getLast?_eq_some_getLast hne] at hlast
  rcases of_decide_eq_true hl with hb | hb
  · exact hlast.1 (by rw [hb])
  · exact hlast.2 (by rw [hb])

theorem plain_of_word (hne : c ≠ []) (hw : ∀ b ∈ c, isWord b = true)
    (hd : ¬ NamesDevice c) (hs : ∀ b ∈ c, isSeparator b = false) : Plain c := by
  have hnot (b : BitVec 8) (hb : isWord b = false) : b ∉ c := by
    intro hm
    rw [hw b hm] at hb
    cases hb
  refine ⟨hne, fun b hb => ?_, ?_, ?_, ⟨fun hl => ?_, fun hl => ?_⟩, hd, hnot _ (by decide), hs⟩
  · have hword : ∀ b : BitVec 8, isWord b = true → isControlCharacter b = false := by decide
    exact hword b (hw b hb)
  · rintro rfl
    exact hnot 0x2E (by decide) (by simp [dot])
  · rintro rfl
    exact hnot 0x2E (by decide) (by simp [dotdot])
  · exact hnot 0x2E (by decide) (List.mem_of_getLast? hl)
  · exact hnot 0x20 (by decide) (List.mem_of_getLast? hl)

/-! ### The root -/

/-- The normal form of a root that says to stay where one is. -/
def dotPath : PosixPath := ⟨false, [dot], false⟩

/-- A separator after the names is dropped. -/
theorem normalizeRoot_of_names {absolute trailing : Bool} {names : List Name} (hne : names ≠ [])
    (h : root.lexicallyNormal = ⟨absolute, names, trailing⟩) :
    normalizeRoot root = ⟨absolute, names, false⟩ := by
  cases trailing <;>
    simp [normalizeRoot, h, PosixPath.hasFilename, PosixPath.hasParentPath,
      PosixPath.parentPath, PosixPath.empty, hne]

theorem normalizeRoot_shape (root : PosixPath) :
    normalizeRoot root = dotPath ∨
      ∃ kept, Kept root.absolute kept ∧
        normalizeRoot root = ⟨root.absolute, kept.reverse, false⟩ := by
  by_cases he : root = PosixPath.empty
  · refine Or.inr ⟨[], .nil, ?_⟩
    rw [he]
    decide
  · have hkept := kept_foldl root.absolute root.names ([], false) .nil
    have hnormal := PosixPath.lexicallyNormal_of_ne_empty he
    generalize root.names.foldl (PosixPath.normalStep root.absolute) ([], false) = kept
      at hkept hnormal
    obtain ⟨kept, separated⟩ := kept
    by_cases hk : kept = []
    · cases ha : root.absolute with
      | false =>
        left
        exact normalizeRoot_of_names (by simp) (by simpa [hk, ha] using hnormal)
      | true =>
        refine Or.inr ⟨[], .nil, ?_⟩
        have hroot : root.lexicallyNormal = ⟨true, [], false⟩ := by simpa [hk, ha] using hnormal
        simp [normalizeRoot, hroot, PosixPath.hasFilename, PosixPath.hasParentPath,
          PosixPath.parentPath, PosixPath.empty]
    · simp only [if_neg hk] at hnormal
      exact Or.inr ⟨kept, hkept, normalizeRoot_of_names (by simpa using hk) hnormal⟩

/-! ### What is resolved -/

theorem names_of_plain (h : ∀ c ∈ parts, Plain c) : ∀ c ∈ parts, c ≠ [] ∧ slash ∉ c := by
  intro c hc
  refine ⟨(h c hc).nonempty, fun hs => ?_⟩
  have hsep := (h c hc).separator slash hs
  simp [isSeparator] at hsep

theorem assembled_of_plain (root : PosixPath) (hr : root.trailing = false)
    (h : ∀ c ∈ parts, Plain c) :
    parts.foldl (fun p part => p.append (.ofBytes part)) root =
      ⟨root.absolute, root.names ++ parts, false⟩ :=
  foldl_append (names_of_plain h) root hr

/-- Under any other root than `.`, components that pass the checks are resolved to themselves. -/
theorem resolve_eq_append (hroot : normalizeRoot root ≠ dotPath)
    (h : ∀ c ∈ components relPath, Plain c) :
    resolve root relPath = .ok
      ⟨(normalizeRoot root).absolute, (normalizeRoot root).names ++ components relPath, false⟩ := by
  obtain ⟨kept, hkept, heq⟩ := (normalizeRoot_shape root).resolve_left hroot
  have hsplit : splitRelative relPath = .ok (components relPath) :=
    splitRelative_eq_ok.mpr ⟨rfl, h⟩
  have hnormal := lexicallyNormal_append hkept (components_ne_nil relPath) fun c hc =>
    ⟨(h c hc).notDot, (h c hc).notDotdot⟩
  simp only [resolve, hsplit, heq, assembled_of_plain ⟨_, _, false⟩ rfl h, hnormal]
  simp [PosixPath.elements, List.isPrefixOf_iff_prefix]

theorem normalizeRoot_trailing (root : PosixPath) : (normalizeRoot root).trailing = false := by
  rcases normalizeRoot_shape root with h | ⟨kept, _, h⟩
  · rw [h]
    rfl
  · rw [h]

theorem resolve_of_plain (hroot : normalizeRoot root ≠ dotPath)
    (h : ∀ c ∈ components relPath, Plain c) :
    ∃ path, resolve root relPath = .ok path ∧
      path.elements = (normalizeRoot root).elements ++ components relPath := by
  refine ⟨_, resolve_eq_append hroot h, ?_⟩
  simp [PosixPath.elements, normalizeRoot_trailing]

/-- The assembled path loses the dot, and no longer begins with the root. -/
theorem resolve_of_dot (hroot : normalizeRoot root = dotPath) (path : PosixPath) :
    resolve root relPath ≠ .ok path := by
  intro hres
  cases hsplit : splitRelative relPath with
  | error message => simp [resolve, hsplit] at hres
  | ok parts =>
    obtain ⟨rfl, h⟩ := splitRelative_eq_ok.mp hsplit
    have hnormal := lexicallyNormal_dot (components_ne_nil relPath) fun c hc =>
      ⟨(h c hc).notDot, (h c hc).notDotdot⟩
    have hassembled := assembled_of_plain dotPath rfl h
    change _ = PosixPath.mk false ([dot] ++ components relPath) false at hassembled
    simp only [resolve, hsplit, hroot, hassembled, hnormal] at hres
    split_ifs at hres with hprefix
    obtain ⟨others, hothers⟩ := List.isPrefixOf_iff_prefix.mp hprefix
    have hdot : dot ∈ components relPath := by
      have hmem : dot ∈ (PosixPath.mk false (components relPath) false).elements := by
        rw [← hothers]
        simp [dotPath, PosixPath.elements]
      simpa [PosixPath.elements] using hmem
    exact (h dot hdot).notDot rfl

/-- A cache keeps what it promises under every root but those that normalise to `.`. -/
theorem confined_iff_not_dot (root : List (BitVec 8)) :
    (∀ relPath, Confines (.ofBytes root) relPath ∧ Accepts (.ofBytes root) relPath) ↔
      normalizeRoot (.ofBytes root) ≠ dotPath := by
  constructor
  · intro h hroot
    obtain ⟨path, hpath⟩ := (h (ascii "a")).2 (by decide)
    exact resolve_of_dot hroot path hpath
  · intro hroot relPath
    constructor
    · intro path hpath
      have h : ∀ c ∈ components relPath, Plain c := by
        cases hsplit : splitRelative relPath with
        | error message => simp [resolve, hsplit] at hpath
        | ok parts => exact (splitRelative_eq_ok.mp hsplit).2
      obtain ⟨path', hpath', helements⟩ := resolve_of_plain hroot h
      rw [hpath] at hpath'
      cases hpath'
      exact ⟨helements, components_ne_nil relPath, fun c hc => ⟨h c hc, (h c hc).seen_eq⟩⟩
    · intro hwords
      have h : ∀ c ∈ components relPath, Plain c := fun c hc =>
        plain_of_word (hwords c hc).1 (hwords c hc).2.1 (hwords c hc).2.2
          (separator_free relPath c hc)
      obtain ⟨path, hpath, _⟩ := resolve_of_plain hroot h
      exact ⟨path, hpath⟩

/-- The working directory as the root. -/
theorem workingDirectory_not_accepts :
    ¬ Accepts (.ofBytes (ascii ".")) (ascii "configs") := by
  intro h
  obtain ⟨path, hpath⟩ := h (by decide)
  exact resolve_of_dot (by decide) path hpath

end MotionMaster.UserCache
