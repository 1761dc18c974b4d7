import Mathlib.Data.List.Basic

/-!
# Paths of a POSIX file system

`std::filesystem::path` without root names: an optional root directory, names, and a separator
after the last of them.
-/

namespace FsPath

/-- The bytes of one name. -/
abbrev Name := List (BitVec 8)

def slash : BitVec 8 := 0x2F

def dot : Name := [0x2E]

def dotdot : Name := [0x2E, 0x2E]

structure PosixPath where
  absolute : Bool
  names : List Name
  trailing : Bool
  deriving DecidableEq

namespace PosixPath

def empty : PosixPath := ⟨false, [], false⟩

/-- Separators in a row count as one. -/
def ofBytes (bytes : List (BitVec 8)) : PosixPath :=
  let pieces := bytes.splitOnP (· == slash)
  let names := pieces.filter (· ≠ [])
  ⟨bytes.head? = some slash, names, names ≠ [] ∧ pieces.getLast? = some []⟩

def elements (p : PosixPath) : List Name :=
  (if p.absolute then [[slash]] else []) ++ p.names ++ if p.trailing then [[]] else []

def string (p : PosixPath) : List (BitVec 8) :=
  (if p.absolute then [slash] else []) ++ [slash].intercalate p.names ++
    if p.trailing then [slash] else []

def hasFilename (p : PosixPath) : Bool := p.names ≠ [] ∧ p.trailing = false

def parentPath (p : PosixPath) : PosixPath :=
  if p.trailing then { p with trailing := false } else { p with names := p.names.dropLast }

def hasParentPath (p : PosixPath) : Bool := p.parentPath ≠ empty

/-- `operator/=`. -/
def append (p q : PosixPath) : PosixPath :=
  if q.absolute then q
  else if q.names = [] then { p with trailing := p.names ≠ [] }
  else ⟨p.absolute, p.names ++ q.names, q.trailing⟩

/-- One name of `lexically_normal`, on the names kept so far, the last one first, and whether a
separator follows them. -/
def normalStep (absolute : Bool) (kept : List Name × Bool) (name : Name) : List Name × Bool :=
  if name = dot then (kept.1, true)
  else if name = dotdot then
    match kept.1 with
    | [] => if absolute then ([], true) else ([dotdot], false)
    | last :: rest => if last = dotdot then (dotdot :: last :: rest, false) else (rest, true)
  else (name :: kept.1, false)

def lexicallyNormal (p : PosixPath) : PosixPath :=
  if p = empty then p
  else
    let kept := p.names.foldl (normalStep p.absolute) ([], false)
    if kept.1 = [] then if p.absolute then ⟨true, [], false⟩ else ⟨false, [dot], false⟩
    else ⟨p.absolute, kept.1.reverse, (kept.2 || p.trailing) && kept.1.head? ≠ some dotdot⟩

theorem lexicallyNormal_of_ne_empty {p : PosixPath} (h : p ≠ empty) :
    p.lexicallyNormal =
      let kept := p.names.foldl (normalStep p.absolute) ([], false)
      if kept.1 = [] then if p.absolute then ⟨true, [], false⟩ else ⟨false, [dot], false⟩
      else ⟨p.absolute, kept.1.reverse, (kept.2 || p.trailing) && kept.1.head? ≠ some dotdot⟩ := by
  rw [lexicallyNormal, if_neg h]

end PosixPath

/-- The names a normal path keeps, the last one first: `..` only where nothing can be left out for
it. -/
inductive Kept (absolute : Bool) : List Name → Prop
  | nil : Kept absolute []
  | up {kept : List Name} (ha : absolute = false) (hk : kept = [] ∨ kept.head? = some dotdot)
      (h : Kept absolute kept) : Kept absolute (dotdot :: kept)
  | name {name : Name} {kept : List Name} (hd : name ≠ dot) (hu : name ≠ dotdot)
      (h : Kept absolute kept) : Kept absolute (name :: kept)

variable {absolute : Bool} {kept names : List Name} {name : Name}

theorem kept_normalStep {kept : List Name × Bool} (h : Kept absolute kept.1) (name : Name) :
    Kept absolute (PosixPath.normalStep absolute kept name).1 := by
  obtain ⟨names, separated⟩ := kept
  by_cases hd : name = dot
  · rw [PosixPath.normalStep, if_pos hd]
    exact h
  · by_cases hu : name = dotdot
    · rw [PosixPath.normalStep, if_neg hd, if_pos hu]
      cases h with
      | nil =>
        cases absolute with
        | false => exact .up rfl (Or.inl rfl) .nil
        | true => exact .nil
      | up ha hk h => exact .up ha (Or.inr rfl) (.up ha hk h)
      | name _ hlast h =>
        simp only [hlast, if_false]
        exact h
    · rw [PosixPath.normalStep, if_neg hd, if_neg hu]
      exact .name hd hu h

theorem kept_foldl (absolute : Bool) (names : List Name) (kept : List Name × Bool)
    (h : Kept absolute kept.1) :
    Kept absolute (names.foldl (PosixPath.normalStep absolute) kept).1 := by
  induction names generalizing kept with
  | nil => exact h
  | cons name names ih => exact ih _ (kept_normalStep h name)

/-- Normalising keeps what is normal. -/
theorem foldl_kept (h : Kept absolute kept) :
    kept.reverse.foldl (PosixPath.normalStep absolute) ([], false) = (kept, false) := by
  induction h with
  | nil => rfl
  | up ha hk h ih =>
    rw [List.reverse_cons, List.foldl_append, ih]
    rcases hk with rfl | hk
    · simp [PosixPath.normalStep, dot, dotdot, ha]
    · cases h with
      | nil => cases hk
      | up => simp [PosixPath.normalStep, dot, dotdot]
      | name hd hu => simp_all
  | name hd hu h ih =>
    rw [List.reverse_cons, List.foldl_append, ih]
    simp [PosixPath.normalStep, hd, hu]

/-- Names that mean themselves are added as they are. -/
theorem foldl_names (absolute : Bool) (hn : ∀ name ∈ names, name ≠ dot ∧ name ≠ dotdot)
    (kept : List Name) :
    names.foldl (PosixPath.normalStep absolute) (kept, false) = (names.reverse ++ kept, false) := by
  induction names generalizing kept with
  | nil => rfl
  | cons name names ih =>
    obtain ⟨hd, hu⟩ := hn name List.mem_cons_self
    rw [List.foldl_cons, PosixPath.normalStep, if_neg hd, if_neg hu,
      ih (fun other ho => hn other (List.mem_cons_of_mem _ ho))]
    simp

theorem lexicallyNormal_append (h : Kept absolute kept) (hne : names ≠ [])
    (hn : ∀ name ∈ names, name ≠ dot ∧ name ≠ dotdot) :
    (PosixPath.mk absolute (kept.reverse ++ names) false).lexicallyNormal =
      ⟨absolute, kept.reverse ++ names, false⟩ := by
  have hempty : PosixPath.mk absolute (kept.reverse ++ names) false ≠ PosixPath.empty := by
    simp [PosixPath.empty, hne]
  have hstack : names.reverse ++ kept ≠ [] := by simp [hne]
  simp only [PosixPath.lexicallyNormal, if_neg hempty, List.foldl_append, foldl_kept h,
    foldl_names absolute hn, if_neg hstack]
  simp

/-- The dot a path begins with is left out. -/
theorem lexicallyNormal_dot (hne : names ≠ [])
    (hn : ∀ name ∈ names, name ≠ dot ∧ name ≠ dotdot) :
    (PosixPath.mk false ([dot] ++ names) false).lexicallyNormal = ⟨false, names, false⟩ := by
  have hempty : PosixPath.mk false ([dot] ++ names) false ≠ PosixPath.empty := by
    simp [PosixPath.empty]
  obtain ⟨first, others, rfl⟩ := List.exists_cons_of_ne_nil hne
  obtain ⟨hd, hu⟩ := hn first List.mem_cons_self
  have hothers := foldl_names false (fun name hm => hn name (List.mem_cons_of_mem _ hm)) [first]
  rw [PosixPath.lexicallyNormal, if_neg hempty]
  simp only [List.singleton_append, List.foldl_cons, PosixPath.normalStep, if_true, if_neg hd,
    if_neg hu, hothers]
  simp

/-- A name without separators is read back as itself. -/
theorem ofBytes_name (hne : name ≠ []) (hs : slash ∉ name) :
    PosixPath.ofBytes name = ⟨false, [name], false⟩ := by
  have hsplit : name.splitOnP (· == slash) = [name] :=
    List.splitOnP_eq_singleton fun b hb => by
      rw [beq_eq_false_iff_ne]
      rintro rfl
      exact hs hb
  have hhead : name.head? ≠ some slash := fun hh => hs (List.mem_of_mem_head? hh)
  simp [PosixPath.ofBytes, hsplit, hne, hhead]

theorem append_name (p : PosixPath) (hne : name ≠ []) (hs : slash ∉ name) :
    p.append (.ofBytes name) = ⟨p.absolute, p.names ++ [name], false⟩ := by
  rw [ofBytes_name hne hs]
  simp [PosixPath.append]

/-- Names appended one after the other. -/
theorem foldl_append (hn : ∀ name ∈ names, name ≠ [] ∧ slash ∉ name) (p : PosixPath)
    (hp : p.trailing = false) :
    names.foldl (fun p name => p.append (.ofBytes name)) p =
      ⟨p.absolute, p.names ++ names, false⟩ := by
  induction names generalizing p with
  | nil =>
    obtain ⟨absolute, names, trailing⟩ := p
    simp_all
  | cons name names ih =>
    obtain ⟨hne, hs⟩ := hn name List.mem_cons_self
    rw [List.foldl_cons, append_name p hne hs,
      ih (fun other ho => hn other (List.mem_cons_of_mem _ ho)) _ rfl]
    simp

end FsPath
