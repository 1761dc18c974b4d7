import Mathlib.Data.List.ModifyLast
import MotionMaster.UserCache.Remove

/-!
# Writing to the user cache

`UserCache::write` puts the bytes into a file beside the destination and renames it. Any call to the
file system can fail. The name of the file beside it is one that a user may have taken.
-/

namespace MotionMaster.UserCache

open FsPath FileTree

abbrev Message := List (BitVec 8)

/-- Which calls of one write fail beyond what the tree makes impossible, with the system's message
where the code shows it. -/
structure Faults where
  creating : Path → Option Message
  opening : Bool
  /-- How many bytes went through. -/
  writing : Option ℕ
  replacing : Bool
  cleaning : Option Message

def makeDirectories (faults : Faults) : Tree → Path → List Name → Tree × Option Message
  | tree, _, [] => (tree, none)
  | tree, above, name :: names =>
    match faults.creating (above ++ [name]), tree.node (above ++ [name]) with
    | some message, _ => (tree, some message)
    | none, some .dir => makeDirectories faults tree (above ++ [name]) names
    | none, some (.file _) => (tree, some (ascii "Not a directory"))
    | none, none =>
      match tree.put (above ++ [name]) .dir with
      | none => (tree, some (ascii "Invalid argument"))
      | some made => makeDirectories faults made (above ++ [name]) names

/-- `fs::create_directories`. What was made before a failure stays. -/
def createDirectories (faults : Faults) (tree : Tree) (path : PosixPath) : Tree × Option Message :=
  if path = PosixPath.empty then (tree, some (ascii "Invalid argument"))
  else makeDirectories faults tree [] (place path)

/-- `path += ".mm-tmp"`, of a path that ends with a name. -/
def temporary (path : PosixPath) : PosixPath :=
  { path with names := path.names.modifyLast (· ++ ascii ".mm-tmp") }

/-- `std::ofstream` with `std::ios::trunc`. -/
def openTruncated (faults : Faults) (tree : Tree) (path : PosixPath) : Option Tree :=
  if faults.opening then none else tree.put (place path) (.file [])

def store (tree : Tree) (path : PosixPath) (bytes : List (BitVec 8)) : Tree :=
  (tree.put (place path) (.file bytes)).getD tree

/-- `fs::rename` of a file. -/
def rename (faults : Faults) (tree : Tree) (src dst : PosixPath) : Option Tree :=
  match faults.replacing, tree.node (place src) with
  | false, some (.file bytes) => (tree.remove (place src)).1.put (place dst) (.file bytes)
  | _, _ => none

/-- `fs::remove` of the temporary file, with the message of the error code it leaves. -/
def cleanUp (faults : Faults) (tree : Tree) (path : PosixPath) : Tree × Message :=
  match faults.cleaning with
  | some message => (tree, message)
  | none => ((tree.remove (place path)).1, ascii "Success")

def write (root : PosixPath) (faults : Faults) (tree : Tree) (relPath data : List (BitVec 8)) :
    Except Message Unit × Tree :=
  match resolve root relPath with
  | .error message => (.error (ascii message), tree)
  | .ok path =>
    match createDirectories faults tree path.parentPath with
    | (made, some message) =>
      (.error (ascii "failed to create " ++ path.parentPath.string ++ ascii ": " ++ message), made)
    | (made, none) =>
      match openTruncated faults made (temporary path) with
      | none =>
        (.error (ascii "failed to open " ++ (temporary path).string ++ ascii " for writing"), made)
      | some opened =>
        match faults.writing with
        | some n =>
          (.error (ascii "failed to write " ++ relPath),
            (cleanUp faults (store opened (temporary path) (data.take n)) (temporary path)).1)
        | none =>
          let written := store opened (temporary path) data
          match rename faults written (temporary path) path with
          | none =>
            -- the removal overwrites the error code of the renaming
            let (cleaned, message) := cleanUp faults written (temporary path)
            (.error (ascii "failed to replace " ++ relPath ++ ascii ": " ++ message), cleaned)
          | some renamed => (.ok (), renamed)

def read (root : PosixPath) (tree : Tree) (relPath : List (BitVec 8)) :
    Except Message (List (BitVec 8)) :=
  match resolve root relPath with
  | .error message => .error (ascii message)
  | .ok path =>
    match status tree path with
    | some (.file bytes) => .ok bytes
    | _ => .error (ascii "no such file: " ++ relPath)

/-! ### An atomic update -/

/-- What the file by these names under the root holds. -/
def contentUnder (root : PosixPath) (tree : Tree) (names : List Name) : Option (List (BitVec 8)) :=
  tree.content (place (normalizeRoot root) ++ names)

/-- A write that succeeds changes the one file. A write that fails changes none. -/
def Atomic (root : PosixPath) (faults : Faults) (tree : Tree) (relPath data : List (BitVec 8)) :
    Prop :=
  match write root faults tree relPath data with
  | (.ok _, after) => read root after relPath = .ok data ∧ ∀ names, names ≠ components relPath →
    contentUnder root after names = contentUnder root tree names
  | (.error _, after) => ∀ names, contentUnder root after names = contentUnder root tree names

/-- The call gets as far as opening the temporary file. -/
structure Opens (root : PosixPath) (faults : Faults) (tree : Tree) (relPath : List (BitVec 8)) :
    Prop where
  admissible : Admissible root relPath
  created : (createDirectories faults tree (target root relPath).parentPath).2 = none
  opening : faults.opening = false
  free : tree.node (place (temporary (target root relPath))) ≠ some .dir

/-- What a write whose clean-up fails too has put under the temporary name. -/
def stranded (root : PosixPath) (faults : Faults) (tree : Tree) (relPath data : List (BitVec 8)) :
    Option (List (BitVec 8)) :=
  match faults.cleaning, faults.writing, faults.replacing with
  | none, _, _ => none
  | some _, some n, _ => some (data.take n)
  | some _, none, true => some data
  | some _, none, false =>
    if tree.node (place (target root relPath)) = some .dir then some data else none

/-- The temporary name is not taken, unless by what is left there. -/
def Unclaimed (root : PosixPath) (faults : Faults) (tree : Tree) (relPath data : List (BitVec 8)) :
    Prop :=
  Opens root faults tree relPath → tree.content (place (temporary (target root relPath))) =
    stranded root faults tree relPath data

variable {root : PosixPath} {faults : Faults} {tree : Tree} {relPath data : List (BitVec 8)}
  {above : Path} {names : List Name}

/-! ### Making directories -/

/-- Directories appear above what is asked for, and nothing else changes. -/
theorem makeDirectories_node (faults : Faults) (tree : Tree) (above : Path) (names : List Name)
    (q : Path) :
    (makeDirectories faults tree above names).1.node q = tree.node q ∨
      tree.node q = none ∧ (makeDirectories faults tree above names).1.node q = some .dir ∧
        q <+: above ++ names := by
  induction names generalizing tree above with
  | nil => exact .inl rfl
  | cons name names ih =>
    have hbelow : above ++ [name] ++ names = above ++ name :: names := by simp
    rw [makeDirectories]
    split
    · exact .inl rfl
    · rw [← hbelow]
      exact ih _ _
    · exact .inl rfl
    · rename_i hnode
      split
      · exact .inl rfl
      · rename_i made hput
        have hmade := Tree.node_put hput q
        by_cases hq : q = above ++ [name]
        · right
          rw [if_pos hq] at hmade
          rcases ih made (above ++ [name]) with h | ⟨hnone, -⟩
          · exact ⟨hq ▸ hnode, h.trans hmade, hq ▸ by simp⟩
          · rw [hmade] at hnone
            cases hnone
        · rw [if_neg hq] at hmade
          rw [← hmade, ← hbelow]
          exact ih _ _

theorem makeDirectories_dir (habove : tree.node above = some .dir)
    (h : (makeDirectories faults tree above names).2 = none) :
    (makeDirectories faults tree above names).1.node (above ++ names) = some .dir := by
  induction names generalizing tree above with
  | nil =>
    rw [List.append_nil]
    exact habove
  | cons name names ih =>
    have hbelow : above ++ [name] ++ names = above ++ name :: names := by simp
    rw [makeDirectories] at h ⊢
    rw [← hbelow]
    split at h
    · cases h
    · rename_i hnode
      exact ih hnode h
    · cases h
    · split at h
      · cases h
      · rename_i made hput
        exact ih (by rw [Tree.node_put hput, if_pos rfl]) h

theorem createDirectories_content (faults : Faults) (tree : Tree) (path : PosixPath) (q : Path) :
    (createDirectories faults tree path).1.content q = tree.content q := by
  rw [createDirectories]
  split_ifs
  · rfl
  · rcases makeDirectories_node faults tree [] (place path) q with h | h
    · rw [Tree.content, h, Tree.content]
    · rw [Tree.content, h.2.1, Tree.content, h.1]

variable {path : PosixPath}

theorem createDirectories_dir
    (h : (createDirectories faults tree path).2 = none) :
    (createDirectories faults tree path).1.node (place path) = some .dir := by
  rw [createDirectories] at h ⊢
  split_ifs at h ⊢
  exact makeDirectories_dir tree.start h

theorem createDirectories_node (faults : Faults) (tree : Tree) {q : Path}
    (hq : ¬ q <+: place path) :
    (createDirectories faults tree path).1.node q = tree.node q := by
  rw [createDirectories]
  split_ifs
  · rfl
  · exact (makeDirectories_node faults tree [] (place path) q).resolve_right fun h => hq h.2.2

/-! ### The file beside the destination -/

/-- The destination and the file beside it are in one directory, under the root. -/
theorem places (hadm : Admissible root relPath) : ∃ d last,
    place (target root relPath).parentPath = d ∧
    place (target root relPath) = d ++ [last] ∧
    place (temporary (target root relPath)) = d ++ [last ++ ascii ".mm-tmp"] ∧
    Tree.validName last = true ∧ Tree.validName (last ++ ascii ".mm-tmp") = true := by
  obtain ⟨others, last, hlast⟩ := components_eq_concat relPath
  have hvalid := names_of_plain hadm.2 last (by simp [hlast])
  have hdots : ∀ name ∈ (normalizeRoot root).names ++ others, name ≠ dot := by
    intro name hn
    apply hadm.ne_dot name
    rw [hlast, ← List.append_assoc]
    exact List.mem_append_left _ hn
  have htmp : ∀ name ∈ (normalizeRoot root).names ++ others ++ [last ++ ascii ".mm-tmp"],
      name ≠ dot := by
    intro name hn
    rcases List.mem_append.mp hn with hn | hn
    · exact hdots name hn
    · rw [List.mem_singleton.mp hn]
      intro heq
      have := congrArg List.length heq
      simp [ascii, dot] at this
  refine ⟨(normalizeRoot root).names ++ others, last, ?_, ?_, ?_, ?_, ?_⟩
  · rw [parentPath_target, hlast, List.dropLast_concat]
    exact place_of_forall hdots
  · rw [place_target hadm, place_root hadm, hlast, List.append_assoc]
  · rw [temporary, target, hlast, ← List.append_assoc, List.modifyLast_concat]
    exact place_of_forall htmp
  · exact Tree.validName_iff.mpr hvalid
  · refine Tree.validName_iff.mpr ⟨by simp [ascii], fun hs => ?_⟩
    rcases List.mem_append.mp hs with hs | hs
    · exact hvalid.2 hs
    · revert hs
      decide

/-- The file beside the destination is another file under the root. -/
theorem temporary_under (hadm : Admissible root relPath) :
    ∃ names, names ≠ components relPath ∧
      place (temporary (target root relPath)) = place (normalizeRoot root) ++ names := by
  obtain ⟨d, last, -, htarget, htmp, -⟩ := places hadm
  obtain ⟨others, last', hlast⟩ := components_eq_concat relPath
  rw [place_target hadm, hlast, ← List.append_assoc] at htarget
  obtain ⟨hd, hsame⟩ := List.append_inj' htarget rfl
  refine ⟨others ++ [last ++ ascii ".mm-tmp"], ?_, by rw [htmp, ← hd, List.append_assoc]⟩
  rw [hlast, hsame]
  simp [ascii]

theorem node_store {old : List (BitVec 8)}
    (h : tree.node (place path) = some (.file old)) (bytes : List (BitVec 8)) (q : Path) :
    (store tree path bytes).node q =
      if q = place path then some (.file bytes) else tree.node q := by
  obtain ⟨written, hput⟩ := Tree.exists_put_of_file h bytes
  rw [store, hput]
  exact Tree.node_put hput q

theorem content_cleanUp (path : PosixPath) (q : Path) :
    (cleanUp faults tree path).1.content q =
      if q = place path then if faults.cleaning.isSome then tree.content q else none
      else tree.content q := by
  rw [cleanUp]
  split <;> simp_all [Tree.content_remove]

/-- What is known once the file beside the destination is open. -/
structure Opened (root : PosixPath) (tree : Tree) (relPath : List (BitVec 8)) (opened : Tree) :
    Prop where
  temporary_node : opened.node (place (temporary (target root relPath))) = some (.file [])
  target_node : opened.node (place (target root relPath)) = tree.node (place (target root relPath))
  content_eq : ∀ q, q ≠ place (temporary (target root relPath)) →
    opened.content q = tree.content q

/-- Making the directories puts nothing in them. -/
theorem createDirectories_beside (faults : Faults) (tree : Tree) (hadm : Admissible root relPath) :
    (createDirectories faults tree (target root relPath).parentPath).1.node
        (place (temporary (target root relPath))) =
      tree.node (place (temporary (target root relPath))) ∧
    (createDirectories faults tree (target root relPath).parentPath).1.node
        (place (target root relPath)) = tree.node (place (target root relPath)) := by
  obtain ⟨d, last, hd, htarget, htmp, -⟩ := places hadm
  rw [htarget, htmp]
  constructor
  · apply createDirectories_node
    rw [hd]
    exact Tree.not_above d _
  · apply createDirectories_node
    rw [hd]
    exact Tree.not_above d _

theorem Opens.opened (h : Opens root faults tree relPath) :
    ∃ made opened, createDirectories faults tree (target root relPath).parentPath = (made, none) ∧
      openTruncated faults made (temporary (target root relPath)) = some opened ∧
      Opened root tree relPath opened := by
  obtain ⟨d, last, hd, htarget, htmp, -, hvalid⟩ := places h.admissible
  have hdir := createDirectories_dir h.created
  have hbeside := createDirectories_beside faults tree h.admissible
  have hcontent := createDirectories_content faults tree (target root relPath).parentPath
  have hcreated := h.created
  generalize createDirectories faults tree (target root relPath).parentPath = result at *
  obtain ⟨made, failure⟩ := result
  dsimp only at *
  have hfree : made.node (place (temporary (target root relPath))) ≠ some .dir := by
    rw [hbeside.1]
    exact h.free
  rw [hd] at hdir
  rw [htmp] at hfree
  obtain ⟨opened, hput⟩ := Tree.exists_put_in_dir hdir hvalid hfree []
  refine ⟨made, opened, by rw [hcreated], ?_, ?_, ?_, ?_⟩
  · rw [openTruncated, h.opening, htmp]
    exact hput
  · rw [htmp, Tree.node_put hput, if_pos rfl]
  · rw [← hbeside.2, Tree.node_put hput, htarget, if_neg (by simp [ascii])]
  · intro q hq
    rw [← hcontent, Tree.content_put_file hput, if_neg (htmp ▸ hq)]

variable {opened : Tree}

/-- A file is renamed unless the call fails or a directory is in the way. -/
theorem rename_spec (faults : Faults) {bytes : List (BitVec 8)}
    (hadm : Admissible root relPath)
    (hsrc : opened.node (place (temporary (target root relPath))) = some (.file bytes)) :
    (∃ renamed, rename faults opened (temporary (target root relPath)) (target root relPath) =
        some renamed ∧ faults.replacing = false ∧
        opened.node (place (target root relPath)) ≠ some .dir ∧
        renamed.node (place (target root relPath)) = some (.file bytes) ∧
        ∀ q, q ≠ place (target root relPath) → renamed.content q =
          if q = place (temporary (target root relPath)) then none else opened.content q) ∨
      rename faults opened (temporary (target root relPath)) (target root relPath) = none ∧
        (faults.replacing = true ∨ opened.node (place (target root relPath)) = some .dir) := by
  obtain ⟨d, last, -, htarget, htmp, hvalid, -⟩ := places hadm
  rw [htmp] at hsrc ⊢
  have hremoved := Tree.node_remove (t := opened) (p := d ++ [last ++ ascii ".mm-tmp"])
  have hcontent := Tree.content_remove (t := opened) (p := d ++ [last ++ ascii ".mm-tmp"])
  have hdir : (opened.remove (d ++ [last ++ ascii ".mm-tmp"])).1.node d = some .dir := by
    rw [hremoved, if_neg (by simp)]
    exact Tree.parent_dir (by rw [hsrc]; simp)
  have hlast : (opened.remove (d ++ [last ++ ascii ".mm-tmp"])).1.node (d ++ [last]) =
      opened.node (d ++ [last]) := by
    rw [hremoved, if_neg (by simp [ascii])]
  simp only [rename, htarget, htmp, hsrc]
  cases hrep : faults.replacing with
  | true => exact .inr ⟨rfl, .inl rfl⟩
  | false =>
    by_cases hblock : opened.node (d ++ [last]) = some .dir
    · have hput : (opened.remove (d ++ [last ++ ascii ".mm-tmp"])).1.put (d ++ [last])
          (.file bytes) = none := by
        rw [Option.eq_none_iff_forall_ne_some]
        intro renamed hput
        have htakes := (Tree.put_eq_some_iff.mp ⟨renamed, hput⟩).2.2.2
        rw [hlast, hblock] at htakes
        simp at htakes
      exact .inr ⟨hput, .inr hblock⟩
    · obtain ⟨renamed, hput⟩ := Tree.exists_put_in_dir hdir hvalid (by rwa [hlast]) bytes
      refine .inl ⟨renamed, hput, rfl, hblock, ?_, ?_⟩
      · rw [Tree.node_put hput, if_pos rfl]
      · intro q hq
        rw [Tree.content_put_file hput, if_neg hq, hcontent]

theorem Opened.store_node (h : Opened root tree relPath opened)
    (bytes : List (BitVec 8)) :
    (store opened (temporary (target root relPath)) bytes).node
      (place (temporary (target root relPath))) = some (.file bytes) := by
  rw [node_store h.temporary_node, if_pos rfl]

theorem Opened.store_target (h : Opened root tree relPath opened)
    (hadm : Admissible root relPath) (bytes : List (BitVec 8)) :
    (store opened (temporary (target root relPath)) bytes).node (place (target root relPath)) =
      tree.node (place (target root relPath)) := by
  obtain ⟨d, last, -, htarget, htmp, -⟩ := places hadm
  have hne : place (target root relPath) ≠ place (temporary (target root relPath)) := by
    rw [htarget, htmp]
    simp [ascii]
  rw [node_store h.temporary_node, if_neg hne, h.target_node]

theorem Opened.store_content (h : Opened root tree relPath opened)
    (bytes : List (BitVec 8)) (q : Path) :
    (store opened (temporary (target root relPath)) bytes).content q =
      if q = place (temporary (target root relPath)) then some bytes else tree.content q := by
  split_ifs with hq
  · rw [hq, Tree.content_eq_some, h.store_node]
  · rw [← h.content_eq q hq]
    simp only [Tree.content, node_store h.temporary_node, if_neg hq]

/-! ### How a write ends -/

/-- What is stranded where the renaming fails. -/
theorem stranded_of_blocked (hwriting : faults.writing = none)
    (hwhy : faults.replacing = true ∨ tree.node (place (target root relPath)) = some .dir) :
    stranded root faults tree relPath data =
      if faults.cleaning.isSome then some data else none := by
  rw [stranded, hwriting]
  cases hcleaning : faults.cleaning with
  | none => rfl
  | some message =>
    cases hrep : faults.replacing with
    | true => rfl
    | false => simp [hwhy.resolve_left (by simp [hrep])]

/-- Before the temporary file is opened no file is touched. -/
theorem write_of_not_opens (data : List (BitVec 8)) (h : ¬ Opens root faults tree relPath) :
    ∃ message after, write root faults tree relPath data = (.error message, after) ∧
      ∀ q, after.content q = tree.content q := by
  cases hres : resolve root relPath with
  | error message =>
    simp only [write, hres]
    exact ⟨_, tree, rfl, fun _ => rfl⟩
  | ok path =>
    obtain ⟨hadm, rfl⟩ := resolve_eq_ok.mp hres
    have hcontent := createDirectories_content faults tree (target root relPath).parentPath
    have hbeside := (createDirectories_beside faults tree hadm).1
    cases hcreated : createDirectories faults tree (target root relPath).parentPath with
    | mk made failure =>
      rw [hcreated] at hcontent hbeside
      cases failure with
      | some message =>
        simp only [write, hres, hcreated]
        exact ⟨_, made, rfl, hcontent⟩
      | none =>
        cases hopen : openTruncated faults made (temporary (target root relPath)) with
        | none =>
          simp only [write, hres, hcreated, hopen]
          exact ⟨_, made, rfl, hcontent⟩
        | some opened =>
          rw [openTruncated] at hopen
          split_ifs at hopen with hopening
          have htakes := (Tree.put_eq_some_iff.mp ⟨opened, hopen⟩).2.2.2
          refine absurd ⟨hadm, by rw [hcreated], by simpa using hopening, ?_⟩ h
          rw [← hbeside]
          simpa using htakes

/-- Once it is open, the destination is replaced and the temporary name is free, or what is left
stands under it. -/
theorem write_of_opens (data : List (BitVec 8)) (h : Opens root faults tree relPath) :
    (∃ after, write root faults tree relPath data = (.ok (), after) ∧
        stranded root faults tree relPath data = none ∧
        after.node (place (target root relPath)) = some (.file data) ∧
        ∀ q, q ≠ place (target root relPath) → after.content q =
          if q = place (temporary (target root relPath)) then none else tree.content q) ∨
      ∃ message after, write root faults tree relPath data = (.error message, after) ∧
        ∀ q, after.content q = if q = place (temporary (target root relPath)) then
          stranded root faults tree relPath data else tree.content q := by
  obtain ⟨made, opened, hcreated, hopen, hopened⟩ := h.opened
  have hres := resolve_eq_ok.mpr ⟨h.admissible, rfl⟩
  cases hwriting : faults.writing with
  | some n =>
    refine .inr ⟨_, _, by simp only [write, hres, hcreated, hopen, hwriting]; rfl, fun q => ?_⟩
    rw [content_cleanUp, hopened.store_content, stranded, hwriting]
    cases faults.cleaning <;> split_ifs <;> simp_all
  | none =>
    have hkept := hopened.store_content data
    have hsame := hopened.store_target h.admissible data
    rcases rename_spec faults h.admissible (hopened.store_node data) with
      ⟨renamed, hren, hrep, hblock, hnode, hcontent⟩ | ⟨hren, hwhy⟩
    · refine .inl ⟨renamed, by simp only [write, hres, hcreated, hopen, hwriting, hren], ?_, hnode,
        fun q hq => ?_⟩
      · rw [hsame] at hblock
        rw [stranded, hwriting, hrep]
        cases faults.cleaning <;> simp [hblock]
      · rw [hcontent q hq, hkept]
        split_ifs <;> rfl
    · refine .inr ⟨_, _, by simp only [write, hres, hcreated, hopen, hwriting, hren]; rfl,
        fun q => ?_⟩
      rw [hsame] at hwhy
      rw [content_cleanUp, hkept, stranded_of_blocked hwriting hwhy]
      split_ifs <;> rfl

theorem read_of_file (hadm : Admissible root relPath)
    (h : tree.node (place (target root relPath)) = some (.file data)) :
    read root tree relPath = .ok data := by
  rw [place_target hadm] at h
  simp only [read, resolve_eq_ok.mpr ⟨hadm, rfl⟩, status_target hadm, h]

theorem Atomic.unclaimed (hatomic : Atomic root faults tree relPath data) :
    Unclaimed root faults tree relPath data := by
  intro h
  obtain ⟨tmp, hother, htmp⟩ := temporary_under h.admissible
  rw [Atomic] at hatomic
  rcases write_of_opens data h with ⟨after, hwrite, hstranded, -, hcontent⟩ |
    ⟨message, after, hwrite, hcontent⟩
  · have hne : place (temporary (target root relPath)) ≠ place (target root relPath) := by
      rw [htmp, place_target h.admissible]
      exact fun heq => hother (List.append_cancel_left heq)
    rw [hwrite] at hatomic
    have hframe := hatomic.2 tmp hother
    rw [contentUnder, contentUnder, ← htmp, hcontent _ hne, if_pos rfl] at hframe
    rw [hstranded, ← hframe]
  · rw [hwrite] at hatomic
    have hframe := hatomic tmp
    rw [contentUnder, contentUnder, ← htmp, hcontent, if_pos rfl] at hframe
    exact hframe.symm

theorem Unclaimed.atomic (hfree : Unclaimed root faults tree relPath data) :
    Atomic root faults tree relPath data := by
  rw [Atomic]
  by_cases h : Opens root faults tree relPath
  · rcases write_of_opens data h with ⟨after, hwrite, hstranded, hnode, hcontent⟩ |
      ⟨message, after, hwrite, hcontent⟩
    · rw [hwrite]
      refine ⟨read_of_file h.admissible hnode, fun names hne => ?_⟩
      have hout : place (normalizeRoot root) ++ names ≠ place (target root relPath) := by
        rw [place_target h.admissible]
        exact fun heq => hne (List.append_cancel_left heq)
      rw [contentUnder, contentUnder, hcontent _ hout]
      split_ifs with heq
      · rw [heq, hfree h, hstranded]
      · rfl
    · rw [hwrite]
      intro names
      rw [contentUnder, contentUnder, hcontent]
      split_ifs with heq
      · rw [heq, hfree h]
      · rfl
  · obtain ⟨message, after, hwrite, hcontent⟩ := write_of_not_opens data h
    rw [hwrite]
    exact fun names => hcontent _

/-- A write is an atomic update of one file exactly where it finds the temporary name free. -/
theorem atomic_iff_unclaimed (root : PosixPath) (faults : Faults) (tree : Tree)
    (relPath data : List (BitVec 8)) :
    Atomic root faults tree relPath data ↔ Unclaimed root faults tree relPath data :=
  ⟨Atomic.unclaimed, Unclaimed.atomic⟩

/-! A user keeps `a.mm-tmp`, and writes `a`. -/

def noFaults : Faults := ⟨fun _ => none, false, none, false, none⟩

def takenTree : Tree where
  entries := [([], .dir), ([ascii "cache"], .dir),
    ([ascii "cache", ascii "a.mm-tmp"], .file [0x31])]
  distinct := by decide
  start := by decide
  closed := by decide
  valid := by decide

theorem takenName_not_atomic :
    ¬ Atomic (.ofBytes (ascii "/cache")) noFaults takenTree (ascii "a") [0x32] := by
  refine mt Atomic.unclaimed fun hfree => ?_
  have hadm : Admissible (.ofBytes (ascii "/cache")) (ascii "a") :=
    admissible_of_word (by decide) (by decide)
  have htaken := hfree ⟨hadm, rfl, rfl, by decide +kernel⟩
  revert htaken
  decide +kernel

end MotionMaster.UserCache
