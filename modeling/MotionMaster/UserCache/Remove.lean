import MotionMaster.Lib.FileTree
import MotionMaster.UserCache.Resolve

/-!
# Deleting from the user cache

The process names the files it holds open, as the listing spells them, so that they are not deleted
under it. `UserCache::remove` compares the names with the text of the request. What it deletes is
what the text is resolved to, and all that lies below.
-/

namespace MotionMaster.UserCache

open FsPath FileTree

/-- Where a path leads; a dot stays where it stands. -/
def place (path : PosixPath) : Path := path.names.filter (· ≠ dot)

/-- `fs::status`: an empty path leads nowhere. -/
def status (tree : Tree) (path : PosixPath) : Option Node :=
  if path = PosixPath.empty then none else tree.node (place path)

structure UserCacheFile where
  path : List (BitVec 8)
  size : ℕ
  deletable : Bool

def isRetained (retained : List (List (BitVec 8))) (relPath : List (BitVec 8)) : Bool :=
  retained.contains relPath

/-- `lexically_relative` to the root, as a generic string. -/
def listedPath (names : List Name) : List (BitVec 8) := [slash].intercalate names

/-- The row of an entry: one of a regular file under the root. -/
def row (root_ : PosixPath) (retained : List (List (BitVec 8))) (e : Path × Node) :
    Option UserCacheFile :=
  match e.2 with
  | .dir => none
  | .file content =>
    if (place root_).isPrefixOf e.1 then
      let path := listedPath (e.1.drop (place root_).length)
      some ⟨path, content.length, !isRetained retained path⟩
    else none

def list (root : PosixPath) (retained : List (List (BitVec 8))) (tree : Tree) :
    Except (List (BitVec 8)) (List UserCacheFile) :=
  let root_ := normalizeRoot root
  match status tree root_ with
  | none => .ok []
  | some (.file _) => .error (ascii "failed to list " ++ root_.string ++ ascii ": Not a directory")
  | some .dir =>
    .ok ((tree.entries.filterMap (row root_ retained)).mergeSort fun a b => a.path ≤ b.path)

/-- Removes the directories left empty between a path and the root. -/
def prune (root_ : PosixPath) (tree : Tree) (dir : PosixPath) : Tree :=
  if dir = root_ ∨ dir = dir.parentPath then tree
  else if (tree.remove (place dir)).2 then
    prune root_ (tree.remove (place dir)).1 dir.parentPath
  else tree
termination_by dir.names.length + dir.trailing.toNat
decreasing_by
  rename_i h _
  obtain ⟨absolute, names, trailing⟩ := dir
  rw [not_or] at h
  cases trailing with
  | true => simp [PosixPath.parentPath]
  | false =>
    have hne : names ≠ [] := by
      rintro rfl
      exact h.2 rfl
    have := List.length_pos_iff.mpr hne
    simp [PosixPath.parentPath]
    omega

def remove (root : PosixPath) (retained : List (List (BitVec 8))) (tree : Tree)
    (relPath : List (BitVec 8)) : Except (List (BitVec 8)) Bool × Tree :=
  match resolve root relPath with
  | .error message => (.error (ascii message), tree)
  | .ok path =>
    if isRetained retained relPath then
      (.error (relPath ++
        ascii " is in use by Motion Master and cannot be deleted while it is running"), tree)
    else
      match status tree path with
      | none => (.ok false, tree)
      | some .dir =>
        (.ok true, prune (normalizeRoot root) (tree.removeAll (place path)) path.parentPath)
      | some (.file _) =>
        (.ok true, prune (normalizeRoot root) (tree.remove (place path)).1 path.parentPath)

/-! ### What retaining promises -/

/-- There is a file under the root, by these names. -/
def Holds (root : PosixPath) (tree : Tree) (names : List Name) (content : List (BitVec 8)) : Prop :=
  status tree (normalizeRoot root) = some .dir ∧
    tree.node (place (normalizeRoot root) ++ names) = some (.file content)

/-- A retained file outlives the request, and a file that is listed as deletable does not outlive a
request that spells it as listed. -/
structure HonoursRetention (root : PosixPath) (retained : List (List (BitVec 8))) (tree : Tree)
    (relPath : List (BitVec 8)) : Prop where
  retained_kept : ∀ names content, Holds root tree names content →
    isRetained retained (listedPath names) = true →
      Holds root (remove root retained tree relPath).2 names content
  deletable_removed : ∀ files, list root retained tree = .ok files →
    ∀ f ∈ files, f.deletable = true → f.path = relPath →
      (remove root retained tree relPath).1 = .ok true ∧
        ∃ left, list root retained (remove root retained tree relPath).2 = .ok left ∧
          ∀ f ∈ left, f.path ≠ relPath

def backslash : BitVec 8 := 0x5C

def Admissible (root : PosixPath) (relPath : List (BitVec 8)) : Prop :=
  normalizeRoot root ≠ dotPath ∧ ∀ c ∈ components relPath, Plain c

/-- A request that is carried out has no retained file at or below it, and one that is spelled as a
deletable file names it. -/
structure Straight (root : PosixPath) (retained : List (List (BitVec 8))) (tree : Tree)
    (relPath : List (BitVec 8)) : Prop where
  spared : Admissible root relPath → isRetained retained relPath = false →
    ∀ names content, Holds root tree (components relPath ++ names) content →
      isRetained retained (listedPath (components relPath ++ names)) = false
  named : ∀ names content, Holds root tree names content → listedPath names = relPath →
    isRetained retained relPath = false → Admissible root relPath ∧ backslash ∉ relPath

variable {root : PosixPath} {retained : List (List (BitVec 8))} {tree : Tree}
  {relPath content : List (BitVec 8)} {names inner : List Name} {absolute : Bool}

/-! ### Places -/

def target (root : PosixPath) (relPath : List (BitVec 8)) : PosixPath :=
  ⟨(normalizeRoot root).absolute, (normalizeRoot root).names ++ components relPath, false⟩

theorem resolve_eq_ok {path : PosixPath} :
    resolve root relPath = .ok path ↔ Admissible root relPath ∧ path = target root relPath := by
  constructor
  · intro h
    have hroot : normalizeRoot root ≠ dotPath := fun hdot => resolve_of_dot hdot path h
    have hplain : ∀ c ∈ components relPath, Plain c := by
      cases hsplit : splitRelative relPath with
      | error message => simp [resolve, hsplit] at h
      | ok parts => exact (splitRelative_eq_ok.mp hsplit).2
    rw [resolve_eq_append hroot hplain] at h
    exact ⟨⟨hroot, hplain⟩, (Except.ok.inj h).symm⟩
  · rintro ⟨⟨hroot, hplain⟩, rfl⟩
    exact resolve_eq_append hroot hplain

theorem place_of_forall {path : PosixPath} (h : ∀ name ∈ path.names, name ≠ dot) :
    place path = path.names :=
  List.filter_eq_self.mpr fun name hn => by simpa using h name hn

theorem ne_dot_of_kept {kept : List Name} (h : Kept absolute kept) : ∀ name ∈ kept, name ≠ dot := by
  induction h with
  | nil => simp
  | up _ _ _ ih =>
    intro name hn
    rcases List.mem_cons.mp hn with rfl | hn
    · decide
    · exact ih name hn
  | name hd _ _ ih =>
    intro name hn
    rcases List.mem_cons.mp hn with rfl | hn
    · exact hd
    · exact ih name hn

theorem admissible_of_word (hroot : normalizeRoot root ≠ dotPath)
    (h : ∀ c ∈ components relPath, c ≠ [] ∧ (∀ b ∈ c, isWord b = true) ∧
      ¬ NamesDevice c) : Admissible root relPath :=
  ⟨hroot, fun c hc => plain_of_word (h c hc).1 (h c hc).2.1 (h c hc).2.2
    (separator_free relPath c hc)⟩

theorem Admissible.root_ne_dot (h : Admissible root relPath) :
    ∀ name ∈ (normalizeRoot root).names, name ≠ dot := by
  obtain ⟨kept, hkept, heq⟩ := (normalizeRoot_shape root).resolve_left h.1
  intro name hn
  rw [heq] at hn
  exact ne_dot_of_kept hkept name (List.mem_reverse.mp hn)

theorem Admissible.ne_dot (h : Admissible root relPath) :
    ∀ name ∈ (normalizeRoot root).names ++ components relPath, name ≠ dot := by
  intro name hn
  rcases List.mem_append.mp hn with hn | hn
  · exact h.root_ne_dot name hn
  · exact (h.2 name hn).notDot

/-! ### Listed paths -/

theorem splitOn_listedPath (hne : names ≠ []) (h : ∀ name ∈ names, slash ∉ name) :
    (listedPath names).splitOnP (· == slash) = names :=
  List.splitOn_intercalate slash h hne

/-- Splitting on both separators is splitting on slashes where there is no backslash. -/
theorem components_prefix_iff (relPath : List (BitVec 8)) :
    components relPath <+: relPath.splitOnP (· == slash) ↔ backslash ∉ relPath := by
  induction relPath with
  | nil => simp [components]
  | cons x relPath ih =>
    rw [components] at ih ⊢
    obtain ⟨first, others, heq⟩ :=
      List.exists_cons_of_ne_nil (List.splitOnP_ne_nil isSeparator relPath)
    obtain ⟨first', others', heq'⟩ :=
      List.exists_cons_of_ne_nil (List.splitOnP_ne_nil (· == slash) relPath)
    rw [List.splitOnP_cons_eq_if_modifyHead, List.splitOnP_cons_eq_if_modifyHead]
    have hne : backslash ≠ slash := by decide
    by_cases hslash : x = slash
    · have hsep : isSeparator slash = true := by decide
      simp [hslash, hsep, hne, ih]
    · by_cases hback : x = backslash
      · have hsep : isSeparator backslash = true := by decide
        simp [hback, hsep, hne, heq']
      · have hsep : isSeparator x = false := by
          rw [isSeparator, Bool.or_eq_false_iff]
          exact ⟨beq_eq_false_iff_ne.mpr hslash, beq_eq_false_iff_ne.mpr hback⟩
        rw [heq, heq', List.cons_prefix_cons] at ih
        simp [hsep, hslash, heq, heq', Ne.symm hback, ih]

theorem components_listedPath (hne : names ≠ []) (h : ∀ name ∈ names, slash ∉ name) :
    components (listedPath names) <+: names ↔ backslash ∉ listedPath names := by
  rw [← components_prefix_iff, splitOn_listedPath hne h]

theorem listedPath_inj (hne : names ≠ []) (h : ∀ name ∈ names, slash ∉ name) (hne' : inner ≠ [])
    (h' : ∀ name ∈ inner, slash ∉ name) (heq : listedPath names = listedPath inner) :
    names = inner := by
  rw [← splitOn_listedPath hne h, ← splitOn_listedPath hne' h', heq]

theorem Holds.names_ne_nil (h : Holds root tree names content) : names ≠ [] := by
  rintro rfl
  obtain ⟨hroot, hfile⟩ := h
  rw [status] at hroot
  split_ifs at hroot
  rw [List.append_nil, hroot] at hfile
  cases hfile

theorem Holds.slash_free (h : Holds root tree names content) : ∀ name ∈ names, slash ∉ name := by
  have hnode : tree.node (place (normalizeRoot root) ++ names) ≠ none := by simp [h.2]
  exact fun name hn => (Tree.valid_of_node hnode name (List.mem_append_right _ hn)).2

theorem list_of_dir (retained : List (List (BitVec 8)))
    (h : status tree (normalizeRoot root) = some .dir) :
    ∃ files, list root retained tree = .ok files := by
  rw [list]
  simp only [h]
  exact ⟨_, rfl⟩

/-- The rows of the listing are the files under the root. -/
theorem mem_list {f : UserCacheFile} :
    (∃ files, list root retained tree = .ok files ∧ f ∈ files) ↔
      ∃ names content, Holds root tree names content ∧
        f = ⟨listedPath names, content.length, !isRetained retained (listedPath names)⟩ := by
  constructor
  · rintro ⟨files, hlist, hf⟩
    rw [list] at hlist
    cases hstatus : status tree (normalizeRoot root) with
    | none =>
      simp only [hstatus] at hlist
      cases hlist
      cases hf
    | some n =>
      cases n with
      | file content => simp [hstatus] at hlist
      | dir =>
        simp only [hstatus] at hlist
        cases hlist
        obtain ⟨⟨p, n⟩, he, hrow⟩ := List.mem_filterMap.mp (List.mem_mergeSort.mp hf)
        cases n with
        | dir => cases hrow
        | file content =>
          simp only [row] at hrow
          split_ifs at hrow with hprefix
          obtain ⟨names, rfl⟩ := List.isPrefixOf_iff_prefix.mp hprefix
          rw [List.drop_left] at hrow
          exact ⟨names, content, ⟨hstatus, Tree.node_eq_some_iff.mpr he⟩,
            (Option.some.inj hrow).symm⟩
  · rintro ⟨names, content, ⟨hstatus, hfile⟩, rfl⟩
    rw [list]
    simp only [hstatus]
    refine ⟨_, rfl, List.mem_mergeSort.mpr (List.mem_filterMap.mpr
      ⟨_, Tree.node_eq_some_iff.mp hfile, ?_⟩)⟩
    simp [row, List.isPrefixOf_iff_prefix]

/-! ### What is removed -/

/-- Pruning takes no file, and leaves the root. -/
theorem prune_spec (absolute : Bool) (hdot : ∀ name ∈ names ++ inner, name ≠ dot)
    (hdir : tree.node (names ++ inner) = some .dir) :
    (∀ p content, (prune ⟨absolute, names, false⟩ tree ⟨absolute, names ++ inner, false⟩).node p =
        some (.file content) ↔ tree.node p = some (.file content)) ∧
      (prune ⟨absolute, names, false⟩ tree ⟨absolute, names ++ inner, false⟩).node names =
        some .dir := by
  -- One name is dropped in each turn.
  induction inner using List.reverseRecOn generalizing tree with
  | nil =>
    rw [prune, if_pos (by simp)]
    rw [List.append_nil] at hdir
    exact ⟨fun p content => Iff.rfl, hdir⟩
  | append_singleton inner name ih =>
    have hplace : place ⟨absolute, names ++ (inner ++ [name]), false⟩ =
        names ++ (inner ++ [name]) := place_of_forall hdot
    have hparent : (PosixPath.mk absolute (names ++ (inner ++ [name])) false).parentPath =
        ⟨absolute, names ++ inner, false⟩ := by
      simp [PosixPath.parentPath, ← List.append_assoc]
    have hgoes : ¬ ((⟨absolute, names ++ (inner ++ [name]), false⟩ : PosixPath) =
        ⟨absolute, names, false⟩ ∨ (⟨absolute, names ++ (inner ++ [name]), false⟩ : PosixPath) =
          ⟨absolute, names ++ inner, false⟩) := by
      simp
    have habove : tree.node (names ++ inner) = some .dir :=
      Tree.parent_dir (by rw [List.append_assoc, hdir]; simp)
    rw [prune, hparent, if_neg hgoes, hplace]
    split_ifs with hremoved
    · have hnode := Tree.node_remove (t := tree) (p := names ++ (inner ++ [name]))
      have hinner : ∀ other ∈ names ++ inner, other ≠ dot := by
        intro other ho
        apply hdot other
        rw [← List.append_assoc]
        exact List.mem_append_left _ ho
      have hdir' : (tree.remove (names ++ (inner ++ [name]))).1.node (names ++ inner) =
          some .dir := by
        rw [hnode]
        simp [habove]
      have hih := ih hinner hdir'
      refine ⟨fun p content => (hih.1 p content).trans ?_, hih.2⟩
      rw [hnode]
      by_cases hp : p = names ++ (inner ++ [name])
      · simp [hp, hremoved, hdir]
      · simp [hp]
    · have hbelow : tree.node (names ++ (inner ++ [name])) ≠ none := by simp [hdir]
      exact ⟨fun p content => Iff.rfl,
        Tree.dir_above (List.prefix_append names _) (by simp) hbelow⟩

theorem remove_of_not_admissible (retained : List (List (BitVec 8))) (tree : Tree)
    (h : ¬ Admissible root relPath) :
    ∃ message, remove root retained tree relPath = (.error message, tree) := by
  rw [remove]
  cases hres : resolve root relPath with
  | error message => exact ⟨_, rfl⟩
  | ok path => exact absurd (resolve_eq_ok.mp hres).1 h

theorem remove_of_retained (h : isRetained retained relPath = true) :
    ∃ message, remove root retained tree relPath = (.error message, tree) := by
  rw [remove]
  cases hres : resolve root relPath with
  | error message => exact ⟨_, rfl⟩
  | ok path => exact ⟨_, if_pos h⟩

section CarriedOut

variable (hadm : Admissible root relPath)

include hadm

theorem place_root : place (normalizeRoot root) = (normalizeRoot root).names :=
  place_of_forall hadm.root_ne_dot

theorem place_target : place (target root relPath) =
    place (normalizeRoot root) ++ components relPath := by
  rw [place_root hadm]
  exact place_of_forall hadm.ne_dot

theorem status_target : status tree (target root relPath) =
    tree.node (place (normalizeRoot root) ++ components relPath) := by
  rw [status, if_neg (by simp [target, PosixPath.empty, components_ne_nil]), place_target hadm]

omit hadm in
theorem parentPath_target : (target root relPath).parentPath =
    ⟨(normalizeRoot root).absolute,
      (normalizeRoot root).names ++ (components relPath).dropLast, false⟩ := by
  simp [target, PosixPath.parentPath, List.dropLast_append_of_ne_nil (components_ne_nil relPath)]

/-- The directory of what is removed stays until it is pruned. -/
theorem dir_of_removed {removed : Tree}
    (hp : tree.node (place (normalizeRoot root) ++ components relPath) ≠ none)
    (hkept : ∀ p, ¬ place (normalizeRoot root) ++ components relPath <+: p →
      removed.node p = tree.node p) :
    removed.node ((normalizeRoot root).names ++ (components relPath).dropLast) = some .dir := by
  obtain ⟨others, last, hlast⟩ := components_eq_concat relPath
  rw [place_root hadm, hlast, ← List.append_assoc] at hp hkept
  rw [hlast, List.dropLast_concat, hkept _ (Tree.not_above _ last)]
  exact Tree.parent_dir hp

/-- Whichever call has removed what was found, pruning ends with the same files. -/
theorem prune_removed {removed : Tree}
    (hp : tree.node (place (normalizeRoot root) ++ components relPath) ≠ none)
    (hnode : ∀ p, removed.node p =
      if place (normalizeRoot root) ++ components relPath <+: p then none else tree.node p) :
    (∀ p content, (prune (normalizeRoot root) removed (target root relPath).parentPath).node p =
        some (.file content) ↔ tree.node p = some (.file content) ∧
          ¬ place (normalizeRoot root) ++ components relPath <+: p) ∧
      (prune (normalizeRoot root) removed (target root relPath).parentPath).node
        (place (normalizeRoot root)) = some .dir := by
  have hroot : normalizeRoot root =
      ⟨(normalizeRoot root).absolute, (normalizeRoot root).names, false⟩ := by
    rw [← normalizeRoot_trailing root]
  have hdot : ∀ name ∈ (normalizeRoot root).names ++ (components relPath).dropLast, name ≠ dot :=
    fun name hn => hadm.ne_dot name (((List.dropLast_sublist _).append_left _).mem hn)
  have hdir := dir_of_removed hadm hp fun p hout => by rw [hnode, if_neg hout]
  obtain ⟨hfiles, hstays⟩ := prune_spec (normalizeRoot root).absolute hdot hdir
  rw [← hroot, ← parentPath_target] at hfiles hstays
  rw [← place_root hadm] at hstays
  refine ⟨fun p content => (hfiles p content).trans ?_, hstays⟩
  rw [hnode]
  split_ifs with hbelow
  · simp [hbelow]
  · simp [hbelow]

variable (hfree : isRetained retained relPath = false)

include hfree

/-- What is found goes with all below it, and nothing else does. -/
theorem remove_of_present
    (hp : tree.node (place (normalizeRoot root) ++ components relPath) ≠ none) :
    (remove root retained tree relPath).1 = .ok true ∧
      (∀ p content, (remove root retained tree relPath).2.node p = some (.file content) ↔
        tree.node p = some (.file content) ∧
          ¬ place (normalizeRoot root) ++ components relPath <+: p) ∧
      (remove root retained tree relPath).2.node (place (normalizeRoot root)) = some .dir := by
  have htarget : place (normalizeRoot root) ++ components relPath ≠ [] := by
    simp [components_ne_nil]
  simp only [remove, resolve_eq_ok.mpr ⟨hadm, rfl⟩, hfree, status_target hadm, place_target hadm]
  cases hnode : tree.node (place (normalizeRoot root) ++ components relPath) with
  | none => exact absurd hnode hp
  | some n =>
    cases n with
    | dir => exact ⟨rfl, prune_removed hadm hp (Tree.node_removeAll htarget)⟩
    | file content => exact ⟨rfl, prune_removed hadm hp (Tree.node_remove_file hnode)⟩

theorem remove_of_absent
    (hp : tree.node (place (normalizeRoot root) ++ components relPath) = none) :
    remove root retained tree relPath = (.ok false, tree) := by
  simp [remove, resolve_eq_ok.mpr ⟨hadm, rfl⟩, hfree, status_target hadm, hp]

theorem holds_remove_iff : Holds root (remove root retained tree relPath).2 names content ↔
    Holds root tree names content ∧ ¬ components relPath <+: names := by
  by_cases hp : tree.node (place (normalizeRoot root) ++ components relPath) = none
  · rw [remove_of_absent hadm hfree hp]
    refine (and_iff_left_of_imp fun hholds hbelow => ?_).symm
    have hfound := hholds.2
    by_cases heq : components relPath = names
    · rw [← heq, hp] at hfound
      cases hfound
    · have hdir := Tree.dir_above (t := tree)
        ((List.prefix_append_right_inj (place (normalizeRoot root))).mpr hbelow)
        (fun h => heq (List.append_cancel_left h)) (by simp [hfound])
      rw [hp] at hdir
      cases hdir
  · obtain ⟨-, hfiles, hstays⟩ := remove_of_present hadm hfree hp
    have hroot : tree.node (place (normalizeRoot root)) = some .dir :=
      Tree.dir_above (List.prefix_append _ _) (by simp [components_ne_nil]) hp
    simp only [Holds, status, hfiles, hstays, hroot, List.prefix_append_right_inj, and_assoc]

end CarriedOut

/-- A request that is refused changes nothing. -/
theorem remove_of_refused (tree : Tree)
    (h : ¬ (Admissible root relPath ∧ isRetained retained relPath = false)) :
    ∃ message, remove root retained tree relPath = (.error message, tree) := by
  by_cases hadm : Admissible root relPath
  · apply remove_of_retained
    simpa [hadm] using h
  · exact remove_of_not_admissible retained tree hadm

theorem Straight.retained_kept (h : Straight root retained tree relPath)
    (hholds : Holds root tree names content)
    (hret : isRetained retained (listedPath names) = true) :
    Holds root (remove root retained tree relPath).2 names content := by
  by_cases hgoes : Admissible root relPath ∧ isRetained retained relPath = false
  · rw [holds_remove_iff hgoes.1 hgoes.2]
    refine ⟨hholds, ?_⟩
    rintro ⟨others, rfl⟩
    rw [h.spared hgoes.1 hgoes.2 others content hholds] at hret
    cases hret
  · obtain ⟨message, heq⟩ := remove_of_refused tree hgoes
    rw [heq]
    exact hholds

theorem Straight.deletable_removed (h : Straight root retained tree relPath)
    (hholds : Holds root tree names content) (hpath : listedPath names = relPath)
    (hfree : isRetained retained relPath = false) :
    (remove root retained tree relPath).1 = .ok true ∧
      ∃ left, list root retained (remove root retained tree relPath).2 = .ok left ∧
        ∀ f ∈ left, f.path ≠ relPath := by
  obtain ⟨hadm, hback⟩ := h.named names content hholds hpath hfree
  have hbelow : components relPath <+: names := by
    rw [← hpath] at hback ⊢
    exact (components_listedPath hholds.names_ne_nil hholds.slash_free).mpr hback
  have hp : tree.node (place (normalizeRoot root) ++ components relPath) ≠ none := by
    intro hnone
    have hafter := remove_of_absent hadm hfree hnone
    have hleft := (holds_remove_iff hadm hfree).mp (by rw [hafter]; exact hholds)
    exact hleft.2 hbelow
  obtain ⟨hok, -, hstays⟩ := remove_of_present hadm hfree hp
  have hstatus : status (remove root retained tree relPath).2 (normalizeRoot root) =
      some .dir := by
    have hroot := hholds.1
    rw [status] at hroot ⊢
    split_ifs at hroot ⊢
    exact hstays
  obtain ⟨left, hleft⟩ := list_of_dir retained hstatus
  refine ⟨hok, left, hleft, fun f hf heq => ?_⟩
  obtain ⟨names', content', hholds', rfl⟩ := mem_list.mp ⟨left, hleft, hf⟩
  have hbefore := (holds_remove_iff hadm hfree).mp hholds'
  have hsame := listedPath_inj hholds.names_ne_nil hholds.slash_free hholds'.names_ne_nil
    hholds'.slash_free (hpath.trans heq.symm)
  exact hbefore.2 (hsame ▸ hbelow)

theorem HonoursRetention.spared (h : HonoursRetention root retained tree relPath)
    (hadm : Admissible root relPath) (hfree : isRetained retained relPath = false)
    (hholds : Holds root tree (components relPath ++ names) content) :
    isRetained retained (listedPath (components relPath ++ names)) = false := by
  by_contra hret
  have hkept := h.retained_kept _ content hholds (by simpa using hret)
  exact ((holds_remove_iff hadm hfree).mp hkept).2 (List.prefix_append _ _)

theorem HonoursRetention.named (h : HonoursRetention root retained tree relPath)
    (hholds : Holds root tree names content) (hpath : listedPath names = relPath)
    (hfree : isRetained retained relPath = false) :
    Admissible root relPath ∧ backslash ∉ relPath := by
  obtain ⟨files, hfiles, hf⟩ := mem_list.mpr
    ⟨names, content, hholds, rfl⟩
  obtain ⟨hok, left, hleft, hgone⟩ := h.deletable_removed files hfiles _ hf
    (by simp [hpath, hfree]) hpath
  have hadm : Admissible root relPath := by
    by_contra hnot
    obtain ⟨message, heq⟩ := remove_of_not_admissible retained tree hnot
    rw [heq] at hok
    cases hok
  refine ⟨hadm, ?_⟩
  have hbelow : components relPath <+: names := by
    by_contra hnot
    obtain ⟨left', hleft', hf'⟩ := mem_list.mpr
      ⟨names, content, (holds_remove_iff hadm hfree).mpr ⟨hholds, hnot⟩, rfl⟩
    rw [hleft] at hleft'
    cases hleft'
    exact hgone _ hf' hpath
  rw [← hpath] at hbelow ⊢
  exact (components_listedPath hholds.names_ne_nil hholds.slash_free).mp hbelow

/-- Retaining a file keeps it, and a file listed as deletable can be deleted, exactly where requests
are straight. -/
theorem honoursRetention_iff_straight (root : PosixPath) (retained : List (List (BitVec 8)))
    (tree : Tree) (relPath : List (BitVec 8)) :
    HonoursRetention root retained tree relPath ↔ Straight root retained tree relPath := by
  constructor
  · intro h
    exact ⟨fun hadm hfree names content => h.spared hadm hfree, fun names content => h.named⟩
  · intro h
    refine ⟨fun names content => h.retained_kept, ?_⟩
    intro files hfiles f hf hdel hpath
    obtain ⟨names, content, hholds, rfl⟩ := mem_list.mp ⟨files, hfiles, hf⟩
    have hfree : isRetained retained (listedPath names) = false := by simpa using hdel
    exact h.deletable_removed hholds hpath (hpath ▸ hfree)

/-! The log file is retained, and its directory is deleted. -/

def logTree : Tree where
  entries := [([], .dir), ([ascii "cache"], .dir), ([ascii "cache", ascii "logs"], .dir),
    ([ascii "cache", ascii "logs", ascii "mm.log"], .file [0x6C])]
  distinct := by decide
  start := by decide
  closed := by decide
  valid := by decide

theorem logDirectory_not_honoursRetention :
    ¬ HonoursRetention (.ofBytes (ascii "/cache")) [ascii "logs/mm.log"] logTree
      (ascii "logs") := by
  intro h
  have hadm : Admissible (.ofBytes (ascii "/cache")) (ascii "logs") :=
    admissible_of_word (by decide) (by decide)
  have hholds : Holds (.ofBytes (ascii "/cache")) logTree
      (components (ascii "logs") ++ [ascii "mm.log"]) [0x6C] := ⟨by decide, by decide⟩
  have hspared := h.spared hadm (by decide) hholds
  revert hspared
  decide

end MotionMaster.UserCache
