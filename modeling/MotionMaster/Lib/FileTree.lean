import Mathlib.Data.List.Induction
import Mathlib.Data.List.Nodup
import MotionMaster.Lib.FsPath

/-!
# Trees of files

A file system without links, as the entries under the place its paths start from. Every entry lies
in a directory, and every name is one a system can hold.
-/

namespace FileTree

open FsPath (Name slash)

abbrev Path := List Name

inductive Node where
  | dir
  | file (content : List (BitVec 8))
  deriving DecidableEq

abbrev Entries := List (Path × Node)

def entry : Entries → Path → Option Node
  | [], _ => none
  | (q, n) :: t, p => if q = p then some n else entry t p

def keep (f : Path → Bool) (t : Entries) : Entries := t.filter fun e => f e.1

theorem entry_keep (f : Path → Bool) (t : Entries) (p : Path) :
    entry (keep f t) p = if f p = true then entry t p else none := by
  induction t with
  | nil => simp [keep, entry]
  | cons e t ih =>
    obtain ⟨q, n⟩ := e
    rw [keep] at ih ⊢
    by_cases hq : q = p
    · subst hq
      by_cases hf : f q = true
      · simp [entry, hf]
      · simp [hf, ih]
    · by_cases hf : f q = true
      · simp [entry, hf, hq, ih]
      · simp [entry, hf, hq, ih]

theorem entry_ne_none_iff {t : Entries} {p : Path} : entry t p ≠ none ↔ ∃ e ∈ t, e.1 = p := by
  induction t with
  | nil => simp [entry]
  | cons e t ih =>
    obtain ⟨q, n⟩ := e
    by_cases hq : q = p
    · simp [entry, hq]
    · rw [entry, if_neg hq, ih, List.exists_mem_cons_iff, or_iff_right hq]

theorem entry_eq_some_iff {t : Entries} (h : (t.map Prod.fst).Nodup) {p : Path} {n : Node} :
    entry t p = some n ↔ (p, n) ∈ t := by
  induction t with
  | nil => simp [entry]
  | cons e t ih =>
    obtain ⟨q, m⟩ := e
    rw [List.map_cons, List.nodup_cons] at h
    by_cases hq : q = p
    · subst hq
      have hnot : (q, n) ∉ t := fun hm => h.1 (List.mem_map.mpr ⟨_, hm, rfl⟩)
      simp [entry, hnot, eq_comm]
    · rw [entry, if_neg hq, ih h.2, List.mem_cons, or_iff_right]
      rintro ⟨⟩
      exact hq rfl

structure Tree where
  entries : Entries
  distinct : (entries.map Prod.fst).Nodup
  start : entry entries [] = some .dir
  closed : ∀ e ∈ entries, e.1 ≠ [] → entry entries e.1.dropLast = some .dir
  valid : ∀ e ∈ entries, ∀ name ∈ e.1, name ≠ [] ∧ slash ∉ name

namespace Tree

variable {t : Tree} {p q d : Path} {name : Name} {n : Node} {bytes : List (BitVec 8)}

def node (t : Tree) (p : Path) : Option Node := entry t.entries p

theorem node_eq_some_iff : t.node p = some n ↔ (p, n) ∈ t.entries := entry_eq_some_iff t.distinct

theorem parent_dir (h : t.node (p ++ [name]) ≠ none) : t.node p = some .dir := by
  obtain ⟨e, he, heq⟩ := entry_ne_none_iff.mp h
  have hclosed := t.closed e he (by simp [heq])
  rwa [heq, List.dropLast_concat] at hclosed

theorem valid_of_node (h : t.node p ≠ none) : ∀ name ∈ p, name ≠ [] ∧ slash ∉ name := by
  obtain ⟨e, he, rfl⟩ := entry_ne_none_iff.mp h
  exact t.valid e he

/-- What lies above an entry is a directory. -/
theorem dir_above (h : p <+: q) (hne : p ≠ q) (hq : t.node q ≠ none) :
    t.node p = some .dir := by
  obtain ⟨names, rfl⟩ := h
  induction names using List.reverseRecOn with
  | nil => simp at hne
  | append_singleton names name ih =>
    rw [← List.append_assoc] at hq
    have hparent := parent_dir hq
    by_cases hn : p = p ++ names
    · rw [hn]
      exact hparent
    · exact ih hn (by rw [hparent]; simp)

theorem not_above (d : Path) (name : Name) : ¬ d ++ [name] <+: d := by
  intro h
  have hlength := h.length_le
  rw [List.length_append, List.length_singleton] at hlength
  omega

theorem eq_of_file (hp : t.node p = some (.file bytes)) (hq : t.node q ≠ none) (h : p <+: q) :
    q = p := by
  by_contra hne
  rw [dir_above h (Ne.symm hne) hq] at hp
  cases hp

def isEmpty (t : Tree) (d : Path) : Bool :=
  t.entries.all fun e => !d.isPrefixOf e.1 || e.1 == d

theorem isEmpty_iff : t.isEmpty d = true ↔ ∀ q, t.node q ≠ none → d <+: q → q = d := by
  simp only [isEmpty, List.all_eq_true, Bool.or_eq_true, Bool.not_eq_true', beq_iff_eq]
  constructor
  · intro h q hq hd
    obtain ⟨e, he, rfl⟩ := entry_ne_none_iff.mp hq
    rcases h e he with hn | hn
    · rw [List.isPrefixOf_iff_prefix.mpr hd] at hn
      cases hn
    · exact hn
  · intro h e he
    cases hd : d.isPrefixOf e.1 with
    | false => exact .inl rfl
    | true => exact .inr (h e.1 (entry_ne_none_iff.mpr ⟨e, he, rfl⟩)
        (List.isPrefixOf_iff_prefix.mp hd))

/-! ### Taking away -/

/-- The tree without some paths: with each of them all that lies below it. -/
def discard (t : Tree) (f : Path → Bool) (hstart : f [] = false)
    (hbelow : ∀ p name, f p = true → t.node (p ++ [name]) ≠ none → f (p ++ [name]) = true) :
    Tree where
  entries := keep (fun p => !f p) t.entries
  distinct := t.distinct.sublist (List.Sublist.map Prod.fst List.filter_sublist)
  start := by rw [entry_keep, hstart]; exact t.start
  closed := by
    intro e he hne
    obtain ⟨hmem, hkept⟩ := List.mem_filter.mp he
    obtain ⟨p, name, hp⟩ := List.eq_nil_or_concat' e.1 |>.resolve_left hne
    have hnode : t.node (p ++ [name]) ≠ none := entry_ne_none_iff.mpr ⟨e, hmem, hp⟩
    rw [hp, List.dropLast_concat, entry_keep]
    cases hf : f p with
    | true => simp [hp, hbelow p name hf hnode] at hkept
    | false => exact parent_dir hnode
  valid := fun e he => t.valid e (List.mem_of_mem_filter he)

theorem node_discard {f : Path → Bool} (hstart : f [] = false)
    (hbelow : ∀ p name, f p = true → t.node (p ++ [name]) ≠ none → f (p ++ [name]) = true)
    (q : Path) : (t.discard f hstart hbelow).node q = if f q = true then none else t.node q := by
  rw [node, discard, entry_keep]
  cases f q <;> rfl

/-- `remove_all`. The place paths start from stays. -/
def removeAll (t : Tree) (d : Path) : Tree :=
  if hd : d = [] then t
  else t.discard d.isPrefixOf (by cases d <;> simp_all) fun p name hp _ => by
    rw [List.isPrefixOf_iff_prefix] at hp ⊢
    exact hp.trans (List.prefix_append p [name])

theorem node_removeAll (hd : d ≠ []) (q : Path) :
    (t.removeAll d).node q = if d <+: q then none else t.node q := by
  simp only [removeAll, dif_neg hd, node_discard, List.isPrefixOf_iff_prefix]

/-- `remove`, of a file or an empty directory. -/
def remove (t : Tree) (p : Path) : Tree × Bool :=
  if h : p ≠ [] ∧ t.node p ≠ none ∧ t.isEmpty p = true then
    (t.discard (· == p) (by simpa using h.1.symm) fun q name hq hname => by
      rw [beq_iff_eq] at hq ⊢
      subst hq
      exact isEmpty_iff.mp h.2.2 _ hname (List.prefix_append q [name]), true)
  else (t, false)

theorem remove_snd : (t.remove p).2 = true ↔ p ≠ [] ∧ t.node p ≠ none ∧ t.isEmpty p = true := by
  by_cases h : p ≠ [] ∧ t.node p ≠ none ∧ t.isEmpty p = true
  · simp [remove, h]
  · simp only [remove, h]
    simp

theorem node_remove (q : Path) : (t.remove p).1.node q =
    if (t.remove p).2 = true ∧ q = p then none else t.node q := by
  by_cases h : p ≠ [] ∧ t.node p ≠ none ∧ t.isEmpty p = true
  · simp only [remove, dif_pos h, node_discard, beq_iff_eq, true_and]
  · simp [remove, dif_neg h]

theorem remove_file (h : t.node p = some (.file bytes)) : (t.remove p).2 = true := by
  refine remove_snd.mpr ⟨?_, by simp [h], isEmpty_iff.mpr fun q hq hp => eq_of_file h hq hp⟩
  rintro rfl
  rw [node, t.start] at h
  cases h

/-- Nothing lies below a file. -/
theorem node_remove_file (h : t.node p = some (.file bytes)) (q : Path) :
    (t.remove p).1.node q = if p <+: q then none else t.node q := by
  rw [node_remove, remove_file h]
  by_cases hq : q = p
  · simp [hq]
  · by_cases hp : p <+: q
    · have hnone : t.node q = none := by
        by_contra hn
        exact hq (eq_of_file h hn hp)
      simp [hnone]
    · simp [hq, hp]

/-! ### Putting in place -/

def validName (name : Name) : Bool := !name.isEmpty && !name.contains slash

theorem validName_iff : validName name = true ↔ name ≠ [] ∧ slash ∉ name := by
  simp [validName]

theorem entry_put (t : Entries) (p : Path) (n : Node) (q : Path) :
    entry ((p, n) :: keep (· != p) t) q = if q = p then some n else entry t q := by
  by_cases hq : q = p
  · simp [entry, hq]
  · simp [entry, entry_keep, hq, Ne.symm hq]

/-- A directory, or a file with its content, in a directory that is there. No file takes the place
of a directory. -/
def put (t : Tree) (p : Path) (n : Node) : Option Tree :=
  if h : p ≠ [] ∧ t.node p.dropLast = some .dir ∧ p.all validName = true ∧
      (n = .dir ∨ t.node p ≠ some .dir) then
    some {
      entries := (p, n) :: keep (· != p) t.entries
      distinct := by
        rw [List.map_cons, List.nodup_cons]
        refine ⟨?_, t.distinct.sublist (List.Sublist.map Prod.fst List.filter_sublist)⟩
        intro hm
        obtain ⟨e, he, heq⟩ := List.mem_map.mp hm
        have hne := (List.mem_filter.mp he).2
        simp [heq] at hne
      start := by rw [entry_put, if_neg h.1.symm]; exact t.start
      closed := by
        intro e he hne
        rw [entry_put]
        rcases List.mem_cons.mp he with rfl | he
        · have hshort : p.dropLast ≠ p := by
            intro heq
            have := congrArg List.length heq
            have := List.length_pos_iff.mpr h.1
            rw [List.length_dropLast] at *
            omega
          rw [if_neg hshort]
          exact h.2.1
        · have hdir := t.closed e (List.mem_of_mem_filter he) hne
          split_ifs with heq
          · rw [heq] at hdir
            exact congrArg some (h.2.2.2.resolve_right fun hn => hn hdir)
          · exact hdir
      valid := by
        intro e he name hn
        rcases List.mem_cons.mp he with rfl | he
        · exact validName_iff.mp (List.all_eq_true.mp h.2.2.1 name hn)
        · exact t.valid e (List.mem_of_mem_filter he) name hn }
  else none

theorem put_eq_some_iff : (∃ t', t.put p n = some t') ↔ p ≠ [] ∧ t.node p.dropLast = some .dir ∧
    p.all validName = true ∧ (n = .dir ∨ t.node p ≠ some .dir) := by
  constructor
  · rintro ⟨t', h⟩
    rw [put] at h
    split_ifs at h with hp
    exact hp
  · intro h
    exact ⟨_, dif_pos h⟩

/-- A file can always be written over. -/
theorem exists_put_of_file (h : t.node p = some (.file bytes)) (bytes' : List (BitVec 8)) :
    ∃ t', t.put p (.file bytes') = some t' := by
  have hne : p ≠ [] := by
    rintro rfl
    rw [node, t.start] at h
    cases h
  obtain ⟨d, name, rfl⟩ := (List.eq_nil_or_concat' p).resolve_left hne
  have hnode : t.node (d ++ [name]) ≠ none := by simp [h]
  refine put_eq_some_iff.mpr ⟨hne, ?_, List.all_eq_true.mpr fun name hn =>
    validName_iff.mpr (valid_of_node hnode name hn), .inr (by simp [h])⟩
  rw [List.dropLast_concat]
  exact parent_dir hnode

/-- A file can be put beside what a directory holds. -/
theorem exists_put_in_dir (hd : t.node d = some .dir) (hname : validName name = true)
    (hp : t.node (d ++ [name]) ≠ some .dir) (bytes : List (BitVec 8)) :
    ∃ t', t.put (d ++ [name]) (.file bytes) = some t' := by
  have hnode : t.node d ≠ none := by simp [hd]
  refine put_eq_some_iff.mpr ⟨by simp, by rwa [List.dropLast_concat], ?_, .inr hp⟩
  rw [List.all_append, Bool.and_eq_true]
  exact ⟨List.all_eq_true.mpr fun name hn => validName_iff.mpr (valid_of_node hnode name hn),
    by simpa using hname⟩

theorem node_put {t' : Tree} (h : t.put p n = some t') (q : Path) :
    t'.node q = if q = p then some n else t.node q := by
  rw [put] at h
  split_ifs at h
  cases h
  exact entry_put _ _ _ _

/-! ### What files hold -/

def content (t : Tree) (p : Path) : Option (List (BitVec 8)) :=
  match t.node p with
  | some (.file bytes) => some bytes
  | _ => none

theorem content_eq_some :
    t.content p = some bytes ↔ t.node p = some (.file bytes) := by
  rw [content]
  split <;> simp_all

theorem content_put_file {t' : Tree}
    (h : t.put p (.file bytes) = some t') (q : Path) :
    t'.content q = if q = p then some bytes else t.content q := by
  simp only [content, node_put h]
  split_ifs <;> rfl

theorem content_remove (q : Path) :
    (t.remove p).1.content q = if q = p then none else t.content q := by
  simp only [content, node_remove]
  by_cases hq : q = p
  · subst hq
    -- Only a directory can withstand, and it holds nothing itself.
    cases hn : t.node q with
    | none => simp
    | some n =>
      cases n with
      | dir => split_ifs <;> simp_all
      | file bytes => simp [remove_file hn]
  · simp [hq]

end Tree

end FileTree
