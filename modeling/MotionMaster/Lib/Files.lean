import Mathlib.Tactic.Common

/-!
# Files under names

A name refers to an inode, and an inode holds the bytes. A file stays what it is while its name
changes, so whoever has it open goes on writing to it under the new name.
-/

/-- No two names refer to one inode, and the inodes from `next` on are free. -/
structure FileSystem (ν β : Type) where
  entry : ν → Option ℕ
  content : ℕ → List β
  next : ℕ
  injective : ∀ a b i, entry a = some i → entry b = some i → a = b
  bounded : ∀ a i, entry a = some i → i < next

namespace FileSystem

variable {ν β : Type}

def read (fs : FileSystem ν β) (name : ν) : Option (List β) := (fs.entry name).map fs.content

/-- The inode of a name once it is open: its own, or the next free one. -/
def inodeFor (fs : FileSystem ν β) (name : ν) : ℕ := (fs.entry name).getD fs.next

theorem inodeFor_inj (fs : FileSystem ν β) {a b : ν} (h : fs.entry b = some (fs.inodeFor a)) :
    b = a := by
  cases ha : fs.entry a with
  | none =>
    have hlt := fs.bounded b _ h
    simp [inodeFor, ha] at hlt
  | some i =>
    rw [inodeFor, ha] at h
    exact fs.injective b a i h ha

/-- What was in the file, with new bytes from a place on. -/
def overlay [Inhabited β] (old : List β) (offset : ℕ) (bytes : List β) : List β :=
  old.take offset ++ List.replicate (offset - old.length) default ++ bytes ++
    old.drop (offset + bytes.length)

def write [Inhabited β] (fs : FileSystem ν β) (inode offset : ℕ) (bytes : List β) :
    FileSystem ν β :=
  { fs with
    content := Function.update fs.content inode (overlay (fs.content inode) offset bytes) }

variable {fs : FileSystem ν β} {name other source target : ν} {inode offset : ℕ} {bytes : List β}

theorem read_write_self [Inhabited β] (h : fs.entry name = some inode) {old : List β}
    (hold : fs.read name = some old) :
    (fs.write inode offset bytes).read name = some (overlay old offset bytes) := by
  have hcontent : fs.content inode = old := by simpa [read, h] using hold
  simp [read, write, h, hcontent]

theorem read_write_of_ne [Inhabited β] (h : fs.entry name = some inode) (hne : other ≠ name) :
    (fs.write inode offset bytes).read other = fs.read other := by
  simp only [read, write]
  cases hother : fs.entry other with
  | none => rfl
  | some i =>
    have hi : i ≠ inode := by
      rintro rfl
      exact hne (fs.injective other name i hother h)
    rw [Option.map_some, Option.map_some, Function.update_of_ne hi]

/-- A text written in order, one piece after the other. -/
theorem overlay_take [Inhabited β] {text : List β} {n count : ℕ} (h : n + count ≤ text.length) :
    overlay (text.take n) n ((text.drop n).take count) = text.take (n + count) := by
  have hlength : (text.take n).length = n := by
    rw [List.length_take]
    omega
  have hdrop : (text.take n).drop (n + ((text.drop n).take count).length) = [] := by
    apply List.drop_of_length_le
    omega
  rw [overlay, hdrop, List.append_nil, hlength, Nat.sub_self, List.replicate_zero, List.append_nil,
    List.take_take, Nat.min_self, List.take_add]

variable [DecidableEq ν]

/-- Opens a file for writing and empties it. -/
def openTrunc (fs : FileSystem ν β) (name : ν) : FileSystem ν β where
  entry := Function.update fs.entry name (some (fs.inodeFor name))
  content := Function.update fs.content (fs.inodeFor name) []
  next := fs.next + fs.inodeFor name + 1
  injective a b i ha hb := by
    simp only [Function.update_apply] at ha hb
    split at ha <;> split at hb
    · simp_all
    · cases ha
      exact absurd (fs.inodeFor_inj hb) ‹_›
    · cases hb
      exact absurd (fs.inodeFor_inj ha) ‹_›
    · exact fs.injective a b i ha hb
  bounded a i ha := by
    simp only [Function.update_apply] at ha
    split at ha
    · cases ha
      omega
    · have hlt := fs.bounded a i ha
      omega

def remove (fs : FileSystem ν β) (name : ν) : FileSystem ν β where
  entry := Function.update fs.entry name none
  content := fs.content
  next := fs.next
  injective a b i ha hb := by
    simp only [Function.update_apply] at ha hb
    split at ha <;> split at hb
    · cases ha
    · cases ha
    · cases hb
    · exact fs.injective a b i ha hb
  bounded a i ha := by
    simp only [Function.update_apply] at ha
    split at ha
    · cases ha
    · exact fs.bounded a i ha

/-- The file takes the other name, whatever had it. -/
def rename (fs : FileSystem ν β) (source target : ν) : FileSystem ν β where
  entry := Function.update (Function.update fs.entry source none) target (fs.entry source)
  content := fs.content
  next := fs.next
  injective a b i ha hb := by
    have hsource := fs.injective source
    have hab := fs.injective a b i
    simp only [Function.update_apply] at ha hb
    grind
  bounded a i ha := by
    have hsource := fs.bounded source i
    have hother := fs.bounded a i
    simp only [Function.update_apply] at ha
    grind

theorem read_openTrunc_self : (fs.openTrunc name).read name = some [] := by
  simp [read, openTrunc]

theorem read_openTrunc_of_ne (h : other ≠ name) :
    (fs.openTrunc name).read other = fs.read other := by
  simp only [read, openTrunc, Function.update_of_ne h]
  cases hother : fs.entry other with
  | none => rfl
  | some i =>
    have hne : i ≠ fs.inodeFor name := by
      rintro rfl
      exact h (fs.inodeFor_inj hother)
    rw [Option.map_some, Option.map_some, Function.update_of_ne hne]

theorem read_remove_of_ne (h : other ≠ name) : (fs.remove name).read other = fs.read other := by
  simp only [read, remove, Function.update_of_ne h]

theorem read_rename_self : (fs.rename source target).read target = fs.read source := by
  simp only [read, rename, Function.update_self]

end FileSystem
