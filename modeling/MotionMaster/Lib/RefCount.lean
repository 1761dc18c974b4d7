import Mathlib.Data.List.Count
import Mathlib.Data.List.Perm.Basic
import Mathlib.Data.List.Flatten

/-!
# Reference counts

A count for each key, and the owners that hold the references counted. The counts are balanced
when they are what the owners hold between them, whatever order they took it in.
-/

namespace RefCount

universe u v

variable {κ : Type u} {ι : Type v} [DecidableEq κ]

def acquire (c : κ → ℕ) (k : κ) : κ → ℕ := Function.update c k (c k + 1)

/-- A key without references stays as it is. -/
def release (c : κ → ℕ) (k : κ) : κ → ℕ := Function.update c k (c k - 1)

/-- Every count is the number of references the owners hold. -/
def Balanced (c : κ → ℕ) (owners : List ι) (share : ι → List κ) : Prop :=
  ∀ k, c k = (owners.flatMap share).count k

theorem acquire_apply (c : κ → ℕ) (k x : κ) : acquire c k x = c x + [k].count x := by
  unfold acquire
  by_cases h : x = k
  · simp [h]
  · simp [h, Ne.symm h]

theorem release_apply (c : κ → ℕ) (k x : κ) : release c k x = c x - [k].count x := by
  unfold release
  by_cases h : x = k
  · simp [h]
  · simp [h, Ne.symm h]

variable {c : κ → ℕ} {owners : List ι} {share share' : ι → List κ} {i : ι} {k : κ}

theorem Balanced.perm (h : Balanced c owners share)
    (hp : ∀ i ∈ owners, (share' i).Perm (share i)) : Balanced c owners share' := by
  intro k
  rw [h k]
  exact ((List.Perm.flatMap_left _ hp).count_eq k).symm

/-- Owners that hold nothing may leave. -/
theorem Balanced.sublist {owners' : List ι} (h : Balanced c owners share) (hn : owners.Nodup)
    (hs : owners'.Sublist owners) (he : ∀ i ∈ owners, i ∉ owners' → share i = []) :
    Balanced c owners' share := by
  have hf : owners'.flatMap share = owners.flatMap share := by
    clear h
    induction hs with
    | slnil => rfl
    | cons i hs ih =>
      obtain ⟨hi, hn⟩ := List.nodup_cons.mp hn
      have ih := ih hn fun j hj => he j (List.mem_cons_of_mem _ hj)
      simp [ih, he i List.mem_cons_self fun h => hi (hs.subset h)]
    | cons_cons i hs ih =>
      obtain ⟨hi, hn⟩ := List.nodup_cons.mp hn
      have ih := ih hn fun j hj hj' => by
        refine he j (List.mem_cons_of_mem _ hj) fun h => ?_
        rcases List.mem_cons.mp h with rfl | h
        · exact hi hj
        · exact hj' h
      simp [ih]
  intro k
  rw [h k, hf]

variable [DecidableEq ι]

theorem count_flatMap_update (share : ι → List κ) (hn : owners.Nodup) (hi : i ∈ owners)
    (refs : List κ) (k : κ) :
    (owners.flatMap (Function.update share i refs)).count k + (share i).count k =
      (owners.flatMap share).count k + refs.count k := by
  induction owners with
  | nil => cases hi
  | cons j owners ih =>
    obtain ⟨hj, hn⟩ := List.nodup_cons.mp hn
    simp only [List.flatMap_cons, List.count_append]
    rcases List.mem_cons.mp hi with rfl | hi
    · have hsame : owners.flatMap (Function.update share i refs) = owners.flatMap share := by
        apply List.flatMap_congr
        intro x hx
        have hne : x ≠ i := by
          rintro rfl
          exact hj hx
        rw [Function.update_of_ne hne]
      rw [hsame, Function.update_self]
      omega
    · have hne : j ≠ i := by
        rintro rfl
        exact hj hi
      rw [Function.update_of_ne hne]
      have := ih hn hi
      omega

theorem Balanced.acquire (h : Balanced c owners share) (hn : owners.Nodup) (hi : i ∈ owners)
    {refs : List κ} (hp : refs.Perm (k :: share i)) :
    Balanced (acquire c k) owners (Function.update share i refs) := by
  intro x
  have hx := count_flatMap_update share hn hi refs x
  rw [hp.count_eq, ← List.singleton_append, List.count_append] at hx
  rw [acquire_apply, h x]
  omega

theorem Balanced.release (h : Balanced c owners share) (hn : owners.Nodup) (hi : i ∈ owners)
    {refs : List κ} (hp : (share i).Perm (k :: refs)) :
    Balanced (release c k) owners (Function.update share i refs) := by
  intro x
  have hx := count_flatMap_update share hn hi refs x
  rw [hp.count_eq, ← List.singleton_append, List.count_append] at hx
  rw [release_apply, h x]
  omega

/-- A new owner takes over all that another holds. -/
theorem Balanced.handOver (h : Balanced c owners share) (hn : owners.Nodup) (hi : i ∈ owners)
    {j : ι} (hj : j ∉ owners) :
    Balanced c (owners ++ [j]) (Function.update (Function.update share j (share i)) i []) := by
  intro x
  have hji : j ≠ i := fun hji => hj (hji ▸ hi)
  have hsame : owners.flatMap (Function.update (Function.update share j (share i)) i []) =
      owners.flatMap (Function.update share i []) := by
    apply List.flatMap_congr
    intro y hy
    have hyj : y ≠ j := fun hyj => hj (hyj ▸ hy)
    by_cases hyi : y = i
    · simp [hyi]
    · simp [hyi, hyj]
  have hx := count_flatMap_update share hn hi [] x
  rw [List.flatMap_append, hsame, List.count_append, h x]
  simp only [List.flatMap_cons, List.flatMap_nil, List.append_nil, Function.update_of_ne hji,
    Function.update_self, List.count_nil] at hx ⊢
  omega

end RefCount
