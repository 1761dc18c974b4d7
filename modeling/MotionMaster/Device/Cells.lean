import MotionMaster.Device.Parameters
import MotionMaster.Lib.Interleaving

/-!
# The cell arena

`publishParameters` over and over on one device, with any values stored into the cells in between:
what each call does to the map, and what no call does to a cell.
-/

namespace MotionMaster

open Arena Interleaving

namespace Device

variable {d : Device} {previous : ℕ × ℕ → Option ℕ}
  {built : List DeviceParameter × (ℕ × ℕ → Option ℕ)} {definition : DeviceParameter} {x : ℕ × ℕ}

/-! ### One definition among the others -/

/-- Another object's definition touches neither the map at `x` nor a cell of `x`. -/
theorem publishOne_of_ne (hp : Keyed DeviceParameter.key built.1 previous)
    (hx : definition.key ≠ x) :
    (publishOne previous built definition).2 x = built.2 x ∧
      ∀ (k : ℕ) (c : DeviceParameter), built.1[k]? = some c → c.key = x →
        (publishOne previous built definition).1[k]? = some c := by
  unfold publishOne
  split
  · rename_i n hn
    refine ⟨Function.update_of_ne hx.symm _ _, ?_⟩
    intro k c hc hkey
    have hnk : n ≠ k := by
      rintro rfl
      exact hx ((hp.eq_key (reusable_eq_some hn) hc).symm.trans hkey)
    simp [hnk, hc]
  · refine ⟨Function.update_of_ne hx.symm _ _, ?_⟩
    intro k c hc _
    rw [List.getElem?_append_left (List.getElem?_eq_some_iff.mp hc).1, hc]

variable {definitions : List DeviceParameter}

theorem foldl_publishOne_of_ne (built : List DeviceParameter × (ℕ × ℕ → Option ℕ))
    (hp : Keyed DeviceParameter.key built.1 previous)
    (hx : ∀ e ∈ definitions, e.key ≠ x) :
    (definitions.foldl (publishOne previous) built).2 x = built.2 x ∧
      ∀ (k : ℕ) (c : DeviceParameter), built.1[k]? = some c → c.key = x →
        (definitions.foldl (publishOne previous) built).1[k]? = some c := by
  induction definitions generalizing built with
  | nil => exact ⟨rfl, fun _ _ hc _ => hc⟩
  | cons e definitions ih =>
    obtain ⟨he, hrest⟩ := List.forall_mem_cons.mp hx
    obtain ⟨hmap, hcell⟩ := publishOne_of_ne hp he
    obtain ⟨hmap', hcell'⟩ := ih _ (hp.extend ((extends_publishOne previous built e).comp Prod.fst))
      hrest
    exact ⟨hmap'.trans hmap, fun k c hc hkey => hcell' k c (hcell k c hc hkey) hkey⟩

/-- The first definition of an object is the one published, and the only one. -/
theorem distinctKeys_split
    (h : definitions.find? (·.key = x) = some definition) :
    ∃ pre post, distinctKeys definitions = pre ++ definition :: post ∧
      (∀ e ∈ pre, e.key ≠ x) ∧ ∀ e ∈ post, e.key ≠ x := by
  induction definitions with
  | nil => cases h
  | cons p ps ih =>
    by_cases hp : p.key = x
    · rw [List.find?_cons_of_pos (by simpa using hp)] at h
      cases h
      refine ⟨[], _, rfl, by simp, ?_⟩
      intro e he
      have hne : e.key ≠ definition.key := by simpa using (List.mem_filter.mp he).2
      exact hp ▸ hne
    · rw [List.find?_cons_of_neg (by simpa using hp)] at h
      obtain ⟨pre, post, heq, hpre, hpost⟩ := ih h
      have hkey : definition.key = x := by simpa using List.find?_some h
      have hne : definition.key ≠ p.key := fun he => hp (he.symm.trans hkey)
      refine ⟨p :: pre.filter (·.key ≠ p.key), post.filter (·.key ≠ p.key), ?_, ?_, ?_⟩
      · simp [distinctKeys, heq, hne]
      · exact List.forall_mem_cons.mpr ⟨hp, fun e he => hpre e (List.mem_filter.mp he).1⟩
      · exact fun e he => hpost e (List.mem_filter.mp he).1

/-- Where a definition ends up: in the cell it kept, or in a cell of its own. -/
structure Placed (d : Device) (definition : DeviceParameter) (d' : Device) (k : ℕ) : Prop where
  named : d'.parameters definition.key = some k
  kept : ∀ n, reusable d.parameters d.cells definition = some n →
    n = k ∧ ∃ c, d.cells[k]? = some c ∧ d'.cells[k]? = some (c.adopt definition)
  appended : reusable d.parameters d.cells definition = none →
    d.cells.length ≤ k ∧ d'.cells[k]? = some definition.fresh

theorem reusable_congr {cells cells' : List DeviceParameter}
    (h : ∀ n, previous definition.key = some n → cells'[n]? = cells[n]?) :
    reusable previous cells' definition = reusable previous cells definition := by
  unfold reusable
  cases hn : previous definition.key with
  | none => rfl
  | some n => simp only [Option.filter_some, h n hn]

theorem placed_publishParameters (h : d.WellKeyed)
    (hf : definitions.find? (·.key = x) = some definition) :
    ∃ k, Placed d definition (d.publishParameters definitions) k := by
  obtain ⟨pre, post, hsplit, hpre, hpost⟩ := distinctKeys_split hf
  have hkey : definition.key = x := by simpa using List.find?_some hf
  have hpub : d.publishAll definitions = post.foldl (publishOne d.parameters)
      (publishOne d.parameters (pre.foldl (publishOne d.parameters) (d.cells, fun _ => none))
        definition) := by
    rw [publishAll, hsplit, List.foldl_append, List.foldl_cons]
  -- the definitions before it leave its cell, those after it leave its place and its cell
  obtain ⟨hx, hk⟩ := publish_foldl (d.cells, fun _ => none) h keyed_empty pre
  obtain ⟨-, hsame⟩ := foldl_publishOne_of_ne (d.cells, fun _ => none) h hpre
  generalize pre.foldl (publishOne d.parameters) (d.cells, fun _ => none) = built
    at hpub hx hk hsame
  have hprev : Keyed DeviceParameter.key built.1 d.parameters := h.extend (hx.comp Prod.fst)
  have hprev' := hprev.extend ((extends_publishOne d.parameters built definition).comp Prod.fst)
  obtain ⟨hmap, hcell⟩ := foldl_publishOne_of_ne _ hprev' hpost
  rw [← hpub] at hmap hcell
  have hreuse : reusable d.parameters built.1 definition =
      reusable d.parameters d.cells definition := by
    refine reusable_congr fun n hn => ?_
    obtain ⟨c, hc, hckey⟩ := h _ n hn
    rw [hc, hsame n c hc (hckey.trans hkey)]
  unfold publishOne at hmap hcell
  rw [hreuse] at hmap hcell
  cases hr : reusable d.parameters d.cells definition with
  | some n =>
    rw [hr] at hmap hcell
    obtain ⟨c, hc, hckey⟩ := h _ n (reusable_eq_some hr)
    have hb := hsame n c hc (hckey.trans hkey)
    have hadopt : (c.adopt definition).key = x :=
      (congrArg Prod.fst (c.schema_adopt definition)).trans (hckey.trans hkey)
    refine ⟨n, ⟨?_, ?_, fun he => (by cases he.symm.trans hr)⟩⟩
    · exact hkey ▸ hmap.trans (by simp [hkey])
    · intro m hm
      cases hm.symm.trans hr
      exact ⟨rfl, c, hc, hcell n _ (by simp [hb]) hadopt⟩
  | none =>
    rw [hr] at hmap hcell
    refine ⟨built.1.length, ⟨?_, fun m hm => (by cases hm.symm.trans hr), fun _ => ?_⟩⟩
    · exact hkey ▸ hmap.trans (by simp [hkey])
    · exact ⟨hx.length_le, hcell _ _ (by simp) (definition.key_fresh.trans hkey)⟩

/-- What one `publishParameters` does: `find?` is the definition the map was built with. -/
structure Published (d : Device) (definitions : List DeviceParameter) (d' : Device) : Prop where
  /-- The new map has exactly the keys of the enumeration. -/
  keys : ∀ x, (d'.parameters x).isSome ↔ ∃ e ∈ definitions, e.key = x
  /-- Each names a cell with that key's definition. -/
  defined : ∀ x definition, definitions.find? (·.key = x) = some definition →
    ∃ k c, d'.parameters x = some k ∧ d'.cells[k]? = some c ∧ c.schema = definition.schema ∧
      c.metadata = definition.metadata
  /-- No two name the same cell. -/
  distinct : ∀ x y k, d'.parameters x = some k → d'.parameters y = some k → x = y
  /-- An object of unchanged type keeps its cell, and the cell its value unless one was read. -/
  kept : ∀ x definition k c, definitions.find? (·.key = x) = some definition →
    d.parameters x = some k → d.cells[k]? = some c → c.dataType = definition.dataType →
    c.bitLength = definition.bitLength →
    d'.parameters x = some k ∧ ∃ c', d'.cells[k]? = some c' ∧
      (¬ definition.WasRead → c'.bits = c.bits ∧ c'.rawValue = c.rawValue)

theorem Placed.schema_metadata {d' : Device} {k : ℕ} (h : Placed d definition d' k)
    (hd : d.WellKeyed) : ∃ c, d'.cells[k]? = some c ∧ c.schema = definition.schema ∧
      c.metadata = definition.metadata := by
  cases hr : reusable d.parameters d.cells definition with
  | some n =>
    obtain ⟨rfl, c, hc, hc'⟩ := h.kept n hr
    obtain ⟨hprev, htype⟩ := Option.filter_eq_some_iff.mp hr
    have hkey : c.key = definition.key := hd.eq_key hprev hc
    have hsame : c.dataType = definition.dataType ∧ c.bitLength = definition.bitLength := by
      simpa [hc] using htype
    refine ⟨c.adopt definition, hc', ?_, c.metadata_adopt definition⟩
    rw [c.schema_adopt, DeviceParameter.schema, DeviceParameter.schema, hkey, hsame.1, hsame.2]
  | none =>
    obtain ⟨-, hc⟩ := h.appended hr
    exact ⟨definition.fresh, hc, definition.schema_fresh, definition.metadata_fresh⟩

theorem published_publishParameters (h : d.WellKeyed) (definitions : List DeviceParameter) :
    Published d definitions (d.publishParameters definitions) := by
  have hkeyed := wellKeyed_publishParameters h definitions
  refine ⟨?_, ?_, ?_, ?_⟩
  · intro x
    constructor
    · intro hsome
      by_contra hnone
      have hne : ∀ e ∈ distinctKeys definitions, e.key ≠ x := fun e he hx =>
        hnone ⟨e, mem_of_mem_distinctKeys he, hx⟩
      obtain ⟨hmap, -⟩ := foldl_publishOne_of_ne (d.cells, fun _ => none) h hne
      have hx : (d.publishParameters definitions).parameters x = none := hmap
      simp [hx] at hsome
    · rintro ⟨e, he, rfl⟩
      obtain ⟨definition, hf⟩ : ∃ definition,
          definitions.find? (fun p => decide (p.key = e.key)) = some definition := by
        refine Option.isSome_iff_exists.mp (List.find?_isSome.mpr ⟨e, he, by simp⟩)
      obtain ⟨k, hk⟩ := placed_publishParameters h hf
      have hkey : definition.key = e.key := by simpa using List.find?_some hf
      rw [← hkey, hk.named]
      rfl
  · intro x definition hf
    obtain ⟨k, hk⟩ := placed_publishParameters h hf
    have hkey : definition.key = x := by simpa using List.find?_some hf
    obtain ⟨c, hc⟩ := hk.schema_metadata h
    exact ⟨k, c, hkey ▸ hk.named, hc⟩
  · intro x y k hx hy
    obtain ⟨c, hc, hcx⟩ := hkeyed x k hx
    exact hcx.symm.trans (hkeyed.eq_key hy hc)
  · intro x definition k c hf hk hc ht hb
    have hkey : definition.key = x := by simpa using List.find?_some hf
    have hr : reusable d.parameters d.cells definition = some k := by
      simp [reusable, hkey, hk, hc, ht, hb]
    obtain ⟨n, hn⟩ := placed_publishParameters h hf
    obtain ⟨rfl, c', hc', hcell⟩ := hn.kept k hr
    rw [hc] at hc'
    cases hc'
    refine ⟨hkey ▸ hn.named, c.adopt definition, hcell, fun hread => ?_⟩
    exact DeviceParameter.value_adopt hread

/-- An enumeration, or a value stored into a cell by a read, a write or the exchange. -/
inductive CellAction where
  | publish (definitions : List DeviceParameter)
  | store (k : ℕ) (bits : BitVec 64) (rawValue : List (BitVec 8)) (syncState : SyncState)

def cellArena (slavePosition vendorId : ℕ) (mapping : FlatPdoMapping) :
    System Device CellAction where
  initial := unenumerated slavePosition vendorId mapping
  Enabled _ _ := True
  next
    | d, .publish definitions => d.publishParameters definitions
    | d, .store k bits rawValue syncState =>
      { d with cells := d.cells.modify k fun c =>
        { c with bits := bits, rawValue := rawValue, syncState := syncState } }

variable {slavePosition vendorId : ℕ} {mapping : FlatPdoMapping}

theorem extends_store (d : Device) (k : ℕ) (bits : BitVec 64) (rawValue : List (BitVec 8))
    (syncState : SyncState) :
    Extends DeviceParameter.schema d.cells
      ((cellArena slavePosition vendorId mapping).next d
        (.store k bits rawValue syncState)).cells :=
  extends_modify _ _ fun _ => rfl

theorem extends_run (h : d.WellKeyed) (actions : List CellAction) :
    Extends DeviceParameter.schema d.cells
        ((cellArena slavePosition vendorId mapping).run d actions).cells ∧
      ((cellArena slavePosition vendorId mapping).run d actions).WellKeyed := by
  induction actions generalizing d with
  | nil => exact ⟨Extends.refl _, h⟩
  | cons a actions ih =>
    have hstep : Extends DeviceParameter.schema d.cells
          ((cellArena slavePosition vendorId mapping).next d a).cells ∧
        ((cellArena slavePosition vendorId mapping).next d a).WellKeyed := by
      cases a with
      | publish definitions =>
        exact ⟨extends_publishParameters h definitions, wellKeyed_publishParameters h definitions⟩
      | store k bits rawValue syncState =>
        have he : Extends DeviceParameter.schema d.cells ((cellArena slavePosition vendorId
            mapping).next d (.store k bits rawValue syncState)).cells :=
          extends_store d k bits rawValue syncState
        exact ⟨he, h.extend (he.comp Prod.fst)⟩
    obtain ⟨hx, hk⟩ := ih hstep.2
    exact ⟨hstep.1.trans hx, hk⟩

section Origin

variable {origin : ParameterOrigin}

theorem origin_modify {cells : List DeviceParameter} {f : DeviceParameter → DeviceParameter}
    (hf : ∀ c, (f c).origin = c.origin) (h : ∀ c ∈ cells, c.origin = origin) (k : ℕ) :
    ∀ c ∈ cells.modify k f, c.origin = origin := by
  intro c hc
  obtain ⟨j, hj⟩ := List.mem_iff_getElem?.mp hc
  rw [List.getElem?_modify, Option.map_eq_map, Option.map_eq_some_iff] at hj
  obtain ⟨p, hp, rfl⟩ := hj
  split_ifs
  · exact (hf p).trans (h p (List.mem_of_getElem? hp))
  · exact h p (List.mem_of_getElem? hp)

theorem origin_publishOne (hb : ∀ c ∈ built.1, c.origin = origin)
    (hd : definition.origin = origin) :
    ∀ c ∈ (publishOne previous built definition).1, c.origin = origin := by
  unfold publishOne
  split
  · refine origin_modify (fun c => ?_) hb _
    unfold DeviceParameter.adopt DeviceParameter.markReadFailed DeviceParameter.describe
    split_ifs <;> rfl
  · refine List.forall_mem_append.mpr ⟨hb, List.forall_mem_singleton.mpr ?_⟩
    unfold DeviceParameter.fresh
    split_ifs <;> exact hd

/-- A device enumerates its object dictionary or its SII, always the same of the two, so a cell that
is kept has the origin of its new definition too. -/
theorem origin_run (hd : ∀ c ∈ d.cells, c.origin = origin) {actions : List CellAction}
    (h : ∀ definitions, .publish definitions ∈ actions → ∀ p ∈ definitions, p.origin = origin) :
    ∀ c ∈ ((cellArena slavePosition vendorId mapping).run d actions).cells, c.origin = origin := by
  induction actions generalizing d with
  | nil => exact hd
  | cons a actions ih =>
    refine ih ?_ fun definitions hm => h definitions (List.mem_cons_of_mem a hm)
    cases a with
    | publish definitions =>
      refine List.foldlRecOn (motive := fun built => ∀ c ∈ built.1, c.origin = origin)
        (distinctKeys definitions) (publishOne d.parameters) (b := (d.cells, fun _ => none)) hd ?_
      intro _ hb p hp
      exact origin_publishOne hb (h definitions List.mem_cons_self p (mem_of_mem_distinctKeys hp))
    | store k bits rawValue syncState =>
      exact origin_modify (f := fun c => { c with bits, rawValue, syncState }) (fun _ => rfl) hd k

end Origin

/-- After any history every cell handed out stays with its type, whatever follows, and the next
enumeration publishes what it found. -/
theorem arena_kept (slavePosition vendorId : ℕ) (mapping : FlatPdoMapping)
    (history future : List CellAction) (definitions : List DeviceParameter) :
    let arena := cellArena slavePosition vendorId mapping
    let d := arena.run arena.initial history
    Extends DeviceParameter.schema d.cells (arena.run d future).cells ∧
      Published d definitions (d.publishParameters definitions) := by
  have hinit : (unenumerated slavePosition vendorId mapping).WellKeyed := keyed_empty
  have hkeyed : ((cellArena slavePosition vendorId mapping).run
      (unenumerated slavePosition vendorId mapping) history).WellKeyed :=
    (extends_run hinit history).2
  exact ⟨(extends_run hkeyed future).1, published_publishParameters hkeyed definitions⟩

end Device

end MotionMaster
