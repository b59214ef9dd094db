import CS238P.Store.System
import CS238P.Library.OpenAddressing
import CS238P.Library.Double

set_option autoImplicit false

/-! # The index (`p4/index.c`)

A hash table with open addressing that maps the hash of a key to the offset of the newest record of
a key with that hash. A `uint64_t *` into the table is the number of its slot.

The probe `(key + i) % capacity` is computed in 64 bits and wraps around for large hashes, so not
every slot need be tried: `update` can end in `EXIT("software")` while slots are free
(`Index.stop`). -/

namespace CS238P.Store

/-- An element of `maps`. -/
structure Slot where
  key : UInt64
  off : UInt64
  deriving DecidableEq, Repr

/-- `struct index`; `maps` points to `capacity` elements. -/
structure Index where
  size : UInt64
  capacity : UInt64
  maps : List Slot
  length_maps : maps.length = capacity.toNat

/-- `memset(index, 0, ..)`. -/
def Index.empty : Index := ⟨0, 0, [], rfl⟩

/-- `index->maps[j]`. -/
def Index.slotAt (index : Index) (j : ℕ) : Slot := index.maps.getD j ⟨0, 0⟩

/-- Stores `slot` to `index->maps[j]`. -/
def Index.setSlot (index : Index) (j : ℕ) (slot : Slot) : Index :=
  { index with
    maps := index.maps.set j slot
    length_maps := by rw [List.length_set, index.length_maps] }

/-- `*ref = off` for the slot `j`. -/
def Index.setOff (index : Index) (j : ℕ) (off : UInt64) : Index :=
  index.setSlot j ⟨(index.slotAt j).key, off⟩

/-- The values of `j = (key + i) % index->capacity` for `i = 0, 1, ..`. -/
def Index.probes (index : Index) (key : UInt64) : List ℕ :=
  (List.range index.capacity.toNat).map fun i => ((key + .ofNat i) % index.capacity).toNat

/-- Where the loops of `update` and `index_lookup` end: at the first slot that is free or holds
    `key`. -/
def Index.stop (index : Index) (key : UInt64) : Option ℕ :=
  (index.probes key).find? fun j => (index.slotAt j).key = 0 ∨ (index.slotAt j).key = key

/-- `update`; `none` is `EXIT("software")`. -/
def Index.update (index : Index) (key : UInt64) : Option (Index × ℕ) :=
  match index.stop key with
  | none => none
  | some j =>
      if (index.slotAt j).key = 0 then
        some ({ index.setSlot j ⟨key, 0⟩ with size := index.size + 1 }, j)
      else some (index.setSlot j ⟨key, (index.slotAt j).off⟩, j)

/-- `LOAD < (double)size / capacity`. The double next to 0.7 is `6305039478318694 / 2^53`; a
    quotient is rounded to a larger double if it is beyond the midpoint to the next one (the
    midpoint itself is rounded to 0.7, whose last bit is zero). -/
def loadExceeded (size capacity : ℕ) : Bool :=
  (2 * 6305039478318694 + 1) * Double.ofNat capacity < 2 ^ 54 * Double.ofNat size

/-- The condition of `grow`; the load of a table without slots is 1. -/
def Index.due (index : Index) : Bool :=
  index.capacity = 0 || loadExceeded index.size.toNat index.capacity.toNat

/-- The loop of `grow`: moves the slots of the old table to the new one. -/
def rehash : List Slot → Index → Option Index
  | [], index => some index
  | slot :: rest, index =>
      if slot.key = 0 then rehash rest index
      else
        match index.update slot.key with
        | none => none
        | some (index', j) => rehash rest (index'.setOff j slot.off)

variable {σ : Type} (sys : Sys σ)

/-- `create`. If `capacity * sizeof (maps[0])` wraps around, the object is too small for the
    elements. -/
def create (capacity : UInt64) : M σ Index := do
  let n := capacity * 16
  sys.mallocOr n .indexMemory
  if n.toNat < capacity.toNat * 16 then throw .outOfBounds
  else return ⟨0, capacity, List.replicate capacity.toNat ⟨0, 0⟩, List.length_replicate⟩

def grow (index : Index) : M σ Index :=
  if index.due then do
    let index_ ← create sys ((index.capacity + 97) * 3 / 2)
    match rehash index.maps index_ with
    | some index' => return index'
    | none => throw .exitSoftware
  else return index

/-- `grow` when the outcome of its load test is given. -/
def growIf (due : Bool) (index : Index) : M σ Index :=
  if due then do
    let index_ ← create sys ((index.capacity + 97) * 3 / 2)
    match rehash index.maps index_ with
    | some index' => return index'
    | none => throw .exitSoftware
  else return index

theorem grow_eq (index : Index) : grow sys index = growIf sys index.due index := rfl

def indexOpen : M σ Index := do
  sys.mallocOr 24 .openMemory
  return .empty

variable (hash : List UInt8 → UInt64)

/-- `key ? key : (key + 1)` for the hash of a key. -/
def hashKey (key : List UInt8) : UInt64 := if hash key = 0 then hash key + 1 else hash key

/-- `index_update`: the index and the slot of the key in it. -/
def indexUpdate (index : Index) (key : List UInt8) : M σ (Index × ℕ) :=
  if key = [] then throw .assertion
  else do
    let index' ← grow sys index
    match index'.update (hashKey hash key) with
    | some r => return r
    | none => throw .exitSoftware

/-- `index_lookup`: what the result points to, or NULL. -/
def indexLookup (index : Index) (key : List UInt8) : M σ (Option UInt64) :=
  if key = [] then throw .assertion
  else
    match index.stop (hashKey hash key) with
    | none => return none
    | some j =>
        if (index.slotAt j).key = 0 then return none else return some (index.slotAt j).off

/-! ## The table behind the slots -/

/-- The index as a table of hashes with offsets. -/
def Index.table (index : Index) : OpenAddressing.Table ℕ UInt64 UInt64 := fun j =>
  if (index.slotAt j).key = 0 then none else some ((index.slotAt j).key, (index.slotAt j).off)

/-- The offset stored for a hash, zero if there is none. -/
def Index.head (index : Index) (h : UInt64) : UInt64 :=
  (OpenAddressing.find index.table index.probes h).getD 0

/-- The slots in use. -/
def Index.used (index : Index) : Finset ℕ :=
  (Finset.range index.capacity.toNat).filter fun j => (index.slotAt j).key ≠ 0

/-- Every hash is found where it is, `size` counts the slots in use, and the slots fit into an
    object. -/
structure Index.Tidy (index : Index) : Prop where
  table : OpenAddressing.WF index.table index.probes
  size : index.size.toNat = index.used.card
  capacity : index.capacity.toNat * 16 < 2 ^ 63

/-- What holds of an index between the calls. -/
structure Index.WF (index : Index) : Prop extends index.Tidy where
  load : 100 * index.size.toNat ≤ 71 * index.capacity.toNat + 100

section Slots

variable {index : Index} {j : ℕ}

theorem probes_eq_linear (index : Index) (key : UInt64) :
    index.probes key = OpenAddressing.linear (2 ^ 64) index.capacity.toNat key.toNat := by
  unfold Index.probes OpenAddressing.linear
  refine List.map_congr_left fun i hi => ?_
  rw [List.mem_range] at hi
  have hlt := index.capacity.toNat_lt
  rw [UInt64.toNat_mod, UInt64.toNat_add, UInt64.toNat_ofNat',
    Nat.mod_eq_of_lt (show i < 2 ^ 64 by omega)]

theorem stop_eq_firstHit (index : Index) (key : UInt64) :
    index.stop key = OpenAddressing.firstHit index.table key (index.probes key) := by
  unfold Index.stop OpenAddressing.firstHit
  congr 1
  funext j
  unfold OpenAddressing.hit Index.table
  by_cases h : (index.slotAt j).key = 0
  · simp [h]
  · simp [h]

theorem stop_lt {key : UInt64} (h : index.stop key = some j) : j < index.capacity.toNat := by
  have hmem := List.mem_of_find?_eq_some h
  rw [probes_eq_linear] at hmem
  exact OpenAddressing.mem_linear_lt hmem

theorem slotAt_of_le (h : index.capacity.toNat ≤ j) : index.slotAt j = ⟨0, 0⟩ := by
  unfold Index.slotAt
  rw [List.getD_eq_getElem?_getD, List.getElem?_eq_none (by rw [index.length_maps]; exact h)]
  rfl

theorem mem_used_iff : j ∈ index.used ↔ (index.slotAt j).key ≠ 0 := by
  unfold Index.used
  rw [Finset.mem_filter, Finset.mem_range, and_iff_right_iff_imp]
  intro hne
  by_contra hle
  rw [slotAt_of_le (Nat.le_of_not_lt hle)] at hne
  exact hne rfl

theorem slotAt_setSlot (hj : j < index.capacity.toNat) (slot : Slot) (i : ℕ) :
    (index.setSlot j slot).slotAt i = if i = j then slot else index.slotAt i := by
  unfold Index.slotAt Index.setSlot
  rw [List.getD_eq_getElem?_getD, List.getD_eq_getElem?_getD, List.getElem?_set]
  by_cases h : i = j
  · subst h
    rw [if_pos rfl, if_pos rfl, if_pos (by rw [index.length_maps]; exact hj)]
    rfl
  · rw [if_neg (Ne.symm h), if_neg h]

theorem table_setSlot (hj : j < index.capacity.toNat) {slot : Slot} (hkey : slot.key ≠ 0) :
    (index.setSlot j slot).table = OpenAddressing.put index.table j slot.key slot.off := by
  funext i
  unfold Index.table OpenAddressing.put
  rw [slotAt_setSlot hj]
  by_cases h : i = j
  · subst h
    rw [if_pos rfl, if_neg hkey, Function.update_self]
  · rw [if_neg h, Function.update_of_ne h]

theorem used_setSlot (hj : j < index.capacity.toNat) {slot : Slot} (hkey : slot.key ≠ 0) :
    (index.setSlot j slot).used = insert j index.used := by
  unfold Index.used
  ext i
  rw [Finset.mem_insert, Finset.mem_filter, Finset.mem_filter, slotAt_setSlot hj]
  show i ∈ Finset.range index.capacity.toNat ∧ _ ↔ _
  by_cases h : i = j
  · subst h
    simp [hj, hkey]
  · simp [h]

theorem probes_congr {index' : Index} (h : index'.capacity = index.capacity) :
    index'.probes = index.probes := by
  unfold Index.probes
  rw [h]

theorem key_ne_zero_of_table {k a : UInt64} (h : index.table j = some (k, a)) :
    k ≠ 0 ∧ index.slotAt j = ⟨k, a⟩ := by
  unfold Index.table at h
  split at h
  · cases h
  · rename_i hne
    cases h
    exact ⟨hne, rfl⟩

end Slots

end CS238P.Store
