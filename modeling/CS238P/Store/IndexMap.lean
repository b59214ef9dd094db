import CS238P.Store.IndexSpec
import CS238P.Store.Memory

set_option autoImplicit false

/-! # The index is a finite map

`IndexRun` is what a caller can do with an index: call `index_update` and store an offset through
the pointer it gets, any number of times, also when allocations fail. Beside the index it keeps the
map of what was stored. `indexRun_serves` says that the index is that map after every such run,
whatever the hash function: what is stored stays where its hash is looked for, through all later
updates and each time the table grows. -/

namespace CS238P.Store

variable {σ : Type} {sys : Sys σ} {log : σ → List UInt8} {hash : List UInt8 → UInt64}

/-- The map from hashes to what was last stored for them; `none` stands for a hash that was never
    updated. -/
abbrev Bindings := UInt64 → Option UInt64

/-- What `index_update` makes of the map: a hash that is new is bound to zero. -/
def Bindings.update (m : Bindings) (h : UInt64) : Bindings :=
  Function.update m h (some ((m h).getD 0))

/-- What storing an offset makes of it. -/
def Bindings.store (m : Bindings) (h off : UInt64) : Bindings := Function.update m h (some off)

/-- The runs, from `index_open`. The state of the system is any, at every call. -/
inductive IndexRun (sys : Sys σ) (hash : List UInt8 → UInt64) : Index → Bindings → Prop
  | opened {index : Index} {s s' : σ} (h : indexOpen sys s = .ok index s') :
      IndexRun sys hash index fun _ => none
  | updated {index : Index} {m : Bindings} {key : List UInt8} {r : Index × ℕ} {s s' : σ}
      (run : IndexRun sys hash index m) (h : indexUpdate sys hash index key s = .ok r s') :
      IndexRun sys hash r.1 (m.update (hashKey hash key))
  | stored {index : Index} {m : Bindings} {key : List UInt8} {r : Index × ℕ} {s s' : σ}
      (off : UInt64) (run : IndexRun sys hash index m)
      (h : indexUpdate sys hash index key s = .ok r s') :
      IndexRun sys hash (r.1.setOff r.2 off) (m.store (hashKey hash key) off)
  | failed {index : Index} {m : Bindings} {key : List UInt8} {c : Cause} {s s' : σ}
      (run : IndexRun sys hash index m)
      (h : indexUpdate sys hash index key s = .error (.io c) s') : IndexRun sys hash index m

/-- The index is the map. -/
structure IsMap (σ : Type) (hash : List UInt8 → UInt64) (index : Index) (m : Bindings) : Prop where
  /-- `index_lookup` returns NULL or a pointer to what was stored -/
  lookup : ∀ key, key ≠ [] → ∀ s : σ,
    indexLookup hash index key s = .ok (m (hashKey hash key)) s
  /-- the used slots hold the bindings, ... -/
  slots : ∀ h a, m h = some a ↔ ∃ j ∈ index.used, index.slotAt j = ⟨h, a⟩
  /-- ... each hash in one slot, and none is zero -/
  distinct : ∀ i ∈ index.used, ∀ j ∈ index.used,
    (index.slotAt i).key = (index.slotAt j).key → i = j
  nonzero : ∀ j ∈ index.used, (index.slotAt j).key ≠ 0
  size : index.size.toNat = index.used.card

/-- What `index_update` returns: the slot of the key's hash, with what was stored there or zero. One
    slot at least stays free. -/
structure Yields (hash : List UInt8 → UInt64) (m : Bindings) (key : List UInt8) (r : Index × ℕ) :
    Prop where
  slot : r.1.slotAt r.2 = ⟨hashKey hash key, (m (hashKey hash key)).getD 0⟩
  used : r.2 ∈ r.1.used
  free : r.1.size < r.1.capacity

/-- The index is the map, and stays it when the table grows, which fails only for want of memory. A
    further update returns the slot of its hash. -/
structure Serves (sys : Sys σ) (hash : List UInt8 → UInt64) (index : Index) (m : Bindings) : Prop
    extends IsMap σ hash index m where
  grown : ∀ s, wp (grow sys index) (fun index' _ => IsMap σ hash index' m)
    (fun e _ => e = .io .indexMemory) s
  yields : ∀ key s r s', indexUpdate sys hash index key s = .ok r s' → Yields hash m key r

/-! ## The invariant -/

/-- What is found for a hash. -/
def Index.find (index : Index) (h : UInt64) : Option UInt64 :=
  OpenAddressing.find index.table index.probes h

/-- What holds of a run: the searches find what is in the map. A table that has slots has many. -/
structure Keeps (index : Index) (m : Bindings) : Prop extends index.WF where
  find : ∀ h, index.find h = m h
  slots : index.capacity = 0 ∨ 145 ≤ index.capacity.toNat

theorem find_congr {index index' : Index} (ht : OpenAddressing.WF index.table index.probes)
    (ht' : OpenAddressing.WF index'.table index'.probes)
    (h : ∀ k a, OpenAddressing.Holds index'.table k a ↔ OpenAddressing.Holds index.table k a)
    (k : UInt64) : index'.find k = index.find k := by
  unfold Index.find
  ext a
  rw [ht'.find_eq_some_iff, ht.find_eq_some_iff, h]

theorem Put.find {index index' : Index} {key a : UInt64} {j : ℕ} (h : Put index key j a index')
    (hwf : OpenAddressing.WF index.table index.probes) (k : UInt64) :
    index'.find k = if k = key then some a else index.find k := by
  unfold Index.find
  rw [h.table, probes_congr h.capacity, OpenAddressing.find_put hwf h.firstHit]

theorem keeps_empty : Keeps .empty fun _ => none :=
  ⟨wf_empty, fun _ => rfl, .inl rfl⟩

/-- The invariant says what is wanted. -/
theorem Keeps.isMap {index : Index} {m : Bindings} (h : Keeps index m) : IsMap σ hash index m := by
  refine ⟨fun key hkey s => ?_, fun k a => ?_, fun i hi j hj => used_unique h.toTidy hi hj,
    fun j hj => mem_used_iff.1 hj, h.size⟩
  · rw [indexLookup_find index hkey]
    exact congrArg (EStateM.Result.ok · s) (h.find _)
  · rw [← h.find k, Index.find, h.table.find_eq_some_iff]
    constructor
    · rintro ⟨j, hj⟩
      obtain ⟨hne, hslot⟩ := key_ne_zero_of_table hj
      refine ⟨j, ?_, hslot⟩
      rw [mem_used_iff, hslot]
      exact hne
    · rintro ⟨j, hj, hslot⟩
      refine ⟨j, ?_⟩
      rw [table_of_used hj, hslot]

theorem Keeps.congr {index index' : Index} {m : Bindings} (h : Keeps index m) (hwf : index'.WF)
    (hholds : ∀ k a, OpenAddressing.Holds index'.table k a ↔
      OpenAddressing.Holds index.table k a)
    (hslots : index'.capacity = 0 ∨ 145 ≤ index'.capacity.toNat) : Keeps index' m :=
  ⟨hwf, fun k => (find_congr h.table hwf.table hholds k).trans (h.find k), hslots⟩

/-- A slot written by `update` or through its result. -/
theorem Keeps.put {index index' : Index} {m : Bindings} {key a : UInt64} {j : ℕ}
    (h : Keeps index m) (hput : Put index key j a index')
    (hload : 100 * index.size.toNat ≤ 71 * index.capacity.toNat) :
    Keeps index' (m.store key a) := by
  refine ⟨hput.wf h.toTidy hload, fun k => ?_, by rw [hput.capacity]; exact h.slots⟩
  rw [hput.find h.table, h.find, Bindings.store, Function.update_apply]

variable (hsys : sys.Documented log) {index : Index} {m : Bindings} {s : σ}
include hsys

/-- **`grow`** keeps the map, and makes room for one more hash. -/
theorem Keeps.grow (h : Keeps index m) :
    wp (Store.grow sys index)
      (fun index' _ => Keeps index' m ∧ 145 ≤ index'.capacity.toNat ∧
        100 * index'.size.toNat ≤ 71 * index'.capacity.toNat)
      (fun e _ => e = .io .indexMemory) s := by
  have hload := h.load
  have hsize := h.size
  rw [grow_eq]
  refine (growIf_wp hsys index.due h.toWF).mono ?_ fun _ _ h => h.2
  rintro index' s' ⟨-, htidy, hused, hholds, hgrown⟩
  have hsize' := htidy.size
  obtain ⟨hcap, hload'⟩ : 145 ≤ index'.capacity.toNat ∧
      100 * index'.size.toNat ≤ 71 * index'.capacity.toNat := by
    rcases hgrown with ⟨-, hcap⟩ | ⟨hdue, rfl⟩
    · exact ⟨by omega, by omega⟩
    · obtain ⟨hne, hle⟩ := load_of_not_due hdue
      exact ⟨h.slots.resolve_left hne, hle⟩
  exact ⟨h.congr ⟨htidy, by omega⟩ hholds (.inr hcap), hcap, hload'⟩

/-- **`index_update`** finds or makes the binding of the hash. -/
theorem Keeps.indexUpdate (h : Keeps index m) (key : List UInt8) :
    wp (Store.indexUpdate sys hash index key)
      (fun r _ => Yields hash m key r ∧ Keeps r.1 (m.update (hashKey hash key)) ∧
        ∀ off, Keeps (r.1.setOff r.2 off) (m.store (hashKey hash key) off))
      (fun _ _ => True) s := by
  have h0 : hashKey hash key ≠ 0 := hashKey_ne_zero key
  unfold Store.indexUpdate
  split
  · exact wp.throw trivial
  refine wp.bind ((h.grow hsys).mono ?_ fun _ _ _ => trivial)
  rintro index₁ s₁ ⟨h₁, hcap, hload⟩
  cases hupdate : index₁.update (hashKey hash key) with
  | none => exact wp.throw trivial
  | some r =>
      have hput := update_put h0 hupdate
      have hhead : index₁.head (hashKey hash key) = (m (hashKey hash key)).getD 0 :=
        congrArg (Option.getD · 0) (h₁.find _)
      rw [hhead] at hput
      refine ⟨⟨hput.slotAt, ?_, ?_⟩, h₁.put hput hload, fun off =>
        h₁.put (hput.setOff h0 off) hload⟩
      · rw [hput.used]
        exact Finset.mem_insert_self _ _
      · have hsize := hput.size_le
        rw [UInt64.lt_iff_toNat_lt, hput.capacity]
        omega

theorem indexOpen_wp :
    wp (indexOpen sys) (fun index s' => log s' = log s ∧ index = .empty)
      (fun e s' => log s' = log s ∧ e = .io .openMemory) s :=
  wp.bind ((mallocOr_wp hsys _ _).mono (fun _ _ h => ⟨h.1, rfl⟩) fun _ _ h => h)

/-- A run keeps the map. -/
theorem IndexRun.keeps (h : IndexRun sys hash index m) : Keeps index m := by
  induction h with
  | opened h =>
      rw [((indexOpen_wp hsys).ok h).2]
      exact keeps_empty
  | updated _ h ih => exact ((ih.indexUpdate hsys _).ok h).2.1
  | stored off _ h ih => exact ((ih.indexUpdate hsys _).ok h).2.2 off
  | failed _ _ ih => exact ih

/-- **The index is the map of what was stored** after every run that did not exit. -/
theorem indexRun_serves (h : IndexRun sys hash index m) : Serves sys hash index m := by
  have hkeeps := h.keeps hsys
  refine ⟨hkeeps.isMap, fun s => ?_, fun key s r s' hr => ((hkeeps.indexUpdate hsys key).ok hr).1⟩
  exact (hkeeps.grow hsys).mono (fun _ _ h => h.1.isMap) fun _ _ h => h

omit hsys in
/-- What `index_update` returns for a new key in an index that was just opened. -/
def firstUpdate : Index × ℕ :=
  match indexUpdate Memory.sys (fun _ => 1) .empty [107] (Memory.empty []) with
  | .ok r _ => r
  | .error _ _ => (.empty, 0)

omit hsys in
theorem indexRun_serves_memory :
    Serves Memory.sys (fun _ => 1) (firstUpdate.1.setOff firstUpdate.2 7)
      (Bindings.store (fun _ => none) 1 7) :=
  indexRun_serves Memory.documented (.stored 7
    (.opened (show indexOpen Memory.sys (Memory.empty []) = .ok .empty (Memory.empty []) from rfl))
    (show indexUpdate Memory.sys (fun _ => 1) .empty [107] (Memory.empty []) =
      .ok firstUpdate (Memory.empty []) from rfl))

end CS238P.Store
