import CS238P.Store.IndexSpec
import CS238P.Store.Memory

set_option autoImplicit false

/-! # When a hash finds no slot

With the load kept at 0.7 there is always a free slot, but the probe of a hash near `2^64` does not
visit all of them: `key + i` wraps around, and `(key + i) % capacity` starts again at slot 0. An
insert into a table that has just grown always finds a slot, and so do those of `grow` itself. The
load test is read as exact here, so what fails is not the rounding. -/

namespace CS238P.Store

variable {σ : Type} (sys : Sys σ)

/-- The condition of `grow` with an exact quotient. -/
def Index.dueExact (index : Index) : Bool :=
  index.capacity = 0 || 7 * index.capacity.toNat < 10 * index.size.toNat

/-- `index_update` of a hash, with the exact load test. -/
def insertHash (index : Index) (key : UInt64) : M σ (Index × ℕ) := do
  let index' ← growIf sys index.dueExact index
  match index'.update key with
  | some r => return r
  | none => throw .exitSoftware

/-- Inserts the hashes one after the other. -/
def insertHashes : List UInt64 → Index → M σ Index
  | [], index => return index
  | key :: rest, index => do
      let r ← insertHash sys index key
      insertHashes rest r.1

/-- The slots that a probe visits that wraps around: those from the key's own on, one for each
    number from the key to the last of 64 bits, and then the first ones of the table. -/
def Index.Visits (index : Index) (key : UInt64) (j : ℕ) : Prop :=
  (∃ i < 2 ^ 64 - key.toNat, j = (key.toNat + i) % index.capacity.toNat) ∨
    j < key.toNat + index.capacity.toNat - 2 ^ 64

/-- The table is not due to grow, the probe of the key wraps around, and all the slots it visits are
    taken by other keys. -/
def Index.Blocks (index : Index) (key : UInt64) : Prop :=
  index.dueExact = false ∧ 2 ^ 64 < key.toNat + index.capacity.toNat ∧
    ∀ j, index.Visits key j → (index.slotAt j).key ≠ 0 ∧ (index.slotAt j).key ≠ key

/-- No key of the sequence is blocked when its turn comes. -/
def NeverBlocked : List UInt64 → Index → σ → Prop
  | [], _, _ => True
  | key :: rest, index, s =>
      ¬ index.Blocks key ∧
        match insertHash sys index key s with
        | .ok r s' => NeverBlocked rest r.1 s'
        | .error _ _ => True

/-! ## Probes -/

theorem stop_eq_none_iff (index : Index) (key : UInt64) :
    index.stop key = none ↔
      ∀ j ∈ index.probes key, (index.slotAt j).key ≠ 0 ∧ (index.slotAt j).key ≠ key := by
  unfold Index.stop
  rw [List.find?_eq_none]
  simp only [decide_eq_true_eq, not_or, ne_eq]

/-- A table that is not full has a slot for every key whose probe does not wrap around. -/
theorem exists_stop_of_le {index : Index} (hfree : index.used.card < index.capacity.toNat)
    {key : UInt64} (hle : key.toNat + index.capacity.toNat ≤ 2 ^ 64) :
    index.stop key ≠ none := by
  obtain ⟨j, hj, hnot⟩ := Finset.exists_mem_notMem_of_card_lt_card
    (s := index.used) (t := Finset.range index.capacity.toNat) (by rwa [Finset.card_range])
  rw [Finset.mem_range] at hj
  rw [mem_used_iff, not_not] at hnot
  intro hnone
  have hmem : j ∈ index.probes key := by
    rw [probes_eq_linear]
    exact OpenAddressing.mem_linear_of_lt hle hj
  exact ((stop_eq_none_iff index key).1 hnone j hmem).1 hnot

/-- A table that is not due to grow has no slot for a key exactly if it blocks it. -/
theorem stop_eq_none_iff_blocks {index : Index}
    (hfree : index.used.card < index.capacity.toNat) (hdue : index.dueExact = false)
    (key : UInt64) : index.stop key = none ↔ index.Blocks key := by
  unfold Index.Blocks
  rw [and_iff_right hdue]
  by_cases hwrap : 2 ^ 64 < key.toNat + index.capacity.toNat
  · rw [and_iff_right hwrap, stop_eq_none_iff, probes_eq_linear]
    refine forall_congr' fun j => imp_congr_left ?_
    exact OpenAddressing.mem_linear_of_wrap key.toNat_lt (le_of_lt index.capacity.toNat_lt) hwrap
  · have := exists_stop_of_le hfree (Nat.le_of_not_lt hwrap)
    tauto

/-! ## One insert -/

/-- What holds between inserts: the exact load is at most one key over 0.7. -/
structure Index.Spread (index : Index) : Prop extends index.Tidy where
  load : 10 * index.size.toNat ≤ 7 * index.capacity.toNat + 10

theorem Index.Spread.wf {index : Index} (h : index.Spread) : index.WF := by
  have hload := h.load
  exact ⟨h.toTidy, by omega⟩

theorem spread_empty : Index.empty.Spread := ⟨wf_empty.toTidy, by decide⟩

theorem load_of_not_dueExact {index : Index} (h : index.dueExact = false) :
    index.capacity ≠ 0 ∧ 10 * index.size.toNat ≤ 7 * index.capacity.toNat := by
  unfold Index.dueExact at h
  rw [Bool.or_eq_false_iff, decide_eq_false_iff_not, decide_eq_false_iff_not] at h
  exact ⟨h.1, Nat.le_of_not_lt h.2⟩

variable {sys} {log : σ → List UInt8} (hsys : sys.Documented log) {index : Index} {s : σ}
include hsys

/-- **One insert** exits exactly if the table blocks the key. -/
theorem insertHash_wp (h : index.Spread) {key : UInt64} (hkey : key ≠ 0) :
    wp (insertHash sys index key) (fun r _ => r.1.Spread ∧ ¬ index.Blocks key)
      (fun e _ => (e = .io .indexMemory ∧ ¬ index.Blocks key) ∨
        (e = .exitSoftware ∧ index.Blocks key)) s := by
  have hload := h.load
  have hsize := h.size
  unfold insertHash
  cases hdue : index.dueExact with
  | true =>
      have hnot : ¬ index.Blocks key := fun hblocks => by
        rw [hblocks.1] at hdue
        cases hdue
      refine wp.bind ((growIf_wp hsys true h.wf).mono ?_ fun _ _ h => .inl ⟨h.2, hnot⟩)
      rintro index₁ s₁ ⟨-, htidy, hused, -, hgrown⟩
      have hsize₁ := htidy.size
      have hcap := (hgrown.resolve_right fun hfalse => by cases hfalse.1).2
      -- the new table is less than half full
      obtain ⟨j, hstop⟩ := exists_stop (show 2 * index₁.used.card < _ by omega) key
      obtain ⟨index₂, hupdate⟩ := exists_update hstop
      have hput := update_put hkey hupdate
      have hle := hput.size_le
      rw [hupdate]
      refine ⟨⟨hput.tidy htidy, ?_⟩, hnot⟩
      show 10 * index₂.size.toNat ≤ 7 * index₂.capacity.toNat + 10
      rw [hput.capacity]
      omega
  | false =>
      obtain ⟨hne, hle⟩ := load_of_not_dueExact hdue
      have hpos : index.capacity.toNat ≠ 0 := fun h0 => hne (UInt64.toNat_inj.1 h0)
      have hblocks := stop_eq_none_iff_blocks (show index.used.card < _ by omega) hdue key
      rw [← update_eq_none_iff] at hblocks
      refine wp.bind (wp.of_ok rfl ?_)
      cases hupdate : index.update key with
      | none => exact wp.throw (.inr ⟨rfl, hblocks.1 hupdate⟩)
      | some r =>
          have hput := update_put hkey hupdate
          have hle' := hput.size_le
          refine ⟨⟨hput.tidy h.toTidy, ?_⟩, fun hb => ?_⟩
          · rw [hput.capacity]
            omega
          · rw [hblocks.2 hb] at hupdate
            cases hupdate

/-! ## Sequences -/

theorem insertHashes_exits_iff (keys : List UInt64) :
    ∀ {index : Index} {s : σ}, index.Spread → (∀ key ∈ keys, key ≠ 0) →
      ((∀ s', insertHashes sys keys index s ≠ .error .exitSoftware s') ↔
        NeverBlocked sys keys index s) := by
  induction keys with
  | nil => exact fun _ _ => iff_of_true (fun s' h => by cases h) trivial
  | cons key rest ih =>
      intro index s h hkeys
      have hkey := hkeys key List.mem_cons_self
      have hrest : ∀ key ∈ rest, key ≠ 0 := fun k hk => hkeys k (List.mem_cons_of_mem _ hk)
      have hwp := insertHash_wp hsys h hkey (s := s)
      have hrun : insertHashes sys (key :: rest) index s =
          EStateM.bind (insertHash sys index key) (fun r => insertHashes sys rest r.1) s := rfl
      rw [hrun, NeverBlocked]
      unfold EStateM.bind
      cases hr : insertHash sys index key s with
      | ok r s₁ =>
          obtain ⟨h₁, hnot⟩ := hwp.ok hr
          rw [and_iff_right hnot]
          exact ih h₁ hrest
      | error e s₁ =>
          rcases hwp.error hr with ⟨rfl, hnot⟩ | ⟨rfl, hblocks⟩
          · exact iff_of_true (fun s' h => by cases h) ⟨hnot, trivial⟩
          · exact iff_of_false (fun hno => hno s₁ rfl) fun hnever => hnever.1 hblocks

/-- **Inserts end in `EXIT("software")`** exactly if one of the keys is blocked: a sequence of
    inserts into an index that was just opened finds a slot for every key, also when it grows, if
    and only if no key is blocked at its turn. -/
theorem insertHashes_never_exits_iff {keys : List UInt64} (hkeys : ∀ key ∈ keys, key ≠ 0) (s : σ) :
    (∀ s', insertHashes sys keys .empty s ≠ .error .exitSoftware s') ↔
      NeverBlocked sys keys .empty s :=
  insertHashes_exits_iff hsys keys spread_empty hkeys

omit hsys in
theorem insertHashes_never_exits_iff_memory :
    (∀ s', insertHashes Memory.sys [1, 363] .empty (Memory.empty []) ≠ .error .exitSoftware s') ↔
      NeverBlocked Memory.sys [1, 363] .empty (Memory.empty []) :=
  insertHashes_never_exits_iff Memory.documented (by simp) _

omit hsys in
/-- The hashes 1 to 213 and 363 take the slots 0 to 213 of 363; the probe of `2^64 - 214` visits
    no others. -/
def wrapHashes : List UInt64 :=
  (List.range 213).map (fun n => .ofNat (n + 1)) ++ [363, 18446744073709551402]

omit hsys in
theorem wrapHashes_exited :
    exited (insertHashes Memory.sys wrapHashes .empty (Memory.empty [])) = true := by
  decide +kernel

omit hsys in
theorem exists_of_exited {α β : Type} {r : EStateM.Result Fail α β} (h : exited r = true) :
    ∃ s', r = .error .exitSoftware s' := by
  cases r with
  | ok a s' => cases h
  | error e s' =>
      cases e with
      | exitSoftware => exact ⟨s', rfl⟩
      | _ => cases h

omit hsys in
/-- The table is two thirds full when the last key finds no slot. -/
theorem wrapped_probe_exits :
    (∀ key ∈ wrapHashes, key ≠ 0) ∧
      ¬ ∀ s', insertHashes Memory.sys wrapHashes .empty (Memory.empty []) ≠
        .error .exitSoftware s' := by
  have hall : wrapHashes.all (fun key => key ≠ 0) = true := by decide +kernel
  refine ⟨fun key hkey => of_decide_eq_true (List.all_eq_true.1 hall key hkey), fun hnever => ?_⟩
  obtain ⟨s', hs'⟩ := exists_of_exited wrapHashes_exited
  exact hnever s' hs'

end CS238P.Store
