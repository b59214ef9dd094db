import CS238P.Store.Index

set_option autoImplicit false

/-! # Contracts of the index

`update` and `grow` keep every stored offset. `grow` cannot end in `EXIT("software")`: the new table
is so large that even the slots that a wrapping probe reaches are more than the hashes. `update`
can, but only in a table that is not due to grow. -/

namespace CS238P.Store

/-! ## `update` and the store through its result -/

/-- `index'` has `a` for `key` and is otherwise like `index`; it is one larger if `key` is new. -/
structure Put (index : Index) (key : UInt64) (j : ℕ) (a : UInt64) (index' : Index) : Prop where
  stop : index.stop key = some j
  capacity : index'.capacity = index.capacity
  table : index'.table = OpenAddressing.put index.table j key a
  used : index'.used = insert j index.used
  size : index'.size = if j ∈ index.used then index.size else index.size + 1

/-- **`update`** leaves every stored offset as it was. -/
theorem update_put {index index' : Index} {key : UInt64} {j : ℕ} (hkey : key ≠ 0)
    (h : index.update key = some (index', j)) : Put index key j (index.head key) index' := by
  unfold Index.update at h
  split at h
  · cases h
  rename_i j' hstop
  have hj := stop_lt hstop
  have hfind : OpenAddressing.find index.table index.probes key =
      (index.table j').map Prod.snd := by
    unfold OpenAddressing.find
    rw [← stop_eq_firstHit, hstop]
    rfl
  split at h
  · rename_i hfree
    cases h
    have hhead : index.head key = 0 := by
      unfold Index.head
      rw [hfind, Index.table, if_pos hfree]
      rfl
    rw [hhead]
    exact ⟨hstop, rfl, table_setSlot hj hkey, used_setSlot hj hkey,
      (if_neg (by rw [mem_used_iff]; exact not_not.2 hfree)).symm⟩
  · rename_i hown
    cases h
    have hhead : index.head key = (index.slotAt j).off := by
      unfold Index.head
      rw [hfind, Index.table, if_neg hown]
      rfl
    rw [hhead]
    exact ⟨hstop, rfl, table_setSlot hj hkey, used_setSlot hj hkey,
      (if_pos (mem_used_iff.2 hown)).symm⟩

theorem card_used_le (index : Index) : index.used.card ≤ index.capacity.toNat := by
  have := Finset.card_filter_le (Finset.range index.capacity.toNat)
    fun j => (index.slotAt j).key ≠ 0
  rwa [Finset.card_range] at this

namespace Put

variable {index index' : Index} {key a : UInt64} {j : ℕ}

theorem lt (h : Put index key j a index') : j < index'.capacity.toNat := by
  rw [h.capacity]
  exact stop_lt h.stop

theorem slotAt (h : Put index key j a index') : index'.slotAt j = ⟨key, a⟩ := by
  have : index'.table j = some (key, a) := by
    rw [h.table]
    exact Function.update_self ..
  exact (key_ne_zero_of_table this).2

theorem slotAt_key (h : Put index key j a index') : (index'.slotAt j).key = key := by
  rw [h.slotAt]

theorem slotAt_off (h : Put index key j a index') : (index'.slotAt j).off = a := by
  rw [h.slotAt]

/-- Another offset is stored through the pointer that `update` returned. -/
theorem setOff (h : Put index key j a index') (hkey : key ≠ 0) (b : UInt64) :
    Put index key j b (index'.setOff j b) := by
  have hslot := h.slotAt_key
  have hne : (⟨(index'.slotAt j).key, b⟩ : Slot).key ≠ 0 := by
    show (index'.slotAt j).key ≠ 0
    rw [hslot]
    exact hkey
  refine ⟨h.stop, h.capacity, ?_, ?_, h.size⟩
  · unfold Index.setOff
    rw [table_setSlot h.lt hne, h.table]
    show OpenAddressing.put _ j (index'.slotAt j).key b = _
    rw [hslot, OpenAddressing.put_put]
  · unfold Index.setOff
    rw [used_setSlot h.lt hne, h.used, Finset.insert_eq_of_mem (Finset.mem_insert_self _ _)]

theorem firstHit (h : Put index key j a index') :
    OpenAddressing.firstHit index.table key (index.probes key) = some j := by
  rw [← stop_eq_firstHit]
  exact h.stop

theorem head (h : Put index key j a index') (hwf : OpenAddressing.WF index.table index.probes)
    (k : UInt64) : index'.head k = if k = key then a else index.head k := by
  unfold Index.head
  rw [h.table, probes_congr h.capacity, OpenAddressing.find_put hwf h.firstHit]
  split <;> rfl

theorem tidy (h : Put index key j a index') (ht : index.Tidy) : index'.Tidy := by
  have hcap := ht.capacity
  refine ⟨?_, ?_, by rw [h.capacity]; exact hcap⟩
  · rw [h.table, probes_congr h.capacity]
    exact ht.table.put h.firstHit a
  · rw [h.size, h.used]
    split
    · rename_i hmem
      rw [ht.size, Finset.insert_eq_of_mem hmem]
    · rename_i hmem
      have hle := card_used_le index
      rw [Finset.card_insert_of_notMem hmem, UInt64.toNat_add, ht.size, UInt64.toNat_one]
      omega

theorem size_le (h : Put index key j a index') : index'.size.toNat ≤ index.size.toNat + 1 := by
  rw [h.size]
  split
  · omega
  · rw [UInt64.toNat_add, UInt64.toNat_one]
    omega

/-- One more slot is allowed if the load was not exceeded. -/
theorem wf (h : Put index key j a index') (ht : index.Tidy)
    (hload : 100 * index.size.toNat ≤ 71 * index.capacity.toNat) : index'.WF := by
  have hsize := h.size_le
  refine ⟨h.tidy ht, ?_⟩
  rw [h.capacity]
  omega

end Put

/-! ## The slots in use -/

section Slots

variable {index : Index}

theorem table_of_used {j : ℕ} (hj : j ∈ index.used) :
    index.table j = some ((index.slotAt j).key, (index.slotAt j).off) := by
  rw [Index.table, if_neg (mem_used_iff.1 hj)]

theorem head_of_used (h : index.Tidy) {j : ℕ} (hj : j ∈ index.used) :
    (index.slotAt j).off = index.head (index.slotAt j).key := by
  unfold Index.head
  rw [(h.table.find_eq_some_iff _ _).2 ⟨j, table_of_used hj⟩]
  rfl

/-- A hash has one slot. -/
theorem used_unique (h : index.Tidy) {i j : ℕ} (hi : i ∈ index.used) (hj : j ∈ index.used)
    (hkey : (index.slotAt i).key = (index.slotAt j).key) : i = j := by
  have hi' := h.table i _ _ (table_of_used hi)
  have hj' := h.table j _ _ (table_of_used hj)
  rw [hkey, hj'] at hi'
  exact (Option.some.inj hi').symm

/-- A hash with an offset has a slot. -/
theorem exists_used {h : UInt64} (hhead : index.head h ≠ 0) :
    ∃ j ∈ index.used, (index.slotAt j).key = h := by
  unfold Index.head OpenAddressing.find at hhead
  cases hfirst : OpenAddressing.firstHit index.table h (index.probes h) with
  | none =>
      rw [hfirst] at hhead
      exact absurd rfl hhead
  | some j =>
      rw [hfirst] at hhead
      rcases OpenAddressing.firstHit_cases hfirst with hnone | ⟨a, ha⟩
      · rw [Option.bind_some, hnone] at hhead
        exact absurd rfl hhead
      · obtain ⟨hne, hslot⟩ := key_ne_zero_of_table ha
        have hkey : (index.slotAt j).key = h := by rw [hslot]
        exact ⟨j, mem_used_iff.2 (by rwa [hkey]), hkey⟩

end Slots

/-! ## `grow` -/

/-- A table that is at most half full has a slot for every key. -/
theorem exists_stop {index : Index} (hroom : 2 * index.used.card < index.capacity.toNat)
    (key : UInt64) : ∃ j, index.stop key = some j := by
  rw [stop_eq_firstHit]
  refine OpenAddressing.exists_firstHit key index.used (fun j hj hne => ?_) ?_
  · rw [probes_eq_linear] at hj
    rw [Index.used, Finset.mem_filter, Finset.mem_range]
    refine ⟨OpenAddressing.mem_linear_lt hj, fun h0 => hne ?_⟩
    rw [Index.table, if_pos h0]
  · have hcard := OpenAddressing.card_linear (M := 2 ^ 64) key.toNat_lt
      (le_of_lt index.capacity.toNat_lt)
    rw [← probes_eq_linear] at hcard
    omega

theorem exists_update {index : Index} {key : UInt64} {j : ℕ} (h : index.stop key = some j) :
    ∃ index', index.update key = some (index', j) := by
  unfold Index.update
  rw [h]
  simp only
  split
  · exact ⟨_, rfl⟩
  · exact ⟨_, rfl⟩

theorem update_eq_none_iff (index : Index) (key : UInt64) :
    index.update key = none ↔ index.stop key = none := by
  cases hstop : index.stop key with
  | none => simp [Index.update, hstop]
  | some j =>
      obtain ⟨index', hupdate⟩ := exists_update hstop
      rw [hupdate]
      simp

/-- The slots in use. -/
def inUse (slot : Slot) : Bool := slot.key ≠ 0

/-- One turn of the loop of `grow`: a hash that the table does not have finds a free place in a table
    that is not half full. -/
theorem rehash_turn {index : Index} {slot : Slot} (ht : index.Tidy) (hkey : slot.key ≠ 0)
    (hnew : ∀ a, ¬ OpenAddressing.Holds index.table slot.key a)
    (hroom : 2 * index.used.card < index.capacity.toNat) :
    ∃ index₁ j, index.update slot.key = some (index₁, j) ∧ (index₁.setOff j slot.off).Tidy ∧
      (index₁.setOff j slot.off).capacity = index.capacity ∧
      (index₁.setOff j slot.off).used.card = index.used.card + 1 ∧
      ∀ k a, OpenAddressing.Holds (index₁.setOff j slot.off).table k a ↔
        (k = slot.key ∧ a = slot.off) ∨ (k ≠ slot.key ∧ OpenAddressing.Holds index.table k a) := by
  obtain ⟨j, hstop⟩ := exists_stop hroom slot.key
  obtain ⟨index₁, hupdate⟩ := exists_update hstop
  have hput := (update_put hkey hupdate).setOff hkey slot.off
  -- the place is free: the hash was not in the table before
  have hnotin : j ∉ index.used := by
    intro hj
    rcases OpenAddressing.firstHit_cases hput.firstHit with hnone | ⟨a, ha⟩
    · rw [Index.used, Finset.mem_filter] at hj
      rw [Index.table, if_neg hj.2] at hnone
      cases hnone
    · exact hnew a ⟨j, ha⟩
  refine ⟨index₁, j, hupdate, hput.tidy ht, hput.capacity, ?_, fun k a => ?_⟩
  · rw [hput.used, Finset.card_insert_of_notMem hnotin]
  · rw [hput.table, OpenAddressing.holds_put ht.table hput.firstHit]

/-- **The loop of `grow`** into a table with enough room: it ends, and the new table holds what it
    held and the slots. -/
theorem rehash_spec (slots : List Slot) : ∀ index : Index, index.Tidy →
    slots.Pairwise (fun x y => x.key ≠ 0 → x.key ≠ y.key) →
    (∀ slot ∈ slots, slot.key ≠ 0 → ∀ a, ¬ OpenAddressing.Holds index.table slot.key a) →
    2 * (index.used.card + slots.countP inUse) ≤ index.capacity.toNat →
    ∃ index', rehash slots index = some index' ∧ index'.Tidy ∧
      index'.capacity = index.capacity ∧
      index'.used.card = index.used.card + slots.countP inUse ∧
      ∀ k a, OpenAddressing.Holds index'.table k a ↔
        OpenAddressing.Holds index.table k a ∨ (k ≠ 0 ∧ ⟨k, a⟩ ∈ slots) := by
  induction slots with
  | nil =>
      intro index ht _ _ _
      exact ⟨index, rfl, ht, rfl, rfl, fun k a => by simp⟩
  | cons slot rest ih =>
      intro index ht hpair hnew hroom
      rw [List.pairwise_cons] at hpair
      by_cases hfree : slot.key = 0
      · have hcount : (slot :: rest).countP inUse = rest.countP inUse :=
          List.countP_cons_of_neg (by simp [inUse, hfree])
        obtain ⟨index', hrehash, ht', hcap, hused, hholds⟩ := ih index ht hpair.2
          (fun s hs => hnew s (List.mem_cons_of_mem _ hs)) (by rwa [hcount] at hroom)
        refine ⟨index', by rw [rehash, if_pos hfree, hrehash], ht', hcap, by rw [hcount, hused],
          fun k a => ?_⟩
        rw [hholds, List.mem_cons]
        have hne : k ≠ 0 → ⟨k, a⟩ ≠ slot := by
          rintro hk rfl
          exact hk hfree
        tauto
      · have hcount : (slot :: rest).countP inUse = rest.countP inUse + 1 :=
          List.countP_cons_of_pos (by simp [inUse, hfree])
        rw [hcount] at hroom
        obtain ⟨index₁, j, hupdate, ht₁, hcap₁, hused₁, hholds₁⟩ :=
          rehash_turn ht hfree (hnew slot List.mem_cons_self hfree) (by omega)
        have hnew₁ : ∀ s ∈ rest, s.key ≠ 0 → ∀ a,
            ¬ OpenAddressing.Holds (index₁.setOff j slot.off).table s.key a := by
          intro s hs hs0 a hsa
          rcases (hholds₁ s.key a).1 hsa with ⟨hk, -⟩ | ⟨-, hold⟩
          · exact hpair.1 s hs hfree hk.symm
          · exact hnew s (List.mem_cons_of_mem _ hs) hs0 a hold
        obtain ⟨index', hrehash, ht', hcap, hused, hholds⟩ := ih _ ht₁ hpair.2 hnew₁
          (by rw [hused₁, hcap₁]; omega)
        refine ⟨index', ?_, ht', by rw [hcap, hcap₁], by rw [hused, hused₁, hcount]; omega,
          fun k a => ?_⟩
        · rw [rehash, if_neg hfree, hupdate]
          exact hrehash
        · rw [hholds, hholds₁, List.mem_cons]
          have hslot : (⟨k, a⟩ : Slot) = slot ↔ k = slot.key ∧ a = slot.off := by
            cases slot
            simp
          rw [hslot]
          by_cases hk : k = slot.key
          · -- the hash of the slot: the new table had nothing for it
            subst hk
            have hold := hnew slot List.mem_cons_self hfree a
            simp only [hold, hfree, true_and, false_or, ne_eq, not_true_eq_false, false_and,
              or_false, not_false_eq_true]
          · simp only [hk, false_and, false_or, ne_eq, not_false_eq_true, true_and]

/-- The slots of an index, as `rehash` goes through them. -/
theorem pairwise_maps {index : Index} (h : OpenAddressing.WF index.table index.probes) :
    index.maps.Pairwise (fun x y => x.key ≠ 0 → x.key ≠ y.key) := by
  rw [List.pairwise_iff_getElem]
  intro i j hi hj hij hne heq
  have hslot : ∀ (k : ℕ) (hk : k < index.maps.length), index.slotAt k = index.maps[k] :=
    fun k hk => by rw [Index.slotAt, List.getD_eq_getElem?_getD, List.getElem?_eq_getElem hk]; rfl
  have hfirst : ∀ (k : ℕ) (hk : k < index.maps.length), index.maps[k].key ≠ 0 →
      OpenAddressing.firstHit index.table index.maps[k].key (index.probes index.maps[k].key) =
        some k := fun k hk hk0 =>
    h k _ index.maps[k].off (by rw [Index.table, hslot k hk, if_neg hk0])
  have h₁ := hfirst i hi hne
  rw [heq, hfirst j hj (by rw [← heq]; exact hne)] at h₁
  exact absurd (Option.some.inj h₁) (by omega)

theorem countP_maps (index : Index) : index.maps.countP inUse = index.used.card := by
  have hmaps : index.maps = (List.range index.capacity.toNat).map index.slotAt := by
    refine List.ext_getElem (by rw [List.length_map, List.length_range, index.length_maps]) ?_
    intro k hk _
    rw [List.getElem_map, List.getElem_range, Index.slotAt, List.getD_eq_getElem?_getD,
      List.getElem?_eq_getElem hk]
    rfl
  rw [hmaps, List.countP_map, List.countP_eq_length_filter, Index.used]
  show _ = ((List.range index.capacity.toNat).filter _).length
  congr 2

theorem holds_iff_mem_maps (index : Index) (k a : UInt64) :
    OpenAddressing.Holds index.table k a ↔ k ≠ 0 ∧ ⟨k, a⟩ ∈ index.maps := by
  constructor
  · rintro ⟨j, hj⟩
    obtain ⟨hk, hslot⟩ := key_ne_zero_of_table hj
    refine ⟨hk, ?_⟩
    have hlt : j < index.maps.length := by
      by_contra hle
      rw [index.length_maps] at hle
      rw [slotAt_of_le (Nat.le_of_not_lt hle)] at hslot
      cases hslot
      exact hk rfl
    rw [← hslot, Index.slotAt, List.getD_eq_getElem?_getD, List.getElem?_eq_getElem hlt]
    exact List.getElem_mem hlt
  · rintro ⟨hk, hmem⟩
    obtain ⟨j, hlt, hj⟩ := List.getElem_of_mem hmem
    refine ⟨j, ?_⟩
    rw [Index.table, Index.slotAt, List.getD_eq_getElem?_getD, List.getElem?_eq_getElem hlt, hj]
    exact if_neg hk

/-- The load that does not let the table grow. -/
theorem load_of_not_due {index : Index} (h : index.due = false) :
    index.capacity ≠ 0 ∧ 100 * index.size.toNat ≤ 71 * index.capacity.toNat := by
  unfold Index.due loadExceeded at h
  rw [Bool.or_eq_false_iff, decide_eq_false_iff_not, decide_eq_false_iff_not] at h
  refine ⟨h.1, ?_⟩
  obtain ⟨d, hd, hd₁, hd₂⟩ := Double.ofNat_near index.size.toNat
  obtain ⟨e, he, he₁, he₂⟩ := Double.ofNat_near index.capacity.toNat
  have := h.2
  omega

theorem head_congr {index index' : Index} (ht : OpenAddressing.WF index.table index.probes)
    (ht' : OpenAddressing.WF index'.table index'.probes)
    (h : ∀ k a, OpenAddressing.Holds index'.table k a ↔ OpenAddressing.Holds index.table k a) :
    index'.head = index.head := by
  funext k
  unfold Index.head
  congr 1
  ext a
  rw [ht'.find_eq_some_iff, ht.find_eq_some_iff, h]

/-! ## Room -/

/-- The table is due to grow, or a slot that is free or the hash's own is among those tried. -/
def Index.HasRoom (index : Index) (h : UInt64) : Prop :=
  index.due = true ∨ ∃ j ∈ index.probes h, (index.slotAt j).key = 0 ∨ (index.slotAt j).key = h

theorem hasRoom_iff (index : Index) (h : UInt64) :
    index.HasRoom h ↔ index.due = true ∨ ∃ j, index.stop h = some j := by
  unfold Index.HasRoom Index.stop
  rw [← Option.isSome_iff_exists, List.find?_isSome]
  simp only [decide_eq_true_eq]

/-! ## The functions that allocate -/

variable {σ : Type} {sys : Sys σ} {log : σ → List UInt8} (hsys : sys.Documented log) {s : σ}

theorem slotAt_replicate (capacity : UInt64) (j : ℕ) :
    (⟨0, capacity, List.replicate capacity.toNat ⟨0, 0⟩, List.length_replicate⟩ : Index).slotAt j =
      ⟨0, 0⟩ := by
  unfold Index.slotAt
  rw [List.getD_eq_getElem?_getD, List.getElem?_replicate]
  split <;> rfl

/-- An index whose slots are all free. -/
theorem tidy_of_free {index : Index} (hsize : index.size = 0)
    (hcap : index.capacity.toNat * 16 < 2 ^ 63) (hfree : ∀ j, index.slotAt j = ⟨0, 0⟩) :
    index.Tidy ∧ index.used = ∅ ∧ ∀ k a, ¬ OpenAddressing.Holds index.table k a := by
  have htable : index.table = fun _ => none := by
    funext j
    rw [Index.table, hfree, if_pos rfl]
  have hused : index.used = ∅ := by
    unfold Index.used
    rw [Finset.filter_eq_empty_iff]
    intro j _
    rw [hfree]
    exact fun h => h rfl
  refine ⟨⟨?_, by rw [hsize, hused]; rfl, hcap⟩, hused, ?_⟩
  · rw [htable]
    exact OpenAddressing.wf_empty _
  · rintro k a ⟨j, hj⟩
    rw [htable] at hj
    cases hj

theorem wf_empty : Index.empty.WF := by
  have hfree : ∀ j, Index.empty.slotAt j = ⟨0, 0⟩ := fun j => rfl
  exact ⟨(tidy_of_free rfl (by decide) hfree).1, by decide⟩

include hsys

theorem create_wp (capacity : UInt64) (hcap : capacity.toNat * 16 < 2 ^ 64) :
    wp (create sys capacity)
      (fun index s' => log s' = log s ∧ index.capacity = capacity ∧ index.Tidy ∧
        index.used = ∅ ∧ ∀ k a, ¬ OpenAddressing.Holds index.table k a)
      (fun e s' => log s' = log s ∧ e = .io .indexMemory) s := by
  have hn : (capacity * 16).toNat = capacity.toNat * 16 := by
    rw [UInt64.toNat_mul]
    exact Nat.mod_eq_of_lt hcap
  unfold create
  refine wp.bind ((mallocOr_wp hsys _ _).mono ?_ fun _ _ h => h)
  rintro - s' ⟨hlog, hle⟩
  rw [hn] at hle ⊢
  rw [if_neg (Nat.lt_irrefl _)]
  exact ⟨hlog, rfl, tidy_of_free rfl hle (slotAt_replicate capacity)⟩

/-- `grow` keeps what is stored, whatever its load test says. A new table is made half as large
    again. -/
theorem growIf_wp (due : Bool) {index : Index} (h : index.WF) :
    wp (growIf sys due index)
      (fun index' s' => log s' = log s ∧ index'.Tidy ∧ index'.used.card = index.used.card ∧
        (∀ k a, OpenAddressing.Holds index'.table k a ↔ OpenAddressing.Holds index.table k a) ∧
        ((due = true ∧ index'.capacity.toNat = (index.capacity.toNat + 97) * 3 / 2) ∨
          (due = false ∧ index' = index)))
      (fun e s' => log s' = log s ∧ e = .io .indexMemory) s := by
  unfold growIf
  cases due with
  | false =>
      rw [if_neg (by simp)]
      exact ⟨rfl, h.toTidy, rfl, fun _ _ => Iff.rfl, .inr ⟨rfl, rfl⟩⟩
  | true =>
      rw [if_pos rfl]
      have hcap := h.capacity
      have hload := h.load
      -- the new capacity does not overflow
      have hnew : ((index.capacity + 97) * 3 / 2).toNat = (index.capacity.toNat + 97) * 3 / 2 := by
        have h97 : (97 : UInt64).toNat = 97 := rfl
        have h3 : (3 : UInt64).toNat = 3 := rfl
        have h2 : (2 : UInt64).toNat = 2 := rfl
        rw [UInt64.toNat_div, UInt64.toNat_mul, UInt64.toNat_add, h97, h3, h2]
        omega
      refine wp.bind ((create_wp hsys _ (by omega)).mono ?_ fun _ _ h => h)
      rintro index_ s' ⟨hlog, hcap_, htidy_, hused_, hempty_⟩
      obtain ⟨index', hrehash, htidy, hcap', hused, hholds⟩ := rehash_spec index.maps index_ htidy_
        (pairwise_maps h.table) (fun slot _ _ => hempty_ slot.key) (by
          rw [hused_, countP_maps, ← h.size, hcap_, hnew, Finset.card_empty]
          omega)
      rw [hused_, countP_maps, Finset.card_empty, Nat.zero_add] at hused
      rw [hcap_] at hcap'
      rw [hrehash]
      refine ⟨hlog, htidy, hused, fun k a => ?_, .inl ⟨rfl, by rw [hcap', hnew]⟩⟩
      rw [hholds, holds_iff_mem_maps index]
      exact or_iff_right (hempty_ k a)

/-- **`grow`** keeps the stored offsets. When it makes a new table every key finds a slot in it. -/
theorem grow_wp {index : Index} (h : index.WF) :
    wp (grow sys index)
      (fun index' s' => log s' = log s ∧ index'.Tidy ∧ index'.head = index.head ∧
        100 * index'.size.toNat ≤ 71 * index'.capacity.toNat ∧
        ((index.due = true ∧ ∀ key, ∃ j, index'.stop key = some j) ∨
          (index.due = false ∧ index' = index)))
      (fun e s' => log s' = log s ∧ e = .io .indexMemory) s := by
  have hload := h.load
  have hsize := h.size
  rw [grow_eq]
  refine (growIf_wp hsys index.due h).mono ?_ fun _ _ h => h
  rintro index' s' ⟨hlog, htidy, hused, hholds, hgrown⟩
  have hsize' := htidy.size
  refine ⟨hlog, htidy, head_congr h.table htidy.table hholds, ?_⟩
  rcases hgrown with ⟨hdue, hcap⟩ | ⟨hdue, rfl⟩
  · exact ⟨by omega, .inl ⟨hdue, exists_stop (by omega)⟩⟩
  · exact ⟨(load_of_not_due hdue).2, .inr ⟨hdue, rfl⟩⟩

variable {hash : List UInt8 → UInt64}

omit hsys in
theorem hashKey_ne_zero (key : List UInt8) : hashKey hash key ≠ 0 := by
  unfold hashKey
  split
  · rename_i h
    rw [h]
    decide
  · assumption

/-- **`index_update`** keeps the stored offsets and returns the slot of the key's; an offset stored
    there is the key's alone. It exits only if the key's hash has no room. -/
theorem indexUpdate_wp {index : Index} (h : index.WF) (key : List UInt8) :
    wp (indexUpdate sys hash index key)
      (fun r s' => log s' = log s ∧ key ≠ [] ∧ r.1.WF ∧ r.1.head = index.head ∧
        (r.1.slotAt r.2).off = index.head (hashKey hash key) ∧
        ∀ off, (r.1.setOff r.2 off).WF ∧ ∀ k, (r.1.setOff r.2 off).head k =
          if k = hashKey hash key then off else index.head k)
      (fun e s' => log s' = log s ∧ (e = .io .indexMemory ∨ (e = .assertion ∧ key = []) ∨
        (e = .exitSoftware ∧ ¬ index.HasRoom (hashKey hash key)))) s := by
  unfold indexUpdate
  split
  · rename_i hkey
    exact ⟨rfl, .inr (.inl ⟨rfl, hkey⟩)⟩
  rename_i hkey
  refine wp.bind ((grow_wp hsys h).mono ?_ fun e s' h => ⟨h.1, .inl h.2⟩)
  rintro index₁ s' ⟨hlog, htidy, hhead, hload, hgrown⟩
  have h0 : hashKey hash key ≠ 0 := hashKey_ne_zero key
  cases hupdate : index₁.update (hashKey hash key) with
  | none =>
      refine ⟨hlog, .inr (.inr ⟨rfl, ?_⟩)⟩
      have hstop := (update_eq_none_iff _ _).1 hupdate
      -- a table that has just been made has room for every hash
      rcases hgrown with ⟨-, hroom⟩ | ⟨hdue, rfl⟩
      · obtain ⟨j, hj⟩ := hroom (hashKey hash key)
        rw [hstop] at hj
        cases hj
      · rw [hasRoom_iff]
        rintro (hdue' | ⟨j, hj⟩)
        · rw [hdue] at hdue'
          cases hdue'
        · rw [hstop] at hj
          cases hj
  | some r =>
      obtain ⟨index₂, j⟩ := r
      have hput := update_put h0 hupdate
      refine ⟨hlog, hkey, hput.wf htidy hload, ?_, ?_, fun off => ?_⟩
      · funext k
        rw [hput.head htidy.table]
        split
        · rename_i hk
          rw [hk, hhead]
        · rw [hhead]
      · rw [hput.slotAt_off, hhead]
      · have hput' := hput.setOff h0 off
        refine ⟨hput'.wf htidy hload, fun k => ?_⟩
        rw [hput'.head htidy.table, hhead]

omit hsys in
/-- Without room the process exits. -/
theorem indexUpdate_exits {index : Index} {key : List UInt8} (hkey : key ≠ [])
    (h : ¬ index.HasRoom (hashKey hash key)) (s : σ) :
    wp (indexUpdate sys hash index key) (fun _ _ => False) (fun e _ => e = .exitSoftware) s := by
  rw [hasRoom_iff, not_or, not_exists, Bool.not_eq_true] at h
  obtain ⟨hdue, hstop⟩ := h
  have hnone : index.update (hashKey hash key) = none := by
    unfold Index.update
    rw [Option.eq_none_iff_forall_ne_some.2 hstop]
  have hgrow : grow sys index = pure index := by
    unfold grow
    rw [hdue]
    rfl
  unfold indexUpdate
  rw [if_neg hkey, hgrow, pure_bind, hnone]
  exact wp.throw rfl

omit hsys in
/-- What `index_lookup` points to. -/
theorem indexLookup_find (index : Index) {key : List UInt8} (hkey : key ≠ []) (s : σ) :
    indexLookup hash index key s =
      .ok (OpenAddressing.find index.table index.probes (hashKey hash key)) s := by
  unfold indexLookup OpenAddressing.find
  rw [if_neg hkey, ← stop_eq_firstHit]
  cases hstop : index.stop (hashKey hash key) with
  | none => rfl
  | some j =>
      simp only [Option.bind_some, Index.table]
      split
      · rfl
      · rfl

omit hsys in
/-- **`index_lookup`** finds the stored offset. -/
theorem indexLookup_wp (index : Index) (key : List UInt8) :
    wp (indexLookup hash index key)
      (fun r s' => s' = s ∧ key ≠ [] ∧ r.getD 0 = index.head (hashKey hash key))
      (fun e s' => s' = s ∧ e = .assertion ∧ key = []) s := by
  by_cases hkey : key = []
  · unfold indexLookup
    rw [if_pos hkey]
    exact wp.throw ⟨rfl, rfl, hkey⟩
  · exact wp.of_ok (indexLookup_find index hkey s) ⟨rfl, hkey, rfl⟩

end CS238P.Store
