import CS238P.Store.Refinement

set_option autoImplicit false

/-! # Room for 214 hashes

A probe can miss the free slots of the index only when it wraps around, and even then it tries the
slots below `2^64 % capacity`. That is enough for the first two tables: the one of 145 slots grows
before 111 of them are in use, and the one of 363 has 214 slots that every hash tries. So a store
that is given keys with at most 214 different hashes never exits and is a finite map for good,
whatever the hash function is. The bound is sharp. -/

namespace CS238P.Store

variable {σ : Type} {sys : Sys σ} {log : σ → List UInt8} {hash : List UInt8 → UInt64}
  {hashes : Finset UInt64} {index : Index}

/-- The index is the one after `memset` or one of the first two tables, and these are its hashes. -/
structure Index.Early (index : Index) (hashes : Finset UInt64) : Prop where
  capacity : index.capacity.toNat = 0 ∨ index.capacity.toNat = 145 ∨ index.capacity.toNat = 363
  keys : ∀ j, (index.slotAt j).key ≠ 0 → (index.slotAt j).key ∈ hashes

theorem early_empty (hashes : Finset UInt64) : Index.empty.Early hashes :=
  ⟨.inl rfl, fun _ h => absurd rfl h⟩

/-! ## Room -/

theorem Index.Early.card_le (h : index.Early hashes) (ht : index.Tidy) :
    index.used.card ≤ hashes.card :=
  Finset.card_le_card_of_injOn (fun j => (index.slotAt j).key)
    (fun j hj => h.keys j (mem_used_iff.1 hj)) (fun _ hi _ hj heq => used_unique ht hi hj heq)

/-- The table of 363 slots does not grow yet. -/
theorem due_eq_false (hcap : index.capacity.toNat = 363) (hsize : index.size.toNat ≤ 214) :
    index.due = false := by
  have hne : index.capacity ≠ 0 := fun h0 => by
    rw [h0] at hcap
    cases hcap
  have hload : Double.ofNat index.size.toNat = index.size.toNat := by
    rw [Double.ofNat, if_pos (by omega)]
  unfold Index.due loadExceeded
  rw [hload, hcap, show Double.ofNat 363 = 363 from rfl, Bool.or_eq_false_iff]
  exact ⟨decide_eq_false hne, decide_eq_false (by omega)⟩

/-- **There is room** for one of the hashes. -/
theorem Index.Early.hasRoom (h : index.Early hashes) (ht : index.Tidy) (hcard : hashes.card ≤ 214)
    {k : UInt64} (hk : k ∈ hashes) : index.HasRoom k := by
  by_contra hno
  unfold Index.HasRoom at hno
  push Not at hno
  obtain ⟨hdue, htaken⟩ := hno
  obtain ⟨hne, hload⟩ := load_of_not_due (by simpa using hdue)
  have hpos : 0 < index.capacity.toNat := Nat.pos_of_ne_zero fun h0 =>
    hne (UInt64.toNat_inj.1 h0)
  -- the slots that every hash tries are in use, for other hashes
  have htried : ∀ j < 2 ^ 64 % index.capacity.toNat,
      (index.slotAt j).key ≠ 0 ∧ (index.slotAt j).key ≠ k := fun j hj => htaken j (by
    rw [probes_eq_linear]
    exact OpenAddressing.mem_linear_of_lt_mod k.toNat_lt index.capacity.toNat_lt.le hpos hj)
  have hused : 2 ^ 64 % index.capacity.toNat ≤ index.used.card := by
    rw [← Finset.card_range (2 ^ 64 % index.capacity.toNat)]
    exact Finset.card_le_card fun j hj => mem_used_iff.2 (htried j (Finset.mem_range.1 hj)).1
  have hothers : 2 ^ 64 % index.capacity.toNat ≤ (hashes.erase k).card := by
    rw [← Finset.card_range (2 ^ 64 % index.capacity.toNat)]
    refine Finset.card_le_card_of_injOn (fun j => (index.slotAt j).key) (fun j hj => ?_)
      (fun i hi j hj heq => ?_)
    · obtain ⟨h0, hother⟩ := htried j (Finset.mem_range.1 hj)
      exact Finset.mem_erase.2 ⟨hother, h.keys j h0⟩
    · exact used_unique ht (mem_used_iff.2 (htried i (Finset.mem_range.1 hi)).1)
        (mem_used_iff.2 (htried j (Finset.mem_range.1 hj)).1) heq
  rw [Finset.card_erase_of_mem hk] at hothers
  rw [← ht.size] at hused
  rcases h.capacity with hc | hc | hc
  · omega
  · rw [hc, show 2 ^ 64 % 145 = 111 from rfl] at hused
    omega
  · rw [hc, show 2 ^ 64 % 363 = 214 from rfl] at hothers
    omega

/-! ## The calls -/

theorem slotAt_setOff_key (index : Index) (i : ℕ) (off : UInt64) (j : ℕ) :
    ((index.setOff i off).slotAt j).key = (index.slotAt j).key := by
  by_cases hi : i < index.capacity.toNat
  · rw [Index.setOff, slotAt_setSlot hi]
    split
    · rename_i hj
      rw [hj]
    · rfl
  · have hset : (index.setOff i off).maps = index.maps :=
      List.set_eq_of_length_le (by rw [index.length_maps]; exact Nat.le_of_not_lt hi)
    rw [Index.slotAt, hset, Index.slotAt]

theorem Index.Early.setOff (h : index.Early hashes) (i : ℕ) (off : UInt64) :
    (index.setOff i off).Early hashes :=
  ⟨h.capacity, fun j => by rw [slotAt_setOff_key]; exact h.keys j⟩

section Calls

variable (hsys : sys.Documented log) {w : World σ} {s : σ} {key : List UInt8}
include hsys

theorem indexUpdate_early (h : index.Early hashes) (hwf : index.WF) (hcard : hashes.card ≤ 214)
    (hk : hashKey hash key ∈ hashes) :
    wp (indexUpdate sys hash index key) (fun r _ => r.1.Early hashes) (fun _ _ => True) s := by
  unfold indexUpdate
  split
  · exact trivial
  rw [grow_eq]
  refine wp.bind ((growIf_wp hsys index.due hwf).mono ?_ fun _ _ _ => trivial)
  rintro index₁ s₁ ⟨-, htidy, -, hholds, hgrown⟩
  have h₁ : index₁.Early hashes := by
    refine ⟨?_, fun j hj => ?_⟩
    · rcases hgrown with ⟨hdue, hcap⟩ | ⟨-, rfl⟩
      · -- the third table would not be left yet
        rcases h.capacity with hc | hc | hc
        · exact .inr (.inl (by rw [hcap, hc]))
        · exact .inr (.inr (by rw [hcap, hc]))
        · have hsize := h.card_le hwf.toTidy
          rw [← hwf.size] at hsize
          rw [due_eq_false hc (by omega)] at hdue
          cases hdue
      · exact h.capacity
    · -- a hash of the new table was one of the old
      obtain ⟨i, hi⟩ := (hholds _ _).1 ⟨j, table_of_used (mem_used_iff.2 hj)⟩
      obtain ⟨h0, hslot⟩ := key_ne_zero_of_table hi
      have hkey := h.keys i (by rwa [hslot])
      rwa [hslot] at hkey
  cases hupdate : index₁.update (hashKey hash key) with
  | none => exact trivial
  | some r =>
      obtain ⟨index₂, j⟩ := r
      have hput := update_put (hashKey_ne_zero key) hupdate
      refine ⟨by rw [hput.capacity]; exact h₁.capacity, fun i hi => ?_⟩
      by_cases hij : i = j
      · rw [hij, hput.slotAt_key]
        exact hk
      · have htable := congrFun hput.table i
        rw [table_of_used (mem_used_iff.2 hi), OpenAddressing.put, Function.update_of_ne hij]
          at htable
        obtain ⟨h0, hslot⟩ := key_ne_zero_of_table htable.symm
        have hkey := h₁.keys i (by rwa [hslot])
        rwa [hslot] at hkey

theorem appendRef_early {val : List UInt8} {ref : ℕ} (h : w.kvdb.index.Early hashes) :
    wp (appendRef sys key val ref) (fun _ w' => w'.kvdb.index.Early hashes) (fun _ _ => True) w :=
  (appendRef_wp hsys key val ref).mono (fun _ w' h' => by rw [h'.2.2.1]; exact h.setOff _ _)
    fun _ _ _ => trivial

theorem mutate_early {val : Option (List UInt8)} {valLen : Option UInt64} {mode : Mode}
    (h : w.kvdb.index.Early hashes) (hwf : w.kvdb.index.WF) (hcard : hashes.card ≤ 214)
    (hk : hashKey hash key ∈ hashes) :
    wp (mutate sys hash key val valLen mode) (fun _ w' => w'.kvdb.index.Early hashes)
      (fun _ _ => True) w := by
  unfold mutate
  refine wp.bind (wp.getState ?_)
  refine wp.bind ((onSys_wp (indexUpdate_early hsys h hwf hcard hk)).mono ?_ fun _ _ _ => trivial)
  rintro ⟨index, ref⟩ w₁ ⟨-, h₁⟩
  refine wp.bind (wp.modifyState ?_)
  refine wp.bind ((onSys_wp (wp.trivial _ _)).mono ?_ fun _ _ _ => trivial)
  rintro out w₂ ⟨h₂, -⟩
  have hindex : w₂.kvdb.index.Early hashes := by rwa [h₂]
  exact mutateFound_rule (fun _ => hindex) fun size waste _ =>
    (appendRef_early hsys (w := ⟨{ w₂.kvdb with size := size, waste := waste }, w₂.sys⟩) hindex).mono
      (fun _ _ h _ _ _ _ => h) fun _ _ _ => trivial

/-- **A call** leaves an early index early. -/
theorem Op.run_early {junk : UInt64} {recs : List Rec} (op : Op) (hinv : Inv log hash junk recs w)
    (h : w.kvdb.index.Early hashes) (hcard : hashes.card ≤ 214)
    (hk : op.record ≠ none → hashKey hash op.key ∈ hashes) :
    wp (op.run sys hash) (fun _ w' => w'.kvdb.index.Early hashes) (fun _ _ => True) w := by
  have hmutate : ∀ {key : List UInt8} {val : Option (List UInt8)} {valLen : Option UInt64}
      {mode : Mode}, hashKey hash key ∈ hashes → wp (mutate sys hash key val valLen mode)
        (fun _ w' => w'.kvdb.index.Early hashes) (fun _ _ => True) w :=
    fun hk => mutate_early hsys h hinv.shape.index hcard hk
  have hstore : ∀ {key val : List UInt8} {mode : Mode}, hashKey hash key ∈ hashes →
      wp (kvdbStore sys hash mode key val) (fun _ w' => w'.kvdb.index.Early hashes)
        (fun _ _ => True) w := by
    intro key val mode hk
    unfold kvdbStore
    split
    · exact trivial
    split
    · exact trivial
    · exact hmutate hk
  cases op with
  | insert key val => exact hstore (hk (by simp [Op.record]))
  | update key val => exact hstore (hk (by simp [Op.record]))
  | replace key val => exact hstore (hk (by simp [Op.record]))
  | remove key val valLen =>
      show wp (kvdbRemove sys hash key val valLen) _ _ w
      unfold kvdbRemove
      split
      · exact trivial
      split
      · exact trivial
      · exact hmutate (hk (by simp [Op.record]))
  | lookup key val valLen =>
      have hsize := hinv.shape.size
      exact (kvdbLookup_shows hsys (by omega)).mono (fun _ w' h' => by rwa [h'.1])
        fun _ _ _ => trivial

/-! ## Runs -/

theorem roomRun_of_early {junk : UInt64} (ops : List Op) (hcard : hashes.card ≤ 214)
    (hk : ∀ op ∈ ops, op.record ≠ none → hashKey hash op.key ∈ hashes) :
    ∀ {recs : List Rec} {w : World σ}, Inv log hash junk recs w → w.kvdb.index.Early hashes →
      RoomRun sys hash ops w := by
  induction ops with
  | nil => exact fun _ _ => trivial
  | cons op rest ih =>
      intro recs w hinv h
      obtain ⟨hop, hrest⟩ := List.forall_mem_cons.1 hk
      refine ⟨fun hwrites => h.hasRoom hinv.shape.index.toTidy hcard (hop hwrites), ?_⟩
      cases hrun : op.run sys hash w with
      | ok reply w' =>
          exact ih hrest ((op.run_wp hsys hinv).ok hrun).2.1
            ((op.run_early hsys hinv h hcard hop).ok hrun)
      | error e w' => trivial

omit hsys in
theorem kvdbOpen_index {pathname : String} {s₀ s : σ} {kvdb : Kvdb}
    (h : kvdbOpen sys pathname s₀ = .ok kvdb s) : kvdb.index = .empty := by
  refine (show wp (kvdbOpen sys pathname) (fun kvdb _ => kvdb.index = .empty) (fun _ _ => True) s₀
    from ?_).ok h
  unfold kvdbOpen
  split
  · exact trivial
  refine wp.bind ((wp.trivial _ _).mono (fun _ s₁ _ => ?_) fun _ _ _ => trivial)
  refine wp.bind ((wp.trivial _ _).mono (fun kvraw s₂ _ => ?_) fun _ _ _ => trivial)
  exact wp.bind (wp.bind ((wp.trivial _ _).mono (fun _ _ _ => rfl) fun _ _ _ => trivial))

/-- **With at most 214 hashes a store is a finite map**, up to the first external call that fails:
    as long as the keys that are written have no more different hashes, whichever hash function it
    is, no call exits, and every call answers as the map does. -/
theorem complies_of_few_hashes (pathname : String) (s₀ s : σ) (kvdb : Kvdb)
    (hopen : kvdbOpen sys pathname s₀ = .ok kvdb s) (ops : List Op)
    (hargs : ∀ op ∈ ops, op.ArgsOk) (hashes : Finset UInt64) (hcard : hashes.card ≤ 214)
    (hk : ∀ op ∈ ops, op.record ≠ none → hashKey hash op.key ∈ hashes) :
    Complies sys hash ops ⟨kvdb, s⟩ .empty := by
  obtain ⟨junk, hinv⟩ : ∃ junk, Inv log hash junk [] ⟨kvdb, s⟩ :=
    (kvdbOpen_wp hsys pathname s₀).ok hopen
  refine (complies_iff_of_inv hsys ops hinv hargs).2 (roomRun_of_early hsys ops hcard hk hinv ?_)
  rw [kvdbOpen_index hopen]
  exact early_empty hashes

end Calls

theorem complies_of_few_hashes_memory :
    Complies Memory.sys (fun _ => 1) [.insert [107] [118], .lookup [107] none none] opened .empty :=
  complies_of_few_hashes Memory.documented "log" (Memory.empty []) opened.sys opened.kvdb rfl _ (by
    intro op hop
    rcases List.mem_pair.1 hop with rfl | rfl
    · exact ⟨by decide, by decide⟩
    · exact ⟨by decide, fun cap h => by cases h⟩) {1} (by decide) (by
    intro op _ _
    exact Finset.mem_singleton.2 rfl)

/-- With 215 hashes a store can exit. -/
theorem few_hashes_sharp :
    (wrapOps.map fun op => hashKey wrapHash op.key).toFinset.card = 215 ∧
      exited (runAll Memory.sys wrapHash wrapOps opened) = true :=
  ⟨by decide +kernel, wrapOps_exited⟩

end CS238P.Store
