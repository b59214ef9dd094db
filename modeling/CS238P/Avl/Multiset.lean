import CS238P.Avl.Balance

set_option autoImplicit false

/-! # The tree is a multiset of strings

With every allocation succeeding, the in-order list of the tree is `SortedCounts.ofList` of the
inserted strings. `avl_exists` and `avl_traverse` are read off that list, and since the list does
not depend on the order of the insertions (`SortedCounts.ofList_perm`), neither do they. -/

namespace CS238P.Avl

open CString SortedCounts

/-! ## Reading through the in-order list -/

theorem search_eq_count (item : CString) (t : Node) (h : Ordered t) :
    search item t = count item (entries t) := by
  induction t with
  | null => rfl
  | node d c key l r ihl ihr =>
      obtain ⟨hl, hr, hol, hor⟩ := h
      have hr' : ∀ a ∈ entries r, key < a.1 := fun a ha => (strcmp_neg_iff _ _).1 (hr a ha)
      have hl' : ∀ a ∈ entries l, a.1 < key := fun a ha => (strcmp_neg_iff _ _).1 (hl a ha)
      rw [search, entries]
      -- the half of the list that the search skips does not have the item
      rcases lt_trichotomy item key with hlt | rfl | hgt
      · have hcmp : strcmp item key < 0 := (strcmp_neg_iff _ _).2 hlt
        rw [if_neg (ne_of_lt hcmp), if_pos hcmp, ihl hol,
          count_append_cons_of_lt item key c _ _ hlt (fun a ha => hlt.trans (hr' a ha))]
      · rw [if_pos ((strcmp_eq_zero_iff _ _).2 rfl), count_append_of_lt _ _ _ hl', count,
          if_pos rfl]
      · have hcmp : 0 < strcmp item key := (strcmp_pos_iff _ _).2 hgt
        rw [if_neg (ne_of_gt hcmp), if_neg (not_lt_of_gt hcmp), ihr hor,
          count_append_of_lt _ _ _ (fun a ha => (hl' a ha).trans hgt), count, if_neg (ne_of_gt hgt)]

theorem traverse_eq_foldl {τ : Type} (fnc : τ → CString → ℕ → τ) (t : Node) (arg : τ) :
    traverse fnc t arg = (entries t).foldl (fun arg e => fnc arg e.1 e.2) arg := by
  induction t generalizing arg with
  | null => rfl
  | node d c key l r ihl ihr =>
      simp only [traverse, entries, List.foldl_append, List.foldl_cons, ihl, ihr]

/-! ## Runs without a failing allocation -/

/-- The calls `avl_insert(x)` for the items of `xs`, all allocations succeeding. -/
def inserts (xs : List Item) : List (Item × Alloc) := xs.map (fun x => (x, ⟨true, true⟩))

theorem run_inserts (xs : List Item) (st st' : State) (h : Valid st)
    (hrun : run st (inserts xs) = some st') :
    entries st'.root = (xs.map Item.toCString).foldl (fun l x => bump x l) (entries st.root) := by
  induction xs generalizing st with
  | nil =>
      simp only [inserts, List.map_nil, run, Option.some.injEq] at hrun
      rw [hrun]; rfl
  | cons x rest ih =>
      obtain ⟨ret, st₁, hins, hI⟩ := avlInsert_spec ⟨true, true⟩ x st h
      have hrun' : run st₁ (inserts rest) = some st' := by
        simpa [inserts, run, hins] using hrun
      rw [ih st₁ (hI.valid h) hrun', hI.entries_eq (Or.inr rfl)]
      rfl

/-- What insertions add to the answers. -/
theorem run_inserts_answers (xs : List Item) (st st' : State) (h : Valid st)
    (hrun : run st (inserts xs) = some st') :
    avlItems st' = avlItems st + xs.length ∧
      ∀ item, avlExists st' item =
        avlExists st item + (xs.map Item.toCString).count item.toCString := by
  induction xs generalizing st with
  | nil =>
      obtain rfl : st = st' := by simpa [inserts, run] using hrun
      simp
  | cons x rest ih =>
      obtain ⟨ret, st₁, hins, hI⟩ := avlInsert_spec ⟨true, true⟩ x st h
      have hrun' : run st₁ (inserts rest) = some st' := by
        simpa [inserts, run, hins] using hrun
      have hcounted : Counted ⟨true, true⟩ x.toCString st.root := Or.inr rfl
      obtain ⟨hitems, hexists⟩ := ih st₁ (hI.valid h) hrun'
      refine ⟨?_, fun item => ?_⟩
      · rw [hitems, avlItems, hI.items hcounted, avlItems, List.length_cons]
        omega
      · have hsorted := (ordered_iff_sorted st.root).1 h.ordered
        rw [hexists, avlExists, avlExists, search_eq_count _ _ (hI.valid h).ordered,
          search_eq_count _ _ h.ordered, hI.entries_eq hcounted, count_bump _ _ _ hsorted,
          List.map_cons, List.count_cons]
        by_cases heq : item.toCString = x.toCString
        · simp [heq]
          omega
        · simp [heq, Ne.symm heq]

theorem entries_of_inserts (xs : List Item) (st : State)
    (hrun : run State.empty (inserts xs) = some st) :
    entries st.root = ofList (xs.map Item.toCString) :=
  run_inserts xs State.empty st valid_empty hrun

/-- What the queries of `avl.h` answer about a multiset of strings. -/
structure Answers (st : State) (xs : List CString) : Prop where
  exists_eq : ∀ item : Item, avlExists st item = xs.count item.toCString
  items : avlItems st = xs.length
  unique : avlUnique st = xs.dedup.length
  /-- `avl_traverse` makes these callbacks, in this order. -/
  traverse : ∃ calls : List (CString × ℕ),
    (∀ (τ : Type) (fnc : τ → CString → ℕ → τ) (arg : τ),
      avlTraverse st fnc arg = calls.foldl (fun arg e => fnc arg e.1 e.2) arg) ∧
    calls.Pairwise (fun a b => strcmp a.1 b.1 < 0) ∧
    ∀ s n, (s, n) ∈ calls ↔ xs.count s = n ∧ 1 ≤ n

theorem Valid.answers {st : State} (h : Valid st) (xs : List CString)
    (hent : entries st.root = ofList xs) : Answers st xs := by
  refine ⟨fun item => ?_, ?_, ?_, ofList xs, fun τ fnc arg => ?_, ?_, fun s n => ?_⟩
  · rw [avlExists, search_eq_count _ _ h.ordered, hent, count_ofList]
  · rw [avlItems, h.items, hent, sum_ofList]
  · rw [avlUnique, h.unique, hent, length_ofList]
  · rw [avlTraverse, traverse_eq_foldl, hent]
  · exact List.Pairwise.imp (fun {a b} hab => (strcmp_neg_iff a.1 b.1).2 hab) (sorted_ofList xs)
  · rw [mem_iff_count _ (sorted_ofList xs) (pos_ofList xs), count_ofList]

/-- **The tree implements a multiset of strings**, and what it answers does not depend on the order
    of the insertions. -/
theorem avl_multiset (xs : List Item) :
    ∃ st, run State.empty (inserts xs) = some st ∧ Answers st (xs.map Item.toCString) ∧
      ∀ ys : List Item, xs.Perm ys → ∃ st', run State.empty (inserts ys) = some st' ∧
        (∀ item, avlExists st' item = avlExists st item) ∧ avlItems st' = avlItems st ∧
        avlUnique st' = avlUnique st ∧
        ∀ (τ : Type) (fnc : τ → CString → ℕ → τ) (arg : τ),
          avlTraverse st' fnc arg = avlTraverse st fnc arg := by
  obtain ⟨st, hrun, hvalid⟩ := run_valid (inserts xs) State.empty valid_empty
  have hent := entries_of_inserts xs st hrun
  have hA := hvalid.answers _ hent
  refine ⟨st, hrun, hA, fun ys hperm => ?_⟩
  -- both trees have the same in-order list, though not the same shape
  obtain ⟨st', hrun', hvalid'⟩ := run_valid (inserts ys) State.empty valid_empty
  have hent' : entries st'.root = ofList (xs.map Item.toCString) := by
    rw [entries_of_inserts ys st' hrun', ofList_perm (hperm.map Item.toCString)]
  have hA' := hvalid'.answers _ hent'
  refine ⟨st', hrun', fun item => ?_, ?_, ?_, fun τ fnc arg => ?_⟩
  · rw [hA'.exists_eq, hA.exists_eq]
  · rw [hA'.items, hA.items]
  · rw [hA'.unique, hA.unique]
  · rw [avlTraverse, avlTraverse, traverse_eq_foldl, traverse_eq_foldl, hent, hent']

end CS238P.Avl
