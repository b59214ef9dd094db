import CS238P.Avl.Multiset

set_option autoImplicit false

/-! # What `avl_insert` reports

`update` signals a failed allocation by returning NULL, but its caller one level up stores that NULL
in the link it came from (where NULL was already) and returns its own node. So the failure reaches
`avl_insert` only from an empty tree: in every other tree the item is lost and 0 is returned. -/

namespace CS238P.Avl

open CString SortedCounts

/-- One insertion reports its outcome: 0 exactly when the item was counted, -1 exactly when nothing
    changed. -/
def Reports (alloc : Alloc) (st : State) (item : Item) : Prop :=
  ∃ ret st', avlInsert alloc st item = some (ret, st') ∧
    (ret = 0 ↔ avlExists st' item = avlExists st item + 1 ∧ avlItems st' = avlItems st + 1) ∧
    (ret = -1 ↔ st'.root = st.root ∧ avlItems st' = avlItems st ∧ avlUnique st' = avlUnique st)

theorem Valid.mem_iff_exists {st : State} (h : Valid st) (item : Item) :
    item.toCString ∈ (entries st.root).map Prod.fst ↔ avlExists st item ≠ 0 := by
  have hsorted := (ordered_iff_sorted st.root).1 h.ordered
  rw [avlExists, search_eq_count _ _ h.ordered]
  constructor
  · intro hmem
    obtain ⟨⟨key, n⟩, ha, hkey⟩ := List.mem_map.1 hmem
    have hcount := (mem_iff_count _ hsorted h.counts key n).1 ha
    rw [← hkey, hcount.1]
    exact Nat.one_le_iff_ne_zero.1 hcount.2
  · intro hne
    by_contra hmem
    exact hne (count_eq_zero_of_not_mem _ _ hmem)

/-- **When the outcome is reported.** The item is stored already, or a node for it can be made, or
    the tree is empty. In every other case the item is lost and 0 is returned. -/
theorem avlInsert_reports_iff (alloc : Alloc) (st : State) (item : Item) (h : Reachable st) :
    Reports alloc st item ↔ avlExists st item ≠ 0 ∨ alloc.ok = true ∨ st.root = .null := by
  have hv := h.valid
  obtain ⟨ret, st', hins, hI⟩ := avlInsert_spec alloc item st hv
  have hmem := hv.mem_iff_exists item
  have hex : ∀ s : State, Valid s → avlExists s item = count item.toCString (entries s.root) :=
    fun s hs => search_eq_count _ _ hs.ordered
  by_cases hc : Counted alloc item.toCString st.root
  · -- counted: both counters move and 0 is returned
    have hret : ret = 0 := hI.ret_cases.resolve_right (fun hr => (hI.ret_null.1 hr).1 hc)
    have hgrow : avlExists st' item = avlExists st item + 1 := by
      rw [hex st' (hI.valid hv), hI.entries_eq hc,
        count_bump _ _ _ ((ordered_iff_sorted _).1 hv.ordered), if_pos rfl, hex st hv]
    have hitems : avlItems st' = avlItems st + 1 := hI.items hc
    refine iff_of_true ⟨ret, st', hins, by simp [hret, hgrow, hitems], ?_⟩ ?_
    · rw [hret, hitems]
      exact ⟨fun h0 => absurd h0 (by decide), fun h0 => by omega⟩
    · exact hc.elim (fun hm => Or.inl (hmem.1 hm)) (fun hok => Or.inr (Or.inl hok))
  · -- not counted: the state stays, and the return value depends on the root alone
    obtain rfl := hI.unchanged hc
    have habsent : avlExists st' item = 0 := by
      by_contra hne
      exact hc (Or.inl (hmem.2 hne))
    have hfail : ¬ alloc.ok = true := fun hok => hc (Or.inr hok)
    rw [or_iff_right (not_not.2 habsent), or_iff_right hfail]
    constructor
    · rintro ⟨ret', st₁, hins', hzero, _⟩
      rw [hins] at hins'
      obtain ⟨rfl, rfl⟩ := Prod.mk.inj (Option.some.inj hins')
      have hnz : ret ≠ 0 := fun h0 => by have := (hzero.1 h0).1; omega
      exact (hI.ret_null.1 (hI.ret_cases.resolve_left hnz)).2
    · intro hnull
      have hret : ret = -1 := hI.ret_null.2 ⟨hc, hnull⟩
      refine ⟨ret, st', hins, ?_, by simp [hret]⟩
      rw [hret]
      exact ⟨fun h0 => absurd h0 (by decide), fun h0 => by omega⟩

/-- A tree of `"a"`, `"b"` and `"c"`. -/
def stateABC : State :=
  ⟨3, 3, .node 1 1 (letter 1).toCString (.node 0 1 (letter 0).toCString .null .null)
    (.node 0 1 (letter 2).toCString .null .null)⟩

/-- No allocation succeeds, but `"c"` is stored. -/
theorem avlInsert_reports_stored :
    Reports ⟨false, false⟩ stateABC (letter 2) ↔
      avlExists stateABC (letter 2) ≠ 0 ∨ Alloc.ok ⟨false, false⟩ = true ∨ stateABC.root = .null :=
  avlInsert_reports_iff _ _ _ ⟨inserts [letter 0, letter 1, letter 2], by decide⟩

/-- `"b"` is stored, and the allocation for `"a"` fails: `avl_insert` returns 0 all the same. -/
theorem avlInsert_silent_failure :
    ¬ ∀ (alloc : Alloc) (st : State) (item : Item), Reachable st → Reports alloc st item := by
  intro hall
  have hrun : run State.empty [(letter 1, ⟨true, true⟩)] =
      some ⟨1, 1, .node 0 1 (letter 1).toCString .null .null⟩ := by decide
  obtain ⟨ret, st', hins, hzero, _⟩ := hall ⟨false, false⟩ _ (letter 0) ⟨_, hrun⟩
  have hcall : avlInsert ⟨false, false⟩
      ⟨1, 1, .node 0 1 (letter 1).toCString .null .null⟩ (letter 0) =
      some (0, ⟨1, 1, .node 0 1 (letter 1).toCString .null .null⟩) := by decide
  rw [hcall] at hins
  obtain ⟨rfl, rfl⟩ := Prod.mk.inj (Option.some.inj hins)
  exact absurd (hzero.1 rfl).2 (by decide)

end CS238P.Avl
