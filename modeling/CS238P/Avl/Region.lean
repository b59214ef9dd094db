import CS238P.Avl.Errors
import CS238P.Avl.Memory

set_option autoImplicit false

/-! # What a region holds

`Stored` ties a region to a tree: the state block is at the base, the tree is linked from its root,
and the blocks in use are the state, a node and a string for every entry of the tree, and the nodes
whose string could not be copied, each block once. An insertion keeps it, and so does whatever leaves
the blocks as they are; the queries read the tree off it. -/

namespace CS238P.Avl.Heap

open CString SortedCounts

/-- What a region is for: the state with its tree, and the number of nodes that hold nothing. -/
structure Content where
  state : State
  lost : ℕ

/-- After `avl_open` on an empty region. -/
def Content.empty : Content := ⟨State.empty, 0⟩

/-- The blocks of an entry of the tree. -/
def Slot.blocks (s : Slot) : List (Addr × ℕ) :=
  [(s.item, s.key.bytes.length + 1), (s.node, sizeofNode)]

section

variable {η : Type} (lib : ScmLib η) (blocks : η → List (Addr × ℕ))

/-- The region holds the content, its tree in `slots`; the nodes `leaked` hold nothing. -/
structure Stored (scm : Scm η) (c : Content) (slots : List Slot) (leaked : List Addr) : Prop where
  valid : Valid c.state
  base : lib.mbase scm.lib ≠ 0
  state : ∃ root, scm.states (lib.mbase scm.lib) =
      some ⟨.ofNat c.state.items, .ofNat c.state.unique, root⟩ ∧
    Linked scm root c.state.root slots
  used : (blocks scm.lib).Perm ((lib.mbase scm.lib, sizeofState) ::
    (slots.flatMap Slot.blocks ++ leaked.map (fun a => (a, sizeofNode))))
  nodup : (addrs blocks scm).Nodup
  lost : leaked.length = c.lost

end

section

variable {η : Type} {lib : ScmLib η} {blocks : η → List (Addr × ℕ)} {scm scm' : Scm η} {c : Content}
  {slots : List Slot} {leaked : List Addr}

theorem Stored.base_mem (h : Stored lib blocks scm c slots leaked) :
    lib.mbase scm.lib ∈ addrs blocks scm :=
  List.mem_map.2 ⟨_, h.used.mem_iff.2 List.mem_cons_self, rfl⟩

theorem Stored.owned (h : Stored lib blocks scm c slots leaked) : Owned blocks scm slots := by
  intro s hs
  have hmem : ∀ b ∈ Slot.blocks s, b ∈ blocks scm.lib := fun b hb =>
    h.used.mem_iff.2 (List.mem_cons_of_mem _ (List.mem_append_left _
      (List.mem_flatMap.2 ⟨s, hs, hb⟩)))
  exact ⟨List.mem_map.2 ⟨_, hmem (s.node, sizeofNode) (by simp [Slot.blocks]), rfl⟩,
    List.mem_map.2 ⟨_, hmem (s.item, s.key.bytes.length + 1) (by simp [Slot.blocks]), rfl⟩⟩

theorem nodesOf_sublist (slots : List Slot) :
    (nodesOf slots).Sublist ((slots.flatMap Slot.blocks).map Prod.fst) := by
  induction slots with
  | nil => exact List.Sublist.refl _
  | cons s rest ih =>
      simp only [nodesOf_cons, List.flatMap_cons, Slot.blocks, List.map_cons, List.cons_append,
        List.nil_append]
      exact (ih.cons_cons _).cons _

theorem Stored.nodup_nodes (h : Stored lib blocks scm c slots leaked) : (nodesOf slots).Nodup := by
  have hperm := (h.used.map Prod.fst).nodup_iff.1 h.nodup
  rw [List.map_cons, List.map_append] at hperm
  exact (List.nodup_append.1 (List.nodup_cons.1 hperm).2).1.sublist (nodesOf_sublist slots)

/-- What `avl_open` leaves in an empty region. -/
theorem stored_empty (hbase : lib.mbase scm.lib ≠ 0)
    (hblocks : blocks scm.lib = [(lib.mbase scm.lib, sizeofState)]) :
    Stored lib blocks (scm.setState (lib.mbase scm.lib) ⟨0, 0, 0⟩) Content.empty [] [] where
  valid := valid_empty
  base := hbase
  state := ⟨0, Function.update_self .., .null⟩
  used := by
    show (blocks scm.lib).Perm _
    rw [hblocks]
    exact List.Perm.refl _
  nodup := by
    show ((blocks scm.lib).map Prod.fst).Nodup
    rw [hblocks]
    exact List.nodup_singleton _
  lost := rfl

/-- A region that was kept holds what it held. -/
theorem Stored.kept (h : Stored lib blocks scm c slots leaked) (hk : Kept lib blocks scm scm') :
    Stored lib blocks scm' c slots leaked := by
  obtain ⟨root, hst, hl⟩ := h.state
  refine ⟨h.valid, hk.mbase ▸ h.base, ⟨root, ?_, ?_⟩, ?_, ?_, h.lost⟩
  · rw [hk.mbase, hk.states _ h.base_mem, hst]
  · exact hl.frame (fun a ha => hk.nodes a (h.owned.node_mem ha))
      (fun s hs => hk.strings _ (h.owned s hs).2)
  · rw [hk.used, hk.mbase]
    exact h.used
  · rw [addrs, hk.used]
    exact h.nodup

/-! ## One insertion -/

/-- Whether the insertion takes a block for a node and then cannot copy the string. -/
def lost (alloc : Alloc) (st : State) (item : Item) : ℕ :=
  if Avl.avlExists st item = 0 ∧ alloc.malloc = true ∧ alloc.strdup = false then 1 else 0

/-- The blocks of an insertion are accounted for. -/
theorem Updates.account {avl : Addr} {item : Item} {slots' : List Slot}
    (hlib : lib.Documented blocks)
    (hU : Updates lib blocks avl item.toCString slots slots' scm scm')
    (h : Stored lib blocks scm c slots leaked) :
    ∃ leaked' : List Addr, (blocks scm'.lib).Perm ((lib.mbase scm.lib, sizeofState) ::
        (slots'.flatMap Slot.blocks ++ leaked'.map (fun a => (a, sizeofNode)))) ∧
      (addrs blocks scm').Nodup ∧ slots.Sublist slots' ∧ slots'.length ≤ slots.length + 1 ∧
      leaked'.length =
        leaked.length + lost (outcome lib item.toCString scm.lib) c.state item := by
  obtain ⟨new, hblocks, hg⟩ := hU.grown
  obtain ⟨root, _, hl⟩ := h.state
  have hexists := h.valid.mem_iff_exists item
  rw [← hl.keys] at hexists
  have haddrs : addrs blocks scm' = new.map Prod.fst ++ addrs blocks scm := by
    rw [addrs, hblocks, List.map_append]
    rfl
  have hperm := h.used
  rw [hblocks, haddrs]
  cases hg with
  | kept hkept =>
      refine ⟨leaked, hperm, h.nodup, List.Sublist.refl _, by omega, ?_⟩
      rw [lost, if_neg (fun hlost => hkept.elim (fun hm => hexists.1 hm hlost.1)
        (fun hm => by simp [hm] at hlost))]
      rfl
  | leaked hnew hnode hitem =>
      have hzero : Avl.avlExists c.state item = 0 := not_not.1 (fun hne => hnew (hexists.2 hne))
      refine ⟨(answer lib item.toCString scm.lib).node :: leaked, ?_,
        List.nodup_cons.2 ⟨fresh_node hlib hnode, h.nodup⟩, List.Sublist.refl _, by omega,
        by simp [lost, hzero, hnode, hitem]⟩
      refine (hperm.cons _).trans (List.perm_iff_count.2 (fun a => ?_))
      simp only [List.map_cons, List.count_cons, List.count_append]
      omega
  | @made ls rs hnew hok =>
      have hand : (outcome lib item.toCString scm.lib).strdup = true :=
        outcome_strdup.2 (outcome_ok.1 hok).2
      refine ⟨leaked, ?_, List.nodup_cons.2 ⟨fresh_item hlib hok, List.nodup_cons.2
          ⟨fresh_node hlib (outcome_malloc.2 (outcome_ok.1 hok).1), h.nodup⟩⟩,
        (List.Sublist.refl _).append (List.sublist_cons_self ..), by simp; omega,
        by simp [lost, hand]⟩
      refine ((hperm.cons _).cons _).trans (List.perm_iff_count.2 (fun a => ?_))
      simp only [List.flatMap_append, List.flatMap_cons, Slot.blocks, List.count_cons,
        List.count_append, List.count_nil]
      omega

/-- From one region to another nothing moves, and the tree grows by `n` entries at most. -/
structure Extends (lib : ScmLib η) (scm scm' : Scm η) (slots slots' : List Slot) (n : ℕ) :
    Prop where
  mbase : lib.mbase scm'.lib = lib.mbase scm.lib
  sublist : slots.Sublist slots'
  length : slots'.length ≤ slots.length + n

theorem Extends.refl (lib : ScmLib η) (scm : Scm η) (slots : List Slot) (n : ℕ) :
    Extends lib scm scm slots slots n :=
  ⟨rfl, List.Sublist.refl _, Nat.le_add_right ..⟩

theorem Extends.trans {scm₁ scm₂ : Scm η} {slots₁ slots₂ : List Slot} {n m : ℕ}
    (h : Extends lib scm scm₁ slots slots₁ n) (h' : Extends lib scm₁ scm₂ slots₁ slots₂ m) :
    Extends lib scm scm₂ slots slots₂ (n + m) :=
  ⟨h'.mbase.trans h.mbase, h.sublist.trans h'.sublist, by
    have hlen := h.length
    have hlen' := h'.length
    omega⟩

/-- **One `avl_insert`** in memory returns what the one on the tree returns, and the region holds the
    tree it leaves. Every node stays where it was. -/
theorem avlInsert_stored {fuel : ℕ} (hlib : lib.Documented blocks) (item : Item)
    (h : Stored lib blocks scm c slots leaked) (hfuel : slots.length < fuel) :
    ∃ ret scm' st' slots' leaked',
      avlInsert lib fuel (lib.mbase scm.lib) item scm = some (ret, scm') ∧
      Avl.avlInsert (outcome lib item.toCString scm.lib) c.state item = some (ret, st') ∧
      Stored lib blocks scm'
        ⟨st', c.lost + lost (outcome lib item.toCString scm.lib) c.state item⟩ slots' leaked' ∧
      Extends lib scm scm' slots slots' 1 := by
  obtain ⟨root, hst, hl⟩ := h.state
  obtain ⟨t', st₁, hup, hUp⟩ := update_spec (outcome lib item.toCString scm.lib) item.toCString
    c.state.root c.state h.valid.ordered h.valid.balanced
  obtain ⟨ret, st', hins, hI⟩ :=
    avlInsert_spec (outcome lib item.toCString scm.lib) item c.state h.valid
  obtain ⟨p', scm₁, slots', hrun, hl', hU, hst₁⟩ :=
    update_linked hlib hl h.nodup_nodes h.owned h.valid.ordered hfuel hst hup
  obtain ⟨leaked', hperm, hnd, hsub, hlen, hlost⟩ := hU.account hlib h
  have hvalid := hI.valid h.valid
  rw [← hU.mbase] at hperm hst₁
  rw [h.lost] at hlost
  by_cases hp' : p' = 0
  · -- NULL: nothing was counted, and the tree was empty
    have hnull : t' = .null := hl'.eq_zero_iff.1 hp'
    have hnc : ¬ Counted (outcome lib item.toCString scm.lib) item.toCString c.state.root :=
      fun hc => hUp.ne_null (Or.inl hc) hnull
    obtain ⟨heq, hst'⟩ := hUp.unchanged hnc
    have hroot : root = 0 := hl.eq_zero_iff.2 (heq.symm.trans hnull)
    rw [hst'] at hst₁ hup
    rw [Avl.avlInsert, hup, hnull] at hins
    obtain ⟨rfl, rfl⟩ := Prod.mk.inj (Option.some.inj hins)
    refine ⟨-1, scm₁, c.state, slots', leaked', ?_, ?_, ⟨hvalid, hU.mbase ▸ h.base, ⟨root, hst₁, ?_⟩,
      hperm, hnd, hlost⟩, hU.mbase, hsub, hlen⟩
    · simp only [avlInsert, hst, hrun, Option.bind_eq_bind, Option.bind_some, if_pos hp']
    · rw [Avl.avlInsert, hup, hnull]
      rfl
    · rw [← heq, hroot, ← hp']
      exact hl'
  · have hne : t' ≠ .null := fun h => hp' (hl'.eq_zero_iff.2 h)
    have hret : Avl.avlInsert (outcome lib item.toCString scm.lib) c.state item =
        some (0, { st₁ with root := t' }) := by
      rw [Avl.avlInsert, hup]
      cases t' with
      | null => exact absurd rfl hne
      | node d c key l r => rfl
    obtain ⟨rfl, rfl⟩ := Prod.mk.inj (Option.some.inj (hins.symm.trans hret))
    refine ⟨0, scm₁.setState (lib.mbase scm₁.lib) ⟨.ofNat st₁.items, .ofNat st₁.unique, p'⟩,
      { st₁ with root := t' }, slots', leaked', ?_, hret, ⟨hvalid, hU.mbase ▸ h.base,
        ⟨p', Function.update_self .., hl'.setState _⟩, hperm, hnd, hlost⟩, hU.mbase, hsub, hlen⟩
    simp only [avlInsert, hst, hrun, Option.bind_eq_bind, Option.bind_some, if_neg hp']
    rw [← hU.mbase, Scm.modifyState_eq hst₁, Option.bind_some]

/-! ## Reading -/

theorem search_linked {p : Addr} {t : Node} {fuel : ℕ} (item : CString) (h : Linked scm p t slots)
    (hfuel : slots.length < fuel) :
    search scm item fuel p = some (.ofNat (Avl.search item t)) := by
  obtain ⟨fuel, rfl⟩ : ∃ n, fuel = n + 1 := ⟨fuel - 1, by omega⟩
  induction h generalizing fuel with
  | null => simp [search, Avl.search]
  | node hp hn hq _ _ ihl ihr =>
      simp only [List.length_append, List.length_cons] at hfuel
      obtain ⟨fuel, rfl⟩ : ∃ n, fuel = n + 1 := ⟨fuel - 1, by omega⟩
      rw [search, if_neg hp, Avl.search]
      simp only [hn, hq, Option.bind_eq_bind, Option.bind_some]
      split_ifs
      · rfl
      · exact ihl fuel (by omega)
      · exact ihr fuel (by omega)

theorem traverse_linked {τ : Type} {p : Addr} {t : Node} {fuel : ℕ}
    (fnc : τ → CString → UInt64 → τ) (arg : τ) (h : Linked scm p t slots)
    (hfuel : slots.length < fuel) :
    traverse scm fnc fuel p arg =
      some (Avl.traverse (fun arg key n => fnc arg key (.ofNat n)) t arg) := by
  obtain ⟨fuel, rfl⟩ : ∃ n, fuel = n + 1 := ⟨fuel - 1, by omega⟩
  induction h generalizing fuel arg with
  | null => simp [traverse, Avl.traverse]
  | node hp hn hq _ _ ihl ihr =>
      simp only [List.length_append, List.length_cons] at hfuel
      obtain ⟨fuel, rfl⟩ : ∃ n, fuel = n + 1 := ⟨fuel - 1, by omega⟩
      rw [traverse, if_neg hp, Avl.traverse]
      simp only [hn, hq, Option.bind_eq_bind, Option.bind_some, ihl _ fuel (by omega),
        ihr _ fuel (by omega)]

end

section

variable {η : Type} {lib : ScmLib η} {blocks : η → List (Addr × ℕ)} {scm : Scm η} {c : Content}
  {slots : List Slot} {leaked : List Addr} {fuel : ℕ}

theorem Stored.exists_eq (h : Stored lib blocks scm c slots leaked) (item : Item)
    (hfuel : slots.length < fuel) :
    avlExists fuel scm (lib.mbase scm.lib) item = some (.ofNat (Avl.avlExists c.state item)) := by
  obtain ⟨root, hst, hl⟩ := h.state
  simp only [avlExists, hst, Option.bind_eq_bind, Option.bind_some]
  exact search_linked _ hl hfuel

theorem Stored.traverse_eq {τ : Type} (h : Stored lib blocks scm c slots leaked)
    (fnc : τ → CString → UInt64 → τ) (arg : τ) (hfuel : slots.length < fuel) :
    avlTraverse fuel scm (lib.mbase scm.lib) fnc arg =
      some (Avl.avlTraverse c.state (fun arg key n => fnc arg key (.ofNat n)) arg) := by
  obtain ⟨root, hst, hl⟩ := h.state
  simp only [avlTraverse, hst, Option.bind_eq_bind, Option.bind_some]
  exact traverse_linked fnc arg hl hfuel

theorem Stored.items_eq (h : Stored lib blocks scm c slots leaked) :
    avlItems scm (lib.mbase scm.lib) = some (.ofNat (Avl.avlItems c.state)) := by
  obtain ⟨root, hst, _⟩ := h.state
  rw [avlItems, hst]
  rfl

theorem Stored.unique_eq (h : Stored lib blocks scm c slots leaked) :
    avlUnique scm (lib.mbase scm.lib) = some (.ofNat (Avl.avlUnique c.state)) := by
  obtain ⟨root, hst, _⟩ := h.state
  rw [avlUnique, hst]
  rfl

theorem Linked.at_slot {p : Addr} {t : Node} (h : Linked scm p t slots) {s : Slot}
    (hs : s ∈ slots) :
    (∃ n, scm.nodes s.node = some n ∧ n.item = s.item) ∧ scm.strings s.item = some s.key := by
  induction h with
  | null => simp at hs
  | node _ hn hq _ _ ihl ihr =>
      rcases List.mem_append.1 hs with hs | hs
      · exact ihl hs
      · rcases List.mem_cons.1 hs with rfl | hs
        · exact ⟨⟨_, hn, rfl⟩, hq⟩
        · exact ihr hs

end

end CS238P.Avl.Heap
