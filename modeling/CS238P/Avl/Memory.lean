import CS238P.Avl.Linked

set_option autoImplicit false

/-! # What an insertion does to memory

`update` on the region follows `update` on the tree: the same comparisons, the same rotations, the
same answer. Beyond that it takes blocks from the region (`Grown`), writes the nodes it passes and
leaves every other block as it was (`Updates`). -/

namespace CS238P.Avl.Heap

open CString

variable {η : Type}

/-- The addresses that `scm_malloc` and `scm_strdup` answer in one insertion. -/
structure Answer where
  node : Addr
  item : Addr

section

variable (lib : ScmLib η) (item : CString) (h : η)

/-- What the library answers if an insertion asks it for a node and then for a string. -/
def answer : Answer where
  node := (lib.malloc sizeofNode h).1
  item := (lib.strdup item (lib.malloc sizeofNode h).2).1

/-- Which of the two succeed. -/
def outcome : Alloc where
  malloc := (answer lib item h).node ≠ 0
  strdup := (answer lib item h).item ≠ 0

end

/-- The blocks an insertion takes, the last one first, and the slots of the tree before and after:
    none, the node alone when its string cannot be copied, or the node and its string. -/
inductive Grown (answer : Answer) (alloc : Alloc) (item : CString) :
    List Slot → List Slot → List (Addr × ℕ) → Prop
  | kept {slots : List Slot} (h : item ∈ slots.map Slot.key ∨ alloc.malloc = false) :
      Grown answer alloc item slots slots []
  | leaked {slots : List Slot} (hnew : item ∉ slots.map Slot.key) (hnode : alloc.malloc = true)
      (hitem : alloc.strdup = false) :
      Grown answer alloc item slots slots [(answer.node, sizeofNode)]
  | made {ls rs : List Slot} (hnew : item ∉ (ls ++ rs).map Slot.key) (hok : alloc.ok = true) :
      Grown answer alloc item (ls ++ rs) (ls ++ ⟨answer.node, answer.item, item⟩ :: rs)
        [(answer.item, item.bytes.length + 1), (answer.node, sizeofNode)]

section

variable (lib : ScmLib η) (blocks : η → List (Addr × ℕ))

/-- The addresses of the blocks in use. -/
def addrs (scm : Scm η) : List Addr := (blocks scm.lib).map Prod.fst

/-- The change an insertion makes to the region, the tree lying in `slots` before and in `slots'`
    after it. -/
structure Updates (avl : Addr) (item : CString) (slots slots' : List Slot) (scm scm' : Scm η) :
    Prop where
  mbase : lib.mbase scm'.lib = lib.mbase scm.lib
  nodes : ∀ a ∈ addrs blocks scm, a ∉ nodesOf slots → scm'.nodes a = scm.nodes a
  strings : ∀ a ∈ addrs blocks scm, scm'.strings a = scm.strings a
  states : ∀ a ≠ avl, scm'.states a = scm.states a
  grown : ∃ new, blocks scm'.lib = new ++ blocks scm.lib ∧
    Grown (answer lib item scm.lib) (outcome lib item scm.lib) item slots slots' new

/-- The blocks of the tree have been handed out. -/
def Owned (scm : Scm η) (slots : List Slot) : Prop :=
  ∀ s ∈ slots, s.node ∈ addrs blocks scm ∧ s.item ∈ addrs blocks scm

end

section

variable {lib : ScmLib η} {blocks : η → List (Addr × ℕ)} {avl p : Addr} {item : CString}
  {scm scm' : Scm η} {slots slots' ls rs : List Slot} {new : List (Addr × ℕ)} {t : Node}

theorem Owned.node_mem (h : Owned blocks scm slots) {a : Addr} (ha : a ∈ nodesOf slots) :
    a ∈ addrs blocks scm := by
  obtain ⟨s, hs, rfl⟩ := List.mem_map.1 ha
  exact (h s hs).1

theorem ofNat_succ (n : ℕ) : UInt64.ofNat n + 1 = .ofNat (n + 1) := (UInt64.ofNat_add n 1).symm

theorem outcome_malloc {h : η} :
    (outcome lib item h).malloc = true ↔ (answer lib item h).node ≠ 0 := by
  simp [outcome]

theorem outcome_strdup {h : η} :
    (outcome lib item h).strdup = true ↔ (answer lib item h).item ≠ 0 := by
  simp [outcome]

theorem outcome_ok {h : η} : (outcome lib item h).ok = true ↔
    (answer lib item h).node ≠ 0 ∧ (answer lib item h).item ≠ 0 := by
  rw [Alloc.ok, Bool.and_eq_true, outcome_malloc, outcome_strdup]

/-- The block of a new node was not in use. -/
theorem fresh_node (hlib : lib.Documented blocks) (h : (outcome lib item scm.lib).malloc = true) :
    (answer lib item scm.lib).node ∉ addrs blocks scm :=
  ((hlib.malloc sizeofNode scm.lib).block (outcome_malloc.1 h)).1

/-- Nor was that of its string. -/
theorem fresh_item (hlib : lib.Documented blocks) (h : (outcome lib item scm.lib).ok = true) :
    (answer lib item scm.lib).item ∉ (answer lib item scm.lib).node :: addrs blocks scm := by
  obtain ⟨hnode, hitem⟩ := outcome_ok.1 h
  have hfresh := ((hlib.strdup item _).block hitem).1
  rwa [((hlib.malloc sizeofNode scm.lib).block hnode).2] at hfresh

theorem Linked.keys (h : Linked scm p t slots) :
    slots.map Slot.key = (entries t).map Prod.fst := by
  induction h with
  | null => rfl
  | node _ _ _ _ _ ihl ihr => simp [entries, ihl, ihr]

theorem Linked.setState (h : Linked scm p t slots) (st : StateBlock) :
    Linked (scm.setState avl st) p t slots :=
  h.frame (fun _ _ => rfl) (fun _ _ => rfl)

/-! ## Slots -/

/-- The new node is the whole tree. -/
theorem Grown.first {answer : Answer} {alloc : Alloc} (hok : alloc.ok = true) :
    Grown answer alloc item [] [⟨answer.node, answer.item, item⟩]
      [(answer.item, item.bytes.length + 1), (answer.node, sizeofNode)] := by
  have hnew : item ∉ ([] ++ [] : List Slot).map Slot.key := by simp
  exact .made hnew hok

/-- The new node goes to the left of this one. -/
theorem Grown.left {answer : Answer} {alloc : Alloc} {s : Slot}
    (h : Grown answer alloc item ls slots' new)
    (hmem : item ∈ (ls ++ s :: rs).map Slot.key ↔ item ∈ ls.map Slot.key) :
    Grown answer alloc item (ls ++ s :: rs) (slots' ++ s :: rs) new := by
  cases h with
  | kept h => exact .kept (h.imp_left hmem.2)
  | leaked hnew hnode hitem => exact .leaked (fun hm => hnew (hmem.1 hm)) hnode hitem
  | @made as bs hnew hok =>
      rw [List.append_assoc] at hmem ⊢
      rw [List.append_assoc, List.cons_append]
      exact .made (fun hm => hnew (hmem.1 hm)) hok

/-- The new node goes to the right of this one. -/
theorem Grown.right {answer : Answer} {alloc : Alloc} {s : Slot}
    (h : Grown answer alloc item rs slots' new)
    (hmem : item ∈ (ls ++ s :: rs).map Slot.key ↔ item ∈ rs.map Slot.key) :
    Grown answer alloc item (ls ++ s :: rs) (ls ++ s :: slots') new := by
  cases h with
  | kept h => exact .kept (h.imp_left hmem.2)
  | leaked hnew hnode hitem => exact .leaked (fun hm => hnew (hmem.1 hm)) hnode hitem
  | @made as bs hnew hok =>
      rw [← List.cons_append, ← List.append_assoc] at hmem ⊢
      rw [← List.cons_append, ← List.append_assoc]
      exact .made (fun hm => hnew (hmem.1 hm)) hok

/-- The tree's nodes afterwards are the ones before, and one fresh block perhaps. -/
theorem Updates.mem_or_fresh (hlib : lib.Documented blocks)
    (h : Updates lib blocks avl item slots slots' scm scm') {a : Addr} (ha : a ∈ nodesOf slots') :
    a ∈ nodesOf slots ∨ a ∉ addrs blocks scm := by
  obtain ⟨new, _, hg⟩ := h.grown
  cases hg with
  | kept _ => exact Or.inl ha
  | leaked _ _ _ => exact Or.inl ha
  | made _ hok =>
      have hfresh := fresh_node hlib (outcome_malloc.2 (outcome_ok.1 hok).1)
      simp only [nodesOf_append, nodesOf_cons, List.mem_append, List.mem_cons] at ha ⊢
      rcases ha with h | rfl | h
      · exact Or.inl (Or.inl h)
      · exact Or.inr hfresh
      · exact Or.inl (Or.inr h)

theorem Updates.nodup (hlib : lib.Documented blocks)
    (h : Updates lib blocks avl item slots slots' scm scm') (hown : Owned blocks scm slots)
    (hnd : (nodesOf slots).Nodup) : (nodesOf slots').Nodup := by
  obtain ⟨new, _, hg⟩ := h.grown
  cases hg with
  | kept _ => exact hnd
  | leaked _ _ _ => exact hnd
  | @made as bs _ hok =>
      have hfresh : (answer lib item scm.lib).node ∉ nodesOf (as ++ bs) := fun hm =>
        fresh_node hlib (outcome_malloc.2 (outcome_ok.1 hok).1) (hown.node_mem hm)
      simp only [nodesOf_append, List.mem_append, not_or] at hfresh hnd
      rw [List.nodup_append] at hnd
      exact nodup_nodesOf_iff.2 ⟨hnd.1, hnd.2.1, hfresh.1, hfresh.2,
        fun a ha ha' => hnd.2.2 a ha a ha' rfl⟩

/-! ## A new node -/

/-- No node was made. -/
def refused (lib : ScmLib η) (scm : Scm η) : Scm η :=
  { scm with lib := (lib.malloc sizeofNode scm.lib).2 }

/-- The region after the node was made and its string could not be copied. -/
def leak (lib : ScmLib η) (item : CString) (scm : Scm η) : Scm η where
  lib := (lib.strdup item (lib.malloc sizeofNode scm.lib).2).2
  states := scm.states
  nodes := Function.update scm.nodes (answer lib item scm.lib).node (some ⟨0, 0, 0, 0, 0⟩)
  strings := scm.strings

/-- The region after the node was made. -/
def grow (lib : ScmLib η) (avl : Addr) (item : CString) (st : StateBlock) (scm : Scm η) :
    Scm η where
  lib := (lib.strdup item (lib.malloc sizeofNode scm.lib).2).2
  states := Function.update scm.states avl (some ⟨st.items + 1, st.unique + 1, st.root⟩)
  nodes := Function.update scm.nodes (answer lib item scm.lib).node
    (some ⟨0, 1, (answer lib item scm.lib).item, 0, 0⟩)
  strings := Function.update scm.strings (answer lib item scm.lib).item (some item)

theorem create_refused (hnode : (answer lib item scm.lib).node = 0) :
    create lib avl item scm = some (0, refused lib scm) := by
  have hroot : (lib.malloc sizeofNode scm.lib).1 = 0 := hnode
  simp only [create, Scm.malloc, hroot, if_true]
  rfl

theorem create_leak (hnode : (answer lib item scm.lib).node ≠ 0)
    (hitem : (answer lib item scm.lib).item = 0) :
    create lib avl item scm = some (0, leak lib item scm) := by
  have hroot : (lib.malloc sizeofNode scm.lib).1 ≠ 0 := hnode
  have hcopy : (lib.strdup item (lib.malloc sizeofNode scm.lib).2).1 = 0 := hitem
  simp [create, Scm.malloc, Scm.strdup, Scm.modifyNode, Scm.setNode, hroot, hcopy, leak, answer]

theorem create_grow {st : StateBlock} (hst : scm.states avl = some st)
    (hnode : (answer lib item scm.lib).node ≠ 0) (hitem : (answer lib item scm.lib).item ≠ 0) :
    create lib avl item scm =
      some ((answer lib item scm.lib).node, grow lib avl item st scm) := by
  have hroot : (lib.malloc sizeofNode scm.lib).1 ≠ 0 := hnode
  have hcopy : (lib.strdup item (lib.malloc sizeofNode scm.lib).2).1 ≠ 0 := hitem
  simp [create, Scm.malloc, Scm.strdup, Scm.modifyNode, Scm.modifyState, Scm.setNode, Scm.setState,
    hroot, hcopy, hst, grow, answer]

theorem create_linked (hlib : lib.Documented blocks) {st st' : State} {root : Addr} {t' : Node}
    (hst : scm.states avl = some (StateBlock.mk (.ofNat st.items) (.ofNat st.unique) root))
    (hup : Avl.update (outcome lib item scm.lib) item .null st = some (t', st')) :
    ∃ p' scm' slots', create lib avl item scm = some (p', scm') ∧ Linked scm' p' t' slots' ∧
      Updates lib blocks avl item [] slots' scm scm' ∧
      scm'.states avl = some ⟨.ofNat st'.items, .ofNat st'.unique, root⟩ := by
  have hmalloc := hlib.malloc sizeofNode scm.lib
  have hstrdup := hlib.strdup item (lib.malloc sizeofNode scm.lib).2
  by_cases hnode : (answer lib item scm.lib).node = 0
  · have hout : (outcome lib item scm.lib).malloc = false := by simp [outcome, hnode]
    rw [Avl.update, if_neg (by simp [hout])] at hup
    obtain ⟨rfl, rfl⟩ := Prod.mk.inj (Option.some.inj hup)
    exact ⟨0, _, [], create_refused hnode, .null, ⟨hmalloc.mbase, fun _ _ _ => rfl, fun _ _ => rfl,
      fun _ _ => rfl, [], hmalloc.null hnode, .kept (Or.inr hout)⟩, hst⟩
  have hout : (outcome lib item scm.lib).malloc = true := outcome_malloc.2 hnode
  have hfresh := fresh_node hlib hout
  have hold : ∀ a ∈ addrs blocks scm, a ≠ (answer lib item scm.lib).node := fun a ha h =>
    hfresh (h ▸ ha)
  rw [Avl.update, if_pos hout] at hup
  by_cases hitem : (answer lib item scm.lib).item = 0
  · have hfail : (outcome lib item scm.lib).strdup = false := by simp [outcome, hitem]
    rw [if_neg (by simp [hfail])] at hup
    obtain ⟨rfl, rfl⟩ := Prod.mk.inj (Option.some.inj hup)
    exact ⟨0, _, [], create_leak hnode hitem, .null, ⟨hstrdup.mbase.trans hmalloc.mbase,
      fun a ha _ => Function.update_of_ne (hold a ha) .., fun _ _ => rfl, fun _ _ => rfl,
      [((answer lib item scm.lib).node, sizeofNode)],
      (hstrdup.null hitem).trans (hmalloc.block hnode).2, .leaked (by simp) hout hfail⟩, hst⟩
  · have hok : (outcome lib item scm.lib).ok = true := outcome_ok.2 ⟨hnode, hitem⟩
    have hfresh' := fresh_item hlib hok
    have hold' : ∀ a ∈ addrs blocks scm, a ≠ (answer lib item scm.lib).item := fun a ha h =>
      hfresh' (List.mem_cons_of_mem _ (h ▸ ha))
    rw [if_pos (outcome_strdup.2 hitem)] at hup
    obtain ⟨rfl, rfl⟩ := Prod.mk.inj (Option.some.inj hup)
    refine ⟨_, _, [⟨(answer lib item scm.lib).node, (answer lib item scm.lib).item, item⟩],
      create_grow hst hnode hitem, ?_, ⟨hstrdup.mbase.trans hmalloc.mbase,
        fun a ha _ => Function.update_of_ne (hold a ha) ..,
        fun a ha => Function.update_of_ne (hold' a ha) .., fun a ha => Function.update_of_ne ha ..,
        [((answer lib item scm.lib).item, item.bytes.length + 1),
          ((answer lib item scm.lib).node, sizeofNode)],
        ?_, .first hok⟩, ?_⟩
    · exact .leaf hnode (Function.update_self ..) (Function.update_self ..)
    · show blocks (lib.strdup item (lib.malloc sizeofNode scm.lib).2).2 = _
      rw [(hstrdup.block hitem).2, (hmalloc.block hnode).2]
      rfl
    · show Function.update scm.states avl _ avl = _
      rw [Function.update_self, ofNat_succ, ofNat_succ]

/-! ## `update` -/

/-- An update of a subtree, and then stores to nodes of the whole tree. -/
theorem Updates.widen {inner inner' outer outer' : List Slot} {scm₁ scm₂ : Scm η}
    (hU : Updates lib blocks avl item inner inner' scm scm₁) (hw : Within outer' scm₁ scm₂)
    (hsub : ∀ a ∈ nodesOf inner, a ∈ nodesOf outer)
    (hsub' : ∀ a ∈ nodesOf outer', a ∈ nodesOf outer ∨ a ∉ addrs blocks scm)
    (hg : ∀ new, Grown (answer lib item scm.lib) (outcome lib item scm.lib) item inner inner' new →
      Grown (answer lib item scm.lib) (outcome lib item scm.lib) item outer outer' new) :
    Updates lib blocks avl item outer outer' scm scm₂ := by
  obtain ⟨new, hblocks, hgrown⟩ := hU.grown
  refine ⟨(congrArg lib.mbase hw.lib).trans hU.mbase, fun a ha hout => ?_, fun a ha => ?_,
    fun a ha => ?_, new, (congrArg blocks hw.lib).trans hblocks, hg new hgrown⟩
  · rw [hw.nodes a (fun hm => (hsub' a hm).elim hout (fun h => h ha)),
      hU.nodes a ha (fun hm => hout (hsub a hm))]
  · rw [hw.strings, hU.strings a ha]
  · rw [hw.states, hU.states a ha]

/-- The item is the root's key. -/
theorem update_here_linked {d : ℤ} {c : ℕ} {l r t' : Node} {st st' : State} {root : Addr}
    {fuel : ℕ} (h : Linked scm p (.node d c item l r) slots) (hnd : (nodesOf slots).Nodup)
    (hst : scm.states avl = some ⟨.ofNat st.items, .ofNat st.unique, root⟩)
    (hup : Avl.update (outcome lib item scm.lib) item (.node d c item l r) st = some (t', st')) :
    ∃ p' scm' slots', update lib avl item (fuel + 1) p scm = some (p', scm') ∧
      Linked scm' p' t' slots' ∧ Updates lib blocks avl item slots slots' scm scm' ∧
      scm'.states avl = some ⟨.ofNat st'.items, .ofNat st'.unique, root⟩ := by
  have hcmp : strcmp item item = 0 := (strcmp_eq_zero_iff _ _).2 rfl
  simp only [Avl.update, if_pos hcmp, Option.bind_eq_bind, Option.bind_eq_some_iff] at hup
  obtain ⟨t₁, ht₁, hup⟩ := hup
  obtain ⟨rfl, rfl⟩ := Prod.mk.inj (Option.some.inj hup)
  cases h with
  | @node _ _ _ _ _ _ q pl pr ls rs hp hn hq hl hr =>
      obtain ⟨_, _, hpl, hpr, _⟩ := nodup_nodesOf_iff.1 hnd
      -- the two counters, then the depth
      let scm₁ := scm.setNode p ⟨d, .ofNat (c + 1), q, pl, pr⟩
      let scm₂ := scm₁.setState avl ⟨.ofNat (st.items + 1), .ofNat st.unique, root⟩
      have hlinked : Linked scm₂ p (.node d (c + 1) item l r) (ls ++ ⟨p, q, item⟩ :: rs) :=
        .node hp (Scm.setNode_nodes_self ..) hq ((hl.setNode _ hpl).setState _)
          ((hr.setNode _ hpr).setState _)
      obtain ⟨scm₃, hrun, hlinked₃, hw⟩ := setDepth_linked hlinked hnd ht₁
      have hnode : Within (ls ++ ⟨p, q, item⟩ :: rs) scm scm₁ := Within.setNode _ _ (by simp)
      refine ⟨p, scm₃, _, ?_, hlinked₃, ⟨congrArg lib.mbase hw.lib, fun a _ ha => ?_,
        fun a _ => congrFun hw.strings a, fun a ha => ?_, [], congrArg blocks hw.lib,
        .kept (Or.inl (by simp))⟩, ?_⟩
      · rw [update, if_neg hp]
        simp only [hn, hq, if_pos hcmp, Option.bind_eq_bind, Option.bind_some, Scm.modifyNode_eq hn]
        rw [Scm.modifyState_eq (by rw [Scm.setNode_states, hst]), Option.bind_some, ofNat_succ,
          ofNat_succ, hrun, Option.bind_some]
      · rw [hw.nodes a ha]
        exact hnode.nodes a ha
      · rw [hw.states]
        exact Function.update_of_ne ha ..
      · rw [hw.states]
        exact Function.update_self ..

/-- The item is smaller than the root's key. -/
theorem update_left_linked (hlib : lib.Documented blocks) {d : ℤ} {c : ℕ} {key : CString}
    {l r l' t' : Node} {st' : State}
    {root q pl pl' pr : Addr} {fuel : ℕ} {scm₁ : Scm η} {ls' : List Slot} (hp : p ≠ 0)
    (hn : scm.nodes p = some ⟨d, .ofNat c, q, pl, pr⟩) (hq : scm.strings q = some key)
    (hr : Linked scm pr r rs) (hnd : (nodesOf (ls ++ ⟨p, q, key⟩ :: rs)).Nodup)
    (hown : Owned blocks scm (ls ++ ⟨p, q, key⟩ :: rs)) (ho : Ordered (.node d c key l r))
    (hl : Linked scm pl l ls) (hlt : strcmp item key < 0)
    (hrun : update lib avl item fuel pl scm = some (pl', scm₁)) (hl' : Linked scm₁ pl' l' ls')
    (hU : Updates lib blocks avl item ls ls' scm scm₁)
    (hst' : scm₁.states avl = some ⟨.ofNat st'.items, .ofNat st'.unique, root⟩)
    (ht' : (Avl.repairLeft item (.node d c key l' r)).bind Avl.setDepth = some t') :
    ∃ p' scm' slots', update lib avl item (fuel + 1) p scm = some (p', scm') ∧
      Linked scm' p' t' slots' ∧
      Updates lib blocks avl item (ls ++ ⟨p, q, key⟩ :: rs) slots' scm scm' ∧
      scm'.states avl = some ⟨.ofNat st'.items, .ofNat st'.unique, root⟩ := by
  obtain ⟨hndl, hndr, hpl, hpr, hdis⟩ := nodup_nodesOf_iff.1 hnd
  obtain ⟨hnown, hqown⟩ := hown ⟨p, q, key⟩ (by simp)
  have hownl : Owned blocks scm ls := fun s hs => hown s (by simp [hs])
  have hownr : Owned blocks scm rs := fun s hs => hown s (by simp [hs])
  obtain ⟨t₁, ht₁, ht'⟩ := Option.bind_eq_some_iff.1 ht'
  -- the new left subtree lies apart from the root and from the right subtree
  have hpl' : p ∉ nodesOf ls' := fun hm => (hU.mem_or_fresh hlib hm).elim hpl (fun h => h hnown)
  have hdis' : ∀ a ∈ nodesOf ls', a ∉ nodesOf rs := fun a ha har =>
    (hU.mem_or_fresh hlib ha).elim (fun h => hdis a h har) (fun h => h (hownr.node_mem har))
  have hnd' : (nodesOf (ls' ++ ⟨p, q, key⟩ :: rs)).Nodup :=
    nodup_nodesOf_iff.2 ⟨hU.nodup hlib hownl hndl, hndr, hpl', hpr, hdis'⟩
  have hr₁ : Linked scm₁ pr r rs := hr.frame
    (fun a ha => hU.nodes a (hownr.node_mem ha) (fun h => hdis a h ha))
    (fun s hs => hU.strings _ (hownr s hs).2)
  obtain ⟨scm₂, hrun₂, hlinked₂, hw₂⟩ := setLeft_linked hp
    ((hU.nodes p hnown hpl).trans hn) ((hU.strings q hqown).trans hq) hl' hr₁ hpl' hpr
  obtain ⟨p₃, scm₃, hrun₃, hlinked₃, hw₃⟩ := repairLeft_linked hlinked₂ hnd' ht₁
  obtain ⟨scm₄, hrun₄, hlinked₄, hw₄⟩ := setDepth_linked hlinked₃ hnd' ht'
  have hw := ((hw₂.mono (by simp)).trans hw₃).trans hw₄
  refine ⟨p₃, scm₄, _, ?_, hlinked₄, hU.widen hw (by simp +contextual) (fun a ha => ?_)
    (fun new hg => hg.left ?_), by rw [hw.states, hst']⟩
  · rw [update, if_neg hp]
    simp only [hn, hq, if_neg (ne_of_lt hlt), if_pos hlt, hrun, hrun₂, hrun₃, hrun₄,
      Option.bind_eq_bind, Option.bind_some]
  · simp only [nodesOf_append, nodesOf_cons, List.mem_append, List.mem_cons] at ha ⊢
    rcases ha with h | h
    · exact (hU.mem_or_fresh hlib h).imp_left Or.inl
    · exact Or.inl (Or.inr h)
  · have hmem := mem_entries_left ho ((strcmp_neg_iff _ _).1 hlt)
    rwa [← hl.keys, ← (Linked.node hp hn hq hl hr).keys] at hmem

/-- The item is greater than the root's key. -/
theorem update_right_linked (hlib : lib.Documented blocks) {d : ℤ} {c : ℕ} {key : CString}
    {l r r' t' : Node} {st' : State}
    {root q pl pr pr' : Addr} {fuel : ℕ} {scm₁ : Scm η} {rs' : List Slot} (hp : p ≠ 0)
    (hn : scm.nodes p = some ⟨d, .ofNat c, q, pl, pr⟩) (hq : scm.strings q = some key)
    (hl : Linked scm pl l ls) (hnd : (nodesOf (ls ++ ⟨p, q, key⟩ :: rs)).Nodup)
    (hown : Owned blocks scm (ls ++ ⟨p, q, key⟩ :: rs)) (ho : Ordered (.node d c key l r))
    (hr : Linked scm pr r rs) (hgt : 0 < strcmp item key)
    (hrun : update lib avl item fuel pr scm = some (pr', scm₁)) (hr' : Linked scm₁ pr' r' rs')
    (hU : Updates lib blocks avl item rs rs' scm scm₁)
    (hst' : scm₁.states avl = some ⟨.ofNat st'.items, .ofNat st'.unique, root⟩)
    (ht' : (Avl.repairRight item (.node d c key l r')).bind Avl.setDepth = some t') :
    ∃ p' scm' slots', update lib avl item (fuel + 1) p scm = some (p', scm') ∧
      Linked scm' p' t' slots' ∧
      Updates lib blocks avl item (ls ++ ⟨p, q, key⟩ :: rs) slots' scm scm' ∧
      scm'.states avl = some ⟨.ofNat st'.items, .ofNat st'.unique, root⟩ := by
  obtain ⟨hndl, hndr, hpl, hpr, hdis⟩ := nodup_nodesOf_iff.1 hnd
  obtain ⟨hnown, hqown⟩ := hown ⟨p, q, key⟩ (by simp)
  have hownl : Owned blocks scm ls := fun s hs => hown s (by simp [hs])
  have hownr : Owned blocks scm rs := fun s hs => hown s (by simp [hs])
  obtain ⟨t₁, ht₁, ht'⟩ := Option.bind_eq_some_iff.1 ht'
  have hpr' : p ∉ nodesOf rs' := fun hm => (hU.mem_or_fresh hlib hm).elim hpr (fun h => h hnown)
  have hdis' : ∀ a ∈ nodesOf ls, a ∉ nodesOf rs' := fun a hal ha =>
    (hU.mem_or_fresh hlib ha).elim (hdis a hal) (fun h => h (hownl.node_mem hal))
  have hnd' : (nodesOf (ls ++ ⟨p, q, key⟩ :: rs')).Nodup :=
    nodup_nodesOf_iff.2 ⟨hndl, hU.nodup hlib hownr hndr, hpl, hpr', hdis'⟩
  have hl₁ : Linked scm₁ pl l ls := hl.frame
    (fun a ha => hU.nodes a (hownl.node_mem ha) (hdis a ha))
    (fun s hs => hU.strings _ (hownl s hs).2)
  obtain ⟨scm₂, hrun₂, hlinked₂, hw₂⟩ := setRight_linked hp
    ((hU.nodes p hnown hpr).trans hn) ((hU.strings q hqown).trans hq) hl₁ hr' hpl hpr'
  obtain ⟨p₃, scm₃, hrun₃, hlinked₃, hw₃⟩ := repairRight_linked hlinked₂ hnd' ht₁
  obtain ⟨scm₄, hrun₄, hlinked₄, hw₄⟩ := setDepth_linked hlinked₃ hnd' ht'
  have hw := ((hw₂.mono (by simp)).trans hw₃).trans hw₄
  refine ⟨p₃, scm₄, _, ?_, hlinked₄, hU.widen hw (by simp +contextual) (fun a ha => ?_)
    (fun new hg => hg.right ?_), by rw [hw.states, hst']⟩
  · rw [update, if_neg hp]
    simp only [hn, hq, if_neg (ne_of_gt hgt), if_neg (not_lt_of_gt hgt), hrun, hrun₂, hrun₃, hrun₄,
      Option.bind_eq_bind, Option.bind_some]
  · simp only [nodesOf_append, nodesOf_cons, List.mem_append, List.mem_cons] at ha ⊢
    rcases ha with h | h | h
    · exact Or.inl (Or.inl h)
    · exact Or.inl (Or.inr (Or.inl h))
    · exact (hU.mem_or_fresh hlib h).imp_left (fun h => Or.inr (Or.inr h))
  · have hmem := mem_entries_right ho ((strcmp_pos_iff _ _).1 hgt)
    rwa [← hr.keys, ← (Linked.node hp hn hq hl hr).keys] at hmem

/-- **`update` in memory is `update` on the tree.** -/
theorem update_linked (hlib : lib.Documented blocks) {root : Addr} {t t' : Node} {st st' : State}
    {fuel : ℕ}
    (h : Linked scm p t slots) (hnd : (nodesOf slots).Nodup) (hown : Owned blocks scm slots)
    (ho : Ordered t) (hfuel : slots.length < fuel)
    (hst : scm.states avl = some ⟨.ofNat st.items, .ofNat st.unique, root⟩)
    (hup : Avl.update (outcome lib item scm.lib) item t st = some (t', st')) :
    ∃ p' scm' slots', update lib avl item fuel p scm = some (p', scm') ∧
      Linked scm' p' t' slots' ∧ Updates lib blocks avl item slots slots' scm scm' ∧
      scm'.states avl = some ⟨.ofNat st'.items, .ofNat st'.unique, root⟩ := by
  obtain ⟨fuel, rfl⟩ : ∃ n, fuel = n + 1 := ⟨fuel - 1, by omega⟩
  induction h generalizing t' st st' fuel with
  | null =>
      rw [update, if_pos rfl]
      exact create_linked hlib hst hup
  | @node d c key l r p q pl pr ls rs hp hn hq hl hr ihl ihr =>
      obtain ⟨hndl, hndr, _⟩ := nodup_nodesOf_iff.1 hnd
      simp only [List.length_append, List.length_cons] at hfuel
      obtain ⟨fuel, rfl⟩ : ∃ n, fuel = n + 1 := ⟨fuel - 1, by omega⟩
      obtain ⟨_, _, hol, hor⟩ := id ho
      rcases lt_trichotomy (strcmp item key) 0 with hlt | heq | hgt
      · simp only [Avl.update, if_neg (ne_of_lt hlt), if_pos hlt, Option.bind_eq_bind,
          Option.bind_eq_some_iff] at hup
        obtain ⟨⟨l', st₁⟩, hup, t₁, ht₁, t₂, ht₂, heq⟩ := hup
        obtain ⟨rfl, rfl⟩ := Prod.mk.inj (Option.some.inj heq)
        obtain ⟨pl', scm₁, ls', hrun, hl', hU, hst'⟩ := ihl hndl
          (fun s hs => hown s (by simp [hs])) hol hst hup fuel (by omega)
        exact update_left_linked hlib hp hn hq hr hnd hown ho hl hlt hrun hl' hU hst'
          (Option.bind_eq_some_iff.2 ⟨t₁, ht₁, ht₂⟩)
      · obtain rfl := (strcmp_eq_zero_iff _ _).1 heq
        exact update_here_linked (.node hp hn hq hl hr) hnd hst hup
      · simp only [Avl.update, if_neg (ne_of_gt hgt), if_neg (not_lt_of_gt hgt),
          Option.bind_eq_bind, Option.bind_eq_some_iff] at hup
        obtain ⟨⟨r', st₁⟩, hup, t₁, ht₁, t₂, ht₂, heq⟩ := hup
        obtain ⟨rfl, rfl⟩ := Prod.mk.inj (Option.some.inj heq)
        obtain ⟨pr', scm₁, rs', hrun, hr', hU, hst'⟩ := ihr hndr
          (fun s hs => hown s (by simp [hs])) hor hst hup fuel (by omega)
        exact update_right_linked hlib hp hn hq hl hnd hown ho hr hgt hrun hr' hU hst'
          (Option.bind_eq_some_iff.2 ⟨t₁, ht₁, ht₂⟩)

end

end CS238P.Avl.Heap
