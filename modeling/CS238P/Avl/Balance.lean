import CS238P.Avl.Model
import CS238P.Library.SortedCounts
import Mathlib.Algebra.BigOperators.Group.List.Basic
import Mathlib.Algebra.Order.BigOperators.Group.List
import Mathlib.Tactic.Linarith

set_option autoImplicit false

/-! # Insertion keeps the AVL invariant

`Valid` is what a state must satisfy: search-tree order by `strcmp`, cached depths equal to the
heights, balance at every node, positive counts, and the two counters. The order is read off the
in-order list `entries`, which a rotation does not change and an insertion bumps
(`SortedCounts.bump`), so the only argument about shape is the one about heights (`Updated.grown`):
when a subtree got higher, the new item is on its heavier side, which is why comparing the item with
the child's key picks the rotation that a comparison of balance factors would pick. -/

namespace CS238P.Avl

open CString SortedCounts

/-! ## The invariant -/

/-- The true height: empty -1, leaf 0. -/
def height : Node → ℤ
  | .null => -1
  | .node _ _ _ l r => max (height l) (height r) + 1

/-- The strings with their counts, in tree order. -/
def entries : Node → List (CString × ℕ)
  | .null => []
  | .node _ c key l r => entries l ++ (key, c) :: entries r

/-- Search-tree order, by `strcmp`. -/
def Ordered : Node → Prop
  | .null => True
  | .node _ _ key l r =>
      (∀ a ∈ entries l, strcmp a.1 key < 0) ∧ (∀ a ∈ entries r, strcmp key a.1 < 0) ∧
        Ordered l ∧ Ordered r

/-- Every depth field is the height, and no two siblings differ in height by more than one. -/
def Balanced : Node → Prop
  | .null => True
  | .node d _ _ l r =>
      d = max (height l) (height r) + 1 ∧ |height l - height r| ≤ 1 ∧ Balanced l ∧ Balanced r

/-- A valid counting AVL tree with its counters. -/
structure Valid (st : State) : Prop where
  ordered : Ordered st.root
  balanced : Balanced st.root
  counts : ∀ a ∈ entries st.root, 1 ≤ a.2
  items : st.items = ((entries st.root).map Prod.snd).sum
  unique : st.unique = (entries st.root).length

theorem ordered_iff_sorted (t : Node) : Ordered t ↔ Sorted (entries t) := by
  induction t with
  | null => simp [Ordered, entries, Sorted]
  | node d c key l r ihl ihr =>
      simp only [Ordered, entries, ihl, ihr, strcmp_neg_iff]
      constructor
      · rintro ⟨hl, hr, hsl, hsr⟩
        refine List.pairwise_append.2 ⟨hsl, List.pairwise_cons.2 ⟨hr, hsr⟩, fun a ha b hb => ?_⟩
        rcases List.mem_cons.1 hb with rfl | hb
        · exact hl a ha
        · exact (hl a ha).trans (hr b hb)
      · intro h
        obtain ⟨hsl, hs, hlr⟩ := List.pairwise_append.1 h
        obtain ⟨hr, hsr⟩ := List.pairwise_cons.1 hs
        exact ⟨fun a ha => hlr a ha (key, c) (List.mem_cons_self ..), hr, hsl, hsr⟩

/-! ## Heights -/

theorem height_ge (t : Node) : -1 ≤ height t := by
  induction t with
  | null => simp [height]
  | node d c key l r ihl ihr => simp only [height]; omega

theorem ne_null_of_height {t : Node} (h : 0 ≤ height t) : t ≠ .null := by
  rintro rfl
  simp [height] at h

theorem Balanced.delta_eq {t : Node} (h : Balanced t) : delta t = height t := by
  cases t with
  | null => rfl
  | node d c key l r => exact h.1

theorem Balanced.depth_eq {a b : Node} (ha : Balanced a) (hb : Balanced b) :
    depth a b = max (height a) (height b) + 1 := by
  unfold depth
  rw [ha.delta_eq, hb.delta_eq]
  split_ifs <;> omega

/-- A node over balanced children of nearly equal height, its depth freshly set, is balanced. -/
theorem balanced_node {a b : Node} (c : ℕ) (key : CString) (ha : Balanced a) (hb : Balanced b)
    (hab : |height a - height b| ≤ 1) : Balanced (.node (depth a b) c key a b) :=
  ⟨ha.depth_eq hb, hab, ha, hb⟩

/-- `setDepth` on a node whose children are balanced. -/
theorem setDepth_spec (d : ℤ) (c : ℕ) (key : CString) {a b : Node} (ha : Balanced a)
    (hb : Balanced b) (hab : |height a - height b| ≤ 1) :
    ∃ t, setDepth (.node d c key a b) = some t ∧ Balanced t ∧
      t = .node (max (height a) (height b) + 1) c key a b :=
  ⟨_, rfl, balanced_node c key ha hb hab, by rw [ha.depth_eq hb]⟩

theorem Balanced.setDepth_eq {t : Node} (h : Balanced t) (hne : t ≠ .null) :
    setDepth t = some t := by
  cases t with
  | null => exact absurd rfl hne
  | node d c key l r =>
      obtain ⟨hd, _, hl, hr⟩ := h
      rw [setDepth, hl.depth_eq hr, ← hd]

/-! ## Rotations

Each of the four cases is a computation on heights: the child that is too high has height
`height r + 2`, and the subtree chosen by the comparison is its higher one. -/

theorem rotateRight_spec (d d' : ℤ) (c c' : ℕ) (key key' : CString) {a b r : Node}
    (ha : Balanced a) (hb : Balanced b) (hr : Balanced r)
    (har : height a = height r + 1) (hbr : height b = height r) :
    ∃ t, rotateRight (.node d c key (.node d' c' key' a b) r) = some t ∧ Balanced t ∧
      entries t = entries (.node d c key (.node d' c' key' a b) r) ∧ height t = height r + 2 := by
  have hnode : Balanced (.node (depth b r) c key b r) :=
    balanced_node c key hb hr (by rw [abs_le]; omega)
  have hh : height (.node (depth b r) c key b r) = height r + 1 := by
    simp only [height]; omega
  refine ⟨_, rfl, balanced_node c' key' ha hnode (by rw [hh, abs_le]; omega), ?_, ?_⟩
  · simp [entries]
  · rw [height, hh]; omega

theorem rotateLeft_spec (d d' : ℤ) (c c' : ℕ) (key key' : CString) {l a b : Node}
    (hl : Balanced l) (ha : Balanced a) (hb : Balanced b)
    (hbl : height b = height l + 1) (hal : height a = height l) :
    ∃ t, rotateLeft (.node d c key l (.node d' c' key' a b)) = some t ∧ Balanced t ∧
      entries t = entries (.node d c key l (.node d' c' key' a b)) ∧ height t = height l + 2 := by
  have hnode : Balanced (.node (depth l a) c key l a) :=
    balanced_node c key hl ha (by rw [abs_le]; omega)
  have hh : height (.node (depth l a) c key l a) = height l + 1 := by
    simp only [height]; omega
  have hdepth : depth b (.node (depth l a) c key l a) = depth (.node (depth l a) c key l a) b := by
    rw [hb.depth_eq hnode, hnode.depth_eq hb, max_comm]
  refine ⟨_, rfl, ?_, ?_, ?_⟩
  · show Balanced (.node (depth b _) c' key' _ b)
    rw [hdepth]
    exact balanced_node c' key' hnode hb (by rw [hh, abs_le]; omega)
  · simp [entries]
  · rw [height, hh]; omega

/-- The double rotation on the left. Its first half leaves an unbalanced tree, so it is not an
    instance of `rotateLeft_spec`. -/
theorem rotateLeftRight_spec (d d' : ℤ) {d'' : ℤ} (c c' : ℕ) {c'' : ℕ}
    (key key' : CString) {key'' : CString} {a b₁ b₂ r : Node}
    (ha : Balanced a) (hb : Balanced (.node d'' c'' key'' b₁ b₂))
    (hr : Balanced r) (har : height a = height r)
    (hbr : height (.node d'' c'' key'' b₁ b₂) = height r + 1) :
    ∃ t, rotateLeftRight (.node d c key (.node d' c' key' a (.node d'' c'' key'' b₁ b₂)) r)
        = some t ∧ Balanced t ∧
      entries t = entries (.node d c key (.node d' c' key' a (.node d'' c'' key'' b₁ b₂)) r) ∧
      height t = height r + 2 := by
  obtain ⟨_, hb12, hb1, hb2⟩ := hb
  rw [abs_le] at hb12
  simp only [height] at hbr
  have hleft : Balanced (.node (depth a b₁) c' key' a b₁) :=
    balanced_node c' key' ha hb1 (by rw [abs_le]; omega)
  have hright : Balanced (.node (depth b₂ r) c key b₂ r) :=
    balanced_node c key hb2 hr (by rw [abs_le]; omega)
  have hhl : height (.node (depth a b₁) c' key' a b₁) = height r + 1 := by
    simp only [height]; omega
  have hhr : height (.node (depth b₂ r) c key b₂ r) = height r + 1 := by
    simp only [height]; omega
  refine ⟨_, rfl, balanced_node c'' key'' hleft hright (by rw [hhl, hhr, abs_le]; omega), ?_, ?_⟩
  · simp [entries]
  · rw [height, hhl, hhr]; omega

theorem rotateRightLeft_spec (d d' : ℤ) {d'' : ℤ} (c c' : ℕ) {c'' : ℕ}
    (key key' : CString) {key'' : CString} {l a₁ a₂ b : Node}
    (hl : Balanced l) (ha : Balanced (.node d'' c'' key'' a₁ a₂))
    (hb : Balanced b) (hbl : height b = height l)
    (hal : height (.node d'' c'' key'' a₁ a₂) = height l + 1) :
    ∃ t, rotateRightLeft (.node d c key l (.node d' c' key' (.node d'' c'' key'' a₁ a₂) b))
        = some t ∧ Balanced t ∧
      entries t = entries (.node d c key l (.node d' c' key' (.node d'' c'' key'' a₁ a₂) b)) ∧
      height t = height l + 2 := by
  obtain ⟨_, ha12, ha1, ha2⟩ := ha
  rw [abs_le] at ha12
  simp only [height] at hal
  have hleft : Balanced (.node (depth l a₁) c key l a₁) :=
    balanced_node c key hl ha1 (by rw [abs_le]; omega)
  have hright : Balanced (.node (depth a₂ b) c' key' a₂ b) :=
    balanced_node c' key' ha2 hb (by rw [abs_le]; omega)
  have hhl : height (.node (depth l a₁) c key l a₁) = height l + 1 := by
    simp only [height]; omega
  have hhr : height (.node (depth a₂ b) c' key' a₂ b) = height l + 1 := by
    simp only [height]; omega
  have hdepth : depth (.node (depth a₂ b) c' key' a₂ b) (.node (depth l a₁) c key l a₁)
      = depth (.node (depth l a₁) c key l a₁) (.node (depth a₂ b) c' key' a₂ b) := by
    rw [hright.depth_eq hleft, hleft.depth_eq hright, max_comm]
  refine ⟨_, rfl, ?_, ?_, ?_⟩
  · show Balanced (.node (depth (.node (depth a₂ b) c' key' a₂ b) (.node (depth l a₁) c key l a₁))
      c'' key'' _ _)
    rw [hdepth]
    exact balanced_node c'' key'' hleft hright (by rw [hhl, hhr, abs_le]; omega)
  · simp [entries]
  · rw [height, hhl, hhr]; omega

/-! ## Repair -/

/-- `item` lies on the heavier side of `t`. -/
def Leans (item : CString) : Node → Prop
  | .null => False
  | .node _ _ key l r =>
      (strcmp item key < 0 ∧ height l = height r + 1) ∨
        (0 < strcmp item key ∧ height r = height l + 1)

/-- Writing the left link and repairing: the node is balanced again. It grows only when no rotation
    was needed, and after a rotation it is as high as its new left child was. -/
theorem repairLeft_spec {item : CString} (d : ℤ) (c : ℕ) (key : CString) {l r : Node}
    (hl : Balanced l) (hr : Balanced r) (hlo : -1 ≤ height l - height r)
    (hhi : height l - height r ≤ 2) (hlean : height l - height r = 2 → Leans item l) :
    ∃ root t, repairLeft item (.node d c key l r) = some root ∧ setDepth root = some t ∧
      Balanced t ∧ entries t = entries (.node d c key l r) ∧
      ((height l - height r = 2 ∧ height t = height l) ∨
        (height l - height r ≤ 1 ∧ t = .node (max (height l) (height r) + 1) c key l r)) := by
  have hbal : balance (.node d c key l r) = some (height l - height r) := by
    rw [balance, hl.delta_eq, hr.delta_eq]
  by_cases htwo : height l - height r = 2
  · -- a rotation is due, and the comparison picks the one the heights ask for
    have hb : ¬ |height l - height r| ≤ 1 := by rw [abs_le]; omega
    have hlean' := hlean htwo
    cases l with
    | null => exact absurd hlean' (by simp [Leans])
    | node d' c' key' a b =>
        obtain ⟨hd', hab, ha, hbb⟩ := hl
        simp only [Leans] at hlean'
        have hmax : height (.node d' c' key' a b) = max (height a) (height b) + 1 := rfl
        rcases hlean' with ⟨hlt, hh⟩ | ⟨hgt, hh⟩
        · obtain ⟨t, ht, hbt, het, hht⟩ :=
            rotateRight_spec d d' c c' key key' ha hbb hr (by omega) (by omega)
          refine ⟨t, t, ?_, ?_, hbt, het, Or.inl ⟨htwo, by omega⟩⟩
          · simp only [repairLeft, hbal, Option.bind_eq_bind, Option.bind_some,
              if_pos (not_le.1 hb), if_pos hlt, ht]
          · exact hbt.setDepth_eq (ne_null_of_height (by have := height_ge r; omega))
        · -- the inner grandchild is the higher one, so it is a node
          cases b with
          | null =>
              have := height_ge a
              simp only [height] at hh
              omega
          | node d'' c'' key'' b₁ b₂ =>
              obtain ⟨t, ht, hbt, het, hht⟩ :=
                rotateLeftRight_spec d d' c c' key key' ha hbb hr (by omega) (by omega)
              refine ⟨t, t, ?_, ?_, hbt, het, Or.inl ⟨htwo, by omega⟩⟩
              · simp only [repairLeft, hbal, Option.bind_eq_bind, Option.bind_some,
                  if_pos (not_le.1 hb), if_neg (not_lt_of_gt hgt), ht]
              · exact hbt.setDepth_eq (ne_null_of_height (by have := height_ge r; omega))
  · have hb : |height l - height r| ≤ 1 := by rw [abs_le]; omega
    obtain ⟨t, ht, hbt, rfl⟩ := setDepth_spec d c key hl hr hb
    refine ⟨_, _, ?_, ht, hbt, by simp [entries], Or.inr ⟨by omega, rfl⟩⟩
    simp only [repairLeft, hbal, Option.bind_eq_bind, Option.bind_some, if_neg (not_lt.2 hb)]

theorem repairRight_spec {item : CString} (d : ℤ) (c : ℕ) (key : CString) {l r : Node}
    (hl : Balanced l) (hr : Balanced r) (hlo : -1 ≤ height r - height l)
    (hhi : height r - height l ≤ 2) (hlean : height r - height l = 2 → Leans item r) :
    ∃ root t, repairRight item (.node d c key l r) = some root ∧ setDepth root = some t ∧
      Balanced t ∧ entries t = entries (.node d c key l r) ∧
      ((height r - height l = 2 ∧ height t = height r) ∨
        (height r - height l ≤ 1 ∧ t = .node (max (height l) (height r) + 1) c key l r)) := by
  have hbal : balance (.node d c key l r) = some (height l - height r) := by
    rw [balance, hl.delta_eq, hr.delta_eq]
  by_cases htwo : height r - height l = 2
  · -- as in `repairLeft_spec`, with the sides and the sign of the comparison exchanged
    have hb : ¬ |height l - height r| ≤ 1 := by rw [abs_le]; omega
    have hlean' := hlean htwo
    cases r with
    | null => exact absurd hlean' (by simp [Leans])
    | node d' c' key' a b =>
        obtain ⟨hd', hab, ha, hbb⟩ := hr
        simp only [Leans] at hlean'
        have hmax : height (.node d' c' key' a b) = max (height a) (height b) + 1 := rfl
        rcases hlean' with ⟨hlt, hh⟩ | ⟨hgt, hh⟩
        · cases a with
          | null =>
              have := height_ge b
              simp only [height] at hh
              omega
          | node d'' c'' key'' a₁ a₂ =>
              obtain ⟨t, ht, hbt, het, hht⟩ :=
                rotateRightLeft_spec d d' c c' key key' hl ha hbb (by omega) (by omega)
              refine ⟨t, t, ?_, ?_, hbt, het, Or.inl ⟨htwo, by omega⟩⟩
              · simp only [repairRight, hbal, Option.bind_eq_bind, Option.bind_some,
                  if_pos (not_le.1 hb), if_neg (not_lt_of_gt hlt), ht]
              · exact hbt.setDepth_eq (ne_null_of_height (by have := height_ge l; omega))
        · obtain ⟨t, ht, hbt, het, hht⟩ :=
            rotateLeft_spec d d' c c' key key' hl ha hbb (by omega) (by omega)
          refine ⟨t, t, ?_, ?_, hbt, het, Or.inl ⟨htwo, by omega⟩⟩
          · simp only [repairRight, hbal, Option.bind_eq_bind, Option.bind_some,
              if_pos (not_le.1 hb), if_pos hgt, ht]
          · exact hbt.setDepth_eq (ne_null_of_height (by have := height_ge l; omega))
  · have hb : |height l - height r| ≤ 1 := by rw [abs_le]; omega
    obtain ⟨t, ht, hbt, rfl⟩ := setDepth_spec d c key hl hr hb
    refine ⟨_, _, ?_, ht, hbt, by simp [entries], Or.inr ⟨by omega, rfl⟩⟩
    simp only [repairRight, hbal, Option.bind_eq_bind, Option.bind_some, if_neg (not_lt.2 hb)]

/-! ## Insertion -/

/-- The insertion changes the tree: the item is stored already, or a node for it can be made. -/
def Counted (alloc : Alloc) (item : CString) (t : Node) : Prop :=
  item ∈ (entries t).map Prod.fst ∨ alloc.ok = true

/-- What `update` does to a balanced search tree. -/
structure Updated (alloc : Alloc) (item : CString) (t t' : Node) (st st' : State) : Prop where
  balanced : Balanced t'
  entries_eq : Counted alloc item t → entries t' = bump item (entries t)
  items : Counted alloc item t → st'.items = st.items + 1
  unique : Counted alloc item t →
    st'.unique = st.unique + if item ∈ (entries t).map Prod.fst then 0 else 1
  unchanged : ¬ Counted alloc item t → t' = t ∧ st' = st
  root : st'.root = st.root
  height_eq : height t' = height t ∨ (height t' = height t + 1 ∧ (t = .null ∨ Leans item t'))

theorem mem_entries_left {item key : CString} {d : ℤ} {c : ℕ} {l r : Node}
    (h : Ordered (.node d c key l r)) (hlt : item < key) :
    item ∈ (entries (.node d c key l r)).map Prod.fst ↔ item ∈ (entries l).map Prod.fst := by
  obtain ⟨_, hr, _, _⟩ := h
  have hnot : item ∉ ((key, c) :: entries r).map Prod.fst := by
    refine not_mem_keys_of_lt item _ (List.forall_mem_cons.2 ⟨hlt, fun a ha => ?_⟩)
    exact hlt.trans ((strcmp_neg_iff _ _).1 (hr a ha))
  rw [entries, List.map_append, List.mem_append, or_iff_left hnot]

theorem mem_entries_right {item key : CString} {d : ℤ} {c : ℕ} {l r : Node}
    (h : Ordered (.node d c key l r)) (hlt : key < item) :
    item ∈ (entries (.node d c key l r)).map Prod.fst ↔ item ∈ (entries r).map Prod.fst := by
  obtain ⟨hl, _, _, _⟩ := h
  have hnot : item ∉ (entries l).map Prod.fst := by
    intro hmem
    obtain ⟨a, ha, rfl⟩ := List.mem_map.1 hmem
    exact lt_asymm hlt ((strcmp_neg_iff _ _).1 (hl a ha))
  rw [entries, List.map_append, List.mem_append, or_iff_right hnot, List.map_cons, List.mem_cons,
    or_iff_right (ne_of_gt hlt)]

/-- A NULL root: a leaf is made, or an allocation fails. -/
theorem update_null (alloc : Alloc) (item : CString) (st : State) :
    ∃ t' st', update alloc item .null st = some (t', st') ∧ Updated alloc item .null t' st st' := by
  by_cases hok : alloc.ok = true
  · have hand : alloc.malloc = true ∧ alloc.strdup = true := by simpa [Alloc.ok] using hok
    refine ⟨_, _, by rw [update, if_pos hand.1, if_pos hand.2], ⟨?_, ?_, ?_, ?_, ?_, ?_, ?_⟩⟩
    · simp [Balanced, height]
    · simp [entries, bump]
    · simp
    · simp [entries]
    · intro hnot; exact absurd (Or.inr hok) hnot
    · rfl
    · exact Or.inr ⟨by simp [height], Or.inl rfl⟩
  · have hnot : ¬ Counted alloc item .null := by simp [Counted, entries, hok]
    refine ⟨.null, st, ?_, trivial, ?_, ?_, ?_, fun _ => ⟨rfl, rfl⟩, rfl, Or.inl rfl⟩
    · rw [update]
      split_ifs with hm hs
      · exact absurd (by simp [Alloc.ok, hm, hs]) hok
      · rfl
      · rfl
    all_goals intro hc; exact absurd hc hnot

/-- The item is the root's key: its count is bumped. -/
theorem update_here (alloc : Alloc) (item : CString) (d : ℤ) (c : ℕ) (l r : Node) (st : State)
    (ho : Ordered (.node d c item l r)) (hb : Balanced (.node d c item l r)) :
    ∃ t' st', update alloc item (.node d c item l r) st = some (t', st') ∧
      Updated alloc item (.node d c item l r) t' st st' := by
  obtain ⟨hol, _, _, _⟩ := ho
  obtain ⟨_, hlr, hbl, hbr⟩ := hb
  have hcmp : strcmp item item = 0 := (strcmp_eq_zero_iff _ _).2 rfl
  have hmem : item ∈ (entries (.node d c item l r)).map Prod.fst := by simp [entries]
  obtain ⟨t, ht, hbt, rfl⟩ := setDepth_spec d (c + 1) item hbl hbr hlr
  refine ⟨_, { st with items := st.items + 1 }, ?_, hbt, fun _ => ?_, fun _ => rfl, fun _ => ?_,
    fun hc => ?_, rfl, Or.inl rfl⟩
  · rw [update, if_pos hcmp]
    simp only [ht, Option.bind_eq_bind, Option.bind_some]
  · rw [entries, entries, bump_append_eq]
    exact fun a ha => (strcmp_neg_iff _ _).1 (hol a ha)
  · rw [if_pos hmem]; rfl
  · exact absurd (Or.inl hmem) hc

/-- When the subtree that was written is too high, the item leans its way. -/
theorem Updated.leans {alloc : Alloc} {item : CString} {t t' s : Node} {st st' : State}
    (hU : Updated alloc item t t' st st') (hts : height t - height s ≤ 1)
    (htwo : height t' - height s = 2) : Leans item t' := by
  have hge := height_ge s
  rcases hU.height_eq with h | ⟨h, rfl | hL⟩
  · omega
  · simp only [height] at h; omega
  · exact hL

/-- The item is smaller than the root's key. -/
theorem update_left {alloc : Alloc} {item key : CString} {d : ℤ} {c : ℕ} {l r l' : Node}
    {st st' : State} (ho : Ordered (.node d c key l r)) (hb : Balanced (.node d c key l r))
    (hlt : item < key) (hup : update alloc item l st = some (l', st'))
    (hU : Updated alloc item l l' st st') :
    ∃ t' st', update alloc item (.node d c key l r) st = some (t', st') ∧
      Updated alloc item (.node d c key l r) t' st st' := by
  obtain ⟨hd, hlr, hbl, hbr⟩ := id hb
  rw [abs_le] at hlr
  have hcmp : strcmp item key < 0 := (strcmp_neg_iff _ _).2 hlt
  have hmem := mem_entries_left ho hlt
  have hgrow := hU.height_eq
  obtain ⟨root, t, hroot, ht, hbt, het, hcase⟩ := repairLeft_spec d c key
    hU.balanced hbr (by omega) (by omega) (hU.leans (by omega))
  refine ⟨t, st', ?_, hbt, fun hc => ?_, fun hc => ?_, fun hc => ?_, fun hc => ?_, hU.root, ?_⟩
  · rw [update, if_neg (ne_of_lt hcmp), if_pos hcmp]
    simp only [hup, hroot, ht, Option.bind_eq_bind, Option.bind_some]
  · rw [het, entries, hU.entries_eq (hc.imp_left hmem.1), entries, bump_append_lt _ _ _ _ _ hlt]
  · exact hU.items (hc.imp_left hmem.1)
  · rw [hU.unique (hc.imp_left hmem.1)]
    simp only [hmem]
  · obtain ⟨rfl, rfl⟩ := hU.unchanged (fun h => hc (h.imp_left hmem.2))
    -- nothing was inserted below, so the children still differ by at most one
    rcases hcase with ⟨h, _⟩ | ⟨_, rfl⟩
    · omega
    · exact ⟨by rw [hd], rfl⟩
  · -- the node gets higher only if its left subtree was not the lower one, and then it leans left
    rcases hcase with ⟨h, hh⟩ | ⟨h, rfl⟩
    · simp only [height]; omega
    · simp only [height, Leans]
      by_cases hmax : max (height l') (height r) = max (height l) (height r)
      · exact Or.inl (by rw [hmax])
      · exact Or.inr ⟨by omega, Or.inr (Or.inl ⟨hcmp, by omega⟩)⟩

/-- The item is greater than the root's key. -/
theorem update_right {alloc : Alloc} {item key : CString} {d : ℤ} {c : ℕ} {l r r' : Node}
    {st st' : State} (ho : Ordered (.node d c key l r)) (hb : Balanced (.node d c key l r))
    (hgt : key < item) (hup : update alloc item r st = some (r', st'))
    (hU : Updated alloc item r r' st st') :
    ∃ t' st', update alloc item (.node d c key l r) st = some (t', st') ∧
      Updated alloc item (.node d c key l r) t' st st' := by
  obtain ⟨hd, hlr, hbl, hbr⟩ := id hb
  rw [abs_le] at hlr
  have hcmp : 0 < strcmp item key := (strcmp_pos_iff _ _).2 hgt
  have hmem := mem_entries_right ho hgt
  have hgrow := hU.height_eq
  have hbelow : ∀ a ∈ entries l, a.1 < item :=
    fun a ha => ((strcmp_neg_iff _ _).1 (ho.1 a ha)).trans hgt
  obtain ⟨root, t, hroot, ht, hbt, het, hcase⟩ := repairRight_spec d c key
    hbl hU.balanced (by omega) (by omega) (hU.leans (by omega))
  refine ⟨t, st', ?_, hbt, fun hc => ?_, fun hc => ?_, fun hc => ?_, fun hc => ?_, hU.root, ?_⟩
  · rw [update, if_neg (ne_of_gt hcmp), if_neg (not_lt_of_gt hcmp)]
    simp only [hup, hroot, ht, Option.bind_eq_bind, Option.bind_some]
  · rw [het, entries, hU.entries_eq (hc.imp_left hmem.1), entries,
      bump_append_gt _ _ _ _ _ hbelow hgt]
  · exact hU.items (hc.imp_left hmem.1)
  · rw [hU.unique (hc.imp_left hmem.1)]
    simp only [hmem]
  · obtain ⟨rfl, rfl⟩ := hU.unchanged (fun h => hc (h.imp_left hmem.2))
    rcases hcase with ⟨h, _⟩ | ⟨_, rfl⟩
    · omega
    · exact ⟨by rw [hd], rfl⟩
  · rcases hcase with ⟨h, hh⟩ | ⟨h, rfl⟩
    · simp only [height]; omega
    · simp only [height, Leans]
      by_cases hmax : max (height l) (height r') = max (height l) (height r)
      · exact Or.inl (by rw [hmax])
      · exact Or.inr ⟨by omega, Or.inr (Or.inr ⟨hcmp, by omega⟩)⟩

/-- **One `update`.** It never dereferences NULL, and it does what `Updated` says. -/
theorem update_spec (alloc : Alloc) (item : CString) (t : Node) (st : State)
    (ho : Ordered t) (hb : Balanced t) :
    ∃ t' st', update alloc item t st = some (t', st') ∧ Updated alloc item t t' st st' := by
  induction t generalizing st with
  | null => exact update_null alloc item st
  | node d c key l r ihl ihr =>
      obtain ⟨_, _, hol, hor⟩ := id ho
      obtain ⟨_, _, hbl, hbr⟩ := id hb
      rcases lt_trichotomy item key with hlt | rfl | hgt
      · obtain ⟨l', st', hup, hU⟩ := ihl st hol hbl
        exact update_left ho hb hlt hup hU
      · exact update_here alloc item d c l r st ho hb
      · obtain ⟨r', st', hup, hU⟩ := ihr st hor hbr
        exact update_right ho hb hgt hup hU

/-! ## `avl_insert` and runs -/

theorem valid_empty : Valid State.empty :=
  ⟨trivial, trivial, by simp [State.empty, entries], rfl, rfl⟩

/-- What `avl_insert` returns, and the state it leaves. -/
structure Inserted (alloc : Alloc) (item : CString) (st st' : State) (ret : ℤ) : Prop where
  balanced : Balanced st'.root
  entries_eq : Counted alloc item st.root → entries st'.root = bump item (entries st.root)
  items : Counted alloc item st.root → st'.items = st.items + 1
  unique : Counted alloc item st.root →
    st'.unique = st.unique + if item ∈ (entries st.root).map Prod.fst then 0 else 1
  unchanged : ¬ Counted alloc item st.root → st' = st
  ret_null : ret = -1 ↔ ¬ Counted alloc item st.root ∧ st.root = .null
  ret_cases : ret = 0 ∨ ret = -1

theorem Updated.ne_null {alloc : Alloc} {item : CString} {t t' : Node} {st st' : State}
    (hU : Updated alloc item t t' st st') (h : Counted alloc item t ∨ t ≠ .null) : t' ≠ .null := by
  rintro rfl
  by_cases hc : Counted alloc item t
  · have hmem := (mem_keys_bump item item (entries t)).2 (Or.inl rfl)
    rw [← hU.entries_eq hc] at hmem
    exact absurd hmem (by simp [entries])
  · exact (h.resolve_left hc) (hU.unchanged hc).1.symm

/-- **`avl_insert` always returns**, and it does what `Inserted` says. -/
theorem avlInsert_spec (alloc : Alloc) (item : Item) (st : State) (h : Valid st) :
    ∃ ret st', avlInsert alloc st item = some (ret, st') ∧
      Inserted alloc item.toCString st st' ret := by
  obtain ⟨t, st', hup, hU⟩ := update_spec alloc item.toCString st.root st h.ordered h.balanced
  have hroot := hU.root
  by_cases hkept : Counted alloc item.toCString st.root ∨ st.root ≠ .null
  · -- `update` returns a node, whether or not the item was counted
    have hne := hU.ne_null hkept
    have hret : ¬ (¬ Counted alloc item.toCString st.root ∧ st.root = .null) := by tauto
    refine ⟨0, { st' with root := t }, ?_, hU.balanced, hU.entries_eq, hU.items, hU.unique,
      fun hc => ?_, ⟨fun h0 => absurd h0 (by decide), fun h => absurd h hret⟩, Or.inl rfl⟩
    · rw [avlInsert, hup]
      cases t with
      | null => exact absurd rfl hne
      | node d c key l r => rfl
    · obtain ⟨rfl, rfl⟩ := hU.unchanged hc
      rfl
  · -- the tree is empty and its first node cannot be made
    rw [not_or, not_not] at hkept
    obtain ⟨hnc, hnull⟩ := hkept
    obtain ⟨rfl, rfl⟩ := hU.unchanged hnc
    refine ⟨-1, st', ?_, h.balanced, fun hc => absurd hc hnc, fun hc => absurd hc hnc,
      fun hc => absurd hc hnc, fun _ => rfl, ⟨fun _ => ⟨hnc, hnull⟩, fun _ => rfl⟩, Or.inr rfl⟩
    rw [avlInsert, hup, hnull]
    rfl

/-- An insertion keeps a valid state valid. -/
theorem Inserted.valid {alloc : Alloc} {item : CString} {st st' : State} {ret : ℤ}
    (hI : Inserted alloc item st st' ret) (h : Valid st) : Valid st' := by
  by_cases hc : Counted alloc item st.root
  · -- all but the balance is read off the in-order list
    have hsorted := (ordered_iff_sorted st.root).1 h.ordered
    have hent := hI.entries_eq hc
    refine ⟨(ordered_iff_sorted _).2 (hent ▸ sorted_bump item _ hsorted), hI.balanced, ?_, ?_, ?_⟩
    · rw [hent]
      exact pos_bump item _ h.counts
    · rw [hI.items hc, hent, sum_bump, h.items]
    · rw [hI.unique hc, hent, length_bump item _ hsorted, h.unique]
  · rw [hI.unchanged hc]
    exact h

/-- **Every run of insertions goes through and ends in a valid state.** -/
theorem run_valid (calls : List (Item × Alloc)) (st : State) (h : Valid st) :
    ∃ st', run st calls = some st' ∧ Valid st' := by
  induction calls generalizing st with
  | nil => exact ⟨st, rfl, h⟩
  | cons call rest ih =>
      obtain ⟨item, alloc⟩ := call
      obtain ⟨ret, st₁, hins, hI⟩ := avlInsert_spec alloc item st h
      obtain ⟨st', hrun, hvalid⟩ := ih st₁ (hI.valid h)
      exact ⟨st', by simp [run, hins, hrun], hvalid⟩

theorem Reachable.valid {st : State} (h : Reachable st) : Valid st := by
  obtain ⟨calls, hrun⟩ := h
  obtain ⟨st', hrun', hvalid⟩ := run_valid calls State.empty valid_empty
  rw [hrun] at hrun'
  exact Option.some.inj hrun' ▸ hvalid

/-! ## Counters -/

theorem run_items_le (calls : List (Item × Alloc)) {st st' : State} (h : Valid st)
    (hrun : run st calls = some st') : st'.items ≤ st.items + calls.length := by
  induction calls generalizing st with
  | nil => rw [← Option.some.inj hrun, List.length_nil, Nat.add_zero]
  | cons call rest ih =>
      obtain ⟨item, alloc⟩ := call
      obtain ⟨ret, st₁, hins, hI⟩ := avlInsert_spec alloc item st h
      rw [run, hins] at hrun
      have hrest := ih (hI.valid h) hrun
      have hstep : st₁.items ≤ st.items + 1 := by
        by_cases hc : Counted alloc item.toCString st.root
        · rw [hI.items hc]
        · rw [hI.unchanged hc]
          omega
      rw [List.length_cons]
      omega

/-- No counter is above the number of insertions, so that in the first 2^64 - 1 of them a `uint64_t`
    holds what is counted. -/
theorem counters_le {calls : List (Item × Alloc)} {st : State}
    (hrun : run State.empty calls = some st) :
    st.items ≤ calls.length ∧ st.unique ≤ calls.length ∧
      ∀ e ∈ entries st.root, e.2 ≤ calls.length := by
  have hv : Valid st := Reachable.valid ⟨calls, hrun⟩
  have hitems := run_items_le calls valid_empty hrun
  rw [State.empty, Nat.zero_add] at hitems
  refine ⟨hitems, ?_, fun e he => ?_⟩
  · -- every entry is counted at least once
    have hle : ((entries st.root).map Prod.snd).length ≤ ((entries st.root).map Prod.snd).sum :=
      List.length_le_sum_of_one_le _ (List.forall_mem_map.2 hv.counts)
    rw [List.length_map, ← hv.unique, ← hv.items] at hle
    exact hle.trans hitems
  · have hle := List.le_sum_of_mem (List.mem_map_of_mem (f := Prod.snd) he)
    rw [← hv.items] at hle
    exact hle.trans hitems

/-- **The tree is a valid AVL tree after every call**, whatever strings are inserted and whichever
    allocations fail. -/
theorem avl_valid_after_every_call (calls : List (Item × Alloc)) :
    ∃ st, run State.empty calls = some st ∧ Valid st :=
  run_valid calls State.empty valid_empty

end CS238P.Avl
