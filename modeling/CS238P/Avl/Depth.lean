import CS238P.Avl.Multiset
import CS238P.Library.HeightBalanced

set_option autoImplicit false

/-! # How deep the tree is

A valid tree is height-balanced, so that its depth is logarithmic in the number of the strings in
it. The functions that walk down the tree are said once more with a count: of the strings that are
compared, and of the calls of the recursion that are open at once. -/

namespace CS238P.Avl

open CString SortedCounts

/-! ## The shape of the tree -/

/-- The tree without its counters. -/
def shape : Node → BinaryTree CString
  | .null => .nil
  | .node _ _ key l r => .node key (shape l) (shape r)

theorem height_shape (t : Node) : height t = (shape t).height - 1 := by
  induction t with
  | null => simp [height, shape]
  | node d c key l r ihl ihr =>
      rw [height, shape, BinaryTree.height, ihl, ihr]
      omega

theorem numNodes_shape (t : Node) : (shape t).numNodes = (entries t).length := by
  induction t with
  | null => rfl
  | node d c key l r ihl ihr =>
      rw [shape, BinaryTree.numNodes, ihl, ihr, entries, List.length_append, List.length_cons]
      omega

theorem Balanced.shape {t : Node} (h : Balanced t) : (shape t).HeightBalanced := by
  induction t with
  | null => trivial
  | node d c key l r ihl ihr =>
      obtain ⟨-, hdiff, hl, hr⟩ := h
      rw [height_shape, height_shape, abs_le] at hdiff
      exact ⟨by omega, by omega, ihl hl, ihr hr⟩

/-! ## Counting -/

/-- The search loop of `avl_exists`, with the number of the strings it compares. -/
def searchCounted (item : CString) : Node → ℕ × ℕ
  | .null => (0, 0)
  | .node _ c key l r =>
      if strcmp item key = 0 then (c, 1)
      else
        let res := if 0 > strcmp item key then searchCounted item l else searchCounted item r
        (res.1, res.2 + 1)

/-- `update`, with the number of its calls that are open at once. -/
def updateCounted (alloc : Alloc) (item : CString) :
    Node → State → Option ((Node × State) × ℕ)
  | .null, st =>
      if alloc.malloc then
        if alloc.strdup then
          some ((.node 0 1 item .null .null,
            { st with items := st.items + 1, unique := st.unique + 1 }), 1)
        else some ((.null, st), 1)
      else some ((.null, st), 1)
  | .node d c key l r, st =>
      if strcmp item key = 0 then do
        let root ← setDepth (.node d (c + 1) key l r)
        some ((root, { st with items := st.items + 1 }), 1)
      else if 0 > strcmp item key then do
        let ((l', st'), calls) ← updateCounted alloc item l st
        let root ← repairLeft item (.node d c key l' r)
        let root' ← setDepth root
        some ((root', st'), calls + 1)
      else do
        let ((r', st'), calls) ← updateCounted alloc item r st
        let root ← repairRight item (.node d c key l r')
        let root' ← setDepth root
        some ((root', st'), calls + 1)

/-- `traverse`, with the number of its calls that are open at once. -/
def traverseCounted {τ : Type} (fnc : τ → CString → ℕ → τ) : Node → τ → τ × ℕ
  | .null, arg => (arg, 1)
  | .node _ c key l r, arg =>
      let left := traverseCounted fnc l arg
      let right := traverseCounted fnc r (fnc left.1 key c)
      (right.1, max left.2 right.2 + 1)

/-! ## Counting changes nothing -/

theorem searchCounted_fst (item : CString) (t : Node) :
    (searchCounted item t).1 = search item t := by
  induction t with
  | null => rfl
  | node d c key l r ihl ihr =>
      rw [searchCounted, search]
      split_ifs with heq hlt
      · rfl
      · exact ihl
      · exact ihr

theorem updateCounted_fst (alloc : Alloc) (item : CString) (t : Node) (st : State) :
    (updateCounted alloc item t st).map Prod.fst = update alloc item t st := by
  induction t generalizing st with
  | null =>
      rw [updateCounted, update]
      split_ifs <;> rfl
  | node d c key l r ihl ihr =>
      rw [updateCounted, update]
      split_ifs with heq hlt
      · simp [Option.map_bind]
      · rw [← ihl]
        simp [Option.map_bind, Option.bind_map]
      · rw [← ihr]
        simp [Option.map_bind, Option.bind_map]

theorem traverseCounted_fst {τ : Type} (fnc : τ → CString → ℕ → τ) (t : Node) (arg : τ) :
    (traverseCounted fnc t arg).1 = traverse fnc t arg := by
  induction t generalizing arg with
  | null => rfl
  | node d c key l r ihl ihr => rw [traverseCounted, traverse, ihr, ihl]

/-! ## The counts -/

theorem searchCounted_le (item : CString) (t : Node) :
    ((searchCounted item t).2 : ℤ) ≤ height t + 1 := by
  induction t with
  | null => simp [searchCounted, height]
  | node d c key l r ihl ihr =>
      have hl := height_ge l
      have hr := height_ge r
      rw [searchCounted, height]
      split_ifs with heq hlt
      · simp only
        omega
      · simp only
        omega
      · simp only
        omega

theorem updateCounted_le (alloc : Alloc) (item : CString) (t : Node) (st : State)
    {res : (Node × State) × ℕ} (h : updateCounted alloc item t st = some res) :
    (res.2 : ℤ) ≤ height t + 2 := by
  induction t generalizing st res with
  | null =>
      rw [updateCounted] at h
      split_ifs at h <;> (obtain rfl := Option.some.inj h; simp [height])
  | node d c key l r ihl ihr =>
      have hl := height_ge l
      have hr := height_ge r
      rw [updateCounted] at h
      rw [height]
      split_ifs at h with heq hlt
      · obtain ⟨root, -, h⟩ := Option.bind_eq_some_iff.1 h
        obtain rfl := Option.some.inj h
        simp only
        omega
      · obtain ⟨⟨⟨l', st'⟩, calls⟩, hcall, h⟩ := Option.bind_eq_some_iff.1 h
        obtain ⟨root, -, h⟩ := Option.bind_eq_some_iff.1 h
        obtain ⟨root', -, h⟩ := Option.bind_eq_some_iff.1 h
        obtain rfl := Option.some.inj h
        have := ihl st hcall
        simp only at this ⊢
        omega
      · obtain ⟨⟨⟨r', st'⟩, calls⟩, hcall, h⟩ := Option.bind_eq_some_iff.1 h
        obtain ⟨root, -, h⟩ := Option.bind_eq_some_iff.1 h
        obtain ⟨root', -, h⟩ := Option.bind_eq_some_iff.1 h
        obtain rfl := Option.some.inj h
        have := ihr st hcall
        simp only at this ⊢
        omega

theorem traverseCounted_eq {τ : Type} (fnc : τ → CString → ℕ → τ) (t : Node) (arg : τ) :
    ((traverseCounted fnc t arg).2 : ℤ) = height t + 2 := by
  induction t generalizing arg with
  | null => simp [traverseCounted, height]
  | node d c key l r ihl ihr =>
      have hl := ihl arg
      have hr := ihr (fnc (traverseCounted fnc l arg).1 key c)
      rw [traverseCounted, height]
      simp only
      omega

/-! ## Reachable trees -/

/-- What is said of the depth `h` of the tree and of the walks down the tree. -/
structure Shallow (st : State) (h : ℤ) : Prop where
  depth : delta st.root = h
  fib : (Nat.fib (h + 3).toNat : ℤ) - 1 ≤ avlUnique st
  log : h ≤ 2 * Nat.log 2 (avlUnique st + 1)
  exists_ : ∀ item : Item, (searchCounted item.toCString st.root).1 = avlExists st item ∧
    ((searchCounted item.toCString st.root).2 : ℤ) ≤ h + 1
  update : ∀ (alloc : Alloc) (item : Item), ∃ res,
    updateCounted alloc item.toCString st.root st = some res ∧
      update alloc item.toCString st.root st = some res.1 ∧ (res.2 : ℤ) ≤ h + 2
  traverse : ∀ (τ : Type) (fnc : τ → CString → ℕ → τ) (arg : τ),
    (traverseCounted fnc st.root arg).1 = avlTraverse st fnc arg ∧
      ((traverseCounted fnc st.root arg).2 : ℤ) ≤ h + 2

/-- **Every tree that insertions lead to is shallow**, in whatever order they come and whichever
    allocations fail. -/
theorem shallow_of_reachable {st : State} (h : Reachable st) : Shallow st (delta st.root) := by
  have hv := h.valid
  have hshape := hv.balanced.shape
  have hheight := height_shape st.root
  have hnodes : (shape st.root).numNodes = avlUnique st := by
    rw [numNodes_shape, avlUnique, hv.unique]
  have hdelta := hv.balanced.delta_eq
  refine ⟨rfl, ?_, ?_, fun item => ?_, fun alloc item => ?_, fun τ fnc arg => ?_⟩
  · have hfib := hshape.fib_le
    rw [hnodes] at hfib
    rw [show (delta st.root + 3).toNat = (shape st.root).height + 2 by omega]
    omega
  · have hlog := hshape.height_le_log
    rw [hnodes] at hlog
    omega
  · rw [hdelta]
    exact ⟨searchCounted_fst _ _, searchCounted_le _ _⟩
  · obtain ⟨t, st', hup, -⟩ := update_spec alloc item.toCString st.root st hv.ordered hv.balanced
    obtain ⟨res, hres, hfst⟩ := Option.map_eq_some_iff.1
      ((updateCounted_fst alloc item.toCString st.root st).trans hup)
    rw [hdelta]
    exact ⟨res, hres, by rw [hup, hfst], updateCounted_le _ _ _ _ hres⟩
  · rw [hdelta]
    exact ⟨traverseCounted_fst _ _ _, (traverseCounted_eq _ _ _).le⟩

/-- `"a"` to `"g"` one after the other, which without rotations would make a list. -/
def ascending : List (Item × Alloc) :=
  inserts [letter 0, letter 1, letter 2, letter 3, letter 4, letter 5, letter 6]

theorem shallow_of_reachable_ascending :
    ∃ st, run State.empty ascending = some st ∧ avlUnique st = 7 ∧ Shallow st 2 := by
  obtain ⟨st, hrun, hunique, hdepth⟩ : ∃ st, run State.empty ascending = some st ∧
      avlUnique st = 7 ∧ delta st.root = 2 := ⟨_, rfl, rfl, rfl⟩
  exact ⟨st, hrun, hunique, hdepth ▸ shallow_of_reachable ⟨ascending, hrun⟩⟩

end CS238P.Avl
