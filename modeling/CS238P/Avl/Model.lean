import CS238P.Library.CString
import Mathlib.Algebra.Order.Group.Unbundled.Int

set_option autoImplicit false

/-! # The counting AVL tree (`p3/avl.c`)

The tree of `avl_insert`, `avl_exists` and `avl_traverse`, function by function. A `struct node *`
is a `Node`, the NULL pointer being `Node.null`; a step that would dereference NULL has no result
(`none`), so that a theorem which says what a call returns also says that it dereferences no NULL.

`scm.c` has no code: the outcome of the two allocations an insertion can make is an argument
(`Alloc`), and a `scm_strdup` that succeeds returns the string it was given, as `scm.h` documents.
Counters are natural numbers, which in the first 2^64 - 1 insertions is what a `uint64_t` holds
(`counters_le`). -/

namespace CS238P.Avl

open CString

/-- `struct node`. -/
inductive Node where
  | null
  | node (depth : ℤ) (count : ℕ) (item : CString) (left right : Node)
  deriving DecidableEq

/-- `struct state`, the part of an `avl` that lives in SCM. -/
structure State where
  items : ℕ
  unique : ℕ
  root : Node
  deriving DecidableEq

/-- What `avl_open` finds in a truncated region: `memset(avl->state, 0, ..)`. -/
def State.empty : State := ⟨0, 0, .null⟩

/-- Whether the `scm_malloc` and the `scm_strdup` of one insertion succeed. -/
structure Alloc where
  malloc : Bool
  strdup : Bool

/-- Both allocations succeed, so that a new node can be made. -/
def Alloc.ok (alloc : Alloc) : Bool := alloc.malloc && alloc.strdup

/-- The argument of `avl_insert` and `avl_exists`: `assert( safe_strlen(item) )`. -/
structure Item extends CString where
  nonempty : bytes ≠ []

theorem letter_ne_zero (k : ℕ) : 97 + UInt8.ofNat (k % 26) ≠ 0 := by
  have h : ∀ k < 26, 97 + UInt8.ofNat k ≠ 0 := by decide
  exact h _ (Nat.mod_lt k (by decide))

/-- The string of one letter, from `"a"` for 0 to `"z"` for 25. -/
def letter (k : ℕ) : Item :=
  ⟨⟨[97 + UInt8.ofNat (k % 26)], by simpa using (letter_ne_zero k).symm⟩, List.cons_ne_nil _ _⟩

/-! ## Depths and rotations -/

def delta : Node → ℤ
  | .null => -1
  | .node d _ _ _ _ => d

def balance : Node → Option ℤ
  | .null => none
  | .node _ _ _ l r => some (delta l - delta r)

def depth (a b : Node) : ℤ := if delta a > delta b then delta a + 1 else delta b + 1

def rotateRight : Node → Option Node
  | .node _ c key (.node _ c' key' l' r') r =>
      let node := Node.node (depth r' r) c key r' r
      some (.node (depth l' node) c' key' l' node)
  | _ => none

def rotateLeft : Node → Option Node
  | .node _ c key l (.node _ c' key' l' r') =>
      let node := Node.node (depth l l') c key l l'
      some (.node (depth r' node) c' key' node r')
  | _ => none

def rotateLeftRight : Node → Option Node
  | .null => none
  | .node d c key l r => do
      let l' ← rotateLeft l
      rotateRight (.node d c key l' r)

def rotateRightLeft : Node → Option Node
  | .null => none
  | .node d c key l r => do
      let r' ← rotateRight r
      rotateLeft (.node d c key l r')

/-! ## Insertion -/

/-- `root->depth = depth(root->left, root->right)`. -/
def setDepth : Node → Option Node
  | .null => none
  | .node _ c key l r => some (.node (depth l r) c key l r)

/-- The repair after the left link of `root` was written. The case is chosen by comparing the item
    with the key of the new left child, not by that child's balance. -/
def repairLeft (item : CString) (root : Node) : Option Node := do
  let b ← balance root
  if 1 < |b| then
    match root with
    | .node _ _ _ (.node _ _ key' _ _) _ =>
        if 0 > strcmp item key' then rotateRight root else rotateLeftRight root
    | _ => none
  else some root

/-- The repair after the right link of `root` was written. -/
def repairRight (item : CString) (root : Node) : Option Node := do
  let b ← balance root
  if 1 < |b| then
    match root with
    | .node _ _ _ _ (.node _ _ key' _ _) =>
        if 0 < strcmp item key' then rotateLeft root else rotateRightLeft root
    | _ => none
  else some root

/-- `update`: the node that takes the place of `root`, and the state with the counters bumped. A
    failed allocation gives NULL, which the caller stores in the link it came from. -/
def update (alloc : Alloc) (item : CString) : Node → State → Option (Node × State)
  | .null, st =>
      if alloc.malloc then
        if alloc.strdup then
          some (.node 0 1 item .null .null,
            { st with items := st.items + 1, unique := st.unique + 1 })
        else some (.null, st)
      else some (.null, st)
  | .node d c key l r, st =>
      if strcmp item key = 0 then do
        let root ← setDepth (.node d (c + 1) key l r)
        some (root, { st with items := st.items + 1 })
      else if 0 > strcmp item key then do
        let (l', st') ← update alloc item l st
        let root ← repairLeft item (.node d c key l' r)
        let root' ← setDepth root
        some (root', st')
      else do
        let (r', st') ← update alloc item r st
        let root ← repairRight item (.node d c key l r')
        let root' ← setDepth root
        some (root', st')

def avlInsert (alloc : Alloc) (st : State) (item : Item) : Option (ℤ × State) := do
  let (root, st') ← update alloc item.toCString st.root st
  match root with
  | .null => some (-1, st')
  | root => some (0, { st' with root := root })

/-! ## Reading -/

/-- The search loop of `avl_exists`. -/
def search (item : CString) : Node → ℕ
  | .null => 0
  | .node _ c key l r =>
      if strcmp item key = 0 then c
      else if 0 > strcmp item key then search item l
      else search item r

def avlExists (st : State) (item : Item) : ℕ := search item.toCString st.root

/-- `traverse`, the callback being what it does to its argument. -/
def traverse {τ : Type} (fnc : τ → CString → ℕ → τ) : Node → τ → τ
  | .null, arg => arg
  | .node _ c key l r, arg => traverse fnc r (fnc (traverse fnc l arg) key c)

def avlTraverse {τ : Type} (st : State) (fnc : τ → CString → ℕ → τ) (arg : τ) : τ :=
  traverse fnc st.root arg

def avlItems (st : State) : ℕ := st.items

def avlUnique (st : State) : ℕ := st.unique

/-! ## Runs -/

/-- A sequence of `avl_insert` calls, each with the outcome of its allocations. -/
def run : State → List (Item × Alloc) → Option State
  | st, [] => some st
  | st, (item, alloc) :: rest => do
      let (_, st') ← avlInsert alloc st item
      run st' rest

/-- A state some sequence of insertions leads to. -/
def Reachable (st : State) : Prop := ∃ calls, run State.empty calls = some st

end CS238P.Avl
