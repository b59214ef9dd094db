import CS238P.Avl.Model
import CS238P.Avl.Scm

set_option autoImplicit false

/-! # The tree in memory (`p3/avl.c`)

`avl.c` once more, statement by statement: nodes are blocks of the region, links are addresses,
counters are `uint64_t`, and a rotation is the stores that `rotate_right` and `rotate_left` make.
Every step through a pointer that does not point to a block of its type has no result. The recursion
of `update` and `traverse` and the loop of `avl_exists` follow links, which could in principle be
cyclic, so they count down their number of steps; running out of them is `none` as well. -/

namespace CS238P.Avl.Heap

open CString

/-- `sizeof (struct state)` and `sizeof (struct node)`, with 8-byte pointers. -/
def sizeofState : ℕ := 24

def sizeofNode : ℕ := 40

variable {η : Type}

/-! ## Depths and rotations -/

def delta (scm : Scm η) (node : Addr) : Option ℤ :=
  if node = 0 then some (-1) else do
    let n ← scm.nodes node
    some n.depth

def balance (scm : Scm η) (node : Addr) : Option ℤ := do
  let n ← scm.nodes node
  let l ← delta scm n.left
  let r ← delta scm n.right
  some (l - r)

def depth (scm : Scm η) (a b : Addr) : Option ℤ := do
  let x ← delta scm a
  let y ← delta scm b
  some (if x > y then x + 1 else y + 1)

def rotateRight (node : Addr) (scm : Scm η) : Option (Addr × Scm η) := do
  let n ← scm.nodes node
  let root := n.left
  let r ← scm.nodes root
  let scm ← scm.modifyNode node (fun n => { n with left := r.right })
  let scm ← scm.modifyNode root (fun r => { r with right := node })
  let n ← scm.nodes node
  let d ← depth scm n.left n.right
  let scm ← scm.modifyNode node (fun n => { n with depth := d })
  let r ← scm.nodes root
  let d' ← depth scm r.left node
  let scm ← scm.modifyNode root (fun r => { r with depth := d' })
  some (root, scm)

def rotateLeft (node : Addr) (scm : Scm η) : Option (Addr × Scm η) := do
  let n ← scm.nodes node
  let root := n.right
  let r ← scm.nodes root
  let scm ← scm.modifyNode node (fun n => { n with right := r.left })
  let scm ← scm.modifyNode root (fun r => { r with left := node })
  let n ← scm.nodes node
  let d ← depth scm n.left n.right
  let scm ← scm.modifyNode node (fun n => { n with depth := d })
  let r ← scm.nodes root
  let d' ← depth scm r.right node
  let scm ← scm.modifyNode root (fun r => { r with depth := d' })
  some (root, scm)

def rotateLeftRight (node : Addr) (scm : Scm η) : Option (Addr × Scm η) := do
  let n ← scm.nodes node
  let (left, scm) ← rotateLeft n.left scm
  let scm ← scm.modifyNode node (fun n => { n with left := left })
  rotateRight node scm

def rotateRightLeft (node : Addr) (scm : Scm η) : Option (Addr × Scm η) := do
  let n ← scm.nodes node
  let (right, scm) ← rotateRight n.right scm
  let scm ← scm.modifyNode node (fun n => { n with right := right })
  rotateLeft node scm

/-! ## Insertion -/

/-- `root->depth = depth(root->left, root->right)`. -/
def setDepth (root : Addr) (scm : Scm η) : Option (Scm η) := do
  let n ← scm.nodes root
  let d ← depth scm n.left n.right
  scm.modifyNode root (fun n => { n with depth := d })

/-- The repair after `root->left` was written. -/
def repairLeft (item : CString) (root : Addr) (scm : Scm η) : Option (Addr × Scm η) := do
  let b ← balance scm root
  if 1 < |b| then do
    let n ← scm.nodes root
    let l ← scm.nodes n.left
    let key ← scm.strings l.item
    if 0 > strcmp item key then rotateRight root scm else rotateLeftRight root scm
  else some (root, scm)

/-- The repair after `root->right` was written. -/
def repairRight (item : CString) (root : Addr) (scm : Scm η) : Option (Addr × Scm η) := do
  let b ← balance scm root
  if 1 < |b| then do
    let n ← scm.nodes root
    let r ← scm.nodes n.right
    let key ← scm.strings r.item
    if 0 < strcmp item key then rotateLeft root scm else rotateRightLeft root scm
  else some (root, scm)

/-- `update(avl, NULL, item)`: a node is made, or NULL is returned. A node whose `scm_strdup` failed
    is not given back. -/
def create (lib : ScmLib η) (avl : Addr) (item : CString) (scm : Scm η) :
    Option (Addr × Scm η) :=
  let (root, scm) := scm.malloc lib sizeofNode
  if root = 0 then some (0, scm) else do
    let scm := scm.setNode root ⟨0, 0, 0, 0, 0⟩
    let (copy, scm) := scm.strdup lib item
    let scm ← scm.modifyNode root (fun n => { n with item := copy })
    if copy = 0 then some (0, scm) else do
      let scm ← scm.modifyNode root (fun n => { n with count := n.count + 1 })
      let scm ← scm.modifyState avl (fun st => { st with items := st.items + 1 })
      let scm ← scm.modifyState avl (fun st => { st with unique := st.unique + 1 })
      some (root, scm)

/-- `update`, `avl` being the address of the `struct state`. -/
def update (lib : ScmLib η) (avl : Addr) (item : CString) :
    ℕ → Addr → Scm η → Option (Addr × Scm η)
  | 0, _, _ => none
  | fuel + 1, root, scm =>
      if root = 0 then create lib avl item scm else do
        let n ← scm.nodes root
        let key ← scm.strings n.item
        if strcmp item key = 0 then do
          let scm ← scm.modifyNode root (fun n => { n with count := n.count + 1 })
          let scm ← scm.modifyState avl (fun st => { st with items := st.items + 1 })
          let scm ← setDepth root scm
          some (root, scm)
        else if 0 > strcmp item key then do
          let (left, scm) ← update lib avl item fuel n.left scm
          let scm ← scm.modifyNode root (fun n => { n with left := left })
          let (root, scm) ← repairLeft item root scm
          let scm ← setDepth root scm
          some (root, scm)
        else do
          let (right, scm) ← update lib avl item fuel n.right scm
          let scm ← scm.modifyNode root (fun n => { n with right := right })
          let (root, scm) ← repairRight item root scm
          let scm ← setDepth root scm
          some (root, scm)

def avlInsert (lib : ScmLib η) (fuel : ℕ) (avl : Addr) (item : Item) (scm : Scm η) :
    Option (ℤ × Scm η) := do
  let st ← scm.states avl
  let (root, scm) ← update lib avl item.toCString fuel st.root scm
  if root = 0 then some (-1, scm) else do
    let scm ← scm.modifyState avl (fun st => { st with root := root })
    some (0, scm)

/-! ## Reading -/

/-- The loop of `avl_exists`. -/
def search (scm : Scm η) (item : CString) : ℕ → Addr → Option UInt64
  | 0, _ => none
  | fuel + 1, node =>
      if node = 0 then some 0 else do
        let n ← scm.nodes node
        let key ← scm.strings n.item
        if strcmp item key = 0 then some n.count
        else if 0 > strcmp item key then search scm item fuel n.left
        else search scm item fuel n.right

def avlExists (fuel : ℕ) (scm : Scm η) (avl : Addr) (item : Item) : Option UInt64 := do
  let st ← scm.states avl
  search scm item.toCString fuel st.root

def traverse {τ : Type} (scm : Scm η) (fnc : τ → CString → UInt64 → τ) :
    ℕ → Addr → τ → Option τ
  | 0, _, _ => none
  | fuel + 1, node, arg =>
      if node = 0 then some arg else do
        let n ← scm.nodes node
        let arg ← traverse scm fnc fuel n.left arg
        let key ← scm.strings n.item
        traverse scm fnc fuel n.right (fnc arg key n.count)

def avlTraverse {τ : Type} (fuel : ℕ) (scm : Scm η) (avl : Addr) (fnc : τ → CString → UInt64 → τ)
    (arg : τ) : Option τ := do
  let st ← scm.states avl
  traverse scm fnc fuel st.root arg

def avlItems (scm : Scm η) (avl : Addr) : Option UInt64 := (scm.states avl).map StateBlock.items

def avlUnique (scm : Scm η) (avl : Addr) : Option UInt64 := (scm.states avl).map StateBlock.unique

/-! ## Opening and closing -/

/-- `avl_open`: the address of the `struct state`, or 0 when NULL is returned. Whether `malloc` has
    room for the `struct avl` is an argument. A failing assertion has no result. -/
def avlOpen (lib : ScmLib η) (malloc truncate : Bool) (scm : Scm η) : Option (Addr × Scm η) :=
  if ¬ malloc then some (0, scm)
  else
    let (opened, scm) := lib.open_ truncate scm
    if ¬ opened then some (0, scm)
    else if lib.utilized scm.lib ≠ 0 then some (lib.mbase scm.lib, scm)
    else
      let (state, scm) := scm.malloc lib sizeofState
      if state = 0 then some (0, lib.close scm)
      else
        let scm := scm.setState state ⟨0, 0, 0⟩
        if state = lib.mbase scm.lib then some (state, scm) else none

def avlClose (lib : ScmLib η) (scm : Scm η) : Scm η := lib.close scm

end CS238P.Avl.Heap
