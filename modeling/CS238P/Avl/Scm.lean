import CS238P.Library.CString
import Mathlib.Data.UInt
import Mathlib.Logic.Function.Basic

set_option autoImplicit false

/-! # The SCM region (`p3/scm.h`)

`scm.c` has no code, so the library is a parameter: its functions work on a state of any type, and
what the tree relies on is named (`ScmLib.Documented`, `ScmLib.Durable`). `blocks` says which blocks
of a region are in use, each with the size that was asked for; no function computes it.

What the program has stored in the blocks is kept by its type. Nothing is ever freed. -/

namespace CS238P.Avl

/-- An address in the region, 0 being NULL. -/
abbrev Addr := ℕ

/-- The block of a `struct state`. -/
structure StateBlock where
  items : UInt64
  unique : UInt64
  root : Addr
  deriving DecidableEq

/-- The block of a `struct node`. -/
structure NodeBlock where
  depth : ℤ
  count : UInt64
  item : Addr
  left : Addr
  right : Addr
  deriving DecidableEq

/-- A region: what the library keeps of it, and what is in its blocks. -/
structure Scm (η : Type) where
  lib : η
  states : Addr → Option StateBlock
  nodes : Addr → Option NodeBlock
  strings : Addr → Option CString

/-- The functions of `scm.h`. The last two leave what is in the blocks alone by their type;
    `scm_strdup` is here without the string it writes. -/
structure ScmLib (η : Type) where
  /-- `scm_open`, by `truncate`: whether it succeeds -/
  open_ : Bool → Scm η → Bool × Scm η
  close : Scm η → Scm η
  utilized : η → ℕ
  mbase : η → Addr
  malloc : ℕ → η → Addr × η
  strdup : CString → η → Addr × η

/-! ## What is documented -/

section Documented

variable {η : Type} (lib : ScmLib η) (blocks : η → List (Addr × ℕ))

/-- An allocation of `n` bytes: NULL, or a block that was not in use. -/
structure Allocates (n : ℕ) (h : η) (r : Addr × η) : Prop where
  null : r.1 = 0 → blocks r.2 = blocks h
  block : r.1 ≠ 0 → r.1 ∉ (blocks h).map Prod.fst ∧ blocks r.2 = (r.1, n) :: blocks h
  mbase : lib.mbase r.2 = lib.mbase h

/-- What `scm.h` says. -/
structure ScmLib.Documented : Prop where
  malloc : ∀ n h, Allocates lib blocks n h (lib.malloc n h)
  strdup : ∀ s h, Allocates lib blocks (s.bytes.length + 1) h (lib.strdup s h)
  /-- the first block of a region is at its base -/
  first : ∀ n h, blocks h = [] → (lib.malloc n h).1 ≠ 0 → (lib.malloc n h).1 = lib.mbase h
  utilized : ∀ h, lib.utilized h = 0 ↔ blocks h = []
  truncated : ∀ scm, (lib.open_ true scm).1 = true → blocks (lib.open_ true scm).2.lib = []

/-- The same blocks are in use, at the same addresses, with the same in them. -/
structure Kept (scm scm' : Scm η) : Prop where
  used : blocks scm'.lib = blocks scm.lib
  mbase : lib.mbase scm'.lib = lib.mbase scm.lib
  states : ∀ a ∈ (blocks scm.lib).map Prod.fst, scm'.states a = scm.states a
  nodes : ∀ a ∈ (blocks scm.lib).map Prod.fst, scm'.nodes a = scm.nodes a
  strings : ∀ a ∈ (blocks scm.lib).map Prod.fst, scm'.strings a = scm.strings a

/-- A region outlives its handle: it is there again, at the same addresses, when it is opened without
    `truncate`. An opening with `truncate` that fails may have cleared it. -/
structure ScmLib.Durable : Prop where
  close : ∀ scm, Kept lib blocks scm (lib.close scm)
  reopen : ∀ scm, Kept lib blocks scm (lib.open_ false scm).2
  failed : ∀ scm, (lib.open_ true scm).1 = false →
    Kept lib blocks scm (lib.open_ true scm).2 ∨ blocks (lib.open_ true scm).2.lib = []

end Documented

namespace Scm

variable {η : Type} (lib : ScmLib η)

/-! ## Blocks -/

def malloc (scm : Scm η) (n : ℕ) : Addr × Scm η :=
  let r := lib.malloc n scm.lib
  (r.1, { scm with lib := r.2 })

def strdup (scm : Scm η) (s : CString) : Addr × Scm η :=
  let r := lib.strdup s scm.lib
  (r.1, { scm with
    lib := r.2
    strings := if r.1 = 0 then scm.strings else Function.update scm.strings r.1 (some s) })

/-! ## Stores -/

/-- A store to the whole of a `struct state` block. -/
def setState (scm : Scm η) (p : Addr) (st : StateBlock) : Scm η :=
  { scm with states := Function.update scm.states p (some st) }

def setNode (scm : Scm η) (p : Addr) (n : NodeBlock) : Scm η :=
  { scm with nodes := Function.update scm.nodes p (some n) }

/-- A store to a field through a `struct state *`, which must point to such a block. -/
def modifyState (scm : Scm η) (p : Addr) (f : StateBlock → StateBlock) : Option (Scm η) := do
  let st ← scm.states p
  some (scm.setState p (f st))

/-- A store to a field through a `struct node *`, which must point to such a block. -/
def modifyNode (scm : Scm η) (p : Addr) (f : NodeBlock → NodeBlock) : Option (Scm η) := do
  let n ← scm.nodes p
  some (scm.setNode p (f n))

@[simp] theorem setNode_states (scm : Scm η) (p : Addr) (n : NodeBlock) :
    (scm.setNode p n).states = scm.states := rfl

@[simp] theorem setNode_nodes_self (scm : Scm η) (p : Addr) (n : NodeBlock) :
    (scm.setNode p n).nodes p = some n := Function.update_self ..

theorem setNode_nodes_of_ne (scm : Scm η) {p a : Addr} (n : NodeBlock) (h : a ≠ p) :
    (scm.setNode p n).nodes a = scm.nodes a := Function.update_of_ne h ..

theorem modifyNode_eq {scm : Scm η} {p : Addr} {n : NodeBlock} (h : scm.nodes p = some n)
    (f : NodeBlock → NodeBlock) : scm.modifyNode p f = some (scm.setNode p (f n)) := by
  rw [modifyNode, h]
  rfl

theorem modifyState_eq {scm : Scm η} {p : Addr} {st : StateBlock} (h : scm.states p = some st)
    (f : StateBlock → StateBlock) : scm.modifyState p f = some (scm.setState p (f st)) := by
  rw [modifyState, h]
  rfl

end Scm

theorem Kept.refl {η : Type} (lib : ScmLib η) (blocks : η → List (Addr × ℕ)) (scm : Scm η) :
    Kept lib blocks scm scm :=
  ⟨rfl, rfl, fun _ _ => rfl, fun _ _ => rfl, fun _ _ => rfl⟩

/-! ## A library that is as documented

Blocks are handed out one behind the other, each on a multiple of 8, until 4096 bytes are used. -/

/-- The sizes that were asked for, the last one first. -/
structure Bump where
  sizes : List ℕ
  pos : ∀ n ∈ sizes, 0 < n

namespace Bump

/-- The bytes of a block. -/
def span (n : ℕ) : ℕ := (n + 7) / 8 * 8

def used (sizes : List ℕ) : ℕ := (sizes.map span).sum

def blocksOf : List ℕ → List (Addr × ℕ)
  | [] => []
  | n :: sizes => (8 + used sizes, n) :: blocksOf sizes

def blocks (h : Bump) : List (Addr × ℕ) := blocksOf h.sizes

def malloc (n : ℕ) (h : Bump) : Addr × Bump :=
  if hn : 0 < n ∧ used (n :: h.sizes) ≤ 4096 then
    (8 + used h.sizes, ⟨n :: h.sizes, List.forall_mem_cons.2 ⟨hn.1, h.pos⟩⟩)
  else (0, h)

def empty : Bump := ⟨[], by simp⟩

def lib : ScmLib Bump where
  open_ truncate scm := (true, if truncate then { scm with lib := empty } else scm)
  close scm := scm
  utilized h := used h.sizes
  mbase _ := 8
  malloc := malloc
  strdup s := malloc (s.bytes.length + 1)

theorem used_cons (n : ℕ) (sizes : List ℕ) : used (n :: sizes) = span n + used sizes :=
  List.sum_cons

theorem span_pos {n : ℕ} (h : 0 < n) : 0 < span n := by
  rw [span]
  omega

theorem used_eq_zero_iff (h : Bump) : used h.sizes = 0 ↔ blocks h = [] := by
  obtain ⟨sizes, hpos⟩ := h
  cases sizes with
  | nil => simp [used, blocks, blocksOf]
  | cons n sizes =>
      have hspan := span_pos (hpos n List.mem_cons_self)
      refine iff_of_false ?_ (List.cons_ne_nil _ _)
      rw [used_cons]
      omega

/-- Every block lies below the next one. -/
theorem lt_of_mem_blocksOf {sizes : List ℕ} (hpos : ∀ n ∈ sizes, 0 < n) {a n : ℕ}
    (hb : (a, n) ∈ blocksOf sizes) : a < 8 + used sizes := by
  induction sizes with
  | nil => exact absurd hb List.not_mem_nil
  | cons n sizes ih =>
      obtain ⟨hn, hpos⟩ := List.forall_mem_cons.1 hpos
      have hspan := span_pos hn
      rw [used_cons]
      rcases List.mem_cons.1 hb with heq | hb
      · obtain ⟨rfl, _⟩ := Prod.mk.inj heq
        omega
      · have hlt := ih hpos hb
        omega

theorem allocates (n : ℕ) (h : Bump) : Allocates lib blocks n h (malloc n h) := by
  rw [malloc]
  split
  · refine ⟨fun hz => absurd hz (by simp), fun _ => ⟨fun hm => ?_, rfl⟩, rfl⟩
    obtain ⟨⟨a, size⟩, hb, hlast⟩ := List.mem_map.1 hm
    exact absurd hlast (lt_of_mem_blocksOf h.pos hb).ne
  · exact ⟨fun _ => rfl, fun hne => absurd rfl hne, rfl⟩

theorem documented : lib.Documented blocks where
  malloc := allocates
  strdup s h := allocates (s.bytes.length + 1) h
  first n h hempty hne := by
    have hzero := (used_eq_zero_iff h).2 hempty
    have hmalloc : lib.malloc n h = malloc n h := rfl
    rw [hmalloc, malloc] at hne ⊢
    split at hne
    · rw [dif_pos (by assumption)]
      simp [hzero, lib]
    · exact absurd rfl hne
  utilized := used_eq_zero_iff
  truncated _ _ := rfl

theorem durable : lib.Durable blocks where
  close _ := .refl _ _ _
  reopen _ := .refl _ _ _
  failed _ h := absurd h (by simp [lib])

/-- A region that was truncated. -/
def truncated : Scm Bump := ⟨empty, fun _ => none, fun _ => none, fun _ => none⟩

end Bump

end CS238P.Avl
