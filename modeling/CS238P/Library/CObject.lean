import CS238P.Library.Bytes
import Mathlib.Algebra.Order.Group.Unbundled.Int
import Mathlib.Tactic.Ring
import Mathlib.Data.List.TakeWhile

set_option autoImplicit false

/-! # C objects and the string functions on them

An object is the string of its bytes, and a pointer into it is the distance from its first byte, an
integer since a program may step before the object as long as it does not look there. An access
outside the object has no result. What an access does is said on a decomposition of the bytes:
`l ++ (m ++ r)` with the pointer at `l.length` has `m` where it points.

The bytes written are recorded, so that a program can be asked which ones it wrote. -/

/-- The bytes of an object, and the places that were written. -/
structure CObject where
  bytes : List UInt8
  written : List ℤ
  deriving DecidableEq

namespace CObject

open Bytes

/-- The `len` places from `a` on. -/
def span (a : ℤ) (len : ℕ) : List ℤ := (List.range len).map (fun k : ℕ => a + (k : ℤ))

theorem mem_span {x a : ℤ} {len : ℕ} : x ∈ span a len ↔ a ≤ x ∧ x < a + len := by
  simp only [span, List.mem_map, List.mem_range]
  constructor
  · intro h
    obtain ⟨k, hk, rfl⟩ := h
    omega
  · intro h
    exact ⟨(x - a).toNat, by omega, by omega⟩

theorem span_succ (a : ℤ) (len : ℕ) : span a (len + 1) = span a len ++ span (a + len) 1 := by
  rw [span, List.range_succ, List.map_append]
  simp [span]

/-! ## Accesses -/

/-- The `len` bytes at `a`. -/
def read (o : CObject) (a : ℤ) (len : ℕ) : Option (List UInt8) :=
  if 0 ≤ a ∧ a.toNat + len ≤ o.bytes.length then some (slice o.bytes a.toNat len) else none

/-- Writes `bs` at `a`. -/
def write (o : CObject) (a : ℤ) (bs : List UInt8) : Option CObject :=
  if 0 ≤ a ∧ a.toNat + bs.length ≤ o.bytes.length then
    some ⟨o.bytes.take a.toNat ++ overwrite (o.bytes.drop a.toNat) bs,
      o.written ++ span a bs.length⟩
  else none

/-- The byte at `a`. -/
def load (o : CObject) (a : ℤ) : Option UInt8 := if 0 ≤ a then o.bytes[a.toNat]? else none

/-- Writes the byte `b` at `a`. -/
def store (o : CObject) (a : ℤ) (b : UInt8) : Option CObject := o.write a [b]

/-- Copies as if through a buffer of its own. -/
def memmove (o : CObject) (dst src : ℤ) (len : ℕ) : Option CObject := do
  let bs ← o.read src len
  o.write dst bs

/-- The distance from `a` to the first NUL. -/
def strlen (o : CObject) (a : ℤ) : Option ℕ :=
  if 0 ≤ a then (o.bytes.drop a.toNat).findIdx? (· == 0) else none

/-- The bytes from `a` on, up to the first NUL or the end of the object. -/
def chars (o : CObject) (a : ℤ) : Option (List UInt8) :=
  if 0 ≤ a then some ((o.bytes.drop a.toNat).takeWhile (· ≠ 0)) else none

/-- The string at `a`, up to its terminator. -/
def string (o : CObject) (a : ℤ) : Option (List UInt8) := do
  let len ← o.strlen a
  o.read a len

/-- Compares the string `xs` with what is at `a`, as far as `xs` goes. -/
def strncmp (o : CObject) : List UInt8 → ℤ → Option ℤ
  | [], _ => some 0
  | x :: xs, a => do
      let c ← o.load a
      if x = c then strncmp o xs (a + 1) else some (x.toNat - c.toNat)

/-- Copies the string at `src`, but no more than `len` bytes of it, and fills up to `len` bytes
    with NULs. -/
def strncpy (o : CObject) (dst src : ℤ) (len : ℕ) : Option CObject := do
  let s ← o.chars src
  -- without a NUL among the first `len` bytes, `len` bytes have to be there
  if s.length < len ∧ o.bytes.length ≤ src.toNat + s.length then none
  else o.write dst (s.take len ++ List.replicate (len - s.length) 0)

/-! ## Nothing changes the size of an object -/

theorem length_write {o o' : CObject} {a : ℤ} {bs : List UInt8} (h : o.write a bs = some o') :
    o'.bytes.length = o.bytes.length := by
  unfold write at h
  split_ifs at h with hin
  rw [← Option.some.inj h, List.length_append,
    length_overwrite (by rw [List.length_drop]; omega), ← List.length_append, List.take_append_drop]

theorem length_memmove {o o' : CObject} {dst src : ℤ} {len : ℕ}
    (h : o.memmove dst src len = some o') : o'.bytes.length = o.bytes.length := by
  obtain ⟨bs, -, hw⟩ := Option.bind_eq_some_iff.1 h
  exact length_write hw

theorem length_strncpy {o o' : CObject} {dst src : ℤ} {len : ℕ}
    (h : o.strncpy dst src len = some o') : o'.bytes.length = o.bytes.length := by
  obtain ⟨s, -, hw⟩ := Option.bind_eq_some_iff.1 h
  split_ifs at hw
  exact length_write hw

/-! ## Accesses at a known place -/

variable {o : CObject} {l m r s : List UInt8} {a : ℤ}

theorem read_mid (hb : o.bytes = l ++ (m ++ r)) (ha : a = l.length) :
    o.read a m.length = some m := by
  subst ha
  have hlen : l.length + m.length ≤ o.bytes.length := by
    rw [hb, List.length_append, List.length_append]
    omega
  rw [read, if_pos ⟨Int.natCast_nonneg _, by rw [Int.toNat_natCast]; exact hlen⟩,
    Int.toNat_natCast, hb, slice_mid]

theorem write_mid (hb : o.bytes = l ++ (m ++ r)) (ha : a = l.length) {bs : List UInt8}
    (hlen : bs.length = m.length) :
    o.write a bs = some ⟨l ++ (bs ++ r), o.written ++ span a bs.length⟩ := by
  subst ha
  have hle : l.length + bs.length ≤ o.bytes.length := by
    rw [hb, List.length_append, List.length_append]
    omega
  rw [write, if_pos ⟨Int.natCast_nonneg _, by rw [Int.toNat_natCast]; exact hle⟩,
    Int.toNat_natCast, hb, List.take_left, List.drop_left, overwrite, hlen, List.drop_left]

theorem store_mid {x : UInt8} (hb : o.bytes = l ++ (x :: r)) (ha : a = l.length) (b : UInt8) :
    o.store a b = some ⟨l ++ (b :: r), o.written ++ span a 1⟩ :=
  write_mid (m := [x]) hb ha rfl

theorem load_mid {x : UInt8} (hb : o.bytes = l ++ (x :: r)) (ha : a = l.length) :
    o.load a = some x := by
  subst ha
  rw [load, if_pos (Int.natCast_nonneg _), Int.toNat_natCast, hb, List.getElem?_append_right le_rfl,
    Nat.sub_self]
  rfl

/-- A string is read up to its terminator. -/
theorem findIdx?_nul (h : (0 : UInt8) ∉ s) (r : List UInt8) :
    (s ++ (0 :: r)).findIdx? (· == 0) = some s.length := by
  induction s with
  | nil => rfl
  | cons x xs ih =>
      have hx : (x == 0) = false := by
        rw [beq_eq_false_iff_ne]
        intro hx
        exact h (by rw [hx]; exact List.mem_cons_self ..)
      rw [List.cons_append, List.findIdx?_cons, hx,
        ih (fun hm => h (List.mem_cons_of_mem _ hm))]
      rfl

theorem strlen_mid (hb : o.bytes = l ++ (s ++ (0 :: r))) (ha : a = l.length)
    (h : (0 : UInt8) ∉ s) : o.strlen a = some s.length := by
  subst ha
  rw [strlen, if_pos (Int.natCast_nonneg _), Int.toNat_natCast, hb, List.drop_left,
    findIdx?_nul h]

theorem string_mid (hb : o.bytes = l ++ (s ++ (0 :: r))) (ha : a = l.length)
    (h : (0 : UInt8) ∉ s) : o.string a = some s := by
  rw [string, strlen_mid hb ha h, Option.bind_eq_bind, Option.bind_some, read_mid hb ha]

/-- The comparison of a string with a longer one tells whether it is the start of it. -/
theorem strncmp_mid {xs : List UInt8} (hb : o.bytes = l ++ (s ++ (0 :: r))) (ha : a = l.length)
    (hx : (0 : UInt8) ∉ xs) : ∃ d, o.strncmp xs a = some d ∧ (d = 0 ↔ xs <+: s) := by
  induction xs generalizing l s a with
  | nil => exact ⟨0, rfl, by simp⟩
  | cons x xs ih =>
      have hne {c : UInt8} (hc : x ≠ c) : (x.toNat : ℤ) - c.toNat ≠ 0 := by
        have : x.toNat ≠ c.toNat := fun h => hc (UInt8.toNat_inj.1 h)
        omega
      cases s with
      | nil =>
          have hx0 : x ≠ 0 := fun h0 => hx (by simp [h0])
          rw [strncmp, load_mid hb ha, Option.bind_eq_bind, Option.bind_some, if_neg hx0]
          exact ⟨_, rfl, by simpa using hne hx0⟩
      | cons c s =>
          rw [strncmp, load_mid hb ha, Option.bind_eq_bind, Option.bind_some]
          by_cases hxc : x = c
          · rw [if_pos hxc, hxc]
            simpa using ih (l := l ++ [c]) (s := s) (a := a + 1) (by simpa using hb) (by simp [ha])
              (fun hm => hx (List.mem_cons_of_mem _ hm))
          · rw [if_neg hxc]
            exact ⟨_, rfl, by simpa [hxc] using hne hxc⟩

/-- A NUL where the pointer points is the empty string. -/
theorem strlen_eq_zero (h : o.load a = some 0) : o.strlen a = some 0 := by
  unfold load at h
  split_ifs at h with hpos
  obtain ⟨hlt, hget⟩ := List.getElem?_eq_some_iff.1 h
  rw [strlen, if_pos hpos, List.drop_eq_getElem_cons hlt, hget]
  rfl

theorem store_eq {a : ℕ} (h : a < o.bytes.length) (b : UInt8) :
    o.store a b = some ⟨o.bytes.set a b, o.written ++ span a 1⟩ := by
  have hb : o.bytes = o.bytes.take a ++ (o.bytes[a] :: o.bytes.drop (a + 1)) := by
    rw [← List.drop_eq_getElem_cons h, List.take_append_drop]
  rw [store_mid hb (by rw [List.length_take]; omega), List.set_eq_take_append_cons_drop, if_pos h]

/-! ## Moving by one place -/

/-- What is moved one place up leaves its first byte behind. -/
theorem memmove_right {x : UInt8} (hb : o.bytes = l ++ (s ++ (x :: r))) {d : ℤ}
    (ha : a = l.length) (hd : d = a + 1) :
    ∃ y, o.memmove d a s.length =
      some ⟨l ++ (y :: (s ++ r)), o.written ++ span d s.length⟩ := by
  have hread : o.read a s.length = some s := read_mid hb ha
  cases s with
  | nil =>
      refine ⟨x, ?_⟩
      have hw : o.write d [] = some ⟨(l ++ [x]) ++ ([] ++ r), o.written ++ span d 0⟩ :=
        write_mid (m := []) (by rw [hb]; simp) (by simp [hd, ha]) rfl
      rw [memmove, hread]
      simpa using hw
  | cons y ys =>
      refine ⟨y, ?_⟩
      have hw : o.write d (y :: ys) =
          some ⟨(l ++ [y]) ++ ((y :: ys) ++ r), o.written ++ span d (y :: ys).length⟩ :=
        write_mid (m := ys ++ [x]) (by rw [hb]; simp) (by simp [hd, ha])
          (by simp)
      rw [memmove, hread]
      simpa using hw

/-- What is moved one place down leaves a byte behind it. -/
theorem memmove_left {x : UInt8} (hb : o.bytes = l ++ (x :: (s ++ r))) {d : ℤ}
    (hd : d = l.length) (ha : a = d + 1) :
    ∃ y, o.memmove d a s.length =
      some ⟨l ++ (s ++ (y :: r)), o.written ++ span d s.length⟩ := by
  have hread : o.read a s.length = some s :=
    read_mid (l := l ++ [x]) (r := r) (by rw [hb]; simp) (by simp [hd, ha])
  obtain ⟨ys, y, hxs⟩ : ∃ ys y, x :: s = ys ++ [y] :=
    ⟨(x :: s).dropLast, (x :: s).getLast (by simp), (List.dropLast_append_getLast _).symm⟩
  have hlen : s.length = ys.length := by
    have := congrArg List.length hxs
    simpa using this
  have hw : o.write d s = some ⟨l ++ (s ++ (y :: r)), o.written ++ span d s.length⟩ :=
    write_mid (m := ys) (r := y :: r)
      (by rw [hb, ← List.cons_append, hxs]; simp) hd hlen
  refine ⟨y, ?_⟩
  rw [memmove, hread]
  exact hw

theorem takeWhile_nul (h : (0 : UInt8) ∉ s) (r : List UInt8) :
    (s ++ (0 :: r)).takeWhile (· ≠ 0) = s := by
  induction s with
  | nil => rfl
  | cons x xs ih =>
      have hx : x ≠ 0 := fun hx => h (by rw [hx]; exact List.mem_cons_self ..)
      rw [List.cons_append, List.takeWhile_cons_of_pos (by simpa using hx),
        ih (fun hm => h (List.mem_cons_of_mem _ hm))]

theorem takeWhile_of_not_mem (h : (0 : UInt8) ∉ s) : s.takeWhile (· ≠ 0) = s := by
  rw [List.takeWhile_eq_self_iff]
  intro c hc
  have : c ≠ 0 := fun h0 => h (h0 ▸ hc)
  simpa using this

/-- A string that fits is copied and the rest of the buffer filled with NULs. -/
theorem strncpy_mid {p q t : List UInt8} {d : ℤ} {n : ℕ}
    (hs : o.bytes = l ++ (s ++ (0 :: r))) (ha : a = l.length) (h : (0 : UInt8) ∉ s)
    (hfit : s.length ≤ n) (hd : o.bytes = p ++ (q ++ t)) (hd' : d = p.length)
    (hlen : q.length = n) :
    o.strncpy d a n = some ⟨p ++ ((s ++ List.replicate (n - s.length) 0) ++ t),
      o.written ++ span d n⟩ := by
  have hlt : l.length + s.length < o.bytes.length := by
    rw [hs]
    simp
  have hout : (s ++ List.replicate (n - s.length) (0 : UInt8)).length = n := by
    simp
    omega
  subst ha
  have hchars : o.chars l.length = some s := by
    rw [chars, if_pos (Int.natCast_nonneg _), Int.toNat_natCast, hs, List.drop_left,
      takeWhile_nul h]
  rw [strncpy, hchars, Option.bind_eq_bind, Option.bind_some, Int.toNat_natCast]
  rw [if_neg (by omega), List.take_of_length_le hfit, write_mid hd hd' (hout.trans hlen.symm),
    hout]

end CObject
