import Mathlib.Data.List.Basic
import Mathlib.Data.List.Induction
import Mathlib.Data.Nat.Notation
import Mathlib.Algebra.Order.Group.Nat

set_option autoImplicit false

/-! # Byte strings

Little-endian numbers of a fixed width, slices of a byte string, and writing over the front of a
buffer. A slice inside a byte string is not changed by what is appended to it, which is what makes
an append-only log readable. -/

namespace Bytes

/-! ## Little-endian numbers -/

/-- The `w` low bytes of `n`, least significant first. -/
def ofNatLE : ℕ → ℕ → List UInt8
  | 0, _ => []
  | w + 1, n => UInt8.ofNat n :: ofNatLE w (n / 256)

/-- The number a byte string stands for, least significant byte first. -/
def toNatLE : List UInt8 → ℕ
  | [] => 0
  | b :: bs => b.toNat + 256 * toNatLE bs

@[simp] theorem length_ofNatLE (w n : ℕ) : (ofNatLE w n).length = w := by
  induction w generalizing n with
  | zero => rfl
  | succ w ih => rw [ofNatLE, List.length_cons, ih]

theorem toNatLE_ofNatLE (w n : ℕ) (h : n < 256 ^ w) : toNatLE (ofNatLE w n) = n := by
  induction w generalizing n with
  | zero =>
      rw [pow_zero] at h
      rw [ofNatLE, toNatLE]
      omega
  | succ w ih =>
      rw [pow_succ] at h
      rw [ofNatLE, toNatLE, ih (n / 256) (by omega)]
      show n % 256 + 256 * (n / 256) = n
      omega

/-! ## Slices -/

variable {α : Type}

/-- The `len` elements from position `off` on. -/
def slice (l : List α) (off len : ℕ) : List α := (l.drop off).take len

theorem length_slice {l : List α} {off len : ℕ} (h : off + len ≤ l.length) :
    (slice l off len).length = len := by
  unfold slice
  rw [List.length_take, List.length_drop]
  omega

theorem slice_append_left {l : List α} (m : List α) {off len : ℕ} (h : off + len ≤ l.length) :
    slice (l ++ m) off len = slice l off len := by
  unfold slice
  rw [List.drop_append_of_le_length (by omega),
    List.take_append_of_le_length (by rw [List.length_drop]; omega)]

theorem slice_append_right (l m : List α) (off len : ℕ) :
    slice (l ++ m) (l.length + off) len = slice m off len := by
  unfold slice
  rw [← List.drop_drop, List.drop_left]

/-- The slice is a part whose place is known. -/
theorem slice_mid (l m r : List α) : slice (l ++ (m ++ r)) l.length m.length = m := by
  have := slice_append_right l (m ++ r) 0 m.length
  rw [Nat.add_zero] at this
  rw [this, slice, List.drop_zero, List.take_left]

theorem slice_of_prefix {l l' : List α} (hp : l <+: l') {off len : ℕ} (h : off + len ≤ l.length) :
    slice l' off len = slice l off len := by
  obtain ⟨m, rfl⟩ := hp
  exact slice_append_left m h

/-- The elements before `n` are in no slice behind them. -/
theorem slice_of_drop {l l' : List α} {n off : ℕ} (h : l.drop n = l'.drop n) (hoff : n ≤ off)
    (len : ℕ) : slice l off len = slice l' off len := by
  obtain ⟨k, rfl⟩ := Nat.exists_eq_add_of_le hoff
  unfold slice
  rw [← List.drop_drop, ← List.drop_drop, h]

/-! ## Writing into a buffer -/

/-- The buffer after `bs` was written to its front. -/
def overwrite (buf bs : List α) : List α := bs ++ buf.drop bs.length

theorem length_overwrite {buf bs : List α} (h : bs.length ≤ buf.length) :
    (overwrite buf bs).length = buf.length := by
  unfold overwrite
  rw [List.length_append, List.length_drop]
  omega

theorem take_overwrite (buf bs : List α) {n : ℕ} (h : n ≤ bs.length) :
    (overwrite buf bs).take n = bs.take n := by
  unfold overwrite
  exact List.take_append_of_le_length h

theorem overwrite_nil (buf : List α) : overwrite buf [] = buf := rfl

/-! ## Several writes -/

/-- The buffer after the first `cap` elements of each list were written to its front, one list after
    the other. -/
def overlay (cap : ℕ) (buf : List α) (vs : List (List α)) : List α :=
  vs.foldl (fun b v => overwrite b (v.take cap)) buf

theorem overlay_zero (buf : List α) (vs : List (List α)) : overlay 0 buf vs = buf := by
  induction vs with
  | nil => rfl
  | cons v vs ih => exact ih

theorem length_overlay {cap : ℕ} {buf : List α} (vs : List (List α)) (h : cap ≤ buf.length) :
    (overlay cap buf vs).length = buf.length := by
  induction vs generalizing buf with
  | nil => rfl
  | cons v vs ih =>
      have hlen : (overwrite buf (v.take cap)).length = buf.length :=
        length_overwrite (by rw [List.length_take]; omega)
      exact (ih (by rw [hlen]; exact h)).trans hlen

end Bytes
