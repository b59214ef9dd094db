import Mathlib.Data.Tree.Basic
import Mathlib.Data.Nat.Fib.Basic
import Mathlib.Data.Nat.Log
import Mathlib.Tactic.Ring

set_option autoImplicit false

/-! # Height-balanced trees

A binary tree in which no two siblings differ in height by more than one has as many nodes as a
Fibonacci number at least, so that its height is logarithmic in the number of its nodes. -/

namespace BinaryTree

open Nat

variable {α : Type}

/-- No two siblings differ in height by more than one. -/
def HeightBalanced : BinaryTree α → Prop
  | nil => True
  | node _ l r => l.height ≤ r.height + 1 ∧ r.height ≤ l.height + 1 ∧
      l.HeightBalanced ∧ r.HeightBalanced

/-- **A tree of this height has that many nodes.** -/
theorem HeightBalanced.fib_le {t : BinaryTree α} (h : t.HeightBalanced) :
    fib (t.height + 2) ≤ t.numNodes + 1 := by
  induction t with
  | nil => simp
  | node a l r ihl ihr =>
      obtain ⟨hl, hr, hbl, hbr⟩ := h
      have hnl := ihl hbl
      have hnr := ihr hbr
      -- the lower subtree is one level lower at most
      have hsum (k : ℕ) : fib (k + 1 + 2) = fib (k + 1) + fib (k + 2) := fib_add_two
      rw [height, numNodes]
      rcases le_total l.height r.height with hle | hle
      · have hlow := fib_mono (show r.height + 1 ≤ l.height + 2 by omega)
        rw [max_eq_right hle, hsum r.height]
        omega
      · have hlow := fib_mono (show l.height + 1 ≤ r.height + 2 by omega)
        rw [max_eq_left hle, hsum l.height]
        omega

/-- Fibonacci numbers double with every second one. -/
theorem two_pow_le_fib (n : ℕ) : 2 ^ (n / 2) ≤ fib (n + 2) := by
  induction n using Nat.twoStepInduction with
  | zero => simp
  | one => simp [fib_add_two]
  | more n ih _ =>
      have hmono := fib_mono (show n + 2 ≤ n + 3 by omega)
      calc 2 ^ ((n + 2) / 2) = 2 * 2 ^ (n / 2) := by
            rw [show (n + 2) / 2 = n / 2 + 1 by omega]
            ring
        _ ≤ 2 * fib (n + 2) := by omega
        _ ≤ fib (n + 2) + fib (n + 3) := by omega
        _ = fib (n + 2 + 2) := fib_add_two.symm

/-- **The height is logarithmic.** -/
theorem HeightBalanced.height_le_log {t : BinaryTree α} (h : t.HeightBalanced) :
    t.height ≤ 2 * Nat.log 2 (t.numNodes + 1) + 1 := by
  have hpow := (two_pow_le_fib t.height).trans h.fib_le
  have hlog := Nat.le_log_of_pow_le (by decide) hpow
  omega

end BinaryTree
