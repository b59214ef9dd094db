import Mathlib.Order.Lattice
import Mathlib.Data.List.Lex

set_option autoImplicit false

/-! # C strings and `strcmp`

A C string is the sequence of its bytes before the terminating NUL, so no byte of it is zero.
`strcmp` compares the bytes as `unsigned char`, the terminator included. Only the sign of its result
is specified by C; `strcmp_neg_iff` and `strcmp_eq_zero_iff` say that this sign is the lexicographic
order, which is what makes the strings a linear order. -/

/-- The bytes of a C string, without the terminating NUL. -/
structure CString where
  bytes : List UInt8
  /-- The terminator is the first NUL. -/
  nulFree : (0 : UInt8) ∉ bytes

namespace CString

/-- `strcmp` on the bytes: the difference at the first place where the two strings differ, the
    terminator standing after the last byte. -/
def strcmpBytes : List UInt8 → List UInt8 → ℤ
  | [], [] => 0
  | [], y :: _ => 0 - y.toNat
  | x :: _, [] => x.toNat - 0
  | x :: xs, y :: ys => if x = y then strcmpBytes xs ys else (x.toNat : ℤ) - y.toNat

def strcmp (a b : CString) : ℤ := strcmpBytes a.bytes b.bytes

/-- The byte values, whose lexicographic order is the order of `strcmp`. -/
def codes (s : CString) : List ℕ := s.bytes.map UInt8.toNat

theorem codes_injective : Function.Injective codes := by
  intro a b h
  obtain ⟨as, ha⟩ := a
  obtain ⟨bs, hb⟩ := b
  have : as = bs := List.map_injective_iff.2 (fun x y hxy => UInt8.toNat_inj.1 hxy) h
  subst this
  rfl

instance : LinearOrder CString := LinearOrder.lift' codes codes_injective

theorem toNat_pos_of_mem {x : UInt8} {xs : List UInt8} (h : (0 : UInt8) ∉ x :: xs) :
    0 < x.toNat := by
  rcases Nat.eq_zero_or_pos x.toNat with hx | hx
  · exact absurd (UInt8.toNat_inj.1 (hx.trans (by rfl : (0 : ℕ) = (0 : UInt8).toNat)))
      (fun he => h (by rw [he]; exact List.mem_cons_self ..))
  · exact hx

theorem strcmpBytes_spec (xs ys : List UInt8) (hx : (0 : UInt8) ∉ xs) (hy : (0 : UInt8) ∉ ys) :
    (strcmpBytes xs ys < 0 ↔ xs.map UInt8.toNat < ys.map UInt8.toNat) ∧
      (strcmpBytes xs ys = 0 ↔ xs = ys) := by
  induction xs generalizing ys with
  | nil =>
      cases ys with
      | nil => simp [strcmpBytes]
      | cons y ys =>
          have hpos := toNat_pos_of_mem hy
          simp only [strcmpBytes, List.map_nil, List.map_cons]
          exact ⟨⟨fun _ => List.nil_lt_cons .., fun _ => by omega⟩,
            ⟨fun h => by omega, fun h => absurd h (by simp)⟩⟩
  | cons x xs ih =>
      cases ys with
      | nil =>
          have hpos := toNat_pos_of_mem hx
          simp only [strcmpBytes, List.map_nil, List.map_cons]
          exact ⟨⟨fun h => by omega, fun h => absurd h (List.not_lt_nil _)⟩,
            ⟨fun h => by omega, fun h => absurd h (by simp)⟩⟩
      | cons y ys =>
          simp only [strcmpBytes, List.map_cons, List.cons_lt_cons_iff]
          split_ifs with hxy
          · subst hxy
            have := ih ys (fun h => hx (List.mem_cons_of_mem _ h))
              (fun h => hy (List.mem_cons_of_mem _ h))
            simpa using this
          · have hne : x.toNat ≠ y.toNat := fun h => hxy (UInt8.toNat_inj.1 h)
            refine ⟨⟨fun h => Or.inl (by omega), fun h => ?_⟩, ⟨fun h => by omega, fun h => ?_⟩⟩
            · rcases h with h | ⟨h, _⟩ <;> omega
            · exact absurd (List.cons.inj h).1 hxy

/-- **A negative `strcmp` is the strict order.** -/
theorem strcmp_neg_iff (a b : CString) : strcmp a b < 0 ↔ a < b :=
  (strcmpBytes_spec a.bytes b.bytes a.nulFree b.nulFree).1

theorem strcmp_eq_zero_iff (a b : CString) : strcmp a b = 0 ↔ a = b := by
  rw [strcmp, (strcmpBytes_spec a.bytes b.bytes a.nulFree b.nulFree).2]
  constructor
  · intro h
    obtain ⟨as, ha⟩ := a
    obtain ⟨bs, hb⟩ := b
    simp only at h
    subst h
    rfl
  · rintro rfl
    rfl

theorem strcmp_pos_iff (a b : CString) : 0 < strcmp a b ↔ b < a := by
  have hneg := strcmp_neg_iff a b
  have hzero := strcmp_eq_zero_iff a b
  constructor
  · intro h
    refine lt_of_not_ge (fun hle => ?_)
    rcases lt_or_eq_of_le hle with hlt | heq
    · have := hneg.2 hlt; omega
    · have := hzero.2 heq; omega
  · intro h
    have h1 : ¬ strcmp a b < 0 := fun hlt => lt_asymm h (hneg.1 hlt)
    have h2 : strcmp a b ≠ 0 := fun he => ne_of_lt h (hzero.1 he).symm
    omega

end CString
