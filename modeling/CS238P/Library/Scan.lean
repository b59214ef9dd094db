import CS238P.Library.Decimal

set_option autoImplicit false

/-! # Numbers in a text

`scan` reads decimal numbers off the front of a text, as `scanf` does: it skips white space before
each of them, takes all the digits there are, and stops where it finds no number. What is white
space is a parameter. `reads_iff` says of which texts it reads how many numbers. -/

namespace Scan

/-- A sign, or none, and the factor it stands for. -/
inductive Sign : List Char → ℤ → Prop
  | none : Sign [] 1
  | plus : Sign ['+'] 1
  | minus : Sign ['-'] (-1)

/-- The text begins with the numbers: white space, a sign, digits, and no digit behind them. -/
inductive Reads (space : Char → Bool) : List Char → List ℤ → Prop
  | done (s : List Char) : Reads space s []
  | number {ws sg ds r : List Char} {e : ℤ} {zs : List ℤ} (hws : ∀ c ∈ ws, space c)
      (hsg : Sign sg e) (hne : ds ≠ []) (hds : ∀ c ∈ ds, c.isDigit)
      (hr : ∀ c ∈ r.head?, ¬ c.isDigit) (h : Reads space r zs) :
      Reads space (ws ++ (sg ++ (ds ++ r))) (e * Nat.ofDigitChars 10 ds 0 :: zs)

/-- The sign at the front of a text, and what follows it. -/
def sign : List Char → ℤ × List Char
  | '+' :: t => (1, t)
  | '-' :: t => (-1, t)
  | t => (1, t)

/-- The digits at the front of a text, and what follows them. -/
def digits (s : List Char) : Option (ℕ × List Char) :=
  if s.takeWhile Char.isDigit = [] then none
  else some (Nat.ofDigitChars 10 (s.takeWhile Char.isDigit) 0, s.dropWhile Char.isDigit)

/-- The number at the front of a text, and what follows it. -/
def number (space : Char → Bool) (s : List Char) : Option (ℤ × List Char) :=
  let (e, t) := sign (s.dropWhile space)
  (digits t).map fun (n, r) => (e * n, r)

/-- The numbers at the front of a text, `n` of them at most. -/
def scan (space : Char → Bool) : ℕ → List Char → List ℤ
  | 0, _ => []
  | n + 1, s =>
      match number space s with
      | none => []
      | some (z, r) => z :: scan space n r

variable {space : Char → Bool} {s t r ws sg ds : List Char} {e z : ℤ} {zs : List ℤ} {n : ℕ}

/-! ## One number -/

theorem sign_append (h : Sign sg e) (hne : ds ≠ []) (hds : ∀ c ∈ ds, c.isDigit) :
    sign (sg ++ (ds ++ r)) = (e, ds ++ r) := by
  cases h with
  | plus => rfl
  | minus => rfl
  | none =>
      obtain ⟨d, ds, rfl⟩ := List.exists_cons_of_ne_nil hne
      have hd : d.isDigit := hds d (by simp)
      rw [List.nil_append, List.cons_append]
      unfold sign
      split
      · rename_i heq
        obtain rfl := (List.cons.inj heq).1
        exact absurd hd (by decide)
      · rename_i heq
        obtain rfl := (List.cons.inj heq).1
        exact absurd hd (by decide)
      · rfl

theorem exists_sign (h : sign s = (e, t)) : ∃ sg, s = sg ++ t ∧ Sign sg e := by
  unfold sign at h
  split at h
  · obtain ⟨rfl, rfl⟩ := Prod.mk.inj h
    exact ⟨_, rfl, .plus⟩
  · obtain ⟨rfl, rfl⟩ := Prod.mk.inj h
    exact ⟨_, rfl, .minus⟩
  · obtain ⟨rfl, rfl⟩ := Prod.mk.inj h
    exact ⟨_, rfl, .none⟩

theorem digits_append (hne : ds ≠ []) (hds : ∀ c ∈ ds, c.isDigit)
    (hr : ∀ c ∈ r.head?, ¬ c.isDigit) :
    digits (ds ++ r) = some (Nat.ofDigitChars 10 ds 0, r) := by
  rw [digits, Decimal.takeWhile_isDigit hds hr, Decimal.dropWhile_isDigit hds hr, if_neg hne]

theorem exists_digits (h : digits s = some (n, r)) :
    ∃ ds, s = ds ++ r ∧ ds ≠ [] ∧ (∀ c ∈ ds, c.isDigit) ∧ n = Nat.ofDigitChars 10 ds 0 ∧
      ∀ c ∈ r.head?, ¬ c.isDigit := by
  unfold digits at h
  split at h
  · cases h
  rename_i hne
  obtain ⟨rfl, rfl⟩ := Prod.mk.inj (Option.some.inj h)
  refine ⟨s.takeWhile Char.isDigit, List.takeWhile_append_dropWhile.symm, hne,
    fun c hc => List.mem_takeWhile_imp hc, rfl, fun c hc => ?_⟩
  have hhead := List.head?_dropWhile_not Char.isDigit s
  rw [Option.mem_def.1 hc] at hhead
  simpa using hhead

/-- No character of a number is white space. -/
def Separates (space : Char → Bool) : Prop := ∀ c, c.isDigit ∨ c = '+' ∨ c = '-' → space c = false

/-- White space in front of a number is skipped, and nothing of the number. -/
theorem dropWhile_number (hspace : Separates space) (hws : ∀ c ∈ ws, space c) (hsg : Sign sg e)
    (hne : ds ≠ []) (hds : ∀ c ∈ ds, c.isDigit) :
    (ws ++ (sg ++ (ds ++ r))).dropWhile space = sg ++ (ds ++ r) := by
  rw [List.dropWhile_append_of_pos hws]
  cases hsg with
  | plus => exact List.dropWhile_cons_of_neg (by simp [hspace '+' (by simp)])
  | minus => exact List.dropWhile_cons_of_neg (by simp [hspace '-' (by simp)])
  | none =>
      obtain ⟨d, ds, rfl⟩ := List.exists_cons_of_ne_nil hne
      exact List.dropWhile_cons_of_neg (by simp [hspace d (.inl (hds d (by simp)))])

theorem number_append (hspace : Separates space) (hws : ∀ c ∈ ws, space c) (hsg : Sign sg e)
    (hne : ds ≠ []) (hds : ∀ c ∈ ds, c.isDigit) (hr : ∀ c ∈ r.head?, ¬ c.isDigit) :
    number space (ws ++ (sg ++ (ds ++ r))) = some (e * Nat.ofDigitChars 10 ds 0, r) := by
  rw [number, dropWhile_number hspace hws hsg hne hds, sign_append hsg hne hds]
  simp only [digits_append hne hds hr, Option.map_some]

theorem exists_number (h : number space s = some (z, r)) :
    ∃ ws sg ds e, s = ws ++ (sg ++ (ds ++ r)) ∧ (∀ c ∈ ws, space c) ∧ Sign sg e ∧ ds ≠ [] ∧
      (∀ c ∈ ds, c.isDigit) ∧ (∀ c ∈ r.head?, ¬ c.isDigit) ∧ z = e * Nat.ofDigitChars 10 ds 0 := by
  obtain ⟨⟨n, r'⟩, hdigits, heq⟩ := Option.map_eq_some_iff.1 h
  obtain ⟨rfl, rfl⟩ := Prod.mk.inj heq
  obtain ⟨sg, hsg, hsign⟩ := exists_sign (s := s.dropWhile space) rfl
  obtain ⟨ds, hds, hne, hdigit, rfl, hr⟩ := exists_digits hdigits
  refine ⟨s.takeWhile space, sg, ds, _, ?_, fun c hc => List.mem_takeWhile_imp hc, hsign, hne,
    hdigit, hr, rfl⟩
  rw [← hds, ← hsg, List.takeWhile_append_dropWhile]

/-! ## Several numbers -/

/-- **What is read** is what the text begins with. -/
theorem reads_iff (hspace : Separates space) : Reads space s zs ↔ scan space zs.length s = zs := by
  constructor
  · intro h
    induction h with
    | done s => rfl
    | number hws hsg hne hds hr h ih =>
        rw [List.length_cons, scan, number_append hspace hws hsg hne hds hr]
        simp only [ih]
  · intro h
    induction zs generalizing s with
    | nil => exact .done s
    | cons z zs ih =>
        rw [List.length_cons, scan] at h
        split at h
        · cases h
        · rename_i z' r hnumber
          obtain ⟨rfl, hzs⟩ := List.cons.inj h
          obtain ⟨ws, sg, ds, e, rfl, hws, hsg, hne, hds, hr, rfl⟩ := exists_number hnumber
          exact .number hws hsg hne hds hr (ih hzs)

end Scan
