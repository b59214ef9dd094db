import Mathlib.Data.List.TakeWhile
import Mathlib.Data.Rat.Floor
import Mathlib.Tactic.Positivity
import Mathlib.Tactic.FieldSimp
import Mathlib.Tactic.Linarith
import Mathlib.Tactic.Ring

set_option autoImplicit false

/-! # Plain decimal numerals

Digits with an optional fraction, no sign and no exponent: `Numeral` with its text and its value as
a rational. `read` takes the longest numeral off the front of a text (`exists_read`).

`fixed k n` writes the number `n / 10 ^ k` with `k` digits behind the point; rounding a number to a
multiple of `10⁻ᵏ` keeps it exactly if its numeral has only zeros from the `k`-th place on. -/

namespace Decimal

/-- At least one digit; the fraction, if there is a point, is what stands behind it. -/
@[ext]
structure Numeral where
  whole : List Char
  frac : Option (List Char)
  isDigit : ∀ c ∈ whole ++ frac.getD [], c.isDigit
  nonempty : whole ++ frac.getD [] ≠ []

theorem toNat_of_isDigit {c : Char} (h : c.isDigit) : 48 ≤ c.toNat ∧ c.toNat ≤ 57 := by
  simp only [Char.isDigit, ge_iff_le, Bool.and_eq_true, decide_eq_true_eq] at h
  exact ⟨UInt32.le_iff_toNat_le.1 h.1, UInt32.le_iff_toNat_le.1 h.2⟩

namespace Numeral

/-- The digits of the fraction. -/
def places (n : Numeral) : List Char := n.frac.getD []

def digits (n : Numeral) : List Char := n.whole ++ n.places

def text (n : Numeral) : List Char :=
  match n.frac with
  | none => n.whole
  | some f => n.whole ++ '.' :: f

/-- The number a numeral denotes. -/
def value (n : Numeral) : ℚ := Nat.ofDigitChars 10 n.digits 0 / 10 ^ n.places.length

theorem isDigit_whole (n : Numeral) : ∀ c ∈ n.whole, c.isDigit := fun c hc =>
  n.isDigit c (List.mem_append_left _ hc)

theorem isDigit_places (n : Numeral) : ∀ c ∈ n.places, c.isDigit := fun c hc =>
  n.isDigit c (List.mem_append_right _ hc)

/-- A numeral starts with a digit or a point. -/
theorem exists_text_eq_cons (n : Numeral) : ∃ c s, n.text = c :: s ∧ (c.isDigit ∨ c = '.') := by
  obtain ⟨whole, frac, hdigit, hne⟩ := n
  cases whole with
  | cons c w =>
      refine ⟨c, w ++ frac.elim [] ('.' :: ·), ?_, .inl (hdigit c (by simp))⟩
      cases frac <;> simp [text]
  | nil =>
      cases frac with
      | none => exact absurd rfl hne
      | some f => exact ⟨'.', f, rfl, .inr rfl⟩

/-- The numeral with these parts, if it is one. -/
def ofParts (whole : List Char) (frac : Option (List Char)) : Option Numeral :=
  if h : (whole ++ frac.getD []).all Char.isDigit ∧ whole ++ frac.getD [] ≠ [] then
    some ⟨whole, frac, List.all_eq_true.1 h.1, h.2⟩
  else none

@[simp] theorem ofParts_self (n : Numeral) : ofParts n.whole n.frac = some n :=
  dif_pos ⟨List.all_eq_true.2 n.isDigit, n.nonempty⟩

theorem ofParts_eq_some {w : List Char} {f : Option (List Char)} {n : Numeral}
    (h : ofParts w f = some n) : n.whole = w ∧ n.frac = f := by
  unfold ofParts at h
  split at h
  · cases h
    exact ⟨rfl, rfl⟩
  · cases h

theorem exists_ofParts {w : List Char} {f : Option (List Char)}
    (hdigit : ∀ c ∈ w ++ f.getD [], c.isDigit) (hne : w ++ f.getD [] ≠ []) :
    ∃ n, ofParts w f = some n :=
  ⟨_, dif_pos ⟨List.all_eq_true.2 hdigit, hne⟩⟩

end Numeral

/-! ## Reading -/

/-- The longest numeral at the front of a text, and what follows it. -/
def read (s : List Char) : Option (Numeral × List Char) :=
  match s.dropWhile Char.isDigit with
  | '.' :: t =>
      (Numeral.ofParts (s.takeWhile Char.isDigit) (some (t.takeWhile Char.isDigit))).map
        (·, t.dropWhile Char.isDigit)
  | t => (Numeral.ofParts (s.takeWhile Char.isDigit) none).map (·, t)

theorem takeWhile_isDigit {w t : List Char} (hw : ∀ c ∈ w, c.isDigit)
    (ht : ∀ c ∈ t.head?, ¬ c.isDigit) : (w ++ t).takeWhile Char.isDigit = w := by
  rw [List.takeWhile_append_of_pos hw]
  cases t with
  | nil => simp
  | cons c t => rw [List.takeWhile_cons_of_neg (ht c rfl), List.append_nil]

theorem dropWhile_isDigit {w t : List Char} (hw : ∀ c ∈ w, c.isDigit)
    (ht : ∀ c ∈ t.head?, ¬ c.isDigit) : (w ++ t).dropWhile Char.isDigit = t := by
  rw [List.dropWhile_append_of_pos hw]
  cases t with
  | nil => rfl
  | cons c t => exact List.dropWhile_cons_of_neg (ht c rfl)

/-- What is read is a front of the text. -/
theorem eq_text_append {s r : List Char} {n : Numeral} (h : read s = some (n, r)) :
    s = n.text ++ r := by
  have hs : s.takeWhile Char.isDigit ++ s.dropWhile Char.isDigit = s :=
    List.takeWhile_append_dropWhile
  unfold read at h
  split at h
  · case _ t heq =>
      obtain ⟨m, hm, hmr⟩ := Option.map_eq_some_iff.1 h
      cases hmr
      obtain ⟨hwhole, hfrac⟩ := Numeral.ofParts_eq_some hm
      simp only [Numeral.text, hfrac, hwhole, List.append_assoc, List.cons_append,
        List.takeWhile_append_dropWhile]
      rw [← heq, hs]
  · obtain ⟨m, hm, hmr⟩ := Option.map_eq_some_iff.1 h
    cases hmr
    obtain ⟨hwhole, hfrac⟩ := Numeral.ofParts_eq_some hm
    simp only [Numeral.text, hfrac, hwhole]
    exact hs.symm

/-- Digits and a point: the fraction is read as far as its digits go. -/
theorem read_point {w t : List Char} (hw : ∀ c ∈ w, c.isDigit) :
    read (w ++ '.' :: t) =
      (Numeral.ofParts w (some (t.takeWhile Char.isDigit))).map (·, t.dropWhile Char.isDigit) := by
  have hpoint : ∀ c ∈ ('.' :: t).head?, ¬ c.isDigit := by simp
  rw [read, dropWhile_isDigit hw hpoint, takeWhile_isDigit hw hpoint]
  rfl

/-- Digits without a point behind them. -/
theorem read_whole {w t : List Char} (hw : ∀ c ∈ w, c.isDigit) (ht : ∀ c ∈ t.head?, ¬ c.isDigit)
    (hpoint : t.head? ≠ some '.') : read (w ++ t) = (Numeral.ofParts w none).map (·, t) := by
  rw [read, dropWhile_isDigit hw ht, takeWhile_isDigit hw ht]
  split
  · exact absurd rfl hpoint
  · rfl

/-- A numeral is read where no longer one starts. -/
theorem read_text (n : Numeral) {r : List Char} (hr : ∀ c ∈ r.head?, ¬ c.isDigit)
    (hpoint : r.head? ≠ some '.') : read (n.text ++ r) = some (n, r) := by
  cases hf : n.frac with
  | none =>
      rw [Numeral.text, hf]
      show read (n.whole ++ r) = _
      rw [read_whole n.isDigit_whole hr hpoint, ← hf, Numeral.ofParts_self]
      rfl
  | some f =>
      have hplaces : ∀ c ∈ f, c.isDigit := by simpa [Numeral.places, hf] using n.isDigit_places
      rw [Numeral.text, hf]
      show read ((n.whole ++ '.' :: f) ++ r) = _
      rw [List.append_assoc, List.cons_append, read_point n.isDigit_whole,
        takeWhile_isDigit hplaces hr, dropWhile_isDigit hplaces hr, ← hf, Numeral.ofParts_self]
      rfl

/-- Digits with a point among them: all of them are read, and maybe more. -/
theorem exists_read_point {w f r : List Char} (hw : ∀ c ∈ w, c.isDigit) (hf : ∀ c ∈ f, c.isDigit)
    (hne : w ++ f ≠ []) :
    ∃ n r', read (w ++ '.' :: (f ++ r)) = some (n, r') ∧ w.length + f.length < n.text.length := by
  have hmore : (f ++ r).takeWhile Char.isDigit = f ++ r.takeWhile Char.isDigit :=
    List.takeWhile_append_of_pos hf
  have hdigit : ∀ c ∈ w ++ (f ++ r.takeWhile Char.isDigit), c.isDigit := by
    intro c hc
    simp only [List.mem_append] at hc
    rcases hc with hc | hc | hc
    · exact hw c hc
    · exact hf c hc
    · exact List.mem_takeWhile_imp hc
  have hne' : w ++ (f ++ r.takeWhile Char.isDigit) ≠ [] := by
    intro hnil
    simp only [List.append_eq_nil_iff] at hnil
    exact hne (by simp [hnil])
  obtain ⟨n, hn⟩ := Numeral.exists_ofParts (f := some (f ++ r.takeWhile Char.isDigit)) hdigit hne'
  obtain ⟨hwhole, hfrac⟩ := Numeral.ofParts_eq_some hn
  refine ⟨n, (f ++ r).dropWhile Char.isDigit, ?_, ?_⟩
  · rw [read_point hw, hmore, hn]
    rfl
  · simp only [Numeral.text, hwhole, hfrac, List.length_append, List.length_cons]
    omega

/-- Digits at the front: all of them are read, and maybe more. -/
theorem exists_read_whole {w r : List Char} (hw : ∀ c ∈ w, c.isDigit) (hne : w ≠ []) :
    ∃ n r', read (w ++ r) = some (n, r') ∧ w.length ≤ n.text.length := by
  have hdigit : ∀ c ∈ w ++ r.takeWhile Char.isDigit, c.isDigit := by
    intro c hc
    rcases List.mem_append.1 hc with hc | hc
    · exact hw c hc
    · exact List.mem_takeWhile_imp hc
  have hsplit : w ++ r = (w ++ r.takeWhile Char.isDigit) ++ r.dropWhile Char.isDigit := by
    rw [List.append_assoc, List.takeWhile_append_dropWhile]
  rw [hsplit]
  by_cases hpoint : (r.dropWhile Char.isDigit).head? = some '.'
  · obtain ⟨t, ht⟩ := List.head?_eq_some_iff.1 hpoint
    obtain ⟨n, r', hread, hlen⟩ :=
      exists_read_point (f := []) (r := t) hdigit (by simp) (by simp [hne])
    refine ⟨n, r', by rw [ht]; exact hread, ?_⟩
    simp only [List.length_append, List.length_nil] at hlen
    omega
  · have hnot : ∀ c ∈ (r.dropWhile Char.isDigit).head?, ¬ c.isDigit := by
      intro c hc
      have := List.head?_dropWhile_not Char.isDigit r
      rw [Option.mem_def.1 hc] at this
      simpa using this
    obtain ⟨n, hn⟩ := Numeral.exists_ofParts (w := w ++ r.takeWhile Char.isDigit) (f := none)
      (by simpa using hdigit) (by simp [hne])
    obtain ⟨hwhole, hfrac⟩ := Numeral.ofParts_eq_some hn
    refine ⟨n, r.dropWhile Char.isDigit, by rw [read_whole hdigit hnot hpoint, hn]; rfl, ?_⟩
    simp only [Numeral.text, hwhole, hfrac, List.length_append]
    omega

/-- **The longest match**: if some numeral is a front of the text, one at least as long is read. -/
theorem exists_read (m : Numeral) (r : List Char) :
    ∃ n r', read (m.text ++ r) = some (n, r') ∧ m.text.length ≤ n.text.length := by
  cases hf : m.frac with
  | none =>
      have hne : m.whole ≠ [] := by simpa [hf] using m.nonempty
      have htext : m.text = m.whole := by rw [Numeral.text, hf]
      rw [htext]
      exact exists_read_whole m.isDigit_whole hne
  | some f =>
      have hplaces : ∀ c ∈ f, c.isDigit := by simpa [Numeral.places, hf] using m.isDigit_places
      have hne : m.whole ++ f ≠ [] := by simpa [hf] using m.nonempty
      have htext : m.text = m.whole ++ '.' :: f := by rw [Numeral.text, hf]
      obtain ⟨n, r', hread, hlen⟩ := exists_read_point (r := r) m.isDigit_whole hplaces hne
      rw [htext, List.append_assoc, List.cons_append]
      refine ⟨n, r', hread, ?_⟩
      rw [List.length_append, List.length_cons]
      omega

theorem length_le_of_read {s e r : List Char} {n m : Numeral} (h : read s = some (n, e))
    (hs : s = m.text ++ r) : m.text.length ≤ n.text.length := by
  obtain ⟨n', r', hread, hlen⟩ := exists_read m r
  rw [← hs, h] at hread
  rwa [← (Prod.mk.inj (Option.some.inj hread)).1] at hlen

theorem Numeral.text_injective : Function.Injective Numeral.text := by
  intro n m h
  have hn := read_text n (r := []) (by simp) (by simp)
  rw [h, read_text m (r := []) (by simp) (by simp)] at hn
  exact (Prod.mk.inj (Option.some.inj hn)).1.symm

/-- The longest numeral is the one that is read. -/
theorem read_of_longest {n : Numeral} {e : List Char}
    (h : ∀ (m : Numeral) (r : List Char), n.text ++ e = m.text ++ r →
      m.text.length ≤ n.text.length) : read (n.text ++ e) = some (n, e) := by
  obtain ⟨m, r, hread, hlen⟩ := exists_read n e
  have hsplit := eq_text_append hread
  obtain ⟨htext, hrest⟩ := List.append_inj hsplit (le_antisymm hlen (h m r hsplit))
  rw [hread, Numeral.text_injective htext, hrest]

/-! ## The digits beyond a place -/

theorem digit_lt {c : Char} (h : c.isDigit) : c.toNat - '0'.toNat < 10 := by
  obtain ⟨-, hle⟩ := toNat_of_isDigit h
  show c.toNat - 48 < 10
  omega

theorem digit_eq_zero {c : Char} (h : c.isDigit) : c.toNat - '0'.toNat = 0 ↔ c = '0' := by
  obtain ⟨hge, -⟩ := toNat_of_isDigit h
  constructor
  · intro hz
    have hz' : c.toNat - 48 = 0 := hz
    exact Char.toNat_inj.1 (show c.toNat = 48 by omega)
  · rintro rfl
    rfl

theorem ofDigitChars_lt {l : List Char} (h : ∀ c ∈ l, c.isDigit) :
    Nat.ofDigitChars 10 l 0 < 10 ^ l.length := by
  induction l with
  | nil => simp
  | cons c l ih =>
      have hc := digit_lt (h c (by simp))
      have hl := ih fun d hd => h d (by simp [hd])
      rw [Nat.ofDigitChars_cons, Nat.ofDigitChars_eq_ofDigitChars_zero, List.length_cons, pow_succ]
      nlinarith

theorem ofDigitChars_eq_zero_iff {l : List Char} (h : ∀ c ∈ l, c.isDigit) :
    Nat.ofDigitChars 10 l 0 = 0 ↔ ∀ c ∈ l, c = '0' := by
  induction l with
  | nil => simp
  | cons c l ih =>
      have hl := ih fun d hd => h d (by simp [hd])
      rw [Nat.ofDigitChars_cons, Nat.ofDigitChars_eq_ofDigitChars_zero, Nat.add_eq_zero_iff, hl,
        List.forall_mem_cons, ← digit_eq_zero (h c (by simp))]
      simp

/-- A number with a fraction below one is an integer only if the fraction is zero. -/
theorem exists_int_add_div_iff {a b d : ℕ} (h : b < d) :
    (∃ z : ℤ, (a + b / d : ℚ) = z) ↔ b = 0 := by
  have hd : (d : ℚ) ≠ 0 := Nat.cast_ne_zero.2 (by omega)
  constructor
  · rintro ⟨z, hz⟩
    have hq : (b : ℚ) = d * (z - a) := by
      rw [← hz]
      field_simp
      ring
    have hmul : (b : ℤ) = d * (z - a) := by exact_mod_cast hq
    exact Nat.eq_zero_of_dvd_of_lt (Int.natCast_dvd_natCast.1 ⟨_, hmul⟩) h
  · intro hzero
    exact ⟨a, by simp [hzero]⟩

/-- The number is a multiple of `10⁻ᵏ` if only zeros stand from the `k`-th place on. -/
theorem Numeral.exists_int_iff (n : Numeral) (k : ℕ) :
    (∃ z : ℤ, n.value * 10 ^ k = z) ↔ ∀ c ∈ n.places.drop k, c = '0' := by
  have hdrop : ∀ c ∈ n.places.drop k, c.isDigit := fun c hc =>
    n.isDigit_places c (List.mem_of_mem_drop hc)
  obtain ⟨a, ha⟩ : ∃ a, a = Nat.ofDigitChars 10 (n.whole ++ n.places.take k) 0 := ⟨_, rfl⟩
  obtain ⟨b, hb⟩ : ∃ b, b = Nat.ofDigitChars 10 (n.places.drop k) 0 := ⟨_, rfl⟩
  have hsplit : Nat.ofDigitChars 10 n.digits 0 = 10 ^ (n.places.length - k) * a + b := by
    rw [Numeral.digits, ← List.take_append_drop k n.places, ← List.append_assoc,
      Nat.ofDigitChars_append, Nat.ofDigitChars_eq_ofDigitChars_zero, ← ha, List.length_drop]
    simp [hb]
  have hblt : b < 10 ^ (n.places.length - k) := by
    rw [hb, ← List.length_drop]
    exact ofDigitChars_lt hdrop
  rw [← ofDigitChars_eq_zero_iff hdrop, ← hb]
  rcases Nat.le_total n.places.length k with hle | hle
  · -- all places are kept
    have hzero : b = 0 := by
      rw [Nat.sub_eq_zero_of_le hle, pow_zero] at hblt
      omega
    refine ⟨fun _ => hzero, fun _ => ⟨(a * 10 ^ (k - n.places.length) : ℕ), ?_⟩⟩
    have hpow : (10 : ℚ) ^ k = 10 ^ (k - n.places.length) * 10 ^ n.places.length := by
      rw [← pow_add, Nat.sub_add_cancel hle]
    rw [Numeral.value, hsplit, hzero, Nat.sub_eq_zero_of_le hle, hpow]
    push_cast
    field_simp
    ring
  · have hpow : (10 : ℚ) ^ n.places.length = 10 ^ (n.places.length - k) * 10 ^ k := by
      rw [← pow_add, Nat.sub_add_cancel hle]
    have hvalue : n.value * 10 ^ k = a + b / (10 ^ (n.places.length - k) : ℕ) := by
      rw [Numeral.value, hsplit, hpow]
      push_cast
      field_simp
    rw [hvalue]
    exact exists_int_add_div_iff hblt

/-! ## A fixed number of places -/

/-- The last `k` digits of a number. -/
def lastDigits : ℕ → ℕ → List Char
  | 0, _ => []
  | k + 1, n => lastDigits k (n / 10) ++ [(n % 10).digitChar]

/-- `n / 10 ^ k` with `k` digits behind the point. -/
def fixed (k n : ℕ) : List Char := Nat.toDigits 10 (n / 10 ^ k) ++ '.' :: lastDigits k n

@[simp] theorem length_lastDigits (k n : ℕ) : (lastDigits k n).length = k := by
  induction k generalizing n with
  | zero => rfl
  | succ k ih => simp [lastDigits, ih]

theorem isDigit_lastDigits (k n : ℕ) : ∀ c ∈ lastDigits k n, c.isDigit := by
  induction k generalizing n with
  | zero => simp [lastDigits]
  | succ k ih =>
      intro c hc
      rcases List.mem_append.1 hc with hc | hc
      · exact ih _ c hc
      · rw [List.mem_singleton.1 hc, Nat.isDigit_digitChar]
        simpa using Nat.mod_lt n (by decide)

theorem ofDigitChars_lastDigits (k n m : ℕ) :
    Nat.ofDigitChars 10 (lastDigits k n) m = 10 ^ k * m + n % 10 ^ k := by
  induction k generalizing n with
  | zero => simp [lastDigits, Nat.mod_one]
  | succ k ih =>
      rw [lastDigits, Nat.ofDigitChars_append, ih,
        Nat.ofDigitChars_cons_digitChar_of_lt_ten (Nat.mod_lt n (by decide)), Nat.ofDigitChars_nil,
        pow_succ', Nat.mod_mul]
      ring

/-- The number a text denotes, if it is a numeral. -/
def denotes (s : List Char) : Option ℚ :=
  match read s with
  | some (n, []) => some n.value
  | _ => none

@[simp] theorem denotes_text (n : Numeral) : denotes n.text = some n.value := by
  have h := read_text n (r := []) (by simp) (by simp)
  rw [List.append_nil] at h
  rw [denotes, h]

@[simp] theorem denotes_fixed (k n : ℕ) : denotes (fixed k n) = some ((n : ℚ) / 10 ^ k) := by
  have hwhole : ∀ c ∈ Nat.toDigits 10 (n / 10 ^ k), c.isDigit := fun c hc =>
    Nat.isDigit_of_mem_toDigits (by decide) (by decide) hc
  let m : Numeral := ⟨Nat.toDigits 10 (n / 10 ^ k), some (lastDigits k n),
    fun c hc => (List.mem_append.1 hc).elim (hwhole c) (isDigit_lastDigits k n c),
    by simp [Nat.toDigits_ne_nil]⟩
  have htext : fixed k n = m.text := rfl
  have hvalue : m.value = (n : ℚ) / 10 ^ k := by
    have hdigits : Nat.ofDigitChars 10 m.digits 0 = n := by
      show Nat.ofDigitChars 10 (Nat.toDigits 10 (n / 10 ^ k) ++ lastDigits k n) 0 = n
      rw [Nat.ofDigitChars_append, Nat.ofDigitChars_ten_toDigits, ofDigitChars_lastDigits,
        Nat.div_add_mod]
    rw [Numeral.value, hdigits, show m.places.length = k from length_lastDigits k n]
  rw [htext, denotes_text, hvalue]

/-- The nearest integer, the even one of two. -/
def roundHalfEven (x : ℚ) : ℤ :=
  if Int.fract x < 1 / 2 then ⌊x⌋
  else if 1 / 2 < Int.fract x then ⌊x⌋ + 1
  else if ⌊x⌋ % 2 = 0 then ⌊x⌋
  else ⌊x⌋ + 1

@[simp] theorem roundHalfEven_intCast (z : ℤ) : roundHalfEven z = z := by
  simp [roundHalfEven]

/-- A number rounded to `k` places, with its sign. -/
def toFixed (k : ℕ) (x : ℚ) : List Char :=
  if x < 0 then '-' :: fixed k (roundHalfEven (-x * 10 ^ k)).toNat
  else fixed k (roundHalfEven (x * 10 ^ k)).toNat

/-- The number `toFixed` writes. -/
def rounded (k : ℕ) (x : ℚ) : ℚ :=
  if x < 0 then -((roundHalfEven (-x * 10 ^ k)).toNat / 10 ^ k)
  else (roundHalfEven (x * 10 ^ k)).toNat / 10 ^ k

theorem denotes_toFixed {k : ℕ} {x : ℚ} (hx : 0 ≤ x) :
    denotes (toFixed k x) = some (rounded k x) := by
  rw [toFixed, rounded, if_neg (not_lt.2 hx), if_neg (not_lt.2 hx), denotes_fixed]

theorem Numeral.value_nonneg (n : Numeral) : 0 ≤ n.value := by
  unfold Numeral.value
  positivity

/-- **Rounding keeps a number** if only zeros stand from the `k`-th place on. -/
theorem denotes_toFixed_iff (k : ℕ) (n : Numeral) :
    denotes (toFixed k n.value) = some n.value ↔ ∀ c ∈ n.places.drop k, c = '0' := by
  have hpos : (0 : ℚ) < 10 ^ k := by positivity
  rw [toFixed, if_neg (not_lt.2 n.value_nonneg), denotes_fixed, Option.some_inj,
    div_eq_iff hpos.ne', ← n.exists_int_iff]
  constructor
  · intro h
    exact ⟨_, h.symm⟩
  · rintro ⟨z, hz⟩
    have hz0 : 0 ≤ z := by
      have : (0 : ℚ) ≤ z := hz ▸ mul_nonneg n.value_nonneg hpos.le
      exact_mod_cast this
    rw [hz, roundHalfEven_intCast]
    exact_mod_cast Int.toNat_of_nonneg hz0

end Decimal
