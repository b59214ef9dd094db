import CS238P.Library.Scan
import CS238P.Library.Terminal

set_option autoImplicit false

/-! # Asking the terminal for the cursor (`location` in `p3/shell.c`)

`read_line` asks the terminal where the cursor is and looks for the answer in what is typed. What was
typed before the answer came is lost, which is meant so; but `scanf` takes everything for the answer
that begins like one, whatever letter follows. -/

namespace CS238P.Shell

/-- The character that begins an escape sequence. -/
def esc : Char := Char.ofNat 27

/-- The bytes of a stream as characters. -/
def chars (bs : List UInt8) : List Char := bs.map fun b => Char.ofNat b.toNat

def bytes (cs : List Char) : List UInt8 := cs.map fun c => UInt8.ofNat c.toNat

/-- The white space that `scanf` skips. -/
def whitespace (c : Char) : Bool := c = ' ' || (9 ≤ c.toNat && c.toNat ≤ 13)

/-! ## `scanf` -/

/-- A character that has to be next: whether it is, and what is left. -/
def literal (c : Char) : List Char → Bool × List Char
  | [] => (false, [])
  | d :: s => if d = c then (true, s) else (false, d :: s)

/-- A number that is stored in an `int`. The C library keeps it in the bounds of `long` and takes
    the low half of that. -/
def toInt (z : ℤ) : ℤ := (max (-2 ^ 63) (min z (2 ^ 63 - 1))).bmod (2 ^ 32)

/-- `%d`. Where no digit follows, white space and a sign are gone. -/
def scanInt (s : List Char) : Option ℤ × List Char :=
  match Scan.number whitespace s with
  | some (z, r) => (some (toInt z), r)
  | none => (none, (Scan.sign (s.dropWhile whitespace)).2)

/-- `scanf("[%d;%dR", r, c)`: the numbers it assigns, and what is left. The last character is looked
    for, but the result is the same if it is not there. -/
def scanf (s : List Char) : List ℤ × List Char :=
  match literal '[' s with
  | (false, s) => ([], s)
  | (true, s) =>
      match scanInt s with
      | (none, s) => ([], s)
      | (some r, s) =>
          match literal ';' s with
          | (false, s) => ([r], s)
          | (true, s) =>
              match scanInt s with
              | (none, s) => ([r], s)
              | (some c, s) => ([r, c], (literal 'R' s).2)

/-- The loop of `location`. At the end of the input `getchar` returns EOF for ever. A turn takes a
    character at least. -/
def locate : ℕ → List Char → Option ((ℤ × ℤ) × List Char)
  | 0, _ => none
  | fuel + 1, s =>
      match s.dropWhile (· ≠ esc) with
      | [] => none
      | _ :: s =>
          match scanf s with
          | ([r, c], s) => some ((r, c), s)
          | (_, s) => locate fuel s

/-- `location`: `*r`, `*c` and what is left to be read. -/
def location (input : List UInt8) : Option ((ℤ × ℤ) × List UInt8) :=
  (locate input.length (chars input)).map fun r => (r.1, bytes r.2)

/-! ## What begins like an answer -/

/-- A number as `%d` takes it: white space, a sign, digits. -/
def IsNumber (s : List Char) : Prop :=
  ∃ ws sg ds e, s = ws ++ (sg ++ ds) ∧ (∀ c ∈ ws, whitespace c) ∧ Scan.Sign sg e ∧ ds ≠ [] ∧
    ∀ c ∈ ds, c.isDigit

/-- The text begins like an answer of the terminal. -/
def Report (s : List Char) : Prop :=
  ∃ a b r, s = '[' :: (a ++ (';' :: (b ++ r))) ∧ IsNumber a ∧ IsNumber b

variable {s p v w a b : List Char} {z : ℤ} {fuel : ℕ}

theorem toInt_of_lt {n : ℕ} (h : n < 2 ^ 31) : toInt n = n := by
  unfold toInt
  rw [min_eq_left (by omega), max_eq_right (by omega)]
  exact Int.bmod_eq_of_le (by omega) (by omega)

theorem separates_whitespace : Scan.Separates whitespace := by
  rintro c (hc | rfl | rfl)
  · obtain ⟨h₁, h₂⟩ := Decimal.toNat_of_isDigit hc
    have hne : c ≠ ' ' := by
      rintro rfl
      exact absurd h₁ (by decide)
    simp [whitespace, hne]
    omega
  · decide
  · decide

/-- No number has an escape in it. -/
theorem IsNumber.esc_not_mem (h : IsNumber a) : esc ∉ a := by
  obtain ⟨ws, sg, ds, e, rfl, hws, hsg, -, hds⟩ := h
  intro hm
  rcases List.mem_append.1 hm with hm | hm
  · exact absurd (hws _ hm) (by decide)
  rcases List.mem_append.1 hm with hm | hm
  · cases hsg with
    | none => cases hm
    | plus => exact absurd (List.mem_singleton.1 hm) (by decide)
    | minus => exact absurd (List.mem_singleton.1 hm) (by decide)
  · exact absurd (hds _ hm) (by decide)

/-- A number in front of anything is read. -/
theorem IsNumber.scanInt (h : IsNumber a) (s : List Char) :
    ∃ z r, scanInt (a ++ s) = (some z, r) := by
  obtain ⟨ws, sg, ds, e, rfl, hws, hsg, hne, hds⟩ := h
  have hcut := List.takeWhile_append_dropWhile (p := Char.isDigit) (l := s)
  have hmore : ∀ c ∈ ds ++ s.takeWhile Char.isDigit, c.isDigit := by
    intro c hc
    rcases List.mem_append.1 hc with hc | hc
    · exact hds c hc
    · exact List.mem_takeWhile_imp hc
  have hrest : ∀ c ∈ (s.dropWhile Char.isDigit).head?, ¬ c.isDigit := by
    intro c hc
    have hhead := List.head?_dropWhile_not Char.isDigit s
    rw [Option.mem_def.1 hc] at hhead
    simpa using hhead
  have hnumber := Scan.number_append separates_whitespace hws hsg
    (List.append_ne_nil_of_left_ne_nil hne _) hmore hrest
  have hsplit : ws ++ (sg ++ ds) ++ s =
      ws ++ (sg ++ ((ds ++ s.takeWhile Char.isDigit) ++ s.dropWhile Char.isDigit)) := by
    rw [List.append_assoc ds, hcut]
    simp
  unfold Shell.scanInt
  rw [hsplit, hnumber]
  exact ⟨_, _, rfl⟩

/-- In front of something else than a digit it is read to its end. -/
theorem IsNumber.scanInt_eq (h : IsNumber a) (hs : ∀ c ∈ s.head?, ¬ c.isDigit) :
    ∃ z, Shell.scanInt (a ++ s) = (some z, s) := by
  obtain ⟨ws, sg, ds, e, rfl, hws, hsg, hne, hds⟩ := h
  unfold Shell.scanInt
  rw [List.append_assoc, List.append_assoc,
    Scan.number_append separates_whitespace hws hsg hne hds hs]
  exact ⟨_, rfl⟩

theorem isNumber_of_scanInt {r : List Char} (h : scanInt s = (some z, r)) :
    ∃ a, s = a ++ r ∧ IsNumber a := by
  unfold scanInt at h
  cases hnumber : Scan.number whitespace s with
  | none =>
      rw [hnumber] at h
      cases h
  | some zr =>
      obtain ⟨z', r'⟩ := zr
      rw [hnumber] at h
      obtain ⟨-, rfl⟩ := Prod.mk.inj h
      obtain ⟨ws, sg, ds, e, hs, hws, hsg, hne, hds, -, -⟩ := Scan.exists_number hnumber
      exact ⟨ws ++ (sg ++ ds), by simp [hs], ws, sg, ds, e, rfl, hws, hsg, hne, hds⟩

/-! ## What is taken from the input -/

/-- What is taken has no escape in it. -/
def Takes (s r : List Char) : Prop := ∃ p, s = p ++ r ∧ esc ∉ p

theorem Takes.refl (s : List Char) : Takes s s := ⟨[], rfl, List.not_mem_nil⟩

theorem Takes.trans {r t : List Char} (h : Takes s r) (h' : Takes r t) : Takes s t := by
  obtain ⟨p, rfl, hp⟩ := h
  obtain ⟨q, rfl, hq⟩ := h'
  exact ⟨p ++ q, by simp, by simp [hp, hq]⟩

theorem takes_literal {c : Char} (hc : c ≠ esc) (s : List Char) : Takes s (literal c s).2 := by
  cases s with
  | nil => exact .refl _
  | cons d s =>
      by_cases hd : d = c
      · exact ⟨[d], by simp [literal, hd], by simp [hd, hc.symm]⟩
      · rw [literal, if_neg hd]
        exact .refl _

theorem eq_of_literal {c : Char} {r : List Char} (h : literal c s = (true, r)) : s = c :: r := by
  cases s with
  | nil => cases h
  | cons d s =>
      by_cases hd : d = c
      · rw [literal, if_pos hd] at h
        rw [hd, (Prod.mk.inj h).2]
      · rw [literal, if_neg hd] at h
        cases h

theorem takes_scanInt (s : List Char) : Takes s (scanInt s).2 := by
  unfold scanInt
  cases hnumber : Scan.number whitespace s with
  | some zr =>
      obtain ⟨z, r⟩ := zr
      obtain ⟨a, rfl, ha⟩ := isNumber_of_scanInt (s := s) (z := toInt z) (r := r)
        (by rw [scanInt, hnumber])
      exact ⟨a, rfl, ha.esc_not_mem⟩
  | none =>
      rcases hsign : Scan.sign (s.dropWhile whitespace) with ⟨e, u⟩
      obtain ⟨sg, hsg, hplus⟩ := Scan.exists_sign hsign
      refine ⟨s.takeWhile whitespace ++ sg, ?_, ?_⟩
      · rw [List.append_assoc, ← hsg, List.takeWhile_append_dropWhile]
      · intro hm
        rcases List.mem_append.1 hm with hm | hm
        · exact absurd (List.mem_takeWhile_imp hm) (by decide)
        · cases hplus with
          | none => cases hm
          | plus => exact absurd (List.mem_singleton.1 hm) (by decide)
          | minus => exact absurd (List.mem_singleton.1 hm) (by decide)

/-- An escape stays in the input. -/
theorem takes_scanf (s : List Char) : Takes s (scanf s).2 := by
  unfold scanf
  have h₁ := takes_literal (c := '[') (by decide) s
  rcases hopen : literal '[' s with ⟨_ | _, s₁⟩ <;> rw [hopen] at h₁
  · exact h₁
  have h₂ := takes_scanInt s₁
  simp only
  rcases hrow : scanInt s₁ with ⟨_ | r, s₂⟩ <;> rw [hrow] at h₂
  · exact h₁.trans h₂
  have h₃ := takes_literal (c := ';') (by decide) s₂
  simp only
  rcases hsemi : literal ';' s₂ with ⟨_ | _, s₃⟩ <;> rw [hsemi] at h₃
  · exact h₁.trans (h₂.trans h₃)
  have h₄ := takes_scanInt s₃
  simp only
  rcases hcol : scanInt s₃ with ⟨_ | c, s₄⟩ <;> rw [hcol] at h₄
  · exact h₁.trans (h₂.trans (h₃.trans h₄))
  · exact h₁.trans (h₂.trans (h₃.trans (h₄.trans (takes_literal (c := 'R') (by decide) s₄))))

theorem scanf_of_report (h : Report s) : ∃ r c t, scanf s = ([r, c], t) := by
  obtain ⟨a, b, t, rfl, ha, hb⟩ := h
  obtain ⟨r, hr⟩ := ha.scanInt_eq (s := ';' :: (b ++ t)) (by simp)
  obtain ⟨c, t', hc⟩ := hb.scanInt t
  exact ⟨r, c, (literal 'R' t').2, by simp [scanf, literal, hr, hc]⟩

theorem report_of_scanf {r c : ℤ} {t : List Char} (h : scanf s = ([r, c], t)) : Report s := by
  unfold scanf at h
  rcases hopen : literal '[' s with ⟨_ | _, s₁⟩ <;> simp only [hopen] at h
  · simp at h
  rcases hrow : scanInt s₁ with ⟨_ | z, s₂⟩ <;> simp only [hrow] at h
  · simp at h
  rcases hsemi : literal ';' s₂ with ⟨_ | _, s₃⟩ <;> simp only [hsemi] at h
  · simp at h
  rcases hcol : scanInt s₃ with ⟨_ | z', s₄⟩ <;> simp only [hcol] at h
  · simp at h
  obtain ⟨a, rfl, ha⟩ := isNumber_of_scanInt hrow
  obtain ⟨b, rfl, hb⟩ := isNumber_of_scanInt hcol
  exact ⟨a, b, s₄, by rw [eq_of_literal hopen, eq_of_literal hsemi], ha, hb⟩

/-! ## The loop -/

/-- What stands in front of an escape is skipped. -/
theorem locate_append (hp : esc ∉ p) (fuel : ℕ) (s : List Char) :
    locate fuel (p ++ s) = locate fuel s := by
  cases fuel with
  | zero => rfl
  | succ fuel =>
      have hdrop : (p ++ s).dropWhile (· ≠ esc) = s.dropWhile (· ≠ esc) :=
        List.dropWhile_append_of_pos fun c hc => by
          rw [decide_eq_true_eq]
          rintro rfl
          exact hp hc
      rw [locate, locate, hdrop]

/-- At an escape the loop ends if what follows begins like an answer. -/
theorem locate_of_report (h : Report s) : ∃ z t, Takes s t ∧
    ∀ fuel, locate (fuel + 1) (esc :: s) = some (z, t) := by
  obtain ⟨r, c, t, hscan⟩ := scanf_of_report h
  have ht := takes_scanf s
  rw [hscan] at ht
  refine ⟨(r, c), t, ht, fun fuel => ?_⟩
  rw [locate, List.dropWhile_cons_of_neg (by simp)]
  simp only [hscan]

/-- Otherwise it goes on behind it. -/
theorem locate_of_not_report (h : ¬ Report s) (fuel : ℕ) :
    locate (fuel + 1) (esc :: s) = locate fuel s := by
  obtain ⟨p, hs, hp⟩ := takes_scanf s
  have hskip : locate fuel s = locate fuel (scanf s).2 := by
    conv_lhs => rw [hs, locate_append hp]
  rw [locate, List.dropWhile_cons_of_neg (by simp), hskip]
  simp only
  split
  · rename_i r c t hscan
    exact absurd (report_of_scanf hscan) h
  · rename_i t hscan
    rw [hscan]

/-- What is in front of an escape and begins like an answer does so without it. -/
theorem Report.of_append (h : Report (v ++ esc :: w)) : Report v := by
  obtain ⟨a, b, r, hsplit, ha, hb⟩ := h
  have hp : esc ∉ '[' :: (a ++ ';' :: b) := by
    simp only [List.mem_cons, List.mem_append, not_or]
    exact ⟨by decide, ha.esc_not_mem, by decide, hb.esc_not_mem⟩
  have hsplit : v ++ esc :: w = ('[' :: (a ++ ';' :: b)) ++ r := by simp [hsplit]
  rcases List.append_eq_append_iff.1 hsplit with ⟨t, ht, hw⟩ | ⟨t, rfl, -⟩
  · cases t with
    | nil => exact ⟨a, b, [], by simpa using ht.symm, ha, hb⟩
    | cons c t =>
        obtain ⟨rfl, -⟩ := List.cons.inj hw
        exact absurd (ht ▸ List.mem_append_right v List.mem_cons_self) hp
  · exact ⟨a, b, t, by simp, ha, hb⟩

theorem Report.append (h : Report v) (w : List Char) : Report (v ++ w) := by
  obtain ⟨a, b, r, rfl, ha, hb⟩ := h
  exact ⟨a, b, r ++ w, by simp, ha, hb⟩

/-- Something that is typed before the answer begins like one. -/
def Misleads (ahead : List Char) : Prop := ∃ u v, ahead = u ++ esc :: v ∧ Report v

theorem misleads_cons {c : Char} {ahead : List Char} :
    Misleads (c :: ahead) ↔ (c = esc ∧ Report ahead) ∨ Misleads ahead := by
  constructor
  · rintro ⟨u, v, hsplit, hv⟩
    cases u with
    | nil =>
        obtain ⟨rfl, rfl⟩ := List.cons.inj hsplit
        exact .inl ⟨rfl, hv⟩
    | cons d u =>
        obtain ⟨-, rfl⟩ := List.cons.inj hsplit
        exact .inr ⟨u, v, rfl, hv⟩
  · rintro (⟨rfl, h⟩ | ⟨u, v, rfl, hv⟩)
    · exact ⟨[], ahead, rfl, h⟩
    · exact ⟨c :: u, v, rfl, hv⟩

section

variable {ahead : List Char} (rest : List Char)

/-- Nothing misleads: the loop comes to the escape of the answer. -/
theorem locate_ahead (h : ¬ Misleads ahead) {n : ℕ} (hfuel : ahead.length + n ≤ fuel) :
    ∃ fuel', n ≤ fuel' ∧ locate fuel (ahead ++ esc :: rest) = locate fuel' (esc :: rest) := by
  induction ahead generalizing fuel with
  | nil => exact ⟨fuel, by simpa using hfuel, rfl⟩
  | cons c ahead ih =>
      rw [misleads_cons, not_or] at h
      rw [List.length_cons] at hfuel
      by_cases hc : c = esc
      · obtain ⟨fuel, rfl⟩ : ∃ k, fuel = k + 1 := ⟨fuel - 1, by omega⟩
        subst hc
        obtain ⟨fuel', hn, hloc⟩ := ih h.2 (show ahead.length + n ≤ fuel by omega)
        refine ⟨fuel', hn, ?_⟩
        rw [List.cons_append, locate_of_not_report (fun hr => h.1 ⟨rfl, hr.of_append⟩), hloc]
      · obtain ⟨fuel', hn, hloc⟩ := ih h.2 (show ahead.length + n ≤ fuel by omega)
        refine ⟨fuel', hn, ?_⟩
        rw [← hloc, List.cons_append, ← List.singleton_append,
          locate_append (p := [c]) (by simpa using Ne.symm hc)]

/-- Something misleads: the escape of the answer stays in the input. -/
theorem locate_misled (h : Misleads ahead) (hfuel : ahead.length ≤ fuel) :
    ∃ z t, locate fuel (ahead ++ esc :: rest) = some (z, t) ∧ rest.length < t.length := by
  induction ahead generalizing fuel with
  | nil =>
      obtain ⟨u, v, hsplit, -⟩ := h
      simp at hsplit
  | cons c ahead ih =>
      rw [List.length_cons] at hfuel
      obtain ⟨fuel, rfl⟩ : ∃ k, fuel = k + 1 := ⟨fuel - 1, by omega⟩
      rw [misleads_cons] at h
      by_cases hr : c = esc ∧ Report ahead
      · obtain ⟨rfl, hr⟩ := hr
        obtain ⟨z, t, ⟨p, hsplit, hp⟩, hloc⟩ := locate_of_report (hr.append (esc :: rest))
        refine ⟨z, t, hloc fuel, ?_⟩
        rcases List.append_eq_append_iff.1 hsplit with ⟨q, rfl, hq⟩ | ⟨q, -, rfl⟩
        · cases q with
          | nil =>
              rw [List.nil_append] at hq
              rw [← hq]
              simp
          | cons d q =>
              obtain ⟨rfl, -⟩ := List.cons.inj hq
              simp at hp
        · simp
          omega
      · have h' := h.resolve_left hr
        by_cases hc : c = esc
        · subst hc
          obtain ⟨z, t, hloc, hlen⟩ := ih h' (show ahead.length ≤ fuel by omega)
          refine ⟨z, t, ?_, hlen⟩
          rw [List.cons_append, locate_of_not_report fun h => hr ⟨rfl, h.of_append⟩, hloc]
        · obtain ⟨z, t, hloc, hlen⟩ := ih h' (show ahead.length ≤ fuel + 1 by omega)
          refine ⟨z, t, ?_, hlen⟩
          rw [← hloc, List.cons_append, ← List.singleton_append,
            locate_append (p := [c]) (by simpa using Ne.symm hc)]

end

/-! ## The answer -/

theorem chars_append (s t : List UInt8) : chars (s ++ t) = chars s ++ chars t :=
  List.map_append ..

theorem length_chars (s : List UInt8) : (chars s).length = s.length :=
  List.length_map ..

theorem bytes_chars (s : List UInt8) : bytes (chars s) = s := by
  rw [bytes, chars, List.map_map]
  refine (List.map_congr_left fun b _ => ?_).trans (List.map_id s)
  have hb := b.toNat_lt
  have hvalid : b.toNat.isValidChar := .inl (by omega)
  have hchar : Char.ofNat b.toNat = Char.ofNatAux b.toNat hvalid := dif_pos hvalid
  have hcode : (Char.ofNatAux b.toNat hvalid).toNat = b.toNat := rfl
  rw [Function.comp_apply, hchar, hcode, UInt8.ofNat_toNat, id_eq]

theorem chars_digits (n : ℕ) : chars (Terminal.digits n) = Nat.toDigits 10 n := by
  rw [Terminal.digits, chars, List.map_map]
  refine (List.map_congr_left fun c hc => ?_).trans (List.map_id _)
  obtain ⟨-, h⟩ := Decimal.toNat_of_isDigit
    (Nat.isDigit_of_mem_toDigits (by decide) (by decide) hc)
  have hbyte : (UInt8.ofNat c.toNat).toNat = c.toNat := by
    rw [UInt8.toNat_ofNat']
    omega
  simp [Function.comp, hbyte, Char.ofNat_toNat]

theorem chars_position (r c : ℕ) : chars (Terminal.position r c) =
    esc :: '[' :: (Nat.toDigits 10 r ++ (';' :: (Nat.toDigits 10 c ++ ['R']))) := by
  rw [Terminal.position, chars_append, chars_append, chars_append, chars_append, chars_digits,
    chars_digits]
  rfl

theorem scanInt_digits (n : ℕ) (hs : ∀ c ∈ s.head?, ¬ c.isDigit) :
    scanInt (Nat.toDigits 10 n ++ s) = (some (toInt n), s) := by
  have hnumber : Scan.number whitespace (Nat.toDigits 10 n ++ s) =
      some ((1 : ℤ) * (Nat.ofDigitChars 10 (Nat.toDigits 10 n) 0 : ℕ), s) :=
    Scan.number_append separates_whitespace (List.forall_mem_nil _) .none Nat.toDigits_ne_nil
      (fun c hc => Nat.isDigit_of_mem_toDigits (b := 10) (n := n) (by decide) (by decide) hc) hs
  rw [Nat.ofDigitChars_ten_toDigits, one_mul] at hnumber
  unfold scanInt
  rw [hnumber]

/-- The answer is found as far as the numbers in it can be stored. -/
theorem location_finds (ahead rest : List UInt8) (r c : ℕ) :
    location (ahead ++ (Terminal.position r c ++ rest)) = some ((toInt r, toInt c), rest) ↔
      ¬ Misleads (chars ahead) := by
  obtain ⟨tail, htail⟩ : ∃ tail, tail =
      '[' :: (Nat.toDigits 10 r ++ (';' :: (Nat.toDigits 10 c ++ ('R' :: chars rest)))) := ⟨_, rfl⟩
  have hchars : chars (ahead ++ (Terminal.position r c ++ rest)) = chars ahead ++ esc :: tail := by
    rw [chars_append, chars_append, chars_position, htail]
    simp
  have hlen : (ahead ++ (Terminal.position r c ++ rest)).length =
      (chars ahead).length + (tail.length + 1) := by
    rw [← length_chars, hchars, List.length_append, List.length_cons]
  have hscan : scanf tail = ([toInt r, toInt c], chars rest) := by
    rw [htail, scanf, literal, if_pos rfl]
    simp only
    rw [scanInt_digits r (by simp)]
    simp only
    rw [literal, if_pos rfl]
    simp only
    rw [scanInt_digits c (by simp)]
    simp only
    rw [literal, if_pos rfl]
  unfold location
  rw [hchars, hlen]
  constructor
  · intro h hm
    obtain ⟨z, t, hloc, hlt⟩ := locate_misled tail hm (Nat.le_add_right _ (tail.length + 1))
    rw [hloc] at h
    obtain ⟨-, ht⟩ := Prod.mk.inj (Option.some.inj h)
    have hrest := congrArg List.length ht
    simp only [bytes, List.length_map] at hrest
    rw [hrest, htail] at hlt
    simp [length_chars] at hlt
    omega
  · intro hm
    obtain ⟨fuel, hfuel, hloc⟩ := locate_ahead tail hm (n := tail.length + 1) le_rfl
    obtain ⟨fuel, rfl⟩ : ∃ k, fuel = k + 1 := ⟨fuel - 1, by omega⟩
    rw [hloc, locate, List.dropWhile_cons_of_neg (by simp)]
    simp only [hscan]
    rw [Option.map_some, bytes_chars]

/-- **`location` finds the answer of the terminal**, whatever was typed before it came and is typed
    after it, exactly if nothing typed before it begins like an answer. -/
theorem location_iff (ahead rest : List UInt8) {r c : ℕ} (hr : r < 2 ^ 31) (hc : c < 2 ^ 31) :
    location (ahead ++ (Terminal.position r c ++ rest)) = some (((r : ℤ), (c : ℤ)), rest) ↔
      ¬ Misleads (chars ahead) := by
  rw [← location_finds ahead rest r c, toInt_of_lt hr, toInt_of_lt hc]

/-- The up arrow is typed ahead of the answer, and a character before the terminal has answered. -/
theorem location_iff_arrow :
    location (Terminal.ascii "a\x1b[A" ++ (Terminal.position 24 80 ++ Terminal.ascii "b")) =
        some ((((24 : ℕ) : ℤ), ((80 : ℕ) : ℤ)), Terminal.ascii "b") ↔
      ¬ Misleads (chars (Terminal.ascii "a\x1b[A")) :=
  location_iff (Terminal.ascii "a\x1b[A") (Terminal.ascii "b") (r := 24) (c := 80) (by decide)
    (by decide)

/-- Control and the right arrow, typed ahead, are taken for the answer. -/
example : location (Terminal.ascii "\x1b[1;5C" ++ (Terminal.position 9 1 ++ [97])) =
    some ((1, 5), Terminal.ascii "C" ++ (Terminal.position 9 1 ++ [97])) := by
  decide

end CS238P.Shell
