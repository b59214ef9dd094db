import CS238P.Library.Bytes
import Mathlib.Algebra.Order.Group.Nat

set_option autoImplicit false

/-! # A terminal

What a terminal with a cursor does with the bytes that a program writes: characters are shown where
the cursor is, a line feed takes it to the start of the next row and scrolls behind the last one, and
control sequences move the cursor, erase, or ask where the cursor is. The others (colours, for one)
show nothing. A byte that begins an escape sequence ends one that was not complete.

`write_chars` and `write_control` say what the bytes that matter do. -/

/-- Where the terminal is in an escape sequence, with the parameters so far. -/
inductive Terminal.Mode where
  | ground
  | escape
  | control (params : List UInt8)
  deriving DecidableEq

/-- The screen has `height` rows of `width` cells, the first of which is the one at zero. A cursor
    behind the last cell of its row wraps with the next character. -/
structure Terminal where
  width : ℕ
  height : ℕ
  cells : ℕ → ℕ → UInt8
  row : ℕ
  col : ℕ
  mode : Terminal.Mode
  answers : List UInt8

namespace Terminal

def blank : UInt8 := 32

/-- The characters of a text. -/
def ascii (s : String) : List UInt8 := s.toList.map fun c => UInt8.ofNat c.toNat

/-- A number in decimal digits. -/
def digits (n : ℕ) : List UInt8 := (Nat.toDigits 10 n).map fun c => UInt8.ofNat c.toNat

/-- The number that a parameter says, one if it is left out. -/
def number (ds : List UInt8) : ℕ :=
  max 1 (ds.foldl (fun n d => 10 * n + (d.toNat - 48)) 0)

/-- The first two parameters. -/
def params (ps : List UInt8) : ℕ × ℕ :=
  (number (ps.takeWhile (· ≠ 59)), number ((ps.dropWhile (· ≠ 59)).drop 1))

/-! ## What the bytes do -/

/-- The start of the next row. -/
def newline (t : Terminal) : Terminal :=
  if t.row + 1 < t.height then { t with row := t.row + 1, col := 0 }
  else { t with
    cells := fun r c => if r + 1 < t.height then t.cells (r + 1) c else blank
    col := 0 }

/-- A character is shown. -/
def put (t : Terminal) (b : UInt8) : Terminal :=
  let t := if t.col < t.width then t else t.newline
  { t with
    cells := fun r c => if r = t.row ∧ c = t.col then b else t.cells r c
    col := t.col + 1 }

/-- The cursor goes to a row and a column, counted from one, or as far as there are any. -/
def goto (t : Terminal) (r c : ℕ) : Terminal :=
  { t with row := min (r - 1) (t.height - 1), col := min (c - 1) (t.width - 1) }

/-- What is behind the cursor is erased. -/
def clear (t : Terminal) : Terminal :=
  { t with cells := fun r c => if r < t.row ∨ (r = t.row ∧ c < t.col) then t.cells r c else blank }

/-- What a terminal sends to say that the cursor is at a row and a column, counted from one. -/
def position (r c : ℕ) : List UInt8 :=
  ascii "\x1b[" ++ (digits r ++ (ascii ";" ++ (digits c ++ ascii "R")))

/-- The terminal says where the cursor is. -/
def report (t : Terminal) : Terminal :=
  { t with answers := t.answers ++ position (t.row + 1) (min t.col (t.width - 1) + 1) }

/-- A control sequence with the parameters `ps` that ends with `b`. -/
def control (t : Terminal) (ps : List UInt8) (b : UInt8) : Terminal :=
  if b = 72 then t.goto (params ps).1 (params ps).2
  else if b = 74 ∧ (ps = [] ∨ ps = [48]) then t.clear
  else if b = 110 ∧ ps = [54] then t.report
  else t

/-- A byte of the parameters of a control sequence. -/
def Parameter (b : UInt8) : Prop := 32 ≤ b ∧ b < 64

instance : DecidablePred Parameter := fun b => inferInstanceAs (Decidable (32 ≤ b ∧ b < 64))

/-- A byte outside of the escape sequences. -/
def character (t : Terminal) (b : UInt8) : Terminal :=
  if b = 10 then t.newline
  else if b < 32 ∨ b = 127 then t
  else t.put b

/-- A byte. -/
def feed (t : Terminal) (b : UInt8) : Terminal :=
  if b = 27 then { t with mode := .escape }
  else
    match t.mode with
    | .ground => t.character b
    | .escape => { t with mode := if b = 91 then .control [] else .ground }
    | .control ps =>
        if Parameter b then { t with mode := .control (ps ++ [b]) }
        else { t with mode := .ground }.control ps b

def write (t : Terminal) (bs : List UInt8) : Terminal := bs.foldl feed t

variable {t : Terminal} {bs cs : List UInt8}

theorem write_append (t : Terminal) (bs cs : List UInt8) :
    t.write (bs ++ cs) = (t.write bs).write cs :=
  List.foldl_append ..

/-! ## What does not change -/

theorem control_size (t : Terminal) (ps : List UInt8) (b : UInt8) :
    (t.control ps b).width = t.width ∧ (t.control ps b).height = t.height := by
  unfold control
  split_ifs <;> exact ⟨rfl, rfl⟩

theorem newline_size (t : Terminal) : t.newline.width = t.width ∧ t.newline.height = t.height := by
  unfold newline
  split_ifs <;> exact ⟨rfl, rfl⟩

theorem newline_row (h : t.row < t.height) : t.newline.row < t.height := by
  unfold newline
  split_ifs with hlast
  · exact hlast
  · exact h

theorem feed_size (t : Terminal) (b : UInt8) :
    (t.feed b).width = t.width ∧ (t.feed b).height = t.height := by
  unfold feed
  by_cases h27 : b = 27
  · rw [if_pos h27]
    exact ⟨rfl, rfl⟩
  rw [if_neg h27]
  cases t.mode with
  | ground =>
      simp only
      unfold character put
      split_ifs
      · exact t.newline_size
      · exact ⟨rfl, rfl⟩
      · exact ⟨rfl, rfl⟩
      · exact t.newline_size
  | escape => exact ⟨rfl, rfl⟩
  | control ps =>
      simp only
      split_ifs
      · exact ⟨rfl, rfl⟩
      · exact control_size _ ps b

/-- The cursor stays on the screen. -/
theorem feed_row (h : t.row < t.height) (b : UInt8) : (t.feed b).row < t.height := by
  unfold feed
  by_cases h27 : b = 27
  · rw [if_pos h27]
    exact h
  rw [if_neg h27]
  cases t.mode with
  | ground =>
      simp only
      unfold character put
      split_ifs
      · exact newline_row h
      · exact h
      · exact h
      · exact newline_row h
  | escape => exact h
  | control ps =>
      simp only
      split_ifs
      · exact h
      · unfold control goto
        split_ifs
        · simp only
          omega
        · exact h
        · exact h
        · exact h

theorem write_size (t : Terminal) (bs : List UInt8) :
    (t.write bs).width = t.width ∧ (t.write bs).height = t.height := by
  induction bs generalizing t with
  | nil => exact ⟨rfl, rfl⟩
  | cons b bs ih =>
      obtain ⟨hw, hh⟩ := ih (t.feed b)
      obtain ⟨hw', hh'⟩ := t.feed_size b
      exact ⟨hw.trans hw', hh.trans hh'⟩

theorem write_row (h : t.row < t.height) (bs : List UInt8) : (t.write bs).row < t.height := by
  induction bs generalizing t with
  | nil => exact h
  | cons b bs ih =>
      have hh := (t.feed_size b).2
      have := ih (t := t.feed b) (by rw [hh]; exact feed_row h b)
      rwa [hh] at this

/-! ## Control sequences -/

theorem write_params (ps qs : List UInt8) (h : ∀ b ∈ qs, Parameter b) :
    { t with mode := .control ps }.write qs = { t with mode := .control (ps ++ qs) } := by
  induction qs generalizing ps with
  | nil => rw [List.append_nil]; rfl
  | cons q qs ih =>
      obtain ⟨hq, hqs⟩ := List.forall_mem_cons.1 h
      have hne : q ≠ 27 := by
        rintro rfl
        exact absurd hq.1 (by decide)
      have hfeed : { t with mode := .control ps }.feed q =
          { t with mode := .control (ps ++ [q]) } := by
        unfold feed
        simp only
        rw [if_neg hne, if_pos hq]
      show ({ t with mode := .control ps }.feed q).write qs = _
      rw [hfeed, ih _ hqs, List.append_assoc, List.singleton_append]

/-- **A control sequence**, whatever the terminal was in. -/
theorem write_control (t : Terminal) (ps : List UInt8) (h : ∀ p ∈ ps, Parameter p) {b : UInt8}
    (hb : ¬ Parameter b) (hne : b ≠ 27) :
    t.write (27 :: 91 :: (ps ++ [b])) = { t with mode := .ground }.control ps b := by
  have hstart : t.write (27 :: 91 :: (ps ++ [b])) =
      ({ t with mode := .control [] }.write ps).feed b := by
    show (({ t with mode := .control [] }.write (ps ++ [b]))) = _
    rw [write_append]
    rfl
  rw [hstart, write_params [] ps h, List.nil_append]
  unfold feed
  simp only
  rw [if_neg hne, if_neg hb]

theorem digits_spec (n : ℕ) : (∀ d ∈ digits n, 48 ≤ d ∧ d < 58) ∧
    (digits n).foldl (fun n d => 10 * n + (d.toNat - 48)) 0 = n := by
  have hdigit : ∀ c ∈ Nat.toDigits 10 n, c.isDigit := fun c hc =>
    Nat.isDigit_of_mem_toDigits (by decide) (by decide) hc
  have hbyte : ∀ c : Char, c.isDigit → (UInt8.ofNat c.toNat).toNat = c.toNat ∧ 48 ≤ c.toNat ∧
      c.toNat < 58 := by
    intro c hc
    rw [Char.isDigit, Bool.and_eq_true, decide_eq_true_eq, decide_eq_true_eq] at hc
    have h₁ : 48 ≤ c.toNat := hc.1
    have h₂ : c.toNat ≤ 57 := hc.2
    exact ⟨by rw [UInt8.toNat_ofNat']; omega, h₁, by omega⟩
  constructor
  · intro d hd
    obtain ⟨c, hc, rfl⟩ := List.mem_map.1 hd
    obtain ⟨heq, h₁, h₂⟩ := hbyte c (hdigit c hc)
    rw [UInt8.le_iff_toNat_le, UInt8.lt_iff_toNat_lt, heq]
    exact ⟨h₁, h₂⟩
  · calc (digits n).foldl (fun n d => 10 * n + (d.toNat - 48)) 0
        = (Nat.toDigits 10 n).foldl (fun n c => 10 * n + (c.toNat - 48)) 0 := by
          rw [digits, List.foldl_map]
          refine List.foldl_ext _ _ _ fun n c hc => ?_
          rw [(hbyte c (hdigit c hc)).1]
      _ = Nat.ofDigitChars 10 (Nat.toDigits 10 n) 0 := rfl
      _ = n := Nat.ofDigitChars_ten_toDigits

theorem number_digits (n : ℕ) : number (digits n) = max 1 n := by
  rw [number, (digits_spec n).2]

theorem parameter_digits {n : ℕ} : ∀ d ∈ digits n, Parameter d := by
  intro d hd
  obtain ⟨h₁, h₂⟩ := (digits_spec n).1 d hd
  rw [UInt8.le_iff_toNat_le] at h₁
  rw [UInt8.lt_iff_toNat_lt] at h₂
  exact ⟨UInt8.le_iff_toNat_le.2 (le_trans (by decide) h₁),
    UInt8.lt_iff_toNat_lt.2 (lt_trans h₂ (by decide))⟩

/-- The sequence that takes the cursor to a row and a column. -/
def gotoText (r c : ℕ) : List UInt8 := ascii "\x1b[" ++ (digits r ++ (ascii ";" ++ (digits c ++ ascii "H")))

theorem write_gotoText (t : Terminal) (r c : ℕ) :
    t.write (gotoText r c) = { t with mode := .ground }.goto r c := by
  have hsemi : ∀ n : ℕ, ∀ d ∈ digits n, d ≠ 59 := by
    rintro n d hd rfl
    exact absurd ((digits_spec n).1 _ hd).2 (by decide)
  have htext : gotoText r c = 27 :: 91 :: ((digits r ++ (59 :: digits c)) ++ [72]) := by
    simp [gotoText, ascii]
  have hparams : params (digits r ++ (59 :: digits c)) = (max 1 r, max 1 c) := by
    unfold params
    rw [List.takeWhile_append_of_pos (by simpa using hsemi r),
      List.dropWhile_append_of_pos (by simpa using hsemi r), List.takeWhile_cons_of_neg (by decide),
      List.dropWhile_cons_of_neg (by decide), List.append_nil, number_digits, List.drop_one,
      List.tail_cons, number_digits]
  rw [htext, write_control t _ ?_ (b := 72) (by decide) (by decide)]
  · unfold control
    rw [if_pos rfl, hparams]
    unfold goto
    congr 1 <;> omega
  · intro p hp
    rcases List.mem_append.1 hp with hp | hp
    · exact parameter_digits p hp
    · rcases List.mem_cons.1 hp with rfl | hp
      · exact ⟨by decide, by decide⟩
      · exact parameter_digits p hp

/-! ## Characters -/

/-- A byte that is shown as a character. -/
def Shows (b : UInt8) : Prop := 32 ≤ b ∧ b ≠ 127

instance : DecidablePred Shows := fun b => inferInstanceAs (Decidable (32 ≤ b ∧ b ≠ 127))

/-- **Characters** that the row of the cursor has room for. -/
theorem write_chars (hmode : t.mode = .ground) (h : ∀ b ∈ bs, Shows b)
    (hroom : t.col + bs.length ≤ t.width) :
    t.write bs = { t with
      cells := fun r c => if r = t.row ∧ t.col ≤ c then (bs[c - t.col]?).getD (t.cells r c)
        else t.cells r c
      col := t.col + bs.length } := by
  induction bs generalizing t with
  | nil =>
      obtain ⟨width, height, cells, row, col, mode, answers⟩ := t
      simp [write]
  | cons b bs ih =>
      obtain ⟨hb, hbs⟩ := List.forall_mem_cons.1 h
      rw [List.length_cons] at hroom
      have hfeed : t.feed b = { t with
          cells := fun r c => if r = t.row ∧ c = t.col then b else t.cells r c
          col := t.col + 1 } := by
        have hlt : ¬ b < 32 := UInt8.not_lt.2 hb.1
        have h27 : b ≠ 27 := by
          rintro rfl
          exact hlt (by decide)
        have h10 : b ≠ 10 := by
          rintro rfl
          exact hlt (by decide)
        unfold feed
        rw [if_neg h27, hmode]
        simp only
        rw [character, if_neg h10, if_neg (by rw [not_or]; exact ⟨hlt, hb.2⟩), put,
          if_pos (by omega), hmode]
      show (t.feed b).write bs = _
      rw [ih (by rw [hfeed]; exact hmode) hbs (by rw [hfeed]; simp only; omega), hfeed]
      simp only [List.length_cons, Nat.add_right_comm, Terminal.mk.injEq, true_and, and_true]
      refine ⟨?_, by omega⟩
      funext r c
      by_cases hr : r = t.row
      · subst hr
        rcases Nat.lt_trichotomy c t.col with hlt | rfl | hgt
        · simp [show ¬ t.col + 1 ≤ c by omega, show ¬ t.col ≤ c by omega, hlt.ne]
        · simp
        · rw [if_pos ⟨rfl, by omega⟩, if_neg (by omega), if_pos ⟨rfl, hgt.le⟩,
            show c - t.col = (c - (t.col + 1)) + 1 by omega, List.getElem?_cons_succ]
      · simp [hr]

end Terminal
