import CS238P.Shell.Desk
import CS238P.Shell.Location

set_option autoImplicit false

/-! # What the shell shows

`read_line` paints the prompt and the line anew in every turn, with control sequences, at the row that
the terminal has named. Here the shell runs at a terminal that does what these sequences say and
answers when it is asked for its cursor, while keys are typed at any time, and what is on the screen is
said without them: the line behind the prompt in the row of the cursor, and nothing below. -/

namespace CS238P.Shell

open CObject Terminal

/-! ## What is printed -/

def prompt : List UInt8 := ascii "CS238P -> "

/-- `%d`. -/
def decimal (z : ℤ) : List UInt8 := (if z < 0 then ascii "-" else []) ++ digits z.natAbs

/-- `CLEAR()`. -/
def clearText : List UInt8 := ascii "\x1b[0J"

/-- `POS(r, c)`. -/
def posText (r c : ℤ) : List UInt8 :=
  ascii "\x1b[" ++ (decimal r ++ (ascii ";" ++ (decimal c ++ ascii "H")))

/-- `term_color`. -/
def termColor (nocolor : Bool) (color : ℕ) : List UInt8 :=
  if nocolor then [] else ascii "\x1b[" ++ (digits (30 + color) ++ ascii "m")

/-- `term_bold`. -/
def termBold (nocolor : Bool) : List UInt8 := if nocolor then [] else ascii "\x1b[1m"

/-- `term_reset`. -/
def termReset (nocolor : Bool) : List UInt8 :=
  if nocolor then [] else ascii "\x1b[?25h" ++ ascii "\x1b[0m"

/-- What a turn of the loop prints before it waits for a key. -/
def paint (nocolor : Bool) (r : ℤ) (st : State) (e : Edit) : Option (List UInt8) := do
  let s ← st.mem.string st.buf
  some (posText r 1 ++ (clearText ++ (termColor nocolor 4 ++ (termBold nocolor ++ (prompt ++
    (termReset nocolor ++ (s ++ posText r (e.i + 1 + prompt.length))))))))

/-- The shell at a terminal, with the local `r` of `read_line` and the number of times that it has
    asked for the cursor. -/
structure Console where
  session : Session
  term : Terminal
  r : ℤ
  asked : ℕ

/-- What stands at the top of the loop of `read_line`, or behind the loop. -/
def Console.show (nocolor : Bool) (s : Session) (t : Terminal) (r : ℤ) (asked : ℕ) :
    Option Console :=
  match s.point with
  | .editing e => do
      let text ← paint nocolor r s.state e
      some ⟨s, t.write text, r, asked⟩
  | _ => some ⟨s, t.write (ascii "\n"), r, asked⟩

/-- A turn. The callback prints `out`. When the shell asks for the cursor for the `k`th time, the
    answer of the terminal comes behind the first `ahead k` bytes of what is typed. -/
def Console.step (nocolor : Bool) (fnc : Fnc) (out : ℕ → List UInt8 → List UInt8) (ahead : ℕ → ℕ)
    (c : Console) : Option Console :=
  match c.session.point with
  | .reading => do
      let t := c.term.write (ascii "\x1b[6n")
      let typed := c.session.input.take (ahead c.asked)
      let later := c.session.input.drop (ahead c.asked)
      let (rc, input) ← location (typed ++ (t.answers ++ later))
      let s ← Shell.step fnc { c.session with input := input }
      Console.show nocolor s { t with answers := [] } rc.1 (c.asked + 1)
  | .editing _ => do
      let s ← Shell.step fnc c.session
      -- Control-L
      if (getchar c.session.input).1 = 12 then
        Console.show nocolor s (c.term.write (clearText ++ posText 1 1)) 1 c.asked
      else Console.show nocolor s c.term c.r c.asked
  | .calling => do
      let line ← c.session.state.mem.string c.session.state.buf
      let s ← Shell.step fnc c.session
      let t := c.term.write (out c.session.calls line)
      some ⟨s, if s.point = .returned then t else t.write clearText, c.r, c.asked⟩
  | .returned => some c

/-! ## What is on the screen -/

/-- The line in a row, behind the prompt, with the cursor on it. What is above the row stays, and
    nothing is below. -/
def display (t : Terminal) (row : ℕ) (text : Text) : Terminal :=
  { t with
    cells := fun r c =>
      if r < row then t.cells r c
      else if r = row then ((prompt ++ (text.before ++ text.after))[c]?).getD blank
      else blank
    row := row
    col := prompt.length + text.before.length
    mode := .ground }

/-- A desk and a screen. -/
structure Page where
  desk : Desk
  term : Terminal
  asked : ℕ

/-- The line is shown in a row of the screen, or ended. -/
def Page.show (d : Desk) (t : Terminal) (row asked : ℕ) : Page :=
  match d.doing with
  | .editing ed => ⟨d, display t row ed.text, asked⟩
  | _ => ⟨d, t.newline, asked⟩

/-- A turn. What is typed before the terminal answers is lost. -/
def Page.step (called : Callback) (out : ℕ → List UInt8 → List UInt8) (ahead : ℕ → ℕ) (p : Page) :
    Page :=
  match p.desk.doing with
  | .reading =>
      let d := { p.desk with input := p.desk.input.drop (ahead p.asked) }
      Page.show (d.step called) p.term p.term.row (p.asked + 1)
  | .editing _ =>
      let row := if (getchar p.desk.input).1 = 12 then 0 else p.term.row
      Page.show (p.desk.step called) p.term row p.asked
  | .calling line =>
      let d := p.desk.step called
      let t := p.term.write (out p.desk.history.length line)
      ⟨d, if d.doing = .returned then t else t.clear, p.asked⟩
  | .returned => p

/-! ## What the sequences do -/

section

variable {t : Terminal}

theorem decimal_natCast (n : ℕ) : decimal n = digits n := by
  rw [decimal, if_neg (by omega), List.nil_append, Int.natAbs_natCast]

theorem write_posText (t : Terminal) (r c : ℕ) :
    t.write (posText r c) = { t with mode := .ground }.goto r c := by
  rw [posText, decimal_natCast, decimal_natCast]
  exact write_gotoText t r c

theorem write_clearText (t : Terminal) :
    t.write clearText = { t with mode := .ground }.clear :=
  write_control t [48] (by simp [Parameter]) (by decide) (by decide)

/-- A sequence that shows nothing. -/
theorem write_style (hmode : t.mode = .ground) (ps : List UInt8) (h : ∀ p ∈ ps, Parameter p)
    {b : UInt8} (hb : b = 109 ∨ b = 104) : t.write (27 :: 91 :: (ps ++ [b])) = t := by
  have hground : { t with mode := .ground } = t := by rw [← hmode]
  rcases hb with rfl | rfl
  · rw [write_control t ps h (by decide) (by decide), hground]
    rfl
  · rw [write_control t ps h (by decide) (by decide), hground]
    rfl

theorem write_termColor (hmode : t.mode = .ground) (nocolor : Bool) (color : ℕ) :
    t.write (termColor nocolor color) = t := by
  cases nocolor with
  | true => rfl
  | false => exact write_style hmode _ parameter_digits (.inl rfl)

theorem write_termBold (hmode : t.mode = .ground) (nocolor : Bool) :
    t.write (termBold nocolor) = t := by
  cases nocolor with
  | true => rfl
  | false => exact write_style hmode [49] (by simp [Parameter]) (.inl rfl)

theorem write_termReset (hmode : t.mode = .ground) (nocolor : Bool) :
    t.write (termReset nocolor) = t := by
  cases nocolor with
  | true => rfl
  | false =>
      have hshow : t.write (ascii "\x1b[?25h") = t :=
        write_style hmode [63, 50, 53] (by simp [Parameter]) (.inr rfl)
      show t.write (ascii "\x1b[?25h" ++ ascii "\x1b[0m") = t
      rw [write_append, hshow]
      exact write_style hmode [48] (by simp [Parameter]) (.inl rfl)

/-- Bytes that are shown as characters. -/
def Plain (s : List UInt8) : Prop := ∀ b ∈ s, Terminal.Shows b

theorem plain_prompt : Plain prompt := by
  have hall : prompt.all fun b => decide (Terminal.Shows b) := by decide
  exact fun b hb => of_decide_eq_true (List.all_eq_true.1 hall b hb)

/-- The text fits behind the prompt. -/
def Fits (width : ℕ) (text : Text) : Prop := prompt.length + text.length < width

/-- A text is shown behind the prompt, in a row that is blank. -/
theorem write_prompt {row : ℕ} {s : List UInt8} (hmode : t.mode = .ground) (hcol : t.col = 0)
    (hblank : ∀ c, t.cells t.row c = blank) (hplain : Plain s)
    (hfits : prompt.length + s.length < t.width) (hrow : t.row = row) :
    (t.write prompt).mode = .ground ∧ (t.write prompt).write s = { t with
      cells := fun r c => if r = row then ((prompt ++ s)[c]?).getD blank else t.cells r c
      col := prompt.length + s.length } := by
  subst hrow
  have hprompt := write_chars hmode plain_prompt (by omega)
  have hmode' : (t.write prompt).mode = .ground := by
    rw [hprompt]
    exact hmode
  refine ⟨hmode', ?_⟩
  rw [write_chars hmode' hplain (by rw [hprompt]; simp only; omega), hprompt]
  simp only [hcol, Nat.zero_add, Terminal.mk.injEq, true_and, and_true]
  funext r c
  by_cases hr : r = t.row
  · subst hr
    by_cases hc : c < prompt.length
    · simp [Nat.not_le.2 hc, List.getElem?_append_left hc, hblank]
    · have hle := Nat.le_of_not_lt hc
      simp [hle, List.getElem?_append_right hle, hblank]
  · simp [hr]

/-- **What a turn prints shows the line.** -/
theorem write_paint (nocolor : Bool) {row : ℕ} (hrow : row < t.height) {text : Text}
    (hplain : Plain (text.before ++ text.after)) (hfits : Fits t.width text) :
    t.write (posText (row + 1 : ℕ) 1 ++ (clearText ++ (termColor nocolor 4 ++ (termBold nocolor ++
      (prompt ++ (termReset nocolor ++ ((text.before ++ text.after) ++
        posText (row + 1 : ℕ) (text.before.length + 1 + prompt.length : ℕ)))))))) =
      display t row text := by
  have hlen : (text.before ++ text.after).length = text.length := List.length_append
  unfold Fits at hfits
  obtain ⟨t₁, ht₁⟩ : ∃ t₁ : Terminal, t₁ = { t with
    cells := fun r c => if r < row then t.cells r c else blank
    row := row
    col := 0
    mode := .ground } := ⟨_, rfl⟩
  have hclear : (t.write (posText (row + 1 : ℕ) 1)).write clearText = t₁ := by
    rw [show (1 : ℤ) = (1 : ℕ) from rfl, write_posText, write_clearText, ht₁]
    unfold goto clear
    simp [show min row (t.height - 1) = row by omega]
  have hmode : t₁.mode = .ground := by rw [ht₁]
  obtain ⟨hmode₂, htext⟩ := write_prompt hmode (by rw [ht₁]) (by simp [ht₁]) hplain
    (by rw [hlen, ht₁]; exact hfits) (show t₁.row = row by rw [ht₁])
  rw [write_append, write_append, hclear, write_append, write_termColor hmode, write_append,
    write_termBold hmode, write_append, write_append, write_termReset hmode₂, write_append, htext,
    write_posText, ht₁]
  unfold goto display
  simp only [Terminal.mk.injEq, true_and, and_true]
  have hbefore : text.before.length ≤ text.length := Nat.le_add_right _ _
  refine ⟨?_, by omega, by omega⟩
  funext r c
  by_cases hr : r = row
  · simp [hr]
  · by_cases hlt : r < row <;> simp [hr, hlt]

end

/-! ## Lines are plain -/

/-- The lines of the history are plain, and so is the one that is edited or handed over. -/
def Desk.Plain (d : Desk) : Prop :=
  (∀ s ∈ d.history, Shell.Plain s) ∧
    match d.doing with
    | .editing ed => Shell.Plain (ed.text.before ++ ed.text.after)
    | .calling line => Shell.Plain line
    | _ => True

/-- A key inserts a plain character. -/
theorem shows_of_readKey {input : List UInt8} {c : UInt8} (h : (readKey input).1 = .insert c) :
    Terminal.Shows c := by
  have hescape : ∀ k, Key.ofEscape k ≠ .insert c := by
    intro k
    unfold Key.ofEscape
    split_ifs <;> simp
  unfold readKey at h
  simp only at h
  split_ifs at h
  · exact absurd h (hescape _)
  · unfold Key.ofByte at h
    split_ifs at h with h₁ h₂ h₃ h₄ h₅ h₆
    · obtain rfl := Key.insert.inj h
      exact ⟨by decide, by decide⟩
    · obtain rfl := Key.insert.inj h
      simp only [isprint, Bool.and_eq_true, decide_eq_true_eq] at h₆
      obtain ⟨n, hn⟩ := Int.eq_ofNat_of_zero_le (show 0 ≤ (getchar input).1 by omega)
      have hchar : (toChar (getchar input).1).toNat = n := by
        rw [toChar, hn, UInt8.toNat_ofNat']
        omega
      refine ⟨UInt8.le_iff_toNat_le.2 ?_, fun h127 => ?_⟩
      · rw [hchar]
        exact (show 32 ≤ n by omega)
      · rw [h127] at hchar
        have : n = 127 := hchar.symm
        omega

variable {history : List (List UInt8)} {d : Desk} {called : Callback}

theorem plain_getD (h : ∀ s ∈ history, Plain s) (k : ℕ) : Plain (history.getD k []) := by
  rw [List.getD_eq_getElem?_getD]
  cases hk : history[k]? with
  | none => exact List.forall_mem_nil _
  | some s => exact h s (List.mem_of_getElem? hk)

theorem press_plain (hh : ∀ s ∈ history, Plain s) {ed : Editor}
    (h : Plain (ed.text.before ++ ed.text.after)) {key : Key}
    (hk : ∀ c, key = .insert c → Terminal.Shows c) :
    Plain ((ed.press history key).text.before ++ (ed.press history key).text.after) := by
  obtain ⟨⟨before, after⟩, pos⟩ := ed
  obtain ⟨hb, ha⟩ := List.forall_mem_append.1 h
  cases key with
  | insert c =>
      simp only [Editor.press, Text.insert]
      split_ifs
      · refine List.forall_mem_append.2 ⟨List.forall_mem_append.2 ⟨hb, ?_⟩, ha⟩
        simpa using hk c rfl
      · exact h
  | backspace =>
      exact List.forall_mem_append.2 ⟨fun b hm => hb b (List.mem_of_mem_dropLast hm), ha⟩
  | delete => exact List.forall_mem_append.2 ⟨hb, fun b hm => ha b (List.mem_of_mem_tail hm)⟩
  | kill => exact List.forall_mem_append.2 ⟨hb, List.forall_mem_nil _⟩
  | left =>
      refine List.forall_mem_append.2 ⟨fun b hm => hb b (List.mem_of_mem_dropLast hm),
        List.forall_mem_append.2 ⟨fun b hm => hb b ?_, ha⟩⟩
      exact List.mem_of_getLast? (Option.mem_toList.1 hm)
  | right =>
      cases after with
      | nil => exact h
      | cons c after => simpa [Editor.press, Text.right] using h
  | up =>
      simp only [Editor.press]
      split_ifs
      · simpa [Editor.recalled] using plain_getD hh (pos - 1)
      · exact h
  | down =>
      simp only [Editor.press]
      split_ifs
      · simpa [Editor.recalled] using plain_getD hh (pos + 1)
      · exact h
  | enter => exact h
  | other => exact h

/-- A callback that leaves plain lines keeps the desk plain. -/
theorem Desk.Plain.step (h : d.Plain) (hcalled : ∀ k s, Shell.Plain s → Shell.Plain (called k s).2) :
    (d.step called).Plain := by
  obtain ⟨history, input, doing⟩ := d
  obtain ⟨hh, hd⟩ := h
  cases doing with
  | reading => exact ⟨hh, List.forall_mem_nil _⟩
  | editing ed =>
      have hd : Shell.Plain (ed.text.before ++ ed.text.after) := hd
      unfold Desk.step Typing.turn
      simp only
      by_cases hkey : (readKey input).1 = .enter
      · by_cases hblank : trim (ed.text.before ++ ed.text.after) = []
        · simp only [hkey, hblank, if_true, Desk.entered]
          exact ⟨hh, trivial⟩
        · simp only [hkey, hblank, if_true, if_false, Desk.entered]
          exact ⟨hh, fun b hm => hd b (mem_of_mem_trim hm)⟩
      · simp only [hkey, if_false]
        exact ⟨hh, press_plain hh hd fun c hc => shows_of_readKey hc⟩
  | calling line =>
      refine ⟨List.forall_mem_append.2 ⟨hh, by simpa using hcalled history.length line hd⟩, ?_⟩
      unfold Desk.step
      by_cases hret : (called history.length line).1 ≠ 0
      · simp only [if_pos hret]
      · simp only [if_neg hret]
  | returned => exact ⟨hh, trivial⟩

/-! ## The callback prints -/

/-- Characters and ends of lines. -/
def Printed (bs : List UInt8) : Prop := ∀ b ∈ bs, b = 10 ∨ Terminal.Shows b

/-- They leave the terminal at rest. -/
theorem write_printed {t : Terminal} {bs : List UInt8} (hmode : t.mode = .ground)
    (h : Printed bs) : (t.write bs).mode = .ground ∧ (t.write bs).answers = t.answers := by
  have hnewline : ∀ t : Terminal, t.newline.mode = t.mode ∧ t.newline.answers = t.answers := by
    intro t
    unfold newline
    split_ifs <;> exact ⟨rfl, rfl⟩
  induction bs generalizing t with
  | nil => exact ⟨hmode, rfl⟩
  | cons b bs ih =>
      obtain ⟨hb, hbs⟩ := List.forall_mem_cons.1 h
      have hfeed : (t.feed b).mode = .ground ∧ (t.feed b).answers = t.answers := by
        have h27 : b ≠ 27 := by
          rintro rfl
          rcases hb with hb | hb
          · exact absurd hb (by decide)
          · exact absurd hb.1 (by decide)
        unfold feed
        rw [if_neg h27, hmode]
        simp only
        unfold character put
        split_ifs
        · exact ⟨(hnewline t).1.trans hmode, (hnewline t).2⟩
        · exact ⟨hmode, rfl⟩
        · exact ⟨hmode, rfl⟩
        · exact ⟨(hnewline t).1.trans hmode, (hnewline t).2⟩
      obtain ⟨h₁, h₂⟩ := ih hfeed.1 hbs
      exact ⟨h₁, h₂.trans hfeed.2⟩

/-- Nothing is on the screen behind the cursor. -/
def Clean (t : Terminal) : Prop :=
  ∀ r x, t.row < r ∨ (r = t.row ∧ t.col ≤ x) → t.cells r x = blank

/-! ## Turns -/

/-- The line is behind the prompt in the row of the cursor, with the cursor on it, and nothing is
    below. -/
structure OnScreen (t : Terminal) (text : Text) : Prop where
  line : ∀ x, t.cells t.row x = ((prompt ++ (text.before ++ text.after))[x]?).getD blank
  cursor : t.col = prompt.length + text.before.length
  below : ∀ r, t.row < r → ∀ x, t.cells r x = blank

theorem onScreen_display (t : Terminal) (row : ℕ) (text : Text) :
    OnScreen (display t row text) text where
  line x := by simp [display]
  cursor := rfl
  below r hr x := by
    have hr : row < r := hr
    simp only [display]
    rw [if_neg (by omega), if_neg (by omega)]

/-- The next line is clean. -/
theorem OnScreen.newline {t : Terminal} {text : Text} (h : OnScreen t text) :
    t.newline.col = 0 ∧ Clean t.newline := by
  unfold Terminal.newline Clean
  split_ifs with hlast
  · refine ⟨rfl, fun r x hrx => ?_⟩
    simp only at hrx ⊢
    exact h.below r (by omega) x
  · refine ⟨rfl, fun r x hrx => ?_⟩
    simp only at hrx ⊢
    by_cases hr : r + 1 < t.height
    · rw [if_pos hr]
      exact h.below (r + 1) (by omega) x
    · rw [if_neg hr]

/-- The console is as the page says. -/
structure Page.Shown (p : Page) (c : Console) : Prop where
  desk : p.desk.Shown c.session
  term : c.term = p.term
  asked : c.asked = p.asked
  r : ∀ ed, p.desk.doing = .editing ed → c.r = (p.term.row + 1 : ℕ)
  screen : ∀ ed, p.desk.doing = .editing ed → OnScreen p.term ed.text
  ended : ∀ line, p.desk.doing = .calling line → p.term.col = 0 ∧ Clean p.term
  plain : p.desk.Plain
  mode : p.term.mode = .ground
  answers : p.term.answers = []
  row : p.term.row < p.term.height
  rows : p.term.height < 2 ^ 31

/-- There is room for what comes next, nothing that was typed ahead is taken for an answer of the
    terminal, and the line will fit in a row. -/
structure Page.Good (called : Callback) (out : ℕ → List UInt8 → List UInt8) (ahead : ℕ → ℕ)
    (p : Page) : Prop where
  room : p.desk.Room
  leads : p.desk.doing = .reading → ¬ Misleads (chars (p.desk.input.take (ahead p.asked)))
  fits : ∀ ed, (p.step called out ahead).desk.doing = .editing ed → Fits p.term.width ed.text

section

variable {nocolor : Bool} {fnc : Fnc} {out : ℕ → List UInt8 → List UInt8} {ahead : ℕ → ℕ}
  {p : Page} {c : Console} {sh : Session} {t : Terminal} {row : ℕ}

/-- A turn that ends at the top of the loop shows the line, wherever the cursor was. -/
theorem show_editing (nocolor : Bool) (t' : Terminal) {ed : Editor} (h : d.Shown sh)
    (hplain : d.Plain)
    (hed : d.doing = .editing ed) (hrow : row < t.height) (hrows : t.height < 2 ^ 31)
    (hanswers : t.answers = [])
    (hfits : Fits t.width ed.text) (hheight : t'.height = t.height) (hwidth : t'.width = t.width)
    (hdisplay : display t' row ed.text = display t row ed.text) (asked : ℕ) :
    ∃ c, Console.show nocolor sh t' (row + 1 : ℕ) asked = some c ∧
      (Page.show d t row asked).Shown c := by
  have hdoing := h.doing
  rw [hed] at hdoing
  cases hpt : sh.point with
  | reading | calling | returned =>
      rw [hpt] at hdoing
      exact hdoing.elim
  | editing e =>
      rw [hpt] at hdoing
      obtain ⟨st₀, -, -, -, ⟨rest, hline⟩, -⟩ := hdoing
      have htext : Shell.Plain (ed.text.before ++ ed.text.after) := by
        have := hplain.2
        rwa [hed] at this
      have hstring : sh.state.mem.string sh.state.buf = some (ed.text.before ++ ed.text.after) :=
        string_mid (by simpa using hline.bytes) hline.buf hline.nul
      have hcursor : e.i + 1 + prompt.length =
          ((ed.text.before.length + 1 + prompt.length : ℕ) : ℤ) := by
        rw [hline.i]
        push_cast
        ring
      have hpaint := write_paint nocolor (show row < t'.height by omega) htext (hwidth ▸ hfits)
      unfold Console.show Page.show paint
      rw [hpt, hed]
      simp only [hstring, Option.bind_eq_bind, Option.bind_some, hcursor]
      refine ⟨_, rfl, h, by rw [hpaint, hdisplay], rfl, fun _ _ => rfl, fun ed' hed' => ?_,
        fun line hline => ?_, hplain, rfl, hanswers, hrow, hrows⟩
      · obtain rfl := Doing.editing.inj (hed.symm.trans hed')
        exact onScreen_display t row ed.text
      · exact absurd (hed.symm.trans hline) (by simp)

/-- A turn that ends behind the loop ends the line. -/
theorem show_end (nocolor : Bool) (h : d.Shown sh) (hplain : d.Plain)
    (hed : ∀ ed, d.doing ≠ .editing ed)
    (hmode : t.mode = .ground) (hrow : t.row < t.height) (hrows : t.height < 2 ^ 31)
    (hanswers : t.answers = []) {text : Text} (hscreen : OnScreen t text) (r : ℤ) (row asked : ℕ) :
    ∃ c, Console.show nocolor sh t r asked = some c ∧ (Page.show d t row asked).Shown c := by
  have hdoing := h.doing
  have hnewline : t.write (ascii "\n") = t.newline := by
    show t.feed 10 = t.newline
    unfold feed
    rw [if_neg (by decide), hmode]
    rfl
  have hkeep : t.newline.mode = .ground ∧ t.newline.answers = [] := by
    unfold newline
    split_ifs <;> exact ⟨hmode, hanswers⟩
  have hrow' : t.newline.row < t.newline.height := by
    rw [(t.newline_size).2]
    exact newline_row hrow
  have hpage : Page.show d t row asked = ⟨d, t.newline, asked⟩ := by
    unfold Page.show
    cases hd : d.doing <;> first | rfl | exact absurd hd (hed _)
  have hconsole : Console.show nocolor sh t r asked =
      some ⟨sh, t.write (ascii "\n"), r, asked⟩ := by
    unfold Console.show
    cases hpt : sh.point <;> first | rfl | skip
    rw [hpt] at hdoing
    cases hd : d.doing <;> rw [hd] at hdoing <;> first | exact hdoing.elim | exact absurd hd (hed _)
  rw [hconsole, hpage, hnewline]
  exact ⟨_, rfl, h, rfl, rfl, fun ed hd => absurd hd (hed ed), fun ed hd => absurd hd (hed ed),
    fun _ _ => hscreen.newline, hplain, hkeep.1, hkeep.2, hrow', (t.newline_size).2 ▸ hrows⟩

theorem Page.show_desk (d : Desk) (t : Terminal) (row asked : ℕ) :
    (Page.show d t row asked).desk = d := by
  unfold Page.show
  cases d.doing <;> rfl

/-- What is typed before the answer comes is skipped. -/
theorem Desk.Shown.skip (h : d.Shown sh) (hpt : sh.point = .reading) (input : List UInt8) :
    Desk.Shown { d with input := input } { sh with input := input } := by
  obtain ⟨hinv, -, hcalls, hdoing⟩ := h
  obtain ⟨history, typed, doing⟩ := d
  obtain ⟨st, typed', calls, point⟩ := sh
  obtain rfl : point = .reading := hpt
  exact ⟨hinv, rfl, hcalls, by cases doing <;> exact hdoing⟩

/-- The shell asks for the cursor, and a line begins. -/
theorem Page.Shown.read (h : p.Shown c) (hgood : p.Good called out ahead)
    (hplain : (p.step called out ahead).desk.Plain) (hdoing : p.desk.doing = .reading) :
    ∃ c', c.step nocolor fnc out ahead = some c' ∧ (p.step called out ahead).Shown c' := by
  have hpt : c.session.point = .reading := by
    have hd := h.desk.doing
    rw [hdoing] at hd
    cases hpt : c.session.point <;> first | rfl | (rw [hpt] at hd; exact hd.elim)
  have hinput := h.desk.input
  have hroom := hgood.room
  unfold Desk.Room at hroom
  rw [hdoing] at hroom
  obtain ⟨s, hs, hdesk⟩ := (h.desk.skip hpt (p.desk.input.drop (ahead p.asked))).read
    (by unfold Desk.Room; simp only [hdoing]; exact hroom) (by simp [hpt]) fnc called
  have hask : c.term.write (ascii "\x1b[6n") = { p.term with
      answers := position (p.term.row + 1) (min p.term.col (p.term.width - 1) + 1) } := by
    have hcontrol :=
      write_control p.term [54] (b := 110) (by simp [Parameter]) (by decide) (by decide)
    have hground : { p.term with mode := .ground } = p.term := by rw [← h.mode]
    rw [hground] at hcontrol
    rw [h.term]
    exact hcontrol.trans (by simp [Terminal.control, report, h.answers])
  have hfound := (location_finds (p.desk.input.take (ahead p.asked))
    (p.desk.input.drop (ahead p.asked)) (p.term.row + 1)
    (min p.term.col (p.term.width - 1) + 1)).2 (hgood.leads hdoing)
  rw [toInt_of_lt (n := p.term.row + 1) (by have := h.row; have := h.rows; omega)] at hfound
  have hstep : p.step called out ahead = Page.show
      (Desk.step called { p.desk with input := p.desk.input.drop (ahead p.asked) }) p.term
      p.term.row (p.asked + 1) := by
    unfold Page.step
    rw [hdoing]
  have hed : (Desk.step called { p.desk with input := p.desk.input.drop (ahead p.asked) }).doing =
      .editing (Editor.start p.desk.history) := by
    unfold Desk.step
    simp only [hdoing]
  have hfits := hgood.fits
  rw [hstep, Page.show_desk] at hplain hfits
  have hback : { c.term.write (ascii "\x1b[6n") with answers := [] } = p.term := by
    rw [hask]
    simp only
    rw [← h.answers]
  obtain ⟨c', hc', hshown⟩ := show_editing nocolor p.term hdesk hplain hed h.row h.rows h.answers
    (hfits _ hed) rfl rfl rfl (p.asked + 1)
  refine ⟨c', ?_, hstep ▸ hshown⟩
  unfold Console.step
  rw [hpt]
  simp only [hback, hinput, h.asked]
  rw [hask]
  simp only [hfound, Option.bind_eq_bind, Option.bind_some]
  rw [hs]
  exact hc'

/-- A key. -/
theorem Page.Shown.key (h : p.Shown c) (hgood : p.Good called out ahead)
    (hplain : (p.step called out ahead).desk.Plain) {ed : Editor}
    (hdoing : p.desk.doing = .editing ed) :
    ∃ c', c.step nocolor fnc out ahead = some c' ∧ (p.step called out ahead).Shown c' := by
  obtain ⟨e, hpt⟩ : ∃ e, c.session.point = .editing e := by
    have hd := h.desk.doing
    rw [hdoing] at hd
    cases hpt : c.session.point <;> first | exact ⟨_, rfl⟩ | (rw [hpt] at hd; exact hd.elim)
  have hinput := h.desk.input
  obtain ⟨s, hs, hdesk⟩ := h.desk.read hgood.room (by simp [hpt]) fnc called
  obtain ⟨row, hrow⟩ : ∃ row, row = if (getchar p.desk.input).1 = 12 then 0 else p.term.row :=
    ⟨_, rfl⟩
  have hstep : p.step called out ahead = Page.show (p.desk.step called) p.term row p.asked := by
    rw [hrow]
    unfold Page.step
    rw [hdoing]
  have hfits := hgood.fits
  rw [hstep, Page.show_desk] at hplain hfits
  have hlt : row < p.term.height := by
    rw [hrow]
    split_ifs
    · exact lt_of_le_of_lt (Nat.zero_le _) h.row
    · exact h.row
  have hconsole (t : Terminal) (c' : Console)
      (ht : t = if (getchar p.desk.input).1 = 12 then c.term.write (clearText ++ posText 1 1)
        else c.term)
      (hc' : Console.show nocolor s t (if (getchar p.desk.input).1 = 12 then 1 else c.r) p.asked =
        some c') : c.step nocolor fnc out ahead = some c' := by
    unfold Console.step
    rw [hpt]
    simp only [hs, hinput, h.asked, Option.bind_eq_bind, Option.bind_some]
    rw [← hc', ht]
    split_ifs <;> rfl
  rw [hstep]
  by_cases hl : (getchar p.desk.input).1 = 12
  · -- Control-L is no key of the editor
    rw [if_pos hl] at hrow
    subst hrow
    have hed : (p.desk.step called).doing = .editing ed := by
      have hkey : readKey p.desk.input = (.other, (getchar p.desk.input).2) := by
        simp [readKey, hl, Key.ofByte, isprint]
      unfold Desk.step Typing.turn
      simp only [hdoing, hkey]
      rfl
    have hwrite : c.term.write (clearText ++ posText 1 1) =
        { p.term.clear with row := 0, col := 0, mode := .ground } := by
      rw [h.term, write_append, write_clearText, show (1 : ℤ) = (1 : ℕ) from rfl, write_posText]
      simp [goto, clear]
    obtain ⟨c', hc', hshown⟩ := show_editing nocolor (c.term.write (clearText ++ posText 1 1)) hdesk
      hplain hed hlt h.rows h.answers (hfits _ hed) (by rw [hwrite]; rfl) (by rw [hwrite]; rfl)
      (by rw [hwrite]; simp [display, clear]) p.asked
    exact ⟨c', hconsole _ c' (by rw [if_pos hl]) (by rw [if_pos hl]; exact hc'), hshown⟩
  · rw [if_neg hl] at hrow
    subst hrow
    by_cases hed : ∃ ed', (p.desk.step called).doing = .editing ed'
    · obtain ⟨ed', hed⟩ := hed
      obtain ⟨c', hc', hshown⟩ := show_editing nocolor p.term hdesk hplain hed hlt h.rows h.answers
        (hfits _ hed) rfl rfl rfl p.asked
      exact ⟨c', hconsole _ c' (by rw [if_neg hl, h.term])
        (by rw [if_neg hl, h.r ed hdoing]; exact hc'), hshown⟩
    · obtain ⟨c', hc', hshown⟩ := show_end nocolor hdesk hplain
        (fun ed' hd => hed ⟨ed', hd⟩) h.mode h.row h.rows h.answers (h.screen ed hdoing) c.r p.term.row
        p.asked
      exact ⟨c', hconsole _ c' (by rw [if_neg hl, h.term]) (by rw [if_neg hl]; exact hc'), hshown⟩

/-- The callback prints. -/
theorem Page.Shown.call (h : p.Shown c) (hplain : (p.step fnc.called out ahead).desk.Plain)
    (hout : ∀ k s, Plain s → Printed (out k s)) {line : List UInt8}
    (hdoing : p.desk.doing = .calling line) :
    ∃ c', c.step nocolor fnc out ahead = some c' ∧ (p.step fnc.called out ahead).Shown c' := by
  have hd := h.desk.doing
  rw [hdoing] at hd
  have hpt : c.session.point = .calling := by
    cases hpt : c.session.point <;> first | rfl | (rw [hpt] at hd; exact hd.elim)
  rw [hpt] at hd
  have hhands : Hands c.session.state p.desk.history line := hd
  obtain ⟨l, r, hb, hl, hnul, -⟩ := hhands.line
  have hstring : c.session.state.mem.string c.session.state.buf = some line :=
    string_mid hb (by rw [State.buf, slot, hhands.i, hl, Nat.cast_mul]) hnul
  obtain ⟨s, hs, hdesk⟩ := h.desk.call hpt fnc
  have hline : Plain line := by
    have := h.plain.2
    rwa [hdoing] at this
  obtain ⟨t, ht⟩ : ∃ t, t = p.term.write (out p.desk.history.length line) := ⟨_, rfl⟩
  obtain ⟨hmode, hanswers⟩ := write_printed h.mode (hout p.desk.history.length line hline)
  have hrow := write_row h.row (out p.desk.history.length line)
  have hrows := h.rows
  rw [← (write_size p.term (out p.desk.history.length line)).2, ← ht] at hrow hrows
  rw [← ht] at hmode hanswers
  rw [h.answers] at hanswers
  have hstep : p.step fnc.called out ahead = ⟨p.desk.step fnc.called,
      if (p.desk.step fnc.called).doing = .returned then t else t.clear, p.asked⟩ := by
    rw [ht]
    unfold Page.step
    rw [hdoing]
  have hended : s.point = .returned ↔ (p.desk.step fnc.called).doing = .returned := by
    have hd' := hdesk.doing
    constructor
    · intro hret
      rw [hret] at hd'
      cases hdo : (p.desk.step fnc.called).doing <;>
        first | rfl | (rw [hdo] at hd'; exact hd'.elim)
    · intro hret
      rw [hret] at hd'
      cases hpt : s.point <;> first | rfl | (rw [hpt] at hd'; exact hd'.elim)
  have hground : { t with mode := .ground } = t := by rw [← hmode]
  rw [hstep] at hplain
  unfold Console.step
  rw [hpt, hstep]
  simp only [hstring, hs, h.term, h.desk.calls, ← ht, hended, write_clearText, hground,
    Option.bind_eq_bind, Option.bind_some]
  have hnext : (∀ ed, (p.desk.step fnc.called).doing ≠ .editing ed) ∧
      ∀ line, (p.desk.step fnc.called).doing ≠ .calling line := by
    unfold Desk.step
    rw [hdoing]
    simp only
    split_ifs <;> simp
  refine ⟨_, rfl, hdesk, rfl, h.asked, fun ed hed => absurd hed (hnext.1 ed),
    fun ed hed => absurd hed (hnext.1 ed), fun line hed => absurd hed (hnext.2 line), hplain, ?_, ?_,
    ?_, ?_⟩
  · split_ifs
    · exact hmode
    · exact hmode
  · split_ifs
    · exact hanswers
    · exact hanswers
  · split_ifs
    · exact hrow
    · exact hrow
  · split_ifs
    · exact hrows
    · exact hrows

theorem Page.step_plain (h : p.desk.Plain) (hcalled : ∀ k s, Plain s → Plain (called k s).2) :
    (p.step called out ahead).desk.Plain := by
  unfold Page.step
  cases hdoing : p.desk.doing with
  | reading =>
      have hskip : Desk.Plain { p.desk with input := p.desk.input.drop (ahead p.asked) } := h
      simp only [Page.show_desk]
      exact Desk.Plain.step hskip hcalled
  | editing ed =>
      simp only [Page.show_desk]
      exact h.step hcalled
  | calling line => exact h.step hcalled
  | returned => exact h

/-- **One turn of the shell at its terminal.** -/
theorem Page.Shown.step (h : p.Shown c) (hgood : p.Good fnc.called out ahead)
    (hleaves : ∀ k s, Plain s → Plain (fnc.leaves k s))
    (hout : ∀ k s, Plain s → Printed (out k s)) :
    ∃ c', c.step nocolor fnc out ahead = some c' ∧ (p.step fnc.called out ahead).Shown c' := by
  have hplain : (p.step fnc.called out ahead).desk.Plain := Page.step_plain h.plain hleaves
  cases hdoing : p.desk.doing with
  | reading => exact h.read hgood hplain hdoing
  | editing ed => exact h.key hgood hplain hdoing
  | calling line => exact h.call hplain hout hdoing
  | returned =>
      have hpt : c.session.point = .returned := by
        have hd := h.desk.doing
        rw [hdoing] at hd
        cases hpt : c.session.point <;> first | rfl | (rw [hpt] at hd; exact hd.elim)
      refine ⟨c, by unfold Console.step; rw [hpt], ?_⟩
      unfold Page.step
      rw [hdoing]
      exact h

/-! ## Runs -/

/-- The terminal is not in an escape sequence and has nothing to say, and the number of a row can be
    stored in an `int`. -/
structure Rests (t : Terminal) : Prop where
  mode : t.mode = .ground
  answers : t.answers = []
  row : t.row < t.height
  rows : t.height < 2 ^ 31

/-- The shell when it starts. `location` assigns `r` before it is used. -/
def Console.start (termios input : List UInt8) (t : Terminal) : Console :=
  ⟨⟨State.zero termios, input, 0, .reading⟩, t, 0, 0⟩

def Page.start (input : List UInt8) (t : Terminal) : Page := ⟨Desk.start input, t, 0⟩

theorem Page.shown_start {termios : List UInt8} (h : termios ≠ []) (input : List UInt8)
    (ht : Rests t) : (Page.start input t).Shown (Console.start termios input t) where
  desk := Desk.shown_start h input
  term := rfl
  asked := rfl
  r := fun _ hed => Doing.noConfusion hed
  screen := fun _ hed => Doing.noConfusion hed
  ended := fun _ hed => Doing.noConfusion hed
  plain := ⟨List.forall_mem_nil _, trivial⟩
  mode := ht.mode
  answers := ht.answers
  row := ht.row
  rows := ht.rows

end

instance (width : ℕ) : ∀ doing : Doing,
    Decidable (∀ ed, doing = .editing ed → Fits width ed.text)
  | .editing ed => decidable_of_iff (prompt.length + ed.text.length < width)
      ⟨fun h _ hed => Doing.editing.inj hed ▸ h, fun h => h ed rfl⟩
  | .reading => isTrue fun _ hed => Doing.noConfusion hed
  | .calling _ => isTrue fun _ hed => Doing.noConfusion hed
  | .returned => isTrue fun _ hed => Doing.noConfusion hed

/-- A callback that prints the line, and then the line again without an end. -/
def echo : Fnc := fun _ s => (0, s)

def echoed (_ : ℕ) (s : List UInt8) : List UInt8 := s ++ (10 :: s)

theorem plain_echo (k : ℕ) (s : List UInt8) (h : Plain s) : Plain (echo.leaves k s) := fun b hb =>
  h b (by
    have hmem := (List.takeWhile_subset _) hb
    simpa [Bytes.overwrite, echo] using hmem)

theorem printed_echoed (k : ℕ) (s : List UInt8) (h : Plain s) : Printed (echoed k s) := by
  intro b hb
  rcases List.mem_append.1 hb with hb | hb
  · exact .inr (h b hb)
  · exact (List.mem_cons.1 hb).imp id (h b)

/-- A line of one character is entered on the last row of a small screen. -/
def lastRow : Terminal := ⟨40, 3, fun _ _ => blank, 2, 0, .ground, []⟩

theorem good_lastRow : ∀ j < 5,
    (Machine.afterSpec (Page.step echo.called echoed fun _ => 0)
      (Page.start [97, 10] lastRow) j).Good echo.called echoed fun _ => 0 := by
  have hroom : ∀ j < 5, (Machine.afterSpec (Page.step echo.called echoed fun _ => 0)
      (Page.start [97, 10] lastRow) j).desk.Room := by decide
  have hfits : ∀ j < 5, ∀ ed, (Machine.afterSpec (Page.step echo.called echoed fun _ => 0)
      (Page.start [97, 10] lastRow) (j + 1)).desk.doing = .editing ed →
        Fits (Machine.afterSpec (Page.step echo.called echoed fun _ => 0)
          (Page.start [97, 10] lastRow) j).term.width ed.text := by decide
  exact fun j hj => ⟨hroom j hj, fun _ ⟨u, v, huv, _⟩ => by simp [chars] at huv, hfits j hj⟩

end CS238P.Shell
