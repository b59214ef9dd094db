import CS238P.Shell.InSlot

set_option autoImplicit false

/-! # `read_line` as a line editor

What `read_line` is for: an editor whose state is the text in front of the cursor, the text behind
it and a position in the history. It knows keys and strings, but no bytes, no terminators and no
slots. The loop of `read_line` simulates it key by key as long as no space and no tab comes on a
line that has no place left. -/

namespace CS238P.Shell

open CObject

/-! ## The editor -/

/-- What is pressed. A tab is a space. -/
inductive Key where
  | insert (c : UInt8)
  | backspace
  | delete
  | kill
  | left
  | right
  | up
  | down
  | enter
  | other
  deriving DecidableEq

/-- The key that sends one byte; EOF is no key. -/
def Key.ofByte (k : ℤ) : Key :=
  if k = 10 then .enter
  else if k = 4 then .delete
  else if k = 8 ∨ k = 127 then .backspace
  else if k = 11 then .kill
  else if k = 32 ∨ k = 9 then .insert 32
  else if isprint k then .insert (toChar k)
  else .other

/-- The key that sends an escape sequence, by its last byte. -/
def Key.ofEscape (k : ℤ) : Key :=
  if k = 65 then .up
  else if k = 66 then .down
  else if k = 67 then .right
  else if k = 68 then .left
  else .other

/-- The next key, and what is typed after it. An escape sequence has three bytes. -/
def readKey (input : List UInt8) : Key × List UInt8 :=
  let k := getchar input
  if k.1 = 27 then
    let k := getchar (getchar k.2).2
    (Key.ofEscape k.1, k.2)
  else (Key.ofByte k.1, k.2)

/-- A line with a cursor, and the position in the history of the entry it was started from. -/
structure Editor where
  text : Text
  pos : ℕ
  deriving DecidableEq

namespace Editor

/-- An empty line at the newest position. -/
def start (history : List (List UInt8)) : Editor := ⟨⟨[], []⟩, history.length⟩

/-- The entry at a position takes the place of the line, with the cursor at its end; the newest
    position is that of the empty line. -/
def recalled (history : List (List UInt8)) (pos : ℕ) : Editor := ⟨⟨history.getD pos [], []⟩, pos⟩

def press (history : List (List UInt8)) (ed : Editor) : Key → Editor
  | .insert c => { ed with text := ed.text.insert c }
  | .backspace => { ed with text := ⟨ed.text.before.dropLast, ed.text.after⟩ }
  | .delete => { ed with text := ⟨ed.text.before, ed.text.after.tail⟩ }
  | .kill => { ed with text := ⟨ed.text.before, []⟩ }
  | .left => { ed with text := ed.text.left }
  | .right => { ed with text := ed.text.right }
  | .up => if 0 < ed.pos then recalled history (ed.pos - 1) else ed
  | .down => if ed.pos < history.length then recalled history (ed.pos + 1) else ed
  | .enter | .other => ed

end Editor

/-- A line being edited, or the line that was entered: trimmed, and none if it was blank. -/
inductive Typing where
  | editing (ed : Editor) (input : List UInt8)
  | entered (line : Option (List UInt8)) (input : List UInt8)
  deriving DecidableEq

/-- One key. -/
def Typing.turn (history : List (List UInt8)) : Typing → Typing
  | .editing ed input =>
      let r := readKey input
      if r.1 = .enter then
        let line := trim (ed.text.before ++ ed.text.after)
        .entered (if line = [] then none else some line) r.2
      else .editing (ed.press history r.1) r.2
  | .entered line input => .entered line input

/-- What typing has come to after so many keys. -/
def typed (history : List (List UInt8)) (input : List UInt8) : ℕ → Typing
  | 0 => .editing (Editor.start history) input
  | k + 1 => (typed history input k).turn history

/-- A space or a tab is typed on a line that has no place left. -/
def Typing.Overfull : Typing → Prop
  | .editing ed input =>
      (32 = (getchar input).1 ∨ 9 = (getchar input).1) ∧ ed.text.length = N - 1
  | .entered _ _ => False

/-! ## Keys and bytes -/

/-- The keys that are no arrows have the effect of their bytes. -/
theorem press_ofByte (history : List (List UInt8)) (ed : Editor) {k : ℤ} (h10 : k ≠ 10) :
    ed.press history (Key.ofByte k) = { ed with text := ed.text.press k } := by
  unfold Key.ofByte Text.press
  by_cases h11 : k = 11
  · simp [h11, Editor.press]
  by_cases h12 : k = 12
  · simp [h12, Editor.press, isprint]
  by_cases h4 : k = 4
  · simp [h4, Editor.press]
  by_cases h8 : k = 8 ∨ k = 127
  · rcases h8 with rfl | rfl <;> simp [Editor.press]
  by_cases h32 : k = 32 ∨ k = 9
  · rcases h32 with rfl | rfl <;> simp [Editor.press]
  have h8' : ¬ (8 = k ∨ 127 = k) := by omega
  have h32' : ¬ (32 = k ∨ 9 = k) := by omega
  rw [if_neg h10, if_neg h4, if_neg h8, if_neg h11, if_neg h32, if_neg (Ne.symm h11),
    if_neg (Ne.symm h12), if_neg (Ne.symm h4), if_neg h8', if_neg h32']
  split_ifs <;> rfl

theorem Key.ofByte_ne_enter {k : ℤ} (h : k ≠ 10) : Key.ofByte k ≠ .enter := by
  unfold Key.ofByte
  rw [if_neg h]
  split_ifs <;> simp

theorem Key.ofEscape_ne_enter (k : ℤ) : Key.ofEscape k ≠ .enter := by
  unfold Key.ofEscape
  split_ifs <;> simp

/-! ## The simulation -/

/-- The strings in the history slots below the newest one. -/
def State.history (st : State) : List (List UInt8) :=
  (List.range st.n.toNat).map (entry st.mem.bytes)

/-- What a call of `read_line` that started in `st₀` has come to, against what typing has come to.
    What lies in front of the slot that is edited is what was there at the start, byte by byte. -/
def Shows (st₀ : State) : Typing → Call → Prop
  | .editing ed typed, .editing st e input =>
      input = typed ∧ (∃ rest, Line st₀.front ed.text.before ed.text.after rest st e) ∧
        e.j = ed.pos ∧ ed.pos ≤ st₀.history.length ∧ st.i = st₀.n ∧ st.n = st₀.n ∧
        st.mem.bytes.length = st₀.mem.bytes.length
  | .entered line typed, .returned st ret input =>
      input = typed ∧ st.mem.bytes.take (slot st₀.n).toNat = st₀.front ∧ ret = line.isSome ∧
        (line = none → st.n = st₀.n) ∧
        ∀ s, line = some s → st.i = st₀.n ∧ LineIs st s ∧ st.n = st₀.n + 1
  | _, _ => False

/-- Where `read_line` starts: the strings up to the newest slot end in their slots, and the newest
    one is empty. -/
structure Ready (st : State) : Prop where
  tidy : Tidy st
  lt : st.n < H
  empty : st.mem.load (slot st.n) = some 0

variable {st₀ : State}

theorem Ready.length_history (h : Ready st₀) : (st₀.history.length : ℤ) = st₀.n := by
  have := h.tidy.pos
  simp [State.history]
  omega

theorem Ready.front_length (h : Ready st₀) :
    st₀.front.length = st₀.history.length * N := by
  have hn := h.length_history
  have hlt := h.lt
  have hsize := h.tidy.size
  have hle := Nat.mul_le_mul_right N (show st₀.history.length ≤ H by omega)
  rw [State.front, List.length_take, slot, ← hn, ← Nat.cast_mul, Int.toNat_natCast]
  omega

/-- The history in front of the slot that is edited. -/
theorem Ready.terminated_front (h : Ready st₀) {k : ℕ} (hk : k < st₀.history.length) :
    Terminated st₀.front k ∧ entry st₀.front k = st₀.history.getD k [] := by
  have hn := h.length_history
  have hlt := h.lt
  have hfit : (k + 1) * N ≤ st₀.front.length := by
    rw [h.front_length]
    exact Nat.mul_le_mul_right N hk
  have hsplit : st₀.mem.bytes = st₀.front ++ st₀.mem.bytes.drop (slot st₀.n).toNat :=
    (List.take_append_drop _ _).symm
  constructor
  · rw [← terminated_append hfit, ← hsplit]
    exact h.tidy.slots k (by omega) (by omega)
  · have hentry : st₀.history.getD k [] = entry st₀.mem.bytes k := by
      rw [State.history, List.length_map, List.length_range] at hk
      simp [State.history, hk]
    rw [hentry, hsplit, entry_append hfit]

section Step

variable {ed : Editor} {st : State} {e : Edit} {typed input : List UInt8}

/-- A key that turns the text of the editor turns the line. -/
theorem Shows.of_turns {r : Option (State × Edit)} {j : ℤ}
    (h : Shows st₀ (.editing ed typed) (.editing st e input)) (ed' : Editor)
    (ht : Turns st₀.front ed'.text.before ed'.text.after st r j) (hj : j = ed'.pos)
    (hpos : ed'.pos ≤ st₀.history.length) (input' : List UInt8) :
    ∃ r', r = some r' ∧ Shows st₀ (.editing ed' input') (.editing r'.1 r'.2 input') := by
  obtain ⟨-, -, -, -, hi, hn, hsize⟩ := h
  obtain ⟨st', e', rest, rfl, hline, hwithin, rfl⟩ := ht
  exact ⟨_, rfl, rfl, ⟨rest, hline⟩, hj, hpos, hwithin.i.trans hi, hwithin.n.trans hn,
    hwithin.size.trans hsize⟩

/-- An entry is shown. -/
theorem Shows.recall (h₀ : Ready st₀) (h : Shows st₀ (.editing ed typed) (.editing st e input))
    {pos : ℕ} (hpos : pos ≤ st₀.history.length) (input' : List UInt8) :
    ∃ r', recallSlot st pos = some r' ∧
      Shows st₀ (.editing (Editor.recalled st₀.history pos) input') (.editing r'.1 r'.2 input') := by
  obtain ⟨-, ⟨rest, hline⟩, -, -, hi, -, -⟩ := id h
  have hlen := h₀.length_history
  rcases Nat.lt_or_eq_of_le hpos with hlt | heq
  · obtain ⟨hterm, hentry⟩ := h₀.terminated_front hlt
    obtain ⟨t, ht, hturns⟩ := hline.show_slot (Or.inl hterm)
    rw [if_neg (by omega), Text.shown, hentry] at ht
    subst ht
    exact h.of_turns (Editor.recalled st₀.history pos) hturns rfl hpos input'
  · obtain ⟨t, ht, hturns⟩ := hline.show_slot (j := pos) (Or.inr (by omega))
    rw [if_pos (by omega)] at ht
    subst ht
    have hempty : st₀.history.getD pos [] = [] := by
      rw [List.getD_eq_getElem?_getD, List.getElem?_eq_none heq.ge]
      rfl
    refine h.of_turns (Editor.recalled st₀.history pos) ?_ rfl hpos input'
    rw [Editor.recalled, hempty]
    exact hturns

/-- What follows an escape. -/
theorem Shows.arrow (h₀ : Ready st₀) (h : Shows st₀ (.editing ed typed) (.editing st e input))
    (k : ℤ) (input' : List UInt8) :
    ∃ r', arrow st e k = some r' ∧
      Shows st₀ (.editing (ed.press st₀.history (Key.ofEscape k)) input')
        (.editing r'.1 r'.2 input') := by
  obtain ⟨-, ⟨rest, hline⟩, hj, hpos, hi, hn, hsize⟩ := id h
  have hlen := h₀.length_history
  have hstays : Shows st₀ (.editing ed input') (.editing st e input') :=
    ⟨rfl, ⟨rest, hline⟩, hj, hpos, hi, hn, hsize⟩
  unfold Shell.arrow Key.ofEscape
  by_cases hA : k = 65
  · rw [if_pos hA, if_pos hA, Editor.press, hj]
    by_cases hup : 0 < ed.pos
    · rw [if_pos (by omega), if_pos hup, show ((ed.pos : ℤ) - 1) = (ed.pos - 1 : ℕ) by omega]
      exact h.recall h₀ (by omega) input'
    · rw [if_neg (by omega), if_neg hup]
      exact ⟨_, rfl, hstays⟩
  by_cases hB : k = 66
  · rw [if_neg hA, if_pos hB, if_neg hA, if_pos hB, Editor.press, hj, hn]
    by_cases hdown : ed.pos < st₀.history.length
    · rw [if_pos (by omega), if_pos hdown, ← Nat.cast_succ]
      exact h.recall h₀ hdown input'
    · rw [if_neg (by omega), if_neg hdown]
      exact ⟨_, rfl, hstays⟩
  by_cases hC : k = 67
  · rw [if_neg hA, if_neg hB, if_pos hC, if_neg hA, if_neg hB, if_pos hC]
    exact h.of_turns { ed with text := ed.text.right } hline.right hj hpos input'
  by_cases hD : k = 68
  · rw [if_neg hA, if_neg hB, if_neg hC, if_pos hD, if_neg hA, if_neg hB, if_neg hC, if_pos hD]
    exact h.of_turns { ed with text := ed.text.left } hline.left hj hpos input'
  · rw [if_neg hA, if_neg hB, if_neg hC, if_neg hD, if_neg hA, if_neg hB, if_neg hC, if_neg hD]
    exact ⟨_, rfl, hstays⟩

/-- Enter. -/
theorem Shows.enter (h₀ : Ready st₀) (h : Shows st₀ (.editing ed typed) (.editing st e input))
    (input' : List UInt8) :
    ∃ c, commit st = some c ∧
      Shows st₀ (.entered (if trim (ed.text.before ++ ed.text.after) = [] then none
        else some (trim (ed.text.before ++ ed.text.after))) input') (.returned c.1 c.2 input') := by
  obtain ⟨-, ⟨rest, hline⟩, -, -, hi, hn, hsize⟩ := h
  have hlen := h₀.length_history
  have hlt := h₀.lt
  have hfront : (slot st₀.n).toNat = st₀.front.length := by
    rw [h₀.front_length, slot, ← hlen, ← Nat.cast_mul, Int.toNat_natCast]
  by_cases hblank : trim (ed.text.before ++ ed.text.after) = []
  · obtain ⟨mem, r, hc, hb, -⟩ := hline.commit_blank hblank
    refine ⟨_, hc, ?_⟩
    rw [if_pos hblank]
    exact ⟨rfl, by rw [hb, hfront, List.take_left], rfl, fun _ => hn,
      fun s hs => absurd hs (by simp)⟩
  · obtain ⟨mem, r, hc, hb, -, -⟩ := hline.commit_line hblank (m := st₀.history.length) (by omega)
      (by omega) (by omega) (by rw [hsize]; exact h₀.tidy.size)
    refine ⟨_, hc, ?_⟩
    rw [if_neg hblank]
    refine ⟨rfl, by rw [hb, hfront, List.take_left], rfl, fun hs => absurd hs (by simp),
      fun s hs => ?_⟩
    obtain rfl := Option.some.inj hs
    exact ⟨hi, ⟨st₀.front, r, hb, hline.buf, fun hm => hline.nul (mem_of_mem_trim hm)⟩,
      by rw [← hn]⟩

/-- **One turn of the loop is one key of the editor.** -/
theorem Shows.turn (h₀ : Ready st₀) {t : Typing} {c : Call} (h : Shows st₀ t c)
    (hroom : ¬ t.Overfull) :
    ∃ c', c.turn = some c' ∧ Shows st₀ (t.turn st₀.history) c' := by
  match t, c, h with
  | .entered line typed, .returned st ret input, h => exact ⟨_, rfl, h⟩
  | .editing ed typed, .editing st e input, h =>
      obtain ⟨rfl, ⟨rest, hline⟩, hj, hpos, hi, hn, hsize⟩ := id h
      unfold Call.turn Typing.turn Shell.loopBody readKey
      simp only
      by_cases h27 : (getchar input).1 = 27
      · obtain ⟨r, hr, hshows⟩ := h.arrow h₀ (getchar (getchar (getchar input).2).2).1
          (getchar (getchar (getchar input).2).2).2
        rw [if_pos h27.symm, if_pos h27, hr, if_neg (Key.ofEscape_ne_enter _)]
        exact ⟨_, rfl, hshows⟩
      rw [if_neg (Ne.symm h27), if_neg h27]
      by_cases h10 : (getchar input).1 = 10
      · obtain ⟨c, hc, hshows⟩ := h.enter h₀ (getchar input).2
        rw [if_pos h10.symm, if_pos (by simp [h10, Key.ofByte])]
        simp only [Option.bind_eq_bind, Option.bind_some, hc]
        exact ⟨_, rfl, hshows⟩
      · have hover : ¬ Line.Overfull e (getchar input).1 := by
          intro hk
          have hlen := hline.n
          refine hroom ⟨hk.1, ?_⟩
          have := hk.2
          simp only [Text.length]
          omega
        have hturns := hline.press hover
        obtain ⟨r, hr, hshows⟩ := h.of_turns
          (ed.press st₀.history (Key.ofByte (getchar input).1))
          (by rw [press_ofByte _ _ h10]; exact hturns) (by rw [press_ofByte _ _ h10]; exact hj)
          (by rw [press_ofByte _ _ h10]; exact hpos) (getchar input).2
        rw [if_neg (Ne.symm h10), if_neg (Key.ofByte_ne_enter h10), hr]
        exact ⟨_, rfl, hshows⟩

end Step

/-- At the start the line is empty. -/
theorem Shows.start (h₀ : Ready st₀) (input : List UInt8) :
    ∃ r, Shell.enter st₀ = some r ∧
      Shows st₀ (.editing (Editor.start st₀.history) input) (.editing r.1 r.2 input) := by
  have hload := h₀.empty
  have hlen := h₀.length_history
  have hbuf : slot st₀.n = (st₀.front.length : ℤ) := by
    rw [h₀.front_length, slot, ← hlen, Nat.cast_mul]
  rw [load, if_pos (by omega)] at hload
  obtain ⟨hlt, hzero⟩ := List.getElem?_eq_some_iff.1 hload
  have hb : st₀.mem.bytes = st₀.front ++ (0 :: st₀.mem.bytes.drop ((slot st₀.n).toNat + 1)) := by
    rw [← hzero, ← List.drop_eq_getElem_cons hlt, State.front, List.take_append_drop]
  have hroom : N ≤ 0 + 1 + (st₀.mem.bytes.drop ((slot st₀.n).toNat + 1)).length := by
    have hsize := h₀.tidy.size
    have hlt := h₀.lt
    have hle := slot_le_of_lt (show st₀.history.length < H by omega)
    rw [List.length_drop, hbuf, Int.toNat_natCast, h₀.front_length]
    rw [Nat.succ_mul] at hle
    omega
  have hstr : (CObject.mk st₀.mem.bytes []).strlen (slot st₀.n) = some 0 :=
    strlen_mid (s := []) hb hbuf (by simp)
  unfold Shell.enter
  simp only [State.buf, hstr, Option.bind_eq_bind, Option.bind_some]
  exact ⟨_, rfl, rfl, ⟨_, hb, hbuf, rfl, rfl, by simp [Editor.start], (by decide : 0 < N), hroom⟩,
    hlen.symm, le_rfl, rfl, rfl, rfl⟩

/-- **`read_line` simulates the line editor.** -/
theorem readLine_simulates {input : List UInt8} (h₀ : Ready st₀)
    (hroom : ∀ k, ¬ (typed st₀.history input k).Overfull) (k : ℕ) :
    ∃ c, readLine st₀ input k = some c ∧ Shows st₀ (typed st₀.history input k) c := by
  induction k with
  | zero =>
      obtain ⟨r, hr, hshows⟩ := Shows.start h₀ input
      exact ⟨_, by rw [readLine, hr]; rfl, hshows⟩
  | succ k ih =>
      obtain ⟨c, hc, hshows⟩ := ih
      obtain ⟨c', hc', hshows'⟩ := hshows.turn h₀ (hroom k)
      exact ⟨c', by rw [readLine, hc]; exact hc', hshows'⟩

/-- The program starts as `Ready` says. -/
theorem ready_zero {termios : List UInt8} (h : termios ≠ []) : Ready (State.zero termios) :=
  ⟨(started_zero h []).tidy, (started_zero h []).lt, (atStart_zero h []).cleared⟩

theorem typed_entered {history : List (List UInt8)} {input rest : List UInt8}
    {line : Option (List UInt8)} {j k : ℕ} (h : typed history input j = .entered line rest)
    (hjk : j ≤ k) : typed history input k = .entered line rest := by
  induction k, hjk using Nat.le_induction with
  | base => exact h
  | succ k hk ih => rw [typed, ih, Typing.turn]

instance : DecidablePred Typing.Overfull
  | .editing _ _ => inferInstanceAs (Decidable (_ ∧ _))
  | .entered _ _ => inferInstanceAs (Decidable False)

/-- `"ac"`, a `"b"` put in front of the `"c"` and taken out again, a space put there, and Enter. -/
def corrected : List UInt8 := [97, 99, 27, 91, 68, 98, 127, 32, 10]

theorem typed_corrected : typed [] corrected 7 = .entered (some [97, 32, 99]) [] := by decide

theorem readLine_simulates_corrected :
    Ready (State.zero (List.replicate 60 0)) ∧
      (∀ k, ¬ (typed (State.zero (List.replicate 60 0)).history corrected k).Overfull) ∧
      ∀ k, ∃ c, readLine (State.zero (List.replicate 60 0)) corrected k = some c ∧
        Shows (State.zero (List.replicate 60 0))
          (typed (State.zero (List.replicate 60 0)).history corrected k) c := by
  have hready := ready_zero (show List.replicate 60 (0 : UInt8) ≠ [] by decide)
  have hroom (k : ℕ) : ¬ (typed (State.zero (List.replicate 60 0)).history corrected k).Overfull := by
    show ¬ (typed [] corrected k).Overfull
    rcases Nat.lt_or_ge k 7 with hk | hk
    · exact (by decide : ∀ k < 7, ¬ (typed [] corrected k).Overfull) k hk
    · rw [typed_entered typed_corrected hk]
      exact not_false
  exact ⟨hready, hroom, readLine_simulates hready hroom⟩

end CS238P.Shell
