import CS238P.Shell.Cell

set_option autoImplicit false

/-! # What a key does to the line

On a slot that holds `before ++ after` with the cursor between the two, every key of the loop of
`read_line` has its effect on `before` and `after` alone (`Text.press`, `Text.move`, `Text.show`):
the bytes in front of the slot stay, and only bytes of the slot are written. The one key that does
not is a space or a tab on a line that has no place left. -/

namespace CS238P.Shell

open CObject

/-- The line being edited is `before ++ after`, with the cursor between the two. `front` is what
    lies in front of the slot, `rest` what lies behind the terminator. -/
structure Line (front before after rest : List UInt8) (st : State) (e : Edit) : Prop where
  bytes : st.mem.bytes = front ++ (before ++ (after ++ (0 :: rest)))
  buf : st.buf = front.length
  i : e.i = before.length
  n : e.n = before.length + after.length
  nul : (0 : UInt8) ∉ before ++ after
  short : before.length + after.length < N
  /-- The slot is inside the object. -/
  room : N ≤ before.length + after.length + 1 + rest.length

/-- From `st` to `st'` no byte outside the slot was written. -/
structure Within (st st' : State) : Prop where
  i : st'.i = st.i
  n : st'.n = st.n
  size : st'.mem.bytes.length = st.mem.bytes.length
  written : ∃ ws, st'.mem.written = st.mem.written ++ ws ∧
    ∀ a ∈ ws, st.buf ≤ a ∧ a < st.buf + N

/-- The key turns the line into `before ++ after`, with the history slot `j` last shown. -/
def Turns (front before after : List UInt8) (st : State) (r : Option (State × Edit)) (j : ℤ) :
    Prop :=
  ∃ st' e' rest, r = some (st', e') ∧ Line front before after rest st' e' ∧ Within st st' ∧
    e'.j = j

variable {cap : ℕ} {front before after rest : List UInt8} {st : State} {e : Edit}

/-- A line in a slot is one in a place of `N` bytes. -/
theorem Line.cell (h : Line front before after rest st e) : Cell N front before after rest st e :=
  ⟨h.bytes, h.buf, h.i, h.n, h.nul, h.short, h.room⟩

theorem Cell.line (h : Cell N front before after rest st e) : Line front before after rest st e :=
  ⟨h.bytes, h.buf, h.i, h.n, h.nul, h.short, h.room⟩

theorem Turned.turns {r : Option (State × Edit)} {j : ℤ}
    (h : Turned N front before after st r j) : Turns front before after st r j := by
  obtain ⟨st', e', rest, hr, hcell, ⟨hi, hn, hsize, hwritten⟩, hj⟩ := h
  exact ⟨st', e', rest, hr, hcell.line, ⟨hi, hn, hsize, hwritten⟩, hj⟩

theorem Turns.turned {r : Option (State × Edit)} {j : ℤ}
    (h : Turns front before after st r j) : Turned N front before after st r j := by
  obtain ⟨st', e', rest, hr, hline, ⟨hi, hn, hsize, hwritten⟩, hj⟩ := h
  exact ⟨st', e', rest, hr, hline.cell, ⟨hi, hn, hsize, hwritten⟩, hj⟩

/-! ## A whole key -/

/-- The string in the history slot `k`. -/
def entry (bytes : List UInt8) (k : ℕ) : List UInt8 :=
  (Bytes.slice bytes (k * N) N).takeWhile (· ≠ 0)

/-- The string in the history slot `k` ends in the slot. -/
def Terminated (bytes : List UInt8) (k : ℕ) : Prop := (0 : UInt8) ∈ Bytes.slice bytes (k * N) N

theorem Terminated.split {bytes : List UInt8} {k : ℕ} (h : Terminated bytes k) :
    ∃ l r, bytes = l ++ (entry bytes k ++ (0 :: r)) ∧ l.length = k * N ∧
      (0 : UInt8) ∉ entry bytes k ∧ (entry bytes k).length < N := by
  unfold Terminated entry at *
  have hlen : k * N ≤ bytes.length := by
    by_contra hlt
    rw [Bytes.slice, List.drop_eq_nil_of_le (by omega)] at h
    simp at h
  set cell := Bytes.slice bytes (k * N) N with hcell
  have hcut := List.takeWhile_append_dropWhile (p := fun c : UInt8 => decide (c ≠ 0)) (l := cell)
  have hdrop : cell.dropWhile (fun c : UInt8 => decide (c ≠ 0)) ≠ [] := by
    intro hnil
    rw [List.dropWhile_eq_nil_iff] at hnil
    have := hnil 0 h
    simp at this
  obtain ⟨c, rest, hrest⟩ := List.exists_cons_of_ne_nil hdrop
  have hc : c = 0 := by
    have hhead := List.head_dropWhile_not (fun c : UInt8 => decide (c ≠ 0)) hdrop
    simp only [hrest, List.head_cons] at hhead
    simpa using hhead
  subst hc
  have hcellN : cell.length ≤ N := by
    rw [hcell, Bytes.slice]
    exact List.length_take_le _ _
  refine ⟨bytes.take (k * N), rest ++ (bytes.drop (k * N)).drop N, ?_, ?_, ?_, ?_⟩
  · have : bytes = bytes.take (k * N) ++ (cell ++ (bytes.drop (k * N)).drop N) := by
      rw [hcell, Bytes.slice, List.take_append_drop, List.take_append_drop]
    rw [← List.cons_append, ← hrest, ← List.append_assoc (List.takeWhile _ _), hcut]
    exact this
  · rw [List.length_take]
    omega
  · intro hm
    have := List.mem_takeWhile_imp hm
    simp at this
  · have := congrArg List.length hcut
    rw [List.length_append, hrest, List.length_cons] at this
    omega

/-- A line and the place of the cursor in it. -/
structure Text where
  before : List UInt8
  after : List UInt8
  deriving DecidableEq

namespace Text

def length (t : Text) : ℕ := t.before.length + t.after.length

/-- A character comes in before the cursor, as long as there is a place for it. -/
def insert (t : Text) (c : UInt8) : Text :=
  if t.length + 1 < N then ⟨t.before ++ [c], t.after⟩ else t

/-- The keys that are no arrows. -/
def press (t : Text) (k : ℤ) : Text :=
  if 11 = k then ⟨t.before, []⟩
  else if 12 = k then t
  else if 4 = k then ⟨t.before, t.after.tail⟩
  else if 8 = k ∨ 127 = k then ⟨t.before.dropLast, t.after⟩
  else if 32 = k ∨ 9 = k then t.insert 32
  else if isprint k then t.insert (toChar k)
  else t

/-- One place to the right. -/
def right (t : Text) : Text :=
  match t.after with
  | [] => t
  | c :: after => ⟨t.before ++ [c], after⟩

/-- One place to the left. -/
def left (t : Text) : Text := ⟨t.before.dropLast, t.before.getLast?.toList ++ t.after⟩

/-- A history slot is shown, and the cursor put behind it. -/
def shown (bytes : List UInt8) (j : ℕ) : Text := ⟨entry bytes j, []⟩

end Text

namespace Line

theorem toChar_ne_zero {k : ℤ} (hk : isprint k = true) : toChar k ≠ 0 := by
  simp only [isprint, Bool.and_eq_true, decide_eq_true_eq] at hk
  intro h
  have := congrArg UInt8.toNat h
  simp [toChar] at this
  omega

/-- A space or a tab comes on a line that has no place left. -/
def Overfull (e : Edit) (k : ℤ) : Prop := (32 = k ∨ 9 = k) ∧ e.n = (N : ℤ) - 1

end Line

namespace Cell

/-- There is a place for one more character. -/
theorem fits_iff {t : Text} (h : Cell cap front t.before t.after rest st e) :
    t.length + 1 < N ↔ e.n + 1 < N := by
  have := h.n
  unfold Text.length
  omega

theorem press {t : Text} (h : Cell cap front t.before t.after rest st e) {k : ℤ}
    (hcap : N ≤ cap) (hk : ¬ Line.Overfull e k) :
    Turned cap front (t.press k).before (t.press k).after st (key st e k) e.j := by
  have hfits := h.fits_iff
  obtain ⟨before, after⟩ := t
  have hi := h.i
  have hlen := h.n
  have hshort := h.short
  simp only at hi hlen hshort
  unfold key Text.press
  split_ifs with h11 h12 h4 h8 h32 hp
  · exact h.kill
  · exact h.stays
  · cases after with
    | nil =>
        rw [Shell.delete, if_neg (by simp at hlen; omega)]
        exact h.stays
    | cons c after =>
        have hline : Cell cap front before (c :: after) rest st e := h
        exact hline.delete
  · rcases List.eq_nil_or_concat before with hb | ⟨before', c, hb⟩
    · rw [Shell.backspace, if_neg (by rw [hi, hb]; simp)]
      subst hb
      exact h.stays
    · rw [List.concat_eq_append] at hb
      subst hb
      simpa using h.backspace
  · have hne : e.n ≠ (N : ℤ) - 1 := fun hn => hk ⟨h32, hn⟩
    by_cases hn : e.n + 1 < N
    · rw [Text.insert, if_pos (hfits.2 hn)]
      exact h.insertSpace (by omega) (by omega)
    · rw [Text.insert, if_neg (fun hf => hn (hfits.1 hf)), Shell.insertSpace, if_neg (by omega)]
      exact h.stays
  · by_cases hn : e.n + 1 < N
    · rw [Text.insert, if_pos (hfits.2 hn)]
      exact h.insertChar hn hcap (Line.toChar_ne_zero hp)
    · rw [Text.insert, if_neg (fun hf => hn (hfits.1 hf)), Shell.insertChar, if_neg hn]
      exact h.stays
  · exact h.stays

theorem right {t : Text} (h : Cell cap front t.before t.after rest st e) :
    Turned cap front t.right.before t.right.after st
      (some ⟨st, { e with i := if e.i < e.n then e.i + 1 else e.n }⟩) e.j := by
  obtain ⟨before, after⟩ := t
  have hi := h.i
  have hlen := h.n
  simp only at hi hlen
  cases after with
  | nil =>
      have he : ({ e with i := e.n } : Edit) = e := by
        obtain ⟨i, j, n⟩ := e
        simp at hi hlen ⊢
        omega
      rw [if_neg (by simp at hlen; omega), he]
      exact h.stays
  | cons c after =>
      rw [List.length_cons] at hlen
      rw [if_pos (by omega)]
      exact h.turns (r := rest) (w := []) (by simp [Text.right, h.bytes]) (by simp) (by simp)
        (by simp [Text.right]; omega) (by simpa [Text.right] using h.nul)
        (by have := h.short; simp [Text.right] at this ⊢; omega) (by simp [Text.right]; omega)
        (by simp [Text.right]; omega)

theorem left {t : Text} (h : Cell cap front t.before t.after rest st e) :
    Turned cap front t.left.before t.left.after st
      (some ⟨st, { e with i := if e.i > 0 then e.i - 1 else 0 }⟩) e.j := by
  obtain ⟨before, after⟩ := t
  have hi := h.i
  have hlen := h.n
  simp only at hi hlen
  rcases List.eq_nil_or_concat before with hb | ⟨before', c, hb⟩
  · subst hb
    have he : e.i = 0 := by simpa using hi
    rw [if_neg (by omega), ← he]
    exact h.stays
  · rw [List.concat_eq_append] at hb
    subst hb
    rw [List.length_append, List.length_singleton] at hi hlen
    rw [if_pos (by omega)]
    exact h.turns (r := rest) (w := []) (by simp [Text.left, h.bytes]) (by simp) (by simp)
      (by simp [Text.left]; omega) (by simpa [Text.left] using h.nul)
      (by have := h.short; simp [Text.left] at this ⊢; omega) (by simp [Text.left]; omega)
      (by simp [Text.left]; omega)

/-- The up and down keys, on a slot in front or on the slot being edited. -/
theorem show_slot (h : Cell cap front before after rest st e) (hcap : N ≤ cap) {j : ℕ}
    (hj : Terminated front j ∨ (j : ℤ) = st.i) :
    ∃ t : Text, (t = if (j : ℤ) = st.i then ⟨[], []⟩ else Text.shown front j) ∧
      Turned cap front t.before t.after st (Shell.recallSlot st j) j := by
  by_cases hself : (j : ℤ) = st.i
  · rw [if_pos hself, hself]
    exact ⟨_, rfl, h.recallSlot_self⟩
  · rw [if_neg hself]
    obtain ⟨l, r, hsplit, hlen, hnul, hshort⟩ := (hj.resolve_right hself).split
    exact ⟨_, rfl, h.recallSlot hcap hsplit (by rw [slot, hlen, Nat.cast_mul]) hnul hshort⟩

end Cell

/-! ## On a line in its slot -/

namespace Line

theorem strlen_buf (h : Line front before after rest st e) :
    st.mem.strlen st.buf = some (before.length + after.length) :=
  h.cell.strlen_buf

theorem lineIs (h : Line front before after rest st e) : LineIs st (before ++ after) :=
  h.cell.lineIs

theorem insertSpace_eq {x : UInt8} (h : Line front before after (x :: rest) st e) :
    Shell.insertSpace st e = some ⟨{ st with
      mem := ⟨(front ++ before) ++ (32 :: ((after ++ [0]) ++ rest)),
        st.mem.written ++ span (st.buf + e.i + 1) (after.length + 1) ++ span (st.buf + e.i) 1⟩ },
      ⟨e.i + 1, e.j, e.n + 1⟩⟩ := by
  have hn := h.n
  have hshort := h.short
  exact h.cell.insertSpace_eq (by omega)

theorem press {t : Text} (h : Line front t.before t.after rest st e) {k : ℤ}
    (hk : ¬ Overfull e k) :
    Turns front (t.press k).before (t.press k).after st (key st e k) e.j :=
  (h.cell.press le_rfl hk).turns

theorem right {t : Text} (h : Line front t.before t.after rest st e) :
    Turns front t.right.before t.right.after st
      (some ⟨st, { e with i := if e.i < e.n then e.i + 1 else e.n }⟩) e.j :=
  h.cell.right.turns

theorem left {t : Text} (h : Line front t.before t.after rest st e) :
    Turns front t.left.before t.left.after st
      (some ⟨st, { e with i := if e.i > 0 then e.i - 1 else 0 }⟩) e.j :=
  h.cell.left.turns

theorem show_slot (h : Line front before after rest st e) {j : ℕ}
    (hj : Terminated front j ∨ (j : ℤ) = st.i) :
    ∃ t : Text, (t = if (j : ℤ) = st.i then ⟨[], []⟩ else Text.shown front j) ∧
      Turns front t.before t.after st (Shell.recallSlot st j) j := by
  obtain ⟨t, ht, hturned⟩ := h.cell.show_slot le_rfl hj
  exact ⟨t, ht, hturned.turns⟩

end Line

/-! ## Enter -/

namespace Line

/-- The trimmed line is written over the line. -/
theorem strtrim (h : Line front before after rest st e) :
    ∃ mem r, Shell.strtrim st.mem st.buf = some mem ∧
      mem.bytes = front ++ (trim (before ++ after) ++ (0 :: r)) ∧
      mem.bytes.length = st.mem.bytes.length ∧
      mem.strlen st.buf = some (trim (before ++ after)).length := by
  have hb : st.mem.bytes = front ++ ((before ++ after) ++ (0 :: rest)) := by
    rw [h.bytes, List.append_assoc]
  obtain ⟨junk, written, htrim, hlen⟩ := strtrim_eq hb h.buf h.nul
  refine ⟨_, junk ++ rest, htrim, rfl, ?_,
    strlen_mid rfl h.buf (fun hm => h.nul (mem_of_mem_trim hm))⟩
  rw [hb]
  simp only [List.length_append, List.length_cons] at hlen ⊢
  omega

/-- A blank line: nothing is returned. -/
theorem commit_blank (h : Line front before after rest st e) (hblank : trim (before ++ after) = []) :
    ∃ mem r, commit st = some ⟨{ st with mem := mem }, false⟩ ∧ mem.bytes = front ++ (0 :: r) ∧
      mem.bytes.length = st.mem.bytes.length := by
  obtain ⟨mem, r, hmem, hb, hsize, hlen⟩ := h.strtrim
  rw [hblank] at hb hlen
  refine ⟨mem, r, ?_, hb, hsize⟩
  simp [commit, hmem, hlen]

/-- Any other line: its slot holds it trimmed, and the next one the empty string. -/
theorem commit_line (h : Line front before after rest st e) (hline : trim (before ++ after) ≠ [])
    {m : ℕ} (hi : st.i = m) (hn : st.n = m) (hm : m < H) (hsize : H * N < st.mem.bytes.length) :
    ∃ mem r, commit st = some ⟨{ st with
        n := st.n + 1
        mem := mem
        indices := st.indices ++ [st.n + 1] }, true⟩ ∧
      mem.bytes = front ++ (trim (before ++ after) ++ (0 :: r)) ∧
      mem.bytes.length = st.mem.bytes.length ∧ mem.load (slot (st.n + 1)) = some 0 := by
  obtain ⟨mem, r, hmem, hb, hlen, hstr⟩ := h.strtrim
  have hpos := List.length_pos_of_ne_nil hline
  have hnext : (if (H : ℤ) > st.n + 1 then st.n + 1 else (H : ℤ)) = st.n + 1 := by
    split_ifs <;> omega
  have hslot : slot (st.n + 1) = (((m + 1) * N : ℕ) : ℤ) := by
    rw [slot, hn]
    push_cast
    rfl
  have hin : (m + 1) * N < mem.bytes.length := by
    rw [hlen]
    exact lt_of_le_of_lt (Nat.mul_le_mul_right N hm) hsize
  have hfront : front.length = m * N := by
    have := h.buf
    rw [State.buf, hi, slot] at this
    exact_mod_cast this.symm
  have hshort := length_trim_le (before ++ after)
  rw [List.length_append] at hshort
  have hlt := h.short
  obtain ⟨k, hk⟩ : ∃ k, (m + 1) * N = front.length + ((trim (before ++ after)).length + (k + 1)) :=
    ⟨(m + 1) * N - m * N - (trim (before ++ after)).length - 1, by
      rw [hfront, Nat.succ_mul]
      omega⟩
  have hset : mem.bytes.set ((m + 1) * N) 0 =
      front ++ (trim (before ++ after) ++ (0 :: r.set k 0)) := by
    rw [hb, hk]
    simp
  refine ⟨⟨mem.bytes.set ((m + 1) * N) 0, mem.written ++ span ((m + 1) * N : ℕ) 1⟩, r.set k 0,
    ?_, hset, by rw [List.length_set, hlen], ?_⟩
  · simp only [commit, hmem, hstr, Option.bind_eq_bind, Option.bind_some]
    rw [if_pos hpos.ne', if_pos (hi.trans hn.symm), hnext, hslot, store_eq hin, Option.bind_some]
  · rw [hslot, load, if_pos (Int.natCast_nonneg _), Int.toNat_natCast, List.getElem?_set_self hin]

end Line

end CS238P.Shell
