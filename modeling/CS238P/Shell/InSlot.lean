import CS238P.Shell.Edit

set_option autoImplicit false

/-! # The line stays in its slot

At every turn of the loop of `read_line` the cursor is on the line, `buf[n]` is the first NUL of
`buf`, and what the loop has written lies in the slot, as long as no space and no tab comes on a
line that has no place left: the test for these two keys is `N > n`, where the one for every other
character is `(n + 1) < N`. -/

namespace CS238P.Shell

open CObject

/-! ## Slots -/

variable {bytes l r s : List UInt8} {k : ℕ}

theorem Terminated.of_split (hb : bytes = l ++ (s ++ (0 :: r))) (hl : l.length = k * N)
    (hs : s.length < N) : Terminated bytes k := by
  rw [Terminated, Bytes.slice, hb, ← hl, List.drop_left, List.mem_iff_getElem?]
  refine ⟨s.length, ?_⟩
  rw [List.getElem?_take_of_lt hs, List.getElem?_append_right le_rfl, Nat.sub_self]
  rfl

theorem terminated_iff : Terminated bytes k ↔ ∃ i < N, bytes[k * N + i]? = some 0 := by
  rw [Terminated, Bytes.slice, List.mem_iff_getElem?]
  constructor
  · intro h
    obtain ⟨i, hi⟩ := h
    have hlt : i < N := by
      by_contra hle
      rw [List.getElem?_eq_none (by rw [List.length_take]; omega)] at hi
      exact absurd hi (by simp)
    rw [List.getElem?_take_of_lt hlt, List.getElem?_drop] at hi
    exact ⟨i, hlt, hi⟩
  · intro h
    obtain ⟨i, hlt, hi⟩ := h
    exact ⟨i, by rw [List.getElem?_take_of_lt hlt, List.getElem?_drop, hi]⟩

theorem terminated_append (h : (k + 1) * N ≤ l.length) :
    Terminated (l ++ r) k ↔ Terminated l k := by
  rw [Terminated, Bytes.slice_append_left r (by rw [Nat.succ_mul] at h; exact h), Terminated]

theorem entry_append (h : (k + 1) * N ≤ l.length) : entry (l ++ r) k = entry l k := by
  rw [entry, Bytes.slice_append_left r (by rw [Nat.succ_mul] at h; exact h), entry]

/-- The string in a slot whose bytes are known. -/
theorem entry_mid (hl : l.length = k * N) (hs : s.length < N) :
    entry (l ++ (s ++ (0 :: r))) k = s.takeWhile (· ≠ 0) := by
  rw [entry, Bytes.slice, ← hl, List.drop_left, List.take_append,
    List.take_of_length_le hs.le, show N - s.length = (N - s.length - 1) + 1 by omega,
    List.take_succ_cons, List.takeWhile_append]
  split_ifs with hall
  · rw [List.takeWhile_cons_of_neg (by simp), List.append_nil,
      (List.takeWhile_prefix _).eq_of_length hall]
  · rfl

/-- What is written between two slots' ends does not reach another slot. -/
theorem terminated_congr {m m' : List UInt8} (hm : m'.length = m.length)
    (hk : (k + 1) * N ≤ l.length ∨ l.length + m.length ≤ k * N) :
    Terminated (l ++ (m' ++ r)) k ↔ Terminated (l ++ (m ++ r)) k := by
  rcases hk with hk | hk
  · rw [terminated_append hk, terminated_append hk]
  · rw [terminated_iff, terminated_iff]
    have hget (i : ℕ) : (l ++ (m' ++ r))[k * N + i]? = (l ++ (m ++ r))[k * N + i]? := by
      rw [List.getElem?_append_right (by omega), List.getElem?_append_right (by omega),
        List.getElem?_append_right (by omega), List.getElem?_append_right (by omega), hm]
    simp only [hget]

/-! ## Between two lines -/

/-- The history when no line is edited: the strings up to the newest slot end in their slots. -/
structure Tidy (st : State) : Prop where
  pos : 0 ≤ st.n
  le : st.n ≤ H
  size : H * N < st.mem.bytes.length
  slots : ∀ k : ℕ, (k : ℤ) ≤ st.n → k < H → Terminated st.mem.bytes k

/-- The history while a line is edited in the newest slot. -/
structure Editing (st : State) (e : Edit) : Prop where
  line : ∃ front rest, ∃ t : Text, Line front t.before t.after rest st e ∧
    ∀ k : ℕ, (k : ℤ) < st.n → Terminated front k
  newest : st.i = st.n
  pos : 0 ≤ st.n
  lt : st.n < H
  size : H * N < st.mem.bytes.length
  shown : 0 ≤ e.j ∧ e.j ≤ st.n
  written : ∀ a ∈ st.mem.written, st.buf ≤ a ∧ a < st.buf + N

theorem slot_le_of_lt {k : ℕ} (h : k < H) : (k + 1) * N ≤ H * N := Nat.mul_le_mul_right N h

variable {st : State} {e : Edit}

/-- The history while a line is edited that may take `cap` bytes, its terminator included. `front` is
    what lies in front of it. -/
structure EditingIn (cap : ℕ) (front : List UInt8) (st : State) (e : Edit) : Prop where
  line : ∃ rest, ∃ t : Text, Cell cap front t.before t.after rest st e
  slots : ∀ k : ℕ, (k : ℤ) < st.n → Terminated front k
  newest : st.i = st.n
  pos : 0 ≤ st.n
  lt : st.n < H
  size : H * N < st.mem.bytes.length
  shown : 0 ≤ e.j ∧ e.j ≤ st.n
  written : ∀ a ∈ st.mem.written, st.buf ≤ a ∧ a < st.buf + cap

/-- `Editing` is said of the `N` bytes of the slot. -/
theorem editing_iff : Editing st e ↔ ∃ front, EditingIn N front st e := by
  constructor
  · intro h
    obtain ⟨front, rest, t, hline, hfront⟩ := h.line
    exact ⟨front, ⟨rest, t, hline.cell⟩, hfront, h.newest, h.pos, h.lt, h.size, h.shown, h.written⟩
  · intro h
    obtain ⟨front, ⟨rest, t, hcell⟩, hfront, hnewest, hpos, hlt, hsize, hshown, hwritten⟩ := h
    exact ⟨⟨front, rest, t, hcell.line, hfront⟩, hnewest, hpos, hlt, hsize, hshown, hwritten⟩

/-- What lies in front of the slot that is edited. -/
def State.front (st : State) : List UInt8 := st.mem.bytes.take (slot st.n).toNat

/-- `read_line` starts to edit the newest slot. -/
theorem Tidy.enter_in (h : Tidy st) (hn : st.n < H) :
    ∃ r, enter st = some r ∧ EditingIn N st.front r.1 r.2 ∧ r.1.n = st.n := by
  obtain ⟨m, hm⟩ := Int.eq_ofNat_of_zero_le h.pos
  have hmH : m < H := by omega
  obtain ⟨l, r, hsplit, hlen, hnul, hshort⟩ := (h.slots m (by omega) hmH).split
  have hbuf : slot st.n = (l.length : ℤ) := by
    rw [slot, hm, hlen, Nat.cast_mul]
  have hfront : st.front = l := by
    rw [State.front, hbuf, Int.toNat_natCast, hsplit, List.take_left]
  have hstr : (CObject.mk st.mem.bytes []).strlen (slot st.n) =
      some (entry st.mem.bytes m).length := strlen_mid hsplit hbuf hnul
  have hroom : N ≤ (entry st.mem.bytes m).length + 1 + r.length := by
    have hsize := h.size
    have hle := slot_le_of_lt hmH
    have := congrArg List.length hsplit
    rw [List.length_append, List.length_append, List.length_cons, hlen] at this
    rw [Nat.succ_mul] at hle
    omega
  unfold Shell.enter
  simp only [State.buf, hstr, Option.bind_eq_bind, Option.bind_some]
  rw [hfront]
  refine ⟨_, rfl, ⟨⟨r, ⟨entry st.mem.bytes m, []⟩, by simpa using hsplit, hbuf, rfl, by simp,
    by simpa using hnul, by simpa using hshort, by simpa using hroom⟩, ?_, rfl, h.pos, hn, h.size,
    ⟨h.pos, le_rfl⟩, by simp⟩, rfl⟩
  intro k hk
  replace hk : (k : ℤ) < st.n := hk
  have hterm := h.slots k hk.le (by omega)
  have hfit : (k + 1) * N ≤ l.length := by
    rw [hlen]
    exact Nat.mul_le_mul_right N (by omega)
  rw [hsplit] at hterm
  exact (terminated_append hfit).1 hterm

theorem Tidy.enter (h : Tidy st) (hn : st.n < H) :
    ∃ r, enter st = some r ∧ Editing r.1 r.2 := by
  obtain ⟨r, hr, hedit, -⟩ := h.enter_in hn
  exact ⟨r, hr, editing_iff.2 ⟨_, hedit⟩⟩

theorem enter_n {r : State × Edit} (hr : enter st = some r) {len : ℕ}
    (hlen : st.mem.strlen (slot st.n) = some len) : r.2.n = len := by
  unfold Shell.enter at hr
  change (st.mem.strlen (slot st.n)).bind _ = some r at hr
  rw [hlen, Option.bind_some] at hr
  rw [← Option.some.inj hr]

namespace EditingIn

variable {cap : ℕ} {front : List UInt8}

/-- What a key leaves that has its effect on the line alone. -/
theorem of_turned {before after : List UInt8} {r : Option (State × Edit)} {j : ℤ}
    (h : EditingIn cap front st e) (ht : Turned cap front before after st r j)
    (hj : 0 ≤ j ∧ j ≤ st.n) :
    ∃ r', r = some r' ∧ EditingIn cap front r'.1 r'.2 ∧ r'.1.n = st.n := by
  obtain ⟨st', e', rest, rfl, hcell, ⟨hi, hn, hsize, ws, hws, hin⟩, rfl⟩ := ht
  have hbuf : st'.buf = st.buf := by rw [State.buf, hi, State.buf]
  refine ⟨_, rfl, ⟨⟨rest, ⟨before, after⟩, hcell⟩, fun k hk => h.slots k (by rw [← hn]; exact hk),
    by rw [hi, hn, h.newest], by rw [hn]; exact h.pos, by rw [hn]; exact h.lt,
    by rw [hsize]; exact h.size, by rw [hn]; exact hj, ?_⟩, hn⟩
  intro a ha
  rw [hws, List.mem_append] at ha
  rw [hbuf]
  exact ha.elim (h.written a) (hin a)

/-- Where a line may be longer than its slot, no key is one too many. -/
theorem key (h : EditingIn cap front st e) (hcap : N ≤ cap) {k : ℤ}
    (hk : Line.Overfull e k → N < cap) :
    ∃ r, key st e k = some r ∧ EditingIn cap front r.1 r.2 ∧ r.1.n = st.n := by
  obtain ⟨rest, t, hcell⟩ := h.line
  by_cases hover : Line.Overfull e k
  · have hlt := hk hover
    obtain ⟨hkey, hfull⟩ := hover
    have hspace : Shell.key st e k = insertSpace st e := by
      unfold Shell.key
      rw [if_neg (by omega), if_neg (by omega), if_neg (by omega), if_neg (by omega), if_pos hkey]
    have hturned : Turned cap front (t.before ++ [32]) t.after st (insertSpace st e) e.j :=
      hcell.insertSpace (by omega) (by omega)
    rw [hspace]
    exact h.of_turned hturned h.shown
  · exact h.of_turned (hcell.press hcap hover) h.shown

theorem recallSlot (h : EditingIn cap front st e) (hcap : N ≤ cap) {j : ℤ} (hj : 0 ≤ j ∧ j ≤ st.n) :
    ∃ r, recallSlot st j = some r ∧ EditingIn cap front r.1 r.2 ∧ r.1.n = st.n := by
  obtain ⟨rest, t, hcell⟩ := h.line
  obtain ⟨m, rfl⟩ := Int.eq_ofNat_of_zero_le hj.1
  have hslot : Terminated front m ∨ (m : ℤ) = st.i := by
    rcases lt_or_eq_of_le hj.2 with hlt | heq
    · exact Or.inl (h.slots m hlt)
    · exact Or.inr (heq.trans h.newest.symm)
  obtain ⟨t', -, ht'⟩ := hcell.show_slot hcap hslot
  exact h.of_turned ht' hj

theorem arrow (h : EditingIn cap front st e) (hcap : N ≤ cap) (k : ℤ) :
    ∃ r, arrow st e k = some r ∧ EditingIn cap front r.1 r.2 ∧ r.1.n = st.n := by
  obtain ⟨rest, t, hcell⟩ := h.line
  have hshown := h.shown
  unfold Shell.arrow
  by_cases hA : k = 65
  · rw [if_pos hA]
    split_ifs with hup
    · exact h.recallSlot hcap ⟨by omega, by omega⟩
    · exact ⟨_, rfl, h, rfl⟩
  by_cases hB : k = 66
  · rw [if_neg hA, if_pos hB]
    split_ifs with hdown
    · exact h.recallSlot hcap ⟨by omega, by omega⟩
    · exact ⟨_, rfl, h, rfl⟩
  by_cases hC : k = 67
  · rw [if_neg hA, if_neg hB, if_pos hC]
    exact h.of_turned hcell.right hshown
  by_cases hD : k = 68
  · rw [if_neg hA, if_neg hB, if_neg hC, if_pos hD]
    exact h.of_turned hcell.left hshown
  · rw [if_neg hA, if_neg hB, if_neg hC, if_neg hD]
    exact ⟨_, rfl, h, rfl⟩

/-- One turn of the loop. The line that Enter ends is the one that was edited. -/
theorem loopBody (h : EditingIn cap front st e) (hcap : N ≤ cap) {input : List UInt8}
    (hk : Line.Overfull e (getchar input).1 → N < cap) :
    ∃ r, loopBody st e input = some r ∧
      (∀ e', r.1.2 = some e' → EditingIn cap front r.1.1 e') ∧ r.1.1.n = st.n ∧
        (r.1.2 = none → r.1.1 = st) := by
  unfold Shell.loopBody
  simp only
  split_ifs with h27 h10
  · obtain ⟨r, hr, hedit, hn⟩ := h.arrow hcap (getchar (getchar (getchar input).2).2).1
    rw [hr]
    refine ⟨_, rfl, ?_, hn, fun hnone => absurd hnone (by simp)⟩
    intro e' he'
    obtain rfl : r.2 = e' := Option.some.inj he'
    exact hedit
  · exact ⟨_, rfl, fun e' he' => absurd he' (by simp), rfl, fun _ => rfl⟩
  · obtain ⟨r, hr, hedit, hn⟩ := h.key hcap hk
    rw [hr]
    refine ⟨_, rfl, ?_, hn, fun hnone => absurd hnone (by simp)⟩
    intro e' he'
    obtain rfl : r.2 = e' := Option.some.inj he'
    exact hedit

end EditingIn

namespace Editing

theorem editingIn (h : Editing st e) {front rest : List UInt8} {t : Text}
    (hline : Line front t.before t.after rest st e)
    (hfront : ∀ k : ℕ, (k : ℤ) < st.n → Terminated front k) : EditingIn N front st e :=
  ⟨⟨rest, t, hline.cell⟩, hfront, h.newest, h.pos, h.lt, h.size, h.shown, h.written⟩

theorem loopBody (h : Editing st e) {input : List UInt8}
    (hk : ¬ Line.Overfull e (getchar input).1) :
    ∃ r, loopBody st e input = some r ∧
      (∀ e', r.1.2 = some e' → Editing r.1.1 e') ∧ (r.1.2 = none → r.1.1 = st) := by
  obtain ⟨front, hedit⟩ := editing_iff.1 h
  obtain ⟨r, hr, hgo, -, hend⟩ := hedit.loopBody le_rfl fun hover => absurd hover hk
  exact ⟨r, hr, fun e' he' => editing_iff.2 ⟨front, hgo e' he'⟩, hend⟩

theorem exists_lineIs (h : Editing st e) : ∃ s, LineIs st s := by
  obtain ⟨front, rest, t, hline, -⟩ := h.line
  exact ⟨t.before ++ t.after, hline.lineIs⟩

/-- What Enter leaves: the strings up to the one that was edited end in their slots. -/
theorem terminated_front {front s r bytes : List UInt8} {m : ℕ}
    (hb : bytes = front ++ (s ++ (0 :: r))) (hlen : front.length = m * N) (hs : s.length < N)
    (hfront : ∀ k < m, Terminated front k) {k : ℕ} (hk : k ≤ m) : Terminated bytes k := by
  rcases Nat.lt_or_eq_of_le hk with hlt | rfl
  · rw [hb, terminated_append (by rw [hlen]; exact Nat.mul_le_mul_right N hlt)]
    exact hfront k hlt
  · exact Terminated.of_split hb hlen hs

/-- The line, with its slot as a number. -/
theorem slot_line (h : Editing st e) :
    ∃ front rest, ∃ t : Text, ∃ m : ℕ, Line front t.before t.after rest st e ∧ st.n = m ∧ m < H ∧
      front.length = m * N ∧ (trim (t.before ++ t.after)).length < N ∧
      ∀ k < m, Terminated front k := by
  obtain ⟨front, rest, t, hline, hfront⟩ := h.line
  obtain ⟨m, hm⟩ := Int.eq_ofNat_of_zero_le h.pos
  have hlt := h.lt
  have htrim := length_trim_le (t.before ++ t.after)
  have hshort := hline.short
  rw [List.length_append] at htrim
  refine ⟨front, rest, t, m, hline, hm, by omega, ?_, by omega, fun k hk => hfront k (by omega)⟩
  have := hline.buf
  rw [State.buf, h.newest, slot, hm] at this
  exact_mod_cast this.symm

/-- Behind the loop, on a blank line: nothing is returned. -/
theorem commit_blank (h : Editing st e) {s : List UInt8} (hs : LineIs st s) (hblank : trim s = []) :
    ∃ mem, commit st = some ⟨{ st with mem := mem }, false⟩ ∧ Tidy { st with mem := mem } := by
  obtain ⟨front, rest, t, m, hline, hm, hlt, hlen, -, hfront⟩ := h.slot_line
  obtain rfl := hs.unique hline.lineIs
  obtain ⟨mem, r, hc, hb, hsize⟩ := hline.commit_blank hblank
  refine ⟨mem, hc, h.pos, h.lt.le, by rw [hsize]; exact h.size, fun k hk _ => ?_⟩
  exact terminated_front (s := []) hb hlen (by decide) hfront (by simp only [hm] at hk; omega)

/-- Behind the loop, on any other line: the history is one slot longer, and the new slot holds the
    empty string. -/
theorem commit_line (h : Editing st e) {s : List UInt8} (hs : LineIs st s) (htrim : trim s ≠ []) :
    ∃ r, commit st = some r ∧ r.2 = true ∧ Tidy r.1 ∧ r.1.i = st.i ∧ r.1.n = st.n + 1 ∧
      r.1.mem.load (slot r.1.n) = some 0 := by
  obtain ⟨front, rest, t, m, hline, hm, hlt, hlen, hshort, hfront⟩ := h.slot_line
  obtain rfl := hs.unique hline.lineIs
  obtain ⟨mem, r, hc, hb, hsize, hload⟩ :=
    hline.commit_line htrim (h.newest.trans hm) hm hlt h.size
  have hpos := h.pos
  refine ⟨_, hc, rfl, ⟨by simp only; omega, by simp only; omega, ?_, fun k hk _ => ?_⟩, rfl, rfl,
    hload⟩
  · show H * N < mem.bytes.length
    rw [hsize]
    exact h.size
  · replace hk : (k : ℤ) ≤ st.n + 1 := hk
    by_cases hkm : k ≤ m
    · exact terminated_front hb hlen hshort hfront hkm
    · -- the slot that was cleared
      rw [show st.n + 1 = (k : ℤ) by omega, slot, ← Nat.cast_mul, load,
        if_pos (Int.natCast_nonneg _), Int.toNat_natCast] at hload
      rw [terminated_iff]
      exact ⟨0, by decide, hload⟩

theorem commit (h : Editing st e) :
    ∃ r, commit st = some r ∧ Tidy r.1 ∧ r.1.i = st.i ∧ st.n ≤ r.1.n := by
  obtain ⟨s, hs⟩ := h.exists_lineIs
  by_cases hblank : trim s = []
  · obtain ⟨mem, hc, htidy⟩ := h.commit_blank hs hblank
    exact ⟨_, hc, htidy, rfl, le_rfl⟩
  · obtain ⟨r, hc, -, htidy, hi, hn, -⟩ := h.commit_line hs hblank
    exact ⟨r, hc, htidy, hi, by omega⟩

end Editing

/-- A string is written over the one in slot `m`, which is as long: the callback gets that string, and
    the strings of the history keep their ends. -/
theorem Tidy.overwrite (h : Tidy st) {m : ℕ} (hi : st.i = m) (hm : m < H) (hmn : (m : ℤ) ≤ st.n)
    (hs : entry st.mem.bytes m = s) {s' : List UInt8} (hs' : s'.length = s.length) :
    ∃ l r mem, st.mem.bytes = l ++ (s ++ (0 :: r)) ∧ l.length = m * N ∧ s.length < N ∧
      st.mem.strlen st.buf = some s.length ∧ st.mem.read st.buf s.length = some s ∧
      st.mem.write st.buf s' = some mem ∧ mem.bytes = l ++ (s' ++ (0 :: r)) ∧
      Tidy { st with mem := mem } := by
  obtain ⟨l, r, hsplit, hlen, hnul, hshort⟩ := (h.slots m hmn hm).split
  rw [hs] at hsplit hnul hshort
  have hbuf : st.buf = (l.length : ℤ) := by
    rw [State.buf, slot, hi, hlen, Nat.cast_mul]
  have hwrite := write_mid (o := st.mem) (r := 0 :: r) hsplit hbuf hs'
  refine ⟨l, r, _, hsplit, hlen, hshort, strlen_mid hsplit hbuf hnul, read_mid hsplit hbuf, hwrite,
    rfl, h.pos, h.le, ?_, ?_⟩
  · have := h.size
    rw [hsplit] at this
    simpa [hs'] using this
  · intro k hk hkH
    have hterm := h.slots k hk hkH
    by_cases hkm : k = m
    · exact Terminated.of_split rfl (by rw [hlen, hkm]) (by omega)
    · have hfar : (k + 1) * N ≤ l.length ∨ l.length + s.length ≤ k * N := by
        rw [hlen]
        rcases lt_or_gt_of_ne hkm with hlt | hgt
        · exact Or.inl (Nat.mul_le_mul_right N hlt)
        · have := Nat.mul_le_mul_right N hgt
          rw [Nat.succ_mul] at this
          exact Or.inr (by omega)
      rw [hsplit] at hterm
      exact (terminated_congr hs' hfar).2 hterm

/-- The callback changes no terminator. -/
theorem Tidy.call (h : Tidy st) (hi : 0 ≤ st.i ∧ st.i < H ∧ st.i ≤ st.n)
    (cs : List UInt8 → List UInt8) :
    ∃ len s mem, st.mem.strlen st.buf = some len ∧ st.mem.read st.buf len = some s ∧
      st.mem.write st.buf (Bytes.overwrite s ((cs s).take len)) = some mem ∧
      Tidy { st with mem := mem } ∧ ∀ a : ℤ, st.buf + N ≤ a → mem.load a = st.mem.load a := by
  obtain ⟨m, hm⟩ := Int.eq_ofNat_of_zero_le hi.1
  set s := entry st.mem.bytes m with hs
  have hover : (Bytes.overwrite s ((cs s).take s.length)).length = s.length :=
    Bytes.length_overwrite (by rw [List.length_take]; omega)
  obtain ⟨l, r, mem, hsplit, hlen, hshort, hstr, hread, hwrite, hbytes, htidy⟩ :=
    h.overwrite hm (by omega) (by omega) hs.symm hover
  have hbuf : st.buf = (l.length : ℤ) := by
    rw [State.buf, slot, hm, hlen, Nat.cast_mul]
  refine ⟨s.length, s, mem, hstr, hread, hwrite, htidy, ?_⟩
  intro a ha
  unfold load
  rw [hbytes, hsplit, ← List.append_assoc, ← List.append_assoc,
    List.getElem?_append_right (by rw [List.length_append, hover]; omega),
    List.getElem?_append_right (by rw [List.length_append]; omega), List.length_append,
    List.length_append, hover]

/-! ## Runs -/

/-- `read_line` is called with the newest slot among the `H` of the history, and no space and no
    tab comes on a line that has no place left. -/
def Guarded (sh : Session) : Prop :=
  match sh.point with
  | .reading => sh.state.n < H
  | .editing e => ¬ Line.Overfull e (getchar sh.input).1
  | _ => True

/-- What holds at the points of a run. -/
def Session.Inv (sh : Session) : Prop :=
  match sh.point with
  | .reading => Tidy sh.state
  | .editing e => Editing sh.state e
  | .calling => Tidy sh.state ∧ 0 ≤ sh.state.i ∧ sh.state.i < H ∧ sh.state.i ≤ sh.state.n
  | .returned => True

/-- The cursor is on the line, `buf[n]` is the first NUL of `buf`, and the loop has written in the
    current slot alone, which is a slot of the history. -/
structure InSlot (st : State) (e : Edit) : Prop where
  cursor : 0 ≤ e.i ∧ e.i ≤ e.n ∧ e.n ≤ (N : ℤ) - 1
  first : ∃ len : ℕ, st.mem.strlen st.buf = some len ∧ e.n = len
  current : 0 ≤ st.i ∧ st.i < H
  written : ∀ a ∈ st.mem.written, slot st.i ≤ a ∧ a < slot st.i + N

theorem Editing.inSlot (h : Editing st e) : InSlot st e := by
  obtain ⟨front, rest, t, hline, -⟩ := h.line
  have hi := hline.i
  have hn := hline.n
  have hshort := hline.short
  have hpos := h.pos
  have hlt := h.lt
  have hnewest := h.newest
  exact ⟨by omega, ⟨_, hline.strlen_buf, by rw [hn, Nat.cast_add]⟩, by omega, h.written⟩

theorem Session.Inv.step {sh : Session} (h : sh.Inv) (hg : Guarded sh) (fnc : Fnc) :
    ∃ sh', step fnc sh = some sh' ∧ sh'.Inv := by
  obtain ⟨st, input, calls, point⟩ := sh
  cases point with
  | reading =>
      obtain ⟨r, hr, hedit⟩ := Tidy.enter h hg
      unfold Shell.step
      simp only [hr, Option.bind_eq_bind, Option.bind_some]
      exact ⟨_, rfl, hedit⟩
  | editing e =>
      obtain ⟨⟨⟨st', e'⟩, input'⟩, hr, hgo, hend⟩ := Editing.loopBody h hg
      unfold Shell.step
      simp only [hr, Option.bind_eq_bind, Option.bind_some]
      cases e' with
      | some e' => exact ⟨_, rfl, hgo e' rfl⟩
      | none =>
          obtain rfl : st' = st := hend rfl
          have hedit : Editing st' e := h
          obtain ⟨c, hc, htidy, hi, hn⟩ := hedit.commit
          have hpos := hedit.pos
          have hlt := hedit.lt
          have hnewest := hedit.newest
          simp only [hc, Option.bind_some]
          refine ⟨_, rfl, ?_⟩
          cases c.2 with
          | false => exact htidy
          | true =>
              have hplace : 0 ≤ c.1.i ∧ c.1.i < H ∧ c.1.i ≤ c.1.n := by omega
              exact ⟨htidy, hplace⟩
  | calling =>
      obtain ⟨len, s, mem, hlen, hread, hwrite, htidy, -⟩ :=
        Tidy.call h.1 h.2 (fun s => (fnc calls s).2)
      unfold Shell.step
      simp only [hlen, hread, hwrite, Option.bind_eq_bind, Option.bind_some]
      refine ⟨_, rfl, ?_⟩
      by_cases hret : (fnc calls s).1 ≠ 0
      · rw [if_pos hret]
        exact trivial
      · rw [if_neg hret]
        exact htidy
  | returned => exact ⟨_, rfl, h⟩

/-- Where a run of `shell` starts: the newest slot is one of the `H`, and the strings up to it end
    in their slots. -/
structure Started (sh : Session) : Prop where
  point : sh.point = .reading
  tidy : Tidy sh.state
  lt : sh.state.n < H

theorem Started.inv {sh : Session} (h : Started sh) : sh.Inv := by
  unfold Session.Inv
  rw [h.point]
  exact h.tidy

theorem Reaches.inv {fnc : Fnc} {sh₀ sh : Session} (hr : Reaches fnc sh₀ sh) (h₀ : Started sh₀)
    (hg : ∀ sh, Reaches fnc sh₀ sh → Guarded sh) : sh.Inv := by
  induction hr with
  | start => exact h₀.inv
  | step hr hs ih =>
      obtain ⟨sh', hs', hinv⟩ := ih.step (hg _ hr) fnc
      rw [hs] at hs'
      obtain rfl := Option.some.inj hs'
      exact hinv

/-- A space on a line that has no place left makes it longer than its slot. -/
theorem Editing.overfull {sh : Session} {e : Edit} (h : Editing sh.state e)
    (hpt : sh.point = .editing e) (hk : Line.Overfull e (getchar sh.input).1) (fnc : Fnc) :
    ∃ sh' e', step fnc sh = some sh' ∧ sh'.point = .editing e' ∧ ¬ InSlot sh'.state e' := by
  obtain ⟨front, rest, t, hline, -⟩ := h.line
  obtain ⟨hkey, hfull⟩ := hk
  obtain ⟨x, rest', rfl⟩ : ∃ x rest', rest = x :: rest' := by
    apply List.exists_cons_of_ne_nil
    intro hnil
    have hsize := h.size
    have hn := hline.n
    obtain ⟨m, hm⟩ := Int.eq_ofNat_of_zero_le h.pos
    have hbuf := hline.buf
    rw [State.buf, h.newest, slot, hm] at hbuf
    have hfront : front.length = m * N := by exact_mod_cast hbuf.symm
    have hlt := h.lt
    have hle := slot_le_of_lt (show m < H by omega)
    rw [hline.bytes, hnil] at hsize
    simp only [List.length_append, List.length_singleton] at hsize
    rw [Nat.succ_mul] at hle
    omega
  have hloop : Shell.loopBody sh.state e sh.input =
      (insertSpace sh.state e).map (fun r => ((r.1, some r.2), (getchar sh.input).2)) := by
    unfold Shell.loopBody Shell.key
    simp only
    rw [if_neg (by omega), if_neg (by omega), if_neg (by omega), if_neg (by omega),
      if_neg (by omega), if_neg (by omega), if_pos hkey]
  unfold Shell.step
  rw [hpt]
  simp only [hloop, hline.insertSpace_eq, Option.map_some, Option.bind_eq_bind, Option.bind_some]
  refine ⟨_, _, rfl, rfl, fun hin => ?_⟩
  have := hin.cursor.2.2
  simp only at this
  omega

/-- `read_line` edits the newest slot. -/
theorem reading_step {fnc : Fnc} {sh sh' : Session} (hpt : sh.point = .reading)
    (hs : step fnc sh = some sh') :
    ∃ e, sh'.point = .editing e ∧ sh'.state.i = sh.state.n := by
  unfold step at hs
  rw [hpt] at hs
  unfold enter at hs
  simp only [Option.bind_eq_bind] at hs
  rw [Option.bind_eq_some_iff] at hs
  obtain ⟨r, hr, hs⟩ := hs
  rw [Option.bind_eq_some_iff] at hr
  obtain ⟨len, -, hr⟩ := hr
  obtain rfl := Option.some.inj hr
  obtain rfl := Option.some.inj hs
  exact ⟨_, rfl, rfl⟩

/-- A session in its slot whose next step does not leave the object. -/
def Sound (fnc : Fnc) (sh : Session) : Prop :=
  (∀ e, sh.point = .editing e → InSlot sh.state e) ∧ (step fnc sh).isSome = true

/-- **Where the loop of `read_line` stays in its slot**: exactly in the runs in which no space and
    no tab comes on a line that has no place left. -/
theorem sound_iff_guarded (fnc : Fnc) {sh₀ : Session} (h₀ : Started sh₀) :
    (∀ sh, Reaches fnc sh₀ sh → Sound fnc sh) ↔ ∀ sh, Reaches fnc sh₀ sh → Guarded sh := by
  constructor
  · intro hsound
    -- the invariant comes along, since up to a step that is not guarded the run is a guarded one
    suffices h : ∀ sh, Reaches fnc sh₀ sh → sh.Inv ∧ Guarded sh from fun sh hr => (h sh hr).2
    have hguard (sh : Session) (hr : Reaches fnc sh₀ sh) (hinv : sh.Inv) : Guarded sh := by
      obtain ⟨hin, hsome⟩ := hsound sh hr
      obtain ⟨sh', hs⟩ := Option.isSome_iff_exists.1 hsome
      have hin' := (hsound sh' (hr.step hs)).1
      unfold Guarded
      cases hpt : sh.point with
      | reading =>
          obtain ⟨e, he, hi⟩ := reading_step hpt hs
          have := (hin' e he).current.2
          exact hi ▸ this
      | editing e =>
          intro hover
          unfold Session.Inv at hinv
          rw [hpt] at hinv
          obtain ⟨sh'', e', hs', he', hout⟩ := Editing.overfull hinv hpt hover fnc
          rw [hs] at hs'
          obtain rfl := Option.some.inj hs'
          exact hout (hin' e' he')
      | calling => trivial
      | returned => trivial
    intro sh hr
    induction hr with
    | start => exact ⟨h₀.inv, hguard _ .start h₀.inv⟩
    | step hr hs ih =>
        obtain ⟨sh', hs', hinv⟩ := ih.1.step ih.2 fnc
        rw [hs] at hs'
        obtain rfl := Option.some.inj hs'
        exact ⟨hinv, hguard _ (hr.step hs) hinv⟩
  · intro hg sh hr
    have hinv := hr.inv h₀ hg
    obtain ⟨sh', hs', -⟩ := hinv.step (hg sh hr) fnc
    refine ⟨?_, by rw [hs']; rfl⟩
    intro e he
    unfold Session.Inv at hinv
    rw [he] at hinv
    exact hinv.inSlot

/-- The program starts as `Started` says. -/
theorem started_zero {termios : List UInt8} (h : termios ≠ []) (input : List UInt8) :
    Started ⟨State.zero termios, input, 0, .reading⟩ := by
  have hH : (0 : ℤ) < H := by decide
  refine ⟨rfl, ⟨le_rfl, Int.natCast_nonneg _, ?_, ?_⟩, hH⟩
  · have := List.length_pos_of_ne_nil h
    simp only [State.zero, List.length_append, List.length_replicate]
    omega
  · intro k _ hk
    rw [terminated_iff]
    refine ⟨0, by decide, ?_⟩
    have hlt : k * N + 0 < H * N := by
      have := slot_le_of_lt hk
      rw [Nat.succ_mul] at this
      have : 0 < N := by decide
      omega
    simp only [State.zero]
    rw [List.getElem?_append_left (by rw [List.length_replicate]; exact hlt),
      List.getElem?_replicate_of_lt hlt]

/-- `"ab"` with a tab between, one place taken back, Enter; `"c"`, Enter. -/
def twoLines : List UInt8 := [97, 9, 98, 100, 127, 10, 99, 10]

theorem sound_iff_guarded_twoLines :
    Started ⟨State.zero (List.replicate 60 0), twoLines, 0, .reading⟩ ∧
      ((∀ sh, Reaches (fun _ s => (0, s))
          ⟨State.zero (List.replicate 60 0), twoLines, 0, .reading⟩ sh →
          Sound (fun _ s => (0, s)) sh) ↔
        ∀ sh, Reaches (fun _ s => (0, s))
          ⟨State.zero (List.replicate 60 0), twoLines, 0, .reading⟩ sh → Guarded sh) :=
  ⟨started_zero (by decide) twoLines, sound_iff_guarded _ (started_zero (by decide) twoLines)⟩

/-! ## A line that is typed -/

/-- The line `s` is edited, with the cursor at its end. -/
structure AtEnd (sh : Session) (s : List UInt8) (e : Edit) : Prop where
  point : sh.point = .editing e
  editing : Editing sh.state e
  line : ∃ front rest, Line front s [] rest sh.state e ∧
    ∀ k : ℕ, (k : ℤ) < sh.state.n → Terminated front k

/-- `read_line` is about to be called, with an empty slot to edit. -/
structure AtStart (sh : Session) : Prop where
  point : sh.point = .reading
  tidy : Tidy sh.state
  cleared : sh.state.mem.load (slot sh.state.n) = some 0

theorem AtStart.enter {sh : Session} (h : AtStart sh) (hn : sh.state.n < H) (fnc : Fnc) :
    ∃ sh' e, step fnc sh = some sh' ∧ sh'.input = sh.input ∧ sh'.state.n = sh.state.n ∧
      AtEnd sh' [] e := by
  obtain ⟨r, hr, hedit⟩ := h.tidy.enter hn
  have hzero : r.2.n = 0 := enter_n hr (strlen_eq_zero h.cleared)
  obtain ⟨front, rest, t, hline, hfront⟩ := hedit.line
  have hlen := hline.n
  have hbefore : t.before = [] := List.eq_nil_of_length_eq_zero (by omega)
  have hafter : t.after = [] := List.eq_nil_of_length_eq_zero (by omega)
  rw [hbefore, hafter] at hline
  have hs : step fnc sh = some { sh with state := r.1, point := .editing r.2 } := by
    unfold step
    rw [h.point]
    simp only [hr, Option.bind_eq_bind, Option.bind_some]
  obtain ⟨e, -, hi⟩ := reading_step h.point hs
  exact ⟨_, r.2, hs, rfl, by rw [← hi]; exact hedit.newest.symm, rfl, hedit, front, rest, hline,
    hfront⟩

theorem toChar_toNat (c : UInt8) : toChar c.toNat = c := by
  have := c.toNat_lt
  unfold toChar
  rw [Int.emod_eq_of_lt (by omega) (by omega), Int.toNat_natCast, UInt8.ofNat_toNat]

/-- A character that can be printed comes in. -/
theorem press_isprint {s : List UInt8} {c : UInt8} (hc : isprint c.toNat = true)
    (hn : s.length + 1 < N) : (Text.mk s []).press c.toNat = ⟨s ++ [c], []⟩ := by
  have hrange := hc
  simp only [isprint, Bool.and_eq_true, decide_eq_true_eq] at hrange
  unfold Text.press Text.insert Text.length
  rw [if_neg (by omega), if_neg (by omega), if_neg (by omega), if_neg (by omega), if_pos hc,
    toChar_toNat]
  simp only [List.length_nil, add_zero]
  rw [if_pos hn]
  split_ifs with h32
  · obtain rfl : c = 32 := UInt8.toNat_inj.1 (show c.toNat = 32 by omega)
    rfl
  · rfl

theorem AtEnd.type {sh : Session} {s input : List UInt8} {e : Edit} {c : UInt8}
    (h : AtEnd sh s e) (hin : sh.input = c :: input) (hc : isprint c.toNat = true)
    (hn : s.length + 1 < N) (fnc : Fnc) :
    ∃ sh' e', step fnc sh = some sh' ∧ sh'.input = input ∧ sh'.state.n = sh.state.n ∧
      AtEnd sh' (s ++ [c]) e' := by
  obtain ⟨hpt, hedit, front, rest, hline, hfront⟩ := h
  have hlen := hline.n
  rw [List.length_nil, Nat.cast_zero, add_zero] at hlen
  have hturns := hline.press (t := ⟨s, []⟩) (k := c.toNat) (fun hover => by
    have := hover.2
    omega)
  rw [press_isprint hc hn] at hturns
  obtain ⟨r, hr, hedit', -⟩ :=
    (hedit.editingIn (t := ⟨s, []⟩) hline hfront).of_turned hturns.turned hedit.shown
  obtain ⟨st', e', rest', hr', hline', hwithin, -⟩ := hturns
  rw [hr] at hr'
  obtain rfl := Option.some.inj hr'
  have hloop : loopBody sh.state e sh.input = some ((st', some e'), input) := by
    have hrange := hc
    simp only [isprint, Bool.and_eq_true, decide_eq_true_eq] at hrange
    rw [hin]
    show (if (27 : ℤ) = c.toNat then _ else if (10 : ℤ) = c.toNat then _
      else (key sh.state e c.toNat).map fun r => ((r.1, some r.2), input)) = _
    rw [if_neg (by omega), if_neg (by omega), hr, Option.map_some]
  unfold step
  rw [hpt]
  simp only [hloop, Option.bind_eq_bind, Option.bind_some]
  refine ⟨_, e', rfl, rfl, hwithin.n, rfl, editing_iff.2 ⟨front, hedit'⟩, front, rest', hline', ?_⟩
  intro k hk
  exact hfront k (by rw [← hwithin.n]; exact hk)

theorem AtEnd.lineIs {sh : Session} {s : List UInt8} {e : Edit} (h : AtEnd sh s e) :
    LineIs sh.state s := by
  obtain ⟨front, rest, hline, -⟩ := h.line
  simpa using hline.lineIs

/-- Enter ends the line, and the callback will have it. -/
theorem AtEnd.enter {sh : Session} {s input : List UInt8} {e : Edit} (h : AtEnd sh s e)
    (hin : sh.input = 10 :: input) (htrim : trim s ≠ []) (fnc : Fnc) :
    ∃ st', step fnc sh = some { sh with state := st', input := input, point := .calling } ∧
      Tidy st' ∧ st'.i = sh.state.n ∧ st'.n = sh.state.n + 1 ∧ sh.state.n < H ∧
      st'.mem.load (slot st'.n) = some 0 := by
  have hedit := h.editing
  obtain ⟨c, hc, hret, htidy, hi, hn, hload⟩ := hedit.commit_line h.lineIs htrim
  have hloop : loopBody sh.state e sh.input = some ((sh.state, none), input) := by
    rw [hin]
    rfl
  refine ⟨c.1, ?_, htidy, hi.trans hedit.newest, hn, hedit.lt, hload⟩
  unfold step
  rw [h.point]
  simp only [hloop, hc, hret, Option.bind_eq_bind, Option.bind_some]
  rfl

/-- Enter ends the line, the callback has it, and `read_line` is called again. -/
theorem AtEnd.commit {sh : Session} {s input : List UInt8} {e : Edit} (h : AtEnd sh s e)
    (hin : sh.input = 10 :: input) (htrim : trim s ≠ []) (fnc : Fnc)
    (hfnc : ∀ k s, (fnc k s).1 = 0) :
    ∃ sh' sh'', step fnc sh = some sh' ∧ step fnc sh' = some sh'' ∧ sh''.input = input ∧
      sh''.state.n = sh.state.n + 1 ∧ AtStart sh'' := by
  have hpos := h.editing.pos
  obtain ⟨st', hs, htidy, hi, hn, hlt, hload⟩ := h.enter hin htrim fnc
  obtain ⟨len, t, mem, hlen, hread, hwrite, htidy', hframe⟩ :=
    htidy.call (by omega) (fun t => (fnc sh.calls t).2)
  refine ⟨_, ⟨{ st' with mem := mem }, input, sh.calls + 1, .reading⟩, hs, ?_, rfl, hn, rfl,
    htidy', ?_⟩
  · unfold step
    simp only [hlen, hread, hwrite, Option.bind_eq_bind, Option.bind_some]
    rw [if_neg (fun hne => hne (hfnc _ _))]
  · refine (hframe _ ?_).trans hload
    show st'.buf + N ≤ slot st'.n
    rw [State.buf, slot, slot, hi, hn, add_mul, one_mul]

/-! ## A line without a place left -/

/-- A shell in which a line without a place left gets a space. -/
def overfullSession : Session :=
  ⟨State.zero (List.replicate 60 0), List.replicate 159 97 ++ [32], 0, .reading⟩

theorem atStart_zero {termios : List UInt8} (h : termios ≠ []) (input : List UInt8) :
    AtStart ⟨State.zero termios, input, 0, .reading⟩ := by
  refine ⟨rfl, (started_zero h input).tidy, ?_⟩
  simp only [State.zero, slot, load, zero_mul, Int.toNat_zero]
  rw [if_pos le_rfl, List.getElem?_append_left (by rw [List.length_replicate]; decide),
    List.getElem?_replicate_of_lt (by decide)]

theorem reaches_typed (fnc : Fnc) (k : ℕ) (hk : k ≤ 159) :
    ∃ sh e, Reaches fnc overfullSession sh ∧ sh.input = List.replicate (159 - k) 97 ++ [32] ∧
      AtEnd sh (List.replicate k 97) e := by
  induction k with
  | zero =>
      obtain ⟨sh', e, hs, hin, -, hend⟩ :=
        (atStart_zero (by decide) _ : AtStart overfullSession).enter (by decide) fnc
      exact ⟨sh', e, Reaches.start.step hs, hin, hend⟩
  | succ k ih =>
      obtain ⟨sh, e, hreach, hin, hend⟩ := ih (by omega)
      rw [show 159 - k = (159 - (k + 1)) + 1 by omega, List.replicate_succ, List.cons_append] at hin
      obtain ⟨sh', e', hs, hin', -, hend'⟩ :=
        hend.type hin (by decide) (by rw [List.length_replicate, N]; omega) fnc
      rw [← List.replicate_succ'] at hend'
      exact ⟨sh', e', hreach.step hs, hin', hend'⟩

/-- 159 characters and a space: the line is 160 long, and its terminator in the next slot. -/
theorem overfull_not_inSlot :
    ¬ ∀ sh, Reaches (fun _ s => (0, s)) overfullSession sh →
      ∀ e, sh.point = .editing e → InSlot sh.state e := by
  intro h
  obtain ⟨sh, e, hreach, hin, hpt, hedit, front, rest, hline, -⟩ :=
    reaches_typed (fun _ s => (0, s)) 159 le_rfl
  have hover : Line.Overfull e (getchar sh.input).1 := by
    rw [hin]
    exact ⟨Or.inl rfl, by rw [hline.n, List.length_replicate]; rfl⟩
  obtain ⟨sh', e', hs, hpt', hout⟩ := hedit.overfull hpt hover (fun _ s => (0, s))
  exact hout (h sh' (hreach.step hs) e' hpt')

end CS238P.Shell
