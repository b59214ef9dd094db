import CS238P.Shell.Trim

set_option autoImplicit false

/-! # What a key does to the bytes

On a place that holds `before ++ after` with the cursor between the two, every key of the loop of
`read_line` has its effect on `before` and `after` alone: the bytes in front of the place stay, and
only bytes of the place are written. How long the line may be is a parameter: a slot has `N` bytes,
but a space or a tab is taken on a line that needs one more. -/

namespace CS238P.Shell

open CObject

/-- The line being edited is `before ++ after`, shorter than `cap`, with the cursor between the two.
    `front` is what lies in front of it, `rest` what lies behind its terminator. -/
structure Cell (cap : ℕ) (front before after rest : List UInt8) (st : State) (e : Edit) :
    Prop where
  bytes : st.mem.bytes = front ++ (before ++ (after ++ (0 :: rest)))
  buf : st.buf = front.length
  i : e.i = before.length
  n : e.n = before.length + after.length
  nul : (0 : UInt8) ∉ before ++ after
  short : before.length + after.length < cap
  /-- The object has `cap` bytes from the line on. -/
  room : cap ≤ before.length + after.length + 1 + rest.length

/-- From `st` to `st'` none but the `cap` bytes from the line on were written. -/
structure Inside (cap : ℕ) (st st' : State) : Prop where
  i : st'.i = st.i
  n : st'.n = st.n
  size : st'.mem.bytes.length = st.mem.bytes.length
  written : ∃ ws, st'.mem.written = st.mem.written ++ ws ∧
    ∀ a ∈ ws, st.buf ≤ a ∧ a < st.buf + cap

theorem Inside.refl (cap : ℕ) (st : State) : Inside cap st st :=
  ⟨rfl, rfl, rfl, [], (List.append_nil _).symm, by simp⟩

/-- The key turns the line into `before ++ after`, with the history slot `j` last shown. -/
def Turned (cap : ℕ) (front before after : List UInt8) (st : State) (r : Option (State × Edit))
    (j : ℤ) : Prop :=
  ∃ st' e' rest, r = some (st', e') ∧ Cell cap front before after rest st' e' ∧
    Inside cap st st' ∧ e'.j = j

variable {cap : ℕ} {front before after rest : List UInt8} {st : State} {e : Edit}

namespace Cell

theorem nul_before (h : Cell cap front before after rest st e) : (0 : UInt8) ∉ before :=
  fun hm => h.nul (List.mem_append_left _ hm)

theorem nul_after (h : Cell cap front before after rest st e) : (0 : UInt8) ∉ after :=
  fun hm => h.nul (List.mem_append_right _ hm)

theorem at_cursor (h : Cell cap front before after rest st e) :
    st.buf + e.i = ((front ++ before).length : ℤ) := by
  rw [h.buf, h.i, List.length_append, Nat.cast_add]

/-- The bytes, cut at the cursor. -/
theorem split (h : Cell cap front before after rest st e) :
    st.mem.bytes = (front ++ before) ++ (after ++ (0 :: rest)) := by
  rw [h.bytes, List.append_assoc]

theorem strlen_cursor (h : Cell cap front before after rest st e) :
    st.mem.strlen (st.buf + e.i) = some after.length :=
  strlen_mid h.split h.at_cursor h.nul_after

/-- `buf[n]` is the first NUL. -/
theorem strlen_buf (h : Cell cap front before after rest st e) :
    st.mem.strlen st.buf = some (before.length + after.length) := by
  rw [strlen_mid (s := before ++ after) (by rw [h.bytes, List.append_assoc]) h.buf h.nul,
    List.length_append]

theorem lineIs (h : Cell cap front before after rest st e) : LineIs st (before ++ after) :=
  ⟨front, rest, by rw [h.bytes, List.append_assoc], h.buf, h.nul⟩

/-- The bytes behind the terminator, as long as the line may grow. -/
theorem exists_cons (h : Cell cap front before after rest st e) (hn : e.n + 1 < cap) :
    ∃ x rest', rest = x :: rest' := by
  apply List.exists_cons_of_ne_nil
  intro hr
  have hroom := h.room
  have hlen := h.n
  rw [hr, List.length_nil] at hroom
  omega

/-- A line that was written to the slot. -/
theorem turns (h : Cell cap front before after rest st e) {before' after' r : List UInt8}
    {mem : CObject} {w indices : List ℤ} {e' : Edit}
    (hb : mem.bytes = front ++ (before' ++ (after' ++ (0 :: r))))
    (hw : mem.written = st.mem.written ++ w) (hin : ∀ a ∈ w, st.buf ≤ a ∧ a < st.buf + cap)
    (hlen : before'.length + after'.length + r.length =
      before.length + after.length + rest.length)
    (hnul : (0 : UInt8) ∉ before' ++ after') (hshort : before'.length + after'.length < cap)
    (hi : e'.i = before'.length) (hn : e'.n = before'.length + after'.length) :
    Turned cap front before' after' st
      (some ⟨{ st with mem := mem, indices := indices }, e'⟩) e'.j := by
  have hroom := h.room
  refine ⟨_, _, r, rfl, ⟨hb, h.buf, hi, hn, hnul, hshort, by omega⟩, ⟨rfl, rfl, ?_, w, hw, hin⟩,
    rfl⟩
  rw [hb, h.bytes]
  simp only [List.length_append, List.length_cons]
  omega

/-- A key that changes no text. -/
theorem stays (h : Cell cap front before after rest st e) :
    Turned cap front before after st (some (st, e)) e.j :=
  ⟨st, e, rest, rfl, h, Inside.refl cap st, rfl⟩

/-- The places a key may write to. -/
theorem mem_slot (h : Cell cap front before after rest st e) {a : ℤ} (h0 : st.buf ≤ a)
    (hN : a ≤ st.buf + e.n) : st.buf ≤ a ∧ a < st.buf + cap := by
  have := h.short
  have := h.n
  omega

/-! ## Characters come in -/

theorem shift (h : Cell cap front before after rest st e) :
    ∃ y ws, shift st e = some ⟨(front ++ before) ++ (y :: (after ++ rest)),
        st.mem.written ++ ws⟩ ∧ ∀ a ∈ ws, st.buf + e.i < a ∧ a ≤ st.buf + e.n := by
  have hi := h.i
  have hn := h.n
  unfold Shell.shift
  by_cases hlt : e.i < e.n
  · obtain ⟨y, hy⟩ := memmove_right (d := st.buf + e.i + 1) h.split h.at_cursor rfl
    rw [if_pos hlt, h.strlen_cursor, add_zero]
    refine ⟨y, _, hy, ?_⟩
    intro a ha
    rw [mem_span] at ha
    omega
  · have hnil : after = [] := List.eq_nil_of_length_eq_zero (by omega)
    subst hnil
    refine ⟨0, [], ?_, by simp⟩
    rw [if_neg hlt, List.append_nil]
    show some st.mem = some ⟨(front ++ before) ++ ([] ++ (0 :: rest)), st.mem.written⟩
    rw [← h.split]

theorem insertChar (h : Cell cap front before after rest st e) {k : ℤ} (hn : e.n + 1 < N) (hcap : N ≤ cap)
    (hk : toChar k ≠ 0) :
    Turned cap front (before ++ [toChar k]) after st (insertChar st e k) e.j := by
  obtain ⟨x, rest', rfl⟩ := h.exists_cons (by omega)
  have hi := h.i
  have hlen := h.n
  obtain ⟨y, ws, hshift, hws⟩ := h.shift
  have hend : st.buf + (e.n + 1) = ((front ++ (before ++ (toChar k :: after))).length : ℤ) := by
    rw [h.buf]
    simp
    omega
  unfold Shell.insertChar
  simp only [Option.bind_eq_bind]
  rw [if_pos hn, hshift, Option.bind_some, store_mid rfl h.at_cursor, Option.bind_some,
    store_mid (l := front ++ (before ++ (toChar k :: after))) (x := x) (r := rest') (by simp) hend,
    Option.bind_some]
  refine h.turns (r := rest') (w := ws ++ span (st.buf + e.i) 1 ++ span (st.buf + (e.n + 1)) 1)
    (by simp) (by simp) ?_ (by simp; omega) ?_ (by simp; omega) (by simp; omega) (by simp; omega)
  · intro a ha
    simp only [List.mem_append, mem_span] at ha
    rcases ha with (ha | ha) | ha
    · exact h.mem_slot (by have := hws a ha; omega) (hws a ha).2
    · omega
    · omega
  · have := h.nul
    simp only [List.mem_append, List.mem_singleton] at this ⊢
    tauto

/-- The string moves up with its terminator, to where the first byte behind it was. -/
theorem insertSpace_eq {x : UInt8} (h : Cell cap front before after (x :: rest) st e)
    (hn : e.n < N) :
    insertSpace st e = some ⟨{ st with
      mem := ⟨(front ++ before) ++ (32 :: ((after ++ [0]) ++ rest)),
        st.mem.written ++ span (st.buf + e.i + 1) (after.length + 1) ++ span (st.buf + e.i) 1⟩ },
      ⟨e.i + 1, e.j, e.n + 1⟩⟩ := by
  obtain ⟨y, hy⟩ := memmove_right (o := st.mem) (l := front ++ before) (s := after ++ [0]) (x := x)
    (r := rest) (d := st.buf + e.i + 1) (by rw [h.split]; simp) h.at_cursor rfl
  rw [List.length_append, List.length_singleton] at hy
  unfold Shell.insertSpace
  simp only [Option.bind_eq_bind]
  rw [if_pos hn, h.strlen_cursor, Option.bind_some, add_zero, hy, Option.bind_some,
    store_mid rfl h.at_cursor, Option.bind_some]

theorem insertSpace (h : Cell cap front before after rest st e) (hn : e.n < N)
    (hcap : e.n + 1 < cap) :
    Turned cap front (before ++ [32]) after st (insertSpace st e) e.j := by
  obtain ⟨x, rest', rfl⟩ := h.exists_cons hcap
  have hi := h.i
  have hlen := h.n
  rw [h.insertSpace_eq hn]
  refine h.turns (r := rest')
    (w := span (st.buf + e.i + 1) (after.length + 1) ++ span (st.buf + e.i) 1)
    (by simp) (by simp) ?_ (by simp; omega) ?_ (by simp; omega) (by simp; omega) (by simp; omega)
  · intro a ha
    simp only [List.mem_append, mem_span] at ha
    omega
  · have := h.nul
    simp only [List.mem_append, List.mem_singleton] at this ⊢
    simp
    tauto

/-! ## Characters go -/

theorem delete {c : UInt8} (h : Cell cap front before (c :: after) rest st e) :
    Turned cap front before after st (delete st e) e.j := by
  have hi := h.i
  have hlen := h.n
  have hshort := h.short
  rw [List.length_cons] at hlen hshort
  have hstr : st.mem.strlen (st.buf + e.i + 1) = some after.length :=
    strlen_mid (l := (front ++ before) ++ [c]) (r := rest) (by rw [h.split]; simp)
      (by rw [h.at_cursor]; simp [add_assoc]) (fun hm => h.nul_after (List.mem_cons_of_mem _ hm))
  obtain ⟨y, hy⟩ := memmove_left (o := st.mem) (l := front ++ before) (s := after ++ [0]) (x := c)
    (r := rest) (d := st.buf + e.i) (a := st.buf + e.i + 1) (by rw [h.split]; simp) h.at_cursor rfl
  rw [List.length_append, List.length_singleton] at hy
  unfold Shell.delete
  simp only [Option.bind_eq_bind]
  rw [if_pos (by omega), hstr, Option.bind_some, add_zero, hy, Option.bind_some]
  refine h.turns (r := y :: rest) (w := span (st.buf + e.i) (after.length + 1))
    (by simp) rfl ?_ (by simp; omega) ?_ (by omega) hi (by simp; omega)
  · intro a ha
    rw [mem_span] at ha
    omega
  · have := h.nul
    simp only [List.mem_append, List.mem_cons] at this ⊢
    tauto

theorem backspace {c : UInt8} (h : Cell cap front (before ++ [c]) after rest st e) :
    Turned cap front before after st (backspace st e) e.j := by
  have hi := h.i
  have hlen := h.n
  have hshort := h.short
  rw [List.length_append, List.length_singleton] at hi hlen hshort
  have hat : st.buf + e.i - 1 = ((front ++ before).length : ℤ) := by
    rw [h.buf, List.length_append]
    omega
  obtain ⟨y, hy⟩ := memmove_left (o := st.mem) (l := front ++ before) (s := after ++ [0]) (x := c)
    (r := rest) (d := st.buf + e.i - 1) (a := st.buf + e.i) (by rw [h.split]; simp) hat (by omega)
  rw [List.length_append, List.length_singleton] at hy
  unfold Shell.backspace
  simp only [Option.bind_eq_bind]
  rw [if_pos (by omega), h.strlen_cursor, Option.bind_some, add_zero, hy, Option.bind_some]
  refine h.turns (r := y :: rest) (w := span (st.buf + e.i - 1) (after.length + 1))
    (by simp) rfl ?_ (by simp; omega) ?_ (by omega) (by simp; omega) (by simp; omega)
  · intro a ha
    rw [mem_span] at ha
    omega
  · have := h.nul
    simp only [List.mem_append, List.mem_cons] at this ⊢
    tauto

theorem kill (h : Cell cap front before after rest st e) :
    Turned cap front before [] st (kill st e) e.j := by
  have hi := h.i
  have hlen := h.n
  have hshort := h.short
  obtain ⟨x, after', hx⟩ : ∃ x after', after ++ (0 :: rest) = x :: after' :=
    List.exists_cons_of_ne_nil (by simp)
  have hstore := store_mid (h.split.trans (by rw [hx])) h.at_cursor 0
  have hstr : (CObject.mk ((front ++ before) ++ (0 :: after'))
      (st.mem.written ++ span (st.buf + e.i) 1)).strlen st.buf = some before.length :=
    strlen_mid (s := before) (r := after') (by simp) h.buf h.nul_before
  unfold Shell.kill
  simp only [Option.bind_eq_bind]
  rw [hstore, Option.bind_some, hstr, Option.bind_some]
  have hlen' := congrArg List.length hx
  simp only [List.length_append, List.length_cons] at hlen'
  refine h.turns (r := after') (w := span (st.buf + e.i) 1)
    (by simp) rfl ?_ (by simp; omega) (by simpa using h.nul_before) (by simp; omega) rfl (by simp)
  intro a ha
  rw [mem_span] at ha
  omega

/-! ## The history -/

/-- Another slot is shown: its string is copied and the rest of the slot filled with NULs. -/
theorem recallSlot {l s r : List UInt8} (h : Cell cap front before after rest st e) {j : ℤ}
    (hcap : N ≤ cap) (hslot : front = l ++ (s ++ (0 :: r))) (hj : slot j = l.length)
    (hs : (0 : UInt8) ∉ s) (hshort : s.length < N) :
    Turned cap front s [] st (recallSlot st j) j := by
  obtain ⟨x, cell, hx⟩ : ∃ x cell, before ++ (after ++ (0 :: rest)) = x :: cell :=
    List.exists_cons_of_ne_nil (by simp)
  have hroom := h.room
  have hlen := congrArg List.length hx
  simp only [List.length_append, List.length_cons] at hlen
  have hne : st.buf ≠ slot j := by
    have := h.buf
    rw [hslot] at this
    simp at this
    omega
  have hstore := store_mid (h.bytes.trans (by rw [hx])) h.buf 0
  have hcopy := strncpy_mid (o := ⟨front ++ (0 :: cell), st.mem.written ++ span st.buf 1⟩)
    (l := l) (r := r ++ (0 :: cell)) (s := s) (p := front)
    (q := (0 :: cell).take N) (t := (0 :: cell).drop N) (n := N) (d := st.buf)
    (by rw [hslot]; simp) hj hs hshort.le (by rw [List.take_append_drop]) h.buf
    (by simp; omega)
  have hfill : List.replicate (N - s.length) (0 : UInt8) =
      0 :: List.replicate (N - s.length - 1) 0 := by
    rw [← List.replicate_succ]
    congr 1
    omega
  have hstr : (CObject.mk (front ++ ((s ++ List.replicate (N - s.length) 0) ++ (0 :: cell).drop N))
      ((st.mem.written ++ span st.buf 1) ++ span st.buf N)).strlen st.buf = some s.length :=
    strlen_mid (s := s) (by rw [hfill, List.append_assoc, List.cons_append]) h.buf hs
  unfold Shell.recallSlot
  simp only [Option.bind_eq_bind]
  rw [hstore, Option.bind_some, copySlot, if_pos hne, hcopy, Option.bind_some, hstr,
    Option.bind_some]
  refine h.turns (r := List.replicate (N - s.length - 1) 0 ++ (0 :: cell).drop N)
    (w := span st.buf 1 ++ span st.buf N) (by simp [hfill]) (by simp) ?_ ?_ (by simpa using hs)
    (by simp; omega) rfl (by simp)
  · intro a ha
    simp only [List.mem_append, mem_span] at ha
    have : (1 : ℤ) ≤ N := by decide
    omega
  · simp only [List.length_append, List.length_replicate, List.length_drop, List.length_cons,
      List.length_nil]
    omega

/-- Back on the slot being edited, the line is empty. -/
theorem recallSlot_self (h : Cell cap front before after rest st e) :
    Turned cap front [] [] st (Shell.recallSlot st st.i) st.i := by
  obtain ⟨x, cell, hx⟩ : ∃ x cell, before ++ (after ++ (0 :: rest)) = x :: cell :=
    List.exists_cons_of_ne_nil (by simp)
  have hlen := congrArg List.length hx
  simp only [List.length_append, List.length_cons] at hlen
  have hstore := store_mid (h.bytes.trans (by rw [hx])) h.buf 0
  have hstr : (CObject.mk (front ++ (0 :: cell)) (st.mem.written ++ span st.buf 1)).strlen st.buf =
      some 0 :=
    strlen_mid (s := []) rfl h.buf (by simp)
  unfold Shell.recallSlot
  simp only [Option.bind_eq_bind]
  rw [hstore, Option.bind_some, copySlot, if_neg (fun hne => hne rfl), Option.bind_some, hstr,
    Option.bind_some]
  have hshort := h.short
  refine h.turns (r := cell) (w := span st.buf 1) rfl rfl ?_ (by simp; omega) (by simp)
    (by simp; omega) rfl rfl
  intro a ha
  rw [mem_span] at ha
  omega

end Cell

end CS238P.Shell
