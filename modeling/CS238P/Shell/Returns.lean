import CS238P.Shell.Editor

set_option autoImplicit false

/-! # When `read_line` returns

The loop of `read_line` ends with Enter and with nothing else. At the end of the input `getchar`
returns EOF for ever, which is one more character that is ignored, so that a call which does not
read an Enter reads on without end. Up to there every turn goes through, also on a line that a space
has made longer than its slot. -/

namespace CS238P.Shell

open CObject

/-- The call comes back after a finite number of turns, and so of calls of `getchar`. -/
def Returns (st : State) (input : List UInt8) : Prop :=
  ∃ k st' line rest, readLine st input k = some (.returned st' line rest)

/-- A newline is typed that is not one of the two bytes behind an escape. The number is that of the
    bytes that still belong to an escape sequence. -/
def entersLine : ℕ → List UInt8 → Bool
  | _, [] => false
  | skip + 1, _ :: input => entersLine skip input
  | 0, c :: input => if c = 27 then entersLine 2 input else c = 10 || entersLine 0 input

/-! ## The input, key by key -/

theorem entersLine_drop (skip : ℕ) (input : List UInt8) :
    entersLine skip input = entersLine 0 (input.drop skip) := by
  induction input generalizing skip with
  | nil => simp [entersLine]
  | cons c input ih =>
      cases skip with
      | zero => rfl
      | succ skip => rw [entersLine, ih, List.drop_succ_cons]

theorem getchar_snd (input : List UInt8) : (getchar input).2 = input.drop 1 := by
  cases input <;> rfl

theorem readKey_nil : readKey [] = (.other, []) := by
  decide

theorem readKey_escape {c : UInt8} (h : c = 27) (input : List UInt8) :
    (readKey (c :: input)).1 ≠ .enter ∧ (readKey (c :: input)).2 = input.drop 2 := by
  subst h
  refine ⟨Key.ofEscape_ne_enter _, ?_⟩
  show (getchar (getchar input).2).2 = _
  rw [getchar_snd, getchar_snd, List.drop_drop]

theorem readKey_byte {c : UInt8} (h : c ≠ 27) (input : List UInt8) :
    readKey (c :: input) = (Key.ofByte c.toNat, input) := by
  have hc : ¬ (c.toNat : ℤ) = 27 := by
    intro hc
    have hnat : c.toNat = 27 := by exact_mod_cast hc
    exact h (UInt8.toNat_inj.1 hnat)
  simp [readKey, getchar, hc]

theorem Key.ofByte_eq_enter {k : ℤ} : Key.ofByte k = .enter ↔ k = 10 := by
  constructor
  · intro h
    by_contra hk
    exact Key.ofByte_ne_enter hk h
  · intro h
    simp [h, Key.ofByte]

theorem ofByte_toNat_eq_enter (c : UInt8) : Key.ofByte c.toNat = .enter ↔ c = 10 := by
  rw [Key.ofByte_eq_enter, ← UInt8.toNat_inj]
  exact Nat.cast_inj

/-- A newline is typed: with the next key, or with one behind it. -/
theorem entersLine_iff (input : List UInt8) :
    entersLine 0 input = true ↔ (readKey input).1 = .enter ∨
      (input ≠ [] ∧ entersLine 0 (readKey input).2 = true) := by
  cases input with
  | nil => simp [entersLine, readKey_nil]
  | cons c input =>
      rw [entersLine]
      by_cases h27 : c = 27
      · obtain ⟨hkey, hrest⟩ := readKey_escape h27 input
        simp [h27, hrest ▸ entersLine_drop 2 input, h27 ▸ hkey, h27 ▸ hrest]
      · simp [h27, readKey_byte h27, ofByte_toNat_eq_enter]

theorem length_readKey {input : List UInt8} (h : input ≠ []) :
    (readKey input).2.length < input.length := by
  obtain ⟨c, input, rfl⟩ := List.exists_cons_of_ne_nil h
  by_cases h27 : c = 27
  · rw [(readKey_escape h27 input).2, List.length_drop, List.length_cons]
    omega
  · simp [readKey_byte h27]

/-! ## One turn -/

variable {st st₀ : State} {e : Edit} {input : List UInt8}

/-- A turn reads one key, and Enter is the one that ends the loop. -/
theorem turn_editing {c : Call} (h : (Call.editing st e input).turn = some c) :
    ((readKey input).1 = .enter ∧ ∃ st' line, c = .returned st' line (readKey input).2) ∨
      ((readKey input).1 ≠ .enter ∧ ∃ st' e', c = .editing st' e' (readKey input).2) := by
  unfold Call.turn loopBody at h
  unfold readKey
  simp only at h ⊢
  by_cases h27 : (getchar input).1 = 27
  · rw [if_pos h27.symm] at h
    rw [if_pos h27]
    obtain ⟨r, hr, h⟩ := Option.bind_eq_some_iff.1 h
    obtain ⟨a, -, rfl⟩ := Option.map_eq_some_iff.1 hr
    obtain rfl := Option.some.inj h
    exact Or.inr ⟨Key.ofEscape_ne_enter _, _, _, rfl⟩
  rw [if_neg (Ne.symm h27)] at h
  rw [if_neg h27]
  by_cases h10 : (getchar input).1 = 10
  · rw [if_pos h10.symm] at h
    simp only [Option.bind_eq_bind, Option.bind_some] at h
    obtain ⟨r, -, h⟩ := Option.bind_eq_some_iff.1 h
    obtain rfl := Option.some.inj h
    exact Or.inl ⟨Key.ofByte_eq_enter.2 h10, _, _, rfl⟩
  · rw [if_neg (Ne.symm h10)] at h
    obtain ⟨r, hr, h⟩ := Option.bind_eq_some_iff.1 h
    obtain ⟨a, -, rfl⟩ := Option.map_eq_some_iff.1 hr
    obtain rfl := Option.some.inj h
    exact Or.inr ⟨Key.ofByte_ne_enter h10, _, _, rfl⟩

/-! ## Every turn goes through -/

/-- The first byte of a slot can be written, and so can the byte behind the last slot. -/
theorem store_slot {mem : CObject} (hsize : H * N < mem.bytes.length) {k : ℤ} (h0 : 0 ≤ k)
    (hk : k ≤ H) : ∃ mem', mem.store (slot k) 0 = some mem' := by
  obtain ⟨m, rfl⟩ := Int.eq_ofNat_of_zero_le h0
  have hle := Nat.mul_le_mul_right N (show m ≤ H by omega)
  exact ⟨_, by rw [slot, ← Nat.cast_mul]; exact store_eq (lt_of_le_of_lt hle hsize) 0⟩

/-- What is behind the loop goes through, however long the line is. -/
theorem EditingIn.commit_isSome {cap : ℕ} {front : List UInt8} (h : EditingIn cap front st e) :
    (commit st).isSome = true := by
  obtain ⟨rest, t, hcell⟩ := h.line
  obtain ⟨mem, hmem, hlen, hsize⟩ := hcell.lineIs.strtrim
  have hpos := h.pos
  obtain ⟨mem', hmem'⟩ := store_slot (hsize ▸ h.size)
    (k := if (H : ℤ) > st.n + 1 then st.n + 1 else H) (by split_ifs <;> omega)
    (by split_ifs <;> omega)
  unfold commit
  simp only [hmem, hlen, hmem', Option.bind_eq_bind, Option.bind_some]
  split_ifs <;> simp

/-- Behind the slot that is edited there is a byte for the terminator of a line that needs it. -/
theorem Editing.one_more (h : Editing st e) : ∃ front, EditingIn (N + 1) front st e := by
  obtain ⟨front, rest, t, m, hline, hm, hlt, hlen, -, hfront⟩ := h.slot_line
  have hsize := h.size
  have hle := slot_le_of_lt hlt
  have hshort := hline.short
  rw [hline.bytes] at hsize
  simp only [List.length_append, List.length_cons] at hsize
  rw [Nat.succ_mul] at hle
  refine ⟨front, ⟨rest, t, hline.bytes, hline.buf, hline.i, hline.n, hline.nul, by omega, by omega⟩,
    fun k hk => hfront k (by omega), h.newest, h.pos, h.lt, h.size, h.shown, fun a ha => ?_⟩
  have := h.written a ha
  omega

/-- Where a call is that has come this far. -/
def Call.Inv : Call → Prop
  | .editing st e _ => ∃ front, EditingIn (N + 1) front st e
  | .returned _ _ _ => True

theorem Call.Inv.turn {c : Call} (h : c.Inv) : ∃ c', c.turn = some c' ∧ c'.Inv := by
  cases c with
  | returned st line input => exact ⟨_, rfl, trivial⟩
  | editing st e input =>
      obtain ⟨front, hedit⟩ := h
      obtain ⟨⟨⟨st', e'⟩, input'⟩, hr, hgo, -, hend⟩ :=
        hedit.loopBody (Nat.le_succ N)
          (fun _ : Line.Overfull e (getchar input).1 => Nat.lt_succ_self N)
      unfold Call.turn
      simp only [hr, Option.bind_eq_bind, Option.bind_some]
      cases e' with
      | some e' => exact ⟨.editing st' e' input', rfl, front, hgo e' rfl⟩
      | none =>
          obtain rfl : st' = st := hend rfl
          obtain ⟨c, hc⟩ := Option.isSome_iff_exists.1 hedit.commit_isSome
          simp only [hc, Option.bind_some]
          exact ⟨.returned c.1 c.2 input', rfl, trivial⟩

/-- A call makes turn after turn. -/
theorem Tidy.readLine (h : Tidy st) (hn : st.n < H) (input : List UInt8) (k : ℕ) :
    ∃ c, readLine st input k = some c ∧ c.Inv := by
  induction k with
  | zero =>
      obtain ⟨r, hr, hedit⟩ := h.enter hn
      exact ⟨.editing r.1 r.2 input, by rw [Shell.readLine, hr]; rfl, hedit.one_more⟩
  | succ k ih =>
      obtain ⟨c, hc, hinv⟩ := ih
      obtain ⟨c', hc', hinv'⟩ := hinv.turn
      exact ⟨c', by rw [Shell.readLine, hc]; exact hc', hinv'⟩

/-! ## The run -/

/-- Without an Enter the call is at the top of its loop after every turn, and what is still to be
    typed is without an Enter, too. -/
theorem readLine_editing (henter : entersLine 0 input = false) {k : ℕ} {c : Call}
    (h : readLine st₀ input k = some c) :
    ∃ st e rest, c = .editing st e rest ∧ entersLine 0 rest = false := by
  induction k generalizing c with
  | zero =>
      obtain ⟨r, -, h⟩ := Option.bind_eq_some_iff.1 h
      exact ⟨_, _, _, (Option.some.inj h).symm, henter⟩
  | succ k ih =>
      obtain ⟨c', hc', h⟩ := Option.bind_eq_some_iff.1 h
      obtain ⟨st, e, rest, rfl, hrest⟩ := ih hc'
      have hiff := entersLine_iff rest
      rcases turn_editing h with ⟨hkey, -⟩ | ⟨-, st', e', rfl⟩
      · simp [hrest, hkey] at hiff
      · refine ⟨st', e', _, rfl, ?_⟩
        by_cases hnil : rest = []
        · rw [hnil, readKey_nil]
          rfl
        · rw [hrest] at hiff
          simp only [hnil, ne_eq, not_false_eq_true, true_and, Bool.false_eq_true, false_iff,
            not_or] at hiff
          exact Bool.eq_false_iff.2 hiff.2

/-- With an Enter still to come the call returns: each turn takes a byte at least. -/
theorem readLine_returns (hrun : ∀ k, ∃ c, readLine st₀ input k = some c) {k : ℕ}
    {rest : List UInt8} (h : readLine st₀ input k = some (.editing st e rest))
    (henter : entersLine 0 rest = true) : Returns st₀ input := by
  induction hlen : rest.length using Nat.strong_induction_on generalizing k st e rest with
  | _ len ih =>
      obtain ⟨c, hc⟩ := hrun (k + 1)
      have hturn : (Call.editing st e rest).turn = some c := by
        rw [readLine, h] at hc
        exact hc
      rcases turn_editing hturn with ⟨-, st', line, rfl⟩ | ⟨hkey, st', e', rfl⟩
      · exact ⟨k + 1, st', line, _, hc⟩
      · obtain ⟨hne, hrest⟩ := ((entersLine_iff rest).1 henter).resolve_left hkey
        have hlt := length_readKey hne
        exact ih _ (by omega) hc hrest rfl

/-- **When `read_line` returns**: exactly when a newline is typed that is not one of the two bytes
    behind an escape. -/
theorem returns_iff_entersLine (h : Tidy st) (hn : st.n < H) :
    Returns st input ↔ entersLine 0 input = true := by
  constructor
  · intro hret
    obtain ⟨k, st', line, rest, hk⟩ := hret
    by_contra henter
    obtain ⟨st'', e, rest', hc, -⟩ := readLine_editing (Bool.eq_false_iff.2 henter) hk
    simp at hc
  · intro henter
    obtain ⟨r, hr, -⟩ := h.enter hn
    have hstart : readLine st input 0 = some (.editing r.1 r.2 input) := by
      rw [readLine, hr]
      rfl
    refine readLine_returns (fun k => ?_) hstart henter
    obtain ⟨c, hc, -⟩ := h.readLine hn input k
    exact ⟨c, hc⟩

theorem returns_iff_entersLine_zero :
    Tidy (State.zero (List.replicate 60 0)) ∧
      (Returns (State.zero (List.replicate 60 0)) [97, 10] ↔ entersLine 0 [97, 10] = true) := by
  have h := started_zero (show List.replicate 60 (0 : UInt8) ≠ [] by decide) []
  exact ⟨h.tidy, returns_iff_entersLine h.tidy h.lt⟩

/-- The input ends behind the first character of a line. -/
theorem open_line_not_returns : ¬ Returns (State.zero (List.replicate 60 0)) [97] := by
  intro h
  obtain ⟨k, st', line, rest, hk⟩ := h
  obtain ⟨st, e, rest', hc, -⟩ := readLine_editing (by decide) hk
  simp at hc

end CS238P.Shell
