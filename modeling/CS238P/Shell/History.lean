import CS238P.Shell.InSlot

set_option autoImplicit false

/-! # What the history holds

A slot of the history is written while its line is edited and then once more, by the callback, which
has the line itself. So each slot holds what the callback has left of its line. -/

namespace CS238P.Shell

open CObject

/-- A run of `shell` in which each step is a guarded one, with the lines that were entered, trimmed,
    in order. -/
inductive Entered (fnc : Fnc) (sh₀ : Session) : List (List UInt8) → Session → Prop
  | start : Entered fnc sh₀ [] sh₀
  | step {lines : List (List UInt8)} {sh sh' : Session} (h : Entered fnc sh₀ lines sh)
      (hg : Guarded sh) (hs : step fnc sh = some sh') (hpt : sh'.point ≠ .calling) :
      Entered fnc sh₀ lines sh'
  | line {lines : List (List UInt8)} {sh sh' : Session} {s : List UInt8}
      (h : Entered fnc sh₀ lines sh) (hg : Guarded sh) (hs : step fnc sh = some sh')
      (hpt : sh'.point = .calling) (hline : LineIs sh.state s) :
      Entered fnc sh₀ (lines ++ [trim s]) sh'

/-- What the callback leaves of the string `s` in its `k`th call. -/
def Fnc.leaves (fnc : Fnc) (k : ℕ) (s : List UInt8) : List UInt8 :=
  (Bytes.overwrite s ((fnc k s).2.take s.length)).takeWhile (· ≠ 0)

/-- The slots hold what the callback has left of these lines. -/
def Remembers (fnc : Fnc) (lines : List (List UInt8)) (bytes : List UInt8) : Prop :=
  ∀ k s, lines[k]? = some s → entry bytes k = fnc.leaves k s

/-- What holds at the points of a run in which these lines were entered. The last one is in its slot
    when the callback is about to have it. -/
def Logged (fnc : Fnc) (lines : List (List UInt8)) (sh : Session) : Prop :=
  match sh.point with
  | .editing e => (∃ front, EditingIn N front sh.state e ∧ Remembers fnc lines front) ∧
      sh.state.n = lines.length ∧ sh.calls = lines.length
  | .calling => ∃ init s, lines = init ++ [s] ∧ Tidy sh.state ∧ sh.state.i = init.length ∧
      sh.state.n = init.length + 1 ∧ sh.calls = init.length ∧
      Remembers fnc init sh.state.mem.bytes ∧ entry sh.state.mem.bytes init.length = s ∧
      init.length < H
  | _ => (Tidy sh.state ∧ Remembers fnc lines sh.state.mem.bytes) ∧
      sh.state.n = lines.length ∧ sh.calls = lines.length

variable {fnc : Fnc} {lines : List (List UInt8)} {bytes front l r s : List UInt8} {sh sh' : Session}
  {st : State} {e : Edit}

/-! ## Slots -/

theorem Remembers.append (h : Remembers fnc lines front) (hlen : lines.length * N ≤ front.length)
    (r : List UInt8) : Remembers fnc lines (front ++ r) := by
  intro k s hk
  have hlt : k < lines.length := (List.getElem?_eq_some_iff.1 hk).1
  rw [entry_append (le_trans (Nat.mul_le_mul_right N hlt) hlen), h k s hk]

theorem Remembers.of_append (h : Remembers fnc lines (front ++ r))
    (hlen : lines.length * N ≤ front.length) : Remembers fnc lines front := by
  intro k s hk
  have hlt : k < lines.length := (List.getElem?_eq_some_iff.1 hk).1
  rw [← h k s hk, entry_append (le_trans (Nat.mul_le_mul_right N hlt) hlen)]

theorem Remembers.concat (h : Remembers fnc lines bytes)
    (hs : entry bytes lines.length = fnc.leaves lines.length s) :
    Remembers fnc (lines ++ [s]) bytes := by
  intro k t hk
  rcases Nat.lt_trichotomy k lines.length with hlt | rfl | hgt
  · rw [List.getElem?_append_left hlt] at hk
    exact h k t hk
  · rw [List.getElem?_concat_length] at hk
    rw [← Option.some.inj hk, hs]
  · rw [List.getElem?_eq_none (by simp; omega)] at hk
    exact absurd hk (by simp)

/-- The slot that is edited lies behind those of the lines. -/
theorem EditingIn.length_front {cap m : ℕ} (h : EditingIn cap front st e) (hn : st.n = m) :
    front.length = m * N := by
  obtain ⟨rest, t, hcell⟩ := h.line
  have hbuf := hcell.buf
  rw [State.buf, h.newest, slot, hn] at hbuf
  exact_mod_cast hbuf.symm

theorem State.length_front {m : ℕ} (h : Tidy st) (hn : st.n = m) :
    st.front.length = m * N := by
  have hsize := h.size
  have hle := h.le
  have hfit := Nat.mul_le_mul_right N (show m ≤ H by omega)
  rw [State.front, hn, slot, ← Nat.cast_mul, Int.toNat_natCast, List.length_take]
  omega

/-! ## Steps -/

/-- `read_line` starts. -/
theorem Logged.enter (h : Tidy st) (hlt : st.n < H) (hn : st.n = lines.length)
    (hr : Remembers fnc lines st.mem.bytes) :
    ∃ r, Shell.enter st = some r ∧ EditingIn N st.front r.1 r.2 ∧ Remembers fnc lines st.front ∧
      r.1.n = lines.length := by
  obtain ⟨r, henter, hedit, hrn⟩ := h.enter_in hlt
  refine ⟨r, henter, hedit, ?_, hrn.trans hn⟩
  have hsplit : st.mem.bytes = st.front ++ st.mem.bytes.drop (slot st.n).toNat :=
    (List.take_append_drop _ _).symm
  rw [hsplit] at hr
  exact hr.of_append (State.length_front h hn).ge

/-- Enter on a blank line. -/
theorem EditingIn.commit_blank (h : EditingIn N front st e) (hs : LineIs st s)
    (hblank : trim s = []) {m : ℕ} (hn : st.n = m) (hr : Remembers fnc lines front)
    (hm : lines.length = m) :
    ∃ mem, commit st = some ⟨{ st with mem := mem }, false⟩ ∧ Tidy { st with mem := mem } ∧
      Remembers fnc lines mem.bytes := by
  obtain ⟨rest, t, hcell⟩ := h.line
  obtain rfl := hs.unique hcell.lineIs
  obtain ⟨mem, r, hc, hb, -⟩ := hcell.line.commit_blank hblank
  obtain ⟨mem', hc', htidy⟩ := (editing_iff.2 ⟨front, h⟩).commit_blank hs hblank
  have hmem : mem = mem' := by
    rw [hc] at hc'
    simpa using hc'
  subst hmem
  exact ⟨mem, hc, htidy, by rw [hb]; exact hr.append (by rw [h.length_front hn, hm]) _⟩

/-- Enter on any other line, which is then in its slot. -/
theorem EditingIn.commit_line (h : EditingIn N front st e) (hs : LineIs st s)
    (hline : trim s ≠ []) {m : ℕ} (hn : st.n = m) (hr : Remembers fnc lines front)
    (hm : lines.length = m) :
    ∃ r, commit st = some r ∧ r.2 = true ∧ Tidy r.1 ∧ r.1.i = m ∧ r.1.n = m + 1 ∧
      Remembers fnc lines r.1.mem.bytes ∧ entry r.1.mem.bytes m = trim s := by
  obtain ⟨rest, t, hcell⟩ := h.line
  obtain rfl := hs.unique hcell.lineIs
  have hlt := h.lt
  have hlen := h.length_front hn
  obtain ⟨mem, r, hc, hb, -, -⟩ := hcell.line.commit_line hline (h.newest.trans hn) hn (by omega)
    h.size
  obtain ⟨c, hc', hret, htidy, hi, hcn, -⟩ :=
    (editing_iff.2 ⟨front, h⟩).commit_line hs hline
  have hshort := length_trim_le (t.before ++ t.after)
  have hroom := hcell.short
  rw [hc] at hc'
  obtain rfl := Option.some.inj hc'
  rw [List.length_append] at hshort
  refine ⟨_, hc, rfl, htidy, h.newest.trans hn, by rw [hcn, hn], ?_, ?_⟩
  · rw [hb]
    exact hr.append (by rw [hlen, hm]) _
  · have hnul : (0 : UInt8) ∉ trim (t.before ++ t.after) :=
      fun hmem => hcell.nul (mem_of_mem_trim hmem)
    rw [hb, entry_mid hlen (by omega), takeWhile_of_not_mem hnul]

/-- The callback writes over its line alone. -/
theorem Logged.call (h : Tidy st) {m : ℕ} (hi : st.i = m) (hn : st.n = m + 1) (hm : m < H)
    (hr : Remembers fnc lines st.mem.bytes) (hlen : lines.length = m)
    (hs : entry st.mem.bytes m = s) :
    ∃ mem, st.mem.strlen st.buf = some s.length ∧ st.mem.read st.buf s.length = some s ∧
      st.mem.write st.buf (Bytes.overwrite s ((fnc m s).2.take s.length)) = some mem ∧
      Tidy { st with mem := mem } ∧ Remembers fnc (lines ++ [s]) mem.bytes := by
  have hover : (Bytes.overwrite s ((fnc m s).2.take s.length)).length = s.length :=
    Bytes.length_overwrite (by rw [List.length_take]; omega)
  obtain ⟨l, r, mem, hsplit, hl, hshort, hstr, hread, hwrite, hbytes, htidy⟩ :=
    h.overwrite hi hm (by omega) hs hover
  refine ⟨mem, hstr, hread, hwrite, htidy, ?_⟩
  rw [hbytes]
  refine Remembers.concat ?_ ?_
  · rw [hsplit] at hr
    exact (hr.of_append (by rw [hl, hlen])).append (by rw [hl, hlen]) _
  · rw [hlen]
    exact entry_mid hl (by rw [hover]; exact hshort)

/-- A step logs a line exactly when it is entered. -/
theorem Logged.step (h : Logged fnc lines sh) (hg : Guarded sh)
    (hs : Shell.step fnc sh = some sh') :
    (sh'.point ≠ .calling ∧ Logged fnc lines sh') ∨
      (sh'.point = .calling ∧ ∀ s, LineIs sh.state s → Logged fnc (lines ++ [trim s]) sh') := by
  obtain ⟨st, input, calls, point⟩ := sh
  cases point with
  | reading =>
      obtain ⟨⟨htidy, hr⟩, hn, hcalls⟩ := h
      obtain ⟨r, henter, hedit, hr', hrn⟩ := Logged.enter htidy hg hn hr
      unfold Shell.step at hs
      simp only [henter, Option.bind_eq_bind, Option.bind_some] at hs
      obtain rfl := Option.some.inj hs
      exact Or.inl ⟨by simp, ⟨_, hedit, hr'⟩, hrn, hcalls⟩
  | editing e =>
      obtain ⟨⟨front, hedit, hr⟩, hn, hcalls⟩ := h
      have hover : ¬ Line.Overfull e (getchar input).1 := hg
      obtain ⟨⟨⟨st', e'⟩, input'⟩, hb, hgo, hn', hend⟩ :=
        hedit.loopBody le_rfl (fun h => absurd h hover)
      unfold Shell.step at hs
      simp only [hb, Option.bind_eq_bind, Option.bind_some] at hs
      cases e' with
      | some e' =>
          obtain rfl := Option.some.inj hs
          exact Or.inl ⟨by simp, ⟨front, hgo e' rfl, hr⟩, hn'.trans hn, hcalls⟩
      | none =>
          obtain rfl : st' = st := hend rfl
          obtain ⟨rest, t, hcell⟩ := hedit.line
          have hline := hcell.lineIs
          by_cases hblank : trim (t.before ++ t.after) = []
          · obtain ⟨mem, hc, htidy, hr'⟩ := hedit.commit_blank hline hblank hn hr rfl
            simp only [hc, Option.bind_some] at hs
            obtain rfl := Option.some.inj hs
            exact Or.inl ⟨by simp, ⟨htidy, hr'⟩, hn, hcalls⟩
          · obtain ⟨c, hc, hret, htidy, hi, hcn, hr', hentry⟩ :=
              hedit.commit_line hline hblank hn hr rfl
            simp only [hc, hret, Option.bind_some] at hs
            obtain rfl := Option.some.inj hs
            refine Or.inr ⟨rfl, fun s hs => ?_⟩
            obtain rfl := hs.unique hline
            have hlt := hedit.lt
            exact ⟨lines, _, rfl, htidy, hi, hcn, hcalls, hr', hentry, by omega⟩
  | calling =>
      obtain ⟨init, s, rfl, htidy, hi, hn, rfl, hr, hentry, hlt⟩ := h
      obtain ⟨mem, hlen, hread, hwrite, htidy', hr'⟩ := Logged.call htidy hi hn hlt hr rfl hentry
      unfold Shell.step at hs
      simp only [hlen, hread, hwrite, Option.bind_eq_bind, Option.bind_some] at hs
      obtain rfl := Option.some.inj hs
      have hcount : st.n = ((init ++ [s]).length : ℤ) := by
        rw [List.length_append, List.length_singleton, hn, Nat.cast_add, Nat.cast_one]
      left
      by_cases hret : (fnc init.length s).1 ≠ 0
      · simp only [if_pos hret]
        exact ⟨by simp, ⟨htidy', hr'⟩, hcount, by simp⟩
      · simp only [if_neg hret]
        exact ⟨by simp, ⟨htidy', hr'⟩, hcount, by simp⟩
  | returned =>
      obtain rfl := Option.some.inj hs
      exact Or.inl ⟨by simp, h⟩

/-- **What the history holds after a run.** -/
theorem Entered.logged {sh₀ : Session} (hr : Entered fnc sh₀ lines sh) (h₀ : Started sh₀)
    (hn : sh₀.state.n = 0) (hcalls : sh₀.calls = 0) : Logged fnc lines sh := by
  induction hr with
  | start =>
      unfold Logged
      rw [h₀.point]
      exact ⟨⟨h₀.tidy, fun k s hk => absurd hk (by simp)⟩, hn, hcalls⟩
  | step hr hg hs hpt ih => exact ((ih.step hg hs).resolve_right fun h => hpt h.1).2
  | line hr hg hs hpt hline ih => exact ((ih.step hg hs).resolve_left fun h => h.1 hpt).2 _ hline

/-- The lines are trimmed strings. -/
theorem Entered.trimmed {sh₀ : Session} (hr : Entered fnc sh₀ lines sh) :
    ∀ s ∈ lines, (0 : UInt8) ∉ s ∧ trim s = s := by
  induction hr with
  | start => simp
  | step hr hg hs hpt ih => exact ih
  | line hr hg hs hpt hline ih =>
      obtain ⟨l, r, -, -, hnul⟩ := hline
      intro s hs
      rcases List.mem_append.1 hs with hs | hs
      · exact ih s hs
      · rw [List.mem_singleton.1 hs]
        exact ⟨fun hm => hnul (mem_of_mem_trim hm), trim_trim _⟩

/-- The up key shows what is in the slot. -/
theorem EditingIn.recall {cap k : ℕ} (h : EditingIn cap front st e) (hcap : N ≤ cap)
    (hk : (k : ℤ) < st.n) :
    ∃ r, Shell.recallSlot st k = some r ∧ LineIs r.1 (entry front k) := by
  obtain ⟨rest, t, hcell⟩ := h.line
  have hnewest := h.newest
  obtain ⟨t', ht', st', e', rest', hr, hcell', -⟩ := hcell.show_slot hcap (Or.inl (h.slots k hk))
  rw [if_neg (by omega)] at ht'
  subst ht'
  have hline := hcell'.lineIs
  rw [Text.shown, List.append_nil] at hline
  exact ⟨_, hr, hline⟩

/-- After a call of the callback, each line that was entered is in its slot as the callback has left
    it, and the up key shows it so. -/
theorem Logged.slots (h : Logged fnc lines sh) (hpt : sh.point ≠ .calling) {k : ℕ}
    (hk : lines[k]? = some s) :
    Terminated sh.state.mem.bytes k ∧ entry sh.state.mem.bytes k = fnc.leaves k s ∧
      ∀ e, sh.point = .editing e →
        ∃ r, Shell.recallSlot sh.state k = some r ∧ LineIs r.1 (fnc.leaves k s) := by
  obtain ⟨st, input, calls, point⟩ := sh
  have hlt : k < lines.length := (List.getElem?_eq_some_iff.1 hk).1
  have hbetween (htidy : Tidy st) (hr : Remembers fnc lines st.mem.bytes)
      (hn : st.n = lines.length) :
      Terminated st.mem.bytes k ∧ entry st.mem.bytes k = fnc.leaves k s := by
    have hle := htidy.le
    exact ⟨htidy.slots k (by omega) (by omega), hr k s hk⟩
  cases point with
  | reading =>
      obtain ⟨⟨htidy, hr⟩, hn, -⟩ := h
      obtain ⟨hterm, hentry⟩ := hbetween htidy hr hn
      exact ⟨hterm, hentry, fun e he => absurd he (by simp)⟩
  | editing e =>
      obtain ⟨⟨front, hedit, hr⟩, (hn : st.n = _), -⟩ := h
      obtain ⟨rest, t, hcell⟩ := hedit.line
      have hfit : (k + 1) * N ≤ front.length := by
        rw [hedit.length_front hn]
        exact Nat.mul_le_mul_right N hlt
      have hbytes : st.mem.bytes = _ := hcell.bytes
      have hkn : (k : ℤ) < st.n := by omega
      simp only
      rw [hbytes, terminated_append hfit, entry_append hfit, ← hr k s hk]
      exact ⟨hedit.slots k hkn, rfl, fun e' _ => hedit.recall le_rfl hkn⟩
  | calling => exact absurd rfl hpt
  | returned =>
      obtain ⟨⟨htidy, hr⟩, hn, -⟩ := h
      obtain ⟨hterm, hentry⟩ := hbetween htidy hr hn
      exact ⟨hterm, hentry, fun e he => absurd he (by simp)⟩

/-! ## Lines can be entered -/

/-- Characters that can be printed are typed, one after the other. -/
theorem Entered.type {sh₀ : Session} {cs input : List UInt8} (hr : Entered fnc sh₀ lines sh)
    (h : AtEnd sh s e) (hin : sh.input = cs ++ input) (hcs : ∀ c ∈ cs, isprint c.toNat = true)
    (hlen : s.length + cs.length < N) :
    ∃ sh' e', Entered fnc sh₀ lines sh' ∧ sh'.input = input ∧ AtEnd sh' (s ++ cs) e' := by
  induction cs generalizing s sh e with
  | nil => exact ⟨sh, e, hr, hin, by simpa using h⟩
  | cons c cs ih =>
      rw [List.length_cons] at hlen
      obtain ⟨sh', e', hs, hin', -, h'⟩ :=
        h.type hin (hcs c (List.mem_cons_self ..)) (by omega) fnc
      have hg : Guarded sh := by
        obtain ⟨front, rest, hline, -⟩ := h.line
        have hn := hline.n
        rw [List.length_nil, Nat.cast_zero, add_zero] at hn
        unfold Guarded
        rw [h.point]
        intro hover
        have := hover.2
        omega
      have hpt : sh'.point ≠ .calling := by simp [h'.point]
      obtain ⟨sh'', e'', hr'', hin'', h''⟩ := ih (hr.step hg hs hpt) h' hin'
        (fun c hc => hcs c (List.mem_cons_of_mem _ hc)) (by simp; omega)
      exact ⟨sh'', e'', hr'', hin'', by simpa using h''⟩

/-- Every line that fits can be entered, and the callback has it. -/
theorem Entered.enter {sh₀ : Session} {cs input : List UInt8} (hr : Entered fnc sh₀ lines sh)
    (h : AtStart sh) (hn : sh.state.n < H) (hin : sh.input = cs ++ 10 :: input)
    (hcs : ∀ c ∈ cs, isprint c.toNat = true) (hlen : cs.length < N) (hline : trim cs ≠ []) :
    ∃ sh', Entered fnc sh₀ (lines ++ [trim cs]) sh' ∧ sh'.point ≠ .calling := by
  have hg : Guarded sh := by
    unfold Guarded
    rw [h.point]
    exact hn
  obtain ⟨sh₁, e₁, hs₁, hin₁, -, h₁⟩ := h.enter hn fnc
  have hr₁ := hr.step hg hs₁ (by simp [h₁.point])
  obtain ⟨sh₂, e₂, hr₂, hin₂, h₂⟩ := hr₁.type h₁ (hin₁.trans hin) hcs (by simpa using hlen)
  rw [List.nil_append] at h₂
  obtain ⟨st, hs, htidy, hi, hn', hlt, -⟩ := h₂.enter hin₂ hline fnc
  have hg₂ : Guarded sh₂ := by
    unfold Guarded
    rw [h₂.point, hin₂]
    intro hover
    rcases hover.1 with h32 | h9
    · exact absurd h32 (by simp [getchar])
    · exact absurd h9 (by simp [getchar])
  have hpos := h₂.editing.pos
  obtain ⟨len, t, mem, hstr, hread, hwrite, -, -⟩ :=
    htidy.call (by omega) (fun t => (fnc sh₂.calls t).2)
  obtain ⟨sh₃, hs₃, hpt⟩ : ∃ sh₃, Shell.step fnc ⟨st, input, sh₂.calls, .calling⟩ = some sh₃ ∧
      sh₃.point ≠ .calling := by
    unfold Shell.step
    simp only [hstr, hread, hwrite, Option.bind_eq_bind, Option.bind_some]
    refine ⟨_, rfl, ?_⟩
    simp only
    split_ifs <;> simp
  exact ⟨sh₃, (hr₂.line hg₂ hs rfl h₂.lineIs).step trivial hs₃ hpt, hpt⟩

end CS238P.Shell
