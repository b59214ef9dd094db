import CS238P.Shell.InSlot

set_option autoImplicit false

/-! # The indices used into the history

The slot that is edited, the slots the up and down keys show and the slot that is cleared when a
line was entered are slots of the history until the `H`th line is entered: then `state.n` is set to
`H`, one more than the last slot, and that slot is cleared. Nothing here looks at what the slots
hold, so that it is also said of the runs in which a line has left its slot. -/

namespace CS238P.Shell

open CObject

/-- Every index used so far is that of a slot. -/
def InRange (sh : Session) : Prop := ∀ k ∈ sh.state.indices, 0 ≤ k ∧ k < H

/-- When Enter is pressed on a line that is not blank, there is a slot left for the next line. -/
def Spare (sh : Session) : Prop :=
  ∀ e, sh.point = .editing e → (getchar sh.input).1 = 10 →
    ∀ s, LineIs sh.state s → trim s ≠ [] → sh.state.n + 1 < H

/-! ## What the keys leave alone -/

variable {st : State} {e : Edit} {r : State × Edit}

/-- What no key other than up and down changes. -/
structure Frame (st : State) (e : Edit) (r : State × Edit) : Prop where
  i : r.1.i = st.i
  n : r.1.n = st.n
  j : r.2.j = e.j
  indices : r.1.indices = st.indices
  size : r.1.mem.bytes.length = st.mem.bytes.length

theorem Frame.refl (st : State) (e : Edit) : Frame st e (st, e) := ⟨rfl, rfl, rfl, rfl, rfl⟩

theorem kill_frame (h : kill st e = some r) : Frame st e r := by
  obtain ⟨mem, hmem, h⟩ := Option.bind_eq_some_iff.1 h
  obtain ⟨n, -, h⟩ := Option.bind_eq_some_iff.1 h
  obtain rfl := Option.some.inj h
  exact ⟨rfl, rfl, rfl, rfl, length_write hmem⟩

theorem delete_frame (h : delete st e = some r) : Frame st e r := by
  unfold delete at h
  split_ifs at h with hlt
  · obtain ⟨len, -, h⟩ := Option.bind_eq_some_iff.1 h
    obtain ⟨mem, hmem, h⟩ := Option.bind_eq_some_iff.1 h
    obtain rfl := Option.some.inj h
    exact ⟨rfl, rfl, rfl, rfl, length_memmove hmem⟩
  · obtain rfl := Option.some.inj h
    exact Frame.refl st e

theorem backspace_frame (h : backspace st e = some r) : Frame st e r := by
  unfold backspace at h
  split_ifs at h with hlt
  · obtain ⟨len, -, h⟩ := Option.bind_eq_some_iff.1 h
    obtain ⟨mem, hmem, h⟩ := Option.bind_eq_some_iff.1 h
    obtain rfl := Option.some.inj h
    exact ⟨rfl, rfl, rfl, rfl, length_memmove hmem⟩
  · obtain rfl := Option.some.inj h
    exact Frame.refl st e

theorem insertSpace_frame (h : insertSpace st e = some r) : Frame st e r := by
  unfold insertSpace at h
  split_ifs at h with hlt
  · obtain ⟨len, -, h⟩ := Option.bind_eq_some_iff.1 h
    obtain ⟨mem, hmem, h⟩ := Option.bind_eq_some_iff.1 h
    obtain ⟨mem', hmem', h⟩ := Option.bind_eq_some_iff.1 h
    obtain rfl := Option.some.inj h
    exact ⟨rfl, rfl, rfl, rfl, (length_write hmem').trans (length_memmove hmem)⟩
  · obtain rfl := Option.some.inj h
    exact Frame.refl st e

theorem length_shift {mem : CObject} (h : shift st e = some mem) :
    mem.bytes.length = st.mem.bytes.length := by
  unfold shift at h
  split_ifs at h with hlt
  · obtain ⟨len, -, h⟩ := Option.bind_eq_some_iff.1 h
    exact length_memmove h
  · rw [Option.some.inj h]

theorem insertChar_frame {k : ℤ} (h : insertChar st e k = some r) : Frame st e r := by
  unfold insertChar at h
  split_ifs at h with hlt
  · obtain ⟨mem, hmem, h⟩ := Option.bind_eq_some_iff.1 h
    obtain ⟨mem', hmem', h⟩ := Option.bind_eq_some_iff.1 h
    obtain ⟨mem'', hmem'', h⟩ := Option.bind_eq_some_iff.1 h
    obtain rfl := Option.some.inj h
    exact ⟨rfl, rfl, rfl, rfl,
      (length_write hmem'').trans ((length_write hmem').trans (length_shift hmem))⟩
  · obtain rfl := Option.some.inj h
    exact Frame.refl st e

theorem key_frame {k : ℤ} (h : key st e k = some r) : Frame st e r := by
  unfold key at h
  split_ifs at h
  · exact kill_frame h
  · exact Option.some.inj h ▸ Frame.refl st e
  · exact delete_frame h
  · exact backspace_frame h
  · exact insertSpace_frame h
  · exact insertChar_frame h
  · exact Option.some.inj h ▸ Frame.refl st e

/-- Up and down use the index of the slot they show. -/
theorem recallSlot_frame {j : ℤ} (h : recallSlot st j = some r) :
    r.1.i = st.i ∧ r.1.n = st.n ∧ r.2.j = j ∧ r.1.indices = st.indices ++ [j] ∧
      r.1.mem.bytes.length = st.mem.bytes.length := by
  obtain ⟨mem, hmem, h⟩ := Option.bind_eq_some_iff.1 h
  obtain ⟨mem', hmem', h⟩ := Option.bind_eq_some_iff.1 h
  obtain ⟨n, -, h⟩ := Option.bind_eq_some_iff.1 h
  obtain rfl := Option.some.inj h
  refine ⟨rfl, rfl, rfl, rfl, ?_⟩
  unfold copySlot at hmem'
  split_ifs at hmem' with hne
  · exact (length_strncpy hmem').trans (length_write hmem)
  · rw [← Option.some.inj hmem']
    exact length_write hmem

/-- The history slot last shown, and the indices used, while a line is edited. -/
structure Shown (st : State) (e : Edit) : Prop where
  newest : st.i = st.n
  pos : 0 ≤ st.n
  lt : st.n < H
  shown : 0 ≤ e.j ∧ e.j ≤ st.n
  indices : ∀ k ∈ st.indices, 0 ≤ k ∧ k < H
  size : H * N < st.mem.bytes.length

theorem Shown.of_frame (h : Shown st e) (hf : Frame st e r) : Shown r.1 r.2 :=
  ⟨by rw [hf.i, hf.n, h.newest], by rw [hf.n]; exact h.pos, by rw [hf.n]; exact h.lt,
    by rw [hf.j, hf.n]; exact h.shown, by rw [hf.indices]; exact h.indices,
    by rw [hf.size]; exact h.size⟩

theorem Shown.recallSlot (h : Shown st e) {j : ℤ} (hj : 0 ≤ j ∧ j ≤ st.n)
    (hr : recallSlot st j = some r) : Shown r.1 r.2 := by
  obtain ⟨hi, hn, hjr, hindices, hsize⟩ := recallSlot_frame hr
  have hlt := h.lt
  refine ⟨by rw [hi, hn, h.newest], by rw [hn]; exact h.pos, by rw [hn]; exact hlt,
    by rw [hjr, hn]; exact hj, ?_, by rw [hsize]; exact h.size⟩
  intro k hk
  rw [hindices, List.mem_append, List.mem_singleton] at hk
  rcases hk with hk | rfl
  · exact h.indices k hk
  · omega

theorem Shown.arrow (h : Shown st e) {k : ℤ} (hr : arrow st e k = some r) : Shown r.1 r.2 := by
  have hshown := h.shown
  unfold Shell.arrow at hr
  by_cases hA : k = 65
  · rw [if_pos hA] at hr
    split_ifs at hr with hup
    · exact h.recallSlot ⟨by omega, by omega⟩ hr
    · exact Option.some.inj hr ▸ h
  by_cases hB : k = 66
  · rw [if_neg hA, if_pos hB] at hr
    split_ifs at hr with hdown
    · exact h.recallSlot ⟨by omega, by omega⟩ hr
    · exact Option.some.inj hr ▸ h
  by_cases hC : k = 67
  · rw [if_neg hA, if_neg hB, if_pos hC] at hr
    exact Option.some.inj hr ▸ h.of_frame ⟨rfl, rfl, rfl, rfl, rfl⟩
  by_cases hD : k = 68
  · rw [if_neg hA, if_neg hB, if_neg hC, if_pos hD] at hr
    exact Option.some.inj hr ▸ h.of_frame ⟨rfl, rfl, rfl, rfl, rfl⟩
  · rw [if_neg hA, if_neg hB, if_neg hC, if_neg hD] at hr
    exact Option.some.inj hr ▸ h

/-- A turn of the loop; only Enter leaves it. -/
theorem Shown.loopBody (h : Shown st e) {input : List UInt8}
    {b : (State × Option Edit) × List UInt8} (hb : loopBody st e input = some b) :
    (∀ e', b.1.2 = some e' → Shown b.1.1 e') ∧
      (b.1.2 = none → b.1.1 = st ∧ (getchar input).1 = 10) := by
  unfold Shell.loopBody at hb
  simp only at hb
  by_cases h27 : 27 = (getchar input).1
  · rw [if_pos h27] at hb
    obtain ⟨r, hr, rfl⟩ := Option.map_eq_some_iff.1 hb
    refine ⟨?_, fun hnone => absurd hnone (by simp)⟩
    intro e' he'
    obtain rfl := Option.some.inj he'
    exact h.arrow hr
  by_cases h10 : 10 = (getchar input).1
  · rw [if_neg h27, if_pos h10] at hb
    obtain rfl := Option.some.inj hb
    exact ⟨fun e' he' => absurd he' (by simp), fun _ => ⟨rfl, h10.symm⟩⟩
  · rw [if_neg h27, if_neg h10] at hb
    obtain ⟨r, hr, rfl⟩ := Option.map_eq_some_iff.1 hb
    refine ⟨?_, fun hnone => absurd hnone (by simp)⟩
    intro e' he'
    obtain rfl := Option.some.inj he'
    exact h.of_frame (key_frame hr)

/-! ## Entering and leaving -/

/-- What Enter does, in terms of the line it ends. -/
theorem commit_cases {c : State × Bool} (h : commit st = some c) :
    ∃ s, LineIs st s ∧ c.1.mem.bytes.length = st.mem.bytes.length ∧ c.1.i = st.i ∧
      (c.1.n = st.n ∧ c.1.indices = st.indices ∨
        trim s ≠ [] ∧ c.1.n = (if H > st.n + 1 then st.n + 1 else (H : ℤ)) ∧
          c.1.indices = st.indices ++ [c.1.n]) := by
  obtain ⟨mem, hmem, h⟩ := Option.bind_eq_some_iff.1 h
  obtain ⟨len, hlen, h⟩ := Option.bind_eq_some_iff.1 h
  obtain ⟨len₀, hstr, -⟩ := Option.bind_eq_some_iff.1 hmem
  obtain ⟨s, hs⟩ := exists_of_strlen hstr
  obtain ⟨mem', hmem', hlen', hsize⟩ := hs.strtrim
  rw [hmem] at hmem'
  obtain rfl := Option.some.inj hmem'
  rw [hlen] at hlen'
  obtain rfl := Option.some.inj hlen'
  refine ⟨s, hs, ?_⟩
  by_cases hempty : (trim s).length ≠ 0
  · rw [if_pos hempty] at h
    by_cases hnewest : st.i = st.n
    · rw [if_pos hnewest] at h
      obtain ⟨mem'', hmem'', h⟩ := Option.bind_eq_some_iff.1 h
      obtain rfl := Option.some.inj h
      exact ⟨(length_write hmem'').trans hsize, rfl,
        Or.inr ⟨List.ne_nil_of_length_pos (by omega), rfl, rfl⟩⟩
    · rw [if_neg hnewest] at h
      obtain rfl := Option.some.inj h
      exact ⟨hsize, rfl, Or.inl ⟨rfl, rfl⟩⟩
  · rw [if_neg hempty] at h
    obtain rfl := Option.some.inj h
    exact ⟨hsize, rfl, Or.inl ⟨rfl, rfl⟩⟩

/-- The last line that fits is entered: slot `H` is cleared. -/
theorem Shown.commit_last (h : Shown st e) {s : List UInt8} (hs : LineIs st s) (htrim : trim s ≠ [])
    (hlast : ¬ st.n + 1 < H) : ∃ c, commit st = some c ∧ (H : ℤ) ∈ c.1.indices := by
  obtain ⟨mem, hmem, hlen, hsize⟩ := hs.strtrim
  have hslot : slot (H : ℤ) = ((H * N : ℕ) : ℤ) := by
    rw [slot, Nat.cast_mul]
  have hin : H * N < mem.bytes.length := by
    rw [hsize]
    exact h.size
  unfold commit
  simp only [hmem, hlen, Option.bind_eq_bind, Option.bind_some]
  rw [if_pos (List.length_pos_of_ne_nil htrim).ne', if_pos h.newest, if_neg hlast, hslot,
    store_eq hin, Option.bind_some]
  exact ⟨_, rfl, List.mem_append_right _ (List.mem_singleton_self _)⟩

/-! ## Runs -/

/-- What holds of the indices at the points of a run. -/
def Session.Ranged (sh : Session) : Prop :=
  match sh.point with
  | .editing e => Shown sh.state e
  | _ => 0 ≤ sh.state.n ∧ sh.state.n < H ∧ InRange sh ∧ H * N < sh.state.mem.bytes.length

theorem Session.Ranged.inRange {sh : Session} (h : sh.Ranged) : InRange sh := by
  unfold Session.Ranged at h
  cases hpt : sh.point with
  | editing e =>
      rw [hpt] at h
      exact h.indices
  | reading =>
      rw [hpt] at h
      exact h.2.2.1
  | calling =>
      rw [hpt] at h
      exact h.2.2.1
  | returned =>
      rw [hpt] at h
      exact h.2.2.1

theorem Session.Ranged.step {fnc : Fnc} {sh sh' : Session} (h : sh.Ranged) (hspare : Spare sh)
    (hs : step fnc sh = some sh') : sh'.Ranged := by
  obtain ⟨st, input, calls, point⟩ := sh
  cases point with
  | reading =>
      obtain ⟨hpos, hlt, hin, hsize⟩ : 0 ≤ st.n ∧ st.n < H ∧ (∀ k ∈ st.indices, 0 ≤ k ∧ k < H) ∧
        H * N < st.mem.bytes.length := h
      obtain ⟨r, hr, hs⟩ := Option.bind_eq_some_iff.1 hs
      obtain ⟨len, -, hr⟩ := Option.bind_eq_some_iff.1 hr
      obtain rfl := Option.some.inj hr
      obtain rfl := Option.some.inj hs
      refine ⟨rfl, hpos, hlt, ⟨hpos, le_rfl⟩, ?_, hsize⟩
      intro k hk
      simp only [List.mem_append, List.mem_singleton] at hk
      rcases hk with hk | rfl
      · exact hin k hk
      · exact ⟨hpos, hlt⟩
  | editing e =>
      have hshown : Shown st e := h
      obtain ⟨⟨⟨st', e'⟩, input'⟩, hb, hs⟩ := Option.bind_eq_some_iff.1 hs
      obtain ⟨hgo, hend⟩ := hshown.loopBody hb
      cases e' with
      | some e' =>
          obtain rfl := Option.some.inj hs
          exact hgo e' rfl
      | none =>
          obtain ⟨rfl, h10⟩ : st' = st ∧ _ := hend rfl
          obtain ⟨c, (hc : commit st' = some c), hs⟩ := Option.bind_eq_some_iff.1 hs
          obtain rfl := Option.some.inj hs
          obtain ⟨s, hline, hsize, -, hcases⟩ := commit_cases hc
          have hrange : 0 ≤ c.1.n ∧ c.1.n < H ∧ (∀ k ∈ c.1.indices, 0 ≤ k ∧ k < H) ∧
              H * N < c.1.mem.bytes.length := by
            have hpos := hshown.pos
            rcases hcases with ⟨hn, hindices⟩ | ⟨htrim, hn, hindices⟩
            · rw [hn, hindices, hsize]
              exact ⟨hpos, hshown.lt, hshown.indices, hshown.size⟩
            · have hlt : st'.n + 1 < H := hspare e rfl h10 s hline htrim
              rw [if_pos hlt] at hn
              rw [hindices, hsize]
              refine ⟨by omega, by omega, ?_, hshown.size⟩
              intro k hk
              rw [List.mem_append, List.mem_singleton] at hk
              rcases hk with hk | rfl
              · exact hshown.indices k hk
              · omega
          cases hline : c.2 <;> exact hrange
  | calling =>
      obtain ⟨len, -, hs⟩ := Option.bind_eq_some_iff.1 hs
      obtain ⟨s, -, hs⟩ := Option.bind_eq_some_iff.1 hs
      obtain ⟨mem, hmem, hs⟩ := Option.bind_eq_some_iff.1 hs
      obtain rfl := Option.some.inj hs
      obtain ⟨hpos, hlt, hin, hsize⟩ : 0 ≤ st.n ∧ st.n < H ∧ (∀ k ∈ st.indices, 0 ≤ k ∧ k < H) ∧
        H * N < st.mem.bytes.length := h
      have hrange : 0 ≤ st.n ∧ st.n < H ∧ (∀ k ∈ st.indices, 0 ≤ k ∧ k < H) ∧
          H * N < mem.bytes.length := ⟨hpos, hlt, hin, by rw [length_write hmem]; exact hsize⟩
      by_cases hret : (fnc calls s).1 ≠ 0
      · rw [if_pos hret]
        exact hrange
      · rw [if_neg hret]
        exact hrange
  | returned =>
      obtain rfl := Option.some.inj hs
      exact h

/-- Where a run of `shell` starts that has used no index yet. -/
structure Unused (sh : Session) : Prop where
  point : sh.point = .reading
  pos : 0 ≤ sh.state.n
  lt : sh.state.n < H
  indices : sh.state.indices = []
  size : H * N < sh.state.mem.bytes.length

theorem Unused.ranged {sh : Session} (h : Unused sh) : sh.Ranged := by
  unfold Session.Ranged
  rw [h.point]
  exact ⟨h.pos, h.lt, by unfold InRange; rw [h.indices]; simp, h.size⟩

theorem Session.Ranged.spare {fnc : Fnc} {sh : Session} (h : sh.Ranged)
    (hin : ∀ sh', Shell.step fnc sh = some sh' → InRange sh') : Spare sh := by
  intro e hpt h10 s hline htrim
  by_contra hlast
  unfold Session.Ranged at h
  rw [hpt] at h
  obtain ⟨c, hc, hmem⟩ := Shown.commit_last h hline htrim hlast
  have hloop : loopBody sh.state e sh.input = some ((sh.state, none), (getchar sh.input).2) := by
    unfold loopBody
    simp only
    rw [if_neg (by omega), if_pos h10.symm]
  have hs : Shell.step fnc sh = some { sh with
      state := c.1
      input := (getchar sh.input).2
      point := if c.2 then .calling else .reading } := by
    unfold Shell.step
    rw [hpt]
    simp only [hloop, hc, Option.bind_eq_bind, Option.bind_some]
  exact lt_irrefl _ (hin _ hs H hmem).2

/-- Up to an index out of range the run is one with slots to spare. -/
theorem ranged_of_inRange {fnc : Fnc} {sh₀ sh : Session} (h₀ : Unused sh₀)
    (hin : ∀ sh, Reaches fnc sh₀ sh → InRange sh) (hr : Reaches fnc sh₀ sh) : sh.Ranged := by
  induction hr with
  | start => exact h₀.ranged
  | step hr hs ih => exact ih.step (ih.spare (fun sh' hs => hin sh' (hr.step hs))) hs

/-- **Where the indices stay in the history**: exactly in the runs in which Enter is never pressed
    on a line that is not blank when no slot is left for the next one. -/
theorem inRange_iff_spare (fnc : Fnc) {sh₀ : Session} (h₀ : Unused sh₀) :
    (∀ sh, Reaches fnc sh₀ sh → InRange sh) ↔ ∀ sh, Reaches fnc sh₀ sh → Spare sh := by
  constructor
  · intro hin sh hr
    exact (ranged_of_inRange h₀ hin hr).spare (fun sh' hs => hin sh' (hr.step hs))
  · intro hspare
    suffices h : ∀ sh, Reaches fnc sh₀ sh → sh.Ranged from fun sh hr => (h sh hr).inRange
    intro sh hr
    induction hr with
    | start => exact h₀.ranged
    | step hr hs ih => exact ih.step (hspare _ hr) hs

theorem unused_zero {termios : List UInt8} (h : termios ≠ []) (input : List UInt8) :
    Unused ⟨State.zero termios, input, 0, .reading⟩ :=
  ⟨rfl, le_rfl, (started_zero h input).lt, rfl, (started_zero h input).tidy.size⟩

theorem inRange_iff_spare_twoLines :
    Unused ⟨State.zero (List.replicate 60 0), twoLines, 0, .reading⟩ ∧
      ((∀ sh, Reaches (fun _ s => (0, s))
          ⟨State.zero (List.replicate 60 0), twoLines, 0, .reading⟩ sh → InRange sh) ↔
        ∀ sh, Reaches (fun _ s => (0, s))
          ⟨State.zero (List.replicate 60 0), twoLines, 0, .reading⟩ sh → Spare sh) :=
  ⟨unused_zero (by decide) twoLines, inRange_iff_spare _ (unused_zero (by decide) twoLines)⟩

/-- `count` lines of one character. -/
def shortLines (count : ℕ) : List UInt8 := (List.replicate count [97, 10]).flatten

theorem shortLines_succ (count : ℕ) : shortLines (count + 1) = 97 :: 10 :: shortLines count := by
  unfold shortLines
  rw [List.replicate_succ, List.flatten_cons]
  rfl

/-- A shell in which as many lines are entered as there are slots. -/
def fullSession : Session := ⟨State.zero (List.replicate 60 0), shortLines 96, 0, .reading⟩

theorem reaches_lines (k : ℕ) (hk : k ≤ 95) :
    ∃ sh, Reaches (fun _ s => (0, s)) fullSession sh ∧ sh.input = shortLines (96 - k) ∧
      sh.state.n = k ∧ AtStart sh := by
  induction k with
  | zero => exact ⟨_, .start, rfl, rfl, atStart_zero (by decide) _⟩
  | succ k ih =>
      obtain ⟨sh, hreach, hin, hn, hstart⟩ := ih (by omega)
      rw [show 96 - k = (96 - (k + 1)) + 1 by omega, shortLines_succ] at hin
      obtain ⟨sh₁, e₁, hs₁, hin₁, hn₁, hend₁⟩ :=
        hstart.enter (by rw [hn, H]; omega) (fun _ s => (0, s))
      obtain ⟨sh₂, e₂, hs₂, hin₂, hn₂, hend₂⟩ :=
        hend₁.type (hin₁.trans hin) (by decide) (by decide) (fun _ s => (0, s))
      obtain ⟨sh₃, sh₄, hs₃, hs₄, hin₄, hn₄, hstart₄⟩ :=
        hend₂.commit hin₂ (by decide) (fun _ s => (0, s)) (fun _ _ => rfl)
      exact ⟨sh₄, (((hreach.step hs₁).step hs₂).step hs₃).step hs₄, hin₄,
        by rw [hn₄, hn₂, hn₁, hn, Nat.cast_add, Nat.cast_one], hstart₄⟩

/-- 96 lines of one character: the slot that is cleared behind the last one is slot 96. -/
theorem full_not_inRange :
    ¬ ∀ sh, Reaches (fun _ s => (0, s)) fullSession sh → InRange sh := by
  intro h
  obtain ⟨sh, hreach, hin, hn, hstart⟩ := reaches_lines 95 le_rfl
  obtain ⟨sh₁, e₁, hs₁, hin₁, hn₁, hend₁⟩ :=
    hstart.enter (by rw [hn]; decide) (fun _ s => (0, s))
  obtain ⟨sh₂, e₂, hs₂, hin₂, hn₂, hend₂⟩ :=
    hend₁.type (hin₁.trans hin) (by decide) (by decide) (fun _ s => (0, s))
  have hreach₂ := (hreach.step hs₁).step hs₂
  obtain ⟨front, rest, hline, -⟩ := hend₂.line
  have hs : LineIs sh₂.state [97] := by simpa using hline.lineIs
  have hranged := ranged_of_inRange (unused_zero (by decide) _ : Unused fullSession) h hreach₂
  have hspare := hranged.spare (fun sh' hs' => h sh' (hreach₂.step hs'))
  have := hspare e₂ hend₂.point (by rw [hin₂]; rfl) [97] hs (by decide)
  rw [hn₂, hn₁, hn] at this
  exact absurd this (by decide)

end CS238P.Shell
