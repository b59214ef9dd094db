import CS238P.Library.Machine
import CS238P.Shell.Editor
import CS238P.Shell.History

set_option autoImplicit false

/-! # `shell` as its user knows it

A whole run of `shell`: lines are edited one after the other, each that is not blank is handed to
the callback, and what the callback leaves of it is a line of the history for all that follow. `Desk`
knows strings and keys, no slots and no terminators, and `shell` simulates it turn by turn as long as
there is a place in the history and on the line. -/

namespace CS238P.Shell

open CObject

/-- The callback: what it returns in its `k`th call for a line, and what it leaves of the line. -/
abbrev Callback := ℕ → List UInt8 → ℤ × List UInt8

/-- What the shell is doing. -/
inductive Doing where
  | reading
  | editing (ed : Editor)
  | calling (line : List UInt8)
  | returned
  deriving DecidableEq

/-- The lines of the history, what is still to be typed, and what the shell is doing. -/
structure Desk where
  history : List (List UInt8)
  input : List UInt8
  doing : Doing
  deriving DecidableEq

namespace Desk

/-- The desk when the program starts. -/
def start (input : List UInt8) : Desk := ⟨[], input, .reading⟩

/-- What comes behind the loop of `read_line`. -/
def entered : Option (List UInt8) → Doing
  | some line => .calling line
  | none => .reading

def step (called : Callback) (d : Desk) : Desk :=
  match d.doing with
  | .reading => { d with doing := .editing (Editor.start d.history) }
  | .editing ed =>
      match (Typing.editing ed d.input).turn d.history with
      | .editing ed input => { d with input := input, doing := .editing ed }
      | .entered line input => { d with input := input, doing := entered line }
  | .calling line =>
      let r := called d.history.length line
      { d with
        history := d.history ++ [r.2]
        doing := if r.1 ≠ 0 then .returned else .reading }
  | .returned => d

/-- There is a place for what comes next: a slot for a line, a byte of the slot for a space or a
    tab. -/
def Room (d : Desk) : Prop :=
  match d.doing with
  | .reading => d.history.length < H
  | .editing ed => ¬ (Typing.editing ed d.input).Overfull
  | _ => True

instance : DecidablePred Room
  | ⟨history, _, .reading⟩ => inferInstanceAs (Decidable (history.length < H))
  | ⟨_, input, .editing ed⟩ => inferInstanceAs
      (Decidable (¬ ((32 = (getchar input).1 ∨ 9 = (getchar input).1) ∧ ed.text.length = N - 1)))
  | ⟨_, _, .calling _⟩ => inferInstanceAs (Decidable True)
  | ⟨_, _, .returned⟩ => inferInstanceAs (Decidable True)

end Desk

/-! ## Histories -/

/-- The strings in the first `m` slots. -/
def entries (bytes : List UInt8) (m : ℕ) : List (List UInt8) := (List.range m).map (entry bytes)

theorem entries_append {l : List UInt8} {m : ℕ} (h : m * N ≤ l.length) (r : List UInt8) :
    entries (l ++ r) m = entries l m := by
  refine List.map_congr_left fun k hk => entry_append (le_trans ?_ h)
  exact Nat.mul_le_mul_right N (List.mem_range.1 hk)

theorem entries_succ (bytes : List UInt8) (m : ℕ) :
    entries bytes (m + 1) = entries bytes m ++ [entry bytes m] := by
  rw [entries, List.range_succ, List.map_append]
  rfl

theorem State.history_eq {st : State} {m : ℕ} (hn : st.n = m) :
    st.history = entries st.mem.bytes m := by
  rw [State.history, hn, Int.toNat_natCast, entries]

/-- A string and its terminator are written over another one, and the bytes behind them stay. -/
theorem load_behind {o o' : CObject} {l s s' r : List UInt8} (hb : o.bytes = l ++ (s ++ r))
    (hb' : o'.bytes = l ++ (s' ++ r)) (hlen : s'.length = s.length) {a : ℤ}
    (ha : (l.length : ℤ) + s.length ≤ a) : o'.load a = o.load a := by
  unfold load
  rw [hb, hb', ← List.append_assoc, ← List.append_assoc,
    List.getElem?_append_right (by rw [List.length_append]; omega),
    List.getElem?_append_right (by rw [List.length_append]; omega), List.length_append,
    List.length_append, hlen]

variable {st : State} {history : List (List UInt8)} {line : List UInt8}

/-- The newest slot is empty, and in front of it are the lines of the history. -/
structure Holds (st : State) (history : List (List UInt8)) : Prop where
  tidy : Tidy st
  n : st.n = history.length
  history : entries st.mem.bytes history.length = history
  empty : st.mem.load (slot st.n) = some 0

theorem Holds.ready (h : Holds st history) (hlt : history.length < H) : Ready st :=
  ⟨h.tidy, by rw [h.n]; omega, h.empty⟩

theorem Holds.history_eq (h : Holds st history) : st.history = history :=
  (State.history_eq h.n).trans h.history

/-- The callback is about to have the line, which is in the slot behind those of the history. -/
structure Hands (st : State) (history : List (List UInt8)) (line : List UInt8) : Prop where
  tidy : Tidy st
  i : st.i = history.length
  n : st.n = history.length + 1
  lt : history.length < H
  short : line.length < N
  line : ∃ l r, st.mem.bytes = l ++ (line ++ (0 :: r)) ∧ l.length = history.length * N ∧
    (0 : UInt8) ∉ line ∧ entries l history.length = history
  empty : st.mem.load (slot st.n) = some 0

/-- **The callback writes over the line**, which is one of the history then. -/
theorem Hands.holds (h : Hands st history line) {l r s junk : List UInt8} {mem : CObject}
    (hb : st.mem.bytes = l ++ (line ++ (0 :: r))) (hl : l.length = history.length * N)
    (hmem : mem.bytes = l ++ (s ++ (0 :: (junk ++ r)))) (hs : (0 : UInt8) ∉ s)
    (hlen : s.length + junk.length = line.length) :
    Holds { st with mem := mem } (history ++ [s]) := by
  have hshort := h.short
  have hn := h.n
  have hbytes : st.mem.bytes = l ++ ((line ++ [0]) ++ r) := by simp [hb]
  have hbytes' : mem.bytes = l ++ ((s ++ (0 :: junk)) ++ r) := by simp [hmem]
  have hsame : (s ++ (0 :: junk)).length = (line ++ [0]).length := by simp; omega
  refine ⟨⟨h.tidy.pos, h.tidy.le, ?_, fun k hk hkH => ?_⟩, ?_, ?_, ?_⟩
  · have hsize := h.tidy.size
    rw [hbytes, List.length_append, List.length_append, ← hsame] at hsize
    rw [hbytes', List.length_append, List.length_append]
    exact hsize
  · have hterm := h.tidy.slots k hk hkH
    by_cases hkm : k = history.length
    · exact Terminated.of_split hmem (by rw [hl, hkm]) (by omega)
    · have hfar : (k + 1) * N ≤ l.length ∨ l.length + (line ++ [0]).length ≤ k * N := by
        rw [hl]
        rcases lt_or_gt_of_ne hkm with hlt | hgt
        · exact Or.inl (Nat.mul_le_mul_right N hlt)
        · have := Nat.mul_le_mul_right N hgt
          rw [Nat.succ_mul] at this
          exact Or.inr (by simp; omega)
      rw [hbytes] at hterm
      rw [hbytes']
      exact (terminated_congr hsame hfar).2 hterm
  · rw [List.length_append, List.length_singleton, Nat.cast_add, Nat.cast_one]
    exact hn
  · obtain ⟨l', r', hb', hl', -, hold⟩ := h.line
    obtain ⟨rfl, -⟩ := List.append_inj (hb.symm.trans hb') (hl.trans hl'.symm)
    rw [List.length_append, List.length_singleton, entries_succ, hmem, entries_append hl.ge, hold,
      entry_mid hl (by omega), takeWhile_of_not_mem hs]
  · rw [← h.empty]
    refine load_behind hbytes hbytes' hsame ?_
    simp only [hn, slot, hl, List.length_append, List.length_singleton]
    push_cast
    rw [add_mul]
    omega

/-! ## Turns -/

/-- A desk shows what a session has come to. -/
structure Desk.Shown (d : Desk) (sh : Session) : Prop where
  inv : sh.Inv
  input : sh.input = d.input
  calls : sh.calls = d.history.length
  doing : match d.doing, sh.point with
    | .reading, .reading => Holds sh.state d.history
    | .editing ed, .editing e => ∃ st₀, Holds st₀ d.history ∧ Ready st₀ ∧
        Shows st₀ (.editing ed d.input) (.editing sh.state e sh.input)
    | .calling line, .calling => Hands sh.state d.history line
    | .returned, .returned => Holds sh.state d.history
    | _, _ => False

/-- A turn of the loop is a step of the session. -/
theorem step_editing (fnc : Fnc) (st : State) (e : Edit) (input : List UInt8) (calls : ℕ) :
    step fnc ⟨st, input, calls, .editing e⟩ =
      (Call.editing st e input).turn.map fun
        | .editing st e input => ⟨st, input, calls, .editing e⟩
        | .returned st line input => ⟨st, input, calls, if line then .calling else .reading⟩ := by
  unfold step Call.turn
  simp only [Option.bind_eq_bind]
  rcases loopBody st e input with _ | ⟨⟨st', _ | e'⟩, input'⟩
  · rfl
  · rcases hc : commit st' with _ | c <;> simp [hc]
  · simp

/-- The turn that ends the loop. -/
theorem commit_of_turn {e : Edit} {input input' : List UInt8} {st' : State} {ret : Bool}
    (h : (Call.editing st e input).turn = some (.returned st' ret input')) :
    commit st = some (st', ret) := by
  unfold Call.turn at h
  obtain ⟨r, hr, h⟩ := Option.bind_eq_some_iff.1 h
  have hend : r.1.2 = none → r.1.1 = st := by
    unfold loopBody at hr
    simp only at hr
    split_ifs at hr
    · obtain ⟨a, -, rfl⟩ := Option.map_eq_some_iff.1 hr
      exact fun h => absurd h (by simp)
    · rw [← Option.some.inj hr]
      exact fun _ => rfl
    · obtain ⟨a, -, rfl⟩ := Option.map_eq_some_iff.1 hr
      exact fun h => absurd h (by simp)
  rcases hloop : r.1.2 with _ | e'
  · rw [hloop, hend hloop] at h
    obtain ⟨c, hc, h⟩ := Option.bind_eq_some_iff.1 h
    obtain ⟨rfl, rfl, -⟩ := Call.returned.inj (Option.some.inj h)
    exact hc
  · rw [hloop] at h
    exact absurd (Option.some.inj h) (by simp)

/-- Enter leaves the newest slot empty. -/
theorem Editing.commit_empty {e : Edit} {c : State × Bool} (h : Editing st e)
    (hc : Shell.commit st = some c) : c.1.mem.load (slot c.1.n) = some 0 := by
  obtain ⟨front, rest, t, m, hline, hm, -, hlen, -, -⟩ := h.slot_line
  by_cases hblank : trim (t.before ++ t.after) = []
  · obtain ⟨mem, r, hc', hb, -⟩ := hline.commit_blank hblank
    rw [hc] at hc'
    obtain rfl := Option.some.inj hc'
    exact load_mid hb (by simp only [hm, slot, hlen, Nat.cast_mul])
  · obtain ⟨c', hc', -, -, -, -, hload⟩ := h.commit_line hline.lineIs hblank
    rw [hc] at hc'
    rwa [Option.some.inj hc']

variable {d : Desk} {sh : Session} {fnc : Fnc}

theorem Desk.Shown.guarded (h : d.Shown sh) (hroom : d.Room) : Guarded sh := by
  obtain ⟨-, hinput, -, hdoing⟩ := h
  obtain ⟨history, input, doing⟩ := d
  obtain ⟨st, input', calls, point⟩ := sh
  unfold Guarded
  unfold Desk.Room at hroom
  cases doing <;> cases point <;> first | exact hdoing.elim | trivial | skip
  · have hn := hdoing.n
    simp only at hroom hn ⊢
    omega
  · obtain ⟨st₀, -, -, hshows⟩ := hdoing
    obtain ⟨rfl, ⟨rest, hline⟩, -⟩ := hshows
    intro hover
    have hlen := hline.n
    have hfull := hover.2
    refine hroom ⟨hover.1, ?_⟩
    simp only [Text.length]
    omega

/-- The slots in front of the one that was edited. -/
theorem Ready.entries_of_take {st₀ : State} (h : Ready st₀)
    (htake : st.mem.bytes.take (slot st₀.n).toNat = st₀.front) :
    entries st.mem.bytes st₀.history.length = st₀.history := by
  have hn := h.length_history
  have hfit := h.front_length.ge
  have hsplit : st.mem.bytes = st₀.front ++ st.mem.bytes.drop (slot st₀.n).toNat := by
    rw [← htake, List.take_append_drop]
  have hsplit₀ : st₀.mem.bytes = st₀.front ++ st₀.mem.bytes.drop (slot st₀.n).toNat :=
    (List.take_append_drop _ _).symm
  rw [hsplit, entries_append hfit, ← entries_append hfit, ← hsplit₀, ← State.history_eq hn.symm]

/-- The line that is entered is in the newest slot. -/
theorem Shows.hands {st₀ : State} {input input' : List UInt8} {ret : Bool} (h₀ : Ready st₀)
    (h : Shows st₀ (.entered (some line) input) (.returned st ret input')) (ht : Tidy st)
    (hempty : st.mem.load (slot st.n) = some 0) : Hands st st₀.history line := by
  obtain ⟨-, htake, -, -, hsome⟩ := h
  obtain ⟨hi, ⟨l, r, hb, hbuf, hnul⟩, hn⟩ := hsome line rfl
  have hlen := h₀.length_history
  have hlt := h₀.lt
  have hl : l.length = st₀.history.length * N := by
    rw [State.buf, hi, slot, ← hlen] at hbuf
    exact_mod_cast hbuf.symm
  obtain ⟨l', r', hb', hl', hnul', hshort⟩ :=
    (ht.slots st₀.history.length (by omega) (by omega)).split
  have hline := LineIs.unique ⟨l, r, hb, hbuf, hnul⟩ ⟨l', r', hb', by rw [hbuf, hl, hl'], hnul'⟩
  refine ⟨ht, by rw [hi, hlen], by rw [hn, hlen], by omega, by rwa [hline], ⟨l, r, hb, hl, hnul, ?_⟩,
    hempty⟩
  rw [← entries_append hl.ge, ← hb]
  exact h₀.entries_of_take htake

/-- `read_line`, whatever the callback is. -/
theorem Desk.Shown.read (h : d.Shown sh) (hroom : d.Room) (hpt : sh.point ≠ .calling) (fnc : Fnc)
    (called : Callback) :
    ∃ sh', Shell.step fnc sh = some sh' ∧ (d.step called).Shown sh' := by
  obtain ⟨sh', hs, hinv⟩ := h.inv.step (h.guarded hroom) fnc
  refine ⟨sh', hs, ?_⟩
  obtain ⟨hinv₀, hinput, hcalls, hdoing⟩ := h
  obtain ⟨history, input, doing⟩ := d
  obtain ⟨st, input', calls, point⟩ := sh
  obtain rfl : input' = input := hinput
  cases doing <;> cases point <;> first | exact hdoing.elim | exact absurd rfl hpt | skip
  · -- the editor starts
    have hholds : Holds st history := hdoing
    have hready := hholds.ready hroom
    obtain ⟨r, henter, hshows⟩ := Shows.start hready input'
    unfold Shell.step at hs
    simp only [henter, Option.bind_eq_bind, Option.bind_some] at hs
    obtain rfl := Option.some.inj hs
    rw [hholds.history_eq] at hshows
    exact ⟨hinv, rfl, hcalls, st, hholds, hready, hshows⟩
  · rename_i ed e
    obtain ⟨st₀, hholds, hready, hshows⟩ := hdoing
    obtain ⟨c, hc, hshows'⟩ := hshows.turn hready hroom
    have hhistory := hholds.history_eq
    rw [step_editing, hc, Option.map_some] at hs
    obtain rfl := Option.some.inj hs
    rw [hhistory] at hshows'
    unfold Desk.step
    simp only
    rcases hturn : (Typing.editing ed input').turn history with ⟨ed', typed⟩ | ⟨line, typed⟩ <;>
      rw [hturn] at hshows' <;> rcases c with ⟨st', e', typed'⟩ | ⟨st', ret, typed'⟩ <;>
      first | exact hshows'.elim | skip
    · exact ⟨hinv, hshows'.1, hcalls, st₀, hholds, hready, hshows'⟩
    · have hedit : Editing st e := hinv₀
      have hempty := hedit.commit_empty (commit_of_turn hc)
      obtain ⟨htyped, htake, hret, hnone, -⟩ := id hshows'
      cases line with
      | none =>
          obtain rfl : ret = false := hret
          have htidy : Tidy st' := hinv
          have hn := hnone rfl
          refine ⟨hinv, htyped, hcalls, htidy, hn.trans hholds.n, ?_, hempty⟩
          rw [← hhistory]
          exact hready.entries_of_take htake
      | some line =>
          obtain rfl : ret = true := hret
          have hinv' : Tidy st' ∧ 0 ≤ st'.i ∧ st'.i < H ∧ st'.i ≤ st'.n := hinv
          have hhands := hshows'.hands hready hinv'.1 hempty
          rw [hhistory] at hhands
          exact ⟨hinv, htyped, hcalls, hhands⟩
  · obtain rfl := Option.some.inj hs
    exact ⟨hinv, rfl, hcalls, hdoing⟩

/-! ## The callback -/

/-- The callback of `shell` by what it leaves of a line. -/
def Fnc.called (fnc : Fnc) : Callback := fun k s => ((fnc k s).1, fnc.leaves k s)

/-- The string that characters with their terminator are. -/
theorem exists_takeWhile (s r : List UInt8) : ∃ junk,
    s ++ (0 :: r) = s.takeWhile (· ≠ 0) ++ (0 :: (junk ++ r)) ∧
      (s.takeWhile (· ≠ 0)).length + junk.length = s.length := by
  have hcut := List.takeWhile_append_dropWhile (p := fun c : UInt8 => decide (c ≠ 0)) (l := s)
  have hlen := congrArg List.length hcut
  rw [List.length_append] at hlen
  cases hdrop : s.dropWhile (fun c : UInt8 => decide (c ≠ 0)) with
  | nil =>
      rw [hdrop, List.append_nil] at hcut
      exact ⟨[], by rw [hcut]; rfl, by rw [hcut]; rfl⟩
  | cons c rest =>
      have hc : c = 0 := by
        have hhead := List.head_dropWhile_not (fun c : UInt8 => decide (c ≠ 0)) (l := s)
          (by rw [hdrop]; exact List.cons_ne_nil _ _)
        simp only [hdrop, List.head_cons] at hhead
        simpa using hhead
      rw [hdrop, hc] at hcut
      rw [hdrop, List.length_cons] at hlen
      refine ⟨rest ++ [0], ?_, by rw [List.length_append, List.length_singleton]; exact hlen⟩
      nth_rewrite 1 [← hcut]
      simp

/-- The callback has the line, and what it leaves is in the history. -/
theorem Desk.Shown.call (h : d.Shown sh) (hpt : sh.point = .calling) (fnc : Fnc) :
    ∃ sh', Shell.step fnc sh = some sh' ∧ (d.step fnc.called).Shown sh' := by
  obtain ⟨sh', hs, hinv⟩ := h.inv.step (by unfold Guarded; rw [hpt]; trivial) fnc
  refine ⟨sh', hs, ?_⟩
  obtain ⟨-, hinput, hcalls, hdoing⟩ := h
  obtain ⟨history, input, doing⟩ := d
  obtain ⟨st, input', calls, point⟩ := sh
  obtain rfl : point = .calling := hpt
  obtain rfl : input' = input := hinput
  obtain rfl : calls = history.length := hcalls
  cases doing <;> first | exact hdoing.elim | skip
  rename_i line
  have hhands : Hands st history line := hdoing
  obtain ⟨l, r, hb, hl, hnul, -⟩ := hhands.line
  set s := Bytes.overwrite line ((fnc history.length line).2.take line.length) with hover
  have hlen : s.length = line.length :=
    Bytes.length_overwrite (by rw [List.length_take]; omega)
  have hbuf : st.buf = (l.length : ℤ) := by
    rw [State.buf, slot, hhands.i, hl, Nat.cast_mul]
  have hwrite := write_mid (o := st.mem) (r := 0 :: r) hb hbuf hlen
  obtain ⟨junk, hjunk, hsum⟩ := exists_takeWhile s r
  have hholds : Holds
      { st with mem := ⟨l ++ (s ++ (0 :: r)), st.mem.written ++ span st.buf s.length⟩ }
      (history ++ [fnc.leaves history.length line]) :=
    hhands.holds hb hl (by rw [hjunk]; rfl) (fun hm => by simpa using List.mem_takeWhile_imp hm)
      (hsum.trans hlen)
  unfold Shell.step at hs
  simp only [strlen_mid hb hbuf hnul, read_mid hb hbuf, ← hover, hwrite, Option.bind_eq_bind,
    Option.bind_some] at hs
  obtain rfl := Option.some.inj hs
  unfold Desk.step Fnc.called
  by_cases hret : (fnc history.length line).1 ≠ 0
  · simp only [if_pos hret] at hinv ⊢
    exact ⟨hinv, rfl, by simp, hholds⟩
  · simp only [if_neg hret] at hinv ⊢
    exact ⟨hinv, rfl, by simp, hholds⟩

/-- **One turn of `shell`.** -/
theorem Desk.Shown.step (h : d.Shown sh) (hroom : d.Room) :
    ∃ sh', Shell.step fnc sh = some sh' ∧ (d.step fnc.called).Shown sh' := by
  by_cases hpt : sh.point = .calling
  · exact h.call hpt fnc
  · exact h.read hroom hpt fnc _

theorem Desk.shown_start {termios : List UInt8} (h : termios ≠ []) (input : List UInt8) :
    (Desk.start input).Shown ⟨State.zero termios, input, 0, .reading⟩ :=
  ⟨(started_zero h input).inv, rfl, rfl, (started_zero h input).tidy, rfl, rfl,
    (ready_zero h).empty⟩

/-- **`shell` simulates the desk**, from its start on and whatever is typed: as long as there is
    room, no access is outside of its object, and after any number of turns the lines of the
    history, the line that is edited with its cursor and the line that is handed to the callback are
    those of the desk. -/
theorem shell_simulates {termios : List UInt8} (h : termios ≠ []) (fnc : Fnc) (input : List UInt8)
    (k : ℕ)
    (hroom : ∀ j < k, (Machine.afterSpec (Desk.step fnc.called) (Desk.start input) j).Room) :
    ∃ sh, Machine.after (step fnc) ⟨State.zero termios, input, 0, .reading⟩ k = some sh ∧
      (Machine.afterSpec (Desk.step fnc.called) (Desk.start input) k).Shown sh :=
  Machine.after_simulates (fun _ _ h hroom => h.step hroom) (Desk.shown_start h input) k hroom

/-- A line of one character is entered. -/
theorem shell_simulates_line :
    ∃ sh, Machine.after (step fun _ s => (0, s))
        ⟨State.zero (List.replicate 60 0), [97, 10], 0, .reading⟩ 4 = some sh ∧
      (Machine.afterSpec (Desk.step (Fnc.called fun _ s => (0, s)))
        (Desk.start [97, 10]) 4).Shown sh :=
  shell_simulates (by decide) _ _ 4 (by decide)

end CS238P.Shell
