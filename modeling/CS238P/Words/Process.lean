import CS238P.Shell.Desk
import CS238P.Words.Bag
import CS238P.Words.Kept

set_option autoImplicit false

/-! # The words program at the keyboard

`shell` with `shell_fnc` for its callback, on the tree: the line that is edited lies in the history,
and the callback trims its argument there. From the first key of a run to the last, what is typed is
answered as a bag of words answers the lines that are edited. -/

namespace CS238P.Words

open CObject Avl Shell

/-- The running program: the shell, the tree, and what was answered so far. -/
structure Process where
  session : Session
  avl : Avl.State
  replies : List Reply

/-- A turn. The callback is made with a pointer to the line in the history. -/
def Process.step (world : ℕ → World) (p : Process) : Option Process :=
  match p.session.point with
  | .calling => do
      let r ← shellFnc (world p.session.calls) p.avl p.session.state.mem p.session.state.buf
      some
        { session :=
            { p.session with
              state := { p.session.state with mem := r.2 }
              calls := p.session.calls + 1
              point := if r.1.ret ≠ 0 then .returned else .reading }
          avl := r.1.avl
          replies := p.replies ++ [⟨r.1.ret, r.1.out⟩] }
  | _ => do
      -- the callback is not made
      let session ← Shell.step (fun _ s => (0, s)) p.session
      some { p with session := session }

/-- A desk with the bag at its side. -/
structure Counter where
  desk : Desk
  bag : Bag
  replies : List Reply

/-- What `shell` sees of `shell_fnc`: `quit` ends it, and what is left of a line has the argument
    directly behind the face of its command. -/
def called : Callback := fun _ s =>
  (if (verdict (faced cmds s) s).1 = some .quit then 1 else 0, left (faced cmds s) s)

/-- A turn. -/
def Counter.step (world : ℕ → World) (t : Counter) : Counter :=
  let desk := t.desk.step called
  match t.desk.doing with
  | .calling line =>
      let r := Bag.line t.bag (world t.desk.history.length, line)
      ⟨desk, r.1, t.replies ++ [r.2]⟩
  | _ => ⟨desk, t.bag, t.replies⟩

/-- The process is as the counter says. -/
structure Counter.Shown (t : Counter) (p : Process) : Prop where
  desk : t.desk.Shown p.session
  counts : Counts p.avl t.bag
  replies : p.replies = t.replies

variable {world : ℕ → World} {t : Counter} {p : Process}

theorem Counter.desk_step (t : Counter) : (t.step world).desk = t.desk.step called := by
  unfold Counter.step
  cases t.desk.doing <;> rfl

/-- The files are text. -/
def Texts (world : ℕ → World) : Prop :=
  ∀ k name file, (world k).fopen name = some file → (0 : UInt8) ∉ file

/-- The callback is made with the line in the history. -/
theorem Counter.Shown.call (h : t.Shown p) (htext : Texts world) {line : List UInt8}
    (hline : t.desk.doing = .calling line) :
    ∃ p', p.step world = some p' ∧ (t.step world).Shown p' := by
  obtain ⟨⟨history, input, doing⟩, bag, replies⟩ := t
  obtain ⟨⟨st, input', calls, point⟩, avl, replies'⟩ := p
  obtain rfl : doing = .calling line := hline
  obtain ⟨⟨-, hinput, hcalls, hdoing⟩, hcounts, hreplies⟩ := h
  obtain rfl : input' = input := hinput
  obtain rfl : calls = history.length := hcalls
  obtain rfl : replies' = replies := hreplies
  cases point <;> first | exact hdoing.elim | skip
  have hhands : Hands st history line := hdoing
  obtain ⟨l, r, hb, hl, hnul, -⟩ := hhands.line
  have hbuf : st.buf = (l.length : ℤ) := by
    rw [State.buf, slot, hhands.i, hl, Nat.cast_mul]
  obtain ⟨o', junk, -, -, hb', hlen, hcall⟩ := shellFnc_eq hb hbuf hnul
  have hcounts : Counts avl bag := hcounts
  obtain ⟨avl', hperform, hcounts'⟩ :=
    hcounts.perform (htext history.length) (verdict (faced cmds line) line).1 (exists_toItem hnul)
  have hholds := hhands.holds hb hl hb' (nul_not_mem_left hnul) hlen
  have hcall := hcall (world history.length) avl
  rw [hperform, Option.map_some] at hcall
  -- what is returned does not depend on the tree
  obtain ⟨_, hfnc, _⟩ := fnc_eq history.length hnul
  have hret := (shellFnc_fnc hb hbuf hnul history.length hcall).1
  simp only [hfnc] at hret
  unfold Process.step Counter.step Desk.step called Bag.line
  simp only [hcall, Option.bind_eq_bind, Option.bind_some]
  refine ⟨_, rfl, ⟨?_, rfl, by simp, ?_⟩, hcounts', rfl⟩
  · unfold Session.Inv
    simp only
    split_ifs
    · trivial
    · exact hholds.tidy
  · simp only [hret]
    split_ifs <;> exact hholds

/-- **One turn of the program.** -/
theorem Counter.Shown.step (h : t.Shown p) (htext : Texts world) (hroom : t.desk.Room) :
    ∃ p', p.step world = some p' ∧ (t.step world).Shown p' := by
  by_cases hpt : p.session.point = .calling
  · have hdoing := h.desk.doing
    rw [hpt] at hdoing
    cases hline : t.desk.doing with
    | calling line => exact h.call htext hline
    | _ =>
        rw [hline] at hdoing
        exact hdoing.elim
  · obtain ⟨session, hs, hdesk⟩ := h.desk.read hroom hpt (fun _ s => (0, s)) called
    refine ⟨{ p with session := session }, ?_, ?_⟩
    · unfold Process.step
      rw [hs]
      cases hp : p.session.point <;> first | exact absurd hp hpt | rfl
    · have hdoing := h.desk.doing
      unfold Counter.step
      cases hline : t.desk.doing with
      | calling line =>
          rw [hline] at hdoing
          cases hp : p.session.point with
          | calling => exact absurd hp hpt
          | _ =>
              rw [hp] at hdoing
              exact hdoing.elim
      | _ => exact ⟨hdesk, h.counts, h.replies⟩

/-! ## Runs -/

/-- A run of the program: whether the SCM is truncated, what is typed, and how many turns are
    made. -/
structure Sitting where
  truncate : Bool
  input : List UInt8
  world : ℕ → World
  turns : ℕ

/-- The process as it starts. `configure` has read the settings of the terminal. -/
def Process.start (termios : List UInt8) (avl : Avl.State) (s : Sitting) : Process :=
  ⟨⟨State.zero termios, s.input, 0, .reading⟩, if s.truncate then Avl.State.empty else avl, []⟩

def Counter.start (bag : Bag) (s : Sitting) : Counter :=
  ⟨Desk.start s.input, if s.truncate then [] else bag, []⟩

/-- A run: the tree it leaves, and what it answered. -/
def sit (termios : List UInt8) (avl : Avl.State) (s : Sitting) :
    Option (Avl.State × List Reply) := do
  let p ← Machine.after (Process.step s.world) (Process.start termios avl s) s.turns
  some (p.avl, p.replies)

def Bag.sit (bag : Bag) (s : Sitting) : Bag × List Reply :=
  let t := Machine.afterSpec (Counter.step s.world) (Counter.start bag s) s.turns
  (t.bag, t.replies)

/-- The files are text, and there is room for what is typed. -/
def Sitting.Fits (s : Sitting) : Prop :=
  Texts s.world ∧ ∀ j < s.turns, (Machine.afterSpec (Desk.step called) (Desk.start s.input) j).Room

theorem Counter.desk_after (world : ℕ → World) (t : Counter) (j : ℕ) :
    (Machine.afterSpec (Counter.step world) t j).desk =
      Machine.afterSpec (Desk.step called) t.desk j := by
  induction j with
  | zero => rfl
  | succ j ih => rw [Machine.afterSpec, Counter.desk_step, ih, Machine.afterSpec]

theorem Counts.sit {termios : List UInt8} (htermios : termios ≠ []) (avl : Avl.State) (bag : Bag)
    (s : Sitting) (h : Counts avl bag) (hs : s.Fits) :
    ∃ avl', Words.sit termios avl s = some (avl', (Bag.sit bag s).2) ∧
      Counts avl' (Bag.sit bag s).1 := by
  have hstart : (Counter.start bag s).Shown (Process.start termios avl s) := by
    refine ⟨Desk.shown_start htermios s.input, ?_, rfl⟩
    unfold Counter.start Process.start
    simp only
    split_ifs
    · exact counts_empty
    · exact h
  have hroom : ∀ j < s.turns,
      (Machine.afterSpec (Counter.step s.world) (Counter.start bag s) j).desk.Room := by
    intro j hj
    rw [Counter.desk_after]
    exact hs.2 j hj
  obtain ⟨p, hp, hshown⟩ := Machine.after_simulates
    (fun _ _ h (hroom : Desk.Room _) => h.step hs.1 hroom) hstart s.turns hroom
  exact ⟨p.avl, by rw [Words.sit, hp]; simp [Bag.sit, hshown.replies], hshown.counts⟩

/-- **The words program is a bag of words to its user.** Over any number of runs, whatever is typed
    and whatever files free of NUL there are, whichever allocations fail, and however far each run
    gets, the lines that are edited are answered as the bag answers them, as long as there is room
    for what is typed. No access is outside its object and no assertion fails. -/
theorem sittings_refine {termios : List UInt8} (htermios : termios ≠ []) (sittings : List Sitting)
    (h : ∀ s ∈ sittings, s.Fits) :
    ∃ avl, Machine.run (sit termios) (fun _ => false) Avl.State.empty sittings =
        some (avl, (Machine.runSpec Bag.sit (fun _ => false) [] sittings).2) ∧
      Counts avl (Machine.runSpec Bag.sit (fun _ => false) [] sittings).1 :=
  Machine.run_refines (Counts.sit htermios) sittings _ _ counts_empty h

/-- `insert a` is typed in a first run and `exists a` in a second one. -/
def twoSittings : List Sitting :=
  [⟨true, ascii "insert a\n", fun _ => worldOf [98], 11⟩,
    ⟨false, ascii "exists a\n", fun _ => worldOf [98], 11⟩]

theorem sittings_refine_two :
    ∃ avl, Machine.run (sit (List.replicate 60 0)) (fun _ => false) Avl.State.empty twoSittings =
        some (avl, (Machine.runSpec Bag.sit (fun _ => false) [] twoSittings).2) ∧
      Counts avl (Machine.runSpec Bag.sit (fun _ => false) [] twoSittings).1 :=
  sittings_refine (by decide) twoSittings (by
    intro s hs
    rcases List.mem_pair.1 hs with rfl | rfl
    · exact ⟨fun _ _ _ h => by rw [← Option.some.inj h]; decide, by decide +kernel⟩
    · exact ⟨fun _ _ _ h => by rw [← Option.some.inj h]; decide, by decide +kernel⟩)

end CS238P.Words
