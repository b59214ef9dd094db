import CS238P.Words.Replay
import CS238P.Shell.History

set_option autoImplicit false

/-! # What `shell_fnc` does to the history

The line that `shell` hands to `shell_fnc` is its slot of the history, and `shell_fnc` trims the
argument in it through a cast: the white space between the command and its argument is gone from the
history. -/

namespace CS238P.Words

open CObject Avl Shell

/-- `shell_fnc` as the callback of `shell`: what it returns, and the characters it leaves. What the
    commands do to the tree is not seen by `shell`. -/
def fnc : Shell.Fnc := fun _ s =>
  match dispatch ⟨s ++ [0], []⟩ cmds 0 with
  | some ((f, _), o) => (if f = some .quit then 1 else 0, o.bytes.take s.length)
  | none => (0, s)

/-! ## The callback -/

variable {o o' : CObject} {l s r : List UInt8} {a : ℤ} {world : World} {avl : Avl.State}
  {out : Outcome}

/-- `quit` is the only command that ends the shell. -/
theorem perform_ret {f : Option Fnc} {arg : List UInt8}
    (h : perform world avl arg f = some out) : out.ret = if f = some .quit then 1 else 0 := by
  cases f with
  | none =>
      obtain rfl := Option.some.inj h
      rfl
  | some f =>
      cases f with
      | quit | help | info | list =>
          obtain rfl := Option.some.inj h
          rfl
      | insert =>
          obtain ⟨item, -, h⟩ := Option.bind_eq_some_iff.1 h
          obtain ⟨i, -, h⟩ := Option.bind_eq_some_iff.1 h
          obtain rfl := Option.some.inj h
          rfl
      | exists_ =>
          obtain ⟨item, -, h⟩ := Option.bind_eq_some_iff.1 h
          obtain rfl := Option.some.inj h
          rfl
      | load =>
          unfold perform Fnc.call load at h
          cases hopen : world.fopen arg with
          | none =>
              simp only [hopen] at h
              obtain rfl := Option.some.inj h
              rfl
          | some file =>
              simp only [hopen] at h
              obtain ⟨i, -, h⟩ := Option.bind_eq_some_iff.1 h
              obtain rfl := Option.some.inj h
              rfl

/-- The characters that `shell_fnc` leaves. -/
theorem fnc_eq (k : ℕ) (hs : (0 : UInt8) ∉ s) :
    ∃ junk, fnc k s = (if (verdict (faced cmds s) s).1 = some .quit then 1 else 0,
        (left (faced cmds s) s ++ (0 :: junk)).take s.length) ∧
      (left (faced cmds s) s).length + junk.length = s.length := by
  obtain ⟨o', junk, hd, -, hb, hlen, -⟩ :=
    shellFnc_eq (o := ⟨s ++ [0], []⟩) (l := []) (r := []) (a := 0) rfl rfl hs
  refine ⟨junk, ?_, hlen⟩
  unfold fnc
  rw [hd]
  simp [hb]

/-- The line that is left. -/
theorem leaves_fnc (k : ℕ) (hs : (0 : UInt8) ∉ s) :
    Shell.Fnc.leaves fnc k s = left (faced cmds s) s := by
  obtain ⟨junk, hfnc, hlen⟩ := fnc_eq k hs
  have hnul := nul_not_mem_left hs
  set t := left (faced cmds s) s with ht
  have htake : ((t ++ (0 :: junk)).take s.length).length = s.length := by
    simp
    omega
  rw [Fnc.leaves, hfnc, List.take_take, min_self, Bytes.overwrite, htake, List.drop_length,
    List.append_nil, ← hlen, List.take_length_add_append]
  cases junk with
  | nil =>
      rw [List.length_nil, List.take_zero, List.append_nil, takeWhile_of_not_mem hnul]
  | cons x junk => exact takeWhile_nul hnul _

/-- **The callback is `shell_fnc`**, wherever the line is and whatever the tree is: it returns the
    same, and leaves the same string. -/
theorem shellFnc_fnc (hb : o.bytes = l ++ (s ++ (0 :: r))) (ha : a = l.length)
    (hs : (0 : UInt8) ∉ s) (k : ℕ) (h : shellFnc world avl o a = some (out, o')) :
    out.ret = (fnc k s).1 ∧ o'.string a = some (Shell.Fnc.leaves fnc k s) := by
  obtain ⟨junk, hfnc, -⟩ := fnc_eq k hs
  obtain ⟨o'', junk', -, -, hb', -, hcall⟩ := shellFnc_eq hb ha hs
  rw [hcall] at h
  obtain ⟨out', hperform, heq⟩ := Option.map_eq_some_iff.1 h
  obtain ⟨rfl, rfl⟩ := Prod.mk.inj heq
  rw [hfnc, leaves_fnc k hs]
  exact ⟨perform_ret hperform, string_mid hb' ha (nul_not_mem_left hs)⟩

/-! ## Lines that stay -/

/-- White space comes directly behind the face of a command. -/
def Spaced (s : List UInt8) : Prop :=
  ∃ c ∈ cmds, ∃ b t, s = c.face ++ (b :: t) ∧ isspace b = true

/-- Such a line is changed, and no other trimmed line is. -/
theorem left_eq_iff {s : List UInt8} (h : trim s = s) :
    left (faced cmds s) s = s ↔ ¬ Spaced s := by
  constructor
  · intro hleft hspaced
    obtain ⟨c, hc, b, t, rfl, hb⟩ := hspaced
    rw [faced_face_append hc, left, Cmd.arg, List.drop_left, List.append_cancel_left_eq] at hleft
    have := (trim_eq_self_iff.1 hleft).1 b rfl
    simp [hb] at this
  · intro hspaced
    cases hfaced : faced cmds s with
    | none => rfl
    | some c =>
        have hc := List.mem_of_find?_eq_some hfaced
        obtain ⟨t, rfl⟩ : c.face <+: s := isPrefixOf_eq.1 (List.find?_some hfaced :)
        rw [left, Cmd.arg, List.drop_left, List.append_cancel_left_eq, trim_eq_self_iff]
        refine ⟨fun b hb => ?_, fun b hb => (trim_eq_self_iff.1 h).2 b ?_⟩
        · obtain ⟨t', rfl⟩ := List.head?_eq_some_iff.1 hb
          by_contra hspace
          exact hspaced ⟨c, hc, b, t', rfl, by simpa using hspace⟩
        · rw [List.getLast?_append, Option.mem_def.1 hb]
          rfl

/-! ## The history -/

/-- Each line that was entered is in its slot as it was entered, and the up key shows it. -/
def Kept (lines : List (List UInt8)) (sh : Session) : Prop :=
  ∀ (k : ℕ) (s : List UInt8), lines[k]? = some s →
    Terminated sh.state.mem.bytes k ∧ entry sh.state.mem.bytes k = s ∧
      ∀ e, sh.point = .editing e → ∃ r, recallSlot sh.state k = some r ∧ LineIs r.1 s

variable {lines : List (List UInt8)} {sh₀ sh : Session}

/-- What is in a slot is the line as `shell_fnc` has left it. -/
theorem entry_eq_left (hr : Entered fnc sh₀ lines sh) (h₀ : Started sh₀) (hn : sh₀.state.n = 0)
    (hcalls : sh₀.calls = 0) (hpt : sh.point ≠ .calling) {k : ℕ} (hk : lines[k]? = some s) :
    entry sh.state.mem.bytes k = left (faced cmds s) s := by
  have hnul := (hr.trimmed s (List.mem_of_getElem? hk)).1
  rw [((hr.logged h₀ hn hcalls).slots hpt hk).2.1, leaves_fnc k hnul]

/-- **When the history keeps what was entered**: exactly when none of the lines has white space
    directly behind the face of a command. -/
theorem kept_iff_not_spaced (hr : Entered fnc sh₀ lines sh) (h₀ : Started sh₀)
    (hn : sh₀.state.n = 0) (hcalls : sh₀.calls = 0) (hpt : sh.point ≠ .calling) :
    Kept lines sh ↔ ∀ s ∈ lines, ¬ Spaced s := by
  constructor
  · intro hkept s hs
    obtain ⟨k, hk⟩ := List.mem_iff_getElem?.1 hs
    rw [← left_eq_iff (hr.trimmed s hs).2, ← entry_eq_left hr h₀ hn hcalls hpt hk]
    exact (hkept k s hk).2.1
  · intro hspaced k s hk
    have hs := List.mem_of_getElem? hk
    obtain ⟨hnul, htrim⟩ := hr.trimmed s hs
    have hslots := (hr.logged h₀ hn hcalls).slots hpt hk
    rwa [leaves_fnc k hnul, (left_eq_iff htrim).2 (hspaced s hs)] at hslots

/-- The program as it starts, with one line to come. -/
def started (line : List UInt8) : Session :=
  ⟨State.zero (List.replicate 60 0), line ++ [10], 0, .reading⟩

theorem entered_started (line : List UInt8) (hcs : ∀ c ∈ line, isprint c.toNat = true)
    (hlen : line.length < N) (hline : trim line ≠ []) :
    ∃ sh, Entered fnc (started line) [trim line] sh ∧ sh.point ≠ .calling := by
  have hstart : AtStart (started line) := atStart_zero (by decide) _
  exact Entered.start.enter hstart (by show (0 : ℤ) < H; decide) rfl hcs hlen hline

theorem kept_iff_not_spaced_list :
    ∃ sh, Entered fnc (started (ascii "list")) [ascii "list"] sh ∧ sh.point ≠ .calling ∧
      (Kept [ascii "list"] sh ↔ ∀ s ∈ [ascii "list"], ¬ Spaced s) := by
  obtain ⟨sh, hr, hpt⟩ :=
    entered_started (ascii "list") (List.all_eq_true.1 (by decide)) (by decide) (by decide)
  have hr : Entered fnc (started (ascii "list")) [ascii "list"] sh := hr
  exact ⟨sh, hr, hpt, kept_iff_not_spaced hr (started_zero (by decide) _) rfl rfl hpt⟩

/-- `insert a` becomes `inserta`. -/
theorem insert_not_kept :
    ¬ ∀ (lines : List (List UInt8)) (sh : Session),
      Entered fnc (started (ascii "insert a")) lines sh → sh.point ≠ .calling → Kept lines sh := by
  intro h
  obtain ⟨sh, hr, hpt⟩ :=
    entered_started (ascii "insert a") (List.all_eq_true.1 (by decide)) (by decide) (by decide)
  have hentry := entry_eq_left hr (started_zero (by decide) _) rfl rfl hpt (k := 0) rfl
  have hkept := (h _ _ hr hpt 0 _ rfl).2.1
  rw [hentry] at hkept
  exact absurd hkept (by decide)

end CS238P.Words
