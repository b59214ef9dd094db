import CS238P.Words.Model
import CS238P.Shell.Trim

set_option autoImplicit false

/-! # A line can be dispatched again

`shell_fnc` takes the first command whose face the line starts with, and trims what is behind it in
place, so that the line it leaves has the argument directly behind the face. No face is the start of
another one, and so the line that is left starts with the same face only and has the same argument,
which is trimmed: it is dispatched as the line was, and stays. -/

namespace CS238P.Words

open CObject Avl Shell

/-! ## What the loop computes -/

/-- The command whose face the line starts with. -/
def faced (cs : List Cmd) (s : List UInt8) : Option Cmd :=
  cs.find? (fun c => c.face.isPrefixOf s)

/-- What is behind the face. -/
def Cmd.arg (c : Cmd) (s : List UInt8) : List UInt8 := trim (s.drop c.face.length)

/-- The function that is called with this argument. -/
def Cmd.chosen (c : Cmd) (arg : List UInt8) : Option Fnc :=
  if (c.argc ≠ 0 ∧ arg = []) ∨ (c.argc = 0 ∧ arg ≠ []) then none else some c.fnc

/-- The function that is called, if any, and the place of its argument in the line. -/
def verdict : Option Cmd → List UInt8 → Option Fnc × ℕ
  | some c, s => (c.chosen (c.arg s), c.face.length)
  | none, _ => (none, 0)

/-- The line that is left. -/
def left : Option Cmd → List UInt8 → List UInt8
  | some c, s => c.face ++ c.arg s
  | none, s => s

variable {o : CObject} {l s r : List UInt8} {a : ℤ}

theorem isPrefixOf_eq {xs ys : List UInt8} : xs.isPrefixOf ys = true ↔ xs <+: ys :=
  List.isPrefixOf_iff_prefix

/-- **What the loop of `shell_fnc` does**, whatever the commands are. -/
theorem dispatch_eq {cs : List Cmd} (hcs : ∀ c ∈ cs, (0 : UInt8) ∉ c.face)
    (hb : o.bytes = l ++ (s ++ (0 :: r))) (ha : a = l.length) (hs : (0 : UInt8) ∉ s) :
    ∃ o' junk, dispatch o cs a =
        some (((verdict (faced cs s) s).1, a + (verdict (faced cs s) s).2), o') ∧
      o'.bytes = l ++ (left (faced cs s) s ++ (0 :: (junk ++ r))) ∧
      (left (faced cs s) s).length + junk.length = s.length := by
  induction cs with
  | nil => exact ⟨o, [], by simp [dispatch, faced, verdict], by simpa [faced, left] using hb, rfl⟩
  | cons c cs ih =>
      obtain ⟨d, hd, hpre⟩ := strncmp_mid hb ha (hcs c (List.mem_cons_self ..))
      rw [dispatch, hd, Option.bind_eq_bind, Option.bind_some]
      by_cases hface : c.face <+: s
      · rw [if_pos (hpre.2 hface)]
        obtain ⟨t, rfl⟩ := hface
        have hfaced : faced (c :: cs) (c.face ++ t) = some c :=
          List.find?_cons_of_pos (isPrefixOf_eq.2 (List.prefix_append _ _))
        have harg : c.arg (c.face ++ t) = trim t := by rw [Cmd.arg, List.drop_left]
        have hbt : o.bytes = (l ++ c.face) ++ (t ++ (0 :: r)) := by rw [hb]; simp
        have hat : a + c.face.length = ((l ++ c.face).length : ℤ) := by simp [ha]
        have ht : (0 : UInt8) ∉ t := fun hm => hs (List.mem_append_right _ hm)
        obtain ⟨junk, written, htrim, hlen⟩ := strtrim_eq hbt hat ht
        have hstr : (CObject.mk ((l ++ c.face) ++ (trim t ++ (0 :: (junk ++ r)))) written).strlen
            (a + c.face.length) = some (trim t).length :=
          strlen_mid rfl hat (fun hm => ht (mem_of_mem_trim hm))
        rw [hfaced, verdict, left, harg, Cmd.chosen]
        simp only [htrim, hstr, Option.bind_eq_bind, Option.bind_some, ne_eq, List.length_eq_zero_iff]
        refine ⟨⟨(l ++ c.face) ++ (trim t ++ (0 :: (junk ++ r))), written⟩, junk, ?_, by simp,
          by simp; omega⟩
        split_ifs <;> rfl
      · rw [if_neg (fun h => hface (hpre.1 h))]
        have hfaced : faced (c :: cs) s = faced cs s :=
          List.find?_cons_of_neg (fun h => hface (isPrefixOf_eq.1 h))
        rw [hfaced]
        exact ih (fun c' hc' => hcs c' (List.mem_cons_of_mem _ hc'))

/-! ## The line that is left -/

theorem nul_not_mem_face : ∀ c ∈ cmds, (0 : UInt8) ∉ c.face := by
  decide

/-- No face is the start of another one. -/
theorem face_unique :
    ∀ c ∈ cmds, ∀ c' ∈ cmds, c'.face <+: c.face ∨ c.face <+: c'.face → c' = c := by
  decide

theorem faced_face_append {c : Cmd} (hc : c ∈ cmds) (t : List UInt8) :
    faced cmds (c.face ++ t) = some c := by
  cases hfaced : faced cmds (c.face ++ t) with
  | none =>
      have := List.find?_eq_none.1 hfaced c hc
      simp at this
  | some c' =>
      have hpre : c'.face <+: c.face ++ t := isPrefixOf_eq.1 (List.find?_some hfaced :)
      rw [face_unique c hc c' (List.mem_of_find?_eq_some hfaced)
        (List.prefix_or_prefix_of_prefix hpre (List.prefix_append _ _))]

/-- The line that is left has the same face and the same argument. -/
theorem faced_left (s : List UInt8) : faced cmds (left (faced cmds s) s) = faced cmds s := by
  cases hfaced : faced cmds s with
  | none => exact hfaced
  | some c => exact faced_face_append (List.mem_of_find?_eq_some hfaced) _

theorem arg_left (c : Cmd) (s : List UInt8) : c.arg (left (some c) s) = c.arg s := by
  rw [left, Cmd.arg, List.drop_left, Cmd.arg, trim_trim]

theorem left_left (f : Option Cmd) (s : List UInt8) : left f (left f s) = left f s := by
  cases f with
  | none => rfl
  | some c => rw [left, arg_left, ← left]

theorem verdict_left (f : Option Cmd) (s : List UInt8) : verdict f (left f s) = verdict f s := by
  cases f with
  | none => rfl
  | some c => rw [verdict, arg_left, ← verdict]

/-- A face has no white space at its ends. -/
theorem trim_face : ∀ c ∈ cmds, c.face ≠ [] ∧ trim c.face = c.face := by
  decide

/-- A trimmed line is left trimmed. -/
theorem trim_left {s : List UInt8} (h : trim s = s) :
    trim (left (faced cmds s) s) = left (faced cmds s) s := by
  cases hfaced : faced cmds s with
  | none => exact h
  | some c =>
      obtain ⟨hne, hface⟩ := trim_face c (List.mem_of_find?_eq_some hfaced)
      have harg : trim (c.arg s) = c.arg s := trim_trim _
      rw [trim_eq_self_iff] at hface harg
      rw [left, trim_eq_self_iff, List.head?_append_of_ne_nil _ hne, List.getLast?_append]
      refine ⟨hface.1, fun d hd => ?_⟩
      cases hlast : (c.arg s).getLast? with
      | none => exact hface.2 d (by simpa [hlast] using hd)
      | some d' => exact harg.2 d (by simpa [hlast] using hd)

theorem nul_not_mem_left {s : List UInt8} (hs : (0 : UInt8) ∉ s) :
    (0 : UInt8) ∉ left (faced cmds s) s := by
  cases hfaced : faced cmds s with
  | none => exact hs
  | some c =>
      rw [left, List.mem_append]
      rintro (hm | hm)
      · exact nul_not_mem_face c (List.mem_of_find?_eq_some hfaced) hm
      · exact hs (List.mem_of_mem_drop (mem_of_mem_trim hm))

/-! ## `shell_fnc` -/

/-- The argument that is left in the line, for a function or for the error. -/
def argument : Option Cmd → List UInt8 → List UInt8
  | some c, s => c.arg s
  | none, s => s

theorem argument_left (f : Option Cmd) (s : List UInt8) :
    argument f (left f s) = argument f s := by
  cases f with
  | none => rfl
  | some c => exact arg_left c s

/-- `shell_fnc` on a line: what it calls, and what it leaves. -/
theorem shellFnc_eq (hb : o.bytes = l ++ (s ++ (0 :: r))) (ha : a = l.length)
    (hs : (0 : UInt8) ∉ s) :
    ∃ o' junk, dispatch o cmds a = some (((verdict (faced cmds s) s).1,
        a + (verdict (faced cmds s) s).2), o') ∧
      o'.string (a + (verdict (faced cmds s) s).2) = some (argument (faced cmds s) s) ∧
      o'.bytes = l ++ (left (faced cmds s) s ++ (0 :: (junk ++ r))) ∧
      (left (faced cmds s) s).length + junk.length = s.length ∧
      ∀ world avl, shellFnc world avl o a =
        (perform world avl (argument (faced cmds s) s) (verdict (faced cmds s) s).1).map
          (fun out => (out, o')) := by
  obtain ⟨o', junk, hd, hb', hlen⟩ := dispatch_eq nul_not_mem_face hb ha hs
  have hnul := nul_not_mem_left hs
  have hstring : o'.string (a + (verdict (faced cmds s) s).2) =
      some (argument (faced cmds s) s) := by
    cases hfaced : faced cmds s with
    | none =>
        rw [hfaced] at hb'
        exact string_mid hb' (by simp [ha, verdict]) hs
    | some c =>
        rw [hfaced, left] at hb' hnul
        exact string_mid (l := l ++ c.face) (by simpa [argument] using hb') (by simp [ha, verdict])
          (fun hm => hnul (List.mem_append_right _ hm))
  refine ⟨o', junk, hd, hstring, hb', hlen, fun world avl => ?_⟩
  simp only [shellFnc, hd, hstring, Option.bind_eq_bind, Option.bind_some]
  cases perform world avl (argument (faced cmds s) s) (verdict (faced cmds s) s).1 <;> rfl

/-- On the line `s` at `a`, which lies behind `l`, `shell_fnc` calls a function with an argument or
    rejects the line, and leaves a line on which it does the same and which then stays. A line that
    is trimmed, as those of the history are, is left trimmed. -/
def Replays (o : CObject) (a : ℤ) (l s : List UInt8) : Prop :=
  ∃ fnc p arg s' r' o' o'',
    (dispatch o cmds a = some ((fnc, p), o') ∧ o'.string p = some arg ∧
      ∀ world avl, shellFnc world avl o a =
        (perform world avl arg fnc).map (fun out => (out, o'))) ∧
    (o'.bytes = l ++ (s' ++ (0 :: r')) ∧ (0 : UInt8) ∉ s' ∧ (trim s = s → trim s' = s')) ∧
    (dispatch o' cmds a = some ((fnc, p), o'') ∧ o''.string p = some arg ∧
      ∀ world avl, shellFnc world avl o' a =
        (perform world avl arg fnc).map (fun out => (out, o''))) ∧
    o''.bytes = o'.bytes

/-- **Dispatching can be repeated.** -/
theorem shellFnc_replays (hb : o.bytes = l ++ (s ++ (0 :: r))) (ha : a = l.length)
    (hs : (0 : UInt8) ∉ s) : Replays o a l s := by
  obtain ⟨o', junk, hd, hstring, hb', -, hcall⟩ := shellFnc_eq hb ha hs
  obtain ⟨o'', junk', hd', hstring', hb'', hlen, hcall'⟩ :=
    shellFnc_eq hb' ha (nul_not_mem_left hs)
  rw [faced_left, left_left] at hb'' hlen
  rw [faced_left, verdict_left] at hd' hcall'
  rw [faced_left, verdict_left, argument_left] at hstring'
  rw [argument_left] at hcall'
  obtain rfl : junk' = [] := List.eq_nil_of_length_eq_zero (by omega)
  exact ⟨_, _, _, _, _, o', o'', ⟨hd, hstring, hcall⟩, ⟨hb', nul_not_mem_left hs, trim_left⟩,
    ⟨hd', hstring', hcall'⟩, by simpa [hb'] using hb''⟩

theorem shellFnc_replays_insert :
    Replays ⟨ascii "insert  a" ++ [0], []⟩ 0 [] (ascii "insert  a") :=
  shellFnc_replays (r := []) rfl rfl (by decide)

end CS238P.Words
