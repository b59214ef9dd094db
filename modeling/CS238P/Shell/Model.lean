import CS238P.Library.CObject

set_option autoImplicit false

/-! # The shell (`p3/shell.c`)

`shell` reads lines with `read_line` and hands each one that is not blank to its callback. The
lines are kept in `state.history`, and the line being typed is edited in place, in the slot that
will be its place in the history.

The object is `state` from `history` on: the `H` slots of `N` bytes each, and behind them `termios`.
An access outside it has no result. The `int`s are integers. What is printed is left out, and with
it the answer of the terminal to `location`, which only says where to print. -/

namespace CS238P.Shell

open CObject

/-- History slots. -/
def H : ℕ := 96

/-- Bytes per slot. -/
def N : ℕ := 160

/-- The place of `state.history[k]`. -/
def slot (k : ℤ) : ℤ := k * N

/-- `state`: the slot being edited, the newest slot, and the bytes from `history` on. Every index
    that was used into `history` is recorded. -/
structure State where
  i : ℤ
  n : ℤ
  mem : CObject
  indices : List ℤ
  deriving DecidableEq

/-- The locals of `read_line`: the cursor, the history slot last shown, the length. -/
structure Edit where
  i : ℤ
  j : ℤ
  n : ℤ
  deriving DecidableEq

/-- The local `buf` of `read_line`, which is `state.history[state.i]` as long as the line is
    edited. -/
def State.buf (st : State) : ℤ := slot st.i

/-- `state` when the program starts: zero but for `termios`, which `configure` has filled. -/
def State.zero (termios : List UInt8) : State :=
  ⟨0, 0, ⟨List.replicate (H * N) 0 ++ termios, []⟩, []⟩

/-! ## Characters -/

/-- `isspace` in the C locale. -/
def isspace (c : UInt8) : Bool := c == 32 || (9 ≤ c && c ≤ 13)

/-- `isprint` in the C locale. -/
def isprint (k : ℤ) : Bool := 32 ≤ k && k ≤ 126

/-- `(char)k`. -/
def toChar (k : ℤ) : UInt8 := UInt8.ofNat (k % 256).toNat

/-- `getchar`: the next byte, or EOF. -/
def getchar : List UInt8 → ℤ × List UInt8
  | [] => (-1, [])
  | b :: bs => (b.toNat, bs)

/-! ## `shell_strtrim` -/

/-- `while ((b <= e) && isspace(*b)) ++b`; the fuel bounds the distance from `b` to `e`. -/
def skipForward (o : CObject) (e : ℤ) : ℕ → ℤ → Option ℤ
  | 0, b => some b
  | fuel + 1, b =>
    if b ≤ e then do
      let c ← o.load b
      if isspace c then skipForward o e fuel (b + 1) else some b
    else some b

/-- `while ((e >= s) && isspace(*e)) --e`. -/
def skipBackward (o : CObject) (s : ℤ) : ℕ → ℤ → Option ℤ
  | 0, e => some e
  | fuel + 1, e =>
    if s ≤ e then do
      let c ← o.load e
      if isspace c then skipBackward o s fuel (e - 1) else some e
    else some e

def strtrim (o : CObject) (s : ℤ) : Option CObject := do
  let len ← o.strlen s
  let b ← skipForward o (s + len - 1) len s
  let e ← skipBackward o s len (s + len - 1)
  let n := if b ≤ e then (e - b + 1).toNat else 0
  let o ← o.memmove s b n
  o.store (s + n) 0

/-! ## The keys -/

/-- The string of the slot `j` is copied into the slot being edited, if that is another one. -/
def copySlot (buf : ℤ) (mem : CObject) (j : ℤ) : Option CObject :=
  if buf ≠ slot j then mem.strncpy buf (slot j) N else some mem

/-- The up and down keys: the slot `j` is shown in place of the line. -/
def recallSlot (st : State) (j : ℤ) : Option (State × Edit) := do
  let mem ← st.mem.store st.buf 0
  let mem ← copySlot st.buf mem j
  let n ← mem.strlen st.buf
  some ⟨{ st with mem := mem, indices := st.indices ++ [j] }, ⟨n, j, n⟩⟩

/-- What follows an escape. -/
def arrow (st : State) (e : Edit) (k : ℤ) : Option (State × Edit) :=
  if k = 65 then if 0 < e.j then recallSlot st (e.j - 1) else some (st, e)
  else if k = 66 then if st.n > e.j then recallSlot st (e.j + 1) else some (st, e)
  else if k = 67 then some ⟨st, { e with i := if e.i < e.n then e.i + 1 else e.n }⟩
  else if k = 68 then some ⟨st, { e with i := if e.i > 0 then e.i - 1 else 0 }⟩
  else some (st, e)

/-- Control-K: the line ends at the cursor. -/
def kill (st : State) (e : Edit) : Option (State × Edit) := do
  let mem ← st.mem.store (st.buf + e.i) 0
  let n ← mem.strlen st.buf
  some ⟨{ st with mem := mem }, { e with i := n, n := n }⟩

/-- Control-D: the character at the cursor goes. -/
def delete (st : State) (e : Edit) : Option (State × Edit) :=
  if e.n > e.i then do
    let len ← st.mem.strlen (st.buf + e.i + 1)
    let mem ← st.mem.memmove (st.buf + e.i + 0) (st.buf + e.i + 1) (len + 1)
    some ⟨{ st with mem := mem }, { e with n := e.n - 1 }⟩
  else some (st, e)

/-- Backspace: the character before the cursor goes. -/
def backspace (st : State) (e : Edit) : Option (State × Edit) :=
  if 0 < e.i then do
    let len ← st.mem.strlen (st.buf + e.i)
    let mem ← st.mem.memmove (st.buf + e.i - 1) (st.buf + e.i + 0) (len + 1)
    some ⟨{ st with mem := mem }, { e with i := e.i - 1, n := e.n - 1 }⟩
  else some (st, e)

/-- A space or a tab, for which the string is moved with its terminator. -/
def insertSpace (st : State) (e : Edit) : Option (State × Edit) :=
  if N > e.n then do
    let len ← st.mem.strlen (st.buf + e.i)
    let mem ← st.mem.memmove (st.buf + e.i + 1) (st.buf + e.i + 0) (len + 1)
    let mem ← mem.store (st.buf + e.i) 32
    some ⟨{ st with mem := mem }, { e with i := e.i + 1, n := e.n + 1 }⟩
  else some (st, e)

/-- What is behind the cursor makes room for a character; its terminator stays where it is. -/
def shift (st : State) (e : Edit) : Option CObject :=
  if e.i < e.n then do
    let len ← st.mem.strlen (st.buf + e.i)
    st.mem.memmove (st.buf + e.i + 1) (st.buf + e.i + 0) len
  else some st.mem

/-- Any other character, for which the terminator is written anew. -/
def insertChar (st : State) (e : Edit) (k : ℤ) : Option (State × Edit) :=
  if e.n + 1 < N then do
    let mem ← shift st e
    let mem ← mem.store (st.buf + e.i) (toChar k)
    let mem ← mem.store (st.buf + (e.n + 1)) 0
    some ⟨{ st with mem := mem }, { e with i := e.i + 1, n := e.n + 1 }⟩
  else some (st, e)

/-- A key that neither starts an escape sequence nor ends the line. -/
def key (st : State) (e : Edit) (k : ℤ) : Option (State × Edit) :=
  if 11 = k then kill st e
  else if 12 = k then some (st, e)
  else if 4 = k then delete st e
  else if 8 = k ∨ 127 = k then backspace st e
  else if 32 = k ∨ 9 = k then insertSpace st e
  else if isprint k then insertChar st e k
  else some (st, e)

/-! ## `read_line` -/

/-- Up to the loop. The record of writes starts anew. -/
def enter (st : State) : Option (State × Edit) := do
  let st : State := { st with
    i := st.n
    indices := st.indices ++ [st.n]
    mem := { st.mem with written := [] } }
  let n ← st.mem.strlen st.buf
  some (st, ⟨n, st.n, n⟩)

/-- One turn of the loop, with what it leaves to be read; `none` in place of the locals is the
    `break`. The test for `'\n'` stands in front of those it cannot pass. -/
def loopBody (st : State) (e : Edit) (input : List UInt8) :
    Option ((State × Option Edit) × List UInt8) :=
  let k := getchar input
  if 27 = k.1 then
    let k := getchar (getchar k.2).2
    (arrow st e k.1).map fun r => ((r.1, some r.2), k.2)
  else if 10 = k.1 then some ((st, none), k.2)
  else (key st e k.1).map fun r => ((r.1, some r.2), k.2)

/-- Behind the loop: whether a line is returned, and not NULL. -/
def commit (st : State) : Option (State × Bool) := do
  let mem ← strtrim st.mem st.buf
  let len ← mem.strlen st.buf
  if len ≠ 0 then
    if st.i = st.n then
      let n := st.n + 1
      let n := if H > n then n else H
      let mem ← mem.store (slot n) 0
      some ⟨{ st with n := n, mem := mem, indices := st.indices ++ [n] }, true⟩
    else some ⟨{ st with mem := mem }, true⟩
  else some ⟨{ st with mem := mem }, false⟩

/-- Where a call of `read_line` is: at the top of its loop, or back in its caller. -/
inductive Call where
  | editing (st : State) (e : Edit) (input : List UInt8)
  | returned (st : State) (line : Bool) (input : List UInt8)
  deriving DecidableEq

/-- One turn of the loop, with what stands behind the loop when it was the last one. -/
def Call.turn : Call → Option Call
  | .editing st e input => do
      let r ← loopBody st e input
      match r.1.2 with
      | some e => some (.editing r.1.1 e r.2)
      | none => do
          let c ← commit r.1.1
          some (.returned c.1 c.2 r.2)
  | .returned st line input => some (.returned st line input)

/-- What a call of `read_line` has come to after so many turns of its loop. -/
def readLine (st : State) (input : List UInt8) : ℕ → Option Call
  | 0 => do
      let r ← enter st
      some (.editing r.1 r.2 input)
  | k + 1 => do
      let c ← readLine st input k
      c.turn

/-! ## `shell` -/

/-- Where `shell` is: about to call `read_line`, at the top of its loop, about to call `fnc` with
    the line it returned, or back in its caller. -/
inductive Point where
  | reading
  | editing (e : Edit)
  | calling
  | returned
  deriving DecidableEq

/-- A running shell, with what is still to be typed and the number of calls of `fnc`. -/
structure Session where
  state : State
  input : List UInt8
  calls : ℕ
  point : Point
  deriving DecidableEq

/-- The callback. It may be different at every call, and may write over the characters of the
    string it is given, but not over its terminator: what it returns, and the characters it
    leaves. -/
abbrev Fnc := ℕ → List UInt8 → ℤ × List UInt8

def step (fnc : Fnc) (sh : Session) : Option Session :=
  match sh.point with
  | .reading => do
      let r ← enter sh.state
      some { sh with state := r.1, point := .editing r.2 }
  | .editing e => do
      let r ← loopBody sh.state e sh.input
      match r.1.2 with
      | some e => some { sh with state := r.1.1, input := r.2, point := .editing e }
      | none => do
          let c ← commit r.1.1
          some { sh with
            state := c.1
            input := r.2
            point := if c.2 then .calling else .reading }
  | .calling => do
      let len ← sh.state.mem.strlen sh.state.buf
      let s ← sh.state.mem.read sh.state.buf len
      let r := fnc sh.calls s
      let mem ← sh.state.mem.write sh.state.buf (Bytes.overwrite s (r.2.take len))
      some { sh with
        state := { sh.state with mem := mem }
        calls := sh.calls + 1
        point := if r.1 ≠ 0 then .returned else .reading }
  | .returned => some sh

/-- The states of a run of `shell`. -/
inductive Reaches (fnc : Fnc) (sh₀ : Session) : Session → Prop
  | start : Reaches fnc sh₀ sh₀
  | step {sh sh' : Session} (h : Reaches fnc sh₀ sh) (hs : step fnc sh = some sh') :
      Reaches fnc sh₀ sh'

end CS238P.Shell
