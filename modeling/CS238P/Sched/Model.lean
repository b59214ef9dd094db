import CS238P.Library.Wp
import Mathlib.Data.Nat.Notation
import Mathlib.Algebra.Order.Group.Unbundled.Int

set_option autoImplicit false

/-! # The thread scheduler (`p2/scheduler.c`)

Function by function, on the threads that `malloc` has handed out. `setjmp` and `longjmp` are saved
control points (`Point`): a `longjmp` goes on at the point that the `setjmp` on the same buffer
saved. A thread function is the number of times it yields; what it computes is left out, and so is
where its stack is, which the code allocates and never switches to.

What the code does after an access through NULL, to a thread that was freed or through a pointer
that was never set is not said: such a step ends in a `Fault`. -/

namespace CS238P.Sched

/-- The member `status` of `struct thread`. -/
inductive Status where
  /-- `STATUS_` -/
  | created
  | running
  | sleeping
  | terminated
  deriving DecidableEq

/-- A pointer to a thread: the number of the `malloc` that returned it. -/
abbrev Ptr := Option ℕ

/-- Where control is, and what is still to be done from there: `main` has threads to create, the
    thread function of `thread` runs, called in the `scheduler_create` behind which `main` goes on
    with `todo`, and `scheduler_execute` is at its first `schedule`, or at its second one, or has
    returned. -/
inductive Point where
  | main (todo : List ℕ)
  | body (thread yields : ℕ) (todo : List ℕ)
  | first
  | second
  | returned
  deriving DecidableEq

/-- `struct thread`. A freed one keeps its members, so that one can say what they were. -/
structure Thread where
  ctx : Option Point
  status : Status
  /-- `stack.memory_` is set. -/
  stack : Bool
  link : Ptr
  freed : Bool
  deriving DecidableEq

/-- The static `state`, and the threads allocated so far. -/
structure State where
  threads : List Thread
  head : Ptr
  curThread : Ptr
  ctx : Option Point
  deriving DecidableEq

def State.zero : State := ⟨[], none, none, none⟩

inductive Fault where
  /-- `state.cur_thread->link` with `state.cur_thread` NULL -/
  | nullCurThread
  /-- another access through NULL -/
  | null
  /-- an access to a freed thread -/
  | freed
  /-- `free(temp)` with `temp` never set -/
  | uninitialised
  /-- a `longjmp` to a buffer that no `setjmp` has filled -/
  | noContext
  /-- a loop that does not end -/
  | diverges
  deriving DecidableEq

abbrev M := EStateM Fault State

/-- `*p`. -/
def deref (p : Ptr) : M Thread := do
  let state ← get
  match p with
  | none => throw .null
  | some t =>
      match state.threads[t]? with
      | none => throw .null
      | some thread => if thread.freed then throw .freed else pure thread

/-- Writes the members of `*p`. -/
def update (p : Ptr) (f : Thread → Thread) : M Unit := do
  let thread ← deref p
  match p with
  | none => throw .null
  | some t => modify fun state => { state with threads := state.threads.set t (f thread) }

/-- The `do` loop of `thread_candidate`; the fuel bounds the number of threads. -/
def candidateLoop (stop : Ptr) : ℕ → Ptr → M Ptr
  | 0, _ => throw .diverges
  | fuel + 1, start => do
      let state ← get
      let start := if start = none then state.head else start
      let thread ← deref start
      if thread.status = .created ∨ thread.status = .sleeping then pure start
      else if thread.link ≠ stop then candidateLoop stop fuel thread.link
      else pure none

def threadCandidate : M Ptr := do
  let state ← get
  match state.curThread with
  | none => throw .nullCurThread
  | some running => do
      let thread ← deref (some running)
      candidateLoop thread.link state.threads.length thread.link

/-- The loop of `destroy`. The result says whether `temp` was set, which is NULL after the loop. -/
def destroyLoop : ℕ → Ptr → Bool → M Bool
  | 0, _, _ => throw .diverges
  | fuel + 1, start, temp =>
      match start with
      | none => pure temp
      | some t => do
          let thread ← deref (some t)
          update (some t) fun thread => { thread with freed := true }
          destroyLoop fuel thread.link true

def destroy : M Unit := do
  let state ← get
  let temp ← destroyLoop (state.threads.length + 1) state.head false
  if temp then modify fun state => { state with head := none, curThread := none }
  else throw .uninitialised

/-- `scheduler_create`, up to its `setjmp`: whether each of the two allocations succeeds is given,
    and the point that `setjmp` saves for the new thread. -/
def schedulerCreate (mallocThread mallocStack : Bool) (saved : ℕ → Point) : M ℤ := do
  if mallocThread then do
    let state ← get
    let t := state.threads.length
    modify fun state => { state with
      threads := state.threads ++ [⟨none, .created, false, state.head, false⟩]
      head := some t }
    if mallocStack then do
      update (some t) fun thread => { thread with stack := true }
      update (some t) fun thread => { thread with ctx := some (saved t) }
      pure 0
    else do
      update (some t) fun thread => { thread with freed := true }
      pure (-1)
  else pure (-1)

/-- `schedule`: the point it jumps to, or nothing when it returns. -/
def schedule : M (Option Point) := do
  let next ← threadCandidate
  if next = none then pure none
  else do
    modify fun state => { state with curThread := next }
    update next fun thread => { thread with status := .running }
    let thread ← deref next
    match thread.ctx with
    | none => throw .noContext
    | some point => pure (some point)

/-- `scheduler_yield`, which the thread function goes on behind at `saved`: the point it jumps
    to. -/
def schedulerYield (saved : Point) : M Point := do
  let state ← get
  update state.curThread fun thread => { thread with ctx := some saved }
  update state.curThread fun thread => { thread with status := .sleeping }
  match state.ctx with
  | none => throw .noContext
  | some point => pure point

/-- From one point to the next, every allocation succeeding. -/
def step : Point → M Point
  | .main (yields :: todo) => do
      let _ ← schedulerCreate true true (fun t => .body t yields todo)
      pure (.main todo)
  | .main [] => do
      -- `setjmp(state.ctx)`, behind which the second `schedule` is next
      modify fun state => { state with ctx := some .second }
      pure .first
  | .first => do
      match ← schedule with
      | some point => pure point
      | none => do
          destroy
          pure .second
  | .second => do
      match ← schedule with
      | some point => pure point
      | none => pure .returned
  | .body t (yields + 1) todo => schedulerYield (.body t yields todo)
  | .body t 0 todo => do
      update (some t) fun thread => { thread with status := .terminated }
      pure (.main todo)
  | .returned => pure .returned

/-- The points of a run, with the state there. -/
inductive Reaches (point₀ : Point) (state₀ : State) : Point → State → Prop
  | start : Reaches point₀ state₀ point₀ state₀
  | step {point point' : Point} {state state' : State} (h : Reaches point₀ state₀ point state)
      (hs : step point state = .ok point' state') : Reaches point₀ state₀ point' state'

end CS238P.Sched
