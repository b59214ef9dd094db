import CS238P.Sched.ThreadList
import Mathlib.Data.List.Infix

set_option autoImplicit false

/-! # `scheduler_create`

The new thread is put in front of the list before its stack is allocated. When there is no stack for
it, the thread is freed and stays where it is: the list then begins with a freed thread. -/

namespace CS238P.Sched

variable {threads : List Thread} {thread thread' : Thread} {state : State} {ts : List ℕ}

/-! ## One call -/

/-- An access to the newest thread. -/
theorem set_newest :
    (threads ++ [thread]).set threads.length thread' = threads ++ [thread'] := by
  rw [List.set_append_right _ _ le_rfl, Nat.sub_self]
  rfl

/-- **A thread is created** at the front of the list, with the point behind its `setjmp` saved. -/
theorem schedulerCreate_wp (state : State) (saved : ℕ → Point) :
    wp (schedulerCreate true true saved)
      (fun r state' => r = 0 ∧ state' = { state with
        threads := state.threads ++
          [⟨some (saved state.threads.length), .created, true, state.head, false⟩]
        head := some state.threads.length })
      (fun _ _ => False) state := by
  refine wp.bind (wp.getState (wp.bind (wp.modifyState ?_)))
  have hstack : wp (update (some state.threads.length) fun thread =>
      { thread with stack := true }) (fun _ state' => state' = { state with
        threads := state.threads ++ [⟨none, .created, true, state.head, false⟩]
        head := some state.threads.length }) (fun _ _ => False)
      { state with
        threads := state.threads ++ [⟨none, .created, false, state.head, false⟩]
        head := some state.threads.length } := by
    refine update_wp List.getElem?_concat_length rfl ?_
    simp only [set_newest]
  refine wp.bind (hstack.mono ?_ (fun _ _ h => h))
  rintro _ _ rfl
  refine wp.bind (update_wp List.getElem?_concat_length rfl ?_)
  simp only [set_newest]
  exact ⟨rfl, rfl⟩

/-- Without a stack the thread is freed, and `state.head` is left on it. -/
theorem schedulerCreate_no_stack (state : State) (saved : ℕ → Point) :
    wp (schedulerCreate true false saved)
      (fun r state' => r = -1 ∧ state' = { state with
        threads := state.threads ++ [⟨none, .created, false, state.head, true⟩]
        head := some state.threads.length })
      (fun _ _ => False) state := by
  refine wp.bind (wp.getState (wp.bind (wp.modifyState ?_)))
  refine wp.bind (update_wp List.getElem?_concat_length rfl ?_)
  simp only [set_newest]
  exact ⟨rfl, rfl⟩

/-- Without a thread nothing changes. -/
theorem schedulerCreate_no_thread (state : State) (mallocStack : Bool) (saved : ℕ → Point) :
    wp (schedulerCreate false mallocStack saved) (fun r state' => r = -1 ∧ state' = state)
      (fun _ _ => False) state :=
  ⟨rfl, rfl⟩

/-! ## The list -/

/-- The list is that of the threads `ts`, and each of them has a stack and has not run. -/
structure Lists (state : State) (ts : List ℕ) : Prop where
  linked : Linked state.threads state.head ts none
  fresh : ∀ t ∈ ts, ∃ thread, state.threads[t]? = some thread ∧ thread.stack = true ∧
    thread.status = .created

theorem Lists.zero : Lists .zero [] := ⟨rfl, by simp⟩

/-- A thread in front of the list. -/
theorem Lists.cons (h : Lists state ts) (hlink : thread.link = state.head)
    (hf : thread.freed = false) (hstack : thread.stack = true) (hst : thread.status = .created) :
    Lists { state with threads := state.threads ++ [thread], head := some state.threads.length }
      (state.threads.length :: ts) := by
  have hold {t : ℕ} {old : Thread} (ht : state.threads[t]? = some old) :
      (state.threads ++ [thread])[t]? = some old := by
    rw [List.getElem?_append_left (List.getElem?_eq_some_iff.1 ht).1, ht]
  constructor
  · refine ⟨rfl, thread, List.getElem?_concat_length, hf, ?_⟩
    rw [hlink]
    exact h.linked.congr fun t _ old ht => ⟨old, hold ht, rfl, rfl⟩
  · refine List.forall_mem_cons.2 ⟨⟨thread, List.getElem?_concat_length, hstack, hst⟩, ?_⟩
    intro t ht
    obtain ⟨old, hget, hfresh⟩ := h.fresh t ht
    exact ⟨old, hold hget, hfresh⟩

/-- A list does not begin with a freed thread. -/
theorem Lists.head_not_freed {t : ℕ} (h : Lists state ts) (hhead : state.head = some t)
    (ht : state.threads[t]? = some thread) : thread.freed = false := by
  have hts := h.linked
  rw [hhead] at hts
  cases ts with
  | nil => exact absurd hts (by simp [Linked])
  | cons t' ts =>
      obtain ⟨heq, thread', ht', hf, -⟩ := hts
      obtain rfl := Option.some.inj heq
      obtain rfl := Option.some.inj (ht.symm.trans ht')
      exact hf

/-! ## Calls one after the other -/

/-- A call: whether its allocations succeed, and the points that its `setjmp` would save. -/
structure CreateCall where
  mallocThread : Bool
  mallocStack : Bool
  saved : ℕ → Point

/-- Does the calls. The result is the threads of the calls that returned 0, the newest first, in
    front of `ts`. -/
def creates : List CreateCall → List ℕ → M (List ℕ)
  | [], ts => pure ts
  | call :: calls, ts => do
      let state ← get
      let r ← schedulerCreate call.mallocThread call.mallocStack call.saved
      creates calls (if r = 0 then state.threads.length :: ts else ts)

/-- After each of the calls the list is that of the threads whose call returned 0; so a call that
    returns -1 leaves it as it was. -/
def Maintains (calls : List CreateCall) : Prop :=
  ∀ done, done <+: calls → ∃ ts state, creates done [] .zero = .ok ts state ∧ Lists state ts

variable {call : CreateCall} {calls : List CreateCall}

theorem creates_append (xs ys : List CreateCall) (ts : List ℕ) :
    creates (xs ++ ys) ts = creates xs ts >>= creates ys := by
  induction xs generalizing ts with
  | nil => simp [creates]
  | cons x xs ih => simp [creates, ih]

theorem creates_wp (h : Lists state ts)
    (hcalls : ∀ call ∈ calls, call.mallocThread = true → call.mallocStack = true) :
    wp (creates calls ts) (fun ts' state' => Lists state' ts') (fun _ _ => False) state := by
  induction calls generalizing state ts with
  | nil => exact h
  | cons call calls ih =>
      obtain ⟨mallocThread, mallocStack, saved⟩ := call
      rw [List.forall_mem_cons] at hcalls
      obtain ⟨hcall, hcalls⟩ := hcalls
      refine wp.bind (wp.getState (wp.bind ?_))
      cases mallocThread with
      | false =>
          refine (schedulerCreate_no_thread state mallocStack saved).mono ?_ fun _ _ h => h
          rintro r _ ⟨rfl, rfl⟩
          exact ih h hcalls
      | true =>
          obtain rfl : mallocStack = true := hcall rfl
          refine (schedulerCreate_wp state saved).mono ?_ fun _ _ h => h
          rintro r _ ⟨rfl, rfl⟩
          exact ih (h.cons rfl rfl rfl rfl) hcalls

/-- After a call without a stack there is no list. -/
theorem creates_not_lists {done : List CreateCall} {state' : State} {ts' : List ℕ}
    (hcall : ¬ (call.mallocThread = true → call.mallocStack = true))
    (hdone : creates done [] .zero = .ok ts state)
    (hrun : creates (done ++ [call]) [] .zero = .ok ts' state') : ¬ Lists state' ts' := by
  obtain ⟨mallocThread, mallocStack, saved⟩ := call
  obtain ⟨rfl, hstack⟩ := Classical.not_imp.1 hcall
  obtain rfl : mallocStack = false := Bool.eq_false_of_not_eq_true hstack
  have hwp : wp (creates (done ++ [⟨true, false, saved⟩]) [])
      (fun ts' state' => ¬ Lists state' ts') (fun _ _ => False) .zero := by
    rw [creates_append]
    refine wp.bind (wp.of_ok hdone (wp.bind (wp.getState (wp.bind ?_))))
    refine (schedulerCreate_no_stack state saved).mono ?_ fun _ _ h => h
    rintro r _ ⟨rfl, rfl⟩ hlists
    exact absurd (hlists.head_not_freed rfl List.getElem?_concat_length) (by simp)
  exact hwp.ok hrun

/-- **The list is that of the threads whose call returned 0** exactly as long as no stack allocation
    has failed behind a thread allocation that succeeded. -/
theorem maintains_iff (calls : List CreateCall) :
    Maintains calls ↔ ∀ call ∈ calls, call.mallocThread = true → call.mallocStack = true := by
  constructor
  · intro h call hmem
    by_contra hcall
    obtain ⟨done, rest, rfl⟩ := List.mem_iff_append.1 hmem
    obtain ⟨ts, state, hdone, -⟩ := h done (List.prefix_append ..)
    obtain ⟨ts', state', hrun, hlists⟩ := h (done ++ [call]) (by simp)
    exact creates_not_lists hcall hdone hrun hlists
  · intro hcalls done hdone
    exact (creates_wp Lists.zero fun call hmem => hcalls call (hdone.subset hmem)).returns

/-- A thread for which there is no stack. -/
theorem no_stack_not_maintains : ¬ Maintains [⟨true, false, fun t => .body t 0 []⟩] := by
  intro h
  obtain ⟨ts, state, hrun, hlists⟩ := h ([] ++ [_]) List.prefix_rfl
  exact creates_not_lists (by simp) rfl hrun hlists

end CS238P.Sched
