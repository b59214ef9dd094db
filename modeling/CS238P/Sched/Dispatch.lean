import CS238P.Sched.Create

set_option autoImplicit false

/-! # The first dispatch

`scheduler_execute` calls `schedule` before any thread has run, and `thread_candidate` starts at
`state.cur_thread->link`. Nothing has set `state.cur_thread` by then, whatever threads were created
and also if there are none: the very first dispatch reads through NULL. -/

namespace CS238P.Sched

variable {state : State}

/-! ## What `scheduler.h` documents -/

/-- No `thread_candidate` reads through a NULL `state.cur_thread`, and when `scheduler_execute`
    returns, every thread has terminated and the list is gone. -/
structure Documented (fncs : List ℕ) : Prop where
  noNull : ∀ point state, Reaches (.main fncs) .zero point state →
    ∀ state', step point state ≠ .error .nullCurThread state'
  finished : ∀ state, Reaches (.main fncs) .zero .returned state →
    (∀ thread ∈ state.threads, thread.status = .terminated) ∧ state.head = none

/-- Creating threads sets no `state.cur_thread`. -/
theorem reaches_first {point₀ : Point} {state₀ : State} (todo : List ℕ) (state : State)
    (h : Reaches point₀ state₀ (.main todo) state) (hcur : state.curThread = none) :
    ∃ state', Reaches point₀ state₀ .first state' ∧ state'.curThread = none := by
  induction todo generalizing state with
  | nil => exact ⟨{ state with ctx := some .second }, h.step rfl, hcur⟩
  | cons yields todo ih =>
      have hstep : wp (step (.main (yields :: todo)))
          (fun point state' => point = .main todo ∧ state'.curThread = none) (fun _ _ => False)
          state := by
        refine wp.bind ((schedulerCreate_wp state _).mono ?_ (fun _ _ h => h))
        rintro _ _ ⟨-, rfl⟩
        exact ⟨rfl, hcur⟩
      obtain ⟨point, state', hs, rfl, hcur'⟩ := hstep.returns
      exact ih state' (h.step hs) hcur'

/-- The first dispatch without a `state.cur_thread`. -/
theorem step_first_null (hcur : state.curThread = none) :
    step .first state = .error .nullCurThread state := by
  have hcandidate : threadCandidate state = .error .nullCurThread state := by
    cases state
    cases hcur
    rfl
  show EStateM.bind schedule _ state = _
  rw [EStateM.bind]
  have hschedule : schedule state = .error .nullCurThread state := by
    show EStateM.bind threadCandidate _ state = _
    rw [EStateM.bind, hcandidate]
  rw [hschedule]

theorem reaches_null (fncs : List ℕ) :
    ∃ point state, Reaches (.main fncs) .zero point state ∧
      step point state = .error .nullCurThread state := by
  obtain ⟨state, hreach, hcur⟩ := reaches_first fncs .zero .start rfl
  exact ⟨.first, state, hreach, step_first_null hcur⟩

/-- **`scheduler_execute` never does what is documented**: whatever threads were created, the first
    dispatch reads through NULL. -/
theorem not_documented (fncs : List ℕ) : ¬ Documented fncs := by
  intro h
  obtain ⟨point, state, hreach, hnull⟩ := reaches_null fncs
  exact h.noNull point state hreach state hnull

/-- Two threads, one of which yields. -/
theorem two_threads_not_documented : ¬ Documented [1, 0] := by
  intro h
  obtain ⟨point, state, hreach, hnull⟩ := reaches_null [1, 0]
  exact h.noNull point state hreach state hnull

end CS238P.Sched
