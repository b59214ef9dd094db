import CS238P.Sched.Turns

set_option autoImplicit false

/-! # `destroy`

The loop of `destroy` frees the threads of the list, from the newest on. When the list ends with
NULL each is freed once; a thread that `scheduler_create` freed and left in the list is accessed.
Without a thread, `free` gets a pointer that was never set. -/

namespace CS238P.Sched

variable {state : State} {p q : Ptr} {ts : List ℕ} {t : ℕ} {thread : Thread}
  {Q : Bool → State → Prop} {E : Fault → State → Prop}

/-! ## The loop -/

/-- The state with the threads `ts` freed. -/
def State.release (state : State) (ts : List ℕ) : State :=
  { state with threads := state.threads.mapIdx fun t thread =>
      { thread with freed := thread.freed || decide (t ∈ ts) } }

@[simp]
theorem release_nil : state.release [] = state := by
  have hthreads : (state.release []).threads = state.threads := by
    refine List.ext_getElem? fun t => ?_
    simp [State.release, Option.map_id']
  cases state
  simpa [State.release] using hthreads

theorem get_release (ht : state.threads[t]? = some thread) :
    (state.release ts).threads[t]? =
      some { thread with freed := thread.freed || decide (t ∈ ts) } := by
  simp [State.release, ht]

theorem release_cons (ht : state.threads[t]? = some thread) :
    (state.put t { thread with freed := true }).release ts = state.release (t :: ts) := by
  have hthreads : ((state.put t { thread with freed := true }).release ts).threads =
      (state.release (t :: ts)).threads := by
    refine List.ext_getElem? fun b => ?_
    by_cases hbt : b = t
    · subst hbt
      rw [get_release ht, get_release (get_set ht _)]
      simp
    · simp [State.release, State.put, List.getElem?_set_ne (Ne.symm hbt), hbt]
  cases state
  simpa [State.release, State.put] using hthreads

/-- A thread of the list is freed. -/
theorem destroyLoop_cons {fuel : ℕ} {temp : Bool} (ht : state.threads[t]? = some thread)
    (hf : thread.freed = false)
    (h : wp (destroyLoop fuel thread.link true) Q E (state.put t { thread with freed := true })) :
    wp (destroyLoop (fuel + 1) (some t) temp) Q E state :=
  wp.bind (deref_wp ht hf (wp.bind (update_wp ht hf h)))

/-- The loop frees the threads that the links lead through, and goes on behind them. -/
theorem destroyLoop_linked {fuel : ℕ} {temp : Bool} (h : Linked state.threads p ts q)
    (hn : ts.Nodup)
    (hrest : wp (destroyLoop fuel q (temp || !ts.isEmpty)) Q E (state.release ts)) :
    wp (destroyLoop (ts.length + fuel) p temp) Q E state := by
  induction ts generalizing state p temp with
  | nil =>
      obtain rfl : p = q := h
      simpa using hrest
  | cons t ts ih =>
      obtain ⟨rfl, thread, ht, hf, hts⟩ := h
      obtain ⟨hnt, hn⟩ := List.nodup_cons.1 hn
      rw [List.length_cons, Nat.add_right_comm]
      refine destroyLoop_cons ht hf (ih ?_ hn ?_)
      · -- the threads behind are others
        refine hts.congr fun b hb old hold => ⟨old, ?_, rfl, rfl⟩
        have hne : t ≠ b := fun heq => hnt (by rwa [heq])
        rw [State.put, List.getElem?_set_ne hne, hold]
      · rw [release_cons ht]
        simpa using hrest

/-! ## The whole list -/

/-- **A list that ends with NULL is freed**, if it has a thread. -/
theorem destroy_wp (h : Linked state.threads state.head ts none) :
    wp destroy
      (fun _ state' => ts ≠ [] ∧
        state' = { state.release ts with head := none, curThread := none })
      (fun e _ => ts = [] ∧ e = .uninitialised) state := by
  refine wp.bind (wp.getState (wp.bind ?_))
  have hfuel : state.threads.length + 1 =
      ts.length + (state.threads.length - ts.length + 1) := by
    have := h.length_le
    omega
  rw [hfuel]
  refine destroyLoop_linked h h.nodup ?_
  cases ts with
  | nil => exact ⟨rfl, rfl⟩
  | cons t ts => exact ⟨by simp, rfl⟩

/-- The list leads to a freed thread. -/
def State.Dangles (state : State) : Prop :=
  ∃ ts t thread, Linked state.threads state.head ts (some t) ∧
    state.threads[t]? = some thread ∧ thread.freed = true

/-- A list that leads to a freed thread is freed up to that one, which is accessed. -/
theorem State.Dangles.destroy_wp (h : state.Dangles) :
    wp destroy (fun _ _ => False) (fun e _ => e = .freed) state := by
  obtain ⟨ts, t, thread, hts, ht, hf⟩ := h
  have hends : Ends state.threads (some t) := by
    intro b old hb hold
    obtain rfl := Option.some.inj hb
    obtain rfl := Option.some.inj (ht.symm.trans hold)
    exact hf
  refine wp.bind (wp.getState (wp.bind ?_))
  have hfuel : state.threads.length + 1 =
      ts.length + (state.threads.length - ts.length + 1) := by
    have := hts.length_le_of_ends hends
    omega
  rw [hfuel]
  refine destroyLoop_linked hts (hts.nodup_of_ends hends) ?_
  have hget : (state.release ts).threads[t]? =
      some { thread with freed := thread.freed || decide (t ∈ ts) } := get_release ht
  have hderef : wp (deref (some t)) (fun _ _ => False) (fun e _ => e = .freed)
      (state.release ts) := by
    refine wp.bind (wp.getState ?_)
    simp only [hget, hf]
    rfl
  exact wp.bind (hderef.mono (fun _ _ h => h.elim) fun _ _ h => h)

/-! ## After `scheduler_create` -/

/-- Every call that got a thread got a stack. -/
def Supplied (calls : List CreateCall) : Prop :=
  ∀ call ∈ calls, call.mallocThread = true → call.mallocStack = true

/-- What `scheduler_create` leaves: the list of all threads, or one that leads to a freed thread. -/
structure Created (calls : List CreateCall) (ts : List ℕ) (state : State) : Prop where
  allocated : state.threads.length = calls.countP (·.mallocThread)
  lists : Supplied calls → Lists state ts ∧ ∀ t < state.threads.length, t ∈ ts
  dangles : ¬ Supplied calls → state.Dangles

variable {calls : List CreateCall} {call : CreateCall}

theorem supplied_append : Supplied (calls ++ [call]) ↔
    Supplied calls ∧ (call.mallocThread = true → call.mallocStack = true) := by
  rw [Supplied, List.forall_mem_append, List.forall_mem_singleton]
  rfl

/-- A thread in front of the list. -/
theorem State.Dangles.cons (h : state.Dangles) (hlink : thread.link = state.head) :
    State.Dangles { state with
      threads := state.threads ++ [thread], head := some state.threads.length } := by
  obtain ⟨ts, t, old, hts, ht, hf⟩ := h
  have hold {b : ℕ} {old : Thread} (hb : state.threads[b]? = some old) :
      (state.threads ++ [thread])[b]? = some old := by
    rw [List.getElem?_append_left (List.getElem?_eq_some_iff.1 hb).1, hb]
  cases hfreed : thread.freed with
  | true => exact ⟨[], _, thread, rfl, List.getElem?_concat_length, hfreed⟩
  | false =>
      refine ⟨state.threads.length :: ts, t, old, ⟨rfl, thread, List.getElem?_concat_length, hfreed,
        ?_⟩, hold ht, hf⟩
      rw [hlink]
      exact hts.congr fun b _ old hb => ⟨old, hold hb, rfl, rfl⟩

/-- One call more. -/
theorem Created.step (h : Created calls ts state) :
    wp (schedulerCreate call.mallocThread call.mallocStack call.saved)
      (fun r state' => Created (calls ++ [call])
        (if r = 0 then state.threads.length :: ts else ts) state') (fun _ _ => False) state := by
  obtain ⟨mallocThread, mallocStack, saved⟩ := call
  cases mallocThread with
  | false =>
      refine (schedulerCreate_no_thread state mallocStack saved).mono ?_ fun _ _ h => h
      intro r state' hstate'
      obtain ⟨rfl, rfl⟩ := hstate'
      exact ⟨by simpa using h.allocated, fun hs => h.lists (supplied_append.1 hs).1,
        fun hs => h.dangles fun hcalls => hs (supplied_append.2 ⟨hcalls, by simp⟩)⟩
  | true =>
      cases mallocStack with
      | false =>
          refine (schedulerCreate_no_stack state saved).mono ?_ fun _ _ h => h
          intro r state' hstate'
          obtain ⟨rfl, rfl⟩ := hstate'
          refine ⟨by simp [h.allocated], fun hs => ?_, fun _ => ?_⟩
          · simpa using (supplied_append.1 hs).2
          · exact ⟨[], _, _, rfl, List.getElem?_concat_length, rfl⟩
      | true =>
          refine (schedulerCreate_wp state saved).mono ?_ fun _ _ h => h
          intro r state' hstate'
          obtain ⟨rfl, rfl⟩ := hstate'
          refine ⟨by simp [h.allocated], fun hs => ?_, fun hs => ?_⟩
          · obtain ⟨hlists, hall⟩ := h.lists (supplied_append.1 hs).1
            refine ⟨hlists.cons rfl rfl rfl rfl, fun t ht => ?_⟩
            rw [List.length_append, List.length_singleton, Nat.lt_succ_iff] at ht
            rw [if_pos rfl, List.mem_cons]
            exact ht.eq_or_lt.imp id (hall t)
          · exact (h.dangles fun hcalls => hs (supplied_append.2 ⟨hcalls, by simp⟩)).cons rfl

theorem creates_created (calls : List CreateCall) :
    wp (creates calls []) (Created calls) (fun _ _ => False) .zero := by
  induction calls using List.reverseRecOn with
  | nil => exact ⟨rfl, fun _ => ⟨Lists.zero, by simp [State.zero]⟩, fun hs => absurd nofun hs⟩
  | append_singleton calls call ih =>
      rw [creates_append]
      refine wp.bind (ih.mono (fun ts state h => ?_) fun _ _ h => h)
      exact wp.bind (wp.getState (wp.bind h.step))

/-- Every thread that was allocated is freed, and nothing leads to one. -/
structure Released (calls : List CreateCall) (state : State) : Prop where
  allocated : state.threads.length = calls.countP (·.mallocThread)
  freed : ∀ thread ∈ state.threads, thread.freed = true
  head : state.head = none
  curThread : state.curThread = none

/-- **`destroy` frees every thread once** exactly when there is one and every thread has got its
    stack. Without a thread it frees an unset pointer, and after a call that got a thread and no
    stack it accesses that thread, which has been freed. -/
theorem creates_destroy (calls : List CreateCall) :
    wp (creates calls [] >>= fun _ => destroy)
      (fun _ state => Supplied calls ∧ (∃ call ∈ calls, call.mallocThread = true) ∧
        Released calls state)
      (fun e _ => (e = .uninitialised ∧ ∀ call ∈ calls, call.mallocThread = false) ∨
        (e = .freed ∧ ¬ Supplied calls)) .zero := by
  refine wp.bind ((creates_created calls).mono (fun ts state h => ?_) fun _ _ h => h.elim)
  by_cases hs : Supplied calls
  · obtain ⟨hlists, hall⟩ := h.lists hs
    refine (Sched.destroy_wp hlists.linked).mono (fun _ state' h' => ?_) fun e _ h' => Or.inl ?_
    · obtain ⟨hne, rfl⟩ := h'
      refine ⟨hs, ?_, by simpa [State.release] using h.allocated, ?_, rfl, rfl⟩
      · obtain ⟨t, ht⟩ := List.exists_mem_of_ne_nil ts hne
        obtain ⟨thread, hget, -⟩ := hlists.linked.thread ht
        rw [← List.countP_pos_iff, ← h.allocated]
        exact Nat.zero_lt_of_lt (List.getElem?_eq_some_iff.1 hget).1
      · intro thread hmem
        obtain ⟨t, ht, rfl⟩ := List.mem_mapIdx.1 hmem
        simp [hall t ht]
    · obtain ⟨rfl, rfl⟩ := h'
      have hlen : calls.countP (·.mallocThread) = 0 := by
        rw [← h.allocated]
        exact Nat.eq_zero_of_not_pos fun hpos => by simpa using hall 0 hpos
      exact ⟨rfl, by simpa using List.countP_eq_zero.1 hlen⟩
  · exact (h.dangles hs).destroy_wp.mono (fun _ _ h => h.elim) fun e _ he => Or.inr ⟨he, hs⟩

end CS238P.Sched
