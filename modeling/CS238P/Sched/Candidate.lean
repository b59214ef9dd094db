import CS238P.Sched.ThreadList
import CS238P.Library.RoundRobin

set_option autoImplicit false

/-! # `thread_candidate`

The loop of `thread_candidate` starts at the link of the running thread, goes on at the head of the
list where it comes to NULL, and stops where it comes to the link it started at. The threads it
looks at are those of the list, once around, and the running thread last; so what it returns is
`RoundRobin.next`. -/

namespace CS238P.Sched

variable {state : State} {stop p q : Ptr} {t cur fuel : ℕ} {w ts : List ℕ}

/-! ## The walk of the loop -/

/-- From the pointer `p` on, the loop looks at the threads `w` and then stops, if it selects none
    of them. -/
def Walk (state : State) (stop : Ptr) : Ptr → List ℕ → Prop
  | _, [] => True
  | p, t :: w => (if p = none then state.head else p) = some t ∧
      ∃ thread, state.threads[t]? = some thread ∧ thread.freed = false ∧
        (w = [] ↔ thread.link = stop) ∧ Walk state stop thread.link w

theorem candidateLoop_wp (hw : w ≠ []) (hfuel : w.length ≤ fuel) (h : Walk state stop p w) :
    wp (candidateLoop stop fuel p) (fun r state' => r = w.find? state.runnable ∧ state' = state)
      (fun _ _ => False) state := by
  induction w generalizing p fuel with
  | nil => exact absurd rfl hw
  | cons t w ih =>
      obtain ⟨hp, thread, ht, hf, hlast, hwalk⟩ := h
      rw [List.length_cons] at hfuel
      obtain ⟨fuel, rfl⟩ : ∃ k, fuel = k + 1 := ⟨fuel - 1, by omega⟩
      refine wp.bind (wp.getState ?_)
      simp only [hp]
      refine wp.bind (deref_wp ht hf ?_)
      by_cases hrun : thread.status = .created ∨ thread.status = .sleeping
      · rw [if_pos hrun, List.find?_cons_of_pos ((runnable_of_get ht).2 hrun)]
        exact ⟨rfl, rfl⟩
      rw [if_neg hrun, List.find?_cons_of_neg (fun h => hrun ((runnable_of_get ht).1 h))]
      by_cases hnil : w = []
      · rw [if_neg (not_not.2 (hlast.1 hnil)), hnil]
        exact ⟨rfl, rfl⟩
      · rw [if_pos (fun h => hnil (hlast.2 h))]
        exact ih hnil (by omega) hwalk

/-- A part of the list that the loop goes along before it comes to the rest of its walk. -/
theorem Walk.append (hts : Linked state.threads p ts q) (hstop : ∀ t ∈ ts.tail, some t ≠ stop)
    (hq : w = [] ↔ q = stop) (h : Walk state stop q w) : Walk state stop p (ts ++ w) := by
  induction ts generalizing p with
  | nil =>
      obtain rfl := hts
      exact h
  | cons t ts ih =>
      obtain ⟨rfl, thread, ht, hf, hts⟩ := hts
      refine ⟨by simp, thread, ht, hf, ?_, ih hts fun t ht => hstop t (List.mem_of_mem_tail ht)⟩
      cases ts with
      | nil =>
          obtain rfl := hts
          exact hq
      | cons t' ts =>
          rw [hts.1]
          exact iff_of_false (by simp) (hstop t' (by simp))

/-- NULL stands for the head of the list. -/
theorem Walk.wrap (h : Walk state stop state.head w) : Walk state stop none w := by
  cases w with
  | nil => exact True.intro
  | cons t w => exact ⟨by simpa using h.1, h.2⟩

/-- The walk goes once around the list, from the thread behind the running one on. -/
theorem walk_around {l r : List ℕ} {thread : Thread}
    (hlist : Linked state.threads state.head (l ++ cur :: r) none)
    (hcur : state.threads[cur]? = some thread) :
    Walk state thread.link thread.link (r ++ (l ++ [cur])) := by
  have hnodup := hlist.nodup
  obtain ⟨m, hl, rfl, thread', hcur', hf, hr⟩ := linked_append.1 hlist
  obtain rfl := Option.some.inj (hcur.symm.trans hcur')
  have hhead := hr.head?
  have hfront : Linked state.threads state.head (l ++ [cur]) thread.link :=
    linked_append.2 ⟨_, hl, rfl, thread, hcur, hf, rfl⟩
  have happend : ((l ++ [cur]) ++ r).Nodup := by simpa using hnodup
  obtain ⟨-, hr₁, hdisjoint⟩ := List.nodup_append.1 happend
  have hround : Walk state thread.link none (l ++ [cur]) := by
    have hstop : ∀ t ∈ (l ++ [cur]).tail, some t ≠ thread.link := by
      intro t ht heq
      rw [hhead] at heq
      exact hdisjoint t (List.mem_of_mem_tail ht) t (List.mem_of_head? heq.symm) rfl
    have hwalk : Walk state thread.link state.head ((l ++ [cur]) ++ []) :=
      Walk.append hfront hstop (iff_of_true rfl rfl) True.intro
    rw [List.append_nil] at hwalk
    exact hwalk.wrap
  cases r with
  | nil =>
      rw [hhead]
      rw [hhead] at hround
      exact hround
  | cons t r =>
      have hstop : ∀ t' ∈ r, some t' ≠ thread.link := by
        intro t' ht' heq
        rw [hhead] at heq
        obtain rfl := Option.some.inj heq
        exact (List.nodup_cons.1 hr₁).1 ht'
      exact Walk.append hr hstop (iff_of_false (by simp) (by rw [hhead]; simp)) hround

/-- **`thread_candidate` ends**, and it selects the first thread behind the running one, once around
    the list, that can run. -/
theorem threadCandidate_wp (hlist : Linked state.threads state.head ts none)
    (hcur : state.curThread = some cur) (hmem : cur ∈ ts) :
    wp threadCandidate
      (fun r state' => r = RoundRobin.next ts state.runnable cur ∧ state' = state)
      (fun _ _ => False) state := by
  obtain ⟨thread, ht, hf⟩ := hlist.thread hmem
  obtain ⟨l, r, rfl⟩ := List.mem_iff_append.1 hmem
  have hl : cur ∉ l := fun hm =>
    (List.nodup_append.1 hlist.nodup).2.2 cur hm cur (List.mem_cons_self ..) rfl
  have hlen := hlist.length_le
  rw [RoundRobin.next, RoundRobin.after_append hl]
  refine wp.bind (wp.getState ?_)
  simp only [hcur]
  refine wp.bind (deref_wp ht hf (candidateLoop_wp (by simp) ?_ (walk_around hlist ht)))
  simp at hlen ⊢
  omega

/-- The same as an equation: on a list that ends with NULL, the loop ends and changes nothing. NULL
    comes out exactly when no thread of the list can run. -/
theorem threadCandidate_eq (hlist : Linked state.threads state.head ts none)
    (hcur : state.curThread = some cur) (hmem : cur ∈ ts) :
    threadCandidate state = .ok (RoundRobin.next ts state.runnable cur) state ∧
      (RoundRobin.next ts state.runnable cur = none ↔ ∀ t ∈ ts, state.runnable t = false) := by
  obtain ⟨r, state', hrun, rfl, rfl⟩ := (threadCandidate_wp hlist hcur hmem).returns
  exact ⟨hrun, RoundRobin.next_eq_none_iff⟩

/-- Three threads, the oldest of them sleeping, the next one running and the newest terminated. -/
def threeThreads : State :=
  ⟨[⟨none, .sleeping, true, none, false⟩, ⟨none, .running, true, some 0, false⟩,
    ⟨none, .terminated, true, some 1, false⟩], some 2, some 1, none⟩

theorem threadCandidate_eq_three :
    threadCandidate threeThreads =
        .ok (RoundRobin.next [2, 1, 0] threeThreads.runnable 1) threeThreads ∧
      (RoundRobin.next [2, 1, 0] threeThreads.runnable 1 = none ↔
        ∀ t ∈ [2, 1, 0], threeThreads.runnable t = false) :=
  threadCandidate_eq (by simp [Linked, threeThreads]) rfl (by decide)

example : RoundRobin.next [2, 1, 0] threeThreads.runnable 1 = some 0 := by decide

end CS238P.Sched
