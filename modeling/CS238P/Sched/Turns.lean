import CS238P.Sched.Candidate
import CS238P.Sched.Create

set_option autoImplicit false

/-! # Runs of selections

What `schedule` does over and over on a list of threads that stays as it is, when the thread it has
selected sleeps or has ended before the next selection. The order of the selections is round
robin. -/

namespace CS238P.Sched

/-- What the selected thread does before the next selection: it yields, or its function returns. -/
inductive Leaves : State → State → Prop
  | yields {state state' : State} (saved : Point) {point : Point}
      (h : schedulerYield saved state = .ok point state') : Leaves state state'
  | returns {state state' : State}
      (h : update state.curThread (fun thread => { thread with status := .terminated }) state =
        .ok () state') : Leaves state state'

/-- The state in which `schedule` is called, the thread it selects, and the state in which it jumps
    to it. -/
structure Selection where
  before : State
  thread : ℕ
  during : State

def Selection.Made (sel : Selection) : Prop :=
  ∃ point, schedule sel.before = .ok (some point) sel.during ∧
    sel.during.curThread = some sel.thread

/-- Selections one after the other, and the state behind them. -/
inductive Run : State → List Selection → State → Prop
  | done (state : State) : Run state [] state
  | select (sel : Selection) (h : sel.Made) : Run sel.before [sel] sel.during
  | turn (sel : Selection) {sels : List Selection} {state state' : State} (h : sel.Made)
      (hl : Leaves sel.during state) (hr : Run state sels state') :
      Run sel.before (sel :: sels) state'

/-- The list of threads is `ts`, and `cur` of them had the last turn. -/
structure Fixed (ts : List ℕ) (state : State) (cur : ℕ) : Prop where
  list : Linked state.threads state.head ts none
  current : state.curThread = some cur
  mem : cur ∈ ts

variable {ts : List ℕ} {state state' : State} {cur t : ℕ} {thread thread' : Thread}
  {sel : Selection} {sels : List Selection}

/-! ## One selection -/

/-- The state with another thread in the place of `t`. -/
def State.put (state : State) (t : ℕ) (thread : Thread) : State :=
  { state with threads := state.threads.set t thread }

theorem get_set (h : state.threads[t]? = some thread) (thread' : Thread) :
    (state.threads.set t thread')[t]? = some thread' :=
  List.getElem?_set_self (List.getElem?_eq_some_iff.1 h).1

theorem status_put_self (h : state.threads[t]? = some thread) :
    (state.put t thread').status t = some thread'.status := by
  rw [State.status, State.put, get_set h]
  rfl

theorem status_put_of_ne {b : ℕ} (h : b ≠ t) : (state.put t thread).status b = state.status b := by
  simp [State.status, State.put, List.getElem?_set_ne (Ne.symm h)]

theorem Fixed.put (h : Fixed ts state cur) (ht : state.threads[t]? = some thread)
    (hlink : thread'.link = thread.link) (hfreed : thread'.freed = thread.freed) :
    Fixed ts (state.put t thread') cur := by
  refine ⟨h.list.congr fun b _ old hold => ?_, h.current, h.mem⟩
  by_cases hbt : b = t
  · subst hbt
    obtain rfl := Option.some.inj (ht.symm.trans hold)
    exact ⟨thread', get_set ht thread', hlink, hfreed⟩
  · exact ⟨old, by rw [State.put, List.getElem?_set_ne (Ne.symm hbt), hold], rfl, rfl⟩

/-- `schedule` selects whose turn it is, and marks it as running. -/
theorem schedule_wp (h : Fixed ts state cur) :
    wp schedule
      (fun r state' => r ≠ none → ∃ t thread,
        RoundRobin.next ts state.runnable cur = some t ∧ state.threads[t]? = some thread ∧
        thread.freed = false ∧
        state' = { state.put t { thread with status := .running } with curThread := some t })
      (fun _ _ => True) state := by
  refine wp.bind ((threadCandidate_wp h.list h.current h.mem).mono ?_ fun _ _ h => h.elim)
  rintro r state₁ ⟨hr, hs⟩
  rw [hs, hr]
  cases hnext : RoundRobin.next ts state.runnable cur with
  | none => exact fun h => absurd rfl h
  | some t =>
      obtain ⟨thread, ht, hf⟩ := h.list.thread (RoundRobin.next_mem hnext)
      rw [if_neg (by simp)]
      refine wp.bind (wp.modifyState (wp.bind (update_wp ht hf ?_)))
      refine wp.bind (deref_wp (get_set ht _) hf ?_)
      split
      · exact True.intro
      · exact fun _ => ⟨t, thread, rfl, ht, hf, rfl⟩

theorem schedulerYield_wp (ht : state.threads[t]? = some thread) (hf : thread.freed = false)
    (hcur : state.curThread = some t) (saved : Point) :
    wp (schedulerYield saved)
      (fun _ state' => state' = state.put t { thread with ctx := some saved, status := .sleeping })
      (fun _ _ => True) state := by
  refine wp.bind (wp.getState ?_)
  simp only [hcur]
  refine wp.bind (update_wp ht hf ?_)
  refine wp.bind (update_wp (get_set ht _) hf ?_)
  split
  · exact True.intro
  · refine wp.of_ok rfl ?_
    simp [State.put]

/-- What a selection does, in a list that stays as it is. -/
theorem Selection.Made.fixed (hm : sel.Made) (h : Fixed ts sel.before cur) :
    RoundRobin.next ts sel.before.runnable cur = some sel.thread ∧
      Fixed ts sel.during sel.thread ∧ sel.during.status sel.thread = some .running ∧
      ∀ b, b ≠ sel.thread → sel.during.status b = sel.before.status b := by
  obtain ⟨point, hschedule, hcur⟩ := hm
  obtain ⟨t, thread, hnext, ht, hf, hduring⟩ := (schedule_wp h).ok hschedule (by simp)
  rw [hduring] at hcur ⊢
  obtain rfl := Option.some.inj hcur
  have hput : Fixed ts (sel.before.put sel.thread { thread with status := .running }) cur :=
    h.put ht rfl rfl
  exact ⟨hnext, ⟨hput.list, rfl, RoundRobin.next_mem hnext⟩, status_put_self ht,
    fun b hb => status_put_of_ne hb⟩

/-- What the selected thread does. -/
theorem Leaves.fixed (hl : Leaves state state') (h : Fixed ts state t) :
    Fixed ts state' t ∧ (state'.status t = some .sleeping ∨ state'.status t = some .terminated) ∧
      ∀ b, b ≠ t → state'.status b = state.status b := by
  obtain ⟨thread, ht, hf⟩ := h.list.thread h.mem
  cases hl with
  | yields saved hy =>
      obtain rfl := (schedulerYield_wp ht hf h.current saved).ok hy
      exact ⟨h.put ht rfl rfl, Or.inl (status_put_self ht), fun b hb => status_put_of_ne hb⟩
  | returns hu =>
      rw [h.current] at hu
      have hwp : wp (update (some t) fun thread => { thread with status := .terminated })
          (fun _ state' => state' = state.put t { thread with status := .terminated })
          (fun _ _ => False) state := update_wp ht hf rfl
      obtain rfl := hwp.ok hu
      exact ⟨h.put ht rfl rfl, Or.inr (status_put_self ht), fun b hb => status_put_of_ne hb⟩

/-! ## Runs -/

theorem run_cons (hr : Run state (sel :: sels) state') :
    state = sel.before ∧ sel.Made ∧
      ((sels = [] ∧ state' = sel.during) ∨
        ∃ state₁, Leaves sel.during state₁ ∧ Run state₁ sels state') := by
  cases hr with
  | select sel hm => exact ⟨rfl, hm, Or.inl ⟨rfl, rfl⟩⟩
  | turn sel hm hl hr => exact ⟨rfl, hm, Or.inr ⟨_, hl, hr⟩⟩

/-- The selections are turns of the ring that the list is. -/
theorem Run.turns (hr : Run state sels state') (h : Fixed ts state cur) :
    RoundRobin.Turns ts cur (sels.map fun sel => (sel.before.runnable, sel.thread)) := by
  induction hr generalizing cur with
  | done state => exact True.intro
  | select sel hm => exact ⟨(hm.fixed h).1, True.intro⟩
  | turn sel hm hl hr ih =>
      obtain ⟨hnext, hduring, -⟩ := hm.fixed h
      exact ⟨hnext, ih (hl.fixed hduring).1⟩

/-- A run goes on at each of its selections as a run from there. -/
theorem Run.behind {pre post : List Selection} (hr : Run state (pre ++ sel :: post) state')
    (h : Fixed ts state cur) :
    ∃ cur', Fixed ts sel.before cur' ∧ Run sel.before (sel :: post) state' := by
  induction pre generalizing state cur with
  | nil =>
      obtain ⟨rfl, -⟩ := run_cons hr
      exact ⟨cur, h, hr⟩
  | cons sel' pre ih =>
      obtain ⟨rfl, hm, ⟨hnil, -⟩ | ⟨state₁, hl, hr⟩⟩ := run_cons hr
      · exact absurd hnil (by simp)
      · exact ih hr (hl.fixed (hm.fixed h).2.1).1

/-- The status of a thread stays as long as it is not selected. -/
theorem Run.status_eq {mid post : List Selection} {b : ℕ}
    (hr : Run state (mid ++ sel :: post) state') (h : Fixed ts state cur)
    (hb : ∀ sel ∈ mid, sel.thread ≠ b) :
    ∀ sel' ∈ mid ++ [sel], sel'.before.status b = state.status b := by
  induction mid generalizing state cur with
  | nil =>
      obtain ⟨rfl, -⟩ := run_cons hr
      simp
  | cons sel₁ mid ih =>
      obtain ⟨rfl, hm, ⟨hnil, -⟩ | ⟨state₁, hl, hr⟩⟩ := run_cons hr
      · exact absurd hnil (by simp)
      obtain ⟨-, hduring, -, hsame⟩ := hm.fixed h
      obtain ⟨hnext, -, hsame'⟩ := hl.fixed hduring
      have hne : b ≠ sel₁.thread := Ne.symm (hb sel₁ (by simp))
      rw [List.cons_append, List.forall_mem_cons]
      refine ⟨rfl, fun sel' hsel' => ?_⟩
      rw [ih hr hnext (fun sel hsel => hb sel (List.mem_cons_of_mem _ hsel)) sel' hsel',
        hsame' b hne, hsame b hne]

/-- A thread that has terminated is never selected. -/
theorem Run.not_selected {b : ℕ} (hr : Run state sels state') (h : Fixed ts state cur)
    (hb : state.status b = some .terminated) : ∀ sel ∈ sels, sel.thread ≠ b := by
  have hne {sel : Selection} {cur : ℕ} (hm : sel.Made) (h : Fixed ts sel.before cur)
      (hb : sel.before.status b = some .terminated) : sel.thread ≠ b := by
    rintro rfl
    have hready := RoundRobin.next_ready (hm.fixed h).1
    simp [State.runnable, hb] at hready
  induction hr generalizing cur with
  | done state => simp
  | select sel hm => simpa using hne hm h hb
  | turn sel hm hl hr ih =>
      obtain ⟨-, hduring, -, hsame⟩ := hm.fixed h
      obtain ⟨hnext, -, hsame'⟩ := hl.fixed hduring
      have hbne := Ne.symm (hne hm h hb)
      refine List.forall_mem_cons.2 ⟨hne hm h hb, ih hnext ?_⟩
      rw [hsame' b hbne, hsame b hbne, hb]

/-- No thread is running, as when `schedule` is called. -/
def Idle (ts : List ℕ) (state : State) : Prop := ∀ t ∈ ts, state.status t ≠ some .running

/-- No thread is running between the selections, and the selected one alone is running then. -/
theorem Run.running (hr : Run state sels state') (h : Fixed ts state cur) (hidle : Idle ts state) :
    (∀ sel ∈ sels, Idle ts sel.before ∧
      ∀ t ∈ ts, sel.during.status t = some .running → sel.during.curThread = some t) ∧
      ∀ t ∈ ts, state'.status t = some .running → state'.curThread = some t := by
  have halone {sel : Selection} {cur : ℕ} (hm : sel.Made) (h : Fixed ts sel.before cur)
      (hidle : Idle ts sel.before) :
      ∀ t ∈ ts, sel.during.status t = some .running → sel.during.curThread = some t := by
    obtain ⟨-, hduring, -, hsame⟩ := hm.fixed h
    intro t ht hrun
    by_cases heq : t = sel.thread
    · rw [heq]
      exact hduring.current
    · exact absurd ((hsame t heq).symm.trans hrun) (hidle t ht)
  induction hr generalizing cur with
  | done state => exact ⟨by simp, fun t ht hrun => absurd hrun (hidle t ht)⟩
  | select sel hm => exact ⟨by simpa using ⟨hidle, halone hm h hidle⟩, halone hm h hidle⟩
  | turn sel hm hl hr ih =>
      obtain ⟨-, hduring, -, hsame⟩ := hm.fixed h
      obtain ⟨hnext, hstatus, hsame'⟩ := hl.fixed hduring
      obtain ⟨hsels, hlast⟩ := ih hnext fun t ht hrun => by
        by_cases heq : t = sel.thread
        · rw [heq] at hrun
          rcases hstatus with hst | hst <;> exact absurd (hrun.symm.trans hst) (by simp)
        · rw [hsame' t heq, hsame t heq] at hrun
          exact hidle t ht hrun
      exact ⟨List.forall_mem_cons.2 ⟨⟨hidle, halone hm h hidle⟩, hsels⟩, hlast⟩

/-- The threads as `scheduler_create` leaves them. -/
theorem Lists.idle (h : Lists state ts) : Idle ts state := by
  intro t ht hrun
  obtain ⟨thread, hget, -, hst⟩ := h.fresh t ht
  rw [State.status, hget, Option.map_some, hst] at hrun
  cases hrun

/-- Between two consecutive selections of a thread each other thread of the list that can run
    whenever `schedule` is called is selected once. -/
theorem Run.once {pre mid post : List Selection} {x y : Selection}
    (hr : Run state (pre ++ x :: (mid ++ y :: post)) state') (h : Fixed ts state cur)
    (hxy : y.thread = x.thread) (hmid : ∀ z ∈ mid, z.thread ≠ x.thread) (ht : t ∈ ts)
    (hne : t ≠ x.thread) (hrun : ∀ z ∈ mid ++ [y], z.before.runnable t = true) :
    (mid.map Selection.thread).count t = 1 := by
  obtain ⟨cur', hx, hrx⟩ := hr.behind h
  obtain ⟨-, hm, ⟨hnil, -⟩ | ⟨state₁, hl, hrest⟩⟩ := run_cons hrx
  · exact absurd hnil (by simp)
  have hfixed := (hl.fixed (hm.fixed hx).2.1).1
  obtain ⟨cur'', hy, hry⟩ := hrest.behind hfixed
  have hready : y.before.runnable x.thread = true := by
    rw [← hxy]
    exact RoundRobin.next_ready ((run_cons hry).2.1.fixed hy).1
  -- what is between the two is a walk around the ring, from the thread to itself
  have hturns := hrest.turns hfixed
  rw [List.map_append, List.map_cons, List.append_cons] at hturns
  have hfront := hturns.front
  rw [hxy] at hfront
  have hall {b : ℕ} (hb : ∀ z ∈ mid ++ [y], z.before.runnable b = true) :
      ∀ turn ∈ mid.map (fun sel => (sel.before.runnable, sel.thread)) ++
        [(y.before.runnable, x.thread)], turn.1 b = true := by
    rw [List.forall_mem_append, List.forall_mem_singleton] at hb ⊢
    rwa [List.forall_mem_map]
  have hsame := hrest.status_eq hfixed hmid
  have hcount := hfront.count h.list.nodup ht hne (by simpa using hmid)
    (hall fun z hz => by
      rw [← hready, State.runnable, State.runnable, hsame z hz, hsame y (by simp)]) (hall hrun)
  rwa [List.map_map] at hcount

/-- The selections of a run are round robin; no thread is selected that has terminated; and if none
    is running at the start, then none is at any call of `schedule`, one at most is running at a time,
    and that is `cur_thread`. None is running at the start behind the calls of `scheduler_create`. -/
structure TakesTurns (ts : List ℕ) (first : State) (sels : List Selection) (last : State) : Prop where
  once : ∀ pre x mid y post, sels = pre ++ x :: (mid ++ y :: post) → y.thread = x.thread →
    (∀ z ∈ mid, z.thread ≠ x.thread) → ∀ t ∈ ts, t ≠ x.thread →
    (∀ z ∈ mid ++ [y], z.before.runnable t = true) → (mid.map Selection.thread).count t = 1
  created : Lists first ts → Idle ts first
  running : Idle ts first →
    (∀ sel ∈ sels, Idle ts sel.before ∧
      ∀ t ∈ ts, sel.during.status t = some .running → sel.during.curThread = some t) ∧
    ∀ t ∈ ts, last.status t = some .running → last.curThread = some t
  terminated : ∀ pre x post, sels = pre ++ x :: post → ∀ t,
    x.before.status t = some .terminated → ∀ y ∈ x :: post, y.thread ≠ t

/-- **Scheduling is round robin.** -/
theorem run_takesTurns (hlist : Linked state.threads state.head ts none)
    (hcur : state.curThread = some cur) (hmem : cur ∈ ts) (hr : Run state sels state') :
    TakesTurns ts state sels state' := by
  have h : Fixed ts state cur := ⟨hlist, hcur, hmem⟩
  refine ⟨?_, Lists.idle, hr.running h, ?_⟩
  · rintro pre x mid y post rfl hxy hmid t ht hne hrun
    exact hr.once h hxy hmid ht hne hrun
  · rintro pre x post rfl t hterm
    obtain ⟨cur', hx, hrx⟩ := hr.behind h
    exact hrx.not_selected hx hterm

/-- Two threads, with their status and how often they are going to yield. -/
def twoThreads (cur : ℕ) (older : Status) (yields₀ : ℕ) (newer : Status) (yields₁ : ℕ) : State :=
  ⟨[⟨some (.body 0 yields₀ []), older, true, none, false⟩,
    ⟨some (.body 1 yields₁ []), newer, true, some 0, false⟩], some 1, some cur, some .second⟩

/-- The newer thread has a turn, the older one, and the newer one again. -/
def newerTurn : Selection :=
  ⟨twoThreads 0 .created 1 .created 1, 1, twoThreads 1 .created 1 .running 1⟩

def olderTurn : Selection :=
  ⟨twoThreads 1 .created 1 .sleeping 0, 0, twoThreads 0 .running 1 .sleeping 0⟩

def newerAgain : Selection :=
  ⟨twoThreads 0 .sleeping 0 .sleeping 0, 1, twoThreads 1 .sleeping 0 .running 0⟩

theorem run_takesTurns_three :
    TakesTurns [1, 0] newerTurn.before [newerTurn, olderTurn, newerAgain] newerAgain.during :=
  run_takesTurns (by simp [Linked, newerTurn, twoThreads])
    (show newerTurn.before.curThread = some 0 from rfl) (by decide)
    (.turn newerTurn ⟨.body 1 1 [], rfl, rfl⟩ (.yields (.body 1 0 []) rfl)
      (.turn olderTurn ⟨.body 0 1 [], rfl, rfl⟩ (.yields (.body 0 0 []) rfl)
        (.select newerAgain ⟨.body 1 0 [], rfl, rfl⟩)))

end CS238P.Sched
