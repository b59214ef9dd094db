import CS238P.Sched.Model
import Mathlib.Data.List.Nodup
import Mathlib.Data.List.Perm.Subperm

set_option autoImplicit false

/-! # The list of threads

The threads that `link` connects, from a pointer on. A list that ends with NULL has no thread
twice. -/

namespace CS238P.Sched

/-- The links lead from `p` through the threads `ts`, none of which was freed, to `q`. -/
def Linked (threads : List Thread) : Ptr → List ℕ → Ptr → Prop
  | p, [], q => p = q
  | p, t :: ts, q => p = some t ∧
      ∃ thread, threads[t]? = some thread ∧ thread.freed = false ∧ Linked threads thread.link ts q

variable {threads : List Thread} {p q : Ptr} {xs ys ts : List ℕ} {t : ℕ}

theorem linked_append :
    Linked threads p (xs ++ ys) q ↔ ∃ m, Linked threads p xs m ∧ Linked threads m ys q := by
  induction xs generalizing p with
  | nil => simp [Linked]
  | cons x xs ih =>
      simp only [List.cons_append, Linked, ih]
      constructor
      · rintro ⟨hp, thread, ht, hf, m, hxs, hys⟩
        exact ⟨m, ⟨hp, thread, ht, hf, hxs⟩, hys⟩
      · rintro ⟨m, ⟨hp, thread, ht, hf, hxs⟩, hys⟩
        exact ⟨hp, thread, ht, hf, m, hxs, hys⟩

theorem Linked.head? (h : Linked threads p ts none) : p = ts.head? := by
  cases ts with
  | nil => exact h
  | cons t ts => exact h.1

/-- The links do not lead on from `q`: it is NULL, or its thread was freed. -/
def Ends (threads : List Thread) (q : Ptr) : Prop :=
  ∀ t thread, q = some t → threads[t]? = some thread → thread.freed = true

theorem ends_none : Ends threads none := nofun

theorem Ends.ne {thread : Thread} (h : Ends threads q) (ht : threads[t]? = some thread)
    (hf : thread.freed = false) : q ≠ some t := by
  intro hq
  rw [h t thread hq ht] at hf
  cases hf

/-- There is one way to where the links end. -/
theorem Linked.unique (hq : Ends threads q) (hx : Linked threads p xs q)
    (hy : Linked threads p ys q) : xs = ys := by
  induction xs generalizing p ys with
  | nil =>
      cases ys with
      | nil => rfl
      | cons y ys =>
          obtain ⟨hp, thread, ht, hf, -⟩ := hy
          exact absurd (hx.symm.trans hp) (hq.ne ht hf)
  | cons x xs ih =>
      obtain ⟨rfl, thread, ht, hf, hxs⟩ := hx
      cases ys with
      | nil => exact absurd hy.symm (hq.ne ht hf)
      | cons y ys =>
          obtain ⟨heq, thread', ht', -, hys⟩ := hy
          obtain rfl := Option.some.inj heq
          obtain rfl := Option.some.inj (ht.symm.trans ht')
          rw [ih hxs hys]

theorem Linked.nodup_of_ends (h : Linked threads p ts q) (hq : Ends threads q) : ts.Nodup := by
  induction ts generalizing p with
  | nil => exact List.nodup_nil
  | cons t ts ih =>
      obtain ⟨-, thread, ht, -, hts⟩ := h
      refine List.nodup_cons.2 ⟨fun hm => ?_, ih hts⟩
      -- behind the second `t` as many threads would follow as behind the first
      obtain ⟨xs, ys, rfl⟩ := List.mem_iff_append.1 hm
      obtain ⟨m, -, -, thread', ht', -, hys⟩ := linked_append.1 hts
      obtain rfl := Option.some.inj (ht.symm.trans ht')
      have hlen := congrArg List.length (hts.unique hq hys)
      simp at hlen
      omega

theorem Linked.nodup (h : Linked threads p ts none) : ts.Nodup :=
  h.nodup_of_ends ends_none

theorem Linked.thread (h : Linked threads p ts q) (ht : t ∈ ts) :
    ∃ thread, threads[t]? = some thread ∧ thread.freed = false := by
  induction ts generalizing p with
  | nil => cases ht
  | cons t' ts ih =>
      obtain ⟨-, thread, hget, hf, hts⟩ := h
      rcases List.mem_cons.1 ht with rfl | ht
      · exact ⟨thread, hget, hf⟩
      · exact ih hts ht

theorem Linked.length_le_of_ends (h : Linked threads p ts q) (hq : Ends threads q) :
    ts.length ≤ threads.length := by
  have hsub : ts ⊆ List.range threads.length := fun t ht => by
    obtain ⟨thread, hget, -⟩ := h.thread ht
    exact List.mem_range.2 (List.getElem?_eq_some_iff.1 hget).1
  have hle := (List.subperm_of_subset (h.nodup_of_ends hq) hsub).length_le
  rwa [List.length_range] at hle

theorem Linked.length_le (h : Linked threads p ts none) : ts.length ≤ threads.length :=
  h.length_le_of_ends ends_none

/-- What is written to the threads leaves the list as it is if it leaves the links, and the threads
    that were not freed. -/
theorem Linked.congr {threads' : List Thread} (h : Linked threads p ts q)
    (hsame : ∀ t ∈ ts, ∀ thread, threads[t]? = some thread → ∃ thread', threads'[t]? = some thread' ∧
      thread'.link = thread.link ∧ thread'.freed = thread.freed) : Linked threads' p ts q := by
  induction ts generalizing p with
  | nil => exact h
  | cons t ts ih =>
      obtain ⟨hp, thread, hget, hf, hts⟩ := h
      obtain ⟨thread', hget', hlink, hfreed⟩ := hsame t (List.mem_cons_self ..) thread hget
      exact ⟨hp, thread', hget', hfreed.trans hf,
        hlink ▸ ih hts fun t ht => hsame t (List.mem_cons_of_mem _ ht)⟩

/-! ## Accesses -/

section Access

variable {state : State} {thread : Thread} {E : Fault → State → Prop}

/-- An access to a thread that was not freed. -/
theorem deref_wp {Q : Thread → State → Prop} (ht : state.threads[t]? = some thread)
    (hf : thread.freed = false) (hQ : Q thread state) : wp (deref (some t)) Q E state := by
  refine wp.bind (wp.getState ?_)
  simp only [ht, hf]
  exact hQ

theorem update_wp {Q : Unit → State → Prop} {f : Thread → Thread}
    (ht : state.threads[t]? = some thread) (hf : thread.freed = false)
    (hQ : Q () { state with threads := state.threads.set t (f thread) }) :
    wp (update (some t) f) Q E state :=
  wp.bind (deref_wp ht hf (wp.modifyState hQ))

end Access

/-! ## The status of a thread -/

def State.status (state : State) (t : ℕ) : Option Status := state.threads[t]?.map Thread.status

/-- The status is `STATUS_` or `STATUS_SLEEPING`. -/
def State.runnable (state : State) (t : ℕ) : Bool :=
  state.status t = some .created ∨ state.status t = some .sleeping

theorem runnable_of_get {state : State} {thread : Thread} (h : state.threads[t]? = some thread) :
    state.runnable t = true ↔ thread.status = .created ∨ thread.status = .sleeping := by
  simp [State.runnable, State.status, h]

end CS238P.Sched
