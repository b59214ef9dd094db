import Mathlib.Data.List.Rotate

set_option autoImplicit false

/-! # Round robin

A ring is a list without repetitions that is walked cyclically. A turn goes to the first member
behind the one that had the last turn that is ready. Between two turns of a member each other member
that is ready all the time has one turn: the walk from a member back to itself is once around the
ring, and each turn is further on in it than the last. -/

namespace RoundRobin

variable {α : Type} [DecidableEq α]

/-- The members from the one behind `cur` on, once around the ring; `cur` is the last. -/
def after (ring : List α) (cur : α) : List α := ring.rotate (ring.idxOf cur + 1)

/-- Whose turn it is behind that of `cur`. -/
def next (ring : List α) (ready : α → Bool) (cur : α) : Option α := (after ring cur).find? ready

/-- Turns behind that of `cur`, each with the members that were ready when it was given. -/
def Turns (ring : List α) : α → List ((α → Bool) × α) → Prop
  | _, [] => True
  | cur, turn :: turns => next ring turn.1 cur = some turn.2 ∧ Turns ring turn.2 turns

variable {ring : List α} {cur a b t : α} {ready : α → Bool} {turns more : List ((α → Bool) × α)}

/-! ## Around the ring -/

@[simp] theorem mem_after : b ∈ after ring cur ↔ b ∈ ring := List.mem_rotate

theorem after_append {l r : List α} (h : cur ∉ l) :
    after (l ++ cur :: r) cur = r ++ (l ++ [cur]) := by
  rw [after, List.idxOf_append_of_notMem h, List.idxOf_cons_self]
  have hrotate := List.rotate_append_length_eq (l ++ [cur]) r
  simpa using hrotate

/-- The walk to `t` is the rotation that ends with `t`. -/
theorem after_of_isRotated (hring : ring.Nodup) {w : List α} (h : ring ~r (w ++ [t])) :
    after ring t = w ++ [t] := by
  obtain ⟨n, hn, rfl⟩ := List.isRotated_iff_mod.1 h.symm
  have hw : t ∉ w := by
    rw [List.nodup_rotate, List.nodup_append_comm] at hring
    exact (List.nodup_cons.1 hring).1
  rw [List.length_append, List.length_singleton] at hn
  rw [List.rotate_eq_drop_append_take (by simpa using hn)]
  rcases Nat.le_succ_iff.1 hn with hle | rfl
  · rw [List.drop_append_of_le_length hle, List.take_append_of_le_length hle, List.append_assoc,
      List.singleton_append, after_append (fun hm => hw (List.mem_of_mem_drop hm)),
      ← List.append_assoc, List.take_append_drop]
  · rw [List.drop_of_length_le (by simp), List.take_of_length_le (by simp), List.nil_append,
      after_append hw, List.nil_append]

/-- The walk from a member that was met on a walk goes on where that one does. -/
theorem after_met (hring : ring.Nodup) {p q : List α} (h : after ring cur = p ++ t :: q) :
    after ring t = q ++ (p ++ [t]) := by
  rw [← List.append_assoc]
  refine after_of_isRotated hring ?_
  have hrotated : ring ~r after ring cur := ⟨_, rfl⟩
  rw [h, ← List.singleton_append, ← List.append_assoc] at hrotated
  rw [List.append_assoc]
  exact hrotated.trans List.isRotated_append

/-! ## Turns -/

theorem next_eq_none_iff : next ring ready cur = none ↔ ∀ b ∈ ring, ready b = false := by
  simp [next]

theorem next_mem (h : next ring ready cur = some t) : t ∈ ring :=
  mem_after.1 (List.mem_of_find?_eq_some h)

theorem next_ready (h : next ring ready cur = some t) : ready t = true :=
  List.find?_some h

theorem Turns.mem (h : Turns ring cur turns) : ∀ turn ∈ turns, turn.2 ∈ ring := by
  induction turns generalizing cur with
  | nil => simp
  | cons turn turns ih => exact List.forall_mem_cons.2 ⟨next_mem h.1, ih h.2⟩

theorem Turns.front (h : Turns ring cur (turns ++ more)) : Turns ring cur turns := by
  induction turns generalizing cur with
  | nil => exact True.intro
  | cons turn turns ih => exact ⟨h.1, ih h.2⟩

omit [DecidableEq α] in
/-- A walk that comes to `a`, which is ready, stops there or in front of it. -/
theorem find?_walk {u v : List α} (ha : ready a = true) (h : (u ++ a :: v).find? ready = some t) :
    (t = a ∧ ∀ c ∈ u, ready c ≠ true) ∨
      ∃ u₁ u₂, u = u₁ ++ t :: u₂ ∧ ∀ c ∈ u₁, ready c ≠ true := by
  rw [List.find?_append] at h
  cases hu : u.find? ready with
  | none =>
      rw [hu, Option.none_or, List.find?_cons_of_pos ha] at h
      exact Or.inl ⟨(Option.some.inj h).symm, by simpa using hu⟩
  | some c =>
      rw [hu, Option.some_or] at h
      obtain rfl := Option.some.inj h
      obtain ⟨-, u₁, u₂, hsplit, hfirst⟩ := List.find?_eq_some_iff_append.1 hu
      exact Or.inr ⟨u₁, u₂, hsplit, by simpa using hfirst⟩

/-- On the way to `a`, which is ready, the members in front of `a` that are ready have one turn
    each, and no others. -/
theorem Turns.count_of_walk (hring : ring.Nodup) (hne : b ≠ a) {u v : List α}
    (hwalk : after ring cur = u ++ a :: v) (h : Turns ring cur (turns ++ [(ready, a)]))
    (hother : ∀ turn ∈ turns, turn.2 ≠ a)
    (ha : ∀ turn ∈ turns ++ [(ready, a)], turn.1 a = true)
    (hb : ∀ turn ∈ turns ++ [(ready, a)], turn.1 b = true) :
    (turns.map Prod.snd).count b = if b ∈ u then 1 else 0 := by
  have hnodup : (u ++ a :: v).Nodup := by
    rw [← hwalk]
    exact List.nodup_rotate.2 hring
  induction turns generalizing cur u v with
  | nil =>
      have hnext : (u ++ a :: v).find? ready = some a := by
        rw [← hwalk]
        exact h.1
      have hready : ready b = true := hb (ready, a) (by simp)
      have hnot : b ∉ u := by
        rcases find?_walk (ha (ready, a) (by simp)) hnext with ⟨-, hfirst⟩ | ⟨u₁, u₂, rfl, -⟩
        · exact fun hm => hfirst b hm hready
        · exact absurd rfl ((List.nodup_append.1 hnodup).2.2 a (by simp) a (by simp))
      rw [if_neg hnot]
      rfl
  | cons turn turns ih =>
      obtain ⟨hnext, hturns⟩ := h
      rw [next, hwalk] at hnext
      have hta : turn.2 ≠ a := hother turn (by simp)
      rcases find?_walk (ha turn (by simp)) hnext with ⟨heq, -⟩ | ⟨u₁, u₂, rfl, hfirst⟩
      · exact absurd heq hta
      -- the turn is in front of `a`, and what is left of the way is behind it
      rw [List.append_assoc, List.cons_append] at hwalk hnodup
      have hb₁ : b ∉ u₁ := fun hm => hfirst b hm (hb turn (by simp))
      have hwalk' := after_met hring hwalk
      rw [List.append_assoc, List.cons_append] at hwalk'
      have hcount := ih hwalk' hturns (fun x hx => hother x (List.mem_cons_of_mem _ hx))
        (fun x hx => ha x (List.mem_cons_of_mem _ hx)) (fun x hx => hb x (List.mem_cons_of_mem _ hx))
        (by rw [← hwalk']; exact List.nodup_rotate.2 hring)
      have ht₂ : turn.2 ∉ u₂ := fun hm =>
        (List.nodup_cons.1 (List.nodup_append.1 hnodup).2.1).1 (List.mem_append_left _ hm)
      rw [List.map_cons, List.count_cons, hcount]
      by_cases hbt : turn.2 = b
      · subst hbt
        simp [ht₂]
      · simp [hb₁, hbt, Ne.symm hbt]

/-- **Between two turns of `a`** each other member that is ready all the time has one turn. -/
theorem Turns.count (hring : ring.Nodup) (hmem : b ∈ ring) (hne : b ≠ a)
    (h : Turns ring a (turns ++ [(ready, a)])) (hother : ∀ turn ∈ turns, turn.2 ≠ a)
    (ha : ∀ turn ∈ turns ++ [(ready, a)], turn.1 a = true)
    (hb : ∀ turn ∈ turns ++ [(ready, a)], turn.1 b = true) :
    (turns.map Prod.snd).count b = 1 := by
  obtain ⟨l, r, rfl⟩ := List.mem_iff_append.1 (h.mem (ready, a) (by simp))
  have hl : a ∉ l := fun hm => (List.nodup_append.1 hring).2.2 a hm a (by simp) rfl
  have hwalk : after (l ++ a :: r) a = (r ++ l) ++ a :: [] := by
    rw [after_append hl, List.append_assoc]
  rw [h.count_of_walk hring hne hwalk hother ha hb, if_pos]
  simpa [hne, or_comm] using hmem

end RoundRobin
