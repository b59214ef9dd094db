import Mathlib.Data.Finset.Card
import Mathlib.Data.Finset.Image
import Mathlib.Data.List.Basic
import Mathlib.Algebra.Order.Group.Nat

set_option autoImplicit false

/-! # Maps kept as a log of writes

A list of writes, newest first. A write binds a key to a value or, with `none`, unbinds it; what
counts for a key is its newest write. The keys that are bound and the writes that are superseded are
counted, and `card_bound_cons` and `stale_cons` say what one more write does to the counts. -/

namespace LogMap

variable {K V : Type} [DecidableEq K]

/-- What a key is bound to. -/
def latest : List (K × Option V) → K → Option V
  | [], _ => none
  | w :: older, k => if w.1 = k then w.2 else latest older k

theorem latest_cons (w : K × Option V) (older : List (K × Option V)) :
    latest (w :: older) = Function.update (latest older) w.1 w.2 := by
  funext k
  rw [latest]
  by_cases h : w.1 = k
  · subst h
    rw [if_pos rfl, Function.update_self]
  · rw [if_neg h, Function.update_of_ne (Ne.symm h)]

theorem latest_append_of_mem {newer : List (K × Option V)} (older : List (K × Option V)) {k : K}
    (h : k ∈ newer.map Prod.fst) : latest (newer ++ older) k = latest newer k := by
  induction newer with
  | nil => cases h
  | cons w newer ih =>
      rw [List.cons_append, latest, latest]
      by_cases hk : w.1 = k
      · rw [if_pos hk, if_pos hk]
      · rw [if_neg hk, if_neg hk]
        exact ih ((List.mem_cons.1 h).resolve_left (Ne.symm hk))

theorem latest_append_of_not_mem {newer : List (K × Option V)} (older : List (K × Option V)) {k : K}
    (h : k ∉ newer.map Prod.fst) : latest (newer ++ older) k = latest older k := by
  induction newer with
  | nil => rfl
  | cons w newer ih =>
      rw [List.map_cons, List.mem_cons, not_or] at h
      rw [List.cons_append, latest, if_neg (Ne.symm h.1), ih h.2]

theorem latest_of_not_mem {ws : List (K × Option V)} {k : K} (h : k ∉ ws.map Prod.fst) :
    latest ws k = none := by
  have := latest_append_of_not_mem [] h
  rwa [List.append_nil] at this

/-- The keys that are bound. -/
def bound (ws : List (K × Option V)) : Finset K :=
  (ws.map Prod.fst).toFinset.filter fun k => (latest ws k).isSome

theorem mem_bound (ws : List (K × Option V)) (k : K) : k ∈ bound ws ↔ (latest ws k).isSome := by
  unfold bound
  rw [Finset.mem_filter, List.mem_toFinset, and_iff_right_iff_imp]
  intro h
  by_contra hmem
  rw [latest_of_not_mem hmem] at h
  cases h

theorem bound_cons_some (k : K) (v : V) (older : List (K × Option V)) :
    bound ((k, some v) :: older) = insert k (bound older) := by
  ext k'
  rw [mem_bound, Finset.mem_insert, mem_bound, latest]
  by_cases h : k = k'
  · simp [h]
  · simp [h, Ne.symm h]

theorem bound_cons_none (k : K) (older : List (K × Option V)) :
    bound ((k, none) :: older) = (bound older).erase k := by
  ext k'
  rw [mem_bound, Finset.mem_erase, mem_bound, latest]
  by_cases h : k = k'
  · simp [h]
  · simp [h, Ne.symm h]

/-- Binding a key adds one to the bound keys unless it was bound. -/
theorem card_bound_cons_some (k : K) (v : V) (older : List (K × Option V)) :
    (bound ((k, some v) :: older)).card =
      (bound older).card + if (latest older k).isSome then 0 else 1 := by
  rw [bound_cons_some]
  split
  · rename_i h
    rw [Finset.insert_eq_of_mem ((mem_bound older k).2 h), Nat.add_zero]
  · rename_i h
    exact Finset.card_insert_of_notMem fun hmem => h ((mem_bound older k).1 hmem)

/-- Unbinding a bound key takes one away. -/
theorem card_bound_cons_none (k : K) (older : List (K × Option V))
    (h : (latest older k).isSome) :
    (bound ((k, none) :: older)).card + 1 = (bound older).card := by
  rw [bound_cons_none]
  exact Finset.card_erase_add_one ((mem_bound older k).2 h)

/-! ## Superseded writes -/

/-- In a list of writes, oldest first, the bindings that a later write to their key supersedes. -/
def superseded : List (K × Option V) → ℕ
  | [] => 0
  | w :: newer =>
      (if w.2.isSome ∧ w.1 ∈ newer.map Prod.fst then 1 else 0) + superseded newer

/-- The bindings that are superseded. -/
def stale (ws : List (K × Option V)) : ℕ := superseded ws.reverse

theorem superseded_concat (ws : List (K × Option V)) (w : K × Option V) :
    superseded (ws ++ [w]) =
      superseded ws + if (latest ws.reverse w.1).isSome then 1 else 0 := by
  induction ws with
  | nil => simp [superseded, latest]
  | cons x newer ih =>
      have hx : x.1 ∈ (newer ++ [w]).map Prod.fst ↔ x.1 ∈ newer.map Prod.fst ∨ x.1 = w.1 := by
        rw [List.map_append, List.mem_append]
        exact or_congr_right List.mem_singleton
      rw [List.cons_append, superseded, superseded, ih, List.reverse_cons]
      simp only [hx]
      by_cases hmem : w.1 ∈ newer.map Prod.fst
      · -- `x` is superseded already if it has the key of `w`
        have hsame : x.1 ∈ newer.map Prod.fst ∨ x.1 = w.1 ↔ x.1 ∈ newer.map Prod.fst :=
          or_iff_left_of_imp fun h => by rwa [h]
        rw [latest_append_of_mem [x] (by rwa [List.map_reverse, List.mem_reverse])]
        simp only [hsame]
        omega
      · have hmem' : w.1 ∉ newer.reverse.map Prod.fst := by
          rwa [List.map_reverse, List.mem_reverse]
        rw [latest_of_not_mem hmem', latest_append_of_not_mem [x] hmem', latest, latest]
        by_cases hkey : x.1 = w.1
        · simp [hkey, hmem, Nat.add_comm]
        · have hother : x.1 ∈ newer.map Prod.fst ∨ x.1 = w.1 ↔ x.1 ∈ newer.map Prod.fst :=
            or_iff_left hkey
          simp only [hother]
          rw [if_neg hkey, Nat.add_assoc]

/-- One more write supersedes the binding of its key, if there is one. -/
theorem stale_cons (w : K × Option V) (older : List (K × Option V)) :
    stale (w :: older) = stale older + if (latest older w.1).isSome then 1 else 0 := by
  unfold stale
  rw [List.reverse_cons, superseded_concat, List.reverse_reverse]

/-- A binding is superseded or the newest write of a bound key. -/
theorem card_bound_add_stale (ws : List (K × Option V)) :
    (bound ws).card + stale ws = ws.countP fun w => w.2.isSome := by
  induction ws with
  | nil => rfl
  | cons w older ih =>
      obtain ⟨k, v⟩ := w
      rw [stale_cons]
      cases v with
      | some v =>
          rw [card_bound_cons_some, List.countP_cons_of_pos rfl]
          split <;> omega
      | none =>
          rw [List.countP_cons_of_neg (by simp)]
          split
          · rename_i h
            have := card_bound_cons_none k older h
            omega
          · rename_i h
            rw [bound_cons_none,
              Finset.erase_eq_of_notMem fun hmem => h ((mem_bound older k).1 hmem)]
            omega

theorem card_bound_le (ws : List (K × Option V)) : (bound ws).card ≤ ws.length := by
  have := card_bound_add_stale ws
  have := List.countP_le_length (p := fun w : K × Option V => w.2.isSome) (l := ws)
  omega

theorem stale_le (ws : List (K × Option V)) : stale ws ≤ ws.length := by
  have := card_bound_add_stale ws
  have := List.countP_le_length (p := fun w : K × Option V => w.2.isSome) (l := ws)
  omega

end LogMap
