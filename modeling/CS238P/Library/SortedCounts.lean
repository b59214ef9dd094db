import Mathlib.Data.List.Sort
import Mathlib.Data.List.Dedup
import Mathlib.Data.List.Induction
import Mathlib.Algebra.Order.Group.Nat
import Mathlib.Algebra.GroupWithZero.Nat

set_option autoImplicit false

/-! # Sorted lists of counted keys

A multiset over a linear order, kept as the strictly increasing list of its distinct keys, each
with its multiplicity. `bump x` counts one more `x`. The list is a canonical form: it is determined
by the multiplicities (`ext_count`), so it does not depend on the order in which keys were counted
(`ofList_perm`). Search trees that keep counts are compared with it through their in-order lists;
`bump_append_lt`, `bump_append_eq` and `bump_append_gt` say where the bump happens in
`left ++ root :: right`. -/

namespace SortedCounts

variable {κ : Type*} [LinearOrder κ]

/-- Count one more `x`. -/
def bump (x : κ) : List (κ × ℕ) → List (κ × ℕ)
  | [] => [(x, 1)]
  | (k, c) :: rest =>
    if x < k then (x, 1) :: (k, c) :: rest
    else if x = k then (k, c + 1) :: rest
    else (k, c) :: bump x rest

/-- The multiplicity of `x`, zero when it is not listed. -/
def count (x : κ) : List (κ × ℕ) → ℕ
  | [] => 0
  | (k, c) :: rest => if x = k then c else count x rest

/-- Strictly increasing keys. -/
def Sorted (l : List (κ × ℕ)) : Prop := l.Pairwise (fun a b => a.1 < b.1)

/-- The counts of a list of keys, in any order. -/
def ofList (xs : List κ) : List (κ × ℕ) := xs.foldl (fun l x => bump x l) []

/-! ## Where the bump happens -/

theorem bump_cons_lt {x k : κ} (c : ℕ) (l : List (κ × ℕ)) (h : x < k) :
    bump x ((k, c) :: l) = (x, 1) :: (k, c) :: l := by
  rw [bump, if_pos h]

theorem bump_cons_eq (x : κ) (c : ℕ) (l : List (κ × ℕ)) :
    bump x ((x, c) :: l) = (x, c + 1) :: l := by
  rw [bump, if_neg (lt_irrefl x), if_pos rfl]

theorem bump_cons_gt {x k : κ} (c : ℕ) (l : List (κ × ℕ)) (h : k < x) :
    bump x ((k, c) :: l) = (k, c) :: bump x l := by
  rw [bump, if_neg (not_lt_of_gt h), if_neg (ne_of_gt h)]

theorem bump_append_lt (x k : κ) (c : ℕ) (l r : List (κ × ℕ)) (h : x < k) :
    bump x (l ++ (k, c) :: r) = bump x l ++ (k, c) :: r := by
  induction l with
  | nil => simp [bump, h]
  | cons a rest ih =>
      obtain ⟨j, d⟩ := a
      simp only [List.cons_append, bump, ih]
      split_ifs <;> simp

theorem bump_append_eq (x : κ) (c : ℕ) (l r : List (κ × ℕ)) (hl : ∀ a ∈ l, a.1 < x) :
    bump x (l ++ (x, c) :: r) = l ++ (x, c + 1) :: r := by
  induction l with
  | nil => exact bump_cons_eq x c r
  | cons a rest ih =>
      obtain ⟨j, d⟩ := a
      have hj : j < x := hl (j, d) (List.mem_cons_self ..)
      rw [List.cons_append, bump_cons_gt _ _ hj,
        ih (fun a ha => hl a (List.mem_cons_of_mem _ ha)), List.cons_append]

theorem bump_append_gt (x k : κ) (c : ℕ) (l r : List (κ × ℕ)) (hl : ∀ a ∈ l, a.1 < x)
    (h : k < x) : bump x (l ++ (k, c) :: r) = l ++ (k, c) :: bump x r := by
  induction l with
  | nil => exact bump_cons_gt c r h
  | cons a rest ih =>
      obtain ⟨j, d⟩ := a
      have hj : j < x := hl (j, d) (List.mem_cons_self ..)
      rw [List.cons_append, bump_cons_gt _ _ hj,
        ih (fun a ha => hl a (List.mem_cons_of_mem _ ha)), List.cons_append]

/-! ## What the bump preserves -/

theorem mem_keys_bump (x k : κ) (l : List (κ × ℕ)) :
    k ∈ (bump x l).map Prod.fst ↔ k = x ∨ k ∈ l.map Prod.fst := by
  induction l with
  | nil => simp [bump]
  | cons a rest ih =>
      obtain ⟨j, d⟩ := a
      rcases lt_trichotomy x j with hlt | rfl | hgt
      · rw [bump_cons_lt _ _ hlt]; simp
      · rw [bump_cons_eq]; simp
      · rw [bump_cons_gt _ _ hgt, List.map_cons, List.mem_cons, ih, List.map_cons, List.mem_cons]
        tauto

theorem sorted_bump (x : κ) (l : List (κ × ℕ)) (h : Sorted l) : Sorted (bump x l) := by
  induction l with
  | nil => simp [bump, Sorted]
  | cons a rest ih =>
      obtain ⟨j, d⟩ := a
      obtain ⟨hj, hrest⟩ := List.pairwise_cons.1 h
      rcases lt_trichotomy x j with hlt | rfl | hgt
      · rw [bump_cons_lt _ _ hlt]
        refine List.pairwise_cons.2 ⟨List.forall_mem_cons.2 ⟨hlt, fun b hb => ?_⟩, h⟩
        exact hlt.trans (hj b hb)
      · rw [bump_cons_eq]
        exact List.pairwise_cons.2 ⟨hj, hrest⟩
      · rw [bump_cons_gt _ _ hgt]
        refine List.pairwise_cons.2 ⟨fun b hb => ?_, ih hrest⟩
        rcases (mem_keys_bump x b.1 rest).1 (List.mem_map_of_mem hb) with hx | hmem
        · exact hx ▸ hgt
        · obtain ⟨b', hb', he⟩ := List.mem_map.1 hmem
          exact he ▸ hj b' hb'

theorem pos_bump (x : κ) (l : List (κ × ℕ)) (h : ∀ a ∈ l, 1 ≤ a.2) :
    ∀ a ∈ bump x l, 1 ≤ a.2 := by
  induction l with
  | nil => simp [bump]
  | cons a rest ih =>
      obtain ⟨j, d⟩ := a
      obtain ⟨hd, hrest⟩ := List.forall_mem_cons.1 h
      rcases lt_trichotomy x j with hlt | rfl | hgt
      · rw [bump_cons_lt _ _ hlt]
        exact List.forall_mem_cons.2 ⟨le_refl 1, h⟩
      · rw [bump_cons_eq]
        exact List.forall_mem_cons.2 ⟨Nat.le_add_left 1 d, hrest⟩
      · rw [bump_cons_gt _ _ hgt]
        exact List.forall_mem_cons.2 ⟨hd, ih hrest⟩

theorem sum_bump (x : κ) (l : List (κ × ℕ)) :
    ((bump x l).map Prod.snd).sum = (l.map Prod.snd).sum + 1 := by
  induction l with
  | nil => simp [bump]
  | cons a rest ih =>
      obtain ⟨j, d⟩ := a
      rcases lt_trichotomy x j with hlt | rfl | hgt
      · rw [bump_cons_lt _ _ hlt]; simp only [List.map_cons, List.sum_cons]; omega
      · rw [bump_cons_eq]; simp only [List.map_cons, List.sum_cons]; omega
      · rw [bump_cons_gt _ _ hgt]; simp only [List.map_cons, List.sum_cons, ih]; omega

/-! ## Multiplicities -/

theorem count_eq_zero_of_not_mem (x : κ) (l : List (κ × ℕ)) (h : x ∉ l.map Prod.fst) :
    count x l = 0 := by
  induction l with
  | nil => rfl
  | cons a rest ih =>
      obtain ⟨j, d⟩ := a
      simp only [List.map_cons, List.mem_cons, not_or] at h
      rw [count, if_neg h.1, ih h.2]

theorem not_mem_keys_of_lt (x : κ) (l : List (κ × ℕ)) (h : ∀ a ∈ l, x < a.1) :
    x ∉ l.map Prod.fst := by
  intro hmem
  obtain ⟨a, ha, he⟩ := List.mem_map.1 hmem
  exact lt_irrefl x (he ▸ h a ha)

theorem count_append_of_lt (x : κ) (l r : List (κ × ℕ)) (hl : ∀ a ∈ l, a.1 < x) :
    count x (l ++ r) = count x r := by
  induction l with
  | nil => rfl
  | cons a rest ih =>
      obtain ⟨j, d⟩ := a
      have hj : j < x := hl (j, d) (List.mem_cons_self ..)
      rw [List.cons_append, count, if_neg (ne_of_gt hj),
        ih (fun a ha => hl a (List.mem_cons_of_mem _ ha))]

theorem count_append_cons_of_lt (x k : κ) (c : ℕ) (l r : List (κ × ℕ)) (h : x < k)
    (hr : ∀ a ∈ r, x < a.1) : count x (l ++ (k, c) :: r) = count x l := by
  induction l with
  | nil =>
      rw [List.nil_append, count_eq_zero_of_not_mem x _ (not_mem_keys_of_lt x _ ?_), count]
      exact List.forall_mem_cons.2 ⟨h, hr⟩
  | cons a rest ih =>
      obtain ⟨j, d⟩ := a
      rw [List.cons_append, count, count, ih]

/-- **One more `x`, every other multiplicity untouched.** -/
theorem count_bump (x y : κ) (l : List (κ × ℕ)) (h : Sorted l) :
    count y (bump x l) = count y l + if y = x then 1 else 0 := by
  induction l with
  | nil => simp only [bump, count]; split_ifs <;> rfl
  | cons a rest ih =>
      obtain ⟨j, d⟩ := a
      obtain ⟨hj, hrest⟩ := List.pairwise_cons.1 h
      rcases lt_trichotomy x j with hlt | rfl | hgt
      · rw [bump_cons_lt _ _ hlt, count]
        split_ifs with hyx
        · have hnot : x ∉ ((j, d) :: rest).map Prod.fst := not_mem_keys_of_lt x _
            (List.forall_mem_cons.2 ⟨hlt, fun b hb => hlt.trans (hj b hb)⟩)
          rw [hyx, count_eq_zero_of_not_mem x _ hnot]
        · rfl
      · rw [bump_cons_eq, count, count]
        split_ifs <;> rfl
      · rw [bump_cons_gt _ _ hgt, count, count, ih hrest]
        by_cases hyj : y = j
        · rw [if_pos hyj, if_pos hyj, if_neg (hyj ▸ ne_of_lt hgt), Nat.add_zero]
        · rw [if_neg hyj, if_neg hyj]

theorem length_bump (x : κ) (l : List (κ × ℕ)) (h : Sorted l) :
    (bump x l).length = l.length + if x ∈ l.map Prod.fst then 0 else 1 := by
  induction l with
  | nil => simp [bump]
  | cons a rest ih =>
      obtain ⟨j, d⟩ := a
      obtain ⟨hj, hrest⟩ := List.pairwise_cons.1 h
      rcases lt_trichotomy x j with hlt | rfl | hgt
      · have hnot : x ∉ ((j, d) :: rest).map Prod.fst := not_mem_keys_of_lt x _
          (List.forall_mem_cons.2 ⟨hlt, fun b hb => hlt.trans (hj b hb)⟩)
        rw [bump_cons_lt _ _ hlt, if_neg hnot]; rfl
      · rw [bump_cons_eq, if_pos (by simp)]; rfl
      · have hiff : (x ∈ ((j, d) :: rest).map Prod.fst) ↔ x ∈ rest.map Prod.fst := by
          rw [List.map_cons, List.mem_cons, or_iff_right (ne_of_gt hgt)]
        rw [bump_cons_gt _ _ hgt, List.length_cons, ih hrest, List.length_cons]
        simp only [hiff]
        omega

/-! ## The canonical form -/

theorem mem_iff_count (l : List (κ × ℕ)) (h : Sorted l) (hpos : ∀ a ∈ l, 1 ≤ a.2) (k : κ) (c : ℕ) :
    (k, c) ∈ l ↔ count k l = c ∧ 1 ≤ c := by
  induction l with
  | nil => simp only [List.not_mem_nil, count, false_iff]; omega
  | cons a rest ih =>
      obtain ⟨j, d⟩ := a
      obtain ⟨hj, hrest⟩ := List.pairwise_cons.1 h
      obtain ⟨hd, hposr⟩ := List.forall_mem_cons.1 hpos
      rw [List.mem_cons, ih hrest hposr, count]
      split_ifs with hkj
      · subst hkj
        rw [count_eq_zero_of_not_mem k rest (not_mem_keys_of_lt k rest hj)]
        simp only [Prod.mk.injEq, true_and]
        constructor
        · rintro (rfl | ⟨h0, h1⟩)
          · exact ⟨rfl, hd⟩
          · omega
        · rintro ⟨rfl, _⟩
          exact Or.inl rfl
      · simp [Prod.mk.injEq, hkj]

theorem Sorted.nodup_keys {l : List (κ × ℕ)} (h : Sorted l) : (l.map Prod.fst).Nodup :=
  List.pairwise_map.2 (List.Pairwise.imp (fun {_ _} hab => ne_of_lt hab) h)

/-- **Two sorted lists with the same multiplicities are the same list.** -/
theorem ext_count (l l' : List (κ × ℕ)) (h : Sorted l) (h' : Sorted l')
    (hpos : ∀ a ∈ l, 1 ≤ a.2) (hpos' : ∀ a ∈ l', 1 ≤ a.2)
    (hc : ∀ k, count k l = count k l') : l = l' := by
  have hperm : l.Perm l' := by
    rw [List.perm_ext_iff_of_nodup h.nodup_keys.of_map h'.nodup_keys.of_map]
    rintro ⟨k, c⟩
    rw [mem_iff_count l h hpos, mem_iff_count l' h' hpos', hc]
  have hanti : ∀ a b : κ × ℕ, a ∈ l → b ∈ l' → a.1 < b.1 → b.1 < a.1 → a = b :=
    fun a b _ _ hab hba => absurd (hab.trans hba) (lt_irrefl _)
  exact List.Perm.eq_of_pairwise hanti h h' hperm

/-! ## Counting a list of keys -/

theorem ofList_snoc (xs : List κ) (x : κ) : ofList (xs ++ [x]) = bump x (ofList xs) := by
  simp [ofList]

theorem sorted_ofList (xs : List κ) : Sorted (ofList xs) := by
  induction xs using List.reverseRecOn with
  | nil => exact List.Pairwise.nil
  | append_singleton xs x ih => rw [ofList_snoc]; exact sorted_bump x _ ih

theorem pos_ofList (xs : List κ) : ∀ a ∈ ofList xs, 1 ≤ a.2 := by
  induction xs using List.reverseRecOn with
  | nil => simp [ofList]
  | append_singleton xs x ih => rw [ofList_snoc]; exact pos_bump x _ ih

theorem count_ofList (xs : List κ) (y : κ) : count y (ofList xs) = xs.count y := by
  induction xs using List.reverseRecOn with
  | nil => simp [ofList, count]
  | append_singleton xs x ih =>
      rw [ofList_snoc, count_bump x y _ (sorted_ofList xs), ih, List.count_append,
        List.count_singleton]
      by_cases hyx : y = x
      · simp [hyx]
      · simp [hyx, Ne.symm hyx]

theorem sum_ofList (xs : List κ) : ((ofList xs).map Prod.snd).sum = xs.length := by
  induction xs using List.reverseRecOn with
  | nil => simp [ofList]
  | append_singleton xs x ih => rw [ofList_snoc, sum_bump, ih]; simp

theorem mem_keys_ofList (xs : List κ) (k : κ) : k ∈ (ofList xs).map Prod.fst ↔ k ∈ xs := by
  induction xs using List.reverseRecOn with
  | nil => simp [ofList]
  | append_singleton xs x ih =>
      rw [ofList_snoc, mem_keys_bump, ih, List.mem_append, List.mem_singleton, or_comm]

theorem length_ofList (xs : List κ) : (ofList xs).length = xs.dedup.length := by
  have hperm : ((ofList xs).map Prod.fst).Perm xs.dedup := by
    rw [List.perm_ext_iff_of_nodup (sorted_ofList xs).nodup_keys xs.nodup_dedup]
    intro k
    rw [mem_keys_ofList, List.mem_dedup]
  simpa using hperm.length_eq

/-- **The counts do not depend on the order of counting.** -/
theorem ofList_perm {xs ys : List κ} (h : xs.Perm ys) : ofList xs = ofList ys :=
  ext_count _ _ (sorted_ofList xs) (sorted_ofList ys) (pos_ofList xs) (pos_ofList ys)
    (fun k => by rw [count_ofList, count_ofList, h.count_eq])

end SortedCounts
