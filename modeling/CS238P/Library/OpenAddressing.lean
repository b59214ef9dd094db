import Mathlib.Data.Finset.Card
import Mathlib.Data.Finset.Image
import Mathlib.Data.List.Basic
import Mathlib.Data.Nat.ModEq
import Mathlib.Logic.Function.Basic
import Mathlib.Algebra.Order.Group.Nat

set_option autoImplicit false

/-! # Open addressing

A table of slots, each free or holding a key with its value, and for every key a sequence of slots
to try. The search for a key goes along its sequence to the first slot that is free or holds the
key. Nothing is assumed of the sequences, so the theory covers probing that wraps or visits a slot
twice; what is lost then is only the guarantee that a free slot is found, which `exists_firstHit`
recovers for sequences with enough different slots. -/

namespace OpenAddressing

variable {ι K A : Type} [DecidableEq K]

/-- The contents of the slots. -/
abbrev Table (ι K A : Type) := ι → Option (K × A)

/-- The search for `k` ends at this slot. -/
def hit (t : Table ι K A) (k : K) (j : ι) : Bool :=
  match t j with
  | none => true
  | some (k', _) => decide (k' = k)

/-- Where the search for `k` along a sequence ends. -/
def firstHit (t : Table ι K A) (k : K) (ps : List ι) : Option ι := ps.find? (hit t k)

/-- What the search for `k` finds. -/
def find (t : Table ι K A) (seq : K → List ι) (k : K) : Option A :=
  (firstHit t k (seq k)).bind fun j => (t j).map Prod.snd

/-- Some slot holds `k` with the value `a`. -/
def Holds (t : Table ι K A) (k : K) (a : A) : Prop := ∃ j, t j = some (k, a)

/-- Every key is found where it is. -/
def WF (t : Table ι K A) (seq : K → List ι) : Prop :=
  ∀ j k a, t j = some (k, a) → firstHit t k (seq k) = some j

theorem wf_empty (seq : K → List ι) : WF (fun _ => none : Table ι K A) seq := by
  intro j k a h
  cases h

theorem hit_of_some {t : Table ι K A} {k k' : K} {a : A} {j : ι} (h : t j = some (k', a)) :
    hit t k j = decide (k' = k) := by
  unfold hit
  rw [h]

theorem firstHit_hit {t : Table ι K A} {k : K} {ps : List ι} {j : ι}
    (h : firstHit t k ps = some j) : hit t k j = true := List.find?_some h

/-- The search ends at a free slot or at the key's own. -/
theorem firstHit_cases {t : Table ι K A} {k : K} {ps : List ι} {j : ι}
    (h : firstHit t k ps = some j) : t j = none ∨ ∃ a, t j = some (k, a) := by
  have hj := firstHit_hit h
  cases ht : t j with
  | none => exact .inl rfl
  | some e =>
      obtain ⟨k', a⟩ := e
      rw [hit_of_some ht, decide_eq_true_eq] at hj
      exact .inr ⟨a, by rw [hj]⟩

theorem WF.find_eq_some_iff {t : Table ι K A} {seq : K → List ι} (h : WF t seq) (k : K) (a : A) :
    find t seq k = some a ↔ Holds t k a := by
  unfold find
  constructor
  · intro hfind
    obtain ⟨j, hj, ha⟩ := Option.bind_eq_some_iff.1 hfind
    rcases firstHit_cases hj with hnone | ⟨a', ha'⟩
    · rw [hnone] at ha
      cases ha
    · rw [ha'] at ha
      cases ha
      exact ⟨j, ha'⟩
  · rintro ⟨j, hj⟩
    rw [h j k a hj, Option.bind_some, hj]
    rfl

/-! ## Writing the slot the search ends at -/

section Put

variable [DecidableEq ι]

/-- The table with `k` and `a` in the slot `j`. -/
def put (t : Table ι K A) (j : ι) (k : K) (a : A) : Table ι K A :=
  Function.update t j (some (k, a))

variable {t : Table ι K A} {seq : K → List ι} {k : K} {j : ι}

omit [DecidableEq ι] in
/-- A key in another slot is not the one that is written. -/
theorem WF.ne_of_slot_ne (h : WF t seq) (hj : firstHit t k (seq k) = some j) {i : ι} {k' : K}
    {a : A} (hi : t i = some (k', a)) (hne : i ≠ j) : k' ≠ k := by
  rintro rfl
  have := h i k' a hi
  rw [hj] at this
  exact hne (Option.some.inj this).symm

theorem WF.put (h : WF t seq) (hj : firstHit t k (seq k) = some j) (a : A) :
    WF (put t j k a) seq := by
  intro i k' a' hi
  unfold OpenAddressing.put at hi
  by_cases hij : i = j
  · subst hij
    rw [Function.update_self] at hi
    cases hi
    -- the slots before `i` are as they were
    rw [firstHit, List.find?_eq_some_iff_append] at hj ⊢
    obtain ⟨hhit, pre, post, hseq, hpre⟩ := hj
    refine ⟨by simp [hit, OpenAddressing.put], pre, post, hseq, fun p hp => ?_⟩
    have hp' := hpre p hp
    by_cases hpi : p = i
    · subst hpi
      simp [hhit] at hp'
    · rw [hit, OpenAddressing.put, Function.update_of_ne hpi]
      exact hp'
  · rw [Function.update_of_ne hij] at hi
    have hne := h.ne_of_slot_ne hj hi hij
    have hfirst := h i k' a' hi
    rw [firstHit, List.find?_eq_some_iff_append] at hfirst ⊢
    obtain ⟨hhit, pre, post, hseq, hpre⟩ := hfirst
    refine ⟨?_, pre, post, hseq, fun p hp => ?_⟩
    · rw [hit, OpenAddressing.put, Function.update_of_ne hij]
      exact hhit
    · by_cases hpj : p = j
      · subst hpj
        simp [hit, OpenAddressing.put, Ne.symm hne]
      · rw [hit, OpenAddressing.put, Function.update_of_ne hpj]
        exact hpre p hp

theorem holds_put (h : WF t seq) (hj : firstHit t k (seq k) = some j) (a : A) (k' : K) (a' : A) :
    Holds (put t j k a) k' a' ↔ (k' = k ∧ a' = a) ∨ (k' ≠ k ∧ Holds t k' a') := by
  unfold OpenAddressing.put
  constructor
  · rintro ⟨i, hi⟩
    by_cases hij : i = j
    · subst hij
      rw [Function.update_self] at hi
      cases hi
      exact .inl ⟨rfl, rfl⟩
    · rw [Function.update_of_ne hij] at hi
      exact .inr ⟨h.ne_of_slot_ne hj hi hij, i, hi⟩
  · rintro (⟨rfl, rfl⟩ | ⟨hne, i, hi⟩)
    · exact ⟨j, Function.update_self ..⟩
    · refine ⟨i, ?_⟩
      rw [Function.update_of_ne, hi]
      rintro rfl
      rcases firstHit_cases hj with hnone | ⟨b, hb⟩
      · rw [hnone] at hi
        cases hi
      · rw [hb] at hi
        cases hi
        exact hne rfl

theorem find_put (h : WF t seq) (hj : firstHit t k (seq k) = some j) (a : A) (k' : K) :
    find (OpenAddressing.put t j k a) seq k' = if k' = k then some a else find t seq k' := by
  ext a'
  rw [(h.put hj a).find_eq_some_iff, holds_put h hj]
  by_cases hk : k' = k
  · simp [hk, eq_comm]
  · simp [hk, h.find_eq_some_iff]

omit [DecidableEq K] in
theorem put_put (t : Table ι K A) (j : ι) (k : K) (a b : A) :
    OpenAddressing.put (OpenAddressing.put t j k a) j k b = OpenAddressing.put t j k b :=
  Function.update_idem ..

end Put

/-! ## Finding room -/

/-- A sequence with more different slots than are used meets a free one. -/
theorem exists_firstHit [DecidableEq ι] {t : Table ι K A} (k : K) {ps : List ι} (used : Finset ι)
    (hused : ∀ j ∈ ps, t j ≠ none → j ∈ used) (hcard : used.card < ps.toFinset.card) :
    ∃ j, firstHit t k ps = some j := by
  obtain ⟨j, hj, hfree⟩ := Finset.exists_mem_notMem_of_card_lt_card hcard
  rw [List.mem_toFinset] at hj
  have hnone : t j = none := by
    by_contra hne
    exact hfree (hused j hj hne)
  rw [← Option.isSome_iff_exists, firstHit, List.find?_isSome]
  exact ⟨j, hj, by simp [hit, hnone]⟩

/-! ## Linear probing in modular arithmetic

The numbers `k, k + 1, ..` are reduced first to the word size `M` and then to the capacity. Where
they wrap around at `M` the slots start again at zero, so some may be tried twice. -/

/-- The slots tried for `k`. -/
def linear (M cap k : ℕ) : List ℕ := (List.range cap).map fun i => (k + i) % M % cap

theorem mem_linear_lt {M cap k j : ℕ} (h : j ∈ linear M cap k) : j < cap := by
  unfold linear at h
  rw [List.mem_map] at h
  obtain ⟨i, hi, rfl⟩ := h
  rw [List.mem_range] at hi
  exact Nat.mod_lt _ (by omega)

/-- Up to `cap` consecutive numbers fall into different slots. -/
theorem injOn_add_mod (cap k : ℕ) :
    ∀ i < cap, ∀ j < cap, (k + i) % cap = (k + j) % cap → i = j := by
  intro i hi j hj h
  have h' : i % cap = j % cap := Nat.ModEq.add_left_cancel' k h
  rwa [Nat.mod_eq_of_lt hi, Nat.mod_eq_of_lt hj] at h'

/-- Without a wrap all slots are tried. -/
theorem mem_linear_of_lt {M cap k j : ℕ} (hle : k + cap ≤ M) (hj : j < cap) :
    j ∈ linear M cap k := by
  have hmod : k % cap < cap := Nat.mod_lt _ (by omega)
  have hi : (j + cap - k % cap) % cap < cap := Nat.mod_lt _ (by omega)
  unfold linear
  rw [List.mem_map]
  refine ⟨(j + cap - k % cap) % cap, List.mem_range.2 hi, ?_⟩
  have hlt : k + (j + cap - k % cap) % cap < M := by omega
  have hsum : k % cap + (j + cap - k % cap) = j + cap := by omega
  rw [Nat.mod_eq_of_lt hlt, Nat.add_mod_mod, ← Nat.mod_add_mod, hsum, Nat.add_mod_right,
    Nat.mod_eq_of_lt hj]

/-- With one, those from that of `k` on as far as there are numbers, and then the first ones. -/
theorem mem_linear_of_wrap {M cap k j : ℕ} (hk : k < M) (hcap : cap ≤ M) (hw : M < k + cap) :
    j ∈ linear M cap k ↔ (∃ i < M - k, j = (k + i) % cap) ∨ j < k + cap - M := by
  unfold linear
  rw [List.mem_map]
  constructor
  · rintro ⟨i, hi, rfl⟩
    rw [List.mem_range] at hi
    by_cases h : k + i < M
    · rw [Nat.mod_eq_of_lt h]
      exact .inl ⟨i, by omega, rfl⟩
    · rw [Nat.mod_eq_sub_mod (Nat.le_of_not_lt h), Nat.mod_eq_of_lt (show k + i - M < M by omega),
        Nat.mod_eq_of_lt (show k + i - M < cap by omega)]
      exact .inr (by omega)
  · rintro (⟨i, hi, rfl⟩ | hj)
    · exact ⟨i, List.mem_range.2 (by omega), by rw [Nat.mod_eq_of_lt (show k + i < M by omega)]⟩
    · refine ⟨j + M - k, List.mem_range.2 (by omega), ?_⟩
      have hsum : k + (j + M - k) = j + M := by omega
      rw [hsum, Nat.add_mod_right, Nat.mod_eq_of_lt (show j < M by omega),
        Nat.mod_eq_of_lt (show j < cap by omega)]

/-- The slots below `M % cap` are tried for every `k`: they are reached from `k` on before the wrap,
    or else after it. -/
theorem mem_linear_of_lt_mod {M cap k j : ℕ} (hk : k < M) (hcap : cap ≤ M) (hpos : 0 < cap)
    (hj : j < M % cap) : j ∈ linear M cap k := by
  have hmod : M % cap < cap := Nat.mod_lt _ hpos
  have hle := Nat.mod_le M cap
  by_cases hw : k + cap ≤ M
  · exact mem_linear_of_lt hw (hj.trans hmod)
  · rw [mem_linear_of_wrap hk hcap (Nat.lt_of_not_le hw)]
    by_cases hj' : j < k + cap - M
    · exact .inr hj'
    · -- the number `M - M % cap + j` is below `M` and not below `k`
      refine .inl ⟨M - M % cap + j - k, by omega, ?_⟩
      rw [show k + (M - M % cap + j - k) = j + (M - M % cap) by omega,
        show M - M % cap = cap * (M / cap) by have := Nat.div_add_mod M cap; omega,
        Nat.add_mul_mod_self_left, Nat.mod_eq_of_lt (hj.trans hmod)]

theorem card_linear {M cap k : ℕ} (hk : k < M) (hcap : cap ≤ M) :
    cap ≤ 2 * (linear M cap k).toFinset.card := by
  have hmem : ∀ i < cap, (k + i) % M % cap ∈ (linear M cap k).toFinset := fun i hi => by
    rw [List.mem_toFinset, linear, List.mem_map]
    exact ⟨i, List.mem_range.2 hi, rfl⟩
  by_cases hw : cap ≤ 2 * (M - k)
  · -- enough slots before the wrap
    have hle := Finset.card_le_card_of_injOn (s := Finset.range (min cap (M - k)))
      (t := (linear M cap k).toFinset) (fun i => (k + i) % cap) (fun i hi => ?_)
      (fun i hi j hj h => ?_)
    · rw [Finset.card_range] at hle
      omega
    · rw [Finset.mem_coe, Finset.mem_range] at hi
      have := hmem i (by omega)
      rwa [Nat.mod_eq_of_lt (show k + i < M by omega)] at this
    · rw [Finset.mem_coe, Finset.mem_range] at hi hj
      exact injOn_add_mod cap k i (by omega) j (by omega) h
  · -- enough slots after it
    have hle := Finset.card_le_card_of_injOn (s := Finset.range (cap - (M - k)))
      (t := (linear M cap k).toFinset) (fun i => i) (fun i hi => ?_) (fun i _ j _ h => h)
    · rw [Finset.card_range] at hle
      omega
    · rw [Finset.mem_coe, Finset.mem_range] at hi
      have := hmem (i + (M - k)) (by omega)
      have hwrap : k + (i + (M - k)) = i + M := by omega
      rw [hwrap, Nat.add_mod_right, Nat.mod_eq_of_lt (show i < M by omega),
        Nat.mod_eq_of_lt (show i < cap by omega)] at this
      exact this

end OpenAddressing
