import Mathlib.Data.List.DropRight
import Mathlib.Tactic.Tauto

set_option autoImplicit false

/-! # Reading a list through a window

A list is cut into windows of `n` elements, the last one of which may be shorter, and each window is
stripped of the blank elements at its ends. What is left is the list stripped as a whole, in one
piece, exactly when the elements that are not blank lie in one window. -/

namespace Windows

variable {α : Type} {n : ℕ} {p : α → Bool} {l r : List α}

def windows (n : ℕ) (l : List α) : List (List α) :=
  if _h : 0 < n ∧ l ≠ [] then l.take n :: windows n (l.drop n) else []
termination_by l.length
decreasing_by
  have := List.length_pos_of_ne_nil _h.2
  rw [List.length_drop]
  omega

/-- A list without the elements at its ends that are blank. -/
def strip (p : α → Bool) (l : List α) : List α := (l.dropWhile p).rdropWhile p

/-- The windows, stripped, as far as there is something in them. -/
def pieces (n : ℕ) (p : α → Bool) (l : List α) : List (List α) :=
  ((windows n l).map (strip p)).filter (fun w => !w.isEmpty)

/-- The elements that are not blank lie in one window. -/
def Within (n : ℕ) (p : α → Bool) (l : List α) : Prop :=
  ∀ i j x y, l[i]? = some x → p x = false → l[j]? = some y → p y = false → i / n = j / n

/-! ## Stripping -/

theorem strip_eq_nil_iff : strip p l = [] ↔ ∀ x ∈ l, p x = true := by
  rw [strip, List.rdropWhile_eq_nil_iff]
  constructor
  · intro h x hx
    rw [← List.takeWhile_append_dropWhile (p := p) (l := l), List.mem_append] at hx
    exact hx.elim List.mem_takeWhile_imp (h x)
  · intro h x hx
    exact h x ((List.dropWhile_sublist _).subset hx)

/-- Something is left exactly when there is an element that is not blank. -/
theorem strip_ne_nil_iff : strip p l ≠ [] ↔ ∃ (i : ℕ) (x : α), l[i]? = some x ∧ p x = false := by
  rw [Ne, strip_eq_nil_iff]
  constructor
  · intro h
    obtain ⟨x, hx⟩ := not_forall.1 h
    obtain ⟨hmem, hp⟩ := Classical.not_imp.1 hx
    obtain ⟨i, hi⟩ := List.mem_iff_getElem?.1 hmem
    exact ⟨i, x, hi, by simpa using hp⟩
  · intro h hall
    obtain ⟨i, x, hi, hx⟩ := h
    simp [hall x (List.mem_of_getElem? hi)] at hx

theorem strip_append_right (h : strip p r = []) : strip p (l ++ r) = strip p l := by
  rw [strip_eq_nil_iff] at h
  unfold strip
  rw [List.dropWhile_append]
  by_cases hl : (l.dropWhile p).isEmpty
  · have hr : r.dropWhile p = [] := List.dropWhile_eq_nil_iff.2 h
    rw [List.isEmpty_iff] at hl
    simp [hl, hr]
  · rw [if_neg hl]
    induction r using List.reverseRecOn with
    | nil => simp
    | append_singleton r x ih =>
        rw [← List.append_assoc, List.rdropWhile_concat_pos _ _ _ (h x (by simp))]
        exact ih (fun y hy => h y (List.mem_append_left _ hy))

theorem strip_append_left (h : strip p l = []) : strip p (l ++ r) = strip p r := by
  rw [strip_eq_nil_iff] at h
  have hl : l.dropWhile p = [] := List.dropWhile_eq_nil_iff.2 h
  simp [strip, List.dropWhile_append, hl]

/-! ## Windows -/

theorem windows_nil : windows n ([] : List α) = [] := by
  rw [windows]
  simp

theorem windows_cons (hn : 0 < n) (h : l ≠ []) :
    windows n l = l.take n :: windows n (l.drop n) := by
  rw [windows, dif_pos ⟨hn, h⟩]

theorem pieces_nil : pieces n p ([] : List α) = [] := by
  rw [pieces, windows_nil]
  rfl

/-- What a window leaves. -/
def piece (p : α → Bool) (w : List α) : List (List α) := [strip p w].filter (fun w => !w.isEmpty)

theorem piece_eq_nil_iff {w : List α} : piece p w = [] ↔ strip p w = [] := by
  by_cases h : strip p w = [] <;> simp [piece, h]

theorem length_piece_le (w : List α) : (piece p w).length ≤ 1 := List.length_filter_le _ _

theorem pieces_cons (hn : 0 < n) (h : l ≠ []) :
    pieces n p l = piece p (l.take n) ++ pieces n p (l.drop n) := by
  rw [pieces, windows_cons hn h, List.map_cons, ← List.singleton_append, List.filter_append]
  rfl

theorem strip_take_drop (h : strip p (l.take n) = [] ∨ strip p (l.drop n) = []) :
    piece p l = piece p (l.take n) ++ piece p (l.drop n) := by
  have hsplit := List.take_append_drop n l
  rcases h with h | h
  · rw [piece_eq_nil_iff.2 h, List.nil_append, piece, ← hsplit, strip_append_left h, hsplit]
    rfl
  · rw [piece_eq_nil_iff.2 h, List.append_nil, piece, ← hsplit, strip_append_right h, hsplit]
    rfl

/-- The elements that are not blank lie in one window: all of them behind the first one, or all of
    them in it. -/
theorem within_iff (hn : 0 < n) :
    Within n p l ↔ (strip p (l.take n) = [] ∧ Within n p (l.drop n)) ∨ strip p (l.drop n) = [] := by
  have htake {i : ℕ} {x : α} : (l.take n)[i]? = some x ↔ i < n ∧ l[i]? = some x := by
    rw [List.getElem?_take]
    split_ifs with hi <;> simp [hi]
  have hdrop {i : ℕ} : (l.drop n)[i]? = l[n + i]? := List.getElem?_drop
  have hdiv (i : ℕ) : (n + i) / n = i / n + 1 := by
    rw [Nat.add_div_left i hn]
  constructor
  · intro h
    by_cases hfirst : strip p (l.take n) = []
    · refine Or.inl ⟨hfirst, fun i j x y hi hx hj hy => ?_⟩
      have := h (n + i) (n + j) x y (hdrop ▸ hi) hx (hdrop ▸ hj) hy
      rw [hdiv, hdiv] at this
      exact Nat.succ.inj this
    · right
      by_contra hrest
      obtain ⟨i, x, hi, hx⟩ := strip_ne_nil_iff.1 hfirst
      obtain ⟨j, y, hj, hy⟩ := strip_ne_nil_iff.1 hrest
      obtain ⟨hlt, hi⟩ := htake.1 hi
      have := h i (n + j) x y hi hx (hdrop ▸ hj) hy
      rw [hdiv, Nat.div_eq_of_lt hlt] at this
      exact Nat.succ_ne_zero _ this.symm
  · intro h i j x y hi hx hj hy
    have hlow {i : ℕ} {x : α} (hi : l[i]? = some x) (hx : p x = false)
        (h0 : strip p (l.take n) = []) : n ≤ i := by
      by_contra hlt
      exact strip_ne_nil_iff.2 ⟨i, x, htake.2 ⟨by omega, hi⟩, hx⟩ h0
    have hhigh {i : ℕ} {x : α} (hi : l[i]? = some x) (hx : p x = false)
        (h0 : strip p (l.drop n) = []) : i < n := by
      by_contra hle
      refine strip_ne_nil_iff.2 ⟨i - n, x, ?_, hx⟩ h0
      rw [hdrop, Nat.add_sub_cancel' (by omega), hi]
    rcases h with ⟨hfirst, hrest⟩ | hrest
    · obtain ⟨i, rfl⟩ := Nat.exists_eq_add_of_le (hlow hi hx hfirst)
      obtain ⟨j, rfl⟩ := Nat.exists_eq_add_of_le (hlow hj hy hfirst)
      rw [hdiv, hdiv, hrest i j x y (hdrop ▸ hi) hx (hdrop ▸ hj) hy]
    · rw [Nat.div_eq_of_lt (hhigh hi hx hrest), Nat.div_eq_of_lt (hhigh hj hy hrest)]

theorem pieces_eq_nil_iff (hn : 0 < n) (l : List α) : pieces n p l = [] ↔ strip p l = [] := by
  induction l using windows.induct n with
  | case1 l h ih =>
      rw [pieces_cons hn h.2, List.append_eq_nil_iff, ih, piece_eq_nil_iff, strip_eq_nil_iff,
        strip_eq_nil_iff, strip_eq_nil_iff, ← List.forall_mem_append, List.take_append_drop]
  | case2 l h =>
      obtain rfl : l = [] := by tauto
      simp [pieces_nil, strip]

/-- **In one window**: the list comes out in one piece. -/
theorem pieces_of_within (hn : 0 < n) (h : Within n p l) : pieces n p l = piece p l := by
  induction l using windows.induct n with
  | case1 l hl ih =>
      rw [pieces_cons hn hl.2]
      rcases (within_iff hn).1 h with ⟨hfirst, hrest⟩ | hrest
      · rw [ih hrest, strip_take_drop (Or.inl hfirst)]
      · rw [(pieces_eq_nil_iff hn _).2 hrest, strip_take_drop (Or.inr hrest),
          piece_eq_nil_iff.2 hrest]
  | case2 l hl =>
      obtain rfl : l = [] := by tauto
      simp [pieces_nil, piece, strip]

/-- **In more than one window**: there are more pieces. -/
theorem within_of_length_pieces (hn : 0 < n) (h : (pieces n p l).length ≤ (piece p l).length) :
    Within n p l := by
  have hle : (pieces n p l).length ≤ 1 := h.trans (length_piece_le l)
  clear h
  induction l using windows.induct n with
  | case1 l hl ih =>
      rw [pieces_cons hn hl.2, List.length_append] at hle
      rw [within_iff hn]
      by_cases hfirst : strip p (l.take n) = []
      · exact Or.inl ⟨hfirst, ih (by omega)⟩
      · right
        have hpos := List.length_pos_of_ne_nil (fun h => hfirst (piece_eq_nil_iff.1 h))
        exact (pieces_eq_nil_iff hn _).1 (List.eq_nil_of_length_eq_zero (by omega))
  | case2 l hl =>
      obtain rfl : l = [] := by tauto
      intro i j x y hi
      simp at hi

/-- There is never less than the list in one piece. -/
theorem length_piece_le_length_pieces (hn : 0 < n) (l : List α) :
    (piece p l).length ≤ (pieces n p l).length := by
  by_cases h : strip p l = []
  · simp [piece_eq_nil_iff.2 h]
  · have := List.length_pos_of_ne_nil (fun hp => h ((pieces_eq_nil_iff hn l).1 hp))
    exact (length_piece_le l).trans this

end Windows
