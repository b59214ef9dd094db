import CS238P.Shell.Model
import CS238P.Library.Windows

set_option autoImplicit false

/-! # What `shell_strtrim` does

The string loses the white space at both ends; the bytes in front of it and behind its terminator
stay. -/

namespace CS238P.Shell

open CObject

/-- A string without the white space at its ends. -/
def trim (s : List UInt8) : List UInt8 := (s.dropWhile isspace).rdropWhile isspace

theorem trim_eq_nil_iff {s : List UInt8} : trim s = [] ↔ ∀ c ∈ s, isspace c = true :=
  Windows.strip_eq_nil_iff

/-- White space, the trimmed string, white space. -/
theorem trim_split {s : List UInt8} (h : trim s ≠ []) :
    ∃ u v, s = u ++ (trim s ++ v) ∧ (∀ c ∈ u, isspace c = true) ∧ (∀ c ∈ v, isspace c = true) ∧
      (∃ c t, trim s = c :: t ∧ isspace c = false) ∧
      ∃ t c, trim s = t ++ [c] ∧ isspace c = false := by
  refine ⟨s.takeWhile isspace, (s.dropWhile isspace).rtakeWhile isspace, ?_,
    fun c hc => List.mem_takeWhile_imp hc, fun c hc => List.mem_rtakeWhile_imp hc, ?_, ?_⟩
  · rw [trim, List.rdropWhile_append_rtakeWhile, List.takeWhile_append_dropWhile]
  · obtain ⟨c, t, ht⟩ := List.exists_cons_of_ne_nil h
    refine ⟨c, t, ht, ?_⟩
    obtain ⟨t', ht'⟩ : trim s <+: s.dropWhile isspace := List.rdropWhile_prefix _ _
    rw [ht, List.cons_append] at ht'
    have hne : s.dropWhile isspace ≠ [] := by
      rw [← ht']
      simp
    have := List.head_dropWhile_not isspace hne
    simpa [← ht'] using this
  · refine ⟨(trim s).dropLast, (trim s).getLast h, (List.dropLast_append_getLast h).symm, ?_⟩
    exact Bool.eq_false_iff.2 (List.rdropWhile_last_not isspace _ h)

theorem trim_ends (s : List UInt8) :
    (∀ c ∈ (trim s).head?, isspace c = false) ∧ ∀ c ∈ (trim s).getLast?, isspace c = false := by
  by_cases hnil : trim s = []
  · rw [hnil]
    simp
  · obtain ⟨-, -, -, -, -, ⟨c, t, hfirst, hc⟩, t', c', hlast, hc'⟩ := trim_split hnil
    refine ⟨?_, ?_⟩
    · rw [hfirst]
      simpa using hc
    · rw [hlast]
      simpa using hc'

/-- A string without white space at its ends. -/
theorem trim_eq_self_iff {s : List UInt8} :
    trim s = s ↔ (∀ c ∈ s.head?, isspace c = false) ∧ ∀ c ∈ s.getLast?, isspace c = false := by
  constructor
  · intro h
    have hends := trim_ends s
    rwa [h] at hends
  · intro h
    obtain ⟨hfirst, hlast⟩ := h
    have hdrop : s.dropWhile isspace = s := by
      cases s with
      | nil => rfl
      | cons c t => exact List.dropWhile_cons_of_neg (by simp [hfirst c rfl])
    rw [trim, hdrop, List.rdropWhile_eq_self_iff]
    intro hne
    simp [hlast (s.getLast hne) (List.getLast?_eq_some_getLast hne)]

theorem trim_trim (s : List UInt8) : trim (trim s) = trim s :=
  trim_eq_self_iff.2 (trim_ends s)

/-- `t` is what is left of `s` when the white space at both ends is taken away. -/
def Trims (s t : List UInt8) : Prop :=
  ∃ u v, s = u ++ (t ++ v) ∧ (∀ c ∈ u, isspace c = true) ∧ (∀ c ∈ v, isspace c = true) ∧
    (∀ c ∈ t.head?, isspace c = false) ∧ ∀ c ∈ t.getLast?, isspace c = false

/-- Nothing else is left than what `trim` computes. -/
theorem trims_iff {s t : List UInt8} : Trims s t ↔ t = trim s := by
  constructor
  · intro h
    obtain ⟨u, v, rfl, hu, hv, hends⟩ := h
    have hself : trim t = t := trim_eq_self_iff.2 hends
    rw [trim, ← Windows.strip, Windows.strip_append_left (trim_eq_nil_iff.2 hu),
      Windows.strip_append_right (trim_eq_nil_iff.2 hv)]
    exact hself.symm
  · rintro rfl
    have hends := trim_ends s
    by_cases hnil : trim s = []
    · exact ⟨s, [], by simp [hnil], trim_eq_nil_iff.1 hnil, by simp, hends⟩
    · obtain ⟨u, v, hsplit, hu, hv, -, -⟩ := trim_split hnil
      exact ⟨u, v, hsplit, hu, hv, hends⟩

variable {o : CObject} {l r : List UInt8}

theorem skipForward_eq {u t : List UInt8} {b e : ℤ} {f : ℕ} (hb : o.bytes = l ++ (u ++ t))
    (hat : b = l.length) (hu : ∀ c ∈ u, isspace c = true) (hfuel : u.length ≤ f)
    (he : b + u.length ≤ e + 1)
    (hstop : e < b + u.length ∨ ∃ c t', t = c :: t' ∧ isspace c = false) :
    skipForward o e f b = some (b + u.length) := by
  induction u generalizing l b f with
  | nil =>
      rw [List.length_nil, Nat.cast_zero, add_zero] at hstop ⊢
      cases f with
      | zero => rfl
      | succ f =>
          rw [skipForward]
          split_ifs with hle
          · obtain ⟨c, t', rfl, hc⟩ := hstop.resolve_left (by omega)
            rw [load_mid hb hat, Option.bind_eq_bind, Option.bind_some, if_neg (by simp [hc])]
          · rfl
  | cons c u ih =>
      rw [List.length_cons, Nat.cast_add, Nat.cast_one] at he hstop ⊢
      rw [List.length_cons] at hfuel
      obtain ⟨f, rfl⟩ : ∃ k, f = k + 1 := ⟨f - 1, by omega⟩
      rw [skipForward, if_pos (by omega), load_mid hb hat, Option.bind_eq_bind, Option.bind_some,
        if_pos (hu c (List.mem_cons_self ..)),
        ih (l := l ++ [c]) (b := b + 1) (by rw [hb]; simp) (by simp [hat])
          (fun d hd => hu d (List.mem_cons_of_mem _ hd)) (by omega) (by omega)
          (hstop.imp_left (by omega))]
      congr 1
      omega

theorem skipBackward_eq {w v : List UInt8} {b e : ℤ} {f : ℕ} (hb : o.bytes = w ++ (v ++ r))
    (hat : e + 1 = w.length + v.length) (hv : ∀ c ∈ v, isspace c = true) (hfuel : v.length ≤ f)
    (hle : b ≤ w.length)
    (hstop : (w.length : ℤ) ≤ b ∨ ∃ w' c, w = w' ++ [c] ∧ isspace c = false) :
    skipBackward o b f e = some ((w.length : ℤ) - 1) := by
  induction v using List.reverseRecOn generalizing r e f with
  | nil =>
      have hbe : e = (w.length : ℤ) - 1 := by
        rw [List.length_nil] at hat
        omega
      rw [hbe]
      cases f with
      | zero => rfl
      | succ f =>
          rw [skipBackward]
          split_ifs with hlo
          · obtain ⟨w', c, rfl, hc⟩ := hstop.resolve_left (by omega)
            rw [load_mid (l := w') (r := r) (x := c) (by rw [hb]; simp) (by simp),
              Option.bind_eq_bind, Option.bind_some, if_neg (by simp [hc])]
          · rfl
  | append_singleton v c ih =>
      rw [List.length_append, List.length_singleton] at hat hfuel
      obtain ⟨f, rfl⟩ : ∃ k, f = k + 1 := ⟨f - 1, by omega⟩
      rw [skipBackward, if_pos (by omega),
        load_mid (l := w ++ v) (r := r) (x := c) (by rw [hb]; simp) (by simp; omega),
        Option.bind_eq_bind, Option.bind_some, if_pos (hv c (by simp)),
        ih (r := c :: r) (by rw [hb]; simp) (by omega)
          (fun d hd => hv d (List.mem_append_left _ hd)) (by omega)]

theorem length_trim_le (s : List UInt8) : (trim s).length ≤ s.length :=
  ((List.rdropWhile_prefix _ _).sublist.trans (List.dropWhile_sublist _)).length_le

theorem mem_of_mem_trim {s : List UInt8} {c : UInt8} (h : c ∈ trim s) : c ∈ s :=
  ((List.rdropWhile_prefix _ _).sublist.trans (List.dropWhile_sublist _)).subset h

/-- What is behind the string that is left, up to the end of the old one. -/
def debris (s : List UInt8) : List UInt8 := (s ++ [0]).drop ((trim s).length + 1)

theorem length_debris (s : List UInt8) : (trim s).length + (debris s).length = s.length := by
  have hle := length_trim_le s
  simp [debris]
  omega

/-- The end of `shell_strtrim`: what is left of the string goes to its front. -/
theorem trimmed_eq {s : List UInt8} {a b : ℤ} (hb : o.bytes = l ++ (s ++ (0 :: r)))
    (hat : a = l.length) (hread : o.read b (trim s).length = some (trim s)) :
    (o.memmove a b (trim s).length).bind (fun o => o.store (a + (trim s).length) 0) =
      some ⟨l ++ (trim s ++ (0 :: (debris s ++ r))),
        o.written ++ span a ((trim s).length + 1)⟩ := by
  have hle := length_trim_le s
  have hlt : (trim s).length < (s ++ [0]).length := by
    rw [List.length_append, List.length_singleton]
    omega
  have hcut : o.bytes = l ++ ((s ++ [0]).take (trim s).length ++
      ((s ++ [0])[(trim s).length] :: (debris s ++ r))) := by
    rw [hb, debris, ← List.cons_append, ← List.drop_eq_getElem_cons hlt, ← List.append_assoc
      (List.take _ _), List.take_append_drop, List.append_assoc]
    rfl
  have hmove : o.memmove a b (trim s).length =
      some ⟨l ++ (trim s ++ ((s ++ [0])[(trim s).length] :: (debris s ++ r))),
        o.written ++ span a (trim s).length⟩ := by
    unfold memmove
    rw [hread]
    exact write_mid hcut hat (by simp; omega)
  have hstore := store_mid (o := ⟨l ++ (trim s ++ ((s ++ [0])[(trim s).length] :: (debris s ++ r))),
    o.written ++ span a (trim s).length⟩) (l := l ++ trim s) (x := (s ++ [0])[(trim s).length])
    (r := debris s ++ r) (a := a + (trim s).length) (by simp) (by simp [hat]) 0
  rw [hmove, Option.bind_some, hstore, span_succ a, List.append_assoc l, List.append_assoc o.written]

/-- **`shell_strtrim` leaves the trimmed string**, writing over the string alone. -/
theorem strtrim_spec {s : List UInt8} {a : ℤ} (hb : o.bytes = l ++ (s ++ (0 :: r)))
    (hat : a = l.length) (hs : (0 : UInt8) ∉ s) :
    strtrim o a = some ⟨l ++ (trim s ++ (0 :: (debris s ++ r))),
      o.written ++ span a ((trim s).length + 1)⟩ := by
  unfold strtrim
  simp only [Option.bind_eq_bind]
  rw [strlen_mid hb hat hs, Option.bind_some]
  by_cases hblank : trim s = []
  · have hspace := trim_eq_nil_iff.1 hblank
    have hforward := skipForward_eq (e := a + s.length - 1) hb hat hspace le_rfl (by omega)
      (Or.inl (by omega))
    have hbackward := skipBackward_eq (b := a) (e := a + s.length - 1) hb (by omega) hspace le_rfl
      (by omega) (Or.inl (by omega))
    rw [hforward, Option.bind_some, hbackward, Option.bind_some, if_neg (by omega)]
    have hread : o.read (a + s.length) (trim s).length = some (trim s) := by
      rw [hblank]
      exact read_mid (l := l ++ s) (m := []) (r := 0 :: r) (by rw [hb]; simp) (by simp [hat])
    have := trimmed_eq hb hat hread
    rw [hblank] at this ⊢
    exact this
  · obtain ⟨u, v, hsplit, hu, hv, ⟨c, t, hfirst, hc⟩, ⟨t', c', hlast, hc'⟩⟩ := trim_split hblank
    have hlen : s.length = u.length + ((trim s).length + v.length) := by
      rw [hsplit, List.length_append, List.length_append, ← hsplit]
    have hpos : 0 < (trim s).length := List.length_pos_of_ne_nil hblank
    have hbytes : o.bytes = l ++ (u ++ (trim s ++ (v ++ (0 :: r)))) := by
      rw [hb]
      conv_lhs => rw [hsplit]
      simp
    have hforward := skipForward_eq (o := o) (l := l) (u := u) (t := trim s ++ (v ++ (0 :: r)))
      (e := a + s.length - 1) (f := s.length) hbytes hat hu
      (by omega) (by omega) (Or.inr ⟨c, t ++ (v ++ (0 :: r)), by rw [hfirst]; rfl, hc⟩)
    have hbackward := skipBackward_eq (o := o) (w := l ++ (u ++ trim s)) (v := v) (r := 0 :: r)
      (b := a) (e := a + s.length - 1) (f := s.length) (by rw [hbytes]; simp)
      (by simp; omega) hv (by omega) (by simp; omega)
      (Or.inr ⟨l ++ (u ++ t'), c', by rw [hlast]; simp, hc'⟩)
    have hn : (((l ++ (u ++ trim s)).length : ℤ) - 1 - (a + u.length) + 1).toNat =
        (trim s).length := by
      simp
      omega
    rw [hforward, Option.bind_some, hbackward, Option.bind_some, if_pos (by simp; omega), hn]
    exact trimmed_eq hb hat (read_mid (l := l ++ u) (r := v ++ (0 :: r))
      (by rw [hbytes]; simp) (by simp [hat]))

/-- The same, for callers to whom it does not matter which bytes are behind the string. -/
theorem strtrim_eq {s : List UInt8} {a : ℤ} (hb : o.bytes = l ++ (s ++ (0 :: r)))
    (hat : a = l.length) (hs : (0 : UInt8) ∉ s) :
    ∃ junk written, strtrim o a = some ⟨l ++ (trim s ++ (0 :: (junk ++ r))), written⟩ ∧
      (trim s).length + junk.length = s.length :=
  ⟨_, _, strtrim_spec hb hat hs, length_debris s⟩

/-- `shell_strtrim` makes `t` of the string `s`, which lies behind `l` and in front of `r`. An access
    outside of an object has no result: that the object may end with the terminator, and that what
    is around the string is neither asked nor changed, says that all accesses are to the string and
    its terminator. -/
structure TrimsTo (l s r t : List UInt8) : Prop where
  trims : Trims s t
  unique : ∀ t', Trims s t' → t' = t
  alone : strtrim ⟨s ++ [0], []⟩ 0 = some ⟨t ++ (0 :: debris s), span 0 (t.length + 1)⟩
  within : ∀ written, strtrim ⟨l ++ (s ++ (0 :: r)), written⟩ l.length =
    some ⟨l ++ (t ++ (0 :: (debris s ++ r))), written ++ span l.length (t.length + 1)⟩
  length : t.length + (debris s).length = s.length
  again : ∀ written, ∃ written', strtrim ⟨l ++ (t ++ (0 :: (debris s ++ r))), written⟩ l.length =
    some ⟨l ++ (t ++ (0 :: (debris s ++ r))), written'⟩

/-- A string that is trimmed already stays, and so do the bytes behind it. -/
theorem debris_trim (s : List UInt8) : debris (trim s) = [] := by
  have := length_debris (trim s)
  rw [trim_trim] at this
  exact List.eq_nil_of_length_eq_zero (by omega)

/-- **`shell_strtrim` trims in place**, whatever is around the string. -/
theorem strtrim_trims (l r : List UInt8) {s : List UInt8} (hs : (0 : UInt8) ∉ s) :
    ∃ t, TrimsTo l s r t := by
  refine ⟨trim s, trims_iff.2 rfl, fun t' ht' => trims_iff.1 ht', ?_, fun written => ?_,
    length_debris s, fun written => ?_⟩
  · have halone := strtrim_spec (o := ⟨s ++ [0], []⟩) (l := []) (r := []) rfl rfl hs
    simpa using halone
  · exact strtrim_spec rfl rfl hs
  · have htrim : (0 : UInt8) ∉ trim s := fun hm => hs (mem_of_mem_trim hm)
    have hagain := strtrim_spec (o := ⟨l ++ (trim s ++ (0 :: (debris s ++ r))), written⟩) rfl rfl
      htrim
    rw [trim_trim, debris_trim, List.nil_append] at hagain
    exact ⟨_, hagain⟩

/-- White space on both sides of one letter, between two other bytes. -/
theorem strtrim_trims_padded : ∃ t, TrimsTo [1] [32, 97, 9] [2] t :=
  strtrim_trims [1] [2] (by decide)

/-! ## The line being edited -/

/-- The line is the string `s`. -/
def LineIs (st : State) (s : List UInt8) : Prop :=
  ∃ l r, st.mem.bytes = l ++ (s ++ (0 :: r)) ∧ st.buf = l.length ∧ (0 : UInt8) ∉ s

variable {st : State}

/-- A string whose length can be told. -/
theorem exists_of_strlen {len : ℕ} (h : st.mem.strlen st.buf = some len) :
    ∃ s, LineIs st s := by
  unfold CObject.strlen at h
  split_ifs at h with hpos
  obtain ⟨hlt, hnul, hbefore⟩ := List.findIdx?_eq_some_iff_getElem.1 h
  set bytes := st.mem.bytes.drop st.buf.toNat with hbytes
  have hlen : st.buf.toNat ≤ st.mem.bytes.length := by
    rw [hbytes, List.length_drop] at hlt
    omega
  have hzero : bytes[len] = 0 := beq_iff_eq.1 hnul
  refine ⟨bytes.take len, st.mem.bytes.take st.buf.toNat, bytes.drop (len + 1), ?_, ?_, ?_⟩
  · rw [← hzero, ← List.drop_eq_getElem_cons hlt, List.take_append_drop, hbytes,
      List.take_append_drop]
  · rw [List.length_take]
    omega
  · intro hm
    obtain ⟨i, hi, hget⟩ := List.mem_iff_getElem.1 hm
    rw [List.getElem_take] at hget
    rw [List.length_take] at hi
    have := hbefore i (by omega)
    rw [hget] at this
    exact this rfl

theorem LineIs.unique {s s' : List UInt8} (h : LineIs st s) (h' : LineIs st s') : s = s' := by
  obtain ⟨l, r, hb, hbuf, hnul⟩ := h
  obtain ⟨l', r', hb', hbuf', hnul'⟩ := h'
  have hl : l.length = l'.length := by omega
  rw [hb] at hb'
  obtain ⟨-, hsr⟩ := List.append_inj hb' hl
  rw [← takeWhile_nul hnul r, hsr, takeWhile_nul hnul' r']

theorem LineIs.strtrim {s : List UInt8} (h : LineIs st s) :
    ∃ mem, Shell.strtrim st.mem st.buf = some mem ∧ mem.strlen st.buf = some (trim s).length ∧
      mem.bytes.length = st.mem.bytes.length := by
  obtain ⟨l, r, hb, hbuf, hnul⟩ := h
  obtain ⟨junk, written, htrim, hlen⟩ := strtrim_eq hb hbuf hnul
  refine ⟨_, htrim, strlen_mid rfl hbuf (fun hm => hnul (mem_of_mem_trim hm)), ?_⟩
  rw [hb]
  simp only [List.length_append, List.length_cons]
  omega

end CS238P.Shell
