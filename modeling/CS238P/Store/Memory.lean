import CS238P.Store.Kvraw

set_option autoImplicit false

/-! # A log in memory

An implementation of the system under the store that behaves as documented: the log is kept in
memory, and which appends are to fail is part of the state. -/

namespace CS238P.Store

/-- The pieces that were appended, newest first, and the outcomes of the next appends; when the list
    is used up they succeed. -/
structure Memory where
  pieces : List (List UInt8)
  used : ℕ
  used_eq : used = pieces.reverse.flatten.length
  used_lt : used < 2 ^ 63
  outcomes : List Bool

namespace Memory

/-- The content of the log. -/
def log (m : Memory) : List UInt8 := m.pieces.reverse.flatten

/-- An empty log. -/
def empty (outcomes : List Bool) : Memory := ⟨[], 0, rfl, by decide, outcomes⟩

/-- Adds a piece, if it fits. -/
def push (m : Memory) (bs : List UInt8) : Bool × Memory :=
  if h : m.used + bs.length < 2 ^ 63 then
    (true, ⟨bs :: m.pieces, m.used + bs.length, by simp [m.used_eq], h, m.outcomes⟩)
  else (false, m)

/-- The next append, as it was planned. -/
def append (bs : List UInt8) (m : Memory) : Bool × Memory :=
  match m.outcomes with
  | [] => m.push bs
  | true :: rest => { m with outcomes := rest }.push bs
  | false :: rest => (false, { m with outcomes := rest })

/-- The calls. Memory that nothing was written to is zero. -/
def sys : Sys Memory where
  malloc n m := (decide (n.toNat < 2 ^ 63), m)
  uninit n _ := List.replicate n 0
  logfsOpen _ m := (true, empty m.outcomes)
  logfsRead off len m :=
    (if off.toNat + len.toNat ≤ m.used then some (Bytes.slice m.log off.toNat len.toNat) else none,
      m)
  logfsAppend := append

theorem log_push_of_true {m : Memory} {bs : List UInt8} (h : (m.push bs).1 = true) :
    (m.push bs).2.log = m.log ++ bs := by
  unfold push at *
  split at h
  · rename_i hlt
    rw [dif_pos hlt]
    simp [log]
  · cases h

theorem log_push_of_false {m : Memory} {bs : List UInt8} (h : (m.push bs).1 = false) :
    (m.push bs).2.log = m.log := by
  unfold push at *
  split at h
  · cases h
  · rename_i hlt
    rw [dif_neg hlt]

theorem log_append_of_true {m : Memory} {bs : List UInt8} (h : (append bs m).1 = true) :
    (append bs m).2.log = m.log ++ bs := by
  unfold append at *
  split at h
  · exact log_push_of_true h
  · exact log_push_of_true h
  · cases h

/-- An append that fails writes nothing. -/
theorem log_append_of_false {m : Memory} {bs : List UInt8} (h : (append bs m).1 = false) :
    (append bs m).2.log = m.log := by
  unfold append at *
  split at h
  · exact log_push_of_false h
  · exact log_push_of_false h
  · rfl

theorem documented : sys.Documented log where
  malloc_log _ _ := rfl
  malloc_le _ _ h := of_decide_eq_true h
  uninit_length _ _ := List.length_replicate
  open_log _ _ _ := rfl
  read_log _ _ _ := rfl
  read_some off len m bs h := by
    have hlen : m.log.length = m.used := m.used_eq.symm
    simp only [sys, Option.ite_none_right_eq_some] at h
    rw [hlen]
    exact ⟨h.1, (Option.some.inj h.2).symm⟩
  append_true _ _ h := log_append_of_true h
  append_false _ _ h := ⟨[], (List.append_nil _).trans (log_append_of_false h).symm⟩
  log_length m := by
    rw [log, ← m.used_eq]
    exact m.used_lt

theorem length_log (m : Memory) : m.log.length = m.used := m.used_eq.symm

theorem reads : sys.Reads log := by
  intro off len m hle
  rw [length_log] at hle
  simp [sys, hle]

theorem allocates : sys.Allocates := by
  intro n s hn
  show decide (n.toNat < 2 ^ 63) = true
  rw [decide_eq_true_eq]
  omega

end Memory

/-- A `kvraw` that was opened on a log in memory. -/
def openedOn (outcomes : List Bool) : Memory :=
  ⟨[[0], [0], (appendMeta [0] [0] 0).bytes], 18, rfl, by decide, outcomes⟩

end CS238P.Store
