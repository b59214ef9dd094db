import CS238P.Store.History
import CS238P.Store.IndexSpec

set_option autoImplicit false

/-! # The invariant of the store

After calls that returned 0 or +1 the log is a history, the index has the heads of its chains, and
the two counters count its bound keys and its superseded values (`Inv`). `Op.run_wp` is one call: it
keeps the invariant, and answers and writes what the newest records of its key say. -/

namespace CS238P.Store

/-- The log is the history of `recs`, and the index has its chains. -/
structure Shape (hash : List UInt8 → UInt64) (junk : UInt64) (recs : List Rec) (kvdb : Kvdb)
    (l : List UInt8) : Prop where
  ok : ∀ r ∈ recs, r.Ok
  log : l = history hash junk recs
  size : kvdb.kvraw.size.toNat = l.length
  index : kvdb.index.WF
  head : ∀ h, kvdb.index.head h = newest hash recs h

/-- The counters count bound keys and superseded values. -/
structure Counted (recs : List Rec) (kvdb : Kvdb) : Prop where
  size : kvdb.size.toNat = (LogMap.bound (writes recs)).card
  waste : kvdb.waste.toNat = LogMap.stale (writes recs)

variable {σ : Type}

/-- What holds between calls. -/
structure Inv (log : σ → List UInt8) (hash : List UInt8 → UInt64) (junk : UInt64) (recs : List Rec)
    (w : World σ) : Prop where
  shape : Shape hash junk recs w.kvdb (log w.sys)
  counted : Counted recs w.kvdb

/-! ## Counting -/

section Counting

variable {recs : List Rec} {kvdb kvdb' : Kvdb} {r : Rec}

theorem length_writes (recs : List Rec) : (writes recs).length = recs.length := List.length_map ..

/-- A new key. -/
theorem Counted.bind (h : Counted recs kvdb) (hlen : recs.length < 2 ^ 63)
    (hnone : value recs r.key = none) (hval : r.val ≠ [])
    (hsize : kvdb'.size = kvdb.size + 1) (hwaste : kvdb'.waste = kvdb.waste) :
    Counted (r :: recs) kvdb' := by
  have hle := LogMap.card_bound_le (writes recs)
  rw [length_writes] at hle
  have hcons : writes (r :: recs) = (r.key, some r.val) :: writes recs := by simp [writes, hval]
  have hsome : (LogMap.latest (writes recs) r.key).isSome = false := by
    rw [Option.isSome_eq_false_iff, Option.isNone_iff_eq_none]
    exact hnone
  refine ⟨?_, ?_⟩
  · rw [hsize, hcons, LogMap.card_bound_cons_some, hsome, UInt64.toNat_add, h.size,
      UInt64.toNat_one]
    simp only [Bool.false_eq_true, if_false]
    omega
  · rw [hwaste, hcons, LogMap.stale_cons, hsome, h.waste]
    rfl

/-- A new value for a bound key. -/
theorem Counted.rebind (h : Counted recs kvdb) (hlen : recs.length < 2 ^ 63)
    (hsome : value recs r.key ≠ none) (hval : r.val ≠ [])
    (hsize : kvdb'.size = kvdb.size) (hwaste : kvdb'.waste = kvdb.waste + 1) :
    Counted (r :: recs) kvdb' := by
  have hle := LogMap.stale_le (writes recs)
  rw [length_writes] at hle
  have hcons : writes (r :: recs) = (r.key, some r.val) :: writes recs := by simp [writes, hval]
  have hsome : (LogMap.latest (writes recs) r.key).isSome = true :=
    Option.isSome_iff_ne_none.2 hsome
  refine ⟨?_, ?_⟩
  · rw [hsize, hcons, LogMap.card_bound_cons_some, if_pos hsome, Nat.add_zero, h.size]
  · rw [hwaste, hcons, LogMap.stale_cons, if_pos hsome, UInt64.toNat_add, h.waste, UInt64.toNat_one]
    omega

/-- The removal of a bound key. -/
theorem Counted.unbind (h : Counted recs kvdb) (hlen : recs.length < 2 ^ 63)
    (hsome : value recs r.key ≠ none) (hval : r.val = [])
    (hsize : kvdb'.size = kvdb.size - 1) (hwaste : kvdb'.waste = kvdb.waste + 1) :
    Counted (r :: recs) kvdb' := by
  have hle := LogMap.stale_le (writes recs)
  have hle' := LogMap.card_bound_le (writes recs)
  rw [length_writes] at hle hle'
  have hcons : writes (r :: recs) = (r.key, none) :: writes recs := by simp [writes, hval]
  have hsome : (LogMap.latest (writes recs) r.key).isSome = true :=
    Option.isSome_iff_ne_none.2 hsome
  have hcard := LogMap.card_bound_cons_none r.key (writes recs) hsome
  refine ⟨?_, ?_⟩
  · rw [hsize, hcons, UInt64.toNat_sub, h.size, UInt64.toNat_one]
    omega
  · rw [hwaste, hcons, LogMap.stale_cons, if_pos hsome, UInt64.toNat_add, h.waste, UInt64.toNat_one]
    omega

end Counting

theorem Shape.length_eq {hash : List UInt8 → UInt64} {junk : UInt64} {recs : List Rec} {kvdb : Kvdb}
    {l : List UInt8} (h : Shape hash junk recs kvdb l) : l.length = endOff recs := by
  rw [h.log, length_history]

theorem Shape.endOff_lt {hash : List UInt8 → UInt64} {junk : UInt64} {recs : List Rec} {kvdb : Kvdb}
    {l : List UInt8} (h : Shape hash junk recs kvdb l) (hlt : l.length < 2 ^ 63) :
    endOff recs < 2 ^ 63 := by
  rwa [h.length_eq] at hlt

/-- The counters are no part of it. -/
theorem Shape.counters {hash : List UInt8 → UInt64} {junk : UInt64} {recs : List Rec} {kvdb : Kvdb}
    {l : List UInt8} (h : Shape hash junk recs kvdb l) {size waste : UInt64} :
    Shape hash junk recs { kvdb with size := size, waste := waste } l :=
  ⟨h.ok, h.log, h.size, h.index, h.head⟩

/-- There are not many records. -/
theorem length_lt_of_endOff {recs : List Rec} (h : endOff recs < 2 ^ 63) :
    recs.length < 2 ^ 63 := by
  have := endOff_ge recs
  omega

/-! ## The parts of a call -/

theorem onSys_wp {α : Type} {x : M σ α} {Q : α → σ → Prop} {E : Fail → σ → Prop} {w : World σ}
    (h : wp x Q E w.sys) :
    wp (onSys x) (fun a w' => w'.kvdb = w.kvdb ∧ Q a w'.sys)
      (fun e w' => w'.kvdb = w.kvdb ∧ E e w'.sys) w := by
  unfold wp at *
  unfold onSys
  cases hx : x w.sys with
  | ok a s => rw [hx] at h; exact ⟨rfl, h⟩
  | error e s => rw [hx] at h; exact ⟨rfl, h⟩

variable {sys : Sys σ} {log : σ → List UInt8} (hsys : sys.Documented log)
  {hash : List UInt8 → UInt64} {junk : UInt64} {recs : List Rec} {w : World σ}
include hsys

/-- `kvraw_append` through a slot of the index. If it fails, it has changed nothing but the log. -/
theorem appendRef_wp (key val : List UInt8) (ref : ℕ) :
    wp (appendRef sys key val ref)
      (fun _ w' => w'.kvdb.size = w.kvdb.size ∧ w'.kvdb.waste = w.kvdb.waste ∧
        w'.kvdb.index = w.kvdb.index.setOff ref w.kvdb.kvraw.size ∧
        w'.kvdb.kvraw.size = w.kvdb.kvraw.size +
          .ofNat (recordBytes key val (w.kvdb.index.slotAt ref).off).length ∧
        log w'.sys = log w.sys ++ recordBytes key val (w.kvdb.index.slotAt ref).off)
      (fun e w' => w'.kvdb = w.kvdb ∧ log w.sys <+: log w'.sys ∧ (e = .io .logfsAppend ∨
        (e = .assertion ∧ (key = [] ∨ 0xffff < key.length ∨ 0xffffffff < val.length)))) w := by
  unfold appendRef
  refine wp.bind (wp.getState ?_)
  refine wp.bind ((onSys_wp (kvrawAppend_wp hsys.logs _)).mono ?_ fun _ _ h => h)
  rintro ⟨kvraw, off⟩ w₁ ⟨h₁, -, -, -, hlog, hoff, hsize⟩
  refine wp.modifyState ⟨by rw [h₁], by rw [h₁], ?_, hsize, hlog⟩
  show w₁.kvdb.index.setOff ref off = _
  rw [h₁, show off = w.kvdb.kvraw.size from hoff]

/-- The slot `ref` is that of the hash `h`, and holds the head of its chain. -/
structure Slots (index : Index) (recs : List Rec) (hash : List UInt8 → UInt64) (h : UInt64)
    (ref : ℕ) : Prop where
  off : (index.slotAt ref).off = newest hash recs h
  set : ∀ off, (index.setOff ref off).WF ∧
    ∀ k, (index.setOff ref off).head k = if k = h then off else newest hash recs k

/-- One more record on the log. -/
theorem appendRef_shape {key val : List UInt8} {ref : ℕ}
    (h : Shape hash junk recs w.kvdb (log w.sys))
    (hslot : Slots w.kvdb.index recs hash (hashKey hash key) ref) (hok : Rec.Ok ⟨key, val⟩) :
    wp (appendRef sys key val ref)
      (fun _ w' => Shape hash junk (⟨key, val⟩ :: recs) w'.kvdb (log w'.sys) ∧
        w'.kvdb.size = w.kvdb.size ∧ w'.kvdb.waste = w.kvdb.waste)
      (fun e _ => e = .io .logfsAppend) w := by
  refine (appendRef_wp hsys key val ref).mono ?_ ?_
  · rintro - w' ⟨hs, hw, hindex, hsize, hlog⟩
    have hlt := hsys.log_length w'.sys
    have hend : w.kvdb.kvraw.size = .ofNat (endOff recs) := by
      rw [← length_history hash junk, ← h.log, ← h.size, UInt64.ofNat_toNat]
    refine ⟨⟨?_, ?_, ?_, ?_, ?_⟩, hs, hw⟩
    · intro r hr
      rcases List.mem_cons.1 hr with rfl | hr
      · exact hok
      · exact h.ok r hr
    · rw [hlog, history, hslot.off, h.log]
    · rw [hlog, List.length_append] at hlt ⊢
      rw [hsize, UInt64.toNat_add, UInt64.toNat_ofNat', h.size]
      omega
    · rw [hindex]
      exact (hslot.set _).1
    · intro k
      rw [hindex, (hslot.set _).2, newest, hend]
      by_cases hk : hashKey hash key = k
      · rw [if_pos hk, if_pos hk.symm]
      · rw [if_neg hk, if_neg (Ne.symm hk)]
  · rintro e w' ⟨-, -, he | ⟨-, hbad⟩⟩
    · exact he
    · obtain ⟨hk, hv⟩ := hok
      rcases hbad with h0 | h1 | h2
      · exact absurd h0 hk.ne_nil
      · exact absurd hk.2 (Nat.not_le.2 h1)
      · exact absurd hv (Nat.not_le.2 h2)

/-- `index_update` gives the slot of the key. The index may have grown, but it has the same
    heads. -/
theorem indexUpdate_shape {s : σ} {kvdb : Kvdb} (h : Shape hash junk recs kvdb (log s))
    (key : List UInt8) :
    wp (indexUpdate sys hash kvdb.index key)
      (fun r s' => log s' = log s ∧ Shape hash junk recs { kvdb with index := r.1 } (log s) ∧
        Slots r.1 recs hash (hashKey hash key) r.2)
      (fun e s' => log s' = log s ∧ ((∃ c, e = .io c) ∨ (e = .assertion ∧ key = []) ∨
        (e = .exitSoftware ∧ ¬ kvdb.index.HasRoom (hashKey hash key)))) s := by
  refine (indexUpdate_wp hsys h.index key).mono ?_ ?_
  · rintro ⟨index, ref⟩ s' ⟨hlog, -, hwf, hhead, hoff, hset⟩
    refine ⟨hlog, ⟨h.ok, h.log, h.size, hwf, fun k => ?_⟩, hoff.trans (h.head _), fun off => ?_⟩
    · exact (congrFun hhead k).trans (h.head k)
    · refine ⟨(hset off).1, fun k => ?_⟩
      rw [(hset off).2, h.head]
  · rintro e s' ⟨hlog, rfl | hbad⟩
    · exact ⟨hlog, .inl ⟨_, rfl⟩⟩
    · exact ⟨hlog, .inr hbad⟩

/-! ## `mutate` -/

omit hsys in
/-- The code that `mutate` returns, by whether the key is bound. -/
def Mode.code : Mode → Bool → Code
  | .insert, bound => if bound then .plusOne else .zero
  | .update, _ => .zero
  | .replace, bound => if bound then .zero else .plusOne
  | .remove, bound => if bound then .zero else .plusOne

/-- The value that `mutate` appends. -/
def Mode.stores (mode : Mode) (val : Option (List UInt8)) (valLen : Option UInt64) : List UInt8 :=
  if mode = .remove then [] else (val.getD []).take (valLen.getD 0).toNat

omit hsys in
/-- `*val_len` is the length of the value that is to be stored. -/
theorem Mode.stores_length {mode : Mode} (hmode : mode ≠ .remove) {val : List UInt8}
    (hle : val.length ≤ 0xffffffff) :
    mode.stores (some val) (some (.ofNat val.length)) = val := by
  rw [Mode.stores, if_neg hmode]
  refine List.take_of_length_le (Nat.le_of_eq ?_)
  rw [Option.getD_some, Option.getD_some, toNat_ofNat_length (by omega)]

/-- The records after a call that wrote `r` if it returned 0. -/
def wrote (recs : List Rec) (r : Rec) : Code → List Rec
  | .zero => r :: recs
  | .plusOne => recs

omit hsys in
/-- What the part of `mutate` behind the search does, but for how far it counts: it returns +1 and
    has changed nothing, or appends a record and returns 0. Before the record is appended a counter
    has moved if the mode is update, and none otherwise. -/
theorem mutateFound_rule {mode : Mode} {key : List UInt8} {val : Option (List UInt8)}
    {valLen : Option UInt64} {ref : ℕ} {out : ChainOut} {Q : Reply → World σ → Prop}
    {E : Fail → World σ → Prop} (hsame : ∀ val', Q ⟨.plusOne, val', valLen⟩ w)
    (happend : ∀ size waste,
      (mode = .update ↔ ¬ (size = w.kvdb.size ∧ waste = w.kvdb.waste)) →
      wp (appendRef sys key (mode.stores val valLen) ref)
        (fun _ w' => ∀ size waste val' valLen', Q ⟨.zero, val', valLen'⟩
          ⟨{ w'.kvdb with size := size, waste := waste }, w'.sys⟩)
        E ⟨{ w.kvdb with size := size, waste := waste }, w.sys⟩) :
    wp (mutateFound sys key val valLen ref out mode) Q E w := by
  have hplain := happend w.kvdb.size w.kvdb.waste
  cases mode with
  | remove =>
      rw [mutateFound]
      split
      · exact hsame _
      · refine wp.bind ((hplain (by simp)).mono (fun _ w₁ h₁ => ?_) fun _ _ h => h)
        exact wp.bind (wp.modifyState (wp.bind (wp.modifyState (h₁ _ _ _ _))))
  | insert =>
      rw [mutateFound]
      split
      · exact hsame _
      · refine wp.bind ((hplain (by simp)).mono (fun _ w₁ h₁ => ?_) fun _ _ h => h)
        exact wp.bind (wp.modifyState (h₁ _ _ _ _))
  | update =>
      rw [mutateFound]
      split
      · refine wp.bind (wp.modifyState (wp.bind ?_))
        refine (happend _ _ (by simp)).mono (fun _ w₁ h₁ => ?_) fun _ _ h => h
        exact h₁ w₁.kvdb.size w₁.kvdb.waste _ _
      · refine wp.bind (wp.modifyState (wp.bind ?_))
        refine (happend _ _ (by simp)).mono (fun _ w₁ h₁ => ?_) fun _ _ h => h
        exact h₁ w₁.kvdb.size w₁.kvdb.waste _ _
  | replace =>
      rw [mutateFound]
      split
      · exact hsame _
      · refine wp.bind ((hplain (by simp)).mono (fun _ w₁ h₁ => ?_) fun _ _ h => h)
        exact wp.bind (wp.modifyState (h₁ _ _ _ _))

/-- **The part of `mutate` behind the search.** -/
theorem mutateFound_wp {mode : Mode} {key : List UInt8} {val : Option (List UInt8)}
    {valLen : Option UInt64} {ref : ℕ} {out : ChainOut} (h : Inv log hash junk recs w)
    (hslot : Slots w.kvdb.index recs hash (hashKey hash key) ref)
    (hok : Rec.Ok ⟨key, mode.stores val valLen⟩)
    (hne : mode ≠ .remove → mode.stores val valLen ≠ [])
    (hout : out.off = 0 ∨ out.valLen = 0 ↔ value recs key = none) :
    wp (mutateFound sys key val valLen ref out mode)
      (fun reply w' => reply.code = mode.code (value recs key).isSome ∧
        Inv log hash junk (wrote recs ⟨key, mode.stores val valLen⟩ reply.code) w' ∧
        (mode = .remove → reply.code = .zero → valLen ≠ none →
          reply.val = out.val ∧ reply.valLen = some out.valLen))
      (fun e _ => e = .io .logfsAppend) w := by
  have hlen := length_lt_of_endOff (h.shape.endOff_lt (hsys.log_length w.sys))
  have happend : ∀ {w : World σ}, Shape hash junk recs w.kvdb (log w.sys) →
      Slots w.kvdb.index recs hash (hashKey hash key) ref → wp (appendRef sys key _ ref) _ _ w :=
    fun hshape hslot => appendRef_shape hsys hshape hslot hok
  by_cases hnone : out.off = 0 ∨ out.valLen = 0
  · -- the key is not bound, for want of a record or because the newest has no value
    have hv := hout.1 hnone
    rw [hv]
    cases mode with
    | remove =>
        rw [mutateFound, if_pos hnone]
        exact ⟨rfl, h, fun _ h0 => by cases h0⟩
    | insert =>
        rw [mutateFound, if_neg (by tauto)]
        refine wp.bind ((happend h.shape hslot).mono ?_ fun _ _ h => h)
        rintro - w₁ ⟨hshape, hsize, hwaste⟩
        refine wp.bind (wp.modifyState ⟨rfl, ⟨hshape.counters, ?_⟩, fun h0 => by cases h0⟩)
        exact h.counted.bind hlen hv (hne (by decide)) (congrArg (· + 1) hsize) hwaste
    | update =>
        -- counts before it appends
        rw [mutateFound, if_pos hnone]
        refine wp.bind (wp.modifyState (wp.bind ((happend ?_ ?_).mono ?_ fun _ _ h => h)))
        · exact h.shape.counters
        · exact hslot
        rintro - w₁ ⟨hshape, hsize, hwaste⟩
        refine ⟨rfl, ⟨hshape, ?_⟩, fun h0 => by cases h0⟩
        exact h.counted.bind hlen hv (hne (by decide)) hsize hwaste
    | replace =>
        rw [mutateFound, if_pos hnone]
        exact ⟨rfl, h, fun h0 => by cases h0⟩
  · -- the key is bound, and its newest record is superseded if one is appended
    have hv : value recs key ≠ none := fun h0 => hnone (hout.2 h0)
    rw [Option.isSome_iff_ne_none.2 hv]
    cases mode with
    | remove =>
        rw [mutateFound, if_neg hnone]
        refine wp.bind ((happend h.shape hslot).mono ?_ fun _ _ h => h)
        rintro - w₁ ⟨hshape, hsize, hwaste⟩
        refine wp.bind (wp.modifyState (wp.bind (wp.modifyState
          ⟨rfl, ⟨hshape.counters, ?_⟩, fun _ _ hsome => ?_⟩)))
        · exact h.counted.unbind hlen hv rfl (congrArg (· - 1) hsize) (congrArg (· + 1) hwaste)
        · obtain ⟨n, rfl⟩ := Option.ne_none_iff_exists'.1 hsome
          exact ⟨rfl, rfl⟩
    | insert =>
        rw [mutateFound, if_pos (by tauto)]
        exact ⟨rfl, h, fun h0 => by cases h0⟩
    | update =>
        rw [mutateFound, if_neg hnone]
        refine wp.bind (wp.modifyState (wp.bind ((happend ?_ ?_).mono ?_ fun _ _ h => h)))
        · exact h.shape.counters
        · exact hslot
        rintro - w₁ ⟨hshape, hsize, hwaste⟩
        refine ⟨rfl, ⟨hshape, ?_⟩, fun h0 => by cases h0⟩
        exact h.counted.rebind hlen hv (hne (by decide)) hsize hwaste
    | replace =>
        rw [mutateFound, if_neg hnone]
        refine wp.bind ((happend h.shape hslot).mono ?_ fun _ _ h => h)
        rintro - w₁ ⟨hshape, hsize, hwaste⟩
        refine wp.bind (wp.modifyState ⟨rfl, ⟨hshape.counters, ?_⟩, fun h0 => by cases h0⟩)
        exact h.counted.rebind hlen hv (hne (by decide)) hsize (congrArg (· + 1) hwaste)

/-- How a call can end that does not return 0 or +1: an external call failed, the hash of the key
    has no room in the index, or the caller broke the contract. -/
def MayFail (room bad : Prop) (e : Fail) : Prop :=
  (∃ c, e = .io c) ∨ (e = .exitSoftware ∧ ¬ room) ∨ (bad ∧ (e = .assertion ∨ e = .outOfBounds))

omit hsys in
theorem MayFail.mono {room room' bad bad' : Prop} {e : Fail} (h : MayFail room bad e)
    (hroom : room' → room) (hbad : bad → bad') : MayFail room' bad' e :=
  h.imp_right (Or.imp (And.imp_right (mt hroom)) (And.imp_left hbad))

omit hsys in
/-- The chain of a key, from its newest record. -/
theorem Shape.chainView {kvdb : Kvdb} {l : List UInt8} (h : Shape hash junk recs kvdb l)
    (hlt : l.length < 2 ^ 63) (key : List UInt8) (valLen : UInt64) (val : Option (List UInt8)) :
    Store.chainView kvdb.kvraw l key valLen (kvdb.kvraw.size.toNat + 1) val
      (newest hash recs (hashKey hash key)) = .ok (searched hash key valLen recs val) := by
  have hrecs := endOff_ge recs
  have hsize := h.size
  have hlen := h.length_eq
  rw [h.log, ← List.append_nil (history hash junk recs)]
  exact chainView_history (by omega) val [] h.ok (by omega) (by omega)

/-- **`chain_lookup`** for the chain of the key. -/
theorem chainLookup_wp {s : σ} {kvdb : Kvdb} {key : List UInt8}
    (h : Shape hash junk recs kvdb (log s)) (hkey : KeyOk key) (val : Option (List UInt8))
    (valLen : UInt64) :
    wp (chainLookup sys kvdb.kvraw key val valLen (newest hash recs (hashKey hash key)))
      (fun out s' => log s' = log s ∧ out = searched hash key valLen recs val)
      (fun e _ => MayFail True (¬ Holds val valLen) e) s := by
  have hsize := h.size
  have hview := h.chainView (hsys.log_length s) key valLen val
  refine (chainLookup_finds hsys (by omega) hkey.length_lt val valLen _).mono ?_ ?_
  · rintro out s' ⟨hlog, hout⟩
    exact ⟨hlog, Except.ok.inj (hout.symm.trans hview)⟩
  · rintro e s' ⟨-, rfl | rfl | hview' | hbad⟩
    · exact .inl ⟨_, rfl⟩
    · exact .inl ⟨_, rfl⟩
    · rw [hview] at hview'
      cases hview'
    · exact .inr (.inr hbad)

/-- The answer has the length of the value, and in the buffer as many of its bytes as were asked
    for. -/
def Delivers (val : Option (List UInt8)) (valLen : Option UInt64) (v : List UInt8) (reply : Reply) :
    Prop :=
  ∀ cap, valLen = some cap → (∃ n, reply.valLen = some n ∧ n.toNat = v.length) ∧
    ∀ buf, val = some buf → ∃ buf', reply.val = some buf' ∧
      buf'.take (min cap.toNat v.length) = v.take (min cap.toNat v.length)

omit hsys in
/-- What the search found is delivered. -/
theorem delivers_searched {key v : List UInt8} {cap : UInt64} {val : Option (List UInt8)}
    (hend : endOff recs < 2 ^ 63) (hok : ∀ r ∈ recs, r.Ok) (hv : value recs key = some v)
    {reply : Reply} (hval : reply.val = (searched hash key cap recs val).val)
    (hlen : reply.valLen = some (searched hash key cap recs val).valLen) :
    Delivers val (some cap) v reply := by
  obtain ⟨-, htotal, hbytes⟩ := searched_of_some key cap hend hok val hv
  rintro cap' hcap
  obtain rfl := Option.some.inj hcap
  refine ⟨⟨_, hlen, htotal⟩, ?_⟩
  rintro buf rfl
  rw [← hval, Option.map_some, Option.map_eq_some_iff, List.take_eq_take_min] at hbytes
  exact hbytes

/-- **`mutate`** on a key and a value of allowed lengths. -/
theorem mutate_wp {mode : Mode} {key : List UInt8} {val : Option (List UInt8)}
    {valLen : Option UInt64} (h : Inv log hash junk recs w) (hkey : KeyOk key)
    (hlen : (mode.stores val valLen).length ≤ 0xffffffff)
    (hne : mode ≠ .remove → mode.stores val valLen ≠ []) :
    wp (mutate sys hash key val valLen mode)
      (fun reply w' => reply.code = mode.code (value recs key).isSome ∧
        Inv log hash junk (wrote recs ⟨key, mode.stores val valLen⟩ reply.code) w' ∧
        (mode = .remove → ∀ v, value recs key = some v → Delivers val valLen v reply))
      (fun e _ => MayFail (w.kvdb.index.HasRoom (hashKey hash key))
        (mode = .remove ∧ ∃ cap, valLen = some cap ∧ ¬ Holds val cap) e) w := by
  have hend := h.shape.endOff_lt (hsys.log_length w.sys)
  unfold mutate
  refine wp.bind (wp.getState ?_)
  refine wp.bind ((onSys_wp (indexUpdate_shape hsys h.shape key)).mono ?_ ?_)
  · rintro ⟨index, ref⟩ w₁ ⟨h₁, hlog₁, hshape, hslot⟩
    refine wp.bind (wp.modifyState ?_)
    rw [← h₁, ← hlog₁] at hshape
    have hcounted : Counted recs { w₁.kvdb with index := index } := by
      rw [h₁]
      exact ⟨h.counted.size, h.counted.waste⟩
    rw [← h₁, hslot.off]
    refine wp.bind ((onSys_wp (w := ⟨{ w₁.kvdb with index := index }, w₁.sys⟩)
      (chainLookup_wp hsys hshape hkey _ _)).mono ?_ ?_)
    · rintro out w₂ ⟨h₂, hlog₂, rfl⟩
      have hinv : Inv log hash junk recs w₂ := by
        refine ⟨?_, ?_⟩
        · rw [h₂, hlog₂]
          exact hshape
        · rw [h₂]
          exact hcounted
      refine (mutateFound_wp hsys hinv (by rw [h₂]; exact hslot) ⟨hkey, hlen⟩ hne
        (searched_iff key _ hend h.shape.ok _)).mono ?_ fun e _ he => .inl ⟨_, he⟩
      rintro reply w₃ ⟨hcode, hinv', hout⟩
      refine ⟨hcode, hinv', fun hmode v hv cap hcap => ?_⟩
      subst hmode hcap
      rw [hv] at hcode
      obtain ⟨hval, hvalLen⟩ := hout rfl hcode (by simp)
      exact delivers_searched hend h.shape.ok hv hval hvalLen cap rfl
    · rintro e w₂ ⟨-, he⟩
      refine he.mono (fun _ => trivial) fun hbad => ?_
      by_cases hrem : mode = .remove ∧ valLen ≠ none
      · obtain ⟨hmode, hsome⟩ := hrem
        obtain ⟨cap, rfl⟩ := Option.ne_none_iff_exists'.1 hsome
        simp only [hmode, true_and, ne_eq, reduceCtorEq, not_false_eq_true, if_true] at hbad
        exact ⟨hmode, cap, rfl, hbad⟩
      · rw [if_neg hrem, if_neg hrem] at hbad
        exact absurd (Nat.zero_le _) hbad
  · rintro e w₁ ⟨-, -, hio | ⟨-, hempty⟩ | hexit⟩
    · exact .inl hio
    · exact absurd hempty hkey.ne_nil
    · exact .inr (.inl hexit)

end CS238P.Store
