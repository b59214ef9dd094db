import CS238P.Store.Interface

set_option autoImplicit false

/-! # What the counters count

`kvdb_size` and `kvdb_waste` against the records that are read off the log. -/

namespace CS238P.Store

variable {σ : Type} {sys : Sys σ} {log : σ → List UInt8} {hash : List UInt8 → UInt64} {w : World σ}

/-- Behind the first record, the log has `rs`, oldest first; `kvdb_size` is the number of keys whose
    newest record has a value, and `kvdb_waste` that of records with a value that are not the newest
    of their key. -/
structure CountersExact (log : σ → List UInt8) (w : World σ) (rs : List Rec) : Prop where
  records : LogRecords (log w.sys) (sentinel :: rs)
  size : (kvdbSize w.kvdb).toNat = (LogMap.bound (writes rs.reverse)).card
  waste : (kvdbWaste w.kvdb).toNat = LogMap.superseded (writes rs)
  sum : (kvdbSize w.kvdb).toNat + (kvdbWaste w.kvdb).toNat = rs.countP fun r => r.val ≠ []

/-- No call moves a counter when it returns +1, and none takes the size below zero. -/
structure CountersKept (w w' : World σ) (op : Op) (reply : Reply) : Prop where
  plusOne : reply.code = .plusOne →
    kvdbSize w'.kvdb = kvdbSize w.kvdb ∧ kvdbWaste w'.kvdb = kvdbWaste w.kvdb
  remove : ∀ key val valLen, op = .remove key val valLen → reply.code = .zero →
    (kvdbSize w'.kvdb).toNat + 1 = (kvdbSize w.kvdb).toNat

theorem countP_writes (recs : List Rec) :
    (writes recs).countP (fun w => w.2.isSome) = recs.countP fun r => r.val ≠ [] := by
  unfold writes
  rw [List.countP_map]
  congr 1
  funext r
  by_cases h : r.val = [] <;> simp [h]

theorem Inv.countersExact {junk : UInt64} {recs : List Rec} (h : Inv log hash junk recs w) :
    CountersExact log w recs.reverse := by
  have hwrites : (writes recs).reverse = writes recs.reverse := (List.map_reverse ..).symm
  have hwaste : (kvdbWaste w.kvdb).toNat = LogMap.superseded (writes recs.reverse) := by
    rw [← hwrites]
    exact h.counted.waste
  refine ⟨?_, ?_, hwaste, ?_⟩
  · rw [h.shape.log]
    exact logRecords_history hash junk h.shape.ok
  · rw [List.reverse_reverse]
    exact h.counted.size
  · calc (kvdbSize w.kvdb).toNat + (kvdbWaste w.kvdb).toNat
        = (LogMap.bound (writes recs)).card + LogMap.stale (writes recs) :=
          congrArg₂ (· + ·) h.counted.size h.counted.waste
      _ = (writes recs).countP fun w => w.2.isSome := LogMap.card_bound_add_stale _
      _ = recs.countP fun r => r.val ≠ [] := countP_writes recs
      _ = recs.reverse.countP fun r => r.val ≠ [] := (List.countP_reverse ..).symm

/-- A call, from a state with the invariant. -/
theorem Inv.countersKept (hsys : sys.Documented log) {junk : UInt64} {recs : List Rec}
    (h : Inv log hash junk recs w) {op : Op} {reply : Reply} {w' : World σ}
    (hrun : op.run sys hash w = .ok reply w') : CountersKept w w' op reply := by
  obtain ⟨hcode, hinv, -⟩ := (op.run_wp hsys h).ok hrun
  refine ⟨fun h1 => ?_, ?_⟩
  · -- nothing was written, so the same records are counted
    have hafter : op.after recs reply.code = recs := by
      unfold Op.after
      rw [h1]
      cases op.record <;> rfl
    rw [hafter] at hinv
    refine ⟨UInt64.toNat_inj.1 ?_, UInt64.toNat_inj.1 ?_⟩
    · exact hinv.counted.size.trans h.counted.size.symm
    · exact hinv.counted.waste.trans h.counted.waste.symm
  · -- a removal that returned 0 found its key bound, so it was counted
    rintro key val valLen rfl h0
    have hbound : (value recs key).isSome = true := by
      rw [h0] at hcode
      cases hv : (value recs key).isSome with
      | true => rfl
      | false =>
          rw [show (Op.remove key val valLen).key = key from rfl, hv] at hcode
          cases hcode
    have hafter : (Op.remove key val valLen).after recs reply.code = ⟨key, []⟩ :: recs := by
      rw [h0]
      rfl
    rw [hafter] at hinv
    calc (kvdbSize w'.kvdb).toNat + 1
        = (LogMap.bound ((key, none) :: writes recs)).card + 1 :=
          congrArg (· + 1) hinv.counted.size
      _ = (LogMap.bound (writes recs)).card := LogMap.card_bound_cons_none key _ hbound
      _ = (kvdbSize w.kvdb).toNat := h.counted.size.symm

/-- **The counters are exact** in every state that is reached by calls that do not fail: the records
    on the log are determined by its bytes, and the counters count them. -/
theorem countersExact_of_reachable (hsys : sys.Documented log) (h : Reachable sys hash w) :
    (∃ rs, CountersExact log w rs ∧ ∀ all, LogRecords (log w.sys) all → all = sentinel :: rs) ∧
      ∀ op reply w', op.run sys hash w = .ok reply w' → CountersKept w w' op reply := by
  obtain ⟨junk, recs, hinv⟩ := h.inv hsys
  have hexact := hinv.countersExact
  exact ⟨⟨recs.reverse, hexact, fun all hall => hall.unique hexact.records⟩,
    fun op reply w' hrun => hinv.countersKept hsys hrun⟩

theorem countersExact_collided :
    (∃ rs, CountersExact Memory.log collided rs ∧
        ∀ all, LogRecords (Memory.log collided.sys) all → all = sentinel :: rs) ∧
      ∀ op reply w', op.run Memory.sys (fun _ => 1) collided = .ok reply w' →
        CountersKept collided w' op reply :=
  countersExact_of_reachable Memory.documented reachable_collided

end CS238P.Store
