import CS238P.Store.Interface

set_option autoImplicit false

/-! # What a search writes to the caller's buffer

`kvdb_lookup` and `kvdb_remove` once more, with everything that `kvraw_lookup` writes to the caller's
`val` on the way, also what is overwritten later. Recording it changes nothing
(`Op.runWriting_fst`). -/

namespace CS238P.Store

/-- Bytes that were written to the caller's buffer, from its first byte on, and the offset of the
    record that they are the value of. -/
structure ValWrite where
  off : UInt64
  bytes : List UInt8
  deriving DecidableEq, Repr

/-- What `kvraw_lookup` has written to `val`: called for the record at `off`, with `*val_len` being
    `valLen`. -/
def LookupOut.written (out : LookupOut) (valLen off : UInt64) : ValWrite :=
  ⟨off, (out.val.getD []).take (cMin out.valLen valLen).toNat⟩

section Programs

variable {σ : Type} (sys : Sys σ) (hash : List UInt8 → UInt64)

/-- The loop of `chain_lookup`. The second read of a record is called with `val_len_ = 0`. -/
def chainLoopWriting (kvraw : Kvraw) (key : List UInt8) (valLen : UInt64) :
    ℕ → List UInt8 → Option (List UInt8) → UInt64 → M σ (ChainOut × List ValWrite)
  | 0, _, _, _ => throw .diverges
  | n + 1, buf, val, off =>
      if off = 0 then return (⟨off, valLen, val⟩, [])
      else do
        let out ← kvrawLookup sys kvraw buf (cMin (.ofNat key.length) 256) val valLen off
        let writes (more : List LookupOut) :=
          out.written valLen off :: more.map fun out' => out'.written 0 off
        compareWith sys kvraw key off (fun more res => pure (res, writes more))
          (fun more val next => do
            let r ← chainLoopWriting kvraw key valLen n out.key val next
            return (r.1, writes more ++ r.2)) out

def chainLookupWriting (kvraw : Kvraw) (key : List UInt8) (val : Option (List UInt8))
    (valLen off : UInt64) : M σ (ChainOut × List ValWrite) := do
  let buf ← sys.uninitialised 256
  chainLoopWriting sys kvraw key valLen (kvraw.size.toNat + 1) buf val off

/-- `kvdb_remove` with the `mutate` that it calls. -/
def kvdbRemoveWriting (key : List UInt8) (val : Option (List UInt8)) (valLen : Option UInt64) :
    KM σ (Reply × List ValWrite) :=
  if ¬ KeyOk key then throw .assertion
  else if valLen = some 0 ∧ val = none then throw .assertion
  else do
    let w ← get
    let r ← onSys (indexUpdate sys hash w.kvdb.index key)
    modify fun w => { w with kvdb := { w.kvdb with index := r.1 } }
    let val_ := if valLen ≠ none then val else none
    let valLen_ := if valLen ≠ none then valLen.getD 0 else 0
    let out ← onSys (chainLookupWriting sys w.kvdb.kvraw key val_ valLen_ (r.1.slotAt r.2).off)
    let reply ← mutateFound sys key val valLen r.2 out.1 .remove
    return (reply, out.2)

def kvdbLookupWriting (key : List UInt8) (val : Option (List UInt8)) (valLen : Option UInt64) :
    KM σ (Reply × List ValWrite) :=
  if ¬ KeyOk key then throw .assertion
  else if valLen ≠ none ∧ valLen ≠ some 0 ∧ val = none then throw .assertion
  else do
    let w ← get
    match ← onSys (indexLookup hash w.kvdb.index key) with
    | none => return (⟨.plusOne, val, valLen⟩, [])
    | some off =>
        if off = 0 then return (⟨.plusOne, val, valLen⟩, [])
        else do
          let val_ := if valLen = none then none else val
          let out ← onSys (chainLookupWriting sys w.kvdb.kvraw key val_ (valLen.getD 0) off)
          let val' := if valLen = none then val else out.1.val
          if out.1.off = 0 ∨ out.1.valLen = 0 then return (⟨.plusOne, val', valLen⟩, out.2)
          else return (⟨.zero, val', valLen.map fun _ => out.1.valLen⟩, out.2)

/-- Makes the call. The others pass NULL to `chain_lookup`. -/
def Op.runWriting : Op → KM σ (Reply × List ValWrite)
  | .lookup key val valLen => kvdbLookupWriting sys hash key val valLen
  | .remove key val valLen => kvdbRemoveWriting sys hash key val valLen
  | op => (·, []) <$> op.run sys hash

end Programs

/-! ## The same programs -/

variable {σ : Type} {sys : Sys σ} {hash : List UInt8 → UInt64} {kvraw : Kvraw}

theorem compareWith_fst {α β : Type} (f : α → β) (key : List UInt8) (off : UInt64)
    {found : List LookupOut → ChainOut → M σ α}
    {next : List LookupOut → Option (List UInt8) → UInt64 → M σ α}
    {found' : List LookupOut → ChainOut → M σ β}
    {next' : List LookupOut → Option (List UInt8) → UInt64 → M σ β}
    (hfound : ∀ more res, f <$> found more res = found' more res)
    (hnext : ∀ more val off, f <$> next more val off = next' more val off) (out : LookupOut) :
    f <$> compareWith sys kvraw key off found next out =
      compareWith sys kvraw key off found' next' out := by
  unfold compareWith
  simp only [apply_ite (f <$> ·), map_bind, hfound, hnext]

theorem chainLoopWriting_fst (key : List UInt8) (valLen : UInt64) (n : ℕ) (buf : List UInt8)
    (val : Option (List UInt8)) (off : UInt64) :
    Prod.fst <$> chainLoopWriting sys kvraw key valLen n buf val off =
      chainLoop sys kvraw key valLen n buf val off := by
  induction n generalizing buf val off with
  | zero => rfl
  | succ n ih =>
      rw [chainLoop_succ, chainLoopWriting]
      simp only [apply_ite (Prod.fst <$> ·), map_pure, map_bind]
      congr 1
      refine bind_congr fun out => ?_
      rw [compareKeys_eq]
      refine compareWith_fst Prod.fst key off (fun _ _ => map_pure ..) (fun more val next => ?_) out
      rw [map_bind, ← ih, map_eq_pure_bind]
      simp only [map_pure]

theorem chainLookupWriting_fst (key : List UInt8) (val : Option (List UInt8))
    (valLen off : UInt64) : Prod.fst <$> chainLookupWriting sys kvraw key val valLen off =
      chainLookup sys kvraw key val valLen off := by
  unfold chainLookupWriting chainLookup
  simp only [map_bind, chainLoopWriting_fst]

theorem map_onSys {α β : Type} (f : α → β) (x : M σ α) : f <$> onSys x = onSys (f <$> x) := by
  funext w
  show EStateM.map f (onSys x) w = onSys (EStateM.map f x) w
  simp only [EStateM.map, onSys]
  cases x w.sys <;> rfl

/-- A program that only goes on with the first of two results. -/
theorem onSys_bind_fst {α β γ : Type} (x : M σ (α × β)) (f : α → KM σ γ) :
    (onSys x >>= fun r => f r.1) = onSys (Prod.fst <$> x) >>= f := by
  rw [← map_onSys, bind_map_left]

theorem kvdbLookupWriting_fst (key : List UInt8) (val : Option (List UInt8))
    (valLen : Option UInt64) : Prod.fst <$> kvdbLookupWriting sys hash key val valLen =
      kvdbLookup sys hash key val valLen := by
  unfold kvdbLookupWriting kvdbLookup
  simp only [apply_ite (Prod.fst <$> ·), map_bind]
  congr 2
  refine bind_congr fun w => bind_congr fun ref => ?_
  cases ref with
  | none => exact map_pure ..
  | some off =>
      simp only [apply_ite (Prod.fst <$> ·), map_bind, map_pure]
      congr 1
      rw [← chainLookupWriting_fst, ← onSys_bind_fst]

theorem kvdbRemoveWriting_fst (key : List UInt8) (val : Option (List UInt8))
    (valLen : Option UInt64) : Prod.fst <$> kvdbRemoveWriting sys hash key val valLen =
      kvdbRemove sys hash key val valLen := by
  unfold kvdbRemoveWriting kvdbRemove mutate
  simp only [apply_ite (Prod.fst <$> ·), map_bind]
  congr 2
  refine bind_congr fun w => bind_congr fun r => bind_congr fun _ => ?_
  simp only [true_and, map_pure, bind_pure]
  rw [← chainLookupWriting_fst, ← onSys_bind_fst]

theorem Op.runWriting_fst (op : Op) :
    Prod.fst <$> op.runWriting sys hash = op.run sys hash := by
  cases op with
  | lookup key val valLen => exact kvdbLookupWriting_fst key val valLen
  | remove key val valLen => exact kvdbRemoveWriting_fst key val valLen
  | insert key val => simp [Op.runWriting, Functor.map_map]
  | update key val => simp [Op.runWriting, Functor.map_map]
  | replace key val => simp [Op.runWriting, Functor.map_map]

/-- Every call that returns has written something, if only nothing. -/
theorem Op.exists_writing {op : Op} {reply : Reply} {w w' : World σ}
    (hrun : op.run sys hash w = .ok reply w') :
    ∃ ws, op.runWriting sys hash w = .ok (reply, ws) w' := by
  rw [← Op.runWriting_fst] at hrun
  change EStateM.map Prod.fst (op.runWriting sys hash) w = _ at hrun
  unfold EStateM.map at hrun
  split at hrun
  · rename_i r w₁ hr
    obtain ⟨reply', ws⟩ := r
    cases hrun
    exact ⟨ws, hr⟩
  · cases hrun

end CS238P.Store
