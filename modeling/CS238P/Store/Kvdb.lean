import CS238P.Store.Kvraw
import CS238P.Store.Index

set_option autoImplicit false

/-! # The key-value store (`p4/kvdb.c`)

A call gets the key as a list of bytes and returns a `Reply`: its code with what the caller's value
buffer and `*val_len` hold afterwards. Key pointers are not NULL, and neither are the values of the
three functions that store one. The counters, the index and the records are parts of the state, so
what was changed before a call fails stays changed. -/

namespace CS238P.Store

/-- `struct kvdb`. -/
structure Kvdb where
  size : UInt64
  waste : UInt64
  kvraw : Kvraw
  index : Index

/-- The store and what it runs on. -/
structure World (σ : Type) where
  kvdb : Kvdb
  sys : σ

/-- A function that changes the store. -/
abbrev KM (σ : Type) := EStateM Fail (World σ)

variable {σ : Type} (sys : Sys σ) (hash : List UInt8 → UInt64)

/-- Runs a function that does not have the store in its state. -/
def onSys {α : Type} (x : M σ α) : KM σ α := fun w =>
  match x w.sys with
  | .ok a s => .ok a { w with sys := s }
  | .error e s => .error e { w with sys := s }

/-! ## `chain_lookup` -/

/-- The in/out arguments of `chain_lookup` after it. -/
structure ChainOut where
  off : UInt64
  valLen : UInt64
  val : Option (List UInt8)
  deriving DecidableEq, Repr

/-- The `while` loop. At its top `*off` and `off_` are the same. `sizeof (key_)` is the size of a
    pointer, so eight bytes are compared before a longer key is read to the heap. The number of
    iterations is limited: more of them than there are offsets visit one twice. -/
def chainLoop (kvraw : Kvraw) (key : List UInt8) (valLen : UInt64) :
    ℕ → List UInt8 → Option (List UInt8) → UInt64 → M σ ChainOut
  | 0, _, _, _ => throw .diverges
  | n + 1, buf, val, off =>
      let keyLen : UInt64 := .ofNat key.length
      if off = 0 then return ⟨off, valLen, val⟩
      else do
        let out ← kvrawLookup sys kvraw buf (cMin keyLen 256) val valLen off
        if out.keyLen ≠ keyLen ∨
            out.key.take (cMin keyLen 8).toNat ≠ key.take (cMin keyLen 8).toNat then
          chainLoop kvraw key valLen n out.key out.val out.off
        else if 8 < out.keyLen then do
          sys.mallocOr out.keyLen .keyMemory
          let key_ ← sys.uninitialised out.keyLen.toNat
          let out' ← kvrawLookup sys kvraw key_ out.keyLen out.val 0 off
          if out'.key.take keyLen.toNat = key.take keyLen.toNat then
            return ⟨off, out'.valLen, out'.val⟩
          else chainLoop kvraw key valLen n out.key out'.val out'.off
        else if out.key.take keyLen.toNat = key.take keyLen.toNat then
          return ⟨off, out.valLen, out.val⟩
        else chainLoop kvraw key valLen n out.key out.val out.off

/-- `chain_lookup`; its callers pass the address of a local for `val_len`, never NULL. -/
def chainLookup (kvraw : Kvraw) (key : List UInt8) (val : Option (List UInt8))
    (valLen off : UInt64) : M σ ChainOut := do
  let buf ← sys.uninitialised 256
  chainLoop sys kvraw key valLen (kvraw.size.toNat + 1) buf val off

/-! ## `mutate` -/

inductive Mode where
  | remove | insert | update | replace
  deriving DecidableEq, Repr

inductive Code where
  | zero | plusOne
  deriving DecidableEq, Repr

/-- What a call returns, unless it is -1. -/
structure Reply where
  code : Code
  val : Option (List UInt8)
  valLen : Option UInt64
  deriving DecidableEq, Repr

/-- `kvraw_append(.., ref)`. -/
def appendRef (key val : List UInt8) (ref : ℕ) : KM σ Unit := do
  let w ← get
  let r ← onSys (kvrawAppend sys w.kvdb.kvraw key val (w.kvdb.index.slotAt ref).off)
  modify fun w =>
    { w with kvdb := { w.kvdb with kvraw := r.1, index := w.kvdb.index.setOff ref r.2 } }

/-- `++kvdb->size`. -/
def incSize : KM σ Unit :=
  modify fun w => { w with kvdb := { w.kvdb with size := w.kvdb.size + 1 } }

/-- `--kvdb->size`. -/
def decSize : KM σ Unit :=
  modify fun w => { w with kvdb := { w.kvdb with size := w.kvdb.size - 1 } }

/-- `++kvdb->waste`. -/
def incWaste : KM σ Unit :=
  modify fun w => { w with kvdb := { w.kvdb with waste := w.kvdb.waste + 1 } }

/-- The part of `mutate` behind the search, which found `*off` and `val_len_`. -/
def mutateFound (key : List UInt8) (val : Option (List UInt8)) (valLen : Option UInt64)
    (ref : ℕ) (out : ChainOut) : Mode → KM σ Reply
  | .remove =>
      let val' := if valLen = none then val else out.val
      if out.off = 0 ∨ out.valLen = 0 then return ⟨.plusOne, val', valLen⟩
      else do
        appendRef sys key [] ref
        decSize
        incWaste
        return ⟨.zero, val', valLen.map fun _ => out.valLen⟩
  | .insert =>
      if out.off ≠ 0 ∧ out.valLen ≠ 0 then return ⟨.plusOne, val, valLen⟩
      else do
        appendRef sys key ((val.getD []).take (valLen.getD 0).toNat) ref
        incSize
        return ⟨.zero, val, valLen⟩
  | .update => do
      if out.off = 0 ∨ out.valLen = 0 then incSize else incWaste
      appendRef sys key ((val.getD []).take (valLen.getD 0).toNat) ref
      return ⟨.zero, val, valLen⟩
  | .replace =>
      if out.off = 0 ∨ out.valLen = 0 then return ⟨.plusOne, val, valLen⟩
      else do
        appendRef sys key ((val.getD []).take (valLen.getD 0).toNat) ref
        incWaste
        return ⟨.zero, val, valLen⟩

def mutate (key : List UInt8) (val : Option (List UInt8)) (valLen : Option UInt64) (mode : Mode) :
    KM σ Reply := do
  let w ← get
  let r ← onSys (indexUpdate sys hash w.kvdb.index key)
  modify fun w => { w with kvdb := { w.kvdb with index := r.1 } }
  let val_ := if mode = .remove ∧ valLen ≠ none then val else none
  let valLen_ := if mode = .remove ∧ valLen ≠ none then valLen.getD 0 else 0
  let out ← onSys (chainLookup sys w.kvdb.kvraw key val_ valLen_ (r.1.slotAt r.2).off)
  mutateFound sys key val valLen r.2 out mode

/-! ## The interface -/

/-- `assert( key_len && (KVDB_MAX_KEY_LEN >= key_len) )`. -/
def KeyOk (key : List UInt8) : Prop := key.length ≠ 0 ∧ key.length ≤ 0xffff

/-- `assert( val_len && (KVDB_MAX_VAL_LEN >= val_len) )`. -/
def ValOk (val : List UInt8) : Prop := val.length ≠ 0 ∧ val.length ≤ 0xffffffff

instance (key : List UInt8) : Decidable (KeyOk key) := inferInstanceAs (Decidable (_ ∧ _))

instance (val : List UInt8) : Decidable (ValOk val) := inferInstanceAs (Decidable (_ ∧ _))

def kvdbRemove (key : List UInt8) (val : Option (List UInt8)) (valLen : Option UInt64) :
    KM σ Reply :=
  if ¬ KeyOk key then throw .assertion
  else if valLen = some 0 ∧ val = none then throw .assertion
  else mutate sys hash key val valLen .remove

/-- `kvdb_insert`, `kvdb_update` and `kvdb_replace`. -/
def kvdbStore (mode : Mode) (key val : List UInt8) : KM σ Reply :=
  if ¬ KeyOk key then throw .assertion
  else if ¬ ValOk val then throw .assertion
  else mutate sys hash key (some val) (some (.ofNat val.length)) mode

def kvdbInsert (key val : List UInt8) : KM σ Reply := kvdbStore sys hash .insert key val

def kvdbUpdate (key val : List UInt8) : KM σ Reply := kvdbStore sys hash .update key val

def kvdbReplace (key val : List UInt8) : KM σ Reply := kvdbStore sys hash .replace key val

def kvdbLookup (key : List UInt8) (val : Option (List UInt8)) (valLen : Option UInt64) :
    KM σ Reply :=
  if ¬ KeyOk key then throw .assertion
  else if valLen ≠ none ∧ valLen ≠ some 0 ∧ val = none then throw .assertion
  else do
    let w ← get
    match ← onSys (indexLookup hash w.kvdb.index key) with
    | none => return ⟨.plusOne, val, valLen⟩
    | some off =>
        if off = 0 then return ⟨.plusOne, val, valLen⟩
        else do
          let val_ := if valLen = none then none else val
          let out ← onSys (chainLookup sys w.kvdb.kvraw key val_ (valLen.getD 0) off)
          let val' := if valLen = none then val else out.val
          if out.off = 0 ∨ out.valLen = 0 then return ⟨.plusOne, val', valLen⟩
          else return ⟨.zero, val', valLen.map fun _ => out.valLen⟩

def kvdbSize (kvdb : Kvdb) : UInt64 := kvdb.size

def kvdbWaste (kvdb : Kvdb) : UInt64 := kvdb.waste

def kvdbOpen (pathname : String) : M σ Kvdb :=
  if pathname = "" then throw .assertion
  else do
    sys.mallocOr 32 .openMemory
    let kvraw ← kvrawOpen sys pathname
    let index ← indexOpen sys
    return ⟨0, 0, kvraw, index⟩

/-- A call of the interface that works on keys. -/
inductive Op where
  | insert (key val : List UInt8)
  | update (key val : List UInt8)
  | replace (key val : List UInt8)
  | remove (key : List UInt8) (val : Option (List UInt8)) (valLen : Option UInt64)
  | lookup (key : List UInt8) (val : Option (List UInt8)) (valLen : Option UInt64)
  deriving DecidableEq, Repr

/-- Makes the call. -/
def Op.run : Op → KM σ Reply
  | .insert key val => kvdbInsert sys hash key val
  | .update key val => kvdbUpdate sys hash key val
  | .replace key val => kvdbReplace sys hash key val
  | .remove key val valLen => kvdbRemove sys hash key val valLen
  | .lookup key val valLen => kvdbLookup sys hash key val valLen

end CS238P.Store
