import CS238P.Store.System

set_option autoImplicit false

/-! # Records on the log (`p4/kvraw.c`)

A `struct kvraw` is its size; the log is the state. A record is a packed `struct meta`, the key and
the value. A `void *` buffer is the list of bytes it points to, NULL is `none`, and the in/out
arguments of `kvraw_lookup` are arguments and results. -/

namespace CS238P.Store

/-- `MIN`. -/
def cMin (x y : UInt64) : UInt64 := if x < y then x else y

@[simp] theorem toNat_cMin (x y : UInt64) : (cMin x y).toNat = min x.toNat y.toNat := by
  unfold cMin
  split
  · rename_i h
    rw [UInt64.lt_iff_toNat_lt] at h
    omega
  · rename_i h
    rw [UInt64.lt_iff_toNat_lt] at h
    omega

theorem toNat_ofNat_length {α : Type} {l : List α} (h : l.length < 2 ^ 64) :
    (UInt64.ofNat l.length).toNat = l.length := by
  rw [UInt64.toNat_ofNat', Nat.mod_eq_of_lt h]

/-- What is read of a key to a buffer of 256 bytes fits into it. -/
theorem cMin_le_length {buf : List UInt8} (h : 256 ≤ buf.length) (keyLen : UInt64) :
    (cMin keyLen 256).toNat ≤ buf.length := by
  rw [toNat_cMin]
  exact le_trans (Nat.min_le_right _ _) h

/-! ## `struct meta` -/

structure Meta where
  mark₀ : UInt8
  mark₁ : UInt8
  off : UInt64
  keyLen : UInt16
  valLen : UInt32
  deriving DecidableEq, Repr

/-- `'K'` and `'V'`. -/
def markK : UInt8 := 75

def markV : UInt8 := 86

/-- `META_LEN`. -/
def metaLen : UInt64 := 16

@[simp] theorem toNat_metaLen : metaLen.toNat = 16 := rfl

/-- The 16 bytes of a packed `struct meta`. -/
def Meta.bytes (m : Meta) : List UInt8 :=
  [m.mark₀, m.mark₁] ++ (Bytes.ofNatLE 8 m.off.toNat ++
    (Bytes.ofNatLE 2 m.keyLen.toNat ++ Bytes.ofNatLE 4 m.valLen.toNat))

/-- The `struct meta` in 16 bytes of memory. -/
def Meta.ofBytes (bs : List UInt8) : Meta where
  mark₀ := bs.getD 0 0
  mark₁ := bs.getD 1 0
  off := .ofNat (Bytes.toNatLE (Bytes.slice bs 2 8))
  keyLen := .ofNat (Bytes.toNatLE (Bytes.slice bs 10 2))
  valLen := .ofNat (Bytes.toNatLE (Bytes.slice bs 12 4))

@[simp] theorem Meta.length_bytes (m : Meta) : m.bytes.length = 16 := by
  simp [Meta.bytes]

/-- Reading a `struct meta` back. -/
theorem Meta.ofBytes_bytes (m : Meta) : Meta.ofBytes m.bytes = m := by
  have hoff : Bytes.slice m.bytes 2 8 = Bytes.ofNatLE 8 m.off.toNat := rfl
  have hkey : Bytes.slice m.bytes 10 2 = Bytes.ofNatLE 2 m.keyLen.toNat := rfl
  have hval : Bytes.slice m.bytes 12 4 = Bytes.ofNatLE 4 m.valLen.toNat := rfl
  unfold Meta.ofBytes
  rw [hoff, hkey, hval, Bytes.toNatLE_ofNatLE 8 _ m.off.toNat_lt,
    Bytes.toNatLE_ofNatLE 2 _ m.keyLen.toNat_lt, Bytes.toNatLE_ofNatLE 4 _ m.valLen.toNat_lt,
    UInt64.ofNat_toNat, UInt16.ofNat_toNat, UInt32.ofNat_toNat]
  rfl

/-! ## The functions -/

/-- `struct kvraw`. -/
structure Kvraw where
  size : UInt64
  deriving DecidableEq, Repr

variable {σ : Type} (sys : Sys σ)

/-- The check of `read_meta` after the read. -/
def Kvraw.metaOk (kvraw : Kvraw) (off : UInt64) (m : Meta) : Prop :=
  m.mark₀ = markK ∧ m.mark₁ = markV ∧
    ¬ kvraw.size < off + metaLen + m.keyLen.toUInt64 + m.valLen.toUInt64

instance (kvraw : Kvraw) (off : UInt64) (m : Meta) : Decidable (kvraw.metaOk off m) :=
  inferInstanceAs (Decidable (_ ∧ _ ∧ _))

def readMeta (kvraw : Kvraw) (off : UInt64) : M σ Meta :=
  if kvraw.size < off + metaLen then throw .corruptData
  else do
    let bs ← sys.read (List.replicate 16 0) off metaLen
    if kvraw.metaOk off (Meta.ofBytes bs) then return Meta.ofBytes bs
    else throw .corruptData

/-- The in/out arguments of `kvraw_lookup` after it. -/
structure LookupOut where
  key : List UInt8
  keyLen : UInt64
  val : Option (List UInt8)
  valLen : UInt64
  off : UInt64
  deriving DecidableEq, Repr

/-- `kvraw_lookup`; `key` is not NULL. -/
def kvrawLookup (kvraw : Kvraw) (key : List UInt8) (keyLen : UInt64) (val : Option (List UInt8))
    (valLen off : UInt64) : M σ LookupOut :=
  if valLen ≠ 0 ∧ val = none then throw .assertion
  else if off = 0 then throw .assertion
  else do
    let m ← readMeta sys kvraw off
    let keyLen_ := cMin m.keyLen.toUInt64 keyLen
    let valLen_ := cMin m.valLen.toUInt64 valLen
    let key_ ← sys.read key (off + metaLen) keyLen_
    let val_ ← sys.read (val.getD []) (off + metaLen + m.keyLen.toUInt64) valLen_
    return ⟨key_, m.keyLen.toUInt64, val.map fun _ => val_, m.valLen.toUInt64, m.off⟩

/-- The `struct meta` that `kvraw_append` writes. -/
def appendMeta (key val : List UInt8) (off : UInt64) : Meta :=
  ⟨markK, markV, off, .ofNat key.length, .ofNat val.length⟩

/-- `kvraw_append` of `key.length` and `val.length` bytes: the `kvraw` and `*off` after it. -/
def kvrawAppend (kvraw : Kvraw) (key val : List UInt8) (off : UInt64) : M σ (Kvraw × UInt64) :=
  if key.length = 0 ∨ 0xffff < key.length then throw .assertion
  else if 0xffffffff < val.length then throw .assertion
  else do
    let off_ := kvraw.size
    let m := appendMeta key val off
    sys.append m.bytes
    sys.append (key.take m.keyLen.toNat)
    sys.append (val.take m.valLen.toNat)
    return (⟨kvraw.size + (metaLen + m.keyLen.toUInt64 + m.valLen.toUInt64)⟩, off_)

/-- `kvraw_open`. It appends a record of one byte each, the terminators of two empty strings, whose
    `off` is what an uninitialised variable holds. -/
def kvrawOpen (pathname : String) : M σ Kvraw :=
  if pathname = "" then throw .assertion
  else do
    sys.mallocOr 16 .openMemory
    sys.open pathname
    let junk ← sys.uninitialised 8
    let (kvraw, _) ← kvrawAppend sys ⟨0⟩ [0] [0] (.ofNat (Bytes.toNatLE junk))
    return kvraw

end CS238P.Store
