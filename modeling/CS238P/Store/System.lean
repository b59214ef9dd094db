import CS238P.Library.Bytes
import CS238P.Library.Wp

set_option autoImplicit false

/-! # What the key-value store runs on (`p4/logfs.h`)

The store is verified against what `logfs.h` documents (`logfs.c` has no code): `Sys` has the calls
it makes, on a state of any type, and `Sys.Documented` says what is relied on. Calls may fail at any
time.

`Fail` lists the ways in which a call to the store does not return 0 or +1. -/

namespace CS238P.Store

/-- The external call whose failure makes a function return -1 or NULL. -/
inductive Cause where
  | openMemory | logfsOpen | indexMemory | keyMemory | logfsRead | logfsAppend
  deriving DecidableEq, Repr

inductive Fail where
  /-- -1 or NULL, because an external call failed -/
  | io (cause : Cause)
  /-- -1, after `TRACE("corrupt data")` -/
  | corruptData
  /-- `EXIT("software")` -/
  | exitSoftware
  /-- a failed `assert` -/
  | assertion
  /-- an access outside of a buffer -/
  | outOfBounds
  /-- a loop that does not end -/
  | diverges
  deriving DecidableEq, Repr

/-- The function returned -1 or NULL, and the process goes on. -/
def Fail.Returns : Fail → Prop
  | .io _ => True
  | .corruptData => True
  | _ => False

/-- The run ended in `EXIT("software")`. -/
def exited {α β : Type} : EStateM.Result Fail α β → Bool
  | .error .exitSoftware _ => true
  | _ => false

/-- The external calls. `logfsRead` is given an offset and a length; `uninit n` is what `n` bytes of
    memory hold that nothing was written to. -/
structure Sys (σ : Type) where
  malloc : UInt64 → σ → Bool × σ
  uninit : ℕ → σ → List UInt8
  logfsOpen : String → σ → Bool × σ
  logfsRead : UInt64 → UInt64 → σ → Option (List UInt8) × σ
  logfsAppend : List UInt8 → σ → Bool × σ

/-- `log` is the content of the log. It is changed by appending only, and what a read returns is a
    part of it. An append that fails may have written something. The log is a device that is
    addressed with `off_t`, and an object has at most `PTRDIFF_MAX` bytes. -/
structure Sys.Documented {σ : Type} (sys : Sys σ) (log : σ → List UInt8) : Prop where
  malloc_log : ∀ n s, log (sys.malloc n s).2 = log s
  malloc_le : ∀ n s, (sys.malloc n s).1 = true → n.toNat < 2 ^ 63
  uninit_length : ∀ n s, (sys.uninit n s).length = n
  open_log : ∀ path s, (sys.logfsOpen path s).1 = true → log (sys.logfsOpen path s).2 = []
  read_log : ∀ off len s, log (sys.logfsRead off len s).2 = log s
  read_some : ∀ off len s bs, (sys.logfsRead off len s).1 = some bs →
    off.toNat + len.toNat ≤ (log s).length ∧ bs = Bytes.slice (log s) off.toNat len.toNat
  append_true : ∀ bs s, (sys.logfsAppend bs s).1 = true →
    log (sys.logfsAppend bs s).2 = log s ++ bs
  append_false : ∀ bs s, (sys.logfsAppend bs s).1 = false → log s <+: log (sys.logfsAppend bs s).2
  log_length : ∀ s, (log s).length < 2 ^ 63

/-- The part of it that is about the log, which may get as long as it will. -/
structure Sys.Logs {σ : Type} (sys : Sys σ) (log : σ → List UInt8) : Prop where
  open_log : ∀ path s, (sys.logfsOpen path s).1 = true → log (sys.logfsOpen path s).2 = []
  read_log : ∀ off len s, log (sys.logfsRead off len s).2 = log s
  read_some : ∀ off len s bs, (sys.logfsRead off len s).1 = some bs →
    off.toNat + len.toNat ≤ (log s).length ∧ bs = Bytes.slice (log s) off.toNat len.toNat
  append_true : ∀ bs s, (sys.logfsAppend bs s).1 = true →
    log (sys.logfsAppend bs s).2 = log s ++ bs
  append_false : ∀ bs s, (sys.logfsAppend bs s).1 = false → log s <+: log (sys.logfsAppend bs s).2

theorem Sys.Documented.logs {σ : Type} {sys : Sys σ} {log : σ → List UInt8}
    (hsys : sys.Documented log) : sys.Logs log :=
  ⟨hsys.open_log, hsys.read_log, hsys.read_some, hsys.append_true, hsys.append_false⟩

/-- Bytes that are on the log can be read. -/
def Sys.Reads {σ : Type} (sys : Sys σ) (log : σ → List UInt8) : Prop :=
  ∀ off len s, off.toNat + len.toNat ≤ (log s).length → (sys.logfsRead off len s).1 ≠ none

/-- Allocations of the length of a key succeed. -/
def Sys.Allocates {σ : Type} (sys : Sys σ) : Prop :=
  ∀ n s, n.toNat ≤ 0xffff → (sys.malloc n s).1 = true

/-- A function of the store that uses the system. -/
abbrev M (σ : Type) := EStateM Fail σ

variable {σ : Type} (sys : Sys σ)

/-- `malloc(n)`, or the failure `cause`. -/
def Sys.mallocOr (n : UInt64) (cause : Cause) : M σ Unit := fun s =>
  match sys.malloc n s with
  | (true, s') => .ok () s'
  | (false, s') => .error (.io cause) s'

/-- An uninitialised object of `n` bytes. -/
def Sys.uninitialised (n : ℕ) : M σ (List UInt8) := fun s => .ok (sys.uninit n s) s

/-- `logfs_open`. -/
def Sys.open (pathname : String) : M σ Unit := fun s =>
  match sys.logfsOpen pathname s with
  | (true, s') => .ok () s'
  | (false, s') => .error (.io .logfsOpen) s'

/-- `logfs_read(logfs, buf, off, len)`: the buffer after it. -/
def Sys.read (buf : List UInt8) (off len : UInt64) : M σ (List UInt8) := fun s =>
  if buf.length < len.toNat then .error .outOfBounds s
  else
    match sys.logfsRead off len s with
    | (some bs, s') => .ok (Bytes.overwrite buf bs) s'
    | (none, s') => .error (.io .logfsRead) s'

/-- `logfs_append`. -/
def Sys.append (bs : List UInt8) : M σ Unit := fun s =>
  match sys.logfsAppend bs s with
  | (true, s') => .ok () s'
  | (false, s') => .error (.io .logfsAppend) s'

/-! ## Contracts of the calls -/

variable {sys} {log : σ → List UInt8} {s : σ}

section Logs

variable (hlogs : sys.Logs log)
include hlogs

theorem Sys.Logs.open_wp (pathname : String) :
    wp (sys.open pathname) (fun _ s' => log s' = []) (fun e _ => e = .io .logfsOpen) s := by
  unfold wp Sys.open
  have hlog := hlogs.open_log pathname s
  revert hlog
  rcases sys.logfsOpen pathname s with ⟨_ | _, s'⟩ <;> intro hlog
  · rfl
  · exact hlog rfl

/-- A read that is not refused got its bytes from the log. -/
theorem Sys.Logs.read_wp (buf : List UInt8) (off len : UInt64) :
    wp (sys.read buf off len)
      (fun buf' s' => log s' = log s ∧ len.toNat ≤ buf.length ∧
        off.toNat + len.toNat ≤ (log s).length ∧
        buf' = Bytes.overwrite buf (Bytes.slice (log s) off.toNat len.toNat))
      (fun e s' => log s' = log s ∧
        (e = .io .logfsRead ∨ (e = .outOfBounds ∧ buf.length < len.toNat))) s := by
  unfold wp Sys.read
  by_cases hlen : buf.length < len.toNat
  · rw [if_pos hlen]
    exact ⟨rfl, .inr ⟨rfl, hlen⟩⟩
  · rw [if_neg hlen]
    have hlog := hlogs.read_log off len s
    have hsome := hlogs.read_some off len s
    revert hlog hsome
    rcases sys.logfsRead off len s with ⟨_ | bs, s'⟩ <;> intro hlog hsome
    · exact ⟨hlog, .inl rfl⟩
    · obtain ⟨hle, rfl⟩ := hsome bs rfl
      exact ⟨hlog, Nat.le_of_not_lt hlen, hle, rfl⟩

/-- A read of what is on the log, when such reads succeed. -/
theorem Sys.Logs.read_ok (hreads : sys.Reads log) {buf : List UInt8} {off len : UInt64}
    (hbuf : len.toNat ≤ buf.length) (hle : off.toNat + len.toNat ≤ (log s).length) :
    wp (sys.read buf off len)
      (fun buf' s' => log s' = log s ∧
        buf' = Bytes.overwrite buf (Bytes.slice (log s) off.toNat len.toNat))
      (fun _ _ => False) s := by
  unfold wp Sys.read
  rw [if_neg (Nat.not_lt.2 hbuf)]
  have hlog := hlogs.read_log off len s
  have hsome := hlogs.read_some off len s
  have hnone := hreads off len s hle
  revert hlog hsome hnone
  rcases sys.logfsRead off len s with ⟨_ | bs, s'⟩ <;> intro hlog hsome hnone
  · exact hnone rfl
  · exact ⟨hlog, by rw [(hsome bs rfl).2]⟩

theorem Sys.Logs.append_wp (bs : List UInt8) :
    wp (sys.append bs) (fun _ s' => log s' = log s ++ bs)
      (fun e s' => log s <+: log s' ∧ e = .io .logfsAppend) s := by
  unfold wp Sys.append
  have htrue := hlogs.append_true bs s
  have hfalse := hlogs.append_false bs s
  revert htrue hfalse
  rcases sys.logfsAppend bs s with ⟨_ | _, s'⟩ <;> intro htrue hfalse
  · exact ⟨hfalse rfl, rfl⟩
  · exact htrue rfl

end Logs

variable (hsys : sys.Documented log)
include hsys

theorem mallocOr_wp (n : UInt64) (cause : Cause) :
    wp (sys.mallocOr n cause) (fun _ s' => log s' = log s ∧ n.toNat < 2 ^ 63)
      (fun e s' => log s' = log s ∧ e = .io cause) s := by
  unfold wp Sys.mallocOr
  have hlog := hsys.malloc_log n s
  have hle := hsys.malloc_le n s
  revert hlog hle
  rcases sys.malloc n s with ⟨_ | _, s'⟩ <;> intro hlog hle
  · exact ⟨hlog, rfl⟩
  · exact ⟨hlog, hle rfl⟩

theorem mallocOr_ok (halloc : sys.Allocates) {n : UInt64} (hn : n.toNat ≤ 0xffff) (cause : Cause) :
    wp (sys.mallocOr n cause) (fun _ s' => log s' = log s) (fun _ _ => False) s := by
  unfold wp Sys.mallocOr
  have hlog := hsys.malloc_log n s
  have htrue := halloc n s hn
  revert hlog htrue
  rcases sys.malloc n s with ⟨_ | _, s'⟩ <;> intro hlog htrue
  · cases htrue
  · exact hlog

theorem uninitialised_wp (n : ℕ) :
    wp (sys.uninitialised n) (fun bs s' => log s' = log s ∧ bs.length = n) (fun _ _ => False) s :=
  ⟨rfl, hsys.uninit_length n s⟩

end CS238P.Store
