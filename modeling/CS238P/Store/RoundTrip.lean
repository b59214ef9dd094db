import CS238P.Store.Drift

set_option autoImplicit false

/-! # What was appended can be read back

A run of `kvraw_append` on a log whose bytes can be read, as long as the log stays below `2^64`
bytes: each call stores an offset at which every later `kvraw_lookup` finds its key, its value and
the offset it was given, whatever was appended since and however large the caller's buffers are. -/

namespace CS238P.Store

/-- How many bytes the record of the call has. -/
def Append.length (a : Append) : ℕ := 16 + a.key.length + a.val.length

variable {σ : Type} {sys : Sys σ} {log : σ → List UInt8}

/-- Runs of calls that return 0, from `kvraw_open`; there may be lookups in between. -/
inductive Appended (sys : Sys σ) : Written σ → Prop
  | opened {pathname : String} {s₀ s : σ} {kvraw : Kvraw}
      (h : kvrawOpen sys pathname s₀ = .ok kvraw s) : Appended sys ⟨kvraw, s, []⟩
  | appended {w : Written σ} {a : Append} {kvraw : Kvraw} {off : UInt64} {s : σ}
      (run : Appended sys w)
      (h : kvrawAppend sys w.kvraw a.key a.val a.prev w.sys = .ok (kvraw, off) s) :
      Appended sys ⟨kvraw, s, (off, a) :: w.done⟩
  | looked {w : Written σ} {key : List UInt8} {keyLen valLen off : UInt64}
      {val : Option (List UInt8)} {out : LookupOut} {s : σ} (run : Appended sys w)
      (h : kvrawLookup sys w.kvraw key keyLen val valLen off w.sys = .ok out s) :
      Appended sys ⟨w.kvraw, s, w.done⟩

/-- A lookup into these buffers returned what the call was given: the lengths and the offset, and as
    many bytes as the buffers are said to hold. -/
structure ReadsBack (key : List UInt8) (keyLen : UInt64) (val : Option (List UInt8))
    (valLen : UInt64) (a : Append) (out : LookupOut) : Prop where
  lengthKey : out.keyLen.toNat = a.key.length
  lengthVal : out.valLen.toNat = a.val.length
  prev : out.off = a.prev
  bytesKey : out.key = Bytes.overwrite key (a.key.take keyLen.toNat)
  bytesVal : out.val = val.map fun v => Bytes.overwrite v (a.val.take valLen.toNat)

/-- What is wanted of a run: its records can be read, and each is behind the ones before. -/
structure RoundTrips (sys : Sys σ) (w : Written σ) : Prop where
  reads : ∀ off a, (off, a) ∈ w.done → ∀ (key : List UInt8) (keyLen : UInt64)
    (val : Option (List UInt8)) (valLen : UInt64), keyLen.toNat ≤ key.length → Holds val valLen →
    ∃ out s', kvrawLookup sys w.kvraw key keyLen val valLen off w.sys = .ok out s' ∧
      ReadsBack key keyLen val valLen a out
  apart : w.done.Pairwise fun new old =>
    old.1 < new.1 ∧ old.1.toNat + old.2.length ≤ new.1.toNat

/-! ## The log of a run -/

/-- What holds of a run as long as the log is not too long. -/
structure OnLog (log : σ → List UInt8) (w : Written σ) : Prop where
  size : w.kvraw.size.toNat = (log w.sys).length
  pos : 0 < w.kvraw.size.toNat
  stored : ∀ off a, (off, a) ∈ w.done → StoredAt (log w.sys) off a
  apart : w.done.Pairwise fun new old => old.1.toNat + old.2.length ≤ new.1.toNat

theorem StoredAt.le {l : List UInt8} {off : UInt64} {a : Append} (h : StoredAt l off a) :
    off.toNat + a.length ≤ l.length := by
  obtain ⟨-, -, pre, post, rfl, hoff⟩ := h
  rw [List.length_append, List.length_append, length_recordBytes, Append.length]
  omega

/-- One more record. -/
theorem OnLog.append {w : Written σ} (h : OnLog log w) {a : Append} (hok : a.Ok) {kvraw : Kvraw}
    {s : σ} (hlog : log s = log w.sys ++ recordBytes a.key a.val a.prev)
    (hsize : kvraw.size = w.kvraw.size + .ofNat (recordBytes a.key a.val a.prev).length)
    (hlt : (log s).length < 2 ^ 64) : OnLog log ⟨kvraw, s, (w.kvraw.size, a) :: w.done⟩ := by
  have hpos := h.pos
  have hold := h.size
  have hlen := congrArg List.length hlog
  rw [List.length_append] at hlen
  have hnew : kvraw.size.toNat = (log s).length := by
    rw [hsize, UInt64.toNat_add, UInt64.toNat_ofNat']
    omega
  refine ⟨hnew, ?_, ?_, ?_⟩
  · show 0 < kvraw.size.toNat
    omega
  · intro off b hmem
    rcases List.mem_cons.1 hmem with heq | hmem
    · -- the new record is behind the old log
      cases heq
      refine ⟨hok, ?_, log w.sys, [], by rw [List.append_nil]; exact hlog, hold⟩
      intro h0
      rw [h0] at hpos
      exact absurd hpos (by decide)
    · exact (h.stored off b hmem).mono (hlog ▸ List.prefix_append _ _)
  · refine List.pairwise_cons.2 ⟨fun old hmem => ?_, h.apart⟩
    have := (h.stored old.1 old.2 hmem).le
    show _ ≤ w.kvraw.size.toNat
    omega

variable (hlogs : sys.Logs log) {w : Written σ}
include hlogs

theorem Appended.onLog (h : Appended sys w) : (log w.sys).length < 2 ^ 64 → OnLog log w := by
  induction h with
  | opened h =>
      intro _
      obtain ⟨junk, hlog, hsize⟩ := (kvrawOpen_wp hlogs _).ok h
      refine ⟨hsize, ?_, fun _ _ hmem => (List.not_mem_nil hmem).elim, .nil⟩
      rw [hsize, hlog, length_recordBytes]
      exact Nat.succ_pos _
  | @appended w a kvraw off s _ h ih =>
      intro hlt
      obtain ⟨hne, hk, hv, hlog, hoff, hsize⟩ := (kvrawAppend_wp hlogs _).ok h
      have hlen := congrArg List.length hlog
      rw [List.length_append] at hlen
      obtain rfl : off = w.kvraw.size := hoff
      exact (ih (by simp only at hlt; omega)).append ⟨hne, hk, hv⟩ hlog hsize hlt
  | @looked w _ _ _ _ _ _ s _ h ih =>
      have hlog : log s = log w.sys := (kvrawLookup_log hlogs _ _ _ _ _).ok h
      intro hlt
      replace ih := ih (by rw [← hlog]; exact hlt)
      exact ⟨by rw [hlog]; exact ih.size, ih.pos, by rw [hlog]; exact ih.stored, ih.apart⟩

/-- A lookup at a record of the log. -/
theorem StoredAt.readsBack (hreads : sys.Reads log) {off : UInt64} {a : Append}
    (h : StoredAt (log w.sys) off a) (hsize : w.kvraw.size.toNat = (log w.sys).length)
    {key : List UInt8} {keyLen valLen : UInt64} {val : Option (List UInt8)}
    (hkey : keyLen.toNat ≤ key.length) (hval : Holds val valLen) :
    wp (kvrawLookup sys w.kvraw key keyLen val valLen off)
      (fun out _ => ReadsBack key keyLen val valLen a out) (fun _ _ => False) w.sys := by
  have hle := h.le
  obtain ⟨hmeta, hkv, hvv⟩ := h.views hsize
  obtain ⟨⟨-, hk, hv⟩, hoff, -⟩ := h
  have hkeyLen := appendMeta_keyLen hk a.val a.prev
  have hvalLen := appendMeta_valLen a.key hv a.prev
  have hlt := w.kvraw.size.toNat_lt
  rw [Append.length] at hle
  refine (kvrawLookup_ok hlogs hreads hmeta (by omega) (by omega) hkey hval hoff).mono ?_
    fun _ _ h => h
  rintro out s' ⟨-, rfl⟩
  refine ⟨?_, ?_, rfl, ?_, ?_⟩
  · exact (UInt16.toNat_toUInt64 _).trans hkeyLen
  · exact (UInt32.toNat_toUInt64 _).trans hvalLen
  · show Bytes.overwrite key _ = _
    rw [hkv]
  · show (val.map fun v => Bytes.overwrite v _) = _
    rw [hvv]

/-- **Appended records are read back** at the offsets that were stored, at any later time, and are
    apart from each other. -/
theorem appended_roundTrips (hreads : sys.Reads log) (h : Appended sys w)
    (hlt : (log w.sys).length < 2 ^ 64) : RoundTrips sys w := by
  have hon := h.onLog hlogs hlt
  refine ⟨fun off a hmem key keyLen val valLen hkey hval => ?_, hon.apart.imp ?_⟩
  · exact ((hon.stored off a hmem).readsBack hlogs hreads hon.size hkey hval).returns
  · intro new old hle
    refine ⟨?_, hle⟩
    rw [UInt64.lt_iff_toNat_lt]
    rw [Append.length] at hle
    omega

/-- Three appends, the last two with the offset of the one before. -/
def linkedAppends : List Append := [⟨[120], [119, 119], 0⟩, ⟨[107], [118], 18⟩, ⟨[120], [], 37⟩]

omit hlogs in
theorem appended_linked :
    Appended Memory.sys (appendAll Memory.sys linkedAppends ⟨⟨18⟩, openedOn [], []⟩) :=
  .appended (.appended (.appended (.opened (show kvrawOpen Memory.sys "log" (Memory.empty []) =
    .ok ⟨18⟩ (openedOn []) from rfl)) rfl) rfl) rfl

omit hlogs in
theorem appended_roundTrips_linked :
    RoundTrips Memory.sys (appendAll Memory.sys linkedAppends ⟨⟨18⟩, openedOn [], []⟩) :=
  appended_roundTrips Memory.documented.logs Memory.reads appended_linked
    (lt_trans (Memory.documented.log_length _) (by decide))

end CS238P.Store
