import CS238P.Store.KvrawSpec
import CS238P.Store.Chain
import CS238P.Store.Memory

set_option autoImplicit false

/-! # Runs of `kvraw_append` on a log that may fail

A record is written in three appends and the size is advanced behind the last. If one of the later
two fails, the log has bytes that the size does not count, and no record after it is where its
offset says. If appends only ever fail at their first piece, the size stays in step with the log and
every record that was reported as written can be read. -/

namespace CS238P.Store

/-- The arguments of a call of `kvraw_append`, `prev` being `*off` before it. -/
structure Append where
  key : List UInt8
  val : List UInt8
  prev : UInt64

/-- The assertions of `kvraw_append`. -/
def Append.Ok (a : Append) : Prop :=
  a.key ≠ [] ∧ a.key.length ≤ 0xffff ∧ a.val.length ≤ 0xffffffff

/-- A `kvraw` on a log, and the calls that returned 0 with the offsets they stored. -/
structure Written (σ : Type) where
  kvraw : Kvraw
  sys : σ
  done : List (UInt64 × Append)

variable {σ : Type} (sys : Sys σ)

/-- Makes the calls one after the other, whatever they return. -/
def appendAll : List Append → Written σ → Written σ
  | [], w => w
  | a :: rest, w =>
      match kvrawAppend sys w.kvraw a.key a.val a.prev w.sys with
      | .ok (kvraw, off) s => appendAll rest ⟨kvraw, s, (off, a) :: w.done⟩
      | .error _ s => appendAll rest { w with sys := s }

/-- Every call of the run that fails does so at the first of its three appends. -/
def FailsAtFirst : List Append → Written σ → Prop
  | [], _ => True
  | a :: rest, w =>
      match kvrawAppend sys w.kvraw a.key a.val a.prev w.sys with
      | .ok (kvraw, off) s => FailsAtFirst rest ⟨kvraw, s, (off, a) :: w.done⟩
      | .error _ s =>
          (sys.logfsAppend (appendMeta a.key a.val a.prev).bytes w.sys).1 = false ∧
            FailsAtFirst rest { w with sys := s }

/-- `kvraw_lookup` at `off`, with buffers that are large enough, returns exactly the key, the value
    and the previous offset of the call, unless a read fails. -/
def Readable (w : Written σ) (off : UInt64) (a : Append) : Prop :=
  ∀ (key val : List UInt8) (keyLen valLen : UInt64), a.key.length ≤ keyLen.toNat →
    keyLen.toNat ≤ key.length → a.val.length ≤ valLen.toNat → valLen.toNat ≤ val.length →
    wp (kvrawLookup sys w.kvraw key keyLen (some val) valLen off)
      (fun out _ => out.keyLen.toNat = a.key.length ∧ out.key.take a.key.length = a.key ∧
        out.valLen.toNat = a.val.length ∧ (∃ v, out.val = some v ∧ v.take a.val.length = a.val) ∧
        out.off = a.prev)
      (fun e _ => e = .io .logfsRead) w.sys

/-- What is wanted of a run. -/
structure InStep (log : σ → List UInt8) (w : Written σ) : Prop where
  size : w.kvraw.size.toNat = (log w.sys).length
  readable : ∀ off a, (off, a) ∈ w.done → Readable sys w off a

/-! ## The log of a run -/

variable {sys} {log : σ → List UInt8}

/-- The record of the call is on the log, at the offset. -/
def StoredAt (l : List UInt8) (off : UInt64) (a : Append) : Prop :=
  a.Ok ∧ off ≠ 0 ∧
    ∃ pre post, l = pre ++ (recordBytes a.key a.val a.prev ++ post) ∧ off.toNat = pre.length

theorem StoredAt.mono {l l' : List UInt8} {off : UInt64} {a : Append} (h : StoredAt l off a)
    (hp : l <+: l') : StoredAt l' off a := by
  obtain ⟨hok, hoff, pre, post, rfl, hpre⟩ := h
  obtain ⟨more, rfl⟩ := hp
  exact ⟨hok, hoff, pre, post ++ more, by simp [List.append_assoc], hpre⟩

/-- What is read at it. -/
theorem StoredAt.views {kvraw : Kvraw} {l : List UInt8} {off : UInt64} {a : Append}
    (h : StoredAt l off a) (hsize : kvraw.size.toNat = l.length) :
    kvraw.metaView l off = .ok (appendMeta a.key a.val a.prev) ∧
      keyView l off (appendMeta a.key a.val a.prev) = a.key ∧
      valView l off (appendMeta a.key a.val a.prev) = a.val := by
  obtain ⟨⟨-, hk, hv⟩, -, pre, post, rfl, hpre⟩ := h
  rw [List.length_append, List.length_append] at hsize
  exact view_record kvraw a.prev post hk hv hpre (by omega)

theorem StoredAt.readable (hsys : sys.Documented log) {w : Written σ} {off : UInt64} {a : Append}
    (h : StoredAt (log w.sys) off a) (hsize : w.kvraw.size.toNat = (log w.sys).length) :
    Readable sys w off a := by
  intro key val keyLen valLen hkeyLen hkey hvalLen hval
  obtain ⟨hmeta, hkv, hvv⟩ := h.views hsize
  obtain ⟨⟨-, hk, hv⟩, hoff, -⟩ := h
  refine (kvrawLookup_wp hsys (by omega) hkey hoff).mono ?_ ?_
  · rintro out s' ⟨-, m, hm, rfl⟩
    obtain rfl := Except.ok.inj (hmeta.symm.trans hm)
    refine ⟨?_, ?_, ?_, ⟨_, rfl, ?_⟩, rfl⟩
    · exact (UInt16.toNat_toUInt64 _).trans (appendMeta_keyLen hk _ _)
    · rw [take_lookupView hkeyLen (by rw [hkv]), hkv, List.take_length]
    · exact (UInt32.toNat_toUInt64 _).trans (appendMeta_valLen _ hv _)
    · rw [hvv, List.take_of_length_le hvalLen, Bytes.take_overwrite _ _ (Nat.le_refl _),
        List.take_length]
  · rintro e s' ⟨-, h | h | ⟨hbad, -⟩⟩
    · exact h
    · rw [hmeta] at h
      cases h
    · exact absurd hval hbad

/-- A call that fails left the log alone if its first append failed, and has left bytes on it
    otherwise. -/
theorem kvrawAppend_error (hsys : sys.Documented log)
    (hfail : ∀ bs s, (sys.logfsAppend bs s).1 = false → log (sys.logfsAppend bs s).2 = log s)
    {kvraw : Kvraw} {a : Append} (hok : a.Ok) {s s' : σ} {e : Fail}
    (h : kvrawAppend sys kvraw a.key a.val a.prev s = .error e s') :
    if (sys.logfsAppend (appendMeta a.key a.val a.prev).bytes s).1 = false then log s' = log s
    else (log s).length < (log s').length := by
  obtain ⟨hne, hk, hv⟩ := hok
  have hwp : wp (kvrawAppend sys kvraw a.key a.val a.prev) (fun _ _ => True) (fun _ s' =>
      if (sys.logfsAppend (appendMeta a.key a.val a.prev).bytes s).1 = false then log s' = log s
      else (log s).length < (log s').length) s := by
    have hpos := List.length_pos_iff.2 hne
    unfold kvrawAppend
    rw [if_neg (by omega), if_neg (by omega)]
    refine wp.bind ?_
    have hfirst := hfail (appendMeta a.key a.val a.prev).bytes s
    have htrue := hsys.append_true (appendMeta a.key a.val a.prev).bytes s
    unfold wp Sys.append
    revert hfirst htrue
    rcases sys.logfsAppend (appendMeta a.key a.val a.prev).bytes s with ⟨_ | _, s₁⟩
    · intro hfirst _
      exact hfirst rfl
    · intro _ htrue
      have h₁ : log s₁ = log s ++ (appendMeta a.key a.val a.prev).bytes := htrue rfl
      have hlen : ∀ s', log s₁ <+: log s' → (log s).length < (log s').length := fun s' hp => by
        have := hp.length_le
        rw [h₁, List.length_append, Meta.length_bytes] at this
        omega
      refine wp.bind ((hsys.logs.append_wp _).mono ?_ fun e s' h => hlen s' h.1)
      rintro - s₂ h₂
      refine wp.bind ((hsys.logs.append_wp _).mono (fun _ _ _ => trivial) fun e s' h => hlen s' ?_)
      rw [h₂] at h
      exact (List.prefix_append _ _).trans h.1
  exact hwp.error h

/-- One call that returned 0. -/
theorem kvrawAppend_ok (hsys : sys.Documented log) {w : Written σ} {a : Append} {kvraw : Kvraw}
    {off : UInt64} {s : σ}
    (h : kvrawAppend sys w.kvraw a.key a.val a.prev w.sys = .ok (kvraw, off) s) :
    a.Ok ∧ off = w.kvraw.size ∧ log s = log w.sys ++ recordBytes a.key a.val a.prev ∧
      (w.kvraw.size.toNat ≤ (log w.sys).length →
        kvraw.size.toNat + (log w.sys).length = w.kvraw.size.toNat + (log s).length) := by
  obtain ⟨hne, hk, hv, hlog, hoff, hsize⟩ := (kvrawAppend_wp hsys.logs _).ok h
  refine ⟨⟨hne, hk, hv⟩, hoff, hlog, fun hle => ?_⟩
  have hlt := hsys.log_length s
  have hsize' : kvraw.size = w.kvraw.size +
      .ofNat (recordBytes a.key a.val a.prev).length := hsize
  rw [hlog, List.length_append] at hlt ⊢
  rw [hsize', UInt64.toNat_add, UInt64.toNat_ofNat']
  omega

/-- The size does not catch up with the log. -/
theorem appendAll_behind (hsys : sys.Documented log) (as : List Append) :
    ∀ w : Written σ, w.kvraw.size.toNat < (log w.sys).length →
      (appendAll sys as w).kvraw.size.toNat < (log (appendAll sys as w).sys).length := by
  induction as with
  | nil => intro w h; exact h
  | cons a rest ih =>
      intro w h
      rw [appendAll]
      cases hres : kvrawAppend sys w.kvraw a.key a.val a.prev w.sys with
      | ok r s =>
          obtain ⟨kvraw, off⟩ := r
          obtain ⟨-, -, -, hsize⟩ := kvrawAppend_ok hsys hres
          refine ih _ ?_
          have := hsize (by omega)
          show kvraw.size.toNat < (log s).length
          omega
      | error e s =>
          have hp := ((kvrawAppend_wp hsys.logs _).error hres).1.length_le
          refine ih _ ?_
          show w.kvraw.size.toNat < (log s).length
          omega

/-- A run that fails at first pieces only keeps the size in step and its records on the log. -/
theorem appendAll_stored (hsys : sys.Documented log)
    (hfail : ∀ bs s, (sys.logfsAppend bs s).1 = false → log (sys.logfsAppend bs s).2 = log s)
    (as : List Append) : ∀ w : Written σ, (∀ a ∈ as, a.Ok) → FailsAtFirst sys as w →
      0 < w.kvraw.size.toNat → w.kvraw.size.toNat = (log w.sys).length →
      (∀ off a, (off, a) ∈ w.done → StoredAt (log w.sys) off a) →
      (appendAll sys as w).kvraw.size.toNat = (log (appendAll sys as w).sys).length ∧
        ∀ off a, (off, a) ∈ (appendAll sys as w).done →
          StoredAt (log (appendAll sys as w).sys) off a := by
  induction as with
  | nil => intro w _ _ _ hsize hdone; exact ⟨hsize, hdone⟩
  | cons a rest ih =>
      intro w hok hfirst hpos hsize hdone
      rw [appendAll]
      rw [FailsAtFirst] at hfirst
      have hok' : ∀ a ∈ rest, a.Ok := fun b hb => hok b (List.mem_cons_of_mem _ hb)
      cases hres : kvrawAppend sys w.kvraw a.key a.val a.prev w.sys with
      | ok r s =>
          obtain ⟨kvraw, off⟩ := r
          rw [hres] at hfirst
          obtain ⟨haok, hoff, hlog, hstep⟩ := kvrawAppend_ok hsys hres
          have hlen := congrArg List.length hlog
          rw [List.length_append] at hlen
          have := hstep (by omega)
          -- the record is behind the old log, which is where the old size says
          refine ih ⟨kvraw, s, (off, a) :: w.done⟩ hok' hfirst ?_ ?_ ?_
          · show 0 < kvraw.size.toNat
            omega
          · show kvraw.size.toNat = (log s).length
            omega
          · intro off' a' hmem
            rcases List.mem_cons.1 hmem with heq | hmem
            · cases heq
              refine ⟨haok, ?_, log w.sys, [], by rw [List.append_nil]; exact hlog, by
                rw [hoff, hsize]⟩
              rintro rfl
              rw [← hoff] at hpos
              exact absurd hpos (by decide)
            · exact (hdone off' a' hmem).mono (hlog ▸ List.prefix_append _ _)
      | error e s =>
          rw [hres] at hfirst
          have hlog := kvrawAppend_error hsys hfail (hok a List.mem_cons_self) hres
          rw [if_pos hfirst.1] at hlog
          refine ih { w with sys := s } hok' hfirst.2 hpos ?_ ?_
          · show w.kvraw.size.toNat = (log s).length
            rw [hlog, hsize]
          · show ∀ off a, (off, a) ∈ w.done → StoredAt (log s) off a
            rw [hlog]
            exact hdone

/-- A run that leaves the size in step failed at first pieces only. -/
theorem failsAtFirst_of_size (hsys : sys.Documented log)
    (hfail : ∀ bs s, (sys.logfsAppend bs s).1 = false → log (sys.logfsAppend bs s).2 = log s)
    (as : List Append) : ∀ w : Written σ, (∀ a ∈ as, a.Ok) →
      w.kvraw.size.toNat = (log w.sys).length →
      (appendAll sys as w).kvraw.size.toNat = (log (appendAll sys as w).sys).length →
      FailsAtFirst sys as w := by
  induction as with
  | nil => intro w _ _ _; exact trivial
  | cons a rest ih =>
      intro w hok hsize hend
      rw [appendAll] at hend
      rw [FailsAtFirst]
      have hok' : ∀ a ∈ rest, a.Ok := fun b hb => hok b (List.mem_cons_of_mem _ hb)
      cases hres : kvrawAppend sys w.kvraw a.key a.val a.prev w.sys with
      | ok r s =>
          obtain ⟨kvraw, off⟩ := r
          rw [hres] at hend
          obtain ⟨-, -, -, hstep⟩ := kvrawAppend_ok hsys hres
          have := hstep (by omega)
          exact ih _ hok' (show kvraw.size.toNat = (log s).length by omega) hend
      | error e s =>
          rw [hres] at hend
          have hlog := kvrawAppend_error hsys hfail (hok a List.mem_cons_self) hres
          cases hfirst : (sys.logfsAppend (appendMeta a.key a.val a.prev).bytes w.sys).1 with
          | false =>
              rw [if_pos hfirst] at hlog
              exact ⟨rfl, ih { w with sys := s } hok'
                (show w.kvraw.size.toNat = (log s).length by rw [hlog, hsize]) hend⟩
          | true =>
              rw [hfirst, if_neg (by decide)] at hlog
              -- the size is behind the log now, and stays so
              have := appendAll_behind hsys rest { w with sys := s }
                (show w.kvraw.size.toNat < (log s).length by omega)
              have hend' := hend
              simp only at hend'
              omega

/-- **Partial appends**: on a freshly opened `kvraw`, whatever calls follow, the size is in step
    with the log and all that was reported as written can be read exactly if no call failed behind
    its first piece. -/
theorem inStep_iff_failsAtFirst (hsys : sys.Documented log)
    (hfail : ∀ bs s, (sys.logfsAppend bs s).1 = false → log (sys.logfsAppend bs s).2 = log s)
    (pathname : String) (s₀ s : σ) (kvraw : Kvraw)
    (hopen : kvrawOpen sys pathname s₀ = .ok kvraw s) (as : List Append) (hok : ∀ a ∈ as, a.Ok) :
    InStep sys log (appendAll sys as ⟨kvraw, s, []⟩) ↔ FailsAtFirst sys as ⟨kvraw, s, []⟩ := by
  obtain ⟨junk, hlog, hsize⟩ := (kvrawOpen_wp hsys.logs pathname).ok hopen
  constructor
  · intro h
    exact failsAtFirst_of_size hsys hfail as ⟨kvraw, s, []⟩ hok hsize h.size
  · intro h
    have hpos : 0 < kvraw.size.toNat := by
      rw [hsize, hlog, length_recordBytes]
      omega
    obtain ⟨hend, hstored⟩ := appendAll_stored hsys hfail as ⟨kvraw, s, []⟩ hok h hpos hsize
      fun _ _ hmem => by cases hmem
    exact ⟨hend, fun off a hmem => (hstored off a hmem).readable hsys hend⟩

/-- A call with the key `k` and the value `v`. -/
def appendKV : Append := ⟨[107], [118], 0⟩

theorem appendKV_ok : appendKV.Ok := ⟨by decide, by decide, by decide⟩

theorem inStep_iff_failsAtFirst_memory :
    InStep Memory.sys Memory.log (appendAll Memory.sys [appendKV] ⟨⟨18⟩, openedOn [], []⟩) ↔
      FailsAtFirst Memory.sys [appendKV] ⟨⟨18⟩, openedOn [], []⟩ :=
  inStep_iff_failsAtFirst Memory.documented (fun _ _ h => Memory.log_append_of_false h) "log"
    (Memory.empty []) (openedOn []) ⟨18⟩ rfl [appendKV] (by simp [appendKV_ok])

/-- The append of the key fails behind that of the `struct meta`. -/
theorem torn_append_not_inStep :
    kvrawOpen Memory.sys "log" (Memory.empty [true, true, true, true, false]) =
        .ok ⟨18⟩ (openedOn [true, false]) ∧
      ¬ InStep Memory.sys Memory.log
        (appendAll Memory.sys [appendKV] ⟨⟨18⟩, openedOn [true, false], []⟩) := by
  refine ⟨rfl, fun h => ?_⟩
  exact absurd h.size (by decide)

end CS238P.Store
