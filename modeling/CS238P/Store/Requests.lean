import CS238P.Store.KvrawSpec
import CS238P.Store.Memory

set_option autoImplicit false

/-! # What is asked of the log

`read_meta` checks where a record ends, so that a damaged link does not lead out of the part of the
log that is in use. The sums that it compares with the size are taken modulo `2 ^ 64`: one that
wraps around passes, and `logfs_read` is asked for bytes behind the end. -/

namespace CS238P.Store

variable {σ : Type} {sys : Sys σ} {log : σ → List UInt8}

/-! ## The ranges asked for -/

/-- The same system, which keeps the offsets and lengths that `logfs_read` was given. -/
def Sys.traced (sys : Sys σ) : Sys (σ × List (UInt64 × UInt64)) where
  malloc n s := ((sys.malloc n s.1).1, (sys.malloc n s.1).2, s.2)
  uninit n s := sys.uninit n s.1
  logfsOpen pathname s := ((sys.logfsOpen pathname s.1).1, (sys.logfsOpen pathname s.1).2, s.2)
  logfsRead off len s :=
    ((sys.logfsRead off len s.1).1, (sys.logfsRead off len s.1).2, s.2 ++ [(off, len)])
  logfsAppend bs s := ((sys.logfsAppend bs s.1).1, (sys.logfsAppend bs s.1).2, s.2)

theorem Sys.Logs.traced (hlogs : sys.Logs log) : sys.traced.Logs fun s => log s.1 :=
  ⟨fun pathname s => hlogs.open_log pathname s.1, fun off len s => hlogs.read_log off len s.1,
    fun off len s => hlogs.read_some off len s.1, fun bs s => hlogs.append_true bs s.1,
    fun bs s => hlogs.append_false bs s.1⟩

/-- A read that has a buffer asks for its range, whether it succeeds or not. -/
theorem traced_read {buf : List UInt8} {off len : UInt64} (hbuf : len.toNat ≤ buf.length)
    (s : σ × List (UInt64 × UInt64)) :
    wp (sys.traced.read buf off len) (fun _ s' => s'.2 = s.2 ++ [(off, len)])
      (fun e s' => s'.2 = s.2 ++ [(off, len)] ∧ e = .io .logfsRead) s := by
  unfold wp Sys.read
  rw [if_neg (Nat.not_lt.2 hbuf)]
  have htrace : (sys.traced.logfsRead off len s).2.2 = s.2 ++ [(off, len)] := rfl
  revert htrace
  rcases sys.traced.logfsRead off len s with ⟨_ | bs, s'⟩ <;> intro htrace
  · exact ⟨htrace, rfl⟩
  · exact htrace

/-- Every byte of the ranges lies below `size`. -/
def Below (size : UInt64) (requests : List (UInt64 × UInt64)) : Prop :=
  ∀ r ∈ requests, ∀ i, r.1.toNat ≤ i → i < r.1.toNat + r.2.toNat → i < size.toNat

theorem below_nil (size : UInt64) : Below size [] := by simp [Below]

variable {size off len : UInt64} {requests : List (UInt64 × UInt64)}

theorem Below.concat (h : Below size requests) (off len : UInt64)
    (hle : off.toNat + len.toNat ≤ size.toNat) :
    Below size (requests ++ [(off, len)]) := by
  rw [Below, List.forall_mem_append, List.forall_mem_singleton]
  exact ⟨h, fun i _ hi => lt_of_lt_of_le hi hle⟩

/-- A range that goes on to the end of the 64-bit numbers. -/
theorem not_below_of_wrap (off len : UInt64) (hmem : (off, len) ∈ requests)
    (hwrap : 2 ^ 64 ≤ off.toNat + len.toNat) : ¬ Below size requests := by
  intro h
  have hoff := off.toNat_lt
  have hsize := size.toNat_lt
  have hlast := h (off, len) hmem (2 ^ 64 - 1) (show off.toNat ≤ _ by omega)
    (show _ < off.toNat + len.toNat by omega)
  omega

/-! ## The checks -/

/-- With the content `l` of the log, `kvraw_lookup` at `off` asks for bytes below the size only,
    and returns -1 unless the record at `off` lies below it. -/
def Guards (kvraw : Kvraw) (l : List UInt8) (off : UInt64) : Prop :=
  ∀ (σ : Type) (sys : Sys σ) (log : σ → List UInt8) (s : σ), sys.Logs log → log s = l →
    ∀ (key : List UInt8) (keyLen : UInt64) (val : Option (List UInt8)) (valLen : UInt64),
      keyLen.toNat ≤ key.length → Holds val valLen →
      wp (kvrawLookup sys.traced kvraw key keyLen val valLen off)
        (fun out s' => Below kvraw.size s'.2 ∧
          off.toNat + 16 + out.keyLen.toNat + out.valLen.toNat ≤ kvraw.size.toNat)
        (fun e s' => Below kvraw.size s'.2 ∧ e.Returns) (s, [])

/-- No sum that passes its check has wrapped around: neither where the `struct meta` at `off` ends,
    nor, when that is on the log and is accepted, where its record ends. -/
def NoWrap (kvraw : Kvraw) (l : List UInt8) (off : UInt64) : Prop :=
  kvraw.size < off + metaLen ∨
    (off.toNat + 16 < 2 ^ 64 ∧
      ∀ m, off.toNat + 16 ≤ l.length → Meta.ofBytes (Bytes.slice l off.toNat 16) = m →
        kvraw.metaOk off m → off.toNat + 16 + m.keyLen.toNat + m.valLen.toNat < 2 ^ 64)

variable {kvraw : Kvraw} {s : σ}

theorem readMeta_guards (hlogs : sys.Logs log) (h : NoWrap kvraw (log s) off) :
    wp (readMeta sys.traced kvraw off)
      (fun m s' => Below kvraw.size s'.2 ∧
        off.toNat + 16 + m.keyLen.toNat + m.valLen.toNat ≤ kvraw.size.toNat)
      (fun e s' => Below kvraw.size s'.2 ∧ e.Returns) (s, []) := by
  unfold readMeta
  split
  · exact ⟨below_nil _, True.intro⟩
  rename_i hcheck
  obtain ⟨hoff, hmeta⟩ := h.resolve_left hcheck
  have hle := Kvraw.toNat_off_add hcheck (Nat.not_le.2 hoff)
  have hread := (below_nil kvraw.size).concat off metaLen hle
  refine wp.bind (((traced_read (by simp) (s, [])).and (hlogs.traced.read_wp _ _ _)).mono ?_ ?_)
  · rintro bs ⟨s₁, requests⟩ ⟨rfl, -, -, hlog, rfl⟩
    rw [toNat_metaLen] at hlog ⊢
    rw [overwrite_replicate hlog]
    split
    · rename_i hok
      exact ⟨hread, Kvraw.metaOk_le hok (hmeta _ hlog rfl hok)⟩
    · exact ⟨hread, True.intro⟩
  · rintro e ⟨s₁, requests⟩ ⟨⟨rfl, rfl⟩, -⟩
    exact ⟨hread, True.intro⟩

theorem NoWrap.guards {l : List UInt8} (hoff : off ≠ 0) (h : NoWrap kvraw l off) :
    Guards kvraw l off := by
  rintro σ sys log s hlogs rfl key keyLen val valLen hkey hval
  unfold kvrawLookup
  rw [if_neg hval.asserts, if_neg hoff]
  refine wp.bind ((readMeta_guards hlogs h).mono ?_ fun _ _ h => h)
  rintro m s₁ ⟨hbelow, hle⟩
  have hsize := kvraw.size.toNat_lt
  have hkeyOff : (off + metaLen).toNat = off.toNat + 16 := toNat_keyOff (by omega)
  have hvalOff : (off + metaLen + m.keyLen.toUInt64).toNat = off.toNat + 16 + m.keyLen.toNat :=
    toNat_valOff (by omega)
  have hkeyRead := hbelow.concat (off + metaLen) (cMin m.keyLen.toUInt64 keyLen)
    (by rw [hkeyOff, toNat_cMin, UInt16.toNat_toUInt64]; omega)
  have hvalRead := hkeyRead.concat (off + metaLen + m.keyLen.toUInt64)
    (cMin m.valLen.toUInt64 valLen)
    (by rw [hvalOff, toNat_cMin, UInt32.toNat_toUInt64]; omega)
  refine wp.bind ((traced_read ?_ s₁).mono ?_ ?_)
  · rw [toNat_cMin]
    exact le_trans (Nat.min_le_right _ _) hkey
  · rintro key_ ⟨s₂, requests⟩ rfl
    refine wp.bind ((traced_read ?_ _).mono ?_ ?_)
    · rw [toNat_cMin]
      exact le_trans (Nat.min_le_right _ _) hval
    · rintro val_ ⟨s₃, requests⟩ rfl
      refine ⟨hvalRead, ?_⟩
      rwa [UInt16.toNat_toUInt64, UInt32.toNat_toUInt64]
    · rintro e ⟨s₃, requests⟩ ⟨rfl, rfl⟩
      exact ⟨hvalRead, True.intro⟩
  · rintro e ⟨s₂, requests⟩ ⟨rfl, rfl⟩
    exact ⟨hkeyRead, True.intro⟩

/-! ## Sums that wrap around -/

/-- A log with the content `l`, of which the state says how often it can be read. -/
def reading (l : List UInt8) : Sys ℕ where
  malloc _ n := (false, n)
  uninit n _ := List.replicate n 0
  logfsOpen _ n := (false, n)
  logfsRead off len n :=
    (if 0 < n ∧ off.toNat + len.toNat ≤ l.length then some (Bytes.slice l off.toNat len.toNat)
      else none, n - 1)
  logfsAppend _ n := (false, n)

variable {l buf : List UInt8} {n : ℕ}

theorem reading_logs (l : List UInt8) : (reading l).Logs fun _ => l where
  open_log _ _ h := by cases h
  read_log _ _ _ := rfl
  read_some off len n bs h := by
    simp only [reading, Option.ite_none_right_eq_some] at h
    exact ⟨h.1.2, (Option.some.inj h.2).symm⟩
  append_true _ _ h := by cases h
  append_false _ _ _ := List.prefix_rfl

theorem reading_ok (hbuf : len.toNat ≤ buf.length) (hle : off.toNat + len.toNat ≤ l.length) :
    wp ((reading l).traced.read buf off len)
      (fun buf' s' => buf' = Bytes.overwrite buf (Bytes.slice l off.toNat len.toNat) ∧
        s' = (n, requests ++ [(off, len)]))
      (fun _ _ => False) (n + 1, requests) := by
  have hread : (reading l).traced.logfsRead off len (n + 1, requests) =
      (some (Bytes.slice l off.toNat len.toNat), n, requests ++ [(off, len)]) := by
    simp [Sys.traced, reading, hle]
  unfold wp Sys.read
  rw [if_neg (Nat.not_lt.2 hbuf), hread]
  exact ⟨rfl, rfl⟩

theorem reading_refused (hbuf : len.toNat ≤ buf.length) :
    wp ((reading l).traced.read buf off len) (fun _ _ => False)
      (fun _ s' => s'.2 = requests ++ [(off, len)]) (0, requests) := by
  have hread : (reading l).traced.logfsRead off len (0, requests) =
      (none, 0, requests ++ [(off, len)]) := by
    simp [Sys.traced, reading]
  unfold wp Sys.read
  rw [if_neg (Nat.not_lt.2 hbuf), hread]

theorem readMeta_reading {m : Meta} (hcheck : ¬ kvraw.size < off + metaLen)
    (hle : off.toNat + 16 ≤ l.length) (hm : Meta.ofBytes (Bytes.slice l off.toNat 16) = m)
    (hok : kvraw.metaOk off m) :
    wp (readMeta (reading l).traced kvraw off) (fun m' s' => m' = m ∧ s' = (n, [(off, metaLen)]))
      (fun _ _ => False) (n + 1, []) := by
  subst hm
  unfold readMeta
  rw [if_neg hcheck]
  refine wp.bind ((reading_ok (by simp) hle).mono ?_ fun _ _ h => h)
  rintro bs _ ⟨rfl, rfl⟩
  rw [toNat_metaLen, overwrite_replicate hle, if_pos hok]
  exact ⟨rfl, rfl⟩

/-- One run that asks for a byte behind the size is enough. -/
theorem Guards.false (h : Guards kvraw l off) (n : ℕ) (key : List UInt8) (keyLen : UInt64)
    (val : Option (List UInt8)) (valLen : UInt64) (hkey : keyLen.toNat ≤ key.length)
    (hval : Holds val valLen)
    (hrun : wp (kvrawLookup (reading l).traced kvraw key keyLen val valLen off)
      (fun _ s' => ¬ Below kvraw.size s'.2) (fun _ s' => ¬ Below kvraw.size s'.2) (n, [])) :
    False := by
  have hwp := h ℕ (reading l) (fun _ => l) n (reading_logs l) rfl key keyLen val valLen hkey hval
  have hfalse : wp (kvrawLookup (reading l).traced kvraw key keyLen val valLen off)
      (fun _ _ => False) (fun _ _ => False) (n, []) :=
    (hwp.and hrun).mono (fun _ _ h => h.2 h.1.1) (fun _ _ h => h.2 h.1.1)
  obtain ⟨-, -, -, hfalse⟩ := hfalse.returns
  exact hfalse

/-- The `struct meta` ends behind the 64-bit numbers. -/
theorem not_guards_of_meta (hoff : off ≠ 0) (hcheck : ¬ kvraw.size < off + metaLen)
    (hwrap : 2 ^ 64 ≤ off.toNat + 16) : ¬ Guards kvraw l off := by
  intro h
  refine h.false 0 [] 0 none 0 le_rfl le_rfl ?_
  unfold kvrawLookup readMeta
  rw [if_neg (by simp), if_neg hoff, if_neg hcheck]
  refine wp.bind (wp.bind ((reading_refused (by simp)).mono (fun _ _ h => h.elim) ?_))
  rintro e ⟨s₁, requests⟩ rfl
  exact not_below_of_wrap off metaLen (by simp) hwrap

/-- The key does, or the value, which is read when the key has been. -/
theorem not_guards_of_record (hoff : off ≠ 0) (hcheck : ¬ kvraw.size < off + metaLen)
    (hle : off.toNat + 16 ≤ l.length) (hlt : off.toNat + 16 < 2 ^ 64) {m : Meta}
    (hm : Meta.ofBytes (Bytes.slice l off.toNat 16) = m) (hok : kvraw.metaOk off m)
    (hwrap : 2 ^ 64 ≤ off.toNat + 16 + m.keyLen.toNat + m.valLen.toNat) :
    ¬ Guards kvraw l off := by
  intro h
  have hkeyOff := toNat_keyOff hlt
  by_cases hkey : 2 ^ 64 ≤ off.toNat + 16 + m.keyLen.toNat
  · refine h.false 1 (List.replicate m.keyLen.toNat 0) m.keyLen.toUInt64 none 0 (by simp)
      le_rfl ?_
    unfold kvrawLookup
    rw [if_neg (by simp), if_neg hoff]
    refine wp.bind ((readMeta_reading hcheck hle hm hok).mono ?_ fun _ _ h => h.elim)
    rintro m _ ⟨rfl, rfl⟩
    refine wp.bind ((reading_refused (by simp [toNat_cMin])).mono (fun _ _ h => h.elim) ?_)
    rintro e ⟨s₂, requests⟩ rfl
    refine not_below_of_wrap (off + metaLen) (cMin m.keyLen.toUInt64 m.keyLen.toUInt64)
      (by simp) ?_
    rwa [hkeyOff, toNat_cMin, UInt16.toNat_toUInt64, Nat.min_self]
  · have hvalOff := toNat_valOff (Nat.not_le.1 hkey)
    refine h.false 2 [] 0 (some (List.replicate m.valLen.toNat 0)) m.valLen.toUInt64 le_rfl
      (by simp [Holds]) ?_
    unfold kvrawLookup
    rw [if_neg (by simp), if_neg hoff]
    refine wp.bind ((readMeta_reading hcheck hle hm hok).mono ?_ fun _ _ h => h.elim)
    rintro m _ ⟨rfl, rfl⟩
    refine wp.bind ((reading_ok (by simp [toNat_cMin]) ?_).mono ?_ fun _ _ h => h.elim)
    · rw [hkeyOff, toNat_cMin]
      simpa using hle
    rintro key_ _ ⟨-, rfl⟩
    refine wp.bind ((reading_refused (by simp [toNat_cMin])).mono (fun _ _ h => h.elim) ?_)
    rintro e ⟨s₃, requests⟩ rfl
    refine not_below_of_wrap (off + metaLen + m.keyLen.toUInt64)
      (cMin m.valLen.toUInt64 m.valLen.toUInt64) (by simp) ?_
    rwa [hvalOff, toNat_cMin, UInt32.toNat_toUInt64, Nat.min_self]

/-- **The checks hold out** against exactly those offsets at which no sum wraps around that they
    accept. -/
theorem guards_iff (hoff : off ≠ 0) : Guards kvraw l off ↔ NoWrap kvraw l off := by
  refine ⟨fun h => ?_, fun h => h.guards hoff⟩
  by_contra hno
  obtain ⟨hcheck, hno⟩ := not_or.1 hno
  by_cases hlt : off.toNat + 16 < 2 ^ 64
  · obtain ⟨m, hm⟩ := not_forall.1 (not_and.1 hno hlt)
    obtain ⟨hle, heq, hok, hwrap⟩ : off.toNat + 16 ≤ l.length ∧ _ ∧ kvraw.metaOk off m ∧ _ := by
      simpa only [Classical.not_imp] using hm
    exact not_guards_of_record hoff hcheck hle hlt heq hok (Nat.not_lt.1 hwrap) h
  · exact not_guards_of_meta hoff hcheck (Nat.not_lt.1 hlt) h

/-- A link to the last eight bytes of the 64-bit numbers: the `struct meta` seems to end at 8. -/
theorem last_bytes_not_guarded : ¬ Guards ⟨18⟩ (openedOn []).log 0xfffffffffffffff8 :=
  not_guards_of_meta (by decide) (by decide) (by decide)

theorem guards_iff_last_bytes :
    Guards ⟨18⟩ (openedOn []).log 0xfffffffffffffff8 ↔ NoWrap ⟨18⟩ (openedOn []).log 0xfffffffffffffff8 :=
  guards_iff (by decide)

end CS238P.Store
