import CS238P.Store.KvrawSpec
import CS238P.Store.Kvdb

set_option autoImplicit false

/-! # What `chain_lookup` finds

`chainView` walks the chain on the bytes of the log and compares whole keys. `chainLookup` ends as
the view says unless a call fails: the speculative read, the comparison of eight bytes and the
second read of long keys make no difference. -/

namespace CS238P.Store

theorem KeyOk.ne_nil {key : List UInt8} (h : KeyOk key) : key ≠ [] := by
  rintro rfl
  exact h.1 rfl

theorem KeyOk.length_lt {key : List UInt8} (h : KeyOk key) : key.length < 2 ^ 64 :=
  lt_of_le_of_lt h.2 (by decide)

/-- The walk along a chain of at most `n` records. `val` is the caller's buffer, which every record
    on the way is read to. -/
def chainView (kvraw : Kvraw) (log key : List UInt8) (valLen : UInt64) :
    ℕ → Option (List UInt8) → UInt64 → Except Fail ChainOut
  | 0, _, _ => .error .diverges
  | n + 1, val, off =>
      if off = 0 then .ok ⟨off, valLen, val⟩
      else
        match kvraw.metaView log off with
        | .error e => .error e
        | .ok m =>
            let val' := val.map fun v => Bytes.overwrite v ((valView log off m).take valLen.toNat)
            if keyView log off m = key then .ok ⟨off, m.valLen.toUInt64, val'⟩
            else chainView kvraw log key valLen n val' m.off

section Step

variable {σ : Type} (sys : Sys σ) (kvraw : Kvraw)

/-- The part of the loop behind the read of a record to `out`; `next` is the loop from another
    record on. -/
def compareKeys (key : List UInt8) (off : UInt64)
    (next : Option (List UInt8) → UInt64 → M σ ChainOut) (out : LookupOut) : M σ ChainOut :=
  let keyLen : UInt64 := .ofNat key.length
  if out.keyLen ≠ keyLen ∨
      out.key.take (cMin keyLen 8).toNat ≠ key.take (cMin keyLen 8).toNat then
    next out.val out.off
  else if 8 < out.keyLen then do
    sys.mallocOr out.keyLen .keyMemory
    let key_ ← sys.uninitialised out.keyLen.toNat
    let out' ← kvrawLookup sys kvraw key_ out.keyLen out.val 0 off
    if out'.key.take keyLen.toNat = key.take keyLen.toNat then
      return ⟨off, out'.valLen, out'.val⟩
    else next out'.val out'.off
  else if out.key.take keyLen.toNat = key.take keyLen.toNat then
    return ⟨off, out.valLen, out.val⟩
  else next out.val out.off

/-- The same with any continuations: `found` ends the search with the record, and `next` goes on from
    another one. Both get the result of the second read, if there was one. -/
def compareWith {α : Type} (key : List UInt8) (off : UInt64)
    (found : List LookupOut → ChainOut → M σ α)
    (next : List LookupOut → Option (List UInt8) → UInt64 → M σ α) (out : LookupOut) : M σ α :=
  let keyLen : UInt64 := .ofNat key.length
  if out.keyLen ≠ keyLen ∨
      out.key.take (cMin keyLen 8).toNat ≠ key.take (cMin keyLen 8).toNat then
    next [] out.val out.off
  else if 8 < out.keyLen then do
    sys.mallocOr out.keyLen .keyMemory
    let key_ ← sys.uninitialised out.keyLen.toNat
    let out' ← kvrawLookup sys kvraw key_ out.keyLen out.val 0 off
    if out'.key.take keyLen.toNat = key.take keyLen.toNat then
      found [out'] ⟨off, out'.valLen, out'.val⟩
    else next [out'] out'.val out'.off
  else if out.key.take keyLen.toNat = key.take keyLen.toNat then
    found [] ⟨off, out.valLen, out.val⟩
  else next [] out.val out.off

theorem compareKeys_eq (key : List UInt8) (off : UInt64)
    (next : Option (List UInt8) → UInt64 → M σ ChainOut) (out : LookupOut) :
    compareKeys sys kvraw key off next out =
      compareWith sys kvraw key off (fun _ => pure) (fun _ => next) out := rfl

/-- One turn of the loop. -/
theorem chainLoop_succ (key : List UInt8) (valLen : UInt64) (n : ℕ) (buf : List UInt8)
    (val : Option (List UInt8)) (off : UInt64) :
    chainLoop sys kvraw key valLen (n + 1) buf val off =
      if off = 0 then pure ⟨off, valLen, val⟩
      else
        kvrawLookup sys kvraw buf (cMin (.ofNat key.length) 256) val valLen off >>= fun out =>
          compareKeys sys kvraw key off (chainLoop sys kvraw key valLen n out.key) out := rfl

end Step

variable {σ : Type} {sys : Sys σ} {log : σ → List UInt8} (hsys : sys.Documented log) {s : σ}
  {kvraw : Kvraw}

theorem Holds.read {val : Option (List UInt8)} {valLen : UInt64} (h : Holds val valLen)
    (bs : List UInt8) :
    Holds (val.map fun v => Bytes.overwrite v (bs.take valLen.toNat)) valLen := by
  cases val with
  | none => exact h
  | some v =>
      have hlen : (bs.take valLen.toNat).length ≤ v.length := by
        rw [List.length_take]
        exact le_trans (Nat.min_le_left _ _) h
      show _ ≤ (Bytes.overwrite v _).length
      rw [Bytes.length_overwrite hlen]
      exact h

/-- Reading nothing to a buffer. -/
theorem map_overwrite_zero (val : Option (List UInt8)) (bs : List UInt8) :
    (val.map fun v => Bytes.overwrite v (bs.take (0 : UInt64).toNat)) = val := by
  cases val <;> simp [Bytes.overwrite]

theorem length_keyView {l : List UInt8} {off : UInt64} {m : Meta}
    (hsize : kvraw.size.toNat ≤ l.length) (hlt : l.length < 2 ^ 63)
    (h : kvraw.metaView l off = .ok m) : (keyView l off m).length = m.keyLen.toNat := by
  have hle := Kvraw.metaView_le (by omega) h
  exact Bytes.length_slice (by omega)

/-- What `kvraw_lookup` read of a key to a buffer that is long enough. -/
theorem take_lookupView {l buf : List UInt8} {keyLen valLen off : UInt64}
    {val : Option (List UInt8)} {m : Meta} {n : ℕ} (hn : n ≤ keyLen.toNat)
    (hkey : n ≤ (keyView l off m).length) :
    (lookupView l buf keyLen val valLen off m).key.take n = (keyView l off m).take n := by
  show (Bytes.overwrite buf _).take n = _
  rw [Bytes.take_overwrite _ _ (by rw [List.length_take]; omega), List.take_take,
    Nat.min_eq_left hn]

/-- What `chain_lookup` reads of a key at first, if it is as long as the one searched for. -/
theorem take_speculative {l buf key : List UInt8} {valLen off : UInt64}
    {val : Option (List UInt8)} {m : Meta} (hkey : key.length < 2 ^ 64)
    (hlen : (keyView l off m).length = key.length) {k : ℕ} (hk : k ≤ min key.length 256) :
    (lookupView l buf (cMin (.ofNat key.length) 256) val valLen off m).key.take k =
      (keyView l off m).take k := by
  refine take_lookupView ?_ (by omega)
  rw [toNat_cMin, toNat_ofNat_length hkey]
  exact hk

theorem length_lookupView {l buf : List UInt8} {keyLen valLen off : UInt64}
    {val : Option (List UInt8)} {m : Meta} (h : keyLen.toNat ≤ buf.length) :
    (lookupView l buf keyLen val valLen off m).key.length = buf.length := by
  show (Bytes.overwrite buf _).length = _
  rw [Bytes.length_overwrite]
  rw [List.length_take]
  omega

/-- The search of a chain on the log `l` ended as `view` shows, or a call failed, or the arguments
    are `bad`. -/
def Finds (log : σ → List UInt8) (l : List UInt8) (bad : Prop) (view : Except Fail ChainOut)
    (x : M σ ChainOut) (s : σ) : Prop :=
  wp x (fun out s' => log s' = l ∧ view = .ok out)
    (fun e s' => log s' = l ∧ (e = .io .logfsRead ∨ e = .io .keyMemory ∨ view = .error e ∨
      (bad ∧ (e = .assertion ∨ e = .outOfBounds)))) s

theorem finds_ite {l : List UInt8} {bad : Prop} {view : Except Fail ChainOut} {c : Prop}
    [Decidable c] {x y : M σ ChainOut} (hx : c → Finds log l bad view x s)
    (hy : ¬ c → Finds log l bad view y s) : Finds log l bad view (if c then x else y) s := by
  split
  · exact hx (by assumption)
  · exact hy (by assumption)

include hsys

/-- One record of the chain, after it was read to `out`: the search ends there or goes on, as the
    whole keys say. -/
theorem compareWith_wp {α : Type} {Q : α → σ → Prop} {E : Fail → σ → Prop}
    {found : List LookupOut → ChainOut → M σ α}
    {next : List LookupOut → Option (List UInt8) → UInt64 → M σ α} {l key : List UInt8}
    {m : Meta} {off valLen : UInt64} {val val' : Option (List UInt8)} {buf : List UInt8}
    {out : LookupOut} (hsize : kvraw.size.toNat ≤ l.length) (hkey : key.length < 2 ^ 64)
    (hoff : off ≠ 0) (hm : kvraw.metaView l off = .ok m)
    (hout : out = lookupView l buf (cMin (.ofNat key.length) 256) val valLen off m)
    (hval : out.val = val') (hs : log s = l)
    (hnext : ∀ more s', log s' = l → keyView l off m ≠ key → wp (next more val' m.off) Q E s')
    (hfound : ∀ more s', log s' = l → keyView l off m = key →
      wp (found more ⟨off, m.valLen.toUInt64, val'⟩) Q E s')
    (herror : ∀ e s', log s' = l → e = .io .logfsRead ∨ e = .io .keyMemory → E e s') :
    wp (compareWith sys kvraw key off found next out) Q E s := by
  have hlt : l.length < 2 ^ 63 := hs ▸ hsys.log_length s
  have hlen := length_keyView hsize hlt hm
  have hkeyLen := toNat_ofNat_length hkey
  have h8 : (cMin (.ofNat key.length) 8).toNat = min key.length 8 := by
    rw [toNat_cMin, hkeyLen]
    rfl
  have hk : out.keyLen = m.keyLen.toUInt64 := by rw [hout]; rfl
  have hv : out.valLen = m.valLen.toUInt64 := by rw [hout]; rfl
  have ho : out.off = m.off := by rw [hout]; rfl
  have hmk : m.keyLen.toUInt64.toNat = m.keyLen.toNat := UInt16.toNat_toUInt64 _
  have htake : m.keyLen.toNat = key.length → ∀ k ≤ min key.length 256,
      out.key.take k = (keyView l off m).take k := fun hkl k hk => by
    rw [hout]
    exact take_speculative hkey (hlen.trans hkl) hk
  unfold compareWith
  simp only
  by_cases hne : out.keyLen ≠ .ofNat key.length ∨
      out.key.take (cMin (.ofNat key.length) 8).toNat ≠
        key.take (cMin (.ofNat key.length) 8).toNat
  · -- another length or other first bytes
    rw [if_pos hne, hval, ho]
    refine hnext [] s hs fun heq => ?_
    have hkl : m.keyLen.toNat = key.length := by rw [← hlen, heq]
    rcases hne with hne | hne
    · exact hne (UInt64.toNat_inj.1 (by rw [hk, hkeyLen, hmk, hkl]))
    · rw [h8, htake hkl _ (by omega), heq] at hne
      exact hne rfl
  rw [if_neg hne]
  have hkl : m.keyLen.toNat = key.length := by
    rw [← hmk, ← hkeyLen, ← hk]
    exact congrArg UInt64.toNat (not_not.1 (not_or.1 hne).1)
  have hall : (keyView l off m).take key.length = keyView l off m :=
    List.take_of_length_le (by omega)
  by_cases hlong : 8 < out.keyLen
  · -- a key that is read again, to the heap
    rw [if_pos hlong]
    refine wp.bind ((mallocOr_wp hsys _ _).mono ?_
      fun e s' h => herror e s' (h.1.trans hs) (.inr h.2))
    rintro - s₁ ⟨h₁, -⟩
    refine wp.bind ((uninitialised_wp hsys _).mono ?_ fun _ _ h => h.elim)
    rintro key_ s₂ ⟨h₂, hkey_⟩
    have hs₂ : log s₂ = l := h₂.trans (h₁.trans hs)
    refine wp.bind ((kvrawLookup_wp hsys (by rw [hs₂]; exact hsize) (by rw [hkey_])
      hoff).mono ?_ ?_)
    · rintro out' s₃ ⟨h₃, m', hm', hout'⟩
      rw [hs₂] at h₃ hm' hout'
      obtain rfl : m = m' := Except.ok.inj (hm.symm.trans hm')
      have hv' : out'.valLen = m.valLen.toUInt64 := by rw [hout']; rfl
      have ho' : out'.off = m.off := by rw [hout']; rfl
      have hval' : out'.val = val' := by
        rw [hout', ← hval]
        exact map_overwrite_zero _ _
      have hcmp : out'.key.take (UInt64.ofNat key.length).toNat = keyView l off m := by
        rw [hkeyLen, hout', take_lookupView (by rw [hk]; omega) (by omega), hall]
      rw [hcmp, hkeyLen, List.take_length, hv', ho', hval']
      split
      · exact hfound _ s₃ h₃ (by assumption)
      · exact hnext _ s₃ h₃ (by assumption)
    · rintro e s₃ ⟨h₃, h⟩
      rw [hs₂] at h₃ h
      rcases h with h | h | ⟨hbad, -⟩
      · exact herror e s₃ h₃ (.inl h)
      · rw [hm] at h
        cases h
      · exact absurd (Nat.zero_le _) hbad
  · -- a key of at most eight bytes
    have hshort : ¬ 8 < key.length := by
      rw [hk, UInt64.lt_iff_toNat_lt, hmk, hkl] at hlong
      exact hlong
    have hcmp : out.key.take (UInt64.ofNat key.length).toNat = keyView l off m := by
      rw [hkeyLen, htake hkl _ (by omega), hall]
    rw [if_neg hlong, hcmp, hkeyLen, List.take_length, hv, ho, hval]
    split
    · exact hfound [] s hs (by assumption)
    · exact hnext [] s hs (by assumption)

theorem compare_finds (next : Option (List UInt8) → UInt64 → M σ ChainOut) {l key : List UInt8}
    {bad : Prop} {view : Except Fail ChainOut} {m : Meta} {off valLen : UInt64}
    {val val' : Option (List UInt8)} {buf : List UInt8} {out : LookupOut}
    (hsize : kvraw.size.toNat ≤ l.length) (hkey : key.length < 2 ^ 64) (hoff : off ≠ 0)
    (hm : kvraw.metaView l off = .ok m)
    (hout : out = lookupView l buf (cMin (.ofNat key.length) 256) val valLen off m)
    (hval : out.val = val') (hs : log s = l)
    (hnext : ∀ s', log s' = l → keyView l off m ≠ key → Finds log l bad view (next val' m.off) s')
    (hfound : keyView l off m = key → view = .ok ⟨off, m.valLen.toUInt64, val'⟩) :
    Finds log l bad view (compareKeys sys kvraw key off next out) s := by
  rw [compareKeys_eq]
  exact compareWith_wp hsys hsize hkey hoff hm hout hval hs (fun _ => hnext)
    (fun _ _ hs' heq => ⟨hs', hfound heq⟩) fun _ _ hs' he => ⟨hs', he.imp_right Or.inl⟩

/-- **The `while` loop of `chain_lookup`** finds what the view shows. -/
theorem chainLoop_finds {l key : List UInt8} (hsize : kvraw.size.toNat ≤ l.length)
    (hkey : key.length < 2 ^ 64) {valLen : UInt64} {bad : Prop} (n : ℕ) :
    ∀ (buf : List UInt8) (val : Option (List UInt8)) (off : UInt64) (s : σ), log s = l →
      256 ≤ buf.length → (¬ Holds val valLen → bad) →
      Finds log l bad (chainView kvraw l key valLen n val off)
        (chainLoop sys kvraw key valLen n buf val off) s := by
  induction n with
  | zero => intro buf val off s hs _ _; exact ⟨hs, .inr (.inr (.inl rfl))⟩
  | succ n ih =>
      intro buf val off s hs hbuf hval
      have hread := cMin_le_length hbuf (.ofNat key.length)
      rw [chainLoop_succ, chainView]
      refine finds_ite (fun h0 => ?_) fun hoff => ?_
      · rw [if_pos h0]
        exact ⟨hs, rfl⟩
      rw [if_neg hoff]
      refine wp.bind ((kvrawLookup_wp hsys (by rw [hs]; exact hsize) hread hoff).mono ?_ ?_)
      · -- the record was read, and the buffers are as long as they were
        rintro out s₁ ⟨h₁, m, hm, hout⟩
        rw [hs] at h₁ hm hout
        rw [hm]
        have hbuf' : 256 ≤ out.key.length := by
          rw [hout, length_lookupView hread]
          exact hbuf
        refine compare_finds hsys (chainLoop sys kvraw key valLen n out.key) hsize hkey hoff hm
          hout (by rw [hout]; rfl) h₁ (fun s' hs' hne => ?_) fun heq => if_pos heq
        simp only
        rw [if_neg hne]
        exact ih _ _ _ s' hs' hbuf' fun hbad => hval fun h => hbad (h.read _)
      · rintro e s₁ ⟨h₁, h⟩
        rw [hs] at h₁ h
        refine ⟨h₁, h.imp_right fun h => .inr (h.imp (fun h => ?_) (And.imp_left hval))⟩
        rw [h]

/-- **`chain_lookup`** finds what the view shows. -/
theorem chainLookup_finds {key : List UInt8} (hsize : kvraw.size.toNat ≤ (log s).length)
    (hkey : key.length < 2 ^ 64) (val : Option (List UInt8)) (valLen off : UInt64) :
    Finds log (log s) (¬ Holds val valLen)
      (chainView kvraw (log s) key valLen (kvraw.size.toNat + 1) val off)
      (chainLookup sys kvraw key val valLen off) s := by
  refine wp.bind ((uninitialised_wp hsys 256).mono ?_ fun _ _ h => h.elim)
  rintro buf s₁ ⟨h₁, hbuf⟩
  exact chainLoop_finds hsys hsize hkey _ buf val off s₁ h₁ (by rw [hbuf]) id

/-! ## Frame -/

/-- Searching leaves the log alone, whatever its arguments. -/
theorem chainLoop_log (key : List UInt8) (valLen : UInt64) (n : ℕ) :
    ∀ (buf : List UInt8) (val : Option (List UInt8)) (off : UInt64) (s : σ),
      wp (chainLoop sys kvraw key valLen n buf val off) (fun _ s' => log s' = log s)
        (fun e s' => log s' = log s ∧ e ≠ .io .logfsAppend) s := by
  induction n with
  | zero => intro buf val off s; exact ⟨rfl, by decide⟩
  | succ n ih =>
      intro buf val off s
      rw [chainLoop]
      split
      · exact rfl
      refine wp.bind ((kvrawLookup_log hsys.logs _ _ _ _ _).mono ?_ fun _ _ h => h)
      intro out s₁ h₁
      have hnext : ∀ val off s', log s' = log s →
          wp (chainLoop sys kvraw key valLen n out.key val off) (fun _ s'' => log s'' = log s)
            (fun e s'' => log s'' = log s ∧ e ≠ .io .logfsAppend) s' := fun val off s' hs' =>
        (ih out.key val off s').mono (fun _ _ h => h.trans hs') fun _ _ h => ⟨h.1.trans hs', h.2⟩
      split
      · exact hnext _ _ s₁ h₁
      split
      · refine wp.bind ((mallocOr_wp hsys _ _).mono ?_ fun e _ h => ⟨h.1.trans h₁, ?_⟩)
        · rintro - s₂ ⟨h₂, -⟩
          refine wp.bind ((uninitialised_wp hsys _).mono ?_ fun _ _ h => h.elim)
          rintro key_ s₃ ⟨h₃, -⟩
          have hs₃ := h₃.trans (h₂.trans h₁)
          refine wp.bind ((kvrawLookup_log hsys.logs _ _ _ _ _).mono ?_
            fun _ _ h => ⟨h.1.trans hs₃, h.2⟩)
          intro out' s₄ h₄
          split
          · exact h₄.trans hs₃
          · exact hnext _ _ s₄ (h₄.trans hs₃)
        · rw [h.2]
          decide
      · split
        · exact h₁
        · exact hnext _ _ s₁ h₁

theorem chainLookup_log (key : List UInt8) (val : Option (List UInt8)) (valLen off : UInt64) :
    wp (chainLookup sys kvraw key val valLen off) (fun _ s' => log s' = log s)
      (fun e s' => log s' = log s ∧ e ≠ .io .logfsAppend) s := by
  refine wp.bind ((uninitialised_wp hsys 256).mono ?_ fun _ _ h => h.elim)
  rintro buf s₁ ⟨h₁, -⟩
  exact (chainLoop_log hsys key valLen _ buf val off s₁).mono (fun _ _ h => h.trans h₁)
    fun _ _ h => ⟨h.1.trans h₁, h.2⟩

end CS238P.Store
