import CS238P.Library.Sync
import CS238P.Store.Chains
import CS238P.Store.Failure

set_option autoImplicit false

/-! # Two runs that differ in uninitialised memory

In twin states of the system the calls have the same outcome, but memory that nothing was written to
holds anything. The functions of the store end alike in them (`Op.run_sync`), although
`kvraw_open` puts such memory on the log and `chain_lookup` reads keys to it: the logs differ in the
first record alone, and no chain leads there. -/

namespace CS238P.Store

variable {σ : Type}

/-- States in which the calls have the same outcome. -/
structure Sys.Twins (sys : Sys σ) (log : σ → List UInt8) (R : σ → σ → Prop) : Prop where
  length : ∀ {s t}, R s t → (log s).length = (log t).length
  malloc : ∀ {s t} n, R s t →
    (sys.malloc n s).1 = (sys.malloc n t).1 ∧ R (sys.malloc n s).2 (sys.malloc n t).2
  logfsOpen : ∀ {s t} path, R s t →
    (sys.logfsOpen path s).1 = (sys.logfsOpen path t).1 ∧
      R (sys.logfsOpen path s).2 (sys.logfsOpen path t).2
  logfsRead : ∀ {s t} off len, R s t →
    (sys.logfsRead off len s).1.isSome = (sys.logfsRead off len t).1.isSome ∧
      R (sys.logfsRead off len s).2 (sys.logfsRead off len t).2
  logfsAppend : ∀ {s t} bs bs', bs.length = bs'.length → R s t →
    (sys.logfsAppend bs s).1 = (sys.logfsAppend bs' t).1 ∧
      R (sys.logfsAppend bs s).2 (sys.logfsAppend bs' t).2

variable {sys : Sys σ} {log : σ → List UInt8} {R : σ → σ → Prop} {s t : σ}

/-! ## The external calls -/

section Calls

variable (htwins : sys.Twins log R) (hR : R s t)
include htwins hR

theorem mallocOr_sync (n : UInt64) (cause : Cause) :
    Sync R (fun _ _ => True) (sys.mallocOr n cause) (sys.mallocOr n cause) s t := by
  unfold Sync Sys.mallocOr
  have h := htwins.malloc n hR
  revert h
  rcases sys.malloc n s with ⟨_ | _, s'⟩ <;> rcases sys.malloc n t with ⟨_ | _, t'⟩ <;>
    simp

theorem open_sync (pathname : String) :
    Sync R (fun _ _ => True) (sys.open pathname) (sys.open pathname) s t := by
  unfold Sync Sys.open
  have h := htwins.logfsOpen pathname hR
  revert h
  rcases sys.logfsOpen pathname s with ⟨_ | _, s'⟩ <;>
    rcases sys.logfsOpen pathname t with ⟨_ | _, t'⟩ <;> simp

theorem read_sync {buf buf' : List UInt8} (hbuf : buf.length = buf'.length) (off len : UInt64) :
    Sync R (fun _ _ => True) (sys.read buf off len) (sys.read buf' off len) s t := by
  unfold Sync Sys.read
  rw [hbuf]
  by_cases hlen : buf'.length < len.toNat
  · rw [if_pos hlen, if_pos hlen]
    exact ⟨rfl, hR⟩
  · rw [if_neg hlen, if_neg hlen]
    have h := htwins.logfsRead off len hR
    revert h
    rcases sys.logfsRead off len s with ⟨_ | bs, s'⟩ <;>
      rcases sys.logfsRead off len t with ⟨_ | bs', t'⟩ <;> simp

theorem append_sync {bs bs' : List UInt8} (hbs : bs.length = bs'.length) :
    Sync R (fun _ _ => True) (sys.append bs) (sys.append bs') s t := by
  unfold Sync Sys.append
  have h := htwins.logfsAppend bs bs' hbs hR
  revert h
  rcases sys.logfsAppend bs s with ⟨_ | _, s'⟩ <;>
    rcases sys.logfsAppend bs' t with ⟨_ | _, t'⟩ <;> simp

omit htwins in
/-- Nothing is said of what the two objects hold. -/
theorem uninitialised_sync (n : ℕ) :
    Sync R (fun _ _ => True) (sys.uninitialised n) (sys.uninitialised n) s t :=
  .of_ok rfl rfl trivial hR

end Calls

/-! ## Behind the first record the logs are the same -/

section Views

variable {kvraw : Kvraw} {l l' : List UInt8} {off : UInt64} {m : Meta}

/-- Where what `kvraw_open` wrote ends. -/
def sentinelLen : ℕ := endOff []

theorem metaView_of_drop (h : l.drop sentinelLen = l'.drop sentinelLen)
    (hoff : sentinelLen ≤ off.toNat) : kvraw.metaView l off = kvraw.metaView l' off := by
  unfold Kvraw.metaView
  rw [Bytes.slice_of_drop h hoff]

theorem keyView_of_drop (h : l.drop sentinelLen = l'.drop sentinelLen)
    (hoff : sentinelLen ≤ off.toNat) : keyView l off m = keyView l' off m :=
  Bytes.slice_of_drop h (by omega) _

theorem valView_of_drop (h : l.drop sentinelLen = l'.drop sentinelLen)
    (hoff : sentinelLen ≤ off.toNat) : valView l off m = valView l' off m :=
  Bytes.slice_of_drop h (by omega) _

/-- The histories of the same records. -/
theorem drop_history (hash : List UInt8 → UInt64) (junk junk' : UInt64) (recs : List Rec) :
    (history hash junk recs).drop sentinelLen = (history hash junk' recs).drop sentinelLen := by
  induction recs with
  | nil =>
      rw [List.drop_eq_nil_of_le, List.drop_eq_nil_of_le]
      · rw [length_history, sentinelLen]
      · rw [length_history, sentinelLen]
  | cons r older ih =>
      have hlen : ∀ junk, (history hash junk older).length = endOff older :=
        fun junk => length_history hash junk older
      rw [history, history, List.drop_append, List.drop_append, ih, hlen, hlen]

theorem sentinelLen_le_of_mem_offsets {hash : List UInt8 → UInt64} {recs : List Rec}
    (hend : endOff recs < 2 ^ 63) {h o : UInt64} (ho : o ∈ offsets hash recs h) :
    sentinelLen ≤ o.toNat := by
  induction recs with
  | nil => cases ho
  | cons r older ih =>
      have hge := endOff_ge older
      rw [endOff] at hend
      rw [offsets] at ho
      split at ho
      · rcases List.mem_cons.1 ho with rfl | ho
        · rw [toNat_endOff (by omega)]
          show 18 ≤ _
          omega
        · exact ih (by omega) ho
      · exact ih (by omega) ho

end Views

/-! ## Reading records -/

section Records

variable (hsys : sys.Documented log) (htwins : sys.Twins log R) {kvraw : Kvraw}
include hsys htwins

/-- Where `read_meta` accepts a record in both logs. -/
theorem readMeta_sync (hR : R s t) {off : UInt64} {m m' : Meta}
    (hm : kvraw.metaView (log s) off = .ok m) (hm' : kvraw.metaView (log t) off = .ok m') :
    Sync R (fun _ _ => True) (readMeta sys kvraw off) (readMeta sys kvraw off) s t := by
  obtain ⟨-, -, hok, heq⟩ := Kvraw.metaView_eq_ok hm
  obtain ⟨-, -, hok', heq'⟩ := Kvraw.metaView_eq_ok hm'
  unfold readMeta
  refine .ite Iff.rfl (fun _ => .throw hR) fun hlow => ?_
  refine .bind (read_sync htwins hR rfl _ _) fun bs bs' s₁ t₁ hx hy _ h₁ => ?_
  obtain ⟨-, -, hle, rfl⟩ := (hsys.logs.read_wp _ _ _).ok hx
  obtain ⟨-, -, hle', rfl⟩ := (hsys.logs.read_wp _ _ _).ok hy
  rw [toNat_metaLen] at hle hle' ⊢
  rw [overwrite_replicate hle, overwrite_replicate hle', heq, heq', if_pos hok, if_pos hok']
  exact .pure trivial h₁

/-- The same record is read to two buffers of one length. -/
theorem kvrawLookup_sync (hR : R s t) (hlog : (log s).drop sentinelLen = (log t).drop sentinelLen)
    {buf buf' : List UInt8} {keyLen valLen off : UInt64} {val : Option (List UInt8)} {m : Meta}
    (hbuf : buf.length = buf'.length) (hoff : sentinelLen ≤ off.toNat)
    (hm : kvraw.metaView (log s) off = .ok m) :
    Sync R (fun _ _ => True) (kvrawLookup sys kvraw buf keyLen val valLen off)
      (kvrawLookup sys kvraw buf' keyLen val valLen off) s t := by
  have hm' : kvraw.metaView (log t) off = .ok m := by
    rw [← metaView_of_drop hlog hoff]
    exact hm
  unfold kvrawLookup
  refine .ite Iff.rfl (fun _ => .throw hR) fun _ => ?_
  refine .ite Iff.rfl (fun _ => .throw hR) fun _ => ?_
  refine .bind (readMeta_sync hsys htwins hR hm hm') fun m₁ m₂ s₁ t₁ hx hy _ h₁ => ?_
  obtain rfl : m = m₁ := by
    have := ((readMeta_wp hsys True off).ok hx).2
    exact Except.ok.inj (hm.symm.trans this)
  obtain rfl : m = m₂ := by
    have := ((readMeta_wp hsys True off).ok hy).2
    exact Except.ok.inj (hm'.symm.trans this)
  refine .bind (read_sync htwins h₁ hbuf _ _) fun _ _ s₂ t₂ _ _ _ h₂ => ?_
  refine .bind (read_sync htwins h₂ rfl _ _) fun _ _ s₃ t₃ _ _ _ h₃ => ?_
  exact .pure trivial h₃

omit htwins in
/-- What was read, if the read returned. -/
theorem kvrawLookup_view (hsize : kvraw.size.toNat ≤ (log s).length) {buf : List UInt8}
    {keyLen valLen off : UInt64} {val : Option (List UInt8)} {m : Meta}
    (hbuf : keyLen.toNat ≤ buf.length) (hoff : off ≠ 0)
    (hm : kvraw.metaView (log s) off = .ok m) {out : LookupOut} {s' : σ}
    (h : kvrawLookup sys kvraw buf keyLen val valLen off s = .ok out s') :
    out = lookupView (log s) buf keyLen val valLen off m := by
  obtain ⟨-, m', hm', hout⟩ := (kvrawLookup_wp hsys hsize hbuf hoff).ok h
  obtain rfl := Except.ok.inj (hm.symm.trans hm')
  exact hout

end Records

/-! ## Searching -/

/-- Twin states with these logs. -/
def TwinsOn (R : σ → σ → Prop) (log : σ → List UInt8) (l l' : List UInt8) (s t : σ) : Prop :=
  R s t ∧ log s = l ∧ log t = l'

section Search

variable (hsys : sys.Documented log) (htwins : sys.Twins log R) {kvraw : Kvraw}
  {l l' : List UInt8}
include hsys

theorem uninitialised_twinsOn (h : TwinsOn R log l l' s t) (n : ℕ) :
    Sync (TwinsOn R log l l') (fun bs bs' => bs.length = n ∧ bs'.length = n)
      (sys.uninitialised n) (sys.uninitialised n) s t :=
  .of_ok rfl rfl ⟨hsys.uninit_length n s, hsys.uninit_length n t⟩ h

include htwins

theorem mallocOr_twinsOn (h : TwinsOn R log l l' s t) (n : UInt64) (cause : Cause) :
    Sync (TwinsOn R log l l') (fun _ _ => True) (sys.mallocOr n cause) (sys.mallocOr n cause) s
      t := by
  obtain ⟨hR, rfl, rfl⟩ := h
  refine (mallocOr_sync htwins hR n cause).frame ?_ ?_
  · exact (mallocOr_wp hsys n cause).mono (fun _ _ h => h.1) fun _ _ h => h.1
  · exact (mallocOr_wp hsys n cause).mono (fun _ _ h => h.1) fun _ _ h => h.1

/-- A record that both logs have, behind the first one. -/
structure Common (kvraw : Kvraw) (l l' : List UInt8) (off : UInt64) (m : Meta) : Prop where
  drop : l.drop sentinelLen = l'.drop sentinelLen
  size : kvraw.size.toNat ≤ l.length
  size' : kvraw.size.toNat ≤ l'.length
  behind : sentinelLen ≤ off.toNat
  view : kvraw.metaView l off = .ok m

omit hsys htwins in
theorem Common.ne_zero {off : UInt64} {m : Meta} (h : Common kvraw l l' off m) : off ≠ 0 := by
  rintro rfl
  exact absurd h.behind (by decide)

/-- What is read of a common record, to buffers of one length. -/
theorem kvrawLookup_twinsOn {off : UInt64} {m : Meta} (hc : Common kvraw l l' off m)
    (h : TwinsOn R log l l' s t) {buf buf' : List UInt8} {keyLen valLen : UInt64}
    {val : Option (List UInt8)} (hbuf : keyLen.toNat ≤ buf.length)
    (hlen : buf.length = buf'.length) :
    Sync (TwinsOn R log l l')
      (fun out out' => out = lookupView l buf keyLen val valLen off m ∧
        out' = lookupView l buf' keyLen val valLen off m)
      (kvrawLookup sys kvraw buf keyLen val valLen off)
      (kvrawLookup sys kvraw buf' keyLen val valLen off) s t := by
  obtain ⟨hR, rfl, rfl⟩ := h
  have hview : lookupView (log t) buf' keyLen val valLen off m =
      lookupView (log s) buf' keyLen val valLen off m := by
    unfold lookupView
    rw [keyView_of_drop hc.drop hc.behind, valView_of_drop hc.drop hc.behind]
  have hm' : kvraw.metaView (log t) off = .ok m := by
    rw [← metaView_of_drop hc.drop hc.behind]
    exact hc.view
  have hsync := (kvrawLookup_sync hsys htwins hR hc.drop hlen hc.behind hc.view).frame
    ((kvrawLookup_log hsys.logs buf keyLen val valLen off).mono (fun _ _ h => h) fun _ _ h => h.1)
    ((kvrawLookup_log hsys.logs buf' keyLen val valLen off).mono (fun _ _ h => h) fun _ _ h => h.1)
  refine hsync.mono (fun out out' s' t' hx hy _ => ⟨?_, ?_⟩) fun _ _ h => h
  · exact kvrawLookup_view hsys hc.size hbuf hc.ne_zero hc.view hx
  · rw [← hview]
    exact kvrawLookup_view hsys hc.size' (hlen ▸ hbuf) hc.ne_zero hm' hy

/-- What the comparison of keys does behind the read of a common record to two buffers. -/
theorem compareKeys_sync {next next' : Option (List UInt8) → UInt64 → M σ ChainOut}
    {key buf buf' : List UInt8} {m : Meta} {off valLen : UInt64} {val : Option (List UInt8)}
    {out out' : LookupOut} (hc : Common kvraw l l' off m) (hkey : key.length < 2 ^ 64)
    (hout : out = lookupView l buf (cMin (.ofNat key.length) 256) val valLen off m)
    (hout' : out' = lookupView l buf' (cMin (.ofNat key.length) 256) val valLen off m)
    (h : TwinsOn R log l l' s t)
    (hnext : ∀ {s t : σ} (val : Option (List UInt8)), TwinsOn R log l l' s t →
      Sync (TwinsOn R log l l') (· = ·) (next val m.off) (next' val m.off) s t) :
    Sync (TwinsOn R log l l') (· = ·) (compareKeys sys kvraw key off next out)
      (compareKeys sys kvraw key off next' out') s t := by
  have hlt : l.length < 2 ^ 63 := h.2.1 ▸ hsys.log_length s
  have hlen := length_keyView hc.size hlt hc.view
  have hkeyLen := toNat_ofNat_length hkey
  obtain ⟨hk, hv, hvl, ho, ho'⟩ : out'.keyLen = out.keyLen ∧ out'.val = out.val ∧
      out'.valLen = out.valLen ∧ out'.off = m.off ∧ out.off = m.off := by
    rw [hout, hout']
    exact ⟨rfl, rfl, rfl, rfl, rfl⟩
  -- as much of the key as was read is the same, if it is as long as the one searched for
  have hsame : out.keyLen = .ofNat key.length → (keyView l off m).length = key.length ∧
      ∀ k ≤ min key.length 256, out'.key.take k = out.key.take k := by
    intro heq
    have hmk : (keyView l off m).length = key.length := by
      rw [hlen, ← hkeyLen, ← heq, hout]
      exact (UInt16.toNat_toUInt64 _).symm
    refine ⟨hmk, fun k hk => ?_⟩
    rw [hout, hout', take_speculative hkey hmk hk, take_speculative hkey hmk hk]
  have hfirst : out.keyLen ≠ .ofNat key.length ∨ out.key.take (cMin (.ofNat key.length) 8).toNat ≠
        key.take (cMin (.ofNat key.length) 8).toNat ↔
      out.keyLen ≠ .ofNat key.length ∨ out'.key.take (cMin (.ofNat key.length) 8).toNat ≠
        key.take (cMin (.ofNat key.length) 8).toNat := by
    by_cases heq : out.keyLen = .ofNat key.length
    · rw [(hsame heq).2 _ (by rw [toNat_cMin, hkeyLen]; exact min_le_min_left _ (by decide))]
    · exact iff_of_true (.inl heq) (.inl heq)
  unfold compareKeys
  simp only [hk, hv, hvl, ho, ho']
  refine .ite hfirst (fun _ => hnext _ h) fun hfits => ?_
  have heq : out.keyLen = .ofNat key.length := not_not.1 (not_or.1 hfits).1
  obtain ⟨hmk, htake⟩ := hsame heq
  refine .ite Iff.rfl (fun _ => ?_) fun hshort => ?_
  · -- a key that is read again, to the heap
    refine .bind (mallocOr_twinsOn hsys htwins h _ _) fun _ _ s₁ t₁ _ _ _ h₁ => ?_
    refine .bind (uninitialised_twinsOn hsys h₁ _) fun key_ key_' s₂ t₂ _ _ hlens h₂ => ?_
    refine .bind (kvrawLookup_twinsOn hsys htwins hc h₂ (Nat.le_of_eq hlens.1.symm)
      (hlens.1.trans hlens.2.symm)) fun out₃ out₃' s₃ t₃ _ _ hviews h₃ => ?_
    obtain ⟨rfl, rfl⟩ := hviews
    have hle : key.length ≤ out.keyLen.toNat := by rw [heq, hkeyLen]
    rw [hkeyLen, take_lookupView hle (Nat.le_of_eq hmk.symm),
      take_lookupView hle (Nat.le_of_eq hmk.symm)]
    exact .ite Iff.rfl (fun _ => .pure rfl h₃) fun _ => hnext _ h₃
  · -- a key of at most eight bytes
    have hshort' : key.length ≤ 8 := by
      rw [heq, UInt64.lt_iff_toNat_lt, hkeyLen] at hshort
      exact Nat.not_lt.1 hshort
    rw [hkeyLen, htake key.length (by omega)]
    exact .ite Iff.rfl (fun _ => .pure rfl h) fun _ => hnext _ h

/-- **The `while` loop of `chain_lookup`** on a chain that does not lead to the first record. -/
theorem chainLoop_sync {key : List UInt8} (hlog : l.drop sentinelLen = l'.drop sentinelLen)
    (hsize : kvraw.size.toNat ≤ l.length) (hsize' : kvraw.size.toNat ≤ l'.length)
    (hkey : key.length < 2 ^ 64) (valLen : UInt64) (n : ℕ) :
    ∀ {buf buf' : List UInt8} (val : Option (List UInt8)) {off : UInt64} {offs : List UInt64}
      {s t : σ}, TwinsOn R log l l' s t → Chain kvraw l off offs →
      (∀ o ∈ offs, sentinelLen ≤ o.toNat) → 256 ≤ buf.length → buf.length = buf'.length →
      Sync (TwinsOn R log l l') (· = ·) (chainLoop sys kvraw key valLen n buf val off)
        (chainLoop sys kvraw key valLen n buf' val off) s t := by
  induction n with
  | zero =>
      intro buf buf' val off offs s t h _ _ _ _
      exact .throw h
  | succ n ih =>
      intro buf buf' val off offs s t h hchain hoffs hbuf hbuf'
      have hread := cMin_le_length hbuf (.ofNat key.length)
      rw [chainLoop_succ, chainLoop_succ]
      cases hchain with
      | stop => exact .pure rfl h
      | @next _ m offs hoff hm more =>
          have hc : Common kvraw l l' off m :=
            ⟨hlog, hsize, hsize', hoffs off List.mem_cons_self, hm⟩
          rw [if_neg hoff, if_neg hoff]
          refine .bind (kvrawLookup_twinsOn hsys htwins hc h hread hbuf')
            fun out out' s₁ t₁ _ _ hviews h₁ => ?_
          obtain ⟨hout, hout'⟩ := hviews
          -- the buffers are as long as they were
          have hlen : out.key.length = buf.length := by rw [hout, length_lookupView hread]
          have hlen' : out'.key.length = buf'.length := by
            rw [hout', length_lookupView (hbuf' ▸ hread)]
          exact compareKeys_sync hsys htwins hc hkey hout hout' h₁ fun val h => ih val h more
            (fun o ho => hoffs o (List.mem_cons_of_mem _ ho)) (by omega) (by omega)

omit l l' in
/-- **`chain_lookup`**, likewise. -/
theorem chainLookup_sync (hR : R s t) (hlog : (log s).drop sentinelLen = (log t).drop sentinelLen)
    (hsize : kvraw.size.toNat ≤ (log s).length) {key : List UInt8} (hkey : key.length < 2 ^ 64)
    (val : Option (List UInt8)) (valLen : UInt64) {off : UInt64} {offs : List UInt64}
    (hchain : Chain kvraw (log s) off offs) (hoffs : ∀ o ∈ offs, sentinelLen ≤ o.toNat) :
    Sync R (· = ·) (chainLookup sys kvraw key val valLen off)
      (chainLookup sys kvraw key val valLen off) s t := by
  have hsize' : kvraw.size.toNat ≤ (log t).length := by
    rw [← htwins.length hR]
    exact hsize
  have htwinsOn : TwinsOn R log (log s) (log t) s t := ⟨hR, rfl, rfl⟩
  have hsync : Sync (TwinsOn R log (log s) (log t)) (· = ·)
      (chainLookup sys kvraw key val valLen off) (chainLookup sys kvraw key val valLen off) s
      t := by
    refine .bind (uninitialised_twinsOn hsys htwinsOn 256) fun buf buf' s₁ t₁ _ _ hlens h₁ => ?_
    exact chainLoop_sync hsys htwins hlog hsize hsize' hkey valLen _ val h₁ hchain hoffs
      (Nat.le_of_eq hlens.1.symm) (hlens.1.trans hlens.2.symm)
  exact hsync.mono (fun _ _ _ _ _ _ h => h) fun _ _ h => h.1

end Search

/-! ## The index and the end of the log -/

section Writes

variable (htwins : sys.Twins log R) (hR : R s t)
include htwins hR

theorem grow_sync (index : Index) : Sync R (· = ·) (grow sys index) (grow sys index) s t := by
  unfold grow
  refine .ite Iff.rfl (fun _ => ?_) fun _ => .pure rfl hR
  refine .bind (Q := (· = ·)) ?_ fun index₁ index₂ s₁ t₁ _ _ heq h₁ => ?_
  · unfold create
    refine .bind (mallocOr_sync htwins hR _ _) fun _ _ s₁ t₁ _ _ _ h₁ => ?_
    exact .ite Iff.rfl (fun _ => .throw h₁) fun _ => .pure rfl h₁
  · rw [heq]
    cases rehash index.maps index₂ with
    | none => exact .throw h₁
    | some index' => exact .pure rfl h₁

theorem indexUpdate_sync (hash : List UInt8 → UInt64) (index : Index) (key : List UInt8) :
    Sync R (· = ·) (indexUpdate sys hash index key) (indexUpdate sys hash index key) s t := by
  unfold indexUpdate
  refine .ite Iff.rfl (fun _ => .throw hR) fun _ => ?_
  refine .bind (grow_sync htwins hR index) fun index₁ index₂ s₁ t₁ _ _ heq h₁ => ?_
  rw [heq]
  cases index₂.update (hashKey hash key) with
  | none => exact .throw h₁
  | some r => exact .pure rfl h₁

omit htwins in
theorem indexLookup_sync (hash : List UInt8 → UInt64) (index : Index) (key : List UInt8) :
    Sync R (· = ·) (indexLookup hash index key) (indexLookup hash index key) s t := by
  unfold indexLookup
  refine .ite Iff.rfl (fun _ => .throw hR) fun _ => ?_
  cases index.stop (hashKey hash key) with
  | none => exact .pure rfl hR
  | some j => exact .ite Iff.rfl (fun _ => .pure rfl hR) fun _ => .pure rfl hR

/-- The links may be different. -/
theorem kvrawAppend_sync (kvraw : Kvraw) (key val : List UInt8) (off off' : UInt64) :
    Sync R (· = ·) (kvrawAppend sys kvraw key val off) (kvrawAppend sys kvraw key val off') s
      t := by
  unfold kvrawAppend
  refine .ite Iff.rfl (fun _ => .throw hR) fun _ => ?_
  refine .ite Iff.rfl (fun _ => .throw hR) fun _ => ?_
  refine .bind (append_sync htwins hR (by simp)) fun _ _ s₁ t₁ _ _ _ h₁ => ?_
  refine .bind (append_sync htwins h₁ rfl) fun _ _ s₂ t₂ _ _ _ h₂ => ?_
  refine .bind (append_sync htwins h₂ rfl) fun _ _ s₃ t₃ _ _ _ h₃ => ?_
  exact .pure rfl h₃

theorem kvrawOpen_sync (pathname : String) :
    Sync R (· = ·) (kvrawOpen sys pathname) (kvrawOpen sys pathname) s t := by
  unfold kvrawOpen
  refine .ite Iff.rfl (fun _ => .throw hR) fun _ => ?_
  refine .bind (mallocOr_sync htwins hR _ _) fun _ _ s₁ t₁ _ _ _ h₁ => ?_
  refine .bind (open_sync htwins h₁ pathname) fun _ _ s₂ t₂ _ _ _ h₂ => ?_
  refine .bind (uninitialised_sync h₂ 8) fun junk junk' s₃ t₃ _ _ _ h₃ => ?_
  refine .bind (kvrawAppend_sync htwins h₃ _ _ _ _ _) fun r r' s₄ t₄ _ _ heq h₄ => ?_
  rw [heq]
  exact .pure rfl h₄

theorem kvdbOpen_sync (pathname : String) :
    Sync R (· = ·) (kvdbOpen sys pathname) (kvdbOpen sys pathname) s t := by
  unfold kvdbOpen
  refine .ite Iff.rfl (fun _ => .throw hR) fun _ => ?_
  refine .bind (mallocOr_sync htwins hR _ _) fun _ _ s₁ t₁ _ _ _ h₁ => ?_
  refine .bind (kvrawOpen_sync htwins h₁ pathname) fun kvraw kvraw' s₂ t₂ _ _ heq h₂ => ?_
  rw [heq]
  refine .bind (Q := (· = ·)) ?_ fun index index' s₃ t₃ _ _ heq' h₃ => ?_
  · unfold indexOpen
    exact .bind (mallocOr_sync htwins h₂ _ _) fun _ _ s₃ t₃ _ _ _ h₃ => .pure rfl h₃
  · rw [heq']
    exact .pure rfl h₃

end Writes

/-! ## The calls -/

/-- The same store on twin states. -/
inductive Beside (R : σ → σ → Prop) : World σ → World σ → Prop
  | intro {kvdb : Kvdb} {s t : σ} (h : R s t) : Beside R ⟨kvdb, s⟩ ⟨kvdb, t⟩

theorem onSys_sync {α : Type} {Q : α → α → Prop} {x y : M σ α} (h : Sync R Q x y s t)
    (kvdb : Kvdb) : Sync (Beside R) Q (onSys x) (onSys y) ⟨kvdb, s⟩ ⟨kvdb, t⟩ := by
  unfold Sync at *
  unfold onSys
  revert h
  rcases x s with ⟨a, s'⟩ | ⟨e, s'⟩ <;> rcases y t with ⟨b, t'⟩ | ⟨e', t'⟩ <;> intro h
  · exact ⟨h.1, .intro h.2⟩
  · exact h
  · exact h
  · exact ⟨h.1, .intro h.2⟩

section Run

variable (hsys : sys.Documented log) (htwins : sys.Twins log R) {hash : List UInt8 → UInt64}
  {junk junk' : UInt64} {recs : List Rec} {kvdb : Kvdb}
include htwins

theorem appendRef_sync (hR : R s t) (key val : List UInt8) (ref : ℕ) :
    Sync (Beside R) (fun _ _ => True) (appendRef sys key val ref) (appendRef sys key val ref)
      ⟨kvdb, s⟩ ⟨kvdb, t⟩ := by
  unfold appendRef
  refine .bind_get (.bind (onSys_sync (kvrawAppend_sync htwins hR _ _ _ _ _) _)
    fun r r' w v _ _ heq h => ?_)
  rw [heq]
  obtain ⟨h⟩ := h
  exact .modifyState (.intro h)

/-- The part of `mutate` behind the search. -/
theorem mutateFound_sync (hR : R s t) (key : List UInt8) (val : Option (List UInt8))
    (valLen : Option UInt64) (ref : ℕ) (out : ChainOut) (mode : Mode) :
    Sync (Beside R) (· = ·) (mutateFound sys key val valLen ref out mode)
      (mutateFound sys key val valLen ref out mode) ⟨kvdb, s⟩ ⟨kvdb, t⟩ := by
  cases mode with
  | remove =>
      rw [mutateFound]
      refine .ite Iff.rfl (fun _ => .pure rfl (.intro hR)) fun _ => ?_
      refine .bind (appendRef_sync htwins hR _ _ _) fun _ _ w v _ _ _ h => ?_
      obtain ⟨h⟩ := h
      exact .bind_modify (.bind_modify (.pure rfl (.intro h)))
  | insert =>
      rw [mutateFound]
      refine .ite Iff.rfl (fun _ => .pure rfl (.intro hR)) fun _ => ?_
      refine .bind (appendRef_sync htwins hR _ _ _) fun _ _ w v _ _ _ h => ?_
      obtain ⟨h⟩ := h
      exact .bind_modify (.pure rfl (.intro h))
  | update =>
      -- whichever counter moves, what follows is the same
      have happend : ∀ {kvdb : Kvdb} (val' : List UInt8), Sync (Beside R) (· = ·)
          (appendRef sys key val' ref >>= fun _ => pure (⟨.zero, val, valLen⟩ : Reply))
          (appendRef sys key val' ref >>= fun _ => pure ⟨.zero, val, valLen⟩) ⟨kvdb, s⟩
          ⟨kvdb, t⟩ := by
        intro kvdb val'
        refine .bind (appendRef_sync htwins hR _ _ _) fun _ _ w v _ _ _ h => ?_
        obtain ⟨h⟩ := h
        exact .pure rfl (.intro h)
      rw [mutateFound]
      exact .ite Iff.rfl (fun _ => .bind_modify (happend _)) fun _ => .bind_modify (happend _)
  | replace =>
      rw [mutateFound]
      refine .ite Iff.rfl (fun _ => .pure rfl (.intro hR)) fun _ => ?_
      refine .bind (appendRef_sync htwins hR _ _ _) fun _ _ w v _ _ _ h => ?_
      obtain ⟨h⟩ := h
      exact .bind_modify (.pure rfl (.intro h))

include hsys

/-- The search from the head of the key's chain. -/
theorem search_sync (hR : R s t) (hs : Shape hash junk recs kvdb (log s))
    (ht : Shape hash junk' recs kvdb (log t)) {key : List UInt8} (hkey : KeyOk key)
    (val : Option (List UInt8)) (valLen : UInt64) :
    Sync R (· = ·)
      (chainLookup sys kvdb.kvraw key val valLen (newest hash recs (hashKey hash key)))
      (chainLookup sys kvdb.kvraw key val valLen (newest hash recs (hashKey hash key))) s t := by
  have hlt := hsys.log_length s
  have hend := hs.endOff_lt hlt
  have hchain := hs.slotChain hlt (hashKey hash key)
  refine chainLookup_sync hsys htwins hR ?_ (le_of_eq hs.size) hkey.length_lt val valLen hchain.walk
    fun o ho => sentinelLen_le_of_mem_offsets hend ho
  rw [hs.log, ht.log]
  exact drop_history hash junk junk' recs

theorem mutate_sync (hR : R s t) (hs : Shape hash junk recs kvdb (log s))
    (ht : Shape hash junk' recs kvdb (log t)) {key : List UInt8} (hkey : KeyOk key)
    (val : Option (List UInt8)) (valLen : Option UInt64) (mode : Mode) :
    Sync (Beside R) (· = ·) (mutate sys hash key val valLen mode)
      (mutate sys hash key val valLen mode) ⟨kvdb, s⟩ ⟨kvdb, t⟩ := by
  unfold mutate
  refine .bind_get (.bind (onSys_sync (indexUpdate_sync htwins hR hash _ _) _)
    fun r r' w v hx hy heq h => ?_)
  subst heq
  obtain ⟨hw, hlogw, -, -, -, hoff, -⟩ := (onSys_wp (indexUpdate_wp hsys hs.index key)).ok hx
  obtain ⟨hv, hlogv, -⟩ := (onSys_wp (indexUpdate_wp hsys ht.index key)).ok hy
  obtain @⟨kvdb₁, s₁, t₁, h⟩ := h
  have hs₁ : Shape hash junk recs kvdb (log s₁) := hlogw ▸ hs
  have ht₁ : Shape hash junk' recs kvdb (log t₁) := hlogv ▸ ht
  refine .bind_modify ?_
  rw [hoff, hs.head]
  refine .bind (onSys_sync (search_sync hsys htwins h hs₁ ht₁ hkey _ _) _)
    fun out out' w₁ v₁ _ _ heq h₁ => ?_
  subst heq
  obtain ⟨h₁⟩ := h₁
  exact mutateFound_sync htwins h₁ _ _ _ _ _ _

theorem kvdbLookup_sync (hR : R s t) (hs : Shape hash junk recs kvdb (log s))
    (ht : Shape hash junk' recs kvdb (log t)) (key : List UInt8)
    (val : Option (List UInt8)) (valLen : Option UInt64) :
    Sync (Beside R) (· = ·) (kvdbLookup sys hash key val valLen)
      (kvdbLookup sys hash key val valLen) ⟨kvdb, s⟩ ⟨kvdb, t⟩ := by
  unfold kvdbLookup
  refine .ite Iff.rfl (fun _ => .throw (.intro hR)) fun hkey => ?_
  refine .ite Iff.rfl (fun _ => .throw (.intro hR)) fun _ => ?_
  refine .bind_get (.bind (onSys_sync (indexLookup_sync hR hash _ _) _)
    fun ref ref' w v hx hy heq h => ?_)
  subst heq
  obtain ⟨hw, hs₁, -, hhead⟩ := (onSys_wp (indexLookup_wp kvdb.index key)).ok hx
  obtain ⟨hv, ht₁, -⟩ := (onSys_wp (indexLookup_wp kvdb.index key)).ok hy
  obtain @⟨kvdb₁, s₁, t₁, h⟩ := h
  obtain rfl : s₁ = s := hs₁
  obtain rfl : t₁ = t := ht₁
  rw [hs.head] at hhead
  cases ref with
  | none => exact .pure rfl (.intro h)
  | some off =>
      refine .ite Iff.rfl (fun _ => .pure rfl (.intro h)) fun _ => ?_
      obtain rfl : off = newest hash recs (hashKey hash key) := hhead
      refine .bind (onSys_sync (search_sync hsys htwins h hs ht (not_not.1 hkey) _ _) _)
        fun out out' w₁ v₁ _ _ heq h₁ => ?_
      subst heq
      obtain ⟨h₁⟩ := h₁
      exact .ite Iff.rfl (fun _ => .pure rfl (.intro h₁)) fun _ => .pure rfl (.intro h₁)

/-- **A call** of the same store on twin states. -/
theorem Op.run_sync (op : Op) (hR : R s t) (hs : Shape hash junk recs kvdb (log s))
    (ht : Shape hash junk' recs kvdb (log t)) :
    Sync (Beside R) (· = ·) (op.run sys hash) (op.run sys hash) ⟨kvdb, s⟩ ⟨kvdb, t⟩ := by
  have hstore : ∀ (mode : Mode) (key val : List UInt8), Sync (Beside R) (· = ·)
      (kvdbStore sys hash mode key val) (kvdbStore sys hash mode key val) ⟨kvdb, s⟩
      ⟨kvdb, t⟩ := by
    intro mode key val
    unfold kvdbStore
    refine .ite Iff.rfl (fun _ => .throw (.intro hR)) fun hkey => ?_
    refine .ite Iff.rfl (fun _ => .throw (.intro hR)) fun _ => ?_
    exact mutate_sync hsys htwins hR hs ht (not_not.1 hkey) _ _ _
  cases op with
  | insert key val => exact hstore .insert key val
  | update key val => exact hstore .update key val
  | replace key val => exact hstore .replace key val
  | remove key val valLen =>
      show Sync (Beside R) (· = ·) (kvdbRemove sys hash key val valLen) _ _ _
      unfold kvdbRemove
      refine .ite Iff.rfl (fun _ => .throw (.intro hR)) fun hkey => ?_
      refine .ite Iff.rfl (fun _ => .throw (.intro hR)) fun _ => ?_
      exact mutate_sync hsys htwins hR hs ht (not_not.1 hkey) _ _ _
  | lookup key val valLen => exact kvdbLookup_sync hsys htwins hR hs ht key val valLen

end Run

end CS238P.Store
