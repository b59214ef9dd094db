import CS238P.Store.Failure
import CS238P.Store.Writes

set_option autoImplicit false

/-! # What a search leaves in the caller's buffer

`chain_lookup` reads the value of a record together with its key, straight to the caller's buffer,
and compares the keys afterwards. `*val_len` goes through a local and is stored when the keys are
the same; the buffer does not, so the values of other keys with the same hash are written to it on
the way. -/

namespace CS238P.Store

/-- What a search meets: the values of the records of other keys that it passes, and the value of
    the key's newest record. -/
structure Walked where
  passed : List (List UInt8)
  found : Option (List UInt8)
  deriving DecidableEq, Repr

/-- The value the key is bound to, which is empty if it is not bound. -/
def Walked.bound (m : Walked) : List UInt8 := m.found.getD []

/-- The walk along a chain of at most `n` records. -/
def walk (kvraw : Kvraw) (l key : List UInt8) : ℕ → UInt64 → Walked
  | 0, _ => ⟨[], none⟩
  | n + 1, off =>
      if off = 0 then ⟨[], none⟩
      else
        match kvraw.metaView l off with
        | .error _ => ⟨[], none⟩
        | .ok m =>
            if keyView l off m = key then ⟨[], some (valView l off m)⟩
            else ⟨valView l off m :: (walk kvraw l key n m.off).passed,
              (walk kvraw l key n m.off).found⟩

/-- The walk from the head of the key's chain. -/
def Kvdb.walked (hash : List UInt8 → UInt64) (kvdb : Kvdb) (l key : List UInt8) : Walked :=
  walk kvdb.kvraw l key (kvdb.kvraw.size.toNat + 1) (kvdb.index.head (hashKey hash key))

/-- There is a record of the key at the offset. -/
def OfKey (kvraw : Kvraw) (l key : List UInt8) (off : UInt64) : Prop :=
  ∃ m, kvraw.metaView l off = .ok m ∧ keyView l off m = key

/-- What is wanted of a call, which made the writes `ws` to the buffer: with +1 the buffer and
    `*val_len` are as they were, with 0 the value the key is bound to is in the buffer, as far as it
    is said to reach, and nothing was written but bytes of this value, from a record of the key. -/
structure Framed (kvraw : Kvraw) (l key : List UInt8) (val : Option (List UInt8))
    (valLen : Option UInt64) (bound : List UInt8) (reply : Reply) (ws : List ValWrite) : Prop where
  plusOne : reply.code = .plusOne → reply.val = val ∧ reply.valLen = valLen
  zero : reply.code = .zero →
    reply.val = val.map fun buf => Bytes.overwrite buf (bound.take (valLen.getD 0).toNat)
  writes : ∀ w ∈ ws, w.bytes ≠ [] →
    OfKey kvraw l key w.off ∧ w.bytes = bound.take (valLen.getD 0).toNat

/-- There is no room in the buffer, or the values passed are all empty. -/
def Harmless (valLen : Option UInt64) (m : Walked) : Prop :=
  (valLen.getD 0).toNat = 0 ∨ ∀ v ∈ m.passed, v = []

/-- What a reply is: all values that the search met were written to the buffer. -/
structure Answers (val : Option (List UInt8)) (valLen : Option UInt64) (m : Walked)
    (reply : Reply) : Prop where
  code : reply.code = .plusOne ↔ m.bound = []
  keeps : reply.code = .plusOne → reply.valLen = valLen
  writes : reply.val = val.map fun buf => Bytes.overwrite
    (Bytes.overlay (valLen.getD 0).toNat buf m.passed) (m.bound.take (valLen.getD 0).toNat)

/-- What the writes of a search are that met `m`: every value passed was written, and nothing else
    but the value found. -/
structure Wrote (kvraw : Kvraw) (l key : List UInt8) (cap : ℕ) (m : Walked)
    (ws : List ValWrite) : Prop where
  passed : ∀ v ∈ m.passed, ∃ w ∈ ws, w.bytes = v.take cap ∧ ¬ OfKey kvraw l key w.off
  met : ∀ w ∈ ws, w.bytes ≠ [] → (OfKey kvraw l key w.off ∧ w.bytes = m.bound.take cap) ∨
    ∃ v ∈ m.passed, w.bytes = v.take cap

theorem overlay_of_nil {cap : ℕ} (buf : List UInt8) {vs : List (List UInt8)}
    (h : cap = 0 ∨ ∀ v ∈ vs, v = []) : Bytes.overlay cap buf vs = buf := by
  induction vs generalizing buf with
  | nil => rfl
  | cons v vs ih =>
      have hv : v.take cap = [] := by
        rcases h with rfl | h
        · exact List.take_zero
        · rw [h v List.mem_cons_self, List.take_nil]
      rw [Bytes.overlay, List.foldl_cons, hv, Bytes.overwrite_nil]
      exact ih buf (h.imp_right fun h => (List.forall_mem_cons.1 h).2)

theorem Answers.framed_iff {kvraw : Kvraw} {l key : List UInt8} {val : Option (List UInt8)}
    {valLen : Option UInt64} {m : Walked} {reply : Reply} {ws : List ValWrite}
    (h : Answers val valLen m reply) (hws : Wrote kvraw l key (valLen.getD 0).toNat m ws) :
    Framed kvraw l key val valLen m.bound reply ws ↔ Harmless valLen m := by
  constructor
  · intro hf
    by_contra hnot
    rw [Harmless, not_or] at hnot
    obtain ⟨hcap, hpassed⟩ := hnot
    rw [not_forall₂] at hpassed
    obtain ⟨v, hv, hne⟩ := hpassed
    -- a byte of a value passed has been written
    obtain ⟨w, hw, hbytes, hother⟩ := hws.passed v hv
    refine hother (hf.writes w hw ?_).1
    rw [hbytes, Ne, List.take_eq_nil_iff, not_or]
    exact ⟨hcap, hne⟩
  · intro hm
    have hval : reply.val = val.map fun buf =>
        Bytes.overwrite buf (m.bound.take (valLen.getD 0).toNat) := by
      rw [h.writes]
      exact congrArg (Option.map · val) (funext fun buf => by rw [overlay_of_nil buf hm])
    refine ⟨fun hcode => ⟨?_, h.keeps hcode⟩, fun _ => hval, fun w hw hne => ?_⟩
    · rw [hval, h.code.1 hcode]
      simp [Bytes.overwrite_nil]
    · refine (hws.met w hw hne).resolve_right fun hpassed => ?_
      obtain ⟨v, hv, hbytes⟩ := hpassed
      refine hne ?_
      rw [hbytes, List.take_eq_nil_iff]
      exact hm.imp_right fun h => h v hv

/-! ## The search -/

/-- What the walk on the bytes of the log leaves in the buffer. -/
theorem chainView_walk {kvraw : Kvraw} {l key : List UInt8} {valLen : UInt64}
    (hsize : kvraw.size.toNat ≤ l.length) (hlt : l.length < 2 ^ 63) (n : ℕ) :
    ∀ {val : Option (List UInt8)} {off : UInt64} {out : ChainOut},
      chainView kvraw l key valLen n val off = .ok out →
        (out.off = 0 ∨ out.valLen = 0 → (walk kvraw l key n off).bound = []) ∧
        ((walk kvraw l key n off).bound = [] → out.off = 0 ∨ out.valLen = 0) ∧
        (out.off ≠ 0 → out.valLen.toNat = (walk kvraw l key n off).bound.length) ∧
        out.val = val.map fun buf => Bytes.overwrite
          (Bytes.overlay valLen.toNat buf (walk kvraw l key n off).passed)
          ((walk kvraw l key n off).bound.take valLen.toNat) := by
  induction n with
  | zero => intro val off out h; cases h
  | succ n ih =>
      intro val off out h
      rw [chainView] at h
      rw [walk]
      split at h
      · rename_i h0
        rw [if_pos h0]
        cases h
        exact ⟨fun _ => rfl, fun _ => .inl h0, fun hne => absurd h0 hne, by
          simp [Walked.bound, Bytes.overlay, Bytes.overwrite_nil]⟩
      rename_i hoff
      rw [if_neg hoff]
      cases hm : kvraw.metaView l off with
      | error e =>
          rw [hm] at h
          cases h
      | ok m =>
          rw [hm] at h
          simp only at h ⊢
          split at h
          · rename_i hkey
            rw [if_pos hkey]
            cases h
            -- the length in the `struct meta` is that of the value
            have hle := Kvraw.metaView_le (by omega) hm
            have hlen : (valView l off m).length = m.valLen.toNat := Bytes.length_slice (by omega)
            have hzero : m.valLen.toUInt64 = 0 ↔ valView l off m = [] := by
              rw [← List.length_eq_zero_iff, hlen, ← UInt64.toNat_inj, UInt32.toNat_toUInt64]
              rfl
            refine ⟨fun h => hzero.1 (h.resolve_left hoff), fun h => .inr (hzero.2 h),
              fun _ => ?_, rfl⟩
            rw [UInt32.toNat_toUInt64, ← hlen]
            rfl
          · rename_i hkey
            rw [if_neg hkey]
            obtain ⟨hnone, hsome, hlen, hval⟩ := ih h
            refine ⟨hnone, hsome, hlen, hval.trans ?_⟩
            rw [Option.map_map]
            rfl

/-! ## The calls -/

variable {σ : Type} {sys : Sys σ} {log : σ → List UInt8} {hash : List UInt8 → UInt64}
  {w : World σ} {key : List UInt8} {val : Option (List UInt8)} {valLen : Option UInt64}

/-- A caller of `chain_lookup` that hands it the buffer if it has a length for it. -/
theorem answers_of_chainView {kvraw : Kvraw} {l : List UInt8} {off : UInt64} {out : ChainOut}
    (hsize : kvraw.size.toNat ≤ l.length) (hlt : l.length < 2 ^ 63) {n : ℕ}
    (h : chainView kvraw l key (valLen.getD 0) n (if valLen = none then none else val) off =
      .ok out) {reply : Reply}
    (hcode : reply.code = .plusOne ↔ out.off = 0 ∨ out.valLen = 0)
    (hvalLen : reply.code = .plusOne → reply.valLen = valLen)
    (hval : reply.val = if valLen = none then val else out.val) :
    Answers val valLen (walk kvraw l key n off) reply := by
  obtain ⟨hnone, hsome, -, hout⟩ := chainView_walk hsize hlt n h
  refine ⟨⟨fun h => hnone (hcode.1 h), fun h => hcode.2 (hsome h)⟩, hvalLen, hval.trans ?_⟩
  cases valLen with
  | none =>
      rw [if_pos rfl]
      simp [Bytes.overlay_zero, Bytes.overwrite_nil]
  | some cap =>
      rw [if_neg (by simp), hout, if_neg (by simp)]

variable (hsys : sys.Documented log)
include hsys

theorem kvdbLookup_answers (h : Usable log w) :
    wp (kvdbLookup sys hash key val valLen)
      (fun reply _ => Answers val valLen (w.kvdb.walked hash (log w.sys) key) reply)
      (fun _ _ => True) w := by
  refine (kvdbLookup_shows hsys h.size).mono ?_ fun _ _ _ => trivial
  rintro reply w' ⟨-, -, hview⟩
  have hlt := hsys.log_length w.sys
  unfold Kvdb.lookupView at hview
  unfold Kvdb.walked
  split at hview
  · rename_i h0
    cases hview
    rw [h0]
    exact ⟨iff_of_true rfl rfl, fun _ => rfl, by simp [walk, Walked.bound, Bytes.overlay,
      Bytes.overwrite_nil]⟩
  · split at hview
    · cases hview
    · rename_i out hout
      simp only at hview
      split at hview
      · rename_i hnone
        cases hview
        exact answers_of_chainView h.size hlt hout (iff_of_true rfl hnone) (fun _ => rfl) rfl
      · rename_i hsome
        cases hview
        exact answers_of_chainView h.size hlt hout (iff_of_false (by simp) hsome)
          (fun hc => by cases hc) rfl

omit hsys in
/-- The part of `kvdb_remove` behind the search. -/
theorem mutateFound_remove {ref : ℕ} {out : ChainOut} :
    wp (mutateFound sys key val valLen ref out .remove)
      (fun reply _ => (reply.code = .plusOne ↔ out.off = 0 ∨ out.valLen = 0) ∧
        (reply.code = .plusOne → reply.valLen = valLen) ∧
        reply.val = if valLen = none then val else out.val)
      (fun _ _ => True) w := by
  rw [mutateFound]
  split
  · rename_i hnone
    exact ⟨iff_of_true rfl hnone, fun _ => rfl, rfl⟩
  · rename_i hsome
    refine wp.bind ((wp.trivial _ w).mono ?_ fun _ _ _ => trivial)
    intro _ w₁ _
    refine wp.bind (wp.modifyState (wp.bind (wp.modifyState ?_)))
    refine ⟨iff_of_false (by simp) hsome, fun hc => ?_, rfl⟩
    cases hc

theorem kvdbRemove_answers (h : Usable log w) :
    wp (kvdbRemove sys hash key val valLen)
      (fun reply _ => Answers val valLen (w.kvdb.walked hash (log w.sys) key) reply)
      (fun _ _ => True) w := by
  have hlt := hsys.log_length w.sys
  have hsize := h.size
  unfold kvdbRemove
  split
  · exact wp.throw trivial
  split
  · exact wp.throw trivial
  rename_i hkey _
  unfold mutate
  refine wp.bind (wp.getState ?_)
  refine wp.bind ((onSys_wp (indexUpdate_wp hsys h.index key)).mono ?_ fun _ _ _ => trivial)
  rintro ⟨index, ref⟩ w₁ ⟨h₁, hlog₁, -, -, -, hoff, -⟩
  refine wp.bind (wp.modifyState ?_)
  -- the slot of the key holds the head of its chain
  refine wp.bind ((onSys_wp (w := ⟨{ w₁.kvdb with index := index }, w₁.sys⟩)
    (chainLookup_finds hsys (by rw [hlog₁]; exact hsize) (not_not.1 hkey).length_lt _ _ _)).mono ?_
    fun _ _ _ => trivial)
  rintro out w₂ ⟨-, -, hview⟩
  refine mutateFound_remove.mono ?_ fun _ _ _ => trivial
  rintro reply w₃ ⟨hcode, hvalLen, hval⟩
  rw [hlog₁, hoff] at hview
  refine answers_of_chainView hsize hlt ?_ hcode hvalLen hval
  cases valLen with
  | none => simpa using hview
  | some cap => simpa using hview

/-! ## The writes -/

omit hsys in
theorem written_zero (out : LookupOut) (off : UInt64) : (out.written 0 off).bytes = [] := by
  simp [LookupOut.written]

omit hsys in
/-- The bytes that were written of a value. -/
theorem written_lookupView {l buf : List UInt8} {keyLen valLen off : UInt64} {m : Meta}
    (hval : valLen = 0 ∨ val ≠ none) (hlen : (valView l off m).length = m.valLen.toNat) :
    ((lookupView l buf keyLen val valLen off m).written valLen off).bytes =
      (valView l off m).take valLen.toNat := by
  rcases hval with rfl | hval
  · rw [written_zero]
    rfl
  obtain ⟨v, rfl⟩ := Option.ne_none_iff_exists'.1 hval
  show (Bytes.overwrite v _).take (cMin m.valLen.toUInt64 valLen).toNat = _
  rw [toNat_cMin, UInt32.toNat_toUInt64, Bytes.take_overwrite, List.take_take]
  · rw [List.take_eq_take_iff]
    omega
  · rw [List.length_take]
    omega

omit hsys in
/-- `kvraw_lookup` is not called with a length for a buffer that is NULL. -/
theorem kvrawLookup_val {kvraw : Kvraw} {buf : List UInt8} {keyLen cap off : UInt64} {s : σ} :
    wp (kvrawLookup sys kvraw buf keyLen val cap off) (fun _ _ => cap = 0 ∨ val ≠ none)
      (fun _ _ => True) s := by
  unfold kvrawLookup
  split
  · exact wp.throw trivial
  · rename_i h
    refine (wp.trivial _ s).mono (fun _ _ _ => ?_) fun _ _ _ => trivial
    rcases not_and_or.1 h with h | h
    · exact .inl (not_not.1 h)
    · exact .inr h

/-- The loop writes what the walk meets. -/
theorem chainLoopWriting_wrote {kvraw : Kvraw} {l : List UInt8} {cap : UInt64}
    (hsize : kvraw.size.toNat ≤ l.length) (hkey : key.length < 2 ^ 64) (n : ℕ) :
    ∀ (buf : List UInt8) (val : Option (List UInt8)) (off : UInt64) (s : σ), log s = l →
      256 ≤ buf.length →
      wp (chainLoopWriting sys kvraw key cap n buf val off)
        (fun r _ => Wrote kvraw l key cap.toNat (walk kvraw l key n off) r.2)
        (fun _ _ => True) s := by
  induction n with
  | zero => intro buf val off s _ _; exact wp.throw trivial
  | succ n ih =>
      intro buf val off s hs hbuf
      have hlt : l.length < 2 ^ 63 := hs ▸ hsys.log_length s
      have hread := cMin_le_length hbuf (.ofNat key.length)
      rw [chainLoopWriting]
      split
      · rename_i h0
        rw [walk, if_pos h0]
        exact ⟨by simp, by simp⟩
      rename_i hoff
      refine wp.bind (((kvrawLookup_wp hsys (by rw [hs]; exact hsize) hread hoff).and
        kvrawLookup_val).mono ?_ fun _ _ _ => trivial)
      rintro out s₁ ⟨⟨h₁, m, hm, hout⟩, hval⟩
      rw [hs] at h₁ hm hout
      have hle := Kvraw.metaView_le (by omega) hm
      have hbytes : (out.written cap off).bytes = (valView l off m).take cap.toNat := by
        rw [hout]
        exact written_lookupView hval (Bytes.length_slice (by omega))
      have hbuf' : 256 ≤ out.key.length := by
        rw [hout, length_lookupView hread]
        exact hbuf
      have hmore {more : List LookupOut} {w : ValWrite}
          (hw : w ∈ more.map fun out' => out'.written 0 off) : w.bytes = [] := by
        obtain ⟨out', -, rfl⟩ := List.mem_map.1 hw
        exact written_zero out' off
      simp only [walk, if_neg hoff, hm]
      refine compareWith_wp hsys hsize hkey hoff hm hout rfl h₁ (fun more s' hs' hne => ?_)
        (fun more s' hs' heq => ?_) fun _ _ _ _ => trivial
      · -- another key: its value has been written, and the walk goes on
        have hother : ¬ OfKey kvraw l key off := by
          rintro ⟨m', hm', hkey'⟩
          obtain rfl := Except.ok.inj (hm.symm.trans hm')
          exact hne hkey'
        refine wp.bind ((ih out.key _ m.off s' hs' hbuf').mono (fun r _ hr => ?_)
          fun _ _ _ => trivial)
        rw [if_neg hne]
        constructor
        · refine List.forall_mem_cons.2 ⟨⟨_, List.mem_cons_self, hbytes, hother⟩, fun v hv => ?_⟩
          obtain ⟨w, hw, hrest⟩ := hr.passed v hv
          exact ⟨w, List.mem_append_right _ hw, hrest⟩
        · intro w hw hwne
          rcases List.mem_append.1 hw with hw | hw
          · rcases List.mem_cons.1 hw with rfl | hw
            · exact .inr ⟨_, List.mem_cons_self, hbytes⟩
            · exact absurd (hmore hw) hwne
          · refine (hr.met w hw hwne).imp_right fun hpassed => ?_
            obtain ⟨v, hv, heq⟩ := hpassed
            exact ⟨v, List.mem_cons_of_mem _ hv, heq⟩
      · -- the key: nothing but its value has been written
        show Wrote kvraw l key cap.toNat _ _
        rw [if_pos heq]
        refine ⟨by simp, fun w hw hwne => .inl ?_⟩
        rcases List.mem_cons.1 hw with rfl | hw
        · exact ⟨⟨m, hm, heq⟩, hbytes⟩
        · exact absurd (hmore hw) hwne

theorem chainLookupWriting_wrote {kvraw : Kvraw} {l : List UInt8} {cap off : UInt64} {s : σ}
    (hsize : kvraw.size.toNat ≤ l.length) (hkey : key.length < 2 ^ 64) (hs : log s = l) :
    wp (chainLookupWriting sys kvraw key val cap off)
      (fun r _ => Wrote kvraw l key cap.toNat (walk kvraw l key (kvraw.size.toNat + 1) off) r.2)
      (fun _ _ => True) s := by
  refine wp.bind ((uninitialised_wp hsys 256).mono ?_ fun _ _ h => h.elim)
  rintro buf s₁ ⟨h₁, hbuf⟩
  exact chainLoopWriting_wrote hsys hsize hkey _ buf val off s₁ (h₁.trans hs) (by rw [hbuf])

theorem kvdbLookupWriting_wrote (h : Usable log w) :
    wp (kvdbLookupWriting sys hash key val valLen)
      (fun r _ => Wrote w.kvdb.kvraw (log w.sys) key (valLen.getD 0).toNat
        (w.kvdb.walked hash (log w.sys) key) r.2)
      (fun _ _ => True) w := by
  unfold kvdbLookupWriting Kvdb.walked
  split
  · exact wp.throw trivial
  split
  · exact wp.throw trivial
  rename_i hkey _
  refine wp.bind (wp.getState ?_)
  refine wp.bind ((onSys_wp (indexLookup_wp w.kvdb.index key)).mono ?_ fun _ _ _ => trivial)
  rintro ref ⟨kvdb₁, s₁⟩ ⟨rfl, rfl, -, hhead⟩
  rw [← hhead]
  have hend : Wrote w.kvdb.kvraw (log w.sys) key (valLen.getD 0).toNat
      (walk w.kvdb.kvraw (log w.sys) key (w.kvdb.kvraw.size.toNat + 1) 0) [] := by
    rw [walk, if_pos rfl]
    exact ⟨by simp, by simp⟩
  cases ref with
  | none => exact hend
  | some off =>
      simp only [Option.getD_some]
      split
      · rename_i h0
        rw [h0]
        exact hend
      refine wp.bind ((onSys_wp (chainLookupWriting_wrote hsys h.size (not_not.1 hkey).length_lt
        rfl)).mono ?_ fun _ _ _ => trivial)
      rintro r w₁ ⟨-, hr⟩
      split
      · exact hr
      · exact hr

theorem kvdbRemoveWriting_wrote (h : Usable log w) :
    wp (kvdbRemoveWriting sys hash key val valLen)
      (fun r _ => Wrote w.kvdb.kvraw (log w.sys) key (valLen.getD 0).toNat
        (w.kvdb.walked hash (log w.sys) key) r.2)
      (fun _ _ => True) w := by
  unfold kvdbRemoveWriting Kvdb.walked
  split
  · exact wp.throw trivial
  split
  · exact wp.throw trivial
  rename_i hkey _
  refine wp.bind (wp.getState ?_)
  refine wp.bind ((onSys_wp (indexUpdate_wp hsys h.index key)).mono ?_ fun _ _ _ => trivial)
  rintro ⟨index, ref⟩ w₁ ⟨h₁, hlog₁, -, -, -, hoff, -⟩
  refine wp.bind (wp.modifyState ?_)
  rw [← hoff]
  have hcap : (if valLen ≠ none then valLen.getD 0 else 0) = valLen.getD 0 := by
    cases valLen <;> rfl
  rw [hcap]
  refine wp.bind ((onSys_wp (w := ⟨{ w₁.kvdb with index := index }, w₁.sys⟩)
    (chainLookupWriting_wrote hsys h.size (not_not.1 hkey).length_lt hlog₁)).mono ?_
    fun _ _ _ => trivial)
  rintro r w₂ ⟨-, hr⟩
  exact wp.bind ((wp.trivial _ w₂).mono (fun _ _ _ => hr) fun _ _ _ => trivial)

/-! ## The bound value -/

/-- As long as no call fails, the value the walk finds is what the key is bound to. -/
theorem Inv.walked_bound {junk : UInt64} {recs : List Rec} (h : Inv log hash junk recs w)
    (key : List UInt8) :
    (w.kvdb.walked hash (log w.sys) key).bound = (value recs key).getD [] := by
  have hlt := hsys.log_length w.sys
  have hend := h.shape.endOff_lt hlt
  have hsize := h.shape.size
  -- a search into a buffer without end
  have hcap : (18446744073709551615 : UInt64).toNat = 18446744073709551615 := rfl
  have hview := h.shape.chainView hlt key 18446744073709551615 (some [])
  rw [← h.shape.head] at hview
  obtain ⟨hnone, -, hlen, hval⟩ := chainView_walk (by omega) hlt _ hview
  unfold Kvdb.walked
  cases hv : value recs key with
  | none => exact hnone ((searched_iff key _ hend h.shape.ok _).2 hv)
  | some v =>
      obtain ⟨hoff, htotal, hbytes⟩ :=
        searched_of_some key 18446744073709551615 hend h.shape.ok (some []) hv
      have hsame := htotal.symm.trans (hlen hoff)
      have hlt64 := (searched hash key 18446744073709551615 recs (some [])).valLen.toNat_lt
      rw [hval, Option.map_some, Option.map_some, Option.map_some, Option.some_inj, hcap] at hbytes
      revert hsame hbytes
      generalize (walk _ _ _ _ _).bound = b
      intro hbytes hsame
      rw [Nat.min_eq_right (by omega), List.take_of_length_le (show b.length ≤ _ by omega),
        Bytes.take_overwrite _ _ (Nat.le_of_eq hsame), hsame, List.take_length,
        List.take_of_length_le (show v.length ≤ _ by omega)] at hbytes
      exact hbytes

/-- **What reaches the caller's buffer**: a lookup or a removal writes to it the value of the key
    alone, and nothing if the key is not bound, exactly if the values of the other keys that the
    search passes are empty, or there is no room for a byte of them. -/
theorem framed_iff_harmless (hw : ReachableAnyhow sys hash w) {op : Op} {reply : Reply}
    {w' : World σ} (hop : op = .lookup key val valLen ∨ op = .remove key val valLen)
    (hrun : op.run sys hash w = .ok reply w') :
    (∃ ws, op.runWriting sys hash w = .ok (reply, ws) w' ∧
      (Framed w.kvdb.kvraw (log w.sys) key val valLen
          (w.kvdb.walked hash (log w.sys) key).bound reply ws ↔
        Harmless valLen (w.kvdb.walked hash (log w.sys) key))) ∧
      ∀ junk recs, Inv log hash junk recs w →
        (w.kvdb.walked hash (log w.sys) key).bound = (value recs key).getD [] := by
  have h := hw.usable hsys
  obtain ⟨ws, hws⟩ := Op.exists_writing hrun
  refine ⟨⟨ws, hws, ?_⟩, fun junk recs hinv => hinv.walked_bound hsys key⟩
  rcases hop with rfl | rfl
  · exact ((kvdbLookup_answers hsys h).ok hrun).framed_iff
      ((kvdbLookupWriting_wrote hsys h).ok hws)
  · exact ((kvdbRemove_answers hsys h).ok hrun).framed_iff
      ((kvdbRemoveWriting_wrote hsys h).ok hws)

omit hsys in
theorem lookup_collided : replied (Op.run Memory.sys (fun _ => 1)
    (.lookup [107] (some [0, 7]) (some 2)) collided) = some ⟨.zero, some [118, 7], some 1⟩ := by
  decide +kernel

omit hsys in
/-- The lookup passes the record that removed the other key. -/
theorem framed_iff_harmless_collided :
    ∃ w', (∃ ws, Op.runWriting Memory.sys (fun _ => 1) (.lookup [107] (some [0, 7]) (some 2))
          collided = .ok (⟨.zero, some [118, 7], some 1⟩, ws) w' ∧
        (Framed collided.kvdb.kvraw (Memory.log collided.sys) [107] (some [0, 7]) (some 2)
            (collided.kvdb.walked (fun _ => 1) (Memory.log collided.sys) [107]).bound
            ⟨.zero, some [118, 7], some 1⟩ ws ↔
          Harmless (some 2) (collided.kvdb.walked (fun _ => 1) (Memory.log collided.sys) [107]))) ∧
      ∀ junk recs, Inv Memory.log (fun _ => 1) junk recs collided →
        (collided.kvdb.walked (fun _ => 1) (Memory.log collided.sys) [107]).bound =
          (value recs [107]).getD [] := by
  obtain ⟨w', hrun⟩ := exists_of_replied lookup_collided
  exact ⟨w', framed_iff_harmless Memory.documented reachable_collided.anyhow (.inl rfl) hrun⟩

omit hsys in
/-- A lookup of a key that was never stored, with the hash of one that was: it returns +1, and the
    value of the other key is in the buffer. -/
theorem colliding_value_not_framed :
    ReachableAnyhow Memory.sys (fun _ => 1) stored ∧
      ∃ ws w', Op.runWriting Memory.sys (fun _ => 1) (.lookup [120] (some [0]) (some 1)) stored =
          .ok (⟨.plusOne, some [118], some 1⟩, ws) w' ∧
        ¬ Framed stored.kvdb.kvraw (Memory.log stored.sys) [120] (some [0]) (some 1)
          (stored.kvdb.walked (fun _ => 1) (Memory.log stored.sys) [120]).bound
          ⟨.plusOne, some [118], some 1⟩ ws := by
  refine ⟨reachableAnyhow_stored, ?_⟩
  obtain ⟨w', hrun⟩ : ∃ w', Op.run Memory.sys (fun _ => 1) (.lookup [120] (some [0]) (some 1))
      stored = .ok ⟨.plusOne, some [118], some 1⟩ w' := exists_of_replied (by decide +kernel)
  obtain ⟨ws, hws⟩ := Op.exists_writing hrun
  refine ⟨ws, w', hws, fun h => ?_⟩
  have hval := (h.plusOne rfl).1
  exact absurd hval (by decide)

end CS238P.Store
