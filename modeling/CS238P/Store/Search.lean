import CS238P.Store.Chains

set_option autoImplicit false

/-! # The search of a chain is the plain one

`chain_lookup` reads at most 256 bytes of a key, compares eight, and reads a longer key again. On a
chain of records it ends as the search does that reads and compares each key whole. -/

namespace CS238P.Store

/-- The search that compares whole keys, over the offsets of a chain: where the first record of the
    key is and how long its value is, or zero and `valLen`. -/
def plainSearch (kvraw : Kvraw) (l key : List UInt8) (valLen : UInt64) :
    List UInt64 → UInt64 × UInt64
  | [] => (0, valLen)
  | off :: offs =>
      match kvraw.metaView l off with
      | .error _ => plainSearch kvraw l key valLen offs
      | .ok m =>
          if keyView l off m = key then (off, m.valLen.toUInt64)
          else plainSearch kvraw l key valLen offs

variable {kvraw : Kvraw} {l : List UInt8} {off : UInt64} {offs : List UInt64}

/-! ## Chains are short -/

theorem Chain.of_mem (h : Chain kvraw l off offs) {o : UInt64} (ho : o ∈ offs) :
    ∃ offs', Chain kvraw l o offs' ∧ offs'.length ≤ offs.length := by
  induction h with
  | stop => cases ho
  | @next off m offs hoff hm more ih =>
      rcases List.mem_cons.1 ho with rfl | ho
      · exact ⟨_, .next hoff hm more, Nat.le_refl _⟩
      · obtain ⟨offs', hchain, hle⟩ := ih ho
        exact ⟨offs', hchain, hle.trans (Nat.le_succ _)⟩

/-- A chain does not come back to a record. -/
theorem Chain.nodup (h : Chain kvraw l off offs) : offs.Nodup := by
  induction h with
  | stop => exact List.nodup_nil
  | @next off m offs hoff hm more ih =>
      refine List.nodup_cons.2 ⟨fun hmem => ?_, ih⟩
      obtain ⟨offs', hchain, hle⟩ := more.of_mem hmem
      rw [← (Chain.next hoff hm more).unique hchain, List.length_cons] at hle
      omega

theorem Chain.lt_size (h : Chain kvraw l off offs) (hsize : kvraw.size.toNat < 2 ^ 63) {o : UInt64}
    (ho : o ∈ offs) : o.toNat < kvraw.size.toNat := by
  induction h with
  | stop => cases ho
  | next _ hm _ ih =>
      rcases List.mem_cons.1 ho with rfl | ho
      · have := Kvraw.metaView_le hsize hm
        omega
      · exact ih ho

/-- There are no more records on a chain than bytes on the log. -/
theorem Chain.length_le (h : Chain kvraw l off offs) (hsize : kvraw.size.toNat < 2 ^ 63) :
    offs.length ≤ kvraw.size.toNat := by
  have hnodup : (offs.map UInt64.toNat).Nodup :=
    h.nodup.map fun _ _ heq => UInt64.toNat_inj.1 heq
  have hsub : offs.map UInt64.toNat ⊆ List.range kvraw.size.toNat := by
    intro n hn
    obtain ⟨o, ho, rfl⟩ := List.mem_map.1 hn
    exact List.mem_range.2 (h.lt_size hsize ho)
  have := (List.subperm_of_subset hnodup hsub).length_le
  rwa [List.length_map, List.length_range] at this

/-! ## The search -/

/-- What the walk along a chain shows is what the plain search finds. -/
theorem Chain.plainSearch_eq (h : Chain kvraw l off offs) {key : List UInt8} {valLen : UInt64}
    {n : ℕ} {val : Option (List UInt8)} {out : ChainOut}
    (hview : Store.chainView kvraw l key valLen n val off = .ok out) :
    (out.off, out.valLen) = plainSearch kvraw l key valLen offs := by
  induction h generalizing n val with
  | stop =>
      cases n with
      | zero => cases hview
      | succ n =>
          rw [Store.chainView, if_pos rfl] at hview
          cases hview
          rfl
  | next hoff hm more ih =>
      cases n with
      | zero => cases hview
      | succ n =>
          rw [Store.chainView, if_neg hoff, hm] at hview
          rw [plainSearch, hm]
          simp only at hview ⊢
          split at hview
          · rename_i hkey
            rw [if_pos hkey]
            cases hview
            rfl
          · rename_i hkey
            rw [if_neg hkey]
            exact ih hview

variable {σ : Type} {sys : Sys σ} {log : σ → List UInt8} (hsys : sys.Documented log)
  (hreads : sys.Reads log) (halloc : sys.Allocates)
include hsys hreads halloc

/-- Along a chain the loop of `chain_lookup` does not fail. -/
theorem chainLoop_ok (h : Chain kvraw l off offs) (hsize : kvraw.size.toNat ≤ l.length)
    {key : List UInt8} (hkey : KeyOk key) {valLen : UInt64} :
    ∀ {n : ℕ} {buf : List UInt8} {val : Option (List UInt8)} {s : σ}, log s = l →
      offs.length < n → 256 ≤ buf.length → Holds val valLen →
      wp (chainLoop sys kvraw key valLen n buf val off) (fun _ _ => True) (fun _ _ => False) s := by
  have hlen := toNat_ofNat_length hkey.length_lt
  induction h with
  | stop =>
      intro n buf val s _ hn _ _
      obtain ⟨n, rfl⟩ : ∃ m, n = m + 1 := ⟨n - 1, by omega⟩
      rw [chainLoop, if_pos rfl]
      trivial
  | @next off m offs hoff hm _ ih =>
      intro n buf val s hs hn hbuf hval
      obtain ⟨n, rfl⟩ : ∃ m, n = m + 1 := ⟨n - 1, by omega⟩
      rw [List.length_cons] at hn
      have hlt := hsys.log_length s
      rw [hs] at hlt
      have hle := Kvraw.metaView_le (by omega) hm
      have hlookup : ∀ {buf : List UInt8} {keyLen valLen : UInt64} {val : Option (List UInt8)}
          {s' : σ}, log s' = l → keyLen.toNat ≤ buf.length → Holds val valLen →
          wp (kvrawLookup sys kvraw buf keyLen val valLen off)
            (fun out s'' => log s'' = l ∧ out = lookupView l buf keyLen val valLen off m)
            (fun _ _ => False) s' := by
        intro buf keyLen valLen val s' hs' hb hv
        have := kvrawLookup_ok hsys.logs hreads (s := s') (by rw [hs']; exact hm)
          (by rw [hs']; omega) (by omega) hb hv hoff
        rwa [hs'] at this
      have hread := cMin_le_length hbuf (.ofNat key.length)
      rw [chainLoop, if_neg hoff]
      refine wp.bind ((hlookup hs hread hval).mono ?_ fun _ _ h => h)
      rintro out s₁ ⟨h₁, rfl⟩
      have hbuf' : (lookupView l buf (cMin (.ofNat key.length) 256) val valLen off m).key.length =
          buf.length := length_lookupView hread
      -- the loop goes on with the next record
      have hnext : ∀ {val' : Option (List UInt8)} {s' : σ}, log s' = l → Holds val' valLen →
          wp (chainLoop sys kvraw key valLen n
            (lookupView l buf (cMin (.ofNat key.length) 256) val valLen off m).key val' m.off)
            (fun _ _ => True) (fun _ _ => False) s' := fun hs' hv' =>
        ih hs' (by omega) (by omega) hv'
      have hval' := hval.read (valView l off m)
      split
      · exact hnext h₁ hval'
      rename_i hsame
      split
      · -- the key is as long as the one that is looked for, so it can be allocated
        have hsmall : m.keyLen.toUInt64.toNat ≤ 0xffff := by
          have heq : m.keyLen.toUInt64 = .ofNat key.length := not_not.1 (not_or.1 hsame).1
          rw [heq, hlen]
          exact hkey.2
        refine wp.bind ((mallocOr_ok hsys halloc hsmall _).mono ?_ fun _ _ h => h)
        intro _ s₂ h₂
        refine wp.bind ((uninitialised_wp hsys _).mono ?_ fun _ _ h => h)
        rintro key_ s₃ ⟨h₃, hkey_⟩
        refine wp.bind ((hlookup (h₃.trans (h₂.trans h₁)) (Nat.le_of_eq hkey_.symm)
          (Nat.zero_le _)).mono ?_ fun _ _ h => h)
        rintro out' s₄ ⟨h₄, rfl⟩
        split
        · trivial
        · refine hnext h₄ ?_
          show Holds (Option.map _ _) valLen
          rw [map_overwrite_zero]
          exact hval'
      · split
        · trivial
        · exact hnext h₁ hval'

/-- **`chain_lookup` is the plain search**: on every chain that lies on the log, for every key and
    whatever is in the buffers. -/
theorem chainLookup_eq_plainSearch {s : σ} (hsize : kvraw.size.toNat ≤ (log s).length)
    (h : Chain kvraw (log s) off offs) {key : List UInt8} (hkey : KeyOk key)
    {val : Option (List UInt8)} {valLen : UInt64} (hval : Holds val valLen) :
    ∃ out s', chainLookup sys kvraw key val valLen off s = .ok out s' ∧ log s' = log s ∧
      (out.off, out.valLen) = plainSearch kvraw (log s) key valLen offs := by
  have hlt := hsys.log_length s
  have hok : wp (chainLookup sys kvraw key val valLen off) (fun _ _ => True) (fun _ _ => False)
      s := by
    refine wp.bind ((uninitialised_wp hsys 256).mono ?_ fun _ _ h => h)
    rintro buf s₁ ⟨h₁, hbuf⟩
    have hle := h.length_le (by omega)
    exact chainLoop_ok hsys hreads halloc h hsize hkey h₁ (by omega) (by omega) hval
  obtain ⟨out, s', hrun, -⟩ := hok.returns
  obtain ⟨hlog, hview⟩ :=
    (chainLookup_finds hsys hsize hkey.length_lt val valLen off).ok hrun
  exact ⟨out, s', hrun, hlog, h.plainSearch_eq hview⟩

omit hsys hreads halloc in
theorem chain_collided : Chain collided.kvdb.kvraw (Memory.log collided.sys) 55 [55, 37, 18] :=
  .next (by decide) (show collided.kvdb.kvraw.metaView (Memory.log collided.sys) 55 =
    .ok ⟨75, 86, 37, 1, 0⟩ by decide +kernel) (.next (by decide)
    (show collided.kvdb.kvraw.metaView (Memory.log collided.sys) 37 = .ok ⟨75, 86, 18, 1, 1⟩ by
      decide +kernel) (.next (by decide)
    (show collided.kvdb.kvraw.metaView (Memory.log collided.sys) 18 = .ok ⟨75, 86, 0, 1, 2⟩ by
      decide +kernel) .stop))

omit hsys hreads halloc in
/-- The search for the key of the second record, behind the first of the chain. -/
theorem chainLookup_eq_plainSearch_collided :
    ∃ out s', chainLookup Memory.sys collided.kvdb.kvraw [107] (some [0, 7]) 2 55 collided.sys =
        .ok out s' ∧
      Memory.log s' = Memory.log collided.sys ∧
      (out.off, out.valLen) =
        plainSearch collided.kvdb.kvraw (Memory.log collided.sys) [107] 2 [55, 37, 18] :=
  chainLookup_eq_plainSearch Memory.documented Memory.reads Memory.allocates
    (show collided.kvdb.kvraw.size.toNat ≤ (Memory.log collided.sys).length by decide +kernel)
    chain_collided (by decide) (Nat.le_refl 2)

end CS238P.Store
