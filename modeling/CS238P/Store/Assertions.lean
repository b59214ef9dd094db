import CS238P.Store.Failure

set_option autoImplicit false

/-! # The assertions of the layers below

Every function of the interface asserts something of its arguments, and so do the functions it
calls. The assertions of the interface are strong enough for those below but for one: `kvdb_remove`
asserts `!val_len || !!(*val_len) || val` where `kvdb_lookup` asserts
`!val_len || !(*val_len) || val`, so that it can hand `kvraw_lookup` a NULL buffer of a length that
is not zero. -/

namespace CS238P.Store

/-- The assertions of the function that the call is of. -/
def Op.Asserts : Op → Prop
  | .insert key val => KeyOk key ∧ ValOk val
  | .update key val => KeyOk key ∧ ValOk val
  | .replace key val => KeyOk key ∧ ValOk val
  | .remove key val valLen => KeyOk key ∧ ¬ (valLen = some 0 ∧ val = none)
  | .lookup key val valLen => KeyOk key ∧ ¬ (valLen ≠ none ∧ valLen ≠ some 0 ∧ val = none)

variable {σ : Type} {sys : Sys σ} {hash : List UInt8 → UInt64}

/-- `index_update` has a slot for the key: there is room for its hash, and if the table is due to
    grow the allocation of the new one succeeds. -/
def Updates (sys : Sys σ) (hash : List UInt8 → UInt64) (index : Index) (key : List UInt8) (s : σ) :
    Prop :=
  index.HasRoom (hashKey hash key) ∧
    (index.due = true → (sys.malloc ((index.capacity + 97) * 3 / 2 * 16) s).1 = true)

/-- `kvdb_remove` without a buffer, but with a length for it, of a key whose hash has records. -/
def Op.RemovesToNull (sys : Sys σ) (hash : List UInt8 → UInt64) (op : Op) (w : World σ) : Prop :=
  ∃ key cap, op = .remove key none (some cap) ∧ cap ≠ 0 ∧
    w.kvdb.index.head (hashKey hash key) ≠ 0 ∧ Updates sys hash w.kvdb.index key w.sys

/-! ## The layers below -/

/-- The buffer is not NULL unless its length is zero. -/
def Backed (val : Option (List UInt8)) (valLen : UInt64) : Prop := ¬ (valLen ≠ 0 ∧ val = none)

theorem read_asserts (buf : List UInt8) (off len : UInt64) (s : σ) :
    wp (sys.read buf off len) (fun _ _ => True) (fun e _ => e ≠ .assertion) s := by
  unfold wp Sys.read
  split_ifs with h
  · simp
  · cases sys.logfsRead off len s with
    | mk r s' => cases r <;> simp

theorem readMeta_asserts (kvraw : Kvraw) (off : UInt64) (s : σ) :
    wp (readMeta sys kvraw off) (fun _ _ => True) (fun e _ => e ≠ .assertion) s := by
  unfold readMeta
  split
  · exact wp.throw (by decide)
  · refine wp.bind ((read_asserts _ _ _ s).mono ?_ fun _ _ h => h)
    intro bs s' _
    split
    · trivial
    · exact wp.throw (by decide)

/-- `kvraw_lookup` with a buffer for its length, at an offset that is not zero. -/
theorem kvrawLookup_asserts (kvraw : Kvraw) (key : List UInt8) (keyLen : UInt64)
    {val : Option (List UInt8)} {valLen off : UInt64} (hval : Backed val valLen) (hoff : off ≠ 0)
    (s : σ) :
    wp (kvrawLookup sys kvraw key keyLen val valLen off)
      (fun out _ => out.val = none ↔ val = none) (fun e _ => e ≠ .assertion) s := by
  unfold kvrawLookup
  rw [if_neg hval, if_neg hoff]
  refine wp.bind ((readMeta_asserts kvraw off s).mono ?_ fun _ _ h => h)
  intro m s₁ _
  refine wp.bind ((read_asserts _ _ _ s₁).mono ?_ fun _ _ h => h)
  intro key_ s₂ _
  refine wp.bind ((read_asserts _ _ _ s₂).mono ?_ fun _ _ h => h)
  intro val_ s₃ _
  show (val.map fun _ => val_) = none ↔ val = none
  rw [Option.map_eq_none_iff]

theorem Backed.congr {val val' : Option (List UInt8)} {valLen : UInt64} (h : Backed val valLen)
    (hval : val' = none ↔ val = none) : Backed val' valLen := fun hbad =>
  h ⟨hbad.1, hval.1 hbad.2⟩

theorem mallocOr_asserts (n : UInt64) (cause : Cause) (s : σ) :
    wp (sys.mallocOr n cause) (fun _ _ => True) (fun e _ => e ≠ .assertion) s := by
  unfold wp Sys.mallocOr
  cases sys.malloc n s with
  | mk r s' => cases r <;> simp

theorem chainLoop_asserts (kvraw : Kvraw) (key : List UInt8) (valLen : UInt64) (n : ℕ) :
    ∀ (buf : List UInt8) (val : Option (List UInt8)) (off : UInt64) (s : σ),
      (off ≠ 0 → Backed val valLen) →
      wp (chainLoop sys kvraw key valLen n buf val off) (fun _ _ => True)
        (fun e _ => e ≠ .assertion) s := by
  induction n with
  | zero =>
      intro buf val off s _
      exact wp.throw (by decide)
  | succ n ih =>
      intro buf val off s hval
      rw [chainLoop]
      split
      · trivial
      rename_i hoff
      replace hval := hval hoff
      refine wp.bind ((kvrawLookup_asserts _ _ _ hval hoff s).mono ?_ fun _ _ h => h)
      intro out s₁ hout
      split
      · exact ih _ _ _ s₁ fun _ => hval.congr hout
      split
      · refine wp.bind ((mallocOr_asserts _ _ s₁).mono ?_ fun _ _ h => h)
        intro _ s₂ _
        refine wp.bind (wp.of_ok rfl ?_)
        -- the key is read again, and of the value nothing
        have hzero : Backed out.val 0 := fun hbad => hbad.1 rfl
        refine wp.bind ((kvrawLookup_asserts _ _ _ hzero hoff s₂).mono ?_ fun _ _ h => h)
        intro out' s₃ hout'
        split
        · trivial
        · exact ih _ _ _ s₃ fun _ => hval.congr (hout'.trans hout)
      · split
        · trivial
        · exact ih _ _ _ s₁ fun _ => hval.congr hout

theorem chainLookup_asserts (kvraw : Kvraw) (key : List UInt8) {val : Option (List UInt8)}
    {valLen off : UInt64} (hval : off ≠ 0 → Backed val valLen) (s : σ) :
    wp (chainLookup sys kvraw key val valLen off) (fun _ _ => True)
      (fun e _ => e ≠ .assertion) s :=
  wp.bind (wp.of_ok rfl (chainLoop_asserts kvraw key valLen _ _ val off s hval))

/-- A search from a record into a buffer that is NULL. -/
theorem chainLookup_null (kvraw : Kvraw) (key : List UInt8) {valLen off : UInt64}
    (hlen : valLen ≠ 0) (hoff : off ≠ 0) (s : σ) :
    chainLookup sys kvraw key none valLen off s = .error .assertion s := by
  show chainLoop sys kvraw key valLen (kvraw.size.toNat + 1) (sys.uninit 256 s) none off s = _
  rw [chainLoop, if_neg hoff]
  show EStateM.bind (kvrawLookup sys kvraw _ _ none valLen off) _ s = _
  unfold EStateM.bind kvrawLookup
  rw [if_pos ⟨hlen, rfl⟩]
  rfl

/-! ## When `index_update` has a slot -/

theorem mallocOr_malloc (n : UInt64) (cause : Cause) (s : σ) :
    wp (sys.mallocOr n cause) (fun _ _ => (sys.malloc n s).1 = true)
      (fun _ _ => (sys.malloc n s).1 = false) s := by
  unfold wp Sys.mallocOr
  cases sys.malloc n s with
  | mk r s' => cases r <;> rfl

theorem create_malloc (capacity : UInt64) (s : σ) :
    wp (create sys capacity) (fun _ _ => (sys.malloc (capacity * 16) s).1 = true)
      (fun e _ => e = .io .indexMemory → (sys.malloc (capacity * 16) s).1 = false) s := by
  unfold create
  refine wp.bind ((mallocOr_malloc _ _ s).mono ?_ fun _ _ h _ => h)
  intro _ s₁ hmalloc
  split
  · exact wp.throw (by simp)
  · exact hmalloc

theorem grow_malloc (index : Index) (s : σ) :
    wp (grow sys index)
      (fun _ _ => index.due = true →
        (sys.malloc ((index.capacity + 97) * 3 / 2 * 16) s).1 = true)
      (fun e _ => e = .io .indexMemory → index.due = true ∧
        (sys.malloc ((index.capacity + 97) * 3 / 2 * 16) s).1 = false) s := by
  unfold grow
  split
  · rename_i hdue
    refine wp.bind ((create_malloc _ s).mono ?_ fun _ _ h he => ⟨hdue, h he⟩)
    intro _ s₁ hmalloc
    split
    · exact fun _ => hmalloc
    · exact wp.throw nofun
  · exact fun hdue => absurd hdue (by assumption)

/-! ## The interface -/

variable {log : σ → List UInt8} (hsys : sys.Documented log) {w : World σ}
include hsys

theorem indexUpdate_returns_iff {index : Index} (h : index.WF) {key : List UInt8} (hkey : key ≠ [])
    (s : σ) :
    (∃ r s', indexUpdate sys hash index key s = .ok r s') ↔ Updates sys hash index key s := by
  have hmalloc : wp (indexUpdate sys hash index key)
      (fun _ _ => index.due = true →
        (sys.malloc ((index.capacity + 97) * 3 / 2 * 16) s).1 = true)
      (fun e _ => e = .io .indexMemory → index.due = true ∧
        (sys.malloc ((index.capacity + 97) * 3 / 2 * 16) s).1 = false) s := by
    unfold indexUpdate
    rw [if_neg hkey]
    refine wp.bind ((grow_malloc index s).mono ?_ fun _ _ h => h)
    intro index' s₁ hdue
    split
    · exact hdue
    · exact wp.throw nofun
  constructor
  · intro hret
    obtain ⟨r, s', hr⟩ := hret
    refine ⟨?_, hmalloc.ok hr⟩
    by_contra hroom
    exact (indexUpdate_exits hkey hroom s).ok hr
  · intro hup
    cases hr : indexUpdate sys hash index key s with
    | ok r s' => exact ⟨r, s', rfl⟩
    | error e s' =>
        obtain ⟨-, rfl | ⟨-, h0⟩ | ⟨-, hroom⟩⟩ := (indexUpdate_wp hsys h key).error hr
        · obtain ⟨hdue, hfalse⟩ := hmalloc.error hr rfl
          rw [hup.2 hdue] at hfalse
          cases hfalse
        · exact absurd h0 hkey
        · exact absurd hup.1 hroom

/-- The slot that `index_update` returns holds the head of the chain. -/
theorem indexUpdate_updates {index : Index} (h : index.WF) {key : List UInt8} (hkey : key ≠ [])
    (s : σ) :
    wp (indexUpdate sys hash index key)
      (fun r _ => Updates sys hash index key s ∧
        (r.1.slotAt r.2).off = index.head (hashKey hash key))
      (fun e _ => e ≠ .assertion) s := by
  cases hr : indexUpdate sys hash index key s with
  | ok r s' =>
      have hup := (indexUpdate_returns_iff hsys h hkey s).1 ⟨r, s', hr⟩
      obtain ⟨-, -, -, -, hoff, -⟩ := (indexUpdate_wp hsys h key).ok hr
      exact wp.of_ok hr ⟨hup, hoff⟩
  | error e s' =>
      unfold wp
      rw [hr]
      obtain ⟨-, rfl | ⟨-, h0⟩ | ⟨rfl, -⟩⟩ := (indexUpdate_wp hsys h key).error hr
      · exact nofun
      · exact absurd h0 hkey
      · exact nofun

omit hsys in
theorem onSys_asserts {α : Type} {x : M σ α} {Q : α → σ → Prop}
    (h : wp x Q (fun e _ => e ≠ .assertion) w.sys) :
    wp (onSys x) (fun a w' => w'.kvdb = w.kvdb ∧ Q a w'.sys) (fun e _ => e ≠ .assertion) w :=
  (onSys_wp h).mono (fun _ _ h => h) fun _ _ h => h.2

theorem appendRef_asserts {key val : List UInt8} {ref : ℕ} (hkey : KeyOk key)
    (hval : val.length ≤ 0xffffffff) :
    wp (appendRef sys key val ref) (fun _ _ => True) (fun e _ => e ≠ .assertion) w := by
  refine (appendRef_wp hsys key val ref).mono (fun _ _ _ => trivial) ?_
  rintro e w' ⟨-, -, rfl | ⟨-, hbad⟩⟩
  · decide
  · obtain ⟨hne, hle⟩ := hkey
    rcases hbad with rfl | h | h
    · exact absurd rfl hne
    · omega
    · omega

theorem mutateFound_asserts {mode : Mode} {key : List UInt8} {val : Option (List UInt8)}
    {valLen : Option UInt64} {ref : ℕ} {out : ChainOut} (hkey : KeyOk key)
    (hval : (mode.stores val valLen).length ≤ 0xffffffff) :
    wp (mutateFound sys key val valLen ref out mode) (fun _ _ => True)
      (fun e _ => e ≠ .assertion) w := by
  refine mutateFound_rule (fun _ => trivial) fun size waste _ => ?_
  exact (appendRef_asserts hsys hkey hval).mono (fun _ _ _ _ _ _ _ => trivial) fun _ _ h => h

/-- The search goes to a buffer, or there is nothing to search. -/
theorem mutate_asserts {mode : Mode} {key : List UInt8} {val : Option (List UInt8)}
    {valLen : Option UInt64} (h : Usable log w) (hkey : KeyOk key)
    (hval : (mode.stores val valLen).length ≤ 0xffffffff)
    (hbuf : mode = .remove → ∀ cap, valLen = some cap → Updates sys hash w.kvdb.index key w.sys →
      w.kvdb.index.head (hashKey hash key) ≠ 0 → Backed val cap) :
    wp (mutate sys hash key val valLen mode) (fun _ _ => True) (fun e _ => e ≠ .assertion) w := by
  unfold mutate
  refine wp.bind (wp.getState ?_)
  refine wp.bind ((onSys_asserts (indexUpdate_updates hsys h.index hkey.ne_nil w.sys)).mono ?_
    fun _ _ h => h)
  rintro r w₁ ⟨h₁, hup, hoff⟩
  refine wp.bind (wp.modifyState ?_)
  have hbacked : (r.1.slotAt r.2).off ≠ 0 →
      Backed (if mode = .remove ∧ valLen ≠ none then val else none)
        (if mode = .remove ∧ valLen ≠ none then valLen.getD 0 else 0) := by
    intro hoff0
    rw [hoff] at hoff0
    split_ifs with hrem
    · obtain ⟨cap, rfl⟩ := Option.ne_none_iff_exists'.1 hrem.2
      exact hbuf hrem.1 cap rfl hup hoff0
    · exact fun hbad => hbad.1 rfl
  refine wp.bind ((onSys_asserts (chainLookup_asserts _ _ hbacked _)).mono ?_ fun _ _ h => h)
  intro out w₂ _
  exact mutateFound_asserts hsys hkey hval

/-- **`kvdb_remove` to a buffer that is NULL**: `kvraw_lookup` is called with a length for it. -/
theorem remove_asserts {key : List UInt8} {cap : UInt64} (h : Usable log w) (hkey : KeyOk key)
    (hcap : cap ≠ 0) (hhead : w.kvdb.index.head (hashKey hash key) ≠ 0)
    (hup : Updates sys hash w.kvdb.index key w.sys) :
    ∃ w', kvdbRemove sys hash key none (some cap) w = .error .assertion w' := by
  obtain ⟨r, s', hr⟩ := (indexUpdate_returns_iff hsys h.index hkey.ne_nil w.sys).2 hup
  obtain ⟨-, -, -, -, hoff, -⟩ := (indexUpdate_wp hsys h.index key).ok hr
  have hoff0 : (r.1.slotAt r.2).off ≠ 0 := by
    rw [hoff]
    exact hhead
  refine ⟨⟨{ w.kvdb with index := r.1 }, s'⟩, ?_⟩
  have hindex : onSys (indexUpdate sys hash w.kvdb.index key) w = .ok r { w with sys := s' } := by
    unfold onSys
    rw [hr]
  have hchain : onSys (chainLookup sys w.kvdb.kvraw key none cap (r.1.slotAt r.2).off)
      ⟨{ w.kvdb with index := r.1 }, s'⟩ =
        .error .assertion ⟨{ w.kvdb with index := r.1 }, s'⟩ := by
    unfold onSys
    rw [chainLookup_null _ _ hcap hoff0]
  unfold kvdbRemove
  rw [if_neg (not_not.2 hkey), if_neg (fun hbad => hcap (Option.some.inj hbad.1))]
  show EStateM.bind (onSys (indexUpdate sys hash w.kvdb.index key)) _ w = _
  rw [EStateM.bind, hindex]
  show EStateM.bind (onSys (chainLookup sys w.kvdb.kvraw key none cap (r.1.slotAt r.2).off)) _
    ⟨{ w.kvdb with index := r.1 }, s'⟩ = _
  rw [EStateM.bind, hchain]

omit hsys in
theorem lookup_asserts {key : List UInt8} {val : Option (List UInt8)} {valLen : Option UInt64}
    (hkey : KeyOk key) (hval : ¬ (valLen ≠ none ∧ valLen ≠ some 0 ∧ val = none)) :
    wp (kvdbLookup sys hash key val valLen) (fun _ _ => True) (fun e _ => e ≠ .assertion) w := by
  have hbacked : Backed (if valLen = none then none else val) (valLen.getD 0) := by
    rintro ⟨hlen, hnone⟩
    cases valLen with
    | none => exact hlen rfl
    | some cap =>
        rw [if_neg (by simp)] at hnone
        exact hval ⟨by simp, fun h0 => hlen (Option.some.inj h0), hnone⟩
  unfold kvdbLookup
  rw [if_neg (not_not.2 hkey), if_neg hval]
  refine wp.bind (wp.getState ?_)
  refine wp.bind ((onSys_wp (indexLookup_wp w.kvdb.index key)).mono ?_ ?_)
  · intro ref w₁ _
    cases ref with
    | none => trivial
    | some off =>
        simp only
        split
        · trivial
        refine wp.bind ((onSys_asserts (chainLookup_asserts _ _ (fun _ => hbacked) _)).mono ?_
          fun _ _ h => h)
        intro out w₂ _
        split <;> trivial
  · rintro e w₁ ⟨-, -, -, hempty⟩
    exact absurd hempty hkey.ne_nil

/-- **Which calls violate an assertion below their own**: exactly those of `kvdb_remove` with NULL
    for a buffer and a length that is not zero, of a key whose hash has records. -/
theorem asserts_iff (hw : ReachableAnyhow sys hash w) {op : Op} (hop : op.Asserts) :
    (∀ w', op.run sys hash w ≠ .error .assertion w') ↔ ¬ op.RemovesToNull sys hash w := by
  have h := hw.usable hsys
  constructor
  · rintro hno ⟨key, cap, rfl, hcap, hhead, hup⟩
    obtain ⟨w', hw'⟩ := remove_asserts hsys h hop.1 hcap hhead hup
    exact hno w' hw'
  · intro hnull
    have hstore : ∀ {mode : Mode} {key val : List UInt8}, KeyOk key ∧ ValOk val → mode ≠ .remove →
        wp (kvdbStore sys hash mode key val) (fun _ _ => True) (fun e _ => e ≠ .assertion) w := by
      rintro mode key val ⟨hkey, hval⟩ hmode
      unfold kvdbStore
      rw [if_neg (not_not.2 hkey), if_neg (not_not.2 hval)]
      refine mutate_asserts hsys h hkey ?_ fun hrem => absurd hrem hmode
      rw [Mode.stores, if_neg hmode, List.length_take]
      exact (Nat.min_le_right _ _).trans hval.2
    have hwp : wp (op.run sys hash) (fun _ _ => True) (fun e _ => e ≠ .assertion) w := by
      cases op with
      | insert key val => exact hstore hop (by decide)
      | update key val => exact hstore hop (by decide)
      | replace key val => exact hstore hop (by decide)
      | remove key val valLen =>
          obtain ⟨hkey, hval⟩ := hop
          show wp (kvdbRemove sys hash key val valLen) _ _ w
          unfold kvdbRemove
          rw [if_neg (not_not.2 hkey), if_neg hval]
          refine mutate_asserts hsys h hkey (Nat.zero_le _) ?_
          rintro - cap rfl hup hhead ⟨hcap, rfl⟩
          exact hnull ⟨key, cap, rfl, hcap, hhead, hup⟩
      | lookup key val valLen =>
          exact lookup_asserts hop.1 hop.2
    intro w' hw'
    exact hwp.error hw' rfl

omit hsys in
theorem asserts_iff_memory :
    (∀ w', Op.run Memory.sys (fun _ => 1) (.remove [107] (some [0]) (some 1)) stored ≠
      .error .assertion w') ↔
      ¬ Op.RemovesToNull Memory.sys (fun _ => 1) (.remove [107] (some [0]) (some 1)) stored :=
  asserts_iff Memory.documented reachableAnyhow_stored ⟨by decide, by decide⟩

omit hsys in
/-- A key that was inserted is removed to NULL, of length 1. -/
theorem remove_to_null_asserts :
    ReachableAnyhow Memory.sys (fun _ => 1) stored ∧
      Op.Asserts (.remove [107] none (some 1)) ∧
      ∃ w', Op.run Memory.sys (fun _ => 1) (.remove [107] none (some 1)) stored =
        .error .assertion w' :=
  ⟨reachableAnyhow_stored, ⟨by decide, by decide⟩, _, rfl⟩

end CS238P.Store
