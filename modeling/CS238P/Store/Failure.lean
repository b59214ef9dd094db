import CS238P.Store.Interface

set_option autoImplicit false

/-! # Calls that fail

What a call that returns -1 because an external call failed leaves behind. The states are all that a
process can get to, also after calls that failed and left parts of records on the log, where little
of the invariant is left (`Usable`). `kvdb_update` counts before it appends, so it is the exception
(`unchanged_iff`). -/

namespace CS238P.Store

/-- The states that calls which returned -1, 0 or +1 lead to from `kvdb_open`. -/
inductive ReachableAnyhow {σ : Type} (sys : Sys σ) (hash : List UInt8 → UInt64) : World σ → Prop
  | opened {pathname : String} {s₀ s : σ} {kvdb : Kvdb}
      (h : kvdbOpen sys pathname s₀ = .ok kvdb s) : ReachableAnyhow sys hash ⟨kvdb, s⟩
  | called {w w' : World σ} {op : Op} {reply : Reply} (hw : ReachableAnyhow sys hash w)
      (h : op.run sys hash w = .ok reply w') : ReachableAnyhow sys hash w'
  | failed {w w' : World σ} {op : Op} {e : Fail} (hw : ReachableAnyhow sys hash w)
      (h : op.run sys hash w = .error e w') (he : e.Returns) : ReachableAnyhow sys hash w'

/-- Two runs of one function ended in the same way, unless an external call failed in one of
    them. -/
def Agree {σ : Type} : EStateM.Result Fail (World σ) Reply → EStateM.Result Fail (World σ) Reply →
    Prop
  | .ok reply _, .ok reply' _ => reply = reply'
  | .error (.io _) _, _ => True
  | _, .error (.io _) _ => True
  | .error e _, .error e' _ => e = e'
  | _, _ => False

/-- What can be seen of the store is the same in both states. -/
structure Unchanged {σ : Type} (sys : Sys σ) (hash : List UInt8 → UInt64) (w w' : World σ) :
    Prop where
  size : kvdbSize w'.kvdb = kvdbSize w.kvdb
  waste : kvdbWaste w'.kvdb = kvdbWaste w.kvdb
  lookups : ∀ key val valLen, (Op.lookup key val valLen).ArgsOk →
    Agree (kvdbLookup sys hash key val valLen w) (kvdbLookup sys hash key val valLen w')

variable {σ : Type} {sys : Sys σ} {log : σ → List UInt8} {hash : List UInt8 → UInt64}
  {w w' : World σ}

/-- What holds of every state. -/
structure Usable (log : σ → List UInt8) (w : World σ) : Prop where
  index : w.kvdb.index.WF
  size : w.kvdb.kvraw.size.toNat ≤ (log w.sys).length

/-- Nothing that lookups depend on was lost. -/
structure Kept (log : σ → List UInt8) (w w' : World σ) : Prop where
  kvraw : w'.kvdb.kvraw = w.kvdb.kvraw
  head : w'.kvdb.index.head = w.kvdb.index.head
  log : log w.sys <+: log w'.sys

/-- The counters are the same. -/
def SameCounters (w w' : World σ) : Prop :=
  w'.kvdb.size = w.kvdb.size ∧ w'.kvdb.waste = w.kvdb.waste

/-- What a call leaves that did not return 0 or +1. `counts` says that it counts before it
    appends. -/
structure Failed (log : σ → List UInt8) (counts : Prop) (w : World σ) (e : Fail) (w' : World σ) :
    Prop where
  usable : Usable log w'
  kept : Kept log w w'
  counters : ∀ c, e = .io c → (SameCounters w w' ↔ ¬ (counts ∧ c = .logfsAppend))

/-- The store itself is as it was. -/
theorem Failed.of_kvdb {counts : Prop} {e : Fail} (h : Usable log w) (hkvdb : w'.kvdb = w.kvdb)
    (hlog : log w.sys <+: log w'.sys) (he : ¬ (counts ∧ e = .io .logfsAppend)) :
    Failed log counts w e w' := by
  refine ⟨⟨?_, ?_⟩, ⟨by rw [hkvdb], by rw [hkvdb], hlog⟩, ?_⟩
  · rw [hkvdb]
    exact h.index
  · rw [hkvdb]
    exact h.size.trans hlog.length_le
  · rintro c rfl
    rw [iff_true_intro (show SameCounters w w' from ⟨by rw [hkvdb], by rw [hkvdb]⟩), true_iff]
    rintro ⟨hcounts, rfl⟩
    exact he ⟨hcounts, rfl⟩

/-- A failure of a later part of a call, the earlier part having kept everything. -/
theorem Failed.trans {counts : Prop} {e : Fail} {w₁ : World σ} (hkept : Kept log w w₁)
    (hsame : SameCounters w w₁) (h : Failed log counts w₁ e w') : Failed log counts w e w' := by
  refine ⟨h.usable, ⟨h.kept.kvraw.trans hkept.kvraw, h.kept.head.trans hkept.head,
    hkept.log.trans h.kept.log⟩, fun c hc => ?_⟩
  rw [← h.counters c hc]
  unfold SameCounters
  rw [hsame.1, hsame.2]

/-! ## The parts of a call -/

variable (hsys : sys.Documented log)
include hsys

theorem appendRef_usable {key val : List UInt8} {ref : ℕ} (h : Usable log w)
    (hset : ∀ off, (w.kvdb.index.setOff ref off).WF) :
    wp (appendRef sys key val ref) (fun _ w' => Usable log w')
      (fun e w' => w'.kvdb = w.kvdb ∧ log w.sys <+: log w'.sys ∧
        (e = .io .logfsAppend ∨ e = .assertion)) w := by
  refine (appendRef_wp hsys key val ref).mono ?_ ?_
  · rintro - w' ⟨-, -, hindex, hsize, hlog⟩
    have hle := h.size
    refine ⟨by rw [hindex]; exact hset _, ?_⟩
    rw [hsize, hlog, List.length_append, UInt64.toNat_add, UInt64.toNat_ofNat']
    exact (Nat.mod_le _ _).trans (Nat.add_le_add hle (Nat.mod_le _ _))
  · rintro e w' ⟨hkvdb, hlog, he⟩
    exact ⟨hkvdb, hlog, he.imp_right And.left⟩

theorem mutateFound_failed {mode : Mode} {key : List UInt8} {val : Option (List UInt8)}
    {valLen : Option UInt64} {ref : ℕ} {out : ChainOut} (h : Usable log w)
    (hset : ∀ off, (w.kvdb.index.setOff ref off).WF) :
    wp (mutateFound sys key val valLen ref out mode) (fun _ w' => Usable log w')
      (Failed log (mode = .update) w) w := by
  refine mutateFound_rule (fun _ => h) fun size waste hmoved => ?_
  refine (appendRef_usable (w := ⟨{ w.kvdb with size := size, waste := waste }, w.sys⟩) hsys
    ⟨h.index, h.size⟩ hset).mono (fun _ w₁ h₁ _ _ _ _ => ⟨h₁.index, h₁.size⟩) ?_
  rintro e w₁ ⟨hkvdb, hlog, he⟩
  refine ⟨⟨by rw [hkvdb]; exact h.index, by rw [hkvdb]; exact h.size.trans hlog.length_le⟩,
    ⟨by rw [hkvdb], by rw [hkvdb], hlog⟩, ?_⟩
  -- the counters are as they were unless they moved before the append
  rintro c rfl
  have hc : c = .logfsAppend := by simpa using he
  have hcounters : SameCounters w w₁ ↔ size = w.kvdb.size ∧ waste = w.kvdb.waste := by
    unfold SameCounters
    rw [hkvdb]
  rw [hcounters, hmoved]
  tauto

theorem mutate_failed {mode : Mode} {key : List UInt8} {val : Option (List UInt8)}
    {valLen : Option UInt64} (h : Usable log w) :
    wp (mutate sys hash key val valLen mode) (fun _ w' => Usable log w')
      (Failed log (mode = .update) w) w := by
  unfold mutate
  refine wp.bind (wp.getState ?_)
  refine wp.bind ((onSys_wp (indexUpdate_wp hsys h.index key)).mono ?_ ?_)
  · rintro ⟨index, ref⟩ w₁ ⟨h₁, hlog₁, -, hwf, hhead, -, hset⟩
    refine wp.bind (wp.modifyState ?_)
    -- the index may have grown or have a new slot
    have hkept : ∀ {w₂ : World σ}, w₂.kvdb = { w₁.kvdb with index := index } →
        log w₂.sys = log w₁.sys → Usable log w₂ ∧ Kept log w w₂ ∧ SameCounters w w₂ := by
      intro w₂ h₂ hlog₂
      refine ⟨⟨?_, ?_⟩, ⟨?_, ?_, ?_⟩, ?_⟩
      · rw [h₂]
        exact hwf
      · rw [h₂, hlog₂, hlog₁, h₁]
        exact h.size
      · rw [h₂, h₁]
      · rw [h₂]
        exact hhead
      · rw [hlog₂, hlog₁]
      · rw [SameCounters, h₂, h₁]
        exact ⟨rfl, rfl⟩
    refine wp.bind ((onSys_wp (w := ⟨{ w₁.kvdb with index := index }, w₁.sys⟩)
      (chainLookup_log hsys _ _ _ _)).mono ?_ ?_)
    · rintro out w₂ ⟨h₂, hlog₂⟩
      obtain ⟨husable, hkept₂, hsame⟩ := hkept h₂ hlog₂
      refine (mutateFound_failed hsys husable ?_).mono (fun _ _ h => h)
        fun e w₃ h₃ => .trans hkept₂ hsame h₃
      rw [h₂]
      exact fun off => (hset off).1
    · rintro e w₂ ⟨h₂, hlog₂, he⟩
      obtain ⟨husable, hkept₂, hsame⟩ := hkept h₂ hlog₂
      exact .trans hkept₂ hsame (.of_kvdb husable rfl List.prefix_rfl fun hc => he hc.2)
  · rintro e w₁ ⟨h₁, hlog₁, he⟩
    refine .of_kvdb h h₁ (by rw [hlog₁]) ?_
    rintro ⟨-, rfl⟩
    simp at he

/-- The call is `kvdb_update`. -/
def Op.IsUpdate (op : Op) : Prop := ∃ key val, op = .update key val

/-- **A call that fails**, from any state. -/
theorem Op.run_failed (op : Op) (h : Usable log w) :
    wp (op.run sys hash) (fun _ w' => Usable log w') (Failed log op.IsUpdate w) w := by
  have hthrow : ∀ counts : Prop, Failed log counts w .assertion w := fun counts =>
    .of_kvdb h rfl List.prefix_rfl fun hc => by cases hc.2
  have hmutate : ∀ (mode : Mode) (key : List UInt8) (val : Option (List UInt8))
      (valLen : Option UInt64), (mode = .update ↔ op.IsUpdate) →
      wp (mutate sys hash key val valLen mode) (fun _ w' => Usable log w')
        (Failed log op.IsUpdate w) w := by
    intro mode key val valLen hmode
    rw [← propext hmode]
    exact mutate_failed hsys h
  have hstore : ∀ (mode : Mode) (key val : List UInt8), (mode = .update ↔ op.IsUpdate) →
      wp (kvdbStore sys hash mode key val) (fun _ w' => Usable log w')
        (Failed log op.IsUpdate w) w := by
    intro mode key val hmode
    unfold kvdbStore
    split
    · exact hthrow _
    split
    · exact hthrow _
    · exact hmutate _ _ _ _ hmode
  cases op with
  | insert key val => exact hstore .insert key val (by simp [Op.IsUpdate])
  | update key val => exact hstore .update key val (by simp [Op.IsUpdate])
  | replace key val => exact hstore .replace key val (by simp [Op.IsUpdate])
  | remove key val valLen =>
      show wp (kvdbRemove sys hash key val valLen) _ _ w
      unfold kvdbRemove
      split
      · exact hthrow _
      split
      · exact hthrow _
      · exact hmutate _ _ _ _ (by simp [Op.IsUpdate])
  | lookup key val valLen =>
      refine (kvdbLookup_shows hsys h.size).mono ?_ ?_
      · rintro reply w' ⟨hkvdb, hlog, -⟩
        exact ⟨by rw [hkvdb]; exact h.index, by rw [hkvdb, hlog]; exact h.size⟩
      · rintro e w' ⟨hkvdb, hlog, -⟩
        exact .of_kvdb h hkvdb (by rw [hlog]) (by simp [Op.IsUpdate])

theorem ReachableAnyhow.usable (h : ReachableAnyhow sys hash w) : Usable log w := by
  induction h with
  | opened h =>
      obtain ⟨junk, hinv⟩ : ∃ junk, Inv log hash junk [] _ := (kvdbOpen_wp hsys _ _).ok h
      exact ⟨hinv.shape.index, le_of_eq hinv.shape.size⟩
  | called _ h ih => exact (Op.run_failed hsys _ ih).ok h
  | failed _ h _ ih => exact ((Op.run_failed hsys _ ih).error h).usable

/-! ## What lookups see -/

omit hsys in
/-- What is appended to the log is not read. -/
theorem metaView_of_prefix {kvraw : Kvraw} {l l' : List UInt8} (hsize : kvraw.size.toNat ≤ l.length)
    (hl : l <+: l') (off : UInt64) : kvraw.metaView l' off = kvraw.metaView l off := by
  unfold Kvraw.metaView
  split
  · rfl
  rename_i hlow
  split
  · rfl
  rename_i hwrap
  have hbase := Kvraw.toNat_off_add hlow hwrap
  rw [Bytes.slice_of_prefix hl (show off.toNat + 16 ≤ l.length by omega)]

omit hsys in
theorem chainView_of_prefix {kvraw : Kvraw} {l l' key : List UInt8} {valLen : UInt64}
    (hsize : kvraw.size.toNat ≤ l.length) (hlt : l.length < 2 ^ 63) (hl : l <+: l') (n : ℕ) :
    ∀ (val : Option (List UInt8)) (off : UInt64),
      chainView kvraw l' key valLen n val off = chainView kvraw l key valLen n val off := by
  induction n with
  | zero => intro val off; rfl
  | succ n ih =>
      intro val off
      rw [chainView, chainView, metaView_of_prefix hsize hl off]
      cases hm : kvraw.metaView l off with
      | error e => rfl
      | ok m =>
          have hle := Kvraw.metaView_le (by omega) hm
          have hk : keyView l' off m = keyView l off m :=
            Bytes.slice_of_prefix hl (by omega)
          have hv : valView l' off m = valView l off m :=
            Bytes.slice_of_prefix hl (by omega)
          simp only [hk, hv, ih]

omit hsys in
theorem Kept.lookupView (h : Kept log w w') (hw : Usable log w) (hlt : (log w.sys).length < 2 ^ 63)
    (key : List UInt8) (val : Option (List UInt8)) (valLen : Option UInt64) :
    w'.kvdb.lookupView hash (log w'.sys) key val valLen =
      w.kvdb.lookupView hash (log w.sys) key val valLen := by
  unfold Kvdb.lookupView
  rw [h.head, h.kvraw, chainView_of_prefix hw.size hlt h.log]

/-- The call ends as the view shows, unless an external call fails. -/
def Tells (view : Except Fail Reply) (x : KM σ Reply) (w : World σ) : Prop :=
  wp x (fun reply _ => view = .ok reply) (fun e _ => (∃ c, e = .io c) ∨ view = .error e) w

omit hsys in
theorem agree_of_tells {view : Except Fail Reply} {x : KM σ Reply} (h : Tells view x w)
    (h' : Tells view x w') : Agree (x w) (x w') := by
  unfold Tells wp at h h'
  cases hx : x w with
  | ok reply s =>
      rw [hx] at h
      cases hx' : x w' with
      | ok reply' s' =>
          rw [hx'] at h'
          exact Except.ok.inj (h.symm.trans h')
      | error e' s' =>
          rw [hx'] at h'
          rcases h' with ⟨c, rfl⟩ | h'
          · exact trivial
          · exact absurd (h.symm.trans h') (by simp)
  | error e s =>
      rw [hx] at h
      rcases h with ⟨c, rfl⟩ | h
      · exact trivial
      cases hx' : x w' with
      | ok reply' s' =>
          rw [hx'] at h'
          exact absurd (h.symm.trans h') (by simp)
      | error e' s' =>
          rw [hx'] at h'
          rcases h' with ⟨c, rfl⟩ | h'
          · cases e <;> exact trivial
          · obtain rfl := Except.error.inj (h.symm.trans h')
            cases e <;> first | exact trivial | exact rfl

theorem Kept.agree (h : Kept log w w') (hw : Usable log w) (hw' : Usable log w') {key : List UInt8}
    {val : Option (List UInt8)} {valLen : Option UInt64} (hok : (Op.lookup key val valLen).ArgsOk) :
    Agree (kvdbLookup sys hash key val valLen w) (kvdbLookup sys hash key val valLen w') := by
  have htells : ∀ {w : World σ}, Usable log w →
      Tells (w.kvdb.lookupView hash (log w.sys) key val valLen)
        (kvdbLookup sys hash key val valLen) w := fun hw =>
    (kvdbLookup_shows hsys hw.size).mono (fun _ _ h => h.2.2) fun _ _ h =>
      h.2.2.imp_right (Or.resolve_right · fun hbad => hbad.1 hok)
  have htells' := htells hw'
  rw [h.lookupView hw (hsys.log_length w.sys)] at htells'
  exact agree_of_tells (htells hw) htells'

/-- **Failed calls**: the store is as it was exactly if the call is not a `kvdb_update` whose append
    failed. -/
theorem unchanged_iff (h : ReachableAnyhow sys hash w) {op : Op} {c : Cause}
    (hrun : op.run sys hash w = .error (.io c) w') :
    Unchanged sys hash w w' ↔ ¬ (op.IsUpdate ∧ c = .logfsAppend) := by
  have husable := h.usable hsys
  have hfailed := (op.run_failed hsys husable).error hrun
  rw [← hfailed.counters c rfl]
  constructor
  · exact fun hu => ⟨hu.size, hu.waste⟩
  · -- the lookups answer the same in any case
    exact fun hs => ⟨hs.1, hs.2, fun key val valLen hok =>
      hfailed.kept.agree hsys husable hfailed.usable hok⟩

omit hsys in
theorem Reachable.anyhow (h : Reachable sys hash w) : ReachableAnyhow sys hash w := by
  induction h with
  | opened h => exact .opened h
  | called _ h ih => exact ih.called h

omit hsys in
theorem reachableAnyhow_stored : ReachableAnyhow Memory.sys (fun _ => 1) stored :=
  reachable_stored.anyhow

omit hsys in
/-- An empty store on a log in memory whose next append fails. -/
def failing : World Memory := ⟨opened.kvdb, openedOn [false]⟩

omit hsys in
theorem reachable_failing : ReachableAnyhow Memory.sys (fun _ => 1) failing :=
  .opened (show kvdbOpen Memory.sys "log" (Memory.empty [true, true, true, false]) =
    .ok failing.kvdb failing.sys from rfl)

omit hsys in
/-- It after a call that failed. -/
def afterFailing (op : Op) : World Memory :=
  match op.run Memory.sys (fun _ => 1) failing with
  | .ok _ w => w
  | .error _ w => w

omit hsys in
theorem unchanged_iff_memory :
    Unchanged Memory.sys (fun _ => 1) failing (afterFailing (.insert [107] [118])) ↔
      ¬ (Op.IsUpdate (.insert [107] [118]) ∧ Cause.logfsAppend = .logfsAppend) :=
  unchanged_iff Memory.documented reachable_failing (show
    Op.run Memory.sys (fun _ => 1) (.insert [107] [118]) failing =
      .error (.io .logfsAppend) (afterFailing (.insert [107] [118])) from rfl)

omit hsys in
/-- The size is counted up although nothing is stored. -/
theorem failed_update_counts :
    ReachableAnyhow Memory.sys (fun _ => 1) failing ∧
      Op.run Memory.sys (fun _ => 1) (.update [107] [118]) failing =
        .error (.io .logfsAppend) (afterFailing (.update [107] [118])) ∧
      ¬ Unchanged Memory.sys (fun _ => 1) failing (afterFailing (.update [107] [118])) := by
  refine ⟨reachable_failing, rfl, fun h => ?_⟩
  have hsize : kvdbSize (afterFailing (.update [107] [118])).kvdb = 1 := rfl
  rw [h.size] at hsize
  exact absurd hsize (by decide)

end CS238P.Store
