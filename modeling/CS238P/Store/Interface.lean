import CS238P.Store.Invariant
import CS238P.Store.Memory

set_option autoImplicit false

/-! # The calls of the interface

`Op.run_wp` is the contract of all five functions. Every state that calls of them lead to from
`kvdb_open` keeps the invariant (`Reachable.inv`), whatever the hash function is. -/

namespace CS238P.Store

/-! ## What a call asks for -/

/-- The key of the call. -/
def Op.key : Op → List UInt8
  | .insert key _ => key
  | .update key _ => key
  | .replace key _ => key
  | .remove key _ _ => key
  | .lookup key _ _ => key

/-- The assertions of the function, and that the value buffer is as long as `*val_len` says (so it
    is not NULL unless `*val_len` is zero). -/
def Op.ArgsOk : Op → Prop
  | .insert key val => KeyOk key ∧ ValOk val
  | .update key val => KeyOk key ∧ ValOk val
  | .replace key val => KeyOk key ∧ ValOk val
  | .remove key val valLen =>
      KeyOk key ∧ ¬ (valLen = some 0 ∧ val = none) ∧ ∀ cap, valLen = some cap → Holds val cap
  | .lookup key val valLen => KeyOk key ∧ ∀ cap, valLen = some cap → Holds val cap

/-- What the call writes if it returns 0. -/
def Op.record : Op → Option Rec
  | .insert key val => some ⟨key, val⟩
  | .update key val => some ⟨key, val⟩
  | .replace key val => some ⟨key, val⟩
  | .remove key _ _ => some ⟨key, []⟩
  | .lookup _ _ _ => none

/-- The hash of the key has room, if the call writes. -/
def Op.HasRoom (hash : List UInt8 → UInt64) (op : Op) (index : Index) : Prop :=
  op.record ≠ none → index.HasRoom (hashKey hash op.key)

/-- The code that the call returns, by whether its key is bound. -/
def Op.code : Op → Bool → Code
  | .insert _ _, bound => if bound then .plusOne else .zero
  | .update _ _, _ => .zero
  | .replace _ _, bound => if bound then .zero else .plusOne
  | .remove _ _ _, bound => if bound then .zero else .plusOne
  | .lookup _ _ _, bound => if bound then .zero else .plusOne

/-- The records after the call. -/
def Op.after (op : Op) (recs : List Rec) (code : Code) : List Rec :=
  match op.record with
  | some r => wrote recs r code
  | none => recs

/-- The value `v` of the key is in the reply, if the call asks for it. -/
def Op.Delivers : Op → List UInt8 → Reply → Prop
  | .remove _ val valLen, v, reply => Store.Delivers val valLen v reply
  | .lookup _ val valLen, v, reply => Store.Delivers val valLen v reply
  | _, _, _ => True

variable {σ : Type} {sys : Sys σ} {log : σ → List UInt8} (hsys : sys.Documented log)
  {hash : List UInt8 → UInt64} {junk : UInt64} {recs : List Rec} {w : World σ}

/-! ## The functions -/

include hsys

/-- **`kvdb_insert`, `kvdb_update` and `kvdb_replace`.** -/
theorem kvdbStore_wp {mode : Mode} {key val : List UInt8} (hmode : mode ≠ .remove)
    (h : Inv log hash junk recs w) :
    wp (kvdbStore sys hash mode key val)
      (fun reply w' => reply.code = mode.code (value recs key).isSome ∧
        Inv log hash junk (wrote recs ⟨key, val⟩ reply.code) w')
      (fun e _ => MayFail (w.kvdb.index.HasRoom (hashKey hash key)) (¬ (KeyOk key ∧ ValOk val)) e)
      w := by
  unfold kvdbStore
  split
  · exact .inr (.inr ⟨by tauto, .inl rfl⟩)
  split
  · exact .inr (.inr ⟨by tauto, .inl rfl⟩)
  rename_i hkey hval
  rw [not_not] at hkey hval
  obtain ⟨hne, hle⟩ := hval
  have hstores := Mode.stores_length hmode hle
  refine (mutate_wp hsys h hkey (by rwa [hstores]) fun _ => ?_).mono ?_ ?_
  · rw [hstores]
    rintro rfl
    exact hne rfl
  · rintro reply w' ⟨hcode, hinv, -⟩
    rw [hstores] at hinv
    exact ⟨hcode, hinv⟩
  · exact fun e _ he => he.mono id fun hbad => absurd hbad.1 hmode

theorem kvdbRemove_wp {key : List UInt8} {val : Option (List UInt8)} {valLen : Option UInt64}
    (h : Inv log hash junk recs w) :
    wp (kvdbRemove sys hash key val valLen)
      (fun reply w' => reply.code = Mode.remove.code (value recs key).isSome ∧
        Inv log hash junk (wrote recs ⟨key, []⟩ reply.code) w' ∧
        ∀ v, value recs key = some v → Delivers val valLen v reply)
      (fun e _ => MayFail (w.kvdb.index.HasRoom (hashKey hash key))
        (¬ Op.ArgsOk (.remove key val valLen)) e) w := by
  unfold kvdbRemove Op.ArgsOk
  split
  · exact .inr (.inr ⟨by tauto, .inl rfl⟩)
  split
  · exact .inr (.inr ⟨by tauto, .inl rfl⟩)
  rename_i hkey _
  rw [not_not] at hkey
  refine (mutate_wp hsys h hkey (Nat.zero_le _) fun hne => absurd rfl hne).mono ?_ ?_
  · rintro reply w' ⟨hcode, hinv, hout⟩
    exact ⟨hcode, hinv, hout rfl⟩
  · refine fun e _ he => he.mono id ?_
    rintro ⟨-, cap, rfl, hbad⟩ ⟨-, -, hok⟩
    exact hbad (hok cap rfl)

omit hsys in
/-- What `kvdb_lookup` answers from this store when the log is `l`. -/
def Kvdb.lookupView (hash : List UInt8 → UInt64) (kvdb : Kvdb) (l key : List UInt8)
    (val : Option (List UInt8)) (valLen : Option UInt64) : Except Fail Reply :=
  if kvdb.index.head (hashKey hash key) = 0 then .ok ⟨.plusOne, val, valLen⟩
  else
    match chainView kvdb.kvraw l key (valLen.getD 0) (kvdb.kvraw.size.toNat + 1)
      (if valLen = none then none else val) (kvdb.index.head (hashKey hash key)) with
    | .error e => .error e
    | .ok out =>
        let val' := if valLen = none then val else out.val
        if out.off = 0 ∨ out.valLen = 0 then .ok ⟨.plusOne, val', valLen⟩
        else .ok ⟨.zero, val', valLen.map fun _ => out.valLen⟩

/-- **`kvdb_lookup`** answers what the view shows, unless a call fails or the caller broke the
    contract. -/
theorem kvdbLookup_shows (hsize : w.kvdb.kvraw.size.toNat ≤ (log w.sys).length) {key : List UInt8}
    {val : Option (List UInt8)} {valLen : Option UInt64} :
    wp (kvdbLookup sys hash key val valLen)
      (fun reply w' => w'.kvdb = w.kvdb ∧ log w'.sys = log w.sys ∧
        w.kvdb.lookupView hash (log w.sys) key val valLen = .ok reply)
      (fun e w' => w'.kvdb = w.kvdb ∧ log w'.sys = log w.sys ∧
        ((∃ c, e = .io c) ∨ w.kvdb.lookupView hash (log w.sys) key val valLen = .error e ∨
          (¬ Op.ArgsOk (.lookup key val valLen) ∧ (e = .assertion ∨ e = .outOfBounds)))) w := by
  unfold kvdbLookup Op.ArgsOk
  split
  · exact ⟨rfl, rfl, .inr (.inr ⟨by tauto, .inl rfl⟩)⟩
  split
  · rename_i hbuf
    obtain ⟨hsome, hne, rfl⟩ := hbuf
    obtain ⟨cap, rfl⟩ := Option.ne_none_iff_exists'.1 hsome
    refine ⟨rfl, rfl, .inr (.inr ⟨fun hok => hne ?_, .inl rfl⟩)⟩
    have hzero := Nat.le_zero.1 (hok.2 cap rfl)
    rw [UInt64.toNat_inj.1 (show cap.toNat = (0 : UInt64).toNat from hzero)]
  rename_i hkey _
  rw [not_not] at hkey
  unfold Kvdb.lookupView
  refine wp.bind (wp.getState ?_)
  refine wp.bind ((onSys_wp (indexLookup_wp w.kvdb.index key)).mono ?_ ?_)
  · rintro ref ⟨kvdb₁, s₁⟩ ⟨rfl, rfl, -, hhead⟩
    rw [← hhead]
    -- NULL and an offset of zero are both the end of a chain
    cases ref with
    | none => exact ⟨rfl, rfl, rfl⟩
    | some off =>
        simp only [Option.getD_some]
        split
        · exact ⟨rfl, rfl, rfl⟩
        refine wp.bind ((onSys_wp (chainLookup_finds hsys hsize hkey.length_lt _ _ off)).mono ?_ ?_)
        · rintro out w₂ ⟨h₂, hlog₂, hview⟩
          rw [hview]
          simp only
          split
          · exact ⟨h₂, hlog₂, rfl⟩
          · exact ⟨h₂, hlog₂, rfl⟩
        · rintro e w₂ ⟨h₂, hlog₂, rfl | rfl | hview | ⟨hbad, he⟩⟩
          · exact ⟨h₂, hlog₂, .inl ⟨_, rfl⟩⟩
          · exact ⟨h₂, hlog₂, .inl ⟨_, rfl⟩⟩
          · rw [hview]
            exact ⟨h₂, hlog₂, .inr (.inl rfl)⟩
          · refine ⟨h₂, hlog₂, .inr (.inr ⟨fun hok => hbad ?_, he⟩)⟩
            cases valLen with
            | none => exact Nat.zero_le _
            | some cap => exact hok.2 cap rfl
  · rintro e w₁ ⟨-, -, -, hempty⟩
    exact absurd hempty hkey.ne_nil

/-- The answer of `kvdb_lookup` is what the newest record of the key says. -/
theorem kvdbLookup_wp {key : List UInt8} {val : Option (List UInt8)} {valLen : Option UInt64}
    (h : Inv log hash junk recs w) :
    wp (kvdbLookup sys hash key val valLen)
      (fun reply w' => reply.code = (Op.lookup key val valLen).code (value recs key).isSome ∧
        Inv log hash junk recs w' ∧ ∀ v, value recs key = some v → Delivers val valLen v reply)
      (fun e _ => MayFail True (¬ Op.ArgsOk (.lookup key val valLen)) e) w := by
  have hlt := hsys.log_length w.sys
  have hend := h.shape.endOff_lt hlt
  have hview := h.shape.chainView hlt key (valLen.getD 0) (if valLen = none then none else val)
  have hsize := h.shape.size
  refine (kvdbLookup_shows hsys (by omega)).mono ?_ ?_
  · rintro reply w' ⟨h', hlog, hreply⟩
    have hinv : Inv log hash junk recs w' :=
      ⟨by rw [h', hlog]; exact h.shape, by rw [h']; exact h.counted⟩
    unfold Kvdb.lookupView at hreply
    rw [h.shape.head, hview] at hreply
    split at hreply
    · rename_i h0
      cases hreply
      rw [value_of_newest hend h0]
      exact ⟨rfl, hinv, fun v h => by cases h⟩
    simp only at hreply
    by_cases hv : value recs key = none
    · rw [if_pos ((searched_iff key _ hend h.shape.ok _).2 hv)] at hreply
      cases hreply
      rw [hv]
      exact ⟨rfl, hinv, fun v h => by cases h⟩
    · rw [if_neg (mt (searched_iff key _ hend h.shape.ok _).1 hv)] at hreply
      cases hreply
      rw [Option.isSome_iff_ne_none.2 hv]
      refine ⟨rfl, hinv, fun v hv cap hcap => ?_⟩
      subst hcap
      exact delivers_searched hend h.shape.ok hv rfl rfl cap rfl
  · rintro e w' ⟨-, -, hio | herror | hbad⟩
    · exact .inl hio
    · unfold Kvdb.lookupView at herror
      rw [h.shape.head, hview, apply_ite (· = Except.error e), apply_ite (· = Except.error e)]
        at herror
      simp at herror
    · exact .inr (.inr hbad)

/-- **A call of the interface.** -/
theorem Op.run_wp (op : Op) (h : Inv log hash junk recs w) :
    wp (op.run sys hash)
      (fun reply w' => reply.code = op.code (value recs op.key).isSome ∧
        Inv log hash junk (op.after recs reply.code) w' ∧
        ∀ v, value recs op.key = some v → op.Delivers v reply)
      (fun e _ => MayFail (op.HasRoom hash w.kvdb.index) (¬ op.ArgsOk) e) w := by
  cases op with
  | insert key val =>
      refine (kvdbStore_wp hsys (by decide) h).mono ?_ ?_
      · exact fun reply w' h => ⟨h.1, h.2, fun _ _ => trivial⟩
      · exact fun e _ he => he.mono (fun hroom => hroom (by simp [Op.record])) id
  | update key val =>
      refine (kvdbStore_wp hsys (by decide) h).mono ?_ ?_
      · exact fun reply w' h => ⟨h.1, h.2, fun _ _ => trivial⟩
      · exact fun e _ he => he.mono (fun hroom => hroom (by simp [Op.record])) id
  | replace key val =>
      refine (kvdbStore_wp hsys (by decide) h).mono ?_ ?_
      · exact fun reply w' h => ⟨h.1, h.2, fun _ _ => trivial⟩
      · exact fun e _ he => he.mono (fun hroom => hroom (by simp [Op.record])) id
  | remove key val valLen =>
      refine (kvdbRemove_wp hsys h).mono (fun reply w' h => h) ?_
      exact fun e _ he => he.mono (fun hroom => hroom (by simp [Op.record])) id
  | lookup key val valLen =>
      refine (kvdbLookup_wp hsys h).mono (fun reply w' h => h) ?_
      exact fun e _ he => he.mono (fun _ => trivial) id

/-- `kvdb_open` makes an empty store. -/
theorem kvdbOpen_wp (pathname : String) (s : σ) :
    wp (kvdbOpen sys pathname)
      (fun kvdb s' => ∃ junk, Inv log hash junk [] ⟨kvdb, s'⟩) (fun _ _ => True) s := by
  unfold kvdbOpen
  split
  · exact trivial
  refine wp.bind ((mallocOr_wp hsys _ _).mono ?_ fun _ _ _ => trivial)
  rintro - s₁ -
  refine wp.bind ((kvrawOpen_wp hsys.logs pathname).mono ?_ fun _ _ _ => trivial)
  rintro kvraw s₂ ⟨junk, hlog, hsize⟩
  refine wp.bind (wp.bind ((mallocOr_wp hsys _ _).mono ?_ fun _ _ _ => trivial))
  rintro - s₃ ⟨h₃, -⟩
  refine ⟨junk, ⟨fun _ hr => absurd hr List.not_mem_nil, ?_, ?_, wf_empty, fun _ => rfl⟩,
    ⟨rfl, rfl⟩⟩
  · exact h₃.trans hlog
  · exact hsize.trans (congrArg List.length h₃.symm)

/-! ## Reachable states -/

/-- All calls of the run return 0 or +1. -/
def runAll (sys : Sys σ) (hash : List UInt8 → UInt64) : List Op → KM σ Unit
  | [] => pure ()
  | op :: rest => do
      let _ ← op.run sys hash
      runAll sys hash rest

omit hsys in
/-- The states that calls which returned 0 or +1 lead to from `kvdb_open`. -/
inductive Reachable (sys : Sys σ) (hash : List UInt8 → UInt64) : World σ → Prop
  | opened {pathname : String} {s₀ s : σ} {kvdb : Kvdb}
      (h : kvdbOpen sys pathname s₀ = .ok kvdb s) : Reachable sys hash ⟨kvdb, s⟩
  | called {w w' : World σ} {op : Op} {reply : Reply} (hw : Reachable sys hash w)
      (h : op.run sys hash w = .ok reply w') : Reachable sys hash w'

omit hsys in
theorem Reachable.runAll_wp (ops : List Op) : ∀ {w : World σ}, Reachable sys hash w →
    wp (runAll sys hash ops) (fun _ w' => Reachable sys hash w') (fun _ _ => True) w := by
  induction ops with
  | nil => exact fun h => h
  | cons op rest ih =>
      intro w h
      exact wp.bind (wp.of_returns fun reply w' hrun => ih (h.called hrun))

theorem Reachable.inv (h : Reachable sys hash w) : ∃ junk recs, Inv log hash junk recs w := by
  induction h with
  | opened h =>
      obtain ⟨junk, hinv⟩ := (kvdbOpen_wp hsys _ _).ok h
      exact ⟨junk, [], hinv⟩
  | @called w w' op reply _ h ih =>
      obtain ⟨junk, recs, hinv⟩ := ih
      exact ⟨junk, _, ((op.run_wp hsys hinv).ok h).2.1⟩

/-! ## A store in memory -/

omit hsys in
/-- The reply of a call that returned 0 or +1. -/
def replied : EStateM.Result Fail (World σ) Reply → Option Reply
  | .ok reply _ => some reply
  | .error _ _ => none

omit hsys in
theorem exists_of_replied {r : EStateM.Result Fail (World σ) Reply} {reply : Reply}
    (h : replied r = some reply) : ∃ w', r = .ok reply w' := by
  cases r with
  | ok reply' w' =>
      cases h
      exact ⟨w', rfl⟩
  | error e w' => cases h

/-- A store that was opened on an empty log. -/
def opened : World Memory := ⟨⟨0, 0, ⟨18⟩, .empty⟩, openedOn []⟩

/-- The same after a key was inserted; all keys have the hash 1. -/
def stored : World Memory :=
  match Op.run Memory.sys (fun _ => 1) (.insert [107] [118]) opened with
  | .ok _ w => w
  | .error _ w => w

omit hsys in
theorem reachable_opened (hash : List UInt8 → UInt64) : Reachable Memory.sys hash opened :=
  .opened (show kvdbOpen Memory.sys "log" (Memory.empty []) = .ok opened.kvdb opened.sys from rfl)

omit hsys in
theorem reachable_stored : Reachable Memory.sys (fun _ => 1) stored :=
  .called (reachable_opened _) (show Op.run Memory.sys (fun _ => 1) (.insert [107] [118]) opened =
    .ok ⟨.zero, some [118], some 1⟩ stored from rfl)

omit hsys in
/-- The state that a run leaves. -/
def ended : EStateM.Result Fail (World σ) Unit → World σ
  | .ok _ w => w
  | .error _ w => w

omit hsys in
def returned : EStateM.Result Fail (World σ) Unit → Bool
  | .ok _ _ => true
  | .error _ _ => false

omit hsys in
theorem reachable_ended {ops : List Op} (hw : Reachable sys hash w)
    (h : returned (runAll sys hash ops w) = true) :
    Reachable sys hash (ended (runAll sys hash ops w)) := by
  have hwp := Reachable.runAll_wp ops hw
  cases hrun : runAll sys hash ops w with
  | ok _ w' => exact hwp.ok hrun
  | error e w' =>
      rw [hrun] at h
      cases h

/-- A store with two keys on one chain, the first of which was removed: the records at 18, 37 and
    55. -/
def collided : World Memory :=
  ended (runAll Memory.sys (fun _ => 1)
    [.insert [120] [119, 119], .insert [107] [118], .remove [120] none none] opened)

omit hsys in
theorem reachable_collided : Reachable Memory.sys (fun _ => 1) collided :=
  reachable_ended (reachable_opened _) (by decide +kernel)

end CS238P.Store
