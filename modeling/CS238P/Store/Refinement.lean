import CS238P.Store.Interface
import Mathlib.Data.Set.Finite.Basic

set_option autoImplicit false

/-! # The store is a finite map

`KMap` is what the store is for, and `Op.Meets` what each call is to do with it. A run of calls from
`kvdb_open` complies with the map (`Complies`) exactly as long as every key that is written finds
room in the index (`RoomRun`): the probe of a large hash wraps around and can miss the free slots,
and then the process exits. -/

namespace CS238P.Store

/-! ## The map -/

/-- A finite map from keys to values that are not empty. -/
@[ext] structure KMap where
  get : List UInt8 → Option (List UInt8)
  finite : {key | get key ≠ none}.Finite
  nonempty : ∀ key, get key ≠ some []

def KMap.empty : KMap where
  get _ := none
  finite := by simp
  nonempty _ h := by cases h

/-- What a call that returns 0 makes of its key: it is bound to a value, it is unbound
    (`some none`), or it stays as it is. -/
def Op.writes : Op → Option (Option (List UInt8))
  | .insert _ val => some (some val)
  | .update _ val => some (some val)
  | .replace _ val => some (some val)
  | .remove _ _ _ => some none
  | .lookup _ _ _ => none

/-- What the call makes of the map. -/
def Op.effect (op : Op) (get : List UInt8 → Option (List UInt8)) (code : Code) :
    List UInt8 → Option (List UInt8) :=
  match op.writes, code with
  | some v, .zero => Function.update get op.key v
  | _, _ => get

/-- What the call is to answer for the map `m`, and the map `m'` that it is to leave. Whether it
    returns 0 or +1 is told by `Op.code`. -/
structure Op.Meets (op : Op) (m : KMap) (reply : Reply) (m' : KMap) : Prop where
  code : reply.code = op.code (m.get op.key).isSome
  get : m'.get = op.effect m.get reply.code
  delivers : ∀ v, m.get op.key = some v → op.Delivers v reply

theorem Op.Meets.unique {op : Op} {m m₁ m₂ : KMap} {reply : Reply} (h₁ : op.Meets m reply m₁)
    (h₂ : op.Meets m reply m₂) : m₁ = m₂ :=
  KMap.ext (h₁.get.trans h₂.get.symm)

/-- The map that the records stand for. -/
def KMap.ofRecs (recs : List Rec) : KMap where
  get := value recs
  finite := (LogMap.bound (Store.writes recs)).finite_toSet.subset fun _ h =>
    (LogMap.mem_bound _ _).2 (Option.isSome_iff_ne_none.2 h)
  nonempty := value_ne_nil recs

theorem value_wrote (recs : List Rec) (r : Rec) (code : Code) :
    value (wrote recs r code) =
      match code with
      | .zero => Function.update (value recs) r.key (if r.val = [] then none else some r.val)
      | .plusOne => value recs := by
  cases code with
  | zero => exact value_cons r recs
  | plusOne => rfl

/-- The records after a call stand for what it makes of the map. -/
theorem Op.value_after {op : Op} (hargs : op.ArgsOk) (recs : List Rec) (code : Code) :
    value (op.after recs code) = op.effect (value recs) code := by
  have hne : ∀ {val : List UInt8}, ValOk val → val ≠ [] := by
    rintro val hval rfl
    exact hval.1 rfl
  cases op with
  | insert key val =>
      refine (value_wrote recs ⟨key, val⟩ code).trans ?_
      rw [if_neg (hne hargs.2)]
      cases code <;> rfl
  | update key val =>
      refine (value_wrote recs ⟨key, val⟩ code).trans ?_
      rw [if_neg (hne hargs.2)]
      cases code <;> rfl
  | replace key val =>
      refine (value_wrote recs ⟨key, val⟩ code).trans ?_
      rw [if_neg (hne hargs.2)]
      cases code <;> rfl
  | remove key val valLen =>
      refine (value_wrote recs ⟨key, []⟩ code).trans ?_
      cases code <;> rfl
  | lookup key val valLen => rfl

/-! ## Runs -/

variable {σ : Type} (sys : Sys σ) (hash : List UInt8 → UInt64)

/-- Every call of the run does what is to be done with the map, as long as no external call
    fails. -/
def Complies : List Op → World σ → KMap → Prop
  | [], _, _ => True
  | op :: rest, w, m =>
      match op.run sys hash w with
      | .ok reply w' => ∃ m', op.Meets m reply m' ∧ Complies rest w' m'
      | .error (.io _) _ => True
      | .error _ _ => False

/-- At every call of the run that writes, the table is due to grow or has a slot for the hash. -/
def RoomRun : List Op → World σ → Prop
  | [], _ => True
  | op :: rest, w =>
      op.HasRoom hash w.kvdb.index ∧
        match op.run sys hash w with
        | .ok _ w' => RoomRun rest w'
        | .error _ _ => True

variable {sys} {hash} {log : σ → List UInt8} {junk : UInt64} {recs : List Rec} {w : World σ}

theorem mutate_exits {key : List UInt8} {val : Option (List UInt8)} {valLen : Option UInt64}
    {mode : Mode} (hkey : KeyOk key) (h : ¬ w.kvdb.index.HasRoom (hashKey hash key)) :
    wp (mutate sys hash key val valLen mode) (fun _ _ => False)
      (fun e _ => e = .exitSoftware) w := by
  unfold mutate
  refine wp.bind (wp.getState (wp.bind ?_))
  refine (onSys_wp (indexUpdate_exits hkey.ne_nil h w.sys)).mono ?_ ?_
  · exact fun _ _ h => h.2.elim
  · exact fun _ _ h => h.2

theorem Op.run_exits {op : Op} (hargs : op.ArgsOk) (h : ¬ op.HasRoom hash w.kvdb.index) :
    wp (op.run sys hash) (fun _ _ => False) (fun e _ => e = .exitSoftware) w := by
  unfold Op.HasRoom at h
  rw [Classical.not_imp] at h
  obtain ⟨hwrites, hroom⟩ := h
  have hstore : ∀ {mode : Mode} {key val : List UInt8}, KeyOk key ∧ ValOk val →
      ¬ w.kvdb.index.HasRoom (hashKey hash key) →
      wp (kvdbStore sys hash mode key val) (fun _ _ => False) (fun e _ => e = .exitSoftware) w := by
    rintro mode key val ⟨hkey, hval⟩ hroom
    unfold kvdbStore
    rw [if_neg (not_not.2 hkey), if_neg (not_not.2 hval)]
    exact mutate_exits hkey hroom
  cases op with
  | insert key val => exact hstore hargs hroom
  | update key val => exact hstore hargs hroom
  | replace key val => exact hstore hargs hroom
  | remove key val valLen =>
      show wp (kvdbRemove sys hash key val valLen) _ _ w
      unfold kvdbRemove
      rw [if_neg (not_not.2 hargs.1), if_neg hargs.2.1]
      exact mutate_exits hargs.1 hroom
  | lookup key val valLen => exact absurd rfl hwrites

/-- One run, from a state with the invariant. -/
theorem complies_iff_of_inv (hsys : sys.Documented log) (ops : List Op) :
    ∀ {recs : List Rec} {w : World σ}, Inv log hash junk recs w → (∀ op ∈ ops, op.ArgsOk) →
      (Complies sys hash ops w (.ofRecs recs) ↔ RoomRun sys hash ops w) := by
  induction ops with
  | nil => exact fun _ _ => Iff.rfl
  | cons op rest ih =>
      intro recs w hinv hargs
      have hop := hargs op List.mem_cons_self
      have hrest : ∀ op ∈ rest, op.ArgsOk := fun op' h => hargs op' (List.mem_cons_of_mem _ h)
      have hwp := op.run_wp hsys hinv
      have hexits : ¬ op.HasRoom hash w.kvdb.index → wp (op.run sys hash) (fun _ _ => False)
        (fun e _ => e = .exitSoftware) w := Op.run_exits hop
      unfold Complies RoomRun
      cases hrun : op.run sys hash w with
      | ok reply w' =>
          -- the map after the call is determined, so the run complies if its rest does
          obtain ⟨hcode, hinv', hout⟩ := hwp.ok hrun
          have hroom : op.HasRoom hash w.kvdb.index := by
            by_contra hroom
            exact (hexits hroom).ok hrun
          have hmeets : op.Meets (.ofRecs recs) reply (.ofRecs (op.after recs reply.code)) :=
            ⟨hcode, op.value_after hop recs reply.code, hout⟩
          simp only
          rw [and_iff_right hroom, ← ih hinv' hrest]
          constructor
          · rintro ⟨m', hm', hcomplies⟩
            rwa [hm'.unique hmeets] at hcomplies
          · exact fun hcomplies => ⟨_, hmeets, hcomplies⟩
      | error e w' =>
          rcases hwp.error hrun with ⟨c, rfl⟩ | ⟨rfl, hroom⟩ | ⟨hbad, -⟩
          · -- an external call failed, so the call did not exit
            simp only [and_true, true_iff]
            by_contra hroom
            exact absurd ((hexits hroom).error hrun) (by simp)
          · simp only [hroom, false_and]
          · exact absurd hop hbad

/-- **The store is a finite map** to the callers of a freshly opened one, up to the first external
    call that fails, exactly if every key that is written finds room in the index. -/
theorem complies_iff_roomRun (hsys : sys.Documented log) (pathname : String) (s₀ s : σ)
    (kvdb : Kvdb) (hopen : kvdbOpen sys pathname s₀ = .ok kvdb s) (ops : List Op)
    (hargs : ∀ op ∈ ops, op.ArgsOk) :
    Complies sys hash ops ⟨kvdb, s⟩ .empty ↔ RoomRun sys hash ops ⟨kvdb, s⟩ := by
  obtain ⟨junk, hinv⟩ : ∃ junk, Inv log hash junk [] ⟨kvdb, s⟩ :=
    (kvdbOpen_wp hsys pathname s₀).ok hopen
  exact complies_iff_of_inv hsys ops hinv hargs

theorem complies_iff_roomRun_memory :
    Complies Memory.sys (fun _ => 1) [.insert [107] [118], .lookup [107] none none] opened .empty ↔
      RoomRun Memory.sys (fun _ => 1) [.insert [107] [118], .lookup [107] none none] opened :=
  complies_iff_roomRun Memory.documented "log" (Memory.empty []) opened.sys opened.kvdb rfl _ (by
    intro op hop
    rcases List.mem_pair.1 hop with rfl | rfl
    · exact ⟨by decide, by decide⟩
    · exact ⟨by decide, fun cap h => by cases h⟩)

/-! ## A run without room -/

/-- A run that complies does not end so. -/
theorem Complies.not_exited (ops : List Op) : ∀ {w : World σ} {m : KMap},
    Complies sys hash ops w m → exited (runAll sys hash ops w) = false := by
  induction ops with
  | nil => exact fun _ => rfl
  | cons op rest ih =>
      intro w m h
      unfold Complies at h
      show exited (EStateM.bind (op.run sys hash) (fun _ => runAll sys hash rest) w) = false
      unfold EStateM.bind
      cases hrun : op.run sys hash w with
      | ok reply w' =>
          rw [hrun] at h
          obtain ⟨m', -, hrest⟩ := h
          exact ih hrest
      | error e w' =>
          rw [hrun] at h
          cases e with
          | exitSoftware => exact h.elim
          | _ => rfl

/-- A hash function that is the identity on small keys, and has a value next to `2^64`. -/
def wrapHash (key : List UInt8) : UInt64 :=
  if key = [255, 255] then 18446744073709551402 else .ofNat (Bytes.toNatLE key)

/-- The hashes 1 to 213 and 363 take the slots 0 to 213 of the 363. The probe of `2^64 - 214` starts
    at slot 0 and wraps around behind slot 213. -/
def wrapOps : List Op :=
  (List.range 213).map (fun n => .insert [.ofNat (n + 1)] [1]) ++
    [.insert [107, 1] [1], .insert [255, 255] [1]]

theorem wrapOps_exited : exited (runAll Memory.sys wrapHash wrapOps opened) = true := by
  decide +kernel

theorem wrapped_probe_not_complies :
    kvdbOpen Memory.sys "log" (Memory.empty []) = .ok opened.kvdb opened.sys ∧
      (∀ op ∈ wrapOps, op.ArgsOk) ∧ ¬ Complies Memory.sys wrapHash wrapOps opened .empty := by
  have hexit := wrapOps_exited
  refine ⟨rfl, fun op hop => ?_, fun h => ?_⟩
  · rcases List.mem_append.1 hop with hop | hop
    · obtain ⟨n, -, rfl⟩ := List.mem_map.1 hop
      exact ⟨⟨Nat.one_ne_zero, by simp⟩, by decide⟩
    · rcases List.mem_pair.1 hop with rfl | rfl
      · exact ⟨by decide, by decide⟩
      · exact ⟨by decide, by decide⟩
  · rw [Complies.not_exited wrapOps h] at hexit
    cases hexit

end CS238P.Store
