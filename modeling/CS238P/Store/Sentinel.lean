import CS238P.Store.Twins

set_option autoImplicit false

/-! # The link of the first record

The `off` of the record that `kvraw_open` writes is an uninitialised variable. What the caller of a
session sees is the same whatever it holds, as long as no append is torn (`session_eq`). Behind a
torn append the offsets are too small, and a value that looks like a record can lead a search into
the first record. -/

namespace CS238P.Store

/-! ## Sessions -/

instance (e : Fail) : Decidable e.Returns :=
  match e with
  | .io _ => .isTrue trivial
  | .corruptData => .isTrue trivial
  | .exitSoftware => .isFalse id
  | .assertion => .isFalse id
  | .outOfBounds => .isFalse id
  | .diverges => .isFalse id

/-- What the caller sees of a call: what it returned, and the two counters behind it. -/
structure Seen where
  result : Except Fail Reply
  size : UInt64
  waste : UInt64
  deriving DecidableEq

variable {σ : Type} (sys : Sys σ) (hash : List UInt8 → UInt64) (log : σ → List UInt8)

/-- The calls one after the other, until one does not return. -/
def observe : List Op → World σ → List Seen
  | [], _ => []
  | op :: rest, w =>
      match op.run sys hash w with
      | .ok reply w' => ⟨.ok reply, kvdbSize w'.kvdb, kvdbWaste w'.kvdb⟩ :: observe rest w'
      | .error e w' =>
          ⟨.error e, kvdbSize w'.kvdb, kvdbWaste w'.kvdb⟩ ::
            if e.Returns then observe rest w' else []

/-- The calls on a store that is opened first. -/
def session (pathname : String) (ops : List Op) (s : σ) : Except Fail (List Seen) :=
  match kvdbOpen sys pathname s with
  | .ok kvdb s' => .ok (observe sys hash ops ⟨kvdb, s'⟩)
  | .error e _ => .error e

/-- `P` holds of the states between the calls. -/
def Throughout (P : World σ → Prop) : List Op → World σ → Prop
  | [], w => P w
  | op :: rest, w =>
      P w ∧
        match op.run sys hash w with
        | .ok _ w' => Throughout P rest w'
        | .error e w' => e.Returns → Throughout P rest w'

/-- Every call that returns -1 has left nothing on the log. -/
def NeverTorn : List Op → World σ → Prop
  | [], _ => True
  | op :: rest, w =>
      match op.run sys hash w with
      | .ok _ w' => NeverTorn rest w'
      | .error e w' => e.Returns → log w'.sys = log w.sys ∧ NeverTorn rest w'

/-- No chain leads to the first record. -/
def PastSentinel (w : World σ) : Prop :=
  ∀ j ∈ w.kvdb.index.used, ∃ offs,
    Chain w.kvdb.kvraw (log w.sys) (w.kvdb.index.slotAt j).off offs ∧
      ∀ o ∈ offs, sentinelLen ≤ o.toNat

/-! ## The records without the counters -/

section Shape

variable {sys} {log} (hsys : sys.Documented log) {hash} {junk : UInt64} {recs : List Rec}
  {w : World σ}
include hsys

theorem mutateFound_shape {mode : Mode} {key : List UInt8} {val : Option (List UInt8)}
    {valLen : Option UInt64} {ref : ℕ} {out : ChainOut}
    (h : Shape hash junk recs w.kvdb (log w.sys))
    (hslot : Slots w.kvdb.index recs hash (hashKey hash key) ref)
    (hok : Rec.Ok ⟨key, mode.stores val valLen⟩) :
    wp (mutateFound sys key val valLen ref out mode)
      (fun reply w' => Shape hash junk (wrote recs ⟨key, mode.stores val valLen⟩ reply.code)
        w'.kvdb (log w'.sys))
      (fun _ _ => True) w := by
  refine mutateFound_rule (fun _ => h) fun size waste _ => ?_
  refine (appendRef_shape (w := ⟨{ w.kvdb with size := size, waste := waste }, w.sys⟩) hsys
    h.counters hslot hok).mono ?_ fun _ _ _ => trivial
  exact fun _ w₁ h₁ _ _ _ _ => h₁.1.counters

theorem mutate_shape {mode : Mode} {key : List UInt8} {val : Option (List UInt8)}
    {valLen : Option UInt64} (h : Shape hash junk recs w.kvdb (log w.sys)) (hkey : KeyOk key)
    (hlen : (mode.stores val valLen).length ≤ 0xffffffff) :
    wp (mutate sys hash key val valLen mode)
      (fun reply w' => Shape hash junk (wrote recs ⟨key, mode.stores val valLen⟩ reply.code)
        w'.kvdb (log w'.sys))
      (fun _ _ => True) w := by
  unfold mutate
  refine wp.bind (wp.getState ?_)
  refine wp.bind ((onSys_wp (indexUpdate_shape hsys h key)).mono ?_ fun _ _ _ => trivial)
  rintro ⟨index, ref⟩ w₁ ⟨h₁, hlog₁, hshape, hslot⟩
  refine wp.bind (wp.modifyState ?_)
  refine wp.bind ((onSys_wp (w := ⟨{ w₁.kvdb with index := index }, w₁.sys⟩)
    (chainLookup_log hsys _ _ _ _)).mono ?_ fun _ _ _ => trivial)
  rintro out w₂ ⟨h₂, hlog₂⟩
  refine mutateFound_shape hsys ?_ ?_ ⟨hkey, hlen⟩
  · rw [h₂, hlog₂, hlog₁, h₁]
    exact hshape
  · rw [h₂]
    exact hslot

/-- **A call that returns 0 or +1** has at most put its record to the others, also if the counters
    are off. -/
theorem Op.run_shape (op : Op) (h : Shape hash junk recs w.kvdb (log w.sys)) :
    wp (op.run sys hash)
      (fun reply w' => Shape hash junk (op.after recs reply.code) w'.kvdb (log w'.sys))
      (fun _ _ => True) w := by
  have hstore : ∀ (mode : Mode) (key val : List UInt8), mode ≠ .remove →
      wp (kvdbStore sys hash mode key val)
        (fun reply w' => Shape hash junk (wrote recs ⟨key, val⟩ reply.code) w'.kvdb (log w'.sys))
        (fun _ _ => True) w := by
    intro mode key val hmode
    unfold kvdbStore
    split
    · exact wp.throw trivial
    split
    · exact wp.throw trivial
    rename_i hkey hval
    have hle := (not_not.1 hval).2
    have hstores := Mode.stores_length hmode hle
    refine (mutate_shape hsys h (not_not.1 hkey) (by rwa [hstores])).mono (fun reply w' h' => ?_)
      fun _ _ _ => trivial
    rwa [hstores] at h'
  cases op with
  | insert key val => exact hstore .insert key val (by decide)
  | update key val => exact hstore .update key val (by decide)
  | replace key val => exact hstore .replace key val (by decide)
  | remove key val valLen =>
      show wp (kvdbRemove sys hash key val valLen) _ _ w
      unfold kvdbRemove
      split
      · exact wp.throw trivial
      split
      · exact wp.throw trivial
      rename_i hkey _
      exact mutate_shape hsys h (not_not.1 hkey) (Nat.zero_le _)
  | lookup key val valLen =>
      refine (kvdbLookup_shows hsys (le_of_eq h.size)).mono ?_ fun _ _ _ => trivial
      rintro reply w' ⟨hkvdb, hlog, -⟩
      show Shape hash junk recs w'.kvdb (log w'.sys)
      rw [hkvdb, hlog]
      exact h

omit hsys in
/-- A state that has kept everything, on the same log. -/
theorem Shape.kept {w' : World σ} (h : Shape hash junk recs w.kvdb (log w.sys))
    (husable : Usable log w') (hkept : Kept log w w') (hlog : log w'.sys = log w.sys) :
    Shape hash junk recs w'.kvdb (log w'.sys) := by
  refine ⟨h.ok, hlog.trans h.log, ?_, husable.index, fun k => ?_⟩
  · rw [hkept.kvraw, hlog]
    exact h.size
  · rw [hkept.head]
    exact h.head k

omit hsys in
theorem Shape.usable (h : Shape hash junk recs w.kvdb (log w.sys)) : Usable log w :=
  ⟨h.index, le_of_eq h.size⟩

theorem Shape.pastSentinel (h : Shape hash junk recs w.kvdb (log w.sys)) : PastSentinel log w := by
  have hlt := hsys.log_length w.sys
  have hend := h.endOff_lt hlt
  intro j hj
  refine ⟨offsets hash recs (w.kvdb.index.slotAt j).key, ?_,
    fun o ho => sentinelLen_le_of_mem_offsets hend ho⟩
  rw [head_of_used h.index.toTidy hj, h.head]
  exact (h.slotChain hlt _).walk

end Shape

/-! ## Two sessions -/

section Twins

variable {sys} {log} {hash} {R : σ → σ → Prop}

/-- The same store on twin states, with the same records. -/
structure Paired (hash : List UInt8 → UInt64) (log : σ → List UInt8) (R : σ → σ → Prop)
    (w v : World σ) : Prop where
  beside : Beside R w v
  shapes : ∃ junk junk' recs, Shape hash junk recs w.kvdb (log w.sys) ∧
    Shape hash junk' recs v.kvdb (log v.sys)

theorem Beside.kvdb_eq {w v : World σ} (h : Beside R w v) : v.kvdb = w.kvdb := by
  obtain ⟨-⟩ := h
  rfl

variable (hsys : sys.Documented log) (htwins : sys.Twins log R) {w v : World σ}
include hsys

theorem Paired.pastSentinel (h : Paired hash log R w v) : PastSentinel log w := by
  obtain ⟨junk, -, recs, hw, -⟩ := h.shapes
  exact hw.pastSentinel hsys

include htwins

theorem Paired.sync (h : Paired hash log R w v) (op : Op) :
    Sync (Beside R) (· = ·) (op.run sys hash) (op.run sys hash) w v := by
  obtain ⟨hbeside, junk, junk', recs, hw, hv⟩ := h
  obtain ⟨hR⟩ := hbeside
  exact op.run_sync hsys htwins hR hw hv

/-- A call that returned 0 or +1 in one state. -/
theorem Paired.returned (h : Paired hash log R w v) {op : Op} {reply : Reply} {w' : World σ}
    (hrun : op.run sys hash w = .ok reply w') :
    ∃ v', op.run sys hash v = .ok reply v' ∧ Paired hash log R w' v' := by
  obtain ⟨reply', v', hrun', rfl, hbeside⟩ := (h.sync hsys htwins op).ok hrun
  obtain ⟨junk, junk', recs, hw, hv⟩ := h.shapes
  exact ⟨v', hrun', hbeside, junk, junk', _, (op.run_shape hsys hw).ok hrun,
    (op.run_shape hsys hv).ok hrun'⟩

/-- A call that left nothing on the log of one state has left nothing on that of the other, which is
    as long. -/
theorem Paired.failed (h : Paired hash log R w v) {op : Op} {e : Fail} {w' : World σ}
    (hrun : op.run sys hash w = .error e w') (hlog : log w'.sys = log w.sys) :
    ∃ v', op.run sys hash v = .error e v' ∧ Paired hash log R w' v' := by
  obtain ⟨v', hrun', hbeside⟩ := (h.sync hsys htwins op).error hrun
  obtain ⟨hbeside₀, junk, junk', recs, hw, hv⟩ := h
  have hfailed := (op.run_failed hsys hw.usable).error hrun
  have hfailed' := (op.run_failed hsys hv.usable).error hrun'
  have hlen : ∀ {w v : World σ}, Beside R w v → (log w.sys).length = (log v.sys).length := by
    rintro w v ⟨hR⟩
    exact htwins.length hR
  have hlog' : log v'.sys = log v.sys :=
    (hfailed'.kept.log.eq_of_length (by rw [← hlen hbeside₀, ← hlen hbeside, hlog])).symm
  exact ⟨v', hrun', hbeside, junk, junk', recs, hw.kept hfailed.usable hfailed.kept hlog,
    hv.kept hfailed'.usable hfailed'.kept hlog'⟩

/-- **A run** of calls: by induction on the calls, the pair of states being what carries it. -/
theorem Paired.observe_eq (ops : List Op) : ∀ {w v : World σ}, Paired hash log R w v →
    NeverTorn sys hash log ops w →
      observe sys hash ops w = observe sys hash ops v ∧
        Throughout sys hash (PastSentinel log) ops w := by
  induction ops with
  | nil => exact fun h _ => ⟨rfl, h.pastSentinel hsys⟩
  | cons op rest ih =>
      intro w v h htorn
      have hpast := h.pastSentinel hsys
      rw [NeverTorn] at htorn
      rw [observe, observe, Throughout]
      cases hrun : op.run sys hash w with
      | ok reply w' =>
          rw [hrun] at htorn
          obtain ⟨v', hrun', h'⟩ := h.returned hsys htwins hrun
          obtain ⟨hrest, hpast'⟩ := ih h' htorn
          rw [hrun']
          simp only
          rw [hrest, h'.beside.kvdb_eq]
          exact ⟨rfl, hpast, hpast'⟩
      | error e w' =>
          rw [hrun] at htorn
          by_cases he : e.Returns
          · obtain ⟨hlog, hrest⟩ := htorn he
            obtain ⟨v', hrun', h'⟩ := h.failed hsys htwins hrun hlog
            obtain ⟨hrest, hpast'⟩ := ih h' hrest
            rw [hrun']
            simp only
            rw [if_pos he, if_pos he, hrest, h'.beside.kvdb_eq]
            exact ⟨rfl, hpast, fun _ => hpast'⟩
          · -- the process ends in both runs
            obtain ⟨v', hrun', hbeside⟩ := (h.sync hsys htwins op).error hrun
            rw [hrun']
            simp only
            rw [if_neg he, if_neg he, hbeside.kvdb_eq]
            exact ⟨rfl, hpast, fun h => absurd h he⟩

/-- What `kvdb_open` leaves. -/
theorem opened_paired {pathname : String} {s t s' : σ} {kvdb : Kvdb} (hR : R s t)
    (h : kvdbOpen sys pathname s = .ok kvdb s') :
    ∃ t', kvdbOpen sys pathname t = .ok kvdb t' ∧ Paired hash log R ⟨kvdb, s'⟩ ⟨kvdb, t'⟩ := by
  obtain ⟨kvdb', t', h', rfl, hR'⟩ := (kvdbOpen_sync htwins hR pathname).ok h
  obtain ⟨junk, hinv⟩ : ∃ junk, Inv log hash junk [] ⟨kvdb, s'⟩ :=
    (kvdbOpen_wp hsys pathname s).ok h
  obtain ⟨junk', hinv'⟩ : ∃ junk, Inv log hash junk [] ⟨kvdb, t'⟩ :=
    (kvdbOpen_wp hsys pathname t).ok h'
  exact ⟨t', h', .intro hR', junk, junk', [], hinv.shape, hinv'.shape⟩

/-- **What the link of the first record holds is never seen**: sessions with the same calls, in
    states that differ in uninitialised memory, look the same if no append of them is torn, and no
    chain ever leads to the first record. -/
theorem session_eq {pathname : String} {ops : List Op} {s t : σ} (hR : R s t)
    (htorn : ∀ kvdb s', kvdbOpen sys pathname s = .ok kvdb s' →
      NeverTorn sys hash log ops ⟨kvdb, s'⟩) :
    session sys hash pathname ops s = session sys hash pathname ops t ∧
      ∀ kvdb s', kvdbOpen sys pathname s = .ok kvdb s' →
        Throughout sys hash (PastSentinel log) ops ⟨kvdb, s'⟩ := by
  unfold session
  cases hopen : kvdbOpen sys pathname s with
  | ok kvdb s' =>
      obtain ⟨t', hopen', hpaired⟩ := opened_paired hsys htwins hR hopen
      obtain ⟨heq, hpast⟩ := hpaired.observe_eq hsys htwins ops (htorn kvdb s' hopen)
      rw [hopen']
      refine ⟨congrArg Except.ok heq, fun kvdb₁ s₁ h => ?_⟩
      cases h
      exact hpast
  | error e s' =>
      obtain ⟨t', hopen', -⟩ := (kvdbOpen_sync htwins hR pathname).error hopen
      rw [hopen']
      exact ⟨rfl, fun _ _ h => by cases h⟩

end Twins

/-! ## Memory that is not cleared -/

/-- The system with bytes that every object starts with that nothing was written to. -/
def Sys.littered : Sys (σ × List UInt8) where
  malloc n s := ((sys.malloc n s.1).1, (sys.malloc n s.1).2, s.2)
  uninit n s := (s.2 ++ List.replicate n 0).take n
  logfsOpen path s := ((sys.logfsOpen path s.1).1, (sys.logfsOpen path s.1).2, s.2)
  logfsRead off len s := ((sys.logfsRead off len s.1).1, (sys.logfsRead off len s.1).2, s.2)
  logfsAppend bs s := ((sys.logfsAppend bs s.1).1, (sys.logfsAppend bs s.1).2, s.2)

theorem Sys.Documented.littered {sys : Sys σ} {log : σ → List UInt8} (h : sys.Documented log) :
    sys.littered.Documented fun s => log s.1 where
  malloc_log n s := h.malloc_log n s.1
  malloc_le n s := h.malloc_le n s.1
  uninit_length n s := by simp [Sys.littered]
  open_log path s := h.open_log path s.1
  read_log off len s := h.read_log off len s.1
  read_some off len s := h.read_some off len s.1
  append_true bs s := h.append_true bs s.1
  append_false bs s := h.append_false bs s.1
  log_length s := h.log_length s.1

/-- As much was appended, and the next appends are to have the same outcomes. -/
def Memory.Alike (s t : Memory × List UInt8) : Prop :=
  s.1.used = t.1.used ∧ s.1.outcomes = t.1.outcomes

theorem Memory.push_alike {m m' : Memory} {bs bs' : List UInt8} (hbs : bs.length = bs'.length)
    (hused : m.used = m'.used) (houtcomes : m.outcomes = m'.outcomes) :
    (m.push bs).1 = (m'.push bs').1 ∧ (m.push bs).2.used = (m'.push bs').2.used ∧
      (m.push bs).2.outcomes = (m'.push bs').2.outcomes := by
  have hsum : m.used + bs.length = m'.used + bs'.length := by rw [hused, hbs]
  unfold push
  by_cases h : m.used + bs.length < 2 ^ 63
  · rw [dif_pos h, dif_pos (hsum ▸ h)]
    exact ⟨rfl, hsum, houtcomes⟩
  · rw [dif_neg h, dif_neg (hsum ▸ h)]
    exact ⟨rfl, hused, houtcomes⟩

theorem Memory.append_alike {m m' : Memory} {bs bs' : List UInt8} (hbs : bs.length = bs'.length)
    (hused : m.used = m'.used) (houtcomes : m.outcomes = m'.outcomes) :
    (append bs m).1 = (append bs' m').1 ∧ (append bs m).2.used = (append bs' m').2.used ∧
      (append bs m).2.outcomes = (append bs' m').2.outcomes := by
  unfold append
  rw [← houtcomes]
  split
  · exact push_alike hbs hused houtcomes
  · exact push_alike hbs hused rfl
  · exact ⟨rfl, hused, rfl⟩

theorem Memory.twins : Memory.sys.littered.Twins (fun s => Memory.log s.1) Memory.Alike where
  length {s t} h := by
    rw [Memory.length_log, Memory.length_log]
    exact h.1
  malloc _ h := ⟨rfl, h⟩
  logfsOpen _ h := ⟨rfl, rfl, h.2⟩
  logfsRead {s t} off len h := by
    refine ⟨?_, h⟩
    simp only [Sys.littered, Memory.sys, h.1]
    split
    · rfl
    · rfl
  logfsAppend bs bs' hbs h := Memory.append_alike hbs h.1 h.2

theorem session_eq_littered :
    session Memory.sys.littered (fun _ => 1) "log" [.insert [107] [118]]
        (Memory.empty [], [75, 86]) =
      session Memory.sys.littered (fun _ => 1) "log" [.insert [107] [118]] (Memory.empty [], []) ∧
    ∀ kvdb s', kvdbOpen Memory.sys.littered "log" (Memory.empty [], [75, 86]) = .ok kvdb s' →
      Throughout Memory.sys.littered (fun _ => 1) (PastSentinel fun s => Memory.log s.1)
        [.insert [107] [118]] ⟨kvdb, s'⟩ := by
  refine session_eq Memory.documented.littered Memory.twins ⟨rfl, rfl⟩ fun kvdb s' h => ?_
  obtain ⟨w', hrun⟩ : ∃ w', Op.run Memory.sys.littered (fun _ => 1) (.insert [107] [118])
      ⟨kvdb, s'⟩ = .ok ⟨.zero, some [118], some 1⟩ w' := by
    cases h
    exact exists_of_replied (by decide +kernel)
  rw [NeverTorn, hrun]
  exact trivial

/-- A value that looks like a record of a key of two bytes that is linked to the offset 2. -/
def recordLike : List UInt8 := (appendMeta [0, 0] [] 2).bytes

/-- The first of the calls fails behind the first of its three appends. -/
def tornOps : List Op :=
  [.insert [97] [120], .insert [98] recordLike, .insert [75] [118], .lookup [75] none none]

/-- The session on memory where the uninitialised bytes are `junk`. -/
def tornSession (junk : List UInt8) : Except Fail (List Seen) :=
  session Memory.sys.littered (fun key => .ofNat (Bytes.toNatLE key)) "log" tornOps
    (Memory.empty [true, true, true, true, false], junk)

/-- The lookup is led to the link of the first record and reads a record there, or finds it
    corrupt. -/
theorem torn_session_ne :
    Memory.Alike (Memory.empty [true, true, true, true, false], [75, 86])
      (Memory.empty [true, true, true, true, false], []) ∧
    (tornSession [75, 86]).map List.getLast? = .ok (some ⟨.ok ⟨.plusOne, none, none⟩, 2, 0⟩) ∧
    (tornSession []).map List.getLast? = .ok (some ⟨.error .corruptData, 2, 0⟩) ∧
    tornSession [75, 86] ≠ tornSession [] := by
  refine ⟨⟨rfl, rfl⟩, ?_, ?_, ?_⟩
  · decide +kernel
  · decide +kernel
  · decide +kernel

end CS238P.Store
