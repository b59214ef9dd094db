import CS238P.Avl.Region
import CS238P.Library.Machine

set_option autoImplicit false

/-! # Sessions on a region (`avl_open` .. `avl_close`)

A session opens the region, truncating it or not, makes calls, and closes it; the region outlives it.
Which allocations succeed is up to the library, so a session in memory notes what the library
answered (`SessionOutcome`). The tree is then given the same sessions and what was noted, and has to
come to the same replies. -/

namespace CS238P.Avl.Heap

open CString SortedCounts

/-! ## Calls -/

/-- A call of `avl.h`. -/
inductive Request where
  | insert (item : Item)
  | exists_ (item : Item)
  | items
  | unique
  | traverse

inductive Reply where
  | ret (ret : ℤ)
  | count (n : UInt64)
  /-- the callbacks of `avl_traverse` -/
  | words (ws : List (CString × UInt64))

section

variable {η : Type} (lib : ScmLib η) (fuel : ℕ)

/-- The call in memory. -/
def Request.perform (avl : Addr) (scm : Scm η) : Request → Option (Reply × Scm η)
  | .insert item => do
      let (ret, scm) ← avlInsert lib fuel avl item scm
      some (.ret ret, scm)
  | .exists_ item => do
      let n ← avlExists fuel scm avl item
      some (.count n, scm)
  | .items => do
      let n ← avlItems scm avl
      some (.count n, scm)
  | .unique => do
      let n ← avlUnique scm avl
      some (.count n, scm)
  | .traverse => do
      let ws ← avlTraverse fuel scm avl (fun ws key n => ws ++ [(key, n)]) []
      some (.words ws, scm)

/-- What the library answers if the call asks it for blocks. -/
def Request.alloc (scm : Scm η) : Request → Alloc
  | .insert item => outcome lib item.toCString scm.lib
  | _ => ⟨true, true⟩

def requests (avl : Addr) : List Request → Scm η → Option (List Alloc × List Reply × Scm η)
  | [], scm => some ([], [], scm)
  | r :: rs, scm => do
      let (reply, scm₁) ← r.perform lib fuel avl scm
      let (allocs, replies, scm₂) ← requests avl rs scm₁
      some (r.alloc lib scm :: allocs, reply :: replies, scm₂)

/-! ## Sessions -/

structure Session where
  /-- whether `malloc` has room for the `struct avl` -/
  malloc : Bool
  truncate : Bool
  requests : List Request

/-- What the library answers in a session. -/
structure SessionOutcome where
  /-- `scm_open` succeeds -/
  opened : Bool
  /-- after `scm_open` nothing is utilized -/
  empty : Bool
  /-- the `struct state` is there, or there is a block for it -/
  state : Bool
  allocs : List Alloc

def sessionOutcome (truncate : Bool) (scm : Scm η) (allocs : List Alloc) : SessionOutcome :=
  let (opened, scm) := lib.open_ truncate scm
  { opened
    empty := lib.utilized scm.lib = 0
    state := lib.utilized scm.lib ≠ 0 ∨ (lib.malloc sizeofState scm.lib).1 ≠ 0
    allocs }

/-- A session in memory. There are no replies when `avl_open` returns NULL. -/
def session (s : Session) (scm : Scm η) :
    Option (SessionOutcome × Option (List Reply) × Scm η) := do
  let (avl, scm₁) ← avlOpen lib s.malloc s.truncate scm
  if avl = 0 then some (sessionOutcome lib s.truncate scm [], none, scm₁)
  else do
    let (allocs, replies, scm₂) ← requests lib fuel avl s.requests scm₁
    some (sessionOutcome lib s.truncate scm allocs, some replies, avlClose lib scm₂)

def sessions : List Session → Scm η →
    Option (List SessionOutcome × List (Option (List Reply)) × Scm η)
  | [], scm => some ([], [], scm)
  | s :: ss, scm => do
      let (o, reply, scm₁) ← session lib fuel s scm
      let (os, replies, scm₂) ← sessions ss scm₁
      some (o :: os, reply :: replies, scm₂)

end

/-! ## The same on the tree -/

def Request.onTree (alloc : Alloc) (c : Content) : Request → Option (Reply × Content)
  | .insert item => do
      let (ret, st) ← Avl.avlInsert alloc c.state item
      some (.ret ret, ⟨st, c.lost + lost alloc c.state item⟩)
  | .exists_ item => some (.count (.ofNat (Avl.avlExists c.state item)), c)
  | .items => some (.count (.ofNat (Avl.avlItems c.state)), c)
  | .unique => some (.count (.ofNat (Avl.avlUnique c.state)), c)
  | .traverse =>
      some (.words (Avl.avlTraverse c.state (fun ws key n => ws ++ [(key, .ofNat n)]) []), c)

def requestsOnTree : List Request → List Alloc → Content → Option (List Reply × Content)
  | [], [], c => some ([], c)
  | r :: rs, alloc :: allocs, c => do
      let (reply, c) ← r.onTree alloc c
      let (replies, c) ← requestsOnTree rs allocs c
      some (reply :: replies, c)
  | _, _, _ => none

/-- What the region holds once it was opened. -/
def Session.cleared (s : Session) (o : SessionOutcome) (held : Option Content) : Option Content :=
  if s.malloc && s.truncate && (o.opened || o.empty) then none else held

/-- What `avl_open` finds or makes, nothing being NULL. -/
def Session.found (s : Session) (o : SessionOutcome) (held : Option Content) : Option Content :=
  if s.malloc && o.opened then held.or (if o.state then some Content.empty else none) else none

def Session.onTree (s : Session) (o : SessionOutcome) (held : Option Content) :
    Option (Option (List Reply) × Option Content) :=
  match s.found o (s.cleared o held) with
  | none => some (none, s.cleared o held)
  | some c => do
      let (replies, c) ← requestsOnTree s.requests o.allocs c
      some (some replies, some c)

def sessionsOnTree : List Session → List SessionOutcome → Option Content →
    Option (List (Option (List Reply)) × Option Content)
  | [], [], held => some ([], held)
  | s :: ss, o :: os, held => do
      let (reply, held) ← s.onTree o held
      let (replies, held) ← sessionsOnTree ss os held
      some (reply :: replies, held)
  | _, _, _ => none

section

variable {η : Type} {lib : ScmLib η} {blocks : η → List (Addr × ℕ)} {fuel : ℕ} {scm : Scm η}
  {c : Content} {slots : List Slot} {leaked : List Addr}

/-! ## One call -/

theorem request_stored (hlib : lib.Documented blocks) (r : Request)
    (h : Stored lib blocks scm c slots leaked) (hfuel : slots.length < fuel) :
    ∃ reply scm' c' slots' leaked',
      r.perform lib fuel (lib.mbase scm.lib) scm = some (reply, scm') ∧
      r.onTree (r.alloc lib scm) c = some (reply, c') ∧
      Stored lib blocks scm' c' slots' leaked' ∧ Extends lib scm scm' slots slots' 1 := by
  cases r with
  | insert item =>
      obtain ⟨ret, scm', st', slots', leaked', hrun, htree, h', hE⟩ :=
        avlInsert_stored hlib item h hfuel
      refine ⟨.ret ret, scm', _, slots', leaked', ?_, ?_, h', hE⟩
      · simp only [Request.perform, hrun, Option.bind_eq_bind, Option.bind_some]
      · simp only [Request.onTree, Request.alloc, htree, Option.bind_eq_bind, Option.bind_some]
  | exists_ item =>
      refine ⟨_, scm, c, slots, leaked, ?_, rfl, h, .refl ..⟩
      simp only [Request.perform, h.exists_eq item hfuel, Option.bind_eq_bind, Option.bind_some]
  | items =>
      refine ⟨_, scm, c, slots, leaked, ?_, rfl, h, .refl ..⟩
      simp only [Request.perform, h.items_eq, Option.bind_eq_bind, Option.bind_some]
  | unique =>
      refine ⟨_, scm, c, slots, leaked, ?_, rfl, h, .refl ..⟩
      simp only [Request.perform, h.unique_eq, Option.bind_eq_bind, Option.bind_some]
  | traverse =>
      refine ⟨_, scm, c, slots, leaked, ?_, rfl, h, .refl ..⟩
      simp only [Request.perform, h.traverse_eq _ _ hfuel, Option.bind_eq_bind, Option.bind_some]

theorem requests_stored (hlib : lib.Documented blocks) (rs : List Request)
    (h : Stored lib blocks scm c slots leaked) (hfuel : slots.length + rs.length < fuel) :
    ∃ allocs replies scm' c' slots' leaked',
      requests lib fuel (lib.mbase scm.lib) rs scm = some (allocs, replies, scm') ∧
      requestsOnTree rs allocs c = some (replies, c') ∧
      Stored lib blocks scm' c' slots' leaked' ∧
      Extends lib scm scm' slots slots' rs.length := by
  induction rs generalizing scm c slots leaked with
  | nil => exact ⟨[], [], scm, c, slots, leaked, rfl, rfl, h, .refl ..⟩
  | cons r rs ih =>
      rw [List.length_cons] at hfuel
      obtain ⟨reply, scm₁, c₁, slots₁, leaked₁, hreq, htree, h₁, hE⟩ :=
        request_stored hlib r h (by omega : slots.length < fuel)
      have hlen := hE.length
      obtain ⟨allocs, replies, scm', c', slots', leaked', hrun, htrees, h', hE'⟩ :=
        ih h₁ (by omega)
      rw [hE.mbase] at hrun
      refine ⟨r.alloc lib scm :: allocs, reply :: replies, scm', c', slots', leaked', ?_, ?_, h', ?_⟩
      · simp only [requests, hreq, hrun, Option.bind_eq_bind, Option.bind_some]
      · simp only [requestsOnTree, htree, htrees, Option.bind_eq_bind, Option.bind_some]
      · rw [List.length_cons, Nat.add_comm]
        exact hE.trans hE'

/-! ## `avl_open` -/

theorem Stored.blocks_ne_nil (h : Stored lib blocks scm c slots leaked) : blocks scm.lib ≠ [] := by
  intro hnil
  have hmem := h.base_mem
  rw [addrs, hnil] at hmem
  exact List.not_mem_nil hmem

/-- The region is as it was, or it was cleared. -/
theorem open_cases (hlib : lib.Documented blocks) (hdur : lib.Durable blocks) (truncate : Bool)
    (scm : Scm η) :
    (Kept lib blocks scm (lib.open_ truncate scm).2 ∧
        (truncate = true → (lib.open_ truncate scm).1 = false)) ∨
      (truncate = true ∧ blocks (lib.open_ truncate scm).2.lib = []) := by
  cases truncate with
  | false => exact Or.inl ⟨hdur.reopen scm, fun h => absurd h Bool.false_ne_true⟩
  | true =>
      by_cases hopen : (lib.open_ true scm).1 = true
      · exact Or.inr ⟨rfl, hlib.truncated scm hopen⟩
      · have hfail := eq_false_of_ne_true hopen
        exact (hdur.failed scm hfail).imp (fun hk => ⟨hk, fun _ => hfail⟩) (fun hb => ⟨rfl, hb⟩)

theorem avlOpen_refused {truncate : Bool} {scm₀ : Scm η}
    (h : lib.open_ truncate scm = (false, scm₀)) :
    avlOpen lib true truncate scm = some (0, scm₀) := by
  rw [avlOpen, h]
  rfl

theorem avlOpen_opened {truncate : Bool} {scm₀ : Scm η}
    (h : lib.open_ truncate scm = (true, scm₀)) :
    avlOpen lib true truncate scm =
      if lib.utilized scm₀.lib ≠ 0 then some (lib.mbase scm₀.lib, scm₀)
      else if (scm₀.malloc lib sizeofState).1 = 0 then
        some (0, lib.close (scm₀.malloc lib sizeofState).2)
      else if (scm₀.malloc lib sizeofState).1 = lib.mbase (scm₀.malloc lib sizeofState).2.lib then
        some ((scm₀.malloc lib sizeofState).1, (scm₀.malloc lib sizeofState).2.setState
          (scm₀.malloc lib sizeofState).1 ⟨0, 0, 0⟩)
      else none := by
  rw [avlOpen, h]
  rfl

/-- In an empty region the state block is made, at its base, or NULL is returned. -/
theorem avlOpen_empty (hlib : lib.Documented blocks) (hdur : lib.Durable blocks) {truncate : Bool}
    {scm₀ : Scm η} (h : lib.open_ truncate scm = (true, scm₀)) (hempty : blocks scm₀.lib = []) :
    ∃ scm', ((lib.malloc sizeofState scm₀.lib).1 = 0 ∧
        avlOpen lib true truncate scm = some (0, scm') ∧ blocks scm'.lib = []) ∨
      ((lib.malloc sizeofState scm₀.lib).1 ≠ 0 ∧
        avlOpen lib true truncate scm = some (lib.mbase scm'.lib, scm') ∧
        Stored lib blocks scm' Content.empty [] []) := by
  have hzero : lib.utilized scm₀.lib = 0 := (hlib.utilized _).2 hempty
  have hmalloc := hlib.malloc sizeofState scm₀.lib
  rw [avlOpen_opened h, if_neg (not_not.2 hzero)]
  by_cases hstate : (scm₀.malloc lib sizeofState).1 = 0
  · refine ⟨_, Or.inl ⟨hstate, if_pos hstate, ?_⟩⟩
    rw [(hdur.close _).used]
    exact (hmalloc.null hstate).trans hempty
  · -- the first block is at the base
    have hbase : (scm₀.malloc lib sizeofState).1 = lib.mbase (scm₀.malloc lib sizeofState).2.lib :=
      (hlib.first sizeofState _ hempty hstate).trans hmalloc.mbase.symm
    have hblocks : blocks (scm₀.malloc lib sizeofState).2.lib =
        [((scm₀.malloc lib sizeofState).1, sizeofState)] := by
      have hnew := (hmalloc.block hstate).2
      rwa [hempty] at hnew
    rw [hbase] at hblocks
    refine ⟨(scm₀.malloc lib sizeofState).2.setState _ ⟨0, 0, 0⟩, Or.inr ⟨hstate, ?_,
      stored_empty (hbase ▸ hstate) hblocks⟩⟩
    rw [if_neg hstate, if_pos hbase, hbase]
    rfl

/-! ## One session -/

/-- The region holds nothing yet, or the content, with `n` entries at most. -/
inductive Held (lib : ScmLib η) (blocks : η → List (Addr × ℕ)) (n : ℕ) (scm : Scm η) :
    Option Content → Prop
  | empty (h : blocks scm.lib = []) : Held lib blocks n scm none
  | stored {c : Content} {slots : List Slot} {leaked : List Addr}
      (h : Stored lib blocks scm c slots leaked) (hn : slots.length ≤ n) :
      Held lib blocks n scm (some c)

theorem Held.mono {n m : ℕ} {held : Option Content} (h : Held lib blocks n scm held) (hnm : n ≤ m) :
    Held lib blocks m scm held := by
  cases h with
  | empty h => exact .empty h
  | stored h hn => exact .stored h (hn.trans hnm)

theorem session_of_no_malloc {s : Session} (hm : s.malloc = false) (held : Option Content) :
    session lib fuel s scm = some (sessionOutcome lib s.truncate scm [], none, scm) ∧
      s.onTree (sessionOutcome lib s.truncate scm []) held = some (none, held) := by
  refine ⟨?_, by simp [Session.onTree, Session.found, Session.cleared, hm]⟩
  simp [session, avlOpen, hm]

theorem session_null {s : Session} {scm₁ : Scm η} (hm : s.malloc = true)
    (havl : avlOpen lib true s.truncate scm = some (0, scm₁)) :
    session lib fuel s scm = some (sessionOutcome lib s.truncate scm [], none, scm₁) := by
  simp only [session, hm, havl, Option.bind_eq_bind, Option.bind_some, if_true]

theorem session_opened {s : Session} {avl : Addr} {scm₁ scm₂ : Scm η} {allocs : List Alloc}
    {replies : List Reply} (hm : s.malloc = true)
    (havl : avlOpen lib true s.truncate scm = some (avl, scm₁)) (hne : avl ≠ 0)
    (hrun : requests lib fuel avl s.requests scm₁ = some (allocs, replies, scm₂)) :
    session lib fuel s scm =
      some (sessionOutcome lib s.truncate scm allocs, some replies, lib.close scm₂) := by
  simp only [session, hm, havl, Option.bind_eq_bind, Option.bind_some, if_neg hne, hrun, avlClose]

theorem Session.onTree_null {s : Session} {o : SessionOutcome} {held held' : Option Content}
    (hc : s.cleared o held = held') (hf : s.found o held' = none) :
    s.onTree o held = some (none, held') := by
  rw [Session.onTree, hc, hf]

theorem Session.onTree_found {s : Session} {o : SessionOutcome} {held held' : Option Content}
    {c' : Content} {replies : List Reply} (hc : s.cleared o held = held')
    (hf : s.found o held' = some c)
    (hrs : requestsOnTree s.requests o.allocs c = some (replies, c')) :
    s.onTree o held = some (some replies, some c') := by
  simp only [Session.onTree, hc, hf, hrs, Option.bind_eq_bind, Option.bind_some]

theorem sessionOutcome_eq {truncate opened : Bool} {scm₀ : Scm η}
    (h : lib.open_ truncate scm = (opened, scm₀)) (allocs : List Alloc) :
    sessionOutcome lib truncate scm allocs = ⟨opened, lib.utilized scm₀.lib = 0,
      lib.utilized scm₀.lib ≠ 0 ∨ (lib.malloc sizeofState scm₀.lib).1 ≠ 0, allocs⟩ := by
  rw [sessionOutcome, h]

/-- A session on a region that is not cleared. -/
theorem session_kept (hlib : lib.Documented blocks) (hdur : lib.Durable blocks) (s : Session)
    (h : Stored lib blocks scm c slots leaked) (hm : s.malloc = true)
    (hkept : Kept lib blocks scm (lib.open_ s.truncate scm).2)
    (hfail : s.truncate = true → (lib.open_ s.truncate scm).1 = false)
    (hfuel : slots.length + s.requests.length < fuel) :
    ∃ o reply scm' c' slots' leaked', session lib fuel s scm = some (o, reply, scm') ∧
      s.onTree o (some c) = some (reply, some c') ∧ Stored lib blocks scm' c' slots' leaked' ∧
      Extends lib scm scm' slots slots' s.requests.length := by
  obtain ⟨⟨opened, scm₀⟩, hopen⟩ : ∃ r, lib.open_ s.truncate scm = r := ⟨_, rfl⟩
  rw [hopen] at hkept hfail
  have h₀ := h.kept hkept
  have hne : lib.utilized scm₀.lib ≠ 0 := fun hz => h₀.blocks_ne_nil ((hlib.utilized _).1 hz)
  cases opened with
  | false =>
      refine ⟨sessionOutcome lib s.truncate scm [], none, scm₀, c, slots, leaked,
        session_null hm (avlOpen_refused hopen), Session.onTree_null ?_ ?_, h₀,
        ⟨hkept.mbase, List.Sublist.refl _, Nat.le_add_right ..⟩⟩
      · rw [sessionOutcome_eq hopen]
        simp [Session.cleared, hne]
      · rw [sessionOutcome_eq hopen]
        simp [Session.found]
  | true =>
      have htruncate : s.truncate = false := by
        by_contra ht
        exact Bool.noConfusion (hfail (eq_true_of_ne_false ht))
      obtain ⟨allocs, replies, scm₁, c', slots', leaked', hrun, htree, h₁, hE⟩ :=
        requests_stored hlib s.requests h₀ hfuel
      have hclose := hdur.close scm₁
      have havl : avlOpen lib true s.truncate scm = some (lib.mbase scm₀.lib, scm₀) := by
        rw [avlOpen_opened hopen, if_pos hne]
      have hcleared : s.cleared (sessionOutcome lib s.truncate scm allocs) (some c) = some c := by
        simp [Session.cleared, htruncate]
      refine ⟨sessionOutcome lib s.truncate scm allocs, some replies, lib.close scm₁, c', slots',
        leaked', session_opened hm havl h₀.base hrun, Session.onTree_found (c := c) hcleared ?_ ?_,
        h₁.kept hclose, ⟨hclose.mbase.trans (hE.mbase.trans hkept.mbase), hE.sublist, hE.length⟩⟩
      · rw [sessionOutcome_eq hopen]
        simp [Session.found, hm]
      · rw [sessionOutcome_eq hopen]
        exact htree

/-- A session that does not truncate. -/
theorem session_stored (hlib : lib.Documented blocks) (hdur : lib.Durable blocks) (s : Session)
    (h : Stored lib blocks scm c slots leaked) (hs : s.truncate = false)
    (hfuel : slots.length + s.requests.length < fuel) :
    ∃ o reply scm' c' slots' leaked', session lib fuel s scm = some (o, reply, scm') ∧
      s.onTree o (some c) = some (reply, some c') ∧ Stored lib blocks scm' c' slots' leaked' ∧
      Extends lib scm scm' slots slots' s.requests.length := by
  by_cases hm : s.malloc = true
  · have hkept : Kept lib blocks scm (lib.open_ s.truncate scm).2 := hs ▸ hdur.reopen scm
    exact session_kept hlib hdur s h hm hkept (fun ht => absurd (hs.symm.trans ht) (by decide)) hfuel
  · obtain ⟨hrun, htree⟩ := session_of_no_malloc (eq_false_of_ne_true hm) (some c)
    exact ⟨_, none, scm, c, slots, leaked, hrun, htree, h, .refl ..⟩

/-- A session on a region that is empty once it was opened. -/
theorem session_cleared (hlib : lib.Documented blocks) (hdur : lib.Durable blocks) (s : Session)
    {held : Option Content} (hm : s.malloc = true)
    (hempty : blocks (lib.open_ s.truncate scm).2.lib = [])
    (hheld : held = none ∨ s.truncate = true) (hfuel : s.requests.length < fuel) :
    ∃ o reply scm' held', session lib fuel s scm = some (o, reply, scm') ∧
      s.onTree o held = some (reply, held') ∧
      Held lib blocks s.requests.length scm' held' := by
  obtain ⟨⟨opened, scm₀⟩, hopen⟩ : ∃ r, lib.open_ s.truncate scm = r := ⟨_, rfl⟩
  rw [hopen] at hempty
  have hzero : lib.utilized scm₀.lib = 0 := (hlib.utilized _).2 hempty
  have hcleared : ∀ allocs, s.cleared (sessionOutcome lib s.truncate scm allocs) held = none := by
    intro allocs
    rw [Session.cleared, sessionOutcome_eq hopen]
    rcases hheld with rfl | ht
    · exact ite_self none
    · simp [hm, ht, hzero]
  cases opened with
  | false =>
      refine ⟨sessionOutcome lib s.truncate scm [], none, scm₀, none,
        session_null hm (avlOpen_refused hopen), Session.onTree_null (hcleared []) ?_, .empty hempty⟩
      rw [sessionOutcome_eq hopen]
      simp [Session.found]
  | true =>
      obtain ⟨scm₁, ⟨hstate, havl, h₁⟩ | ⟨hstate, havl, h₁⟩⟩ := avlOpen_empty hlib hdur hopen hempty
      · refine ⟨sessionOutcome lib s.truncate scm [], none, scm₁, none, session_null hm havl,
          Session.onTree_null (hcleared []) ?_, .empty h₁⟩
        rw [sessionOutcome_eq hopen]
        simp [Session.found, hzero, hstate]
      · have hfuel' : ([] : List Slot).length + s.requests.length < fuel := by simpa using hfuel
        obtain ⟨allocs, replies, scm₂, c', slots', leaked', hrun, htree, h₂, hE⟩ :=
          requests_stored hlib s.requests h₁ hfuel'
        have hlen := hE.length
        rw [List.length_nil, Nat.zero_add] at hlen
        refine ⟨sessionOutcome lib s.truncate scm allocs, some replies, lib.close scm₂, some c',
          session_opened hm havl h₁.base hrun,
          Session.onTree_found (c := Content.empty) (hcleared allocs) ?_ ?_,
          .stored (h₂.kept (hdur.close scm₂)) hlen⟩
        · rw [sessionOutcome_eq hopen]
          simp [Session.found, hm, hstate]
        · rw [sessionOutcome_eq hopen]
          exact htree

theorem session_held (hlib : lib.Documented blocks) (hdur : lib.Durable blocks) (s : Session)
    {n : ℕ} {held : Option Content} (h : Held lib blocks n scm held)
    (hfuel : n + s.requests.length < fuel) :
    ∃ o reply scm' held', session lib fuel s scm = some (o, reply, scm') ∧
      s.onTree o held = some (reply, held') ∧
      Held lib blocks (n + s.requests.length) scm' held' := by
  by_cases hm : s.malloc = true
  · have hcleared : blocks (lib.open_ s.truncate scm).2.lib = [] →
        held = none ∨ s.truncate = true → _ := fun hempty hheld =>
      session_cleared hlib hdur s hm hempty hheld (by omega : s.requests.length < fuel)
    rcases open_cases hlib hdur s.truncate scm with ⟨hkept, hfail⟩ | ⟨ht, hempty⟩
    · cases h with
      | empty h =>
          obtain ⟨o, reply, scm', held', hrun, htree, h'⟩ :=
            hcleared (hkept.used.trans h) (Or.inl rfl)
          exact ⟨o, reply, scm', held', hrun, htree, h'.mono (Nat.le_add_left ..)⟩
      | stored h hn =>
          have hfuel' : _ < fuel := (Nat.add_le_add_right hn s.requests.length).trans_lt hfuel
          obtain ⟨o, reply, scm', c', slots', leaked', hrun, htree, h', hE⟩ :=
            session_kept hlib hdur s h hm hkept hfail hfuel'
          have hlen := hE.length
          exact ⟨o, reply, scm', some c', hrun, htree, .stored h' (by omega)⟩
    · obtain ⟨o, reply, scm', held', hrun, htree, h'⟩ := hcleared hempty (Or.inr ht)
      exact ⟨o, reply, scm', held', hrun, htree, h'.mono (Nat.le_add_left ..)⟩
  · obtain ⟨hrun, htree⟩ := session_of_no_malloc (eq_false_of_ne_true hm) held
    exact ⟨_, none, scm, held, hrun, htree, h.mono (Nat.le_add_right ..)⟩

/-! ## Sessions -/

/-- The number of calls, an upper bound on the entries of the tree. -/
def calls (ss : List Session) : ℕ := (ss.map (fun s => s.requests.length)).sum

theorem sessions_held (hlib : lib.Documented blocks) (hdur : lib.Durable blocks) (ss : List Session)
    {n : ℕ} {held : Option Content} (h : Held lib blocks n scm held) (hfuel : n + calls ss < fuel) :
    ∃ os replies scm' held', sessions lib fuel ss scm = some (os, replies, scm') ∧
      sessionsOnTree ss os held = some (replies, held') ∧
      Held lib blocks (n + calls ss) scm' held' := by
  induction ss generalizing scm n held with
  | nil => exact ⟨[], [], scm, held, rfl, rfl, h⟩
  | cons s ss ih =>
      have hcalls : calls (s :: ss) = s.requests.length + calls ss := rfl
      rw [hcalls] at hfuel ⊢
      have hfuel₁ : n + s.requests.length < fuel := by omega
      obtain ⟨o, reply, scm₁, held₁, hrun, htree, h₁⟩ := session_held hlib hdur s h hfuel₁
      obtain ⟨os, replies, scm', held', hruns, htrees, h'⟩ := ih h₁ (by omega)
      refine ⟨o :: os, reply :: replies, scm', held', ?_, ?_, h'.mono (by omega)⟩
      · simp only [sessions, hrun, hruns, Option.bind_eq_bind, Option.bind_some]
      · simp only [sessionsOnTree, htree, htrees, Option.bind_eq_bind, Option.bind_some]

end

/-- **The pointer program does what the tree does.** On every library that is as documented, from a
    region with nothing in it, in every sequence of sessions, every pointer that is followed points to
    a block of its type, no assertion of `avl_open` fails, and every call replies what it replies on
    the tree. -/
theorem sessions_refine {η : Type} (lib : ScmLib η) (blocks : η → List (Addr × ℕ))
    (hlib : lib.Documented blocks) (hdur : lib.Durable blocks) (fuel : ℕ) (scm : Scm η)
    (ss : List Session) (hempty : blocks scm.lib = []) (hfuel : calls ss < fuel) :
    ∃ os replies scm' held, sessions lib fuel ss scm = some (os, replies, scm') ∧
      sessionsOnTree ss os none = some (replies, held) := by
  obtain ⟨os, replies, scm', held, hrun, htree, _⟩ :=
    sessions_held hlib hdur ss (.empty hempty) (by rwa [Nat.zero_add])
  exact ⟨os, replies, scm', held, hrun, htree⟩

/-- `"b"` and `"a"` are stored, and in a second session, which does not truncate, `"b"` again. -/
def twoSessions : List Session :=
  [⟨true, true, [.insert (letter 1), .insert (letter 0), .traverse]⟩,
    ⟨true, false, [.insert (letter 1), .exists_ (letter 1), .items, .unique]⟩]

theorem sessions_refine_two :
    ∃ os replies scm' held,
      sessions Bump.lib 8 twoSessions Bump.truncated = some (os, replies, scm') ∧
      sessionsOnTree twoSessions os none = some (replies, held) :=
  sessions_refine Bump.lib Bump.blocks Bump.documented Bump.durable 8 _ twoSessions rfl (by decide)

/-- The blocks in use are the state, a node and a string for each string of the tree, and the nodes
    that were lost. -/
def Accounted {η : Type} (lib : ScmLib η) (blocks : η → List (Addr × ℕ)) (scm : Scm η) :
    Option Content → Prop
  | none => blocks scm.lib = []
  | some c => (addrs blocks scm).Nodup ∧ ∃ (slots : List Slot) (leaked : List Addr),
      (blocks scm.lib).Perm ((lib.mbase scm.lib, sizeofState) ::
        (slots.flatMap Slot.blocks ++ leaked.map (fun a => (a, sizeofNode)))) ∧
      slots.map Slot.key = (entries c.state.root).map Prod.fst ∧ leaked.length = c.lost

/-- **Every block is accounted for.** After every sequence of sessions the blocks in use are the
    24 bytes of the state, 40 bytes and a copy of the string for each distinct string, and 40 bytes
    for each insertion that got a node and then no room for its string. -/
theorem sessions_accounted {η : Type} (lib : ScmLib η) (blocks : η → List (Addr × ℕ))
    (hlib : lib.Documented blocks) (hdur : lib.Durable blocks) (fuel : ℕ) (scm : Scm η)
    (ss : List Session) (hempty : blocks scm.lib = []) (hfuel : calls ss < fuel) :
    ∃ os replies scm' held, sessions lib fuel ss scm = some (os, replies, scm') ∧
      sessionsOnTree ss os none = some (replies, held) ∧ Accounted lib blocks scm' held := by
  obtain ⟨os, replies, scm', held, hrun, htree, hheld⟩ :=
    sessions_held hlib hdur ss (.empty hempty) (by rwa [Nat.zero_add])
  refine ⟨os, replies, scm', held, hrun, htree, ?_⟩
  cases hheld with
  | empty h => exact h
  | @stored c slots leaked h hn =>
      obtain ⟨root, _, hl⟩ := h.state
      exact ⟨h.nodup, slots, leaked, h.used, hl.keys, h.lost⟩

theorem sessions_accounted_two :
    ∃ os replies scm' held,
      sessions Bump.lib 8 twoSessions Bump.truncated = some (os, replies, scm') ∧
      sessionsOnTree twoSessions os none = some (replies, held) ∧
      Accounted Bump.lib Bump.blocks scm' held :=
  sessions_accounted Bump.lib Bump.blocks Bump.documented Bump.durable 8 _ twoSessions rfl
    (by decide)

end CS238P.Avl.Heap
