import CS238P.Avl.Sessions

set_option autoImplicit false

/-! # What outlives a session

When nothing fails the replies of all sessions are those of one multiset of strings, which is handed
from session to session and emptied by a session that truncates (`sessions_durable`). And nothing
moves: a rotation changes links, so that a string and its node stay where they are through all
sessions that do not truncate (`sessions_keep`). -/

namespace CS238P.Avl.Heap

open CString SortedCounts

/-! ## A multiset of strings -/

def Request.onBag (xs : List CString) : Request → List CString × Reply
  | .insert item => (xs ++ [item.toCString], .ret 0)
  | .exists_ item => (xs, .count (.ofNat (xs.count item.toCString)))
  | .items => (xs, .count (.ofNat xs.length))
  | .unique => (xs, .count (.ofNat xs.dedup.length))
  | .traverse => (xs, .words ((ofList xs).map (fun e => (e.1, .ofNat e.2))))

def Session.onBag (xs : List CString) (s : Session) : List CString × List Reply :=
  Machine.runSpec Request.onBag (fun _ => false) (if s.truncate then [] else xs) s.requests

/-- No allocation that the session may ask for fails. -/
structure SessionOutcome.Fine (o : SessionOutcome) : Prop where
  opened : o.opened = true
  state : o.state = true
  allocs : ∀ alloc ∈ o.allocs, alloc.ok = true

/-- The tree counts the strings. -/
structure Counts (c : Content) (xs : List CString) : Prop where
  valid : Valid c.state
  entries : entries c.state.root = ofList xs

theorem counts_empty : Counts Content.empty [] := ⟨valid_empty, rfl⟩

section

variable {c c' : Content} {xs : List CString}

theorem words_eq (l : List (CString × ℕ)) (ws : List (CString × UInt64)) :
    l.foldl (fun ws e => ws ++ [(e.1, UInt64.ofNat e.2)]) ws =
      ws ++ l.map (fun e => (e.1, .ofNat e.2)) := by
  induction l generalizing ws with
  | nil => simp
  | cons e l ih => rw [List.foldl_cons, ih, List.map_cons, List.append_assoc, List.singleton_append]

theorem Counts.request {alloc : Alloc} {r : Request} {reply : Reply} (h : Counts c xs)
    (hok : alloc.ok = true) (htree : r.onTree alloc c = some (reply, c')) :
    reply = (r.onBag xs).2 ∧ Counts c' (r.onBag xs).1 := by
  have hA := h.valid.answers xs h.entries
  cases r with
  | insert item =>
      obtain ⟨ret, st', hins, hI⟩ := avlInsert_spec alloc item c.state h.valid
      have hc : Counted alloc item.toCString c.state.root := Or.inr hok
      simp only [Request.onTree, hins, Option.bind_eq_bind, Option.bind_some, Option.some.injEq,
        Prod.mk.injEq] at htree
      obtain ⟨rfl, rfl⟩ := htree
      have hret : ret = 0 := hI.ret_cases.resolve_right (fun hr => (hI.ret_null.1 hr).1 hc)
      refine ⟨by rw [hret]; rfl, hI.valid h.valid, ?_⟩
      rw [hI.entries_eq hc, h.entries]
      exact (ofList_snoc ..).symm
  | exists_ item =>
      obtain ⟨rfl, rfl⟩ := Prod.mk.inj (Option.some.inj htree)
      exact ⟨by rw [hA.exists_eq]; rfl, h⟩
  | items =>
      obtain ⟨rfl, rfl⟩ := Prod.mk.inj (Option.some.inj htree)
      exact ⟨by rw [hA.items]; rfl, h⟩
  | unique =>
      obtain ⟨rfl, rfl⟩ := Prod.mk.inj (Option.some.inj htree)
      exact ⟨by rw [hA.unique]; rfl, h⟩
  | traverse =>
      obtain ⟨rfl, rfl⟩ := Prod.mk.inj (Option.some.inj htree)
      refine ⟨?_, h⟩
      rw [Avl.avlTraverse, traverse_eq_foldl, h.entries, words_eq]
      rfl

theorem Counts.requests {rs : List Request} {allocs : List Alloc} {replies : List Reply}
    (h : Counts c xs) (hok : ∀ alloc ∈ allocs, alloc.ok = true)
    (htree : requestsOnTree rs allocs c = some (replies, c')) :
    replies = (Machine.runSpec Request.onBag (fun _ => false) xs rs).2 ∧
      Counts c' (Machine.runSpec Request.onBag (fun _ => false) xs rs).1 := by
  induction rs generalizing allocs replies c xs with
  | nil =>
      cases allocs with
      | nil =>
          obtain ⟨rfl, rfl⟩ := Prod.mk.inj (Option.some.inj htree)
          exact ⟨rfl, h⟩
      | cons alloc allocs => exact absurd htree (by simp [requestsOnTree])
  | cons r rs ih =>
      cases allocs with
      | nil => exact absurd htree (by simp [requestsOnTree])
      | cons alloc allocs =>
          obtain ⟨hok₁, hoks⟩ := List.forall_mem_cons.1 hok
          simp only [requestsOnTree, Option.bind_eq_bind, Option.bind_eq_some_iff] at htree
          obtain ⟨⟨reply, c₁⟩, hreq, ⟨replies', c₂⟩, hrest, heq⟩ := htree
          obtain ⟨rfl, rfl⟩ := Prod.mk.inj (Option.some.inj heq)
          obtain ⟨rfl, h₁⟩ := h.request hok₁ hreq
          obtain ⟨rfl, h'⟩ := ih h₁ hoks hrest
          exact ⟨rfl, h'⟩

/-- What the region holds counts the strings. -/
def HeldCounts (held : Option Content) (xs : List CString) : Prop :=
  Counts (held.getD Content.empty) xs

theorem HeldCounts.session {held held' : Option Content} {s : Session} {o : SessionOutcome}
    {reply : Option (List Reply)} (h : HeldCounts held xs) (hm : s.malloc = true) (ho : o.Fine)
    (htree : s.onTree o held = some (reply, held')) :
    reply = some (s.onBag xs).2 ∧ HeldCounts held' (s.onBag xs).1 := by
  have hcleared : HeldCounts (s.cleared o held) (if s.truncate then [] else xs) := by
    cases ht : s.truncate with
    | false =>
        have hsame : s.cleared o held = held := by simp [Session.cleared, ht]
        rw [hsame]
        exact h
    | true =>
        have hnone : s.cleared o held = none := by simp [Session.cleared, hm, ht, ho.opened]
        rw [hnone]
        exact counts_empty
  have hfound : s.found o (s.cleared o held) =
      some ((s.cleared o held).getD Content.empty) := by
    rw [Session.found, hm, ho.opened, ho.state]
    cases s.cleared o held <;> rfl
  simp only [Session.onTree, hfound, Option.bind_eq_bind, Option.bind_eq_some_iff] at htree
  obtain ⟨⟨replies, c'⟩, hreqs, heq⟩ := htree
  obtain ⟨rfl, rfl⟩ := Prod.mk.inj (Option.some.inj heq)
  obtain ⟨rfl, h'⟩ := Counts.requests hcleared ho.allocs hreqs
  exact ⟨rfl, h'⟩

theorem HeldCounts.sessions {held held' : Option Content} {ss : List Session}
    {os : List SessionOutcome} {replies : List (Option (List Reply))} (h : HeldCounts held xs)
    (hm : ∀ s ∈ ss, s.malloc = true) (ho : ∀ o ∈ os, o.Fine)
    (htree : sessionsOnTree ss os held = some (replies, held')) :
    replies = (Machine.runSpec Session.onBag (fun _ => false) xs ss).2.map some := by
  induction ss generalizing os replies held xs with
  | nil =>
      cases os with
      | nil =>
          obtain ⟨rfl, rfl⟩ := Prod.mk.inj (Option.some.inj htree)
          rfl
      | cons o os => exact absurd htree (by simp [sessionsOnTree])
  | cons s ss ih =>
      cases os with
      | nil => exact absurd htree (by simp [sessionsOnTree])
      | cons o os =>
          obtain ⟨hm₁, hms⟩ := List.forall_mem_cons.1 hm
          obtain ⟨ho₁, hos⟩ := List.forall_mem_cons.1 ho
          simp only [sessionsOnTree, Option.bind_eq_bind, Option.bind_eq_some_iff] at htree
          obtain ⟨⟨reply, held₁⟩, hsession, ⟨replies', held₂⟩, hrest, heq⟩ := htree
          obtain ⟨rfl, rfl⟩ := Prod.mk.inj (Option.some.inj heq)
          obtain ⟨rfl, h₁⟩ := h.session hm₁ ho₁ hsession
          rw [ih h₁ hms hos hrest]
          rfl

end

/-- **What was stored is there after the region was closed and opened again.** When no allocation
    fails the replies of all sessions are those of one multiset of strings, which a session that
    truncates finds empty and every other session finds as the one before left it. -/
theorem sessions_durable {η : Type} (lib : ScmLib η) (blocks : η → List (Addr × ℕ))
    (hlib : lib.Documented blocks) (hdur : lib.Durable blocks) (fuel : ℕ) (scm : Scm η)
    (ss : List Session) (hempty : blocks scm.lib = []) (hfuel : calls ss < fuel) :
    ∃ os replies scm', sessions lib fuel ss scm = some (os, replies, scm') ∧
      ((∀ s ∈ ss, s.malloc = true) → (∀ o ∈ os, o.Fine) →
        replies = (Machine.runSpec Session.onBag (fun _ => false) [] ss).2.map some) := by
  obtain ⟨os, replies, scm', held, hrun, htree, _⟩ :=
    sessions_held hlib hdur ss (.empty hempty) (by rwa [Nat.zero_add])
  have hcounts : HeldCounts none [] := counts_empty
  exact ⟨os, replies, scm', hrun, fun hm ho => hcounts.sessions hm ho htree⟩

/-- No allocation of the two sessions fails. -/
theorem twoSessions_fine {os : List SessionOutcome} {replies : List (Option (List Reply))}
    {scm' : Scm Bump}
    (h : sessions Bump.lib 8 twoSessions Bump.truncated = some (os, replies, scm')) :
    ∀ o ∈ os, o.Fine := by
  have hrun : (sessions Bump.lib 8 twoSessions Bump.truncated).map
      (fun r => r.1.all (fun o => o.opened && o.state && o.allocs.all Alloc.ok)) = some true := by
    decide +kernel
  rw [h, Option.map_some, Option.some.injEq, List.all_eq_true] at hrun
  intro o ho
  have hfine := hrun o ho
  rw [Bool.and_eq_true, Bool.and_eq_true, List.all_eq_true] at hfine
  exact ⟨hfine.1.1, hfine.1.2, hfine.2⟩

theorem sessions_durable_two :
    ∃ os scm', sessions Bump.lib 8 twoSessions Bump.truncated = some (os,
      (Machine.runSpec Session.onBag (fun _ => false) [] twoSessions).2.map some, scm') := by
  obtain ⟨os, replies, scm', hrun, hreplies⟩ := sessions_durable Bump.lib Bump.blocks
    Bump.documented Bump.durable 8 Bump.truncated twoSessions rfl (by decide)
  rw [hreplies (by simp [twoSessions]) (twoSessions_fine hrun)] at hrun
  exact ⟨os, scm', hrun⟩

/-! ## Nothing moves -/

theorem sessions_stored {η : Type} {lib : ScmLib η} {blocks : η → List (Addr × ℕ)} {fuel : ℕ}
    {scm : Scm η} {c : Content} {slots : List Slot} {leaked : List Addr}
    (hlib : lib.Documented blocks) (hdur : lib.Durable blocks) (ss : List Session)
    (h : Stored lib blocks scm c slots leaked) (hkeep : ∀ s ∈ ss, s.truncate = false)
    (hfuel : slots.length + calls ss < fuel) :
    ∃ os replies scm' c' slots' leaked', sessions lib fuel ss scm = some (os, replies, scm') ∧
      sessionsOnTree ss os (some c) = some (replies, some c') ∧
      Stored lib blocks scm' c' slots' leaked' ∧ Extends lib scm scm' slots slots' (calls ss) := by
  induction ss generalizing scm c slots leaked with
  | nil => exact ⟨[], [], scm, c, slots, leaked, rfl, rfl, h, .refl ..⟩
  | cons s ss ih =>
      have hcalls : calls (s :: ss) = s.requests.length + calls ss := rfl
      rw [hcalls] at hfuel ⊢
      obtain ⟨hs, hss⟩ := List.forall_mem_cons.1 hkeep
      have hfuel₁ : slots.length + s.requests.length < fuel := by omega
      obtain ⟨o, reply, scm₁, c₁, slots₁, leaked₁, hrun, htree, h₁, hE⟩ :=
        session_stored hlib hdur s h hs hfuel₁
      have hlen := hE.length
      obtain ⟨os, replies, scm', c', slots', leaked', hruns, htrees, h', hE'⟩ :=
        ih h₁ hss (by omega)
      refine ⟨o :: os, reply :: replies, scm', c', slots', leaked', ?_, ?_, h', hE.trans hE'⟩
      · simp only [sessions, hrun, hruns, Option.bind_eq_bind, Option.bind_some]
      · simp only [sessionsOnTree, htree, htrees, Option.bind_eq_bind, Option.bind_some]

/-- **No node and no string ever moves.** As long as the region is not truncated, through any number
    of sessions, every string stays at its address and so does the node that counts it. So the `item`
    that a callback of `avl_traverse` was given stays valid. -/
theorem sessions_keep {η : Type} (lib : ScmLib η) (blocks : η → List (Addr × ℕ))
    (hlib : lib.Documented blocks) (hdur : lib.Durable blocks) (fuel : ℕ) (scm : Scm η)
    (c : Content) (slots : List Slot) (leaked : List Addr) (ss : List Session)
    (h : Stored lib blocks scm c slots leaked) (hkeep : ∀ s ∈ ss, s.truncate = false)
    (hfuel : slots.length + calls ss < fuel) :
    ∃ os replies scm' c' slots' leaked', sessions lib fuel ss scm = some (os, replies, scm') ∧
      sessionsOnTree ss os (some c) = some (replies, some c') ∧
      Stored lib blocks scm' c' slots' leaked' ∧ slots.Sublist slots' ∧
      ∀ s ∈ slots, (∃ n, scm'.nodes s.node = some n ∧ n.item = s.item) ∧
        scm'.strings s.item = some s.key := by
  obtain ⟨os, replies, scm', c', slots', leaked', hrun, htree, h', hE⟩ :=
    sessions_stored hlib hdur ss h hkeep hfuel
  obtain ⟨root, _, hl⟩ := h'.state
  exact ⟨os, replies, scm', c', slots', leaked', hrun, htree, h', hE.sublist, fun s hs =>
    hl.at_slot (hE.sublist.subset hs)⟩

/-- A region that holds `"b"`, its node at 32 and its string at 72. -/
def regionB : Scm Bump where
  lib := ⟨[2, sizeofNode, sizeofState], by decide⟩
  states := Function.update (fun _ => none) 8 (some ⟨1, 1, 32⟩)
  nodes := Function.update (fun _ => none) 32 (some ⟨0, 1, 72, 0, 0⟩)
  strings := Function.update (fun _ => none) 72 (some (letter 1).toCString)

/-- The tree in it. -/
def contentB : Content := ⟨⟨1, 1, .node 0 1 (letter 1).toCString .null .null⟩, 0⟩

theorem stored_regionB : Stored Bump.lib Bump.blocks regionB contentB
    [⟨32, 72, (letter 1).toCString⟩] [] where
  valid := Reachable.valid ⟨[(letter 1, ⟨true, true⟩)], by decide⟩
  base := by decide
  state := ⟨32, rfl, .leaf (by decide) rfl rfl⟩
  used := by decide
  nodup := by decide
  lost := rfl

/-- Two sessions store `"c"` and `"d"`, and `"a"`: the tree is rotated at `"b"`. -/
def threeMore : List Session :=
  [⟨true, false, [.insert (letter 2), .insert (letter 3)]⟩,
    ⟨true, false, [.insert (letter 0), .traverse]⟩]

theorem sessions_keep_regionB :
    ∃ os replies scm' c' slots' leaked',
      sessions Bump.lib 8 threeMore regionB = some (os, replies, scm') ∧
      sessionsOnTree threeMore os (some contentB) = some (replies, some c') ∧
      Stored Bump.lib Bump.blocks scm' c' slots' leaked' ∧
      [⟨32, 72, (letter 1).toCString⟩].Sublist slots' ∧
      ∀ s ∈ ([⟨32, 72, (letter 1).toCString⟩] : List Slot),
        (∃ n, scm'.nodes s.node = some n ∧ n.item = s.item) ∧
          scm'.strings s.item = some s.key :=
  sessions_keep Bump.lib Bump.blocks Bump.documented Bump.durable 8 regionB contentB _ [] threeMore
    stored_regionB (by simp [threeMore]) (by decide)

end CS238P.Avl.Heap
