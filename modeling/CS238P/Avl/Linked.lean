import CS238P.Avl.Balance
import CS238P.Avl.Heap

set_option autoImplicit false

/-! # Trees in memory

`Linked scm p t slots`: from the address `p` on, the links of the region spell out the tree `t`, whose
nodes lie in the blocks `slots`, in tree order. When these blocks are distinct, the stores of a
rotation spell out the rotated tree over the same blocks in the same order: a rotation changes links
and depths, and moves nothing. -/

namespace CS238P.Avl.Heap

open CString

/-- Where a node lives: its block, the block of its string, and the string. -/
structure Slot where
  node : Addr
  item : Addr
  key : CString

/-- The blocks of the nodes. -/
def nodesOf (slots : List Slot) : List Addr := slots.map Slot.node

@[simp] theorem nodesOf_nil : nodesOf [] = [] := rfl

@[simp] theorem nodesOf_cons (s : Slot) (slots : List Slot) :
    nodesOf (s :: slots) = s.node :: nodesOf slots := rfl

@[simp] theorem nodesOf_append (slots slots' : List Slot) :
    nodesOf (slots ++ slots') = nodesOf slots ++ nodesOf slots' := List.map_append ..

/-- A node and its two subtrees lie apart. -/
theorem nodup_nodesOf_iff {s : Slot} {ls rs : List Slot} :
    (nodesOf (ls ++ s :: rs)).Nodup ↔ (nodesOf ls).Nodup ∧ (nodesOf rs).Nodup ∧
      s.node ∉ nodesOf ls ∧ s.node ∉ nodesOf rs ∧ ∀ a ∈ nodesOf ls, a ∉ nodesOf rs := by
  simp only [nodesOf_append, nodesOf_cons, List.nodup_append, List.nodup_cons, List.mem_cons]
  grind

variable {η : Type}

inductive Linked (scm : Scm η) : Addr → Node → List Slot → Prop
  | null : Linked scm 0 .null []
  | node {d : ℤ} {c : ℕ} {key : CString} {l r : Node} {p q pl pr : Addr} {ls rs : List Slot}
      (hp : p ≠ 0) (hn : scm.nodes p = some ⟨d, .ofNat c, q, pl, pr⟩) (hq : scm.strings q = some key)
      (hl : Linked scm pl l ls) (hr : Linked scm pr r rs) :
      Linked scm p (.node d c key l r) (ls ++ ⟨p, q, key⟩ :: rs)

theorem Linked.leaf {scm : Scm η} {d : ℤ} {c : ℕ} {key : CString} {p q : Addr} (hp : p ≠ 0)
    (hn : scm.nodes p = some ⟨d, .ofNat c, q, 0, 0⟩) (hq : scm.strings q = some key) :
    Linked scm p (.node d c key .null .null) [⟨p, q, key⟩] :=
  .node hp hn hq .null .null

/-- Nothing but node blocks of `slots` is written. -/
structure Within (slots : List Slot) (scm scm' : Scm η) : Prop where
  lib : scm'.lib = scm.lib
  states : scm'.states = scm.states
  strings : scm'.strings = scm.strings
  nodes : ∀ a ∉ nodesOf slots, scm'.nodes a = scm.nodes a

namespace Within

theorem refl (slots : List Slot) (scm : Scm η) : Within slots scm scm :=
  ⟨rfl, rfl, rfl, fun _ _ => rfl⟩

theorem trans {slots : List Slot} {scm scm₁ scm₂ : Scm η} (h : Within slots scm scm₁)
    (h' : Within slots scm₁ scm₂) : Within slots scm scm₂ :=
  ⟨h'.lib.trans h.lib, h'.states.trans h.states, h'.strings.trans h.strings,
    fun a ha => (h'.nodes a ha).trans (h.nodes a ha)⟩

theorem mono {slots slots' : List Slot} {scm scm' : Scm η} (h : Within slots scm scm')
    (hsub : ∀ a ∈ nodesOf slots, a ∈ nodesOf slots') : Within slots' scm scm' :=
  ⟨h.lib, h.states, h.strings, fun a ha => h.nodes a (fun hm => ha (hsub a hm))⟩

theorem setNode {slots : List Slot} {p : Addr} (scm : Scm η) (n : NodeBlock)
    (hp : p ∈ nodesOf slots) : Within slots scm (scm.setNode p n) :=
  ⟨rfl, rfl, rfl, fun _ ha => Scm.setNode_nodes_of_ne _ _ (fun he => ha (he ▸ hp))⟩

end Within

section

variable {scm scm' : Scm η} {p q : Addr} {t : Node} {slots : List Slot}

theorem Linked.eq_zero_iff (h : Linked scm p t slots) : p = 0 ↔ t = .null := by
  cases h with
  | null => simp
  | node hp => simp [hp]

/-- Only the blocks of the tree matter. -/
theorem Linked.frame (h : Linked scm p t slots)
    (hnodes : ∀ a ∈ nodesOf slots, scm'.nodes a = scm.nodes a)
    (hstrings : ∀ s ∈ slots, scm'.strings s.item = scm.strings s.item) :
    Linked scm' p t slots := by
  induction h with
  | null => exact .null
  | node hp hn hq _ _ ihl ihr =>
      simp only [nodesOf_append, nodesOf_cons, List.mem_append, List.mem_cons] at hnodes hstrings
      refine .node hp ?_ ?_ (ihl ?_ ?_) (ihr ?_ ?_)
      · rw [hnodes _ (Or.inr (Or.inl rfl)), hn]
      · rw [hstrings _ (Or.inr (Or.inl rfl)), hq]
      · exact fun a ha => hnodes a (Or.inl ha)
      · exact fun s hs => hstrings s (Or.inl hs)
      · exact fun a ha => hnodes a (Or.inr (Or.inr ha))
      · exact fun s hs => hstrings s (Or.inr (Or.inr hs))

theorem Linked.setNode (h : Linked scm p t slots) (n : NodeBlock) (hq : q ∉ nodesOf slots) :
    Linked (scm.setNode q n) p t slots :=
  h.frame (fun _ ha => Scm.setNode_nodes_of_ne _ _ (fun he => hq (he ▸ ha))) (fun _ _ => rfl)

/-! ## Depths -/

theorem Linked.delta_eq (h : Linked scm p t slots) : delta scm p = some (Avl.delta t) := by
  cases h with
  | null => simp [delta, Avl.delta]
  | node hp hn => simp [delta, hp, hn, Avl.delta]

theorem Linked.depth_eq {pa pb : Addr} {a b : Node} {as bs : List Slot} (ha : Linked scm pa a as)
    (hb : Linked scm pb b bs) : depth scm pa pb = some (Avl.depth a b) := by
  simp [depth, ha.delta_eq, hb.delta_eq, Avl.depth]

theorem Linked.balance_eq (h : Linked scm p t slots) : balance scm p = Avl.balance t ∨ p = 0 := by
  cases h with
  | null => exact Or.inr rfl
  | node hp hn hq hl hr =>
      exact Or.inl (by simp [balance, hn, hl.delta_eq, hr.delta_eq, Avl.balance])

end

/-! ## Rotations

Both rotations make the same four stores, to the links and then to the depths of two nodes. -/

/-- The stores of a rotation at `node`, once `root` is read. -/
def relink (node root : Addr) (f g : NodeBlock → NodeBlock) (outer : NodeBlock → Addr)
    (scm : Scm η) : Option (Addr × Scm η) := do
  let scm ← scm.modifyNode node f
  let scm ← scm.modifyNode root g
  let n ← scm.nodes node
  let d ← depth scm n.left n.right
  let scm ← scm.modifyNode node (fun n => { n with depth := d })
  let r ← scm.nodes root
  let d' ← depth scm (outer r) node
  let scm ← scm.modifyNode root (fun r => { r with depth := d' })
  some (root, scm)

theorem rotateRight_eq (node : Addr) (scm : Scm η) : rotateRight node scm = (do
    let n ← scm.nodes node
    let r ← scm.nodes n.left
    relink node n.left (fun n => { n with left := r.right }) (fun r => { r with right := node })
      NodeBlock.left scm) := rfl

theorem rotateLeft_eq (node : Addr) (scm : Scm η) : rotateLeft node scm = (do
    let n ← scm.nodes node
    let r ← scm.nodes n.right
    relink node n.right (fun n => { n with right := r.left }) (fun r => { r with left := node })
      NodeBlock.right scm) := rfl

section

variable {scm : Scm η} {p p₁ : Addr} {t t' : Node} {slots : List Slot}

/-- What the four stores amount to. -/
theorem relink_eq {n n₁ : NodeBlock} {f g : NodeBlock → NodeBlock} {outer : NodeBlock → Addr}
    {d d' : ℤ} {scm₁ scm₂ : Scm η} (hne : p₁ ≠ p) (hn : scm.nodes p = some n)
    (hn₁ : scm.nodes p₁ = some n₁) (hscm₁ : scm₁ = (scm.setNode p (f n)).setNode p₁ (g n₁))
    (hscm₂ : scm₂ = scm₁.setNode p { f n with depth := d })
    (hd : depth scm₁ (f n).left (f n).right = some d)
    (hd' : depth scm₂ (outer (g n₁)) p = some d') :
    relink p p₁ f g outer scm = some (p₁, scm₂.setNode p₁ { g n₁ with depth := d' }) := by
  have hroot : (scm.setNode p (f n)).nodes p₁ = some n₁ := by
    rw [Scm.setNode_nodes_of_ne _ _ hne, hn₁]
  have hnode : scm₁.nodes p = some (f n) := by
    rw [hscm₁, Scm.setNode_nodes_of_ne _ _ hne.symm, Scm.setNode_nodes_self]
  have hroot₂ : scm₂.nodes p₁ = some (g n₁) := by
    rw [hscm₂, Scm.setNode_nodes_of_ne _ _ hne, hscm₁, Scm.setNode_nodes_self]
  simp only [relink, Option.bind_eq_bind, Option.bind_some, Scm.modifyNode_eq hn,
    Scm.modifyNode_eq hroot, ← hscm₁, hnode, hd, Scm.modifyNode_eq hnode, ← hscm₂, hroot₂, hd',
    Scm.modifyNode_eq hroot₂]

theorem rotateRight_linked (h : Linked scm p t slots) (hnd : (nodesOf slots).Nodup)
    (ht : Avl.rotateRight t = some t') :
    ∃ p' scm', rotateRight p scm = some (p', scm') ∧ Linked scm' p' t' slots ∧
      Within slots scm scm' := by
  cases h with
  | null => simp [Avl.rotateRight] at ht
  | @node d c key l r _ q p₁ pr ls rs hp hn hq hl hr =>
    cases hl with
    | null => simp [Avl.rotateRight] at ht
    | @node d' c' key' a b _ q' pa pb as bs hp' hn' hq' ha hb =>
        simp only [Avl.rotateRight, Option.some.injEq] at ht
        subst ht
        obtain ⟨hnd', _, hpl, hpr, hdis⟩ := nodup_nodesOf_iff.1 hnd
        obtain ⟨_, _, hpa', hpb', _⟩ := nodup_nodesOf_iff.1 hnd'
        simp only [nodesOf_append, nodesOf_cons, List.mem_append, List.mem_cons, not_or] at hpl
        obtain ⟨hpa, hne, hpb⟩ := hpl
        have hpr' : p₁ ∉ nodesOf rs := hdis p₁ (by simp)
        -- the memory with the new links, then with the depth of the lower node
        obtain ⟨scm₁, hscm₁⟩ : ∃ scm₁, scm₁ =
            (scm.setNode p ⟨d, .ofNat c, q, pb, pr⟩).setNode p₁ ⟨d', .ofNat c', q', pa, p⟩ :=
          ⟨_, rfl⟩
        obtain ⟨scm₂, hscm₂⟩ : ∃ scm₂, scm₂ = scm₁.setNode p ⟨Avl.depth b r, .ofNat c, q, pb, pr⟩ :=
          ⟨_, rfl⟩
        have ha₂ : Linked scm₂ pa a as := by
          rw [hscm₂, hscm₁]
          exact ((ha.setNode _ hpa).setNode _ hpa').setNode _ hpa
        have hb₁ : Linked scm₁ pb b bs := hscm₁ ▸ (hb.setNode _ hpb).setNode _ hpb'
        have hr₁ : Linked scm₁ pr r rs := hscm₁ ▸ (hr.setNode _ hpr).setNode _ hpr'
        have hnode : Linked scm₂ p (.node (Avl.depth b r) c key b r) (bs ++ ⟨p, q, key⟩ :: rs) := by
          rw [hscm₂]
          refine .node hp (Scm.setNode_nodes_self ..) ?_ (hb₁.setNode _ hpb) (hr₁.setNode _ hpr)
          rw [hscm₁]
          exact hq
        refine ⟨p₁, scm₂.setNode p₁
          ⟨Avl.depth a (.node (Avl.depth b r) c key b r), .ofNat c', q', pa, p⟩, ?_, ?_, ?_⟩
        · simp only [rotateRight_eq, hn, hn', Option.bind_eq_bind, Option.bind_some]
          exact relink_eq (Ne.symm hne) hn hn' hscm₁ hscm₂ (hb₁.depth_eq hr₁) (ha₂.depth_eq hnode)
        · rw [List.append_assoc, List.cons_append]
          refine .node hp' (Scm.setNode_nodes_self ..) ?_ (ha₂.setNode _ hpa') (hnode.setNode _ ?_)
          · rw [hscm₂, hscm₁]
            exact hq'
          · simp [hpb', hpr', Ne.symm hne]
        · have hmem : p ∈ nodesOf (as ++ ⟨p₁, q', key'⟩ :: bs ++ ⟨p, q, key⟩ :: rs) ∧
              p₁ ∈ nodesOf (as ++ ⟨p₁, q', key'⟩ :: bs ++ ⟨p, q, key⟩ :: rs) := by simp
          rw [hscm₂, hscm₁]
          exact (((Within.setNode _ _ hmem.1).trans (Within.setNode _ _ hmem.2)).trans
            (Within.setNode _ _ hmem.1)).trans (Within.setNode _ _ hmem.2)

theorem rotateLeft_linked (h : Linked scm p t slots) (hnd : (nodesOf slots).Nodup)
    (ht : Avl.rotateLeft t = some t') :
    ∃ p' scm', rotateLeft p scm = some (p', scm') ∧ Linked scm' p' t' slots ∧
      Within slots scm scm' := by
  cases h with
  | null => simp [Avl.rotateLeft] at ht
  | @node d c key l r _ q pl p₁ ls rs hp hn hq hl hr =>
    cases hr with
    | null => simp [Avl.rotateLeft] at ht
    | @node d' c' key' a b _ q' pa pb as bs hp' hn' hq' ha hb =>
        simp only [Avl.rotateLeft, Option.some.injEq] at ht
        subst ht
        obtain ⟨_, hnd', hpl, hpr, hdis⟩ := nodup_nodesOf_iff.1 hnd
        obtain ⟨_, _, hpa', hpb', _⟩ := nodup_nodesOf_iff.1 hnd'
        simp only [nodesOf_append, nodesOf_cons, List.mem_append, List.mem_cons, not_or] at hpr
        obtain ⟨hpa, hne, hpb⟩ := hpr
        have hpl' : p₁ ∉ nodesOf ls := fun h => hdis p₁ h (by simp)
        obtain ⟨scm₁, hscm₁⟩ : ∃ scm₁, scm₁ =
            (scm.setNode p ⟨d, .ofNat c, q, pl, pa⟩).setNode p₁ ⟨d', .ofNat c', q', p, pb⟩ :=
          ⟨_, rfl⟩
        obtain ⟨scm₂, hscm₂⟩ : ∃ scm₂, scm₂ = scm₁.setNode p ⟨Avl.depth l a, .ofNat c, q, pl, pa⟩ :=
          ⟨_, rfl⟩
        have hb₂ : Linked scm₂ pb b bs := by
          rw [hscm₂, hscm₁]
          exact ((hb.setNode _ hpb).setNode _ hpb').setNode _ hpb
        have ha₁ : Linked scm₁ pa a as := hscm₁ ▸ (ha.setNode _ hpa).setNode _ hpa'
        have hl₁ : Linked scm₁ pl l ls := hscm₁ ▸ (hl.setNode _ hpl).setNode _ hpl'
        have hnode : Linked scm₂ p (.node (Avl.depth l a) c key l a) (ls ++ ⟨p, q, key⟩ :: as) := by
          rw [hscm₂]
          refine .node hp (Scm.setNode_nodes_self ..) ?_ (hl₁.setNode _ hpl) (ha₁.setNode _ hpa)
          rw [hscm₁]
          exact hq
        refine ⟨p₁, scm₂.setNode p₁
          ⟨Avl.depth b (.node (Avl.depth l a) c key l a), .ofNat c', q', p, pb⟩, ?_, ?_, ?_⟩
        · simp only [rotateLeft_eq, hn, hn', Option.bind_eq_bind, Option.bind_some]
          exact relink_eq (Ne.symm hne) hn hn' hscm₁ hscm₂ (hl₁.depth_eq ha₁) (hb₂.depth_eq hnode)
        · rw [← List.cons_append, ← List.append_assoc]
          refine .node hp' (Scm.setNode_nodes_self ..) ?_ (hnode.setNode _ ?_) (hb₂.setNode _ hpb')
          · rw [hscm₂, hscm₁]
            exact hq'
          · simp [hpl', hpa', Ne.symm hne]
        · have hmem : p ∈ nodesOf (ls ++ ⟨p, q, key⟩ :: (as ++ ⟨p₁, q', key'⟩ :: bs)) ∧
              p₁ ∈ nodesOf (ls ++ ⟨p, q, key⟩ :: (as ++ ⟨p₁, q', key'⟩ :: bs)) := by simp
          rw [hscm₂, hscm₁]
          exact (((Within.setNode _ _ hmem.1).trans (Within.setNode _ _ hmem.2)).trans
            (Within.setNode _ _ hmem.1)).trans (Within.setNode _ _ hmem.2)

/-! ## Links and depths

A subtree was replaced by one over the same or other blocks; its parent's link is stored. -/

theorem setLeft_linked {d : ℤ} {c : ℕ} {key : CString} {l r : Node} {q x pl pr : Addr}
    {ls rs : List Slot} (hp : p ≠ 0) (hn : scm.nodes p = some ⟨d, .ofNat c, q, x, pr⟩)
    (hq : scm.strings q = some key) (hl : Linked scm pl l ls) (hr : Linked scm pr r rs)
    (hpl : p ∉ nodesOf ls) (hpr : p ∉ nodesOf rs) :
    ∃ scm', scm.modifyNode p (fun n => { n with left := pl }) = some scm' ∧
      Linked scm' p (.node d c key l r) (ls ++ ⟨p, q, key⟩ :: rs) ∧
      Within [⟨p, q, key⟩] scm scm' :=
  ⟨_, Scm.modifyNode_eq hn _, .node hp (Scm.setNode_nodes_self ..) hq (hl.setNode _ hpl)
    (hr.setNode _ hpr), Within.setNode _ _ (by simp)⟩

theorem setRight_linked {d : ℤ} {c : ℕ} {key : CString} {l r : Node} {q x pl pr : Addr}
    {ls rs : List Slot} (hp : p ≠ 0) (hn : scm.nodes p = some ⟨d, .ofNat c, q, pl, x⟩)
    (hq : scm.strings q = some key) (hl : Linked scm pl l ls) (hr : Linked scm pr r rs)
    (hpl : p ∉ nodesOf ls) (hpr : p ∉ nodesOf rs) :
    ∃ scm', scm.modifyNode p (fun n => { n with right := pr }) = some scm' ∧
      Linked scm' p (.node d c key l r) (ls ++ ⟨p, q, key⟩ :: rs) ∧
      Within [⟨p, q, key⟩] scm scm' :=
  ⟨_, Scm.modifyNode_eq hn _, .node hp (Scm.setNode_nodes_self ..) hq (hl.setNode _ hpl)
    (hr.setNode _ hpr), Within.setNode _ _ (by simp)⟩

theorem setDepth_linked (h : Linked scm p t slots) (hnd : (nodesOf slots).Nodup)
    (ht : Avl.setDepth t = some t') :
    ∃ scm', setDepth p scm = some scm' ∧ Linked scm' p t' slots ∧ Within slots scm scm' := by
  cases h with
  | null => simp [Avl.setDepth] at ht
  | @node d c key l r _ q pl pr ls rs hp hn hq hl hr =>
      simp only [Avl.setDepth, Option.some.injEq] at ht
      subst ht
      obtain ⟨_, _, hpl, hpr, _⟩ := nodup_nodesOf_iff.1 hnd
      refine ⟨scm.setNode p ⟨Avl.depth l r, .ofNat c, q, pl, pr⟩, ?_, .node hp
        (Scm.setNode_nodes_self ..) hq (hl.setNode _ hpl) (hr.setNode _ hpr),
        Within.setNode _ _ (by simp)⟩
      simp only [setDepth, hn, Option.bind_eq_bind, Option.bind_some, hl.depth_eq hr,
        Scm.modifyNode_eq hn]

/-- What lies beside the written blocks stays linked. -/
theorem Linked.within {slots' : List Slot} {scm' : Scm η} (h : Linked scm p t slots)
    (hw : Within slots' scm scm') (hdis : ∀ a ∈ nodesOf slots, a ∉ nodesOf slots') :
    Linked scm' p t slots :=
  h.frame (fun a ha => hw.nodes a (hdis a ha)) (fun _ _ => by rw [hw.strings])

theorem rotateLeftRight_linked (h : Linked scm p t slots) (hnd : (nodesOf slots).Nodup)
    (ht : Avl.rotateLeftRight t = some t') :
    ∃ p' scm', rotateLeftRight p scm = some (p', scm') ∧ Linked scm' p' t' slots ∧
      Within slots scm scm' := by
  cases h with
  | null => simp [Avl.rotateLeftRight] at ht
  | @node d c key l r _ q pl pr ls rs hp hn hq hl hr =>
      simp only [Avl.rotateLeftRight, Option.bind_eq_bind, Option.bind_eq_some_iff] at ht
      obtain ⟨l', hl', ht⟩ := ht
      obtain ⟨hndl, _, hpl, hpr, hdis⟩ := nodup_nodesOf_iff.1 hnd
      obtain ⟨pl', scm₁, hrun₁, hlinked₁, hw₁⟩ := rotateLeft_linked hl hndl hl'
      obtain ⟨scm₂, hrun₂, hlinked₂, hw₂⟩ := setLeft_linked (x := pl) hp
        (by rw [hw₁.nodes p hpl, hn]) (by rw [hw₁.strings, hq]) hlinked₁
        (hr.within hw₁ (fun a ha h => hdis a h ha)) hpl hpr
      obtain ⟨p', scm₃, hrun₃, hlinked₃, hw₃⟩ := rotateRight_linked hlinked₂ hnd ht
      refine ⟨p', scm₃, ?_, hlinked₃, ?_⟩
      · simp only [rotateLeftRight, hn, hrun₁, hrun₂, hrun₃, Option.bind_eq_bind, Option.bind_some]
      · exact ((hw₁.mono (by simp +contextual)).trans (hw₂.mono (by simp))).trans hw₃

theorem rotateRightLeft_linked (h : Linked scm p t slots) (hnd : (nodesOf slots).Nodup)
    (ht : Avl.rotateRightLeft t = some t') :
    ∃ p' scm', rotateRightLeft p scm = some (p', scm') ∧ Linked scm' p' t' slots ∧
      Within slots scm scm' := by
  cases h with
  | null => simp [Avl.rotateRightLeft] at ht
  | @node d c key l r _ q pl pr ls rs hp hn hq hl hr =>
      simp only [Avl.rotateRightLeft, Option.bind_eq_bind, Option.bind_eq_some_iff] at ht
      obtain ⟨r', hr', ht⟩ := ht
      obtain ⟨_, hndr, hpl, hpr, hdis⟩ := nodup_nodesOf_iff.1 hnd
      obtain ⟨pr', scm₁, hrun₁, hlinked₁, hw₁⟩ := rotateRight_linked hr hndr hr'
      obtain ⟨scm₂, hrun₂, hlinked₂, hw₂⟩ := setRight_linked (x := pr) hp
        (by rw [hw₁.nodes p hpr, hn]) (by rw [hw₁.strings, hq]) (hl.within hw₁ hdis) hlinked₁
        hpl hpr
      obtain ⟨p', scm₃, hrun₃, hlinked₃, hw₃⟩ := rotateLeft_linked hlinked₂ hnd ht
      refine ⟨p', scm₃, ?_, hlinked₃, ?_⟩
      · simp only [rotateRightLeft, hn, hrun₁, hrun₂, hrun₃, Option.bind_eq_bind, Option.bind_some]
      · exact ((hw₁.mono (by simp +contextual)).trans (hw₂.mono (by simp))).trans hw₃

/-! ## Repair -/

theorem repairLeft_linked {item : CString} (h : Linked scm p t slots) (hnd : (nodesOf slots).Nodup)
    (ht : Avl.repairLeft item t = some t') :
    ∃ p' scm', repairLeft item p scm = some (p', scm') ∧ Linked scm' p' t' slots ∧
      Within slots scm scm' := by
  have h' := h
  cases h with
  | null => simp [Avl.repairLeft, Avl.balance] at ht
  | @node d c key l r _ q pl pr ls rs hp hn hq hl hr =>
      have hbal := h'.balance_eq.resolve_right hp
      simp only [Avl.repairLeft, Avl.balance, Option.bind_eq_bind, Option.bind_some] at ht hbal
      simp only [repairLeft, hbal, Option.bind_eq_bind, Option.bind_some]
      split_ifs at ht ⊢ with hb
      · -- a rotation: the heap compares with the same key as the tree
        cases hl with
        | null => simp at ht
        | node hp' hn' hq' =>
            simp only [hn, hn', hq', Option.bind_some] at ht ⊢
            split_ifs at ht ⊢ with hcmp
            · exact rotateRight_linked h' hnd ht
            · exact rotateLeftRight_linked h' hnd ht
      · obtain rfl := Option.some.inj ht
        exact ⟨p, scm, rfl, h', Within.refl ..⟩

theorem repairRight_linked {item : CString} (h : Linked scm p t slots)
    (hnd : (nodesOf slots).Nodup) (ht : Avl.repairRight item t = some t') :
    ∃ p' scm', repairRight item p scm = some (p', scm') ∧ Linked scm' p' t' slots ∧
      Within slots scm scm' := by
  have h' := h
  cases h with
  | null => simp [Avl.repairRight, Avl.balance] at ht
  | @node d c key l r _ q pl pr ls rs hp hn hq hl hr =>
      have hbal := h'.balance_eq.resolve_right hp
      simp only [Avl.repairRight, Avl.balance, Option.bind_eq_bind, Option.bind_some] at ht hbal
      simp only [repairRight, hbal, Option.bind_eq_bind, Option.bind_some]
      split_ifs at ht ⊢ with hb
      · cases hr with
        | null => simp at ht
        | node hp' hn' hq' =>
            simp only [hn, hn', hq', Option.bind_some] at ht ⊢
            split_ifs at ht ⊢ with hcmp
            · exact rotateLeft_linked h' hnd ht
            · exact rotateRightLeft_linked h' hnd ht
      · obtain rfl := Option.some.inj ht
        exact ⟨p, scm, rfl, h', Within.refl ..⟩

end

end CS238P.Avl.Heap
