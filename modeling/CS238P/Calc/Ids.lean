import CS238P.Calc.Generate
import Mathlib.Data.List.Range

set_option autoImplicit false

/-! # Ids and variables

The ids come from one counter that `MKD` bumps: a binary node gets its id behind its left operand and
before its right one, a negation before its operand. A tree that a call returns has all the ids
between the counter it found and the counter it left (`Dag.Numbered`), whatever it read, so the ids
of the whole tree are 1, .., m.

`reflect` emits the nodes in another order, links first, and so every variable of the code is
declared before its uses. -/

namespace CS238P.Calc

open StraightLine

variable {V : Type}

/-- How many nodes. -/
def Dag.size : Dag V → ℕ
  | .null => 0
  | .node _ _ _ left right => left.size + right.size + 1

theorem Dag.length_ids (d : Dag V) : d.ids.length = d.size := by
  induction d with
  | null => rfl
  | node op id v left right ihl ihr => simp [Dag.ids, Dag.size, ihl, ihr]

/-- The ids are those above `lo` up to `hi`, each once. -/
def Dag.Numbered (lo hi : ℕ) (d : Dag V) : Prop :=
  lo ≤ hi ∧ d.ids.Perm (List.range' (lo + 1) (hi - lo))

section Numbered

variable {lo id hi : ℕ} {d left right : Dag V}

theorem Dag.Numbered.null (lo : ℕ) : (Dag.null : Dag V).Numbered lo lo := by
  simp [Dag.Numbered, Dag.ids]

/-- A node whose id was handed out between those of its links. -/
theorem Dag.Numbered.node (op : DagOp) (v : V) (hl : left.Numbered lo id)
    (hr : right.Numbered (id + 1) hi) : (Dag.node op (id + 1) v left right).Numbered lo hi := by
  obtain ⟨hlo, hleft⟩ := hl
  obtain ⟨hhi, hright⟩ := hr
  refine ⟨by omega, ?_⟩
  have hsplit : List.range' (lo + 1) (hi - lo) =
      List.range' (lo + 1) (id - lo) ++ (id + 1) :: List.range' (id + 1 + 1) (hi - (id + 1)) := by
    rw [← List.range'_succ, show id + 1 = lo + 1 + (id - lo) by omega, List.range'_append_1]
    congr 1
    omega
  rw [Dag.ids, hsplit]
  exact List.perm_middle.symm.trans (hleft.append (hright.cons _))

/-- Numbered from 1: the size says how far. -/
theorem Dag.Numbered.ids (h : d.Numbered 0 hi) : d.ids.Perm (List.range' 1 d.size) := by
  have hlen : d.size = hi := by simpa [← d.length_ids] using h.2.length_eq
  rw [hlen]
  exact h.2

end Numbered

/-! ## The parser -/

/-- The report of a bad operand makes no tree. -/
theorem badOperand_ok {l : Level} {op : DagOp} {q p' : Parser} {d : Dag V}
    (h : (match l.ops.name op q with
      | .ok name p'' => reject ("invalid '" ++ name ++ "' operand") p''
      | .error e p'' => .error e p'') = .ok d p') : d = .null := by
  cases hname : l.ops.name op q with
  | ok name p'' =>
      rw [hname] at h
      exact reject_ok h
  | error e p'' =>
      rw [hname] at h
      cases h

/-- The trees a call returns are numbered from the counter it finds to the one it leaves. -/
def Numbers (m : ParseM (Dag V)) : Prop :=
  ∀ p d p', m p = .ok d p' → d ≠ .null → d.Numbered p.id p'.id

variable [Zero V] {lexer : Lexer V} {fuel : ℕ}

theorem numbers_exprPrimary (h : Numbers (expr lexer fuel)) :
    Numbers (exprPrimary lexer (fuel + 1)) := by
  intro p d p' hres hd
  by_cases hval : headOp (rest lexer p) = .val
  · obtain ⟨t, r, hr, ht⟩ := exists_cons_of_headOp hval (by decide)
    rw [exprPrimary_val fuel hr ht] at hres
    cases hres
    exact .node .val t.val (.null _) (.null _)
  by_cases hopen : headOp (rest lexer p) = .open_
  · obtain ⟨t, r, hr, ht⟩ := exists_cons_of_headOp hopen (by decide)
    rw [exprPrimary_open fuel hr ht] at hres
    obtain ⟨d', q, hexpr, hd', hk⟩ := Outcome.onDag_ok hres hd fun _ => reject_ok
    have hnum : d'.Numbered p.id q.id := h p.advance d' q hexpr hd'
    by_cases hclose : headOp (rest lexer q) = .close
    · rw [if_pos hclose] at hk
      cases hk
      exact hnum
    · rw [if_neg hclose] at hk
      exact absurd (reject_ok hk) hd
  · rw [exprPrimary_other fuel hval hopen] at hres
    cases hres
    exact absurd rfl hd

theorem numbers_exprUnary (h : Numbers (exprUnary lexer fuel))
    (hprim : Numbers (exprPrimary lexer fuel)) : Numbers (exprUnary lexer (fuel + 1)) := by
  intro p d p' hres hd
  by_cases hadd : headOp (rest lexer p) = .add
  · obtain ⟨t, r, hr, ht⟩ := exists_cons_of_headOp hadd (by decide)
    rw [exprUnary_add fuel hr ht] at hres
    obtain ⟨d', q, hunary, hd', hk⟩ := Outcome.onDag_ok hres hd fun _ => reject_ok
    cases hk
    exact h p.advance _ _ hunary hd
  by_cases hsub : headOp (rest lexer p) = .sub
  · obtain ⟨t, r, hr, ht⟩ := exists_cons_of_headOp hsub (by decide)
    rw [exprUnary_sub fuel hr ht] at hres
    obtain ⟨d', q, hunary, hd', hk⟩ := Outcome.onDag_ok hres hd fun _ => reject_ok
    have hnum : d'.Numbered (p.id + 1) q.id := h p.made.advance d' q hunary hd'
    cases hk
    exact .node .neg 0 (.null _) hnum
  · rw [exprUnary_other fuel hadd hsub] at hres
    exact hprim p d p' hres hd

/-- The loop leaves no operator of its level behind. -/
theorem stops_of_tailLoop {l : Level} {read : ParseM (Dag V)} (n : ℕ) :
    ∀ (left dag d : Dag V) (p p' : Parser), tailLoop lexer l.ops read n left dag p = .ok d p' →
      d ≠ .null → Stops l (rest lexer p') := by
  induction n with
  | zero => intro left dag d p p' hres _; cases hres
  | succ n ih =>
      intro left dag d p p' hres hd
      by_cases hstop : Stops l (rest lexer p)
      · rw [tailLoop_stop n left dag hstop] at hres
        cases hres
        exact hstop
      · obtain ⟨op, t, r, hl, hr, ht⟩ := exists_op_of_not_stops hstop
        rw [tailLoop_op n left dag op hl hr ht] at hres
        obtain ⟨right, q, -, -, hk⟩ := Outcome.onDag_ok hres hd fun _ => badOperand_ok
        obtain ⟨dag', q', -, -, hk'⟩ := Outcome.onDag_ok hk hd fun _ => reject_ok
        exact ih left dag' d q' p' hk' hd

/-- The loop goes on numbering where its argument ends. -/
theorem Numbers.tailLoop {l : Level} {read : ParseM (Dag V)} (h : Numbers read) {lo : ℕ} (n : ℕ) :
    ∀ (left d : Dag V) (p p' : Parser), tailLoop lexer l.ops read n left left p = .ok d p' →
      d ≠ .null → left.Numbered lo p.id → d.Numbered lo p'.id := by
  induction n with
  | zero => intro left d p p' hres _ _; cases hres
  | succ n ih =>
      intro left d p p' hres hd hleft
      by_cases hstop : Stops l (rest lexer p)
      · rw [tailLoop_stop n left left hstop] at hres
        cases hres
        exact hleft
      · obtain ⟨op, t, r, hl, hr, ht⟩ := exists_op_of_not_stops hstop
        rw [tailLoop_op n left left op hl hr ht] at hres
        obtain ⟨right, q, hread, hright, hk⟩ := Outcome.onDag_ok hres hd fun _ => badOperand_ok
        obtain ⟨dag', q', hrec, hdag', hk'⟩ := Outcome.onDag_ok hk hd fun _ => reject_ok
        have hnum : right.Numbered (p.id + 1) q.id := h p.made.advance right q hread hright
        have hnum' : dag'.Numbered lo q'.id := ih _ dag' q q' hrec hdag' (hleft.node _ 0 hnum)
        -- the next iteration would leave the id of `dag'` out; the recursive call has read it all
        have hstop' : Stops l (rest lexer q') := stops_of_tailLoop n _ _ _ _ _ hrec hdag'
        cases n with
        | zero => cases hk'
        | succ n =>
            rw [tailLoop_stop n left dag' hstop'] at hk'
            cases hk'
            exact hnum'

theorem numbers_chain {l : Level} (h : ∀ k ≤ fuel, Numbers (operand lexer l k)) :
    Numbers (chain lexer l (fuel + 1)) := by
  intro p d p' hres hd
  rw [chain_succ] at hres
  obtain ⟨d', q, hop, hd', hk⟩ := Outcome.onDag_ok hres hd fun q hq => by cases hq; rfl
  have hnum := h fuel (Nat.le_refl _) p d' q hop hd'
  cases fuel with
  | zero => cases l <;> cases hk
  | succ k =>
      rw [tail_succ] at hk
      exact (h k (Nat.le_succ k)).tailLoop k d' d q p' hk hd hnum

/-- All functions of the grammar, called with this much fuel. -/
structure AllNumbers (lexer : Lexer V) (fuel : ℕ) : Prop where
  primary : Numbers (exprPrimary lexer fuel)
  unary : Numbers (exprUnary lexer fuel)
  term : Numbers (exprMultiplicative lexer fuel)
  additive : Numbers (exprAdditive lexer fuel)
  expr : Numbers (expr lexer fuel)

theorem allNumbers_zero : AllNumbers lexer 0 := by
  constructor <;> intro p d p' hres <;> cases hres

theorem allNumbers_succ (h : ∀ k ≤ fuel, AllNumbers lexer k) : AllNumbers lexer (fuel + 1) where
  primary := numbers_exprPrimary (h fuel (Nat.le_refl _)).expr
  unary := numbers_exprUnary (h fuel (Nat.le_refl _)).unary (h fuel (Nat.le_refl _)).primary
  term := numbers_chain (l := .multiplicative) fun k hk => (h k hk).unary
  additive := numbers_chain (l := .additive) fun k hk => (h k hk).term
  expr := by
    intro p d p' hres
    rw [expr_succ] at hres
    exact (h fuel (Nat.le_refl _)).additive p d p' hres

theorem allNumbers (lexer : Lexer V) (fuel : ℕ) : AllNumbers lexer fuel := by
  -- strong: a chain calls its operands with two amounts of fuel
  induction fuel using Nat.strongRecOn with
  | ind fuel ih =>
      cases fuel with
      | zero => exact allNumbers_zero
      | succ fuel => exact allNumbers_succ fun k hk => ih k (Nat.lt_succ_of_le hk)

/-- The ids of the tree that `top` returns are 1, .., m. -/
theorem top_ids {d : Dag V} {p : Parser} (h : top lexer fuel Parser.init = .ok d p)
    (hd : d ≠ .null) : d.ids.Perm (List.range' 1 d.size) := by
  rw [top_apply] at h
  obtain ⟨d', q, hexpr, hd', hk⟩ := Outcome.onDag_ok h hd fun _ => reject_ok
  have hnum : d'.Numbered 0 q.id := (allNumbers lexer fuel).expr _ d' q hexpr hd'
  by_cases hend : headOp (rest lexer q) = .op_
  · rw [if_pos hend] at hk
    cases hk
    exact hnum.ids
  · rw [if_neg hend] at hk
    exact absurd (reject_ok hk) hd

/-! ## The code -/

/-- The variables in the text of a right-hand side. -/
def Rhs.uses : Rhs V → List ℕ
  | .val _ => []
  | .neg r => [r]
  | .mul l r | .div l r | .add l r | .sub l r => [l, r]

omit [Zero V] in
theorem BinOp.uses_rhs (op : BinOp) (l r : ℕ) : (op.rhs l r : Rhs V).uses = [l, r] := by
  cases op <;> rfl

/-- What the code of a tree declares: its ids, in another order, and nothing before its links. -/
def Declares (d : Dag V) : Prop :=
  ∃ p id, reflect d = .ok p ∧ d.getId = .ok id ∧ (names p).Perm d.ids ∧ id ∈ names p ∧
    DeclaredFirst Rhs.uses [] p

omit [Zero V] in
theorem reflect_declares (d : Dag V) (a : Ast V) (h : d.ast = some a) : Declares d := by
  refine Dag.ast_induction (motive := fun d _ => Declares d) ?_ ?_ ?_ d a h
  · intro id v
    refine ⟨_, id, reflect_val id v, rfl, .refl _, by simp [names], ?_⟩
    simp [DeclaredFirst, Rhs.uses]
  · intro id v right b _ ih
    obtain ⟨p, r, hp, hr, hperm, hmem, hfirst⟩ := ih
    refine ⟨_, id, reflect_neg id v hp hr, rfl, ?_, by simp [names], hfirst.snoc ?_⟩
    · rw [names_append]
      exact (List.perm_append_singleton id _).trans (hperm.cons id)
    · simp [Rhs.uses, hmem]
  · intro op id v left right b c _ _ ihl ihr
    obtain ⟨p, l, hp, hl, hpermp, hmeml, hfirstp⟩ := ihl
    obtain ⟨q, r, hq, hr, hpermq, hmemr, hfirstq⟩ := ihr
    refine ⟨_, id, reflect_bin op id v hp hl hq hr, rfl, ?_, by simp [names],
      (hfirstp.append hfirstq).snoc ?_⟩
    · rw [names_append, names_append]
      exact (List.perm_append_singleton id _).trans ((hpermp.append hpermq).cons id)
    · simp [names_append, BinOp.uses_rhs, hmeml, hmemr]

/-- **Every variable is declared once, and before it is used**: the ids of the tree are 1, .., m,
    its code declares these names and no name twice, and what a declaration or the `return` uses is
    declared before. -/
theorem generate_declares (lexer : Lexer V) (fuel : ℕ) (d : Dag V) (p : Parser)
    (htop : top lexer fuel Parser.init = .ok d p) (hd : d ≠ .null) :
    d.ids.Perm (List.range' 1 d.size) ∧
      ∃ code id, generate d = .ok (code, id) ∧ (names code).Perm (List.range' 1 d.size) ∧
        DeclaredFirst Rhs.uses [] code ∧ id ∈ names code := by
  have hids := top_ids htop hd
  obtain ⟨⟨a, -, hast⟩, -⟩ := top_sound htop hd
  obtain ⟨code, id, hreflect, hid, hperm, hmem, hfirst⟩ := reflect_declares d a hast
  refine ⟨hids, code, id, ?_, hperm.trans hids, hfirst, hmem⟩
  simp [generate, hreflect, hid, bind, Except.bind, pure, Except.pure]

theorem generate_declares_quotient : quotientDag.ids.Perm (List.range' 1 quotientDag.size) ∧
    ∃ code id, generate quotientDag = .ok (code, id) ∧
      (names code).Perm (List.range' 1 quotientDag.size) ∧
      DeclaredFirst Rhs.uses [] code ∧ id ∈ names code :=
  generate_declares quotient 10 quotientDag _ top_quotient (by simp [quotientDag])

end CS238P.Calc
