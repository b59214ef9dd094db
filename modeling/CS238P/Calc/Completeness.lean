import CS238P.Calc.Run

set_option autoImplicit false

/-! # The parser reads what the grammar derives

By induction on the derivation. A call either runs out of fuel or returns the tree of the derivation
and leaves exactly the tokens behind it. The tail functions return only at a token that does not
continue their chain, so the second iteration of their loop ends at once. -/

namespace CS238P.Calc

variable {V : Type} [Zero V] {lexer : Lexer V}

/-- The call returns a tree that stands for `a` and leaves the tokens `us`, if it has the fuel. -/
def ReadsTo (lexer : Lexer V) (us : List (LexerToken V)) (a : Ast V) : Outcome V → Prop
  | .ok d p => rest lexer p = us ∧ d.ast = some a
  | .error e _ => e = .outOfFuel

omit [Zero V] in
theorem ReadsTo.onDag {r : Outcome V} {us us' : List (LexerToken V)} {a a' : Ast V}
    {null : Parser → Outcome V} {k : Dag V → Parser → Outcome V} (h : ReadsTo lexer us a r)
    (hk : ∀ d p, rest lexer p = us → d.ast = some a → ReadsTo lexer us' a' (k d p)) :
    ReadsTo lexer us' a' (r.onDag null k) := by
  cases r with
  | error e p => exact h
  | ok d p =>
      cases d with
      | null => exact absurd h.2 (by simp [Dag.ast])
      | node op id v left right => exact hk _ p h.1 h.2

/-! ## First tokens -/

omit [Zero V] in
theorem Derives.headOp_primary {ts us : List (LexerToken V)} {a : Ast V}
    (h : Derives .primary ts a) : headOp (ts ++ us) = .val ∨ headOp (ts ++ us) = .open_ := by
  cases h with
  | val t ht => exact .inl ht
  | paren t u ts a ht hu h => exact .inr ht

omit [Zero V] in
/-- What follows an operand inside a tail does not continue it if what follows the tail does not. -/
theorem Derives.follow_operand {l : Level} {left : Ast V} {us r : List (LexerToken V)} {a : Ast V}
    (h : Derives (.tail l left) us a) (hr : Follow l.operand r) : Follow l.operand (us ++ r) := by
  cases h with
  | stop => exact hr
  | step op t ts us _ b _ ht => exact follow_operand_of_op op t _ ht

/-! ## The induction -/

/-- The function for a nonterminal reads `ts` to the tree `a` wherever it may stop behind `ts`. -/
def Completes (lexer : Lexer V) (ts : List (LexerToken V)) (a : Ast V) : NT V → Prop
  | .primary => ∀ fuel p us, rest lexer p = ts ++ us →
      ReadsTo lexer us a (exprPrimary lexer fuel p)
  | .unary => ∀ fuel p us, rest lexer p = ts ++ us → ReadsTo lexer us a (exprUnary lexer fuel p)
  | .chain l => ∀ fuel p us, rest lexer p = ts ++ us → Follow (.chain l) us →
      ReadsTo lexer us a (chain lexer l fuel p)
  | .tail l left => ∀ fuel fuel' d p us, d.ast = some left → rest lexer p = ts ++ us →
      Follow (.chain l) us →
      ReadsTo lexer us a (tailLoop lexer l.ops (operand lexer l fuel) fuel' d d p)

theorem Completes.operand {l : Level} {ts us : List (LexerToken V)} {a : Ast V}
    (h : Completes lexer ts a l.operand) (fuel : ℕ) {p : Parser} (hp : rest lexer p = ts ++ us)
    (hus : Follow l.operand us) : ReadsTo lexer us a (operand lexer l fuel p) := by
  cases l with
  | multiplicative => exact h fuel p us hp
  | additive => exact h fuel p us hp hus

theorem completes_primary {ts : List (LexerToken V)} {a : Ast V}
    (hd : Derives .primary ts a) (h : Completes lexer ts a .primary) :
    Completes lexer ts a .unary := by
  intro fuel p us hp
  cases fuel with
  | zero => rfl
  | succ fuel =>
      have hhead : headOp (rest lexer p) = .val ∨ headOp (rest lexer p) = .open_ := by
        rw [hp]
        exact hd.headOp_primary
      rw [exprUnary_other fuel (by rcases hhead with e | e <;> simp [e])
        (by rcases hhead with e | e <;> simp [e])]
      exact h fuel p us hp

theorem completes_paren {t u : LexerToken V} {ts : List (LexerToken V)} {a : Ast V}
    (ht : t.op = .open_) (hu : u.op = .close) (h : Completes lexer ts a .expr) :
    Completes lexer (t :: (ts ++ [u])) a .primary := by
  intro fuel p us hp
  cases fuel with
  | zero => rfl
  | succ fuel =>
      have hp' : rest lexer p.advance = ts ++ u :: us := by
        rw [rest_advance (by simpa using hp)]
      rw [exprPrimary_open fuel hp ht]
      cases fuel with
      | zero => rfl
      | succ fuel =>
          rw [expr_succ]
          refine (h fuel _ _ hp' ?_).onDag fun d p'' hr hast => ?_
          · simp [Follow, Stops, headOp, hu, Level.ops, TailOps.dagOp, multiplicativeOps,
              additiveOps]
          · rw [if_pos (by rw [hr]; exact hu)]
            exact ⟨rest_advance hr, hast⟩

theorem completes_plus {t : LexerToken V} {ts : List (LexerToken V)} {a : Ast V}
    (ht : t.op = .add) (h : Completes lexer ts a .unary) : Completes lexer (t :: ts) a .unary := by
  intro fuel p us hp
  cases fuel with
  | zero => rfl
  | succ fuel =>
      rw [exprUnary_add fuel hp ht]
      exact (h fuel _ us (rest_advance hp)).onDag fun d p' hr hast => ⟨hr, hast⟩

theorem completes_minus {t : LexerToken V} {ts : List (LexerToken V)} {a : Ast V}
    (ht : t.op = .sub) (h : Completes lexer ts a .unary) :
    Completes lexer (t :: ts) (.neg a) .unary := by
  intro fuel p us hp
  cases fuel with
  | zero => rfl
  | succ fuel =>
      rw [exprUnary_sub fuel hp ht]
      have hp' : rest lexer p.made = t :: (ts ++ us) := hp
      exact (h fuel _ us (rest_advance hp')).onDag fun d p' hr hast => ⟨hr, by simp [hast]⟩

theorem completes_chain {l : Level} {ts us : List (LexerToken V)} {a b : Ast V}
    (hd : Derives (.tail l a) us b) (h : Completes lexer ts a l.operand)
    (ht : Completes lexer us b (.tail l a)) : Completes lexer (ts ++ us) b (.chain l) := by
  intro fuel p r hp hr
  cases fuel with
  | zero => cases l <;> rfl
  | succ fuel =>
      rw [chain_succ]
      have hp' : rest lexer p = ts ++ (us ++ r) := by rw [hp, List.append_assoc]
      refine (h.operand fuel hp' (hd.follow_operand hr.operand)).onDag fun d p' hrest hast => ?_
      cases fuel with
      | zero => cases l <;> rfl
      | succ fuel =>
          rw [tail_succ]
          exact ht fuel fuel d p' r hast hrest hr

theorem completes_stop {l : Level} {a : Ast V} : Completes lexer [] a (.tail l a) := by
  intro fuel fuel' d p us hast hp hus
  cases fuel' with
  | zero => rfl
  | succ fuel' =>
      rw [tailLoop_stop fuel' d d (by rw [hp]; exact hus.stops)]
      exact ⟨hp, hast⟩

theorem completes_step {op : BinOp} {t : LexerToken V} {ts us : List (LexerToken V)} {a b c : Ast V}
    (ht : t.op = op.tok) (hd : Derives (.tail op.level (.bin op a b)) us c)
    (h : Completes lexer ts b op.level.operand)
    (hr : Completes lexer us c (.tail op.level (.bin op a b))) :
    Completes lexer (t :: (ts ++ us)) c (.tail op.level a) := by
  intro fuel fuel' d p r hast hp hfollow
  cases fuel' with
  | zero => rfl
  | succ fuel' =>
      have hp' : rest lexer p.made.advance = ts ++ (us ++ r) := by
        have hmade : rest lexer p.made = t :: (ts ++ (us ++ r)) := by simpa using hp
        exact rest_advance hmade
      rw [tailLoop_op fuel' d d op rfl hp ht]
      refine (h.operand fuel hp' (hd.follow_operand hfollow.operand)).onDag
        fun right p' hrest hright => ?_
      refine (hr fuel fuel' _ p' r (Dag.ast_bin op _ _ hast hright) hrest hfollow).onDag
        fun d' p'' hrest' hd' => ?_
      -- the second iteration finds no operator, since the recursive call has read the whole tail
      cases fuel' with
      | zero => rfl
      | succ fuel' =>
          rw [tailLoop_stop fuel' d d' (by rw [hrest']; exact hfollow.stops)]
          exact ⟨hrest', hd'⟩

/-- **Completeness**: what a nonterminal derives is read to the derivation's tree. -/
theorem Derives.completes {nt : NT V} {ts : List (LexerToken V)} {a : Ast V}
    (h : Derives nt ts a) : Completes lexer ts a nt := by
  induction h with
  | val t ht =>
      intro fuel p us hp
      cases fuel with
      | zero => rfl
      | succ fuel =>
          rw [exprPrimary_val fuel hp ht]
          have hmade : rest lexer p.made = t :: us := hp
          exact ⟨rest_advance hmade, Dag.ast_val _ _⟩
  | paren t u ts a ht hu h ih => exact completes_paren ht hu ih
  | plus t ts a ht h ih => exact completes_plus ht ih
  | minus t ts a ht h ih => exact completes_minus ht ih
  | primary ts a h ih => exact completes_primary h ih
  | chain l ts us a b h ht ih iht => exact completes_chain ht ih iht
  | stop l a => exact completes_stop
  | step op t ts us a b c ht h hr ih ihr => exact completes_step ht hr ih ihr

end CS238P.Calc
