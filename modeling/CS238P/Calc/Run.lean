import CS238P.Calc.Grammar

set_option autoImplicit false

/-! # One step of each parser function

What a call does in terms of the tokens not read yet (`rest`), one equation for each branch of each
function. The proofs about the parser use these and do not unfold it. -/

namespace CS238P.Calc

variable {V : Type}

/-- What a parser function that makes a tree ends with. -/
abbrev Outcome (V : Type) := EStateM.Result Stuck Parser (Dag V)

/-- Goes on after a call: one way with NULL, another with a tree. -/
def Outcome.onDag (r : Outcome V) (null : Parser → Outcome V) (k : Dag V → Parser → Outcome V) :
    Outcome V :=
  match r with
  | .ok .null p => null p
  | .ok (.node op id v l r) p => k (.node op id v l r) p
  | .error e p => .error e p

theorem Outcome.onDag_self (r : Outcome V) : r.onDag (.ok .null) .ok = r := by
  cases r with
  | error e p => rfl
  | ok d p => cases d <;> rfl

section OnDag

variable {r : Outcome V} {null : Parser → Outcome V} {k : Dag V → Parser → Outcome V} {e : Stuck}
  {d : Dag V} {p q : Parser}

theorem Outcome.onDag_error (h : r = .error e q) : r.onDag null k = .error e q := by
  rw [h]
  rfl

theorem Outcome.onDag_of_ne_null (h : r = .ok d q) (hd : d ≠ .null) : r.onDag null k = k d q := by
  rw [h]
  cases d with
  | null => exact absurd rfl hd
  | node op id v left right => rfl

/-- Where an error comes from. -/
theorem Outcome.onDag_eq_error (h : r.onDag null k = .error e q) :
    r = .error e q ∨ (∃ p, r = .ok .null p ∧ null p = .error e q) ∨
      ∃ d p, r = .ok d p ∧ d ≠ .null ∧ k d p = .error e q := by
  cases r with
  | error e' q' => exact .inl h
  | ok d p =>
      cases d with
      | null => exact .inr (.inl ⟨p, rfl, h⟩)
      | node op id v left right => exact .inr (.inr ⟨_, p, rfl, by simp, h⟩)

/-- A tree comes from the continuation that gets one, if the other makes none. -/
theorem Outcome.onDag_ok (h : r.onDag null k = .ok d p) (hd : d ≠ .null)
    (hnull : ∀ q, null q = .ok d p → d = .null) :
    ∃ d' q, r = .ok d' q ∧ d' ≠ .null ∧ k d' q = .ok d p := by
  cases r with
  | error e q => cases h
  | ok d' q =>
      cases d' with
      | null => exact absurd (hnull q h) hd
      | node op id v left right => exact ⟨_, q, rfl, by simp, h⟩

end OnDag

/-- `TRACE_ONCE`, then `return NULL`. -/
def reject (m : String) (p : Parser) : Outcome V :=
  .ok .null (if p.stop then p else { p with stop := true, trace := p.trace ++ [m] })

theorem reject_ok {m : String} {q p : Parser} {d : Dag V} (h : reject m q = .ok d p) :
    d = .null := by
  cases h
  rfl

/-- The parser past the current token. -/
def Parser.advance (p : Parser) : Parser := { p with i := p.i + 1 }

/-- The parser after a node was made. -/
def Parser.made (p : Parser) : Parser := { p with id := p.id + 1 }

/-! ## The tokens left -/

/-- The tokens not read yet. -/
def rest (lexer : Lexer V) (p : Parser) : List (LexerToken V) := lexer.tokens.drop p.i

@[simp] theorem rest_init (lexer : Lexer V) : rest lexer Parser.init = lexer.tokens := rfl

@[simp] theorem rest_made (lexer : Lexer V) (p : Parser) : rest lexer p.made = rest lexer p := rfl

section Rest

variable {lexer : Lexer V} {p : Parser} {t : LexerToken V} {r : List (LexerToken V)}

theorem rest_advance (h : rest lexer p = t :: r) : rest lexer p.advance = r := by
  unfold rest at h ⊢
  rw [Parser.advance, ← List.tail_drop, h, List.tail_cons]

theorem lt_of_rest (h : rest lexer p = t :: r) : p.i < lexer.tokens.length := by
  by_contra hle
  rw [rest, List.drop_eq_nil_of_le (Nat.le_of_not_lt hle)] at h
  exact absurd h (by simp)

/-- No token has the operator of the sentinel. -/
theorem rest_eq_nil (h : headOp (rest lexer p) = .op_) : rest lexer p = [] := by
  cases hr : rest lexer p with
  | nil => rfl
  | cons t r =>
      have hmem : t ∈ lexer.tokens :=
        List.mem_of_mem_drop (i := p.i) (by rw [← rest, hr]; exact List.mem_cons_self)
      exact absurd (by rw [hr] at h; exact h) (lexer.lexed t hmem)

/-- Any other current operator is that of a token. -/
theorem exists_cons_of_headOp {o : LexerOp} (h : headOp (rest lexer p) = o) (ho : o ≠ .op_) :
    ∃ t r, rest lexer p = t :: r ∧ t.op = o := by
  cases hr : rest lexer p with
  | nil => exact absurd (by rw [← h, hr]; rfl) ho
  | cons t r => exact ⟨t, r, rfl, by rw [← h, hr]; rfl⟩

variable [Zero V]

theorem next_op (lexer : Lexer V) (p : Parser) : (next lexer p).op = headOp (rest lexer p) := by
  unfold next rest
  rw [← List.head?_drop]
  cases lexer.tokens.drop p.i <;> rfl

theorem next_of_rest (h : rest lexer p = t :: r) : next lexer p = t := by
  unfold next rest at *
  rw [← List.head?_drop, h]
  rfl

omit [Zero V] in
theorem forward_of_rest (h : rest lexer p = t :: r) : forward lexer p = .ok () p.advance := by
  simp only [forward, if_pos (lt_of_rest h), Parser.advance]

theorem matchOp_apply (op : LexerOp) (p : Parser) :
    matchOp lexer op p = .ok (decide (op = headOp (rest lexer p))) p := by
  rw [matchOp, next_op]

theorem bind_apply {α β : Type} (x : ParseM α) (f : α → ParseM β) (p : Parser) :
    (x >>= f) p = match x p with
      | .ok a p' => f a p'
      | .error e p' => .error e p' := by
  show EStateM.bind x f p = _
  unfold EStateM.bind
  cases x p <;> rfl

/-! ## `expr_primary` and `expr_unary` -/

variable (fuel : ℕ)

theorem exprPrimary_val (h : rest lexer p = t :: r) (ht : t.op = .val) :
    exprPrimary lexer (fuel + 1) p =
      .ok (.node .val (p.id + 1) t.val .null .null) p.made.advance := by
  have hmade : rest lexer p.made = t :: r := h
  rw [exprPrimary, bind_apply, matchOp_apply, h, headOp, ht]
  show (mkd >>= _) p = _
  rw [bind_apply]
  show (nextVal lexer >>= _) p.made = _
  rw [bind_apply, nextVal, next_of_rest hmade]
  show (forward lexer >>= _) p.made = _
  rw [bind_apply, forward_of_rest hmade]
  rfl

theorem exprPrimary_open (h : rest lexer p = t :: r) (ht : t.op = .open_) :
    exprPrimary lexer (fuel + 1) p =
      Outcome.onDag (expr lexer fuel p.advance) (reject "invalid sub-expression") fun dag p' =>
        if headOp (rest lexer p') = .close then .ok dag p'.advance
        else reject "expecting ')'" p' := by
  rw [exprPrimary, bind_apply, matchOp_apply, h, headOp, ht]
  show (matchOp lexer .open_ >>= _) p = _
  rw [bind_apply, matchOp_apply, h, headOp, ht]
  show (forward lexer >>= _) p = _
  rw [bind_apply, forward_of_rest h]
  show (expr lexer fuel >>= _) p.advance = _
  rw [bind_apply]
  cases expr lexer fuel p.advance with
  | error e p' => rfl
  | ok dag p' =>
      cases dag with
      | null => rfl
      | node op id v left right =>
          show (matchOp lexer .close >>= _) p' = _
          rw [bind_apply, matchOp_apply, Outcome.onDag]
          by_cases hc : headOp (rest lexer p') = .close
          · obtain ⟨u, r', hr', -⟩ := exists_cons_of_headOp hc (by decide)
            rw [if_pos hc, decide_eq_true hc.symm]
            show (forward lexer >>= _) p' = _
            rw [bind_apply, forward_of_rest hr']
            rfl
          · rw [if_neg hc, decide_eq_false (Ne.symm hc)]
            rfl

theorem exprPrimary_other (hval : headOp (rest lexer p) ≠ .val)
    (hopen : headOp (rest lexer p) ≠ .open_) :
    exprPrimary lexer (fuel + 1) p = .ok .null p := by
  rw [exprPrimary, bind_apply, matchOp_apply, decide_eq_false (Ne.symm hval)]
  show (matchOp lexer .open_ >>= _) p = _
  rw [bind_apply, matchOp_apply, decide_eq_false (Ne.symm hopen)]
  rfl

theorem exprUnary_add (h : rest lexer p = t :: r) (ht : t.op = .add) :
    exprUnary lexer (fuel + 1) p =
      Outcome.onDag (exprUnary lexer fuel p.advance) (reject "invalid unary '+' operand") .ok := by
  rw [exprUnary, bind_apply, matchOp_apply, h, headOp, ht]
  show (forward lexer >>= _) p = _
  rw [bind_apply, forward_of_rest h]
  show (exprUnary lexer fuel >>= _) p.advance = _
  rw [bind_apply]
  cases exprUnary lexer fuel p.advance with
  | error e p' => rfl
  | ok dag p' => cases dag <;> rfl

theorem exprUnary_sub (h : rest lexer p = t :: r) (ht : t.op = .sub) :
    exprUnary lexer (fuel + 1) p =
      Outcome.onDag (exprUnary lexer fuel p.made.advance) (reject "invalid unary '-' operand")
        fun right p' => .ok (.node .neg (p.id + 1) 0 .null right) p' := by
  have hmade : rest lexer p.made = t :: r := h
  rw [exprUnary, bind_apply, matchOp_apply, h, headOp, ht]
  show (matchOp lexer .sub >>= _) p = _
  rw [bind_apply, matchOp_apply, h, headOp, ht]
  show (mkd >>= _) p = _
  rw [bind_apply]
  show (forward lexer >>= _) p.made = _
  rw [bind_apply, forward_of_rest hmade]
  show (exprUnary lexer fuel >>= _) p.made.advance = _
  rw [bind_apply]
  cases exprUnary lexer fuel p.made.advance with
  | error e p' => rfl
  | ok dag p' => cases dag <;> rfl

theorem exprUnary_other (hadd : headOp (rest lexer p) ≠ .add)
    (hsub : headOp (rest lexer p) ≠ .sub) :
    exprUnary lexer (fuel + 1) p = exprPrimary lexer fuel p := by
  rw [exprUnary, bind_apply, matchOp_apply, decide_eq_false (Ne.symm hadd)]
  show (matchOp lexer .sub >>= _) p = _
  rw [bind_apply, matchOp_apply, decide_eq_false (Ne.symm hsub)]
  rfl

/-! ## The chains -/

/-- The function that reads an operand of a chain. -/
def operand (lexer : Lexer V) : Level → ℕ → ParseM (Dag V)
  | .multiplicative => exprUnary lexer
  | .additive => exprMultiplicative lexer

/-- The function that reads a chain. -/
def chain (lexer : Lexer V) : Level → ℕ → ParseM (Dag V)
  | .multiplicative => exprMultiplicative lexer
  | .additive => exprAdditive lexer

/-- The tail function of a chain. -/
def tail (lexer : Lexer V) : Level → ℕ → Dag V → ParseM (Dag V)
  | .multiplicative => exprMultiplicative_ lexer
  | .additive => exprAdditive_ lexer

theorem chain_succ (l : Level) (p : Parser) :
    chain lexer l (fuel + 1) p =
      Outcome.onDag (operand lexer l fuel p) (.ok .null) fun dag p' =>
        tail lexer l fuel dag p' := by
  cases l with
  | multiplicative =>
      show exprMultiplicative lexer (fuel + 1) p = Outcome.onDag (exprUnary lexer fuel p) _ _
      rw [exprMultiplicative, bind_apply]
      cases exprUnary lexer fuel p with
      | error e p' => rfl
      | ok dag p' => cases dag <;> rfl
  | additive =>
      show exprAdditive lexer (fuel + 1) p = Outcome.onDag (exprMultiplicative lexer fuel p) _ _
      rw [exprAdditive, bind_apply]
      cases exprMultiplicative lexer fuel p with
      | error e p' => rfl
      | ok dag p' => cases dag <;> rfl

theorem tail_succ (l : Level) (left : Dag V) :
    tail lexer l (fuel + 1) left = tailLoop lexer l.ops (operand lexer l fuel) fuel left left := by
  cases l
  · rw [tail, exprMultiplicative_]; rfl
  · rw [tail, exprAdditive_]; rfl

variable {l : Level} {read : ParseM (Dag V)} (left dag : Dag V)

theorem tailLoop_stop (h : Stops l (rest lexer p)) :
    tailLoop lexer l.ops read (fuel + 1) left dag p = .ok dag p := by
  rw [tailLoop, bind_apply, matchTail, next_op, h]
  rfl

/-- An iteration of the loop. The first continuation reports the bad operand, which reads `TBL`. -/
theorem tailLoop_op (op : BinOp) (hl : op.level = l) (h : rest lexer p = t :: r)
    (ht : t.op = op.tok) :
    tailLoop lexer l.ops read (fuel + 1) left dag p =
      Outcome.onDag (read p.made.advance)
        (fun p' => match l.ops.name op.dagOp p' with
          | .ok name p'' => reject ("invalid '" ++ name ++ "' operand") p''
          | .error e p'' => .error e p'')
        fun right p' =>
          Outcome.onDag
            (tailLoop lexer l.ops read fuel (.node op.dagOp (p.id + 1) 0 left right)
              (.node op.dagOp (p.id + 1) 0 left right) p')
            (reject "^") fun dag' p'' => tailLoop lexer l.ops read fuel left dag' p'' := by
  have hmade : rest lexer p.made = t :: r := h
  subst hl
  rw [tailLoop, bind_apply, matchTail, next_op, h, headOp, ht, op.dagOp_tok]
  show (mkd >>= _) p = _
  rw [bind_apply]
  show (forward lexer >>= _) p.made = _
  rw [bind_apply, forward_of_rest hmade]
  show (read >>= _) p.made.advance = _
  rw [bind_apply]
  cases read p.made.advance with
  | error e p' => rfl
  | ok dag' p' =>
      cases dag' with
      | null =>
          show (op.level.ops.name op.dagOp >>= _) p' = _
          rw [bind_apply, Outcome.onDag]
          cases op.level.ops.name op.dagOp p' <;> rfl
      | node o id v a b =>
          show (tailLoop lexer op.level.ops read fuel _ _ >>= _) p' = _
          rw [bind_apply]
          simp only [Outcome.onDag]
          cases tailLoop lexer op.level.ops read fuel _ _ p' with
          | error e p'' => rfl
          | ok d p'' => cases d <;> rfl

/-- `TBL` is read inside its bounds by `expr_multiplicative_`, beyond them by `expr_additive_`. -/
theorem name_multiplicative (op : BinOp) (hl : op.level = .multiplicative) (p : Parser) :
    ∃ name, Level.multiplicative.ops.name op.dagOp p = .ok name p := by
  rcases BinOp.of_multiplicative hl with rfl | rfl
  · exact ⟨"*", rfl⟩
  · exact ⟨"/", rfl⟩

theorem name_additive (op : BinOp) (hl : op.level = .additive) (p : Parser) :
    Level.additive.ops.name op.dagOp p = .error .undefined p := by
  rcases BinOp.of_additive hl with rfl | rfl
  · rfl
  · rfl

theorem expr_succ (p : Parser) : expr lexer (fuel + 1) p = chain lexer .additive fuel p := by
  rw [expr, chain]

theorem top_apply (p : Parser) :
    top lexer fuel p =
      Outcome.onDag (expr lexer fuel p) (reject "invalid expression") fun dag p' =>
        if headOp (rest lexer p') = .op_ then .ok dag p'
        else reject "bogus trailing content" p' := by
  rw [top, bind_apply]
  cases expr lexer fuel p with
  | error e p' => rfl
  | ok dag p' =>
      cases dag with
      | null => rfl
      | node op id v left right =>
          show (matchOp lexer .op_ >>= _) p' = _
          rw [bind_apply, matchOp_apply, Outcome.onDag]
          by_cases hc : headOp (rest lexer p') = .op_
          · rw [if_pos hc, decide_eq_true hc.symm]
            rfl
          · rw [if_neg hc, decide_eq_false (Ne.symm hc)]
            rfl

end Rest

end CS238P.Calc
