import CS238P.Calc.Parse
import Mathlib.Data.Prod.Lex
import Mathlib.Logic.Relation

set_option autoImplicit false

/-! # The report of a bad operand

A tail function that finds the operand of an operator missing or invalid reads the operator's name
from its table `TBL`. Such a read can happen at any depth of the recursion, so this module says
which calls `top` makes (`Calls`, `Visited`) and which of them report an operand (`Rejects`).

The index is right in `expr_multiplicative_` and beyond the table in `expr_additive_`. A call stops
with undefined behaviour if a call it makes does, and only then or by such a read itself; so the
names are right in all calls exactly if no binary `+` or `-` of the input is dangling. -/

namespace CS238P.Calc

variable {V : Type}

/-- A call of a parser function, or an iteration of the loop of a tail function, with the parser it
    starts on. `loop l fuel n left dag` is an iteration whose operands are read with `fuel`. -/
inductive Call (V : Type) where
  | expr (fuel : ℕ) (p : Parser)
  | chain (l : Level) (fuel : ℕ) (p : Parser)
  | tail (l : Level) (fuel : ℕ) (left : Dag V) (p : Parser)
  | loop (l : Level) (fuel n : ℕ) (left dag : Dag V) (p : Parser)
  | unary (fuel : ℕ) (p : Parser)
  | primary (fuel : ℕ) (p : Parser)

/-- The call that reads an operand of a chain. -/
def Level.call : Level → ℕ → Parser → Call V
  | .multiplicative, fuel, p => .unary fuel p
  | .additive, fuel, p => .chain .multiplicative fuel p

/-- The name of an operator. -/
def BinOp.text : BinOp → String
  | .mul => "*"
  | .div => "/"
  | .add => "+"
  | .sub => "-"

theorem BinOp.tbl_multiplicative {op : BinOp} (hl : op.level = .multiplicative) :
    op.level.ops.tbl[op.dagOp.code - DagOp.mul.code]? = some op.text := by
  rcases BinOp.of_multiplicative hl with rfl | rfl
  · rfl
  · rfl

theorem BinOp.tbl_additive {op : BinOp} (hl : op.level = .additive) :
    op.level.ops.tbl[op.dagOp.code - DagOp.mul.code]? = none := by
  rcases BinOp.of_additive hl with rfl | rfl
  · rfl
  · rfl

variable [Zero V]

/-- How the call ends. -/
def Call.run (lexer : Lexer V) : Call V → Outcome V
  | .expr fuel p => Calc.expr lexer fuel p
  | .chain l fuel p => Calc.chain lexer l fuel p
  | .tail l fuel left p => Calc.tail lexer l fuel left p
  | .loop l fuel n left dag p => tailLoop lexer l.ops (operand lexer l fuel) n left dag p
  | .unary fuel p => exprUnary lexer fuel p
  | .primary fuel p => exprPrimary lexer fuel p

@[simp] theorem Level.run_call (lexer : Lexer V) (l : Level) (fuel : ℕ) (p : Parser) :
    (l.call fuel p).run lexer = Calc.operand lexer l fuel p := by
  cases l <;> rfl

/-- The calls a call makes, in the order of the source where it makes several. -/
inductive Calls (lexer : Lexer V) : Call V → Call V → Prop where
  | expr (fuel : ℕ) (p : Parser) : Calls lexer (.expr (fuel + 1) p) (.chain .additive fuel p)
  | first (l : Level) (fuel : ℕ) (p : Parser) :
      Calls lexer (.chain l (fuel + 1) p) (l.call fuel p)
  | tail (l : Level) (fuel : ℕ) (p q : Parser) (d : Dag V)
      (hop : operand lexer l fuel p = .ok d q) (hd : d ≠ .null) :
      Calls lexer (.chain l (fuel + 1) p) (.tail l fuel d q)
  | enter (l : Level) (fuel : ℕ) (left : Dag V) (p : Parser) :
      Calls lexer (.tail l (fuel + 1) left p) (.loop l fuel fuel left left p)
  | next (op : BinOp) (fuel n : ℕ) (left dag : Dag V) (p : Parser) (t : LexerToken V)
      (r : List (LexerToken V)) (hr : rest lexer p = t :: r) (ht : t.op = op.tok) :
      Calls lexer (.loop op.level fuel (n + 1) left dag p) (op.level.call fuel p.made.advance)
  | recurse (op : BinOp) (fuel n : ℕ) (left dag : Dag V) (p : Parser) (t : LexerToken V)
      (r : List (LexerToken V)) (hr : rest lexer p = t :: r) (ht : t.op = op.tok)
      (right : Dag V) (q : Parser)
      (hop : operand lexer op.level fuel p.made.advance = .ok right q) (hright : right ≠ .null) :
      Calls lexer (.loop op.level fuel (n + 1) left dag p)
        (.loop op.level fuel n (.node op.dagOp (p.id + 1) 0 left right)
          (.node op.dagOp (p.id + 1) 0 left right) q)
  | again (op : BinOp) (fuel n : ℕ) (left dag : Dag V) (p : Parser) (t : LexerToken V)
      (r : List (LexerToken V)) (hr : rest lexer p = t :: r) (ht : t.op = op.tok)
      (right : Dag V) (q : Parser)
      (hop : operand lexer op.level fuel p.made.advance = .ok right q) (hright : right ≠ .null)
      (dag' : Dag V) (q' : Parser)
      (hrec : tailLoop lexer op.level.ops (operand lexer op.level fuel) n
        (.node op.dagOp (p.id + 1) 0 left right) (.node op.dagOp (p.id + 1) 0 left right) q =
          .ok dag' q') (hdag' : dag' ≠ .null) :
      Calls lexer (.loop op.level fuel (n + 1) left dag p) (.loop op.level fuel n left dag' q')
  | plus (fuel : ℕ) (p : Parser) (t : LexerToken V) (r : List (LexerToken V))
      (hr : rest lexer p = t :: r) (ht : t.op = .add) :
      Calls lexer (.unary (fuel + 1) p) (.unary fuel p.advance)
  | minus (fuel : ℕ) (p : Parser) (t : LexerToken V) (r : List (LexerToken V))
      (hr : rest lexer p = t :: r) (ht : t.op = .sub) :
      Calls lexer (.unary (fuel + 1) p) (.unary fuel p.made.advance)
  | primary (fuel : ℕ) (p : Parser) (hadd : headOp (rest lexer p) ≠ .add)
      (hsub : headOp (rest lexer p) ≠ .sub) :
      Calls lexer (.unary (fuel + 1) p) (.primary fuel p)
  | paren (fuel : ℕ) (p : Parser) (t : LexerToken V) (r : List (LexerToken V))
      (hr : rest lexer p = t :: r) (ht : t.op = .open_) :
      Calls lexer (.primary (fuel + 1) p) (.expr fuel p.advance)

/-- The calls that `top` makes, at any depth. -/
def Visited (lexer : Lexer V) (fuel : ℕ) (c : Call V) : Prop :=
  Relation.ReflTransGen (Calls lexer) (.expr fuel Parser.init) c

/-- The iteration finds the operand of `op` missing or invalid. It reports that with the name it
    picks from its table. -/
inductive Rejects (lexer : Lexer V) (op : BinOp) : Call V → Prop where
  | mk (fuel n : ℕ) (left dag : Dag V) (p q : Parser) (t : LexerToken V)
      (r : List (LexerToken V)) (hr : rest lexer p = t :: r) (ht : t.op = op.tok)
      (hnull : operand lexer op.level fuel p.made.advance = .ok .null q) :
      Rejects lexer op (.loop op.level fuel (n + 1) left dag p)

/-- Every report of an operand reads inside the table, and reads the operator's own name. -/
def NamesOperands (lexer : Lexer V) : Prop :=
  ∀ fuel c op, Visited lexer fuel c → Rejects lexer op c →
    op.level.ops.tbl[op.dagOp.code - DagOp.mul.code]? = some op.text

/-! ## Errors go up -/

variable {lexer : Lexer V} {c c' : Call V} {e : Stuck} {q : Parser}

/-- A call stops if a call it makes stops. -/
theorem Calls.run_error (h : Calls lexer c c') (herr : c'.run lexer = .error e q) :
    c.run lexer = .error e q := by
  cases h with
  | expr fuel p =>
      rw [Call.run, expr_succ]
      exact herr
  | first l fuel p =>
      rw [Level.run_call] at herr
      rw [Call.run, chain_succ]
      exact Outcome.onDag_error herr
  | tail l fuel p p' d hop hd =>
      rw [Call.run, chain_succ, Outcome.onDag_of_ne_null hop hd]
      exact herr
  | enter l fuel left p =>
      rw [Call.run, tail_succ]
      exact herr
  | next op fuel n left dag p t r hr ht =>
      rw [Level.run_call] at herr
      rw [Call.run, tailLoop_op n left dag op rfl hr ht]
      exact Outcome.onDag_error herr
  | recurse op fuel n left dag p t r hr ht right p' hop hright =>
      rw [Call.run, tailLoop_op n left dag op rfl hr ht, Outcome.onDag_of_ne_null hop hright]
      exact Outcome.onDag_error herr
  | again op fuel n left dag p t r hr ht right p' hop hright dag' p'' hrec hdag' =>
      rw [Call.run, tailLoop_op n left dag op rfl hr ht, Outcome.onDag_of_ne_null hop hright,
        Outcome.onDag_of_ne_null hrec hdag']
      exact herr
  | plus fuel p t r hr ht =>
      rw [Call.run, exprUnary_add fuel hr ht]
      exact Outcome.onDag_error herr
  | minus fuel p t r hr ht =>
      rw [Call.run, exprUnary_sub fuel hr ht]
      exact Outcome.onDag_error herr
  | primary fuel p hadd hsub =>
      rw [Call.run, exprUnary_other fuel hadd hsub]
      exact herr
  | paren fuel p t r hr ht =>
      rw [Call.run, exprPrimary_open fuel hr ht]
      exact Outcome.onDag_error herr

theorem run_error_of_reaches (h : Relation.ReflTransGen (Calls lexer) c c')
    (herr : c'.run lexer = .error e q) : c.run lexer = .error e q := by
  induction h using Relation.ReflTransGen.head_induction_on with
  | refl => exact herr
  | head hcall _ ih => exact hcall.run_error ih

theorem Visited.run_error {fuel : ℕ} (h : Visited lexer fuel c)
    (herr : c.run lexer = .error e q) : expr lexer fuel Parser.init = .error e q :=
  run_error_of_reaches h herr

/-- The report of an operand of `+` or `-` is undefined behaviour. -/
theorem Rejects.undefined {op : BinOp} (h : Rejects lexer op c) (hl : op.level = .additive) :
    ∃ q, c.run lexer = .error .undefined q := by
  cases h with
  | mk fuel n left dag p q t r hr ht hnull =>
      rw [Call.run, tailLoop_op n left dag op rfl hr ht, hnull]
      refine ⟨q, ?_⟩
      rw [Outcome.onDag, hl, name_additive op hl]

/-! ## Errors come from a read -/

/-- Where undefined behaviour of a call comes from: its own report of an operand, or a call that it
    makes. -/
def Call.Blames (lexer : Lexer V) (c : Call V) (q : Parser) : Prop :=
  (∃ op : BinOp, op.level = .additive ∧ Rejects lexer op c) ∨
    ∃ c', Calls lexer c c' ∧ c'.run lexer = .error .undefined q

variable {fuel n : ℕ} {p : Parser} {l : Level} {left dag : Dag V}

theorem blames_chain (h : (Call.chain l (fuel + 1) p).run lexer = .error .undefined q) :
    (Call.chain l (fuel + 1) p).Blames lexer q := by
  rw [Call.run, chain_succ] at h
  rcases Outcome.onDag_eq_error h with herr | ⟨p', -, hnull⟩ | ⟨d, p', hop, hd, herr⟩
  · exact .inr ⟨_, .first l fuel p, by rw [Level.run_call, herr]⟩
  · cases hnull
  · exact .inr ⟨_, .tail l fuel p p' d hop hd, herr⟩

/-- A name that cannot be read is one of `expr_additive_`. -/
theorem additive_of_name_error {op : BinOp} (h : op.level.ops.name op.dagOp p = .error e q) :
    op.level = .additive := by
  cases hl : op.level with
  | additive => rfl
  | multiplicative =>
      obtain ⟨name, hok⟩ := name_multiplicative op hl p
      rw [hl, hok] at h
      cases h

theorem blames_tailLoop
    (h : (Call.loop l fuel (n + 1) left dag p).run lexer = .error .undefined q) :
    (Call.loop l fuel (n + 1) left dag p).Blames lexer q := by
  rw [Call.run] at h
  by_cases hstop : Stops l (rest lexer p)
  · rw [tailLoop_stop n left dag hstop] at h
    cases h
  obtain ⟨op, t, r, rfl, hr, ht⟩ := exists_op_of_not_stops hstop
  rw [tailLoop_op n left dag op rfl hr ht] at h
  rcases Outcome.onDag_eq_error h with herr | ⟨p', hnull, hname⟩ | ⟨right, p', hop, hright, hrest⟩
  · exact .inr ⟨_, .next op fuel n left dag p t r hr ht, by rw [Level.run_call, herr]⟩
  · -- the report itself
    refine .inl ⟨op, ?_, .mk fuel n left dag p p' t r hr ht hnull⟩
    split at hname
    · cases hname
    · next hname' => exact additive_of_name_error hname'
  rcases Outcome.onDag_eq_error hrest with herr | ⟨p'', -, hnull⟩ | ⟨dag', p'', hrec, hdag', herr⟩
  · exact .inr ⟨_, .recurse op fuel n left dag p t r hr ht right p' hop hright, herr⟩
  · cases hnull
  · exact .inr ⟨_, .again op fuel n left dag p t r hr ht right p' hop hright dag' p'' hrec hdag',
      herr⟩

theorem blames_exprUnary (h : (Call.unary (fuel + 1) p).run lexer = .error .undefined q) :
    (Call.unary (fuel + 1) p).Blames lexer q := by
  rw [Call.run] at h
  by_cases hadd : headOp (rest lexer p) = .add
  · obtain ⟨t, r, hr, ht⟩ := exists_cons_of_headOp hadd (by decide)
    rw [exprUnary_add fuel hr ht] at h
    rcases Outcome.onDag_eq_error h with herr | ⟨p', -, hnull⟩ | ⟨d, p', -, -, hok⟩
    · exact .inr ⟨_, .plus fuel p t r hr ht, herr⟩
    · cases hnull
    · cases hok
  by_cases hsub : headOp (rest lexer p) = .sub
  · obtain ⟨t, r, hr, ht⟩ := exists_cons_of_headOp hsub (by decide)
    rw [exprUnary_sub fuel hr ht] at h
    rcases Outcome.onDag_eq_error h with herr | ⟨p', -, hnull⟩ | ⟨d, p', -, -, hok⟩
    · exact .inr ⟨_, .minus fuel p t r hr ht, herr⟩
    · cases hnull
    · cases hok
  · rw [exprUnary_other fuel hadd hsub] at h
    exact .inr ⟨_, .primary fuel p hadd hsub, h⟩

theorem blames_exprPrimary (h : (Call.primary (fuel + 1) p).run lexer = .error .undefined q) :
    (Call.primary (fuel + 1) p).Blames lexer q := by
  rw [Call.run] at h
  by_cases hval : headOp (rest lexer p) = .val
  · obtain ⟨t, r, hr, ht⟩ := exists_cons_of_headOp hval (by decide)
    rw [exprPrimary_val fuel hr ht] at h
    cases h
  by_cases hopen : headOp (rest lexer p) = .open_
  · obtain ⟨t, r, hr, ht⟩ := exists_cons_of_headOp hopen (by decide)
    rw [exprPrimary_open fuel hr ht] at h
    rcases Outcome.onDag_eq_error h with herr | ⟨p', -, hnull⟩ | ⟨d, p', -, -, hk⟩
    · exact .inr ⟨_, .paren fuel p t r hr ht, herr⟩
    · cases hnull
    · split at hk <;> cases hk
  · rw [exprPrimary_other fuel hval hopen] at h
    cases h

/-- Undefined behaviour of a call is that of a call it makes or its own report of an operand. -/
theorem Call.blames (h : c.run lexer = .error .undefined q) : c.Blames lexer q := by
  cases c with
  | expr fuel p =>
      cases fuel with
      | zero => cases h
      | succ fuel =>
          rw [Call.run, expr_succ] at h
          exact .inr ⟨_, .expr fuel p, h⟩
  | chain l fuel p =>
      cases fuel with
      | zero => cases l <;> cases h
      | succ fuel => exact blames_chain h
  | tail l fuel left p =>
      cases fuel with
      | zero => cases l <;> cases h
      | succ fuel =>
          rw [Call.run, tail_succ] at h
          exact .inr ⟨_, .enter l fuel left p, h⟩
  | loop l fuel n left dag p =>
      cases n with
      | zero => cases h
      | succ n => exact blames_tailLoop h
  | unary fuel p =>
      cases fuel with
      | zero => cases h
      | succ fuel => exact blames_exprUnary h
  | primary fuel p =>
      cases fuel with
      | zero => cases h
      | succ fuel => exact blames_exprPrimary h

/-- The fuel a call has: first what its operands get, then what is left to its loop. -/
def Call.fuels : Call V → ℕ ×ₗ ℕ
  | .expr fuel _ => toLex (fuel, 0)
  | .chain _ fuel _ => toLex (fuel, 0)
  | .tail _ fuel _ _ => toLex (fuel, 0)
  | .loop _ fuel n _ _ _ => toLex (fuel, n)
  | .unary fuel _ => toLex (fuel, 0)
  | .primary fuel _ => toLex (fuel, 0)

omit [Zero V] in
@[simp] theorem Level.fuels_call (l : Level) (fuel : ℕ) (p : Parser) :
    (l.call fuel p : Call V).fuels = toLex (fuel, 0) := by
  cases l <;> rfl

theorem Calls.fuels_lt (h : Calls lexer c c') : c'.fuels < c.fuels := by
  cases h with
  | first l fuel p =>
      rw [Level.fuels_call]
      simp [Call.fuels, Prod.Lex.toLex_lt_toLex]
  | next op fuel n left dag p t r hr ht =>
      rw [Level.fuels_call]
      simp [Call.fuels, Prod.Lex.toLex_lt_toLex]
  | _ => simp [Call.fuels, Prod.Lex.toLex_lt_toLex]

/-- Undefined behaviour of a call has its origin in a report that the call reaches. -/
theorem Call.exists_rejects (h : c.run lexer = .error .undefined q) :
    ∃ c' op, Relation.ReflTransGen (Calls lexer) c c' ∧ op.level = .additive ∧
      Rejects lexer op c' := by
  induction hf : c.fuels using WellFoundedLT.induction generalizing c with
  | ind f ih =>
      rcases Call.blames h with ⟨op, hl, hrej⟩ | ⟨c', hcall, herr⟩
      · exact ⟨c, op, .refl, hl, hrej⟩
      · obtain ⟨c'', op, hreach, hl, hrej⟩ := ih _ (hf ▸ hcall.fuels_lt) herr rfl
        exact ⟨c'', op, .head hcall hreach, hl, hrej⟩

/-- **What the reports read**: the name is inside the table and the operator's own in every report
    of every run exactly when no binary `+` or `-` of the input is left without a term behind it. -/
theorem namesOperands_iff (lexer : Lexer V) :
    NamesOperands lexer ↔ ¬ DanglingSum lexer.tokens := by
  constructor
  · intro hnames hdangling
    have hends := lexer.expr_ends (8 * lexer.tokens.length + 7)
    have hfails := hdangling.top_fails (8 * lexer.tokens.length + 7)
    rw [top_apply] at hfails
    cases hres : expr lexer (8 * lexer.tokens.length + 7) Parser.init with
    | ok d p =>
        -- `top` would return as well
        rw [hres] at hfails
        cases d with
        | null => exact hfails
        | node op id v left right =>
            rw [Outcome.onDag] at hfails
            split at hfails <;> exact hfails
    | error e p =>
        rw [hres] at hends
        cases e with
        | outOfFuel => exact absurd hends (Nat.lt_irrefl _)
        | undefined =>
            have hrun : (Call.expr (8 * lexer.tokens.length + 7) Parser.init).run lexer =
                .error .undefined p := hres
            obtain ⟨c, op, hvisited, hl, hrej⟩ := Call.exists_rejects hrun
            have hname := hnames _ c op hvisited hrej
            rw [BinOp.tbl_additive hl] at hname
            cases hname
  · intro hnot fuel c op hvisited hrej
    cases hl : op.level with
    | multiplicative =>
        rw [← hl]
        exact BinOp.tbl_multiplicative hl
    | additive =>
        -- the report would stop the whole run, which a dangling operator alone does
        obtain ⟨q, hundef⟩ := hrej.undefined hl
        have hends := lexer.expr_ends fuel
        rw [hvisited.run_error hundef] at hends
        exact absurd hends hnot

/-- On `1 +` the report of the missing operand reads beyond the table. -/
theorem onePlus_not_namesOperands : ¬ NamesOperands onePlus := by
  intro h
  let p₁ : Parser := ⟨1, false, 1, []⟩
  let one : Dag ℕ := .node .val 1 1 .null .null
  have hone : operand onePlus .additive 6 Parser.init = .ok one p₁ := by rfl
  have hvisited : Visited onePlus 8 (.loop .additive 5 5 one one p₁) :=
    .head (.expr 7 _) (.head (.tail .additive 6 _ p₁ one hone (by simp [one]))
      (.head (.enter .additive 5 one p₁) .refl))
  have hnull : operand onePlus .additive 5 p₁.made.advance = .ok .null p₁.made.advance := by rfl
  have hrej : Rejects onePlus .add (.loop .additive 5 5 one one p₁) :=
    .mk 5 4 one one p₁ _ ⟨.add, 0⟩ [] rfl rfl hnull
  exact absurd (h 8 _ .add hvisited hrej) (by decide)

end CS238P.Calc
