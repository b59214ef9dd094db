import Mathlib.Algebra.Notation.Defs
import Mathlib.Data.Nat.Notation

set_option autoImplicit false

/-! # The expression parser (`p1/parser.c`)

The recursive-descent parser over the lexer's tokens, function by function. A `struct parser_dag *`
is a `Dag`, NULL being `Dag.null`; nodes are never shared, so the links are subtrees. `V` stands for
`double`, of which the parser uses only the zero that `memset` leaves in a node. Allocations
succeed.

Every function takes an amount of fuel, one unit for each call, and stops with `Stuck.outOfFuel`
when it is spent. `Stuck.undefined` is undefined behaviour: the two tail functions read a name from
a table of two entries to report a bad operand, and nothing in C says what a read beyond its end
gives. The ids are natural numbers (fewer than 2^31 nodes). -/

namespace CS238P.Calc

/-- `enum lexer_token_op`. -/
inductive LexerOp where
  | op_ | val | add | sub | mul | div | open_ | close
  deriving DecidableEq, Repr

/-- `struct lexer_token`. -/
structure LexerToken (V : Type) where
  op : LexerOp
  val : V

/-- The tokens of an opened lexer. `LEXER_OP_` marks the end of input for the parser; the lexer
    never makes a token of it. -/
structure Lexer (V : Type) where
  tokens : List (LexerToken V)
  lexed : ∀ t ∈ tokens, t.op ≠ .op_

/-- `enum parser_dag_op`. -/
inductive DagOp where
  | dag_ | val | neg | mul | div | add | sub
  deriving DecidableEq, Repr

/-- The value of an enumerator, as C assigns it. -/
def DagOp.code : DagOp → ℕ
  | .dag_ => 0
  | .val => 1
  | .neg => 2
  | .mul => 3
  | .div => 4
  | .add => 5
  | .sub => 6

/-- `struct parser_dag`, `null` being the NULL pointer. -/
inductive Dag (V : Type) where
  | null
  | node (op : DagOp) (id : ℕ) (val : V) (left right : Dag V)

/-- The fields of `struct parser` that change, and the text `TRACE` has written. -/
structure Parser where
  id : ℕ
  stop : Bool
  i : ℕ
  trace : List String

/-- `memset(parser, 0, ..)`. -/
def Parser.init : Parser := ⟨0, false, 0, []⟩

/-- Why a call does not return. -/
inductive Stuck where
  | undefined
  | outOfFuel
  deriving DecidableEq, Repr

/-- A parser function: what it returns and the parser it leaves, or why it does not return. -/
abbrev ParseM := EStateM Stuck Parser

variable {V : Type} [Zero V] (lexer : Lexer V)

/-! ## Reading tokens -/

/-- `next`: the current token, or the sentinel. -/
def next (p : Parser) : LexerToken V := lexer.tokens[p.i]?.getD ⟨.op_, 0⟩

/-- `match`. -/
def matchOp (op : LexerOp) : ParseM Bool := fun p => .ok (decide (op = (next lexer p).op)) p

def forward : ParseM Unit := fun p =>
  .ok () (if p.i < lexer.tokens.length then { p with i := p.i + 1 } else p)

/-- `next(parser)->val`. -/
def nextVal : ParseM V := fun p => .ok (next lexer p).val p

/-- `MKD`: the id of the node it makes. The node is written out below where its links are known. -/
def mkd : ParseM ℕ := fun p => .ok (p.id + 1) { p with id := p.id + 1 }

/-- `TRACE_ONCE`. -/
def traceOnce (m : String) : ParseM Unit := fun p =>
  .ok () (if p.stop then p else { p with stop := true, trace := p.trace ++ [m] })

/-! ## The two tail functions

`expr_multiplicative_` and `expr_additive_` differ in their operators, their operand and the
contents of their table. The index into the table is the same in both:
`dag->op - PARSER_DAG_MUL`. -/

/-- What a tail function is made of: its two tokens with the nodes they make, and `TBL`. -/
structure TailOps where
  tok₁ : LexerOp
  op₁ : DagOp
  tok₂ : LexerOp
  op₂ : DagOp
  tbl : List String

def multiplicativeOps : TailOps := ⟨.mul, .mul, .div, .div, ["*", "/"]⟩

def additiveOps : TailOps := ⟨.add, .add, .sub, .sub, ["+", "-"]⟩

/-- The node a token makes, if it is one of the tail's two. -/
def TailOps.dagOp (ops : TailOps) (tok : LexerOp) : Option DagOp :=
  if ops.tok₁ = tok then some ops.op₁ else if ops.tok₂ = tok then some ops.op₂ else none

/-- The two `match`es at the top of the loop; `none` is `break`. -/
def matchTail (ops : TailOps) : ParseM (Option DagOp) := fun p =>
  .ok (ops.dagOp (next lexer p).op) p

/-- `TBL[dag->op - PARSER_DAG_MUL]`. -/
def TailOps.name (ops : TailOps) (op : DagOp) : ParseM String := fun p =>
  match ops.tbl[op.code - DagOp.mul.code]? with
  | some name => .ok name p
  | none => .error .undefined p

/-- The `for (;;)` of a tail function, at the top of an iteration: `left` is the function's argument
    and `dag` its local. The recursive call passes `dag` as the argument; the next iteration keeps
    `left`. -/
def tailLoop (ops : TailOps) (operand : ParseM (Dag V)) : ℕ → Dag V → Dag V → ParseM (Dag V)
  | 0, _, _ => throw .outOfFuel
  | fuel + 1, left, dag => do
      match ← matchTail lexer ops with
      | none => return dag
      | some op => do
          let id ← mkd
          forward lexer
          match ← operand with
          | .null => do
              let name ← ops.name op
              traceOnce ("invalid '" ++ name ++ "' operand")
              return .null
          | right => do
              let dag := Dag.node op id 0 left right
              match ← tailLoop ops operand fuel dag dag with
              | .null => do
                  traceOnce "^"
                  return .null
              | dag => tailLoop ops operand fuel left dag

/-! ## The grammar functions -/

mutual

def exprPrimary : ℕ → ParseM (Dag V)
  | 0 => throw .outOfFuel
  | fuel + 1 => do
      if ← matchOp lexer .val then do
        let id ← mkd
        let val ← nextVal lexer
        forward lexer
        return .node .val id val .null .null
      else if ← matchOp lexer .open_ then do
        forward lexer
        match ← expr fuel with
        | .null => do
            traceOnce "invalid sub-expression"
            return .null
        | dag => do
            if ← matchOp lexer .close then do
              forward lexer
              return dag
            else do
              traceOnce "expecting ')'"
              return .null
      else return .null

def exprUnary : ℕ → ParseM (Dag V)
  | 0 => throw .outOfFuel
  | fuel + 1 => do
      if ← matchOp lexer .add then do
        forward lexer
        match ← exprUnary fuel with
        | .null => do
            traceOnce "invalid unary '+' operand"
            return .null
        | dag => return dag
      else if ← matchOp lexer .sub then do
        let id ← mkd
        forward lexer
        match ← exprUnary fuel with
        | .null => do
            traceOnce "invalid unary '-' operand"
            return .null
        | right => return .node .neg id 0 .null right
      else exprPrimary fuel

def exprMultiplicative_ : ℕ → Dag V → ParseM (Dag V)
  | 0, _ => throw .outOfFuel
  | fuel + 1, left => tailLoop lexer multiplicativeOps (exprUnary fuel) fuel left left

def exprMultiplicative : ℕ → ParseM (Dag V)
  | 0 => throw .outOfFuel
  | fuel + 1 => do
      match ← exprUnary fuel with
      | .null => return .null
      | dag => exprMultiplicative_ fuel dag

def exprAdditive_ : ℕ → Dag V → ParseM (Dag V)
  | 0, _ => throw .outOfFuel
  | fuel + 1, left => tailLoop lexer additiveOps (exprMultiplicative fuel) fuel left left

def exprAdditive : ℕ → ParseM (Dag V)
  | 0 => throw .outOfFuel
  | fuel + 1 => do
      match ← exprMultiplicative fuel with
      | .null => return .null
      | dag => exprAdditive_ fuel dag

def expr : ℕ → ParseM (Dag V)
  | 0 => throw .outOfFuel
  | fuel + 1 => exprAdditive fuel

end

def top (fuel : ℕ) : ParseM (Dag V) := do
  match ← expr lexer fuel with
  | .null => do
      traceOnce "invalid expression"
      return .null
  | dag => do
      if ← matchOp lexer .op_ then return dag
      else do
        traceOnce "bogus trailing content"
        return .null

end CS238P.Calc
