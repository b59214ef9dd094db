import CS238P.Calc.Parser
import CS238P.Library.Decimal

set_option autoImplicit false

/-! # The lexer (`p1/lexer.c`)

`tokenize` on the characters it has not read yet and the array of tokens it fills. An element of the
array that was allocated but not written is `none`; a write outside the array stops the model with
`LexStop.outOfBounds`. Allocations succeed, and sizes are natural numbers.

`strtod` is taken as the longest match of a plain decimal numeral; `value` is the number it makes of
one. -/

namespace CS238P.Calc

open Decimal

variable {V : Type}

/-- `struct lexer`. -/
structure LexerState (V : Type) where
  size : ℕ
  tokens : List (Option (LexerToken V))

/-- `memset(lexer, 0, ..)`. -/
def LexerState.init : LexerState V := ⟨0, []⟩

/-- Why `tokenize` does not return 0: it returns -1, or it writes outside the array. -/
inductive LexStop where
  | failed | outOfBounds
  deriving DecidableEq, Repr

/-! ## The token array -/

/-- `realloc`, to `n` elements. -/
def realloc (tokens : List (Option (LexerToken V))) (n : ℕ) : List (Option (LexerToken V)) :=
  tokens.take n ++ List.replicate (n - tokens.length) none

/-- A write to `tokens[i]`. -/
def LexerState.write (lexer : LexerState V) (i : ℕ) (t : LexerToken V) :
    Except LexStop (LexerState V) :=
  if i < lexer.tokens.length then .ok { lexer with tokens := lexer.tokens.set i (some t) }
  else .error .outOfBounds

variable [Zero V]

/-- `mktoken`: the index of the token it makes, and the lexer. -/
def mktoken (op : LexerOp) (lexer : LexerState V) : Except LexStop (ℕ × LexerState V) := do
  let lexer :=
    if lexer.size % 100 = 0 then { lexer with tokens := realloc lexer.tokens (lexer.size + 100) }
    else lexer
  let token := lexer.size
  let lexer ← LexerState.write { lexer with size := lexer.size + 1 } token ⟨op, 0⟩
  return (token, lexer)

/-! ## `tokenize` -/

/-- `const char * const OPERATORS`. -/
def OPERATORS : List Char := ['+', '-', '*', '/', '(', ')']

/-- The value of an enumerator, as C assigns it. -/
def LexerOp.code : LexerOp → ℕ
  | .op_ => 0
  | .val => 1
  | .add => 2
  | .sub => 3
  | .mul => 4
  | .div => 5
  | .open_ => 6
  | .close => 7

/-- The enumerator with a value. -/
def LexerOp.ofCode : ℕ → LexerOp
  | 0 => .op_
  | 1 => .val
  | 2 => .add
  | 3 => .sub
  | 4 => .mul
  | 5 => .div
  | 6 => .open_
  | _ => .close

/-- The `for` loop: `LEXER_OP_ADD + i` for the first `i` with `OPERATORS[i] == c`. -/
def operatorOf (c : Char) : Option LexerOp :=
  (OPERATORS.idxOf? c).map fun i => LexerOp.ofCode (LexerOp.add.code + i)

/-- `isspace`. -/
def isspace (c : Char) : Bool := c = ' ' || (9 ≤ c.toNat && c.toNat ≤ 13)

/-- `strtod(s, &e)`: the number and `e`. -/
def strtod (value : Numeral → V) (s : List Char) : V × List Char :=
  match read s with
  | some (n, e) => (value n, e)
  | none => (0, s)

/-- The body of the `while`, at the character `c`: the lexer and the characters left. The last branch
    writes `token->val`; `token->op` is still what `mktoken` has put there. -/
def tokenizeStep (value : Numeral → V) (c : Char) (s : List Char) (lexer : LexerState V) :
    Except LexStop (LexerState V × List Char) :=
  match operatorOf c with
  | some op => do
      let (_, lexer) ← mktoken op lexer
      return (lexer, s)
  | none =>
      if isspace c then return (lexer, s)
      else do
        let (token, lexer) ← mktoken .val lexer
        let (val, e) := strtod value (c :: s)
        let lexer ← lexer.write token ⟨.val, val⟩
        if e = c :: s then throw .failed else return (lexer, e)

section Step

variable {value : Numeral → V} {c : Char} {s : List Char} {lexer : LexerState V}

omit [Zero V] in
/-- A numeral is not empty. -/
theorem length_lt_of_read {n : Numeral} {e : List Char} (h : read s = some (n, e)) :
    e.length < s.length := by
  obtain ⟨c, t, ht, -⟩ := n.exists_text_eq_cons
  rw [eq_text_append h, ht, List.cons_append, List.length_cons, List.length_append]
  omega

theorem tokenizeStep_operator {op : LexerOp} {r : ℕ × LexerState V} (h : operatorOf c = some op)
    (hmk : mktoken op lexer = .ok r) : tokenizeStep value c s lexer = .ok (r.2, s) := by
  simp [tokenizeStep, h, hmk, bind, Except.bind, pure, Except.pure]

theorem tokenizeStep_space (h : operatorOf c = none) (hc : isspace c) :
    tokenizeStep value c s lexer = .ok (lexer, s) := by
  simp [tokenizeStep, h, hc, pure, Except.pure]

/-- A numeral: `mktoken` and the value make two writes to the new token. -/
theorem tokenizeStep_val {n : Numeral} {e : List Char} {r : ℕ × LexerState V}
    {lexer' : LexerState V} (h : operatorOf c = none) (hc : ¬ isspace c)
    (hread : read (c :: s) = some (n, e)) (hmk : mktoken .val lexer = .ok r)
    (hwrite : r.2.write r.1 ⟨.val, value n⟩ = .ok lexer') :
    tokenizeStep value c s lexer = .ok (lexer', e) := by
  have hne : e ≠ c :: s := fun he => by
    have := length_lt_of_read hread
    rw [he] at this
    exact Nat.lt_irrefl _ this
  simp [tokenizeStep, h, hc, strtod, hread, hmk, hwrite, hne, bind, Except.bind, pure, Except.pure]

/-- All that an iteration can do. -/
theorem tokenizeStep_cases {lexer' : LexerState V} {s' : List Char}
    (h : tokenizeStep value c s lexer = .ok (lexer', s')) :
    (∃ op i, operatorOf c = some op ∧ mktoken op lexer = .ok (i, lexer') ∧ s' = s) ∨
      (operatorOf c = none ∧ isspace c ∧ lexer' = lexer ∧ s' = s) ∨
      (operatorOf c = none ∧ ¬ isspace c ∧ ∃ n i lexer'', read (c :: s) = some (n, s') ∧
        mktoken .val lexer = .ok (i, lexer'') ∧
        lexer''.write i ⟨.val, value n⟩ = .ok lexer') := by
  unfold tokenizeStep at h
  cases hop : operatorOf c with
  | some op =>
      rw [hop] at h
      cases hmk : mktoken op lexer with
      | error stop => simp [hmk, bind, Except.bind] at h
      | ok r =>
          simp only [hmk, bind, Except.bind, pure, Except.pure, Except.ok.injEq,
            Prod.mk.injEq] at h
          obtain ⟨rfl, rfl⟩ := h
          exact .inl ⟨op, r.1, rfl, hmk, rfl⟩
  | none =>
      rw [hop] at h
      by_cases hc : isspace c
      · simp only [hc, if_true, pure, Except.pure, Except.ok.injEq, Prod.mk.injEq] at h
        exact .inr (.inl ⟨rfl, hc, h.1.symm, h.2.symm⟩)
      · cases hmk : mktoken .val lexer with
        | error stop => simp [hc, hmk, bind, Except.bind] at h
        | ok r =>
            cases hread : read (c :: s) with
            | none =>
                -- `strtod` leaves `e` at `s`, whatever the write does
                cases hwrite : r.2.write r.1 ⟨.val, (0 : V)⟩ <;>
                  simp [hc, hmk, strtod, hread, hwrite, bind, Except.bind, throw, throwThe,
                    MonadExceptOf.throw] at h
            | some m =>
                obtain ⟨n, e⟩ := m
                cases hwrite : r.2.write r.1 ⟨.val, value n⟩ with
                | error stop => simp [hc, hmk, strtod, hread, hwrite, bind, Except.bind] at h
                | ok lexer'' =>
                    by_cases he : e = c :: s
                    · simp [hc, hmk, strtod, hread, hwrite, he, bind, Except.bind, throw, throwThe,
                        MonadExceptOf.throw] at h
                    · simp only [hc, hmk, strtod, hread, hwrite, he, bind, Except.bind, pure,
                        Except.pure, if_false, Except.ok.injEq, Prod.mk.injEq,
                        Bool.false_eq_true] at h
                      obtain ⟨rfl, rfl⟩ := h
                      exact .inr (.inr ⟨rfl, hc, n, r.1, r.2, rfl, rfl, hwrite⟩)

/-- Every iteration reads something. -/
theorem length_lt_of_tokenizeStep {lexer' : LexerState V} {s' : List Char}
    (h : tokenizeStep value c s lexer = .ok (lexer', s')) : s'.length < (c :: s).length := by
  rcases tokenizeStep_cases h with ⟨-, -, -, -, rfl⟩ | ⟨-, -, -, rfl⟩ | ⟨-, -, n, -, -, hread, -⟩
  · simp
  · simp
  · exact length_lt_of_read hread

end Step

/-- `tokenize`. -/
def tokenize (value : Numeral → V) (lexer : LexerState V) :
    List Char → Except LexStop (LexerState V)
  | [] => .ok lexer
  | c :: s =>
      match h : tokenizeStep value c s lexer with
      | .error stop => .error stop
      | .ok (lexer', s') =>
          have : s'.length < s.length + 1 := length_lt_of_tokenizeStep h
          tokenize value lexer' s'
termination_by s => s.length

theorem tokenize_nil (value : Numeral → V) (lexer : LexerState V) :
    tokenize value lexer [] = .ok lexer := by
  rw [tokenize]

variable {value : Numeral → V} {lexer lexer' : LexerState V} {c : Char} {s s' : List Char}

/-- One iteration, and the rest. -/
theorem tokenize_cons (h : tokenizeStep value c s lexer = .ok (lexer', s')) :
    tokenize value lexer (c :: s) = tokenize value lexer' s' := by
  rw [tokenize]
  split
  · case _ stop herr => rw [h] at herr; cases herr
  · case _ l t hok => rw [h] at hok; cases hok; rfl

theorem exists_step_of_tokenize (h : tokenize value lexer (c :: s) = .ok lexer') :
    ∃ l s', tokenizeStep value c s lexer = .ok (l, s') ∧ tokenize value l s' = .ok lexer' := by
  cases hstep : tokenizeStep value c s lexer with
  | ok r => exact ⟨r.1, r.2, rfl, by rw [← h, tokenize_cons hstep]⟩
  | error stop =>
      rw [tokenize] at h
      split at h
      · cases h
      · case _ hok => rw [hstep] at hok; cases hok

end CS238P.Calc
