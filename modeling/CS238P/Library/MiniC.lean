import CS238P.Library.StraightLine
import Mathlib.Data.List.TakeWhile

set_option autoImplicit false

/-! # A part of C

A file with a prototype and one function that declares `double` variables, one after the other, and
returns a call. `tokens` cuts a text by the longest match, `readFile` reads the tokens by recursive
descent, and `File.run` says what the function returns.

What `double` is, is a parameter: a type with its operations, the values of the constants, and what
compares equal to zero (`Floats`). What has no meaning in C has none here: a name that is not declared
or declared twice, also in the branch of `?:` that is not taken, and a division by zero. A number
without a point would be an `int`; it has no meaning here either. -/

namespace MiniC

open StraightLine

/-! ## Tokens -/

/-- Keywords are words too. -/
inductive Token where
  | word (s : List Char)
  | number (s : List Char)
  | punct (c : Char)
  deriving DecidableEq

def isWordChar (c : Char) : Bool := c.isAlphanum || c == '_'

/-- What a preprocessing number goes on with. -/
def isNumberChar (c : Char) : Bool := isWordChar c || c == '.'

def punctuators : List Char :=
  ['(', ')', '\x7b', '\x7d', ';', '?', ':', '=', '+', '-', '*', '/']

def operators : List Char := ['=', '+', '-', '*', '/']

/-- The two start a longer token, or a comment. -/
def joins (c d : Char) : Bool := decide (c ∈ operators) && decide (d ∈ '>' :: operators)

/-- The longest token at the front of a text, and what follows it. -/
def token : List Char → Option (Token × List Char)
  | [] => none
  | c :: s =>
      if c.isDigit then
        some (.number ((c :: s).takeWhile isNumberChar), (c :: s).dropWhile isNumberChar)
      else if isWordChar c then
        some (.word ((c :: s).takeWhile isWordChar), (c :: s).dropWhile isWordChar)
      else if c ∈ punctuators ∧ ¬ s.head?.any (joins c) then some (.punct c, s)
      else none

def tokens : ℕ → List Char → Option (List Token)
  | 0, _ => none
  | _ + 1, [] => some []
  | fuel + 1, c :: s =>
      if c.isWhitespace then tokens fuel s
      else
        match token (c :: s) with
        | none => none
        | some (t, r) => (tokens fuel r).map (t :: ·)

/-! ## How a text is cut -/

/-- The text is cut into these tokens. -/
def Lexes (s : List Char) (ts : List Token) : Prop := ∀ fuel > s.length, tokens fuel s = some ts

section Lexes

variable {c : Char} {s r w : List Char} {t : Token} {ts : List Token}

theorem lexes_nil : Lexes [] [] := by
  intro fuel hfuel
  obtain ⟨fuel, rfl⟩ := Nat.exists_eq_succ_of_ne_zero (Nat.ne_of_gt hfuel)
  rfl

theorem Lexes.space (hc : c.isWhitespace) (h : Lexes r ts) : Lexes (c :: r) ts := by
  intro fuel hfuel
  obtain ⟨fuel, rfl⟩ := Nat.exists_eq_succ_of_ne_zero (Nat.ne_of_gt (Nat.zero_lt_of_lt hfuel))
  rw [tokens, if_pos hc]
  exact h fuel (Nat.lt_of_succ_lt_succ hfuel)

theorem token_of_isWhitespace (hc : c.isWhitespace) : token (c :: s) = none := by
  simp only [Char.isWhitespace, Bool.or_eq_true, decide_eq_true_eq] at hc
  rcases hc with ((rfl | rfl) | rfl) | rfl <;> simp [token, isWordChar, punctuators]

theorem Lexes.cons (ht : token s = some (t, r)) (hlen : r.length < s.length) (h : Lexes r ts) :
    Lexes s (t :: ts) := by
  intro fuel hfuel
  obtain ⟨fuel, rfl⟩ := Nat.exists_eq_succ_of_ne_zero (Nat.ne_of_gt (Nat.zero_lt_of_lt hfuel))
  cases s with
  | nil => cases ht
  | cons c s =>
      have hc : ¬ c.isWhitespace := fun hc => by
        rw [token_of_isWhitespace hc] at ht
        cases ht
      rw [tokens, if_neg hc, ht]
      simp only [h fuel (by rw [List.length_cons] at hfuel hlen; omega), Option.map_some]

theorem span_append {p : Char → Bool} (hw : ∀ c ∈ w, p c) (hr : ∀ c ∈ r.head?, ¬ p c) :
    (w ++ r).takeWhile p = w ∧ (w ++ r).dropWhile p = r := by
  rw [List.takeWhile_append_of_pos hw, List.dropWhile_append_of_pos hw]
  cases r with
  | nil => simp
  | cons c r => simp [List.takeWhile_cons_of_neg (hr c rfl), List.dropWhile_cons_of_neg (hr c rfl)]

def isWord (w : List Char) : Bool := w.all isWordChar && w.head?.any (!·.isDigit)

def isNumber (w : List Char) : Bool := w.all isNumberChar && w.head?.any (·.isDigit)

/-- A word is cut off where no word character follows it. -/
theorem Lexes.word (hw : isWord w) (hr : ∀ d ∈ r.head?, ¬ isWordChar d) (h : Lexes r ts) :
    Lexes (w ++ r) (.word w :: ts) := by
  cases w with
  | nil => cases hw
  | cons c w =>
      simp only [isWord, Bool.and_eq_true, List.all_eq_true, List.head?_cons, Option.any_some,
        Bool.not_eq_true'] at hw
      obtain ⟨htake, hdrop⟩ := span_append hw.1 hr
      refine h.cons (r := r) ?_ (by rw [List.length_append, List.length_cons]; omega)
      rw [List.cons_append, token, if_neg (by simp [hw.2]), if_pos (hw.1 c (by simp)),
        ← List.cons_append, htake, hdrop]

/-- A number is cut off where it does not go on. -/
theorem Lexes.number (hw : isNumber w) (hr : ∀ d ∈ r.head?, ¬ isNumberChar d) (h : Lexes r ts) :
    Lexes (w ++ r) (.number w :: ts) := by
  cases w with
  | nil => cases hw
  | cons c w =>
      simp only [isNumber, Bool.and_eq_true, List.all_eq_true, List.head?_cons,
        Option.any_some] at hw
      obtain ⟨htake, hdrop⟩ := span_append hw.1 hr
      refine h.cons (r := r) ?_ (by rw [List.length_append, List.length_cons]; omega)
      rw [List.cons_append, token, if_pos hw.2, ← List.cons_append, htake, hdrop]

theorem not_isWordChar_of_mem (hc : c ∈ punctuators) : ¬ isWordChar c := by
  have hall : punctuators.all fun c => !isWordChar c := by decide
  simpa using List.all_eq_true.1 hall c hc

theorem Lexes.punct (hc : c ∈ punctuators) (hr : ∀ d ∈ r.head?, joins c d = false)
    (h : Lexes r ts) : Lexes (c :: r) (.punct c :: ts) := by
  have hword := not_isWordChar_of_mem hc
  have hdigit : ¬ c.isDigit := fun hd => hword (by simp [isWordChar, Char.isAlphanum, hd])
  have hjoins : ¬ r.head?.any (joins c) := by
    cases r with
    | nil => simp
    | cons d r => simp [hr d rfl]
  refine h.cons (r := r) ?_ (by simp)
  rw [token, if_neg hdigit, if_neg hword, if_pos ⟨hc, hjoins⟩]

theorem Lexes.punct_cons {d : Char} (hc : c ∈ punctuators) (hd : joins c d = false)
    (h : Lexes (d :: r) ts) : Lexes (c :: d :: r) (.punct c :: ts) := by
  refine h.punct hc fun e he => ?_
  obtain rfl := Option.some.inj he
  exact hd

theorem joins_of_isWordChar {d : Char} (hd : isWordChar d) : joins c d = false := by
  have hall : ('>' :: operators).all fun d => !isWordChar d := by decide
  have hmem : d ∉ '>' :: operators := fun hmem => by
    have := List.all_eq_true.1 hall d hmem
    rw [hd] at this
    cases this
  simp [joins, hmem]

theorem Lexes.punct_word (hc : c ∈ punctuators) (hw : isWord w) (h : Lexes (w ++ r) ts) :
    Lexes (c :: (w ++ r)) (.punct c :: ts) := by
  cases w with
  | nil => cases hw
  | cons d w =>
      simp only [isWord, Bool.and_eq_true, List.all_eq_true] at hw
      exact h.punct_cons hc (joins_of_isWordChar (hw.1 d (by simp)))

theorem Lexes.word_cons (hw : isWord w) (hc : ¬ isWordChar c) (h : Lexes (c :: r) ts) :
    Lexes (w ++ c :: r) (.word w :: ts) := by
  refine h.word hw fun d hd => ?_
  obtain rfl := Option.some.inj hd
  exact hc

theorem Lexes.number_cons (hw : isNumber w) (hc : ¬ isNumberChar c) (h : Lexes (c :: r) ts) :
    Lexes (w ++ c :: r) (.number w :: ts) := by
  refine h.number hw fun d hd => ?_
  obtain rfl := Option.some.inj hd
  exact hc

end Lexes

/-! ## Expressions -/

inductive Op where
  | add | sub | mul | div
  deriving DecidableEq

inductive Expr where
  | number (s : List Char)
  | var (x : List Char)
  | neg (e : Expr)
  | bin (op : Op) (a b : Expr)
  | cond (c a b : Expr)

def double : List Char := "double".toList

def void : List Char := "void".toList

def return_ : List Char := "return".toList

def keywords : List (List Char) := [double, void, return_]

mutual

def primary : ℕ → List Token → Option (Expr × List Token)
  | _ + 1, .number s :: ts => some (.number s, ts)
  | _ + 1, .word x :: ts => if x ∈ keywords then none else some (.var x, ts)
  | fuel + 1, .punct '(' :: ts =>
      match conditional fuel ts with
      | some (e, .punct ')' :: ts) => some (e, ts)
      | _ => none
  | _, _ => none

def unary : ℕ → List Token → Option (Expr × List Token)
  | 0, _ => none
  | fuel + 1, .punct '-' :: ts => (unary fuel ts).map fun (e, ts) => (.neg e, ts)
  | fuel + 1, ts => primary fuel ts

/-- The product goes on behind `a`. -/
def factors : ℕ → Expr → List Token → Option (Expr × List Token)
  | 0, _, _ => none
  | fuel + 1, a, .punct '*' :: ts =>
      (unary fuel ts).bind fun (b, ts) => factors fuel (.bin .mul a b) ts
  | fuel + 1, a, .punct '/' :: ts =>
      (unary fuel ts).bind fun (b, ts) => factors fuel (.bin .div a b) ts
  | _ + 1, a, ts => some (a, ts)

def product : ℕ → List Token → Option (Expr × List Token)
  | 0, _ => none
  | fuel + 1, ts => (unary fuel ts).bind fun (a, ts) => factors fuel a ts

/-- The sum goes on behind `a`. -/
def summands : ℕ → Expr → List Token → Option (Expr × List Token)
  | 0, _, _ => none
  | fuel + 1, a, .punct '+' :: ts =>
      (product fuel ts).bind fun (b, ts) => summands fuel (.bin .add a b) ts
  | fuel + 1, a, .punct '-' :: ts =>
      (product fuel ts).bind fun (b, ts) => summands fuel (.bin .sub a b) ts
  | _ + 1, a, ts => some (a, ts)

def sum : ℕ → List Token → Option (Expr × List Token)
  | 0, _ => none
  | fuel + 1, ts => (product fuel ts).bind fun (a, ts) => summands fuel a ts

def conditional : ℕ → List Token → Option (Expr × List Token)
  | 0, _ => none
  | fuel + 1, ts =>
      match sum fuel ts with
      | some (c, .punct '?' :: ts) =>
          match conditional fuel ts with
          | some (a, .punct ':' :: ts) =>
              (conditional fuel ts).map fun (b, ts) => (.cond c a b, ts)
          | _ => none
      | r => r

end

/-- The expression at the front. The functions call one another eight deep at most before a token is
    taken. -/
def readExpr (ts : List Token) : Option (Expr × List Token) := conditional (8 * ts.length) ts

/-! ## Files -/

/-- Declarations as long as there are any. -/
def declarations : ℕ → List Token → Option (List (List Char × Expr) × List Token)
  | 0, _ => none
  | fuel + 1, .word w :: .word x :: .punct '=' :: ts =>
      if w = double ∧ x ∉ keywords then
        match readExpr ts with
        | some (e, .punct ';' :: ts) =>
            (declarations fuel ts).map fun (ds, ts) => ((x, e) :: ds, ts)
        | _ => none
      else none
  | _ + 1, ts => some ([], ts)

/-- `double proto(double ..); double name(void) \x7b body return callee(arg); \x7d`. -/
structure File where
  proto : List Char
  name : List Char
  body : List (List Char × Expr)
  callee : List Char
  arg : Expr

def readFile : List Token → Option File
  | .word d₁ :: .word proto :: .punct '(' :: .word d₂ :: .word _ :: .punct ')' :: .punct ';' ::
    .word d₃ :: .word name :: .punct '(' :: .word v :: .punct ')' :: .punct '\x7b' :: ts =>
      if d₁ = double ∧ d₂ = double ∧ d₃ = double ∧ v = void then
        match declarations (ts.length + 1) ts with
        | some (body, .word w :: .word callee :: .punct '(' :: ts) =>
            if w = return_ then
              match readExpr ts with
              | some (arg, [.punct ')', .punct ';', .punct '\x7d']) =>
                  some ⟨proto, name, body, callee, arg⟩
              | _ => none
            else none
        | _ => none
      else none
  | _ => none

/-- The file a text is. -/
def read (text : List Char) : Option File := (tokens (text.length + 1) text).bind readFile

theorem read_of_lexes {s : List Char} {ts : List Token} (h : Lexes s ts) : read s = readFile ts := by
  rw [read, h _ (Nat.lt_succ_self _), Option.bind_some]

/-! ## Meaning -/

/-- What `double` is, beside its operations: the value of a constant, and what compares equal to
    zero. -/
structure Floats (V : Type) where
  constant : List Char → V
  isZero : V → Bool

section Meaning

variable {V : Type} [Neg V] [Add V] [Sub V] [Mul V] [Div V] (floats : Floats V)

/-- Every name is declared. -/
def Expr.declared (env : Env (List Char) V) : Expr → Bool
  | .number _ => true
  | .var x => (env x).isSome
  | .neg e => e.declared env
  | .bin _ a b => a.declared env && b.declared env
  | .cond c a b => c.declared env && a.declared env && b.declared env

def Op.apply : Op → V → V → Option V
  | .add, a, b => some (a + b)
  | .sub, a, b => some (a - b)
  | .mul, a, b => some (a * b)
  | .div, a, b => if floats.isZero b then none else some (a / b)

def Expr.value (env : Env (List Char) V) : Expr → Option V
  | .number s => if '.' ∈ s then some (floats.constant s) else none
  | .var x => env x
  | .neg e => (e.value env).map (- ·)
  | .bin op a b => (a.value env).bind fun x => (b.value env).bind fun y => op.apply floats x y
  | .cond c a b =>
      (c.value env).bind fun z => if floats.isZero z then b.value env else a.value env

def Expr.eval (e : Expr) (env : Env (List Char) V) : Option V :=
  if e.declared env then e.value floats env else none

/-- What the function returns, `call` being the function of the prototype. A variable of its name
    would hide it. -/
def File.run {W : Type} (f : File) (call : V → W) : Option W :=
  (exec (Expr.eval floats) f.body Env.empty).bind fun env =>
    if f.callee = f.proto ∧ env f.callee = none then (f.arg.eval floats env).map call else none

end Meaning

end MiniC
