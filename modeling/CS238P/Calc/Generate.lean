import CS238P.Calc.Parse
import CS238P.Library.StraightLine
import Mathlib.Algebra.Ring.Int.Defs

set_option autoImplicit false

/-! # The code generator (`p1/main.c`)

`reflect` prints one declaration for each node of the tree, links first; `generate` puts them into
a function that returns `sigmoid` of the root's variable. A printed declaration is a pair of the id
and a right-hand side, and `Decl.text` is its text, with `fmt` for `%f`.

The correctness of the code is stated over any carrier with the operations the declarations use. -/

namespace CS238P.Calc

open StraightLine

/-- The right-hand side of a declaration. -/
inductive Rhs (V : Type) where
  | val (v : V)
  | neg (r : ℕ)
  | mul (l r : ℕ)
  | div (l r : ℕ)
  | add (l r : ℕ)
  | sub (l r : ℕ)
  deriving DecidableEq, Repr

/-- `double tN = ..;`. -/
abbrev Decl (V : Type) := ℕ × Rhs V

/-- `EXIT("software")`, or `->id` of a NULL link. -/
inductive Halt where
  | software | nullLink
  deriving DecidableEq, Repr

variable {V : Type}

/-- `"t%d"`. -/
def var (id : ℕ) : String := "t" ++ toString id

def Rhs.text (fmt : V → String) : Rhs V → String
  | .val v => fmt v
  | .neg r => "- " ++ var r
  | .mul l r => var l ++ " * " ++ var r
  | .div l r => var r ++ " ? (" ++ var l ++ " / " ++ var r ++ ") : 0.0"
  | .add l r => var l ++ " + " ++ var r
  | .sub l r => var l ++ " - " ++ var r

def Decl.text (fmt : V → String) (d : Decl V) : String :=
  "double " ++ var d.1 ++ " = " ++ d.2.text fmt ++ ";\n"

/-- `dag->id`. -/
def Dag.getId : Dag V → Except Halt ℕ
  | .null => .error .nullLink
  | .node _ id _ _ _ => .ok id

/-- The `fprintf` of `reflect` for a node. -/
def printNode (id : ℕ) (val : V) (left right : Dag V) : DagOp → Except Halt (Decl V)
  | .val => .ok (id, .val val)
  | .neg => do return (id, .neg (← right.getId))
  | .mul => do return (id, .mul (← left.getId) (← right.getId))
  | .div => do return (id, .div (← left.getId) (← right.getId))
  | .add => do return (id, .add (← left.getId) (← right.getId))
  | .sub => do return (id, .sub (← left.getId) (← right.getId))
  | .dag_ => .error .software

def reflect : Dag V → Except Halt (List (Decl V))
  | .null => .ok []
  | .node op id val left right => do
      let ls ← reflect left
      let rs ← reflect right
      let d ← printNode id val left right op
      return ls ++ rs ++ [d]

/-- The declarations in the body of `evaluate`, and the variable it returns `sigmoid` of. -/
def generate (dag : Dag V) : Except Halt (List (Decl V) × ℕ) := do
  let decls ← reflect dag
  return (decls, ← dag.getId)

/-- The text of the file. -/
def fileText (fmt : V → String) (code : List (Decl V) × ℕ) : String :=
  "double sigmoid(double x);\n" ++ "double evaluate(void) \x7b\n" ++
    String.join (code.1.map (Decl.text fmt)) ++ "return sigmoid(" ++ var code.2 ++ ");\n\x7d"

/-! ## The meaning of trees and declarations -/

section Meaning

variable [Neg V] [Mul V] [Div V] [Add V] [Sub V] [Zero V] (isZero : V → Bool)

/-- What an operator does: dividing by zero gives zero. -/
def BinOp.apply : BinOp → V → V → V
  | .mul, a, b => a * b
  | .div, a, b => if isZero b then 0 else a / b
  | .add, a, b => a + b
  | .sub, a, b => a - b

/-- The value of an expression. -/
def Ast.value : Ast V → V
  | .val v => v
  | .neg a => - a.value
  | .bin op a b => op.apply isZero a.value b.value

/-- The value of a right-hand side. Every name in it must be declared, also the one in the branch of
    `?:` that is not taken. -/
def Rhs.eval (r : Rhs V) (env : Env ℕ V) : Option V :=
  match r with
  | .val v => some v
  | .neg r => do return - (← env r)
  | .mul l r => do return (← env l) * (← env r)
  | .div l r => do
      let b ← env r
      let a ← env l
      return if isZero b then 0 else a / b
  | .add l r => do return (← env l) + (← env r)
  | .sub l r => do return (← env l) - (← env r)

end Meaning

/-! ## The code of a tree -/

/-- The right-hand side for a binary node. -/
def BinOp.rhs : BinOp → ℕ → ℕ → Rhs V
  | .mul => .mul
  | .div => .div
  | .add => .add
  | .sub => .sub

theorem getId_of_ast {d : Dag V} {a : Ast V} (h : d.ast = some a) :
    ∃ id, d.getId = .ok id ∧ id ∈ d.ids := by
  cases d with
  | null => exact absurd h (by simp [Dag.ast])
  | node op id v left right => exact ⟨id, rfl, by simp [Dag.ids]⟩

theorem reflect_val (id : ℕ) (v : V) :
    reflect (.node .val id v .null .null) = .ok [(id, .val v)] := rfl

theorem reflect_neg (id : ℕ) (v : V) {right : Dag V} {p : List (Decl V)} {r : ℕ}
    (hp : reflect right = .ok p) (hr : right.getId = .ok r) :
    reflect (.node .neg id v .null right) = .ok (p ++ [(id, .neg r)]) := by
  simp [reflect, printNode, hp, hr, bind, Except.bind, pure, Except.pure]

theorem reflect_bin (op : BinOp) (id : ℕ) (v : V) {left right : Dag V} {p q : List (Decl V)}
    {l r : ℕ} (hp : reflect left = .ok p) (hl : left.getId = .ok l)
    (hq : reflect right = .ok q) (hr : right.getId = .ok r) :
    reflect (.node op.dagOp id v left right) = .ok (p ++ q ++ [(id, op.rhs l r)]) := by
  cases op <;>
    simp [reflect, printNode, BinOp.dagOp, BinOp.rhs, hp, hl, hq, hr, bind, Except.bind, pure,
      Except.pure]

variable [Neg V] [Mul V] [Div V] [Add V] [Sub V] [Zero V] (isZero : V → Bool)

theorem BinOp.eval_rhs (op : BinOp) {l r : ℕ} {env : Env ℕ V} {a b : V} (hl : env l = some a)
    (hr : env r = some b) : (op.rhs l r).eval isZero env = some (op.apply isZero a b) := by
  cases op <;> simp [BinOp.rhs, Rhs.eval, BinOp.apply, hl, hr]

/-- **The code of a tree computes its value.** -/
theorem reflect_computes (d : Dag V) : ∀ a, d.ast = some a → d.ids.Nodup →
    ∃ p id, reflect d = .ok p ∧ d.getId = .ok id ∧
      Computes (Rhs.eval isZero) p d.ids id (a.value isZero) := by
  intro a h
  refine Dag.ast_induction (motive := fun d a => d.ids.Nodup → ∃ p id, reflect d = .ok p ∧
    d.getId = .ok id ∧ Computes (Rhs.eval isZero) p d.ids id (a.value isZero)) ?_ ?_ ?_ d a h
  · intro id v _
    exact ⟨_, id, reflect_val id v, rfl, .leaf fun env => rfl⟩
  · intro id v right b _ ih hnodup
    rw [Dag.ids, List.nodup_cons] at hnodup
    obtain ⟨p, r, hp, hr, hcomp⟩ := ih hnodup.2
    refine ⟨_, id, reflect_neg id v hp hr, rfl, ?_⟩
    exact hcomp.unary hnodup.1 fun env hx => by simp [Rhs.eval, hx, Ast.value]
  · intro op id v left right b c hb _ ihl ihr hnodup
    rw [Dag.ids, List.nodup_cons, List.nodup_append] at hnodup
    obtain ⟨hid, hnl, hnr, hdisj⟩ := hnodup
    obtain ⟨p, l, hp, hl, hcl⟩ := ihl hnl
    obtain ⟨q, r, hq, hr, hcr⟩ := ihr hnr
    obtain ⟨l', hl', hmem⟩ := getId_of_ast hb
    obtain rfl : l' = l := by rw [hl] at hl'; cases hl'; rfl
    refine ⟨_, id, reflect_bin op id v hp hl hq hr, rfl, ?_⟩
    -- the ids of the subtrees are disjoint, so the code on the right keeps what is on the left
    exact hcl.binary hcr hmem (fun i hi hi' => hdisj i hi i hi' rfl) hid
      fun env hx hy => op.eval_rhs isZero hx hy

/-- **The emitted program is a correct compilation**: for every input the parser accepts, the
    declarations run from an environment without names, and the variable that is returned holds the
    value of the expression. -/
theorem generate_correct (lexer : Lexer V) (fuel : ℕ) (d : Dag V) (p : Parser)
    (htop : top lexer fuel Parser.init = .ok d p) (hd : d ≠ .null) :
    ∃ a code id env, Derives .expr lexer.tokens a ∧ d.ast = some a ∧
      generate d = .ok (code, id) ∧ exec (Rhs.eval isZero) code Env.empty = some env ∧
      env id = some (a.value isZero) := by
  obtain ⟨⟨a, hder, hast⟩, hnodup⟩ := top_sound htop hd
  obtain ⟨code, id, hreflect, hid, hcomp⟩ := reflect_computes isZero d a hast hnodup
  obtain ⟨env, hexec, hval, -⟩ := hcomp Env.empty fun i _ => rfl
  refine ⟨a, code, id, env, hder, hast, ?_, hexec, hval⟩
  simp [generate, hreflect, hid, bind, Except.bind, pure, Except.pure]

/-- The input `8 / - 2`. -/
def quotient : Lexer Int := ⟨[⟨.val, 8⟩, ⟨.div, 0⟩, ⟨.sub, 0⟩, ⟨.val, 2⟩], by decide⟩

/-- Its tree. -/
def quotientDag : Dag Int :=
  .node .div 2 0 (.node .val 1 8 .null .null) (.node .neg 3 0 .null (.node .val 4 2 .null .null))

theorem top_quotient : top quotient 10 Parser.init = .ok quotientDag ⟨4, false, 4, []⟩ := by rfl

theorem quotient_correct :
    ∃ a code id env, Derives .expr quotient.tokens a ∧ quotientDag.ast = some a ∧
      generate quotientDag = .ok (code, id) ∧
      exec (Rhs.eval (· == 0)) code Env.empty = some env ∧ env id = some (a.value (· == 0)) :=
  generate_correct (· == 0) quotient 10 quotientDag _ top_quotient (by simp [quotientDag])

end CS238P.Calc
