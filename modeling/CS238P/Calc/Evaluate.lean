import CS238P.Calc.Constants
import CS238P.Calc.Emit

set_option autoImplicit false

/-! # From the expression to its value

`main` from the text it is given to what `evaluate` returns: the lexer, the parser, the generator,
the text of the file, and the file run as C. Numbers are of any type: what `strtod` makes of a
numeral, what `%f` prints, what the compiler reads and what the operations do, are parameters. -/

namespace CS238P.Calc

open Decimal StraightLine MiniC

/-! ## Changing the constants -/

section Map

variable {V W : Type} (f : V → W)

def Ast.map : Ast V → Ast W
  | .val v => .val (f v)
  | .neg a => .neg a.map
  | .bin op a b => .bin op a.map b.map

def Dag.map : Dag V → Dag W
  | .null => .null
  | .node op id v left right => .node op id (f v) left.map right.map

def Rhs.map : Rhs V → Rhs W
  | .val v => .val (f v)
  | .neg r => .neg r
  | .mul l r => .mul l r
  | .div l r => .div l r
  | .add l r => .add l r
  | .sub l r => .sub l r

theorem BinOp.rhs_map (op : BinOp) (l r : ℕ) : (op.rhs l r).map f = op.rhs l r := by
  cases op <;> rfl

theorem Dag.ids_map (d : Dag V) : (d.map f).ids = d.ids := by
  induction d with
  | null => rfl
  | node op id v left right ihl ihr => simp only [Dag.map, Dag.ids, ihl, ihr]

theorem Dag.ast_map (d : Dag V) (a : Ast V) (h : d.ast = some a) :
    (d.map f).ast = some (a.map f) := by
  refine Dag.ast_induction (motive := fun d a => (d.map f).ast = some (a.map f)) ?_ ?_ ?_ d a h
  · intro id v
    exact Dag.ast_val id (f v)
  · intro id v right b _ ih
    simp only [Dag.map, Dag.ast_neg, ih, Option.map_some, Ast.map]
  · intro op id v left right b c _ _ ihl ihr
    exact Dag.ast_bin op id (f v) ihl ihr

/-- The code is that of the tree before, with the constants changed. -/
theorem reflect_map (d : Dag V) (a : Ast V) (h : d.ast = some a) :
    ∃ p i, reflect d = .ok p ∧ d.getId = .ok i ∧ (d.map f).getId = .ok i ∧
      reflect (d.map f) = .ok (p.map (Prod.map id (Rhs.map f))) := by
  refine Dag.ast_induction (motive := fun d a => ∃ p i, reflect d = .ok p ∧ d.getId = .ok i ∧
    (d.map f).getId = .ok i ∧ reflect (d.map f) = .ok (p.map (Prod.map id (Rhs.map f))))
    ?_ ?_ ?_ d a h
  · intro i v
    exact ⟨_, i, reflect_val i v, rfl, rfl, reflect_val i (f v)⟩
  · intro i v right b _ ih
    obtain ⟨p, r, hp, hr, hr', hp'⟩ := ih
    refine ⟨_, i, reflect_neg i v hp hr, rfl, rfl, ?_⟩
    rw [List.map_append]
    exact reflect_neg i (f v) hp' hr'
  · intro op i v left right b c _ _ ihl ihr
    obtain ⟨p, l, hp, hl, hl', hp'⟩ := ihl
    obtain ⟨q, r, hq, hr, hr', hq'⟩ := ihr
    refine ⟨_, i, reflect_bin op i v hp hl hq hr, rfl, rfl, ?_⟩
    have hrhs : [(i, op.rhs l r)].map (Prod.map id (Rhs.map f)) = [(i, op.rhs l r)] := by
      rw [List.map_singleton, Prod.map_apply, op.rhs_map, id_eq]
    rw [List.map_append, List.map_append, hrhs]
    exact reflect_bin op i (f v) hp' hl' hq' hr'

end Map

section Prints

variable {V : Type} {print : V → String}

theorem BinOp.rhs_prints (op : BinOp) (l r : ℕ) : (op.rhs l r).Prints print := by
  cases op <;> trivial

/-- The constants of the code are those of the tree. -/
theorem reflect_prints (d : Dag V) (a : Ast V) (h : d.ast = some a) :
    (∀ v ∈ a.leaves, IsFixed (print v).toList) →
      ∀ p, reflect d = .ok p → ∀ x ∈ p, x.2.Prints print := by
  refine Dag.ast_induction (motive := fun d a => (∀ v ∈ a.leaves, IsFixed (print v).toList) →
    ∀ p, reflect d = .ok p → ∀ x ∈ p, x.2.Prints print) ?_ ?_ ?_ d a h
  · intro id v hleaves p hp
    obtain rfl := Except.ok.inj ((reflect_val id v).symm.trans hp)
    exact List.forall_mem_singleton.2 (hleaves v (List.mem_singleton_self v))
  · intro id v right b hb ih hleaves p hp
    obtain ⟨q, r, hq, hr, -⟩ := reflect_map (fun v => v) right b hb
    obtain rfl := Except.ok.inj ((reflect_neg id v hq hr).symm.trans hp)
    exact List.forall_mem_append.2 ⟨ih hleaves q hq, List.forall_mem_singleton.2 trivial⟩
  · intro op id v left right b c hb hc ihl ihr hleaves p hp
    obtain ⟨q, l, hq, hl, -⟩ := reflect_map (fun v => v) left b hb
    obtain ⟨q', r, hq', hr, -⟩ := reflect_map (fun v => v) right c hc
    obtain rfl := Except.ok.inj ((reflect_bin op id v hq hl hq' hr).symm.trans hp)
    obtain ⟨hleft, hright⟩ := List.forall_mem_append.1 hleaves
    exact List.forall_mem_append.2 ⟨List.forall_mem_append.2 ⟨ihl hleft q hq, ihr hright q' hq'⟩,
      List.forall_mem_singleton.2 (op.rhs_prints l r)⟩

end Prints

variable {V : Type} [Zero V] {value : Numeral → V} {print : V → String}

/-! ## The file that is written -/

/-- A text that ends at its terminator and has no letter in it. There `strtod` reads a plain decimal:
    an exponent, a hexadecimal numeral, an infinity and a NaN have letters. -/
structure PlainText where
  chars : List Char
  letterless : chars.all (!·.isAlpha)
  nul : Char.ofNat 0 ∉ chars

section

variable (value print)

/-- `main` writes this file when it is given the text. -/
def Writes (text : PlainText) (file : String) : Prop :=
  ∃ (state : LexerState V) (lexer : Lexer V) (fuel : ℕ) (d : Dag V) (p : Parser)
    (code : List (Decl V) × ℕ),
    tokenize value .init text.chars = .ok state ∧ Holds state lexer.tokens ∧
      top lexer fuel Parser.init = .ok d p ∧ d ≠ .null ∧ generate d = .ok code ∧
      file = fileText print code

/-- The text spells the lexemes, with white space between them. Every numeral is as long as it can
    be. -/
inductive Spells : List Char → List Lexeme → Prop where
  | nil : Spells [] []
  | space (c : Char) (s : List Char) (ls : List Lexeme) (hc : isspace c) (h : Spells s ls) :
      Spells (c :: s) ls
  | operator (op : LexerOp) (c : Char) (s : List Char) (ls : List Lexeme)
      (hc : op.char = some c) (h : Spells s ls) : Spells (c :: s) (.operator op :: ls)
  | val (n : Numeral) (s : List Char) (ls : List Lexeme)
      (hn : ∀ (m : Numeral) (r : List Char), n.text ++ s = m.text ++ r →
        m.text.length ≤ n.text.length)
      (h : Spells s ls) : Spells (n.text ++ s) (.val n :: ls)

/-- The text is an expression, with this syntax tree. -/
def IsExpr (text : PlainText) (a : Ast V) : Prop :=
  ∃ ls, Spells text.chars ls ∧ Derives .expr (ls.map (Lexeme.token value)) a

end

/-- `tokenize` cuts a text into what it spells. -/
theorem spells_iff {s : List Char} {ls : List Lexeme} : Spells s ls ↔ Cuts s ls := by
  constructor
  · intro h
    induction h with
    | nil => exact .nil
    | space c s ls hc h ih => exact .space c s ls hc ih
    | operator op c s ls hc h ih => exact .operator op c s ls hc ih
    | val n s ls hn h ih => exact .val n _ s ls (read_of_longest hn) ih
  · intro h
    induction h with
    | nil => exact .nil
    | space c s ls hc h ih => exact .space c s ls hc ih
    | operator op c s ls hc h ih => exact .operator op c s ls hc ih
    | val n s e ls hread h ih =>
        obtain rfl := eq_text_append hread
        exact .val n e ls (fun m r hs => length_le_of_read hread hs) ih

/-- The operators of a text are not the sentinel. -/
theorem Cuts.lexed {s : List Char} {ls : List Lexeme} (h : Cuts s ls) :
    ∀ t ∈ ls.map (Lexeme.token value), t.op ≠ .op_ := by
  induction h with
  | nil => simp
  | space c s ls hc h ih => exact ih
  | operator op c s ls hc h ih =>
      refine List.forall_mem_cons.2 ⟨?_, ih⟩
      rintro rfl
      cases hc
  | val n s e ls hread h ih =>
      refine List.forall_mem_cons.2 ⟨?_, ih⟩
      exact fun h => LexerOp.noConfusion h

/-- The parser is given the tokens of the text. -/
theorem tokens_of_cuts {text : List Char} {ls : List Lexeme} {state : LexerState V}
    {ts : List (LexerToken V)} (h : Cuts text ls)
    (htok : tokenize value .init text = .ok state) (hstate : Holds state ts) :
    ts = ls.map (Lexeme.token value) := by
  obtain ⟨state', htok', hstate'⟩ := h.tokenize value [] .init holds_init
  obtain rfl : state = state' := by
    rw [htok] at htok'
    cases htok'
    rfl
  exact hstate.unique hstate'

/-- The tokens of an expression are accepted. -/
theorem top_accepts (lexer : Lexer V) {a : Ast V} (h : Derives .expr lexer.tokens a) :
    ∃ fuel d p, top lexer fuel Parser.init = .ok d p ∧ d ≠ .null := by
  have hread := top_complete h (8 * lexer.tokens.length + 8)
  have hends := lexer.expr_ends (8 * lexer.tokens.length + 8)
  cases htop : top lexer (8 * lexer.tokens.length + 8) Parser.init with
  | ok d p =>
      rw [htop] at hread
      refine ⟨_, d, p, htop, fun hd => ?_⟩
      exact absurd hread.2 (by simp [hd, Dag.ast])
  | error e p =>
      rw [htop] at hread
      obtain rfl : e = .outOfFuel := hread
      -- the fuel is enough, so `expr` returns, and then `top` does
      rw [top_apply] at htop
      cases hres : expr lexer (8 * lexer.tokens.length + 8) Parser.init with
      | error e' p' =>
          rw [hres] at htop hends
          cases htop
          have hlt : 8 * lexer.tokens.length + 8 < 8 * lexer.tokens.length + 7 := hends
          omega
      | ok d' p' =>
          rw [hres] at htop
          cases d' with
          | null => cases htop
          | node op id v left right =>
              rw [Outcome.onDag] at htop
              split_ifs at htop
              cases htop

/-- What was written was written for this expression. -/
theorem Writes.tokens {text : PlainText} {file : String} {a : Ast V}
    (h : Writes value print text file)
    (ha : IsExpr value text a) : ∃ d code, d.ast = some a ∧ d.ids.Nodup ∧ generate d = .ok code ∧
      file = fileText print code := by
  obtain ⟨state, lexer, fuel, d, p, code, htok, hstate, htop, hd, hgen, hfile⟩ := h
  obtain ⟨ls, hspells, hder⟩ := ha
  have htokens := tokens_of_cuts (spells_iff.1 hspells) htok hstate
  rw [← htokens] at hder
  have hread := top_complete hder fuel
  rw [htop] at hread
  exact ⟨d, code, hread.2, (top_sound htop hd).2, hgen, hfile⟩

theorem writes_iff (text : PlainText) :
    (∃ file, Writes value print text file) ↔ ∃ a, IsExpr value text a := by
  constructor
  · rintro ⟨file, state, lexer, fuel, d, p, code, htok, hstate, htop, hd, -⟩
    obtain ⟨ls, hcuts⟩ := exists_cuts htok
    have htokens := tokens_of_cuts hcuts htok hstate
    obtain ⟨⟨a, hder, -⟩, -⟩ := top_sound htop hd
    exact ⟨a, ls, spells_iff.2 hcuts, htokens ▸ hder⟩
  · rintro ⟨a, ls, hspells, hder⟩
    have hcuts := spells_iff.1 hspells
    obtain ⟨state, htok, hstate⟩ := hcuts.tokenize value [] .init holds_init
    obtain ⟨fuel, d, p, htop, hd⟩ := top_accepts ⟨_, hcuts.lexed⟩ hder
    obtain ⟨⟨b, -, hast⟩, -⟩ := top_sound htop hd
    obtain ⟨q, i, hq, hi, -⟩ := reflect_map (fun v => v) d b hast
    have hgen : generate d = .ok (q, i) := by
      simp [generate, hq, hi, bind, Except.bind, pure, Except.pure]
    exact ⟨_, state, _, fuel, d, p, _, htok, hstate, htop, hd, hgen, rfl⟩

variable [Neg V] [Mul V] [Div V] [Add V] [Sub V] {floats : Floats V}

/-! ## The meaning in C -/

/-- What `evaluate` passes to `sigmoid`: each constant is what the compiler reads of what is
    printed. -/
def Ast.printed (print : V → String) (floats : Floats V) (a : Ast V) : V :=
  (a.map fun v => floats.constant (print v).toList).value floats.isZero

/-- A declaration has in C the value it has in the model. -/
theorem eval_toC (hzero : floats.constant "0.0".toList = 0) (r : Rhs V) (hr : r.Prints print)
    (env : Env ℕ V) (env' : Env (List Char) V) (v : V) (henv : ∀ i, env' (cVar i) = env i)
    (h : (r.map fun v => floats.constant (print v).toList).eval floats.isZero env = some v) :
    (r.toC print).eval floats env' = some v := by
  cases r with
  | val u =>
      rw [Rhs.toC, Expr.eval, Expr.declared, if_pos rfl, Expr.value, if_pos (IsFixed.point hr)]
      exact h
  | neg r =>
      obtain ⟨x, hx, hv⟩ := Option.bind_eq_some_iff.1 h
      simp only [Rhs.toC, Expr.eval, Expr.declared, Expr.value, henv, hx]
      exact hv
  | mul l r =>
      obtain ⟨x, hx, h⟩ := Option.bind_eq_some_iff.1 h
      obtain ⟨y, hy, hv⟩ := Option.bind_eq_some_iff.1 h
      simp only [Rhs.toC, Expr.eval, Expr.declared, Expr.value, henv, hx, hy]
      exact hv
  | add l r =>
      obtain ⟨x, hx, h⟩ := Option.bind_eq_some_iff.1 h
      obtain ⟨y, hy, hv⟩ := Option.bind_eq_some_iff.1 h
      simp only [Rhs.toC, Expr.eval, Expr.declared, Expr.value, henv, hx, hy]
      exact hv
  | sub l r =>
      obtain ⟨x, hx, h⟩ := Option.bind_eq_some_iff.1 h
      obtain ⟨y, hy, hv⟩ := Option.bind_eq_some_iff.1 h
      simp only [Rhs.toC, Expr.eval, Expr.declared, Expr.value, henv, hx, hy]
      exact hv
  | div l r =>
      obtain ⟨y, hy, h⟩ := Option.bind_eq_some_iff.1 h
      obtain ⟨x, hx, hv⟩ := Option.bind_eq_some_iff.1 h
      have hv : (if floats.isZero y then 0 else x / y) = v := Option.some.inj hv
      have hpoint : (Expr.number "0.0".toList).value floats env' = some 0 := by
        rw [Expr.value, if_pos (by decide), hzero]
      rw [Expr.eval, if_pos (by simp [Rhs.toC, Expr.declared, henv, hx, hy])]
      simp only [Rhs.toC, Expr.value.eq_5, Expr.value.eq_4, Expr.value.eq_2, hpoint, henv, hx,
        hy, Option.bind_some, Op.apply]
      split_ifs at hv ⊢ with hnull
      · rw [hv]
      · rw [hv]

/-! ## The whole way -/

/-- The code of a tree, run as C. -/
theorem run_cFile (hzero : floats.constant "0.0".toList = 0) (d : Dag V) (a : Ast V)
    (h : d.ast = some a) (hnodup : d.ids.Nodup) (hleaves : ∀ v ∈ a.leaves, IsFixed (print v).toList)
    {code : List (Decl V) × ℕ} (hgen : generate d = .ok code) :
    (∀ x ∈ code.1, x.2.Prints print) ∧
      ∀ {W : Type} (sigmoid : V → W),
        (cFile print code).run floats sigmoid = some (sigmoid (a.printed print floats)) := by
  obtain ⟨reread, hreread⟩ : ∃ f : V → V, f = fun v => floats.constant (print v).toList := ⟨_, rfl⟩
  obtain ⟨p, i, hp, hi, hi', hp'⟩ := reflect_map reread d a h
  obtain ⟨q, j, hq, hj, hcomp⟩ := reflect_computes floats.isZero (d.map reread) _
    (d.ast_map reread a h) (by rwa [d.ids_map])
  obtain rfl := Except.ok.inj (hi'.symm.trans hj)
  obtain rfl := Except.ok.inj (hp'.symm.trans hq)
  obtain ⟨env, hexec, hval, -⟩ := hcomp Env.empty fun i _ => rfl
  have hprints := reflect_prints d a h hleaves p hp
  rw [exec_map_right] at hexec
  obtain ⟨env', hexec', hval', hframe⟩ : ∃ env' : Env (List Char) V,
      exec (Expr.eval floats) (p.map (Prod.map cVar (Rhs.toC print))) Env.empty = some env' ∧
        (∀ i, env' (cVar i) = env i) ∧ ∀ y, (∀ i, cVar i ≠ y) → env' y = none :=
    exec_map cVar_injective p (fun x hx env env' v henv hr =>
      eval_toC hzero x.2 (hprints x hx) env env' v henv (by rwa [hreread] at hr)) (fun _ => rfl) hexec
  obtain rfl : (p, i) = code := by
    simpa [generate, hp, hi, bind, Except.bind, pure, Except.pure] using hgen
  refine ⟨hprints, fun sigmoid => ?_⟩
  have hcallee : env' sigmoidName = none := hframe _ fun k hk => by
    have hhead : some 't' = sigmoidName.head? := by rw [← hk, cVar_eq]; rfl
    exact absurd hhead (by decide)
  have harg : (Expr.var (cVar i)).eval floats env' = some (a.printed print floats) := by
    have hvar : env' (cVar i) = some (a.printed print floats) := by
      rw [hval', hval, hreread]
      rfl
    rw [Expr.eval, Expr.declared, Expr.value, hvar]
    rfl
  show (exec (Expr.eval floats) (p.map (Prod.map cVar (Rhs.toC print))) Env.empty).bind _ = _
  rw [hexec', Option.bind_some, if_pos ⟨rfl, hcallee⟩]
  exact congrArg (Option.map sigmoid) harg

/-- **The compiler is correct, text to text.** A file is written exactly for an expression. Read as
    C, it is a program without undefined behaviour, and its `evaluate` returns `sigmoid` of the value
    of the expression, every constant being read back from what `%f` prints of it. Numbers may be
    any, as long as `0.0` is zero and `%f` prints these as digits with six places. -/
theorem main_correct (value : Numeral → V) (print : V → String) (floats : Floats V)
    (hzero : floats.constant "0.0".toList = 0) (text : PlainText) :
    ((∃ file, Writes value print text file) ↔ ∃ a, IsExpr value text a) ∧
      ∀ file a, Writes value print text file → IsExpr value text a →
        (∀ v ∈ a.leaves, IsFixed (print v).toList) →
        ∃ f, MiniC.read file.toList = some f ∧ ∀ {W : Type} (sigmoid : V → W),
          f.run floats sigmoid = some (sigmoid (a.printed print floats)) := by
  refine ⟨writes_iff text, fun file a h ha hleaves => ?_⟩
  obtain ⟨d, code, hast, hnodup, hgen, rfl⟩ := h.tokens ha
  obtain ⟨hprints, hrun⟩ := run_cFile hzero d a hast hnodup hleaves hgen
  exact ⟨_, read_fileText print code hprints, hrun⟩

/-! ## Exact numbers -/

/-- Rationals for `double`, where no operation rounds. -/
def exact : Floats ℚ := ⟨fun s => (denotes s).getD 0, (· == 0)⟩

theorem isFixed_percentF {v : ℚ} (hv : 0 ≤ v) : IsFixed (percentF v).toList := by
  rw [percentF, String.toList_ofList, toFixed, if_neg (not_lt.2 hv), fixed]
  refine ⟨_, _, rfl, Nat.toDigits_ne_nil, length_lastDigits _ _, fun c hc => ?_⟩
  rcases List.mem_append.1 hc with hc | hc
  · exact Nat.isDigit_of_mem_toDigits (by decide) (by decide) hc
  · exact isDigit_lastDigits 6 _ c hc

theorem constant_percentF {v : ℚ} (hv : 0 ≤ v) :
    exact.constant (percentF v).toList = rounded 6 v := by
  rw [percentF, String.toList_ofList]
  show (denotes _).getD 0 = _
  rw [denotes_toFixed hv, Option.getD_some]

/-- `0.5`. -/
def half : Numeral := ⟨['0'], some ['5'], by simp, by simp⟩

/-- `0.25`. -/
def quarter : Numeral := ⟨['0'], some ['2', '5'], by simp, by simp⟩

/-- `1`. -/
def one : Numeral := ⟨['1'], none, by simp, by simp⟩

def fourText : PlainText := ⟨"1/(0.5-0.25)".toList, by decide, by decide⟩

def fourLexemes : List Lexeme :=
  [.val one, .operator .div, .operator .open_, .val half, .operator .sub, .val quarter,
    .operator .close]

def fourAst : Ast ℚ := .bin .div (.val one.value) (.bin .sub (.val half.value) (.val quarter.value))

theorem cuts_four : Cuts fourText.chars fourLexemes :=
  .val one _ _ _ rfl (.operator .div _ _ _ rfl (.operator .open_ _ _ _ rfl (.val half _ _ _ rfl
    (.operator .sub _ _ _ rfl (.val quarter _ _ _ rfl (.operator .close _ _ _ rfl .nil))))))

theorem derives_numeral (n : Numeral) :
    Derives .unary [Lexeme.token Numeral.value (.val n)] (.val n.value) :=
  .primary _ _ (.val _ rfl)

theorem derives_difference : Derives .expr
    ([.val half, .operator .sub, .val quarter].map (Lexeme.token Numeral.value))
    (.bin .sub (.val half.value) (.val quarter.value)) :=
  .chain .additive [_] [_, _] _ _
    (.chain .multiplicative [_] [] _ _ (derives_numeral half) (.stop _ _))
    (.step .sub _ [_] [] _ _ _ rfl
      (.chain .multiplicative [_] [] _ _ (derives_numeral quarter) (.stop _ _)) (.stop _ _))

theorem isExpr_four : IsExpr Numeral.value fourText fourAst :=
  ⟨fourLexemes, spells_iff.2 cuts_four,
    .chain .additive (fourLexemes.map (Lexeme.token Numeral.value)) [] _ _
    (.chain .multiplicative [_] [_, _, _, _, _, _] _ _ (derives_numeral one)
      (.step .div _ [_, _, _, _, _] [] _ _ _ rfl
        (.primary _ _ (.paren _ _ [_, _, _] _ rfl rfl derives_difference)) (.stop _ _)))
    (.stop _ _)⟩

theorem printed_four : fourAst.printed percentF exact = 4 := by
  simp only [Ast.printed, fourAst, Ast.map, constant_percentF (Numeral.value_nonneg _)]
  decide +kernel

theorem fixed_four : ∀ v ∈ fourAst.leaves, IsFixed (percentF v).toList := by
  intro v hv
  simp only [fourAst, Ast.leaves, List.singleton_append, List.mem_cons, List.not_mem_nil,
    or_false] at hv
  rcases hv with rfl | rfl | rfl <;> exact isFixed_percentF (Numeral.value_nonneg _)

theorem main_correct_four : ∃ file f, Writes Numeral.value percentF fourText file ∧
    MiniC.read file.toList = some f ∧ f.run exact id = some 4 := by
  obtain ⟨hwrites, hruns⟩ :=
    main_correct Numeral.value percentF exact (by decide +kernel) fourText
  obtain ⟨file, hfile⟩ := hwrites.2 ⟨fourAst, isExpr_four⟩
  obtain ⟨f, hread, hrun⟩ := hruns file fourAst hfile isExpr_four fixed_four
  exact ⟨file, f, hfile, hread, by rw [hrun id, printed_four, id]⟩

end CS238P.Calc
