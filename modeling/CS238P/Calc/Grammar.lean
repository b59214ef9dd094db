import CS238P.Calc.Parser
import Mathlib.Data.List.Basic

set_option autoImplicit false

/-! # The grammar of `p1/parser.c`

The grammar in the comments of the source, as derivations of token lists with their abstract syntax
tree: `term = unary {(*|/) unary}` and `expr = term {(+|-) term}` are the two chains (`Level`), and
an iteration `{..}` is the nonterminal `tail`, which carries the operand to its left and so
associates to the left.

`Reach` says where a nonterminal is read: the token lists after which a parser that started on one
nonterminal is about to read another. `DanglingSum` uses it to describe the inputs in which a binary
`+` or `-` is not followed by a term. -/

namespace CS238P.Calc

/-- The binary operators. -/
inductive BinOp where
  | mul | div | add | sub
  deriving DecidableEq, Repr

/-- Abstract syntax. -/
inductive Ast (V : Type) where
  | val (v : V)
  | neg (a : Ast V)
  | bin (op : BinOp) (a b : Ast V)

variable {V : Type}

/-- The values at the leaves, from left to right. -/
def Ast.leaves : Ast V → List V
  | .val v => [v]
  | .neg a => a.leaves
  | .bin _ a b => a.leaves ++ b.leaves

/-! ## Operators and levels -/

/-- The two chains of binary operators: `*` `/` bind tighter than `+` `-`. -/
inductive Level where
  | multiplicative | additive
  deriving DecidableEq, Repr

def Level.ops : Level → TailOps
  | .multiplicative => multiplicativeOps
  | .additive => additiveOps

def BinOp.level : BinOp → Level
  | .mul | .div => .multiplicative
  | .add | .sub => .additive

theorem BinOp.of_multiplicative {op : BinOp} (h : op.level = .multiplicative) :
    op = .mul ∨ op = .div := by
  cases op with
  | mul => exact .inl rfl
  | div => exact .inr rfl
  | add => exact absurd h (by decide)
  | sub => exact absurd h (by decide)

theorem BinOp.of_additive {op : BinOp} (h : op.level = .additive) : op = .add ∨ op = .sub := by
  cases op with
  | mul => exact absurd h (by decide)
  | div => exact absurd h (by decide)
  | add => exact .inl rfl
  | sub => exact .inr rfl

def BinOp.tok : BinOp → LexerOp
  | .mul => .mul
  | .div => .div
  | .add => .add
  | .sub => .sub

def BinOp.dagOp : BinOp → DagOp
  | .mul => .mul
  | .div => .div
  | .add => .add
  | .sub => .sub

/-- The operator of a node, if it is a binary one. -/
def DagOp.binOp : DagOp → Option BinOp
  | .mul => some .mul
  | .div => some .div
  | .add => some .add
  | .sub => some .sub
  | _ => none

/-- The syntax tree a dag stands for: a value has no links, a negation only a right one and a binary
    node both. -/
def Dag.ast : Dag V → Option (Ast V)
  | .node .val _ v .null .null => some (.val v)
  | .node .neg _ _ .null right => right.ast.map .neg
  | .node op _ _ left right =>
      match op.binOp, left.ast, right.ast with
      | some op, some a, some b => some (.bin op a b)
      | _, _, _ => none
  | .null => none

@[simp] theorem Dag.ast_val (id : ℕ) (v : V) :
    (Dag.node .val id v .null .null).ast = some (.val v) := by
  rw [Dag.ast]

@[simp] theorem Dag.ast_neg (id : ℕ) (v : V) (right : Dag V) :
    (Dag.node .neg id v .null right).ast = right.ast.map .neg := by
  rw [Dag.ast]

theorem Dag.ast_bin (op : BinOp) (id : ℕ) (v : V) {left right : Dag V} {a b : Ast V}
    (hl : left.ast = some a) (hr : right.ast = some b) :
    (Dag.node op.dagOp id v left right).ast = some (.bin op a b) := by
  cases op <;> simp [BinOp.dagOp, Dag.ast, hl, hr, DagOp.binOp]

theorem Level.dagOp_eq_some_iff (l : Level) (tok : LexerOp) (d : DagOp) :
    l.ops.dagOp tok = some d ↔ ∃ op : BinOp, op.level = l ∧ op.tok = tok ∧ op.dagOp = d := by
  constructor
  · cases l <;> cases tok <;> intro h <;>
      first
      | (cases h; exact ⟨.mul, rfl, rfl, rfl⟩)
      | (cases h; exact ⟨.div, rfl, rfl, rfl⟩)
      | (cases h; exact ⟨.add, rfl, rfl, rfl⟩)
      | (cases h; exact ⟨.sub, rfl, rfl, rfl⟩)
      | nomatch h
  · rintro ⟨op, rfl, rfl, rfl⟩
    cases op <;> rfl

theorem BinOp.dagOp_tok (op : BinOp) : op.level.ops.dagOp op.tok = some op.dagOp :=
  (Level.dagOp_eq_some_iff _ _ _).2 ⟨op, rfl, rfl, rfl⟩

theorem DagOp.binOp_eq_some {op : DagOp} {o : BinOp} (h : op.binOp = some o) : op = o.dagOp := by
  cases op <;> cases h <;> rfl

/-- The shapes of the dags that stand for a tree. -/
theorem ast_eq_some_cases {op : DagOp} {id : ℕ} {v : V} {left right : Dag V} {a : Ast V}
    (h : (Dag.node op id v left right).ast = some a) :
    (op = .val ∧ left = .null ∧ right = .null ∧ a = .val v) ∨
    (∃ b, op = .neg ∧ left = .null ∧ right.ast = some b ∧ a = .neg b) ∨
    (∃ o b c, op = BinOp.dagOp o ∧ left.ast = some b ∧ right.ast = some c ∧ a = .bin o b c) := by
  rw [Dag.ast.eq_def] at h
  split at h
  · case _ heq =>
      cases heq
      cases h
      exact .inl ⟨rfl, rfl, rfl, rfl⟩
  · case _ heq =>
      cases heq
      obtain ⟨b, hb, rfl⟩ := Option.map_eq_some_iff.1 h
      exact .inr (.inl ⟨b, rfl, rfl, hb, rfl⟩)
  · case _ heq =>
      cases heq
      split at h
      · case _ o b c ho hb hc =>
          cases h
          exact .inr (.inr ⟨o, b, c, DagOp.binOp_eq_some ho, hb, hc, rfl⟩)
      · cases h
  · cases h

/-- Induction on a dag that stands for a tree. -/
@[elab_as_elim]
theorem Dag.ast_induction {motive : Dag V → Ast V → Prop}
    (val : ∀ id v, motive (.node .val id v .null .null) (.val v))
    (neg : ∀ id v right b, right.ast = some b → motive right b →
      motive (.node .neg id v .null right) (.neg b))
    (bin : ∀ op id v left right b c, left.ast = some b → right.ast = some c → motive left b →
      motive right c → motive (.node (BinOp.dagOp op) id v left right) (.bin op b c))
    (d : Dag V) (a : Ast V) (h : d.ast = some a) : motive d a := by
  induction d generalizing a with
  | null => exact absurd h (by simp [Dag.ast])
  | node op id v left right ihl ihr =>
      rcases ast_eq_some_cases h with ⟨rfl, rfl, rfl, rfl⟩ | ⟨b, rfl, rfl, hb, rfl⟩ |
        ⟨o, b, c, rfl, hb, hc, rfl⟩
      · exact val id v
      · exact neg id v right b hb (ihr b hb)
      · exact bin o id v left right b c hb hc (ihl b hb) (ihr c hc)

/-- The ids of a dag's nodes, a node's before those of its links. -/
def Dag.ids : Dag V → List ℕ
  | .null => []
  | .node _ id _ left right => id :: (left.ids ++ right.ids)

/-- The ids of `d` are distinct, above `lo` and at most `hi`. -/
def Dag.Fresh (lo hi : ℕ) (d : Dag V) : Prop := d.ids.Nodup ∧ ∀ i ∈ d.ids, lo < i ∧ i ≤ hi

/-! ## Derivations -/

/-- The nonterminals. `tail l left` is the iteration of level `l` after the operand `left`. -/
inductive NT (V : Type) where
  | primary
  | unary
  | chain (l : Level)
  | tail (l : Level) (left : Ast V)

/-- `expr_multiplicative`. -/
abbrev NT.term : NT V := .chain .multiplicative

/-- `expr`, that is `expr_additive`. -/
abbrev NT.expr : NT V := .chain .additive

/-- What a chain is a chain of. -/
def Level.operand : Level → NT V
  | .multiplicative => .unary
  | .additive => .term

/-- The token lists a nonterminal derives, with their syntax trees. -/
inductive Derives : NT V → List (LexerToken V) → Ast V → Prop where
  | val (t : LexerToken V) (ht : t.op = .val) : Derives .primary [t] (.val t.val)
  | paren (t u : LexerToken V) (ts : List (LexerToken V)) (a : Ast V) (ht : t.op = .open_)
      (hu : u.op = .close) (h : Derives .expr ts a) : Derives .primary (t :: (ts ++ [u])) a
  | plus (t : LexerToken V) (ts : List (LexerToken V)) (a : Ast V) (ht : t.op = .add)
      (h : Derives .unary ts a) : Derives .unary (t :: ts) a
  | minus (t : LexerToken V) (ts : List (LexerToken V)) (a : Ast V) (ht : t.op = .sub)
      (h : Derives .unary ts a) : Derives .unary (t :: ts) (.neg a)
  | primary (ts : List (LexerToken V)) (a : Ast V) (h : Derives .primary ts a) :
      Derives .unary ts a
  | chain (l : Level) (ts us : List (LexerToken V)) (a b : Ast V) (h : Derives l.operand ts a)
      (ht : Derives (.tail l a) us b) : Derives (.chain l) (ts ++ us) b
  | stop (l : Level) (a : Ast V) : Derives (.tail l a) [] a
  | step (op : BinOp) (t : LexerToken V) (ts us : List (LexerToken V)) (a b c : Ast V)
      (ht : t.op = op.tok) (h : Derives op.level.operand ts b)
      (hr : Derives (.tail op.level (.bin op a b)) us c) :
      Derives (.tail op.level a) (t :: (ts ++ us)) c

/-- The values of the VAL tokens, in order. -/
def vals (ts : List (LexerToken V)) : List V := (ts.filter (fun t => t.op = .val)).map (·.val)

theorem vals_append (ts us : List (LexerToken V)) : vals (ts ++ us) = vals ts ++ vals us := by
  simp [vals]

theorem vals_cons_of_ne (t : LexerToken V) (ts : List (LexerToken V)) (h : t.op ≠ .val) :
    vals (t :: ts) = vals ts := by
  simp [vals, h]

/-- The leaves a nonterminal starts from: none, but for the left operand of a tail. -/
def NT.leaves : NT V → List V
  | .tail _ left => left.leaves
  | _ => []

theorem Level.leaves_operand (l : Level) : (l.operand : NT V).leaves = [] := by cases l <;> rfl

/-- **No operand is lost or duplicated**: the leaves are the VAL tokens, in order. -/
theorem Derives.leaves {nt : NT V} {ts : List (LexerToken V)} {a : Ast V} (h : Derives nt ts a) :
    a.leaves = nt.leaves ++ vals ts := by
  induction h with
  | val t ht => simp [Ast.leaves, NT.leaves, vals, ht]
  | paren t u ts a ht hu h ih =>
      rw [ih, vals_cons_of_ne t _ (by simp [ht]), vals_append, vals_cons_of_ne u _ (by simp [hu])]
      simp [NT.leaves, vals]
  | plus t ts a ht h ih => rw [ih, vals_cons_of_ne t _ (by simp [ht])]
  | minus t ts a ht h ih => rw [Ast.leaves, ih, vals_cons_of_ne t _ (by simp [ht])]
  | primary ts a h ih => exact ih
  | chain l ts us a b h ht ih iht =>
      rw [iht, NT.leaves, ih, Level.leaves_operand, vals_append]
      simp [NT.leaves]
  | stop l a => simp [NT.leaves, vals]
  | step op t ts us a b c ht h hr ih ihr =>
      rw [ihr, NT.leaves, Ast.leaves, ih, Level.leaves_operand,
        vals_cons_of_ne t _ (by rw [ht]; cases op <;> decide), vals_append]
      simp [NT.leaves, List.append_assoc]

/-- A tail can be extended by one more operator and operand. -/
theorem Derives.tail_snoc {l : Level} {left : Ast V} {us : List (LexerToken V)} {a : Ast V}
    (h : Derives (.tail l left) us a) (op : BinOp) (hop : op.level = l) (t : LexerToken V)
    (ht : t.op = op.tok) {ys : List (LexerToken V)} {b : Ast V} (hy : Derives l.operand ys b) :
    Derives (.tail l left) (us ++ t :: ys) (.bin op a b) := by
  generalize hnt : NT.tail l left = nt at h
  induction h generalizing left with
  | stop l' a' =>
      obtain ⟨rfl, rfl⟩ : l = l' ∧ left = a' := by simpa using hnt
      subst hop
      have := Derives.step op t ys [] left b (.bin op left b) ht hy (.stop _ _)
      simpa using this
  | step op' t' ts us a' b' c' ht' h' hr' ih ihr =>
      obtain ⟨rfl, rfl⟩ : l = op'.level ∧ left = a' := by simpa using hnt
      have := Derives.step op' t' ts _ left b' _ ht' h' (ihr rfl)
      simpa [List.append_assoc] using this
  | _ => exact absurd hnt (by simp)

/-- A chain can be extended by one more operator and operand. -/
theorem Derives.chain_snoc {l : Level} {es : List (LexerToken V)} {a : Ast V}
    (h : Derives (.chain l) es a) (op : BinOp) (hop : op.level = l) (t : LexerToken V)
    (ht : t.op = op.tok) {ys : List (LexerToken V)} {b : Ast V} (hy : Derives l.operand ys b) :
    Derives (.chain l) (es ++ t :: ys) (.bin op a b) := by
  cases h with
  | chain _ ts us a' _ h htail =>
      rw [List.append_assoc]
      exact .chain l ts _ a' _ h (htail.tail_snoc op hop t ht hy)

/-- An operand alone is a chain. -/
theorem Derives.chain_of_operand {l : Level} {ts : List (LexerToken V)} {a : Ast V}
    (h : Derives l.operand ts a) : Derives (.chain l) ts a := by
  simpa using Derives.chain l ts [] a a h (.stop l a)

/-! ## Lookahead -/

/-- The operator of the current token, `LEXER_OP_` at the end. -/
def headOp : List (LexerToken V) → LexerOp
  | [] => .op_
  | t :: _ => t.op

/-- The next token does not continue a chain of level `l`. -/
def Stops (l : Level) (r : List (LexerToken V)) : Prop := l.ops.dagOp (headOp r) = none

/-- What must follow a nonterminal for the parser to stop there: no operator that would continue
    it. -/
def Follow : NT V → List (LexerToken V) → Prop
  | .primary, _ => True
  | .unary, _ => True
  | .chain .multiplicative, r | .tail .multiplicative _, r => Stops .multiplicative r
  | .chain .additive, r | .tail .additive _, r => Stops .multiplicative r ∧ Stops .additive r

theorem stops_of_level_ne {l : Level} (op : BinOp) (h : op.level ≠ l) (t : LexerToken V)
    (r : List (LexerToken V)) (ht : t.op = op.tok) : Stops l (t :: r) := by
  unfold Stops
  rw [headOp, ht]
  cases op <;> cases l <;> first | rfl | exact absurd rfl h

/-- A token that continues a chain is an operator of its level. -/
theorem exists_op_of_not_stops {l : Level} {r : List (LexerToken V)} (h : ¬ Stops l r) :
    ∃ op : BinOp, ∃ t us, op.level = l ∧ r = t :: us ∧ t.op = op.tok := by
  obtain ⟨d, hd⟩ := Option.ne_none_iff_exists'.1 h
  obtain ⟨op, hl, htok, -⟩ := (Level.dagOp_eq_some_iff l _ d).1 hd
  cases r with
  | nil => cases op <;> exact absurd htok LexerOp.noConfusion
  | cons t us => exact ⟨op, t, us, hl, rfl, htok.symm⟩

theorem Follow.stops {l : Level} {r : List (LexerToken V)} (h : Follow (.chain l) r) :
    Stops l r := by
  cases l with
  | multiplicative => exact h
  | additive => exact h.2

theorem follow_chain_iff (l : Level) (r : List (LexerToken V)) :
    Follow (.chain l) r ↔ Follow l.operand r ∧ Stops l r := by
  cases l with
  | multiplicative => exact ⟨fun h => ⟨trivial, h⟩, fun h => h.2⟩
  | additive => exact Iff.rfl

theorem Follow.operand {l : Level} {r : List (LexerToken V)} (h : Follow (.chain l) r) :
    Follow l.operand r :=
  ((follow_chain_iff l r).1 h).1

theorem follow_tail_iff (l : Level) (left : Ast V) (r : List (LexerToken V)) :
    Follow (.tail l left) r ↔ Follow (.chain l) r := by
  cases l <;> exact Iff.rfl

/-- An operator of level `l` may follow an operand of that level. -/
theorem follow_operand_of_op (op : BinOp) (t : LexerToken V) (r : List (LexerToken V))
    (ht : t.op = op.tok) : Follow op.level.operand (t :: r) := by
  cases op with
  | mul => trivial
  | div => trivial
  | add => exact stops_of_level_ne .add (by decide) t r ht
  | sub => exact stops_of_level_ne .sub (by decide) t r ht

/-! ## Where a nonterminal is read -/

/-- `Reach nt q nt'`: having read `q`, a parser that started on `nt` is about to read `nt'`. -/
inductive Reach (nt : NT V) : List (LexerToken V) → NT V → Prop where
  | refl : Reach nt [] nt
  | first (l : Level) (q : List (LexerToken V)) (h : Reach nt q (.chain l)) : Reach nt q l.operand
  | next (op : BinOp) (q es : List (LexerToken V)) (a : Ast V) (t : LexerToken V)
      (h : Reach nt q (.chain op.level)) (he : Derives (.chain op.level) es a)
      (ht : t.op = op.tok) : Reach nt (q ++ es ++ [t]) op.level.operand
  | sign (q : List (LexerToken V)) (t : LexerToken V) (h : Reach nt q .unary)
      (ht : t.op = .add ∨ t.op = .sub) : Reach nt (q ++ [t]) .unary
  | paren (q : List (LexerToken V)) (t : LexerToken V) (h : Reach nt q .unary)
      (ht : t.op = .open_) : Reach nt (q ++ [t]) .expr

theorem Reach.trans {nt nt' nt'' : NT V} {q q' : List (LexerToken V)} (h : Reach nt q nt')
    (h' : Reach nt' q' nt'') : Reach nt (q ++ q') nt'' := by
  induction h' with
  | refl => simpa using h
  | first l q' _ ih => exact .first l _ ih
  | next op q' es a t _ he ht ih =>
      rw [← List.append_assoc, ← List.append_assoc]
      exact .next op _ es a t ih he ht
  | sign q' t _ ht ih =>
      rw [← List.append_assoc]
      exact .sign _ t ih ht
  | paren q' t _ ht ih =>
      rw [← List.append_assoc]
      exact .paren _ t ih ht

/-- A term can be read here: some prefix is a term, and no `*` or `/` follows it. -/
def TermAt (r : List (LexerToken V)) : Prop :=
  ∃ ts us a, r = ts ++ us ∧ Derives .term ts a ∧ Stops .multiplicative us

/-- Reading `nt` meets a `+` or `-` that stands after a complete left operand but is not followed
    by a term. -/
def DanglingFrom (nt : NT V) (r : List (LexerToken V)) : Prop :=
  ∃ q es t us, r = q ++ es ++ t :: us ∧ Reach nt q .expr ∧ (∃ a, Derives .expr es a) ∧
    (t.op = .add ∨ t.op = .sub) ∧ ¬ TermAt us

/-- A binary `+` or `-` of the input is not followed by a term. -/
def DanglingSum (r : List (LexerToken V)) : Prop := DanglingFrom .expr r

theorem DanglingFrom.of_reach {nt nt' : NT V} {q r : List (LexerToken V)} (h : Reach nt q nt')
    (hd : DanglingFrom nt' r) : DanglingFrom nt (q ++ r) := by
  obtain ⟨q', es, t, us, rfl, hreach, he, ht, hnot⟩ := hd
  exact ⟨q ++ q', es, t, us, by simp [List.append_assoc], h.trans hreach, he, ht, hnot⟩

end CS238P.Calc
