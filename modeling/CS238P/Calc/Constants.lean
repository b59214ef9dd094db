import CS238P.Calc.Generate
import CS238P.Calc.Tokenize
import Mathlib.Data.List.Forall2

set_option autoImplicit false

/-! # Constants through the compiler

A numeral of the text is read by `strtod`, copied into a node by `expr_primary` and printed with `%f`
by `reflect`. Here `strtod` is exact and `%f` rounds to six places; `constants` are the right-hand
sides that are printed for VAL nodes.

They come in the order of the numerals of the text, one for each. A numeral is printed as the number
it denotes only if it has no digit but zeros beyond the sixth place. -/

namespace CS238P.Calc

open Decimal

/-- `main` writes this code for the text: `lexer_open`, `parser_open`, `generate`. -/
def Compiles {V : Type} [Zero V] (value : Numeral → V) (text : List Char) (code : List (Decl V)) :
    Prop :=
  ∃ (state : LexerState V) (lexer : Lexer V) (fuel : ℕ) (d : Dag V) (p : Parser) (id : ℕ),
    tokenize value .init text = .ok state ∧ Holds state lexer.tokens ∧
      top lexer fuel Parser.init = .ok d p ∧ d ≠ .null ∧ generate d = .ok (code, id)

/-- `%f`. -/
def percentF (v : ℚ) : String := String.ofList (toFixed 6 v)

/-- What is printed for the VAL nodes. -/
def constants (code : List (Decl ℚ)) : List (List Char) :=
  code.filterMap fun d =>
    match d.2 with
    | .val v => some ((Rhs.val v).text percentF).toList
    | _ => none

/-- The numerals of a text. -/
def numerals (ls : List Lexeme) : List Numeral :=
  ls.filterMap fun l =>
    match l with
    | .val n => some n
    | .operator _ => none

theorem constants_append (p q : List (Decl ℚ)) :
    constants (p ++ q) = constants p ++ constants q := List.filterMap_append

theorem constants_val (id : ℕ) (v : ℚ) : constants [(id, .val v)] = [toFixed 6 v] := by
  simp [constants, Rhs.text, percentF]

theorem constants_neg (id r : ℕ) : constants [(id, .neg r)] = [] := rfl

theorem constants_rhs (id : ℕ) (op : BinOp) (l r : ℕ) : constants [(id, op.rhs l r)] = [] := by
  cases op <;> rfl

/-- The code prints the leaves of the tree, from left to right. -/
theorem reflect_constants (d : Dag ℚ) (a : Ast ℚ) (h : d.ast = some a) :
    ∃ p id, reflect d = .ok p ∧ d.getId = .ok id ∧ constants p = a.leaves.map (toFixed 6) := by
  refine Dag.ast_induction (motive := fun d a => ∃ p id, reflect d = .ok p ∧ d.getId = .ok id ∧
    constants p = a.leaves.map (toFixed 6)) ?_ ?_ ?_ d a h
  · intro id v
    exact ⟨_, id, reflect_val id v, rfl, constants_val id v⟩
  · intro id v right b _ ih
    obtain ⟨p, r, hp, hr, hconst⟩ := ih
    refine ⟨_, id, reflect_neg id v hp hr, rfl, ?_⟩
    rw [constants_append, constants_neg, List.append_nil, hconst, Ast.leaves]
  · intro op id v left right b c _ _ ihl ihr
    obtain ⟨p, l, hp, hl, hconstl⟩ := ihl
    obtain ⟨q, r, hq, hr, hconstr⟩ := ihr
    refine ⟨_, id, reflect_bin op id v hp hl hq hr, rfl, ?_⟩
    rw [constants_append, constants_rhs, List.append_nil, constants_append, hconstl, hconstr,
      Ast.leaves, List.map_append]

/-- The VAL tokens of a text have the values of its numerals. -/
theorem Cuts.vals {V : Type} [Zero V] (value : Numeral → V) {s : List Char} {ls : List Lexeme}
    (h : Cuts s ls) : vals (ls.map (Lexeme.token value)) = (numerals ls).map value := by
  induction h with
  | nil => rfl
  | space c s ls hc h ih => exact ih
  | operator op c s ls hc h ih =>
      have hop : op ≠ .val := by
        rintro rfl
        cases hc
      rw [List.map_cons, vals_cons_of_ne _ _ hop, ih]
      rfl
  | val n s e ls hread h ih =>
      rw [List.map_cons, ← List.singleton_append, vals_append, ih]
      rfl

/-- The tokens of a text are known from its lexemes. -/
theorem Holds.unique {V : Type} {state : LexerState V} {ts us : List (LexerToken V)}
    (hts : Holds state ts) (hus : Holds state us) : ts = us := by
  have hlen : ts.length = us.length := hts.size.symm.trans hus.size
  have hmap : ts.map some = us.map some := by rw [← hts.tokens, ← hus.tokens, hlen]
  exact List.map_injective_iff.2 (Option.some_injective _) hmap

/-- What is printed are the values of the numerals, rounded. -/
theorem Compiles.constants {text : List Char} {ls : List Lexeme} {code : List (Decl ℚ)}
    (h : Compiles Numeral.value text code) (hcuts : Cuts text ls) :
    constants code = (numerals ls).map fun n => toFixed 6 n.value := by
  obtain ⟨state, lexer, fuel, d, p, id, htok, hstate, htop, hd, hgen⟩ := h
  obtain ⟨state', htok', hstate'⟩ := hcuts.tokenize Numeral.value [] .init holds_init
  obtain rfl : state = state' := by
    rw [htok] at htok'
    cases htok'
    rfl
  have htokens : lexer.tokens = ls.map (Lexeme.token Numeral.value) := hstate.unique hstate'
  obtain ⟨⟨a, hder, hast⟩, -⟩ := top_sound htop hd
  obtain ⟨code', id', hreflect, hid, hconst⟩ := reflect_constants d a hast
  have hcode : code = code' := by
    simp [generate, hreflect, hid, bind, Except.bind, pure, Except.pure] at hgen
    exact hgen.1.symm
  have hleaves : a.leaves = (numerals ls).map Numeral.value := by
    rw [hder.leaves, htokens, hcuts.vals]
    rfl
  rw [hcode, hconst, hleaves, List.map_map]
  rfl

theorem Compiles.exists_cuts {V : Type} [Zero V] {value : Numeral → V} {text : List Char}
    {code : List (Decl V)} (h : Compiles value text code) : ∃ ls, Cuts text ls := by
  obtain ⟨state, -, -, -, -, -, htok, -⟩ := h
  exact Calc.exists_cuts htok

/-- **What `%f` keeps**: each numeral of a text that compiles is printed as the number it denotes
    exactly when it has only zeros beyond the sixth place. -/
theorem constants_kept_iff {text : List Char} {code : List (Decl ℚ)}
    (h : Compiles Numeral.value text code) :
    (∃ ls, Cuts text ls) ∧ ∀ ls, Cuts text ls →
      List.Forall₂ (fun s n => denotes s = some n.value ↔ ∀ c ∈ n.places.drop 6, c = '0')
        (constants code) (numerals ls) := by
  refine ⟨h.exists_cuts, fun ls hcuts => ?_⟩
  rw [h.constants hcuts, List.forall₂_map_left_iff]
  exact List.forall₂_same.2 fun n _ => denotes_toFixed_iff 6 n

/-! ## A numeral alone -/

theorem cuts_text (n : Numeral) : Cuts n.text [.val n] := by
  have hread := read_text n (r := []) (by simp) (by simp)
  rw [List.append_nil] at hread
  exact .val n _ [] [] hread .nil

theorem compiles_text {V : Type} [Zero V] (value : Numeral → V) (n : Numeral) :
    Compiles value n.text [(1, .val (value n))] := by
  obtain ⟨state, htok, hstate⟩ := (cuts_text n).tokenize value [] .init holds_init
  exact ⟨state, ⟨[⟨.val, value n⟩], by simp⟩, 10, .node .val 1 (value n) .null .null,
    ⟨1, false, 1, []⟩, 1, htok, hstate, by rfl, by simp, rfl⟩

/-- `0.0000001`. -/
def tiny : Numeral :=
  ⟨['0'], some ['0', '0', '0', '0', '0', '0', '1'], by simp, by simp⟩

theorem constants_kept_iff_tiny :
    (∃ ls, Cuts tiny.text ls) ∧ ∀ ls, Cuts tiny.text ls →
      List.Forall₂ (fun s n => denotes s = some n.value ↔ ∀ c ∈ n.places.drop 6, c = '0')
        (constants [(1, .val tiny.value)]) (numerals ls) :=
  constants_kept_iff (compiles_text Numeral.value tiny)

/-- `0.0000001` is printed as `0.000000`. -/
theorem tiny_not_kept : ¬ ∀ text ls code, Cuts text ls → Compiles Numeral.value text code →
    List.Forall₂ (fun s n => denotes s = some (Numeral.value n)) (constants code)
      (numerals ls) := by
  intro h
  have hall := h _ _ _ (cuts_text tiny) (compiles_text Numeral.value tiny)
  rw [constants_val] at hall
  have hkept : denotes (toFixed 6 tiny.value) = some tiny.value := (List.forall₂_cons.1 hall).1
  have hzero := (denotes_toFixed_iff 6 tiny).1 hkept '1' (by decide)
  exact absurd hzero (by decide)

end CS238P.Calc
