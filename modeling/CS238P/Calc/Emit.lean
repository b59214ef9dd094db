import CS238P.Calc.Generate
import CS238P.Library.MiniC

set_option autoImplicit false

/-! # The file read as C

`main` writes `out.c` and has it compiled and called. Here the text of the file is read back by the
rules of C (`MiniC`), whatever a `double` is, as long as `%f` prints each constant as digits with six
places. -/

namespace CS238P.Calc

open StraightLine MiniC

variable {V : Type} (print : V → String)

/-- What `%f` prints of a number that is finite and not negative. -/
def IsFixed (s : List Char) : Prop :=
  ∃ w p, s = w ++ '.' :: p ∧ w ≠ [] ∧ p.length = 6 ∧ ∀ c ∈ w ++ p, c.isDigit

/-- The constant, if there is one, is printed so. -/
def Rhs.Prints : Rhs V → Prop
  | .val v => IsFixed (print v).toList
  | _ => True

/-! ## What a declaration is in C -/

/-- `tN`. -/
def cVar (id : ℕ) : List Char := (var id).toList

def Rhs.toC : Rhs V → Expr
  | .val v => .number (print v).toList
  | .neg r => .neg (.var (cVar r))
  | .mul l r => .bin .mul (.var (cVar l)) (.var (cVar r))
  | .div l r => .cond (.var (cVar r)) (.bin .div (.var (cVar l)) (.var (cVar r)))
      (.number "0.0".toList)
  | .add l r => .bin .add (.var (cVar l)) (.var (cVar r))
  | .sub l r => .bin .sub (.var (cVar l)) (.var (cVar r))

def Rhs.tokens : Rhs V → List Token
  | .val v => [.number (print v).toList]
  | .neg r => [.punct '-', .word (cVar r)]
  | .mul l r => [.word (cVar l), .punct '*', .word (cVar r)]
  | .div l r => [.word (cVar r), .punct '?', .punct '(', .word (cVar l), .punct '/',
      .word (cVar r), .punct ')', .punct ':', .number "0.0".toList]
  | .add l r => [.word (cVar l), .punct '+', .word (cVar r)]
  | .sub l r => [.word (cVar l), .punct '-', .word (cVar r)]

def Decl.tokens (d : Decl V) : List Token :=
  .word double :: .word (cVar d.1) :: .punct '=' :: (d.2.tokens print ++ [.punct ';'])

/-! ## Names and numbers -/

theorem cVar_eq (id : ℕ) : cVar id = 't' :: Nat.toDigits 10 id := by simp [cVar, var]

theorem cVar_injective : Function.Injective cVar := by
  intro a b h
  rw [cVar_eq, cVar_eq, List.cons.injEq] at h
  rw [← Nat.ofDigitChars_ten_toDigits (n := a), h.2, Nat.ofDigitChars_ten_toDigits]

theorem cVar_not_mem_keywords (id : ℕ) : cVar id ∉ keywords := by
  have hhead : ∀ w ∈ keywords, w.head? ≠ some 't' := by decide
  intro h
  exact hhead _ h (by rw [cVar_eq]; rfl)

theorem isWord_cVar (id : ℕ) : isWord (cVar id) := by
  rw [cVar_eq, isWord, Bool.and_eq_true, List.all_eq_true]
  refine ⟨fun c hc => ?_, rfl⟩
  rcases List.mem_cons.1 hc with rfl | hc
  · decide
  · have hdigit : c.isDigit := Nat.isDigit_of_mem_toDigits (by decide) (by decide) hc
    simp [isWordChar, Char.isAlphanum, hdigit]

theorem IsFixed.point {s : List Char} (h : IsFixed s) : '.' ∈ s := by
  obtain ⟨w, p, rfl, -⟩ := h
  exact List.mem_append_right _ List.mem_cons_self

theorem IsFixed.isNumber {s : List Char} (h : IsFixed s) : isNumber s := by
  obtain ⟨w, p, rfl, hne, -, hdigit⟩ := h
  obtain ⟨c, w, rfl⟩ := List.exists_cons_of_ne_nil hne
  rw [MiniC.isNumber, Bool.and_eq_true, List.all_eq_true]
  constructor
  · intro d hd
    by_cases hpoint : d = '.'
    · subst hpoint
      decide
    · have hd : d.isDigit := hdigit d (by simpa [hpoint] using hd)
      simp [isNumberChar, isWordChar, Char.isAlphanum, hd]
  · rw [List.cons_append, List.head?_cons, Option.any_some]
    exact hdigit c (by simp)

/-! ## The tokens of the text -/

section Lexes

variable {s : List Char} {ts : List Token}

theorem lexes_cVar (id : ℕ) {c : Char} (hc : ¬ isWordChar c) (h : Lexes (c :: s) ts) :
    Lexes (cVar id ++ c :: s) (.word (cVar id) :: ts) :=
  h.word_cons (isWord_cVar id) hc

/-- A name with a blank behind it. -/
theorem lexes_cVar_space (id : ℕ) (h : Lexes s ts) :
    Lexes (cVar id ++ ' ' :: s) (.word (cVar id) :: ts) :=
  lexes_cVar id (by decide) (h.space (by decide))

/-- `tL o tR;`. -/
theorem lexes_infix (l r : ℕ) {c : Char} (hc : c ∈ punctuators) (hspace : joins c ' ' = false)
    (h : Lexes (';' :: s) ts) :
    Lexes (cVar l ++ ' ' :: c :: ' ' :: (cVar r ++ ';' :: s))
      (.word (cVar l) :: .punct c :: .word (cVar r) :: ts) := by
  have hr := lexes_cVar r (by decide) h
  exact lexes_cVar_space l ((hr.space (by decide)).punct_cons hc hspace)

theorem lexes_rhs (r : Rhs V) (hr : r.Prints print) (h : Lexes (';' :: s) ts) :
    Lexes ((r.text print).toList ++ ';' :: s) (r.tokens print ++ ts) := by
  cases r with
  | val v => exact h.number_cons (IsFixed.isNumber hr) (by decide)
  | neg r =>
      have htext : (Rhs.text print (.neg r)).toList ++ ';' :: s =
          '-' :: ' ' :: (cVar r ++ ';' :: s) := by simp [Rhs.text, cVar]
      rw [htext]
      exact ((lexes_cVar r (by decide) h).space (by decide)).punct_cons (by decide) (by decide)
  | mul l r =>
      have hinfix := lexes_infix l r (c := '*') (by decide) (by decide) h
      simpa [Rhs.text, Rhs.tokens, cVar] using hinfix
  | add l r =>
      have hinfix := lexes_infix l r (c := '+') (by decide) (by decide) h
      simpa [Rhs.text, Rhs.tokens, cVar] using hinfix
  | sub l r =>
      have hinfix := lexes_infix l r (c := '-') (by decide) (by decide) h
      simpa [Rhs.text, Rhs.tokens, cVar] using hinfix
  | div l r =>
      have htext : (Rhs.text print (.div l r)).toList ++ ';' :: s =
          cVar r ++ ' ' :: '?' :: ' ' :: '(' :: (cVar l ++ ' ' :: '/' :: ' ' ::
            (cVar r ++ ')' :: ' ' :: ':' :: ' ' :: ("0.0".toList ++ ';' :: s))) := by
        simp only [Rhs.text, String.toList_append, List.append_assoc, -String.reduceToList]
        rfl
      rw [htext]
      -- the tokens from the right end on
      have hzero : Lexes ("0.0".toList ++ ';' :: s) (.number "0.0".toList :: ts) :=
        h.number_cons (by decide) (by decide)
      have hcolon := (hzero.space (c := ' ') (by decide)).punct_cons (c := ':') (by decide)
        (by decide)
      have hclose := (hcolon.space (c := ' ') (by decide)).punct_cons (c := ')') (by decide)
        (by decide)
      have hslash := ((lexes_cVar r (by decide) hclose).space (c := ' ') (by decide)).punct_cons
        (c := '/') (by decide) (by decide)
      have hopen := (lexes_cVar_space l hslash).punct_word (c := '(') (by decide) (isWord_cVar l)
      have hquestion := (hopen.space (c := ' ') (by decide)).punct_cons (c := '?') (by decide)
        (by decide)
      exact lexes_cVar_space r hquestion

theorem lexes_decl (d : Decl V) (hd : d.2.Prints print) (h : Lexes s ts) :
    Lexes ((Decl.text print d).toList ++ s) (Decl.tokens print d ++ ts) := by
  obtain ⟨id, r⟩ := d
  have htext : (Decl.text print (id, r)).toList ++ s =
      double ++ ' ' :: (cVar id ++ ' ' :: '=' :: ' ' ::
        ((r.text print).toList ++ ';' :: '\n' :: s)) := by
    simp only [Decl.text, String.toList_append, List.append_assoc, -String.reduceToList]
    rfl
  have hend : Lexes (';' :: '\n' :: s) (.punct ';' :: ts) :=
    (h.space (c := '\n') (by decide)).punct_cons (by decide) (by decide)
  have hrhs := ((lexes_rhs print r hd hend).space (c := ' ') (by decide)).punct_cons (c := '=') (by decide)
    (by decide)
  have hdouble := ((lexes_cVar_space id hrhs).space (c := ' ') (by decide)).word_cons (w := double)
    (by decide) (by decide)
  rw [htext]
  simpa [Decl.tokens] using hdouble

theorem lexes_decls (ds : List (Decl V)) (hds : ∀ d ∈ ds, d.2.Prints print) (h : Lexes s ts) :
    Lexes ((String.join (ds.map (Decl.text print))).toList ++ s)
      (ds.flatMap (Decl.tokens print) ++ ts) := by
  induction ds with
  | nil => simpa using h
  | cons d ds ih =>
      obtain ⟨hd, hds⟩ := List.forall_mem_cons.1 hds
      have hlex := lexes_decl print d hd (ih hds)
      simpa [String.join_cons] using hlex

end Lexes

/-! ## The text of the file -/

/-- The names of the two functions and of the parameter. -/
def sigmoidName : List Char := "sigmoid".toList

def evaluateName : List Char := "evaluate".toList

def paramName : List Char := "x".toList

def protoTokens : List Token :=
  [.word double, .word sigmoidName, .punct '(', .word double, .word paramName, .punct ')',
    .punct ';']

def headTokens : List Token :=
  [.word double, .word evaluateName, .punct '(', .word void, .punct ')', .punct '\x7b']

def returnTokens (id : ℕ) : List Token :=
  [.word return_, .word sigmoidName, .punct '(', .word (cVar id), .punct ')', .punct ';',
    .punct '\x7d']

/-- The tokens of the file. -/
def fileTokens (code : List (Decl V) × ℕ) : List Token :=
  protoTokens ++ (headTokens ++ (code.1.flatMap (Decl.tokens print) ++ returnTokens code.2))

section Lexes

variable {s : List Char} {ts : List Token}

theorem isWord_sigmoidName : isWord sigmoidName := by decide

theorem lexes_proto (h : Lexes s ts) :
    Lexes ("double sigmoid(double x);\n".toList ++ s) (protoTokens ++ ts) := by
  have htext : "double sigmoid(double x);\n".toList ++ s = double ++ ' ' :: (sigmoidName ++ '(' ::
      (double ++ ' ' :: (paramName ++ ')' :: ';' :: '\n' :: s))) := rfl
  have hend := ((h.space (c := '\n') (by decide)).punct_cons (c := ';') (by decide)
    (by decide)).punct_cons (c := ')') (by decide) (by decide)
  have hparam := (hend.word_cons (w := paramName) (by decide) (by decide)).space (c := ' ')
    (by decide)
  have hopen := (hparam.word_cons (w := double) (by decide) (by decide)).punct_word (c := '(')
    (by decide) (by decide)
  have hname := (hopen.word_cons isWord_sigmoidName (by decide)).space (c := ' ') (by decide)
  rw [htext]
  exact hname.word_cons (by decide) (by decide)

theorem lexes_head (h : Lexes s ts) :
    Lexes ("double evaluate(void) \x7b\n".toList ++ s) (headTokens ++ ts) := by
  have htext : "double evaluate(void) \x7b\n".toList ++ s = double ++ ' ' :: (evaluateName ++
      '(' :: (void ++ ')' :: ' ' :: '\x7b' :: '\n' :: s)) := rfl
  have hend := (((h.space (c := '\n') (by decide)).punct_cons (c := '\x7b') (by decide)
    (by decide)).space (c := ' ') (by decide)).punct_cons (c := ')') (by decide) (by decide)
  have hvoid := (hend.word_cons (w := void) (by decide) (by decide)).punct_word (c := '(')
    (by decide) (by decide)
  have hname := (hvoid.word_cons (w := evaluateName) (by decide) (by decide)).space (c := ' ')
    (by decide)
  rw [htext]
  exact hname.word_cons (by decide) (by decide)

theorem lexes_return (id : ℕ) :
    Lexes ("return sigmoid(".toList ++ ((var id).toList ++ ");\n\x7d".toList))
      (returnTokens id) := by
  have htext (r : List Char) : "return sigmoid(".toList ++ (r ++ ");\n\x7d".toList) =
      return_ ++ ' ' :: (sigmoidName ++ '(' :: (r ++ [')', ';', '\n', '\x7d'])) := rfl
  have hbrace : Lexes ['\x7d'] [.punct '\x7d'] := lexes_nil.punct (by decide) (by simp)
  have hend := ((hbrace.space (c := '\n') (by decide)).punct_cons (c := ';') (by decide)
    (by decide)).punct_cons (c := ')') (by decide) (by decide)
  have hcall := (lexes_cVar id (by decide) hend).punct_word (c := '(') (by decide) (isWord_cVar id)
  have hname := (hcall.word_cons isWord_sigmoidName (by decide)).space (c := ' ') (by decide)
  rw [htext]
  exact hname.word_cons (by decide) (by decide)

theorem toList_fileText (code : List (Decl V) × ℕ) :
    (fileText print code).toList = "double sigmoid(double x);\n".toList ++
      ("double evaluate(void) \x7b\n".toList ++
        ((String.join (code.1.map (Decl.text print))).toList ++
          ("return sigmoid(".toList ++ ((var code.2).toList ++ ");\n\x7d".toList)))) := by
  have happend (a b c d e f : String) : (a ++ b ++ c ++ d ++ e ++ f).toList =
      a.toList ++ (b.toList ++ (c.toList ++ (d.toList ++ (e.toList ++ f.toList)))) := by simp
  exact happend ..

theorem lexes_fileText (code : List (Decl V) × ℕ) (hcode : ∀ d ∈ code.1, d.2.Prints print) :
    Lexes (fileText print code).toList (fileTokens print code) := by
  rw [toList_fileText]
  exact lexes_proto (lexes_head (lexes_decls print code.1 hcode (lexes_return code.2)))

end Lexes

/-! ## What is read -/

theorem readExpr_tokens (r : Rhs V) (ts : List Token) :
    readExpr (r.tokens print ++ .punct ';' :: ts) = some (r.toC print, .punct ';' :: ts) := by
  obtain ⟨fuel, hfuel⟩ : ∃ fuel, 8 * (r.tokens print ++ .punct ';' :: ts).length = fuel + 16 := by
    have hlen : 2 ≤ (r.tokens print ++ .punct ';' :: ts).length := by
      have : 1 ≤ (r.tokens print).length := by
        cases r <;> simp [Rhs.tokens]
      rw [List.length_append, List.length_cons]
      omega
    exact ⟨_, (Nat.sub_add_cancel (by omega)).symm⟩
  rw [readExpr, hfuel]
  cases r with
  | val v => rfl
  | _ =>
      simp [Rhs.tokens, Rhs.toC, conditional, sum, product, unary, primary, factors, summands,
        cVar_not_mem_keywords]

theorem declarations_tokens (ds : List (Decl V)) (f : List Char) (ts : List Token) {fuel : ℕ}
    (hfuel : ds.length < fuel) :
    declarations fuel (ds.flatMap (Decl.tokens print) ++ .word return_ :: .word f :: .punct '(' :: ts) =
      some (ds.map (Prod.map cVar (Rhs.toC print)), .word return_ :: .word f :: .punct '(' :: ts) := by
  induction ds generalizing fuel with
  | nil =>
      obtain ⟨fuel, rfl⟩ := Nat.exists_eq_succ_of_ne_zero (Nat.ne_of_gt hfuel)
      rfl
  | cons d ds ih =>
      obtain ⟨id, r⟩ := d
      obtain ⟨fuel, rfl⟩ := Nat.exists_eq_succ_of_ne_zero (Nat.ne_of_gt (Nat.zero_lt_of_lt hfuel))
      have hrest := ih (Nat.lt_of_succ_lt_succ hfuel)
      simp [Decl.tokens, declarations, cVar_not_mem_keywords, readExpr_tokens print, hrest]

/-- The file that the text is. -/
def cFile (code : List (Decl V) × ℕ) : File where
  proto := sigmoidName
  name := evaluateName
  body := code.1.map (Prod.map cVar (Rhs.toC print))
  callee := sigmoidName
  arg := .var (cVar code.2)

theorem length_le_tokens (ds : List (Decl V)) : ds.length ≤ (ds.flatMap (Decl.tokens print)).length := by
  induction ds with
  | nil => exact Nat.le_refl _
  | cons d ds ih =>
      rw [List.flatMap_cons, List.length_append, Decl.tokens, List.length_cons, List.length_cons]
      omega

/-- **The text is read back.** -/
theorem read_fileText (code : List (Decl V) × ℕ) (hcode : ∀ d ∈ code.1, d.2.Prints print) :
    MiniC.read (fileText print code).toList = some (cFile print code) := by
  obtain ⟨ds, id⟩ := code
  have hfuel : ds.length < (ds.flatMap (Decl.tokens print) ++ returnTokens id).length + 1 := by
    have := length_le_tokens print ds
    rw [List.length_append]
    omega
  have hdecls : declarations ((ds.flatMap (Decl.tokens print) ++ returnTokens id).length + 1)
      (ds.flatMap (Decl.tokens print) ++ returnTokens id) =
        some (ds.map (Prod.map cVar (Rhs.toC print)), returnTokens id) :=
    declarations_tokens print ds _ _ hfuel
  have harg : readExpr [.word (cVar id), .punct ')', .punct ';', .punct '\x7d'] =
      some (.var (cVar id), [.punct ')', .punct ';', .punct '\x7d']) := by
    simp [readExpr, conditional, sum, product, unary, primary, factors, summands,
      cVar_not_mem_keywords]
  rw [read_of_lexes (lexes_fileText print (ds, id) hcode), fileTokens, protoTokens, headTokens]
  simp only [List.cons_append, List.nil_append, readFile, true_and, if_true, hdecls]
  simp only [returnTokens, if_true, harg]
  rfl

end CS238P.Calc
