import CS238P.Calc.Lexer
import Mathlib.Tactic.IntervalCases

set_option autoImplicit false

/-! # What `tokenize` makes of a text

`Cuts` says how a text is cut into lexemes, one longest match after the other, and `Renders` which
texts are a way to write down a sequence of lexemes. The rendering of a sequence is cut into just that
sequence, and `tokenize` fills its array with the tokens of what the text is cut into.

`Holds` is the invariant of the array. The `realloc` that `mktoken` makes at every hundredth token
keeps the array longer than what it holds. -/

namespace CS238P.Calc

open Decimal

variable {V : Type}

/-! ## The array -/

/-- The array starts with the tokens `ts` and is as long as it was last reallocated. -/
structure Holds (lexer : LexerState V) (ts : List (LexerToken V)) : Prop where
  size : lexer.size = ts.length
  room : lexer.tokens.length = (ts.length + 99) / 100 * 100
  tokens : lexer.tokens.take ts.length = ts.map some

theorem holds_init : Holds (LexerState.init : LexerState V) [] :=
  ⟨rfl, by simp [LexerState.init], rfl⟩

section Holds

variable {lexer lexer' : LexerState V} {ts : List (LexerToken V)} {t : LexerToken V}

theorem Holds.init_of_append {us : List (LexerToken V)} (h : Holds lexer (ts ++ us)) :
    lexer.tokens.take ts.length = ts.map some := by
  have hlen : ts.length ≤ (ts ++ us).length := by simp
  rw [← Nat.min_eq_left hlen, ← List.take_take, h.tokens]
  simp

/-- The next element is written. -/
theorem holds_set {tokens : List (Option (LexerToken V))}
    (hroom : tokens.length = (ts.length + 1 + 99) / 100 * 100)
    (htokens : tokens.take ts.length = ts.map some) (t : LexerToken V) :
    Holds ⟨ts.length + 1, tokens.set ts.length (some t)⟩ (ts ++ [t]) := by
  refine ⟨by simp, by simpa using hroom, ?_⟩
  have hlt : ts.length < tokens.length := by omega
  have hset : (tokens.set ts.length (some t)).take (ts.length + 1) =
      tokens.take ts.length ++ [some t] := by
    rw [List.take_add_one, List.take_set_of_le (Nat.le_refl _)]
    simp [hlt]
  simp [hset, htokens]

/-- The last token is written again. -/
theorem Holds.write (h : Holds lexer (ts ++ [t])) (t' : LexerToken V) :
    ∃ lexer', lexer.write ts.length t' = .ok lexer' ∧ Holds lexer' (ts ++ [t']) := by
  have hroom : lexer.tokens.length = (ts.length + 1 + 99) / 100 * 100 := by
    simpa using h.room
  have hsize : lexer.size = ts.length + 1 := by simpa using h.size
  refine ⟨_, if_pos (by omega), ?_⟩
  rw [hsize]
  exact holds_set hroom h.init_of_append t'

variable [Zero V]

/-- `mktoken` appends a token: its write is inside the array, which `realloc` has made longer if it
    was full. -/
theorem Holds.mktoken (h : Holds lexer ts) (op : LexerOp) :
    ∃ lexer', mktoken op lexer = .ok (lexer.size, lexer') ∧ Holds lexer' (ts ++ [⟨op, 0⟩]) := by
  have hsize := h.size
  have hroom := h.room
  by_cases hfull : lexer.size % 100 = 0
  · have hlen : (realloc lexer.tokens (lexer.size + 100)).length =
        (ts.length + 1 + 99) / 100 * 100 := by
      simp [realloc]
      omega
    have htake : (realloc lexer.tokens (lexer.size + 100)).take ts.length = ts.map some := by
      rw [← h.tokens, realloc, List.take_append_of_le_length (by simp; omega), List.take_take,
        Nat.min_eq_left (by omega)]
    have hlt : lexer.size < (realloc lexer.tokens (lexer.size + 100)).length := by omega
    refine ⟨_, by simp [Calc.mktoken, hfull, LexerState.write, hlt]; rfl, ?_⟩
    rw [hsize] at htake hlen ⊢
    exact holds_set hlen htake _
  · have hlen : lexer.tokens.length = (ts.length + 1 + 99) / 100 * 100 := by omega
    have hlt : lexer.size < lexer.tokens.length := by omega
    refine ⟨_, by simp [Calc.mktoken, hfull, LexerState.write, hlt]; rfl, ?_⟩
    rw [hsize]
    exact holds_set hlen h.tokens _

end Holds

/-! ## Lexemes -/

/-- A token as it is written. -/
inductive Lexeme where
  | operator (op : LexerOp)
  | val (n : Numeral)

/-- The token of a lexeme. -/
def Lexeme.token [Zero V] (value : Numeral → V) : Lexeme → LexerToken V
  | .operator op => ⟨op, 0⟩
  | .val n => ⟨.val, value n⟩

/-- How the six operators are written. -/
def LexerOp.char : LexerOp → Option Char
  | .add => some '+'
  | .sub => some '-'
  | .mul => some '*'
  | .div => some '/'
  | .open_ => some '('
  | .close => some ')'
  | .op_ | .val => none

/-- The loop over `OPERATORS` finds the operator that is written so. -/
theorem operatorOf_eq_some_iff {c : Char} {op : LexerOp} :
    operatorOf c = some op ↔ op.char = some c := by
  constructor
  · intro h
    obtain ⟨i, hi, rfl⟩ := Option.map_eq_some_iff.1 h
    obtain ⟨hlt, hc, -⟩ := List.idxOf?_eq_some_iff.1 hi
    subst hc
    have hlt' : i < 6 := hlt
    interval_cases i <;> rfl
  · intro h
    cases op <;> cases h <;> rfl

theorem operatorOf_eq_none {c : Char} (h : ∀ op : LexerOp, op.char ≠ some c) :
    operatorOf c = none := by
  cases hop : operatorOf c with
  | none => rfl
  | some op => exact absurd (operatorOf_eq_some_iff.1 hop) (h op)

/-- White space, digits and the point are no operators. -/
theorem LexerOp.char_cases {op : LexerOp} {c : Char} (h : op.char = some c) :
    isspace c = false ∧ c.isDigit = false ∧ c ≠ '.' := by
  cases op <;> cases h <;> decide

theorem operatorOf_isspace {c : Char} (hc : isspace c) : operatorOf c = none :=
  operatorOf_eq_none fun op h => by simp [(op.char_cases h).1] at hc

theorem operatorOf_numeral {c : Char} (hc : c.isDigit ∨ c = '.') : operatorOf c = none := by
  refine operatorOf_eq_none fun op h => ?_
  obtain ⟨-, hdigit, hpoint⟩ := op.char_cases h
  rcases hc with hc | hc
  · simp [hdigit] at hc
  · exact hpoint hc

theorem isspace_numeral {c : Char} (hc : c.isDigit ∨ c = '.') : isspace c = false := by
  rcases hc with hc | rfl
  · obtain ⟨hge, -⟩ := toNat_of_isDigit hc
    have hne : c ≠ ' ' := by
      rintro rfl
      exact absurd hge (by decide)
    simp only [isspace, hne, decide_false, Bool.false_or, Bool.and_eq_false_iff,
      decide_eq_false_iff_not]
    omega
  · decide

/-- What is read as a numeral starts with a digit or a point. -/
theorem head_of_read {s e : List Char} {n : Numeral} (h : read s = some (n, e)) :
    ∃ c t, s = c :: t ∧ (c.isDigit ∨ c = '.') := by
  obtain ⟨c, t, ht, hc⟩ := n.exists_text_eq_cons
  exact ⟨c, t ++ e, by rw [eq_text_append h, ht, List.cons_append], hc⟩

/-- How a text is cut: white space is skipped, and what is no operator is the longest numeral. -/
inductive Cuts : List Char → List Lexeme → Prop where
  | nil : Cuts [] []
  | space (c : Char) (s : List Char) (ls : List Lexeme) (hc : isspace c) (h : Cuts s ls) :
      Cuts (c :: s) ls
  | operator (op : LexerOp) (c : Char) (s : List Char) (ls : List Lexeme)
      (hc : op.char = some c) (h : Cuts s ls) : Cuts (c :: s) (.operator op :: ls)
  | val (n : Numeral) (s e : List Char) (ls : List Lexeme) (hread : read s = some (n, e))
      (h : Cuts e ls) : Cuts s (.val n :: ls)

/-! ## The loop -/

section Loop

variable [Zero V] {value : Numeral → V}

/-- `tokenize` makes the tokens of what the text is cut into. -/
theorem Cuts.tokenize {s : List Char} {ls : List Lexeme} (h : Cuts s ls) (value : Numeral → V) :
    ∀ (ts : List (LexerToken V)) (lexer : LexerState V), Holds lexer ts →
      ∃ lexer', tokenize value lexer s = .ok lexer' ∧
        Holds lexer' (ts ++ ls.map (Lexeme.token value)) := by
  induction h with
  | nil =>
      intro ts lexer hts
      exact ⟨lexer, tokenize_nil value lexer, by simpa using hts⟩
  | space c s ls hc h ih =>
      intro ts lexer hts
      rw [tokenize_cons (tokenizeStep_space (operatorOf_isspace hc) hc)]
      exact ih ts lexer hts
  | operator op c s ls hc h ih =>
      intro ts lexer hts
      obtain ⟨lexer', hmk, hts'⟩ := hts.mktoken op
      rw [tokenize_cons (tokenizeStep_operator (operatorOf_eq_some_iff.2 hc) hmk)]
      obtain ⟨lexer'', htok, hts''⟩ := ih _ lexer' hts'
      exact ⟨lexer'', htok, by simpa [Lexeme.token] using hts''⟩
  | val n s e ls hread h ih =>
      intro ts lexer hts
      obtain ⟨c, t, rfl, hc⟩ := head_of_read hread
      obtain ⟨lexer', hmk, hts'⟩ := hts.mktoken .val
      obtain ⟨lexer'', hwrite, hts''⟩ := hts'.write ⟨.val, value n⟩
      rw [← hts.size] at hwrite
      rw [tokenize_cons (tokenizeStep_val (operatorOf_numeral hc) (by simp [isspace_numeral hc])
        hread hmk hwrite)]
      obtain ⟨lexer₃, htok, hts₃⟩ := ih _ lexer'' hts''
      exact ⟨lexer₃, htok, by simpa [Lexeme.token] using hts₃⟩

/-- Every text that `tokenize` accepts can be cut. -/
theorem exists_cuts {s : List Char} : ∀ {lexer lexer' : LexerState V},
    tokenize value lexer s = .ok lexer' → ∃ ls, Cuts s ls := by
  -- on the length: an iteration may read several characters
  induction hn : s.length using Nat.strongRecOn generalizing s with
  | ind n ih =>
      intro lexer lexer' h
      cases s with
      | nil => exact ⟨[], .nil⟩
      | cons c s =>
          obtain ⟨l, s', hstep, hrest⟩ := exists_step_of_tokenize h
          have hlt : s'.length < n := hn ▸ length_lt_of_tokenizeStep hstep
          obtain ⟨ls, hls⟩ := ih s'.length hlt rfl hrest
          rcases tokenizeStep_cases hstep with ⟨op, i, hop, -, rfl⟩ | ⟨-, hc, -, rfl⟩ |
            ⟨-, -, n, i, l', hread, -⟩
          · exact ⟨_, .operator op c s' ls (operatorOf_eq_some_iff.1 hop) hls⟩
          · exact ⟨_, .space c s' ls hc hls⟩
          · exact ⟨_, .val n _ s' ls hread hls⟩

/-- The loop of `tokenize` on `text` comes to this lexer with these characters left. -/
inductive LoopAt (value : Numeral → V) (text : List Char) : LexerState V → List Char → Prop where
  | start : LoopAt value text .init text
  | next (lexer lexer' : LexerState V) (c : Char) (s s' : List Char)
      (h : LoopAt value text lexer (c :: s))
      (hstep : tokenizeStep value c s lexer = .ok (lexer', s')) : LoopAt value text lexer' s'

/-- An iteration appends a token or none. -/
theorem Holds.tokenizeStep {lexer lexer' : LexerState V} {ts : List (LexerToken V)} {c : Char}
    {s s' : List Char} (h : Holds lexer ts)
    (hstep : tokenizeStep value c s lexer = .ok (lexer', s')) :
    ∃ us, Holds lexer' (ts ++ us) := by
  rcases tokenizeStep_cases hstep with ⟨op, i, -, hmk, -⟩ | ⟨-, -, rfl, -⟩ |
    ⟨-, -, n, i, l, -, hmk, hwrite⟩
  · obtain ⟨l, hmk', hts⟩ := h.mktoken op
    rw [hmk] at hmk'
    cases hmk'
    exact ⟨_, hts⟩
  · exact ⟨[], by simpa using h⟩
  · obtain ⟨l', hmk', hts⟩ := h.mktoken .val
    rw [hmk] at hmk'
    cases hmk'
    obtain ⟨l'', hwrite', hts'⟩ := hts.write ⟨.val, value n⟩
    rw [h.size, hwrite'] at hwrite
    cases hwrite
    exact ⟨_, hts'⟩

theorem LoopAt.holds {text s : List Char} {lexer : LexerState V} (h : LoopAt value text lexer s) :
    ∃ ts, Holds lexer ts := by
  induction h with
  | start => exact ⟨[], holds_init⟩
  | next lexer lexer' c s s' _ hstep ih =>
      obtain ⟨ts, hts⟩ := ih
      obtain ⟨us, hus⟩ := hts.tokenizeStep hstep
      exact ⟨_, hus⟩

end Loop

/-! ## Renderings -/

/-- A text that writes down the lexemes: white space anywhere between them, and some between two
    numerals. -/
inductive Renders : List Lexeme → List Char → Prop where
  | nil (g : List Char) (hg : ∀ c ∈ g, isspace c) : Renders [] g
  | operator (op : LexerOp) (g : List Char) (c : Char) (ls : List Lexeme) (s : List Char)
      (hg : ∀ c ∈ g, isspace c) (hc : op.char = some c) (h : Renders ls s) :
      Renders (.operator op :: ls) (g ++ c :: s)
  | val (n : Numeral) (g : List Char) (ls : List Lexeme) (s : List Char)
      (hg : ∀ c ∈ g, isspace c) (hsep : ∀ m, ls.head? = some (.val m) → ∃ c ∈ s.head?, isspace c)
      (h : Renders ls s) : Renders (.val n :: ls) (g ++ (n.text ++ s))

theorem Cuts.spaces {g s : List Char} {ls : List Lexeme} (hg : ∀ c ∈ g, isspace c)
    (h : Cuts s ls) : Cuts (g ++ s) ls := by
  induction g with
  | nil => exact h
  | cons c g ih =>
      exact .space c _ ls (hg c (by simp)) (ih fun d hd => hg d (by simp [hd]))

/-- A rendering that does not start with a numeral does not go on with one either. -/
theorem Renders.head {ls : List Lexeme} {s : List Char} (h : Renders ls s) {c : Char}
    (hc : c ∈ s.head?) (hsep : ∀ m, ls.head? = some (.val m) → ∃ c ∈ s.head?, isspace c) :
    isspace c ∨ ∃ op : LexerOp, op.char = some c := by
  cases h with
  | nil g hg => exact .inl (hg c (List.mem_of_head? hc))
  | operator op g d ls s hg hd h =>
      cases g with
      | nil =>
          cases hc
          exact .inr ⟨op, hd⟩
      | cons e g =>
          cases hc
          exact .inl (hg c (by simp))
  | val n g ls s hg _ h =>
      obtain ⟨d, hd, hspace⟩ := hsep n rfl
      rw [Option.mem_def] at hc hd
      rw [hc] at hd
      cases hd
      exact .inl hspace

/-- A rendering is cut into what it renders. -/
theorem Renders.cuts {ls : List Lexeme} {s : List Char} (h : Renders ls s) : Cuts s ls := by
  induction h with
  | nil g hg => simpa using Cuts.nil.spaces hg
  | operator op g c ls s hg hc _ ih => exact (Cuts.operator op c s ls hc ih).spaces hg
  | val n g ls s hg hsep h ih =>
      refine Cuts.spaces hg (.val n _ s ls (read_text n ?_ ?_) ih)
      · intro c hc
        rcases h.head hc hsep with hspace | ⟨op, hop⟩
        · intro hdigit
          simp [isspace_numeral (.inl hdigit)] at hspace
        · simp [(op.char_cases hop).2.1]
      · intro hpoint
        rcases h.head hpoint hsep with hspace | ⟨op, hop⟩
        · simp [isspace_numeral (.inr rfl)] at hspace
        · exact (op.char_cases hop).2.2 rfl

/-- **The lexer undoes rendering**: `tokenize` fills its array with just the tokens that the text
    renders. Wherever its loop comes to, `mktoken` writes inside the array as it has reallocated it
    and leaves the tokens before as they are. -/
theorem tokenize_renders [Zero V] (value : Numeral → V) (ls : List Lexeme) (text : List Char)
    (h : Renders ls text) :
    (∃ lexer, tokenize value .init text = .ok lexer ∧ lexer.size = ls.length ∧
      lexer.tokens.take lexer.size = ls.map fun l => some (l.token value)) ∧
    ∀ lexer s, LoopAt value text lexer s → ∀ op, ∃ lexer',
      mktoken op lexer = .ok (lexer.size, lexer') ∧ lexer.size < lexer'.tokens.length ∧
        lexer'.tokens.take lexer.size = lexer.tokens.take lexer.size := by
  constructor
  · obtain ⟨lexer, htok, hts⟩ := h.cuts.tokenize value [] .init holds_init
    have hsize := hts.size
    have htokens := hts.tokens
    rw [← hsize, List.nil_append, List.map_map] at htokens
    exact ⟨lexer, htok, by simpa using hsize, htokens⟩
  · intro lexer s hloop op
    obtain ⟨ts, hts⟩ := hloop.holds
    obtain ⟨lexer', hmk, hts'⟩ := hts.mktoken op
    refine ⟨lexer', hmk, ?_, ?_⟩
    · have hroom := hts'.room
      have hsize := hts.size
      simp only [List.length_append, List.length_singleton] at hroom
      omega
    · rw [hts.size, hts'.init_of_append, hts.tokens]

/-- The numerals `12.5` and `3`. -/
def twelveAndHalf : Numeral := ⟨['1', '2'], some ['5'], by simp, by simp⟩

def three : Numeral := ⟨['3'], none, by simp, by simp⟩

/-- A text with the one blank it needs. -/
def spaced : List Lexeme := [.val twelveAndHalf, .val three, .operator .add]

def spacedText : List Char := ['1', '2', '.', '5', ' ', '3', '+']

theorem renders_spaced : Renders spaced spacedText :=
  .val twelveAndHalf [] _ [' ', '3', '+'] (by simp) (fun _ _ => ⟨' ', rfl, by decide⟩)
    (.val three [' '] _ ['+'] (by simp [isspace]) (by simp)
      (.operator .add [] '+' [] [] (by simp) rfl (.nil [] (by simp))))

theorem tokenize_renders_spaced :
    (∃ lexer, tokenize Numeral.value .init spacedText = .ok lexer ∧ lexer.size = spaced.length ∧
      lexer.tokens.take lexer.size = spaced.map fun l => some (l.token Numeral.value)) ∧
    ∀ lexer s, LoopAt Numeral.value spacedText lexer s → ∀ op, ∃ lexer',
      mktoken op lexer = .ok (lexer.size, lexer') ∧ lexer.size < lexer'.tokens.length ∧
        lexer'.tokens.take lexer.size = lexer.tokens.take lexer.size :=
  tokenize_renders Numeral.value spaced spacedText renders_spaced

end CS238P.Calc
