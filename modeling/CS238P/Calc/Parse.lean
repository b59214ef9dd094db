import CS238P.Calc.Soundness
import Mathlib.Algebra.GroupWithZero.Nat

set_option autoImplicit false

/-! # What `top` accepts

`top` meets its grammar exactly on the inputs without a dangling `+` or `-`. There it returns,
accepts the derivable token lists and no others, and returns the syntax tree. On the other inputs
`expr_additive_` reads beyond the end of the table it reports a bad operand from. -/

namespace CS238P.Calc

variable {V : Type} [Zero V] {lexer : Lexer V}

/-! ## A dangling operator is undefined behaviour -/

/-- The call does not return. -/
def Fails : Outcome V → Prop
  | .ok _ _ => False
  | .error _ _ => True

omit [Zero V] in
theorem Fails.onDag {r : Outcome V} {null : Parser → Outcome V} {k : Dag V → Parser → Outcome V}
    (h : Fails r) : Fails (r.onDag null k) := by
  cases r with
  | ok d p => exact h.elim
  | error e p => trivial

omit [Zero V] in
theorem ReadsTo.onDag_fails {r : Outcome V} {us : List (LexerToken V)} {a : Ast V}
    {null : Parser → Outcome V} {k : Dag V → Parser → Outcome V} (h : ReadsTo lexer us a r)
    (hk : ∀ d p, rest lexer p = us → Fails (k d p)) : Fails (r.onDag null k) := by
  cases r with
  | error e p => trivial
  | ok d p =>
      cases d with
      | null => exact absurd h.2 (by simp [Dag.ast])
      | node op id v left right => exact hk _ p h.1

/-- No call of the function for the nonterminal returns at `s`. -/
def FailsAt (lexer : Lexer V) (s : List (LexerToken V)) : NT V → Prop
  | .primary => ∀ fuel p, rest lexer p = s → Fails (exprPrimary lexer fuel p)
  | .unary => ∀ fuel p, rest lexer p = s → Fails (exprUnary lexer fuel p)
  | .chain l => ∀ fuel p, rest lexer p = s → Fails (chain lexer l fuel p)
  | .tail _ _ => True

/-- At `s` the operand behind an operator of level `l` does not return, or it is missing and the
    report of that does not return. -/
def BadOperand (lexer : Lexer V) (l : Level) (s : List (LexerToken V)) : Prop :=
  ∀ fuel p, rest lexer p = s → Fails (operand lexer l fuel p) ∨
    (l = .additive ∧ ∃ p', operand lexer l fuel p = .ok .null p')

theorem FailsAt.operand {l : Level} {s : List (LexerToken V)} (h : FailsAt lexer s l.operand)
    (fuel : ℕ) {p : Parser} (hp : rest lexer p = s) : Fails (operand lexer l fuel p) := by
  cases l with
  | multiplicative => exact h fuel p hp
  | additive => exact h fuel p hp

/-- The tail reads up to the bad operand. -/
theorem Derives.tail_fails {l : Level} {left : Ast V} {es : List (LexerToken V)} {a : Ast V}
    (h : Derives (.tail l left) es a) {op : BinOp} (hl : op.level = l) {t : LexerToken V}
    (ht : t.op = op.tok) {s : List (LexerToken V)} (hs : BadOperand lexer l s) (fuel : ℕ) :
    ∀ (n : ℕ) (d : Dag V) (p : Parser), rest lexer p = es ++ t :: s →
      Fails (tailLoop lexer l.ops (operand lexer l fuel) n d d p) := by
  generalize hnt : NT.tail l left = nt at h
  induction h generalizing left with
  | stop l' a' =>
      intro n d p hp
      cases n with
      | zero => trivial
      | succ n =>
          have hp' : rest lexer p.made.advance = s :=
            rest_advance (show rest lexer p.made = t :: s from hp)
          rw [tailLoop_op n d d op hl hp ht]
          rcases hs fuel p.made.advance hp' with hfail | ⟨rfl, p', hnull⟩
          · exact hfail.onDag
          · -- the index into `TBL` is 2 or 3
            rw [hnull, Outcome.onDag, name_additive op hl]
            trivial
  | step op' t' ts us a' b c ht' hd hr ih ihr =>
      intro n d p hp
      cases n with
      | zero => trivial
      | succ n =>
          obtain ⟨rfl, rfl⟩ : l = op'.level ∧ left = a' := by simpa using hnt
          have hp' : rest lexer p.made.advance = ts ++ (us ++ t :: s) := by
            have hmade : rest lexer p.made = t' :: (ts ++ (us ++ t :: s)) := by simpa using hp
            exact rest_advance hmade
          have hfollow : Follow op'.level.operand (us ++ t :: s) := by
            refine hr.follow_operand ?_
            rw [← hl]
            exact follow_operand_of_op op t s ht
          rw [tailLoop_op n d d op' rfl hp ht']
          refine (hd.completes.operand fuel hp' hfollow).onDag_fails fun right p' hrest => ?_
          exact (ihr rfl n _ p' hrest).onDag
  | _ => exact absurd hnt (by simp)

theorem Derives.chain_fails {l : Level} {es : List (LexerToken V)} {a : Ast V}
    (h : Derives (.chain l) es a) {op : BinOp} (hl : op.level = l) {t : LexerToken V}
    (ht : t.op = op.tok) {s : List (LexerToken V)} (hs : BadOperand lexer l s) :
    FailsAt lexer (es ++ t :: s) (.chain l) := by
  intro fuel p hp
  cases h with
  | chain _ ts us a' _ hop htail =>
      cases fuel with
      | zero => cases l <;> trivial
      | succ fuel =>
          have hp' : rest lexer p = ts ++ (us ++ t :: s) := by rw [hp, List.append_assoc]
          have hfollow : Follow l.operand (us ++ t :: s) := by
            refine htail.follow_operand ?_
            rw [← hl]
            exact follow_operand_of_op op t s ht
          rw [chain_succ]
          refine (hop.completes.operand fuel hp' hfollow).onDag_fails fun d p' hrest => ?_
          cases fuel with
          | zero => cases l <;> trivial
          | succ fuel =>
              rw [tail_succ]
              exact htail.tail_fails hl ht hs fuel fuel d p' hrest

theorem FailsAt.chain {l : Level} {s : List (LexerToken V)} (h : FailsAt lexer s l.operand) :
    FailsAt lexer s (.chain l) := by
  intro fuel p hp
  cases fuel with
  | zero => cases l <;> trivial
  | succ fuel =>
      rw [chain_succ]
      exact (h.operand fuel hp).onDag

theorem FailsAt.sign {t : LexerToken V} {s : List (LexerToken V)} (h : FailsAt lexer s .unary)
    (ht : t.op = .add ∨ t.op = .sub) : FailsAt lexer (t :: s) .unary := by
  intro fuel p hp
  cases fuel with
  | zero => trivial
  | succ fuel =>
      rcases ht with ht | ht
      · rw [exprUnary_add fuel hp ht]
        exact (h fuel _ (rest_advance hp)).onDag
      · have hmade : rest lexer p.made = t :: s := hp
        rw [exprUnary_sub fuel hp ht]
        exact (h fuel _ (rest_advance hmade)).onDag

theorem FailsAt.paren {t : LexerToken V} {s : List (LexerToken V)} (h : FailsAt lexer s .expr)
    (ht : t.op = .open_) : FailsAt lexer (t :: s) .unary := by
  intro fuel p hp
  match fuel with
  | 0 => trivial
  | 1 => rw [exprUnary_other 0 (by simp [hp, headOp, ht]) (by simp [hp, headOp, ht])]; trivial
  | fuel + 2 =>
      rw [exprUnary_other _ (by simp [hp, headOp, ht]) (by simp [hp, headOp, ht]),
        exprPrimary_open fuel hp ht]
      cases fuel with
      | zero => trivial
      | succ fuel =>
          rw [expr_succ]
          exact (h fuel _ (rest_advance hp)).onDag

/-- What does not return at `s` is not returned from by anything that reads up to it. -/
theorem Reach.failsAt {nt nt' : NT V} {q s : List (LexerToken V)} (h : Reach nt q nt')
    (hs : FailsAt lexer s nt') : FailsAt lexer (q ++ s) nt := by
  induction h generalizing s with
  | refl => exact hs
  | first l q _ ih => exact ih hs.chain
  | next op q es a t _ he ht ih =>
      have hbad : BadOperand lexer op.level s := fun fuel p hp => .inl (hs.operand fuel hp)
      simpa using ih (he.chain_fails rfl ht hbad)
  | sign q t _ ht ih => simpa using ih (hs.sign ht)
  | paren q t _ ht ih => simpa using ih (hs.paren ht)

/-- Without a term behind an additive operator its operand is bad. -/
theorem badOperand_of_not_termAt {s : List (LexerToken V)} (h : ¬ TermAt s) :
    BadOperand lexer .additive s := by
  intro fuel p hp
  have hends := (allSound lexer fuel).term p
  show Fails (exprMultiplicative lexer fuel p) ∨ _
  cases hres : exprMultiplicative lexer fuel p with
  | error e p' => exact .inl trivial
  | ok d p' =>
      cases d with
      | null => exact .inr ⟨rfl, p', hres⟩
      | node op id v left right =>
          rw [hres] at hends
          have hread := hends (by simp)
          obtain ⟨ts, a, hts, hder, -⟩ := hread.derives
          -- an operand that is read is a term, and no `*` or `/` follows it
          exact absurd ⟨ts, rest lexer p', a, by rw [← hp, hts], hder, hread.follow⟩ h

theorem DanglingSum.failsAt {s : List (LexerToken V)} (h : DanglingSum s) :
    FailsAt lexer s .expr := by
  obtain ⟨q, es, t, us, rfl, hreach, ⟨a, hes⟩, ht, hnot⟩ := h
  have hbad : BadOperand lexer .additive us := badOperand_of_not_termAt hnot
  rw [List.append_assoc]
  refine hreach.failsAt ?_
  rcases ht with ht | ht
  · exact hes.chain_fails (show BinOp.add.level = _ from rfl) ht hbad
  · exact hes.chain_fails (show BinOp.sub.level = _ from rfl) ht hbad

/-! ## `top` -/

/-- What `top` is for: with enough fuel it returns; the tree it returns is not NULL exactly for the
    token lists of the grammar; and then it stands for their only syntax tree, which has the VAL
    tokens as its leaves. -/
def ParseSpec (lexer : Lexer V) : Prop :=
  ∀ fuel, 8 * lexer.tokens.length + 8 ≤ fuel → ∃ d p, top lexer fuel Parser.init = .ok d p ∧
    (d ≠ .null ↔ ∃ a, Derives .expr lexer.tokens a) ∧
    ∀ a, Derives .expr lexer.tokens a → d.ast = some a ∧ a.leaves = vals lexer.tokens

theorem Lexer.expr_ends (lexer : Lexer V) (fuel : ℕ) :
    Ends lexer .expr .expr [] 0 (fuel < 8 * lexer.tokens.length + 7) Parser.init
      (expr lexer fuel Parser.init) :=
  (allSound lexer fuel).expr Parser.init

/-- What `top` returns was derived. -/
theorem top_sound {fuel : ℕ} {d : Dag V} {p : Parser} (h : top lexer fuel Parser.init = .ok d p)
    (hd : d ≠ .null) :
    (∃ a, Derives .expr lexer.tokens a ∧ d.ast = some a) ∧ d.ids.Nodup := by
  have hends := lexer.expr_ends fuel
  rw [top_apply] at h
  cases hres : expr lexer fuel Parser.init with
  | error e p' => rw [hres] at h; cases h
  | ok d' p' =>
      rw [hres] at h hends
      cases d' with
      | null => cases h; exact absurd rfl hd
      | node op id v left right =>
          rw [Outcome.onDag] at h
          by_cases hend : headOp (rest lexer p') = .op_
          · rw [if_pos hend] at h
            cases h
            have hread := hends hd
            obtain ⟨ts, a, hts, hder, hast⟩ := hread.derives
            rw [rest_eq_nil hend, List.append_nil, rest_init] at hts
            exact ⟨⟨a, hts ▸ hder, hast⟩, hread.fresh.1⟩
          · rw [if_neg hend] at h
            cases h
            exact absurd rfl hd

/-- What is derived is accepted. -/
theorem top_complete {a : Ast V} (h : Derives .expr lexer.tokens a) (fuel : ℕ) :
    ReadsTo lexer [] a (top lexer fuel Parser.init) := by
  rw [top_apply]
  cases fuel with
  | zero => rfl
  | succ fuel =>
      rw [expr_succ]
      have hread : ReadsTo lexer [] a (chain lexer .additive fuel Parser.init) :=
        h.completes fuel Parser.init [] (by simp) ⟨rfl, rfl⟩
      refine hread.onDag fun d p hrest hast => ?_
      rw [if_pos (by rw [hrest]; rfl)]
      exact ⟨hrest, hast⟩

/-- With a dangling operator `top` does not return. -/
theorem DanglingSum.top_fails (h : DanglingSum lexer.tokens) (fuel : ℕ) :
    Fails (top lexer fuel Parser.init) := by
  rw [top_apply]
  cases fuel with
  | zero => trivial
  | succ fuel =>
      rw [expr_succ]
      have hfails : Fails (chain lexer .additive fuel Parser.init) := h.failsAt fuel _ rfl
      exact hfails.onDag

/-- Without a dangling operator `top` returns. -/
theorem top_returns (h : ¬ DanglingSum lexer.tokens) {fuel : ℕ}
    (hfuel : 8 * lexer.tokens.length + 8 ≤ fuel) :
    ∃ d p, top lexer fuel Parser.init = .ok d p := by
  have hends := lexer.expr_ends fuel
  rw [top_apply]
  cases hres : expr lexer fuel Parser.init with
  | error e p =>
      rw [hres] at hends
      cases e with
      | undefined => exact absurd hends h
      | outOfFuel =>
          have hlt : fuel < 8 * lexer.tokens.length + 7 := hends
          omega
  | ok d p =>
      cases d with
      | null => exact ⟨_, _, rfl⟩
      | node op id v left right =>
          rw [Outcome.onDag]
          by_cases hend : headOp (rest lexer p) = .op_
          · exact ⟨_, _, if_pos hend⟩
          · exact ⟨_, _, if_neg hend⟩

/-- **The parser against its grammar**: `top` does what it is for exactly when no binary `+` or `-`
    of the input is left without a term behind it. -/
theorem parseSpec_iff (lexer : Lexer V) : ParseSpec lexer ↔ ¬ DanglingSum lexer.tokens := by
  constructor
  · intro hspec hdangling
    obtain ⟨d, p, htop, -⟩ := hspec _ (Nat.le_refl _)
    have hfails := hdangling.top_fails (8 * lexer.tokens.length + 8)
    rw [htop] at hfails
    exact hfails
  · intro hnot fuel hfuel
    obtain ⟨d, p, htop⟩ := top_returns hnot hfuel
    have hread : ∀ a, Derives .expr lexer.tokens a → d.ast = some a := fun a ha => by
      have := top_complete ha fuel
      rw [htop] at this
      exact this.2
    refine ⟨d, p, htop, ⟨fun hd => ?_, fun ⟨a, ha⟩ hd => ?_⟩, fun a ha => ⟨hread a ha, ?_⟩⟩
    · obtain ⟨⟨a, ha, -⟩, -⟩ := top_sound htop hd
      exact ⟨a, ha⟩
    · exact absurd (hread a ha) (by simp [hd, Dag.ast])
    · rw [ha.leaves]
      rfl

/-- The input `1 +`. -/
def onePlus : Lexer ℕ := ⟨[⟨.val, 1⟩, ⟨.add, 0⟩], by decide⟩

/-- On `1 +` the parser does not report the missing operand: it reads `TBL[2]`. -/
theorem onePlus_not_parseSpec : ¬ ParseSpec onePlus := by
  intro h
  obtain ⟨d, p, htop, -⟩ := h 24 (by decide)
  have hundef : top onePlus 24 Parser.init = .error .undefined ⟨2, false, 2, []⟩ := by rfl
  rw [hundef] at htop
  cases htop

end CS238P.Calc
