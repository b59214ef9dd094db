import CS238P.Calc.Completeness

set_option autoImplicit false

/-! # What the parser reads is what the grammar derives

How a call can end, by induction on its fuel: with NULL; with the tree of a derivation of the tokens
it read, whose nodes have new ids; in undefined behaviour, and then a `+` or `-` has no term behind
it; or out of fuel, and then it had less than eight units for each token left. -/

namespace CS238P.Calc

variable {V : Type} [Zero V] {lexer : Lexer V}

/-- A call that started at `p` read a `nt` and made the tree `d`, whose ids are above `lo`. -/
structure Read (lexer : Lexer V) (nt : NT V) (lo : ℕ) (p : Parser) (d : Dag V) (p' : Parser) :
    Prop where
  derives : ∃ ts a, rest lexer p = ts ++ rest lexer p' ∧ Derives nt ts a ∧ d.ast = some a
  follow : Follow nt (rest lexer p')
  id_le : p.id ≤ p'.id
  fresh : d.Fresh lo p'.id

/-- How a call can end that reads a `nt` at `p`. `pre` was read of `ctx` before, and the fuel was
    not enough only if `short`. -/
def Ends (lexer : Lexer V) (nt ctx : NT V) (pre : List (LexerToken V)) (lo : ℕ) (short : Prop)
    (p : Parser) : Outcome V → Prop
  | .ok d p' => d ≠ .null → Read lexer nt lo p d p'
  | .error .undefined _ => DanglingFrom ctx (pre ++ rest lexer p)
  | .error .outOfFuel _ => short

section Ends

omit [Zero V]

variable {nt nt' ctx ctx' : NT V} {pre pre' : List (LexerToken V)} {lo lo' : ℕ}
  {short short' : Prop} {p q : Parser} {r : Outcome V} {null : Parser → Outcome V}
  {k : Dag V → Parser → Outcome V}

theorem ends_reject (m : String) (p' : Parser) :
    Ends lexer nt ctx pre lo short p (reject m p') := fun h => absurd rfl h

theorem Ends.onDag (h : Ends lexer nt ctx pre lo short p r)
    (hnull : ∀ p', r = .ok .null p' → Ends lexer nt' ctx' pre' lo' short' q (null p'))
    (hdag : ∀ d p', Read lexer nt lo p d p' → Ends lexer nt' ctx' pre' lo' short' q (k d p'))
    (hundef : DanglingFrom ctx (pre ++ rest lexer p) → DanglingFrom ctx' (pre' ++ rest lexer q))
    (hfuel : short → short') : Ends lexer nt' ctx' pre' lo' short' q (r.onDag null k) := by
  cases r with
  | ok d p' =>
      cases d with
      | null => exact hnull p' rfl
      | node op id v left right => exact hdag _ p' (h (by simp))
  | error e p' =>
      cases e with
      | undefined => exact hundef h
      | outOfFuel => exact hfuel h

end Ends

/-! ## Ids -/

section Fresh

omit [Zero V]

variable {lo hi : ℕ} {d left right : Dag V}

theorem Dag.Fresh.null : (Dag.null : Dag V).Fresh lo hi := by
  simp [Dag.Fresh, Dag.ids]

/-- A node whose id was handed out between those of its links. -/
theorem Dag.Fresh.node {id : ℕ} (op : DagOp) (v : V) (hl : left.Fresh lo id)
    (hr : right.Fresh (id + 1) hi) (hlo : lo ≤ id) (hhi : id + 1 ≤ hi) :
    (Dag.node op (id + 1) v left right).Fresh lo hi := by
  constructor
  · rw [Dag.ids, List.nodup_cons, List.nodup_append]
    refine ⟨fun hmem => ?_, hl.1, hr.1, fun a ha b hb => ?_⟩
    · rcases List.mem_append.1 hmem with h | h
      · have := hl.2 _ h
        omega
      · have := hr.2 _ h
        omega
    · have := hl.2 a ha
      have := hr.2 b hb
      omega
  · intro i hi
    rw [Dag.ids, List.mem_cons, List.mem_append] at hi
    rcases hi with rfl | h | h
    · omega
    · have := hl.2 i h
      omega
    · have := hr.2 i h
      omega

end Fresh

/-! ## The functions, one call deep -/

/-- Every call of the function for `nt` with this fuel ends as it should. -/
def Sound (lexer : Lexer V) (nt ctx : NT V) (w fuel : ℕ) (m : ParseM (Dag V)) : Prop :=
  ∀ p, Ends lexer nt ctx [] p.id (fuel < 8 * (rest lexer p).length + w) p (m p)

theorem sound_exprPrimary {fuel : ℕ} (h : Sound lexer .expr .expr 7 fuel (expr lexer fuel)) :
    Sound lexer .primary .unary 1 (fuel + 1) (exprPrimary lexer (fuel + 1)) := by
  intro p
  by_cases hval : headOp (rest lexer p) = .val
  · obtain ⟨t, r, hr, ht⟩ := exists_cons_of_headOp hval (by decide)
    have hmade : rest lexer p.made = t :: r := hr
    rw [exprPrimary_val fuel hr ht]
    intro _
    refine ⟨⟨[t], .val t.val, ?_, .val t ht, Dag.ast_val _ _⟩, trivial, Nat.le_succ _, ?_⟩
    · rw [hr, rest_advance hmade]
      rfl
    · exact .node .val t.val .null .null (Nat.le_refl _) (Nat.le_refl _)
  by_cases hopen : headOp (rest lexer p) = .open_
  · obtain ⟨t, r, hr, ht⟩ := exists_cons_of_headOp hopen (by decide)
    rw [exprPrimary_open fuel hr ht]
    have hadv : rest lexer p = t :: rest lexer p.advance := by rw [rest_advance hr, hr]
    refine (h p.advance).onDag (fun p' _ => ends_reject _ p') (fun d p' hread => ?_)
      (fun hd => ?_) (fun hf => ?_)
    · -- the sub-expression was read; what is left is the closing parenthesis
      by_cases hclose : headOp (rest lexer p') = .close
      · rw [if_pos hclose]
        intro _
        obtain ⟨u, us, hus, hu⟩ := exists_cons_of_headOp hclose (by decide)
        obtain ⟨ts, a, hts, hder, hast⟩ := hread.derives
        refine ⟨⟨_, a, ?_, .paren t u ts a ht hu hder, hast⟩, trivial, hread.id_le, hread.fresh⟩
        rw [hadv, hts, hus, rest_advance hus]
        simp
      · rw [if_neg hclose]
        exact ends_reject _ p'
    · rw [hadv]
      exact hd.of_reach (q := [t]) (.paren [] t .refl ht)
    · rw [hadv, List.length_cons]
      omega
  · rw [exprPrimary_other fuel hval hopen]
    exact fun h => absurd rfl h

theorem sound_exprUnary {fuel : ℕ} (h : Sound lexer .unary .unary 2 fuel (exprUnary lexer fuel))
    (hprim : Sound lexer .primary .unary 1 fuel (exprPrimary lexer fuel)) :
    Sound lexer .unary .unary 2 (fuel + 1) (exprUnary lexer (fuel + 1)) := by
  intro p
  by_cases hadd : headOp (rest lexer p) = .add
  · obtain ⟨t, r, hr, ht⟩ := exists_cons_of_headOp hadd (by decide)
    rw [exprUnary_add fuel hr ht]
    have hadv : rest lexer p = t :: rest lexer p.advance := by rw [rest_advance hr, hr]
    refine (h p.advance).onDag (fun p' _ => ends_reject _ p') (fun d p' hread _ => ?_)
      (fun hd => ?_) (fun hf => ?_)
    · obtain ⟨ts, a, hts, hder, hast⟩ := hread.derives
      refine ⟨⟨t :: ts, a, ?_, .plus t ts a ht hder, hast⟩, trivial, hread.id_le, hread.fresh⟩
      rw [hadv, hts]
      rfl
    · rw [hadv]
      exact hd.of_reach (q := [t]) (.sign [] t .refl (.inl ht))
    · rw [hadv, List.length_cons]
      omega
  by_cases hsub : headOp (rest lexer p) = .sub
  · obtain ⟨t, r, hr, ht⟩ := exists_cons_of_headOp hsub (by decide)
    rw [exprUnary_sub fuel hr ht]
    have hmade : rest lexer p.made = t :: r := hr
    have hadv : rest lexer p = t :: rest lexer p.made.advance := by rw [rest_advance hmade, hr]
    refine (h p.made.advance).onDag (fun p' _ => ends_reject _ p') (fun d p' hread _ => ?_)
      (fun hd => ?_) (fun hf => ?_)
    · obtain ⟨ts, a, hts, hder, hast⟩ := hread.derives
      have hle : p.id + 1 ≤ p'.id := hread.id_le
      refine ⟨⟨t :: ts, .neg a, ?_, .minus t ts a ht hder, by simp [hast]⟩, trivial, by omega, ?_⟩
      · rw [hadv, hts]
        rfl
      · exact .node .neg 0 .null hread.fresh (Nat.le_refl _) hle
    · rw [hadv]
      exact hd.of_reach (q := [t]) (.sign [] t .refl (.inr ht))
    · rw [hadv, List.length_cons]
      omega
  · rw [exprUnary_other fuel hadd hsub, ← Outcome.onDag_self (exprPrimary lexer fuel p)]
    refine (hprim p).onDag (fun p' _ h => absurd rfl h) (fun d p' hread _ => ?_) id
      (fun hf => by omega)
    obtain ⟨ts, a, hts, hder, hast⟩ := hread.derives
    exact ⟨⟨ts, a, hts, .primary ts a hder, hast⟩, trivial, hread.id_le, hread.fresh⟩

/-! ## The tail functions -/

/-- A missing operand. `expr_additive_` reads beyond `TBL`; what was read so far is a sum whose
    last operator has no term behind it. -/
theorem ends_badOperand {nt : NT V} {l : Level} (op : BinOp) (hl : op.level = l) {fuel lo : ℕ}
    {short : Prop} {pre : List (LexerToken V)} {a : Ast V} {t : LexerToken V} {p q p' : Parser}
    (hadv : rest lexer p = t :: rest lexer q) (ht : t.op = op.tok)
    (hpre : Derives (.chain l) pre a) (hnull : operand lexer l fuel q = .ok .null p') :
    Ends lexer nt (.chain l) pre lo short p
      (match l.ops.name op.dagOp p' with
        | .ok name p'' => reject ("invalid '" ++ name ++ "' operand") p''
        | .error e p'' => .error e p'') := by
  cases l with
  | multiplicative =>
      obtain ⟨name, hname⟩ := name_multiplicative op hl p'
      rw [hname]
      exact ends_reject _ p'
  | additive =>
      rw [name_additive op hl p']
      refine ⟨[], pre, t, rest lexer q, by rw [hadv]; rfl, .refl, ⟨a, hpre⟩, ?_, ?_⟩
      · rcases BinOp.of_additive hl with rfl | rfl
        · exact .inl ht
        · exact .inr ht
      · -- a term behind the operator would have been read, by completeness
        rintro ⟨ts, us, b, hq, hder, hstops⟩
        have hread : ReadsTo lexer us b (operand lexer .additive fuel q) :=
          hder.completes fuel q us hq hstops
        rw [hnull] at hread
        exact absurd hread.2 (by simp [Dag.ast])

/-- The loop starts behind the tokens `pre` of a chain, whose tree `a` the argument `d` stands
    for. -/
theorem Sound.tailLoop {l : Level} {w fuel : ℕ}
    (h : Sound lexer l.operand l.operand w fuel (operand lexer l fuel)) {lo : ℕ} (n : ℕ) :
    ∀ (pre : List (LexerToken V)) (a : Ast V) (d : Dag V) (p : Parser),
      Derives (.chain l) pre a → d.ast = some a → d.Fresh lo p.id → lo ≤ p.id →
      Follow l.operand (rest lexer p) →
      Ends lexer (.tail l a) (.chain l) pre lo
        (n ≤ (rest lexer p).length ∨ fuel + 8 < 8 * (rest lexer p).length + w) p
        (tailLoop lexer l.ops (operand lexer l fuel) n d d p) := by
  -- on the fuel of the loop, for every prefix of the chain that may have been read before
  induction n with
  | zero => intro pre a d p _ _ _ _ _; exact .inl (Nat.zero_le _)
  | succ n ih =>
      intro pre a d p hpre hast hfresh hlo hfollow
      by_cases hstop : Stops l (rest lexer p)
      · rw [tailLoop_stop n d d hstop]
        intro _
        refine ⟨⟨[], a, rfl, .stop l a, hast⟩, ?_, Nat.le_refl _, hfresh⟩
        rw [follow_tail_iff]
        exact (follow_chain_iff l _).2 ⟨hfollow, hstop⟩
      · obtain ⟨op, t, r, hl, hr, ht⟩ := exists_op_of_not_stops hstop
        subst hl
        have hmade : rest lexer p.made = t :: r := hr
        have hadv : rest lexer p = t :: rest lexer p.made.advance := by
          rw [rest_advance hmade, hr]
        rw [tailLoop_op n d d op rfl hr ht]
        refine (h p.made.advance).onDag (fun p' hnull => ?_) (fun right p' hread => ?_)
          (fun hd => ?_) (fun hf => ?_)
        · exact ends_badOperand op rfl hadv ht hpre hnull
        · obtain ⟨ts, b, hts, hder, hright⟩ := hread.derives
          have hle : p.id + 1 ≤ p'.id := hread.id_le
          have hlen : (rest lexer p).length = 1 + ts.length + (rest lexer p').length := by
            rw [hadv, hts]
            simp
            omega
          have hnext := ih (pre ++ t :: ts) (.bin op a b)
            (.node op.dagOp (p.id + 1) 0 d right) p' (hpre.chain_snoc op rfl t ht hder)
            (Dag.ast_bin op _ _ hast hright)
            (hfresh.node op.dagOp 0 hread.fresh hlo hle) (by omega) hread.follow
          refine hnext.onDag (fun p'' _ => ends_reject _ p'') (fun d' p'' hread' => ?_)
            (fun hd => ?_) (fun hf => ?_)
          · -- the second iteration: the recursive call has read the whole tail, so it stops at once
            cases n with
            | zero =>
                left
                rw [hadv, List.length_cons]
                omega
            | succ n =>
                have hfollow' := (follow_tail_iff _ _ _).1 hread'.follow
                rw [tailLoop_stop n d d' hfollow'.stops]
                intro _
                obtain ⟨us, c, hus, hder', hast'⟩ := hread'.derives
                refine ⟨⟨t :: (ts ++ us), c, ?_, .step op t ts us a b c ht hder hder', hast'⟩,
                  (follow_tail_iff _ _ _).2 hfollow', by have := hread'.id_le; omega,
                  hread'.fresh⟩
                rw [hadv, hts, hus]
                simp
          · rw [hadv, hts]
            simpa using hd
          · omega
        · rw [hadv]
          have := hd.of_reach (.next op [] pre a t .refl hpre ht)
          simpa using this
        · right
          rw [hadv, List.length_cons]
          omega

/-- A chain: its first operand, then its tail with one unit of fuel less. -/
theorem sound_chain {l : Level} {w fuel : ℕ} (hw : 2 ≤ w)
    (h : ∀ k ≤ fuel, Sound lexer l.operand l.operand w k (operand lexer l k)) :
    Sound lexer (.chain l) (.chain l) (w + 2) (fuel + 1) (chain lexer l (fuel + 1)) := by
  intro p
  rw [chain_succ]
  refine (h fuel (Nat.le_refl _) p).onDag (fun p' _ h => absurd rfl h) (fun d p' hread => ?_)
    (fun hd => ?_) (fun hf => by omega)
  · obtain ⟨ts, a, hts, hder, hast⟩ := hread.derives
    have hlen : (rest lexer p).length = ts.length + (rest lexer p').length := by
      rw [hts, List.length_append]
    cases fuel with
    | zero =>
        have hzero : tail lexer l 0 d p' = .error .outOfFuel p' := by cases l <;> rfl
        rw [hzero]
        show 0 + 1 < _
        omega
    | succ k =>
        rw [tail_succ, ← Outcome.onDag_self (tailLoop _ _ _ _ _ _ _)]
        refine ((h k (Nat.le_succ k)).tailLoop k ts a d p' hder.chain_of_operand hast hread.fresh
          hread.id_le hread.follow).onDag (fun p'' _ h => absurd rfl h)
          (fun d' p'' hread' _ => ?_) (fun hd => ?_) (fun hf => by omega)
        · obtain ⟨us, b, hus, hder', hast'⟩ := hread'.derives
          refine ⟨⟨ts ++ us, b, ?_, .chain l ts us a b hder hder', hast'⟩,
            (follow_tail_iff _ _ _).1 hread'.follow, Nat.le_trans hread.id_le hread'.id_le,
            hread'.fresh⟩
          rw [hts, hus, List.append_assoc]
        · rw [hts]
          exact hd
  · exact hd.of_reach (q := []) (.first l [] .refl)

/-! ## All calls -/

/-- All functions of the grammar, called with this much fuel. -/
structure AllSound (lexer : Lexer V) (fuel : ℕ) : Prop where
  primary : Sound lexer .primary .unary 1 fuel (exprPrimary lexer fuel)
  unary : Sound lexer .unary .unary 2 fuel (exprUnary lexer fuel)
  term : Sound lexer .term .term 4 fuel (exprMultiplicative lexer fuel)
  additive : Sound lexer .expr .expr 6 fuel (exprAdditive lexer fuel)
  expr : Sound lexer .expr .expr 7 fuel (expr lexer fuel)

theorem allSound_zero : AllSound lexer 0 := by
  constructor <;> intro p <;> show 0 < _ <;> omega

theorem allSound_succ {fuel : ℕ} (h : ∀ k ≤ fuel, AllSound lexer k) :
    AllSound lexer (fuel + 1) where
  primary := sound_exprPrimary (h fuel (Nat.le_refl _)).expr
  unary := sound_exprUnary (h fuel (Nat.le_refl _)).unary (h fuel (Nat.le_refl _)).primary
  term := sound_chain (l := .multiplicative) (Nat.le_refl _) fun k hk => (h k hk).unary
  additive := sound_chain (l := .additive) (by omega) fun k hk => (h k hk).term
  expr := by
    intro p
    rw [expr_succ, ← Outcome.onDag_self (chain _ _ _ _)]
    exact ((h fuel (Nat.le_refl _)).additive p).onDag (fun p' _ h => absurd rfl h)
      (fun d p' hread _ => hread) id (fun hf => by omega)

/-- **Soundness**, with any fuel. -/
theorem allSound (lexer : Lexer V) (fuel : ℕ) : AllSound lexer fuel := by
  -- strong: a chain calls its operands with two amounts of fuel
  induction fuel using Nat.strongRecOn with
  | ind fuel ih =>
      cases fuel with
      | zero => exact allSound_zero
      | succ fuel => exact allSound_succ fun k hk => ih k (Nat.lt_succ_of_le hk)

end CS238P.Calc
