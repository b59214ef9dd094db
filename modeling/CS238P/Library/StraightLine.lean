import Mathlib.Logic.Function.Basic

set_option autoImplicit false

/-! # Straight-line programs

A list of declarations `x := r`, run in order. Right-hand sides are anything with an evaluation that
may fail (it reads a name that is not declared); declaring a name twice fails too.

`Computes p xs x v` is the contract of a program fragment that may be put after any other: from an
environment in which none of the names `xs` is declared it runs to the end, leaves `v` in `x` and
touches no name outside `xs`. Its rules build the contract of an expression's code from those of its
subexpressions.

`DeclaredFirst` says the same of the text alone: no declaration uses a name before its declaration. -/

namespace StraightLine

variable {ι R V : Type} [DecidableEq ι]

/-- What each declared name holds. -/
abbrev Env (ι V : Type) := ι → Option V

/-- Nothing is declared. -/
def Env.empty : Env ι V := fun _ => none

/-- Declares `x`, which must be new. -/
def Env.declare (env : Env ι V) (x : ι) (v : V) : Option (Env ι V) :=
  if (env x).isSome then none else some (Function.update env x (some v))

theorem Env.declare_of_none {env : Env ι V} {x : ι} (h : env x = none) (v : V) :
    env.declare x v = some (Function.update env x (some v)) := by
  unfold Env.declare
  rw [h, if_neg (by simp)]

/-- Runs a program. -/
def exec (eval : R → Env ι V → Option V) : List (ι × R) → Env ι V → Option (Env ι V)
  | [], env => some env
  | (x, r) :: p, env =>
      match eval r env with
      | none => none
      | some v => (env.declare x v).bind (exec eval p)

variable {eval : R → Env ι V → Option V}

theorem exec_append (p q : List (ι × R)) (env : Env ι V) :
    exec eval (p ++ q) env = (exec eval p env).bind (exec eval q) := by
  induction p generalizing env with
  | nil => rfl
  | cons d p ih =>
      obtain ⟨x, r⟩ := d
      simp only [List.cons_append, exec]
      cases eval r env with
      | none => rfl
      | some v =>
          show (env.declare x v).bind _ = ((env.declare x v).bind _).bind _
          cases env.declare x v with
          | none => rfl
          | some env' => exact ih env'

/-- One declaration whose name is new and whose right-hand side has a value. -/
theorem exec_single {r : R} {env : Env ι V} {x : ι} {v : V} (hr : eval r env = some v)
    (hx : env x = none) : exec eval [(x, r)] env = some (Function.update env x (some v)) := by
  simp only [exec, hr, Env.declare_of_none hx]
  rfl

/-- The fragment `p` puts `v` into `x`; it may be run wherever the names `xs` are free. -/
def Computes (eval : R → Env ι V → Option V) (p : List (ι × R)) (xs : List ι) (x : ι) (v : V) :
    Prop :=
  ∀ env : Env ι V, (∀ i ∈ xs, env i = none) →
    ∃ env', exec eval p env = some env' ∧ env' x = some v ∧ ∀ i, i ∉ xs → env' i = env i

theorem Computes.leaf {z : ι} {r : R} {u : V} (hr : ∀ env, eval r env = some u) :
    Computes eval [(z, r)] [z] z u := by
  intro env hfree
  refine ⟨_, exec_single (hr env) (hfree z (by simp)), Function.update_self z _ env, ?_⟩
  intro i hi
  exact Function.update_of_ne (fun h => hi (by simp [h])) _ _

theorem Computes.unary {p : List (ι × R)} {xs : List ι} {x z : ι} {r : R} {v u : V}
    (hp : Computes eval p xs x v) (hz : z ∉ xs)
    (hr : ∀ env, env x = some v → eval r env = some u) :
    Computes eval (p ++ [(z, r)]) (z :: xs) z u := by
  intro env hfree
  obtain ⟨env', hexec, hx, hframe⟩ := hp env fun i hi => hfree i (List.mem_cons_of_mem _ hi)
  have hz' : env' z = none := by
    rw [hframe z hz]
    exact hfree z (by simp)
  refine ⟨_, ?_, Function.update_self z (some u) env', ?_⟩
  · rw [exec_append, hexec]
    exact exec_single (hr env' hx) hz'
  · intro i hi
    rw [List.mem_cons, not_or] at hi
    rw [Function.update_of_ne hi.1, hframe i hi.2]

/-- Two fragments one after the other: what the first left is still there at the end. -/
theorem Computes.seq {p q : List (ι × R)} {xs ys : List ι} {x y : ι} {v w : V}
    (hp : Computes eval p xs x v) (hq : Computes eval q ys y w) (hx : x ∉ ys)
    (hdisj : ∀ i ∈ xs, i ∉ ys) {env : Env ι V} (hfree : ∀ i ∈ xs ++ ys, env i = none) :
    ∃ env', exec eval (p ++ q) env = some env' ∧ env' x = some v ∧ env' y = some w ∧
      ∀ i, i ∉ xs ++ ys → env' i = env i := by
  obtain ⟨env₁, hexec₁, hx₁, hframe₁⟩ := hp env fun i hi => hfree i (List.mem_append_left _ hi)
  have hfree₁ : ∀ i ∈ ys, env₁ i = none := fun i hi => by
    rw [hframe₁ i fun hxs => hdisj i hxs hi]
    exact hfree i (List.mem_append_right _ hi)
  obtain ⟨env₂, hexec₂, hy₂, hframe₂⟩ := hq env₁ hfree₁
  refine ⟨env₂, ?_, by rw [hframe₂ x hx, hx₁], hy₂, fun i hi => ?_⟩
  · rw [exec_append, hexec₁]
    exact hexec₂
  · rw [List.mem_append, not_or] at hi
    rw [hframe₂ i hi.2, hframe₁ i hi.1]

theorem Computes.binary {p q : List (ι × R)} {xs ys : List ι} {x y z : ι} {r : R} {v w u : V}
    (hp : Computes eval p xs x v) (hq : Computes eval q ys y w) (hx : x ∈ xs)
    (hdisj : ∀ i ∈ xs, i ∉ ys) (hz : z ∉ xs ++ ys)
    (hr : ∀ env, env x = some v → env y = some w → eval r env = some u) :
    Computes eval (p ++ q ++ [(z, r)]) (z :: (xs ++ ys)) z u := by
  intro env hfree
  obtain ⟨env', hexec, hx', hy', hframe⟩ :=
    hp.seq hq (hdisj x hx) hdisj fun i hi => hfree i (List.mem_cons_of_mem _ hi)
  have hz' : env' z = none := by
    rw [hframe z hz]
    exact hfree z (by simp)
  refine ⟨_, ?_, Function.update_self z (some u) env', ?_⟩
  · rw [exec_append, hexec]
    exact exec_single (hr env' hx' hy') hz'
  · intro i hi
    rw [List.mem_cons, not_or] at hi
    rw [Function.update_of_ne hi.1, hframe i hi.2]

theorem exec_map_right {S : Type} (g : S → R) (p : List (ι × S)) (env : Env ι V) :
    exec eval (p.map (Prod.map id g)) env = exec (fun s => eval (g s)) p env := by
  induction p generalizing env with
  | nil => rfl
  | cons d p ih =>
      obtain ⟨x, s⟩ := d
      simp only [List.map_cons, Prod.map, id, exec]
      cases eval (g s) env with
      | none => rfl
      | some v => exact Option.bind_congr fun env' _ => ih env'

/-- A program whose names are replaced one by one, with right-hand sides that have the values they
    had, leaves what it left. Other names are not touched. -/
theorem exec_map {κ S : Type} [DecidableEq κ] {f : ι → κ} (hf : Function.Injective f) {g : R → S}
    {eval' : S → Env κ V → Option V} (p : List (ι × R))
    (heval : ∀ d ∈ p, ∀ env env' v, (∀ i, env' (f i) = env i) → eval d.2 env = some v →
      eval' (g d.2) env' = some v)
    {env env₁ : Env ι V} {env' : Env κ V} (henv : ∀ i, env' (f i) = env i)
    (hexec : exec eval p env = some env₁) :
    ∃ env₁', exec eval' (p.map (Prod.map f g)) env' = some env₁' ∧ (∀ i, env₁' (f i) = env₁ i) ∧
      ∀ y, (∀ i, f i ≠ y) → env₁' y = env' y := by
  induction p generalizing env env' with
  | nil =>
      cases hexec
      exact ⟨env', rfl, henv, fun _ _ => rfl⟩
  | cons d p ih =>
      obtain ⟨x, r⟩ := d
      simp only [exec] at hexec
      split at hexec
      · cases hexec
      rename_i v hv
      obtain ⟨env₂, hdeclare, hrest⟩ := Option.bind_eq_some_iff.1 hexec
      have hx : env x = none := by
        cases hx : env x with
        | none => rfl
        | some u =>
            rw [Env.declare, hx] at hdeclare
            cases hdeclare
      rw [Env.declare_of_none hx] at hdeclare
      obtain rfl := Option.some.inj hdeclare
      have hstep : ∀ i, Function.update env' (f x) (some v) (f i) =
          Function.update env x (some v) i := by
        intro i
        by_cases hi : i = x
        · rw [hi, Function.update_self, Function.update_self]
        · rw [Function.update_of_ne hi, Function.update_of_ne (fun h => hi (hf h)), henv]
      obtain ⟨hhead, htail⟩ := List.forall_mem_cons.1 heval
      obtain ⟨env₁', hexec', hval, hframe⟩ := ih htail hstep hrest
      refine ⟨env₁', ?_, hval, fun y hy => ?_⟩
      · simp only [List.map_cons, Prod.map, exec, hhead env env' v henv hv,
          Env.declare_of_none ((henv x).trans hx), Option.bind_some, hexec']
      · rw [hframe y hy, Function.update_of_ne (hy x).symm]

/-! ## Declared before use -/

/-- The names a program declares, in order. -/
def names (p : List (ι × R)) : List ι := p.map Prod.fst

omit [DecidableEq ι] in
theorem names_append (p q : List (ι × R)) : names (p ++ q) = names p ++ names q :=
  List.map_append

/-- Every name a declaration uses is one of the names `known` at the start or is declared by an
    earlier declaration. -/
def DeclaredFirst (uses : R → List ι) : List ι → List (ι × R) → Prop
  | _, [] => True
  | known, (x, r) :: p => (∀ u ∈ uses r, u ∈ known) ∧ DeclaredFirst uses (known ++ [x]) p

section DeclaredFirst

omit [DecidableEq ι]

variable {uses : R → List ι} {known known' : List ι} {p q : List (ι × R)} {x : ι} {r : R}

theorem DeclaredFirst.mono (h : DeclaredFirst uses known p) (hsub : ∀ u ∈ known, u ∈ known') :
    DeclaredFirst uses known' p := by
  induction p generalizing known known' with
  | nil => trivial
  | cons d p ih =>
      obtain ⟨x, r⟩ := d
      refine ⟨fun u hu => hsub u (h.1 u hu), ih h.2 fun u hu => ?_⟩
      rcases List.mem_append.1 hu with hu | hu
      · exact List.mem_append_left _ (hsub u hu)
      · exact List.mem_append_right _ hu

theorem declaredFirst_append : DeclaredFirst uses known (p ++ q) ↔
    DeclaredFirst uses known p ∧ DeclaredFirst uses (known ++ names p) q := by
  induction p generalizing known with
  | nil => simp [DeclaredFirst, names]
  | cons d p ih =>
      obtain ⟨x, r⟩ := d
      have hnames : known ++ names ((x, r) :: p) = known ++ [x] ++ names p := by simp [names]
      rw [List.cons_append, DeclaredFirst, DeclaredFirst, ih, hnames, and_assoc]

/-- A declaration at the end may use what the program in front of it declares. -/
theorem DeclaredFirst.snoc (h : DeclaredFirst uses known p) (hr : ∀ u ∈ uses r, u ∈ names p) :
    DeclaredFirst uses known (p ++ [(x, r)]) :=
  declaredFirst_append.2 ⟨h, fun u hu => List.mem_append_right _ (hr u hu), trivial⟩

/-- Programs that use only their own names may stand one behind the other. -/
theorem DeclaredFirst.append (hp : DeclaredFirst uses [] p) (hq : DeclaredFirst uses [] q) :
    DeclaredFirst uses [] (p ++ q) :=
  declaredFirst_append.2 ⟨hp, hq.mono fun _ hu => absurd hu List.not_mem_nil⟩

end DeclaredFirst

end StraightLine
