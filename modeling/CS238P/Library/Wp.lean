set_option autoImplicit false

/-! # Pre- and postconditions for programs with a state and errors

`wp x Q E s`: run from `s`, the program `x` returns in a state that satisfies `Q`, or raises in one
that satisfies `E`. A contract of a function is a `wp` of it, and `wp.bind` composes contracts. -/

variable {ε σ α β : Type}

/-- The weakest precondition of `x`, with a postcondition for each way to end. -/
def wp (x : EStateM ε σ α) (Q : α → σ → Prop) (E : ε → σ → Prop) (s : σ) : Prop :=
  match x s with
  | .ok a s' => Q a s'
  | .error e s' => E e s'

/-- `for (i = 0; i < n; ++i)`. The turns hand a value on. -/
def EStateM.upTo (body : Nat → β → EStateM ε σ β) (b : β) : Nat → EStateM ε σ β
  | 0 => pure b
  | n + 1 => do
      let b ← upTo body b n
      body n b

namespace wp

variable {x : EStateM ε σ α} {Q Q' : α → σ → Prop} {E E' : ε → σ → Prop} {s : σ}

theorem ok (h : wp x Q E s) {a : α} {s' : σ} (hx : x s = .ok a s') : Q a s' := by
  unfold wp at h
  rwa [hx] at h

theorem error (h : wp x Q E s) {e : ε} {s' : σ} (hx : x s = .error e s') : E e s' := by
  unfold wp at h
  rwa [hx] at h

theorem mono (h : wp x Q E s) (hQ : ∀ a s', Q a s' → Q' a s') (hE : ∀ e s', E e s' → E' e s') :
    wp x Q' E' s := by
  unfold wp at *
  cases hx : x s with
  | ok a s' => rw [hx] at h; exact hQ a s' h
  | error e s' => rw [hx] at h; exact hE e s' h

/-- Two contracts of one program. -/
theorem and (h : wp x Q E s) (h' : wp x Q' E' s) :
    wp x (fun a s' => Q a s' ∧ Q' a s') (fun e s' => E e s' ∧ E' e s') s := by
  unfold wp at *
  cases hx : x s with
  | ok a s' => rw [hx] at h h'; exact ⟨h, h'⟩
  | error e s' => rw [hx] at h h'; exact ⟨h, h'⟩

/-- A program whose result is known. -/
theorem of_ok {a : α} {s' : σ} (hx : x s = .ok a s') (h : Q a s') : wp x Q E s := by
  unfold wp
  rwa [hx]

/-- Something is said of every run that returns. -/
theorem of_returns (h : ∀ a s', x s = .ok a s' → Q a s') : wp x Q (fun _ _ => True) s := by
  unfold wp
  cases hx : x s with
  | ok a s' => exact h a s' hx
  | error e s' => exact True.intro

/-- Nothing is said of how a program ends. -/
theorem trivial (x : EStateM ε σ α) (s : σ) : wp x (fun _ _ => True) (fun _ _ => True) s := by
  unfold wp
  cases x s with
  | ok a s' => exact True.intro
  | error e s' => exact True.intro

/-- A program that raises nothing returns. -/
theorem returns (h : wp x Q (fun _ _ => False) s) : ∃ a s', x s = .ok a s' ∧ Q a s' := by
  unfold wp at h
  cases hx : x s with
  | ok a s' => rw [hx] at h; exact ⟨a, s', rfl, h⟩
  | error e s' => rw [hx] at h; exact absurd h id

theorem throw {e : ε} (h : E e s) : wp (throw e : EStateM ε σ α) Q E s := h

theorem bind {f : α → EStateM ε σ β} {Q : β → σ → Prop}
    (h : wp x (fun a s' => wp (f a) Q E s') E s) : wp (x >>= f) Q E s := by
  unfold wp at h ⊢
  show match EStateM.bind x f s with | .ok a s' => Q a s' | .error e s' => E e s'
  unfold EStateM.bind
  cases hx : x s with
  | ok a s' => rw [hx] at h; exact h
  | error e s' => rw [hx] at h; exact h

theorem getState {Q : σ → σ → Prop} (h : Q s s) : wp (MonadState.get : EStateM ε σ σ) Q E s := h

theorem modifyState {f : σ → σ} {Q : Unit → σ → Prop} (h : Q () (f s)) :
    wp (modify f : EStateM ε σ Unit) Q E s := h

/-- A loop keeps its invariant. -/
theorem upTo {body : Nat → β → EStateM ε σ β} {I : Nat → β → σ → Prop} {b : β} {n : Nat}
    (h : I 0 b s) (hstep : ∀ i < n, ∀ b s, I i b s → wp (body i b) (I (i + 1)) E s) :
    wp (EStateM.upTo body b n) (I n) E s := by
  induction n with
  | zero => exact h
  | succ n ih =>
      rw [EStateM.upTo]
      exact wp.bind ((ih fun i hi => hstep i (by omega)).mono (fun b s => hstep n (by omega) b s)
        fun _ _ h => h)

end wp
