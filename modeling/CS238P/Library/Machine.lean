import Mathlib.Data.Nat.Notation

set_option autoImplicit false

/-! # Machines

A step that goes wrong has no result. `after` is the state of a machine after so many steps, and a
relation to the states of a machine that cannot go wrong is kept by whole runs if every step keeps it
(`after_simulates`).

A machine that answers takes inputs one by one, answers each and may stop with an answer. `run` is
its run on a list of inputs. `runSpec` is the run of a machine that cannot go wrong, which says what
the answers should be. A relation between the states that every step keeps, with the same answer on
both sides, is kept by whole runs (`run_refines`). -/

namespace Machine

variable {σ τ ι ω : Type}

/-! ## Steps -/

/-- The state after so many steps. -/
def after (step : σ → Option σ) (s : σ) : ℕ → Option σ
  | 0 => some s
  | k + 1 => do
      let s ← after step s k
      step s

/-- The same for a machine that cannot go wrong. -/
def afterSpec (spec : τ → τ) (t : τ) : ℕ → τ
  | 0 => t
  | k + 1 => spec (afterSpec spec t k)

/-- **A run is simulated** by one whose steps simulate its steps, as long as the states of that are
    good. -/
theorem after_simulates {step : σ → Option σ} {spec : τ → τ} {R : τ → σ → Prop} {good : τ → Prop}
    (hstep : ∀ t s, R t s → good t → ∃ s', step s = some s' ∧ R (spec t) s') {t : τ} {s : σ}
    (h : R t s) (k : ℕ) (hgood : ∀ j < k, good (afterSpec spec t j)) :
    ∃ s', after step s k = some s' ∧ R (afterSpec spec t k) s' := by
  induction k with
  | zero => exact ⟨s, rfl, h⟩
  | succ k ih =>
      obtain ⟨s₁, hs₁, h₁⟩ := ih fun j hj => hgood j (Nat.lt_succ_of_lt hj)
      obtain ⟨s', hs', h'⟩ := hstep _ _ h₁ (hgood k (Nat.lt_succ_self k))
      exact ⟨s', by rw [after, hs₁]; exact hs', h'⟩

/-! ## Answers -/

/-- The state behind a run, and the answers. -/
def run (step : σ → ι → Option (σ × ω)) (stops : ω → Bool) : σ → List ι → Option (σ × List ω)
  | s, [] => some (s, [])
  | s, i :: is => do
      let (s, o) ← step s i
      if stops o then some (s, [o])
      else do
        let (s, os) ← run step stops s is
        some (s, o :: os)

def runSpec (spec : τ → ι → τ × ω) (stops : ω → Bool) : τ → List ι → τ × List ω
  | t, [] => (t, [])
  | t, i :: is =>
      if stops (spec t i).2 then ((spec t i).1, [(spec t i).2])
      else
        let r := runSpec spec stops (spec t i).1 is
        (r.1, (spec t i).2 :: r.2)

variable {step : σ → ι → Option (σ × ω)} {spec : τ → ι → τ × ω} {stops : ω → Bool}
  {R : σ → τ → Prop} {ok : ι → Prop}

/-- **A run answers as the specification does**, if every step does. -/
theorem run_refines
    (hstep : ∀ s t i, R s t → ok i → ∃ s', step s i = some (s', (spec t i).2) ∧ R s' (spec t i).1) :
    ∀ (is : List ι) (s : σ) (t : τ), R s t → (∀ i ∈ is, ok i) →
      ∃ s', run step stops s is = some (s', (runSpec spec stops t is).2) ∧
        R s' (runSpec spec stops t is).1 := by
  intro is
  induction is with
  | nil =>
      intro s t h _
      exact ⟨s, rfl, h⟩
  | cons i is ih =>
      intro s t h hok
      obtain ⟨hi, his⟩ := List.forall_mem_cons.1 hok
      obtain ⟨s₁, hs, h₁⟩ := hstep s t i h hi
      rw [run, runSpec, hs]
      by_cases hstop : stops (spec t i).2
      · exact ⟨s₁, by simp [hstop], by simpa [hstop] using h₁⟩
      · obtain ⟨s', hrun, h'⟩ := ih s₁ (spec t i).1 h₁ his
        exact ⟨s', by simp [hstop, hrun], by simpa [hstop] using h'⟩

end Machine
