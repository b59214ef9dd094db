import CS238P.Library.Wp

set_option autoImplicit false

/-! # Two runs in step

`Sync R Q x y s t`: run from `s` and `t`, the programs `x` and `y` end in the same way. Both return,
in values that `Q` relates, or both raise the same error, and `R` relates the states they end in.
`Sync.bind` hands on what the two first parts ended in, so that what a `wp` says of each run alone
can be used for what follows. -/

variable {ε σ τ α β γ δ : Type}

def Sync (R : σ → τ → Prop) (Q : α → β → Prop) (x : EStateM ε σ α) (y : EStateM ε τ β) (s : σ)
    (t : τ) : Prop :=
  match x s, y t with
  | .ok a s', .ok b t' => Q a b ∧ R s' t'
  | .error e s', .error e' t' => e = e' ∧ R s' t'
  | _, _ => False

namespace Sync

variable {R : σ → τ → Prop} {Q : α → β → Prop} {x : EStateM ε σ α} {y : EStateM ε τ β} {s : σ}
  {t : τ}

theorem ok (h : Sync R Q x y s t) {a : α} {s' : σ} (hx : x s = .ok a s') :
    ∃ b t', y t = .ok b t' ∧ Q a b ∧ R s' t' := by
  unfold Sync at h
  rw [hx] at h
  cases hy : y t with
  | ok b t' =>
      rw [hy] at h
      exact ⟨b, t', rfl, h⟩
  | error e t' =>
      rw [hy] at h
      exact h.elim

theorem error (h : Sync R Q x y s t) {e : ε} {s' : σ} (hx : x s = .error e s') :
    ∃ t', y t = .error e t' ∧ R s' t' := by
  unfold Sync at h
  rw [hx] at h
  cases hy : y t with
  | ok b t' =>
      rw [hy] at h
      exact h.elim
  | error e' t' =>
      rw [hy] at h
      exact ⟨t', by rw [h.1], h.2⟩

theorem of_ok {a : α} {b : β} {s' : σ} {t' : τ} (hx : x s = .ok a s') (hy : y t = .ok b t')
    (hQ : Q a b) (hR : R s' t') : Sync R Q x y s t := by
  unfold Sync
  rw [hx, hy]
  exact ⟨hQ, hR⟩

theorem of_error {e : ε} {s' : σ} {t' : τ} (hx : x s = .error e s') (hy : y t = .error e t')
    (hR : R s' t') : Sync R Q x y s t := by
  unfold Sync
  rw [hx, hy]
  exact ⟨rfl, hR⟩

theorem pure {a : α} {b : β} (hQ : Q a b) (hR : R s t) :
    Sync R Q (pure a : EStateM ε σ α) (pure b : EStateM ε τ β) s t := ⟨hQ, hR⟩

theorem throw {e : ε} (hR : R s t) :
    Sync R Q (throw e : EStateM ε σ α) (throw e : EStateM ε τ β) s t := ⟨rfl, hR⟩

/-- What is known of the two runs when both return, and of the states they end in. -/
theorem mono {R' : σ → τ → Prop} {Q' : α → β → Prop} (h : Sync R Q x y s t)
    (hQ : ∀ a b s' t', x s = .ok a s' → y t = .ok b t' → Q a b → Q' a b)
    (hR : ∀ s' t', R s' t' → R' s' t') : Sync R' Q' x y s t := by
  cases hx : x s with
  | ok a s' =>
      obtain ⟨b, t', hy, hab, hst⟩ := h.ok hx
      exact of_ok hx hy (hQ a b s' t' hx hy hab) (hR s' t' hst)
  | error e s' =>
      obtain ⟨t', hy, hst⟩ := h.error hx
      exact of_error hx hy (hR s' t' hst)

/-- What each of the two programs says of its own state is known as well. -/
theorem frame {P : σ → Prop} {P' : τ → Prop} (h : Sync R Q x y s t)
    (hx : wp x (fun _ s' => P s') (fun _ s' => P s') s)
    (hy : wp y (fun _ t' => P' t') (fun _ t' => P' t') t) :
    Sync (fun s t => R s t ∧ P s ∧ P' t) Q x y s t := by
  cases hxs : x s with
  | ok a s' =>
      obtain ⟨b, t', hyt, hab, hR⟩ := h.ok hxs
      exact of_ok hxs hyt hab ⟨hR, hx.ok hxs, hy.ok hyt⟩
  | error e s' =>
      obtain ⟨t', hyt, hR⟩ := h.error hxs
      exact of_error hxs hyt ⟨hR, hx.error hxs, hy.error hyt⟩

theorem bind {f : α → EStateM ε σ γ} {g : β → EStateM ε τ δ} {Q' : γ → δ → Prop}
    (h : Sync R Q x y s t)
    (hf : ∀ a b s' t', x s = .ok a s' → y t = .ok b t' → Q a b → R s' t' →
      Sync R Q' (f a) (g b) s' t') : Sync R Q' (x >>= f) (y >>= g) s t := by
  show Sync R Q' (EStateM.bind x f) (EStateM.bind y g) s t
  cases hx : x s with
  | ok a s' =>
      obtain ⟨b, t', hy, hab, hR⟩ := h.ok hx
      have hrest := hf a b s' t' hx hy hab hR
      unfold Sync EStateM.bind at *
      rw [hx, hy]
      exact hrest
  | error e s' =>
      obtain ⟨t', hy, hR⟩ := h.error hx
      unfold Sync EStateM.bind
      rw [hx, hy]
      exact ⟨rfl, hR⟩

/-- The two programs branch alike. -/
theorem ite {c d : Prop} [Decidable c] [Decidable d] {x' : EStateM ε σ α} {y' : EStateM ε τ β}
    (hcd : c ↔ d) (hpos : c → Sync R Q x y s t) (hneg : ¬ c → Sync R Q x' y' s t) :
    Sync R Q (if c then x else x') (if d then y else y') s t := by
  by_cases hc : c
  · rw [if_pos hc, if_pos (hcd.1 hc)]
    exact hpos hc
  · rw [if_neg hc, if_neg (mt hcd.2 hc)]
    exact hneg hc

theorem bind_get {f : σ → EStateM ε σ γ} {g : τ → EStateM ε τ δ} {Q : γ → δ → Prop}
    (h : Sync R Q (f s) (g t) s t) :
    Sync R Q (MonadState.get >>= f) (MonadState.get >>= g) s t := h

theorem bind_modify {f : σ → σ} {g : τ → τ} {x : Unit → EStateM ε σ γ} {y : Unit → EStateM ε τ δ}
    {Q : γ → δ → Prop} (h : Sync R Q (x ()) (y ()) (f s) (g t)) :
    Sync R Q (modify f >>= x) (modify g >>= y) s t := h

theorem modifyState {f : σ → σ} {g : τ → τ} (hR : R (f s) (g t)) :
    Sync R (fun _ _ => True) (modify f : EStateM ε σ Unit) (modify g : EStateM ε τ Unit) s t :=
  ⟨trivial, hR⟩

end Sync
