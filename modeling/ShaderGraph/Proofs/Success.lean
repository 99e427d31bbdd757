/-
  ShaderGraph.Proofs.Success — what is known of an attempt that succeeded.

  An attempt that gives a result went through all of its steps. Each lemma takes one way of
  composing attempts apart; `simp` with them turns a success into the successes of the parts.
-/

import ShaderGraph.Attempt

namespace ShaderGraph.Attempt

variable {σ τ ε δ α β : Type} {s s' : σ}

@[simp] theorem bind_eq_ok {x : Attempt σ ε α} {f : α → Attempt σ ε β} {b : β} :
    (x >>= f) s = (.ok b, s') ↔ ∃ a s₁, x s = (.ok a, s₁) ∧ f a s₁ = (.ok b, s') := by
  rw [run_bind]
  constructor
  · intro h
    split at h
    · next a s₁ hx => exact ⟨a, s₁, hx, h⟩
    · cases h
  · rintro ⟨a, s₁, hx, hf⟩
    rw [hx]
    exact hf

@[simp] theorem pure_eq_ok {a b : α} :
    (pure a : Attempt σ ε α) s = (.ok b, s') ↔ a = b ∧ s = s' := by
  constructor
  · intro h
    cases h
    exact ⟨rfl, rfl⟩
  · rintro ⟨rfl, rfl⟩
    rfl

@[simp] theorem throw_ne_ok {e : ε} {a : α} :
    (throw e : Attempt σ ε α) s ≠ (.ok a, s') := by
  intro h
  cases h

@[simp] theorem get_eq_ok {a : σ} : (get : Attempt σ ε σ) s = (.ok a, s') ↔ s = a ∧ s = s' := by
  constructor
  · intro h
    cases h
    exact ⟨rfl, rfl⟩
  · rintro ⟨rfl, rfl⟩
    rfl

@[simp] theorem modify_eq_ok {f : σ → σ} {u : Unit} :
    (modify f : Attempt σ ε Unit) s = (.ok u, s') ↔ f s = s' := by
  constructor
  · intro h
    cases h
    rfl
  · rintro rfl
    rfl

@[simp] theorem ofExcept_eq_ok {r : Except ε α} {a : α} :
    (ofExcept r : Attempt σ ε α) s = (.ok a, s') ↔ r = .ok a ∧ s = s' := by
  constructor
  · intro h
    cases h
    exact ⟨rfl, rfl⟩
  · rintro ⟨rfl, rfl⟩
    rfl

/-! ## Results without a state -/

theorem except_bind_eq_ok {x : Except ε α} {f : α → Except ε β} {b : β} :
    (x >>= f) = .ok b ↔ ∃ a, x = .ok a ∧ f a = .ok b := by
  cases x with
  | error e => simp [bind, Except.bind]
  | ok a => simp [bind, Except.bind]

theorem except_pure_eq_ok {a b : α} : (pure a : Except ε α) = .ok b ↔ a = b := by
  simp [pure, Except.pure]

/-- What each step of a fold keeps, a fold that succeeds keeps. -/
theorem except_foldlM_invariant {f : β → α → Except ε β} {P : β → Prop} {as : List α} {b b' : β}
    (step : ∀ a ∈ as, ∀ b b', P b → f b a = .ok b' → P b') (hb : P b)
    (h : as.foldlM f b = .ok b') : P b' := by
  induction as generalizing b with
  | nil =>
    obtain rfl := except_pure_eq_ok.mp h
    exact hb
  | cons a as ih =>
    rw [List.foldlM_cons] at h
    obtain ⟨b₁, ha, h⟩ := except_bind_eq_ok.mp h
    refine ih (fun c hc => step c (List.mem_cons_of_mem a hc)) ?_ h
    exact step a List.mem_cons_self b b₁ hb ha

/-- What each result of a successful pass has, all of them have. -/
theorem except_mapM_forall {f : α → Except ε β} {P : β → Prop} {as : List α} {bs : List β}
    (step : ∀ a b, f a = .ok b → P b) (h : as.mapM f = .ok bs) : ∀ b ∈ bs, P b := by
  induction as generalizing bs with
  | nil =>
    obtain rfl := except_pure_eq_ok.mp h
    exact fun b hb => absurd hb List.not_mem_nil
  | cons a as ih =>
    rw [List.mapM_cons] at h
    obtain ⟨b, hb, h⟩ := except_bind_eq_ok.mp h
    obtain ⟨bs', hbs, h⟩ := except_bind_eq_ok.mp h
    obtain rfl := except_pure_eq_ok.mp h
    intro c hc
    rcases List.mem_cons.mp hc with rfl | hc
    · exact step a c hb
    · exact ih hbs c hc

/-! ## Faults told in other words, states in part -/

@[simp] theorem mapError_ok_iff {f : ε → δ} {r : Except ε α} {a : α} :
    r.mapError f = .ok a ↔ r = .ok a := by
  cases r with
  | error e => exact iff_of_false (fun h => nomatch h) fun h => nomatch h
  | ok b =>
    constructor
    · intro h
      cases h
      rfl
    · intro h
      cases h
      rfl

@[simp] theorem mapError_eq_ok {f : ε → δ} {x : Attempt σ ε α} {a : α} :
    x.mapError f s = (.ok a, s') ↔ x s = (.ok a, s') := by
  simp only [mapError]
  rw [Prod.ext_iff, Prod.ext_iff]
  simp only [mapError_ok_iff]

@[simp] theorem onPart_eq_ok {part : σ → τ} {put : σ → τ → σ} {x : Attempt τ ε α} {a : α} :
    x.onPart part put s = (.ok a, s') ↔ ∃ t, x (part s) = (.ok a, t) ∧ put s t = s' := by
  simp only [onPart]
  constructor
  · intro h
    rw [Prod.ext_iff] at h
    exact ⟨(x (part s)).2, Prod.ext h.1 rfl, h.2⟩
  · rintro ⟨t, hx, rfl⟩
    rw [hx]

end ShaderGraph.Attempt
