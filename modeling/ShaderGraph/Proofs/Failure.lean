/-
  ShaderGraph.Proofs.Failure — what is known of an attempt that may have failed.

  A step that fails leaves the state where it got to. Four things can be said of a step
  before it is known how it ends, and each is told from the parts of the step:

  - `Along R`: the state after it is related to the state before it, fault or not.
  - `OnlyFaults P`: if it fails, `P` holds of the fault.
  - `Succeeds`: it does not fail.
  - `Atomic`: if it fails, the state is as it was. So it is of a step that succeeds, of one
    that fails at once, and of one that looks at the state and then goes on in such a way.
-/

import Mathlib.Order.RelClasses
import ShaderGraph.Proofs.Success

namespace ShaderGraph

def OnlyFaults {ε α : Type} (P : ε → Prop) (r : Except ε α) : Prop := ∀ e, r = .error e → P e

section

variable {ε δ α β : Type} {P Q : ε → Prop}

theorem onlyFaults_ok (a : α) : OnlyFaults P (.ok a : Except ε α) := fun _ h => nomatch h

theorem onlyFaults_error {e : ε} (h : P e) : OnlyFaults P (.error e : Except ε α) := by
  intro d hd
  cases hd
  exact h

theorem OnlyFaults.mono {r : Except ε α} (h : OnlyFaults P r) (hPQ : ∀ e, P e → Q e) :
    OnlyFaults Q r := fun e he => hPQ e (h e he)

theorem OnlyFaults.map {f : α → β} {r : Except ε α} (h : OnlyFaults P r) :
    OnlyFaults P (r.map f) := by
  cases r with
  | error e => exact onlyFaults_error (h e rfl)
  | ok a => exact onlyFaults_ok (f a)

theorem OnlyFaults.bind {r : Except ε α} {f : α → Except ε β} (hr : OnlyFaults P r)
    (hf : ∀ a, OnlyFaults P (f a)) : OnlyFaults P (r >>= f) := by
  cases r with
  | error e => exact onlyFaults_error (hr e rfl)
  | ok a => exact hf a

theorem OnlyFaults.mapError {R : δ → Prop} {f : ε → δ} {r : Except ε α} (h : OnlyFaults P r)
    (hf : ∀ e, P e → R (f e)) : OnlyFaults R (r.mapError f) := by
  cases r with
  | error e => exact onlyFaults_error (hf e (h e rfl))
  | ok a => exact onlyFaults_ok a

theorem onlyFaults_mapM {f : α → Except ε β} {as : List α} (h : ∀ a ∈ as, OnlyFaults P (f a)) :
    OnlyFaults P (as.mapM f) := by
  induction as with
  | nil => exact onlyFaults_ok _
  | cons a as ih =>
    rw [List.mapM_cons]
    refine (h a List.mem_cons_self).bind fun b => ?_
    exact (ih fun c hc => h c (List.mem_cons_of_mem a hc)).bind fun bs => onlyFaults_ok _

theorem onlyFaults_foldlM {f : β → α → Except ε β} {as : List α}
    (h : ∀ a ∈ as, ∀ b, OnlyFaults P (f b a)) (b : β) : OnlyFaults P (as.foldlM f b) := by
  induction as generalizing b with
  | nil => exact onlyFaults_ok _
  | cons a as ih =>
    rw [List.foldlM_cons]
    exact (h a List.mem_cons_self b).bind (ih fun c hc => h c (List.mem_cons_of_mem a hc))

end

end ShaderGraph

namespace ShaderGraph.Attempt

variable {σ τ ε δ α β : Type} {s s' : σ} {e : ε}

/-! ## Failures taken apart -/

theorem bind_eq_error {x : Attempt σ ε α} {f : α → Attempt σ ε β} :
    (x >>= f) s = (.error e, s') ↔
      x s = (.error e, s') ∨ ∃ a s₁, x s = (.ok a, s₁) ∧ f a s₁ = (.error e, s') := by
  rw [run_bind]
  constructor
  · intro h
    split at h
    · next a s₁ hx => exact Or.inr ⟨a, s₁, hx, h⟩
    · next d s₁ hx =>
      cases h
      exact Or.inl hx
  · rintro (hx | ⟨a, s₁, hx, hf⟩)
    · rw [hx]
    · rw [hx]
      exact hf

theorem ofExcept_eq_error {r : Except ε α} :
    (ofExcept r : Attempt σ ε α) s = (.error e, s') ↔ r = .error e ∧ s = s' := by
  rw [run_ofExcept, Prod.mk.injEq]

/-- Nothing comes after a fault. -/
theorem throw_bind (e : ε) (f : α → Attempt σ ε β) :
    ((throw e : Attempt σ ε α) >>= f) = throw e := rfl

/-! ## The state afterwards -/

/-- Whether the step succeeds or fails, the state after it is related to the one before it. -/
def Along (R : σ → σ → Prop) (x : Attempt σ ε α) : Prop := ∀ s, R s (x s).2

section

variable {R : σ → σ → Prop} {S : τ → τ → Prop}

theorem along_modify {f : σ → σ} (h : ∀ s, R s (f s)) : (modify f : Attempt σ ε Unit).Along R := h

section

variable [Std.Refl R]

theorem along_pure (a : α) : (pure a : Attempt σ ε α).Along R := fun s => refl_of R s

theorem along_throw (e : ε) : (throw e : Attempt σ ε α).Along R := fun s => refl_of R s

theorem along_get : (get : Attempt σ ε σ).Along R := fun s => refl_of R s

theorem along_ofExcept (r : Except ε α) : (ofExcept r : Attempt σ ε α).Along R :=
  fun s => refl_of R s

end

theorem Along.bind [IsTrans σ R] {x : Attempt σ ε α} {f : α → Attempt σ ε β}
    (hx : x.Along R) (hf : ∀ a, (f a).Along R) : (x >>= f).Along R := by
  intro s
  have hs := hx s
  rw [run_bind]
  split
  · next a s₁ h =>
    rw [h] at hs
    exact trans_of R hs (hf a s₁)
  · next e s₁ h =>
    rw [h] at hs
    exact hs

theorem Along.mapError {f : ε → δ} {x : Attempt σ ε α} (h : x.Along R) : (x.mapError f).Along R := h

/-- A step over a part of the state does to the part what it does. -/
theorem Along.onPart {part : σ → τ} {put : σ → τ → σ} {x : Attempt τ ε α} (h : x.Along S)
    (hput : ∀ s t, S (part s) t → R s (put s t)) : (x.onPart part put).Along R :=
  fun s => hput s _ (h (part s))

/-! ### Over lists -/

theorem along_mapM [IsPreorder σ R] {f : α → Attempt σ ε β} (h : ∀ a, (f a).Along R)
    (as : List α) : (as.mapM f).Along R := by
  induction as with
  | nil => exact along_pure _
  | cons a as ih =>
    rw [List.mapM_cons]
    exact (h a).bind fun b => ih.bind fun bs => along_pure _

theorem along_foldlM [IsPreorder σ R] {f : β → α → Attempt σ ε β} (h : ∀ b a, (f b a).Along R)
    (as : List α) (b : β) : (as.foldlM f b).Along R := by
  induction as generalizing b with
  | nil => exact along_pure _
  | cons a as ih =>
    rw [List.foldlM_cons]
    exact (h b a).bind ih

theorem along_forM [IsPreorder σ R] {f : α → Attempt σ ε PUnit} (h : ∀ a, (f a).Along R)
    (as : List α) : (as.forM f).Along R := by
  induction as with
  | nil => exact along_pure _
  | cons a as ih => exact (h a).bind fun _ => ih

end

/-! ## Which faults there are -/

def OnlyFaults (P : ε → Prop) (x : Attempt σ ε α) : Prop := ∀ s, ShaderGraph.OnlyFaults P (x s).1

section

variable {P Q : ε → Prop}

theorem onlyFaults_pure (a : α) : (pure a : Attempt σ ε α).OnlyFaults P :=
  fun _ => ShaderGraph.onlyFaults_ok a

theorem onlyFaults_throw {e : ε} (h : P e) : (throw e : Attempt σ ε α).OnlyFaults P :=
  fun _ => onlyFaults_error h

theorem onlyFaults_get : (get : Attempt σ ε σ).OnlyFaults P := fun s => onlyFaults_ok s

theorem onlyFaults_modify (f : σ → σ) : (modify f : Attempt σ ε Unit).OnlyFaults P :=
  fun _ => onlyFaults_ok ()

theorem onlyFaults_ofExcept {r : Except ε α} (h : ShaderGraph.OnlyFaults P r) :
    (ofExcept r : Attempt σ ε α).OnlyFaults P := fun _ => h

theorem OnlyFaults.mono {x : Attempt σ ε α} (h : x.OnlyFaults P) (hPQ : ∀ e, P e → Q e) :
    x.OnlyFaults Q := fun s => ShaderGraph.OnlyFaults.mono (h s) hPQ

theorem OnlyFaults.bind {x : Attempt σ ε α} {f : α → Attempt σ ε β} (hx : x.OnlyFaults P)
    (hf : ∀ a, (f a).OnlyFaults P) : (x >>= f).OnlyFaults P := by
  intro s
  have hs := hx s
  rw [run_bind]
  split
  · next a s₁ _ => exact hf a s₁
  · next e s₁ h =>
    rw [h] at hs
    exact onlyFaults_error (hs e rfl)

/-- What follows a result that is there needs to be known for that result only. -/
theorem onlyFaults_ofExcept_bind {r : Except ε α} {f : α → Attempt σ ε β}
    (hr : ShaderGraph.OnlyFaults P r) (hf : ∀ a, r = .ok a → (f a).OnlyFaults P) :
    ((ofExcept r : Attempt σ ε α) >>= f).OnlyFaults P := by
  cases r with
  | error e => exact onlyFaults_throw (hr e rfl)
  | ok a => exact hf a rfl

theorem OnlyFaults.mapError {R : δ → Prop} {f : ε → δ} {x : Attempt σ ε α} (h : x.OnlyFaults P)
    (hf : ∀ e, P e → R (f e)) : (x.mapError f).OnlyFaults R := fun s => (h s).mapError hf

theorem OnlyFaults.onPart {part : σ → τ} {put : σ → τ → σ} {x : Attempt τ ε α}
    (h : x.OnlyFaults P) : (x.onPart part put).OnlyFaults P := fun s => h (part s)

theorem onlyFaults_mapM {f : α → Attempt σ ε β} {as : List α}
    (h : ∀ a ∈ as, (f a).OnlyFaults P) : (as.mapM f).OnlyFaults P := by
  induction as with
  | nil => exact onlyFaults_pure _
  | cons a as ih =>
    rw [List.mapM_cons]
    refine (h a List.mem_cons_self).bind fun b => ?_
    exact (ih fun c hc => h c (List.mem_cons_of_mem a hc)).bind fun bs => onlyFaults_pure _

theorem onlyFaults_foldlM {f : β → α → Attempt σ ε β} {as : List α}
    (h : ∀ a ∈ as, ∀ b, (f b a).OnlyFaults P) (b : β) : (as.foldlM f b).OnlyFaults P := by
  induction as generalizing b with
  | nil => exact onlyFaults_pure _
  | cons a as ih =>
    rw [List.foldlM_cons]
    exact (h a List.mem_cons_self b).bind (ih fun c hc => h c (List.mem_cons_of_mem a hc))

theorem onlyFaults_forM {f : α → Attempt σ ε PUnit} {as : List α}
    (h : ∀ a ∈ as, (f a).OnlyFaults P) : (as.forM f).OnlyFaults P := by
  induction as with
  | nil => exact onlyFaults_pure _
  | cons a as ih =>
    refine (h a List.mem_cons_self).bind fun _ => ?_
    exact ih fun c hc => h c (List.mem_cons_of_mem a hc)

end

/-! ## Steps that do not fail -/

def Succeeds (x : Attempt σ ε α) : Prop := ∀ s e s', x s ≠ (.error e, s')

theorem succeeds_pure (a : α) : (pure a : Attempt σ ε α).Succeeds := by
  intro s e s' h
  cases h

theorem succeeds_get : (get : Attempt σ ε σ).Succeeds := by
  intro s e s' h
  cases h

theorem succeeds_modify (f : σ → σ) : (modify f : Attempt σ ε Unit).Succeeds := by
  intro s e s' h
  cases h

theorem Succeeds.bind {x : Attempt σ ε α} {f : α → Attempt σ ε β} (hx : x.Succeeds)
    (hf : ∀ a, (f a).Succeeds) : (x >>= f).Succeeds := by
  intro s e s' h
  rcases bind_eq_error.mp h with h | ⟨a, s₁, -, h⟩
  · exact hx s e s' h
  · exact hf a s₁ e s' h

theorem Succeeds.onPart {part : σ → τ} {put : σ → τ → σ} {x : Attempt τ ε α} (h : x.Succeeds) :
    (x.onPart part put).Succeeds := by
  intro s e s' hx
  have hx : ((x (part s)).1, put s (x (part s)).2) = (.error e, s') := hx
  exact h (part s) e (x (part s)).2 (Prod.ext (Prod.mk.inj hx).1 rfl)

theorem Succeeds.onlyFaults {P : ε → Prop} {x : Attempt σ ε α} (h : x.Succeeds) :
    x.OnlyFaults P := by
  intro s e he
  have hs : x s = (.error e, (x s).2) := Prod.ext he rfl
  exact absurd hs (h s e _)

/-! ## Steps that fail without a trace -/

def Atomic (x : Attempt σ ε α) : Prop := ∀ s e s', x s = (.error e, s') → s' = s

theorem Succeeds.atomic {x : Attempt σ ε α} (h : x.Succeeds) : x.Atomic :=
  fun s e s' hx => absurd hx (h s e s')

theorem atomic_throw (e : ε) : (throw e : Attempt σ ε α).Atomic := by
  intro s d s' h
  cases h
  rfl

/-- Nothing is lost by looking at the state first. -/
theorem atomic_get_bind {f : σ → Attempt σ ε β} (hf : ∀ a, (f a).Atomic) :
    (get >>= f).Atomic := by
  intro s e s' h
  exact hf s s e s' h

theorem Atomic.mapError {f : ε → δ} {x : Attempt σ ε α} (h : x.Atomic) :
    (x.mapError f).Atomic := by
  intro s e s' hx
  obtain ⟨hfault, rfl⟩ := Prod.mk.inj hx
  cases hr : (x s).1 with
  | error d => exact h s d (x s).2 (Prod.ext hr rfl)
  | ok a =>
    rw [hr] at hfault
    cases hfault

/-- A part that is put back as it was leaves the whole as it was. -/
theorem Atomic.onPart {part : σ → τ} {put : σ → τ → σ} {x : Attempt τ ε α} (h : x.Atomic)
    (hput : ∀ s, put s (part s) = s) : (x.onPart part put).Atomic := by
  intro s e s' hx
  have hx : ((x (part s)).1, put s (x (part s)).2) = (.error e, s') := hx
  obtain ⟨hfault, rfl⟩ := Prod.mk.inj hx
  rw [h (part s) e (x (part s)).2 (Prod.ext hfault rfl), hput]

/-- Of an atomic step only what it does if it succeeds has to be known. -/
theorem Atomic.along {R : σ → σ → Prop} [Std.Refl R] {x : Attempt σ ε α} (h : x.Atomic)
    (hok : ∀ s a s', x s = (.ok a, s') → R s s') : x.Along R := by
  intro s
  cases hx : x s with
  | mk r s' =>
    cases r with
    | error e =>
      rw [h s e s' hx]
      exact refl_of R s
    | ok a => exact hok s a s' hx

end ShaderGraph.Attempt
