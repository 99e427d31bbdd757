/-
  ShaderGraph.Attempt — a step that may fail and does not undo what it did.

  Building a graph changes a state as it goes; when a line turns out to be wrong the
  state is left as the line left it. So an attempt gives a state back with its fault as
  well as with its result.
-/

namespace ShaderGraph

/-- A step over states `σ` that gives a result or fails. -/
def Attempt (σ ε α : Type) : Type := σ → Except ε α × σ

namespace Attempt

variable {σ τ ε δ α β : Type}

instance : Monad (Attempt σ ε) where
  pure a := fun s => (.ok a, s)
  bind x f := fun s => match x s with
    | (.ok a, s) => f a s
    | (.error e, s) => (.error e, s)

instance : MonadExcept ε (Attempt σ ε) where
  throw e := fun s => (.error e, s)
  tryCatch x f := fun s => match x s with
    | (.ok a, s) => (.ok a, s)
    | (.error e, s) => f e s

def get : Attempt σ ε σ := fun s => (.ok s, s)

def modify (f : σ → σ) : Attempt σ ε Unit := fun s => (.ok (), f s)

def ofExcept (r : Except ε α) : Attempt σ ε α := fun s => (r, s)

/-- The same step with its faults told in other words. -/
def mapError (f : ε → δ) (x : Attempt σ ε α) : Attempt σ δ α := fun s =>
  let (r, s) := x s
  (r.mapError f, s)

def onPart (part : σ → τ) (put : σ → τ → σ) (x : Attempt τ ε α) : Attempt σ ε α := fun s =>
  let (r, t) := x (part s)
  (r, put s t)

@[simp] theorem run_pure (a : α) (s : σ) : (pure a : Attempt σ ε α) s = (.ok a, s) := rfl

@[simp] theorem run_throw (e : ε) (s : σ) : (throw e : Attempt σ ε α) s = (.error e, s) := rfl

@[simp] theorem run_get (s : σ) : (get : Attempt σ ε σ) s = (.ok s, s) := rfl

@[simp] theorem run_modify (f : σ → σ) (s : σ) :
    (modify f : Attempt σ ε Unit) s = (.ok (), f s) := rfl

@[simp] theorem run_ofExcept (r : Except ε α) (s : σ) :
    (ofExcept r : Attempt σ ε α) s = (r, s) := rfl

theorem run_bind (x : Attempt σ ε α) (f : α → Attempt σ ε β) (s : σ) :
    (x >>= f) s = match x s with
      | (.ok a, s) => f a s
      | (.error e, s) => (.error e, s) := rfl

instance : LawfulMonad (Attempt σ ε) := LawfulMonad.mk' (Attempt σ ε)
  (fun x => by
    funext s
    show (match x s with
      | (.ok a, s) => (Except.ok a, s)
      | (.error e, s) => (.error e, s)) = x s
    rcases x s with ⟨_ | _, _⟩ <;> rfl)
  (fun _ _ => rfl)
  (fun x f g => by
    funext s
    simp only [run_bind]
    rcases x s with ⟨_ | _, _⟩ <;> rfl)

end Attempt

end ShaderGraph
