/-
  ShaderGraph.Proofs.Atomicity — a reference that is not resolved leaves no trace.

  Resolving looks first and declares last, so a fault finds the technique and the left side as
  they were. One way is different: an array whose length a parameter gives binds a define and
  widens the condition of the left side before the type of its uniform is found. What can
  still fail there is a texture whose kind is open, and no array has such a type
  (`not_isUnion_of_isArray`).

  - `atomic_storeGlobal`, `atomic_resolve`: storing a global and resolving a reference are atomic.
  - `unchanged_of_unresolved`: so neither leaves a trace when it fails.
-/

import ShaderGraph.Proofs.Failure
import ShaderGraph.Proofs.Resolving

namespace ShaderGraph

open Attempt

/-- A declaring step that fails without a trace does so while a mapping is resolved. -/
theorem Attempt.Atomic.resolving {α : Type} {step : Declaring α} (h : Atomic step) :
    Atomic step.resolving := h.onPart fun _ => rfl

theorem Attempt.Succeeds.resolving {α : Type} {step : Declaring α} (h : Succeeds step) :
    Succeeds step.resolving := h.onPart

namespace Resolution

section

variable (catalog : Catalog) (reference : Reference) (consumer : Consumer) (v : Variable)

/-! ## What succeeds -/

theorem succeeds_store : (store v).Succeeds :=
  succeeds_get.bind fun _ => (succeeds_modify _).bind fun _ => succeeds_pure _

theorem succeeds_declare (key : DeclKey) : (declare key v consumer).Succeeds :=
  succeeds_get.bind fun _ => (succeeds_modify _).bind fun _ => succeeds_pure _

theorem succeeds_declareUniform : (declareUniform v consumer).Succeeds :=
  (succeeds_declare consumer v _).bind fun _ => (succeeds_modify _).bind fun _ => succeeds_pure _

theorem succeeds_promoteVarying (producer : Node) :
    (promoteVarying producer v consumer).Succeeds := by
  rw [promoteVarying_eq]
  refine (succeeds_declare consumer v.raised _).bind fun p => ?_
  split
  · exact (succeeds_modify _).bind fun _ => (succeeds_modify _).bind fun _ => succeeds_pure _
  · exact (succeeds_modify _).bind fun _ => succeeds_pure _

/-! ## Namespace by namespace -/

theorem atomic_storeGlobal (stage : Stage) : (storeGlobal v stage).Atomic := by
  have list : ∀ f : VarId → Technique → Technique, Atomic (do
      let id ← store { v with isOutput := true }
      Attempt.modify (f id)
      return id) := fun f =>
    ((succeeds_store _).bind fun _ => (succeeds_modify _).bind fun _ => succeeds_pure _).atomic
  refine atomic_get_bind fun t => ?_
  split
  · split
    · split
      · exact (succeeds_pure _).atomic
      · exact atomic_throw _
    · exact list _
  · split
    · exact (succeeds_pure _).atomic
    · exact list _
  · exact (succeeds_store _).atomic

theorem atomic_resolveAttribute (left : Variable) :
    (resolveAttribute reference left consumer).Atomic := by
  by_cases hstage : consumer.stage = .fragment
  · rw [resolveAttribute, if_pos hstage]
    exact atomic_throw _
  · rw [resolveAttribute_eq hstage]
    refine Succeeds.atomic ((succeeds_declare consumer _ _).bind fun p => ?_)
    split
    · exact (succeeds_modify _).bind fun _ => succeeds_pure _
    · exact succeeds_pure _

theorem atomic_resolveWorldParameter : (resolveWorldParameter reference consumer).Atomic := by
  refine atomic_get_bind fun t => ?_
  split
  · exact (succeeds_declareUniform consumer _).atomic
  · exact atomic_throw _

theorem atomic_resolveOutput (producer : String) :
    (resolveOutput producer reference consumer).Atomic := by
  refine atomic_get_bind fun t => ?_
  split
  · next node _ =>
    split
    · split
      · exact (succeeds_store _).atomic
      · split
        · exact (succeeds_promoteVarying consumer _ node).atomic
        · exact atomic_throw _
    · exact atomic_throw _
  · exact atomic_throw _

/-! ## Parameters of the material -/

/-- Only textures are typed by a union. -/
theorem not_isUnion_of_isArray {type : ParamType} (h : type.isArray = true) :
    Glsl.isUnion type.glslType = false := by
  cases type with
  | array element => cases element <;> decide
  | _ => cases h

/-- The type of an array's uniform does not depend on who reads it. -/
theorem uniformType_of_isArray {param : Parameter} (h : param.type.isArray = true)
    (leftType : String) : uniformType param leftType = .ok param.type.glslType := by
  rw [uniformType, if_neg (by rw [not_isUnion_of_isArray h]; exact Bool.false_ne_true)]

theorem atomic_resolveLength (param : Parameter) : (resolveLength catalog param).Atomic := by
  refine atomic_get_bind fun w => ?_
  cases w.left.multiplicity with
  | none => exact (succeeds_pure _).atomic
  | some length =>
    dsimp only
    split
    · rw [throw_bind]
      exact atomic_throw _
    · split
      · exact (succeeds_pure _).atomic
      · cases catalog.param? length with
        | none => exact atomic_throw _
        | some size =>
          have hbind : Succeeds (bindOwnDefine size.name (.single .int)).resolving :=
            Succeeds.resolving (succeeds_modify _)
          exact (hbind.bind fun _ => (succeeds_modify _).bind fun _ => succeeds_pure _).atomic

/-- A length that changes anything is the length of an array. -/
theorem Sized.unchanged_or_isArray {param : Parameter} {t t' : Technique} {left left' : Variable}
    {length : Option ArrayLength} (h : Sized catalog param t left length t' left') :
    t' = t ∧ left' = left ∨ param.type.isArray = true := by
  cases h with
  | single => exact Or.inl ⟨rfl, rfl⟩
  | literal => exact Or.inl ⟨rfl, rfl⟩
  | byParameter _ harray _ _ => exact Or.inr harray

theorem atomic_resolveMaterialParameter :
    (resolveMaterialParameter catalog reference consumer).Atomic := by
  unfold resolveMaterialParameter
  cases catalog.param? reference.name with
  | none => exact atomic_throw _
  | some param =>
    intro w cause w' h
    rcases bind_eq_error.mp h with h | ⟨length, w₁, hlength, h⟩
    · exact atomic_resolveLength catalog param w cause w' h
    · -- the length is found; of what follows only the type of the uniform can be missing
      rw [run_bind, run_get] at h
      rcases bind_eq_error.mp h with h | ⟨type, w₂, -, h⟩
      · obtain ⟨htype, rfl⟩ := ofExcept_eq_error.mp h
        rcases (sized_of_ok hlength).unchanged_or_isArray with ⟨ht, hleft⟩ | harray
        · cases w; cases w₁
          cases ht; cases hleft
          rfl
        · rw [uniformType_of_isArray harray] at htype
          cases htype
      · exact absurd h ((succeeds_declareUniform consumer _).resolving _ _ _)

/-- Whichever way a reference is looked up, a failure leaves no trace. -/
theorem atomic_resolve : (resolve catalog reference consumer).Atomic := by
  unfold resolve
  cases reference.origin with
  | none => exact atomic_throw _
  | some origin =>
    cases origin with
    | global => exact (atomic_storeGlobal _ _).resolving
    | vertexAttribute =>
      exact atomic_get_bind fun w => (atomic_resolveAttribute reference consumer w.left).resolving
    | materialParameter => exact atomic_resolveMaterialParameter catalog reference consumer
    | worldParameter => exact (atomic_resolveWorldParameter reference consumer).resolving
    | node producer => exact (atomic_resolveOutput reference consumer producer).resolving

end

/-- A reference that is not resolved leaves the technique and the left side as they were, and a
global that is not stored leaves the technique as it was. -/
theorem unchanged_of_unresolved (catalog : Catalog) :
    (∀ (reference : Reference) (consumer : Consumer) (w w' : Wiring) (cause : Cause),
      resolve catalog reference consumer w = (.error cause, w') → w' = w) ∧
    ∀ (v : Variable) (stage : Stage) (t t' : Technique) (cause : Cause),
      storeGlobal v stage t = (.error cause, t') → t' = t :=
  ⟨fun reference consumer w w' cause => atomic_resolve catalog reference consumer w cause w',
    fun v stage t t' cause => atomic_storeGlobal v stage t cause t'⟩

end Resolution

namespace Lit

/-- A technique with the output of its vertex stage. -/
def positioned : Technique :=
  (Resolution.storeGlobal (Resolution.globalVariable "position") .vertex (.empty none)).2

def fogInput : Wiring := ⟨positioned, .plain "sampler3D" "fog"⟩

end Lit

open Lit in
/-- A texture of another kind, and a second output of the vertex stage. -/
theorem Resolution.unchanged_positioned :
    (∃ w', resolve [⟨"Shadows", .texture2D, none⟩] ⟨some .materialParameter, "Shadows", ""⟩
        ⟨"Fogged", .fragment⟩ fogInput =
          (.error (.samplerUnion "Shadows" "sampler2D, sampler2DShadow" "sampler3D"), w') ∧
        w' = fogInput) ∧
    ∃ t', storeGlobal (globalVariable "glow") .vertex positioned =
      (.error (.vertexGlobal "position" "glow"), t') ∧ t' = positioned := by
  obtain ⟨hresolve, hstore⟩ := unchanged_of_unresolved [⟨"Shadows", .texture2D, none⟩]
  have hfog : resolve [⟨"Shadows", .texture2D, none⟩] ⟨some .materialParameter, "Shadows", ""⟩
      ⟨"Fogged", .fragment⟩ fogInput =
        (.error (.samplerUnion "Shadows" "sampler2D, sampler2DShadow" "sampler3D"), fogInput) := rfl
  have hglow : storeGlobal (globalVariable "glow") .vertex positioned =
      (.error (.vertexGlobal "position" "glow"), positioned) := rfl
  exact ⟨⟨_, hfog, hresolve _ _ _ _ _ hfog⟩, ⟨_, hglow, hstore _ _ _ _ _ hglow⟩⟩

end ShaderGraph
