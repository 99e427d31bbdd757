/-
  ShaderGraph.Proofs.Swizzles — when types without components fit.

  Matrices, samplers, structs and unions have no components that a swizzle could select. A mapping
  from or to one of them is not checked by counting: it fits by the names of the types, which are
  equal, or of which one is a union that lists the other (`Lists`). The swizzles are then compared
  for their length only, or not at all, and what they select does not matter.

  - `kind?_isSome_iff`: a kind is found in a union that lists it, and in the type itself if that is
    no union.
  - `check_of_no_components`: with a type without components, no other types fit, and these do.
  - `check_swizzled_matrix`: so a matrix with a swizzle fits a matrix with a swizzle.
-/

import ShaderGraph.Proofs.FirstUse

namespace ShaderGraph

structure Glsl.Lists (union type : String) : Prop where
  isUnion : Glsl.isUnion union = true
  mem : type ∈ Glsl.kinds union

namespace Typing

open Glsl (Lists componentCount? isUnion)

section

variable {left right : Variable} {ls rs type union : String}

theorem kind?_isSome_iff : (Glsl.kind? type union).isSome = true ↔
    (type = union ∧ isUnion type = false) ∨ Lists union type := by
  cases hu : isUnion union with
  | false =>
    rw [kind?_of_not_union hu]
    constructor
    · rintro rfl
      exact Or.inl ⟨rfl, hu⟩
    · rintro (⟨rfl, -⟩ | h)
      · rfl
      · exact absurd h.isUnion (by simp [hu])
  | true =>
    have hmem : (Glsl.kind? type union).isSome = true ↔ type ∈ Glsl.kinds union := by
      simp [Glsl.kind?]
    rw [hmem]
    constructor
    · exact fun h => Or.inr ⟨hu, h⟩
    · rintro (⟨rfl, hnot⟩ | h)
      · exact absurd hu (by simp [hnot])
      · exact h.mem

/-- Types of which one has no components fit by their names. Two unions are equal with swizzles of
one length. -/
theorem typesFit_iff_of_none (h : componentCount? left.type = none ∨
      componentCount? right.type = none) :
    typesFit left ls right rs = true ↔
      (left.type = right.type ∧ (isUnion left.type = true → ls.utf8ByteSize = rs.utf8ByteSize)) ∨
        Lists right.type left.type ∨ Lists left.type right.type := by
  rw [typesFit_of_none h, kind?_isSome_iff, kind?_isSome_iff]
  constructor
  · rintro (⟨heq, hsize⟩ | (⟨heq, hnot⟩ | hl) | (⟨heq, hnot⟩ | hl))
    · exact Or.inl ⟨heq, fun _ => hsize⟩
    · exact Or.inl ⟨heq, fun hu => by simp [hnot] at hu⟩
    · exact Or.inr (Or.inl hl)
    · exact Or.inl ⟨heq.symm, fun hu => by simp [← heq, hnot] at hu⟩
    · exact Or.inr (Or.inr hl)
  · rintro (⟨heq, hsize⟩ | hl | hl)
    · cases hu : isUnion left.type with
      | true => exact Or.inl ⟨heq, hsize hu⟩
      | false => exact Or.inr (Or.inl (Or.inl ⟨heq, rfl⟩))
    · exact Or.inr (Or.inl (Or.inr hl))
    · exact Or.inr (Or.inr (Or.inr hl))

end

/-- With a type without components only equal types fit, and a union and a kind that it lists. Equal
types with swizzles of one length do fit, and so do a union and its kinds with any swizzles, if the
lengths of the arrays fit. -/
theorem check_of_no_components (left right : Variable) (ls rs : String)
    (h : componentCount? left.type = none ∨ componentCount? right.type = none) :
    (check left ls right rs = .ok () →
      (left.type = right.type ∧ (isUnion left.type = true → ls.utf8ByteSize = rs.utf8ByteSize)) ∨
        Lists right.type left.type ∨ Lists left.type right.type) ∧
    ((left.type = right.type ∧ ls.utf8ByteSize = rs.utf8ByteSize) ∨
        Lists right.type left.type ∨ Lists left.type right.type →
      (check left ls right rs = .ok () ↔ lengthsFit left right = true)) := by
  constructor
  · intro hcheck
    exact (typesFit_iff_of_none h).mp ((check_eq_ok_iff left ls right rs).mp hcheck).1
  · intro htypes
    have hfit : typesFit left ls right rs = true := by
      refine (typesFit_iff_of_none h).mpr (htypes.imp_left ?_)
      exact fun ⟨heq, hsize⟩ => ⟨heq, fun _ => hsize⟩
    rw [check_eq_ok_iff, and_iff_right hfit]

/-- A sampler and a union that lists it. -/
theorem check_sampler_of_union :
    componentCount? "samplerCube" = none ∧
      Lists "sampler2D|samplerCube" "samplerCube" ∧
      check (.plain "samplerCube" "sky") "" (.plain "sampler2D|samplerCube" "m_Sky") "" =
        .ok () := by
  have hnone : componentCount? "samplerCube" = none := by decide
  have hlists : Lists "sampler2D|samplerCube" "samplerCube" := ⟨by decide, by decide⟩
  have hfits := (check_of_no_components (.plain "samplerCube" "sky")
    (.plain "sampler2D|samplerCube" "m_Sky") "" "" (Or.inl hnone)).2 (Or.inr (Or.inl hlists))
  exact ⟨hnone, hlists, hfits.mpr rfl⟩

/-- A swizzle on each side of a mapping between matrices. -/
theorem check_swizzled_matrix :
    componentCount? "mat4" = none ∧
      check (.plain "mat4" "m") "xx" (.plain "mat4" "w") "xx" = .ok () ∧ "xx" ≠ "" := by
  decide

end Typing

end ShaderGraph
