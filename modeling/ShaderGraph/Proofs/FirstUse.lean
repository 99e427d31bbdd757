/-
  ShaderGraph.Proofs.FirstUse — whether a mapping fits what it declares.

  The first mapping that reads a parameter or an attribute declares it, and is checked against its
  own declaration. Two computations meet there. The resolver makes the declaration from the left
  side: the length of an array in upper case, as all of Unicode has it, and the type of an
  attribute from the components that the swizzle of the attribute selects. The check then folds the
  case of ASCII letters only, and counts the components of both sides with both swizzles. So there
  are mappings that nothing but themselves makes wrong, and the results say which.

  - `sameFolded_defineOf`: a name and its define are equal for the check exactly if upper case
    changes nothing of it beyond ASCII.
  - `resolve_parameter_of_new`, `resolve_attribute_of_new`: what is not declared yet is found, and
    is the last variable of the arena.
  - `array_fits_iff`: the first reading of an array with a length fits exactly if the length is a
    number or such a name.
  - `attribute_fits_iff`: the first reading of an attribute fits exactly if both swizzles select as
    many components of the left side (`Introduces`).
-/

import ShaderGraph.Proofs.Atomicity
import ShaderGraph.Proofs.Samplers

namespace ShaderGraph

open Condition (defineOf)
open Resolution (Sized ArrayLength resolve attributeVariable parameterVariable uniformType)

/-! ## Upper case up to the case of ASCII letters -/

namespace Text

def RisesInAscii (cs : List Char) : Prop := ∀ c ∈ cs, c.toNat < 128 ∨ upperChar c = [c]

instance (cs : List Char) : Decidable (RisesInAscii cs) := List.decidableBAll _ cs

section

variable {c d : Char} {cs : List Char}

theorem toLower_of_ascii (h : c.toNat < 128) :
    c.toLower.toNat < 128 ∧ c.toUpper.toLower = c.toLower := by
  have hall : ∀ n < 128, (Char.ofNat n).toLower.toNat < 128 ∧
      (Char.ofNat n).toUpper.toLower = (Char.ofNat n).toLower := by decide
  have := hall c.toNat h
  rwa [Char.ofNat_toNat] at this

theorem toLower_of_not_ascii (h : 128 ≤ c.toNat) : c.toLower = c := by
  have hz : ¬ (c.val ≥ 'A'.val ∧ c.val ≤ 'Z'.val) := by
    rintro ⟨-, hle⟩
    have hle : c.toNat ≤ 90 := UInt32.le_iff_toNat_le.mp hle
    omega
  exact dif_neg hz

/-- No character disappears in upper case. -/
theorem upperChar_ne_nil (c : Char) : upperChar c ≠ [] := by
  have hexpansions : ∀ e ∈ expansions, e.2 ≠ [] := by decide +kernel
  unfold upperChar
  split
  · exact List.cons_ne_nil _ _
  · split
    · next points hp =>
      obtain ⟨before, after, he, -⟩ := List.lookup_eq_some_iff.mp hp
      rw [ne_eq, List.map_eq_nil_iff]
      exact hexpansions (c.toNat, points) (he ▸ List.mem_append_right _ List.mem_cons_self)
    · split <;> exact List.cons_ne_nil _ _

theorem length_le_upper (cs : List Char) : cs.length ≤ (upper cs).length := by
  induction cs with
  | nil => exact Nat.le_refl _
  | cons c cs ih =>
    have hone : 0 < (upperChar c).length := List.length_pos_iff.mpr (upperChar_ne_nil c)
    rw [upper, List.flatMap_cons, List.length_append, List.length_cons]
    rw [upper] at ih
    omega

/-- One character becomes one that differs from it in the case of an ASCII letter at most. -/
theorem rises_iff_of_singleton (h : upperChar c = [d]) :
    d.toLower = c.toLower ↔ c.toNat < 128 ∨ upperChar c = [c] := by
  constructor
  · intro hlower
    by_cases hc : c.toNat < 128
    · exact Or.inl hc
    · rw [toLower_of_not_ascii (Nat.le_of_not_lt hc)] at hlower
      by_cases hd : d.toNat < 128
      · have := (toLower_of_ascii hd).1
        rw [hlower] at this
        exact absurd this hc
      · rw [toLower_of_not_ascii (Nat.le_of_not_lt hd)] at hlower
        exact Or.inr (by rw [h, hlower])
  · rintro (hc | hc)
    · rw [upperChar_of_ascii hc] at h
      cases h
      exact (toLower_of_ascii hc).2
    · rw [h] at hc
      cases hc
      rfl

/-- A text and its upper case are equal up to the case of ASCII letters exactly if nothing beyond
ASCII changes. -/
theorem map_toLower_upper_iff (cs : List Char) :
    cs.map Char.toLower = (upper cs).map Char.toLower ↔ RisesInAscii cs := by
  induction cs with
  | nil => exact iff_of_true rfl fun _ hc => absurd hc List.not_mem_nil
  | cons c cs ih =>
    have hupper : upper (c :: cs) = upperChar c ++ upper cs := List.flatMap_cons
    have hcons : RisesInAscii (c :: cs) ↔
        (c.toNat < 128 ∨ upperChar c = [c]) ∧ RisesInAscii cs := List.forall_mem_cons
    rw [hupper, List.map_cons, hcons, ← ih]
    obtain ⟨d, ds, hd⟩ := List.exists_cons_of_ne_nil (upperChar_ne_nil c)
    cases ds with
    | nil =>
      rw [← rises_iff_of_singleton hd, hd, List.singleton_append, List.map_cons,
        List.cons.injEq, eq_comm (a := d.toLower)]
    | cons e ds =>
      -- one character has become several, so the upper case is longer
      refine iff_of_false (fun h => ?_) (fun h => ?_)
      · have hlength := congrArg List.length h
        have := length_le_upper cs
        simp only [hd, List.length_cons, List.length_map, List.length_append] at hlength
        omega
      · rcases h.1 with hc | hc
        · rw [upperChar_of_ascii hc] at hd
          cases hd
        · rw [hc] at hd
          cases hd

end

end Text

/-! ## Components -/

namespace Glsl

def sizes : List (String × Nat) :=
  [("float", 1), ("int", 1), ("uint", 1), ("bool", 1), ("vec2", 2), ("ivec2", 2), ("uvec2", 2),
    ("bvec2", 2), ("vec3", 3), ("ivec3", 3), ("uvec3", 3), ("bvec3", 3), ("vec4", 4), ("ivec4", 4),
    ("uvec4", 4), ("bvec4", 4)]

section

variable {type swizzle : String} {n m : Nat}

theorem mem_sizes_of_componentCount? (h : componentCount? type = some n) : (type, n) ∈ sizes := by
  simp only [componentCount?, List.mem_cons, List.not_mem_nil, or_false] at h
  split at h
  · next ht => rcases ht with rfl | rfl | rfl | rfl <;> (cases h; decide)
  · split at h
    · next ht => rcases ht with rfl | rfl | rfl | rfl <;> (cases h; decide)
    · split at h
      · next ht => rcases ht with rfl | rfl | rfl | rfl <;> (cases h; decide)
      · split at h
        · next ht => rcases ht with rfl | rfl | rfl | rfl <;> (cases h; decide)
        · cases h

theorem componentCount?_of_mem_sizes (h : (type, n) ∈ sizes) : componentCount? type = some n := by
  have hall : ∀ p ∈ sizes, componentCount? p.1 = some p.2 := by decide
  exact hall _ h

/-- A type with components is no union, and has four of them at most. -/
theorem not_isUnion_of_componentCount? (h : componentCount? type = some n) :
    isUnion type = false ∧ 0 < n ∧ n ≤ 4 := by
  have hall : ∀ p ∈ sizes, isUnion p.1 = false ∧ 0 < p.2 ∧ p.2 ≤ 4 := by decide
  exact hall _ (mem_sizes_of_componentCount? h)

theorem toList_floatType (h : n ≠ 1) :
    (floatType n).toList = 'v' :: 'e' :: 'c' :: Nat.toDigits 10 n := by
  rw [floatType, if_neg h]
  simp [toString]

/-- There are float types of up to four components. -/
theorem componentCount?_floatType (hpos : 0 < n) :
    componentCount? (floatType n) = if n ≤ 4 then some n else none := by
  split
  · next hle =>
    have hall : ∀ n < 5, 0 < n → (floatType n, n) ∈ sizes := by decide
    exact componentCount?_of_mem_sizes (hall n (Nat.lt_succ_of_le hle) hpos)
  · next hlt =>
    rw [Option.eq_none_iff_forall_ne_some]
    intro m hm
    have hall : ∀ p ∈ sizes, "vec".toList <+: p.1.toList →
        Nat.ofDigitChars 10 (p.1.toList.drop 3) 0 ≤ 4 := by decide
    have hlist := toList_floatType (n := n) (by omega)
    have hle := hall _ (mem_sizes_of_componentCount? hm) ⟨_, hlist.symm⟩
    have hdrop : (floatType n).toList.drop 3 = Nat.toDigits 10 n := by rw [hlist]; rfl
    rw [hdrop, Nat.ofDigitChars_toDigits (by omega) (by omega)] at hle
    omega

theorem not_isUnion_floatType (n : Nat) : isUnion (floatType n) = false := by
  by_cases h : n = 1
  · subst h
    decide
  · rw [isUnion, toList_floatType h, Bool.eq_false_iff, ne_eq, List.contains_iff_mem]
    intro hmem
    have hdigit : '|' ∈ Nat.toDigits 10 n := by simpa using hmem
    exact absurd (Nat.isDigit_of_mem_toDigits (by omega) (by omega) hdigit) (by decide)

theorem cardinality?_of_some (h : componentCount? type = some n) (swizzle : String) :
    cardinality? type swizzle = some (if swizzle = "" then n else swizzle.utf8ByteSize) := by
  rw [cardinality?, h, Option.map_some]
  simp only [String.isEmpty_iff]

/-- What a swizzle selects is some components, and few of them if the swizzle is short. -/
theorem selected (h : componentCount? type = some n) (hm : cardinality? type swizzle = some m) :
    0 < m ∧ (m ≤ 4 ↔ swizzle.utf8ByteSize ≤ 4) := by
  obtain ⟨-, hpos, hle⟩ := not_isUnion_of_componentCount? h
  rw [cardinality?_of_some h, Option.some.injEq] at hm
  split at hm
  · next he =>
    rw [← hm, he]
    exact ⟨hpos, iff_of_true hle (Nat.zero_le 4)⟩
  · next he =>
    rw [← hm]
    exact ⟨Nat.pos_of_ne_zero (he ∘ String.utf8ByteSize_eq_zero_iff.mp), Iff.rfl⟩

/-- The float type of what a swizzle selects has as many components under that swizzle. -/
theorem cardinality?_floatType (h : componentCount? type = some n)
    (hm : cardinality? type swizzle = some m) (hle : m ≤ 4) :
    cardinality? (floatType m) swizzle = some m := by
  have hfloat := componentCount?_floatType (selected h hm).1
  rw [if_pos hle] at hfloat
  rw [cardinality?_of_some h, Option.some.injEq] at hm
  rw [cardinality?_of_some hfloat, Option.some.injEq]
  split at hm
  · next he => rw [if_pos he]
  · next he => rw [if_neg he, hm]

end

end Glsl

/-! ## What fits -/

namespace Typing

theorem sameFolded_defineOf (name : String) :
    sameFolded name (defineOf name) = true ↔ Text.RisesInAscii name.toList := by
  rw [sameFolded, beq_iff_eq, defineOf, String.toList_ofList]
  exact Text.map_toLower_upper_iff name.toList

theorem sameFolded_self (text : String) : sameFolded text text = true := by
  rw [sameFolded, beq_self_eq_true]

theorem lengthsFit_of_some {left right : Variable} {l r : String}
    (hl : left.multiplicity = some l) (hr : right.multiplicity = some r) :
    lengthsFit left right = sameFolded l r := by
  rw [lengthsFit, hl, hr]

theorem lengthsFit_of_eq {left right : Variable} (h : right.multiplicity = left.multiplicity) :
    lengthsFit left right = true := by
  rw [lengthsFit, h]
  cases left.multiplicity with
  | none => rfl
  | some length => exact sameFolded_self length

/-- Sides of one type without swizzles fit. -/
theorem typesFit_of_eq {left right : Variable} (h : left.type = right.type) :
    typesFit left "" right "" = true := by
  rw [typesFit, h]
  simp only [beq_self_eq_true, Bool.and_self, Bool.true_or]

theorem kind?_of_not_union {type union : String} (h : Glsl.isUnion union = false) :
    (Glsl.kind? type union).isSome = true ↔ type = union := by
  refine ⟨fun hs => Glsl.eq_of_kind?_isSome hs h, ?_⟩
  rintro rfl
  rw [Glsl.kind?, Glsl.kinds_of_not_union h]
  simp

theorem kind?_self {type : String} :
    (Glsl.kind? type type).isSome = true ↔ Glsl.isUnion type = false := by
  refine ⟨fun hs => ?_, fun h => (kind?_of_not_union h).mpr rfl⟩
  obtain ⟨kind, hkind⟩ := Option.isSome_iff_exists.mp hs
  have heq := List.find?_some hkind
  rw [beq_iff_eq] at heq
  subst heq
  exact Glsl.not_union_of_mem_kinds (List.mem_of_find?_eq_some hkind)

section

variable {left right : Variable} {ls rs : String} {l r : Nat}

/-- Types with components fit if as many of them are selected. -/
theorem typesFit_of_some (hl : Glsl.cardinality? left.type ls = some l)
    (hr : Glsl.cardinality? right.type rs = some r) :
    typesFit left ls right rs = true ↔ l = r := by
  rw [typesFit, hl, hr]
  simp only [Bool.or_eq_true, Bool.and_eq_true, beq_iff_eq, or_iff_right_iff_imp]
  rintro ⟨htype, hsize⟩
  obtain ⟨n, hn⟩ : ∃ n, Glsl.componentCount? right.type = some n := by
    cases hn : Glsl.componentCount? right.type with
    | none => rw [Glsl.cardinality?_of_none hn] at hr; cases hr
    | some n => exact ⟨n, rfl⟩
  have hempty : ls = "" ↔ rs = "" := by
    rw [← String.utf8ByteSize_eq_zero_iff, hsize, String.utf8ByteSize_eq_zero_iff]
  rw [htype, Glsl.cardinality?_of_some hn, Option.some.injEq] at hl
  rw [Glsl.cardinality?_of_some hn, Option.some.injEq] at hr
  rw [← hl, ← hr, hsize, if_congr hempty rfl rfl]

end

end Typing

/-! ## Reading what is new -/

theorem Registry.offer_of_new {r : Registry} {key : DeclKey} (h : r.find? key = none) (a : Arena)
    (v : Variable) (consumer : String) : r.offer a key v consumer =
      ⟨a.nextId, true, r.addDeclaration key a.nextId consumer, a.add v⟩ := by
  unfold offer
  rw [h]
  rfl

namespace Resolution

section

variable {catalog : Catalog} {reference : Reference} {param : Parameter}
  {length : Option ArrayLength} {t t' : Technique} {left left' : Variable} {type : String}
  (consumer : Consumer)

theorem declare_of_new {key : DeclKey} (v : Variable) (h : t.registry.find? key = none) :
    ∃ u, declare key v consumer t = (.ok (t.arena.nextId, true), u) ∧
      u.arena = t.arena.add v := by
  have hoffer := Registry.offer_of_new h t.arena v consumer.name
  refine ⟨_, declare_eq_ok.mpr ⟨?_, rfl⟩, ?_⟩
  · rw [Technique.offer, hoffer]
  · show (t.offer key v consumer).arena = t.arena.add v
    rw [Technique.offer, hoffer]

theorem declareUniform_of_new {v : Variable} (h : t.registry.find? (.uniform v.name) = none) :
    ∃ u, declareUniform v consumer t = (.ok t.arena.nextId, u) ∧ u.arena = t.arena.add v := by
  obtain ⟨u, hu, harena⟩ := declare_of_new consumer v h
  refine ⟨u.withInterface (Interface.listUniform u.interface consumer.stage t.arena.nextId), ?_,
    harena⟩
  rw [declareUniform, Attempt.run_bind, hu]
  rfl

theorem resolveAttribute_of_new {consumer : Consumer} (left : Variable)
    (hstage : consumer.stage ≠ .fragment)
    (h : t.registry.find? (.vertexAttribute reference.name) = none) :
    ∃ u, resolveAttribute reference left consumer t = (.ok t.arena.nextId, u) ∧
      u.arena = t.arena.add (attributeVariable reference left) := by
  obtain ⟨u, hu, harena⟩ := declare_of_new consumer (attributeVariable reference left) h
  refine ⟨u.withInterface
    { u.interface with attributes := u.interface.attributes ++ [t.arena.nextId] }, ?_, harena⟩
  rw [resolveAttribute_eq hstage, Attempt.run_bind, hu]
  rfl

/-- A length that can be found is found. -/
theorem Sized.resolveLength_eq_ok (h : Sized catalog param t left length t' left') :
    resolveLength catalog param ⟨t, left⟩ = (.ok length, ⟨t', left'⟩) := by
  rw [resolveLength, Attempt.run_bind, Attempt.run_get]
  cases h with
  | single hm => simp only [hm, Attempt.run_pure]
  | literal hm harray hnum =>
    simp only [hm, harray, hnum, Bool.not_true, Bool.false_eq_true, if_false, if_true,
      Attempt.run_pure]
  | byParameter hm harray hnum hsize =>
    simp only [hm, harray, hnum, hsize, Bool.not_true, Bool.false_eq_true, if_false]
    rfl

/-- The first reading of a parameter with a length puts its uniform into the arena. -/
theorem resolve_parameter_of_new (horigin : reference.origin = some .materialParameter)
    (hparam : catalog.param? reference.name = some param)
    (hs : Sized catalog param t left length t' left')
    (htype : uniformType param left.type = .ok type)
    (hnew : t.registry.find? (.uniform param.uniformName) = none) :
    ∃ u, resolve catalog reference consumer ⟨t, left⟩ = (.ok t.arena.nextId, ⟨u, left'⟩) ∧
      u.arena = t.arena.add (parameterVariable param type length) := by
  rw [← type_of_sized hs] at htype
  have hlength := hs.resolveLength_eq_ok
  obtain ⟨defines, rfl⟩ := hs.frame
  have hnew' : { t with defines }.registry.find?
      (.uniform (parameterVariable param type length).name) = none := hnew
  obtain ⟨u, hu, harena⟩ := declareUniform_of_new consumer hnew'
  refine ⟨u, ?_, harena⟩
  simp only [resolve, horigin, resolveMaterialParameter, hparam, Attempt.bind_eq_ok,
    Attempt.get_eq_ok, Attempt.ofExcept_eq_ok, resolving_eq_ok]
  exact ⟨length, _, hlength, _, _, ⟨rfl, rfl⟩, type, _, ⟨htype, rfl⟩, u, hu, rfl⟩

/-- The first reading of an attribute puts it into the arena. -/
theorem resolve_attribute_of_new {consumer : Consumer} (catalog : Catalog) (left : Variable)
    (horigin : reference.origin = some .vertexAttribute)
    (hstage : consumer.stage ≠ .fragment)
    (hnew : t.registry.find? (.vertexAttribute reference.name) = none) :
    ∃ u, resolve catalog reference consumer ⟨t, left⟩ = (.ok t.arena.nextId, ⟨u, left⟩) ∧
      u.arena = t.arena.add (attributeVariable reference left) := by
  obtain ⟨u, hu, harena⟩ := resolveAttribute_of_new left hstage hnew
  refine ⟨u, ?_, harena⟩
  simp only [resolve, horigin, Attempt.bind_eq_ok, Attempt.get_eq_ok, resolving_eq_ok]
  exact ⟨_, _, ⟨rfl, rfl⟩, u, hu, rfl⟩

end

end Resolution

/-! ## Arrays -/

/-- The first mapping that reads an array and asks for a length fits exactly if the length is a
number, or the name of a parameter of which upper case changes nothing beyond ASCII. -/
theorem Resolution.array_fits_iff (catalog : Catalog) (reference : Reference)
    (consumer : Consumer) (t : Technique) (left : Variable) {param : Parameter} {length : String}
    (horigin : reference.origin = some .materialParameter)
    (hparam : catalog.param? reference.name = some param) (harray : param.type.isArray = true)
    (hnew : t.registry.find? (.uniform param.uniformName) = none)
    (htype : left.type = param.type.glslType) (hlength : left.multiplicity = some length)
    (hknown : Text.isNumeral length.toList = true ∨ (catalog.param? length).isSome = true) :
    ∃ id u left', resolve catalog reference consumer ⟨t, left⟩ = (.ok id, ⟨u, left'⟩) ∧
      (Typing.check left' "" (u.arena.read id) "" = .ok () ↔
        Text.isNumeral length.toList = true ∨ Text.RisesInAscii length.toList) := by
  have huniform := uniformType_of_isArray harray left.type
  by_cases hnum : Text.isNumeral length.toList = true
  · obtain ⟨u, hu, harena⟩ := resolve_parameter_of_new consumer horigin hparam
      (.literal hlength harray hnum) huniform hnew
    refine ⟨_, u, left, hu, ?_⟩
    rw [harena, Arena.read_of_get? (Arena.get?_add_nextId _ _)]
    refine iff_of_true ((Typing.check_eq_ok_iff _ _ _ _).mpr ⟨?_, ?_⟩) (Or.inl hnum)
    · exact Typing.typesFit_of_eq htype
    · exact Typing.lengthsFit_of_eq hlength.symm
  · obtain ⟨size, hsize⟩ := Option.isSome_iff_exists.mp (hknown.resolve_left hnum)
    obtain ⟨u, hu, harena⟩ := resolve_parameter_of_new consumer horigin hparam
      (.byParameter hlength harray (Bool.eq_false_iff.mpr hnum) hsize) huniform hnew
    refine ⟨_, u, _, hu, ?_⟩
    have hfit : Typing.typesFit (left.neededUnder (defineOf length)) ""
        (parameterVariable param param.type.glslType
          (some ⟨defineOf length, some (defineOf length)⟩)) "" = true := Typing.typesFit_of_eq htype
    rw [harena, Arena.read_of_get? (Arena.get?_add_nextId _ _), or_iff_right hnum,
      ← Typing.sameFolded_defineOf, Typing.check_eq_ok_iff, and_iff_right hfit,
      Typing.lengthsFit_of_some (show (left.neededUnder _).multiplicity = some length from hlength)
        rfl]

/-- A length that another parameter gives. -/
theorem Resolution.array_fits_lights :
    ∃ id u left', resolve [⟨"Lights", .array .vector4, none⟩, ⟨"NbLights", .single .int, none⟩]
        ⟨some .materialParameter, "Lights", ""⟩ ⟨"Summed", .fragment⟩
        ⟨.empty none, { Variable.plain "vec4" "lights" with multiplicity := some "NbLights" }⟩ =
          (.ok id, ⟨u, left'⟩) ∧
      Typing.check left' "" (u.arena.read id) "" = .ok () := by
  obtain ⟨id, u, left', hu, hcheck⟩ := array_fits_iff
    [⟨"Lights", .array .vector4, none⟩, ⟨"NbLights", .single .int, none⟩]
    ⟨some .materialParameter, "Lights", ""⟩ ⟨"Summed", .fragment⟩ (.empty none)
    { Variable.plain "vec4" "lights" with multiplicity := some "NbLights" }
    rfl rfl rfl rfl rfl rfl (Or.inr rfl)
  exact ⟨id, u, left', hu, hcheck.mpr (Or.inr (by decide +kernel))⟩

/-- One letter becomes two in upper case, so the define is not taken for the name. -/
theorem Resolution.array_misfits_beyond_ascii :
    ∃ id u left', resolve [⟨"Lights", .array .vector4, none⟩, ⟨"Größe", .single .int, none⟩]
        ⟨some .materialParameter, "Lights", ""⟩ ⟨"Summed", .fragment⟩
        ⟨.empty none, { Variable.plain "vec4" "lights" with multiplicity := some "Größe" }⟩ =
          (.ok id, ⟨u, left'⟩) ∧
      Typing.check left' "" (u.arena.read id) "" =
        .error (.multiplicityMismatch "vec4[Größe]" "vec4[GRÖSSE]") :=
  ⟨_, _, _, rfl, by decide +kernel⟩

/-! ## Attributes -/

namespace Typing

/-- An attribute that is read first with the swizzle `rs`, by a left side of this type with the
swizzle `ls`, fits it: both swizzles select as many components, there is a float type with as many,
and neither selects anything of a union. -/
structure Introduces (type ls rs : String) : Prop where
  components : Glsl.cardinality? type ls = Glsl.cardinality? type rs
  floats : (Glsl.componentCount? type).isSome = true → rs.utf8ByteSize ≤ 4
  union : Glsl.isUnion type = true → ls.utf8ByteSize = rs.utf8ByteSize

section

variable {reference : Reference} {left : Variable} {ls rs : String} {n : Nat}

/-- What has no components gives an attribute its own type. -/
theorem fits_attribute_of_none (h : Glsl.componentCount? left.type = none) :
    typesFit left ls (attributeVariable reference left) rs = true ↔
      (Glsl.isUnion left.type = true → ls.utf8ByteSize = rs.utf8ByteSize) := by
  have htype : (attributeVariable reference left).type = left.type := by
    rw [attributeVariable, Glsl.cardinality?_of_none h]
    rfl
  rw [typesFit_of_none (Or.inl h), htype, or_self, kind?_self, and_iff_right rfl]
  cases Glsl.isUnion left.type with
  | true => simp
  | false => simp

/-- What has components gives an attribute a float type, with as many of them as the swizzle of the
attribute selects. -/
theorem fits_attribute_of_some (h : Glsl.componentCount? left.type = some n) :
    typesFit left ls (attributeVariable reference left) reference.swizzle = true ↔
      Glsl.cardinality? left.type ls = Glsl.cardinality? left.type reference.swizzle ∧
        reference.swizzle.utf8ByteSize ≤ 4 := by
  obtain ⟨k, hk⟩ : ∃ k, Glsl.cardinality? left.type reference.swizzle = some k :=
    ⟨_, Glsl.cardinality?_of_some h _⟩
  have hleft := Glsl.cardinality?_of_some h ls
  have htype : (attributeVariable reference left).type = Glsl.floatType k := by
    rw [attributeVariable, hk]
    rfl
  obtain ⟨hpos, hsize⟩ := Glsl.selected h hk
  rw [← hsize, hk]
  by_cases hshort : k ≤ 4
  · have hright : Glsl.cardinality? (attributeVariable reference left).type reference.swizzle =
        some k := by rw [htype, Glsl.cardinality?_floatType h hk hshort]
    rw [and_iff_left hshort, typesFit_of_some hleft hright, hleft, Option.some.injEq]
  · -- no float type has so many components
    have hnone : Glsl.componentCount? (Glsl.floatType k) = none := by
      rw [Glsl.componentCount?_floatType hpos, if_neg hshort]
    have hne : left.type ≠ Glsl.floatType k := by
      intro he
      rw [he, hnone] at h
      cases h
    refine iff_of_false (fun hfit => ?_) fun h => hshort h.2
    rw [typesFit_of_none (Or.inr (htype ▸ hnone)), htype,
      kind?_of_not_union (Glsl.not_isUnion_floatType k),
      kind?_of_not_union (Glsl.not_isUnion_of_componentCount? h).1] at hfit
    rcases hfit with ⟨he, -⟩ | he | he
    · exact hne he
    · exact hne he
    · exact hne he.symm

theorem check_attribute_eq_ok_iff (left : Variable) (ls : String) (reference : Reference) :
    check left ls (attributeVariable reference left) reference.swizzle = .ok () ↔
      Introduces left.type ls reference.swizzle := by
  have hlength : lengthsFit left (attributeVariable reference left) = true := lengthsFit_of_eq rfl
  rw [check_eq_ok_iff, and_iff_left hlength]
  cases hcount : Glsl.componentCount? left.type with
  | none =>
    rw [fits_attribute_of_none hcount]
    refine ⟨fun h => ⟨?_, fun hs => ?_, h⟩, fun h => h.union⟩
    · rw [Glsl.cardinality?_of_none hcount, Glsl.cardinality?_of_none hcount]
    · rw [hcount] at hs
      cases hs
  | some n =>
    rw [fits_attribute_of_some hcount]
    refine ⟨fun h => ⟨h.1, fun _ => h.2, fun hu => ?_⟩, fun h => ⟨h.components, h.floats ?_⟩⟩
    · rw [(Glsl.not_isUnion_of_componentCount? hcount).1] at hu
      cases hu
    · rw [hcount]
      rfl

end

end Typing

/-- The first mapping that reads an attribute fits exactly if both swizzles select as many
components of the left side, up to four. -/
theorem Resolution.attribute_fits_iff (catalog : Catalog) (reference : Reference)
    (consumer : Consumer) (t : Technique) (left : Variable) (ls : String)
    (horigin : reference.origin = some .vertexAttribute) (hstage : consumer.stage ≠ .fragment)
    (hnew : t.registry.find? (.vertexAttribute reference.name) = none) :
    ∃ id u, resolve catalog reference consumer ⟨t, left⟩ = (.ok id, ⟨u, left⟩) ∧
      (Typing.check left ls (u.arena.read id) reference.swizzle = .ok () ↔
        Typing.Introduces left.type ls reference.swizzle) := by
  obtain ⟨u, hu, harena⟩ := resolve_attribute_of_new catalog left horigin hstage hnew
  refine ⟨t.arena.nextId, u, hu, ?_⟩
  rw [harena, Arena.read_of_get? (Arena.get?_add_nextId _ _)]
  exact Typing.check_attribute_eq_ok_iff left ls reference

/-- A swizzle on both sides. -/
theorem Resolution.attribute_fits_swizzled :
    ∃ id u, resolve [] ⟨some .vertexAttribute, "inPosition", "xy"⟩ ⟨"Placed", .vertex⟩
        ⟨.empty none, .plain "vec4" "position"⟩ =
          (.ok id, ⟨u, .plain "vec4" "position"⟩) ∧
      Typing.check (.plain "vec4" "position") "xy" (u.arena.read id) "xy" = .ok () := by
  obtain ⟨id, u, hu, hcheck⟩ := attribute_fits_iff [] ⟨some .vertexAttribute, "inPosition", "xy"⟩
    ⟨"Placed", .vertex⟩ (.empty none) (.plain "vec4" "position") "xy" rfl (by decide) rfl
  exact ⟨id, u, hu, hcheck.mpr ⟨rfl, fun _ => by decide, fun _ => rfl⟩⟩

/-- A swizzle on the left side alone is not counted: the attribute is taken for four components, of
which two are assigned. -/
theorem Resolution.attribute_misfits_swizzled_left :
    ∃ id u, resolve [] ⟨some .vertexAttribute, "inPosition", ""⟩ ⟨"Placed", .vertex⟩
        ⟨.empty none, .plain "vec4" "position"⟩ =
          (.ok id, ⟨u, .plain "vec4" "position"⟩) ∧
      (u.arena.read id).type = "vec4" ∧
      Typing.check (.plain "vec4" "position") "xy" (u.arena.read id) "" =
        .error (.typeMismatch "vec4.xy" "vec4") :=
  ⟨_, _, rfl, by decide +kernel, by decide +kernel⟩

end ShaderGraph
