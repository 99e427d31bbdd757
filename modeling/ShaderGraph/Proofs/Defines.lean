/-
  ShaderGraph.Proofs.Defines — what the defines of a technique are bound as.

  The first request for a parameter binds it, and later ones change nothing
  (`DefineTable.find?_grant`). What is bound can so be told from the text. A line and a condition
  bind with the type of the parameter; the length of an array binds as an integer, whatever the
  parameter is. A condition and a length bind the upper case of the parameter's name.

  - `definesTyped_of_readTechnique`: so a define has the type of its parameter unless an array was
    the first to ask for it (`float_bound_as_int`).
  - `guardsShared_of_readTechnique`: without `Defines` lines two parameters share their define
    where their names are one in upper case, and nowhere else. Then each of them switches on what
    is guarded by the other (`guards_collide`).
-/

import ShaderGraph.Proofs.Additions
import ShaderGraph.Proofs.Requests
import ShaderGraph.Proofs.Switching

namespace ShaderGraph

open Block (Statement)
open Condition (defineOf)

/-! ## Tables -/

namespace DefineTable

variable {b : DefineBinding} {param : String}

def Keyed (t : DefineTable) : Prop := (t.bindings.map (·.param)).Nodup

theorem place_perm (b : DefineBinding) (bs : List DefineBinding) : (place b bs).Perm (b :: bs) := by
  induction bs with
  | nil => exact .refl _
  | cons x xs ih =>
    rw [place]
    split
    · exact .refl _
    · exact (ih.cons x).trans (.swap b x xs)

theorem find?_place_self {bs : List DefineBinding} (h : bs.find? (·.param == b.param) = none) :
    (place b bs).find? (·.param == b.param) = some b := by
  induction bs with
  | nil => simp [place]
  | cons x xs ih =>
    rw [place]
    split
    · simp
    · rw [List.find?_cons] at h ⊢
      cases hx : x.param == b.param with
      | true => simp [hx] at h
      | false => exact ih (by simpa [hx] using h)

theorem find?_bind (t : DefineTable) (b : DefineBinding) (param : String) :
    (t.bind b).find? param = (t.find? param).or (if b.param = param then some b else none) := by
  unfold bind
  by_cases hparam : b.param = param
  · subst hparam
    rw [if_pos rfl]
    cases hb : t.find? b.param with
    | some x => rw [hb]; rfl
    | none => exact find?_place_self hb
  · rw [if_neg hparam, Option.or_none]
    cases t.find? b.param with
    | some x => rfl
    | none => exact find?_place_of_ne hparam t.bindings

/-- What a table has bound stays; otherwise the first request for a parameter counts. -/
theorem find?_grant (t : DefineTable) (requests : List Request) (param : String) :
    (t.grant requests).find? param = (t.find? param).or
      ((requests.find? (·.param.name == param)).map Request.binding) := by
  induction requests generalizing t with
  | nil => simp
  | cons r rs ih =>
    have hcons : t.grant (r :: rs) = (t.bind r.binding).grant rs := rfl
    rw [hcons, ih, find?_bind, Option.or_assoc, List.find?_cons, Request.param_binding]
    cases hr : r.param.name == param with
    | true => simp [beq_iff_eq.mp hr]
    | false => simp [beq_eq_false_iff_ne.mp hr]

theorem keyed_bind {t : DefineTable} (h : t.Keyed) (b : DefineBinding) : (t.bind b).Keyed := by
  unfold bind
  cases hb : t.find? b.param with
  | some _ => exact h
  | none =>
    have hnew : b.param ∉ t.bindings.map (·.param) := by
      intro hmem
      obtain ⟨x, hx, hparam⟩ := List.mem_map.mp hmem
      have := List.find?_eq_none.mp hb x hx
      simp [hparam] at this
    show ((place b t.bindings).map (·.param)).Nodup
    rw [((place_perm b t.bindings).map _).nodup_iff]
    exact List.nodup_cons.mpr ⟨hnew, h⟩

theorem keyed_grant {t : DefineTable} (h : t.Keyed) (requests : List Request) :
    (t.grant requests).Keyed := by
  induction requests generalizing t with
  | nil => exact h
  | cons r rs ih => exact ih (keyed_bind h r.binding)

/-- So each binding is the one that is found for its parameter. -/
theorem Keyed.find?_of_mem {t : DefineTable} (h : t.Keyed) (hb : b ∈ t.bindings) :
    t.find? b.param = some b := by
  cases hf : t.find? b.param with
  | none =>
    have := List.find?_eq_none.mp hf b hb
    simp at this
  | some x =>
    have hparam := List.find?_some hf
    rw [beq_iff_eq] at hparam
    exact congrArg some (List.inj_on_of_nodup_map h (List.mem_of_find?_eq_some hf) hb hparam)

end DefineTable

/-! ## Requests are for parameters of the material -/

namespace Request

def Declared (catalog : Catalog) (r : Request) : Prop :=
  catalog.param? r.param.name = some r.param

structure Own (catalog : Catalog) (r : Request) : Prop where
  declared : r.Declared catalog
  define : r.binding.define = defineOf r.param.name

variable {catalog : Catalog} {r : Request} {definition : Definition} {statement : Statement}

theorem param?_of_param? {name : String} {param : Parameter}
    (h : catalog.param? name = some param) : catalog.param? param.name = some param := by
  rw [name_of_param? h]
  exact h

theorem own_of_ofCondition {condition : Option String} (h : r ∈ ofCondition catalog condition) :
    r.Own catalog := by
  cases condition with
  | none => exact absurd h List.not_mem_nil
  | some text =>
    obtain ⟨param, hparam, rfl⟩ := List.mem_map.mp h
    obtain ⟨name, -, hname⟩ := List.mem_filterMap.mp hparam
    exact ⟨param?_of_param? hname, rfl⟩

theorem own_of_ofLength? {reference : Reference} {left : Variable}
    (h : ofLength? catalog reference left = some r) : r.Own catalog := by
  unfold ofLength? at h
  split at h
  · obtain ⟨length, -, h⟩ := Option.bind_eq_some_iff.mp h
    split at h
    · cases h
    · obtain ⟨size, hsize, rfl⟩ := Option.map_eq_some_iff.mp h
      exact ⟨param?_of_param? hsize, rfl⟩
  · cases h

theorem own_of_ofRightSide? {left : Variable} {right : RightSide}
    (h : ofRightSide? catalog left right = some r) : r.Own catalog := by
  cases right with
  | code text => cases h
  | reference text =>
    obtain ⟨reference, -, h⟩ := Option.bind_eq_some_iff.mp h
    exact own_of_ofLength? h

theorem own_of_ofInput (h : r ∈ ofInput catalog definition statement) :
    r.Own catalog := by
  unfold ofInput at h
  cases hl : MappingLine.split? statement.line with
  | none =>
    rw [hl] at h
    exact absurd h List.not_mem_nil
  | some line =>
    rw [hl] at h
    rcases List.mem_append.mp h with h | h
    · exact own_of_ofCondition h
    · obtain ⟨input, -, h⟩ := Option.bind_eq_some_iff.mp (Option.mem_toList.mp h)
      exact own_of_ofRightSide? h

theorem own_of_ofOutput (h : r ∈ ofOutput catalog statement) : r.Own catalog := by
  unfold ofOutput at h
  cases hl : MappingLine.split? statement.line with
  | none =>
    rw [hl] at h
    exact absurd h List.not_mem_nil
  | some line =>
    rw [hl] at h
    exact own_of_ofCondition h

theorem own_of_ofNodeStatement (h : r ∈ ofNodeStatement catalog definition statement) :
    r.Own catalog := by
  unfold ofNodeStatement at h
  split at h
  · exact own_of_ofCondition h
  · split at h
    · obtain ⟨mapping, -, h⟩ := List.mem_flatMap.mp h
      exact own_of_ofInput h
    · split at h
      · obtain ⟨mapping, -, h⟩ := List.mem_flatMap.mp h
        exact own_of_ofOutput h
      · exact absurd h List.not_mem_nil

theorem declared_of_ofDefine? (h : ofDefine? catalog statement = some r) : r.Declared catalog := by
  unfold ofDefine? at h
  split at h
  · obtain ⟨param, hparam, rfl⟩ := Option.map_eq_some_iff.mp h
    exact param?_of_param? hparam
  · cases h

theorem own_of_ofNodes {statements : List Statement} {definitions : List Definition}
    (h : r ∈ ofNodes catalog statements definitions) : r.Own catalog := by
  obtain ⟨⟨node, definition⟩, -, h⟩ := List.mem_flatMap.mp h
  obtain ⟨s, -, h⟩ := List.mem_flatMap.mp h
  exact own_of_ofNodeStatement h

/-- Only a length may bind with another type than that of the parameter. -/
theorem type_binding_iff (r : Request) :
    r.binding.type = r.param.type ↔ (r = .length r.param → r.param.type = .single .int) := by
  cases r with
  | line define param => simp [binding, Request.param]
  | guard param => simp [binding, Request.param]
  | length size => simp [binding, Request.param, eq_comm]

end Request

/-! ## What is bound -/

section

variable {context : Context} {statement : Statement} {t : Technique} {b : DefineBinding}

theorem Technique.declared_of_requests {r : Request} (h : r ∈ t.requests context statement) :
    r.Declared context.catalog := by
  rcases List.mem_append.mp h with h | h
  · obtain ⟨line, -, h⟩ := List.mem_filterMap.mp h
    exact Request.declared_of_ofDefine? h
  · exact (Request.own_of_ofNodes h).declared

def Technique.firstRequest? (context : Context) (statement : Statement) (t : Technique)
    (param : String) : Option Request :=
  (t.requests context statement).find? (·.param.name == param)

/-- The requests depend on nothing that finishing writes. -/
theorem requests_finish (t : Technique) :
    t.finish.requests context statement = t.requests context statement := by
  rw [Technique.requests, t.finish_definitions, Technique.requests]

/-- Each define of a technique is bound as the first request of the text for its parameter wants
it: with the type that the catalog declares, unless this is the length of an array. -/
structure Technique.DefinesTyped (context : Context) (statement : Statement) (t : Technique) :
    Prop where
  keyed : t.defines.Keyed
  first : ∀ param, t.defines.find? param =
    (t.firstRequest? context statement param).map Request.binding
  typed : ∀ b ∈ t.defines.bindings, ∃ param request,
    context.catalog.param? b.param = some param ∧
      t.firstRequest? context statement b.param = some request ∧ request.param = param ∧
      b = request.binding ∧
      (b.type = param.type ↔ (request = .length param → param.type = .single .int))

theorem definesTyped_of_asRead {warnings : List Warning} (h : AsRead context statement warnings t) :
    t.DefinesTyped context statement := by
  have hdefines := defines_of_asRead h
  have hempty : DefineTable.empty.Keyed := List.nodup_nil
  have hkeyed : t.defines.Keyed := by
    rw [hdefines]
    exact DefineTable.keyed_grant hempty _
  have hfirst : ∀ param, t.defines.find? param =
      (t.firstRequest? context statement param).map Request.binding := by
    intro param
    rw [hdefines, DefineTable.find?_grant]
    rfl
  refine ⟨hkeyed, hfirst, fun b hb => ?_⟩
  have hb := hkeyed.find?_of_mem hb
  rw [hfirst] at hb
  obtain ⟨request, hrequest, rfl⟩ := Option.map_eq_some_iff.mp hb
  have hdeclared := Technique.declared_of_requests (List.mem_of_find?_eq_some hrequest)
  refine ⟨request.param, request, ?_, hrequest, rfl, rfl, request.type_binding_iff⟩
  rw [Request.param_binding]
  exact hdeclared

end

/-- In every technique that is read, a define has the type of its parameter unless an array was
the first to ask for it. -/
theorem definesTyped_of_readTechnique {context : Context} {statement : Statement}
    {warnings warnings' : List Warning} {t : Technique}
    (h : readTechnique context statement warnings = (.ok (some t), warnings')) :
    t.DefinesTyped context statement := by
  obtain ⟨t₀, hread, rfl⟩ := asRead_of_readTechnique h
  obtain ⟨hkeyed, hfirst, htyped⟩ := definesTyped_of_asRead hread
  have hsame : t₀.finish.firstRequest? context statement =
      t₀.firstRequest? context statement := by
    funext param
    rw [Technique.firstRequest?, requests_finish, Technique.firstRequest?]
  rw [← hsame] at hfirst htyped
  exact ⟨hkeyed, hfirst, htyped⟩

namespace Lit

/-- A material with an array and a parameter that gives its length and is no integer. -/
def countedContext : Context where
  catalog := [⟨"Lights", .array .vector4, none⟩, ⟨"Count", .single .float, none⟩]
  assets := .ofFiles []
  options := ⟨false⟩

def countedTechnique (mapping : String) : Statement :=
  statement "Technique" [
    statement "ShaderNodesDefinitions" [
      statement "ShaderNodeDefinition Sum" [
        line "Type: Fragment",
        statement "Input" [line "vec4 lights[Count]"],
        statement "Output" [line "vec4 sum"]]],
    statement "FragmentShaderNodes" [
      statement "ShaderNode Summed" [
        line "Definition : Sum",
        statement "InputMappings" [line mapping],
        statement "OutputMappings" [line "Global.color = sum"]]]]

end Lit

/-- A condition names the length before the array asks for it. -/
theorem definesTyped_guarded :
    ∃ t warnings,
      readTechnique Lit.countedContext
          (Lit.countedTechnique "lights = MatParam.Lights : Count") [] =
        (.ok (some t), warnings) ∧
      t.defines.bindings = [⟨"Count", "COUNT", .single .float⟩] ∧
      t.DefinesTyped Lit.countedContext
        (Lit.countedTechnique "lights = MatParam.Lights : Count") := by
  obtain ⟨t, warnings, h, hread⟩ := readTechnique_of_readTechnique?
    (f := fun t => t.defines.bindings) (a := [⟨"Count", "COUNT", .single .float⟩])
    (show (readTechnique? Lit.countedContext
      (Lit.countedTechnique "lights = MatParam.Lights : Count")).map _ = _ by decide +kernel)
  exact ⟨t, warnings, h, hread, definesTyped_of_readTechnique h⟩

/-- Without the condition the array is the first to ask, and the same parameter is bound as an
integer. -/
theorem float_bound_as_int :
    ∃ t warnings param,
      readTechnique Lit.countedContext (Lit.countedTechnique "lights = MatParam.Lights") [] =
        (.ok (some t), warnings) ∧
      Lit.countedContext.catalog.param? "Count" = some param ∧ param.type = .single .float ∧
      t.defines.find? "Count" = some ⟨"Count", "COUNT", .single .int⟩ := by
  obtain ⟨t, warnings, h, hread⟩ := readTechnique_of_readTechnique?
    (f := fun t => t.defines.find? "Count") (a := some ⟨"Count", "COUNT", .single .int⟩)
    (show (readTechnique? Lit.countedContext
      (Lit.countedTechnique "lights = MatParam.Lights")).map _ = _ by decide +kernel)
  exact ⟨t, warnings, _, h, rfl, rfl, hread⟩

/-! ## Shared defines -/

def Technique.AsksFor (context : Context) (statement : Statement) (t : Technique)
    (param : String) : Prop :=
  ∃ r ∈ t.requests context statement, r.param.name = param

/-- Which defines are shared in a technique that is read from the statement: the text asks for
both parameters, and in upper case their names are one. A guard that is written is switched on by
all parameters that share its define, and there is one. -/
structure GuardsShared (context : Context) (statement : Statement) (t : Technique) : Prop where
  own : ∀ b ∈ t.defines.bindings, b.define = defineOf b.param
  shared : ∀ p q, p ≠ q →
    ((∃ b ∈ t.defines.bindings, ∃ b' ∈ t.defines.bindings,
        b.param = p ∧ b'.param = q ∧ b.define = b'.define) ↔
      t.AsksFor context statement p ∧ t.AsksFor context statement q ∧ defineOf p = defineOf q)
  guards : ∃ draft t₀ library, Drafts context statement draft ∧
    Reach context draft.progress ⟨t₀, library, none⟩ ∧ t = t₀.finish ∧ t.ComposedOf t₀ ∧
    ∀ define, t₀.HasGuard define →
      (∃ b ∈ t.defines.bindings, b.define = define) ∧
      ∀ b ∈ t.defines.bindings, b.define = define ↔ defineOf b.param = define

section

variable {context : Context} {statement : Statement} {t : Technique}

/-- Without `Defines` lines only conditions and lengths ask. -/
theorem own_of_requests (hno : ∀ s ∈ statement.contents, s.keyword ≠ "Defines") {r : Request}
    (h : r ∈ t.requests context statement) : r.Own context.catalog := by
  have hnone : ofKind .defines statement.contents = [] := by
    refine List.filter_eq_nil_iff.mpr fun s hs hkind => hno s hs ?_
    exact StatementKind.keyword_of_defines (beq_iff_eq.mp hkind)
  rcases List.mem_append.mp h with h | h
  · rw [Request.ofDefines, hnone] at h
    exact absurd h List.not_mem_nil
  · exact Request.own_of_ofNodes h

namespace Technique.DefinesTyped

/-- Whatever the text asks for is bound. -/
theorem exists_binding_iff (h : t.DefinesTyped context statement) (param : String) :
    (∃ b ∈ t.defines.bindings, b.param = param) ↔ t.AsksFor context statement param := by
  constructor
  · rintro ⟨b, hb, rfl⟩
    obtain ⟨param, request, -, hrequest, -, rfl, -⟩ := h.typed b hb
    exact ⟨request, List.mem_of_find?_eq_some hrequest, (Request.param_binding request).symm⟩
  · rintro ⟨r, hr, rfl⟩
    have hfirst := h.first r.param.name
    cases hf : t.firstRequest? context statement r.param.name with
    | none =>
      have := List.find?_eq_none.mp hf r hr
      simp at this
    | some request =>
      rw [hf, Option.map_some] at hfirst
      have hparam := List.find?_some hfirst
      exact ⟨request.binding, List.mem_of_find?_eq_some hfirst, beq_iff_eq.mp hparam⟩

theorem own (h : t.DefinesTyped context statement)
    (hno : ∀ s ∈ statement.contents, s.keyword ≠ "Defines") :
    ∀ b ∈ t.defines.bindings, b.define = defineOf b.param := by
  intro b hb
  obtain ⟨param, request, -, hrequest, -, rfl, -⟩ := h.typed b hb
  rw [Request.param_binding]
  exact (own_of_requests hno (List.mem_of_find?_eq_some hrequest)).define

theorem shared (h : t.DefinesTyped context statement)
    (hown : ∀ b ∈ t.defines.bindings, b.define = defineOf b.param) (p q : String) :
    (∃ b ∈ t.defines.bindings, ∃ b' ∈ t.defines.bindings,
        b.param = p ∧ b'.param = q ∧ b.define = b'.define) ↔
      t.AsksFor context statement p ∧ t.AsksFor context statement q ∧ defineOf p = defineOf q := by
  constructor
  · rintro ⟨b, hb, b', hb', rfl, rfl, hdefine⟩
    rw [hown b hb, hown b' hb'] at hdefine
    exact ⟨(h.exists_binding_iff _).mp ⟨b, hb, rfl⟩, (h.exists_binding_iff _).mp ⟨b', hb', rfl⟩,
      hdefine⟩
  · rintro ⟨hp, hq, hdefine⟩
    obtain ⟨b, hb, rfl⟩ := (h.exists_binding_iff p).mpr hp
    obtain ⟨b', hb', rfl⟩ := (h.exists_binding_iff q).mpr hq
    exact ⟨b, hb, b', hb', rfl, rfl, by rw [hown b hb, hown b' hb', hdefine]⟩

end Technique.DefinesTyped

end

/-- In every technique that is read without `Defines` lines, parameters share a define where their
names are one in upper case. -/
theorem guardsShared_of_readTechnique {context : Context} {statement : Statement}
    {warnings warnings' : List Warning} {t : Technique}
    (h : readTechnique context statement warnings = (.ok (some t), warnings'))
    (hno : ∀ s ∈ statement.contents, s.keyword ≠ "Defines") :
    GuardsShared context statement t := by
  obtain ⟨t₀, hread, rfl⟩ := asRead_of_readTechnique h
  have htyped := definesTyped_of_asRead hread
  have hown := htyped.own hno
  obtain ⟨draft, library, hdraft, hreach⟩ := hread.reach
  have hregistered := registered_of_reach hdraft hreach
  refine ⟨hown, fun p q _ => ?_, draft, t₀, library, hdraft, hreach, rfl,
    composedOf_finish hregistered, fun define hg => ⟨?_, fun b hb => ?_⟩⟩
  · have hshared := htyped.shared hown p q
    rw [Technique.AsksFor, Technique.AsksFor, requests_finish]
    exact hshared
  · obtain ⟨b, hb, hdefine⟩ := binds_of_hasGuard hregistered hg
    exact ⟨b, hb, (hown b hb).trans hdefine⟩
  · rw [hown b hb]

namespace Lit

/-- A material with two parameters whose names are one in upper case. -/
def foggyContext : Context where
  catalog := [⟨"Fog", .single .boolean, none⟩, ⟨"fog", .single .float, none⟩]
  assets := .ofFiles []
  options := ⟨false⟩

def glowingNode (name param : String) : Statement :=
  statement s!"ShaderNode {name}" [
    line "Definition : Glow", line s!"Condition : {param}",
    statement "OutputMappings" [line s!"Global.{name} = glow"]]

def foggyTechnique : Statement :=
  statement "Technique" [
    statement "ShaderNodesDefinitions" [
      statement "ShaderNodeDefinition Glow" [
        line "Type: Fragment", statement "Output" [line "vec4 glow"]]],
    statement "FragmentShaderNodes" [glowingNode "Fogging" "Fog", glowingNode "Misting" "fog"]]

theorem readTechnique_foggy :
    ∃ t warnings, readTechnique foggyContext foggyTechnique [] = (.ok (some t), warnings) ∧
      (t.nodes.map (·.condition), t.defines.bindings) =
        ([some "defined(FOG)", some "defined(FOG)"],
          [⟨"Fog", "FOG", .single .boolean⟩, ⟨"fog", "FOG", .single .float⟩]) :=
  readTechnique_of_readTechnique? (by decide +kernel)

end Lit

theorem guardsShared_foggy :
    ∃ t warnings,
      readTechnique Lit.foggyContext Lit.foggyTechnique [] = (.ok (some t), warnings) ∧
      (∀ s ∈ Lit.foggyTechnique.contents, s.keyword ≠ "Defines") ∧
      GuardsShared Lit.foggyContext Lit.foggyTechnique t := by
  have hno : ∀ s ∈ Lit.foggyTechnique.contents, s.keyword ≠ "Defines" := by decide +kernel
  obtain ⟨t, warnings, h, -⟩ := Lit.readTechnique_foggy
  exact ⟨t, warnings, h, hno, guardsShared_of_readTechnique h hno⟩

/-- Two parameters set one define, so the node that is guarded by the one is switched on by the
other. -/
theorem guards_collide :
    ∃ t warnings,
      readTechnique Lit.foggyContext Lit.foggyTechnique [] = (.ok (some t), warnings) ∧
      (∀ s ∈ Lit.foggyTechnique.contents, s.keyword ≠ "Defines") ∧
      t.nodes.map (·.condition) = [some "defined(FOG)", some "defined(FOG)"] ∧
      ∃ b ∈ t.defines.bindings, ∃ b' ∈ t.defines.bindings,
        b.param ≠ b'.param ∧ b.define = "FOG" ∧ b'.define = "FOG" := by
  obtain ⟨t, warnings, h, hread⟩ := Lit.readTechnique_foggy
  obtain ⟨hconditions, hdefines⟩ := Prod.mk.inj hread
  refine ⟨t, warnings, h, by decide +kernel, hconditions, ?_⟩
  rw [hdefines]
  exact ⟨_, List.mem_cons_self, _, List.mem_cons_of_mem _ List.mem_cons_self, by decide, rfl, rfl⟩

end ShaderGraph
