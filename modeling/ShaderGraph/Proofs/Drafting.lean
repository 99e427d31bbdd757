/-
  ShaderGraph.Proofs.Drafting — from the statement of a technique to its graph.

  The statements of a technique are read to a draft (`DraftStep` has one case for each kind),
  which holds nothing of a graph yet (`blank_of_drafts`). The nodes are read from there
  (`AsRead`), and the technique is finished: `built_of_readTechnique`.
-/

import ShaderGraph.Proofs.Building
import ShaderGraph.Technique.Reader

namespace ShaderGraph

open Block (Statement)

structure Technique.Blank (t : Technique) : Prop where
  nodes : t.nodes = []
  interface : t.interface = {}
  arena : t.arena = .empty
  registry : t.registry = .empty

def Draft.progress (draft : Draft) : Progress := ⟨draft.technique, draft.definitions, none⟩

/-- The statement of a technique is read to a draft before any node is. -/
def Drafts (context : Context) (statement : Statement) (draft : Draft) : Prop :=
  ∃ name, techniqueName? statement.line = some name ∧
    statement.contents.foldlM (Draft.read context) { technique := .empty name } = .ok draft

inductive DraftStep (context : Context) (draft : Draft) (statement : Statement) : Draft → Prop
  | worldParameters {t : Technique} :
      statement.contents.foldlM Draft.readWorldBinding draft.technique = .ok t →
      DraftStep context draft statement (draft.setTechnique t)
  | defines {t : Technique} :
      statement.contents.foldlM (Draft.readDefine context.catalog) draft.technique = .ok t →
      DraftStep context draft statement (draft.setTechnique t)
  | definitions {definitions : List Definition} :
      readDefinitions context.options statement.contents = .ok definitions →
      DraftStep context draft statement
        { draft with definitions := draft.definitions ++ definitions }
  | nodes :
      DraftStep context draft statement
        { draft with nodeBlocks := draft.nodeBlocks ++ [statement] }
  | ignored : DraftStep context draft statement draft
  | source {stage : String} {t : Technique} :
      Draft.readStageSource stage draft.technique statement = .ok t →
      DraftStep context draft statement (draft.setTechnique t)

section

variable {context : Context} {statement : Statement}

theorem draftStep_of_read {draft draft' : Draft}
    (h : draft.read context statement = .ok draft') : DraftStep context draft statement draft' := by
  simp only [Draft.read] at h
  split at h
  · obtain ⟨t, ht, h⟩ := Attempt.except_bind_eq_ok.mp h
    obtain rfl := Attempt.except_pure_eq_ok.mp h
    exact .worldParameters ht
  · split at h
    · obtain ⟨t, ht, h⟩ := Attempt.except_bind_eq_ok.mp h
      obtain rfl := Attempt.except_pure_eq_ok.mp h
      exact .defines ht
    · split at h
      · obtain ⟨definitions, hd, h⟩ := Attempt.except_bind_eq_ok.mp h
        obtain rfl := Attempt.except_pure_eq_ok.mp h
        exact .definitions hd
      · split at h
        · obtain rfl := Attempt.except_pure_eq_ok.mp h
          exact .nodes
        · split at h
          · obtain rfl := Attempt.except_pure_eq_ok.mp h
            exact .ignored
          · split at h
            · obtain ⟨t, ht, h⟩ := Attempt.except_bind_eq_ok.mp h
              obtain rfl := Attempt.except_pure_eq_ok.mp h
              exact .source ht
            · cases h

/-- What every statement keeps of a draft is true of every draft. -/
theorem Drafts.invariant {P : Draft → Prop} {draft : Draft} (h : Drafts context statement draft)
    (empty : ∀ name, P { technique := .empty name })
    (step : ∀ d s d', P d → DraftStep context d s d' → P d') : P draft := by
  obtain ⟨name, -, h⟩ := h
  exact Attempt.except_foldlM_invariant
    (fun s _ d d' hd hs => step d s d' hd (draftStep_of_read hs)) (empty name) h

theorem blank_readWorldBinding {t t' : Technique} (ht : t.Blank)
    (h : Draft.readWorldBinding t statement = .ok t') : t'.Blank := by
  unfold Draft.readWorldBinding at h
  split at h
  · cases h
    exact ⟨ht.nodes, ht.interface, ht.arena, ht.registry⟩
  · cases h

theorem blank_readDefine {catalog : Catalog} {t t' : Technique} (ht : t.Blank)
    (h : Draft.readDefine catalog t statement = .ok t') : t'.Blank := by
  unfold Draft.readDefine at h
  split at h
  · cases h
    exact ⟨ht.nodes, ht.interface, ht.arena, ht.registry⟩
  · split at h
    · cases h
      exact ⟨ht.nodes, ht.interface, ht.arena, ht.registry⟩
    · cases h
  · cases h

theorem blank_readStageSource {stage : String} {t t' : Technique} (ht : t.Blank)
    (h : Draft.readStageSource stage t statement = .ok t') : t'.Blank := by
  unfold Draft.readStageSource at h
  obtain ⟨_, -, h⟩ := Attempt.except_bind_eq_ok.mp h
  obtain ⟨_, -, h⟩ := Attempt.except_bind_eq_ok.mp h
  obtain rfl := Attempt.except_pure_eq_ok.mp h
  exact ⟨ht.nodes, ht.interface, ht.arena, ht.registry⟩

theorem blank_of_drafts {draft : Draft} (h : Drafts context statement draft) :
    draft.technique.Blank := by
  refine h.invariant (P := fun d => d.technique.Blank) (fun _ => ⟨rfl, rfl, rfl, rfl⟩) ?_
  intro d s d' hd hstep
  cases hstep with
  | worldParameters h =>
    exact Attempt.except_foldlM_invariant (fun _ _ _ _ => blank_readWorldBinding) hd h
  | defines h =>
    exact Attempt.except_foldlM_invariant (fun _ _ _ _ => blank_readDefine) hd h
  | source h => exact blank_readStageSource hd h
  | definitions _ => exact hd
  | nodes => exact hd
  | ignored => exact hd

theorem reach_nodeBlocks {start : Progress} {blocks : List Statement} {g g' : Graph} {u : Unit}
    (hr : Reach context start (g.progress none))
    (h : (blocks.forM fun block => Graph.readNodes context block.contents) g = (.ok u, g')) :
    Reach context start (g'.progress none) := by
  induction blocks generalizing g with
  | nil =>
    obtain ⟨-, rfl⟩ := Attempt.pure_eq_ok.mp h
    exact hr
  | cons block blocks ih =>
    obtain ⟨_, g₁, hb, h⟩ := Attempt.bind_eq_ok.mp h
    exact ih (reach_readNodes hr hb) h

/-- The technique of a statement as it is read, before it is finished. -/
inductive AsRead (context : Context) (statement : Statement) (warnings : List Warning) :
    Technique → Prop
  | sources {draft : Draft} :
      Drafts context statement draft → draft.hasSources = true →
      AsRead context statement warnings draft.technique
  | nodes {draft : Draft} {g : Graph} :
      Drafts context statement draft → draft.hasSources = false →
      (draft.nodeBlocks.forM fun block => Graph.readNodes context block.contents)
        ⟨draft.technique, draft.definitions, warnings⟩ = (.ok (), g) →
      AsRead context statement warnings g.technique

theorem asRead_of_readTechnique {t : Technique} {warnings warnings' : List Warning}
    (h : readTechnique context statement warnings = (.ok (some t), warnings')) :
    ∃ t₀, AsRead context statement warnings t₀ ∧ t = t₀.finish := by
  cases hname : techniqueName? statement.line with
  | none =>
    simp only [readTechnique, hname] at h
    exact absurd h Attempt.throw_ne_ok
  | some name =>
    simp only [readTechnique, hname, Attempt.bind_eq_ok, Attempt.ofExcept_eq_ok] at h
    obtain ⟨draft, _, ⟨hdraft, rfl⟩, h⟩ := h
    split at h
    · next hsources =>
      obtain ⟨ht, -⟩ := Attempt.pure_eq_ok.mp h
      cases ht
      exact ⟨draft.technique, .sources ⟨name, hname, hdraft⟩ hsources, rfl⟩
    · next hsources =>
      split at h
      · obtain ⟨ht, -⟩ := Attempt.pure_eq_ok.mp h
        cases ht
      · simp only [Attempt.bind_eq_ok, Attempt.pure_eq_ok] at h
        obtain ⟨finished, _, hbuild, ht, rfl⟩ := h
        cases ht
        simp only [buildGraph] at hbuild
        generalize hblocks : (draft.nodeBlocks.forM fun block =>
          Graph.readNodes context block.contents) _ = result at hbuild
        obtain ⟨r, g⟩ := result
        cases r with
        | error e => cases hbuild
        | ok u =>
          cases hbuild
          exact ⟨g.technique,
            .nodes ⟨name, hname, hdraft⟩ (by simpa using hsources) hblocks, rfl⟩

/-- A technique was built in steps as it was read. -/
theorem AsRead.reach {t₀ : Technique} {warnings : List Warning}
    (h : AsRead context statement warnings t₀) :
    ∃ draft library, Drafts context statement draft ∧
      Reach context draft.progress ⟨t₀, library, none⟩ := by
  cases h with
  | @sources draft hdraft _ => exact ⟨draft, draft.definitions, hdraft, .start⟩
  | @nodes draft g hdraft _ hblocks =>
    refine ⟨draft, g.library, hdraft, reach_nodeBlocks ?_ hblocks⟩
    exact .start

/-- A technique that is read was built in steps and then finished. -/
theorem built_of_readTechnique {t : Technique} {warnings warnings' : List Warning}
    (h : readTechnique context statement warnings = (.ok (some t), warnings')) :
    ∃ draft t₀ library, Drafts context statement draft ∧
      Reach context draft.progress ⟨t₀, library, none⟩ ∧ t = t₀.finish := by
  obtain ⟨t₀, hread, rfl⟩ := asRead_of_readTechnique h
  obtain ⟨draft, library, hdraft, hreach⟩ := hread.reach
  exact ⟨draft, t₀, library, hdraft, hreach, rfl⟩

def readTechnique? (context : Context) (statement : Statement) : Option Technique :=
  (readTechnique context statement []).1.toOption.join

theorem readTechnique_of_readTechnique? {α : Type} {f : Technique → α} {a : α}
    (h : (readTechnique? context statement).map f = some a) :
    ∃ t warnings, readTechnique context statement [] = (.ok (some t), warnings) ∧ f t = a := by
  unfold readTechnique? at h
  generalize readTechnique context statement [] = result at h ⊢
  obtain ⟨r, warnings⟩ := result
  cases r with
  | error e => cases h
  | ok technique =>
    cases technique with
    | none => cases h
    | some t =>
      cases h
      exact ⟨t, warnings, rfl, rfl⟩

end

/-! ## A technique with both stages -/

namespace Lit

def statement (text : String) (contents : List Statement) : Statement := ⟨⟨1, text⟩, contents⟩

def line (text : String) : Statement := statement text []

def definitions : List Statement :=
  [statement "ShaderNodeDefinition Place" [
      line "Type: Vertex",
      statement "Input" [line "vec3 position", line "vec2 coordinate"],
      statement "Output" [line "vec4 placed", line "vec2 coordinate"]],
    statement "ShaderNodeDefinition Light" [
      line "Type: Fragment",
      statement "Input" [line "vec2 coordinate", line "vec4 base", line "vec4 tint"],
      statement "Output" [line "vec4 lit"]]]

def vertexNode : Statement :=
  statement "ShaderNode Placed" [
    line "Definition : Place",
    statement "InputMappings" [
      line "position = Attr.inPosition", line "coordinate = Attr.inCoordinate"],
    statement "OutputMappings" [line "Global.position = placed"]]

def fragmentNode : Statement :=
  statement "ShaderNode Lighted" [
    line "Definition : Light",
    line "Condition : UseLight",
    statement "InputMappings" [
      line "coordinate = Placed.coordinate", line "base = MatParam.Color : UseLight",
      line "tint = MatParam.Color"],
    statement "OutputMappings" [line "Global.color = lit"]]

/-- A material with a color that both nodes of a technique make visible. -/
def technique : Statement :=
  statement "Technique" [
    statement "ShaderNodesDefinitions" definitions,
    statement "VertexShaderNodes" [vertexNode],
    statement "FragmentShaderNodes" [fragmentNode]]

def context : Context where
  catalog := [⟨"Color", .single .vector4, none⟩, ⟨"UseLight", .single .boolean, none⟩]
  assets := .ofFiles []
  options := ⟨false⟩

structure Read (t : Technique) : Prop where
  names : t.nodes.map (·.name) = ["Placed", "Lighted"]
  conditions : t.nodes.map (·.condition) = [none, some "defined(USELIGHT)"]
  inputs : t.nodes.map (·.inputs.length) = [2, 3]
  keys : t.registry.entries.map (·.key) = [.vertexAttribute "inPosition",
    .vertexAttribute "inCoordinate", .varying "Placed" "coordinate", .uniform "m_Color"]

theorem readTechnique_technique :
    ∃ t warnings, readTechnique context technique [] = (.ok (some t), warnings) ∧ Read t := by
  have hread : (readTechnique? context technique).map (fun t =>
      (t.nodes.map (·.name), t.nodes.map (·.condition), t.nodes.map (·.inputs.length),
        t.registry.entries.map (·.key))) =
      some (["Placed", "Lighted"], [none, some "defined(USELIGHT)"], [2, 3],
        [.vertexAttribute "inPosition", .vertexAttribute "inCoordinate",
          .varying "Placed" "coordinate", .uniform "m_Color"]) := by
    decide +kernel
  obtain ⟨t, warnings, h, hread⟩ := readTechnique_of_readTechnique? hread
  simp only [Prod.mk.injEq] at hread
  exact ⟨t, warnings, h, hread.1, hread.2.1, hread.2.2.1, hread.2.2.2⟩

/-! The same with two nodes more: the vertex stage reads the color as well, and the lit color is
read within the fragment stage. -/

def shadedNode : Statement :=
  statement "ShaderNode Shaded" [
    line "Definition : Shade",
    statement "InputMappings" [line "tint = MatParam.Color"],
    statement "OutputMappings" [line "Global.position = shaded"]]

def mixedNode : Statement :=
  statement "ShaderNode Mixed" [
    line "Definition : Mix",
    statement "InputMappings" [
      line "lit = Lighted.lit", line "coordinate = Placed.coordinate",
      line "tint = MatParam.Color"],
    statement "OutputMappings" [line "Global.color = mixed"]]

def mixedTechnique : Statement :=
  statement "Technique" [
    statement "ShaderNodesDefinitions" (definitions ++ [
      statement "ShaderNodeDefinition Shade" [
        line "Type: Vertex",
        statement "Input" [line "vec4 tint"],
        statement "Output" [line "vec4 shaded"]],
      statement "ShaderNodeDefinition Mix" [
        line "Type: Fragment",
        statement "Input" [line "vec4 lit", line "vec2 coordinate", line "vec4 tint"],
        statement "Output" [line "vec4 mixed"]]]),
    statement "VertexShaderNodes" [vertexNode, shadedNode],
    statement "FragmentShaderNodes" [fragmentNode, mixedNode]]

structure ReadMixed (t : Technique) : Prop where
  sources : t.nodes.map (fun n => (n.name, n.inputs.map (·.source))) = [
    ("Placed", [.var ⟨0⟩, .var ⟨2⟩]), ("Shaded", [.var ⟨6⟩]),
    ("Lighted", [.var ⟨9⟩, .var ⟨6⟩, .var ⟨6⟩]), ("Mixed", [.var ⟨15⟩, .var ⟨9⟩, .var ⟨6⟩])]
  declarations : t.registry.entries = [
    ⟨.vertexAttribute "inPosition", ⟨0⟩, ["Placed"]⟩,
    ⟨.vertexAttribute "inCoordinate", ⟨2⟩, ["Placed"]⟩,
    ⟨.uniform "m_Color", ⟨6⟩, ["Shaded", "Lighted", "Mixed"]⟩,
    ⟨.varying "Placed" "coordinate", ⟨9⟩, ["Lighted", "Mixed"]⟩]
  uniforms : (t.interface.vertexUniforms, t.interface.fragmentUniforms) = ([⟨6⟩], [⟨6⟩])

theorem readTechnique_mixedTechnique :
    ∃ t warnings, readTechnique context mixedTechnique [] = (.ok (some t), warnings) ∧
      ReadMixed t := by
  have hread : (readTechnique? context mixedTechnique).map (fun t =>
      (t.nodes.map (fun n => (n.name, n.inputs.map (·.source))), t.registry.entries,
        t.interface.vertexUniforms, t.interface.fragmentUniforms)) =
      some ([
        ("Placed", [.var ⟨0⟩, .var ⟨2⟩]), ("Shaded", [.var ⟨6⟩]),
        ("Lighted", [.var ⟨9⟩, .var ⟨6⟩, .var ⟨6⟩]), ("Mixed", [.var ⟨15⟩, .var ⟨9⟩, .var ⟨6⟩])], [
        ⟨.vertexAttribute "inPosition", ⟨0⟩, ["Placed"]⟩,
        ⟨.vertexAttribute "inCoordinate", ⟨2⟩, ["Placed"]⟩,
        ⟨.uniform "m_Color", ⟨6⟩, ["Shaded", "Lighted", "Mixed"]⟩,
        ⟨.varying "Placed" "coordinate", ⟨9⟩, ["Lighted", "Mixed"]⟩], [⟨6⟩], [⟨6⟩]) := by
    decide +kernel
  obtain ⟨t, warnings, h, hread⟩ := readTechnique_of_readTechnique? hread
  simp only [Prod.mk.injEq] at hread
  exact ⟨t, warnings, h, hread.1, hread.2.1, Prod.ext hread.2.2.1 hread.2.2.2⟩

end Lit

end ShaderGraph
