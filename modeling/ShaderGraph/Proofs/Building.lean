/-
  ShaderGraph.Proofs.Building — the steps in which a graph is built.

  A technique grows statement by statement: a node is opened with its definition, gets
  its condition and its mappings one at a time, and is closed. `Step` has one case for each,
  with the technique, the library and the open node before and after it; `Reach` is every
  state that steps lead to. `reach_readNodes` says that reading goes through nothing else,
  so what every step keeps is known of every graph.
-/

import ShaderGraph.Graph
import ShaderGraph.Proofs.Failure
import ShaderGraph.Proofs.Resolving

namespace ShaderGraph

open Block (Statement)
open Resolution (StoresGlobal Resolves globalVariable)

/-! ## What each statement does -/

def Variable.ofNode (v : Variable) (node : String) : Variable :=
  { v with origin := some (.node node) }

def Definition.fromFile (path : String) (d : Definition) : Definition :=
  { d with path := some path }

namespace Technique

def markUnused (t : Technique) (name : String) : Technique :=
  t.withInterface { t.interface with unusedNodes := t.interface.unusedNodes.insert name }

def markUsed (t : Technique) (name : String) : Technique :=
  t.withInterface { t.interface with unusedNodes := t.interface.unusedNodes.erase name }

def markProducer (t : Technique) (reference : Reference) : Technique :=
  match Graph.producer? reference with
  | some name => t.markUsed name
  | none => t

/-- A new node counts as unused, unless it is declared to write nothing. -/
def markOpened (t : Technique) (name : String) (definition : Definition) : Technique :=
  if definition.noOutput then t.markUsed name else t.markUnused name

end Technique

inductive BindsOwn (catalog : Catalog) : List String → Technique → Technique → Prop
  | nil {t : Technique} : BindsOwn catalog [] t t
  | cons {name : String} {names : List String} {param : Parameter} {t t' : Technique} :
      catalog.param? name = some param →
      BindsOwn catalog names
        (t.bindDefine param.name (Condition.defineOf param.name) param.type) t' →
      BindsOwn catalog (name :: names) t t'

inductive ReadsCondition (catalog : Catalog) (t : Technique) : Option String → Technique → Prop
  | absent : ReadsCondition catalog t none t
  | given {text : String} {t' : Technique} :
      BindsOwn catalog (Condition.normalize text).names t t' →
      ReadsCondition catalog t (some (Condition.normalize text).text) t'

inductive ReadsInput (catalog : Catalog) (node : Node) (t : Technique) :
    Mapping → Technique → Prop
  | code {name swizzle text : String} {input : Variable} {condition : Option String}
      {t₁ : Technique} :
      node.definition.input? name = some input → ReadsCondition catalog t condition t₁ →
      ReadsInput catalog node t ⟨t₁.arena.nextId, .code text, swizzle, "", condition⟩
        (t₁.addVariable (input.ofNode node.name))
  | reference {name swizzle : String} {input left : Variable} {condition : Option String}
      {reference : Reference} {id : VarId} {t₁ t₂ : Technique} :
      node.definition.input? name = some input → ReadsCondition catalog t condition t₁ →
      (input.isSampler = true → reference.origin = some .materialParameter) →
      Resolves catalog reference ⟨node.name, node.stage⟩ t₁ (input.ofNode node.name) id t₂ left →
      Typing.check left swizzle (t₂.arena.read id) reference.swizzle = .ok () →
      ReadsInput catalog node t ⟨t₂.arena.nextId, .var id, swizzle, reference.swizzle, condition⟩
        ((t₂.markProducer reference).addVariable left)

inductive ReadsOutput (catalog : Catalog) (node : Node) (t : Technique) :
    Mapping → Technique → Prop
  | mk {name target swizzle rightSwizzle : String} {output : Variable}
      {condition : Option String} {id : VarId} {t₁ t₂ : Technique} :
      node.definition.output? name = some output → output.isSampler = false →
      Typing.check (globalVariable target) swizzle (output.ofNode node.name) rightSwizzle = .ok () →
      ReadsCondition catalog t condition t₁ →
      StoresGlobal (globalVariable target) node.stage t₁ id t₂ →
      ReadsOutput catalog node t ⟨id, .var t₂.arena.nextId, swizzle, rightSwizzle, condition⟩
        ((t₂.markUsed node.name).addVariable (output.ofNode node.name))

/-- The definition that a line names, with the library before and after it. -/
inductive FindsDefinition (context : Context) (line : Graph.DefinitionLine)
    (library : List Definition) : Definition → List Definition → Prop
  | known {definition : Definition} :
      library.find? (·.name == line.name) = some definition →
      FindsDefinition context line library definition library
  | loaded {path : String} {loaded : List Definition} {definition : Definition} :
      library.find? (·.name == line.name) = none → line.path = some path →
      context.assets.definitions context.options path = .ok loaded →
      (library ++ loaded.map (Definition.fromFile path)).find? (·.name == line.name) =
        some definition →
      FindsDefinition context line library definition
        (library ++ loaded.map (Definition.fromFile path))

theorem BindsOwn.frame {catalog : Catalog} {names : List String} {t t' : Technique}
    (h : BindsOwn catalog names t t') : ∃ defines, t' = { t with defines } := by
  induction h with
  | nil => exact ⟨_, rfl⟩
  | cons _ _ ih =>
    obtain ⟨defines, rfl⟩ := ih
    exact ⟨defines, rfl⟩

theorem ReadsCondition.frame {catalog : Catalog} {condition : Option String} {t t' : Technique}
    (h : ReadsCondition catalog t condition t') : ∃ defines, t' = { t with defines } := by
  cases h with
  | absent => exact ⟨_, rfl⟩
  | given h => exact h.frame

/-- Marking a producer changes nothing but the interface, and there only the unused nodes. -/
theorem markProducer_eq (t : Technique) (reference : Reference) :
    ∃ unusedNodes, t.markProducer reference =
      t.withInterface { t.interface with unusedNodes } := by
  unfold Technique.markProducer
  split
  · exact ⟨_, rfl⟩
  · exact ⟨t.interface.unusedNodes, rfl⟩

theorem arena_markProducer (t : Technique) (reference : Reference) :
    (t.markProducer reference).arena = t.arena := by
  obtain ⟨unused, hu⟩ := markProducer_eq t reference
  rw [hu]
  rfl

theorem markOpened_eq (t : Technique) (name : String) (definition : Definition) :
    ∃ unusedNodes, t.markOpened name definition =
      t.withInterface { t.interface with unusedNodes } := by
  unfold Technique.markOpened
  split <;> exact ⟨_, rfl⟩

theorem ReadsInput.nodes {catalog : Catalog} {node : Node} {m : Mapping} {t t' : Technique}
    (h : ReadsInput catalog node t m t') : t'.nodes = t.nodes := by
  cases h with
  | code _ hc =>
    obtain ⟨defines, rfl⟩ := hc.frame
    rfl
  | reference _ hc _ hr _ =>
    obtain ⟨defines, rfl⟩ := hc.frame
    obtain ⟨unused, hu⟩ := markProducer_eq _ _
    rw [hu]
    exact hr.nodes

theorem ReadsOutput.nodes {catalog : Catalog} {node : Node} {m : Mapping} {t t' : Technique}
    (h : ReadsOutput catalog node t m t') : t'.nodes = t.nodes := by
  cases h with
  | mk _ _ _ hc hg =>
    obtain ⟨defines, rfl⟩ := hc.frame
    exact hg.nodes

/-! ## Steps -/

/-- A technique in the middle of its nodes. -/
structure Progress where
  technique : Technique
  library : List Definition
  /-- The node that is read. It is not yet in the technique. -/
  current : Option Node

def Graph.progress (g : Graph) (current : Option Node) : Progress :=
  ⟨g.technique, g.library, current⟩

def Progress.nodes (p : Progress) : List Node := p.technique.nodes ++ p.current.toList

theorem mem_progress_nodes {t : Technique} {library : List Definition} {node n : Node} :
    n ∈ Progress.nodes ⟨t, library, some node⟩ ↔ n ∈ t.nodes ∨ n = node := by
  simp [Progress.nodes]

def Progress.inputs (p : Progress) : List Mapping := p.nodes.flatMap (·.inputs)

inductive Step (context : Context) : Progress → Progress → Prop
  | opened {t : Technique} {library library' : List Definition} {name : String}
      {line : Graph.DefinitionLine} {definition : Definition} :
      t.node? name = none → FindsDefinition context line library definition library' →
      Step context ⟨t, library, none⟩
        ⟨t.markOpened name definition, library', some ⟨name, definition, none, [], []⟩⟩
  | condition {t t' : Technique} {library : List Definition} {node : Node}
      {condition : Option String} :
      ReadsCondition context.catalog t condition t' →
      Step context ⟨t, library, some node⟩ ⟨t', library, some { node with condition }⟩
  | input {t t' : Technique} {library : List Definition} {node : Node} {m : Mapping} :
      ReadsInput context.catalog node t m t' →
      Step context ⟨t, library, some node⟩
        ⟨t', library, some { node with inputs := node.inputs ++ [m] }⟩
  | output {t t' : Technique} {library : List Definition} {node : Node} {m : Mapping} :
      ReadsOutput context.catalog node t m t' →
      Step context ⟨t, library, some node⟩
        ⟨t', library, some { node with outputs := node.outputs ++ [m] }⟩
  | closed {t : Technique} {library : List Definition} {node : Node} :
      Step context ⟨t, library, some node⟩
        ⟨{ t with nodes := t.nodes ++ [node] }, library, none⟩

section

variable {context : Context} {t t' : Technique} {library : List Definition} {node : Node}

theorem inputs_opened (library library' : List Definition) (name other : String)
    (definition : Definition) :
    Progress.inputs ⟨t.markOpened name definition, library',
      some ⟨other, definition, none, [], []⟩⟩ = Progress.inputs ⟨t, library, none⟩ := by
  obtain ⟨unused, hu⟩ := markOpened_eq t name definition
  simp [Progress.inputs, Progress.nodes, hu, Technique.withInterface]

theorem inputs_input (m : Mapping) (h : t'.nodes = t.nodes) :
    Progress.inputs ⟨t', library, some { node with inputs := node.inputs ++ [m] }⟩ =
      Progress.inputs ⟨t, library, some node⟩ ++ [m] := by
  simp [Progress.inputs, Progress.nodes, h]

theorem inputs_of_eq {node' : Node} (h : t'.nodes = t.nodes) (hn : node'.inputs = node.inputs) :
    Progress.inputs ⟨t', library, some node'⟩ = Progress.inputs ⟨t, library, some node⟩ := by
  simp [Progress.inputs, Progress.nodes, h, hn]

theorem inputs_closed :
    Progress.inputs ⟨{ t with nodes := t.nodes ++ [node] }, library, none⟩ =
      Progress.inputs ⟨t, library, some node⟩ := by
  simp [Progress.inputs, Progress.nodes]

end

inductive Reach (context : Context) (start : Progress) : Progress → Prop
  | start : Reach context start start
  | step {p q : Progress} : Reach context start p → Step context p q → Reach context start q

/-! ## Reading goes through nothing else -/

section

variable {context : Context} {statement : Statement} {g g' : Graph} {node : Node}

@[simp] theorem building_eq_ok {α : Type} {step : Declaring α} {a : α} :
    step.building statement g = (.ok a, g') ↔
      ∃ t, step g.technique = (.ok a, t) ∧ g.setTechnique t = g' := by
  simp only [Declaring.building, Attempt.onPart_eq_ok, Attempt.mapError_eq_ok]

@[simp] theorem modifyTechnique_eq_ok {f : Technique → Technique} {u : Unit} :
    Graph.modifyTechnique f g = (.ok u, g') ↔ g.setTechnique (f g.technique) = g' :=
  Attempt.modify_eq_ok

@[simp] theorem markUsed_eq_ok {name : String} {u : Unit} :
    Graph.markUsed name g = (.ok u, g') ↔ g.setTechnique (g.technique.markUsed name) = g' :=
  modifyTechnique_eq_ok

@[simp] theorem markUnused_eq_ok {name : String} {u : Unit} :
    Graph.markUnused name g = (.ok u, g') ↔ g.setTechnique (g.technique.markUnused name) = g' :=
  modifyTechnique_eq_ok

theorem bindsOwn_of_ok {catalog : Catalog} {invalid : Cause} {names : List String}
    {t t' : Technique} {u : Unit}
    (h : Resolution.bindOwnDefines catalog invalid names t = (.ok u, t')) :
    BindsOwn catalog names t t' := by
  induction names generalizing t with
  | nil =>
    obtain ⟨-, rfl⟩ := Attempt.pure_eq_ok.mp h
    exact .nil
  | cons name names ih =>
    cases hp : catalog.param? name with
    | none =>
      simp only [Resolution.bindOwnDefines, hp] at h
      exact absurd h Attempt.throw_ne_ok
    | some param =>
      simp only [Resolution.bindOwnDefines, hp, Resolution.bindOwnDefine, Attempt.bind_eq_ok,
        Attempt.modify_eq_ok] at h
      obtain ⟨_, _, rfl, h⟩ := h
      exact .cons hp (ih h)

theorem readsCondition_of_ok {text condition : Option String}
    (h : Graph.readCondition context statement text g = (.ok condition, g')) :
    ∃ t, ReadsCondition context.catalog g.technique condition t ∧ g.setTechnique t = g' := by
  cases text with
  | none =>
    obtain ⟨rfl, rfl⟩ := Attempt.pure_eq_ok.mp h
    exact ⟨g.technique, .absent, rfl⟩
  | some text =>
    simp only [Graph.readCondition, Resolution.guardCondition, Attempt.bind_eq_ok, building_eq_ok,
      Attempt.pure_eq_ok] at h
    obtain ⟨_, _, ⟨_, ⟨_, _, hb, rfl, rfl⟩, rfl⟩, rfl, rfl⟩ := h
    exact ⟨_, .given (bindsOwn_of_ok hb), rfl⟩

theorem resolves_of_resolveFor {catalog : Catalog} {reference : Reference} {consumer : Consumer}
    {left left' : Variable} {id : VarId} {t t' : Technique}
    (h : Graph.resolveFor catalog reference left consumer t = (.ok (id, left'), t')) :
    Resolves catalog reference consumer t left id t' left' := by
  simp only [Graph.resolveFor] at h
  cases hr : Resolution.resolve catalog reference consumer ⟨t, left⟩ with
  | mk r w =>
    rw [hr] at h
    cases r with
    | error e => cases h
    | ok id =>
      cases h
      exact Resolution.resolves_of_resolve hr

/-- What a right side that is a reference was checked for. -/
theorem readRightSide_ok {left : Variable} {swizzle text : String} {wire : Graph.Wire}
    (h : Graph.readRightSide context node statement left swizzle text g = (.ok wire, g')) :
    ∃ reference id t, Reference.parse? text true = some reference ∧
      (left.isSampler = true → reference.origin = some .materialParameter) ∧
      Resolves context.catalog reference ⟨node.name, node.stage⟩ g.technique left id t wire.left ∧
      Typing.check wire.left swizzle (t.arena.read id) reference.swizzle = .ok () ∧
      wire.source = .var id ∧ wire.rightSwizzle = reference.swizzle ∧
      g.setTechnique (t.markProducer reference) = g' := by
  cases hp : Reference.parse? text true with
  | none =>
    simp only [Graph.readRightSide, hp] at h
    exact absurd h Attempt.throw_ne_ok
  | some reference =>
    simp only [Graph.readRightSide, hp] at h
    split at h
    · simp at h
    · next hsampler =>
      simp only [Attempt.bind_eq_ok, building_eq_ok, Attempt.get_eq_ok, Attempt.ofExcept_eq_ok,
        Attempt.mapError_ok_iff] at h
      obtain ⟨⟨id, left'⟩, _, ⟨t, hresolve, rfl⟩, _, _, ⟨rfl, rfl⟩, _, _, ⟨hcheck, rfl⟩, h⟩ := h
      have hsampler : left.isSampler = true → reference.origin = some .materialParameter := by
        intro hleft
        simpa [hleft] using hsampler
      have hresolve := resolves_of_resolveFor hresolve
      unfold Technique.markProducer
      cases hpr : Graph.producer? reference with
      | some name =>
        simp only [hpr, Attempt.bind_eq_ok, markUsed_eq_ok, Attempt.pure_eq_ok] at h
        obtain ⟨_, _, rfl, rfl, rfl⟩ := h
        exact ⟨reference, id, t, rfl, hsampler, hresolve, hcheck, rfl, rfl, by rw [hpr]; rfl⟩
      | none =>
        simp only [hpr, Attempt.pure_eq_ok] at h
        obtain ⟨rfl, rfl⟩ := h
        exact ⟨reference, id, t, rfl, hsampler, hresolve, hcheck, rfl, rfl, by rw [hpr]⟩

theorem readsInput_of_ok {m : Mapping}
    (h : Graph.readInputMapping context node statement g = (.ok m, g')) :
    ∃ t, ReadsInput context.catalog node g.technique m t ∧ g.setTechnique t = g' := by
  cases hl : MappingLine.split? statement.line with
  | none =>
    simp only [Graph.readInputMapping, hl] at h
    exact absurd h Attempt.throw_ne_ok
  | some line =>
    cases ht : Reference.parse? line.left false with
    | none =>
      simp only [Graph.readInputMapping, hl, ht] at h
      exact absurd h Attempt.throw_ne_ok
    | some target =>
      cases hi : node.definition.input? target.name with
      | none =>
        simp only [Graph.readInputMapping, hl, ht, hi] at h
        exact absurd h Attempt.throw_ne_ok
      | some input =>
        simp only [Graph.readInputMapping, hl, ht, hi, Attempt.bind_eq_ok] at h
        obtain ⟨condition, _, hc, h⟩ := h
        obtain ⟨t₁, hcondition, rfl⟩ := readsCondition_of_ok hc
        cases hr : line.right with
        | code text =>
          simp only [hr, Attempt.bind_eq_ok, building_eq_ok, Resolution.store_eq_ok,
            Attempt.pure_eq_ok] at h
          obtain ⟨_, _, ⟨rfl, rfl⟩, _, _, ⟨_, ⟨rfl, rfl⟩, rfl⟩, rfl, rfl⟩ := h
          exact ⟨_, .code hi hcondition, rfl⟩
        | reference text =>
          simp only [hr, Attempt.bind_eq_ok, building_eq_ok, Resolution.store_eq_ok,
            Attempt.pure_eq_ok] at h
          obtain ⟨wire, _, hw, _, _, ⟨_, ⟨rfl, rfl⟩, rfl⟩, rfl, rfl⟩ := h
          obtain ⟨reference, id, t₂, -, hs, hres, hcheck, hsource, hswizzle, rfl⟩ :=
            readRightSide_ok hw
          refine ⟨_, ?_, rfl⟩
          rw [hsource, hswizzle]
          show ReadsInput _ _ _ ⟨(t₂.markProducer reference).arena.nextId, _, _, _, _⟩ _
          rw [arena_markProducer]
          exact .reference hi hcondition hs hres hcheck

/-- A line of output mappings that is right for a node, up to its condition: what it assigns to is
a global, and what it assigns is an output of the definition that fits. -/
structure OutputWritten (node : Node) (statement : Statement) (target reference : Reference)
    (output : Variable) (condition : Option String) : Prop where
  line : ∃ left text,
    MappingLine.split? statement.line = some ⟨left, .reference text, condition⟩ ∧
      Reference.parse? left true = some target ∧ Reference.parse? text false = some reference
  isGlobal : target.origin.getD .global = .global
  declared : node.definition.output? reference.name = some output
  notSampler : output.isSampler = false
  fits : Typing.check (globalVariable target.name) target.swizzle (output.ofNode node.name)
    reference.swizzle = .ok ()

/-- What is done for a line that is right. -/
theorem readOutputMapping_of_written {target reference : Reference} {output : Variable}
    {condition : Option String}
    (h : OutputWritten node statement target reference output condition) :
    Graph.readOutputMapping context node statement = (do
      let guarded ← Graph.readCondition context statement condition
      let global ← (Resolution.storeGlobal (globalVariable target.name) node.stage).building
        statement
      Graph.markUsed node.name
      let id ← (Resolution.store (output.ofNode node.name)).building statement
      return ⟨global, .var id, target.swizzle, reference.swizzle, guarded⟩) := by
  obtain ⟨left, text, hsplit, htarget, hreference⟩ := h.line
  have hfits : Typing.check (globalVariable target.name) target.swizzle
      { output with origin := some (.node node.name) } reference.swizzle = .ok () := h.fits
  simp only [Graph.readOutputMapping, hsplit, htarget, hreference, h.isGlobal, h.declared,
    h.notSampler, ne_eq, not_true_eq_false, if_false, Bool.false_eq_true, hfits]
  rfl

/-- A line that is not right is refused before anything is done for it. -/
theorem written_or_throws (context : Context) (node : Node) (statement : Statement) :
    (∃ target reference output condition,
      OutputWritten node statement target reference output condition) ∨
      ∃ fault, Graph.readOutputMapping context node statement = throw fault := by
  unfold Graph.readOutputMapping
  dsimp only
  split
  · next line hsplit =>
    split
    · next text hright =>
      split
      · next target htarget =>
        split
        · next reference hreference =>
          split
          · exact Or.inr ⟨_, Attempt.throw_bind _ _⟩
          · next horigin =>
            split
            · next output houtput =>
              split
              · exact Or.inr ⟨_, Attempt.throw_bind _ _⟩
              · next hsampler =>
                cases hfits : Typing.check (globalVariable target.name) target.swizzle
                    { output with origin := some (.node node.name) } reference.swizzle with
                | error cause => exact Or.inr ⟨cause.located statement, rfl⟩
                | ok _ =>
                  refine Or.inl ⟨target, reference, output, line.condition,
                    ⟨line.left, text, ?_, htarget, hreference⟩, not_not.mp horigin, houtput,
                    Bool.not_eq_true _ ▸ hsampler, hfits⟩
                  rw [hsplit, ← hright]
            · exact Or.inr ⟨_, rfl⟩
        · exact Or.inr ⟨_, rfl⟩
      · exact Or.inr ⟨_, rfl⟩
    · exact Or.inr ⟨_, rfl⟩
  · exact Or.inr ⟨_, rfl⟩

/-- A line that was read is right, and the global of its name is what is assigned to. -/
theorem readOutputMapping_ok {m : Mapping}
    (h : Graph.readOutputMapping context node statement g = (.ok m, g')) :
    ∃ target reference output text condition t₁ t₂,
      OutputWritten node statement target reference output text ∧
      ReadsCondition context.catalog g.technique condition t₁ ∧
      StoresGlobal (globalVariable target.name) node.stage t₁ m.left t₂ ∧
      ⟨m.left, .var t₂.arena.nextId, target.swizzle, reference.swizzle, condition⟩ = m ∧
      g.setTechnique ((t₂.markUsed node.name).addVariable (output.ofNode node.name)) = g' := by
  rcases written_or_throws context node statement with
    ⟨target, reference, output, text, hw⟩ | ⟨fault, hthrow⟩
  · rw [readOutputMapping_of_written hw] at h
    simp only [Attempt.bind_eq_ok, building_eq_ok, markUsed_eq_ok, Resolution.store_eq_ok,
      Attempt.pure_eq_ok] at h
    obtain ⟨condition, _, hc, id, _, ⟨t₂, hglobal, rfl⟩, _, _, rfl, _, _, ⟨_, ⟨rfl, rfl⟩, rfl⟩,
      rfl, rfl⟩ := h
    obtain ⟨t₁, hcondition, rfl⟩ := readsCondition_of_ok hc
    exact ⟨target, reference, output, text, condition, t₁, t₂, hw, hcondition,
      Resolution.storesGlobal_of_ok hglobal, rfl, rfl⟩
  · rw [hthrow] at h
    exact absurd h Attempt.throw_ne_ok

theorem readsOutput_of_ok {m : Mapping}
    (h : Graph.readOutputMapping context node statement g = (.ok m, g')) :
    ∃ t, ReadsOutput context.catalog node g.technique m t ∧ g.setTechnique t = g' := by
  obtain ⟨target, reference, output, text, condition, t₁, t₂, hw, hcondition, hglobal, hm, rfl⟩ :=
    readOutputMapping_ok h
  rw [← hm]
  exact ⟨_, .mk hw.declared hw.notSampler hw.fits hcondition hglobal, rfl⟩

theorem findsDefinition_of_ok {definition : Definition}
    (h : Graph.findDefinition context statement g = (.ok definition, g')) :
    ∃ line library, Graph.DefinitionLine.ofLine? statement.line = some line ∧
      FindsDefinition context line g.library definition library ∧ { g with library } = g' := by
  cases hl : Graph.DefinitionLine.ofLine? statement.line with
  | none =>
    simp only [Graph.findDefinition, hl] at h
    exact absurd h Attempt.throw_ne_ok
  | some line =>
    simp only [Graph.findDefinition, hl, Attempt.bind_eq_ok, Attempt.get_eq_ok] at h
    obtain ⟨_, _, ⟨rfl, rfl⟩, h⟩ := h
    refine ⟨line, ?_⟩
    cases hk : g.known? line.name with
    | some known =>
      simp only [hk] at h
      obtain ⟨rfl, rfl⟩ := Attempt.pure_eq_ok.mp h
      exact ⟨g.library, rfl, .known hk, rfl⟩
    | none =>
      simp only [hk] at h
      cases hp : line.path with
      | none =>
        simp only [hp, Attempt.bind_eq_ok, Attempt.get_eq_ok] at h
        obtain ⟨_, _, ⟨rfl, rfl⟩, h⟩ := h
        simp only [hk] at h
        exact absurd h Attempt.throw_ne_ok
      | some path =>
        simp only [hp, Attempt.bind_eq_ok, Graph.loadFile, Attempt.ofExcept_eq_ok,
          Attempt.mapError_ok_iff, Attempt.modify_eq_ok, Attempt.get_eq_ok] at h
        obtain ⟨_, _, ⟨loaded, _, ⟨hload, rfl⟩, rfl⟩, _, _, ⟨rfl, rfl⟩, h⟩ := h
        refine ⟨g.library ++ loaded.map (Definition.fromFile path), ?_⟩
        cases hd : (g.library ++ loaded.map (Definition.fromFile path)).find?
            (·.name == line.name) with
        | none =>
          have hnone : Graph.known? ⟨g.technique, g.library ++ loaded.map fun d =>
              { d with path := some path }, g.warnings⟩ line.name = none := hd
          simp only [hnone] at h
          exact absurd h Attempt.throw_ne_ok
        | some found =>
          have hfound : Graph.known? ⟨g.technique, g.library ++ loaded.map fun d =>
              { d with path := some path }, g.warnings⟩ line.name = some found := hd
          simp only [hfound] at h
          obtain ⟨rfl, rfl⟩ := Attempt.pure_eq_ok.mp h
          exact ⟨rfl, .loaded hk hp hload hd, rfl⟩

/-- A node that is read is opened with the definition that its first statement names, and the rest
of its statements are read to it. -/
theorem readNode_ok {name : String} (h : Graph.readNode context name statement g = (.ok node, g')) :
    ∃ first rest line definition library warnings, statement.contents = first :: rest ∧
      Graph.DefinitionLine.ofLine? first.line = some line ∧
      FindsDefinition context line g.library definition library ∧
      rest.foldlM (Graph.readNodeStatement context) ⟨name, definition, none, [], []⟩
        ⟨g.technique.markOpened name definition, library, warnings⟩ = (.ok node, g') := by
  cases hc : statement.contents with
  | nil =>
    simp only [Graph.readNode, hc] at h
    exact absurd h Attempt.throw_ne_ok
  | cons first rest =>
    simp only [Graph.readNode, hc] at h
    split at h
    · simp at h
    · obtain ⟨definition, _, hd, h⟩ := Attempt.bind_eq_ok.mp h
      obtain ⟨line, library, hline, hfinds, rfl⟩ := findsDefinition_of_ok hd
      refine ⟨first, rest, line, definition, library, ?_⟩
      unfold Technique.markOpened
      split at h
      · next hn =>
        rw [if_pos hn]
        simp only [Attempt.bind_eq_ok, markUsed_eq_ok] at h
        obtain ⟨_, _, rfl, h⟩ := h
        exact ⟨_, rfl, hline, hfinds, h⟩
      · next hn =>
        rw [if_neg hn]
        simp only [Attempt.bind_eq_ok, markUnused_eq_ok] at h
        obtain ⟨_, _, rfl, h⟩ := h
        split at h
        · simp only [Attempt.bind_eq_ok, Graph.warn, Attempt.modify_eq_ok] at h
          obtain ⟨_, _, rfl, h⟩ := h
          exact ⟨_, rfl, hline, hfinds, h⟩
        · exact ⟨_, rfl, hline, hfinds, h⟩

/-- A node that enters the technique is read from its statement, under a name that is new. -/
theorem readAndAddNode_ok {u : Unit} (h : Graph.readAndAddNode context statement g = (.ok u, g')) :
    ∃ name node g₁, g.technique.node? name = none ∧
      Graph.readNode context name statement g = (.ok node, g₁) ∧
      g₁.setTechnique { g₁.technique with nodes := g₁.technique.nodes ++ [node] } = g' := by
  cases hk : statement.afterKeyword? "ShaderNode " with
  | none =>
    simp only [Graph.readAndAddNode, hk] at h
    exact absurd h Attempt.throw_ne_ok
  | some name =>
    simp only [Graph.readAndAddNode, hk, Attempt.bind_eq_ok, Attempt.get_eq_ok] at h
    obtain ⟨_, _, ⟨rfl, rfl⟩, h⟩ := h
    split at h
    · simp at h
    · next hn =>
      simp only [Attempt.bind_eq_ok, modifyTechnique_eq_ok] at h
      obtain ⟨node, g₁, hnode, rfl⟩ := h
      exact ⟨name, node, g₁, by simpa using hn, hnode, rfl⟩

variable {start : Progress}

theorem reach_readInputMappings {statements : List Statement} {ms : List Mapping}
    (hr : Reach context start (g.progress (some node)))
    (h : statements.mapM (Graph.readInputMapping context node) g = (.ok ms, g')) :
    Reach context start (g'.progress (some { node with inputs := node.inputs ++ ms })) := by
  induction statements generalizing node g ms with
  | nil =>
    rw [List.mapM_nil] at h
    obtain ⟨rfl, rfl⟩ := Attempt.pure_eq_ok.mp h
    rw [List.append_nil]
    exact hr
  | cons s statements ih =>
    rw [List.mapM_cons] at h
    simp only [Attempt.bind_eq_ok, Attempt.pure_eq_ok] at h
    obtain ⟨m, g₁, hm, ms, _, hms, rfl, rfl⟩ := h
    obtain ⟨t, hread, rfl⟩ := readsInput_of_ok hm
    have hstep : Reach context start
        ((g.setTechnique t).progress (some { node with inputs := node.inputs ++ [m] })) :=
      hr.step (.input hread)
    -- a mapping is read against the name and the definition of its node alone
    have := ih hstep hms
    rwa [List.append_assoc] at this

theorem reach_readOutputMappings {statements : List Statement} {ms : List Mapping}
    (hr : Reach context start (g.progress (some node)))
    (h : statements.mapM (Graph.readOutputMapping context node) g = (.ok ms, g')) :
    Reach context start (g'.progress (some { node with outputs := node.outputs ++ ms })) := by
  induction statements generalizing node g ms with
  | nil =>
    rw [List.mapM_nil] at h
    obtain ⟨rfl, rfl⟩ := Attempt.pure_eq_ok.mp h
    rw [List.append_nil]
    exact hr
  | cons s statements ih =>
    rw [List.mapM_cons] at h
    simp only [Attempt.bind_eq_ok, Attempt.pure_eq_ok] at h
    obtain ⟨m, g₁, hm, ms, _, hms, rfl, rfl⟩ := h
    obtain ⟨t, hread, rfl⟩ := readsOutput_of_ok hm
    have hstep : Reach context start
        ((g.setTechnique t).progress (some { node with outputs := node.outputs ++ [m] })) :=
      hr.step (.output hread)
    have := ih hstep hms
    rwa [List.append_assoc] at this

theorem reach_readNodeStatement {node' : Node}
    (hr : Reach context start (g.progress (some node)))
    (h : Graph.readNodeStatement context node statement g = (.ok node', g')) :
    Reach context start (g'.progress (some node')) := by
  unfold Graph.readNodeStatement at h
  split at h
  · cases ht : Graph.conditionText? statement.line with
    | none =>
      simp only [ht] at h
      exact absurd h Attempt.throw_ne_ok
    | some text =>
      simp only [ht, Attempt.bind_eq_ok, Attempt.pure_eq_ok] at h
      obtain ⟨condition, _, hc, rfl, rfl⟩ := h
      obtain ⟨t, hcondition, rfl⟩ := readsCondition_of_ok hc
      exact hr.step (.condition hcondition)
  · split at h
    · simp only [Attempt.bind_eq_ok, Attempt.pure_eq_ok] at h
      obtain ⟨ms, _, hms, rfl, rfl⟩ := h
      exact reach_readInputMappings hr hms
    · split at h
      · simp only [Attempt.bind_eq_ok, Attempt.pure_eq_ok] at h
        obtain ⟨ms, _, hms, rfl, rfl⟩ := h
        exact reach_readOutputMappings hr hms
      · exact absurd h Attempt.throw_ne_ok

theorem reach_readNodeStatements {statements : List Statement} {node' : Node}
    (hr : Reach context start (g.progress (some node)))
    (h : statements.foldlM (Graph.readNodeStatement context) node g = (.ok node', g')) :
    Reach context start (g'.progress (some node')) := by
  induction statements generalizing node g with
  | nil =>
    obtain ⟨rfl, rfl⟩ := Attempt.pure_eq_ok.mp h
    exact hr
  | cons s statements ih =>
    rw [List.foldlM_cons] at h
    obtain ⟨node₁, g₁, hs, h⟩ := Attempt.bind_eq_ok.mp h
    exact ih (reach_readNodeStatement hr hs) h

theorem reach_readNode {name : String} {node : Node} (hname : g.technique.node? name = none)
    (hr : Reach context start (g.progress none))
    (h : Graph.readNode context name statement g = (.ok node, g')) :
    Reach context start (g'.progress (some node)) := by
  obtain ⟨first, rest, line, definition, library, warnings, -, -, hfinds, h⟩ := readNode_ok h
  refine reach_readNodeStatements ?_ h
  exact hr.step (.opened hname hfinds)

theorem reach_readAndAddNode (hr : Reach context start (g.progress none)) {u : Unit}
    (h : Graph.readAndAddNode context statement g = (.ok u, g')) :
    Reach context start (g'.progress none) := by
  obtain ⟨name, node, g₁, hname, hnode, rfl⟩ := readAndAddNode_ok h
  exact (reach_readNode hname hr hnode).step .closed

/-- Reading nodes takes steps and nothing else. -/
theorem reach_readNodes (hr : Reach context start (g.progress none))
    {statements : List Statement} {u : Unit}
    (h : Graph.readNodes context statements g = (.ok u, g')) :
    Reach context start (g'.progress none) := by
  induction statements generalizing g with
  | nil =>
    obtain ⟨-, rfl⟩ := Attempt.pure_eq_ok.mp h
    exact hr
  | cons s statements ih =>
    obtain ⟨_, g₁, hs, h⟩ := Attempt.bind_eq_ok.mp h
    exact ih (reach_readAndAddNode hr hs) h

end

end ShaderGraph
