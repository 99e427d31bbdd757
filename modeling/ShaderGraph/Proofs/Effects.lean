/-
  ShaderGraph.Proofs.Effects — what a step does to the nodes and the declarations.

  Seen from its mappings and declarations a graph changes in four ways only (`Effect`): nothing
  changes, a node of a new name is opened, and the open node gets an input mapping that reads no
  variable or one. In the last case the variable is offered under a key and listed where the
  key says, or it is not declared at all (`Declares`).

  - `Progress.Coherent`: the names of the nodes are distinct and the declarations exact.
  - `effect_of_step`: a coherent graph changes in no other way.
  - `Reach.invariant`: what every step keeps of coherent graphs is true wherever steps lead.
-/

import ShaderGraph.Proofs.Exactness

namespace ShaderGraph

open Resolution (StoresGlobal Resolves)

/-! ## Declarations in the interface -/

namespace Interface

def declared (i : Interface) : Interface :=
  { i with vertexGlobal := none, fragmentGlobals := [], unusedNodes := .empty }

def list (i : Interface) (key : DeclKey) (stage : Stage) (o : Offered) : Interface :=
  match key with
  | .vertexAttribute _ => Resolution.Interface.listAttribute i o
  | .uniform _ => Resolution.Interface.listUniform i stage o.id
  | .varying _ _ => Resolution.Interface.listVarying i o

end Interface

structure Technique.SameDeclarations (t t' : Technique) : Prop where
  registry : t'.registry = t.registry
  listed : t'.interface.declared = t.interface.declared

/-- What reading a variable does to the declarations. -/
inductive Declares (consumer : Consumer) (t : Technique) : VarId → Technique → Prop
  | offered {key : DeclKey} {v : Variable} {o : Offered} {t' : Technique} :
      o = t.offer key v consumer → t'.registry = o.registry →
      t'.interface.declared = (t.interface.list key consumer.stage o).declared →
      Declares consumer t o.id t'
  | undeclared {id : VarId} {t' : Technique} :
      (∀ d ∈ t.registry.entries, d.id ≠ id) → t.SameDeclarations t' →
      Declares consumer t id t'

section

variable {catalog : Catalog} {reference : Reference} {consumer : Consumer}
  {t t' : Technique} {left left' v : Variable} {id : VarId} {R W : VarId → Prop}

theorem Resolution.StoresGlobal.sameDeclarations {stage : Stage}
    (h : StoresGlobal v stage t id t') : t.SameDeclarations t' := by
  cases h <;> exact ⟨rfl, rfl⟩

/-- A global is no declared variable. -/
theorem Exact.ne_global (h : Exact t R W) (hv : v.origin = some .global) {stage : Stage}
    (hs : StoresGlobal v stage t id t') : ∀ d ∈ t.registry.entries, d.id ≠ id := by
  intro d hd hid
  obtain ⟨h', -, w, hw, horigin⟩ := h.storesGlobal hv hs
  obtain ⟨u, hu, hnames⟩ := h'.names d (hs.sameDeclarations.registry ▸ hd)
  rw [hid, hw] at hu
  cases hu
  exact not_isDeclared_global horigin hnames.isDeclared

/-- Whichever way a reference is found, its variable is offered under a key or not declared. -/
theorem Exact.declares (h : Exact t R W)
    (hr : Resolves catalog reference consumer t left id t' left') :
    Declares consumer t id t' := by
  cases hr with
  | global _ hs => exact .undeclared (h.ne_global rfl hs) hs.sameDeclarations
  | vertexAttribute _ _ ho => exact .offered ho rfl rfl
  | materialParameter _ _ hs _ ho =>
    obtain ⟨defines, rfl⟩ := hs.frame
    exact .offered ho rfl rfl
  | worldParameter _ _ ho => exact .offered ho rfl rfl
  | output _ _ _ _ =>
    exact .undeclared (fun d hd => h.sound.ne_nextId hd) ⟨rfl, rfl⟩
  | varying _ _ _ _ _ ho => exact .offered ho rfl rfl

end

/-! ## Nodes by their wires -/

namespace Node

/-- What the node reads and which inputs it writes. -/
def wires (n : Node) : Node :=
  { n with condition := none, inputs := n.inputs.map (·.withCondition none), outputs := [] }

def withInput (n : Node) (m : Mapping) : Node := { n with inputs := n.inputs ++ [m] }

@[simp] theorem name_withInput (n : Node) (m : Mapping) : (n.withInput m).name = n.name := rfl

@[simp] theorem stage_withInput (n : Node) (m : Mapping) : (n.withInput m).stage = n.stage := rfl

@[simp] theorem inputs_withInput (n : Node) (m : Mapping) :
    (n.withInput m).inputs = n.inputs ++ [m] := rfl

theorem wires_unconditional (n : Node) : n.unconditional.wires = n.wires := by
  simp only [wires, unconditional, List.map_map]
  rfl

theorem stage_of_wires {n n' : Node} (h : n'.wires = n.wires) : n'.stage = n.stage := by
  simp only [wires, mk.injEq] at h
  exact congrArg Definition.stage h.2.1

/-- Nodes of the same wires have mappings that read the same. -/
theorem exists_source_of_wires {n n' : Node} (h : n'.wires = n.wires) {m' : Mapping}
    (hm : m' ∈ n'.inputs) : ∃ m ∈ n.inputs, m.source = m'.source := by
  simp only [wires, mk.injEq] at h
  have hmem : m'.withCondition none ∈ n.inputs.map (·.withCondition none) :=
    h.2.2.2.1 ▸ List.mem_map_of_mem hm
  obtain ⟨m, hm, he⟩ := List.mem_map.mp hmem
  have hsource : (m.withCondition none).source = (m'.withCondition none).source :=
    congrArg Mapping.source he
  exact ⟨m, hm, hsource⟩

end Node

/-- Finishing changes conditions, and no wire has one. -/
theorem Technique.finish_wires (t : Technique) :
    t.finish.nodes.map Node.wires = t.nodes.map Node.wires := by
  have wires : ∀ ns : List Node, ns.map Node.wires = (ns.map Node.unconditional).map Node.wires := by
    intro ns
    rw [List.map_map]
    exact List.map_congr_left fun n _ => n.wires_unconditional.symm
  rw [wires, t.finish_nodes, ← wires]

theorem map_name_of_wires {ns ns' : List Node} (h : ns'.map Node.wires = ns.map Node.wires) :
    ns'.map (·.name) = ns.map (·.name) := by
  have names : ∀ l : List Node, l.map (·.name) = (l.map Node.wires).map (·.name) := by
    intro l
    rw [List.map_map]
    rfl
  rw [names, h, ← names]

/-! ## Between two nodes -/

@[simp] theorem nodes_between (t : Technique) (library : List Definition) :
    Progress.nodes ⟨t, library, none⟩ = t.nodes := by simp [Progress.nodes]

@[simp] theorem inputs_between (t : Technique) (library : List Definition) :
    Progress.inputs ⟨t, library, none⟩ = t.inputs := by simp [Progress.inputs, Technique.inputs]

/-! ## Effects of steps -/

/-- What a step does to the nodes and the declarations. -/
inductive Effect (p q : Progress) : Prop
  | kept :
      p.technique.SameDeclarations q.technique → q.nodes.map Node.wires = p.nodes.map Node.wires →
      Effect p q
  | opened {node : Node} :
      p.technique.SameDeclarations q.technique → node.name ∉ p.nodes.map (·.name) →
      node.inputs = [] → q.nodes = p.nodes ++ [node] → Effect p q
  | wroteCode {before : List Node} {node : Node} {m : Mapping} {text : String} :
      p.technique.SameDeclarations q.technique → m.source = .code text →
      p.nodes = before ++ [node] → q.nodes = before ++ [node.withInput m] → Effect p q
  | read {before : List Node} {node : Node} {m : Mapping} {id : VarId} :
      Declares ⟨node.name, node.stage⟩ p.technique id q.technique → m.source = .var id →
      p.nodes = before ++ [node] → q.nodes = before ++ [node.withInput m] → Effect p q

structure Progress.Coherent (p : Progress) : Prop where
  exact : Exact p.technique (Reads p.inputs) (Writes p.inputs)
  names : (p.nodes.map (·.name)).Nodup

section

variable {context : Context} {p q : Progress}

theorem Effect.names (h : (p.nodes.map (·.name)).Nodup) (he : Effect p q) :
    (q.nodes.map (·.name)).Nodup := by
  cases he with
  | kept _ hn =>
    rw [map_name_of_wires hn]
    exact h
  | opened _ hname _ hn =>
    rw [hn, List.map_append]
    refine List.nodup_append.mpr ⟨h, List.nodup_singleton _, ?_⟩
    intro a ha b hb hab
    rw [hab, List.mem_singleton.mp hb] at ha
    exact hname ha
  | wroteCode _ _ hp hq =>
    rw [hp, List.map_append] at h
    rw [hq, List.map_append]
    exact h
  | read _ _ hp hq =>
    rw [hp, List.map_append] at h
    rw [hq, List.map_append]
    exact h

theorem name_notMem_of_node?_eq_none {t : Technique} {name : String} (h : t.node? name = none) :
    name ∉ t.nodes.map (·.name) := by
  intro hmem
  obtain ⟨n, hn, hname⟩ := List.mem_map.mp hmem
  have := List.find?_eq_none.mp h n hn
  simp [hname] at this

theorem effect_of_readsInput {catalog : Catalog} {library : List Definition} {node : Node}
    {t t' : Technique} {m : Mapping}
    (h : Exact t (Reads (Progress.inputs ⟨t, library, some node⟩))
      (Writes (Progress.inputs ⟨t, library, some node⟩)))
    (hi : ReadsInput catalog node t m t') :
    Effect ⟨t, library, some node⟩ ⟨t', library, some (node.withInput m)⟩ := by
  have hp : Progress.nodes ⟨t, library, some node⟩ = t.nodes ++ [node] := rfl
  have hq : Progress.nodes ⟨t', library, some (node.withInput m)⟩ =
      t.nodes ++ [node.withInput m] := by
    rw [Progress.nodes, hi.nodes]
    rfl
  cases hi with
  | code _ hc =>
    obtain ⟨defines, rfl⟩ := hc.frame
    exact .wroteCode ⟨rfl, rfl⟩ rfl hp hq
  | @reference _ _ _ _ _ reference _ _ t₂ _ hc _ hr _ =>
    obtain ⟨defines, rfl⟩ := hc.frame
    have h' : Exact { t with defines } _ _ := h.congr rfl rfl rfl
    obtain ⟨unused, hu⟩ := markProducer_eq t₂ reference
    rw [hu] at hq ⊢
    refine .read ?_ rfl hp hq
    cases h'.declares hr with
    | offered ho hregistry hlisted => exact .offered ho hregistry hlisted
    | undeclared hne hsame => exact .undeclared hne ⟨hsame.registry, hsame.listed⟩

/-- Whatever step it is, it has one of the four effects. -/
theorem effect_of_step (h : Exact p.technique (Reads p.inputs) (Writes p.inputs))
    (hs : Step context p q) : Effect p q := by
  cases hs with
  | @opened t library library' name _ definition hname _ =>
    obtain ⟨unused, hu⟩ := markOpened_eq t name definition
    rw [hu]
    refine @Effect.opened _ _ ⟨name, definition, none, [], []⟩ ⟨rfl, rfl⟩ ?_ rfl ?_
    · rw [nodes_between]
      exact name_notMem_of_node?_eq_none hname
    · rw [nodes_between]
      rfl
  | condition hc =>
    obtain ⟨defines, rfl⟩ := hc.frame
    refine .kept ⟨rfl, rfl⟩ ?_
    simp [Progress.nodes, Node.wires]
  | input hi => exact effect_of_readsInput h hi
  | output ho =>
    have hn := ho.nodes
    refine .kept ?_ ?_
    · cases ho with
      | mk _ _ _ hc hg =>
        obtain ⟨defines, rfl⟩ := hc.frame
        have hsame := hg.sameDeclarations
        exact ⟨hsame.registry, hsame.listed⟩
    · simp [Progress.nodes, Node.wires, hn]
  | closed =>
    refine .kept ⟨rfl, rfl⟩ ?_
    simp [Progress.nodes]

/-- A variable that a node of the graph reads is one of the arena. -/
theorem Progress.Coherent.stored (h : p.Coherent) {n : Node} (hn : n ∈ p.nodes) {id : VarId}
    (hr : ∃ m ∈ n.inputs, m.source = .var id) : id.index < p.technique.arena.size := by
  obtain ⟨m, hm, hs⟩ := hr
  exact h.exact.stored ⟨m, List.mem_flatMap.mpr ⟨n, hn, hm⟩, hs⟩

variable {draft : Draft}

theorem coherent_of_reach (hd : draft.technique.Blank) (h : Reach context draft.progress p) :
    p.Coherent := by
  induction h with
  | start =>
    refine ⟨exact_of_reach hd (.start : Reach context _ _), ?_⟩
    simp [Progress.nodes, Draft.progress, hd.nodes]
  | step hr hs ih => exact ⟨ih.exact.step hs, (effect_of_step ih.exact hs).names ih.names⟩

/-- What every step keeps of coherent graphs is true wherever steps lead from a draft. -/
theorem Reach.invariant {P : Progress → Prop} (hd : draft.technique.Blank)
    (start : P draft.progress)
    (step : ∀ p q, p.Coherent → Step context p q → P p → P q)
    (h : Reach context draft.progress p) : P p := by
  induction h with
  | start => exact start
  | step hr hs ih => exact step _ _ (coherent_of_reach hd hr) hs ih

end

end ShaderGraph
