/-
  ShaderGraph.Proofs.Unused — the nodes that count as unused are those that nothing uses.

  A node counts as unused when it is opened. It stops to when a mapping reads an output of it,
  or when it maps one to a global; that a node is declared to write nothing settles it at once.
  The marks are set and taken off line by line, and they are exact after every line: nothing has
  read a node before it is opened, because what is read comes from closed nodes, and no other
  node has its name.

  - `ReadFrom`: a mapping reads an output of the node of a name.
  - `origin_of_resolves`: what a reference is resolved to is of a node if the reference is.
  - `Marked.step`: no step breaks the marks.
  - `unusedExact_of_readTechnique`: so they are exact in every technique that is read.
-/

import ShaderGraph.Proofs.Flow

namespace ShaderGraph

open Block (Statement)
open Resolution (StoresGlobal Resolves)

/-! ## Nodes that are read -/

def ReadFrom (a : Arena) (ms : List Mapping) (name : String) : Prop :=
  ∃ id, Reads ms id ∧ (a.read id).origin = some (.node name)

section

variable {a b : Arena} {ms : List Mapping} {m : Mapping} {id : VarId} {name : String}

theorem readFrom_snoc_code {text : String} (hm : m.source = .code text) :
    ReadFrom a (ms ++ [m]) name ↔ ReadFrom a ms name := by
  simp [ReadFrom, reads_append, hm]

theorem readFrom_snoc_var (hm : m.source = .var id) :
    ReadFrom a (ms ++ [m]) name ↔
      ReadFrom a ms name ∨ (a.read id).origin = some (.node name) := by
  simp [ReadFrom, reads_append, hm, or_and_right, exists_or]

/-- Where a variable comes from does not change. -/
theorem Arena.Keeps.origin_read (h : a.Keeps b) (hid : id.index < a.size) :
    (b.read id).origin = (a.read id).origin := by
  obtain ⟨v, hv⟩ := Arena.exists_get? hid
  obtain ⟨w, hw, hc⟩ := h id v hv
  rw [Arena.read_of_get? hv, Arena.read_of_get? hw]
  exact (Variable.core_eq_iff.mp hc).2.2.1

theorem readFrom_keep (h : a.Keeps b) (hread : ∀ id, Reads ms id → id.index < a.size) :
    ReadFrom b ms name ↔ ReadFrom a ms name := by
  refine exists_congr fun id => and_congr_right fun hr => ?_
  rw [h.origin_read (hread id hr)]

end

/-- A node is read after it is opened and not before: what is read comes from nodes so far. -/
theorem Flowing.name_mem {p : Progress} (h : Flowing p) {name : String}
    (hr : ReadFrom p.technique.arena p.inputs name) : name ∈ p.nodes.map (·.name) := by
  obtain ⟨id, ⟨m, hm, hs⟩, ho⟩ := hr
  obtain ⟨n, hn, hmn⟩ := List.mem_flatMap.mp hm
  obtain ⟨before, after, hsplit⟩ := List.append_of_mem hn
  rw [Flowing, hsplit] at h
  obtain ⟨v, hv, hsupplied⟩ := h.admitted_at m hmn id hs
  rw [Arena.read_of_get? hv] at ho
  obtain ⟨q, hq, hmakes, -⟩ := hsupplied name ho
  have hname : q.name = name := by simpa [ho] using hmakes.origin.symm
  exact List.mem_map.mpr ⟨q, hsplit ▸ List.mem_append_left _ hq, hname⟩

/-! ## What a reference leads to -/

section

variable {catalog : Catalog} {reference : Reference} {consumer : Consumer}
  {t t' : Technique} {left left' : Variable} {id : VarId} {R W : VarId → Prop}

theorem producer?_eq_some {name : String} :
    Graph.producer? reference = some name ↔ reference.origin = some (.node name) := by
  unfold Graph.producer?
  split
  · next producer h => simp [h]
  · next h =>
    refine iff_of_false (fun hn => by cases hn) fun hn => h name hn

theorem name_of_node? {name : String} {n : Node} (h : t.node? name = some n) : n.name = name := by
  simpa using List.find?_some h

/-- What a reference leads to is of a node if the reference is, and then of the same one. -/
theorem origin_of_resolves (h : Exact t R W)
    (hr : Resolves catalog reference consumer t left id t' left') :
    ∃ v, t'.arena.get? id = some v ∧
      ∀ p, v.origin = some (.node p) ↔ reference.origin = some (.node p) := by
  cases hr with
  | global ho hs =>
    obtain ⟨-, -, v, hv, horigin⟩ := h.storesGlobal rfl hs
    exact ⟨v, hv, fun p => by simp [ho, horigin]⟩
  | vertexAttribute ho _ hoffer =>
    obtain ⟨v, hv, hnamed, -⟩ := h.names_offered (names_attributeVariable _ _) hoffer
    exact ⟨v, hv, fun p => by simp [ho, hnamed.1]⟩
  | materialParameter ho _ hs _ hoffer =>
    obtain ⟨defines, rfl⟩ := hs.frame
    have h' : Exact { t with defines } R W := h.congr rfl rfl rfl
    obtain ⟨v, hv, hnamed, -⟩ := h'.names_offered (names_parameterVariable _ _ _) hoffer
    exact ⟨v, hv, fun p => by rcases hnamed.1 with horigin | horigin <;> simp [ho, horigin]⟩
  | worldParameter ho _ hoffer =>
    obtain ⟨v, hv, hnamed, -⟩ := h.names_offered (names_worldVariable _) hoffer
    exact ⟨v, hv, fun p => by rcases hnamed.1 with horigin | horigin <;> simp [ho, horigin]⟩
  | @output producer node output ho hn _ _ =>
    refine ⟨_, Arena.get?_add_nextId _ _, fun p => ?_⟩
    rw [ho, ← name_of_node? hn]
    rfl
  | @varying producer node output o ho hn _ _ _ hoffer =>
    obtain ⟨v, hv, hnamed, -⟩ := h.names_offered (names_outputVariable _ _) hoffer
    obtain ⟨w, hw, hc⟩ :=
      Arena.keeps_raiseInputs node (o.arena.read o.id).name o.arena o.id v hv
    refine ⟨w, hw, fun p => ?_⟩
    rw [(Variable.core_eq_iff.mp hc).2.2.1, hnamed.1, ho, name_of_node? hn]

/-- Wherever a variable is listed, the marks stay. -/
theorem unusedNodes_list (i : Interface) (key : DeclKey) (stage : Stage) (o : Offered) :
    (i.list key stage o).unusedNodes = i.unusedNodes := by
  cases key with
  | vertexAttribute _ =>
    show (if o.isNew then _ else i).unusedNodes = _
    split <;> rfl
  | uniform _ => cases stage <;> rfl
  | varying _ _ =>
    show (if o.isNew then _ else i).unusedNodes = _
    split <;> rfl

theorem Resolution.StoresGlobal.unusedNodes {v : Variable} {stage : Stage}
    (h : StoresGlobal v stage t id t') : t'.interface.unusedNodes = t.interface.unusedNodes := by
  cases h <;> rfl

/-- Resolving marks no node. -/
theorem Resolution.Resolves.unusedNodes
    (h : Resolves catalog reference consumer t left id t' left') :
    t'.interface.unusedNodes = t.interface.unusedNodes := by
  cases h with
  | global _ hs => exact hs.unusedNodes
  | vertexAttribute _ _ _ =>
    exact unusedNodes_list t.interface (.vertexAttribute reference.name) consumer.stage _
  | @materialParameter param _ _ _ _ o _ _ hs _ _ =>
    obtain ⟨defines, rfl⟩ := hs.frame
    exact unusedNodes_list t.interface (.uniform param.uniformName) consumer.stage o
  | @worldParameter binding o _ _ _ =>
    exact unusedNodes_list t.interface (.uniform binding.uniformName) consumer.stage o
  | output _ _ _ _ => rfl
  | @varying _ node output o _ _ _ _ _ _ =>
    exact unusedNodes_list t.interface (.varying node.name output.name) consumer.stage o

end

/-! ## The marks -/

structure Node.Idle (n : Node) (name : String) : Prop where
  name : n.name = name
  output : n.definition.noOutput = false
  unmapped : n.outputs = []

def Marked (p : Progress) : Prop :=
  ∀ name, name ∈ p.technique.interface.unusedNodes ↔
    (∃ n ∈ p.nodes, n.Idle name) ∧ ¬ ReadFrom p.technique.arena p.inputs name

section

variable {context : Context} {p q : Progress} {t t' : Technique}
  {library library' : List Definition} {node node' n : Node} {m : Mapping} {name : String}
  {definition : Definition}

theorem mem_unusedNodes_markOpened {other : String} :
    name ∈ (t.markOpened other definition).interface.unusedNodes ↔
      if name = other then definition.noOutput = false else name ∈ t.interface.unusedNodes := by
  unfold Technique.markOpened
  split
  · next h =>
    show name ∈ t.interface.unusedNodes.erase other ↔ _
    rw [NameSet.mem_erase]
    split <;> simp_all
  · next h =>
    show name ∈ t.interface.unusedNodes.insert other ↔ _
    rw [NameSet.mem_insert]
    split <;> simp_all

theorem mem_unusedNodes_markProducer {reference : Reference} :
    name ∈ (t.markProducer reference).interface.unusedNodes ↔
      name ∈ t.interface.unusedNodes ∧ reference.origin ≠ some (.node name) := by
  unfold Technique.markProducer
  cases h : Graph.producer? reference with
  | some producer =>
    show name ∈ t.interface.unusedNodes.erase producer ↔ _
    rw [NameSet.mem_erase, producer?_eq_some.mp h]
    simp [eq_comm]
  | none =>
    have hne : reference.origin ≠ some (.node name) := by
      intro ho
      rw [producer?_eq_some.mpr ho] at h
      cases h
    simp [hne]

/-! ### Step by step -/

theorem exists_idle_current : (∃ n ∈ Progress.nodes ⟨t, library, some node⟩, n.Idle name) ↔
    (∃ n ∈ t.nodes, n.Idle name) ∨ node.Idle name := by
  simp only [mem_progress_nodes, or_and_right, exists_or, exists_eq_left]

/-- No other node has the name of the open one. -/
theorem Progress.Coherent.not_idle (hp : Progress.Coherent ⟨t, library, some node⟩) :
    ¬ ∃ n ∈ t.nodes, n.Idle node.name := by
  rintro ⟨n, hn, hidle⟩
  have hnames : ((t.nodes ++ [node]).map (·.name)).Nodup := hp.names
  rw [List.map_append, List.nodup_append] at hnames
  exact hnames.2.2 n.name (List.mem_map_of_mem hn) node.name List.mem_cons_self hidle.name

/-- A node that is opened is marked unless it is to write nothing; nothing can have read it. -/
theorem Marked.opened (h : Marked ⟨t, library, none⟩) (hflow : Flowing ⟨t, library, none⟩)
    (hnode : t.node? name = none) :
    Marked ⟨t.markOpened name definition, library', some ⟨name, definition, none, [], []⟩⟩ := by
  have hnew := name_notMem_of_node?_eq_none hnode
  have hunread : ¬ ReadFrom t.arena t.inputs name := by
    rw [← inputs_between t library]
    intro hr
    have hmem := hflow.name_mem hr
    rw [nodes_between] at hmem
    exact hnew hmem
  have hidle : ¬ ∃ n ∈ t.nodes, n.Idle name := by
    rintro ⟨n, hn, hidle⟩
    exact hnew (List.mem_map.mpr ⟨n, hn, hidle.name⟩)
  obtain ⟨unused, hu⟩ := markOpened_eq t name definition
  intro x
  have hold := h x
  rw [nodes_between, inputs_between] at hold
  rw [exists_idle_current, inputs_opened library library' name name definition, inputs_between]
  show x ∈ (t.markOpened name definition).interface.unusedNodes ↔ _
  rw [mem_unusedNodes_markOpened, hu]
  show _ ↔ ((∃ n ∈ t.nodes, n.Idle x) ∨ _) ∧ ¬ ReadFrom t.arena t.inputs x
  by_cases hx : x = name
  · subst hx
    rw [if_pos rfl, or_iff_right hidle, and_iff_left hunread]
    exact ⟨fun hout => ⟨rfl, hout, rfl⟩, fun h => h.output⟩
  · rw [if_neg hx, hold]
    have hother : ¬ (⟨name, definition, none, [], []⟩ : Node).Idle x := fun h => hx h.name.symm
    rw [or_iff_left hother]

/-- A step that reads some names and takes their marks away. -/
theorem Marked.current {P : String → Prop} (h : Marked ⟨t, library, some node⟩)
    (hnodes : t'.nodes = t.nodes) (hnode : ∀ name, node'.Idle name ↔ node.Idle name)
    (hmarks : ∀ name, name ∈ t'.interface.unusedNodes ↔
      name ∈ t.interface.unusedNodes ∧ ¬ P name)
    (hread : ∀ name, ReadFrom t'.arena (Progress.inputs ⟨t', library, some node'⟩) name ↔
      ReadFrom t.arena (Progress.inputs ⟨t, library, some node⟩) name ∨ P name) :
    Marked ⟨t', library, some node'⟩ := by
  intro name
  have hold := h name
  rw [exists_idle_current] at hold
  rw [exists_idle_current, hnodes, hnode, hmarks, hread, not_or, ← and_assoc]
  exact and_congr_left fun _ => hold

theorem Marked.input {catalog : Catalog} (h : Marked ⟨t, library, some node⟩)
    (hp : Progress.Coherent ⟨t, library, some node⟩)
    (keep : ∀ name, ReadFrom t'.arena (Progress.inputs ⟨t, library, some node⟩) name ↔
      ReadFrom t.arena (Progress.inputs ⟨t, library, some node⟩) name)
    (hi : ReadsInput catalog node t m t') :
    Marked ⟨t', library, some { node with inputs := node.inputs ++ [m] }⟩ := by
  have hnode : ∀ name, Node.Idle { node with inputs := node.inputs ++ [m] } name ↔
      node.Idle name := fun name => ⟨fun h => ⟨h.1, h.2, h.3⟩, fun h => ⟨h.1, h.2, h.3⟩⟩
  have hinputs : Progress.inputs ⟨t', library, some { node with inputs := node.inputs ++ [m] }⟩ =
      Progress.inputs ⟨t, library, some node⟩ ++ [m] := inputs_input m hi.nodes
  have hnodes := hi.nodes
  cases hi with
  | @code _ _ _ _ _ t₁ _ hc =>
    refine h.current (P := fun _ => False) hnodes hnode (fun name => ?_) fun name => ?_
    · obtain ⟨defines, rfl⟩ := hc.frame
      exact (and_iff_left not_false).symm
    · rw [hinputs, readFrom_snoc_code rfl, keep, or_false]
  | @reference _ _ _ left _ reference id t₁ t₂ _ hc _ hr _ =>
    obtain ⟨defines, rfl⟩ := hc.frame
    have hexact : Exact { t with defines } _ _ := hp.exact.congr rfl rfl rfl
    obtain ⟨v, hv, horigin⟩ := origin_of_resolves hexact hr
    refine h.current (P := fun name => reference.origin = some (.node name)) hnodes hnode
      (fun name => ?_) fun name => ?_
    · refine mem_unusedNodes_markProducer.trans ?_
      rw [hr.unusedNodes]
    · have hread : ((t₂.markProducer reference).addVariable left).arena.get? id = some v := by
        obtain ⟨unused, hu⟩ := markProducer_eq t₂ reference
        rw [hu]
        exact Arena.get?_add_of_get? hv left
      rw [hinputs, readFrom_snoc_var rfl, keep, Arena.read_of_get? hread, horigin]

/-- A node that writes a global is no longer idle. -/
theorem Marked.output {catalog : Catalog} (h : Marked ⟨t, library, some node⟩)
    (hp : Progress.Coherent ⟨t, library, some node⟩)
    (keep : ∀ name, ReadFrom t'.arena (Progress.inputs ⟨t, library, some node⟩) name ↔
      ReadFrom t.arena (Progress.inputs ⟨t, library, some node⟩) name)
    (ho : ReadsOutput catalog node t m t') :
    Marked ⟨t', library, some { node with outputs := node.outputs ++ [m] }⟩ := by
  have hmarks : t'.interface.unusedNodes = t.interface.unusedNodes.erase node.name := by
    cases ho with
    | @mk _ _ _ _ _ _ _ t₁ t₂ _ _ _ hc hg =>
      obtain ⟨defines, rfl⟩ := hc.frame
      exact congrArg (·.erase node.name) hg.unusedNodes
  have hinputs : Progress.inputs ⟨t', library, some { node with outputs := node.outputs ++ [m] }⟩ =
      Progress.inputs ⟨t, library, some node⟩ := inputs_of_eq ho.nodes rfl
  intro name
  have hold := h name
  rw [exists_idle_current] at hold
  rw [exists_idle_current, ho.nodes, hinputs, keep, hmarks, NameSet.mem_erase, hold]
  by_cases hname : name = node.name
  · subst hname
    have hwrites : ¬ Node.Idle { node with outputs := node.outputs ++ [m] } node.name :=
      fun h => List.append_ne_nil_of_right_ne_nil _ (List.cons_ne_nil m []) h.unmapped
    simp [hp.not_idle, hwrites]
  · have hother : ¬ node.Idle name := fun h => hname h.name.symm
    have hother' : ¬ Node.Idle { node with outputs := node.outputs ++ [m] } name :=
      fun h => hname h.name.symm
    simp [hname, hother, hother']

theorem Marked.closed (h : Marked ⟨t, library, some node⟩) :
    Marked ⟨{ t with nodes := t.nodes ++ [node] }, library, none⟩ := by
  have hnodes : Progress.nodes ⟨{ t with nodes := t.nodes ++ [node] }, library, none⟩ =
      Progress.nodes ⟨t, library, some node⟩ := by simp [Progress.nodes]
  intro name
  rw [hnodes, inputs_closed]
  exact h name

theorem Marked.step (h : Marked p) (hp : p.Coherent) (hstored : Stored p.technique)
    (hflow : Flowing p) (hs : Step context p q) : Marked q := by
  -- what was read stays read, so only what a step adds has to be judged
  have keep : ∀ name, ReadFrom q.technique.arena p.inputs name ↔
      ReadFrom p.technique.arena p.inputs name :=
    fun name => readFrom_keep (keeps_of_step hstored hs) fun id hr => hp.exact.stored hr
  cases hs with
  | opened hnode _ => exact h.opened hflow hnode
  | @condition t t' library node condition hc =>
    obtain ⟨defines, rfl⟩ := hc.frame
    have hinputs : Progress.inputs ⟨{ t with defines }, library, some { node with condition }⟩ =
        Progress.inputs ⟨t, library, some node⟩ := inputs_of_eq rfl rfl
    refine h.current (P := fun _ => False) rfl (fun _ => ⟨fun h => ⟨h.1, h.2, h.3⟩,
      fun h => ⟨h.1, h.2, h.3⟩⟩) (fun name => ?_) fun name => ?_
    · exact (and_iff_left not_false).symm
    · rw [hinputs, or_false]
  | input hi => exact h.input hp keep hi
  | output ho => exact h.output hp keep ho
  | closed => exact h.closed

variable {draft : Draft}

theorem marked_of_reach (hd : draft.technique.Blank) (h : Reach context draft.progress p) :
    Marked p := by
  induction h with
  | start =>
    intro name
    have hnodes : draft.progress.nodes = [] := by simp [Progress.nodes, Draft.progress, hd.nodes]
    have hmarks : draft.technique.interface.unusedNodes = .empty := by rw [hd.interface]
    rw [hnodes, show draft.progress.technique = draft.technique from rfl, hmarks]
    simp
  | step hr hs ih =>
    have hp := coherent_of_reach hd hr
    exact ih.step hp (typed_of_reach hd hr).stored (flowing_of_reach hd hr) hs

end

/-! ## Finished techniques -/

/-- The nodes that count as unused are those that are to write something and are used for nothing:
they map no output to a global, and no input mapping reads a variable of them. -/
def Technique.UnusedExact (t : Technique) : Prop :=
  ∀ name, name ∈ t.interface.unusedNodes ↔
    ∃ n ∈ t.nodes, n.name = name ∧ n.definition.noOutput = false ∧ n.outputs = [] ∧
      ∀ reader ∈ t.nodes, ∀ m ∈ reader.inputs, ∀ id, m.source = .var id →
        (t.arena.read id).origin ≠ some (.node name)

theorem exists_idle_unconditional {ns ns' : List Node} {name : String}
    (h : ns'.map Node.unconditional = ns.map Node.unconditional) :
    (∃ n ∈ ns', n.Idle name) ↔ ∃ n ∈ ns, n.Idle name := by
  have unconditional : ∀ l : List Node, (∃ n ∈ l, n.Idle name) ↔
      ∃ n ∈ l.map Node.unconditional, n.Idle name := by
    intro l
    simp only [List.mem_map, exists_exists_and_eq_and]
    exact exists_congr fun n => and_congr_right fun _ =>
      ⟨fun h => ⟨h.1, h.2, h.3⟩, fun h => ⟨h.1, h.2, h.3⟩⟩
  rw [unconditional, h, ← unconditional]

/-- In every technique that is read, the nodes that count as unused are those that are. -/
theorem unusedExact_of_readTechnique {context : Context} {statement : Statement}
    {warnings warnings' : List Warning} {t : Technique}
    (h : readTechnique context statement warnings = (.ok (some t), warnings')) :
    t.UnusedExact := by
  obtain ⟨draft, t₀, library, hdraft, hreach, rfl⟩ := built_of_readTechnique h
  have hblank := blank_of_drafts hdraft
  have hp := coherent_of_reach hblank hreach
  have hread : ∀ name, ReadFrom t₀.finish.arena t₀.finish.inputs name ↔
      ReadFrom t₀.arena t₀.inputs name := by
    intro name
    rw [ReadFrom, reads_finish]
    refine readFrom_keep t₀.keeps_finish fun id hr => hp.exact.stored ?_
    rw [inputs_between]
    exact hr
  intro name
  have hmarked := marked_of_reach hblank hreach name
  rw [nodes_between, inputs_between, ← exists_idle_unconditional t₀.finish_nodes,
    ← hread] at hmarked
  rw [Technique.finish_interface, hmarked]
  constructor
  · rintro ⟨⟨n, hn, hidle⟩, hunread⟩
    refine ⟨n, hn, hidle.name, hidle.output, hidle.unmapped, fun reader hr m hm id hs ho => ?_⟩
    exact hunread ⟨id, ⟨m, List.mem_flatMap.mpr ⟨reader, hr, hm⟩, hs⟩, ho⟩
  · rintro ⟨n, hn, hname, houtput, hunmapped, hunread⟩
    refine ⟨⟨n, hn, hname, houtput, hunmapped⟩, ?_⟩
    rintro ⟨id, ⟨m, hm, hs⟩, ho⟩
    obtain ⟨reader, hr, hm⟩ := List.mem_flatMap.mp hm
    exact hunread reader hr m hm id hs ho

/-! ## A node that is read, one that is not, and one that writes nothing -/

namespace Lit

def mixNode (name : String) (mappings : List Statement) : Statement :=
  statement s!"ShaderNode {name}" (line "Definition : Mix" :: mappings)

/-- Two more nodes take the lit color; one of them is read by a node that writes nothing. -/
def spareTechnique : Statement :=
  statement "Technique" [
    statement "ShaderNodesDefinitions" (definitions ++ [
      statement "ShaderNodeDefinition Mix" [
        line "Type: Fragment",
        statement "Input" [line "vec4 lit"],
        statement "Output" [line "vec4 mixed"]],
      statement "ShaderNodeDefinition Keep" [
        line "Type: Fragment",
        statement "Input" [line "vec4 mixed"],
        statement "Output" [line "None"]]]),
    statement "VertexShaderNodes" [vertexNode],
    statement "FragmentShaderNodes" [fragmentNode,
      mixNode "Mixed" [statement "InputMappings" [line "lit = Lighted.lit"]],
      mixNode "Spare" [statement "InputMappings" [line "lit = Lighted.lit"]],
      statement "ShaderNode Kept" [
        line "Definition : Keep",
        statement "InputMappings" [line "mixed = Mixed.mixed"]]]]

end Lit

theorem unusedExact_spare :
    ∃ t warnings, readTechnique Lit.context Lit.spareTechnique [] = (.ok (some t), warnings) ∧
      (t.nodes.map (fun n => (n.name, n.definition.noOutput, n.outputs.length)) =
          [("Placed", false, 1), ("Lighted", false, 1), ("Mixed", false, 0), ("Spare", false, 0),
            ("Kept", true, 0)] ∧
        t.interface.unusedNodes.names = ["Spare"]) ∧ t.UnusedExact := by
  have hread : (readTechnique? Lit.context Lit.spareTechnique).map (fun t =>
      (t.nodes.map (fun n => (n.name, n.definition.noOutput, n.outputs.length)),
        t.interface.unusedNodes.names)) =
      some ([("Placed", false, 1), ("Lighted", false, 1), ("Mixed", false, 0), ("Spare", false, 0),
        ("Kept", true, 0)], ["Spare"]) := by
    decide +kernel
  obtain ⟨t, warnings, h, hread⟩ := readTechnique_of_readTechnique? hread
  simp only [Prod.mk.injEq] at hread
  exact ⟨t, warnings, h, hread, unusedExact_of_readTechnique h⟩

end ShaderGraph
