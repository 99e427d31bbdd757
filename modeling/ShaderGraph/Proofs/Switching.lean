/-
  ShaderGraph.Proofs.Switching — whether the guards of a technique can be switched on.

  Wherever a guard is written, its define is bound to the parameter it is for, unless that
  parameter is bound already. A `Defines` line binds before any node is read, and may bind to
  another define. Then the guard is written all the same, and nothing sets what it tests.

  - `Shows`, `HasGuard`: the texts that a technique shows, with the guards written in them.
  - `Registers`: what building does to the defines, and that the variables' guards are bound.
  - `registered_of_reach`: every guard is for a parameter that is bound.
  - `guards_switch_of_readTechnique`: a guard of a technique can be switched on unless
    `Defines` lines displaced it (`Displaces`). Lines that give each parameter its own define
    never do (`not_displaced_of_own`), others may (`guard_displaced`).
-/

import ShaderGraph.Proofs.Composing
import ShaderGraph.Proofs.Guards
import ShaderGraph.Proofs.Signatures

namespace ShaderGraph

open Block (Statement)
open Condition (defineOf guard normalize Each each_none each_some)
open Resolution (StoresGlobal Sized Resolves globalVariable raiseInputs)

/-! ## Tables of defines -/

namespace DefineTable

/-- The table has all bindings of the other, and beyond them own defines only. -/
structure OwnOver (t base : DefineTable) : Prop where
  keeps : ∀ b ∈ base.bindings, b ∈ t.bindings
  own : ∀ b ∈ t.bindings, b ∈ base.bindings ∨ b.define = defineOf b.param

def Binds (t : DefineTable) (define : String) : Prop :=
  ∃ b ∈ t.bindings, defineOf b.param = define

variable {base t t' : DefineTable}

theorem OwnOver.refl (t : DefineTable) : t.OwnOver t := ⟨fun _ h => h, fun _ h => Or.inl h⟩

theorem OwnOver.trans (h : t.OwnOver base) (h' : t'.OwnOver t) : t'.OwnOver base := by
  refine ⟨fun b hb => h'.keeps b (h.keeps b hb), fun b hb => ?_⟩
  rcases h'.own b hb with hb | hown
  · exact h.own b hb
  · exact Or.inr hown

theorem OwnOver.binds (h : t'.OwnOver t) {define : String} (hb : t.Binds define) :
    t'.Binds define := by
  obtain ⟨b, hmem, hdefine⟩ := hb
  exact ⟨b, h.keeps b hmem, hdefine⟩

theorem ownOver_bind (t : DefineTable) (param : String) (type : ParamType) :
    (t.bind ⟨param, defineOf param, type⟩).OwnOver t := by
  refine ⟨fun b hb => mem_bind_of_mem hb, fun b hb => ?_⟩
  unfold bind at hb
  split at hb
  · exact Or.inl hb
  · rcases mem_place.mp hb with rfl | hb
    · exact Or.inr rfl
    · exact Or.inl hb

/-- Bound to whatever define it is, the parameter is bound. -/
theorem binds_bind (t : DefineTable) (b : DefineBinding) : (t.bind b).Binds (defineOf b.param) := by
  unfold bind
  cases h : t.find? b.param with
  | some x =>
    have hparam := List.find?_some h
    simp only [beq_iff_eq] at hparam
    exact ⟨x, List.mem_of_find?_eq_some h, by rw [hparam]⟩
  | none => exact ⟨b, mem_place.mpr (Or.inl rfl), rfl⟩

end DefineTable

/-! ## Guards of variables -/

/-- The guard of the variable, and that of its length, are for parameters that are bound. -/
structure Variable.Guarded (defines : DefineTable) (v : Variable) : Prop where
  condition : ∀ c, v.condition = some c → ∃ define, c = guard define ∧ defines.Binds define
  length : ∀ define, v.sizeDefine = some define → defines.Binds define

theorem Variable.guarded_of_none {defines : DefineTable} {v : Variable} (hc : v.condition = none)
    (hs : v.sizeDefine = none) : v.Guarded defines := by
  refine ⟨fun c h => ?_, fun define h => ?_⟩
  · rw [hc] at h; cases h
  · rw [hs] at h; cases h

theorem Variable.Bare.guarded {defines : DefineTable} {v : Variable} (h : v.Bare)
    (node : String) : (v.ofNode node).Guarded defines :=
  guarded_of_none h.condition h.sizeDefine

def Arena.Guarded (defines : DefineTable) (a : Arena) : Prop :=
  ∀ id v, a.get? id = some v → v.Guarded defines

section

variable {defines defines' : DefineTable} {a : Arena} {v : Variable}

theorem Variable.Guarded.mono (h : v.Guarded defines) (hd : defines'.OwnOver defines) :
    v.Guarded defines' := by
  refine ⟨fun c hc => ?_, fun define hs => hd.binds (h.length define hs)⟩
  obtain ⟨define, rfl, hb⟩ := h.condition c hc
  exact ⟨define, rfl, hd.binds hb⟩

theorem Arena.Guarded.mono (h : a.Guarded defines) (hd : defines'.OwnOver defines) :
    a.Guarded defines' := fun id v hv => (h id v hv).mono hd

theorem Arena.Guarded.add (h : a.Guarded defines) (hv : v.Guarded defines) :
    (a.add v).Guarded defines := Every.add h hv

theorem Arena.Guarded.offer (h : a.Guarded defines) (hv : v.Guarded defines) (r : Registry)
    (key : DeclKey) (consumer : String) : (r.offer a key v consumer).arena.Guarded defines :=
  Every.offer h hv r key consumer

theorem Arena.Guarded.raiseInputs (h : a.Guarded defines) (node : Node) (name : String) :
    (raiseInputs node name a).Guarded defines :=
  Every.raiseInputs h (fun _ hv => ⟨hv.condition, hv.length⟩) node name

end

/-! ## What building does to the defines -/

/-- Own defines may have been bound, and guarded variables added. -/
structure Technique.Registers (t t' : Technique) : Prop where
  defines : t'.defines.OwnOver t.defines
  presets : t'.presets = t.presets
  arena : t.arena.Guarded t.defines → t'.arena.Guarded t'.defines

section

variable {catalog : Catalog} {t t' t'' : Technique} {v left left' : Variable} {id : VarId}

theorem Technique.Registers.refl (t : Technique) : t.Registers t := ⟨.refl _, rfl, fun h => h⟩

theorem Technique.Registers.trans (h : t.Registers t') (h' : t'.Registers t'') :
    t.Registers t'' :=
  ⟨h.defines.trans h'.defines, h'.presets.trans h.presets, fun ha => h'.arena (h.arena ha)⟩

/-- The interface does not count. -/
theorem Technique.Registers.withInterface (h : t.Registers t') (interface : Interface) :
    t.Registers (t'.withInterface interface) := ⟨h.defines, h.presets, h.arena⟩

theorem registers_of_ownOver {defines : DefineTable} (h : defines.OwnOver t.defines) :
    t.Registers { t with defines } := ⟨h, rfl, fun ha => ha.mono h⟩

theorem registers_addVariable (hv : v.Guarded t.defines) : t.Registers (t.addVariable v) :=
  ⟨.refl _, rfl, fun ha => ha.add hv⟩

theorem registers_afterOffer {key : DeclKey} {consumer : Consumer} {o : Offered}
    (hv : v.Guarded t.defines) (ho : o = t.offer key v consumer) :
    t.Registers (t.afterOffer o) := by
  subst ho
  exact ⟨.refl _, rfl, fun ha => ha.offer hv t.registry key consumer.name⟩

theorem Resolution.StoresGlobal.registers {name : String} {stage : Stage}
    (h : StoresGlobal (globalVariable name) stage t id t') : t.Registers t' := by
  have hnew : t.Registers (t.addVariable (globalVariable name).raised) :=
    registers_addVariable (Variable.guarded_of_none rfl rfl)
  cases h with
  | vertexFound _ _ => exact .refl t
  | vertexNew _ => exact hnew.withInterface _
  | fragmentFound _ => exact .refl t
  | fragmentNew _ => exact hnew.withInterface _
  | other _ _ => exact hnew

theorem name_of_param? {name : String} {param : Parameter} (h : catalog.param? name = some param) :
    param.name = name := by
  have := List.find?_some h
  simpa using this

/-- The define of a length is bound, and so is the one that the left side is needed under. -/
theorem Resolution.Sized.registers {param : Parameter} {length : Option ArrayLength}
    (h : Sized catalog param t left length t' left') (hc : left.condition = none)
    (hs : left.sizeDefine = none) :
    t.Registers t' ∧ left'.Guarded t'.defines ∧
      ∀ type, (Resolution.parameterVariable param type length).Guarded t'.defines := by
  cases h with
  | single _ =>
    exact ⟨.refl t, Variable.guarded_of_none hc hs, fun _ => Variable.guarded_of_none rfl rfl⟩
  | literal _ _ _ =>
    exact ⟨.refl t, Variable.guarded_of_none hc hs, fun _ => Variable.guarded_of_none rfl rfl⟩
  | @byParameter length size _ _ _ hp =>
    have hbound : (t.bindDefine size.name (defineOf size.name) (.single .int)).defines.Binds
        (defineOf length) := by
      rw [← name_of_param? hp]
      exact DefineTable.binds_bind t.defines _
    refine ⟨registers_of_ownOver (DefineTable.ownOver_bind _ _ _), ⟨?_, ?_⟩, fun type => ⟨?_, ?_⟩⟩
    · intro c hcondition
      unfold Variable.neededUnder at hcondition
      rw [hc] at hcondition
      cases hcondition
      exact ⟨_, rfl, hbound⟩
    · intro define hdefine
      rw [show left.sizeDefine = some define from hdefine] at hs
      cases hs
    · exact fun c hcondition => by cases hcondition
    · intro define hdefine
      cases hdefine
      exact hbound

theorem Resolution.Resolves.registers {reference : Reference} {consumer : Consumer}
    (h : Resolves catalog reference consumer t left id t' left') (hc : left.condition = none)
    (hs : left.sizeDefine = none) : t.Registers t' ∧ left'.Guarded t'.defines := by
  have hleft : ∀ defines, left.Guarded defines := fun _ => Variable.guarded_of_none hc hs
  cases h with
  | global _ hg => exact ⟨hg.registers, hleft _⟩
  | vertexAttribute _ _ ho =>
    have hoffer := registers_afterOffer (Variable.guarded_of_none rfl rfl) ho
    exact ⟨hoffer.withInterface _, hleft _⟩
  | materialParameter _ _ hsized _ ho =>
    obtain ⟨hbind, hleft', hv⟩ := hsized.registers hc hs
    have hoffer := registers_afterOffer (hv _) ho
    exact ⟨(hbind.trans hoffer).withInterface _, hleft'⟩
  | worldParameter _ _ ho =>
    have hoffer := registers_afterOffer (Variable.guarded_of_none rfl rfl) ho
    exact ⟨hoffer.withInterface _, hleft _⟩
  | output _ _ _ _ =>
    exact ⟨registers_addVariable (Variable.guarded_of_none rfl rfl), hleft _⟩
  | @varying _ node _ o _ _ _ _ _ ho =>
    have hoffer := (registers_afterOffer (Variable.guarded_of_none rfl rfl) ho).withInterface
      (Resolution.Interface.listVarying t.interface o)
    have hraise := fun ha => (hoffer.arena ha).raiseInputs node (o.arena.read o.id).name
    exact ⟨⟨hoffer.defines, hoffer.presets, hraise⟩, hleft _⟩

/-! ## Conditions and mappings -/

def Registered (defines : DefineTable) (text : String) : Prop :=
  ∃ source, text = (normalize source).text ∧
    ∀ define ∈ (normalize source).defines, defines.Binds define

theorem BindsOwn.registers {names : List String} (h : BindsOwn catalog names t t') :
    t.Registers t' ∧ ∀ name ∈ names, t'.defines.Binds (defineOf name) := by
  induction h with
  | nil => exact ⟨.refl _, fun name hn => absurd hn List.not_mem_nil⟩
  | @cons name names param t t' hp _ ih =>
    obtain ⟨hrest, hnames⟩ := ih
    have hbind := registers_of_ownOver (DefineTable.ownOver_bind t.defines param.name param.type)
    refine ⟨hbind.trans hrest, fun other hn => ?_⟩
    rcases List.mem_cons.mp hn with rfl | hn
    · rw [← name_of_param? hp]
      exact hrest.defines.binds (DefineTable.binds_bind t.defines _)
    · exact hnames other hn

theorem ReadsCondition.registers {condition : Option String}
    (h : ReadsCondition catalog t condition t') :
    t.Registers t' ∧ Each (Registered t'.defines) condition := by
  cases h with
  | absent => exact ⟨.refl t, each_none⟩
  | @given text _ hb =>
    obtain ⟨hr, hnames⟩ := hb.registers
    refine ⟨hr, each_some.mpr ⟨text, rfl, fun define hd => ?_⟩⟩
    obtain ⟨name, hn, rfl⟩ := List.mem_map.mp hd
    exact hnames name hn

theorem each_registered_mono {defines defines' : DefineTable} {condition : Option String}
    (h : Each (Registered defines) condition) (hd : defines'.OwnOver defines) :
    Each (Registered defines') condition := by
  intro text ht
  obtain ⟨source, hsource, hbinds⟩ := h text ht
  exact ⟨source, hsource, fun define hg => hd.binds (hbinds define hg)⟩

theorem ReadsInput.registers {node : Node} {m : Mapping} (h : ReadsInput catalog node t m t')
    (hb : node.definition.Bare) : t.Registers t' ∧ Each (Registered t'.defines) m.condition := by
  cases h with
  | code hi hc =>
    obtain ⟨hr, hcondition⟩ := hc.registers
    exact ⟨hr.trans (registers_addVariable ((hb.input hi).guarded _)), hcondition⟩
  | @reference _ _ _ left _ reference _ t₁ t₂ hi hc _ hres _ =>
    obtain ⟨hr, hcondition⟩ := hc.registers
    have hbare := hb.input hi
    obtain ⟨hr', hleft⟩ := hres.registers hbare.condition hbare.sizeDefine
    obtain ⟨unused, hu⟩ := markProducer_eq t₂ reference
    rw [hu]
    refine ⟨(hr.trans (hr'.withInterface _)).trans (registers_addVariable hleft), ?_⟩
    exact each_registered_mono hcondition hr'.defines

theorem ReadsOutput.registers {node : Node} {m : Mapping} (h : ReadsOutput catalog node t m t')
    (hb : node.definition.Bare) : t.Registers t' ∧ Each (Registered t'.defines) m.condition := by
  cases h with
  | mk ho _ _ hc hg =>
    obtain ⟨hr, hcondition⟩ := hc.registers
    have hg := hg.registers
    refine ⟨(hr.trans (hg.withInterface _)).trans (registers_addVariable ?_), ?_⟩
    · exact (hb.output ho).guarded _
    · exact each_registered_mono hcondition hg.defines

end

/-! ## Every step -/

structure NodeRegistered (defines : DefineTable) (n : Node) : Prop where
  own : Each (Registered defines) n.condition
  inputs : ∀ m ∈ n.inputs, Each (Registered defines) m.condition
  outputs : ∀ m ∈ n.outputs, Each (Registered defines) m.condition

theorem NodeRegistered.mono {defines defines' : DefineTable} {n : Node}
    (h : NodeRegistered defines n) (hd : defines'.OwnOver defines) : NodeRegistered defines' n :=
  ⟨each_registered_mono h.own hd, fun m hm => each_registered_mono (h.inputs m hm) hd,
    fun m hm => each_registered_mono (h.outputs m hm) hd⟩

structure Progress.Registered (base : Technique) (p : Progress) : Prop where
  registers : base.Registers p.technique
  arena : p.technique.arena.Guarded p.technique.defines
  nodes : ∀ n ∈ p.nodes, NodeRegistered p.technique.defines n

section

variable {context : Context} {base : Technique}

theorem registered_blank {draft : Draft} (h : draft.technique.Blank) :
    draft.progress.Registered draft.technique := by
  refine ⟨.refl _, ?_, ?_⟩
  · show draft.technique.arena.Guarded _
    rw [h.arena]
    exact fun id v hv => by cases hv
  · simp [Progress.nodes, Draft.progress, h.nodes]

/-- Of a step that registers, only the open node has to be looked at. -/
theorem Progress.Registered.of_current {t t' : Technique} {library library' : List Definition}
    {current : Option Node} {node : Node} (h : Progress.Registered base ⟨t, library, current⟩)
    (hr : t.Registers t') (hn : t'.nodes = t.nodes) (hnode : NodeRegistered t'.defines node) :
    Progress.Registered base ⟨t', library', some node⟩ := by
  refine ⟨h.registers.trans hr, hr.arena h.arena, fun n hmem => ?_⟩
  rcases mem_progress_nodes.mp hmem with hmem | rfl
  · rw [hn] at hmem
    exact (h.nodes n (List.mem_append_left _ hmem)).mono hr.defines
  · exact hnode

theorem Progress.Registered.step {p q : Progress} (h : p.Registered base) (hb : p.Bare)
    (hs : Step context p q) : q.Registered base := by
  cases hs with
  | @opened t _ _ name _ definition _ _ =>
    obtain ⟨unused, hu⟩ := markOpened_eq t name definition
    rw [hu]
    refine h.of_current ((Technique.Registers.refl t).withInterface _) rfl ⟨each_none, ?_, ?_⟩
    · exact fun m hm => absurd hm List.not_mem_nil
    · exact fun m hm => absurd hm List.not_mem_nil
  | @condition t t' _ node _ hc =>
    obtain ⟨hr, hcondition⟩ := hc.registers
    have hn : t'.nodes = t.nodes := by
      obtain ⟨defines, rfl⟩ := hc.frame
      rfl
    have hnode := (h.nodes node (mem_progress_nodes.mpr (Or.inr rfl))).mono hr.defines
    exact h.of_current hr hn ⟨hcondition, hnode.inputs, hnode.outputs⟩
  | @input t t' _ node m hi =>
    obtain ⟨hr, hcondition⟩ := hi.registers (hb.current node rfl)
    have hnode := (h.nodes node (mem_progress_nodes.mpr (Or.inr rfl))).mono hr.defines
    have hinputs := List.forall_mem_append.mpr
      ⟨hnode.inputs, List.forall_mem_singleton.mpr hcondition⟩
    exact h.of_current hr hi.nodes ⟨hnode.own, hinputs, hnode.outputs⟩
  | @output t t' _ node m ho =>
    obtain ⟨hr, hcondition⟩ := ho.registers (hb.current node rfl)
    have hnode := (h.nodes node (mem_progress_nodes.mpr (Or.inr rfl))).mono hr.defines
    have houtputs := List.forall_mem_append.mpr
      ⟨hnode.outputs, List.forall_mem_singleton.mpr hcondition⟩
    exact h.of_current hr ho.nodes ⟨hnode.own, hnode.inputs, houtputs⟩
  | @closed t library node =>
    have hr : t.Registers { t with nodes := t.nodes ++ [node] } := ⟨.refl _, rfl, fun ha => ha⟩
    refine ⟨h.registers.trans hr, h.arena, fun n hn => h.nodes n ?_⟩
    simpa [Progress.nodes] using hn

theorem registered_of_reach {statement : Statement} {draft : Draft}
    (hd : Drafts context statement draft) {p : Progress} (h : Reach context draft.progress p) :
    p.Registered draft.technique := by
  induction h with
  | start => exact registered_blank (blank_of_drafts hd)
  | step hr hs ih => exact ih.step (bare_of_reach hd hr) hs

end

/-! ## Texts with guards -/

theorem guard_inj {a b : String} (h : guard a = guard b) : a = b := by
  have hl := congrArg String.toList h
  simp only [Condition.guard, String.toList_append] at hl
  exact String.toList_inj.mp (List.append_cancel_left (List.append_cancel_right hl))

/-- A text that the technique shows, with the defines whose guards are written in it: the condition
of a node, of a mapping or of a variable, or the guard of a length. -/
inductive Technique.Shows (t : Technique) : String → List String → Prop
  | node {n : Node} {source : String} :
      n ∈ t.nodes → n.condition = some (normalize source).text →
      t.Shows (normalize source).text (normalize source).defines
  | input {n : Node} {m : Mapping} {source : String} :
      n ∈ t.nodes → m ∈ n.inputs → m.condition = some (normalize source).text →
      t.Shows (normalize source).text (normalize source).defines
  | output {n : Node} {m : Mapping} {source : String} :
      n ∈ t.nodes → m ∈ n.outputs → m.condition = some (normalize source).text →
      t.Shows (normalize source).text (normalize source).defines
  | stored {id : VarId} {v : Variable} {define : String} :
      t.arena.get? id = some v → v.condition = some (guard define) →
      t.Shows (guard define) [define]
  | length {id : VarId} {v : Variable} {define : String} :
      t.arena.get? id = some v → v.sizeDefine = some define → t.Shows (guard define) [define]

def Technique.HasGuard (t : Technique) (define : String) : Prop :=
  ∃ text written, t.Shows text written ∧ define ∈ written

def Technique.IsText (t : Technique) (text : String) : Prop := ∃ written, t.Shows text written

/-- Every condition of the technique is put together from texts of another, so no guard stands in
one that is not written in the other. -/
structure Technique.ComposedOf (t t₀ : Technique) : Prop where
  nodes : ∀ n ∈ t.nodes, Activation.NodeEach (Condition.Composed t₀.IsText) n
  outputs : ∀ n ∈ t.nodes, ∀ m ∈ n.outputs, Each t₀.IsText m.condition
  arena : Activation.ArenaEach (Condition.Composed t₀.IsText) t.arena

section

variable {base t : Technique} {library : List Definition}

theorem composedOf_finish (h : Progress.Registered base ⟨t, library, none⟩) :
    t.finish.ComposedOf t := by
  have hnode : ∀ n ∈ t.nodes, NodeRegistered t.defines n :=
    fun n hn => h.nodes n (List.mem_append_left _ hn)
  have hnodes : ∀ n ∈ t.nodes, Activation.NodeEach (Condition.Composed t.IsText) n := by
    intro n hn
    constructor
    · intro text ht
      obtain ⟨source, rfl, -⟩ := (hnode n hn).own text ht
      exact .text ⟨_, .node hn ht⟩
    · intro m hm text ht
      obtain ⟨source, rfl, -⟩ := (hnode n hn).inputs m hm text ht
      exact .text ⟨_, .input hn hm ht⟩
  have harena : Activation.ArenaEach (Condition.Composed t.IsText) t.arena := by
    intro id v hv
    constructor
    · intro text ht
      obtain ⟨define, rfl, -⟩ := (h.arena id v hv).condition text ht
      exact .text ⟨_, .stored hv ht⟩
    · intro text ht
      obtain ⟨define, hs, rfl⟩ := Option.map_eq_some_iff.mp ht
      exact .text ⟨_, .length hv hs⟩
  obtain ⟨hn, ha⟩ := Technique.finish_each (Condition.composes_composed _) hnodes harena
  refine ⟨hn, fun n' hn' m hm text ht => ?_, ha⟩
  obtain ⟨n, hmem, he⟩ := Technique.exists_node_of_finish hn'
  obtain ⟨-, -, -, houtputs⟩ := Node.eq_of_unconditional he
  rw [houtputs] at hm
  obtain ⟨source, rfl, -⟩ := (hnode n hmem).outputs m hm text ht
  exact ⟨_, .output hmem hm ht⟩

/-- It does not matter from which condition the text was normalized. -/
theorem Registered.binds {defines : DefineTable} {condition : Option String}
    {source define : String} (h : Each (Registered defines) condition)
    (hc : condition = some (normalize source).text)
    (hd : define ∈ (normalize source).defines) : defines.Binds define := by
  obtain ⟨other, htext, hbinds⟩ := h _ hc
  rw [Condition.defines_of_text_eq htext] at hd
  exact hbinds define hd

/-- Every guard that is written is for a parameter that is bound. -/
theorem binds_of_hasGuard (h : Progress.Registered base ⟨t, library, none⟩) {define : String}
    (hg : t.HasGuard define) : t.defines.Binds define := by
  obtain ⟨text, written, hshows, hmem⟩ := hg
  have hnode : ∀ n ∈ t.nodes, NodeRegistered t.defines n :=
    fun n hn => h.nodes n (List.mem_append_left _ hn)
  cases hshows with
  | node hn hc => exact Registered.binds (hnode _ hn).own hc hmem
  | input hn hm hc => exact Registered.binds ((hnode _ hn).inputs _ hm) hc hmem
  | output hn hm hc => exact Registered.binds ((hnode _ hn).outputs _ hm) hc hmem
  | stored hv hc =>
    obtain ⟨other, hother, hb⟩ := (h.arena _ _ hv).condition _ hc
    rw [List.mem_singleton.mp hmem, guard_inj hother]
    exact hb
  | length hv hs =>
    rw [List.mem_singleton.mp hmem]
    exact (h.arena _ _ hv).length _ hs

end

/-! ## Switching guards on -/

def Technique.CanSwitchOn (t : Technique) (define : String) : Prop :=
  (∃ b ∈ t.defines.bindings, b.define = define) ∨ define ∈ t.presets

/-- `Defines` lines bind every parameter that the define stands for, and bind it to others. -/
structure Draft.Displaces (draft : Draft) (defines : DefineTable) (define : String) : Prop where
  unset : ¬ draft.technique.CanSwitchOn define
  bound : draft.technique.defines.Binds define
  others : ∀ b ∈ defines.bindings, defineOf b.param = define →
    b ∈ draft.technique.defines.bindings

theorem canSwitchOn_iff_not_displaced {draft : Draft} {t : Technique} {library : List Definition}
    (h : Progress.Registered draft.technique ⟨t, library, none⟩) {define : String}
    (hg : t.HasGuard define) : t.CanSwitchOn define ↔ ¬ draft.Displaces t.defines define := by
  constructor
  · rintro (⟨b, hb, rfl⟩ | hpreset) hd
    · rcases h.registers.defines.own b hb with hdraft | hown
      · exact hd.unset (Or.inl ⟨b, hdraft, rfl⟩)
      · exact hd.unset (Or.inl ⟨b, hd.others b hb hown.symm, rfl⟩)
    · rw [h.registers.presets] at hpreset
      exact hd.unset (Or.inr hpreset)
  · intro hd
    by_contra hoff
    refine hd ⟨?_, ?_, ?_⟩
    · rintro (⟨b, hb, hdefine⟩ | hpreset)
      · exact hoff (Or.inl ⟨b, h.registers.defines.keeps b hb, hdefine⟩)
      · exact hoff (Or.inr (by rw [h.registers.presets]; exact hpreset))
    · -- the parameter of the guard is bound, and not by building, or its own define would be set
      obtain ⟨b, hb, hparam⟩ := binds_of_hasGuard h hg
      rcases h.registers.defines.own b hb with hdraft | hown
      · exact ⟨b, hdraft, hparam⟩
      · exact absurd (Or.inl ⟨b, hb, hown.trans hparam⟩) hoff
    · intro b hb hparam
      rcases h.registers.defines.own b hb with hdraft | hown
      · exact hdraft
      · exact absurd (Or.inl ⟨b, hb, hown.trans hparam⟩) hoff

/-- `Defines` lines that bind parameters to their own defines displace nothing. -/
theorem not_displaced_of_own {draft : Draft} {defines : DefineTable} {define : String}
    (h : ∀ b ∈ draft.technique.defines.bindings, b.define = defineOf b.param) :
    ¬ draft.Displaces defines define := by
  intro hd
  obtain ⟨b, hb, hparam⟩ := hd.bound
  exact hd.unset (Or.inl ⟨b, hb, (h b hb).trans hparam⟩)

def GuardsSwitch (context : Context) (statement : Statement) (t : Technique) : Prop :=
  ∃ draft t₀ library, Drafts context statement draft ∧
    Reach context draft.progress ⟨t₀, library, none⟩ ∧ t = t₀.finish ∧ t.ComposedOf t₀ ∧
    ∀ define, t₀.HasGuard define → (t.CanSwitchOn define ↔ ¬ draft.Displaces t.defines define)

/-- Whatever technique is read, a guard of it can be switched on unless it is displaced. -/
theorem guards_switch_of_readTechnique {context : Context} {statement : Statement}
    {warnings warnings' : List Warning} {t : Technique}
    (h : readTechnique context statement warnings = (.ok (some t), warnings')) :
    GuardsSwitch context statement t := by
  obtain ⟨draft, t₀, library, hdraft, hreach, rfl⟩ := built_of_readTechnique h
  have hregistered := registered_of_reach hdraft hreach
  refine ⟨draft, t₀, library, hdraft, hreach, rfl, composedOf_finish hregistered, ?_⟩
  intro define hg
  exact canSwitchOn_iff_not_displaced hregistered hg

theorem guards_switch_lit :
    ∃ t warnings, readTechnique Lit.context Lit.technique [] = (.ok (some t), warnings) ∧
      t.nodes.map (·.condition) = [none, some "defined(USELIGHT)"] ∧
      GuardsSwitch Lit.context Lit.technique t := by
  obtain ⟨t, warnings, h, hread⟩ := Lit.readTechnique_technique
  exact ⟨t, warnings, h, hread.conditions, guards_switch_of_readTechnique h⟩

/-- A technique with one node, under a condition on a parameter that a `Defines` line binds another
define to. -/
def Lit.displacing : Statement :=
  statement "Technique" [
    statement "Defines" [line "LIGHTS : UseLight"],
    statement "ShaderNodesDefinitions" [
      statement "ShaderNodeDefinition Glow" [
        line "Type: Fragment", statement "Output" [line "vec4 glow"]]],
    statement "FragmentShaderNodes" [
      statement "ShaderNode Glowing" [
        line "Definition : Glow", line "Condition : UseLight",
        statement "OutputMappings" [line "Global.color = glow"]]]]

/-- The line is enough: the guard of the node is for the define of no binding. -/
theorem guard_displaced :
    ∃ t warnings, readTechnique Lit.context Lit.displacing [] = (.ok (some t), warnings) ∧
      t.HasGuard "USELIGHT" ∧ ¬ t.CanSwitchOn "USELIGHT" := by
  have hread : (readTechnique? Lit.context Lit.displacing).map
      (fun t => (t.nodes.map (·.condition), t.defines.bindings.map (·.define), t.presets)) =
        some ([some "defined(USELIGHT)"], ["LIGHTS"], []) := by
    decide +kernel
  have htext : normalize "UseLight" = ⟨["UseLight"], "defined(USELIGHT)"⟩ := by decide +kernel
  obtain ⟨t, warnings, h, hread⟩ := readTechnique_of_readTechnique? hread
  obtain ⟨hconditions, hdefines, hpresets⟩ : _ ∧ _ ∧ _ := by simpa only [Prod.mk.injEq] using hread
  refine ⟨t, warnings, h, ?_, ?_⟩
  · have hmem : some "defined(USELIGHT)" ∈ t.nodes.map (·.condition) := by
      rw [hconditions]
      exact List.mem_singleton_self _
    obtain ⟨n, hn, hc⟩ := List.mem_map.mp hmem
    have hsource : n.condition = some (normalize "UseLight").text := by rw [hc, htext]
    refine ⟨_, _, .node hn hsource, ?_⟩
    rw [htext]
    decide +kernel
  · rintro (⟨b, hb, hdefine⟩ | hpreset)
    · have hmem : b.define ∈ t.defines.bindings.map (·.define) := List.mem_map_of_mem hb
      rw [hdefines, hdefine] at hmem
      exact absurd hmem (by decide)
    · rw [hpresets] at hpreset
      exact absurd hpreset List.not_mem_nil

end ShaderGraph
