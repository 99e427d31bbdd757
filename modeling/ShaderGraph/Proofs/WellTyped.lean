/-
  ShaderGraph.Proofs.WellTyped — every mapping of a technique is well typed.

  A mapping is checked once, when it is read, against variables that other mappings share
  and later steps change. What the check looks at is kept (`check_congr`, `Arena.Keeps`),
  so it stays true of the arena as it grows and of the finished one.

  - `InputTyped`, `OutputTyped`: what is known of a mapping and the arena.
  - `Typed.step`: no step makes it wrong.
  - `wellTyped_of_readTechnique`: all mappings of a technique that is read are typed, and
    all its handles are good.
-/

import ShaderGraph.Proofs.Growth

namespace ShaderGraph

open Block (Statement)
open Resolution (globalVariable)

/-! ## What the check looks at -/

namespace Typing

theorem check_congr {left left' right right' : Variable} (hl : left'.core = left.core)
    (hr : right'.core = right.core) (ls rs : String) :
    check left' ls right' rs = check left ls right rs := by
  obtain ⟨hlt, -, -, hlm, -⟩ := Variable.core_eq_iff.mp hl
  obtain ⟨hrt, -, -, hrm, -⟩ := Variable.core_eq_iff.mp hr
  unfold check typesFit lengthsFit Variable.swizzled Variable.sized
  rw [hlt, hlm, hrt, hrm]

end Typing

/-! ## Mappings -/

/-- The input mapping of a node of this name and definition: its left side is an input of the
definition, and its right side, if it is a variable, fits. -/
structure InputTyped (a : Arena) (name : String) (d : Definition) (m : Mapping) : Prop where
  left : ∃ v input, a.get? m.left = some v ∧ d.input? v.name = some input ∧
    v.core = (input.ofNode name).core
  right : ∀ id, m.source = .var id → ∃ w, a.get? id = some w ∧
    Typing.check (a.read m.left) m.leftSwizzle w m.rightSwizzle = .ok ()

structure OutputTyped (a : Arena) (name : String) (d : Definition) (m : Mapping) : Prop where
  left : ∃ v target, a.get? m.left = some v ∧ v.core = (globalVariable target).core
  right : ∃ id w output, m.source = .var id ∧ a.get? id = some w ∧
    d.output? w.name = some output ∧ w.core = (output.ofNode name).core ∧
    Typing.check (a.read m.left) m.leftSwizzle w m.rightSwizzle = .ok ()

section

variable {a b : Arena} {name : String} {d : Definition} {m : Mapping}

theorem Arena.Keeps.read (hk : a.Keeps b) {id : VarId} {v : Variable} (hv : a.get? id = some v) :
    (b.read id).core = (a.read id).core := by
  obtain ⟨w, hw, hcore⟩ := hk id v hv
  rw [Arena.read_of_get? hw, Arena.read_of_get? hv, hcore]

theorem InputTyped.keep (h : InputTyped a name d m) (hk : a.Keeps b) : InputTyped b name d m := by
  obtain ⟨v, input, hv, hi, hcore⟩ := h.left
  obtain ⟨v', hv', hcore'⟩ := hk m.left v hv
  have hname := Variable.name_of_core hcore'
  refine ⟨⟨v', input, hv', hname ▸ hi, hcore'.trans hcore⟩, fun id hs => ?_⟩
  obtain ⟨w, hw, hcheck⟩ := h.right id hs
  obtain ⟨w', hw', hw'w⟩ := hk id w hw
  exact ⟨w', hw', by rw [Typing.check_congr (hk.read hv) hw'w, hcheck]⟩

theorem OutputTyped.keep (h : OutputTyped a name d m) (hk : a.Keeps b) :
    OutputTyped b name d m := by
  obtain ⟨v, target, hv, hcore⟩ := h.left
  obtain ⟨v', hv', hcore'⟩ := hk m.left v hv
  obtain ⟨id, w, output, hs, hw, ho, hwcore, hcheck⟩ := h.right
  obtain ⟨w', hw', hw'w⟩ := hk id w hw
  have hname := Variable.name_of_core hw'w
  refine ⟨⟨v', target, hv', hcore'.trans hcore⟩, id, w', output, hs, hw', hname ▸ ho,
    hw'w.trans hwcore, ?_⟩
  rw [Typing.check_congr (hk.read hv) hw'w, hcheck]

/-- A mapping is typed under any condition. -/
theorem InputTyped.withCondition (h : InputTyped a name d m) (c : Option String) :
    InputTyped a name d (m.withCondition c) := ⟨h.left, h.right⟩

structure NodeTyped (a : Arena) (n : Node) : Prop where
  inputs : ∀ m ∈ n.inputs, InputTyped a n.name n.definition m
  outputs : ∀ m ∈ n.outputs, OutputTyped a n.name n.definition m

theorem NodeTyped.keep {n : Node} (h : NodeTyped a n) (hk : a.Keeps b) : NodeTyped b n :=
  ⟨fun m hm => (h.inputs m hm).keep hk, fun m hm => (h.outputs m hm).keep hk⟩

end

/-! ## Reading a mapping -/

section

variable {catalog : Catalog} {node : Node} {t t' : Technique} {m : Mapping}

theorem Stored.readsCondition {condition : Option String} (h : Stored t)
    (hc : ReadsCondition catalog t condition t') : Stored t' ∧ t.arena.Keeps t'.arena := by
  obtain ⟨defines, rfl⟩ := hc.frame
  exact ⟨h.keep (Arena.Keeps.refl _) rfl rfl, Arena.Keeps.refl _⟩

theorem Stored.withUnused (h : Stored t) (unusedNodes : NameSet) :
    Stored (t.withInterface { t.interface with unusedNodes }) :=
  ⟨h.interface, h.declarations, h.globals⟩

theorem name_of_input? {d : Definition} {name : String} {v : Variable}
    (h : d.input? name = some v) : v.name = name := by
  have := List.find?_some h
  simpa using this

theorem name_of_output? {d : Definition} {name : String} {v : Variable}
    (h : d.output? name = some v) : v.name = name := by
  have := List.find?_some h
  simpa using this

/-- A new variable with all that is kept of an input is a left side for it. -/
theorem inputTyped_left {d : Definition} {target : String} {input left : Variable}
    (hi : d.input? target = some input) (hcore : left.core = (input.ofNode node.name).core)
    (a : Arena) : ∃ v i, (a.add left).get? a.nextId = some v ∧ d.input? v.name = some i ∧
      v.core = (i.ofNode node.name).core := by
  refine ⟨left, input, Arena.get?_add_nextId a left, ?_, hcore⟩
  have hname : left.name = (input.ofNode node.name).name := Variable.name_of_core hcore
  rw [hname]
  show d.input? input.name = some input
  rw [name_of_input? hi]
  exact hi

theorem Stored.readsInput (h : Stored t) (hi : ReadsInput catalog node t m t') :
    Stored t' ∧ t.arena.Keeps t'.arena ∧ InputTyped t'.arena node.name node.definition m := by
  cases hi with
  | @code _ _ _ input _ t₁ hin hc =>
    obtain ⟨h₁, hk⟩ := h.readsCondition hc
    refine ⟨h₁.addVariable _, hk.trans (Arena.keeps_add _ _), inputTyped_left hin rfl _, ?_⟩
    intro id hs
    cases hs
  | @reference _ swizzle input left _ reference id t₁ t₂ hin hc _ hr hcheck =>
    obtain ⟨h₁, hk₁⟩ := h.readsCondition hc
    obtain ⟨h₂, hk₂, hlt⟩ := h₁.resolves hr
    obtain ⟨unused, hu⟩ := markProducer_eq t₂ reference
    rw [hu]
    refine ⟨(h₂.withUnused unused).addVariable left, ?_, ?_⟩
    · exact (hk₁.trans hk₂).trans (Arena.keeps_add _ _)
    · refine ⟨inputTyped_left hin hr.left_core _, fun id' hs => ?_⟩
      cases hs
      obtain ⟨w, hw⟩ := Arena.exists_get? hlt
      refine ⟨w, Arena.get?_add_of_get? hw left, ?_⟩
      show Typing.check ((t₂.arena.add left).read t₂.arena.nextId) swizzle w _ = _
      rw [Arena.read_of_get? (Arena.get?_add_nextId _ _), ← Arena.read_of_get? hw]
      exact hcheck

theorem Stored.readsOutput (h : Stored t) (ho : ReadsOutput catalog node t m t') :
    Stored t' ∧ t.arena.Keeps t'.arena ∧ OutputTyped t'.arena node.name node.definition m := by
  cases ho with
  | @mk name target swizzle rightSwizzle output _ id t₁ t₂ hout _ hcheck hc hg =>
    obtain ⟨h₁, hk₁⟩ := h.readsCondition hc
    obtain ⟨h₂, hk₂, v, hv, hcore⟩ := h₁.storesGlobal hg
    refine ⟨(h₂.withUnused _).addVariable _, (hk₁.trans hk₂).trans (Arena.keeps_add _ _), ?_, ?_⟩
    · exact ⟨v, target, Arena.get?_add_of_get? hv _, hcore⟩
    · refine ⟨t₂.arena.nextId, output.ofNode node.name, output, rfl, Arena.get?_add_nextId _ _,
        ?_, rfl, ?_⟩
      · show node.definition.output? output.name = some output
        rw [name_of_output? hout]
        exact hout
      · show Typing.check ((t₂.arena.add _).read id) _ _ _ = _
        rw [Arena.read_of_get? (Arena.get?_add_of_get? hv _), Typing.check_congr hcore rfl]
        exact hcheck

end

/-! ## Every step -/

structure Typed (p : Progress) : Prop where
  stored : Stored p.technique
  nodes : ∀ n ∈ p.nodes, NodeTyped p.technique.arena n

theorem typed_blank {draft : Draft} (h : draft.technique.Blank) : Typed draft.progress := by
  refine ⟨⟨?_, ?_, ?_⟩, ?_⟩
  · show ∀ id ∈ draft.technique.interface.ids, _
    rw [h.interface]
    exact fun id hid => absurd hid List.not_mem_nil
  · show ∀ d ∈ draft.technique.registry.entries, _
    rw [h.registry]
    exact fun d hd => absurd hd List.not_mem_nil
  · show ∀ id ∈ draft.technique.interface.globals, _
    rw [h.interface]
    exact fun id hid => absurd hid List.not_mem_nil
  · simp [Progress.nodes, Draft.progress, h.nodes]

/-- A step that keeps the variables has to be judged by the open node alone. -/
theorem Typed.of_current {t t' : Technique} {library library' : List Definition}
    {current : Option Node} {node : Node} (h : Typed ⟨t, library, current⟩)
    (hstored : Stored t') (hk : t.arena.Keeps t'.arena) (hn : t'.nodes = t.nodes)
    (hnode : NodeTyped t'.arena node) : Typed ⟨t', library', some node⟩ := by
  refine ⟨hstored, fun n hmem => ?_⟩
  rcases mem_progress_nodes.mp hmem with hmem | rfl
  · rw [hn] at hmem
    exact (h.nodes n (List.mem_append_left _ hmem)).keep hk
  · exact hnode

theorem Typed.step {context : Context} {p q : Progress} (h : Typed p)
    (hs : Step context p q) : Typed q := by
  cases hs with
  | @opened t _ _ name _ definition _ _ =>
    have hnode : ∀ a, NodeTyped a ⟨name, definition, none, [], []⟩ := fun a =>
      ⟨fun m hm => absurd hm List.not_mem_nil, fun m hm => absurd hm List.not_mem_nil⟩
    obtain ⟨unused, hu⟩ := markOpened_eq t name definition
    rw [hu]
    exact h.of_current (h.stored.withUnused unused) (Arena.Keeps.refl _) rfl (hnode _)
  | @condition t t' _ node _ hc =>
    obtain ⟨hstored, hk⟩ := h.stored.readsCondition hc
    obtain ⟨defines, rfl⟩ := hc.frame
    have hnode := (h.nodes node (mem_progress_nodes.mpr (Or.inr rfl))).keep hk
    exact h.of_current hstored hk rfl ⟨hnode.inputs, hnode.outputs⟩
  | @input t t' _ node m hi =>
    obtain ⟨hstored, hk, hm⟩ := h.stored.readsInput hi
    have hnode := (h.nodes node (mem_progress_nodes.mpr (Or.inr rfl))).keep hk
    have hinputs := List.forall_mem_append.mpr ⟨hnode.inputs, List.forall_mem_singleton.mpr hm⟩
    exact h.of_current hstored hk hi.nodes ⟨hinputs, hnode.outputs⟩
  | @output t t' _ node m ho =>
    obtain ⟨hstored, hk, hm⟩ := h.stored.readsOutput ho
    have hnode := (h.nodes node (mem_progress_nodes.mpr (Or.inr rfl))).keep hk
    have houtputs := List.forall_mem_append.mpr ⟨hnode.outputs, List.forall_mem_singleton.mpr hm⟩
    exact h.of_current hstored hk ho.nodes ⟨hnode.inputs, houtputs⟩
  | @closed t library node =>
    refine ⟨h.stored.keep (Arena.Keeps.refl _) rfl rfl, fun n hn => h.nodes n ?_⟩
    simpa [Progress.nodes] using hn

theorem typed_of_reach {context : Context} {draft : Draft} (hd : draft.technique.Blank)
    {p : Progress} (h : Reach context draft.progress p) : Typed p := by
  induction h with
  | start => exact typed_blank hd
  | step _ hs ih => exact ih.step hs

/-! ## Finished techniques -/

/-- Every mapping of the technique is typed, and every handle it holds is one of its arena. -/
structure Technique.WellTyped (t : Technique) : Prop where
  nodes : ∀ n ∈ t.nodes, NodeTyped t.arena n
  interface : ∀ id ∈ t.interface.ids, id.index < t.arena.size
  declarations : ∀ d ∈ t.registry.entries, d.id.index < t.arena.size

/-- Other conditions on its input mappings leave a node typed. -/
theorem NodeTyped.of_unconditional {a : Arena} {n n' : Node} (h : NodeTyped a n)
    (he : n'.unconditional = n.unconditional) : NodeTyped a n' := by
  obtain ⟨hname, hdefinition, -, houtputs⟩ := Node.eq_of_unconditional he
  refine ⟨fun m hm => ?_, fun m hm => ?_⟩
  · obtain ⟨c, hc⟩ := Node.exists_of_unconditional he.symm hm
    rw [hname, hdefinition]
    exact (h.inputs _ hc).withCondition m.condition
  · rw [houtputs] at hm
    rw [hname, hdefinition]
    exact h.outputs m hm

/-- Every technique that is read is well typed. -/
theorem wellTyped_of_readTechnique {context : Context} {statement : Statement}
    {warnings warnings' : List Warning} {t : Technique}
    (h : readTechnique context statement warnings = (.ok (some t), warnings')) :
    t.WellTyped := by
  obtain ⟨draft, t₀, library, hdraft, hreach, rfl⟩ := built_of_readTechnique h
  have htyped := typed_of_reach (blank_of_drafts hdraft) hreach
  have hk := t₀.keeps_finish
  refine ⟨fun n' hn' => ?_, ?_, ?_⟩
  · obtain ⟨n, hn, he⟩ := Technique.exists_node_of_finish hn'
    exact ((htyped.nodes n (List.mem_append_left _ hn)).keep hk).of_unconditional he
  · exact fun id hid => hk.lt (htyped.stored.interface id hid)
  · exact fun d hd => hk.lt (htyped.stored.declarations d hd)

theorem wellTyped_lit :
    ∃ t warnings, readTechnique Lit.context Lit.technique [] = (.ok (some t), warnings) ∧
      t.nodes.map (·.inputs.length) = [2, 3] ∧ t.WellTyped := by
  obtain ⟨t, warnings, h, hread⟩ := Lit.readTechnique_technique
  exact ⟨t, warnings, h, hread.inputs, wellTyped_of_readTechnique h⟩

end ShaderGraph
