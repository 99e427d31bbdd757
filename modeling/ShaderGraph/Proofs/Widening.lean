/-
  ShaderGraph.Proofs.Widening — uniforms that are read by inputs which are varyings.

  Uniforms are settled by the conditions that mappings are read with. Only then the mapping of a
  vertex input that is a varying is widened to the condition of the varying, and nothing goes
  back to the uniform that the mapping reads. So the uniform keeps the narrower condition, and is
  missing where the varying alone makes the mapping needed.

  Proved, where every condition is the text of a formula and one mapping reads the uniform:
  - `uniform_condition`: its condition is that of the use by this mapping, as it was read.
  - `holds_inherited_iff`: where a widened mapping is needed.
  - `uniform_available_iff_of_readTechnique`: the uniform is there wherever it is needed if and only
    if it is there wherever the node and the varying are that its mapping was widened to.
  - `uniform_missing`: it is not always.
-/

import ShaderGraph.Proofs.Aliases
import ShaderGraph.Proofs.Availability
import ShaderGraph.Proofs.Consumers

namespace ShaderGraph

open Block (Statement)
open Condition (Formal IsTrue Holds WellFormed Formula)
open Activation (together readingCondition useCondition declarationCondition consumersOf inherited)

/-! ## One reader -/

section

variable {nodes : List Node} {n : Node} {m : Mapping} {d : Declaration} {id : VarId}

/-- Of all nodes and mappings, one mapping of one node reads the variable. -/
structure ReadBy (nodes : List Node) (id : VarId) (n : Node) (m : Mapping) : Prop where
  node : nodes.filter (·.reads id) = [n]
  mapping : n.inputs.filter (·.reads id) = [m]

theorem readBy_of_length (h : ((nodes.flatMap (·.inputs)).filter (·.reads id)).length = 1) :
    ∃ n m, ReadBy nodes id n m := by
  have reads_iff : ∀ n : Node, n.reads id = true ↔ (n.inputs.filter (·.reads id)) ≠ [] := by
    intro n
    rw [ne_eq, List.filter_eq_nil_iff, Node.reads, List.any_eq_true]
    push Not
    rfl
  induction nodes with
  | nil => cases h
  | cons n ns ih =>
    rw [List.flatMap_cons, List.filter_append, List.length_append] at h
    by_cases hn : n.reads id = true
    · have hpos : 0 < (n.inputs.filter (·.reads id)).length :=
        List.length_pos_iff.mpr ((reads_iff n).mp hn)
      have hone : (n.inputs.filter (·.reads id)).length = 1 := by omega
      have hnone : (ns.flatMap (·.inputs)).filter (·.reads id) = [] :=
        List.length_eq_zero_iff.mp (by omega)
      obtain ⟨m, hm⟩ := List.length_eq_one_iff.mp hone
      refine ⟨n, m, ?_, hm⟩
      rw [List.filter_cons, if_pos hn, List.cons.injEq]
      refine ⟨rfl, List.filter_eq_nil_iff.mpr fun n' hn' hreads => ?_⟩
      obtain ⟨m', hm', hr⟩ := List.any_eq_true.mp hreads
      exact List.filter_eq_nil_iff.mp hnone m' (List.mem_flatMap.mpr ⟨n', hn', hm'⟩) hr
    · have hnil : n.inputs.filter (·.reads id) = [] := by
        by_contra hne
        exact hn ((reads_iff n).mpr hne)
      rw [hnil, List.length_nil, Nat.zero_add] at h
      obtain ⟨n', m', hnode, hmapping⟩ := ih h
      refine ⟨n', m', ?_, hmapping⟩
      rw [List.filter_cons, if_neg hn]
      exact hnode

theorem ReadBy.mem (h : ReadBy nodes id n m) : n ∈ nodes ∧ m ∈ n.inputs ∧ m.source = .var id := by
  have hn : n ∈ nodes.filter (·.reads id) := h.node ▸ List.mem_singleton_self n
  have hm : m ∈ n.inputs.filter (·.reads id) := h.mapping ▸ List.mem_singleton_self m
  refine ⟨(List.mem_filter.mp hn).1, (List.mem_filter.mp hm).1, ?_⟩
  simpa [Mapping.reads] using (List.mem_filter.mp hm).2

theorem ReadBy.eq (h : ReadBy nodes id n m) {n' : Node} {m' : Mapping} (hn : n' ∈ nodes)
    (hm : m' ∈ n'.inputs) (hs : m'.source = .var id) : n' = n ∧ m' = m := by
  have hr : m'.reads id = true := by simpa [Mapping.reads] using hs
  have hmem : n' ∈ nodes.filter (·.reads id) :=
    List.mem_filter.mpr ⟨hn, List.any_eq_true.mpr ⟨m', hm, hr⟩⟩
  rw [h.node, List.mem_singleton] at hmem
  subst hmem
  have hmem' : m' ∈ n'.inputs.filter (·.reads id) := List.mem_filter.mpr ⟨hm, hr⟩
  rw [h.mapping, List.mem_singleton] at hmem'
  exact ⟨rfl, hmem'⟩

/-- A declaration with one reader has one consumer. -/
theorem ReadBy.consumersOf (h : ReadBy nodes d.id n m) (hd : d.consumers = readers nodes d.id)
    (hnames : (nodes.map (·.name)).Nodup) : consumersOf d nodes = [n] := by
  have hfind := find?_name_of_nodup hnames h.mem.1
  rw [Activation.consumersOf, hd, readers, h.node]
  simp [hfind]

theorem together_singleton (first : String → String) (more : String → String → String)
    (c : Option String) : together first more [c] = c.map first := by
  cases c <;> rfl

theorem ReadBy.readingCondition (h : ReadBy nodes id n m) :
    readingCondition n id = m.condition.map fun c => s!"({c})" := by
  rw [Activation.readingCondition, h.mapping]
  exact together_singleton _ _ _

/-- The declaration is needed where its one reader uses it. -/
theorem ReadBy.declarationCondition (h : ReadBy nodes d.id n m)
    (hd : d.consumers = readers nodes d.id) (hnames : (nodes.map (·.name)).Nodup) :
    declarationCondition d nodes = useCondition n d.id := by
  have huses : Activation.uses d nodes = [useCondition n d.id] := by
    rw [Activation.uses, h.consumersOf hd hnames, List.map_singleton]
  rw [Activation.declarationCondition_eq, huses, together_singleton]
  exact Option.map_id_apply

end

/-! ## Widened mappings -/

section

variable {defines : String → Bool} {own varying : Option String}

theorem isTrue_widened_iff {c d : String} (h : Formal s!"{c} || ({d})") (hd : Formal d) :
    IsTrue defines s!"{c} || ({d})" ↔ IsTrue defines c ∨ IsTrue defines d := by
  obtain ⟨f, hf⟩ := h
  obtain ⟨g, hg⟩ := hd
  obtain ⟨e, he, rfl⟩ := Condition.Formula.exists_read?_of_widened hf hg
  rw [Condition.isTrue_iff_eval hf, Condition.isTrue_iff_eval he, Condition.isTrue_iff_eval hg,
    Formula.eval, Bool.or_eq_true]

/-- A widened mapping is needed where the varying is, and where it was before. Its own
condition may be no formula as long as the whole is one. -/
theorem holds_inherited_iff (h : WellFormed (inherited own varying)) (hv : WellFormed varying) :
    Holds defines (inherited own varying) ↔
      Holds defines varying ∨ ∃ text, own = some text ∧ IsTrue defines s!"({text})" := by
  cases own with
  | none => simp [inherited]
  | some own =>
    cases varying with
    | none => exact iff_of_true trivial (Or.inl trivial)
    | some varying =>
      obtain ⟨c, hc⟩ : ∃ c, c = s!"({own})" := ⟨_, rfl⟩
      have ht : s!"({own}) || ({varying})" = s!"{c} || ({varying})" := by
        simp [hc, toString, ← String.toList_inj]
      have hformal : Formal s!"({own}) || ({varying})" := h _ rfl
      rw [ht] at hformal
      show IsTrue defines s!"({own}) || ({varying})" ↔ IsTrue defines varying ∨ _
      rw [ht, isTrue_widened_iff hformal (hv varying rfl), or_comm, hc]
      simp

end

/-! ## Finished techniques -/

namespace Technique

def conditions (t : Technique) : List (Option String) :=
  t.nodes.map (·.condition) ++ t.inputs.map (·.condition) ++ t.arena.slots.map (·.condition)

def Regular (t : Technique) : Prop := ∀ c ∈ t.conditions, WellFormed c

structure Reading (t : Technique) (id : VarId) (n : Node) (m : Mapping) : Prop where
  node : n ∈ t.nodes
  mapping : m ∈ n.inputs
  source : m.source = .var id

section

variable {t : Technique} {R W : VarId → Prop} {defines : String → Bool} {id : VarId}
  {d e : Declaration} {n n' : Node} {m m' : Mapping}

theorem Regular.mapping (h : t.Regular) (hr : t.Reading id n m) : WellFormed m.condition := by
  refine h _ (List.mem_append_left _ (List.mem_append_right _ ?_))
  exact List.mem_map_of_mem (List.mem_flatMap.mpr ⟨n, hr.node, hr.mapping⟩)

theorem Regular.read (h : t.Regular) (id : VarId) : WellFormed (t.arena.read id).condition := by
  intro text ht
  cases hv : t.arena.get? id with
  | none =>
    rw [Arena.read, hv] at ht
    cases ht
  | some v =>
    rw [Arena.read_of_get? hv] at ht
    have hmem : v ∈ t.arena.slots := List.mem_of_getElem? hv
    exact h _ (List.mem_append_right _ (List.mem_map_of_mem hmem)) text ht

theorem finish_inputs (t : Technique) :
    t.finish.inputs.map (·.withCondition none) = t.inputs.map (·.withCondition none) := by
  have inputs : ∀ ns : List Node, (ns.flatMap (·.inputs)).map (·.withCondition none) =
      (ns.map Node.wires).flatMap (·.inputs) := by
    intro ns
    rw [List.map_flatMap, List.flatMap_map]
    rfl
  rw [Technique.inputs, inputs, t.finish_wires, ← inputs, Technique.inputs]

/-- How many mappings read a variable does not depend on conditions. -/
theorem length_reads_finish (t : Technique) (id : VarId) :
    (t.finish.inputs.filter (·.reads id)).length = (t.inputs.filter (·.reads id)).length := by
  have reads : ∀ ms : List Mapping, (ms.filter (·.reads id)).length =
      ((ms.map (·.withCondition none)).filter (·.reads id)).length := by
    intro ms
    rw [List.filter_map, List.length_map]
    rfl
  rw [reads, t.finish_inputs, ← reads]

/-- The one reader of a finished technique is the one that was built, with its mapping settled. -/
theorem reading_finish_iff (h : ReadBy t.nodes id n m) (hexact : Exact t R W) :
    t.finish.Reading id n' m' ↔ n' = t.settledNode n ∧ m' = t.settledMapping n.stage m := by
  have source : ∀ stage m, (t.settledMapping stage m).source = m.source :=
    fun stage m => (hexact.settles stage m).source_eq
  constructor
  · intro hr
    have hn := hr.node
    rw [t.finish_nodes_eq] at hn
    obtain ⟨n₀, hn₀, rfl⟩ := List.mem_map.mp hn
    obtain ⟨m₀, hm₀, rfl⟩ := List.mem_map.mp hr.mapping
    obtain ⟨rfl, rfl⟩ := h.eq hn₀ hm₀ ((source _ _).symm.trans hr.source)
    exact ⟨rfl, rfl⟩
  · rintro ⟨rfl, rfl⟩
    obtain ⟨hn, hm, hs⟩ := h.mem
    refine ⟨?_, List.mem_map_of_mem hm, (source _ _).trans hs⟩
    rw [t.finish_nodes_eq]
    exact List.mem_map_of_mem hn

/-- A uniform with one reader gets the condition of that use. -/
theorem uniform_condition (h : ReadBy t.nodes d.id n m) (hexact : Exact t R W)
    (hconsumed : Consumed t.registry t.nodes) (hnames : (t.nodes.map (·.name)).Nodup)
    (hd : d ∈ t.registry.entries) (hk : d.key.isUniform = true)
    (hs : (t.finish.arena.read d.id).sizeDefine = none) :
    (t.finish.arena.read d.id).condition = useCondition n d.id := by
  have hattribute := DeclKey.isAttribute_of_isUniform hk
  obtain ⟨v, hv, -⟩ := hexact.names d hd
  obtain ⟨c, hc⟩ := Technique.finish_get? hv
  rw [Arena.read_of_get? hc] at hs
  have hsize : v.sizeDefine = none := hs
  have hsettled := Activation.compute_condition hexact.sound t.nodes hd hattribute
  rw [Activation.settledCondition, Arena.read_of_get? hv, hsize,
    h.declarationCondition (hconsumed d hd) hnames] at hsettled
  exact hsettled.trans (Condition.merge_none_right _ _)

/-- Where the node is and the mapping is needed, the uniform is, but for where the mapping was
widened to. -/
theorem holds_useCondition_or (h : ReadBy t.nodes id n m) (hr : t.finish.Regular)
    (hsettles : Settles t.finish n.stage m m')
    (hwell : WellFormed m'.condition) (hn : Holds defines n.condition)
    (hm : Holds defines m'.condition) :
    Holds defines (useCondition n id) ∨
      n.stage = .vertex ∧ ∃ e, t.finish.Aliases m.left e ∧
        Holds defines (t.finish.arena.read e.id).condition := by
  have hreading := h.readingCondition
  have hown : ∀ text, m.condition = some text → IsTrue defines s!"({text})" →
      Holds defines (useCondition n id) := by
    intro text ht htrue
    rw [ht] at hreading
    refine Activation.holds_useCondition hn ?_
    rw [hreading]
    exact htrue
  cases hc : m.condition with
  | none =>
    rw [hc] at hreading
    refine Or.inl (Activation.holds_useCondition hn ?_)
    rw [hreading]
    trivial
  | some text =>
    cases hsettles with
    | kept _ =>
      rw [hc] at hm
      exact Or.inl (hown text hc ((Condition.isTrue_wrapped (hwell text hc)).mpr hm))
    | @widened e hs ha =>
      rcases (holds_inherited_iff hwell (hr.read e.id)).mp hm with hvarying | ⟨text, ht, htrue⟩
      · exact Or.inr ⟨hs, e, ha, hvarying⟩
      · exact Or.inl (hown text ht htrue)

/-- A mapping that was widened to a varying is needed where the varying is. -/
theorem holds_of_aliases (hexact : Exact t R W) (hr : t.finish.Regular)
    (hsettles : Settles t.finish n.stage m m') (hwell : WellFormed m'.condition)
    (hs : n.stage = .vertex) (ha : t.finish.Aliases m.left e)
    (he : Holds defines (t.finish.arena.read e.id).condition) : Holds defines m'.condition := by
  cases hsettles with
  | kept hnone => exact absurd ha (hnone hs e)
  | @widened e' _ ha' =>
    obtain rfl := hexact.finish.eq_of_aliases ha ha'
    exact (holds_inherited_iff hwell (hr.read e.id)).mpr (Or.inl he)

/-- A uniform with one reader is there wherever it is needed exactly if it is where its reader was
widened to. -/
theorem uniform_available_iff (hexact : Exact t R W) (hconsumed : Consumed t.registry t.nodes)
    (hnames : (t.nodes.map (·.name)).Nodup) (hr : t.finish.Regular)
    (hd : d ∈ t.registry.entries) (hk : d.key.isUniform = true)
    (hs : (t.finish.arena.read d.id).sizeDefine = none)
    (honce : (t.finish.inputs.filter (·.reads d.id)).length = 1) (defines : String → Bool) :
    (∀ n m, t.finish.Reading d.id n m → Holds defines n.condition → Holds defines m.condition →
      Holds defines (t.finish.arena.read d.id).condition) ↔
    ∀ n m e, t.finish.Reading d.id n m → n.stage = .vertex → t.finish.Aliases m.left e →
      Holds defines n.condition → Holds defines (t.finish.arena.read e.id).condition →
      Holds defines (t.finish.arena.read d.id).condition := by
  rw [t.length_reads_finish] at honce
  obtain ⟨n, m, h⟩ := readBy_of_length honce
  have hreading : t.finish.Reading d.id (t.settledNode n) (t.settledMapping n.stage m) :=
    (reading_finish_iff h hexact).mpr ⟨rfl, rfl⟩
  have hsettles := hexact.settles n.stage m
  have hleft := hsettles.left_eq
  have hwell := hr.mapping hreading
  -- both sides speak of the one node and the one mapping
  constructor
  · intro havailable n' m' e hread hstage ha hn he
    obtain ⟨rfl, rfl⟩ := (reading_finish_iff h hexact).mp hread
    rw [hleft] at ha
    exact havailable _ _ hread hn (holds_of_aliases hexact hr hsettles hwell hstage ha he)
  · intro hwidened n' m' hread hn hm
    obtain ⟨rfl, rfl⟩ := (reading_finish_iff h hexact).mp hread
    rcases holds_useCondition_or h hr hsettles hwell hn hm with huse | ⟨hstage, e, ha, he⟩
    · rw [uniform_condition h hexact hconsumed hnames hd hk hs]
      exact huse
    · exact hwidened _ _ e hread hstage (hleft.symm ▸ ha) hn he

end

end Technique

/-- In a technique that is read, a uniform that one mapping reads is there wherever it is needed
exactly if it is wherever the node and the varying are that the mapping was widened to. -/
theorem uniform_available_iff_of_readTechnique {context : Context} {statement : Statement}
    {warnings warnings' : List Warning} {t : Technique}
    (h : readTechnique context statement warnings = (.ok (some t), warnings')) (hr : t.Regular)
    {d : Declaration} (hd : d ∈ t.registry.entries) (hk : d.key.isUniform = true)
    (hs : (t.arena.read d.id).sizeDefine = none)
    (honce : (t.inputs.filter (·.reads d.id)).length = 1) (defines : String → Bool) :
    (∀ n m, t.Reading d.id n m → Holds defines n.condition → Holds defines m.condition →
      Holds defines (t.arena.read d.id).condition) ↔
    ∀ n m e, t.Reading d.id n m → n.stage = .vertex → t.Aliases m.left e →
      Holds defines n.condition → Holds defines (t.arena.read e.id).condition →
      Holds defines (t.arena.read d.id).condition := by
  obtain ⟨draft, t₀, library, hdraft, hreach, rfl⟩ := built_of_readTechnique h
  have hblank := blank_of_drafts hdraft
  have hp := coherent_of_reach hblank hreach
  have hconsumed := consumed_of_reach hblank hreach
  have hnames := hp.names
  rw [nodes_between] at hconsumed hnames
  exact Technique.uniform_available_iff hp.exact hconsumed hnames hr hd hk hs honce defines

/-! ## A varying that fills an input -/

namespace Condition

instance (text : String) : Decidable (Formal text) :=
  decidable_of_iff ((Formula.read? text).isSome = true) Option.isSome_iff_exists

instance (condition : Option String) : Decidable (WellFormed condition) :=
  match condition with
  | none => isTrue fun _ h => nomatch h
  | some text => decidable_of_iff (Formal text) (each_some (P := Formal)).symm

end Condition

namespace Lit

/-- A vertex node that passes the color on under a guard, and a fragment node that shows it by the
mapping `base`. -/
def tintedTechnique (base : String) : Statement :=
  statement "Technique" [
    statement "ShaderNodesDefinitions" [
      statement "ShaderNodeDefinition Tint" [
        line "Type: Vertex",
        statement "Input" [line "vec4 tint"],
        statement "Output" [line "vec4 tint"]],
      statement "ShaderNodeDefinition Show" [
        line "Type: Fragment",
        statement "Input" [line "vec4 base"],
        statement "Output" [line "vec4 shown"]]],
    statement "VertexShaderNodes" [
      statement "ShaderNode Tinted" [
        line "Definition : Tint",
        statement "InputMappings" [line "tint = MatParam.Color : UseLight"]]],
    statement "FragmentShaderNodes" [
      statement "ShaderNode Shown" [
        line "Definition : Show",
        statement "InputMappings" [line base],
        statement "OutputMappings" [line "Global.color = shown"]]]]

/-- What is seen of the color and the varying in a technique. -/
structure Settled where
  nodes : List (Option String)
  inputs : List Mapping
  declarations : List Declaration
  slots : List (Option String)
  color : Option String
  colorSize : Option String
  varying : Option String
  deriving DecidableEq

def settled (t : Technique) : Settled where
  nodes := t.nodes.map (·.condition)
  inputs := t.inputs
  declarations := t.registry.entries
  slots := t.arena.slots.map (·.condition)
  color := (t.arena.read ⟨0⟩).condition
  colorSize := (t.arena.read ⟨0⟩).sizeDefine
  varying := (t.arena.read ⟨2⟩).condition

def tinted (mapped shown varying : Option String) : Settled where
  nodes := [none, none]
  inputs := [⟨⟨1⟩, .var ⟨0⟩, "", "", mapped⟩, ⟨⟨3⟩, .var ⟨2⟩, "", "", shown⟩]
  declarations := [
    ⟨.uniform "m_Color", ⟨0⟩, ["Tinted"]⟩, ⟨.varying "Tinted" "tint", ⟨2⟩, ["Shown"]⟩]
  slots := [some "(defined(USELIGHT))", none, varying, none, none, none]
  color := some "(defined(USELIGHT))"
  colorSize := none
  varying

/-- The fragment node shows the color without a guard. -/
theorem readTechnique_tinted :
    ∃ t warnings,
      readTechnique context (tintedTechnique "base = Tinted.tint") [] = (.ok (some t), warnings) ∧
      settled t = tinted none none none :=
  readTechnique_of_readTechnique? (by decide +kernel)

/-- The fragment node shows the color under the guard that it is passed on under. -/
theorem readTechnique_tinted_guarded :
    ∃ t warnings,
      readTechnique context (tintedTechnique "base = Tinted.tint : UseLight") [] =
        (.ok (some t), warnings) ∧
      settled t = tinted (some "(defined(USELIGHT)) || ((defined(USELIGHT)))")
        (some "defined(USELIGHT)") (some "(defined(USELIGHT))") :=
  readTechnique_of_readTechnique? (by decide +kernel)

section

variable {t : Technique} {mapped shown varying : Option String}

theorem regular_of_settled (h : settled t = tinted mapped shown varying) (hm : WellFormed mapped)
    (hs : WellFormed shown) (hv : WellFormed varying) : t.Regular := by
  have hnodes : t.nodes.map (·.condition) = [none, none] := congrArg Settled.nodes h
  have hinputs : t.inputs = _ := congrArg Settled.inputs h
  have hvariables : t.arena.slots.map (·.condition) =
      [some "(defined(USELIGHT))", none, varying, none, none, none] :=
    congrArg Settled.slots h
  have hnone : WellFormed none := Condition.each_none
  have hcolor : WellFormed (some "(defined(USELIGHT))") := by decide
  intro c hc
  rw [Technique.conditions, hnodes, hinputs, hvariables] at hc
  simp only [tinted, List.map_cons, List.map_nil, List.cons_append, List.nil_append, List.mem_cons,
    List.not_mem_nil, or_false] at hc
  rcases hc with rfl | rfl | rfl | rfl | rfl | rfl | rfl | rfl | rfl | rfl <;> assumption

theorem once_of_settled (h : settled t = tinted mapped shown varying) :
    (t.inputs.filter (·.reads ⟨0⟩)).length = 1 := by
  have hinputs : t.inputs = _ := congrArg Settled.inputs h
  rw [hinputs]
  rfl

end

end Lit

/-- Where the color is shown under the guard that it is passed on under, it is there. -/
theorem uniform_available_tinted_guarded :
    ∃ t warnings,
      readTechnique Lit.context (Lit.tintedTechnique "base = Tinted.tint : UseLight") [] =
        (.ok (some t), warnings) ∧
      ∀ defines n m, t.Reading ⟨0⟩ n m → Holds defines n.condition → Holds defines m.condition →
        Holds defines (t.arena.read ⟨0⟩).condition := by
  obtain ⟨t, warnings, h, hread⟩ := Lit.readTechnique_tinted_guarded
  have hregular : t.Regular := Lit.regular_of_settled hread (by decide) (by decide) (by decide)
  have hdeclarations : t.registry.entries = [⟨.uniform "m_Color", ⟨0⟩, ["Tinted"]⟩,
      ⟨.varying "Tinted" "tint", ⟨2⟩, ["Shown"]⟩] := congrArg Lit.Settled.declarations hread
  have hcolor : (t.arena.read ⟨0⟩).condition = _ := congrArg Lit.Settled.color hread
  have hvarying : (t.arena.read ⟨2⟩).condition = _ := congrArg Lit.Settled.varying hread
  have hsize : (t.arena.read ⟨0⟩).sizeDefine = none := congrArg Lit.Settled.colorSize hread
  have hd : ⟨.uniform "m_Color", ⟨0⟩, ["Tinted"]⟩ ∈ t.registry.entries := by
    rw [hdeclarations]
    exact List.mem_cons_self
  refine ⟨t, warnings, h, fun defines => ?_⟩
  refine (uniform_available_iff_of_readTechnique h hregular hd rfl hsize
    (Lit.once_of_settled hread) defines).mpr ?_
  -- the varying has the condition of the color
  intro n m e _ _ ha _ he
  have hdeclared := ha.declared
  rw [hdeclarations, List.mem_pair] at hdeclared
  rcases hdeclared with rfl | rfl
  · exact absurd ha.varying (by decide)
  · rw [hcolor]
    rw [hvarying] at he
    exact he

/-- Where it is shown without a guard, it is passed on without one, and missing: with nothing
defined the node is there and its mapping reads the color. -/
theorem uniform_missing :
    ∃ t warnings,
      readTechnique Lit.context (Lit.tintedTechnique "base = Tinted.tint") [] =
        (.ok (some t), warnings) ∧
      t.Regular ∧
      (∀ d ∈ t.registry.entries, d.key.isUniform = true →
        (t.inputs.filter (·.reads d.id)).length = 1) ∧
      ∃ d ∈ t.registry.entries, d.key.isUniform = true ∧
        (t.arena.read d.id).sizeDefine = none ∧
        ∃ n m, t.Reading d.id n m ∧ Holds (fun _ => false) n.condition ∧
          Holds (fun _ => false) m.condition ∧
          ¬ Holds (fun _ => false) (t.arena.read d.id).condition := by
  obtain ⟨t, warnings, h, hread⟩ := Lit.readTechnique_tinted
  have hregular : t.Regular := Lit.regular_of_settled hread (by decide) (by decide) (by decide)
  have hnodes : t.nodes.map (·.condition) = [none, none] := congrArg Lit.Settled.nodes hread
  have hinputs : t.inputs = _ := congrArg Lit.Settled.inputs hread
  have hdeclarations : t.registry.entries = [⟨.uniform "m_Color", ⟨0⟩, ["Tinted"]⟩,
      ⟨.varying "Tinted" "tint", ⟨2⟩, ["Shown"]⟩] := congrArg Lit.Settled.declarations hread
  have hcolor : (t.arena.read ⟨0⟩).condition = some "(defined(USELIGHT))" :=
    congrArg Lit.Settled.color hread
  refine ⟨t, warnings, h, hregular, ?_, ⟨.uniform "m_Color", ⟨0⟩, ["Tinted"]⟩, ?_, rfl,
    congrArg Lit.Settled.colorSize hread, ?_⟩
  · intro d hd hk
    rw [hdeclarations, List.mem_pair] at hd
    rcases hd with rfl | rfl
    · exact Lit.once_of_settled hread
    · exact absurd hk (by decide)
  · rw [hdeclarations]
    exact List.mem_cons_self
  · have hmem : ⟨⟨1⟩, .var ⟨0⟩, "", "", none⟩ ∈ t.inputs := by
      rw [hinputs]
      exact List.mem_cons_self
    obtain ⟨n, hn, hm⟩ := List.mem_flatMap.mp hmem
    have hnone : n.condition ∈ [none, none] := hnodes ▸ List.mem_map_of_mem hn
    refine ⟨n, _, ⟨hn, hm, rfl⟩, ?_, trivial, ?_⟩
    · rw [show n.condition = none by simpa using hnone]
      trivial
    · have hformula : Formula.read? "(defined(USELIGHT))" = some (.test "USELIGHT") := by decide
      rw [hcolor, Holds, Condition.isTrue_iff_eval hformula]
      simp [Formula.eval]

end ShaderGraph
