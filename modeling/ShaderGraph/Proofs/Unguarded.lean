/-
  ShaderGraph.Proofs.Unguarded — which declarations are there under no condition.

  A declaration has no condition as soon as one use of it has none: a node without a condition
  reads it by a mapping without one. A single such use ends the composing, whatever the texts
  of the other conditions are, and nothing but such a use does. Where an array takes its length
  from a parameter, the absent condition gives way to the guard of the length instead.

  A uniform is judged by the mappings as they are read. Varyings and attributes are judged by the
  finished ones, in which inputs that are varyings are widened: for an attribute because it is
  settled last, for a varying because the fragment stage reads it and has no such input.

  Proved:
  - `declarationCondition_eq_none_iff`: what a declaration needs of its consumers is nothing
    exactly if one of them uses it always.
  - `unguarded_of_readTechnique`: so it is for every declaration of a technique that is read.
-/

import ShaderGraph.Proofs.Flow
import ShaderGraph.Proofs.Widening

namespace ShaderGraph

open Block (Statement)
open Condition (guard merge)

def UsedAlways (nodes : List Node) (id : VarId) : Prop :=
  ∃ n ∈ nodes, n.condition = none ∧ ∃ m ∈ n.inputs, m.source = .var id ∧ m.condition = none

structure Declaration.Serves (d : Declaration) (nodes : List Node) : Prop where
  names : (nodes.map (·.name)).Nodup
  nonempty : d.consumers ≠ []
  nodup : d.consumers.Nodup
  reads : ∀ name ∈ d.consumers, ∃ n ∈ nodes, n.name = name ∧ n.reads d.id = true

namespace Activation

/-! ## Absent conditions -/

section

variable {first : String → String} {more : String → String → String}
  {conditions : List (Option String)} {nodes : List Node} {n : Node} {d : Declaration} {id : VarId}

/-- Conditions give none together if one of them is absent, or if there are none. -/
theorem together_eq_none_iff :
    together first more conditions = none ↔ none ∈ conditions ∨ conditions = [] := by
  unfold together
  rcases mapM_id_cases conditions with ⟨hn, h⟩ | ⟨cs, rfl, h⟩
  · rw [h]
    exact iff_of_true rfl (Or.inl hn)
  · rw [h]
    cases cs <;> simp

theorem none_mem_readings :
    none ∈ readings n id ↔ ∃ m ∈ n.inputs, m.source = .var id ∧ m.condition = none := by
  simp [readings, Mapping.reads, and_assoc]

theorem readings_ne_nil (h : n.reads id = true) : readings n id ≠ [] := by
  obtain ⟨m, hm, hs⟩ := List.any_eq_true.mp h
  exact List.ne_nil_of_mem (List.mem_map_of_mem (List.mem_filter.mpr ⟨hm, hs⟩))

/-- A use has no condition if neither the node has one nor one of the mappings that read. -/
theorem useCondition_eq_none_iff (h : n.reads id = true) :
    useCondition n id = none ↔
      n.condition = none ∧ ∃ m ∈ n.inputs, m.source = .var id ∧ m.condition = none := by
  have hreading : readingCondition n id = none ↔ none ∈ readings n id := by
    rw [readingCondition_eq, together_eq_none_iff]
    exact or_iff_left (readings_ne_nil h)
  rw [← none_mem_readings, ← hreading]
  unfold useCondition
  cases n.condition with
  | none => simp
  | some there =>
    cases readingCondition n id with
    | none => simp
    | some reading =>
      simp only [reduceCtorEq, false_and, iff_false]
      split <;> simp

/-- A name designates the one node that has it. -/
theorem mem_consumersOf (h : (nodes.map (·.name)).Nodup) :
    n ∈ consumersOf d nodes ↔ n ∈ nodes ∧ n.name ∈ d.consumers := by
  simp only [consumersOf, List.mem_filterMap]
  constructor
  · rintro ⟨name, hname, hfind⟩
    have hn := List.find?_some hfind
    rw [beq_iff_eq] at hn
    exact ⟨List.mem_of_find?_eq_some hfind, hn ▸ hname⟩
  · rintro ⟨hn, hname⟩
    exact ⟨n.name, hname, find?_name_of_nodup h hn⟩

end

end Activation

namespace Declaration.Serves

open Activation (consumersOf mem_consumersOf declarationCondition uses useCondition
  together_eq_none_iff useCondition_eq_none_iff)

variable {d : Declaration} {nodes : List Node} {n : Node}

theorem mem_consumersOf_iff (h : d.Serves nodes) :
    n ∈ consumersOf d nodes ↔ n ∈ nodes ∧ n.name ∈ d.consumers := mem_consumersOf h.names

theorem reads_of_mem (h : d.Serves nodes) (hn : n ∈ consumersOf d nodes) :
    n.reads d.id = true := by
  obtain ⟨hmem, hname⟩ := h.mem_consumersOf_iff.mp hn
  obtain ⟨n', hn', he, hr⟩ := h.reads n.name hname
  rwa [← List.inj_on_of_nodup_map h.names hn' hmem he]

theorem consumersOf_ne_nil (h : d.Serves nodes) : consumersOf d nodes ≠ [] := by
  obtain ⟨name, hname⟩ := List.exists_mem_of_ne_nil _ h.nonempty
  obtain ⟨n, hn, rfl, -⟩ := h.reads name hname
  exact List.ne_nil_of_mem (h.mem_consumersOf_iff.mpr ⟨hn, hname⟩)

/-- A declaration is needed under no condition exactly if a consumer without one reads it by a
mapping without one. -/
theorem declarationCondition_eq_none_iff (h : d.Serves nodes) :
    declarationCondition d nodes = none ↔
      ∃ n ∈ nodes, n.name ∈ d.consumers ∧ n.condition = none ∧
        ∃ m ∈ n.inputs, m.source = .var d.id ∧ m.condition = none := by
  have huses : uses d nodes ≠ [] := by
    rw [uses, ne_eq, List.map_eq_nil_iff]
    exact h.consumersOf_ne_nil
  rw [Activation.declarationCondition_eq, together_eq_none_iff, or_iff_left huses, uses,
    List.mem_map]
  constructor
  · rintro ⟨n, hn, hnone⟩
    obtain ⟨hmem, hname⟩ := h.mem_consumersOf_iff.mp hn
    exact ⟨n, hmem, hname, (useCondition_eq_none_iff (h.reads_of_mem hn)).mp hnone⟩
  · rintro ⟨n, hmem, hname, hnone⟩
    have hn := h.mem_consumersOf_iff.mpr ⟨hmem, hname⟩
    exact ⟨n, hn, (useCondition_eq_none_iff (h.reads_of_mem hn)).mpr hnone⟩

end Declaration.Serves

/-! ## Settling -/

namespace Activation

section

variable {nodes : List Node} {d : Declaration} {v : Variable} {define : String}

/-- Without a length the condition is what the consumers need. -/
theorem settledCondition_of_none (hs : v.sizeDefine = none) :
    settledCondition nodes d v = declarationCondition d nodes := by
  rw [settledCondition, hs]
  exact Condition.merge_none_right _ _

/-- With a length there is always a condition. -/
theorem settledCondition_ne_none (hs : v.sizeDefine = some define) :
    settledCondition nodes d v ≠ none := by
  rw [settledCondition, hs]
  cases declarationCondition d nodes with
  | none => simp
  | some text =>
    rw [Option.map_some, merge]
    split <;> simp

/-- If the consumers need no condition, the length alone gives one. -/
theorem settledCondition_of_always (hs : v.sizeDefine = some define)
    (h : declarationCondition d nodes = none) :
    settledCondition nodes d v = some (guard define) := by
  rw [settledCondition, hs, h]
  rfl

end

end Activation

/-! ## Readers -/

section

variable {t : Technique} {nodes : List Node} {d : Declaration} {id : VarId} {R W : VarId → Prop}

/-- A declaration that lists its readers serves them. -/
theorem Declaration.serves_of_readers (hd : d.consumers = readers nodes d.id)
    (hnames : (nodes.map (·.name)).Nodup) (hr : ∃ n ∈ nodes, n.reads d.id = true) :
    d.Serves nodes := by
  refine ⟨hnames, ?_, hd ▸ readers_of_nodup hnames d.id, fun name hname => ?_⟩
  · obtain ⟨n, hn, hreads⟩ := hr
    exact List.ne_nil_of_mem (hd ▸ mem_readers.mpr ⟨n, hn, hreads, rfl⟩)
  · obtain ⟨n, hn, hreads, rfl⟩ := mem_readers.mp (hd ▸ hname)
    exact ⟨n, hn, rfl, hreads⟩

/-- Whoever uses the variable of such a declaration is a consumer of it. -/
theorem Declaration.needed_always_iff (hd : d.consumers = readers nodes d.id)
    (hs : d.Serves nodes) :
    Activation.declarationCondition d nodes = none ↔ UsedAlways nodes d.id := by
  rw [hs.declarationCondition_eq_none_iff]
  constructor
  · rintro ⟨n, hn, -, huse⟩
    exact ⟨n, hn, huse⟩
  · rintro ⟨n, hn, hnone, m, hm, hsource, hmapping⟩
    have hreads := Node.reads_of_source hm hsource
    exact ⟨n, hn, hd ▸ mem_readers.mpr ⟨n, hn, hreads, rfl⟩, hnone, m, hm, hsource, hmapping⟩

/-- The fragment stage reads the varyings. -/
theorem Flowing.fragment_of_reads {library : List Definition}
    (h : Flowing ⟨t, library, none⟩) (hexact : Exact t R W) (hd : d ∈ t.registry.entries)
    (hk : d.key.isVarying = true) {n : Node} (hn : n ∈ t.nodes) (hr : n.reads d.id = true) :
    n.stage = .fragment := by
  obtain ⟨m, hm, hs⟩ := exists_of_reads hr
  obtain ⟨before, after, hsplit⟩ := List.append_of_mem hn
  obtain ⟨v, hv, hsupplied⟩ := (hsplit ▸ flowing_closed.mp h).admitted_at m hm d.id hs
  obtain ⟨w, hw, hnames⟩ := hexact.names d hd
  rw [hv] at hw
  cases hw
  cases hkey : d.key with
  | varying producer output =>
    rw [hkey] at hnames
    obtain ⟨q, -, -, hcrosses⟩ := hsupplied producer hnames.1
    rcases hcrosses with ⟨-, hundeclared⟩ | ⟨-, hfragment, -⟩
    · exact absurd (List.mem_map_of_mem hd) hundeclared
    · exact hfragment
  | vertexAttribute _ =>
    rw [hkey] at hk
    cases hk
  | uniform _ =>
    rw [hkey] at hk
    cases hk

/-- Finishing keeps the nodes of the fragment stage. -/
theorem Technique.settledNode_of_fragment {n : Node} (h : n.stage = .fragment) :
    t.settledNode n = n := by
  have hkept : t.settledMapping n.stage = id := funext fun m => if_neg (by rw [h]; simp)
  rw [Technique.settledNode, hkept, List.map_id]

/-- What only the fragment stage reads is used always in the finished technique if it was before. -/
theorem usedAlways_finish_iff (hexact : Exact t R W)
    (hf : ∀ n ∈ t.nodes, n.reads id = true → n.stage = .fragment) :
    UsedAlways t.finish.nodes id ↔ UsedAlways t.nodes id := by
  have fragment : ∀ n ∈ t.nodes, ∀ m ∈ n.inputs, m.source = .var id → n.stage = .fragment :=
    fun n hn m hm hs => hf n hn (Node.reads_of_source hm hs)
  rw [UsedAlways, t.finish_nodes_eq]
  constructor
  · rintro ⟨n', hn', hnone, m', hm', hs, hmapping⟩
    obtain ⟨n, hn, rfl⟩ := List.mem_map.mp hn'
    obtain ⟨m, hm, he⟩ := List.mem_map.mp hm'
    have hsource : m.source = .var id := by
      rw [← (hexact.settles n.stage m).source_eq, he]
      exact hs
    rw [Technique.settledNode_of_fragment (fragment n hn m hm hsource)] at hnone hm'
    exact ⟨n, hn, hnone, m', hm', hs, hmapping⟩
  · rintro ⟨n, hn, hnone, m, hm, hs, hmapping⟩
    refine ⟨t.settledNode n, List.mem_map_of_mem hn, hnone, m, ?_, hs, hmapping⟩
    rw [Technique.settledNode_of_fragment (fragment n hn m hm hs)]
    exact hm

end

/-! ## Finished techniques -/

namespace Technique

/-- The declaration has a use without a condition: a uniform by a mapping as it was read in `t₀`, a
varying or an attribute by one as it is finished in `t`. -/
def NeedsAlways (t₀ t : Technique) (d : Declaration) : Prop :=
  if d.key.isUniform then UsedAlways t₀.nodes d.id else UsedAlways t.nodes d.id

/-- A declaration has no condition exactly if some use of it has none. One whose length a define
gives has a condition anyway, which is the guard of the define if some use has none. -/
structure Unguarded (t₀ t : Technique) : Prop where
  plain : ∀ d ∈ t.registry.entries, (t.arena.read d.id).sizeDefine = none →
    ((t.arena.read d.id).condition = none ↔ t₀.NeedsAlways t d)
  array : ∀ d ∈ t.registry.entries, ∀ define, (t.arena.read d.id).sizeDefine = some define →
    (t.arena.read d.id).condition ≠ none ∧
      (t₀.NeedsAlways t d → (t.arena.read d.id).condition = some (guard define))

/-- The condition of a declaration is settled by nodes that need it under none exactly if it has
a use without one. -/
theorem exists_settledCondition {t : Technique} {library : List Definition}
    (hp : Progress.Coherent ⟨t, library, none⟩) (hconsumed : Consumed t.registry t.nodes)
    (hflow : Flowing ⟨t, library, none⟩) {d : Declaration} (hd : d ∈ t.registry.entries) :
    ∃ nodes, (t.finish.arena.read d.id).condition =
        Activation.settledCondition nodes d (t.arena.read d.id) ∧
      (Activation.declarationCondition d nodes = none ↔ t.NeedsAlways t.finish d) := by
  have hexact := hp.exact
  have hnames := hp.names_closed
  have hreads : ∃ n ∈ t.nodes, n.reads d.id = true := by
    obtain ⟨m, hm, hs⟩ := hexact.read d hd
    rw [inputs_between] at hm
    obtain ⟨n, hn, hmn⟩ := List.mem_flatMap.mp hm
    exact ⟨n, hn, Node.reads_of_source hmn hs⟩
  have hserves := Declaration.serves_of_readers (hconsumed d hd) hnames hreads
  have halways := Declaration.needed_always_iff (hconsumed d hd) hserves
  rcases d.key.sorts with ⟨huniform, -, hk⟩ | ⟨huniform, hvarying, hk⟩ | ⟨huniform, -, hk⟩
  · refine ⟨t.nodes, Activation.compute_condition hexact.sound t.nodes hd hk, ?_⟩
    rw [halways, NeedsAlways, huniform]
    rfl
  · refine ⟨t.nodes, Activation.compute_condition hexact.sound t.nodes hd hk, ?_⟩
    rw [halways, NeedsAlways, huniform]
    exact (usedAlways_finish_iff hexact fun n hn hr =>
      hflow.fragment_of_reads hexact hd hvarying hn hr).symm
  · -- attributes are settled by the finished nodes, which have the same readers
    have hconsumed' : d.consumers = readers t.finish.nodes d.id :=
      (hconsumed d hd).trans (readers_of_wires t.finish_wires d.id).symm
    have hserves' : d.Serves t.finish.nodes := by
      refine Declaration.serves_of_readers hconsumed' ?_ ?_
      · rw [map_name_of_wires t.finish_wires]
        exact hnames
      · obtain ⟨name, hname⟩ := List.exists_mem_of_ne_nil _ hserves.nonempty
        obtain ⟨n, hn, hr, -⟩ := mem_readers.mp (hconsumed' ▸ hname)
        exact ⟨n, hn, hr⟩
    refine ⟨t.finish.nodes,
      Activation.compute_attribute_condition hexact.sound t.nodes hd hk, ?_⟩
    rw [Declaration.needed_always_iff hconsumed' hserves', NeedsAlways, huniform]
    rfl

end Technique

/-- In every technique that is read, whatever the texts of its conditions are, a declaration has no
condition exactly if some use of it has none. -/
theorem unguarded_of_readTechnique {context : Context} {statement : Statement}
    {warnings warnings' : List Warning} {t : Technique}
    (h : readTechnique context statement warnings = (.ok (some t), warnings')) :
    ∃ t₀, AsRead context statement warnings t₀ ∧ t = t₀.finish ∧ t₀.Unguarded t := by
  obtain ⟨t₀, hread, rfl⟩ := asRead_of_readTechnique h
  obtain ⟨draft, library, hdraft, hreach⟩ := hread.reach
  have hblank := blank_of_drafts hdraft
  have hp := coherent_of_reach hblank hreach
  have hconsumed := consumed_of_reach hblank hreach
  rw [nodes_between] at hconsumed
  have hflow := flowing_of_reach hblank hreach
  have hsize : ∀ d ∈ t₀.registry.entries,
      (t₀.arena.read d.id).sizeDefine = (t₀.finish.arena.read d.id).sizeDefine := by
    intro d hd
    obtain ⟨v, hv, -⟩ := hp.exact.names d hd
    obtain ⟨c, hc⟩ := Technique.finish_get? hv
    rw [Arena.read_of_get? hv, Arena.read_of_get? hc]
    rfl
  refine ⟨t₀, hread, rfl, ?_, ?_⟩
  · intro d hd hs
    obtain ⟨nodes, hcondition, halways⟩ :=
      Technique.exists_settledCondition hp hconsumed hflow hd
    rw [hcondition, Activation.settledCondition_of_none ((hsize d hd).trans hs), halways]
  · intro d hd define hs
    obtain ⟨nodes, hcondition, halways⟩ :=
      Technique.exists_settledCondition hp hconsumed hflow hd
    have hdefine := (hsize d hd).trans hs
    rw [hcondition]
    exact ⟨Activation.settledCondition_ne_none hdefine, fun hneeds =>
      Activation.settledCondition_of_always hdefine (halways.mpr hneeds)⟩

/-- A color that is read under a guard, and passed on as a varying that is read without one. -/
theorem unguarded_tinted :
    ∃ t warnings,
      readTechnique Lit.context (Lit.tintedTechnique "base = Tinted.tint") [] =
        (.ok (some t), warnings) ∧
      Lit.settled t = Lit.tinted none none none ∧
      ∃ t₀, AsRead Lit.context (Lit.tintedTechnique "base = Tinted.tint") [] t₀ ∧
        t = t₀.finish ∧ t₀.Unguarded t := by
  obtain ⟨t, warnings, h, hread⟩ := Lit.readTechnique_tinted
  exact ⟨t, warnings, h, hread, unguarded_of_readTechnique h⟩

end ShaderGraph
