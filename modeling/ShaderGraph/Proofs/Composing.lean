/-
  ShaderGraph.Proofs.Composing — what settling makes its conditions of.

  A settled condition is put together from conditions that the nodes have and from the guards
  of array lengths, with parentheses, `||` and `&&`. So what is true of these and kept by the
  four ways to put texts together (`Composes`) is true of every condition of a finished
  technique: `finish_each`. `Composed` is the least such property: nothing else goes in.
-/

import ShaderGraph.Proofs.Settling

namespace ShaderGraph

namespace Condition

structure Composes (P : String → Prop) : Prop where
  wrapped : ∀ c, P c → P s!"({c})"
  widened : ∀ a c, P a → P c → P s!"{a} || ({c})"
  joined_or : ∀ a c, P a → P c → P s!"({a}) || ({c})"
  joined_and : ∀ a c, P a → P c → P s!"({a}) && ({c})"

/-- What is put together from texts of one kind. -/
inductive Composed (P : String → Prop) : String → Prop
  | text {c : String} : P c → Composed P c
  | wrapped {c : String} : Composed P c → Composed P s!"({c})"
  | widened {a c : String} : Composed P a → Composed P c → Composed P s!"{a} || ({c})"
  | joined_or {a c : String} : Composed P a → Composed P c → Composed P s!"({a}) || ({c})"
  | joined_and {a c : String} : Composed P a → Composed P c → Composed P s!"({a}) && ({c})"

theorem composes_composed (P : String → Prop) : Composes (Composed P) :=
  ⟨fun _ => .wrapped, fun _ _ => .widened, fun _ _ => .joined_or, fun _ _ => .joined_and⟩

def Each (P : String → Prop) (condition : Option String) : Prop :=
  ∀ text, condition = some text → P text

variable {P : String → Prop} {c d : Option String}

theorem each_none : Each P none := fun _ h => by cases h

theorem each_some {text : String} : Each P (some text) ↔ P text := by
  constructor
  · exact fun h => h text rfl
  · intro h text' ht
    cases ht
    exact h

theorem Each.merge (hP : Composes P) (hc : Each P c) (hd : Each P d) :
    Each P (merge c d "||") := by
  cases c with
  | none => exact hd
  | some left =>
    cases d with
    | none => exact hc
    | some right =>
      have hleft := each_some.mp hc
      have hright := each_some.mp hd
      have ht : ∀ op, op = "||" → s!"({left}) {op} ({right})" = s!"({left}) || ({right})" := by
        intro op ho
        simp [ho, toString, ← String.toList_inj]
      unfold Condition.merge
      dsimp only
      split
      · exact hc
      · rw [each_some, ht "||" rfl]
        exact hP.joined_or left right hleft hright

end Condition

namespace Activation

open Condition (Composes Each each_none each_some guard)

variable {P : String → Prop} (hP : Composes P)

/-! ## Conditions taken together -/

/-- Conditions are taken as texts only if none of them is absent. -/
theorem mapM_id_cases (conditions : List (Option String)) :
    (none ∈ conditions ∧ conditions.mapM id = none) ∨
      ∃ cs, conditions = cs.map some ∧ conditions.mapM id = some cs := by
  induction conditions with
  | nil => exact Or.inr ⟨[], rfl, rfl⟩
  | cons c conditions ih =>
    rw [List.mapM_cons]
    cases c with
    | none => exact Or.inl ⟨List.mem_cons_self, rfl⟩
    | some c =>
      rcases ih with ⟨hn, h⟩ | ⟨cs, hcs, h⟩
      · exact Or.inl ⟨List.mem_cons_of_mem _ hn, by rw [h]; rfl⟩
      · exact Or.inr ⟨c :: cs, by rw [hcs]; rfl, by rw [h]; rfl⟩

theorem foldl_keeps {more : String → String → String} (hm : ∀ a c, P a → P c → P (more a c))
    {cs : List String} {a : String} (ha : P a) (hcs : ∀ c ∈ cs, P c) : P (cs.foldl more a) := by
  induction cs generalizing a with
  | nil => exact ha
  | cons c cs ih =>
    exact ih (hm a c ha (hcs c List.mem_cons_self)) fun d hd => hcs d (List.mem_cons_of_mem c hd)

theorem each_together {first : String → String} {more : String → String → String}
    (hf : ∀ c, P c → P (first c)) (hm : ∀ a c, P a → P c → P (more a c))
    {conditions : List (Option String)} (hc : ∀ c ∈ conditions, Each P c) :
    Each P (together first more conditions) := by
  unfold together
  rcases mapM_id_cases conditions with ⟨-, h⟩ | ⟨cs, rfl, h⟩
  · rw [h]
    exact each_none
  · rw [h]
    cases cs with
    | nil => exact each_none
    | cons c cs =>
      have hall : ∀ d ∈ c :: cs, P d := fun d hd => hc (some d) (List.mem_map_of_mem hd) d rfl
      exact each_some.mpr (foldl_keeps hm (hf c (hall c List.mem_cons_self))
        fun d hd => hall d (List.mem_cons_of_mem c hd))

include hP

theorem keeps_widen (a c : String) (ha : P a) (hc : P c) : P (widen a c) := by
  unfold widen
  split
  · exact ha
  · exact hP.widened a c ha hc

theorem keeps_extend (a c : String) (ha : P a) (hc : P c) : P (extend a c) := by
  unfold extend
  split
  · exact ha
  · exact hP.joined_or a c ha hc

omit hP

/-! ## Uses of a declaration -/

def readings (node : Node) (id : VarId) : List (Option String) :=
  (node.inputs.filter (·.reads id)).map (·.condition)

def consumersOf (d : Declaration) (nodes : List Node) : List Node :=
  d.consumers.filterMap fun name => nodes.find? (·.name == name)

def uses (d : Declaration) (nodes : List Node) : List (Option String) :=
  (consumersOf d nodes).map (useCondition · d.id)

theorem readingCondition_eq (node : Node) (id : VarId) :
    readingCondition node id = together (fun c => s!"({c})") widen (readings node id) := rfl

theorem declarationCondition_eq (d : Declaration) (nodes : List Node) :
    declarationCondition d nodes = together id extend (uses d nodes) := rfl

theorem mem_of_mem_consumersOf {d : Declaration} {nodes : List Node} {n : Node}
    (h : n ∈ consumersOf d nodes) : n ∈ nodes := by
  obtain ⟨name, -, hfind⟩ := List.mem_filterMap.mp h
  exact List.mem_of_find?_eq_some hfind

structure NodeEach (P : String → Prop) (node : Node) : Prop where
  own : Each P node.condition
  inputs : ∀ m ∈ node.inputs, Each P m.condition

theorem NodeEach.readings {node : Node} (h : NodeEach P node) (id : VarId) :
    ∀ c ∈ readings node id, Each P c := by
  intro c hc
  obtain ⟨m, hm, rfl⟩ := List.mem_map.mp hc
  exact h.inputs m (List.mem_filter.mp hm).1

include hP

theorem NodeEach.useCondition {node : Node} (h : NodeEach P node) (id : VarId) :
    Each P (useCondition node id) := by
  have hreading : Each P (readingCondition node id) :=
    each_together hP.wrapped (keeps_widen hP) (h.readings id)
  unfold Activation.useCondition
  cases hc : node.condition with
  | none => exact hreading
  | some there =>
    have hthere : P there := h.own there hc
    cases hr : readingCondition node id with
    | none => exact each_some.mpr hthere
    | some reading =>
      have hreading : P reading := hreading reading hr
      dsimp only
      split
      · exact each_some.mpr hreading
      · exact each_some.mpr (hP.joined_and there reading hthere hreading)

theorem each_uses {d : Declaration} {nodes : List Node} (hn : ∀ n ∈ nodes, NodeEach P n) :
    ∀ c ∈ uses d nodes, Each P c := by
  intro c hc
  obtain ⟨n, hmem, rfl⟩ := List.mem_map.mp hc
  exact (hn n (mem_of_mem_consumersOf hmem)).useCondition hP d.id

theorem each_declarationCondition {d : Declaration} {nodes : List Node}
    (hn : ∀ n ∈ nodes, NodeEach P n) : Each P (declarationCondition d nodes) :=
  each_together (fun _ h => h) (keeps_extend hP) (each_uses hP hn)

omit hP

/-! ## Settling -/

/-- The conditions of the variables of an arena, and the guards of their lengths. -/
def ArenaEach (P : String → Prop) (a : Arena) : Prop :=
  ∀ id v, a.get? id = some v → Each P v.condition ∧ Each P (v.sizeDefine.map guard)

/-- A handle of no variable reads as one without a condition. -/
theorem ArenaEach.read {a : Arena} (h : ArenaEach P a) (id : VarId) :
    Each P (a.read id).condition := by
  unfold Arena.read
  cases hv : a.get? id with
  | none => exact each_none
  | some v => exact (h id v hv).1

include hP

theorem each_settle {nodes : List Node} (hn : ∀ n ∈ nodes, NodeEach P n) {a : Arena}
    (ha : ArenaEach P a) (d : Declaration) : ArenaEach P (settle nodes a d) := by
  intro id v hv
  rw [get?_settle] at hv
  split at hv
  · obtain ⟨w, hw, rfl⟩ := Option.map_eq_some_iff.mp hv
    obtain ⟨-, hsize⟩ := ha id w hw
    exact ⟨(each_declarationCondition hP hn).merge hP hsize, hsize⟩
  · exact ha id v hv

theorem each_settleAll {nodes : List Node} (hn : ∀ n ∈ nodes, NodeEach P n)
    (sort : DeclKey → Bool) (r : Registry) {a : Arena} (ha : ArenaEach P a) :
    ArenaEach P (settleAll sort r nodes a) := by
  rw [settleAll_eq]
  induction ofSort sort r generalizing a with
  | nil => exact ha
  | cons d ds ih => exact ih (each_settle hP hn ha d)

theorem each_inherited {own varying : Option String} (ho : Each P own) (hv : Each P varying) :
    Each P (inherited own varying) := by
  cases own with
  | none => exact hv
  | some own =>
    cases varying with
    | none => exact each_none
    | some varying =>
      exact each_some.mpr (hP.joined_or own varying (each_some.mp ho) (each_some.mp hv))

theorem each_inherit {a : Arena} (ha : ArenaEach P a) {nodes : List Node}
    (hn : ∀ n ∈ nodes, NodeEach P n) (d : Declaration) : ∀ n ∈ inherit a nodes d, NodeEach P n := by
  intro n' hn'
  obtain ⟨n, hmem, rfl⟩ := List.mem_map.mp hn'
  have hnode := hn n hmem
  split
  · refine ⟨hnode.own, fun m' hm' => ?_⟩
    obtain ⟨m, hm, rfl⟩ := List.mem_map.mp hm'
    unfold inheritMapping
    split
    · exact each_inherited hP (hnode.inputs m hm) (ha.read d.id)
    · exact hnode.inputs m hm
  · exact hnode

theorem each_compute (r : Registry) {nodes : List Node} (hn : ∀ n ∈ nodes, NodeEach P n)
    {a : Arena} (ha : ArenaEach P a) :
    (∀ n ∈ (compute r nodes a).1, NodeEach P n) ∧ ArenaEach P (compute r nodes a).2 := by
  have hvaryings := each_settleAll hP hn DeclKey.isVarying r
    (each_settleAll hP hn DeclKey.isUniform r ha)
  simp only [compute]
  generalize settleAll DeclKey.isVarying r nodes (settleAll DeclKey.isUniform r nodes a) = b
    at hvaryings ⊢
  have hnodes : ∀ n ∈ (r.entries.filter (·.key.isVarying)).foldl (inherit b) nodes,
      NodeEach P n := by
    induction r.entries.filter (·.key.isVarying) generalizing nodes with
    | nil => exact hn
    | cons d ds ih => exact ih (each_inherit hP hvaryings hn d)
  exact ⟨hnodes, each_settleAll hP hnodes DeclKey.isAttribute r hvaryings⟩

end Activation

/-- What the conditions of a technique are is kept when it is finished. -/
theorem Technique.finish_each {P : String → Prop} (hP : Condition.Composes P) {t : Technique}
    (hn : ∀ n ∈ t.nodes, Activation.NodeEach P n) (ha : Activation.ArenaEach P t.arena) :
    (∀ n ∈ t.finish.nodes, Activation.NodeEach P n) ∧ Activation.ArenaEach P t.finish.arena :=
  Activation.each_compute hP t.registry hn ha

end ShaderGraph
