/-
  ShaderGraph.Proofs.Availability — whether a declaration is there whenever it is needed.

  A node that is there, and assigns to an input of it from a variable, needs the variable.
  The condition of a declaration is composed as one text, and a condition that occurs in
  the text composed so far is passed over (`kept`). Such an occurrence says nothing
  about truth: `defined(A)` occurs in `defined(A) && defined(B)`.

  Proved, where every condition is the text of a formula:
  - `holds_together_iff`: what conditions give together holds exactly where one of them is
    absent or one that was kept is true, whatever the order and the parentheses.
  - `available_iff_passedOver_covered`: a uniform or varying is there whenever a consumer
    needs it if and only if, wherever a consumer needs it whose condition or whose mapping's
    condition was passed over, a use that was kept is there as well.
  - `passedOver_unavailable`: not always, so the occurrence tests do lose uses.
-/

import ShaderGraph.Proofs.Composing
import ShaderGraph.Proofs.Formula

namespace ShaderGraph

namespace Condition

def Formal (text : String) : Prop := ∃ f, Formula.read? text = some f

def IsTrue (defines : String → Bool) (text : String) : Prop :=
  ∃ f, Formula.read? text = some f ∧ f.eval defines = true

def Holds (defines : String → Bool) : Option String → Prop
  | none => True
  | some text => IsTrue defines text

def WellFormed (condition : Option String) : Prop := ∀ text, condition = some text → Formal text

variable {defines : String → Bool} {c d : String}

theorem isTrue_iff_eval {f : Formula} (h : Formula.read? c = some f) :
    IsTrue defines c ↔ f.eval defines = true := by
  constructor
  · rintro ⟨g, hg, ht⟩
    rw [h] at hg
    cases hg
    exact ht
  · intro ht
    exact ⟨f, h, ht⟩

theorem formal_wrapped (h : Formal c) : Formal s!"({c})" := by
  obtain ⟨f, hf⟩ := h
  exact ⟨f, Formula.read?_wrapped hf⟩

theorem isTrue_wrapped (h : Formal c) : IsTrue defines s!"({c})" ↔ IsTrue defines c := by
  obtain ⟨f, hf⟩ := h
  rw [isTrue_iff_eval hf, isTrue_iff_eval (Formula.read?_wrapped hf)]

theorem isTrue_joined_and (hc : IsTrue defines c) (hd : IsTrue defines d) :
    IsTrue defines s!"({c}) && ({d})" := by
  obtain ⟨f, hf, hft⟩ := hc
  obtain ⟨g, hg, hgt⟩ := hd
  exact ⟨f.and g, Formula.read?_joined_and hf hg, by simp [Formula.eval, hft, hgt]⟩

theorem composes_formal : Composes Formal := by
  refine ⟨fun _ => formal_wrapped, ?_, ?_, ?_⟩
  · rintro c d ⟨f, hf⟩ ⟨g, hg⟩
    exact ⟨f.or g, Formula.read?_widened hf hg⟩
  · rintro c d ⟨f, hf⟩ ⟨g, hg⟩
    exact ⟨f.or g, Formula.read?_joined_or hf hg⟩
  · rintro c d ⟨f, hf⟩ ⟨g, hg⟩
    exact ⟨f.and g, Formula.read?_joined_and hf hg⟩

end Condition

namespace Activation

open Condition (Formal IsTrue Holds WellFormed Formula)

variable {defines : String → Bool}

/-! ## Composed texts -/

/-- The conditions that are added to a text in order, without those that occur in it already. -/
def kept (more : String → String → String) : String → List String → List String
  | _, [] => []
  | current, c :: cs =>
    if occurs c current then kept more (more current c) cs
    else c :: kept more (more current c) cs

def keptOf (first : String → String) (more : String → String → String)
    (conditions : List (Option String)) : List String :=
  match conditions.mapM id with
  | some (c :: cs) => c :: kept more (first c) cs
  | _ => []

/-- The text is not left of the conditions, though all of them are there. -/
def Loses (first : String → String) (more : String → String → String)
    (conditions : List (Option String)) (text : String) : Prop :=
  none ∉ conditions ∧ text ∉ keptOf first more conditions

/-- Adding a condition reads as a disjunction, but where the condition occurs already. -/
structure Adds (more : String → String → String) : Prop where
  occurring : ∀ a c, occurs c a = true → more a c = a
  joined : ∀ a c f g, occurs c a = false → Formula.read? a = some f → Formula.read? c = some g →
    Formula.read? (more a c) = some (f.or g)

theorem adds_widen : Adds widen :=
  ⟨fun a c h => by rw [widen, if_pos h],
    fun a c f g h hf hg => by
      rw [widen, if_neg (by simp [h])]
      exact Formula.read?_widened hf hg⟩

theorem adds_extend : Adds extend :=
  ⟨fun a c h => by rw [extend, if_pos h],
    fun a c f g h hf hg => by
      rw [extend, if_neg (by simp [h])]
      exact Formula.read?_joined_or hf hg⟩

section

variable {more : String → String → String} (hm : Adds more)
include hm

theorem Adds.formal {a c : String} (ha : Formal a) (hc : Formal c) : Formal (more a c) := by
  obtain ⟨f, hf⟩ := ha
  obtain ⟨g, hg⟩ := hc
  cases h : occurs c a with
  | true => rw [hm.occurring a c h]; exact ⟨f, hf⟩
  | false => exact ⟨f.or g, hm.joined a c f g h hf hg⟩

theorem Adds.isTrue_iff {a c : String} (ha : Formal a) (hc : Formal c)
    (h : occurs c a = false) :
    IsTrue defines (more a c) ↔ IsTrue defines a ∨ IsTrue defines c := by
  obtain ⟨f, hf⟩ := ha
  obtain ⟨g, hg⟩ := hc
  rw [Condition.isTrue_iff_eval (hm.joined a c f g h hf hg), Condition.isTrue_iff_eval hf,
    Condition.isTrue_iff_eval hg, Formula.eval, Bool.or_eq_true]

/-- A composed text is true where what it begins with is or a condition that was kept. -/
theorem isTrue_foldl_iff {cs : List String} {a : String} (ha : Formal a)
    (hcs : ∀ c ∈ cs, Formal c) :
    IsTrue defines (cs.foldl more a) ↔
      IsTrue defines a ∨ ∃ c ∈ kept more a cs, IsTrue defines c := by
  induction cs generalizing a with
  | nil => simp [kept]
  | cons c cs ih =>
    have hc : Formal c := hcs c List.mem_cons_self
    have hrest : ∀ d ∈ cs, Formal d := fun d hd => hcs d (List.mem_cons_of_mem c hd)
    rw [List.foldl_cons, ih (hm.formal ha hc) hrest]
    cases ho : occurs c a with
    | true => simp only [kept, ho, if_true, hm.occurring a c ho]
    | false =>
      simp only [kept, ho, Bool.false_eq_true, if_false, hm.isTrue_iff ha hc ho, List.mem_cons,
        exists_eq_or_imp, or_assoc]

end

/-! ## Conditions taken together -/

structure Begins (first : String → String) : Prop where
  formal : ∀ c, Formal c → Formal (first c)
  isTrue_iff : ∀ defines c, Formal c → (IsTrue defines (first c) ↔ IsTrue defines c)

theorem begins_id : Begins id := ⟨fun _ h => h, fun _ _ _ => Iff.rfl⟩

theorem begins_wrapped : Begins fun c => s!"({c})" :=
  ⟨fun _ => Condition.formal_wrapped, fun _ _ => Condition.isTrue_wrapped⟩

section

variable {first : String → String} {more : String → String → String}
  (hb : Begins first) (hm : Adds more) {conditions : List (Option String)}
  (hw : ∀ c ∈ conditions, WellFormed c)
include hb hm hw

/-- What conditions give together holds where one of them is absent, or a kept one is true. -/
theorem holds_together_iff (hne : conditions ≠ []) :
    Holds defines (together first more conditions) ↔
      none ∈ conditions ∨ ∃ c ∈ keptOf first more conditions, IsTrue defines c := by
  unfold together keptOf
  rcases mapM_id_cases conditions with ⟨hn, h⟩ | ⟨cs, rfl, h⟩
  · rw [h]
    exact iff_of_true trivial (Or.inl hn)
  · have hnone : none ∉ cs.map some := by simp
    rw [h]
    cases cs with
    | nil => exact absurd rfl hne
    | cons c cs =>
      have hformal : ∀ d ∈ c :: cs, Formal d := fun d hd =>
        hw (some d) (List.mem_map_of_mem hd) d rfl
      have hc : Formal c := hformal c List.mem_cons_self
      have hrest : ∀ d ∈ cs, Formal d := fun d hd => hformal d (List.mem_cons_of_mem c hd)
      show IsTrue defines (cs.foldl more (first c)) ↔ _
      rw [isTrue_foldl_iff hm (hb.formal c hc) hrest, hb.isTrue_iff defines c hc]
      simp only [hnone, false_or, List.mem_cons, exists_eq_or_imp]

theorem holds_together {c : Option String} (hc : c ∈ conditions)
    (hl : ∀ text, c = some text → ¬ Loses first more conditions text) (ht : Holds defines c) :
    Holds defines (together first more conditions) := by
  rw [holds_together_iff hb hm hw (List.ne_nil_of_mem hc)]
  cases c with
  | none => exact Or.inl hc
  | some text =>
    by_cases hn : none ∈ conditions
    · exact Or.inl hn
    · have hkept : text ∈ keptOf first more conditions := by
        by_contra hx
        exact hl text rfl ⟨hn, hx⟩
      exact Or.inr ⟨text, hkept, ht⟩

end

/-! ## Uses of a declaration -/

structure Regular (node : Node) : Prop where
  own : WellFormed node.condition
  mappings : ∀ m ∈ node.inputs, WellFormed m.condition

theorem Regular.each {node : Node} (h : Regular node) : NodeEach Formal node := ⟨h.own, h.mappings⟩

/-- A use holds where the node is there and reads. That the condition of the node is dropped
where it occurs in the other can only make the use hold more often. -/
theorem holds_useCondition {node : Node} {id : VarId} (hn : Holds defines node.condition)
    (hr : Holds defines (readingCondition node id)) : Holds defines (useCondition node id) := by
  unfold useCondition
  cases hc : node.condition with
  | none => exact hr
  | some there =>
    rw [hc] at hn
    cases hg : readingCondition node id with
    | none => exact hn
    | some reading =>
      rw [hg] at hr
      dsimp only
      split
      · exact hr
      · exact Condition.isTrue_joined_and hn hr

structure Needed (defines : String → Bool) (nodes : List Node) (d : Declaration) (node : Node)
    (m : Mapping) : Prop where
  consumer : node ∈ consumersOf d nodes
  mapping : m ∈ node.inputs
  reads : m.source = .var d.id
  nodeHolds : Holds defines node.condition
  mappingHolds : Holds defines m.condition

/-- The condition of the mapping, or what the node makes of its conditions, is left out of the
text because it occurs there. -/
def PassedOver (nodes : List Node) (d : Declaration) (node : Node) (m : Mapping) : Prop :=
  (∃ c, m.condition = some c ∧ Loses (fun c => s!"({c})") widen (readings node d.id) c) ∨
    ∃ c, useCondition node d.id = some c ∧ Loses id extend (uses d nodes) c

/-- A use without a condition, or one that is left, is there under the defines. -/
def Covered (defines : String → Bool) (nodes : List Node) (d : Declaration) : Prop :=
  none ∈ uses d nodes ∨ ∃ c ∈ keptOf id extend (uses d nodes), IsTrue defines c

section

variable {nodes : List Node} {d : Declaration} {node : Node} {m : Mapping}

theorem wellFormed_uses (hw : ∀ n ∈ nodes, Regular n) : ∀ c ∈ uses d nodes, WellFormed c :=
  each_uses Condition.composes_formal fun n hn => (hw n hn).each

theorem holds_declarationCondition_iff (hw : ∀ n ∈ nodes, Regular n)
    (hn : node ∈ consumersOf d nodes) :
    Holds defines (declarationCondition d nodes) ↔ Covered defines nodes d := by
  rw [declarationCondition_eq, Covered]
  exact holds_together_iff begins_id adds_extend (wellFormed_uses hw)
    (List.ne_nil_of_mem (List.mem_map_of_mem hn))

/-- A need that was not passed over is met. -/
theorem Needed.holds (h : Needed defines nodes d node m) (hw : ∀ n ∈ nodes, Regular n)
    (hp : ¬ PassedOver nodes d node m) : Holds defines (declarationCondition d nodes) := by
  have hreads : m ∈ node.inputs.filter (·.reads d.id) :=
    List.mem_filter.mpr ⟨h.mapping, by simp [Mapping.reads, h.reads]⟩
  have hreading : Holds defines (readingCondition node d.id) := by
    rw [readingCondition_eq]
    exact holds_together begins_wrapped adds_widen
      ((hw node (mem_of_mem_consumersOf h.consumer)).each.readings d.id)
      (List.mem_map_of_mem hreads)
      (fun c hc hl => hp (Or.inl ⟨c, hc, hl⟩)) h.mappingHolds
  rw [declarationCondition_eq]
  exact holds_together begins_id adds_extend (wellFormed_uses hw) (List.mem_map_of_mem h.consumer)
    (fun c hc hl => hp (Or.inr ⟨c, hc, hl⟩)) (holds_useCondition h.nodeHolds hreading)

end

def stored (r : Registry) (nodes : List Node) (a : Arena) (d : Declaration) : Option String :=
  ((compute r nodes a).2.read d.id).condition

/-- A uniform or varying is there whenever it is needed exactly if the uses that were kept cover
those that were passed over. -/
theorem available_iff_passedOver_covered {r : Registry} {a : Arena} (hr : r.Reached a)
    {nodes : List Node} (hw : ∀ n ∈ nodes, Regular n) {d : Declaration} (hd : d ∈ r.entries)
    (hk : d.key.isAttribute = false) (hs : (a.read d.id).sizeDefine = none) :
    (∀ defines node m, Needed defines nodes d node m → Holds defines (stored r nodes a d)) ↔
      ∀ defines node m, Needed defines nodes d node m → PassedOver nodes d node m →
        Covered defines nodes d := by
  have hstored : stored r nodes a d = declarationCondition d nodes := by
    unfold stored
    rw [compute_condition hr.sound nodes hd hk, settledCondition, hs]
    exact Condition.merge_none_right _ _
  rw [hstored]
  constructor
  · intro h defines node m hneed _
    exact (holds_declarationCondition_iff hw hneed.consumer).mp (h defines node m hneed)
  · intro h defines node m hneed
    by_cases hp : PassedOver nodes d node m
    · exact (holds_declarationCondition_iff hw hneed.consumer).mpr (h defines node m hneed hp)
    · exact hneed.holds hw hp

def litColor : Offered :=
  Registry.empty.offer .empty (.uniform "m_Color") (.plain "vec4" "m_Color") "Lit"

def litDeclaration : Declaration := ⟨.uniform "m_Color", ⟨0⟩, ["Lit"]⟩

theorem reached_lit : litColor.registry.Reached litColor.arena := .offer _ _ _ (.empty _)

/-- The node `Lit`, which reads the uniform by a mapping under each of these conditions. -/
def lit (conditions : List String) : Node where
  name := "Lit"
  definition := ⟨"Lit", none, .fragment, [], none, [], [], false⟩
  condition := none
  inputs := conditions.map fun c => ⟨⟨1⟩, .var ⟨0⟩, "", "", some c⟩
  outputs := []

theorem regular_lit {conditions : List String} (h : ∀ c ∈ conditions, Formal c) :
    ∀ n ∈ [lit conditions], Regular n := by
  intro n hn
  rw [List.mem_singleton.mp hn]
  constructor
  · intro text hc
    cases hc
  · intro m hm text ht
    obtain ⟨c, hc, rfl⟩ := List.mem_map.mp hm
    cases ht
    exact h _ hc

/-- A condition that is passed over because it occurs in a weaker one loses nothing. -/
theorem available_lit_weaker :
    litColor.registry.Reached litColor.arena ∧
    (∀ n ∈ [lit ["defined(A) || defined(B)", "defined(A)"]], Regular n) ∧
    ∀ defines node m,
      Needed defines [lit ["defined(A) || defined(B)", "defined(A)"]] litDeclaration node m →
      Holds defines (stored litColor.registry [lit ["defined(A) || defined(B)", "defined(A)"]]
        litColor.arena litDeclaration) := by
  have either : Formula.read? "defined(A) || defined(B)" =
    some (.or (.test "A") (.test "B")) := by decide
  have one : Formula.read? "defined(A)" = some (.test "A") := by decide
  have hformal : ∀ c ∈ ["defined(A) || defined(B)", "defined(A)"], Formal c := by
    intro c hc
    rcases List.mem_pair.mp hc with rfl | rfl
    · exact ⟨_, either⟩
    · exact ⟨_, one⟩
  refine ⟨reached_lit, regular_lit hformal, ?_⟩
  refine (available_iff_passedOver_covered reached_lit (regular_lit hformal) (by decide) rfl
    rfl).mpr ?_
  intro defines node m h _
  have hnode : node = lit ["defined(A) || defined(B)", "defined(A)"] :=
    List.mem_singleton.mp h.consumer
  have hm : m.condition = some "defined(A) || defined(B)" ∨ m.condition = some "defined(A)" := by
    have := h.mapping
    rw [hnode] at this
    rcases List.mem_pair.mp this with rfl | rfl
    · exact Or.inl rfl
    · exact Or.inr rfl
  have htrue : IsTrue defines "defined(A) || defined(B)" := by
    rcases hm with hm | hm
    · have := h.mappingHolds
      rw [hm] at this
      exact this
    · have := h.mappingHolds
      rw [hm] at this
      have ha : Formula.eval defines (.test "A") = true := (Condition.isTrue_iff_eval one).mp this
      rw [Condition.isTrue_iff_eval either, Formula.eval, ha, Bool.true_or]
  have hkept : keptOf id extend
      (uses litDeclaration [lit ["defined(A) || defined(B)", "defined(A)"]]) =
        ["(defined(A) || defined(B))"] := by decide
  refine Or.inr ⟨"(defined(A) || defined(B))", ?_, ?_⟩
  · rw [hkept]
    exact List.mem_singleton_self _
  · exact (Condition.isTrue_wrapped ⟨_, either⟩).mpr htrue

/-- A condition that is passed over because it occurs in a stronger one is lost: with only `A`
defined the second mapping reads the uniform, and the uniform is not there. -/
theorem passedOver_unavailable :
    litColor.registry.Reached litColor.arena ∧
    (∀ n ∈ [lit ["defined(A) && defined(B)", "defined(A)"]], Regular n) ∧
    Needed (· == "A") [lit ["defined(A) && defined(B)", "defined(A)"]]
      litDeclaration (lit ["defined(A) && defined(B)", "defined(A)"])
      ⟨⟨1⟩, .var ⟨0⟩, "", "", some "defined(A)"⟩ ∧
    ¬ Holds (· == "A") (stored litColor.registry
      [lit ["defined(A) && defined(B)", "defined(A)"]] litColor.arena
      litDeclaration) := by
  have both : Formal "defined(A) && defined(B)" := ⟨.and (.test "A") (.test "B"), by decide⟩
  have one : Formal "defined(A)" := ⟨.test "A", by decide⟩
  refine ⟨reached_lit, regular_lit (by simp [both, one]),
    ⟨by decide, by decide, rfl, trivial, .test "A", by decide, by decide⟩, ?_⟩
  have hstored : stored litColor.registry [lit ["defined(A) && defined(B)", "defined(A)"]]
      litColor.arena litDeclaration = some "(defined(A) && defined(B))" := by
    decide
  rw [hstored]
  rintro ⟨f, hf, ht⟩
  have hread : Formula.read? "(defined(A) && defined(B))" =
    some (.and (.test "A") (.test "B")) := by decide
  rw [hread] at hf
  cases hf
  exact absurd ht (by decide)

end Activation

end ShaderGraph
