/-
  ShaderGraph.Proofs.Separation — composed conditions whose texts are apart.

  A condition is passed over when it occurs in the text composed so far. Where no condition occurs
  in another, none is: an occurrence in a composed text would be one in a condition that it is
  composed of, or hold such a condition.

  - `Renders`: the text is true where it should be, and a formula that occurs in it has to do with
    one of its parts.
  - `renders_useCondition`, `renders_declarationCondition`: so it is for a use and for all uses.
  - `composed_of_separate`: the condition of a declaration reads as the disjunction over its
    consumers, each with the condition of its node and one of the mappings that read the variable.
-/

import ShaderGraph.Proofs.Comments
import ShaderGraph.Proofs.Nesting
import ShaderGraph.Proofs.Unguarded

namespace ShaderGraph

namespace Activation

open Condition (Formal IsTrue Holds Formula Framed Parted)

/-! ## Texts that are apart -/

def useTexts (node : Node) (id : VarId) : List String :=
  node.condition.toList ++ (readings node id).filterMap fun c => c

def neededTexts (d : Declaration) (nodes : List Node) : List String :=
  (consumersOf d nodes).flatMap (useTexts · d.id)

/-- No text of the list occurs in another, and none is there twice. -/
def Separate (texts : List String) : Prop :=
  texts.Pairwise fun a b => occurs a b = false ∧ occurs b a = false

theorem occurs_eq_false_iff {text whole : String} :
    occurs text whole = false ↔ ¬ text.toList <:+: whole.toList := by
  rw [← Text.breakAt?_eq_none_iff, occurs, Text.occursIn, Option.isSome_eq_false_iff,
    Option.isNone_iff_eq_none]

/-- The text is a formula that is true where `holds` says, and has only these parts. -/
structure Renders (parts : List String) (holds : (String → Bool) → Prop) (text : String) :
    Prop where
  formal : Formal text
  parted : Parted parts text.toList
  part : ∃ part ∈ parts, Formal part ∧ part.toList <:+: text.toList
  isTrue_iff : ∀ defines, IsTrue defines text ↔ holds defines

section

variable {parts parts' : List String} {holds holds' : (String → Bool) → Prop} {a b c text : String}
  {node : Node} {id : VarId}

theorem renders_self (h : Formal text) : Renders [text] (IsTrue · text) text where
  formal := h
  parted := fun _ _ ho => ⟨text, List.mem_singleton_self text, Or.inl ho⟩
  part := ⟨text, List.mem_singleton_self text, h, List.infix_refl _⟩
  isTrue_iff := fun _ => Iff.rfl

theorem Renders.of_subset (h : Renders parts holds text) (hp : parts ⊆ parts')
    (hh : ∀ defines, holds defines ↔ holds' defines) : Renders parts' holds' text := by
  obtain ⟨part, hmem, hpart⟩ := h.part
  refine ⟨h.formal, fun c hc ho => ?_, ⟨part, hp hmem, hpart⟩, fun defines => ?_⟩
  · obtain ⟨part, hmem, hocc⟩ := h.parted c hc ho
    exact ⟨part, hp hmem, hocc⟩
  · rw [h.isTrue_iff, hh]

/-- What is parted occurs nowhere among parts that are apart from its own. -/
theorem Renders.occurs_eq_false (ha : Parted parts a.toList) (hb : Renders parts' holds b)
    (hs : Separate (parts ++ parts')) : occurs b a = false := by
  rw [occurs_eq_false_iff]
  intro ho
  obtain ⟨part', hmem', hformal, hpart⟩ := hb.part
  obtain ⟨part, hmem, hocc⟩ := ha part' hformal (hpart.trans ho)
  obtain ⟨hout, hin⟩ := (List.pairwise_append.mp hs).2.2 part hmem part' hmem'
  rw [occurs_eq_false_iff] at hout hin
  exact hocc.elim hin hout

/-- Two texts in parentheses, one after the other, have the parts of both. -/
theorem Renders.parted_append (ha : Renders parts holds a) (hb : Renders parts' holds' b)
    {between : List Char} (hd : 'd' ∉ between) :
    Parted (parts ++ parts')
      ('(' :: (a.toList ++ ')' :: between) ++ '(' :: (b.toList ++ [')'])) := by
  have hframed : Framed [a, b] _ := ((Framed.nil List.not_mem_nil).snoc hd).snoc List.not_mem_nil
  have hformal : ∀ part ∈ [a, b], Formal part := by simp [ha.formal, hb.formal]
  refine (hframed.parted hformal).trans ?_
  have hleft : Parted (parts ++ parts') a.toList := fun text ht ho => by
    obtain ⟨part, hmem, hocc⟩ := ha.parted text ht ho
    exact ⟨part, List.mem_append_left _ hmem, hocc⟩
  have hright : Parted (parts ++ parts') b.toList := fun text ht ho => by
    obtain ⟨part, hmem, hocc⟩ := hb.parted text ht ho
    exact ⟨part, List.mem_append_right _ hmem, hocc⟩
  obtain ⟨part, hmem, -, hpart⟩ := ha.part
  obtain ⟨part', hmem', -, hpart'⟩ := hb.part
  intro text ht
  rcases List.mem_pair.mp ht with rfl | rfl
  · exact ⟨hleft, part, List.mem_append_left _ hmem, hpart⟩
  · exact ⟨hright, part', List.mem_append_right _ hmem', hpart'⟩

/-- What is composed of two texts in parentheses says what they say, joined by the operator. -/
theorem Renders.joined {op : Prop → Prop → Prop} {between : List Char} (ha : Renders parts holds a)
    (hb : Renders parts' holds' b) (hd : 'd' ∉ between)
    (ht : text.toList = '(' :: (a.toList ++ ')' :: between) ++ '(' :: (b.toList ++ [')']))
    (hr : ∀ f g, Formula.read? a = some f → Formula.read? b = some g →
      ∃ e, Formula.read? text = some e ∧
        ∀ defines, e.eval defines = true ↔ op (f.eval defines = true) (g.eval defines = true)) :
    Renders (parts ++ parts') (fun defines => op (holds defines) (holds' defines)) text := by
  obtain ⟨f, hf⟩ := ha.formal
  obtain ⟨g, hg⟩ := hb.formal
  obtain ⟨e, he, heval⟩ := hr f g hf hg
  obtain ⟨part, hmem, hformal, hpart⟩ := ha.part
  have hin : a.toList <:+: text.toList := by
    rw [ht]
    exact ⟨['('], ')' :: between ++ '(' :: (b.toList ++ [')']), by simp⟩
  refine ⟨⟨e, he⟩, ?_, ⟨part, List.mem_append_left _ hmem, hformal, hpart.trans hin⟩, ?_⟩
  · rw [ht]
    exact ha.parted_append hb hd
  · intro defines
    rw [Condition.isTrue_iff_eval he, heval, ← Condition.isTrue_iff_eval hf,
      ← Condition.isTrue_iff_eval hg, ha.isTrue_iff, hb.isTrue_iff]

theorem Renders.joined_and (ha : Renders parts holds a) (hb : Renders parts' holds' b) :
    Renders (parts ++ parts') (fun defines => holds defines ∧ holds' defines)
      s!"({a}) && ({b})" := by
  have ht : s!"({a}) && ({b})".toList =
      '(' :: (a.toList ++ ')' :: " && ".toList) ++ '(' :: (b.toList ++ [')']) := by
    simp [toString]
  refine ha.joined hb (by decide) ht fun f g hf hg => ?_
  exact ⟨_, Formula.read?_joined_and hf hg, fun _ => by rw [Formula.eval, Bool.and_eq_true]⟩

theorem Renders.joined_or (ha : Renders parts holds a) (hb : Renders parts' holds' b) :
    Renders (parts ++ parts') (fun defines => holds defines ∨ holds' defines)
      s!"({a}) || ({b})" := by
  have ht : s!"({a}) || ({b})".toList =
      '(' :: (a.toList ++ ')' :: " || ".toList) ++ '(' :: (b.toList ++ [')']) := by
    simp [toString]
  refine ha.joined hb (by decide) ht fun f g hf hg => ?_
  exact ⟨_, Formula.read?_joined_or hf hg, fun _ => by rw [Formula.eval, Bool.or_eq_true]⟩

end

/-! ## Readings, uses, consumers -/

structure Widened (parts : List String) (text : String) : Prop where
  formal : Formal text
  framed : Framed parts text.toList
  isTrue_iff : ∀ defines, IsTrue defines text ↔ ∃ part ∈ parts, IsTrue defines part

section

variable {parts cs : List String} {a c text : String} {node : Node} {nodes ns : List Node}
  {id : VarId} {d : Declaration}

theorem widened_wrapped (hc : Formal c) : Widened [c] s!"({c})" where
  formal := Condition.formal_wrapped hc
  framed := by
    rw [Formula.toList_parenthesized]
    exact (Framed.nil List.not_mem_nil).snoc List.not_mem_nil
  isTrue_iff defines := by simp [Condition.isTrue_wrapped hc]

theorem Widened.parted (h : Widened parts text) (hf : ∀ part ∈ parts, Formal part) :
    Parted parts text.toList := h.framed.parted hf

/-- A text that is apart from the others is added. -/
theorem Widened.widen (h : Widened parts a) (hf : ∀ part ∈ parts, Formal part) (hc : Formal c)
    (hs : Separate (parts ++ [c])) : Widened (parts ++ [c]) (widen a c) := by
  have hout : occurs c a = false := (renders_self hc).occurs_eq_false (h.parted hf) hs
  refine ⟨adds_widen.formal h.formal hc, ?_, fun defines => ?_⟩
  · have ht : (Activation.widen a c).toList =
        (a.toList ++ " || ".toList) ++ '(' :: (c.toList ++ [')']) := by
      rw [Activation.widen, if_neg (by simp [hout])]
      simp [toString]
    rw [ht]
    exact (h.framed.append (by decide)).snoc List.not_mem_nil
  · rw [adds_widen.isTrue_iff h.formal hc hout, h.isTrue_iff]
    simp [or_and_right, exists_or]

theorem Widened.foldl (h : Widened parts a) (hf : ∀ c ∈ parts ++ cs, Formal c)
    (hs : Separate (parts ++ cs)) : Widened (parts ++ cs) (cs.foldl Activation.widen a) := by
  induction cs generalizing parts a with
  | nil => simpa using h
  | cons c cs ih =>
    rw [List.append_cons] at hf hs ⊢
    have hparts : ∀ part ∈ parts, Formal part := fun part hmem => hf part (by simp [hmem])
    have hwiden := h.widen hparts (hf c (by simp)) (List.pairwise_append.mp hs).1
    exact ih hwiden hf hs

theorem together_map_some (first : String → String) (more : String → String → String) (c : String)
    (cs : List String) :
    together first more ((c :: cs).map some) = some (cs.foldl more (first c)) := by
  rcases mapM_id_cases ((c :: cs).map some) with ⟨hn, -⟩ | ⟨cs', hcs, h⟩
  · simp at hn
  · obtain rfl := List.map_injective_iff.mpr (Option.some_injective String) hcs
    rw [together, h]
    rfl

/-- Readings that all have a condition are needed where one of these is true. -/
theorem widened_readingCondition (hr : readings node id = cs.map some) (hne : cs ≠ [])
    (hf : ∀ c ∈ cs, Formal c) (hs : Separate cs) :
    ∃ text, readingCondition node id = some text ∧ Widened cs text := by
  obtain ⟨c, cs, rfl⟩ := List.exists_cons_of_ne_nil hne
  refine ⟨cs.foldl widen s!"({c})", ?_, ?_⟩
  · rw [readingCondition_eq, hr, together_map_some]
  · have hfirst : Widened [c] s!"({c})" := widened_wrapped (hf c List.mem_cons_self)
    exact hfirst.foldl hf hs

def Used (node : Node) (id : VarId) (defines : String → Bool) : Prop :=
  Holds defines node.condition ∧
    ∃ m ∈ node.inputs, m.source = .var id ∧ Holds defines m.condition

theorem exists_holds_iff {defines : String → Bool} :
    (∃ m ∈ node.inputs, m.source = .var id ∧ Holds defines m.condition) ↔
      ∃ c ∈ readings node id, Holds defines c := by
  simp [readings, Mapping.reads, and_assoc]

theorem Widened.renders (h : Widened cs text) (hf : ∀ c ∈ cs, Formal c) (hne : cs ≠ []) :
    Renders cs (fun defines => ∃ c ∈ cs, IsTrue defines c) text := by
  obtain ⟨c, hc⟩ := List.exists_mem_of_ne_nil cs hne
  exact ⟨h.formal, h.parted hf, ⟨c, hc, hf c hc, h.framed.infix_of_mem hc⟩, h.isTrue_iff⟩

/-- A use is there where its node is and reads. -/
theorem renders_useCondition (hreads : node.reads id = true)
    (hf : ∀ text ∈ useTexts node id, Formal text) (hs : Separate (useTexts node id))
    (hu : useCondition node id = some text) :
    Renders (useTexts node id) (Used node id) text := by
  have hne := readings_ne_nil hreads
  have hused : Used node id = fun defines =>
      Holds defines node.condition ∧ ∃ c ∈ readings node id, Holds defines c :=
    funext fun _ => propext (and_congr_right' exists_holds_iff)
  rw [hused]
  simp only [useCondition] at hu
  rcases mapM_id_cases (readings node id) with ⟨hn, -⟩ | ⟨cs, hcs, -⟩
  · -- a reading without a condition leaves the condition of the node
    have hreading : readingCondition node id = none := by
      rw [readingCondition_eq, together_eq_none_iff]
      exact Or.inl hn
    cases hc : node.condition with
    | none =>
      rw [hc, hreading] at hu
      cases hu
    | some there =>
      rw [hc, hreading] at hu
      cases hu
      have hmem : text ∈ useTexts node id := by simp [useTexts, hc]
      exact (renders_self (hf text hmem)).of_subset (by simp [hmem])
        fun defines => (and_iff_left ⟨none, hn, trivial⟩).symm
  · have htexts : useTexts node id = node.condition.toList ++ cs := by
      simp [useTexts, hcs]
    rw [htexts] at hf hs ⊢
    have hcs_ne : cs ≠ [] := fun h => hne (by rw [hcs, h]; rfl)
    have hformal : ∀ c ∈ cs, Formal c := fun c hc => hf c (List.mem_append_right _ hc)
    obtain ⟨reading, hreading, hwidened⟩ :=
      widened_readingCondition hcs hcs_ne hformal (List.pairwise_append.mp hs).2.1
    have hrenders := hwidened.renders hformal hcs_ne
    have hread : ∀ defines, (∃ c ∈ cs, IsTrue defines c) ↔
        ∃ c ∈ readings node id, Holds defines c := by
      intro defines
      simp [hcs, Holds]
    cases hc : node.condition with
    | none =>
      rw [hc, hreading] at hu
      cases hu
      exact hrenders.of_subset (by simp) fun defines => by
        rw [hread]
        exact (and_iff_right trivial).symm
    | some there =>
      rw [hc] at hf hs
      have hthere : Renders [there] (IsTrue · there) there := renders_self (hf there (by simp))
      have hout : occurs there reading = false := by
        refine hthere.occurs_eq_false hrenders.parted ?_
        exact (List.pairwise_append_comm fun h => h.symm).mp hs
      rw [hc, hreading] at hu
      simp only [hout, Bool.false_eq_true, if_false] at hu
      cases hu
      exact (hthere.joined_and hrenders).of_subset (List.Subset.refl _)
        fun defines => and_congr_right' (hread defines)

theorem renders_uses {texts : List String} (hreads : ∀ n ∈ ns, n.reads id = true)
    (hf : ∀ text ∈ ns.flatMap (useTexts · id), Formal text)
    (hs : Separate (ns.flatMap (useTexts · id)))
    (ht : ns.map (useCondition · id) = texts.map some) :
    List.Forall₂ (fun n text => Renders (useTexts n id) (Used n id) text) ns texts := by
  induction ns generalizing texts with
  | nil =>
    obtain rfl := List.map_eq_nil_iff.mp ht.symm
    exact .nil
  | cons n ns ih =>
    cases texts with
    | nil => cases ht
    | cons text texts =>
      rw [List.map_cons, List.map_cons, List.cons.injEq] at ht
      rw [List.flatMap_cons] at hf hs
      rw [List.forall_mem_append] at hf
      rw [List.forall_mem_cons] at hreads
      obtain ⟨hn, hns, -⟩ := List.pairwise_append.mp hs
      exact .cons (renders_useCondition hreads.1 hf.1 hn ht.1) (ih hreads.2 hf.2 hns ht.2)

/-- The uses of one consumer after the other. -/
theorem renders_foldl_extend {texts : List String} {holds : (String → Bool) → Prop}
    (hu : List.Forall₂ (fun n text => Renders (useTexts n id) (Used n id) text) ns texts)
    (ha : Renders parts holds a) (hs : Separate (parts ++ ns.flatMap (useTexts · id))) :
    Renders (parts ++ ns.flatMap (useTexts · id))
      (fun defines => holds defines ∨ ∃ n ∈ ns, Used n id defines) (texts.foldl extend a) := by
  induction hu generalizing parts holds a with
  | nil => exact ha.of_subset (by simp) (by simp)
  | @cons n text ns texts hn _ ih =>
    rw [List.flatMap_cons, ← List.append_assoc] at hs ⊢
    have hout : occurs text a = false :=
      hn.occurs_eq_false ha.parted (List.pairwise_append.mp hs).1
    have hextend : extend a text = s!"({a}) || ({text})" := by
      rw [extend, if_neg (by simp [hout])]
    rw [List.foldl_cons, hextend]
    exact (ih (ha.joined_or hn) hs).of_subset (List.Subset.refl _) fun defines => by
      simp [or_assoc]

/-- The condition of a declaration whose consumers have conditions that are apart. -/
theorem renders_declarationCondition (hd : d.Serves nodes)
    (hf : ∀ text ∈ neededTexts d nodes, Formal text) (hs : Separate (neededTexts d nodes))
    (ht : declarationCondition d nodes = some text) :
    Renders (neededTexts d nodes) (fun defines => ∃ n ∈ consumersOf d nodes, Used n d.id defines)
      text := by
  have hreads : ∀ n ∈ consumersOf d nodes, n.reads d.id = true := fun n hn => hd.reads_of_mem hn
  rw [declarationCondition_eq, uses] at ht
  unfold neededTexts at hf hs ⊢
  generalize consumersOf d nodes = ns at hreads hf hs ht ⊢
  rcases mapM_id_cases (ns.map (useCondition · d.id)) with ⟨hn, -⟩ | ⟨texts, htexts, -⟩
  · rw [together_eq_none_iff.mpr (Or.inl hn)] at ht
    cases ht
  · have huses := renders_uses hreads hf hs htexts
    cases huses with
    | nil => cases ht
    | @cons n first ns texts hn hrest =>
      rw [htexts, together_map_some] at ht
      cases ht
      exact (renders_foldl_extend hrest hn hs).of_subset (List.Subset.refl _) fun defines => by
        simp

end

end Activation

open Activation (declarationCondition neededTexts Separate consumersOf)
open Condition (Formal Holds Formula)

/-- If the conditions of its consumers are apart, a declaration has no condition exactly if some
consumer uses it always, and otherwise one that is true exactly where some consumer is there and
reads it. -/
theorem composed_of_separate {d : Declaration} {nodes : List Node} (hd : d.Serves nodes)
    (hf : ∀ text ∈ neededTexts d nodes, Formal text) (hs : Separate (neededTexts d nodes)) :
    (declarationCondition d nodes = none ↔
      ∃ n ∈ nodes, n.name ∈ d.consumers ∧ n.condition = none ∧
        ∃ m ∈ n.inputs, m.source = .var d.id ∧ m.condition = none) ∧
    ∀ text, declarationCondition d nodes = some text →
      ∃ f, Formula.read? text = some f ∧ ∀ defines, f.eval defines = true ↔
        ∃ n ∈ nodes, n.name ∈ d.consumers ∧ Holds defines n.condition ∧
          ∃ m ∈ n.inputs, m.source = .var d.id ∧ Holds defines m.condition := by
  refine ⟨hd.declarationCondition_eq_none_iff, fun text ht => ?_⟩
  have hrenders := Activation.renders_declarationCondition hd hf hs ht
  obtain ⟨f, hread⟩ := hrenders.formal
  refine ⟨f, hread, fun defines => ?_⟩
  rw [← Condition.isTrue_iff_eval hread, hrenders.isTrue_iff]
  simp only [hd.mem_consumersOf_iff, Activation.Used, and_assoc]

/-- A node under a condition with two readings, and one without a condition. -/
def litAndShaded : List Node := [
  { Activation.lit ["defined(A)", "defined(B) && defined(C)"] with condition := some "defined(N)" },
  { Activation.lit ["!defined(D)"] with name := "Shaded" }]

def sharedColor : Declaration := ⟨.uniform "m_Color", ⟨0⟩, ["Shaded", "Lit"]⟩

theorem composed_litAndShaded :
    sharedColor.Serves litAndShaded ∧
    (∀ text ∈ neededTexts sharedColor litAndShaded, Formal text) ∧
    Separate (neededTexts sharedColor litAndShaded) ∧
    declarationCondition sharedColor litAndShaded = some
      "((!defined(D))) || ((defined(N)) && ((defined(A)) || (defined(B) && defined(C))))" ∧
    ∃ f, Formula.read?
        "((!defined(D))) || ((defined(N)) && ((defined(A)) || (defined(B) && defined(C))))" =
          some f ∧
      ∀ defines, f.eval defines = true ↔
        ∃ n ∈ litAndShaded, n.name ∈ sharedColor.consumers ∧ Holds defines n.condition ∧
          ∃ m ∈ n.inputs, m.source = .var sharedColor.id ∧ Holds defines m.condition := by
  have hserves : sharedColor.Serves litAndShaded :=
    ⟨by decide, by decide, by decide, by decide⟩
  have hformal : ∀ text ∈ neededTexts sharedColor litAndShaded, Formal text := by decide +kernel
  have hseparate : Separate (neededTexts sharedColor litAndShaded) := by
    unfold Separate
    decide +kernel
  have hcondition : declarationCondition sharedColor litAndShaded = some
      "((!defined(D))) || ((defined(N)) && ((defined(A)) || (defined(B) && defined(C))))" := by
    decide +kernel
  exact ⟨hserves, hformal, hseparate, hcondition,
    (composed_of_separate hserves hformal hseparate).2 _ hcondition⟩

end ShaderGraph
