/-
  ShaderGraph.Proofs.VaryingInputs — which inputs of vertex nodes are varyings.

  An input of a vertex node is a varying if the fragment stage reads the output of its name. This
  is found out twice. Promoting an output marks the inputs of its node that have its name, while
  later nodes are read; finishing goes over all vertex nodes and looks for inputs that designate
  the variable of a varying. Both find the same inputs: when an output is promoted its node is
  closed, so none of its inputs is read afterwards, and no other node has its name.

  - `Marked`: an input is marked exactly if a varying of its node and its name is declared.
  - `marking_of_reach`: it is so wherever steps lead.
  - `varyingInputs_of_readTechnique`: in every technique that is read, the inputs that are marked
    are those that designate a varying, all of them inputs of vertex nodes, and the conditions of
    these alone are widened, once each.
-/

import ShaderGraph.Proofs.Flow
import ShaderGraph.Proofs.Signatures
import ShaderGraph.Proofs.Widening

namespace ShaderGraph

open Block (Statement)
open Activation (inherited)
open Resolution (StoresGlobal Resolves raiseInputs)

def Technique.HasVarying (t : Technique) (producer output : String) : Prop :=
  DeclKey.varying producer output ∈ t.registry.entries.map (·.key)

def Node.Marked (t : Technique) (n : Node) : Prop :=
  ∀ m ∈ n.inputs, (t.arena.read m.left).isOutput = true ↔
    t.HasVarying n.name (t.arena.read m.left).name

/-! ## Promoting -/

/-- Promoting marks the inputs of the node that have the name, and nothing else. -/
theorem Resolution.get?_raiseInputs_eq (node : Node) (name : String) {a : Arena} {id : VarId}
    {v : Variable} (h : a.get? id = some v) :
    (raiseInputs node name a).get? id =
      some (if v.name = name ∧ ∃ m ∈ node.inputs, m.left = id then v.raised else v) := by
  unfold raiseInputs
  revert v
  induction node.inputs generalizing a with
  | nil => simp
  | cons m ms ih =>
    intro v h
    rw [List.foldl_cons]
    by_cases hm : m.left = id ∧ v.name = name
    · -- raising once more does not change it
      have hv : (a.update m.left fun v => if v.name == name then { v with isOutput := true } else v
          ).get? id = some v.raised := by
        rw [Arena.get?_update, if_pos hm.1, h, Option.map_some, if_pos (by simpa using hm.2)]
        rfl
      rw [ih hv, if_pos (⟨hm.2, m, List.mem_cons_self, hm.1⟩ :
        v.name = name ∧ ∃ x ∈ m :: ms, x.left = id)]
      split <;> rfl
    · have hv : (a.update m.left fun v => if v.name == name then { v with isOutput := true } else v
          ).get? id = some v := by
        rw [Arena.get?_update]
        split
        · next hid =>
          have hname : ¬ v.name = name := fun hn => hm ⟨hid, hn⟩
          rw [h, Option.map_some, if_neg (by simpa using hname)]
        · exact h
      have hiff : (v.name = name ∧ ∃ x ∈ m :: ms, x.left = id) ↔
          v.name = name ∧ ∃ x ∈ ms, x.left = id := by
        simp only [List.exists_mem_cons_iff]
        tauto
      rw [ih hv]
      simp only [hiff]

section

variable {catalog : Catalog} {reference : Reference} {consumer : Consumer}
  {t t' : Technique} {left left' v : Variable} {id : VarId} {n node : Node} {key : DeclKey}
  {o : Offered} {producer output : String} {R W : VarId → Prop}

/-! ## Marks and offers -/

/-- An offer declares its own key and no other. -/
theorem mem_keys_offer {key' : DeclKey} (ho : o = t.offer key v consumer) :
    key' ∈ o.registry.entries.map (·.key) ↔
      key' ∈ t.registry.entries.map (·.key) ∨ key' = key := by
  unfold Technique.offer at ho
  rcases Registry.offer_cases t.registry t.arena key v consumer.name with
    ⟨d, hd, hkey, hcase⟩ | ⟨-, hcase⟩
  · rw [ho, hcase, Registry.map_key_addConsumer]
    refine ⟨Or.inl, ?_⟩
    rintro (hmem | rfl)
    · exact hmem
    · exact List.mem_map.mpr ⟨d, hd, hkey⟩
  · rw [ho, hcase, Registry.map_key_addDeclaration, List.mem_append, List.mem_singleton]

theorem get?_offer (ho : o = t.offer key v consumer) {w : Variable}
    (hw : t.arena.get? id = some w) : o.arena.get? id = some w := by
  unfold Technique.offer at ho
  rcases Registry.offer_cases t.registry t.arena key v consumer.name with
    ⟨_, -, -, hcase⟩ | ⟨-, hcase⟩
  · rw [ho, hcase]
    exact hw
  · rw [ho, hcase]
    exact Arena.get?_add_of_get? hw v

def Node.Owns (t : Technique) (n : Node) : Prop :=
  ∀ m ∈ n.inputs, ∃ v, t.arena.get? m.left = some v ∧ v.origin = some (.node n.name)

theorem Node.Owns.keep (h : n.Owns t) (hk : t.arena.Keeps t'.arena) : n.Owns t' := by
  intro m hm
  obtain ⟨v, hv, horigin⟩ := h m hm
  obtain ⟨w, hw, hcore⟩ := hk m.left v hv
  exact ⟨w, hw, (Variable.core_eq_iff.mp hcore).2.2.1.trans horigin⟩

/-- The marks do not change where the variables of the node and the varyings do not. -/
theorem Node.Marked.keep (h : n.Marked t) (ho : n.Owns t)
    (hget : ∀ id v, t.arena.get? id = some v → t'.arena.get? id = some v)
    (hkeys : ∀ producer output, t'.HasVarying producer output ↔ t.HasVarying producer output) :
    n.Marked t' := by
  intro m hm
  obtain ⟨v, hv, -⟩ := ho m hm
  have hmarked := h m hm
  rw [Arena.read_of_get? hv] at hmarked
  rw [Arena.read_of_get? (hget _ v hv), hkeys]
  exact hmarked

/-- An offer of another kind declares no varying. -/
theorem hasVarying_offer (ho : o = t.offer key v consumer) (hk : key.isVarying = false)
    (hregistry : t'.registry = o.registry) :
    t'.HasVarying producer output ↔ t.HasVarying producer output := by
  unfold Technique.HasVarying
  rw [hregistry, mem_keys_offer ho]
  refine ⟨?_, Or.inl⟩
  rintro (hmem | rfl)
  · exact hmem
  · cases hk

theorem Resolution.StoresGlobal.get? {stage : Stage} (h : StoresGlobal v stage t id t')
    {x : VarId} {w : Variable} (hw : t.arena.get? x = some w) : t'.arena.get? x = some w := by
  cases h with
  | vertexFound _ _ => exact hw
  | fragmentFound _ => exact hw
  | vertexNew _ => exact Arena.get?_add_of_get? hw _
  | fragmentNew _ => exact Arena.get?_add_of_get? hw _
  | other _ _ => exact Arena.get?_add_of_get? hw _

/-- Promoting an output of a node marks its inputs of that name, which are varyings from then on.
The other inputs of the node have other names, and those of other nodes other producers. -/
theorem Node.Marked.varying (h : n.Marked t) (hn : n.Owns t) (hnode : node.Owns t)
    (hname : n.name = node.name → n = node)
    (ho : o = t.offer (.varying node.name output) v consumer)
    (hregistry : t'.registry = o.registry)
    (harena : t'.arena = raiseInputs node output o.arena) : n.Marked t' := by
  intro m hm
  obtain ⟨w, hw, horigin⟩ := hn m hm
  have hmarked := h m hm
  rw [Arena.read_of_get? hw] at hmarked
  have hkeys : t'.HasVarying n.name w.name ↔
      t.HasVarying n.name w.name ∨ n.name = node.name ∧ w.name = output := by
    unfold Technique.HasVarying
    rw [hregistry, mem_keys_offer ho, DeclKey.varying.injEq]
  have hraised := Resolution.get?_raiseInputs_eq node output (get?_offer ho hw)
  rw [← harena] at hraised
  by_cases hvarying : n.name = node.name ∧ w.name = output
  · obtain rfl := hname hvarying.1
    rw [if_pos ⟨hvarying.2, m, hm, rfl⟩] at hraised
    rw [Arena.read_of_get? hraised]
    exact iff_of_true rfl (hkeys.mpr (Or.inr hvarying))
  · have hnone : ¬ (w.name = output ∧ ∃ m' ∈ node.inputs, m'.left = m.left) := by
      rintro ⟨hout, m', hm', hleft⟩
      obtain ⟨w', hw', horigin'⟩ := hnode m' hm'
      rw [hleft, hw] at hw'
      cases hw'
      rw [horigin, Option.some.injEq, Namespace.node.injEq] at horigin'
      exact hvarying ⟨horigin', hout⟩
    rw [if_neg hnone] at hraised
    rw [Arena.read_of_get? hraised, hmarked, hkeys]
    exact ⟨Or.inl, fun hk => hk.resolve_right hvarying⟩

/-- Whichever way a reference is found, the marks stay right. -/
theorem Node.Marked.resolves (h : n.Marked t) (hexact : Exact t R W) (hn : n.Owns t)
    (hnodes : ∀ q ∈ t.nodes, q.Owns t ∧ (n.name = q.name → n = q))
    (hr : Resolves catalog reference consumer t left id t' left') : n.Marked t' := by
  cases hr with
  | global _ hs =>
    refine h.keep hn (fun _ _ hw => hs.get? hw) fun _ _ => ?_
    rw [Technique.HasVarying, hs.sameDeclarations.registry, Technique.HasVarying]
  | vertexAttribute _ _ ho =>
    exact h.keep hn (fun _ _ hw => get?_offer ho hw) fun _ _ => hasVarying_offer ho rfl rfl
  | materialParameter _ _ hs _ ho =>
    obtain ⟨defines, rfl⟩ := hs.frame
    refine h.keep hn (fun _ _ hw => ?_) fun _ _ => ?_
    · exact get?_offer ho hw
    · exact hasVarying_offer ho rfl rfl
  | worldParameter _ _ ho =>
    exact h.keep hn (fun _ _ hw => get?_offer ho hw) fun _ _ => hasVarying_offer ho rfl rfl
  | output _ _ _ _ =>
    exact h.keep hn (fun _ _ hw => Arena.get?_add_of_get? hw _) fun _ _ => Iff.rfl
  | @varying _ node output o _ hnode _ _ _ ho =>
    obtain ⟨howns, hname⟩ := hnodes node (List.mem_of_find?_eq_some hnode)
    obtain ⟨w, hw, ⟨-, hout, -⟩, -⟩ := hexact.names_offered (names_outputVariable _ _) ho
    refine h.varying hn howns hname ho rfl ?_
    rw [← hout, ← Arena.read_of_get? hw]

/-- The left side is an output of its stage no sooner than it is promoted. -/
theorem Resolution.Resolves.left_isOutput
    (hr : Resolves catalog reference consumer t left id t' left') :
    left'.isOutput = left.isOutput := by
  cases hr with
  | materialParameter _ _ hs _ _ => cases hs <;> rfl
  | _ => rfl

end

/-! ## Every step -/

def Marking (p : Progress) : Prop := ∀ n ∈ p.nodes, n.Marked p.technique

section

variable {context : Context} {p q : Progress} {t t' : Technique} {library library' : List Definition}
  {node : Node}

theorem NodeTyped.owns {n : Node} (h : NodeTyped t.arena n) : n.Owns t := by
  intro m hm
  obtain ⟨v, input, hv, -, hcore⟩ := (h.inputs m hm).left
  exact ⟨v, hv, (Variable.core_eq_iff.mp hcore).2.2.1⟩

/-- The nodes before another one are closed. -/
theorem before_subset_of_nodes {before after : List Node} {n : Node}
    (h : p.nodes = before ++ n :: after) : before ⊆ p.technique.nodes := by
  have hlen : p.technique.nodes.length + p.current.toList.length =
      before.length + (after.length + 1) := by
    rw [← List.length_append, ← List.length_cons (a := n), ← List.length_append, ← h]
    rfl
  have hone : p.current.toList.length ≤ 1 := by cases p.current <;> simp
  have hprefix : before <+: p.nodes := h ▸ List.prefix_append before _
  exact (List.prefix_of_prefix_length_le hprefix (List.prefix_append _ _) (by omega)).subset

/-- Every varying that is declared is made by a closed node of the vertex stage. -/
theorem Flowing.producer (h : Flowing p) (hp : p.Coherent) {producer output : String}
    (hv : p.technique.HasVarying producer output) :
    ∃ n ∈ p.technique.nodes, n.name = producer ∧ n.stage = .vertex := by
  obtain ⟨d, hd, hkey⟩ := List.mem_map.mp hv
  obtain ⟨m, hm, hs⟩ := hp.exact.read d hd
  obtain ⟨n, hn, hmn⟩ := List.mem_flatMap.mp hm
  obtain ⟨before, after, hsplit⟩ := List.append_of_mem hn
  have hbefore : before ⊆ p.technique.nodes := before_subset_of_nodes hsplit
  unfold Flowing at h
  rw [hsplit] at h
  obtain ⟨v, hv, hsupplied⟩ := h.admitted_at m hmn d.id hs
  obtain ⟨v', hv', hnames⟩ := hp.exact.names d hd
  rw [hv] at hv'
  cases hv'
  rw [hkey] at hnames
  obtain ⟨q, hq, hmakes, hcrosses⟩ := hsupplied producer hnames.1
  have hdeclared : p.technique.Declared d.id := List.mem_map_of_mem hd
  refine ⟨q, hbefore hq, ?_, ?_⟩
  · simpa [hnames.1] using hmakes.origin.symm
  · rcases hcrosses with ⟨-, hundeclared⟩ | ⟨hvertex, -⟩
    · exact absurd hdeclared hundeclared
    · exact hvertex

/-- The names of closed nodes are not that of the open one. -/
theorem Progress.Coherent.name_notMem (hp : Progress.Coherent ⟨t, library, some node⟩) :
    node.name ∉ t.nodes.map (·.name) := by
  have hnames := hp.names
  rw [show Progress.nodes ⟨t, library, some node⟩ = t.nodes ++ [node] from rfl, List.map_append,
    List.nodup_append] at hnames
  exact fun hmem => hnames.2.2 _ hmem _ (List.mem_singleton_self _) rfl

/-- No two nodes have one name. -/
theorem Progress.Coherent.eq_of_name (hp : p.Coherent) {n n' : Node} (hn : n ∈ p.nodes)
    (hn' : n' ∈ p.nodes) (hname : n.name = n'.name) : n = n' :=
  List.inj_on_of_nodup_map hp.names hn hn' hname

/-- An input that is read is not marked: its node is open, so none of its outputs is a varying. -/
theorem marked_new {m : Mapping} (hbare : Progress.Bare ⟨t, library, some node⟩)
    (hi : ReadsInput context.catalog node t m t')
    (hq : Progress.Coherent ⟨t', library, some (node.withInput m)⟩)
    (hflow : Flowing ⟨t', library, some (node.withInput m)⟩) :
    (t'.arena.read m.left).isOutput = true ↔
      t'.HasVarying node.name (t'.arena.read m.left).name := by
  have hnone : ∀ output, ¬ t'.HasVarying node.name output := by
    intro output hv
    obtain ⟨n, hn, hname, -⟩ := hflow.producer hq hv
    exact hq.name_notMem (List.mem_map.mpr ⟨n, hn, hname⟩)
  refine iff_of_false ?_ (hnone _)
  cases hi with
  | @code _ _ _ input _ t₁ hin _ =>
    have hinput := (hbare.current node rfl).input hin
    show ¬ ((t₁.arena.add (input.ofNode node.name)).read t₁.arena.nextId).isOutput = true
    rw [Arena.read_of_get? (Arena.get?_add_nextId _ _)]
    exact Bool.eq_false_iff.mp hinput.isOutput
  | @reference _ _ input left _ reference _ t₁ t₂ hin _ _ hr _ =>
    have hinput := (hbare.current node rfl).input hin
    obtain ⟨unused, hu⟩ := markProducer_eq t₂ reference
    rw [hu]
    show ¬ ((t₂.arena.add left).read t₂.arena.nextId).isOutput = true
    rw [Arena.read_of_get? (Arena.get?_add_nextId _ _), hr.left_isOutput]
    exact Bool.eq_false_iff.mp hinput.isOutput

theorem Node.Marked.readsInput {catalog : Catalog} {n : Node} {m : Mapping} {R W : VarId → Prop}
    (h : n.Marked t) (hexact : Exact t R W) (hstored : Stored t) (hn : n.Owns t)
    (hnodes : ∀ q ∈ t.nodes, q.Owns t ∧ (n.name = q.name → n = q))
    (hi : ReadsInput catalog node t m t') : n.Marked t' := by
  cases hi with
  | code _ hc =>
    obtain ⟨defines, rfl⟩ := hc.frame
    exact h.keep hn (fun _ _ hw => Arena.get?_add_of_get? hw _) fun _ _ => Iff.rfl
  | @reference _ _ _ left _ reference _ _ t₂ _ hc _ hr _ =>
    obtain ⟨defines, rfl⟩ := hc.frame
    obtain ⟨unused, hu⟩ := markProducer_eq t₂ reference
    have hmarked : n.Marked { t with defines } := h
    have hexact' : Exact { t with defines } R W := hexact.congr rfl rfl rfl
    have hstored' : Stored { t with defines } := hstored.keep (Arena.Keeps.refl _) rfl rfl
    have howns : n.Owns t₂ := hn.keep (hstored'.resolves hr).2.1
    rw [hu]
    exact (hmarked.resolves hexact' hn hnodes hr).keep howns
      (fun _ _ hw => Arena.get?_add_of_get? hw left) fun _ _ => Iff.rfl

theorem Marking.step (h : Marking p) (hp : p.Coherent) (htyped : Typed p) (hbare : p.Bare)
    (hq : q.Coherent) (hflow : Flowing q) (hs : Step context p q) : Marking q := by
  have howns : ∀ n ∈ p.nodes, n.Owns p.technique := fun n hn => (htyped.nodes n hn).owns
  cases hs with
  | @opened t library library' name line definition _ _ =>
    obtain ⟨unused, hu⟩ := markOpened_eq t name definition
    rw [hu]
    intro n hn
    rcases mem_progress_nodes.mp hn with hn | rfl
    · exact h n (List.mem_append_left _ hn)
    · exact fun m hm => absurd hm List.not_mem_nil
  | @condition t t' library node condition hc =>
    obtain ⟨defines, rfl⟩ := hc.frame
    intro n hn
    rcases mem_progress_nodes.mp hn with hn | rfl
    · exact h n (List.mem_append_left _ hn)
    · exact h node (mem_progress_nodes.mpr (Or.inr rfl))
  | @input t t' library node m hi =>
    have hold : ∀ n ∈ Progress.nodes ⟨t, library, some node⟩, n.Marked t' := by
      intro n hn
      refine (h n hn).readsInput hp.exact htyped.stored (howns n hn) (fun q hq => ?_) hi
      have hq : q ∈ Progress.nodes ⟨t, library, some node⟩ := List.mem_append_left _ hq
      exact ⟨howns q hq, hp.eq_of_name hn hq⟩
    intro n hn
    rcases mem_progress_nodes.mp hn with hn | rfl
    · rw [hi.nodes] at hn
      exact hold n (List.mem_append_left _ hn)
    · refine List.forall_mem_append.mpr ⟨hold node (mem_progress_nodes.mpr (Or.inr rfl)), ?_⟩
      have hnew := marked_new hbare hi hq hflow
      exact List.forall_mem_singleton.mpr hnew
  | @output t t' library node m ho =>
    have hold : ∀ n ∈ Progress.nodes ⟨t, library, some node⟩, n.Marked t' := by
      intro n hn
      cases ho with
      | mk _ _ _ hc hg =>
        obtain ⟨defines, rfl⟩ := hc.frame
        refine (h n hn).keep (howns n hn)
          (fun _ _ hw => Arena.get?_add_of_get? (hg.get? hw) _) fun _ _ => ?_
        show _ ∈ _ ↔ _
        rw [Technique.HasVarying, ← hg.sameDeclarations.registry]
        rfl
    intro n hn
    rcases mem_progress_nodes.mp hn with hn | rfl
    · rw [ho.nodes] at hn
      exact hold n (List.mem_append_left _ hn)
    · exact hold node (mem_progress_nodes.mpr (Or.inr rfl))
  | @closed t library node =>
    intro n hn
    rw [nodes_between] at hn
    exact h n hn

theorem marking_of_reach {statement : Statement} {draft : Draft}
    (hd : Drafts context statement draft) (h : Reach context draft.progress p) : Marking p := by
  have hblank := blank_of_drafts hd
  induction h with
  | start =>
    intro n hn
    simp [Progress.nodes, Draft.progress, hblank.nodes] at hn
  | step hr hs ih =>
    exact ih.step (coherent_of_reach hblank hr) (typed_of_reach hblank hr) (bare_of_reach hd hr)
      (coherent_of_reach hblank (hr.step hs)) (flowing_of_reach hblank (hr.step hs)) hs

end

/-! ## Finished techniques -/

namespace Technique

/-- What finishing makes of an input mapping: one to a varying is needed where the varying is as
well, and any other is kept. -/
structure Inherits (t : Technique) (m m' : Mapping) : Prop where
  unguarded : ∀ d, t.Aliases m.left d → (t.arena.read d.id).condition = none →
    m' = m.withCondition none
  first : ∀ d, t.Aliases m.left d → m.condition = none →
    m' = m.withCondition (t.arena.read d.id).condition
  widened : ∀ d, t.Aliases m.left d → ∀ own varying, m.condition = some own →
    (t.arena.read d.id).condition = some varying →
    m' = m.withCondition (some s!"({own}) || ({varying})")
  kept : (∀ d, ¬ t.Aliases m.left d) → m' = m

def FinishesNode (t : Technique) (n n' : Node) : Prop :=
  n' = { n with inputs := n'.inputs } ∧ List.Forall₂ t.Inherits n.inputs n'.inputs

/-- In a finished technique the inputs that are varyings are the same by their marks, by the
varyings of their nodes and by what they designate; and finishing it from `t₀` changed the
conditions of these alone. -/
structure VaryingInputs (t₀ t : Technique) : Prop where
  vertex : ∀ n ∈ t.nodes, n.stage = .vertex → ∀ m ∈ n.inputs,
    ((t.arena.read m.left).isOutput = true ↔ t.HasVarying n.name (t.arena.read m.left).name) ∧
    (t.HasVarying n.name (t.arena.read m.left).name ↔ ∃ d, t.Aliases m.left d)
  other : ∀ n ∈ t.nodes, n.stage ≠ .vertex → ∀ m ∈ n.inputs,
    (t.arena.read m.left).isOutput = false
  finished : List.Forall₂ t.FinishesNode t₀.nodes t.nodes

end Technique

section

variable {t : Technique} {n : Node} {m : Mapping} {R W : VarId → Prop}

/-- An input of a node designates a varying exactly if the node has a varying of its name. -/
theorem Exact.hasVarying_iff (h : Exact t R W) (hn : n.Owns t) (hm : m ∈ n.inputs) :
    t.HasVarying n.name (t.arena.read m.left).name ↔ ∃ d, t.Aliases m.left d := by
  obtain ⟨v, hv, horigin⟩ := hn m hm
  rw [Arena.read_of_get? hv]
  constructor
  · intro hvarying
    obtain ⟨d, hd, hkey⟩ := List.mem_map.mp hvarying
    obtain ⟨w, hw, hnames⟩ := h.names d hd
    rw [hkey] at hnames
    refine ⟨d, hd, by rw [hkey]; rfl, ?_⟩
    rw [Arena.read_of_get? hv, Arena.read_of_get? hw]
    simp [Variable.sameAs, horigin, hnames.1, hnames.2.1]
  · rintro ⟨d, hd⟩
    obtain ⟨w, hw, hnames⟩ := h.names d hd.declared
    have hsame := hd.same
    simp only [Arena.read_of_get? hv, Arena.read_of_get? hw, Variable.sameAs, Bool.and_eq_true,
      beq_iff_eq] at hsame
    cases hkey : d.key with
    | varying producer output =>
      rw [hkey] at hnames
      obtain ⟨horigin', hname, -⟩ := hnames
      have hproducer : n.name = producer := by
        simpa [horigin, horigin'] using hsame.1
      rw [hproducer, hsame.2, hname]
      exact List.mem_map.mpr ⟨d, hd.declared, hkey⟩
    | _ =>
      have hvarying := hd.varying
      rw [hkey] at hvarying
      cases hvarying

theorem Node.Owns.settled (ho : n.Owns t) (h : Exact t R W) :
    (t.settledNode n).Owns t.finish := by
  intro m' hm'
  obtain ⟨m, hm, rfl⟩ := List.mem_map.mp hm'
  rw [(h.settles n.stage m).left_eq]
  exact ho.keep t.keeps_finish m hm

/-- Finishing does not change the marks. -/
theorem Node.Marked.settled (hn : n.Marked t) (ho : n.Owns t) (h : Exact t R W) :
    (t.settledNode n).Marked t.finish := by
  intro m' hm'
  obtain ⟨m, hm, rfl⟩ := List.mem_map.mp hm'
  obtain ⟨v, hv, -⟩ := ho m hm
  obtain ⟨c, hc⟩ := Technique.finish_get? hv
  have hmarked := hn m hm
  rw [Arena.read_of_get? hv] at hmarked
  rw [(h.settles n.stage m).left_eq, Arena.read_of_get? hc]
  exact hmarked

/-- A mapping of a node of any stage inherits, since only inputs of vertex nodes are varyings. -/
theorem Exact.inherits (h : Exact t R W)
    (hvertex : ∀ d, t.finish.Aliases m.left d → n.stage = .vertex) :
    t.finish.Inherits m (t.settledMapping n.stage m) := by
  have hsettles := h.settles n.stage m
  have widened : ∀ d, t.finish.Aliases m.left d → t.settledMapping n.stage m =
      m.withCondition (inherited m.condition (t.finish.arena.read d.id).condition) := by
    intro d hd
    generalize t.settledMapping n.stage m = m' at hsettles
    cases hsettles with
    | kept hnone => exact absurd hd (hnone (hvertex d hd) d)
    | @widened e _ he => rw [h.finish.eq_of_aliases hd he]
  refine ⟨fun d hd hc => ?_, fun d hd hc => ?_, fun d hd own varying ho hv => ?_, fun hnone => ?_⟩
  · rw [widened d hd, hc]
    cases m.condition <;> rfl
  · rw [widened d hd, hc]
    rfl
  · rw [widened d hd, ho, hv]
    rfl
  · generalize t.settledMapping n.stage m = m' at hsettles
    cases hsettles with
    | kept _ => rfl
    | widened _ hd => exact absurd hd (hnone _)

theorem varyingInputs_finish {library : List Definition}
    (hp : Progress.Coherent ⟨t, library, none⟩) (htyped : Typed ⟨t, library, none⟩)
    (hflow : Flowing ⟨t, library, none⟩) (hmarking : Marking ⟨t, library, none⟩) :
    Technique.VaryingInputs t t.finish := by
  have hexact := hp.exact
  have hnodes : ∀ n ∈ t.nodes, n ∈ Progress.nodes ⟨t, library, none⟩ := fun n hn =>
    (nodes_between t library).symm ▸ hn
  have howns : ∀ n ∈ t.nodes, n.Owns t := fun n hn => (htyped.nodes n (hnodes n hn)).owns
  have hmarked : ∀ n ∈ t.nodes, n.Marked t := fun n hn => hmarking n (hnodes n hn)
  have hvertex : ∀ n ∈ t.nodes, ∀ output, t.HasVarying n.name output → n.stage = .vertex := by
    intro n hn output hv
    obtain ⟨q, hq, hname, hstage⟩ := hflow.producer hp hv
    rwa [hp.eq_of_name (hnodes n hn) (hnodes q hq) hname.symm]
  refine ⟨?_, ?_, ?_⟩
  · intro n' hn' _ m hm
    rw [t.finish_nodes_eq] at hn'
    obtain ⟨n, hn, rfl⟩ := List.mem_map.mp hn'
    exact ⟨(hmarked n hn).settled (howns n hn) hexact m hm,
      hexact.finish.hasVarying_iff ((howns n hn).settled hexact) hm⟩
  · intro n' hn' hstage m hm
    rw [t.finish_nodes_eq] at hn'
    obtain ⟨n, hn, rfl⟩ := List.mem_map.mp hn'
    refine Bool.eq_false_iff.mpr fun hout => hstage ?_
    exact hvertex n hn _ (((hmarked n hn).settled (howns n hn) hexact m hm).mp hout)
  · rw [t.finish_nodes_eq, List.forall₂_map_right_iff, List.forall₂_same]
    intro n hn
    refine ⟨rfl, ?_⟩
    show List.Forall₂ _ _ (n.inputs.map _)
    rw [List.forall₂_map_right_iff, List.forall₂_same]
    intro m hm
    refine hexact.inherits fun d hd => hvertex n hn (t.finish.arena.read m.left).name ?_
    exact (hexact.finish.hasVarying_iff ((howns n hn).keep t.keeps_finish) hm).mpr ⟨d, hd⟩

end

/-- In every technique that is read, the inputs that were marked while it was read are those that
its finishing took for varyings. -/
theorem varyingInputs_of_readTechnique {context : Context} {statement : Statement}
    {warnings warnings' : List Warning} {t : Technique}
    (h : readTechnique context statement warnings = (.ok (some t), warnings')) :
    ∃ t₀, AsRead context statement warnings t₀ ∧ t = t₀.finish ∧ t₀.VaryingInputs t := by
  obtain ⟨t₀, hread, rfl⟩ := asRead_of_readTechnique h
  obtain ⟨draft, library, hdraft, hreach⟩ := hread.reach
  have hblank := blank_of_drafts hdraft
  exact ⟨t₀, hread, rfl, varyingInputs_finish (coherent_of_reach hblank hreach)
    (typed_of_reach hblank hreach) (flowing_of_reach hblank hreach)
    (marking_of_reach hdraft hreach)⟩

/-- A color that is passed on under a guard, and shown under it as well. -/
theorem varyingInputs_tinted_guarded :
    ∃ t warnings,
      readTechnique Lit.context (Lit.tintedTechnique "base = Tinted.tint : UseLight") [] =
        (.ok (some t), warnings) ∧
      Lit.settled t = Lit.tinted (some "(defined(USELIGHT)) || ((defined(USELIGHT)))")
        (some "defined(USELIGHT)") (some "(defined(USELIGHT))") ∧
      ∃ t₀, AsRead Lit.context (Lit.tintedTechnique "base = Tinted.tint : UseLight") [] t₀ ∧
        t = t₀.finish ∧ t₀.VaryingInputs t := by
  obtain ⟨t, warnings, h, hread⟩ := Lit.readTechnique_tinted_guarded
  exact ⟨t, warnings, h, hread, varyingInputs_of_readTechnique h⟩

end ShaderGraph
