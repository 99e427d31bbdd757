/-
  ShaderGraph.Proofs.Flow — what nodes read of each other comes from nodes before them.

  A reference to an output is looked up among the nodes that are closed, so its producer
  stands before the node that reads it. Within a stage the reader gets a variable of its own;
  from the vertex to the fragment stage it gets the varying, which an earlier reader may have
  made. The varying is still one of the same producer, because no two nodes have one name.

  - `Supplied`: a variable belongs to no node, or to one of those before.
  - `Flowing.step`: no step breaks it, for any mapping so far.
  - `flowsForward_of_readTechnique`: so the data of every technique that is read flows forward.
-/

import ShaderGraph.Proofs.Listing
import ShaderGraph.Proofs.WellTyped

namespace ShaderGraph

open Block (Statement)
open Resolution (Resolves outputVariable)

/-! ## Nodes in an order -/

inductive InOrder (admitted : List Node → Node → Prop) : List Node → Prop
  | nil : InOrder admitted []
  | snoc {before : List Node} {n : Node} :
      InOrder admitted before → admitted before n → InOrder admitted (before ++ [n])

section

variable {admitted admitted' : List Node → Node → Prop} {ns before after : List Node} {n : Node}

theorem inOrder_snoc : InOrder admitted (ns ++ [n]) ↔ InOrder admitted ns ∧ admitted ns n := by
  constructor
  · intro h
    generalize hl : ns ++ [n] = l at h
    cases h with
    | nil => simp at hl
    | snoc h hn =>
      obtain ⟨rfl, hone⟩ := List.append_inj' hl rfl
      cases hone
      exact ⟨h, hn⟩
  · intro h
    exact .snoc h.1 h.2

theorem InOrder.mono (h : InOrder admitted ns)
    (hm : ∀ before n, admitted before n → admitted' before n) : InOrder admitted' ns := by
  induction h with
  | nil => exact .nil
  | snoc _ hn ih => exact .snoc ih (hm _ _ hn)

theorem InOrder.admitted_at (h : InOrder admitted (before ++ n :: after)) : admitted before n := by
  generalize hl : before ++ n :: after = l at h
  induction h generalizing after with
  | nil => simp at hl
  | snoc h hn ih =>
    rcases List.eq_nil_or_concat' after with rfl | ⟨front, x, rfl⟩
    · obtain ⟨rfl, hone⟩ := List.append_inj' hl rfl
      cases hone
      exact hn
    · rw [← List.cons_append, ← List.append_assoc] at hl
      obtain ⟨hfront, -⟩ := List.append_inj' hl rfl
      exact ih hfront

end

/-! ## Where a variable comes from -/

structure Node.Makes (q : Node) (v : Variable) : Prop where
  origin : v.origin = some (.node q.name)
  output : ∃ output ∈ q.definition.outputs,
    output.name = v.name ∧ output.type = v.type ∧ output.multiplicity = v.multiplicity

def Technique.Declared (t : Technique) (id : VarId) : Prop := id ∈ t.registry.entries.map (·.id)

/-- How an output gets from a stage to another: it stays in its stage and is not declared, or it is
declared as a varying. -/
def Crosses (producer stage : Stage) (declared : Prop) : Prop :=
  producer = stage ∧ ¬ declared ∨ producer = .vertex ∧ stage = .fragment ∧ declared

/-- A node of a stage that comes after some nodes may read the variable: it is one of no node, or
one of those nodes makes it. -/
def Supplied (t : Technique) (before : List Node) (stage : Stage) (id : VarId) : Prop :=
  ∃ v, t.arena.get? id = some v ∧ ∀ p, v.origin = some (.node p) →
    ∃ q ∈ before, q.Makes v ∧ Crosses q.stage stage (t.Declared id)

section

variable {t t' : Technique} {before before' : List Node} {stage : Stage} {id : VarId} {q : Node}
  {v w : Variable}

theorem Node.Makes.of_core (h : q.Makes v) (hc : w.core = v.core) : q.Makes w := by
  obtain ⟨htype, hname, horigin, hmultiplicity, -⟩ := Variable.core_eq_iff.mp hc
  obtain ⟨output, ho, hn, ht, hm⟩ := h.output
  exact ⟨horigin.trans h.origin, output, ho, hn.trans hname.symm, ht.trans htype.symm,
    hm.trans hmultiplicity.symm⟩

theorem Supplied.mono (h : Supplied t before stage id) (hb : before ⊆ before') :
    Supplied t before' stage id := by
  obtain ⟨v, hv, hq⟩ := h
  refine ⟨v, hv, fun p hp => ?_⟩
  obtain ⟨q, hmem, hrest⟩ := hq p hp
  exact ⟨q, hb hmem, hrest⟩

/-- A variable of no node. -/
theorem supplied_of_origin (hv : t.arena.get? id = some v)
    (ho : ∀ p, v.origin ≠ some (.node p)) : Supplied t before stage id :=
  ⟨v, hv, fun p hp => absurd hp (ho p)⟩

theorem Supplied.keep (h : Supplied t before stage id) (hk : t.arena.Keeps t'.arena)
    (hd : id.index < t.arena.size → (t'.Declared id ↔ t.Declared id)) :
    Supplied t' before stage id := by
  obtain ⟨v, hv, hq⟩ := h
  obtain ⟨w, hw, hc⟩ := hk id v hv
  have horigin : w.origin = v.origin := (Variable.core_eq_iff.mp hc).2.2.1
  refine ⟨w, hw, fun p hp => ?_⟩
  obtain ⟨q, hmem, hmakes, hcrosses⟩ := hq p (horigin ▸ hp)
  refine ⟨q, hmem, hmakes.of_core hc, ?_⟩
  rw [propext (hd (Arena.lt_of_get? hv))]
  exact hcrosses

end

/-! ## What a step keeps -/

section

variable {context : Context} {p q : Progress} {t t' : Technique} {consumer : Consumer}
  {before : List Node} {stage : Stage} {id x : VarId}

/-- Of the variables so far, reading one declares no other. -/
theorem Declares.declared_iff (hd : Declares consumer t x t') (hlt : id.index < t.arena.size) :
    t'.Declared id ↔ t.Declared id := by
  unfold Technique.Declared
  cases hd with
  | undeclared _ hsame => rw [hsame.registry]
  | @offered key v o _ ho hregistry _ =>
    have hne : id ≠ t.arena.nextId := by
      intro he
      rw [he] at hlt
      exact Nat.lt_irrefl _ hlt
    rw [hregistry, ho, Technique.offer]
    rcases Registry.offer_cases t.registry t.arena key v consumer.name with
      ⟨d, -, -, hcase⟩ | ⟨-, hcase⟩
    · rw [hcase, Registry.map_id_addConsumer]
    · rw [hcase, Registry.map_id_addDeclaration]
      simp [hne]

theorem Effect.declared_iff (he : Effect p q) (hlt : id.index < p.technique.arena.size) :
    q.technique.Declared id ↔ p.technique.Declared id := by
  cases he with
  | kept hs _ => rw [Technique.Declared, hs.registry, Technique.Declared]
  | opened hs _ _ _ => rw [Technique.Declared, hs.registry, Technique.Declared]
  | wroteCode hs _ _ _ => rw [Technique.Declared, hs.registry, Technique.Declared]
  | read hd _ _ _ => exact hd.declared_iff hlt

theorem keeps_of_step (h : Stored p.technique) (hs : Step context p q) :
    p.technique.arena.Keeps q.technique.arena := by
  cases hs with
  | @opened t _ _ name _ definition _ _ =>
    obtain ⟨unused, hu⟩ := markOpened_eq t name definition
    rw [hu]
    exact Arena.Keeps.refl _
  | condition hc => exact (h.readsCondition hc).2
  | input hi => exact (h.readsInput hi).2.1
  | output ho => exact (h.readsOutput ho).2.1
  | closed => exact Arena.Keeps.refl _

theorem Supplied.step (hsupplied : Supplied p.technique before stage id) (hp : p.Coherent)
    (h : Stored p.technique) (hs : Step context p q) : Supplied q.technique before stage id :=
  hsupplied.keep (keeps_of_step h hs) fun hlt => (effect_of_step hp.exact hs).declared_iff hlt

end

/-! ## A new reading -/

section

variable {catalog : Catalog} {reference : Reference} {consumer : Consumer}
  {t t' : Technique} {left left' v : Variable} {id : VarId} {R W : VarId → Prop} {key : DeclKey}
  {o : Offered}

theorem Exact.names_offered (h : Exact t R W) (hv : key.Names v)
    (ho : o = t.offer key v consumer) :
    ∃ w, o.arena.get? o.id = some w ∧ key.Names w ∧ o.id ∈ o.registry.entries.map (·.id) := by
  have h' := h.offer hv ho rfl
  have hoffered := t.registry.exists_offered t.arena key v consumer.name
  rw [show t.registry.offer t.arena key v consumer.name = o from ho.symm] at hoffered
  obtain ⟨d, hd, rfl, hid⟩ := hoffered
  obtain ⟨w, hw, hnames⟩ := h'.names d hd
  rw [hid] at hw
  exact ⟨w, hw, hnames, List.mem_map.mpr ⟨d, hd, hid⟩⟩

theorem makes_outputVariable {node : Node} {name : String} {output : Variable}
    (h : node.definition.output? name = some output) : node.Makes (outputVariable node output) :=
  ⟨rfl, output, List.mem_of_find?_eq_some h, rfl, rfl, rfl⟩

/-- The variable of a varying is made by its producer, also if it was declared before. -/
theorem makes_offered {node : Node} {name : String} {output : Variable}
    (h : Exact t R W) (hnames : (t.nodes.map (·.name)).Nodup)
    (hread : ∀ d ∈ t.registry.entries, ∃ stage, Supplied t t.nodes stage d.id)
    (hn : node ∈ t.nodes) (hout : node.definition.output? name = some output)
    (ho : o = t.offer (.varying node.name output.name) (outputVariable node output).raised
      consumer) : ∃ w, o.arena.get? o.id = some w ∧ node.Makes w := by
  unfold Technique.offer at ho
  rcases Registry.offer_cases t.registry t.arena (.varying node.name output.name)
    (outputVariable node output).raised consumer.name with ⟨d, hd, hkey, hcase⟩ | ⟨-, hcase⟩
  · -- an earlier mapping reads it, so a closed node of the producer's name makes it
    rw [hcase] at ho
    subst ho
    obtain ⟨stage, w, hw, hsupplied⟩ := hread d hd
    obtain ⟨w', hw', hnamed⟩ := h.names d hd
    rw [hw] at hw'
    cases hw'
    rw [hkey] at hnamed
    obtain ⟨q, hq, hmakes, -⟩ := hsupplied node.name hnamed.1
    have hname : node.name = q.name := by simpa [hnamed.1] using hmakes.origin
    rw [← List.inj_on_of_nodup_map hnames hn hq hname] at hmakes
    exact ⟨w, hw, hmakes⟩
  · rw [hcase] at ho
    subst ho
    exact ⟨_, Arena.get?_add_nextId _ _, (makes_outputVariable hout).of_core rfl⟩

/-- Whichever way a reference is found, what it stands for is supplied by the closed nodes. -/
theorem supplied_of_resolves (h : Exact t R W) (hnames : (t.nodes.map (·.name)).Nodup)
    (hread : ∀ d ∈ t.registry.entries, ∃ stage, Supplied t t.nodes stage d.id)
    (hr : Resolves catalog reference consumer t left id t' left') :
    Supplied t' t.nodes consumer.stage id := by
  cases hr with
  | global _ hs =>
    obtain ⟨-, -, v, hv, horigin⟩ := h.storesGlobal rfl hs
    refine supplied_of_origin hv fun p hp => ?_
    rw [horigin] at hp
    cases hp
  | vertexAttribute _ _ ho =>
    obtain ⟨v, hv, hnamed, -⟩ := h.names_offered (names_attributeVariable _ _) ho
    refine supplied_of_origin hv fun p hp => ?_
    rw [hnamed.1] at hp
    cases hp
  | materialParameter _ _ hs _ ho =>
    obtain ⟨defines, rfl⟩ := hs.frame
    have h' : Exact { t with defines } R W := h.congr rfl rfl rfl
    obtain ⟨v, hv, hnamed, -⟩ := h'.names_offered (names_parameterVariable _ _ _) ho
    refine supplied_of_origin hv fun p hp => ?_
    rcases hnamed.1 with horigin | horigin <;> rw [horigin] at hp <;> cases hp
  | worldParameter _ _ ho =>
    obtain ⟨v, hv, hnamed, -⟩ := h.names_offered (names_worldVariable _) ho
    refine supplied_of_origin hv fun p hp => ?_
    rcases hnamed.1 with horigin | horigin <;> rw [horigin] at hp <;> cases hp
  | @output _ node output _ hn hout hstage =>
    refine ⟨_, Arena.get?_add_nextId _ _, fun p _ => ?_⟩
    refine ⟨node, List.mem_of_find?_eq_some hn, makes_outputVariable hout, Or.inl ⟨hstage, ?_⟩⟩
    intro hmem
    obtain ⟨d, hd, hid⟩ := List.mem_map.mp hmem
    exact h.sound.ne_nextId hd hid
  | @varying _ node output o _ hn hout hvertex hfragment ho =>
    have hmem := List.mem_of_find?_eq_some hn
    obtain ⟨w, hw, hmakes⟩ := makes_offered h hnames hread hmem hout ho
    obtain ⟨-, -, -, hdeclared⟩ := h.names_offered (names_outputVariable _ _) ho
    obtain ⟨w', hw', hcore⟩ :=
      Arena.keeps_raiseInputs node (o.arena.read o.id).name o.arena o.id w hw
    refine ⟨w', hw', fun p _ => ?_⟩
    exact ⟨node, hmem, hmakes.of_core hcore, Or.inr ⟨hvertex, hfragment, hdeclared⟩⟩

theorem supplied_of_readsInput {node : Node} {m : Mapping} (h : Exact t R W)
    (hnames : (t.nodes.map (·.name)).Nodup)
    (hread : ∀ d ∈ t.registry.entries, ∃ stage, Supplied t t.nodes stage d.id)
    (hi : ReadsInput catalog node t m t') (hm : m.source = .var id) :
    Supplied t' t.nodes node.stage id := by
  cases hi with
  | code _ _ => cases hm
  | @reference _ _ _ left _ reference _ _ t₂ _ hc _ hr _ =>
    cases hm
    obtain ⟨defines, rfl⟩ := hc.frame
    have h' : Exact { t with defines } R W := h.congr rfl rfl rfl
    obtain ⟨v, hv, hsupplied⟩ := supplied_of_resolves h' hnames hread hr
    obtain ⟨unused, hu⟩ := markProducer_eq t₂ reference
    rw [hu]
    exact ⟨v, Arena.get?_add_of_get? hv left, hsupplied⟩

end

/-! ## Every step -/

def Node.SuppliedBy (t : Technique) (before : List Node) (n : Node) : Prop :=
  ∀ m ∈ n.inputs, ∀ id, m.source = .var id → Supplied t before n.stage id

def Flowing (p : Progress) : Prop := InOrder (Node.SuppliedBy p.technique) p.nodes

section

variable {context : Context} {p q : Progress} {t t' : Technique} {library library' : List Definition}
  {node : Node}

theorem flowing_current : Flowing ⟨t, library, some node⟩ ↔
    InOrder (Node.SuppliedBy t) t.nodes ∧ node.SuppliedBy t t.nodes := inOrder_snoc

theorem flowing_closed : Flowing ⟨t, library, none⟩ ↔ InOrder (Node.SuppliedBy t) t.nodes := by
  rw [Flowing, nodes_between]

/-- While a node is read, the variable of every declaration is supplied by the closed nodes. -/
theorem Flowing.supplied_declared (h : Flowing ⟨t, library, some node⟩)
    (hp : Progress.Coherent ⟨t, library, some node⟩) :
    ∀ d ∈ t.registry.entries, ∃ stage, Supplied t t.nodes stage d.id := by
  intro d hd
  obtain ⟨hnodes, hnode⟩ := flowing_current.mp h
  obtain ⟨m, hm, hs⟩ := hp.exact.read d hd
  obtain ⟨n, hn, hmn⟩ := List.mem_flatMap.mp hm
  rcases mem_progress_nodes.mp hn with hn | rfl
  · obtain ⟨before, after, hsplit⟩ := List.append_of_mem hn
    rw [hsplit] at hnodes
    have hsupplied := hnodes.admitted_at m hmn d.id hs
    exact ⟨n.stage, hsupplied.mono (hsplit ▸ List.subset_append_left before _)⟩
  · exact ⟨n.stage, hnode m hmn d.id hs⟩

/-- The names of the closed nodes are distinct as well. -/
theorem Progress.Coherent.names_closed {current : Option Node}
    (hp : Progress.Coherent ⟨t, library, current⟩) : (t.nodes.map (·.name)).Nodup := by
  have hnames := hp.names
  rw [Progress.nodes, List.map_append] at hnames
  exact (List.nodup_append.mp hnames).1

theorem Flowing.step (h : Flowing p) (hp : p.Coherent) (hstored : Stored p.technique)
    (hs : Step context p q) : Flowing q := by
  -- what was supplied before the step still is, so only a new mapping has to be judged
  have keep : ∀ (before : List Node) (n : Node), n.SuppliedBy p.technique before →
      n.SuppliedBy q.technique before :=
    fun _ _ hn m hm id hid => (hn m hm id hid).step hp hstored hs
  cases hs with
  | @opened t library library' name line definition _ _ =>
    have hnodes := (flowing_closed.mp h).mono keep
    obtain ⟨unused, hu⟩ := markOpened_eq t name definition
    rw [hu] at hnodes ⊢
    exact flowing_current.mpr ⟨hnodes, fun m hm => absurd hm List.not_mem_nil⟩
  | @condition t t' library node condition hc =>
    obtain ⟨hnodes, hnode⟩ := flowing_current.mp h
    obtain ⟨defines, rfl⟩ := hc.frame
    exact flowing_current.mpr ⟨hnodes.mono keep, keep t.nodes node hnode⟩
  | @input t t' library node m hi =>
    obtain ⟨hnodes, hnode⟩ := flowing_current.mp h
    have hnew : ∀ id, m.source = .var id → Supplied t' t.nodes node.stage id := fun id hm =>
      supplied_of_readsInput hp.exact hp.names_closed (h.supplied_declared hp) hi hm
    have hkept := keep t.nodes node hnode
    rw [← hi.nodes] at hnodes hnew hkept
    refine flowing_current.mpr ⟨hnodes.mono keep, ?_⟩
    exact List.forall_mem_append.mpr ⟨hkept, List.forall_mem_singleton.mpr hnew⟩
  | @output t t' library node m ho =>
    obtain ⟨hnodes, hnode⟩ := flowing_current.mp h
    have hkept := keep t.nodes node hnode
    rw [← ho.nodes] at hnodes hkept
    exact flowing_current.mpr ⟨hnodes.mono keep, hkept⟩
  | @closed t library node =>
    exact flowing_closed.mpr (inOrder_snoc.mpr (flowing_current.mp h))

theorem flowing_of_reach {draft : Draft} (hd : draft.technique.Blank)
    (h : Reach context draft.progress p) : Flowing p := by
  induction h with
  | start =>
    refine flowing_closed.mpr ?_
    rw [show draft.technique.nodes = [] from hd.nodes]
    exact .nil
  | step hr hs ih => exact ih.step (coherent_of_reach hd hr) (typed_of_reach hd hr).stored hs

end

/-! ## Finished techniques -/

/-- The producer has an output that the variable stands for, and the variable gets to the stage:
within one stage it is no output of the stage, from the vertex to the fragment stage it is
the varying that is declared for it. -/
structure Technique.Delivers (t : Technique) (producer : Node) (stage : Stage) (id : VarId) :
    Prop where
  output : ∃ output ∈ producer.definition.outputs, output.name = (t.arena.read id).name ∧
    output.type = (t.arena.read id).type ∧ output.multiplicity = (t.arena.read id).multiplicity
  crosses :
    producer.stage = stage ∧ (t.arena.read id).isOutput = false ∧ id ∉ t.interface.varyings ∨
    producer.stage = .vertex ∧ stage = .fragment ∧ (t.arena.read id).isOutput = true ∧
      id ∈ t.interface.varyings ∧
      ∃ d ∈ t.registry.entries, d.key = .varying producer.name (t.arena.read id).name ∧ d.id = id

/-- No two nodes have one name, and what a node reads of a node is delivered by the node of that
name, which stands before it. -/
structure Technique.FlowsForward (t : Technique) : Prop where
  names : (t.nodes.map (·.name)).Nodup
  forward : ∀ before n after, t.nodes = before ++ n :: after →
    ∀ m ∈ n.inputs, ∀ id, m.source = .var id →
      ∀ p, (t.arena.read id).origin = some (.node p) →
        ∃ producer ∈ before, producer.name = p ∧ t.Delivers producer n.stage id

section

variable {t t' : Technique} {ns ns' before before' : List Node} {n n' : Node} {id : VarId}
  {v : Variable} {stage : Stage} {p : String} {R W : VarId → Prop}

/-- A declared variable of a node is the varying of an output of it. -/
theorem Exact.varying_of_declared (h : Exact t R W) (hd : t.Declared id)
    (hv : t.arena.get? id = some v) (ho : v.origin = some (.node p)) :
    v.isOutput = true ∧ ∃ d ∈ t.registry.entries, d.key = .varying p v.name ∧ d.id = id := by
  obtain ⟨d, hmem, rfl⟩ := List.mem_map.mp hd
  obtain ⟨w, hw, hnames⟩ := h.names d hmem
  rw [hv] at hw
  cases hw
  cases hk : d.key with
  | vertexAttribute name =>
    rw [hk] at hnames
    simp [hnames.1] at ho
  | uniform name =>
    rw [hk] at hnames
    rcases hnames.1 with horigin | horigin <;> simp [horigin] at ho
  | varying producer output =>
    rw [hk] at hnames
    obtain ⟨horigin, rfl, hout⟩ := hnames
    rw [ho] at horigin
    cases horigin
    exact ⟨hout, d, hmem, hk, rfl⟩

/-- What is supplied is delivered. -/
theorem Supplied.delivers (h : Supplied t before stage id) (hexact : Exact t R W) (hr : R id)
    (hlisted : t.interface.varyings = t.registry.idsOf DeclKey.isVarying)
    (ho : (t.arena.read id).origin = some (.node p)) :
    ∃ producer ∈ before, producer.name = p ∧ t.Delivers producer stage id := by
  obtain ⟨v, hv, hq⟩ := h
  have hread := Arena.read_of_get? hv
  rw [hread] at ho
  obtain ⟨q, hmem, hmakes, hcrosses⟩ := hq p ho
  have hname : q.name = p := by simpa [ho] using hmakes.origin.symm
  have houtput := hmakes.output
  refine ⟨q, hmem, hname, ⟨by rwa [hread], ?_⟩⟩
  rw [hread]
  rcases hcrosses with ⟨hstage, hundeclared⟩ | ⟨hvertex, hfragment, hdeclared⟩
  · refine Or.inl ⟨hstage, ?_, ?_⟩
    · -- an output that is read is declared
      obtain ⟨w, hw, hdecl⟩ := hexact.declared id hr
      rw [hv] at hw
      cases hw
      refine Bool.eq_false_of_not_eq_true fun hout => hundeclared (hdecl ?_)
      exact Or.inr (Or.inr (Or.inr ⟨⟨p, ho⟩, hout⟩))
    · rw [hlisted, Registry.mem_idsOf]
      rintro ⟨d, hd, -, hid⟩
      exact hundeclared (List.mem_map.mpr ⟨d, hd, hid⟩)
  · obtain ⟨hout, d, hd, hkey, hid⟩ := hexact.varying_of_declared hdeclared hv ho
    refine Or.inr ⟨hvertex, hfragment, hout, ?_, d, hd, hname ▸ hkey, hid⟩
    rw [hlisted, Registry.mem_idsOf]
    exact ⟨d, hd, by rw [hkey]; rfl, hid⟩

/-- Conditions do not count for an order that looks at wires. -/
theorem InOrder.of_wires {admitted admitted' : List Node → Node → Prop}
    (h : InOrder admitted ns) (hw : ns'.map Node.wires = ns.map Node.wires)
    (ha : ∀ before before' n n', before'.map Node.wires = before.map Node.wires →
      n'.wires = n.wires → admitted before n → admitted' before' n') : InOrder admitted' ns' := by
  induction h generalizing ns' with
  | nil =>
    obtain rfl := List.map_eq_nil_iff.mp hw
    exact .nil
  | snoc _ hn ih =>
    rw [List.map_append] at hw
    obtain ⟨before', rest, rfl, hbefore, hrest⟩ := List.map_eq_append_iff.mp hw
    obtain ⟨n', rfl, hn'⟩ := List.map_eq_singleton_iff.mp hrest
    exact .snoc (ih hbefore) (ha _ _ _ _ hbefore hn' hn)

theorem Supplied.of_wires (h : Supplied t before stage id)
    (hb : before'.map Node.wires = before.map Node.wires) : Supplied t before' stage id := by
  obtain ⟨v, hv, hq⟩ := h
  refine ⟨v, hv, fun p hp => ?_⟩
  obtain ⟨q, hq, hmakes, hcrosses⟩ := hq p hp
  have hmem : q.wires ∈ before'.map Node.wires := hb ▸ List.mem_map_of_mem hq
  obtain ⟨q', hq', he⟩ := List.mem_map.mp hmem
  rw [← Node.stage_of_wires he] at hcrosses
  simp only [Node.wires, Node.mk.injEq] at he
  exact ⟨q', hq', ⟨he.1 ▸ hmakes.origin, he.2.1 ▸ hmakes.output⟩, hcrosses⟩

theorem Node.SuppliedBy.of_wires (h : n.SuppliedBy t before)
    (hb : before'.map Node.wires = before.map Node.wires) (hn : n'.wires = n.wires) :
    n'.SuppliedBy t before' := by
  intro m' hm' id hs
  obtain ⟨m, hm, hsource⟩ := Node.exists_source_of_wires hn hm'
  rw [Node.stage_of_wires hn]
  exact (h m hm id (hsource.trans hs)).of_wires hb

end

/-- In every technique that is read, data flows forward. -/
theorem flowsForward_of_readTechnique {context : Context} {statement : Statement}
    {warnings warnings' : List Warning} {t : Technique}
    (h : readTechnique context statement warnings = (.ok (some t), warnings')) :
    t.FlowsForward := by
  obtain ⟨draft, t₀, library, hdraft, hreach, rfl⟩ := built_of_readTechnique h
  have hblank := blank_of_drafts hdraft
  have hp := coherent_of_reach hblank hreach
  have hexact := hp.exact.finish
  rw [inputs_between, ← reads_finish] at hexact
  have hlisted : t₀.finish.interface.varyings = t₀.finish.registry.idsOf DeclKey.isVarying :=
    (listed_of_reach hblank hreach).varyings
  have hnodes : InOrder (Node.SuppliedBy t₀.finish) t₀.finish.nodes := by
    refine (flowing_closed.mp (flowing_of_reach hblank hreach)).of_wires t₀.finish_wires ?_
    intro before before' n n' hb hn hsupplied
    refine Node.SuppliedBy.of_wires (fun m hm id hs => ?_) hb hn
    exact (hsupplied m hm id hs).keep t₀.keeps_finish fun _ => Iff.rfl
  refine ⟨?_, ?_⟩
  · rw [map_name_of_wires t₀.finish_wires]
    exact hp.names_closed
  · intro before n after hsplit m hm id hs p ho
    have hsupplied := (hsplit ▸ hnodes).admitted_at m hm id hs
    refine hsupplied.delivers hexact ⟨m, List.mem_flatMap.mpr ⟨n, ?_, hm⟩, hs⟩ hlisted ho
    rw [hsplit]
    exact List.mem_append_right _ List.mem_cons_self

/-- A varying that two nodes read, and an output read within its stage. -/
theorem flowsForward_mixed :
    ∃ t warnings, readTechnique Lit.context Lit.mixedTechnique [] = (.ok (some t), warnings) ∧
      t.nodes.map (fun n => (n.name, n.inputs.map (·.source))) = [
        ("Placed", [.var ⟨0⟩, .var ⟨2⟩]), ("Shaded", [.var ⟨6⟩]),
        ("Lighted", [.var ⟨9⟩, .var ⟨6⟩, .var ⟨6⟩]),
        ("Mixed", [.var ⟨15⟩, .var ⟨9⟩, .var ⟨6⟩])] ∧ t.FlowsForward := by
  obtain ⟨t, warnings, h, hread⟩ := Lit.readTechnique_mixedTechnique
  exact ⟨t, warnings, h, hread.sources, flowsForward_of_readTechnique h⟩

end ShaderGraph
