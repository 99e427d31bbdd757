/-
  ShaderGraph.Proofs.Samplers — samplers are inputs, and come from the parameters of the material.

  A parameter that is a texture may be of several kinds of samplers. The first input that reads
  it chooses one of them for its uniform; a later input may choose another and gets the uniform
  that is there. That all of them agree is up to the check of types, which takes a sampler for no
  other kind unless one of both is still a union (`eq_of_typesFit`). That no sampler comes from
  anywhere else is up to the reading of mappings, which looks at the definition's side alone. An
  input that takes several kinds keeps them all, whatever it reads.

  - `Definite`: a uniform of the material is of one kind, and one of the engine is that of a
    binding.
  - `Reach.judged`: what is true of a mapping as it is read, and stays true of larger arenas, is
    true of every mapping.
  - `samplersBound_of_readTechnique`: so the samplers of every technique that is read are bound.
-/

import ShaderGraph.Proofs.Blanks
import ShaderGraph.Proofs.Flow

namespace ShaderGraph

open Block (Statement)
open Resolution (StoresGlobal Resolves Sized uniformType parameterVariable)

/-! ## Unions of kinds -/

namespace Glsl

section

variable {type union kind : String}

theorem kinds_of_not_union (h : isUnion type = false) : kinds type = [type] := by
  have hsep : ∀ c ∈ type.toList, (c == '|') = false := by
    intro c hc
    rw [beq_eq_false_iff_ne]
    rintro rfl
    rw [isUnion, List.contains_iff_mem.mpr hc] at h
    cases h
  rw [kinds, Text.fields, Text.parts_eq_singleton hsep]
  simp

/-- A kind is no union. -/
theorem not_union_of_mem_kinds (h : kind ∈ kinds union) : isUnion kind = false := by
  obtain ⟨part, hpart, rfl⟩ := List.mem_map.mp h
  have hsep := Text.not_of_mem_parts hpart
  rw [isUnion, String.toList_ofList, Bool.eq_false_iff, ne_eq, List.contains_iff_mem]
  intro hmem
  have := hsep '|' hmem
  cases this

theorem eq_of_kind?_isSome (h : (kind? type union).isSome = true) (hu : isUnion union = false) :
    type = union := by
  obtain ⟨kind, hkind⟩ := Option.isSome_iff_exists.mp h
  have hmem := List.mem_of_find?_eq_some hkind
  rw [kinds_of_not_union hu, List.mem_singleton] at hmem
  have heq := List.find?_some hkind
  rw [beq_iff_eq] at heq
  rw [← heq, hmem]

/-- A sampler has no components. -/
theorem componentCount?_of_isSampler (h : isSampler type = true) :
    componentCount? type = none := by
  have notMem : ∀ types : List String, (∀ x ∈ types, isSampler x = false) → type ∉ types := by
    intro types hall hmem
    rw [hall type hmem] at h
    cases h
  unfold componentCount?
  rw [if_neg (notMem _ (by decide)), if_neg (notMem _ (by decide)), if_neg (notMem _ (by decide)),
    if_neg (notMem _ (by decide))]

theorem cardinality?_of_none (h : componentCount? type = none) (swizzle : String) :
    cardinality? type swizzle = none := by
  rw [cardinality?, h]
  rfl

end

end Glsl

namespace Typing

section

variable {left right : Variable} {ls rs : String}

/-- Types of which one has no components fit if they are equal or one is a kind of the other. -/
theorem typesFit_of_none (h : Glsl.componentCount? left.type = none ∨
      Glsl.componentCount? right.type = none) :
    typesFit left ls right rs = true ↔
      left.type = right.type ∧ ls.utf8ByteSize = rs.utf8ByteSize ∨
        (Glsl.kind? left.type right.type).isSome = true ∨
          (Glsl.kind? right.type left.type).isSome = true := by
  have hkinds : typesFit left ls right rs =
      (left.type == right.type && ls.utf8ByteSize == rs.utf8ByteSize ||
        ((Glsl.kind? left.type right.type).isSome || (Glsl.kind? right.type left.type).isSome)) := by
    rw [typesFit]
    rcases h with h | h
    · rw [Glsl.cardinality?_of_none h]
    · rw [Glsl.cardinality?_of_none h]
      cases Glsl.cardinality? left.type ls <;> rfl
  rw [hkinds]
  simp only [Bool.or_eq_true, Bool.and_eq_true, beq_iff_eq]

/-- A sampler fits its own type and no other, as far as no unions are involved. -/
theorem eq_of_typesFit (h : typesFit left ls right rs = true) (hs : right.isSampler = true)
    (hl : Glsl.isUnion left.type = false) (hr : Glsl.isUnion right.type = false) :
    right.type = left.type := by
  have hnone := Glsl.componentCount?_of_isSampler hs
  rcases (typesFit_of_none (Or.inr hnone)).mp h with ⟨heq, -⟩ | h | h
  · exact heq.symm
  · exact (Glsl.eq_of_kind?_isSome h hr).symm
  · exact Glsl.eq_of_kind?_isSome h hl

end

end Typing

/-! ## Uniforms -/

/-- A uniform of the material is of one kind, and one of the engine is that of a binding. -/
structure Variable.Definite (v : Variable) : Prop where
  material : v.origin = some .materialParameter → Glsl.isUnion v.type = false
  world : v.origin = some .worldParameter →
    ∃ b : WorldBinding, v.name = b.uniformName ∧ v.type = b.glslType

section

variable {catalog : Catalog} {reference : Reference} {consumer : Consumer} {param : Parameter}
  {t t' : Technique} {left left' v : Variable} {id : VarId} {name type leftType : String}
  {R W : VarId → Prop}

theorem Variable.definite_of_origin (origin : Namespace) (h : v.origin = some origin)
    (hm : origin ≠ .materialParameter) (hw : origin ≠ .worldParameter) : v.Definite :=
  ⟨fun h' => absurd (Option.some.inj (h.symm.trans h')) hm,
    fun h' => absurd (Option.some.inj (h.symm.trans h')) hw⟩

/-- Also where the kind of a texture is open, its uniform has one. -/
theorem not_union_of_uniformType (h : uniformType param leftType = .ok type) :
    Glsl.isUnion type = false := by
  simp only [uniformType] at h
  split at h
  · split at h
    · next hkind =>
      cases h
      exact Glsl.not_union_of_mem_kinds (List.mem_of_find?_eq_some hkind)
    · cases h
  · next hunion =>
    cases h
    exact Bool.eq_false_of_not_eq_true hunion

theorem definite_parameterVariable (h : uniformType param leftType = .ok type)
    (length : Option Resolution.ArrayLength) : (parameterVariable param type length).Definite :=
  ⟨fun _ => not_union_of_uniformType h, fun hw => by cases hw⟩

theorem definite_worldVariable (b : WorldBinding) : (Resolution.worldVariable b).Definite :=
  ⟨fun hm => (by cases hm), fun _ => ⟨b, rfl, rfl⟩⟩

theorem WorldBinding.not_union (b : WorldBinding) : Glsl.isUnion b.glslType = false := by
  cases b <;> decide

/-- A uniform with the name of a parameter is one of the material. -/
theorem Variable.Definite.origin (h : v.Definite)
    (hn : (DeclKey.uniform param.uniformName).Names v) : v.origin = some .materialParameter := by
  obtain ⟨hm | hw, hname⟩ := hn
  · exact hm
  · obtain ⟨b, hb, -⟩ := h.world hw
    have hnames : ("m_" ++ param.name).toList = ("g_" ++ b.name).toList :=
      congrArg String.toList (hname.symm.trans hb)
    rw [String.toList_append, String.toList_append] at hnames
    cases hnames

/-- The type of a declared uniform is no union. -/
theorem Variable.Definite.not_union (h : v.Definite) {name : String}
    (hn : (DeclKey.uniform name).Names v) : Glsl.isUnion v.type = false := by
  rcases hn.1 with hm | hw
  · exact h.material hm
  · obtain ⟨b, -, htype⟩ := h.world hw
    rw [htype]
    exact b.not_union

/-! ## Every step -/

theorem Resolution.Resolves.definite (h : Resolves catalog reference consumer t left id t' left')
    (ht : t.arena.Every Variable.Definite) : t'.arena.Every Variable.Definite := by
  cases h with
  | global _ hs => exact hs.every (Variable.definite_of_origin .global rfl nofun nofun) ht
  | vertexAttribute _ _ ho =>
    subst ho
    exact ht.offer (Variable.definite_of_origin .vertexAttribute rfl nofun nofun) t.registry _ _
  | @materialParameter param length type t₁ _ _ _ _ hs htype ho =>
    obtain ⟨defines, rfl⟩ := hs.frame
    subst ho
    exact ht.offer (definite_parameterVariable htype length) t.registry _ _
  | @worldParameter binding _ _ _ ho =>
    subst ho
    exact ht.offer (definite_worldVariable binding) t.registry _ _
  | output _ _ _ _ => exact ht.add (Variable.definite_of_origin (.node _) rfl nofun nofun)
  | varying _ _ _ _ _ ho =>
    subst ho
    refine (ht.offer (Variable.definite_of_origin (.node _) rfl nofun nofun)
      t.registry _ _).raiseInputs ?_ _ _
    exact fun _ hv => ⟨hv.material, hv.world⟩

/-- What a reference to a parameter of the material stands for is a variable of the material, also
if an earlier reference declared it. -/
theorem Exact.origin_of_resolves (h : Exact t R W) (ht : t.arena.Every Variable.Definite)
    (hr : Resolves catalog reference consumer t left id t' left')
    (ho : reference.origin = some .materialParameter) :
    ∃ v, t'.arena.get? id = some v ∧ v.origin = some .materialParameter := by
  have hdefinite := hr.definite ht
  cases hr with
  | materialParameter _ _ hs _ hoffer =>
    obtain ⟨defines, rfl⟩ := hs.frame
    have h' : Exact { t with defines } R W := h.congr rfl rfl rfl
    obtain ⟨v, hv, hnames, -⟩ := h'.names_offered (names_parameterVariable _ _ _) hoffer
    exact ⟨v, hv, (hdefinite _ v hv).origin hnames⟩
  | global horigin _ => rw [ho] at horigin; cases horigin
  | vertexAttribute horigin _ _ => rw [ho] at horigin; cases horigin
  | worldParameter horigin _ _ => rw [ho] at horigin; cases horigin
  | output horigin _ _ _ => rw [ho] at horigin; cases horigin
  | varying horigin _ _ _ _ _ => rw [ho] at horigin; cases horigin

end

section

variable {context : Context} {p q : Progress} {draft : Draft}

theorem definite_step (h : p.technique.arena.Every Variable.Definite) (hs : Step context p q) :
    q.technique.arena.Every Variable.Definite := by
  cases hs with
  | @opened t _ _ name _ definition _ _ =>
    obtain ⟨unused, hu⟩ := markOpened_eq t name definition
    rw [hu]
    exact h
  | condition hc =>
    obtain ⟨defines, rfl⟩ := hc.frame
    exact h
  | input hi =>
    cases hi with
    | code _ hc =>
      obtain ⟨defines, rfl⟩ := hc.frame
      exact h.add (Variable.definite_of_origin (.node _) rfl nofun nofun)
    | @reference _ _ _ left _ reference _ _ t₂ _ hc _ hr _ =>
      obtain ⟨defines, rfl⟩ := hc.frame
      obtain ⟨unused, hu⟩ := markProducer_eq t₂ reference
      rw [hu]
      have horigin : left.origin = _ := (Variable.core_eq_iff.mp hr.left_core).2.2.1
      exact (hr.definite h).add (Variable.definite_of_origin (.node _) horigin nofun nofun)
  | output ho =>
    cases ho with
    | mk _ _ _ hc hg =>
      obtain ⟨defines, rfl⟩ := hc.frame
      have hglobal := hg.every (Variable.definite_of_origin .global rfl nofun nofun) h
      exact hglobal.add (Variable.definite_of_origin (.node _) rfl nofun nofun)
  | closed => exact h

theorem definite_of_reach (hd : draft.technique.Blank) (h : Reach context draft.progress p) :
    p.technique.arena.Every Variable.Definite := by
  induction h with
  | start =>
    intro id v hv
    rw [show draft.progress.technique.arena = .empty from hd.arena] at hv
    cases hv
  | step _ hs ih => exact definite_step ih hs

/-- What is true of a mapping as it is read, and stays true of an arena that keeps what it has, is
true of every mapping. -/
theorem Reach.judged (hd : draft.technique.Blank) (input output : Arena → Mapping → Prop)
    (keepInput : ∀ a b m, a.Keeps b → input a m → input b m)
    (keepOutput : ∀ a b m, a.Keeps b → output a m → output b m)
    (readInput : ∀ t t' library node m, Reach context draft.progress ⟨t, library, some node⟩ →
      ReadsInput context.catalog node t m t' → input t'.arena m)
    (readOutput : ∀ t t' library node m, Reach context draft.progress ⟨t, library, some node⟩ →
      ReadsOutput context.catalog node t m t' → output t'.arena m)
    (h : Reach context draft.progress p) : ∀ n ∈ p.nodes,
      (∀ m ∈ n.inputs, input p.technique.arena m) ∧
      (∀ m ∈ n.outputs, output p.technique.arena m) := by
  induction h with
  | start =>
    intro n hn
    simp [Progress.nodes, Draft.progress, hd.nodes] at hn
  | @step p q hr hs ih =>
    have hk := keeps_of_step (typed_of_reach hd hr).stored hs
    have hold : ∀ n ∈ p.nodes, (∀ m ∈ n.inputs, input q.technique.arena m) ∧
        (∀ m ∈ n.outputs, output q.technique.arena m) := fun n hn =>
      ⟨fun m hm => keepInput _ _ m hk ((ih n hn).1 m hm),
        fun m hm => keepOutput _ _ m hk ((ih n hn).2 m hm)⟩
    intro n hn
    cases hs with
    | @opened t library library' name line definition _ _ =>
      obtain ⟨unused, hu⟩ := markOpened_eq t name definition
      rw [hu] at hn hold ⊢
      rcases mem_progress_nodes.mp hn with hn | rfl
      · exact hold n (List.mem_append_left _ hn)
      · exact ⟨fun m hm => absurd hm List.not_mem_nil, fun m hm => absurd hm List.not_mem_nil⟩
    | @condition t t' library node condition hc =>
      obtain ⟨defines, rfl⟩ := hc.frame
      rcases mem_progress_nodes.mp hn with hn | rfl
      · exact hold n (List.mem_append_left _ hn)
      · exact hold node (mem_progress_nodes.mpr (Or.inr rfl))
    | @input t t' library node m hi =>
      rcases mem_progress_nodes.mp hn with hn | rfl
      · rw [hi.nodes] at hn
        exact hold n (List.mem_append_left _ hn)
      · obtain ⟨hinputs, houtputs⟩ := hold node (mem_progress_nodes.mpr (Or.inr rfl))
        have hnew := readInput t t' library node m hr hi
        exact ⟨List.forall_mem_append.mpr ⟨hinputs, List.forall_mem_singleton.mpr hnew⟩, houtputs⟩
    | @output t t' library node m ho =>
      rcases mem_progress_nodes.mp hn with hn | rfl
      · rw [ho.nodes] at hn
        exact hold n (List.mem_append_left _ hn)
      · obtain ⟨hinputs, houtputs⟩ := hold node (mem_progress_nodes.mpr (Or.inr rfl))
        have hnew := readOutput t t' library node m hr ho
        exact ⟨hinputs, List.forall_mem_append.mpr ⟨houtputs, List.forall_mem_singleton.mpr hnew⟩⟩
    | @closed t library node =>
      rw [nodes_between] at hn
      exact hold n hn

end

/-! ## Mappings -/

def SamplerRead (a : Arena) (m : Mapping) : Prop :=
  ∃ v, a.get? m.left = some v ∧ (v.isSampler = true →
    ∀ id, m.source = .var id → ∃ w, a.get? id = some w ∧ w.origin = some .materialParameter)

def SamplerFree (a : Arena) (m : Mapping) : Prop :=
  ∃ id w, m.source = .var id ∧ a.get? id = some w ∧ w.isSampler = false

section

variable {catalog : Catalog} {node : Node} {t t' : Technique} {a b : Arena} {m : Mapping}
  {v w : Variable} {R W : VarId → Prop}

theorem Variable.isSampler_of_core (h : w.core = v.core) : w.isSampler = v.isSampler :=
  congrArg Glsl.isSampler (Variable.core_eq_iff.mp h).1

theorem SamplerRead.keep (hk : a.Keeps b) (h : SamplerRead a m) : SamplerRead b m := by
  obtain ⟨v, hv, hread⟩ := h
  obtain ⟨v', hv', hcore⟩ := hk _ v hv
  refine ⟨v', hv', fun hs id hid => ?_⟩
  rw [Variable.isSampler_of_core hcore] at hs
  obtain ⟨w, hw, horigin⟩ := hread hs id hid
  obtain ⟨w', hw', hcore'⟩ := hk id w hw
  exact ⟨w', hw', (Variable.core_eq_iff.mp hcore').2.2.1.trans horigin⟩

theorem SamplerFree.keep (hk : a.Keeps b) (h : SamplerFree a m) : SamplerFree b m := by
  obtain ⟨id, w, hs, hw, hfree⟩ := h
  obtain ⟨w', hw', hcore⟩ := hk id w hw
  exact ⟨id, w', hs, hw', (Variable.isSampler_of_core hcore).trans hfree⟩

theorem samplerRead_of_readsInput (h : Exact t R W) (ht : t.arena.Every Variable.Definite)
    (hi : ReadsInput catalog node t m t') : SamplerRead t'.arena m := by
  cases hi with
  | code _ _ =>
    refine ⟨_, Arena.get?_add_nextId _ _, fun _ id hid => ?_⟩
    cases hid
  | @reference _ _ input left _ reference id _ t₂ _ hc hsampler hr _ =>
    obtain ⟨defines, rfl⟩ := hc.frame
    have h' : Exact { t with defines } R W := h.congr rfl rfl rfl
    obtain ⟨unused, hu⟩ := markProducer_eq t₂ reference
    rw [hu]
    refine ⟨left, Arena.get?_add_nextId _ _, fun hs x hx => ?_⟩
    cases hx
    rw [Variable.isSampler_of_core hr.left_core] at hs
    obtain ⟨w, hw, horigin⟩ := h'.origin_of_resolves ht hr (hsampler hs)
    exact ⟨w, Arena.get?_add_of_get? hw left, horigin⟩

theorem samplerFree_of_readsOutput (ho : ReadsOutput catalog node t m t') :
    SamplerFree t'.arena m := by
  cases ho with
  | mk _ hsampler _ _ _ => exact ⟨_, _, rfl, Arena.get?_add_nextId _ _, hsampler⟩

end

/-! ## Finished techniques -/

/-- The samplers of a technique are inputs that are bound to parameters of the material, each of
one kind for all that read it. An input that would take several kinds is out of this. -/
structure Technique.SamplersBound (t : Technique) : Prop where
  outputs : ∀ n ∈ t.nodes, ∀ m ∈ n.outputs, ∃ id, m.source = .var id ∧
    (t.arena.read id).isSampler = false
  inputs : ∀ m ∈ t.inputs, (t.arena.read m.left).isSampler = true →
    (∃ text, m.source = .code text) ∨
      ∃ id, m.source = .var id ∧ (t.arena.read id).origin = some .materialParameter
  uniforms : ∀ d ∈ t.registry.entries, d.key.isUniform = true →
    Glsl.isUnion (t.arena.read d.id).type = false
  kinds : ∀ d ∈ t.registry.entries, d.key.isUniform = true →
    (t.arena.read d.id).isSampler = true → ∀ m ∈ t.inputs, m.source = .var d.id →
      Glsl.isUnion (t.arena.read m.left).type = false →
      (t.arena.read d.id).type = (t.arena.read m.left).type
  agree : ∀ d ∈ t.registry.entries, d.key.isUniform = true →
    (t.arena.read d.id).isSampler = true → ∀ m ∈ t.inputs, ∀ m' ∈ t.inputs,
      m.source = .var d.id → m'.source = .var d.id →
      Glsl.isUnion (t.arena.read m.left).type = false →
      Glsl.isUnion (t.arena.read m'.left).type = false →
      (t.arena.read m.left).type = (t.arena.read m'.left).type

section

variable {t : Technique} {m : Mapping} {d : Declaration} {R W : VarId → Prop}

theorem SamplerRead.bound (h : SamplerRead t.arena m)
    (hs : (t.arena.read m.left).isSampler = true) : (∃ text, m.source = .code text) ∨
      ∃ id, m.source = .var id ∧ (t.arena.read id).origin = some .materialParameter := by
  obtain ⟨v, hv, hread⟩ := h
  rw [Arena.read_of_get? hv] at hs
  cases hsource : m.source with
  | code text => exact Or.inl ⟨text, rfl⟩
  | var id =>
    obtain ⟨w, hw, horigin⟩ := hread hs id hsource
    refine Or.inr ⟨id, rfl, ?_⟩
    rw [Arena.read_of_get? hw]
    exact horigin

theorem SamplerFree.not_sampler (h : SamplerFree t.arena m) :
    ∃ id, m.source = .var id ∧ (t.arena.read id).isSampler = false := by
  obtain ⟨id, w, hsource, hw, hfree⟩ := h
  refine ⟨id, hsource, ?_⟩
  rw [Arena.read_of_get? hw]
  exact hfree

theorem Exact.uniform_not_union (h : Exact t R W) (ht : t.arena.Every Variable.Definite)
    (hd : d ∈ t.registry.entries) (hk : d.key.isUniform = true) :
    Glsl.isUnion (t.arena.read d.id).type = false := by
  obtain ⟨v, hv, hnames⟩ := h.names d hd
  rw [Arena.read_of_get? hv]
  cases hkey : d.key with
  | uniform name =>
    rw [hkey] at hnames
    exact (ht _ v hv).not_union hnames
  | vertexAttribute _ => rw [hkey] at hk; cases hk
  | varying _ _ => rw [hkey] at hk; cases hk

/-- A sampler that is one kind of uniform has the type of what reads it, if that is one kind too. -/
theorem InputTyped.type_of_sampler {name : String} {definition : Definition} {id : VarId}
    (h : InputTyped t.arena name definition m) (hm : m.source = .var id)
    (hs : (t.arena.read id).isSampler = true)
    (hr : Glsl.isUnion (t.arena.read id).type = false)
    (hl : Glsl.isUnion (t.arena.read m.left).type = false) :
    (t.arena.read id).type = (t.arena.read m.left).type := by
  obtain ⟨w, hw, hcheck⟩ := h.right id hm
  rw [Arena.read_of_get? hw] at hs hr ⊢
  exact Typing.eq_of_typesFit ((Typing.check_eq_ok_iff _ _ _ _).mp hcheck).1 hs hl hr

/-- What was true of the mappings as they were read puts together to bound samplers. -/
theorem Exact.samplersBound (h : Exact t R W) (ht : t.arena.Every Variable.Definite)
    (hinputs : ∀ m ∈ t.inputs, SamplerRead t.arena m ∧
      ∃ name definition, InputTyped t.arena name definition m)
    (houtputs : ∀ n ∈ t.nodes, ∀ m ∈ n.outputs, SamplerFree t.arena m) : t.SamplersBound := by
  have hkinds : ∀ d ∈ t.registry.entries, d.key.isUniform = true →
      (t.arena.read d.id).isSampler = true → ∀ m ∈ t.inputs, m.source = .var d.id →
      Glsl.isUnion (t.arena.read m.left).type = false →
      (t.arena.read d.id).type = (t.arena.read m.left).type := by
    intro d hd huniform hs m hm hsource hl
    obtain ⟨name, definition, htyped⟩ := (hinputs m hm).2
    exact htyped.type_of_sampler hsource hs (h.uniform_not_union ht hd huniform) hl
  refine ⟨fun n hn m hm => (houtputs n hn m hm).not_sampler,
    fun m hm hs => (hinputs m hm).1.bound hs,
    fun d hd huniform => h.uniform_not_union ht hd huniform, hkinds,
    fun d hd huniform hs m hm m' hm' hsource hsource' hl hl' => ?_⟩
  rw [← hkinds d hd huniform hs m hm hsource hl, ← hkinds d hd huniform hs m' hm' hsource' hl']

theorem Technique.definite_finish (h : t.arena.Every Variable.Definite) :
    t.finish.arena.Every Variable.Definite :=
  t.every_finish h fun _ _ hv => ⟨hv.material, hv.world⟩

/-- A finished input mapping is one that was read, but for its condition. -/
theorem Technique.exists_input_of_finish (h : m ∈ t.finish.inputs) :
    ∃ n ∈ t.nodes, ∃ c, m.withCondition c ∈ n.inputs := by
  obtain ⟨n', hn', hm⟩ := List.mem_flatMap.mp h
  obtain ⟨n, hn, he⟩ := Technique.exists_node_of_finish hn'
  exact ⟨n, hn, Node.exists_of_unconditional he.symm hm⟩

end

/-- In every technique that is read the samplers are bound. -/
theorem samplersBound_of_readTechnique {context : Context} {statement : Statement}
    {warnings warnings' : List Warning} {t : Technique}
    (h : readTechnique context statement warnings = (.ok (some t), warnings')) :
    t.SamplersBound := by
  obtain ⟨draft, t₀, library, hdraft, hreach, rfl⟩ := built_of_readTechnique h
  have hblank := blank_of_drafts hdraft
  have hk := t₀.keeps_finish
  have hdefinite := Technique.definite_finish (definite_of_reach hblank hreach)
  have htyped := (typed_of_reach hblank hreach).nodes
  have hjudged := hreach.judged hblank SamplerRead SamplerFree
    (fun _ _ _ hk h => h.keep hk) (fun _ _ _ hk h => h.keep hk)
    (fun _ _ _ _ _ hr hi =>
      samplerRead_of_readsInput (exact_of_reach hblank hr) (definite_of_reach hblank hr) hi)
    (fun _ _ _ _ _ _ ho => samplerFree_of_readsOutput ho)
  rw [nodes_between] at hjudged htyped
  refine (exact_of_reach hblank hreach).finish.samplersBound hdefinite (fun m hm => ?_)
    fun n' hn' m hm => ?_
  · obtain ⟨n, hn, c, hc⟩ := Technique.exists_input_of_finish hm
    have hinput := ((htyped n hn).inputs _ hc).keep hk
    exact ⟨((hjudged n hn).1 _ hc).keep hk, n.name, n.definition,
      hinput.withCondition m.condition⟩
  · obtain ⟨n, hn, he⟩ := Technique.exists_node_of_finish hn'
    rw [(Node.eq_of_unconditional he).2.2.2] at hm
    exact ((hjudged n hn).2 m hm).keep hk

namespace Lit

/-- A material with two textures. The kind of the first is open. -/
def textureContext : Context where
  catalog := [⟨"ColorMap", .texture2D, none⟩, ⟨"Volume", .texture3D, none⟩]
  assets := .ofFiles []
  options := ⟨false⟩

def textureTechnique (type param : String) : Statement :=
  statement "Technique" [
    statement "ShaderNodesDefinitions" [
      statement "ShaderNodeDefinition Sample" [
        line "Type: Fragment",
        statement "Input" [line (type ++ " map")],
        statement "Output" [line "vec4 color"]]],
    statement "FragmentShaderNodes" [
      statement "ShaderNode First" [
        line "Definition : Sample",
        statement "InputMappings" [line ("map = MatParam." ++ param)],
        statement "OutputMappings" [line "Global.color = color"]],
      statement "ShaderNode Second" [
        line "Definition : Sample",
        statement "InputMappings" [line ("map = MatParam." ++ param)],
        statement "OutputMappings" [line "Global.color = color"]]]]

def sampled (t : Technique) : List (Declaration × String) × List (String × Source) :=
  (t.registry.entries.map fun d => (d, (t.arena.read d.id).type),
    t.inputs.map fun m => ((t.arena.read m.left).type, m.source))

theorem readTechnique_texture :
    ∃ t warnings,
      readTechnique textureContext (textureTechnique "sampler2DShadow" "ColorMap") [] =
        (.ok (some t), warnings) ∧
      sampled t = ([(⟨.uniform "m_ColorMap", ⟨0⟩, ["First", "Second"]⟩, "sampler2DShadow")],
        [("sampler2DShadow", .var ⟨0⟩), ("sampler2DShadow", .var ⟨0⟩)]) :=
  readTechnique_of_readTechnique? (by decide +kernel)

end Lit

/-- A texture whose kind the first of its two readers chose. -/
theorem samplersBound_texture :
    ∃ t warnings,
      readTechnique Lit.textureContext (Lit.textureTechnique "sampler2DShadow" "ColorMap") [] =
        (.ok (some t), warnings) ∧
      Lit.sampled t = ([(⟨.uniform "m_ColorMap", ⟨0⟩, ["First", "Second"]⟩, "sampler2DShadow")],
        [("sampler2DShadow", .var ⟨0⟩), ("sampler2DShadow", .var ⟨0⟩)]) ∧ t.SamplersBound := by
  obtain ⟨t, warnings, h, hread⟩ := Lit.readTechnique_texture
  exact ⟨t, warnings, h, hread, samplersBound_of_readTechnique h⟩

-- An input of several kinds is not narrowed to the one that it reads.
example :
    (readTechnique? Lit.textureContext
        (Lit.textureTechnique "sampler3D|samplerCube" "Volume")).map Lit.sampled =
      some ([(⟨.uniform "m_Volume", ⟨0⟩, ["First", "Second"]⟩, "sampler3D")],
        [("sampler3D|samplerCube", .var ⟨0⟩), ("sampler3D|samplerCube", .var ⟨0⟩)]) := by
  decide +kernel

end ShaderGraph
