/-
  ShaderGraph.Proofs.Arrays — the lengths of the arrays that a technique declares.

  A length is written in the definition of a node. A parameter of the material takes it over only
  as a number or as the define of another parameter. An attribute takes it from the input that
  reads it first, and a varying from the output that it carries, and both take it as it is
  written there, whatever it says.

  - `Variable.SizedByOrigin`: what is known of the length of a variable from where it comes.
  - `FirstLength`: the first mapping that reads an attribute gives it its length.
  - `lengthsMeasured_of_readTechnique`: so the length of a uniform can be told, and that of an
    attribute or a varying exactly where it is a number (`attribute_unmeasured`).
-/

import ShaderGraph.Proofs.Defines
import ShaderGraph.Proofs.Samplers
import ShaderGraph.Proofs.Widening

namespace ShaderGraph

open Block (Statement)
open Condition (defineOf)
open Resolution (StoresGlobal Resolves Sized attributeVariable parameterVariable outputVariable)

/-! ## Lengths by where a variable comes from -/

namespace Variable

def Literal (v : Variable) : Prop :=
  ∀ length, v.multiplicity = some length → Text.isNumeral length.toList = true

/-- A length, if there is one, is a number or the define that the variable names for it. -/
def Sizing (v : Variable) : Prop :=
  ∀ length, v.multiplicity = some length →
    Text.isNumeral length.toList = true ∨ v.sizeDefine = some length

structure SizedByOrigin (v : Variable) : Prop where
  material : v.origin = some .materialParameter → v.Sizing
  world : v.origin = some .worldParameter → v.multiplicity = none
  other : v.origin ≠ some .materialParameter → v.sizeDefine = none

theorem sizedByOrigin_of_origin {v : Variable} (origin : Namespace) (h : v.origin = some origin)
    (hm : origin ≠ .materialParameter) (hw : origin ≠ .worldParameter) (hs : v.sizeDefine = none) :
    v.SizedByOrigin :=
  ⟨fun h' => absurd (Option.some.inj (h.symm.trans h')) hm,
    fun h' => absurd (Option.some.inj (h.symm.trans h')) hw, fun _ => hs⟩

theorem SizedByOrigin.raised {v : Variable} (h : v.SizedByOrigin) : v.raised.SizedByOrigin :=
  ⟨h.material, h.world, h.other⟩

end Variable

section

variable {catalog : Catalog} {reference : Reference} {consumer : Consumer} {param : Parameter}
  {t t' : Technique} {left left' : Variable} {id : VarId}

/-- A parameter takes over a number, or the define of another parameter. -/
theorem Resolution.Sized.sizedByOrigin {length : Option Resolution.ArrayLength}
    (h : Sized catalog param t left length t' left') (type : String) :
    (parameterVariable param type length).SizedByOrigin := by
  refine ⟨fun _ => ?_, fun hw => (by cases hw), fun hm => absurd rfl hm⟩
  intro text htext
  cases h with
  | single _ => cases htext
  | literal _ _ hnum =>
    cases htext
    exact Or.inl hnum
  | byParameter _ _ _ _ =>
    cases htext
    exact Or.inr rfl

theorem Resolution.Resolves.sizedByOrigin
    (h : Resolves catalog reference consumer t left id t' left')
    (ht : t.arena.Every Variable.SizedByOrigin) : t'.arena.Every Variable.SizedByOrigin := by
  cases h with
  | global _ hs =>
    exact hs.every (Variable.sizedByOrigin_of_origin .global rfl nofun nofun rfl) ht
  | vertexAttribute _ _ ho =>
    subst ho
    exact ht.offer (Variable.sizedByOrigin_of_origin .vertexAttribute rfl nofun nofun rfl)
      t.registry _ _
  | materialParameter _ _ hs _ ho =>
    have hv := hs.sizedByOrigin
    obtain ⟨defines, rfl⟩ := hs.frame
    subst ho
    exact ht.offer (hv _) t.registry _ _
  | worldParameter _ _ ho =>
    subst ho
    exact ht.offer ⟨fun hm => (by cases hm), fun _ => rfl, fun _ => rfl⟩ t.registry _ _
  | output _ _ _ _ =>
    exact ht.add (Variable.sizedByOrigin_of_origin (.node _) rfl nofun nofun rfl)
  | varying _ _ _ _ _ ho =>
    subst ho
    exact (ht.offer (Variable.sizedByOrigin_of_origin (.node _) rfl nofun nofun rfl)
      t.registry _ _).raiseInputs (fun _ hv => hv.raised) _ _

end

section

variable {context : Context} {statement : Statement} {draft : Draft} {p q : Progress}

theorem Variable.Bare.sizedByOrigin {v : Variable} (h : v.Bare) (node : String) :
    (v.ofNode node).SizedByOrigin :=
  sizedByOrigin_of_origin (.node node) rfl nofun nofun h.sizeDefine

theorem sizedByOrigin_step (h : p.technique.arena.Every Variable.SizedByOrigin) (hb : p.Bare)
    (hs : Step context p q) : q.technique.arena.Every Variable.SizedByOrigin := by
  cases hs with
  | @opened t _ _ name _ definition _ _ =>
    obtain ⟨unused, hu⟩ := markOpened_eq t name definition
    rw [hu]
    exact h
  | condition hc =>
    obtain ⟨defines, rfl⟩ := hc.frame
    exact h
  | @input t t' library node m hi =>
    have hbare := hb.current node rfl
    cases hi with
    | code hinput hc =>
      obtain ⟨defines, rfl⟩ := hc.frame
      exact h.add ((hbare.input hinput).sizedByOrigin _)
    | @reference _ _ input left _ reference _ _ t₂ hinput hc _ hr _ =>
      obtain ⟨defines, rfl⟩ := hc.frame
      obtain ⟨unused, hu⟩ := markProducer_eq t₂ reference
      rw [hu]
      obtain ⟨-, -, horigin, -, -, hsize⟩ := Variable.core_eq_iff.mp hr.left_core
      refine (hr.sizedByOrigin h).add
        (Variable.sizedByOrigin_of_origin (.node node.name) horigin nofun nofun ?_)
      exact hsize.trans (hbare.input hinput).sizeDefine
  | @output t t' library node m ho =>
    cases ho with
    | mk houtput _ _ hc hg =>
      obtain ⟨defines, rfl⟩ := hc.frame
      have hglobal := hg.every (Variable.sizedByOrigin_of_origin .global rfl nofun nofun rfl) h
      exact hglobal.add (((hb.current node rfl).output houtput).sizedByOrigin _)
  | closed => exact h

theorem sizedByOrigin_of_reach (hd : Drafts context statement draft)
    (h : Reach context draft.progress p) : p.technique.arena.Every Variable.SizedByOrigin := by
  induction h with
  | start =>
    intro id v hv
    rw [show draft.progress.technique.arena = .empty from (blank_of_drafts hd).arena] at hv
    cases hv
  | step hr hs ih => exact sizedByOrigin_step ih (bare_of_reach hd hr) hs

end

/-! ## The first reader of an attribute -/

/-- The first mapping that reads the variable has an input of the same length. -/
def FirstLength (a : Arena) (inputs : List Mapping) (id : VarId) : Prop :=
  ∃ m v left, inputs.find? (·.reads id) = some m ∧ a.get? id = some v ∧
    a.get? m.left = some left ∧ left.multiplicity = v.multiplicity

def Progress.FirstLengths (p : Progress) : Prop :=
  ∀ d ∈ p.technique.registry.entries, d.key.isAttribute = true →
    FirstLength p.technique.arena p.inputs d.id

section

variable {context : Context} {catalog : Catalog} {reference : Reference} {consumer : Consumer}
  {t t' : Technique} {left left' : Variable} {id : VarId} {a b : Arena}
  {inputs more : List Mapping} {draft : Draft} {p q : Progress} {library : List Definition}
  {node : Node} {m : Mapping} {R W : VarId → Prop}

/-- More readers do not count, and neither does what is added to the arena. -/
theorem FirstLength.keep (h : FirstLength a inputs id) (hk : a.Keeps b) :
    FirstLength b (inputs ++ more) id := by
  obtain ⟨m, v, left, hm, hv, hleft, hlength⟩ := h
  obtain ⟨v', hv', hcore⟩ := hk id v hv
  obtain ⟨left', hleft', hcore'⟩ := hk m.left left hleft
  refine ⟨m, v', left', ?_, hv', hleft', ?_⟩
  · rw [List.find?_append, hm]
    rfl
  · rw [(Variable.core_eq_iff.mp hcore).2.2.2.1, (Variable.core_eq_iff.mp hcore').2.2.2.1, hlength]

theorem Progress.FirstLengths.keep (h : p.FirstLengths)
    (hk : p.technique.arena.Keeps q.technique.arena)
    (hr : q.technique.registry = p.technique.registry) (hi : p.inputs <+: q.inputs) :
    q.FirstLengths := by
  obtain ⟨more, hi⟩ := hi
  intro d hd hattribute
  rw [hr] at hd
  rw [← hi]
  exact (h d hd hattribute).keep hk

/-- A declaration after an offer was there, or it is the one of the variable that is offered. -/
theorem mem_of_offer {key : DeclKey} {v : Variable} {o : Offered} {e : Declaration}
    (ho : o = t.offer key v consumer) (he : e ∈ o.registry.entries) :
    (∃ d ∈ t.registry.entries, d.key = e.key ∧ d.id = e.id) ∨
      e.key = key ∧ e.id = o.id ∧ o.id = t.arena.nextId ∧ o.arena.get? o.id = some v := by
  unfold Technique.offer at ho
  rcases Registry.offer_cases t.registry t.arena key v consumer.name with
    ⟨d, -, -, hcase⟩ | ⟨-, hcase⟩
  · rw [hcase] at ho
    subst ho
    exact Or.inl (Registry.mem_addConsumer he)
  · rw [hcase] at ho
    subst ho
    rcases Registry.mem_addDeclaration.mp he with he | rfl
    · exact Or.inl ⟨e, he, rfl, rfl⟩
    · exact Or.inr ⟨rfl, rfl, rfl, Arena.get?_add_nextId _ _⟩

/-- A declaration of an attribute was there, or it is new and takes the length of the left side. -/
theorem Resolution.Resolves.attribute_cases
    (h : Resolves catalog reference consumer t left id t' left') {e : Declaration}
    (he : e ∈ t'.registry.entries) (hattribute : e.key.isAttribute = true) :
    (∃ d ∈ t.registry.entries, d.key = e.key ∧ d.id = e.id) ∨
      e.id = id ∧ id = t.arena.nextId ∧
        ∃ v, t'.arena.get? id = some v ∧ v.multiplicity = left.multiplicity := by
  -- what is offered under another key is no attribute
  have other : ∀ {key v o}, o = t.offer key v consumer → key.isAttribute = false →
      e ∈ o.registry.entries → ∃ d ∈ t.registry.entries, d.key = e.key ∧ d.id = e.id := by
    intro key v o ho hkey he
    rcases mem_of_offer ho he with hold | ⟨rfl, -⟩
    · exact hold
    · rw [hkey] at hattribute
      cases hattribute
  cases h with
  | global _ hs =>
    rw [hs.sameDeclarations.registry] at he
    exact Or.inl ⟨e, he, rfl, rfl⟩
  | vertexAttribute _ _ ho =>
    rcases mem_of_offer ho he with hold | ⟨-, hid, hnext, hv⟩
    · exact Or.inl hold
    · exact Or.inr ⟨hid, hnext, _, hv, rfl⟩
  | materialParameter _ _ hs _ ho =>
    obtain ⟨defines, rfl⟩ := hs.frame
    exact Or.inl (other ho rfl he)
  | worldParameter _ _ ho => exact Or.inl (other ho rfl he)
  | output _ _ _ _ => exact Or.inl ⟨e, he, rfl, rfl⟩
  | varying _ _ _ _ _ ho => exact Or.inl (other ho rfl he)

theorem firstLengths_of_readsInput (h : Progress.FirstLengths ⟨t, library, some node⟩)
    (hc : Progress.Coherent ⟨t, library, some node⟩) (hk : t.arena.Keeps t'.arena)
    (hi : ReadsInput catalog node t m t') :
    Progress.FirstLengths ⟨t', library, some { node with inputs := node.inputs ++ [m] }⟩ := by
  have hinputs : Progress.inputs ⟨t', library, some { node with inputs := node.inputs ++ [m] }⟩ =
      Progress.inputs ⟨t, library, some node⟩ ++ [m] := inputs_input m hi.nodes
  cases hi with
  | code _ hcondition =>
    obtain ⟨defines, rfl⟩ := hcondition.frame
    exact h.keep hk rfl (hinputs ▸ List.prefix_append _ _)
  | @reference _ _ _ left' _ reference id t₁ t₂ _ hcondition _ hr _ =>
    obtain ⟨defines, rfl⟩ := hcondition.frame
    obtain ⟨unused, hu⟩ := markProducer_eq t₂ reference
    rw [hu] at hk hinputs ⊢
    intro e he hattribute
    rw [hinputs]
    rcases hr.attribute_cases he hattribute with ⟨d, hd, hkey, hid⟩ | ⟨hid, hnext, v, hv, hlength⟩
    · rw [← hid]
      exact (h d hd (hkey ▸ hattribute)).keep hk
    · -- nothing has read the new variable before
      subst hid
      have hnone : (Progress.inputs ⟨t, library, some node⟩).find? (·.reads e.id) = none := by
        refine List.find?_eq_none.mpr fun m hm hreads => ?_
        rw [hnext] at hreads
        exact hc.exact.not_read_nextId ⟨m, hm, beq_iff_eq.mp hreads⟩
      have hfirst : ∀ m' : Mapping, m'.source = .var e.id →
          (Progress.inputs ⟨t, library, some node⟩ ++ [m']).find? (·.reads e.id) = some m' := by
        intro m' hm'
        rw [List.find?_append, hnone]
        simp [Mapping.reads, hm']
      have hleft : left'.multiplicity = v.multiplicity :=
        (Variable.core_eq_iff.mp hr.left_core).2.2.2.1.trans hlength.symm
      exact ⟨_, v, left', hfirst _ rfl, Arena.get?_add_of_get? hv left',
        Arena.get?_add_nextId _ _, hleft⟩

theorem firstLengths_step (h : p.FirstLengths) (hc : p.Coherent) (hstored : Stored p.technique)
    (hs : Step context p q) : q.FirstLengths := by
  have hk := keeps_of_step hstored hs
  cases hs with
  | @opened t library library' name line definition _ _ =>
    have hinputs := inputs_opened (t := t) library library' name name definition
    obtain ⟨unused, hu⟩ := markOpened_eq t name definition
    rw [hu] at hk hinputs ⊢
    exact h.keep hk rfl (hinputs ▸ List.prefix_refl _)
  | @condition t t' library node c hcondition =>
    obtain ⟨defines, rfl⟩ := hcondition.frame
    have hinputs : Progress.inputs
        ⟨{ t with defines }, library, some { node with condition := c }⟩ =
          Progress.inputs ⟨t, library, some node⟩ := inputs_of_eq rfl rfl
    exact h.keep hk rfl (hinputs ▸ List.prefix_refl _)
  | input hi => exact firstLengths_of_readsInput h hc hk hi
  | @output t t' library node m ho =>
    have hinputs : Progress.inputs
        ⟨t', library, some { node with outputs := node.outputs ++ [m] }⟩ =
          Progress.inputs ⟨t, library, some node⟩ := inputs_of_eq ho.nodes rfl
    have hregistry : t'.registry = t.registry := by
      cases ho with
      | mk _ _ _ hcondition hg =>
        obtain ⟨defines, rfl⟩ := hcondition.frame
        exact hg.sameDeclarations.registry
    exact h.keep hk hregistry (hinputs ▸ List.prefix_refl _)
  | closed => exact h.keep hk rfl (by rw [inputs_closed])

theorem firstLengths_of_reach (hd : draft.technique.Blank) (h : Reach context draft.progress p) :
    p.FirstLengths := by
  induction h with
  | start =>
    intro d hmem
    rw [show draft.progress.technique.registry = .empty from hd.registry] at hmem
    exact absurd hmem List.not_mem_nil
  | step hr hs ih =>
    exact firstLengths_step ih (coherent_of_reach hd hr) (typed_of_reach hd hr).stored hs

end

/-! ## Finished techniques -/

namespace Variable

/-- The length, if there is one, can be told: it is a number, or the define that the variable names
for it, and that is the upper case of a parameter that is bound. -/
def Measured (catalog : Catalog) (defines : DefineTable) (v : Variable) : Prop :=
  ∀ length, v.multiplicity = some length →
    Text.isNumeral length.toList = true ∨ v.sizeDefine = some length ∧
      ∃ b ∈ defines.bindings, ∃ size, catalog.param? b.param = some size ∧
        length = defineOf size.name

variable {catalog : Catalog} {defines : DefineTable} {v : Variable}

theorem Sizing.measured (h : v.Sizing)
    (hbound : ∀ define, v.sizeDefine = some define → defines.Binds define)
    (hdeclared : ∀ b ∈ defines.bindings, ∃ size, catalog.param? b.param = some size) :
    v.Measured catalog defines := by
  intro length hlength
  rcases h length hlength with hnum | hsize
  · exact Or.inl hnum
  · obtain ⟨b, hb, rfl⟩ := hbound length hsize
    obtain ⟨size, hparam⟩ := hdeclared b hb
    exact Or.inr ⟨hsize, b, hb, size, hparam, by rw [name_of_param? hparam]⟩

theorem Literal.measured (h : v.Literal) : v.Measured catalog defines :=
  fun length hlength => Or.inl (h length hlength)

theorem Measured.literal (h : v.Measured catalog defines) (hs : v.sizeDefine = none) :
    v.Literal := by
  intro length hlength
  rcases h length hlength with hnum | ⟨hsize, -⟩
  · exact hnum
  · rw [hs] at hsize
    cases hsize

end Variable

/-- The lengths of the declared arrays. That of a uniform can be told. An attribute has that of the
input that reads it first and a varying that of the output it carries, and these can be told
where they are numbers. -/
structure Technique.LengthsMeasured (catalog : Catalog) (t : Technique) : Prop where
  uniforms : ∀ d ∈ t.registry.entries, d.key.isUniform = true →
    (t.arena.read d.id).Measured catalog t.defines
  attributes : ∀ d ∈ t.registry.entries, d.key.isAttribute = true →
    ∃ m, t.inputs.find? (·.reads d.id) = some m ∧
      (t.arena.read m.left).multiplicity = (t.arena.read d.id).multiplicity
  varyings : ∀ d ∈ t.registry.entries, ∀ producer output, d.key = .varying producer output →
    ∃ n ∈ t.nodes, n.name = producer ∧ ∃ o ∈ n.definition.outputs,
      o.name = output ∧ o.multiplicity = (t.arena.read d.id).multiplicity
  measured_iff : ∀ d ∈ t.registry.entries,
    (t.arena.read d.id).Measured catalog t.defines ↔
      d.key.isUniform = true ∨ (t.arena.read d.id).Literal

section

variable {t : Technique} {id : VarId} {d : Declaration} {catalog : Catalog} {R W : VarId → Prop}

/-- The variable of a uniform is one of the material or of the engine, and that of any other
declaration is neither. -/
theorem Exact.sized (h : Exact t R W) (ht : t.arena.Every Variable.SizedByOrigin)
    (hd : d ∈ t.registry.entries) :
    (d.key.isUniform = true → (t.arena.read d.id).Sizing) ∧
      (d.key.isUniform = false → (t.arena.read d.id).sizeDefine = none) := by
  obtain ⟨v, hv, hnames⟩ := h.names d hd
  have hsized := ht _ v hv
  rw [Arena.read_of_get? hv]
  cases hkey : d.key with
  | uniform name =>
    rw [hkey] at hnames
    refine ⟨fun _ => ?_, fun hno => (by cases hno)⟩
    rcases hnames.1 with hmaterial | hworld
    · exact hsized.material hmaterial
    · intro length hlength
      rw [hsized.world hworld] at hlength
      cases hlength
  | vertexAttribute name =>
    rw [hkey] at hnames
    refine ⟨fun hno => (by cases hno), fun _ => hsized.other ?_⟩
    rw [hnames.1]
    nofun
  | varying producer output =>
    rw [hkey] at hnames
    refine ⟨fun hno => (by cases hno), fun _ => hsized.other ?_⟩
    rw [hnames.1]
    nofun

/-- Conditions do not count for who reads a variable first. -/
theorem FirstLength.finish (h : FirstLength t.arena t.inputs id) :
    FirstLength t.finish.arena t.finish.inputs id := by
  obtain ⟨m, v, left, hm, hv, hleft, hlength⟩ := h
  have hfind : ∀ ms : List Mapping, (ms.map (·.withCondition none)).find? (·.reads id) =
      (ms.find? (·.reads id)).map (·.withCondition none) := fun ms => List.find?_map
  have hsame := hfind t.finish.inputs
  rw [Technique.finish_inputs, hfind, hm] at hsame
  obtain ⟨m', hm', he⟩ := Option.map_eq_some_iff.mp hsame.symm
  have hside : (m'.withCondition none).left = (m.withCondition none).left := congrArg _ he
  obtain ⟨c, hfinished⟩ := Technique.finish_get? hv
  obtain ⟨c', hfinished'⟩ := Technique.finish_get? hleft
  rw [← show m'.left = m.left from hside] at hfinished'
  exact ⟨m', _, _, hm', hfinished, hfinished', hlength⟩

theorem FirstLength.read (h : FirstLength t.arena t.inputs id) :
    ∃ m, t.inputs.find? (·.reads id) = some m ∧
      (t.arena.read m.left).multiplicity = (t.arena.read id).multiplicity := by
  obtain ⟨m, v, left, hm, hv, hleft, hlength⟩ := h
  refine ⟨m, hm, ?_⟩
  rw [Arena.read_of_get? hv, Arena.read_of_get? hleft]
  exact hlength

/-- A varying has the length of the output that it carries. -/
theorem Flowing.length_of_varying {library : List Definition} {producer output : String}
    (h : Flowing ⟨t, library, none⟩) (hexact : Exact t (Reads t.inputs) W)
    (hd : d ∈ t.registry.entries) (hkey : d.key = .varying producer output) :
    ∃ n ∈ t.nodes, n.name = producer ∧ ∃ o ∈ n.definition.outputs,
      o.name = output ∧ o.multiplicity = (t.arena.read d.id).multiplicity := by
  obtain ⟨m, hm, hsource⟩ := hexact.read d hd
  obtain ⟨reader, hreader, hmn⟩ := List.mem_flatMap.mp hm
  obtain ⟨before, after, hsplit⟩ := List.append_of_mem hreader
  have hnodes := flowing_closed.mp h
  rw [hsplit] at hnodes
  obtain ⟨v, hv, hsupplied⟩ := hnodes.admitted_at m hmn d.id hsource
  obtain ⟨w, hw, hnames⟩ := hexact.names d hd
  rw [hv] at hw
  cases hw
  rw [hkey] at hnames
  obtain ⟨horigin, hname, -⟩ := hnames
  obtain ⟨n, hn, hmakes, -⟩ := hsupplied producer horigin
  obtain ⟨o, ho, honame, -, hlength⟩ := hmakes.output
  refine ⟨n, hsplit ▸ List.mem_append_left _ hn, ?_, o, ho, honame.trans hname, ?_⟩
  · simpa [horigin] using hmakes.origin.symm
  · rw [Arena.read_of_get? hv]
    exact hlength

end

/-- In every technique that is read, the lengths of uniforms can be told, and other lengths where
they are numbers. -/
theorem lengthsMeasured_of_readTechnique {context : Context} {statement : Statement}
    {warnings warnings' : List Warning} {t : Technique}
    (h : readTechnique context statement warnings = (.ok (some t), warnings')) :
    t.LengthsMeasured context.catalog := by
  obtain ⟨t₀, hread, rfl⟩ := asRead_of_readTechnique h
  obtain ⟨draft, library, hdraft, hreach⟩ := hread.reach
  have hblank := blank_of_drafts hdraft
  have hexact := exact_of_reach hblank hreach
  rw [inputs_between] at hexact
  have hsized := t₀.every_finish (sizedByOrigin_of_reach hdraft hreach)
    fun _ _ hv => ⟨hv.material, hv.world, hv.other⟩
  have hbound : t₀.finish.arena.Every fun v =>
      ∀ define, v.sizeDefine = some define → t₀.defines.Binds define :=
    t₀.every_finish (fun id v hv => ((registered_of_reach hdraft hreach).arena id v hv).length)
      fun _ _ hv => hv
  have hdeclared : ∀ b ∈ t₀.defines.bindings, ∃ size,
      context.catalog.param? b.param = some size := by
    intro b hb
    obtain ⟨param, -, hparam, -⟩ := (definesTyped_of_asRead hread).typed b hb
    exact ⟨param, hparam⟩
  have huniform : ∀ d ∈ t₀.registry.entries, d.key.isUniform = true →
      (t₀.finish.arena.read d.id).Measured context.catalog t₀.defines := by
    intro d hd hkey
    obtain ⟨v, hv, -⟩ := hexact.finish.names d hd
    have hsizing := (hexact.finish.sized hsized hd).1 hkey
    rw [Arena.read_of_get? hv] at hsizing ⊢
    exact hsizing.measured (hbound _ v hv) hdeclared
  refine ⟨huniform, fun d hd hkey => ?_, fun d hd producer output hkey => ?_, fun d hd => ?_⟩
  · have hfirst := firstLengths_of_reach hblank hreach d hd hkey
    rw [inputs_between] at hfirst
    exact hfirst.finish.read
  · obtain ⟨n, hn, rfl, o, ho, hname, hlength⟩ :=
      (flowing_of_reach hblank hreach).length_of_varying hexact hd hkey
    obtain ⟨n', hn', hnode, hdefinition⟩ := Technique.exists_finish_node hn
    obtain ⟨v, hv⟩ := Arena.exists_get? (hexact.stored (hexact.read d hd))
    obtain ⟨c, hfinished⟩ := Technique.finish_get? hv
    refine ⟨n', hn', hnode, o, hdefinition ▸ ho, hname, ?_⟩
    rw [Arena.read_of_get? hv] at hlength
    rw [Arena.read_of_get? hfinished]
    exact hlength
  · constructor
    · intro hmeasured
      cases hkey : d.key.isUniform with
      | true => exact Or.inl rfl
      | false => exact Or.inr (hmeasured.literal ((hexact.finish.sized hsized hd).2 hkey))
    · rintro (hkey | hliteral)
      · exact huniform d hd hkey
      · exact hliteral.measured

namespace Lit

def skinnedContext : Context where
  catalog := [⟨"Bones", .array .matrix4, none⟩, ⟨"NbBones", .single .int, none⟩]
  assets := .ofFiles []
  options := ⟨false⟩

def skinnedTechnique (length : String) : Statement :=
  statement "Technique" [
    statement "ShaderNodesDefinitions" [
      statement "ShaderNodeDefinition Skin" [
        line "Type: Vertex",
        statement "Input" [line "mat4 bones[NbBones]", line s!"vec4 weights[{length}]"],
        statement "Output" [line "vec4 skinned"]]],
    statement "VertexShaderNodes" [
      statement "ShaderNode Skinned" [
        line "Definition : Skin",
        statement "InputMappings" [
          line "bones = MatParam.Bones", line "weights = Attr.inWeights"],
        statement "OutputMappings" [line "Global.position = skinned"]]]]

def lengths (t : Technique) : List (Declaration × Option String × Option String) :=
  t.registry.entries.map fun d =>
    (d, (t.arena.read d.id).multiplicity, (t.arena.read d.id).sizeDefine)

end Lit

/-- The length of the bones is a define, and that of the weights a number. -/
theorem lengthsMeasured_skinned :
    ∃ t warnings,
      readTechnique Lit.skinnedContext (Lit.skinnedTechnique "4") [] = (.ok (some t), warnings) ∧
      Lit.lengths t = [
        (⟨.uniform "m_Bones", ⟨0⟩, ["Skinned"]⟩, some "NBBONES", some "NBBONES"),
        (⟨.vertexAttribute "inWeights", ⟨2⟩, ["Skinned"]⟩, some "4", none)] ∧
      t.LengthsMeasured Lit.skinnedContext.catalog := by
  obtain ⟨t, warnings, h, hread⟩ := readTechnique_of_readTechnique?
    (f := Lit.lengths) (a := [
        (⟨.uniform "m_Bones", ⟨0⟩, ["Skinned"]⟩, some "NBBONES", some "NBBONES"),
        (⟨.vertexAttribute "inWeights", ⟨2⟩, ["Skinned"]⟩, some "4", none)])
    (show (readTechnique? Lit.skinnedContext (Lit.skinnedTechnique "4")).map _ = _ by
      decide +kernel)
  exact ⟨t, warnings, h, hread, lengthsMeasured_of_readTechnique h⟩

/-- A length that is neither a number nor a parameter is refused where a parameter is read, and
declared where an attribute is. -/
theorem attribute_unmeasured :
    ∃ t warnings,
      readTechnique Lit.skinnedContext (Lit.skinnedTechnique "Weights") [] =
        (.ok (some t), warnings) ∧
      Lit.skinnedContext.catalog.param? "Weights" = none ∧
      ∃ d ∈ t.registry.entries, d.key = .vertexAttribute "inWeights" ∧
        (t.arena.read d.id).multiplicity = some "Weights" ∧
        (t.arena.read d.id).sizeDefine = none ∧
        ¬ (t.arena.read d.id).Measured Lit.skinnedContext.catalog t.defines := by
  obtain ⟨t, warnings, h, hread⟩ := readTechnique_of_readTechnique?
    (f := Lit.lengths) (a := [
        (⟨.uniform "m_Bones", ⟨0⟩, ["Skinned"]⟩, some "NBBONES", some "NBBONES"),
        (⟨.vertexAttribute "inWeights", ⟨2⟩, ["Skinned"]⟩, some "Weights", none)])
    (show (readTechnique? Lit.skinnedContext (Lit.skinnedTechnique "Weights")).map _ = _ by
      decide +kernel)
  have hmem : (⟨.vertexAttribute "inWeights", ⟨2⟩, ["Skinned"]⟩, some "Weights", none) ∈
      Lit.lengths t := by
    rw [hread]
    exact List.mem_cons_of_mem _ List.mem_cons_self
  obtain ⟨d, hd, he⟩ := List.mem_map.mp hmem
  obtain ⟨rfl, hlength, hsize⟩ : _ ∧ _ ∧ _ := by simpa only [Prod.mk.injEq] using he
  refine ⟨t, warnings, h, rfl, _, hd, rfl, hlength, hsize, fun hmeasured => ?_⟩
  rcases hmeasured "Weights" hlength with hnum | ⟨hdefine, -⟩
  · exact absurd hnum (by decide)
  · rw [hsize] at hdefine
    cases hdefine

end ShaderGraph
