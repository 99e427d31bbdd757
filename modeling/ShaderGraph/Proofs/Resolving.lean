/-
  ShaderGraph.Proofs.Resolving — what resolving a reference does to a technique.

  Each way in which a reference is found is one case of `Resolves`, with the technique and
  the left side before and after it. `resolves_of_resolve` says that there are no others.
  What is known of a technique from here on is proved case by case over this relation.
-/

import ShaderGraph.Proofs.Registry
import ShaderGraph.Proofs.Success
import ShaderGraph.Resolution

namespace ShaderGraph

/-! ## Changes of a technique -/

/-- The variable as an output of its stage. -/
def Variable.raised (v : Variable) : Variable := { v with isOutput := true }

def Variable.neededUnder (v : Variable) (define : String) : Variable :=
  { v with condition := Condition.merge v.condition (some (Condition.guard define)) "||" }

namespace Technique

def addVariable (t : Technique) (v : Variable) : Technique := { t with arena := t.arena.add v }

def withInterface (t : Technique) (interface : Interface) : Technique := { t with interface }

def offer (t : Technique) (key : DeclKey) (v : Variable) (consumer : Consumer) : Offered :=
  t.registry.offer t.arena key v consumer.name

def afterOffer (t : Technique) (o : Offered) : Technique :=
  { t with registry := o.registry, arena := o.arena }

end Technique

def Interface.globals (i : Interface) : List VarId := i.vertexGlobal.toList ++ i.fragmentGlobals

namespace Resolution

def Interface.listAttribute (i : Interface) (o : Offered) : Interface :=
  if o.isNew then { i with attributes := i.attributes ++ [o.id] } else i

def Interface.listVarying (i : Interface) (o : Offered) : Interface :=
  if o.isNew then { i with varyings := i.varyings ++ [o.id] } else i

theorem globals_listAttribute (i : Interface) (o : Offered) :
    (Interface.listAttribute i o).globals = i.globals := by
  unfold Interface.listAttribute
  split <;> rfl

theorem globals_listVarying (i : Interface) (o : Offered) :
    (Interface.listVarying i o).globals = i.globals := by
  unfold Interface.listVarying
  split <;> rfl

theorem globals_listUniform (i : Interface) (stage : Stage) (id : VarId) :
    (Interface.listUniform i stage id).globals = i.globals := by
  cases stage <;> rfl

/-! ## The variables that are offered -/

def attributeVariable (reference : Reference) (left : Variable) : Variable :=
  let type := match Glsl.cardinality? left.type reference.swizzle with
    | some count => Glsl.floatType count
    | none => left.type
  { Variable.plain type reference.name with
    origin := some .vertexAttribute, multiplicity := left.multiplicity }

def parameterVariable (param : Parameter) (type : String) (length : Option ArrayLength) :
    Variable :=
  { Variable.plain type param.uniformName with
    origin := some .materialParameter
    multiplicity := length.map (·.text)
    sizeDefine := length.bind (·.define) }

def worldVariable (binding : WorldBinding) : Variable :=
  { Variable.plain binding.glslType binding.uniformName with origin := some .worldParameter }

def outputVariable (producer : Node) (output : Variable) : Variable :=
  { Variable.plain output.type output.name with
    origin := some (.node producer.name), multiplicity := output.multiplicity }

/-! ## Every way to a variable -/

/-- Storing a global: the vertex stage has one, the fragment stage one for each name. -/
inductive StoresGlobal (v : Variable) : Stage → Technique → VarId → Technique → Prop
  | vertexFound {t : Technique} {id : VarId} :
      t.interface.vertexGlobal = some id → (t.arena.read id).name = v.name →
      StoresGlobal v .vertex t id t
  | vertexNew {t : Technique} :
      t.interface.vertexGlobal = none →
      StoresGlobal v .vertex t t.arena.nextId ((t.addVariable v.raised).withInterface
        { t.interface with vertexGlobal := some t.arena.nextId })
  | fragmentFound {t : Technique} {id : VarId} :
      t.interface.fragmentGlobals.find? (fun id => (t.arena.read id).name == v.name) = some id →
      StoresGlobal v .fragment t id t
  | fragmentNew {t : Technique} :
      t.interface.fragmentGlobals.find? (fun id => (t.arena.read id).name == v.name) = none →
      StoresGlobal v .fragment t t.arena.nextId ((t.addVariable v.raised).withInterface
        { t.interface with fragmentGlobals := t.interface.fragmentGlobals ++ [t.arena.nextId] })
  | other {stage : Stage} {t : Technique} :
      stage ≠ .vertex → stage ≠ .fragment →
      StoresGlobal v stage t t.arena.nextId (t.addVariable v.raised)

inductive Sized (catalog : Catalog) (param : Parameter) (t : Technique) (left : Variable) :
    Option ArrayLength → Technique → Variable → Prop
  | single : left.multiplicity = none → Sized catalog param t left none t left
  | literal {length : String} :
      left.multiplicity = some length → param.type.isArray = true →
      Text.isNumeral length.toList = true → Sized catalog param t left (some ⟨length, none⟩) t left
  | byParameter {length : String} {size : Parameter} :
      left.multiplicity = some length → param.type.isArray = true →
      Text.isNumeral length.toList = false → catalog.param? length = some size →
      Sized catalog param t left
        (some ⟨Condition.defineOf length, some (Condition.defineOf length)⟩)
        (t.bindDefine size.name (Condition.defineOf size.name) (.single .int))
        (left.neededUnder (Condition.defineOf length))

/-- Resolving a reference, with the left side before and after it. -/
inductive Resolves (catalog : Catalog) (reference : Reference) (consumer : Consumer)
    (t : Technique) (left : Variable) : VarId → Technique → Variable → Prop
  | global {id : VarId} {t' : Technique} :
      reference.origin = some .global →
      StoresGlobal (globalVariable reference.name) consumer.stage t id t' →
      Resolves catalog reference consumer t left id t' left
  | vertexAttribute {o : Offered} :
      reference.origin = some .vertexAttribute → consumer.stage ≠ .fragment →
      o = t.offer (.vertexAttribute reference.name) (attributeVariable reference left) consumer →
      Resolves catalog reference consumer t left o.id
        ((t.afterOffer o).withInterface (Interface.listAttribute t.interface o)) left
  | materialParameter {param : Parameter} {length : Option ArrayLength} {type : String}
      {t₁ : Technique} {left' : Variable} {o : Offered} :
      reference.origin = some .materialParameter → catalog.param? reference.name = some param →
      Sized catalog param t left length t₁ left' → uniformType param left.type = .ok type →
      o = t₁.offer (.uniform param.uniformName) (parameterVariable param type length) consumer →
      Resolves catalog reference consumer t left o.id
        ((t₁.afterOffer o).withInterface
          (Interface.listUniform t₁.interface consumer.stage o.id)) left'
  | worldParameter {binding : WorldBinding} {o : Offered} :
      reference.origin = some .worldParameter →
      t.worldBindings.find? (·.name == reference.name) = some binding →
      o = t.offer (.uniform binding.uniformName) (worldVariable binding) consumer →
      Resolves catalog reference consumer t left o.id
        ((t.afterOffer o).withInterface
          (Interface.listUniform t.interface consumer.stage o.id)) left
  | output {producer : String} {node : Node} {output : Variable} :
      reference.origin = some (.node producer) → t.node? producer = some node →
      node.definition.output? reference.name = some output → node.stage = consumer.stage →
      Resolves catalog reference consumer t left t.arena.nextId
        (t.addVariable (outputVariable node output)) left
  | varying {producer : String} {node : Node} {output : Variable} {o : Offered} :
      reference.origin = some (.node producer) → t.node? producer = some node →
      node.definition.output? reference.name = some output →
      node.stage = .vertex → consumer.stage = .fragment →
      o = t.offer (.varying node.name output.name) (outputVariable node output).raised consumer →
      Resolves catalog reference consumer t left o.id
        { (t.afterOffer o).withInterface (Interface.listVarying t.interface o) with
          arena := raiseInputs node (o.arena.read o.id).name o.arena } left

/-! ## There is no other way -/

section

variable {catalog : Catalog} {reference : Reference} {consumer : Consumer}
  {t t' : Technique} {left left' v : Variable} {id : VarId}

@[simp] theorem store_eq_ok :
    store v t = (.ok id, t') ↔ t.arena.nextId = id ∧ t.addVariable v = t' := by
  simp only [store, Attempt.bind_eq_ok, Attempt.get_eq_ok, Attempt.modify_eq_ok,
    Attempt.pure_eq_ok]
  constructor
  · rintro ⟨_, _, ⟨rfl, rfl⟩, _, _, rfl, rfl, rfl⟩
    exact ⟨rfl, rfl⟩
  · rintro ⟨rfl, rfl⟩
    exact ⟨t, t, ⟨rfl, rfl⟩, (), _, rfl, rfl, rfl⟩

@[simp] theorem declare_eq_ok {key : DeclKey} {p : VarId × Bool} :
    declare key v consumer t = (.ok p, t') ↔
      ((t.offer key v consumer).id, (t.offer key v consumer).isNew) = p ∧
        t.afterOffer (t.offer key v consumer) = t' := by
  simp only [declare, Attempt.bind_eq_ok, Attempt.get_eq_ok, Attempt.modify_eq_ok,
    Attempt.pure_eq_ok]
  constructor
  · rintro ⟨_, _, ⟨rfl, rfl⟩, _, _, rfl, rfl, rfl⟩
    exact ⟨rfl, rfl⟩
  · rintro ⟨rfl, rfl⟩
    exact ⟨t, t, ⟨rfl, rfl⟩, (), _, rfl, rfl, rfl⟩

@[simp] theorem declareUniform_eq_ok :
    declareUniform v consumer t = (.ok id, t') ↔
      (t.offer (.uniform v.name) v consumer).id = id ∧
        (t.afterOffer (t.offer (.uniform v.name) v consumer)).withInterface
          (Interface.listUniform t.interface consumer.stage
            (t.offer (.uniform v.name) v consumer).id) = t' := by
  simp only [declareUniform, Attempt.bind_eq_ok, declare_eq_ok, Attempt.modify_eq_ok,
    Attempt.pure_eq_ok]
  constructor
  · rintro ⟨_, _, ⟨rfl, rfl⟩, _, _, rfl, rfl, rfl⟩
    exact ⟨rfl, rfl⟩
  · rintro ⟨rfl, rfl⟩
    exact ⟨_, _, ⟨rfl, rfl⟩, (), _, rfl, rfl, rfl⟩

/-- What succeeds for a declaring step in a resolving one. -/
@[simp] theorem resolving_eq_ok {α : Type} {step : Declaring α} {a : α} {w w' : Wiring} :
    step.resolving w = (.ok a, w') ↔
      ∃ t, step w.technique = (.ok a, t) ∧ w.setTechnique t = w' := Attempt.onPart_eq_ok

theorem storesGlobal_of_ok {stage : Stage} (h : storeGlobal v stage t = (.ok id, t')) :
    StoresGlobal v stage t id t' := by
  simp only [storeGlobal, Attempt.bind_eq_ok, Attempt.get_eq_ok] at h
  obtain ⟨_, _, ⟨rfl, rfl⟩, h⟩ := h
  cases stage with
  | vertex =>
    cases hg : t.interface.vertexGlobal with
    | some g =>
      simp only [hg] at h
      split at h
      · next hname =>
        obtain ⟨rfl, rfl⟩ := Attempt.pure_eq_ok.mp h
        exact .vertexFound hg hname
      · exact absurd h Attempt.throw_ne_ok
    | none =>
      simp only [hg, Attempt.bind_eq_ok, store_eq_ok, Attempt.modify_eq_ok,
        Attempt.pure_eq_ok] at h
      obtain ⟨_, _, ⟨rfl, rfl⟩, _, _, rfl, rfl, rfl⟩ := h
      exact .vertexNew hg
  | fragment =>
    cases hg : t.interface.fragmentGlobals.find? (fun id => (t.arena.read id).name == v.name) with
    | some g =>
      simp only [hg] at h
      obtain ⟨rfl, rfl⟩ := Attempt.pure_eq_ok.mp h
      exact .fragmentFound hg
    | none =>
      simp only [hg, Attempt.bind_eq_ok, store_eq_ok, Attempt.modify_eq_ok,
        Attempt.pure_eq_ok] at h
      obtain ⟨_, _, ⟨rfl, rfl⟩, _, _, rfl, rfl, rfl⟩ := h
      exact .fragmentNew hg
  | _ =>
    obtain ⟨rfl, rfl⟩ := store_eq_ok.mp h
    exact .other (by simp) (by simp)

theorem resolveAttribute_eq (h : consumer.stage ≠ .fragment) :
    resolveAttribute reference left consumer = do
      let p ← declare (.vertexAttribute reference.name) (attributeVariable reference left) consumer
      if p.2 then
        Attempt.modify fun t => t.withInterface
          { t.interface with attributes := t.interface.attributes ++ [p.1] }
      return p.1 := by
  rw [resolveAttribute, if_neg h]
  rfl

theorem resolveAttribute_ok (h : resolveAttribute reference left consumer t = (.ok id, t')) :
    consumer.stage ≠ .fragment ∧ ∃ o,
      o = t.offer (.vertexAttribute reference.name) (attributeVariable reference left) consumer ∧
      o.id = id ∧ (t.afterOffer o).withInterface (Interface.listAttribute t.interface o) = t' := by
  by_cases hstage : consumer.stage = .fragment
  · rw [resolveAttribute, if_pos hstage] at h
    exact absurd h Attempt.throw_ne_ok
  · rw [resolveAttribute_eq hstage] at h
    simp only [Attempt.bind_eq_ok, declare_eq_ok] at h
    obtain ⟨_, _, ⟨rfl, rfl⟩, h⟩ := h
    refine ⟨hstage, _, rfl, ?_⟩
    generalize t.offer _ _ consumer = o at h ⊢
    unfold Interface.listAttribute
    cases hn : o.isNew with
    | true =>
      simp only [hn, if_true, Attempt.bind_eq_ok, Attempt.modify_eq_ok, Attempt.pure_eq_ok] at h
      obtain ⟨_, _, rfl, rfl, rfl⟩ := h
      exact ⟨rfl, rfl⟩
    | false =>
      simp only [hn, Bool.false_eq_true, if_false, Attempt.pure_eq_ok] at h
      obtain ⟨rfl, rfl⟩ := h
      exact ⟨rfl, rfl⟩

theorem sized_of_ok {param : Parameter} {length : Option ArrayLength} {w w' : Wiring}
    (h : resolveLength catalog param w = (.ok length, w')) :
    Sized catalog param w.technique w.left length w'.technique w'.left := by
  simp only [resolveLength, Attempt.bind_eq_ok, Attempt.get_eq_ok] at h
  obtain ⟨_, _, ⟨rfl, rfl⟩, h⟩ := h
  cases hm : w.left.multiplicity with
  | none =>
    simp only [hm] at h
    obtain ⟨rfl, rfl⟩ := Attempt.pure_eq_ok.mp h
    exact .single hm
  | some text =>
    simp only [hm] at h
    split at h
    · simp at h
    · next harray =>
      have harray : param.type.isArray = true := by simpa using harray
      split at h
      · next hnum =>
        obtain ⟨rfl, rfl⟩ := Attempt.pure_eq_ok.mp h
        exact .literal hm harray hnum
      · next hnum =>
        cases hp : catalog.param? text with
        | none =>
          simp only [hp] at h
          exact absurd h Attempt.throw_ne_ok
        | some size =>
          simp only [hp, Attempt.bind_eq_ok, resolving_eq_ok, bindOwnDefine, Attempt.modify_eq_ok,
            Attempt.pure_eq_ok] at h
          obtain ⟨_, _, ⟨_, rfl, rfl⟩, _, _, rfl, rfl, rfl⟩ := h
          exact .byParameter hm harray (by simpa using hnum) hp

theorem type_of_sized {param : Parameter} {length : Option ArrayLength}
    (h : Sized catalog param t left length t' left') : left'.type = left.type := by
  cases h <;> rfl

theorem resolveMaterialParameter_ok {w w' : Wiring}
    (hr : reference.origin = some .materialParameter)
    (h : resolveMaterialParameter catalog reference consumer w = (.ok id, w')) :
    Resolves catalog reference consumer w.technique w.left id w'.technique w'.left := by
  simp only [resolveMaterialParameter] at h
  cases hp : catalog.param? reference.name with
  | none =>
    simp only [hp] at h
    exact absurd h Attempt.throw_ne_ok
  | some param =>
    simp only [hp, Attempt.bind_eq_ok, Attempt.get_eq_ok, Attempt.ofExcept_eq_ok, resolving_eq_ok,
      declareUniform_eq_ok] at h
    obtain ⟨length, w₁, hlength, _, _, ⟨rfl, rfl⟩, type, _, ⟨htype, rfl⟩, _, ⟨rfl, rfl⟩, rfl⟩ := h
    have hsized := sized_of_ok hlength
    rw [type_of_sized hsized] at htype
    exact .materialParameter hr hp hsized htype rfl

theorem resolveWorldParameter_ok (hr : reference.origin = some .worldParameter)
    (h : resolveWorldParameter reference consumer t = (.ok id, t')) :
    Resolves catalog reference consumer t left id t' left := by
  simp only [resolveWorldParameter, Attempt.bind_eq_ok, Attempt.get_eq_ok] at h
  obtain ⟨_, _, ⟨rfl, rfl⟩, h⟩ := h
  cases hb : t.worldBindings.find? (·.name == reference.name) with
  | none =>
    simp only [hb] at h
    exact absurd h Attempt.throw_ne_ok
  | some binding =>
    simp only [hb] at h
    obtain ⟨rfl, rfl⟩ := declareUniform_eq_ok.mp h
    exact .worldParameter hr hb rfl

theorem promoteVarying_eq (producer : Node) (v : Variable) (consumer : Consumer) :
    promoteVarying producer v consumer = do
      let p ← declare (.varying producer.name v.name) v.raised consumer
      if p.2 then
        Attempt.modify fun t => t.withInterface
          { t.interface with varyings := t.interface.varyings ++ [p.1] }
      Attempt.modify fun t => { t with
        arena := raiseInputs producer (t.arena.read p.1).name t.arena }
      return p.1 := rfl

theorem promoteVarying_ok {producer : Node}
    (h : promoteVarying producer v consumer t = (.ok id, t')) :
    ∃ o, o = t.offer (.varying producer.name v.name) v.raised consumer ∧ o.id = id ∧
      { (t.afterOffer o).withInterface (Interface.listVarying t.interface o) with
        arena := raiseInputs producer (o.arena.read o.id).name o.arena } = t' := by
  rw [promoteVarying_eq] at h
  simp only [Attempt.bind_eq_ok, declare_eq_ok] at h
  obtain ⟨_, _, ⟨rfl, rfl⟩, h⟩ := h
  refine ⟨_, rfl, ?_⟩
  generalize t.offer _ _ consumer = o at h ⊢
  unfold Interface.listVarying
  cases hn : o.isNew with
  | true =>
    simp only [hn, if_true, Attempt.bind_eq_ok, Attempt.modify_eq_ok, Attempt.pure_eq_ok] at h
    obtain ⟨_, _, rfl, _, _, rfl, rfl, rfl⟩ := h
    exact ⟨rfl, rfl⟩
  | false =>
    simp only [hn, Bool.false_eq_true, if_false, Attempt.bind_eq_ok, Attempt.modify_eq_ok,
      Attempt.pure_eq_ok] at h
    obtain ⟨_, _, rfl, rfl, rfl⟩ := h
    exact ⟨rfl, rfl⟩

theorem resolveOutput_ok {producer : String} (hr : reference.origin = some (.node producer))
    (h : resolveOutput producer reference consumer t = (.ok id, t')) :
    Resolves catalog reference consumer t left id t' left := by
  simp only [resolveOutput, Attempt.bind_eq_ok, Attempt.get_eq_ok] at h
  obtain ⟨_, _, ⟨rfl, rfl⟩, h⟩ := h
  cases hn : t.node? producer with
  | none =>
    simp only [hn] at h
    exact absurd h Attempt.throw_ne_ok
  | some node =>
    cases ho : node.definition.output? reference.name with
    | none =>
      simp only [hn, ho] at h
      exact absurd h Attempt.throw_ne_ok
    | some output =>
      simp only [hn, ho] at h
      split at h
      · next hsame =>
        obtain ⟨rfl, rfl⟩ := store_eq_ok.mp h
        exact .output hr hn ho hsame
      · split at h
        · next hstages =>
          obtain ⟨o, hoffer, rfl, rfl⟩ := promoteVarying_ok h
          exact .varying hr hn ho hstages.1 hstages.2 hoffer
        · exact absurd h Attempt.throw_ne_ok

/-- Whatever a reference is resolved to, it was found in one of the ways above. -/
theorem resolves_of_resolve {w w' : Wiring}
    (h : resolve catalog reference consumer w = (.ok id, w')) :
    Resolves catalog reference consumer w.technique w.left id w'.technique w'.left := by
  cases hr : reference.origin with
  | none =>
    simp only [resolve, hr] at h
    exact absurd h Attempt.throw_ne_ok
  | some origin =>
    cases origin with
    | global =>
      simp only [resolve, hr, resolving_eq_ok] at h
      obtain ⟨t, ht, rfl⟩ := h
      exact .global hr (storesGlobal_of_ok ht)
    | vertexAttribute =>
      simp only [resolve, hr, Attempt.bind_eq_ok, Attempt.get_eq_ok, resolving_eq_ok] at h
      obtain ⟨_, _, ⟨rfl, rfl⟩, t, ht, rfl⟩ := h
      obtain ⟨hstage, o, ho, rfl, rfl⟩ := resolveAttribute_ok ht
      exact .vertexAttribute hr hstage ho
    | materialParameter =>
      simp only [resolve, hr] at h
      exact resolveMaterialParameter_ok hr h
    | worldParameter =>
      simp only [resolve, hr, resolving_eq_ok] at h
      obtain ⟨t, ht, rfl⟩ := h
      exact resolveWorldParameter_ok hr ht
    | node producer =>
      simp only [resolve, hr, resolving_eq_ok] at h
      obtain ⟨t, ht, rfl⟩ := h
      exact resolveOutput_ok hr ht

theorem Sized.frame {param : Parameter} {length : Option ArrayLength}
    (h : Sized catalog param t left length t' left') : ∃ defines, t' = { t with defines } := by
  cases h with
  | single => exact ⟨t.defines, rfl⟩
  | literal => exact ⟨t.defines, rfl⟩
  | byParameter => exact ⟨_, rfl⟩

/-! ## The nodes stay -/

theorem StoresGlobal.nodes {stage : Stage} (h : StoresGlobal v stage t id t') :
    t'.nodes = t.nodes := by
  cases h <;> rfl

theorem Resolves.nodes (h : Resolves catalog reference consumer t left id t' left') :
    t'.nodes = t.nodes := by
  cases h with
  | global _ h => exact h.nodes
  | materialParameter _ _ h _ _ =>
    obtain ⟨defines, rfl⟩ := h.frame
    rfl
  | _ => rfl

end

/-! ## Raising the inputs of a producer -/

@[simp] theorem size_raiseInputs (node : Node) (name : String) (a : Arena) :
    (raiseInputs node name a).size = a.size := by
  unfold raiseInputs
  induction node.inputs generalizing a with
  | nil => rfl
  | cons m ms ih => rw [List.foldl_cons, ih, Arena.size_update]

/-- A variable that is no input of the node is left as it is. -/
theorem get?_raiseInputs_of_ne {node : Node} {id : VarId} (h : ∀ m ∈ node.inputs, m.left ≠ id)
    (name : String) (a : Arena) : (raiseInputs node name a).get? id = a.get? id := by
  unfold raiseInputs
  revert h
  induction node.inputs generalizing a with
  | nil => exact fun _ => rfl
  | cons m ms ih =>
    intro h
    rw [List.foldl_cons, ih _ fun n hn => h n (List.mem_cons_of_mem m hn),
      Arena.get?_update, if_neg (h m List.mem_cons_self)]

/-- Whatever variable it is, it may become an output, and nothing else of it changes. -/
theorem get?_raiseInputs (node : Node) (name : String) {a : Arena} {id : VarId} {v : Variable}
    (h : a.get? id = some v) :
    (raiseInputs node name a).get? id = some v ∨
      (raiseInputs node name a).get? id = some v.raised := by
  unfold raiseInputs
  revert v
  induction node.inputs generalizing a with
  | nil => exact fun h => Or.inl h
  | cons m ms ih =>
    intro v h
    rw [List.foldl_cons]
    by_cases hm : m.left = id ∧ v.name = name
    · have hv : (a.update m.left fun v => if v.name == name then { v with isOutput := true } else v
          ).get? id = some v.raised := by
        rw [Arena.get?_update, if_pos hm.1, h, Option.map_some, if_pos (by simpa using hm.2)]
        rfl
      exact Or.inr ((ih hv).elim (fun h => h) fun h => h)
    · have hv : (a.update m.left fun v => if v.name == name then { v with isOutput := true } else v
          ).get? id = some v := by
        rw [Arena.get?_update]
        split
        · next hid =>
          have hname : ¬ v.name = name := fun hn => hm ⟨hid, hn⟩
          rw [h, Option.map_some, if_neg (by simpa using hname)]
        · exact h
      exact ih hv

/-- A variable after raising is one from before, perhaps made an output. -/
theorem exists_of_get?_raiseInputs {node : Node} {name : String} {a : Arena} {id : VarId}
    {w : Variable} (h : (raiseInputs node name a).get? id = some w) :
    ∃ v, a.get? id = some v ∧ (w = v ∨ w = v.raised) := by
  have hlt : id.index < a.size := by
    rw [← size_raiseInputs node name a]
    exact Arena.lt_of_get? h
  obtain ⟨v, hv⟩ := Arena.exists_get? hlt
  refine ⟨v, hv, ?_⟩
  rcases get?_raiseInputs node name hv with hr | hr
  · exact Or.inl (Option.some.inj (h.symm.trans hr))
  · exact Or.inr (Option.some.inj (h.symm.trans hr))

end Resolution

/-! ## What is true of every variable -/

namespace Arena

def Every (P : Variable → Prop) (a : Arena) : Prop := ∀ id v, a.get? id = some v → P v

variable {P : Variable → Prop} {a : Arena} {v : Variable}

theorem Every.add (h : a.Every P) (hv : P v) : (a.add v).Every P := by
  intro id w hw
  rcases eq_or_get?_of_get?_add hw with rfl | hw
  · exact hv
  · exact h id w hw

theorem Every.offer (h : a.Every P) (hv : P v) (r : Registry) (key : DeclKey)
    (consumer : String) : (r.offer a key v consumer).arena.Every P := by
  rcases Registry.offer_cases r a key v consumer with ⟨_, -, -, ho⟩ | ⟨-, ho⟩
  · rw [ho]; exact h
  · rw [ho]; exact h.add hv

/-- Of variables that are made outputs as well, if outputs may have the property. -/
theorem Every.raiseInputs (h : a.Every P) (hraised : ∀ v, P v → P v.raised) (node : Node)
    (name : String) : (Resolution.raiseInputs node name a).Every P := by
  intro id w hw
  obtain ⟨v, hv, rfl | rfl⟩ := Resolution.exists_of_get?_raiseInputs hw
  · exact h id w hv
  · exact hraised v (h id v hv)

end Arena

theorem Resolution.StoresGlobal.every {P : Variable → Prop} {v : Variable} {stage : Stage}
    {t t' : Technique} {id : VarId} (h : StoresGlobal v stage t id t') (hv : P v.raised)
    (ht : t.arena.Every P) : t'.arena.Every P := by
  cases h with
  | vertexFound _ _ => exact ht
  | fragmentFound _ => exact ht
  | vertexNew _ => exact ht.add hv
  | fragmentNew _ => exact ht.add hv
  | other _ _ => exact ht.add hv

end ShaderGraph
