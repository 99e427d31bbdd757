/-
  ShaderGraph.Proofs.Additions — building a technique only adds to it.

  The statements of a graph share one technique, and each of its mappings holds handles into it.
  `Technique.Grows` says what no operation takes back: nodes, declarations, consumers and what
  the interface lists keep their places, the output of the vertex stage and the bindings of
  parameters stay, and a variable may become an output of its stage and changes in nothing
  else.

  Whatever is read changes the technique in a few ways only. A preorder that holds along each of
  them (`Technique.AlongAdditions`), as `Technique.Grows` does, holds along all of reading.
  Operations that fail have done a part of their work, so this is told of the state they
  leave (`Along`) and not of their results. Where a reference is resolved or a global is stored
  a failure is atomic, and the ways to succeed are known.

  - `StoresGlobal.along`, `Resolves.along`: what is resolved is added.
  - `Operation.along_or_readNodes`: so is what any operation does that adds no node, also one
    that stops at a wrong line.
  - `grows_of_operations`: a technique keeps what it has while it is built.
-/

import Mathlib.Data.List.Infix
import Mathlib.Logic.Relation
import ShaderGraph.Proofs.Atomicity
import ShaderGraph.Proofs.Drafting
import ShaderGraph.Proofs.Registry

namespace ShaderGraph

open Block (Statement)
open Resolution (StoresGlobal Resolves Sized raiseInputs)

/-! ## What is kept -/

structure Declaration.Grows (d d' : Declaration) : Prop where
  key : d'.key = d.key
  id : d'.id = d.id
  consumers : d.consumers <+: d'.consumers

def Registry.Grows (r r' : Registry) : Prop :=
  ∀ (i : Nat) d, r.entries[i]? = some d → ∃ d', r'.entries[i]? = some d' ∧ d.Grows d'

/-- Every variable is as it was, or has become an output of its stage. -/
def Arena.Grows (a a' : Arena) : Prop :=
  ∀ id v, a.get? id = some v → a'.get? id = some v ∨ a'.get? id = some v.raised

structure Interface.Grows (i i' : Interface) : Prop where
  attributes : i.attributes <+: i'.attributes
  vertexUniforms : i.vertexUniforms <+: i'.vertexUniforms
  fragmentUniforms : i.fragmentUniforms <+: i'.fragmentUniforms
  varyings : i.varyings <+: i'.varyings
  vertexGlobal : ∀ id, i.vertexGlobal = some id → i'.vertexGlobal = some id
  fragmentGlobals : i.fragmentGlobals <+: i'.fragmentGlobals

structure DefineTable.Grows (s s' : DefineTable) : Prop where
  bindings : s.bindings.Sublist s'.bindings
  bound : ∀ param b, s.find? param = some b → s'.find? param = some b

structure Technique.Grows (t t' : Technique) : Prop where
  nodes : t.nodes <+: t'.nodes
  declarations : t.registry.Grows t'.registry
  interface : t.interface.Grows t'.interface
  arena : t.arena.Grows t'.arena
  defines : t.defines.Grows t'.defines

/-- A preorder of techniques that holds along whatever reading adds to a technique, up to the
nodes themselves. -/
class Technique.AlongAdditions (R : Technique → Technique → Prop) : Prop
    extends IsPreorder Technique R where
  addVariable : ∀ (t : Technique) (v : Variable), R t (t.addVariable v)
  bindDefine : ∀ (t : Technique) (param define : String) (type : ParamType),
    R t (t.bindDefine param define type)
  withInterface : ∀ {t : Technique} {interface : Interface}, t.interface.Grows interface →
    R t (t.withInterface interface)
  afterOffer : ∀ {t : Technique} {key : DeclKey} {v : Variable} {consumer : Consumer}
    {o : Offered}, o = t.offer key v consumer → R t (t.afterOffer o)
  raiseInputs : ∀ (t : Technique) (node : Node) (name : String),
    R t { t with arena := raiseInputs node name t.arena }

/-! ## Part by part -/

namespace Declaration

theorem Grows.refl (d : Declaration) : d.Grows d := ⟨rfl, rfl, List.prefix_refl _⟩

theorem Grows.trans {d e f : Declaration} (hde : d.Grows e) (hef : e.Grows f) : d.Grows f :=
  ⟨hef.key.trans hde.key, hef.id.trans hde.id, hde.consumers.trans hef.consumers⟩

theorem grows_addConsumer (d : Declaration) (consumer : String) :
    d.Grows (d.addConsumer consumer) := ⟨rfl, rfl, prefix_addOnce _ _⟩

end Declaration

namespace Registry

theorem Grows.refl (r : Registry) : r.Grows r := fun _ d hd => ⟨d, hd, .refl d⟩

theorem Grows.trans {r s u : Registry} (hrs : r.Grows s) (hsu : s.Grows u) : r.Grows u := by
  intro i d hd
  obtain ⟨e, he, hde⟩ := hrs i d hd
  obtain ⟨f, hf, hef⟩ := hsu i e he
  exact ⟨f, hf, hde.trans hef⟩

theorem grows_addConsumer (r : Registry) (key : DeclKey) (consumer : String) :
    r.Grows (r.addConsumer key consumer) := by
  intro i d hd
  refine ⟨if d.key = key then d.addConsumer consumer else d, ?_, ?_⟩
  · rw [addConsumer, List.getElem?_map, hd, Option.map_some]
  · split
    · exact d.grows_addConsumer consumer
    · exact .refl d

theorem grows_addDeclaration (r : Registry) (key : DeclKey) (id : VarId) (consumer : String) :
    r.Grows (r.addDeclaration key id consumer) := by
  intro i d hd
  have hlt : i < r.entries.length := (List.getElem?_eq_some_iff.mp hd).1
  exact ⟨d, (List.getElem?_append_left hlt).trans hd, .refl d⟩

end Registry

namespace Arena

theorem Grows.refl (a : Arena) : a.Grows a := fun _ _ hv => Or.inl hv

theorem Grows.trans {a b c : Arena} (hab : a.Grows b) (hbc : b.Grows c) : a.Grows c := by
  intro id v hv
  rcases hab id v hv with hb | hb
  · exact hbc id v hb
  · -- raising twice is raising once
    exact Or.inr ((hbc id v.raised hb).elim (fun h => h) fun h => h)

theorem grows_add (a : Arena) (v : Variable) : a.Grows (a.add v) :=
  fun _ _ hw => Or.inl (get?_add_of_get? hw v)

theorem grows_raiseInputs (node : Node) (name : String) (a : Arena) :
    a.Grows (raiseInputs node name a) := fun _ _ hv => Resolution.get?_raiseInputs node name hv

end Arena

namespace Interface

theorem Grows.refl (i : Interface) : i.Grows i where
  attributes := List.prefix_refl _
  vertexUniforms := List.prefix_refl _
  fragmentUniforms := List.prefix_refl _
  varyings := List.prefix_refl _
  vertexGlobal := fun _ h => h
  fragmentGlobals := List.prefix_refl _

theorem Grows.trans {i j k : Interface} (hij : i.Grows j) (hjk : j.Grows k) : i.Grows k where
  attributes := hij.attributes.trans hjk.attributes
  vertexUniforms := hij.vertexUniforms.trans hjk.vertexUniforms
  fragmentUniforms := hij.fragmentUniforms.trans hjk.fragmentUniforms
  varyings := hij.varyings.trans hjk.varyings
  vertexGlobal := fun id h => hjk.vertexGlobal id (hij.vertexGlobal id h)
  fragmentGlobals := hij.fragmentGlobals.trans hjk.fragmentGlobals

theorem grows_listAttribute (i : Interface) (o : Offered) :
    i.Grows (Resolution.Interface.listAttribute i o) := by
  unfold Resolution.Interface.listAttribute
  split
  · exact { Grows.refl i with attributes := List.prefix_append _ _ }
  · exact .refl i

theorem grows_listVarying (i : Interface) (o : Offered) :
    i.Grows (Resolution.Interface.listVarying i o) := by
  unfold Resolution.Interface.listVarying
  split
  · exact { Grows.refl i with varyings := List.prefix_append _ _ }
  · exact .refl i

theorem grows_listUniform (i : Interface) (stage : Stage) (id : VarId) :
    i.Grows (Resolution.Interface.listUniform i stage id) := by
  cases stage with
  | vertex => exact { Grows.refl i with vertexUniforms := prefix_addOnce _ _ }
  | _ => exact { Grows.refl i with fragmentUniforms := prefix_addOnce _ _ }

/-- Which nodes count as unused is no part of what is kept. -/
theorem grows_withUnused (i : Interface) (unusedNodes : NameSet) :
    i.Grows { i with unusedNodes } := { Grows.refl i with }

end Interface

namespace DefineTable

theorem Grows.refl (s : DefineTable) : s.Grows s := ⟨List.Sublist.refl _, fun _ _ h => h⟩

theorem Grows.trans {s u w : DefineTable} (hsu : s.Grows u) (huw : u.Grows w) : s.Grows w :=
  ⟨hsu.bindings.trans huw.bindings, fun param b h => huw.bound param b (hsu.bound param b h)⟩

theorem sublist_place (b : DefineBinding) (bs : List DefineBinding) : bs.Sublist (place b bs) := by
  induction bs with
  | nil => exact List.nil_sublist _
  | cons x xs ih =>
    rw [place]
    split
    · exact List.sublist_cons_self _ _
    · exact ih.cons_cons x

/-- A binding does not hide those of other parameters. -/
theorem find?_place_of_ne {b : DefineBinding} {param : String} (h : b.param ≠ param)
    (bs : List DefineBinding) :
    (place b bs).find? (·.param == param) = bs.find? (·.param == param) := by
  have hb : (b.param == param) = false := by simpa using h
  induction bs with
  | nil => simp [place, hb]
  | cons x xs ih =>
    rw [place]
    split
    · rw [List.find?_cons_of_neg (by simp [hb])]
    · rw [List.find?_cons, List.find?_cons, ih]

theorem grows_bind (s : DefineTable) (b : DefineBinding) : s.Grows (s.bind b) := by
  unfold bind
  cases hb : s.find? b.param with
  | some _ => exact .refl s
  | none =>
    refine ⟨sublist_place b s.bindings, fun param x hx => ?_⟩
    have hne : b.param ≠ param := by
      rintro rfl
      rw [hb] at hx
      cases hx
    exact (find?_place_of_ne hne s.bindings).trans hx

end DefineTable

/-! ## Changes of a technique -/

namespace Technique

variable (t : Technique)

theorem Grows.refl : t.Grows t :=
  ⟨List.prefix_refl _, .refl _, .refl _, .refl _, .refl _⟩

theorem Grows.trans {t u w : Technique} (htu : t.Grows u) (huw : u.Grows w) : t.Grows w where
  nodes := htu.nodes.trans huw.nodes
  declarations := htu.declarations.trans huw.declarations
  interface := htu.interface.trans huw.interface
  arena := htu.arena.trans huw.arena
  defines := htu.defines.trans huw.defines

theorem grows_addVariable (v : Variable) : t.Grows (t.addVariable v) :=
  { Grows.refl t with arena := Arena.grows_add _ v }

theorem grows_raiseInputs (node : Node) (name : String) :
    t.Grows { t with arena := raiseInputs node name t.arena } :=
  { Grows.refl t with arena := Arena.grows_raiseInputs node name _ }

theorem grows_bindDefine (param define : String) (type : ParamType) :
    t.Grows (t.bindDefine param define type) :=
  { Grows.refl t with defines := DefineTable.grows_bind _ _ }

theorem grows_addNode (node : Node) : t.Grows { t with nodes := t.nodes ++ [node] } :=
  { Grows.refl t with nodes := List.prefix_append _ _ }

variable {t}

theorem grows_withInterface {interface : Interface} (h : t.interface.Grows interface) :
    t.Grows (t.withInterface interface) := { Grows.refl t with interface := h }

theorem grows_afterOffer {key : DeclKey} {v : Variable} {consumer : Consumer} {o : Offered}
    (ho : o = t.offer key v consumer) : t.Grows (t.afterOffer o) := by
  subst ho
  unfold offer
  rcases Registry.offer_cases t.registry t.arena key v consumer.name with
    ⟨d, -, -, ho⟩ | ⟨-, ho⟩
  · rw [ho]
    exact { Grows.refl t with declarations := Registry.grows_addConsumer _ key _ }
  · rw [ho]
    exact { t.grows_addVariable v with declarations := Registry.grows_addDeclaration _ key _ _ }

instance : AlongAdditions Grows where
  refl := Grows.refl
  trans _ _ _ := Grows.trans
  addVariable := grows_addVariable
  bindDefine := grows_bindDefine
  withInterface := grows_withInterface
  afterOffer := grows_afterOffer
  raiseInputs := grows_raiseInputs

end Technique

/-! ## Resolving -/

section

variable {R : Technique → Technique → Prop} [Technique.AlongAdditions R]

section

variable {catalog : Catalog} {reference : Reference} {consumer : Consumer} {t t' : Technique}
  {left left' v : Variable} {id : VarId} {stage : Stage} {param : Parameter}
  {length : Option Resolution.ArrayLength}

open Technique

theorem Resolution.StoresGlobal.along (h : StoresGlobal v stage t id t') : R t t' := by
  have hadd : R t (t.addVariable v.raised) := AlongAdditions.addVariable t v.raised
  have hinterface := Interface.Grows.refl t.interface
  cases h with
  | vertexFound _ _ => exact refl_of R t
  | vertexNew hg =>
    have hlist : t.interface.Grows { t.interface with vertexGlobal := some t.arena.nextId } :=
      { hinterface with
        vertexGlobal := fun id h => by
          rw [h] at hg
          cases hg }
    exact trans_of R hadd (AlongAdditions.withInterface hlist)
  | fragmentFound _ => exact refl_of R t
  | fragmentNew _ =>
    have hlist : t.interface.Grows { t.interface with
        fragmentGlobals := t.interface.fragmentGlobals ++ [t.arena.nextId] } :=
      { hinterface with fragmentGlobals := List.prefix_append _ _ }
    exact trans_of R hadd (AlongAdditions.withInterface hlist)
  | other _ _ => exact hadd

theorem Resolution.Sized.along (h : Sized catalog param t left length t' left') : R t t' := by
  cases h with
  | single => exact refl_of R t
  | literal => exact refl_of R t
  | byParameter => exact AlongAdditions.bindDefine t _ _ _

/-- Whichever way a reference is found, what it needs is added. -/
theorem Resolution.Resolves.along (h : Resolves catalog reference consumer t left id t' left') :
    R t t' := by
  cases h with
  | global _ hs => exact hs.along
  | vertexAttribute _ _ ho =>
    exact trans_of R (AlongAdditions.afterOffer ho)
      (AlongAdditions.withInterface (Interface.grows_listAttribute _ _))
  | materialParameter _ _ hs _ ho =>
    exact trans_of R hs.along (trans_of R (AlongAdditions.afterOffer ho)
      (AlongAdditions.withInterface (Interface.grows_listUniform _ _ _)))
  | worldParameter _ _ ho =>
    exact trans_of R (AlongAdditions.afterOffer ho)
      (AlongAdditions.withInterface (Interface.grows_listUniform _ _ _))
  | output _ _ _ _ => exact AlongAdditions.addVariable t _
  | @varying _ _ _ o _ _ _ _ _ ho =>
    have hlist := (t.afterOffer o).interface.grows_listVarying o
    exact trans_of R (trans_of R (AlongAdditions.afterOffer ho)
      (AlongAdditions.withInterface hlist)) (AlongAdditions.raiseInputs _ _ _)

end

/-! ### Mappings that are read -/

section

variable {catalog : Catalog} {node : Node} {m : Mapping} {condition : Option String}
  {names : List String} {t t' : Technique}

open Technique

theorem BindsOwn.along (h : BindsOwn catalog names t t') : R t t' := by
  induction h with
  | nil => exact refl_of R _
  | cons _ _ ih => exact trans_of R (AlongAdditions.bindDefine _ _ _ _) ih

theorem ReadsCondition.along (h : ReadsCondition catalog t condition t') : R t t' := by
  cases h with
  | absent => exact refl_of R t
  | given h => exact h.along

theorem Technique.along_markProducer (t : Technique) (reference : Reference) :
    R t (t.markProducer reference) := by
  obtain ⟨unused, hu⟩ := markProducer_eq t reference
  rw [hu]
  exact AlongAdditions.withInterface (t.interface.grows_withUnused unused)

theorem ReadsInput.along (h : ReadsInput catalog node t m t') : R t t' := by
  cases h with
  | code _ hc => exact trans_of R hc.along (AlongAdditions.addVariable _ _)
  | @reference _ _ _ _ _ reference _ _ t₂ _ hc _ hr _ =>
    exact trans_of R hc.along (trans_of R hr.along
      (trans_of R (t₂.along_markProducer reference) (AlongAdditions.addVariable _ _)))

theorem ReadsOutput.along (h : ReadsOutput catalog node t m t') : R t t' := by
  cases h with
  | @mk _ _ _ _ _ _ _ _ t₂ _ _ _ hc hg =>
    have hmark : R t₂ (t₂.markUsed node.name) :=
      AlongAdditions.withInterface (t₂.interface.grows_withUnused _)
    exact trans_of R hc.along (trans_of R hg.along
      (trans_of R hmark (AlongAdditions.addVariable _ _)))

end

/-! ## Also where a fault stops it -/

abbrev Wiring.Related (R : Technique → Technique → Prop) : Wiring → Wiring → Prop :=
  Order.Preimage Wiring.technique R

namespace Resolution

variable (catalog : Catalog)

theorem along_store (v : Variable) : (store v).Along R :=
  fun t => Technique.AlongAdditions.addVariable t v

theorem along_storeGlobal (v : Variable) (stage : Stage) : (storeGlobal v stage).Along R :=
  (atomic_storeGlobal v stage).along fun _ _ _ h => (storesGlobal_of_ok h).along

theorem along_resolve (reference : Reference) (consumer : Consumer) :
    (resolve catalog reference consumer).Along (Wiring.Related R) :=
  (atomic_resolve catalog reference consumer).along fun _ _ _ h => (resolves_of_resolve h).along

theorem along_bindOwnDefine (param : String) (type : ParamType) :
    (bindOwnDefine param type).Along R :=
  fun t => Technique.AlongAdditions.bindDefine t _ _ _

/-- The names before the first that is none are bound, and stay so. -/
theorem along_bindOwnDefines (invalid : Cause) (names : List String) :
    (bindOwnDefines catalog invalid names).Along R := by
  induction names with
  | nil => exact Attempt.along_pure _
  | cons name names ih =>
    rw [bindOwnDefines]
    split
    · exact Attempt.along_throw _
    · exact (along_bindOwnDefine _ _).bind fun _ => ih

theorem along_guardCondition (text : String) : (guardCondition catalog text).Along R :=
  (along_bindOwnDefines catalog _ _).bind fun _ => Attempt.along_pure _

end Resolution

/-! ## Reading nodes -/

abbrev Graph.Related (R : Technique → Technique → Prop) : Graph → Graph → Prop :=
  Order.Preimage Graph.technique R

omit [Technique.AlongAdditions R] in
theorem Attempt.Along.building {α : Type} {step : Declaring α} (h : step.Along R)
    (statement : Statement) : (step.building statement).Along (Graph.Related R) :=
  Along.onPart (Along.mapError h) fun _ _ ht => ht

theorem Attempt.Atomic.building {α : Type} {step : Declaring α} (h : step.Atomic)
    (statement : Statement) : (step.building statement).Atomic :=
  Atomic.onPart (Atomic.mapError h) fun _ => rfl

namespace Graph

open Attempt

variable (context : Context) (node : Node) (statement : Statement)

theorem along_markUsed (name : String) : (markUsed name).Along (Related R) := fun g =>
  Technique.AlongAdditions.withInterface (g.technique.interface.grows_withUnused _)

theorem along_markUnused (name : String) : (markUnused name).Along (Related R) := fun g =>
  Technique.AlongAdditions.withInterface (g.technique.interface.grows_withUnused _)

theorem along_warn (warning : Warning) : (warn warning).Along (Related R) :=
  fun g => refl_of R g.technique

theorem along_loadFile (path : String) : (loadFile context statement path).Along (Related R) :=
  (along_ofExcept _).bind fun _ => along_modify fun g => refl_of R g.technique

theorem along_findDefinition : (findDefinition context statement).Along (Related R) := by
  unfold findDefinition
  split
  · next line _ =>
    refine along_get.bind fun g => ?_
    split
    · exact along_pure _
    · split
      · refine (along_loadFile context statement _).bind fun _ => along_get.bind fun g => ?_
        split
        · exact along_pure _
        · exact along_throw _
      · refine along_get.bind fun g => ?_
        split
        · exact along_pure _
        · exact along_throw _
  · exact along_throw _

theorem along_readCondition (condition : Option String) :
    (readCondition context statement condition).Along (Related R) := by
  cases condition with
  | none => exact along_pure _
  | some text =>
    exact ((Resolution.along_guardCondition context.catalog text).building statement).bind
      fun _ => along_pure _

theorem along_resolveFor (catalog : Catalog) (reference : Reference) (left : Variable)
    (consumer : Consumer) :
    (resolveFor catalog reference left consumer).Along R :=
  fun t => Resolution.along_resolve catalog reference consumer ⟨t, left⟩

theorem along_readRightSide (left : Variable) (swizzle text : String) :
    (readRightSide context node statement left swizzle text).Along (Related R) := by
  unfold readRightSide
  split
  · next reference _ =>
    dsimp only
    split
    · rw [throw_bind]
      exact along_throw _
    · refine ((along_resolveFor _ _ _ _).building statement).bind fun p => ?_
      refine along_get.bind fun g => (along_ofExcept _).bind fun _ => ?_
      split
      · exact (along_markUsed _).bind fun _ => along_pure _
      · exact along_pure _
  · exact along_throw _

theorem along_readInputMapping : (readInputMapping context node statement).Along (Related R) := by
  have stored : ∀ v : Variable, ((Resolution.store v).building statement).Along (Related R) :=
    fun v => (Resolution.along_store v).building statement
  unfold readInputMapping
  dsimp only
  split
  · split
    · split
      · refine (along_readCondition context statement _).bind fun condition => ?_
        split
        · exact (along_pure _).bind fun wire => (stored wire.left).bind fun _ => along_pure _
        · refine (along_readRightSide context node statement _ _ _).bind fun wire => ?_
          exact (stored wire.left).bind fun _ => along_pure _
      · exact along_throw _
    · exact along_throw _
  · exact along_throw _

theorem along_readOutputMapping : (readOutputMapping context node statement).Along (Related R) := by
  rcases written_or_throws context node statement with
    ⟨target, reference, output, condition, hw⟩ | ⟨fault, hthrow⟩
  · rw [readOutputMapping_of_written hw]
    refine (along_readCondition context statement _).bind fun _ => ?_
    refine ((Resolution.along_storeGlobal _ _).building statement).bind fun _ => ?_
    refine (along_markUsed _).bind fun _ => ?_
    exact ((Resolution.along_store _).building statement).bind fun _ => along_pure _
  · rw [hthrow]
    exact along_throw _

theorem along_readNodeStatement : (readNodeStatement context node statement).Along (Related R) := by
  unfold readNodeStatement
  split
  · split
    · exact (along_readCondition context statement _).bind fun _ => along_pure _
    · exact along_throw _
  · split
    · exact (along_mapM (along_readInputMapping context node) _).bind fun _ => along_pure _
    · split
      · exact (along_mapM (along_readOutputMapping context node) _).bind fun _ => along_pure _
      · exact along_throw _

theorem along_readNode (name : String) : (readNode context name statement).Along (Related R) := by
  unfold readNode
  split
  · exact along_throw _
  · next first rest _ =>
    have readRest : ∀ node : Node,
        (rest.foldlM (readNodeStatement context) node).Along (Related R) :=
      along_foldlM (along_readNodeStatement context) rest
    dsimp only
    split
    · rw [throw_bind]
      exact along_throw _
    · refine (along_findDefinition context first).bind fun definition => ?_
      split
      · exact (along_markUsed name).bind fun _ => readRest _
      · refine (along_markUnused name).bind fun _ => ?_
        split
        · exact (along_warn _).bind fun _ => readRest _
        · exact readRest _

end Graph

end

namespace Graph

open Attempt

variable (context : Context) (statement : Statement)

theorem grows_readAndAddNode :
    (readAndAddNode context statement).Along (Related Technique.Grows) := by
  unfold readAndAddNode
  split
  · refine along_get.bind fun g => ?_
    dsimp only
    split
    · rw [throw_bind]
      exact along_throw _
    · refine (along_readNode context statement _).bind fun node => ?_
      exact along_modify fun g => g.technique.grows_addNode node
  · exact along_throw _

theorem grows_readNodes (statements : List Statement) :
    (readNodes context statements).Along (Related Technique.Grows) :=
  along_forM (grows_readAndAddNode context) statements

end Graph

/-! ## Every operation -/

/-- The operations on a technique that is built. One that fails has left a state as well, and
that is where it leads to. -/
inductive Operation (context : Context) : Technique → Technique → Prop
  | resolve (reference : Reference) (consumer : Consumer) (w : Wiring) :
      Operation context w.technique
        (Resolution.resolve context.catalog reference consumer w).2.technique
  | storeGlobal (v : Variable) (stage : Stage) (t : Technique) :
      Operation context t (Resolution.storeGlobal v stage t).2
  | guardCondition (text : String) (t : Technique) :
      Operation context t (Resolution.guardCondition context.catalog text t).2
  | bindOwnDefine (param : String) (type : ParamType) (t : Technique) :
      Operation context t (Resolution.bindOwnDefine param type t).2
  | bindDefine (param define : String) (type : ParamType) (t : Technique) :
      Operation context t (t.bindDefine param define type)
  | readNode (name : String) (statement : Statement) (g : Graph) :
      Operation context g.technique (Graph.readNode context name statement g).2.technique
  | readNodes (statements : List Statement) (g : Graph) :
      Operation context g.technique (Graph.readNodes context statements g).2.technique

section

variable {context : Context} {t t' : Technique}

/-- An operation that is not about whole nodes makes additions alone. -/
theorem Operation.along_or_readNodes {R : Technique → Technique → Prop}
    [Technique.AlongAdditions R] (h : Operation context t t') :
    R t t' ∨ ∃ statements g, g.technique = t ∧
      (Graph.readNodes context statements g).2.technique = t' := by
  cases h with
  | resolve reference consumer w =>
    exact Or.inl (Resolution.along_resolve context.catalog reference consumer w)
  | storeGlobal v stage t => exact Or.inl (Resolution.along_storeGlobal v stage t)
  | guardCondition text t => exact Or.inl (Resolution.along_guardCondition context.catalog text t)
  | bindOwnDefine param type t => exact Or.inl (Resolution.along_bindOwnDefine param type t)
  | bindDefine param define type t =>
    exact Or.inl (Technique.AlongAdditions.bindDefine t param define type)
  | readNode name statement g => exact Or.inl (Graph.along_readNode context statement name g)
  | readNodes statements g => exact Or.inr ⟨statements, g, rfl, rfl⟩

theorem Operation.grows (h : Operation context t t') : t.Grows t' := by
  rcases h.along_or_readNodes (R := Technique.Grows) with h | ⟨statements, g, rfl, rfl⟩
  · exact h
  · exact Graph.grows_readNodes context statements g

/-- Whatever operations a technique goes through, one or many, and wherever they stop, it keeps
what it has. -/
theorem grows_of_operations (h : Relation.ReflTransGen (Operation context) t t') : t.Grows t' := by
  induction h with
  | refl => exact .refl t
  | tail _ ho ih => exact ih.trans ho.grows

end

namespace Lit

def placed : Graph :=
  (Graph.readNodes context [vertexNode] ⟨.empty none,
    (readDefinitions context.options definitions).toOption.getD [], []⟩).2

/-- A node whose last line reads what is no output. -/
def wrongNode : Statement :=
  statement "ShaderNode Lighted" [
    line "Definition : Light",
    line "Condition : UseLight",
    statement "InputMappings" [
      line "coordinate = Placed.coordinate", line "base = MatParam.Color",
      line "tint = Placed.tint"]]

end Lit

open Lit in
/-- A line that is wrong leaves the node out of the technique, but not what the lines before it
declared. -/
theorem grows_up_to_wrong_line :
    ((Graph.readNodes context [wrongNode] placed).1.toOption = none ∧
      placed.technique.registry.entries.map (·.consumers) = [["Placed"], ["Placed"]] ∧
      (Graph.readNodes context [wrongNode] placed).2.technique.registry.entries.map (·.consumers) =
        [["Placed"], ["Placed"], ["Lighted"], ["Lighted"]]) ∧
    placed.technique.Grows (Graph.readNodes context [wrongNode] placed).2.technique :=
  ⟨by decide +kernel, grows_of_operations (.single (.readNodes [wrongNode] placed))⟩

end ShaderGraph
