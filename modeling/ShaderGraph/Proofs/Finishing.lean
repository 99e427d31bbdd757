/-
  ShaderGraph.Proofs.Finishing — finishing a technique writes conditions and nothing else.

  Settling writes through handles, and the left sides of mappings are in the arena that the
  declarations point into. A left side may have a condition already, of an array whose length
  a parameter gives (`Sized`), and that condition has to outlast the settling. Finishing alone
  does not show that it does: no declaration may have the variable of a left side. This is
  owed to how a technique is built. A left side is stored as a new variable, and what is
  declared later gets a variable that is new again (`Technique.Spares`).

  - `reconditions_settledMapping`: a mapping keeps all but its condition, and its condition as
    well unless it is an input of a vertex node that aliases a varying.
  - `apart_of_operations`: whatever operations build a technique, and wherever they stop, no
    declaration has the left side of a mapping.
  - `conditionsOnly_of_operations`: so finishing changes the conditions of declared variables
    and of aliasing mappings, and leaves the rest.
-/

import ShaderGraph.Proofs.Aliases
import ShaderGraph.Proofs.Lengths

namespace ShaderGraph

open Block (Statement)
open Technique (AlongAdditions)

/-! ## What finishing leaves -/

inductive Technique.Reconditions (t : Technique) (stage : Stage) (m : Mapping) : Mapping → Prop
  | kept : t.Reconditions stage m m
  | aliased {d : Declaration} (c : Option String) : stage = .vertex → t.Aliases m.left d →
      t.Reconditions stage m (m.withCondition c)

/-- The node is the same but for the conditions of mappings that alias a varying. -/
structure Technique.ReconditionsNode (t : Technique) (n n' : Node) : Prop where
  name : n'.name = n.name
  definition : n'.definition = n.definition
  condition : n'.condition = n.condition
  inputs : List.Forall₂ (t.Reconditions n.stage) n.inputs n'.inputs
  outputs : n'.outputs = n.outputs

/-- The techniques differ in conditions alone, and in those alone of variables that are declared
and of mappings that alias a varying. -/
structure Technique.ConditionsOnly (t t' : Technique) : Prop where
  nodes : List.Forall₂ t.ReconditionsNode t.nodes t'.nodes
  size : t'.arena.size = t.arena.size
  declared : ∀ d ∈ t.registry.entries, ∃ v c,
    t.arena.get? d.id = some v ∧ t'.arena.get? d.id = some (v.withCondition c)
  undeclared : ∀ id, (∀ d ∈ t.registry.entries, d.id ≠ id) →
    t'.arena.get? id = t.arena.get? id
  /-- Left sides keep the condition that the length of an array gave them. -/
  lefts : ∀ n ∈ t.nodes, ∀ m ∈ n.inputs, ∃ v,
    t.arena.get? m.left = some v ∧ t'.arena.get? m.left = some v
  /-- The interface, the declarations, the defines and whatever else there is. -/
  rest : { t' with nodes := t.nodes, arena := t.arena } = t

/-! ## Mappings -/

namespace Activation

theorem exists_inheritAll (a : Arena) (ds : List Declaration) (m : Mapping) :
    ∃ c, inheritAll a ds m = m.withCondition c := by
  unfold inheritAll
  induction ds generalizing m with
  | nil => exact ⟨m.condition, rfl⟩
  | cons d ds ih =>
    rw [List.foldl_cons, inheritMapping]
    split
    · exact ih (m.withCondition _)
    · exact ih m

end Activation

namespace Technique

theorem aliases_of_settledArena {t : Technique} {id : VarId} {d : Declaration}
    (hd : d ∈ Activation.ofSort DeclKey.isVarying t.registry)
    (hs : (t.settledArena.read id).sameAs (t.settledArena.read d.id) = true) : t.Aliases id d := by
  obtain ⟨hentry, hvarying⟩ := Activation.mem_ofSort.mp hd
  rw [Arena.sameAs_of_unconditional t.settledArena_unconditional] at hs
  exact ⟨hentry, hvarying, hs⟩

theorem reconditions_settledMapping (t : Technique) (stage : Stage) (m : Mapping) :
    t.Reconditions stage m (t.settledMapping stage m) := by
  unfold settledMapping
  split
  · next hstage =>
    by_cases ha : ∀ d ∈ Activation.ofSort DeclKey.isVarying t.registry,
        (t.settledArena.read m.left).sameAs (t.settledArena.read d.id) = false
    · rw [Activation.inheritAll_of_none ha]
      exact .kept
    · push Not at ha
      obtain ⟨d, hd, hs⟩ := ha
      obtain ⟨c, hc⟩ := Activation.exists_inheritAll t.settledArena
        (Activation.ofSort DeclKey.isVarying t.registry) m
      rw [hc]
      exact .aliased c hstage (aliases_of_settledArena hd (Bool.eq_true_of_not_eq_false hs))
  · exact .kept

theorem reconditionsNode_settledNode (t : Technique) (n : Node) :
    t.ReconditionsNode n (t.settledNode n) where
  name := rfl
  definition := rfl
  condition := rfl
  inputs := by
    show List.Forall₂ _ _ (n.inputs.map _)
    rw [List.forall₂_map_right_iff, List.forall₂_same]
    exact fun m _ => t.reconditions_settledMapping n.stage m
  outputs := rfl

theorem reconditionsNode_finish (t : Technique) :
    List.Forall₂ t.ReconditionsNode t.nodes t.finish.nodes := by
  rw [t.finish_nodes_eq, List.forall₂_map_right_iff, List.forall₂_same]
  exact fun n _ => t.reconditionsNode_settledNode n

/-! ## Variables that no declaration has -/

structure Undeclared (t : Technique) (id : VarId) : Prop where
  stored : id.index < t.arena.size
  ne : ∀ d ∈ t.registry.entries, d.id ≠ id

/-- No node enters, and what is declared by the way has a variable that is new. -/
structure Spares (t t' : Technique) : Prop where
  nodes : t'.nodes = t.nodes
  sound : t.registry.Sound t.arena → t'.registry.Sound t'.arena
  undeclared : ∀ id, t.Undeclared id → t'.Undeclared id

section

variable {t t' : Technique}

/-- Variables may come in and change as long as none is declared. -/
theorem spares_of_registry (hnodes : t'.nodes = t.nodes) (hregistry : t'.registry = t.registry)
    (hsize : t.arena.size ≤ t'.arena.size) : t.Spares t' where
  nodes := hnodes
  sound h := by
    rw [hregistry]
    exact h.mono hsize
  undeclared id h := ⟨Nat.lt_of_lt_of_le h.stored hsize, by rw [hregistry]; exact h.ne⟩

theorem spares_afterOffer {key : DeclKey} {v : Variable} {consumer : Consumer} {o : Offered}
    (ho : o = t.offer key v consumer) : t.Spares (t.afterOffer o) := by
  subst ho
  refine ⟨rfl, fun h => h.offer key v consumer.name, fun id h => ?_⟩
  unfold offer
  rcases Registry.offer_cases t.registry t.arena key v consumer.name with
    ⟨_, -, -, ho⟩ | ⟨-, ho⟩
  · rw [ho]
    refine ⟨h.stored, fun e he => ?_⟩
    obtain ⟨d, hd, -, hid⟩ := Registry.mem_addConsumer he
    exact hid ▸ h.ne d hd
  · rw [ho]
    refine ⟨Nat.lt_of_lt_of_le h.stored (by simp [afterOffer]), fun e he => ?_⟩
    rcases Registry.mem_addDeclaration.mp he with he | rfl
    · exact h.ne e he
    · -- the new declaration has the variable that comes next
      rintro rfl
      exact Nat.lt_irrefl _ h.stored

instance : AlongAdditions Spares where
  refl _ := spares_of_registry rfl rfl (Nat.le_refl _)
  trans _ _ _ htu huw := ⟨huw.nodes.trans htu.nodes, fun h => huw.sound (htu.sound h),
    fun id h => huw.undeclared id (htu.undeclared id h)⟩
  addVariable t v := spares_of_registry rfl rfl (by simp [addVariable])
  bindDefine t _ _ _ := spares_of_registry rfl rfl (Nat.le_refl _)
  withInterface _ := spares_of_registry rfl rfl (Nat.le_refl _)
  afterOffer := spares_afterOffer
  raiseInputs t node name := spares_of_registry rfl rfl (by simp)

/-- A variable that is stored is not declared yet. -/
theorem undeclared_addVariable (h : t.registry.Sound t.arena) (v : Variable) :
    (t.addVariable v).Undeclared t.arena.nextId where
  stored := Arena.lt_of_get? (Arena.get?_add_nextId t.arena v)
  ne _ hd := h.ne_nextId hd

end

end Technique

/-! ## Left sides -/

structure Technique.Apart (t : Technique) (inputs : List Mapping) : Prop where
  sound : t.registry.Sound t.arena
  lefts : ∀ m ∈ inputs, t.Undeclared m.left

section

variable {t t' : Technique} {ms : List Mapping} {m : Mapping}

theorem Technique.Apart.spares (h : t.Apart ms) (hs : t.Spares t') : t'.Apart ms :=
  ⟨hs.sound h.sound, fun m hm => hs.undeclared m.left (h.lefts m hm)⟩

theorem Technique.Blank.apart (h : t.Blank) : t.Apart t.inputs := by
  rw [Technique.inputs, h.nodes]
  refine ⟨?_, fun m hm => by cases hm⟩
  rw [h.registry]
  exact Registry.sound_empty _

/-- The left side of a mapping that is read is stored for it. -/
theorem ReadsInput.undeclared {catalog : Catalog} {node : Node}
    (h : ReadsInput catalog node t m t') (hs : t.registry.Sound t.arena) :
    t'.Undeclared m.left := by
  cases h with
  | code _ hc => exact Technique.undeclared_addVariable ((hc.along : t.Spares _).sound hs) _
  | @reference _ _ _ left _ reference _ t₁ t₂ _ hc _ hr _ =>
    have hsound : t₁.registry.Sound t₁.arena := (hc.along : t.Spares t₁).sound hs
    have hresolved : t₂.registry.Sound t₂.arena := (hr.along : t₁.Spares t₂).sound hsound
    have hmarked := (t₂.along_markProducer reference : t₂.Spares _).sound hresolved
    have hleft := Technique.undeclared_addVariable hmarked left
    rwa [arena_markProducer] at hleft

/-- What is read to a node spares the left sides so far, and stores each further one. -/
theorem apart_step {context : Context} {p q : Progress} (h : p.technique.Apart p.inputs)
    (hs : Step context p q) : q.technique.Apart q.inputs := by
  cases hs with
  | @opened t library library' name line definition _ _ =>
    rw [inputs_opened library library' name name definition]
    obtain ⟨unused, hu⟩ := markOpened_eq t name definition
    have hspares : t.Spares (t.markOpened name definition) := by
      rw [hu]
      exact AlongAdditions.withInterface (t.interface.grows_withUnused unused)
    exact h.spares hspares
  | @condition t t' library node c hc =>
    have hspares : t.Spares t' := hc.along
    have hinputs : Progress.inputs ⟨t', library, some { node with condition := c }⟩ =
        Progress.inputs ⟨t, library, some node⟩ := inputs_of_eq hspares.nodes rfl
    rw [hinputs]
    exact h.spares hspares
  | @input t t' _ _ _ hi =>
    have hspares : t.Spares t' := hi.along
    rw [inputs_input _ hspares.nodes]
    refine ⟨hspares.sound h.sound, fun m hm => ?_⟩
    rcases List.mem_append.mp hm with hm | hm
    · exact hspares.undeclared m.left (h.lefts m hm)
    · rw [List.mem_singleton.mp hm]
      exact hi.undeclared h.sound
  | @output t t' library node m ho =>
    have hspares : t.Spares t' := ho.along
    have hinputs : Progress.inputs
        ⟨t', library, some { node with outputs := node.outputs ++ [m] }⟩ =
          Progress.inputs ⟨t, library, some node⟩ := inputs_of_eq hspares.nodes rfl
    rw [hinputs]
    exact h.spares hspares
  | closed =>
    rw [inputs_closed]
    exact ⟨h.sound, fun m hm => ⟨(h.lefts m hm).stored, (h.lefts m hm).ne⟩⟩

theorem apart_of_reach {context : Context} {start p : Progress}
    (h : start.technique.Apart start.inputs) (hr : Reach context start p) :
    p.technique.Apart p.inputs := by
  induction hr with
  | start => exact h
  | step _ hs ih => exact apart_step ih hs

end

/-! ## Every operation -/

section

variable {context : Context} {statement : Statement} {g g' : Graph} {t₀ t : Technique}

/-- A statement that is wrong adds no node. -/
theorem spares_of_wrong_node {e : Fault}
    (h : Graph.readAndAddNode context statement g = (.error e, g')) :
    g.technique.Spares g'.technique := by
  cases hk : statement.afterKeyword? "ShaderNode " with
  | none =>
    simp only [Graph.readAndAddNode, hk] at h
    cases h
    exact refl_of Technique.Spares _
  | some name =>
    simp only [Graph.readAndAddNode, hk, Attempt.run_bind, Attempt.run_get] at h
    split at h
    · cases h
      exact refl_of Technique.Spares _
    · rcases Attempt.bind_eq_error.mp h with hnode | ⟨node, g₁, -, hadd⟩
      · have hspares : Graph.Related Technique.Spares g _ :=
          Graph.along_readNode context statement name g
        rwa [hnode] at hspares
      · exact absurd hadd (Attempt.succeeds_modify _ _ _ _)

/-- Whether a node enters or its statement is wrong. -/
theorem apart_readAndAddNode (h : g.technique.Apart g.technique.inputs) (statement : Statement) :
    (Graph.readAndAddNode context statement g).2.technique.Apart
      (Graph.readAndAddNode context statement g).2.technique.inputs := by
  cases hread : Graph.readAndAddNode context statement g with
  | mk r g' =>
    cases r with
    | ok u =>
      rw [← inputs_between g.technique g.library] at h
      have hreached := apart_of_reach h (reach_readAndAddNode .start hread)
      rwa [Graph.progress, inputs_between] at hreached
    | error e =>
      have hspares := spares_of_wrong_node hread
      rw [Technique.inputs, hspares.nodes]
      exact h.spares hspares

theorem apart_readNodes (h : g.technique.Apart g.technique.inputs) (statements : List Statement) :
    (Graph.readNodes context statements g).2.technique.Apart
      (Graph.readNodes context statements g).2.technique.inputs := by
  induction statements generalizing g with
  | nil => exact h
  | cons statement statements ih =>
    have hone : (Graph.readAndAddNode context statement g).2.technique.Apart _ :=
      apart_readAndAddNode h statement
    have hcons : Graph.readNodes context (statement :: statements) =
        (Graph.readAndAddNode context statement >>= fun _ =>
          Graph.readNodes context statements) := rfl
    rw [hcons, Attempt.run_bind]
    cases hread : Graph.readAndAddNode context statement g with
    | mk r g' =>
      rw [hread] at hone
      cases r with
      | ok u => exact ih hone
      | error e => exact hone

/-- Whatever operations build a technique, and wherever they stop, no declaration has the left
side of a mapping. -/
theorem apart_of_operations (h₀ : t₀.Blank) (h : Relation.ReflTransGen (Operation context) t₀ t) :
    t.Apart t.inputs := by
  induction h with
  | refl => exact h₀.apart
  | tail _ ho ih =>
    rcases ho.along_or_readNodes (R := Technique.Spares) with hs | ⟨statements, g, rfl, rfl⟩
    · rw [Technique.inputs, hs.nodes]
      exact ih.spares hs
    · exact apart_readNodes ih statements

/-- Of whatever is built, finishing changes the conditions of declared variables and of inputs of
vertex nodes that alias a varying; all else is as it was, left sides and their conditions
included. -/
theorem conditionsOnly_of_operations (h₀ : t₀.Blank)
    (h : Relation.ReflTransGen (Operation context) t₀ t) : t.ConditionsOnly t.finish := by
  have hapart := apart_of_operations h₀ h
  refine ⟨t.reconditionsNode_finish, t.finish_size, fun d hd => ?_,
    fun id hid => Technique.finish_get?_of_ne hid, fun n hn m hm => ?_, rfl⟩
  · obtain ⟨v, hv⟩ := Arena.exists_get? (hapart.sound.stored d hd)
    obtain ⟨c, hc⟩ := Technique.finish_get? hv
    exact ⟨v, c, hv, hc⟩
  · have hleft := hapart.lefts m (List.mem_flatMap.mpr ⟨n, hn, hm⟩)
    obtain ⟨v, hv⟩ := Arena.exists_get? hleft.stored
    exact ⟨v, hv, (Technique.finish_get?_of_ne hleft.ne).trans hv⟩

end

namespace Lit

/-- The definition that sums the lights up, and a node of it that reads them under a guard. -/
def guardedSum : List Statement :=
  (summedTechnique "lights = MatParam.Lights : UseLight").contents.flatMap (·.contents)

def defined : Graph :=
  ⟨.empty none, (readDefinitions lightsContext.options (guardedSum.take 1)).toOption.getD [], []⟩

def summedLights : Technique :=
  (Graph.readNodes lightsContext (guardedSum.drop 1) defined).2.technique

theorem operations_summedLights :
    Relation.ReflTransGen (Operation lightsContext) (.empty none) summedLights :=
  .single (.readNodes (guardedSum.drop 1) defined)

end Lit

open Lit in
/-- Finishing settles the uniform of the lights, and the input that asked for their length stays
needed where it was. -/
theorem conditionsOnly_summedLights :
    ((Technique.empty none).Blank ∧
      Relation.ReflTransGen (Operation lightsContext) (.empty none) summedLights ∧
      summedLights.inputs.map (·.left) = [⟨1⟩] ∧
      summedLights.arena.slots.map (·.condition) =
        [none, some "defined(NBLIGHTS)", none, none] ∧
      summedLights.finish.arena.slots.map (·.condition) =
        [some "((defined(USELIGHT))) || (defined(NBLIGHTS))", some "defined(NBLIGHTS)", none,
          none]) ∧
    summedLights.ConditionsOnly summedLights.finish := by
  have hblank : (Technique.empty none).Blank := ⟨rfl, rfl, rfl, rfl⟩
  exact ⟨⟨hblank, operations_summedLights, by decide +kernel, by decide +kernel,
    by decide +kernel⟩, conditionsOnly_of_operations hblank operations_summedLights⟩

end ShaderGraph
