/-
  ShaderGraph.Proofs.Settling — what settling the conditions of a technique writes.

  Settling goes through the declarations three times and through the vertex nodes once,
  and writes nothing but conditions:
  - `compute_condition`: a uniform or varying gets the condition that its consumers give
    it, as the nodes were before.
  - `compute_attribute_condition`: an attribute gets it as the nodes are in the end.
  - `compute_arena_unconditional`: every variable keeps all but its condition.
  - `compute_nodes_unconditional`: every node keeps all but the conditions of its input
    mappings.
  So a finished technique is the one that was built, but for conditions (`finish_nodes`,
  `finish_arena`).
-/

import ShaderGraph.Activation
import ShaderGraph.Proofs.Registry

namespace ShaderGraph

def Variable.withCondition (v : Variable) (condition : Option String) : Variable :=
  { v with condition }

def Mapping.withCondition (m : Mapping) (condition : Option String) : Mapping :=
  { m with condition }

namespace Activation

open Condition (guard merge)

def settledCondition (nodes : List Node) (d : Declaration) (v : Variable) : Option String :=
  merge (declarationCondition d nodes) (v.sizeDefine.map guard) "||"

/-! ## The arena -/

theorem get?_settle (nodes : List Node) (a : Arena) (d : Declaration) (id : VarId) :
    (settle nodes a d).get? id =
      if d.id = id then (a.get? id).map fun v => v.withCondition (settledCondition nodes d v)
      else a.get? id := Arena.get?_update a d.id id _

/-- Settling some declarations leaves every variable that is none of theirs. -/
theorem get?_foldl_settle_of_ne (nodes : List Node) {ds : List Declaration} {id : VarId}
    (h : ∀ d ∈ ds, d.id ≠ id) (a : Arena) : (ds.foldl (settle nodes) a).get? id = a.get? id := by
  induction ds generalizing a with
  | nil => rfl
  | cons d ds ih =>
    rw [List.foldl_cons, ih (fun e he => h e (List.mem_cons_of_mem d he)), get?_settle,
      if_neg (h d List.mem_cons_self)]

/-- Of declarations with different variables, each gets its own condition. -/
theorem get?_foldl_settle_of_mem (nodes : List Node) {ds : List Declaration}
    (hn : (ds.map (·.id)).Nodup) {d : Declaration} (hd : d ∈ ds) (a : Arena) :
    (ds.foldl (settle nodes) a).get? d.id =
      (a.get? d.id).map fun v => v.withCondition (settledCondition nodes d v) := by
  induction ds generalizing a with
  | nil => cases hd
  | cons e ds ih =>
    obtain ⟨he, hn⟩ := List.nodup_cons.mp hn
    rw [List.foldl_cons]
    rcases List.mem_cons.mp hd with rfl | hd
    · have hne : ∀ e ∈ ds, e.id ≠ d.id := fun e hm h => he (List.mem_map.mpr ⟨e, hm, h⟩)
      rw [get?_foldl_settle_of_ne nodes hne, get?_settle, if_pos rfl]
    · have hne : e.id ≠ d.id := fun h => he (List.mem_map.mpr ⟨d, hd, h.symm⟩)
      rw [ih hn hd, get?_settle, if_neg hne]

def ofSort (sort : DeclKey → Bool) (r : Registry) : List Declaration :=
  r.entries.filter (sort ·.key)

theorem mem_ofSort {sort : DeclKey → Bool} {r : Registry} {d : Declaration} :
    d ∈ ofSort sort r ↔ d ∈ r.entries ∧ sort d.key = true := List.mem_filter

theorem nodup_ofSort {sort : DeclKey → Bool} {r : Registry} {a : Arena} (h : r.Sound a) :
    ((ofSort sort r).map (·.id)).Nodup := (List.filter_sublist.map _).nodup h.ids

theorem settleAll_eq (sort : DeclKey → Bool) (r : Registry) (nodes : List Node) (a : Arena) :
    settleAll sort r nodes a = (ofSort sort r).foldl (settle nodes) a := rfl

/-- Settling declarations of another sort leaves a declaration's variable. -/
theorem get?_settleAll_of_not {sort : DeclKey → Bool} {r : Registry} {a₀ : Arena}
    (h : r.Sound a₀) {d : Declaration} (hd : d ∈ r.entries) (hs : sort d.key = false)
    (nodes : List Node) (a : Arena) : (settleAll sort r nodes a).get? d.id = a.get? d.id := by
  refine get?_foldl_settle_of_ne nodes (fun e he hid => ?_) a
  obtain ⟨he, hse⟩ := mem_ofSort.mp he
  rw [h.eq_of_id he hd hid, hs] at hse
  cases hse

/-- The condition of a uniform or varying, once all are settled. -/
theorem compute_condition {r : Registry} {a : Arena} (h : r.Sound a) (nodes : List Node)
    {d : Declaration} (hd : d ∈ r.entries) (hk : d.key.isAttribute = false) :
    ((compute r nodes a).2.read d.id).condition = settledCondition nodes d (a.read d.id) := by
  obtain ⟨v, hv⟩ := Arena.exists_get? (h.stored d hd)
  have hc : (compute r nodes a).2.get? d.id =
      some (v.withCondition (settledCondition nodes d v)) := by
    -- of the three passes, the one over the sort of `d` writes its variable and no other does
    show (settleAll DeclKey.isAttribute r _ _).get? d.id = _
    rw [get?_settleAll_of_not h hd hk]
    rcases d.key.sorts with ⟨hu, hs, -⟩ | ⟨hu, hs, -⟩ | ⟨-, -, ha⟩
    · rw [get?_settleAll_of_not h hd hs, settleAll_eq,
        get?_foldl_settle_of_mem nodes (nodup_ofSort h) (mem_ofSort.mpr ⟨hd, hu⟩), hv]
      rfl
    · rw [settleAll_eq, get?_foldl_settle_of_mem nodes (nodup_ofSort h) (mem_ofSort.mpr ⟨hd, hs⟩),
        get?_settleAll_of_not h hd hu, hv]
      rfl
    · rw [hk] at ha
      cases ha
  rw [Arena.read_of_get? hc, Arena.read_of_get? hv]
  rfl

/-- The condition of an attribute is what its consumers give it as they are in the end. -/
theorem compute_attribute_condition {r : Registry} {a : Arena} (h : r.Sound a)
    (nodes : List Node) {d : Declaration} (hd : d ∈ r.entries) (hk : d.key.isAttribute = true) :
    ((compute r nodes a).2.read d.id).condition =
      settledCondition (compute r nodes a).1 d (a.read d.id) := by
  obtain ⟨v, hv⟩ := Arena.exists_get? (h.stored d hd)
  obtain ⟨hu, hs⟩ : d.key.isUniform = false ∧ d.key.isVarying = false := by
    have := d.key.sorts
    simp_all
  have hc : (compute r nodes a).2.get? d.id =
      some (v.withCondition (settledCondition (compute r nodes a).1 d v)) := by
    show (settleAll DeclKey.isAttribute r (compute r nodes a).1 _).get? d.id = _
    rw [settleAll_eq, get?_foldl_settle_of_mem _ (nodup_ofSort h) (mem_ofSort.mpr ⟨hd, hk⟩),
      get?_settleAll_of_not h hd hs, get?_settleAll_of_not h hd hu, hv]
    rfl
  rw [Arena.read_of_get? hc, Arena.read_of_get? hv]
  rfl

end Activation

/-! ## Nothing but conditions -/

def Arena.unconditional (a : Arena) : Arena := ⟨a.slots.map (·.withCondition none)⟩

/-- The node without the conditions of its input mappings. -/
def Node.unconditional (n : Node) : Node :=
  { n with inputs := n.inputs.map (·.withCondition none) }

theorem Arena.unconditional_update (a : Arena) (id : VarId) {f : Variable → Variable}
    (hf : ∀ v, (f v).withCondition none = v.withCondition none) :
    (a.update id f).unconditional = a.unconditional := by
  unfold unconditional update
  congr 1
  refine List.ext_getElem? fun i => ?_
  rw [List.getElem?_map, List.getElem?_map, List.getElem?_modify]
  cases a.slots[i]? with
  | none => rfl
  | some v =>
    split
    · exact congrArg some (hf v)
    · rfl

/-- Arenas that agree but for conditions have variables that do. -/
theorem Arena.exists_of_unconditional {a b : Arena} (h : b.unconditional = a.unconditional)
    {id : VarId} {v : Variable} (hv : a.get? id = some v) :
    ∃ c, b.get? id = some (v.withCondition c) := by
  have hs : (b.slots.map (·.withCondition none))[id.index]? = some (v.withCondition none) := by
    rw [show b.slots.map (·.withCondition none) = a.slots.map (·.withCondition none) from
      congrArg Arena.slots h, List.getElem?_map, show a.slots[id.index]? = some v from hv]
    rfl
  rw [List.getElem?_map] at hs
  obtain ⟨w, hw, he⟩ := Option.map_eq_some_iff.mp hs
  refine ⟨w.condition, hw.trans (congrArg some ?_)⟩
  have := congrArg (·.withCondition w.condition) he
  exact this

theorem Arena.size_of_unconditional {a b : Arena} (h : b.unconditional = a.unconditional) :
    b.size = a.size := by
  have := congrArg (·.slots.length) h
  simp only [unconditional, List.length_map] at this
  exact this

theorem Arena.exists_read_of_unconditional {a b : Arena} (h : b.unconditional = a.unconditional)
    (id : VarId) : ∃ c, b.read id = (a.read id).withCondition c := by
  unfold Arena.read
  cases hv : a.get? id with
  | some v =>
    obtain ⟨c, hc⟩ := exists_of_unconditional h hv
    exact ⟨c, by rw [hc]; rfl⟩
  | none =>
    cases hw : b.get? id with
    | none => exact ⟨none, rfl⟩
    | some w =>
      obtain ⟨c, hc⟩ := exists_of_unconditional h.symm hw
      rw [hv] at hc
      cases hc

/-- Whether two variables designate one does not depend on conditions. -/
theorem Arena.sameAs_of_unconditional {a b : Arena} (h : b.unconditional = a.unconditional)
    (x y : VarId) : (b.read x).sameAs (b.read y) = (a.read x).sameAs (a.read y) := by
  obtain ⟨c, hx⟩ := exists_read_of_unconditional h x
  obtain ⟨c', hy⟩ := exists_read_of_unconditional h y
  rw [hx, hy]
  rfl

/-- Nodes that agree but for conditions have mappings that do. -/
theorem Node.exists_of_unconditional {n n' : Node} (h : n'.unconditional = n.unconditional)
    {m : Mapping} (hm : m ∈ n.inputs) : ∃ c, m.withCondition c ∈ n'.inputs := by
  have hi : m.withCondition none ∈ n'.inputs.map (·.withCondition none) := by
    rw [show n'.inputs.map (·.withCondition none) = n.inputs.map (·.withCondition none) from
      congrArg Node.inputs h]
    exact List.mem_map.mpr ⟨m, hm, rfl⟩
  obtain ⟨m', hm', he⟩ := List.mem_map.mp hi
  refine ⟨m'.condition, ?_⟩
  have : m.withCondition m'.condition = m' := (congrArg (·.withCondition m'.condition) he).symm
  rw [this]
  exact hm'

theorem Node.eq_of_unconditional {n n' : Node} (h : n'.unconditional = n.unconditional) :
    n'.name = n.name ∧ n'.definition = n.definition ∧ n'.condition = n.condition ∧
      n'.outputs = n.outputs := by
  simp only [unconditional, Node.mk.injEq] at h
  exact ⟨h.1, h.2.1, h.2.2.1, h.2.2.2.2⟩

namespace Activation

theorem settleAll_unconditional (sort : DeclKey → Bool) (r : Registry) (nodes : List Node)
    (a : Arena) : (settleAll sort r nodes a).unconditional = a.unconditional := by
  rw [settleAll_eq]
  induction ofSort sort r generalizing a with
  | nil => rfl
  | cons d ds ih => exact (ih (settle nodes a d)).trans (a.unconditional_update d.id fun _ => rfl)

theorem compute_arena_unconditional (r : Registry) (nodes : List Node) (a : Arena) :
    (compute r nodes a).2.unconditional = a.unconditional := by
  simp only [compute, settleAll_unconditional]

theorem inherit_unconditional (a : Arena) (nodes : List Node) (d : Declaration) :
    (inherit a nodes d).map Node.unconditional = nodes.map Node.unconditional := by
  unfold inherit
  rw [List.map_map]
  refine List.map_congr_left fun n _ => ?_
  simp only [Function.comp]
  split
  · simp only [Node.unconditional, List.map_map]
    congr 1
    refine List.map_congr_left fun m _ => ?_
    simp only [Function.comp, inheritMapping]
    split <;> rfl
  · rfl

theorem compute_nodes_unconditional (r : Registry) (nodes : List Node) (a : Arena) :
    (compute r nodes a).1.map Node.unconditional = nodes.map Node.unconditional := by
  simp only [compute]
  generalize settleAll DeclKey.isVarying r nodes (settleAll DeclKey.isUniform r nodes a) = b
  induction r.entries.filter (·.key.isVarying) generalizing nodes with
  | nil => rfl
  | cons d ds ih => exact (ih (inherit b nodes d)).trans (inherit_unconditional b nodes d)

end Activation

/-! ## Finishing -/

namespace Technique

@[simp] theorem finish_registry (t : Technique) : t.finish.registry = t.registry := rfl

@[simp] theorem finish_interface (t : Technique) : t.finish.interface = t.interface := rfl

@[simp] theorem finish_defines (t : Technique) : t.finish.defines = t.defines := rfl

@[simp] theorem finish_presets (t : Technique) : t.finish.presets = t.presets := rfl

theorem finish_nodes (t : Technique) :
    t.finish.nodes.map Node.unconditional = t.nodes.map Node.unconditional :=
  Activation.compute_nodes_unconditional t.registry t.nodes t.arena

theorem finish_definitions (t : Technique) :
    t.finish.nodes.map (·.definition) = t.nodes.map (·.definition) := by
  have := congrArg (List.map Node.definition) t.finish_nodes
  rwa [List.map_map, List.map_map] at this

/-- A finished node is one that was built, but for the conditions of its input mappings. -/
theorem exists_node_of_finish {t : Technique} {n' : Node} (h : n' ∈ t.finish.nodes) :
    ∃ n ∈ t.nodes, n'.unconditional = n.unconditional := by
  have hmem : n'.unconditional ∈ t.nodes.map Node.unconditional := by
    rw [← t.finish_nodes]
    exact List.mem_map_of_mem h
  obtain ⟨n, hn, he⟩ := List.mem_map.mp hmem
  exact ⟨n, hn, he.symm⟩

/-- A node that was built is finished under its name and with its definition. -/
theorem exists_finish_node {t : Technique} {n : Node} (h : n ∈ t.nodes) :
    ∃ n' ∈ t.finish.nodes, n'.name = n.name ∧ n'.definition = n.definition := by
  have hmem : n.unconditional ∈ t.finish.nodes.map Node.unconditional := by
    rw [t.finish_nodes]
    exact List.mem_map_of_mem h
  obtain ⟨n', hn', he⟩ := List.mem_map.mp hmem
  obtain ⟨hname, hdefinition, -⟩ := Node.eq_of_unconditional he
  exact ⟨n', hn', hname, hdefinition⟩

theorem finish_arena (t : Technique) : t.finish.arena.unconditional = t.arena.unconditional :=
  Activation.compute_arena_unconditional t.registry t.nodes t.arena

@[simp] theorem finish_size (t : Technique) : t.finish.arena.size = t.arena.size :=
  Arena.size_of_unconditional t.finish_arena

/-- A variable of the building technique is there in the finished one, but for its condition. -/
theorem finish_get? {t : Technique} {id : VarId} {v : Variable} (h : t.arena.get? id = some v) :
    ∃ c, t.finish.arena.get? id = some (v.withCondition c) :=
  Arena.exists_of_unconditional t.finish_arena h

/-- A variable that is not declared keeps its condition. -/
theorem finish_get?_of_ne {t : Technique} {id : VarId}
    (h : ∀ d ∈ t.registry.entries, d.id ≠ id) : t.finish.arena.get? id = t.arena.get? id := by
  have hsort : ∀ (sort : DeclKey → Bool) (nodes : List Node) (a : Arena),
      (Activation.settleAll sort t.registry nodes a).get? id = a.get? id := fun sort nodes a =>
    Activation.get?_foldl_settle_of_ne nodes
      (fun d hd => h d (Activation.mem_ofSort.mp hd).1) a
  show (Activation.compute t.registry t.nodes t.arena).2.get? id = _
  simp only [Activation.compute, hsort]

end Technique

end ShaderGraph
