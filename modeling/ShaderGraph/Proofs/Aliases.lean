/-
  ShaderGraph.Proofs.Aliases — the inputs of vertex nodes that are varyings.

  An input of a vertex node and an output of it may have one name. If the fragment stage reads
  the output, both are one varying, and a mapping to the input is needed wherever the
  varying is. Settling goes over all mappings once for each varying; a mapping is still
  rewritten once at most, because no two varyings have one producer and one name.

  - `Aliases`: the variable designates the varying of a declaration.
  - `finish_nodes_eq`: finishing rewrites the mappings one by one.
  - `settles`: a mapping that aliases no varying is kept, any other gets what `inherited` says.
-/

import ShaderGraph.Proofs.Exactness

namespace ShaderGraph

open Activation (settleAll ofSort mem_ofSort inherit inheritMapping inherited)

/-! ## Rewriting one mapping -/

namespace Activation

section

variable {a : Arena} {ds before after : List Declaration} {d : Declaration} {m : Mapping}

def inheritAll (a : Arena) (ds : List Declaration) (m : Mapping) : Mapping :=
  ds.foldl (fun m d => inheritMapping a (a.read d.id) m) m

theorem inheritAll_of_none (h : ∀ d ∈ ds, (a.read m.left).sameAs (a.read d.id) = false) :
    inheritAll a ds m = m := by
  unfold inheritAll
  induction ds with
  | nil => rfl
  | cons d ds ih =>
    have hd : inheritMapping a (a.read d.id) m = m := by
      rw [inheritMapping, if_neg (by simp [h d List.mem_cons_self])]
    rw [List.foldl_cons, hd]
    exact ih fun e he => h e (List.mem_cons_of_mem d he)

/-- Where one varying alone is aliased, its condition alone is taken over. -/
theorem inheritAll_of_unique (hn : ds.Nodup) (hd : d ∈ ds)
    (ha : (a.read m.left).sameAs (a.read d.id) = true)
    (hu : ∀ e ∈ ds, (a.read m.left).sameAs (a.read e.id) = true → e = d) :
    inheritAll a ds m = m.withCondition (inherited m.condition (a.read d.id).condition) := by
  obtain ⟨before, after, rfl⟩ := List.append_of_mem hd
  simp only [List.nodup_append, List.nodup_cons, List.mem_cons] at hn
  obtain ⟨-, ⟨hafter, -⟩, hbefore⟩ := hn
  have hone : inheritMapping a (a.read d.id) m =
      m.withCondition (inherited m.condition (a.read d.id).condition) := by
    rw [inheritMapping, if_pos ha]
    rfl
  have hfirst : inheritAll a before m = m := by
    refine inheritAll_of_none fun e he => ?_
    by_contra hs
    have hed := hu e (List.mem_append_left _ he) (Bool.eq_true_of_not_eq_false hs)
    exact hbefore e he d (Or.inl rfl) hed
  have hrest : ∀ c, inheritAll a after (m.withCondition c) = m.withCondition c := by
    intro c
    refine inheritAll_of_none fun e he => ?_
    by_contra hs
    have hed := hu e (List.mem_append_right _ (List.mem_cons_of_mem d he))
      (Bool.eq_true_of_not_eq_false hs)
    exact hafter (hed ▸ he)
  rw [inheritAll, List.foldl_append, List.foldl_cons]
  show inheritAll a after (inheritMapping a (a.read d.id) (inheritAll a before m)) = _
  rw [hfirst, hone, hrest]

/-- Going over all nodes for each varying is going over all varyings for each mapping. -/
theorem foldl_inherit (a : Arena) (ds : List Declaration) (nodes : List Node) :
    ds.foldl (inherit a) nodes = nodes.map fun n =>
      if n.stage = .vertex then { n with inputs := n.inputs.map (inheritAll a ds) } else n := by
  induction ds generalizing nodes with
  | nil =>
    have hid : inheritAll a [] = id := rfl
    rw [List.foldl_nil, hid]
    symm
    simp
  | cons d ds ih =>
    rw [List.foldl_cons, ih, inherit, List.map_map]
    refine List.map_congr_left fun n _ => ?_
    by_cases hn : n.stage = .vertex
    · have hstage : ({ n with inputs := n.inputs.map (inheritMapping a (a.read d.id)) }
          : Node).stage = .vertex := hn
      simp only [Function.comp, if_pos hn, if_pos hstage, List.map_map]
      rfl
    · simp only [Function.comp, if_neg hn]

end

end Activation

/-! ## Aliases -/

/-- The variable designates the varying that is declared. -/
structure Technique.Aliases (t : Technique) (id : VarId) (d : Declaration) : Prop where
  declared : d ∈ t.registry.entries
  varying : d.key.isVarying = true
  same : (t.arena.read id).sameAs (t.arena.read d.id) = true

inductive Settles (t : Technique) (stage : Stage) (m : Mapping) : Mapping → Prop
  | kept : (stage = .vertex → ∀ d, ¬ t.Aliases m.left d) → Settles t stage m m
  | widened {d : Declaration} : stage = .vertex → t.Aliases m.left d →
      Settles t stage m (m.withCondition (inherited m.condition (t.arena.read d.id).condition))

theorem Settles.left_eq {t : Technique} {stage : Stage} {m m' : Mapping}
    (h : Settles t stage m m') : m'.left = m.left := by
  cases h <;> rfl

theorem Settles.source_eq {t : Technique} {stage : Stage} {m m' : Mapping}
    (h : Settles t stage m m') : m'.source = m.source := by
  cases h <;> rfl

namespace Technique

/-- The variables with all but the attributes settled. -/
def settledArena (t : Technique) : Arena :=
  settleAll DeclKey.isVarying t.registry t.nodes
    (settleAll DeclKey.isUniform t.registry t.nodes t.arena)

def settledMapping (t : Technique) (stage : Stage) (m : Mapping) : Mapping :=
  if stage = .vertex then
    Activation.inheritAll t.settledArena (ofSort DeclKey.isVarying t.registry) m
  else m

def settledNode (t : Technique) (n : Node) : Node :=
  { n with inputs := n.inputs.map (t.settledMapping n.stage) }

theorem finish_nodes_eq (t : Technique) : t.finish.nodes = t.nodes.map t.settledNode := by
  show (ofSort DeclKey.isVarying t.registry).foldl (inherit t.settledArena) t.nodes = _
  rw [Activation.foldl_inherit]
  refine List.map_congr_left fun n _ => ?_
  by_cases hn : n.stage = .vertex
  · have hall : t.settledMapping n.stage =
        Activation.inheritAll t.settledArena (ofSort DeclKey.isVarying t.registry) :=
      funext fun m => if_pos hn
    rw [if_pos hn, settledNode, hall]
  · have hnone : t.settledMapping n.stage = id := funext fun m => if_neg hn
    rw [if_neg hn, settledNode, hnone, List.map_id]

section

variable {t : Technique} {R W : VarId → Prop} {id : VarId} {d e : Declaration}

theorem settledArena_unconditional (t : Technique) :
    t.settledArena.unconditional = t.arena.unconditional := by
  rw [settledArena, Activation.settleAll_unconditional, Activation.settleAll_unconditional]

theorem sameAs_settledArena (t : Technique) (x y : VarId) :
    (t.settledArena.read x).sameAs (t.settledArena.read y) =
      (t.finish.arena.read x).sameAs (t.finish.arena.read y) :=
  Arena.sameAs_of_unconditional (t.settledArena_unconditional.trans t.finish_arena.symm) x y

/-- Settling the attributes leaves the varyings. -/
theorem condition_settledArena (h : t.registry.Sound t.arena) (hd : d ∈ t.registry.entries)
    (hk : d.key.isVarying = true) :
    (t.settledArena.read d.id).condition = (t.finish.arena.read d.id).condition := by
  have hattribute := DeclKey.isAttribute_of_isVarying hk
  have hget : t.finish.arena.get? d.id = t.settledArena.get? d.id :=
    Activation.get?_settleAll_of_not h hd hattribute _ _
  rw [Arena.read, Arena.read, hget]

end

end Technique

section

variable {t : Technique} {R W : VarId → Prop} {id : VarId} {d e : Declaration}

/-- A variable designates one varying at most. -/
theorem Exact.eq_of_aliases (h : Exact t R W) (hd : t.Aliases id d) (he : t.Aliases id e) :
    d = e := by
  obtain ⟨v, hv, hdnames⟩ := h.names d hd.declared
  obtain ⟨w, hw, henames⟩ := h.names e he.declared
  have hds := hd.same
  have hes := he.same
  simp only [Arena.read_of_get? hv, Variable.sameAs, Bool.and_eq_true, beq_iff_eq] at hds
  simp only [Arena.read_of_get? hw, Variable.sameAs, Bool.and_eq_true, beq_iff_eq] at hes
  refine h.sound.eq_of_key hd.declared he.declared (hdnames.eq henames ?_)
  exact Prod.ext (hds.1.symm.trans hes.1) (hds.2.symm.trans hes.2)

/-- Finishing rewrites a mapping as its aliases say. -/
theorem Exact.settles (h : Exact t R W) (stage : Stage) (m : Mapping) :
    Settles t.finish stage m (t.settledMapping stage m) := by
  have hf := h.finish
  unfold Technique.settledMapping
  by_cases hs : stage = .vertex
  · rw [if_pos hs]
    by_cases ha : ∃ d, t.finish.Aliases m.left d
    · obtain ⟨d, hd⟩ := ha
      have hmem : d ∈ ofSort DeclKey.isVarying t.registry :=
        mem_ofSort.mpr ⟨hd.declared, hd.varying⟩
      have hnodup : (ofSort DeclKey.isVarying t.registry).Nodup :=
        List.Nodup.of_map _ (Activation.nodup_ofSort h.sound)
      rw [Activation.inheritAll_of_unique hnodup hmem ((t.sameAs_settledArena _ _).trans hd.same),
        Technique.condition_settledArena h.sound hd.declared hd.varying]
      · exact .widened hs hd
      · intro e he hsame
        obtain ⟨hentry, hvarying⟩ := mem_ofSort.mp he
        rw [t.sameAs_settledArena] at hsame
        exact hf.eq_of_aliases ⟨hentry, hvarying, hsame⟩ hd
    · rw [Activation.inheritAll_of_none]
      · exact .kept fun _ d hd => ha ⟨d, hd⟩
      · intro d hd
        obtain ⟨hentry, hvarying⟩ := mem_ofSort.mp hd
        rw [t.sameAs_settledArena]
        by_contra hsame
        exact ha ⟨d, hentry, hvarying, Bool.eq_true_of_not_eq_false hsame⟩
  · rw [if_neg hs]
    exact .kept fun hv => absurd hv hs

end

end ShaderGraph
