/-
  ShaderGraph.Proofs.Consumers — the consumers of a declaration are the nodes that read it.

  A node becomes a consumer while a mapping of it is resolved, before the mapping is checked and
  long before the node enters the technique. The list is still exact, because the node counts
  as one of the graph from its opening on, and no other node of the graph has its name.

  - `Consumed`: every declaration lists the nodes that read it, in the order of the nodes.
  - `Consumed.effect`: no step breaks it.
  - `consumersExact_of_readTechnique`: so it is in every technique that is read.
-/

import ShaderGraph.Proofs.Effects

namespace ShaderGraph

open Block (Statement)

/-! ## Readers -/

def Node.reads (n : Node) (id : VarId) : Bool := n.inputs.any (·.reads id)

theorem exists_of_reads {n : Node} {id : VarId} (h : n.reads id = true) :
    ∃ m ∈ n.inputs, m.source = .var id := by
  simpa [Node.reads, Mapping.reads] using h

theorem Node.reads_of_source {n : Node} {m : Mapping} {id : VarId} (hm : m ∈ n.inputs)
    (hs : m.source = .var id) : n.reads id = true :=
  List.any_eq_true.mpr ⟨m, hm, by simp [Mapping.reads, hs]⟩

def readers (nodes : List Node) (id : VarId) : List String :=
  (nodes.filter (·.reads id)).map (·.name)

section

variable {ns ns' before : List Node} {node : Node} {m : Mapping} {id x : VarId} {name : String}

theorem readers_append (ns ns' : List Node) (id : VarId) :
    readers (ns ++ ns') id = readers ns id ++ readers ns' id := by
  simp [readers]

theorem mem_readers : name ∈ readers ns id ↔ ∃ n ∈ ns, n.reads id = true ∧ n.name = name := by
  simp [readers, and_assoc]

theorem name_mem_of_mem_readers (h : name ∈ readers ns id) : name ∈ ns.map (·.name) := by
  obtain ⟨n, hn, -, hname⟩ := mem_readers.mp h
  exact List.mem_map.mpr ⟨n, hn, hname⟩

/-- The readers do not depend on conditions. -/
theorem readers_of_wires (h : ns'.map Node.wires = ns.map Node.wires) (id : VarId) :
    readers ns' id = readers ns id := by
  have wires : ∀ l : List Node, readers (l.map Node.wires) id = readers l id := by
    intro l
    simp only [readers, List.filter_map, List.map_map]
    congr 1
    refine List.filter_congr fun n _ => ?_
    simp only [Function.comp, Node.reads, Node.wires, List.any_map]
    rfl
  rw [← wires, h, wires]

theorem reads_withInput (hm : m.source = .var id) :
    (node.withInput m).reads x = (node.reads x || decide (id = x)) := by
  have hmx : m.reads x = decide (id = x) := by
    simp [Mapping.reads, hm, beq_eq_decide]
  simp [Node.reads, hmx]

/-- The node that reads the variable by a new mapping is its last reader. -/
theorem readers_withInput_self (hm : m.source = .var id) :
    readers (before ++ [node.withInput m]) id = readers before id ++ [node.name] := by
  rw [readers_append]
  simp [readers, reads_withInput hm]

/-- A mapping of another variable makes no reader. -/
theorem readers_withInput_of_ne (hm : m.source ≠ .var x) :
    readers (before ++ [node.withInput m]) x = readers (before ++ [node]) x := by
  have hmx : m.reads x = false := by simpa [Mapping.reads] using hm
  have hreads : (node.withInput m).reads x = node.reads x := by simp [Node.reads, hmx]
  rw [readers_append, readers_append]
  cases h : node.reads x with
  | true => simp [readers, hreads, h]
  | false => simp [readers, hreads, h]

/-- Adding the last node as a consumer gives the readers once it reads, whether it has read the
variable before or not. -/
theorem addOnce_readers (hname : node.name ∉ before.map (·.name)) :
    addOnce (readers (before ++ [node]) id) node.name = readers before id ++ [node.name] := by
  have hbefore : node.name ∉ readers before id := fun h => hname (name_mem_of_mem_readers h)
  rw [readers_append]
  cases h : node.reads id with
  | true =>
    have hone : readers [node] id = [node.name] := by simp [readers, h]
    simp [hone, addOnce]
  | false =>
    have hnone : readers [node] id = [] := by simp [readers, h]
    simp [hnone, addOnce, hbefore]

theorem readers_of_nodup (h : (ns.map (·.name)).Nodup) (id : VarId) : (readers ns id).Nodup :=
  (List.filter_sublist.map _).nodup h

end

/-! ## The invariant -/

def Consumed (r : Registry) (nodes : List Node) : Prop :=
  ∀ d ∈ r.entries, d.consumers = readers nodes d.id

section

variable {t t' : Technique} {before : List Node} {node : Node} {m : Mapping} {id : VarId}

/-- Whether its variable is declared or not, a new mapping leaves the consumers exact. -/
theorem Consumed.declares (h : Consumed t.registry (before ++ [node]))
    (hs : t.registry.Sound t.arena) (hname : node.name ∉ before.map (·.name))
    (hfresh : ∀ n ∈ before, n.reads t.arena.nextId = false) (hm : m.source = .var id)
    (hd : Declares ⟨node.name, node.stage⟩ t id t') :
    Consumed t'.registry (before ++ [node.withInput m]) := by
  have other : ∀ x, x ≠ id →
      readers (before ++ [node.withInput m]) x = readers (before ++ [node]) x := by
    intro x hx
    refine readers_withInput_of_ne ?_
    rw [hm]
    intro he
    cases he
    exact hx rfl
  have self : readers (before ++ [node.withInput m]) id = readers before id ++ [node.name] :=
    readers_withInput_self hm
  cases hd with
  | undeclared hne hsame =>
    intro d hd
    rw [hsame.registry] at hd
    rw [other d.id (hne d hd)]
    exact h d hd
  | @offered key v o _ ho hregistry _ =>
    rw [hregistry]
    intro e he
    rw [ho] at he
    rcases hs.mem_offer he with ⟨he, hne⟩ | ⟨d, hd, hid, rfl⟩ | ⟨rfl, hid⟩
    · rw [other e.id (ho ▸ hne)]
      exact h e he
    · -- the node is the last one, so it is a new consumer or the last one so far
      show addOnce d.consumers node.name = readers (before ++ [node.withInput m]) d.id
      rw [h d hd, show d.id = o.id from ho ▸ hid, self]
      exact addOnce_readers hname
    · -- nothing has read the new variable before
      have hnone : readers before t.arena.nextId = [] := by
        simpa [readers] using hfresh
      have hnew : o.id = t.arena.nextId := ho ▸ hid
      show [node.name] = readers (before ++ [node.withInput m]) t.arena.nextId
      rw [← hnew, self, hnew, hnone]
      rfl

theorem Consumed.sameDeclarations {ns ns' : List Node} (h : Consumed t.registry ns)
    (hs : t.SameDeclarations t') (hn : ∀ id, readers ns' id = readers ns id) :
    Consumed t'.registry ns' := by
  intro d hd
  rw [hs.registry] at hd
  rw [hn]
  exact h d hd

end

section

variable {p q : Progress}

theorem Consumed.effect (hp : p.Coherent) (he : Effect p q)
    (h : Consumed p.technique.registry p.nodes) : Consumed q.technique.registry q.nodes := by
  cases he with
  | kept hs hn => exact h.sameDeclarations hs (readers_of_wires hn)
  | @opened node hs _ hi hq =>
    refine h.sameDeclarations hs fun id => ?_
    rw [hq, readers_append]
    simp [readers, Node.reads, hi]
  | @wroteCode before node m text hs hm hpn hq =>
    rw [hpn] at h
    rw [hq]
    refine h.sameDeclarations hs fun id => readers_withInput_of_ne ?_
    rw [hm]
    exact fun he => nomatch he
  | @read before node m id hd hm hpn hq =>
    have hnames := hp.names
    rw [hpn, List.map_append] at hnames
    rw [hpn] at h
    rw [hq]
    refine h.declares hp.exact.sound ?_ (fun n hn => ?_) hm hd
    · intro hmem
      exact (List.nodup_append.mp hnames).2.2 _ hmem _ (List.mem_singleton_self _) rfl
    · by_contra hr
      have hreads := exists_of_reads (Bool.eq_true_of_not_eq_false hr)
      have hlt := hp.stored (hpn ▸ List.mem_append_left _ hn) hreads
      exact Nat.lt_irrefl _ hlt

theorem consumed_of_reach {context : Context} {draft : Draft} (hd : draft.technique.Blank)
    (h : Reach context draft.progress p) : Consumed p.technique.registry p.nodes := by
  refine h.invariant hd (P := fun p => Consumed p.technique.registry p.nodes) ?_ ?_
  · intro d hmem
    have hnone : draft.technique.registry.entries = [] := by rw [hd.registry]; rfl
    rw [show draft.progress.technique = draft.technique from rfl, hnone] at hmem
    exact absurd hmem List.not_mem_nil
  · intro p q hp hs hc
    exact hc.effect hp (effect_of_step hp.exact hs)

end

/-! ## Finished techniques -/

/-- Every declaration names as its consumers the nodes that read it, in their order and each once,
and a name designates the one node that has it. -/
structure Technique.ConsumersExact (t : Technique) : Prop where
  readers : ∀ d ∈ t.registry.entries,
    d.consumers = (t.nodes.filter fun n => n.inputs.any (·.reads d.id)).map (·.name)
  nodup : ∀ d ∈ t.registry.entries, d.consumers.Nodup
  designated : ∀ d ∈ t.registry.entries, ∀ name ∈ d.consumers,
    ∃ n, t.nodes.filter (·.name = name) = [n] ∧ n.inputs.any (·.reads d.id) = true

/-- Of nodes with distinct names, one has the name that it has. -/
theorem filter_name_of_nodup {ns : List Node} (h : (ns.map (·.name)).Nodup) {n : Node}
    (hn : n ∈ ns) : ns.filter (·.name = n.name) = [n] := by
  obtain ⟨before, after, rfl⟩ := List.append_of_mem hn
  simp only [List.map_append, List.map_cons, List.nodup_append, List.nodup_cons] at h
  obtain ⟨-, ⟨hafter, -⟩, hbefore⟩ := h
  have hb : before.filter (·.name = n.name) = [] := by
    refine List.filter_eq_nil_iff.mpr fun x hx hname => ?_
    exact hbefore x.name (List.mem_map_of_mem hx) n.name List.mem_cons_self (by simpa using hname)
  have ha : after.filter (·.name = n.name) = [] := by
    refine List.filter_eq_nil_iff.mpr fun x hx hname => ?_
    exact hafter (List.mem_map.mpr ⟨x, hx, by simpa using hname⟩)
  rw [List.filter_append, List.filter_cons, hb, ha]
  simp

/-- And one is found under it. -/
theorem find?_name_of_nodup {ns : List Node} (h : (ns.map (·.name)).Nodup) {n : Node}
    (hn : n ∈ ns) : ns.find? (·.name == n.name) = some n := by
  rw [← List.head?_filter]
  simpa [beq_eq_decide] using congrArg List.head? (filter_name_of_nodup h hn)

theorem consumersExact_of_consumed {t : Technique} (h : Consumed t.registry t.nodes)
    (hnames : (t.nodes.map (·.name)).Nodup) : t.ConsumersExact := by
  refine ⟨h, fun d hd => ?_, fun d hd name hname => ?_⟩
  · rw [h d hd]
    exact readers_of_nodup hnames d.id
  · rw [h d hd] at hname
    obtain ⟨n, hn, hreads, rfl⟩ := mem_readers.mp hname
    exact ⟨n, filter_name_of_nodup hnames hn, hreads⟩

/-- In every technique that is read, the consumers are the readers. -/
theorem consumersExact_of_readTechnique {context : Context} {statement : Statement}
    {warnings warnings' : List Warning} {t : Technique}
    (h : readTechnique context statement warnings = (.ok (some t), warnings')) :
    t.ConsumersExact := by
  obtain ⟨draft, t₀, library, hdraft, hreach, rfl⟩ := built_of_readTechnique h
  have hblank := blank_of_drafts hdraft
  have hconsumed := consumed_of_reach hblank hreach
  have hnames := (coherent_of_reach hblank hreach).names
  rw [nodes_between] at hconsumed hnames
  refine consumersExact_of_consumed ?_ ?_
  · intro d hd
    rw [readers_of_wires t₀.finish_wires]
    exact hconsumed d hd
  · rw [map_name_of_wires t₀.finish_wires]
    exact hnames

/-- A uniform that three nodes of both stages read, and a varying that two read. -/
theorem consumersExact_mixed :
    ∃ t warnings, readTechnique Lit.context Lit.mixedTechnique [] = (.ok (some t), warnings) ∧
      t.registry.entries.map (·.consumers) = [["Placed"], ["Placed"],
        ["Shaded", "Lighted", "Mixed"], ["Lighted", "Mixed"]] ∧ t.ConsumersExact := by
  obtain ⟨t, warnings, h, hread⟩ := Lit.readTechnique_mixedTechnique
  refine ⟨t, warnings, h, ?_, consumersExact_of_readTechnique h⟩
  rw [hread.declarations]
  rfl

end ShaderGraph
