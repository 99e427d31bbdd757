/-
  ShaderGraph.Proofs.Listing — the interface lists each declaration where it is needed.

  An attribute or varying is listed when it is declared, a uniform whenever a stage reads it for
  the first time. Both stages share the declarations of uniforms, so the lists of uniforms
  cannot be read off the registry: they follow the mappings, stage by stage.

  - `Listed`: the attributes and varyings are the registered ones in their order, and the
    uniforms of a stage are those its nodes read, at the place of their first reading.
  - `Listed.effect`: no step breaks it.
  - `interfaceExact_of_readTechnique`: so it is in every technique that is read.
-/

import Mathlib.Data.List.Induction
import ShaderGraph.Proofs.Effects

namespace ShaderGraph

open Block (Statement)

/-! ## Lists without repetition -/

section

variable {α : Type} [BEq α] [LawfulBEq α]

theorem eraseDups_snoc (xs : List α) (x : α) :
    (xs ++ [x]).eraseDups = addOnce xs.eraseDups x := by
  rw [List.eraseDups_append]
  unfold addOnce
  by_cases h : x ∈ xs
  · have hx : xs.eraseDups.contains x = true := by simpa using h
    simp [List.removeAll, h]
  · have hx : xs.eraseDups.contains x = false := by simpa using h
    simp [List.removeAll, List.eraseDups_cons, h]

theorem nodup_addOnce {xs : List α} (h : xs.Nodup) (x : α) : (addOnce xs x).Nodup := by
  unfold addOnce
  split
  · exact h
  · next hx =>
    have hx : x ∉ xs := by simpa using hx
    refine List.nodup_append.mpr ⟨h, List.nodup_singleton x, ?_⟩
    intro a ha b hb hab
    rw [hab, List.mem_singleton.mp hb] at ha
    exact hx ha

theorem nodup_eraseDups (xs : List α) : xs.eraseDups.Nodup := by
  induction xs using List.reverseRecOn with
  | nil => simp
  | append_singleton xs x ih =>
    rw [eraseDups_snoc]
    exact nodup_addOnce ih x

end

/-! ## Declarations of one sort -/

namespace Registry

def idsOf (r : Registry) (sort : DeclKey → Bool) : List VarId :=
  (r.entries.filter (sort ·.key)).map (·.id)

variable {r : Registry} {a : Arena} {sort : DeclKey → Bool} {id : VarId}

theorem mem_idsOf : id ∈ r.idsOf sort ↔ ∃ d ∈ r.entries, sort d.key = true ∧ d.id = id := by
  simp [idsOf, and_assoc]

theorem idsOf_addConsumer (r : Registry) (key : DeclKey) (consumer : String)
    (sort : DeclKey → Bool) : (r.addConsumer key consumer).idsOf sort = r.idsOf sort := by
  have hkey : ∀ d : Declaration,
      (if d.key = key then d.addConsumer consumer else d).key = d.key := by
    intro d
    split <;> rfl
  have hid : ∀ d : Declaration,
      (if d.key = key then d.addConsumer consumer else d).id = d.id := by
    intro d
    split <;> rfl
  simp [idsOf, addConsumer, List.filter_map, Function.comp_def, hkey, hid]

theorem idsOf_addDeclaration (r : Registry) (key : DeclKey) (id : VarId) (consumer : String)
    (sort : DeclKey → Bool) : (r.addDeclaration key id consumer).idsOf sort =
      r.idsOf sort ++ if sort key then [id] else [] := by
  by_cases h : sort key = true <;> simp [idsOf, addDeclaration, h]

theorem Sound.nodup_idsOf (h : r.Sound a) (sort : DeclKey → Bool) : (r.idsOf sort).Nodup :=
  (List.filter_sublist.map _).nodup h.ids

/-- What is listed of a sort grows by the variable of an offer, if it is a new one of that sort. -/
theorem idsOf_offer (r : Registry) (a : Arena) (key : DeclKey) (v : Variable) (consumer : String)
    (sort : DeclKey → Bool) : (r.offer a key v consumer).registry.idsOf sort =
      r.idsOf sort ++ if (r.offer a key v consumer).isNew && sort key then
        [(r.offer a key v consumer).id] else [] := by
  rcases offer_cases r a key v consumer with ⟨d, -, -, ho⟩ | ⟨-, ho⟩
  · rw [ho, idsOf_addConsumer]
    simp
  · rw [ho, idsOf_addDeclaration]
    simp

/-- The variable of an offer is declared under the sort of its key and no other. -/
theorem Sound.mem_idsOf_offer (h : r.Sound a) {key : DeclKey} {v : Variable} {consumer : String} :
    (r.offer a key v consumer).id ∈ (r.offer a key v consumer).registry.idsOf sort ↔
      sort key = true := by
  have hs := h.offer key v consumer
  obtain ⟨d, hd, hkey, hid⟩ := r.exists_offered a key v consumer
  rw [mem_idsOf]
  constructor
  · rintro ⟨e, he, hsort, heid⟩
    have hed : e = d := hs.eq_of_id he hd (heid.trans hid.symm)
    rw [← hkey, ← hed]
    exact hsort
  · intro hsort
    exact ⟨d, hd, hkey ▸ hsort, hid⟩

/-- An offer changes nothing about the variables that were in the arena before. -/
theorem mem_idsOf_offer_of_lt (h : id.index < a.size) (key : DeclKey) (v : Variable)
    (consumer : String) :
    id ∈ (r.offer a key v consumer).registry.idsOf sort ↔ id ∈ r.idsOf sort := by
  rw [idsOf_offer]
  rcases offer_cases r a key v consumer with ⟨d, -, -, ho⟩ | ⟨-, ho⟩
  · rw [ho]
    simp
  · rw [ho]
    have hne : id ≠ a.nextId := by
      intro he
      rw [he] at h
      exact Nat.lt_irrefl _ h
    cases hsort : sort key <;> simp [hne]

end Registry

/-! ## What a stage reads -/

def Source.id? : Source → Option VarId
  | var id => some id
  | code _ => none

/-- The variables that the nodes of some stages read, in the order of the mappings. -/
def readIds (stage : Stage → Bool) (nodes : List Node) : List VarId :=
  (nodes.filter (stage ·.stage)).flatMap fun n => n.inputs.filterMap (·.source.id?)

def uniformReads (r : Registry) (stage : Stage → Bool) (nodes : List Node) : List VarId :=
  (readIds stage nodes).filter fun id => id ∈ r.idsOf DeclKey.isUniform

section

variable {r r' : Registry} {stage : Stage → Bool} {ns ns' before : List Node} {node : Node}
  {m : Mapping} {id : VarId}

theorem id?_eq_some {s : Source} : s.id? = some id ↔ s = .var id := by
  cases s <;> simp [Source.id?]

theorem mem_readIds : id ∈ readIds stage ns ↔
    ∃ n ∈ ns, stage n.stage = true ∧ ∃ m ∈ n.inputs, m.source = .var id := by
  simp [readIds, id?_eq_some, and_assoc]

theorem readIds_append (ns ns' : List Node) :
    readIds stage (ns ++ ns') = readIds stage ns ++ readIds stage ns' := by
  simp [readIds]

theorem readIds_withInput (m : Mapping) :
    readIds stage (before ++ [node.withInput m]) = readIds stage (before ++ [node]) ++
      if stage node.stage then m.source.id?.toList else [] := by
  rw [readIds_append, readIds_append]
  cases h : stage node.stage with
  | false => simp [readIds, h]
  | true => cases hs : m.source.id? <;> simp [readIds, h, hs]

theorem uniformReads_of_wires (h : ns'.map Node.wires = ns.map Node.wires) (r : Registry)
    (stage : Stage → Bool) : uniformReads r stage ns' = uniformReads r stage ns := by
  have wires : ∀ l : List Node, readIds stage (l.map Node.wires) = readIds stage l := by
    intro l
    have hstage : ∀ n : Node, n.wires.stage = n.stage := fun n => rfl
    have hinputs : ∀ n : Node, n.wires.inputs.filterMap (·.source.id?) =
        n.inputs.filterMap (·.source.id?) := by
      intro n
      simp only [Node.wires, List.filterMap_map]
      rfl
    simp [readIds, List.filter_map, List.flatMap_map, Function.comp_def, hstage, hinputs]
  unfold uniformReads
  rw [← wires ns', h, wires]

/-- A new mapping adds its variable at the end, if it is a uniform and read in the stage. -/
theorem uniformReads_withInput (hm : m.source = .var id)
    (hold : ∀ x ∈ readIds stage (before ++ [node]),
      (x ∈ r'.idsOf DeclKey.isUniform ↔ x ∈ r.idsOf DeclKey.isUniform)) :
    uniformReads r' stage (before ++ [node.withInput m]) =
      uniformReads r stage (before ++ [node]) ++
        if stage node.stage = true ∧ id ∈ r'.idsOf DeclKey.isUniform then [id] else [] := by
  have hfilter : (readIds stage (before ++ [node])).filter
      (fun x => x ∈ r'.idsOf DeclKey.isUniform) = uniformReads r stage (before ++ [node]) :=
    List.filter_congr fun x hx => by simp [hold x hx]
  rw [uniformReads, readIds_withInput, List.filter_append, hfilter, hm]
  congr 1
  cases stage node.stage with
  | false => simp
  | true => by_cases hid : id ∈ r'.idsOf DeclKey.isUniform <;> simp [Source.id?, hid]

end

/-! ## The invariant -/

structure Listed (i : Interface) (r : Registry) (nodes : List Node) : Prop where
  attributes : i.attributes = r.idsOf DeclKey.isAttribute
  varyings : i.varyings = r.idsOf DeclKey.isVarying
  vertexUniforms : i.vertexUniforms = (uniformReads r (· == .vertex) nodes).eraseDups
  fragmentUniforms : i.fragmentUniforms = (uniformReads r (· != .vertex) nodes).eraseDups

section

variable {i i' : Interface} {r r' : Registry} {ns ns' : List Node}

/-- Globals and unused nodes do not count. -/
theorem Listed.congr (h : Listed i r ns) (hi : i'.declared = i.declared) : Listed i' r ns := by
  simp only [Interface.declared, Interface.mk.injEq] at hi
  obtain ⟨hattributes, hvertex, hfragment, hvaryings, -⟩ := hi
  exact ⟨hattributes ▸ h.attributes, hvaryings ▸ h.varyings, hvertex ▸ h.vertexUniforms,
    hfragment ▸ h.fragmentUniforms⟩

theorem Listed.of_uniformReads (h : Listed i r ns)
    (hn : ∀ stage, uniformReads r stage ns' = uniformReads r stage ns) : Listed i r ns' :=
  ⟨h.attributes, h.varyings, by rw [hn]; exact h.vertexUniforms,
    by rw [hn]; exact h.fragmentUniforms⟩

theorem Listed.sameDeclarations {t t' : Technique} (h : Listed t.interface t.registry ns)
    (hs : t.SameDeclarations t') (hn : ∀ r stage, uniformReads r stage ns' = uniformReads r stage ns) :
    Listed t'.interface t'.registry ns' := by
  rw [hs.registry]
  exact (h.congr hs.listed).of_uniformReads (hn _)

/-! What each list gets from an offer. -/

theorem attributes_list (i : Interface) (key : DeclKey) (stage : Stage) (o : Offered) :
    (i.list key stage o).attributes =
      i.attributes ++ if o.isNew && key.isAttribute then [o.id] else [] := by
  cases key <;> cases stage <;> cases h : o.isNew <;>
    simp [Interface.list, Resolution.Interface.listAttribute, Resolution.Interface.listUniform,
      Resolution.Interface.listVarying, DeclKey.isAttribute, h]

theorem varyings_list (i : Interface) (key : DeclKey) (stage : Stage) (o : Offered) :
    (i.list key stage o).varyings =
      i.varyings ++ if o.isNew && key.isVarying then [o.id] else [] := by
  cases key <;> cases stage <;> cases h : o.isNew <;>
    simp [Interface.list, Resolution.Interface.listAttribute, Resolution.Interface.listUniform,
      Resolution.Interface.listVarying, DeclKey.isVarying, h]

theorem vertexUniforms_list (i : Interface) (key : DeclKey) (stage : Stage) (o : Offered) :
    (i.list key stage o).vertexUniforms =
      if (stage == .vertex) = true ∧ key.isUniform = true then addOnce i.vertexUniforms o.id
      else i.vertexUniforms := by
  cases key <;> cases stage <;> cases h : o.isNew <;>
    simp [Interface.list, Resolution.Interface.listAttribute, Resolution.Interface.listUniform,
      Resolution.Interface.listVarying, DeclKey.isUniform, addOnce, h]

theorem fragmentUniforms_list (i : Interface) (key : DeclKey) (stage : Stage) (o : Offered) :
    (i.list key stage o).fragmentUniforms =
      if (stage != .vertex) = true ∧ key.isUniform = true then addOnce i.fragmentUniforms o.id
      else i.fragmentUniforms := by
  cases key <;> cases stage <;> cases h : o.isNew <;>
    simp [Interface.list, Resolution.Interface.listAttribute, Resolution.Interface.listUniform,
      Resolution.Interface.listVarying, DeclKey.isUniform, addOnce, h]

/-- Listing at the end what is read at the end. -/
theorem eraseDups_append_if (xs : List VarId) (c : Prop) [Decidable c] (id : VarId) :
    (xs ++ if c then [id] else []).eraseDups =
      if c then addOnce xs.eraseDups id else xs.eraseDups := by
  split
  · exact eraseDups_snoc xs id
  · rw [List.append_nil]

variable {t t' : Technique} {before : List Node} {node : Node} {m : Mapping} {id : VarId}

/-- Whether its variable is declared or not, a new mapping leaves the lists exact. -/
theorem Listed.declares (h : Listed t.interface t.registry (before ++ [node]))
    (hs : t.registry.Sound t.arena)
    (hread : ∀ stage, ∀ x ∈ readIds stage (before ++ [node]), x.index < t.arena.size)
    (hm : m.source = .var id) (hd : Declares ⟨node.name, node.stage⟩ t id t') :
    Listed t'.interface t'.registry (before ++ [node.withInput m]) := by
  cases hd with
  | undeclared hne hsame =>
    have hid : id ∉ t.registry.idsOf DeclKey.isUniform := by
      rw [Registry.mem_idsOf]
      rintro ⟨d, hd, -, hdid⟩
      exact hne d hd hdid
    rw [hsame.registry]
    refine (h.congr hsame.listed).of_uniformReads fun stage => ?_
    rw [uniformReads_withInput hm fun _ _ => Iff.rfl]
    simp [hid]
  | @offered key v o _ ho hregistry hlisted =>
    -- what is read so far are old variables, for which the offer changes nothing
    have hreads : ∀ stage, uniformReads o.registry stage (before ++ [node.withInput m]) =
        uniformReads t.registry stage (before ++ [node]) ++
          if stage node.stage = true ∧ key.isUniform = true then [o.id] else [] := by
      intro stage
      rw [uniformReads_withInput (r := t.registry) hm fun x hx => ?_]
      · rw [ho]
        simp only [Technique.offer, hs.mem_idsOf_offer]
      · rw [ho]
        exact Registry.mem_idsOf_offer_of_lt (hread stage x hx) key v _
    have hids : ∀ sort, o.registry.idsOf sort = t.registry.idsOf sort ++
        if o.isNew && sort key then [o.id] else [] := by
      intro sort
      rw [ho]
      exact Registry.idsOf_offer _ _ _ _ _ sort
    rw [hregistry]
    refine Listed.congr ⟨?_, ?_, ?_, ?_⟩ hlisted
    · rw [attributes_list, hids, h.attributes]
    · rw [varyings_list, hids, h.varyings]
    · rw [vertexUniforms_list, hreads, eraseDups_append_if, h.vertexUniforms]
    · rw [fragmentUniforms_list, hreads, eraseDups_append_if, h.fragmentUniforms]

variable {p q : Progress}

theorem Listed.effect (hp : p.Coherent) (he : Effect p q)
    (h : Listed p.technique.interface p.technique.registry p.nodes) :
    Listed q.technique.interface q.technique.registry q.nodes := by
  cases he with
  | kept hs hn => exact h.sameDeclarations hs fun r stage => uniformReads_of_wires hn r stage
  | @opened node hs _ hi hq =>
    refine h.sameDeclarations hs fun r stage => ?_
    rw [hq, uniformReads, uniformReads, readIds_append]
    simp [readIds, hi]
  | @wroteCode before node m text hs hm hpn hq =>
    rw [hpn] at h
    rw [hq]
    refine h.sameDeclarations hs fun r stage => ?_
    rw [uniformReads, uniformReads, readIds_withInput, hm]
    simp [Source.id?]
  | @read before node m id hd hm hpn hq =>
    have hread : ∀ stage, ∀ x ∈ readIds stage (before ++ [node]),
        x.index < p.technique.arena.size := by
      intro stage x hx
      obtain ⟨n, hn, -, hreads⟩ := mem_readIds.mp hx
      exact hp.stored (hpn ▸ hn) hreads
    rw [hpn] at h
    rw [hq]
    exact h.declares hp.exact.sound hread hm hd

theorem listed_of_reach {context : Context} {draft : Draft} (hd : draft.technique.Blank)
    (h : Reach context draft.progress p) :
    Listed p.technique.interface p.technique.registry p.nodes := by
  refine h.invariant hd
    (P := fun p => Listed p.technique.interface p.technique.registry p.nodes) ?_ ?_
  · show Listed draft.technique.interface draft.technique.registry (draft.technique.nodes ++ [])
    rw [hd.interface, hd.registry, hd.nodes]
    exact ⟨rfl, rfl, rfl, rfl⟩
  · intro p q hp hs hl
    exact hl.effect hp (effect_of_step hp.exact hs)

end

/-! ## Finished techniques -/

/-- The interface lists every declaration where it is needed, in the order in which it came
to be needed there, and nothing twice. -/
structure Technique.InterfaceExact (t : Technique) : Prop where
  nodup : t.interface.attributes.Nodup ∧ t.interface.varyings.Nodup ∧
    t.interface.vertexUniforms.Nodup ∧ t.interface.fragmentUniforms.Nodup
  mem_attributes : ∀ id, id ∈ t.interface.attributes ↔
    ∃ d ∈ t.registry.entries, d.key.isAttribute = true ∧ d.id = id
  mem_varyings : ∀ id, id ∈ t.interface.varyings ↔
    ∃ d ∈ t.registry.entries, d.key.isVarying = true ∧ d.id = id
  mem_vertexUniforms : ∀ id, id ∈ t.interface.vertexUniforms ↔
    (∃ d ∈ t.registry.entries, d.key.isUniform = true ∧ d.id = id) ∧
      ∃ n ∈ t.nodes, n.stage = .vertex ∧ ∃ m ∈ n.inputs, m.source = .var id
  mem_fragmentUniforms : ∀ id, id ∈ t.interface.fragmentUniforms ↔
    (∃ d ∈ t.registry.entries, d.key.isUniform = true ∧ d.id = id) ∧
      ∃ n ∈ t.nodes, n.stage ≠ .vertex ∧ ∃ m ∈ n.inputs, m.source = .var id
  attributes : t.interface.attributes = t.registry.idsOf DeclKey.isAttribute
  varyings : t.interface.varyings = t.registry.idsOf DeclKey.isVarying
  vertexUniforms : t.interface.vertexUniforms =
    (uniformReads t.registry (· == .vertex) t.nodes).eraseDups
  fragmentUniforms : t.interface.fragmentUniforms =
    (uniformReads t.registry (· != .vertex) t.nodes).eraseDups

theorem mem_uniformReads {r : Registry} {stage : Stage → Bool} {nodes : List Node} {id : VarId} :
    id ∈ uniformReads r stage nodes ↔
      (∃ d ∈ r.entries, d.key.isUniform = true ∧ d.id = id) ∧
        ∃ n ∈ nodes, stage n.stage = true ∧ ∃ m ∈ n.inputs, m.source = .var id := by
  rw [uniformReads, List.mem_filter, mem_readIds, decide_eq_true_iff, Registry.mem_idsOf,
    and_comm]

theorem Listed.interfaceExact {t : Technique} (h : Listed t.interface t.registry t.nodes)
    (hs : t.registry.Sound t.arena) : t.InterfaceExact where
  nodup := by
    rw [h.attributes, h.varyings, h.vertexUniforms, h.fragmentUniforms]
    exact ⟨hs.nodup_idsOf _, hs.nodup_idsOf _, nodup_eraseDups _, nodup_eraseDups _⟩
  mem_attributes id := by rw [h.attributes, Registry.mem_idsOf]
  mem_varyings id := by rw [h.varyings, Registry.mem_idsOf]
  mem_vertexUniforms id := by
    rw [h.vertexUniforms, List.mem_eraseDups, mem_uniformReads]
    simp only [beq_iff_eq]
  mem_fragmentUniforms id := by
    rw [h.fragmentUniforms, List.mem_eraseDups, mem_uniformReads]
    simp only [bne_iff_ne]
  attributes := h.attributes
  varyings := h.varyings
  vertexUniforms := h.vertexUniforms
  fragmentUniforms := h.fragmentUniforms

/-- In every technique that is read, the interface is exact for each stage. -/
theorem interfaceExact_of_readTechnique {context : Context} {statement : Statement}
    {warnings warnings' : List Warning} {t : Technique}
    (h : readTechnique context statement warnings = (.ok (some t), warnings')) :
    t.InterfaceExact := by
  obtain ⟨draft, t₀, library, hdraft, hreach, rfl⟩ := built_of_readTechnique h
  have hblank := blank_of_drafts hdraft
  have hlisted := listed_of_reach hblank hreach
  have hsound := (coherent_of_reach hblank hreach).exact.finish.sound
  rw [nodes_between] at hlisted
  have hfinished : Listed t₀.finish.interface t₀.finish.registry t₀.finish.nodes :=
    hlisted.of_uniformReads fun stage => uniformReads_of_wires t₀.finish_wires _ stage
  exact hfinished.interfaceExact hsound

/-- The color is read once in the vertex stage and three times in the fragment stage, and listed once
for each. -/
theorem interfaceExact_mixed :
    ∃ t warnings, readTechnique Lit.context Lit.mixedTechnique [] = (.ok (some t), warnings) ∧
      (t.interface.vertexUniforms, t.interface.fragmentUniforms) = ([⟨6⟩], [⟨6⟩]) ∧
      t.InterfaceExact := by
  obtain ⟨t, warnings, h, hread⟩ := Lit.readTechnique_mixedTechnique
  exact ⟨t, warnings, h, hread.uniforms, interfaceExact_of_readTechnique h⟩

end ShaderGraph
