/-
  ShaderGraph.Proofs.Exactness — a technique declares what its mappings read, each thing once.

  A declaration is known by its key, a right side by its variable. The invariant (`Exact`) ties
  them together while a graph is built: the variable of a declaration has the namespace and
  name of its key, every declaration is read by a mapping, and a variable that is read is
  declared unless it is a global or an output read in its own stage. Promoting an output to a
  varying makes inputs of its node outputs as well; this reaches no right side, because a
  left side is a variable of its own (`written`).

  - `Exact.resolves`: the invariant is kept by resolving, whichever way a reference is found.
  - `exact_of_reach`: it holds wherever steps lead.
  - `declaresExactly_of_readTechnique`: so declarations and what is read of the declared
    namespaces are in bijection, in every technique that is read.
-/

import Mathlib.Data.Set.Function
import ShaderGraph.Proofs.Drafting
import ShaderGraph.Proofs.Settling

namespace ShaderGraph

open Block (Statement)
open Resolution (StoresGlobal Resolves globalVariable attributeVariable parameterVariable
  worldVariable outputVariable raiseInputs)

/-! ## What mappings read and write -/

def Reads (mappings : List Mapping) (id : VarId) : Prop := ∃ m ∈ mappings, m.source = .var id

def Writes (mappings : List Mapping) (id : VarId) : Prop := ∃ m ∈ mappings, m.left = id

theorem reads_append (ms : List Mapping) (m : Mapping) :
    Reads (ms ++ [m]) = fun id => Reads ms id ∨ m.source = .var id := by
  funext id
  simp only [Reads, List.mem_append, List.mem_singleton, or_and_right, exists_or, exists_eq_left]

theorem writes_append (ms : List Mapping) (m : Mapping) :
    Writes (ms ++ [m]) = fun id => Writes ms id ∨ m.left = id := by
  funext id
  simp only [Writes, List.mem_append, List.mem_singleton, or_and_right, exists_or, exists_eq_left]

def Variable.IsDeclared (v : Variable) : Prop :=
  v.origin = some .vertexAttribute ∨ v.origin = some .materialParameter ∨
    v.origin = some .worldParameter ∨ (∃ p, v.origin = some (.node p)) ∧ v.isOutput = true

def DeclKey.Names : DeclKey → Variable → Prop
  | vertexAttribute name, v => v.origin = some .vertexAttribute ∧ v.name = name
  | uniform name, v =>
    (v.origin = some .materialParameter ∨ v.origin = some .worldParameter) ∧ v.name = name
  | varying producer output, v =>
    v.origin = some (.node producer) ∧ v.name = output ∧ v.isOutput = true

/-! ## The invariant -/

/-- The declarations of a technique are exact for the variables `R` that are read, and none of
those is one of the variables `W` that are written. -/
structure Exact (t : Technique) (R W : VarId → Prop) : Prop where
  sound : t.registry.Sound t.arena
  names : ∀ d ∈ t.registry.entries, ∃ v, t.arena.get? d.id = some v ∧ d.key.Names v
  read : ∀ d ∈ t.registry.entries, R d.id
  declared : ∀ id, R id → ∃ v, t.arena.get? id = some v ∧
    (v.IsDeclared → id ∈ t.registry.entries.map (·.id))
  written : ∀ id, W id → id.index < t.arena.size ∧ ¬ R id ∧ id ∉ t.interface.globals
  globals : ∀ id ∈ t.interface.globals, ∃ v, t.arena.get? id = some v ∧ v.origin = some .global

namespace Exact

variable {t t' : Technique} {R W : VarId → Prop}

theorem stored (h : Exact t R W) {id : VarId} (hr : R id) : id.index < t.arena.size := by
  obtain ⟨v, hv, -⟩ := h.declared id hr
  exact Arena.lt_of_get? hv

/-- Only the declarations, the variables and the globals count. -/
theorem congr (h : Exact t R W) (hregistry : t'.registry = t.registry)
    (harena : t'.arena = t.arena) (hglobals : t'.interface.globals = t.interface.globals) :
    Exact t' R W := by
  obtain ⟨h₁, h₂, h₃, h₄, h₅, h₆⟩ := h
  constructor <;> (try rw [hregistry]) <;> (try rw [harena]) <;> (try rw [hglobals]) <;> assumption

/-- A variable that is read again. -/
theorem insert_read (h : Exact t R W) {id : VarId} (hr : R id) :
    Exact t (fun x => R x ∨ x = id) W := by
  have : (fun x => R x ∨ x = id) = R := by
    funext x
    exact propext ⟨fun hx => hx.elim (fun hx => hx) fun hx => hx ▸ hr, Or.inl⟩
  rw [this]
  exact h

/-- A variable that is read and does not have to be declared. -/
theorem insert_undeclared (h : Exact t R W) {id : VarId} {v : Variable}
    (hv : t.arena.get? id = some v) (hd : ¬ v.IsDeclared) (hw : ¬ W id) :
    Exact t (fun x => R x ∨ x = id) W := by
  refine ⟨h.sound, h.names, fun d hd => Or.inl (h.read d hd), ?_, ?_, h.globals⟩
  · rintro x (hx | rfl)
    · exact h.declared x hx
    · exact ⟨v, hv, fun hv => absurd hv hd⟩
  · intro x hx
    obtain ⟨hlt, hr, hg⟩ := h.written x hx
    refine ⟨hlt, ?_, hg⟩
    rintro (hx' | rfl)
    · exact hr hx'
    · exact hw hx

theorem addVariable (h : Exact t R W) (v : Variable) : Exact (t.addVariable v) R W := by
  refine ⟨h.sound.mono (by simp [Technique.addVariable]), ?_, h.read, ?_, ?_, ?_⟩
  · intro d hd
    obtain ⟨w, hw, hn⟩ := h.names d hd
    exact ⟨w, Arena.get?_add_of_get? hw v, hn⟩
  · intro id hid
    obtain ⟨w, hw, hd⟩ := h.declared id hid
    exact ⟨w, Arena.get?_add_of_get? hw v, hd⟩
  · intro id hid
    obtain ⟨hlt, hr, hg⟩ := h.written id hid
    exact ⟨by simpa [Technique.addVariable] using Nat.lt_succ_of_lt hlt, hr, hg⟩
  · intro id hid
    obtain ⟨w, hw, ho⟩ := h.globals id hid
    exact ⟨w, Arena.get?_add_of_get? hw v, ho⟩

/-- The handle of the next variable is not used so far. -/
theorem not_read_nextId (h : Exact t R W) : ¬ R t.arena.nextId :=
  fun hr => Nat.lt_irrefl _ (h.stored hr)

theorem not_written_nextId (h : Exact t R W) : ¬ W t.arena.nextId :=
  fun hw => Nat.lt_irrefl _ (h.written _ hw).1

theorem nextId_notMem_globals (h : Exact t R W) : t.arena.nextId ∉ t.interface.globals := by
  intro hg
  obtain ⟨v, hv, -⟩ := h.globals _ hg
  exact Nat.lt_irrefl _ (Arena.lt_of_get? hv)

/-- A new variable that is read in its own stage. -/
theorem addRead (h : Exact t R W) {v : Variable} (hv : ¬ v.IsDeclared) :
    Exact (t.addVariable v) (fun x => R x ∨ x = t.arena.nextId) W :=
  (h.addVariable v).insert_undeclared (Arena.get?_add_nextId _ _) hv h.not_written_nextId

/-- A new variable that is written. -/
theorem addWritten (h : Exact t R W) (v : Variable) :
    Exact (t.addVariable v) R (fun x => W x ∨ x = t.arena.nextId) := by
  obtain ⟨h₁, h₂, h₃, h₄, h₅, h₆⟩ := h.addVariable v
  refine ⟨h₁, h₂, h₃, h₄, ?_, h₆⟩
  rintro x (hx | rfl)
  · exact h₅ x hx
  · exact ⟨by simp [Technique.addVariable, Arena.nextId], h.not_read_nextId,
      h.nextId_notMem_globals⟩

/-- A new global. -/
theorem addGlobal (h : Exact t R W) {v : Variable} (hv : v.origin = some .global)
    {interface : Interface}
    (hi : ∀ id ∈ interface.globals, id ∈ t.interface.globals ∨ id = t.arena.nextId) :
    Exact ((t.addVariable v).withInterface interface) R W := by
  obtain ⟨h₁, h₂, h₃, h₄, h₅, h₆⟩ := h.addVariable v
  refine ⟨h₁, h₂, h₃, h₄, ?_, ?_⟩
  · intro id hid
    obtain ⟨hlt, hr, hg⟩ := h₅ id hid
    refine ⟨hlt, hr, fun hg' => ?_⟩
    rcases hi id hg' with hg' | rfl
    · exact hg hg'
    · exact h.not_written_nextId hid
  · intro id hid
    rcases hi id hid with hid | rfl
    · exact h₆ id hid
    · exact ⟨v, Arena.get?_add_nextId _ _, hv⟩

/-- What is read is not written. -/
theorem not_written (h : Exact t R W) {id : VarId} (hr : R id) : ¬ W id :=
  fun hw => (h.written id hw).2.1 hr

/-- A declaration that is found. -/
theorem addConsumer (h : Exact t R W) {d : Declaration} (hd : d ∈ t.registry.entries)
    (key : DeclKey) (consumer : String)
    (hs : (t.registry.addConsumer key consumer).Sound t.arena) :
    Exact { t with registry := t.registry.addConsumer key consumer } (fun x => R x ∨ x = d.id)
      W := by
  have hexact : Exact { t with registry := t.registry.addConsumer key consumer } R W := by
    refine ⟨hs, ?_, ?_, ?_, h.written, h.globals⟩
    · intro e he
      obtain ⟨d', hd', hkey, hid⟩ := Registry.mem_addConsumer he
      rw [← hkey, ← hid]
      exact h.names d' hd'
    · intro e he
      obtain ⟨d', hd', -, hid⟩ := Registry.mem_addConsumer he
      rw [← hid]
      exact h.read d' hd'
    · intro id hid
      obtain ⟨v, hv, hdeclared⟩ := h.declared id hid
      refine ⟨v, hv, fun hvd => ?_⟩
      rw [Registry.map_id_addConsumer]
      exact hdeclared hvd
  exact hexact.insert_read (h.read d hd)

/-- A declaration that is made. -/
theorem addDeclaration (h : Exact t R W) {key : DeclKey} {v : Variable} (hv : key.Names v)
    (consumer : String)
    (hs : (t.registry.addDeclaration key t.arena.nextId consumer).Sound (t.arena.add v)) :
    Exact { t with
      registry := t.registry.addDeclaration key t.arena.nextId consumer
      arena := t.arena.add v } (fun x => R x ∨ x = t.arena.nextId) W := by
  obtain ⟨-, hnames, -, hdeclared, hwritten, hglobals⟩ := h.addVariable v
  refine ⟨hs, ?_, ?_, ?_, ?_, hglobals⟩
  · intro e he
    rcases Registry.mem_addDeclaration.mp he with he | rfl
    · exact hnames e he
    · exact ⟨v, Arena.get?_add_nextId _ _, hv⟩
  · intro e he
    rcases Registry.mem_addDeclaration.mp he with he | rfl
    · exact Or.inl (h.read e he)
    · exact Or.inr rfl
  · intro id hid
    rw [Registry.map_id_addDeclaration]
    rcases hid with hr | rfl
    · obtain ⟨w, hw, hwd⟩ := hdeclared id hr
      exact ⟨w, hw, fun hd => List.mem_append_left _ (hwd hd)⟩
    · exact ⟨v, Arena.get?_add_nextId _ _,
        fun _ => List.mem_append_right _ (List.mem_singleton_self _)⟩
  · intro id hid
    obtain ⟨hlt, hr, hg⟩ := hwritten id hid
    refine ⟨hlt, ?_, hg⟩
    rintro (hx | rfl)
    · exact hr hx
    · exact h.not_written_nextId hid

theorem offer (h : Exact t R W) {key : DeclKey} {v : Variable} (hv : key.Names v)
    {consumer : Consumer} {o : Offered} (ho : o = t.offer key v consumer) {interface : Interface}
    (hi : interface.globals = t.interface.globals) :
    Exact ((t.afterOffer o).withInterface interface) (fun x => R x ∨ x = o.id) W := by
  have hs := h.sound.offer key v consumer.name
  unfold Technique.offer at ho
  rcases Registry.offer_cases t.registry t.arena key v consumer.name with
    ⟨d, hd, -, hcase⟩ | ⟨-, hcase⟩
  · rw [hcase] at hs ho
    subst ho
    exact (h.addConsumer hd key consumer.name hs).congr rfl rfl hi
  · rw [hcase] at hs ho
    subst ho
    exact (h.addDeclaration hv consumer.name hs).congr rfl rfl hi

/-- Raising written variables reaches nothing that is read, and no global. -/
theorem raise (h : Exact t R W) {node : Node} (hw : ∀ m ∈ node.inputs, W m.left)
    (name : String) : Exact { t with arena := raiseInputs node name t.arena } R W := by
  have keep : ∀ id, ¬ W id → (raiseInputs node name t.arena).get? id = t.arena.get? id := by
    intro id hid
    refine Resolution.get?_raiseInputs_of_ne (fun m hm he => hid ?_) name t.arena
    rw [← he]
    exact hw m hm
  have hsize := Resolution.size_raiseInputs node name t.arena
  refine ⟨h.sound.mono (Nat.le_of_eq hsize.symm), ?_, h.read, ?_, ?_, ?_⟩
  · intro d hd
    show ∃ v, (raiseInputs node name t.arena).get? d.id = some v ∧ _
    rw [keep d.id (h.not_written (h.read d hd))]
    exact h.names d hd
  · intro id hid
    show ∃ v, (raiseInputs node name t.arena).get? id = some v ∧ _
    rw [keep id (h.not_written hid)]
    exact h.declared id hid
  · intro id hid
    obtain ⟨hlt, hrest⟩ := h.written id hid
    exact ⟨hsize ▸ hlt, hrest⟩
  · intro id hid
    show ∃ v, (raiseInputs node name t.arena).get? id = some v ∧ _
    rw [keep id fun hx => (h.written id hx).2.2 hid]
    exact h.globals id hid

end Exact

/-! ## Resolving keeps it -/

theorem names_attributeVariable (reference : Reference) (left : Variable) :
    (DeclKey.vertexAttribute reference.name).Names (attributeVariable reference left) :=
  ⟨rfl, rfl⟩

theorem names_parameterVariable (param : Parameter) (type : String)
    (length : Option Resolution.ArrayLength) :
    (DeclKey.uniform param.uniformName).Names (parameterVariable param type length) :=
  ⟨Or.inl rfl, rfl⟩

theorem names_worldVariable (binding : WorldBinding) :
    (DeclKey.uniform binding.uniformName).Names (worldVariable binding) := ⟨Or.inr rfl, rfl⟩

theorem names_outputVariable (producer : Node) (output : Variable) :
    (DeclKey.varying producer.name output.name).Names (outputVariable producer output).raised :=
  ⟨rfl, rfl, rfl⟩

theorem not_isDeclared_outputVariable (producer : Node) (output : Variable) :
    ¬ (outputVariable producer output).IsDeclared := by
  rintro (ha | hm | hw | ⟨-, hout⟩)
  · cases ha
  · cases hm
  · cases hw
  · cases hout

theorem not_isDeclared_global {v : Variable} (h : v.origin = some .global) : ¬ v.IsDeclared := by
  rintro (ha | hm | hw | ⟨⟨p, hn⟩, -⟩) <;> simp_all

/-- The global that a reference stands for: its handle may be new, or known already. -/
theorem Exact.storesGlobal {t t' : Technique} {R W : VarId → Prop} (h : Exact t R W)
    {v : Variable} (hv : v.origin = some .global) {stage : Stage} {id : VarId}
    (hs : StoresGlobal v stage t id t') :
    Exact t' R W ∧ ¬ W id ∧ ∃ w, t'.arena.get? id = some w ∧ w.origin = some .global := by
  have found : ∀ id ∈ t.interface.globals,
      Exact t R W ∧ ¬ W id ∧ ∃ w, t.arena.get? id = some w ∧ w.origin = some .global :=
    fun id hid => ⟨h, fun hw => (h.written id hw).2.2 hid, h.globals id hid⟩
  have new : ∀ interface : Interface,
      (∀ id ∈ interface.globals, id ∈ t.interface.globals ∨ id = t.arena.nextId) →
      Exact ((t.addVariable v.raised).withInterface interface) R W ∧ ¬ W t.arena.nextId ∧
        ∃ w, (t.arena.add v.raised).get? t.arena.nextId = some w ∧ w.origin = some .global :=
    fun interface hi => ⟨h.addGlobal (v := v.raised) hv hi, h.not_written_nextId, v.raised,
      Arena.get?_add_nextId _ _, hv⟩
  cases hs with
  | vertexFound hg _ => exact found id (List.mem_append_left _ (by simp [hg]))
  | fragmentFound hg => exact found id (List.mem_append_right _ (List.mem_of_find?_eq_some hg))
  | vertexNew hg =>
    refine new _ fun x hx => ?_
    rcases List.mem_append.mp hx with hx | hx
    · exact Or.inr (List.mem_singleton.mp hx)
    · exact Or.inl (List.mem_append_right _ hx)
  | fragmentNew hg =>
    refine new _ fun x hx => ?_
    rcases List.mem_append.mp hx with hx | hx
    · exact Or.inl (List.mem_append_left _ hx)
    · rcases List.mem_append.mp hx with hx | hx
      · exact Or.inl (List.mem_append_right _ hx)
      · exact Or.inr (List.mem_singleton.mp hx)
  | other _ _ => exact new t.interface fun x hx => Or.inl hx

/-- Whichever way a reference is found: its variable is one more that is read. -/
theorem Exact.resolves {catalog : Catalog} {reference : Reference} {consumer : Consumer}
    {t t' : Technique} {left left' : Variable} {id : VarId} {R W : VarId → Prop}
    (h : Exact t R W) (hw : ∀ n ∈ t.nodes, ∀ m ∈ n.inputs, W m.left)
    (hr : Resolves catalog reference consumer t left id t' left') :
    Exact t' (fun x => R x ∨ x = id) W := by
  cases hr with
  | global _ hs =>
    obtain ⟨h', hid, v, hv, horigin⟩ := h.storesGlobal rfl hs
    exact h'.insert_undeclared hv (not_isDeclared_global horigin) hid
  | vertexAttribute _ _ ho =>
    exact h.offer (names_attributeVariable _ _) ho (Resolution.globals_listAttribute _ _)
  | materialParameter _ _ hs _ ho =>
    obtain ⟨defines, rfl⟩ := hs.frame
    have h' : Exact { t with defines } R W := h.congr rfl rfl rfl
    exact h'.offer (names_parameterVariable _ _ _) ho (Resolution.globals_listUniform _ _ _)
  | worldParameter _ _ ho =>
    exact h.offer (names_worldVariable _) ho (Resolution.globals_listUniform _ _ _)
  | output _ _ _ _ => exact h.addRead (not_isDeclared_outputVariable _ _)
  | varying _ hn _ _ _ ho =>
    -- what is raised are left sides, and no left side is read
    have hnode := List.mem_of_find?_eq_some hn
    exact (h.offer (names_outputVariable _ _) ho (Resolution.globals_listVarying _ _)).raise
      (hw _ hnode) _

/-! ## Every step keeps it -/

/-- An input mapping writes a new variable, and reads what its right side stands for. -/
theorem Exact.readsInput {catalog : Catalog} {node : Node} {t t' : Technique} {m : Mapping}
    {R W : VarId → Prop} (h : Exact t R W) (hw : ∀ n ∈ t.nodes, ∀ m ∈ n.inputs, W m.left)
    (hi : ReadsInput catalog node t m t') :
    Exact t' (fun id => R id ∨ m.source = .var id) (fun id => W id ∨ m.left = id) := by
  cases hi with
  | code _ hc =>
    obtain ⟨defines, rfl⟩ := hc.frame
    have h' : Exact { t with defines } R W := h.congr rfl rfl rfl
    simpa only [reduceCtorEq, or_false, eq_comm] using h'.addWritten _
  | @reference _ _ _ left _ reference _ _ t₂ _ hc _ hr _ =>
    obtain ⟨defines, rfl⟩ := hc.frame
    have h' : Exact { t with defines } R W := h.congr rfl rfl rfl
    obtain ⟨unused, hu⟩ := markProducer_eq t₂ reference
    rw [hu]
    have hmarked : Exact (t₂.withInterface { t₂.interface with unusedNodes := unused }) _ _ :=
      (h'.resolves hw hr).congr rfl rfl rfl
    have hread : Exact _ _ fun x => W x ∨ x = t₂.arena.nextId := hmarked.addWritten left
    simpa only [Source.var.injEq, eq_comm] using hread

/-- An output mapping reads no declared variable and writes a global. -/
theorem Exact.readsOutput {catalog : Catalog} {node : Node} {t t' : Technique} {m : Mapping}
    {R W : VarId → Prop} (h : Exact t R W) (ho : ReadsOutput catalog node t m t') :
    Exact t' R W := by
  cases ho with
  | mk _ _ _ hc hg =>
    obtain ⟨defines, rfl⟩ := hc.frame
    have h' : Exact { t with defines } R W := h.congr rfl rfl rfl
    obtain ⟨h', -, -⟩ := h'.storesGlobal rfl hg
    have hused : Exact (Technique.markUsed _ node.name) R W := h'.congr rfl rfl rfl
    exact hused.addVariable _

theorem Exact.step {context : Context} {p q : Progress}
    (h : Exact p.technique (Reads p.inputs) (Writes p.inputs)) (hs : Step context p q) :
    Exact q.technique (Reads q.inputs) (Writes q.inputs) := by
  cases hs with
  | @opened t library library' name _ definition _ _ =>
    rw [inputs_opened library library']
    obtain ⟨unused, hu⟩ := markOpened_eq t name definition
    rw [hu]
    exact h.congr rfl rfl rfl
  | @condition t t' library node c hc =>
    obtain ⟨defines, rfl⟩ := hc.frame
    have he : Progress.inputs ⟨{ t with defines }, library, some { node with condition := c }⟩ =
        Progress.inputs ⟨t, library, some node⟩ := inputs_of_eq rfl rfl
    rw [he]
    exact h.congr rfl rfl rfl
  | @input t t' library node m hi =>
    rw [inputs_input m hi.nodes, reads_append, writes_append]
    refine h.readsInput ?_ hi
    intro n hn m hm
    exact ⟨m, List.mem_flatMap.mpr ⟨n, List.mem_append_left _ hn, hm⟩, rfl⟩
  | @output t t' library node m ho =>
    have he : Progress.inputs ⟨t', library, some { node with outputs := node.outputs ++ [m] }⟩ =
        Progress.inputs ⟨t, library, some node⟩ := inputs_of_eq ho.nodes rfl
    rw [he]
    exact h.readsOutput ho
  | closed =>
    rw [inputs_closed]
    exact h.congr rfl rfl rfl

theorem exact_blank {t : Technique} (h : t.Blank) : Exact t (Reads []) (Writes []) := by
  have none_read : ∀ id, ¬ Reads [] id := by rintro id ⟨m, hm, -⟩; cases hm
  have none_written : ∀ id, ¬ Writes [] id := by rintro id ⟨m, hm, -⟩; cases hm
  have hentries : t.registry.entries = [] := by rw [h.registry]; rfl
  have hglobals : t.interface.globals = [] := by rw [h.interface]; rfl
  refine ⟨?_, ?_, ?_, ?_, ?_, ?_⟩
  · rw [h.registry]
    exact Registry.sound_empty _
  · simp [hentries]
  · simp [hentries]
  · exact fun id hid => absurd hid (none_read id)
  · exact fun id hid => absurd hid (none_written id)
  · simp [hglobals]

/-- The declarations are exact wherever steps lead from a draft. -/
theorem exact_of_reach {context : Context} {draft : Draft} (hd : draft.technique.Blank)
    {p : Progress} (h : Reach context draft.progress p) :
    Exact p.technique (Reads p.inputs) (Writes p.inputs) := by
  induction h with
  | start =>
    have : draft.progress.inputs = [] := by
      simp [Progress.inputs, Progress.nodes, Draft.progress, hd.nodes]
    rw [this]
    exact exact_blank hd
  | step _ hs ih => exact ih.step hs

/-! ## Finished techniques -/

def Technique.inputs (t : Technique) : List Mapping := t.nodes.flatMap (·.inputs)

/-- What a right side and a declaration have in common. -/
def Variable.identity (v : Variable) : Option Namespace × String := (v.origin, v.name)

/-- What the technique declares is what its mappings read: the declarations have each namespace
and name once that is read and has to be declared, and a right side of that namespace and name
has the variable of the declaration. -/
structure Technique.DeclaresExactly (t : Technique) : Prop where
  nodup : t.registry.entries.Nodup
  bijective : Set.BijOn (fun d => (t.arena.read d.id).identity) {d | d ∈ t.registry.entries}
    {i | ∃ id, Reads t.inputs id ∧ (t.arena.read id).IsDeclared ∧ (t.arena.read id).identity = i}
  shared : ∀ d ∈ t.registry.entries, ∀ id, Reads t.inputs id → (t.arena.read id).IsDeclared →
    (t.arena.read id).identity = (t.arena.read d.id).identity → id = d.id

theorem DeclKey.Names.isDeclared {key : DeclKey} {v : Variable} (h : key.Names v) :
    v.IsDeclared := by
  cases key with
  | vertexAttribute name => exact Or.inl h.1
  | uniform name =>
    rcases h.1 with hm | hw
    · exact Or.inr (Or.inl hm)
    · exact Or.inr (Or.inr (Or.inl hw))
  | varying producer output => exact Or.inr (Or.inr (Or.inr ⟨⟨producer, h.1⟩, h.2.2⟩))

/-- The namespace and the name of a variable say under which key it is declared. -/
theorem DeclKey.Names.eq {key key' : DeclKey} {v w : Variable} (h : key.Names v)
    (h' : key'.Names w) (hi : v.identity = w.identity) : key = key' := by
  obtain ⟨horigin, hname⟩ := Prod.ext_iff.mp hi
  simp only [Variable.identity] at horigin hname
  cases key <;> cases key' <;> simp_all [DeclKey.Names]

/-- An exact technique declares exactly what is read. -/
theorem Exact.declaresExactly {t : Technique} {W : VarId → Prop}
    (h : Exact t (Reads t.inputs) W) : t.DeclaresExactly := by
  have named : ∀ d ∈ t.registry.entries, d.key.Names (t.arena.read d.id) := by
    intro d hd
    obtain ⟨v, hv, hn⟩ := h.names d hd
    rwa [Arena.read_of_get? hv]
  have declaration : ∀ id, Reads t.inputs id → (t.arena.read id).IsDeclared →
      ∃ d ∈ t.registry.entries, d.id = id := by
    intro id hid hdecl
    obtain ⟨v, hv, hmem⟩ := h.declared id hid
    rw [Arena.read_of_get? hv] at hdecl
    exact List.mem_map.mp (hmem hdecl)
  have unique : ∀ d ∈ t.registry.entries, ∀ e ∈ t.registry.entries,
      (t.arena.read d.id).identity = (t.arena.read e.id).identity → d = e :=
    fun d hd e he hi => h.sound.eq_of_key hd he ((named d hd).eq (named e he) hi)
  refine ⟨List.Nodup.of_map _ h.sound.keys, ⟨?_, ?_, ?_⟩, ?_⟩
  · intro d hd
    exact ⟨d.id, h.read d hd, (named d hd).isDeclared, rfl⟩
  · intro d hd e he hi
    exact unique d hd e he hi
  · rintro i ⟨id, hid, hdecl, rfl⟩
    obtain ⟨d, hd, rfl⟩ := declaration id hid hdecl
    exact ⟨d, hd, rfl⟩
  · intro d hd id hid hdecl hi
    obtain ⟨e, he, rfl⟩ := declaration id hid hdecl
    rw [unique e he d hd hi]

/-- Which variables are read does not depend on the conditions of the mappings. -/
theorem reads_finish (t : Technique) : Reads t.finish.inputs = Reads t.inputs := by
  have reads : ∀ ns : List Node, Reads (ns.flatMap (·.inputs)) =
      Reads ((ns.map Node.unconditional).flatMap (·.inputs)) := by
    intro ns
    funext id
    simp only [Reads, List.mem_flatMap, List.mem_map, eq_iff_iff]
    constructor
    · rintro ⟨m, ⟨n, hn, hm⟩, hs⟩
      exact ⟨m.withCondition none, ⟨n.unconditional, ⟨n, hn, rfl⟩, List.mem_map_of_mem hm⟩, hs⟩
    · rintro ⟨m, ⟨_, ⟨n, hn, rfl⟩, hm⟩, hs⟩
      obtain ⟨m', hm', rfl⟩ := List.mem_map.mp hm
      exact ⟨m', ⟨n, hn, hm'⟩, hs⟩
  unfold Technique.inputs
  rw [reads, t.finish_nodes, ← reads]

/-- Settling the conditions leaves the declarations exact. -/
theorem Exact.finish {t : Technique} {R W : VarId → Prop} (h : Exact t R W) :
    Exact t.finish R W := by
  refine ⟨h.sound.mono (Nat.le_of_eq t.finish_size.symm), ?_, h.read, ?_, ?_, ?_⟩
  · intro d hd
    obtain ⟨v, hv, hn⟩ := h.names d hd
    obtain ⟨c, hc⟩ := Technique.finish_get? hv
    refine ⟨_, hc, ?_⟩
    cases hk : d.key <;> rw [hk] at hn <;> exact hn
  · intro id hid
    obtain ⟨v, hv, hdecl⟩ := h.declared id hid
    obtain ⟨c, hc⟩ := Technique.finish_get? hv
    exact ⟨_, hc, hdecl⟩
  · intro id hid
    rw [t.finish_size]
    exact h.written id hid
  · intro id hid
    obtain ⟨v, hv, horigin⟩ := h.globals id hid
    obtain ⟨c, hc⟩ := Technique.finish_get? hv
    exact ⟨_, hc, horigin⟩

/-- Every technique that is read declares exactly what its mappings read. -/
theorem declaresExactly_of_readTechnique {context : Context} {statement : Statement}
    {warnings warnings' : List Warning} {t : Technique}
    (h : readTechnique context statement warnings = (.ok (some t), warnings')) :
    t.DeclaresExactly := by
  obtain ⟨draft, t₀, library, hdraft, hreach, rfl⟩ := built_of_readTechnique h
  have hexact := (exact_of_reach (blank_of_drafts hdraft) hreach).finish
  have hinputs : Progress.inputs ⟨t₀, library, none⟩ = t₀.inputs := by
    simp [Progress.inputs, Progress.nodes, Technique.inputs]
  rw [hinputs, ← reads_finish] at hexact
  exact hexact.declaresExactly

theorem declaresExactly_lit :
    ∃ t warnings, readTechnique Lit.context Lit.technique [] = (.ok (some t), warnings) ∧
      t.registry.entries.map (·.key) = [.vertexAttribute "inPosition",
        .vertexAttribute "inCoordinate", .varying "Placed" "coordinate", .uniform "m_Color"] ∧
      t.DeclaresExactly := by
  obtain ⟨t, warnings, h, hread⟩ := Lit.readTechnique_technique
  exact ⟨t, warnings, h, hread.keys, declaresExactly_of_readTechnique h⟩

end ShaderGraph
