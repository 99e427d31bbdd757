/-
  ShaderGraph.Proofs.StageOutputs — the outputs of a stage.

  The globals of a technique are the outputs of its stages. A global is named on the left side of
  output mappings and on the right side of input mappings, and either way stores it if it is not
  there. No register is kept of globals: the vertex stage has one at most, and the fragment stage
  finds its own by their names.

  - `UsesGlobals`: a technique goes through references to globals and output mappings, also such as
    fail, and through anything else in between, with a list of what was used.
  - `GlobalsKept`: what a technique has of the uses, with one lemma for each way on
    (`GlobalsKept.store`, `GlobalsKept.other`).
  - `stageOutputs_of_usesGlobals`: so the vertex stage has one output of one name, and the fragment
    stage one for each name, in the order of their first uses. A second name in the vertex
    stage is refused.
-/

import ShaderGraph.Proofs.Additions
import ShaderGraph.Proofs.Listing

namespace ShaderGraph

open Block (Statement)
open Resolution (StoresGlobal globalVariable storeGlobal resolve)

/-! ## Conditions that are read -/

namespace Resolution

/-- Whether names are those of parameters does not depend on the technique, and nothing but its
defines changes. -/
theorem bindOwnDefines_uniform (catalog : Catalog) (invalid : Cause) (names : List String) :
    ∃ r, ∀ t, ∃ defines, bindOwnDefines catalog invalid names t = (r, { t with defines }) := by
  induction names with
  | nil => exact ⟨.ok (), fun t => ⟨t.defines, rfl⟩⟩
  | cons name names ih =>
    cases hparam : catalog.param? name with
    | none =>
      refine ⟨.error invalid, fun t => ⟨t.defines, ?_⟩⟩
      simp only [bindOwnDefines, hparam, Attempt.run_throw]
    | some param =>
      obtain ⟨r, hr⟩ := ih
      refine ⟨r, fun t => ?_⟩
      obtain ⟨defines, hdefines⟩ :=
        hr (t.bindDefine param.name (Condition.defineOf param.name) param.type)
      refine ⟨defines, ?_⟩
      simp only [bindOwnDefines, hparam, Attempt.run_bind, bindOwnDefine, Attempt.run_modify,
        hdefines]
      rfl

/-- The vertex stage has no second output. -/
theorem storeGlobal_refused {t : Technique} {id : VarId} {v : Variable}
    (hg : t.interface.vertexGlobal = some id) (hne : (t.arena.read id).name ≠ v.name) :
    storeGlobal v .vertex t = (.error (.vertexGlobal (t.arena.read id).name v.name), t) := by
  simp only [storeGlobal, Attempt.run_bind, Attempt.run_get, hg, hne, if_false, Attempt.run_throw]

theorem resolve_refused {catalog : Catalog} {reference : Reference} {consumer : Consumer}
    {t : Technique} {left : Variable} {id : VarId} (horigin : reference.origin = some .global)
    (hstage : consumer.stage = .vertex) (hg : t.interface.vertexGlobal = some id)
    (hne : (t.arena.read id).name ≠ reference.name) :
    resolve catalog reference consumer ⟨t, left⟩ =
      (.error (.vertexGlobal (t.arena.read id).name reference.name), ⟨t, left⟩) := by
  have hrefused : storeGlobal (globalVariable reference.name) .vertex t =
      (.error (.vertexGlobal (t.arena.read id).name reference.name), t) :=
    storeGlobal_refused hg hne
  simp only [resolve, horigin, hstage, Declaring.resolving, Attempt.onPart, hrefused]
  rfl

end Resolution

namespace Graph

/-- Reading a condition changes defines at most, and whether it can be read does not depend on the
technique. -/
theorem readCondition_uniform (context : Context) (statement : Statement)
    (condition : Option String) :
    ∃ r, ∀ g, ∃ defines, readCondition context statement condition g =
      (r, g.setTechnique { g.technique with defines }) := by
  cases condition with
  | none => exact ⟨.ok none, fun g => ⟨g.technique.defines, rfl⟩⟩
  | some text =>
    obtain ⟨r, hr⟩ := Resolution.bindOwnDefines_uniform context.catalog
      (.invalidCondition (.ofList (Text.trim text.toList))) (Condition.normalize text).names
    refine ⟨(r.map fun _ => some (Condition.normalize text).text).mapError (·.located statement),
      fun g => ?_⟩
    obtain ⟨defines, hdefines⟩ := hr g.technique
    refine ⟨defines, ?_⟩
    simp only [readCondition, Resolution.guardCondition, Attempt.run_bind, Declaring.building,
      Attempt.onPart, Attempt.mapError, hdefines]
    cases r <;> rfl

def outputTarget? (statement : Statement) : Option Reference :=
  (MappingLine.split? statement.line).bind fun line => Reference.parse? line.left true

section

variable {context : Context} {node : Node} {statement : Statement} {target reference : Reference}
  {output : Variable} {condition : Option String} {g g' : Graph} {fault : Fault}

theorem outputTarget?_of_written
    (h : OutputWritten node statement target reference output condition) :
    outputTarget? statement = some target := by
  obtain ⟨left, text, hsplit, htarget, -⟩ := h.line
  rw [outputTarget?, hsplit]
  exact htarget

/-- A line that is refused has bound defines at most. -/
theorem defines_of_refused
    (h : readOutputMapping context node statement g = (.error fault, g')) :
    ∃ defines, g'.technique = { g.technique with defines } := by
  rcases written_or_throws context node statement with
    ⟨target, reference, output, condition, hw⟩ | ⟨fault, hthrow⟩
  · rw [readOutputMapping_of_written hw] at h
    obtain ⟨r, hr⟩ := readCondition_uniform context statement condition
    obtain ⟨defines, hcondition⟩ := hr g
    rcases Attempt.bind_eq_error.mp h with h | ⟨guarded, g₁, hok, h⟩
    · rw [hcondition] at h
      cases h
      exact ⟨defines, rfl⟩
    · rw [hcondition] at hok
      cases hok
      rcases Attempt.bind_eq_error.mp h with h | ⟨global, g₂, -, h⟩
      · rw [(Resolution.atomic_storeGlobal _ _).building statement _ _ _ h]
        exact ⟨defines, rfl⟩
      · -- nothing fails behind the global
        cases h
  · rw [hthrow] at h
    cases h
    exact ⟨g.technique.defines, rfl⟩

/-- A line for another output of the vertex stage is refused where it would be read otherwise. -/
theorem readOutputMapping_refused {g₀ g₀' : Graph} {m : Mapping} {id : VarId}
    (hstage : node.stage = .vertex) (hg : g.technique.interface.vertexGlobal = some id)
    (htarget : outputTarget? statement = some target)
    (hne : (g.technique.arena.read id).name ≠ target.name)
    (hread : readOutputMapping context node statement g₀ = (.ok m, g₀')) :
    (readOutputMapping context node statement g).1 = .error
      ((Cause.vertexGlobal (g.technique.arena.read id).name target.name).located statement) := by
  rcases written_or_throws context node statement with
    ⟨target', reference, output, condition, hw⟩ | ⟨fault, hthrow⟩
  · obtain rfl : target' = target :=
      Option.some.inj ((outputTarget?_of_written hw).symm.trans htarget)
    rw [readOutputMapping_of_written hw] at hread ⊢
    obtain ⟨guarded, g₁, hcondition, -⟩ := Attempt.bind_eq_ok.mp hread
    obtain ⟨r, hr⟩ := readCondition_uniform context statement condition
    obtain ⟨_, h₀⟩ := hr g₀
    obtain ⟨defines, h⟩ := hr g
    rw [h₀] at hcondition
    cases hcondition
    have hrefused : storeGlobal (globalVariable target'.name) node.stage
        { g.technique with defines } =
          (.error (.vertexGlobal (g.technique.arena.read id).name target'.name),
            { g.technique with defines }) := by
      rw [hstage]
      exact Resolution.storeGlobal_refused hg hne
    simp only [Attempt.run_bind, h, Declaring.building, Attempt.onPart, Attempt.mapError,
      Graph.setTechnique, hrefused]
    rfl
  · rw [hthrow] at hread
    exact absurd hread Attempt.throw_ne_ok

end

end Graph

/-! ## Uses of globals -/

/-- A reference to a global that was resolved: the name, the stage of the node that names it, and
the variable that it stands for. -/
structure GlobalUse where
  name : String
  stage : Stage
  id : VarId

def idsIn (stage : Stage) (uses : List GlobalUse) : List VarId :=
  (uses.filter (·.stage = stage)).map (·.id)

/-- A technique without globals goes through references to globals and output mappings, whether they
succeed or not, and in between through whatever else leaves the globals alone. The list is what
was used of the globals so far. -/
inductive UsesGlobals (context : Context) : Technique → List GlobalUse → Prop
  | start {t : Technique} : t.interface.globals = [] → UsesGlobals context t []
  | reference {t : Technique} {uses : List GlobalUse} {reference : Reference} {consumer : Consumer}
      {left : Variable} {id : VarId} {w : Wiring} :
      UsesGlobals context t uses → reference.origin = some .global →
      resolve context.catalog reference consumer ⟨t, left⟩ = (.ok id, w) →
      UsesGlobals context w.technique (uses ++ [⟨reference.name, consumer.stage, id⟩])
  | referenceRefused {t : Technique} {uses : List GlobalUse} {reference : Reference}
      {consumer : Consumer} {left : Variable} {cause : Cause} {w : Wiring} :
      UsesGlobals context t uses → reference.origin = some .global →
      resolve context.catalog reference consumer ⟨t, left⟩ = (.error cause, w) →
      UsesGlobals context w.technique uses
  | output {g g' : Graph} {uses : List GlobalUse} {node : Node} {statement : Statement}
      {target : Reference} {m : Mapping} :
      UsesGlobals context g.technique uses → Graph.outputTarget? statement = some target →
      Graph.readOutputMapping context node statement g = (.ok m, g') →
      UsesGlobals context g'.technique (uses ++ [⟨target.name, node.stage, m.left⟩])
  | outputRefused {g g' : Graph} {uses : List GlobalUse} {node : Node} {statement : Statement}
      {fault : Fault} :
      UsesGlobals context g.technique uses →
      Graph.readOutputMapping context node statement g = (.error fault, g') →
      UsesGlobals context g'.technique uses
  /-- Conditions, other references, variables of mappings and whole nodes. -/
  | other {t t' : Technique} {uses : List GlobalUse} :
      UsesGlobals context t uses → t'.interface.vertexGlobal = t.interface.vertexGlobal →
      t'.interface.fragmentGlobals = t.interface.fragmentGlobals → t.arena.Grows t'.arena →
      UsesGlobals context t' uses

/-! ## What is kept of the uses -/

section

variable {t t' : Technique} {uses : List GlobalUse} {u w : GlobalUse} {name : String}
  {stage : Stage} {id : VarId}

theorem mem_idsIn : id ∈ idsIn stage uses ↔ ∃ u ∈ uses, u.stage = stage ∧ u.id = id := by
  simp [idsIn, and_assoc]

theorem idsIn_snoc (stage : Stage) (uses : List GlobalUse) (name : String) (id : VarId) :
    idsIn stage (uses ++ [⟨name, stage, id⟩]) = idsIn stage uses ++ [id] := by
  simp [idsIn]

theorem idsIn_snoc_of_ne {other : Stage} (h : other ≠ stage) (uses : List GlobalUse)
    (name : String) (id : VarId) :
    idsIn stage (uses ++ [⟨name, other, id⟩]) = idsIn stage uses := by
  simp [idsIn, h]

/-- What the technique has of the uses of its globals: every variable as it was stored, the first
one of the vertex stage, which is the only one, and those of the fragment stage in the order of
their first uses, one for a name. -/
structure GlobalsKept (t : Technique) (uses : List GlobalUse) : Prop where
  stored : ∀ u ∈ uses, t.arena.get? u.id = some (globalVariable u.name).raised
  vertex : t.interface.vertexGlobal = (idsIn .vertex uses).head?
  single : ∀ id ∈ idsIn .vertex uses, t.interface.vertexGlobal = some id
  fragment : t.interface.fragmentGlobals = (idsIn .fragment uses).eraseDups
  named : ∀ u ∈ uses, ∀ w ∈ uses, u.stage = .fragment → w.stage = .fragment →
    u.name = w.name → u.id = w.id

theorem globalsKept_nil (h : t.interface.globals = []) : GlobalsKept t [] := by
  obtain ⟨hvertex, hfragment⟩ := List.append_eq_nil_iff.mp h
  rw [Option.toList_eq_nil_iff] at hvertex
  exact ⟨List.forall_mem_nil _, hvertex, List.forall_mem_nil _, hfragment, List.forall_mem_nil _⟩

theorem GlobalsKept.stored_of_grows (h : GlobalsKept t uses) (ha : t.arena.Grows t'.arena) :
    ∀ u ∈ uses, t'.arena.get? u.id = some (globalVariable u.name).raised := fun u hu =>
  (ha u.id _ (h.stored u hu)).elim id id

theorem GlobalsKept.other (h : GlobalsKept t uses)
    (hvertex : t'.interface.vertexGlobal = t.interface.vertexGlobal)
    (hfragment : t'.interface.fragmentGlobals = t.interface.fragmentGlobals)
    (ha : t.arena.Grows t'.arena) : GlobalsKept t' uses := by
  refine ⟨h.stored_of_grows ha, hvertex.trans h.vertex, ?_, hfragment.trans h.fragment, h.named⟩
  rw [hvertex]
  exact h.single

theorem GlobalsKept.name_read (h : GlobalsKept t uses) (hu : u ∈ uses) :
    (t.arena.read u.id).name = u.name := by
  rw [Arena.read_of_get? (h.stored u hu)]
  rfl

theorem GlobalsKept.get?_of_name (h : GlobalsKept t uses) (hu : u ∈ uses)
    (hname : (t.arena.read u.id).name = name) :
    t.arena.get? u.id = some (globalVariable name).raised := by
  rw [h.stored u hu, ← hname, h.name_read hu]

theorem GlobalsKept.named_snoc (h : GlobalsKept t uses)
    (hsame : stage = .fragment → ∀ u ∈ uses, u.stage = .fragment → u.name = name → u.id = id) :
    ∀ u ∈ uses ++ [⟨name, stage, id⟩], ∀ w ∈ uses ++ [⟨name, stage, id⟩], u.stage = .fragment →
      w.stage = .fragment → u.name = w.name → u.id = w.id := by
  intro u hu w hw hus hws hname
  rw [List.mem_append, List.mem_singleton] at hu hw
  rcases hu with hu | rfl <;> rcases hw with hw | rfl
  · exact h.named u hu w hw hus hws hname
  · exact hsame hws u hu hus hname
  · exact (hsame hus w hw hws hname.symm).symm
  · rfl

/-! A use in one stage is none in another. -/

theorem GlobalsKept.vertex_snoc_of_ne (h : GlobalsKept t uses) (hstage : stage ≠ .vertex) :
    t.interface.vertexGlobal = (idsIn .vertex (uses ++ [⟨name, stage, id⟩])).head? := by
  rw [idsIn_snoc_of_ne hstage, h.vertex]

theorem GlobalsKept.single_snoc_of_ne (h : GlobalsKept t uses) (hstage : stage ≠ .vertex) :
    ∀ x ∈ idsIn .vertex (uses ++ [⟨name, stage, id⟩]), t.interface.vertexGlobal = some x := by
  rw [idsIn_snoc_of_ne hstage]
  exact h.single

theorem GlobalsKept.fragment_snoc_of_ne (h : GlobalsKept t uses) (hstage : stage ≠ .fragment) :
    t.interface.fragmentGlobals = (idsIn .fragment (uses ++ [⟨name, stage, id⟩])).eraseDups := by
  rw [idsIn_snoc_of_ne hstage, h.fragment]

theorem GlobalsKept.store (h : GlobalsKept t uses)
    (hs : StoresGlobal (globalVariable name) stage t id t') :
    GlobalsKept t' (uses ++ [⟨name, stage, id⟩]) := by
  have hgrows : t.Grows t' := hs.along
  have stored : t'.arena.get? id = some (globalVariable name).raised →
      ∀ u ∈ uses ++ [⟨name, stage, id⟩],
        t'.arena.get? u.id = some (globalVariable u.name).raised := fun hnew =>
    List.forall_mem_append.mpr
      ⟨h.stored_of_grows hgrows.arena, List.forall_mem_singleton.mpr hnew⟩
  have hadded : ∀ v : Variable, (t.addVariable v).arena.get? t.arena.nextId = some v :=
    fun v => Arena.get?_add_nextId t.arena v
  have hvertex : Stage.vertex ≠ .fragment := by decide
  have hfragment : Stage.fragment ≠ .vertex := by decide
  cases hs with
  | vertexFound hg hname =>
    have hhead := h.vertex
    rw [hg] at hhead
    obtain ⟨u, hu, -, rfl⟩ := mem_idsIn.mp (List.mem_of_mem_head? hhead.symm)
    refine ⟨stored (h.get?_of_name hu hname), ?_, ?_, h.fragment_snoc_of_ne hvertex,
      h.named_snoc fun hs => absurd hs hvertex⟩
    · rw [idsIn_snoc, List.head?_append, ← hhead]
      exact hg
    · rw [idsIn_snoc]
      exact List.forall_mem_append.mpr ⟨h.single, List.forall_mem_singleton.mpr hg⟩
  | vertexNew hg =>
    have hnone : idsIn .vertex uses = [] := by
      have hhead := h.vertex
      rw [hg] at hhead
      exact List.head?_eq_none_iff.mp hhead.symm
    refine ⟨stored (hadded _), ?_, ?_, h.fragment_snoc_of_ne hvertex,
      h.named_snoc fun hs => absurd hs hvertex⟩
    · rw [idsIn_snoc, hnone]
      rfl
    · rw [idsIn_snoc, hnone]
      exact List.forall_mem_singleton.mpr rfl
  | fragmentFound hf =>
    have hid := List.mem_of_find?_eq_some hf
    have hname := List.find?_some hf
    rw [beq_iff_eq] at hname
    have hlisted := h.fragment
    rw [hlisted, List.mem_eraseDups] at hid
    obtain ⟨u, hu, hstage, rfl⟩ := mem_idsIn.mp hid
    refine ⟨stored (h.get?_of_name hu hname), h.vertex_snoc_of_ne hfragment,
      h.single_snoc_of_ne hfragment, ?_, h.named_snoc fun _ w hw hws hwname => ?_⟩
    · rw [idsIn_snoc, eraseDups_snoc, addOnce, if_pos (by simpa using hid)]
      exact hlisted
    · rw [h.name_read hu] at hname
      exact h.named w hw u hu hws hstage (hwname.trans hname.symm)
  | fragmentNew hf =>
    have hfresh : ∀ u ∈ uses, u.stage = .fragment → u.name ≠ name := by
      intro u hu hstage hname
      have hid : u.id ∈ t.interface.fragmentGlobals := by
        rw [h.fragment, List.mem_eraseDups]
        exact mem_idsIn.mpr ⟨u, hu, hstage, rfl⟩
      have hread := List.find?_eq_none.mp hf u.id hid
      rw [h.name_read hu, hname] at hread
      exact hread (beq_self_eq_true _)
    have hnew : t.arena.nextId ∉ idsIn .fragment uses := by
      intro hid
      obtain ⟨u, hu, -, he⟩ := mem_idsIn.mp hid
      have hlt := Arena.lt_of_get? (h.stored u hu)
      rw [he] at hlt
      exact Nat.lt_irrefl _ hlt
    refine ⟨stored (hadded _), h.vertex_snoc_of_ne hfragment, h.single_snoc_of_ne hfragment, ?_,
      h.named_snoc fun _ u hu hus huname => absurd huname (hfresh u hu hus)⟩
    rw [idsIn_snoc, eraseDups_snoc, addOnce, if_neg (by simpa using hnew)]
    exact congrArg (· ++ [t.arena.nextId]) h.fragment
  | other hv hf =>
    exact ⟨stored (hadded _), h.vertex_snoc_of_ne hv, h.single_snoc_of_ne hv,
      h.fragment_snoc_of_ne hf, h.named_snoc fun hs => absurd hs hf⟩

/-! ## Every way on keeps it -/

theorem GlobalsKept.resolve {catalog : Catalog} {reference : Reference} {consumer : Consumer}
    {left : Variable} {w : Wiring} (h : GlobalsKept t uses)
    (horigin : reference.origin = some .global)
    (hok : resolve catalog reference consumer ⟨t, left⟩ = (.ok id, w)) :
    GlobalsKept w.technique (uses ++ [⟨reference.name, consumer.stage, id⟩]) := by
  simp only [Resolution.resolve, horigin, Resolution.resolving_eq_ok] at hok
  obtain ⟨t', hstore, rfl⟩ := hok
  exact h.store (Resolution.storesGlobal_of_ok hstore)

theorem GlobalsKept.readOutput {context : Context} {node : Node} {statement : Statement}
    {target : Reference} {m : Mapping} {g g' : Graph} (h : GlobalsKept g.technique uses)
    (htarget : Graph.outputTarget? statement = some target)
    (hok : Graph.readOutputMapping context node statement g = (.ok m, g')) :
    GlobalsKept g'.technique (uses ++ [⟨target.name, node.stage, m.left⟩]) := by
  obtain ⟨target', _, output, _, _, t₁, t₂, hw, hcondition, hglobal, -, rfl⟩ :=
    readOutputMapping_ok hok
  obtain rfl : target' = target :=
    Option.some.inj ((Graph.outputTarget?_of_written hw).symm.trans htarget)
  obtain ⟨defines, rfl⟩ := hcondition.frame
  have hread : GlobalsKept { g.technique with defines } uses := h.other rfl rfl (.refl _)
  exact (hread.store hglobal).other rfl rfl (t₂.arena.grows_add _)

theorem globalsKept_of_uses {context : Context} (h : UsesGlobals context t uses) :
    GlobalsKept t uses := by
  induction h with
  | start h => exact globalsKept_nil h
  | reference _ horigin hok ih => exact ih.resolve horigin hok
  | referenceRefused _ _ herror ih =>
    rw [Resolution.atomic_resolve _ _ _ _ _ _ herror]
    exact ih
  | output _ htarget hok ih => exact ih.readOutput htarget hok
  | outputRefused _ herror ih =>
    obtain ⟨defines, hdefines⟩ := Graph.defines_of_refused herror
    rw [hdefines]
    exact ih.other rfl rfl (.refl _)
  | other _ hvertex hfragment ha ih => exact ih.other hvertex hfragment ha

end

/-! ## Outputs of stages -/

structure StageOutputs (context : Context) (t : Technique) (uses : List GlobalUse) : Prop where
  first : t.interface.vertexGlobal = (idsIn .vertex uses).head?
  vertex : ∀ u ∈ uses, u.stage = .vertex → t.interface.vertexGlobal = some u.id
  vertexName : ∀ u ∈ uses, ∀ w ∈ uses, u.stage = .vertex → w.stage = .vertex → u.name = w.name
  fragment : ∀ u ∈ uses, ∀ w ∈ uses, u.stage = .fragment → w.stage = .fragment →
    (u.id = w.id ↔ u.name = w.name)
  /-- Each is listed once, at the place of its first use. -/
  listed : t.interface.fragmentGlobals = (idsIn .fragment uses).eraseDups
  distinct : (t.interface.fragmentGlobals.map fun id => (t.arena.read id).name).Nodup
  stored : ∀ u ∈ uses, t.arena.get? u.id =
    some { Variable.plain "vec4" u.name with origin := some .global, isOutput := true }
  refused : ∀ u ∈ uses, u.stage = .vertex → ∀ (reference : Reference) (consumer : Consumer)
    (left : Variable), reference.origin = some .global → consumer.stage = .vertex →
      reference.name ≠ u.name → resolve context.catalog reference consumer ⟨t, left⟩ =
        (.error (.vertexGlobal u.name reference.name), ⟨t, left⟩)
  /-- A line that would be read elsewhere, in some graph. -/
  refusedOutput : ∀ u ∈ uses, u.stage = .vertex → ∀ (node : Node) (statement : Statement)
    (target : Reference) (g : Graph), node.stage = .vertex →
      Graph.outputTarget? statement = some target → target.name ≠ u.name → g.technique = t →
      (∃ g₀ m g₁, Graph.readOutputMapping context node statement g₀ = (.ok m, g₁)) →
      (Graph.readOutputMapping context node statement g).1 =
        .error ((Cause.vertexGlobal u.name target.name).located statement)

section

variable {t : Technique} {uses : List GlobalUse}

theorem GlobalsKept.vertex_eq (h : GlobalsKept t uses) :
    ∀ u ∈ uses, u.stage = .vertex → t.interface.vertexGlobal = some u.id :=
  fun u hu hstage => h.single u.id (mem_idsIn.mpr ⟨u, hu, hstage, rfl⟩)

/-- One variable has one name. -/
theorem GlobalsKept.name_eq (h : GlobalsKept t uses) : ∀ u ∈ uses, ∀ w ∈ uses,
    u.id = w.id → u.name = w.name := by
  intro u hu w hw hid
  rw [← h.name_read hu, ← h.name_read hw, hid]

theorem GlobalsKept.nodup_names (h : GlobalsKept t uses) :
    (t.interface.fragmentGlobals.map fun id => (t.arena.read id).name).Nodup := by
  have hlisted : t.interface.fragmentGlobals.Nodup := h.fragment ▸ nodup_eraseDups _
  have used : ∀ id ∈ t.interface.fragmentGlobals, ∃ u ∈ uses, u.stage = .fragment ∧ u.id = id := by
    intro id hid
    rw [h.fragment, List.mem_eraseDups] at hid
    exact mem_idsIn.mp hid
  refine List.Nodup.map_on (fun x hx y hy hname => ?_) hlisted
  obtain ⟨u, hu, hustage, rfl⟩ := used x hx
  obtain ⟨w, hw, hwstage, rfl⟩ := used y hy
  rw [h.name_read hu, h.name_read hw] at hname
  exact h.named u hu w hw hustage hwstage hname

end

/-- However a technique uses its globals, they are the outputs of its stages. -/
theorem stageOutputs_of_usesGlobals {context : Context} {t : Technique} {uses : List GlobalUse}
    (h : UsesGlobals context t uses) : StageOutputs context t uses := by
  have hk := globalsKept_of_uses h
  refine ⟨hk.vertex, hk.vertex_eq, ?_, ?_, hk.fragment, hk.nodup_names, hk.stored, ?_, ?_⟩
  · intro u hu w hw hustage hwstage
    have hid := (hk.vertex_eq u hu hustage).symm.trans (hk.vertex_eq w hw hwstage)
    exact hk.name_eq u hu w hw (Option.some.inj hid)
  · exact fun u hu w hw hustage hwstage =>
      ⟨hk.name_eq u hu w hw, hk.named u hu w hw hustage hwstage⟩
  · intro u hu hstage reference consumer left horigin hconsumer hne
    rw [← hk.name_read hu] at hne ⊢
    exact Resolution.resolve_refused horigin hconsumer (hk.vertex_eq u hu hstage) hne.symm
  · rintro u hu hustage node statement target g hstage htarget hne rfl ⟨g₀, m, g₁, hread⟩
    rw [← hk.name_read hu] at hne ⊢
    exact Graph.readOutputMapping_refused hstage (hk.vertex_eq u hu hustage) htarget hne.symm hread

namespace Lit

def drawing (name : String) (stage : Stage) : Node :=
  ⟨name, ⟨name, none, stage, [], none, [], [.plain "vec4" "drawn"], false⟩, none, [], []⟩

def drawnOn (g : Graph) (name : String) (stage : Stage) (text : String) : Graph :=
  (Graph.readOutputMapping context (drawing name stage) (line text) g).2

theorem uses_drawnOn {g : Graph} {name text global : String} {stage : Stage} {id : VarId}
    {uses : List GlobalUse} (h : UsesGlobals context g.technique uses)
    (htarget : Graph.outputTarget? (line text) = some ⟨some .global, global, ""⟩)
    (hid : (Graph.readOutputMapping context (drawing name stage) (line text) g).1.map (·.left) =
      .ok id) :
    UsesGlobals context (drawnOn g name stage text).technique (uses ++ [⟨global, stage, id⟩]) := by
  cases hread : (Graph.readOutputMapping context (drawing name stage) (line text) g).1 with
  | error fault =>
    rw [hread] at hid
    cases hid
  | ok m =>
    rw [hread] at hid
    cases hid
    have hok : Graph.readOutputMapping context (drawing name stage) (line text) g =
        (.ok m, drawnOn g name stage text) := Prod.ext hread rfl
    exact .output h htarget hok

def placedGraph : Graph := drawnOn ⟨.empty none, [], []⟩ "Placed" .vertex "Global.position = drawn"

/-- A second output of the vertex stage is refused. -/
def glowingGraph : Graph := drawnOn placedGraph "Glowing" .vertex "Global.glow = drawn"

def coloredGraph : Graph := drawnOn glowingGraph "Colored" .fragment "Global.color = drawn"

def mixedColor : Wiring :=
  (resolve context.catalog ⟨some .global, "color", ""⟩ ⟨"Mixed", .fragment⟩
    ⟨coloredGraph.technique, .plain "vec4" "base"⟩).2

end Lit

open Lit in
/-- A line that is refused in between, and two uses of one output. -/
theorem stageOutputs_mixedColor :
    UsesGlobals context mixedColor.technique
        [⟨"position", .vertex, ⟨0⟩⟩, ⟨"color", .fragment, ⟨2⟩⟩, ⟨"color", .fragment, ⟨2⟩⟩] ∧
      StageOutputs context mixedColor.technique
        [⟨"position", .vertex, ⟨0⟩⟩, ⟨"color", .fragment, ⟨2⟩⟩, ⟨"color", .fragment, ⟨2⟩⟩] := by
  have hplaced : UsesGlobals context placedGraph.technique [⟨"position", .vertex, ⟨0⟩⟩] :=
    uses_drawnOn (.start rfl) (by decide +kernel) (by decide +kernel)
  have hrefused : (Graph.readOutputMapping context (drawing "Glowing" .vertex)
      (line "Global.glow = drawn") placedGraph).1 = .error
        ((Cause.vertexGlobal "position" "glow").located (line "Global.glow = drawn")) := by
    decide +kernel
  have hglowing : UsesGlobals context glowingGraph.technique [⟨"position", .vertex, ⟨0⟩⟩] :=
    .outputRefused hplaced (Prod.ext hrefused rfl)
  have hcolored : UsesGlobals context coloredGraph.technique
      [⟨"position", .vertex, ⟨0⟩⟩, ⟨"color", .fragment, ⟨2⟩⟩] :=
    uses_drawnOn hglowing (by decide +kernel) (by decide +kernel)
  have hmixed : (resolve context.catalog ⟨some .global, "color", ""⟩ ⟨"Mixed", .fragment⟩
      ⟨coloredGraph.technique, .plain "vec4" "base"⟩).1 = .ok ⟨2⟩ := by decide +kernel
  have huses := hcolored.reference rfl (Prod.ext hmixed rfl)
  exact ⟨huses, stageOutputs_of_usesGlobals huses⟩

end ShaderGraph
