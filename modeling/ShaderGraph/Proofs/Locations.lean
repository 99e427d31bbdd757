/-
  ShaderGraph.Proofs.Locations — where the faults of a material are met.

  Reading a material looks at statements of its text and at files of definitions. A fault
  says which of the statements it was met at. What is wrong in a file has no line in the
  text, so it is told of the line that names the file.

  - `MetIn`: a fault is met at one of some statements or within its block, and one of a file
    at a line that names it.
  - `metIn_readDefinitions`, `metIn_readNodes`, `metIn_readTechnique`, ...: each of the readers
    has no other faults than those met in what it reads.
  - `located_of_readMaterial`: so has the reader of a material, but for a text without a
    block structure or with another number of statements than one.
-/

import ShaderGraph.Material
import ShaderGraph.Proofs.Atomicity
import ShaderGraph.Proofs.Drafting

namespace ShaderGraph

open Block (Statement rows)

/-! ## Statements and their blocks -/

inductive Block.Within (s : Statement) : List Statement → Prop
  | here {ss : List Statement} : s ∈ ss → Within s ss
  | inside {ss : List Statement} {t : Statement} : t ∈ ss → Within s t.contents → Within s ss

open Block (Within)

theorem Block.Within.mono {s : Statement} {ss ss' : List Statement} (h : Within s ss)
    (hsub : ∀ t ∈ ss, t ∈ ss') : Within s ss' := by
  cases h with
  | here hs => exact .here (hsub s hs)
  | inside ht hs => exact .inside (hsub _ ht) hs

theorem Block.rows_subset {t : Statement} {ss : List Statement} (ht : t ∈ ss) (depth : Nat) :
    (depth, t) :: rows (depth + 1) t.contents ⊆ rows depth ss := by
  induction ss with
  | nil => cases ht
  | cons s ss ih =>
    obtain ⟨location, contents⟩ := s
    rw [rows]
    rcases List.mem_cons.mp ht with rfl | ht
    · exact List.subset_append_left _ _
    · exact List.Subset.trans (ih ht) (List.subset_append_right _ _)

theorem Block.Within.exists_row {s : Statement} {ss : List Statement} (h : Within s ss)
    (depth : Nat) : ∃ row ∈ rows depth ss, row.2 = s := by
  induction h generalizing depth with
  | here hs => exact ⟨(depth, s), Block.rows_subset hs depth List.mem_cons_self, rfl⟩
  | inside ht _ ih =>
    obtain ⟨row, hrow, rfl⟩ := ih (depth + 1)
    exact ⟨row, Block.rows_subset ht depth (List.mem_cons_of_mem _ hrow), rfl⟩

/-! ## Faults and where they are met -/

/-- What is wrong is in the text itself, and not in a file that it names. -/
def Cause.OfText (cause : Cause) : Prop := (cause.category != .asset) = true

section

variable (assets : AssetStore) (options : ReadOptions)

/-- A line of a node names its definition and the file to find it in, and for this reason the
file gives none. -/
structure NamesUnreadable (s : Statement) (path reason : String) : Prop where
  keyword : s.startsWith "Definition" = true
  names : ∃ name, Graph.DefinitionLine.ofLine? s.line = some ⟨name, some path⟩
  unreadable : assets.definitions options path = .error (Cause.asset path reason).unlocated

/-- The fault was met at one of the statements or within its block; a fault of a file at a line
that names the file. -/
def MetIn (ss : List Statement) (fault : Fault) : Prop :=
  ∃ s, Within s ss ∧ fault.location = some s.location ∧
    ∀ path reason, fault.cause = .asset path reason → NamesUnreadable assets options s path reason

variable {assets options} {s : Statement} {ss ss' : List Statement} {fault : Fault}

theorem metIn_located {cause : Cause} (hs : Within s ss) (h : cause.OfText) :
    MetIn assets options ss (cause.located s) := by
  refine ⟨s, hs, rfl, ?_⟩
  rintro path reason rfl
  exact absurd h Bool.false_ne_true

/-- At the statement that is read. -/
theorem metIn_self {cause : Cause} (h : cause.OfText) :
    MetIn assets options [s] (cause.located s) := metIn_located (.here List.mem_cons_self) h

theorem metIn_unexpected (expected : String) :
    MetIn assets options [s] (s.unexpected expected) := metIn_self rfl

theorem MetIn.mono (h : MetIn assets options ss fault) (hsub : ∀ t ∈ ss, t ∈ ss') :
    MetIn assets options ss' fault := by
  obtain ⟨t, ht, hfault⟩ := h
  exact ⟨t, ht.mono hsub, hfault⟩

theorem MetIn.of_mem (h : MetIn assets options [s] fault) (hs : s ∈ ss) :
    MetIn assets options ss fault := by
  refine h.mono fun t ht => ?_
  rwa [List.mem_singleton.mp ht]

/-- Within the block of the statement that is read. -/
theorem MetIn.block (h : MetIn assets options s.contents fault) :
    MetIn assets options [s] fault := by
  obtain ⟨t, ht, hfault⟩ := h
  exact ⟨t, .inside List.mem_cons_self ht, hfault⟩

theorem MetIn.of_mem_contents {t : Statement} (h : MetIn assets options [t] fault)
    (ht : t ∈ s.contents) : MetIn assets options [s] fault := (h.of_mem ht).block

/-- The lines of a block one after the other. -/
theorem metIn_foldlM {β : Type} {f : β → Statement → Except Fault β}
    (h : ∀ t b, OnlyFaults (MetIn assets options [t]) (f b t)) (b : β) :
    OnlyFaults (MetIn assets options [s]) (s.contents.foldlM f b) :=
  onlyFaults_foldlM (fun t ht b => (h t b).mono fun _ hm => hm.of_mem_contents ht) b

end

/-! ## Definitions -/

section

variable (assets : AssetStore) (options options' : ReadOptions) (s : Statement)

theorem ofText_parseStage (text : String) : OnlyFaults Cause.OfText (Stage.parse text) := by
  unfold Stage.parse
  split
  · exact onlyFaults_ok _
  · exact onlyFaults_error rfl

theorem metIn_readVariable : OnlyFaults (MetIn assets options [s]) (readVariable s) := by
  unfold readVariable
  split
  · exact onlyFaults_ok _
  · exact onlyFaults_error (metIn_self rfl)

theorem metIn_readVariables (names : List String) (ss : List Statement) :
    OnlyFaults (MetIn assets options ss) (readVariables names ss) := by
  induction ss generalizing names with
  | nil => exact onlyFaults_ok _
  | cons s ss ih =>
    have hs : s ∈ s :: ss := List.mem_cons_self
    rw [readVariables]
    refine ((metIn_readVariable assets options s).mono fun _ h => h.of_mem hs).bind fun v => ?_
    have hrest := (ih (v.name :: names)).mono fun _ h =>
      h.mono fun t ht => List.mem_cons_of_mem s ht
    dsimp only
    split
    · exact onlyFaults_error (metIn_located (.here hs) rfl)
    · exact hrest.bind fun _ => onlyFaults_ok _

theorem metIn_readSource : OnlyFaults (MetIn assets options [s]) (readSource s) := by
  unfold readSource
  split
  · exact onlyFaults_ok _
  · exact onlyFaults_error (metIn_self rfl)

theorem metIn_readSignature (signature : Signature) :
    OnlyFaults (MetIn assets options [s]) (signature.read options' s) := by
  have block : ∀ ss, (∀ t ∈ ss, t ∈ s.contents) →
      OnlyFaults (MetIn assets options [s]) (readVariables [] ss) := fun ss hss =>
    (metIn_readVariables assets options [] ss).mono fun _ h => (h.mono hss).block
  unfold Signature.read
  split
  · split
    · exact onlyFaults_ok _
    · next cause h => exact onlyFaults_error (metIn_self (ofText_parseStage _ cause h))
  · split
    · exact (metIn_readSource assets options s).bind fun _ => onlyFaults_ok _
    · split
      · split <;> exact onlyFaults_ok _
      · split
        · exact (block _ fun _ => id).bind fun _ => onlyFaults_ok _
        · split
          · exact (block _ fun _ => List.mem_of_mem_filter).bind fun _ => onlyFaults_ok _
          · exact onlyFaults_error (metIn_unexpected _)

theorem metIn_readDefinition (name : String) :
    OnlyFaults (MetIn assets options [s]) (readDefinition options' name s) := by
  unfold readDefinition
  refine (metIn_foldlM (metIn_readSignature assets options options') _).bind fun signature => ?_
  split
  · exact onlyFaults_error (metIn_self rfl)
  · exact onlyFaults_ok _

theorem metIn_readDefinitionsExcept (names : List String) (ss : List Statement) :
    OnlyFaults (MetIn assets options ss) (readDefinitionsExcept options' names ss) := by
  induction ss generalizing names with
  | nil => exact onlyFaults_ok _
  | cons s ss ih =>
    have hs : s ∈ s :: ss := List.mem_cons_self
    have hrest : ∀ names, OnlyFaults (MetIn assets options (s :: ss))
        (readDefinitionsExcept options' names ss) := fun names =>
      (ih names).mono fun _ h => h.mono fun t ht => List.mem_cons_of_mem s ht
    rw [readDefinitionsExcept]
    split
    · next name _ =>
      split
      · exact hrest names
      · refine ((metIn_readDefinition assets options options' s name).mono fun _ h =>
          h.of_mem hs).bind fun definition => ?_
        exact (hrest _).bind fun _ => onlyFaults_ok _
    · exact onlyFaults_error ((metIn_unexpected _).of_mem hs)

theorem metIn_readDefinitions (ss : List Statement) :
    OnlyFaults (MetIn assets options ss) (readDefinitions options' ss) :=
  metIn_readDefinitionsExcept assets options options' [] ss

/-- A file gives its definitions or a fault of its own, which names it. -/
theorem asset_definitions (path : String) :
    OnlyFaults (fun fault => ∃ reason, fault = (Cause.asset path reason).unlocated)
      (assets.definitions options path) := by
  unfold AssetStore.definitions
  split
  · exact onlyFaults_error ⟨_, rfl⟩
  · exact OnlyFaults.mapError (fun _ _ => trivial) fun fault _ => ⟨_, rfl⟩

end

/-! ## Declaring -/

namespace Resolution

open Attempt

variable (catalog : Catalog) (reference : Reference) (consumer : Consumer)

theorem ofText_storeGlobal (v : Variable) (stage : Stage) :
    (storeGlobal v stage).OnlyFaults Cause.OfText := by
  have list : ∀ f : VarId → Technique → Technique, Attempt.OnlyFaults Cause.OfText (do
      let id ← store { v with isOutput := true }
      Attempt.modify (f id)
      return id) := fun f =>
    ((succeeds_store _).bind fun _ => (succeeds_modify _).bind fun _ => succeeds_pure _).onlyFaults
  refine onlyFaults_get.bind fun t => ?_
  split
  · split
    · split
      · exact onlyFaults_pure _
      · exact onlyFaults_throw rfl
    · exact list _
  · split
    · exact onlyFaults_pure _
    · exact list _
  · exact (succeeds_store _).onlyFaults

theorem ofText_bindOwnDefines {invalid : Cause} (h : invalid.OfText) (names : List String) :
    (bindOwnDefines catalog invalid names).OnlyFaults Cause.OfText := by
  induction names with
  | nil => exact onlyFaults_pure _
  | cons name names ih =>
    rw [bindOwnDefines]
    split
    · exact onlyFaults_throw h
    · exact (onlyFaults_modify _).bind fun _ => ih

theorem ofText_guardCondition (text : String) :
    (guardCondition catalog text).OnlyFaults Cause.OfText := by
  have hinvalid : (Cause.invalidCondition (.ofList (Text.trim text.toList))).OfText := rfl
  exact (ofText_bindOwnDefines catalog hinvalid _).bind fun _ => onlyFaults_pure _

theorem ofText_resolveAttribute (left : Variable) :
    (resolveAttribute reference left consumer).OnlyFaults Cause.OfText := by
  by_cases hstage : consumer.stage = .fragment
  · rw [resolveAttribute, if_pos hstage]
    exact onlyFaults_throw rfl
  · rw [resolveAttribute_eq hstage]
    refine (succeeds_declare consumer _ _).onlyFaults.bind fun p => ?_
    split
    · exact (onlyFaults_modify _).bind fun _ => onlyFaults_pure _
    · exact onlyFaults_pure _

theorem ofText_resolveLength (param : Parameter) :
    (resolveLength catalog param).OnlyFaults Cause.OfText := by
  refine onlyFaults_get.bind fun w => ?_
  cases w.left.multiplicity with
  | none => exact onlyFaults_pure _
  | some length =>
    dsimp only
    split
    · exact onlyFaults_throw rfl
    · split
      · exact onlyFaults_pure _
      · cases catalog.param? length with
        | none => exact onlyFaults_throw rfl
        | some size =>
          have hbind : Succeeds (bindOwnDefine size.name (.single .int)).resolving :=
            Succeeds.resolving (succeeds_modify _)
          exact hbind.onlyFaults.bind fun _ => (onlyFaults_modify _).bind fun _ => onlyFaults_pure _

theorem ofText_uniformType (param : Parameter) (leftType : String) :
    ShaderGraph.OnlyFaults Cause.OfText (uniformType param leftType) := by
  unfold uniformType
  dsimp only
  split
  · split
    · exact onlyFaults_ok _
    · exact onlyFaults_error rfl
  · exact onlyFaults_ok _

theorem ofText_resolveMaterialParameter :
    (resolveMaterialParameter catalog reference consumer).OnlyFaults Cause.OfText := by
  unfold resolveMaterialParameter
  cases catalog.param? reference.name with
  | none => exact onlyFaults_throw rfl
  | some param =>
    refine (ofText_resolveLength catalog param).bind fun length => onlyFaults_get.bind fun w => ?_
    refine (onlyFaults_ofExcept (ofText_uniformType param w.left.type)).bind fun type => ?_
    exact ((succeeds_declareUniform consumer _).resolving).onlyFaults

theorem ofText_resolveWorldParameter :
    (resolveWorldParameter reference consumer).OnlyFaults Cause.OfText := by
  refine onlyFaults_get.bind fun t => ?_
  split
  · exact (succeeds_declareUniform consumer _).onlyFaults
  · exact onlyFaults_throw rfl

theorem ofText_resolveOutput (producer : String) :
    (resolveOutput producer reference consumer).OnlyFaults Cause.OfText := by
  refine onlyFaults_get.bind fun t => ?_
  split
  · next node _ =>
    split
    · split
      · exact (succeeds_store _).onlyFaults
      · split
        · exact (succeeds_promoteVarying consumer _ node).onlyFaults
        · exact onlyFaults_throw rfl
    · exact onlyFaults_throw rfl
  · exact onlyFaults_throw rfl

theorem ofText_resolve : (resolve catalog reference consumer).OnlyFaults Cause.OfText := by
  unfold resolve
  cases reference.origin with
  | none => exact onlyFaults_throw rfl
  | some origin =>
    cases origin with
    | global => exact (ofText_storeGlobal _ _).onPart
    | vertexAttribute =>
      exact onlyFaults_get.bind fun w => (ofText_resolveAttribute reference consumer w.left).onPart
    | materialParameter => exact ofText_resolveMaterialParameter catalog reference consumer
    | worldParameter => exact (ofText_resolveWorldParameter reference consumer).onPart
    | node producer => exact (ofText_resolveOutput reference consumer producer).onPart

end Resolution

theorem Typing.ofText_check (left : Variable) (leftSwizzle : String) (right : Variable)
    (rightSwizzle : String) :
    OnlyFaults Cause.OfText (check left leftSwizzle right rightSwizzle) := by
  unfold check
  split
  · exact onlyFaults_error rfl
  · split
    · exact onlyFaults_error rfl
    · exact onlyFaults_ok _

/-! ## Nodes -/

namespace Graph

open Attempt

variable (context : Context) (node : Node) (s : Statement)

abbrev Met (ss : List Statement) (fault : Fault) : Prop :=
  MetIn context.assets context.options ss fault

variable {context s} in
theorem onlyFaults_building {α : Type} {step : Declaring α} (h : step.OnlyFaults Cause.OfText) :
    (step.building s).OnlyFaults (Met context [s]) :=
  (h.mapError fun _ hc => metIn_self hc).onPart

variable {context s} in
theorem metIn_loadFile {name path : String} (hkeyword : s.startsWith "Definition" = true)
    (hline : DefinitionLine.ofLine? s.line = some ⟨name, some path⟩) :
    (loadFile context s path).OnlyFaults (Met context [s]) := by
  have hfile : ShaderGraph.OnlyFaults (Met context [s])
      ((context.assets.definitions context.options path).mapError (·.orLocated s)) := by
    cases hd : context.assets.definitions context.options path with
    | ok definitions => exact onlyFaults_ok _
    | error fault =>
      obtain ⟨reason, rfl⟩ := asset_definitions _ _ _ fault hd
      refine onlyFaults_error ⟨s, .here List.mem_cons_self, rfl, ?_⟩
      rintro path' reason' h
      cases h
      exact ⟨hkeyword, ⟨name, hline⟩, hd⟩
  exact (onlyFaults_ofExcept hfile).bind fun _ => onlyFaults_modify _

variable {context s} in
theorem metIn_findDefinition (hkeyword : s.startsWith "Definition" = true) :
    (findDefinition context s).OnlyFaults (Met context [s]) := by
  unfold findDefinition
  split
  · next line hline =>
    refine onlyFaults_get.bind fun g => ?_
    split
    · exact onlyFaults_pure _
    · split
      · next path hpath =>
        obtain ⟨name, _⟩ := line
        cases hpath
        refine (metIn_loadFile hkeyword hline).bind fun _ => onlyFaults_get.bind fun g => ?_
        split
        · exact onlyFaults_pure _
        · exact onlyFaults_throw (metIn_self rfl)
      · refine onlyFaults_get.bind fun g => ?_
        split
        · exact onlyFaults_pure _
        · exact onlyFaults_throw (metIn_self rfl)
  · exact onlyFaults_throw (metIn_self rfl)

theorem metIn_readCondition (condition : Option String) :
    (readCondition context s condition).OnlyFaults (Met context [s]) := by
  cases condition with
  | none => exact onlyFaults_pure _
  | some text =>
    exact (onlyFaults_building (Resolution.ofText_guardCondition context.catalog text)).bind
      fun _ => onlyFaults_pure _

theorem metIn_check (left : Variable) (leftSwizzle : String) (right : Variable)
    (rightSwizzle : String) :
    (Attempt.ofExcept ((Typing.check left leftSwizzle right rightSwizzle).mapError (·.located s)) :
      Building Unit).OnlyFaults (Met context [s]) :=
  onlyFaults_ofExcept ((Typing.ofText_check _ _ _ _).mapError fun _ hc => metIn_self hc)

theorem metIn_readRightSide (left : Variable) (swizzle text : String) :
    (readRightSide context node s left swizzle text).OnlyFaults (Met context [s]) := by
  have resolved : ∀ reference : Reference,
      (resolveFor context.catalog reference left ⟨node.name, node.stage⟩).OnlyFaults
        Cause.OfText :=
    fun reference t => .map (Resolution.ofText_resolve context.catalog reference _ ⟨t, left⟩)
  unfold readRightSide
  split
  · next reference _ =>
    dsimp only
    split
    · exact onlyFaults_throw (metIn_self rfl)
    · refine (onlyFaults_building (resolved reference)).bind fun p => ?_
      refine onlyFaults_get.bind fun g => (metIn_check context s _ _ _ _).bind fun _ => ?_
      split
      · exact (onlyFaults_modify _).bind fun _ => onlyFaults_pure _
      · exact onlyFaults_pure _
  · exact onlyFaults_throw (metIn_self rfl)

theorem metIn_store (v : Variable) :
    ((Resolution.store v).building s).OnlyFaults (Met context [s]) :=
  onlyFaults_building (Resolution.succeeds_store v).onlyFaults

theorem metIn_readInputMapping :
    (readInputMapping context node s).OnlyFaults (Met context [s]) := by
  unfold readInputMapping
  dsimp only
  split
  · split
    · split
      · refine (metIn_readCondition context s _).bind fun condition => ?_
        split
        · refine (onlyFaults_pure _).bind fun wire => ?_
          exact (metIn_store context s wire.left).bind fun _ => onlyFaults_pure _
        · refine (metIn_readRightSide context node s _ _ _).bind fun wire => ?_
          exact (metIn_store context s wire.left).bind fun _ => onlyFaults_pure _
      · exact onlyFaults_throw (metIn_self rfl)
    · exact onlyFaults_throw (metIn_self rfl)
  · exact onlyFaults_throw (metIn_self rfl)

theorem metIn_readOutputMapping :
    (readOutputMapping context node s).OnlyFaults (Met context [s]) := by
  have malformed : ∀ cause : Cause, cause.OfText →
      (throw (cause.located s) : Building Mapping).OnlyFaults (Met context [s]) :=
    fun _ hc => onlyFaults_throw (metIn_self hc)
  unfold readOutputMapping
  dsimp only
  split
  · split
    · split
      · split
        · split
          · exact malformed _ rfl
          · split
            · split
              · exact malformed _ rfl
              · refine (metIn_check context s _ _ _ _).bind fun _ => ?_
                refine (metIn_readCondition context s _).bind fun condition => ?_
                refine (onlyFaults_building (Resolution.ofText_storeGlobal _ _)).bind
                  fun global => ?_
                refine (onlyFaults_modify _).bind fun _ => ?_
                exact (metIn_store context s _).bind fun _ => onlyFaults_pure _
            · exact malformed _ rfl
        · exact malformed _ rfl
      · exact malformed _ rfl
    · exact malformed _ rfl
  · exact malformed _ rfl

/-- The lines of a block one after the other. -/
theorem metIn_mapM {α : Type} {f : Statement → Building α}
    (h : ∀ t, (f t).OnlyFaults (Met context [t])) :
    (s.contents.mapM f).OnlyFaults (Met context [s]) :=
  Attempt.onlyFaults_mapM fun t ht => (h t).mono fun _ hm => hm.of_mem_contents ht

theorem metIn_readNodeStatement :
    (readNodeStatement context node s).OnlyFaults (Met context [s]) := by
  unfold readNodeStatement
  split
  · split
    · exact (metIn_readCondition context s _).bind fun _ => onlyFaults_pure _
    · exact onlyFaults_throw (metIn_self rfl)
  · split
    · exact (metIn_mapM context s (metIn_readInputMapping context node)).bind
        fun _ => onlyFaults_pure _
    · split
      · exact (metIn_mapM context s (metIn_readOutputMapping context node)).bind
          fun _ => onlyFaults_pure _
      · exact onlyFaults_throw (metIn_unexpected _)

theorem metIn_readNode (name : String) :
    (readNode context name s).OnlyFaults (Met context [s]) := by
  unfold readNode
  split
  · exact onlyFaults_throw (metIn_self rfl)
  · next first rest hcontents =>
    have inside : ∀ {t : Statement} {fault : Fault}, t ∈ first :: rest →
        Met context [t] fault → Met context [s] fault :=
      fun ht hm => hm.of_mem_contents (hcontents ▸ ht)
    have readRest : ∀ node : Node,
        (rest.foldlM (readNodeStatement context) node).OnlyFaults (Met context [s]) :=
      Attempt.onlyFaults_foldlM fun t ht node => (metIn_readNodeStatement context node t).mono
        fun _ => inside (List.mem_cons_of_mem first ht)
    dsimp only
    split
    · exact onlyFaults_throw (inside List.mem_cons_self (metIn_self rfl))
    · next hkeyword =>
      have hfind : (findDefinition context first).OnlyFaults (Met context [first]) :=
        metIn_findDefinition (by simpa using hkeyword)
      refine (hfind.mono fun _ => inside List.mem_cons_self).bind fun definition => ?_
      split
      · exact (onlyFaults_modify _).bind fun _ => readRest _
      · refine (onlyFaults_modify _).bind fun _ => ?_
        split
        · exact (onlyFaults_modify _).bind fun _ => readRest _
        · exact readRest _

theorem metIn_readAndAddNode : (readAndAddNode context s).OnlyFaults (Met context [s]) := by
  unfold readAndAddNode
  split
  · refine onlyFaults_get.bind fun g => ?_
    dsimp only
    split
    · exact onlyFaults_throw (metIn_self rfl)
    · exact (metIn_readNode context s _).bind fun node => onlyFaults_modify _
  · exact onlyFaults_throw (metIn_unexpected _)

theorem metIn_readNodes (ss : List Statement) :
    (readNodes context ss).OnlyFaults (Met context ss) :=
  onlyFaults_forM fun s hs => (metIn_readAndAddNode context s).mono fun _ hm => hm.of_mem hs

end Graph

/-! ## Techniques -/

section

variable (context : Context) (s : Statement)

theorem metIn_readWorldBinding (t : Technique) :
    OnlyFaults (Graph.Met context [s]) (Draft.readWorldBinding t s) := by
  unfold Draft.readWorldBinding
  split
  · exact onlyFaults_ok _
  · next cause h =>
    unfold WorldBinding.parse at h
    split at h
    · cases h
    · cases h
      exact onlyFaults_error (metIn_self rfl)

theorem metIn_readDefine (t : Technique) :
    OnlyFaults (Graph.Met context [s]) (Draft.readDefine context.catalog t s) := by
  unfold Draft.readDefine
  split
  · exact onlyFaults_ok _
  · split
    · exact onlyFaults_ok _
    · exact onlyFaults_error (metIn_self rfl)
  · exact onlyFaults_error (metIn_self rfl)

theorem metIn_readStageSource (stageName : String) (t : Technique) :
    OnlyFaults (Graph.Met context [s]) (Draft.readStageSource stageName t s) := by
  unfold Draft.readStageSource
  refine ((ofText_parseStage stageName).mapError fun _ hc => metIn_self hc).bind fun stage => ?_
  exact (metIn_readSource _ _ s).bind fun _ => onlyFaults_ok _

theorem metIn_readDraft (draft : Draft) :
    OnlyFaults (Graph.Met context [s]) (draft.read context s) := by
  unfold Draft.read
  dsimp only
  split
  · exact (metIn_foldlM (metIn_readWorldBinding context) _).bind fun _ => onlyFaults_ok _
  · split
    · exact (metIn_foldlM (metIn_readDefine context) _).bind fun _ => onlyFaults_ok _
    · split
      · refine OnlyFaults.bind ?_ fun _ => onlyFaults_ok _
        exact (metIn_readDefinitions _ _ context.options _).mono fun _ hm => hm.block
      · split
        · exact onlyFaults_ok _
        · split
          · exact onlyFaults_ok _
          · split
            · exact (metIn_readStageSource context s _ _).bind fun _ => onlyFaults_ok _
            · exact onlyFaults_error (metIn_unexpected _)

/-- The blocks of nodes are statements of the technique. -/
theorem nodeBlocks_of_drafts {ss : List Statement} {start draft : Draft}
    (hstart : ∀ b ∈ start.nodeBlocks, b ∈ ss)
    (h : ss.foldlM (Draft.read context) start = .ok draft) : ∀ b ∈ draft.nodeBlocks, b ∈ ss := by
  refine Attempt.except_foldlM_invariant (P := fun d => ∀ b ∈ d.nodeBlocks, b ∈ ss) ?_ hstart h
  intro t ht d d' hd hread
  cases draftStep_of_read hread with
  | nodes =>
    intro b hb
    rcases List.mem_append.mp hb with hb | hb
    · exact hd b hb
    · rwa [List.mem_singleton.mp hb]
  | worldParameters _ => exact hd
  | defines _ => exact hd
  | definitions _ => exact hd
  | ignored => exact hd
  | source _ => exact hd

theorem metIn_buildGraph {draft : Draft} (h : ∀ b ∈ draft.nodeBlocks, b ∈ s.contents) :
    (buildGraph context draft).OnlyFaults (Graph.Met context [s]) := by
  have blocks : (draft.nodeBlocks.forM fun block =>
      Graph.readNodes context block.contents).OnlyFaults (Graph.Met context [s]) :=
    Attempt.onlyFaults_forM fun b hb => (Graph.metIn_readNodes context b.contents).mono
      fun _ hm => hm.block.of_mem_contents (h b hb)
  exact fun warnings => .map (blocks ⟨draft.technique, draft.definitions, warnings⟩)

theorem metIn_readTechnique : (readTechnique context s).OnlyFaults (Graph.Met context [s]) := by
  unfold readTechnique
  split
  · next name _ =>
    refine Attempt.onlyFaults_ofExcept_bind (metIn_foldlM (metIn_readDraft context) _)
      fun draft hdraft => ?_
    have hblocks := nodeBlocks_of_drafts context (fun b hb => absurd hb List.not_mem_nil) hdraft
    split
    · exact Attempt.onlyFaults_pure _
    · split
      · exact Attempt.onlyFaults_pure _
      · exact (metIn_buildGraph context s hblocks).bind fun _ => Attempt.onlyFaults_pure _
  · exact Attempt.onlyFaults_throw (metIn_self rfl)

end

/-! ## Materials -/

section

variable (assets : AssetStore) (options : ReadOptions)

theorem metIn_readParameter (s : Statement) :
    OnlyFaults (MetIn assets options [s]) (readParameter s) := by
  unfold readParameter
  dsimp only
  split
  · split
    · exact onlyFaults_ok _
    · next cause h =>
      unfold ParamType.parse at h
      split at h
      · cases h
      · cases h
        exact onlyFaults_error (metIn_self rfl)
  · exact onlyFaults_error (metIn_self rfl)

theorem metIn_readCatalog (ss : List Statement) :
    OnlyFaults (MetIn assets options ss) (readCatalog ss) := by
  refine onlyFaults_mapM fun t ht => (metIn_readParameter assets options t).mono fun _ hm => ?_
  obtain ⟨block, hblock, ht⟩ := List.mem_flatMap.mp ht
  exact (hm.of_mem ht).block.of_mem (List.mem_of_mem_filter hblock)

theorem metIn_readStatement (context : Context) (material : Material) (s : Statement) :
    (material.readStatement context s).OnlyFaults (Graph.Met context [s]) := by
  unfold Material.readStatement
  split
  · exact Attempt.onlyFaults_pure _
  · split
    · refine (metIn_readTechnique context s).bind fun technique => ?_
      split
      · exact Attempt.onlyFaults_pure _
      · exact (Attempt.onlyFaults_modify _).bind fun _ => Attempt.onlyFaults_pure _
    · exact Attempt.onlyFaults_throw (metIn_unexpected _)

inductive PointsInto (text : String) : Fault → Prop
  /-- Nothing: the text has no block structure. -/
  | structure {p : Block.Position} : Block.read text = .error p →
      PointsInto text (Cause.block p).unlocated
  /-- Nothing: the text has no statement, or more than one. -/
  | number {forest : List Statement} : Block.read text = .ok forest → forest.length ≠ 1 →
      PointsInto text (Cause.malformedStatement "MaterialDef").unlocated
  /-- A statement of the text. -/
  | statement {forest : List Statement} {row : Nat × Statement} {fault : Fault} :
      Block.read text = .ok forest → row ∈ rows 0 forest →
      fault.location = some row.2.location →
      (∀ path reason, fault.cause = .asset path reason →
        NamesUnreadable assets options row.2 path reason) →
      PointsInto text fault

variable {assets options} in
theorem pointsInto_of_metIn {text : String} {forest : List Statement} {fault : Fault}
    (h : Block.read text = .ok forest) (hm : MetIn assets options forest fault) :
    PointsInto assets options text fault := by
  obtain ⟨s, hs, hlocation, hnames⟩ := hm
  obtain ⟨row, hrow, rfl⟩ := hs.exists_row 0
  exact .statement h hrow hlocation hnames

theorem pointsInto_readStatements (text : String) :
    OnlyFaults (PointsInto assets options text) (readStatements text) := by
  unfold readStatements
  cases h : Block.read text with
  | ok forest => exact onlyFaults_ok _
  | error p => exact onlyFaults_error (.structure h)

theorem pointsInto_readMaterial (text : String) :
    (readMaterial assets options text).OnlyFaults (PointsInto assets options text) := by
  unfold readMaterial
  refine Attempt.onlyFaults_ofExcept_bind (pointsInto_readStatements assets options text)
    fun forest hforest => ?_
  have hread : Block.read text = .ok forest := Attempt.mapError_ok_iff.mp hforest
  split
  · next root =>
    have block : ∀ fault, MetIn assets options root.contents fault →
        PointsInto assets options text fault := fun _ hm => pointsInto_of_metIn hread hm.block
    split
    · next name _ =>
      refine (Attempt.onlyFaults_ofExcept ((metIn_readCatalog assets options _).mono block)).bind
        fun params => ?_
      refine Attempt.onlyFaults_foldlM (fun t ht material => ?_) _
      exact (metIn_readStatement ⟨params, assets, options⟩ material t).mono
        fun fault hm => block fault (hm.of_mem ht)
    · exact Attempt.onlyFaults_throw (pointsInto_of_metIn hread (metIn_unexpected _))
  · next hne =>
    refine Attempt.onlyFaults_throw (.number hread fun hlength => ?_)
    obtain ⟨root, rfl⟩ := List.length_eq_one_iff.mp hlength
    exact hne root rfl

end

/-- Whatever is wrong with a material is said of one of its lines, also what is wrong in a file
that it names. -/
theorem located_of_readMaterial {assets : AssetStore} {options : ReadOptions} {text : String}
    {warnings warnings' : List Warning} {fault : Fault}
    (h : readMaterial assets options text warnings = (.error fault, warnings')) :
    PointsInto assets options text fault ∧
    ∀ path inside, assets.definitions options path = .error inside →
      ∃ reason, inside = (Cause.asset path reason).unlocated :=
  ⟨pointsInto_readMaterial assets options text warnings fault (congrArg Prod.fst h),
    fun path => asset_definitions assets options path⟩

namespace Lit

def lampText : String :=
  "MaterialDef Lamp \x7b\n  Technique \x7b\n    FragmentShaderNodes \x7b\n" ++
  "      ShaderNode Glow \x7b\n        Definition : Glow : glow.j3sn\n" ++
  "      \x7d\n    \x7d\n  \x7d\n\x7d\n"

def lampFiles : AssetStore := .ofFiles [("glow.j3sn",
  "ShaderNodeDefinitions \x7b\n  ShaderNodeDefinition Glow \x7b\n    Type : Pixel\n  \x7d\n\x7d\n")]

/-- The third line of the file is told of the fifth line of the text. -/
def lampFault : Fault :=
  ⟨.asset "glow.j3sn" "Unknown shader stage `Pixel` (line 3: `Type : Pixel`)",
    some ⟨5, "Definition : Glow : glow.j3sn"⟩⟩

end Lit

theorem located_of_readMaterial_lamp :
    ∃ warnings, readMaterial Lit.lampFiles ⟨false⟩ Lit.lampText [] =
        (.error Lit.lampFault, warnings) ∧
      PointsInto Lit.lampFiles ⟨false⟩ Lit.lampText Lit.lampFault := by
  have hfault : ((readMaterial Lit.lampFiles ⟨false⟩ Lit.lampText []).1.map fun _ => ()) =
      .error Lit.lampFault := by
    decide +kernel
  cases h : readMaterial Lit.lampFiles ⟨false⟩ Lit.lampText [] with
  | mk r warnings =>
    rw [h] at hfault
    cases r with
    | ok _ => cases hfault
    | error fault =>
      cases hfault
      exact ⟨warnings, rfl, (located_of_readMaterial h).1⟩

end ShaderGraph
