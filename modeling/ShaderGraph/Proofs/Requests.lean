/-
  ShaderGraph.Proofs.Requests — what the text of a technique asks for.

  A define is asked for by a `Defines` line, by a condition that names a parameter, and by an array
  that is read from a parameter and has another one for its length. Which parameters these are
  can be told from the text and the definitions of the nodes, before anything is read
  (`Technique.requests`). Reading makes just these requests and makes them in the order of the
  text; beyond that a statement of a node touches neither the nodes nor the library, and a node
  brings in nothing but itself and the file of its definition.

  - `requests_readNodeStatement`: what a statement of a node asks for.
  - `addsNode_of_readAndAddNode`: what reading a node does to the nodes, the library and the
    defines.
  - `gains_of_drafts`: what is known before the first node.
  - `defines_of_asRead`: so the defines of a technique are what its text asks for, in the order of
    the text.
-/

import ShaderGraph.Proofs.Rearranging

namespace ShaderGraph

open Block (Statement)
open Resolution (StoresGlobal Resolves Sized globalVariable)

inductive Request where
  /-- A line that writes the define out. -/
  | line (define : String) (param : Parameter)
  /-- A condition that names the parameter. -/
  | guard (param : Parameter)
  /-- An array whose length is the parameter. -/
  | length (size : Parameter)
  deriving DecidableEq, Repr

namespace Request

def param : Request → Parameter
  | line _ param => param
  | guard param => param
  | length size => size

/-- What is bound if the parameter is not bound yet. A length is an integer to be. -/
def binding : Request → DefineBinding
  | line define param => ⟨param.name, define, param.type⟩
  | guard param => ⟨param.name, Condition.defineOf param.name, param.type⟩
  | length size => ⟨size.name, Condition.defineOf size.name, .single .int⟩

@[simp] theorem param_binding (r : Request) : r.binding.param = r.param.name := by
  cases r <;> rfl

/-! ## Requests in a text -/

section

variable (catalog : Catalog)

def ofCondition : Option String → List Request
  | none => []
  | some text => ((Condition.normalize text).names.filterMap catalog.param?).map guard

def ofLength? (reference : Reference) (left : Variable) : Option Request :=
  if reference.origin = some .materialParameter then
    left.multiplicity.bind fun length =>
      if Text.isNumeral length.toList then none else (catalog.param? length).map .length
  else none

def ofRightSide? (left : Variable) : RightSide → Option Request
  | .code _ => none
  | .reference text => (Reference.parse? text true).bind (ofLength? catalog · left)

variable (definition : Definition)

def ofLine (line : MappingLine) : List Request :=
  let input? := (Reference.parse? line.left false).bind (definition.input? ·.name)
  ofCondition catalog line.condition ++ (input?.bind (ofRightSide? catalog · line.right)).toList

def ofInput (statement : Statement) : List Request :=
  (MappingLine.split? statement.line).elim [] (ofLine catalog definition)

def ofOutput (statement : Statement) : List Request :=
  (MappingLine.split? statement.line).elim [] fun line => ofCondition catalog line.condition

def ofNodeStatement (statement : Statement) : List Request :=
  if statement.startsWith "Condition" then
    ofCondition catalog (Graph.conditionText? statement.line).join
  else if statement.startsWith "InputMapping" then
    statement.contents.flatMap (ofInput catalog definition)
  else if statement.startsWith "OutputMapping" then statement.contents.flatMap (ofOutput catalog)
  else []

/-- The requests of a node, whose first statement gives its definition. -/
def ofNode (statement : Statement) : List Request :=
  statement.contents.tail.flatMap (ofNodeStatement catalog definition)

def ofDefine? (statement : Statement) : Option Request :=
  match (Text.fields ':' statement.line.toList).map fun cs => String.ofList (Text.trim cs) with
  | [define, name] => (catalog.param? name).map (line define)
  | _ => none

end

end Request

namespace DefineTable

def grant (t : DefineTable) (requests : List Request) : DefineTable :=
  requests.foldl (fun t r => t.bind r.binding) t

@[simp] theorem grant_nil (t : DefineTable) : t.grant [] = t := rfl

@[simp] theorem grant_append (t : DefineTable) (rs rs' : List Request) :
    t.grant (rs ++ rs') = (t.grant rs).grant rs' := List.foldl_append

end DefineTable

/-! ## What relations on techniques ask for -/

section

variable {catalog : Catalog} {t t' : Technique}

theorem BindsOwn.defines {names : List String} (h : BindsOwn catalog names t t') :
    t'.defines = t.defines.grant ((names.filterMap catalog.param?).map .guard) := by
  induction h with
  | nil => rfl
  | @cons name names param t t' hp _ ih =>
    rw [ih, List.filterMap_cons_some hp]
    rfl

theorem Resolution.StoresGlobal.defines {v : Variable} {stage : Stage} {id : VarId}
    (h : StoresGlobal v stage t id t') : t'.defines = t.defines := by
  cases h <;> rfl

theorem Resolution.Resolves.defines {reference : Reference} {consumer : Consumer}
    {left left' : Variable} {id : VarId}
    (h : Resolves catalog reference consumer t left id t' left') :
    t'.defines = t.defines.grant (Request.ofLength? catalog reference left).toList := by
  have other : reference.origin ≠ some .materialParameter →
      Request.ofLength? catalog reference left = none := fun hne => if_neg hne
  cases h with
  | global ho hg =>
    rw [other (by rw [ho]; nofun), hg.defines]
    rfl
  | vertexAttribute ho _ _ =>
    rw [other (by rw [ho]; nofun)]
    rfl
  | worldParameter ho _ _ =>
    rw [other (by rw [ho]; nofun)]
    rfl
  | output ho _ _ _ =>
    rw [other (by rw [ho]; nofun)]
    rfl
  | varying ho _ _ _ _ _ =>
    rw [other (by rw [ho]; nofun)]
    rfl
  | materialParameter ho _ hs _ _ =>
    rw [Request.ofLength?, if_pos ho]
    cases hs with
    | single hm =>
      rw [hm]
      rfl
    | literal hm _ hnum =>
      rw [hm, Option.bind_some, if_pos hnum]
      rfl
    | byParameter hm _ hnum hp =>
      rw [hm, Option.bind_some, if_neg (by simp [hnum]), hp]
      rfl

end

/-! ## What each reader asks for -/

namespace Graph

/-- The requests were made in this order, and neither the nodes nor the library were touched. -/
structure Requested (requests : List Request) (g g' : Graph) : Prop where
  defines : g'.technique.defines = g.technique.defines.grant requests
  nodes : g'.technique.nodes = g.technique.nodes
  library : g'.library = g.library

/-- Whenever the step succeeds, it has made these requests. -/
def Requests {α : Type} (x : Building α) (requests : List Request) : Prop :=
  ∀ g a g', x g = (.ok a, g') → Requested requests g g'

theorem Requested.refl (g : Graph) : Requested [] g g := ⟨rfl, rfl, rfl⟩

theorem Requested.trans {rs rs' : List Request} {g g₁ g' : Graph} (h : Requested rs g g₁)
    (h' : Requested rs' g₁ g') : Requested (rs ++ rs') g g' where
  defines := by rw [h'.defines, h.defines, DefineTable.grant_append]
  nodes := h'.nodes.trans h.nodes
  library := h'.library.trans h.library

section

variable {α β : Type}

theorem requests_pure (a : α) : Requests (pure a) [] := by
  intro g b g' h
  obtain ⟨-, rfl⟩ := Attempt.pure_eq_ok.mp h
  exact .refl g

/-- Nothing can be asked of a step that fails. -/
theorem requests_throw (fault : Fault) (requests : List Request) :
    Requests (throw fault : Building α) requests :=
  fun _ _ _ h => absurd h Attempt.throw_ne_ok

theorem requests_ofExcept (r : Except Fault α) : Requests (Attempt.ofExcept r) [] := by
  intro g a g' h
  obtain ⟨-, rfl⟩ := Attempt.ofExcept_eq_ok.mp h
  exact .refl g

theorem Requests.bind {x : Building α} {f : α → Building β} {rs rs' : List Request}
    (hx : Requests x rs) (hf : ∀ a, Requests (f a) rs') : Requests (x >>= f) (rs ++ rs') := by
  intro g b g' h
  obtain ⟨a, g₁, h₁, h₂⟩ := Attempt.bind_eq_ok.mp h
  exact (hx g a g₁ h₁).trans (hf a g₁ b g' h₂)

/-- What comes after the step asks for nothing. -/
theorem Requests.andThen {x : Building α} {f : α → Building β} {rs : List Request}
    (hx : Requests x rs) (hf : ∀ a, Requests (f a) []) : Requests (x >>= f) rs := by
  have := hx.bind hf
  rwa [List.append_nil] at this

theorem requests_mapM {f : α → Building β} {requests : α → List Request}
    (h : ∀ a, Requests (f a) (requests a)) (as : List α) :
    Requests (as.mapM f) (as.flatMap requests) := by
  induction as with
  | nil => exact requests_pure []
  | cons a as ih =>
    rw [List.mapM_cons, List.flatMap_cons]
    exact (h a).bind fun b => ih.andThen fun bs => requests_pure _

/-- A declaring step asks for what it binds. -/
theorem requests_building {step : Declaring α} {requests : List Request}
    (h : ∀ t a t', step t = (.ok a, t') →
      t'.defines = t.defines.grant requests ∧ t'.nodes = t.nodes)
    (statement : Statement) : Requests (step.building statement) requests := by
  intro g a g' hok
  obtain ⟨t, hstep, rfl⟩ := building_eq_ok.mp hok
  obtain ⟨hdefines, hnodes⟩ := h _ _ _ hstep
  exact ⟨hdefines, hnodes, rfl⟩

end

section

variable {context : Context} {node node' : Node} {statement : Statement}

theorem requests_store (v : Variable) (statement : Statement) :
    Requests ((Resolution.store v).building statement) [] := by
  refine requests_building (fun t id t' h => ?_) statement
  obtain ⟨-, rfl⟩ := Resolution.store_eq_ok.mp h
  exact ⟨rfl, rfl⟩

theorem requests_storeGlobal (v : Variable) (stage : Stage) (statement : Statement) :
    Requests ((Resolution.storeGlobal v stage).building statement) [] := by
  refine requests_building (fun t id t' h => ?_) statement
  have hs := Resolution.storesGlobal_of_ok h
  exact ⟨hs.defines, hs.nodes⟩

theorem requests_markUsed (name : String) : Requests (markUsed name) [] := by
  intro g a g' h
  obtain rfl := markUsed_eq_ok.mp h
  exact ⟨rfl, rfl, rfl⟩

theorem requests_readCondition (statement : Statement) (condition : Option String) :
    Requests (readCondition context statement condition)
      (Request.ofCondition context.catalog condition) := by
  cases condition with
  | none => exact requests_pure none
  | some text =>
    have hguard : Requests
        ((Resolution.guardCondition context.catalog text).building statement)
        (Request.ofCondition context.catalog (some text)) := by
      refine requests_building (fun t a t' h => ?_) statement
      simp only [Resolution.guardCondition, Attempt.bind_eq_ok, Attempt.pure_eq_ok] at h
      obtain ⟨_, _, hbinds, -, rfl⟩ := h
      have hbinds := bindsOwn_of_ok hbinds
      obtain ⟨defines, rfl⟩ := hbinds.frame
      exact ⟨hbinds.defines, rfl⟩
    exact hguard.andThen fun normalized => requests_pure _

theorem requests_readRightSide (left : Variable) (swizzle text : String) :
    Requests (readRightSide context node statement left swizzle text)
      (Request.ofRightSide? context.catalog left (.reference text)).toList := by
  intro g wire g' h
  obtain ⟨reference, id, t, hparse, -, hresolves, -, -, -, rfl⟩ := readRightSide_ok h
  obtain ⟨unused, hu⟩ := markProducer_eq t reference
  rw [Request.ofRightSide?, hparse, Option.bind_some, hu]
  exact ⟨hresolves.defines, hresolves.nodes, rfl⟩

theorem requests_readInputMapping (statement : Statement) :
    Requests (readInputMapping context node statement)
      (Request.ofInput context.catalog node.definition statement) := by
  unfold readInputMapping Request.ofInput
  cases MappingLine.split? statement.line with
  | none => exact requests_throw _ _
  | some line =>
    simp only [Option.elim, Request.ofLine]
    cases Reference.parse? line.left false with
    | none => exact requests_throw _ _
    | some target =>
      dsimp only [Option.bind_some]
      cases node.definition.input? target.name with
      | none => exact requests_throw _ _
      | some input =>
        refine (requests_readCondition statement line.condition).bind fun condition => ?_
        cases line.right with
        | code text =>
          exact (requests_pure _).bind fun wire =>
            (requests_store wire.left statement).andThen fun id => requests_pure _
        | reference text =>
          -- the origin of the left side does not count for its length
          have hright : Requests (readRightSide context node statement (input.ofNode node.name)
              target.swizzle text)
              (Request.ofRightSide? context.catalog input (.reference text)).toList :=
            requests_readRightSide (input.ofNode node.name) target.swizzle text
          exact hright.andThen fun wire =>
            (requests_store wire.left statement).andThen fun id => requests_pure _

theorem requests_readOutputMapping (statement : Statement) :
    Requests (readOutputMapping context node statement)
      (Request.ofOutput context.catalog statement) := by
  unfold readOutputMapping Request.ofOutput
  cases MappingLine.split? statement.line with
  | none => exact requests_throw _ _
  | some line =>
    dsimp only [Option.elim]
    split
    · split
      · split
        · split
          · exact requests_throw _ _
          · split
            · split
              · exact requests_throw _ _
              · refine (requests_ofExcept _).bind fun _ => ?_
                refine (requests_readCondition statement line.condition).andThen fun condition => ?_
                refine (requests_storeGlobal _ _ statement).andThen fun global => ?_
                refine (requests_markUsed _).andThen fun _ => ?_
                exact (requests_store _ statement).andThen fun id => requests_pure _
            · exact requests_throw _ _
        · exact requests_throw _ _
      · exact requests_throw _ _
    · exact requests_throw _ _

theorem requests_readNodeStatement (statement : Statement) :
    Requests (readNodeStatement context node statement)
      (Request.ofNodeStatement context.catalog node.definition statement) := by
  unfold readNodeStatement Request.ofNodeStatement
  split
  · cases conditionText? statement.line with
    | none => exact requests_throw _ _
    | some text => exact (requests_readCondition statement text).andThen fun _ => requests_pure _
  · split
    · exact (requests_mapM requests_readInputMapping _).andThen fun _ => requests_pure _
    · split
      · exact (requests_mapM requests_readOutputMapping _).andThen fun _ => requests_pure _
      · exact requests_throw _ _

/-- No statement of a node changes its definition. -/
theorem definition_of_readNodeStatement {g g' : Graph}
    (h : readNodeStatement context node statement g = (.ok node', g')) :
    node'.definition = node.definition := by
  unfold readNodeStatement at h
  split at h
  · cases ht : conditionText? statement.line with
    | none =>
      simp only [ht] at h
      exact absurd h Attempt.throw_ne_ok
    | some text =>
      simp only [ht, Attempt.bind_eq_ok, Attempt.pure_eq_ok] at h
      obtain ⟨_, _, _, rfl, -⟩ := h
      rfl
  · split at h
    · simp only [Attempt.bind_eq_ok, Attempt.pure_eq_ok] at h
      obtain ⟨_, _, _, rfl, -⟩ := h
      rfl
    · split at h
      · simp only [Attempt.bind_eq_ok, Attempt.pure_eq_ok] at h
        obtain ⟨_, _, _, rfl, -⟩ := h
        rfl
      · exact absurd h Attempt.throw_ne_ok

theorem requested_of_readNodeStatements {statements : List Statement} {g g' : Graph}
    (h : statements.foldlM (readNodeStatement context) node g = (.ok node', g')) :
    node'.definition = node.definition ∧ Requested
      (statements.flatMap (Request.ofNodeStatement context.catalog node.definition)) g g' := by
  induction statements generalizing node g with
  | nil =>
    obtain ⟨rfl, rfl⟩ := Attempt.pure_eq_ok.mp h
    exact ⟨rfl, .refl g⟩
  | cons s statements ih =>
    rw [List.foldlM_cons] at h
    obtain ⟨node₁, g₁, hs, h⟩ := Attempt.bind_eq_ok.mp h
    obtain ⟨hdefinition, hrest⟩ := ih h
    have hsame := definition_of_readNodeStatement hs
    rw [hsame] at hdefinition hrest
    exact ⟨hdefinition, (requests_readNodeStatement s _ _ _ hs).trans hrest⟩

end

end Graph

/-! ## Nodes -/

def definitionLine? (statement : Statement) : Option Graph.DefinitionLine :=
  statement.contents.head?.bind (Graph.DefinitionLine.ofLine? ·.line)

structure AddsNode (context : Context) (statement : Statement) (node : Node) (g g' : Graph) :
    Prop where
  nodes : g'.technique.nodes = g.technique.nodes ++ [node]
  finds : ∃ line, definitionLine? statement = some line ∧
    FindsDefinition context line g.library node.definition g'.library
  defines : g'.technique.defines =
    g.technique.defines.grant (Request.ofNode context.catalog node.definition statement)

/-- Statements of nodes one after the other, each with the node that it gives. -/
inductive AddsNodes (context : Context) : List Statement → List Node → Graph → Graph → Prop
  | nil {g : Graph} : AddsNodes context [] [] g g
  | cons {statement : Statement} {statements : List Statement} {node : Node} {nodes : List Node}
      {g g₁ g' : Graph} :
      AddsNode context statement node g g₁ → AddsNodes context statements nodes g₁ g' →
      AddsNodes context (statement :: statements) (node :: nodes) g g'

section

variable {context : Context} {statement : Statement} {statements : List Statement}
  {nodes : List Node} {g g' : Graph} {u : Unit}

theorem addsNode_of_readAndAddNode (h : Graph.readAndAddNode context statement g = (.ok u, g')) :
    ∃ node, AddsNode context statement node g g' := by
  obtain ⟨name, node, g₁, -, hnode, rfl⟩ := readAndAddNode_ok h
  obtain ⟨first, rest, line, definition, library, warnings, hcontents, hline, hfinds, hrest⟩ :=
    readNode_ok hnode
  obtain ⟨hdefinition, hrequested⟩ := Graph.requested_of_readNodeStatements hrest
  obtain ⟨unused, hu⟩ := markOpened_eq g.technique name definition
  rw [hu] at hrequested
  refine ⟨node, congrArg (· ++ [node]) hrequested.nodes, ⟨line, ?_, ?_⟩, ?_⟩
  · simp [definitionLine?, hcontents, hline]
  · rw [hdefinition]
    exact hrequested.library ▸ hfinds
  · rw [hdefinition, Request.ofNode, hcontents, List.tail_cons]
    exact hrequested.defines

theorem addsNodes_of_readNodes (h : Graph.readNodes context statements g = (.ok u, g')) :
    ∃ nodes, AddsNodes context statements nodes g g' := by
  induction statements generalizing g with
  | nil =>
    obtain ⟨-, rfl⟩ := Attempt.pure_eq_ok.mp h
    exact ⟨[], .nil⟩
  | cons s statements ih =>
    obtain ⟨_, g₁, hs, h⟩ := Attempt.bind_eq_ok.mp h
    obtain ⟨node, hnode⟩ := addsNode_of_readAndAddNode hs
    obtain ⟨nodes, hnodes⟩ := ih h
    exact ⟨node :: nodes, .cons hnode hnodes⟩

/-- Blocks of nodes are read as one. -/
theorem forM_readNodes (blocks : List Statement) :
    (blocks.forM fun block => Graph.readNodes context block.contents) =
      Graph.readNodes context (blocks.flatMap (·.contents)) := by
  induction blocks with
  | nil => rfl
  | cons block blocks ih =>
    simp only [Graph.readNodes, List.forM_eq_forM, List.flatMap_cons, List.forM_cons,
      List.forM_append] at ih ⊢
    rw [ih]

theorem AddsNodes.nodes_eq (h : AddsNodes context statements nodes g g') :
    g'.technique.nodes = g.technique.nodes ++ nodes := by
  induction h with
  | nil => exact (List.append_nil _).symm
  | cons hnode _ ih => rw [ih, hnode.nodes, List.append_assoc, List.singleton_append]

def Request.ofNodes (catalog : Catalog) (statements : List Statement)
    (definitions : List Definition) : List Request :=
  (statements.zip definitions).flatMap fun (statement, definition) =>
    ofNode catalog definition statement

theorem AddsNodes.defines_eq (h : AddsNodes context statements nodes g g') :
    g'.technique.defines = g.technique.defines.grant
      (Request.ofNodes context.catalog statements (nodes.map (·.definition))) := by
  induction h with
  | nil => rfl
  | cons hnode _ ih =>
    rw [ih, hnode.defines, ← DefineTable.grant_append]
    rfl

end

/-! ## Before the first node -/

def ofKind (kind : StatementKind) (statements : List Statement) : List Statement :=
  statements.filter (StatementKind.of? · == some kind)

theorem StatementKind.keyword_of_defines {statement : Statement}
    (h : StatementKind.of? statement = some .defines) : statement.keyword = "Defines" := by
  by_contra hne
  have hkeyword : (statement.keyword == "Defines") = false := by simpa using hne
  simp only [StatementKind.of?, hkeyword, Bool.false_eq_true, if_false] at h
  split_ifs at h <;> cases h

/-- The definitions of a block; none if they cannot be read. -/
def blockDefinitions (options : ReadOptions) (block : Statement) : List Definition :=
  (readDefinitions options block.contents).toOption.getD []

def inlineDefinitions (options : ReadOptions) (statement : Statement) : List Definition :=
  (ofKind .definitions statement.contents).flatMap (blockDefinitions options)

def nodeStatements (statement : Statement) : List Statement :=
  (ofKind .nodes statement.contents).flatMap (·.contents)

def Request.ofDefines (catalog : Catalog) (statements : List Statement) : List Request :=
  ((ofKind .defines statements).flatMap (·.contents)).filterMap (ofDefine? catalog)

structure Draft.Gains (context : Context) (statements : List Statement) (draft draft' : Draft) :
    Prop where
  nodeBlocks : draft'.nodeBlocks = draft.nodeBlocks ++ ofKind .nodes statements
  definitions : draft'.definitions = draft.definitions ++
    (ofKind .definitions statements).flatMap (blockDefinitions context.options)
  readable : ∀ block ∈ ofKind .definitions statements,
    readDefinitions context.options block.contents = .ok (blockDefinitions context.options block)
  defines : draft'.technique.defines =
    draft.technique.defines.grant (Request.ofDefines context.catalog statements)

section

variable {context : Context} {statement : Statement} {statements : List Statement}
  {draft draft' draft'' : Draft}

theorem ofDefine?_of_read {catalog : Catalog} {d : Draft.Define}
    (h : Draft.Define.read catalog statement = .ok d) :
    d.bound? = (Request.ofDefine? catalog statement).map Request.binding := by
  unfold Draft.Define.read at h
  unfold Request.ofDefine?
  split at h
  · next hfields =>
    cases h
    rw [hfields]
    rfl
  · next define name hfields =>
    rw [hfields]
    cases hp : catalog.param? name with
    | none =>
      rw [hp] at h
      cases h
    | some param =>
      rw [hp] at h
      cases h
      dsimp only
      rw [hp]
      rfl
  · cases h

theorem grant_of_defines {catalog : Catalog} {ds : List Draft.Define}
    (h : statements.mapM (Draft.Define.read catalog) = .ok ds) (t : DefineTable) :
    (ds.filterMap Draft.Define.bound?).foldl DefineTable.bind t =
      t.grant (statements.filterMap (Request.ofDefine? catalog)) := by
  induction statements generalizing ds t with
  | nil =>
    obtain rfl := Attempt.except_pure_eq_ok.mp h
    rfl
  | cons s statements ih =>
    rw [List.mapM_cons] at h
    obtain ⟨d, hd, h⟩ := Attempt.except_bind_eq_ok.mp h
    obtain ⟨ds', hds, h⟩ := Attempt.except_bind_eq_ok.mp h
    obtain rfl := Attempt.except_pure_eq_ok.mp h
    have hbound := ofDefine?_of_read hd
    cases hr : Request.ofDefine? catalog s with
    | none =>
      rw [hr] at hbound
      rw [List.filterMap_cons_none hbound, List.filterMap_cons_none hr]
      exact ih hds t
    | some request =>
      rw [hr] at hbound
      rw [List.filterMap_cons_some hbound, List.filterMap_cons_some hr]
      exact ih hds _

namespace Draft

theorem Gains.refl (draft : Draft) : Gains context [] draft draft where
  nodeBlocks := (List.append_nil _).symm
  definitions := (List.append_nil _).symm
  readable := fun _ hb => absurd hb List.not_mem_nil
  defines := rfl

theorem Gains.cons (h : Gains context [statement] draft draft')
    (h' : Gains context statements draft' draft'') :
    Gains context (statement :: statements) draft draft'' := by
  have split : ∀ kind, ofKind kind (statement :: statements) =
      ofKind kind [statement] ++ ofKind kind statements :=
    fun kind => List.filter_append [statement] statements
  constructor
  · rw [h'.nodeBlocks, h.nodeBlocks, split, List.append_assoc]
  · rw [h'.definitions, h.definitions, split, List.flatMap_append, List.append_assoc]
  · intro block hb
    rw [split, List.mem_append] at hb
    exact hb.elim (h.readable block) (h'.readable block)
  · rw [h'.defines, h.defines, ← DefineTable.grant_append, Request.ofDefines, Request.ofDefines,
      Request.ofDefines, split, List.flatMap_append, List.filterMap_append]

/-- Where an entry comes from, as far as it counts here. -/
def Entry.ComesFrom (context : Context) (statement : Statement) : Entry → Prop
  | .nodes block => block = statement
  | .definitions ds => readDefinitions context.options statement.contents = .ok ds
  | .defines ds => statement.contents.mapM (Define.read context.catalog) = .ok ds
  | _ => True

theorem Entry.comesFrom_of_map {α : Type} {r : Except Fault α} {f : α → Entry} {e : Entry}
    (h : r.map f = .ok e) (hf : ∀ a, r = .ok a → (f a).ComesFrom context statement) :
    e.ComesFrom context statement := by
  cases r with
  | error fault => cases h
  | ok a =>
    cases h
    exact hf a rfl

theorem Entry.comesFrom_of_read {e : Entry} (h : Entry.read context statement = .ok e) :
    e.ComesFrom context statement := by
  simp only [Entry.read] at h
  split_ifs at h
  · exact Entry.comesFrom_of_map h fun _ _ => trivial
  · exact Entry.comesFrom_of_map h fun _ hr => hr
  · exact Entry.comesFrom_of_map h fun _ hr => hr
  · cases h
    rfl
  · cases h
    trivial
  · split at h
    · obtain ⟨stage, -, h⟩ := Attempt.except_bind_eq_ok.mp h
      obtain ⟨source, -, h⟩ := Attempt.except_bind_eq_ok.mp h
      obtain rfl := Attempt.except_pure_eq_ok.mp h
      trivial
    · cases h

theorem gains_of_read (h : draft.read context statement = .ok draft') :
    Gains context [statement] draft draft' := by
  rw [Draft.read_eq] at h
  cases hr : Entry.read context statement with
  | error fault =>
    rw [hr] at h
    cases h
  | ok e =>
    rw [hr] at h
    cases h
    have hkind := Entry.kind?_of_read hr
    have hfrom := Entry.comesFrom_of_read hr
    have only : ∀ kind, ofKind kind [statement] =
        if e.kind? = some kind then [statement] else [] := by
      intro kind
      simp [ofKind, List.filter_cons, ← hkind]
    cases e with
    | nodes block =>
      obtain rfl : block = statement := hfrom
      constructor <;> simp [only, Entry.kind?, Draft.add, Request.ofDefines]
    | definitions ds =>
      have hread : readDefinitions context.options statement.contents = .ok ds := hfrom
      constructor <;> simp [only, Entry.kind?, Draft.add, Request.ofDefines, blockDefinitions,
        hread, Except.toOption]
    | defines ds =>
      have hgrant := grant_of_defines hfrom draft.technique.defines
      constructor <;> simp [only, Entry.kind?, Draft.add, Request.ofDefines, Draft.setTechnique,
        hgrant]
    | worldParameters bindings =>
      constructor <;> simp [only, Entry.kind?, Draft.add, Request.ofDefines, Draft.setTechnique]
    | source stage source =>
      constructor <;> simp [only, Entry.kind?, Draft.add, Request.ofDefines, Draft.setTechnique]
    | nothing =>
      constructor <;> simp [only, Entry.kind?, Draft.add, Request.ofDefines]

theorem gains_of_foldlM_read (h : statements.foldlM (Draft.read context) draft = .ok draft') :
    Gains context statements draft draft' := by
  induction statements generalizing draft with
  | nil =>
    obtain rfl := Attempt.except_pure_eq_ok.mp h
    exact .refl draft
  | cons s statements ih =>
    rw [List.foldlM_cons] at h
    obtain ⟨draft₁, hs, h⟩ := Attempt.except_bind_eq_ok.mp h
    exact (gains_of_read hs).cons (ih h)

end Draft

theorem gains_of_drafts (h : Drafts context statement draft) :
    ∃ name, Draft.Gains context statement.contents { technique := .empty name } draft := by
  obtain ⟨name, -, h⟩ := h
  exact ⟨name, Draft.gains_of_foldlM_read h⟩

theorem definitions_of_drafts (h : Drafts context statement draft) :
    draft.definitions = inlineDefinitions context.options statement := by
  obtain ⟨name, hgains⟩ := gains_of_drafts h
  rw [hgains.definitions]
  rfl

/-- The blocks of a draft are the nodes of its statement. -/
theorem forM_nodeBlocks (h : Drafts context statement draft) (context' : Context) :
    (draft.nodeBlocks.forM fun block => Graph.readNodes context' block.contents) =
      Graph.readNodes context' (nodeStatements statement) := by
  obtain ⟨name, hgains⟩ := gains_of_drafts h
  rw [forM_readNodes, hgains.nodeBlocks]
  rfl

/-- The nodes that are read are those of the statement, and all that there are. -/
theorem addsNodes_of_drafts {g : Graph} {warnings : List Warning}
    (hdraft : Drafts context statement draft)
    (h : (draft.nodeBlocks.forM fun block => Graph.readNodes context block.contents)
      ⟨draft.technique, draft.definitions, warnings⟩ = (.ok (), g)) :
    AddsNodes context (nodeStatements statement) g.technique.nodes
      ⟨draft.technique, inlineDefinitions context.options statement, warnings⟩ g := by
  rw [forM_nodeBlocks hdraft, definitions_of_drafts hdraft] at h
  obtain ⟨nodes, hadds⟩ := addsNodes_of_readNodes h
  have hnodes : g.technique.nodes = nodes := by
    rw [hadds.nodes_eq, (blank_of_drafts hdraft).nodes, List.nil_append]
  rwa [hnodes]

end

/-! ## Techniques -/

/-- All that a technique that is read from the statement was asked for, in this order: the lines
first, then node by node. Without nodes, because the shaders are given as files, only the lines
count. -/
def Technique.requests (context : Context) (statement : Statement) (t : Technique) :
    List Request :=
  Request.ofDefines context.catalog statement.contents ++
    Request.ofNodes context.catalog (nodeStatements statement) (t.nodes.map (·.definition))

/-- The defines of a technique are what its text asks for. -/
theorem defines_of_asRead {context : Context} {statement : Statement} {warnings : List Warning}
    {t : Technique} (h : AsRead context statement warnings t) :
    t.defines = DefineTable.empty.grant (t.requests context statement) := by
  cases h with
  | @sources draft hdraft _ =>
    obtain ⟨name, hgains⟩ := gains_of_drafts hdraft
    rw [Technique.requests, (blank_of_drafts hdraft).nodes, hgains.defines]
    simp [Request.ofNodes, Technique.empty]
  | @nodes draft g hdraft _ hblocks =>
    obtain ⟨name, hgains⟩ := gains_of_drafts hdraft
    rw [Technique.requests, (addsNodes_of_drafts hdraft hblocks).defines_eq, hgains.defines,
      DefineTable.grant_append]
    rfl

end ShaderGraph
