/-
  ShaderGraph.Proofs.Lookup — which definition a node gets, and from which file.

  The definitions that are written in a technique are known from the start. A `Definition` line
  whose name is not known loads the file that it gives, and all the definitions of the file are
  known from then on, behind those known before. Of two definitions with one name the first
  counts, wherever they stand.

  - `FirstWritten`: what is read from statements is, of each name, the first that is written.
  - `Loads`: the files that lines load, one line after the other.
  - `Loads.nodup`: no file is loaded twice.
  - `readNodes_congr`: a store that answers alike for the files that are loaded gives the same
    nodes.
  - `firstDefined_of_readTechnique`: so a node has the first definition of the name on its line,
    and a technique depends on the files that its lines load and on no others.
-/

import Mathlib.Data.List.Forall2
import ShaderGraph.Proofs.Requests
import ShaderGraph.Proofs.Settling
import ShaderGraph.Proofs.Signatures

namespace ShaderGraph

open Block (Statement)
open ShaderGraph.Graph (DefinitionLine)

/-! ## The first of a name -/

def firstNamed? (name : String) (statements : List Statement) : Option Statement :=
  statements.find? (·.afterKeyword? "ShaderNodeDefinition" == some name)

def FirstWritten (options : ReadOptions) (statements : List Statement)
    (definitions : List Definition) : Prop :=
  ∀ name, (definitions.find? (·.name == name)).map .ok =
    (firstNamed? name statements).map (readDefinition options name)

section

variable {options : ReadOptions} {statement : Statement} {statements statements' : List Statement}
  {ds ds' : List Definition}

theorem readDefinition_ok {name : String} {d : Definition}
    (h : readDefinition options name statement = .ok d) : d.name = name ∧ d.path = none := by
  obtain ⟨s, -, h⟩ := Attempt.except_bind_eq_ok.mp h
  split at h
  · cases h
  · cases h
    exact ⟨rfl, rfl⟩

theorem path_of_readDefinitions (h : readDefinitions options statements = .ok ds) :
    ∀ d ∈ ds, d.path = none :=
  forall_of_readDefinitionsExcept (fun _ _ _ hd => (readDefinition_ok hd).2) h

/-- A name that was not passed over before is found in its first statement. -/
theorem find?_of_readDefinitionsExcept {names : List String} {name : String}
    (h : readDefinitionsExcept options names statements = .ok ds) (hname : name ∉ names) :
    (ds.find? (·.name == name)).map .ok =
      (firstNamed? name statements).map (readDefinition options name) := by
  induction statements generalizing names ds with
  | nil =>
    cases h
    rfl
  | cons s statements ih =>
    cases hs : s.afterKeyword? "ShaderNodeDefinition" with
    | none =>
      simp only [readDefinitionsExcept, hs] at h
      cases h
    | some other =>
      simp only [readDefinitionsExcept, hs] at h
      split at h
      · next hknown =>
        have hne : other ≠ name := by
          rintro rfl
          exact hname (by simpa using hknown)
        rw [ih h hname, firstNamed?, firstNamed?, List.find?_cons_of_neg (by simpa [hs] using hne)]
      · obtain ⟨d, hd, h⟩ := Attempt.except_bind_eq_ok.mp h
        obtain ⟨rest, hrest, h⟩ := Attempt.except_bind_eq_ok.mp h
        cases h
        have hdname := (readDefinition_ok hd).1
        by_cases he : other = name
        · subst he
          rw [List.find?_cons_of_pos (by simp [hdname]), firstNamed?,
            List.find?_cons_of_pos (by simp [hs]), Option.map_some, Option.map_some, hd]
        · rw [List.find?_cons_of_neg (by simpa [hdname] using he), firstNamed?,
            List.find?_cons_of_neg (by simpa [hs] using he)]
          refine ih hrest fun hmem => ?_
          rcases List.mem_cons.mp hmem with rfl | hmem
          · exact he rfl
          · exact hname hmem

theorem firstWritten_of_readDefinitions (h : readDefinitions options statements = .ok ds) :
    FirstWritten options statements ds :=
  fun _ => find?_of_readDefinitionsExcept h List.not_mem_nil

theorem FirstWritten.append (h : FirstWritten options statements ds)
    (h' : FirstWritten options statements' ds') :
    FirstWritten options (statements ++ statements') (ds ++ ds') := by
  intro name
  rw [List.find?_append, Option.map_or, h name, h' name, firstNamed?, firstNamed?, firstNamed?,
    List.find?_append, Option.map_or]

/-- Blocks of definitions are read as if they were one. -/
theorem firstWritten_of_blocks {blocks : List Statement}
    (h : ∀ block ∈ blocks,
      readDefinitions options block.contents = .ok (blockDefinitions options block)) :
    FirstWritten options (blocks.flatMap (·.contents))
      (blocks.flatMap (blockDefinitions options)) := by
  induction blocks with
  | nil => exact fun _ => rfl
  | cons block blocks ih =>
    rw [List.flatMap_cons, List.flatMap_cons]
    have hblock := firstWritten_of_readDefinitions (h block List.mem_cons_self)
    exact hblock.append (ih fun b hb => h b (List.mem_cons_of_mem block hb))

theorem blockDefinitions_of_ok (h : readDefinitions options statement.contents = .ok ds) :
    blockDefinitions options statement = ds := by
  rw [blockDefinitions, h]
  rfl

theorem blocks_of_mapM {blocks : List Statement} {read : Statement → Except Fault (List Definition)}
    (hread : ∀ s ds, read s = .ok ds → readDefinitions options s.contents = .ok ds)
    {dss : List (List Definition)} (h : blocks.mapM read = .ok dss) :
    dss = blocks.map (blockDefinitions options) ∧ ∀ block ∈ blocks,
      readDefinitions options block.contents = .ok (blockDefinitions options block) := by
  induction blocks generalizing dss with
  | nil =>
    obtain rfl := Attempt.except_pure_eq_ok.mp h
    exact ⟨rfl, fun _ hb => absurd hb List.not_mem_nil⟩
  | cons block blocks ih =>
    rw [List.mapM_cons] at h
    obtain ⟨ds, hds, h⟩ := Attempt.except_bind_eq_ok.mp h
    obtain ⟨rest, hrest, h⟩ := Attempt.except_bind_eq_ok.mp h
    obtain rfl := Attempt.except_pure_eq_ok.mp h
    obtain ⟨rfl, hall⟩ := ih hrest
    have hblock := hread block ds hds
    obtain rfl := blockDefinitions_of_ok hblock
    exact ⟨rfl, List.forall_mem_cons.mpr ⟨hblock, hall⟩⟩

theorem firstWritten_of_readDefinitionFile {text : String}
    (h : readDefinitionFile options text = .ok ds) :
    ∃ blocks, readStatements text = .ok blocks ∧
      FirstWritten options (blocks.flatMap (·.contents)) ds := by
  obtain ⟨blocks, hblocks, h⟩ := Attempt.except_bind_eq_ok.mp h
  obtain ⟨dss, hdss, h⟩ := Attempt.except_bind_eq_ok.mp h
  obtain rfl := Attempt.except_pure_eq_ok.mp h
  obtain ⟨rfl, hall⟩ := blocks_of_mapM (fun s ds hs => by
    split at hs
    · exact hs
    · cases hs) hdss
  exact ⟨blocks, hblocks, List.flatMap_def ▸ firstWritten_of_blocks hall⟩

end

def definitionStatements (statement : Statement) : List Statement :=
  (ofKind .definitions statement.contents).flatMap (·.contents)

theorem Draft.Gains.inline {context : Context} {statement : Statement} {draft draft' : Draft}
    (h : Draft.Gains context statement.contents draft draft') :
    FirstWritten context.options (definitionStatements statement)
        (inlineDefinitions context.options statement) ∧
      ∀ d ∈ inlineDefinitions context.options statement, d.path = none := by
  refine ⟨firstWritten_of_blocks h.readable, fun d hd => ?_⟩
  obtain ⟨block, hblock, hd⟩ := List.mem_flatMap.mp hd
  exact path_of_readDefinitions (h.readable block hblock) d hd

/-! ## Files that are loaded -/

/-- The definitions that a file adds to those known; none if it cannot be read. -/
def Context.fileDefinitions (context : Context) (path : String) : List Definition :=
  ((context.assets.definitions context.options path).toOption.getD []).map
    (Definition.fromFile path)

/-- The files that lines load one after the other, from what is known before the first: a line
whose name is known loads none, and any other its own. -/
inductive Loads (context : Context) : List Definition → List DefinitionLine → List String → Prop
  | nil {library : List Definition} : Loads context library [] []
  | known {library : List Definition} {line : DefinitionLine} {lines : List DefinitionLine}
      {paths : List String} {definition : Definition} :
      library.find? (·.name == line.name) = some definition →
      Loads context library lines paths → Loads context library (line :: lines) paths
  | loaded {library : List Definition} {line : DefinitionLine} {lines : List DefinitionLine}
      {path : String} {paths : List String} {definition : Definition} :
      library.find? (·.name == line.name) = none → line.path = some path →
      (context.fileDefinitions path).find? (·.name == line.name) = some definition →
      Loads context (library ++ context.fileDefinitions path) lines paths →
      Loads context library (line :: lines) (path :: paths)

section

variable {context : Context} {path : String} {library library' : List Definition}
  {line : DefinitionLine} {lines : List DefinitionLine} {paths paths' : List String}
  {definition : Definition} {assets : AssetStore}

theorem fileDefinitions_of_ok {ds : List Definition}
    (h : context.assets.definitions context.options path = .ok ds) :
    context.fileDefinitions path = ds.map (Definition.fromFile path) := by
  rw [Context.fileDefinitions, h]
  rfl

theorem path_of_mem_fileDefinitions (h : definition ∈ context.fileDefinitions path) :
    definition.path = some path := by
  obtain ⟨d, -, rfl⟩ := List.mem_map.mp h
  rfl

/-- A file of which something is known was read. -/
theorem read_of_mem_fileDefinitions (h : definition ∈ context.fileDefinitions path) :
    ∃ text ds, context.assets.read path = .ok text ∧
      readDefinitionFile context.options text = .ok ds ∧
      context.fileDefinitions path = ds.map (Definition.fromFile path) := by
  cases hds : context.assets.definitions context.options path with
  | error fault =>
    rw [Context.fileDefinitions, hds] at h
    exact absurd h List.not_mem_nil
  | ok ds =>
    have hfile := fileDefinitions_of_ok hds
    unfold AssetStore.definitions at hds
    split at hds
    · cases hds
    · next text htext => exact ⟨text, ds, htext, Attempt.mapError_ok_iff.mp hds, hfile⟩

/-- What is found in the library after a line was looked up, and what it was before. -/
theorem FindsDefinition.cases_file
    (h : FindsDefinition context line library definition library') :
    (library.find? (·.name == line.name) = some definition ∧ library' = library) ∨
      ∃ path, library.find? (·.name == line.name) = none ∧ line.path = some path ∧
        (context.fileDefinitions path).find? (·.name == line.name) = some definition ∧
        library' = library ++ context.fileDefinitions path := by
  cases h with
  | known hk => exact Or.inl ⟨hk, rfl⟩
  | @loaded path ds _ hk hp hds hd =>
    rw [List.find?_append, hk, Option.none_or, ← fileDefinitions_of_ok hds] at hd
    exact Or.inr ⟨path, hk, hp, hd, by rw [fileDefinitions_of_ok hds]⟩

namespace Loads

/-- A file is loaded for a definition of a name that is new. -/
theorem exists_new (h : Loads context library lines paths) (hp : path ∈ paths) :
    ∃ d ∈ context.fileDefinitions path, library.find? (·.name == d.name) = none := by
  induction h with
  | nil => exact absurd hp List.not_mem_nil
  | known _ _ ih => exact ih hp
  | loaded hnew _ hfound _ ih =>
    rcases List.mem_cons.mp hp with rfl | hp
    · have hname := by simpa using List.find?_some hfound
      exact ⟨_, List.mem_of_find?_eq_some hfound, hname ▸ hnew⟩
    · obtain ⟨d, hd, hnone⟩ := ih hp
      rw [List.find?_append, Option.or_eq_none_iff] at hnone
      exact ⟨d, hd, hnone.1⟩

/-- No file is loaded twice: nothing in it is new the second time. -/
theorem nodup (h : Loads context library lines paths) : paths.Nodup := by
  induction h with
  | nil => exact List.nodup_nil
  | known _ _ ih => exact ih
  | loaded _ _ _ hrest ih =>
    refine List.nodup_cons.mpr ⟨fun hagain => ?_, ih⟩
    obtain ⟨d, hd, hnone⟩ := hrest.exists_new hagain
    exact List.find?_eq_none.mp hnone d (List.mem_append_right _ hd) (beq_self_eq_true _)

/-- The file of a line whose name is new is among those that are loaded. -/
theorem mem_of_new (h : Loads context library (line :: lines) paths)
    (hnew : library.find? (·.name == line.name) = none) (hpath : line.path = some path) :
    path ∈ paths := by
  cases h with
  | known hknown _ =>
    rw [hnew] at hknown
    cases hknown
  | loaded _ hpath' _ _ =>
    obtain rfl := Option.some.inj (hpath.symm.trans hpath')
    exact List.mem_cons_self

/-- Once a line is looked up, the lines after it load what is left. -/
theorem tail (h : Loads context library (line :: lines) paths)
    (hf : FindsDefinition context line library definition library') :
    ∃ rest, Loads context library' lines rest ∧ rest ⊆ paths := by
  rcases hf.cases_file with ⟨hknown, rfl⟩ | ⟨path, hnew, hpath, -, rfl⟩
  · cases h with
    | known _ hrest => exact ⟨_, hrest, List.Subset.refl _⟩
    | loaded hnone _ _ _ =>
      rw [hknown] at hnone
      cases hnone
  · cases h with
    | known hsome _ =>
      rw [hnew] at hsome
      cases hsome
    | loaded _ hpath' _ hrest =>
      obtain rfl := Option.some.inj (hpath.symm.trans hpath')
      exact ⟨_, hrest, List.subset_cons_self _ _⟩

/-- The files are read in full. -/
theorem firstWritten (h : Loads context library lines paths) (hp : path ∈ paths) :
    ∃ text blocks ds, context.assets.read path = .ok text ∧ readStatements text = .ok blocks ∧
      FirstWritten context.options (blocks.flatMap (·.contents)) ds ∧
      context.fileDefinitions path = ds.map (Definition.fromFile path) := by
  obtain ⟨d, hd, -⟩ := h.exists_new hp
  obtain ⟨text, ds, htext, hread, hfile⟩ := read_of_mem_fileDefinitions hd
  obtain ⟨blocks, hblocks, hfirst⟩ := firstWritten_of_readDefinitionFile hread
  exact ⟨text, blocks, ds, htext, hblocks, hfirst, hfile⟩

end Loads

/-! ## Another store -/

theorem fileDefinitions_congr (h : assets.read path = context.assets.read path) :
    ({ context with assets } : Context).fileDefinitions path = context.fileDefinitions path := by
  simp only [Context.fileDefinitions, AssetStore.definitions, h]

/-- A file that lines load from a store is loaded from any other that differs in this file
alone. -/
theorem Loads.mem_of_differ (h : Loads context library lines paths)
    (h' : Loads { context with assets } library lines paths')
    (hagree : ∀ p, p ≠ path → assets.read p = context.assets.read p) (hp : path ∈ paths) :
    path ∈ paths' := by
  induction h generalizing paths' with
  | nil => exact absurd hp List.not_mem_nil
  | known hknown _ ih =>
    cases h' with
    | known _ hrest => exact ih hrest hp
    | loaded hnew _ _ _ =>
      rw [hknown] at hnew
      cases hnew
  | @loaded _ _ _ first _ _ hnew hfirst _ _ ih =>
    cases h' with
    | known hknown _ =>
      rw [hnew] at hknown
      cases hknown
    | @loaded _ _ _ other _ _ _ hother _ hrest =>
      obtain rfl : first = other := Option.some.inj (hfirst.symm.trans hother)
      by_cases he : path = first
      · exact he ▸ List.mem_cons_self
      · rw [fileDefinitions_congr (hagree first fun heq => he heq.symm)] at hrest
        exact List.mem_cons_of_mem _ (ih hrest ((List.mem_cons.mp hp).resolve_left he))

end

/-! ## Nodes that are read -/

def Defined (library : List Definition) (definition : Definition) (line : DefinitionLine) : Prop :=
  library.find? (·.name == line.name) = some definition

section

variable {context : Context} {statement : Statement} {statements : List Statement} {node : Node}
  {nodes : List Node} {lines : List DefinitionLine} {paths : List String} {assets : AssetStore}
  {g g' : Graph}

/-- What is found stays when more definitions follow. -/
theorem Defined.append {library : List Definition} {line : DefinitionLine}
    {definition : Definition} (h : Defined library definition line) (more : List Definition) :
    Defined (library ++ more) definition line := by
  rw [Defined, List.find?_append, show library.find? _ = _ from h, Option.some_or]

/-- The library grows by the files that are loaded, and each node has its definition from it. -/
theorem loads_of_addsNodes (h : AddsNodes context statements nodes g g') :
    ∃ lines paths, statements.mapM definitionLine? = some lines ∧
      Loads context g.library lines paths ∧
      g'.library = g.library ++ paths.flatMap context.fileDefinitions ∧
      List.Forall₂ (Defined g'.library) (nodes.map (·.definition)) lines := by
  induction h with
  | nil => exact ⟨[], [], rfl, .nil, (List.append_nil _).symm, .nil⟩
  | @cons s statements node nodes g g₁ g' hnode _ ih =>
    obtain ⟨line, hline, hfinds⟩ := hnode.finds
    obtain ⟨lines, paths, hlines, hloads, hlibrary, hdefined⟩ := ih
    have hmapM : (s :: statements).mapM definitionLine? = some (line :: lines) := by
      rw [List.mapM_cons, hline, hlines]
      rfl
    rcases hfinds.cases_file with ⟨hknown, hsame⟩ | ⟨path, hnew, hpath, hfound, hmore⟩
    · have hfirst : Defined g₁.library node.definition line := hsame.symm ▸ hknown
      rw [hsame] at hloads
      refine ⟨line :: lines, paths, hmapM, .known hknown hloads, hsame ▸ hlibrary, ?_⟩
      exact .cons (hlibrary ▸ hfirst.append _) hdefined
    · have hfirst : Defined g₁.library node.definition line := by
        rw [Defined, hmore, List.find?_append, hnew, Option.none_or, hfound]
      rw [hmore] at hloads
      refine ⟨line :: lines, path :: paths, hmapM, .loaded hnew hpath hfound hloads, ?_, ?_⟩
      · rw [hlibrary, hmore, List.flatMap_cons, List.append_assoc]
      · exact .cons (hlibrary ▸ hfirst.append _) hdefined

def AgreesFor (context : Context) (assets : AssetStore) (library : List Definition)
    (line? : Option DefinitionLine) : Prop :=
  ∀ line path, line? = some line → library.find? (·.name == line.name) = none →
    line.path = some path → assets.read path = context.assets.read path

theorem loadFile_congr {path : String} (h : assets.read path = context.assets.read path) :
    Graph.loadFile { context with assets } statement path =
      Graph.loadFile context statement path := by
  simp only [Graph.loadFile, AssetStore.definitions, h]

/-- A look-up depends on the store only through the file that it loads. -/
theorem findDefinition_congr
    (h : AgreesFor context assets g.library (DefinitionLine.ofLine? statement.line)) :
    Graph.findDefinition { context with assets } statement g =
      Graph.findDefinition context statement g := by
  unfold Graph.findDefinition
  cases hl : DefinitionLine.ofLine? statement.line with
  | none => rfl
  | some line =>
    simp only [Attempt.run_bind, Attempt.run_get]
    cases hk : g.known? line.name with
    | some _ => rfl
    | none =>
      cases hp : line.path with
      | none => rfl
      | some path =>
        dsimp only
        rw [loadFile_congr (h line path hl hk hp)]

theorem readNode_congr {name : String}
    (h : AgreesFor context assets g.library (definitionLine? statement)) :
    Graph.readNode { context with assets } name statement g =
      Graph.readNode context name statement g := by
  unfold Graph.readNode
  cases hc : statement.contents with
  | nil => rfl
  | cons first rest =>
    rw [definitionLine?, hc] at h
    dsimp only
    split
    · rfl
    · rw [Attempt.run_bind, Attempt.run_bind, findDefinition_congr h]
      -- the statements after the first do not ask the store
      rfl

theorem readAndAddNode_congr (h : AgreesFor context assets g.library (definitionLine? statement)) :
    Graph.readAndAddNode { context with assets } statement g =
      Graph.readAndAddNode context statement g := by
  unfold Graph.readAndAddNode
  cases statement.afterKeyword? "ShaderNode " with
  | none => rfl
  | some name =>
    simp only [Attempt.run_bind, Attempt.run_get]
    split
    · rfl
    · simp only [Attempt.run_bind, readNode_congr h]

/-- Nodes are the same with a store that answers alike for the files that they load. -/
theorem readNodes_congr (hlines : statements.mapM definitionLine? = some lines)
    (hloads : Loads context g.library lines paths)
    (hagree : ∀ path ∈ paths, assets.read path = context.assets.read path) :
    Graph.readNodes { context with assets } statements g =
      Graph.readNodes context statements g := by
  induction statements generalizing g lines paths with
  | nil => rfl
  | cons s statements ih =>
    rw [List.mapM_cons] at hlines
    simp only [Option.bind_eq_bind, Option.bind_eq_some_iff, Option.pure_def,
      Option.some.injEq] at hlines
    obtain ⟨line, hline, lines, hrest, rfl⟩ := hlines
    have hfile : AgreesFor context assets g.library (definitionLine? s) := by
      intro other path hother hnew hpath
      obtain rfl : line = other := Option.some.inj (hline.symm.trans hother)
      exact hagree path (hloads.mem_of_new hnew hpath)
    show (Graph.readAndAddNode { context with assets } s >>= fun _ =>
        Graph.readNodes { context with assets } statements) g =
      (Graph.readAndAddNode context s >>= fun _ => Graph.readNodes context statements) g
    rw [Attempt.run_bind, Attempt.run_bind, readAndAddNode_congr hfile]
    cases hs : Graph.readAndAddNode context s g with
    | mk r g₁ =>
      cases r with
      | error fault => rfl
      | ok u =>
        obtain ⟨node, hnode⟩ := addsNode_of_readAndAddNode hs
        obtain ⟨other, hother, hfinds⟩ := hnode.finds
        obtain rfl : line = other := Option.some.inj (hline.symm.trans hother)
        obtain ⟨rest, hloads, hsub⟩ := hloads.tail hfinds
        exact ih hrest hloads fun p hp => hagree p (hsub hp)

end

/-! ## Techniques -/

/-- The lines of the nodes are looked up one after the other, in what is written in the technique
and in the files that they load, and each node has what is found. -/
structure LooksUp (context : Context) (statement : Statement) (nodes : List Node)
    (lines : List DefinitionLine) (paths : List String) : Prop where
  lines_eq : (nodeStatements statement).mapM definitionLine? = some lines
  loads : Loads context (inlineDefinitions context.options statement) lines paths
  defined : List.Forall₂ (Defined (inlineDefinitions context.options statement ++
    paths.flatMap context.fileDefinitions)) (nodes.map (·.definition)) lines

structure DependsOn (context : Context) (statement : Statement) (paths : List String) : Prop where
  /-- A store with the same texts for these files gives the same. -/
  enough : ∀ assets : AssetStore,
    (∀ path ∈ paths, assets.read path = context.assets.read path) → ∀ warnings,
    readTechnique { context with assets } statement warnings =
      readTechnique context statement warnings
  /-- A store from which just one of these files cannot be read gives no technique. -/
  needed : ∀ path ∈ paths, ∀ (assets : AssetStore) (reason : Unreadable),
    assets.read path = .error reason →
    (∀ p, p ≠ path → assets.read p = context.assets.read p) → ∀ t warnings warnings',
    readTechnique { context with assets } statement warnings ≠ (.ok (some t), warnings')

section

variable {context : Context} {statement : Statement} {draft draft' : Draft} {g : Graph}
  {nodes : List Node} {lines : List DefinitionLine} {paths : List String}
  {warnings warnings' : List Warning} {assets : AssetStore}

theorem drafts_unique (h : Drafts context statement draft) (h' : Drafts context statement draft') :
    draft = draft' := by
  obtain ⟨name, hname, h⟩ := h
  obtain ⟨name', hname', h'⟩ := h'
  obtain rfl := Option.some.inj (hname.symm.trans hname')
  exact Except.ok.inj (h.symm.trans h')

theorem looksUp_of_blocks (hdraft : Drafts context statement draft)
    (h : (draft.nodeBlocks.forM fun block => Graph.readNodes context block.contents)
      ⟨draft.technique, draft.definitions, warnings⟩ = (.ok (), g)) :
    ∃ lines paths, LooksUp context statement g.technique.nodes lines paths := by
  obtain ⟨lines, paths, hlines, hloads, hlibrary, hdefined⟩ :=
    loads_of_addsNodes (addsNodes_of_drafts hdraft h)
  exact ⟨lines, paths, hlines, hloads, hlibrary ▸ hdefined⟩

/-- A technique is the same with a store that answers alike for the files that it loads. -/
theorem LooksUp.readTechnique_congr (h : LooksUp context statement nodes lines paths)
    (hdraft : Drafts context statement draft) (hsources : draft.hasSources = false)
    (hagree : ∀ path ∈ paths, assets.read path = context.assets.read path) :
    readTechnique { context with assets } statement warnings =
      readTechnique context statement warnings := by
  have hbuild : buildGraph { context with assets } draft = buildGraph context draft := by
    funext warnings
    unfold buildGraph
    rw [forM_nodeBlocks hdraft, forM_nodeBlocks hdraft, definitions_of_drafts hdraft]
    dsimp only
    rw [readNodes_congr h.lines_eq h.loads hagree]
  -- no statement before the nodes asks the store
  have hread : Draft.read { context with assets } = Draft.read context := rfl
  obtain ⟨name, hname, hfold⟩ := hdraft
  simp only [readTechnique, hname, hread, hfold, Attempt.run_bind, Attempt.run_ofExcept, hsources,
    hbuild]

/-- Without one of the files that it loads there is no technique. -/
theorem LooksUp.not_read (h : LooksUp context statement nodes lines paths)
    (hdraft : Drafts context statement draft) (hsources : draft.hasSources = false)
    {path : String} (hp : path ∈ paths) {reason : Unreadable}
    (hmissing : assets.read path = .error reason)
    (hagree : ∀ p, p ≠ path → assets.read p = context.assets.read p) (t : Technique) :
    readTechnique { context with assets } statement warnings ≠ (.ok (some t), warnings') := by
  intro hok
  obtain ⟨t₀, hread, -⟩ := asRead_of_readTechnique hok
  cases hread with
  | sources hdraft' hsources' =>
    rw [← drafts_unique hdraft hdraft', hsources] at hsources'
    cases hsources'
  | nodes hdraft' _ hblocks =>
    obtain ⟨lines', paths', h'⟩ := looksUp_of_blocks hdraft' hblocks
    obtain rfl := Option.some.inj (h.lines_eq.symm.trans h'.lines_eq)
    obtain ⟨text, -, -, htext, -⟩ :=
      h'.loads.firstWritten (h.loads.mem_of_differ h'.loads hagree hp)
    exact absurd (hmissing.symm.trans htext) nofun

theorem LooksUp.dependsOn (h : LooksUp context statement nodes lines paths)
    (hdraft : Drafts context statement draft) (hsources : draft.hasSources = false) :
    DependsOn context statement paths where
  enough _ hagree _ := h.readTechnique_congr hdraft hsources hagree
  needed _ hp _ _ hmissing hagree t _ _ := h.not_read hdraft hsources hp hmissing hagree t

/-- Nodes whose lines give one name have one definition. -/
theorem LooksUp.same (h : LooksUp context statement nodes lines paths) :
    ∀ p ∈ nodes.zip lines, ∀ q ∈ nodes.zip lines, p.2.name = q.2.name →
      p.1.definition = q.1.definition := by
  have hall : ∀ p ∈ nodes.zip lines, Defined (inlineDefinitions context.options statement ++
      paths.flatMap context.fileDefinitions) p.1.definition p.2 := by
    intro p hp
    refine (List.forall₂_iff_zip.mp h.defined).2 ?_
    rw [List.zip_map_left]
    exact List.mem_map_of_mem hp
  intro p hp q hq hname
  have hfound := hall p hp
  rw [Defined, hname] at hfound
  exact Option.some.inj (hfound.symm.trans (hall q hq))

end

/-- The definition of each node is the first one of the name on its line: first come those written
in the technique, in the order of the text, and then those of the files, in the order in which they
are loaded. -/
structure Technique.FirstDefined (context : Context) (statement : Statement) (t : Technique)
    (lines : List DefinitionLine) (paths : List String) : Prop
    extends LooksUp context statement t.nodes lines paths where
  inline : FirstWritten context.options (definitionStatements statement)
    (inlineDefinitions context.options statement)
  inline_path : ∀ d ∈ inlineDefinitions context.options statement, d.path = none
  files : ∀ path ∈ paths, ∃ text blocks ds, context.assets.read path = .ok text ∧
    readStatements text = .ok blocks ∧
    FirstWritten context.options (blocks.flatMap (·.contents)) ds ∧
    context.fileDefinitions path = ds.map (Definition.fromFile path)
  file_path : ∀ path, ∀ d ∈ context.fileDefinitions path, d.path = some path
  nodup : paths.Nodup
  same : ∀ p ∈ t.nodes.zip lines, ∀ q ∈ t.nodes.zip lines, p.2.name = q.2.name →
    p.1.definition = q.1.definition
  depends : DependsOn context statement paths

/-- Definitions are found first come, first served, and files are loaded when they are needed. -/
theorem firstDefined_of_readTechnique {context : Context} {statement : Statement}
    {warnings warnings' : List Warning} {t : Technique}
    (h : readTechnique context statement warnings = (.ok (some t), warnings'))
    (hnodes : t.source? .vertex = none ∨ t.source? .fragment = none) :
    ∃ lines paths, t.FirstDefined context statement lines paths := by
  obtain ⟨t₀, hread, rfl⟩ := asRead_of_readTechnique h
  cases hread with
  | @sources draft _ hsources =>
    have hboth := Bool.and_eq_true_iff.mp hsources
    rcases hnodes with hnone | hnone
    · exact absurd hboth.1 (by simp [show draft.technique.source? .vertex = none from hnone])
    · exact absurd hboth.2 (by simp [show draft.technique.source? .fragment = none from hnone])
  | @nodes draft g hdraft hsources hblocks =>
    obtain ⟨lines, paths, hlooks⟩ := looksUp_of_blocks hdraft hblocks
    obtain ⟨name, hgains⟩ := gains_of_drafts hdraft
    have hfinish : LooksUp context statement g.technique.finish.nodes lines paths :=
      ⟨hlooks.lines_eq, hlooks.loads, g.technique.finish_definitions ▸ hlooks.defined⟩
    exact ⟨lines, paths, {
      toLooksUp := hfinish
      inline := hgains.inline.1
      inline_path := hgains.inline.2
      files := fun path hp => hlooks.loads.firstWritten hp
      file_path := fun path d hd => path_of_mem_fileDefinitions hd
      nodup := hlooks.loads.nodup
      same := hfinish.same
      depends := hlooks.dependsOn hdraft hsources }⟩

namespace Lit

/-- A file with a definition of its own and one whose name is taken in `filedTechnique`. -/
def glowFile : String :=
  "ShaderNodeDefinitions \x7b\n  ShaderNodeDefinition Glow \x7b\n    Type : Fragment\n" ++
  "    Output \x7b\n      vec4 glow\n    \x7d\n  \x7d\n" ++
  "  ShaderNodeDefinition Place \x7b\n    Type : Vertex\n  \x7d\n\x7d\n"

def filedContext : Context where
  catalog := []
  assets := .ofFiles [("glow.j3sn", glowFile)]
  options := ⟨false⟩

def filedNode (name definition mapping : String) : Statement :=
  statement ("ShaderNode " ++ name) [
    line definition, statement "OutputMappings" [line mapping]]

/-- The first line names what is known, the second loads the file that it gives, and the third names
what is known by then, so the file that it gives need not be there. -/
def filedTechnique : Statement :=
  statement "Technique" [
    statement "VertexShaderNodes" [
      filedNode "Placed" "Definition : Place : glow.j3sn" "Global.position = placed"],
    statement "FragmentShaderNodes" [
      filedNode "Glowing" "Definition : Glow : glow.j3sn" "Global.color = glow",
      filedNode "Dimmed" "Definition : Glow : dim.j3sn" "Global.color = glow"],
    statement "ShaderNodesDefinitions" [
      statement "ShaderNodeDefinition Place" [
        line "Type: Vertex", statement "Output" [line "vec4 placed"]]],
    statement "ShaderNodesDefinitions" [
      statement "ShaderNodeDefinition Place" [line "Type: Fragment"]]]

end Lit

theorem firstDefined_filed :
    ∃ t warnings lines paths,
      readTechnique Lit.filedContext Lit.filedTechnique [] = (.ok (some t), warnings) ∧
      t.nodes.map (fun n => (n.name, n.definition.name, n.definition.path)) = [
        ("Placed", "Place", none), ("Glowing", "Glow", some "glow.j3sn"),
        ("Dimmed", "Glow", some "glow.j3sn")] ∧
      t.FirstDefined Lit.filedContext Lit.filedTechnique lines paths := by
  have hread : (readTechnique? Lit.filedContext Lit.filedTechnique).map (fun t =>
      (t.nodes.map (fun n => (n.name, n.definition.name, n.definition.path)),
        t.source? .vertex)) = some ([
          ("Placed", "Place", none), ("Glowing", "Glow", some "glow.j3sn"),
          ("Dimmed", "Glow", some "glow.j3sn")], none) := by
    decide +kernel
  obtain ⟨t, warnings, h, hread⟩ := readTechnique_of_readTechnique? hread
  simp only [Prod.mk.injEq] at hread
  obtain ⟨lines, paths, hfirst⟩ := firstDefined_of_readTechnique h (Or.inl hread.2)
  exact ⟨t, warnings, lines, paths, h, hread.1, hfirst⟩

end ShaderGraph
