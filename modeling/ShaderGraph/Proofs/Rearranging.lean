/-
  ShaderGraph.Proofs.Rearranging — the statements of a technique in another order.

  A statement of a technique adds to one part of the draft, and neither what it adds nor whether it
  can be read depends on the statements before it (`Draft.read_eq`). The nodes are read when the
  draft is complete. So the statements may be written in any order that keeps those of one kind as
  they are: the same technique is read, or none in both orders. What is reported of a technique
  with several wrong statements does depend on the order.

  - `Rearranged`: the same elements, with those of each kind in the same order.
  - `foldlM_of_rearranged`: a fold gives the same for both, if steps of different kinds commute.
  - `Draft.add_comm`: adding to different parts commutes.
  - `readTechnique_rearranged`: so the order does not matter for what is read.
-/

import ShaderGraph.Proofs.Drafting

namespace ShaderGraph

open Block (Statement)

/-! ## Elements of different kinds in another order -/

/-- The same elements, with those of each kind in the same order. An element without a kind may
stand anywhere. -/
structure Rearranged {α κ : Type} [DecidableEq κ] (kind? : α → Option κ) (xs ys : List α) :
    Prop where
  perm : xs.Perm ys
  order : ∀ k, xs.filter (kind? · == some k) = ys.filter (kind? · == some k)

section

variable {α β κ : Type} [DecidableEq κ] {kind? : α → Option κ} {x : α} {xs ys : List α}
  {f : β → α → Option β}

def Apart (kind? : α → Option κ) (x y : α) : Prop := kind? x ≠ kind? y ∨ kind? x = none

/-- The first element of the one list may be moved to the front of the other. -/
theorem Rearranged.exists_of_cons (h : Rearranged kind? (x :: xs) ys) :
    ∃ before after, ys = before ++ x :: after ∧ (∀ y ∈ before, Apart kind? x y) ∧
      Rearranged kind? xs (before ++ after) := by
  obtain ⟨before, after, rfl, hapart⟩ :
      ∃ before after, ys = before ++ x :: after ∧ ∀ y ∈ before, Apart kind? x y := by
    cases hk : kind? x with
    | none =>
      obtain ⟨before, after, rfl⟩ := List.append_of_mem (h.perm.subset List.mem_cons_self)
      exact ⟨before, after, rfl, fun _ _ => Or.inr hk⟩
    | some k =>
      have horder := h.order k
      rw [List.filter_cons_of_pos (by simp [hk])] at horder
      obtain ⟨before, after, rfl, hbefore, -, -⟩ := List.filter_eq_cons_iff.mp horder.symm
      refine ⟨before, after, rfl, fun y hy => Or.inl fun he => hbefore y hy ?_⟩
      simp [← he, hk]
  refine ⟨before, after, rfl, hapart, (h.perm.trans List.perm_middle).cons_inv, fun k => ?_⟩
  have horder := h.order k
  by_cases hk : kind? x = some k
  · -- no element before it is of its kind
    have hnone : before.filter (kind? · == some k) = [] := by
      refine List.filter_eq_nil_iff.mpr fun y hy he => ?_
      rcases hapart y hy with hne | hnone
      · exact hne (hk.trans (beq_iff_eq.mp he).symm)
      · rw [hk] at hnone
        cases hnone
    rw [List.filter_cons_of_pos (by simp [hk]), List.filter_append, hnone, List.nil_append,
      List.filter_cons_of_pos (by simp [hk]), List.cons.injEq] at horder
    rw [List.filter_append, hnone, List.nil_append]
    exact horder.2
  · rw [List.filter_cons_of_neg (by simp [hk]), List.filter_append,
      List.filter_cons_of_neg (by simp [hk])] at horder
    rw [List.filter_append]
    exact horder

/-- A step that commutes with those before it may be made first. -/
theorem foldlM_of_apart (hcomm : ∀ y ∈ xs, ∀ b, (f b x >>= (f · y)) = (f b y >>= (f · x)))
    (ys : List α) (b : β) : (xs ++ x :: ys).foldlM f b = (x :: (xs ++ ys)).foldlM f b := by
  induction xs generalizing b with
  | nil => rfl
  | cons y xs ih =>
    have hrest := ih fun z hz => hcomm z (List.mem_cons_of_mem y hz)
    calc (y :: (xs ++ x :: ys)).foldlM f b
        = f b y >>= fun b => (x :: (xs ++ ys)).foldlM f b := by
          rw [List.foldlM_cons]
          exact bind_congr hrest
      _ = (f b y >>= (f · x)) >>= fun b => (xs ++ ys).foldlM f b := by
          simp only [List.foldlM_cons, bind_assoc]
      _ = (f b x >>= (f · y)) >>= fun b => (xs ++ ys).foldlM f b := by
          rw [hcomm y List.mem_cons_self b]
      _ = (x :: y :: (xs ++ ys)).foldlM f b := by
          simp only [List.foldlM_cons, bind_assoc]

/-- Where steps of different kinds commute, a fold depends on the order within the kinds alone. -/
theorem foldlM_of_rearranged
    (hcomm : ∀ x y, Apart kind? x y → ∀ b, (f b x >>= (f · y)) = (f b y >>= (f · x)))
    (h : Rearranged kind? xs ys) (b : β) : xs.foldlM f b = ys.foldlM f b := by
  induction xs generalizing ys b with
  | nil => rw [h.perm.nil_eq]
  | cons x xs ih =>
    obtain ⟨before, after, rfl, hapart, hrest⟩ := h.exists_of_cons
    rw [foldlM_of_apart fun y hy => hcomm x y (hapart y hy), List.foldlM_cons, List.foldlM_cons]
    exact bind_congr fun b => ih hrest b

end

/-! ## Folds that add what was read -/

section

variable {ε α β γ : Type} {f : β → α → Except ε β} {read : α → Except ε γ} {add : β → γ → β}

/-- Where a step adds what it reads on its own, all may be read before any is added. -/
theorem foldlM_eq_mapM (h : ∀ b a, f b a = (read a).map (add b)) (as : List α) (b : β) :
    as.foldlM f b = (as.mapM read).map (·.foldl add b) := by
  induction as generalizing b with
  | nil => rfl
  | cons a as ih =>
    rw [List.foldlM_cons, List.mapM_cons, h]
    cases read a with
    | error e => rfl
    | ok c =>
      show as.foldlM f (add b c) = _
      rw [ih]
      cases as.mapM read <;> rfl

theorem toOption_foldlM (as : List α) (b : β) :
    (as.foldlM f b).toOption = as.foldlM (fun b a => (f b a).toOption) b := by
  induction as generalizing b with
  | nil => rfl
  | cons a as ih =>
    rw [List.foldlM_cons, List.foldlM_cons]
    cases hb : f b a with
    | error e => rfl
    | ok b' => exact ih b'

end

/-! ## What a statement adds -/

/-- The kinds of statements that a technique is read from. The nodes of both stages are of one
kind. -/
inductive StatementKind where
  | worldParameters
  | defines
  | definitions
  | nodes
  | source
  deriving DecidableEq, Repr

def StatementKind.of? (statement : Statement) : Option StatementKind :=
  let keyword := statement.keyword
  if keyword == "WorldParameters" then some worldParameters
  else if keyword == "Defines" then some defines
  else if keyword == "ShaderNodesDefinitions" then some definitions
  else if keyword == "VertexShaderNodes" || keyword == "FragmentShaderNodes" then some nodes
  else if Draft.ignored.contains keyword then none
  else if (Draft.sourceStage? keyword).isSome then some source
  else none

namespace Draft

inductive Define where
  | preset (define : String)
  | bound (binding : DefineBinding)

namespace Define

def preset? : Define → Option String
  | preset define => some define
  | bound _ => none

def bound? : Define → Option DefineBinding
  | preset _ => none
  | bound binding => some binding

def read (catalog : Catalog) (statement : Statement) : Except Fault Define :=
  match (Text.fields ':' statement.line.toList).map fun cs => String.ofList (Text.trim cs) with
  | [define] => .ok (preset define)
  | [define, name] => match catalog.param? name with
    | some param => .ok (bound ⟨param.name, define, param.type⟩)
    | none => .error ((Cause.unknownMaterialParameter name).located statement)
  | _ => .error ((Cause.malformedStatement "Define").located statement)

def add (t : Technique) : Define → Technique
  | preset define => { t with presets := addOnce t.presets define }
  | bound binding => { t with defines := t.defines.bind binding }

end Define

inductive Entry where
  | worldParameters (bindings : List WorldBinding)
  | defines (defines : List Define)
  | definitions (definitions : List Definition)
  | nodes (block : Statement)
  | source (stage : Stage) (source : ShaderSource)
  | nothing

namespace Entry

def kind? : Entry → Option StatementKind
  | worldParameters _ => some .worldParameters
  | defines _ => some .defines
  | definitions _ => some .definitions
  | nodes _ => some .nodes
  | source _ _ => some .source
  | nothing => none

def readBinding (statement : Statement) : Except Fault WorldBinding :=
  (WorldBinding.parse statement.line).mapError (·.located statement)

def readSource (stageName : String) (statement : Statement) : Except Fault Entry := do
  let stage ← (Stage.parse stageName).mapError (·.located statement)
  return source stage (← ShaderGraph.readSource statement)

/-- What a statement adds, whatever the draft holds. -/
def read (context : Context) (statement : Statement) : Except Fault Entry :=
  let keyword := statement.keyword
  if keyword == "WorldParameters" then
    (statement.contents.mapM readBinding).map worldParameters
  else if keyword == "Defines" then
    (statement.contents.mapM (Define.read context.catalog)).map defines
  else if keyword == "ShaderNodesDefinitions" then
    (readDefinitions context.options statement.contents).map definitions
  else if keyword == "VertexShaderNodes" || keyword == "FragmentShaderNodes" then
    .ok (nodes statement)
  else if ignored.contains keyword then .ok nothing
  else match sourceStage? keyword with
    | some stage => readSource stage statement
    | none => .error (statement.unexpected "a technique statement")

end Entry

def add (draft : Draft) : Entry → Draft
  | .worldParameters bindings => draft.setTechnique { draft.technique with
      worldBindings := bindings.foldl addOnce draft.technique.worldBindings }
  | .defines defines => draft.setTechnique { draft.technique with
      presets := (defines.filterMap Define.preset?).foldl addOnce draft.technique.presets
      defines := (defines.filterMap Define.bound?).foldl DefineTable.bind draft.technique.defines }
  | .definitions definitions => { draft with definitions := draft.definitions ++ definitions }
  | .nodes block => { draft with nodeBlocks := draft.nodeBlocks ++ [block] }
  | .source stage source => draft.setTechnique { draft.technique with
      sources := draft.technique.sources ++ [(stage, source)] }
  | .nothing => draft

section

variable {context : Context} {statement : Statement} {e e' : Entry}

/-- What statements of different kinds add are different parts of the draft. -/
theorem add_comm (h : Apart Entry.kind? e e') (draft : Draft) :
    (draft.add e).add e' = (draft.add e').add e := by
  cases e <;> cases e' <;> first | rfl | simp [Apart, Entry.kind?] at h

theorem Entry.kind?_of_map {α : Type} {r : Except Fault α} {f : α → Entry}
    {kind : Option StatementKind} (hf : ∀ a, (f a).kind? = kind) (h : r.map f = .ok e) :
    e.kind? = kind := by
  cases r with
  | error _ => cases h
  | ok a =>
    cases h
    exact hf a

theorem Entry.kind?_of_readSource {stageName : String}
    (h : Entry.readSource stageName statement = .ok e) : e.kind? = some .source := by
  obtain ⟨_, -, h⟩ := Attempt.except_bind_eq_ok.mp h
  obtain ⟨_, -, h⟩ := Attempt.except_bind_eq_ok.mp h
  obtain rfl := Attempt.except_pure_eq_ok.mp h
  rfl

theorem Entry.kind?_of_read (h : Entry.read context statement = .ok e) :
    e.kind? = StatementKind.of? statement := by
  simp only [Entry.read] at h
  simp only [StatementKind.of?]
  split_ifs at h ⊢
  · exact Entry.kind?_of_map (fun _ => rfl) h
  · exact Entry.kind?_of_map (fun _ => rfl) h
  · exact Entry.kind?_of_map (fun _ => rfl) h
  · cases h
    rfl
  · cases h
    rfl
  · next hsource =>
    obtain ⟨stage, hstage⟩ := Option.isSome_iff_exists.mp hsource
    rw [hstage] at h
    exact Entry.kind?_of_readSource h
  · next hsource =>
    rw [Option.not_isSome_iff_eq_none.mp hsource] at h
    cases h

theorem readWorldBinding_eq (t : Technique) (statement : Statement) :
    readWorldBinding t statement = (Entry.readBinding statement).map fun binding =>
      { t with worldBindings := addOnce t.worldBindings binding } := by
  unfold readWorldBinding Entry.readBinding
  cases WorldBinding.parse statement.line <;> rfl

theorem foldl_worldBindings (bindings : List WorldBinding) (t : Technique) :
    bindings.foldl (fun t binding => { t with worldBindings := addOnce t.worldBindings binding }) t =
      { t with worldBindings := bindings.foldl addOnce t.worldBindings } := by
  induction bindings generalizing t with
  | nil => rfl
  | cons b bs ih => exact ih _

theorem readDefine_eq (catalog : Catalog) (t : Technique) (statement : Statement) :
    readDefine catalog t statement = (Define.read catalog statement).map (Define.add t) := by
  unfold readDefine Define.read
  generalize (Text.fields ':' statement.line.toList).map _ = texts
  rcases texts with _ | ⟨define, _ | ⟨name, _ | ⟨_, _⟩⟩⟩
  · rfl
  · rfl
  · show (match catalog.param? name with | some param => _ | none => _) =
      Except.map _ (match catalog.param? name with | some param => _ | none => _)
    cases catalog.param? name <;> rfl
  · rfl

theorem foldl_defines (defines : List Define) (t : Technique) :
    defines.foldl Define.add t = { t with
      presets := (defines.filterMap Define.preset?).foldl addOnce t.presets
      defines := (defines.filterMap Define.bound?).foldl DefineTable.bind t.defines } := by
  induction defines generalizing t with
  | nil => rfl
  | cons d ds ih =>
    rw [List.foldl_cons, ih]
    cases d <;> rfl

/-- Reading a statement is reading what it adds, and adding it. -/
theorem read_eq (context : Context) (draft : Draft) (statement : Statement) :
    draft.read context statement = (Entry.read context statement).map draft.add := by
  simp only [Draft.read, Entry.read]
  split_ifs
  · rw [foldlM_eq_mapM readWorldBinding_eq]
    cases statement.contents.mapM Entry.readBinding with
    | error fault => rfl
    | ok bindings => exact congrArg (Except.ok ∘ draft.setTechnique) (foldl_worldBindings _ _)
  · rw [foldlM_eq_mapM (readDefine_eq context.catalog)]
    cases statement.contents.mapM (Define.read context.catalog) with
    | error fault => rfl
    | ok defines => exact congrArg (Except.ok ∘ draft.setTechnique) (foldl_defines _ _)
  · cases readDefinitions context.options statement.contents <;> rfl
  · rfl
  · rfl
  · cases sourceStage? statement.keyword with
    | some stage =>
      show (readStageSource stage draft.technique statement).map draft.setTechnique =
        (Entry.readSource stage statement).map draft.add
      unfold readStageSource Entry.readSource
      cases Stage.parse stage with
      | error cause => rfl
      | ok stage => cases ShaderGraph.readSource statement <;> rfl
    | none => rfl

/-- Statements of different kinds may be read in either order. -/
theorem read_comm {s s' : Statement} (h : Apart StatementKind.of? s s') (draft : Draft) :
    ((draft.read context s).toOption >>= fun d => (d.read context s').toOption) =
      ((draft.read context s').toOption >>= fun d => (d.read context s).toOption) := by
  simp only [read_eq]
  cases hs : Entry.read context s with
  | error fault =>
    cases Entry.read context s' <;> rfl
  | ok e =>
    cases hs' : Entry.read context s' with
    | error fault => rfl
    | ok e' =>
      have hapart : Apart Entry.kind? e e' := by
        rw [Apart, Entry.kind?_of_read hs, Entry.kind?_of_read hs']
        exact h
      exact congrArg some (add_comm hapart draft)

/-- Both orders give one draft, or none. -/
theorem toOption_read_of_rearranged {xs ys : List Statement}
    (h : Rearranged StatementKind.of? xs ys) (draft : Draft) :
    (xs.foldlM (Draft.read context) draft).toOption =
      (ys.foldlM (Draft.read context) draft).toOption := by
  rw [toOption_foldlM, toOption_foldlM]
  exact foldlM_of_rearranged (fun _ _ => read_comm) h draft

end

end Draft

/-! ## Techniques -/

/-- Two steps of reading ended alike: with the same result and the same state, or both with a
fault. -/
inductive Alike {σ ε α : Type} : Except ε α × σ → Except ε α × σ → Prop
  | ok {a : α} {s : σ} : Alike (.ok a, s) (.ok a, s)
  | error {e e' : ε} {s s' : σ} : Alike (.error e, s) (.error e', s')

theorem Alike.refl {σ ε α : Type} (r : Except ε α × σ) : Alike r r := by
  obtain ⟨_ | _, _⟩ := r
  · exact .error
  · exact .ok

theorem Alike.eq_ok {σ ε α : Type} {r r' : Except ε α × σ} (h : Alike r r') {a : α} {s : σ}
    (hr : r = (.ok a, s)) : r' = (.ok a, s) := by
  cases h with
  | ok => exact hr
  | error => cases hr

/-- What is read before a step is the same, or there is a fault before it. -/
theorem alike_ofExcept_bind {σ ε α β : Type} {r r' : Except ε α}
    (h : r.toOption = r'.toOption) (f : α → Attempt σ ε β) (s : σ) :
    Alike ((Attempt.ofExcept r >>= f) s) ((Attempt.ofExcept r' >>= f) s) := by
  cases r with
  | error e =>
    cases r' with
    | error e' => exact .error
    | ok a => cases h
  | ok a =>
    cases r' with
    | error e => cases h
    | ok a' =>
      cases h
      exact .refl _

/-- The statements of a technique may stand in any order that keeps those of one kind as they
are. -/
theorem readTechnique_rearranged {context : Context} {statement : Statement}
    {contents : List Statement}
    (h : Rearranged StatementKind.of? statement.contents contents) (warnings : List Warning) :
    Alike (readTechnique context statement warnings)
      (readTechnique context { statement with contents } warnings) := by
  have hline : Statement.line { statement with contents } = statement.line := rfl
  simp only [readTechnique, hline]
  cases techniqueName? statement.line with
  | none => exact .error
  | some name =>
    exact alike_ofExcept_bind (Draft.toOption_read_of_rearranged h _) _ warnings

namespace Lit

def nodesFirst : List Statement := [
  statement "VertexShaderNodes" [vertexNode],
  statement "FragmentShaderNodes" [fragmentNode],
  statement "ShaderNodesDefinitions" definitions]

theorem rearranged_nodesFirst : Rearranged StatementKind.of? technique.contents nodesFirst := by
  refine ⟨?_, fun k => by cases k <;> rfl⟩
  show ([_] ++ [_, _] : List Statement).Perm ([_, _] ++ [_])
  exact List.perm_append_comm

end Lit

/-- The nodes may be written before the definitions that they are made from. -/
theorem readTechnique_nodesFirst :
    Rearranged StatementKind.of? Lit.technique.contents Lit.nodesFirst ∧
      ∃ t warnings, readTechnique Lit.context Lit.technique [] = (.ok (some t), warnings) ∧
        readTechnique Lit.context (Lit.statement "Technique" Lit.nodesFirst) [] =
          (.ok (some t), warnings) ∧ Lit.Read t := by
  obtain ⟨t, warnings, h, hread⟩ := Lit.readTechnique_technique
  have halike : Alike (readTechnique Lit.context Lit.technique []) _ :=
    readTechnique_rearranged Lit.rearranged_nodesFirst []
  exact ⟨Lit.rearranged_nodesFirst, t, warnings, h, halike.eq_ok h, hread⟩

-- Of two wrong statements the first is reported.
example :
    readTechnique Lit.context (Lit.statement "Technique" [Lit.line "Blend", Lit.line "Cull"]) [] =
      (.error ((Lit.line "Blend").unexpected "a technique statement"), []) := rfl

end ShaderGraph
