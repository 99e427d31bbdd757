/-
  ShaderGraph.Proofs.Signatures — what is read of a definition is its signature.

  A variable of a definition has a type, a name, perhaps a length and a default, and nothing
  that only a graph gives it (`Variable.Bare`). This is so for definitions in the material
  (`bare_of_readDefinitions`) and in files (`bare_of_store`), so every definition that a graph
  finds while it is built is bare: `bare_of_reach`.
-/

import ShaderGraph.Proofs.Drafting

namespace ShaderGraph

open Block (Statement)

/-- Nothing of a graph is known of the variable. -/
structure Variable.Bare (v : Variable) : Prop where
  origin : v.origin = none
  isOutput : v.isOutput = false
  condition : v.condition = none
  sizeDefine : v.sizeDefine = none

structure Definition.Bare (d : Definition) : Prop where
  inputs : ∀ v ∈ d.inputs, v.Bare
  outputs : ∀ v ∈ d.outputs, v.Bare

theorem Definition.Bare.input {d : Definition} (h : d.Bare) {name : String} {v : Variable}
    (hv : d.input? name = some v) : v.Bare := h.inputs v (List.mem_of_find?_eq_some hv)

theorem Definition.Bare.output {d : Definition} (h : d.Bare) {name : String} {v : Variable}
    (hv : d.output? name = some v) : v.Bare := h.outputs v (List.mem_of_find?_eq_some hv)

structure Signature.Bare (s : Signature) : Prop where
  inputs : ∀ v ∈ s.inputs, v.Bare
  outputs : ∀ v ∈ s.outputs, v.Bare

/-! ## Reading definitions -/

section

variable {options : ReadOptions} {statement : Statement} {statements : List Statement}

theorem bare_of_ofLine? {line : String} {v : Variable} (h : Variable.ofLine? line = some v) :
    v.Bare := by
  unfold Variable.ofLine? at h
  simp only at h
  split at h
  · obtain ⟨_, -, rfl⟩ := Option.map_eq_some_iff.mp h
    exact ⟨rfl, rfl, rfl, rfl⟩
  · obtain ⟨_, -, rfl⟩ := Option.map_eq_some_iff.mp h
    exact ⟨rfl, rfl, rfl, rfl⟩
  · cases h

theorem bare_of_readVariables {names : List String} {vs : List Variable}
    (h : readVariables names statements = .ok vs) : ∀ v ∈ vs, v.Bare := by
  induction statements generalizing names vs with
  | nil =>
    cases h
    exact fun v hv => absurd hv List.not_mem_nil
  | cons s statements ih =>
    simp only [readVariables, readVariable] at h
    cases hv : Variable.ofLine? s.line with
    | none =>
      rw [hv] at h
      cases h
    | some v =>
      rw [hv] at h
      obtain ⟨_, hok, h⟩ := Attempt.except_bind_eq_ok.mp h
      cases hok
      split at h
      · cases h
      · obtain ⟨rest, hrest, h⟩ := Attempt.except_bind_eq_ok.mp h
        cases h
        intro w hw
        rcases List.mem_cons.mp hw with rfl | hw
        · exact bare_of_ofLine? hv
        · exact ih hrest w hw

theorem bare_of_read {s s' : Signature} (hs : s.Bare) (h : s.read options statement = .ok s') :
    s'.Bare := by
  unfold Signature.read at h
  split at h
  · split at h
    · cases h
      exact ⟨hs.inputs, hs.outputs⟩
    · cases h
  · split at h
    · obtain ⟨_, -, h⟩ := Attempt.except_bind_eq_ok.mp h
      cases h
      exact ⟨hs.inputs, hs.outputs⟩
    · split at h
      · split at h
        · cases h
          exact ⟨hs.inputs, hs.outputs⟩
        · cases h
          exact hs
      · split at h
        · obtain ⟨vs, hvs, h⟩ := Attempt.except_bind_eq_ok.mp h
          cases h
          exact ⟨bare_of_readVariables hvs, hs.outputs⟩
        · split at h
          · obtain ⟨vs, hvs, h⟩ := Attempt.except_bind_eq_ok.mp h
            cases h
            exact ⟨hs.inputs, bare_of_readVariables hvs⟩
          · cases h

theorem bare_of_readDefinition {name : String} {d : Definition}
    (h : readDefinition options name statement = .ok d) : d.Bare := by
  obtain ⟨s, hs, h⟩ := Attempt.except_bind_eq_ok.mp h
  have hempty : Signature.Bare {} :=
    ⟨fun v hv => absurd hv List.not_mem_nil, fun v hv => absurd hv List.not_mem_nil⟩
  have hbare : s.Bare :=
    Attempt.except_foldlM_invariant (fun _ _ _ _ => bare_of_read) hempty hs
  split at h
  · cases h
  · cases h
    exact ⟨hbare.inputs, hbare.outputs⟩

/-- What is true of a definition however it is read, is true of all the definitions of a block. -/
theorem forall_of_readDefinitionsExcept {P : Definition → Prop}
    (hread : ∀ name statement d, readDefinition options name statement = .ok d → P d)
    {names : List String} {ds : List Definition}
    (h : readDefinitionsExcept options names statements = .ok ds) : ∀ d ∈ ds, P d := by
  induction statements generalizing names ds with
  | nil =>
    cases h
    exact fun d hd => absurd hd List.not_mem_nil
  | cons s statements ih =>
    unfold readDefinitionsExcept at h
    split at h
    · split at h
      · exact ih h
      · obtain ⟨d, hd, h⟩ := Attempt.except_bind_eq_ok.mp h
        obtain ⟨rest, hrest, h⟩ := Attempt.except_bind_eq_ok.mp h
        cases h
        intro e he
        rcases List.mem_cons.mp he with rfl | he
        · exact hread _ _ _ hd
        · exact ih hrest e he
    · cases h

theorem bare_of_readDefinitions {ds : List Definition}
    (h : readDefinitions options statements = .ok ds) : ∀ d ∈ ds, d.Bare :=
  forall_of_readDefinitionsExcept (fun _ _ _ => bare_of_readDefinition) h

theorem bare_of_readDefinitionFile {text : String} {ds : List Definition}
    (h : readDefinitionFile options text = .ok ds) : ∀ d ∈ ds, d.Bare := by
  obtain ⟨statements, -, h⟩ := Attempt.except_bind_eq_ok.mp h
  obtain ⟨blocks, hblocks, h⟩ := Attempt.except_bind_eq_ok.mp h
  obtain rfl := Attempt.except_pure_eq_ok.mp h
  have hall : ∀ block ∈ blocks, ∀ d ∈ block, d.Bare := by
    refine Attempt.except_mapM_forall (fun s block hs => ?_) hblocks
    split at hs
    · exact bare_of_readDefinitions hs
    · cases hs
  intro d hd
  obtain ⟨block, hblock, hd⟩ := List.mem_flatten.mp hd
  exact hall block hblock d hd

theorem bare_of_store {store : AssetStore} {path : String} {ds : List Definition}
    (h : store.definitions options path = .ok ds) : ∀ d ∈ ds, d.Bare := by
  unfold AssetStore.definitions at h
  split at h
  · cases h
  · exact bare_of_readDefinitionFile ((Attempt.mapError_ok_iff).mp h)

end

/-! ## Building with them -/

section

variable {context : Context}

structure Progress.Bare (p : Progress) : Prop where
  library : ∀ d ∈ p.library, d.Bare
  current : ∀ n, p.current = some n → n.definition.Bare

theorem bare_of_findsDefinition {line : Graph.DefinitionLine} {library library' : List Definition}
    {definition : Definition} (h : FindsDefinition context line library definition library')
    (hl : ∀ d ∈ library, d.Bare) : definition.Bare ∧ ∀ d ∈ library', d.Bare := by
  cases h with
  | known h => exact ⟨hl _ (List.mem_of_find?_eq_some h), hl⟩
  | @loaded path loaded _ _ _ hstore h =>
    have hall : ∀ d ∈ library ++ loaded.map (Definition.fromFile path), d.Bare := by
      intro d hd
      rcases List.mem_append.mp hd with hd | hd
      · exact hl d hd
      · obtain ⟨e, he, rfl⟩ := List.mem_map.mp hd
        have := bare_of_store hstore e he
        exact ⟨this.inputs, this.outputs⟩
    exact ⟨hall _ (List.mem_of_find?_eq_some h), hall⟩

theorem bare_of_drafts {statement : Statement} {draft : Draft}
    (h : Drafts context statement draft) : ∀ d ∈ draft.definitions, d.Bare := by
  refine h.invariant (P := fun d => ∀ e ∈ d.definitions, e.Bare)
    (fun _ e he => absurd he List.not_mem_nil) ?_
  intro d s d' hd hstep
  cases hstep with
  | definitions hdefinitions =>
    intro e he
    rcases List.mem_append.mp he with he | he
    · exact hd e he
    · exact bare_of_readDefinitions hdefinitions e he
  | _ => exact hd

theorem Progress.Bare.step {p q : Progress} (h : p.Bare) (hs : Step context p q) : q.Bare := by
  cases hs with
  | opened _ hfinds =>
    obtain ⟨hd, hlibrary⟩ := bare_of_findsDefinition hfinds h.library
    refine ⟨hlibrary, fun n hn => ?_⟩
    cases hn
    exact hd
  | @condition _ _ _ node _ _ =>
    refine ⟨h.library, fun n hn => ?_⟩
    cases hn
    exact h.current node rfl
  | @input _ _ _ node _ _ =>
    refine ⟨h.library, fun n hn => ?_⟩
    cases hn
    exact h.current node rfl
  | @output _ _ _ node _ _ =>
    refine ⟨h.library, fun n hn => ?_⟩
    cases hn
    exact h.current node rfl
  | closed => exact ⟨h.library, fun n hn => by cases hn⟩

/-- Whatever definition a graph uses, it is bare. -/
theorem bare_of_reach {statement : Statement} {draft : Draft} (hd : Drafts context statement draft)
    {p : Progress} (h : Reach context draft.progress p) : p.Bare := by
  induction h with
  | start => exact ⟨bare_of_drafts hd, fun n hn => by cases hn⟩
  | step _ hs ih => exact ih.step hs

end

end ShaderGraph
