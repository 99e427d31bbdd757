/-
  ShaderGraph.Proofs.Lengths — where an array is declared whose length a define gives.

  Such an array has no length where the define is not set. Settling joins the guard of the
  define to what the consumers need by `||`: the array is declared wherever it has a length,
  and also where a consumer needs it and it has none.

  To say so of the defines themselves, the guard has to be the formula that it looks like. It
  stands alone on the input that asked for the length (`lengths_of_reach`), which no declaration
  overwrites; and a define is in upper case, so no second test can be hidden in it
  (`read?_guard`).

  Proved, where every condition is the text of a formula:
  - `arraysWidened_of_readTechnique`: an array is declared exactly where its length is set or its
    consumers' condition is true.
  - `array_without_length`: so it is declared where it has no length.
-/

import ShaderGraph.Proofs.Additions
import ShaderGraph.Proofs.Growth
import ShaderGraph.Proofs.Switching
import ShaderGraph.Proofs.Widening

namespace ShaderGraph

open Block (Statement)
open Condition (Formal IsTrue Holds WellFormed Formula defineOf guard merge)
open Resolution (StoresGlobal Resolves Sized raiseInputs)

/-! ## Guards that are formulas -/

namespace Condition

open Text (isWordChar isSpacing)

namespace Formula

namespace Cursor

/-- No parenthesis is left to close, or an operand comes next: from here a text does not end
without another test. -/
def Open : Cursor → Prop
  | .operand _ _ => True
  | .operator _ _ outer => outer = []
  | .second sign _ _ _ => sign ≠ ')'
  | _ => False

theorem open_step {s s' : Cursor} {c : Char} (h : s.Open) (hc : c ≠ 'd') (hs : s.step c = some s') :
    s'.Open := by
  cases s with
  | operand level outer =>
    simp only [step, beq_iff_eq, hc, if_false] at hs
    repeat' split at hs
    all_goals cases hs
    all_goals trivial
  | operator terms term outer =>
    cases h
    simp only [step] at hs
    split at hs
    · cases hs
    · next hclose =>
      split at hs
      · cases hs
        simpa [Open] using hclose
      · split at hs
        · cases hs
          rfl
        · cases hs
  | second sign terms term outer =>
    simp only [step] at hs
    repeat' split at hs
    all_goals cases hs
    all_goals trivial
  | keyword => cases h
  | name => cases h

theorem open_run {s s' : Cursor} {cs : List Char} (h : s.Open) (hcs : 'd' ∉ cs)
    (hs : s.run cs = some s') : s'.Open := by
  induction cs generalizing s with
  | nil =>
    cases hs
    exact h
  | cons c cs ih =>
    rw [List.mem_cons, not_or] at hcs
    obtain ⟨t, ht, hs⟩ := Option.bind_eq_some_iff.mp hs
    exact ih (open_step h (Ne.symm hcs.1) ht) hcs.2 hs

/-- So the text does not end with the parenthesis that a guard ends with. -/
theorem formula?_of_open {s s' : Cursor} (h : s.Open) (hs : s.step ')' = some s') :
    s'.formula? = none := by
  cases s with
  | operand level outer => cases hs
  | operator terms term outer =>
    cases h
    cases hs
  | second sign terms term outer =>
    have hne : ')' ≠ sign := Ne.symm h
    simp only [step, hne, ne_eq, not_false_eq_true, if_true] at hs
    cases hs
  | keyword => cases h
  | name => cases h

end Cursor

/-- Behind the start of a guard, its name is read up to the end of the guard. -/
theorem word_of_run_name {cs : List Char} (hd : 'd' ∉ cs) {s : Cursor} {f : Formula}
    (hs : (Cursor.name [] {} []).run (cs ++ [')']) = some s) (hf : s.formula? = some f) :
    ∀ c ∈ cs, isWordChar c = true := by
  have hword : ∀ c ∈ cs.takeWhile isWordChar, isWordChar c = true :=
    List.all_eq_true.mp List.all_takeWhile
  have hcs := List.takeWhile_append_dropWhile (p := isWordChar) (l := cs)
  cases hrest : cs.dropWhile isWordChar with
  | nil =>
    rw [hrest, List.append_nil] at hcs
    rwa [hcs] at hword
  | cons c rest =>
    -- the name ends within the define, and no other test can follow
    have hc : isWordChar c = false := by
      have := List.head?_dropWhile_not isWordChar cs
      simpa [hrest] using this
    rw [hrest] at hcs
    have hrest' : 'd' ∉ rest := by
      intro hmem
      rw [← hcs] at hd
      exact hd (List.mem_append_right _ (List.mem_cons_of_mem c hmem))
    rw [← hcs, List.append_assoc, Cursor.run_append, run_name hword, List.nil_append,
      Option.bind_some, List.cons_append, Cursor.run_cons] at hs
    obtain ⟨s₁, h₁, hs⟩ := Option.bind_eq_some_iff.mp hs
    have hopen : s₁.Open := by
      simp only [Cursor.step, hc, Bool.false_eq_true, if_false] at h₁
      split at h₁
      · cases h₁
        rfl
      · cases h₁
    rw [Cursor.run_append] at hs
    obtain ⟨s₂, h₂, hs⟩ := Option.bind_eq_some_iff.mp hs
    obtain ⟨s₃, h₃, hs⟩ := Option.bind_eq_some_iff.mp hs
    cases hs
    rw [Cursor.formula?_of_open (Cursor.open_run hopen hrest' h₂) h₃] at hf
    cases hf

/-- A guard that is a formula is one test, unless its define could hold another. -/
theorem read?_guard {define : String} (h : Formal (guard define)) (hd : 'd' ∉ define.toList) :
    read? (guard define) = some (test define) := by
  have ht : (guard define).toList = "defined(".toList ++ (define.toList ++ [')']) := by
    simp [guard]
  obtain ⟨f, hf⟩ := h
  obtain ⟨s, hs, hf⟩ := Option.bind_eq_some_iff.mp hf
  have hkeyword : (Cursor.operand {} []).run "defined(".toList = some (.name [] {} []) := rfl
  rw [ht, Cursor.start, Cursor.run_append, hkeyword, Option.bind_some] at hs
  have hne : define ≠ "" := by
    rintro rfl
    cases hs
  have hnamed : (test define).Named := ⟨hne, word_of_run_name hd hs hf⟩
  rw [read?, ht, Cursor.start, run_test hnamed]
  rfl

end Formula

end Condition

/-! ## Who asks for a length -/

def Variable.Length (P : String → Prop) (v : Variable) : Prop :=
  ∀ define, v.sizeDefine = some define → P define

theorem Variable.length_of_none {v : Variable} (h : v.sizeDefine = none) (P : String → Prop) :
    v.Length P := by
  intro define hs
  rw [h] at hs
  cases hs

theorem Variable.Length.mono {v : Variable} {P Q : String → Prop} (h : v.Length P)
    (hpq : ∀ define, P define → Q define) : v.Length Q :=
  fun define hs => hpq define (h define hs)

abbrev Arena.Lengths (P : String → Prop) (a : Arena) : Prop := a.Every (Variable.Length P)

theorem Arena.Lengths.mono {a : Arena} {P Q : String → Prop} (h : a.Lengths P)
    (hpq : ∀ define, P define → Q define) : a.Lengths Q :=
  fun id v hv => (h id v hv).mono hpq

section

variable {catalog : Catalog} {reference : Reference} {consumer : Consumer} {t t' : Technique}
  {left left' v : Variable} {id : VarId} {P : String → Prop}

/-- The left side that asks for a length is needed under the define of the length. -/
theorem Resolution.Sized.length {param : Parameter} {length : Option Resolution.ArrayLength}
    {type define : String} (h : Sized catalog param t left length t' left')
    (hc : left.condition = none)
    (hs : (Resolution.parameterVariable param type length).sizeDefine = some define) :
    left'.condition = some (guard define) := by
  cases h with
  | single _ => cases hs
  | literal _ _ _ => cases hs
  | byParameter _ _ _ _ =>
    cases hs
    simp only [Variable.neededUnder, hc, Condition.merge_none_left]

/-- A length that comes in with a reference is one that its left side asks for. -/
theorem Resolution.Resolves.lengths (h : Resolves catalog reference consumer t left id t' left')
    (hc : left.condition = none) (hp : ∀ define, left'.condition = some (guard define) → P define)
    (ht : t.arena.Lengths P) : t'.arena.Lengths P := by
  cases h with
  | global _ hs => exact hs.every (Variable.length_of_none rfl P) ht
  | vertexAttribute _ _ ho =>
    subst ho
    exact ht.offer (Variable.length_of_none rfl P) t.registry _ _
  | @materialParameter param length type t₁ _ _ _ _ hs _ ho =>
    subst ho
    have ht₁ : t₁.arena.Lengths P := by
      obtain ⟨defines, rfl⟩ := hs.frame
      exact ht
    exact ht₁.offer (fun define hd => hp define (hs.length hc hd)) t₁.registry _ _
  | worldParameter _ _ ho =>
    subst ho
    exact ht.offer (Variable.length_of_none rfl P) t.registry _ _
  | output _ _ _ _ => exact ht.add (Variable.length_of_none rfl P)
  | varying _ _ _ _ _ ho =>
    subst ho
    exact (ht.offer (Variable.length_of_none rfl P) t.registry _ _).raiseInputs
      (fun _ hv => hv) _ _

end

/-- An input is written that is needed where the define is set, and nowhere else. -/
def Progress.Asks (p : Progress) (define : String) : Prop :=
  ∃ id v, Writes p.inputs id ∧ p.technique.arena.get? id = some v ∧
    v.condition = some (guard define)

section

variable {context : Context} {catalog : Catalog} {t t' : Technique} {library : List Definition}
  {node : Node} {m : Mapping} {p q : Progress}

/-- Who asked once does so still. -/
theorem Progress.Asks.grow {define : String} (h : p.Asks define)
    (ha : p.technique.arena.Grows q.technique.arena)
    (hw : ∀ id, Writes p.inputs id → Writes q.inputs id) : q.Asks define := by
  obtain ⟨id, v, hid, hv, hc⟩ := h
  rcases ha id v hv with hq | hq
  · exact ⟨id, v, hw id hid, hq, hc⟩
  · exact ⟨id, v.raised, hw id hid, hq, hc⟩

theorem lengths_of_readsInput
    (h : t.arena.Lengths (Progress.Asks ⟨t, library, some node⟩)) (hb : node.definition.Bare)
    (hi : ReadsInput catalog node t m t') :
    t'.arena.Lengths
      (Progress.Asks ⟨t', library, some { node with inputs := node.inputs ++ [m] }⟩) := by
  have hinputs : Progress.inputs ⟨t', library, some { node with inputs := node.inputs ++ [m] }⟩ =
      Progress.inputs ⟨t, library, some node⟩ ++ [m] := inputs_input m hi.nodes
  have hwrites : ∀ id, Writes (Progress.inputs ⟨t, library, some node⟩) id ∨ m.left = id →
      Writes (Progress.inputs ⟨t', library, some { node with inputs := node.inputs ++ [m] }⟩)
        id := by
    intro id hid
    rw [hinputs, writes_append]
    exact hid
  have hold : t.arena.Lengths (Progress.Asks ⟨t', library, some _⟩) := h.mono fun define hd =>
    hd.grow (hi.along : t.Grows t').arena fun id hid => hwrites id (Or.inl hid)
  cases hi with
  | code hinput hc =>
    obtain ⟨defines, rfl⟩ := hc.frame
    exact hold.add (Variable.length_of_none (hb.input hinput).sizeDefine _)
  | @reference _ _ input left _ reference id t₁ t₂ hinput hc _ hr _ =>
    obtain ⟨defines, rfl⟩ := hc.frame
    obtain ⟨unused, hu⟩ := markProducer_eq t₂ reference
    rw [hu] at hwrites hold ⊢
    have hbare := hb.input hinput
    -- the left side is stored and written by the mapping, whether it asks for a length or not
    have hasks : ∀ define, left.condition = some (guard define) → Progress.Asks _ define :=
      fun define hd => ⟨_, left, hwrites _ (Or.inr rfl), Arena.get?_add_nextId _ _, hd⟩
    have hleft : left.sizeDefine = none :=
      (Variable.core_eq_iff.mp hr.left_core).2.2.2.2.2.trans hbare.sizeDefine
    exact (hr.lengths hbare.condition hasks hold).add (Variable.length_of_none hleft _)

/-- No step brings in a length that no input asks for. -/
theorem lengths_step (h : p.technique.arena.Lengths p.Asks) (hb : p.Bare)
    (hs : Step context p q) : q.technique.arena.Lengths q.Asks := by
  cases hs with
  | @opened t library library' name line definition _ _ =>
    obtain ⟨unused, hu⟩ := markOpened_eq t name definition
    have hinputs := inputs_opened (t := t) library library' name name definition
    rw [hu] at hinputs ⊢
    exact h.mono fun define hd => hd.grow (.refl _) fun id hid => by rw [hinputs]; exact hid
  | @condition t t' library node c hc =>
    obtain ⟨defines, rfl⟩ := hc.frame
    have hinputs : Progress.inputs
        ⟨{ t with defines }, library, some { node with condition := c }⟩ =
          Progress.inputs ⟨t, library, some node⟩ := inputs_of_eq rfl rfl
    exact h.mono fun define hd => hd.grow (.refl _) fun id hid => hinputs ▸ hid
  | input hi => exact lengths_of_readsInput h (hb.current _ rfl) hi
  | @output t t' library node m ho =>
    have hinputs : Progress.inputs
        ⟨t', library, some { node with outputs := node.outputs ++ [m] }⟩ =
          Progress.inputs ⟨t, library, some node⟩ := inputs_of_eq ho.nodes rfl
    have hold : t.arena.Lengths (Progress.Asks ⟨t', library, some _⟩) := h.mono fun define hd =>
      hd.grow (ho.along : t.Grows t').arena fun id hid => hinputs ▸ hid
    cases ho with
    | mk houtput _ _ hc hg =>
      obtain ⟨defines, rfl⟩ := hc.frame
      have hright := ((hb.current node rfl).output houtput).sizeDefine
      exact (hg.every (Variable.length_of_none rfl _) hold).add (Variable.length_of_none hright _)
  | closed =>
    exact h.mono fun define hd => hd.grow (.refl _) fun id hid => by
      rw [inputs_closed]
      exact hid

/-- Whichever define gives a length, an input asks for it. -/
theorem lengths_of_reach {statement : Statement} {draft : Draft}
    (hd : Drafts context statement draft) (h : Reach context draft.progress p) :
    p.technique.arena.Lengths p.Asks := by
  induction h with
  | start =>
    intro id v hv
    rw [show draft.progress.technique.arena = .empty from (blank_of_drafts hd).arena] at hv
    cases hv
  | step hr hs ih => exact lengths_step ih (bare_of_reach hd hr) hs

end

/-! ## Finished arrays -/

section

variable {t : Technique} {library : List Definition} {define : String}

/-- The input that asks for a length is written, so its guard is a condition of the finished
technique. -/
theorem formal_guard_of_asks {R : VarId → Prop}
    (hexact : Exact t R (Writes t.inputs)) (hr : t.finish.Regular)
    (h : Progress.Asks ⟨t, library, none⟩ define) : Formal (guard define) := by
  obtain ⟨id, v, hw, hv, hc⟩ := h
  rw [inputs_between] at hw
  have hne : ∀ d ∈ t.registry.entries, d.id ≠ id := by
    rintro d hd rfl
    exact (hexact.written d.id hw).2.1 (hexact.read d hd)
  have hfinished := (Technique.finish_get?_of_ne hne).trans hv
  have hwell := hr.read id
  rw [Arena.read_of_get? hfinished] at hwell
  exact hwell _ hc

/-- The guard of a define that is bound tests the define. -/
theorem read?_guard_of_binds {defines : DefineTable} (hb : defines.Binds define)
    (h : Formal (guard define)) : Formula.read? (guard define) = some (.test define) := by
  obtain ⟨b, -, rfl⟩ := hb
  refine Formula.read?_guard h ?_
  rw [defineOf, String.toList_ofList]
  exact Text.notMem_upper_of_isLower rfl

/-- What a guard is joined to holds where the define is set, and where it did before. -/
theorem holds_merge_guard_iff {c : Option String} {defines : String → Bool}
    (hw : WellFormed (merge c (some (guard define)) "||"))
    (hg : Formula.read? (guard define) = some (.test define)) :
    Holds defines (merge c (some (guard define)) "||") ↔
      defines define = true ∨ ∃ text, c = some text ∧ IsTrue defines s!"({text})" := by
  have hset : IsTrue defines (guard define) ↔ defines define = true := Condition.isTrue_iff_eval hg
  cases c with
  | none => simpa [Holds] using hset
  | some text =>
    by_cases heq : text = guard define
    · subst heq
      rw [Condition.merge_self]
      have hwrapped : IsTrue defines s!"({guard define})" ↔ _ := Condition.isTrue_wrapped ⟨_, hg⟩
      simp [Holds, hwrapped, hset]
    · obtain ⟨c, hc⟩ : ∃ c, c = s!"({text})" := ⟨_, rfl⟩
      have ht : merge (some text) (some (guard define)) "||" =
          some s!"{c} || ({guard define})" := by
        simp [merge, heq, hc, toString, ← String.toList_inj]
      rw [ht] at hw ⊢
      rw [Holds, isTrue_widened_iff (hw _ rfl) ⟨_, hg⟩, hset, or_comm, hc]
      simp

end

/-- Where the arrays are declared of a technique that is read from the statement, if their length is
a define: where it is set, and where the condition is true that their consumers' uses compose to
before the technique is finished. It is read in the parentheses in which it is joined to the
guard. -/
def ArraysWidened (context : Context) (statement : Statement) (t : Technique) : Prop :=
  ∃ draft t₀ library, Drafts context statement draft ∧
    Reach context draft.progress ⟨t₀, library, none⟩ ∧ t = t₀.finish ∧
    ∀ d ∈ t.registry.entries, d.key.isUniform = true →
      ∀ define, (t.arena.read d.id).sizeDefine = some define →
        (t.arena.read d.id).condition ≠ none ∧
        ∀ defines, Holds defines (t.arena.read d.id).condition ↔
          defines define = true ∨
            ∃ text, Activation.declarationCondition d t₀.nodes = some text ∧
              IsTrue defines s!"({text})"

/-- Whatever technique is read, an array of it is declared where its length is set, and besides
only where its consumers need it. -/
theorem arraysWidened_of_readTechnique {context : Context} {statement : Statement}
    {warnings warnings' : List Warning} {t : Technique}
    (h : readTechnique context statement warnings = (.ok (some t), warnings')) (hr : t.Regular) :
    ArraysWidened context statement t := by
  obtain ⟨draft, t₀, library, hdraft, hreach, rfl⟩ := built_of_readTechnique h
  refine ⟨draft, t₀, library, hdraft, hreach, rfl, fun d hd hk define hs => ?_⟩
  have hexact := exact_of_reach (blank_of_drafts hdraft) hreach
  rw [inputs_between] at hexact
  obtain ⟨v, hv, -⟩ := hexact.names d hd
  have hsize : v.sizeDefine = some define := by
    obtain ⟨c, hc⟩ := Technique.finish_get? hv
    rw [Arena.read_of_get? hc] at hs
    exact hs
  have hbinds := ((registered_of_reach hdraft hreach).arena d.id v hv).length define hsize
  have hasks := lengths_of_reach hdraft hreach d.id v hv define hsize
  have hguard := read?_guard_of_binds hbinds (formal_guard_of_asks hexact hr hasks)
  have hattribute := DeclKey.isAttribute_of_isUniform hk
  have hcondition : (t₀.finish.arena.read d.id).condition =
      merge (Activation.declarationCondition d t₀.nodes) (some (guard define)) "||" := by
    have hsettled := Activation.compute_condition hexact.sound t₀.nodes hd hattribute
    rw [Activation.settledCondition, Arena.read_of_get? hv, hsize] at hsettled
    exact hsettled
  have hwell := hr.read d.id
  rw [hcondition] at hwell ⊢
  refine ⟨?_, fun defines => holds_merge_guard_iff hwell hguard⟩
  cases Activation.declarationCondition d t₀.nodes with
  | none => simp
  | some text =>
    rw [merge]
    split <;> simp

namespace Lit

def lightsContext : Context where
  catalog := [⟨"Lights", .array .vector4, none⟩, ⟨"NbLights", .single .int, none⟩,
    ⟨"UseLight", .single .boolean, none⟩]
  assets := .ofFiles []
  options := ⟨false⟩

def summedTechnique (mapping : String) : Statement :=
  statement "Technique" [
    statement "ShaderNodesDefinitions" [
      statement "ShaderNodeDefinition Sum" [
        line "Type: Fragment",
        statement "Input" [line "vec4 lights[NbLights]"],
        statement "Output" [line "vec4 sum"]]],
    statement "FragmentShaderNodes" [
      statement "ShaderNode Summed" [
        line "Definition : Sum",
        statement "InputMappings" [line mapping],
        statement "OutputMappings" [line "Global.color = sum"]]]]

/-- What is seen of the lights in a technique. -/
structure Lighting where
  nodes : List (Option String)
  inputs : List (Option String)
  declarations : List Declaration
  slots : List (Option String)
  lights : Option String
  size : Option String
  deriving DecidableEq

def lighting (t : Technique) : Lighting where
  nodes := t.nodes.map (·.condition)
  inputs := t.inputs.map (·.condition)
  declarations := t.registry.entries
  slots := t.arena.slots.map (·.condition)
  lights := (t.arena.read ⟨0⟩).condition
  size := (t.arena.read ⟨0⟩).sizeDefine

def summed (mapped lights : Option String) : Lighting where
  nodes := [none]
  inputs := [mapped]
  declarations := [⟨.uniform "m_Lights", ⟨0⟩, ["Summed"]⟩]
  slots := [lights, some "defined(NBLIGHTS)", none, none]
  lights
  size := some "NBLIGHTS"

section

variable {t : Technique} {mapped lights : Option String}

theorem regular_of_lighting (h : lighting t = summed mapped lights) (hm : WellFormed mapped)
    (hl : WellFormed lights) : t.Regular := by
  have hnodes : t.nodes.map (·.condition) = [none] := congrArg Lighting.nodes h
  have hinputs : t.inputs.map (·.condition) = [mapped] := congrArg Lighting.inputs h
  have hslots : t.arena.slots.map (·.condition) =
      [lights, some "defined(NBLIGHTS)", none, none] := congrArg Lighting.slots h
  have hnone : WellFormed none := Condition.each_none
  have hlength : WellFormed (some "defined(NBLIGHTS)") := by decide
  intro c hc
  rw [Technique.conditions, hnodes, hinputs, hslots] at hc
  simp only [List.cons_append, List.nil_append, List.mem_cons, List.not_mem_nil, or_false] at hc
  rcases hc with rfl | rfl | rfl | rfl | rfl | rfl <;> assumption

theorem declared_of_lighting (h : lighting t = summed mapped lights) :
    ⟨.uniform "m_Lights", ⟨0⟩, ["Summed"]⟩ ∈ t.registry.entries := by
  have hdeclarations : t.registry.entries = [⟨.uniform "m_Lights", ⟨0⟩, ["Summed"]⟩] :=
    congrArg Lighting.declarations h
  rw [hdeclarations]
  exact List.mem_singleton_self _

end

/-- The lights are read without a guard. -/
theorem readTechnique_summed :
    ∃ t warnings,
      readTechnique lightsContext (summedTechnique "lights = MatParam.Lights") [] =
        (.ok (some t), warnings) ∧
      lighting t = summed none (some "defined(NBLIGHTS)") :=
  readTechnique_of_readTechnique? (by decide +kernel)

/-- The lights are read under a guard of their own. -/
theorem readTechnique_summed_guarded :
    ∃ t warnings,
      readTechnique lightsContext (summedTechnique "lights = MatParam.Lights : UseLight") [] =
        (.ok (some t), warnings) ∧
      lighting t = summed (some "defined(USELIGHT)")
        (some "((defined(USELIGHT))) || (defined(NBLIGHTS))") :=
  readTechnique_of_readTechnique? (by decide +kernel)

end Lit

/-- Lights that are read without a guard are declared where they have a length. -/
theorem arraysWidened_summed :
    ∃ t warnings,
      readTechnique Lit.lightsContext (Lit.summedTechnique "lights = MatParam.Lights") [] =
        (.ok (some t), warnings) ∧
      t.Regular ∧
      (∃ d ∈ t.registry.entries, d.key.isUniform = true ∧
        (t.arena.read d.id).sizeDefine = some "NBLIGHTS" ∧
        (t.arena.read d.id).condition = some "defined(NBLIGHTS)") ∧
      ArraysWidened Lit.lightsContext (Lit.summedTechnique "lights = MatParam.Lights") t := by
  obtain ⟨t, warnings, h, hread⟩ := Lit.readTechnique_summed
  have hregular : t.Regular := Lit.regular_of_lighting hread (by decide) (by decide)
  exact ⟨t, warnings, h, hregular, ⟨_, Lit.declared_of_lighting hread, rfl,
    congrArg Lit.Lighting.size hread, congrArg Lit.Lighting.lights hread⟩,
    arraysWidened_of_readTechnique h hregular⟩

/-- Lights that are read under a guard are declared where the guard is set, and have no length
there. -/
theorem array_without_length :
    ∃ t warnings,
      readTechnique Lit.lightsContext
          (Lit.summedTechnique "lights = MatParam.Lights : UseLight") [] =
        (.ok (some t), warnings) ∧
      t.Regular ∧
      ∃ d ∈ t.registry.entries, d.key.isUniform = true ∧
        (t.arena.read d.id).sizeDefine = some "NBLIGHTS" ∧
        Holds (· == "USELIGHT") (t.arena.read d.id).condition ∧
        ¬ (("NBLIGHTS" : String) == "USELIGHT") = true := by
  obtain ⟨t, warnings, h, hread⟩ := Lit.readTechnique_summed_guarded
  have hregular : t.Regular := Lit.regular_of_lighting hread (by decide) (by decide)
  have hlights : (t.arena.read ⟨0⟩).condition =
      some "((defined(USELIGHT))) || (defined(NBLIGHTS))" := congrArg Lit.Lighting.lights hread
  have hformula : Formula.read? "((defined(USELIGHT))) || (defined(NBLIGHTS))" =
      some (.or (.test "USELIGHT") (.test "NBLIGHTS")) := by decide
  refine ⟨t, warnings, h, hregular, _, Lit.declared_of_lighting hread, rfl,
    congrArg Lit.Lighting.size hread, ?_, by decide⟩
  rw [hlights]
  exact (Condition.isTrue_iff_eval hformula).mpr (by decide)

end ShaderGraph
