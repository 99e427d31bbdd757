/-
  ShaderGraph.Proofs.VariableLines — which lines declare a variable, and what they say of it.

  - `ofLine?_eq_some_iff`: the lines that declare a variable are those that spell it out, with
    single spaces for the blanks between its words, and any number of closing brackets.
  - `readVariable_written`: so a variable that is written down with any blanks is read back.
  - `readVariable_ok_iff`: a line that is accepted has the documented form, but for the brackets
    that close the length; every other line is refused. `unclosed_bracket_declares` has none of
    them.
-/

import ShaderGraph.Proofs.Joining
import ShaderGraph.Proofs.Signatures

namespace ShaderGraph

open Block (Statement)
open Text (isBlank isSpacing trim words)

/-! ## Spelling a variable out -/

/-- The length of an array in brackets, of which `closing` close it. -/
def bracketed : Option String → (closing : Nat) → List Char
  | none, _ => []
  | some length, closing => '[' :: length.toList ++ List.replicate closing ']'

namespace Variable

/-- What a line says of the variable, with single spaces and `closing` brackets at the end of its
length. -/
def spelled (v : Variable) (closing : Nat) : String :=
  v.type ++ " " ++ v.name ++ .ofList (bracketed v.multiplicity closing) ++
    match v.defaultValue with
    | none => ""
    | some value => " " ++ value

def spelledWords (v : Variable) (closing : Nat) : List (List Char) :=
  v.type.toList :: (v.name.toList ++ bracketed v.multiplicity closing) ::
    (v.defaultValue.map String.toList).toList

structure Declarable (v : Variable) : Prop where
  bare : v.Bare
  type : Text.Solid v.type.toList
  name : Text.Solid v.name.toList
  noBracket : '[' ∉ v.name.toList
  multiplicity : ∀ m ∈ v.multiplicity, Text.Solid m.toList ∧ m.toList.getLast? ≠ some ']'
  defaultValue : ∀ d ∈ v.defaultValue, Text.Solid d.toList ∧ d.toList.head? ≠ some '['

end Variable

section

variable {declaration name rest : List Char} {length : Option (List Char)} {v : Variable}
  {closing : Nat} {line : String}

/-- The number of closing brackets shows, if there is a length to close. -/
theorem spelled_eq_spelled_iff {m n : Nat} :
    v.spelled m = v.spelled n ↔ v.multiplicity = none ∨ m = n := by
  cases hm : v.multiplicity with
  | none => simp [Variable.spelled, hm, bracketed]
  | some length =>
    refine ⟨fun h => Or.inr ?_, fun h => by rw [h.resolve_left (by simp)]⟩
    have := congrArg (fun text => text.toList.length) h
    simp [Variable.spelled, hm, bracketed] at this
    omega

theorem toList_spelled (v : Variable) (closing : Nat) :
    (v.spelled closing).toList = [' '].intercalate (v.spelledWords closing) := by
  cases hd : v.defaultValue <;>
    simp [Variable.spelled, Variable.spelledWords, hd, List.intercalate_cons_cons]

/-- All closing brackets are taken off the end of a length. -/
theorem dropClosing_eq_iff {inner : List Char} :
    (rest.reverse.dropWhile (· == ']')).reverse = inner ↔
      inner.getLast? ≠ some ']' ∧ ∃ closing, rest = inner ++ List.replicate closing ']' := by
  constructor
  · rintro rfl
    refine ⟨fun h => ?_, (rest.reverse.takeWhile (· == ']')).length, ?_⟩
    · have := List.head?_dropWhile_not (· == ']') rest.reverse
      rw [List.getLast?_reverse] at h
      simp [h] at this
    · have hall : ∀ c ∈ rest.reverse.takeWhile (· == ']'), c = ']' := fun c hc => by
        simpa using List.all_eq_true.mp List.all_takeWhile c hc
      rw [← List.reverse_replicate, ← List.eq_replicate_of_mem hall, ← List.reverse_append,
        List.takeWhile_append_dropWhile, List.reverse_reverse]
  · rintro ⟨hlast, closing, rfl⟩
    have hinner : inner.reverse.dropWhile (· == ']') = inner.reverse := by
      rw [List.getLast?_eq_head?_reverse] at hlast
      cases hr : inner.reverse with
      | nil => rfl
      | cons c cs =>
        rw [hr] at hlast
        exact List.dropWhile_cons_of_neg (by simpa using hlast)
    rw [List.reverse_append, List.reverse_replicate,
      List.dropWhile_append_of_pos (by simp), hinner, List.reverse_reverse]

/-- A word declares a name without brackets, and behind it a length in brackets that are opened and
need not be closed. -/
theorem nameAndLength?_eq_some_iff (h : Text.Solid declaration) :
    nameAndLength? declaration = some (name, length) ↔
      '[' ∉ name ∧ (∀ l ∈ length, l ≠ [] ∧ l.getLast? ≠ some ']') ∧
        ∃ closing, declaration = name ++ bracketed (length.map String.ofList) closing := by
  constructor
  · intro hread
    unfold nameAndLength? at hread
    cases hcut : Text.cut? '[' declaration with
    | none =>
      rw [hcut] at hread
      cases hread
      exact ⟨Text.cut?_eq_none_iff.mp hcut, by simp, 0, by simp [bracketed]⟩
    | some cut =>
      obtain ⟨before, rest⟩ := cut
      rw [hcut] at hread
      obtain ⟨hbefore, rfl⟩ := Text.cut?_eq_some_iff.mp hcut
      obtain ⟨inner, hdrop⟩ : ∃ inner, (rest.reverse.dropWhile (· == ']')).reverse = inner :=
        ⟨_, rfl⟩
      simp only [hdrop] at hread
      obtain ⟨hlast, closing, rfl⟩ := dropClosing_eq_iff.mp hdrop
      have hinner : trim inner = inner :=
        Text.trim_of_noBlank fun c hc => h.noBlank c (by simp [hc])
      have hname : trim before = before :=
        Text.trim_of_noBlank fun c hc => h.noBlank c (by simp [hc])
      simp only [hinner, hname] at hread
      split at hread
      · cases hread
      · next hne =>
        cases hread
        refine ⟨hbefore, fun l hl => ?_, closing, by simp [bracketed]⟩
        cases hl
        exact ⟨by simpa using hne, hlast⟩
  · rintro ⟨hname, hlength, closing, rfl⟩
    cases length with
    | none =>
      simp [nameAndLength?, bracketed, Text.cut?_eq_none_iff.mpr hname]
    | some l =>
      obtain ⟨hne, hlast⟩ := hlength l rfl
      have hcut := Text.cut?_append hname (l ++ List.replicate closing ']')
      have hinner := dropClosing_eq_iff.mpr ⟨hlast, closing, rfl⟩
      have hl : trim l = l := Text.trim_of_noBlank fun c hc => h.noBlank c (by simp [bracketed, hc])
      have hn : trim name = name := Text.trim_of_noBlank fun c hc => h.noBlank c (by simp [hc])
      simp only [nameAndLength?, bracketed, Option.map_some, String.toList_ofList,
        List.cons_append, hcut, hinner, hl, hn, List.isEmpty_iff, hne, if_false]

/-! ## Reading what is spelled out -/

def declarationWords (line : String) : List (List Char) :=
  words (joinBrackets (trim line.toList))

def tidied (line : String) : String :=
  .ofList (Text.collapse (joinBrackets (trim line.toList)))

/-- What two or three words declare. -/
theorem declare_eq_some_iff {type : List Char} (default? : Option (List Char))
    (h : Text.Solid declaration) :
    ((nameAndLength? declaration).map fun (name, length) =>
      { Variable.plain (.ofList type) (.ofList name) with
        multiplicity := length.map String.ofList
        defaultValue := default?.map String.ofList }) = some v ↔
      v.Bare ∧ '[' ∉ v.name.toList ∧
        (∀ m ∈ v.multiplicity, m ≠ "" ∧ m.toList.getLast? ≠ some ']') ∧
        ∃ closing, type = v.type.toList ∧
          declaration = v.name.toList ++ bracketed v.multiplicity closing ∧
          default? = v.defaultValue.map String.toList := by
  constructor
  · intro hread
    obtain ⟨⟨name, length⟩, hname, rfl⟩ := Option.map_eq_some_iff.mp hread
    obtain ⟨hnot, hlength, closing, hdeclaration⟩ := (nameAndLength?_eq_some_iff h).mp hname
    refine ⟨⟨rfl, rfl, rfl, rfl⟩, by simpa [Variable.plain] using hnot, ?_, closing,
      by simp [Variable.plain], by simpa [Variable.plain] using hdeclaration, ?_⟩
    · intro m hm
      obtain ⟨l, hl, rfl⟩ := Option.map_eq_some_iff.mp hm
      simpa using hlength l hl
    · cases default? <;> simp
  · rintro ⟨hbare, hnot, hlength, closing, rfl, hdeclaration, rfl⟩
    refine Option.map_eq_some_iff.mpr ⟨(v.name.toList, v.multiplicity.map String.toList), ?_, ?_⟩
    · refine (nameAndLength?_eq_some_iff h).mpr ⟨hnot, fun l hl => ?_, closing, ?_⟩
      · obtain ⟨m, hm, rfl⟩ := Option.map_eq_some_iff.mp hl
        simpa using hlength m hm
      · cases hm : v.multiplicity <;> simpa [hm] using hdeclaration
    · obtain ⟨type, name, origin, multiplicity, defaultValue, isOutput, condition, sizeDefine⟩ := v
      obtain ⟨rfl, rfl, rfl, rfl⟩ := hbare
      cases multiplicity <;> cases defaultValue <;> simp [Variable.plain]

theorem ofLine?_eq_some_iff_words : Variable.ofLine? line = some v ↔
    v.Bare ∧ '[' ∉ v.name.toList ∧
      (∀ m ∈ v.multiplicity, m ≠ "" ∧ m.toList.getLast? ≠ some ']') ∧
      ∃ closing, declarationWords line = v.spelledWords closing := by
  have hsolid : ∀ w ∈ declarationWords line, Text.Solid w := fun w => Text.solid_of_mem_words
  have hread : Variable.ofLine? line = _ := Variable.ofLine?.eq_1 line
  rw [← declarationWords] at hread
  rw [hread]
  generalize declarationWords line = ws at hsolid
  match ws, hsolid with
  | [type, declaration], hsolid =>
    refine (declare_eq_some_iff none (hsolid declaration (by simp))).trans ?_
    cases hd : v.defaultValue <;> simp [Variable.spelledWords, hd]
  | [type, declaration, defaultValue], hsolid =>
    refine (declare_eq_some_iff (some defaultValue) (hsolid declaration (by simp))).trans ?_
    cases hd : v.defaultValue <;> simp [Variable.spelledWords, hd]
  | [], _ => simp [Variable.spelledWords]
  | [_], _ => simp [Variable.spelledWords]
  | _ :: _ :: _ :: _ :: _, _ => cases hd : v.defaultValue <;> simp [Variable.spelledWords, hd]

/-- A line without other blanks than spaces and tabs is tidied to its words and single spaces. -/
theorem toList_tidied (honly : Text.PlainBlanks line.toList) :
    (tidied line).toList = [' '].intercalate (declarationWords line) := by
  have htrim := Text.trimmed_trim line.toList
  have hlast : ∀ c ∈ (joinBrackets (trim line.toList)).getLast?, isBlank c = false := by
    rw [getLast?_joinBrackets]
    exact htrim.last
  have hmem : Text.PlainBlanks (joinBrackets (trim line.toList)) :=
    fun c hc => honly c ((Text.trim_infix _).subset ((joinBrackets_sublist _).subset hc))
  have hfirst : (joinBrackets (trim line.toList)).head?.any isBlank = false := by
    cases hcs : trim line.toList with
    | nil => rfl
    | cons c cs =>
      have hc : isBlank c = false := htrim.first c (by rw [hcs]; rfl)
      simp [joinBrackets_other (Text.not_isSpacing hc), hc]
  rw [tidied, String.toList_ofList, Text.collapse_eq hmem hlast, hfirst, declarationWords]
  simp

/-- Only the first word may start with a bracket. -/
theorem head?_of_mem_tail (honly : Text.PlainBlanks line.toList)
    {w : List Char} (h : w ∈ (declarationWords line).tail) : w.head? ≠ some '[' := by
  intro hhead
  obtain ⟨rest, rfl⟩ := List.head?_eq_some_iff.mp hhead
  have hin : ' ' :: '[' :: rest <:+: [' '].intercalate (declarationWords line) :=
    Text.infix_intercalate h
  rw [← toList_tidied honly, tidied, String.toList_ofList] at hin
  have hspace : [' ', '['] <:+: ' ' :: '[' :: rest := ⟨[], rest, rfl⟩
  exact (joins_iff.mpr rfl).not_loose (Text.loose_of_collapse (hspace.trans hin))

theorem Variable.Declarable.multiplicity_ends (h : v.Declarable) :
    ∀ m ∈ v.multiplicity, m ≠ "" ∧ m.toList.getLast? ≠ some ']' := fun m hm =>
  ⟨by simpa using (h.multiplicity m hm).1.ne, (h.multiplicity m hm).2⟩

theorem Variable.Declarable.solid (h : v.Declarable) (closing : Nat) :
    ∀ w ∈ v.spelledWords closing, Text.Solid w := by
  intro w hw
  simp only [spelledWords, List.mem_cons, Option.mem_toList, Option.map_eq_some_iff] at hw
  rcases hw with rfl | rfl | ⟨value, hvalue, rfl⟩
  · exact h.type
  · refine ⟨by simp [h.name.ne], fun c hc => ?_⟩
    rcases List.mem_append.mp hc with hc | hc
    · exact h.name.noBlank c hc
    · cases hm : v.multiplicity with
      | none => simp [hm, bracketed] at hc
      | some m =>
        simp only [hm, bracketed, List.cons_append, List.mem_cons, List.mem_append,
          List.mem_replicate] at hc
        rcases hc with rfl | hc | ⟨-, rfl⟩
        · decide
        · exact (h.multiplicity m hm).1.noBlank c hc
        · decide
  · exact (h.defaultValue value hvalue).1

/-- What the words of a line declare can be declared, if none of them but the first starts with a
bracket. -/
theorem declarable_of_words (hbare : v.Bare) (hnot : '[' ∉ v.name.toList)
    (hlength : ∀ m ∈ v.multiplicity, m ≠ "" ∧ m.toList.getLast? ≠ some ']')
    (hsolid : ∀ w ∈ v.spelledWords closing, Text.Solid w)
    (hhead : ∀ w ∈ (v.spelledWords closing).tail, w.head? ≠ some '[') : v.Declarable := by
  have hdeclaration := hsolid (v.name.toList ++ bracketed v.multiplicity closing)
    (by simp [Variable.spelledWords])
  refine ⟨hbare, hsolid _ List.mem_cons_self, ⟨fun hname => ?_, fun c hc => ?_⟩, hnot,
    fun m hm => ⟨⟨by simpa using (hlength m hm).1, fun c hc => ?_⟩, (hlength m hm).2⟩,
    fun d hd => ?_⟩
  · cases hm : v.multiplicity with
    | none => exact hdeclaration.ne (by simp [hname, hm, bracketed])
    | some m =>
      exact hhead (v.name.toList ++ bracketed v.multiplicity closing)
        (by simp [Variable.spelledWords]) (by simp [hname, hm, bracketed])
  · exact hdeclaration.noBlank c (List.mem_append_left _ hc)
  · exact hdeclaration.noBlank c (by simp [Option.mem_def.mp hm, bracketed, hc])
  · have hmem : d.toList ∈ (v.spelledWords closing).tail := by
      simp [Variable.spelledWords, Option.mem_def.mp hd]
    exact ⟨hsolid _ (List.mem_of_mem_tail hmem), hhead _ hmem⟩

/-- The lines that declare a variable are those that spell it out. -/
theorem ofLine?_eq_some_iff (honly : Text.PlainBlanks line.toList) :
    Variable.ofLine? line = some v ↔
      v.Declarable ∧ ∃ closing, tidied line = v.spelled closing := by
  have hsolid : ∀ w ∈ declarationWords line, Text.Solid w := fun w => Text.solid_of_mem_words
  have hhead := fun w => head?_of_mem_tail honly (w := w)
  rw [ofLine?_eq_some_iff_words]
  constructor
  · rintro ⟨hbare, hnot, hlength, closing, hwords⟩
    rw [hwords] at hsolid hhead
    refine ⟨declarable_of_words hbare hnot hlength hsolid hhead, closing, String.toList_inj.mp ?_⟩
    rw [toList_tidied honly, hwords, toList_spelled]
  · rintro ⟨h, closing, htidied⟩
    have hwords := congrArg (fun text => words text.toList) htidied
    simp only [toList_tidied honly, toList_spelled, Text.words_intercalate hsolid,
      Text.words_intercalate (h.solid closing)] at hwords
    exact ⟨h.bare, h.noBracket, h.multiplicity_ends, closing, hwords⟩

end

/-! ## Reading what is written down -/

/-- The blanks of a declaration: spaces and tabs, at least one between two words. -/
structure Gaps where
  beforeName : List Char
  beforeBracket : List Char
  beforeDefault : List Char
  name_ne : beforeName ≠ []
  default_ne : beforeDefault ≠ []
  spacing : ∀ c ∈ beforeName ++ beforeBracket ++ beforeDefault, isSpacing c = true

namespace Gaps

def joined (g : Gaps) : Gaps where
  beforeName := g.beforeName
  beforeBracket := []
  beforeDefault := g.beforeDefault
  name_ne := g.name_ne
  default_ne := g.default_ne
  spacing c hc := g.spacing c (by simp at hc ⊢; tauto)

def lengthText (g : Gaps) : Option String → List Char
  | none => []
  | some length => g.beforeBracket ++ '[' :: (length.toList ++ [']'])

def defaultText (g : Gaps) : Option String → List Char
  | none => []
  | some value => g.beforeDefault ++ value.toList

section

variable (g : Gaps)

theorem spacing_name : ∀ c ∈ g.beforeName, isSpacing c = true :=
  fun c hc => g.spacing c (by simp [hc])

theorem spacing_bracket : ∀ c ∈ g.beforeBracket, isSpacing c = true :=
  fun c hc => g.spacing c (by simp [hc])

theorem spacing_default : ∀ c ∈ g.beforeDefault, isSpacing c = true :=
  fun c hc => g.spacing c (by simp [hc])

theorem lengthText_joined (length : Option String) :
    g.joined.lengthText length = bracketed length 1 := by
  cases length <;> simp [lengthText, joined, bracketed]

theorem joinBrackets_lengthText {length : Option String}
    (h : ∀ m ∈ length, Text.Solid m.toList) (cs : List Char) :
    joinBrackets (g.lengthText length ++ cs) = bracketed length 1 ++ joinBrackets cs := by
  cases length with
  | none => rfl
  | some m =>
    have hm : ∀ c ∈ m.toList ++ [']'], isBlank c = false := by
      intro c hc
      rcases List.mem_append.mp hc with hc | hc
      · exact (h m rfl).noBlank c hc
      · obtain rfl : c = ']' := by simpa using hc
        decide
    rw [lengthText, List.append_assoc, List.cons_append,
      joinBrackets_gap_bracket g.spacing_bracket, joinBrackets_solid hm]
    simp [bracketed]

theorem joinBrackets_defaultText {value : Option String}
    (h : ∀ d ∈ value, Text.Solid d.toList ∧ d.toList.head? ≠ some '[') :
    joinBrackets (g.defaultText value) = g.defaultText value := by
  cases value with
  | none => rfl
  | some d =>
    obtain ⟨hd, hhead⟩ := h d rfl
    have hself : joinBrackets d.toList = d.toList := by
      simpa [joinBrackets] using joinBrackets_solid hd.noBlank []
    rw [defaultText, joinBrackets_gap g.spacing_default (by rwa [hself]), hself]

theorem words_defaultText {value : Option String} (h : ∀ d ∈ value, Text.Solid d.toList)
    {w : List Char} (hw : Text.Solid w) :
    words (w ++ g.defaultText value) = w :: (value.map String.toList).toList := by
  cases value with
  | none => simp [defaultText, Text.words_of_solid hw]
  | some d =>
    rw [defaultText, Text.words_gap hw g.default_ne
      fun c hc => Text.isBlank_of_isSpacing (g.spacing_default c hc), Text.words_of_solid (h d rfl)]
    rfl

end

end Gaps

namespace Variable

/-- `type name [length] default`, the parts that there are, with these blanks. -/
def written (v : Variable) (g : Gaps) : String :=
  v.type ++ .ofList g.beforeName ++ v.name ++ .ofList (g.lengthText v.multiplicity) ++
    .ofList (g.defaultText v.defaultValue)

section

variable {v : Variable}

theorem toList_written (v : Variable) (g : Gaps) : (v.written g).toList =
    v.type.toList ++ (g.beforeName ++ (v.name.toList ++
      (g.lengthText v.multiplicity ++ g.defaultText v.defaultValue))) := by
  simp [written]

theorem Declarable.trimmed_written (h : v.Declarable) (g : Gaps) :
    Text.Trimmed (v.written g).toList := by
  -- the last character is that of the default, or a bracket, or that of the name
  rw [toList_written]
  cases hd : v.defaultValue with
  | some d =>
    have := h.type.trimmed_append (h.defaultValue d hd).1
      (g.beforeName ++ (v.name.toList ++ (g.lengthText v.multiplicity ++ g.beforeDefault)))
    simpa [Gaps.defaultText] using this
  | none =>
    cases hm : v.multiplicity with
    | some m =>
      have := h.type.trimmed_append (b := [']']) (by decide)
        (g.beforeName ++ (v.name.toList ++ (g.beforeBracket ++ '[' :: m.toList)))
      simpa [Gaps.lengthText, Gaps.defaultText] using this
    | none =>
      simpa [Gaps.lengthText, Gaps.defaultText] using h.type.trimmed_append h.name g.beforeName

/-- Joining takes out the blanks in front of the bracket, and no others. -/
theorem Declarable.joinBrackets_written (h : v.Declarable) (g : Gaps) :
    joinBrackets (v.written g).toList = (v.written g.joined).toList := by
  have hname : (joinBrackets (v.name.toList ++ (g.lengthText v.multiplicity ++
      g.defaultText v.defaultValue))).head? ≠ some '[' := by
    obtain ⟨c, rest, hc⟩ := List.exists_cons_of_ne_nil h.name.ne
    have hnot := h.noBracket
    rw [joinBrackets_solid h.name.noBlank]
    simp only [hc, List.mem_cons, not_or, List.cons_append, List.head?_cons] at hnot ⊢
    simpa using Ne.symm hnot.1
  rw [toList_written, toList_written, joinBrackets_solid h.type.noBlank,
    joinBrackets_gap g.spacing_name hname, joinBrackets_solid h.name.noBlank,
    g.joinBrackets_lengthText fun m hm => (h.multiplicity m hm).1,
    g.joinBrackets_defaultText h.defaultValue, g.lengthText_joined]
  rfl

theorem Declarable.words_written (h : v.Declarable) (g : Gaps) :
    words (v.written g.joined).toList = v.spelledWords 1 := by
  have hdeclaration := h.solid 1 (v.name.toList ++ bracketed v.multiplicity 1)
    (by simp [spelledWords])
  rw [toList_written, g.lengthText_joined, ← List.append_assoc v.name.toList,
    Text.words_gap h.type g.joined.name_ne
      fun c hc => Text.isBlank_of_isSpacing (g.joined.spacing_name c hc),
    g.joined.words_defaultText (fun d hd => (h.defaultValue d hd).1) hdeclaration]
  rfl

end

end Variable

section

variable {v : Variable} {statement : Statement}

theorem readVariable_eq_ok_iff :
    readVariable statement = .ok v ↔ Variable.ofLine? statement.line = some v := by
  cases h : Variable.ofLine? statement.line <;> simp [readVariable, h]

end

/-- A variable that is written down with any blanks is read back: the passes over the line end when
the bracket is joined, and the line is then read as what was written. -/
theorem readVariable_written (v : Variable) (h : v.Declarable) (g : Gaps) (statement : Statement)
    (hline : statement.line = v.written g) :
    Joins (trim statement.line.toList) (v.written g.joined).toList ∧
      readVariable statement = .ok v := by
  have htrim : trim (v.written g).toList = (v.written g).toList := (h.trimmed_written g).trim_eq
  rw [hline, htrim, joins_iff, h.joinBrackets_written, readVariable_eq_ok_iff, hline,
    ofLine?_eq_some_iff_words]
  refine ⟨rfl, h.bare, h.noBracket, h.multiplicity_ends, 1, ?_⟩
  rw [declarationWords, htrim, h.joinBrackets_written, h.words_written]

/-- Blanks of both kinds, some of them in front of the bracket. -/
theorem readVariable_written_lights :
    Joins (trim "vec4 \tlights\t [NbLights]  vec4(1.0)".toList)
        "vec4 \tlights[NbLights]  vec4(1.0)".toList ∧
      readVariable ⟨⟨3, "vec4 \tlights\t [NbLights]  vec4(1.0)"⟩, []⟩ =
        .ok { Variable.plain "vec4" "lights" with
          multiplicity := some "NbLights", defaultValue := some "vec4(1.0)" } := by
  have hdeclarable : Variable.Declarable { Variable.plain "vec4" "lights" with
      multiplicity := some "NbLights", defaultValue := some "vec4(1.0)" } :=
    ⟨⟨rfl, rfl, rfl, rfl⟩, by decide, by decide, by decide, fun m hm => by cases hm; decide,
      fun d hd => by cases hd; decide⟩
  exact readVariable_written _ hdeclarable
    ⟨[' ', '\t'], ['\t', ' '], [' ', ' '], by decide, by decide, List.all_eq_true.mp rfl⟩
    ⟨⟨3, "vec4 \tlights\t [NbLights]  vec4(1.0)"⟩, []⟩ (by decide)

/-- Exactly what a line spells out is read, with any number of brackets at the end of a length, and
every other line is refused. What is read has the documented form exactly if there is no length or
one bracket closes it. -/
theorem readVariable_ok_iff (statement : Statement)
    (honly : Text.PlainBlanks statement.line.toList) :
    (∀ v, readVariable statement = .ok v ↔
      v.Declarable ∧ ∃ closing, tidied statement.line = v.spelled closing) ∧
    ((∀ v, readVariable statement ≠ .ok v) → readVariable statement =
      .error ((Cause.malformedVariable statement.line).located statement)) ∧
    ∀ (v : Variable) (closing : Nat), tidied statement.line = v.spelled closing →
      (tidied statement.line = v.spelled 1 ↔ v.multiplicity = none ∨ closing = 1) := by
  refine ⟨fun v => ?_, fun h => ?_, fun v closing h => ?_⟩
  · rw [readVariable_eq_ok_iff, ofLine?_eq_some_iff honly]
  · cases hline : Variable.ofLine? statement.line with
    | none => simp [readVariable, hline]
    | some v => exact absurd (readVariable_eq_ok_iff.mpr hline) (h v)
  · rw [h, spelled_eq_spelled_iff]

/-- A tab in front of the bracket, and a default. -/
theorem readVariable_ok_default :
    Text.PlainBlanks "int lights\t[4]  8".toList ∧
      readVariable ⟨⟨4, "int lights\t[4]  8"⟩, []⟩ = .ok { Variable.plain "int" "lights" with
        multiplicity := some "4", defaultValue := some "8" } ∧
      tidied "int lights\t[4]  8" = "int lights[4] 8" := by
  have honly : Text.PlainBlanks "int lights\t[4]  8".toList := by decide
  have hdeclarable : Variable.Declarable { Variable.plain "int" "lights" with
      multiplicity := some "4", defaultValue := some "8" } :=
    ⟨⟨rfl, rfl, rfl, rfl⟩, by decide, by decide, by decide, fun m hm => by cases hm; decide,
      fun d hd => by cases hd; decide⟩
  exact ⟨honly, ((readVariable_ok_iff ⟨⟨4, "int lights\t[4]  8"⟩, []⟩ honly).1 _).mpr
    ⟨hdeclarable, 1, by decide⟩, by decide⟩

/-- A length that is never closed is taken for one that is. -/
theorem unclosed_bracket_declares :
    readVariable ⟨⟨3, "vec4 lights[4"⟩, []⟩ =
        .ok { Variable.plain "vec4" "lights" with multiplicity := some "4" } ∧
      tidied "vec4 lights[4" = "vec4 lights[4" ∧
      Variable.spelled { Variable.plain "vec4" "lights" with multiplicity := some "4" } 1 =
        "vec4 lights[4]" := by
  refine ⟨by rfl, by decide, by decide⟩

end ShaderGraph
