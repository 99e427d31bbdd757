/-
  ShaderGraph.Proofs.MappingLines — a mapping line says what was written into it.

  Three marks part a line: `%%` around code, the first `:` in front of a condition, and one `=`.
  Which of them counts depends on where it stands, so the parts of a line are free in different
  ways: code and the condition behind it may hold any `=` and `:`, the sides of a line without
  code may not (`Writable`).

  - `split?_text_of_writable`: what is written from such parts is taken apart into the same parts.
  - `writable_of_split?`: and every line that is accepted has such parts.
  - `split?_text_iff`: so exactly these parts can be written and read back, and writing what was
    read of a line says the same as the line.
-/

import ShaderGraph.MappingLine
import ShaderGraph.Proofs.Cutting

namespace ShaderGraph

open Text (Trimmed trim isBlank)

def RightSide.text : RightSide → String
  | reference text => text
  | code text => "%% " ++ text ++ " %%"

namespace MappingLine

def guardText : Option String → String
  | none => ""
  | some condition => " : " ++ condition

/-- `left = right : condition`, without the end if there is no condition. -/
def text (m : MappingLine) : String := m.left ++ " = " ++ m.right.text ++ guardText m.condition

/-- Nothing to trim, and nothing that ends the part before its end. -/
structure Part (marks : List Char) (text : String) : Prop where
  trimmed : Trimmed text.toList
  noCode : ¬ codeMark <:+: text.toList
  unmarked : ∀ c ∈ marks, c ∉ text.toList

structure Guard (condition : String) : Prop where
  ne : condition ≠ ""
  trimmed : Trimmed condition.toList

inductive Writable : MappingLine → Prop
  | reference {left text : String} {condition : Option String} (hleft : Part ['=', ':'] left)
      (htext : Part ['=', ':'] text)
      (hguard : ∀ c ∈ condition, Guard c ∧ ¬ codeMark <:+: c.toList) :
      Writable ⟨left, .reference text, condition⟩
  /-- The first two marks enclose the code, so the condition may hold more of them. -/
  | code {left text : String} {condition : Option String} (hleft : Part ['='] left)
      (htext : Part [] text) (hguard : ∀ c ∈ condition, Guard c) :
      Writable ⟨left, .code text, condition⟩

section

variable {cs head left : List Char} {condition : Option String} {m : MappingLine}

/-! ## Conditions -/

theorem isBlank_space : ∀ c ∈ [' '], isBlank c = true := List.forall_mem_singleton.mpr rfl

theorem toList_guardText_some (condition : String) :
    (guardText (some condition)).toList = ' ' :: ':' :: ' ' :: condition.toList := by
  simp [guardText]

theorem Guard.tail?_eq {condition : String} (h : Guard condition) (bs : List Char)
    (hb : ∀ c ∈ bs, isBlank c = true) :
    tail? (bs ++ ':' :: ' ' :: condition.toList) = some (some condition) := by
  have hne : condition.toList ≠ [] := by simpa using h.ne
  have hkept : trim (bs ++ ':' :: ' ' :: condition.toList) = ':' :: ' ' :: condition.toList := by
    have hmarked : Trimmed (':' :: ' ' :: condition.toList) :=
      h.trimmed.marked hne (by decide) [' ']
    have := Text.trim_around bs (':' :: ' ' :: condition.toList) [] hb (by simp)
    rwa [List.append_nil, hmarked.trim_eq] at this
  have htrim : trim (' ' :: condition.toList) = condition.toList := by
    have := Text.trim_around [' '] condition.toList [] isBlank_space (by simp)
    simpa [h.trimmed.trim_eq] using this
  simp [tail?, hkept, htrim, hne]

/-- The condition of a line is without blanks at its ends, and stands in the line. -/
theorem of_tail? (h : tail? cs = some condition) :
    ∀ c ∈ condition, Guard c ∧ c.toList <:+: cs := by
  intro c hc
  subst hc
  unfold tail? at h
  split at h
  · simp at h
  · next rest htrim =>
    obtain ⟨hne, rfl⟩ : trim rest ≠ [] ∧ String.ofList (trim rest) = c := by simpa using h
    refine ⟨⟨by simpa using hne, by simpa using Text.trimmed_trim rest⟩, ?_⟩
    have hrest : rest <:+: cs := (List.suffix_cons ':' rest).isInfix.trans
      (htrim ▸ Text.trim_infix cs)
    simpa using (Text.trim_infix rest).trans hrest
  · cases h

/-! ## Left sides -/

/-- In front of code there is one `=`, with nothing but blanks behind it. -/
theorem assigned?_eq_some_iff :
    assigned? head = some left ↔ '=' ∉ left ∧ Text.trimEnd head = left ++ ['='] := by
  unfold assigned?
  constructor
  · intro h
    split at h
    · next rest hrest =>
      obtain ⟨hnot, rfl⟩ : '=' ∉ rest ∧ rest.reverse = left := by simpa using h
      exact ⟨by simpa using hnot, by simpa using congrArg List.reverse hrest⟩
    · cases h
  · rintro ⟨hnot, hend⟩
    simp [hend, hnot]

theorem assigned?_spaced (h : '=' ∉ left) : assigned? (left ++ [' ', '=', ' ']) =
    some (left ++ [' ']) := by
  rw [assigned?_eq_some_iff]
  exact ⟨by simpa using h, by simp [Text.trimEnd]; rfl⟩

/-! ## Lines that are written -/

theorem noCode_spaced {a b : List Char} (ha : ¬ codeMark <:+: a) (hb : ¬ codeMark <:+: b) :
    ¬ codeMark <:+: a ++ ' ' :: b := by
  rw [Text.infix_over_iff (by decide)]
  exact not_or.mpr ⟨ha, hb⟩

theorem trim_spaced {cs : List Char} (h : Trimmed cs) (bs ds : List Char)
    (hb : ∀ c ∈ bs, isBlank c = true) (hd : ∀ c ∈ ds, isBlank c = true) :
    trim (bs ++ cs ++ ds) = cs := by rw [Text.trim_around bs cs ds hb hd, h.trim_eq]

theorem beforeCondition_append {tail : List Char} (h : ':' ∉ head)
    (htail : ∀ c ∈ tail.head?, c = ':') : beforeCondition (head ++ tail) = (head, tail) := by
  cases tail with
  | nil => simp [beforeCondition, Text.cut?_eq_none_iff.mpr h]
  | cons c tail =>
    obtain rfl : c = ':' := htail c rfl
    simp [beforeCondition, Text.cut?_append h]

/-- A line without code is cut in front of its condition, and there at its only `=`. -/
theorem split?_sides {line left text : String} (hleft : Part ['=', ':'] left)
    (htext : Part ['=', ':'] text) (pad tail : List Char) (hpad : ∀ c ∈ pad, isBlank c = true)
    (hhead : ∀ c ∈ tail.head?, c = ':') (htail : tail? tail = some condition)
    (hline : line.toList = (left.toList ++ [' '] ++ '=' :: (' ' :: text.toList ++ pad)) ++ tail)
    (hcode : ¬ codeMark <:+: line.toList) :
    split? line = some ⟨left, .reference text, condition⟩ := by
  have hequalPad : '=' ∉ pad := fun h => absurd (hpad '=' h) (by decide)
  have hcolonPad : ':' ∉ pad := fun h => absurd (hpad ':' h) (by decide)
  have hequalLeft : '=' ∉ left.toList ++ [' '] := by simpa using hleft.unmarked '=' (by simp)
  have hequalText : '=' ∉ ' ' :: text.toList ++ pad := by
    simpa [hequalPad] using htext.unmarked '=' (by simp)
  have hcolon : ':' ∉ left.toList ++ [' '] ++ '=' :: (' ' :: text.toList ++ pad) := by
    simp [hleft.unmarked ':' (by simp), htext.unmarked ':' (by simp), hcolonPad]
  have hfields := Text.fields_eq_pair_iff.mpr ⟨hequalLeft, hequalText, rfl⟩
  have hl : trim (left.toList ++ [' ']) = left.toList :=
    trim_spaced hleft.trimmed [] [' '] (by simp) isBlank_space
  have ht : trim (' ' :: text.toList ++ pad) = text.toList :=
    trim_spaced htext.trimmed [' '] pad isBlank_space hpad
  rw [split?, Text.breakAt?_eq_none_iff.mpr hcode, hline]
  simp only [withReference?, beforeCondition_append hcolon hhead, hfields, htail, hl, ht]
  simp

theorem split?_text_reference {left text : String} {condition : Option String}
    (hleft : Part ['=', ':'] left) (htext : Part ['=', ':'] text)
    (hguard : ∀ c ∈ condition, Guard c ∧ ¬ codeMark <:+: c.toList) :
    split? (MappingLine.text ⟨left, .reference text, condition⟩) =
      some ⟨left, .reference text, condition⟩ := by
  cases condition with
  | none =>
    have hcode := noCode_spaced hleft.noCode (noCode_spaced (a := ['=']) (by decide) htext.noCode)
    refine split?_sides hleft htext [] [] (by simp) (by simp) rfl ?_ ?_
    · simp [MappingLine.text, RightSide.text, guardText]
    · simpa [MappingLine.text, RightSide.text, guardText] using hcode
  | some c =>
    obtain ⟨hc, hcodeGuard⟩ := hguard c rfl
    have hcode := noCode_spaced hleft.noCode (noCode_spaced (a := ['=']) (by decide)
      (noCode_spaced htext.noCode (noCode_spaced (a := [':']) (by decide) hcodeGuard)))
    refine split?_sides hleft htext [' '] (':' :: ' ' :: c.toList) isBlank_space (by simp)
      (hc.tail?_eq [] (by simp)) ?_ ?_
    · simp [MappingLine.text, RightSide.text, toList_guardText_some]
    · simpa [MappingLine.text, RightSide.text, toList_guardText_some] using hcode

theorem split?_text_code {left text : String} {condition : Option String}
    (hleft : Part ['='] left) (htext : Part [] text) (hguard : ∀ c ∈ condition, Guard c) :
    split? (MappingLine.text ⟨left, .code text, condition⟩) =
      some ⟨left, .code text, condition⟩ := by
  have hline : (MappingLine.text ⟨left, .code text, condition⟩).toList =
      (left.toList ++ [' ', '=', ' ']) ++ codeMark ++
        ((' ' :: text.toList ++ [' ']) ++ codeMark ++ (guardText condition).toList) := by
    simp [MappingLine.text, RightSide.text, codeMark]
  have hopen : ¬ codeMark <:+: left.toList ++ [' ', '=', ' '] ++ codeMark.dropLast := by
    have := noCode_spaced hleft.noCode (b := ['=', ' ', '%']) (by decide)
    simpa [codeMark] using this
  have hclose : ¬ codeMark <:+: ' ' :: text.toList ++ [' '] ++ codeMark.dropLast := by
    have := noCode_spaced (a := []) (by decide)
      (noCode_spaced htext.noCode (b := ['%']) (by decide))
    simpa [codeMark] using this
  have hassigned := assigned?_spaced (hleft.unmarked '=' (by simp))
  have htail : tail? (guardText condition).toList = some condition := by
    cases condition with
    | none => rfl
    | some c =>
      rw [toList_guardText_some]
      exact (hguard c rfl).tail?_eq [' '] isBlank_space
  have hl := trim_spaced hleft.trimmed [] [' '] (by simp) isBlank_space
  have ht := trim_spaced htext.trimmed [' '] [' '] isBlank_space isBlank_space
  simp only [split?, hline, Text.breakAt?_of_first (by decide) hopen, withCode?,
    Text.breakAt?_of_first (by decide) hclose, hassigned, htail, Option.bind_eq_bind,
    Option.bind_some, Option.pure_def]
  simp only [List.nil_append, List.cons_append] at hl ht ⊢
  simp [hl, ht]

theorem split?_text_of_writable (h : Writable m) : split? m.text = some m := by
  cases h with
  | reference hleft htext hguard => exact split?_text_reference hleft htext hguard
  | code hleft htext hguard => exact split?_text_code hleft htext hguard

/-! ## Lines that are accepted -/

/-- What is cut out of a text and trimmed is without the marks that it was cut at. -/
theorem part_of_cut {whole : List Char} {marks : List Char} (h : cs <:+: whole)
    (hcode : ¬ codeMark <:+: whole) (hmarks : ∀ c ∈ marks, c ∉ cs) :
    Part marks (.ofList (trim cs)) where
  trimmed := by simpa using Text.trimmed_trim cs
  noCode hin := hcode (((by simpa using hin : codeMark <:+: trim cs).trans
    (Text.trim_infix cs)).trans h)
  unmarked c hc hmem := hmarks c hc ((Text.trim_infix cs).subset (by simpa using hmem))

theorem writable_of_withCode? {rest : List Char} (hhead : ¬ codeMark <:+: head)
    (h : withCode? head rest = some m) : Writable m := by
  simp only [withCode?, Option.bind_eq_bind, Option.bind_eq_some_iff, Option.pure_def,
    Option.some.injEq] at h
  obtain ⟨⟨code, tail⟩, hcode, left, hleft, condition, htail, rfl⟩ := h
  obtain ⟨hequal, hend⟩ := assigned?_eq_some_iff.mp hleft
  have hin : left <:+: head :=
    ((List.prefix_append left ['=']).trans (hend ▸ Text.trimEnd_prefix head)).isInfix
  exact .code (part_of_cut hin hhead (by simpa using hequal))
    (part_of_cut (List.infix_refl code) (Text.not_infix_of_breakAt? (by decide) hcode) (by simp))
    fun c hc => (of_tail? htail c hc).1

theorem writable_of_withReference? (hcode : ¬ codeMark <:+: cs)
    (h : withReference? cs = some m) : Writable m := by
  obtain ⟨assignment, tail, hbefore, hcolon, hcs⟩ : ∃ assignment tail,
      beforeCondition cs = (assignment, tail) ∧ ':' ∉ assignment ∧ cs = assignment ++ tail := by
    unfold beforeCondition
    cases hcut : Text.cut? ':' cs with
    | none => exact ⟨cs, [], rfl, Text.cut?_eq_none_iff.mp hcut, by simp⟩
    | some cut =>
      obtain ⟨hnot, rfl⟩ := Text.cut?_eq_some_iff.mp hcut
      exact ⟨cut.1, ':' :: cut.2, rfl, hnot, rfl⟩
  simp only [withReference?, hbefore] at h
  split at h
  · next left right hfields =>
    simp only [Option.bind_eq_bind, Option.bind_eq_some_iff, Option.pure_def,
      Option.some.injEq] at h
    obtain ⟨condition, htail, rfl⟩ := h
    obtain ⟨hleft, hright, rfl⟩ := Text.fields_eq_pair_iff.mp hfields
    simp only [List.mem_append, List.mem_cons, not_or] at hcolon
    have hl : left <:+: cs := hcs ▸ ⟨[], '=' :: right ++ tail, by simp⟩
    have hr : right <:+: cs := hcs ▸ ⟨left ++ ['='], tail, by simp⟩
    have ht : tail <:+: cs := hcs ▸ ⟨left ++ '=' :: right, [], by simp⟩
    refine .reference (part_of_cut hl hcode (by simp [hleft, hcolon]))
      (part_of_cut hr hcode (by simp [hright, hcolon])) fun c hc => ?_
    obtain ⟨hguard, hin⟩ := of_tail? htail c hc
    exact ⟨hguard, fun hmark => hcode ((hmark.trans hin).trans ht)⟩
  · cases h

theorem writable_of_split? {line : String} (h : split? line = some m) : Writable m := by
  unfold split? at h
  cases hbreak : Text.breakAt? codeMark line.toList with
  | none =>
    rw [hbreak] at h
    exact writable_of_withReference? (Text.breakAt?_eq_none_iff.mp hbreak) h
  | some cut =>
    rw [hbreak] at h
    exact writable_of_withCode? (Text.not_infix_of_breakAt? (by decide) hbreak) h

/-! ## Writing and reading -/

/-- Exactly what can be written is read back, and every accepted line says the same as what is
written of it. -/
theorem split?_text_iff : (∀ m : MappingLine, split? m.text = some m ↔ Writable m) ∧
    ∀ (line : String) (m : MappingLine), split? line = some m → split? m.text = some m :=
  ⟨fun _ => ⟨writable_of_split?, split?_text_of_writable⟩,
    fun _ _ h => split?_text_of_writable (writable_of_split? h)⟩

/-- Code with marks of both kinds, written without blanks. -/
theorem split?_text_branch :
    split? "color =%%a == b ? c : d%%:Fog" = some ⟨"color", .code "a == b ? c : d", some "Fog"⟩ ∧
      MappingLine.text ⟨"color", .code "a == b ? c : d", some "Fog"⟩ =
        "color = %% a == b ? c : d %% : Fog" ∧
      Writable ⟨"color", .code "a == b ? c : d", some "Fog"⟩ ∧
      split? "color = %% a == b ? c : d %% : Fog" =
        some ⟨"color", .code "a == b ? c : d", some "Fog"⟩ := by
  have hread : split? "color =%%a == b ? c : d%%:Fog" =
      some ⟨"color", .code "a == b ? c : d", some "Fog"⟩ := by rfl
  have htext : MappingLine.text ⟨"color", .code "a == b ? c : d", some "Fog"⟩ =
      "color = %% a == b ? c : d %% : Fog" := by decide
  have hagain := split?_text_iff.2 _ _ hread
  exact ⟨hread, htext, (split?_text_iff.1 _).mp hagain, htext ▸ hagain⟩

end

end MappingLine

end ShaderGraph
