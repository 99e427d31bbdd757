/-
  ShaderGraph.Proofs.References — how a reference is written, and what is read of it.

  - `Grammar.words?_eq_some_iff_reads`: on every text, comments or not, the words of a reference
    are the identifiers that its rule reads, and there are none where the rule fails.
  - `words?_of_dotSeparated`, `dotSeparated_of_words?`: where no comment starts, the texts that are
    read are words with single dots between them, and spaces and tabs around the words.
  - `parse?_text_eq_some_iff`: exactly those references are read back as they are written whose
    parts are words and whose namespace is no node with a reserved word for a name.
  - `parse?_text_iff`: both, for a line with blanks of any kind around it.
-/

import ShaderGraph.Proofs.Grammar
import ShaderGraph.Reference

namespace ShaderGraph

open Text (isWordChar isSpacing gap skipGap trim)
open Condition (IsWord WordOver Uncommented)

/-! ## The rule -/

namespace Grammar

def dotted : Expr := .seq (.exactly ['.']) (.seq skip identifier)

def reference : Expr :=
  .seq skip (.seq identifier (.seq skip (.seq dotted.spacedMany closing)))

def identifiers (tokens : List Token) : List (List Char) :=
  (tokens.filter (·.kind == .identifier)).map Token.text

@[simp] theorem identifiers_append (s t : List Token) :
    identifiers (s ++ t) = identifiers s ++ identifiers t := by
  simp [identifiers]

theorem identifiers_gap {tokens : List Token} (h : IsGap tokens) : identifiers tokens = [] := by
  rw [identifiers, List.map_eq_nil_iff, List.filter_eq_nil_iff]
  intro t ht
  rcases h t ht with hk | hk <;> simp [hk]

def Outcome.identifiers (o : Outcome) : Option (List (List Char)) :=
  o.map fun (tokens, _) => Grammar.identifiers tokens

def moreWords : Expr := .seq (.many (.seq skip dotted)) closing

section

variable {cs rest : List Char} {o : Outcome}

theorem Outcome.identifiers_behind (s : List Token) (o : Outcome) :
    (o.behind s).identifiers = o.identifiers.map (Grammar.identifiers s ++ ·) := by
  cases o <;> simp [behind, identifiers]

theorem dotted_fails (h : ¬ ['.'] <+: cs) : Reads dotted cs none := .seq_fails (fails_exactly h)

/-- At the end of a text there are no more words. -/
theorem exists_reads_over (hover : skipGap cs = []) :
    ∃ o, Reads moreWords cs o ∧ o.identifiers = some [] := by
  obtain ⟨tokens, hskip, -, hgap⟩ := exists_reads_skip cs
  rw [show (gap cs).2 = [] from hover] at hskip
  have hmany : Reads (.many (.seq skip dotted)) cs (some ([], cs)) :=
    .many_over (hskip.seq (dotted_fails (by simp)))
  refine ⟨_, hmany.seq (reads_closing hskip), ?_⟩
  exact congrArg some (identifiers_gap hgap)

/-- Without a dot and a word behind it, the text is not read to its end. -/
theorem moreWords_fails (h : Reads dotted (skipGap cs) none) (hne : skipGap cs ≠ []) :
    Reads moreWords cs none := by
  obtain ⟨tokens, hskip, -, -⟩ := exists_reads_skip cs
  exact (Reads.many_over (hskip.seq h)).seq (hskip.seq (ends_fails hne))

/-- Behind a dot the rest is read as a text of its own. -/
theorem exists_reads_dotted (hdot : skipGap cs = '.' :: rest)
    (h : Reads (.seq skip (.seq identifier moreWords)) rest o) :
    ∃ o', Reads moreWords cs o' ∧ o'.identifiers = o.identifiers := by
  obtain ⟨before, hbefore, -, hgap⟩ := exists_reads_skip cs
  obtain ⟨behind, hbehind, -, hgap'⟩ := exists_reads_skip rest
  obtain ⟨o, hwords, rfl⟩ := h.second hbehind
  have hexactly := reads_exactly ['.'] rest
  rw [show (gap cs).2 = _ from hdot] at hbefore
  by_cases hword : (skipGap rest).takeWhile isWordChar = []
  · have hfails := identifier_fails hword
    obtain rfl := hwords.unique (.seq_fails hfails)
    refine ⟨none, moreWords_fails ?_ (by simp [hdot]), rfl⟩
    rw [hdot]
    exact hexactly.seq (hbehind.seq hfails)
  · have hword := reads_identifier hword
    obtain ⟨o, hmore, rfl⟩ := hwords.second hword
    refine ⟨_, (hbefore.seq (hexactly.seq (hbehind.seq hword))).more hmore, ?_⟩
    simp only [Outcome.behind_behind, Outcome.identifiers_behind, identifiers_append,
      identifiers_gap hgap, identifiers_gap hgap']
    rfl

/-- The first word of a text, with what is read behind it. -/
theorem exists_reads_first (hword : (skipGap cs).takeWhile isWordChar ≠ [])
    (h : Reads moreWords ((skipGap cs).dropWhile isWordChar) o) :
    ∃ o', Reads (.seq skip (.seq identifier moreWords)) cs o' ∧
      o'.identifiers = o.identifiers.map ((skipGap cs).takeWhile isWordChar :: ·) := by
  obtain ⟨tokens, hskip, -, hgap⟩ := exists_reads_skip cs
  refine ⟨_, hskip.seq ((reads_identifier hword).seq h), ?_⟩
  rw [Outcome.behind_behind, Outcome.identifiers_behind, identifiers_append, identifiers_gap hgap]
  rfl

theorem exists_reads_words (cs : List Char) : ∃ o,
    Reads (.seq skip (.seq identifier moreWords)) cs o ∧
      Reference.words? cs = o.identifiers := by
  fun_induction Reference.words? cs with
  | case1 cs word hword =>
    obtain ⟨tokens, hskip, -, -⟩ := exists_reads_skip cs
    exact ⟨none, hskip.seq (.seq_fails (identifier_fails (List.isEmpty_iff.mp hword))), rfl⟩
  | case2 cs word hword hover =>
    obtain ⟨o, hmore, ho⟩ := exists_reads_over hover
    obtain ⟨o', hread, ho'⟩ := exists_reads_first (mt List.isEmpty_iff.mpr hword) hmore
    exact ⟨o', hread, by rw [ho', ho]; rfl⟩
  | case3 cs word hword c rest hrest hc ih =>
    obtain ⟨o, hread, ho⟩ := ih
    obtain rfl := eq_of_beq hc
    obtain ⟨o', hmore, ho'⟩ := exists_reads_dotted hrest hread
    obtain ⟨o'', hread', ho''⟩ := exists_reads_first (mt List.isEmpty_iff.mpr hword) hmore
    exact ⟨o'', hread', by rw [ho'', ho', ho]⟩
  | case4 cs word hword c rest hrest hc =>
    have hdot : ¬ ['.'] <+: skipGap ((skipGap cs).dropWhile isWordChar) := by
      rw [hrest]
      rintro ⟨more, hmore⟩
      cases hmore
      exact hc rfl
    have hmore := moreWords_fails (dotted_fails hdot) (by simp [hrest])
    obtain ⟨o', hread, ho'⟩ := exists_reads_first (mt List.isEmpty_iff.mpr hword) hmore
    exact ⟨o', hread, ho'.symm⟩

/-- A text is read by the rule, or the rule fails, as the words are found or not. -/
theorem exists_reads_reference (cs : List Char) :
    ∃ o, Reads reference cs o ∧ Reference.words? cs = o.identifiers := by
  obtain ⟨o, hread, ho⟩ := exists_reads_words cs
  exact ⟨o, hread.seq_mono fun _ _ => .seq_mono fun _ _ => .spaced, ho⟩

theorem rest_reference {tokens : List Token} (h : Reads reference cs (some (tokens, rest))) :
    rest = [] := by
  obtain ⟨_, _, _, _, h, _⟩ := h.of_seq
  obtain ⟨_, _, _, _, h, _⟩ := h.of_seq
  obtain ⟨_, _, _, _, h, _⟩ := h.of_seq
  obtain ⟨_, _, _, _, h, _⟩ := h.of_seq
  exact h.rest_closing

/-- The words of a text are the identifiers that the rule reads when it reads all of it. -/
theorem words?_eq_some_iff_reads {words : List (List Char)} : Reference.words? cs = some words ↔
    ∃ tokens, Reads reference cs (some (tokens, [])) ∧ identifiers tokens = words := by
  obtain ⟨o, hread, ho⟩ := exists_reads_reference cs
  rw [ho]
  constructor
  · intro h
    obtain ⟨⟨tokens, rest⟩, rfl, hwords⟩ := Option.map_eq_some_iff.mp h
    obtain rfl := rest_reference hread
    exact ⟨tokens, hread, hwords⟩
  · rintro ⟨tokens, hread', rfl⟩
    rw [hread.unique hread']
    rfl

end

end Grammar

/-! ## Words with dots between them -/

namespace Reference

def SpacedWord (field word : List Char) : Prop :=
  ∃ a b, field = a ++ word ++ b ∧ IsWord word ∧ (∀ c ∈ a, isSpacing c = true) ∧
    ∀ c ∈ b, isSpacing c = true

/-- At least one word, single dots between the words, and any spaces and tabs around them. -/
def DotSeparated (words : List (List Char)) (cs : List Char) : Prop :=
  words ≠ [] ∧ ∃ fields, List.Forall₂ SpacedWord fields words ∧ cs = ['.'].intercalate fields

section

variable {a b cs rest w : List Char} {words : List (List Char)}

theorem skipGap_nil : skipGap [] = [] := by rw [skipGap, gap]

theorem skipGap_spacing (ha : ∀ c ∈ a, isSpacing c = true) (cs : List Char) :
    skipGap (a ++ cs) = skipGap cs := by
  induction a with
  | nil => rfl
  | cons c a ih =>
    obtain ⟨hc, ha⟩ := List.forall_mem_cons.mp ha
    rw [← ih ha, List.cons_append, skipGap, gap, if_pos hc]
    rfl

theorem skipGap_of_head {c : Char} (hc : isSpacing c = false) (hslash : c ≠ '/')
    (cs : List Char) : skipGap (c :: cs) = c :: cs := by
  have hcomment : Text.comment? (c :: cs) = none := by
    unfold Text.comment?
    split
    · next h => exact absurd (List.cons.inj h).1 hslash
    · next h => exact absurd (List.cons.inj h).1 hslash
    · rfl
  rw [skipGap, Text.gap_of_cons hc hcomment]

theorem skipGap_word (hw : IsWord w) (rest : List Char) : skipGap (w ++ rest) = w ++ rest := by
  obtain ⟨c, w, rfl⟩ := List.exists_cons_of_ne_nil hw.nonempty
  have hc := hw.all c List.mem_cons_self
  refine skipGap_of_head ?_ ?_ _
  · rw [Bool.eq_false_iff]
    intro hspacing
    rw [Condition.not_isWordChar_of_isSpacing hspacing] at hc
    cases hc
  · rintro rfl
    cases hc

def wordsAfter (word : List Char) : List Char → Option (List (List Char))
  | [] => some [word]
  | c :: rest => if c == '.' then (words? rest).map (word :: ·) else none

theorem words?_eq_wordsAfter (h : (skipGap cs).takeWhile isWordChar ≠ []) :
    words? cs = wordsAfter ((skipGap cs).takeWhile isWordChar)
      (skipGap ((skipGap cs).dropWhile isWordChar)) := by
  rw [words?, if_neg (by simpa using h)]
  split
  · next hrest => rw [hrest, wordsAfter]
  · next hrest => rw [hrest, wordsAfter]

/-- A word with spaces around it, in front of the end of the text or of a dot. -/
theorem words?_spaced (hw : IsWord w) (ha : ∀ c ∈ a, isSpacing c = true)
    (hb : ∀ c ∈ b, isSpacing c = true) (hover : WordOver rest) (hrest : skipGap rest = rest) :
    words? (a ++ w ++ b ++ rest) = wordsAfter w rest := by
  have hbehind : WordOver (b ++ rest) := by
    cases b with
    | nil => exact hover
    | cons c b =>
      rw [List.forall_mem_cons] at hb
      simp [WordOver, Condition.not_isWordChar_of_isSpacing hb.1]
  have hfirst : skipGap (a ++ w ++ b ++ rest) = w ++ (b ++ rest) := by
    rw [List.append_assoc, List.append_assoc, skipGap_spacing ha, skipGap_word hw]
  have hword : (skipGap (a ++ w ++ b ++ rest)).takeWhile isWordChar = w := by
    rw [hfirst, Text.takeWhile_append_of_over hw.all hbehind]
  rw [words?_eq_wordsAfter (by rw [hword]; exact hw.nonempty), hword, hfirst,
    Text.dropWhile_append_of_over hw.all hbehind, skipGap_spacing hb, hrest]

/-- Such texts are read, and nothing but their words is found. -/
theorem words?_of_dotSeparated (h : DotSeparated words cs) : words? cs = some words := by
  obtain ⟨hne, fields, hfields, rfl⟩ := h
  induction hfields with
  | nil => exact absurd rfl hne
  | @cons field w fields words hfield hfields ih =>
    obtain ⟨a, b, rfl, hw, ha, hb⟩ := hfield
    cases hfields with
    | nil =>
      have hlast := words?_spaced hw ha hb rfl skipGap_nil
      rw [List.append_nil, wordsAfter] at hlast
      simpa using hlast
    | cons hnext hfields =>
      rw [List.intercalate_cons_cons, List.append_assoc, List.singleton_append,
        words?_spaced hw ha hb rfl (skipGap_of_head rfl (by decide) _), wordsAfter,
        if_pos (beq_self_eq_true '.'),
        ih (List.cons_ne_nil _ _), Option.map_some]

/-- Where no comment starts, the first word has nothing but spaces around it. -/
theorem exists_spacedWord (h : Uncommented cs)
    (hword : ¬ ((skipGap cs).takeWhile isWordChar).isEmpty = true) :
    ∃ field, SpacedWord field ((skipGap cs).takeWhile isWordChar) ∧
      cs = field ++ skipGap ((skipGap cs).dropWhile isWordChar) := by
  have hstart := Text.gap_append cs
  have hbehind := List.takeWhile_append_dropWhile (p := isWordChar) (l := skipGap cs)
  have hend := Text.gap_append ((skipGap cs).dropWhile isWordChar)
  have hsuffix : (skipGap cs).dropWhile isWordChar <:+ cs :=
    (List.dropWhile_suffix isWordChar).trans ⟨_, hstart⟩
  refine ⟨(gap cs).1 ++ (skipGap cs).takeWhile isWordChar ++
      (gap ((skipGap cs).dropWhile isWordChar)).1,
    ⟨_, _, rfl, ⟨mt List.isEmpty_iff.mpr hword, List.all_eq_true.mp List.all_takeWhile⟩,
      h.gap_spacing, (h.of_suffix hsuffix).gap_spacing⟩, ?_⟩
  calc cs = (gap cs).1 ++ skipGap cs := hstart.symm
    _ = (gap cs).1 ++ ((skipGap cs).takeWhile isWordChar ++ (skipGap cs).dropWhile isWordChar) := by
      rw [hbehind]
    _ = _ := by
      rw [List.append_assoc, List.append_assoc]
      exact congrArg _ (congrArg _ hend.symm)

/-- Then what is read as words is such a text. -/
theorem dotSeparated_of_words? :
    ∀ words ∈ words? cs, Uncommented cs → DotSeparated words cs := by
  fun_induction words? cs with
  | case1 => exact fun _ hnone => nomatch hnone
  | case2 cs word hword hover =>
    intro words hwords h
    obtain ⟨field, hfield, hcs⟩ := exists_spacedWord h hword
    rw [hover, List.append_nil] at hcs
    cases hwords
    exact ⟨List.cons_ne_nil _ _, [field], .cons hfield .nil, by simpa using hcs⟩
  | case3 cs word hword c rest hrest hc ih =>
    intro words hwords h
    obtain rfl := eq_of_beq hc
    obtain ⟨more, hmore, rfl⟩ := Option.map_eq_some_iff.mp hwords
    obtain ⟨field, hfield, hcs⟩ := exists_spacedWord h hword
    rw [hrest] at hcs
    have hsuffix : rest <:+ cs := ⟨field ++ ['.'], by rw [hcs]; simp⟩
    obtain ⟨hne, fields, hfields, hjoined⟩ := ih more hmore (h.of_suffix hsuffix)
    cases hfields with
    | nil => exact absurd rfl hne
    | cons hnext hfields =>
      refine ⟨List.cons_ne_nil _ _, _, .cons hfield (.cons hnext hfields), ?_⟩
      rw [hcs, List.intercalate_cons_cons, ← hjoined]
      simp
  | case4 => exact fun _ hnone => nomatch hnone

theorem isWord_of_words? : ∀ words ∈ words? cs, ∀ w ∈ words, IsWord w := by
  have hfirst : ∀ cs : List Char, ¬ ((skipGap cs).takeWhile isWordChar).isEmpty = true →
      IsWord ((skipGap cs).takeWhile isWordChar) := fun cs hword =>
    ⟨mt List.isEmpty_iff.mpr hword, List.all_eq_true.mp List.all_takeWhile⟩
  fun_induction words? cs with
  | case1 => exact fun _ hnone => nomatch hnone
  | case2 cs word hword hover =>
    intro words hwords
    cases hwords
    exact List.forall_mem_singleton.mpr (hfirst cs hword)
  | case3 cs word hword c rest hrest hc ih =>
    intro words hwords
    obtain ⟨more, hmore, rfl⟩ := Option.map_eq_some_iff.mp hwords
    exact List.forall_mem_cons.mpr ⟨hfirst cs hword, ih more hmore⟩
  | case4 => exact fun _ hnone => nomatch hnone

end

/-! ## What is written -/

/-- How many words a reference has, its namespace among them where it is written with one. -/
def wordCounts (namespaced : Bool) : List Nat := if namespaced then [2, 3] else [1, 2]

def parts (r : Reference) : List String :=
  (r.origin.map Namespace.word).toList ++ r.name :: if r.swizzle = "" then [] else [r.swizzle]

def text (r : Reference) : String := ".".intercalate r.parts

end Reference

namespace Namespace

def reserved : List String := ["Global", "Attr", "MatParam", "WorldParam"]

theorem word_ofWord (word : String) : (ofWord word).word = word := by
  unfold ofWord
  split
  · next h => exact h.symm
  · split
    · next h => exact h.symm
    · split
      · next h => exact h.symm
      · split
        · next h => exact h.symm
        · rfl

theorem ofWord_eq_node_iff {name : String} : ofWord name = node name ↔ name ∉ reserved := by
  simp only [ofWord, reserved, List.mem_cons, List.not_mem_nil, or_false, not_or]
  split
  · simp [*]
  · split
    · simp [*]
    · split
      · simp [*]
      · split
        · simp [*]
        · simp [*]

theorem notMem_reserved_of_ofWord {word name : String} (h : ofWord word = node name) :
    name ∉ reserved := by
  obtain rfl : name = word := by
    have := word_ofWord word
    rwa [h] at this
  exact ofWord_eq_node_iff.mp h

end Namespace

namespace Reference

structure Spellable (r : Reference) : Prop where
  origin : ∀ o ∈ r.origin, IsWord o.word.toList
  unreserved : ∀ name, r.origin = some (.node name) → name ∉ Namespace.reserved
  name : IsWord r.name.toList
  swizzle : r.swizzle = "" ∨ IsWord r.swizzle.toList

section

variable {line : String} {words : List String} {namespaced : Bool} {r : Reference}

theorem dotted?_eq_some_iff : dotted? line = some words ↔
    words? (trim line.toList) = some (words.map String.toList) := by
  rw [dotted?, Option.map_eq_some_iff]
  constructor
  · rintro ⟨found, hfound, rfl⟩
    simpa using hfound
  · intro h
    exact ⟨_, h, by simp⟩

theorem isSome_parse?_iff : (parse? line namespaced).isSome = true ↔
    ∃ words, dotted? line = some words ∧ words.length ∈ wordCounts namespaced := by
  cases hwords : dotted? line with
  | none => cases namespaced <;> simp [parse?, hwords]
  | some words =>
    cases namespaced <;>
      rcases words with _ | ⟨a, _ | ⟨b, _ | ⟨c, _ | ⟨d, rest⟩⟩⟩⟩ <;>
      simp [parse?, hwords, wordCounts]

/-- Words and the dots between them hold no blank. -/
theorem not_isBlank_intercalate {words : List (List Char)} (h : ∀ w ∈ words, IsWord w) :
    ∀ c ∈ ['.'].intercalate words, Text.isBlank c = false := by
  have hword : ∀ w ∈ words, ∀ c ∈ w, Text.isBlank c = false := by
    intro w hw c hc
    rw [Bool.eq_false_iff]
    intro hblank
    have := (h w hw).all c hc
    rw [Text.not_isWordChar_of_isBlank hblank] at this
    cases this
  clear h
  induction words with
  | nil => simp
  | cons w words ih =>
    obtain ⟨hw, hwords⟩ := List.forall_mem_cons.mp hword
    cases words with
    | nil => simpa using hw
    | cons v words =>
      rw [List.intercalate_cons_cons, List.append_assoc, List.singleton_append,
        List.forall_mem_append, List.forall_mem_cons]
      exact ⟨hw, rfl, ih hwords⟩

theorem isWord_of_dotted? (h : dotted? line = some words) : ∀ w ∈ words, IsWord w.toList :=
  fun _ hw => isWord_of_words? _ (dotted?_eq_some_iff.mp h) _ (List.mem_map_of_mem hw)

/-- What words with plain dots between them are read as. -/
theorem dotted?_intercalate_iff (hne : words ≠ []) :
    dotted? (".".intercalate words) = some words ↔ ∀ w ∈ words, IsWord w.toList := by
  refine ⟨isWord_of_dotted?, fun h => ?_⟩
  have hwords : ∀ w ∈ words.map String.toList, IsWord w := by simpa using h
  rw [dotted?_eq_some_iff, String.toList_intercalate, show ".".toList = ['.'] from rfl,
    Text.trim_of_noBlank (not_isBlank_intercalate hwords)]
  refine words?_of_dotSeparated ⟨by simpa using hne, _, ?_, rfl⟩
  rw [List.forall₂_same]
  exact fun w hw => ⟨[], [], by simp, hwords w hw, by simp, by simp⟩

/-- A reference is read where its words are, and its namespace is the one of the first. -/
theorem parse?_eq_some_iff : parse? line namespaced = some r ↔ dotted? line = some r.parts ∧
    r.origin.isSome = namespaced ∧
      ∀ name, r.origin = some (.node name) → name ∉ Namespace.reserved := by
  constructor
  · intro h
    have hnamed : ∀ {words : List String} {word : String}, dotted? line = some words →
        word ∈ words → word ≠ "" := by
      rintro words _ hwords hword rfl
      exact (isWord_of_dotted? hwords "" hword).nonempty rfl
    have hunreserved : ∀ word name : String,
        some (Namespace.ofWord word) = some (.node name) → name ∉ Namespace.reserved :=
      fun word name hname => Namespace.notMem_reserved_of_ofWord (Option.some.inj hname)
    unfold parse? at h
    split at h
    · next origin name hwords =>
      cases h
      exact ⟨by simp [parts, hwords, Namespace.word_ofWord], rfl, hunreserved origin⟩
    · next origin name swizzle hwords =>
      cases h
      have hne : swizzle ≠ "" := hnamed hwords (by simp)
      exact ⟨by simp [parts, hwords, Namespace.word_ofWord, hne], rfl, hunreserved origin⟩
    · next name hwords =>
      cases h
      exact ⟨by simp [parts, hwords], rfl, by simp⟩
    · next name swizzle hwords =>
      cases h
      have hne : swizzle ≠ "" := hnamed hwords (by simp)
      exact ⟨by simp [parts, hwords, hne], rfl, by simp⟩
    · cases h
  · rintro ⟨hwords, rfl, hunreserved⟩
    obtain ⟨origin, name, swizzle⟩ := r
    cases origin with
    | none =>
      by_cases hs : swizzle = ""
      · simp_all [parse?, parts]
      · simp_all [parse?, parts]
    | some origin =>
      have horigin : Namespace.ofWord origin.word = origin :=
        Namespace.ofWord_word fun name hname =>
          Namespace.ofWord_eq_node_iff.mpr (hunreserved name (congrArg some hname))
      by_cases hs : swizzle = ""
      · simp_all [parse?, parts]
      · simp_all [parse?, parts]

theorem isWord_parts_iff : (∀ w ∈ r.parts, IsWord w.toList) ↔
    (∀ o ∈ r.origin, IsWord o.word.toList) ∧ IsWord r.name.toList ∧
      (r.swizzle = "" ∨ IsWord r.swizzle.toList) := by
  obtain ⟨origin, name, swizzle⟩ := r
  by_cases hs : swizzle = ""
  · cases origin <;> simp [parts, hs]
  · cases origin <;> simp [parts, hs]

/-- Exactly what can be written is read back as it was. -/
theorem parse?_text_eq_some_iff : parse? r.text r.origin.isSome = some r ↔ Spellable r := by
  rw [parse?_eq_some_iff, text, dotted?_intercalate_iff (by simp [parts]), isWord_parts_iff]
  constructor
  · rintro ⟨⟨horigin, hname, hswizzle⟩, -, hunreserved⟩
    exact ⟨horigin, hunreserved, hname, hswizzle⟩
  · rintro ⟨horigin, hunreserved, hname, hswizzle⟩
    exact ⟨⟨horigin, hname, hswizzle⟩, rfl, hunreserved⟩

/-- Where no comment starts, the texts that are read are words with dots between them, and a
reference is read of two or three of them, or of one or two without a namespace. Exactly the
references that can be written are read back as they were. -/
theorem parse?_text_iff :
    (∀ line : String, Uncommented line.toList →
      (∀ words : List String, dotted? line = some words ↔
        DotSeparated (words.map String.toList) (trim line.toList)) ∧
      ∀ namespaced, (parse? line namespaced).isSome = true ↔
        ∃ words : List String, DotSeparated (words.map String.toList) (trim line.toList) ∧
          words.length ∈ wordCounts namespaced) ∧
    ∀ r : Reference, parse? r.text r.origin.isSome = some r ↔ Spellable r := by
  refine ⟨fun line hline => ?_, fun r => parse?_text_eq_some_iff⟩
  have hdotted : ∀ words, dotted? line = some words ↔
      DotSeparated (words.map String.toList) (trim line.toList) := by
    intro words
    rw [dotted?_eq_some_iff]
    exact ⟨fun h => dotSeparated_of_words? _ h (hline.of_infix (Text.trim_infix _)),
      words?_of_dotSeparated⟩
  refine ⟨hdotted, fun namespaced => ?_⟩
  simp only [isSome_parse?_iff, hdotted]

/-- Words with spaces and tabs around the dots, and a node that a word can name. -/
theorem parse?_text_spaced :
    Uncommented " MatParam .\tColor. xyz\n".toList ∧
    dotted? " MatParam .\tColor. xyz\n" = some ["MatParam", "Color", "xyz"] ∧
    (parse? " MatParam .\tColor. xyz\n" true).isSome = true ∧
    Spellable ⟨some (.node "Lit"), "color", ""⟩ ∧
    parse? "Lit.color" true = some ⟨some (.node "Lit"), "color", ""⟩ := by
  have hline : Uncommented " MatParam .\tColor. xyz\n".toList :=
    ⟨by decide +kernel, by decide +kernel⟩
  have hfields : DotSeparated (["MatParam", "Color", "xyz"].map String.toList)
      (trim " MatParam .\tColor. xyz\n".toList) := by
    refine ⟨by decide, ["MatParam ".toList, "\tColor".toList, " xyz".toList], ?_, by decide +kernel⟩
    exact .cons ⟨[], [' '], rfl, by decide +kernel, by simp, by simp [isSpacing]⟩
      (.cons ⟨['\t'], [], rfl, by decide +kernel, by simp [isSpacing], by simp⟩
        (.cons ⟨[' '], [], rfl, by decide +kernel, by simp [isSpacing], by simp⟩ .nil))
  have hlit : Spellable ⟨some (.node "Lit"), "color", ""⟩ := by
    refine ⟨by decide +kernel, ?_, by decide +kernel, Or.inl rfl⟩
    rintro _ ⟨⟩
    decide
  obtain ⟨hdotted, hparse⟩ := parse?_text_iff.1 _ hline
  exact ⟨hline, (hdotted _).mpr hfields, (hparse true).mpr ⟨_, hfields, by decide⟩, hlit,
    (parse?_text_iff.2 _).mpr hlit⟩

end

end Reference

end ShaderGraph
