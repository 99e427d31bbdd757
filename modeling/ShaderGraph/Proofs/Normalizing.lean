/-
  ShaderGraph.Proofs.Normalizing — what normalizing makes of a condition, once and once more.

  Where no comment starts in a condition, normalizing writes a guard in the place of each run of
  word characters and keeps every other character. In what it writes no comment starts either, and
  the word `defined` stands in the guards alone; so normalizing it again takes these words out, finds
  the names of the guards, which are in upper case already, and puts each guard in its parentheses.

  - `infix_of_replaceRuns`: two characters that follow one another in what is written did before.
  - `erase_guarded`: taking `defined` out leaves the names in their parentheses.
  - `rewrites_of_uncommented`: all of it, for every text.
-/

import ShaderGraph.Proofs.Blanks
import ShaderGraph.Proofs.Runs

namespace ShaderGraph

/-! ## Erasing -/

namespace Text

section

variable {first : Char} {others needle a cs : List Char}

theorem eraseFrom_zero_of_not_infix (h : ¬ first :: others <:+: cs) :
    eraseFrom first others 0 cs = cs := by
  induction cs with
  | nil => rfl
  | cons c cs ih =>
    rw [List.infix_cons_iff, not_or] at h
    have hnone : after? (first :: others) (c :: cs) = none := after?_eq_none_iff.mpr h.1
    rw [eraseFrom, hnone, ih h.2]
    rfl

/-- What does not occur is not erased. -/
theorem erase_of_not_infix (h : ¬ needle <:+: cs) : erase needle cs = cs := by
  cases needle with
  | nil => rfl
  | cons first others => exact eraseFrom_zero_of_not_infix h

/-- Nothing is erased from characters that no occurrence starts with. -/
theorem erase_append_of_notMem (ha : first ∉ a) :
    erase (first :: others) (a ++ cs) = a ++ erase (first :: others) cs := by
  induction a with
  | nil => rfl
  | cons c a ih =>
    rw [List.mem_cons, not_or] at ha
    have hnone : after? (first :: others) (c :: (a ++ cs)) = none :=
      after?_eq_none_iff.mpr fun hp => ha.1 (List.cons_prefix_cons.mp hp).1
    show eraseFrom first others 0 (c :: (a ++ cs)) = c :: (a ++ erase (first :: others) cs)
    rw [eraseFrom, hnone, ← ih ha.2]
    rfl

theorem eraseFrom_length (a cs : List Char) :
    eraseFrom first others a.length (a ++ cs) = eraseFrom first others 0 cs := by
  induction a with
  | nil => rfl
  | cons c a ih => exact ih

/-- An occurrence at the start is erased. -/
theorem erase_self_append (cs : List Char) :
    erase (first :: others) (first :: others ++ cs) = erase (first :: others) cs := by
  have hsome : after? (first :: others) (first :: (others ++ cs)) = some cs :=
    after?_eq_some_iff.mpr rfl
  show eraseFrom first others 0 (first :: (others ++ cs)) = eraseFrom first others 0 cs
  rw [eraseFrom, hsome]
  exact eraseFrom_length others cs

end

end Text

namespace Condition

open Text (isWordChar isBlank Trimmed upper erase)

/-! ## Upper case of words -/

theorem upper_eq_map {w : List Char} (h : ∀ c ∈ w, isWordChar c = true) :
    upper w = w.map Char.toUpper := by
  rw [upper, List.map_eq_flatMap]
  exact List.flatMap_congr fun c hc => Text.upperChar_of_ascii (isWordChar_toUpper (h c hc)).1

theorem IsWord.upper {w : List Char} (h : IsWord w) : IsWord (Text.upper w) where
  nonempty := by
    rw [upper_eq_map h.all, ne_eq, List.map_eq_nil_iff]
    exact h.nonempty
  all := isWordChar_upper h.all

/-- Upper case stays as it is. -/
theorem IsWord.upper_upper {w : List Char} (h : IsWord w) :
    Text.upper (Text.upper w) = Text.upper w := by
  have hall : ∀ n < 128, (Char.ofNat n).toUpper.toUpper = (Char.ofNat n).toUpper := by decide
  rw [upper_eq_map h.upper.all, upper_eq_map h.all, List.map_map]
  refine List.map_congr_left fun c hc => ?_
  have := hall c.toNat (isWordChar_toUpper (h.all c hc)).1
  rwa [Char.ofNat_toNat] at this

/-! ## Texts with replaced runs -/

section

variable {g : List Char → List Char} {x y : Char} {cs : List Char}

/-- A text with replaced runs starts as it did, or with what is written for a run. -/
theorem head?_replaceRuns (hne : ∀ w, IsWord w → g w ≠ []) (cs : List Char) :
    (replaceRuns g cs).head? = cs.head? ∧ (∀ c ∈ cs.head?, isWordChar c = false) ∨
      ∃ w, IsWord w ∧ (replaceRuns g cs).head? = (g w).head? := by
  induction cs using runs_induction with
  | nil => exact Or.inl ⟨rfl, fun _ hc => nomatch hc⟩
  | other c cs hc _ =>
    rw [replaceRuns_other hc]
    refine Or.inl ⟨rfl, fun d hd => ?_⟩
    cases hd
    exact hc
  | run w rest hw hover _ =>
    refine Or.inr ⟨w, hw, ?_⟩
    rw [replaceRuns_word hw hover, List.head?_append_of_ne_nil _ (hne w hw)]

/-- If what is written for a run does not hold the first and does not start with the second, two
characters that follow one another did so before, and the second is in no run. -/
theorem infix_of_replaceRuns
    (hg : ∀ w, IsWord w → x ∉ g w ∧ g w ≠ [] ∧ (g w).head? ≠ some y)
    (h : [x, y] <:+: replaceRuns g cs) : [x, y] <:+: cs ∧ isWordChar y = false := by
  induction cs using runs_induction with
  | nil => simp at h
  | other c cs hc ih =>
    rw [replaceRuns_other hc] at h
    rcases List.infix_cons_iff.mp h with h | h
    · obtain ⟨rfl, hy⟩ := List.cons_prefix_cons.mp h
      have hhead : (replaceRuns g cs).head? = some y := by
        obtain ⟨more, hmore⟩ := hy
        rw [← hmore]
        rfl
      rcases head?_replaceRuns (fun w hw => (hg w hw).2.1) cs with ⟨he, hword⟩ | ⟨w, hw, he⟩
      · rw [he] at hhead
        obtain ⟨rest, rfl⟩ := List.head?_eq_some_iff.mp hhead
        exact ⟨(List.prefix_append [x, y] rest).isInfix, hword y rfl⟩
      · exact absurd (he ▸ hhead) (hg w hw).2.2
    · exact (ih h).imp_left fun hin => hin.trans (List.suffix_cons c cs).isInfix
  | run w rest hw hover ih =>
    rw [replaceRuns_word hw hover] at h
    exact (ih (infix_of_notMem (hg w hw).1 h)).imp_left fun hin =>
      hin.trans (List.suffix_append w rest).isInfix

theorem replaceRuns_eq_nil_iff (hne : ∀ w, IsWord w → g w ≠ []) :
    replaceRuns g cs = [] ↔ cs = [] := by
  constructor
  · intro h
    rcases head?_replaceRuns hne cs with ⟨he, -⟩ | ⟨w, hw, he⟩
    · rw [h] at he
      exact List.head?_eq_none_iff.mp he.symm
    · rw [h] at he
      exact absurd (List.head?_eq_none_iff.mp he.symm) (hne w hw)
  · rintro rfl
    rfl

/-- A text that neither starts nor ends with a blank does not with its runs replaced. -/
theorem trimmed_replaceRuns (h : Trimmed cs) (hg : ∀ w, IsWord w → g w ≠ [] ∧ Trimmed (g w)) :
    Trimmed (replaceRuns g cs) := by
  have hne : ∀ w, IsWord w → g w ≠ [] := fun w hw => (hg w hw).1
  constructor
  · intro c hc
    rcases head?_replaceRuns hne cs with ⟨he, -⟩ | ⟨w, hw, he⟩
    · exact h.first c (he ▸ hc)
    · exact (hg w hw).2.first c (he ▸ hc)
  · have hlast := h.last
    clear h
    induction cs using runs_induction with
    | nil => exact fun _ hc => nomatch hc
    | other c cs hc ih =>
      rw [replaceRuns_other hc]
      by_cases hcs : cs = []
      · subst hcs
        exact hlast
      · have hreplaced := (replaceRuns_eq_nil_iff hne).not.mpr hcs
        rw [List.getLast?_cons_of_ne_nil hreplaced]
        rw [List.getLast?_cons_of_ne_nil hcs] at hlast
        exact ih hlast
    | run w rest hw hover ih =>
      rw [replaceRuns_word hw hover]
      by_cases hrest : rest = []
      · subst hrest
        rw [replaceRuns_nil, List.append_nil]
        exact (hg w hw).2.last
      · have hreplaced := (replaceRuns_eq_nil_iff hne).not.mpr hrest
        rw [List.getLast?_append_of_ne_nil _ hreplaced]
        rw [List.getLast?_append_of_ne_nil _ hrest] at hlast
        exact ih hlast

end

/-! ## Guards, and names in parentheses -/

def bare (w : List Char) : List Char := '(' :: (upper w ++ [')'])

def keyword : List Char := ['d', 'e', 'f', 'i', 'n', 'e', 'd']

section

variable {x : Char} {w cs : List Char} {g : List Char → List Char}

theorem guarded_eq (w : List Char) : (Piece.word w).guarded = keyword ++ bare w := by
  rw [guarded_word]
  simp [guardStart, keyword, bare]

theorem isWord_keyword : IsWord keyword where
  nonempty := List.cons_ne_nil _ _
  all := List.all_eq_true.mp rfl

theorem notMem_bare (hw : IsWord w) (hx : isWordChar x = false) (hp : x ≠ '(' ∧ x ≠ ')') :
    x ∉ bare w := by
  have hupper : x ∉ upper w := fun h => by
    rw [hw.upper.all x h] at hx
    cases hx
  simp [bare, hp, hupper]

theorem notMem_guarded (hw : IsWord w) (hx : isWordChar x = false) (hp : x ≠ '(' ∧ x ≠ ')') :
    x ∉ (Piece.word w).guarded := by
  have hkeyword : x ∉ keyword := fun h => by
    rw [isWord_keyword.all x h] at hx
    cases hx
  rw [guarded_eq, List.mem_append, not_or]
  exact ⟨hkeyword, notMem_bare hw hx hp⟩

theorem trimmed_bare (w : List Char) : Trimmed (bare w) where
  first c hc := by
    cases hc
    rfl
  last c hc := by
    rw [bare, ← List.cons_append, List.getLast?_append_of_ne_nil _ (List.cons_ne_nil _ _)] at hc
    cases hc
    rfl

/-- Where no comment starts, none does with the runs replaced. -/
theorem uncommented_replaceRuns (h : Uncommented cs)
    (hg : ∀ w, IsWord w → '/' ∉ g w ∧ g w ≠ [] ∧ (g w).head? ≠ some '*') :
    Uncommented (replaceRuns g cs) where
  line hin := by
    refine h.line (infix_of_replaceRuns (fun w hw => ⟨(hg w hw).1, (hg w hw).2.1, ?_⟩) hin).1
    exact fun hhead => (hg w hw).1 (List.mem_of_mem_head? hhead)
  block hin := h.block (infix_of_replaceRuns hg hin).1

theorem uncommented_guarded (h : Uncommented cs) :
    Uncommented (replaceRuns (fun w => (Piece.word w).guarded) cs) :=
  uncommented_replaceRuns h fun w hw => by
    refine ⟨notMem_guarded hw rfl (by decide), ?_, ?_⟩ <;> rw [guarded_eq] <;> simp [keyword]

theorem uncommented_bare (h : Uncommented cs) : Uncommented (replaceRuns bare cs) :=
  uncommented_replaceRuns h fun w hw => ⟨notMem_bare hw rfl (by decide), by simp [bare], by
    simp [bare]⟩

theorem runs_bare_append (hw : IsWord w) (cs : List Char) :
    runs (bare w ++ cs) = upper w :: runs cs := by
  rw [bare, List.cons_append, runs_other rfl, List.append_assoc, runs_word hw.upper rfl]
  exact congrArg _ (runs_other rfl)

theorem replaceRuns_bare_append (hw : IsWord w) (cs : List Char) :
    replaceRuns g (bare w ++ cs) = '(' :: (g (upper w) ++ ')' :: replaceRuns g cs) := by
  rw [bare, List.cons_append, replaceRuns_other rfl, List.append_assoc,
    replaceRuns_word hw.upper rfl]
  exact congrArg (fun r => '(' :: (g (upper w) ++ r)) (replaceRuns_other rfl)

/-- The runs of names in parentheses are the names. -/
theorem runs_replaceRuns_bare (cs : List Char) :
    runs (replaceRuns bare cs) = (runs cs).map upper := by
  induction cs using runs_induction with
  | nil => rfl
  | other c cs hc ih => rw [replaceRuns_other hc, runs_other hc, runs_other hc, ih]
  | run w rest hw hover ih =>
    rw [replaceRuns_word hw hover, runs_word hw hover, runs_bare_append hw, ih, List.map_cons]

/-- The runs of guards are the words `defined`, each with a name behind it. -/
theorem runs_replaceRuns_guarded (cs : List Char) :
    runs (replaceRuns (fun w => (Piece.word w).guarded) cs) =
      (runs cs).flatMap fun w => [keyword, upper w] := by
  induction cs using runs_induction with
  | nil => rfl
  | other c cs hc ih => rw [replaceRuns_other hc, runs_other hc, runs_other hc, ih]
  | run w rest hw hover ih =>
    rw [replaceRuns_word hw hover, runs_word hw hover, guarded_eq, List.append_assoc,
      runs_word isWord_keyword rfl, runs_bare_append hw, ih]
    rfl

/-- Guarding names in parentheses puts the guards there. -/
theorem replaceRuns_guarded_bare (cs : List Char) :
    replaceRuns (fun w => (Piece.word w).guarded) (replaceRuns bare cs) =
      replaceRuns (fun w => '(' :: ((Piece.word w).guarded ++ [')'])) cs := by
  induction cs using runs_induction with
  | nil => simp only [replaceRuns_nil]
  | other c cs hc ih =>
    rw [replaceRuns_other hc, replaceRuns_other hc, replaceRuns_other hc, ih]
  | run w rest hw hover ih =>
    have hupper : (Piece.word (upper w)).guarded = (Piece.word w).guarded := by
      rw [guarded_eq, guarded_eq, bare, bare, hw.upper_upper]
    rw [replaceRuns_word hw hover, replaceRuns_word hw hover, replaceRuns_bare_append hw, hupper, ih]
    simp

/-- Taking `defined` out leaves the names in their parentheses. -/
theorem erase_guarded (cs : List Char) :
    erase keyword (replaceRuns (fun w => (Piece.word w).guarded) cs) = replaceRuns bare cs := by
  induction cs using runs_induction with
  | nil => rfl
  | other c cs hc ih =>
    have hne : 'd' ∉ [c] := by
      rw [List.mem_singleton]
      rintro rfl
      cases hc
    rw [replaceRuns_other hc, replaceRuns_other hc, ← ih]
    exact Text.erase_append_of_notMem hne
  | run w rest hw hover ih =>
    have hbare : 'd' ∉ bare w := by
      have hupper : 'd' ∉ upper w := Text.notMem_upper_of_isLower rfl
      simp [bare, hupper]
    rw [replaceRuns_word hw hover, replaceRuns_word hw hover, guarded_eq, List.append_assoc, ← ih]
    exact (Text.erase_self_append _).trans (Text.erase_append_of_notMem hbare)

/-- So that is what is left of the guards without decorations. -/
theorem undecorated_guarded (h : Trimmed cs) :
    undecorated (.ofList (replaceRuns (fun w => (Piece.word w).guarded) cs)) =
      replaceRuns bare cs := by
  -- `#` stands before a guard or a character that is in no run, and neither starts with `i`
  have hhash : ¬ ['#', 'i'] <:+: replaceRuns (fun w => (Piece.word w).guarded) cs := by
    intro hin
    have := (infix_of_replaceRuns (fun w hw => ⟨notMem_guarded hw rfl (by decide), by
      rw [guarded_eq]
      simp [keyword], by
      rw [guarded_eq]
      simp [keyword]⟩) hin).2
    cases this
  have hkept : ∀ decoration : List Char, ['#', 'i'] <+: decoration →
      erase decoration (replaceRuns (fun w => (Piece.word w).guarded) cs) =
        replaceRuns (fun w => (Piece.word w).guarded) cs :=
    fun _ hd => Text.erase_of_not_infix fun hin => hhash (hd.isInfix.trans hin)
  have htrimmed : Trimmed (replaceRuns bare cs) :=
    trimmed_replaceRuns h fun w _ => ⟨List.cons_ne_nil _ _, trimmed_bare w⟩
  simp only [undecorated, decorations, List.foldl_cons, List.foldl_nil, String.toList_ofList]
  rw [hkept "#ifdef".toList ⟨"fdef".toList, rfl⟩, hkept "#if".toList ⟨"f".toList, rfl⟩]
  exact (congrArg Text.trim (erase_guarded cs)).trans htrimmed.trim_eq

end

/-! ## Normalizing -/

theorem words_of_uncommented {cs : List Char} (h : Uncommented cs) :
    (words (.ofList cs)).map (·.text) = (runs cs).map String.ofList := by
  rw [words, map_text_wordsFrom, String.toList_ofList, h.pieces.1]

/-- What normalizing makes of a condition in which no comment starts. -/
theorem normalize_of_uncommented {text : String} (h : Uncommented (undecorated text)) :
    normalize text = {
      names := (runs (undecorated text)).map String.ofList
      text := .ofList (replaceRuns (fun w => (Piece.word w).guarded) (undecorated text)) } := by
  simp only [normalize, words_of_uncommented h, h.pieces.2]

/-- Normalizing guards puts each in parentheses. -/
theorem normalize_guarded {cs : List Char} (h : Uncommented cs) (ht : Trimmed cs) :
    normalize (.ofList (replaceRuns (fun w => (Piece.word w).guarded) cs)) = {
      names := ((runs cs).map upper).map String.ofList
      text := .ofList (replaceRuns (fun w => '(' :: ((Piece.word w).guarded ++ [')'])) cs) } := by
  have hundecorated := undecorated_guarded ht
  have huncommented := uncommented_bare h
  rw [← hundecorated] at huncommented
  rw [normalize_of_uncommented huncommented, hundecorated, runs_replaceRuns_bare,
    replaceRuns_guarded_bare]

/-- The words of a text of guards. -/
theorem words_guarded {cs : List Char} (h : Uncommented cs) :
    ((words (.ofList (replaceRuns (fun w => (Piece.word w).guarded) cs))).map (·.text)).filter
      (· ≠ "defined") = ((runs cs).map upper).map String.ofList := by
  rw [words_of_uncommented (uncommented_guarded h), runs_replaceRuns_guarded]
  induction runs cs with
  | nil => rfl
  | cons w ws ih =>
    have hdefine : String.ofList (upper w) ≠ "defined" := by
      intro he
      have hd : 'd' ∉ upper w := Text.notMem_upper_of_isLower rfl
      rw [← String.toList_ofList (l := upper w), he] at hd
      exact hd (by decide)
    simp only [List.flatMap_cons, List.cons_append, List.nil_append, List.map_cons, ← ih]
    rw [List.filter_cons_of_neg (by decide), List.filter_cons_of_pos (by simpa using hdefine)]

theorem map_defineOf_ofList (ws : List (List Char)) :
    (ws.map String.ofList).map defineOf = (ws.map upper).map String.ofList := by
  simp [defineOf, Function.comp_def]

/-- Of a condition without its decorations, the names are the maximal runs of word characters, and
the text has a guard in the place of each; the words of the text are `defined` and the defines;
and normalizing the text finds the defines and puts each guard in parentheses. -/
structure Rewrites (text : String) : Prop where
  names : (normalize text).names = (runs (undecorated text)).map String.ofList
  guarded : (normalize text).text = .ofList
    (replaceRuns (fun w => (guard (defineOf (.ofList w))).toList) (undecorated text))
  words : ((words (normalize text).text).map (·.text)).filter (· ≠ "defined") =
    (normalize text).names.map defineOf
  again_names : (normalize (normalize text).text).names = (normalize text).names.map defineOf
  again_guarded : (normalize (normalize text).text).text = .ofList
    (replaceRuns (fun w => '(' :: ((guard (defineOf (.ofList w))).toList ++ [')']))
      (undecorated text))

/-- So it is for every condition in which no comment starts. -/
theorem rewrites_of_uncommented {text : String} (h : Uncommented (undecorated text)) :
    Rewrites text := by
  have hnormalize := normalize_of_uncommented h
  have hagain := normalize_guarded h (Text.trimmed_trim _)
  have hnames : (normalize text).names.map defineOf =
      ((runs (undecorated text)).map upper).map String.ofList := by
    rw [hnormalize]
    exact map_defineOf_ofList _
  have htext : (normalize text).text =
      .ofList (replaceRuns (fun w => (Piece.word w).guarded) (undecorated text)) := by
    rw [hnormalize]
  refine ⟨by rw [hnormalize], ?_, ?_, ?_, ?_⟩
  · rw [htext]
    simp only [Piece.guarded]
  · rw [htext, hnames]
    exact words_guarded h
  · rw [htext, hnames, hagain]
  · rw [htext, hagain]
    simp only [Piece.guarded]

/-- A condition with all decorations, one of which parts a word, with slashes and stars that start
no comment, and with a letter that is in no run. -/
theorem rewrites_mixed :
    undecorated "#ifdef (Fog && !é2/ * defi#ifnedned_x)|Fog" = "(Fog && !é2/ * ned_x)|Fog".toList ∧
    Uncommented (undecorated "#ifdef (Fog && !é2/ * defi#ifnedned_x)|Fog") ∧
    normalize "#ifdef (Fog && !é2/ * defi#ifnedned_x)|Fog" = {
      names := ["Fog", "2", "ned_x", "Fog"]
      text := "(defined(FOG) && !édefined(2)/ * defined(NED_X))|defined(FOG)" } ∧
    Rewrites "#ifdef (Fog && !é2/ * defi#ifnedned_x)|Fog" := by
  have hundecorated : undecorated "#ifdef (Fog && !é2/ * defi#ifnedned_x)|Fog" =
      "(Fog && !é2/ * ned_x)|Fog".toList := by decide +kernel
  have huncommented : Uncommented (undecorated "#ifdef (Fog && !é2/ * defi#ifnedned_x)|Fog") := by
    rw [hundecorated]
    exact ⟨by decide +kernel, by decide +kernel⟩
  exact ⟨hundecorated, huncommented, by decide +kernel, rewrites_of_uncommented huncommented⟩

end Condition

end ShaderGraph
