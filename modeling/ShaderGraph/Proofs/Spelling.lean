/-
  ShaderGraph.Proofs.Spelling — which conditions are accepted as they are written.

  A condition is written over the names of parameters with operators, parentheses and spaces, and
  three decorations that are taken out wherever they stand. Two of them start with `#`, which no
  name holds. The third is a word, `defined`, and is taken out of the middle of names as well.

  - `erase_replaceRuns`: taking out a word changes each name for itself.
  - `undecorated_of_plain`: so that is all that the decorations do to such a condition.
  - `acceptedAsWritten_iff`: a condition over declared names is accepted as it is written exactly if
    no name that it uses holds `defined`. With other names it is refused, or read as a condition
    over what is left of them (`not_accepted_undefined`).
-/

import ShaderGraph.Proofs.Defines
import ShaderGraph.Proofs.Normalizing

namespace ShaderGraph

/-! ## Erasing -/

namespace Text

section

variable {needle cs : List Char}

theorem isSome_after?_iff : (after? needle cs).isSome = true ↔ needle <+: cs := by
  rw [← Option.ne_none_iff_isSome, ne_eq, after?_eq_none_iff, not_not]

theorem eraseFrom_sublist (first : Char) (others : List Char) (skip : Nat) (cs : List Char) :
    List.Sublist (eraseFrom first others skip cs) cs := by
  induction cs generalizing skip with
  | nil => cases skip <;> exact List.Sublist.refl _
  | cons c cs ih =>
    cases skip with
    | succ skip => exact (ih skip).cons c
    | zero =>
      rw [eraseFrom]
      split
      · exact (ih _).cons c
      · exact (ih _).cons_cons c

theorem erase_sublist (needle cs : List Char) : List.Sublist (erase needle cs) cs := by
  cases needle with
  | nil => exact List.Sublist.refl cs
  | cons first others => exact eraseFrom_sublist first others 0 cs

/-- Exactly what holds a text is changed where it is taken out. -/
theorem erase_eq_self_iff (hne : needle ≠ []) : erase needle cs = cs ↔ ¬ needle <:+: cs := by
  refine ⟨fun h => ?_, erase_of_not_infix⟩
  cases needle with
  | nil => exact absurd rfl hne
  | cons first others =>
    change eraseFrom first others 0 cs = cs at h
    induction cs with
    | nil => simp
    | cons c cs ih =>
      rw [eraseFrom] at h
      split at h
      · have hlength := (eraseFrom_sublist first others others.length cs).length_le
        rw [h, List.length_cons] at hlength
        omega
      · next hp =>
        rw [List.infix_cons_iff, not_or]
        exact ⟨isSome_after?_iff.not.mp hp, ih (List.cons.inj h).2⟩

end

end Text

namespace Condition

open Text (isWordChar isBlank trim erase eraseFrom upper isSome_after?_iff erase_sublist
  erase_eq_self_iff)

/-! ## Where words end -/

section

variable {b cs rest : List Char} {g : List Char → List Char}

theorem wordOver_iff : WordOver cs ↔ ∀ c ∈ cs.head?, isWordChar c = false := by
  cases cs with
  | nil => simp [WordOver]
  | cons c cs => simp [WordOver, List.takeWhile_cons]

theorem WordOver.append_others (h : WordOver rest) (hb : ∀ c ∈ b, isWordChar c = false) :
    WordOver (rest ++ b) := by
  rw [wordOver_iff] at h ⊢
  intro c hc
  cases rest with
  | nil => exact hb c (List.mem_of_mem_head? hc)
  | cons d rest => exact h c hc

/-- What is in no run may stand behind the runs. -/
theorem runs_append_others (hb : ∀ c ∈ b, isWordChar c = false) (cs : List Char) :
    runs (cs ++ b) = runs cs := by
  induction cs using runs_induction with
  | nil =>
    have hruns : runs (b ++ []) = runs [] := runs_others hb
    rwa [List.append_nil] at hruns
  | other c cs hc ih => rw [List.cons_append, runs_other hc, runs_other hc, ih]
  | run w rest hw hover ih =>
    rw [List.append_assoc, runs_word hw (hover.append_others hb), runs_word hw hover, ih]

theorem replaceRuns_append_others (hb : ∀ c ∈ b, isWordChar c = false) (cs : List Char) :
    replaceRuns g (cs ++ b) = replaceRuns g cs ++ b := by
  induction cs using runs_induction with
  | nil =>
    have hreplaced : replaceRuns g (b ++ []) = b ++ replaceRuns g [] := replaceRuns_others hb
    rwa [List.append_nil, replaceRuns_nil, List.append_nil] at hreplaced
  | other c cs hc ih =>
    rw [List.cons_append, replaceRuns_other hc, replaceRuns_other hc, ih, List.cons_append]
  | run w rest hw hover ih =>
    rw [List.append_assoc, replaceRuns_word hw (hover.append_others hb),
      replaceRuns_word hw hover, ih, List.append_assoc]

/-- Where no word goes on, none does with the runs replaced. -/
theorem WordOver.replaceRuns (h : WordOver cs) (g : List Char → List Char) :
    WordOver (Condition.replaceRuns g cs) := by
  cases cs with
  | nil => rfl
  | cons c cs =>
    have hc := wordOver_iff.mp h c rfl
    rw [replaceRuns_other hc]
    exact wordOver_iff.mpr fun d hd => by cases hd; exact hc

theorem replaceRuns_eq_self (h : ∀ w ∈ runs cs, g w = w) : replaceRuns g cs = cs := by
  induction cs using runs_induction with
  | nil => rfl
  | other c cs hc ih =>
    rw [runs_other hc] at h
    rw [replaceRuns_other hc, ih h]
  | run w rest hw hover ih =>
    rw [runs_word hw hover, List.forall_mem_cons] at h
    rw [replaceRuns_word hw hover, h.1, ih h.2]

theorem runs_trim (cs : List Char) : runs (trim cs) = runs cs := by
  obtain ⟨a, b, hcs, ha, hb⟩ := Text.exists_trim cs
  have hrest : runs (a ++ trim cs ++ b) = runs (trim cs) := by
    rw [List.append_assoc, runs_others fun c hc => Text.not_isWordChar_of_isBlank (ha c hc),
      runs_append_others fun c hc => Text.not_isWordChar_of_isBlank (hb c hc)]
  rw [← hrest, ← hcs]

end

/-! ## Taking out a word -/

section

variable {first : Char} {others needle a w cs rest : List Char} {skip : Nat}

/-- A word does not go on where no word goes on. -/
theorem IsWord.prefix_of_append (hn : IsWord needle) (hover : WordOver rest)
    (h : needle <+: a ++ rest) : needle <+: a := by
  obtain ⟨more, hmore⟩ := h
  rcases List.append_eq_append_iff.mp hmore with ⟨b, ha, -⟩ | ⟨b, hneedle, hrest⟩
  · exact ⟨b, ha.symm⟩
  · cases b with
    | nil => exact ⟨[], by rw [hneedle]; simp⟩
    | cons c b =>
      have hc := hn.all c (hneedle ▸ by simp)
      rw [wordOver_iff.mp hover c (by rw [hrest]; rfl)] at hc
      cases hc

theorem eraseFrom_append (hn : IsWord (first :: others)) (hover : WordOver rest)
    (hskip : skip ≤ w.length) : eraseFrom first others skip (w ++ rest) =
      eraseFrom first others skip w ++ eraseFrom first others 0 rest := by
  induction w generalizing skip with
  | nil =>
    obtain rfl := Nat.le_zero.mp hskip
    rfl
  | cons c w ih =>
    cases skip with
    | succ skip => exact ih (Nat.le_of_succ_le_succ hskip)
    | zero =>
      -- an occurrence that starts in the word ends in it
      have hstarts : first :: others <+: c :: (w ++ rest) ↔ first :: others <+: c :: w :=
        ⟨fun h => hn.prefix_of_append (a := c :: w) hover h,
          fun h => h.trans (List.prefix_append (c :: w) rest)⟩
      rw [List.cons_append, eraseFrom, eraseFrom]
      by_cases hp : first :: others <+: c :: w
      · have hlength : others.length ≤ w.length := Nat.le_of_succ_le_succ hp.length_le
        rw [if_pos (isSome_after?_iff.mpr hp), if_pos (isSome_after?_iff.mpr (hstarts.mpr hp)),
          ih hlength]
      · rw [if_neg (isSome_after?_iff.not.mpr hp),
          if_neg (isSome_after?_iff.not.mpr (hstarts.not.mpr hp)), ih (Nat.zero_le _),
          List.cons_append]

theorem erase_append_over (hn : IsWord needle) (hover : WordOver rest) (w : List Char) :
    erase needle (w ++ rest) = erase needle w ++ erase needle rest := by
  cases needle with
  | nil => rfl
  | cons first others => exact eraseFrom_append hn hover (Nat.zero_le _)

theorem erase_other (hn : IsWord needle) {c : Char} (hc : isWordChar c = false)
    (cs : List Char) : erase needle (c :: cs) = c :: erase needle cs := by
  cases needle with
  | nil => rfl
  | cons first others =>
    have hne : first ∉ [c] := by
      rw [List.mem_singleton]
      rintro rfl
      rw [hn.all first List.mem_cons_self] at hc
      cases hc
    exact Text.erase_append_of_notMem hne

/-- Taking out a word changes each run for itself. -/
theorem erase_replaceRuns (hn : IsWord needle) (cs : List Char) :
    erase needle cs = replaceRuns (erase needle) cs := by
  induction cs using runs_induction with
  | nil => cases needle <;> rfl
  | other c cs hc ih => rw [erase_other hn hc, replaceRuns_other hc, ih]
  | run w rest hw hover ih =>
    rw [erase_append_over hn hover, replaceRuns_word hw hover, ih]

end

/-! ## Counting what is written -/

section

variable {w cs : List Char}

/-- The word characters in a text with guards in the places of its runs. -/
def guardedWeight (cs : List Char) : Nat :=
  (replaceRuns (fun w => (Piece.word w).guarded) cs).countP isWordChar

theorem countP_guarded (hw : IsWord w) :
    (Piece.word w).guarded.countP isWordChar = w.length + 7 := by
  have hupper : (upper w).countP isWordChar = w.length := by
    rw [List.countP_eq_length.mpr hw.upper.all, upper_eq_map hw.all, List.length_map]
  rw [guarded_eq, bare, List.countP_append, List.countP_cons_of_neg (by decide),
    List.countP_append, hupper, Nat.add_comm]
  rfl

theorem guardedWeight_word {rest : List Char} (hw : IsWord w) (hover : WordOver rest) :
    guardedWeight (w ++ rest) = w.length + 7 + guardedWeight rest := by
  rw [guardedWeight, replaceRuns_word hw hover, List.countP_append, countP_guarded hw]
  rfl

theorem guardedWeight_other {c : Char} (hc : isWordChar c = false) (cs : List Char) :
    guardedWeight (c :: cs) = guardedWeight cs := by
  rw [guardedWeight, replaceRuns_other hc, List.countP_cons_of_neg (by simp [hc])]
  rfl

theorem guardedWeight_trim (cs : List Char) : guardedWeight (trim cs) = guardedWeight cs := by
  obtain ⟨a, b, hcs, ha, hb⟩ := Text.exists_trim cs
  have hzero : ∀ d : List Char, (∀ c ∈ d, isBlank c = true) → d.countP isWordChar = 0 := fun d hd =>
    List.countP_eq_zero.mpr fun c hc => by simp [Text.not_isWordChar_of_isBlank (hd c hc)]
  have hrest : guardedWeight (a ++ trim cs ++ b) = guardedWeight (trim cs) := by
    rw [guardedWeight, List.append_assoc,
      replaceRuns_others fun c hc => Text.not_isWordChar_of_isBlank (ha c hc),
      replaceRuns_append_others fun c hc => Text.not_isWordChar_of_isBlank (hb c hc),
      List.countP_append, List.countP_append, hzero a ha, hzero b hb, Nat.zero_add, Nat.add_zero]
    rfl
  rw [← hrest, ← hcs]

/-- Where a word is taken out of runs, less is written, unless nothing is taken out. -/
theorem guardedWeight_erase (needle cs : List Char) :
    guardedWeight (replaceRuns (erase needle) cs) ≤ guardedWeight cs ∧
      (guardedWeight (replaceRuns (erase needle) cs) = guardedWeight cs →
        ∀ w ∈ runs cs, erase needle w = w) := by
  induction cs using runs_induction with
  | nil => exact ⟨Nat.le_refl _, fun _ w hw => nomatch hw⟩
  | other c cs hc ih =>
    rw [replaceRuns_other hc, guardedWeight_other hc, guardedWeight_other hc, runs_other hc]
    exact ih
  | run w rest hw hover ih =>
    rw [replaceRuns_word hw hover, guardedWeight_word hw hover, runs_word hw hover,
      List.forall_mem_cons]
    have hsub := erase_sublist needle w
    by_cases hnil : erase needle w = []
    · rw [hnil, List.nil_append]
      exact ⟨by omega, fun h => by omega⟩
    · have hleft : IsWord (erase needle w) := ⟨hnil, fun c hc => hw.all c (hsub.subset hc)⟩
      have hlength := hsub.length_le
      rw [guardedWeight_word hleft (hover.replaceRuns _)]
      refine ⟨by omega, fun h => ⟨hsub.eq_of_length (by omega), ih.2 (by omega)⟩⟩

end

/-! ## Conditions over names -/

section

variable {catalog : Catalog} {text : String}

def namesIn (text : String) : List String := (runs text.toList).map String.ofList

def guardedText (text : String) : String :=
  .ofList (replaceRuns (fun w => (guard (defineOf (.ofList w))).toList) (trim text.toList))

/-- A condition over declared names. Every Boolean expression over names of the catalog is written
so, with any spaces and parentheses. -/
structure WrittenOver (catalog : Catalog) (text : String) : Prop where
  chars : ∀ c ∈ text.toList, isWordChar c = true ∨ c ∈ ['!', '&', '|', '(', ')', ' ']
  names : ∀ name ∈ namesIn text, (catalog.param? name).isSome = true

/-- Only the characters of the text are looked at, not all that there are. -/
instance (catalog : Catalog) (text : String) : Decidable (WrittenOver catalog text) :=
  let chars : Decidable (∀ c ∈ text.toList,
      isWordChar c = true ∨ c ∈ ['!', '&', '|', '(', ')', ' ']) := List.decidableBAll _ _
  let names : Decidable (∀ name ∈ namesIn text, (catalog.param? name).isSome = true) :=
    List.decidableBAll _ _
  @decidable_of_iff _ (_ ∧ _) ⟨fun h => ⟨h.1, h.2⟩, fun h => ⟨h.chars, h.names⟩⟩
    (@instDecidableAnd _ _ chars names)

theorem WrittenOver.notMem (h : WrittenOver catalog text) {c : Char} (hc : isWordChar c = false)
    (hother : c ∉ ['!', '&', '|', '(', ')', ' ']) : c ∉ text.toList := by
  intro hmem
  rcases h.chars c hmem with hword | hin
  · rw [hword] at hc
    cases hc
  · exact hother hin

/-- Of the decorations only the word counts, where no `#` stands. -/
theorem undecorated_of_plain (h : '#' ∉ text.toList) :
    undecorated text = trim (replaceRuns (erase keyword) text.toList) := by
  have hkept : ∀ decoration : List Char, '#' ∈ decoration →
      erase decoration text.toList = text.toList := fun _ hd =>
    Text.erase_of_not_infix fun hin => h (hin.subset hd)
  rw [← erase_replaceRuns isWord_keyword]
  simp only [undecorated, decorations, List.foldl_cons, List.foldl_nil]
  rw [hkept "#ifdef".toList (by decide), hkept "#if".toList (by decide)]
  rfl

theorem WrittenOver.normalize (h : WrittenOver catalog text) : normalize text = {
      names := (runs (trim (replaceRuns (erase keyword) text.toList))).map String.ofList
      text := .ofList (replaceRuns (fun w => (Piece.word w).guarded)
        (trim (replaceRuns (erase keyword) text.toList))) } := by
  have hundecorated := undecorated_of_plain (h.notMem (c := '#') rfl (by decide))
  have hslash : '/' ∉ undecorated text := by
    intro hmem
    obtain ⟨a, b, hcs, -, -⟩ := Text.exists_trim (erase keyword text.toList)
    rw [hundecorated, ← erase_replaceRuns isWord_keyword] at hmem
    have herased : '/' ∈ erase keyword text.toList := by
      rw [hcs]
      exact List.mem_append_left _ (List.mem_append_right _ hmem)
    exact h.notMem rfl (by decide) ((erase_sublist _ _).subset herased)
  have huncommented : Uncommented (undecorated text) :=
    ⟨fun hin => hslash (hin.subset (by decide)), fun hin => hslash (hin.subset (by decide))⟩
  rw [normalize_of_uncommented huncommented, hundecorated]

end

end Condition

/-! ## Binding the names -/

namespace DefineTable

def keys (t : DefineTable) : List String := t.bindings.map (·.param)

theorem mem_keys_bind {t : DefineTable} {b : DefineBinding} {name : String} :
    name ∈ (t.bind b).keys ↔ name ∈ t.keys ∨ name = b.param := by
  unfold bind
  cases hb : t.find? b.param with
  | some x =>
    have hx : b.param ∈ t.keys := by
      have hparam := List.find?_some hb
      rw [beq_iff_eq] at hparam
      exact List.mem_map.mpr ⟨x, List.mem_of_find?_eq_some hb, hparam⟩
    exact ⟨Or.inl, fun h => h.elim id fun he => he ▸ hx⟩
  | none =>
    show name ∈ (place b t.bindings).map (·.param) ↔ _
    rw [((place_perm b t.bindings).map _).mem_iff, List.map_cons, List.mem_cons, or_comm]
    rfl

end DefineTable

namespace Resolution

open Text (isWordChar trim erase erase_eq_self_iff)
open Condition (WrittenOver namesIn guardedText keyword runs replaceRuns guardedWeight
  guardedWeight_trim guardedWeight_erase replaceRuns_eq_self runs_trim)

section

variable {catalog : Catalog} {text : String}

/-- Names that are all declared are all bound, and nothing else is. -/
theorem bindOwnDefines_of_declared {names : List String}
    (h : ∀ name ∈ names, (catalog.param? name).isSome = true) (invalid : Cause) (t : Technique) :
    ∃ t', bindOwnDefines catalog invalid names t = (.ok (), t') ∧
      ∀ name, name ∈ t'.defines.keys ↔ name ∈ t.defines.keys ∨ name ∈ names := by
  induction names generalizing t with
  | nil => exact ⟨t, rfl, fun name => by simp⟩
  | cons first names ih =>
    rw [List.forall_mem_cons] at h
    obtain ⟨param, hparam⟩ := Option.isSome_iff_exists.mp h.1
    obtain ⟨t', ht', hkeys⟩ :=
      ih h.2 (t.bindDefine param.name (Condition.defineOf param.name) param.type)
    refine ⟨t', ?_, fun name => ?_⟩
    · simp only [bindOwnDefines, hparam, Attempt.run_bind, bindOwnDefine, Attempt.run_modify]
      exact ht'
    · have hbound : name ∈ (t.bindDefine param.name (Condition.defineOf param.name)
          param.type).defines.keys ↔ name ∈ t.defines.keys ∨ name = param.name :=
        DefineTable.mem_keys_bind
      rw [hkeys, hbound, name_of_param? hparam, List.mem_cons, or_assoc]

/-- A condition is accepted as it is written: it becomes its own text with guards in the places of
the names, and exactly the names that it uses are bound besides those that were. -/
def AcceptedAsWritten (catalog : Catalog) (text : String) (t : Technique) : Prop :=
  ∃ t', guardCondition catalog text t = (.ok (guardedText text), t') ∧
    ∀ name, name ∈ t'.defines.keys ↔ name ∈ t.defines.keys ∨ name ∈ namesIn text

/-- A condition over declared names is accepted as it is written exactly if none of the names holds
`defined`. -/
theorem acceptedAsWritten_iff (h : WrittenOver catalog text) (t : Technique) :
    AcceptedAsWritten catalog text t ↔
      ∀ name ∈ namesIn text, ¬ "defined".toList <:+: name.toList := by
  have hnormalize := h.normalize
  have hunchanged : (∀ name ∈ namesIn text, ¬ "defined".toList <:+: name.toList) ↔
      ∀ w ∈ runs text.toList, erase keyword w = w := by
    simp only [namesIn, List.forall_mem_map, String.toList_ofList]
    exact forall₂_congr fun w _ => (erase_eq_self_iff (List.cons_ne_nil _ _)).symm
  rw [hunchanged]
  constructor
  · rintro ⟨t', hguard, -⟩
    -- what is written has as many word characters as it should have
    obtain ⟨_, _, -, htext⟩ := Attempt.bind_eq_ok.mp hguard
    have htext := (Attempt.pure_eq_ok.mp htext).1
    rw [hnormalize] at htext
    have hlists := String.ofList_inj.mp htext
    have hweight : guardedWeight (trim (replaceRuns (erase keyword) text.toList)) =
        guardedWeight (trim text.toList) := congrArg (List.countP isWordChar) hlists
    rw [guardedWeight_trim, guardedWeight_trim] at hweight
    exact (guardedWeight_erase keyword text.toList).2 hweight
  · intro hw
    rw [replaceRuns_eq_self hw, runs_trim] at hnormalize
    obtain ⟨t', ht', hkeys⟩ := bindOwnDefines_of_declared h.names
      (.invalidCondition (.ofList (trim text.toList))) t
    refine ⟨t', ?_, hkeys⟩
    simp only [guardCondition, hnormalize]
    exact Attempt.bind_eq_ok.mpr ⟨(), t', ht', Attempt.pure_eq_ok.mpr ⟨rfl, rfl⟩⟩

end

/-- A condition with spaces at its ends and names that begin as `defined` does. -/
theorem acceptedAsWritten_define :
    WrittenOver [⟨"Define", .single .boolean, none⟩, ⟨"_d", .single .boolean, none⟩]
      " !Define && (_d||Define) " ∧
    guardedText " !Define && (_d||Define) " = "!defined(DEFINE) && (defined(_D)||defined(DEFINE))" ∧
    AcceptedAsWritten [⟨"Define", .single .boolean, none⟩, ⟨"_d", .single .boolean, none⟩]
      " !Define && (_d||Define) " (.empty none) := by
  have hwritten : WrittenOver [⟨"Define", .single .boolean, none⟩, ⟨"_d", .single .boolean, none⟩]
      " !Define && (_d||Define) " := by decide +kernel
  exact ⟨hwritten, by decide +kernel,
    (acceptedAsWritten_iff hwritten (.empty none)).mpr (by decide +kernel)⟩

/-- The name of the only parameter is refused as a condition, because `defined` is taken out of it.
With a parameter of what is left of it, it is taken for that one. -/
theorem not_accepted_undefined :
    WrittenOver [⟨"Undefined", .single .boolean, none⟩] "Undefined" ∧
    (guardCondition [⟨"Undefined", .single .boolean, none⟩] "Undefined" (.empty none)).1 =
      .error (.invalidCondition "Undefined") ∧
    ¬ AcceptedAsWritten [⟨"Undefined", .single .boolean, none⟩] "Undefined" (.empty none) ∧
    (guardCondition [⟨"Undefined", .single .boolean, none⟩, ⟨"Un", .single .boolean, none⟩]
      "Undefined" (.empty none)).1 = .ok "defined(UN)" := by
  have hrefused : (guardCondition [⟨"Undefined", .single .boolean, none⟩] "Undefined"
      (.empty none)).1 = .error (.invalidCondition "Undefined") := by decide +kernel
  refine ⟨by decide +kernel, hrefused, ?_, by decide +kernel⟩
  rintro ⟨t', h, -⟩
  rw [h] at hrefused
  cases hrefused

end Resolution

end ShaderGraph
