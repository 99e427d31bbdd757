/-
  ShaderGraph.Proofs.Cutting — where a text is cut.

  A text is cut at the first character equal to a separator, at every such character, at the first
  occurrence of a shorter text, or at its blanks. In each case the parts put the text together
  again, and what stands in front of the cut holds nothing to cut at.

  - `cut?_eq_some_iff`, `fields_eq_pair_iff`: at a character.
  - `breakAt?_eq_some_iff`: at a text. It may begin in what stands in front of it, so the first
    occurrence is one that begins nowhere before.
  - `words_intercalate`, `words_gap`, `words_cons_cons`: at blanks.
  - `trim_around`, `Solid.trimmed_append`: at the ends.
-/

import ShaderGraph.Proofs.Blanks
import ShaderGraph.Text.Search

namespace ShaderGraph.Text

section

variable {sep c : Char} {cs a b w needle : List Char} {ws : List (List Char)}

/-! ## At a character -/

theorem cut?_eq_none_iff : cut? sep cs = none ↔ sep ∉ cs := by
  induction cs with
  | nil => simp [cut?]
  | cons c cs ih =>
    by_cases hc : c = sep
    · simp [cut?, hc]
    · simp [cut?, hc, ih, Ne.symm hc]

theorem cut?_append (h : sep ∉ a) (b : List Char) : cut? sep (a ++ sep :: b) = some (a, b) := by
  induction a with
  | nil => simp [cut?]
  | cons c a ih =>
    simp only [List.mem_cons, not_or] at h
    simp [cut?, Ne.symm h.1, ih h.2]

/-- A text is cut at the first separator. -/
theorem cut?_eq_some_iff : cut? sep cs = some (a, b) ↔ sep ∉ a ∧ cs = a ++ sep :: b := by
  constructor
  · intro h
    induction cs generalizing a with
    | nil => simp [cut?] at h
    | cons c cs ih =>
      by_cases hc : c = sep
      · obtain ⟨rfl, rfl⟩ : [] = a ∧ cs = b := by simpa [cut?, hc] using h
        simp [hc]
      · obtain ⟨a', ha, rfl⟩ : ∃ a', cut? sep cs = some (a', b) ∧ c :: a' = a := by
          simpa [cut?, hc] using h
        obtain ⟨hnot, rfl⟩ := ih ha
        simp [hnot, Ne.symm hc]
  · rintro ⟨h, rfl⟩
    exact cut?_append h b

/-- The fields and the separators between them put the text together again. -/
theorem intercalate_fields (sep : Char) (cs : List Char) :
    [sep].intercalate (fields sep cs) = cs := by
  induction cs with
  | nil => rfl
  | cons c cs ih =>
    obtain ⟨first, rest, hparts⟩ := List.exists_cons_of_ne_nil (parts_ne_nil (· == sep) cs)
    rw [fields, hparts] at ih
    by_cases hc : c = sep
    · simp [fields, parts, hc, hparts, ih]
    · cases rest <;> simp_all [fields, parts]

theorem notMem_of_mem_fields (h : a ∈ fields sep cs) : sep ∉ a := fun hmem => by
  have := not_of_mem_parts h sep hmem
  simp at this

theorem fields_of_notMem (h : sep ∉ cs) : fields sep cs = [cs] :=
  parts_eq_singleton fun c hc => by
    rw [beq_eq_false_iff_ne]
    rintro rfl
    exact h hc

/-- A text has two fields exactly if it has one separator. -/
theorem fields_eq_pair_iff :
    fields sep cs = [a, b] ↔ sep ∉ a ∧ sep ∉ b ∧ cs = a ++ sep :: b := by
  constructor
  · intro h
    have ha : a ∈ fields sep cs := by simp [h]
    have hb : b ∈ fields sep cs := by simp [h]
    refine ⟨notMem_of_mem_fields ha, notMem_of_mem_fields hb, ?_⟩
    simpa [h] using (intercalate_fields sep cs).symm
  · rintro ⟨ha, hb, rfl⟩
    rw [fields, parts_append (by simp), ← fields, ← fields, fields_of_notMem ha,
      fields_of_notMem hb]
    rfl

/-! ## At a text -/

theorem after?_eq_none_iff {start cs : List Char} : after? start cs = none ↔ ¬ start <+: cs := by
  rw [← Option.not_isSome_iff_eq_none, Option.isSome_iff_exists]
  refine not_congr ⟨fun ⟨rest, h⟩ => ⟨rest, (after?_eq_some_iff.mp h).symm⟩, ?_⟩
  rintro ⟨rest, h⟩
  exact ⟨rest, after?_eq_some_iff.mpr h.symm⟩

theorem breakAt?_eq_none_iff {needle cs : List Char} :
    breakAt? needle cs = none ↔ ¬ needle <:+: cs := by
  induction cs with
  | nil => simp [breakAt?]
  | cons c cs ih =>
    rw [List.infix_cons_iff, not_or, ← ih, ← after?_eq_none_iff, breakAt?]
    cases after? needle (c :: cs) with
    | some rest => simp
    | none => simp

theorem breakAt?_self (needle z : List Char) : breakAt? needle (needle ++ z) = some ([], z) := by
  have h : after? needle (needle ++ z) = some z := after?_eq_some_iff.mpr rfl
  cases hcs : needle ++ z with
  | nil =>
    obtain ⟨rfl, rfl⟩ := List.append_eq_nil_iff.mp hcs
    rfl
  | cons c cs =>
    rw [hcs] at h
    rw [breakAt?, h]

/-- What is searched for is found where it begins nowhere before. -/
theorem breakAt?_of_first (hne : needle ≠ []) (h : ¬ needle <:+: a ++ needle.dropLast)
    (b : List Char) : breakAt? needle (a ++ needle ++ b) = some (a, b) := by
  induction a with
  | nil => exact breakAt?_self needle b
  | cons c a ih =>
    have hnot : after? needle (c :: (a ++ needle ++ b)) = none := by
      rw [after?_eq_none_iff]
      intro hp
      refine h (List.IsPrefix.isInfix ?_)
      have hsplit : c :: (a ++ needle ++ b) =
          c :: a ++ needle.dropLast ++ (needle.getLast hne :: b) := by
        conv => lhs; rw [← List.dropLast_concat_getLast hne]
        simp
      rw [hsplit] at hp
      refine List.prefix_of_prefix_length_le hp (List.prefix_append _ _) ?_
      simp only [List.length_append, List.length_cons, List.length_dropLast]
      omega
    rw [List.cons_append, List.cons_append, breakAt?, hnot,
      ih fun hin => h (hin.trans (List.suffix_cons c _).isInfix)]
    rfl

/-- A text is cut at the first occurrence, and that is one that begins nowhere before. -/
theorem breakAt?_eq_some_iff (hne : needle ≠ []) : breakAt? needle cs = some (a, b) ↔
    ¬ needle <:+: a ++ needle.dropLast ∧ cs = a ++ needle ++ b := by
  constructor
  · intro h
    refine ⟨?_, eq_of_breakAt? h⟩
    induction cs generalizing a with
    | nil => simp [breakAt?, hne] at h
    | cons c cs ih =>
      rw [breakAt?] at h
      cases hafter : after? needle (c :: cs) with
      | some rest =>
        obtain ⟨rfl, -⟩ : [] = a ∧ rest = b := by simpa [hafter] using h
        intro hin
        have := hin.length_le
        have := List.length_pos_iff.mpr hne
        simp only [List.nil_append, List.length_dropLast] at *
        omega
      | none =>
        obtain ⟨a', hb, rfl⟩ : ∃ a', breakAt? needle cs = some (a', b) ∧ c :: a' = a := by
          simpa [hafter] using h
        rw [List.cons_append, List.infix_cons_iff, not_or]
        refine ⟨fun hp => after?_eq_none_iff.mp hafter (hp.trans ?_), ih hb⟩
        rw [eq_of_breakAt? hb, List.append_assoc, List.cons_prefix_cons]
        exact ⟨rfl, (List.prefix_append_right_inj a').mpr
          ((List.dropLast_prefix needle).trans (List.prefix_append needle b))⟩
  · rintro ⟨h, rfl⟩
    exact breakAt?_of_first hne h b

/-- In front of the first occurrence there is none. -/
theorem not_infix_of_breakAt? (hne : needle ≠ []) (h : breakAt? needle cs = some (a, b)) :
    ¬ needle <:+: a := fun hin =>
  ((breakAt?_eq_some_iff hne).mp h).1 (hin.trans List.infix_append_left)

/-- What holds no `sep` does not occur across one. -/
theorem infix_over_iff (h : sep ∉ needle) :
    needle <:+: a ++ sep :: b ↔ needle <:+: a ∨ needle <:+: b := by
  constructor
  · intro hin
    rcases List.infix_append_iff.mp hin with ha | hb | ⟨u, v, rfl, hu, hv⟩
    · exact Or.inl ha
    · rcases List.infix_cons_iff.mp hb with hp | hb
      · cases needle with
        | nil => exact Or.inr List.nil_infix
        | cons c needle => simp [(List.cons_prefix_cons.mp hp).1] at h
      · exact Or.inr hb
    · cases v with
      | nil => exact Or.inl (by simpa using hu.isInfix)
      | cons c v => simp [(List.cons_prefix_cons.mp hv).1] at h
  · rintro (hin | hin)
    · exact hin.trans (List.infix_append_left)
    · exact hin.trans ((List.suffix_cons sep b).isInfix.trans List.infix_append_right)

/-! ## At blanks -/

structure Solid (w : List Char) : Prop where
  ne : w ≠ []
  noBlank : ∀ c ∈ w, isBlank c = false

instance (w : List Char) : Decidable (Solid w) :=
  decidable_of_iff (w ≠ [] ∧ w.all (!isBlank ·) = true)
    ⟨fun h => ⟨h.1, by simpa using h.2⟩, fun h => ⟨h.ne, by simpa using h.noBlank⟩⟩

/-- Blanks of no other kind than spaces and tabs. -/
def PlainBlanks (cs : List Char) : Prop := ∀ c ∈ cs, isBlank c = true → isSpacing c = true

instance (cs : List Char) : Decidable (PlainBlanks cs) := List.decidableBAll _ cs

theorem not_isSpacing (h : isBlank c = false) : isSpacing c = false := by
  rw [Bool.eq_false_iff] at h ⊢
  exact fun hs => h (isBlank_of_isSpacing hs)

theorem words_of_solid (h : Solid w) : words w = [w] := by
  rw [words, parts_eq_singleton h.noBlank]
  simp [h.ne]

theorem solid_of_mem_words (h : w ∈ words cs) : Solid w := by
  obtain ⟨hw, hne⟩ := List.mem_filter.mp h
  exact ⟨by simpa using hne, not_of_mem_parts hw⟩

theorem words_intercalate (h : ∀ w ∈ ws, Solid w) : words ([' '].intercalate ws) = ws := by
  induction ws with
  | nil => rfl
  | cons w ws ih =>
    obtain ⟨hw, hws⟩ := List.forall_mem_cons.mp h
    cases ws with
    | nil => simp [words_of_solid hw]
    | cons v ws =>
      rw [List.intercalate_cons_cons, List.append_assoc, List.singleton_append,
        words_append (by decide), words_of_solid hw, ih hws]
      rfl

theorem words_gap {g rest : List Char} (hw : Solid w) (hne : g ≠ [])
    (hg : ∀ c ∈ g, isBlank c = true) : words (w ++ (g ++ rest)) = w :: words rest := by
  obtain ⟨c, g, rfl⟩ := List.exists_cons_of_ne_nil hne
  obtain ⟨hc, hg⟩ := List.forall_mem_cons.mp hg
  rw [List.cons_append, words_append hc, words_of_solid hw, words_blanks_append hg]
  rfl

/-- Every text but the first has the separator in front of it. -/
theorem infix_intercalate (h : w ∈ ws.tail) : sep :: w <:+: [sep].intercalate ws := by
  induction ws with
  | nil => simp at h
  | cons v ws ih =>
    cases ws with
    | nil => simp at h
    | cons u ws =>
      rw [List.intercalate_cons_cons, List.append_assoc, List.singleton_append]
      rcases List.mem_cons.mp h with rfl | hw
      · have hstart : w <+: [sep].intercalate (w :: ws) := by
          cases ws <;> simp [List.intercalate_cons_cons]
        exact (List.cons_prefix_cons.mpr ⟨rfl, hstart⟩).isInfix.trans List.infix_append_right
      · exact (ih hw).trans ((List.suffix_cons sep _).isInfix.trans List.infix_append_right)

/-- A character in front of a word belongs to it. -/
theorem words_cons_cons {d : Char} (hc : isBlank c = false) (hd : isBlank d = false)
    (cs : List Char) :
    ∃ w ws, words (d :: cs) = w :: ws ∧ words (c :: d :: cs) = (c :: w) :: ws := by
  obtain ⟨first, rest, hparts⟩ := List.exists_cons_of_ne_nil (parts_ne_nil isBlank cs)
  exact ⟨d :: first, rest.filter (!·.isEmpty), by simp [words, parts, hd, hparts],
    by simp [words, parts, hc, hd, hparts]⟩

theorem flatten_parts (p : Char → Bool) (cs : List Char) :
    (parts p cs).flatten = cs.filter (!p ·) := by
  induction cs with
  | nil => rfl
  | cons c cs ih =>
    obtain ⟨first, rest, hparts⟩ := List.exists_cons_of_ne_nil (parts_ne_nil p cs)
    rw [hparts] at ih
    by_cases hc : p c = true
    · simp_all [parts]
    · simp_all [parts]

/-- The words of a text are its characters without the blanks. -/
theorem flatten_words (cs : List Char) : (words cs).flatten = cs.filter (!isBlank ·) := by
  rw [words, List.flatten_filter_not_isEmpty, flatten_parts]

theorem words_ne_nil {c : Char} (hc : c ∈ cs) (h : isBlank c = false) : words cs ≠ [] := by
  intro hnil
  have := flatten_words cs
  rw [hnil, List.flatten_nil] at this
  exact absurd (List.filter_eq_nil_iff.mp this.symm c hc) (by simp [h])

end

/-! ## At the ends -/

theorem trim_around (bs cs ds : List Char) (hb : ∀ c ∈ bs, isBlank c = true)
    (hd : ∀ c ∈ ds, isBlank c = true) : trim (bs ++ cs ++ ds) = trim cs := by
  rw [trim_append_blanks hd]
  induction bs with
  | nil => rfl
  | cons c bs ih =>
    simp only [List.forall_mem_cons] at hb
    rw [← ih hb.2, trim, trim, trimStart, List.cons_append, List.dropWhile_cons_of_pos hb.1]
    rfl

/-- A mark in front, with whatever behind it, leaves nothing to trim. -/
theorem Trimmed.marked {c : Char} {cs : List Char} (h : Trimmed cs) (hne : cs ≠ [])
    (hc : isBlank c = false) (bs : List Char) : Trimmed (c :: (bs ++ cs)) where
  first d hd := by simp_all
  last d hd := by
    obtain ⟨e, he⟩ : ∃ e, cs.getLast? = some e := Option.isSome_iff_exists.mp (by simpa using hne)
    rw [← List.cons_append, List.getLast?_append, he, Option.some_or] at hd
    exact h.last d (he ▸ hd)

/-- Nothing is trimmed of a text with words at its ends. -/
theorem Solid.trimmed_append {a b : List Char} (ha : Solid a) (hb : Solid b) (cs : List Char) :
    Trimmed (a ++ cs ++ b) where
  first c hc := by
    obtain ⟨d, rest, rfl⟩ := List.exists_cons_of_ne_nil ha.ne
    obtain rfl : d = c := by simpa using hc
    exact ha.noBlank d List.mem_cons_self
  last c hc := by
    obtain ⟨d, hd⟩ : ∃ d, b.getLast? = some d :=
      Option.isSome_iff_exists.mp (by simpa using hb.ne)
    rw [List.getLast?_append, hd, Option.some_or] at hc
    exact hb.noBlank c (List.mem_of_getLast? (hd ▸ hc))

theorem trim_of_noBlank {cs : List Char} (h : ∀ c ∈ cs, isBlank c = false) : trim cs = cs :=
  Trimmed.trim_eq
    ⟨fun c hc => h c (List.mem_of_head? hc), fun c hc => h c (List.mem_of_getLast? hc)⟩

theorem trim_infix (cs : List Char) : trim cs <:+: cs := by
  obtain ⟨a, b, h, -, -⟩ := exists_trim cs
  exact ⟨a, b, h.symm⟩

end ShaderGraph.Text
