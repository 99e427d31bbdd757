/-
  ShaderGraph.Proofs.Blanks — what trimming takes away, and what it keeps.

  - `trim_append_blanks`: blanks at the end make no difference to what is trimmed.
  - `trimmed_trim`, `Trimmed.trim_eq`: trimming leaves no blank at an end, and nothing else to trim.
  - `exists_trim`: it takes blanks from the ends and nothing else.
  - `filter_trim`, `words_trim`: the characters that are not blank stay, and so do the words.
  - `parts_append`, `words_append`: a separator parts a text, and a blank its words.
-/

import ShaderGraph.Text.Blank

namespace ShaderGraph.Text

theorem isBlank_of_isSpacing {c : Char} (h : isSpacing c = true) : isBlank c = true := by
  rcases (by simpa [isSpacing] using h : c = ' ' ∨ c = '\t') with rfl | rfl <;> rfl

theorem not_isWordChar_of_isBlank {c : Char} (h : isBlank c = true) : isWordChar c = false := by
  have hall : ∀ n ∈ blankPoints, isWordChar (Char.ofNat n) = false := by decide
  have := hall c.toNat (List.contains_iff_mem.mp h)
  rwa [Char.ofNat_toNat] at this

/-! ## Ends -/

theorem trim_append_blank {c : Char} (hc : isBlank c = true) (cs : List Char) :
    trim (cs ++ [c]) = trim cs := by
  have hend : ∀ ds, trimEnd (ds ++ [c]) = trimEnd ds := by
    intro ds
    simp [trimEnd, hc]
  unfold trim trimStart
  rw [List.dropWhile_append]
  split
  · next h =>
    rw [List.isEmpty_iff] at h
    rw [h, List.dropWhile_cons, if_pos hc]
    rfl
  · exact hend _

theorem trim_append_blanks {bs : List Char} (h : ∀ c ∈ bs, isBlank c = true) (cs : List Char) :
    trim (cs ++ bs) = trim cs := by
  induction bs generalizing cs with
  | nil => rw [List.append_nil]
  | cons c bs ih =>
    rw [← List.singleton_append, ← List.append_assoc,
      ih (fun d hd => h d (List.mem_cons_of_mem c hd)), trim_append_blank (h c List.mem_cons_self)]

theorem trimEnd_prefix (cs : List Char) : trimEnd cs <+: cs := by
  have h := List.reverse_prefix.mpr (List.dropWhile_suffix isBlank (l := cs.reverse))
  rwa [List.reverse_reverse] at h

theorem not_isBlank_of_trim {c : Char} {cs rest : List Char} (h : trim cs = c :: rest) :
    isBlank c = false := by
  have hp : c :: rest <+: trimStart cs := h ▸ trimEnd_prefix _
  cases hs : trimStart cs with
  | nil =>
    rw [hs] at hp
    cases List.prefix_nil.mp hp
  | cons d ds =>
    rw [hs] at hp
    obtain ⟨rfl, -⟩ := List.cons_prefix_cons.mp hp
    have hhead := List.head?_dropWhile_not isBlank cs
    rw [show cs.dropWhile isBlank = c :: ds from hs] at hhead
    simpa using hhead

structure Trimmed (cs : List Char) : Prop where
  first : ∀ c ∈ cs.head?, isBlank c = false
  last : ∀ c ∈ cs.getLast?, isBlank c = false

theorem trimmed_trim (cs : List Char) : Trimmed (trim cs) where
  first c hc := by
    obtain ⟨rest, hrest⟩ := List.head?_eq_some_iff.mp hc
    exact not_isBlank_of_trim hrest
  last c hc := by
    have hhead := List.head?_dropWhile_not isBlank (trimStart cs).reverse
    rw [trim, trimEnd, List.getLast?_reverse] at hc
    rw [Option.mem_def.mp hc] at hhead
    simpa using hhead

theorem dropWhile_isBlank_eq {cs : List Char} (h : ∀ c ∈ cs.head?, isBlank c = false) :
    cs.dropWhile isBlank = cs := by
  cases cs with
  | nil => rfl
  | cons c cs => rw [List.dropWhile_cons_of_neg (by simp [h c rfl])]

/-- Nothing is trimmed where neither end is blank. -/
theorem Trimmed.trim_eq {cs : List Char} (h : Trimmed cs) : trim cs = cs := by
  have hlast : cs.reverse.dropWhile isBlank = cs.reverse :=
    dropWhile_isBlank_eq (by rw [List.head?_reverse]; exact h.last)
  rw [trim, trimStart, dropWhile_isBlank_eq h.first, trimEnd, hlast, List.reverse_reverse]

/-- What trimming takes away is blank. -/
theorem exists_trim (cs : List Char) : ∃ a b, cs = a ++ trim cs ++ b ∧
    (∀ c ∈ a, isBlank c = true) ∧ ∀ c ∈ b, isBlank c = true := by
  have blanks : ∀ ds : List Char, ∀ c ∈ ds.takeWhile isBlank, isBlank c = true :=
    fun ds => List.all_eq_true.mp List.all_takeWhile
  refine ⟨cs.takeWhile isBlank, ((trimStart cs).reverse.takeWhile isBlank).reverse, ?_, blanks cs,
    fun c hc => blanks _ c (List.mem_reverse.mp hc)⟩
  have hend : trim cs ++ ((trimStart cs).reverse.takeWhile isBlank).reverse = trimStart cs := by
    rw [trim, trimEnd, ← List.reverse_append, List.takeWhile_append_dropWhile,
      List.reverse_reverse]
  rw [List.append_assoc, hend]
  exact List.takeWhile_append_dropWhile.symm

/-- Trimming takes blanks. -/
theorem filter_trim (cs : List Char) :
    (trim cs).filter (!isBlank ·) = cs.filter (!isBlank ·) := by
  have hstart : ∀ cs : List Char,
      (cs.dropWhile isBlank).filter (!isBlank ·) = cs.filter (!isBlank ·) := by
    intro cs
    induction cs with
    | nil => rfl
    | cons c cs ih =>
      cases hc : isBlank c with
      | true => rw [List.dropWhile_cons_of_pos hc, ih, List.filter_cons_of_neg (by simp [hc])]
      | false => rw [List.dropWhile_cons_of_neg (by simp [hc])]
  rw [trim, trimEnd, List.filter_reverse, hstart, List.filter_reverse,
    List.reverse_reverse, trimStart, hstart]

/-! ## Parts and words -/

theorem parts_append {p : Char → Bool} {c : Char} (hc : p c = true) (a b : List Char) :
    parts p (a ++ c :: b) = parts p a ++ parts p b := by
  induction a with
  | nil => simp [parts, hc]
  | cons d a ih =>
    rw [List.cons_append, parts, parts, ih]
    split
    · rfl
    · cases ha : parts p a with
      | nil => exact absurd ha (parts_ne_nil p a)
      | cons part rest => rfl

theorem parts_eq_singleton {p : Char → Bool} {cs : List Char} (h : ∀ c ∈ cs, p c = false) :
    parts p cs = [cs] := by
  induction cs with
  | nil => rfl
  | cons c cs ih =>
    have hc : ¬ p c = true := by simp [h c List.mem_cons_self]
    rw [parts, if_neg hc, ih fun d hd => h d (List.mem_cons_of_mem c hd)]
    rfl

/-- No part holds a separator. -/
theorem not_of_mem_parts {p : Char → Bool} {cs part : List Char} (h : part ∈ parts p cs) :
    ∀ c ∈ part, p c = false := by
  induction cs generalizing part with
  | nil =>
    rw [parts, List.mem_singleton] at h
    subst h
    exact fun c hc => absurd hc List.not_mem_nil
  | cons c cs ih =>
    rw [parts] at h
    split at h
    · rcases List.mem_cons.mp h with rfl | h
      · exact fun c hc => absurd hc List.not_mem_nil
      · exact ih h
    · next hc =>
      obtain ⟨first, rest, hparts⟩ := List.exists_cons_of_ne_nil (parts_ne_nil p cs)
      rw [hparts, List.modifyHead_cons, List.mem_cons] at h
      rcases h with rfl | h
      · refine List.forall_mem_cons.mpr ⟨by simpa using hc, ih ?_⟩
        rw [hparts]
        exact List.mem_cons_self
      · refine ih ?_
        rw [hparts]
        exact List.mem_cons_of_mem first h

theorem words_append {c : Char} (hc : isBlank c = true) (a b : List Char) :
    words (a ++ c :: b) = words a ++ words b := by
  rw [words, parts_append hc, List.filter_append]
  rfl

theorem words_cons_blank {c : Char} (hc : isBlank c = true) (cs : List Char) :
    words (c :: cs) = words cs := words_append hc [] cs

theorem words_append_blank {c : Char} (hc : isBlank c = true) (cs : List Char) :
    words (cs ++ [c]) = words cs := by
  rw [words_append hc]
  exact List.append_nil _

theorem words_blanks_append {bs : List Char} (h : ∀ c ∈ bs, isBlank c = true) (cs : List Char) :
    words (bs ++ cs) = words cs := by
  induction bs with
  | nil => rfl
  | cons c bs ih =>
    rw [List.cons_append, words_cons_blank (h c List.mem_cons_self),
      ih fun d hd => h d (List.mem_cons_of_mem c hd)]

@[simp] theorem words_trim (cs : List Char) : words (trim cs) = words cs := by
  have hstart : ∀ cs, words (cs.dropWhile isBlank) = words cs := by
    intro cs
    induction cs with
    | nil => rfl
    | cons c cs ih =>
      cases hc : isBlank c with
      | true => rw [List.dropWhile_cons_of_pos hc, ih, words_cons_blank hc]
      | false => rw [List.dropWhile_cons_of_neg (by simp [hc])]
  have hend : ∀ cs : List Char, words (cs.dropWhile isBlank).reverse = words cs.reverse := by
    intro cs
    induction cs with
    | nil => rfl
    | cons c cs ih =>
      cases hc : isBlank c with
      | true =>
        rw [List.dropWhile_cons_of_pos hc, ih, List.reverse_cons, words_append_blank hc]
      | false => rw [List.dropWhile_cons_of_neg (by simp [hc])]
  rw [trim, trimEnd, hend, List.reverse_reverse, trimStart, hstart]

end ShaderGraph.Text
