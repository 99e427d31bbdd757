/-
  ShaderGraph.Proofs.Joining — the blanks of a declaration: those in front of a bracket, which go,
  and the others, of which one is as good as many.

  The reader joins every `[` to what stands in front of it. That is done by passes over the text, as
  long as some `[` has a space or a tab in front: each pass takes one space from each bracket, and
  then one tab (`joinPass`). A pass makes the text shorter and what it is joined to in the end stays
  the same, so the passes end, and with that text: `joins_iff`. Nothing but blanks in front of
  brackets is taken out (`joinBrackets_solid`, `joinBrackets_gap`).

  - `collapse_eq`: with single spaces for its blanks, a text is its words with spaces between them.
  - `loose_of_collapse`: no bracket gets behind a space by this.
-/

import ShaderGraph.Definition
import ShaderGraph.Proofs.Cutting

namespace ShaderGraph

open Text (isBlank isSpacing trim words)

/-! ## Joining brackets -/

def dropBefore (blank : Char) : List Char → List Char
  | [] => []
  | c :: cs =>
    if c = blank ∧ cs.head? = some '[' then dropBefore blank cs else c :: dropBefore blank cs

/-- One pass: the spaces in front of brackets go, and then the tabs. -/
def joinPass (cs : List Char) : List Char := dropBefore '\t' (dropBefore ' ' cs)

def Loose (cs : List Char) : Prop := [' ', '['] <:+: cs ∨ ['\t', '['] <:+: cs

/-- Passes over a text as long as some bracket is parted, and what they end with. -/
inductive Joins : List Char → List Char → Prop
  | done {cs : List Char} (h : ¬ Loose cs) : Joins cs cs
  | pass {cs joined : List Char} (h : Loose cs) (rest : Joins (joinPass cs) joined) :
      Joins cs joined

section

variable {blank c : Char} {cs joined : List Char}

@[simp] theorem joinBrackets_bracket (cs : List Char) :
    joinBrackets ('[' :: cs) = '[' :: joinBrackets cs := rfl

/-- What a pass takes out would have been joined anyway. -/
theorem joinBrackets_dropBefore (hb : isSpacing blank = true) (cs : List Char) :
    joinBrackets (dropBefore blank cs) = joinBrackets cs := by
  induction cs with
  | nil => rfl
  | cons c cs ih =>
    by_cases hc : c = blank ∧ cs.head? = some '['
    · obtain ⟨rfl, hhead⟩ := hc
      obtain ⟨rest, rfl⟩ := List.head?_eq_some_iff.mp hhead
      have hjoin : joinBrackets (c :: '[' :: rest) = joinBrackets ('[' :: rest) := by
        rw [joinBrackets]
        simp [hb]
      rw [dropBefore, if_pos ⟨rfl, rfl⟩, ih, hjoin]
    · simp [dropBefore, hc, joinBrackets, ih]

theorem joinBrackets_joinPass (cs : List Char) : joinBrackets (joinPass cs) = joinBrackets cs := by
  rw [joinPass, joinBrackets_dropBefore (by decide), joinBrackets_dropBefore (by decide)]

theorem loose_cons (h : isSpacing c = true) (hhead : cs.head? = some '[') : Loose (c :: cs) := by
  obtain ⟨rest, rfl⟩ := List.head?_eq_some_iff.mp hhead
  rcases (by simpa [isSpacing] using h : c = ' ' ∨ c = '\t') with rfl | rfl
  · exact Or.inl ⟨[], rest, rfl⟩
  · exact Or.inr ⟨[], rest, rfl⟩

theorem Loose.cons (h : Loose cs) (c : Char) : Loose (c :: cs) :=
  h.imp (·.trans (List.suffix_cons c cs).isInfix) (·.trans (List.suffix_cons c cs).isInfix)

/-- Joining leaves alone what is joined. -/
theorem joinBrackets_of_not_loose (h : ¬ Loose cs) : joinBrackets cs = cs := by
  induction cs with
  | nil => rfl
  | cons c cs ih =>
    have hrest := ih fun hp => h (hp.cons c)
    have hc : ¬ (isSpacing c = true ∧ cs.head? = some '[') := fun hc => h (loose_cons hc.1 hc.2)
    simp [joinBrackets, hrest, hc]

theorem length_dropBefore_le (blank : Char) (cs : List Char) :
    (dropBefore blank cs).length ≤ cs.length := by
  induction cs with
  | nil => simp [dropBefore]
  | cons c cs ih =>
    rw [dropBefore]
    split <;> simp only [List.length_cons] <;> omega

theorem dropBefore_of_not_infix (h : ¬ [blank, '['] <:+: cs) : dropBefore blank cs = cs := by
  induction cs with
  | nil => rfl
  | cons c cs ih =>
    have hc : ¬ (c = blank ∧ cs.head? = some '[') := by
      rintro ⟨rfl, hhead⟩
      obtain ⟨rest, rfl⟩ := List.head?_eq_some_iff.mp hhead
      exact h ⟨[], rest, rfl⟩
    rw [dropBefore, if_neg hc, ih fun hin => h (hin.trans (List.suffix_cons c cs).isInfix)]

theorem length_dropBefore_lt (h : [blank, '['] <:+: cs) :
    (dropBefore blank cs).length < cs.length := by
  induction cs with
  | nil => simp at h
  | cons c cs ih =>
    have hle := length_dropBefore_le blank cs
    rw [dropBefore]
    split
    · simp only [List.length_cons]
      omega
    · next hc =>
      rcases List.infix_cons_iff.mp h with hp | hin
      · obtain ⟨rfl, hbracket⟩ := List.cons_prefix_cons.mp hp
        obtain ⟨rest, rfl⟩ := hbracket
        exact absurd ⟨rfl, rfl⟩ hc
      · have := ih hin
        simp only [List.length_cons]
        omega

theorem joinBrackets_sublist (cs : List Char) : (joinBrackets cs).Sublist cs := by
  induction cs with
  | nil => exact List.Sublist.refl _
  | cons c cs ih =>
    rw [joinBrackets]
    split
    · exact ih.cons c
    · exact ih.cons_cons c

theorem getLast?_joinBrackets (cs : List Char) : (joinBrackets cs).getLast? = cs.getLast? := by
  induction cs with
  | nil => rfl
  | cons c cs ih =>
    rw [joinBrackets]
    split
    · next hc =>
      cases cs with
      | nil => simp [joinBrackets] at hc
      | cons d cs => rw [ih, List.getLast?_cons_cons]
    · rw [List.getLast?_cons, List.getLast?_cons, ih]

theorem joinBrackets_other (h : isSpacing c = false) (cs : List Char) :
    joinBrackets (c :: cs) = c :: joinBrackets cs := by simp [joinBrackets, h]

theorem joinBrackets_solid {w : List Char} (h : ∀ c ∈ w, isBlank c = false) (cs : List Char) :
    joinBrackets (w ++ cs) = w ++ joinBrackets cs := by
  induction w with
  | nil => rfl
  | cons c w ih =>
    obtain ⟨hc, hw⟩ := List.forall_mem_cons.mp h
    rw [List.cons_append, joinBrackets_other (Text.not_isSpacing hc), ih hw, List.cons_append]

theorem joinBrackets_gap_bracket {g : List Char} (h : ∀ c ∈ g, isSpacing c = true)
    (cs : List Char) : joinBrackets (g ++ '[' :: cs) = '[' :: joinBrackets cs := by
  induction g with
  | nil => rfl
  | cons c g ih =>
    obtain ⟨hc, hg⟩ := List.forall_mem_cons.mp h
    rw [List.cons_append, joinBrackets, ih hg]
    simp [hc]

/-- Other blanks stay. -/
theorem joinBrackets_gap {g : List Char} (h : ∀ c ∈ g, isSpacing c = true)
    (hhead : (joinBrackets cs).head? ≠ some '[') :
    joinBrackets (g ++ cs) = g ++ joinBrackets cs := by
  induction g with
  | nil => rfl
  | cons c g ih =>
    obtain ⟨hc, hg⟩ := List.forall_mem_cons.mp h
    have hnext : (g ++ joinBrackets cs).head? ≠ some '[' := by
      cases g with
      | nil => exact hhead
      | cons d g =>
        intro hd
        obtain rfl : d = '[' := by simpa using hd
        exact absurd (hg '[' List.mem_cons_self) (by decide)
    rw [List.cons_append, joinBrackets, ih hg]
    simp only [hc, hnext, Bool.true_and, beq_iff_eq, if_false, List.cons_append]

/-- A pass over a text with a loose bracket makes it shorter. -/
theorem length_joinPass_lt (h : Loose cs) : (joinPass cs).length < cs.length := by
  have hle := length_dropBefore_le '\t' (dropBefore ' ' cs)
  by_cases hspace : [' ', '['] <:+: cs
  · have := length_dropBefore_lt hspace
    rw [joinPass]
    omega
  · have := length_dropBefore_lt (h.resolve_left hspace)
    rwa [joinPass, dropBefore_of_not_infix hspace]

/-- The passes end, with the text that the reader goes on with. -/
theorem joins_iff : Joins cs joined ↔ joined = joinBrackets cs := by
  constructor
  · intro h
    induction h with
    | done h => exact (joinBrackets_of_not_loose h).symm
    | pass _ _ ih => rw [ih, joinBrackets_joinPass]
  · rintro rfl
    induction hn : cs.length using Nat.strongRecOn generalizing cs with
    | ind n ih =>
      by_cases h : Loose cs
      · have hlt := length_joinPass_lt h
        have := ih _ (hn ▸ hlt) rfl
        rw [joinBrackets_joinPass] at this
        exact .pass h this
      · rw [joinBrackets_of_not_loose h]
        exact .done h

theorem Joins.not_loose (h : Joins cs joined) : ¬ Loose joined := by
  induction h with
  | done h => exact h
  | pass _ _ ih => exact ih

end

/-! ## The text without its blanks -/

namespace Text

def collapse : List Char → List Char
  | [] => []
  | c :: cs =>
    if isSpacing c then if cs.head?.any isSpacing then collapse cs else ' ' :: collapse cs
    else c :: collapse cs

section

variable {c : Char} {cs w rest : List Char} {ws : List (List Char)}

theorem collapse_spacing (hc : isSpacing c = true) :
    collapse (c :: cs) = if cs.head?.any isSpacing then collapse cs else ' ' :: collapse cs := by
  rw [collapse, if_pos hc]

theorem collapse_other (hc : isSpacing c = false) : collapse (c :: cs) = c :: collapse cs := by
  rw [collapse, hc]
  rfl

/-- A text that starts and ends with a word is collapsed to its words and single spaces; blanks at
its start become one more. -/
theorem collapse_eq (honly : PlainBlanks cs)
    (hlast : ∀ c ∈ cs.getLast?, isBlank c = false) :
    collapse cs = (if cs.head?.any isBlank then [' '] else []) ++ [' '].intercalate (words cs) := by
  induction cs with
  | nil => rfl
  | cons c cs ih =>
    cases cs with
    | nil =>
      have hc : isBlank c = false := hlast c rfl
      simp [collapse, not_isSpacing hc, hc, words_of_solid (w := [c]) ⟨by simp, by simpa using hc⟩]
    | cons d cs =>
      have ih := ih (fun e he => honly e (List.mem_cons_of_mem c he)) hlast
      cases hc : isBlank c with
      | true =>
        have hs := honly c List.mem_cons_self hc
        rw [collapse_spacing hs, words_cons_blank hc, ih]
        cases hd : isBlank d with
        | true => simp [hc, hd, honly d (by simp) hd]
        | false => simp [hc, hd, not_isSpacing hd]
      | false =>
        rw [collapse_other (not_isSpacing hc), ih]
        cases hd : isBlank d with
        | true =>
          obtain ⟨e, he⟩ := Option.isSome_iff_exists.mp (by simp : (d :: cs).getLast?.isSome)
          have hne := words_ne_nil (List.mem_of_getLast? he) (hlast e he)
          rw [words_cons_blank hd] at hne
          have hwords : words (c :: d :: cs) = [c] :: words cs := by
            rw [← List.singleton_append, words_append hd,
              words_of_solid ⟨by simp, by simpa using hc⟩]
            rfl
          obtain ⟨w, ws, hw⟩ := List.exists_cons_of_ne_nil hne
          simp [hc, hd, hwords, words_cons_blank hd, hw, List.intercalate_cons_cons]
        | false =>
          obtain ⟨w, ws, hw, hwords⟩ := words_cons_cons hc hd cs
          cases ws <;> simp [hc, hd, hw, hwords, List.intercalate_cons_cons]

/-- A bracket behind a space was behind a blank before. -/
theorem loose_of_collapse (h : [' ', '['] <:+: collapse cs) : Loose cs := by
  induction cs with
  | nil => simp [collapse] at h
  | cons c cs ih =>
    cases hs : isSpacing c with
    | true =>
      rw [collapse_spacing hs] at h
      split at h
      · exact (ih h).cons c
      · next hnot =>
        rcases List.infix_cons_iff.mp h with hp | hin
        · cases cs with
          | nil => simp [collapse] at hp
          | cons d cs =>
            have hd : isSpacing d = false := by simpa using hnot
            rw [collapse_other hd] at hp
            obtain ⟨-, hp⟩ := List.cons_prefix_cons.mp hp
            exact loose_cons hs (by rw [(List.cons_prefix_cons.mp hp).1]; rfl)
        · exact (ih hin).cons c
    | false =>
      rw [collapse_other hs] at h
      rcases List.infix_cons_iff.mp h with hp | hin
      · rw [← (List.cons_prefix_cons.mp hp).1] at hs
        cases hs
      · exact (ih hin).cons c

end

end Text

end ShaderGraph
