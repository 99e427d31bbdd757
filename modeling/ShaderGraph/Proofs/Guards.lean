/-
  ShaderGraph.Proofs.Guards — the guards of a condition can be read off what it became.

  Normalizing writes a guard for each word and keeps what stands between the words, comments
  included, so a text that looks like a guard may stand in a comment. `guardNames` passes over
  the same comments and operators and collects the names in the guards.

  - `infix_of_guarded`: no comment ends in a guard, or because of one.
  - `guards_normalize`: what is read off is the names of the condition in upper case.
  - `defines_of_text_eq`: so the text alone says which guards were written.
-/

import ShaderGraph.Condition.Basic
import ShaderGraph.Proofs.Comments

namespace ShaderGraph

/-! ## Upper case -/

namespace Text

theorem isLower_eq_false_iff (c : Char) : c.isLower = false ↔ c.toNat < 97 ∨ 122 < c.toNat := by
  have hlower : c.isLower = true ↔ 97 ≤ c.toNat ∧ c.toNat ≤ 122 := by
    show (decide ('a'.val ≤ c.val) && decide (c.val ≤ 'z'.val)) = true ↔ _
    rw [Bool.and_eq_true, decide_eq_true_eq, decide_eq_true_eq]
    exact and_congr UInt32.le_iff_toNat_le UInt32.le_iff_toNat_le
  rw [← Bool.not_eq_true, hlower]
  omega

/-- No character rises to a small ASCII letter. -/
theorem isLower_apply {r : Run} (hr : r ∈ risingRuns) {n : Nat} (hc : r.covers n = true) :
    (Char.ofNat (r.apply n)).isLower = false := by
  have hapart : ∀ r ∈ risingRuns, r.last + r.shift < 97 ∨ 122 < r.first + r.shift := by
    decide +kernel
  have hbounds : r.first ≤ n ∧ n ≤ r.last := by
    simp only [Run.covers, Bool.and_eq_true, decide_eq_true_eq] at hc
    exact hc.1
  have hout : r.apply n < 97 ∨ 122 < r.apply n := by
    have := hapart r hr
    simp only [Run.apply]
    omega
  rw [isLower_eq_false_iff]
  by_cases hvalid : (r.apply n).isValidChar
  · rw [Char.ofNat, dif_pos hvalid]
    exact hout
  · rw [Char.ofNat, dif_neg hvalid]
    exact Or.inl (by decide)

/-- Upper case has no small ASCII letter, whatever it is the upper case of. -/
theorem isLower_of_mem_upper {cs : List Char} {c : Char} (h : c ∈ upper cs) :
    c.isLower = false := by
  have hexpansions : ∀ e ∈ expansions, ∀ p ∈ e.2, (Char.ofNat p).isLower = false := by
    decide +kernel
  have hascii : ∀ n < 128, (Char.ofNat n).toUpper.isLower = false := by decide
  obtain ⟨d, -, hc⟩ := List.mem_flatMap.mp h
  unfold upperChar at hc
  split at hc
  · next hlt =>
    have := hascii d.toNat hlt
    rw [Char.ofNat_toNat] at this
    rwa [List.mem_singleton.mp hc]
  · next hlt =>
    split at hc
    · next points hp =>
      obtain ⟨p, hmem, rfl⟩ := List.mem_map.mp hc
      obtain ⟨before, after, he, -⟩ := List.lookup_eq_some_iff.mp hp
      exact hexpansions (d.toNat, points) (he ▸ List.mem_append_right _ List.mem_cons_self) p hmem
    · split at hc
      · next r hr =>
        rw [List.mem_singleton.mp hc]
        have := List.find?_some hr
        exact isLower_apply (List.mem_of_find?_eq_some hr) this
      · rw [List.mem_singleton.mp hc, isLower_eq_false_iff]
        omega

theorem notMem_upper_of_isLower {cs : List Char} {c : Char} (h : c.isLower = true) :
    c ∉ upper cs := by
  intro hc
  rw [isLower_of_mem_upper hc] at h
  cases h

end Text

namespace Condition

open Text (isWordChar isSpacing gap comment? breakAt? LineOver takeWhile_append_of_over
  dropWhile_append_of_over)

/-! ## What a guard is made of -/

theorem isWordChar_toUpper {c : Char} (h : isWordChar c = true) :
    c.toNat < 128 ∧ isWordChar c.toUpper = true := by
  have upto : ∀ last : Char, last.toNat < 128 → c.val ≤ last.val → c.toNat < 128 :=
    fun last hlast hle => Nat.lt_of_le_of_lt (UInt32.le_iff_toNat_le.mp hle) hlast
  have hlt : c.toNat < 128 := by
    have hclass : ((c.isUpper || c.isLower) || c.isDigit || c == '_') = true := h
    simp only [Bool.or_eq_true, beq_iff_eq] at hclass
    rcases hclass with ((h | h) | h) | rfl
    · exact upto 'Z' (by decide) (of_decide_eq_true h).2
    · exact upto 'z' (by decide) (of_decide_eq_true (Bool.and_eq_true_iff.mp h).2)
    · exact upto '9' (by decide) (of_decide_eq_true (Bool.and_eq_true_iff.mp h).2)
    · decide
  have hall : ∀ n < 128, isWordChar (Char.ofNat n) = true →
      isWordChar (Char.ofNat n).toUpper = true := by decide
  refine ⟨hlt, ?_⟩
  have := hall c.toNat hlt
  rw [Char.ofNat_toNat] at this
  exact this h

theorem isWordChar_upper {word : List Char} (h : ∀ c ∈ word, isWordChar c = true) :
    ∀ c ∈ Text.upper word, isWordChar c = true := by
  intro c hc
  obtain ⟨w, hw, hc⟩ := List.mem_flatMap.mp hc
  obtain ⟨hlt, hupper⟩ := isWordChar_toUpper (h w hw)
  rw [Text.upperChar_of_ascii hlt, List.mem_singleton] at hc
  rw [hc]
  exact hupper

theorem guarded_filler (text : List Char) : (Piece.filler text).guarded = text := rfl

def guardStart : List Char := ['d', 'e', 'f', 'i', 'n', 'e', 'd', '(']

theorem guarded_word (word : List Char) :
    (Piece.word word).guarded = guardStart ++ Text.upper word ++ [')'] := by
  simp [Piece.guarded, guard, defineOf, guardStart]

theorem not_endsLine_of_isWordChar {c : Char} (h : isWordChar c = true) :
    ¬ Text.endsLine c = true := by
  intro hend
  rcases (by simpa [Text.endsLine] using hend : c = '\n' ∨ c = '\r') with rfl | rfl
  · cases h
  · cases h

/-- A guard starts with no gap. -/
theorem gap_guarded (word after : List Char) :
    gap ((Piece.word word).guarded ++ after) = ([], (Piece.word word).guarded ++ after) := by
  rw [guarded_word]
  exact Text.gap_of_cons rfl rfl

def Piece.Proper : Piece → Prop
  | .word text => ∀ c ∈ text, isWordChar c = true
  | .filler _ => True

theorem proper_pieces (cs : List Char) : ∀ p ∈ pieces cs, p.Proper := by
  fun_induction pieces cs with
  | case1 cs h => simp [Piece.Proper]
  | case2 cs c rest h hc ih =>
    intro p hp
    rcases List.mem_cons.mp hp with rfl | hp
    · trivial
    · rcases List.mem_cons.mp hp with rfl | hp
      · intro d hd
        rcases List.mem_cons.mp hd with rfl | hd
        · exact hc
        · exact List.all_eq_true.mp List.all_takeWhile d hd
      · exact ih p hp
  | case3 cs c rest h hc ih =>
    intro p hp
    rcases List.mem_cons.mp hp with rfl | hp
    · trivial
    · rcases List.mem_cons.mp hp with rfl | hp
      · trivial
      · exact ih p hp

/-! ## No comment ends where none did -/

/-- What starts with another character than those in front is behind them. -/
theorem infix_of_notMem {x : Char} {a b needle : List Char} (ha : x ∉ a)
    (h : x :: needle <:+: a ++ b) : x :: needle <:+: b := by
  induction a with
  | nil => exact h
  | cons c a ih =>
    rw [List.mem_cons, not_or] at ha
    rcases List.infix_cons_iff.mp h with h | h
    · exact absurd (List.cons_prefix_cons.mp h).1 ha.1
    · exact ih ha.2 h

theorem infix_around {a g b : List Char} (hg : ∀ c ∈ g, c ≠ '*' ∧ c ≠ '/') (hne : g ≠ [])
    (h : ['*', '/'] <:+: a ++ (g ++ b)) : ['*', '/'] <:+: a ∨ ['*', '/'] <:+: b := by
  induction a with
  | nil => exact Or.inr (infix_of_notMem (fun hstar => (hg _ hstar).1 rfl) h)
  | cons x a ih =>
    rcases List.infix_cons_iff.mp h with h | h
    · obtain ⟨rfl, hslash⟩ := List.cons_prefix_cons.mp h
      cases a with
      | nil =>
        cases g with
        | nil => exact absurd rfl hne
        | cons c g =>
          exact absurd (List.cons_prefix_cons.mp hslash).1.symm (hg c List.mem_cons_self).2
      | cons y a =>
        obtain ⟨rfl, -⟩ := List.cons_prefix_cons.mp hslash
        exact Or.inl ⟨[], a, rfl⟩
    · exact (ih h).imp_left fun h => h.trans (List.suffix_cons x a).isInfix

/-- The end of a comment in what pieces become is one in the pieces. -/
theorem infix_of_guarded {ps : List Piece} (hps : ∀ p ∈ ps, p.Proper) {a : List Char}
    (h : ['*', '/'] <:+: a ++ ps.flatMap Piece.guarded) :
    ['*', '/'] <:+: a ++ ps.flatMap Piece.text := by
  induction ps generalizing a with
  | nil =>
    rw [List.flatMap_nil] at h ⊢
    exact h
  | cons p ps ih =>
    have hrest := fun q hq => hps q (List.mem_cons_of_mem p hq)
    cases p with
    | filler text =>
      rw [List.flatMap_cons, guarded_filler, ← List.append_assoc] at h
      rw [List.flatMap_cons, Piece.text, ← List.append_assoc]
      exact ih hrest h
    | word text =>
      have hg : ∀ c ∈ (Piece.word text).guarded, c ≠ '*' ∧ c ≠ '/' := by
        intro c hc
        rw [guarded_word] at hc
        simp only [List.mem_append, List.mem_singleton] at hc
        rcases hc with (hc | hc) | rfl
        · have hstart : ∀ d ∈ guardStart, d ≠ '*' ∧ d ≠ '/' := by simp [guardStart]
          exact hstart c hc
        · have := isWordChar_upper (hps _ List.mem_cons_self) c hc
          constructor <;> rintro rfl <;> exact absurd this (by decide)
        · decide
      have hne : (Piece.word text).guarded ≠ [] := by simp [guarded_word]
      rw [List.flatMap_cons] at h ⊢
      rcases infix_around hg hne h with h | h
      · exact h.trans (List.prefix_append a _).isInfix
      · have := ih hrest (a := []) h
        rw [← List.append_assoc]
        exact this.trans (List.suffix_append _ _).isInfix

/-! ## Reading the guards back -/

/-- What follows a guard is shorter than the text the guard is in. -/
theorem length_afterGuard_lt {cs rest : List Char} {c : Char} (h : (gap cs).2 = c :: rest) :
    (((rest.dropWhile isWordChar).tail.dropWhile isWordChar).tail).length < cs.length := by
  have h1 := length_dropWhile_lt h isWordChar
  have h2 := (List.dropWhile_sublist isWordChar (l := (rest.dropWhile isWordChar).tail)).length_le
  simp only [List.length_tail] at h2 ⊢
  omega

/-- The names in the guards of a normalized condition, in order. -/
def guardNames (cs : List Char) : List (List Char) :=
  match _h : (gap cs).2 with
  | [] => []
  | c :: rest =>
    if isWordChar c then
      (rest.dropWhile isWordChar).tail.takeWhile isWordChar ::
        guardNames ((rest.dropWhile isWordChar).tail.dropWhile isWordChar).tail
    else guardNames (rest.dropWhile isOperatorChar)
termination_by cs.length
decreasing_by
  · exact length_afterGuard_lt _h
  · exact length_dropWhile_lt _h isOperatorChar

theorem guardNames_of_nil {cs : List Char} (h : (gap cs).2 = []) : guardNames cs = [] := by
  rw [guardNames]
  split
  · rfl
  · next h' => rw [h] at h'; cases h'

theorem guardNames_of_cons {cs rest : List Char} {c : Char} (h : (gap cs).2 = c :: rest) :
    guardNames cs =
      if isWordChar c then
        (rest.dropWhile isWordChar).tail.takeWhile isWordChar ::
          guardNames ((rest.dropWhile isWordChar).tail.dropWhile isWordChar).tail
      else guardNames (rest.dropWhile isOperatorChar) := by
  rw [guardNames]
  split
  · next h' => rw [h] at h'; cases h'
  · next h' =>
    rw [h] at h'
    cases h'
    rfl

/-- A guard is read back with the name it is for. -/
theorem guardNames_guard {cs name after : List Char} (hname : ∀ c ∈ name, isWordChar c = true)
    (h : (gap cs).2 = guardStart ++ name ++ [')'] ++ after) :
    guardNames cs = name :: guardNames after := by
  have hover : (')' :: after).takeWhile isWordChar = [] := rfl
  have hrest : (gap cs).2 =
      'd' :: (['e', 'f', 'i', 'n', 'e', 'd'] ++ '(' :: (name ++ ')' :: after)) := by
    simpa [guardStart] using h
  have hkeyword : ∀ c ∈ ['e', 'f', 'i', 'n', 'e', 'd'], isWordChar c = true := by
    simp [isWordChar]
  have hdrop := dropWhile_append_of_over hkeyword
    (show ('(' :: (name ++ ')' :: after)).takeWhile isWordChar = [] from rfl)
  rw [guardNames_of_cons hrest, if_pos (by simp [isWordChar]), hdrop, List.tail_cons,
    takeWhile_append_of_over hname hover, dropWhile_append_of_over hname hover, List.tail_cons]

/-- Operators are passed over. -/
theorem guardNames_operators {cs run after : List Char} {c : Char} (hc : isWordChar c = false)
    (hrun : ∀ d ∈ run, isOperatorChar d = true) (hover : after.takeWhile isOperatorChar = [])
    (h : (gap cs).2 = c :: (run ++ after)) : guardNames cs = guardNames after := by
  rw [guardNames_of_cons h, if_neg (by simp [hc]), dropWhile_append_of_over hrun hover]

def wordTexts (ps : List Piece) : List (List Char) :=
  ps.filterMap fun
    | .word text => some text
    | .filler _ => none

/-- What a text becomes starts with an operator only if the text does. -/
theorem guarded_over {cs : List Char} (h : cs.takeWhile isOperatorChar = []) :
    ((pieces cs).flatMap Piece.guarded).takeWhile isOperatorChar = [] := by
  have hgap := Text.gap_append cs
  cases hg : (gap cs).1 with
  | cons d g =>
    -- the first character is in the gap, which stays
    have hd : isOperatorChar d = false := by
      rw [hg] at hgap
      rw [← hgap, List.cons_append, List.takeWhile_cons] at h
      simpa using h
    have hstart : ∃ more, (pieces cs).flatMap Piece.guarded = d :: more := by
      fun_cases pieces cs with
      | case1 => exact ⟨g, by simp [guarded_filler, hg]⟩
      | case2 => exact ⟨_, by rw [List.flatMap_cons, guarded_filler, hg]; rfl⟩
      | case3 => exact ⟨_, by rw [List.flatMap_cons, guarded_filler, hg]; rfl⟩
    obtain ⟨more, hmore⟩ := hstart
    rw [hmore, List.takeWhile_cons, hd]
    rfl
  | nil =>
    rw [hg, List.nil_append] at hgap
    fun_cases pieces cs with
    | case1 h' => simp [guarded_filler, hg]
    | case2 c rest h' hc =>
      rw [List.flatMap_cons, List.flatMap_cons, guarded_word, guarded_filler, hg]
      rfl
    | case3 c rest h' hc =>
      have hoperator : isOperatorChar c = true := by
        simp [isOperatorChar, hc, (Text.of_gap_eq_cons h').1]
      rw [← hgap, h', List.takeWhile_cons, if_pos hoperator] at h
      cases h

/-- An operator that starts no comment starts none in what the text becomes. -/
theorem comment?_guarded {c : Char} {rest : List Char} (h : comment? (c :: rest) = none) :
    comment? (c :: (rest.takeWhile isOperatorChar ++
      (pieces (rest.dropWhile isOperatorChar)).flatMap Piece.guarded)) = none := by
  have hover := guarded_over (Text.takeWhile_dropWhile isOperatorChar rest)
  have hrest := List.takeWhile_append_dropWhile (p := isOperatorChar) (l := rest)
  have hpieces := flatMap_text_pieces (rest.dropWhile isOperatorChar)
  have hproper := proper_pieces (rest.dropWhile isOperatorChar)
  generalize pieces (rest.dropWhile isOperatorChar) = ps at hover hpieces hproper ⊢
  generalize rest.dropWhile isOperatorChar = after at hrest hpieces
  generalize rest.takeWhile isOperatorChar = run at hrest ⊢
  subst hrest
  subst hpieces
  cases run with
  | nil =>
    cases hn : ps.flatMap Piece.guarded with
    | nil => simp [comment?]
    | cons d more =>
      have hd : isOperatorChar d = false := by
        rw [hn, List.takeWhile_cons] at hover
        simpa using hover
      rw [List.nil_append]
      unfold comment?
      split
      · next heq => cases heq; cases hd
      · next heq => cases heq; cases hd
      · rfl
  | cons d run =>
    rw [List.cons_append] at h ⊢
    unfold comment?
    split
    · next heq => cases heq; cases h
    · next heq =>
      cases heq
      have hnone : breakAt? ['*', '/'] (run ++ ps.flatMap Piece.text) = none := by
        simpa [comment?] using h
      rw [Option.map_eq_none_iff, Text.breakAt?_eq_none_iff]
      exact fun hin => Text.breakAt?_eq_none_iff.mp hnone (infix_of_guarded hproper hin)
    · rfl

/-- The guards in what a text becomes are those of its words. -/
theorem guardNames_guarded (cs : List Char) :
    guardNames ((pieces cs).flatMap Piece.guarded) = (wordTexts (pieces cs)).map Text.upper := by
  fun_induction pieces cs with
  | case1 cs h =>
    have hgap : gap ((gap cs).1 ++ []) = ((gap cs).1, []) :=
      Text.gap_followed cs (by rw [gap]) fun _ => rfl
    refine guardNames_of_nil ?_
    simpa [guarded_filler] using congrArg Prod.snd hgap
  | case2 cs c rest h hc ih =>
    have hword : ∀ d ∈ c :: rest.takeWhile isWordChar, isWordChar d = true := by
      intro d hd
      rcases List.mem_cons.mp hd with rfl | hd
      · exact hc
      · exact List.all_eq_true.mp List.all_takeWhile d hd
    -- a line comment goes on to the end of its line, where no word starts
    have hline : ¬ LineOver (gap cs).2 := by
      rw [h]
      exact fun hover => not_endsLine_of_isWordChar hc (Text.endsLine_of_lineOver hover)
    have hgap := Text.gap_followed cs
      (gap_guarded (c :: rest.takeWhile isWordChar)
        ((pieces (rest.dropWhile isWordChar)).flatMap Piece.guarded)) fun hover =>
      absurd hover hline
    rw [guarded_word] at hgap
    rw [List.flatMap_cons, List.flatMap_cons, guarded_filler, guarded_word,
      guardNames_guard (isWordChar_upper hword) (congrArg Prod.snd hgap), ih]
    rfl
  | case3 cs c rest h hc ih =>
    have hrun : ∀ d ∈ rest.takeWhile isOperatorChar, isOperatorChar d = true :=
      List.all_eq_true.mp List.all_takeWhile
    obtain ⟨hspacing, hcomment⟩ := Text.of_gap_eq_cons h
    have hstart := Text.gap_of_cons hspacing (comment?_guarded hcomment)
    -- a line comment may stand here; the line end behind it is the first operator
    have hgap := Text.gap_followed cs hstart (by
      rw [h]
      exact fun hover => Text.lineOver_cons (Text.endsLine_of_lineOver hover) _)
    rw [List.flatMap_cons, List.flatMap_cons]
    refine (guardNames_operators (by simpa using hc) hrun
      (guarded_over (Text.takeWhile_dropWhile isOperatorChar rest))
      (congrArg Prod.snd hgap)).trans ?_
    rw [ih]
    rfl

def Normalized.defines (n : Normalized) : List String := n.names.map defineOf

def guards (text : String) : List String := (guardNames text.toList).map String.ofList

theorem map_text_wordsFrom (offset : Nat) (ps : List Piece) :
    (wordsFrom offset ps).map (·.text) = (wordTexts ps).map String.ofList := by
  induction ps generalizing offset with
  | nil => rfl
  | cons p ps ih =>
    cases p with
    | word text => simp [wordsFrom, wordTexts, ih]
    | filler text => simp [wordsFrom, wordTexts, ih]

/-- Of a normalized condition the guards are those of its names. -/
theorem guards_normalize (text : String) :
    guards (normalize text).text = (normalize text).defines := by
  simp only [guards, Normalized.defines, normalize, words, String.toList_ofList,
    guardNames_guarded, map_text_wordsFrom, List.map_map]
  exact List.map_congr_left fun word _ => by simp [defineOf]

/-- Two conditions that become one text have the same guards. -/
theorem defines_of_text_eq {a b : String} (h : (normalize a).text = (normalize b).text) :
    (normalize a).defines = (normalize b).defines := by
  rw [← guards_normalize, h, guards_normalize]

end Condition

end ShaderGraph
