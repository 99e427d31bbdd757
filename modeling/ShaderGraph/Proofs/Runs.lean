/-
  ShaderGraph.Proofs.Runs — the words of a condition are its runs of word characters.

  A condition is cut into pieces from its start on, and a comment between two of them is passed over
  with all that it holds. Without comments the pieces are plain to see: each maximal run of word
  characters is a word, and every other character is between the words.

  - `segments`, `runs`, `replaceRuns`: a text cut at the ends of its runs, the runs, and the text
    with something else in the place of each.
  - `runs_induction`: texts character by character, but for runs, which are taken as wholes.
  - `Uncommented.pieces`: in a text where no comment starts, the words are the runs, and what is
    guarded is each run.
-/

import Mathlib.Data.List.SplitBy
import ShaderGraph.Proofs.Guards

namespace ShaderGraph.Condition

open Text (isWordChar isSpacing gap comment? takeWhile_append_of_over dropWhile_append_of_over)

/-! ## Cutting a text at the ends of its runs -/

/-- The maximal runs of word characters, and every other character for itself. -/
def segments (cs : List Char) : List (List Char) :=
  cs.splitBy fun a b => isWordChar a && isWordChar b

/-- The maximal runs of ASCII letters, digits and underscores, in order. -/
def runs (cs : List Char) : List (List Char) := (segments cs).filter (·.all isWordChar)

def replaceRuns (g : List Char → List Char) (cs : List Char) : List Char :=
  (segments cs).flatMap fun segment => if segment.all isWordChar then g segment else segment

structure IsWord (w : List Char) : Prop where
  nonempty : w ≠ []
  all : ∀ c ∈ w, isWordChar c = true

instance (w : List Char) : Decidable (IsWord w) :=
  decidable_of_iff (w ≠ [] ∧ w.all isWordChar = true)
    ⟨fun h => ⟨h.1, List.all_eq_true.mp h.2⟩, fun h => ⟨h.nonempty, List.all_eq_true.mpr h.all⟩⟩

abbrev WordOver (cs : List Char) : Prop := cs.takeWhile isWordChar = []

section

variable {g : List Char → List Char} {c : Char} {cs w a rest : List Char}

theorem isWord_takeWhile (hc : isWordChar c = true) (rest : List Char) :
    IsWord (c :: rest.takeWhile isWordChar) where
  nonempty := List.cons_ne_nil _ _
  all := List.forall_mem_cons.mpr ⟨hc, List.all_eq_true.mp List.all_takeWhile⟩

/-- A text starts with a run, or with a character that is in none. -/
@[elab_as_elim]
theorem runs_induction {P : List Char → Prop} (nil : P [])
    (other : ∀ c cs, isWordChar c = false → P cs → P (c :: cs))
    (run : ∀ w rest, IsWord w → WordOver rest → P rest → P (w ++ rest)) (cs : List Char) : P cs := by
  match cs with
  | [] => exact nil
  | c :: cs =>
    cases hc : isWordChar c with
    | false => exact other c cs hc (runs_induction nil other run cs)
    | true =>
      have hrest := runs_induction nil other run (cs.dropWhile isWordChar)
      have hrun := run _ _ (isWord_takeWhile hc cs) (Text.takeWhile_dropWhile isWordChar cs) hrest
      rwa [List.cons_append, List.takeWhile_append_dropWhile] at hrun
termination_by cs.length
decreasing_by
  · exact Nat.lt_succ_self _
  · exact Nat.lt_succ_of_le (List.dropWhile_sublist _).length_le

theorem segments_other (hc : isWordChar c = false) : segments (c :: cs) = [c] :: segments cs := by
  have h := List.splitBy_append (r := fun a b => isWordChar a && isWordChar b) (l := [c]) (m := cs)
    (by simp [hc])
  exact h

theorem segments_word (hw : IsWord w) (hover : WordOver rest) :
    segments (w ++ rest) = w :: segments rest := by
  have hends : ∀ x ∈ w.getLast?, ∀ y ∈ rest.head?, (isWordChar x && isWordChar y) = false := by
    intro x _ y hy
    cases rest with
    | nil => cases hy
    | cons d rest =>
      cases hy
      have hd : isWordChar y = false := by simpa [WordOver, List.takeWhile_cons] using hover
      simp [hd]
  have hchain : w.IsChain fun x y => (isWordChar x && isWordChar y) = true := by
    refine List.Pairwise.isChain (List.pairwise_of_forall_mem_list fun x hx y hy => ?_)
    simp [hw.all x hx, hw.all y hy]
  rw [segments, List.splitBy_append hends, List.splitBy_of_isChain hw.nonempty hchain]
  rfl

@[simp] theorem runs_nil : runs [] = [] := rfl

@[simp] theorem replaceRuns_nil : replaceRuns g [] = [] := rfl

theorem runs_other (hc : isWordChar c = false) : runs (c :: cs) = runs cs := by
  simp [runs, segments_other hc, hc]

theorem replaceRuns_other (hc : isWordChar c = false) :
    replaceRuns g (c :: cs) = c :: replaceRuns g cs := by
  simp [replaceRuns, segments_other hc, hc]

theorem runs_word (hw : IsWord w) (hover : WordOver rest) : runs (w ++ rest) = w :: runs rest := by
  have hall : w.all isWordChar = true := List.all_eq_true.mpr hw.all
  simp [runs, segments_word hw hover, hall]

theorem replaceRuns_word (hw : IsWord w) (hover : WordOver rest) :
    replaceRuns g (w ++ rest) = g w ++ replaceRuns g rest := by
  have hall : w.all isWordChar = true := List.all_eq_true.mpr hw.all
  rw [replaceRuns, segments_word hw hover, List.flatMap_cons, if_pos hall]
  rfl

theorem runs_others (ha : ∀ c ∈ a, isWordChar c = false) : runs (a ++ cs) = runs cs := by
  induction a with
  | nil => rfl
  | cons c a ih =>
    rw [List.forall_mem_cons] at ha
    rw [List.cons_append, runs_other ha.1, ih ha.2]

theorem replaceRuns_others (ha : ∀ c ∈ a, isWordChar c = false) :
    replaceRuns g (a ++ cs) = a ++ replaceRuns g cs := by
  induction a with
  | nil => rfl
  | cons c a ih =>
    rw [List.forall_mem_cons] at ha
    rw [List.cons_append, replaceRuns_other ha.1, ih ha.2, List.cons_append]

end

/-! ## Pieces without comments -/

structure Uncommented (cs : List Char) : Prop where
  line : ¬ ['/', '/'] <:+: cs
  block : ¬ ['/', '*'] <:+: cs

section

variable {c : Char} {cs rest : List Char}

theorem Uncommented.of_infix (h : Uncommented cs) (hin : rest <:+: cs) : Uncommented rest :=
  ⟨fun hl => h.line (hl.trans hin), fun hb => h.block (hb.trans hin)⟩

theorem Uncommented.of_suffix (h : Uncommented cs) (hs : rest <:+ cs) : Uncommented rest :=
  h.of_infix hs.isInfix

theorem Uncommented.comment?_eq_none (h : Uncommented cs) : comment? cs = none := by
  unfold comment?
  split
  · exact absurd (List.prefix_append ['/', '/'] _).isInfix h.line
  · exact absurd (List.prefix_append ['/', '*'] _).isInfix h.block
  · rfl

/-- Then a gap is a run of spaces and tabs. -/
theorem Uncommented.gap_spacing (h : Uncommented cs) : ∀ c ∈ (gap cs).1, isSpacing c = true := by
  fun_induction gap cs with
  | case1 => simp
  | case2 c rest hc g after e ih =>
    have hg := ih (h.of_suffix (List.suffix_cons c rest))
    rw [e] at hg
    exact List.forall_mem_cons.mpr ⟨hc, hg⟩
  | case3 c rest hc t after hcomment =>
    rw [h.comment?_eq_none] at hcomment
    cases hcomment
  | case4 => simp

theorem not_isWordChar_of_isSpacing (h : isSpacing c = true) : isWordChar c = false := by
  rcases (by simpa [isSpacing] using h : c = ' ' ∨ c = '\t') with rfl | rfl <;> rfl

theorem not_isWordChar_of_isOperatorChar (h : isOperatorChar c = true) : isWordChar c = false := by
  rw [isOperatorChar, Bool.and_eq_true, Bool.not_eq_true'] at h
  exact h.1

theorem Uncommented.gap_other (h : Uncommented cs) : ∀ c ∈ (gap cs).1, isWordChar c = false :=
  fun c hc => not_isWordChar_of_isSpacing (h.gap_spacing c hc)

/-- What is read is the runs, and what is written is guards in their places. -/
theorem Uncommented.pieces (h : Uncommented cs) :
    wordTexts (pieces cs) = runs cs ∧
      (Condition.pieces cs).flatMap Piece.guarded =
        replaceRuns (fun w => (Piece.word w).guarded) cs := by
  fun_induction Condition.pieces cs with
  | case1 cs hg =>
    have hother := h.gap_other
    have hcs := Text.gap_append cs
    rw [hg, List.append_nil] at hcs
    rw [hcs] at hother ⊢
    have hruns : runs (cs ++ []) = [] := runs_others hother
    have hreplaced : replaceRuns (fun w => (Piece.word w).guarded) (cs ++ []) = cs ++ [] := by
      rw [replaceRuns_others hother, replaceRuns_nil]
    rw [List.append_nil] at hruns hreplaced
    exact ⟨hruns.symm, by rw [hreplaced]; simp [Piece.guarded]⟩
  | case2 cs c rest hg hc ih =>
    have hother := h.gap_other
    have hcs := Text.gap_append cs
    rw [hg] at hcs
    generalize (gap cs).1 = spaces at hother hcs ⊢
    subst hcs
    have hw := isWord_takeWhile hc rest
    have hover : WordOver (rest.dropWhile isWordChar) := Text.takeWhile_dropWhile isWordChar rest
    have hrest : c :: rest = (c :: rest.takeWhile isWordChar) ++ rest.dropWhile isWordChar := by
      rw [List.cons_append, List.takeWhile_append_dropWhile]
    rw [hrest] at h ⊢
    obtain ⟨hruns, hreplaced⟩ := ih (h.of_suffix ⟨spaces ++ c :: rest.takeWhile isWordChar, by simp⟩)
    constructor
    · rw [runs_others hother, runs_word hw hover, ← hruns]
      rfl
    · rw [replaceRuns_others hother, replaceRuns_word hw hover, ← hreplaced]
      rfl
  | case3 cs c rest hg hc ih =>
    have hother := h.gap_other
    have hcs := Text.gap_append cs
    rw [hg] at hcs
    generalize (gap cs).1 = spaces at hother hcs ⊢
    subst hcs
    have hoperators : ∀ d ∈ c :: rest.takeWhile isOperatorChar, isWordChar d = false := by
      refine List.forall_mem_cons.mpr ⟨by simpa using hc, fun d hd => ?_⟩
      exact not_isWordChar_of_isOperatorChar (List.all_eq_true.mp List.all_takeWhile d hd)
    have hrest : c :: rest =
        (c :: rest.takeWhile isOperatorChar) ++ rest.dropWhile isOperatorChar := by
      rw [List.cons_append, List.takeWhile_append_dropWhile]
    rw [hrest] at h ⊢
    obtain ⟨hruns, hreplaced⟩ :=
      ih (h.of_suffix ⟨spaces ++ c :: rest.takeWhile isOperatorChar, by simp⟩)
    constructor
    · rw [runs_others hother, runs_others hoperators, ← hruns]
      rfl
    · rw [replaceRuns_others hother, replaceRuns_others hoperators, ← hreplaced]
      rfl

end

end ShaderGraph.Condition
