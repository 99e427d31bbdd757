/-
  ShaderGraph.Proofs.Strands — a text of the block language as single characters and whole
  comments.

  Read from the left, a text is made of comments and of the characters between them; a `/*`
  that is never closed takes the rest of it (`strands`). Nothing is lost (`spell_strands`).

  The tokens of a text depend on what follows: a line runs as far as it can. Its strands do
  so in two places only. A `/` is a character of its own unless a `/` or a `*` follows, and a
  comment to the end of its line ends there. So the strands of a text are those of its parts
  wherever the parts are not joined in one of these places (`strands_chars`,
  `strands_comment`), and what stands between strands can be taken out and replaced
  (`strands_append`).
-/

import ShaderGraph.Block.Token
import ShaderGraph.Proofs.Comments

namespace ShaderGraph.Block

open Text (comment? isSpacing LineOver)

inductive Strand where
  /-- A character outside of comments. -/
  | char (c : Char)
  | comment (text : List Char)
  /-- A text from a comment on that is never closed. -/
  | unclosed (text : List Char)
  deriving DecidableEq, Repr

namespace Strand

def text : Strand → List Char
  | char c => [c]
  | comment text => text
  | unclosed text => text

def char? : Strand → Option Char
  | char c => some c
  | _ => none

end Strand

def spell (xs : List Strand) : List Char := xs.flatMap Strand.text

@[simp] theorem spell_nil : spell [] = [] := rfl

@[simp] theorem spell_cons (x : Strand) (xs : List Strand) :
    spell (x :: xs) = x.text ++ spell xs := rfl

@[simp] theorem spell_append (xs ys : List Strand) : spell (xs ++ ys) = spell xs ++ spell ys :=
  List.flatMap_append

def opensComment (c : Char) (after : List Char) : Bool :=
  c == '/' && (after.head? == some '/' || after.head? == some '*')

/-- The comments of a text and the characters between them. -/
def strands : List Char → List Strand
  | [] => []
  | c :: cs =>
    if opensComment c cs then
      match _h : comment? (c :: cs) with
      | some (t, rest) => .comment t :: strands rest
      | none => [.unclosed (c :: cs)]
    else .char c :: strands cs
termination_by cs => cs.length
decreasing_by
  · exact Text.length_of_comment? _h
  · exact Nat.lt_succ_self _

def uncommented (cs : List Char) : List Char := (strands cs).filterMap Strand.char?

/-! ## Strands from the left -/

@[simp] theorem strands_nil : strands [] = [] := by rw [strands]

theorem strands_char {c : Char} {cs : List Char} (h : opensComment c cs = false) :
    strands (c :: cs) = .char c :: strands cs := by
  rw [strands, h]
  rfl

/-- Only a comment opens a comment. -/
theorem opensComment_of_comment? {c : Char} {cs t rest : List Char}
    (h : comment? (c :: cs) = some (t, rest)) : opensComment c cs = true := by
  unfold comment? at h
  split at h
  · next heq => cases heq; rfl
  · next heq => cases heq; rfl
  · cases h

theorem strands_comment {cs t rest : List Char} (h : comment? cs = some (t, rest)) :
    strands cs = .comment t :: strands rest := by
  cases cs with
  | nil => cases h
  | cons c cs =>
    rw [strands, if_pos (opensComment_of_comment? h)]
    split
    · next t' rest' h' =>
      rw [h] at h'
      cases h'
      rfl
    · next h' =>
      rw [h] at h'
      cases h'

theorem strands_unclosed {c : Char} {cs : List Char} (hc : opensComment c cs = true)
    (h : comment? (c :: cs) = none) : strands (c :: cs) = [.unclosed (c :: cs)] := by
  rw [strands, if_pos hc]
  split
  · next t rest h' =>
    rw [h] at h'
    cases h'
  · rfl

/-! ## What a text is whose first strand is known -/

theorem of_strands_char {c : Char} {cs : List Char} {xs : List Strand}
    (h : strands cs = .char c :: xs) :
    ∃ rest, cs = c :: rest ∧ opensComment c rest = false ∧ strands rest = xs := by
  unfold strands at h
  split at h
  · cases h
  · split at h
    · split at h <;> cases h
    · next hc =>
      cases h
      exact ⟨_, rfl, by simpa using hc, rfl⟩

theorem of_strands_comment {cs t : List Char} {xs : List Strand}
    (h : strands cs = .comment t :: xs) :
    ∃ rest, comment? cs = some (t, rest) ∧ strands rest = xs := by
  unfold strands at h
  split at h
  · cases h
  · split at h
    · split at h
      · next hcomment =>
        cases h
        exact ⟨_, hcomment, rfl⟩
      · cases h
    · cases h

theorem of_strands_unclosed {cs t : List Char} {xs : List Strand}
    (h : strands cs = .unclosed t :: xs) : cs = t ∧ xs = [] := by
  unfold strands at h
  split at h
  · cases h
  · split at h
    · split at h
      · cases h
      · cases h
        exact ⟨rfl, rfl⟩
    · cases h

/-- The strands of a text make the text. -/
@[simp] theorem spell_strands (cs : List Char) : spell (strands cs) = cs := by
  fun_induction strands cs with
  | case1 => rfl
  | case2 c cs hc t rest h ih =>
    rw [spell_cons, ih]
    exact (Text.eq_of_comment? h).1.symm
  | case3 c cs hc h => simp [Strand.text]
  | case4 c cs hc ih => rw [spell_cons, ih]; rfl

theorem eq_spell {cs : List Char} {xs : List Strand} (h : strands cs = xs) : cs = spell xs := by
  rw [← h, spell_strands]

/-! ## Strands of parts -/

theorem opensComment_congr {c : Char} {cs cs' : List Char} (h : cs.head? = cs'.head?) :
    opensComment c cs = opensComment c cs' := by
  simp only [opensComment, h]

/-- A text with no start of a comment in it, not even of one that goes on in `rest`. -/
theorem strands_chars {cs rest : List Char}
    (h : ∀ before c after, cs = before ++ c :: after → opensComment c (after ++ rest) = false) :
    strands (cs ++ rest) = cs.map .char ++ strands rest := by
  induction cs with
  | nil => rfl
  | cons c cs ih =>
    have hc : opensComment c (cs ++ rest) = false := h [] c cs rfl
    rw [List.cons_append, strands_char hc, ih]
    · rfl
    · intro before d after heq
      exact h (c :: before) d after (by rw [heq]; rfl)

/-- The strands from some place on are those of the text from there on. -/
theorem strands_spell {cs : List Char} {xs ys : List Strand} (h : strands cs = xs ++ ys) :
    strands (spell ys) = ys := by
  induction xs generalizing cs with
  | nil =>
    rw [List.nil_append] at h
    rw [← eq_spell h, h]
  | cons x xs ih =>
    cases x with
    | char c =>
      obtain ⟨rest, -, -, hrest⟩ := of_strands_char h
      exact ih hrest
    | comment t =>
      obtain ⟨rest, -, hrest⟩ := of_strands_comment h
      exact ih hrest
    | unclosed t =>
      obtain ⟨-, hnil⟩ := of_strands_unclosed h
      obtain ⟨-, rfl⟩ := List.append_eq_nil_iff.mp hnil
      exact strands_nil

/-- What follows a strand may be replaced, unless that continues a comment or starts one. -/
theorem strands_append {cs rest : List Char} {xs ys : List Strand} {y : Strand}
    (h : strands cs = xs ++ y :: ys) (hslash : rest.head? ≠ some '/')
    (hstar : rest.head? ≠ some '*') (hline : LineOver (spell (y :: ys)) → LineOver rest) :
    strands (spell xs ++ rest) = xs ++ strands rest := by
  induction xs generalizing cs with
  | nil => rfl
  | cons x xs ih =>
    rw [List.cons_append] at h
    cases x with
    | char c =>
      obtain ⟨after, -, hopens, hafter⟩ := of_strands_char h
      have hspell := eq_spell hafter
      rw [spell_append] at hspell
      have hc : opensComment c (spell xs ++ rest) = false := by
        cases hxs : spell xs with
        | nil => simp [opensComment, hslash, hstar]
        | cons d ds =>
          rw [← hopens, hspell, hxs]
          exact opensComment_congr rfl
      show strands (c :: (spell xs ++ rest)) = _
      rw [strands_char hc, ih hafter, List.cons_append]
    | comment t =>
      obtain ⟨after, hcomment, hafter⟩ := of_strands_comment h
      have hspell := eq_spell hafter
      rw [spell_append] at hspell
      have hover : LineOver after → LineOver (spell xs ++ rest) := by
        rw [hspell]
        cases spell xs with
        | nil => exact hline
        | cons d ds => exact fun hd => Text.lineOver_cons (Text.endsLine_of_lineOver hd) _
      show strands (t ++ spell xs ++ rest) = _
      rw [List.append_assoc, strands_comment (Text.comment?_followed hcomment hover), ih hafter,
        List.cons_append]
    | unclosed t => exact absurd (of_strands_unclosed h).2 (by simp)

end ShaderGraph.Block
