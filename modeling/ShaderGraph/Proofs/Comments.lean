/-
  ShaderGraph.Proofs.Comments — where a comment ends, and what may stand behind it.

  A comment is found by its start; what stands behind its end has no part in finding it, but
  for a comment that runs to the end of its line (`comment?_followed`). A gap is passed over to
  its end: behind it there is neither a space nor a comment (`of_gap_eq_cons`), and it is the
  same gap in front of any other text, unless a line goes on there (`gap_followed`).
-/

import ShaderGraph.Proofs.Cutting
import ShaderGraph.Text.Comment

namespace ShaderGraph

namespace Text

/-- A run of characters ends where it ends. -/
theorem takeWhile_dropWhile (p : Char → Bool) (cs : List Char) :
    (cs.dropWhile p).takeWhile p = [] := by
  induction cs with
  | nil => rfl
  | cons c cs ih =>
    rw [List.dropWhile_cons]
    split
    · exact ih
    · next h => rw [List.takeWhile_cons, if_neg h]

theorem takeWhile_append_of_over {p : Char → Bool} {a b : List Char} (ha : ∀ c ∈ a, p c = true)
    (hb : b.takeWhile p = []) : (a ++ b).takeWhile p = a := by
  rw [List.takeWhile_append_of_pos ha, hb, List.append_nil]

theorem dropWhile_append_of_over {p : Char → Bool} {a b : List Char} (ha : ∀ c ∈ a, p c = true)
    (hb : b.takeWhile p = []) : (a ++ b).dropWhile p = b := by
  have h := List.takeWhile_append_dropWhile (p := p) (l := a ++ b)
  rw [takeWhile_append_of_over ha hb] at h
  exact List.append_cancel_left h

/-- The line ends where the text does, or at once. -/
def LineOver (cs : List Char) : Prop := cs.takeWhile (!endsLine ·) = []

theorem endsLine_of_lineOver {c : Char} {cs : List Char} (h : LineOver (c :: cs)) :
    endsLine c = true := by
  unfold LineOver at h
  rw [List.takeWhile_cons] at h
  split at h
  · cases h
  · next hc => simpa using hc

theorem lineOver_cons {c : Char} (h : endsLine c = true) (cs : List Char) :
    LineOver (c :: cs) := by
  simp [LineOver, h]

/-- A comment starts in a line. -/
theorem not_lineOver_of_comment? {cs t after : List Char} (h : comment? cs = some (t, after)) :
    ¬ LineOver cs := by
  unfold comment? at h
  split at h
  · exact fun hover => absurd (endsLine_of_lineOver hover) (by decide)
  · exact fun hover => absurd (endsLine_of_lineOver hover) (by decide)
  · cases h

/-- What starts with neither a space nor a comment starts with no gap. -/
theorem gap_of_cons {c : Char} {cs : List Char} (hc : isSpacing c = false)
    (hcomment : comment? (c :: cs) = none) : gap (c :: cs) = ([], c :: cs) := by
  rw [gap, if_neg (by simp [hc])]
  split
  · next h => rw [hcomment] at h; cases h
  · rfl

theorem gap_of_lineOver {cs : List Char} (h : LineOver cs) : gap cs = ([], cs) := by
  cases cs with
  | nil => rw [gap]
  | cons c cs =>
    rcases (by simpa [endsLine] using endsLine_of_lineOver h : c = '\n' ∨ c = '\r') with rfl | rfl
    · exact gap_of_cons rfl rfl
    · exact gap_of_cons rfl rfl

/-- A gap is passed over to its end. -/
theorem gap_gap (cs : List Char) : gap (gap cs).2 = ([], (gap cs).2) := by
  fun_induction gap cs with
  | case1 => rw [gap]
  | case2 c rest hc g after e ih => rwa [e] at ih
  | case3 c rest hc t after hcomment g after' e ih => rwa [e] at ih
  | case4 c rest hc hcomment => exact gap_of_cons (by simpa using hc) hcomment

/-- Behind a gap there is neither a space nor a comment. -/
theorem of_gap_eq_cons {cs rest : List Char} {c : Char} (h : (gap cs).2 = c :: rest) :
    isSpacing c = false ∧ comment? (c :: rest) = none := by
  have hg := gap_gap cs
  rw [h, gap] at hg
  split at hg
  · simp at hg
  · next hc =>
    refine ⟨by simpa using hc, ?_⟩
    split at hg
    · next t after hcomment =>
      obtain ⟨ht, -⟩ : (t = [] ∧ _) ∧ _ := by simpa using hg
      exact absurd ht.1 (eq_of_comment? hcomment).2
    · next hcomment => exact hcomment

/-- A comment stays the same when another text follows, unless its line goes on. -/
theorem comment?_followed {cs t after s : List Char} (h : comment? cs = some (t, after))
    (hline : LineOver after → LineOver s) : comment? (t ++ s) = some (t, s) := by
  unfold comment? at h
  split at h
  · next cs =>
    obtain ⟨rfl, rfl⟩ := by simpa using h
    have hs : LineOver s := hline (takeWhile_dropWhile _ cs)
    have hline : ∀ c ∈ cs.takeWhile (!endsLine ·), (!endsLine c) = true :=
      List.all_eq_true.mp List.all_takeWhile
    rw [List.cons_append, List.cons_append, comment?, takeWhile_append_of_over hline hs,
      dropWhile_append_of_over hline hs]
  · next cs =>
    obtain ⟨⟨inside, rest⟩, hb, hab⟩ := Option.map_eq_some_iff.mp h
    cases hab
    have hfirst := ((breakAt?_eq_some_iff (by decide)).mp hb).1
    show (breakAt? ['*', '/'] (inside ++ ['*', '/'] ++ s)).map _ = _
    rw [breakAt?_of_first (by decide) hfirst]
    rfl
  · cases h

theorem comment?_block {inside : List Char} (h : ¬ ['*', '/'] <:+: inside) (rest : List Char) :
    comment? ('/' :: '*' :: inside ++ '*' :: '/' :: rest) =
      some ('/' :: '*' :: inside ++ ['*', '/'], rest) := by
  have hfirst : ¬ ['*', '/'] <:+: inside ++ ['*'] := by
    rw [List.infix_concat_iff]
    rintro (⟨t, hend⟩ | hin)
    · have := congrArg List.getLast? hend
      simp at this
    · exact h hin
  have hbreak := breakAt?_of_first (by decide) hfirst rest
  rw [List.append_assoc] at hbreak
  show (breakAt? ['*', '/'] (inside ++ '*' :: '/' :: rest)).map _ = _
  exact congrArg _ hbreak

theorem comment?_line {inside rest : List Char} (h : ∀ c ∈ inside, endsLine c = false)
    (hrest : LineOver rest) :
    comment? ('/' :: '/' :: inside ++ rest) = some ('/' :: '/' :: inside, rest) := by
  have hinside : ∀ c ∈ inside, (!endsLine c) = true := fun c hc => by rw [h c hc]; rfl
  show some ('/' :: '/' :: (inside ++ rest).takeWhile (!endsLine ·),
    (inside ++ rest).dropWhile (!endsLine ·)) = _
  rw [takeWhile_append_of_over hinside hrest, dropWhile_append_of_over hinside hrest]

/-- The gap stays the same when another text follows, unless the line goes on. -/
theorem gap_followed (cs : List Char) {s : List Char} (hs : gap s = ([], s))
    (hline : LineOver (gap cs).2 → LineOver s) : gap ((gap cs).1 ++ s) = ((gap cs).1, s) := by
  fun_induction gap cs with
  | case1 => exact hs
  | case4 => exact hs
  | case2 c rest hc g after e ih =>
    rw [e] at ih
    show gap (c :: (g ++ s)) = _
    rw [gap, if_pos hc, ih hline]
  | case3 c rest hc t after hcomment g after' e ih =>
    rw [e] at ih
    obtain ⟨ht, hne⟩ := eq_of_comment? hcomment
    have hover : LineOver after → LineOver (g ++ s) := by
      intro ha
      rw [gap_of_lineOver ha] at e
      cases e
      exact hline ha
    have hfollowed := comment?_followed hcomment hover
    cases t with
    | nil => exact absurd rfl hne
    | cons c' t =>
      obtain ⟨rfl, -⟩ := List.cons.inj ht
      rw [List.append_assoc]
      show gap (c :: (t ++ (g ++ s))) = _
      rw [gap, if_neg hc]
      split
      · next u rest' h =>
        obtain ⟨rfl, rfl⟩ : c :: t = u ∧ g ++ s = rest' := by
          simpa using hfollowed.symm.trans h
        rw [ih hline]
      · next h => rw [List.cons_append] at hfollowed; rw [hfollowed] at h; cases h

end Text

end ShaderGraph
