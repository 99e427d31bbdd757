/-
  ShaderGraph.Text.Comment — what may stand between two tokens of any of the small
  languages here: spaces, tabs and comments.

  A comment is `//` up to the end of its line, the line end not included, or `/*` up to
  the first `*/`. A `/*` that is never closed is no comment. `gap` splits off the longest
  such run: nothing is lost (`gap_append`).
-/

import ShaderGraph.Text.Blank
import ShaderGraph.Text.Search

namespace ShaderGraph.Text

/-- A line feed or a carriage return; the two in a row end one line as well. -/
def endsLine (c : Char) : Bool := c == '\n' || c == '\r'

/-- The comment at the start of a text, and what follows it. -/
def comment? : List Char → Option (List Char × List Char)
  | '/' :: '/' :: cs =>
    some ('/' :: '/' :: cs.takeWhile (!endsLine ·), cs.dropWhile (!endsLine ·))
  | '/' :: '*' :: cs =>
    (breakAt? ['*', '/'] cs).map fun (inside, rest) => ('/' :: '*' :: inside ++ ['*', '/'], rest)
  | _ => none

theorem eq_of_comment? {cs t rest : List Char} (h : comment? cs = some (t, rest)) :
    cs = t ++ rest ∧ t ≠ [] := by
  unfold comment? at h
  split at h
  · obtain ⟨rfl, rfl⟩ := by simpa using h
    simp [List.takeWhile_append_dropWhile]
  · next cs' =>
    obtain ⟨⟨inside, after⟩, hb, hab⟩ := Option.map_eq_some_iff.1 h
    simp only [Prod.mk.injEq] at hab
    obtain ⟨rfl, rfl⟩ := hab
    have := eq_of_breakAt? hb
    simp_all
  · simp at h

theorem length_of_comment? {cs t rest : List Char} (h : comment? cs = some (t, rest)) :
    rest.length < cs.length := by
  obtain ⟨rfl, ht⟩ := eq_of_comment? h
  have : 0 < t.length := List.length_pos_iff.2 ht
  simp only [List.length_append]
  omega

/-- The longest run of spaces, tabs and comments at the start of a text, and what follows it. -/
def gap (cs : List Char) : List Char × List Char :=
  match cs with
  | [] => ([], [])
  | c :: rest =>
    if isSpacing c then
      let (g, after) := gap rest
      (c :: g, after)
    else match _h : comment? (c :: rest) with
      | some (t, after) =>
        let (g, after) := gap after
        (t ++ g, after)
      | none => ([], c :: rest)
termination_by cs.length
decreasing_by
  · exact Nat.lt_succ_self _
  · exact length_of_comment? _h

theorem gap_append (cs : List Char) : (gap cs).1 ++ (gap cs).2 = cs := by
  fun_induction gap cs with
  | case1 => rfl
  | case2 c rest h g after e ih => simp_all
  | case3 c rest h t after hc g after' e ih =>
    have := (eq_of_comment? hc).1
    simp_all
  | case4 => rfl

theorem length_gap_le (cs : List Char) : (gap cs).2.length ≤ cs.length := by
  have := congrArg List.length (gap_append cs)
  simp only [List.length_append] at this
  omega

def skipGap (cs : List Char) : List Char := (gap cs).2

end ShaderGraph.Text
