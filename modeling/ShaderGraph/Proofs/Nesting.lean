/-
  ShaderGraph.Proofs.Nesting — where a formula can occur in a text of parenthesized parts.

  Composed conditions are searched for the conditions that they are composed of. A formula has a
  test, and its parentheses are balanced: so an occurrence of it cannot begin within a parenthesized
  part and end outside, or the other way round.

  Proved:
  - `Nested.infix_parenthesized`: a balanced text that occurs around a parenthesized one occurs
    before, in or behind the parentheses, or holds all that they do.
  - `Formal.nested`, `Formal.mem`: a formula is balanced and has a test.
  - `Framed.parted`: so a formula that occurs in a text of parenthesized parts occurs in one of the
    parts, or one of them in it.
-/

import ShaderGraph.Proofs.Availability

namespace ShaderGraph

/-! ## Occurrences in parentheses -/

namespace Text

section

variable {c a b x p q : List Char}

structure Nested (cs : List Char) : Prop where
  total : cs.count '(' = cs.count ')'
  opened : ∀ p, p <+: cs → p.count ')' ≤ p.count '('

theorem Nested.closed (h : Nested c) (hq : q <:+ c) : q.count '(' ≤ q.count ')' := by
  obtain ⟨p, rfl⟩ := hq
  have htotal := h.total
  have hopened := h.opened p (List.prefix_append p q)
  simp only [List.count_append] at htotal
  omega

/-- An occurrence around a character is before it, behind it or over it. -/
theorem infix_append_cons {k : Char} (h : c <:+: a ++ k :: b) :
    c <:+: a ∨ c <:+: b ∨ ∃ u v, c = u ++ k :: v ∧ u <:+ a ∧ v <+: b := by
  rcases List.infix_append_iff.mp h with ha | hb | ⟨u, v, rfl, hu, hv⟩
  · exact Or.inl ha
  · rcases List.infix_cons_iff.mp hb with hb | hb
    · rcases List.prefix_cons_iff.mp hb with rfl | ⟨v, rfl, hv⟩
      · exact Or.inl List.nil_infix
      · exact Or.inr (Or.inr ⟨[], v, rfl, List.nil_suffix, hv⟩)
    · exact Or.inr (Or.inl hb)
  · rcases List.prefix_cons_iff.mp hv with rfl | ⟨w, rfl, hw⟩
    · exact Or.inl (by simpa using hu.isInfix)
    · exact Or.inr (Or.inr ⟨u, w, rfl, hu, hw⟩)

/-- Where a balanced text can occur around a parenthesized one. -/
theorem Nested.infix_parenthesized (hc : Nested c) (hx : Nested x)
    (h : c <:+: a ++ '(' :: (x ++ ')' :: b)) : c <:+: a ∨ c <:+: x ∨ c <:+: b ∨ x <:+: c := by
  rcases infix_append_cons h with ha | hrest | ⟨u, v, rfl, -, hv⟩
  · exact Or.inl ha
  · rcases infix_append_cons hrest with hx' | hb | ⟨u, v, rfl, hu, -⟩
    · exact Or.inr (Or.inl hx')
    · exact Or.inr (Or.inr (Or.inl hb))
    · -- over the closing parenthesis, one closes that is not open
      have hclosed := hx.closed hu
      have hopened := hc.opened (u ++ [')']) ⟨v, by simp⟩
      simp only [List.count_append, List.count_singleton] at hopened
      simp at hopened
      omega
  · rcases List.prefix_or_prefix_of_prefix hv (List.prefix_append x (')' :: b)) with hvx | hxv
    · -- over the opening parenthesis alone, one stays open
      have hopened := hx.opened v hvx
      have hclosed := hc.closed (List.suffix_append u ('(' :: v))
      simp only [List.count_cons] at hclosed
      simp at hclosed
      omega
    · exact Or.inr (Or.inr (Or.inr ((hxv.isInfix.trans (List.infix_cons (List.infix_refl v))).trans
        (List.suffix_append u ('(' :: v)).isInfix)))

end

end Text

/-! ## Formulas -/

namespace Condition

open Text (isWordChar isSpacing Nested)

namespace Formula.Cursor

def depth : Cursor → Nat
  | operand _ outer => outer.length
  | keyword _ _ outer => outer.length
  | name _ _ outer => outer.length + 1
  | operator _ _ outer => outer.length
  | second _ _ _ outer => outer.length

/-- The last character of the keyword opens a parenthesis. -/
theorem eq_of_spelled {k : Char} {rest : List Char} (h : k :: rest <:+ "efined(".toList) :
    rest = [] ∧ k = '(' ∨ rest ≠ [] ∧ k ≠ '(' ∧ k ≠ ')' := by
  have hkeyword : "efined(".toList = ['e', 'f', 'i', 'n', 'e', 'd', '('] := rfl
  simp only [hkeyword, List.suffix_cons_iff, List.cons.injEq, List.suffix_nil, reduceCtorEq,
    or_false] at h
  rcases h with ⟨rfl, rfl⟩ | ⟨rfl, rfl⟩ | ⟨rfl, rfl⟩ | ⟨rfl, rfl⟩ | ⟨rfl, rfl⟩ | ⟨rfl, rfl⟩ |
    ⟨rfl, rfl⟩ <;> simp

/-- A character opens a parenthesis, closes one, or does neither. -/
theorem depth_step {s s' : Cursor} {c : Char} (hs : s.Spelled) (h : s.step c = some s') :
    s'.depth + (if c == ')' then 1 else 0) = s.depth + if c == '(' then 1 else 0 := by
  cases s with
  | keyword rest level outer =>
    cases rest with
    | nil => cases h
    | cons k rest =>
      simp only [step, beq_iff_eq] at h
      split at h
      · next hck =>
        subst hck
        rcases eq_of_spelled hs with ⟨rfl, rfl⟩ | ⟨hrest, hopen, hclose⟩
        · cases h
          rfl
        · cases h
          simp [hrest, hopen, hclose, depth]
      · cases h
  | operand level outer =>
    simp only [step] at h
    split at h
    · next hc =>
      cases h
      rw [beq_iff_eq.mp hc]
      rfl
    · next hopen =>
      have hclose : ¬ (c == ')') = true := by
        intro hc
        rw [beq_iff_eq.mp hc] at h
        cases h
      rw [if_neg hopen, if_neg hclose]
      repeat' split at h
      all_goals cases h
      all_goals rfl
  | name read level outer =>
    have hopen : ¬ (c == '(') = true := by
      intro hc
      rw [beq_iff_eq.mp hc] at h
      cases h
    rw [if_neg hopen]
    simp only [step] at h
    split at h
    · next hword =>
      have hclose : ¬ (c == ')') = true := by
        intro hc
        rw [beq_iff_eq.mp hc] at hword
        cases hword
      cases h
      rw [if_neg hclose]
      rfl
    · split at h
      · next hclose =>
        cases h
        rw [if_pos (Bool.and_eq_true_iff.mp hclose).1]
        rfl
      · cases h
  | operator terms term outer =>
    have hopen : ¬ (c == '(') = true := by
      intro hc
      rw [beq_iff_eq.mp hc] at h
      cases h
    rw [if_neg hopen]
    simp only [step] at h
    split at h
    · next hclose =>
      rw [if_pos hclose]
      split at h
      · cases h
        rfl
      · cases h
    · next hclose =>
      rw [if_neg hclose]
      repeat' split at h
      all_goals cases h
      all_goals rfl
  | second sign terms term outer =>
    simp only [step] at h
    split at h
    · cases h
    · next hsign =>
      obtain rfl : c = sign := by simpa using hsign
      rcases hs with rfl | rfl
      · cases h
        rfl
      · cases h
        rfl

theorem depth_run {s s' : Cursor} {cs : List Char} (hs : s.Spelled) (h : s.run cs = some s') :
    cs.count ')' + s'.depth = cs.count '(' + s.depth := by
  induction cs generalizing s with
  | nil =>
    cases h
    rfl
  | cons c cs ih =>
    obtain ⟨t, ht, h⟩ := Option.bind_eq_some_iff.mp h
    have hstep := depth_step hs ht
    have hrest := ih (spelled_step hs ht) h
    rw [List.count_cons, List.count_cons]
    omega

/-- Without a `d` no operand comes. -/
theorem operand_of_run {level : Level} {outer : List Level} {s' : Cursor} {cs : List Char}
    (hcs : 'd' ∉ cs) (h : (operand level outer).run cs = some s') :
    ∃ level' outer', s' = operand level' outer' := by
  induction cs generalizing level outer with
  | nil =>
    cases h
    exact ⟨level, outer, rfl⟩
  | cons c cs ih =>
    rw [List.mem_cons, not_or] at hcs
    obtain ⟨t, ht, h⟩ := Option.bind_eq_some_iff.mp h
    have hoperand : ∃ level' outer', t = operand level' outer' := by
      simp only [step, beq_iff_eq, Ne.symm hcs.1, if_false] at ht
      repeat' split at ht
      all_goals cases ht
      all_goals exact ⟨_, _, rfl⟩
    obtain ⟨level', outer', rfl⟩ := hoperand
    exact ih hcs.2 h

end Formula.Cursor

section

variable {text : String}

theorem Formal.nested (h : Formal text) : Nested text.toList := by
  obtain ⟨f, hf⟩ := h
  obtain ⟨s, hs, hf⟩ := Option.bind_eq_some_iff.mp hf
  have hstart : Formula.Cursor.start.Spelled := trivial
  refine ⟨?_, ?_⟩
  · have hdepth := Formula.Cursor.depth_run hstart hs
    cases s with
    | operator terms term outer =>
      cases outer with
      | nil => exact hdepth.symm
      | cons level outer => cases hf
    | _ => cases hf
  · rintro p ⟨q, hq⟩
    rw [← hq, Formula.Cursor.run_append] at hs
    obtain ⟨s', hs', -⟩ := Option.bind_eq_some_iff.mp hs
    have hdepth := Formula.Cursor.depth_run hstart hs'
    simp only [Formula.Cursor.start, Formula.Cursor.depth, List.length_nil] at hdepth
    omega

/-- A formula tests something. -/
theorem Formal.mem (h : Formal text) : 'd' ∈ text.toList := by
  obtain ⟨f, hf⟩ := h
  obtain ⟨s, hs, hf⟩ := Option.bind_eq_some_iff.mp hf
  by_contra hd
  obtain ⟨level, outer, rfl⟩ := Formula.Cursor.operand_of_run hd hs
  cases hf

end

/-! ## Parts of a text -/

/-- The parts stand in the text in parentheses, with nothing of a test between them. -/
inductive Framed : List String → List Char → Prop
  | nil {cs : List Char} : 'd' ∉ cs → Framed [] cs
  | snoc {parts : List String} {cs between : List Char} {part : String} :
      Framed parts cs → 'd' ∉ between →
      Framed (parts ++ [part]) (cs ++ '(' :: (part.toList ++ ')' :: between))

/-- Every formula that occurs in the text occurs in a part, or a part in it. -/
def Parted (parts : List String) (cs : List Char) : Prop :=
  ∀ text, Formal text → text.toList <:+: cs →
    ∃ part ∈ parts, text.toList <:+: part.toList ∨ part.toList <:+: text.toList

section

variable {parts parts' : List String} {part text : String} {cs between : List Char}

theorem Framed.append (h : Framed parts cs) (hb : 'd' ∉ between) : Framed parts (cs ++ between) := by
  cases h with
  | nil hcs => exact .nil (by simp [hcs, hb])
  | snoc h hbetween =>
    rw [List.append_assoc, List.cons_append, List.append_assoc, List.cons_append]
    exact .snoc h (by simp [hbetween, hb])

theorem Framed.parted (h : Framed parts cs) (hp : ∀ part ∈ parts, Formal part) :
    Parted parts cs := by
  induction h with
  | nil hd => exact fun text ht ho => absurd (ho.subset ht.mem) hd
  | @snoc parts cs between part _ hd ih =>
    intro text ht ho
    have hpart : Formal part := hp part (by simp)
    rcases ht.nested.infix_parenthesized hpart.nested ho with hcs | hin | hbetween | hover
    · obtain ⟨part', hmem, hocc⟩ := ih (fun p hmem => hp p (by simp [hmem])) text ht hcs
      exact ⟨part', by simp [hmem], hocc⟩
    · exact ⟨part, by simp, Or.inl hin⟩
    · exact absurd (hbetween.subset ht.mem) hd
    · exact ⟨part, by simp, Or.inr hover⟩

theorem Framed.infix_of_mem (h : Framed parts cs) (hp : part ∈ parts) : part.toList <:+: cs := by
  induction h with
  | nil _ => cases hp
  | @snoc parts cs between last _ _ ih =>
    rcases List.mem_append.mp hp with hp | hp
    · exact (ih hp).trans List.infix_append_left
    · rw [List.mem_singleton.mp hp]
      exact ⟨cs ++ ['('], ')' :: between, by simp⟩

/-- A text is parted by the parts of its parts. -/
theorem Parted.trans (h : Parted parts cs) (hp : ∀ part ∈ parts, Parted parts' part.toList ∧
    ∃ part' ∈ parts', part'.toList <:+: part.toList) : Parted parts' cs := by
  intro text ht ho
  obtain ⟨part, hmem, hocc⟩ := h text ht ho
  obtain ⟨hparted, part', hmem', ho'⟩ := hp part hmem
  rcases hocc with hin | hover
  · exact hparted text ht hin
  · exact ⟨part', hmem', Or.inr (ho'.trans hover)⟩

end

end Condition

end ShaderGraph
