/-
  ShaderGraph.Proofs.Grammar — parsing expressions, and the ones that gaps, references and
  conditions are read by.

  An expression is tried at the start of a text. It reads some of it, token by token, and leaves
  the rest, or it fails. The first alternative that reads is taken for good, and what may be
  repeated is repeated until it fails; so a text is read in one way at most (`Reads.unique`), and
  the tokens and what is left make the text (`Reads.spelled`).

  A rule that is a token takes its characters as they come; between the parts of any other rule
  gaps are skipped. `reads_comment` and `exists_reads_skip` say that a comment and a gap are what
  these rules read.
-/

import ShaderGraph.Proofs.Runs

namespace ShaderGraph.Grammar

open Text (isWordChar isSpacing endsLine comment? breakAt? after? gap)
open Condition (isOperatorChar IsWord WordOver)

inductive Kind where
  | spacing
  | comment
  | identifier
  | operator
  /-- A text that a rule asks for and that is no token of the other kinds. -/
  | mark
  deriving DecidableEq, Repr

structure Token where
  kind : Kind
  text : List Char
  deriving DecidableEq, Repr

def spell (tokens : List Token) : List Char := tokens.flatMap Token.text

@[simp] theorem spell_nil : spell [] = [] := rfl

@[simp] theorem spell_cons (t : Token) (tokens : List Token) :
    spell (t :: tokens) = t.text ++ spell tokens := rfl

@[simp] theorem spell_append (s t : List Token) : spell (s ++ t) = spell s ++ spell t :=
  List.flatMap_append

/-! ## Expressions -/

inductive Expr where
  /-- One character of a class. -/
  | one (p : Char → Bool)
  | exactly (text : List Char)
  /-- The end of the text. -/
  | ends
  | nothing
  | seq (a b : Expr)
  /-- The second is tried where the first fails. -/
  | either (a b : Expr)
  /-- Again and again until it fails. -/
  | many (a : Expr)
  /-- Nothing, where the expression fails. -/
  | notAhead (a : Expr)
  /-- All that the expression reads, as one token. -/
  | token (kind : Kind) (a : Expr)

/-- The tokens that are read and what is left, or nothing in case of failure. -/
abbrev Outcome := Option (List Token × List Char)

def Outcome.behind (tokens : List Token) (o : Outcome) : Outcome :=
  o.map fun (more, rest) => (tokens ++ more, rest)

@[simp] theorem Outcome.behind_behind (s t : List Token) (o : Outcome) :
    (o.behind t).behind s = o.behind (s ++ t) := by
  cases o <;> simp [behind]

def firstOf (p : Char → Bool) : List Char → Outcome
  | [] => none
  | c :: cs => if p c then some ([⟨.mark, [c]⟩], cs) else none

/-- What becomes of an expression at the start of a text. -/
inductive Reads : Expr → List Char → Outcome → Prop
  | one (p : Char → Bool) (cs : List Char) : Reads (.one p) cs (firstOf p cs)
  | exactly (text cs : List Char) :
      Reads (.exactly text) cs ((after? text cs).map fun rest => ([⟨.mark, text⟩], rest))
  | ends (cs : List Char) : Reads .ends cs (if cs = [] then some ([], []) else none)
  | nothing (cs : List Char) : Reads .nothing cs (some ([], cs))
  | seq_fails {a b cs} (ha : Reads a cs none) : Reads (.seq a b) cs none
  | seq {a b cs s mid o} (ha : Reads a cs (some (s, mid))) (hb : Reads b mid o) :
      Reads (.seq a b) cs (o.behind s)
  | either_first {a b cs x} (ha : Reads a cs (some x)) : Reads (.either a b) cs (some x)
  | either_second {a b cs o} (ha : Reads a cs none) (hb : Reads b cs o) : Reads (.either a b) cs o
  | many_over {a cs} (ha : Reads a cs none) : Reads (.many a) cs (some ([], cs))
  | many_more {a cs s mid t rest} (ha : Reads a cs (some (s, mid)))
      (hmany : Reads (.many a) mid (some (t, rest))) : Reads (.many a) cs (some (s ++ t, rest))
  | notAhead {a cs o} (ha : Reads a cs o) :
      Reads (.notAhead a) cs (if o.isNone then some ([], cs) else none)
  | token {kind a cs o} (ha : Reads a cs o) :
      Reads (.token kind a) cs (o.map fun (tokens, rest) => ([⟨kind, spell tokens⟩], rest))

section

variable {a b e : Expr} {kind : Kind} {p : Char → Bool} {c : Char} {cs mid rest t : List Char}
  {o o' : Outcome} {s tokens : List Token}

/-- A text is read in one way at most. -/
theorem Reads.unique (h : Reads e cs o) (h' : Reads e cs o') : o = o' := by
  induction h generalizing o' with
  | one => cases h'; rfl
  | exactly => cases h'; rfl
  | ends => cases h'; rfl
  | nothing => cases h'; rfl
  | seq_fails _ iha =>
    cases h' with
    | seq_fails => rfl
    | seq ha' => cases iha ha'
  | seq _ _ iha ihb =>
    cases h' with
    | seq_fails ha' => cases iha ha'
    | seq ha' hb' =>
      cases iha ha'
      rw [ihb hb']
  | either_first _ iha =>
    cases h' with
    | either_first ha' => exact iha ha'
    | either_second ha' => cases iha ha'
  | either_second _ _ iha ihb =>
    cases h' with
    | either_first ha' => cases iha ha'
    | either_second _ hb' => exact ihb hb'
  | many_over _ iha =>
    cases h' with
    | many_over => rfl
    | many_more ha' => cases iha ha'
  | many_more _ _ iha ihmany =>
    cases h' with
    | many_over ha' => cases iha ha'
    | many_more ha' hmany' =>
      cases iha ha'
      cases ihmany hmany'
      rfl
  | notAhead _ iha =>
    cases h' with
    | notAhead ha' => rw [iha ha']
  | token _ iha =>
    cases h' with
    | token ha' => rw [iha ha']

/-- What becomes of two expressions in a row, once the first has read something. -/
theorem Reads.second (h : Reads (.seq a b) cs o) (ha : Reads a cs (some (s, mid))) :
    ∃ o', Reads b mid o' ∧ o = o'.behind s := by
  cases h with
  | seq_fails ha' => cases ha.unique ha'
  | seq ha' hb =>
    cases ha.unique ha'
    exact ⟨_, hb, rfl⟩

theorem Reads.of_seq (h : Reads (.seq a b) cs (some (tokens, rest))) :
    ∃ s mid t, Reads a cs (some (s, mid)) ∧ Reads b mid (some (t, rest)) ∧ tokens = s ++ t := by
  generalize ho : some (tokens, rest) = o at h
  cases h with
  | seq_fails => cases ho
  | seq ha hb =>
    obtain ⟨⟨t, rest⟩, rfl, heq⟩ := Option.map_eq_some_iff.mp ho.symm
    cases heq
    exact ⟨_, _, t, ha, hb, rfl⟩

/-- The tokens that are read and what is left make the text. -/
theorem Reads.spelled (h : Reads e cs o) : ∀ x ∈ o, spell x.1 ++ x.2 = cs := by
  induction h with
  | one p cs => cases cs <;> simp [firstOf]
  | exactly text cs =>
    intro x hx
    obtain ⟨rest, hrest, rfl⟩ := Option.map_eq_some_iff.mp hx
    simp [Text.after?_eq_some_iff.mp hrest]
  | ends cs => simp
  | nothing cs => simp
  | seq_fails => simp
  | seq _ _ iha ihb =>
    intro x hx
    obtain ⟨y, hy, rfl⟩ := Option.map_eq_some_iff.mp hx
    rw [spell_append, List.append_assoc, ihb y hy]
    exact iha _ rfl
  | either_first _ iha => exact iha
  | either_second _ _ _ ihb => exact ihb
  | many_over => simp
  | many_more _ _ iha ihmany =>
    intro x hx
    cases hx
    rw [spell_append, List.append_assoc, ihmany _ rfl]
    exact iha _ rfl
  | notAhead => simp
  | token _ iha =>
    intro x hx
    obtain ⟨y, hy, rfl⟩ := Option.map_eq_some_iff.mp hx
    simpa using iha y hy

/-! ## Leaving the rest -/

def Leaves (e : Expr) (cs rest : List Char) : Prop := ∃ tokens, Reads e cs (some (tokens, rest))

theorem Leaves.seq (ha : Leaves a cs mid) (hb : Leaves b mid rest) : Leaves (.seq a b) cs rest := by
  obtain ⟨s, ha⟩ := ha
  obtain ⟨t, hb⟩ := hb
  exact ⟨s ++ t, ha.seq hb⟩

theorem Leaves.either_first (ha : Leaves a cs rest) : Leaves (.either a b) cs rest := by
  obtain ⟨s, ha⟩ := ha
  exact ⟨s, .either_first ha⟩

theorem Leaves.either_second (hb : Leaves b cs rest) (ha : Reads a cs none) :
    Leaves (.either a b) cs rest := by
  obtain ⟨s, hb⟩ := hb
  exact ⟨s, ha.either_second hb⟩

theorem Leaves.seq_fails (ha : Leaves a cs mid) (hb : Reads b mid none) :
    Reads (.seq a b) cs none := by
  obtain ⟨s, ha⟩ := ha
  exact ha.seq hb

theorem Leaves.many (ha : Leaves a cs mid) (hmany : Leaves (.many a) mid rest) :
    Leaves (.many a) cs rest := by
  obtain ⟨s, ha⟩ := ha
  obtain ⟨t, hmany⟩ := hmany
  exact ⟨s ++ t, ha.many_more hmany⟩

/-- What a token is made of is what is read for it. -/
theorem Leaves.token (h : Leaves a cs rest) (ht : t ++ rest = cs) :
    Reads (.token kind a) cs (some ([⟨kind, t⟩], rest)) := by
  obtain ⟨tokens, h⟩ := h
  obtain rfl : spell tokens = t := List.append_cancel_right ((h.spelled _ rfl).trans ht.symm)
  exact h.token

theorem reads_exactly (t rest : List Char) :
    Reads (.exactly t) (t ++ rest) (some ([⟨.mark, t⟩], rest)) := by
  have h := Reads.exactly t (t ++ rest)
  rwa [Text.after?_eq_some_iff.mpr rfl] at h

theorem leaves_exactly (t rest : List Char) : Leaves (.exactly t) (t ++ rest) rest :=
  ⟨_, reads_exactly t rest⟩

theorem fails_exactly (h : ¬ t <+: cs) : Reads (.exactly t) cs none := by
  have := Reads.exactly t cs
  rwa [Text.after?_eq_none_iff.mpr h] at this

structure ReadsClass (a : Expr) (p : Char → Bool) : Prop where
  leaves : ∀ c cs, p c = true → Leaves a (c :: cs) cs
  fails : ∀ c cs, p c = false → Reads a (c :: cs) none
  nil : Reads a [] none

theorem readsClass_one (p : Char → Bool) : ReadsClass (.one p) p where
  leaves c cs hc := by
    have h := Reads.one p (c :: cs)
    rw [firstOf, if_pos hc] at h
    exact ⟨_, h⟩
  fails c cs hc := by
    have h := Reads.one p (c :: cs)
    rwa [firstOf, if_neg (by simp [hc])] at h
  nil := Reads.one p []

theorem ReadsClass.many (h : ReadsClass a p) (cs : List Char) :
    Leaves (.many a) cs (cs.dropWhile p) := by
  induction cs with
  | nil => exact ⟨[], .many_over h.nil⟩
  | cons c cs ih =>
    cases hc : p c with
    | true =>
      rw [List.dropWhile_cons_of_pos hc]
      exact (h.leaves c cs hc).many ih
    | false =>
      rw [List.dropWhile_cons_of_neg (by simp [hc])]
      exact ⟨[], .many_over (h.fails c cs hc)⟩

def Expr.some (a : Expr) : Expr := .seq a (.many a)

theorem ReadsClass.some (h : ReadsClass a p) (hcs : cs.takeWhile p ≠ []) :
    Leaves a.some cs (cs.dropWhile p) := by
  cases cs with
  | nil => exact absurd rfl hcs
  | cons c cs =>
    have hc : p c = true := by
      by_contra hc
      exact hcs (List.takeWhile_cons_of_neg hc)
    rw [List.dropWhile_cons_of_pos hc]
    exact (h.leaves c cs hc).seq (h.many cs)

theorem ReadsClass.some_fails (h : ReadsClass a p) (hcs : cs.takeWhile p = []) :
    Reads a.some cs none := by
  cases cs with
  | nil => exact h.nil.seq_fails
  | cons c cs =>
    have hc : p c = false := by simpa [List.takeWhile_cons] using hcs
    exact (h.fails c cs hc).seq_fails

def any : Expr := .one fun _ => true

/-- Any character where the expression fails. -/
def Expr.other (a : Expr) : Expr := .seq (.notAhead a) any

theorem other_leaves (ha : Reads a (c :: cs) none) : Leaves a.other (c :: cs) cs :=
  Leaves.seq ⟨[], ha.notAhead⟩ ((readsClass_one _).leaves c cs rfl)

theorem other_fails (ha : Leaves a cs rest) : Reads a.other cs none := by
  obtain ⟨s, ha⟩ := ha
  exact .seq_fails ha.notAhead

theorem other_nil (ha : Reads a [] none) : Reads a.other [] none :=
  Leaves.seq_fails ⟨[], ha.notAhead⟩ (readsClass_one _).nil

/-- What does not start with a character of a class starts with one of the others. -/
theorem ReadsClass.other (h : ReadsClass a p) : ReadsClass a.other (!p ·) where
  leaves c cs hc := other_leaves (h.fails c cs (by simpa using hc))
  fails c cs hc := other_fails (h.leaves c cs (by simpa using hc))
  nil := other_nil h.nil

theorem ReadsClass.either {q : Char → Bool} (ha : ReadsClass a p) (hb : ReadsClass b q) :
    ReadsClass (.either a b) fun c => p c || q c where
  leaves c cs hc := by
    cases hp : p c with
    | true => exact (ha.leaves c cs hp).either_first
    | false => exact (hb.leaves c cs (by simpa [hp] using hc)).either_second (ha.fails c cs hp)
  fails c cs hc := by
    rw [Bool.or_eq_false_iff] at hc
    exact (ha.fails c cs hc.1).either_second (hb.fails c cs hc.2)
  nil := ha.nil.either_second hb.nil

end

/-! ## The rules that are tokens -/

def spacing : Expr := .token .spacing (.one isSpacing)

def newline : Expr :=
  .either (.exactly ['\n']) (.either (.exactly ['\r', '\n']) (.exactly ['\r']))

def comment : Expr :=
  .token .comment (.either
    (.seq (.exactly ['/', '/']) (.many newline.other))
    (.seq (.exactly ['/', '*']) (.seq (.many (Expr.exactly ['*', '/']).other)
      (.exactly ['*', '/']))))

def identifier : Expr := .token .identifier (Expr.one isWordChar).some

def operator : Expr :=
  .token .operator (Expr.either (.one isWordChar) (.one isSpacing)).other.some

section

variable {c : Char} {cs rest t : List Char}

theorem reads_spacing (hc : isSpacing c = true) (cs : List Char) :
    Reads spacing (c :: cs) (some ([⟨.spacing, [c]⟩], cs)) :=
  ((readsClass_one isSpacing).leaves c cs hc).token rfl

theorem spacing_fails (h : ∀ c ∈ cs.head?, isSpacing c = false) : Reads spacing cs none := by
  cases cs with
  | nil => exact (readsClass_one isSpacing).nil.token
  | cons c cs => exact ((readsClass_one isSpacing).fails c cs (h c rfl)).token

theorem reads_identifier (h : cs.takeWhile isWordChar ≠ []) : Reads identifier cs
    (some ([⟨.identifier, cs.takeWhile isWordChar⟩], cs.dropWhile isWordChar)) :=
  ((readsClass_one isWordChar).some h).token List.takeWhile_append_dropWhile

theorem identifier_fails (h : WordOver cs) : Reads identifier cs none :=
  ((readsClass_one isWordChar).some_fails h).token

theorem readsClass_operatorChar :
    ReadsClass (Expr.either (.one isWordChar) (.one isSpacing)).other isOperatorChar := by
  have h := ((readsClass_one isWordChar).either (readsClass_one isSpacing)).other
  have hclass : (fun c => !(isWordChar c || isSpacing c)) = isOperatorChar := by
    funext c
    simp [isOperatorChar]
  rwa [hclass] at h

theorem reads_operator (h : cs.takeWhile isOperatorChar ≠ []) : Reads operator cs
    (some ([⟨.operator, cs.takeWhile isOperatorChar⟩], cs.dropWhile isOperatorChar)) :=
  (readsClass_operatorChar.some h).token List.takeWhile_append_dropWhile

theorem operator_fails (h : cs.takeWhile isOperatorChar = []) : Reads operator cs none :=
  (readsClass_operatorChar.some_fails h).token

/-! ## Comments -/

theorem readsClass_inLine : ReadsClass newline.other (!endsLine ·) where
  leaves c cs hc := by
    have hne : c ≠ '\n' ∧ c ≠ '\r' := by simpa [endsLine] using hc
    refine other_leaves (.either_second (fails_exactly ?_) (.either_second (fails_exactly ?_)
      (fails_exactly ?_))) <;> simp [Ne.symm hne.1, Ne.symm hne.2]
  fails c cs hc := by
    have hends : c = '\n' ∨ c = '\r' := by
      rwa [Bool.not_eq_false', endsLine, Bool.or_eq_true, beq_iff_eq, beq_iff_eq] at hc
    rcases hends with rfl | rfl
    · exact other_fails (leaves_exactly ['\n'] cs).either_first
    · have hfeed : Reads (.exactly ['\n']) ('\r' :: cs) none := fails_exactly (by simp)
      by_cases hboth : ['\r', '\n'] <+: '\r' :: cs
      · obtain ⟨rest, hrest⟩ := hboth
        rw [← hrest] at hfeed ⊢
        exact other_fails ((leaves_exactly _ rest).either_first.either_second hfeed)
      · exact other_fails
          (((leaves_exactly ['\r'] cs).either_second (fails_exactly hboth)).either_second hfeed)
  nil := other_nil (.either_second (fails_exactly (by simp))
    (.either_second (fails_exactly (by simp)) (fails_exactly (by simp))))

/-- The text in front of the first occurrence is read character by character. -/
theorem leaves_found {needle before : List Char} (h : breakAt? needle cs = some (before, rest)) :
    Leaves (.many (Expr.exactly needle).other) cs (needle ++ rest) := by
  have hover : ∀ rest,
      Leaves (.many (Expr.exactly needle).other) (needle ++ rest) (needle ++ rest) :=
    fun rest => ⟨[], .many_over (other_fails (leaves_exactly needle rest))⟩
  induction cs generalizing before with
  | nil =>
    obtain ⟨rfl, rfl, rfl⟩ : before = [] ∧ needle = [] ∧ rest = [] := by
      simpa using (Text.eq_of_breakAt? h).symm
    exact hover []
  | cons c cs ih =>
    rw [breakAt?] at h
    split at h
    · next hafter =>
      cases h
      rw [Text.after?_eq_some_iff.mp hafter]
      exact hover _
    · next hafter =>
      obtain ⟨⟨before, rest⟩, hbreak, heq⟩ := Option.map_eq_some_iff.mp h
      cases heq
      exact (other_leaves (fails_exactly (Text.after?_eq_none_iff.mp hafter))).many (ih hbreak)

theorem leaves_unfound {needle : List Char} (h : breakAt? needle cs = none) :
    Leaves (.many (Expr.exactly needle).other) cs [] := by
  rw [Text.breakAt?_eq_none_iff] at h
  induction cs with
  | nil => exact ⟨[], .many_over (other_nil (fails_exactly fun hp => h hp.isInfix))⟩
  | cons c cs ih =>
    rw [List.infix_cons_iff, not_or] at h
    exact (other_leaves (fails_exactly h.1)).many (ih h.2)

/-- A comment is read as such, and what does not start with one is not. -/
theorem reads_comment (cs : List Char) : Reads comment cs
    ((comment? cs).map fun (t, rest) => ([⟨.comment, t⟩], rest)) := by
  unfold comment?
  split
  · next cs =>
    have hline := (leaves_exactly ['/', '/'] cs).seq (readsClass_inLine.many cs)
    exact hline.either_first.token (by simp)
  · next cs =>
    have hline : Reads (.exactly ['/', '/']) ('/' :: '*' :: cs) none := fails_exactly (by simp)
    have hstart := leaves_exactly ['/', '*'] cs
    cases hbreak : breakAt? ['*', '/'] cs with
    | some x =>
      obtain ⟨inside, rest⟩ := x
      have hblock := hstart.seq ((leaves_found hbreak).seq (leaves_exactly ['*', '/'] rest))
      refine (hblock.either_second hline.seq_fails).token ?_
      simp [Text.eq_of_breakAt? hbreak]
    | none =>
      have hend : Reads (.exactly ['*', '/']) [] none := fails_exactly (by simp)
      exact (hline.seq_fails.either_second
        (hstart.seq_fails ((leaves_unfound hbreak).seq_fails hend))).token
  · next hline hblock =>
    have hl : ¬ ['/', '/'] <+: cs := fun ⟨rest, hrest⟩ => hline rest hrest.symm
    have hb : ¬ ['/', '*'] <+: cs := fun ⟨rest, hrest⟩ => hblock rest hrest.symm
    exact ((fails_exactly hl).seq_fails.either_second (fails_exactly hb).seq_fails).token

end

/-! ## Gaps -/

/-- A text starts with a token, which is as long as its rule reads it there. -/
inductive Lexes : List Char → Token → List Char → Prop
  | spacing {c} (hc : isSpacing c = true) (rest : List Char) :
      Lexes (c :: rest) ⟨.spacing, [c]⟩ rest
  | comment {cs t rest} (h : comment? cs = some (t, rest)) : Lexes cs ⟨.comment, t⟩ rest
  | identifier {cs} (hne : cs.takeWhile isWordChar ≠ []) :
      Lexes cs ⟨.identifier, cs.takeWhile isWordChar⟩ (cs.dropWhile isWordChar)
  | operator {cs} (hne : cs.takeWhile isOperatorChar ≠ []) :
      Lexes cs ⟨.operator, cs.takeWhile isOperatorChar⟩ (cs.dropWhile isOperatorChar)

inductive Tokenizes : List Char → List Token → List Char → Prop
  | done (cs : List Char) : Tokenizes cs [] cs
  | more {cs t mid tokens rest} (ht : Lexes cs t mid) (h : Tokenizes mid tokens rest) :
      Tokenizes cs (t :: tokens) rest

/-- What stands between two tokens of a rule. -/
def IsGap (tokens : List Token) : Prop := ∀ t ∈ tokens, t.kind = .spacing ∨ t.kind = .comment

def skip : Expr := .seq (.many spacing) (.many (.seq comment (.many spacing)))

section

variable {a b : Expr} {c : Char} {cs mid rest : List Char} {s tokens : List Token} {o : Outcome}

theorem Tokenizes.append {more : List Token} (h : Tokenizes cs tokens mid)
    (hmore : Tokenizes mid more rest) : Tokenizes cs (tokens ++ more) rest := by
  induction h with
  | done => exact hmore
  | more ht _ ih => exact .more ht (ih hmore)

/-- No gap is read where none is. -/
theorem reads_skip_nothing (hspacing : ∀ c ∈ cs.head?, isSpacing c = false)
    (hcomment : comment? cs = none) : Reads skip cs (some ([], cs)) := by
  have hfails := reads_comment cs
  rw [hcomment] at hfails
  exact (Reads.many_over (spacing_fails hspacing)).seq (.many_over (.seq_fails hfails))

theorem reads_skip_rest (cs : List Char) : Reads skip (gap cs).2 (some ([], (gap cs).2)) := by
  cases h : (gap cs).2 with
  | nil => exact reads_skip_nothing (by simp) rfl
  | cons c rest =>
    obtain ⟨hc, hcomment⟩ := Text.of_gap_eq_cons h
    exact reads_skip_nothing (by simpa using hc) hcomment

/-- A gap is read to its end. -/
theorem exists_reads_skip (cs : List Char) : ∃ tokens,
    Reads skip cs (some (tokens, (gap cs).2)) ∧ Tokenizes cs tokens (gap cs).2 ∧ IsGap tokens := by
  fun_induction gap cs with
  | case1 => exact ⟨[], reads_skip_nothing (by simp) rfl, .done [], by simp [IsGap]⟩
  | case2 c rest hc g after e ih =>
    rw [e] at ih
    obtain ⟨tokens, hreads, htokens, hgap⟩ := ih
    obtain ⟨s, mid, t, hspaces, hcomments, rfl⟩ := hreads.of_seq
    exact ⟨⟨.spacing, [c]⟩ :: (s ++ t), ((reads_spacing hc rest).many_more hspaces).seq hcomments,
      .more (.spacing hc rest) htokens, List.forall_mem_cons.mpr ⟨Or.inl rfl, hgap⟩⟩
  | case3 c rest hc t after hcomment g after' e ih =>
    rw [e] at ih
    obtain ⟨tokens, hreads, htokens, hgap⟩ := ih
    obtain ⟨s, mid, more, hspaces, hcomments, rfl⟩ := hreads.of_seq
    have hspacing : Reads spacing (c :: rest) none := spacing_fails (by simpa using hc)
    have hfirst := reads_comment (c :: rest)
    rw [hcomment] at hfirst
    have hblocks := (hfirst.seq hspaces).many_more hcomments
    have hread : Reads skip (c :: rest) _ := (Reads.many_over hspacing).seq hblocks
    exact ⟨⟨.comment, t⟩ :: (s ++ more), by simpa [Outcome.behind] using hread,
      .more (.comment hcomment) htokens, List.forall_mem_cons.mpr ⟨Or.inr rfl, hgap⟩⟩
  | case4 c rest hc hcomment =>
    exact ⟨[], reads_skip_nothing (by simpa using hc) hcomment, .done _, by simp [IsGap]⟩

end

/-! ## Rules with gaps between their parts -/

/-- Any number of times, with gaps between. -/
def Expr.spacedMany (a : Expr) : Expr := .either (.seq a (.many (.seq skip a))) .nothing

def closing : Expr := .seq skip .ends

section

variable {a b : Expr} {cs mid rest : List Char} {s tokens : List Token} {o : Outcome}

theorem reads_ends_nil : Reads .ends [] (some ([], [])) := Reads.ends []

theorem ends_fails (h : cs ≠ []) : Reads .ends cs none := by
  have := Reads.ends cs
  rwa [if_neg h] at this

theorem reads_closing (h : Reads skip cs (some (tokens, []))) :
    Reads closing cs (some (tokens, [])) := by
  have hread : Reads closing cs (some (tokens ++ [], [])) := h.seq reads_ends_nil
  rwa [List.append_nil] at hread

/-- Nothing is left where the end of the text is asked for. -/
theorem Reads.rest_closing (h : Reads closing cs (some (tokens, rest))) : rest = [] := by
  obtain ⟨s, mid, t, -, hends, -⟩ := h.of_seq
  have hends := hends.unique (.ends mid)
  split at hends
  · cases hends
    rfl
  · cases hends

theorem Reads.seq_mono {b' : Expr} (hb : ∀ cs o, Reads b cs o → Reads b' cs o)
    (h : Reads (.seq a b) cs o) : Reads (.seq a b') cs o := by
  cases h with
  | seq_fails ha => exact .seq_fails ha
  | seq ha hb' => exact ha.seq (hb _ _ hb')

theorem Reads.more (ha : Reads a cs (some (s, mid))) (h : Reads (.seq (.many a) b) mid o) :
    Reads (.seq (.many a) b) cs (o.behind s) := by
  cases h with
  | seq_fails hmany => cases hmany
  | seq hmany hb =>
    rw [Outcome.behind_behind]
    exact (ha.many_more hmany).seq hb

/-- It makes no difference whether the gaps are taken to stand in front of what is repeated or
between. -/
theorem Reads.spaced (h : Reads (.seq (.many (.seq skip a)) closing) cs o) :
    Reads (.seq skip (.seq a.spacedMany closing)) cs o := by
  obtain ⟨gapTokens, hskip, -, -⟩ := exists_reads_skip cs
  cases h with
  | seq_fails hmany => cases hmany
  | seq hmany hclosing =>
    cases hmany with
    | many_over hfails =>
      obtain ⟨o', ha, ho'⟩ := hfails.second hskip
      obtain rfl : o' = none := Option.map_eq_none_iff.mp ho'.symm
      obtain ⟨o, hends, rfl⟩ := hclosing.second hskip
      have hnone : Reads a.spacedMany (gap cs).2 (some ([], (gap cs).2)) :=
        (Reads.seq_fails ha).either_second (.nothing _)
      have hclosed : Reads closing (gap cs).2 _ := (reads_skip_rest cs).seq hends
      simpa using hskip.seq (hnone.seq hclosed)
    | many_more hfirst hmany =>
      obtain ⟨o', ha, ho'⟩ := hfirst.second hskip
      obtain ⟨⟨t, mid⟩, rfl, heq⟩ := Option.map_eq_some_iff.mp ho'.symm
      cases heq
      have hsome : Reads a.spacedMany (gap cs).2 _ := (ha.seq hmany).either_first
      simpa using hskip.seq (hsome.seq hclosing)

end

end ShaderGraph.Grammar
