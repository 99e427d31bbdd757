/-
  ShaderGraph.Proofs.Formula — what a condition text says.

  A condition is a Boolean text over tests `defined(X)` with `!`, `&&`, `||` and
  parentheses; `!` binds closest and `||` loosest, and spaces or tabs may stand between
  two of these. `Formula.read?` walks over such a text once with a `Cursor`: the level of
  parentheses it is in, with what stands before the operand to come, and the levels
  around. A text of any other form is no formula.

  Proved:
  - `read?_text`: every formula is read back from its text, written with no parentheses
    but those its operators need.
  - `read?_wrapped`, `read?_joined_or`, `read?_joined_and`, `read?_widened`: a text that is
    put together from the texts of formulas reads as their disjunction or conjunction,
    whatever operators those have.
  - `exists_read?_of_widened`: and is taken apart again where its last term is a formula.
-/

import ShaderGraph.Condition.Basic

namespace ShaderGraph.Condition

open Text (isSpacing isWordChar)

inductive Formula where
  /-- The define is set. -/
  | test (define : String)
  | not (f : Formula)
  | and (f g : Formula)
  | or (f g : Formula)
  deriving DecidableEq, Repr

namespace Formula

def eval (defines : String → Bool) : Formula → Bool
  | test define => defines define
  | not f => !f.eval defines
  | and f g => f.eval defines && g.eval defines
  | or f g => f.eval defines || g.eval defines

def negate : Nat → Formula → Formula
  | 0, f => f
  | n + 1, f => negate n (not f)

def conjoin : Option Formula → Formula → Formula
  | none, f => f
  | some g, f => and g f

def disjoin : Option Formula → Formula → Formula
  | none, f => f
  | some g, f => or g f

/-- What stands before an operand at its level of parentheses. -/
structure Level where
  terms : Option Formula := none
  factors : Option Formula := none
  /-- The `!` right before the operand. -/
  nots : Nat := 0
  deriving DecidableEq

def Level.term (l : Level) (f : Formula) : Formula := conjoin l.factors (negate l.nots f)

/-- How far a text is read; `outer` are the levels around, innermost first. -/
inductive Cursor where
  /-- An operand comes next. -/
  | operand (level : Level) (outer : List Level)
  /-- Inside of `defined(`, of which `rest` is still to come. -/
  | keyword (rest : List Char) (level : Level) (outer : List Level)
  /-- Inside of the name that is tested. -/
  | name (read : List Char) (level : Level) (outer : List Level)
  /-- After an operand. -/
  | operator (terms : Option Formula) (term : Formula) (outer : List Level)
  /-- Inside of `&&` or `||`. -/
  | second (sign : Char) (terms : Option Formula) (term : Formula) (outer : List Level)
  deriving DecidableEq

namespace Cursor

def start : Cursor := .operand {} []

/-- One character: `none` where it cannot continue the text. -/
def step : Cursor → Char → Option Cursor
  | .operand level outer, c =>
    if c == '(' then some (.operand {} (level :: outer))
    else if c == '!' then some (.operand { level with nots := level.nots + 1 } outer)
    else if c == 'd' then some (.keyword "efined(".toList level outer)
    else if isSpacing c then some (.operand level outer)
    else none
  | .keyword [] _ _, _ => none
  | .keyword (k :: rest) level outer, c =>
    if c == k then some (if rest.isEmpty then .name [] level outer else .keyword rest level outer)
    else none
  | .name read level outer, c =>
    if isWordChar c then some (.name (read ++ [c]) level outer)
    else if c == ')' && !read.isEmpty then
      some (.operator level.terms (level.term (.test (.ofList read))) outer)
    else none
  | .operator terms term outer, c =>
    if c == ')' then match outer with
      | level :: outer => some (.operator level.terms (level.term (disjoin terms term)) outer)
      | [] => none
    else if c == '&' || c == '|' then some (.second c terms term outer)
    else if isSpacing c then some (.operator terms term outer)
    else none
  | .second sign terms term outer, c =>
    if c ≠ sign then none
    else if sign == '&' then some (.operand { terms, factors := some term } outer)
    else some (.operand { terms := some (disjoin terms term) } outer)

def run (s : Cursor) (cs : List Char) : Option Cursor := cs.foldlM step s

def formula? : Cursor → Option Formula
  | .operator terms term [] => some (disjoin terms term)
  | _ => none

end Cursor

def read? (text : String) : Option Formula := (Cursor.start.run text.toList).bind Cursor.formula?

/-! ## Reading on inside of parentheses -/

namespace Cursor

@[simp] theorem run_nil (s : Cursor) : s.run [] = some s := rfl

@[simp] theorem run_cons (s : Cursor) (c : Char) (cs : List Char) :
    s.run (c :: cs) = (s.step c).bind (·.run cs) := rfl

theorem run_append (s : Cursor) (a b : List Char) : s.run (a ++ b) = (s.run a).bind (·.run b) :=
  List.foldlM_append

/-- The cursor inside of more levels. -/
def under (base : List Level) : Cursor → Cursor
  | .operand level outer => .operand level (outer ++ base)
  | .keyword rest level outer => .keyword rest level (outer ++ base)
  | .name read level outer => .name read level (outer ++ base)
  | .operator terms term outer => .operator terms term (outer ++ base)
  | .second sign terms term outer => .second sign terms term (outer ++ base)

theorem step_under {s s' : Cursor} {c : Char} (h : s.step c = some s') (base : List Level) :
    (s.under base).step c = some (s'.under base) := by
  cases s with
  | operand level outer =>
    simp only [step, under] at h ⊢
    repeat' split at h
    all_goals simp_all
    all_goals subst h; rfl
  | keyword rest level outer =>
    cases rest with
    | nil => simp [step] at h
    | cons k rest =>
      simp only [step, under] at h ⊢
      split at h
      · next hk =>
        rw [if_pos hk]
        cases h
        split <;> rfl
      · cases h
  | name read level outer =>
    simp only [step, under] at h ⊢
    repeat' split at h
    all_goals simp_all
    all_goals subst h; rfl
  | operator terms term outer =>
    cases outer with
    | nil =>
      simp only [step] at h
      repeat' split at h
      all_goals simp_all [step, under]
      all_goals subst h; rfl
    | cons level outer =>
      simp only [step] at h
      repeat' split at h
      all_goals simp_all [step, under]
      all_goals subst h; rfl
  | second sign terms term outer =>
    simp only [step, under] at h ⊢
    repeat' split at h
    all_goals simp_all
    all_goals subst h; rfl

theorem run_under {s s' : Cursor} {cs : List Char} (h : s.run cs = some s') (base : List Level) :
    (s.under base).run cs = some (s'.under base) := by
  induction cs generalizing s with
  | nil => cases h; rfl
  | cons c cs ih =>
    obtain ⟨t, ht, hr⟩ := Option.bind_eq_some_iff.1 h
    rw [run_cons, step_under ht base]
    exact ih hr

end Cursor

/-- A text that is a formula takes a fresh level to its end, wherever the level is. -/
theorem exists_run_of_read? {text : String} {f : Formula} (h : read? text = some f) :
    ∃ terms term, disjoin terms term = f ∧ ∀ outer,
      (Cursor.operand {} outer).run text.toList = some (.operator terms term outer) := by
  obtain ⟨s, hs, hf⟩ := Option.bind_eq_some_iff.1 h
  cases s with
  | operator terms term outer =>
    cases outer with
    | nil =>
      refine ⟨terms, term, Option.some.inj hf, fun outer => ?_⟩
      simpa [Cursor.under, Cursor.start] using Cursor.run_under hs outer
    | cons level outer => cases hf
  | _ => cases hf

/-- In parentheses, what is read as a term is read as an operand. -/
theorem run_inParentheses {cs : List Char} {f : Formula}
    (h : ∀ outer, ∃ terms term, disjoin terms term = f ∧
      (Cursor.operand {} outer).run cs = some (.operator terms term outer))
    (level : Level) (outer : List Level) :
    (Cursor.operand level outer).run ('(' :: (cs ++ [')'])) =
      some (.operator level.terms (level.term f) outer) := by
  obtain ⟨terms, term, rfl, hr⟩ := h (level :: outer)
  show (Cursor.operand {} (level :: outer)).run (cs ++ [')']) = _
  rw [Cursor.run_append, hr]
  rfl

/-- A formula in parentheses is an operand. -/
theorem run_parenthesized {text : String} {f : Formula} (h : read? text = some f) (level : Level)
    (outer : List Level) :
    (Cursor.operand level outer).run ('(' :: (text.toList ++ [')'])) =
      some (.operator level.terms (level.term f) outer) := by
  obtain ⟨terms, term, hf, hr⟩ := exists_run_of_read? h
  exact run_inParentheses (fun outer => ⟨terms, term, hf, hr outer⟩) level outer

/-! ## Texts put together -/

theorem run_bars (terms : Option Formula) (term : Formula) (outer : List Level) :
    (Cursor.operator terms term outer).run " || ".toList =
      some (.operand { terms := some (disjoin terms term) } outer) := rfl

theorem run_ampersands (terms : Option Formula) (term : Formula) (outer : List Level) :
    (Cursor.operator terms term outer).run " && ".toList =
      some (.operand { terms, factors := some term } outer) := rfl

theorem toList_parenthesized (c : String) : s!"({c})".toList = '(' :: (c.toList ++ [')']) := by
  simp [toString]

theorem read?_wrapped {c : String} {f : Formula} (h : read? c = some f) :
    read? s!"({c})" = some f := by
  rw [read?, toList_parenthesized, Cursor.start, run_parenthesized h]
  rfl

theorem read?_joined_or {c d : String} {f g : Formula} (hc : read? c = some f)
    (hd : read? d = some g) : read? s!"({c}) || ({d})" = some (or f g) := by
  have ht : s!"({c}) || ({d})".toList =
      '(' :: (c.toList ++ [')']) ++ (" || ".toList ++ '(' :: (d.toList ++ [')'])) := by
    simp [toString]
  rw [read?, ht, Cursor.start, Cursor.run_append, run_parenthesized hc, Option.bind_some,
    Cursor.run_append, run_bars, Option.bind_some, run_parenthesized hd]
  rfl

theorem read?_joined_and {c d : String} {f g : Formula} (hc : read? c = some f)
    (hd : read? d = some g) : read? s!"({c}) && ({d})" = some (and f g) := by
  have ht : s!"({c}) && ({d})".toList =
      '(' :: (c.toList ++ [')']) ++ (" && ".toList ++ '(' :: (d.toList ++ [')'])) := by
    simp [toString]
  rw [read?, ht, Cursor.start, Cursor.run_append, run_parenthesized hc, Option.bind_some,
    Cursor.run_append, run_ampersands, Option.bind_some, run_parenthesized hd]
  rfl

/-- `||` binds loosest, so what stands before it needs no parentheses. -/
theorem read?_widened {c d : String} {f g : Formula} (hc : read? c = some f)
    (hd : read? d = some g) : read? s!"{c} || ({d})" = some (or f g) := by
  obtain ⟨terms, term, rfl, hr⟩ := exists_run_of_read? hc
  have ht : s!"{c} || ({d})".toList =
      c.toList ++ (" || ".toList ++ '(' :: (d.toList ++ [')'])) := by
    simp [toString]
  rw [read?, ht, Cursor.start, Cursor.run_append, hr, Option.bind_some, Cursor.run_append, run_bars,
    Option.bind_some, run_parenthesized hd]
  rfl

/-! ## Texts taken apart -/

namespace Cursor

/-- What is still to come of `defined(` is an end of it, and the sign to come is `&` or `|`. -/
def Spelled : Cursor → Prop
  | keyword rest _ _ => rest <:+ "efined(".toList
  | second sign _ _ _ => sign = '&' ∨ sign = '|'
  | _ => True

theorem spelled_step {s s' : Cursor} {c : Char} (hs : s.Spelled) (h : s.step c = some s') :
    s'.Spelled := by
  cases s with
  | keyword rest level outer =>
    cases rest with
    | nil => cases h
    | cons k rest =>
      have hrest : rest <:+ "efined(".toList := (List.suffix_cons k rest).trans hs
      simp only [step] at h
      split at h
      · cases h
        split
        · trivial
        · exact hrest
      · cases h
  | operand level outer =>
    simp only [step] at h
    repeat' split at h
    all_goals cases h
    all_goals first | trivial | exact List.suffix_refl _
  | operator terms term outer =>
    simp only [step] at h
    split at h
    · split at h
      · cases h
        trivial
      · cases h
    · split at h
      · next hsign =>
        cases h
        simpa [Spelled] using hsign
      · split at h
        · cases h
          trivial
        · cases h
  | _ =>
    simp only [step] at h
    repeat' split at h
    all_goals cases h
    all_goals trivial

theorem spelled_run {s s' : Cursor} {cs : List Char} (hs : s.Spelled) (h : s.run cs = some s') :
    s'.Spelled := by
  induction cs generalizing s with
  | nil =>
    cases h
    exact hs
  | cons c cs ih =>
    obtain ⟨t, ht, h⟩ := Option.bind_eq_some_iff.mp h
    exact ih (spelled_step hs ht) h

/-- Only after an operand a text goes on with `||`. -/
theorem operator_of_run_bars {s s' : Cursor} (hs : s.Spelled) (h : s.run " || ".toList = some s') :
    ∃ terms term outer, s = .operator terms term outer ∧
      s' = .operand { terms := some (disjoin terms term) } outer := by
  -- of all other cursors, none takes a space and then a bar
  cases s with
  | operator terms term outer =>
    rw [run_bars] at h
    cases h
    exact ⟨terms, term, outer, rfl, rfl⟩
  | operand level outer =>
    have hr : (operand level outer).run " || ".toList = none := rfl
    rw [hr] at h
    cases h
  | keyword rest level outer =>
    cases rest with
    | nil => cases h
    | cons k rest =>
      have hk : ¬ (' ' == k) = true := by
        intro hk
        rw [← beq_iff_eq.mp hk] at hs
        exact absurd (hs.subset List.mem_cons_self) (by decide)
      have hr : (keyword (k :: rest) level outer).run " || ".toList = none := by
        show ((keyword (k :: rest) level outer).step ' ').bind _ = none
        rw [step, if_neg hk]
        rfl
      rw [hr] at h
      cases h
  | name read level outer =>
    have hr : (name read level outer).run " || ".toList = none := rfl
    rw [hr] at h
    cases h
  | second sign terms term outer =>
    have hr : (second sign terms term outer).run " || ".toList = none := by
      show ((second sign terms term outer).step ' ').bind _ = none
      simp only [step]
      split
      · rfl
      · split <;> rfl
    rw [hr] at h
    cases h

end Cursor

/-- What stands before a last term in parentheses is a formula itself. -/
theorem exists_read?_of_widened {c d : String} {f g : Formula}
    (h : read? s!"{c} || ({d})" = some f) (hd : read? d = some g) :
    ∃ e, read? c = some e ∧ f = or e g := by
  have ht : s!"{c} || ({d})".toList =
      c.toList ++ (" || ".toList ++ '(' :: (d.toList ++ [')'])) := by
    simp [toString]
  obtain ⟨s, hs, hf⟩ := Option.bind_eq_some_iff.mp h
  rw [ht, Cursor.run_append] at hs
  obtain ⟨s₁, h₁, hs⟩ := Option.bind_eq_some_iff.mp hs
  rw [Cursor.run_append] at hs
  obtain ⟨s₂, h₂, hs⟩ := Option.bind_eq_some_iff.mp hs
  have hstart : Cursor.start.Spelled := trivial
  obtain ⟨terms, term, outer, rfl, rfl⟩ :=
    Cursor.operator_of_run_bars (Cursor.spelled_run hstart h₁) h₂
  rw [run_parenthesized hd] at hs
  cases hs
  cases outer with
  | cons level outer => cases hf
  | nil =>
    refine ⟨disjoin terms term, ?_, (Option.some.inj hf).symm⟩
    rw [read?, h₁]
    rfl

/-! ## Formulas as texts -/

def Named : Formula → Prop
  | test define => define ≠ "" ∧ ∀ c ∈ define.toList, isWordChar c = true
  | not f => f.Named
  | and f g => f.Named ∧ g.Named
  | or f g => f.Named ∧ g.Named

def parenthesize (needed : Bool) (cs : List Char) : List Char :=
  if needed then '(' :: (cs ++ [')']) else cs

/-- The text of a formula among the terms of a disjunction (0), the factors of a conjunction (1)
or as an operand (2). -/
def textAt (place : Nat) : Formula → List Char
  | test define => "defined(".toList ++ (define.toList ++ [')'])
  | not f => '!' :: f.textAt 2
  | and f g => parenthesize (1 < place) (f.textAt 1 ++ (" && ".toList ++ g.textAt 2))
  | or f g => parenthesize (0 < place) (f.textAt 0 ++ (" || ".toList ++ g.textAt 1))

def text (f : Formula) : String := .ofList (f.textAt 0)

/-- What reading a formula's text leads to, at each of its places. -/
structure Written (f : Formula) : Prop where
  term : ∀ outer, ∃ terms term, disjoin terms term = f ∧
    (Cursor.operand {} outer).run (f.textAt 0) = some (.operator terms term outer)
  factor : ∀ terms outer, (Cursor.operand { terms } outer).run (f.textAt 1) =
    some (.operator terms f outer)
  operand : ∀ level outer, (Cursor.operand level outer).run (f.textAt 2) =
    some (.operator level.terms (level.term f) outer)

theorem run_name {cs : List Char} (h : ∀ c ∈ cs, isWordChar c = true) (read : List Char)
    (level : Level) (outer : List Level) :
    (Cursor.name read level outer).run cs = some (.name (read ++ cs) level outer) := by
  induction cs generalizing read with
  | nil => simp
  | cons c cs ih =>
    have hc : (Cursor.name read level outer).step c = some (.name (read ++ [c]) level outer) := by
      rw [Cursor.step, if_pos (h c (by simp))]
    rw [Cursor.run_cons, hc, Option.bind_some, ih (fun d hd => h d (by simp [hd]))]
    simp

theorem run_test {define : String} (h : (test define).Named) (level : Level) (outer : List Level) :
    (Cursor.operand level outer).run ("defined(".toList ++ (define.toList ++ [')'])) =
      some (.operator level.terms (level.term (test define)) outer) := by
  have hk : (Cursor.operand level outer).run "defined(".toList = some (.name [] level outer) := rfl
  have hne : define.toList ≠ [] := by simpa using h.1
  have hs : (Cursor.name define.toList level outer).step ')' =
      some (.operator level.terms (level.term (test define)) outer) := by
    simp [Cursor.step, hne, show isWordChar ')' = false from rfl]
  rw [Cursor.run_append, hk, Option.bind_some, Cursor.run_append, run_name h.2, List.nil_append,
    Option.bind_some, Cursor.run_cons, hs]
  rfl

theorem written {f : Formula} (h : f.Named) : Written f := by
  induction f with
  | test define =>
    exact ⟨fun outer => ⟨none, test define, rfl, run_test h {} outer⟩,
      fun terms outer => run_test h { terms } outer, run_test h⟩
  | not f ih =>
    have operand : ∀ level outer, (Cursor.operand level outer).run ('!' :: f.textAt 2) =
        some (.operator level.terms (level.term (not f)) outer) := by
      intro level outer
      show (Cursor.operand { level with nots := level.nots + 1 } outer).run (f.textAt 2) = _
      rw [(ih h).operand]
      rfl
    exact ⟨fun outer => ⟨none, not f, rfl, operand {} outer⟩,
      fun terms outer => operand { terms } outer, operand⟩
  | and f g ihf ihg =>
    have factor : ∀ terms outer,
        (Cursor.operand { terms } outer).run (f.textAt 1 ++ (" && ".toList ++ g.textAt 2)) =
          some (.operator terms (and f g) outer) := by
      intro terms outer
      rw [Cursor.run_append, (ihf h.1).factor, Option.bind_some, Cursor.run_append, run_ampersands,
        Option.bind_some, (ihg h.2).operand]
      rfl
    have term : ∀ outer, ∃ terms term, disjoin terms term = and f g ∧
        (Cursor.operand {} outer).run (f.textAt 1 ++ (" && ".toList ++ g.textAt 2)) =
          some (.operator terms term outer) :=
      fun outer => ⟨none, and f g, rfl, factor none outer⟩
    exact ⟨term, factor, run_inParentheses term⟩
  | or f g ihf ihg =>
    have term : ∀ outer, ∃ terms term, disjoin terms term = or f g ∧
        (Cursor.operand {} outer).run (f.textAt 0 ++ (" || ".toList ++ g.textAt 1)) =
          some (.operator terms term outer) := by
      intro outer
      obtain ⟨terms, term, rfl, hr⟩ := (ihf h.1).term outer
      refine ⟨some (disjoin terms term), g, rfl, ?_⟩
      rw [Cursor.run_append, hr, Option.bind_some, Cursor.run_append, run_bars, Option.bind_some,
        (ihg h.2).factor]
    exact ⟨term, fun terms outer => run_inParentheses term { terms } outer, run_inParentheses term⟩

/-- Every formula is read back from its text. -/
theorem read?_text {f : Formula} (h : f.Named) : read? f.text = some f := by
  obtain ⟨terms, term, rfl, hr⟩ := (written h).term []
  rw [read?, text, String.toList_ofList, Cursor.start, hr]
  rfl

example : read? "defined(A) || !defined(B) && (defined(C) || defined(A))" =
    some (or (test "A") (and (not (test "B")) (or (test "C") (test "A")))) := by decide

end Formula

end ShaderGraph.Condition
