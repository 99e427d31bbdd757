/-
  ShaderGraph.Proofs.Scanning — the block reader strand by strand.

  The reader takes tokens, and where a token ends depends on the text behind it. A `Scan` is
  the reader together with the line it is in the middle of: it takes one strand at a time and
  never looks ahead, so what it makes of a text is what it makes of the parts, one after the
  other.

  - `Fed`: all that one strand can do to a scan, and nothing else (`fed_of_feed`, `feed_of_fed`).
  - `read_eq_ok_iff`: a text is read exactly if its strands can be taken, one after the other,
    and leave no block open.
-/

import ShaderGraph.Block.Statement
import ShaderGraph.Proofs.Strands

namespace ShaderGraph.Block

open Text (isSpacing endsLine comment? gap)

namespace Reader

def addLine (r : Reader) (number : Nat) (run : List Char) : Reader :=
  ⟨r.settled, some ⟨number, .ofList (Text.trim run)⟩, r.outer⟩

theorem step_newline (r : Reader) (p : Position) : r.step ⟨.newline, p⟩ = some r := rfl

theorem step_semicolon (r : Reader) (p : Position) :
    r.step ⟨.semicolon, p⟩ = some ⟨r.settled, none, r.outer⟩ := rfl

theorem step_openBrace (r r' : Reader) (p : Position) :
    r.step ⟨.openBrace, p⟩ = some r' ↔
      ∃ owner, r.pending = some owner ∧ r' = ⟨[], none, ⟨owner, r.done⟩ :: r.outer⟩ := by
  obtain ⟨done, pending, outer⟩ := r
  cases pending with
  | none => simp [step]
  | some owner => simp [step, eq_comm]

theorem step_closeBrace (r r' : Reader) (p : Position) :
    r.step ⟨.closeBrace, p⟩ = some r' ↔
      ∃ frame outer, r.outer = frame :: outer ∧
        r' = ⟨⟨frame.owner, r.settled.reverse⟩ :: frame.before, none, outer⟩ := by
  obtain ⟨done, pending, outer⟩ := r
  cases outer with
  | nil => simp [step]
  | cons frame outer =>
    simp only [step, Option.some.injEq, List.cons.injEq]
    constructor
    · rintro rfl
      exact ⟨frame, outer, ⟨rfl, rfl⟩, rfl⟩
    · rintro ⟨_, _, ⟨rfl, rfl⟩, rfl⟩
      rfl

theorem step_finish (r r' : Reader) (p : Position) :
    r.step ⟨.finish, p⟩ = some r' ↔ r.outer = [] ∧ r' = r := by
  obtain ⟨done, pending, outer⟩ := r
  cases outer with
  | nil => simp [step, eq_comm]
  | cons frame outer => simp [step]

/-- Only of a line the place counts. -/
theorem step_congr (r : Reader) {token : Token} (h : ∀ text, token ≠ .line text)
    (p q : Position) : r.step ⟨token, p⟩ = r.step ⟨token, q⟩ := by
  cases token with
  | line text => exact absurd rfl (h text)
  | openBrace => exact Option.ext fun r' => by rw [step_openBrace, step_openBrace]
  | closeBrace => exact Option.ext fun r' => by rw [step_closeBrace, step_closeBrace]
  | finish => exact Option.ext fun r' => by rw [step_finish, step_finish]
  | _ => rfl

end Reader

/-- The marks there are. -/
theorem mark?_cases (c : Char) :
    (c = '\x7b' ∧ mark? c = some .openBrace) ∨ (c = '\x7d' ∧ mark? c = some .closeBrace) ∨
      (c = ';' ∧ mark? c = some .semicolon) ∨ (endsLine c = true ∧ mark? c = some .newline) ∨
      mark? c = none := by
  unfold mark?
  split
  · next h => exact .inl ⟨by simpa using h, rfl⟩
  · split
    · next h => exact .inr (.inl ⟨by simpa using h, rfl⟩)
    · split
      · next h => exact .inr (.inr (.inl ⟨by simpa using h, rfl⟩))
      · split
        · next h => exact .inr (.inr (.inr (.inl ⟨h, rfl⟩)))
        · exact .inr (.inr (.inr (.inr rfl)))

theorem ne_line_of_mark? {c : Char} {token : Token} (h : mark? c = some token)
    (text : List Char) : token ≠ .line text := by
  rcases mark?_cases c with ⟨-, hm⟩ | ⟨-, hm⟩ | ⟨-, hm⟩ | ⟨-, hm⟩ | hm <;>
    (rw [hm] at h; cases h)
  all_goals exact fun h => nomatch h

theorem mark?_of_endsLine {c : Char} (h : endsLine c = true) : mark? c = some .newline := by
  rcases (by simpa [endsLine] using h : c = '\n' ∨ c = '\r') with rfl | rfl <;> rfl

/-- A reader in the middle of a text. -/
structure Scan where
  reader : Reader
  /-- The line that is being read: where it starts, and its characters so far. -/
  line : Option (Nat × List Char)
  /-- The number of the line that is reached. -/
  number : Nat

namespace Scan

def start : Scan := ⟨.start, none, 1⟩

def ended (s : Scan) : Reader :=
  match s.line with
  | some (number, run) => s.reader.addLine number run
  | none => s.reader

@[simp] theorem ended_none (r : Reader) (n : Nat) : ended ⟨r, none, n⟩ = r := rfl

@[simp] theorem ended_some (r : Reader) (m n : Nat) (run : List Char) :
    ended ⟨r, some (m, run), n⟩ = r.addLine m run := rfl

def extended (s : Scan) (c : Char) : Option (Nat × List Char) :=
  match s.line with
  | some (number, run) => some (number, run ++ [c])
  | none => if isSpacing c then none else some (s.number, [c])

/-- One strand: `none` where it cannot continue the text. -/
def feed (s : Scan) : Strand → Option Scan
  | .char c => match mark? c with
    | some token =>
      (s.ended.step ⟨token, .first⟩).map fun r => ⟨r, none, s.number + [c].count '\n'⟩
    | none => some { s with line := s.extended c }
  | .comment t => some ⟨s.ended, none, s.number + t.count '\n'⟩
  | .unclosed _ => none

def finish (s : Scan) : Option Reader := s.ended.step ⟨.finish, .first⟩

end Scan

def Scan.through (s : Scan) (xs : List Strand) : Option Scan := xs.foldlM feed s

/-! ## What a strand can do -/

namespace Scan

theorem feed_mark {c : Char} {token : Token} (h : mark? c = some token) (s : Scan) (p : Position) :
    s.feed (.char c) =
      (s.ended.step ⟨token, p⟩).map fun r => ⟨r, none, s.number + [c].count '\n'⟩ := by
  rw [feed, h, s.ended.step_congr (ne_line_of_mark? h) p .first]

theorem finish_eq (s : Scan) (p : Position) : s.finish = s.ended.step ⟨.finish, p⟩ := by
  have hne : ∀ text, Token.finish ≠ .line text := fun _ h => nomatch h
  exact s.ended.step_congr hne _ _

inductive Fed (s : Scan) : Strand → Scan → Prop
  | skipped {c : Char} : mark? c = none → s.line = none → isSpacing c = true → Fed s (.char c) s
  | started {c : Char} : mark? c = none → s.line = none → isSpacing c = false →
      Fed s (.char c) { s with line := some (s.number, [c]) }
  | extended {c : Char} {number : Nat} {run : List Char} : mark? c = none →
      s.line = some (number, run) → Fed s (.char c) { s with line := some (number, run ++ [c]) }
  | commented {t : List Char} : Fed s (.comment t) ⟨s.ended, none, s.number + t.count '\n'⟩
  | lineEnd {c : Char} : endsLine c = true →
      Fed s (.char c) ⟨s.ended, none, s.number + [c].count '\n'⟩
  | semicolon : Fed s (.char ';') ⟨⟨s.ended.settled, none, s.ended.outer⟩, none, s.number⟩
  | opened {owner : Location} : s.ended.pending = some owner →
      Fed s (.char '\x7b')
        ⟨⟨[], none, ⟨owner, s.ended.done⟩ :: s.ended.outer⟩, none, s.number⟩
  | closed {frame : Frame} {outer : List Frame} : s.ended.outer = frame :: outer →
      Fed s (.char '\x7d')
        ⟨⟨⟨frame.owner, s.ended.settled.reverse⟩ :: frame.before, none, outer⟩, none, s.number⟩

theorem fed_of_feed {s s' : Scan} {x : Strand} (h : s.feed x = some s') : s.Fed x s' := by
  cases x with
  | char c =>
    rcases mark?_cases c with ⟨rfl, hm⟩ | ⟨rfl, hm⟩ | ⟨rfl, hm⟩ | ⟨hc, hm⟩ | hm
    · simp only [feed, hm, Option.map_eq_some_iff, Reader.step_openBrace] at h
      obtain ⟨r, ⟨owner, howner, rfl⟩, rfl⟩ := h
      exact .opened howner
    · simp only [feed, hm, Option.map_eq_some_iff, Reader.step_closeBrace] at h
      obtain ⟨r, ⟨frame, outer, houter, rfl⟩, rfl⟩ := h
      exact .closed houter
    · simp only [feed, hm, Reader.step_semicolon, Option.map_some] at h
      cases h
      exact .semicolon
    · simp only [feed, hm, Reader.step_newline, Option.map_some] at h
      cases h
      exact .lineEnd hc
    · simp only [feed, hm] at h
      cases h
      unfold Scan.extended
      split
      · next hline => exact .extended hm hline
      · next hline =>
        split
        · next hc =>
          have hs : { s with line := none } = s := by rw [← hline]
          rw [hs]
          exact .skipped hm hline hc
        · next hc => exact .started hm hline (by simpa using hc)
  | comment t =>
    cases h
    exact .commented
  | unclosed t => cases h

theorem feed_of_fed {s s' : Scan} {x : Strand} (h : s.Fed x s') : s.feed x = some s' := by
  cases h with
  | @skipped c hm hline hc =>
    obtain ⟨reader, line, number⟩ := s
    simp_all [feed, Scan.extended]
  | started hm hline hc => simp [feed, hm, Scan.extended, hline, hc]
  | extended hm hline => simp [feed, hm, Scan.extended, hline]
  | commented => rfl
  | lineEnd hc => simp [feed, mark?_of_endsLine hc, Reader.step_newline]
  | semicolon => rfl
  | opened howner =>
    have hstep := (Reader.step_openBrace s.ended _ .first).mpr ⟨_, howner, rfl⟩
    exact congrArg (Option.map _) hstep
  | closed houter =>
    have hstep := (Reader.step_closeBrace s.ended _ .first).mpr ⟨_, _, houter, rfl⟩
    exact congrArg (Option.map _) hstep

theorem Fed.number {s s' : Scan} {x : Strand} (h : s.Fed x s') :
    s'.number = s.number + x.text.count '\n' := by
  have hne : ∀ {c : Char}, mark? c = none → [c].count '\n' = 0 := by
    intro c hc
    refine List.count_eq_zero.mpr fun h => ?_
    rw [← List.mem_singleton.mp h] at hc
    cases hc
  cases h with
  | skipped hm _ _ => rw [Strand.text, hne hm, Nat.add_zero]
  | started hm _ _ => rw [Strand.text, hne hm, Nat.add_zero]
  | extended hm _ => rw [Strand.text, hne hm, Nat.add_zero]
  | _ => rfl

end Scan

/-! ## Tokens and strands -/

section

variable {s s' : Scan} {r : Reader} {c : Char} {cs rest : List Char} {x : Strand}
  {xs ys : List Strand}

@[simp] theorem through_nil : s.through [] = some s := rfl

@[simp] theorem through_cons : s.through (x :: xs) = (s.feed x).bind (·.through xs) := rfl

theorem through_append : s.through (xs ++ ys) = (s.through xs).bind (·.through ys) :=
  List.foldlM_append

/-- Only line feeds are counted. -/
theorem number_of_through (h : s.through xs = some s') :
    s'.number = s.number + (spell xs).count '\n' := by
  induction xs generalizing s with
  | nil => cases h; rfl
  | cons x xs ih =>
    obtain ⟨s₁, hs₁, h⟩ := Option.bind_eq_some_iff.mp h
    rw [ih h, (Scan.fed_of_feed hs₁).number, spell_cons, List.count_append, Nat.add_assoc]

theorem stopsLine_eq (c : Char) (after : List Char) :
    stopsLine c after = ((mark? c).isSome || opensComment c after) := by
  unfold stopsLine mark? opensComment
  split
  · simp_all
  · split
    · simp_all
    · split
      · simp_all
      · split <;> simp_all

theorem not_opensComment_of_isSpacing (h : isSpacing c = true) : opensComment c cs = false := by
  rcases (by simpa [isSpacing] using h : c = ' ' ∨ c = '\t') with rfl | rfl <;> rfl

theorem mark?_of_isSpacing (h : isSpacing c = true) : mark? c = none := by
  rcases (by simpa [isSpacing] using h : c = ' ' ∨ c = '\t') with rfl | rfl <;> rfl

theorem not_opensComment_of_mark? {token : Token} (h : mark? c = some token) :
    opensComment c cs = false := by
  unfold opensComment
  rw [Bool.and_eq_false_iff]
  refine Or.inl (beq_eq_false_iff_ne.mpr ?_)
  rintro rfl
  cases h

theorem past_line (p : Position) (cs : List Char) :
    (p.past cs).line = p.line + cs.count '\n' := by
  induction cs generalizing p with
  | nil => rfl
  | cons c cs ih =>
    show ((p.next c).past cs).line = _
    rw [ih, Position.next, List.count_cons]
    split
    · simp only; omega
    · simp

/-- A gap changes nothing between two lines. -/
theorem through_gap (n : Nat) (cs : List Char) :
    Scan.through ⟨r, none, n⟩ (strands cs) =
      Scan.through ⟨r, none, n + (gap cs).1.count '\n'⟩ (strands (gap cs).2) := by
  fun_induction gap cs generalizing n with
  | case1 => rfl
  | case2 c rest hc g after e ih =>
    have hfed : Scan.Fed ⟨r, none, n⟩ (.char c) ⟨r, none, n⟩ :=
      .skipped (mark?_of_isSpacing hc) rfl hc
    have hne : c ≠ '\n' := by rintro rfl; cases hc
    rw [strands_char (not_opensComment_of_isSpacing hc), through_cons, Scan.feed_of_fed hfed,
      Option.bind_some, ih n, e, List.count_cons_of_ne hne]
  | case3 c rest hc t after hcomment g after' e ih =>
    rw [strands_comment hcomment, through_cons, Scan.feed_of_fed .commented, Option.bind_some,
      Scan.ended, ih, e, List.count_append, Nat.add_assoc]
  | case4 => rfl

theorem of_not_stopsLine (h : stopsLine c cs = false) :
    mark? c = none ∧ opensComment c cs = false := by
  rw [stopsLine_eq, Bool.or_eq_false_iff] at h
  exact ⟨by simpa using h.1, h.2⟩

/-- A line runs as far as nothing stops it. -/
theorem through_lineRun (n m : Nat) (run : List Char) (cs : List Char) :
    Scan.through ⟨r, some (m, run), n⟩ (strands cs) =
      Scan.through ⟨r, some (m, run ++ (lineRun cs).1), n⟩ (strands (lineRun cs).2) := by
  fun_induction lineRun cs generalizing run with
  | case1 => rw [List.append_nil]
  | case2 => rw [List.append_nil]
  | case3 c cs hstop run' rest e ih =>
    obtain ⟨hmark, hopens⟩ := of_not_stopsLine (by simpa using hstop)
    have hfed : Scan.Fed ⟨r, some (m, run), n⟩ (.char c) ⟨r, some (m, run ++ [c]), n⟩ :=
      .extended hmark rfl
    rw [strands_char hopens, through_cons, Scan.feed_of_fed hfed, Option.bind_some, ih, e,
      List.append_assoc]
    rfl

theorem lineRun_cons (h : stopsLine c cs = false) :
    lineRun (c :: cs) = (c :: (lineRun cs).1, (lineRun cs).2) := by
  rw [lineRun, if_neg (by simp [h])]

theorem newline_notMem_lineRun (cs : List Char) : '\n' ∉ (lineRun cs).1 := by
  fun_induction lineRun cs with
  | case1 => exact List.not_mem_nil
  | case2 => exact List.not_mem_nil
  | case3 c cs hstop run rest e ih =>
    rw [e] at ih
    intro h
    rcases List.mem_cons.mp h with rfl | h
    · exact hstop rfl
    · exact ih h

/-- Where a line stops it has ended. -/
theorem through_ended (h : ∀ c after, cs = c :: after → stopsLine c after = true) (s : Scan) :
    (s.through (strands cs)).bind Scan.finish =
      (Scan.through ⟨s.ended, none, s.number⟩ (strands cs)).bind Scan.finish := by
  cases cs with
  | nil =>
    rw [strands_nil]
    rfl
  | cons c rest =>
    have hstop := h c rest rfl
    rw [stopsLine_eq, Bool.or_eq_true] at hstop
    cases hopens : opensComment c rest with
    | true =>
      cases hcomment : comment? (c :: rest) with
      | some p =>
        rw [strands_comment hcomment]
        rfl
      | none =>
        rw [strands_unclosed hopens hcomment]
        rfl
    | false =>
      obtain ⟨token, hmark⟩ := Option.isSome_iff_exists.mp (hstop.resolve_right (by simp [hopens]))
      rw [strands_char hopens, through_cons, through_cons, Scan.feed, Scan.feed, hmark]
      rfl

theorem stopsLine_lineRun (cs : List Char) :
    ∀ c after, (lineRun cs).2 = c :: after → stopsLine c after = true := by
  fun_induction lineRun cs with
  | case1 => intro c after h; cases h
  | case2 c cs hstop => intro d after h; cases h; exact hstop
  | case3 c cs hstop run rest e ih => rw [e] at ih; exact ih

/-- The reader makes of the tokens of a text what the scan makes of its strands. -/
theorem run_lexemes (r : Reader) (p : Position) (cs : List Char) :
    (r.run (lexemes p cs)).toOption =
      (Scan.through ⟨r, none, p.line⟩ (strands cs)).bind Scan.finish := by
  fun_induction lexemes p cs generalizing r with
  | case1 p cs here hg =>
    rw [through_gap, hg, strands_nil, through_nil, Option.bind_some, Scan.finish_eq _ here,
      Scan.ended_none, Reader.run]
    cases r.step ⟨.finish, here⟩ with
    | none => rfl
    | some r' => rfl
  | case2 p cs here c rest hg hle token hm ih =>
    rw [through_gap, hg, strands_char (not_opensComment_of_mark? hm), through_cons,
      Scan.feed_mark hm _ here, Scan.ended_none, Reader.run, ← past_line p]
    cases r.step ⟨token, here⟩ with
    | none => rfl
    | some next =>
      have hline : (here.next c).line = here.line + [c].count '\n' := past_line here [c]
      exact hline ▸ ih next
  | case3 p cs here c rest hg hle hm hs =>
    obtain ⟨-, hcomment⟩ := Text.of_gap_eq_cons hg
    have hopens : opensComment c rest = true := by
      rw [stopsLine_eq, hm] at hs
      exact hs
    rw [through_gap, hg, strands_unclosed hopens hcomment]
    rfl
  | case4 p cs here c rest hg hle hm hs this ih =>
    have hstop : stopsLine c rest = false := by simpa using hs
    have hopens := (of_not_stopsLine hstop).2
    have hfed : Scan.Fed ⟨r, none, here.line⟩ (.char c) ⟨r, some (here.line, [c]), here.line⟩ :=
      .started hm rfl (Text.of_gap_eq_cons hg).1
    -- no line end in a line: the next line starts with the number of this one
    have hline : (here.past (lineRun (c :: rest)).1).line = here.line := by
      rw [past_line, List.count_eq_zero.mpr (newline_notMem_lineRun _), Nat.add_zero]
    rw [through_gap, hg, ← past_line p, strands_char hopens, through_cons, Scan.feed_of_fed hfed,
      Option.bind_some, through_lineRun, through_ended (stopsLine_lineRun rest), Scan.ended_some]
    rw [hline, lineRun_cons hstop] at ih
    rw [lineRun_cons hstop]
    exact ih _

/-- A text is read if all of its strands can be taken and no block is left open. -/
theorem read_eq_ok_iff {text : String} {forest : List Statement} :
    read text = .ok forest ↔ ∃ s, Scan.start.through (strands text.toList) = some s ∧
      s.ended.outer = [] ∧ s.ended.settled.reverse = forest := by
  have hrun : (Reader.start.run (lexemes .first text.toList)).toOption =
      (Scan.start.through (strands text.toList)).bind Scan.finish :=
    run_lexemes .start .first text.toList
  have hread : read text = .ok forest ↔ ∃ r,
      (Reader.start.run (lexemes .first text.toList)).toOption = some r ∧
        r.settled.reverse = forest := by
    unfold read
    cases Reader.start.run (lexemes .first text.toList) with
    | error p => simp [Except.map, Except.toOption]
    | ok r => simp [Except.map, Except.toOption]
  rw [hread, hrun]
  constructor
  · rintro ⟨r, h, hr⟩
    obtain ⟨s, hs, hfinish⟩ := Option.bind_eq_some_iff.mp h
    obtain ⟨houter, rfl⟩ := (Reader.step_finish _ _ _).mp hfinish
    exact ⟨s, hs, houter, hr⟩
  · rintro ⟨s, hs, houter, hr⟩
    exact ⟨s.ended, Option.bind_eq_some_iff.mpr
      ⟨s, hs, (Reader.step_finish _ _ _).mpr ⟨houter, rfl⟩⟩, hr⟩

end

end ShaderGraph.Block
