/-
  ShaderGraph.Proofs.Accounting — a text that is read is accounted for to the last character.

  - `Covers`: strands as the lines that stand in them, with what stands before each, and
    nothing else but spaces, tabs, separators, braces and comments.
  - `open_step`, `traced_step`: behind any strands, as many blocks are open as braces, and the
    lines read are those that stand there.
  - `accounted_of_read`: the lines of the statements are the text without its comments,
    blanks, separators and braces; its braces are balanced; and each statement is as deep in
    the forest as its line is in the braces of the text.
-/

import ShaderGraph.Proofs.Blanks
import ShaderGraph.Proofs.Scanning

namespace ShaderGraph.Block

open Text (isSpacing isBlank endsLine)

/-! ## Statements in order -/

theorem rows_append (depth : Nat) (forest forest' : List Statement) :
    rows depth (forest ++ forest') = rows depth forest ++ rows depth forest' := by
  induction forest with
  | nil => rw [rows, List.nil_append, List.nil_append]
  | cons s forest ih =>
    obtain ⟨location, contents⟩ := s
    rw [List.cons_append, rows, rows, ih, List.append_assoc]

/-- The lines of statements, with the number of blocks around them. -/
def outline (depth : Nat) (forest : List Statement) : List (Nat × Location) :=
  (rows depth forest).map fun row => (row.1, row.2.location)

@[simp] theorem outline_nil (depth : Nat) : outline depth [] = [] := by rw [outline, rows]; rfl

theorem outline_append (depth : Nat) (forest forest' : List Statement) :
    outline depth (forest ++ forest') = outline depth forest ++ outline depth forest' := by
  rw [outline, rows_append, List.map_append]
  rfl

theorem outline_singleton (depth : Nat) (owner : Location) (contents : List Statement) :
    outline depth [⟨owner, contents⟩] = (depth, owner) :: outline (depth + 1) contents := by
  simp [outline, rows]

/-- What was read before the innermost block, and the lines of the blocks around. -/
def outlineAround : List Frame → List (Nat × Location)
  | [] => []
  | frame :: outer => outlineAround outer ++ outline outer.length frame.before.reverse ++
      [(outer.length, frame.owner)]

def Reader.outline (r : Reader) : List (Nat × Location) :=
  outlineAround r.outer ++ Block.outline r.outer.length r.settled.reverse

theorem Reader.outline_addLine (r : Reader) (n : Nat) (run : List Char) :
    (r.addLine n run).outline =
      r.outline ++ [(r.outer.length, ⟨n, .ofList (Text.trim run)⟩)] := by
  simp only [outline, addLine, settled, List.reverse_cons, outline_append, outline_singleton,
    outline_nil, List.append_assoc]

/-- A block that opens takes the last line along. -/
theorem Reader.outline_opened {r : Reader} {owner : Location} (h : r.pending = some owner) :
    Reader.outline ⟨[], none, ⟨owner, r.done⟩ :: r.outer⟩ = r.outline := by
  simp only [outline, settled, h, outlineAround, List.reverse_cons, List.reverse_nil,
    outline_append, outline_singleton, outline_nil, List.append_assoc, List.append_nil]

/-- A block that closes is one statement, and its statements are deeper by one. -/
theorem Reader.outline_closed {r : Reader} {frame : Frame} {outer : List Frame}
    (h : r.outer = frame :: outer) :
    Reader.outline ⟨⟨frame.owner, r.settled.reverse⟩ :: frame.before, none, outer⟩ =
      r.outline := by
  simp only [outline, h, outlineAround, List.length_cons]
  simp only [settled, List.reverse_cons, outline_append, outline_singleton, List.append_assoc,
    List.singleton_append]

/-! ## Braces -/

def plain (xs : List Strand) : List Char := xs.filterMap Strand.char?

theorem plain_append (xs ys : List Strand) : plain (xs ++ ys) = plain xs ++ plain ys :=
  List.filterMap_append

def openBraces (cs : List Char) : Nat := cs.count '\x7b' - cs.count '\x7d'

structure Balanced (cs : List Char) : Prop where
  opened : ∀ before, before <+: cs → before.count '\x7d' ≤ before.count '\x7b'
  closed : cs.count '\x7b' = cs.count '\x7d'

/-! ## Where the lines stand -/

structure IsRun (run : List Char) : Prop where
  starts : ∃ c cs, run = c :: cs ∧ isSpacing c = false
  unmarked : ∀ c ∈ run, mark? c = none

def Strand.isAround : Strand → Bool
  | char c => (mark? c).isSome || isSpacing c
  | comment _ => true
  | unclosed _ => false

structure LineAt where
  before : List Strand
  run : List Char

def LineAt.row (p : LineAt) : Nat × Location :=
  (openBraces (plain p.before), ⟨1 + (spell p.before).count '\n', .ofList (Text.trim p.run)⟩)

/-- The strands are the lines at these places, one after the other, and what belongs to no line. -/
inductive Covers : List Strand → List LineAt → Prop
  | nil : Covers [] []
  | around {xs : List Strand} {places : List LineAt} {x : Strand} : Covers xs places →
      x.isAround = true → Covers (xs ++ [x]) places
  | line {xs : List Strand} {places : List LineAt} {run : List Char} : Covers xs places →
      IsRun run → Covers (xs ++ run.map .char) (places ++ [⟨xs, run⟩])

/-! ## Scanning -/

namespace Scan

/-- What each strand keeps is true behind any. -/
theorem through_invariant {P : List Strand → Scan → Prop}
    (step : ∀ xs s x s', P xs s → s.Fed x s' → P (xs ++ [x]) s') {xs : List Strand} {s s' : Scan}
    (hs : P [] s) (h : s.through xs = some s') : P xs s' := by
  have from_ : ∀ ys before s, P before s → s.through ys = some s' → P (before ++ ys) s' := by
    intro ys
    induction ys with
    | nil =>
      intro before s hs h
      cases h
      rwa [List.append_nil]
    | cons y ys ih =>
      intro before s hs h
      obtain ⟨s₁, hs₁, h⟩ := Option.bind_eq_some_iff.mp h
      have := ih _ s₁ (step before s y s₁ hs (fed_of_feed hs₁)) h
      rwa [List.append_assoc] at this
  exact from_ xs [] s hs h

end Scan

section

variable {xs : List Strand} {s s' : Scan} {x : Strand}

theorem Scan.outer_ended (s : Scan) : s.ended.outer = s.reader.outer := by
  obtain ⟨r, line, n⟩ := s
  cases line <;> rfl

def Open (xs : List Strand) (s : Scan) : Prop :=
  s.reader.outer.length + (plain xs).count '\x7d' = (plain xs).count '\x7b'

theorem Open.openBraces (h : Open xs s) : s.reader.outer.length = openBraces (plain xs) := by
  unfold Open at h
  unfold Block.openBraces
  omega

theorem count_plain_append (c : Char) (xs : List Strand) (x : Strand) :
    (plain (xs ++ [x])).count c = (plain xs).count c + (plain [x]).count c := by
  rw [plain_append, List.count_append]

/-- A strand that is no brace. -/
theorem Open.around {n : Nat} {line : Option (Nat × List Char)} (h : Open xs s)
    (hopen : (plain [x]).count '\x7b' = 0) (hclose : (plain [x]).count '\x7d' = 0) {r : Reader}
    (hr : r.outer = s.reader.outer) : Open (xs ++ [x]) ⟨r, line, n⟩ := by
  unfold Open
  rw [count_plain_append, count_plain_append, hopen, hclose, hr]
  exact h

theorem open_step (h : Open xs s) (hfed : s.Fed x s') : Open (xs ++ [x]) s' := by
  have unmarked : ∀ {c d : Char}, mark? d = none → mark? c ≠ none →
      (plain [.char d]).count c = 0 := by
    intro c d hd hc
    refine List.count_eq_zero.mpr fun hmem => hc ?_
    rw [List.mem_singleton.mp hmem, hd]
  cases hfed with
  | skipped hm _ _ => exact h.around (unmarked hm (by decide)) (unmarked hm (by decide)) rfl
  | started hm _ _ => exact h.around (unmarked hm (by decide)) (unmarked hm (by decide)) rfl
  | extended hm _ => exact h.around (unmarked hm (by decide)) (unmarked hm (by decide)) rfl
  | commented => exact h.around rfl rfl s.outer_ended
  | semicolon => exact h.around rfl rfl s.outer_ended
  | @lineEnd c hc =>
    rcases (by simpa [endsLine] using hc : c = '\n' ∨ c = '\r') with rfl | rfl <;>
      exact h.around rfl rfl s.outer_ended
  | opened _ =>
    unfold Open at h ⊢
    rw [count_plain_append, count_plain_append, ← h, List.length_cons, s.outer_ended]
    show _ + 1 + (_ + 0) = _ + _ + 1
    omega
  | @closed frame outer houter =>
    unfold Open at h ⊢
    rw [s.outer_ended] at houter
    rw [houter, List.length_cons] at h
    rw [count_plain_append, count_plain_append, ← h]
    show outer.length + (_ + 1) = outer.length + 1 + _ + 0
    omega

/-- The lines read so far, each where it stands. -/
def Traced (xs : List Strand) (s : Scan) : Prop :=
  match s.line with
  | none => ∃ places, Covers xs places ∧ s.reader.outline = places.map LineAt.row
  | some (n, run) => ∃ before places, xs = before ++ run.map .char ∧ Covers before places ∧
      IsRun run ∧ s.reader.outline = places.map LineAt.row ∧
      (s.reader.outer.length, n) = (openBraces (plain before), 1 + (spell before).count '\n')

theorem Traced.ended (h : Traced xs s) :
    ∃ places, Covers xs places ∧ s.ended.outline = places.map LineAt.row := by
  obtain ⟨r, line, number⟩ := s
  cases line with
  | none => exact h
  | some line =>
    obtain ⟨n, run⟩ := line
    obtain ⟨before, places, rfl, hcovers, hrun, houtline, hat⟩ := h
    obtain ⟨hdepth, hnumber⟩ := Prod.mk.inj hat
    refine ⟨places ++ [⟨before, run⟩], hcovers.line hrun, ?_⟩
    rw [Scan.ended_some, Reader.outline_addLine, List.map_append, ← houtline]
    show _ ++ [(r.outer.length, (⟨n, _⟩ : Location))] = _
    rw [hdepth, hnumber]
    rfl

theorem traced_step (hopen : Open xs s) (hnumber : s.number = 1 + (spell xs).count '\n')
    (h : Traced xs s) (hfed : s.Fed x s') : Traced (xs ++ [x]) s' := by
  -- what belongs to no line ends the one before it
  have around : ∀ r n, x.isAround = true → Reader.outline r = s.ended.outline →
      Traced (xs ++ [x]) ⟨r, none, n⟩ := by
    intro r n hx hr
    obtain ⟨places, hcovers, houtline⟩ := h.ended
    exact ⟨places, hcovers.around hx, hr.trans houtline⟩
  cases hfed with
  | @skipped c hm hline hc =>
    obtain ⟨r, line, n⟩ := s
    cases hline
    exact around r n (by simp [Strand.isAround, hc]) rfl
  | @started c hm hline hc =>
    obtain ⟨r, line, n⟩ := s
    cases hline
    obtain ⟨places, hcovers, houtline⟩ := h
    refine ⟨xs, places, rfl, hcovers, ⟨⟨c, [], rfl, hc⟩, ?_⟩, houtline, ?_⟩
    · intro d hd
      rw [List.mem_singleton.mp hd, hm]
    · exact Prod.ext hopen.openBraces hnumber
  | @extended c n run hm hline =>
    obtain ⟨r, line, number⟩ := s
    cases hline
    obtain ⟨before, places, rfl, hcovers, ⟨⟨d, ds, rfl, hd⟩, hrun⟩, houtline, hat⟩ := h
    refine ⟨before, places, by simp, hcovers, ⟨⟨d, ds ++ [c], rfl, hd⟩, ?_⟩, houtline, hat⟩
    intro e he
    rcases List.mem_append.mp he with he | he
    · exact hrun e he
    · rw [List.mem_singleton.mp he, hm]
  | commented => exact around _ _ rfl rfl
  | lineEnd hc => exact around _ _ (by simp [Strand.isAround, mark?_of_endsLine hc]) rfl
  | semicolon => exact around _ _ rfl rfl
  | opened howner => exact around _ _ rfl (Reader.outline_opened howner)
  | closed houter => exact around _ _ rfl (Reader.outline_closed houter)

theorem open_start : Open [] .start := rfl

theorem open_of_through (h : Scan.start.through xs = some s) : Open xs s :=
  Scan.through_invariant (fun _ _ _ _ => open_step) open_start h

theorem traced_of_through (h : Scan.start.through xs = some s) : Traced xs s := by
  have start : Traced [] .start := ⟨[], .nil, by simp [Scan.start, Reader.start, Reader.outline,
    Reader.settled, outlineAround]⟩
  refine (Scan.through_invariant (P := fun xs s => Open xs s ∧
    s.number = 1 + (spell xs).count '\n' ∧ Traced xs s) ?_ ⟨open_start, rfl, start⟩ h).2.2
  rintro xs s x s' ⟨hopen, hnumber, htraced⟩ hfed
  refine ⟨open_step hopen hfed, ?_, traced_step hopen hnumber htraced hfed⟩
  rw [hfed.number, hnumber, spell_append, List.count_append, Nat.add_assoc, spell_cons, spell_nil,
    List.append_nil]

end

/-! ## What is read -/

/-- A character that only lines are made of. -/
def isInk (c : Char) : Bool := !isBlank c && c != ';' && c != '\x7b' && c != '\x7d'

theorem isInk_of_unmarked {c : Char} (h : mark? c = none) : isInk c = !isBlank c := by
  have hne : ∀ d, mark? d ≠ none → (c != d) = true := by
    intro d hd
    rw [bne_iff_ne]
    rintro rfl
    exact hd h
  rw [isInk, hne ';' (by decide), hne '\x7b' (by decide), hne '\x7d' (by decide)]
  simp

theorem not_isInk_of_around {c : Char} (h : (Strand.char c).isAround = true) :
    isInk c = false := by
  simp only [Strand.isAround, Bool.or_eq_true] at h
  rcases h with h | h
  · rcases mark?_cases c with ⟨rfl, -⟩ | ⟨rfl, -⟩ | ⟨rfl, -⟩ | ⟨hc, -⟩ | hm
    · rfl
    · rfl
    · rfl
    · rcases (by simpa [endsLine] using hc : c = '\n' ∨ c = '\r') with rfl | rfl <;> rfl
    · rw [hm] at h
      cases h
  · rcases (by simpa [isSpacing] using h : c = ' ' ∨ c = '\t') with rfl | rfl <;> rfl

theorem Covers.filter_isInk {xs : List Strand} {places : List LineAt} (h : Covers xs places) :
    (plain xs).filter isInk = places.flatMap fun p => p.run.filter (!isBlank ·) := by
  induction h with
  | nil => rfl
  | @around xs places x _ hx ih =>
    rw [plain_append, List.filter_append, ih]
    cases x with
    | char c =>
      show _ ++ [c].filter isInk = _
      rw [List.filter_cons_of_neg (by simp [not_isInk_of_around hx]), List.filter_nil,
        List.append_nil]
    | comment _ => exact List.append_nil _
    | unclosed _ => exact List.append_nil _
  | @line xs places run _ hrun ih =>
    have hplain : plain (run.map .char) = run := by
      rw [plain, List.filterMap_map]
      exact List.filterMap_some
    rw [plain_append, hplain, List.filter_append, ih, List.flatMap_append,
      List.filter_congr fun c hc => isInk_of_unmarked (hrun.unmarked c hc)]
    simp

structure Accounted (text : List Char) (forest : List Statement) : Prop where
  /-- Nothing is lost and nothing is made up. -/
  lines : (uncommented text).filter isInk =
    (rows 0 forest).flatMap fun row => row.2.line.toList.filter (!isBlank ·)
  balanced : Balanced (uncommented text)
  /-- Each statement has the depth, the number and the text of the line it stands in. -/
  placed : ∃ places, Covers (strands text) places ∧ outline 0 forest = places.map LineAt.row

theorem accounted_of_read {text : String} {forest : List Statement}
    (h : read text = .ok forest) : Accounted text.toList forest := by
  obtain ⟨s, hs, houter, hforest⟩ := read_eq_ok_iff.mp h
  obtain ⟨places, hcovers, houtline⟩ := (traced_of_through hs).ended
  rw [Reader.outline, houter, hforest] at houtline
  refine ⟨?_, ⟨?_, ?_⟩, places, hcovers, houtline⟩
  · rw [uncommented, ← plain, hcovers.filter_isInk]
    have hrows : (rows 0 forest).flatMap (fun row => row.2.line.toList.filter (!isBlank ·)) =
        (outline 0 forest).flatMap fun row => row.2.text.toList.filter (!isBlank ·) := by
      rw [outline, List.flatMap_map]
      rfl
    rw [hrows, show outline 0 forest = places.map LineAt.row from houtline, List.flatMap_map]
    simp [LineAt.row, Text.filter_trim]
  · intro before hbefore
    obtain ⟨xs, ⟨ys, hys⟩, rfl⟩ := List.prefix_filterMap_iff.mp hbefore
    rw [← hys, through_append] at hs
    obtain ⟨s₁, hs₁, -⟩ := Option.bind_eq_some_iff.mp hs
    exact (open_of_through hs₁) ▸ Nat.le_add_left _ _
  · have hopen := open_of_through hs
    rw [Open, ← s.outer_ended, houter] at hopen
    exact hopen.symm.trans (Nat.zero_add _)

/-- Braces in comments, statements that a comment or a `;` parts, and a block for one of them. -/
def braced : String := "A /* \x7d */ b // \x7b\n\x7b c;d \x7b \x7d \x7d"

theorem exists_of_toOption_map {α β ε : Type} {e : Except ε α} {f : α → β} {b : β}
    (h : e.toOption.map f = some b) : ∃ a, e = .ok a ∧ f a = b := by
  cases e with
  | error _ => cases h
  | ok a => exact ⟨a, rfl, Option.some.inj h⟩

theorem accounted_of_read_braced : ∃ forest, read braced = .ok forest ∧
    forest.map (fun s => (s.location, s.contents.map (·.location))) =
      [(⟨1, "A"⟩, []), (⟨1, "b"⟩, [⟨2, "c"⟩, ⟨2, "d"⟩])] ∧
    Accounted braced.toList forest := by
  have hread : (read braced).toOption.map (fun forest =>
      forest.map fun s => (s.location, s.contents.map (·.location))) =
      some [(⟨1, "A"⟩, []), (⟨1, "b"⟩, [⟨2, "c"⟩, ⟨2, "d"⟩])] := by
    decide +kernel
  obtain ⟨forest, h, hforest⟩ := exists_of_toOption_map hread
  exact ⟨forest, h, hforest, accounted_of_read h⟩

end ShaderGraph.Block
