/-
  ShaderGraph.Proofs.Layouts — whatever way statements are laid out, reading gives them back.

  A layout of statements is a text that writes them one after the other (`Lays`). Between two
  statements may stand any blanks, separators and complete comments (`Fill`). A statement
  without a block ends with a separator unless its block or the text ends there. The `{` of a
  block stands on the line it belongs to or on a later one, comments and blanks between, but
  no `;`. A comment never stands directly behind a line, where it could be joined to a `/` at
  the line's end.

  - `passes_fill`: what stands between statements changes nothing but whether a block may
    still follow.
  - `passes_lays`: reading a layout puts its statements behind those read before.
  - `read_of_layout`: the statements of a layout are read as they are, each with the number of
    its line.
-/

import ShaderGraph.Proofs.Blanks
import ShaderGraph.Proofs.Scanning

namespace ShaderGraph.Block

open Text (isSpacing endsLine isBlank comment? LineOver)

/-! ## Layouts -/

structure Writable (line : List Char) : Prop where
  nonempty : line ≠ []
  trimmed : Text.trim line = line
  unmarked : ∀ c ∈ line, c ∉ ['\x7b', '\x7d', ';', '\n', '\r']
  noLineComment : ¬ ['/', '/'] <:+: line
  noBlockComment : ¬ ['/', '*'] <:+: line

instance (line : List Char) : Decidable (Writable line) :=
  decidable_of_iff (line ≠ [] ∧ Text.trim line = line ∧
      line.all (· ∉ ['\x7b', '\x7d', ';', '\n', '\r']) = true ∧
      (Text.breakAt? ['/', '/'] line).isNone = true ∧
      (Text.breakAt? ['/', '*'] line).isNone = true) <| by
    simp only [Option.isNone_iff_eq_none, Text.breakAt?_eq_none_iff, List.all_eq_true,
      decide_eq_true_eq]
    exact ⟨fun ⟨h₁, h₂, h₃, h₄, h₅⟩ => ⟨h₁, h₂, h₃, h₄, h₅⟩,
      fun h => ⟨h.nonempty, h.trimmed, h.unmarked, h.noLineComment, h.noBlockComment⟩⟩

def isSeparator (c : Char) : Bool := c == ';' || endsLine c

/-- The text is characters of a kind and complete comments, and then `rest`. -/
inductive Fill (kind : Char → Bool) : (text rest : List Char) → Prop
  | done {rest : List Char} : Fill kind rest rest
  | char {c : Char} {text rest : List Char} : kind c = true → Fill kind text rest →
      Fill kind (c :: text) rest
  | blockComment {inside text rest : List Char} : ¬ ['*', '/'] <:+: inside →
      Fill kind text rest → Fill kind ('/' :: '*' :: inside ++ '*' :: '/' :: text) rest
  | lineComment {inside text rest : List Char} : (∀ c ∈ inside, endsLine c = false) →
      (∀ c, text.head? = some c → endsLine c = true) → Fill kind text rest →
      Fill kind ('/' :: '/' :: inside ++ text) rest

def beforeBlock (c : Char) : Bool := isSpacing c || endsLine c

def betweenStatements (c : Char) : Bool := isSpacing c || isSeparator c

/-- The text, which `whole` ends with, lays the statements out and goes on with `rest`. -/
inductive Lays (whole : List Char) : List Statement → (text rest : List Char) → Prop
  | nil {rest : List Char} : Lays whole [] rest rest
  /-- The last statement of a block or of the whole text. -/
  | last {before line text rest : List Char} :
      Writable line → whole = before ++ (line ++ text) → text.head? ≠ some '/' →
      Fill betweenStatements text rest → rest.head? = none ∨ rest.head? = some '\x7d' →
      Lays whole [⟨⟨1 + before.count '\n', .ofList line⟩, []⟩] (line ++ text) rest
  | leaf {before line text next text' rest : List Char} {c : Char} {forest : List Statement} :
      Writable line → whole = before ++ (line ++ text) → text.head? ≠ some '/' →
      Fill isSpacing text (c :: next) → isSeparator c = true →
      Fill betweenStatements next text' → Lays whole forest text' rest →
      Lays whole (⟨⟨1 + before.count '\n', .ofList line⟩, []⟩ :: forest) (line ++ text) rest
  | block {before line text opened inner closed text' rest : List Char}
      {contents forest : List Statement} :
      Writable line → whole = before ++ (line ++ text) → text.head? ≠ some '/' →
      Fill beforeBlock text ('\x7b' :: opened) →
      Fill betweenStatements opened inner → Lays whole contents inner ('\x7d' :: closed) →
      Fill betweenStatements closed text' → Lays whole forest text' rest →
      Lays whole (⟨⟨1 + before.count '\n', .ofList line⟩, contents⟩ :: forest) (line ++ text) rest

def IsLayout (forest : List Statement) (text : List Char) : Prop :=
  ∃ first, Fill betweenStatements text first ∧ Lays text forest first []

/-! ## Passing over a part of a text -/

namespace Scan

/-- From `text` on, the scan comes to `rest` and is `s'` there. -/
def Passes (s : Scan) (text : List Char) (s' : Scan) (rest : List Char) : Prop :=
  ∃ xs, strands text = xs ++ strands rest ∧ s.through xs = some s'

section

variable {s s' s'' : Scan} {text text' rest : List Char} {c : Char}

theorem Passes.refl (s : Scan) (text : List Char) : s.Passes text s text := ⟨[], rfl, rfl⟩

theorem Passes.trans (h : s.Passes text s' text') (h' : s'.Passes text' s'' rest) :
    s.Passes text s'' rest := by
  obtain ⟨xs, hxs, hs⟩ := h
  obtain ⟨ys, hys, hs'⟩ := h'
  refine ⟨xs ++ ys, by rw [hxs, hys, List.append_assoc], ?_⟩
  rw [through_append, hs, Option.bind_some, hs']

theorem passes_char (hopens : opensComment c text = false) (h : s.Fed (.char c) s') :
    s.Passes (c :: text) s' text :=
  ⟨[.char c], strands_char hopens, by rw [through_cons, feed_of_fed h]; rfl⟩

theorem passes_comment {t : List Char} (h : comment? text = some (t, rest)) :
    s.Passes text ⟨s.ended, none, s.number + t.count '\n'⟩ rest :=
  ⟨[.comment t], strands_comment h, rfl⟩

theorem Passes.through (h : s.Passes text s' rest) :
    s.through (strands text) = s'.through (strands rest) := by
  obtain ⟨xs, hxs, hs⟩ := h
  rw [hxs, through_append, hs, Option.bind_some]

/-- The number of the scan is that of the line which `text` starts in, within `whole`. -/
def At (s : Scan) (whole text : List Char) : Prop :=
  ∃ before, whole = before ++ text ∧ s.number = 1 + before.count '\n'

theorem At.number {whole before : List Char} (h : s.At whole text) (hw : whole = before ++ text) :
    s.number = 1 + before.count '\n' := by
  obtain ⟨before', rfl, hn⟩ := h
  rw [hn, List.append_cancel_right hw]

theorem At.passes {whole : List Char} (h : s.At whole text) (hp : s.Passes text s' rest) :
    s'.At whole rest := by
  obtain ⟨before, rfl, hn⟩ := h
  obtain ⟨xs, hxs, hs⟩ := hp
  have htext := eq_spell hxs
  rw [spell_append, spell_strands] at htext
  refine ⟨before ++ spell xs, by rw [htext, List.append_assoc], ?_⟩
  rw [number_of_through hs, hn, List.count_append, Nat.add_assoc]

end

end Scan

/-! ## Between statements -/

structure Scan.Adds (s : Scan) (forest : List Statement) (s' : Scan) : Prop where
  settled : s'.ended.settled = forest.reverse ++ s.ended.settled
  outer : s'.ended.outer = s.ended.outer

theorem Scan.Adds.trans {s s' s'' : Scan} {forest forest' : List Statement}
    (h : s.Adds forest s') (h' : s'.Adds forest' s'') : s.Adds (forest ++ forest') s'' := by
  constructor
  · rw [h'.settled, h.settled, List.reverse_append, List.append_assoc]
  · rw [h'.outer, h.outer]

theorem Scan.adds_of_ended {s s' : Scan} (h : s'.ended = s.ended) : s.Adds [] s' :=
  ⟨congrArg Reader.settled h, congrArg Reader.outer h⟩

def Reader.separated (r : Reader) : Reader := ⟨r.settled, none, r.outer⟩

theorem Scan.adds_of_separated {s s' : Scan} (h : s'.ended = s.ended.separated) :
    s.Adds [] s' := by
  constructor <;> rw [h] <;> rfl

theorem Scan.adds_line {s s' : Scan} {owner : Location}
    (h : s'.ended = ⟨s.ended.settled, some owner, s.ended.outer⟩) : s.Adds [⟨owner, []⟩] s' where
  settled := by rw [h]; rfl
  outer := by rw [h]

theorem fed_separator {c : Char} (h : isSeparator c = true) (s : Scan) :
    ∃ s' : Scan, s.Fed (.char c) s' ∧ s'.line = none ∧
      (s'.ended = s.ended ∨ c = ';' ∧ s'.ended = s.ended.separated) := by
  rcases (by simpa [isSeparator] using h : c = ';' ∨ endsLine c = true) with rfl | h
  · exact ⟨_, .semicolon, rfl, Or.inr ⟨rfl, rfl⟩⟩
  · exact ⟨_, .lineEnd h, rfl, Or.inl rfl⟩

theorem fed_between {c : Char} (h : betweenStatements c = true) (s : Scan) :
    ∃ s' : Scan, s.Fed (.char c) s' ∧ (s.line = none → s'.line = none) ∧
      (s'.ended = s.ended ∨ c = ';' ∧ s'.ended = s.ended.separated) := by
  rcases (by simpa [betweenStatements] using h : isSpacing c = true ∨ isSeparator c = true)
    with h | h
  · obtain ⟨r, line, n⟩ := s
    cases line with
    | none => exact ⟨_, .skipped (mark?_of_isSpacing h) rfl h, fun _ => rfl, Or.inl rfl⟩
    | some line =>
      obtain ⟨m, run⟩ := line
      refine ⟨_, .extended (mark?_of_isSpacing h) rfl, (fun hline => nomatch hline), Or.inl ?_⟩
      have hblank := Text.isBlank_of_isSpacing h
      simp only [Scan.ended_some, Reader.addLine, Text.trim_append_blank hblank]
  · obtain ⟨s', hfed, hline, hended⟩ := fed_separator h s
    exact ⟨s', hfed, fun _ => hline, hended⟩

theorem not_opensComment_between {c : Char} (h : betweenStatements c = true) (text : List Char) :
    opensComment c text = false := by
  unfold opensComment
  rw [Bool.and_eq_false_iff]
  refine Or.inl (beq_eq_false_iff_ne.mpr ?_)
  rintro rfl
  cases h

/-- What stands between statements takes nothing away and adds nothing. -/
theorem passes_fill {kind : Char → Bool} {text rest : List Char}
    (hkind : ∀ c, kind c = true → betweenStatements c = true) (h : Fill kind text rest) (s : Scan) :
    ∃ s' : Scan, s.Passes text s' rest ∧ (s.line = none → s'.line = none) ∧
      (s'.ended = s.ended ∨ kind ';' = true ∧ s'.ended = s.ended.separated) := by
  induction h generalizing s with
  | done => exact ⟨s, .refl s _, id, Or.inl rfl⟩
  | @char c text rest hc _ ih =>
    obtain ⟨s₁, hfed, hline₁, hended₁⟩ := fed_between (hkind c hc) s
    obtain ⟨s', hs', hline, hended⟩ := ih s₁
    refine ⟨s', (Scan.passes_char (not_opensComment_between (hkind c hc) text) hfed).trans hs',
      fun h => hline (hline₁ h), ?_⟩
    rcases hended₁ with h₁ | ⟨rfl, h₁⟩
    · rwa [h₁] at hended
    · refine Or.inr ⟨hc, ?_⟩
      rcases hended with h' | ⟨-, h'⟩
      · rw [h', h₁]
      · rw [h', h₁]
        rfl
  | @blockComment inside text rest hinside _ ih =>
    obtain ⟨s', hs', hline, hended⟩ := ih ⟨s.ended, none, s.number + _⟩
    exact ⟨s', (Scan.passes_comment (Text.comment?_block hinside text)).trans hs',
      fun _ => hline rfl, hended⟩
  | @lineComment inside text rest hinside hover _ ih =>
    have hline : LineOver text := by
      cases text with
      | nil => rfl
      | cons c text => exact Text.lineOver_cons (hover c rfl) text
    obtain ⟨s', hs', hline', hended⟩ := ih ⟨s.ended, none, s.number + _⟩
    exact ⟨s', (Scan.passes_comment (Text.comment?_line hinside hline)).trans hs',
      fun _ => hline' rfl, hended⟩

theorem passes_separator {c : Char} (h : isSeparator c = true) (text : List Char) (s : Scan) :
    ∃ s' : Scan, s.Passes (c :: text) s' text ∧ s'.line = none ∧ s.Adds [] s' := by
  have hbetween : betweenStatements c = true := by rw [betweenStatements, h, Bool.or_true]
  have hopens := not_opensComment_between hbetween text
  obtain ⟨s', hfed, hline, hended | ⟨-, hended⟩⟩ := fed_separator h s
  · exact ⟨s', Scan.passes_char hopens hfed, hline, Scan.adds_of_ended hended⟩
  · exact ⟨s', Scan.passes_char hopens hfed, hline, Scan.adds_of_separated hended⟩

theorem passes_between {text rest : List Char} (h : Fill betweenStatements text rest) (s : Scan) :
    ∃ s' : Scan, s.Passes text s' rest ∧ (s.line = none → s'.line = none) ∧ s.Adds [] s' := by
  obtain ⟨s', hs', hline, hended | ⟨-, hended⟩⟩ := passes_fill (fun _ => id) h s
  · exact ⟨s', hs', hline, Scan.adds_of_ended hended⟩
  · exact ⟨s', hs', hline, Scan.adds_of_separated hended⟩

theorem between_of_beforeBlock {c : Char} (h : beforeBlock c = true) :
    betweenStatements c = true := by
  unfold beforeBlock at h
  unfold betweenStatements isSeparator
  rw [Bool.or_eq_true] at h ⊢
  exact h.imp_right fun hc => by rw [hc, Bool.or_true]

theorem beforeBlock_of_isSpacing {c : Char} (h : isSpacing c = true) : beforeBlock c = true := by
  rw [beforeBlock, h, Bool.true_or]

/-- Without a `;` a block may still follow. -/
theorem passes_beforeBlock {kind : Char → Bool} {text rest : List Char}
    (hkind : ∀ c, kind c = true → beforeBlock c = true) (h : Fill kind text rest) (s : Scan) :
    ∃ s' : Scan, s.Passes text s' rest ∧ s'.ended = s.ended := by
  obtain ⟨s', hs', -, hended | ⟨hsemicolon, -⟩⟩ :=
    passes_fill (fun c hc => between_of_beforeBlock (hkind c hc)) h s
  · exact ⟨s', hs', hended⟩
  · exact absurd (hkind _ hsemicolon) (by decide)

/-- No fill starts with a `*` unless it is empty. -/
theorem head?_fill {kind : Char → Bool} {text rest : List Char}
    (hkind : ∀ c, kind c = true → betweenStatements c = true) (h : Fill kind text rest)
    (hrest : rest.head? ≠ some '*') : text.head? ≠ some '*' := by
  cases h with
  | done => exact hrest
  | char hc _ =>
    intro heq
    cases heq
    exact absurd (hkind _ hc) (by decide)
  | blockComment _ _ => exact fun heq => nomatch heq
  | lineComment _ _ _ => exact fun heq => nomatch heq

/-! ## Lines -/

namespace Writable

variable {line text : List Char} (h : Writable line)
include h

theorem mark? {c : Char} (hc : c ∈ line) : mark? c = none := by
  have hne := h.unmarked c hc
  simp only [List.mem_cons, List.not_mem_nil, or_false, not_or] at hne
  unfold Block.mark?
  simp [hne, endsLine]

theorem not_opensComment (hslash : text.head? ≠ some '/') (hstar : text.head? ≠ some '*')
    {before after : List Char} {c : Char} (hline : line = before ++ c :: after) :
    opensComment c (after ++ text) = false := by
  rw [Bool.eq_false_iff]
  intro hopens
  simp only [opensComment, Bool.and_eq_true, Bool.or_eq_true, beq_iff_eq] at hopens
  obtain ⟨rfl, hnext⟩ := hopens
  cases after with
  | nil => exact hnext.elim hslash hstar
  | cons d after =>
    simp only [List.cons_append, List.head?_cons, Option.some.injEq] at hnext
    rcases hnext with rfl | rfl
    · exact h.noLineComment ⟨before, after, by rw [hline]; simp⟩
    · exact h.noBlockComment ⟨before, after, by rw [hline]; simp⟩

theorem exists_cons : ∃ c cs, line = c :: cs ∧ isSpacing c = false := by
  cases hline : line with
  | nil => exact absurd hline h.nonempty
  | cons c cs =>
    refine ⟨c, cs, rfl, ?_⟩
    rw [Bool.eq_false_iff]
    intro hc
    have htrim := h.trimmed
    rw [hline] at htrim
    have hblank := Text.not_isBlank_of_trim htrim
    rw [Text.isBlank_of_isSpacing hc] at hblank
    cases hblank

end Writable

/-! ## Statements -/

theorem passes_line {whole before line text : List Char} (h : Writable line)
    (hwhole : whole = before ++ (line ++ text)) (hslash : text.head? ≠ some '/')
    (hstar : text.head? ≠ some '*') {s : Scan} (hs : s.line = none)
    (hat : s.At whole (line ++ text)) :
    ∃ s' : Scan, s.Passes (line ++ text) s' text ∧ s'.ended =
      ⟨s.ended.settled, some ⟨1 + before.count '\n', .ofList line⟩, s.ended.outer⟩ := by
  rw [← hat.number hwhole]
  obtain ⟨r, _, n⟩ := s
  cases hs
  have through : ∀ cs run, (∀ c ∈ cs, mark? c = none) →
      Scan.through ⟨r, some (n, run), n⟩ (cs.map .char) = some ⟨r, some (n, run ++ cs), n⟩ := by
    intro cs
    induction cs with
    | nil => intro run _; simp
    | cons c cs ih =>
      intro run hcs
      have hfed : Scan.Fed ⟨r, some (n, run), n⟩ (.char c) ⟨r, some (n, run ++ [c]), n⟩ :=
        .extended (hcs c List.mem_cons_self) rfl
      rw [List.map_cons, through_cons, Scan.feed_of_fed hfed, Option.bind_some,
        ih _ fun d hd => hcs d (List.mem_cons_of_mem c hd), List.append_assoc]
      rfl
  refine ⟨⟨r, some (n, line), n⟩, ⟨line.map .char,
    strands_chars fun _ _ _ => h.not_opensComment hslash hstar, ?_⟩, ?_⟩
  · obtain ⟨c, cs, rfl, hc⟩ := h.exists_cons
    have hfed : Scan.Fed ⟨r, none, n⟩ (.char c) ⟨r, some (n, [c]), n⟩ :=
      .started (h.mark? List.mem_cons_self) rfl hc
    rw [List.map_cons, through_cons, Scan.feed_of_fed hfed, Option.bind_some,
      through cs [c] fun d hd => h.mark? (List.mem_cons_of_mem c hd)]
    rfl
  · rw [Scan.ended_some, Reader.addLine, h.trimmed]
    rfl

/-- Reading a layout puts its statements behind those read before. -/
theorem passes_lays {whole text rest : List Char} {forest : List Statement}
    (h : Lays whole forest text rest) {s : Scan} (hs : s.line = none) (hat : s.At whole text) :
    ∃ s' : Scan, s.Passes text s' rest ∧ s.Adds forest s' := by
  induction h generalizing s with
  | nil => exact ⟨s, .refl s _, rfl, rfl⟩
  | last hw hwhole hslash hfill hend =>
    have hstar := head?_fill (fun _ => id) hfill (by rcases hend with h | h <;> rw [h] <;> decide)
    obtain ⟨s₁, hs₁, hline⟩ := passes_line hw hwhole hslash hstar hs hat
    obtain ⟨s', hs', -, hadds⟩ := passes_between hfill s₁
    exact ⟨s', hs₁.trans hs', (Scan.adds_line hline).trans hadds⟩
  | @leaf _ _ _ next text' _ c _ hw hwhole hslash hfill hc hnext _ ih =>
    have hstar : (c :: next).head? ≠ some '*' := by
      intro h
      cases h
      cases hc
    have hkind : ∀ c, isSpacing c = true → beforeBlock c = true :=
      fun _ => beforeBlock_of_isSpacing
    have hstar := head?_fill (fun c hc => between_of_beforeBlock (hkind c hc)) hfill hstar
    obtain ⟨s₁, hs₁, hline⟩ := passes_line hw hwhole hslash hstar hs hat
    obtain ⟨s₂, hs₂, hended⟩ := passes_beforeBlock hkind hfill s₁
    obtain ⟨s₃, hs₃, hline₃, hadds₃⟩ := passes_separator hc next s₂
    obtain ⟨s₄, hs₄, hline₄, hadds₄⟩ := passes_between hnext s₃
    have hpasses := ((hs₁.trans hs₂).trans hs₃).trans hs₄
    obtain ⟨s', hs', hadds⟩ := ih (hline₄ hline₃) (hat.passes hpasses)
    exact ⟨s', hpasses.trans hs', ((((Scan.adds_line hline).trans
      (Scan.adds_of_ended hended)).trans hadds₃).trans hadds₄).trans hadds⟩
  | @block _ _ _ opened _ closed _ _ contents _ hw hwhole hslash hfill hopened _ hclosed _
      ihcontents ihforest =>
    have hstar := head?_fill (fun _ => between_of_beforeBlock) hfill (fun h => nomatch h)
    obtain ⟨s₁, hs₁, hline⟩ := passes_line hw hwhole hslash hstar hs hat
    obtain ⟨s₂, hs₂, hended⟩ := passes_beforeBlock (fun _ => id) hfill s₁
    rw [hline] at hended
    -- the block is opened, and its statements come behind none
    have hopen : s₂.Fed (.char '\x7b') _ := .opened (by rw [hended])
    obtain ⟨s₃, hs₃, hline₃, hadds₃⟩ := passes_between hopened _
    have hinner := ((hs₁.trans hs₂).trans (Scan.passes_char rfl hopen)).trans hs₃
    obtain ⟨s₄, hs₄, hadds₄⟩ := ihcontents (hline₃ rfl) (hat.passes hinner)
    have hcontents := hadds₃.trans hadds₄
    -- the block is closed, and goes behind what was read before it
    have houter := hcontents.outer
    rw [Scan.ended_none, hended] at houter
    have hclose : s₄.Fed (.char '\x7d') _ := .closed houter
    obtain ⟨s₅, hs₅, hline₅, hadds₅⟩ := passes_between hclosed _
    have hafter := ((hinner.trans hs₄).trans (Scan.passes_char rfl hclose)).trans hs₅
    obtain ⟨s', hs', hadds⟩ := ihforest (hline₅ rfl) (hat.passes hafter)
    refine ⟨s', hafter.trans hs', ?_⟩
    have hblock := hadds₅.trans hadds
    constructor
    · rw [hblock.settled, Scan.ended_none, hcontents.settled]
      simp [Reader.settled, hended]
    · rw [hblock.outer]
      rfl

theorem read_of_layout {text : String} {forest : List Statement}
    (h : IsLayout forest text.toList) : read text = .ok forest := by
  obtain ⟨first, hfirst, hlays⟩ := h
  obtain ⟨s₁, hs₁, hline, hadds₁⟩ := passes_between hfirst .start
  have hat : Scan.start.At text.toList text.toList := ⟨[], rfl, rfl⟩
  obtain ⟨s', hs', hadds⟩ := passes_lays hlays (hline rfl) (hat.passes hs₁)
  have hadds := hadds₁.trans hadds
  refine read_eq_ok_iff.mpr ⟨s', ?_, ?_, ?_⟩
  · rw [(hs₁.trans hs').through, strands_nil, through_nil]
  · rw [hadds.outer]
    rfl
  · rw [hadds.settled]
    simp [Scan.start, Scan.ended, Reader.start, Reader.settled]

/-- A block that opens behind a comment, and a line that ends with a `/` in front of one. -/
def nested : String := "A // top\n\x7b b/ /* c */; d \x7d\n"

def nestedForest : List Statement := [⟨⟨1, "A"⟩, [⟨⟨2, "b/"⟩, []⟩, ⟨⟨2, "d"⟩, []⟩]⟩]

theorem read_of_layout_nested :
    IsLayout nestedForest nested.toList ∧ read nested = .ok nestedForest := by
  have hinside : ∀ c ∈ " top".toList, endsLine c = false := by
    have hall : " top".toList.all (!endsLine ·) = true := rfl
    simpa using hall
  have hlast : Lays nested.toList [⟨⟨2, "d"⟩, []⟩] "d \x7d\n".toList "\x7d\n".toList :=
    @Lays.last _ "A // top\n\x7b b/ /* c */; ".toList ['d'] _ _ (by decide) rfl (by decide)
      (.char rfl .done) (Or.inr rfl)
  have hcontents : Lays nested.toList [⟨⟨2, "b/"⟩, []⟩, ⟨⟨2, "d"⟩, []⟩]
      "b/ /* c */; d \x7d\n".toList "\x7d\n".toList :=
    @Lays.leaf _ "A // top\n\x7b ".toList "b/".toList _ _ _ _ ';' _ (by decide) rfl (by decide)
      (.char rfl (@Fill.blockComment _ " c ".toList _ _ (by decide) .done)) rfl
      (.char rfl .done) hlast
  have hnested : IsLayout nestedForest nested.toList :=
    ⟨_, .done, @Lays.block _ [] ['A'] _ _ _ _ _ _ _ _ (by decide) rfl (by decide)
      (.char rfl (.lineComment hinside (fun c hc => by cases hc; rfl) (.char rfl .done)))
      (.char rfl .done) hcontents (.char rfl .done) .nil⟩
  exact ⟨hnested, read_of_layout hnested⟩

end ShaderGraph.Block
