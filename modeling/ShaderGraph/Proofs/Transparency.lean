/-
  ShaderGraph.Proofs.Transparency — what a comment does to the lines around it.

  A comment ends the line it stands behind, as a line end does. So it can be taken for a space
  wherever it is not in the middle of a line, and nowhere else.

  - `Cuts`: before the comment and behind it stands a character of a line, and between that
    and the comment there are only spaces and tabs.
  - `sameLines_iff_not_cuts`: with a space for the comment the text is read as well, and has
    the same lines in the same blocks if and only if the comment does not cut a line.
    Otherwise the two lines that it cuts are one.
  - `comment_cuts_line`: a comment in the middle of a line makes two lines of it.
-/

import ShaderGraph.Proofs.Accounting

namespace ShaderGraph.Block

open Text (isSpacing isBlank endsLine words LineOver)

/-! ## Lines around a comment -/

/-- The first strand that is neither a space nor a tab is a character of a line. -/
def meetsLine : List Strand → Bool
  | .char c :: xs => if isSpacing c then meetsLine xs else (mark? c).isNone
  | _ => false

/-- A comment between these strands stands in the middle of a line. -/
def Cuts (before after : List Strand) : Prop :=
  meetsLine before.reverse = true ∧ meetsLine after = true

def SameLines (forest forest' : List Statement) : Prop :=
  (outline 0 forest).map (fun row => (row.1, words row.2.text.toList)) =
    (outline 0 forest').map fun row => (row.1, words row.2.text.toList)

/-- Of two lines that follow each other in a block the second one continues the first. -/
def Joined (rows rows' : List (Nat × Location)) : Prop :=
  ∃ before after depth first second joined,
    rows = before ++ (depth, first) :: (depth, second) :: after ∧
    rows' = before ++ (depth, joined) :: after ∧ joined.number = first.number ∧
    words joined.text.toList = words first.text.toList ++ words second.text.toList

theorem Joined.append {rows rows' : List (Nat × Location)} (h : Joined rows rows')
    (more : List (Nat × Location)) : Joined (rows ++ more) (rows' ++ more) := by
  obtain ⟨before, after, depth, first, second, joined, rfl, rfl, hnumber, hwords⟩ := h
  exact ⟨before, after ++ more, depth, first, second, joined, by simp, by simp, hnumber, hwords⟩

theorem Joined.length {rows rows' : List (Nat × Location)} (h : Joined rows rows') :
    rows.length = rows'.length + 1 := by
  obtain ⟨before, after, depth, first, second, joined, rfl, rfl, -, -⟩ := h
  simp only [List.length_append, List.length_cons]
  omega

theorem not_sameLines_of_joined {forest forest' : List Statement}
    (h : Joined (outline 0 forest) (outline 0 forest')) : ¬ SameLines forest forest' := by
  intro hsame
  have hlength := congrArg List.length hsame
  rw [List.length_map, List.length_map, h.length] at hlength
  exact absurd hlength (Nat.succ_ne_self _)

/-! ## Readers that differ in two lines -/

structure Reader.Beside (r r' : Reader) : Prop where
  outline : Joined r.outline r'.outline
  depth : r.outer.length = r'.outer.length
  pending : r.pending.isSome = r'.pending.isSome

theorem Reader.Beside.addLine {r r' : Reader} (h : r.Beside r') (n : Nat) (run : List Char) :
    (r.addLine n run).Beside (r'.addLine n run) := by
  refine ⟨?_, h.depth, rfl⟩
  rw [outline_addLine, outline_addLine, h.depth]
  exact h.outline.append _

namespace Scan

/-- What is left of a comment in the middle of a line: with it a second line is read, with a
space for it the first one goes on; or both have ended. -/
inductive Merging : Scan → Scan → Prop
  | within {r : Reader} {m n k : Nat} {run spaces run' : List Char} :
      (∀ c ∈ spaces, isSpacing c = true) →
      Merging ⟨r.addLine m run, some (n, run'), k⟩ ⟨r, some (m, run ++ ' ' :: spaces ++ run'), k⟩
  | behind {r r' : Reader} {line : Option (Nat × List Char)} {k : Nat} : r.Beside r' →
      Merging ⟨r, line, k⟩ ⟨r', line, k⟩

variable {s s' t : Scan}

theorem Merging.number (h : Merging s s') : s.number = s'.number := by cases h <;> rfl

theorem Merging.ended (h : Merging s s') : s.ended.Beside s'.ended := by
  cases h with
  | @within r m n k run spaces run' hspaces =>
    refine ⟨?_, rfl, rfl⟩
    simp only [ended_some, Reader.outline_addLine, List.append_assoc]
    refine ⟨r.outline, [], r.outer.length, _, _, _, rfl, rfl, rfl, ?_⟩
    have hblanks : ∀ c ∈ spaces, isBlank c = true :=
      fun c hc => Text.isBlank_of_isSpacing (hspaces c hc)
    rw [String.toList_ofList, String.toList_ofList, String.toList_ofList, Text.words_trim,
      Text.words_trim, Text.words_trim, List.cons_append, Text.words_append rfl,
      Text.words_blanks_append hblanks]
  | @behind r r' line k hr =>
    cases line with
    | none => exact hr
    | some line => exact hr.addLine _ _

/-- What belongs to no line finds both in the same state. -/
theorem Merging.step (h : Merging s s') {x : Strand} (hfed : s.Fed x t) :
    ∃ t', s'.Fed x t' ∧ Merging t t' := by
  have hended := h.ended
  have hnumber := h.number
  cases hfed with
  | skipped hm hline hc =>
    cases h with
    | within _ => cases hline
    | behind hr => exact ⟨_, .skipped hm hline hc, .behind hr⟩
  | started hm hline hc =>
    cases h with
    | within _ => cases hline
    | behind hr => exact ⟨_, .started hm hline hc, .behind hr⟩
  | extended hm hline =>
    cases h with
    | within hspaces =>
      cases hline
      refine ⟨_, .extended hm rfl, ?_⟩
      rw [List.append_assoc _ _ [_]]
      exact .within hspaces
    | behind hr =>
      cases hline
      exact ⟨_, .extended hm rfl, .behind hr⟩
  | commented =>
    refine ⟨_, .commented, ?_⟩
    rw [hnumber]
    exact .behind hended
  | lineEnd hc =>
    refine ⟨_, .lineEnd hc, ?_⟩
    rw [hnumber]
    exact .behind hended
  | semicolon =>
    refine ⟨_, .semicolon, ?_⟩
    rw [hnumber]
    exact .behind ⟨hended.outline, hended.depth, rfl⟩
  | opened howner =>
    have howner' : s'.ended.pending.isSome = true := by rw [← hended.pending, howner]; rfl
    obtain ⟨owner', howner'⟩ := Option.isSome_iff_exists.mp howner'
    refine ⟨_, .opened howner', ?_⟩
    rw [hnumber]
    refine .behind ⟨?_, congrArg (· + 1) hended.depth, rfl⟩
    rw [Reader.outline_opened howner, Reader.outline_opened howner']
    exact hended.outline
  | closed houter =>
    have hdepth := hended.depth
    rw [houter, List.length_cons] at hdepth
    obtain ⟨frame', outer', houter'⟩ := List.exists_cons_of_length_eq_add_one hdepth.symm
    rw [houter', List.length_cons] at hdepth
    refine ⟨_, .closed houter', ?_⟩
    rw [hnumber]
    refine .behind ⟨?_, Nat.succ.inj hdepth, rfl⟩
    rw [Reader.outline_closed houter, Reader.outline_closed houter']
    exact hended.outline

theorem Merging.through {xs : List Strand} (h : Merging s s') (ht : s.through xs = some t) :
    ∃ t', s'.through xs = some t' ∧ Merging t t' := by
  induction xs generalizing s s' with
  | nil =>
    cases ht
    exact ⟨s', rfl, h⟩
  | cons x xs ih =>
    obtain ⟨s₁, hs₁, ht⟩ := Option.bind_eq_some_iff.mp ht
    obtain ⟨s₁', hfed, h₁⟩ := h.step (fed_of_feed hs₁)
    obtain ⟨t', ht', h'⟩ := ih h₁ ht
    exact ⟨t', by rw [through_cons, feed_of_fed hfed, Option.bind_some, ht'], h'⟩

end Scan

/-! ## A space for a comment -/

section

variable {s s' t : Scan} {xs ys : List Strand}

/-- A line is open where the last strand that is neither a space nor a tab is one of its
characters. -/
theorem line_of_through (h : Scan.start.through xs = some s) :
    s.line.isSome = meetsLine xs.reverse := by
  refine Scan.through_invariant (P := fun xs s => s.line.isSome = meetsLine xs.reverse) ?_ rfl h
  intro xs s x s' hs hfed
  rw [List.reverse_append, List.reverse_singleton, List.singleton_append]
  cases hfed with
  | skipped hm _ hc => rw [meetsLine, if_pos hc, hs]
  | started hm _ hc => rw [meetsLine, if_neg (by simp [hc]), hm]; rfl
  | @extended c _ _ hm hline =>
    rw [hline] at hs
    rw [meetsLine, hm, ← hs]
    cases isSpacing c <;> rfl
  | commented => rfl
  | @lineEnd c hc =>
    rcases (by simpa [endsLine] using hc : c = '\n' ∨ c = '\r') with rfl | rfl <;> rfl
  | semicolon => rfl
  | opened _ => rfl
  | closed _ => rfl

/-- Where the line has ended nothing tells whether it was open before. -/
theorem feed_congr {x : Strand} (hended : s.ended = s'.ended) (hnumber : s.number = s'.number)
    (hx : ∀ c, x = .char c → mark? c ≠ none) : s.feed x = s'.feed x := by
  cases x with
  | char c =>
    obtain ⟨token, hm⟩ := Option.ne_none_iff_exists'.mp (hx c rfl)
    rw [Scan.feed_mark hm s .first, Scan.feed_mark hm s' .first, hended, hnumber]
  | comment t => rw [Scan.feed, Scan.feed, hended, hnumber]
  | unclosed t => rfl

/-- Where two scans tell nothing of how they differ, no other strands do. -/
theorem through_congr {x : Strand} (hended : s.ended = s'.ended) (hnumber : s.number = s'.number)
    (hx : ∀ c, x = .char c → mark? c ≠ none) : s.through (x :: xs) = s'.through (x :: xs) := by
  rw [through_cons, through_cons, feed_congr hended hnumber hx]

/-- Spaces at the end of a line are not part of it. -/
theorem ended_spaced (r : Reader) (m k : Nat) (run : List Char) {spaces : List Char}
    (hspaces : ∀ c ∈ spaces, isSpacing c = true) :
    Scan.ended ⟨r, some (m, run ++ ' ' :: spaces), k⟩ = r.addLine m run := by
  have hblanks : ∀ c ∈ ' ' :: spaces, isBlank c = true :=
    List.forall_mem_cons.mpr ⟨rfl, fun c hc => Text.isBlank_of_isSpacing (hspaces c hc)⟩
  rw [Scan.ended_some, Reader.addLine, Reader.addLine, Text.trim_append_blanks hblanks]

/-- Behind a comment that ended a line, and behind the space for it. -/
theorem through_spaced {r : Reader} {m k : Nat} {run spaces : List Char}
    (hspaces : ∀ c ∈ spaces, isSpacing c = true)
    (h : Scan.through ⟨r.addLine m run, none, k⟩ ys = some t) :
    ∃ t', Scan.through ⟨r, some (m, run ++ ' ' :: spaces), k⟩ ys = some t' ∧
      if meetsLine ys then t.Merging t' else t.ended = t'.ended := by
  fun_induction meetsLine ys generalizing spaces with
  | case1 c ys hc ih =>
    have hskipped : Scan.Fed ⟨r.addLine m run, none, k⟩ (.char c) ⟨r.addLine m run, none, k⟩ :=
      .skipped (mark?_of_isSpacing hc) rfl hc
    have hextended := @Scan.Fed.extended ⟨r, some (m, run ++ ' ' :: spaces), k⟩ c _ _
      (mark?_of_isSpacing hc) rfl
    rw [through_cons, Scan.feed_of_fed hskipped, Option.bind_some] at h
    rw [through_cons, Scan.feed_of_fed hextended, Option.bind_some, List.append_assoc]
    have hspaces' : ∀ d ∈ spaces ++ [c], isSpacing d = true := by
      intro d hd
      rcases List.mem_append.mp hd with hd | hd
      · exact hspaces d hd
      · rwa [List.mem_singleton.mp hd]
    exact ih hspaces' h
  | case2 c ys hc =>
    cases hm : mark? c with
    | some token =>
      refine ⟨t, ?_, rfl⟩
      rw [← h]
      exact through_congr (ended_spaced r m k run hspaces) rfl fun d hd => by cases hd; simp [hm]
    | none =>
      -- behind the comment a line starts, behind the space the one before it goes on
      have hstarted : Scan.Fed ⟨r.addLine m run, none, k⟩ (.char c)
          ⟨r.addLine m run, some (k, [c]), k⟩ := .started hm rfl (by simpa using hc)
      have hextended := @Scan.Fed.extended ⟨r, some (m, run ++ ' ' :: spaces), k⟩ c _ _ hm rfl
      rw [through_cons, Scan.feed_of_fed hstarted, Option.bind_some] at h
      rw [through_cons, Scan.feed_of_fed hextended, Option.bind_some]
      exact (Scan.Merging.within hspaces).through h
  | case3 ys hne =>
    cases ys with
    | nil =>
      cases h
      exact ⟨_, rfl, (ended_spaced r m k run hspaces).symm⟩
    | cons x ys =>
      refine ⟨t, ?_, rfl⟩
      rw [← h]
      exact through_congr (ended_spaced r m k run hspaces) rfl
        fun c hc => absurd (congrArg (· :: ys) hc) (hne c ys)

instance (before after : List Strand) : Decidable (Cuts before after) :=
  inferInstanceAs (Decidable (_ ∧ _))

/-- Behind a text with a comment in it, and behind the same with a space there. -/
theorem through_space {before after : List Strand} {comment : List Char}
    (hline : '\n' ∉ comment)
    (h : Scan.start.through (before ++ .comment comment :: after) = some t) :
    ∃ t', Scan.start.through (before ++ .char ' ' :: after) = some t' ∧
      if Cuts before after then t.Merging t' else t.ended = t'.ended := by
  rw [through_append] at h
  obtain ⟨s, hs, h⟩ := Option.bind_eq_some_iff.mp h
  have hopen := line_of_through hs
  rw [through_append, hs, Option.bind_some]
  obtain ⟨r, line, k⟩ := s
  rw [through_cons, Scan.feed, Option.bind_some, List.count_eq_zero.mpr hline] at h
  cases line with
  | none =>
    have hfed : Scan.Fed ⟨r, none, k⟩ (.char ' ') ⟨r, none, k⟩ := .skipped rfl rfl rfl
    have hcuts : ¬ Cuts before after := fun hcuts => Bool.false_ne_true (hopen.trans hcuts.1)
    rw [through_cons, Scan.feed_of_fed hfed]
    exact ⟨t, h, by rw [if_neg hcuts]⟩
  | some line =>
    obtain ⟨m, run⟩ := line
    have hfed : Scan.Fed ⟨r, some (m, run), k⟩ (.char ' ') ⟨r, some (m, run ++ [' ']), k⟩ :=
      .extended rfl rfl
    have hcuts : Cuts before after ↔ meetsLine after = true := and_iff_right hopen.symm
    rw [through_cons, Scan.feed_of_fed hfed, Option.bind_some]
    simp only [hcuts]
    have hspaces : ∀ c ∈ ([] : List Char), isSpacing c = true := List.forall_mem_nil _
    exact through_spaced hspaces h

/-- The strands of a text with a space for a comment. -/
theorem strands_space {cs : List Char} {before after : List Strand} {comment : List Char}
    (h : strands cs = before ++ .comment comment :: after) :
    strands (spell before ++ ' ' :: spell after) = before ++ .char ' ' :: after := by
  have hcomment : strands cs = before ++ [.comment comment] ++ after := by
    rw [h, List.append_assoc]
    rfl
  have hafter := strands_spell hcomment
  have hnot : ¬ LineOver (spell (.comment comment :: after)) := by
    obtain ⟨rest, hcomment, -⟩ := of_strands_comment (strands_spell h)
    exact Text.not_lineOver_of_comment? hcomment
  rw [strands_append h (by simp) (by simp) fun hover => absurd hover hnot,
    strands_char rfl, hafter]

end

/-- With a space for a comment the same is read, unless the comment cuts a line in two. -/
theorem sameLines_iff_not_cuts {text : String} {forest : List Statement}
    {before after : List Strand} {comment : List Char} (h : read text = .ok forest)
    (hstrands : strands text.toList = before ++ .comment comment :: after)
    (hline : '\n' ∉ comment) :
    ∃ forest', read (.ofList (spell before ++ ' ' :: spell after)) = .ok forest' ∧
      (SameLines forest forest' ↔ ¬ Cuts before after) ∧
      (¬ Cuts before after → forest' = forest) ∧
      (Cuts before after → Joined (outline 0 forest) (outline 0 forest')) := by
  obtain ⟨s, hs, houter, rfl⟩ := read_eq_ok_iff.mp h
  rw [hstrands] at hs
  obtain ⟨s', hs', hcases⟩ := through_space hline hs
  have hread : ∀ forest', s'.ended.outer = [] → s'.ended.settled.reverse = forest' →
      read (.ofList (spell before ++ ' ' :: spell after)) = .ok forest' := by
    intro forest' houter' hforest'
    refine read_eq_ok_iff.mpr ⟨s', ?_, houter', hforest'⟩
    rw [String.toList_ofList, strands_space hstrands]
    exact hs'
  by_cases hcuts : Cuts before after
  · rw [if_pos hcuts] at hcases
    have hbeside := hcases.ended
    have hdepth := hbeside.depth
    rw [houter] at hdepth
    have houter' : s'.ended.outer = [] := List.eq_nil_of_length_eq_zero hdepth.symm
    have hjoined := hbeside.outline
    rw [Reader.outline, Reader.outline, houter, houter'] at hjoined
    exact ⟨_, hread _ houter' rfl,
      iff_of_false (not_sameLines_of_joined hjoined) (not_not_intro hcuts),
      (fun hnot => absurd hcuts hnot), fun _ => hjoined⟩
  · rw [if_neg hcuts] at hcases
    exact ⟨_, hread _ (hcases ▸ houter) (hcases ▸ rfl), iff_of_true rfl hcuts, fun _ => rfl,
      fun h => absurd h hcuts⟩

/-- A comment between a line and its block cuts nothing. -/
theorem sameLines_iff_not_cuts_block : ∃ forest,
    read "Pass /* glow */ \x7b Tint \x7d" = .ok forest ∧
    strands "Pass /* glow */ \x7b Tint \x7d".toList = "Pass ".toList.map .char ++
      .comment "/* glow */".toList :: " \x7b Tint \x7d".toList.map .char ∧
    read "Pass   \x7b Tint \x7d" = .ok forest := by
  have hsome : (read "Pass /* glow */ \x7b Tint \x7d").toOption.map (fun _ => ()) = some () := by
    decide +kernel
  obtain ⟨forest, h, -⟩ := exists_of_toOption_map hsome
  have hstrands : strands "Pass /* glow */ \x7b Tint \x7d".toList = "Pass ".toList.map .char ++
      .comment "/* glow */".toList :: " \x7b Tint \x7d".toList.map .char := by
    decide +kernel
  obtain ⟨forest', h', -, hsame, -⟩ := sameLines_iff_not_cuts h hstrands (by decide)
  cases hsame (by decide)
  exact ⟨forest, h, hstrands, h'⟩

def Transparent (text : String) : Prop :=
  ∀ forest before after comment, read text = .ok forest →
    strands text.toList = before ++ .comment comment :: after → ['/', '*'] <+: comment →
    '\n' ∉ comment → ∃ forest', read (.ofList (spell before ++ ' ' :: spell after)) = .ok forest' ∧
      SameLines forest forest'

/-- A comment between two words makes two statements of their line. -/
theorem comment_cuts_line : ¬ Transparent "Color /* tint */ Diffuse" := by
  have hstrands : strands "Color /* tint */ Diffuse".toList = "Color ".toList.map .char ++
      .comment "/* tint */".toList :: " Diffuse".toList.map .char := by
    decide +kernel
  have hcut : read "Color /* tint */ Diffuse" = .ok [⟨⟨1, "Color"⟩, []⟩, ⟨⟨1, "Diffuse"⟩, []⟩] :=
    read_eq_ok_iff.mpr ⟨_, by rw [hstrands]; rfl, rfl, rfl⟩
  have hspaced : read "Color   Diffuse" = .ok [⟨⟨1, "Color   Diffuse"⟩, []⟩] := by
    have hstrands : strands "Color   Diffuse".toList = "Color   Diffuse".toList.map .char := by
      decide +kernel
    exact read_eq_ok_iff.mpr ⟨_, by rw [hstrands]; rfl, rfl, rfl⟩
  intro h
  obtain ⟨forest', h', hsame⟩ := h _ _ _ _ hcut hstrands (by decide) (by decide)
  have htext : String.ofList (spell ("Color ".toList.map .char) ++
      ' ' :: spell (" Diffuse".toList.map .char)) = "Color   Diffuse" := by
    decide +kernel
  rw [htext, hspaced] at h'
  cases h'
  simp [SameLines, outline, rows] at hsame

end ShaderGraph.Block
