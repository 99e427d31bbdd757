/-
  ShaderGraph.Proofs.Spans — the words of a condition, and the bytes they stand at.

  - `exists_reads_condition`: the rule of a condition reads every text to its end, and the
    identifiers that it reads are the words that are found.
  - `Tokenizes.identifier_run`, `Lexes.kind_of_isWordChar`: an identifier ends where the run of
    word characters does, on both sides, and only a comment holds word characters besides.
  - `exists_wordsOf`: so the words of any text are cut out of it at boundaries of characters, one
    behind the other, and only comments between tokens are passed over.
-/

import ShaderGraph.Proofs.Grammar

namespace ShaderGraph

open Text (isWordChar isSpacing gap comment? LineOver)
open Condition (Piece Word pieces wordsFrom isOperatorChar IsWord WordOver)

def Text.bytes (cs : List Char) : Nat := (String.ofList cs).utf8ByteSize

theorem Text.bytes_append (a b : List Char) : bytes (a ++ b) = bytes a + bytes b := by
  rw [bytes, String.ofList_append, String.utf8ByteSize_append]
  rfl

theorem Text.bytes_pos {cs : List Char} (h : cs ≠ []) : 0 < bytes cs := by
  rw [bytes, Nat.pos_iff_ne_zero]
  simpa using h

namespace Grammar

open Text (bytes bytes_append bytes_pos)

/-! ## The rule -/

def item : Expr := .either identifier operator

def condition : Expr := .seq skip (.seq item.spacedMany closing)

/-- An identifier is a word, and every other token stands between words. -/
def Token.piece (t : Token) : Piece :=
  if t.kind = .identifier then .word t.text else .filler t.text

section

variable {cs mid rest : List Char} {tokens : List Token} {offset : Nat}

theorem wordsFrom_gap (h : IsGap tokens) (offset : Nat) (ps : List Piece) :
    wordsFrom offset (tokens.map Token.piece ++ ps) =
      wordsFrom (offset + bytes (spell tokens)) ps := by
  induction tokens generalizing offset with
  | nil => rfl
  | cons t tokens ih =>
    obtain ⟨ht, htokens⟩ := List.forall_mem_cons.mp h
    have hpiece : t.piece = .filler t.text := by
      rcases ht with hk | hk <;> simp [Token.piece, hk]
    rw [List.map_cons, hpiece, List.cons_append, spell_cons, bytes_append, ← Nat.add_assoc,
      ← ih htokens]
    rfl

theorem item_nil : Reads item [] none := (identifier_fails rfl).either_second (operator_fails rfl)

theorem wordsFrom_cons_congr {ps qs : List Piece} (h : ∀ o, wordsFrom o ps = wordsFrom o qs)
    (p : Piece) (offset : Nat) : wordsFrom offset (p :: ps) = wordsFrom offset (p :: qs) := by
  cases p with
  | word text => simp only [wordsFrom, h]
  | filler text => exact h _

/-- The text is read to its end, with the words of the pieces for identifiers. -/
def ReadAs (cs : List Char) (ps : List Piece) : Prop := ∃ tokens,
  Reads (.seq (.many (.seq skip item)) closing) cs (some (tokens, [])) ∧
    Tokenizes cs tokens [] ∧
    ∀ offset, wordsFrom offset (tokens.map Token.piece) = wordsFrom offset ps

theorem readAs_gap (h : (gap cs).2 = []) : ReadAs cs [.filler (gap cs).1] := by
  obtain ⟨tokens, hskip, htokens, hgap⟩ := exists_reads_skip cs
  rw [h] at hskip htokens
  have hover : Reads (.many (.seq skip item)) cs (some ([], cs)) := .many_over (hskip.seq item_nil)
  refine ⟨tokens, hover.seq (reads_closing hskip), htokens, fun offset => ?_⟩
  have hwords := wordsFrom_gap hgap offset []
  rwa [List.append_nil] at hwords

theorem ReadAs.item {t : Token} {ps : List Piece} (h : ReadAs mid ps)
    (hitem : Reads item (gap cs).2 (some ([t], mid))) (ht : Lexes (gap cs).2 t mid) :
    ReadAs cs (.filler (gap cs).1 :: t.piece :: ps) := by
  obtain ⟨before, hskip, htokens, hgap⟩ := exists_reads_skip cs
  obtain ⟨more, hmore, hmoreTokens, hwords⟩ := h
  have hspell : spell before = (gap cs).1 :=
    List.append_cancel_right ((hskip.spelled _ rfl).trans (Text.gap_append cs).symm)
  have hboth := (htokens.append (.more ht (.done mid))).append hmoreTokens
  refine ⟨_, (hskip.seq hitem).more hmore, hboth, fun offset => ?_⟩
  rw [List.map_append, List.map_append, List.append_assoc, wordsFrom_gap hgap, hspell]
  exact wordsFrom_cons_congr hwords t.piece _

/-- Every text is read to its end, and the words are found where the identifiers are. -/
theorem readAs_pieces (cs : List Char) : ReadAs cs (pieces cs) := by
  fun_induction pieces cs with
  | case1 cs h => exact readAs_gap h
  | case2 cs c rest h hc ih =>
    have hne : (c :: rest).takeWhile isWordChar ≠ [] := by simp [hc]
    have hreads := reads_identifier hne
    have htoken := Lexes.identifier hne
    rw [List.takeWhile_cons_of_pos hc, List.dropWhile_cons_of_pos hc] at hreads htoken
    exact ih.item (h ▸ hreads.either_first) (h ▸ htoken)
  | case3 cs c rest h hc ih =>
    have hop : isOperatorChar c = true := by
      simp [isOperatorChar, hc, (Text.of_gap_eq_cons h).1]
    have hover : WordOver (c :: rest) := by simp [WordOver, hc]
    have hne : (c :: rest).takeWhile isOperatorChar ≠ [] := by simp [hop]
    have hreads := (identifier_fails hover).either_second (reads_operator hne)
    have htoken := Lexes.operator hne
    rw [List.takeWhile_cons_of_pos hop, List.dropWhile_cons_of_pos hop] at hreads htoken
    exact ih.item (h ▸ hreads) (h ▸ htoken)

/-- The rule of a condition reads every text to its end. -/
theorem exists_reads_condition (cs : List Char) : ∃ tokens,
    Reads condition cs (some (tokens, [])) ∧ Tokenizes cs tokens [] ∧
      ∀ offset, wordsFrom offset (tokens.map Token.piece) = wordsFrom offset (pieces cs) := by
  obtain ⟨tokens, hreads, htokens, hwords⟩ := readAs_pieces cs
  exact ⟨tokens, hreads.spaced, htokens, hwords⟩

/-! ## Where tokens end -/

theorem Lexes.spelled {t : Token} (h : Lexes cs t rest) : t.text ++ rest = cs := by
  cases h with
  | spacing => rfl
  | comment h => exact (Text.eq_of_comment? h).1.symm
  | identifier => exact List.takeWhile_append_dropWhile
  | operator => exact List.takeWhile_append_dropWhile

theorem Tokenizes.spelled (h : Tokenizes cs tokens rest) : spell tokens ++ rest = cs := by
  induction h with
  | done => rfl
  | more ht _ ih => rw [spell_cons, List.append_assoc, ih, ht.spelled]

/-- Each of the tokens is what the text starts with behind those in front of it. -/
theorem Tokenizes.at {left right : List Token} {t : Token}
    (h : Tokenizes cs (left ++ t :: right) []) :
    ∃ mid, Tokenizes cs left mid ∧ Lexes mid t (spell right) := by
  induction left generalizing cs with
  | nil =>
    obtain _ | ⟨ht, h⟩ := h
    have hrest := h.spelled
    rw [List.append_nil] at hrest
    exact ⟨cs, .done cs, hrest ▸ ht⟩
  | cons s left ih =>
    obtain _ | ⟨hs, h⟩ := h
    obtain ⟨mid, hleft, ht⟩ := ih h
    exact ⟨mid, .more hs hleft, ht⟩

abbrev WordEnds (cs : List Char) : Prop := ∀ c ∈ cs.getLast?, isWordChar c = false

theorem wordEnds_append {a b : List Char} (ha : b = [] → WordEnds a) (hb : WordEnds b) :
    WordEnds (a ++ b) := by
  intro c hc
  rw [List.getLast?_append] at hc
  cases hlast : b.getLast? with
  | none =>
    rw [hlast, Option.none_or] at hc
    exact ha (List.getLast?_eq_none_iff.mp hlast) c hc
  | some d =>
    rw [hlast, Option.some_or] at hc
    exact hb c (hlast.trans hc)

/-- A comment ends with no word character, unless its line ends with it. -/
theorem wordEnds_comment {t : List Char} (h : comment? cs = some (t, rest)) :
    LineOver rest ∨ WordEnds t := by
  unfold comment? at h
  split at h
  · next cs =>
    obtain ⟨-, rfl⟩ := by simpa using h
    exact Or.inl (Text.takeWhile_dropWhile _ cs)
  · next cs =>
    obtain ⟨⟨inside, rest⟩, -, heq⟩ := Option.map_eq_some_iff.mp h
    cases heq
    exact Or.inr (wordEnds_append (fun h => nomatch h) fun c hc => by cases hc; rfl)
  · cases h

/-- A line that is over goes on with no word. -/
theorem wordOver_of_lineOver (h : LineOver cs) : WordOver cs := by
  cases cs with
  | nil => rfl
  | cons c cs =>
    have hc : isWordChar c = false := by
      rcases (by simpa [Text.endsLine] using Text.endsLine_of_lineOver h : c = '\n' ∨ c = '\r')
        with rfl | rfl <;> rfl
    simp [WordOver, hc]

/-- A token in front of a word character ends with none. -/
theorem Lexes.wordEnds {t : Token} (h : Lexes cs t rest) (hrest : ¬ WordOver rest) :
    WordEnds t.text := by
  cases h with
  | spacing hc =>
    intro c hlast
    cases hlast
    exact Condition.not_isWordChar_of_isSpacing hc
  | comment h => exact (wordEnds_comment h).resolve_left (hrest ∘ wordOver_of_lineOver)
  | identifier => exact absurd (Text.takeWhile_dropWhile isWordChar cs) hrest
  | operator =>
    intro c hlast
    exact Condition.not_isWordChar_of_isOperatorChar
      (List.all_eq_true.mp List.all_takeWhile c (List.mem_of_getLast? hlast))

theorem Tokenizes.wordEnds (h : Tokenizes cs tokens rest) (hrest : ¬ WordOver rest) :
    WordEnds (spell tokens) := by
  induction h with
  | done => simp [WordEnds]
  | @more cs t mid tokens rest ht h ih =>
    refine wordEnds_append (fun (hnil : spell tokens = []) => ?_) (ih hrest)
    obtain rfl : rest = mid := by simpa [hnil] using h.spelled
    exact ht.wordEnds hrest

/-- Word characters are nowhere but in identifiers and comments. -/
theorem Lexes.kind_of_isWordChar {t : Token} {c : Char} (h : Lexes cs t rest) (hc : c ∈ t.text)
    (hword : isWordChar c = true) : t.kind = .identifier ∨ t.kind = .comment := by
  cases h with
  | spacing hs =>
    obtain rfl := List.mem_singleton.mp hc
    rw [Condition.not_isWordChar_of_isSpacing hs] at hword
    cases hword
  | comment => exact Or.inr rfl
  | identifier => exact Or.inl rfl
  | operator =>
    have hop := List.all_eq_true.mp List.all_takeWhile c hc
    rw [Condition.not_isWordChar_of_isOperatorChar hop] at hword
    cases hword

end

section

variable {cs w t : List Char} {left right tokens : List Token} {c : Char} {offset : Nat}

/-- An identifier is a whole run of word characters. -/
theorem Tokenizes.identifier_run (h : Tokenizes cs (left ++ ⟨.identifier, w⟩ :: right) []) :
    IsWord w ∧ WordEnds (spell left) ∧ WordOver (spell right) := by
  obtain ⟨mid, hleft, hmid⟩ := h.at
  generalize hright : spell right = rest at hmid ⊢
  cases hmid with
  | identifier hne =>
    exact ⟨⟨hne, List.all_eq_true.mp List.all_takeWhile⟩, hleft.wordEnds hne,
      Text.takeWhile_dropWhile isWordChar mid⟩

theorem Tokenizes.comment_opens (h : Tokenizes cs (left ++ ⟨.comment, t⟩ :: right) []) :
    comment? (t ++ spell right) = some (t, spell right) := by
  obtain ⟨mid, -, hmid⟩ := h.at
  cases hmid with
  | comment h => rwa [← (Text.eq_of_comment? h).1]

/-! ## The bytes of the tokens -/

theorem words_cons (offset : Nat) (t : Token) (tokens : List Token) :
    wordsFrom offset ((t :: tokens).map Token.piece) =
      (if t.kind = .identifier then [⟨.ofList t.text, offset, offset + bytes t.text⟩] else []) ++
        wordsFrom (offset + bytes t.text) (tokens.map Token.piece) := by
  rw [List.map_cons, Token.piece]
  split <;> rfl

/-- A word is an identifier, at the bytes behind the tokens in front of it. -/
theorem mem_words_iff {v : Word} : v ∈ wordsFrom offset (tokens.map Token.piece) ↔
    ∃ left w right, tokens = left ++ ⟨.identifier, w⟩ :: right ∧
      v = ⟨.ofList w, offset + bytes (spell left), offset + bytes (spell left) + bytes w⟩ := by
  induction tokens generalizing offset with
  | nil => simp [wordsFrom]
  | cons t tokens ih =>
    rw [words_cons, List.mem_append, ih]
    constructor
    · rintro (hv | ⟨left, w, right, rfl, rfl⟩)
      · split at hv
        · next hk =>
          obtain rfl := List.mem_singleton.mp hv
          exact ⟨[], t.text, tokens, by rw [← hk]; rfl, rfl⟩
        · cases hv
      · exact ⟨t :: left, w, right, rfl, by simp only [spell_cons, bytes_append, Nat.add_assoc]⟩
    · rintro ⟨left, w, right, heq, rfl⟩
      cases left with
      | nil =>
        cases heq
        exact Or.inl (List.mem_singleton.mpr rfl)
      | cons _ left =>
        cases heq
        exact Or.inr ⟨left, w, right, rfl,
          by simp only [spell_cons, bytes_append, Nat.add_assoc]⟩

/-- No word starts before the one in front of it has stopped. -/
theorem words_ordered (offset : Nat) (ps : List Piece) :
    (∀ v ∈ wordsFrom offset ps, offset ≤ v.start) ∧
      (wordsFrom offset ps).Pairwise fun v w => v.stop ≤ w.start := by
  induction ps generalizing offset with
  | nil => simp [wordsFrom]
  | cons p ps ih =>
    obtain ⟨hfrom, hordered⟩ := ih (offset + bytes p.text)
    cases p with
    | filler text =>
      exact ⟨fun v hv => Nat.le_of_add_right_le (hfrom v hv), hordered⟩
    | word text =>
      refine ⟨List.forall_mem_cons.mpr ⟨Nat.le_refl _, fun v hv => ?_⟩,
        List.pairwise_cons.mpr ⟨hfrom, hordered⟩⟩
      exact Nat.le_of_add_right_le (hfrom v hv)

/-- A character stands in one of the tokens. -/
theorem exists_token_at {before after : List Char} (h : spell tokens = before ++ c :: after) :
    ∃ left t right, tokens = left ++ t :: right ∧ c ∈ t.text ∧
      bytes (spell left) ≤ bytes before ∧ bytes before < bytes (spell left) + bytes t.text := by
  induction tokens generalizing before with
  | nil => simp at h
  | cons t tokens ih =>
    rw [spell_cons] at h
    -- The character is behind the first token, or in it.
    have hsplit : (∃ u, before = t.text ++ u ∧ spell tokens = u ++ c :: after) ∨
        ∃ v, t.text = before ++ c :: v := by
      obtain hbehind | ⟨inside, htext, hinside⟩ := List.append_eq_append_iff.mp h
      · exact Or.inl hbehind
      · cases inside with
        | nil => exact Or.inl ⟨[], by simp [htext], hinside.symm⟩
        | cons d inside =>
          cases hinside
          exact Or.inr ⟨inside, htext⟩
    obtain ⟨u, rfl, hrest⟩ | ⟨v, htext⟩ := hsplit
    · obtain ⟨left, s, right, rfl, hc, hfrom, hto⟩ := ih hrest
      refine ⟨t :: left, s, right, rfl, hc, ?_⟩
      rw [spell_cons, bytes_append, bytes_append]
      omega
    · refine ⟨[], t, tokens, rfl, by simp [htext], Nat.zero_le _, ?_⟩
      have hpos : 0 < bytes (c :: v) := bytes_pos (List.cons_ne_nil c v)
      rw [htext, bytes_append]
      omega

end

/-! ## The words of a text -/

/-- The word is cut out of the text at boundaries of characters, and is a whole run of word
characters there. -/
structure StandsIn (text : String) (w : Word) : Prop where
  isWord : IsWord w.text.toList
  slice : ∃ first past : text.Pos, first < past ∧
    first.offset.byteIdx = w.start ∧ past.offset.byteIdx = w.stop ∧
    text.extract first past = w.text
  maximal : ∃ before after, text = before ++ w.text ++ after ∧ before.utf8ByteSize = w.start ∧
    WordEnds before.toList ∧ WordOver after.toList

def InComment (tokens : List Token) (byte : Nat) : Prop := ∃ left t right,
  tokens = left ++ ⟨.comment, t⟩ :: right ∧ comment? (t ++ spell right) = some (t, spell right) ∧
    bytes (spell left) ≤ byte ∧ byte < bytes (spell left) + bytes t

/-- The words are the identifiers among the tokens that the text is read as, and every word
character is in one of them unless a comment holds it. -/
structure WordsOf (text : String) (tokens : List Token) (words : List Word) : Prop where
  reads : Reads condition text.toList (some (tokens, []))
  identifiers : words = wordsFrom 0 (tokens.map Token.piece)
  stands : ∀ w ∈ words, StandsIn text w
  ordered : words.Pairwise fun v w => v.start < w.start ∧ v.stop ≤ w.start
  covered : ∀ before c after, text.toList = before ++ c :: after → isWordChar c = true →
    (∃ w ∈ words, w.start ≤ bytes before ∧ bytes before < w.stop) ∨ InComment tokens (bytes before)

section

variable {text : String} {tokens : List Token} {w : Word}

theorem exists_slice {text before word after : String} (h : text = before ++ word ++ after)
    (hword : word ≠ "") : ∃ first past : text.Pos, first < past ∧
      first.offset.byteIdx = before.utf8ByteSize ∧
      past.offset.byteIdx = before.utf8ByteSize + word.utf8ByteSize ∧
      text.extract first past = word := by
  have hfirst : text = before ++ (word ++ after) := by rw [h, String.append_assoc]
  have hbefore := String.Pos.splits_ofEqAppend hfirst
  have hbehind := String.Pos.splits_ofEqAppend h
  obtain ⟨hle, hcopy⟩ := String.copy_slice_eq_iff_splits.mpr ⟨before, after, hbefore, hbehind⟩
  have hstart := congrArg String.Pos.Raw.byteIdx hbefore.offset_eq_rawEndPos
  have hstop := congrArg String.Pos.Raw.byteIdx hbehind.offset_eq_rawEndPos
  rw [String.byteIdx_rawEndPos] at hstart hstop
  rw [String.utf8ByteSize_append] at hstop
  refine ⟨_, _, ?_, hstart, hstop, (String.extract_eq_copy_slice _ _ hle).trans hcopy⟩
  have hpos : 0 < word.utf8ByteSize := by
    rw [Nat.pos_iff_ne_zero]
    exact hword ∘ String.utf8ByteSize_eq_zero_iff.mp
  rw [String.Pos.lt_iff, String.Pos.Raw.lt_iff, hstart, hstop]
  omega

theorem StandsIn.start_lt (h : StandsIn text w) : w.start < w.stop := by
  obtain ⟨first, past, hlt, hstart, hstop, -⟩ := h.slice
  rwa [← hstart, ← hstop]

/-- An identifier stands where the tokens in front of it end. -/
theorem Tokenizes.standsIn {left right : List Token} {w : List Char}
    (h : Tokenizes text.toList (left ++ ⟨.identifier, w⟩ :: right) []) :
    StandsIn text ⟨.ofList w, bytes (spell left), bytes (spell left) + bytes w⟩ := by
  obtain ⟨hw, hends, hover⟩ := h.identifier_run
  have htext : text = .ofList (spell left) ++ .ofList w ++ .ofList (spell right) := by
    rw [← String.ofList_toList (s := text), ← h.spelled]
    simp [String.append_assoc]
  have hne : String.ofList w ≠ "" := by simpa using hw.nonempty
  exact ⟨by simpa using hw, exists_slice htext hne,
    ⟨_, _, htext, rfl, by simpa using hends, by simpa using hover⟩⟩

/-- Any text is read to its end, and its words are found where they stand. -/
theorem exists_wordsOf (text : String) : ∃ tokens, WordsOf text tokens (Condition.words text) := by
  obtain ⟨tokens, hreads, htokens, hwords⟩ := exists_reads_condition text.toList
  have hfound : Condition.words text = wordsFrom 0 (tokens.map Token.piece) := (hwords 0).symm
  have hstands : ∀ w ∈ Condition.words text, StandsIn text w := by
    intro w hw
    rw [hfound] at hw
    obtain ⟨left, t, right, rfl, rfl⟩ := mem_words_iff.mp hw
    rw [Nat.zero_add]
    exact htokens.standsIn
  refine ⟨tokens, hreads, hfound, hstands, ?_, fun before c after htext hc => ?_⟩
  · exact (words_ordered 0 _).2.imp_of_mem fun hv _ hstop =>
      ⟨(hstands _ hv).start_lt.trans_le hstop, hstop⟩
  · rw [← htokens.spelled, List.append_nil] at htext
    obtain ⟨left, t, right, rfl, hmem, hfrom, hto⟩ := exists_token_at htext
    obtain ⟨mid, -, hlex⟩ := htokens.at
    obtain ⟨kind, t⟩ := t
    obtain rfl | rfl := hlex.kind_of_isWordChar hmem hc
    · rw [hfound]
      refine Or.inl ⟨_, mem_words_iff.mpr ⟨left, t, right, rfl, rfl⟩, ?_⟩
      rw [Nat.zero_add]
      exact ⟨hfrom, hto⟩
    · exact Or.inr ⟨left, t, right, rfl, htokens.comment_opens, hfrom, hto⟩

end

-- A comment that starts inside a run of operators is read as operators, up to the next space.
example : Condition.words "é+/* Lit */ /* Fog */" = [⟨"Lit", 6, 9⟩] := by decide +kernel

end Grammar

end ShaderGraph
