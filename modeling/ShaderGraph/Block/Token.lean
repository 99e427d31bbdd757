/-
  ShaderGraph.Block.Token — the tokens of the block language and where they stand.

  A text is a sequence of tokens with gaps (spaces, tabs, comments) between them: the
  braces, `;`, line ends, and lines. A line is the longest run of other characters that
  starts no comment; its blanks at either end do not belong to it. A comment that is
  never closed cannot be passed over, so it ends the sequence as a token of its own.

  Positions count from 1. Only a line feed starts a new line; columns count characters.
-/

import ShaderGraph.Text.Comment

namespace ShaderGraph.Block

structure Position where
  line : Nat
  column : Nat
  deriving DecidableEq, Repr

def Position.first : Position := ⟨1, 1⟩

def Position.next (p : Position) (c : Char) : Position :=
  if c == '\n' then ⟨p.line + 1, 1⟩ else ⟨p.line, p.column + 1⟩

def Position.past (p : Position) (cs : List Char) : Position := cs.foldl Position.next p

inductive Token where
  /-- The trimmed text of a line. -/
  | line (text : List Char)
  | openBrace
  | closeBrace
  | semicolon
  | newline
  /-- A `/*` without its `*/`. -/
  | unclosed
  | finish
  deriving DecidableEq, Repr

structure Lexeme where
  token : Token
  position : Position
  deriving DecidableEq, Repr

/-- The character is not part of a line when `after` follows it. -/
def stopsLine (c : Char) (after : List Char) : Bool :=
  c == '\x7b' || c == '\x7d' || c == ';' || Text.endsLine c ||
    c == '/' && (after.head? == some '/' || after.head? == some '*')

/-- The run of characters of one line, and what follows it. -/
def lineRun : List Char → List Char × List Char
  | [] => ([], [])
  | c :: cs =>
    if stopsLine c cs then ([], c :: cs)
    else
      let (run, rest) := lineRun cs
      (c :: run, rest)

theorem lineRun_append (cs : List Char) : (lineRun cs).1 ++ (lineRun cs).2 = cs := by
  fun_induction lineRun cs with
  | case1 => rfl
  | case2 => rfl
  | case3 c cs h run rest e ih => simp_all

theorem length_lineRun_lt {c : Char} {cs : List Char} (h : stopsLine c cs = false) :
    (lineRun (c :: cs)).2.length < (c :: cs).length := by
  have := congrArg List.length (lineRun_append (c :: cs))
  simp only [List.length_append] at this
  have : 0 < (lineRun (c :: cs)).1.length := by simp [lineRun, h]
  omega

def mark? (c : Char) : Option Token :=
  if c == '\x7b' then some .openBrace
  else if c == '\x7d' then some .closeBrace
  else if c == ';' then some .semicolon
  else if Text.endsLine c then some .newline
  else none

/-- The tokens of a text whose first character stands at `p`. -/
def lexemes (p : Position) (cs : List Char) : List Lexeme :=
  let here := p.past (Text.gap cs).1
  match hg : (Text.gap cs).2 with
  | [] => [⟨.finish, here⟩]
  | c :: rest =>
    have hle : (c :: rest).length ≤ cs.length := hg ▸ Text.length_gap_le cs
    match mark? c with
    | some token => ⟨token, here⟩ :: lexemes (here.next c) rest
    | none =>
      if hs : stopsLine c rest then [⟨.unclosed, here⟩]
      else
        have := length_lineRun_lt (by simpa using hs)
        ⟨.line (Text.trim (lineRun (c :: rest)).1), here⟩ ::
          lexemes (here.past (lineRun (c :: rest)).1) (lineRun (c :: rest)).2
termination_by cs.length
decreasing_by
  · simp only [List.length_cons] at hle; omega
  · omega

end ShaderGraph.Block
