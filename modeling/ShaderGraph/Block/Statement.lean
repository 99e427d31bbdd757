/-
  ShaderGraph.Block.Statement — a text of the block language as a forest of statements.

  A statement is a line with the statements of the block attached to it. A line ends at a
  line end or at `;`; `{` attaches a block to the line before it, also across line ends,
  but not across `;`. Reading walks over the tokens once with a `Reader`: the statements
  read so far in the innermost block, the last line while a block may still follow it,
  and the blocks around. It fails at the first token that cannot continue the text: a `{`
  without a line, a `}` without a block, a comment or a block that is never closed.
-/

import ShaderGraph.Block.Token

namespace ShaderGraph.Block

/-- The line a statement was read from: its number, from 1, and its trimmed text. -/
structure Location where
  number : Nat
  text : String
  deriving DecidableEq, Repr, Inhabited

structure Statement where
  location : Location
  /-- The statements of the attached block. -/
  contents : List Statement
  deriving Repr, Inhabited

namespace Statement

def line (s : Statement) : String := s.location.text

/-- The first word of the line, ended by a space or a brace but not by a tab. -/
def keyword (s : Statement) : String :=
  .ofList (s.line.toList.takeWhile fun c => c != ' ' && c != '\x7b')

def ofLine (line : String) (number : Nat) : Statement :=
  ⟨⟨number, .ofList (Text.trim line.toList)⟩, []⟩

end Statement

/-! ## The reader -/

/-- A block that is still open: the line it belongs to, and the statements before that line,
newest first. -/
structure Frame where
  owner : Location
  before : List Statement

structure Reader where
  /-- Statements of the innermost block, newest first. -/
  done : List Statement
  /-- The last line, while a block may still be attached to it. -/
  pending : Option Location
  /-- Blocks around, innermost first. -/
  outer : List Frame

namespace Reader

def start : Reader := ⟨[], none, []⟩

/-- Statements of the innermost block in order, newest first: the pending line has no block. -/
def settled (r : Reader) : List Statement :=
  match r.pending with
  | some owner => ⟨owner, []⟩ :: r.done
  | none => r.done

/-- One token: `none` where it cannot continue the text. -/
def step (r : Reader) (lexeme : Lexeme) : Option Reader :=
  match lexeme.token, r.pending, r.outer with
  | .line text, _, outer => some ⟨r.settled, some ⟨lexeme.position.line, .ofList text⟩, outer⟩
  | .newline, _, _ => some r
  | .semicolon, _, outer => some ⟨r.settled, none, outer⟩
  | .openBrace, some owner, outer => some ⟨[], none, ⟨owner, r.done⟩ :: outer⟩
  | .openBrace, none, _ => none
  | .closeBrace, _, frame :: outer =>
    some ⟨⟨frame.owner, r.settled.reverse⟩ :: frame.before, none, outer⟩
  | .closeBrace, _, [] => none
  | .unclosed, _, _ => none
  | .finish, _, [] => some r
  | .finish, _, _ :: _ => none

/-- All tokens in order; the position of the first one that cannot continue otherwise. -/
def run (r : Reader) : List Lexeme → Except Position Reader
  | [] => .ok r
  | lexeme :: rest => match r.step lexeme with
    | some next => next.run rest
    | none => .error lexeme.position

end Reader

def read (text : String) : Except Position (List Statement) :=
  (Reader.start.run (lexemes .first text.toList)).map (·.settled.reverse)

/-- Statements with the number of blocks around them, each before the ones of its own block. -/
def rows (depth : Nat) : List Statement → List (Nat × Statement)
  | [] => []
  | ⟨location, contents⟩ :: rest =>
    (depth, ⟨location, contents⟩) :: rows (depth + 1) contents ++ rows depth rest

end ShaderGraph.Block
