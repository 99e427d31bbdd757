/-
  ShaderGraph.Main — the program: it reads the files that the command can ask for, runs
  the command on them, and prints what it leaves.
-/

import ShaderGraph.Command

namespace ShaderGraph.Main

/-- The number of an error, which may come with its sign turned. -/
def number (code : UInt32) : UInt32 := if code < 0x80000000 then code else 0 - code

def reason : IO.Error → Unreadable
  | .noFileOrDirectory .. => .noSuchFile
  | .inappropriateType _ code _ => if number code == 20 then .notADirectory else .isADirectory
  | .permissionDenied _ code details =>
    .system s!"{details.capitalize} (os error {number code})"
  | .invalidArgument _ code details =>
    if number code == 36 then .nameTooLong
    else .system s!"{details.capitalize} (os error {number code})"
  | error => .system error.toString

def readFile (path : String) : IO (Except Unreadable String) := do
  if path.isEmpty then return .error .noSuchFile
  if path.toList.contains '\x00' then return .error .nulInPath
  try
    match String.fromUTF8? (← IO.FS.readBinFile path) with
    | some text => return .ok text
    | none => return .error .notText
  catch error => return .error (reason error)

/-- Everything that a request can read, under its path. -/
def gather (request : Command.Request) : IO (List (String × Except Unreadable String)) := do
  let material ← readFile request.material
  let wanted := match material with
    | .ok text => Command.wantedPaths request.root text
    | .error _ => []
  let files ← wanted.mapM fun path => return (path, ← readFile path)
  return (request.material, material) :: files

def readFrom (gathered : List (String × Except Unreadable String)) (path : String) :
    Except Unreadable String :=
  (gathered.lookup path).getD (.error .noSuchFile)

end ShaderGraph.Main

def main (arguments : List String) : IO UInt32 := do
  let gathered ← match ShaderGraph.Command.request? arguments with
    | some request => ShaderGraph.Main.gather request
    | none => pure []
  let outcome := ShaderGraph.Command.run (ShaderGraph.Main.readFrom gathered) arguments
  IO.print outcome.output
  IO.eprint outcome.complaint
  return outcome.exitCode.toUInt32
