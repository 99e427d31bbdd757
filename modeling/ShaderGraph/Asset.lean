/-
  ShaderGraph.Asset — where the files of definitions come from.

  A store answers a path with the text of the file or with the reason why there is none.
  Whatever is wrong with a file of definitions, the fault says which file it is: the full
  text of the fault inside becomes the reason, and its line is not a line of the material
  (`AssetStore.definitions`).

  In a tree of directories a path is walked name by name from the directory it starts in.
  Only a directory can be entered, also by an empty name, `.` or `..`; names end at `/`. The
  walk succeeds at a file. Around the tree lies a place of which nothing is known but that it
  is a directory: `..` leads there, and no name is found there. A path that is too long as a
  whole is refused before the walk, and a name that is too long when the walk comes to it.
-/

import ShaderGraph.Definition
import ShaderGraph.Text.Blank

namespace ShaderGraph

/-! ## Stores -/

/-- Why a path gives no text. -/
inductive Unreadable where
  /-- A store of named texts has no such name. -/
  | absent
  | noSuchFile
  | notADirectory
  | isADirectory
  | nameTooLong
  /-- The path holds the character that ends paths. -/
  | nulInPath
  /-- The bytes of the file are no text. -/
  | notText
  /-- Any other reason, as the system words it. -/
  | system (text : String)
  deriving DecidableEq, Repr

def Unreadable.message : Unreadable → String
  | absent => "not found"
  | noSuchFile => "No such file or directory (os error 2)"
  | notADirectory => "Not a directory (os error 20)"
  | isADirectory => "Is a directory (os error 21)"
  | nameTooLong => "File name too long (os error 36)"
  | nulInPath => "file name contained an unexpected NUL byte"
  | notText => "stream did not contain valid UTF-8"
  | system text => text

structure AssetStore where
  read : String → Except Unreadable String

namespace AssetStore

def ofFiles (files : List (String × String)) : AssetStore :=
  ⟨fun path => match files.lookup path with
    | some text => .ok text
    | none => .error .absent⟩

def definitions (store : AssetStore) (options : ReadOptions) (path : String) :
    Except Fault (List Definition) :=
  match store.read path with
  | .error reason => .error (Cause.asset path reason.message).unlocated
  | .ok text => (readDefinitionFile options text).mapError fun fault =>
      (Cause.asset path fault.message).unlocated

end AssetStore

/-! ## Directories -/

/-- The files below a directory, each with the names that lead to it. -/
structure Directory where
  files : List (List String × String)

inductive Place where
  /-- Outside of the tree. -/
  | around
  | directory (names : List String)
  | file (text : String)
  deriving DecidableEq, Repr

namespace Directory

def namesOf (path : String) : List String := (Text.fields '/' path.toList).map String.ofList

def ofFiles (files : List (String × String)) : Directory :=
  ⟨files.map fun (path, text) => ((namesOf path).filter fun name => name != "" && name != ".", text)⟩

def text? (d : Directory) (names : List String) : Option String := d.files.lookup names

def isDirectory (d : Directory) (names : List String) : Bool :=
  d.files.any fun (path, _) => names.isPrefixOf path && names.length < path.length

/-- The longest name that a directory can hold, in bytes. -/
def nameLimit : Nat := 255

/-- The longest path that can be walked, in bytes. -/
def pathLimit : Nat := 4095

def enter (d : Directory) (place : Place) (name : String) : Except Unreadable Place :=
  match place with
  | .file _ => .error .notADirectory
  | .around =>
    if name ∈ ["", ".", ".."] then .ok .around
    else if nameLimit < name.utf8ByteSize then .error .nameTooLong
    else .error .noSuchFile
  | .directory names =>
    if name ∈ ["", "."] then .ok (.directory names)
    else if name = ".." then
      .ok (if names.isEmpty then .around else .directory names.dropLast)
    else if nameLimit < name.utf8ByteSize then .error .nameTooLong
    else match d.text? (names ++ [name]) with
      | some text => .ok (.file text)
      | none =>
        if d.isDirectory (names ++ [name]) then .ok (.directory (names ++ [name]))
        else .error .noSuchFile

def read (d : Directory) (path : String) : Except Unreadable String :=
  if path.toList.contains '\x00' then .error .nulInPath
  else if path.isEmpty then .error .noSuchFile
  else if pathLimit < path.utf8ByteSize then .error .nameTooLong
  else
    let start := if path.toList.head? == some '/' then Place.around else .directory []
    match (namesOf path).foldlM d.enter start with
    | .error reason => .error reason
    | .ok (.file text) => .ok text
    | .ok _ => .error .isADirectory

end Directory

/-- The path of something that is asked for relative to `root`. -/
def joinPath (root path : String) : String :=
  if path.toList.head? == some '/' || root.isEmpty then path
  else if root.toList.getLast? == some '/' then root ++ path
  else root ++ "/" ++ path

/-- The store of the files below `root`, given how to read any path. -/
def AssetStore.below (read : String → Except Unreadable String) (root : String) : AssetStore :=
  ⟨fun path => read (joinPath root path)⟩

end ShaderGraph
