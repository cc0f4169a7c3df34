import Brainfuck.FileTree

/-!
# File systems

A file system is a tree of files with a working directory in it. A path is a row of names with
slashes between them, and it is followed from the working directory or, if it starts with a slash,
from the root. Empty names and `.` stay in a directory and `..` leaves it, though never the root.

The files are ordinary ones, which hold what was written and can be read once they are written. There
are no permissions, no links, and no devices among them.

## Main definitions

* `FileSystem`: a tree and the place of its working directory
* `FileSystem.locate`: the place that a path leads to
* `FileSystem.read`, `FileSystem.write`: the content of the file at a path
* `FileSystem.readText`: the content as a text
-/

namespace Brainfuck

/-- Why a file cannot be read or written. -/
inductive FileError
  | notFound
  | isDirectory
  | notDirectory
  | nameTooLong
  /-- The content is no text in UTF-8. -/
  | notText
  /-- Anything else, in the words of the system. -/
  | other (cause : String)
  deriving DecidableEq, Repr

def FileError.message : FileError → String
  | notFound => "No such file or directory (os error 2)"
  | isDirectory => "Is a directory (os error 21)"
  | notDirectory => "Not a directory (os error 20)"
  | nameTooLong => "File name too long (os error 36)"
  | notText => "stream did not contain valid UTF-8"
  | other cause => cause

/-! ## Paths -/

namespace Path

/-- The parts of a text between slashes, the empty ones too. -/
def split : List Char → List (List Char)
  | [] => [[]]
  | c :: cs =>
    if c = '/' then [] :: split cs
    else
      match split cs with
      | [] => [[c]]
      | part :: parts => (c :: part) :: parts

/-- The names in a path. -/
def names (path : String) : List String :=
  ((split path.toList).filter (· ≠ [])).map String.ofList

/-- A path that starts with a slash. -/
def isAbsolute (path : String) : Bool :=
  path.toList.head? == some '/'

/-- A path that ends in a slash can only lead to a directory. -/
def endsInSlash (path : String) : Bool :=
  path.toList.getLast? == some '/'

/-- A path has fewer bytes than this. -/
def limit : Nat := 4096

/-- A name has at most so many bytes. -/
def nameLimit : Nat := 255

end Path

/-! ## Following paths -/

/-- Follow a name from a place, which has to be a directory. Nothing need be where it leads. -/
def FileTree.follow (root : FileTree) (here : List String) (name : String) :
    Except FileError (List String) :=
  match root.get? here with
  | none => .error .notFound
  | some (.file _) => .error .notDirectory
  | some (.directory _) =>
    if name = "." then .ok here
    else if name = ".." then .ok here.dropLast
    else if Path.nameLimit < name.utf8ByteSize then .error .nameTooLong
    else .ok (here ++ [name])

/-- A tree and the place of its working directory. -/
structure FileSystem where
  root : FileTree
  /-- The names on the way from the root to the working directory. -/
  workplace : List String

namespace FileSystem

/-- The place where a path starts. -/
def origin (fs : FileSystem) (path : String) : List String :=
  if Path.isAbsolute path then [] else fs.workplace

/-- The place that a path leads to. -/
def locate (fs : FileSystem) (path : String) : Except FileError (List String) :=
  if path = "" then .error .notFound
  else if Path.limit ≤ path.utf8ByteSize then .error .nameTooLong
  else (Path.names path).foldlM fs.root.follow (fs.origin path)

/-- The content of the file at a path. -/
def read (fs : FileSystem) (path : String) : Except FileError ByteArray := do
  let place ← fs.locate path
  match fs.root.get? place with
  | none => .error .notFound
  | some (.directory _) => .error .isDirectory
  | some (.file content) => if Path.endsInSlash path then .error .notDirectory else .ok content

/-- Put a file with the given content at a path, in place of any file that is there. -/
def write (fs : FileSystem) (path : String) (content : ByteArray) :
    Except FileError FileSystem := do
  let place ← fs.locate path
  match fs.root.get? place with
  | some (.directory _) => .error .isDirectory
  | _ =>
    if Path.endsInSlash path then .error .isDirectory
    else .ok { fs with root := FileTree.put (.file content) place fs.root }

/-- The text of a content in UTF-8. -/
def decode (content : ByteArray) : Except FileError String :=
  match String.fromUTF8? content with
  | some text => .ok text
  | none => .error .notText

/-- The content of the file at a path as a text. -/
def readText (fs : FileSystem) (path : String) : Except FileError String :=
  (fs.read path).bind decode

/-- What is in the working directory. -/
def workingDirectory? (fs : FileSystem) : Option FileTree :=
  fs.root.get? fs.workplace

end FileSystem

end Brainfuck
