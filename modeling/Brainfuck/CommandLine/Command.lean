import Brainfuck.CommandLine.Arguments

/-!
# Commands

There are three commands: run a file, convert a file between dialects, and list what can be chosen.
The command is named first, though two dashes may stand before its name. Arguments that make no
command are a matter of usage; whether settings are known is not looked at here.

## Main definitions

* `Command`: the commands
* `Command.parse`: the command that arguments make
-/

namespace Brainfuck.CommandLine

/-- What the command line asks for, with settings as they were given. -/
inductive Command
  | run (path : String) (dialect width bounds : Option String) (size : Option Nat) (stats : Bool)
  | convert (input output src dst : String)
  | list (target : String)
  deriving DecidableEq, Repr

namespace Command

/-- The arguments of the command to run a file. -/
def parseRun (args : List String) : Option Command := do
  let a ← Arguments.scan ⟨["dialect", "width", "size", "bounds"], ["stats"]⟩ args
  let size ← match a.values.lookup "size" with
    | none => some none
    | some text => (Arguments.size? text).map some
  match a.positionals with
  | [path] =>
    some (run path (a.values.lookup "dialect") (a.values.lookup "width") (a.values.lookup "bounds")
      size ("stats" ∈ a.switches))
  | _ => none

/-- The arguments of the command to convert a file. -/
def parseConvert (args : List String) : Option Command := do
  let a ← Arguments.scan ⟨["from", "to"], []⟩ args
  let src ← a.values.lookup "from"
  let dst ← a.values.lookup "to"
  match a.positionals with
  | [input, output] => some (convert input output src dst)
  | _ => none

/-- The arguments of the command to list what can be chosen. -/
def parseList (args : List String) : Option Command := do
  let a ← Arguments.scan ⟨[], []⟩ args
  match a.positionals with
  | [target] => some (list target)
  | _ => none

/-- The command of a name with its arguments. -/
def ofWords : List String → Option Command
  | "run" :: args => parseRun args
  | "convert" :: args => parseConvert args
  | "list" :: args => parseList args
  | _ => none

/-- The command that the arguments of a program make. The two dashes before the name of a command
do not end its options. -/
def parse : List String → Option Command
  | "--" :: args => ofWords args
  | args => ofWords args

end Command

end Brainfuck.CommandLine
