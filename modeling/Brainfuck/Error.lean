import Brainfuck.FileSystem
import Brainfuck.JumpTable
import Brainfuck.RunError

/-!
# Errors

Everything that keeps a program from running to its end.

## Main definitions

* `ConfigError`: why a setting is rejected
* `Error`: all causes
* `Error.message`: how a cause is worded
* `Error.report`: the cause with what is behind it
-/

namespace Brainfuck

/-- Why a setting is rejected. -/
inductive ConfigError
  | noCells
  | unknownPolicy (text : String)
  | unknownWidth (text : String)
  | unknownDialect (text : String)
  deriving DecidableEq, Repr

namespace ConfigError

def cause : ConfigError → String
  | noCells => "tape capacity must be positive"
  | unknownPolicy text => s!"unknown bounds policy '{text}'"
  | unknownWidth text => s!"unknown cell width '{text}', expected 8, 16 or 32"
  | unknownDialect text => s!"unknown dialect '{text}'"

def message (e : ConfigError) : String :=
  s!"Invalid memory config: {e.cause}"

end ConfigError

/-- What keeps a program from running to its end. -/
inductive Error
  /-- The source file cannot be read. -/
  | unreadable (path : String) (cause : FileError)
  | loops (e : LoopError)
  | config (e : ConfigError)
  | run (e : RunError)
  deriving DecidableEq, Repr

namespace Error

/-- What happened to the file at `path`. -/
def openFailure (path : String) : String :=
  s!"Failed open source file {path}"

def message : Error → String
  | unreadable path _ => s!"InternalError: {openFailure path}"
  | loops e => e.message
  | config e => e.message
  | run e => e.message

/-- What is behind an error, the nearest cause first. -/
def causes : Error → List String
  | unreadable path cause => [openFailure path, cause.message]
  | run (.output cause) => [cause]
  | _ => []

/-- The error with everything behind it. -/
def report (e : Error) : String :=
  ": ".intercalate (e.message :: e.causes)

end Error

end Brainfuck
