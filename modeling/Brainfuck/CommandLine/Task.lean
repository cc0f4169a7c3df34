import Brainfuck.CommandLine.Command
import Brainfuck.Runner

/-!
# Tasks

A command whose settings are all known is a task, and a task is performed on a file system with
an input. The output of a run goes to the standard output, with a line end after it if the run
completes.

## Main definitions

* `Failure`: why a command fails
* `Task`, `Task.ofCommand`: a command with its settings read
* `Conclusion`: what is left of a command
* `Task.perform`, `execute`: performing a task, and a whole command line
-/

namespace Brainfuck.CommandLine

/-- Why a command fails. -/
inductive Failure
  | setting (e : ConfigError)
  | unknownTarget (target : String)
  | run (path : String) (e : Error)
  | unreadable (path : String) (cause : FileError)
  | unwritable (path : String) (cause : FileError)
  deriving DecidableEq, Repr

/-- The failure with everything behind it. -/
def Failure.report : Failure → String
  | setting e => e.message
  | unknownTarget target => s!"Unknown list target: {target}, expected dialects or memories"
  | run path e => s!"Failed run file {path}: {e.report}"
  | unreadable path cause => s!"{Error.openFailure path}: {cause.message}"
  | unwritable path cause => s!"Failed write {path}: {cause.message}"

/-- A command whose settings are known. -/
inductive Task
  | run (path : String) (dialect : Dialect) (config : Config) (stats : Bool)
  | convert (input output : String) (src dst : Dialect)
  | list (lines : List String)
  deriving DecidableEq, Repr

/-- A dialect given by name. -/
def dialect? (text : String) : Except ConfigError Dialect :=
  match DialectName.ofText? text with
  | some name => .ok name.dialect
  | none => .error (.unknownDialect text)

/-- A setting that may be left out. -/
def optional {α : Type} (read : String → Except ConfigError α) (default : α) :
    Option String → Except ConfigError α
  | none => .ok default
  | some text => read text

/-- The lines about the dialects that have a name. -/
def dialectLines : List String :=
  DialectName.all.map fun name => s!"{name.key} - {name.text}"

/-- The lines about the widths of cells. -/
def widthLines : List String :=
  Width.all.map fun width => s!"{width.text} - {width.name}"

namespace Task

/-- Read the settings of a command. The first that is not known is reported: the dialect, the width
and the bounds of a run, in this order. A size of zero stands for the usual one. -/
def ofCommand : Command → Except Failure Task
  | .run path dialect width bounds size stats =>
    let settings := do
      let dialect ← optional dialect? .brainfuck dialect
      let width ← optional Config.width? .byte width
      let policy ← optional Config.policy? .fatal bounds
      let usual : Config := {}
      let capacity := (size.filter (0 < ·)).getD usual.capacity
      return run path dialect { width, capacity, policy } stats
    settings.mapError .setting
  | .convert input output src dst =>
    let settings := do
      let src ← dialect? src
      let dst ← dialect? dst
      return convert input output src dst
    settings.mapError .setting
  | .list target =>
    if Name.agree target "dialects" then .ok (list dialectLines)
    else if Name.agree target "memories" then .ok (list widthLines)
    else .error (.unknownTarget target)

end Task

/-- How a command line ends. -/
inductive Verdict
  /-- The arguments make no command. -/
  | usage
  | failed (f : Failure)
  /-- A run broke off, and there is nothing to report. -/
  | broken (f : Fault)
  /-- All is done; the number of instructions executed is given if it was asked for. -/
  | succeeded (executed : Option Nat)
  deriving DecidableEq, Repr

/-- The exit code. -/
def Verdict.code : Verdict → Nat
  | usage => 1
  | failed _ => 1
  | broken _ => 101
  | succeeded _ => 0

/-- How a command line ends that comes to a failure. A fault is not reported. -/
def Verdict.ofFailure : Failure → Verdict
  | .run _ (.run (.fault f)) => .broken f
  | f => .failed f

/-- What is left of a command: how it ended, what it wrote, and the files afterwards. -/
structure Conclusion where
  verdict : Verdict
  written : Array UInt8
  files : FileSystem

namespace Conclusion

/-- The conclusion of a run of the file at `path`. -/
def ofTranscript (path : String) (stats : Bool) (files : FileSystem) (t : Transcript) :
    Conclusion :=
  match t.result with
  | .error e => ⟨.ofFailure (.run path e), t.output.written, files⟩
  | .ok report =>
    ⟨.succeeded (if stats then some report.outcome.executed else none),
      t.output.written.push 10, files⟩

/-- The conclusion of a command that writes a text. -/
def ofText (text : String) (files : FileSystem) : Conclusion :=
  ⟨.succeeded none, text.toUTF8.data, files⟩

end Conclusion

/-- Convert a file between dialects. -/
def convertFile (input output : String) (src dst : Dialect) (files : FileSystem) :
    Except Failure FileSystem := do
  let text ← (files.readText input).mapError (.unreadable input)
  (files.write output (convert src dst text).toUTF8).mapError (.unwritable output)

/-- Perform a task, if it ends within so many rounds. -/
def Task.perform (rounds : Nat) (files : FileSystem) (input : Input) : Task → Option Conclusion
  | run path dialect config stats =>
    let runner : Runner := { config }
    (runner.runFile rounds files path dialect input (.ofDevice .unlimited)).map
      (.ofTranscript path stats files)
  | convert source target src dst =>
    match convertFile source target src dst files with
    | .error f => some ⟨.failed f, #[], files⟩
    | .ok files => some (.ofText s!"Converted {source} -> {target}\n" files)
  | list lines => some (.ofText (String.join (lines.map (· ++ "\n"))) files)

/-- Perform what the arguments of a program ask for, if it ends within so many rounds. -/
def execute (rounds : Nat) (args : List String) (files : FileSystem) (input : Input) :
    Option Conclusion :=
  match Command.parse args with
  | none => some ⟨.usage, #[], files⟩
  | some command =>
    match Task.ofCommand command with
    | .error f => some ⟨.failed f, #[], files⟩
    | .ok task => task.perform rounds files input

end Brainfuck.CommandLine
