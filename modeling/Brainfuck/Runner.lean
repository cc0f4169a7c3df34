import Brainfuck.Compile
import Brainfuck.Config
import Brainfuck.Dialect.Conversion
import Brainfuck.Execution

/-!
# Runners

A runner takes a text through all steps: it is converted if its dialect asks for it, compiled, and
executed on a blank tape of the runner's configuration. A runner has a flag that stops its runs;
the streams of a run may raise it, and no run lowers it. A text can also be run by itself: then a
runner is made for it alone.

## Main definitions

* `Runner`: a configuration with the state of its flag
* `Runner.run`, `Runner.runDialect`, `Runner.runFile`: running a text, of any dialect, from a file
* `Runner.runOnce`: running a text by itself
* `Transcript`: everything that comes of a run
* `Request`, `Runner.serve`: a run described as data
-/

namespace Brainfuck

/-- A configuration with the state of its flag. -/
structure Runner where
  config : Config
  /-- Whether the runs of this runner have been asked to stop. -/
  cancelled : Bool := false
  /-- Whether its runs look at the flag. -/
  heedsCancel : Bool := true
  deriving DecidableEq, Repr

/-- What is reported of a run that completes: the program that was executed, and the outcome. -/
structure Report where
  instructions : List Instruction
  outcome : Outcome
  deriving DecidableEq, Repr

/-- Everything that comes of a run. -/
structure Transcript where
  result : Except Error Report
  /-- What was logged, in order. -/
  events : List Event
  /-- What is left of the input. -/
  input : Input
  output : Output
  /-- The state of the runner's flag afterwards. -/
  cancelled : Bool

/-- A program on a blank tape. -/
structure Job where
  width : Width
  program : Program
  tape : Tape width

namespace Runner

/-- What the runs of a runner go by. -/
def rules (r : Runner) : Rules :=
  ⟨r.config.policy, r.heedsCancel⟩

/-- Compile a text for a runner, with what is logged. A tape without cells is rejected before the
text is read, and the tape is laid out after the loops are resolved. -/
def prepare (r : Runner) (source : String) : Except Error Job × List Event :=
  match r.config.validate with
  | .error e => (.error (.config e), [])
  | .ok () =>
    let compilation := Compilation.ofSource source
    let job := do
      let program ← compilation.program.mapError .loops
      let tape ← r.config.tape
      return ⟨r.config.width, program, tape⟩
    (job, compilation.events)

/-- The transcript of a run that was executed, after the events of its compilation. -/
def conclude (program : Program) (events : List Event) {w : Width} (x : Execution w) :
    Transcript :=
  let (result, completed) : Except Error Report × List Event :=
    match x.result with
    | .error e => (.error (.run e), [])
    | .ok o =>
      (.ok ⟨program.instructions.toList, o⟩,
        [.completed program.size o.executed o.completion])
  { result
    events := events ++ x.events.toList ++ completed
    input := x.machine.input
    output := x.machine.output
    cancelled := x.machine.cancelled }

/-- The transcript of a run that did not come to execution. -/
def refuse (r : Runner) (e : Error) (events : List Event) (input : Input) (output : Output) :
    Transcript :=
  { result := .error e, events, input, output, cancelled := r.cancelled }

/-- Run a text, if its run ends within so many rounds. -/
def run (r : Runner) (rounds : Nat) (source : String) (input : Input) (output : Output) :
    Option Transcript :=
  match r.prepare source with
  | (.error e, events) => some (r.refuse e events input output)
  | (.ok job, events) =>
    (job.program.execute r.rules rounds
      { tape := job.tape, input, output, cancelled := r.cancelled }).map
      (conclude job.program events)

/-- A text of some dialect as a text of characters, with what is logged. -/
def inCharacters (dialect : Dialect) (source : String) : String × List Event :=
  if dialect = .brainfuck then (source, [])
  else
    let result := convert dialect .brainfuck source
    (result, [Conversion.event dialect .brainfuck source result])

/-- Run a text of some dialect. A text of characters is run as it is. -/
def runDialect (r : Runner) (rounds : Nat) (dialect : Dialect) (source : String) (input : Input)
    (output : Output) : Option Transcript :=
  let (text, events) := inCharacters dialect source
  (r.run rounds text input output).map fun t => { t with events := events ++ t.events }

/-- Run the text in a file. The file is read before anything else. -/
def runFile (r : Runner) (rounds : Nat) (files : FileSystem) (path : String)
    (dialect : Dialect) (input : Input) (output : Output) : Option Transcript :=
  match files.readText path with
  | .error cause => some (r.refuse (.unreadable path cause) [] input output)
  | .ok source => r.runDialect rounds dialect source input output

/-- Run a text by itself, on a runner that is made for it with a configuration. Nobody has the flag
of that runner, so that nothing stops the run: what its streams ask, only its transcript tells. -/
def runOnce (config : Config) (rounds : Nat) (source : String) (input : Input) (output : Output) :
    Option Transcript :=
  Runner.run { config, heedsCancel := false } rounds source input output

end Runner

/-! ## Requests -/

/-- Where the text of a run comes from. -/
inductive Origin
  | text (source : String)
  | file (files : FileSystem) (path : String)

/-- A run described as data. -/
structure Request where
  origin : Origin
  dialect : Option Dialect := none
  input : Input
  output : Output

/-- Run what a request describes. -/
def Runner.serve (r : Runner) (rounds : Nat) (request : Request) : Option Transcript :=
  match request.origin, request.dialect with
  | .file files path, dialect =>
    r.runFile rounds files path (dialect.getD .brainfuck) request.input request.output
  | .text source, some dialect => r.runDialect rounds dialect source request.input request.output
  | .text source, none => r.run rounds source request.input request.output

end Brainfuck
