import Brainfuck.CommandLine.Task

/-!
# The program

The command line on a real system. Files are read and written at once. A run gets its input byte
by byte when an instruction asks for it, and its output is passed on after every instruction.
-/

namespace Brainfuck.Main

open CommandLine

variable {w : Width}

/-- The reason that the system gives for a file. Its codes come with either sign. -/
def fileError : IO.Error → FileError
  | .noFileOrDirectory .. => .notFound
  | e@(.inappropriateType _ code _) =>
    if code = 21 ∨ code = -21 then .isDirectory
    else if code = 20 ∨ code = -20 then .notDirectory
    else .other e.toString
  | e@(.invalidArgument _ code _) =>
    if code = 36 ∨ code = -36 then .nameTooLong else .other e.toString
  | e => .other e.toString

/-- Read a file as a text. -/
def readText (path : String) : IO (Except FileError String) := do
  try return FileSystem.decode (← IO.FS.readBinFile path)
  catch e => return .error (fileError e)

/-- Write a text to a file. -/
def writeText (path text : String) : IO (Except FileError Unit) := do
  try
    IO.FS.writeBinFile path text.toUTF8
    return .ok ()
  catch e => return .error (fileError e)

/-- What happens to a read of one byte from the standard input. -/
def readByte (stdin : IO.FS.Stream) : IO ReadEvent := do
  try
    let bytes ← stdin.read 1
    return bytes.data[0]?.elim .endOfInput .byte
  catch e => return .failure e.toString

/-- Read a byte if the next instruction asks for one. -/
def feed (stdin : IO.FS.Stream) (p : Program) (r : Run w) : IO (Run w) := do
  match p.instructions[r.pc]?, r.machine.input with
  | some ⟨.input, _, _⟩, [] =>
    let event ← readByte stdin
    return { r with machine := { r.machine with input := [event] } }
  | _, _ => return r

/-- Pass on what was written, or tell why that is not possible. -/
def drain (stdout : IO.FS.Stream) (r : Run w) : IO (Run w × Option String) := do
  if r.machine.output.written.isEmpty then return (r, none)
  let output := { r.machine.output with written := #[] }
  let rest := { r with machine := { r.machine with output } }
  try
    stdout.write ⟨r.machine.output.written⟩
    return (rest, none)
  catch e => return (rest, some e.toString)

/-- Run a program to its end. -/
partial def drive (stdin stdout : IO.FS.Stream) (p : Program) (rules : Rules) (r : Run w) :
    IO (Ending × Run w) := do
  match (← feed stdin p r).advance p rules with
  | .ended ending r => return (ending, r)
  | .running r =>
    match ← drain stdout r with
    | (r, none) => drive stdin stdout p rules r
    | (r, some cause) => return (.failed (.output cause), r)

/-- Print events that matter. -/
def logEvents (events : List Event) : IO Unit := do
  for e in events do
    unless e.level = .debug do IO.eprintln e.text

/-- Run a text on the standard streams. -/
def runText (runner : Runner) (dialect : Dialect) (source : String) :
    IO (Except Error Report) := do
  let stdin ← IO.getStdin
  let stdout ← IO.getStdout
  let (text, _) := Runner.inCharacters dialect source
  match (runner.prepare text).1 with
  | .error e => return .error e
  | .ok job =>
    let machine : Machine job.width :=
      { tape := job.tape, input := [], output := .ofDevice .unlimited, cancelled := false }
    let (ending, r) ← drive stdin stdout job.program runner.rules (.start machine)
    stdout.flush
    let t := Runner.conclude job.program [] (Execution.close ending r)
    logEvents t.events
    return t.result

/-- Perform a task. -/
def perform : Task → IO (Except Failure Unit)
  | .run path dialect config stats => do
    let began ← IO.monoMsNow
    let result ← match ← readText path with
      | .error cause => pure (.error (.unreadable path cause))
      | .ok source => runText { config } dialect source
    match result with
    | .error e => return .error (.run path e)
    | .ok report =>
      IO.println ""
      if stats then
        IO.eprintln s!"INFO {report.outcome.summary (1000 * ((← IO.monoMsNow) - began))}"
      return .ok ()
  | .convert input output src dst => do
    match ← readText input with
    | .error cause => return .error (.unreadable input cause)
    | .ok text =>
      match ← writeText output (convert src dst text) with
      | .error cause => return .error (.unwritable output cause)
      | .ok () =>
        IO.println s!"Converted {input} -> {output}"
        return .ok ()
  | .list lines => do
    for line in lines do IO.println line
    return .ok ()

/-- How the program is called. -/
def usage : String :=
  "\n".intercalate
    ["Usage:",
      "  run PATH [--dialect NAME] [--width BITS] [--size CELLS] [--bounds POLICY] [--stats]",
      "  convert INPUT OUTPUT --from NAME --to NAME",
      "  list dialects|memories"]

/-- Report a failure; the exit code. -/
def fail (f : Failure) : IO UInt32 := do
  let verdict := Verdict.ofFailure f
  match verdict with
  | .broken fault => IO.eprintln fault.message
  | _ => IO.eprintln s!"Failed: {f.report}"
  return verdict.code.toUInt32

/-- Perform what the arguments ask for; the exit code. -/
def execute (args : List String) : IO UInt32 := do
  match Command.parse args with
  | none =>
    IO.eprintln usage
    return 1
  | some command =>
    match Task.ofCommand command with
    | .error f => fail f
    | .ok task =>
      match ← perform task with
      | .error f => fail f
      | .ok () => return 0

end Brainfuck.Main

def main (args : List String) : IO UInt32 :=
  Brainfuck.Main.execute args
